import Assembler.Assembly.Process
/-!
A session: an assembly, with the names that have been mentioned to it.

Names are numbered in the order of their first mention. Reading a line or an expression mentions names
whether it succeeds or not.
-/

namespace Assembler

structure Session where
  names : Roster := {}
  assembly : Assembly

namespace Session

variable {α : Type}

/-- A session in which nothing has happened. -/
def new (settings : Settings) : Session := { assembly := .new settings }

def mentionAll (s : Session) (ns : List Name) : Session :=
  { s with names := s.names.mentionAll ns }

def mapAssembly (s : Session) (f : Assembly → Assembly) : Session :=
  { s with assembly := f s.assembly }

/-- The result of reading something, and the session with the names that were mentioned. -/
def read (s : Session) (r : Reading α) : Except ReadError α × Session :=
  (r.result, s.mentionAll r.mentions)

/-! ### Steps -/

/-- Carries out an instruction line, if it can be read as a statement. The name of the source member is
mentioned first. -/
def processLine (s : Session) (fields : Source.Fields) (location : Location) :
    Except ReadError Statement × Session :=
  let (result, s) :=
    (s.mentionAll location.file?.toList).read (Statement.read fields location)
  match result with
  | .ok st => (.ok st, s.mapAssembly (·.process st))
  | .error e => (.error e, s)

/-- Completes the assembly at the end of the source. -/
def finish (s : Session) : Session := s.mapAssembly Assembly.finish

/-- The name that a variable symbol has without its ampersands. -/
def variableName (t : Text) : Name := .ofText (t.dropWhile (· = '&'))

/-- Gives a variable symbol a value. -/
def defineVariable (s : Session) (t : Text) (v : VariableValue) : Session :=
  let n := variableName t
  (s.mentionAll [n]).mapAssembly (·.defineVariable n v)

/-- Records a macro definition. -/
def defineMacro (s : Session) (t : Text) (origin : MacroOrigin) : Session :=
  let n := Name.ofText t
  (s.mentionAll [n]).mapAssembly (·.defineMacro n origin)

/-- Takes the diagnostics away. -/
def takeDiagnostics (s : Session) : List Diagnostic × Session :=
  (s.assembly.diagnostics, s.mapAssembly ({ · with diagnostics := [] }))

/-! ### Requests -/

/-- The attribute of an ordinary symbol or an operation code. -/
def requestAttribute (s : Session) (kind : AttributeKind) (t : Text) : Evaluation Int32 × Session :=
  let n := Name.ofText t
  (s.assembly.attributeOf kind (.symbol n) {}, s.mentionAll [n])

/-- The attribute of a variable symbol. -/
def requestVariableAttribute (s : Session) (kind : AttributeKind) (t : Text) :
    Evaluation Int32 × Session :=
  let n := variableName t
  (s.assembly.attributeOf kind (.variableSymbol n) {}, s.mentionAll [n])

/-- Reads an expression for evaluation outside of a statement. The name of the source member is
mentioned first, and the label last if the expression can be read. -/
def readExpr (s : Session) (t : Text) (label? : Option Name) (location : Location) :
    Except ReadError Expr × Session :=
  let (result, s) := (s.mentionAll location.file?.toList).read (Expr.read t)
  match result with
  | .ok e => (.ok e, s.mentionAll label?.toList)
  | .error e => (.error e, s)

/-- The frame for an expression outside of a statement, with or without the location counter in
use. -/
def frame (s : Session) (label? : Option Name) (location : Location) (withCounter : Bool) : Frame :=
  { position? := if withCounter then s.assembly.layout.current.map (·.position) else none
    label?
    location }

/-- The symbols with their numbers as names, in the order of these. -/
def symbols (s : Session) : List (Nat × Symbol) :=
  s.names.names.zipIdx.filterMap fun (n, i) => (s.assembly.symbols.get? n).map (i, ·)

end Session

end Assembler
