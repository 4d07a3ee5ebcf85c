import Assembler.Directive
import Assembler.Instruction
import Assembler.Layout.Basic
import Assembler.Settings
import Assembler.Task
/-!
The state of an assembly, and what expressions can see of it.
-/

namespace Assembler

/-- The value of a variable symbol. -/
inductive VariableValue
  | arithmetic (n : Int32)
  | boolean (b : Bool)
  | character (t : Text)
  /-- The items of a list in parentheses. -/
  | list (items : List Text)
  /-- Declared without a value. -/
  | unset
deriving DecidableEq

namespace VariableValue

/-- The number of characters of the value. -/
def count : VariableValue → Nat
  | arithmetic n => (Numeral.signed n.toInt).length
  | boolean _ => 1
  | character t => t.length
  | list items => ([','].intercalate items).length + 2
  | unset => 0

/-- The number of items of the value. -/
def number : VariableValue → Nat
  | list items => items.length
  | unset => 0
  | _ => 1

def typeLetter : VariableValue → Char
  | arithmetic _ | boolean _ => 'N'
  | character _ | list _ => 'U'
  | unset => 'O'

end VariableValue

/-- The place of a macro definition. -/
inductive MacroOrigin
  /-- In the source itself. -/
  | source
  | library
deriving DecidableEq

/-- The type letter of the operation code attribute of a macro. -/
def MacroOrigin.letter : MacroOrigin → Char
  | source => 'M'
  | library => 'S'

structure Assembly where
  settings : Settings
  symbols : SymbolTable := {}
  layout : Layout
  pendings : PendingTable Job := {}
  variableValues : Std.ExtTreeMap Name VariableValue := ∅
  macros : Std.ExtTreeMap Name MacroOrigin := ∅
  /-- In the order of reporting. -/
  diagnostics : List Diagnostic := []
  /-- The pending work to be tried next, each once. -/
  worklist : List Nat := []
  /-- Pending work put aside because a cascade took too long. -/
  stalled : List Nat := []
  /-- Whether the end of the source has been reached. -/
  finished : Bool := false
  /-- The names that have been reported as undefined. -/
  reported : List Name := []

namespace Assembly

/-- The assembly of a program of which nothing has been read. -/
def new (settings : Settings) : Assembly :=
  { settings, layout := .new settings.counterAlignment }

/-! ### Reporting -/

/-- Adds a diagnostic unless there are as many as the settings allow. -/
def addDiagnostic (s : Assembly) (d : Diagnostic) : Assembly :=
  if 0 < s.settings.maxDiagnostics ∧ s.settings.maxDiagnostics ≤ s.diagnostics.length then s
  else { s with diagnostics := s.diagnostics ++ [d] }

def report (s : Assembly) (f : Fault) (location : Location) : Assembly :=
  s.addDiagnostic (.ofFault f location)

/-! ### Attributes -/

/-- The code of a letter as a number. -/
def letterCode (c : Char) : Int32 := Int32.ofNat (Ebcdic.encode c).toNat

/-- Waits for an attribute. At the end of the source it has a value without being defined. -/
def attributeOr (s : Assembly) (n : Name) (kind : AttributeKind) (value : Int32) :
    Evaluation Int32 :=
  if s.finished then .resolved value else .blocked [.attr n kind]

/-- An attribute of a name that is not in the symbol table. -/
def undefinedAttribute (s : Assembly) (kind : AttributeKind) (n : Name) : Evaluation Int32 :=
  match kind with
  | .length => s.attributeOr n kind 1
  | .type => s.attributeOr n kind (letterCode 'U')
  | .scale | .integer => s.attributeOr n kind 0
  | .defined => .resolved 0
  | .count | .number | .opcode => .fallback 0 .attributeMisuse

/-- An attribute that symbols of some origins do not have. -/
def slotAttribute (s : Assembly) (kind : AttributeKind) (n : Name) : Slot Int32 → Evaluation Int32
  | .known v => .resolved v
  | .pending => s.attributeOr n kind 0
  | .absent => .fallback 0 .attributeMisuse

/-- An attribute of a symbol. Before it has a value, the label of a statement has the type `M` in the
statement itself. -/
def symbolAttribute (s : Assembly) (kind : AttributeKind) (sym : Symbol) (f : Frame) :
    Evaluation Int32 :=
  match kind with
  | .type =>
    if f.label? = some sym.name ∧ !sym.isDefined then .resolved (letterCode 'M')
    else .resolved (Int32.ofNat sym.attributes.type.toNat)
  | .length =>
    match sym.attributes.length with
    | .known n => .resolved (Int32.ofNat n)
    | .pending => s.attributeOr sym.name kind 1
    | .absent => .resolved 1
  | .scale => s.slotAttribute kind sym.name sym.attributes.scale
  | .integer => s.slotAttribute kind sym.name sym.attributes.integer
  | .defined =>
    if sym.isDefined then .resolved 1
    else if s.finished then .resolved 0
    else .blocked [.symbol sym.name]
  | .count | .number | .opcode => .fallback 0 .attributeMisuse

/-- The operation code attribute. Macros come before assembler and machine instructions of the same
name. -/
def opcodeAttribute (s : Assembly) (n : Name) : Evaluation Int32 :=
  match s.macros[n]? with
  | some origin => .resolved (letterCode origin.letter)
  | none =>
    if (Directive.find? n).isSome then .resolved (letterCode 'A')
    else
      match Instruction.find? n with
      | some i => .resolved (letterCode i.kind.letter)
      | none => s.attributeOr n .opcode (letterCode 'U')

def variableAttribute (s : Assembly) (kind : AttributeKind) (n : Name) : Evaluation Int32 :=
  match s.variableValues[n]? with
  | none => .fallback 0 (.unresolved "variable symbol" n.text)
  | some v =>
    match kind with
    | .count => .resolved (Int32.ofNat v.count)
    | .number => .resolved (Int32.ofNat v.number)
    | .type => .resolved (letterCode v.typeLetter)
    | _ => .fallback 0 .attributeMisuse

/-- The attribute that a reference asks for. -/
def attributeOf (s : Assembly) (kind : AttributeKind) (operand : AttributeOperand) (f : Frame) :
    Evaluation Int32 :=
  match operand with
  | .variableSymbol n => s.variableAttribute kind n
  | .symbol n =>
    if kind = .opcode then s.opcodeAttribute n
    else
      match s.symbols.get? n with
      | some sym => s.symbolAttribute kind sym f
      | none => s.undefinedAttribute kind n

/-! ### What expressions see -/

/-- The symbols, attributes and spaces that expressions are evaluated with. -/
def scope (s : Assembly) : Scope where
  value? n := (s.symbols.get? n).bind (·.value?)
  attributeOf := s.attributeOf
  spaces := s.layout.spaces

def evaluate (s : Assembly) (e : Expr) (f : Frame) : Evaluation Value := e.evaluate s.scope f

def evaluateNumber (s : Assembly) (e : Expr) (f : Frame) : Evaluation Int32 :=
  e.evaluateNumber s.scope f

/-! ### Queries -/

/-- The value of a symbol, with the lengths of its spaces put in. -/
def valueOf? (s : Assembly) (sym : Symbol) : Option Value :=
  sym.value?.map (·.normalize s.layout.spaces)

/-- The number that a symbol stands for, or its distance from the start of its section. -/
def lookup? (s : Assembly) (n : Name) : Option Int32 := do
  match ← s.valueOf? (← s.symbols.get? n) with
  | .absolute v => some v
  | .relocatable a => if a.isSimple ∧ a.spaces.isEmpty then some a.offset else none

/-- The kind of the section with a given name. -/
def sectionKind? (s : Assembly) (n : Name) : Option SectionKind := do
  let sect ← s.layout.section? (← s.layout.findSection? n)
  return sect.kind

end Assembly

end Assembler
