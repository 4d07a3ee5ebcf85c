import Assembler.Session
/-!
Whole programs: the statements of a source text in order, and then its end.

Macro definitions are recorded under the name of their prototype and are not expanded; what is inside of
them is passed over. Statements of conditional assembly are passed over too.
-/

namespace Assembler

/-- The assembly of a program as far as it has been read, and the place of the next line with respect to
macro definitions. -/
structure Program where
  session : Session
  /-- How many macro definitions the next line is inside of. -/
  depth : Nat := 0
  /-- Whether the next line is the prototype of a macro. -/
  atPrototype : Bool := false

namespace Program

/-- Passes the prototype of a macro. A macro defined inside of another is not recorded. -/
def passPrototype (p : Program) (opcode : Text) : Program :=
  { p with
    atPrototype := false
    session := if p.depth = 1 then p.session.defineMacro opcode .source else p.session }

/-- Carries out a statement, or reports why it cannot be read. -/
def process (p : Program) (fields : Source.Fields) (location : Location) : Program :=
  let (result, session) := p.session.processLine fields location
  match result with
  | .ok _ => { p with session }
  | .error e =>
    { p with
      session := session.mapAssembly (·.addDiagnostic
        { code := Fault.unevaluable.code, message := e.message, location }) }

/-- Takes in the next instruction line. -/
def instruction (p : Program) (fields : Source.Fields) (location : Location) : Program :=
  if p.atPrototype then p.passPrototype fields.opcode
  else
    match Directive.roleOf? (.ofText fields.opcode) with
    | some .macroStart => { p with depth := p.depth + 1, atPrototype := true }
    | some .macroEnd =>
      if p.depth = 0 then p.process fields location else { p with depth := p.depth - 1 }
    | some .conditional => p
    | _ => if p.depth = 0 then p.process fields location else p

/-- Takes in the next line, which has the given number. -/
def line (p : Program) (number : Nat) : Source.Line → Program
  | .instruction fields => p.instruction fields { line := number - 1 }
  | _ => p

/-- The state after all lines of a source text. -/
def passLines (settings : Settings) (source : Text) : Program :=
  (Source.parse source).foldl (fun p numbered => p.line numbered.1 numbered.2)
    { session := .new settings }

/-- The completed session of a source text. -/
def assemble (settings : Settings) (source : Text) : Session :=
  (passLines settings source).session.finish

end Program

end Assembler
