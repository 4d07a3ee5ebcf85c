import Assembler.Diagnostic
import Assembler.Directive
import Assembler.Data.Reading
import Assembler.Source.Line
/-!
Statements: instruction lines with their operands read.
-/

namespace Assembler

inductive OrgOperands
  /-- Without operands: to the highest place reached. -/
  | highest
  | place (target? boundary? offset? : Option Expr)
deriving DecidableEq

/-- What a statement does to symbols and location counters. -/
inductive Operation
  | equ (value? length? type? : Option Expr)
  | data (storageOnly : Bool) (operands : List DataOperand)
  | org (operands : OrgOperands)
  | sectionStart (kind : SectionKind)
  | counterStart
  /-- A machine instruction or a macro call, depending on the operation code. -/
  | instruction
  /-- Nothing. -/
  | other
deriving DecidableEq

structure Statement where
  label? : Option Name
  opcode : Name
  operation : Operation
  location : Location
deriving DecidableEq

namespace Statement

/-- Whether a text can be the name of an ordinary symbol. -/
def isOrdinaryName (t : Text) : Bool :=
  t.head?.any Source.isNameStart && t.all Source.isNameChar && t.length ≤ 63

/-- Reads a name field. Sequence symbols and variable symbols name nothing here. -/
def readLabel : Option Text → Reading (Option Name)
  | none => return none
  | some t =>
    if t.head? = some '.' ∨ t.head? = some '&' then return none
    else if isOrdinaryName t then some <$> .mention (.ofText t)
    else .fail (.invalidLabel t)

/-- The operands between commas; blank text has none. -/
def operandTexts (t : Text) : List Text :=
  if t.all Text.isBlank then [] else Source.splitCommas t

/-- Reads the operand with a given number as an expression, if there is such an operand and it is not
blank. -/
def readOperand (texts : List Text) (i : Nat) : Reading (Option Expr) :=
  match texts[i]? with
  | some t => Expr.readOptional t
  | none => return none

/-- Reads the operands of an assembler instruction. -/
def readOperation (role : DirectiveRole) (texts : List Text) : Reading Operation :=
  match role with
  | .equ => do
    let value? ← readOperand texts 0
    let length? ← readOperand texts 1
    let type? ← readOperand texts 2
    return .equ value? length? type?
  | .data storageOnly =>
    if texts.isEmpty then .fail .missingOperand
    else return .data storageOnly (← texts.mapM DataOperand.read)
  | .org =>
    if texts.all (·.all Text.isBlank) then return .org .highest
    else do
      let target? ← readOperand texts 0
      let boundary? ← readOperand texts 1
      let offset? ← readOperand texts 2
      return .org (.place target? boundary? offset?)
  | .sectionStart kind => return .sectionStart kind
  | .counterStart => return .counterStart
  | _ => return .other

/-- Reads the statement in an instruction line. -/
def read (fields : Source.Fields) (location : Location) : Reading Statement := do
  let label? ← readLabel fields.label?
  let opcode ← .mention (.ofText fields.opcode)
  let operation : Operation ←
    match Directive.roleOf? opcode with
    | some role => readOperation role (operandTexts fields.operands)
    | none => pure .instruction
  return { label?, opcode, operation, location }

end Statement

end Assembler
