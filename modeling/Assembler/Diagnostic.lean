import Assembler.Name
import Assembler.Numeral
/-!
What is reported about a source program: faults, their codes and texts, and the diagnostics made of
them.
-/

namespace Assembler

/-- The place of a statement; lines and columns are counted from zero. -/
structure Location where
  /-- The source member; there is no name for the main source. -/
  file? : Option Name := none
  line : Nat := 0
  column : Nat := 0
deriving DecidableEq

inductive Severity
  | error
  | warning
  | info
deriving DecidableEq

def Severity.text : Severity → String
  | error => "error"
  | warning => "warning"
  | info => "info"

/-- The classes of faults. -/
inductive FaultClass
  | redefinition
  | unresolvedReference
  | cyclicDependency
  | alignmentViolation
  | attributeMisuse
  | invalidOperand
deriving DecidableEq

/-- What can be wrong with a statement that could be read. -/
inductive Fault
  /-- The name belongs to something else already. -/
  | redefinition (what : String)
  /-- A name is used and never defined. -/
  | unresolved (kind name : String)
  /-- A value depends on itself. -/
  | cyclic
  /-- A move leaves its section or counter. -/
  | outsideSection
  | orgNotRelocatable
  | orgOperandFormat
  | orgBoundary
  /-- The symbol has no such attribute. -/
  | attributeMisuse
  | unevaluable
  | equLength
  | equType
  /-- A length modifier is outside the range of its type. -/
  | lengthModifier (type : Char) (min max : Int32)
deriving DecidableEq

namespace Fault

def code : Fault → String
  | redefinition _ => "E031"
  | unresolved _ _ => "E010"
  | cyclic => "E033"
  | outsideSection => "E068"
  | orgNotRelocatable => "A245"
  | orgOperandFormat => "A115"
  | orgBoundary => "A116"
  | attributeMisuse => "E066"
  | unevaluable => "E016"
  | equLength => "A133"
  | equType => "A134"
  | lengthModifier _ _ _ => "D008"

def category : Fault → FaultClass
  | redefinition _ => .redefinition
  | unresolved _ _ => .unresolvedReference
  | cyclic => .cyclicDependency
  | outsideSection => .alignmentViolation
  | orgNotRelocatable => .invalidOperand
  | orgOperandFormat => .invalidOperand
  | orgBoundary => .alignmentViolation
  | attributeMisuse => .attributeMisuse
  | unevaluable => .invalidOperand
  | equLength => .invalidOperand
  | equType => .invalidOperand
  | lengthModifier _ _ _ => .invalidOperand

/-- The name under which tools know a kind of fault. -/
def identifier : Fault → String
  | redefinition _ => "hlasm::redefinition"
  | unresolved _ _ => "hlasm::unresolved_reference"
  | cyclic => "hlasm::cyclic_dependency"
  | outsideSection => "hlasm::outside_section"
  | orgNotRelocatable => "hlasm::org_not_relocatable"
  | orgOperandFormat => "hlasm::org_operand_format"
  | orgBoundary => "hlasm::org_boundary"
  | attributeMisuse => "hlasm::attribute_misuse"
  | unevaluable => "hlasm::unable_to_evaluate"
  | equLength => "hlasm::equ_length"
  | equType => "hlasm::equ_type"
  | lengthModifier _ _ _ => "hlasm::length_modifier"

def message : Fault → String
  | redefinition what => "Cannot declare " ++ what ++ " with the same name"
  | unresolved kind name => "Unknown " ++ kind ++ ": " ++ name
  | cyclic => "Cyclic symbol definition"
  | outsideSection => "Operand value falls outside of current section/LOCTR"
  | orgNotRelocatable =>
    "Error at ORG instruction: operand must specify relocatable expression"
  | orgOperandFormat =>
    "Error at ORG instruction: operand value must be either an absolute expression " ++
      "or the operand must be omitted"
  | orgBoundary =>
    "Error at ORG instruction: boundary operand value must be either a number that is " ++
      "a power of 2 with a range from 2 to 4096, or must be omitted"
  | attributeMisuse => "Illegal attribute reference"
  | unevaluable => "Unable to evaluate operand"
  | equLength =>
    "Error at EQU instruction: operand representing length attribute value must either " ++
      "be an absolute value in the range 0 through 65535 or must be omitted"
  | equType =>
    "Error at EQU instruction: operand representing type attribute value must either " ++
      "be an absolute value in the range 0 through 255 or must be omitted"
  | lengthModifier type min max =>
    "The length modifier of type " ++ type.toString ++ " must be between " ++
      Numeral.signed min.toInt ++ " and " ++ Numeral.signed max.toInt

end Fault

structure Diagnostic where
  severity : Severity := .error
  code : String
  message : String
  location : Location
  /-- The class of the fault, if the diagnostic is about a fault. -/
  category? : Option FaultClass := none
  suggestion? : Option String := none
deriving DecidableEq

namespace Diagnostic

/-- The diagnostic that reports a fault. -/
def ofFault (f : Fault) (location : Location) : Diagnostic :=
  { code := f.code, message := f.message, location, category? := some f.category }

def suggest (d : Diagnostic) (suggestion : String) : Diagnostic :=
  { d with suggestion? := some suggestion }

def isError (d : Diagnostic) : Bool := d.severity = .error

/-- One line: severity, code, message, and the suggestion in parentheses. -/
def text (d : Diagnostic) : String :=
  d.severity.text ++ "[" ++ d.code ++ "]: " ++ d.message ++
    match d.suggestion? with
    | some s => " (" ++ s ++ ")"
    | none => ""

end Diagnostic

end Assembler
