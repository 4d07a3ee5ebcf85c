import Assembler.Source.Quote
/-!
Lines of source text.

A line has a name field that starts in the first column, an operation code, operands that end at a blank,
and remarks. A line with a character other than a space in column 72 goes on in column 16 of the next
line.
-/

namespace Assembler.Source

/-- The fields of an instruction line. -/
structure Fields where
  label? : Option Text
  opcode : Text
  operands : Text
  remarks : Text
deriving DecidableEq

inductive Line
  /-- A line of comment, as it stands. -/
  | comment (text : Text)
  | instruction (fields : Fields)
  | blank
deriving DecidableEq

/-- A text up to its first blank, and the rest. -/
def cutWord (t : Text) : Text × Text :=
  (t.takeWhile (!Text.isBlank ·), t.dropWhile (!Text.isBlank ·))

/-- The fields of a line, of which the name field is given already. -/
def fieldsAfter (label? : Option Text) (rest : Text) : Fields :=
  let (opcode, rest) := cutWord (Text.trimStart rest)
  let (operands, remarks) := splitOperands (Text.trimStart rest)
  { label?, opcode, operands, remarks }

def isComment (t : Text) : Bool :=
  match t with
  | '*' :: _ => true
  | '.' :: '*' :: _ => true
  | _ => false

namespace Line

/-- The line that a text is. -/
def ofText (t : Text) : Line :=
  if isComment t then comment t
  else if t.all Text.isBlank then blank
  else if t.head?.any Text.isBlank then instruction (fieldsAfter none t)
  else
    let (label, rest) := cutWord t
    instruction (fieldsAfter (some label) rest)

end Line

/-- Whether a line goes on in the next one. -/
def isContinued (t : Text) : Bool := t[71]?.any (· ≠ ' ')

/-- The columns of a line that carry the text of a first line or of a continuation. -/
def firstPart (line : Text) : Text := Text.trimEnd (Text.columns 0 71 line)

def continuationPart (line : Text) : Text := Text.trimEnd (Text.columns 15 71 line)

/-- The text that the given lines continue with, and the number of lines it takes. -/
def continuation : List Text → Text × Nat
  | [] => ([], 0)
  | line :: rest =>
    if isContinued line then
      let (more, n) := continuation rest
      (continuationPart line ++ more, n + 1)
    else (continuationPart line, 1)

/-- Joins continued lines. Each text comes with the number of its first line. -/
def joinLines (number : Nat) : List Text → List (Nat × Text)
  | [] => []
  | line :: rest =>
    if isContinued line then
      let (more, n) := continuation rest
      (number, firstPart line ++ more) :: joinLines (number + 1 + n) (rest.drop n)
    else (number, line) :: joinLines (number + 1) rest
termination_by lines => lines.length
decreasing_by
  · rw [List.length_drop, List.length_cons]; omega
  · exact Nat.lt_succ_self _

/-- The lines of a source text, each with the number, counted from one, of its first physical line. -/
def parse (t : Text) : List (Nat × Line) :=
  (joinLines 1 (Text.lines t)).map fun (number, line) => (number, .ofText line)

end Assembler.Source
