import Assembler.Name
/-!
Data attributes: what a reference such as `L'FIELD` asks for, and of what.
-/

namespace Assembler

inductive AttributeKind
  | length
  | type
  | integer
  | scale
  | count
  | number
  | defined
  | opcode
deriving DecidableEq

namespace AttributeKind

/-- The letter before the apostrophe of a reference. -/
def letter : AttributeKind → Char
  | length => 'L'
  | type => 'T'
  | integer => 'I'
  | scale => 'S'
  | count => 'K'
  | number => 'N'
  | defined => 'D'
  | opcode => 'O'

/-- All kinds. -/
def all : List AttributeKind :=
  [length, type, integer, scale, count, number, defined, opcode]

/-- The kind with a given letter, in either case. -/
def ofLetter? (c : Char) : Option AttributeKind := all.find? (·.letter = c.toUpper)

theorem ofLetter?_letter (k : AttributeKind) : ofLetter? k.letter = some k := by
  cases k <;> decide

theorem eq_of_letter {j k : AttributeKind} (h : j.letter = k.letter) : j = k := by
  have := congrArg ofLetter? h
  simpa only [ofLetter?_letter, Option.some.injEq] using this

end AttributeKind

/-- What an attribute reference names. -/
inductive AttributeOperand
  /-- An ordinary symbol, or an operation code for `O'`. -/
  | symbol (name : Name)
  /-- A variable symbol, named without its ampersand. -/
  | variableSymbol (name : Name)
deriving DecidableEq

end Assembler
