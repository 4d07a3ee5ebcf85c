import Assembler.Layout.Alignment
/-!
The types of constants and storage areas, and what each implies: length, alignment, type attribute,
range of the length modifier and integer attribute.
-/

namespace Assembler

/-- Whether a number is a signed 32-bit number. -/
def FitsInt32 (n : Int) : Prop := -2147483648 ≤ n ∧ n < 2147483648

instance (n : Int) : Decidable (FitsInt32 n) := inferInstanceAs (Decidable (_ ∧ _))

/-- The representations of floating-point numbers. -/
inductive FloatFormat
  | hex
  | binary
  | decimal
deriving DecidableEq

/-- The extension of a floating-point type code. -/
def FloatFormat.extension? : FloatFormat → Option Char
  | hex => none
  | binary => some 'B'
  | decimal => some 'D'

/-- A type code with its extension. -/
inductive DataType
  /-- Address. -/
  | a
  /-- Address in a doubleword. -/
  | ad
  /-- Binary. -/
  | b
  /-- Character. -/
  | c
  /-- Character, in ASCII. -/
  | ca
  /-- Character, in EBCDIC. -/
  | ce
  /-- Character, in Unicode. -/
  | cu
  /-- Long floating-point. -/
  | d (format : FloatFormat)
  /-- Short floating-point. -/
  | e (format : FloatFormat)
  /-- Extended floating-point. -/
  | l (format : FloatFormat)
  /-- Fixed-point fullword. -/
  | f
  /-- Fixed-point doubleword. -/
  | fd
  /-- Graphic. -/
  | g
  /-- Fixed-point halfword. -/
  | h
  /-- Length of a class. -/
  | j
  /-- Packed decimal. -/
  | p
  /-- Offset in an external dummy section. -/
  | q
  | qd
  /-- Address of a PSECT. -/
  | r
  | rd
  /-- Base and displacement. -/
  | s
  /-- External address. -/
  | v
  | vd
  /-- Hexadecimal. -/
  | x
  /-- Address in a halfword. -/
  | y
  /-- Zoned decimal. -/
  | z
deriving DecidableEq

namespace DataType

/-- All types. -/
def all : List DataType :=
  [a, ad, b, c, ca, ce, cu, d .hex, d .binary, d .decimal, e .hex, e .binary, e .decimal, l .hex,
    l .binary, l .decimal, f, fd, g, h, j, p, q, qd, r, rd, s, v, vd, x, y, z]

/-- The type code, without its extension. -/
def code : DataType → Char
  | a | ad => 'A'
  | b => 'B'
  | c | ca | ce | cu => 'C'
  | d _ => 'D'
  | e _ => 'E'
  | l _ => 'L'
  | f | fd => 'F'
  | g => 'G'
  | h => 'H'
  | j => 'J'
  | p => 'P'
  | q | qd => 'Q'
  | r | rd => 'R'
  | s => 'S'
  | v | vd => 'V'
  | x => 'X'
  | y => 'Y'
  | z => 'Z'

/-- The extension of the type code. -/
def extension? : DataType → Option Char
  | ad | fd | qd | rd | vd => some 'D'
  | ca => some 'A'
  | ce => some 'E'
  | cu => some 'U'
  | d format | e format | l format => format.extension?
  | _ => none

/-- The type with a given code and extension, in either case. `H` may be written for the hexadecimal
representation. -/
def ofCode? (code : Char) (extension? : Option Char) : Option DataType :=
  let code := code.toUpper
  let extension? := extension?.map Char.toUpper
  let extension? := if code ∈ ['D', 'E', 'L'] ∧ extension? = some 'H' then none else extension?
  all.find? fun t => t.code = code ∧ t.extension? = extension?

/-- Whether a character after a type code is its extension. -/
def isExtension (code extension : Char) : Bool := (ofCode? code (some extension)).isSome

/-- The length of a value of the type, where it does not depend on the value. -/
def defaultLength : DataType → Nat
  | a | q | r | v | j => 4
  | ad | qd | rd | vd | fd => 8
  | b | c | ca | ce | p | x | z => 1
  | cu | g => 2
  | d _ => 8
  | e _ => 4
  | l _ => 16
  | f => 4
  | h | s | y => 2

/-- The alignment without a length modifier. -/
def alignment : DataType → Alignment
  | a | q | r | v | j | f | e _ => .fullword
  | ad | qd | rd | vd | fd | d _ | l _ => .doubleword
  | h | y | s => .halfword
  | _ => .any

/-- The type attribute with a length modifier, where it differs. -/
def modifiedLetter? : DataType → Option Char
  | a | ad | q | qd | r | rd | s | v | vd | y | j => some 'R'
  | f | fd | h => some 'G'
  | d _ | e _ | l _ => some 'K'
  | _ => none

/-- The type attribute without a length modifier: the type code, except for graphic. -/
def plainLetter (t : DataType) : Char := if t = g then '@' else t.code

/-- The type attribute, which depends on whether there is a length modifier. -/
def typeLetter (t : DataType) (modified : Bool) : Char :=
  if modified then t.modifiedLetter?.getD t.plainLetter else t.plainLetter

/-- The least and the greatest length modifier, in bytes. Storage without contents may be longer. -/
def lengthBounds (storageOnly : Bool) : DataType → Int32 × Int32
  | c | ca | ce | x => if storageOnly then (1, 65535) else (1, 256)
  | g => if storageOnly then (1, 65534) else (1, 256)
  | b | cu => (1, 256)
  | f | fd | h => (1, 8)
  | p | z => (1, 16)
  | d _ | e _ => (1, 8)
  | l _ => (1, 16)
  | a | q => (1, 4)
  | ad | qd | rd | vd => (1, 8)
  | r | v => (3, 4)
  | j => (2, 4)
  | s => (2, 2)
  | y => (1, 2)

/-- Whether values are expressions in parentheses. -/
def takesExpressions : DataType → Bool
  | a | ad | j | q | qd | r | rd | s | v | vd | y => true
  | _ => false

/-- Whether a quoted string is a single value, commas included. -/
def takesText : DataType → Bool
  | c | ca | ce | cu | g => true
  | _ => false

/-- Whether constants of the type have a scale attribute. -/
def hasScale : DataType → Bool
  | f | fd | h | p | z | d _ | e _ | l _ => true
  | _ => false

/-- The number of digits before the point in a constant of a given length and scale. -/
def integerDigits (t : DataType) (length : Nat) (scale : Int) : Int :=
  match t with
  | f | fd | h => 8 * length - scale - 1
  | p => 2 * length - scale - 1
  | z => length - scale
  | d .hex | e .hex | l .hex =>
    if 8 < length then 2 * ((length : Int) - 1) - scale - 2 else 2 * ((length : Int) - 1) - scale
  | _ => 0

/-- The numbers that the digits are computed through, from the first to the digits themselves. They are exact, while
the integer attribute keeps to 32 bits. -/
def integerSteps (t : DataType) (length : Nat) (scale : Int) : List Int :=
  match t with
  | f | fd | h => [8 * length, 8 * length - scale, 8 * length - scale - 1]
  | p => [2 * length, 2 * length - scale, 2 * length - scale - 1]
  | z => [length - scale]
  | d .hex | e .hex | l .hex =>
    let doubled : List Int := [length - 1, 2 * ((length : Int) - 1), 2 * ((length : Int) - 1) - scale]
    if 8 < length then doubled ++ [2 * ((length : Int) - 1) - scale - 2] else doubled
  | _ => []

/-- The digits are what is computed last. -/
theorem getLastD_integerSteps (t : DataType) (length : Nat) (scale : Int) :
    (t.integerSteps length scale).getLastD 0 = t.integerDigits length scale := by
  unfold integerSteps integerDigits
  split <;> first | rfl | (dsimp only; split <;> rfl)

/-- The integer attribute of a constant of a given length and scale. -/
def integerAttribute (t : DataType) (length : Nat) (scale : Int32) : Int32 :=
  Int32.ofInt (t.integerDigits length scale.toInt)

end DataType

end Assembler
