import Assembler.Numeral
/-!
Tokens of JSON text.

A string may spell half of a surrogate pair without the other half. Such a string is well formed, but
there is no text that it stands for. A number has a value here only if it is written as a natural
number.
-/

namespace Assembler.Json

inductive Token
  | openArray
  | closeArray
  | openObject
  | closeObject
  | comma
  | colon
  | null
  | bool (b : Bool)
  | number (n? : Option Nat)
  | string (text? : Option Text)
deriving DecidableEq

namespace Token

/-- The characters that tokens may be separated by. -/
def isBlank (c : Char) : Bool := c ∈ [' ', '\t', '\n', '\r']

/-! ### Strings -/

/-- What a backslash and the given character stand for, apart from code points in hexadecimal. -/
def escape? (c : Char) : Option Char :=
  [('"', '"'), ('\\', '\\'), ('/', '/'), ('b', '\x08'), ('f', '\x0c'), ('n', '\n'), ('r', '\r'),
    ('t', '\t')].lookup c

/-- Reads up to the quotation mark that ends a string. The result is the code points that the string
spells, surrogates among them, and the number of characters read. -/
def readString? : Text → Option (List Nat × Nat)
  | [] => none
  | '"' :: _ => some ([], 1)
  | '\\' :: 'u' :: a :: b :: c :: d :: rest => do
    let code ← Numeral.read? 16 [a, b, c, d]
    let (codes, n) ← readString? rest
    return (code :: codes, n + 6)
  | '\\' :: c :: rest => do
    let e ← escape? c
    let (codes, n) ← readString? rest
    return (e.toNat :: codes, n + 2)
  | c :: rest =>
    if c.toNat < 0x20 then none
    else do
      let (codes, n) ← readString? rest
      return (c.toNat :: codes, n + 1)

def isHighSurrogate (code : Nat) : Bool := 0xD800 ≤ code && code < 0xDC00

def isLowSurrogate (code : Nat) : Bool := 0xDC00 ≤ code && code < 0xE000

/-- The text of code points in which surrogates form pairs. There is none if one of them is alone. -/
def textOfCodes? : List Nat → Option Text
  | [] => some []
  | high :: rest =>
    if isHighSurrogate high then
      match rest with
      | low :: more =>
        if isLowSurrogate low then
          (textOfCodes? more).map
            (Char.ofNat (0x10000 + (high - 0xD800) * 0x400 + (low - 0xDC00)) :: ·)
        else none
      | [] => none
    else if isLowSurrogate high then none
    else (textOfCodes? rest).map (Char.ofNat high :: ·)

/-! ### Numbers -/

/-- The number of digits that a text starts with. -/
def digitCount (t : Text) : Nat := (t.takeWhile Char.isDigit).length

/-- The length of the whole part at the start of a text. It has no zeros in front. -/
def wholeLength? (t : Text) : Option Nat :=
  if t.head? = some '0' then some 1
  else if digitCount t = 0 then none
  else some (digitCount t)

/-- The length of the fraction at the start of a text, zero without one. -/
def fractionLength? : Text → Option Nat
  | '.' :: rest => if digitCount rest = 0 then none else some (digitCount rest + 1)
  | _ => some 0

/-- The length of the exponent at the start of a text, zero without one. -/
def exponentLength? : Text → Option Nat
  | [] => some 0
  | c :: rest =>
    if c = 'e' ∨ c = 'E' then
      let sign := if rest.head? = some '+' ∨ rest.head? = some '-' then 1 else 0
      let digits := digitCount (rest.drop sign)
      if digits = 0 then none else some (1 + sign + digits)
    else some 0

/-- The number at the start of a text, and its length. -/
def scanNumber? (t : Text) : Option (Token × Nat) := do
  let sign := if t.head? = some '-' then 1 else 0
  let whole ← wholeLength? (t.drop sign)
  let fraction ← fractionLength? (t.drop (sign + whole))
  let exponent ← exponentLength? (t.drop (sign + whole + fraction))
  let n? := if sign + fraction + exponent = 0 then Numeral.read? 10 (t.take whole) else none
  return (number n?, sign + whole + fraction + exponent)

/-! ### All tokens -/

/-- The tokens that are spelled in one way only. -/
def fixed : List (Text × Token) :=
  [("[".toList, openArray), ("]".toList, closeArray), (['{'], openObject), (['}'], closeObject),
    (",".toList, comma), (":".toList, colon), ("null".toList, null), ("true".toList, bool true),
    ("false".toList, bool false)]

/-- The token at the start of a text, and its length. -/
def scanOne? (t : Text) : Option (Token × Nat) :=
  match fixed.find? (·.1.isPrefixOf t) with
  | some (spelling, token) => some (token, spelling.length)
  | none =>
    match t with
    | '"' :: rest => (readString? rest).map fun (codes, n) => (string (textOfCodes? codes), n + 1)
    | t => scanNumber? t

/-- The tokens of a text, if all of it consists of tokens. -/
def scan? : Text → Option (List Token)
  | [] => some []
  | c :: rest =>
    if isBlank c then scan? rest
    else do
      let (token, n) ← scanOne? (c :: rest)
      let more ← scan? (rest.drop (n - 1))
      return token :: more
termination_by t => t.length

end Token

end Assembler.Json
