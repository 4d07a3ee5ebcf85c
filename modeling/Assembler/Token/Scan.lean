import Assembler.Source.Quote
import Assembler.Token.Basic
/-!
Division of operand text into tokens.
-/

namespace Assembler

/-- Why a text cannot be divided into tokens; columns are counted from one. -/
inductive ScanError
  | unterminatedString (column : Nat)
  | unexpectedCharacter (c : Char) (column : Nat)
  | numberTooLarge (column : Nat)
deriving DecidableEq

def ScanError.message : ScanError → String
  | unterminatedString column =>
    "Unterminated string starting at column " ++ Numeral.signed column
  | unexpectedCharacter c column =>
    "Unexpected character '" ++ c.toString ++ "' at column " ++ Numeral.signed column
  | numberTooLarge column => "Number too large at column " ++ Numeral.signed column

namespace Token

open Source

/-- The largest number that can be written. -/
def maxNumber : Nat := 0x7FFFFFFFFFFFFFFF

/-- The self-defining term that a word before a string makes of the string. -/
def selfDefining? (word content : Text) : Option Token :=
  if word = ['X'] then some (hex content)
  else if word = ['C'] ∨ word = ['C', 'A'] ∨ word = ['C', 'E'] then some (char content)
  else if word = ['B'] then some (binary content)
  else none

/-- The token that starts with a word, whose first character is `c`, and the number of characters it
takes after `c`. -/
def scanWord (behind : Text) (c : Char) (rest : Text) : Except ScanError (Token × Nat) :=
  let tail := rest.takeWhile isNameChar
  match rest.drop tail.length with
  | '\'' :: ahead =>
    match if tail.isEmpty ∧ attributeQuote (c :: behind) ahead then AttributeKind.ofLetter? c
      else none with
    | some kind =>
      let ampersand := ahead.head? = some '&'
      let mark := if ampersand then 1 else 0
      let name := (ahead.drop mark).takeWhile isNameChar
      .ok (attr kind ampersand (.ofText name), 1 + mark + name.length)
    | none =>
      -- The column of the apostrophe, counted from one.
      let column := behind.length + tail.length + 2
      match readQuoted? ahead with
      | none => .error (.unterminatedString column)
      | some (content, n) =>
        match selfDefining? (Text.fold (c :: tail)) content with
        | some token => .ok (token, tail.length + 1 + n)
        | none => .error (.unexpectedCharacter '\'' column)
  | _ => .ok (symbol (.ofText (c :: tail)), tail.length)

/-- The token that starts with `c`, and the number of characters it takes after `c`. A `*` after a term
is a multiplication. -/
def scanOne (behind : Text) (afterTerm : Bool) (c : Char) (rest : Text) :
    Except ScanError (Token × Nat) :=
  if c = '(' then .ok (leftParen, 0)
  else if c = ')' then .ok (rightParen, 0)
  else if c = ',' then .ok (comma, 0)
  else if c = '+' then .ok (op .add, 0)
  else if c = '-' then .ok (op .sub, 0)
  else if c = '/' then .ok (op .div, 0)
  else if c = '*' then .ok (if afterTerm then op .mul else counter, 0)
  else if c = '&' then
    let name := rest.takeWhile isNameChar
    if name.isEmpty then .error (.unexpectedCharacter '&' (behind.length + 1))
    else .ok (variableSymbol (.ofText name), name.length)
  else if isNameStart c then scanWord behind c rest
  else if c.isDigit then
    let digits := rest.takeWhile Char.isDigit
    match (Numeral.read? 10 (c :: digits)).filter (· ≤ maxNumber) with
    | some n => .ok (number n, digits.length)
    | none => .error (.numberTooLarge (behind.length + 1))
  else .error (.unexpectedCharacter c (behind.length + 1))

/-- The tokens of a text of which `behind` has been passed. -/
def scanFrom (behind : Text) (afterTerm : Bool) : Text → Except ScanError (List Token)
  | [] => .ok []
  | c :: rest =>
    if Text.isBlank c then scanFrom (c :: behind) afterTerm rest
    else
      match scanOne behind afterTerm c rest with
      | .error e => .error e
      | .ok (token, n) =>
        (scanFrom ((rest.take n).reverse ++ c :: behind) token.endsTerm (rest.drop n)).map
          (token :: ·)
termination_by t => t.length

/-- The tokens of a text. -/
def scan (t : Text) : Except ScanError (List Token) := scanFrom [] false t

end Token

end Assembler
