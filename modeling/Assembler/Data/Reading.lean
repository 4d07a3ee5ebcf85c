import Assembler.Data.Operand
import Assembler.Expr.Reading
/-!
Reading of DC and DS operands: a duplication factor, a type code, modifiers, and nominal values.

Each part is read at a place in the operand. The characters before the place stay at hand, because they
decide what an apostrophe means.
-/

namespace Assembler

/-- A place in a text: what has been passed, the nearest first, and what is ahead. -/
structure Cursor where
  behind : Text
  ahead : Text

namespace Cursor

def advance (cur : Cursor) (n : Nat) : Cursor :=
  ⟨(cur.ahead.take n).reverse ++ cur.behind, cur.ahead.drop n⟩

/-- The text that a cursor is a place in. -/
def whole (cur : Cursor) : Text := cur.behind.reverse ++ cur.ahead

/-- What stands between the parenthesis ahead and the one that closes it, and the place after both. -/
def parenthesized? (cur : Cursor) : Option (Text × Cursor) :=
  (Source.closingFrom cur.behind false 0 cur.ahead).map fun n =>
    ((cur.ahead.take n).drop 1, cur.advance (n + 1))

/-- Whether a modifier with the given letter is ahead. -/
def hasModifier (cur : Cursor) (letter : Char) : Bool :=
  match cur.ahead with
  | c :: d :: _ => c.toUpper = letter && (d.isDigit || d ∈ ['(', '+', '-', '.'])
  | _ => false

end Cursor

namespace DataOperand

def invalid {α : Type} (cur : Cursor) : Reading α := .fail (.invalidOperand cur.whole)

/-- Reads the unsigned number ahead. -/
def readNumber (cur : Cursor) : Reading (Int32 × Cursor) :=
  let digits := cur.ahead.takeWhile Char.isDigit
  match (Numeral.read? 10 digits).filter (· ≤ 0x7FFFFFFF) with
  | some n => pure (Int32.ofNat n, cur.advance digits.length)
  | none => invalid cur

/-- Reads a duplication factor or the value of a modifier: a number, or an expression in
parentheses. -/
def readFactor (cur : Cursor) : Reading (Expr × Cursor) :=
  if cur.ahead.head? = some '(' then
    match cur.parenthesized? with
    | some (inner, next) => do return (← Expr.read inner, next)
    | none => invalid cur
  else do
    let (n, next) ← readNumber cur
    return (.number n, next)

/-- Reads the value of a modifier that may have a sign. -/
def readSigned (cur : Cursor) : Reading (Expr × Cursor) :=
  if cur.ahead.head? = some '-' then do
    let (n, next) ← readNumber (cur.advance 1)
    return (.negate (.number n), next)
  else if cur.ahead.head? = some '+' then do
    let (n, next) ← readNumber (cur.advance 1)
    return (.number n, next)
  else readFactor cur

/-- Reads the duplication factor, if there is one. -/
def readDuplication (cur : Cursor) : Reading (Option Expr × Cursor) :=
  if cur.ahead.head?.any fun c => c.isDigit || c = '(' then do
    let (e, next) ← readFactor cur
    return (some e, next)
  else return (none, cur)

/-- Reads the type code and its extension. -/
def readType (cur : Cursor) : Reading (DataType × Cursor) :=
  match cur.ahead with
  | [] => invalid cur
  | code :: rest =>
    match rest.head?.filter fun c => c.isAlpha && DataType.isExtension code c with
    | some extension => do
      let type ← .ofOption (.invalidOperand cur.whole) (DataType.ofCode? code (some extension))
      return (type, cur.advance 2)
    | none => do
      let type ← .ofOption (.invalidOperand cur.whole) (DataType.ofCode? code none)
      return (type, cur.advance 1)

/-- Reads the length modifier, if there is one. A point after the letter means bits. -/
def readLength (cur : Cursor) : Reading (Option LengthModifier × Cursor) :=
  if cur.hasModifier 'L' then do
    let bits := (cur.advance 1).ahead.head? = some '.'
    let (expr, next) ← readFactor (cur.advance (if bits then 2 else 1))
    return (some { expr, bits }, next)
  else return (none, cur)

/-- Reads the scale or exponent modifier with the given letter, if there is one. -/
def readModifier (letter : Char) (cur : Cursor) : Reading (Option Expr × Cursor) :=
  if cur.hasModifier letter then do
    let (e, next) ← readSigned (cur.advance 1)
    return (some e, next)
  else return (none, cur)

/-- Reads the nominal values, if there are any: a quoted string, or expressions in parentheses. -/
def readNominal (cur : Cursor) : Reading (Option Nominal × Cursor) :=
  match cur.ahead with
  | '\'' :: rest =>
    match Source.readQuoted? rest with
    | some (content, n) => return (some (.quoted content), cur.advance (n + 1))
    | none => invalid cur
  | '(' :: _ =>
    match cur.parenthesized? with
    | some (inner, next) => do
      let values ← (Source.splitCommas inner).mapM fun piece => Expr.read (Text.trim piece)
      return (some (.exprs values), next)
    | none => invalid cur
  | _ => return (none, cur)

/-- Reads a text as one operand. -/
def read (t : Text) : Reading DataOperand := do
  let start : Cursor := ⟨[], Text.trim t⟩
  let (duplication?, cur) ← readDuplication start
  let (type, cur) ← readType cur
  let (length?, cur) ← readLength cur
  let (scale?, cur) ← readModifier 'S' cur
  let (exponent?, cur) ← readModifier 'E' cur
  let (nominal?, cur) ← readNominal cur
  if cur.ahead.isEmpty then
    return { duplication?, type, length?, scale?, exponent?, nominal? }
  else invalid cur

end DataOperand

end Assembler
