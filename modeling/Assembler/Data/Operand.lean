import Assembler.Data.Type
import Assembler.Numeral
import Assembler.Expr.Basic
/-!
Operands of DC and DS, and the lengths that their nominal values imply.
-/

namespace Assembler

/-- A length modifier, in bytes or in bits. -/
structure LengthModifier where
  expr : Expr
  bits : Bool
deriving DecidableEq

namespace LengthModifier

/-- The length in bytes. Bits are rounded up to whole bytes. -/
def bytes (m : LengthModifier) : Expr :=
  if m.bits then .binary .div (.binary .add m.expr (.number 7)) (.number 8) else m.expr

end LengthModifier

/-- The nominal values of an operand. -/
inductive Nominal
  /-- What is between the apostrophes. -/
  | quoted (content : Text)
  | exprs (values : List Expr)
deriving DecidableEq

structure DataOperand where
  duplication? : Option Expr := none
  type : DataType
  length? : Option LengthModifier := none
  scale? : Option Expr := none
  exponent? : Option Expr := none
  nominal? : Option Nominal := none
deriving DecidableEq

/-- The number of characters of a text in which two ampersands stand for one. -/
def countCharacters : Text → Nat
  | [] => 0
  | '&' :: '&' :: rest => countCharacters rest + 1
  | _ :: rest => countCharacters rest + 1

namespace DataType

open Numeral (isDigit)

/-- The length of a quoted value. -/
def valueLength (t : DataType) (value : Text) : Nat :=
  match t with
  | c | ca | ce => max (countCharacters value) 1
  | cu => 2 * max (countCharacters value) 1
  | g => max value.length 2
  | x => max ((value.countP (isDigit 16) + 1) / 2) 1
  | b => max ((value.countP (isDigit 2) + 7) / 8) 1
  | p => (value.countP Char.isDigit + 2) / 2
  | z => max (value.countP Char.isDigit) 1
  | t => t.defaultLength

end DataType

namespace DataOperand

/-- The values that a quoted string stands for. -/
def quotedValues (op : DataOperand) (content : Text) : List Text :=
  if op.type.takesText then [content] else Text.split ',' content

/-- The number of values; without nominal values there is one. -/
def valueCount (op : DataOperand) : Nat :=
  match op.nominal? with
  | none => 1
  | some (.quoted content) => (op.quotedValues content).length
  | some (.exprs values) => max values.length 1

/-- The length of the first value without a length modifier. -/
def implicitLength (op : DataOperand) : Nat :=
  match op.nominal? with
  | some (.quoted content) => ((op.quotedValues content).head?.map op.type.valueLength).getD 1
  | _ => op.type.defaultLength

/-- The length of all values together without a length modifier. -/
def implicitTotal (op : DataOperand) : Nat :=
  match op.nominal? with
  | some (.quoted content) => (op.quotedValues content).foldl (fun n value => n + op.type.valueLength value) 0
  | _ => op.type.defaultLength * op.valueCount

/-- The number of digits after the first point of a text. -/
def fractionDigits (value : Text) : Nat :=
  ((value.dropWhile (· ≠ '.')).drop 1).countP Char.isDigit

/-- The scale that the first value implies: its fraction digits, for packed and zoned decimals. -/
def implicitScale (op : DataOperand) : Int32 :=
  match op.nominal?, op.type with
  | some (.quoted content), .p | some (.quoted content), .z =>
    Int32.ofNat (fractionDigits ((Text.split ',' content).headD []))
  | _, _ => 0

end DataOperand

end Assembler
