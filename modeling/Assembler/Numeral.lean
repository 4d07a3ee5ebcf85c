import Assembler.Text
/-!
Numbers written in a base from 2 to 16, the most significant digit first.

Letters are digits from ten on, in either case. A numeral is read only when every character of it is
a digit of the base.
-/

namespace Assembler.Numeral

/-- The value of a digit of base `base`. -/
def digit? (base : Nat) (c : Char) : Option Nat :=
  let value? : Option Nat :=
    if c.isDigit then some (c.toNat - '0'.toNat)
    else if 'a' ≤ c ∧ c ≤ 'f' then some (c.toNat - 'a'.toNat + 10)
    else if 'A' ≤ c ∧ c ≤ 'F' then some (c.toNat - 'A'.toNat + 10)
    else none
  value?.filter (· < base)

def isDigit (base : Nat) (c : Char) : Bool := (digit? base c).isSome

/-- Continues a numeral whose digits so far have the value `sofar`. -/
def readFrom (base : Nat) : Nat → Text → Option Nat
  | sofar, [] => some sofar
  | sofar, c :: rest => do
    let d ← digit? base c
    readFrom base (sofar * base + d) rest

/-- The number that a non-empty numeral stands for. -/
def read? (base : Nat) (t : Text) : Option Nat :=
  if t.isEmpty then none else readFrom base 0 t

/-- The decimal numeral of `n`, without leading zeros. -/
def decimal (n : Nat) : Text := Nat.toDigits 10 n

/-- The decimal numeral of `n`, after a minus sign if `n` is negative. -/
def signed (n : Int) : String :=
  if n < 0 then String.ofList ('-' :: decimal n.natAbs) else String.ofList (decimal n.natAbs)

end Assembler.Numeral
