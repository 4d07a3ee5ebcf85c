/-!
Alignment of positions to storage boundaries.

The gap before an aligned position is the least number of bytes that reaches it
(`gap_nonneg`, `gap_lt`, `emod_add_gap`).
-/

namespace Assembler

/-- A boundary and the remainder that a position has to leave modulo the boundary. -/
structure Alignment where
  boundary : Nat
  byte : Nat := 0
deriving DecidableEq

namespace Alignment

/-- Every position is aligned. -/
def any : Alignment := ⟨1, 0⟩
def halfword : Alignment := ⟨2, 0⟩
def fullword : Alignment := ⟨4, 0⟩
def doubleword : Alignment := ⟨8, 0⟩

/-- Alignment to multiples of `boundary`; a boundary of zero counts as one. -/
def multiplesOf (boundary : Nat) : Alignment := ⟨max boundary 1, 0⟩

/-- The bytes from `offset` to the next aligned position. -/
def gap (a : Alignment) (offset : Int) : Int := (a.byte - offset) % (max a.boundary 1 : Nat)

/-- The gap before the next aligned position, as a number of bytes to reserve. -/
def padding (a : Alignment) (offset : Int) : Int32 := Int32.ofInt (a.gap offset)

/-- Whether positions aligned as `a` says are aligned as `wanted` says too. -/
def implies (a wanted : Alignment) : Bool :=
  wanted.boundary ≤ a.boundary && a.boundary % wanted.boundary == 0

theorem gap_nonneg (a : Alignment) (offset : Int) : 0 ≤ a.gap offset :=
  Int.emod_nonneg _ (by omega)

theorem gap_lt (a : Alignment) (offset : Int) : a.gap offset < (max a.boundary 1 : Nat) :=
  Int.emod_lt_of_pos _ (by omega)

theorem emod_add_gap (a : Alignment) (offset : Int) :
    (offset + a.gap offset) % (max a.boundary 1 : Nat) = a.byte % (max a.boundary 1 : Nat) := by
  unfold gap
  rw [Int.add_emod_emod]
  congr 1
  omega

end Alignment

end Assembler
