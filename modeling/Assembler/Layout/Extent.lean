import Assembler.Terms
import Assembler.Layout.Ids
/-!
Extents: a number of bytes and multiples of spaces, none of them cut to any width.

Once every space has a length, an extent has a value modulo 2^32, and adding a multiple of a space adds
its share to that value (`value_add`).
-/

namespace Assembler

structure Extent where
  bytes : Int := 0
  spaces : List (SpaceId × Int) := []
deriving DecidableEq

namespace Extent

/-- Adds `k` to the multiple of `s`. A new space goes before the first space that was created later, and
multiples that cancel are dropped. -/
def addTo (s : SpaceId) (k : Int) : List (SpaceId × Int) → List (SpaceId × Int)
  | [] => if k = 0 then [] else [(s, k)]
  | (t, c) :: rest =>
    if k = 0 then (t, c) :: rest
    else if t = s then if c + k = 0 then rest else (t, c + k) :: rest
    else if s.precedes t then (s, k) :: (t, c) :: rest
    else (t, c) :: addTo s k rest

/-- Adds `k` times the space `s`. -/
def add (e : Extent) (s : SpaceId) (k : Int) : Extent := { e with spaces := addTo s k e.spaces }

def addBytes (e : Extent) (n : Int) : Extent := { e with bytes := e.bytes + n }

/-- The extent that a combination of spaces is, term by term. -/
def ofTerms (ts : Terms SpaceId) : Extent := { spaces := ts.map fun (s, k) => (s, k.toInt) }

/-! ### Values -/

/-- The sum of multiples of spaces when space `s` has length `τ s`. -/
def sum (τ : SpaceId → Int32) : List (SpaceId × Int) → Int32
  | [] => 0
  | (s, k) :: rest => Int32.ofInt k * τ s + sum τ rest

/-- The number of bytes, modulo 2^32, when space `s` has length `τ s`. -/
def value (τ : SpaceId → Int32) (e : Extent) : Int32 := Int32.ofInt e.bytes + sum τ e.spaces

theorem sum_addTo (τ : SpaceId → Int32) (s : SpaceId) (k : Int) (ts : List (SpaceId × Int)) :
    sum τ (addTo s k ts) = sum τ ts + Int32.ofInt k * τ s := by
  induction ts with
  | nil =>
    unfold addTo
    split
    · simp [sum, *]
    · simp [sum]
  | cons t rest ih =>
    obtain ⟨t, c⟩ := t
    unfold addTo
    split
    · simp [*]
    split
    · subst t
      have hc : Int32.ofInt (c + k) = Int32.ofInt c + Int32.ofInt k := Int32.ofInt_add c k
      split
      · rename_i h0
        rw [h0] at hc
        have hz : (0 : Int32) = Int32.ofInt c + Int32.ofInt k := hc
        have : Int32.ofInt c * τ s + Int32.ofInt k * τ s = 0 := by
          rw [← Int32.add_mul, ← hz, Int32.zero_mul]
        simp only [sum]; grind
      · simp only [sum, hc]; grind
    split
    · simp only [sum]; grind
    · simp only [sum, ih]; grind

theorem value_add (τ : SpaceId → Int32) (e : Extent) (s : SpaceId) (k : Int) :
    (e.add s k).value τ = e.value τ + Int32.ofInt k * τ s := by
  simp only [value, add, sum_addTo]
  grind

theorem value_addBytes (τ : SpaceId → Int32) (e : Extent) (n : Int) :
    (e.addBytes n).value τ = e.value τ + Int32.ofInt n := by
  simp only [value, addBytes, Int32.ofInt_add]
  grind

theorem value_foldr_add (τ : SpaceId → Int32) (k : Int) (ts : Terms SpaceId) (e : Extent) :
    (ts.foldr (fun (s, c) e => e.add s (k * c.toInt)) e).value τ =
      e.value τ + Int32.ofInt k * ts.value τ := by
  induction ts with
  | nil => simp [Terms.value]
  | cons t rest ih =>
    rw [List.foldr_cons, value_add, ih, Terms.value, Int32.ofInt_mul, Int32.ofInt_toInt]
    grind

theorem value_ofTerms (τ : SpaceId → Int32) (ts : Terms SpaceId) :
    (ofTerms ts).value τ = ts.value τ := by
  have : sum τ (ts.map fun (s, k) => (s, k.toInt)) = ts.value τ := by
    induction ts with
    | nil => rfl
    | cons t rest ih => simp only [List.map_cons, sum, ih, Int32.ofInt_toInt, Terms.value]
  simp [ofTerms, value, this]

end Extent

end Assembler
