/-!
Linear combinations: lists of keys, each with a 32-bit coefficient.

`insert` adds a coefficient to the one of its key and drops the key when the sum is zero. Given an
assignment of values to keys, a combination has a value modulo 2^32, and inserting a coefficient adds
its share to that value (`value_insert`), wherever a new key is placed.
-/

namespace Assembler

/-- A sum of keys with coefficients. -/
abbrev Terms (κ : Type) := List (κ × Int32)

namespace Terms

variable {κ : Type} [DecidableEq κ]

/-- Adds `k` to the coefficient of `key`. A new key is placed before the first key that `before` says
it precedes. -/
def insert (before : κ → κ → Bool) (key : κ) (k : Int32) : Terms κ → Terms κ
  | [] => if k = 0 then [] else [(key, k)]
  | (other, c) :: rest =>
    if k = 0 then (other, c) :: rest
    else if other = key then if c + k = 0 then rest else (other, c + k) :: rest
    else if before key other then (key, k) :: (other, c) :: rest
    else (other, c) :: insert before key k rest

/-- Adds a coefficient; a new key goes to the end. -/
def add (ts : Terms κ) (key : κ) (k : Int32) : Terms κ := insert (fun _ _ => false) key k ts

/-- Adds `sign` times `us`, term by term. -/
def addScaled (ts us : Terms κ) (sign : Int32) : Terms κ :=
  us.foldl (fun sum (key, k) => sum.add key (k * sign)) ts

/-- The value of a combination under an assignment of values to keys. -/
def value (ρ : κ → Int32) : Terms κ → Int32
  | [] => 0
  | (key, k) :: rest => k * ρ key + value ρ rest

theorem value_insert (ρ : κ → Int32) (before : κ → κ → Bool) (key : κ) (k : Int32) (ts : Terms κ) :
    value ρ (insert before key k ts) = value ρ ts + k * ρ key := by
  induction ts with
  | nil => unfold insert; split <;> simp [value, *]
  | cons t rest ih =>
    obtain ⟨other, c⟩ := t
    unfold insert
    split
    · simp [value, *]
    split
    · subst other
      split
      · rename_i h
        have : c * ρ key + k * ρ key = 0 := by rw [← Int32.add_mul, h, Int32.zero_mul]
        simp only [value]; grind
      · simp only [value]; grind
    split
    · simp only [value]; grind
    · simp only [value, ih]; grind

theorem value_add (ρ : κ → Int32) (key : κ) (k : Int32) (ts : Terms κ) :
    value ρ (ts.add key k) = value ρ ts + k * ρ key := value_insert ρ _ key k ts

theorem value_addScaled (ρ : κ → Int32) (sign : Int32) (ts us : Terms κ) :
    value ρ (ts.addScaled us sign) = value ρ ts + sign * value ρ us := by
  induction us generalizing ts with
  | nil => simp [addScaled, value]
  | cons u rest ih =>
    obtain ⟨key, k⟩ := u
    have := ih (ts.add key (k * sign))
    simp only [addScaled, List.foldl_cons, value, value_add] at this ⊢
    grind

end Terms

end Assembler
