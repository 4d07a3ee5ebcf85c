import Assembler.Layout.Alignment
import Assembler.Layout.Extent
/-!
Spaces: stretches of a location counter whose length is not known when they are passed.

A space may be given a length later, once and for all, as a number of bytes plus other spaces.
Substitution replaces the spaces of a combination by their lengths until only spaces without a
length are left. It keeps the value modulo 2^32 under every assignment of numbers to spaces that agrees
with the lengths (`value_substitute`).
-/

namespace Assembler

/-- The reason for a space. -/
inductive SpaceKind
  /-- Storage of a length not known yet. -/
  | storage
  /-- Padding after storage of a length not known yet. -/
  | alignment
  /-- The start of a location counter after the one before it. -/
  | counterStart
  /-- A move to a place not known yet. -/
  | jump
  /-- A move to the highest place reached, when that is not known yet. -/
  | jumpToHighest
deriving DecidableEq

/-- The length of a space: some bytes and a combination of other spaces. -/
structure Length where
  bytes : Int32
  spaces : Terms SpaceId := []
deriving DecidableEq

/-- A length of no bytes. -/
def Length.zero : Length := ⟨0, []⟩

structure Space where
  kind : SpaceKind
  counter : CounterId
  /-- The alignment, relative to the start of the counter, that the end of the space has. -/
  guarantee : Alignment
  length? : Option Length := none
deriving DecidableEq

/-- All spaces, by number. -/
structure Spaces where
  entries : Array Space := #[]

namespace Spaces

def size (a : Spaces) : Nat := a.entries.size

def get? (a : Spaces) (s : SpaceId) : Option Space := a.entries[s.index]?

def length? (a : Spaces) (s : SpaceId) : Option Length := (a.get? s).bind (·.length?)

def isResolved (a : Spaces) (s : SpaceId) : Bool := (a.length? s).isSome

/-- A further space, without a length. -/
def create (a : Spaces) (kind : SpaceKind) (counter : CounterId) (guarantee : Alignment) :
    SpaceId × Spaces :=
  (⟨a.size⟩, ⟨a.entries.push ⟨kind, counter, guarantee, none⟩⟩)

/-- Gives `s` its length. There is no result if `s` has a length already or the length is in terms of
`s` itself. -/
def resolve? (a : Spaces) (s : SpaceId) (length : Length) : Option Spaces :=
  match a.get? s with
  | some space =>
    if length.spaces.any (·.1 = s) ∨ space.length?.isSome then none
    else some ⟨a.entries.setIfInBounds s.index { space with length? := some length }⟩
  | none => none

/-- The spaces without a length. -/
def unresolved (a : Spaces) : List SpaceId :=
  ((List.range a.size).map SpaceId.mk).filter fun s => !a.isResolved s

/-- Puts in the length of a space, taken `k` times, if it has one. -/
def expandTerm (a : Spaces) (e : Extent) (s : SpaceId) (k : Int) : Extent :=
  match a.length? s with
  | none => e.add s k
  | some length =>
    length.spaces.foldr (fun (t, c) e => e.add t (k * c.toInt))
      (e.addBytes (k * length.bytes.toInt))

/-- Puts in the lengths of all spaces of an extent that have one. -/
def expand (a : Spaces) (e : Extent) : Extent :=
  e.spaces.foldr (fun (s, k) e => a.expandTerm e s k) { bytes := e.bytes }

/-- Puts in lengths, and the lengths of spaces in these, until none is left, at most the given number of
times. -/
def expandAll (a : Spaces) : Nat → Extent → Extent
  | 0, e => e
  | times + 1, e =>
    if e.spaces.any fun (s, _) => a.isResolved s then a.expandAll times (a.expand e) else e

/-- Replaces the spaces that have a length. The result is a number of bytes, not cut to any width,
and the combination of the spaces left, in order of their numbers. No chain of lengths is longer
than the number of spaces unless it returns to where it was. -/
def substitute (a : Spaces) (ts : Terms SpaceId) : Int × Terms SpaceId :=
  let e := a.expandAll a.size (.ofTerms ts)
  (e.bytes, e.spaces.foldr
    (fun (s, k) rest => Terms.insert SpaceId.precedes s (Int32.ofInt k) rest) [])

/-! ### What substitution keeps -/

/-- Whether the number that `τ` gives to a space with a length is the value of that length. -/
def Fits (a : Spaces) (τ : SpaceId → Int32) : Prop :=
  ∀ s length, a.length? s = some length → τ s = length.bytes + length.spaces.value τ

theorem value_expandTerm {a : Spaces} {τ : SpaceId → Int32} (h : a.Fits τ) (e : Extent)
    (s : SpaceId) (k : Int) : (a.expandTerm e s k).value τ = e.value τ + Int32.ofInt k * τ s := by
  unfold expandTerm
  split
  · exact Extent.value_add τ e s k
  · rename_i length hl
    rw [h s length hl, Extent.value_foldr_add, Extent.value_addBytes, Int32.ofInt_mul,
      Int32.ofInt_toInt]
    grind

theorem value_expand {a : Spaces} {τ : SpaceId → Int32} (h : a.Fits τ) (e : Extent) :
    (a.expand e).value τ = e.value τ := by
  have fold : ∀ ts : List (SpaceId × Int),
      (ts.foldr (fun (s, k) e => a.expandTerm e s k) { bytes := e.bytes }).value τ =
        Int32.ofInt e.bytes + Extent.sum τ ts := by
    intro ts
    induction ts with
    | nil => rfl
    | cons t rest ih =>
      rw [List.foldr_cons, value_expandTerm h, ih, Extent.sum]
      grind
  rw [expand, fold, Extent.value]

theorem value_expandAll {a : Spaces} {τ : SpaceId → Int32} (h : a.Fits τ) (times : Nat)
    (e : Extent) : (a.expandAll times e).value τ = e.value τ := by
  induction times generalizing e with
  | zero => rfl
  | succ times ih =>
    unfold expandAll
    split
    · rw [ih, value_expand h]
    · rfl

theorem value_substitute {a : Spaces} {τ : SpaceId → Int32} (h : a.Fits τ) (ts : Terms SpaceId) :
    Int32.ofInt (a.substitute ts).1 + (a.substitute ts).2.value τ = ts.value τ := by
  have fold : ∀ us : List (SpaceId × Int),
      Terms.value τ (us.foldr
          (fun (s, k) rest => Terms.insert SpaceId.precedes s (Int32.ofInt k) rest) []) =
        Extent.sum τ us := by
    intro us
    induction us with
    | nil => rfl
    | cons u us ih =>
      rw [List.foldr_cons, Terms.value_insert, ih, Extent.sum]
      grind
  have hv := value_expandAll h a.size (.ofTerms ts)
  rw [Extent.value_ofTerms] at hv
  simp only [substitute]
  rw [fold, ← hv, Extent.value]

end Spaces

end Assembler
