import Assembler.Prerequisite
import Std.Data.ExtTreeMap
import Std.Data.ExtTreeSet
/-!
Pending work: what could not be computed when it was met, and the prerequisites it waits for.

The table numbers pending work in the order of registration. It knows which pending work will produce a
prerequisite and which waits for one. Taking work out of the table makes it smaller (`size_take?`), and
putting work back makes it larger by at most one (`size_reinsert_le`).
-/

namespace Assembler

/-- Work that may produce a prerequisite of other work. -/
class Produces (τ : Type) where
  product? : τ → Option Prerequisite

export Produces (product?)

/-- Work and the prerequisites that it waited for when it was last tried. -/
structure Pending (τ : Type) where
  work : τ
  waiting : List Prerequisite := []

structure PendingTable (τ : Type) where
  /-- The number of the next work to be registered. -/
  next : Nat := 0
  entries : Std.ExtTreeMap Nat (Pending τ) := ∅
  producers : Std.ExtTreeMap Prerequisite Nat := ∅
  /-- The numbers of the work waiting for each prerequisite; no set is empty. -/
  waiters : Std.ExtTreeMap Prerequisite (Std.ExtTreeSet Nat) := ∅

namespace PendingTable

variable {τ : Type}

def size (t : PendingTable τ) : Nat := t.entries.size

/-- All numbers, in order. -/
def ids (t : PendingTable τ) : List Nat := t.entries.keys

def get? (t : PendingTable τ) (id : Nat) : Option (Pending τ) := t.entries[id]?

/-- All work with its numbers, in order of registration. -/
def toList (t : PendingTable τ) : List (Nat × Pending τ) := t.entries.toList

/-- The work waiting for a prerequisite, in order of registration. -/
def waitersOf (t : PendingTable τ) (key : Prerequisite) : List Nat :=
  (t.waiters.getD key ∅).toList

/-- The work that will produce a prerequisite. -/
def producer? (t : PendingTable τ) (key : Prerequisite) : Option Nat := t.producers[key]?

/-- What the producer of a prerequisite waits for itself. -/
def waitingOf? (t : PendingTable τ) (key : Prerequisite) : Option (List Prerequisite) :=
  ((t.producer? key).bind t.get?).map (·.waiting)

/-! ### Registering and taking out -/

def addWaiter (id : Nat) (waiters : Std.ExtTreeMap Prerequisite (Std.ExtTreeSet Nat))
    (key : Prerequisite) : Std.ExtTreeMap Prerequisite (Std.ExtTreeSet Nat) :=
  waiters.insert key ((waiters.getD key ∅).insert id)

def dropWaiter (id : Nat) (waiters : Std.ExtTreeMap Prerequisite (Std.ExtTreeSet Nat))
    (key : Prerequisite) : Std.ExtTreeMap Prerequisite (Std.ExtTreeSet Nat) :=
  match waiters[key]? with
  | none => waiters
  | some ids =>
    let ids := ids.erase id
    if ids.isEmpty then waiters.erase key else waiters.insert key ids

variable [Produces τ]

/-- Puts work into the table under a given number. -/
def reinsert (t : PendingTable τ) (id : Nat) (p : Pending τ) : PendingTable τ where
  next := t.next
  entries := t.entries.insert id p
  producers :=
    match product? p.work with
    | some key => t.producers.insert key id
    | none => t.producers
  waiters := p.waiting.foldl (addWaiter id) t.waiters

/-- Puts work into the table under a number of its own. -/
def register (t : PendingTable τ) (p : Pending τ) : PendingTable τ :=
  { t with next := t.next + 1 }.reinsert t.next p

/-- Takes work out of the table. -/
def take? (t : PendingTable τ) (id : Nat) : Option (Pending τ × PendingTable τ) :=
  match t.get? id with
  | none => none
  | some p =>
    some (p, {
      next := t.next
      entries := t.entries.erase id
      producers :=
        match product? p.work with
        | some key => if t.producer? key = some id then t.producers.erase key else t.producers
        | none => t.producers
      waiters := p.waiting.foldl (dropWaiter id) t.waiters })

/-- The table without its work, which keeps on numbering. -/
def clear (t : PendingTable τ) : PendingTable τ := { next := t.next }

/-- The oldest work, or the oldest that produces something. -/
def first? (t : PendingTable τ) (all : Bool) : Option Nat :=
  (t.toList.find? fun (_, p) => all || (product? p.work).isSome).map (·.1)

theorem size_reinsert_le (t : PendingTable τ) (id : Nat) (p : Pending τ) :
    (t.reinsert id p).size ≤ t.size + 1 :=
  Std.ExtTreeMap.size_insert_le

theorem size_take? {t u : PendingTable τ} {id : Nat} {p : Pending τ}
    (h : t.take? id = some (p, u)) : u.size < t.size := by
  unfold take? at h
  split at h
  · cases h
  · rename_i q hq
    simp only [Option.some.injEq, Prod.mk.injEq] at h
    obtain ⟨-, rfl⟩ := h
    have hmem : id ∈ t.entries :=
      Std.ExtTreeMap.mem_iff_isSome_getElem?.mpr (by rw [show t.entries[id]? = some q from hq]; rfl)
    have hpos : t.entries.size ≠ 0 := by
      intro h0
      rw [Std.ExtTreeMap.eq_empty_iff_size_eq_zero.mpr h0] at hmem
      exact Std.ExtTreeMap.not_mem_empty hmem
    rw [size, Std.ExtTreeMap.size_erase, if_pos (Std.ExtTreeMap.mem_iff_contains.mp hmem), size]
    omega

end PendingTable

end Assembler
