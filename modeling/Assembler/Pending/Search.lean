import Assembler.Pending.Table
import Std.Data.TreeSet
/-!
Searches along the waiting lists of pending work.

From a list of prerequisites, the search goes on to what the producers of each one wait for. It visits
every prerequisite once, so it ends also where work waits for itself.
-/

namespace Assembler.PendingTable

variable {τ : Type}

/-- The number of prerequisites with a producer that have not been seen. -/
def unseen (t : PendingTable τ) (seen : Std.TreeSet Prerequisite) : Nat :=
  (t.producers.keys.filter (· ∉ seen)).length

theorem unseen_insert_le (t : PendingTable τ) (seen : Std.TreeSet Prerequisite)
    (p : Prerequisite) : t.unseen (seen.insert p) ≤ t.unseen seen := by
  simp only [unseen, ← List.countP_eq_length_filter]
  refine List.countP_mono_left fun q _ h => ?_
  simp_all [Std.TreeSet.mem_insert]

theorem unseen_insert_lt {t : PendingTable τ} {seen : Std.TreeSet Prerequisite}
    {p : Prerequisite} (hp : p ∈ t.producers.keys) (hs : p ∉ seen) :
    t.unseen (seen.insert p) < t.unseen seen := by
  unfold unseen
  have : t.producers.keys.filter (· ∉ seen.insert p) =
      (t.producers.keys.filter (· ∉ seen)).filter (· ≠ p) := by
    rw [List.filter_filter]
    refine List.filter_congr fun q _ => ?_
    simp only [Std.TreeSet.mem_insert, Std.LawfulEqOrd.compare_eq_iff_eq, ne_eq, @eq_comm _ q p]
    simp
  rw [this]
  exact List.length_filter_lt_length_iff_exists.mpr
    ⟨p, List.mem_filter.mpr ⟨hp, by simpa using hs⟩, by simp⟩

/-- The prerequisites reached from a list, each once, in the order in which they are met. Those seen
already are left out. -/
def visit (t : PendingTable τ) (seen : Std.TreeSet Prerequisite) :
    List Prerequisite → List Prerequisite
  | [] => []
  | p :: rest =>
    if p ∈ seen then t.visit seen rest
    else
      match _found : t.waitingOf? p with
      | none => p :: t.visit (seen.insert p) rest
      | some waiting => p :: t.visit (seen.insert p) (waiting ++ rest)
termination_by stack => (t.unseen seen, stack.length)
decreasing_by
  · exact Prod.Lex.right _ (Nat.lt_succ_self _)
  · rcases Nat.lt_or_eq_of_le (t.unseen_insert_le seen p) with hlt | heq
    · exact Prod.Lex.left _ _ hlt
    · rw [heq]; exact Prod.Lex.right _ (Nat.lt_succ_self _)
  · refine Prod.Lex.left _ _ (unseen_insert_lt ?_ ‹_›)
    simp only [waitingOf?, producer?, Option.map_eq_some_iff, Option.bind_eq_some_iff] at _found
    obtain ⟨_, ⟨_, hid, _⟩, _⟩ := _found
    exact Std.ExtTreeMap.mem_keys.mpr (Std.ExtTreeMap.mem_iff_isSome_getElem?.mpr (by rw [hid]; rfl))

/-- Everything that `waiting` waits for in the end. -/
def reachable (t : PendingTable τ) (waiting : List Prerequisite) : List Prerequisite :=
  t.visit ∅ waiting

/-- Whether work that waits for `waiting` could not produce `key` without having it first. -/
def createsCycle (t : PendingTable τ) (key : Prerequisite) (waiting : List Prerequisite) : Bool :=
  key ∈ t.reachable waiting

/-- The prerequisites behind `waiting` that no pending work will produce. -/
def missingRoots (t : PendingTable τ) (waiting : List Prerequisite) : List Prerequisite :=
  (t.reachable waiting).filter fun p => (t.waitingOf? p).isNone

end Assembler.PendingTable
