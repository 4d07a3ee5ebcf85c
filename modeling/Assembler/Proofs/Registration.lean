import Assembler.Proofs.Operation
import Assembler.Proofs.Outcome
/-!
The numbers and the indexes of registered work.

Whatever a session does, the table of pending work says of every prerequisite exactly which work waits for it,
oldest first, and which will produce it, keeps no empty set, and has not yet issued the next number
(`Session.exact_of_occurs`). The indexes follow from the entries at every moment; that no set stays behind empty has
to be carried from one change of the table to the next (`PendingTable.Occupied`, `Moment.Edits`).
-/

namespace Assembler

/-! ## 1. Sets of waiting work -/

namespace PendingTable

variable {τ : Type} {t u : PendingTable τ} {id : Nat} {p : Pending τ} {key : Prerequisite}

theorem exists_mem {ids : Std.ExtTreeSet Nat} (h : ¬ ids.isEmpty) : ∃ id, id ∈ ids := by
  rw [← Std.ExtTreeSet.isEmpty_toList, List.isEmpty_iff] at h
  obtain ⟨id, hid⟩ := List.exists_mem_of_ne_nil _ h
  exact ⟨id, Std.ExtTreeSet.mem_toList.mp hid⟩

/-- Whether work waits for every prerequisite that has a set. -/
def Occupied (waiters : Std.ExtTreeMap Prerequisite (Std.ExtTreeSet Nat)) : Prop :=
  ∀ (key : Prerequisite) (ids : Std.ExtTreeSet Nat), waiters[key]? = some ids → ∃ id, id ∈ ids

theorem Occupied.addWaiter {waiters : Std.ExtTreeMap Prerequisite (Std.ExtTreeSet Nat)}
    (h : Occupied waiters) (id : Nat) (key : Prerequisite) :
    Occupied (PendingTable.addWaiter id waiters key) := by
  intro other ids hids
  rw [PendingTable.addWaiter, Std.ExtTreeMap.getElem?_insert] at hids
  split at hids
  · cases hids
    exact ⟨id, Std.ExtTreeSet.mem_insert_self⟩
  · exact h other ids hids

/-- The last number takes its set along. -/
theorem Occupied.dropWaiter {waiters : Std.ExtTreeMap Prerequisite (Std.ExtTreeSet Nat)}
    (h : Occupied waiters) (id : Nat) (key : Prerequisite) :
    Occupied (PendingTable.dropWaiter id waiters key) := by
  unfold PendingTable.dropWaiter
  split
  · exact h
  · rename_i old _
    intro other ids hids
    dsimp only at hids
    split at hids
    · rw [Std.ExtTreeMap.getElem?_erase] at hids
      split at hids
      · cases hids
      · exact h other ids hids
    · rename_i hrest
      rw [Std.ExtTreeMap.getElem?_insert] at hids
      split at hids
      · cases hids
        exact exists_mem hrest
      · exact h other ids hids

theorem Occupied.foldl {f : Std.ExtTreeMap Prerequisite (Std.ExtTreeSet Nat) → Prerequisite →
      Std.ExtTreeMap Prerequisite (Std.ExtTreeSet Nat)}
    (hf : ∀ waiters key, Occupied waiters → Occupied (f waiters key)) (waiting : List Prerequisite)
    {waiters : Std.ExtTreeMap Prerequisite (Std.ExtTreeSet Nat)} (h : Occupied waiters) :
    Occupied (waiting.foldl f waiters) := by
  induction waiting generalizing waiters with
  | nil => exact h
  | cons key rest ih => exact ih (hf waiters key h)

variable [Produces τ]

theorem occupied_reinsert (h : Occupied t.waiters) : Occupied (t.reinsert id p).waiters :=
  .foldl (fun _ key hw => hw.addWaiter id key) p.waiting h

theorem occupied_take (h : Occupied t.waiters) (ht : t.take? id = some (p, u)) : Occupied u.waiters := by
  unfold take? at ht
  split at ht
  · cases ht
  · cases ht
    exact .foldl (fun _ key hw => hw.dropWaiter id key) p.waiting h

omit [Produces τ] in
theorem occupied_clear (t : PendingTable τ) : Occupied t.clear.waiters :=
  fun _ _ hids => nomatch Std.ExtTreeMap.getElem?_empty.symm.trans hids

/-! ## 2. Exact indexes -/

/-- Whether the indexes of the table say what its entries say, and no more. -/
structure Exact (t : PendingTable τ) : Prop where
  waiters : ∀ key id, id ∈ t.waitersOf key ↔ ∃ p, t.get? id = some p ∧ key ∈ p.waiting
  increasing : ∀ key, (t.waitersOf key).Pairwise (· < ·)
  producers : ∀ key id,
    t.producer? key = some id ↔ ∃ p, t.get? id = some p ∧ product? p.work = some key
  /-- No set is empty. -/
  occupied : Occupied t.waiters
  fresh : ∀ id p, t.get? id = some p → id < t.next

omit [Produces τ] in
theorem pairwise_waitersOf (t : PendingTable τ) (key : Prerequisite) :
    (t.waitersOf key).Pairwise (· < ·) :=
  Std.ExtTreeSet.ordered_toList.imp Nat.compare_eq_lt.mp

theorem Indexed.exact (h : t.Indexed) (hocc : Occupied t.waiters) : t.Exact :=
  ⟨h.waiters, t.pairwise_waitersOf, h.producers, hocc, h.fresh⟩

end PendingTable

/-! ## 3. What a turn does to the table -/

open Assembly

namespace Moment

variable {m m' : Moment} {settings : Settings}

/-- How the table can look after a turn. -/
inductive Edits (m : Moment) : PendingTable Job → Prop
  | same : m.Edits m.state.pendings
  | reinsert {id : Nat} {job : Job} {waiting : List Prerequisite} : (some id, job) ∈ m.hand →
    m.Edits (m.state.pendings.reinsert id ⟨job, waiting⟩)
  | register {job : Job} {waiting : List Prerequisite} : (none, job) ∈ m.hand →
    m.Edits (m.state.pendings.register ⟨job, waiting⟩)
  | take {id : Nat} {p : Pending Job} {u : PendingTable Job} :
    m.state.pendings.take? id = some (p, u) → m.Edits u
  | clear : m.Edits m.state.pendings.clear

theorem Edits.of_eq {u : PendingTable Job} (h : u = m.state.pendings) : m.Edits u := h ▸ .same

theorem edits_settle (s : Assembly) (id? : Option Nat) (job : Job) (hand : List (Option Nat × Job))
    (phase : Phase) :
    Edits ⟨s, (id?, job) :: hand, phase⟩ (s.settle id? job).pendings := by
  rcases settle_outcome s id? job with hdoes | ⟨waiting, -, -, heq⟩
  · exact .of_eq hdoes.pendings
  · rw [heq]
    cases id? with
    | none => exact .register List.mem_cons_self
    | some id => exact .reinsert List.mem_cons_self

end Moment

theorem Turn.edits {m m' : Moment} (h : Turn m m') : m.Edits m'.state.pendings := by
  cases h with
  | take => exact .same
  | step h =>
    cases h with
    | cascade h =>
      cases h with
      | settle => exact Moment.edits_settle _ _ _ _ _
      | pick _ ht => exact .take ht
      | skip | stall | resume => exact .same
    | progress h =>
      cases h with
      | report d => exact .of_eq (alike_addDiagnostic _ d).pendings
      | enter => exact .of_eq (alike_foldl_wake _ _).pendings
      | arrange | check | defineMacro | defineVariable => exact .same
    | ending h =>
      cases h with
      | choose ht => exact .take ht
      | explain => exact .of_eq (pendings_explain _ _ _)
      | conclude => exact .of_eq (pendings_conclude _ _ _)
      | clear => exact .clear
      | place | close => exact .same

namespace Moment

variable {m m' : Moment} {settings : Settings}

theorem Edits.occupied {u : PendingTable Job} (h : m.Edits u)
    (hocc : PendingTable.Occupied m.state.pendings.waiters) : PendingTable.Occupied u.waiters := by
  cases h with
  | same => exact hocc
  | reinsert => exact PendingTable.occupied_reinsert hocc
  | register => exact PendingTable.occupied_reinsert hocc
  | take ht => exact PendingTable.occupied_take hocc ht
  | clear => exact PendingTable.occupied_clear _

/-- At every moment the indexes are exact. -/
theorem Occurs.exact (h : m.Occurs settings) : m.state.pendings.Exact :=
  h.valid.indexed.exact <|
    h.keeps (P := fun m => PendingTable.Occupied m.state.pendings.waiters)
      (fun _ _ hturn hocc => hturn.edits.occupied hocc) (PendingTable.occupied_clear {})

/-! ## 4. Numbers -/

/-- Whether numbers are issued one after the other: what is registered afterwards was registered before, was at hand
with its number, or has just been given the next number. -/
structure Issues (m m' : Moment) : Prop where
  next_le : m.state.pendings.next ≤ m'.state.pendings.next
  issued : ∀ id p, m'.state.pendings.get? id = some p →
    m.state.pendings.get? id = some p ∨ (some id, p.work) ∈ m.hand ∨
      id = m.state.pendings.next ∧ m'.state.pendings.next = id + 1

theorem Edits.issues {u : PendingTable Job} (h : m.Edits u) (hu : m'.state.pendings = u) :
    m.Issues m' := by
  cases h with
  | same => exact ⟨hu ▸ Nat.le_refl _, fun id p hp => .inl (hu ▸ hp)⟩
  | @reinsert id job waiting hmem =>
    refine ⟨hu ▸ Nat.le_refl _, fun j p hp => ?_⟩
    rw [hu, PendingTable.get?_reinsert] at hp
    split at hp
    · rename_i hj
      cases hp
      exact .inr (.inl (hj ▸ hmem))
    · exact .inl hp
  | register =>
    refine ⟨hu ▸ Nat.le_succ _, fun j p hp => ?_⟩
    rw [hu, PendingTable.register, PendingTable.get?_reinsert] at hp
    split at hp
    · rename_i hj
      exact .inr (.inr ⟨hj, by rw [hu, hj]; rfl⟩)
    · exact .inl hp
  | take ht =>
    refine ⟨Nat.le_of_eq (hu ▸ (PendingTable.next_take ht).symm), fun j p hp => ?_⟩
    rw [hu, PendingTable.get?_take ht] at hp
    split at hp
    · cases hp
    · exact .inl hp
  | clear =>
    refine ⟨hu ▸ Nat.le_refl _, fun j p hp => ?_⟩
    rw [hu, PendingTable.get?_clear] at hp
    cases hp

/-- The moments between the steps of a cascade are among those that come up. -/
theorem Occurs.advance? {s t : Assembly} {hand : List (Option Nat × Job)} {phase : Phase} {sweeps : Nat}
    (h : Moment.Occurs settings ⟨s, hand, phase⟩) (hnew : ∀ x ∈ hand, x.1 = none)
    (ht : s.advance? sweeps = some t) : Moment.Occurs settings ⟨t, hand, phase⟩ :=
  Run.trans h ((run_advance? hnew ht).imp fun _ _ hstep => .step (.cascade hstep))

end Moment

/-! ## 5. Sessions -/

namespace Session

/-- In sessions the indexes of the pending work are exact: between two operations, within a cascade and while the
assembly is being completed. The numbers are issued in the order in which work is registered. -/
theorem exact_of_occurs (settings : Settings) :
    (∀ operations, Moment.Occurs settings ⟨stateAfter settings operations, [], .reading⟩) ∧
    (∀ s t phase sweeps, Moment.Occurs settings ⟨s, [], phase⟩ → s.advance? sweeps = some t →
      Moment.Occurs settings ⟨t, [], phase⟩) ∧
    (∀ m : Moment, m.Occurs settings → m.state.pendings.Exact) ∧
    ∀ m m' : Moment, m.Occurs settings → Turn m m' → m.Issues m' :=
  ⟨occurs_stateAfter settings, fun _ _ _ _ h ht => h.advance? forall_mem_nil ht, fun _ h => h.exact,
    fun _ _ _ hturn => hturn.edits.issues rfl⟩

end Session

end Assembler
