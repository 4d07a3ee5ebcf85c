import Assembler.Proofs.Cycle
import Mathlib.Logic.Relation
/-!
The graph of the pending work.

Registered work has an edge from what it produces to everything that it waits for. This graph has no cycle
at any moment of an assembly, and no two registered pieces of work produce the same
(`Moment.Reachable.grounded`). So whatever waits for something lacks something that nothing pending will
produce, and no work is ever found to lack nothing.
-/

namespace Assembler

/-! ## 1. Edges -/

namespace PendingTable

variable {τ : Type} [Produces τ] {t : PendingTable τ} {p q r : Prerequisite}

/-- Whether registered work that produces `p` waits for `q`. -/
def Edge (t : PendingTable τ) (p q : Prerequisite) : Prop :=
  ∃ id w, t.get? id = some w ∧ product? w.work = some p ∧ q ∈ w.waiting

/-- Whether the index of producers names exactly the registered work. -/
def NamesProducers (t : PendingTable τ) : Prop :=
  ∀ p id, t.producer? p = some id ↔ ∃ w, t.get? id = some w ∧ product? w.work = some p

/-- The index of producers leads along the edges. -/
theorem NamesProducers.waits_iff_edge (h : t.NamesProducers) : t.Waits p q ↔ t.Edge p q := by
  simp only [Waits, waitingOf?, Option.map_eq_some_iff, Option.bind_eq_some_iff]
  constructor
  · rintro ⟨_, ⟨w, ⟨id, hid, hw⟩, rfl⟩, hq⟩
    obtain ⟨w', hw', hp⟩ := (h p id).mp hid
    rw [hw] at hw'
    cases hw'
    exact ⟨id, w, hw, hp, hq⟩
  · rintro ⟨id, w, hw, hp, hq⟩
    exact ⟨w.waiting, ⟨w, ⟨id, (h p id).mpr ⟨w, hw, hp⟩, hw⟩, rfl⟩, hq⟩

theorem NamesProducers.waitingOf?_eq_none (h : t.NamesProducers) :
    t.waitingOf? q = none ↔ ∀ id w, t.get? id = some w → product? w.work ≠ some q := by
  simp only [waitingOf?, Option.map_eq_none_iff, Option.bind_eq_none_iff]
  constructor
  · intro hno id w hw hq
    rw [hno id ((h q id).mpr ⟨w, hw, hq⟩)] at hw
    cases hw
  · intro hno id hid
    obtain ⟨w, hw, hq⟩ := (h q id).mp hid
    exact absurd hq (hno id w hw)

theorem Indexed.waits_iff_edge (h : t.Indexed) : t.Waits p q ↔ t.Edge p q :=
  NamesProducers.waits_iff_edge h.producers

theorem Indexed.reaches_of_path (h : t.Indexed) (hpath : Relation.ReflTransGen t.Edge p q) :
    t.Reaches p q := by
  induction hpath with
  | refl => exact .refl p
  | tail _ hedge ih => exact ih.trans (.step (h.waits_iff_edge.mpr hedge) (.refl _))

/-- No path along the edges returns to where it started. -/
theorem Acyclic.not_path (ha : t.Acyclic) (h : t.Indexed) (p : Prerequisite) :
    ¬ Relation.TransGen t.Edge p p := by
  intro hpath
  obtain ⟨q, hedge, hrest⟩ := Relation.TransGen.head'_iff.mp hpath
  exact ha p q (h.waits_iff_edge.mpr hedge) (h.reaches_of_path hrest)

/-- Registered work is determined by its product. -/
theorem Indexed.eq_of_product? (h : t.Indexed) {i j : Nat} {v w : Pending τ}
    (hv : t.get? i = some v) (hw : t.get? j = some w) (hvp : product? v.work = some p)
    (hwp : product? w.work = some p) : i = j := by
  have hi := (h.producers p i).mpr ⟨v, hv, hvp⟩
  have hj := (h.producers p j).mpr ⟨w, hw, hwp⟩
  exact Option.some.inj (hi.symm.trans hj)

end PendingTable

/-! ## 2. Every moment -/

open Assembly

namespace Moment

/-- What the waiting lists form together at a moment. -/
structure Grounded (m : Moment) : Prop where
  acyclic : ∀ key, ¬ Relation.TransGen m.state.pendings.Edge key key
  distinct : ∀ i j v w key, m.state.pendings.get? i = some v → m.state.pendings.get? j = some w →
    v.work.task.product? = some key → w.work.task.product? = some key → i = j
  /-- Registered work lacks something in the end. -/
  registered : ∀ id w, m.state.pendings.get? id = some w →
    m.state.pendings.missingRoots w.waiting ≠ []
  /-- So does work that is being done. -/
  taken : ∀ x ∈ m.hand, ∀ waiting, m.state.attempt x.2 = .blocked waiting →
    m.state.pendings.missingRoots waiting ≠ []

theorem Valid.missingRoots_ne_nil {m : Moment} (h : m.Valid) {waiting : List Prerequisite}
    (hne : waiting ≠ []) : m.state.pendings.missingRoots waiting ≠ [] := by
  obtain ⟨root, hroot⟩ := h.exists_root hne
  exact List.ne_nil_of_mem (Assembly.mem_missingRoots.mpr hroot)

theorem Valid.grounded {m : Moment} (h : m.Valid) : m.Grounded where
  acyclic := h.acyclic.not_path h.indexed
  distinct _ _ _ _ _ hv hw := h.indexed.eq_of_product? hv hw
  registered id w hw := h.missingRoots_ne_nil (h.entries id w hw).waiting
  taken x hx _ hwait :=
    h.missingRoots_ne_nil (attempt_ne_nil h.wellFormed.named (h.held x hx).inScope hwait)

theorem Reachable.grounded {settings : Settings} {m : Moment} (h : m.Reachable settings) :
    m.Grounded := h.valid.grounded

/-- The moments between the steps of a cascade are among those that come up. -/
theorem Reachable.advance? {settings : Settings} {s t : Assembly}
    {hand : List (Option Nat × Job)} {phase : Phase} {sweeps : Nat}
    (h : Moment.Reachable settings ⟨s, hand, phase⟩) (hnew : ∀ x ∈ hand, x.1 = none)
    (ht : s.advance? sweeps = some t) : Moment.Reachable settings ⟨t, hand, phase⟩ :=
  Run.trans h ((run_advance? hnew ht).imp fun _ _ => .cascade)

end Moment

/-! ## 3. Sessions -/

namespace Session

/-- In sessions the pending work never goes round in a circle: not between two commands, not within a
cascade and not while the assembly is being completed. -/
theorem grounded_of_reachable (settings : Settings) :
    (∀ commands, Moment.Reachable settings
      ⟨((new settings).performAll commands).assembly, [], .reading⟩) ∧
    (∀ s t phase sweeps, Moment.Reachable settings ⟨s, [], phase⟩ → s.advance? sweeps = some t →
      Moment.Reachable settings ⟨t, [], phase⟩) ∧
    ∀ m : Moment, m.Reachable settings → m.Grounded :=
  ⟨reachable_performAll settings, fun _ _ _ _ h ht => h.advance? forall_mem_nil ht,
    fun _ h => h.grounded⟩

end Session

end Assembler
