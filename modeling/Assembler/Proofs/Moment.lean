import Assembler.Proofs.Step
/-!
What holds at every moment of an assembly.

Every job is at hand or pending once, it waits for something, and no pending work waits for itself
(`Moment.Valid`). All of this holds at every moment (`Moment.Valid.step`, `Moment.Reachable.valid`).
-/

namespace Assembler

/-! ## 1. What holds at every moment -/

namespace Moment

/-- Whether a prerequisite will be produced by a job that is pending or at hand. -/
def HasJob (m : Moment) (key : Prerequisite) : Prop :=
  (m.state.pendings.producer? key).isSome ∨ ∃ x ∈ m.hand, x.2.task.product? = some key

/-- What holds of the pending work. -/
structure Entry (s : Assembly) (p : Pending Job) : Prop where
  waiting : p.waiting ≠ []
  inScope : p.work.Scoped s.layout.spaces
  expected : ∀ key, p.work.task.product? = some key → s.Expects key

/-- What holds of a job at hand. -/
structure Held (s : Assembly) (x : Option Nat × Job) : Prop where
  inScope : x.2.Scoped s.layout.spaces
  expected : ∀ key, x.2.task.product? = some key → s.Expects key
  absent : ∀ key, x.2.task.product? = some key → s.pendings.producer? key = none
  free : ∀ id, x.1 = some id → id < s.pendings.next ∧ s.pendings.get? id = none

/-- An entry stays one as long as what its job produces stays expected. -/
theorem Entry.later {s t : Assembly} {p : Pending Job} (h : Entry s p)
    (hspaces : s.layout.spaces.Earlier t.layout.spaces)
    (hexp : ∀ key, p.work.task.product? = some key → s.Expects key → t.Expects key) : Entry t p where
  waiting := h.waiting
  inScope := h.inScope.later hspaces
  expected key hkey := hexp key hkey (h.expected key hkey)

/-- A job stays at hand as long as the pending work stays and what the job produces stays expected. -/
theorem Held.later {s t : Assembly} {x : Option Nat × Job} (h : Held s x)
    (hspaces : s.layout.spaces.Earlier t.layout.spaces) (hpendings : t.pendings = s.pendings)
    (hexp : ∀ key, x.2.task.product? = some key → s.Expects key → t.Expects key) : Held t x where
  inScope := h.inScope.later hspaces
  expected key hkey := hexp key hkey (h.expected key hkey)
  absent key hkey := hpendings.symm ▸ h.absent key hkey
  free id hid := hpendings.symm ▸ h.free id hid

/-- What is always produced by some job once it is expected. The start of a further counter has no job
before the end of the source, and the job of a move to a target may be done in vain. -/
def Owed (m : Moment) : Prerequisite → Prop
  | .space s => m.state.layout.spaces.kind? s ≠ some .jump ∧
    (m.phase = .reading → ¬ m.state.layout.HasStart s)
  | .attr _ .length => False
  | _ => True

theorem Owed.of_later {m m' : Moment} {key : Prerequisite} (h : m'.Owed key)
    (hspaces : m.state.layout.spaces.Earlier m'.state.layout.spaces)
    (hstart : m.phase = .reading → ∀ s, m.state.layout.HasStart s →
      m'.phase = .reading ∧ m'.state.layout.HasStart s) : m.Owed key := by
  cases key with
  | symbol n => exact h
  | attr n kind => cases kind <;> exact h
  | space s =>
    refine ⟨fun hjump => h.1 (hspaces.kind? hjump), fun hph hs => ?_⟩
    obtain ⟨hph', hs'⟩ := hstart hph s hs
    exact h.2 hph' hs'

structure Valid (m : Moment) : Prop where
  wellFormed : m.state.WellFormed
  formed : m.state.layout.Formed
  indexed : m.state.pendings.Indexed
  acyclic : m.state.pendings.Acyclic
  entries : ∀ id p, m.state.pendings.get? id = some p → Entry m.state p
  held : ∀ x ∈ m.hand, Held m.state x
  products : (m.hand.filterMap (·.2.task.product?)).Nodup
  numbers : (m.hand.filterMap (·.1)).Nodup
  owed : ∀ key, m.state.Expects key → m.Owed key → m.HasJob key
  unplaced : m.phase = .reading → m.state.finished = false → ∀ s : SpaceId,
    m.state.layout.HasStart s → ¬ m.HasJob (.space s)
  closing : m.phase = .closing → m.state.finished = true
  placing : m.phase = .placing → m.state.finished = false

end Moment

namespace Assembly

variable {s t : Assembly}

/-- Whether two assemblies agree on everything but reports, macros, variables and what to try next. -/
structure Alike (s t : Assembly) : Prop where
  symbols : t.symbols = s.symbols
  layout : t.layout = s.layout
  pendings : t.pendings = s.pendings
  finished : t.finished = s.finished

theorem Alike.refl (s : Assembly) : s.Alike s := ⟨rfl, rfl, rfl, rfl⟩

theorem Alike.trans {u : Assembly} (h : s.Alike t) (h' : t.Alike u) : s.Alike u :=
  ⟨h'.symbols.trans h.symbols, h'.layout.trans h.layout, h'.pendings.trans h.pendings,
    h'.finished.trans h.finished⟩

theorem alike_addDiagnostic (s : Assembly) (d : Diagnostic) : s.Alike (s.addDiagnostic d) := by
  unfold addDiagnostic
  split <;> exact ⟨rfl, rfl, rfl, rfl⟩

theorem alike_report (s : Assembly) (f : Fault) (location : Location) :
    s.Alike (s.report f location) := s.alike_addDiagnostic _

theorem alike_wake (s : Assembly) (key : Prerequisite) : s.Alike (s.wake key) :=
  ⟨rfl, rfl, rfl, rfl⟩

theorem alike_foldl_wake (s : Assembly) (keys : List Prerequisite) :
    s.Alike (keys.foldl wake s) := by
  induction keys generalizing s with
  | nil => exact .refl s
  | cons key rest ih => exact (s.alike_wake key).trans (ih (s.wake key))

theorem alike_reportUndefined (s : Assembly) (n : Name) (location : Location) :
    s.Alike (s.reportUndefined n location) := by
  unfold reportUndefined
  split
  · exact .refl s
  · have h := alike_report { s with reported := s.reported ++ [n] }
      (.unresolved "ordinary symbol" n.text) location
    exact ⟨h.symbols, h.layout, h.pendings, h.finished⟩

theorem alike_foldl_reportUndefined (s : Assembly) (names : List Name) (location : Location) :
    s.Alike (names.foldl (fun s n => s.reportUndefined n location) s) := by
  induction names generalizing s with
  | nil => exact .refl s
  | cons n rest ih => exact (s.alike_reportUndefined n location).trans (ih _)

theorem alike_explain (s : Assembly) (waiting : List Prerequisite) (location : Location) :
    s.Alike (s.explain waiting location).2 := by
  simp only [explain]
  split
  · exact s.alike_report _ _
  · exact s.alike_foldl_reportUndefined _ _

theorem Alike.expects (h : s.Alike t) (key : Prerequisite) : t.Expects key ↔ s.Expects key :=
  expects_of_eq h.symbols (congrArg (·.spaces) h.layout) key

theorem Alike.wellFormed (h : s.Alike t) (hs : s.WellFormed) : t.WellFormed := by
  cases s
  cases t
  obtain ⟨rfl, rfl, rfl, rfl⟩ := h
  exact ⟨hs.named, hs.acyclic, hs.inScope.closed, hs.inScope.values⟩

end Assembly

namespace Moment

open Assembly

variable {s t : Assembly} {hand : List (Option Nat × Job)} {x : Option Nat × Job} {phase : Phase}

theorem Valid.alike (h : Valid ⟨s, hand, phase⟩) (hst : s.Alike t) : Valid ⟨t, hand, phase⟩ := by
  have hwf := hst.wellFormed h.wellFormed
  have hexp := hst.expects
  cases s
  cases t
  obtain ⟨rfl, rfl, rfl, rfl⟩ := hst
  exact {
    wellFormed := hwf
    formed := h.formed
    indexed := h.indexed
    acyclic := h.acyclic
    entries := fun id p hp => (h.entries id p hp).later (.refl _) fun key _ => (hexp key).mpr
    held := fun x hx => (h.held x hx).later (.refl _) rfl fun key _ => (hexp key).mpr
    products := h.products
    numbers := h.numbers
    owed := fun key hk hne => h.owed key ((hexp key).mp hk) hne
    unplaced := h.unplaced
    closing := h.closing
    placing := h.placing }

/-- What is expected does not depend on the pending work. -/
theorem expects_pendings (s : Assembly) (u : PendingTable Job) (key : Prerequisite) :
    { s with pendings := u }.Expects key ↔ s.Expects key := expects_of_eq rfl rfl key

theorem wellFormed_pendings (hs : s.WellFormed) (u : PendingTable Job) : { s with pendings := u }.WellFormed :=
  ⟨hs.named, hs.acyclic, hs.inScope.closed, hs.inScope.values⟩

/-- No job at hand produces what a pending one does. -/
theorem Valid.product_ne_pending (h : Valid ⟨s, hand, phase⟩) {id : Nat} {p : Pending Job}
    (hp : s.pendings.get? id = some p) {key : Prerequisite} (hkey : p.work.task.product? = some key)
    (hx : x ∈ hand) : x.2.task.product? ≠ some key := by
  intro hxk
  have habsent := (h.held x hx).absent key hxk
  rw [(h.indexed.producers key id).mpr ⟨p, hp, hkey⟩] at habsent
  cases habsent

/-- No job at hand produces what another one does. -/
theorem Valid.product_ne (h : Valid ⟨s, x :: hand, phase⟩) {key : Prerequisite}
    (hx : x.2.task.product? = some key) {y : Option Nat × Job} (hy : y ∈ hand) :
    y.2.task.product? ≠ some key := by
  intro hkey
  have hnodup := h.products
  simp only [List.filterMap_cons, hx, List.nodup_cons] at hnodup
  exact hnodup.1 (List.mem_filterMap.mpr ⟨y, hy, hkey⟩)

theorem Valid.number_ne (h : Valid ⟨s, x :: hand, phase⟩) {id : Nat} (hx : x.1 = some id)
    {y : Option Nat × Job} (hy : y ∈ hand) : y.1 ≠ some id := by
  intro hid
  have hnodup := h.numbers
  simp only [List.filterMap_cons, hx, List.nodup_cons] at hnodup
  exact hnodup.1 (List.mem_filterMap.mpr ⟨y, hy, hid⟩)

theorem nodup_filterMap_of_cons {α β : Type} {f : α → Option β} {x : α} {l : List α}
    (h : ((x :: l).filterMap f).Nodup) : (l.filterMap f).Nodup :=
  h.sublist ((List.sublist_cons_self x l).filterMap f)

theorem hasJob_of_tail {key : Prerequisite} (h : HasJob ⟨s, hand, phase⟩ key) :
    HasJob ⟨s, x :: hand, phase⟩ key :=
  h.imp id fun ⟨y, hy, hkey⟩ => ⟨y, List.mem_cons_of_mem _ hy, hkey⟩

/-- What a job will produce is expected. -/
theorem Valid.expected_of_hasJob (h : Valid ⟨s, hand, phase⟩) {key : Prerequisite}
    (hjob : HasJob ⟨s, hand, phase⟩ key) : s.Expects key := by
  rcases hjob with hprod | ⟨x, hx, hkey⟩
  · obtain ⟨id, hid⟩ := Option.isSome_iff_exists.mp hprod
    obtain ⟨p, hp, hkey⟩ := (h.indexed.producers key id).mp hid
    exact (h.entries id p hp).expected key hkey
  · exact (h.held x hx).expected key hkey

/-- A job at hand may be dropped if it is that of a move to a target. -/
theorem Valid.drop (h : Valid ⟨s, x :: hand, phase⟩)
    (hx : ∀ key, x.2.task.product? = some key →
      ∃ space, key = .space space ∧ s.layout.spaces.kind? space = some .jump) :
    Valid ⟨s, hand, phase⟩ where
  wellFormed := h.wellFormed
  formed := h.formed
  indexed := h.indexed
  acyclic := h.acyclic
  entries := h.entries
  held y hy := h.held y (List.mem_cons_of_mem _ hy)
  products := nodup_filterMap_of_cons h.products
  numbers := nodup_filterMap_of_cons h.numbers
  owed key hkey hne := by
    rcases h.owed key hkey hne with hp | ⟨y, hy, hyk⟩
    · exact .inl hp
    · rcases List.mem_cons.mp hy with rfl | hy
      · obtain ⟨space, rfl, hjump⟩ := hx key hyk
        exact absurd hjump hne.1
      · exact .inr ⟨y, hy, hyk⟩
  unplaced hp hf k hk hjob := h.unplaced hp hf k hk (hasJob_of_tail hjob)
  closing := h.closing
  placing := h.placing

/-- A job at hand is done, and defines something. -/
theorem Valid.define (h : Valid ⟨s, x :: hand, phase⟩) {d : Definition}
    (hd : d.product? = x.2.task.product?) (hsound : d.Sound s.layout.spaces)
    (ht : s.define? d = some t) : Valid ⟨t, hand, phase⟩ := by
  have hk := keeps_define? ht
  have hle := (earlier_define? ht).spaces
  -- Only the product of the job ceases to be expected.
  have hother : ∀ key, x.2.task.product? ≠ some key → s.Expects key → t.Expects key :=
    fun key hne hkey => (expects_define? ht key).mpr ⟨hkey, hd ▸ hne⟩
  have hprod : ∀ key, t.pendings.producer? key = s.pendings.producer? key := fun key => by
    rw [hk.pendings]
  exact {
    wellFormed := wellFormed_define? h.wellFormed hsound ht
    formed := formed_define? h.formed ht
    indexed := by
      show t.pendings.Indexed
      rw [hk.pendings]
      exact h.indexed
    acyclic := by
      show t.pendings.Acyclic
      rw [hk.pendings]
      exact h.acyclic
    entries := fun id p hp => by
      have hp : t.pendings.get? id = some p := hp
      rw [hk.pendings] at hp
      exact (h.entries id p hp).later hle fun key hkey =>
        hother key (h.product_ne_pending hp hkey List.mem_cons_self)
    held := fun y hy => (h.held y (List.mem_cons_of_mem _ hy)).later hle hk.pendings fun key hkey =>
      hother key fun hxk => h.product_ne hxk hy hkey
    products := nodup_filterMap_of_cons h.products
    numbers := nodup_filterMap_of_cons h.numbers
    owed := fun key hkey hne => by
      obtain ⟨hkey, hnot⟩ := (expects_define? ht key).mp hkey
      have hne : Owed ⟨s, x :: hand, phase⟩ key := by
        refine hne.of_later hle fun hph k hs => ⟨hph, ?_⟩
        rw [Layout.HasStart, hk.counters]
        exact hs
      rcases h.owed key hkey hne with hp | ⟨y, hy, hyk⟩
      · refine .inl ?_
        show (t.pendings.producer? key).isSome
        rw [hprod]
        exact hp
      · rcases List.mem_cons.mp hy with rfl | hy
        · exact absurd (hd.trans hyk) hnot
        · exact .inr ⟨y, hy, hyk⟩
    unplaced := fun hp hf k hs hjob => by
      rw [Layout.HasStart, hk.counters] at hs
      refine h.unplaced hp (hk.finished ▸ hf) k hs (hasJob_of_tail (hjob.imp_left fun hp => ?_))
      have hp : (t.pendings.producer? (.space k)).isSome := hp
      rw [hprod] at hp
      exact hp
    closing := fun hp => hk.finished.trans (h.closing hp)
    placing := fun hp => hk.finished.trans (h.placing hp) }

/-- A job at hand is done. -/
theorem Valid.establish (h : Valid ⟨s, x :: hand, phase⟩) {d : Definition}
    (hd : d.product? = x.2.task.product?) (hsound : d.Sound s.layout.spaces) :
    Valid ⟨s.establish d, hand, phase⟩ := by
  unfold Assembly.establish
  split
  · -- Only the job of a move to a target can be done in vain.
    rename_i hnone
    refine h.drop fun key hkey => Classical.byContradiction fun hno => ?_
    have hexp := (h.held x List.mem_cons_self).expected key hkey
    obtain ⟨t, ht⟩ := exists_define? hexp (hd.trans hkey) fun space length hlength => by
      subst hlength
      have hkey : Prerequisite.space space = key := Option.some.inj (hd.trans hkey)
      rw [hsound.plain fun hjump => hno ⟨space, hkey.symm, hjump⟩]
      exact List.not_mem_nil
    rw [hnone] at ht
    cases ht
  · rename_i t ht
    have hdefine := h.define hd hsound ht
    split
    · exact hdefine.alike (t.alike_wake _)
    · exact hdefine

/-- A job at hand is put into the table under a number that is free. -/
theorem Valid.put {id? : Option Nat} {job : Job} (h : Valid ⟨s, (id?, job) :: hand, phase⟩)
    {waiting : List Prerequisite} (hne : waiting ≠ []) {id : Nat} {u : PendingTable Job}
    (hu : u.Indexed) (ha : u.Acyclic)
    (hget : ∀ j, u.get? j = if j = id then some ⟨job, waiting⟩ else s.pendings.get? j)
    (hprod : ∀ key, u.producer? key =
      if job.task.product? = some key then some id else s.pendings.producer? key)
    (hnext : s.pendings.next ≤ u.next) (hnum : ∀ y ∈ hand, y.1 ≠ some id) :
    Valid ⟨{ s with pendings := u }, hand, phase⟩ := by
  have hheld := h.held _ List.mem_cons_self
  have hexp := expects_pendings s u
  -- The product of the job is accounted for before and after, by the hand or by the table.
  have hjobs : ∀ key, HasJob ⟨{ s with pendings := u }, hand, phase⟩ key ↔
      HasJob ⟨s, (id?, job) :: hand, phase⟩ key := by
    intro key
    unfold HasJob
    rw [show ({ s with pendings := u } : Assembly).pendings.producer? key = u.producer? key from
      rfl, hprod key]
    by_cases hkey : job.task.product? = some key
    · rw [if_pos hkey]
      exact iff_of_true (.inl rfl) (.inr ⟨_, List.mem_cons_self, hkey⟩)
    · rw [if_neg hkey]
      simp [hkey]
  exact {
    wellFormed := wellFormed_pendings h.wellFormed u
    formed := h.formed
    indexed := hu
    acyclic := ha
    entries := fun j p hp => by
      have hp : u.get? j = some p := hp
      rw [hget] at hp
      split at hp
      · cases hp
        exact ⟨hne, hheld.inScope, fun key hkey => (hexp key).mpr (hheld.expected key hkey)⟩
      · exact (h.entries j p hp).later (.refl _) fun key _ => (hexp key).mpr
    held := fun y hy => by
      have hh := h.held y (List.mem_cons_of_mem _ hy)
      refine ⟨hh.inScope, fun key hkey => (hexp key).mpr (hh.expected key hkey),
        fun key hkey => ?_, fun j hj => ⟨?_, ?_⟩⟩
      · show u.producer? key = none
        rw [hprod, if_neg fun hx => h.product_ne hx hy hkey]
        exact hh.absent key hkey
      · exact Nat.lt_of_lt_of_le (hh.free j hj).1 hnext
      · show u.get? j = none
        rw [hget, if_neg]
        · exact (hh.free j hj).2
        · rintro rfl
          exact hnum y hy hj
    products := nodup_filterMap_of_cons h.products
    numbers := nodup_filterMap_of_cons h.numbers
    owed := fun key hkey hne => (hjobs key).mpr (h.owed key ((hexp key).mp hkey) hne)
    unplaced := fun hp hf k hs hjob => h.unplaced hp hf k hs ((hjobs _).mp hjob)
    closing := h.closing
    placing := h.placing }

/-- A job at hand is put aside. -/
theorem Valid.postpone {id? : Option Nat} {job : Job}
    (h : Valid ⟨s, (id?, job) :: hand, phase⟩) {waiting : List Prerequisite}
    (hne : waiting ≠ []) (hno : s.isCyclic job waiting = false) :
    Valid ⟨s.postpone id? job waiting, hand, phase⟩ := by
  have hheld := h.held _ List.mem_cons_self
  have hclear : ∀ key, job.task.product? = some key →
      ¬ s.pendings.createsCycle key waiting := by
    intro key hkey
    simp only [isCyclic, hkey, Option.any_some] at hno
    simpa using hno
  have habsent : ∀ key, product? job = some key → s.pendings.producer? key = none :=
    fun key hkey => hheld.absent key hkey
  -- Work that has been pending keeps its number, and new work gets the next one.
  cases id? with
  | some id =>
    obtain ⟨hlt, hnone⟩ := hheld.free id rfl
    have hu := h.indexed.reinsert (p := ⟨job, waiting⟩) hlt hnone habsent
    exact h.put hne hu (h.acyclic.reinsert h.indexed hu hclear) (PendingTable.get?_reinsert _ _ _)
      (fun _ => PendingTable.producer?_reinsert) (Nat.le_refl _) fun y hy => h.number_ne rfl hy
  | none =>
    have hu := h.indexed.register (p := ⟨job, waiting⟩) habsent
    refine h.put hne hu (h.acyclic.register h.indexed hu hclear) (PendingTable.get?_reinsert _ _ _)
      (fun _ => PendingTable.producer?_reinsert) (Nat.le_succ _) fun y hy hid => ?_
    have hfree := (h.held y (List.mem_cons_of_mem _ hy)).free _ hid
    exact Nat.lt_irrefl _ hfree.1

/-- A job at hand is done with what an attempt has made of it, after a report if that met a fault. -/
theorem Valid.establish_attempt {id? : Option Nat} {job : Job} (h : Valid ⟨s, (id?, job) :: hand, phase⟩)
    {d : Definition} (hd : (s.attempt job).value? = some d) (hst : s.Alike t) :
    Valid ⟨t.establish d, hand, phase⟩ := by
  have hscope := (h.held _ List.mem_cons_self).inScope
  refine (h.alike hst).establish (product?_attempt hd) ?_
  rw [hst.layout]
  exact sound_attempt h.wellFormed.inScope h.wellFormed.acyclic hscope hd

/-- So is a job whose product gets a value in its place. -/
theorem Valid.establish_fallback {id? : Option Nat} {job : Job} (h : Valid ⟨s, (id?, job) :: hand, phase⟩)
    (hst : s.Alike t) : Valid ⟨t.establish job.task.fallback, hand, phase⟩ :=
  (h.alike hst).establish (Task.product?_fallback _) (Task.sound_fallback _)

theorem Valid.settle {id? : Option Nat} {job : Job} (h : Valid ⟨s, (id?, job) :: hand, phase⟩) :
    Valid ⟨s.settle id? job, hand, phase⟩ := by
  unfold Assembly.settle
  split
  · rename_i d hd
    exact h.establish_attempt (by rw [hd]; rfl) (.refl s)
  · rename_i d fault hd
    exact h.establish_attempt (by rw [hd]; rfl) (alike_report s fault job.frame.location)
  · rename_i waiting hwait
    split
    · exact h.establish_fallback (alike_report s _ _)
    · rename_i hno
      have hscope := (h.held _ List.mem_cons_self).inScope
      exact h.postpone (attempt_ne_nil h.wellFormed.named hscope hwait) (by simpa using hno)

theorem Valid.conclude {id? : Option Nat} {job : Job} (h : Valid ⟨s, (id?, job) :: hand, phase⟩)
    (explained : Bool) : Valid ⟨s.conclude explained job, hand, phase⟩ := by
  unfold Assembly.conclude
  dsimp only
  split
  · rename_i d hd
    exact h.establish_attempt (by rw [hd]; rfl) (.refl s)
  · rename_i d fault hd
    exact h.establish_attempt (by rw [hd]; rfl) (alike_report s fault job.frame.location)
  · rename_i waiting hwait
    split
    · exact h.establish_fallback (.refl s)
    · have hexplain := s.alike_explain waiting job.frame.location
      split
      · exact h.establish_fallback hexplain
      · exact h.establish_fallback (hexplain.trans (alike_report _ _ _))

/-- Taking up pending work leaves what will be produced as it is. -/
theorem Valid.hasJob_take (h : Valid ⟨s, hand, phase⟩) {id : Nat} {p : Pending Job}
    {u : PendingTable Job} (ht : s.pendings.take? id = some (p, u)) (key : Prerequisite) :
    HasJob ⟨{ s with pendings := u }, (some id, p.work) :: hand, phase⟩ key ↔
      HasJob ⟨s, hand, phase⟩ key := by
  have hp := PendingTable.take?_eq_some ht
  unfold HasJob
  rw [show ({ s with pendings := u } : Assembly).pendings.producer? key = u.producer? key from
    rfl, PendingTable.producer?_take ht]
  by_cases hkey : p.work.task.product? = some key
  · have hprod : s.pendings.producer? key = some id :=
      (h.indexed.producers key id).mpr ⟨p, hp, hkey⟩
    rw [hprod]
    exact iff_of_true (.inr ⟨_, List.mem_cons_self, hkey⟩) (.inl rfl)
  · rw [if_neg fun hand => hkey hand.1]
    simp [hkey]

/-- Pending work that is taken up leaves its number free. -/
theorem Valid.held_take (h : Valid ⟨s, hand, phase⟩) {id : Nat} {p : Pending Job} {u : PendingTable Job}
    (ht : s.pendings.take? id = some (p, u)) : Held { s with pendings := u } (some id, p.work) := by
  have hp := PendingTable.take?_eq_some ht
  have hentry := h.entries id p hp
  refine ⟨hentry.inScope, fun key hkey => (expects_pendings s u key).mpr (hentry.expected key hkey),
    fun key hkey => h.indexed.producer?_take_eq_none ht hkey, fun j hj => ?_⟩
  cases hj
  constructor
  · show id < u.next
    rw [PendingTable.next_take ht]
    exact h.indexed.fresh id p hp
  · show u.get? id = none
    rw [PendingTable.get?_take ht, if_pos rfl]

/-- Pending work is taken up. -/
theorem Valid.take (h : Valid ⟨s, hand, phase⟩) {id : Nat} {p : Pending Job}
    {u : PendingTable Job} (ht : s.pendings.take? id = some (p, u)) (hnew : ∀ x ∈ hand, x.1 = none) :
    Valid ⟨{ s with pendings := u }, (some id, p.work) :: hand, phase⟩ := by
  have hp := PendingTable.take?_eq_some ht
  have hexp := expects_pendings s u
  have hjobs := h.hasJob_take ht
  exact {
    wellFormed := wellFormed_pendings h.wellFormed u
    formed := h.formed
    indexed := h.indexed.take ht
    acyclic := h.acyclic.take h.indexed ht
    entries := fun j q hq => by
      have hq : u.get? j = some q := hq
      rw [PendingTable.get?_take ht] at hq
      split at hq
      · cases hq
      · exact (h.entries j q hq).later (.refl _) fun key _ => (hexp key).mpr
    held := fun x hx => by
      rcases List.mem_cons.mp hx with rfl | hx
      · exact h.held_take ht
      · have hh := h.held x hx
        refine ⟨hh.inScope, fun key hkey => (hexp key).mpr (hh.expected key hkey),
          fun key hkey => ?_, fun j hj => ?_⟩
        · show u.producer? key = none
          rw [PendingTable.producer?_take ht, hh.absent key hkey, ite_self]
        · rw [hnew x hx] at hj
          cases hj
    products := by
      -- Its product is that of no job at hand, as it was pending.
      cases hkey : p.work.task.product? with
      | none =>
        simp only [List.filterMap_cons, hkey]
        exact h.products
      | some key =>
        simp only [List.filterMap_cons, hkey]
        refine List.nodup_cons.mpr ⟨fun hmem => ?_, h.products⟩
        obtain ⟨x, hx, hxk⟩ := List.mem_filterMap.mp hmem
        exact h.product_ne_pending hp hkey hx hxk
    numbers := by
      -- The jobs at hand are new ones and have no numbers.
      have hnil : hand.filterMap (·.1) = [] := List.filterMap_eq_nil_iff.mpr hnew
      simp only [List.filterMap_cons, hnil]
      exact List.pairwise_singleton _ _
    owed := fun key hkey hne => (hjobs key).mpr (h.owed key ((hexp key).mp hkey) hne)
    unplaced := fun hph hf k hs hjob => h.unplaced hph hf k hs ((hjobs _).mp hjob)
    closing := h.closing
    placing := h.placing }

/-- New jobs come after those at hand. -/
theorem hasJob_append {jobs : List Job} {key : Prerequisite} :
    HasJob ⟨s, hand ++ jobs.map (none, ·), phase⟩ key ↔
      HasJob ⟨s, hand, phase⟩ key ∨ ∃ job ∈ jobs, job.task.product? = some key := by
  simp only [HasJob, List.mem_append, List.mem_map, or_assoc]
  refine or_congr_right ?_
  constructor
  · rintro ⟨x, hx | ⟨job, hjob, rfl⟩, hkey⟩
    · exact .inl ⟨x, hx, hkey⟩
    · exact .inr ⟨job, hjob, hkey⟩
  · rintro (⟨x, hx, hkey⟩ | ⟨job, hjob, hkey⟩)
    · exact ⟨x, .inl hx, hkey⟩
    · exact ⟨(none, job), .inr ⟨job, hjob, rfl⟩, hkey⟩

/-- New jobs have no numbers. -/
theorem numbers_new {α : Type} (jobs : List α) (f : α → Job) :
    (jobs.map fun a => ((none : Option Nat), f a)).filterMap (·.1) = [] := by
  rw [List.filterMap_map]
  exact List.filterMap_eq_nil_iff.mpr fun _ _ => rfl

/-- No pending job produces what was not expected. -/
theorem Valid.producer?_eq_none (h : Valid ⟨s, hand, phase⟩) {key : Prerequisite} (hnot : ¬ s.Expects key) :
    s.pendings.producer? key = none :=
  Option.eq_none_iff_forall_ne_some.mpr fun _ hid =>
    hnot (h.expected_of_hasJob (.inl (Option.isSome_iff_exists.mpr ⟨_, hid⟩)))

/-- More is expected, and the jobs for it are at hand. -/
theorem Valid.extend (h : Valid ⟨s, hand, .reading⟩) {jobs : List Job} (hwf : t.WellFormed)
    (hformed : t.layout.Formed) (hspaces : s.layout.spaces.Earlier t.layout.spaces)
    (hpendings : t.pendings = s.pendings) (hfinished : t.finished = s.finished)
    (hexp : ∀ key, s.Expects key → t.Expects key)
    (hscope : ∀ job ∈ jobs, job.Scoped t.layout.spaces)
    (hnodup : (jobs.filterMap (·.task.product?)).Nodup)
    (hnew : ∀ job ∈ jobs, ∀ key, job.task.product? = some key → t.Expects key ∧ ¬ s.Expects key)
    (hkept : ∀ k, s.layout.HasStart k → t.layout.HasStart k)
    (hjobs : ∀ key, t.Expects key → Owed ⟨t, hand, .reading⟩ key → ¬ s.Expects key →
      ∃ job ∈ jobs, job.task.product? = some key)
    (hstart : ∀ k, t.layout.HasStart k → (s.layout.HasStart k ∨ ¬ s.Expects (.space k)) ∧
      ∀ job ∈ jobs, job.task.product? ≠ some (.space k)) :
    Valid ⟨t, hand ++ jobs.map (none, ·), .reading⟩ := by
  have hprod : ∀ key, t.pendings.producer? key = s.pendings.producer? key := fun key => by
    rw [hpendings]
  have hjob : ∀ key, HasJob ⟨t, hand, .reading⟩ key ↔ HasJob ⟨s, hand, .reading⟩ key := by
    intro key
    rw [HasJob, HasJob, hprod]
  exact {
    wellFormed := hwf
    formed := hformed
    indexed := by
      show t.pendings.Indexed
      rw [hpendings]
      exact h.indexed
    acyclic := by
      show t.pendings.Acyclic
      rw [hpendings]
      exact h.acyclic
    entries := fun id p hp => by
      have hp : t.pendings.get? id = some p := hp
      rw [hpendings] at hp
      exact (h.entries id p hp).later hspaces fun key _ => hexp key
    held := fun x hx => by
      rcases List.mem_append.mp hx with hx | hx
      · exact (h.held x hx).later hspaces hpendings fun key _ => hexp key
      · obtain ⟨job, hmem, rfl⟩ := List.mem_map.mp hx
        exact ⟨hscope job hmem, fun key hkey => (hnew job hmem key hkey).1,
          fun key hkey => (hprod key).trans (h.producer?_eq_none (hnew job hmem key hkey).2),
          fun id hid => nomatch hid⟩
    products := by
      show ((hand ++ jobs.map ((none : Option Nat), ·)).filterMap (·.2.task.product?)).Nodup
      rw [List.filterMap_append, List.filterMap_map]
      refine List.nodup_append.mpr ⟨h.products, hnodup, ?_⟩
      -- What a job at hand produces was expected before, and what a new one does was not.
      rintro key hkey key' hkey' rfl
      obtain ⟨x, hx, hxk⟩ := List.mem_filterMap.mp hkey
      obtain ⟨job, hmem, hjk⟩ := List.mem_filterMap.mp hkey'
      exact (hnew job hmem key hjk).2 ((h.held x hx).expected key hxk)
    numbers := by
      show ((hand ++ jobs.map ((none : Option Nat), ·)).filterMap (·.1)).Nodup
      rw [List.filterMap_append, numbers_new, List.append_nil]
      exact h.numbers
    owed := fun key hkey hne => by
      refine hasJob_append.mpr ?_
      -- What was expected before is owed by the old work, and the rest by the new jobs.
      by_cases hthere : s.Expects key
      · have howed : Owed ⟨s, hand, .reading⟩ key :=
          hne.of_later hspaces fun hph k hs => ⟨hph, hkept k hs⟩
        exact .inl ((hjob key).mpr (h.owed key hthere howed))
      · exact .inr (hjobs key hkey hne hthere)
    unplaced := fun hph hf k hs hhas => by
      obtain ⟨hold, hno⟩ := hstart k hs
      rcases hasJob_append.mp hhas with hhas | ⟨job, hmem, hkey⟩
      · have hhas := (hjob _).mp hhas
        rcases hold with hs | hnot
        · exact h.unplaced hph (hfinished ▸ hf) k hs hhas
        · exact hnot (h.expected_of_hasJob hhas)
      · exact hno job hmem hkey
    closing := fun hph => nomatch hph
    placing := fun hph => nomatch hph }

theorem wellFormed_create (hs : s.WellFormed) {sym : Symbol} {symbols : SymbolTable}
    (hsym : s.symbols.create? sym = some symbols)
    (hval : ∀ v, sym.value? = some v → v.LiesIn s.layout.spaces) :
    { s with symbols }.WellFormed := by
  obtain ⟨-, hget⟩ := SymbolTable.create?_eq_some hsym
  refine ⟨fun n other hother => ?_, hs.acyclic, hs.inScope.closed, fun n other v hother hv => ?_⟩
  · have hother : symbols.get? n = some other := hother
    rw [hget] at hother
    split at hother
    · cases hother
      exact Eq.symm ‹_›
    · exact hs.named n other hother
  · have hother : symbols.get? n = some other := hother
    rw [hget] at hother
    split at hother
    · cases hother
      exact hval v hv
    · exact hs.inScope.values n other v hother hv

/-- A symbol is entered, and the jobs that fill it in are at hand. -/
theorem Valid.enter (h : Valid ⟨s, hand, .reading⟩) {sym : Symbol} {symbols : SymbolTable}
    {jobs : List Job} (hsym : s.symbols.create? sym = some symbols)
    (hval : ∀ v, sym.value? = some v → v.LiesIn s.layout.spaces)
    (hscope : ∀ job ∈ jobs, job.Scoped s.layout.spaces)
    (hsub : (jobs.filterMap (·.task.product?)).Sublist sym.owed)
    (hall : ∀ key ∈ sym.owed, key ∈ jobs.filterMap (·.task.product?) ∨
      key = .attr sym.name .length) :
    Valid ⟨{ s with symbols }, hand ++ jobs.map (none, ·), .reading⟩ := by
  have hexp := expects_create hsym
  have hnone := (SymbolTable.create?_eq_some hsym).1
  have hmem : ∀ job ∈ jobs, ∀ key, job.task.product? = some key → key ∈ sym.owed := by
    intro job hjob key hkey
    exact hsub.subset (List.mem_filterMap.mpr ⟨job, hjob, hkey⟩)
  -- What is expected beyond what was is what the symbol owes, and only its length may be left without a job.
  refine h.extend (wellFormed_create h.wellFormed hsym hval) h.formed (.refl _) rfl rfl
    (fun key hkey => (hexp key).mpr (.inl hkey)) hscope ((Symbol.nodup_owed sym).sublist hsub)
    (fun job hjob key hkey => ?_) (fun _ => id) (fun key hkey hne hthere => ?_)
    fun k hs => ⟨.inl hs, fun job hjob hkey => ?_⟩
  · have howed := hmem job hjob key hkey
    exact ⟨(hexp key).mpr (.inr howed), not_expects_owed hnone howed⟩
  · have howed := ((hexp key).mp hkey).resolve_left hthere
    have hkey := (hall key howed).resolve_right fun heq => by
      rw [heq] at hne
      exact hne
    obtain ⟨job, hjob, hjk⟩ := List.mem_filterMap.mp hkey
    exact ⟨job, hjob, hjk⟩
  · exact Symbol.space_not_mem_owed sym k (hmem job hjob _ hkey)

theorem expects_arrange {layout : Layout} {job? : Option Job} (ha : s.layout.Arranges layout job?)
    {key : Prerequisite} (hkey : s.Expects key) : { s with layout }.Expects key := by
  cases key with
  | symbol n => exact hkey
  | attr n kind => cases kind <;> exact hkey
  | space k =>
    refine ⟨Nat.lt_of_lt_of_le hkey.1 ha.grows.earlier.size_le, ?_⟩
    rw [ha.grows.isResolved]
    exact hkey.2

/-- What a change of the layout adds to what is expected is the length of a new space. -/
theorem exists_space_of_expects_arrange {layout : Layout} {job? : Option Job}
    (ha : s.layout.Arranges layout job?) {key : Prerequisite} (hkey : { s with layout }.Expects key)
    (hnot : ¬ s.Expects key) : ∃ k, key = .space k ∧ s.layout.spaces.size ≤ k.index ∧
      k.index < layout.spaces.size := by
  cases key with
  | symbol n => exact absurd hkey hnot
  | attr n kind => exact absurd hkey (by cases kind <;> exact hnot)
  | space k =>
    refine ⟨k, rfl, Nat.le_of_not_lt fun hlt => hnot ⟨hlt, fun hres => hkey.2 ?_⟩, hkey.1⟩
    exact (ha.grows.isResolved k).trans hres

/-- A change of the layout is made, and the job that it leaves is at hand. -/
theorem Valid.arrange (h : Valid ⟨s, hand, .reading⟩) {layout : Layout} {job? : Option Job}
    (ha : s.layout.Arranges layout job?) :
    Valid ⟨{ s with layout }, hand ++ job?.toList.map (none, ·), .reading⟩ := by
  have hle := ha.grows.earlier
  have hnew : ∀ job ∈ job?.toList, job.Scoped layout.spaces ∧
      ∃ k rule, job.task = .space k rule ∧ s.layout.spaces.size ≤ k.index :=
    fun job hjob => ha.job job (Option.mem_toList.mp hjob)
  -- What is expected beyond what was is the length of the new space.
  refine h.extend (t := { s with layout }) ?_ (ha.formed h.formed) hle rfl rfl
    (fun _ => expects_arrange ha) (fun job hjob => (hnew job hjob).1) ?_
    (fun job hjob key hkey => ?_) ha.kept (fun key hkey hne hthere => ?_) fun k hs => ?_
  · exact ⟨h.wellFormed.named, ha.grows.acyclic h.wellFormed.acyclic,
      ha.grows.closed h.wellFormed.inScope.closed,
      fun n sym v hsym hv => (h.wellFormed.inScope.values n sym v hsym hv).later hle⟩
  · cases job? with
    | none => exact List.nodup_nil
    | some job => cases hkey : job.task.product? <;> simp [hkey]
  · obtain ⟨hscope, k, rule, htask, hk⟩ := hnew job hjob
    rw [htask] at hkey
    cases hkey
    refine ⟨⟨?_, ?_⟩, fun hexp => Nat.not_lt.mpr hk hexp.1⟩
    · have ht := hscope.task
      rw [htask] at ht
      exact Spaces.lt_size_of_kind? ht.1
    · show ¬ layout.spaces.isResolved k
      rw [ha.grows.isResolved]
      simp [Spaces.isResolved, Spaces.length?, Spaces.get?, Array.getElem?_eq_none hk]
  · obtain ⟨k, rfl, hge, hlt⟩ := exists_space_of_expects_arrange ha hkey hthere
    rcases ha.further k hge hlt with hs | ⟨job, rule, hjob, htask⟩
    · exact absurd hs (hne.2 rfl)
    · exact ⟨job, Option.mem_toList.mpr hjob, by rw [htask]; rfl⟩
  · -- A job is for a new space, and for none that is the start of a counter.
    rcases ha.starts h.formed k hs with hs | ⟨hk, hother⟩
    · refine ⟨.inl hs, fun job hjob hkey => ?_⟩
      obtain ⟨-, k', rule, htask, hk'⟩ := hnew job hjob
      rw [htask] at hkey
      cases hkey
      exact Nat.not_lt.mpr hk' (h.formed.lt_size_of_hasStart hs)
    · refine ⟨.inr fun hexp => Nat.not_lt.mpr hk hexp.1, fun job hjob hkey => ?_⟩
      obtain ⟨-, k', rule, htask, -⟩ := hnew job hjob
      rw [htask] at hkey
      cases hkey
      exact hother job rule (Option.mem_toList.mp hjob) htask

/-- A job that only checks something is at hand. -/
theorem Valid.check (h : Valid ⟨s, hand, .reading⟩) {job : Job} (hnone : job.task.product? = none)
    (hscope : job.Scoped s.layout.spaces) : Valid ⟨s, hand ++ [(none, job)], .reading⟩ := by
  have hproduct : ∀ other ∈ [job], ∀ key, other.task.product? ≠ some key := by
    intro other hother key hkey
    rw [List.mem_singleton.mp hother, hnone] at hkey
    cases hkey
  show Valid ⟨s, hand ++ [job].map (none, ·), .reading⟩
  exact h.extend h.wellFormed h.formed (.refl _) rfl rfl (fun _ => id)
    (fun other hother => List.mem_singleton.mp hother ▸ hscope) (by simp [hnone])
    (fun other hother key hkey => absurd hkey (hproduct other hother key)) (fun _ => id)
    (fun key hkey _ hnot => absurd hkey hnot)
    fun k hs => ⟨.inl hs, fun other hother => hproduct other hother _⟩

/-- The job of a placement is for a start that has none yet. -/
theorem Valid.held_placement (h : Valid ⟨s, [], .reading⟩) (hf : s.finished = false) {p : Layout.Placement}
    (hp : p ∈ s.layout.placements) : Held s (none, p.job s.layout.counterAlignment) := by
  obtain ⟨_, _, c, -, -, hc, hck, hne, hopen⟩ := Layout.of_mem_placements hp
  have hs : s.layout.HasStart p.space := ⟨_, c, hc, hck⟩
  refine ⟨⟨fun x hx => (nomatch hx), h.formed.kind?_of_hasStart hs, hne⟩, fun key hkey => ?_,
    fun key hkey => ?_, fun id hid => nomatch hid⟩
  · cases hkey
    exact ⟨h.formed.lt_size_of_hasStart hs, hopen⟩
  · cases hkey
    refine Option.eq_none_iff_forall_ne_some.mpr fun id hid => h.unplaced rfl hf _ hs (.inl ?_)
    exact Option.isSome_iff_exists.mpr ⟨id, hid⟩

theorem products_placements (l : Layout) (start : Alignment) :
    (l.placements.map fun p => ((none : Option Nat), p.job start)).filterMap (·.2.task.product?) =
      l.placements.map fun p => .space p.space := by
  rw [List.filterMap_map]
  exact congrFun List.filterMap_eq_map l.placements

/-- The further counters are to be placed. -/
theorem Valid.place (h : Valid ⟨s, [], .reading⟩) (hf : s.finished = false) :
    Valid ⟨s, s.layout.placements.map fun p => (none, p.job s.layout.counterAlignment),
      .placing⟩ where
  wellFormed := h.wellFormed
  formed := h.formed
  indexed := h.indexed
  acyclic := h.acyclic
  entries := h.entries
  held x hx := by
    obtain ⟨p, hp, rfl⟩ := List.mem_map.mp hx
    exact h.held_placement hf hp
  products := by
    have hnodup : (s.layout.placements.map fun p => Prerequisite.space p.space).Nodup :=
      List.pairwise_map.mpr ((Layout.pairwise_placements h.formed).imp fun hne heq =>
        hne (Prerequisite.space.inj heq))
    exact products_placements s.layout _ ▸ hnodup
  numbers := by
    show (List.filterMap (·.1) (s.layout.placements.map fun p =>
      ((none : Option Nat), p.job s.layout.counterAlignment))).Nodup
    rw [numbers_new]
    exact List.nodup_nil
  owed key hkey hne := by
    -- The start of a counter is owed by a placement from now on, and everything else as before.
    by_cases hstart : ∃ k, key = .space k ∧ s.layout.HasStart k
    · obtain ⟨k, rfl, hs⟩ := hstart
      obtain ⟨p, hp, rfl⟩ := h.formed.exists_placement hs hkey.2
      exact .inr ⟨_, List.mem_map_of_mem hp, rfl⟩
    · have hne : Owed ⟨s, [], .reading⟩ key := by
        cases key with
        | symbol n => exact hne
        | attr n kind => cases kind <;> exact hne
        | space k => exact ⟨hne.1, fun _ hs => hstart ⟨k, rfl, hs⟩⟩
      exact (h.owed key hkey hne).imp id fun ⟨x, hx, _⟩ => nomatch hx
  unplaced hph := nomatch hph
  closing hph := nomatch hph
  placing _ := hf

/-- The end of the source. -/
theorem Valid.close (h : Valid ⟨s, [], .placing⟩) :
    Valid ⟨{ s with finished := true }, [], .closing⟩ := by
  have hexp : ∀ key, { s with finished := true }.Expects key ↔ s.Expects key :=
    expects_of_eq rfl rfl
  exact {
    wellFormed := ⟨h.wellFormed.named, h.wellFormed.acyclic, h.wellFormed.inScope.closed,
      h.wellFormed.inScope.values⟩
    formed := h.formed
    indexed := h.indexed
    acyclic := h.acyclic
    entries := fun id p hp => (h.entries id p hp).later (.refl _) fun key _ => (hexp key).mpr
    held := fun x hx => nomatch hx
    products := h.products
    numbers := h.numbers
    owed := fun key hkey hne =>
      h.owed key ((hexp key).mp hkey) (hne.of_later (.refl _) fun hph => nomatch hph)
    unplaced := fun hph => nomatch hph
    closing := fun _ => rfl
    placing := fun hph => nomatch hph }

/-- Without pending work that produces anything nothing will be produced. -/
theorem Valid.not_hasJob (h : Valid ⟨s, [], phase⟩) (hnone : s.pendings.first? false = none)
    (key : Prerequisite) : ¬ HasJob ⟨s, [], phase⟩ key := by
  rintro (hprod | ⟨x, hx, -⟩)
  · obtain ⟨id, hid⟩ := Option.isSome_iff_exists.mp hprod
    obtain ⟨p, hp, hkey⟩ := (h.indexed.producers key id).mp hid
    rw [PendingTable.product?_of_first?_eq_none hnone hp] at hkey
    cases hkey
  · cases hx

/-- No job is left that produces anything, and the others are dropped. -/
theorem Valid.clear (h : Valid ⟨s, [], .closing⟩) (hnone : s.pendings.first? false = none) :
    Valid ⟨{ s with pendings := s.pendings.clear }, [], .reading⟩ where
  wellFormed := wellFormed_pendings h.wellFormed _
  formed := h.formed
  indexed := PendingTable.indexed_clear s.pendings
  acyclic := PendingTable.acyclic_clear s.pendings
  entries id p hp := nomatch (PendingTable.get?_clear s.pendings id).symm.trans hp
  held x hx := nomatch hx
  products := h.products
  numbers := h.numbers
  owed key hkey hne := by
    have hkey := (expects_pendings s s.pendings.clear key).mp hkey
    have hne : Owed ⟨s, [], .closing⟩ key := hne.of_later (.refl _) fun hph => nomatch hph
    exact absurd (h.owed key hkey hne) (h.not_hasJob hnone key)
  unplaced _ hf := by
    rw [show s.finished = true from h.closing rfl] at hf
    cases hf
  closing hph := nomatch hph
  placing hph := nomatch hph

end Moment

/-! ## 2. Every moment -/

namespace Moment

variable {m m' : Moment}

theorem Valid.cascade (hm : m.Valid) (h : Cascade m m') : m'.Valid := by
  cases h with
  | settle => exact hm.settle
  | @pick s hand phase id rest p pendings hw ht hnew =>
    exact (hm.alike (t := { s with worklist := rest }) ⟨rfl, rfl, rfl, rfl⟩).take ht hnew
  | skip | stall | resume => exact hm.alike ⟨rfl, rfl, rfl, rfl⟩

theorem Valid.progress (hm : m.Valid) (h : Progress m m') : m'.Valid := by
  cases h with
  | report d => exact hm.alike (Assembly.alike_addDiagnostic _ d)
  | arrange ha => exact hm.arrange ha
  | enter hsym hval hscope hsub hall =>
    exact (hm.enter hsym hval hscope hsub hall).alike (Assembly.alike_foldl_wake _ _)
  | check hnone hscope => exact hm.check hnone hscope
  | defineMacro | defineVariable => exact hm.alike ⟨rfl, rfl, rfl, rfl⟩

theorem Valid.ending (hm : m.Valid) (h : Ending m m') : m'.Valid := by
  cases h with
  | place hf => exact hm.place hf
  | close => exact hm.close
  | explain => exact hm.alike (Assembly.alike_explain _ _ _)
  | choose ht => exact hm.take ht fun x hx => nomatch hx
  | conclude explained => exact hm.conclude explained
  | clear _ _ hnone => exact hm.clear hnone

theorem Valid.step (hm : m.Valid) (h : Step m m') : m'.Valid := by
  cases h with
  | cascade h => exact hm.cascade h
  | progress h => exact hm.progress h
  | ending h => exact hm.ending h

theorem Valid.run (hm : m.Valid) (h : Run Step m m') : m'.Valid :=
  h.keeps (fun _ _ hstep hv => hv.step hstep) hm

theorem wellFormed_new (settings : Settings) : (Assembly.new settings).WellFormed where
  named n _ h := nomatch (SymbolTable.get?_empty n).symm.trans h
  acyclic := Spaces.acyclic_empty
  inScope := ⟨Spaces.closed_empty, fun n _ _ h => nomatch (SymbolTable.get?_empty n).symm.trans h⟩

/-- At the start there is nothing. -/
theorem valid_start (settings : Settings) : (start settings).Valid where
  wellFormed := wellFormed_new settings
  formed := Layout.formed_new _
  indexed := PendingTable.indexed_empty
  acyclic := PendingTable.acyclic_clear {}
  entries id p hp := nomatch (PendingTable.get?_clear {} id).symm.trans hp
  held x hx := nomatch hx
  products := List.nodup_nil
  numbers := List.nodup_nil
  owed key hkey hne := by
    have hno : ∀ n sym, ¬ (Assembly.new settings).symbols.get? n = some sym := fun n _ hsym =>
      nomatch (SymbolTable.get?_empty n).symm.trans hsym
    cases key with
    | symbol n =>
      obtain ⟨sym, hsym, -⟩ := hkey
      exact absurd hsym (hno n sym)
    | attr n kind =>
      cases kind with
      | length => exact hne.elim
      | scale | integer =>
        obtain ⟨sym, hsym, -⟩ := hkey
        exact absurd hsym (hno n sym)
      | type | opcode | count | number | defined => exact hkey.elim
    | space k => exact absurd hkey.1 (Nat.not_lt_zero _)
  unplaced _ _ k hs := by
    obtain ⟨_, _, hc, -⟩ := hs
    cases hc
  closing hph := nomatch hph
  placing hph := nomatch hph

theorem Reachable.valid {settings : Settings} {m : Moment} (h : m.Reachable settings) : m.Valid :=
  (valid_start settings).run h

end Moment

end Assembler
