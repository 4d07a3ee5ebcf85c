import Assembler.Proofs.Equation.Balance
/-!
Equations at the end of the source.

When all equations have been read, the labels that are given up break all cycles of references
(`Balanced.breaks`). What is left waits for names that nothing defines (`Balanced.misses_iff`), so no
further cycle is reported while it is done or given up (`Balanced.concludeAll`).
-/

namespace Assembler

open Assembly Equation

namespace Equation

variable {eqs : List Equation} {c : List Name} {n : Name}

/-- Whether a name refers in the end to one that is not a label. -/
def LeadsAstray (eqs : List Equation) (n : Name) : Prop :=
  ∃ u, Relation.TransGen (Refers eqs) n u ∧ ¬ IsLabel eqs u

theorem isLabel_of_mem {e : Equation} (he : e ∈ eqs) : IsLabel eqs e.label :=
  List.mem_map_of_mem he

/-- What can be reached only by finitely many references is not on a cycle of them. -/
theorem not_transGen_of_acc {r : Name → Name → Prop} (h : Acc (fun b a => r a b) n) :
    ¬ Relation.TransGen r n n := by
  induction h with
  | intro n _ ih =>
    intro hcycle
    obtain ⟨b, hb, hrest⟩ := Relation.TransGen.head'_iff.mp hcycle
    exact ih b hb (.tail' hrest hb)

end Equation

/-! ## 1. Between the statements -/

namespace Balanced

variable {eqs : List Equation} {l : Ledger} {s t : Assembly} {phase : Phase} {settings : Settings}

/-- A label without a value is expected to get one. -/
theorem expects_of_label {hand : List (Option Nat × Job)} (h : Balanced eqs l s hand) {n : Name}
    (hn : n ∈ l.entered) (hnone : s.number? n = none) : s.Expects (.symbol n) := by
  obtain ⟨sym, hsym⟩ := Option.isSome_iff_exists.mp ((h.entered n).mpr hn)
  have hv := (number?_eq_none h.numeric).mp hnone
  rw [hsym] at hv
  exact ⟨sym, hsym, hv⟩

/-- The equation of a label without a value is pending. -/
theorem exists_pending (hnodup : (eqs.map (·.label)).Nodup) (h : Balanced eqs l s [])
    (hv : Moment.Valid ⟨s, [], phase⟩) {e : Equation} (he : e ∈ eqs) (hentered : e.label ∈ l.entered)
    (hnone : s.number? e.label = none) : ∃ id p, s.pendings.get? id = some p ∧ p.work = e.job := by
  obtain ⟨id, ⟨p, hp, hkey⟩, -⟩ := hv.existsUnique_producer (.symbol e.label)
    (h.expects_of_label hentered hnone) trivial
  obtain ⟨e', he', hwork, -⟩ := h.pending id p hp
  rw [hwork] at hkey
  have hlabel : e'.label = e.label := Prerequisite.symbol.inj (Option.some.inj hkey)
  rw [eq_of_label hnodup he' he hlabel] at hwork
  exact ⟨id, p, hp, hwork⟩

/-- A label without a value waits for the names in its expression that have none. -/
theorem waits_of_refers (hnodup : (eqs.map (·.label)).Nodup) (h : Balanced eqs l s [])
    (hv : Moment.Valid ⟨s, [], phase⟩) (hall : ∀ e ∈ eqs, e.label ∈ l.entered) {n m : Name}
    (hn : s.number? n = none) (hm : s.number? m = none) (hrefers : Refers eqs n m) :
    s.pendings.Waits (.symbol n) (.symbol m) := by
  obtain ⟨e, he, rfl, hmem⟩ := hrefers
  obtain ⟨id, p, hp, hwork⟩ := h.exists_pending hnodup hv he (hall e he) hn
  obtain ⟨e', he', hwork', -, hwants⟩ := h.pending id p hp
  have hsame : e' = e := by
    rw [hwork] at hwork'
    injection hwork' with htask _
    injection htask with hlabel _
    exact eq_of_label hnodup he' he hlabel.symm
  rw [hsame] at hwants
  refine ⟨p.waiting, hv.indexed.waitingOf?_eq_some.mpr ⟨id, p, hp, ?_, rfl⟩, hwants _ ⟨m, hmem, hm, rfl⟩⟩
  show p.work.task.product? = some (.symbol e.label)
  rw [hwork]
  rfl

/-- The labels that are given up break all cycles. A cycle that is left would have to go through labels
without values only, and these would wait for each other. -/
theorem breaks (hnodup : (eqs.map (·.label)).Nodup) (h : Balanced eqs l s [])
    (hv : Moment.Valid ⟨s, [], phase⟩) (hall : ∀ e ∈ eqs, e.label ∈ l.entered)
    (hgiven : ∀ n, ¬ l.given n) : Breaks eqs l.cyclic := by
  intro n hcycle
  have none_of_not_acc : ∀ m, ¬ Acc (fun b a => Needs eqs l.cyclic a b ∧ ¬ l.given a) m →
      s.number? m = none := by
    intro m hm
    cases hk : s.number? m with
    | none => rfl
    | some k => exact absurd (h.grounded m k hk) hm
  by_cases hacc : Acc (fun b a => Needs eqs l.cyclic a b ∧ ¬ l.given a) n
  · have hsub : Acc (fun b a => Needs eqs l.cyclic a b) n :=
      Subrelation.accessible (fun hba => ⟨hba, hgiven _⟩) hacc
    exact not_transGen_of_acc hsub hcycle
  · -- Along the cycle no label is grounded, so each waits for the next one, by induction along the path.
    have path : ∀ m, Relation.TransGen (Needs eqs l.cyclic) m n →
        ¬ Acc (fun b a => Needs eqs l.cyclic a b ∧ ¬ l.given a) m ∧
          ∃ q, s.pendings.Waits (.symbol m) q ∧ s.pendings.Reaches q (.symbol n) := by
      intro m hpath
      induction hpath using Relation.TransGen.head_induction_on with
      | single hneeds =>
        have hm := fun hm => hacc (Acc.inv hm ⟨hneeds, hgiven _⟩)
        exact ⟨hm, _, h.waits_of_refers hnodup hv hall (none_of_not_acc _ hm)
          (none_of_not_acc n hacc) hneeds.1, .refl _⟩
      | head hneeds _ ih =>
        obtain ⟨hb, q, hwaits, hreach⟩ := ih
        have hm := fun hm => hb (Acc.inv hm ⟨hneeds, hgiven _⟩)
        exact ⟨hm, _, h.waits_of_refers hnodup hv hall (none_of_not_acc _ hm)
          (none_of_not_acc _ hb) hneeds.1, .step hwaits hreach⟩
    obtain ⟨-, q, hwaits, hreach⟩ := path n hcycle
    exact hv.acyclic _ q hwaits hreach

/-! ## 2. What is undefined -/

theorem reportable?_of_not_isLabel {hand : List (Option Nat × Job)} (h : Balanced eqs l s hand)
    (hall : ∀ n, n ∈ l.entered ↔ IsLabel eqs n) {u : Name} (hu : ¬ IsLabel eqs u) :
    s.reportable? (.symbol u) = some u := by
  have hcontains : s.symbols.contains u = false := by
    rw [SymbolTable.contains, Bool.eq_false_iff]
    exact fun hsome => hu ((hall u).mp ((h.entered u).mp hsome))
  simp [reportable?, Option.filter, hcontains]

/-- When nothing is left to be tried, what lacks a value leads to names that are not labels. -/
theorem undefined_of_reaches {hand : List (Option Nat × Job)} (h : Balanced eqs l s hand)
    (hv : Moment.Valid ⟨s, hand, phase⟩) (hw : Moment.Watchful ⟨s, hand, phase⟩) (hdone : s.Done)
    (hall : ∀ n, n ∈ l.entered ↔ IsLabel eqs n) {n : Name} {q : Prerequisite}
    (hlacks : s.Lacks (.symbol n)) (hreach : s.pendings.Reaches (.symbol n) q)
    (hroot : s.pendings.waitingOf? q = none) (hhand : ∀ x ∈ hand, x.2.task.product? ≠ some q) :
    ∃ u, q = .symbol u ∧ Relation.ReflTransGen (Needs eqs l.cyclic) n u ∧ ¬ IsLabel eqs u := by
  obtain ⟨u, rfl, hpath⟩ := h.needs_of_reaches hv hreach n rfl
  refine ⟨u, rfl, hpath, fun hlabel => ?_⟩
  have hlack := hw.lacks_of_reaches hv.indexed hdone.1 hdone.2 hreach hlacks
  obtain ⟨sym, hsym⟩ := Option.isSome_iff_exists.mp ((h.entered u).mpr ((hall u).mpr hlabel))
  rcases hv.owed (.symbol u) ⟨sym, hsym, hlack sym hsym⟩ trivial with hprod | ⟨x, hx, hkey⟩
  · obtain ⟨id, hid⟩ := Option.isSome_iff_exists.mp hprod
    obtain ⟨p, hp, hkey⟩ := (hv.indexed.producers _ id).mp hid
    have hsome := hv.indexed.waitingOf?_eq_some.mpr ⟨id, p, hp, hkey, rfl⟩
    have hnone : s.pendings.waitingOf? (.symbol u) = none := hroot
    rw [hnone] at hsome
    cases hsome
  · exact hhand x hx hkey

/-- Pending work misses names that are not labels. -/
theorem misses_of_pending (h : Balanced eqs l s []) (hv : Moment.Valid ⟨s, [], phase⟩)
    (hw : Moment.Watchful ⟨s, [], phase⟩) (hdone : s.Done)
    (hall : ∀ n, n ∈ l.entered ↔ IsLabel eqs n) {id : Nat} {p : Pending Job}
    (hp : s.pendings.get? id = some p) :
    (∃ u, s.Misses p.waiting u) ∧ ∀ u, s.Misses p.waiting u → ¬ IsLabel eqs u ∧
      ∃ e ∈ eqs, e.label ∉ l.cyclic ∧ u ∈ e.value.symbolTerms := by
  obtain ⟨e, he, hwork, hnames, -⟩ := h.pending id p hp
  have hkey : p.work.task.product? = some (.symbol e.label) := by
    rw [hwork]
    rfl
  have hfree := h.not_mem_cyclic (number?_of_expects ((hv.entries id p hp).expected _ hkey))
  have hstuck : s.Stuck phase p := by
    rcases hw id p hp with hid | hid | hstuck
    · rw [show s.worklist = [] from hdone.1] at hid
      cases hid
    · rw [show s.stalled = [] from hdone.2] at hid
      cases hid
    · exact hstuck
  -- What is lacking behind the work is not a label, as labels that are lacking wait for others themselves.
  have roots : ∀ root, s.Root p.waiting root → ∃ u, root = .symbol u ∧ ¬ IsLabel eqs u ∧
      Relation.TransGen (Needs eqs l.cyclic) e.label u := by
    rintro root ⟨⟨q, hq, hreach⟩, hroot⟩
    obtain ⟨n, hn, rfl⟩ := hnames q hq
    obtain ⟨u, rfl, hpath, hu⟩ := h.undefined_of_reaches hv hw hdone hall (hstuck.lacking _ hq) hreach
      hroot fun _ hx => absurd hx List.not_mem_nil
    exact ⟨u, rfl, hu, .head' ⟨⟨e, he, rfl, hn⟩, hfree⟩ hpath⟩
  constructor
  · obtain ⟨root, hroot⟩ := hv.exists_root (hv.entries id p hp).waiting
    obtain ⟨u, rfl, hu, -⟩ := roots root hroot
    exact ⟨u, _, hroot, h.reportable?_of_not_isLabel hall hu⟩
  · rintro m ⟨root, hroot, hm⟩
    obtain ⟨u, rfl, hu, hpath⟩ := roots root hroot
    rw [h.reportable?_of_not_isLabel hall hu] at hm
    cases hm
    obtain ⟨b, -, ⟨e', he', hlabel, hmem⟩, hb⟩ := Relation.TransGen.tail'_iff.mp hpath
    rw [← hlabel] at hb
    exact ⟨hu, e', he', hb, hmem⟩

/-- Just those names are missed that are not labels and occur in the equation of a label that is not given
up. -/
theorem misses_iff (hnodup : (eqs.map (·.label)).Nodup) (h : Balanced eqs l s [])
    (hv : Moment.Valid ⟨s, [], phase⟩) (hw : Moment.Watchful ⟨s, [], phase⟩) (hdone : s.Done)
    (hall : ∀ n, n ∈ l.entered ↔ IsLabel eqs n) (hgiven : ∀ n, ¬ l.given n) (u : Name) :
    (∃ id p, s.pendings.get? id = some p ∧ s.Misses p.waiting u) ↔
      ¬ IsLabel eqs u ∧ ∃ e ∈ eqs, e.label ∉ l.cyclic ∧ u ∈ e.value.symbolTerms := by
  constructor
  · rintro ⟨id, p, hp, hmiss⟩
    exact (h.misses_of_pending hv hw hdone hall hp).2 u hmiss
  · rintro ⟨hu, e, he, hfree, hmem⟩
    have hunknown : s.number? u = none := by
      refine (number?_eq_none h.numeric).mpr ?_
      have hnone : s.symbols.get? u = none := by
        rw [← Option.not_isSome_iff_eq_none]
        exact fun hsome => hu ((hall u).mp ((h.entered u).mp hsome))
      rw [hnone]
      rfl
    -- With `u` in its expression the label cannot have a value.
    have hnone : s.number? e.label = none := by
      cases hk : s.number? e.label with
      | none => rfl
      | some v =>
        rcases h.values e he v hk with hmem' | ⟨hgive, -⟩ | hcompute
        · exact absurd hmem' hfree
        · exact absurd hgive (hgiven _)
        · obtain ⟨k, hk⟩ := Expr.exists_of_compute? hcompute u hmem
          rw [hunknown] at hk
          cases hk
    obtain ⟨waiting, hwaiting, hwmem⟩ := h.waits_of_refers hnodup hv
      (fun e he => (hall _).mpr (isLabel_of_mem he)) hnone hunknown ⟨e, he, rfl, hmem⟩
    obtain ⟨id, p, hp, -, rfl⟩ := hv.indexed.waitingOf?_eq_some.mp hwaiting
    refine ⟨id, p, hp, .symbol u, ⟨⟨_, hwmem, .refl _⟩, ?_⟩, h.reportable?_of_not_isLabel hall hu⟩
    -- Only labels have producers.
    cases hproducer : s.pendings.waitingOf? (.symbol u) with
    | none => rfl
    | some waiting =>
      obtain ⟨j, q, hq, hkey, -⟩ := hv.indexed.waitingOf?_eq_some.mp hproducer
      obtain ⟨e', he', hwork', -⟩ := h.pending j q hq
      have hkey : q.work.task.product? = some (.symbol u) := hkey
      rw [hwork'] at hkey
      have hlabel : e'.label = u := Prerequisite.symbol.inj (Option.some.inj hkey)
      exact absurd (hlabel ▸ isLabel_of_mem he') hu

/-! ## 3. The end of the source -/

/-- Names are reported as undefined. From now on labels may be given up for another reason than a cycle. -/
theorem close (h : Balanced eqs l s []) (hnone : ∀ n, ¬ l.given n) (given : Name → Prop)
    {us : List (Name × Location)} (hreports : s.Reports t us) :
    Balanced eqs { l with given, undefined := l.undefined ++ us } t [] := by
  rw [hreports.state]
  refine ⟨h.entered, h.numeric, h.pending, h.held, fun e he v hv => ?_, fun n v hv => ?_, h.cyclic,
    ?_, ?_, h.unlimited, h.sections⟩
  · rcases h.values e he v hv with hmem | ⟨hgiven, -⟩ | hcompute
    · exact .inl hmem
    · exact absurd hgiven (hnone _)
    · exact .inr (.inr hcompute)
  · exact Subrelation.accessible (fun hba => ⟨hba.1, hnone _⟩) (h.grounded n v hv)
  · show (s.diagnostics ++ us.map undefinedReport).Perm _
    rw [List.map_append, ← List.append_assoc]
    exact h.diagnostics.append_right _
  · show s.reported ++ us.map Prod.fst = _
    rw [List.map_append, h.reported]

/-- A label that still has to wait at the end of the source leads astray, and is given up. -/
theorem conclude (hnodup : (eqs.map (·.label)).Nodup) (harith : ∀ e ∈ eqs, e.value.isArithmetic)
    {id? : Option Nat} {job : Job} (h : Balanced eqs l s [(id?, job)])
    (hv : Moment.Valid ⟨s, [(id?, job)], phase⟩) (hw : Moment.Watchful ⟨s, [(id?, job)], phase⟩)
    (hdone : s.Done) (hall : ∀ n, n ∈ l.entered ↔ IsLabel eqs n) (hbreaks : Breaks eqs l.cyclic)
    (hgiven : ∀ n, LeadsAstray eqs n → l.given n) : Balanced eqs l (s.conclude true job) [] := by
  obtain ⟨e, he, hjob⟩ := h.held _ List.mem_cons_self
  have hjob : job = e.job := hjob
  subst hjob
  have hexp := (hv.held _ List.mem_cons_self).expected (.symbol e.label) rfl
  cases hcompute : e.value.compute? s.number? with
  | some v =>
    rw [conclude_resolved (attempt_of_compute? h.numeric (harith e he) hcompute)]
    exact h.compute hnodup he hexp hcompute
  | none =>
    obtain ⟨waiting, hattempt, hwaiting⟩ := attempt_of_lacking h.numeric (harith e he) hcompute
    have hscope := (hv.held _ List.mem_cons_self).inScope
    obtain ⟨root, ⟨q, hq, hreach⟩, hroot⟩ :=
      hv.exists_root (attempt_ne_nil hv.wellFormed.named hscope hattempt)
    have hlacks := lacks_of_attempt hv.wellFormed.named hv.wellFormed.acyclic hattempt q hq
    -- What it lacks in the end is not itself, as no cycle is left.
    have hother : ∀ x ∈ [(id?, e.job)], x.2.task.product? ≠ some root := by
      intro x hx hkey
      rw [List.mem_singleton.mp hx] at hkey
      have hcycle := h.needs_of_circular hv he rfl (fun q hq => (hwaiting q).mp hq)
        ⟨root, hkey, q, hq, hreach⟩
      exact hbreaks _ hcycle
    obtain ⟨n, hn, -, rfl⟩ := (hwaiting q).mp hq
    obtain ⟨u, -, hpath, hu⟩ := h.undefined_of_reaches hv hw hdone hall hlacks hreach hroot hother
    have hastray : LeadsAstray eqs e.label := by
      refine ⟨u, .head' ⟨e, he, rfl, hn⟩ ?_, hu⟩
      exact Relation.ReflTransGen.mono (fun _ _ hneeds => hneeds.1) _ _ hpath
    rw [conclude_explained hattempt]
    have hgains := gains_establish hexp 0 (.refl s) (.refl s)
    refine h.gain hgains (number?_of_expects hexp) (.inl rfl) (fun e' he' heq => ?_)
      (.inr (.inl (hgiven _ hastray))) ?_
    · exact .inr (.inl ⟨hgiven _ hastray, rfl⟩)
    · show (s.establish e.job.task.fallback).diagnostics.Perm _
      rw [diagnostics_establish]
      exact h.diagnostics

end Balanced

/-- Whether all work that is pending or at hand has numbers from a list. -/
structure Moment.Among (m : Moment) (ids : List Nat) : Prop where
  pending : ∀ id p, m.state.pendings.get? id = some p → id ∈ ids
  held : ∀ x ∈ m.hand, ∃ id ∈ ids, x.1 = some id

namespace Moment

variable {ids : List Nat} {m m' : Moment}

theorem Among.take {s : Assembly} {hand : List (Option Nat × Job)} {phase : Phase}
    (h : Among ⟨s, hand, phase⟩ ids) {id : Nat} {p : Pending Job} {u : PendingTable Job}
    (ht : s.pendings.take? id = some (p, u)) {worklist : List Nat} :
    Among ⟨{ s with worklist, pendings := u }, (some id, p.work) :: hand, phase⟩ ids := by
  refine ⟨fun j q hq => ?_, fun x hx => ?_⟩
  · have hq : u.get? j = some q := hq
    rw [PendingTable.get?_take ht] at hq
    split at hq
    · cases hq
    · exact h.pending j q hq
  · rcases List.mem_cons.mp hx with rfl | hx
    · exact ⟨id, h.pending id p (PendingTable.take?_eq_some ht), rfl⟩
    · exact h.held x hx

/-- A cascade does not number any work. -/
theorem Among.cascade (h : m.Among ids) (hstep : Cascade m m') : m'.Among ids := by
  cases hstep with
  | @settle s hand id? job phase =>
    obtain ⟨id, hid, hsome⟩ := h.held _ List.mem_cons_self
    have hsome : id? = some id := hsome
    refine ⟨fun j p hp => ?_, fun x hx => h.held x (List.mem_cons_of_mem _ hx)⟩
    have hp : (s.settle id? job).pendings.get? j = some p := hp
    rcases settle_outcome s id? job with hdoes | ⟨waiting, -, -, heq⟩
    · rw [hdoes.pendings] at hp
      exact h.pending j p hp
    · rw [heq, get?_postpone, hsome] at hp
      split at hp
      · rename_i hj
        rw [hj]
        exact hid
      · exact h.pending j p hp
  | pick _ ht => exact h.take ht
  | skip | stall | resume => exact ⟨h.pending, h.held⟩

theorem Among.run (h : m.Among ids) (hrun : Run Cascade m m') : m'.Among ids :=
  hrun.keeps (P := fun x => x.Among ids) (fun _ _ hstep hx => hx.cascade hstep) h

end Moment

namespace Balanced

variable {eqs : List Equation} {l : Ledger} {s : Assembly} {settings : Settings}

/-- Names are reported as undefined for all that is pending. -/
theorem explainAll (hnodup : (eqs.map (·.label)).Nodup) {entered c : List Name}
    (h : Balanced eqs { entered, cyclic := c } s [])
    (hreach : Moment.Reachable settings ⟨s, [], .closing⟩) (hdone : s.Done)
    (hall : ∀ n, n ∈ entered ↔ IsLabel eqs n) :
    ∃ us, Balanced eqs { entered, cyclic := c, given := LeadsAstray eqs, undefined := us }
        s.explainAll.2 [] ∧ (us.map Prod.fst).Nodup ∧
      (∀ n, n ∈ us.map Prod.fst ↔
        ¬ IsLabel eqs n ∧ ∃ e ∈ eqs, e.label ∉ c ∧ n ∈ e.value.symbolTerms) ∧
      Moment.Among ⟨s.explainAll.2, [], .closing⟩ s.explainAll.1 := by
  obtain ⟨hids, us, hreports, hreported⟩ := exists_reports_explainAll h.unlimited fun id p hp => by
    obtain ⟨e, -, hwork, -⟩ := h.pending id p hp
    have hmisses := h.misses_of_pending hreach.valid hreach.watchful hdone hall hp
    exact ⟨by rw [hwork]; rfl, hmisses.1⟩
  have hbal : Balanced eqs { entered, cyclic := c, given := LeadsAstray eqs, undefined := us }
      s.explainAll.2 [] := h.close (fun _ => id) (LeadsAstray eqs) hreports
  have hsame : s.explainAll.2.reported = us.map Prod.fst := hbal.reported
  have hnone : s.reported = [] := h.reported
  -- What is noted is what has been reported now, since nothing was before.
  refine ⟨us, hbal, ?_, fun n => ?_, fun id p hp => ?_, fun _ hx => ?_⟩
  · rw [← hsame]
    refine hreports.nodup ?_
    rw [hnone]
    exact List.nodup_nil
  · rw [← hsame, hreported, hnone, or_iff_right List.not_mem_nil]
    exact h.misses_iff hnodup hreach.valid hreach.watchful hdone hall (fun _ => id) n
  · have hp : s.explainAll.2.pendings.get? id = some p := hp
    rw [hreports.pendings] at hp
    exact hids id p hp
  · exact absurd hx List.not_mem_nil

/-- What is left is done or given up, one after the other. -/
theorem concludeAll (hnodup : (eqs.map (·.label)).Nodup) (harith : ∀ e ∈ eqs, e.value.isArithmetic)
    (hall : ∀ n, n ∈ l.entered ↔ IsLabel eqs n) (hbreaks : Breaks eqs l.cyclic)
    (hgiven : ∀ n, LeadsAstray eqs n → l.given n) (explained : List Nat) (s : Assembly)
    (hreach : Moment.Reachable settings ⟨s, [], .closing⟩) (h : Balanced eqs l s [])
    (hdone : s.Done) (hamong : Moment.Among ⟨s, [], .closing⟩ explained)
    (hex : explained ≠ [] → s.diagnostics ≠ []) : Balanced eqs l (s.concludeAll explained) [] := by
  fun_induction Assembly.concludeAll s explained with
  | case1 | case2 => exact h
  | case3 s id hfirst p pendings htaken ih =>
    have hp := PendingTable.take?_eq_some htaken
    have hid := hamong.pending id p hp
    have hchoose : Ending ⟨s, [], .closing⟩ ⟨{ s with pendings }, [(some id, p.work)], .closing⟩ :=
      .choose htaken
    have hmiddle : Moment.Reachable settings ⟨{ s with pendings }, [(some id, p.work)], .closing⟩ :=
      hreach.tail (.ending hchoose)
    have hconclude : Ending ⟨{ s with pendings }, [(some id, p.work)], .closing⟩
        ⟨({ s with pendings } : Assembly).conclude true p.work, [], .closing⟩ :=
      .conclude true (PendingTable.product?_of_first? hfirst hp) hdone.1 hdone.2 fun _ =>
        hex (List.ne_nil_of_mem hid)
    have hafter : Moment.Reachable settings
        ⟨({ s with pendings } : Assembly).conclude true p.work, [], .closing⟩ :=
      hmiddle.tail (.ending hconclude)
    have hcascade := @run_drainAll .closing
      (({ s with pendings } : Assembly).conclude true p.work)
    -- The job is taken out of the table, then it is done, and then the cascade goes on.
    have htake : Balanced eqs l { s with pendings } [(some id, p.work)] := h.take htaken
    have hdid := htake.conclude hnodup harith hmiddle.valid hmiddle.watchful hdone hall hbreaks hgiven
    obtain ⟨c, hc, hbal⟩ := hdid.run hnodup harith hafter.valid hcascade
    rw [hc hbreaks] at hbal
    have hids : Moment.Among
        ⟨({ s with pendings } : Assembly).conclude true p.work, [], .closing⟩ explained := by
      refine ⟨fun j q hq => ?_, fun _ hx => absurd hx List.not_mem_nil⟩
      have hq : (({ s with pendings } : Assembly).conclude true p.work).pendings.get? j = some q := hq
      rw [pendings_conclude] at hq
      exact (hamong.take htaken).pending j q hq
    rw [show decide (id ∈ explained) = true from decide_eq_true hid] at ih ⊢
    refine ih (Run.trans hafter (hcascade.imp fun _ _ => .cascade)) hbal (drainAll_done _)
      (hids.run hcascade) fun hne => ?_
    obtain ⟨more, hmore⟩ := ((Run.single (.ending hchoose)).trans
      ((Run.single (.ending hconclude)).trans (hcascade.imp fun _ _ => .cascade))).grows.diagnostics
    rw [← hmore]
    exact List.append_ne_nil_of_left_ne_nil (hex hne) _

end Balanced

end Assembler
