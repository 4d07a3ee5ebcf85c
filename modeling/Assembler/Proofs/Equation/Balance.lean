import Assembler.Proofs.Completion
import Assembler.Proofs.Equation.Arithmetic
import Assembler.Proofs.Explanation
import Mathlib.Data.List.Nodup
/-!
What holds while equations are carried out.

A ledger keeps account of the labels: which have been entered, which have been given up because they would
need themselves, and which may be given up for another reason. Apart from these, every label that has a
value has that of its expression, and what its value was computed from never leads back to it (`Balanced`).
Every step of a cascade keeps this, with perhaps one more label given up, on a cycle of references that
was not broken so far (`Balanced.cascade`); so does carrying out an equation (`Balanced.process`).
-/

namespace Assembler

open Assembly

/-! ## 1. References -/

namespace Equation

variable {eqs : List Equation} {c : List Name} {n m : Name}

def IsLabel (eqs : List Equation) (n : Name) : Prop := n ∈ eqs.map (·.label)

/-- Whether the expression for `n` contains the name `m`. -/
def Refers (eqs : List Equation) (n m : Name) : Prop :=
  ∃ e ∈ eqs, e.label = n ∧ m ∈ e.value.symbolTerms

/-- References of labels that are not given up. -/
def Needs (eqs : List Equation) (c : List Name) (n m : Name) : Prop := Refers eqs n m ∧ n ∉ c

/-- Whether every cycle of references passes a label that is given up. -/
def Breaks (eqs : List Equation) (c : List Name) : Prop :=
  ∀ n, ¬ Relation.TransGen (Needs eqs c) n n

/-- The report of a label that would need itself. -/
def cyclicReport (e : Equation) : Diagnostic := .ofFault .cyclic e.location

theorem refers_of_needs (h : Relation.TransGen (Needs eqs c) n m) :
    Relation.TransGen (Refers eqs) n m := Relation.TransGen.mono (fun _ _ hneeds => hneeds.1) _ _ h

theorem eq_of_label (hnodup : (eqs.map (·.label)).Nodup) {e e' : Equation} (he : e ∈ eqs)
    (he' : e' ∈ eqs) (h : e.label = e'.label) : e = e' :=
  List.inj_on_of_nodup_map hnodup he he' h

/-- Giving up one more label adds its equation to those that are given up. -/
theorem perm_filter_cons (hnodup : (eqs.map (·.label)).Nodup) {e : Equation} (he : e ∈ eqs)
    (hno : e.label ∉ c) :
    (eqs.filter (·.label ∈ e.label :: c)).Perm (e :: eqs.filter (·.label ∈ c)) := by
  induction eqs with
  | nil => cases he
  | cons a rest ih =>
    rw [List.map_cons, List.nodup_cons] at hnodup
    rcases List.mem_cons.mp he with rfl | hrest
    · -- No other equation has this label.
      have hsame : rest.filter (·.label ∈ e.label :: c) = rest.filter (·.label ∈ c) := by
        apply List.filter_congr
        intro b hb
        have hne : b.label ≠ e.label := fun heq => hnodup.1 (heq ▸ List.mem_map_of_mem hb)
        simp [hne]
      rw [List.filter_cons_of_pos (by simp), List.filter_cons_of_neg (by simpa using hno), hsame]
    · have hne : a.label ≠ e.label := fun heq => hnodup.1 (heq ▸ List.mem_map_of_mem hrest)
      have hrest := ih hnodup.2 hrest
      by_cases ha : a.label ∈ c
      · rw [List.filter_cons_of_pos (by simp [ha]), List.filter_cons_of_pos (by simp [ha])]
        exact (hrest.cons a).trans (.swap e a _)
      · rw [List.filter_cons_of_neg (by simp [ha, hne]), List.filter_cons_of_neg (by simp [ha])]
        exact hrest

end Equation

/-! ## 2. The ledger -/

/-- What has happened to the labels of a program so far. -/
structure Ledger where
  entered : List Name := []
  /-- The labels that are given up, because they would need themselves. -/
  cyclic : List Name := []
  /-- The labels that may be given up otherwise. -/
  given : Name → Prop := fun _ => False
  /-- The names that are reported as undefined, each with the place of the report. -/
  undefined : List (Name × Location) := []

open Equation

/-- Whether a job is that of an equation and waits for names in it, for all of these that have no value. -/
def Awaits (eqs : List Equation) (s : Assembly) (job : Job) (waiting : List Prerequisite) : Prop :=
  ∃ e ∈ eqs, job = e.job ∧ (∀ q ∈ waiting, ∃ n ∈ e.value.symbolTerms, q = .symbol n) ∧
    ∀ q, s.Wants e.value q → q ∈ waiting

/-- With further values a job still waits for enough. -/
theorem Awaits.mono {eqs : List Equation} {s t : Assembly} {job : Job} {waiting : List Prerequisite}
    (h : Awaits eqs s job waiting) (hmono : ∀ n k, s.number? n = some k → t.number? n = some k) :
    Awaits eqs t job waiting := by
  obtain ⟨e, he, hjob, hnames, hwants⟩ := h
  exact ⟨e, he, hjob, hnames, fun q hq => hwants q (Wants.of_mono hq hmono)⟩

/-- If more labels are given up, what leads to a name is at most what it was. -/
theorem acc_needs_of_subset {eqs : List Equation} {cyclic cyclic' : List Name} {given : Name → Prop}
    (hsub : ∀ m ∈ cyclic, m ∈ cyclic') {n : Name} (h : Acc (fun b a => Needs eqs cyclic a b ∧ ¬ given a) n) :
    Acc (fun b a => Needs eqs cyclic' a b ∧ ¬ given a) n :=
  Subrelation.accessible (fun hba => ⟨⟨hba.1.1, fun hmem => hba.1.2 (hsub _ hmem)⟩, hba.2⟩) h

/-- How the labels have come by their values, and what the others wait for. -/
structure Balanced (eqs : List Equation) (l : Ledger) (s : Assembly)
    (hand : List (Option Nat × Job)) : Prop where
  entered : ∀ n, (s.symbols.get? n).isSome ↔ n ∈ l.entered
  numeric : s.Numeric
  /-- Pending equations wait for names of theirs, and for all of these that have no value. -/
  pending : ∀ id p, s.pendings.get? id = some p → ∃ e ∈ eqs, p.work = e.job ∧
    (∀ q ∈ p.waiting, ∃ n ∈ e.value.symbolTerms, q = .symbol n) ∧
      ∀ q, s.Wants e.value q → q ∈ p.waiting
  held : ∀ x ∈ hand, ∃ e ∈ eqs, x.2 = e.job
  values : ∀ e ∈ eqs, ∀ v, s.number? e.label = some v → e.label ∈ l.cyclic ∨
    (l.given e.label ∧ v = 0) ∨ e.value.compute? s.number? = some v
  /-- What a value was computed from does not lead back to it. -/
  grounded : ∀ n v, s.number? n = some v → Acc (fun b a => Needs eqs l.cyclic a b ∧ ¬ l.given a) n
  cyclic : ∀ n ∈ l.cyclic, s.number? n = some 0 ∧ Relation.TransGen (Refers eqs) n n
  diagnostics : s.diagnostics.Perm
    ((eqs.filter (·.label ∈ l.cyclic)).map cyclicReport ++ l.undefined.map undefinedReport)
  reported : s.reported = l.undefined.map Prod.fst
  unlimited : s.settings.maxDiagnostics = 0
  sections : s.layout.sections = []

variable {eqs : List Equation} {l : Ledger} {s t : Assembly} {hand : List (Option Nat × Job)}
  {phase : Phase}

theorem get?_symbols_new (settings : Settings) (n : Name) : (Assembly.new settings).symbols.get? n = none :=
  SymbolTable.get?_empty n

theorem number?_new (settings : Settings) (n : Name) : (Assembly.new settings).number? n = none := by
  rw [number?, get?_symbols_new]
  rfl

/-- With nothing read there is nothing to account for. -/
theorem balanced_new {settings : Settings} (h : settings.maxDiagnostics = 0) :
    Balanced eqs {} (Assembly.new settings) [] where
  entered n := by
    rw [get?_symbols_new]
    simp
  numeric n v hv := by
    rw [get?_symbols_new] at hv
    cases hv
  pending id p hp := nomatch (PendingTable.get?_clear {} id).symm.trans hp
  held _ hx := absurd hx List.not_mem_nil
  values e _ v hv := nomatch (number?_new settings e.label).symm.trans hv
  grounded n v hv := nomatch (number?_new settings n).symm.trans hv
  cyclic _ hn := absurd hn List.not_mem_nil
  diagnostics := by simp [Assembly.new]
  reported := rfl
  unlimited := h
  sections := rfl

/-! ## 3. Values -/

/-- Whether the only difference in values is that `n` has been given the number `v`. -/
structure Gains (s t : Assembly) (n : Name) (v : Int32) : Prop where
  number? : ∀ m, t.number? m = if m = n then some v else s.number? m
  contains : ∀ m, (t.symbols.get? m).isSome ↔ (s.symbols.get? m).isSome
  numeric : s.Numeric → t.Numeric
  pendings : t.pendings = s.pendings
  steady : s.Steady t

theorem number?_of_expects {n : Name} (h : s.Expects (.symbol n)) : s.number? n = none := by
  obtain ⟨sym, hsym, hv⟩ := h
  rw [number?, hsym]
  simp [hv]

theorem gains_establish {n : Name} (h : s.Expects (.symbol n)) (v : Int32) (ha : s.Alike t)
    (hsteady : s.Steady t) : Gains s (t.establish (.value n (.absolute v))) n v := by
  obtain ⟨sym, hsym, hv⟩ := (ha.expects (.symbol n)).mpr h
  have hdefine := define?_value (v := .absolute v) hsym hv
  have hget := SymbolTable.get?_insert t.symbols n
  have hsymbols : (t.establish (.value n (.absolute v))).symbols =
      ⟨t.symbols.entries.insert n { sym with value? := some (.absolute v) }⟩ := by
    rw [Assembly.establish, hdefine]
    rfl
  -- A report in between leaves the symbols alone, so only the value of this name is new.
  have hvalue : ∀ m, ((t.establish (.value n (.absolute v))).symbols.get? m).bind (·.value?) =
      if m = n then some (.absolute v) else (s.symbols.get? m).bind (·.value?) := by
    intro m
    rw [hsymbols, hget, ha.symbols]
    split <;> rfl
  refine ⟨fun m => ?_, fun m => ?_, fun hnum m w hw => ?_,
    (pendings_establish t _).1.trans ha.pendings, hsteady.trans (steady_establish t _)⟩
  · rw [Assembly.number?, hvalue]
    by_cases hm : m = n
    · rw [if_pos hm, if_pos hm]
    · rw [if_neg hm, if_neg hm]
      rfl
  · rw [hsymbols, hget, ha.symbols]
    split
    · rename_i hm
      rw [hm, ← ha.symbols, hsym]
      simp
    · rfl
  · rw [hvalue] at hw
    split at hw
    · exact ⟨v, (Option.some.inj hw).symm⟩
    · exact hnum m w hw

/-- A value is only added. -/
theorem Gains.number?_mono {n : Name} {v : Int32} (h : Gains s t n v) (hnone : s.number? n = none)
    (m : Name) (k : Int32) (hk : s.number? m = some k) : t.number? m = some k := by
  rw [h.number?, if_neg]
  · exact hk
  · rintro rfl
    rw [hnone] at hk
    cases hk

namespace Balanced

/-- A label without a value has not been given up. -/
theorem not_mem_cyclic (h : Balanced eqs l s hand) {n : Name} (hnone : s.number? n = none) :
    n ∉ l.cyclic := by
  intro hmem
  rw [(h.cyclic n hmem).1] at hnone
  cases hnone

/-- A label gets a value: its own, or zero if it is given up. -/
theorem gain {x : Option Nat × Job} (h : Balanced eqs l s (x :: hand)) {n : Name} {v : Int32}
    (hg : Gains s t n v) (hnone : s.number? n = none) {c : List Name}
    (hc : c = l.cyclic ∨ c = n :: l.cyclic ∧ v = 0 ∧ Relation.TransGen (Refers eqs) n n)
    (hvalue : ∀ e ∈ eqs, e.label = n → n ∈ c ∨ (l.given n ∧ v = 0) ∨
      e.value.compute? s.number? = some v)
    (hacc : n ∈ c ∨ l.given n ∨ ∀ m, Refers eqs n m → ∃ k, s.number? m = some k)
    (hdiag : t.diagnostics.Perm
      ((eqs.filter (·.label ∈ c)).map cyclicReport ++ l.undefined.map undefinedReport)) :
    Balanced eqs { l with cyclic := c } t hand := by
  have hsub : ∀ m ∈ l.cyclic, m ∈ c := by
    intro m hm
    rcases hc with rfl | ⟨rfl, -⟩
    · exact hm
    · exact List.mem_cons_of_mem _ hm
  have hmono := hg.number?_mono hnone
  exact {
    entered := fun m => (hg.contains m).trans (h.entered m)
    numeric := hg.numeric h.numeric
    pending := fun id p hp => by
      rw [hg.pendings] at hp
      exact Awaits.mono (h.pending id p hp) hmono
    held := fun y hy => h.held y (List.mem_cons_of_mem _ hy)
    values := fun e he w hw => by
      rw [hg.number?] at hw
      split at hw
      · rename_i heq
        cases hw
        rw [heq]
        exact (hvalue e he heq).imp_right (.imp_right fun hv => Expr.compute?_mono hv hmono)
      · exact (h.values e he w hw).imp (hsub _)
          (.imp_right fun hv => Expr.compute?_mono hv hmono)
    grounded := fun m w hw => by
      rw [hg.number?] at hw
      split at hw
      · rename_i heq
        rw [heq]
        -- A label that is given up leads nowhere, and the names in the value of another are grounded already.
        refine ⟨_, fun b hb => ?_⟩
        rcases hacc with hmem | hgiven | hall
        · exact absurd hmem hb.1.2
        · exact absurd hgiven hb.2
        · obtain ⟨k, hk⟩ := hall b hb.1.1
          exact acc_needs_of_subset hsub (h.grounded b k hk)
      · exact acc_needs_of_subset hsub (h.grounded m w hw)
    cyclic := fun m hm => by
      have old : ∀ m ∈ l.cyclic, t.number? m = some 0 ∧ Relation.TransGen (Refers eqs) m m :=
        fun m hm => ⟨hmono m 0 (h.cyclic m hm).1, (h.cyclic m hm).2⟩
      rcases hc with rfl | ⟨rfl, rfl, hcycle⟩
      · exact old m hm
      · rcases List.mem_cons.mp hm with rfl | hm
        · exact ⟨by rw [hg.number?, if_pos rfl], hcycle⟩
        · exact old m hm
    diagnostics := hdiag
    reported := hg.steady.reported.trans h.reported
    unlimited := by
      rw [hg.steady.settings]
      exact h.unlimited
    sections := hg.steady.layout.1.trans h.sections }

/-! ## 4. Waiting -/

/-- The names that lead from one to the other along waiting lists refer to each other. -/
theorem needs_of_reaches (h : Balanced eqs l s hand) (hv : Moment.Valid ⟨s, hand, phase⟩)
    {p q : Prerequisite} (hr : s.pendings.Reaches p q) :
    ∀ n, p = .symbol n → ∃ m, q = .symbol m ∧ Relation.ReflTransGen (Needs eqs l.cyclic) n m := by
  induction hr with
  | refl p => exact fun n hn => ⟨n, hn, .refl⟩
  | @step p q r hwaits _ ih =>
    rintro n rfl
    obtain ⟨waiting, hwaiting, hq⟩ := hwaits
    obtain ⟨id, w, hw, hkey, rfl⟩ := hv.indexed.waitingOf?_eq_some.mp hwaiting
    obtain ⟨e, he, hwork, hnames, -⟩ := h.pending id w hw
    have hkey : w.work.task.product? = some (.symbol n) := hkey
    have hlabel : e.label = n := by
      rw [hwork] at hkey
      exact Prerequisite.symbol.inj (Option.some.inj hkey)
    have hnone := number?_of_expects ((hv.entries id w hw).expected _ hkey)
    obtain ⟨b, hb, rfl⟩ := hnames q hq
    obtain ⟨m, rfl, hpath⟩ := ih b rfl
    exact ⟨m, rfl, .head ⟨⟨e, he, hlabel, hb⟩, h.not_mem_cyclic hnone⟩ hpath⟩

/-- Work that would wait for its own product is on a cycle of references that is not broken. -/
theorem needs_of_circular {x : Option Nat × Job} (h : Balanced eqs l s (x :: hand))
    (hv : Moment.Valid ⟨s, x :: hand, phase⟩) {e : Equation} (he : e ∈ eqs) (hx : x.2 = e.job)
    {waiting : List Prerequisite} (hwaiting : ∀ q ∈ waiting, s.Wants e.value q)
    (hcircular : s.Circular x.2 waiting) :
    Relation.TransGen (Needs eqs l.cyclic) e.label e.label := by
  obtain ⟨key, hkey, p, hp, hreach⟩ := hcircular
  have hexp := (hv.held x List.mem_cons_self).expected key hkey
  rw [hx] at hkey
  cases hkey
  have hfree := h.not_mem_cyclic (number?_of_expects hexp)
  obtain ⟨n, hn, -, rfl⟩ := hwaiting p hp
  obtain ⟨m, hm, hpath⟩ := h.needs_of_reaches hv hreach n rfl
  cases hm
  exact .head' ⟨⟨e, he, rfl, hn⟩, hfree⟩ hpath

/-! ## 5. Steps -/

theorem attempt_of_compute? {e : Equation} (hs : s.Numeric) (he : e.value.isArithmetic) {v : Int32}
    (h : e.value.compute? s.number? = some v) :
    s.attempt e.job = .resolved (.value e.label (.absolute v)) := by
  have heval := evaluate_of_compute? (f := e.statement.frame) hs he h
  show (s.evaluate e.value e.statement.frame).map (Definition.value e.label) = _
  rw [heval]
  rfl

theorem attempt_of_lacking {e : Equation} (hs : s.Numeric) (he : e.value.isArithmetic)
    (h : e.value.compute? s.number? = none) :
    ∃ waiting, s.attempt e.job = .blocked waiting ∧ ∀ q, q ∈ waiting ↔ s.Wants e.value q := by
  obtain ⟨waiting, heval, hmem⟩ := evaluate_of_lacking (f := e.statement.frame) hs he h
  refine ⟨waiting, ?_, hmem⟩
  show (s.evaluate e.value e.statement.frame).map (Definition.value e.label) = _
  rw [heval]
  rfl

/-- Changes that concern neither values nor reports. -/
theorem same {hand' : List (Option Nat × Job)} {entered : List Name} (h : Balanced eqs l s hand)
    (hentered : ∀ n, (t.symbols.get? n).isSome ↔ n ∈ entered)
    (hvalue : ∀ n, (t.symbols.get? n).bind (·.value?) = (s.symbols.get? n).bind (·.value?))
    (hdiagnostics : t.diagnostics = s.diagnostics)
    (hsteady : s.Steady t)
    (hpending : ∀ id p, t.pendings.get? id = some p → Awaits eqs s p.work p.waiting)
    (hheld : ∀ x ∈ hand', ∃ e ∈ eqs, x.2 = e.job) :
    Balanced eqs { l with entered } t hand' := by
  have hnumber : t.number? = s.number? := by
    funext n
    rw [number?, hvalue]
    rfl
  exact {
    entered := hentered
    numeric := fun n v hv => h.numeric n v (hvalue n ▸ hv)
    pending := fun id p hp => (hpending id p hp).mono fun n k hk => hnumber ▸ hk
    held := hheld
    values := by
      rw [hnumber]
      exact h.values
    grounded := by
      rw [hnumber]
      exact h.grounded
    cyclic := by
      rw [hnumber]
      exact h.cyclic
    diagnostics := by
      rw [hdiagnostics]
      exact h.diagnostics
    reported := hsteady.reported.trans h.reported
    unlimited := by
      rw [hsteady.settings]
      exact h.unlimited
    sections := hsteady.layout.1.trans h.sections }

/-- Other work is pending, at hand or tried next. -/
theorem requeue {hand' : List (Option Nat × Job)} (h : Balanced eqs l s hand)
    {worklist stalled : List Nat} {u : PendingTable Job}
    (hpending : ∀ id p, u.get? id = some p → Awaits eqs s p.work p.waiting)
    (hheld : ∀ x ∈ hand', ∃ e ∈ eqs, x.2 = e.job) :
    Balanced eqs l { s with worklist, stalled, pendings := u } hand' :=
  h.same h.entered (fun _ => rfl) rfl (s.steady_queue _ _ _ _) hpending hheld

/-- Pending work is taken up. -/
theorem take (h : Balanced eqs l s hand) {id : Nat} {p : Pending Job} {u : PendingTable Job}
    (ht : s.pendings.take? id = some (p, u)) {worklist : List Nat} :
    Balanced eqs l { s with worklist, pendings := u } ((some id, p.work) :: hand) := by
  refine h.requeue (fun j q hq => ?_) fun x hx => ?_
  · rw [PendingTable.get?_take ht] at hq
    split at hq
    · cases hq
    · exact h.pending j q hq
  · rcases List.mem_cons.mp hx with rfl | hx
    · obtain ⟨e, he, hwork, -⟩ := h.pending id p (PendingTable.take?_eq_some ht)
      exact ⟨e, he, hwork⟩
    · exact h.held x hx

/-- An equation is put aside. -/
theorem postpone {id? : Option Nat} {job : Job} {waiting : List Prerequisite}
    (h : Balanced eqs l s ((id?, job) :: hand)) (hwaits : Awaits eqs s job waiting) :
    Balanced eqs l (s.postpone id? job waiting) hand := by
  have hpending : ∀ j p, (s.postpone id? job waiting).pendings.get? j = some p →
      Awaits eqs s p.work p.waiting := by
    intro j p hp
    rw [get?_postpone] at hp
    split at hp
    · cases hp
      exact hwaits
    · exact h.pending j p hp
  have hheld : ∀ x ∈ hand, ∃ e ∈ eqs, x.2 = e.job := fun x hx => h.held x (List.mem_cons_of_mem _ hx)
  cases id? with
  | none => exact h.requeue hpending hheld
  | some id => exact h.requeue hpending hheld

/-- The label of an equation that can be computed gets its value. -/
theorem compute (hnodup : (eqs.map (·.label)).Nodup) {x : Option Nat × Job}
    (h : Balanced eqs l s (x :: hand)) {e : Equation} (he : e ∈ eqs)
    (hexp : s.Expects (.symbol e.label)) {v : Int32} (hv : e.value.compute? s.number? = some v) :
    Balanced eqs l (s.establish (.value e.label (.absolute v))) hand := by
  have hunique : ∀ e' ∈ eqs, e'.label = e.label → e' = e := fun e' he' heq =>
    eq_of_label hnodup he' he heq
  have hgains := gains_establish hexp v (.refl s) (.refl s)
  refine h.gain hgains (number?_of_expects hexp) (.inl rfl) (fun e' he' heq => ?_) (.inr (.inr ?_)) ?_
  · rw [hunique e' he' heq]
    exact .inr (.inr hv)
  · rintro m ⟨e', he', heq, hm⟩
    rw [hunique e' he' heq] at hm
    exact Expr.exists_of_compute? hv m hm
  · rw [diagnostics_establish]
    exact h.diagnostics

/-- An equation at hand is done or put aside, or its label is given up. -/
theorem settle (hnodup : (eqs.map (·.label)).Nodup) (harith : ∀ e ∈ eqs, e.value.isArithmetic)
    {id? : Option Nat} {job : Job} (h : Balanced eqs l s ((id?, job) :: hand))
    (hv : Moment.Valid ⟨s, (id?, job) :: hand, phase⟩) :
    ∃ c, (Breaks eqs l.cyclic → c = l.cyclic) ∧
      Balanced eqs { l with cyclic := c } (s.settle id? job) hand := by
  obtain ⟨e, he, hjob⟩ := h.held _ List.mem_cons_self
  have hjob : job = e.job := hjob
  subst hjob
  have hexp := (hv.held _ List.mem_cons_self).expected (.symbol e.label) rfl
  have hnone := number?_of_expects hexp
  cases hcompute : e.value.compute? s.number? with
  | some v =>
    rw [settle_resolved (attempt_of_compute? h.numeric (harith e he) hcompute)]
    exact ⟨l.cyclic, fun _ => rfl, h.compute hnodup he hexp hcompute⟩
  | none =>
    obtain ⟨waiting, hattempt, hwaiting⟩ := attempt_of_lacking h.numeric (harith e he) hcompute
    by_cases hcyclic : s.isCyclic e.job waiting
    · -- The label would need itself, and is given up.
      rw [settle_cyclic hattempt hcyclic]
      have hcycle := h.needs_of_circular hv he rfl (fun q hq => (hwaiting q).mp hq)
        (isCyclic_iff.mp hcyclic)
      refine ⟨e.label :: l.cyclic, fun hbreaks => absurd hcycle (hbreaks _), ?_⟩
      have hgains := gains_establish hexp 0 (s.alike_report .cyclic e.location)
        (s.steady_addDiagnostic _)
      refine h.gain hgains hnone (.inr ⟨rfl, rfl, refers_of_needs hcycle⟩)
        (fun _ _ _ => .inl List.mem_cons_self) (.inl List.mem_cons_self) ?_
      rw [diagnostics_establish, diagnostics_report h.unlimited]
      have hfilter := (perm_filter_cons hnodup he (h.not_mem_cyclic hnone)).map cyclicReport
      refine .trans ?_ (hfilter.symm.append_right _)
      exact (List.perm_append_singleton _ _).trans (h.diagnostics.cons _)
    · -- The equation waits.
      rw [settle_postponed hattempt (Bool.eq_false_iff.mpr hcyclic)]
      have hwaits : Awaits eqs s e.job waiting := by
        refine ⟨e, he, rfl, fun q hq => ?_, fun q hq => (hwaiting q).mpr hq⟩
        obtain ⟨n, hn, -, rfl⟩ := (hwaiting q).mp hq
        exact ⟨n, hn, rfl⟩
      exact ⟨l.cyclic, fun _ => rfl, h.postpone hwaits⟩

/-- A step of a cascade. At most one label is given up, and none if all cycles are broken already. -/
theorem cascade (hnodup : (eqs.map (·.label)).Nodup) (harith : ∀ e ∈ eqs, e.value.isArithmetic)
    {m m' : Moment} (h : Balanced eqs l m.state m.hand) (hv : m.Valid) (hstep : Cascade m m') :
    ∃ c, (Breaks eqs l.cyclic → c = l.cyclic) ∧
      Balanced eqs { l with cyclic := c } m'.state m'.hand := by
  cases hstep with
  | settle => exact h.settle hnodup harith hv
  | pick _ ht => exact ⟨l.cyclic, fun _ => rfl, h.take ht⟩
  | skip | stall | resume => exact ⟨l.cyclic, fun _ => rfl, h.requeue h.pending h.held⟩

/-- A cascade. -/
theorem run (hnodup : (eqs.map (·.label)).Nodup) (harith : ∀ e ∈ eqs, e.value.isArithmetic)
    {m m' : Moment} (h : Balanced eqs l m.state m.hand) (hv : m.Valid) (hrun : Run Cascade m m') :
    ∃ c, (Breaks eqs l.cyclic → c = l.cyclic) ∧
      Balanced eqs { l with cyclic := c } m'.state m'.hand := by
  have hboth : m'.Valid ∧ ∃ c, (Breaks eqs l.cyclic → c = l.cyclic) ∧
      Balanced eqs { l with cyclic := c } m'.state m'.hand := by
    refine hrun.keeps (P := fun x => x.Valid ∧ ∃ c, (Breaks eqs l.cyclic → c = l.cyclic) ∧
      Balanced eqs { l with cyclic := c } x.state x.hand) (fun a b hstep hab => ?_)
      ⟨hv, l.cyclic, fun _ => rfl, h⟩
    obtain ⟨hva, c, hc, hbal⟩ := hab
    obtain ⟨c', hc', hbal'⟩ := hbal.cascade hnodup harith hva hstep
    refine ⟨hva.step (.cascade hstep), c', fun hbreaks => ?_, hbal'⟩
    have hsame := hc hbreaks
    exact (hc' (hsame ▸ hbreaks)).trans hsame
  exact hboth.2

/-! ## 6. Statements -/

/-- A further label is entered, without a value, and its equation is at hand. -/
theorem enter (h : Balanced eqs l s []) {e : Equation} (he : e ∈ eqs) {length : Nat}
    {symbols : SymbolTable} (hcreate : s.symbols.create? (e.symbol length) = some symbols) :
    Balanced eqs { l with entered := e.label :: l.entered }
      ((provided (e.symbol length)).foldl wake { s with symbols }) [(none, e.job)] := by
  obtain ⟨hfree, hget⟩ := SymbolTable.create?_eq_some hcreate
  have hwake := alike_foldl_wake { s with symbols } (provided (e.symbol length))
  have hsteady := steady_foldl_wake { s with symbols } (provided (e.symbol length))
  have hdiag := diagnostics_foldl_wake { s with symbols } (provided (e.symbol length))
  -- Waking changes only the worklist, and a symbol without a value changes no value.
  refine h.same (fun n => ?_) (fun n => ?_) hdiag ?_ (fun id p hp => ?_) fun x hx => ?_
  · rw [hwake.symbols, hget, List.mem_cons, ← h.entered n]
    by_cases hn : n = e.label
    · rw [if_pos (show n = (e.symbol length).name from hn)]
      simp [hn]
    · rw [if_neg (show ¬ n = (e.symbol length).name from hn)]
      simp [hn]
  · rw [hwake.symbols, hget]
    split
    · rename_i hn
      rw [hn, hfree]
      rfl
    · rfl
  · have hfirst : s.Steady { s with symbols } :=
      ⟨rfl, rfl, rfl, rfl, rfl, rfl, ⟨rfl, rfl, rfl⟩, rfl⟩
    exact hfirst.trans hsteady
  · rw [hwake.pendings] at hp
    exact h.pending id p hp
  · rw [List.mem_singleton.mp hx]
    exact ⟨e, he, rfl⟩

/-- An equation for a new label is carried out. -/
theorem process (hnodup : (eqs.map (·.label)).Nodup) (harith : ∀ e ∈ eqs, e.value.isArithmetic)
    (h : Balanced eqs l s []) (hs : s.Ready) {e : Equation} (he : e ∈ eqs)
    (hnew : e.label ∉ l.entered) :
    ∃ c, Balanced eqs { l with entered := e.label :: l.entered, cyclic := c }
      (s.process e.statement) [] := by
  have hfree : s.symbols.contains e.label = false := by
    rw [SymbolTable.contains, Bool.eq_false_iff]
    exact fun hsome => hnew ((h.entered e.label).mp hsome)
  obtain ⟨symbols, hcreate⟩ : ∃ symbols,
      s.symbols.create? (e.symbol (s.impliedLength (some e.value))) = some symbols := by
    rw [SymbolTable.create?, show (e.symbol (s.impliedLength (some e.value))).name = e.label from rfl,
      hfree]
    exact ⟨_, rfl⟩
  have hsymbol : s.createSymbol? (e.symbol (s.impliedLength (some e.value))) =
      some ((provided (e.symbol (s.impliedLength (some e.value)))).foldl wake
        { s with symbols }).drain := by
    rw [createSymbol?, hcreate]
    rfl
  have hcounter := Expr.usesCounter_of_isArithmetic (harith e he)
  have hprocess := @process_equ_of_createSymbol? s _ e.statement e.label e.value rfl rfl hcounter hsymbol
  rw [hprocess]
  -- Entering the label and carrying out its job are a step and a cascade, which keep the balance.
  have hstep : Progress ⟨s, [], .reading⟩
      ⟨(provided (e.symbol (s.impliedLength (some e.value)))).foldl wake { s with symbols },
        [(none, e.job)], .reading⟩ := by
    have howed : [e.job].filterMap (·.task.product?) =
        (e.symbol (s.impliedLength (some e.value))).owed := rfl
    refine @Progress.enter s [] _ _ [e.job] hcreate (fun v hv => by cases hv) (fun job hjob => ?_)
      (howed ▸ List.Sublist.refl _) fun key hkey => .inl (howed ▸ hkey)
    rw [List.mem_singleton.mp hjob]
    exact ⟨scoped_frame e.statement _, trivial⟩
  have hdrain := @run_drain [(none, e.job)] .reading
    ((provided (e.symbol (s.impliedLength (some e.value)))).foldl wake { s with symbols })
    fun x hx => by rw [List.mem_singleton.mp hx]
  have hrun := hdrain.trans (run_resolveOrDefer _ e.job forall_mem_nil)
  obtain ⟨c, -, hc⟩ := (h.enter he hcreate).run hnodup harith (hs.valid.progress hstep) hrun
  exact ⟨c, hc⟩

/-- Equations for new labels are carried out one after another. -/
theorem processAll (hnodup : (eqs.map (·.label)).Nodup)
    (harith : ∀ e ∈ eqs, e.value.isArithmetic) (rest : List Equation) :
    ∀ (l : Ledger) (s : Assembly), Balanced eqs l s [] → s.Ready → (∀ e ∈ rest, e ∈ eqs) →
      (rest.map (·.label)).Nodup → (∀ e ∈ rest, e.label ∉ l.entered) →
      ∃ c, Balanced eqs { l with entered := (rest.map (·.label)).reverse ++ l.entered, cyclic := c }
        (rest.foldl (fun s e => s.process e.statement) s) [] := by
  induction rest with
  | nil => exact fun l s h _ _ _ _ => ⟨l.cyclic, h⟩
  | cons e rest ih =>
    intro l s h hs hrest hlabels hnew
    rw [List.map_cons, List.nodup_cons] at hlabels
    obtain ⟨c, hc⟩ := h.process hnodup harith hs (hrest e List.mem_cons_self)
      (hnew e List.mem_cons_self)
    have hready := (leads_process hs e.statement).ready hs
    obtain ⟨c', hc'⟩ := ih _ _ hc hready (fun x hx => hrest x (List.mem_cons_of_mem _ hx))
      hlabels.2 fun x hx hmem => by
        rcases List.mem_cons.mp hmem with heq | hmem
        · exact hlabels.1 (heq ▸ List.mem_map_of_mem hx)
        · exact hnew x (List.mem_cons_of_mem _ hx) hmem
    refine ⟨c', ?_⟩
    rw [List.map_cons, List.reverse_cons, List.append_assoc]
    exact hc'

end Balanced

end Assembler
