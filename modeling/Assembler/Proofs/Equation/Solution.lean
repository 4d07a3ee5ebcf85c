import Assembler.Proofs.Equation.Closing
/-!
Programs of equations.

At the end of the source every label has a number. Labels that are given up lie on cycles of references and
every cycle passes one of them; each is reported once and counts as zero. Every other label has the value
of its expression, or it counts as zero because it leads to a name that is not defined; each such name is
reported once. The values of a closed program without cycles do not depend on the order of its statements
(`Session.exists_solution`).
-/

namespace Assembler

open Assembly Equation

/-! ## 1. Whole programs -/

namespace Assembly

/-- Without sections there is nothing to be placed. -/
theorem finish_of_sections {s : Assembly} (hf : s.finished = false) (hs : s.layout.sections = []) :
    s.finish =
      let closed := { s.drainAll with finished := true }
      let u := closed.explainAll.2.concludeAll closed.explainAll.1
      { u with pendings := u.pendings.clear } := by
  have hplace : s.placeCounters = s := by
    rw [placeCounters, Layout.placements, hs]
    rfl
  rw [finish, if_neg (by rw [hf]; decide), hplace]

end Assembly

namespace Session

variable {eqs : List Equation}

/-- The state in which the end of the source leaves a program of equations. -/
def outcome (settings : Settings) (eqs : List Equation) : Assembly :=
  ((new settings).performAll (eqs.map (.process ·.statement) ++ [.finish])).assembly

theorem performAll_equations (eqs : List Equation) (s : Session) :
    (s.performAll (eqs.map (.process ·.statement))).assembly =
      eqs.foldl (fun s e => s.process e.statement) s.assembly := by
  induction eqs generalizing s with
  | nil => rfl
  | cons e rest ih => exact ih _

theorem outcome_eq (settings : Settings) (eqs : List Equation) : outcome settings eqs =
    ((new settings).performAll (eqs.map (.process ·.statement))).assembly.finish := by
  rw [outcome, performAll, List.foldl_append]
  rfl

theorem ready_equations (settings : Settings) (eqs : List Equation) :
    let s := ((new settings).performAll (eqs.map (.process ·.statement))).assembly
    s.Ready ∧ s.finished = false := by
  have hready := ready_statements settings (eqs.map (·.statement))
  rw [List.map_map] at hready
  exact hready

/-- The state in which the equations have been read, and all that was put aside has been tried again. -/
def closed (settings : Settings) (eqs : List Equation) : Assembly :=
  { ((new settings).performAll (eqs.map (.process ·.statement))).assembly.drainAll with
    finished := true }

/-- What the ledger says when the end of the source is reached. -/
theorem exists_balanced_closed (settings : Settings) (hroom : settings.maxDiagnostics = 0)
    (hnodup : (eqs.map (·.label)).Nodup) (harith : ∀ e ∈ eqs, e.value.isArithmetic) :
    ∃ entered c, Balanced eqs { entered, cyclic := c } (closed settings eqs) [] ∧
      (∀ n, n ∈ entered ↔ IsLabel eqs n) ∧ Breaks eqs c ∧ (closed settings eqs).Done ∧
      Moment.Reachable settings ⟨closed settings eqs, [], .closing⟩ := by
  have hreach := reachable_performAll settings (eqs.map (.process ·.statement))
  obtain ⟨-, hf⟩ := ready_equations settings eqs
  obtain ⟨c, h⟩ := Balanced.processAll hnodup harith eqs {} (Assembly.new settings)
    (balanced_new hroom) (ready_new settings) (fun _ he => he) hnodup fun _ _ => List.not_mem_nil
  rw [show (Assembly.new settings) = (new settings).assembly from rfl,
    ← performAll_equations eqs (new settings)] at h
  unfold closed
  generalize ((new settings).performAll (eqs.map (.process ·.statement))).assembly = s at *
  have hall : ∀ n, n ∈ (eqs.map (·.label)).reverse ++ [] ↔ IsLabel eqs n := by
    intro n
    rw [List.append_nil, List.mem_reverse]
    rfl
  -- Without sections no counter is to be placed, and the cascade comes first.
  have hplacements : s.layout.placements = [] := by
    rw [Layout.placements, h.sections]
    rfl
  have hplace := Ending.place hf
  rw [hplacements] at hplace
  have hplacing : Moment.Reachable settings ⟨s, [], .placing⟩ := Run.tail hreach (.ending hplace)
  have hdrain := @run_drainAll .placing s
  have hdrained : Moment.Reachable settings ⟨s.drainAll, [], .placing⟩ :=
    Run.trans hplacing (hdrain.imp fun _ _ => .cascade)
  obtain ⟨c', -, h'⟩ := h.run hnodup harith hplacing.valid hdrain
  have hdone := s.drainAll_done
  refine ⟨_, c', ⟨h'.entered, h'.numeric, h'.pending, h'.held, h'.values, h'.grounded, h'.cyclic,
    h'.diagnostics, h'.reported, h'.unlimited, h'.sections⟩, hall, ?_, hdone,
    Run.tail hdrained (.ending (.close hdone.1 hdone.2))⟩
  exact h'.breaks hnodup hdrained.valid (fun e he => (hall _).mpr (isLabel_of_mem he)) fun _ => id

theorem outcome_eq_closed (settings : Settings) (hs : (closed settings eqs).layout.sections = []) :
    outcome settings eqs =
      let u := (closed settings eqs).explainAll.2.concludeAll (closed settings eqs).explainAll.1
      { u with pendings := u.pendings.clear } := by
  obtain ⟨-, hf⟩ := ready_equations settings eqs
  have hsteady := (@run_drainAll .reading
    ((new settings).performAll (eqs.map (.process ·.statement))).assembly).steady
  rw [outcome_eq, finish_of_sections hf (hsteady.layout.1.symm.trans hs)]
  rfl

/-- Every label has a number at the end. -/
theorem exists_number? {settings : Settings} {l : Ledger} {u : Assembly} (h : Balanced eqs l u [])
    (hu : outcome settings eqs = { u with pendings := u.pendings.clear })
    (hall : ∀ n, n ∈ l.entered ↔ IsLabel eqs n) {e : Equation} (he : e ∈ eqs) :
    ∃ v, u.number? e.label = some v := by
  obtain ⟨hready, hf⟩ := ready_equations settings eqs
  obtain ⟨sym, hsym⟩ := Option.isSome_iff_exists.mp
    ((h.entered e.label).mpr ((hall _).mpr (isLabel_of_mem he)))
  have hfinish : ((new settings).performAll
      (eqs.map (.process ·.statement))).assembly.finish.symbols.get? e.label = some sym := by
    rw [← outcome_eq, hu]
    exact hsym
  obtain ⟨w, hw⟩ := Option.isSome_iff_exists.mp (isDefined_finish hready hf hfinish)
  have hvalue : (u.symbols.get? e.label).bind (·.value?) = some w := by
    rw [hsym]
    exact hw
  obtain ⟨v, rfl⟩ := h.numeric e.label w hvalue
  exact ⟨v, number?_eq_some.mpr hvalue⟩

/-- What the ledger says when a program of equations has come to its end. -/
theorem exists_balanced (settings : Settings) (hroom : settings.maxDiagnostics = 0)
    (hnodup : (eqs.map (·.label)).Nodup) (harith : ∀ e ∈ eqs, e.value.isArithmetic) :
    ∃ l : Ledger, Balanced eqs l (outcome settings eqs) [] ∧ (∀ n, n ∈ l.entered ↔ IsLabel eqs n) ∧
      Breaks eqs l.cyclic ∧ l.given = LeadsAstray eqs ∧ (l.undefined.map Prod.fst).Nodup ∧
      (∀ u, u ∈ l.undefined.map Prod.fst ↔
        ¬ IsLabel eqs u ∧ ∃ e ∈ eqs, e.label ∉ l.cyclic ∧ u ∈ e.value.symbolTerms) ∧
      ∀ e ∈ eqs, ∃ v, (outcome settings eqs).number? e.label = some v := by
  obtain ⟨entered, c, hclosed, hall, hbreaks, hdone, hreach⟩ :=
    exists_balanced_closed settings hroom hnodup harith
  have houtcome := outcome_eq_closed settings hclosed.sections
  generalize closed settings eqs = s at *
  -- Names are reported as undefined.
  obtain ⟨us, hbal, hunique, hundefined, hamong⟩ := hclosed.explainAll hnodup hreach hdone hall
  have hlog : s.reported ≠ [] → s.diagnostics ≠ [] := fun hne => absurd hclosed.reported hne
  obtain ⟨hexplain, hdone', hex⟩ := run_explainAll hlog hdone
  have hexplained : Moment.Reachable settings ⟨s.explainAll.2, [], .closing⟩ :=
    Run.trans hreach (hexplain.imp fun _ _ => .ending)
  -- What is left is done or given up, and dropped.
  have hconcluded := hbal.concludeAll hnodup harith hall hbreaks (fun _ => id) s.explainAll.1
    s.explainAll.2 hexplained hdone' hamong hex
  have hnumber := fun e (he : e ∈ eqs) => exists_number? hconcluded houtcome hall he
  rw [houtcome]
  refine ⟨{ entered, cyclic := c, given := LeadsAstray eqs, undefined := us },
    hconcluded.requeue (fun id p hp => ?_) hconcluded.held, hall, hbreaks, rfl, hunique, hundefined,
    hnumber⟩
  rw [PendingTable.get?_clear] at hp
  cases hp

end Session

/-! ## 2. Solutions -/

/-- What is left of a program of equations at the end of the source, when some labels have been given up
as cyclic and some names reported as undefined. -/
structure Solution (eqs : List Equation) (t : Assembly) (cyclic : List Name)
    (undefined : List (Name × Location)) : Prop where
  /-- There is one report for each label that is given up and for each undefined name, and no other. -/
  diagnostics : t.diagnostics.Perm
    ((eqs.filter (·.label ∈ cyclic)).map cyclicReport ++ undefined.map undefinedReport)
  nodup : (undefined.map Prod.fst).Nodup
  mem_undefined : ∀ u, u ∈ undefined.map Prod.fst ↔
    ¬ IsLabel eqs u ∧ ∃ e ∈ eqs, e.label ∉ cyclic ∧ u ∈ e.value.symbolTerms
  of_mem_cyclic : ∀ n ∈ cyclic,
    IsLabel eqs n ∧ Relation.TransGen (Refers eqs) n n ∧ t.number? n = some 0
  /-- Every cycle of references passes a label that is given up. -/
  breaks : Breaks eqs cyclic
  cyclic_eq_nil : cyclic = [] ↔ ∀ n, ¬ Relation.TransGen (Refers eqs) n n
  absolute : ∀ e ∈ eqs, ∃ sym v, t.symbols.get? e.label = some sym ∧ sym.value? = some (.absolute v)
  values : ∀ e ∈ eqs, e.label ∉ cyclic →
    (∃ v, t.number? e.label = some v ∧ e.value.compute? t.number? = some v) ∨
      t.number? e.label = some 0 ∧ LeadsAstray eqs e.label

namespace Equation

variable {eqs eqs' : List Equation}

theorem refers_perm (h : eqs'.Perm eqs) : Refers eqs' = Refers eqs := by
  funext n m
  exact propext (exists_congr fun _ => and_congr_left' h.mem_iff)

theorem isLabel_perm (h : eqs'.Perm eqs) (n : Name) : IsLabel eqs' n ↔ IsLabel eqs n :=
  (h.map _).mem_iff

/-- If no references go on forever, the equations have one solution. -/
theorem solution_unique {f g : Name → Option Int32}
    (hacc : ∀ n, Acc (fun b a => Refers eqs a b) n)
    (hf : ∀ e ∈ eqs, f e.label = e.value.compute? f)
    (hg : ∀ e ∈ eqs, g e.label = e.value.compute? g)
    (hother : ∀ n, ¬ IsLabel eqs n → f n = g n) (n : Name) : f n = g n := by
  induction hacc n with
  | intro n _ ih =>
    by_cases hn : IsLabel eqs n
    · obtain ⟨e, he, rfl⟩ := List.mem_map.mp hn
      rw [hf e he, hg e he]
      exact Expr.compute?_congr fun m hm => ih m ⟨e, he, rfl, hm⟩
    · exact hother n hn

end Equation

namespace Session

variable {eqs : List Equation} {settings : Settings}

/-- A closed program without cycles is solved without reports. -/
theorem solved_of_closed (hroom : settings.maxDiagnostics = 0) (hnodup : (eqs.map (·.label)).Nodup)
    (harith : ∀ e ∈ eqs, e.value.isArithmetic)
    (hacyclic : ∀ n, ¬ Relation.TransGen (Refers eqs) n n)
    (hclosed : ∀ n m, Refers eqs n m → IsLabel eqs m) :
    (outcome settings eqs).diagnostics = [] ∧ (∀ n, Acc (fun b a => Refers eqs a b) n) ∧
      (∀ e ∈ eqs, (outcome settings eqs).number? e.label =
        e.value.compute? (outcome settings eqs).number?) ∧
      ∀ n, ¬ IsLabel eqs n → (outcome settings eqs).number? n = none := by
  obtain ⟨l, h, hall, -, hgiven, -, hundefined, hvalue⟩ :=
    exists_balanced settings hroom hnodup harith
  have hcyclic : l.cyclic = [] := List.eq_nil_iff_forall_not_mem.mpr fun n hn =>
    hacyclic n (h.cyclic n hn).2
  have hnone : l.undefined = [] := by
    rw [← List.map_eq_nil_iff (f := Prod.fst)]
    refine List.eq_nil_iff_forall_not_mem.mpr fun u hu => ?_
    obtain ⟨hno, e, he, -, hmem⟩ := (hundefined u).mp hu
    exact hno (hclosed e.label u ⟨e, he, rfl, hmem⟩)
  have hnever : ∀ n, ¬ l.given n := by
    intro n hn
    rw [hgiven] at hn
    obtain ⟨u, hpath, hu⟩ := hn
    obtain ⟨b, -, hrefers⟩ := Relation.TransGen.tail'_iff.mp hpath
    exact hu (hclosed b u hrefers)
  -- Nothing is given up, so what the labels refer to is well-founded already.
  have hlabels : ∀ n, IsLabel eqs n → Acc (fun b a => Refers eqs a b) n := by
    intro n hn
    obtain ⟨e, he, rfl⟩ := List.mem_map.mp hn
    obtain ⟨v, hv⟩ := hvalue e he
    refine Subrelation.accessible (fun hba => ⟨⟨hba, ?_⟩, hnever _⟩) (h.grounded _ v hv)
    rw [hcyclic]
    exact List.not_mem_nil
  refine ⟨?_, fun n => ⟨n, fun m hm => hlabels m (hclosed n m hm)⟩, fun e he => ?_, fun n hn => ?_⟩
  · have hperm := h.diagnostics
    rw [hcyclic, hnone] at hperm
    simpa using hperm
  · obtain ⟨v, hv⟩ := hvalue e he
    rcases h.values e he v hv with hmem | ⟨hgive, -⟩ | hcompute
    · rw [hcyclic] at hmem
      exact absurd hmem List.not_mem_nil
    · exact absurd hgive (hnever _)
    · rw [hv, hcompute]
  · refine (number?_eq_none h.numeric).mpr ?_
    have hsymbol : (outcome settings eqs).symbols.get? n = none := by
      rw [← Option.not_isSome_iff_eq_none]
      exact fun hsome => hn ((hall n).mp ((h.entered n).mp hsome))
    rw [hsymbol]
    rfl

/-- Programs of equations are solved as far as that can be done, and what is left out is reported. A closed
program without cycles has the same values in every order of its statements. -/
theorem exists_solution (settings : Settings) (hroom : settings.maxDiagnostics = 0)
    (eqs : List Equation) (hnodup : (eqs.map (·.label)).Nodup)
    (harith : ∀ e ∈ eqs, e.value.isArithmetic) :
    (∃ cyclic undefined, Solution eqs (outcome settings eqs) cyclic undefined) ∧
    ((∀ n, ¬ Relation.TransGen (Refers eqs) n n) → (∀ n m, Refers eqs n m → IsLabel eqs m) →
      ∀ (settings' : Settings) (eqs' : List Equation), settings'.maxDiagnostics = 0 →
        eqs'.Perm eqs → (outcome settings' eqs').diagnostics = [] ∧
          ∀ n, (outcome settings' eqs').number? n = (outcome settings eqs).number? n) := by
  constructor
  · obtain ⟨l, h, hall, hbreaks, hgiven, hunique, hundefined, hvalue⟩ :=
      exists_balanced settings hroom hnodup harith
    refine ⟨l.cyclic, l.undefined, h.diagnostics, hunique, hundefined, fun n hn => ?_, hbreaks, ?_,
      fun e he => ?_, fun e he hfree => ?_⟩
    · obtain ⟨hzero, hcycle⟩ := h.cyclic n hn
      obtain ⟨b, ⟨e, he, rfl, -⟩, -⟩ := Relation.TransGen.head'_iff.mp hcycle
      exact ⟨isLabel_of_mem he, hcycle, hzero⟩
    · constructor
      · intro hnil n hcycle
        rw [hnil] at hbreaks
        exact hbreaks n (Relation.TransGen.mono (fun _ _ hr => ⟨hr, List.not_mem_nil⟩) _ _ hcycle)
      · intro hacyclic
        exact List.eq_nil_iff_forall_not_mem.mpr fun n hn => hacyclic n (h.cyclic n hn).2
    · obtain ⟨v, hv⟩ := hvalue e he
      obtain ⟨sym, hsym, hval⟩ := Option.bind_eq_some_iff.mp (number?_eq_some.mp hv)
      exact ⟨sym, v, hsym, hval⟩
    · obtain ⟨v, hv⟩ := hvalue e he
      rcases h.values e he v hv with hmem | ⟨hgive, rfl⟩ | hcompute
      · exact absurd hmem hfree
      · rw [hgiven] at hgive
        exact .inr ⟨hv, hgive⟩
      · exact .inl ⟨v, hv, hcompute⟩
  · intro hacyclic hclosed settings' eqs' hroom' hperm
    obtain ⟨-, hacc, hsolved, hnone⟩ := solved_of_closed hroom hnodup harith hacyclic hclosed
    have hlabel := isLabel_perm hperm
    obtain ⟨hdiag, -, hsolved', hnone'⟩ := @solved_of_closed eqs' _ hroom'
      ((hperm.map _).nodup_iff.mpr hnodup) (fun e he => harith e (hperm.mem_iff.mp he))
      (by rw [refers_perm hperm]; exact hacyclic)
      fun n m hr => (hlabel m).mpr (hclosed n m (refers_perm hperm ▸ hr))
    refine ⟨hdiag, solution_unique hacc (fun e he => hsolved' e (hperm.mem_iff.mpr he)) hsolved ?_⟩
    intro n hn
    rw [hnone n hn, hnone' n fun hl => hn ((hlabel n).mp hl)]

/-! ### A program with a cycle and an undefined name, and a closed program read backwards -/

def mixed : List Equation :=
  [⟨.ofString "A", .binary .add (.symbol (.ofString "B")) (.symbol (.ofString "C")), {}⟩,
    ⟨.ofString "B", .binary .mul (.symbol (.ofString "A")) (.number 2), {}⟩,
    ⟨.ofString "C", .negate (.symbol (.ofString "U")), {}⟩]

def forward : List Equation :=
  [⟨.ofString "A", .binary .div (.symbol (.ofString "B")) (.number 2), {}⟩,
    ⟨.ofString "B", .number 7, {}⟩]

theorem refers_forward {n m : Name} (h : Refers forward n m) :
    n = .ofString "A" ∧ m = .ofString "B" := by
  obtain ⟨e, he, rfl, hm⟩ := h
  rcases List.mem_cons.mp he with rfl | he
  · exact ⟨rfl, List.mem_singleton.mp hm⟩
  · rw [List.mem_singleton.mp he] at hm
    cases hm

theorem acyclic_forward (n : Name) : ¬ Relation.TransGen (Refers forward) n n := by
  have hne : Name.ofString "B" ≠ Name.ofString "A" := by decide +kernel
  intro hcycle
  obtain ⟨b, hfirst, hrest⟩ := Relation.TransGen.head'_iff.mp hcycle
  obtain ⟨rfl, rfl⟩ := refers_forward hfirst
  rcases Relation.ReflTransGen.cases_head hrest with heq | ⟨c, hsecond, -⟩
  · exact hne heq
  · exact hne (refers_forward hsecond).1

theorem closed_forward (n m : Name) (h : Refers forward n m) : IsLabel forward m := by
  rw [(refers_forward h).2]
  exact isLabel_of_mem (e := ⟨.ofString "B", .number 7, {}⟩) (by simp [forward])

theorem exists_solution_forward :
    (∃ cyclic undefined, Solution mixed (outcome { maxSweeps := 1 } mixed) cyclic undefined) ∧
      (outcome { maxSweeps := 1 } forward.reverse).diagnostics = [] ∧
        ∀ n, (outcome { maxSweeps := 1 } forward.reverse).number? n =
          (outcome {} forward).number? n :=
  ⟨(exists_solution { maxSweeps := 1 } rfl mixed (by decide +kernel) (by decide +kernel)).1,
    (exists_solution {} rfl forward (by decide +kernel) (by decide +kernel)).2 acyclic_forward
      closed_forward { maxSweeps := 1 } forward.reverse rfl (List.reverse_perm forward)⟩

end Session

end Assembler
