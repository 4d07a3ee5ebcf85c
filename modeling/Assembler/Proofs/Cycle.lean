import Assembler.Proofs.Session
/-!
Reports of cyclic definitions.

A step reports a cyclic definition only for the job at hand (`Moment.Reachable.accuses`), and only if
the job would wait for its own product, or if it is done at the end of the source and lacks nothing but
orphans (`Assembly.Orphan`): operation codes that nobody defines, spaces and length attributes that nothing
computes. What lacks only orphans need not depend on itself.
-/

namespace Assembler

namespace Assembly

variable {s t : Assembly}

/-! ## 1. Cycles and orphans -/

/-- The places at which cyclic definitions have been reported. -/
def cycles (s : Assembly) : List Location :=
  (s.diagnostics.filter (·.code = Fault.cyclic.code)).map (·.location)

/-- Whether work that waits for `waiting` would wait for its own product. -/
def Circular (s : Assembly) (job : Job) (waiting : List Prerequisite) : Prop :=
  ∃ key, job.task.product? = some key ∧ ∃ p ∈ waiting, s.pendings.Reaches p key

/-- What work that waits for `waiting` lacks in the end: nothing pending will produce it. -/
def Root (s : Assembly) (waiting : List Prerequisite) (root : Prerequisite) : Prop :=
  (∃ p ∈ waiting, s.pendings.Reaches p root) ∧ s.pendings.waitingOf? root = none

/-- Whether something is lacking that is never reported as undefined. -/
def Orphan (s : Assembly) : Prerequisite → Prop
  | .attr n .opcode => s.Lacks (.attr n .opcode)
  | .attr n .length => ∃ sym, s.symbols.get? n = some sym ∧ sym.attributes.length = .pending
  | .space space => ¬ s.layout.spaces.isResolved space
  | _ => False

/-- Whether there is room for another diagnostic. -/
def HasRoom (s : Assembly) : Prop :=
  s.settings.maxDiagnostics = 0 ∨ s.diagnostics.length < s.settings.maxDiagnostics

theorem isCyclic_iff {job : Job} {waiting : List Prerequisite} :
    s.isCyclic job waiting = true ↔ s.Circular job waiting := by
  unfold isCyclic Circular
  rw [Option.any_eq_true]
  refine exists_congr fun key => ?_
  rw [PendingTable.createsCycle_iff]

theorem mem_missingRoots {waiting : List Prerequisite} {root : Prerequisite} :
    root ∈ s.pendings.missingRoots waiting ↔ s.Root waiting root :=
  PendingTable.mem_missingRoots

theorem cycles_of_diagnostics (h : t.diagnostics = s.diagnostics) : t.cycles = s.cycles := by
  unfold cycles
  rw [h]

theorem cycles_establish (s : Assembly) (d : Definition) : (s.establish d).cycles = s.cycles :=
  cycles_of_diagnostics (s.diagnostics_establish d)

theorem cycles_addDiagnostic {d : Diagnostic} (hd : d.code ≠ Fault.cyclic.code) :
    (s.addDiagnostic d).cycles = s.cycles := by
  unfold addDiagnostic
  split
  · rfl
  · have hnone : [d].filter (fun d : Diagnostic => d.code = Fault.cyclic.code) = [] := by simp [hd]
    show ((s.diagnostics ++ [d]).filter _).map _ = s.cycles
    rw [List.filter_append, hnone, List.append_nil]
    rfl

theorem cycles_report {f : Fault} (hf : f ≠ .cyclic) (location : Location) :
    (s.report f location).cycles = s.cycles :=
  cycles_addDiagnostic (d := .ofFault f location) fun hcode => hf (Fault.code_eq_cyclic.mp hcode)

/-- The report of a cycle is left out if there are too many diagnostics. -/
theorem cycles_report_cyclic (s : Assembly) (location : Location) :
    (s.report .cyclic location).cycles = s.cycles ∨
      (s.report .cyclic location).cycles = s.cycles ++ [location] := by
  unfold report addDiagnostic
  split
  · exact .inl rfl
  · refine .inr ?_
    show ((s.diagnostics ++ [_]).filter _).map _ = _
    rw [List.filter_append, List.map_append]
    rfl

theorem cycles_report_of_room (hroom : s.HasRoom) (location : Location) :
    (s.report .cyclic location).cycles = s.cycles ++ [location] := by
  have hfull : ¬ (0 < s.settings.maxDiagnostics ∧
      s.settings.maxDiagnostics ≤ s.diagnostics.length) := by
    rintro ⟨hpos, hle⟩
    rcases hroom with hzero | hlt <;> omega
  unfold report addDiagnostic
  rw [if_neg hfull]
  show ((s.diagnostics ++ [_]).filter _).map _ = _
  rw [List.filter_append, List.map_append]
  rfl

theorem cycles_foldl_reportUndefined (s : Assembly) (names : List Name) (location : Location) :
    (names.foldl (fun s n => s.reportUndefined n location) s).cycles = s.cycles := by
  induction names generalizing s with
  | nil => rfl
  | cons n rest ih =>
    have hfirst : (s.reportUndefined n location).cycles = s.cycles := by
      unfold reportUndefined
      split
      · rfl
      · exact cycles_report (by simp) location
    exact (ih _).trans hfirst

theorem filter_eq_none {n : Name} :
    (some n).filter (!s.symbols.contains ·) = none ↔ ∃ sym, s.symbols.get? n = some sym := by
  cases hsym : s.symbols.get? n <;> simp [Option.filter, SymbolTable.contains, hsym]

end Assembly

open Assembly

namespace Moment

variable {s : Assembly} {hand : List (Option Nat × Job)} {phase : Phase}

/-! ## 2. What is lacking in the end -/

theorem Valid.exists_root (h : Valid ⟨s, hand, phase⟩) {waiting : List Prerequisite}
    (hne : waiting ≠ []) : ∃ root, s.Root waiting root := by
  obtain ⟨p, rest, rfl⟩ := List.exists_cons_of_ne_nil hne
  have hwait : ∀ key waiting, s.pendings.waitingOf? key = some waiting → waiting ≠ [] := by
    intro key waiting hkey
    obtain ⟨id, x, hx, -, rfl⟩ := h.indexed.waitingOf?_eq_some.mp hkey
    exact (h.entries id x hx).waiting
  obtain ⟨root, hreach, hnone⟩ := h.acyclic.exists_root hwait p
  exact ⟨root, ⟨p, List.mem_cons_self, hreach⟩, hnone⟩

/-- When nothing is left to be tried, everything behind a lack is lacking. -/
theorem Watchful.lacks_of_reaches (h : Watchful ⟨s, hand, phase⟩) (hi : s.pendings.Indexed)
    (hw : s.worklist = []) (hs : s.stalled = []) {p q : Prerequisite}
    (hreach : s.pendings.Reaches p q) (hp : s.Lacks p) : s.Lacks q := by
  induction hreach with
  | refl => exact hp
  | @step p q r hwaits _ ih =>
    obtain ⟨waiting, hsome, hmem⟩ := hwaits
    obtain ⟨id, x, hx, -, rfl⟩ := hi.waitingOf?_eq_some.mp hsome
    rcases h id x hx with hid | hid | hstuck
    · rw [show s.worklist = [] from hw] at hid
      cases hid
    · rw [show s.stalled = [] from hs] at hid
      cases hid
    · exact ih (hstuck.lacking q hmem)

/-- What is expected in the end is the product of the job at hand. -/
theorem Valid.product_of_expects {x : Option Nat × Job} (h : Valid ⟨s, [x], phase⟩)
    {root : Prerequisite} (hroot : s.pendings.waitingOf? root = none) (hexp : s.Expects root)
    (howed : Owed ⟨s, [x], phase⟩ root) : x.2.task.product? = some root := by
  rcases h.owed root hexp howed with hprod | ⟨y, hy, hkey⟩
  · obtain ⟨id, hid⟩ := Option.isSome_iff_exists.mp hprod
    obtain ⟨p, hp, hkey⟩ := (h.indexed.producers root id).mp hid
    have hsome := h.indexed.waitingOf?_eq_some.mpr ⟨id, p, hp, hkey, rfl⟩
    rw [show s.pendings.waitingOf? root = none from hroot] at hsome
    cases hsome
  · rwa [List.mem_singleton.mp hy] at hkey

/-- What is lacking in the end is undefined, the product of the job at hand or an orphan. -/
theorem Valid.reportable?_eq_none {x : Option Nat × Job} (h : Valid ⟨s, [x], phase⟩)
    {root : Prerequisite} (hroot : s.pendings.waitingOf? root = none) (hl : s.Lacks root) :
    s.reportable? root = none ↔ x.2.task.product? = some root ∨ s.Orphan root := by
  have hexp := (h.held x List.mem_cons_self).expected root
  -- Nothing pending produces it, so if it is expected the job at hand produces it.
  have hproduct := h.product_of_expects hroot
  cases root with
  | space space => exact ⟨fun _ => .inr hl, fun _ => rfl⟩
  | symbol n =>
    rw [reportable?, filter_eq_none]
    constructor
    · rintro ⟨sym, hsym⟩
      exact .inl (hproduct ⟨sym, hsym, hl sym hsym⟩ trivial)
    · rintro (hkey | horphan)
      · obtain ⟨sym, hsym, -⟩ := hexp hkey
        exact ⟨sym, hsym⟩
      · exact horphan.elim
  | attr n kind =>
    cases kind with
    | opcode => exact ⟨fun _ => .inr hl, fun _ => rfl⟩
    | type =>
      rw [reportable?, if_neg (by decide), filter_eq_none]
      constructor
      · rintro ⟨sym, hsym⟩
        rw [show s.symbols.get? n = none from hl] at hsym
        cases hsym
      · rintro (hkey | horphan)
        · exact (hexp hkey).elim
        · exact horphan.elim
    | length =>
      rw [reportable?, if_neg (by decide), filter_eq_none]
      constructor
      · rintro ⟨sym, hsym⟩
        exact .inr ⟨sym, hsym, hl sym hsym⟩
      · rintro (hkey | ⟨sym, hsym, -⟩)
        · obtain ⟨sym, hsym, -⟩ := hexp hkey
          exact ⟨sym, hsym⟩
        · exact ⟨sym, hsym⟩
    | scale | integer =>
      rw [reportable?, if_neg (by decide), filter_eq_none]
      constructor
      · rintro ⟨sym, hsym⟩
        exact .inl (hproduct ⟨sym, hsym, hl sym hsym⟩ trivial)
      · rintro (hkey | horphan)
        · obtain ⟨sym, hsym, -⟩ := hexp hkey
          exact ⟨sym, hsym⟩
        · exact horphan.elim
    | count | number | defined => exact hl.elim

/-! ## 3. Steps -/

/-- What waits for something lacks something in the end. Either that is reported, or nothing is done. -/
theorem Valid.explain_cases (h : Valid ⟨s, hand, phase⟩) {waiting : List Prerequisite}
    (hne : waiting ≠ []) (location : Location) :
    (¬ (∀ root, s.Root waiting root → s.reportable? root = none) ∧
      (s.explain waiting location).1 = true ∧
      (s.explain waiting location).2.cycles = s.cycles) ∨
    ((∀ root, s.Root waiting root → s.reportable? root = none) ∧
      s.explain waiting location = (false, s)) := by
  obtain ⟨root, hroot⟩ := h.exists_root hne
  have hroots : (s.pendings.missingRoots waiting).isEmpty = false := by
    cases hlist : s.pendings.missingRoots waiting with
    | nil =>
      have hmem := mem_missingRoots.mpr hroot
      rw [hlist] at hmem
      cases hmem
    | cons => rfl
  have hnames : (s.pendings.missingRoots waiting).filterMap s.reportable? = [] ↔
      ∀ root, s.Root waiting root → s.reportable? root = none := by
    rw [List.filterMap_eq_nil_iff]
    exact forall_congr' fun root => by rw [mem_missingRoots]
  simp only [explain, hroots, Bool.false_eq_true, if_false]
  by_cases hall : ∀ root, s.Root waiting root → s.reportable? root = none
  · rw [hnames.mpr hall]
    exact .inr ⟨hall, rfl⟩
  · refine .inl ⟨hall, ?_, cycles_foldl_reportUndefined _ _ _⟩
    cases hlist : (s.pendings.missingRoots waiting).filterMap s.reportable? with
    | nil => exact absurd (hnames.mp hlist) hall
    | cons => rfl

theorem Valid.cycles_settle {id? : Option Nat} {job : Job}
    (h : Valid ⟨s, (id?, job) :: hand, phase⟩) : (s.settle id? job).cycles = s.cycles ∨
      ∃ waiting, s.attempt job = .blocked waiting ∧ s.Circular job waiting ∧
        (s.settle id? job).cycles = s.cycles ++ [job.frame.location] := by
  have hplain := fault_attempt_ne_cyclic s (h.held _ List.mem_cons_self).inScope
  unfold Assembly.settle
  split
  · exact .inl (cycles_establish s _)
  · rename_i d fault hfault
    exact .inl ((cycles_establish _ d).trans (cycles_report (hplain d fault hfault) _))
  · rename_i waiting hwait
    split
    · rename_i hcyclic
      rw [cycles_establish]
      refine (cycles_report_cyclic s job.frame.location).imp_right fun hreport => ?_
      exact ⟨waiting, hwait, isCyclic_iff.mp hcyclic, hreport⟩
    · refine .inl (cycles_of_diagnostics ?_)
      unfold Assembly.postpone
      split <;> rfl

theorem Valid.cycles_explain (h : Valid ⟨s, hand, phase⟩) {waiting : List Prerequisite}
    (hne : waiting ≠ []) (location : Location) :
    (s.explain waiting location).2.cycles = s.cycles := by
  rcases h.explain_cases hne location with ⟨-, -, hsame⟩ | ⟨-, hexplain⟩
  · exact hsame
  · rw [hexplain]

/-- At the end of the source a job that has to wait gets its fallback, with a report of a cycle unless
something that it lacks is reported. -/
theorem Valid.cycles_conclude {id? : Option Nat} {job : Job} (h : Valid ⟨s, [(id?, job)], phase⟩)
    (hw : Watchful ⟨s, [(id?, job)], phase⟩) (hlist : s.worklist = []) (hstalled : s.stalled = [])
    {waiting : List Prerequisite} (hwait : s.attempt job = .blocked waiting) :
    ((∀ root, s.Root waiting root → job.task.product? = some root ∨ s.Orphan root) ∧
      (s.conclude false job).cycles = (s.report .cyclic job.frame.location).cycles) ∨
    (¬ (∀ root, s.Root waiting root → job.task.product? = some root ∨ s.Orphan root) ∧
      (s.conclude false job).cycles = s.cycles) := by
  have hne := attempt_ne_nil h.wellFormed.named (h.held _ List.mem_cons_self).inScope hwait
  have hlacks := lacks_of_attempt h.wellFormed.named h.wellFormed.acyclic hwait
  have hall : (∀ root, s.Root waiting root → s.reportable? root = none) ↔
      ∀ root, s.Root waiting root → job.task.product? = some root ∨ s.Orphan root := by
    refine forall_congr' fun root => imp_congr_right fun hroot => ?_
    obtain ⟨⟨p, hp, hreach⟩, hnone⟩ := hroot
    exact h.reportable?_eq_none hnone
      (hw.lacks_of_reaches h.indexed hlist hstalled hreach (hlacks p hp))
  rw [conclude_unexplained hwait, cycles_establish, ← hall]
  rcases h.explain_cases hne job.frame.location with ⟨hno, hyes, hsame⟩ | ⟨hyes, hexplain⟩
  · rw [hyes]
    exact .inr ⟨hno, hsame⟩
  · rw [hexplain]
    exact .inl ⟨hyes, rfl⟩

/-- Whether a step blames a job for a cycle: it would wait for its own product, or it is given up at the
end of the source and lacks nothing but its own product and orphans. -/
inductive Blames : Moment → Moment → Job → Prop
  | circular {s id? job hand phase waiting} : s.attempt job = .blocked waiting →
    s.Circular job waiting →
    Blames ⟨s, (id?, job) :: hand, phase⟩ ⟨s.settle id? job, hand, phase⟩ job
  | orphaned {s id? job waiting} : s.worklist = [] → s.stalled = [] →
    s.attempt job = .blocked waiting →
    (∀ root, s.Root waiting root → job.task.product? = some root ∨ s.Orphan root) →
    Blames ⟨s, [(id?, job)], .closing⟩ ⟨s.conclude false job, [], .closing⟩ job

/-- What a step reports about cycles. -/
structure Accuses (m m' : Moment) : Prop where
  only : m'.state.cycles = m.state.cycles ∨
    ∃ job, m.Blames m' job ∧ m'.state.cycles = m.state.cycles ++ [job.frame.location]
  always : ∀ job, m.Blames m' job → m.state.HasRoom →
    m'.state.cycles = m.state.cycles ++ [job.frame.location]
  justly : ∀ job, m.Blames m' job → ∃ waiting, m.state.attempt job = .blocked waiting ∧
    (m.state.Circular job waiting ∨
      m.phase = .closing ∧ ∀ root, m.state.Root waiting root → m.state.Orphan root)

theorem Blames.justly {m m' : Moment} {job : Job} (h : m.Blames m' job) : ∃ waiting,
    m.state.attempt job = .blocked waiting ∧ (m.state.Circular job waiting ∨
      m.phase = .closing ∧ ∀ root, m.state.Root waiting root → m.state.Orphan root) := by
  cases h with
  | @circular s _ _ _ _ waiting hwait hcircular => exact ⟨waiting, hwait, .inl hcircular⟩
  | @orphaned s id? job waiting _ _ hwait hroots =>
    refine ⟨waiting, hwait, ?_⟩
    by_cases hcircular : s.Circular job waiting
    · exact .inl hcircular
    · -- A root that is the product of the job would be reached from what the job waits for.
      refine .inr ⟨rfl, fun root hroot => (hroots root hroot).resolve_left fun hkey => ?_⟩
      exact hcircular ⟨root, hkey, hroot.1⟩

theorem Blames.always {m m' : Moment} {job : Job} (h : m.Blames m' job) (hv : m.Valid)
    (hw : m.Watchful) (hroom : m.state.HasRoom) :
    m'.state.cycles = m.state.cycles ++ [job.frame.location] := by
  cases h with
  | @circular s id? _ _ _ waiting hwait hcircular =>
    have hsettle : s.settle id? job =
        (s.report .cyclic job.frame.location).establish job.task.fallback := by
      unfold Assembly.settle
      rw [hwait]
      exact if_pos (isCyclic_iff.mpr hcircular)
    show (s.settle id? job).cycles = _
    rw [hsettle, cycles_establish, cycles_report_of_room hroom]
  | @orphaned s _ _ waiting hlist hstalled hwait hroots =>
    rcases hv.cycles_conclude hw hlist hstalled hwait with ⟨-, hreport⟩ | ⟨hno, -⟩
    · exact hreport.trans (cycles_report_of_room hroom _)
    · exact absurd hroots hno

theorem Valid.only_cascade {m m' : Moment} (hv : m.Valid) (hstep : Cascade m m') :
    m'.state.cycles = m.state.cycles ∨
      ∃ job, m.Blames m' job ∧ m'.state.cycles = m.state.cycles ++ [job.frame.location] := by
  cases hstep with
  | @settle s hand id? job phase =>
    rcases hv.cycles_settle with hsame | ⟨waiting, hwait, hcircular, hreport⟩
    · exact .inl hsame
    · exact .inr ⟨job, .circular hwait hcircular, hreport⟩
  | pick | skip | stall | resume => exact .inl rfl

theorem Valid.only_progress {m m' : Moment} (hstep : Progress m m') :
    m'.state.cycles = m.state.cycles := by
  cases hstep with
  | report d hd => exact cycles_addDiagnostic hd
  | arrange | check | defineMacro | defineVariable => rfl
  | @enter s _ sym symbols =>
    exact cycles_of_diagnostics (diagnostics_foldl_wake { s with symbols } (provided sym))

theorem Valid.only_ending {m m' : Moment} (hv : m.Valid) (hw : m.Watchful) (hstep : Ending m m') :
    m'.state.cycles = m.state.cycles ∨
      ∃ job, m.Blames m' job ∧ m'.state.cycles = m.state.cycles ++ [job.frame.location] := by
  cases hstep with
  | place | close | choose | clear => exact .inl rfl
  | @explain s id p hp => exact .inl (hv.cycles_explain (hv.entries id p hp).waiting _)
  | @conclude s id? job explained _ hlist hstalled =>
    have hplain := fault_attempt_ne_cyclic s (hv.held _ List.mem_cons_self).inScope
    cases hwait : s.attempt job with
    | resolved d => exact .inl ((congrArg cycles (conclude_resolved hwait)).trans (cycles_establish s d))
    | fallback d fault =>
      exact .inl ((congrArg cycles (conclude_fallback hwait)).trans
        ((cycles_establish _ d).trans (cycles_report (hplain d fault hwait) _)))
    | blocked waiting =>
      cases explained with
      | true => exact .inl ((congrArg cycles (conclude_explained hwait)).trans (cycles_establish s _))
      | false =>
        rcases hv.cycles_conclude hw hlist hstalled hwait with ⟨hroots, hreport⟩ | ⟨-, hsame⟩
        · refine (cycles_report_cyclic s job.frame.location).imp hreport.trans fun happend => ?_
          exact ⟨job, .orphaned hlist hstalled hwait hroots, hreport.trans happend⟩
        · exact .inl hsame

/-- A step reports a cycle for the job at hand or not at all. -/
theorem Reachable.accuses {settings : Settings} {m m' : Moment} (h : m.Reachable settings)
    (hstep : Step m m') : m.Accuses m' where
  only := by
    cases hstep with
    | cascade hstep => exact h.valid.only_cascade hstep
    | progress hstep => exact .inl (Valid.only_progress hstep)
    | ending hstep => exact h.valid.only_ending h.watchful hstep
  always _ hblame hroom := hblame.always h.valid h.watchful hroom
  justly _ hblame := hblame.justly

end Moment

/-! ## 4. Sessions -/

namespace Session

/-- In sessions, cyclic definitions are reported just for the jobs that are blamed for a cycle: those that
would wait for their own product, and at the end of the source those that lack orphans only. -/
theorem accuses_of_step (settings : Settings) :
    (∀ commands, Moment.Reachable settings
      ⟨((new settings).performAll commands).assembly, [], .reading⟩) ∧
    ∀ m m', m.Reachable settings → Step m m' → m.Accuses m' :=
  ⟨reachable_performAll settings, fun _ _ hm hstep => hm.accuses hstep⟩

/-! ### A forward reference to the attribute of an undefined operation code -/

namespace Forward

open Scaled

def sum : Expr := .binary .add (.symbol (.ofString "A")) (.number 1)

def opcode : Expr := .attr .opcode (.symbol (.ofString "XX"))

def sumJob : Job := ⟨.value (.ofString "B") sum, { label? := some (.ofString "B") }⟩

def opcodeJob : Job := ⟨.value (.ofString "A") opcode, { label? := some (.ofString "A") }⟩

def sumWaiting : Assembly :=
  { enter (Assembly.new {}) (equated "B") with
    pendings := (Assembly.new {}).pendings.register ⟨sumJob, [.symbol (.ofString "A")]⟩ }

def bothWaiting : Assembly :=
  { enter sumWaiting (equated "A") with
    pendings := sumWaiting.pendings.register ⟨opcodeJob, [.attr (.ofString "XX") .opcode]⟩ }

/-- Only the attribute is pending, and the sum is to be done. -/
def sumChosen : Assembly :=
  { bothWaiting with
    finished := true
    pendings := ((bothWaiting.pendings.take? 0).map (·.2)).getD {} }

theorem process_sum :
    (Assembly.new {}).process (statement "B" "EQU" (.equ (some sum) none none)) = sumWaiting := by
  have hcreate : (Assembly.new {}).createSymbol? (equated "B") =
      some (enter (Assembly.new {}) (equated "B")) :=
    createSymbol?_of_idle (by decide +kernel) (by decide +kernel) rfl
  rw [process_equ_of_createSymbol? (e := sum) rfl rfl (by decide) hcreate]
  exact resolveOrDefer_of_blocked (by decide +kernel) (by decide +kernel) (by decide +kernel) rfl

theorem lacks_opcode (s : Assembly) (hm : s.macros = ∅) :
    s.Lacks (.attr (.ofString "XX") .opcode) := by
  have hnone : s.macros[Name.ofString "XX"]? = none := by rw [hm]; rfl
  have hdirective : Directive.find? (.ofString "XX") = none := by decide +kernel
  exact ⟨hnone, hdirective, Instruction.find?_xx⟩

theorem attempt_opcode (s : Assembly) (hm : s.macros = ∅) (hf : s.finished = false) :
    s.attempt opcodeJob = .blocked [.attr (.ofString "XX") .opcode] := by
  have hopcode : s.opcodeAttribute (.ofString "XX") = .blocked [.attr (.ofString "XX") .opcode] :=
    opcodeAttribute_eq_blocked.mpr ⟨hf, lacks_opcode s hm, rfl⟩
  have hopen : opcode.evaluateOpen s.scope opcodeJob.frame =
      .blocked [.attr (.ofString "XX") .opcode] := by
    show (s.opcodeAttribute (.ofString "XX")).map Value.absolute = _
    rw [hopcode]
    rfl
  show (opcode.evaluate s.scope opcodeJob.frame).map (Definition.value (.ofString "A")) = _
  unfold Expr.evaluate
  rw [hopen]
  rfl

theorem process_opcode :
    sumWaiting.process (statement "A" "EQU" (.equ (some opcode) none none)) = bothWaiting := by
  have hcreate : sumWaiting.createSymbol? (equated "A") = some (enter sumWaiting (equated "A")) :=
    createSymbol?_of_idle (by decide +kernel) (by decide +kernel) rfl
  rw [process_equ_of_createSymbol? (e := opcode) rfl rfl (by decide) hcreate]
  exact resolveOrDefer_of_blocked (attempt_opcode _ rfl rfl) (by decide +kernel)
    (by decide +kernel) rfl

theorem reachable_sumChosen :
    Moment.Reachable {} ⟨sumChosen, [(some 0, sumJob)], .closing⟩ := by
  have hstart := reachable_performAll {}
    [.process (statement "B" "EQU" (.equ (some sum) none none)),
      .process (statement "A" "EQU" (.equ (some opcode) none none))]
  have hwaiting : ((new {}).performAll
      [.process (statement "B" "EQU" (.equ (some sum) none none)),
        .process (statement "A" "EQU" (.equ (some opcode) none none))]).assembly =
      bothWaiting := by
    show ((Assembly.new {}).process
      (statement "B" "EQU" (.equ (some sum) none none))).process
        (statement "A" "EQU" (.equ (some opcode) none none)) = bothWaiting
    rw [process_sum, process_opcode]
  rw [hwaiting] at hstart
  have hplace : Ending ⟨bothWaiting, [], .reading⟩ ⟨bothWaiting, [], .placing⟩ :=
    .place (s := bothWaiting) rfl
  have hclose : Ending ⟨bothWaiting, [], .placing⟩
      ⟨{ bothWaiting with finished := true }, [], .closing⟩ := .close rfl rfl
  have htake : bothWaiting.pendings.take? 0 =
      some (⟨sumJob, [.symbol (.ofString "A")]⟩, sumChosen.pendings) := by rfl
  have hchoose : Ending ⟨{ bothWaiting with finished := true }, [], .closing⟩
      ⟨sumChosen, [(some 0, sumJob)], .closing⟩ :=
    .choose (s := { bothWaiting with finished := true }) htake
  exact ((hstart.tail (.ending hplace)).tail (.ending hclose)).tail (.ending hchoose)

/-- What the sum waits for is waiting for the attribute and for nothing else. -/
theorem eq_of_reaches {q : Prerequisite}
    (h : sumChosen.pendings.Reaches (.symbol (.ofString "A")) q) :
    q = .symbol (.ofString "A") ∨ q = .attr (.ofString "XX") .opcode := by
  have hsymbol : sumChosen.pendings.waitingOf? (.symbol (.ofString "A")) =
      some [.attr (.ofString "XX") .opcode] := by decide +kernel
  have hopcode : sumChosen.pendings.waitingOf? (.attr (.ofString "XX") .opcode) = none := by
    decide +kernel
  cases h with
  | refl => exact .inl rfl
  | step hfirst hrest =>
    obtain ⟨waiting, hwaiting, hmem⟩ := hfirst
    rw [hsymbol] at hwaiting
    cases hwaiting
    rw [List.mem_singleton.mp hmem] at hrest
    cases hrest with
    | refl => exact .inr rfl
    | step hsecond _ =>
      obtain ⟨waiting, hwaiting, -⟩ := hsecond
      rw [hopcode] at hwaiting
      cases hwaiting

theorem attempt_sum : sumChosen.attempt sumJob = .blocked [.symbol (.ofString "A")] := by
  decide +kernel

theorem blames_sum : Moment.Blames ⟨sumChosen, [(some 0, sumJob)], .closing⟩
    ⟨sumChosen.conclude false sumJob, [], .closing⟩ sumJob := by
  refine .orphaned rfl rfl attempt_sum fun root hroot => .inr ?_
  obtain ⟨⟨p, hp, hreach⟩, hnone⟩ := hroot
  rw [List.mem_singleton.mp hp] at hreach
  rcases eq_of_reaches hreach with rfl | rfl
  · have hsome : sumChosen.pendings.waitingOf? (.symbol (.ofString "A")) ≠ none := by
      decide +kernel
    exact absurd hnone hsome
  · exact lacks_opcode sumChosen rfl

end Forward

/-- The sum is reported as cyclic, although it does not depend on itself. -/
theorem not_circular_of_cycles_forward :
    ¬ ∀ (settings : Settings) (m m' : Moment), m.Reachable settings → Step m m' →
      m'.state.cycles ≠ m.state.cycles → ∃ x ∈ m.hand, ∃ waiting,
        m.state.attempt x.2 = .blocked waiting ∧ m.state.Circular x.2 waiting := by
  intro hall
  have hstep : Step ⟨Forward.sumChosen, [(some 0, Forward.sumJob)], .closing⟩
      ⟨Forward.sumChosen.conclude false Forward.sumJob, [], .closing⟩ :=
    .ending (.conclude false rfl rfl rfl (by simp))
  have hreport := (Forward.reachable_sumChosen.accuses hstep).always _ Forward.blames_sum (.inl rfl)
  obtain ⟨x, hx, waiting, hwait, key, hkey, p, hp, hreach⟩ :=
    hall {} _ _ Forward.reachable_sumChosen hstep (by rw [hreport]; simp)
  cases List.mem_singleton.mp hx
  have hwaiting : waiting = [.symbol (.ofString "A")] :=
    Evaluation.blocked.inj (hwait.symm.trans Forward.attempt_sum)
  rw [hwaiting] at hp
  rw [List.mem_singleton.mp hp] at hreach
  have hproduct : key = .symbol (.ofString "B") := (Option.some.inj hkey).symm
  rw [hproduct] at hreach
  rcases Forward.eq_of_reaches hreach with heq | heq
  · exact absurd heq (by decide +kernel)
  · cases heq

end Session

end Assembler
