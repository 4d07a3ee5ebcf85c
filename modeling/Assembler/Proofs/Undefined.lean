import Assembler.Proofs.Explanation
import Assembler.Proofs.LaterValue
import Assembler.Proofs.Producer
import Assembler.Proofs.TakenName
import Mathlib.Data.List.Nodup
/-!
Names that are reported as undefined.

A name is noted whenever it is reported as undefined, and once it has been noted it is not reported again. So in
what is reported between two states a name occurs as undefined just if it has been noted in between
(`Assembly.Notes`, `Moment.Valid.notes_run`). Only names without a symbol are noted, at the end of the source
(`Completion.reported`), and all those that pending work waits for when the end-of-source pass starts
(`Moment.Valid.misses_of_waiting`). The pass starts when the further location counters have been placed.
-/

namespace Assembler

/-! ## 1. Reports of undefined names -/

/-- Whether a diagnostic reports the name `n` as undefined. -/
def Diagnostic.reportsUndefined (n : Name) (d : Diagnostic) : Bool :=
  d.code = "E010" ∧ d.message = "Unknown ordinary symbol: " ++ n.text

namespace Diagnostic

variable {n : Name} {f : Fault} {location : Location}

theorem reportsUndefined_unresolved (m n : Name) (location : Location) :
    (ofFault (.unresolved "ordinary symbol" m.text) location).reportsUndefined n = decide (m = n) := by
  refine decide_eq_decide.mpr ⟨fun h => ?_, fun h => h ▸ ⟨rfl, rfl⟩⟩
  have htext : "Unknown ordinary symbol: " ++ m.text = "Unknown ordinary symbol: " ++ n.text := h.2
  rw [String.append_right_inj] at htext
  exact Name.eq_of_letters (String.ofList_injective htext)

theorem reportsUndefined_of_code_ne (h : f.code ≠ "E010") : (ofFault f location).reportsUndefined n = false :=
  decide_eq_false fun hboth => h hboth.1

/-- Computations find variable symbols undefined, but no names. -/
theorem reportsUndefined_of_isComputed (h : f.isComputed) : (ofFault f location).reportsUndefined n = false := by
  cases f with
  | unresolved kind name =>
    have hkind : kind = "variable symbol" := of_decide_eq_true h
    refine decide_eq_false fun hboth => ?_
    have htext : "Unknown " ++ kind ++ ": " ++ name = "Unknown ordinary symbol: " ++ n.text := hboth.2
    rw [hkind] at htext
    have hletters := congrArg String.toList htext
    simp at hletters
  | _ => exact reportsUndefined_of_code_ne (by simp [Fault.code])

theorem reportsUndefined_of_reports {st : Statement} (h : st.Reports f) :
    (ofFault f location).reportsUndefined n = false := by
  rcases h with h | ⟨-, kind, rfl⟩
  · exact reportsUndefined_of_isComputed h
  · exact reportsUndefined_of_code_ne (by simp [Fault.code])

end Diagnostic

namespace Assembly

variable {s t u : Assembly} {job : Job} {n : Name} {location : Location}

/-! ## 2. What is noted -/

/-- Whether more has been reported, in which a name occurs as undefined once for each time that it has been noted. -/
structure Notes (s t : Assembly) : Prop where
  settings : t.settings = s.settings
  diagnostics : ∃ more, t.diagnostics = s.diagnostics ++ more ∧
    ∀ n, more.countP (·.reportsUndefined n) + s.reported.count n = t.reported.count n
  nodup : s.reported.Nodup → t.reported.Nodup

theorem Notes.of_eq (hsettings : t.settings = s.settings) (hdiagnostics : t.diagnostics = s.diagnostics)
    (hreported : t.reported = s.reported) : s.Notes t where
  settings := hsettings
  diagnostics := ⟨[], by rw [hdiagnostics, List.append_nil], fun n => by rw [hreported, List.countP_nil, Nat.zero_add]⟩
  nodup h := hreported ▸ h

theorem Notes.refl (s : Assembly) : s.Notes s := .of_eq rfl rfl rfl

theorem Notes.trans (h : s.Notes t) (h' : t.Notes u) : s.Notes u := by
  obtain ⟨more, hmore, hcount⟩ := h.diagnostics
  obtain ⟨more', hmore', hcount'⟩ := h'.diagnostics
  refine ⟨h'.settings.trans h.settings, ⟨more ++ more', by rw [hmore', hmore, List.append_assoc], fun n => ?_⟩,
    h'.nodup ∘ h.nodup⟩
  rw [List.countP_append, ← hcount', ← hcount]
  omega

/-- What has been noted stays so. -/
theorem Notes.mem (h : s.Notes t) (hn : n ∈ s.reported) : n ∈ t.reported := by
  obtain ⟨more, -, hcount⟩ := h.diagnostics
  rw [← List.count_pos_iff] at hn ⊢
  rw [← hcount]
  omega

theorem notes_report {f : Fault} (h : ∀ n, (Diagnostic.ofFault f location).reportsUndefined n = false) :
    s.Notes (s.report f location) := by
  unfold report addDiagnostic
  split
  · exact .refl s
  · refine ⟨rfl, ⟨[.ofFault f location], rfl, fun n => ?_⟩, id⟩
    rw [List.countP_singleton, h, if_neg (by decide), Nat.zero_add]

theorem notes_establish (s : Assembly) (d : Definition) : s.Notes (s.establish d) :=
  .of_eq (s.steady_establish d).settings (s.diagnostics_establish d) (s.steady_establish d).reported

theorem Reports.notes {us : List (Name × Location)} (h : s.Reports t us) : s.Notes t := by
  refine ⟨h.settings, ⟨us.map undefinedReport, by rw [h.state], fun n => ?_⟩, h.nodup⟩
  have heach : (us.map undefinedReport).countP (·.reportsUndefined n) = (us.map Prod.fst).count n := by
    rw [List.count_eq_countP, List.countP_map, List.countP_map]
    refine List.countP_congr fun u _ => ?_
    simp [undefinedReport, Diagnostic.reportsUndefined_unresolved]
  rw [heach, h.state, List.count_append, Nat.add_comm]

theorem notes_explain (hroom : s.settings.maxDiagnostics = 0) (waiting : List Prerequisite) (location : Location) :
    s.Notes (s.explain waiting location).2 := by
  simp only [explain]
  split
  · exact notes_report fun n => Diagnostic.reportsUndefined_of_code_ne (by decide)
  · obtain ⟨us, hus⟩ := exists_reports_foldl hroom _ location
    exact hus.notes

/-- A job never finds a name undefined. -/
theorem isComputed_of_anchored {a : Spaces} (hjob : job.task.Anchored a) {d : Definition} {fault : Fault}
    (h : s.attempt job = .fallback d fault) : fault.isComputed := by
  rcases s.fault_attempt h with heval | ⟨n, e, rule, htask, rfl⟩ | ⟨_, _, _, _, -, rfl⟩
  · exact Fault.isComputed_of_isEvaluated heval
  · rw [htask] at hjob
    exact hjob
  · rfl

/-- So the report of what an attempt meets notes nothing. -/
theorem notes_fallback {a : Spaces} (hjob : job.task.Anchored a) {d : Definition} {fault : Fault}
    (h : s.attempt job = .fallback d fault) : s.Notes ((s.report fault job.frame.location).establish d) :=
  (notes_report fun _ => Diagnostic.reportsUndefined_of_isComputed (isComputed_of_anchored hjob h)).trans
    (notes_establish _ _)

theorem notes_settle {a : Spaces} (hjob : job.task.Anchored a) (id? : Option Nat) : s.Notes (s.settle id? job) := by
  unfold settle
  split
  · exact s.notes_establish _
  · exact notes_fallback hjob ‹_›
  · split
    · exact (notes_report fun n => Diagnostic.reportsUndefined_of_code_ne (by decide)).trans (notes_establish _ _)
    · cases id? <;> exact .of_eq rfl rfl rfl

theorem notes_conclude (hroom : s.settings.maxDiagnostics = 0) {a : Spaces} (hjob : job.task.Anchored a)
    (explained : Bool) : s.Notes (s.conclude explained job) := by
  unfold conclude
  dsimp only
  split
  · exact s.notes_establish _
  · exact notes_fallback hjob ‹_›
  · rename_i waiting _
    split
    · exact s.notes_establish _
    · have hexplain := notes_explain hroom waiting job.frame.location
      split
      · exact hexplain.trans (notes_establish _ _)
      · have hcyclic : ∀ n, (Diagnostic.ofFault .cyclic job.frame.location).reportsUndefined n = false := fun n =>
          Diagnostic.reportsUndefined_of_code_ne (by decide)
        exact (hexplain.trans (notes_report hcyclic)).trans (notes_establish _ _)

end Assembly

open Assembly

variable {m m' : Moment} {n : Name}

/-- While the assembly is completed, a name is noted when it is reported as undefined. -/
theorem Completion.notes (h : Completion m m') (ha : m.Anchored) (hroom : m.state.settings.maxDiagnostics = 0) :
    m.state.Notes m'.state := by
  have hhand (x) (hx : x ∈ m.hand) : x.2.task.Anchored m.state.layout.spaces := ha.jobs _ (.inl ⟨x, hx, rfl⟩)
  rcases h with h | h
  · cases h with
    | settle => exact notes_settle (hhand _ List.mem_cons_self) _
    | pick | skip | stall | resume => exact .of_eq rfl rfl rfl
  · cases h with
    | explain => exact notes_explain hroom _ _
    | conclude explained => exact notes_conclude hroom (hhand _ (List.mem_singleton_self _)) explained
    | place | close | choose | clear => exact .of_eq rfl rfl rfl

theorem Moment.Valid.notes_run (hv : m.Valid) (ha : m.Anchored) (hroom : m.state.settings.maxDiagnostics = 0)
    (h : Run Completion m m') : m.state.Notes m'.state := by
  refine (h.keeps (P := fun x => x.Valid ∧ x.Anchored ∧ m.state.Notes x.state) (fun a b hstep hx => ?_)
    ⟨hv, ha, .refl _⟩).2.2
  obtain ⟨hv, ha, hnotes⟩ := hx
  exact ⟨hv.step hstep.step, hv.anchored_completion hstep ha,
    hnotes.trans (hstep.notes ha (hnotes.settings ▸ hroom))⟩

/-! ## 3. Names without a symbol -/

namespace Assembly

variable {s : Assembly}

theorem get?_eq_none_of_misses {waiting : List Prerequisite} (h : s.Misses waiting n) : s.symbols.get? n = none := by
  obtain ⟨root, -, hname⟩ := h
  unfold reportable? at hname
  have habsent := (Option.filter_eq_some_iff.mp hname).2
  simpa [SymbolTable.contains] using habsent

theorem reported_conclude {explained : Bool} {job : Job} (hn : n ∈ (s.conclude explained job).reported) :
    n ∈ s.reported ∨ s.symbols.get? n = none := by
  unfold conclude at hn
  dsimp only at hn
  split at hn
  · rw [(steady_establish _ _).reported] at hn
    exact .inl hn
  · rw [(steady_establish _ _).reported, report, (steady_addDiagnostic _ _).reported] at hn
    exact .inl hn
  · rename_i waiting _
    split at hn
    · rw [(steady_establish _ _).reported] at hn
      exact .inl hn
    · have hexplain : n ∈ (s.explain waiting job.frame.location).2.reported := by
        rw [(steady_establish _ _).reported] at hn
        split at hn
        · exact hn
        · rw [report, (steady_addDiagnostic _ _).reported] at hn
          exact hn
      exact (mem_reported_explain.mp hexplain).imp id get?_eq_none_of_misses

end Assembly

/-- Only names without a symbol are reported as undefined. -/
theorem Completion.reported (h : Completion m m') (hn : n ∈ m'.state.reported) :
    n ∈ m.state.reported ∨ m.state.symbols.get? n = none := by
  rcases h with h | h
  · exact .inl (h.steady.reported ▸ hn)
  · cases h with
    | explain => exact (mem_reported_explain.mp hn).imp id get?_eq_none_of_misses
    | conclude => exact reported_conclude hn
    | place | close | choose | clear => exact .inl hn

/-- They never get one while the assembly is completed. -/
theorem reported_of_run (h : Run Completion m m') (hn : n ∈ m'.state.reported) :
    n ∈ m.state.reported ∨ m'.state.symbols.get? n = none := by
  refine h.keeps (P := fun x => n ∈ x.state.reported → n ∈ m.state.reported ∨ x.state.symbols.get? n = none)
    (fun a b hstep ih hn => ?_) .inl hn
  rcases hstep.reported hn with hn | hnone
  · exact (ih hn).imp id (Completion.get?_eq_none hstep)
  · exact .inr (Completion.get?_eq_none hstep hnone)

/-- Whether a prerequisite is the value of the symbol `n`, or its length, type, scale or integer attribute. -/
def Prerequisite.Concerns (n : Name) : Prerequisite → Prop
  | symbol m => m = n
  | attr m kind => m = n ∧ kind ∈ [AttributeKind.length, .type, .scale, .integer]
  | space _ => False

/-- Nothing pending produces what belongs to a name without a symbol, so work that waits for it misses that name. -/
theorem Moment.Valid.misses_of_waiting {s : Assembly} {hand : List (Option Nat × Job)} {phase : Phase}
    (hv : Valid ⟨s, hand, phase⟩) (hnone : s.symbols.get? n = none) {waiting : List Prerequisite}
    {key : Prerequisite} (hkey : key ∈ waiting) (hconcerns : key.Concerns n) : s.Misses waiting n := by
  have hunexpected : ¬ s.Expects key := by
    have hno (P : Symbol → Prop) : ¬ ∃ sym, s.symbols.get? n = some sym ∧ P sym := by
      rintro ⟨sym, hsym, -⟩
      cases hnone.symm.trans hsym
    cases key with
    | symbol m =>
      cases hconcerns
      exact hno _
    | attr m kind =>
      obtain ⟨rfl, -⟩ := hconcerns
      cases kind <;> first | exact hno _ | exact id
    | space => exact hconcerns.elim
  have hroot : s.pendings.waitingOf? key = none := by
    refine Option.eq_none_iff_forall_ne_some.mpr fun others hothers => ?_
    obtain ⟨id, p, hp, hproduct, -⟩ := hv.indexed.waitingOf?_eq_some.mp hothers
    exact hunexpected ((hv.entries id p hp).expected key hproduct)
  have hname : s.reportable? key = some n := by
    unfold reportable?
    have habsent : s.symbols.contains n = false := by simp [SymbolTable.contains, hnone]
    cases key with
    | symbol m =>
      cases hconcerns
      simp [habsent]
    | attr m kind =>
      obtain ⟨rfl, hkind⟩ := hconcerns
      have hne : kind ≠ .opcode := by
        rintro rfl
        simp at hkind
      simp [hne, habsent]
    | space => exact hconcerns.elim
  exact ⟨key, ⟨⟨key, hkey, .refl key⟩, hroot⟩, hname⟩

/-! ## 4. Statements -/

namespace Assembly

variable {s t u : Assembly} {jobs : List Job} {st : Statement}

theorem Launches.notes (h : s.Launches jobs u t) (hs : s.Ready) (ha : s.Anchored)
    (hjobs : ∀ job ∈ jobs, job.task.Anchored u.layout.spaces) (hroom : s.settings.maxDiagnostics = 0) :
    s.Notes t := by
  have hsettings : u.settings = s.settings := h.enter.grows.settings
  have henter : s.Notes u := .of_eq hsettings h.diagnostics h.enter.reported
  exact henter.trans ((hs.valid.progress h.enter).notes_run (h.anchored_enter ha hjobs) (hsettings ▸ hroom)
    (h.cascade.imp fun _ _ => .inl))

theorem Act.notes (h : Act st s t) (hs : s.Ready) (ha : s.Anchored) (hroom : s.settings.maxDiagnostics = 0) :
    s.Notes t := by
  rcases h.cases hs with ⟨fault, hreports, rfl⟩ | ⟨layout, job?, hopens, -, rfl⟩ |
    ⟨u, sym, jobs, hu, hsupplies, hanchored, rfl⟩
  · exact notes_report fun n => Diagnostic.reportsUndefined_of_reports hreports
  · exact hopens.launches.notes hs ha (fun job hjob => hopens.anchored job (Option.mem_toList.mp hjob)) hroom
  · obtain ⟨symbols, -, hlaunches⟩ := launches_supplies hsupplies hu
    have hearlier := (Step.progress hlaunches.enter).grows.earlier.spaces
    exact hlaunches.notes hs ha (fun job hjob => (hanchored job hjob).later hearlier) hroom

theorem Acts.notes (h : Acts st s t) (hs : s.Ready) (ha : s.Anchored) (hroom : s.settings.maxDiagnostics = 0) :
    s.Notes t := by
  induction h with
  | refl => exact .refl s
  | tail hacts hact ih =>
    exact ih.trans (hact.notes (Acts.ready hacts hs) (Acts.anchored hacts hs ha) (ih.settings ▸ hroom))

/-! ## 5. The end of the source -/

/-- Names are reported as undefined at the end of the source: none that has a symbol in the end, and all those that
pending work which produces something waits for when the further location counters have been placed. -/
theorem mem_reported_finish (hs : s.Ready) (ha : s.Anchored) (hf : s.finished = false)
    (hroom : s.settings.maxDiagnostics = 0) :
    let c := { s.placeCounters.drainAll with finished := true }
    s.finish.finished = true ∧
      (∀ n, n ∈ s.finish.reported → s.finish.symbols.contains n = false) ∧
      ∀ n id p key, c.pendings.get? id = some p → p.work.task.product?.isSome → key ∈ p.waiting → key.Concerns n →
        c.symbols.contains n = false → n ∈ s.finish.reported := by
  intro c
  obtain ⟨hexplain, u, hconclude, hdone, hnone, heq⟩ := exists_closing_of_explained hs hf
  have hstart : Run Completion ⟨s, [], .reading⟩ ⟨c, [], .closing⟩ :=
    ((Run.single (.inr (.place hf))).trans (s.run_placeCounters.imp fun _ _ => .inl)).tail
      (.inr (.close s.placeCounters.drainAll_done.1 s.placeCounters.drainAll_done.2))
  have hclear : Run Completion ⟨u, [], .closing⟩ ⟨s.finish, [], .reading⟩ :=
    heq ▸ .single (.inr (.clear hdone.1 hdone.2 hnone))
  have hv : Moment.Valid ⟨c, [], .closing⟩ := hstart.keeps (fun _ _ hstep hx => hx.step hstep.step) hs.valid
  have hexplained := hv.anchored_run hexplain (hs.valid.anchored_run hstart ha)
  have hve := hexplain.keeps (P := Moment.Valid) (fun _ _ hstep hx => hx.step hstep.step) hv
  have hsettings : c.explainAll.2.settings = s.settings :=
    ((hstart.trans hexplain).imp fun _ _ => Completion.step).grows.settings
  have hnotes := hve.notes_run hexplained (hsettings ▸ hroom) (hconclude.trans hclear)
  refine ⟨?_, fun n hn => ?_, fun n id p key hp hsome hkey hconcerns habsent => ?_⟩
  · exact (((hexplain.trans hconclude).trans hclear).imp fun _ _ => Completion.step).grows.finished rfl
  · rcases reported_of_run (run_finish hs).1 hn with hn | hno
    · rw [hs.unreported hf] at hn
      cases hn
    · simp [SymbolTable.contains, show s.finish.symbols.get? n = none from hno]
  · have hno : c.symbols.get? n = none := by simpa [SymbolTable.contains] using habsent
    refine hnotes.mem (mem_reported_explainAll.mpr (.inr ⟨id, p, hp, hsome, ?_⟩))
    exact hv.misses_of_waiting hno hkey hconcerns

end Assembly

/-! ## 6. Sessions -/

namespace Session

variable {s : Session}

theorem notes_perform (hs : s.assembly.Ready) (ha : s.assembly.Anchored)
    (hroom : s.assembly.settings.maxDiagnostics = 0) (c : Command) :
    s.assembly.Notes (s.perform c).assembly := by
  cases c with
  | process st => exact (acts_process hs st).notes hs ha hroom
  | defineMacro name origin =>
    let woken := { s.assembly with macros := s.assembly.macros.insert (Name.ofText name) origin }.wake
      (.attr (Name.ofText name) .opcode)
    have hwoken : Progress ⟨s.assembly, [], .reading⟩ ⟨woken, [], .reading⟩ := .defineMacro _ _
    have hkept : s.assembly.Notes woken := .of_eq rfl rfl hwoken.reported
    have hanchored : woken.Anchored := ha.later (t := woken) rfl (.refl _) fun _ hx => nomatch hx
    exact hkept.trans ((hs.valid.progress hwoken).notes_run hanchored hroom
      ((run_drain _ forall_mem_nil).imp fun _ _ => .inl))
  | finish => exact hs.valid.notes_run ha hroom (run_finish hs).1
  | defineVariable | requestAttribute | requestVariableAttribute => exact .of_eq rfl rfl rfl

/-- The diagnostics that a session hands over in the course of some operations, and those that are left then. -/
def emitted (s : Session) : List Operation → List Diagnostic
  | [] => s.assembly.diagnostics
  | .command c :: rest => (s.perform c).emitted rest
  | .takeDiagnostics :: rest => s.takeDiagnostics.1 ++ s.takeDiagnostics.2.emitted rest

/-- A name occurs as undefined once in the diagnostics for each time that it has been noted. -/
theorem countP_emitted (hs : s.assembly.Ready) (ha : s.assembly.Anchored)
    (hroom : s.assembly.settings.maxDiagnostics = 0) (operations : List Operation) (n : Name) :
    (s.emitted operations).countP (·.reportsUndefined n) + s.assembly.reported.count n =
      s.assembly.diagnostics.countP (·.reportsUndefined n) +
        (s.operateAll operations).assembly.reported.count n := by
  induction operations generalizing s with
  | nil => rfl
  | cons o rest ih =>
    have hready := (turns_operate hs o).2.1
    have hanchored := anchored_operate hs ha o
    cases o with
    | command c =>
      have hnotes := notes_perform hs ha hroom c
      obtain ⟨more, hmore, hcount⟩ := hnotes.diagnostics
      have hrest := ih (s := s.perform c) hready hanchored (hnotes.settings ▸ hroom)
      rw [hmore, List.countP_append, ← hcount] at hrest
      show ((s.perform c).emitted rest).countP _ + _ = _ + ((s.perform c).operateAll rest).assembly.reported.count n
      omega
    | takeDiagnostics =>
      have hrest := ih (s := s.takeDiagnostics.2) hready hanchored hroom
      have hnil : s.takeDiagnostics.2.assembly.diagnostics.countP (·.reportsUndefined n) = 0 := rfl
      have hkept : s.takeDiagnostics.2.assembly.reported = s.assembly.reported := rfl
      rw [hnil, hkept] at hrest
      show (s.assembly.diagnostics ++ s.takeDiagnostics.2.emitted rest).countP _ + _ =
        _ + (s.takeDiagnostics.2.operateAll rest).assembly.reported.count n
      rw [List.countP_append]
      omega

theorem nodup_reported_operateAll (hs : s.assembly.Ready) (ha : s.assembly.Anchored)
    (hroom : s.assembly.settings.maxDiagnostics = 0) (operations : List Operation)
    (h : s.assembly.reported.Nodup) : (s.operateAll operations).assembly.reported.Nodup := by
  induction operations generalizing s with
  | nil => exact h
  | cons o rest ih =>
    have hready := (turns_operate hs o).2.1
    have hanchored := anchored_operate hs ha o
    cases o with
    | command c =>
      have hnotes := notes_perform hs ha hroom c
      exact ih hready hanchored (hnotes.settings ▸ hroom) (hnotes.nodup h)
    | takeDiagnostics => exact ih hready hanchored hroom h

/-- After the end of the source nothing more is noted. -/
theorem reported_operateAll (hs : s.assembly.Ready) (hf : s.assembly.finished = true) (operations : List Operation) :
    (s.operateAll operations).assembly.reported = s.assembly.reported := by
  induction operations generalizing s with
  | nil => rfl
  | cons o rest ih =>
    have hready := (turns_operate hs o).2.1
    have hone : (s.operate o).assembly.finished = true ∧ (s.operate o).assembly.reported = s.assembly.reported := by
      cases o with
      | takeDiagnostics => exact ⟨hf, rfl⟩
      | command c =>
        by_cases hc : c = .finish
        · have hsame : (s.operate (.command c)).assembly = s.assembly := by
            rw [hc]
            exact if_pos hf
          rw [hsame]
          exact ⟨hf, rfl⟩
        · have hleads := leads_perform hs hc
          exact ⟨hleads.finished.trans hf, hleads.run.keeps (P := fun x => x.state.reported = s.assembly.reported)
            (fun _ _ hstep hx => hstep.reported.trans hx) rfl⟩
    exact (ih hready hone.1).trans hone.2

theorem finished_operateAll (hs : s.assembly.Ready) (hf : s.assembly.finished = false) {operations : List Operation}
    (hopen : .command .finish ∉ operations) : (s.operateAll operations).assembly.finished = false := by
  induction operations generalizing s with
  | nil => exact hf
  | cons o rest ih =>
    refine ih (turns_operate hs o).2.1 ?_ (List.not_mem_of_not_mem_cons hopen)
    cases o with
    | takeDiagnostics => exact hf
    | command c =>
      have hc : c ≠ .finish := by
        rintro rfl
        exact hopen List.mem_cons_self
      exact (leads_perform hs hc).finished.trans hf

/-- Undefined names are reported once and only if they are undefined. Without a limit no name is reported as undefined
twice. None is that has a symbol when the end of the source has been dealt with, and each one is that has none and that
pending work other than a check waits for when its pass starts, which is when the further location counters have been
placed. -/
theorem undefined_reported_once (settings : Settings) (hroom : settings.maxDiagnostics = 0) :
    (∀ operations n, ((new settings).emitted operations).countP (·.reportsUndefined n) ≤ 1) ∧
    ∀ before after, .command .finish ∉ before →
      let s := stateAfter settings before
      let c := { s.placeCounters.drainAll with finished := true }
      let reports n := ((new settings).emitted (before ++ .command .finish :: after)).countP (·.reportsUndefined n)
      (∀ n, s.finish.symbols.contains n → reports n = 0) ∧
      ∀ n id p key, c.pendings.get? id = some p → p.work.task.product?.isSome → key ∈ p.waiting → key.Concerns n →
        c.symbols.contains n = false → reports n = 1 := by
  have hcount : ∀ operations n, ((new settings).emitted operations).countP (·.reportsUndefined n) =
      (stateAfter settings operations).reported.count n := fun operations n => by
    have h := countP_emitted (s := new settings) (ready_new settings) (anchored_new settings) hroom operations n
    exact h.trans (Nat.zero_add _)
  have hnodup : ∀ operations, (stateAfter settings operations).reported.Nodup := fun operations =>
    nodup_reported_operateAll (s := new settings) (ready_new settings) (anchored_new settings) hroom operations .nil
  refine ⟨fun operations n => ?_, fun before after hopen => ?_⟩
  · rw [hcount]
    exact List.nodup_iff_count_le_one.mp (hnodup operations) n
  · intro s c reports
    have hs : s.Ready := ready_stateAfter settings before
    have hf : s.finished = false := finished_operateAll (s := new settings) (ready_new settings) rfl hopen
    have hsettings : s.settings = settings := (occurs_stateAfter settings before).settings_eq
    obtain ⟨hfinished, hdefined, hmissed⟩ :=
      mem_reported_finish hs (anchored_stateAfter settings before) hf (hsettings ▸ hroom)
    have hlast : (stateAfter settings (before ++ .command .finish :: after)).reported = s.finish.reported := by
      rw [stateAfter_append]
      exact reported_operateAll (s := ((new settings).operateAll before).finish) ((follows_finish hs).ready hs)
        hfinished after
    have hreports : ∀ n, reports n = s.finish.reported.count n := fun n => by rw [← hlast]; exact hcount _ n
    refine ⟨fun n hn => ?_, fun n id p key hp hsome hkey hconcerns habsent => ?_⟩
    · rw [hreports, List.count_eq_zero]
      intro hmem
      rw [hdefined n hmem] at hn
      cases hn
    · rw [hreports]
      exact List.count_eq_one_of_mem (hlast ▸ hnodup _) (hmissed n id p key hp hsome hkey hconcerns habsent)

/-- Storage waits for its length, a symbol that is never defined. -/
theorem undefined_reported_once_storage :
    ((new {}).emitted [.command (.process Awaiting.storage), .command .finish]).countP
      (·.reportsUndefined (.ofString "N")) = 1 := by
  have hs : stateAfter {} [.command (.process Awaiting.storage)] = Awaiting.waiting := Awaiting.process_storage
  have hplaced : Awaiting.waiting.placeCounters = Awaiting.waiting := rfl
  have hdrained : Awaiting.waiting.drainAll = Awaiting.waiting := drainAll_of_nil rfl rfl
  have honce := ((undefined_reported_once {} rfl).2 [.command (.process Awaiting.storage)] [] (by simp)).2
    (.ofString "N") 1 ⟨Awaiting.job, [.symbol (.ofString "N")]⟩ (.symbol (.ofString "N"))
  rw [hs, hplaced, hdrained] at honce
  exact honce rfl rfl List.mem_cons_self rfl rfl

end Session

end Assembler
