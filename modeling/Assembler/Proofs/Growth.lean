import Assembler.Proofs.Step
/-!
What steps never take back.

A cascade leaves everything alone that is not about the pending work and its results (`Cascade.steady`).
Whatever step is taken, only more becomes defined and reported (`Step.grows`).
-/

namespace Assembler

namespace Assembly

variable {s t u : Assembly}

/-! ## 1. What a cascade leaves alone -/

structure Steady (s t : Assembly) : Prop where
  settings : t.settings = s.settings
  variableValues : t.variableValues = s.variableValues
  macros : t.macros = s.macros
  finished : t.finished = s.finished
  reported : t.reported = s.reported
  counters : t.layout.counters = s.layout.counters
  layout : t.layout.sections = s.layout.sections ∧ t.layout.current? = s.layout.current? ∧
    t.layout.counterAlignment = s.layout.counterAlignment
  size : t.layout.spaces.size = s.layout.spaces.size

/-- What is pending, tried next or reported does not matter. -/
theorem steady_queue (s : Assembly) (diagnostics : List Diagnostic) (worklist stalled : List Nat)
    (pendings : PendingTable Job) : s.Steady { s with diagnostics, worklist, stalled, pendings } :=
  ⟨rfl, rfl, rfl, rfl, rfl, rfl, ⟨rfl, rfl, rfl⟩, rfl⟩

theorem Steady.refl (s : Assembly) : s.Steady s := s.steady_queue _ _ _ _

theorem Steady.trans (h : s.Steady t) (h' : t.Steady u) : s.Steady u where
  settings := h'.settings.trans h.settings
  variableValues := h'.variableValues.trans h.variableValues
  macros := h'.macros.trans h.macros
  finished := h'.finished.trans h.finished
  reported := h'.reported.trans h.reported
  counters := h'.counters.trans h.counters
  layout := ⟨h'.layout.1.trans h.layout.1, h'.layout.2.1.trans h.layout.2.1,
    h'.layout.2.2.trans h.layout.2.2⟩
  size := h'.size.trans h.size

theorem Keeps.steady (h : s.Keeps t) : s.Steady t :=
  ⟨h.settings, h.variableValues, h.macros, h.finished, h.reported, h.counters, h.layout, h.size⟩

theorem steady_wake (s : Assembly) (key : Prerequisite) : s.Steady (s.wake key) :=
  s.steady_queue _ _ _ _

theorem steady_foldl_wake (s : Assembly) (keys : List Prerequisite) :
    s.Steady (keys.foldl wake s) := by
  induction keys generalizing s with
  | nil => exact .refl s
  | cons key rest ih => exact (s.steady_wake key).trans (ih _)

theorem steady_addDiagnostic (s : Assembly) (d : Diagnostic) : s.Steady (s.addDiagnostic d) := by
  unfold addDiagnostic
  split <;> exact s.steady_queue _ _ _ _

theorem diagnostics_establish (s : Assembly) (d : Definition) :
    (s.establish d).diagnostics = s.diagnostics := by
  unfold establish
  split
  · rfl
  · rename_i t ht
    have hk := keeps_define? ht
    split <;> exact hk.diagnostics

theorem diagnostics_foldl_wake (s : Assembly) (keys : List Prerequisite) :
    (keys.foldl wake s).diagnostics = s.diagnostics := by
  induction keys generalizing s with
  | nil => rfl
  | cons key rest ih => exact ih (s.wake key)

theorem steady_establish (s : Assembly) (d : Definition) : s.Steady (s.establish d) := by
  unfold establish
  split
  · exact .refl s
  · rename_i t ht
    have hk := (keeps_define? ht).steady
    split
    · exact hk.trans (t.steady_wake _)
    · exact hk

theorem steady_postpone (s : Assembly) (id? : Option Nat) (job : Job)
    (waiting : List Prerequisite) : s.Steady (s.postpone id? job waiting) := by
  unfold postpone
  split <;> exact s.steady_queue _ _ _ _

theorem steady_settle (s : Assembly) (id? : Option Nat) (job : Job) :
    s.Steady (s.settle id? job) := by
  unfold settle
  split
  · exact s.steady_establish _
  · exact (s.steady_addDiagnostic _).trans (steady_establish _ _)
  · split
    · exact (s.steady_addDiagnostic _).trans (steady_establish _ _)
    · exact s.steady_postpone id? job _

end Assembly

theorem Cascade.steady {m m' : Moment} (h : Cascade m m') : m.state.Steady m'.state := by
  cases h with
  | settle => exact Assembly.steady_settle _ _ _
  | pick | skip | stall | resume => exact Assembly.steady_queue _ _ _ _ _

theorem Run.steady {m m' : Moment} (h : Run Cascade m m') : m.state.Steady m'.state :=
  h.keeps (P := fun x => m.state.Steady x.state) (fun _ _ hstep hx => hx.trans hstep.steady)
    (.refl _)

/-- Carrying out statements reports no name as undefined. -/
theorem Progress.reported {m m' : Moment} (h : Progress m m') : m'.state.reported = m.state.reported := by
  cases h with
  | report d => exact (Assembly.steady_addDiagnostic _ d).reported
  | @enter s _ sym symbols =>
    exact (Assembly.steady_foldl_wake { s with symbols } (Assembly.provided sym)).reported
  | arrange | check | defineMacro | defineVariable => rfl

theorem Advance.reported {m m' : Moment} (h : Advance m m') : m'.state.reported = m.state.reported := by
  cases h with
  | cascade h => exact h.steady.reported
  | progress h => exact h.reported

/-- Before the end of the source it is not reached. -/
theorem Advance.finished {m m' : Moment} (h : Advance m m') :
    m'.state.finished = m.state.finished := by
  cases h with
  | cascade h => exact h.steady.finished
  | progress h =>
    cases h with
    | report d => exact (Assembly.steady_addDiagnostic _ d).finished
    | @enter s _ sym symbols =>
      exact (Assembly.steady_foldl_wake { s with symbols } (Assembly.provided sym)).finished
    | arrange | check | defineMacro | defineVariable => rfl

namespace Assembly

variable {s t u : Assembly}

/-! ## 2. What becomes more -/

structure Grows (s t : Assembly) : Prop where
  earlier : s.Earlier t
  settings : t.settings = s.settings
  finished : s.finished → t.finished
  diagnostics : s.diagnostics <+: t.diagnostics
  /-- A name is reported as undefined by a diagnostic. -/
  logged : (s.reported ≠ [] → s.diagnostics ≠ []) → t.reported ≠ [] → t.diagnostics ≠ []
  /-- Without a limit no work is put aside. -/
  stalled : s.settings.maxSweeps = 0 → s.stalled = [] → t.stalled = []

theorem Grows.refl (s : Assembly) : s.Grows s where
  earlier := .refl s
  settings := rfl
  finished := id
  diagnostics := List.prefix_rfl
  logged := id
  stalled _ := id

theorem Grows.trans (h : s.Grows t) (h' : t.Grows u) : s.Grows u where
  earlier := h.earlier.trans h'.earlier
  settings := h'.settings.trans h.settings
  finished := h'.finished ∘ h.finished
  diagnostics := h.diagnostics.trans h'.diagnostics
  logged := h'.logged ∘ h.logged
  stalled hmax := h'.stalled (h.settings ▸ hmax) ∘ h.stalled hmax

theorem grows_addDiagnostic (s : Assembly) (d : Diagnostic) : s.Grows (s.addDiagnostic d) := by
  unfold addDiagnostic
  split
  · exact .refl s
  · exact {
      earlier := .of_eq rfl rfl rfl rfl
      settings := rfl
      finished := id
      diagnostics := List.prefix_append _ _
      logged := fun _ _ => List.append_ne_nil_of_right_ne_nil _ (List.cons_ne_nil _ _)
      stalled := fun _ => id }

/-- After a report there is some diagnostic, if not the one reported. -/
theorem diagnostics_addDiagnostic_ne_nil (s : Assembly) (d : Diagnostic) :
    (s.addDiagnostic d).diagnostics ≠ [] := by
  unfold addDiagnostic
  split
  · rename_i hfull
    have hpos : 0 < s.diagnostics.length := by omega
    exact List.ne_nil_of_length_pos hpos
  · exact List.append_ne_nil_of_right_ne_nil _ (List.cons_ne_nil _ _)

theorem diagnostics_report (hroom : s.settings.maxDiagnostics = 0) (f : Fault)
    (location : Location) :
    (s.report f location).diagnostics = s.diagnostics ++ [.ofFault f location] := by
  rw [report, addDiagnostic, if_neg (by omega)]

theorem grows_wake (s : Assembly) (key : Prerequisite) : s.Grows (s.wake key) where
  earlier := .of_eq rfl rfl rfl rfl
  settings := rfl
  finished := id
  diagnostics := List.prefix_rfl
  logged := id
  stalled _ := id

theorem grows_foldl_wake (s : Assembly) (keys : List Prerequisite) :
    s.Grows (keys.foldl wake s) := by
  induction keys generalizing s with
  | nil => exact .refl s
  | cons key rest ih => exact (s.grows_wake key).trans (ih _)

theorem grows_define? {d : Definition} (h : s.define? d = some t) : s.Grows t where
  earlier := earlier_define? h
  settings := (keeps_define? h).settings
  finished hf := (keeps_define? h).finished.trans hf
  diagnostics := ⟨[], (List.append_nil _).trans (keeps_define? h).diagnostics.symm⟩
  logged := by
    rw [(keeps_define? h).diagnostics, (keeps_define? h).reported]
    exact id
  stalled _ := by
    rw [(keeps_define? h).stalled]
    exact id

theorem grows_establish (s : Assembly) (d : Definition) : s.Grows (s.establish d) := by
  unfold establish
  split
  · exact .refl s
  · rename_i t ht
    have hg := grows_define? ht
    split
    · exact hg.trans (t.grows_wake _)
    · exact hg

theorem grows_pendings (s : Assembly) (u : PendingTable Job) : s.Grows { s with pendings := u } where
  earlier := .of_eq rfl rfl rfl rfl
  settings := rfl
  finished := id
  diagnostics := List.prefix_rfl
  logged := id
  stalled _ := id

theorem grows_settle (s : Assembly) (id? : Option Nat) (job : Job) :
    s.Grows (s.settle id? job) := by
  unfold settle
  split
  · exact s.grows_establish _
  · exact (s.grows_addDiagnostic _).trans (grows_establish _ _)
  · split
    · exact (s.grows_addDiagnostic _).trans (grows_establish _ _)
    · unfold postpone
      split <;> exact s.grows_pendings _

theorem grows_reportUndefined (s : Assembly) (n : Name) (location : Location) :
    s.Grows (s.reportUndefined n location) := by
  unfold reportUndefined
  split
  · exact .refl s
  · have hg := grows_addDiagnostic { s with reported := s.reported ++ [n] }
      (.ofFault (.unresolved "ordinary symbol" n.text) location)
    exact {
      earlier := ⟨hg.earlier.symbols, hg.earlier.spaces, hg.earlier.macros, hg.earlier.variableValues⟩
      settings := hg.settings
      finished := hg.finished
      diagnostics := hg.diagnostics
      logged := fun _ _ => diagnostics_addDiagnostic_ne_nil _ _
      stalled := hg.stalled }

theorem grows_foldl_reportUndefined (s : Assembly) (names : List Name) (location : Location) :
    s.Grows (names.foldl (fun s n => s.reportUndefined n location) s) := by
  induction names generalizing s with
  | nil => exact .refl s
  | cons n rest ih => exact (s.grows_reportUndefined n location).trans (ih _)

theorem grows_explain (s : Assembly) (waiting : List Prerequisite) (location : Location) :
    s.Grows (s.explain waiting location).2 := by
  simp only [explain]
  split
  · exact s.grows_addDiagnostic _
  · exact s.grows_foldl_reportUndefined _ _

/-- What is explained is reported. -/
theorem diagnostics_explain_ne_nil {waiting : List Prerequisite} {location : Location}
    (hlog : s.reported ≠ [] → s.diagnostics ≠ []) (h : (s.explain waiting location).1 = true) :
    (s.explain waiting location).2.diagnostics ≠ [] := by
  simp only [explain] at h ⊢
  split
  · exact diagnostics_addDiagnostic_ne_nil _ _
  · rename_i hroots
    rw [if_neg hroots] at h
    cases hnames : (s.pendings.missingRoots waiting).filterMap s.reportable? with
    | nil => simp [hnames] at h
    | cons n rest =>
      have hfirst : (s.reportUndefined n location).diagnostics ≠ [] := by
        unfold reportUndefined
        split
        · exact hlog (List.ne_nil_of_mem ‹_›)
        · exact diagnostics_addDiagnostic_ne_nil _ _
      obtain ⟨more, hmore⟩ := (grows_foldl_reportUndefined (s.reportUndefined n location) rest
        location).diagnostics
      show (rest.foldl _ (s.reportUndefined n location)).diagnostics ≠ []
      rw [← hmore]
      exact List.append_ne_nil_of_left_ne_nil hfirst _

theorem grows_conclude (s : Assembly) (explained : Bool) (job : Job) :
    s.Grows (s.conclude explained job) := by
  unfold conclude
  dsimp only
  split
  · exact s.grows_establish _
  · exact (s.grows_addDiagnostic _).trans (grows_establish _ _)
  · split
    · exact s.grows_establish _
    · have hg := s.grows_explain ‹_› job.frame.location
      split
      · exact hg.trans (grows_establish _ _)
      · exact (hg.trans (grows_addDiagnostic _ _)).trans (grows_establish _ _)

end Assembly

open Assembly

theorem Cascade.grows {m m' : Moment} (h : Cascade m m') : m.state.Grows m'.state := by
  have same : ∀ (s : Assembly) (worklist stalled : List Nat) (u : PendingTable Job),
      (s.settings.maxSweeps = 0 → s.stalled = [] → stalled = []) →
      s.Grows { s with worklist, stalled, pendings := u } := fun s _ _ _ hst => {
    earlier := .of_eq rfl rfl rfl rfl
    settings := rfl
    finished := id
    diagnostics := List.prefix_rfl
    logged := id
    stalled := hst }
  cases h with
  | settle => exact grows_settle _ _ _
  | pick => exact same _ _ _ _ fun _ => id
  | skip => exact same _ _ _ _ fun _ => id
  | stall hpos =>
    exact same _ _ _ _ fun hzero => absurd hpos (Nat.not_lt.mpr (Nat.le_of_eq hzero))
  | resume => exact same _ _ _ _ fun _ _ => rfl

theorem Progress.grows {m m' : Moment} (h : Progress m m') : m.state.Grows m'.state := by
  cases h with
  | report d => exact grows_addDiagnostic _ d
  | @arrange s _ _ _ ha =>
    exact ⟨⟨(Earlier.refl s).symbols, ha.grows.earlier, fun _ => id, fun _ => id⟩, rfl, id,
      List.prefix_rfl, id, fun _ => id⟩
  | @enter s _ sym symbols _ hsym =>
    refine Grows.trans ?_ (grows_foldl_wake _ _)
    obtain ⟨hnone, hget⟩ := SymbolTable.create?_eq_some hsym
    refine ⟨⟨fun n other hother => ⟨other, ?_, .refl other⟩, .refl _, fun _ => id, fun _ => id⟩,
      rfl, id, List.prefix_rfl, id, fun _ => id⟩
    show symbols.get? n = some other
    rw [hget, if_neg]
    · exact hother
    · rintro rfl
      rw [hnone] at hother
      cases hother
  | check => exact .refl _
  | @defineMacro s _ n origin =>
    refine ⟨⟨(Earlier.refl s).symbols, .refl _, fun m hm => ?_, fun _ => id⟩, rfl, id,
      List.prefix_rfl, id, fun _ => id⟩
    show ((s.macros.insert n origin)[m]?).isSome
    rw [Std.ExtTreeMap.getElem?_insert]
    split
    · rfl
    · exact hm
  | @defineVariable s _ n v =>
    refine ⟨⟨(Earlier.refl s).symbols, .refl _, fun _ => id, fun m hm => ?_⟩, rfl, id,
      List.prefix_rfl, id, fun _ => id⟩
    show ((s.variableValues.insert n v)[m]?).isSome
    rw [Std.ExtTreeMap.getElem?_insert]
    split
    · rfl
    · exact hm

theorem Ending.grows {m m' : Moment} (h : Ending m m') : m.state.Grows m'.state := by
  cases h with
  | place => exact .refl _
  | @close s =>
    exact ⟨.of_eq rfl rfl rfl rfl, rfl, fun _ => rfl,
      List.prefix_rfl, id, fun _ => id⟩
  | explain => exact grows_explain _ _ _
  | choose => exact grows_pendings _ _
  | conclude => exact grows_conclude _ _ _
  | clear => exact grows_pendings _ _

theorem Step.grows {m m' : Moment} (h : Step m m') : m.state.Grows m'.state := by
  cases h with
  | cascade h => exact h.grows
  | progress h => exact h.grows
  | ending h => exact h.grows

theorem Run.grows {m m' : Moment} (h : Run Step m m') : m.state.Grows m'.state :=
  h.keeps (P := fun x => m.state.Grows x.state) (fun _ _ hstep hx => hx.trans hstep.grows) (.refl _)

end Assembler
