import Assembler.Proofs.Anchor
import Assembler.Proofs.Rejection
/-!
Moves below the origin of a counter.

An ORG is reported as leaving its counter when it is carried out, or by one of two jobs: that of its space rejects a
target that depends on another counter, and a check finds the place below the origin. No other job makes such a report
(`Assembly.ne_outside_of_attempt`), so the reports on the place of the ORG have one of these causes
(`Trace.Covers.completion`, `Trace.Covers.acts`, `exists_covers_moveToTarget`). An ORG that in the end leads below the
origin is reported, and one that is reported leads below the origin or has had a target in another counter
(`Session.reported_of_leadsBelow`).
-/

namespace Assembler

open Assembly Moment

/-! ## 1. Jobs that leave their counter -/

/-- Whether trying a task may find that a place is outside of a counter. -/
def Task.mayLeave : Task → Bool
  | length _ _ rule => rule.fault = .outsideSection
  | space _ (.jump _ _ _ _) => true
  | check (.notBelow _ _ _ _) => true
  | _ => false

theorem Fault.ne_outside_of_isOperand {f : Fault} (h : f.isOperand) : f ≠ .outsideSection := by
  rintro rfl
  cases h

theorem Diagnostic.ofFault_eq_outside {f : Fault} {location place : Location}
    (h : Diagnostic.ofFault .outsideSection place = .ofFault f location) :
    f = .outsideSection ∧ location = place := by
  have hcode : Fault.outsideSection.code = f.code := congrArg Diagnostic.code h
  refine ⟨?_, (congrArg Diagnostic.location h).symm⟩
  cases f <;> simp [Fault.code] at hcode
  rfl

namespace Assembly

variable {s : Assembly} {job : Job} {d : Definition} {fault : Fault}

/-- Only the space of a move to a target may get its length from a place outside. -/
theorem operand_attemptSpace {k : SpaceId} {rule : SpaceRule} (h : (Task.space k rule).mayLeave = false) (f : Frame) :
    (s.attemptSpace k rule f).FaultsIn Fault.isOperand := by
  cases rule with
  | storage e => exact (s.operand_evaluateNumber e f).map _
  | padding position reference alignment => exact (Length.faultsIn_settled _).map _
  | jump => cases h
  | jumpToHighest candidates position => exact (Evaluation.faultsIn_ofExcept _).map _
  | counterStart candidates sectionStart alignment =>
    exact (Evaluation.faultsIn_ofExcept _).andThen fun _ => (Length.faultsIn_settled _).map _

/-- Other jobs find nothing outside of a counter. -/
theorem ne_outside_of_attempt (hjob : job.task.mayLeave = false) (h : s.attempt job = .fallback d fault) :
    fault ≠ .outsideSection := by
  unfold attempt at h
  split at h <;> rename_i htask
  · exact Fault.ne_outside_of_isOperand ((s.operand_evaluate _ _).map _ d fault h)
  · obtain ⟨k, hk⟩ := exists_of_map_eq_fallback h
    rcases s.fault_attemptLength _ _ _ hk with hoperand | rfl
    · exact Fault.ne_outside_of_isOperand hoperand
    · rw [htask] at hjob
      exact of_decide_eq_false hjob
  · exact Fault.ne_outside_of_isOperand ((s.operand_evaluateNumber _ _).map _ d fault h)
  · exact Fault.ne_outside_of_isOperand ((s.faultsIn_attemptInteger _ _).map _ d fault h)
  · rw [htask] at hjob
    exact Fault.ne_outside_of_isOperand ((operand_attemptSpace hjob _).map _ d fault h)
  · rename_i rule
    obtain ⟨u, hu⟩ := exists_of_map_eq_fallback h
    cases rule with
    | notBelow =>
      rw [htask] at hjob
      cases hjob
    | lengthInRange e type min max =>
      dsimp only [attemptCheck] at hu
      split at hu
      · cases hu
      · split at hu <;> cases hu
        exact Fault.noConfusion
      · cases hu

/-- The job of the space of a move finds the target in another section, or behind a space of another counter. -/
theorem exists_of_attempt_jump {k : SpaceId} {target : Expr} {position : Address} {boundary : Nat} {offset : Int32}
    {f : Frame} (h : s.attempt ⟨.space k (.jump target position boundary offset), f⟩ = .fallback d .outsideSection) :
    ∃ x, s.evaluate target f = .resolved (.relocatable x) ∧
      ¬ (x.bases = position.bases ∧ (s.layout.spaces.get? k).all (x.within s.layout.spaces ·.counter)) := by
  obtain ⟨length, hlength⟩ := exists_of_map_eq_fallback h
  rw [attemptSpace] at hlength
  cases htarget : s.attemptTarget k target position f with
  | resolved x =>
    rw [htarget] at hlength
    have hnone := (Evaluation.faultsIn_ofExcept (P := fun _ => false) (x.roundUp s.layout.spaces boundary)).map
      fun place => Length.between s.layout.spaces (place.addOffset offset) position
    cases hnone _ _ hlength
  | blocked waiting =>
    rw [htarget] at hlength
    cases hlength
  | fallback place fault =>
    rw [htarget] at hlength
    cases hlength
    rw [attemptTarget] at htarget
    cases heval : s.evaluate target f with
    | resolved v =>
      rw [heval] at htarget
      cases v with
      | absolute n => cases htarget
      | relocatable x =>
        refine ⟨x, rfl, fun hin => ?_⟩
        dsimp only [Evaluation.andThen] at htarget
        rw [if_pos hin] at htarget
        split at htarget <;> cases htarget
    | blocked waiting =>
      rw [heval] at htarget
      cases htarget
    | fallback v fault =>
      rw [heval] at htarget
      cases htarget
      exact absurd rfl (Fault.ne_outside_of_isOperand (s.operand_evaluate target f _ _ heval))

end Assembly

/-! ## 2. Reports and the jobs that make them -/

namespace Assembly

variable {s : Assembly} {job : Job} {fault : Fault} {location place : Location}

/-- A report adds itself at most. -/
theorem outside_of_report (h : .ofFault .outsideSection place ∈ (s.report fault location).diagnostics) :
    .ofFault .outsideSection place ∈ s.diagnostics ∨ fault = .outsideSection ∧ location = place := by
  unfold report addDiagnostic at h
  split at h
  · exact .inl h
  · refine (List.mem_append.mp h).imp_right fun hlast => ?_
    exact Diagnostic.ofFault_eq_outside (List.mem_singleton.mp hlast)

theorem outside_of_report_other (hfault : fault ≠ .outsideSection)
    (h : .ofFault .outsideSection place ∈ (s.report fault location).diagnostics) :
    .ofFault .outsideSection place ∈ s.diagnostics :=
  (outside_of_report h).resolve_right fun hsame => hfault hsame.1

theorem outside_of_explain {waiting : List Prerequisite}
    (h : .ofFault .outsideSection place ∈ (s.explain waiting location).2.diagnostics) :
    .ofFault .outsideSection place ∈ s.diagnostics := by
  have hname : ∀ (s : Assembly) (n : Name),
      .ofFault .outsideSection place ∈ (s.reportUndefined n location).diagnostics →
        .ofFault .outsideSection place ∈ s.diagnostics := fun s n h => by
    unfold reportUndefined at h
    split at h
    · exact h
    · exact outside_of_report_other (s := { s with reported := s.reported ++ [n] }) Fault.noConfusion h
  have hnames : ∀ (names : List Name) (s : Assembly),
      .ofFault .outsideSection place ∈
          (names.foldl (fun s n => s.reportUndefined n location) s).diagnostics →
        .ofFault .outsideSection place ∈ s.diagnostics := by
    intro names
    induction names with
    | nil => exact fun _ => id
    | cons n rest ih => exact fun s h => hname s n (ih _ h)
  simp only [explain] at h
  split at h
  · exact outside_of_report_other Fault.noConfusion h
  · exact hnames _ _ h

theorem outside_of_settle {id? : Option Nat}
    (h : .ofFault .outsideSection place ∈ (s.settle id? job).diagnostics) :
    .ofFault .outsideSection place ∈ s.diagnostics ∨
      job.frame.location = place ∧ ∃ d, s.attempt job = .fallback d .outsideSection := by
  unfold settle at h
  split at h
  · rw [diagnostics_establish] at h
    exact .inl h
  · rename_i d fault hattempt
    rw [diagnostics_establish] at h
    exact (outside_of_report h).imp_right fun ⟨hfault, hplace⟩ => ⟨hplace, d, hfault ▸ hattempt⟩
  · refine .inl ?_
    split at h
    · rw [diagnostics_establish] at h
      exact outside_of_report_other Fault.noConfusion h
    · cases id? <;> exact h

theorem outside_of_conclude {explained : Bool}
    (h : .ofFault .outsideSection place ∈ (s.conclude explained job).diagnostics) :
    .ofFault .outsideSection place ∈ s.diagnostics ∨
      job.frame.location = place ∧ ∃ d, s.attempt job = .fallback d .outsideSection := by
  unfold conclude at h
  dsimp only at h
  split at h
  · rw [diagnostics_establish] at h
    exact .inl h
  · rename_i d fault hattempt
    rw [diagnostics_establish] at h
    exact (outside_of_report h).imp_right fun ⟨hfault, hplace⟩ => ⟨hplace, d, hfault ▸ hattempt⟩
  · refine .inl ?_
    split at h
    · rw [diagnostics_establish] at h
      exact h
    · rw [diagnostics_establish] at h
      split at h
      · exact outside_of_explain h
      · exact outside_of_explain (outside_of_report_other Fault.noConfusion h)

end Assembly

/-- While an assembly is completed, only the job at hand reports that something is outside of its counter. -/
theorem Moment.Completion.outside_cases {m m' : Moment} {place : Location} (h : Completion m m')
    (hreport : .ofFault .outsideSection place ∈ m'.state.diagnostics) :
    .ofFault .outsideSection place ∈ m.state.diagnostics ∨ ∃ x ∈ m.hand, x.2.frame.location = place ∧
      ∃ d, m.state.attempt x.2 = .fallback d .outsideSection := by
  rcases h with h | h
  · cases h with
    | settle => exact (outside_of_settle hreport).imp_right fun hjob => ⟨_, List.mem_cons_self, hjob⟩
    | pick | skip | stall | resume => exact .inl hreport
  · cases h with
    | explain => exact .inl (outside_of_explain hreport)
    | conclude =>
      exact (outside_of_conclude hreport).imp_right fun hjob => ⟨_, List.mem_singleton_self _, hjob⟩
    | place | close | choose | clear => exact .inl hreport

/-! ## 3. What the reports are traced to -/

/-- What is known about the reports at a place that something is outside of its counter: since when the target of the
ORG at this place is looked at, the jobs that may make such a report, and what it takes that one is made. -/
structure Trace where
  start : Moment
  target : Expr
  place : Location
  suspects : Job → Prop
  cause : Moment → Prop

namespace Trace

variable {t : Trace} {m m' : Moment}

/-- Whether a moment is one of those that are looked at. After the end of the source all attributes that the target
asks for are known. -/
structure Since (t : Trace) (m : Moment) : Prop where
  run : Run Step t.start m
  valid : m.Valid
  informed : m.state.finished → m.state.Informs t.target

theorem Since.start (hv : t.start.Valid) (hopen : t.start.state.finished = false) : t.Since t.start where
  run := .refl _
  valid := hv
  informed hfinished := by
    rw [hopen] at hfinished
    cases hfinished

theorem Since.step (h : t.Since m) (hstep : Step m m') (hopen : m'.state.finished = false) : t.Since m' where
  run := h.run.tail hstep
  valid := h.valid.step hstep
  informed hfinished := by
    rw [hopen] at hfinished
    cases hfinished

/-- What a target with a value asks for is known. -/
theorem Since.informs (h : t.Since m) (he : t.target.isPlain) {f : Frame}
    {v : Value} (hv : m.state.evaluate t.target f = .resolved v) : m.state.Informs t.target := by
  cases hf : m.state.finished with
  | true => exact h.informed hf
  | false => exact informs_of_evaluate h.valid.wellFormed.named hf he (Evaluation.not_isBlocked_of_resolved hv)

/-- Whether the suspected jobs report nothing without the cause, which stays one. -/
structure Sound (t : Trace) : Prop where
  keep : ∀ a b, t.Since a → t.Since b → Step a b → t.cause a → t.cause b
  find : ∀ a, t.Since a → ∀ job, t.suspects job → ∀ d, a.state.attempt job = .fallback d .outsideSection →
    t.cause a

/-- Whether all reports at the place have the cause so far, and no jobs but the suspected ones may make another. -/
structure Covers (t : Trace) (m : Moment) : Prop where
  since : t.Since m
  jobs : ∀ job, m.Carries job → (job.frame.location = t.place → job.task.mayLeave = false) ∨ t.suspects job
  reports : .ofFault .outsideSection t.place ∈ m.state.diagnostics → t.cause m

/-- While an assembly is completed, all reports have the cause. -/
theorem Covers.completion (h : t.Covers m) (hsound : t.Sound) (hstep : Completion m m') (hsince : t.Since m') :
    t.Covers m' where
  since := hsince
  jobs job hc := by
    rcases Completion.carries hstep hc with hc | ⟨p, -, rfl⟩
    · exact h.jobs job hc
    · exact .inl fun _ => rfl
  reports hreport := by
    refine hsound.keep m m' h.since hsince hstep.step ?_
    rcases Completion.outside_cases hstep hreport with hold | ⟨x, hx, hplace, d, hattempt⟩
    · exact h.reports hold
    · rcases h.jobs x.2 (.inl ⟨x, hx, rfl⟩) with hno | hsuspect
      · exact absurd rfl (ne_outside_of_attempt (hno hplace) hattempt)
      · exact hsound.find m h.since x.2 hsuspect d hattempt

theorem Covers.cascade (h : t.Covers m) (hsound : t.Sound) (hopen : m.state.finished = false)
    (hrun : Run Cascade m m') : t.Covers m' := by
  induction hrun with
  | refl => exact h
  | tail hrun hstep ih =>
    refine ih.completion hsound (.inl hstep) (ih.since.step (.cascade hstep) ?_)
    exact hstep.steady.finished.trans (hrun.steady.finished.trans hopen)

end Trace

/-! ### Statements -/

namespace Trace

variable {t : Trace} {s u v : Assembly} {jobs : List Job} {st : Statement}

theorem Covers.report (h : t.Covers ⟨s, [], .reading⟩) (hsound : t.Sound) (hopen : s.finished = false) {fault : Fault}
    (hfault : fault ≠ .cyclic) {location : Location}
    (hcause : fault = .outsideSection → location = t.place → t.cause ⟨s, [], .reading⟩) :
    t.Covers ⟨s.report fault location, [], .reading⟩ := by
  have halike := s.alike_report fault location
  have hstep : Step ⟨s, [], .reading⟩ ⟨s.report fault location, [], .reading⟩ :=
    .progress (.report _ fun heq => hfault (Fault.code_eq_cyclic.mp heq))
  have hsince := h.since.step hstep (halike.finished.trans hopen)
  refine ⟨hsince, fun job hc => h.jobs job (hc.of_subset halike.pendings (List.Subset.refl _)), fun hreport => ?_⟩
  refine hsound.keep _ _ h.since hsince hstep ?_
  rcases outside_of_report hreport with hold | ⟨hfault, hplace⟩
  · exact h.reports hold
  · exact hcause hfault hplace

/-- Jobs come to hand, and a cascade follows. -/
theorem Covers.launches (h : t.Covers ⟨s, [], .reading⟩) (hsound : t.Sound) (hopen : s.finished = false)
    (hl : s.Launches jobs u v)
    (hjobs : ∀ job ∈ jobs, (job.frame.location = t.place → job.task.mayLeave = false) ∨ t.suspects job) :
    t.Covers ⟨v, [], .reading⟩ := by
  have hunfinished : u.finished = false := (Advance.finished (.progress hl.enter)).trans hopen
  have hsince := h.since.step (.progress hl.enter) hunfinished
  refine Covers.cascade ⟨hsince, fun job hc => ?_, fun hreport => ?_⟩ hsound hunfinished hl.cascade
  · rcases hc with ⟨x, hx, rfl⟩ | ⟨id, p, hp, rfl⟩
    · obtain ⟨job, hjob, rfl⟩ := List.mem_map.mp hx
      exact hjobs job hjob
    · exact h.jobs p.work (.inr ⟨id, p, hl.pendings ▸ hp, rfl⟩)
  · refine hsound.keep _ _ h.since hsince (.progress hl.enter) (h.reports ?_)
    rw [← hl.diagnostics]
    exact hreport

/-- A change of the layout without a job brings nothing that is suspected. -/
theorem Covers.arrange (h : t.Covers ⟨s, [], .reading⟩) (hsound : t.Sound) (hopen : s.finished = false)
    {layout : Layout} (ha : s.layout.Arranges layout none) : t.Covers ⟨{ s with layout }, [], .reading⟩ :=
  h.launches hsound hopen (launches_arrange ha) fun _ hjob => absurd hjob List.not_mem_nil

/-- What a statement at another place does has nothing to do with these reports, piece by piece. -/
theorem Covers.act (h : t.Covers ⟨s, [], .reading⟩) (hsound : t.Sound) (hopen : s.finished = false) (hs : s.Ready)
    (hact : Act st s v) (hplace : st.location ≠ t.place) : t.Covers ⟨v, [], .reading⟩ := by
  rcases hact.cases hs with ⟨fault, hfault, rfl⟩ | ⟨layout, job?, hopens, hlocation, rfl⟩ |
    ⟨u, sym, jobs, hu, hsupplies, -, rfl⟩
  · exact h.report hsound hopen hfault.ne_cyclic fun _ hsame => absurd hsame hplace
  · refine h.launches hsound hopen hopens.launches fun job hjob => .inl fun hsame => ?_
    exact absurd ((hlocation job (Option.mem_toList.mp hjob)).symm.trans hsame) hplace
  · obtain ⟨symbols, -, hlaunch⟩ := launches_supplies hsupplies hu
    refine h.launches hsound hopen hlaunch fun job hjob => .inl fun hsame => ?_
    exact absurd ((hsupplies.locations job hjob).symm.trans hsame) hplace

theorem Covers.acts (h : t.Covers ⟨s, [], .reading⟩) (hsound : t.Sound) (hopen : s.finished = false) (hs : s.Ready)
    (hacts : Acts st s v) (hplace : st.location ≠ t.place) : t.Covers ⟨v, [], .reading⟩ := by
  induction hacts with
  | refl => exact h
  | tail hacts hact ih =>
    exact ih.act hsound ((Acts.leads hacts).finished.trans hopen) (Acts.ready hacts hs) hact hplace

theorem Covers.statements {s : Session} (h : t.Covers ⟨s.assembly, [], .reading⟩) (hsound : t.Sound)
    (hopen : s.assembly.finished = false) (hs : s.assembly.Ready) (statements : List Statement)
    (hplace : ∀ st ∈ statements, st.location ≠ t.place) :
    t.Covers ⟨(s.performAll (statements.map .process)).assembly, [], .reading⟩ := by
  induction statements generalizing s with
  | nil => exact h
  | cons st rest ih =>
    have hacts := acts_process hs st
    have hnext : t.Covers ⟨(s.perform (.process st)).assembly, [], .reading⟩ :=
      h.acts hsound hopen hs hacts (hplace st List.mem_cons_self)
    exact @ih (s.perform (.process st)) hnext (hacts.leads.finished.trans hopen) (hacts.ready hs)
      fun other hother => hplace other (List.mem_cons_of_mem _ hother)

/-- At the end of the source, too. -/
theorem Covers.finish (h : t.Covers ⟨s, [], .reading⟩) (hsound : t.Sound) (hopen : s.finished = false) (hs : s.Ready)
    (hin : s.placeCounters.drainAll.Informs t.target) : t.Covers ⟨s.finish, [], .reading⟩ := by
  have hdone := s.placeCounters.drainAll_done
  have hplace : Completion ⟨s, [], .reading⟩ _ := .inr (.place hopen)
  have hplaced := (h.completion hsound hplace (h.since.step hplace.step hopen)).cascade hsound hopen
    s.run_placeCounters
  have hclose : Completion ⟨s.placeCounters.drainAll, [], .placing⟩
      ⟨{ s.placeCounters.drainAll with finished := true }, [], .closing⟩ := .inr (.close hdone.1 hdone.2)
  have hin := hin.later hclose.step.grows.earlier
  have hclosed := hplaced.completion hsound hclose
    ⟨hplaced.since.run.tail hclose.step, hplaced.since.valid.step hclose.step, fun _ => hin⟩
  obtain ⟨u, hrun, hudone, hnone, heq⟩ := exists_closing_of_placed hs hopen
  -- From the end of the source on the attributes are known.
  have later : ∀ {a b : Moment}, t.Covers a ∧ a.state.Informs t.target → Completion a b →
      t.Covers b ∧ b.state.Informs t.target := fun ⟨hcovers, hinforms⟩ hstep => by
    have hinforms := hinforms.later hstep.step.grows.earlier
    exact ⟨hcovers.completion hsound hstep
      ⟨hcovers.since.run.tail hstep.step, hcovers.since.valid.step hstep.step, fun _ => hinforms⟩, hinforms⟩
  have hlast := hrun.keeps (P := fun m => t.Covers m ∧ m.state.Informs t.target) (fun _ _ hstep h => later h hstep)
    ⟨hclosed, hin⟩
  rw [heq]
  exact (later hlast (.inr (.clear hudone.1 hudone.2 hnone))).1

end Trace

/-! ## 4. Moves -/

/-- A move of a counter to a target. -/
structure Move where
  counter : CounterId
  origin : Address
  position : Address
  target : Expr
  boundary : Nat
  offset : Int32
  frame : Frame

namespace Move

variable (mv : Move)

def check : CheckRule := .notBelow mv.origin mv.target mv.boundary mv.offset

/-- Whether, on a way from one moment to another, the target lies in another section or behind an open space of another
counter. -/
def Strays (m m' : Moment) : Prop :=
  ∃ b x, Run Step m b ∧ Run Step b m' ∧ b.state.Informs mv.target ∧
    b.state.evaluate mv.target mv.frame = .resolved (.relocatable x) ∧
      ¬ (x.bases = mv.position.bases ∧ x.within b.state.layout.spaces mv.counter)

/-- The reports at the move come from its check or its space, and are made if the check fails or the target strays. -/
def trace (m₀ m₁ : Moment) : Trace where
  start := m₁
  target := mv.target
  place := mv.frame.location
  suspects job := job = ⟨.check mv.check, mv.frame⟩ ∨ ∃ k, m₁.state.layout.spaces.counter? k = some mv.counter ∧
    job = ⟨.space k (.jump mv.target mv.position mv.boundary mv.offset), mv.frame⟩
  cause m := (m.state.Informs mv.target ∧ m.state.Fails mv.check mv.frame .outsideSection) ∨ mv.Strays m₀ m

variable {mv} {m₀ m₁ m m' : Moment}

theorem Strays.run (h : mv.Strays m₀ m) (hrun : Run Step m m') : mv.Strays m₀ m' := by
  obtain ⟨b, x, hto, hfrom, hx⟩ := h
  exact ⟨b, x, hto, hfrom.trans hrun, hx⟩

theorem sound_trace (mv : Move) (hstart : Run Step m₀ m₁) (he : mv.target.isPlain) : (mv.trace m₀ m₁).Sound where
  keep a b ha hb hstep hcause := by
    rcases hcause with ⟨hknown, hfails⟩ | hstrays
    · have hplain : mv.check.expr.isPlain := he
      have hsame : b.state.attemptCheck mv.check mv.frame = a.state.attemptCheck mv.check mv.frame :=
        (attemptCheck_later hstep.grows.earlier ha.valid.wellFormed.acyclic hb.valid.wellFormed.acyclic hplain
          hknown).resolve_left hfails.not_isBlocked
      exact .inl ⟨hknown.later hstep.grows.earlier, hsame.trans hfails⟩
    · exact .inr (hstrays.run (.single hstep))
  find a ha job hsuspect d hattempt := by
    rcases hsuspect with rfl | ⟨k, hk, rfl⟩
    · obtain ⟨u, hu⟩ := exists_of_map_eq_fallback hattempt
      obtain ⟨v, hv⟩ := exists_of_attemptCheck_eq_fallback (show a.state.attemptCheck mv.check mv.frame = _ from hu)
      exact .inl ⟨ha.informs he hv, hu⟩
    · obtain ⟨x, hx, hout⟩ := exists_of_attempt_jump hattempt
      refine .inr ⟨a, x, hstart.trans ha.run, .refl a, ha.informs he hx, hx, fun ⟨hbases, hwithin⟩ => ?_⟩
      obtain ⟨space, hspace, hcounter⟩ := Option.map_eq_some_iff.mp (ha.run.grows.earlier.spaces.counter? hk)
      rw [hspace, Option.all_some, hcounter] at hout
      exact hout ⟨hbases, hwithin⟩

end Move

/-! ## 5. An ORG is carried out -/

namespace Layout

variable {l : Layout} {id : CounterId}

/-- A jump passes a space of the counter in use. -/
theorem Formed.jump (h : l.Formed) (hid : l.current? = some id) (kind : SpaceKind) :
    (l.jump kind).2.spaces.counter? (l.jump kind).1 = some id ∧
      (l.jump kind).2.position = l.position.addSpace (l.jump kind).1 1 := by
  obtain ⟨c, hc⟩ := h.exists_current
  rw [ensureSection_of_current? hid] at hc
  have hmarked : (l.modifyCurrent (·.mark l.spaces)).current? = some id := (spaces_modifyCurrent l _).2.trans hid
  have hsection := ensureSection_of_current? hmarked
  have hcurrent : (l.modifyCurrent (·.mark l.spaces)).ensureSection.current = some (c.mark l.spaces) := by
    rw [hsection, current_modifyCurrent, hc]
    rfl
  unfold Layout.jump
  dsimp only
  rw [ensureSection_of_current? hid]
  refine ⟨?_, ?_⟩
  · rw [passSpace_eq _ kind .any (hsection.symm ▸ hmarked), (spaces_modifyCurrent _ _).1]
    exact Spaces.counter?_create _ kind id _
  · -- The mark that is kept leaves the position as it is.
    rw [position_of_current (current_passSpace hcurrent kind .any), position_of_current hc,
      ← position_mark c l.spaces]
    rfl

theorem Ordered.bases_position {taken : Name → Address → Prop} (h : l.Ordered taken) :
    l.position.bases = l.origin.bases := by
  cases hc : l.current with
  | none =>
    rw [position, origin, hc]
    rfl
  | some c =>
    have hhomed := h.current hc
    rw [position_of_current hc, origin_of_current hc, hhomed.position, hhomed.origin]

end Layout

namespace Assembly

variable {s t u : Assembly} {st : Statement} {id : CounterId} {f : Frame} {target : Expr} {boundary : Nat}
  {offset : Int32}

theorem Stills.fills (h : Stills st s t) (hid : s.layout.current? = some id) : s.layout.Fills t.layout := by
  induction h with
  | refl => exact .refl _
  | tail _ hstill ih =>
    rcases hstill.fills with hfill | heq
    · exact ih.trans hfill
    · rw [heq, Layout.ensureSection_of_current? (ih.current?.trans hid)]
      exact ih

/-- An ORG begins with a section, if there is none, and leaves the counters where they are until it moves. -/
theorem fills_enterOrg (hs : s.Ready) (st : Statement) (operands : List (Option Expr)) :
    s.layout.ensureSection.Fills ((s.enterOrg st).frameFor st operands).2.layout := by
  obtain ⟨id, hid⟩ := s.layout.exists_current_ensureSection
  have hsection : (s.mapLayout Layout.ensureSection).enterOrg st = s.enterOrg st := by
    unfold enterOrg
    rw [show (s.mapLayout Layout.ensureSection).mapLayout Layout.ensureSection = s.mapLayout Layout.ensureSection from
      congrArg (fun layout => { s with layout }) (Layout.ensureSection_of_current? hid)]
  have hstill : Still st s (s.mapLayout Layout.ensureSection) := .ensure
  have hready := hstill.leads.ready hs
  have henter := stills_enterOrg hready st
  rw [hsection] at henter
  exact (henter.trans (stills_frameFor (henter.leads.ready hready) st operands).1.labelled).fills hid

/-- Whether an ORG has got to the state `u` when it moves to its target. -/
structure Prepares (s : Assembly) (st : Statement) (target : Expr) (boundary : Nat) (offset : Int32) (f : Frame)
    (u : Assembly) : Prop where
  entered : u = s.enterOrg st
  leads : s.Leads u
  fills : s.layout.ensureSection.Fills u.layout
  inScope : f.Scoped u.layout.spaces
  location : f.location = st.location
  process : s.process st = u.moveToTarget target boundary offset f
  rest : u.Leads (s.process st)

theorem prepares_org (hs : s.Ready) {boundary? offset? : Option Expr}
    (hop : st.operation = .org (.place (some target) boundary? offset?)) :
    let r := (s.enterOrg st).frameFor st [some target, boundary?, offset?]
    r.2.orgBoundary? boundary? r.1 = some boundary → r.2.orgOffset? offset? r.1 = some offset →
      s.Prepares st target boundary offset r.1 r.2 := by
  intro r hboundary hoffset
  have henter := stills_enterOrg hs st
  obtain ⟨hframe, hscope⟩ := stills_frameFor (henter.leads.ready hs) st [some target, boundary?, offset?]
  have hlead := (henter.trans hframe.labelled).leads
  have hprocess : s.process st = r.2.moveToTarget target boundary offset r.1 := by
    rw [Assembly.process, hop]
    dsimp only
    rw [processOrg_place]
    unfold moveToOperands
    dsimp only
    rw [show _ = some boundary from hboundary]
    dsimp only
    rw [show _ = some offset from hoffset]
  refine ⟨s.frameFor_enterOrg st _, hlead, fills_enterOrg hs st _, hscope, location_frameFor _ st _, hprocess, ?_⟩
  rw [hprocess]
  exact (acts_moveToTarget (hlead.ready hs) target boundary offset hscope ⟨_, hop⟩ (location_frameFor _ st _)).leads

theorem Prepares.exists_current (h : s.Prepares st target boundary offset f u) : ∃ id, u.layout.current? = some id := by
  obtain ⟨id, hid⟩ := s.layout.exists_current_ensureSection
  exact ⟨id, h.fills.current?.trans hid⟩

theorem Prepares.bases_position (h : s.Prepares st target boundary offset f u) {taken : Name → Address → Prop}
    (ho : s.layout.Ordered taken) : u.layout.position.bases = u.layout.origin.bases :=
  (ho.ensureSection.fills h.fills).bases_position

/-- The move of the counter in use. -/
def currentMove (s : Assembly) (id : CounterId) (target : Expr) (boundary : Nat) (offset : Int32) (f : Frame) : Move :=
  ⟨id, s.layout.origin, s.layout.position, target, boundary, offset, f⟩

/-- Whether a move may start: nothing at its place has been reported or will be. -/
structure Unsuspected (s : Assembly) (place : Location) : Prop where
  reports : .ofFault .outsideSection place ∉ s.diagnostics
  jobs : ∀ job, Carries ⟨s, [], .reading⟩ job → job.frame.location = place → job.task.mayLeave = false

theorem launches_checkNotBelow (origin : Address) (target : Expr) (boundary : Nat) (offset : Int32)
    (hf : f.Scoped s.layout.spaces) :
    s.Launches [⟨.check (.notBelow origin target boundary offset), f⟩] s
      (s.checkNotBelow origin target boundary offset f) := launches_check rfl ⟨hf, trivial⟩

/-- A target that is not known yet brings about a space and a check, and they are all that is suspected. -/
theorem exists_covers_jumpToTarget (hs : s.Ready) (hf : f.Scoped s.layout.spaces) (hopen : s.finished = false)
    (hid : s.layout.current? = some id) (he : target.isPlain) (hclear : s.Unsuspected f.location) (boundary : Nat)
    (offset : Int32) :
    ∃ m₁, Run Step ⟨s, [], .reading⟩ m₁ ∧
      ((s.currentMove id target boundary offset f).trace ⟨s, [], .reading⟩ m₁).Covers
        ⟨s.jumpToTarget target boundary offset f, [], .reading⟩ := by
  obtain ⟨hcounter, -⟩ := hs.valid.formed.jump hid .jump
  have harranges := @Layout.arranges_jump s.layout (.jump target s.layout.position boundary offset)
    hs.valid.formed.liesIn_position f hf
  have hlaunch := launches_arrange (s := s) harranges
  have hstart : Run Step ⟨s, [], .reading⟩ _ := .single (.progress hlaunch.enter)
  have hsound := (s.currentMove id target boundary offset f).sound_trace hstart he
  refine ⟨_, hstart, ?_⟩
  have hjump : ((s.currentMove id target boundary offset f).trace ⟨s, [], .reading⟩ _).Covers _ :=
    Trace.Covers.cascade ⟨.start (hs.valid.progress hlaunch.enter) hopen, fun job hc => ?_,
      fun hreport => absurd hreport hclear.reports⟩ hsound hopen hlaunch.cascade
  · have hcheck := launches_checkNotBelow s.layout.origin target boundary offset
      (hf.later (leads_arrange harranges).earlier)
    exact hjump.launches hsound (hlaunch.finished.trans hopen) hcheck fun job hjob =>
      .inr (.inl (List.mem_singleton.mp hjob))
  · rcases hc with ⟨x, hx, rfl⟩ | hp
    · rw [List.mem_singleton.mp hx]
      exact .inr (.inr ⟨_, hcounter, rfl⟩)
    · exact .inl (hclear.jobs job (.inr hp))

/-- A place that is known is reported if it is below the origin. Otherwise the counter is moved there, with a check as
long as the place is known up to open spaces only. -/
theorem covers_moveToPlace (hs : s.Ready) (hf : f.Scoped s.layout.spaces) (hopen : s.finished = false)
    (he : target.isPlain) {mv : Move} (hmv : mv = s.currentMove id target boundary offset f) {a place : Address}
    (heval : s.evaluate target f = .resolved (.relocatable a)) (hbases : a.bases = s.layout.origin.bases)
    (hup : a.roundUp s.layout.spaces boundary = .ok place)
    (h : (mv.trace ⟨s, [], .reading⟩ ⟨s, [], .reading⟩).Covers ⟨s, [], .reading⟩) :
    (mv.trace ⟨s, [], .reading⟩ ⟨s, [], .reading⟩).Covers
      ⟨s.moveToPlace (place.addOffset offset) target boundary offset f, [], .reading⟩ := by
  subst hmv
  have hwf := hs.valid.wellFormed
  have hsound := (s.currentMove id target boundary offset f).sound_trace (.refl ⟨s, [], .reading⟩) he
  have hlies : a.LiesIn s.layout.spaces := liesIn_evaluate hwf.inScope hf (e := target) (v := .relocatable a)
    (by rw [heval]; rfl)
  have hround := hlies.roundUp hwf.inScope.closed hup
  have hplace : (place.addOffset offset).LiesIn s.layout.spaces := hround
  unfold moveToPlace
  dsimp only
  split_ifs with hclosed hbelow
  · refine h.report hsound hopen Fault.noConfusion fun _ _ => .inl ⟨h.since.informs he heval, ?_⟩
    have hgap : Length.between s.layout.spaces (place.addOffset offset) s.layout.origin =
        ⟨((place.addOffset offset - s.layout.origin).normalize s.layout.spaces).offset, []⟩ :=
      congrArg (Length.mk _) (List.isEmpty_iff.mp hclosed)
    exact fails_iff_leadsBelow.mpr ⟨a, place, _, heval, hbases, hup, hgap, hbelow⟩
  · exact h.arrange hsound hopen (Layout.arranges_moveTo _ hplace)
  · have hcheck := h.launches hsound hopen (launches_checkNotBelow s.layout.origin target boundary offset hf)
      fun job hjob => .inr (.inl (List.mem_singleton.mp hjob))
    have hleads := s.leads_checkNotBelow s.layout.origin target boundary offset hf
    exact hcheck.arrange hsound (hleads.finished.trans hopen)
      (Layout.arranges_moveTo _ (hplace.later hleads.earlier))

/-- Whatever becomes of the target, all reports at the move come from its check or from a target in another counter. -/
theorem exists_covers_moveToTarget (hs : s.Ready) (hf : f.Scoped s.layout.spaces) (hopen : s.finished = false)
    (hid : s.layout.current? = some id) (hbases : s.layout.position.bases = s.layout.origin.bases)
    (he : target.isPlain) (hclear : s.Unsuspected f.location) (boundary : Nat) (offset : Int32) :
    ∃ m₁, Run Step ⟨s, [], .reading⟩ m₁ ∧
      ((s.currentMove id target boundary offset f).trace ⟨s, [], .reading⟩ m₁).Covers
        ⟨s.moveToTarget target boundary offset f, [], .reading⟩ := by
  have hjump := exists_covers_jumpToTarget hs hf hopen hid he hclear boundary offset
  have hsound := (s.currentMove id target boundary offset f).sound_trace (.refl ⟨s, [], .reading⟩) he
  have hstart : ((s.currentMove id target boundary offset f).trace ⟨s, [], .reading⟩ ⟨s, [], .reading⟩).Covers
      ⟨s, [], .reading⟩ :=
    ⟨.start hs.valid hopen, fun job hc => .inl (hclear.jobs job hc), fun hreport => absurd hreport hclear.reports⟩
  unfold moveToTarget
  split
  · exact ⟨_, .refl _, hstart.report hsound hopen Fault.noConfusion fun heq _ => Fault.noConfusion heq⟩
  · rename_i fault heval
    have hoperand := s.operand_evaluate target f _ _ heval
    exact ⟨_, .refl _, hstart.report hsound hopen (Fault.ne_cyclic (Fault.isComputed_of_isEvaluated
      (Fault.isEvaluated_of_isOperand hoperand))) fun heq => absurd heq (Fault.ne_outside_of_isOperand hoperand)⟩
  · exact hjump
  · rename_i a heval
    dsimp only
    split
    · rename_i hin
      split
      · rename_i place hup
        exact ⟨_, .refl _, covers_moveToPlace hs hf hopen he rfl heval (hin.1.trans hbases) hup hstart⟩
      · exact hjump
    · rename_i hout
      have hstrays : (s.currentMove id target boundary offset f).Strays ⟨s, [], .reading⟩ ⟨s, [], .reading⟩ := by
        refine ⟨_, a, .refl _, .refl _, hstart.since.informs he heval, heval, fun hin => hout ?_⟩
        rw [hid]
        exact hin
      exact ⟨_, .refl _, hstart.report hsound hopen Fault.noConfusion fun _ _ => .inr hstrays⟩

/-- Before the operands of an ORG nothing is suspected that has not been. -/
theorem covers_enterOrg {tr : Trace} (h : tr.Covers ⟨s, [], .reading⟩) (hsound : tr.Sound) (hs : s.Ready)
    (hopen : s.finished = false) (st : Statement) : tr.Covers ⟨s.enterOrg st, [], .reading⟩ := by
  have hsection := h.arrange hsound hopen (Layout.arranges_ensureSection s.layout)
  have hstill : Still st s (s.mapLayout Layout.ensureSection) := .ensure
  have hready := hstill.leads.ready hs
  have hopened := hstill.leads.finished.trans hopen
  unfold enterOrg
  dsimp only
  cases hname : st.label? with
  | none => exact hsection
  | some label =>
    dsimp only
    unfold createSymbol
    cases hcreate : (s.mapLayout Layout.ensureSection).createSymbol? _ with
    | none =>
      exact hsection.report hsound hopened Fault.noConfusion fun heq _ => Fault.noConfusion heq
    | some u =>
      obtain ⟨symbols, -, hlaunch⟩ := launches_supplies
        (supplies_label hname hready.valid.formed.liesIn_position .org 'U' 1) hcreate
      exact hsection.launches hsound hopened hlaunch fun _ hjob => absurd hjob List.not_mem_nil

end Assembly

/-! ## 6. Sessions -/

namespace Trace

/-- Nothing is suspected and nothing is a cause. -/
def blank (start : Moment) (place : Location) : Trace := ⟨start, .number 0, place, fun _ => False, fun _ => False⟩

variable {start : Moment} {place : Location} {s : Assembly}

theorem sound_blank (start : Moment) (place : Location) : (blank start place).Sound :=
  ⟨fun _ _ _ _ _ => id, fun _ _ _ => False.elim⟩

theorem Covers.unsuspected (h : (blank start place).Covers ⟨s, [], .reading⟩) : s.Unsuspected place :=
  ⟨h.reports, fun job hc => (h.jobs job hc).resolve_right id⟩

end Trace

/-- Whether on the way from one state to another the target lies behind an open space of a counter other than the one
that is in use at first. -/
def Assembly.Escapes (s t : Assembly) (target : Expr) (f : Frame) : Prop :=
  ∃ b x, Run Step ⟨s, [], .reading⟩ b ∧ Run Step b ⟨t, [], .reading⟩ ∧
    b.state.evaluate target f = .resolved (.relocatable x) ∧ ¬ s.layout.current?.all (x.within b.state.layout.spaces ·)

namespace Session

variable {settings : Settings} {before after : List Statement} {st : Statement}

/-- Until an ORG moves, nothing is reported or suspected at its place, if no other statement has this place. -/
theorem unsuspected_enterOrg (hplace : ∀ other ∈ before, other.location ≠ st.location) :
    (((new settings).performAll (before.map .process)).assembly.enterOrg st).Unsuspected st.location := by
  obtain ⟨hready, hopen⟩ := ready_statements settings before
  have hsound := Trace.sound_blank (start settings) st.location
  have hstart : (Trace.blank (start settings) st.location).Covers ⟨(new settings).assembly, [], .reading⟩ := by
    refine ⟨.start (valid_start settings) rfl, fun job hc => ?_, nofun⟩
    rcases hc with ⟨_, hx, -⟩ | ⟨_, _, hp, -⟩
    · cases hx
    · cases hp
  have hcovers := hstart.statements hsound rfl (ready_new settings) before hplace
  exact (covers_enterOrg hcovers hsound hready hopen st).unsuspected

variable {e : Expr} {boundary : Nat} {offset : Int32} {f : Frame} {u : Assembly} {id : CounterId}

/-- To the end of the source, all reports at the place of an ORG come from its check or from a target in another
counter. -/
theorem exists_covers_finish (hplace : ∀ other ∈ before ++ after, other.location ≠ st.location)
    (he : e.isPlain)
    (hr : ((new settings).performAll (before.map .process)).assembly.Prepares st e boundary offset f u)
    (hid : u.layout.current? = some id)
    (hin : ((new settings).performAll ((before ++ st :: after).map .process)).assembly.placeCounters.drainAll.Informs
      e) :
    ∃ m₁, ((u.currentMove id e boundary offset f).trace ⟨u, [], .reading⟩ m₁).Covers
      ⟨((new settings).performAll ((before ++ st :: after).map .process)).assembly.finish, [], .reading⟩ := by
  obtain ⟨hready₀, hf₀⟩ := ready_statements settings before
  have hready := hr.leads.ready hready₀
  have hopen := hr.leads.finished.trans hf₀
  have hbases := hr.bases_position (ordered_performAll settings (before.map .process))
  have hclear : u.Unsuspected f.location := by
    rw [hr.entered, hr.location]
    exact unsuspected_enterOrg fun other hother => hplace other (List.mem_append_left _ hother)
  obtain ⟨m₁, hstart, hmove⟩ := exists_covers_moveToTarget hready hr.inScope hopen hid hbases he hclear boundary offset
  have hsound := (u.currentMove id e boundary offset f).sound_trace hstart he
  rw [← hr.process] at hmove
  have hmoved := hr.rest.ready hready
  have hrest := hmove.statements (s := ((new settings).performAll (before.map .process)).perform (.process st)) hsound
    (hr.rest.finished.trans hopen) hmoved after fun other hother => by
      rw [show Trace.place _ = st.location from hr.location]
      exact hplace other (List.mem_append_right _ hother)
  have hsplit : ((new settings).performAll ((before ++ st :: after).map .process)).assembly =
      ((((new settings).performAll (before.map .process)).perform (.process st)).performAll
        (after.map .process)).assembly := by
    rw [List.map_append, performAll_append]
    rfl
  obtain ⟨hlast, hunfinished⟩ := ready_statements settings (before ++ st :: after)
  rw [← hsplit] at hrest
  exact ⟨m₁, hrest.finish hsound hunfinished hlast hin⟩

/-- An ORG that is reported in the end leads below the origin, or its target has been in another counter. -/
theorem leadsBelow_or_escapes (hplace : ∀ other ∈ before ++ after, other.location ≠ st.location) (he : e.isPlain)
    (hr : ((new settings).performAll (before.map .process)).assembly.Prepares st e boundary offset f u)
    (hin : ((new settings).performAll ((before ++ st :: after).map .process)).assembly.placeCounters.drainAll.Informs
      e) :
    let t := ((new settings).performAll ((before ++ st :: after).map .process)).assembly.finish
    .ofFault .outsideSection st.location ∈ t.diagnostics → ∀ a, t.evaluate e f = .resolved (.relocatable a) →
      a.bases = u.layout.origin.bases → t.LeadsBelow u.layout.origin e boundary offset f ∨ u.Escapes t e f := by
  intro t hreport a ha hbases
  obtain ⟨id, hid⟩ := hr.exists_current
  obtain ⟨m₁, hcovers⟩ := exists_covers_finish hplace he hr hid hin
  rw [← hr.location] at hreport
  rcases hcovers.reports hreport with ⟨-, hfails⟩ | ⟨b, x, hto, hfrom, hknown, hx, hout⟩
  · exact .inl (fails_iff_leadsBelow.mp hfails)
  · -- The target has been in the same section all the time, so it has been behind a space.
    have hb := (hr.leads.ready (ready_statements settings before).1).valid.run hto
    have hlast := evaluate_later hfrom.grows.earlier hb.wellFormed.acyclic hcovers.since.valid.wellFormed.acyclic he
      hknown hx
    have horigin := hr.bases_position (ordered_performAll settings (before.map .process))
    refine .inr ⟨b, x, hto, hfrom, hx, fun hwithin => hout ⟨?_, ?_⟩⟩
    · cases ha.symm.trans hlast
      exact hbases.trans horigin.symm
    · rw [hid] at hwithin
      exact hwithin

/-- An ORG that in the end leads below the origin of its location counter has been reported, if the attributes that its
target asks for are known when the end of the source is reached. If no other statement is at its place, an ORG with a
target in its section is reported in no other case, unless the target has been behind an open space of another counter
on the way. -/
theorem reported_of_leadsBelow {settings : Settings} (hroom : settings.maxDiagnostics = 0)
    (before after : List Statement) {st : Statement} {e : Expr} {boundary? offset? : Option Expr}
    (hop : st.operation = .org (.place (some e) boundary? offset?)) (he : e.isPlain) :
    let s₀ := (((new settings).performAll (before.map .process)).assembly.enterOrg st).frameFor st
      [some e, boundary?, offset?]
    let s := ((new settings).performAll ((before ++ st :: after).map .process)).assembly
    ∀ boundary offset, s₀.2.orgBoundary? boundary? s₀.1 = some boundary →
      s₀.2.orgOffset? offset? s₀.1 = some offset → s.placeCounters.drainAll.Informs e →
        (s.finish.LeadsBelow s₀.2.layout.origin e boundary offset s₀.1 →
          .ofFault .outsideSection st.location ∈ s.finish.diagnostics) ∧
        ((∀ other ∈ before ++ after, other.location ≠ st.location) →
          .ofFault .outsideSection st.location ∈ s.finish.diagnostics →
            ∀ a, s.finish.evaluate e s₀.1 = .resolved (.relocatable a) → a.bases = s₀.2.layout.origin.bases →
              s.finish.LeadsBelow s₀.2.layout.origin e boundary offset s₀.1 ∨ s₀.2.Escapes s.finish e s₀.1) := by
  intro r s boundary offset hboundary hoffset hin
  obtain ⟨hready₀, hf₀⟩ := ready_statements settings before
  have hr := prepares_org hready₀ hop hboundary hoffset
  refine ⟨fun hbelow => ?_, fun hplace => leadsBelow_or_escapes hplace he hr hin⟩
  have hstart := (@leads_statements before (new settings) (ready_new settings)).trans hr.leads
  have hrest := leads_rest settings before after st
  rw [hr.process] at hrest
  have hreport := reported_of_moveToTarget (hr.leads.ready hready₀) hr.inScope ⟨_, hop⟩ hr.location
    (hr.leads.finished.trans hf₀) (hstart.steps.grows.settings ▸ hroom) he hrest
    (reachable_performAll settings _) hin hbelow
  rw [hr.location] at hreport
  exact hreport

/-! ### An ORG to a place in front of its section -/

namespace Below

open Assembly Scaled

def secondLine : Statement := ⟨none, .ofString "ORG", .org (.place (some target) none none), { line := 1 }⟩

def reported : Assembly := inSection.report .outsideSection { line := 1 }

def atEnd : Assembly := { reported with finished := true, pendings := reported.pendings.clear }

theorem process_secondLine : inSection.process secondLine = reported := by
  have heval : inSection.evaluate target secondLine.frame = .resolved (.relocatable place) := by decide +kernel
  have hplace : inSection.moveToPlace (place.addOffset 0) target 1 0 secondLine.frame = reported := by
    unfold moveToPlace
    dsimp only
    rw [if_pos (by decide +kernel), if_pos (by decide +kernel)]
    rfl
  show inSection.moveToTarget target 1 0 secondLine.frame = reported
  unfold moveToTarget
  rw [heval]
  dsimp only
  rw [if_pos (by decide +kernel), show place.roundUp inSection.layout.spaces 1 = .ok place from rfl]
  exact hplace

theorem performAll_statements :
    ((new {}).performAll ([sectionStart, secondLine].map .process)).assembly = reported := by
  show ((Assembly.new {}).process sectionStart).process secondLine = reported
  rw [process_sectionStart, process_secondLine]

theorem finish_reported : reported.finish = atEnd :=
  finish_of_idle rfl rfl rfl rfl (by decide +kernel)

end Below

/-- A target five bytes in front of its section. -/
theorem reported_of_leadsBelow_section :
    let t := ((new {}).performAll ([Scaled.sectionStart, Below.secondLine].map .process)).assembly.finish
    let r := (Below.inSection.enterOrg Below.secondLine).frameFor Below.secondLine [some Below.target, none, none]
    .ofFault .outsideSection { line := 1 } ∈ t.diagnostics ∧
      (t.LeadsBelow r.2.layout.origin Below.target 1 0 r.1 ∨ r.2.Escapes t Below.target r.1) := by
  intro t r
  have hlast : t = Below.atEnd := by rw [← Below.finish_reported, ← Below.performAll_statements]
  have hvalue : t.evaluate Below.target r.1 = .resolved (.relocatable Below.place) := by
    rw [hlast]
    decide +kernel
  have hbelow : t.LeadsBelow r.2.layout.origin Below.target 1 0 r.1 := by
    rw [hlast]
    exact ⟨Below.place, Below.place, -5, by decide +kernel, by decide +kernel, rfl, by decide +kernel, by decide⟩
  have hall := @reported_of_leadsBelow {} rfl [Scaled.sectionStart] [] Below.secondLine Below.target none none rfl rfl
  have hfirst : ((new {}).performAll ([Scaled.sectionStart].map .process)).assembly = Below.inSection :=
    Below.process_sectionStart
  dsimp only at hall
  rw [hfirst] at hall
  obtain ⟨halways, honly⟩ := hall 1 0 rfl rfl ⟨trivial, trivial⟩
  have hplace : ∀ other ∈ [Scaled.sectionStart] ++ [], other.location ≠ Below.secondLine.location := by
    simp [Scaled.sectionStart, Scaled.statement, Below.secondLine]
  exact ⟨halways hbelow, honly hplace (halways hbelow) Below.place hvalue (by decide +kernel)⟩

end Session

end Assembler
