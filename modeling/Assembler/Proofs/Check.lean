import Assembler.Proofs.Completion
import Assembler.Proofs.Constancy
import Assembler.Proofs.Idle
/-!
Checks that nothing depends on.

A check is made when what it waits for is known, and a failure is reported (`Moment.Audits.step`). Nothing is done
about a check that still waits at the end of the source. But then it cannot be made (`Stuck.not_fails`), as long
as the attributes that it asks for are known. So every check that fails in the end has been reported
(`Assembly.reported_of_fails`), and so has every move to a place below the origin
(`Assembly.reported_of_moveToTarget`).
-/

namespace Assembler

open Assembly Moment

/-! ## 1. Checks that still wait -/

namespace Assembly

variable {s t : Assembly} {rule : CheckRule} {f : Frame}

/-- Whether a check can be made now and does not hold. -/
def Fails (s : Assembly) (rule : CheckRule) (f : Frame) (fault : Fault) : Prop :=
  s.attemptCheck rule f = .fallback () fault

theorem Fails.not_isBlocked {fault : Fault} (h : s.Fails rule f fault) :
    ¬ (s.attemptCheck rule f).IsBlocked :=
  Evaluation.not_isBlocked_of_fallback h

/-- The assembly with the end of the source reached or not. -/
theorem lacks_finished (b : Bool) (key : Prerequisite) :
    { s with finished := b }.Lacks key ↔ s.Lacks key := by
  cases key with
  | symbol n => exact Iff.rfl
  | space space => exact Iff.rfl
  | attr n kind => cases kind <;> exact Iff.rfl

theorem wellFormed_finished (b : Bool) (hs : s.WellFormed) :
    ({ s with finished := b } : Assembly).WellFormed :=
  ⟨hs.named, hs.acyclic, hs.inScope.closed, hs.inScope.values⟩

/-- A job without a product that has to wait is put aside. -/
theorem settle_eq_postpone {id? : Option Nat} {job : Job} {waiting : List Prerequisite}
    (hnone : job.task.product? = none) (h : s.attempt job = .blocked waiting) :
    s.settle id? job = s.postpone id? job waiting :=
  settle_postponed h (by rw [isCyclic, hnone]; rfl)

/-- Work that lacks all it has waited for is no check that fails, if the attributes it asks for are known. -/
theorem Stuck.not_fails {phase : Phase} {p : Pending Job} (h : s.Stuck phase p)
    (hp : p.work = ⟨.check rule, f⟩) (hs : s.WellFormed) (he : rule.expr.isPlain)
    (hknown : s.Informs rule.expr) (fault : Fault) : ¬ s.Fails rule f fault := by
  intro hfails
  obtain ⟨s₀, hle, -, hs₀, hscope, htry⟩ := h.tried
  -- The check is the same when the end of the source is left out of account.
  have hst : s.Earlier { s with finished := s₀.finished } := .of_eq rfl rfl rfl rfl
  have hs' := wellFormed_finished s₀.finished hs
  have hsame := (attemptCheck_later hst hs.acyclic hs'.acyclic (f := f) he hknown).resolve_left
    hfails.not_isBlocked
  have hfails' : ({ s with finished := s₀.finished } : Assembly).Fails rule f fault :=
    hsame.trans hfails
  obtain ⟨v, hv⟩ := exists_of_attemptCheck_eq_fallback hfails'
  have hmisuse : ({ s with finished := s₀.finished } : Assembly).misusesIn p.work = false := by
    rw [hp]
    have hexpr : (Task.check rule).expr? = some rule.expr := by cases rule <;> rfl
    rw [misusesIn, hexpr]
    exact misuses_of_evaluate hv
  have hblocked : (({ s with finished := s₀.finished } : Assembly).attempt p.work).IsBlocked :=
    isBlocked_attempt (hle.trans hst) hs₀ hs' rfl
      (fun key hkey => (lacks_finished _ key).mpr (h.lacking key hkey)) (fun _ => hmisuse) hscope
      h.others htry
  rw [hp] at hblocked
  exact hfails'.not_isBlocked (Evaluation.isBlocked_map.mp hblocked)

end Assembly

/-! ## 2. From the statement to the end of the source -/

/-- Whether a check is still to be made, or has been made and any failure has been reported. -/
structure Moment.Audits (rule : CheckRule) (f : Frame) (m : Moment) : Prop where
  valid : m.Valid
  unlimited : m.state.settings.maxDiagnostics = 0
  informed : m.state.finished → m.state.Informs rule.expr
  outcome : m.Carries ⟨.check rule, f⟩ ∨
    (m.state.Informs rule.expr ∧ ¬ (m.state.attemptCheck rule f).IsBlocked ∧
      ∀ fault, m.state.Fails rule f fault → .ofFault fault f.location ∈ m.state.diagnostics) ∨
    (m.phase = .reading ∧ m.state.finished = true)

namespace Moment

variable {rule : CheckRule} {f : Frame} {m m' : Moment} {job : Job}

/-- A job without a product is kept until it is done, or until the end of the source is over. -/
theorem Step.keeps (h : Step m m') (hv : m.Valid) (hnone : job.task.product? = none)
    (hc : m.Carries job) :
    m'.Carries job ∨
      (∃ id?, ¬ (m.state.attempt job).IsBlocked ∧ m'.state = m.state.settle id? job) ∨
        (m'.phase = .reading ∧ m'.state.finished = true) := by
  rcases hv.carries_step h hc with hc' | hfinishes | ⟨-, hover⟩
  · exact .inl hc'
  · cases hfinishes with
    | settle id? _ heq =>
      by_cases hblocked : (m.state.attempt job).IsBlocked
      · obtain ⟨waiting, hwaiting⟩ := hblocked
        refine .inl (.inr ⟨id?.getD m.state.pendings.next, ⟨job, waiting⟩, ?_, rfl⟩)
        rw [heq, settle_eq_postpone hnone hwaiting, get?_postpone, if_pos rfl]
      · exact .inr (.inl ⟨id?, hblocked, heq⟩)
    | conclude _ _ hsome =>
      rw [hnone] at hsome
      cases hsome
  · exact .inr (.inr hover)

/-- When the end of the source is over, it stays so. -/
theorem Step.over (h : Step m m') (hphase : m.phase = .reading) (hf : m.state.finished = true) :
    m'.phase = .reading ∧ m'.state.finished = true := by
  refine ⟨?_, h.grows.finished hf⟩
  cases h with
  | cascade h => cases h <;> exact hphase
  | progress h => cases h <;> rfl
  | ending h =>
    cases h with
    | place hopen =>
      rw [show _ = true from hf] at hopen
      cases hopen
    | close | explain | choose | conclude | clear => cases hphase

/-- A check that is done is made, and a failure is reported. -/
theorem reported_of_settle {s : Assembly} {id? : Option Nat} {fault : Fault}
    (hroom : s.settings.maxDiagnostics = 0) (h : s.Fails rule f fault) :
    .ofFault fault f.location ∈ (s.settle id? ⟨.check rule, f⟩).diagnostics := by
  have hattempt : s.attempt ⟨.check rule, f⟩ = .fallback .nothing fault := by
    show (s.attemptCheck rule f).map (fun _ => Definition.nothing) = _
    rw [show s.attemptCheck rule f = .fallback () fault from h]
    rfl
  rw [settle_fallback hattempt, diagnostics_establish, diagnostics_report hroom]
  exact List.mem_append_right _ (List.mem_singleton_self _)

theorem Audits.step (h : m.Audits rule f) (he : rule.expr.isPlain) (hstep : Step m m')
    (hin : m'.state.finished → m'.state.Informs rule.expr) : m'.Audits rule f := by
  have hgrows := hstep.grows
  have hvalid := h.valid.step hstep
  refine ⟨hvalid, hgrows.settings ▸ h.unlimited, hin, ?_⟩
  -- Once the check can be made, its outcome is settled.
  have same : m.state.Informs rule.expr → ¬ (m.state.attemptCheck rule f).IsBlocked →
      m'.state.attemptCheck rule f = m.state.attemptCheck rule f := fun hknown hmade =>
    (attemptCheck_later hgrows.earlier h.valid.wellFormed.acyclic hvalid.wellFormed.acyclic he
      hknown).resolve_left hmade
  rcases h.outcome with hc | ⟨hknown, hmade, hreported⟩ | ⟨hphase, hf⟩
  · rcases Step.keeps hstep h.valid rfl hc with hc' | ⟨id?, hmade, hsettle⟩ | hover
    · exact .inl hc'
    · have hmade : ¬ (m.state.attemptCheck rule f).IsBlocked := fun hblocked =>
        hmade (Evaluation.isBlocked_map.mpr hblocked)
      have hknown : m.state.Informs rule.expr := by
        cases hf : m.state.finished with
        | true => exact h.informed hf
        | false => exact informs_of_attemptCheck h.valid.wellFormed.named hf he hmade
      refine .inr (.inl ⟨hknown.later hgrows.earlier, ?_, fun fault hfails => ?_⟩)
      · rw [same hknown hmade]
        exact hmade
      · rw [Fails, same hknown hmade] at hfails
        rw [hsettle]
        exact reported_of_settle h.unlimited hfails
    · exact .inr (.inr hover)
  · refine .inr (.inl ⟨hknown.later hgrows.earlier, ?_, fun fault hfails => ?_⟩)
    · rw [same hknown hmade]
      exact hmade
    · rw [Fails, same hknown hmade] at hfails
      exact hgrows.diagnostics.subset (hreported fault hfails)
  · exact .inr (.inr (Step.over hstep hphase hf))

theorem lasting_audits (he : rule.expr.isPlain) :
    Lasting (Audits rule f) (·.Informs rule.expr) where
  step _ _ hstep h hin := h.step he hstep hin
  later _ _ hst h := h.later hst

end Moment

namespace Assembly

variable {s t : Assembly} {rule : CheckRule} {f : Frame}

/-- A job for a check leads to its audit. -/
theorem audits_check (hs : s.Ready) (hroom : s.settings.maxDiagnostics = 0)
    (hf : s.finished = false) (he : rule.expr.isPlain) (hscope : f.Scoped s.layout.spaces) :
    Moment.Audits rule f ⟨s.resolveOrDefer (.check rule) f, [], .reading⟩ := by
  have hcheck : Progress ⟨s, [], .reading⟩ ⟨s, [(none, ⟨.check rule, f⟩)], .reading⟩ :=
    .check rfl ⟨hscope, trivial⟩
  have hstart : Moment.Audits rule f ⟨s, [(none, ⟨.check rule, f⟩)], .reading⟩ := by
    refine ⟨hs.valid.progress hcheck, hroom, fun hfin => ?_, .inl (.inl ⟨_, List.mem_cons_self, rfl⟩)⟩
    rw [show _ = false from hf] at hfin
    cases hfin
  exact ((lasting_audits he).run_open (run_resolveAll s [⟨.check rule, f⟩])
    (fun _ _ hstep => ⟨.cascade hstep, hstep.steady.finished⟩) hstart hf).1

/-- A check that fails in the end has been reported. -/
theorem reported_of_fails {settings : Settings}
    (hreach : Moment.Reachable settings ⟨s, [], .reading⟩)
    (h : Moment.Audits rule f ⟨s, [], .reading⟩) (he : rule.expr.isPlain) (hs : s.Ready)
    (hf : s.finished = false) (hin : s.placeCounters.drainAll.Informs rule.expr) {fault : Fault}
    (hfails : s.finish.Fails rule f fault) : .ofFault fault f.location ∈ s.finish.diagnostics := by
  obtain ⟨u, hrun, hu, hknown, hdone, hclear, heq⟩ :=
    (lasting_audits he).exists_closing hs hf h hin
  have hreach : Moment.Reachable settings ⟨u, [], .closing⟩ := hreach.trans hrun
  -- What is dropped at the end makes no difference to the check.
  have hback : s.finish.Earlier u := by
    rw [heq]
    exact .of_eq rfl rfl rfl rfl
  have hfinish := (Step.ending hclear).grows
  have hfails : u.Fails rule f fault := by
    have hsame := attemptCheck_later hback ((hu.valid.ending hclear).wellFormed.acyclic)
      hu.valid.wellFormed.acyclic (f := f) he (hknown.later hfinish.earlier)
    exact (hsame.resolve_left hfails.not_isBlocked).trans hfails
  refine hfinish.diagnostics.subset ?_
  rcases hu.outcome with hc | ⟨-, -, hreported⟩ | ⟨hphase, -⟩
  · rcases hc with ⟨x, hx, -⟩ | ⟨id, p, hp, hwork⟩
    · cases hx
    · rcases hreach.watchful id p hp with hw | hst | hstuck
      · rw [show _ = [] from hdone.1] at hw
        cases hw
      · rw [show _ = [] from hdone.2] at hst
        cases hst
      · exact absurd hfails (hstuck.not_fails hwork hu.valid.wellFormed he hknown fault)
  · exact hreported fault hfails
  · cases hphase

/-! ## 3. ORG -/

/-- Whether a move leads to a place below an origin that is known up to the lengths that are. -/
def LeadsBelow (s : Assembly) (origin : Address) (target : Expr) (boundary : Nat) (offset : Int32)
    (f : Frame) : Prop :=
  ∃ a place gap, s.evaluate target f = .resolved (.relocatable a) ∧ a.bases = origin.bases ∧
    a.roundUp s.layout.spaces boundary = .ok place ∧
      Length.between s.layout.spaces (place.addOffset offset) origin = ⟨gap, []⟩ ∧ gap < 0

variable {origin : Address} {target : Expr} {boundary : Nat} {offset : Int32}

theorem fails_iff_leadsBelow : s.Fails (.notBelow origin target boundary offset) f .outsideSection ↔
    s.LeadsBelow origin target boundary offset f := by
  constructor
  · intro h
    simp only [Fails, attemptCheck] at h
    split at h
    · cases h
    · rename_i a heval
      split at h
      · rename_i hbases
        cases hup : a.roundUp s.layout.spaces boundary with
        | error spaces =>
          rw [hup] at h
          cases h
        | ok place =>
          rw [hup] at h
          cases hgap : Length.between s.layout.spaces (place.addOffset offset) origin with
          | mk gap spaces =>
            simp only [Evaluation.ofExcept, Evaluation.andThen, Length.settled, hgap] at h
            cases spaces with
            | cons x rest => cases h
            | nil =>
              simp only [List.isEmpty_nil, if_true] at h
              split at h
              · exact ⟨a, place, gap, heval, hbases, hup, hgap, ‹_›⟩
              · cases h
      · cases h
    · cases h
  · rintro ⟨a, place, gap, heval, hbases, hup, hgap, hneg⟩
    simp only [Fails, attemptCheck, heval, if_pos hbases, hup, Evaluation.ofExcept,
      Evaluation.andThen, hgap, Length.settled, List.isEmpty_nil, if_true, if_pos hneg]

theorem reported_of_report (hroom : s.settings.maxDiagnostics = 0) (fault : Fault)
    (location : Location) : .ofFault fault location ∈ (s.report fault location).diagnostics := by
  rw [diagnostics_report hroom]
  exact List.mem_append_right _ (List.mem_singleton_self _)

/-- A target that is not known yet leads to a check. -/
theorem exists_leads_jumpToTarget (hs : s.Ready) (hf : f.Scoped s.layout.spaces) (target : Expr)
    (boundary : Nat) (offset : Int32) :
    ∃ u, s.Leads u ∧ (u.checkNotBelow s.layout.origin target boundary offset f).Leads
      (s.jumpToTarget target boundary offset f) :=
  ⟨_, leads_arrange (@Layout.arranges_jump s.layout (.jump target s.layout.position boundary offset)
    hs.valid.formed.liesIn_position f hf), .refl _⟩

/-- A place is below the origin and reported, or not below it for good, or checked later. -/
theorem moveToPlace_cases (hs : s.Ready) (hf : f.Scoped s.layout.spaces)
    (hroom : s.settings.maxDiagnostics = 0) {a place : Address}
    (heval : s.evaluate target f = .resolved (.relocatable a))
    (hup : a.roundUp s.layout.spaces boundary = .ok place) :
    .ofFault .outsideSection f.location ∈
        (s.moveToPlace (place.addOffset offset) target boundary offset f).diagnostics ∨
      s.attemptCheck (.notBelow s.layout.origin target boundary offset) f = .resolved () ∨
        (s.checkNotBelow s.layout.origin target boundary offset f).Leads
          (s.moveToPlace (place.addOffset offset) target boundary offset f) := by
  have hwf := hs.valid.wellFormed
  unfold moveToPlace
  dsimp only
  split
  · rename_i hempty
    split
    · exact .inl (reported_of_report hroom _ _)
    · rename_i hnot
      -- Without open spaces the check is made with the same gap.
      have hsettled : (Length.between s.layout.spaces (place.addOffset offset)
          s.layout.origin).settled = .resolved
            ((place.addOffset offset - s.layout.origin).normalize s.layout.spaces).offset :=
        if_pos hempty
      refine .inr (.inl ?_)
      simp only [attemptCheck, heval, hup, Evaluation.ofExcept, Evaluation.andThen, hsettled,
        if_neg hnot, ite_self]
  · have hlies := liesIn_evaluate hwf.inScope hf (e := target) (v := .relocatable a)
      (by rw [heval]; rfl)
    have ha : a.LiesIn s.layout.spaces := hlies
    have hplace := ha.roundUp hwf.inScope.closed hup
    have hmoved : (place.addOffset offset).LiesIn s.layout.spaces := hplace
    have hcheck := s.leads_checkNotBelow s.layout.origin target boundary offset hf
    exact .inr (.inr (leads_layout (Layout.arranges_moveTo _ (hmoved.later hcheck.earlier))))

/-- A move reports that it leads outside of its counter, or it leads to no place below the origin for good, or
it is checked later. -/
theorem moveToTarget_cases (hs : s.Ready) (hf : f.Scoped s.layout.spaces)
    (hroom : s.settings.maxDiagnostics = 0) (target : Expr) (boundary : Nat) (offset : Int32) :
    .ofFault .outsideSection f.location ∈ (s.moveToTarget target boundary offset f).diagnostics ∨
      s.attemptCheck (.notBelow s.layout.origin target boundary offset) f = .resolved () ∨
        ∃ u, s.Leads u ∧ (u.checkNotBelow s.layout.origin target boundary offset f).Leads
          (s.moveToTarget target boundary offset f) := by
  have hjump := exists_leads_jumpToTarget hs hf target boundary offset
  unfold moveToTarget
  split
  · rename_i heval
    exact .inr (.inl (by simp only [attemptCheck, heval]))
  · rename_i heval
    exact .inr (.inl (by simp only [attemptCheck, heval]))
  · exact .inr (.inr hjump)
  · rename_i a heval
    dsimp only
    split
    · split
      · rename_i place hup
        rcases moveToPlace_cases hs hf hroom heval hup with hreport | hholds | hcheck
        · exact .inl hreport
        · exact .inr (.inl hholds)
        · exact .inr (.inr ⟨s, .refl s, hcheck⟩)
      · exact .inr (.inr hjump)
    · exact .inl (reported_of_report hroom _ _)

/-- The state in which the operands of an ORG are carried out. -/
def enterOrg (s : Assembly) (st : Statement) : Assembly :=
  let s := s.mapLayout Layout.ensureSection
  match st.label? with
  | none => s
  | some label =>
    s.createSymbol
      { name := label, value? := some (.relocatable s.layout.position),
        attributes := .label .org 'U' 1, location := st.location }

theorem processOrg_highest (s : Assembly) (st : Statement) :
    s.processOrg st .highest = (s.enterOrg st).moveToHighest st.frame := by
  unfold processOrg enterOrg
  cases st.label? <;> rfl

theorem processOrg_place (s : Assembly) (st : Statement) (target? boundary? offset? : Option Expr) :
    s.processOrg st (.place target? boundary? offset?) =
      (s.enterOrg st).moveToOperands st target? boundary? offset? := by
  unfold processOrg enterOrg
  cases st.label? <;> rfl

theorem stills_enterOrg (hs : s.Ready) (st : Statement) : Stills st s (s.enterOrg st) := by
  have hsection : Still st s (s.mapLayout Layout.ensureSection) := .ensure
  have hready := hsection.leads.ready hs
  unfold enterOrg
  dsimp only
  cases hname : st.label? with
  | none => exact hsection.stills
  | some label =>
    exact hsection.stills.tail (still_createLabel hname hready.valid.formed.liesIn_position .org 'U' 1)

/-- Before its operands an ORG starts a section at most, apart from what its label brings about. -/
theorem steady_enterOrg (s : Assembly) (st : Statement) :
    (s.mapLayout Layout.ensureSection).Steady (s.enterOrg st) := by
  unfold enterOrg
  dsimp only
  split
  · exact .refl _
  · exact steady_createSymbol _ _

/-- A move that in the end leads below the origin has been reported. -/
theorem reported_of_moveToTarget {settings : Settings} (hs : s.Ready) (hf : f.Scoped s.layout.spaces)
    {st : Statement} (horg : st.IsOrg) (hlocation : f.location = st.location)
    (hopen : s.finished = false) (hroom : s.settings.maxDiagnostics = 0) (he : target.isPlain)
    (hrest : (s.moveToTarget target boundary offset f).Leads t)
    (hreach : Moment.Reachable settings ⟨t, [], .reading⟩)
    (hin : t.placeCounters.drainAll.Informs target)
    (hbelow : t.finish.LeadsBelow s.layout.origin target boundary offset f) :
    .ofFault .outsideSection f.location ∈ t.finish.diagnostics := by
  have hlead := (acts_moveToTarget hs target boundary offset hf horg hlocation).leads
  have hready := (hlead.trans hrest).ready hs
  have hclosed : t.finished = false := (hlead.trans hrest).finished.trans hopen
  have hfinish := follows_finish hready
  have hplain : (CheckRule.notBelow s.layout.origin target boundary offset).expr.isPlain := he
  have hfails := fails_iff_leadsBelow.mpr hbelow
  rcases moveToTarget_cases hs hf hroom target boundary offset with hreport | hholds | ⟨u, hu, hcheck⟩
  · exact (hrest.steps.trans hfinish.run).grows.diagnostics.subset hreport
  · -- What holds at the statement holds at the end.
    have hmade := Evaluation.not_isBlocked_of_resolved hholds
    have hgrows := ((hlead.trans hrest).steps.trans hfinish.run).grows
    have hsame := (attemptCheck_later hgrows.earlier hs.valid.wellFormed.acyclic
      (hfinish.ready hready).valid.wellFormed.acyclic hplain
      (informs_of_attemptCheck hs.valid.wellFormed.named hopen hplain hmade)).resolve_left hmade
    rw [Fails, hsame, hholds] at hfails
    cases hfails
  · -- The check is entered with the jump and audited from then on.
    have hscope := hf.later hu.earlier
    have hfu := hu.finished.trans hopen
    have haudits := audits_check (hu.ready hs) (hu.steps.grows.settings ▸ hroom) hfu hplain hscope
    obtain ⟨haudits, -⟩ := (lasting_audits hplain).run_open (hcheck.trans hrest).run
      (fun _ _ hstep => ⟨hstep.step, hstep.finished⟩) haudits
      ((u.leads_checkNotBelow s.layout.origin target boundary offset hscope).finished.trans hfu)
    exact reported_of_fails hreach haudits hplain hready hclosed hin hfails

end Assembly

end Assembler
