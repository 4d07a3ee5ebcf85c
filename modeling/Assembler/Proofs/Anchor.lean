import Assembler.Proofs.Act
import Assembler.Proofs.Outcome
/-!
The spaces that pending work waits for.

All places in a job are in terms of spaces that exist (`Task.Anchored`), so it waits for no other spaces
(`exists_of_attempt`). This holds of the pending work between any two statements (`Acts.anchored`,
`anchored_finish`), and therefore nothing waits for a space when it is new.
-/

namespace Assembler

/-! ## 1. What a job waits for -/

/-- Whether a prerequisite is not a space that has yet to be added. -/
def Prerequisite.Exists (a : Spaces) : Prerequisite → Prop
  | .space s => s.index < a.size
  | .symbol _ | .attr _ _ => True

variable {a b : Spaces}

theorem Prerequisite.Exists.later {key : Prerequisite} (h : key.Exists a) (hab : a.Earlier b) : key.Exists b := by
  cases key with
  | symbol | attr => trivial
  | space s => exact Nat.lt_of_lt_of_le h hab.size_le

theorem SpaceRule.Anchored.later {rule : SpaceRule} (h : rule.Anchored a) (hab : a.Earlier b) :
    rule.Anchored b := by
  cases rule with
  | storage => trivial
  | padding => exact ⟨h.1.later hab, h.2.later hab⟩
  | jump => exact Address.LiesIn.later h hab
  | jumpToHighest | counterStart => exact ⟨h.1.later hab, fun x hx => (h.2 x hx).later hab⟩

theorem CheckRule.Anchored.later {rule : CheckRule} (h : rule.Anchored a) (hab : a.Earlier b) :
    rule.Anchored b := by
  cases rule with
  | notBelow => exact Address.LiesIn.later h hab
  | lengthInRange => trivial

theorem Task.Anchored.later {task : Task} (h : task.Anchored a) (hab : a.Earlier b) : task.Anchored b := by
  cases task with
  | value | scale | integer => trivial
  | length => exact h
  | space => exact SpaceRule.Anchored.later h hab
  | check => exact CheckRule.Anchored.later h hab

namespace Address

/-- Rounding up waits for spaces of the address only. -/
theorem index_lt_of_roundUp_error {x : Address} (hx : x.LiesIn a) (ha : a.Closed) {boundary : Nat}
    {spaces : List SpaceId} (h : x.roundUp a boundary = .error spaces) : ∀ s ∈ spaces, s.index < a.size := by
  obtain ⟨-, -, rfl⟩ := roundUp_eq_error.mp h
  exact hx.normalize ha

theorem index_lt_of_foldl_highestStep (ha : a.Closed) {others : List Address} {state : Address × List SpaceId}
    (hplaces : ∀ x ∈ state.1 :: others, x.LiesIn a) (hspaces : ∀ s ∈ state.2, s.index < a.size) :
    ∀ s ∈ (others.foldl (highestStep a) state).2, s.index < a.size := by
  induction others generalizing state with
  | nil => exact hspaces
  | cons c rest ih =>
    have hbest := hplaces _ List.mem_cons_self
    have hc := hplaces c (List.mem_cons_of_mem _ List.mem_cons_self)
    refine ih (fun x hx => ?_) fun s hs => ?_
    · rcases List.mem_cons.mp hx with rfl | hx
      · unfold highestStep
        dsimp only
        split
        · split
          · exact hc
          · exact hbest
        · exact hbest
      · exact hplaces x (List.mem_cons_of_mem _ (List.mem_cons_of_mem _ hx))
    · rcases mem_highestStep hs with hs | hs
      · exact hspaces s hs
      · exact (hc.addScaled hbest (-1)).normalize ha s hs

/-- The search for the highest address waits for spaces of the candidates only. -/
theorem index_lt_of_highest_error (ha : a.Closed) {candidates : List Address}
    (hplaces : ∀ x ∈ candidates, x.LiesIn a) {spaces : List SpaceId}
    (h : highest a candidates = .error spaces) : ∀ s ∈ spaces, s.index < a.size := by
  cases candidates with
  | nil =>
    cases h
    exact List.forall_mem_nil _
  | cons first others =>
    obtain ⟨-, rfl⟩ := highest_eq_error.mp h
    exact index_lt_of_foldl_highestStep ha hplaces (List.forall_mem_nil _)

end Address

theorem Evaluation.exists_of_blockedOn {α : Type} {spaces : List SpaceId} (hs : ∀ s ∈ spaces, s.index < a.size)
    {waiting : List Prerequisite} (h : (blockedOn spaces : Evaluation α) = .blocked waiting) :
    ∀ key ∈ waiting, key.Exists a := by
  cases h
  intro key hkey
  obtain ⟨s, hmem, rfl⟩ := List.mem_map.mp hkey
  exact hs s hmem

theorem Evaluation.exists_of_ofExcept {α : Type} {x : Except (List SpaceId) α}
    (hs : ∀ spaces, x = .error spaces → ∀ s ∈ spaces, s.index < a.size) {waiting : List Prerequisite}
    (h : ofExcept x = .blocked waiting) : ∀ key ∈ waiting, key.Exists a := by
  cases x with
  | ok => cases h
  | error spaces => exact exists_of_blockedOn (hs spaces rfl) h

/-- A distance waits for spaces of its ends only. -/
theorem Length.exists_of_settled (ha : a.Closed) {x y : Address} (hx : x.LiesIn a) (hy : y.LiesIn a)
    {waiting : List Prerequisite} (h : (Length.between a x y).settled = .blocked waiting) :
    ∀ key ∈ waiting, key.Exists a := by
  unfold Length.settled at h
  split at h
  · cases h
  · exact Evaluation.exists_of_blockedOn ((hx.addScaled hy (-1)).normalize ha) h

theorem Value.exists_of_settle (ha : a.Closed) {v : Value} (hv : v.LiesIn a) {waiting : List Prerequisite}
    (h : v.settle a = .blocked waiting) : ∀ key ∈ waiting, key.Exists a := by
  have hsimple := hv.simplify ha
  unfold settle at h
  split at h
  · cases h
  · rename_i x hx
    rw [hx] at hsimple
    unfold Address.settled at h
    split at h
    · exact Evaluation.exists_of_blockedOn hsimple h
    · cases h

namespace Assembly

variable {s : Assembly} {f : Frame} {waiting : List Prerequisite}

/-! ### Expressions -/

theorem exists_of_apply (hs : s.Scoped) {op : Operator} {v w : Value} (hv : v.LiesIn s.layout.spaces)
    (hw : w.LiesIn s.layout.spaces) (h : op.apply s.layout.spaces v w = .blocked waiting) :
    ∀ key ∈ waiting, key.Exists s.layout.spaces := by
  have factor : ∀ {u : Value} {ps}, u.LiesIn s.layout.spaces → u.factor s.layout.spaces = .blocked ps →
      ∀ key ∈ ps, key.Exists s.layout.spaces := by
    intro u ps hu hfactor
    rcases Evaluation.andThen_eq_blocked.mp hfactor with hsettle | ⟨n, -, hn⟩
    · exact Value.exists_of_settle hs.closed hu hsettle
    · cases n <;> cases hn
  cases op with
  | add | sub => cases h
  | mul | div =>
    intro key hkey
    rcases Evaluation.mem_both_blocked (Evaluation.map_eq_blocked.mp h) hkey with
      ⟨ps, hps, hmem⟩ | ⟨ps, hps, hmem⟩
    · exact factor hv hps key hmem
    · exact factor hw hps key hmem

theorem exists_of_evaluateOpen (hn : s.Named) (hs : s.Scoped) (hf : f.Scoped s.layout.spaces) {e : Expr}
    (h : e.evaluateOpen s.scope f = .blocked waiting) : ∀ key ∈ waiting, key.Exists s.layout.spaces := by
  induction e generalizing waiting with
  | number n => cases h
  | symbol n =>
    simp only [Expr.evaluateOpen] at h
    split at h
    · cases h
    · cases h
      exact List.forall_mem_singleton.mpr trivial
  | attr kind operand =>
    obtain ⟨n, -, -, -, rfl⟩ := (attributeOf_eq_blocked hn).mp (Evaluation.map_eq_blocked.mp h)
    exact List.forall_mem_singleton.mpr (by cases kind <;> trivial)
  | counter =>
    simp only [Expr.evaluateOpen] at h
    split at h <;> cases h
  | negate e ih => exact ih (Evaluation.map_eq_blocked.mp h)
  | binary op l r ihl ihr =>
    rcases Evaluation.andThen_eq_blocked.mp h with hboth | ⟨⟨v, w⟩, hvw, happly⟩
    · intro key hkey
      rcases Evaluation.mem_both_blocked hboth hkey with ⟨ps, hl, hmem⟩ | ⟨ps, hr, hmem⟩
      · exact ihl hl key hmem
      · exact ihr hr key hmem
    · -- Both operands are known and lie in the spaces, so the spaces that the operator waits for exist.
      obtain ⟨hv, hw⟩ := Evaluation.both_eq_resolved.mp hvw
      have hleft := liesIn_evaluateOpen hs hf (e := l) (v := v) (by rw [hv]; rfl)
      have hright := liesIn_evaluateOpen hs hf (e := r) (v := w) (by rw [hw]; rfl)
      exact exists_of_apply hs hleft hright happly

theorem exists_of_evaluate (hn : s.Named) (hs : s.Scoped) (hf : f.Scoped s.layout.spaces) {e : Expr}
    (h : s.evaluate e f = .blocked waiting) : ∀ key ∈ waiting, key.Exists s.layout.spaces := by
  simp only [evaluate, Expr.evaluate] at h
  split at h
  · rename_i v hv
    have hlies := liesIn_evaluateOpen hs hf (e := e) (v := v) (by rw [hv]; rfl)
    exact Value.exists_of_settle hs.closed hlies h
  · exact exists_of_evaluateOpen hn hs hf h

theorem exists_of_evaluateNumber (hn : s.Named) (hs : s.Scoped) (hf : f.Scoped s.layout.spaces) {e : Expr}
    (h : s.evaluateNumber e f = .blocked waiting) : ∀ key ∈ waiting, key.Exists s.layout.spaces := by
  rcases Evaluation.andThen_eq_blocked.mp h with h | ⟨v, -, hv⟩
  · exact exists_of_evaluate hn hs hf h
  · cases v <;> cases hv

/-! ### Jobs -/

theorem exists_of_attemptTarget (hn : s.Named) (hs : s.Scoped) (hf : f.Scoped s.layout.spaces) {space : SpaceId}
    {target : Expr} {position : Address} (h : s.attemptTarget space target position f = .blocked waiting) :
    ∀ key ∈ waiting, key.Exists s.layout.spaces := by
  rcases Evaluation.andThen_eq_blocked.mp h with h | ⟨v, hv, hcheck⟩
  · exact exists_of_evaluate hn hs hf h
  · have hlies := liesIn_evaluate hs hf (e := target) (v := v) (by rw [hv]; rfl)
    cases v with
    | absolute n => cases hcheck
    | relocatable x =>
      dsimp only at hcheck
      split at hcheck
      · split at hcheck
        · rename_i hopen
          cases hcheck
          exact List.forall_mem_singleton.mpr (Address.LiesIn.normalize hlies hs.closed space hopen)
        · cases hcheck
      · cases hcheck

theorem exists_of_attemptSpace (hn : s.Named) (hs : s.Scoped) (hf : f.Scoped s.layout.spaces) {space : SpaceId}
    {rule : SpaceRule} (hrule : rule.Anchored s.layout.spaces)
    (h : s.attemptSpace space rule f = .blocked waiting) : ∀ key ∈ waiting, key.Exists s.layout.spaces := by
  have hclosed := hs.closed
  cases rule with
  | storage e => exact exists_of_evaluateNumber hn hs hf (Evaluation.map_eq_blocked.mp h)
  | padding position reference alignment =>
    exact Length.exists_of_settled hclosed hrule.1 hrule.2 (Evaluation.map_eq_blocked.mp h)
  | jump target position boundary offset =>
    rcases Evaluation.andThen_eq_blocked.mp h with h | ⟨x, hx, hround⟩
    · exact exists_of_attemptTarget hn hs hf h
    · have hlies := liesIn_attemptTarget hs hf hx
      exact Evaluation.exists_of_ofExcept
        (fun _ => Address.index_lt_of_roundUp_error hlies hclosed) (Evaluation.map_eq_blocked.mp hround)
  | jumpToHighest candidates position =>
    exact Evaluation.exists_of_ofExcept (fun _ => Address.index_lt_of_highest_error hclosed hrule.2)
      (Evaluation.map_eq_blocked.mp h)
  | counterStart candidates sectionStart alignment =>
    rcases Evaluation.andThen_eq_blocked.mp h with h | ⟨x, hx, hlast⟩
    · exact Evaluation.exists_of_ofExcept (fun _ => Address.index_lt_of_highest_error hclosed hrule.2) h
    · have hfind := Evaluation.ofExcept_eq_resolved.mp hx
      exact Length.exists_of_settled hclosed (hrule.2 _ (Address.mem_of_highest hfind)) hrule.1
        (Evaluation.map_eq_blocked.mp hlast)

theorem exists_of_attemptCheck (hn : s.Named) (hs : s.Scoped) (hf : f.Scoped s.layout.spaces) {rule : CheckRule}
    (hrule : rule.Anchored s.layout.spaces) (h : s.attemptCheck rule f = .blocked waiting) :
    ∀ key ∈ waiting, key.Exists s.layout.spaces := by
  have hclosed := hs.closed
  cases rule with
  | notBelow origin target boundary offset =>
    rcases attemptCheck_notBelow_eq_blocked h with h | ⟨x, hx, -, hwait⟩
    · exact exists_of_evaluate hn hs hf h
    have hlies : x.LiesIn s.layout.spaces :=
      liesIn_evaluate hs hf (e := target) (v := .relocatable x) (by rw [hx]; rfl)
    rcases hwait with h | ⟨place, hplace, hgap⟩
    · exact Evaluation.exists_of_ofExcept (fun _ => Address.index_lt_of_roundUp_error hlies hclosed) h
    · have hplaced : place.LiesIn s.layout.spaces := hlies.roundUp hclosed hplace
      have hmoved : (place.addOffset offset).LiesIn s.layout.spaces := hplaced
      exact Length.exists_of_settled hclosed hmoved hrule hgap
  | lengthInRange e type min max =>
    exact exists_of_evaluateNumber hn hs hf (attemptCheck_lengthInRange_eq_blocked h)

/-- A job waits for no space that does not exist. -/
theorem exists_of_attempt (hn : s.Named) (hs : s.Scoped) {job : Job} (hframe : job.frame.Scoped s.layout.spaces)
    (htask : job.task.Anchored s.layout.spaces) (h : s.attempt job = .blocked waiting) :
    ∀ key ∈ waiting, key.Exists s.layout.spaces := by
  unfold attempt at h
  split at h <;> rename_i heq <;> rw [heq] at htask <;> have h := Evaluation.map_eq_blocked.mp h
  · exact exists_of_evaluate hn hs hframe h
  · rcases Evaluation.andThen_eq_blocked.mp h with h | ⟨v, -, hv⟩
    · exact exists_of_evaluate hn hs hframe h
    · cases v with
      | absolute n =>
        dsimp only at hv
        split at hv <;> cases hv
      | relocatable x => cases hv
  · exact exists_of_evaluateNumber hn hs hframe h
  · -- The integer attribute waits for attributes.
    obtain ⟨sym, -, -, rfl⟩ := attemptInteger_eq_blocked.mp h
    intro key hkey
    rcases List.mem_append.mp hkey with hkey | hkey <;> split at hkey
    · exact List.mem_singleton.mp hkey ▸ trivial
    · cases hkey
    · exact List.mem_singleton.mp hkey ▸ trivial
    · cases hkey
  · exact exists_of_attemptSpace hn hs hframe htask h
  · exact exists_of_attemptCheck hn hs hframe htask h

end Assembly

/-! ## 2. Moments -/

/-- What places a counter is known of existing spaces. -/
theorem Layout.Formed.anchored_placement {l : Layout} (h : l.Formed) {p : Layout.Placement}
    (hp : p ∈ l.placements) (alignment : Alignment) : (p.job alignment).task.Anchored l.spaces := by
  obtain ⟨⟨sect, i⟩, -, hp⟩ := List.mem_flatMap.mp hp
  obtain ⟨⟨previous, next⟩, -, hp⟩ := List.mem_filterMap.mp hp
  obtain ⟨before, hbefore, hp⟩ := Option.bind_eq_some_iff.mp hp
  obtain ⟨after, -, hp⟩ := Option.bind_eq_some_iff.mp hp
  obtain ⟨space, -, hp⟩ := Option.bind_eq_some_iff.mp hp
  obtain ⟨_, -, hp⟩ := Option.bind_eq_some_iff.mp hp
  cases hp
  have hplaced := h.places previous.index before hbefore
  refine ⟨Address.liesIn_of_spaces_nil rfl, fun x hx => ?_⟩
  rcases List.mem_append.mp hx with hx | hx
  · exact hplaced.marks x hx
  · exact List.mem_singleton.mp hx ▸ hplaced.position

namespace Moment

variable {m m' : Moment}

/-- Whether all jobs are in terms of existing spaces, and those that are pending wait for no other. -/
structure Anchored (m : Moment) : Prop where
  jobs : ∀ job, m.Carries job → job.task.Anchored m.state.layout.spaces
  waiting : ∀ id p, m.state.pendings.get? id = some p →
    ∀ key ∈ p.waiting, key.Exists m.state.layout.spaces

theorem Valid.anchored_completion (hv : m.Valid) (h : Completion m m') (ha : m.Anchored) : m'.Anchored := by
  have hearlier := h.step.grows.earlier.spaces
  refine ⟨fun job hc => ?_, fun id p hp key hkey => ?_⟩
  · rcases Completion.carries h hc with hc | ⟨p, hp, rfl⟩
    · exact (ha.jobs job hc).later hearlier
    · exact (hv.formed.anchored_placement hp _).later hearlier
  · rcases Step.pending h.step hp with hp | ⟨x, hx, hwork, hblocked⟩
    · exact (ha.waiting id p hp key hkey).later hearlier
    · -- The job at hand has just been put aside.
      have hframe := (hv.held x hx).inScope.frame
      rw [hwork] at hframe
      have hexists := Assembly.exists_of_attempt hv.wellFormed.named hv.wellFormed.inScope hframe
        (ha.jobs p.work (.inl ⟨x, hx, hwork⟩)) hblocked
      exact (hexists key hkey).later hearlier

theorem Valid.anchored_run (hv : m.Valid) (h : Run Completion m m') (ha : m.Anchored) : m'.Anchored :=
  (h.keeps (P := fun x => x.Valid ∧ x.Anchored)
    (fun _ _ hstep hx => ⟨hx.1.step hstep.step, hx.1.anchored_completion hstep hx.2⟩) ⟨hv, ha⟩).2

end Moment

namespace Assembly

variable {s t u : Assembly} {jobs : List Job}

/-! ## 3. Statements -/

/-- Between statements no job is at hand. -/
abbrev Anchored (s : Assembly) : Prop := Moment.Anchored ⟨s, [], .reading⟩

theorem Anchored.later (h : s.Anchored) (hpendings : t.pendings = s.pendings)
    (hearlier : s.layout.spaces.Earlier t.layout.spaces) {hand : List (Option Nat × Job)} {phase : Phase}
    (hjobs : ∀ x ∈ hand, x.2.task.Anchored t.layout.spaces) : Moment.Anchored ⟨t, hand, phase⟩ where
  jobs job hc := by
    rcases hc with ⟨x, hx, rfl⟩ | ⟨id, p, hp, rfl⟩
    · exact hjobs x hx
    · have hp : t.pendings.get? id = some p := hp
      rw [hpendings] at hp
      exact (h.jobs p.work (.inr ⟨id, p, hp, rfl⟩)).later hearlier
  waiting id p hp key hkey := by
    have hp : t.pendings.get? id = some p := hp
    rw [hpendings] at hp
    exact (h.waiting id p hp key hkey).later hearlier

theorem Anchored.alike (h : s.Anchored) (hst : s.Alike t) : t.Anchored :=
  h.later hst.pendings (hst.layout ▸ .refl _) fun _ hx => nomatch hx

/-- Jobs in terms of existing spaces are met. -/
theorem Launches.anchored_enter (h : s.Launches jobs u t) (ha : s.Anchored)
    (hjobs : ∀ job ∈ jobs, job.task.Anchored u.layout.spaces) :
    Moment.Anchored ⟨u, jobs.map (none, ·), .reading⟩ := by
  have hearlier := (Step.progress h.enter).grows.earlier.spaces
  refine ha.later h.pendings hearlier fun x hx => ?_
  obtain ⟨job, hjob, rfl⟩ := List.mem_map.mp hx
  exact hjobs job hjob

/-- Then others are with the cascade. -/
theorem Launches.anchored (h : s.Launches jobs u t) (hs : s.Ready) (ha : s.Anchored)
    (hjobs : ∀ job ∈ jobs, job.task.Anchored u.layout.spaces) : t.Anchored :=
  (hs.valid.progress h.enter).anchored_run (h.cascade.imp fun _ _ => .inl) (h.anchored_enter ha hjobs)

/-- Whether the layout is changed and perhaps a job comes up, which is one for a new space or a check. -/
structure Opens (s : Assembly) (layout : Layout) (job? : Option Job) : Prop where
  launches : s.Launches job?.toList { s with layout } ({ s with layout }.resolveAll job?.toList)
  anchored : ∀ job, job? = some job → job.task.Anchored layout.spaces
  fresh : ∀ job, job? = some job → (∃ rule, job.task = .check rule) ∨
    ∃ space rule, job.task = .space space rule ∧ s.layout.spaces.size ≤ space.index

theorem opens_arrange {layout : Layout} {job? : Option Job} (ha : s.layout.Arranges layout job?)
    (hanchored : ∀ job, job? = some job → job.task.Anchored s.layout.spaces) : s.Opens layout job? where
  launches := launches_arrange ha
  anchored job hjob := (hanchored job hjob).later ha.grows.earlier
  fresh job hjob := .inr (ha.job job hjob).2

theorem opens_layout {layout : Layout} (ha : s.layout.Arranges layout none) : s.Opens layout none :=
  opens_arrange ha fun _ hjob => nomatch hjob

theorem opens_check {rule : CheckRule} {f : Frame} (hrule : rule.Anchored s.layout.spaces)
    (hf : f.Scoped s.layout.spaces) : s.Opens s.layout (some ⟨.check rule, f⟩) where
  launches := @launches_check s ⟨.check rule, f⟩ rfl ⟨hf, trivial⟩
  anchored job hjob := by
    cases hjob
    exact hrule
  fresh job hjob := by
    cases hjob
    exact .inl ⟨rule, rfl⟩

/-- Padding reaches from the place of the counter to a multiple behind the reference of its alignment. -/
theorem anchored_padding (hs : s.Ready) {alignment : Alignment} {p : Layout.Padding} {layout : Layout}
    (h : s.layout.align alignment = (some p, layout)) :
    p.position.LiesIn s.layout.spaces ∧ p.reference.LiesIn s.layout.spaces := by
  have hformed := s.layout.arranges_ensureSection.formed hs.valid.formed
  have hposition := hformed.liesIn_position
  have hreference : (s.layout.ensureSection.alignmentReference alignment).LiesIn
      s.layout.ensureSection.spaces := by
    unfold Layout.alignmentReference
    split
    · exact hformed.liesIn_origin
    · cases s.layout.ensureSection.currentSection? <;> exact Address.liesIn_of_spaces_nil rfl
  rw [Layout.spaces_ensureSection] at hposition hreference
  rcases s.layout.align_outcome _ with heq | ⟨n, heq⟩ | heq <;> rw [heq] at h <;> cases h
  exact ⟨hposition, hreference⟩

theorem opens_align (hs : s.Ready) (alignment : Alignment) {f : Frame} (hf : f.Scoped s.layout.spaces) :
    ∃ layout job?, s.Opens layout job? ∧ (∀ job, job? = some job → job.frame = f) ∧
      s.align alignment f = { s with layout }.resolveAll job?.toList := by
  unfold align
  split
  · rename_i layout h
    exact ⟨layout, none, opens_layout (Layout.arranges_align_none h), (fun _ h => nomatch h), rfl⟩
  · rename_i p layout h
    refine ⟨layout, some _, opens_arrange (Layout.arranges_align_some h hf) fun job hjob => ?_, fun job hjob => ?_,
      rfl⟩ <;> cases hjob
    · exact anchored_padding hs h
    · rfl

theorem opens_reserveStorage (s : Assembly) (op : DataOperand) (label? : Option Name)
    (duplication length : Amount) {f : Frame} (hf : f.Scoped s.layout.spaces) :
    ∃ layout job?, s.Opens layout job? ∧ (∀ job, job? = some job → job.frame = f) ∧
      s.reserveStorage op label? duplication length f = { s with layout }.resolveAll job?.toList := by
  unfold reserveStorage
  split
  · exact ⟨_, none, opens_layout (s.layout.arranges_reserve _), (fun _ h => nomatch h), rfl⟩
  · dsimp only
    generalize (if op.length?.isSome then Alignment.any else op.type.alignment) = guarantee
    refine ⟨_, some _, opens_arrange (@Layout.arranges_passSpace s.layout guarantee
      (.storage (storageExpr op label? duplication length)) trivial f hf) fun job hjob => ?_, fun job hjob => ?_,
      rfl⟩ <;> cases hjob
    · trivial
    · rfl

variable {st : Statement}

/-- A statement reports something, opens something or enters its label, piece by piece. -/
theorem Act.cases (h : Act st s t) (hs : s.Ready) :
    (∃ fault, st.Reports fault ∧ t = s.report fault st.location) ∨
      (∃ layout job?, s.Opens layout job? ∧ (∀ job, job? = some job → job.frame.location = st.location) ∧
        t = { s with layout }.resolveAll job?.toList) ∨
      ∃ u sym jobs, s.createSymbol? sym = some u ∧ st.Supplies sym jobs s.layout.spaces ∧
        (∀ job ∈ jobs, job.task.Anchored s.layout.spaces) ∧ t = u.resolveAll jobs := by
  -- A change of the layout alone leaves no job.
  have layout : ∀ {layout : Layout}, s.layout.Arranges layout none → t = { s with layout } →
      ∃ layout job?, s.Opens layout job? ∧ (∀ job, job? = some job → job.frame.location = st.location) ∧
        t = { s with layout }.resolveAll job?.toList :=
    fun ha heq => ⟨_, none, opens_layout ha, (fun _ h => nomatch h), heq⟩
  cases h with
  | still h =>
    cases h with
    | report hf => exact .inl ⟨_, hf, rfl⟩
    | ensure => exact .inr (.inl (layout s.layout.arranges_ensureSection rfl))
    | enter ht hsupplies hanchored => exact .inr (.inr ⟨_, _, _, ht, hsupplies, hanchored, rfl⟩)
    | check hrule hf hlocation =>
      refine .inr (.inl ⟨s.layout, some _, opens_check hrule hf, fun job hjob => ?_, rfl⟩)
      cases hjob
      exact hlocation
  | @createSection name? kind _ => exact .inr (.inl (layout (s.layout.arranges_createSection name? kind) rfl))
  | resumeSection sect => exact .inr (.inl (layout (s.layout.arranges_resumeSection sect) rfl))
  | resumeCounter c => exact .inr (.inl (layout (s.layout.arranges_resumeCounter c) rfl))
  | createCounter name => exact .inr (.inl (layout (s.layout.arranges_createCounter name) rfl))
  | align type hf hlocation =>
    obtain ⟨layout, job?, hopens, hframe, heq⟩ := opens_align hs type.alignment hf
    exact .inr (.inl ⟨layout, job?, hopens, fun job hjob => hframe job hjob ▸ hlocation, heq⟩)
  | reserve i => exact .inr (.inl (layout (s.layout.arranges_reserve _) rfl))
  | @store op label? duplication length f _ _ hf hlocation =>
    obtain ⟨layout, job?, hopens, hframe, heq⟩ := s.opens_reserveStorage op label? duplication length hf
    exact .inr (.inl ⟨layout, job?, hopens, fun job hjob => hframe job hjob ▸ hlocation, heq⟩)
  | moveTo _ hplace => exact .inr (.inl (layout (s.layout.arranges_moveTo hplace) rfl))
  | jump _ hrule hanchored hf hlocation =>
    refine .inr (.inl ⟨_, some _, opens_arrange (Layout.arranges_jump _ hrule hf) fun job hjob => ?_,
      fun job hjob => ?_, rfl⟩) <;> cases hjob
    · exact hanchored
    · exact hlocation

theorem Act.anchored (h : Act st s t) (hs : s.Ready) (ha : s.Anchored) : t.Anchored := by
  rcases h.cases hs with ⟨fault, -, rfl⟩ | ⟨layout, job?, hopens, -, rfl⟩ |
    ⟨u, sym, jobs, hu, hsupplies, hanchored, rfl⟩
  · exact ha.alike (s.alike_report fault _)
  · exact hopens.launches.anchored hs ha fun job hjob => hopens.anchored job (Option.mem_toList.mp hjob)
  · obtain ⟨symbols, -, hlaunches⟩ := launches_supplies hsupplies hu
    have hearlier := (Step.progress hlaunches.enter).grows.earlier.spaces
    exact hlaunches.anchored hs ha fun job hjob => (hanchored job hjob).later hearlier

theorem Acts.anchored (h : Acts st s t) (hs : s.Ready) (ha : s.Anchored) : t.Anchored := by
  induction h with
  | refl => exact ha
  | tail hacts hact ih => exact hact.anchored (Acts.ready hacts hs) ih

end Assembly

end Assembler
