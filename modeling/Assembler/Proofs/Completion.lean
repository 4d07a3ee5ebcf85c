import Assembler.Proofs.Acyclicity
import Assembler.Proofs.Outcome
import Mathlib.Data.List.Induction
import Mathlib.Logic.ExistsUnique
/-!
What is complete when the source has been read to its end.

As long as a symbol has no value, exactly one piece of pending work will give it one
(`Moment.Valid.existsUnique_producer`). At the end of the source all pending work is done or dropped, so
every symbol has a value then (`Session.defined_of_finish`).

Spaces get their lengths in the same way, with one exception. The length of a move to a target may turn out
to be in terms of the space of the move, and then the space gets none
(`Moment.Valid.wastes`). All other spaces have a length in the end (`Session.resolved_of_finish`).
-/

namespace Assembler

open Assembly Moment

/-! ## 1. What is owed -/

namespace Moment

variable {s : Assembly} {phase : Phase}

/-- When no job is at hand, what has a job is produced by exactly one piece of pending work. -/
theorem Valid.existsUnique_of_hasJob (h : Valid ⟨s, [], phase⟩) {key : Prerequisite}
    (hjob : HasJob ⟨s, [], phase⟩ key) :
    ∃! id, ∃ p, s.pendings.get? id = some p ∧ p.work.task.product? = some key := by
  rcases hjob with hprod | ⟨x, hx, -⟩
  · obtain ⟨id, hid⟩ := Option.isSome_iff_exists.mp hprod
    obtain ⟨p, hp, hkey⟩ := (h.indexed.producers key id).mp hid
    refine ⟨id, ⟨p, hp, hkey⟩, ?_⟩
    rintro j ⟨q, hq, hqkey⟩
    exact h.indexed.eq_of_product? hq hp hqkey hkey
  · cases hx

/-- So is what is owed. -/
theorem Valid.existsUnique_producer (h : Valid ⟨s, [], phase⟩) (key : Prerequisite)
    (hexp : s.Expects key) (howed : Owed ⟨s, [], phase⟩ key) :
    ∃! id, ∃ p, s.pendings.get? id = some p ∧ p.work.task.product? = some key :=
  h.existsUnique_of_hasJob (h.owed key hexp howed)

end Moment

/-- Only the value of a symbol is a value. -/
theorem Task.eq_value_of_product? {t : Task} {n : Name} (h : t.product? = some (.symbol n)) :
    ∃ e, t = .value n e := by
  cases t with
  | value m e =>
    cases h
    exact ⟨e, rfl⟩
  | length | scale | integer | space | check => cases h

/-! ## 2. What becomes of the job of a space -/

namespace Assembly

variable {s t : Assembly} {job : Job} {space : SpaceId} {id? : Option Nat}

/-- Whether the length that a job gives to a space now is in terms of that space. -/
def Encloses (s : Assembly) (job : Job) (space : SpaceId) : Prop :=
  ∃ length, (s.attempt job).value? = some (.space space length) ∧
    space ∈ length.spaces.map Prod.fst

/-- An open space gets the length that is given to it, unless the length is in terms of the space. -/
theorem isResolved_establish {d : Definition} (hexp : s.Expects (.space space))
    (hd : d.product? = some (.space space)) :
    (s.establish d).layout.spaces.isResolved space ∨
      ∃ length, d = .space space length ∧ space ∈ length.spaces.map Prod.fst := by
  by_cases hself : ∃ length, d = .space space length ∧ space ∈ length.spaces.map Prod.fst
  · exact .inr hself
  obtain ⟨t, ht⟩ := exists_define? hexp hd fun k length hlength => by
    subst hlength
    cases hd
    exact fun hmem => hself ⟨length, rfl, hmem⟩
  have hres : t.layout.spaces.isResolved space := by
    refine Classical.byContradiction fun hno => ?_
    have hlt : space.index < t.layout.spaces.size := (keeps_define? ht).size ▸ hexp.1
    exact ((expects_define? ht (.space space)).mp ⟨hlt, hno⟩).2 hd
  unfold establish
  rw [ht, hd]
  exact .inl hres

/-- When the job of a space is done, the space has a length, unless that is in terms of the space. A fallback
is in terms of no space. -/
theorem Does.isResolved (h : s.Does job t) (hexp : s.Expects (.space space))
    (hkey : job.task.product? = some (.space space)) :
    t.layout.spaces.isResolved space ∨ s.Encloses job space := by
  obtain ⟨u, d, hst, hval, hd, rfl⟩ := h.exists_establish
  rcases isResolved_establish ((hst.expects _).mpr hexp) (hd.trans hkey) with
    hres | ⟨length, rfl, hmem⟩
  · exact .inl hres
  · rcases hval with hval | hfallback
    · exact .inr ⟨length, hval, hmem⟩
    · cases htask : job.task with
      | space k rule =>
        rw [htask] at hfallback
        cases hfallback
        cases hmem
      | value | length | scale | integer | check =>
        rw [htask] at hkey
        cases hkey

/-- A job that comes up leaves the producers of everything else alone. -/
theorem producer?_settle {key : Prerequisite} (hne : job.task.product? ≠ some key) :
    (s.settle id? job).pendings.producer? key = s.pendings.producer? key := by
  rcases settle_outcome s id? job with hdoes | ⟨waiting, -, -, heq⟩
  · rw [hdoes.pendings]
  · rw [heq, producer?_postpone, if_neg hne]

theorem isResolved_settle (hexp : s.Expects (.space space))
    (hkey : job.task.product? = some (.space space)) :
    ((s.settle id? job).pendings.producer? (.space space)).isSome ∨
      (s.settle id? job).layout.spaces.isResolved space ∨ s.Encloses job space := by
  rcases settle_outcome s id? job with hdoes | ⟨waiting, -, -, heq⟩
  · exact .inr (hdoes.isResolved hexp hkey)
  · refine .inl ?_
    rw [heq, producer?_postpone, if_pos hkey]
    rfl

end Assembly

namespace Moment

variable {m m' : Moment} {space : SpaceId}

theorem HasJob.of_subset {key : Prerequisite} (h : m.HasJob key)
    (hpendings : m'.state.pendings = m.state.pendings) (hhand : m.hand ⊆ m'.hand) :
    m'.HasJob key := by
  rcases h with hprod | ⟨x, hx, hkey⟩
  · exact .inl (by rw [hpendings]; exact hprod)
  · exact .inr ⟨x, hhand hx, hkey⟩

/-- Only a move to a target can have a length in terms of its own space. -/
theorem Held.kind?_of_encloses {s : Assembly} {x : Option Nat × Job} (h : Held s x)
    (hs : s.WellFormed) (henc : s.Encloses x.2 space) :
    s.layout.spaces.kind? space = some .jump := by
  obtain ⟨length, hval, hmem⟩ := henc
  have hsound : length.Sound s.layout.spaces space :=
    sound_attempt hs.inScope hs.acyclic h.inScope hval
  refine Classical.byContradiction fun hne => ?_
  rw [hsound.plain hne] at hmem
  cases hmem

/-- A job that will give a length to a space is kept until the space has one, or until the job is that of a
move to a target and the length is in terms of the space. -/
theorem Valid.space_step (h : m.Valid) (hstep : Step m m') (hjob : m.HasJob (.space space)) :
    m'.HasJob (.space space) ∨ m'.state.layout.spaces.isResolved space ∨
      (m.state.layout.spaces.kind? space = some .jump ∧
        ∃ x ∈ m.hand, m.state.Encloses x.2 space) := by
  have enclosed : ∀ x ∈ m.hand, m.state.Encloses x.2 space →
      m.state.layout.spaces.kind? space = some .jump ∧ ∃ x ∈ m.hand, m.state.Encloses x.2 space :=
    fun x hx henc => ⟨(h.held x hx).kind?_of_encloses h.wellFormed henc, x, hx, henc⟩
  have hexp := h.expected_of_hasJob hjob
  cases hstep with
  | cascade hstep =>
    cases hstep with
    | @settle s hand id? job phase =>
      by_cases hkey : job.task.product? = some (.space space)
      · rcases isResolved_settle hexp hkey with hprod | hres | henc
        · exact .inl (.inl hprod)
        · exact .inr (.inl hres)
        · exact .inr (.inr (enclosed _ List.mem_cons_self henc))
      · refine .inl ?_
        rcases hjob with hprod | ⟨x, hx, hxk⟩
        · exact .inl ((producer?_settle hkey).symm ▸ hprod)
        · rcases List.mem_cons.mp hx with rfl | hx
          · exact absurd hxk hkey
          · exact .inr ⟨x, hx, hxk⟩
    | @pick s hand phase id rest p pendings _ ht =>
      have hs : Valid ⟨{ s with worklist := rest }, hand, phase⟩ := h.alike ⟨rfl, rfl, rfl, rfl⟩
      exact .inl ((hs.hasJob_take ht _).mpr hjob)
    | skip | stall | resume => exact .inl hjob
  | progress hstep =>
    refine .inl ?_
    cases hstep with
    | report d => exact hjob.of_subset (alike_addDiagnostic _ d).pendings (List.Subset.refl _)
    | enter => exact hjob.of_subset (alike_foldl_wake _ _).pendings (List.subset_append_left _ _)
    | arrange | check => exact hjob.of_subset rfl (List.subset_append_left _ _)
    | defineMacro | defineVariable => exact hjob
  | ending hstep =>
    cases hstep with
    | place => exact .inl (hjob.of_subset rfl (List.nil_subset _))
    | close => exact .inl hjob
    | explain => exact .inl (hjob.of_subset (pendings_explain _ _ _) (List.Subset.refl _))
    | choose ht => exact .inl ((h.hasJob_take ht _).mpr hjob)
    | @conclude s id? job explained _ _ _ hexplained =>
      by_cases hkey : job.task.product? = some (.space space)
      · rcases (conclude_outcome hexplained job).isResolved hexp hkey with hres | henc
        · exact .inr (.inl hres)
        · exact .inr (.inr (enclosed _ (List.mem_singleton_self _) henc))
      · rcases hjob with hprod | ⟨x, hx, hxk⟩
        · exact .inl (.inl ((pendings_conclude s explained job).symm ▸ hprod))
        · rw [List.mem_singleton.mp hx] at hxk
          exact absurd hxk hkey
    | clear _ _ hnone => exact absurd hjob (h.not_hasJob hnone _)

/-- A further space is the start of a counter, or there is a job for it. -/
theorem Step.further (h : Step m m') (hold : m.state.layout.spaces.size ≤ space.index)
    (hnew : space.index < m'.state.layout.spaces.size) :
    m'.state.layout.HasStart space ∨ m'.HasJob (.space space) := by
  have same : m'.state.layout.spaces.size = m.state.layout.spaces.size →
      m'.state.layout.HasStart space ∨ m'.HasJob (.space space) := fun hsize => by omega
  cases h with
  | cascade h => exact same h.steady.size
  | progress h =>
    cases h with
    | report d => exact same (steady_addDiagnostic _ d).size
    | @arrange s hand layout job? ha =>
      rcases ha.further space hold hnew with hstart | ⟨job, rule, hjob, htask⟩
      · exact .inl hstart
      · have hmem : (none, job) ∈ job?.toList.map ((none : Option Nat), ·) :=
          List.mem_map_of_mem (Option.mem_toList.mpr hjob)
        exact .inr (.inr ⟨_, List.mem_append_right _ hmem, by rw [htask]; rfl⟩)
    | enter => exact same (steady_foldl_wake _ _).size
    | check | defineMacro | defineVariable => exact same rfl
  | ending h =>
    cases h with
    | explain => exact same (congrArg (·.spaces.size) (alike_explain _ _ _).layout)
    | conclude _ _ _ _ hexplained => exact same (conclude_outcome hexplained _).size
    | place | close | choose | clear => exact same rfl

/-- Whether a step leaves a space without a job and without a length, because its job has been done with a length in
terms of the space. -/
structure Wastes (m m' : Moment) (space : SpaceId) : Prop where
  encloses : ∃ x ∈ m.hand, m.state.Encloses x.2 space
  jobless : ¬ m'.HasJob (.space space)
  unresolved : ¬ m'.state.layout.spaces.isResolved space

/-- No job is done in vain but those of moves to targets. -/
theorem Valid.wastes (h : m.Valid) (hstep : Step m m') (hjob : m.HasJob (.space space)) :
    m'.HasJob (.space space) ∨ m'.state.layout.spaces.isResolved space ∨
      (m.state.layout.spaces.kind? space = some .jump ∧ m.Wastes m' space) := by
  by_cases hjobless : m'.HasJob (.space space)
  · exact .inl hjobless
  · by_cases hresolved : m'.state.layout.spaces.isResolved space
    · exact .inr (.inl hresolved)
    · rcases h.space_step hstep hjob with hkept | hres | ⟨hkind, hencloses⟩
      · exact absurd hkept hjobless
      · exact absurd hres hresolved
      · exact .inr (.inr ⟨hkind, hencloses, hjobless, hresolved⟩)

/-- Whether there is such a step on a way from one moment to another. -/
def Spent (m m' : Moment) (space : SpaceId) : Prop :=
  ∃ a b, Run Step m a ∧ Step a b ∧ Run Step b m' ∧ a.Wastes b space

theorem Spent.run {c : Moment} (h : m.Spent m' space) (hrun : Run Step m' c) : m.Spent c space := by
  obtain ⟨a, b, hto, hstep, hfrom, hwastes⟩ := h
  exact ⟨a, b, hto, hstep, hfrom.trans hrun, hwastes⟩

/-- As long as the space of a move to a target is open, its job is still to be done or has been done in
vain. -/
theorem Valid.hasJob_or_spent (h : m.Valid) (hrun : Run Step m m')
    (hjob : m.state.Expects (.space space) → m.HasJob (.space space)) (hexp : m'.state.Expects (.space space))
    (hkind : m'.state.layout.spaces.kind? space = some .jump) :
    m'.HasJob (.space space) ∨ m.Spent m' space := by
  induction hrun with
  | refl => exact .inl (hjob hexp)
  | @tail b c hrun hstep ih =>
    have hspaces := hstep.grows.earlier.spaces
    by_cases hlt : space.index < b.state.layout.spaces.size
    · have hopen : ¬ b.state.layout.spaces.isResolved space := fun hres =>
        hexp.2 (hspaces.isResolved hres)
      rcases ih ⟨hlt, hopen⟩ ((hspaces.kind?_eq hlt).symm.trans hkind) with hjob | hspent
      · rcases (h.run hrun).wastes hstep hjob with hjob | hres | ⟨-, hwastes⟩
        · exact .inl hjob
        · exact absurd hres hexp.2
        · exact .inr ⟨b, c, hrun, hstep, .refl c, hwastes⟩
      · exact .inr (hspent.run (.single hstep))
    · rcases Step.further hstep (Nat.le_of_not_lt hlt) hexp.1 with hstart | hjob
      · have hformed := ((h.run hrun).step hstep).formed
        rw [hformed.kind?_of_hasStart hstart] at hkind
        cases hkind
      · exact .inl hjob

end Moment

/-! ## 3. The end of the source -/

namespace Assembly

variable {s : Assembly}

theorem Ready.finish (hs : s.Ready) : s.finish.Ready := (follows_finish hs).ready hs

theorem size_pendings_finish (hs : s.Ready) (hf : s.finished = false) :
    s.finish.pendings.size = 0 := by
  obtain ⟨u, -, -, -, heq⟩ := exists_closing hs hf
  rw [heq]
  exact Std.ExtTreeMap.size_empty

/-- At the end of the source nothing is owed any more. -/
theorem not_expects_finish (hs : s.Ready) (hf : s.finished = false) {key : Prerequisite}
    (howed : Owed ⟨s.finish, [], .closing⟩ key) : ¬ s.finish.Expects key := by
  obtain ⟨u, hrun, -, hnone, heq⟩ := exists_closing hs hf
  rw [heq] at howed ⊢
  have hv : Valid ⟨u, [], .closing⟩ := hs.valid.run (hrun.imp fun _ _ => Completion.step)
  exact fun hexp => hv.not_hasJob hnone key
    (hv.owed key ((expects_pendings u _ key).mp hexp) howed)

/-- A space without a length in the end is that of a move to a target. -/
theorem kind?_of_expects_finish (hs : s.Ready) (hf : s.finished = false) {k : SpaceId}
    (hexp : s.finish.Expects (.space k)) : s.finish.layout.spaces.kind? k = some .jump := by
  refine Classical.byContradiction fun hne => ?_
  have howed : Owed ⟨s.finish, [], .closing⟩ (.space k) := ⟨hne, fun hph => by cases hph⟩
  exact not_expects_finish hs hf howed hexp

/-- If its job was still to be done at the end of the source, it has been done in vain since. -/
theorem spent_finish (hs : s.Ready) (hf : s.finished = false) {k : SpaceId}
    (hjob : s.Expects (.space k) → HasJob ⟨s, [], .reading⟩ (.space k)) (hexp : s.finish.Expects (.space k)) :
    Spent ⟨s, [], .reading⟩ ⟨s.finish, [], .reading⟩ k := by
  have hkind := kind?_of_expects_finish hs hf hexp
  obtain ⟨u, hrun, hdone, hnone, heq⟩ := exists_closing hs hf
  have hclear : Step ⟨u, [], .closing⟩ ⟨{ u with pendings := u.pendings.clear }, [], .reading⟩ :=
    .ending (.clear hdone.1 hdone.2 hnone)
  rw [heq] at hexp hkind ⊢
  have hrun := hrun.imp fun _ _ => Completion.step
  rcases hs.valid.hasJob_or_spent hrun hjob ((expects_pendings u _ _).mp hexp) hkind with hkept | hspent
  · exact absurd hkept ((hs.valid.run hrun).not_hasJob hnone _)
  · exact hspent.run (.single hclear)

theorem isDefined_finish (hs : s.Ready) (hf : s.finished = false) {n : Name} {sym : Symbol}
    (hsym : s.finish.symbols.get? n = some sym) : sym.isDefined := by
  cases hv : sym.value? with
  | some v => rw [Symbol.isDefined, hv]; rfl
  | none => exact absurd ⟨sym, hsym, hv⟩ (@not_expects_finish s hs hf (.symbol n) trivial)

end Assembly

/-! ## 4. What is known when the end of the source is reached -/

/-- Whether steps keep `P`, provided that `Q` holds of the states after the end of the source. -/
structure Lasting (P : Moment → Prop) (Q : Assembly → Prop) : Prop where
  step : ∀ m m', Step m m' → P m → (m'.state.finished → Q m'.state) → P m'
  later : ∀ s t : Assembly, s.Earlier t → Q s → Q t

namespace Lasting

variable {P : Moment → Prop} {Q : Assembly → Prop} {m m' : Moment}

/-- Before the end of the source. -/
theorem run_open (h : Lasting P Q) {R : Moment → Moment → Prop} (hrun : Run R m m')
    (hR : ∀ a b, R a b → Step a b ∧ b.state.finished = a.state.finished) (hm : P m)
    (hf : m.state.finished = false) : P m' ∧ m'.state.finished = false := by
  refine hrun.keeps (P := fun x => P x ∧ x.state.finished = false) (fun a b hab ⟨ha, haf⟩ => ?_)
    ⟨hm, hf⟩
  obtain ⟨hstep, hsame⟩ := hR a b hab
  have hbf := hsame.trans haf
  refine ⟨h.step a b hstep ha fun hfin => ?_, hbf⟩
  rw [hbf] at hfin
  cases hfin

/-- Once `Q` holds. -/
theorem run_known (h : Lasting P Q) (hrun : Run Step m m') (hm : P m) (hq : Q m.state) :
    P m' ∧ Q m'.state := by
  refine hrun.keeps (P := fun x => P x ∧ Q x.state) (fun a b hab ⟨ha, haq⟩ => ?_) ⟨hm, hq⟩
  have hbq := h.later _ _ hab.grows.earlier haq
  exact ⟨h.step a b hab ha fun _ => hbq, hbq⟩

/-- It is enough that `Q` holds when the further location counters have been placed. -/
theorem exists_closing (h : Lasting P Q) {s : Assembly} (hs : s.Ready) (hf : s.finished = false)
    (hm : P ⟨s, [], .reading⟩) (hq : Q s.placeCounters.drainAll) :
    ∃ u : Assembly, Run Step ⟨s, [], .reading⟩ ⟨u, [], .closing⟩ ∧ P ⟨u, [], .closing⟩ ∧ Q u ∧
      u.Done ∧ Ending ⟨u, [], .closing⟩ ⟨s.finish, [], .reading⟩ ∧
        s.finish = { u with pendings := u.pendings.clear } := by
  have hdone := s.placeCounters.drainAll_done
  have hplace : Step ⟨s, [], .reading⟩ _ := .ending (.place hf)
  have hclose : Step ⟨s.placeCounters.drainAll, [], .placing⟩ _ :=
    .ending (.close hdone.1 hdone.2)
  obtain ⟨hplaced, -⟩ := h.run_open s.run_placeCounters
    (fun _ _ hstep => ⟨.cascade hstep, hstep.steady.finished⟩)
    (h.step _ _ hplace hm fun hfin => by
      rw [show _ = false from hf] at hfin
      cases hfin) hf
  have hclosed := h.later _ _ hclose.grows.earlier hq
  obtain ⟨u, hrun, hudone, hnone, heq⟩ := exists_closing_of_placed hs hf
  have hrun := hrun.imp fun _ _ => Completion.step
  obtain ⟨hu, huq⟩ := h.run_known hrun (h.step _ _ hclose hplaced fun _ => hclosed) hclosed
  have hreach := ((Run.single hplace).trans (s.run_placeCounters.imp fun _ _ => .cascade)).trans
    ((Run.single hclose).trans hrun)
  exact ⟨u, hreach, hu, huq, hudone, heq ▸ .clear hudone.1 hudone.2 hnone, heq⟩

end Lasting

/-! ## 5. Sessions -/

namespace Session

theorem leads_statements (statements : List Statement) {s : Session} (hs : s.assembly.Ready) :
    s.assembly.Leads (s.performAll (statements.map .process)).assembly := by
  induction statements generalizing s with
  | nil => exact .refl _
  | cons st rest ih =>
    have hfirst := leads_process hs st
    exact hfirst.trans (@ih (s.perform (.process st)) (hfirst.ready hs))

/-- After statements only, the end of the source has not been reached. -/
theorem ready_statements (settings : Settings) (statements : List Statement) :
    let s := ((new settings).performAll (statements.map .process)).assembly
    s.Ready ∧ s.finished = false := by
  have hlead := @leads_statements statements (new settings) (ready_new settings)
  exact ⟨hlead.ready (ready_new settings), hlead.finished⟩

/-- A statement in the middle leads to the state after the last one. -/
theorem leads_rest (settings : Settings) (before after : List Statement) (st : Statement) :
    (((new settings).performAll (before.map .process)).assembly.process st).Leads
      ((new settings).performAll ((before ++ st :: after).map .process)).assembly := by
  obtain ⟨hready, -⟩ := ready_statements settings before
  have hnext := @leads_statements after
    (((new settings).performAll (before.map .process)).perform (.process st))
    ((leads_process hready st).ready hready)
  have hsplit : (before ++ st :: after).map Command.process =
      before.map .process ++ .process st :: after.map .process := by simp
  rw [hsplit]
  unfold performAll at hnext ⊢
  rw [List.foldl_append]
  exact hnext

/-- Every symbol without a value has one piece of pending work that will give it one. At the end of the
source no work is pending, and all symbols have values. -/
theorem defined_of_finish (settings : Settings) (statements : List Statement) :
    let s := ((new settings).performAll (statements.map .process)).assembly
    (∀ n sym, s.symbols.get? n = some sym → sym.value? = none →
      ∃! id, ∃ p e, s.pendings.get? id = some p ∧ p.work.task = .value n e) ∧
    s.finish.pendings.size = 0 ∧
    ∀ n sym, s.finish.symbols.get? n = some sym → ∃ v, sym.value? = some v := by
  intro s
  obtain ⟨hready, hf⟩ := ready_statements settings statements
  refine ⟨fun n sym hsym hv => ?_, size_pendings_finish hready hf, fun n sym hsym => ?_⟩
  · obtain ⟨id, ⟨p, hp, hkey⟩, hunique⟩ :=
      hready.valid.existsUnique_producer (.symbol n) ⟨sym, hsym, hv⟩ trivial
    obtain ⟨e, he⟩ := Task.eq_value_of_product? hkey
    refine ⟨id, ⟨p, e, hp, he⟩, ?_⟩
    rintro j ⟨q, e', hq, he'⟩
    exact hunique j ⟨q, hq, by rw [he']; rfl⟩
  · exact Option.isSome_iff_exists.mp (isDefined_finish hready hf hsym)

/-- The open space of a move to a target has a job, or the job has been done in vain in the course of a statement. -/
theorem hasJob_or_spent (settings : Settings) (statements : List Statement) {k : SpaceId} :
    let after := fun sts : List Statement => ((new settings).performAll (sts.map .process)).assembly
    (after statements).Expects (.space k) → (after statements).layout.spaces.kind? k = some .jump →
      HasJob ⟨after statements, [], .reading⟩ (.space k) ∨
        ∃ before st rest, statements = before ++ st :: rest ∧
          Spent ⟨after before, [], .reading⟩ ⟨(after before).process st, [], .reading⟩ k := by
  intro after
  induction statements using List.reverseRecOn with
  | nil => exact fun hexp => absurd hexp.1 (Nat.not_lt_zero _)
  | append_singleton before st ih =>
    have hlast : after (before ++ [st]) = (after before).process st := by
      dsimp only [after, performAll]
      rw [List.map_append, List.foldl_append]
      rfl
    rw [hlast]
    intro hexp hkind
    have hready := (ready_statements settings before).1
    have hsteps := (leads_process hready st).steps
    have hspaces := hsteps.grows.earlier.spaces
    by_cases hearlier : (after before).Expects (.space k) ∧ ¬ HasJob ⟨after before, [], .reading⟩ (.space k)
    · obtain ⟨hexpected, hjobless⟩ := hearlier
      rcases ih hexpected ((hspaces.kind?_eq hexpected.1).symm.trans hkind) with hjob | ⟨first, st', rest, rfl, hspent⟩
      · exact absurd hjob hjobless
      · exact .inr ⟨first, st', rest ++ [st], by simp, hspent⟩
    · have hjob := fun hexpected => Classical.not_not.mp (not_and.mp hearlier hexpected)
      exact (hready.valid.hasJob_or_spent hsteps hjob hexp hkind).imp_right fun hspent =>
        ⟨before, st, [], rfl, hspent⟩

/-- At the end of the source every space has a length, except for the space of a move to a target whose job has been
done with a length in terms of that space, in the course of a statement or at the end. At no moment the job of any
other space is done without giving it a length. -/
theorem resolved_of_finish (settings : Settings) (statements : List Statement) :
    let after := fun sts : List Statement => ((new settings).performAll (sts.map .process)).assembly
    let s := after statements
    (∀ k : SpaceId, s.finish.layout.spaces.size ≤ k.index ∨ s.finish.layout.spaces.isResolved k ∨
      (s.finish.layout.spaces.kind? k = some .jump ∧
        (Spent ⟨s, [], .reading⟩ ⟨s.finish, [], .reading⟩ k ∨
          ∃ before st rest, statements = before ++ st :: rest ∧
            Spent ⟨after before, [], .reading⟩ ⟨(after before).process st, [], .reading⟩ k))) ∧
    ∀ m m', m.Reachable settings → Step m m' → ∀ k, m.HasJob (.space k) →
      m'.HasJob (.space k) ∨ m'.state.layout.spaces.isResolved k ∨
        (m.state.layout.spaces.kind? k = some .jump ∧ m.Wastes m' k) := by
  intro after s
  refine ⟨fun k => ?_, fun m m' hm hstep k hjob => hm.valid.wastes hstep hjob⟩
  obtain ⟨hready, hf⟩ := ready_statements settings statements
  by_cases hlt : k.index < s.finish.layout.spaces.size
  · by_cases hres : s.finish.layout.spaces.isResolved k
    · exact .inr (.inl hres)
    · have hkind := kind?_of_expects_finish hready hf ⟨hlt, hres⟩
      refine .inr (.inr ⟨hkind, ?_⟩)
      have hspaces := (follows_finish hready).run.grows.earlier.spaces
      by_cases hearlier : s.Expects (.space k) ∧ ¬ HasJob ⟨s, [], .reading⟩ (.space k)
      · obtain ⟨hexpected, hjobless⟩ := hearlier
        have hkind := (hspaces.kind?_eq hexpected.1).symm.trans hkind
        exact .inr ((hasJob_or_spent settings statements hexpected hkind).resolve_left hjobless)
      · exact .inl (spent_finish hready hf
          (fun hexpected => Classical.not_not.mp (not_and.mp hearlier hexpected)) ⟨hlt, hres⟩)
  · exact .inl (Nat.le_of_not_lt hlt)

end Session

end Assembler
