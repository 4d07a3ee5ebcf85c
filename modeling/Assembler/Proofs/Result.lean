import Assembler.Proofs.Completion
/-!
Results of jobs in the end.

A job that produces something is kept until it is done, and none is left at the end of the source. So every such
job has been done at some moment (`Moment.Valid.exists_finishes`). If nothing is reported, it has been done
with its result then (`Moment.Valid.exists_result`), and a space has ended with the length that its rule gives
(`Moment.Valid.exists_length`). The start of a further counter is open until the counters are placed, so this
holds of it too (`Assembly.exists_start`).
-/

namespace Assembler

open Assembly Moment

/-! ## 1. Jobs that are done -/

namespace Assembly

variable {s t u : Assembly} {job : Job} {key : Prerequisite} {d : Definition}

/-- Without any report a job has been done with its result. -/
theorem Does.resolved (h : s.Does job u) (hlog : s.reported ≠ [] → s.diagnostics ≠ [])
    (hclean : u.diagnostics = []) : ∃ d, s.attempt job = .resolved d ∧ u = s.establish d := by
  cases h with
  | result d hd heq => exact ⟨d, hd, heq⟩
  | instead t d _ hreport _ heq =>
    rw [heq, diagnostics_establish] at hclean
    exact absurd hclean (hreport hlog)

/-- What is defined for a symbol is not expected any more. -/
theorem not_expects_establish (hd : d.product? = some key) (hspace : ∀ space, key ≠ .space space) :
    ¬ (s.establish d).Expects key := by
  unfold establish
  split
  · -- Nothing but an expectation could be defined.
    rename_i hnone
    intro hexp
    obtain ⟨t, ht⟩ := exists_define? hexp hd fun space length hlength => by
      subst hlength
      cases hd
      exact absurd rfl (hspace space)
    rw [hnone] at ht
    cases ht
  · rename_i t ht
    have hno : ¬ t.Expects key := fun hexp => ((expects_define? ht key).mp hexp).2 hd
    rw [hd]
    exact fun hexp => hno (((alike_wake t key).expects key).mp hexp)

theorem Does.not_expects (h : s.Does job u) (hkey : job.task.product? = some key)
    (hspace : ∀ space, key ≠ .space space) : ¬ u.Expects key := by
  obtain ⟨t, d, -, -, hd, rfl⟩ := h.exists_establish
  exact not_expects_establish (hd.trans hkey) hspace

/-- A length in terms of no space is the length of its space from then on. -/
theorem length?_establish {space : SpaceId} {n : Int32} (hexp : s.Expects (.space space)) :
    (s.establish (.space space ⟨n, []⟩)).layout.spaces.length? space = some ⟨n, []⟩ := by
  obtain ⟨t, ht⟩ := @exists_define? s (.space space ⟨n, []⟩) _ hexp rfl fun k length hlength => by
    cases hlength
    exact List.not_mem_nil
  have hlength : t.layout.spaces.length? space = some ⟨n, []⟩ := by
    obtain ⟨spaces, hspaces, rfl⟩ := Option.map_eq_some_iff.mp ht
    rw [Spaces.length?_of_resolve? hspaces, if_pos rfl]
  rw [establish, ht]
  exact hlength

end Assembly

/-! ## 2. From a moment to the end of the source -/

namespace Moment

variable {m m' : Moment} {job : Job} {key : Prerequisite}

theorem Carries.hasJob (h : m.Carries job) (hv : m.Valid) (hkey : job.task.product? = some key) :
    m.HasJob key := by
  rcases h with ⟨x, hx, rfl⟩ | ⟨id, p, hp, rfl⟩
  · exact .inr ⟨x, hx, hkey⟩
  · refine .inl (Option.isSome_iff_exists.mpr ⟨id, ?_⟩)
    exact (hv.indexed.producers key id).mpr ⟨p, hp, hkey⟩

theorem HasJob.exists_carries (h : m.HasJob key) (hv : m.Valid) :
    ∃ job, m.Carries job ∧ job.task.product? = some key := by
  rcases h with hprod | ⟨x, hx, hkey⟩
  · obtain ⟨id, hid⟩ := Option.isSome_iff_exists.mp hprod
    obtain ⟨p, hp, hkey⟩ := (hv.indexed.producers key id).mp hid
    exact ⟨p.work, .inr ⟨id, p, hp, rfl⟩, hkey⟩
  · exact ⟨x.2, .inl ⟨x, hx, rfl⟩, hkey⟩

/-- A job that produces something is still to be done, or has been done on the way. -/
theorem Valid.exists_finishes (hv : m.Valid) (hrun : Run Step m m') (hkey : job.task.product? = some key)
    (hc : m.Carries job) : m'.Carries job ∨
      ∃ a b, Run Step m a ∧ a.Carries job ∧ a.Finishes b job ∧ Run Step b m' := by
  induction hrun with
  | refl => exact .inl hc
  | @tail a b hrun hstep ih =>
    rcases ih with hc | ⟨x, y, hx, hxc, hdone, hy⟩
    · rcases (hv.run hrun).carries_step hstep hc with hc' | hdone | ⟨hnone, -⟩
      · exact .inl hc'
      · exact .inr ⟨a, b, hrun, hc, hdone, .refl b⟩
      · rw [hnone] at hkey
        cases hkey
    · exact .inr ⟨x, y, hx, hxc, hdone, .tail hy hstep⟩

/-- If nothing is reported up to a moment at which a job is done, it has been done with its result. -/
theorem Valid.exists_result (hv : m.Valid) (hlog : m.state.reported ≠ [] → m.state.diagnostics ≠ [])
    (hrun : Run Step m m') (hkey : job.task.product? = some key) (hc : m.Carries job)
    (hdone : ¬ m'.Carries job) (hclean : m'.state.diagnostics = []) :
    ∃ (s : Assembly) (d : Definition), s.WellFormed ∧ m.state.Earlier s ∧ s.Expects key ∧
      s.attempt job = .resolved d ∧ (s.establish d).Earlier m'.state := by
  rcases hv.exists_finishes hrun hkey hc with hc' | ⟨a, b, ha, hac, hfinishes, hb⟩
  · exact absurd hc' hdone
  · have hva := hv.run ha
    have hbclean : b.state.diagnostics = [] := by
      obtain ⟨more, hmore⟩ := hb.grows.diagnostics
      rw [hclean] at hmore
      exact (List.append_eq_nil_iff.mp hmore).1
    obtain ⟨d, hd, heq⟩ := hfinishes.does.resolved (ha.grows.logged hlog) hbclean
    exact ⟨a.state, d, hva.wellFormed, ha.grows.earlier, hva.expected_of_hasJob (hac.hasJob hva hkey),
      hd, heq ▸ hb.grows.earlier⟩

/-- So a space has ended with the length that its rule gave, if that is in terms of no space. -/
theorem Valid.exists_length (hv : m.Valid) (hlog : m.state.reported ≠ [] → m.state.diagnostics ≠ [])
    (hrun : Run Step m m') {space : SpaceId} {rule : SpaceRule} {f : Frame}
    (hc : m.Carries ⟨.space space rule, f⟩) (hdone : ¬ m'.Carries ⟨.space space rule, f⟩)
    (hclean : m'.state.diagnostics = []) :
    ∃ (s : Assembly) (length : Length), s.WellFormed ∧ m.state.Earlier s ∧ s.Earlier m'.state ∧
      s.attemptSpace space rule f = .resolved length ∧
        (length.spaces = [] → m'.state.layout.spaces.length? space = some length) := by
  obtain ⟨s, d, hwf, hms, hexp, hd, hst⟩ := hv.exists_result hlog hrun rfl hc hdone hclean
  obtain ⟨length, hlength, rfl⟩ := Evaluation.map_eq_resolved.mp hd
  refine ⟨s, length, hwf, hms, (s.grows_establish _).earlier.trans hst, hlength, fun hnil => ?_⟩
  obtain ⟨n, spaces⟩ := length
  cases hnil
  exact hst.spaces.length? (length?_establish hexp)

end Moment

namespace Assembly

variable {s t : Assembly} {job : Job} {key : Prerequisite}

/-- At the end of the source no job is left. -/
theorem not_carries_finish (hs : s.Ready) (hf : s.finished = false) :
    ¬ Moment.Carries ⟨s.finish, [], .reading⟩ job := by
  obtain ⟨u, -, -, -, heq⟩ := exists_closing hs hf
  rintro (⟨x, hx, -⟩ | ⟨id, p, hp, -⟩)
  · cases hx
  · rw [heq] at hp
    exact nomatch (PendingTable.get?_clear u.pendings id).symm.trans hp

end Assembly

/-! ## 3. Starts of counters -/

namespace Layout

variable {l l' : Layout} {space : SpaceId}

theorem HasStart.of_counters (h : l.HasStart space) (heq : l'.counters = l.counters) :
    l'.HasStart space := by
  obtain ⟨i, c, hc, hstart⟩ := h
  exact ⟨i, c, heq ▸ hc, hstart⟩

end Layout

namespace Moment

variable {m m' : Moment} {space : SpaceId}

/-- The counters of an earlier moment have kept their starts. -/
theorem Step.hasStart (h : Step m m') (hs : m.state.layout.HasStart space) :
    m'.state.layout.HasStart space := by
  cases h with
  | cascade h => exact hs.of_counters h.steady.counters
  | progress h =>
    cases h with
    | report d => exact hs.of_counters (congrArg (·.counters) (alike_addDiagnostic _ d).layout)
    | arrange ha => exact ha.kept space hs
    | enter => exact hs.of_counters (congrArg (·.counters) (alike_foldl_wake _ _).layout)
    | check | defineMacro | defineVariable => exact hs
  | ending h =>
    cases h with
    | explain => exact hs.of_counters (congrArg (·.counters) (alike_explain _ _ _).layout)
    | conclude _ _ _ _ hexplained =>
      obtain ⟨t, d, hst, -, -, heq⟩ := (conclude_outcome hexplained _).exists_establish
      have hcounters := (t.steady_establish d).counters
      exact hs.of_counters (by rw [heq, hcounters, hst.layout])
    | place | close | choose | clear => exact hs

theorem hasStart_run (h : Run Step m m') (hs : m.state.layout.HasStart space) :
    m'.state.layout.HasStart space :=
  h.keeps (P := fun m => m.state.layout.HasStart space) (fun _ _ hstep hm => Step.hasStart hstep hm) hs

/-- Whether the starts of all further counters are still open, unless the end of the source has been reached. -/
def Unplaced (m : Moment) : Prop :=
  m.phase = .reading → m.state.finished = false → ∀ k : SpaceId, m.state.layout.HasStart k →
    m.state.Expects (.space k)

/-- No job gives a length to the start of a counter before the counters are placed. -/
theorem Unplaced.step (h : m.Unplaced) (hv : m.Valid) (hstep : Step m m') : m'.Unplaced := by
  cases hstep with
  | cascade hstep =>
    intro hph hf k hs
    replace hs : m.state.layout.HasStart k := hs.of_counters hstep.steady.counters.symm
    replace hf : m.state.finished = false := hstep.steady.finished ▸ hf
    cases hstep with
    | @settle s hand id? job phase =>
      have hexp := h hph hf k hs
      have hne : job.task.product? ≠ some (.space k) := fun hkey =>
        hv.unplaced hph hf k hs (.inr ⟨_, List.mem_cons_self, hkey⟩)
      rcases settle_outcome s id? job with hdoes | ⟨waiting, -, -, heq⟩
      · exact hdoes.expects hexp hne
      · rw [heq]
        exact (expects_postpone waiting).mpr hexp
    | pick | skip | stall | resume => exact h hph hf k hs
  | progress hstep =>
    intro hph hf k hs
    cases hstep with
    | @report s hand d =>
      have halike := s.alike_addDiagnostic d
      exact (halike.expects _).mpr (h rfl (halike.finished ▸ hf) k (halike.layout ▸ hs))
    | @arrange s hand layout job? ha =>
      rcases ha.starts hv.formed k hs with hold | ⟨hnew, -⟩
      · exact expects_arrange ha (h rfl hf k hold)
      · have hlt : k.index < layout.spaces.size :=
          (ha.formed hv.formed).lt_size_of_hasStart hs
        refine ⟨hlt, fun hres => ?_⟩
        rw [ha.grows.isResolved] at hres
        simp [Spaces.isResolved, Spaces.length?, Spaces.get?, Array.getElem?_eq_none hnew] at hres
    | @enter s hand sym symbols jobs =>
      have halike := alike_foldl_wake { s with symbols } (provided sym)
      exact (halike.expects _).mpr (h rfl (halike.finished ▸ hf) k (halike.layout ▸ hs))
    | check | defineMacro | defineVariable => exact h rfl hf k hs
  | ending hstep =>
    cases hstep with
    | place | close | explain | choose | conclude =>
      intro hph
      cases hph
    | @clear s _ _ _ =>
      intro _ hf
      rw [show s.finished = true from hv.closing rfl] at hf
      cases hf

theorem Reachable.unplaced {settings : Settings} (h : m.Reachable settings) : m.Unplaced := by
  induction h with
  | refl => exact fun _ _ _ ⟨_, _, hc, _⟩ => nomatch hc
  | tail hrun hstep ih => exact ih.step (Reachable.valid hrun) hstep

end Moment

namespace Assembly

variable {s : Assembly}

/-- When the counters have been put at hand to be placed, the end of the source is still reached. -/
theorem run_placements (hs : s.Ready) (hf : s.finished = false) :
    Run Step
      ⟨s, s.layout.placements.map fun p => (none, p.job s.layout.counterAlignment), .placing⟩
      ⟨s.finish, [], .reading⟩ := by
  obtain ⟨u, hrun, hdone, hnone, heq⟩ := exists_closing_of_placed hs hf
  have hplaced := s.placeCounters.drainAll_done
  have hclose : Step ⟨s.placeCounters.drainAll, [], .placing⟩
      ⟨{ s.placeCounters.drainAll with finished := true }, [], .closing⟩ :=
    .ending (.close hplaced.1 hplaced.2)
  have hclear : Step ⟨u, [], .closing⟩ ⟨s.finish, [], .reading⟩ :=
    heq ▸ .ending (.clear hdone.1 hdone.2 hnone)
  exact ((s.run_placeCounters.imp fun _ _ => .cascade).tail hclose).trans
    ((hrun.imp fun _ _ => Completion.step).tail hclear)

/-- If nothing is reported, the start of a counter that is placed ends with the length that its rule gives. -/
theorem exists_start (hs : s.Ready) (hf : s.finished = false) (hclean : s.finish.diagnostics = [])
    {p : Layout.Placement} (hp : p ∈ s.layout.placements) :
    ∃ (u : Assembly) (length : Length), u.WellFormed ∧ s.Earlier u ∧ u.Earlier s.finish ∧
      u.attemptSpace p.space (.counterStart p.candidates p.sectionStart s.layout.counterAlignment) {} =
        .resolved length ∧
      (length.spaces = [] → s.finish.layout.spaces.length? p.space = some length) :=
  (hs.valid.step (.ending (.place hf))).exists_length (hs.logged hf) (run_placements hs hf)
    (.inl ⟨_, List.mem_map_of_mem hp, rfl⟩) (not_carries_finish hs hf) hclean

end Assembly

end Assembler
