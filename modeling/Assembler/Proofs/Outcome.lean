import Assembler.Proofs.Growth
import Assembler.Proofs.Moment
/-!
Outcomes of jobs.

A job that comes up is done or put aside (`Assembly.settle_outcome`), and at the end of the source it is done
(`Assembly.conclude_outcome`). It is done with its result, or with something in place of it and some report.
What is expected of a symbol stays expected until the job is done that produces it, and no other job comes up
for it (`Step.does`).
-/

namespace Assembler

open Assembly

namespace Assembly

variable {s t u : Assembly} {job : Job} {id? : Option Nat} {key : Prerequisite}

/-! ## 1. Jobs that are done -/

/-- Whether `u` comes from `s` by a job that is done, with its result or with something in place of it. -/
inductive Does (s : Assembly) (job : Job) (u : Assembly) : Prop
  | result (d : Definition) : s.attempt job = .resolved d → u = s.establish d → Does s job u
  | instead (t : Assembly) (d : Definition) : s.Alike t →
    ((s.reported ≠ [] → s.diagnostics ≠ []) → t.diagnostics ≠ []) →
    (s.attempt job).value? = some d ∨ d = job.task.fallback → u = t.establish d → Does s job u

/-- What is defined then is the product of the job. -/
theorem Does.exists_establish (h : s.Does job u) : ∃ t d, s.Alike t ∧
    ((s.attempt job).value? = some d ∨ d = job.task.fallback) ∧
      d.product? = job.task.product? ∧ u = t.establish d := by
  cases h with
  | result d hd heq =>
    have hval : (s.attempt job).value? = some d := by
      rw [hd]
      rfl
    exact ⟨s, d, .refl s, .inl hval, product?_attempt hval, heq⟩
  | instead t d hst _ hval heq =>
    refine ⟨t, d, hst, hval, ?_, heq⟩
    rcases hval with hval | rfl
    · exact product?_attempt hval
    · exact Task.product?_fallback _

theorem Does.pendings (h : s.Does job u) : u.pendings = s.pendings := by
  obtain ⟨t, d, hst, -, -, rfl⟩ := h.exists_establish
  exact (pendings_establish t d).1.trans hst.pendings

/-- No space is added. -/
theorem Does.size (h : s.Does job u) : u.layout.spaces.size = s.layout.spaces.size := by
  obtain ⟨t, d, hst, -, -, rfl⟩ := h.exists_establish
  exact (t.steady_establish d).size.trans (congrArg (·.spaces.size) hst.layout)

theorem expects_establish {d : Definition} (hexp : s.Expects key) (hd : d.product? ≠ some key) :
    (s.establish d).Expects key := by
  unfold establish
  split
  · exact hexp
  · rename_i t ht
    have hexp := (expects_define? ht key).mpr ⟨hexp, hd⟩
    split
    · exact ((alike_wake t _).expects key).mpr hexp
    · exact hexp

/-- Nothing but the product of the job ceases to be expected. -/
theorem Does.expects (h : s.Does job u) (hexp : s.Expects key)
    (hne : job.task.product? ≠ some key) : u.Expects key := by
  obtain ⟨t, d, hst, -, hd, rfl⟩ := h.exists_establish
  exact expects_establish ((hst.expects key).mpr hexp) (hd ▸ hne)

/-! ## 2. Jobs that come up -/

/-- A job that comes up is done or has to wait. -/
theorem settle_outcome (s : Assembly) (id? : Option Nat) (job : Job) :
    s.Does job (s.settle id? job) ∨ ∃ waiting, s.attempt job = .blocked waiting ∧
      s.isCyclic job waiting = false ∧ s.settle id? job = s.postpone id? job waiting := by
  have hreport := fun fault => alike_report s fault job.frame.location
  have hsome := fun fault => diagnostics_addDiagnostic_ne_nil s (.ofFault fault job.frame.location)
  unfold settle
  split
  · rename_i d hd
    exact .inl (.result d hd rfl)
  · rename_i d fault hd
    exact .inl (.instead _ d (hreport fault) (fun _ => hsome fault) (.inl (by rw [hd]; rfl)) rfl)
  · rename_i waiting hwaiting
    split
    · exact .inl (.instead _ _ (hreport .cyclic) (fun _ => hsome .cyclic) (.inr rfl) rfl)
    · rename_i hno
      exact .inr ⟨waiting, hwaiting, Bool.eq_false_iff.mpr hno, rfl⟩

/-- At the end of the source a job is done. -/
theorem conclude_outcome {explained : Bool} (hexplained : explained → s.diagnostics ≠ [])
    (job : Job) : s.Does job (s.conclude explained job) := by
  unfold conclude
  dsimp only
  split
  · rename_i d hd
    exact .result d hd rfl
  · rename_i d fault hd
    exact .instead _ d (alike_report s fault _)
      (fun _ => diagnostics_addDiagnostic_ne_nil s _) (.inl (by rw [hd]; rfl)) rfl
  · rename_i waiting _
    have hexplain := s.alike_explain waiting job.frame.location
    split
    · exact .instead s _ (.refl s) (fun _ => hexplained ‹_›) (.inr rfl) rfl
    · split
      · rename_i haccounted
        exact .instead _ _ hexplain (fun hlog => diagnostics_explain_ne_nil hlog haccounted)
          (.inr rfl) rfl
      · exact .instead _ _ (hexplain.trans (alike_report _ _ _))
          (fun _ => diagnostics_addDiagnostic_ne_nil _ _) (.inr rfl) rfl

theorem producer?_postpone (waiting : List Prerequisite) (key : Prerequisite) :
    (s.postpone id? job waiting).pendings.producer? key =
      if job.task.product? = some key then some (id?.getD s.pendings.next)
      else s.pendings.producer? key := by
  cases id? <;> exact PendingTable.producer?_reinsert

/-- A job that has to wait is pending after that, with what was pending before. -/
theorem get?_postpone (s : Assembly) (id? : Option Nat) (job : Job) (waiting : List Prerequisite)
    (id : Nat) : (s.postpone id? job waiting).pendings.get? id =
      if id = id?.getD s.pendings.next then some ⟨job, waiting⟩ else s.pendings.get? id := by
  cases id? <;> exact PendingTable.get?_reinsert _ _ _ _

/-- What is expected of symbols depends on the symbols only. -/
theorem expects_of_symbols (hsymbols : t.symbols = s.symbols) (hspace : ∀ space, key ≠ .space space) :
    t.Expects key ↔ s.Expects key := by
  cases key with
  | symbol n => rw [Expects, Expects, hsymbols]
  | attr n kind => cases kind <;> simp only [Expects, hsymbols]
  | space space => exact absurd rfl (hspace space)

theorem expects_postpone (waiting : List Prerequisite) :
    (s.postpone id? job waiting).Expects key ↔ s.Expects key := by
  cases id? <;> exact Moment.expects_pendings _ _ _

/-- Whatever comes of a job, what is pending after that is the job or was pending before. -/
theorem work_settle {id : Nat} {p : Pending Job}
    (hp : (s.settle id? job).pendings.get? id = some p) :
    p.work = job ∨ s.pendings.get? id = some p := by
  rcases settle_outcome s id? job with hdoes | ⟨waiting, -, -, heq⟩
  · rw [hdoes.pendings] at hp
    exact .inr hp
  · rw [heq, get?_postpone] at hp
    split at hp
    · cases hp
      exact .inl rfl
    · exact .inr hp

end Assembly

/-! ## 3. What a step does -/

namespace Moment

variable {m m' : Moment} {job : Job} {key : Prerequisite}

/-- Whether a job is at hand or pending. -/
def Carries (m : Moment) (job : Job) : Prop :=
  (∃ x ∈ m.hand, x.2 = job) ∨ ∃ id p, m.state.pendings.get? id = some p ∧ p.work = job

/-- At the start there is no job. -/
theorem not_carries_new (settings : Settings) (job : Job) : ¬ Carries ⟨.new settings, [], .reading⟩ job := by
  rintro (⟨x, hx, -⟩ | ⟨id, p, hp, -⟩)
  · cases hx
  · cases (PendingTable.get?_clear {} id).symm.trans hp

theorem Carries.scoped (hc : m.Carries job) (hv : m.Valid) : job.Scoped m.state.layout.spaces := by
  rcases hc with ⟨x, hx, rfl⟩ | ⟨id, p, hp, rfl⟩
  · exact (hv.held x hx).inScope
  · exact (hv.entries id p hp).inScope

theorem Carries.of_subset (h : m'.Carries job)
    (hpendings : m'.state.pendings = m.state.pendings) (hhand : m'.hand ⊆ m.hand) :
    m.Carries job := by
  rcases h with ⟨x, hx, hxj⟩ | ⟨id, p, hp, hpj⟩
  · exact .inl ⟨x, hhand hx, hxj⟩
  · rw [hpendings] at hp
    exact .inr ⟨id, p, hp, hpj⟩

theorem carries_of_take {id : Nat} {p : Pending Job} {u : PendingTable Job}
    (ht : m.state.pendings.take? id = some (p, u)) (hpendings : m'.state.pendings = u)
    (hhand : m'.hand = (some id, p.work) :: m.hand) (hc : m'.Carries job) : m.Carries job := by
  rcases hc with ⟨x, hx, rfl⟩ | ⟨j, q, hq, rfl⟩
  · rw [hhand] at hx
    rcases List.mem_cons.mp hx with rfl | hx
    · exact .inr ⟨id, p, PendingTable.take?_eq_some ht, rfl⟩
    · exact .inl ⟨x, hx, rfl⟩
  · rw [hpendings, PendingTable.get?_take ht] at hq
    split at hq
    · cases hq
    · exact .inr ⟨j, q, hq, rfl⟩

theorem Carries.take {id : Nat} {p : Pending Job} {u : PendingTable Job} (hc : m.Carries job)
    (ht : m.state.pendings.take? id = some (p, u)) (hpendings : m'.state.pendings = u)
    (hhand : m'.hand = (some id, p.work) :: m.hand) : m'.Carries job := by
  rcases hc with ⟨x, hx, rfl⟩ | ⟨j, q, hq, rfl⟩
  · exact .inl ⟨x, by rw [hhand]; exact List.mem_cons_of_mem _ hx, rfl⟩
  · by_cases hj : j = id
    · have hp := PendingTable.take?_eq_some ht
      rw [← hj, hq] at hp
      cases hp
      exact .inl ⟨(some id, p.work), by rw [hhand]; exact List.mem_cons_self, rfl⟩
    · exact .inr ⟨j, q, by rw [hpendings, PendingTable.get?_take ht, if_neg hj, hq], rfl⟩

/-- What is pending stays so when another job is done or put aside. -/
theorem Valid.get?_settle {s : Assembly} {hand : List (Option Nat × Job)} {phase : Phase}
    {id? : Option Nat} (hv : Valid ⟨s, (id?, job) :: hand, phase⟩) {id : Nat} {p : Pending Job}
    (hp : s.pendings.get? id = some p) : (s.settle id? job).pendings.get? id = some p := by
  rcases settle_outcome s id? job with hdoes | ⟨waiting, -, -, heq⟩
  · rw [hdoes.pendings]
    exact hp
  · -- The number of the job at hand is free.
    have hfree : s.pendings.get? (id?.getD s.pendings.next) = none := by
      cases id? with
      | none => exact hv.indexed.get?_next
      | some k => exact ((hv.held _ List.mem_cons_self).free k rfl).2
    rw [heq, get?_postpone, if_neg]
    · exact hp
    · rintro rfl
      rw [hfree] at hp
      cases hp

/-- What is pending after a step has been pending before, or has just been tried and has to wait. -/
theorem Step.pending (h : Step m m') {id : Nat} {p : Pending Job}
    (hp : m'.state.pendings.get? id = some p) : m.state.pendings.get? id = some p ∨
      ∃ x ∈ m.hand, x.2 = p.work ∧ m.state.attempt p.work = .blocked p.waiting := by
  -- Taking work out of the table adds none.
  have taken : ∀ {j : Nat} {q : Pending Job} {t u : PendingTable Job}, t.take? j = some (q, u) →
      u.get? id = some p → t.get? id = some p := by
    intro j q t u ht hu
    rw [PendingTable.get?_take ht] at hu
    split at hu
    · cases hu
    · exact hu
  cases h with
  | cascade h =>
    cases h with
    | @settle s hand id? job phase =>
      rcases settle_outcome s id? job with hdoes | ⟨waiting, hwaiting, -, heq⟩
      · rw [hdoes.pendings] at hp
        exact .inl hp
      · rw [heq, get?_postpone] at hp
        split at hp
        · cases hp
          exact .inr ⟨_, List.mem_cons_self, rfl, hwaiting⟩
        · exact .inl hp
    | pick _ ht => exact .inl (taken ht hp)
    | skip | stall | resume => exact .inl hp
  | progress h =>
    refine .inl ?_
    cases h with
    | report d => exact (alike_addDiagnostic _ d).pendings ▸ hp
    | enter => exact (congrArg (·.get? id) (alike_foldl_wake _ _).pendings).symm.trans hp
    | arrange | check | defineMacro | defineVariable => exact hp
  | ending h =>
    refine .inl ?_
    cases h with
    | explain => exact pendings_explain _ _ _ ▸ hp
    | choose ht => exact taken ht hp
    | conclude => exact pendings_conclude _ _ _ ▸ hp
    | clear =>
      rw [show _ = none from PendingTable.get?_clear _ id] at hp
      cases hp
    | place | close => exact hp

/-- While an assembly is completed no job comes up, except that counters are placed. -/
theorem Completion.carries (h : Completion m m') (hc : m'.Carries job) :
    m.Carries job ∨ ∃ p ∈ m.state.layout.placements, job = p.job m.state.layout.counterAlignment := by
  rcases h with h | h
  · refine .inl ?_
    cases h with
    | @settle s hand id? other phase =>
      rcases hc with ⟨x, hx, hxj⟩ | ⟨id, p, hp, rfl⟩
      · exact .inl ⟨x, List.mem_cons_of_mem _ hx, hxj⟩
      · rcases work_settle hp with hwork | hold
        · exact .inl ⟨_, List.mem_cons_self, hwork.symm⟩
        · exact .inr ⟨id, p, hold, rfl⟩
    | pick _ ht => exact carries_of_take ht rfl rfl hc
    | skip | stall | resume => exact hc
  · cases h with
    | place =>
      rcases hc with ⟨x, hx, rfl⟩ | hpending
      · obtain ⟨p, hp, rfl⟩ := List.mem_map.mp hx
        exact .inr ⟨p, hp, rfl⟩
      · exact .inl (.inr hpending)
    | close => exact .inl hc
    | explain => exact .inl (hc.of_subset (pendings_explain _ _ _) (List.Subset.refl _))
    | choose ht => exact .inl (carries_of_take ht rfl rfl hc)
    | conclude => exact .inl (hc.of_subset (pendings_conclude _ _ _) (List.nil_subset _))
    | clear =>
      rcases hc with ⟨x, hx, -⟩ | ⟨id, p, hp, -⟩
      · cases hx
      · rw [show _ = none from PendingTable.get?_clear _ id] at hp
        cases hp

/-- A job for something that is expected of a symbol does not come up with a step. -/
theorem Step.carries (h : Step m m') (hexp : m.state.Expects key)
    (hspace : ∀ space, key ≠ .space space) (hc : m'.Carries job)
    (hkey : job.task.product? = some key) : m.Carries job := by
  have completion : Completion m m' → m.Carries job := fun h => by
    rcases Completion.carries h hc with hc | ⟨p, -, rfl⟩
    · exact hc
    · cases hkey
      exact absurd rfl (hspace p.space)
  -- A job that is new at hand would produce something else.
  have fresh : ∀ {jobs : List (Option Nat × Job)}, m'.hand = m.hand ++ jobs →
      m'.state.pendings = m.state.pendings → (∀ x ∈ jobs, x.2.task.product? ≠ some key) →
      m.Carries job := by
    intro jobs hhand hpendings hjobs
    rcases hc with ⟨x, hx, rfl⟩ | hpending
    · rw [hhand] at hx
      rcases List.mem_append.mp hx with hx | hx
      · exact .inl ⟨x, hx, rfl⟩
      · exact absurd hkey (hjobs x hx)
    · rw [hpendings] at hpending
      exact .inr hpending
  cases h with
  | cascade h => exact completion (.inl h)
  | ending h => exact completion (.inr h)
  | progress h =>
    cases h with
    | report d => exact hc.of_subset (alike_addDiagnostic _ d).pendings (List.Subset.refl _)
    | @arrange s hand layout job? ha =>
      refine fresh rfl rfl fun x hx hxk => ?_
      obtain ⟨other, hother, rfl⟩ := List.mem_map.mp hx
      obtain ⟨-, space, rule, htask, -⟩ := ha.job other (Option.mem_toList.mp hother)
      rw [htask] at hxk
      cases hxk
      exact hspace space rfl
    | @enter s hand sym symbols jobs hsym _ _ hsub =>
      refine fresh rfl (alike_foldl_wake _ _).pendings fun x hx hxk => ?_
      obtain ⟨other, hother, rfl⟩ := List.mem_map.mp hx
      have howed := hsub.subset (List.mem_filterMap.mpr ⟨other, hother, hxk⟩)
      exact not_expects_owed (SymbolTable.create?_eq_some hsym).1 howed hexp
    | check hnone =>
      refine fresh rfl rfl fun x hx hxk => ?_
      rw [List.mem_singleton.mp hx] at hxk
      rw [hnone] at hxk
      cases hxk
    | defineMacro | defineVariable => exact hc

/-- Whether a step does a job that is at hand. -/
inductive Finishes (m m' : Moment) (job : Job) : Prop
  | settle (id? : Option Nat) : (id?, job) ∈ m.hand → m'.state = m.state.settle id? job →
    m.state.Does job m'.state → Finishes m m' job
  | conclude (explained : Bool) : m.phase = .closing → job.task.product?.isSome →
    m'.state = m.state.conclude explained job → m.state.Does job m'.state → Finishes m m' job

theorem Finishes.does (h : m.Finishes m' job) : m.state.Does job m'.state := by
  cases h with
  | settle _ _ _ hdoes => exact hdoes
  | conclude _ _ _ _ hdoes => exact hdoes

/-- A job is kept until it is done. One that produces nothing may be dropped at the end of the source. -/
theorem Valid.carries_step (hv : m.Valid) (h : Step m m') (hc : m.Carries job) :
    m'.Carries job ∨ m.Finishes m' job ∨
      (job.task.product? = none ∧ m'.phase = .reading ∧ m'.state.finished = true) := by
  cases h with
  | cascade h =>
    cases h with
    | @settle s hand id? other phase =>
      rcases hc with ⟨x, hx, rfl⟩ | ⟨id, p, hp, rfl⟩
      · rcases List.mem_cons.mp hx with rfl | hx
        · rcases settle_outcome s id? other with hdoes | ⟨waiting, -, -, heq⟩
          · exact .inr (.inl (.settle id? List.mem_cons_self rfl hdoes))
          · refine .inl (.inr ⟨id?.getD s.pendings.next, ⟨other, waiting⟩, ?_, rfl⟩)
            show (s.settle id? other).pendings.get? _ = _
            rw [heq, get?_postpone, if_pos rfl]
        · exact .inl (.inl ⟨x, hx, rfl⟩)
      · exact .inl (.inr ⟨id, p, hv.get?_settle hp, rfl⟩)
    | pick _ ht => exact .inl (hc.take ht rfl rfl)
    | skip | stall | resume => exact .inl hc
  | progress h =>
    refine .inl ?_
    cases h with
    | report d => exact hc.of_subset (alike_addDiagnostic _ d).pendings.symm (List.Subset.refl _)
    | @enter s hand sym symbols =>
      have hwake := alike_foldl_wake { s with symbols } (provided sym)
      exact hc.of_subset hwake.pendings.symm (List.subset_append_left _ _)
    | arrange | check => exact hc.of_subset rfl (List.subset_append_left _ _)
    | defineMacro | defineVariable => exact hc
  | ending h =>
    cases h with
    | place => exact .inl (hc.of_subset rfl (List.nil_subset _))
    | close => exact .inl hc
    | explain => exact .inl (hc.of_subset (pendings_explain _ _ _).symm (List.Subset.refl _))
    | choose ht => exact .inl (hc.take ht rfl rfl)
    | @conclude s id? other explained hsome _ _ hexplained =>
      rcases hc with ⟨x, hx, rfl⟩ | hpending
      · rw [List.mem_singleton.mp hx]
        exact .inr (.inl (.conclude explained rfl hsome rfl (conclude_outcome hexplained other)))
      · refine .inl (.inr ?_)
        rw [show _ = s.pendings from pendings_conclude s explained other]
        exact hpending
    | clear _ _ hnone =>
      rcases hc with ⟨x, hx, -⟩ | ⟨id, p, hp, rfl⟩
      · cases hx
      · exact .inr (.inr ⟨PendingTable.product?_of_first?_eq_none hnone hp, rfl, hv.closing rfl⟩)

/-- What is expected of a symbol stays expected, unless a job at hand is done that produces it. -/
theorem Step.does (h : Step m m') (hexp : m.state.Expects key)
    (hspace : ∀ space, key ≠ .space space) :
    m'.state.Expects key ∨
      ∃ x ∈ m.hand, x.2.task.product? = some key ∧ m.state.Does x.2 m'.state := by
  have same : m'.state.symbols = m.state.symbols → m'.state.Expects key := fun hsymbols =>
    (expects_of_symbols hsymbols hspace).mpr hexp
  -- A job that is done takes away the expectation of its own product only.
  have done : ∀ x ∈ m.hand, m.state.Does x.2 m'.state → m'.state.Expects key ∨
      ∃ x ∈ m.hand, x.2.task.product? = some key ∧ m.state.Does x.2 m'.state := by
    intro x hx hdoes
    by_cases hkey : x.2.task.product? = some key
    · exact .inr ⟨x, hx, hkey, hdoes⟩
    · exact .inl (hdoes.expects hexp hkey)
  cases h with
  | cascade h =>
    cases h with
    | @settle s hand id? job phase =>
      rcases settle_outcome s id? job with hdoes | ⟨waiting, -, -, heq⟩
      · exact done _ List.mem_cons_self hdoes
      · refine .inl ?_
        show (s.settle id? job).Expects key
        rw [heq]
        exact (expects_postpone waiting).mpr hexp
    | pick | skip | stall | resume => exact .inl (same rfl)
  | progress h =>
    refine .inl ?_
    cases h with
    | report d => exact same (alike_addDiagnostic _ d).symbols
    | enter hsym =>
      have hcreate := (expects_create hsym key).mpr (.inl hexp)
      exact ((alike_foldl_wake _ _).expects key).mpr hcreate
    | arrange | check | defineMacro | defineVariable => exact same rfl
  | ending h =>
    cases h with
    | explain => exact .inl (same (alike_explain _ _ _).symbols)
    | conclude explained _ _ _ hexplained =>
      exact done _ (List.mem_singleton_self _) (conclude_outcome hexplained _)
    | place | close | choose | clear => exact .inl (same rfl)

end Moment

end Assembler
