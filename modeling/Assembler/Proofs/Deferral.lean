import Assembler.Proofs.Parameter
/-!
Work that waits for a parameter.

The length attribute of a label may have to be computed from an expression over a parameter, and a space may get its
length from such an expression and that attribute. Neither job ever waits for itself, and none of them still waits
when the end of the source is reached, as the parameter has its number then (`Moment.Measures.known`,
`Moment.Stores.length?`).
-/

namespace Assembler

open Assembly Moment

/-! ## 1. Jobs before the end of the source -/

/-- What has to wait has no value, so the other case is left. -/
theorem Evaluation.of_cases_blocked {α : Type} {x : Evaluation α} {a : α} {waiting : List Prerequisite}
    {P : List Prerequisite → Prop} (h : x.value? = some a ∨ ∃ ps, x = .blocked ps ∧ P ps)
    (hx : x = .blocked waiting) : P waiting := by
  subst hx
  rcases h with h | ⟨_, ⟨⟩, h⟩
  · cases h
  · exact h

namespace Moment

variable {m m' : Moment} {n : Name} {v : Int32} {job : Job} {key : Prerequisite} {s : Assembly}

/-- Whether a job has a given result now, or has to wait for something that its own product is not behind. -/
def Yields (m : Moment) (job : Job) (d : Definition) : Prop :=
  (m.state.attempt job).value? = some d ∨ ∃ waiting, m.state.attempt job = .blocked waiting ∧
    ∀ q ∈ waiting, ∀ key, m.state.pendings.Reaches q key → job.task.product? ≠ some key

/-- Before the end of the source a job is kept until it comes up. -/
theorem Valid.settles (hv : m.Valid) (hstep : Step m m') (hopen : m'.state.finished = false) (hc : m.Carries job) :
    m'.Carries job ∨ ∃ id?, m'.state = m.state.settle id? job := by
  rcases hv.carries_step hstep hc with hc' | hfinishes | ⟨-, -, hover⟩
  · exact .inl hc'
  · cases hfinishes with
    | settle id? _ heq => exact .inr ⟨id?, heq⟩
    | conclude _ hphase =>
      have hclosed := hstep.grows.finished (hv.closing hphase)
      rw [hopen] at hclosed
      cases hclosed
  · rw [hopen] at hover
    cases hover

/-- If it has to wait when it comes up, it is kept even then. -/
theorem Valid.waits (hv : m.Valid) (hstep : Step m m') (hopen : m'.state.finished = false) (hc : m.Carries job)
    {waiting : List Prerequisite} (hwaiting : m.state.attempt job = .blocked waiting)
    (hmem : ∀ q ∈ waiting, ∀ key, m.state.pendings.Reaches q key → job.task.product? ≠ some key) :
    m'.Carries job := by
  rcases hv.settles hstep hopen hc with hc' | ⟨id?, heq⟩
  · exact hc'
  · have hno : m.state.isCyclic job waiting = false := Bool.eq_false_iff.mpr fun hcyclic => by
      obtain ⟨key, hkey, q, hq, hreach⟩ := isCyclic_iff.mp hcyclic
      exact hmem q hq key hreach hkey
    refine .inr ⟨id?.getD m.state.pendings.next, ⟨job, waiting⟩, ?_, rfl⟩
    rw [heq, settle_postponed hwaiting hno, get?_postpone, if_pos rfl]

/-- A job that yields a result is kept until it comes up and is done with its result. -/
theorem Approach.keeps (h : Approach n v m m') (hc : m.Carries job) {d : Definition} (hyields : m.Yields job d) :
    m'.Carries job ∨ ∃ t, m.state.Alike t ∧ m'.state = t.establish d := by
  rcases hyields with hval | ⟨waiting, hwaiting, hmem⟩
  · refine (h.before.valid.settles h.step h.finished hc).imp_right fun ⟨id?, heq⟩ => ?_
    cases hattempt : m.state.attempt job with
    | resolved d' =>
      rw [hattempt] at hval
      cases hval
      exact ⟨m.state, .refl _, heq.trans (settle_resolved hattempt)⟩
    | fallback d' fault =>
      rw [hattempt] at hval
      cases hval
      exact ⟨_, alike_report _ fault _, heq.trans (settle_fallback hattempt)⟩
    | blocked waiting =>
      rw [hattempt] at hval
      cases hval
  · exact .inl (h.before.valid.waits h.step h.finished hc hwaiting hmem)

/-- The parameter waits for nothing. -/
theorem Sets.eq_of_reaches (h : m.Sets n v) (hreach : m.state.pendings.Reaches (.symbol n) key) :
    key = .symbol n := by
  cases hreach with
  | refl => rfl
  | step hwaits =>
    obtain ⟨waiting, hwaiting, -⟩ := hwaits
    obtain ⟨id, p, hp, hkey, -⟩ := h.valid.indexed.waitingOf?_eq_some.mp hwaiting
    exact absurd hkey (h.free id p hp)

/-- When no work is left to be tried, a job that is still there has to wait for something that is lacking. -/
theorem Watchful.exists_lacking {phase : Phase} (h : Watchful ⟨s, [], phase⟩) (hv : Valid ⟨s, [], phase⟩)
    (hphase : phase ≠ .closing) (hopen : s.finished = false) (hdone : s.Done)
    (hc : Carries ⟨s, [], phase⟩ job) :
    ∃ waiting, s.attempt job = .blocked waiting ∧ ∃ q ∈ waiting, s.Lacks q := by
  have hwf := hv.wellFormed
  have hblocked : (s.attempt job).IsBlocked := by
    rcases hc with ⟨x, hx, -⟩ | ⟨id, p, hp, rfl⟩
    · cases hx
    · rcases h id p hp with hw | hst | hstuck
      · rw [show s.worklist = [] from hdone.1] at hw
        cases hw
      · rw [show s.stalled = [] from hdone.2] at hst
        cases hst
      · exact hstuck.isBlocked hphase hwf fun hfin => by
          rw [hopen] at hfin
          cases hfin
  obtain ⟨waiting, hwaiting⟩ := hblocked
  obtain ⟨q, hq⟩ := List.exists_mem_of_ne_nil _ (attempt_ne_nil hwf.named (hc.scoped hv) hwaiting)
  exact ⟨waiting, hwaiting, q, hq, lacks_of_attempt hwf.named hwf.acyclic hwaiting q hq⟩

/-- A parameter with its number is not what a job waits for. -/
theorem not_lacks_of_has (h : s.Has n v) : ¬ s.Lacks (.symbol n) := by
  intro hl
  obtain ⟨sym, hsym, hv⟩ := Option.bind_eq_some_iff.mp h
  rw [hl sym hsym] at hv
  cases hv

end Moment

/-! ## 2. The length attribute of a label -/

/-- The length that a rule makes of a number. -/
def LengthRule.result (rule : LengthRule) (k : Int32) : Nat :=
  if rule.min ≤ k ∧ k ≤ rule.max then k.toUInt32.toNat else rule.fallback

/-- Whether a job computes the length attribute of a label from a parameter, with a given result. -/
def Job.Measures (job : Job) (n : Name) (v : Int32) (l : Name) (k : Nat) : Prop :=
  ∃ e rule, job.task = .length l e rule ∧ e.isOver n none ∧ rule.result (e.valueAt v 0) = k

theorem Job.Measures.product? {job : Job} {n : Name} {v : Int32} {l : Name} {k : Nat}
    (h : job.Measures n v l k) : job.task.product? = some (.attr l .length) := by
  obtain ⟨e, rule, htask, -⟩ := h
  rw [htask]
  rfl

namespace Assembly

variable {s t : Assembly} {n l : Name} {v : Int32} {k : Nat} {job : Job} {e : Expr}

theorem sizes_none : s.Sizes none k := fun _ h => by cases h

/-- Without the attribute an expression waits for nothing but the parameter. -/
theorem evaluateNumber_parameter (hn : s.Named) (hopen : s.finished = false) (hset : s.Sets n v)
    (he : e.isOver n none) (f : Frame) : s.evaluateNumber e f = .resolved (e.valueAt v 0) ∨
      ∃ waiting, s.evaluateNumber e f = .blocked waiting ∧ ∀ q ∈ waiting, q = .symbol n := by
  refine (@evaluateNumber_over s n v none 0 e hn hopen hset sizes_none he f).imp_right ?_
  rintro ⟨waiting, heval, hmem⟩
  refine ⟨waiting, heval, fun q hq => (hmem q hq).resolve_right ?_⟩
  rintro ⟨l, hl, -⟩
  cases hl

/-- The result of a computation of a length from a parameter. -/
theorem attemptLength_over (hn : s.Named) (hopen : s.finished = false) (hset : s.Sets n v)
    (he : e.isOver n none) (rule : LengthRule) (f : Frame) :
    s.attemptLength e rule f =
        (if rule.min ≤ e.valueAt v 0 ∧ e.valueAt v 0 ≤ rule.max then .resolved (rule.result (e.valueAt v 0))
          else .fallback (rule.result (e.valueAt v 0)) rule.fault) ∨
      ∃ waiting, s.attemptLength e rule f = .blocked waiting ∧ ∀ q ∈ waiting, q = .symbol n := by
  rcases @evaluate_over s n v none 0 e hn hopen hset sizes_none he f with heval | ⟨waiting, heval, hmem⟩
  · refine .inl ?_
    rw [attemptLength, heval]
    show (if rule.min ≤ e.valueAt v 0 ∧ e.valueAt v 0 ≤ rule.max then _ else _) = _
    unfold LengthRule.result
    split <;> rfl
  · refine .inr ⟨waiting, by rw [attemptLength, heval]; rfl, fun q hq => (hmem q hq).resolve_right ?_⟩
    rintro ⟨l, hl, -⟩
    cases hl

theorem attempt_measures (hn : s.Named) (hopen : s.finished = false) (hset : s.Sets n v)
    (hjob : job.Measures n v l k) : (s.attempt job).value? = some (.length l k) ∨
      ∃ waiting, s.attempt job = .blocked waiting ∧ ∀ q ∈ waiting, q = .symbol n := by
  obtain ⟨e, rule, htask, he, rfl⟩ := hjob
  rw [attempt, htask]
  rcases attemptLength_over hn hopen hset he rule job.frame with heq | ⟨waiting, heq, hmem⟩
  · refine .inl ?_
    dsimp only
    rw [heq]
    split <;> rfl
  · exact .inr ⟨waiting, by dsimp only; rw [heq]; rfl, hmem⟩

/-- Whether a label has a given length attribute. -/
def HasLength (s : Assembly) (l : Name) (k : Nat) : Prop :=
  ∃ sym, s.symbols.get? l = some sym ∧ sym.attributes.length = .known k

theorem HasLength.later (h : s.HasLength l k) (hst : s.Earlier t) : t.HasLength l k := by
  obtain ⟨sym, hsym, hk⟩ := h
  obtain ⟨later, hlater, hle⟩ := hst.symbols l sym hsym
  refine ⟨later, hlater, ?_⟩
  rcases hle.length with hpending | heq
  · rw [hk] at hpending
    cases hpending
  · exact heq.trans hk

theorem hasLength_establish (hexp : s.Expects (.attr l .length)) : (s.establish (.length l k)).HasLength l k := by
  obtain ⟨t, ht⟩ := @exists_define? s (.length l k) _ hexp rfl fun _ _ h => nomatch h
  have hlength : t.HasLength l k := by
    rcases define?_eq_some ht with ⟨m, sym, sym', symbols, -, hfill, hget, rfl⟩ | ⟨_, _, _, h, -⟩
    · cases hfill
      exact ⟨_, (hget _).trans (if_pos rfl), rfl⟩
    · cases h
  rw [establish, ht]
  exact hlength

end Assembly

/-- Whether the length attribute of a label is given, or will be given by jobs that compute it from a parameter and
wait for nothing else. -/
structure Moment.Measures (m : Moment) (n : Name) (v : Int32) (l : Name) (k : Nat) : Prop where
  sizes : m.state.Sizes (some l) k
  kept : ¬ m.Lapses l
  sole : ∀ job, m.Carries job → job.task.product? = some (.attr l .length) → job.Measures n v l k
  direct : ∀ id p, m.state.pendings.get? id = some p → p.work.task.product? = some (.attr l .length) →
    ∀ q ∈ p.waiting, q = .symbol n

namespace Moment

variable {m m' : Moment} {n l : Name} {v : Int32} {k : Nat} {job : Job} {key : Prerequisite}

theorem Measures.get?_ne_none (h : m.Measures n v l k) : m.state.symbols.get? l ≠ none := by
  obtain ⟨sym, hsym, -⟩ := h.sizes l rfl
  rw [hsym]
  exact Option.some_ne_none sym

theorem Sets.yields_measures (hs : m.Sets n v) (hopen : m.state.finished = false)
    (hjob : job.Measures n v l k) : m.Yields job (.length l k) := by
  refine (attempt_measures hs.valid.wellFormed.named hopen hs.value hjob).imp_right ?_
  rintro ⟨waiting, hwaiting, hmem⟩
  refine ⟨waiting, hwaiting, fun q hq key hreach => ?_⟩
  rw [hmem q hq] at hreach
  rw [hs.eq_of_reaches hreach, hjob.product?]
  exact nofun

/-- The steps before the end of the source keep this. -/
theorem Measures.step (h : m.Measures n v l k) (hstep : Approach n v m m') : m'.Measures n v l k := by
  have hv := hstep.before.valid
  have hgrows := hstep.step.grows
  have hopen : m.state.finished = false := finished_of_run (.single hstep.step) hstep.finished
  have hsole : ∀ job, m'.Carries job → job.task.product? = some (.attr l .length) → job.Measures n v l k :=
    fun job hc hkey => h.sole job (hc.of_step hv hstep.step hkey (.inr rfl) (.inl h.get?_ne_none)) hkey
  refine ⟨fun l' hl' => ?_, fun hl => ?_, hsole, fun id p hp hkey => ?_⟩
  · cases hl'
    obtain ⟨sym, hsym, hslot⟩ := h.sizes l rfl
    obtain ⟨later, hlater, hle⟩ := hgrows.earlier.symbols l sym hsym
    rcases hslot with hpending | hknown
    · by_cases hexp : m'.state.Expects (.attr l .length)
      · obtain ⟨other, hother, hpending'⟩ := hexp
        exact ⟨other, hother, .inl hpending'⟩
      · -- The job for it has been done with this step.
        have hexp₀ : m.state.Expects (.attr l .length) := ⟨sym, hsym, hpending⟩
        have hjob : m.HasJob (.attr l .length) := Classical.byContradiction fun hno => h.kept ⟨hexp₀, hno⟩
        obtain ⟨job, hc, hkey⟩ := hjob.exists_carries hv
        rcases hstep.keeps hc (hstep.before.yields_measures hopen (h.sole job hc hkey)) with
          hc' | ⟨t, halike, heq⟩
        · exact absurd ((hv.step hstep.step).expected_of_hasJob (hc'.hasJob (hv.step hstep.step) hkey)) hexp
        · obtain ⟨sym', hsym', hk⟩ := heq ▸ @hasLength_establish t l k ((halike.expects _).mpr hexp₀)
          exact ⟨sym', hsym', .inr hk⟩
    · obtain ⟨sym', hsym', hk⟩ := HasLength.later ⟨sym, hsym, hknown⟩ hgrows.earlier
      exact ⟨sym', hsym', .inr hk⟩
  · exact (hv.lapses_step hstep.step hl).elim h.kept h.get?_ne_none
  · rcases Step.pending hstep.step hp with hp | ⟨x, hx, hwork, hblocked⟩
    · exact h.direct id p hp hkey
    · have hjob := h.sole p.work (.inl ⟨x, hx, hwork⟩) hkey
      have hcases := attempt_measures hv.wellFormed.named hopen hstep.before.value hjob
      exact Evaluation.of_cases_blocked hcases hblocked

/-- Behind such an attribute there is nothing but the parameter. -/
theorem Measures.eq_of_reaches (h : m.Measures n v l k) (hs : m.Sets n v)
    (hreach : m.state.pendings.Reaches (.attr l .length) key) :
    key = .attr l .length ∨ key = .symbol n := by
  cases hreach with
  | refl => exact .inl rfl
  | step hwaits hrest =>
    obtain ⟨waiting, hwaiting, hmem⟩ := hwaits
    obtain ⟨id, p, hp, hkey, rfl⟩ := hs.valid.indexed.waitingOf?_eq_some.mp hwaiting
    rw [h.direct id p hp hkey _ hmem] at hrest
    exact .inr (hs.eq_of_reaches hrest)

/-- When no work is left to be tried, the attribute is known. -/
theorem Measures.known {s : Assembly} {phase : Phase} (h : Measures ⟨s, [], phase⟩ n v l k)
    (hs : Sets ⟨s, [], phase⟩ n v) (hw : Watchful ⟨s, [], phase⟩) (hphase : phase ≠ .closing)
    (hopen : s.finished = false) (hdone : s.Done) (hhas : s.Has n v) : s.HasLength l k := by
  obtain ⟨sym, hsym, hpending | hknown⟩ := h.sizes l rfl
  · have hjob : HasJob ⟨s, [], phase⟩ (.attr l .length) :=
      Classical.byContradiction fun hno => h.kept ⟨⟨sym, hsym, hpending⟩, hno⟩
    obtain ⟨job, hc, hkey⟩ := hjob.exists_carries hs.valid
    obtain ⟨waiting, hwaiting, q, hq, hlacks⟩ := hw.exists_lacking hs.valid hphase hopen hdone hc
    have hcases := attempt_measures hs.valid.wellFormed.named hopen hs.value (h.sole job hc hkey)
    rw [Evaluation.of_cases_blocked hcases hwaiting q hq] at hlacks
    exact absurd hlacks (not_lacks_of_has hhas)
  · exact ⟨sym, hsym, hknown⟩

end Moment

/-! ## 3. Storage -/

/-- A number in whose place zero stands if it is negative. -/
def atLeastZero (x : Int32) : Int32 := if x < 0 then 0 else x

/-- Whether a job reserves a space for storage that depends on a parameter, with a given result. -/
def Job.Stores (job : Job) (n : Name) (v : Int32) (label? : Option Name) (k : Nat) (space : SpaceId)
    (x : Int32) : Prop :=
  ∃ e, job.task = .space space (.storage e) ∧ e.isOver n label? ∧
    atLeastZero (e.valueAt v (Int32.ofNat k)) = x

theorem Job.Stores.product? {job : Job} {n : Name} {v x : Int32} {label? : Option Name} {k : Nat}
    {space : SpaceId} (h : job.Stores n v label? k space x) : job.task.product? = some (.space space) := by
  obtain ⟨e, htask, -⟩ := h
  rw [htask]
  rfl

namespace Assembly

variable {s : Assembly} {n : Name} {v x : Int32} {label? : Option Name} {k : Nat} {space : SpaceId} {job : Job}

theorem attempt_stores (hn : s.Named) (hopen : s.finished = false) (hset : s.Sets n v)
    (hsize : s.Sizes label? k) (hjob : job.Stores n v label? k space x) :
    (s.attempt job).value? = some (.space space ⟨x, []⟩) ∨
      ∃ waiting, s.attempt job = .blocked waiting ∧
        ∀ q ∈ waiting, q = .symbol n ∨ ∃ l, label? = some l ∧ q = .attr l .length := by
  obtain ⟨e, htask, he, rfl⟩ := hjob
  rw [attempt, htask]
  dsimp only [attemptSpace]
  rcases evaluateNumber_over hn hopen hset hsize he job.frame with heval | ⟨waiting, heval, hmem⟩
  · exact .inl (by rw [heval]; rfl)
  · exact .inr ⟨waiting, by rw [heval]; rfl, hmem⟩

end Assembly

/-- Whether a space has a given length, or will get it from a job for storage that depends on a parameter. -/
def Moment.Stores (m : Moment) (n : Name) (v : Int32) (label? : Option Name) (k : Nat) (space : SpaceId)
    (x : Int32) : Prop :=
  m.state.layout.spaces.length? space = some ⟨x, []⟩ ∨
    ∃ job, m.Carries job ∧ job.Stores n v label? k space x

namespace Moment

variable {m m' : Moment} {n : Name} {v x : Int32} {label? : Option Name} {k : Nat} {space : SpaceId}
  {job : Job}

theorem sizes_of_measures (hl : ∀ l, label? = some l → m.Measures n v l k) : m.state.Sizes label? k :=
  fun l h => (hl l h).sizes l rfl

/-- The space is neither behind the parameter nor behind the attribute. -/
theorem Sets.yields_stores (hs : m.Sets n v) (hopen : m.state.finished = false)
    (hl : ∀ l, label? = some l → m.Measures n v l k) (hjob : job.Stores n v label? k space x) :
    m.Yields job (.space space ⟨x, []⟩) := by
  refine (attempt_stores hs.valid.wellFormed.named hopen hs.value (sizes_of_measures hl) hjob).imp_right ?_
  rintro ⟨waiting, hwaiting, hmem⟩
  refine ⟨waiting, hwaiting, fun q hq key hreach => ?_⟩
  rw [hjob.product?]
  rintro ⟨⟩
  rcases hmem q hq with rfl | ⟨l, hl', rfl⟩
  · cases hs.eq_of_reaches hreach
  · rcases (hl l hl').eq_of_reaches hs hreach with heq | heq <;> cases heq

/-- The steps before the end of the source keep this, too. -/
theorem Stores.step (h : m.Stores n v label? k space x) (hl : ∀ l, label? = some l → m.Measures n v l k)
    (hstep : Approach n v m m') : m'.Stores n v label? k space x := by
  have hv := hstep.before.valid
  rcases h with hlength | ⟨job, hc, hjob⟩
  · exact .inl (hstep.step.grows.earlier.spaces.length? hlength)
  · have hopen : m.state.finished = false := finished_of_run (.single hstep.step) hstep.finished
    rcases hstep.keeps hc (hstep.before.yields_stores hopen hl hjob) with hc' | ⟨t, halike, heq⟩
    · exact .inr ⟨job, hc', hjob⟩
    · refine .inl ?_
      rw [heq]
      exact length?_establish ((halike.expects _).mpr (hv.expected_of_hasJob (hc.hasJob hv hjob.product?)))

/-- When no work is left to be tried, the space has its length. -/
theorem Stores.length? {s : Assembly} {phase : Phase} (h : Stores ⟨s, [], phase⟩ n v label? k space x)
    (hl : ∀ l, label? = some l → Measures ⟨s, [], phase⟩ n v l k) (hs : Sets ⟨s, [], phase⟩ n v)
    (hw : Watchful ⟨s, [], phase⟩) (hphase : phase ≠ .closing) (hopen : s.finished = false)
    (hdone : s.Done) (hhas : s.Has n v) : s.layout.spaces.length? space = some ⟨x, []⟩ := by
  rcases h with hlength | ⟨job, hc, hjob⟩
  · exact hlength
  · obtain ⟨waiting, hwaiting, q, hq, hlacks⟩ := hw.exists_lacking hs.valid hphase hopen hdone hc
    have hcases := attempt_stores hs.valid.wellFormed.named hopen hs.value (sizes_of_measures hl) hjob
    rcases Evaluation.of_cases_blocked hcases hwaiting q hq with rfl | ⟨l, hl', rfl⟩
    · exact absurd hlacks (not_lacks_of_has hhas)
    · -- The attribute is known then.
      obtain ⟨sym, hsym, hk⟩ := (hl l hl').known hs hw hphase hopen hdone hhas
      have hpending : sym.attributes.length = .pending := hlacks sym hsym
      rw [hk] at hpending
      cases hpending

end Moment

/-! ## 4. To the end of the source -/

/-- Whether the rest of a source, in which a parameter gets its number, leads to a state before the end of the source
in which no work is left to be tried. -/
structure Moment.Closes (m : Moment) (n : Name) (v : Int32) (c : Assembly) : Prop where
  run : Run (Approach n v) m ⟨c, [], .placing⟩
  sets : Sets ⟨c, [], .placing⟩ n v
  watchful : Watchful ⟨c, [], .placing⟩
  opened : c.finished = false
  done : c.Done
  has : c.Has n v

namespace Moment

variable {m m' : Moment} {n l : Name} {v x : Int32} {label? : Option Name} {k : Nat} {space : SpaceId}
  {c : Assembly}

theorem Closes.of_run (h : m'.Closes n v c) (hrun : Run (Approach n v) m m') : m.Closes n v c :=
  { h with run := hrun.trans h.run }

theorem Measures.run (h : m.Measures n v l k) (hrun : Run (Approach n v) m m') : m'.Measures n v l k :=
  hrun.keeps (P := fun m => m.Measures n v l k) (fun _ _ hstep hm => hm.step hstep) h

/-- The attribute of the label is known then. -/
theorem Closes.hasLength (h : m.Closes n v c) (hm : m.Measures n v l k) : c.HasLength l k :=
  (hm.run h.run).known h.sets h.watchful nofun h.opened h.done h.has

/-- The space has its length then. -/
theorem Closes.length? (h : m.Closes n v c) (hm : m.Stores n v label? k space x)
    (hl : ∀ l, label? = some l → m.Measures n v l k) : c.layout.spaces.length? space = some ⟨x, []⟩ := by
  have hlast := h.run.keeps
    (P := fun m => m.Stores n v label? k space x ∧ ∀ l, label? = some l → m.Measures n v l k)
    (fun _ _ hstep hm => ⟨hm.1.step hm.2 hstep, fun l hl => (hm.2 l hl).step hstep⟩) ⟨hm, hl⟩
  exact hlast.1.length? hlast.2 h.sets h.watchful nofun h.opened h.done h.has

end Moment

namespace Session

open Assembly

variable {eq : Equation} {v : Int32} {before after : List Command}

theorem performAll_append (s : Session) (before after : List Command) :
    s.performAll (before ++ after) = (s.performAll before).performAll after := List.foldl_append

/-- A program with one equation for the parameter leads to such a state, from any of its commands. -/
theorem closes_performAll (settings : Settings) (hconst : eq.value.compute? (fun _ => none) = some v)
    (hmem : .process eq.statement ∈ before ++ after) (hdefines : Defines eq (before ++ after)) :
    let s := ((new settings).performAll before).assembly
    let t := ((new settings).performAll (before ++ after)).assembly
    s.AtRest eq.label v ∧ Moment.Closes ⟨s, [], .reading⟩ eq.label v t.placeCounters.drainAll := by
  intro s t
  have hready := ready_new settings
  have hnone : (new settings).assembly.symbols.get? eq.label = none := SymbolTable.get?_empty _
  have hstart : (new settings).assembly.AtRest eq.label v := hready.valid.sets hnone v
  have hbefore : Defines eq before := hdefines.of_subset (List.subset_append_left before after)
  have hleads := leads_performAll (s := new settings) hready hbefore.unfinished
  obtain ⟨-, hrest⟩ := approach_performAll hready rfl hstart hconst hbefore
  obtain ⟨hrun, hlast⟩ := @approach_performAll ((new settings).performAll before) eq v after
    (hleads.ready hready) hleads.finished hrest hconst (hdefines.of_subset (List.subset_append_right before after))
  rw [← performAll_append] at hrun hlast
  have hin : t.symbols.get? eq.label ≠ none :=
    get?_ne_none_of_mem hready rfl hconst hdefines.unfinished hmem
  have hopen : t.finished = false :=
    (leads_performAll (s := new settings) hready hdefines.unfinished).finished
  obtain ⟨hplacing, hplaced⟩ := approach_placing hopen hlast hin
  have hreach : Moment.Reachable settings ⟨t.placeCounters.drainAll, [], .placing⟩ :=
    (reachable_performAll settings _).trans (hplacing.imp fun _ _ => Approach.step)
  exact ⟨hrest, hrun.trans hplacing, hplaced, hreach.watchful,
    t.run_placeCounters.steady.finished.trans hopen, drainAll_done _,
    has_of_sets hplaced (get?_ne_none_of_run (hplacing.imp fun _ _ => Approach.step) hin)⟩

end Session

end Assembler
