import Assembler.Proofs.Boundary
import Assembler.Proofs.Denotation
import Assembler.Proofs.Underflow
/-!
Moves to targets in other location counters.

A target is taken to be outside of the counter if it depends on an open space of another counter. So a move to the
label of a further counter that has not been moved is rejected, whether the label is known at the statement or only
later, and the counter keeps its position (`Session.reported_of_outside`).
-/

namespace Assembler

open Assembly Moment

/-! ## 1. Places outside of a counter -/

namespace Address

variable {a : Spaces} {id : CounterId} {k : SpaceId} {x : Address}

theorem within_eq_false {j : CounterId} (hk : k ∈ x.openSpaces a) (hcounter : a.counter? k = some j)
    (hne : j ≠ id) : x.within a id = false := by
  refine Bool.eq_false_iff.mpr fun hwithin => hne ?_
  obtain ⟨space, hspace, rfl⟩ := Option.map_eq_some_iff.mp hcounter
  have hall := List.all_eq_true.mp hwithin k hk
  rw [hspace] at hall
  exact of_decide_eq_true hall

/-- The open spaces of a place that a move would be accepted to belong to the counter. -/
theorem counter?_of_within (hx : x.LiesIn a) (ha : a.Closed) (h : x.within a id) :
    ∀ k ∈ x.openSpaces a, a.counter? k = some id := by
  intro k hk
  obtain ⟨space, hspace⟩ := Option.ne_none_iff_exists'.mp fun hnone =>
    Nat.not_le_of_lt (hx.normalize ha k hk) (Spaces.get?_eq_none_iff.mp hnone)
  have hall := List.all_eq_true.mp h k hk
  rw [hspace] at hall
  exact Option.map_eq_some_iff.mpr ⟨space, hspace, of_decide_eq_true hall⟩

/-- Such a place depends on no space of another counter. -/
theorem dependsOn_of_within (hx : x.LiesIn a) (ha : a.Closed) (h : x.within a id) : x.DependsOn a id :=
  dependsOn_of_openSpaces (counter?_of_within hx ha h)

theorem openSpaces_addOffset_normalize (ha : a.Acyclic) (x : Address) (n : Int32) :
    ((x.normalize a).addOffset n).openSpaces a = x.openSpaces a :=
  Normal.openSpaces_eq ha ⟨(normal_normalize ha x).canonical, (normal_normalize ha x).isOpen⟩

end Address

namespace Assembly

variable {s t : Assembly} {n : Name} {x y : Address} {e : Expr} {f : Frame} {i : Int32}

theorem Names.unique (h : s.Names n x) (h' : s.Names n y) : x = y := by
  obtain ⟨sym, hsym, hx⟩ := h
  obtain ⟨other, hother, hy⟩ := h'
  rw [hsym] at hother
  cases hother
  rw [hx] at hy
  cases hy
  rfl

theorem Names.liesIn (h : s.Names n x) (hs : s.Scoped) : x.LiesIn s.layout.spaces := by
  obtain ⟨sym, hsym, hx⟩ := h
  exact hs.values n sym _ hsym hx

end Assembly

/-- A value that is a number takes no section, and its bytes are that number. -/
theorem Value.bytes_toAddress_of_settle {a : Spaces} {v : Value} {i : Int32}
    (h : v.settle a = .resolved (.absolute i)) :
    v.toAddress.bases = [] ∧ ∀ τ, a.Fits τ → v.toAddress.bytes τ = i := by
  rcases settle_eq_resolved h with ⟨n, rfl, heq⟩ | ⟨x, rfl, hempty, heq⟩
  · cases heq
    exact ⟨rfl, fun τ _ => Int32.add_zero i⟩
  · by_cases habs : x.isAbsolute
    · rw [if_pos habs] at heq
      cases heq
      refine ⟨List.isEmpty_iff.mp habs, fun τ hτ => ?_⟩
      show x.bytes τ = _
      rw [← Address.bytes_normalize hτ, Address.bytes, List.isEmpty_iff.mp (hempty habs)]
      exact Int32.add_zero _
    · rw [if_neg habs] at heq
      cases heq

namespace Assembly

variable {s t : Assembly} {n : Name} {x y : Address} {e : Expr} {f : Frame} {i : Int32}

/-- The place of a label plus or minus a number depends on the same spaces as the place. -/
theorem evaluate_shifted (ha : s.layout.spaces.Acyclic) (hn : s.Names n x) (hbases : x.bases ≠ [])
    (he : s.evaluate e f = .resolved (.absolute i)) {op : Operator} (hop : op = .add ∨ op = .sub) :
    ∃ j, s.evaluate (.binary op (.symbol n) e) f =
      .resolved (.relocatable ((x.normalize s.layout.spaces).addOffset j)) := by
  obtain ⟨v, hv, hsettle⟩ := Expr.evaluate_eq_resolved he
  obtain ⟨hnone, hbytes⟩ := Value.bytes_toAddress_of_settle hsettle
  obtain ⟨sign, happly⟩ : ∃ sign, ∀ a, op.apply a (.relocatable x) v =
      .resolved (.relocatable (x.addScaled v.toAddress sign)) := by
    rcases hop with rfl | rfl
    · exact ⟨1, fun _ => by cases v <;> rfl⟩
    · exact ⟨-1, fun _ => by cases v <;> rfl⟩
  have hopen : (Expr.binary op (.symbol n) e).evaluateOpen s.scope f =
      .resolved (.relocatable (x.addScaled v.toAddress sign)) := by
    have hvalue : s.scope.value? n = some (.relocatable x) := Option.bind_eq_some_iff.mpr hn
    simp only [Expr.evaluateOpen, hvalue, hv, Evaluation.both, Evaluation.andThen]
    exact happly _
  -- A number has no bases, so the bases of the place are kept and it stays relocatable.
  have hsame : (x.addScaled v.toAddress sign).bases = x.bases := by
    rw [Address.addScaled, hnone]
    rfl
  have habs : ¬ ((x.addScaled v.toAddress sign).normalize s.layout.spaces).isAbsolute := by
    rw [Address.isAbsolute_normalize, Address.isAbsolute, hsame]
    exact fun h => hbases (List.isEmpty_iff.mp h)
  have hnormal : (x.addScaled v.toAddress sign).normalize s.layout.spaces =
      (x.normalize s.layout.spaces).addOffset (sign * i) := by
    have hx := Address.normal_normalize ha x
    refine (Address.normal_normalize ha _).eq_of_bytes ha ⟨hx.canonical, hx.isOpen⟩ hsame fun τ hτ => ?_
    rw [Address.bytes_normalize hτ, Address.bytes_addScaled, Address.bytes_addOffset, Address.bytes_normalize hτ,
      hbytes τ hτ]
  refine ⟨sign * i, ?_⟩
  rw [evaluate, Expr.evaluate, hopen]
  show (Value.relocatable _).settle s.layout.spaces = _
  rw [Value.settle_relocatable, if_neg fun h => habs h.1, Address.settled, if_neg habs, hnormal]

/-- As long as the label is unknown, its place plus or minus a number has to wait for it. -/
theorem evaluate_eq_blocked (hnone : s.symbols.get? n = none) (he : s.evaluate e f = .resolved (.absolute i))
    (op : Operator) : s.evaluate (.binary op (.symbol n) e) f = .blocked [.symbol n] := by
  obtain ⟨v, hv, -⟩ := Expr.evaluate_eq_resolved he
  have hvalue : s.scope.value? n = none := Option.bind_eq_none_iff.mpr fun sym hsym => by
    rw [hnone] at hsym
    cases hsym
  simp only [evaluate, Expr.evaluate, Expr.evaluateOpen, hvalue, hv, Evaluation.both, Evaluation.andThen]

/-- A number stays what it is. -/
theorem evaluate_number_later (hst : s.Earlier t) (hs : s.WellFormed) (ht : t.WellFormed) (hopen : s.finished = false)
    (hplain : e.isPlain) (he : s.evaluate e f = .resolved (.absolute i)) :
    t.evaluate e f = .resolved (.absolute i) := by
  have hinforms := informs_of_evaluate hs.named hopen hplain (Evaluation.not_isBlocked_of_resolved he)
  exact evaluate_later hst hs.acyclic ht.acyclic hplain hinforms he

/-! ### Moves to such targets -/

/-- Whether a label stands for a place from which no move leads into a given counter. -/
def Outside (s : Assembly) (n : Name) (id : CounterId) : Prop :=
  ∃ x, s.Names n x ∧ x.bases ≠ [] ∧ x.within s.layout.spaces id = false

variable {id : CounterId} {op : Operator}

/-- Whether a label that a statement enters in the state `s` is foreign to a counter: it belongs to another further
counter, which has not been moved, or its place turns out in the state `u` to depend on spaces of other counters. -/
def Foreign (s u : Assembly) (n : Name) (id : CounterId) : Prop :=
  (∃ c k, s.layout.Further c k ∧ c ≠ id) ∨ ∃ x, u.Names n x ∧ ¬ x.DependsOn u.layout.spaces id

/-- Whether a job has been tried too often and is parked until the end of the source. -/
def Parks (s : Assembly) (job : Job) : Prop := ∃ number ∈ s.stalled, ∃ p, s.pendings.get? number = some p ∧ p.work = job

theorem evaluate_of_outside (ha : s.layout.spaces.Acyclic) (hn : s.Outside n id)
    (he : s.evaluate e f = .resolved (.absolute i)) (hop : op = .add ∨ op = .sub) :
    ∃ y, s.evaluate (.binary op (.symbol n) e) f = .resolved (.relocatable y) ∧
      y.within s.layout.spaces id = false := by
  obtain ⟨x, hx, hbases, hout⟩ := hn
  obtain ⟨j, heval⟩ := evaluate_shifted ha hx hbases he hop
  refine ⟨_, heval, ?_⟩
  rw [Address.within, Address.openSpaces_addOffset_normalize ha]
  exact hout

theorem moveToTarget_of_outside (ha : s.layout.spaces.Acyclic) (hn : s.Outside n id)
    (hid : s.layout.current? = some id) (he : s.evaluate e f = .resolved (.absolute i))
    (hop : op = .add ∨ op = .sub) (boundary : Nat) (offset : Int32) :
    s.moveToTarget (.binary op (.symbol n) e) boundary offset f = s.report .outsideSection f.location := by
  obtain ⟨y, heval, hwithin⟩ := evaluate_of_outside ha hn he hop
  unfold moveToTarget
  rw [heval]
  dsimp only
  rw [if_neg]
  rintro ⟨-, hall⟩
  rw [hid, Option.all_some, hwithin] at hall
  cases hall

end Assembly

/-- Whether a job gives a space the length of a move to a label plus or minus a number. -/
def Job.JumpsTo (job : Job) (k : SpaceId) (n : Name) (e : Expr) (f : Frame) : Prop :=
  ∃ op position boundary offset, (op = .add ∨ op = .sub) ∧
    job = ⟨.space k (.jump (.binary op (.symbol n) e) position boundary offset), f⟩

namespace Assembly

variable {s : Assembly} {n : Name} {e : Expr} {f : Frame} {i : Int32} {id : CounterId} {k : SpaceId} {job : Job}

theorem attempt_of_outside (ha : s.layout.spaces.Acyclic) (hn : s.Outside n id)
    (hk : s.layout.spaces.counter? k = some id) (he : s.evaluate e f = .resolved (.absolute i))
    (hjob : job.JumpsTo k n e f) : s.attempt job = .fallback (.space k .zero) .outsideSection := by
  obtain ⟨op, position, boundary, offset, hop, rfl⟩ := hjob
  obtain ⟨y, heval, hwithin⟩ := evaluate_of_outside ha hn he hop
  obtain ⟨space, hspace, rfl⟩ := Option.map_eq_some_iff.mp hk
  have htarget : s.attemptTarget k (.binary op (.symbol n) e) position f = .fallback {} .outsideSection := by
    rw [attemptTarget, heval]
    dsimp only [Evaluation.andThen]
    rw [if_neg]
    rintro ⟨-, hall⟩
    rw [hspace, Option.all_some, hwithin] at hall
    cases hall
  simp only [attempt, attemptSpace, htarget, Evaluation.andThen, Evaluation.map]

theorem attempt_of_free (hnone : s.symbols.get? n = none) (he : s.evaluate e f = .resolved (.absolute i))
    (hjob : job.JumpsTo k n e f) : s.attempt job = .blocked [.symbol n] := by
  obtain ⟨op, position, boundary, offset, -, rfl⟩ := hjob
  simp only [attempt, attemptSpace, attemptTarget, evaluate_eq_blocked hnone he, Evaluation.andThen, Evaluation.map]

end Assembly

/-! ## 2. Moves that wait for a label -/

namespace Moment

variable {m m' : Moment} {n : Name} {x : Address} {e : Expr} {f : Frame} {i : Int32} {id : CounterId} {k : SpaceId}
  {job : Job}

/-- Nothing is behind a name that is free. -/
theorem Valid.eq_of_reaches (hv : m.Valid) (hnone : m.state.symbols.get? n = none) {key : Prerequisite}
    (hreach : m.state.pendings.Reaches (.symbol n) key) : key = .symbol n := by
  cases hreach with
  | refl => rfl
  | step hwaits =>
    obtain ⟨waiting, hwaiting, -⟩ := hwaits
    obtain ⟨id, p, hp, hkey, -⟩ := hv.indexed.waitingOf?_eq_some.mp hwaiting
    obtain ⟨sym, hsym, -⟩ := (hv.entries id p hp).expected _ hkey
    rw [hnone] at hsym
    cases hsym

/-- Whether a move to a label plus or minus a number is to be made by a job, at a moment before the end of the
source. -/
structure Targets (m : Moment) (job : Job) (k : SpaceId) (id : CounterId) (n : Name) (e : Expr) (f : Frame)
    (i : Int32) : Prop where
  valid : m.Valid
  opened : m.state.finished = false
  unlimited : m.state.settings.maxDiagnostics = 0
  counter : m.state.layout.spaces.counter? k = some id
  jumps : job.JumpsTo k n e f
  plain : e.isPlain
  number : m.state.evaluate e f = .resolved (.absolute i)

theorem Targets.run (h : m.Targets job k id n e f i) (hrun : Run Step m m') (hopen : m'.state.finished = false) :
    m'.Targets job k id n e f i where
  valid := h.valid.run hrun
  opened := hopen
  unlimited := hrun.grows.settings ▸ h.unlimited
  counter := hrun.grows.earlier.spaces.counter? h.counter
  jumps := h.jumps
  plain := h.plain
  number := evaluate_number_later hrun.grows.earlier h.valid.wellFormed (h.valid.run hrun).wellFormed h.opened h.plain
    h.number

/-- As long as the label is free, the move is kept. -/
theorem Targets.keeps (h : m.Targets job k id n e f i) (hnone : m.state.symbols.get? n = none) (hc : m.Carries job)
    (hstep : Step m m') (hopen : m'.state.finished = false) : m'.Carries job := by
  refine h.valid.waits hstep hopen hc (attempt_of_free hnone h.number h.jumps) fun q hq key hreach => ?_
  rw [List.mem_singleton.mp hq] at hreach
  rw [h.valid.eq_of_reaches hnone hreach]
  obtain ⟨op, position, boundary, offset, -, rfl⟩ := h.jumps
  exact nofun

theorem Targets.keeps_run (h : m.Targets job k id n e f i) (hc : m.Carries job) (hrun : Run Step m m')
    (hopen : m'.state.finished = false) (hnone : m'.state.symbols.get? n = none) : m'.Carries job := by
  induction hrun with
  | refl => exact hc
  | tail hrun hstep ih =>
    -- A label that is free at the end has been free all the time.
    have hfree := Classical.byContradiction fun hin => get?_ne_none_of_run (.single hstep) hin hnone
    have hopened := finished_of_run (.single hstep) hopen
    exact (h.run hrun hopened).keeps hfree (ih hopened hfree) hstep hopen

/-- Whether a move has been rejected: its space has length zero, and a report says that the target is outside. -/
structure Rejects (m : Moment) (k : SpaceId) (location : Location) : Prop where
  length : m.state.layout.spaces.length? k = some .zero
  reported : .ofFault .outsideSection location ∈ m.state.diagnostics

theorem Rejects.step {location : Location} (h : m.Rejects k location) (hstep : Step m m') : m'.Rejects k location where
  length := hstep.grows.earlier.spaces.length? h.length
  reported := hstep.grows.diagnostics.subset h.reported

/-- When the label has turned out to be outside, the move is rejected as soon as it comes up. -/
theorem Targets.rejects (h : m.Targets job k id n e f i) (hn : m.state.Outside n id) (hc : m.Carries job)
    (hstep : Step m m') (hopen : m'.state.finished = false) : m'.Carries job ∨ m'.Rejects k f.location := by
  refine (h.valid.settles hstep hopen hc).imp_right fun ⟨id?, heq⟩ => ?_
  rw [settle_fallback (attempt_of_outside h.valid.wellFormed.acyclic hn h.counter h.number h.jumps)] at heq
  obtain ⟨op, position, boundary, offset, -, rfl⟩ := h.jumps
  have hexp := h.valid.expected_of_hasJob (hc.hasJob h.valid rfl)
  have halike := m.state.alike_report .outsideSection f.location
  dsimp only at heq
  refine ⟨?_, ?_⟩
  · rw [heq]
    exact length?_establish ((halike.expects _).mpr hexp)
  · rw [heq, diagnostics_establish]
    exact reported_of_report h.unlimited _ _

theorem Targets.rejects_run (h : m.Targets job k id n e f i) (hc : m.Carries job) (hrun : Run Step m m')
    (hopen : m'.state.finished = false) (hout : ∀ b, Run Step m b → Run Step b m' → b.state.Outside n id) :
    m'.Carries job ∨ m'.Rejects k f.location := by
  induction hrun with
  | refl => exact .inl hc
  | @tail a b hrun hstep ih =>
    have hopened := finished_of_run (.single hstep) hopen
    rcases ih hopened fun x hx hxa => hout x hx (hxa.tail hstep) with hca | hrejects
    · exact (h.run hrun hopened).rejects (hout a hrun (.single hstep)) hca hstep hopen
    · exact .inr (hrejects.step hstep)

/-- When no work is left to be tried, the move has been rejected, or it has been tried too often and is parked. -/
theorem Targets.parks {s : Assembly} {phase : Phase} (h : Targets ⟨s, [], phase⟩ job k id n e f i)
    (hw : Watchful ⟨s, [], phase⟩) (hphase : phase ≠ .closing) (hworklist : s.worklist = []) (hn : s.Outside n id)
    (hc : Carries ⟨s, [], phase⟩ job) : s.Parks job := by
  rcases hc with ⟨x, hx, -⟩ | ⟨number, p, hp, rfl⟩
  · cases hx
  · rcases hw number p hp with htried | hparked | hstuck
    · rw [show s.worklist = [] from hworklist] at htried
      cases htried
    · exact ⟨number, hparked, p, hp, rfl⟩
    · obtain ⟨waiting, hwaiting⟩ := hstuck.isBlocked hphase h.valid.wellFormed fun hfinished => by
        rw [h.opened] at hfinished
        cases hfinished
      rw [attempt_of_outside h.valid.wellFormed.acyclic hn h.counter h.number h.jumps] at hwaiting
      cases hwaiting

/-! ### Labels that are outside -/

variable {settings : Settings}

/-- Before the end of the source is over, it is read no more once the counters are being placed. -/
theorem Valid.reading_of_step (hv : m.Valid) (h : Step m m') (hphase : m'.phase = .reading)
    (hopen : m'.state.finished = false) : m.phase = .reading := by
  cases h with
  | cascade h => cases h <;> exact hphase
  | progress h => cases h <;> rfl
  | ending h =>
    cases h with
    | clear =>
      rw [show _ = true from hv.closing rfl] at hopen
      cases hopen
    | place | close | explain | choose | conclude => cases hphase

theorem Valid.reading_of_run (hv : m.Valid) (hrun : Run Step m m') (hphase : m'.phase = .reading)
    (hopen : m'.state.finished = false) : m.phase = .reading := by
  induction hrun with
  | refl => exact hphase
  | tail hrun hstep ih =>
    exact ih ((hv.run hrun).reading_of_step hstep hphase hopen) (finished_of_run (.single hstep) hopen)

/-- The label of a further counter that has not been moved is outside of all other counters. -/
theorem Reachable.outside (h : m.Reachable settings) (hphase : m.phase = .reading) (hopen : m.state.finished = false)
    (hn : m.state.Names n x) (hbases : x.bases ≠ []) (hstart : m.state.layout.HasStart k)
    (hx : x.RestsOn m.state.layout.spaces k) {j : CounterId} (hk : m.state.layout.spaces.counter? k = some j)
    (hne : j ≠ id) : m.state.Outside n id :=
  ⟨x, hn, hbases, Address.within_eq_false (h.mem_openSpaces hphase hopen hstart hx) hk hne⟩

/-- What depends on another counter later depends on it now. -/
theorem outside_of_later {s t : Assembly} (hst : s.Earlier t) (hs : s.Scoped) (hn : s.Names n x)
    (hbases : x.bases ≠ []) (hno : ¬ x.DependsOn t.layout.spaces id) : s.Outside n id := by
  refine ⟨x, hn, hbases, Bool.eq_false_iff.mpr fun hwithin => hno ?_⟩
  exact (Address.dependsOn_of_within (hn.liesIn hs) hs.closed hwithin).later hst.spaces

end Moment

/-! ## 3. Statements -/

namespace Assembly

variable {s t u : Assembly} {st : Statement} {id : CounterId} {target : Expr} {f : Frame}

/-- A move to a target that is not known yet passes a space, which waits for the target from then on. -/
theorem exists_carries_jumpToTarget (hs : s.Ready) (hf : f.Scoped s.layout.spaces) (hid : s.layout.current? = some id)
    (target : Expr) (boundary : Nat) (offset : Int32) :
    ∃ k m, Run Advance ⟨s, [], .reading⟩ m ∧
      m.Carries ⟨.space k (.jump target s.layout.position boundary offset), f⟩ ∧
      m.state.layout.spaces.counter? k = some id ∧
      Run Advance m ⟨s.jumpToTarget target boundary offset f, [], .reading⟩ ∧
      (s.jumpToTarget target boundary offset f).layout.position = s.layout.position.addSpace k 1 := by
  obtain ⟨hcounter, hposition⟩ := hs.valid.formed.jump hid .jump
  have harranges := @Layout.arranges_jump s.layout (.jump target s.layout.position boundary offset)
    hs.valid.formed.liesIn_position f hf
  have hresolve := @run_resolveAll .reading { s with layout := (s.layout.jump .jump).2 }
    [⟨.space (s.layout.jump .jump).1 (.jump target s.layout.position boundary offset), f⟩]
  have hcheck := leads_checkNotBelow (({ s with layout := (s.layout.jump .jump).2 } : Assembly).resolveOrDefer
    (.space (s.layout.jump .jump).1 (.jump target s.layout.position boundary offset)) f)
    s.layout.origin target boundary offset (hf.later (leads_arrange harranges).earlier)
  refine ⟨_, _, .single (.progress (.arrange harranges)), .inl ⟨_, List.mem_singleton_self _, rfl⟩, hcounter,
    (hresolve.imp fun _ _ => .cascade).trans hcheck.run, ?_⟩
  refine Eq.trans ?_ hposition
  exact ((fills_resolveOrDefer s _ _ f).trans (fills_checkNotBelow _ _ _ _ _ f)).position

end Assembly

namespace Moment

variable {s t : Assembly} {m m' m₀ : Moment} {d : Statement} {n : Name} {x : Address} {id : CounterId} {k : SpaceId}
  {settings : Settings} {e : Expr} {f : Frame} {i : Int32} {job : Job}

/-- From the moment on at which it is entered, the label of a further counter is outside of all other counters. Until
the end of the source the start of the counter stays open, and the label rests on it. -/
theorem outside_of_further (h : Introduces d n s t m x) (hs : s.Ready) (hreach : Reachable settings ⟨s, [], .reading⟩)
    (hordered : s.layout.Ordered s.Names) (hrooted : s.layout.Rooted) (hd : d.Places n) {j : CounterId}
    (hfurther : s.layout.Further j k) (hne : j ≠ id) {b : Moment} (hmb : Run Step m b) (hreading : b.phase = .reading)
    (hopen : b.state.finished = false) : b.state.Outside n id := by
  have henter := h.acts.leads.steps.tail h.enter.step
  have hb : b.Reachable settings := hreach.trans (henter.trans hmb)
  obtain ⟨hcounter, hrests⟩ := h.restsOn hrooted hfurther
  have hearlier := hmb.grows.earlier.spaces
  exact hb.outside hreading hopen (h.names.later hmb.grows.earlier) (h.bases_ne_nil hs hordered hd)
    (hasStart_run (henter.trans hmb) hfurther.hasStart) (hrests.later hearlier) (hearlier.counter? hcounter) hne

/-- The same is true of a label whose place turns out to depend on another counter. -/
theorem outside_of_names (h : Introduces d n s t m x) (hs : s.Ready) (hreach : Reachable settings ⟨s, [], .reading⟩)
    (hordered : s.layout.Ordered s.Names) (hd : d.Places n) {b m' : Moment} (hmb : Run Step m b) (hbm : Run Step b m')
    {y : Address} (hy : m'.state.Names n y) (hno : ¬ y.DependsOn m'.state.layout.spaces id) : b.state.Outside n id := by
  have hb : b.Reachable settings := hreach.trans ((h.acts.leads.steps.tail h.enter.step).trans hmb)
  have hnames := h.names.later hmb.grows.earlier
  obtain rfl := hy.unique (hnames.later hbm.grows.earlier)
  exact outside_of_later hbm.grows.earlier hb.valid.wellFormed.inScope hnames (h.bases_ne_nil hs hordered hd) hno

/-- A move that waits for the label is kept up to the entry of the label, and from then on it is rejected when it comes
up. -/
theorem Targets.rejects_of_introduces (h : m₀.Targets job k id n e f i) (hc : m₀.Carries job)
    (hrun : Run Step m₀ ⟨s, [], .reading⟩) (hin : Introduces d n s t m x) (hrest : Run Step m m')
    (hopen : m'.state.finished = false) (hout : ∀ b, Run Step m b → Run Step b m' → b.state.Outside n id) :
    m'.Targets job k id n e f i ∧ (m'.Carries job ∨ m'.Rejects k f.location) := by
  have hfree := hrun.trans hin.acts.leads.steps
  have hentered := finished_of_run hrest hopen
  have hbefore := finished_of_run (.single hin.enter.step) hentered
  have hkept := (h.run hfree hbefore).keeps hin.free (h.keeps_run hc hfree hbefore hin.free) hin.enter.step hentered
  have hm := h.run (hfree.tail hin.enter.step) hentered
  exact ⟨hm.run hrest hopen, hm.rejects_run hkept hrest hopen hout⟩

end Moment

/-! ## 4. Sessions -/

namespace Session

variable {settings : Settings} {commands : List Command} {k l : Nat} {st : Statement}

/-- The state of a session before the command with a given number. -/
def stateBefore (settings : Settings) (commands : List Command) (k : Nat) : Assembly :=
  ((new settings).performAll (commands.take k)).assembly

theorem stateBefore_add_one (settings : Settings) (h : commands[k]? = some (.process st)) :
    stateBefore settings commands (k + 1) = (stateBefore settings commands k).process st := by
  rw [stateBefore, List.take_add_one, h, performAll_append]
  rfl

theorem ready_stateBefore (settings : Settings) (commands : List Command) (k : Nat) :
    (stateBefore settings commands k).Ready :=
  (follows_performAll (s := new settings) (ready_new settings) _).ready (ready_new settings)

theorem leads_stateBefore (settings : Settings) (hc : .finish ∉ commands) (h : k ≤ l) :
    (stateBefore settings commands k).Leads (stateBefore settings commands l) := by
  have hsplit := List.take_append_drop k (commands.take l)
  rw [List.take_take, Nat.min_eq_left h] at hsplit
  rw [stateBefore, stateBefore, ← hsplit, performAll_append]
  exact leads_performAll (ready_stateBefore settings commands k) fun hmem =>
    hc (List.mem_of_mem_take (List.mem_of_mem_drop hmem))

theorem settings_of_prepares {target : Expr} {boundary : Nat} {offset : Int32} {f : Frame} {u : Assembly}
    (hu : (stateBefore settings commands k).Prepares st target boundary offset f u) : u.settings = settings :=
  hu.leads.steps.grows.settings.trans (reachable_performAll settings _).occurs.settings_eq

/-- Whether a command of a session moves a counter to a label plus or minus a number, and another one gives the label
its place. -/
structure MovesTo (commands : List Command) (i j : Nat) (st d : Statement) (n : Name) (op : Operator) (e : Expr) :
    Prop where
  unfinished : .finish ∉ commands
  move : commands[i]? = some (.process st)
  operation : st.operation = .org (.place (some (.binary op (.symbol n) e)) none none)
  operator : op = .add ∨ op = .sub
  plain : e.isPlain
  label : commands[j]? = some (.process d)
  places : d.Places n

variable {i j : Nat} {d : Statement} {n : Name} {op : Operator} {e : Expr} {id : CounterId} {number : Int32}

theorem MovesTo.finished (h : MovesTo commands i j st d n op e) (k : Nat) :
    (stateBefore settings commands k).finished = false :=
  (leads_performAll (s := new settings) (ready_new settings) fun hmem =>
    h.unfinished (List.mem_of_mem_take hmem)).finished

/-- From the moment on at which the label is entered, it is outside of a counter that it is foreign to. -/
theorem MovesTo.exists_introduces (h : MovesTo commands i j st d n op e)
    (hfree : (stateBefore settings commands j).symbols.get? n = none) (id : CounterId) :
    ∃ t m x, Introduces d n (stateBefore settings commands j) t m x ∧
      (∀ (u : Assembly) (b : Moment), u.finished = false → (stateBefore settings commands j).Foreign u n id →
        Run Step m b → Run Step b ⟨u, [], .reading⟩ → b.state.Outside n id) ∧
      ∀ (m' b : Moment) (y : Address), m'.state.Names n y → ¬ y.DependsOn m'.state.layout.spaces id →
        Run Step m b → Run Step b m' → b.state.Outside n id := by
  have hready := ready_stateBefore settings commands j
  have hordered := ordered_performAll settings (commands.take j)
  have hrooted := rooted_performAll (s := new settings) (ready_new settings) (.new settings.counterAlignment)
    (commands.take j)
  have hreach := reachable_performAll settings (commands.take j)
  obtain ⟨t, m, x, hin⟩ := Assembly.exists_introduces hready h.places hfree
  have hlater := fun (m' b : Moment) (y : Address) (hy : m'.state.Names n y)
    (hno : ¬ y.DependsOn m'.state.layout.spaces id) (hmb : Run Step m b) (hbm : Run Step b m') =>
      outside_of_names hin hready hreach hordered h.places hmb hbm hy hno
  refine ⟨t, m, x, hin, fun u b hopen hforeign hmb hbu => ?_, hlater⟩
  rcases hforeign with ⟨c, k, hfurther, hne⟩ | ⟨y, hy, hno⟩
  · have hreached : b.Reachable settings := hreach.trans ((hin.acts.leads.steps.tail hin.enter.step).trans hmb)
    exact outside_of_further hin hready hreach hordered hrooted h.places hfurther hne hmb
      (hreached.valid.reading_of_run hbu rfl hopen) (finished_of_run hbu hopen)
  · exact hlater _ b y hy hno hmb hbu

section

variable (h : MovesTo commands i j st d n op e) (hroom : settings.maxDiagnostics = 0) {f : Frame} {u : Assembly}
  (hu : (stateBefore settings commands i).Prepares st (.binary op (.symbol n) e) 1 0 f u)
  (hid : (stateBefore settings commands i).layout.ensureSection.current? = some id)
  (hnumber : u.evaluate e f = .resolved (.absolute number))
  (hfree : (stateBefore settings commands j).symbols.get? n = none)

include h hroom hu hid hnumber hfree

/-- The move is rejected at once if the label comes first. -/
theorem MovesTo.reported_at_once (hji : j < i)
    (hforeign : (stateBefore settings commands j).Foreign (stateBefore settings commands (i + 1)) n id) :
    .ofFault .outsideSection st.location ∈ (stateBefore settings commands (i + 1)).diagnostics ∧
      (stateBefore settings commands (i + 1)).layout.counters =
        (stateBefore settings commands i).layout.ensureSection.counters := by
  obtain ⟨t, m, x, hin, hout, -⟩ := h.exists_introduces hfree id
  have hready := hu.leads.ready (ready_stateBefore settings commands i)
  have hbefore := stateBefore_add_one settings h.label ▸ leads_stateBefore settings h.unfinished hji
  have hafter := stateBefore_add_one settings h.move
  have houtside := hout _ ⟨u, [], .reading⟩ (h.finished (i + 1)) hforeign
    ((hin.rest.steps.trans hbefore.steps).trans hu.leads.steps) (hafter ▸ hu.rest.steps)
  have hmove := moveToTarget_of_outside hready.valid.wellFormed.acyclic houtside (hu.fills.current?.trans hid) hnumber
    h.operator 1 0
  rw [hafter, hu.process, hmove, ← hu.location]
  refine ⟨reported_of_report ?_ _ _, ?_⟩
  · rw [settings_of_prepares hu]
    exact hroom
  · rw [(alike_report u _ _).layout]
    exact hu.fills.counters

/-- If the label comes later, the counter passes a space, whose job waits for the label. -/
theorem MovesTo.exists_targets (hij : i < j) :
    ∃ job k m₀, m₀.Targets job k id n e f number ∧ m₀.Carries job ∧
      Run Step m₀ ⟨stateBefore settings commands j, [], .reading⟩ ∧
      (stateBefore settings commands (i + 1)).layout.position =
        (stateBefore settings commands i).layout.ensureSection.position.addSpace k 1 := by
  have hready := hu.leads.ready (ready_stateBefore settings commands i)
  have hbetween := leads_stateBefore settings h.unfinished hij
  have hafter := stateBefore_add_one settings h.move
  -- The label is not known at the ORG, so this becomes a jump.
  have hunknown : u.symbols.get? n = none := Classical.byContradiction fun hin =>
    get?_ne_none_of_run (hu.rest.trans (hafter ▸ hbetween)).steps hin hfree
  have hjump : (stateBefore settings commands i).process st = u.jumpToTarget (.binary op (.symbol n) e) 1 0 f := by
    rw [hu.process, moveToTarget, evaluate_eq_blocked hunknown hnumber]
  obtain ⟨k, m₀, hpass, hcarries, hcounter, hresolve, hposition⟩ :=
    exists_carries_jumpToTarget hready hu.inScope (hu.fills.current?.trans hid) (.binary op (.symbol n) e) 1 0
  rw [← hjump, ← hafter] at hresolve hposition
  have hlast := hresolve.steps.trans hbetween.steps
  have hopen := finished_of_run hlast (h.finished j)
  have hroom₀ : m₀.state.settings.maxDiagnostics = 0 := by
    rw [hpass.steps.grows.settings.trans (settings_of_prepares hu)]
    exact hroom
  have hnumber₀ := evaluate_number_later hpass.steps.grows.earlier hready.valid.wellFormed
    (hready.valid.run hpass.steps).wellFormed (finished_of_run hpass.steps hopen) h.plain hnumber
  exact ⟨_, k, m₀, ⟨hready.valid.run hpass.steps, hopen, hroom₀, hcounter, ⟨op, _, _, _, h.operator, rfl⟩, h.plain,
    hnumber₀⟩, hcarries, hlast, hu.fills.position ▸ hposition⟩

/-- When a label is foreign to the counter of a move that comes before it, the move has been rejected, or else it has
been tried too often and is parked. -/
theorem MovesTo.rejected_or_parked (hij : i < j) (hjl : j < l)
    (hforeign : (stateBefore settings commands j).Foreign (stateBefore settings commands l) n id) :
    ∃ job k, job.JumpsTo k n e f ∧
      (stateBefore settings commands (i + 1)).layout.position =
        (stateBefore settings commands i).layout.ensureSection.position.addSpace k 1 ∧
      (Rejects ⟨stateBefore settings commands l, [], .reading⟩ k f.location ∨
        (stateBefore settings commands l).Parks job) := by
  obtain ⟨t, m, x, hin, hout, -⟩ := h.exists_introduces hfree id
  obtain ⟨job, k, m₀, hm₀, hcarries, hwaits, hposition⟩ := h.exists_targets hroom hu hid hnumber hfree hij
  have hlabel := stateBefore_add_one settings h.label
  have hrest := hin.rest.steps.trans (hlabel ▸ leads_stateBefore settings h.unfinished hjl).steps
  have hforeign := fun b => hout _ b (h.finished l) hforeign
  obtain ⟨htargets, houtcome⟩ := hm₀.rejects_of_introduces hcarries hwaits hin hrest (h.finished l) hforeign
  have hworklist : (stateBefore settings commands l).worklist = [] :=
    (follows_performAll (s := new settings) (ready_new settings) _).worklist rfl
  refine ⟨job, k, hm₀.jumps, hposition, houtcome.symm.imp_right fun hc => ?_⟩
  exact htargets.parks (reachable_performAll settings _).watchful nofun hworklist (hforeign _ hrest (.refl _)) hc

/-- Without parked work the move is rejected with the label. -/
theorem MovesTo.rejected_later (hij : i < j)
    (hforeign : (stateBefore settings commands j).Foreign (stateBefore settings commands (j + 1)) n id)
    (hstalled : (stateBefore settings commands (j + 1)).stalled = []) :
    .ofFault .outsideSection st.location ∈ (stateBefore settings commands (j + 1)).diagnostics ∧
      ∃ k, (stateBefore settings commands (i + 1)).layout.position =
          (stateBefore settings commands i).layout.ensureSection.position.addSpace k 1 ∧
        (stateBefore settings commands (j + 1)).layout.spaces.length? k = some .zero := by
  obtain ⟨job, k, -, hposition, hrejects | ⟨number, hparked, -⟩⟩ :=
    h.rejected_or_parked hroom hu hid hnumber hfree hij (Nat.lt_add_one j) hforeign
  · rw [hu.location] at hrejects
    exact ⟨hrejects.reported, k, hposition, hrejects.length⟩
  · rw [hstalled] at hparked
    cases hparked

/-- Parked work is tried again when the counters have been placed. -/
theorem MovesTo.reported_placed (hij : i < j) (hjl : j < l)
    {y : Address} (hy : (stateBefore settings commands l).placeCounters.drainAll.Names n y)
    (hno : ¬ y.DependsOn (stateBefore settings commands l).placeCounters.drainAll.layout.spaces id) :
    .ofFault .outsideSection st.location ∈ (stateBefore settings commands l).finish.diagnostics := by
  obtain ⟨t, m, x, hin, -, hout⟩ := h.exists_introduces hfree id
  obtain ⟨job, k, m₀, hm₀, hcarries, hwaits, -⟩ := h.exists_targets hroom hu hid hnumber hfree hij
  have hlabel := stateBefore_add_one settings h.label
  have hready := ready_stateBefore settings commands l
  have hopen : (stateBefore settings commands l).finished = false := h.finished l
  have hplace := (run_placed hopen).imp fun _ _ => Completion.step
  have hrest := (hin.rest.steps.trans (hlabel ▸ leads_stateBefore settings h.unfinished hjl).steps).trans hplace
  have hplaced : (stateBefore settings commands l).placeCounters.drainAll.finished = false :=
    (stateBefore settings commands l).run_placeCounters.steady.finished.trans hopen
  have houtside := fun b => hout ⟨(stateBefore settings commands l).placeCounters.drainAll, [], .placing⟩ b y hy hno
  obtain ⟨htargets, houtcome⟩ := hm₀.rejects_of_introduces hcarries hwaits hin hrest hplaced houtside
  have hdone := (stateBefore settings commands l).placeCounters.drainAll_done
  have hfinish := (run_of_placed hready hopen).imp fun _ _ => Completion.step
  rw [← hu.location]
  refine hfinish.grows.diagnostics.subset (houtcome.resolve_left fun hc => ?_).reported
  have hreach := (reachable_performAll settings (commands.take l)).trans hplace
  obtain ⟨number, hparked, -⟩ :=
    htargets.parks (Reachable.watchful hreach) nofun hdone.1 (houtside _ hrest (.refl _)) hc
  rw [show _ = [] from hdone.2] at hparked
  cases hparked

end

/-- A move that in the end leads below the origin of its counter is reported, too. -/
theorem MovesTo.reported_below (h : MovesTo commands i j st d n op e) (hroom : settings.maxDiagnostics = 0)
    {f : Frame} {u : Assembly} (hu : (stateBefore settings commands i).Prepares st (.binary op (.symbol n) e) 1 0 f u)
    (hnumber : u.evaluate e f = .resolved (.absolute number)) (hik : i < k)
    (hbelow : (stateBefore settings commands k).finish.LeadsBelow u.layout.origin (.binary op (.symbol n) e) 1 0 f) :
    .ofFault .outsideSection st.location ∈ (stateBefore settings commands k).finish.diagnostics := by
  have hready := hu.leads.ready (ready_stateBefore settings commands i)
  have hopen : u.finished = false := hu.leads.finished.trans (h.finished i)
  have hafter := stateBefore_add_one settings h.move
  have hrest := leads_stateBefore settings h.unfinished hik
  rw [hafter, hu.process] at hrest
  have hlead := hu.rest.trans (hu.process ▸ hrest)
  -- The label itself needs no attribute, and the number has been known without waiting.
  have hplace := hlead.steps.trans ((run_placed (h.finished k)).imp fun _ _ => Completion.step)
  have hinforms := (informs_of_evaluate hready.valid.wellFormed.named hopen h.plain
    (Evaluation.not_isBlocked_of_resolved hnumber)).later hplace.grows.earlier
  have hplain : (Expr.binary op (.symbol n) e).isPlain := h.plain
  rw [← hu.location]
  refine reported_of_moveToTarget hready hu.inScope ⟨_, h.operation⟩ hu.location hopen ?_ hplain hrest
    (reachable_performAll settings _) ⟨trivial, hinforms⟩ hbelow
  rw [settings_of_prepares hu]
  exact hroom

/-- An ORG whose target is a label plus or minus a number is reported if the label is foreign to the counter, be it
known at the statement or only later. The counter stays where it is then, if need be by a space of length zero. If work
is parked, so may be that of the ORG, but this is tried again at the end of the source, and the ORG is reported if the
label is foreign even when all counters have been placed. The ORG is reported as well if it turns out at the end of the
source that it leads below the origin. -/
theorem reported_of_outside (settings : Settings) (hroom : settings.maxDiagnostics = 0)
    (h : MovesTo commands i j st d n op e) :
    let s := stateBefore settings commands
    let l := (s i).layout.ensureSection
    let r := ((s i).enterOrg st).frameFor st [some (.binary op (.symbol n) e), none, none]
    let last := s (max i j + 1)
    let placed := (s commands.length).placeCounters.drainAll
    ∀ id number, l.current? = some id → r.2.evaluate e r.1 = .resolved (.absolute number) →
      (s j).symbols.get? n = none →
        ((s j).Foreign last n id → (i < j → last.stalled = []) →
          .ofFault .outsideSection st.location ∈ last.diagnostics ∧
            (j < i → last.layout.counters = l.counters) ∧
            (i < j → ∃ k, (s (i + 1)).layout.position = l.position.addSpace k 1 ∧
              last.layout.spaces.length? k = some .zero)) ∧
        (i < j →
          (∀ k, j < k → (s j).Foreign (s k) n id → .ofFault .outsideSection st.location ∈ (s k).diagnostics ∨
            ∃ job space, job.JumpsTo space n e r.1 ∧ (s k).Parks job) ∧
          ∀ x, placed.Names n x → ¬ x.DependsOn placed.layout.spaces id →
            .ofFault .outsideSection st.location ∈ (s commands.length).finish.diagnostics) ∧
        ((s commands.length).finish.LeadsBelow r.2.layout.origin (.binary op (.symbol n) e) 1 0 r.1 →
          .ofFault .outsideSection st.location ∈ (s commands.length).finish.diagnostics) := by
  intro s l r last placed id number hid hnumber hfree
  have hr : (s i).Prepares st (.binary op (.symbol n) e) 1 0 r.1 r.2 :=
    prepares_org (ready_stateBefore settings commands i) h.operation rfl rfl
  have hlength : i < commands.length := (List.getElem?_eq_some_iff.mp h.move).1
  refine ⟨fun hforeign hstalled => ?_, fun hij => ⟨fun k hjk hforeign => ?_, fun x hx hno => ?_⟩,
    h.reported_below hroom hr hnumber hlength⟩
  · rcases Nat.lt_trichotomy i j with hij | rfl | hji
    · have hlast : last = s (j + 1) := congrArg (fun k => s (k + 1)) (Nat.max_eq_right (Nat.le_of_lt hij))
      rw [hlast] at hforeign hstalled ⊢
      obtain ⟨hreport, hspace⟩ := h.rejected_later hroom hr hid hnumber hfree hij hforeign (hstalled hij)
      exact ⟨hreport, fun hji => absurd hji (Nat.lt_asymm hij), fun _ => hspace⟩
    · -- An ORG gives its label no storage.
      have heq : st = d := by
        have hsame := h.move.symm.trans h.label
        cases hsame
        rfl
      subst heq
      obtain ⟨-, ⟨_, _, _, hdata⟩ | ⟨hinstruction, -⟩⟩ := h.places
      · cases h.operation.symm.trans hdata
      · cases h.operation.symm.trans hinstruction
    · have hlast : last = s (i + 1) := congrArg (fun k => s (k + 1)) (Nat.max_eq_left (Nat.le_of_lt hji))
      rw [hlast] at hforeign hstalled ⊢
      obtain ⟨hreport, hcounters⟩ := h.reported_at_once hroom hr hid hnumber hfree hji hforeign
      exact ⟨hreport, fun _ => hcounters, fun hij => absurd hij (Nat.lt_asymm hji)⟩
  · obtain ⟨job, space, hjumps, -, houtcome⟩ := h.rejected_or_parked hroom hr hid hnumber hfree hij hjk hforeign
    rw [← hr.location]
    exact houtcome.imp Rejects.reported fun hparks => ⟨job, space, hjumps, hparks⟩
  · exact h.reported_placed hroom hr hid hnumber hfree hij (List.getElem?_eq_some_iff.mp h.label).1 hx hno

/-! ### An instruction in a further counter -/

namespace Elsewhere

open Assembly

open Halfword (load find?_load)

def back : Statement := Scaled.statement "S" "LOCTR" .counterStart

def target : Expr := .binary .add (.symbol (.ofString "B")) (.number 1)

def move : Statement := ⟨none, .ofString "ORG", .org (.place (some target) none none), {}⟩

def program : List Command :=
  [.process Scaled.sectionStart, .process Scaled.counterStart, .process load, .process back, .process move]

/-! The states in between. -/

def newCounter : Assembly :=
  { Below.inSection with layout := (Below.inSection.layout.createCounter (.ofString "T")).2 }

def inCounter : Assembly := Scaled.enter newCounter (Scaled.place "T" newCounter.layout.origin .counterStart)

def label : Symbol :=
  { name := .ofString "B", value? := some (.relocatable inCounter.layout.position),
    attributes := .label .machine 'I' 2, location := {} }

def loaded : Assembly := (Scaled.enter inCounter label).mapLayout (·.reserve 2)

def inFirst : Assembly := loaded.mapLayout (·.resumeCounter ⟨0⟩)

theorem process_counterStart : Below.inSection.process Scaled.counterStart = inCounter := by
  show newCounter.createSymbol (Scaled.place "T" newCounter.layout.origin .counterStart) = inCounter
  exact createSymbol_of_idle (by decide +kernel) (by decide +kernel) rfl

theorem process_load : inCounter.process load = loaded := by
  have halign : inCounter.align .halfword load.frame = inCounter := rfl
  have hsection : inCounter.mapLayout Layout.ensureSection = inCounter := rfl
  have hcreate : inCounter.createSymbol label = Scaled.enter inCounter label :=
    createSymbol_of_idle (by decide +kernel) (by decide +kernel) rfl
  have henter : inCounter.enterInstruction load ⟨.ofString "LR", .rr, .machine⟩ = Scaled.enter inCounter label := by
    rw [← hcreate, enterInstruction, hsection]
    rfl
  show inCounter.processMachine load = loaded
  rw [processMachine_eq find?_load, halign, henter]
  rfl

theorem process_back : loaded.process back = inFirst := by
  have hfind : loaded.layout.findCounter? (.ofString "S") = some ⟨0⟩ := by decide +kernel
  show loaded.processCounter back = inFirst
  unfold processCounter
  dsimp only [back, Scaled.statement]
  rw [hfind]
  rfl

theorem stateBefore_load : stateBefore {} program 2 = inCounter := by
  show ((Assembly.new {}).process Scaled.sectionStart).process Scaled.counterStart = inCounter
  rw [Below.process_sectionStart, process_counterStart]

theorem stateBefore_move : stateBefore {} program 4 = inFirst := by
  have hload : stateBefore {} program 3 = loaded := by
    rw [stateBefore_add_one {} (show program[2]? = some (.process load) from rfl), stateBefore_load, process_load]
  rw [stateBefore_add_one {} (show program[3]? = some (.process back) from rfl), hload, process_back]

theorem movesTo : MovesTo program 4 2 move load (.ofString "B") .add (.number 1) where
  unfinished := by simp [program]
  move := rfl
  operation := rfl
  operator := .inl rfl
  plain := rfl
  label := rfl
  places := ⟨rfl, .inr ⟨rfl, by rw [find?_load]; rfl⟩⟩

end Elsewhere

/-- An instruction in the counter `T` is outside of the first counter, which is not moved. -/
theorem reported_of_outside_instruction :
    let last := ((new {}).performAll Elsewhere.program).assembly
    .ofFault .outsideSection {} ∈ last.diagnostics ∧ last.layout.counters = Elsewhere.inFirst.layout.counters := by
  intro last
  have hall := reported_of_outside {} rfl Elsewhere.movesTo
  have hlast : stateBefore {} Elsewhere.program (max 4 2 + 1) = last := by
    rw [stateBefore, List.take_of_length_le (by decide)]
  dsimp only at hall
  rw [Elsewhere.stateBefore_load, Elsewhere.stateBefore_move, hlast] at hall
  have hfurther : Elsewhere.inCounter.layout.Further ⟨1⟩ ⟨0⟩ := ⟨rfl, _, rfl, rfl, rfl⟩
  have hfree : Elsewhere.inCounter.symbols.get? (.ofString "B") = none := by decide +kernel
  obtain ⟨hreport, hcounters, -⟩ := (hall ⟨0⟩ 1 rfl rfl hfree).1 (.inl ⟨⟨1⟩, ⟨0⟩, hfurther, by decide⟩) nofun
  exact ⟨hreport, hcounters (by decide)⟩

end Session

end Assembler
