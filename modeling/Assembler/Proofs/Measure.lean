import Assembler.Proofs.Result
/-!
Places in bytes, as they are in the end.

The lengths that the spaces have in the end give every address a number of bytes (`Address.bytes`), and every
earlier state agrees with them. If nothing is reported, a space that is passed ends with the length that its
rule gives in some state on the way (`Assembly.Completes.length`).
-/

namespace Assembler

/-! ## 1. Bytes -/

namespace Address

theorem bytes_addSpace (τ : SpaceId → Int32) (x : Address) (s : SpaceId) :
    (x.addSpace s 1).bytes τ = x.bytes τ + τ s := by
  simp only [bytes, addSpace, Terms.value_add]
  grind

theorem bytes_sub (τ : SpaceId → Int32) (x y : Address) : (x - y).bytes τ = x.bytes τ - y.bytes τ := by
  have := bytes_addScaled τ x y (-1)
  grind [show x - y = x.addScaled y (-1) from rfl]

theorem bytes_start (τ : SpaceId → Int32) (s : SectionId) : (start s).bytes τ = 0 := rfl

end Address

namespace Length

variable {a : Spaces} {x y : Address}

/-- A length without open spaces is the distance in bytes. -/
theorem bytes_between (h : (between a x y).spaces = []) {τ : SpaceId → Int32} (hτ : a.Fits τ) :
    (between a x y).bytes = x.bytes τ - y.bytes τ := by
  have hbytes := Address.bytes_normalize hτ (x - y)
  rw [Address.bytes_sub] at hbytes
  have hnil : ((x - y).normalize a).spaces = [] := h
  have hoffset : ((x - y).normalize a).bytes τ = ((x - y).normalize a).offset := by
    rw [Address.bytes, hnil]
    exact Int32.add_zero _
  exact hoffset.symm.trans hbytes

/-- A distance that is the same however long the open spaces are is a length without spaces. -/
theorem between_eq (ha : a.Acyclic) {n : Int32} (h : ∀ τ, a.Fits τ → x.bytes τ - y.bytes τ = n) :
    between a x y = ⟨n, []⟩ := by
  have hnil : (between a x y).spaces = [] :=
    Address.spaces_normalize_eq_nil ha fun τ hτ => (Address.bytes_sub τ x y).trans (h τ hτ)
  obtain ⟨τ, hτ, -⟩ := Spaces.exists_fits ha fun _ => 0
  have hbytes := (bytes_between hnil hτ).trans (h τ hτ)
  calc between a x y = ⟨(between a x y).bytes, (between a x y).spaces⟩ := rfl
    _ = ⟨n, []⟩ := by rw [hbytes, hnil]

theorem settled_eq_resolved {l : Length} {n : Int32} (h : l.settled = .resolved n) :
    l.spaces = [] ∧ l.bytes = n := by
  unfold settled at h
  split at h
  · cases h
    exact ⟨List.isEmpty_iff.mp ‹_›, rfl⟩
  · cases h

end Length

/-! ### What rules give -/

namespace Assembly

variable {s : Assembly} {space : SpaceId} {f : Frame} {length : Length}

theorem attemptSpace_storage {e : Expr}
    (h : s.attemptSpace space (.storage e) f = .resolved length) :
    ∃ n, s.evaluateNumber e f = .resolved n ∧ length = ⟨if n < 0 then 0 else n, []⟩ := by
  obtain ⟨n, hn, rfl⟩ := Evaluation.map_eq_resolved.mp h
  exact ⟨n, hn, rfl⟩

theorem attemptSpace_padding {position reference : Address} {alignment : Alignment}
    (h : s.attemptSpace space (.padding position reference alignment) f = .resolved length)
    {τ : SpaceId → Int32} (hτ : s.layout.spaces.Fits τ) :
    length = ⟨alignment.padding (position.bytes τ - reference.bytes τ).toInt, []⟩ := by
  obtain ⟨gap, hgap, rfl⟩ := Evaluation.map_eq_resolved.mp h
  obtain ⟨hnil, rfl⟩ := Length.settled_eq_resolved hgap
  rw [Length.bytes_between hnil hτ]

theorem attemptSpace_counterStart {candidates : List Address} {sectionStart : Address}
    {alignment : Alignment}
    (h : s.attemptSpace space (.counterStart candidates sectionStart alignment) f = .resolved length) :
    ∃ highest last, Address.highest s.layout.spaces candidates = .ok highest ∧
      (Length.between s.layout.spaces highest sectionStart).settled = .resolved last ∧
      length = ⟨(if last < 0 then 0 else last) +
        alignment.padding (if last < 0 then 0 else last).toInt, []⟩ := by
  obtain ⟨highest, hhighest, hrest⟩ := Evaluation.andThen_eq_resolved.mp h
  obtain ⟨last, hlast, rfl⟩ := Evaluation.map_eq_resolved.mp hrest
  exact ⟨highest, last, Evaluation.value?_ofExcept.mp (hhighest ▸ rfl), hlast, rfl⟩

end Assembly

/-! ## 2. The counter in use -/

namespace Layout

variable {l : Layout} {c : Counter}

theorem current_modifyCurrent (l : Layout) (f : Counter → Counter) :
    (l.modifyCurrent f).current = l.current.map f := by
  unfold current modifyCurrent
  cases hc : l.current? with
  | none => simp [hc]
  | some c => simp [counter?]

theorem position_of_current (hc : l.current = some c) : l.position = c.position := by
  rw [position, hc]
  rfl

theorem origin_of_current (hc : l.current = some c) : l.origin = c.origin := by
  rw [origin, hc]
  rfl

/-- After a section has been started there is a counter in use. -/
theorem Formed.exists_current (h : l.Formed) : ∃ c, l.ensureSection.current = some c := by
  obtain ⟨id, hid⟩ := l.exists_current_ensureSection
  have hlt := (l.arranges_ensureSection.formed h).current id hid
  refine ⟨l.ensureSection.counters[id.index], ?_⟩
  rw [Layout.current, hid]
  exact List.getElem?_eq_getElem hlt

theorem ensureSection_of_current (hc : l.current = some c) : l.ensureSection = l := by
  obtain ⟨id, hid, -⟩ := Option.bind_eq_some_iff.mp hc
  unfold ensureSection
  rw [hid]

/-- A section that is started begins at its start. -/
theorem bytes_position_ensureSection (l : Layout) (τ : SpaceId → Int32) :
    l.ensureSection.position.bytes τ = l.position.bytes τ := by
  unfold ensureSection
  split
  · rfl
  · rename_i hnone
    simp [position, current, counter?, createSection, hnone]
    rfl

theorem bytes_position_reserve (h : l.Formed) (n : Int32) (τ : SpaceId → Int32) :
    (l.reserve n).position.bytes τ = l.position.bytes τ + n := by
  obtain ⟨c, hc⟩ := h.exists_current
  have hcurrent : (l.reserve n).current = some (c.advance n) := by
    rw [reserve, current_modifyCurrent, hc]
    rfl
  rw [position_of_current hcurrent, ← bytes_position_ensureSection l, position_of_current hc]
  exact Address.bytes_addOffset τ c.position n

theorem current_passSpace (hc : l.ensureSection.current = some c) (kind : SpaceKind) (g : Alignment) :
    (l.passSpace kind g).2.current = some (c.pass (l.passSpace kind g).1) := by
  obtain ⟨id, hid⟩ := l.exists_current_ensureSection
  rw [passSpace_eq l kind g hid, current_modifyCurrent]
  -- The new space is no part of what the counter in use is.
  exact congrArg (Option.map _) hc

theorem bytes_position_passSpace (h : l.Formed) (kind : SpaceKind) (g : Alignment)
    (τ : SpaceId → Int32) : (l.passSpace kind g).2.position.bytes τ =
      l.position.bytes τ + τ (l.passSpace kind g).1 := by
  obtain ⟨c, hc⟩ := h.exists_current
  rw [position_of_current (current_passSpace hc kind g), ← bytes_position_ensureSection l, position_of_current hc]
  exact Address.bytes_addSpace τ c.position _

/-! ### The alignment of further counters -/

@[simp] theorem counterAlignment_modifyCurrent (l : Layout) (f : Counter → Counter) :
    (l.modifyCurrent f).counterAlignment = l.counterAlignment := by
  unfold modifyCurrent
  split <;> rfl

@[simp] theorem counterAlignment_ensureSection (l : Layout) :
    l.ensureSection.counterAlignment = l.counterAlignment := by
  unfold ensureSection
  split <;> rfl

@[simp] theorem counterAlignment_resumeSection (l : Layout) (s : SectionId) :
    (l.resumeSection s).counterAlignment = l.counterAlignment := by
  unfold resumeSection
  split <;> rfl

@[simp] theorem counterAlignment_resumeCounter (l : Layout) (c : CounterId) :
    (l.resumeCounter c).counterAlignment = l.counterAlignment := by
  unfold resumeCounter
  split <;> rfl

@[simp] theorem counterAlignment_createCounter (l : Layout) (name : Name) :
    (l.createCounter name).2.counterAlignment = l.counterAlignment := by
  obtain ⟨-, heq⟩ | ⟨s, -, heq⟩ := l.createCounter_cases name <;> rw [heq] <;>
    exact l.counterAlignment_ensureSection

@[simp] theorem counterAlignment_reserve (l : Layout) (n : Int32) :
    (l.reserve n).counterAlignment = l.counterAlignment := by simp [reserve]

@[simp] theorem counterAlignment_moveTo (l : Layout) (place : Address) :
    (l.moveTo place).counterAlignment = l.counterAlignment := by simp [moveTo]

@[simp] theorem counterAlignment_passSpace (l : Layout) (kind : SpaceKind) (g : Alignment) :
    (l.passSpace kind g).2.counterAlignment = l.counterAlignment := by
  unfold passSpace
  dsimp only
  split <;> simp

@[simp] theorem counterAlignment_jump (l : Layout) (kind : SpaceKind) :
    (l.jump kind).2.counterAlignment = l.counterAlignment := by simp [jump]

theorem counterAlignment_align (l : Layout) (a : Alignment) :
    (l.align a).2.counterAlignment = l.counterAlignment := by
  rcases l.align_outcome a with heq | ⟨n, heq⟩ | heq <;> simp [heq]

/-! ### Layouts with further lengths -/

/-- Whether `l'` is `l`, except that spaces may have got lengths. -/
structure Fills (l l' : Layout) : Prop where
  sections : l'.sections = l.sections
  counters : l'.counters = l.counters
  current? : l'.current? = l.current?
  counterAlignment : l'.counterAlignment = l.counterAlignment
  spaces : l.spaces.Earlier l'.spaces

theorem Fills.refl (l : Layout) : l.Fills l := ⟨rfl, rfl, rfl, rfl, .refl _⟩

theorem Fills.trans {l' l'' : Layout} (h : l.Fills l') (h' : l'.Fills l'') : l.Fills l'' where
  sections := h'.sections.trans h.sections
  counters := h'.counters.trans h.counters
  current? := h'.current?.trans h.current?
  counterAlignment := h'.counterAlignment.trans h.counterAlignment
  spaces := h.spaces.trans h'.spaces

theorem Fills.current {l' : Layout} (h : l.Fills l') : l'.current = l.current := by
  unfold Layout.current Layout.counter?
  rw [h.current?, h.counters]

theorem Fills.position {l' : Layout} (h : l.Fills l') : l'.position = l.position := by
  simp only [Layout.position, h.current]

end Layout

namespace Assembly

variable {s t : Assembly}

theorem fills_cascade {hand hand' : List (Option Nat × Job)} {phase phase' : Phase}
    (h : Run Cascade ⟨s, hand, phase⟩ ⟨t, hand', phase'⟩) : s.layout.Fills t.layout :=
  have hsteady := h.steady
  ⟨hsteady.layout.1, hsteady.counters, hsteady.layout.2.1, hsteady.layout.2.2,
    (h.imp fun _ _ => Step.cascade).grows.earlier.spaces⟩

theorem fills_resolveAll (s : Assembly) (jobs : List Job) :
    s.layout.Fills (s.resolveAll jobs).layout := fills_cascade (@run_resolveAll .reading s jobs)

theorem fills_resolveOrDefer (s : Assembly) (layout : Layout) (task : Task) (frame : Frame) :
    layout.Fills ({ s with layout }.resolveOrDefer task frame).layout :=
  fills_resolveAll { s with layout } [⟨task, frame⟩]

/-- What leaves the place of the counter alone starts a section at most. -/
theorem Still.fills {st : Statement} (h : Still st s t) :
    s.layout.Fills t.layout ∨ t.layout = s.layout.ensureSection := by
  cases h with
  | report => exact .inl ((alike_report s _ _).layout ▸ .refl _)
  | ensure => exact .inr rfl
  | @enter u sym jobs hu =>
    obtain ⟨symbols, -, rfl⟩ := Option.map_eq_some_iff.mp hu
    have hwake := (alike_foldl_wake { s with symbols } (provided sym)).layout
    have hdrain := fills_cascade
      (@run_drain [] .reading ((provided sym).foldl wake { s with symbols }) forall_mem_nil)
    rw [hwake] at hdrain
    exact .inl (hdrain.trans (fills_resolveAll _ jobs))
  | @check rule f => exact .inl (fills_resolveAll s [⟨.check rule, f⟩])

/-- Alignment of the counter in use shows in the layout only, apart from the job of the padding. -/
theorem fills_align (s : Assembly) (alignment : Alignment) (f : Frame) :
    (s.layout.align alignment).2.Fills (s.align alignment f).layout := by
  unfold Assembly.align
  split
  · rename_i layout heq
    rw [heq]
    exact .refl layout
  · rename_i p layout heq
    rw [heq]
    exact fills_resolveOrDefer s layout _ _

/-- Storage is a number of bytes or a space. -/
theorem fills_reserveStorage (s : Assembly) (op : DataOperand) (label? : Option Name)
    (duplication length : Amount) (f : Frame) :
    (∃ n, (s.layout.reserve n).Fills (s.reserveStorage op label? duplication length f).layout) ∨
      ∃ g, (s.layout.passSpace .storage g).2.Fills (s.reserveStorage op label? duplication length f).layout := by
  unfold reserveStorage
  split
  · exact .inl ⟨_, .refl _⟩
  · exact .inr ⟨_, fills_resolveOrDefer s _ _ _⟩

/-- No statement changes where further counters may start. -/
theorem Act.counterAlignment {st : Statement} (h : Act st s t) :
    t.layout.counterAlignment = s.layout.counterAlignment := by
  cases h with
  | still h =>
    rcases h.fills with hfill | heq
    · exact hfill.counterAlignment
    · rw [heq, Layout.counterAlignment_ensureSection]
  | createSection => rfl
  | resumeSection sect => exact s.layout.counterAlignment_resumeSection sect
  | resumeCounter c => exact s.layout.counterAlignment_resumeCounter c
  | createCounter name => exact s.layout.counterAlignment_createCounter name
  | align type => exact (s.fills_align _ _).counterAlignment.trans (s.layout.counterAlignment_align _)
  | reserve i => exact s.layout.counterAlignment_reserve _
  | store =>
    obtain ⟨n, hfill⟩ | ⟨g, hfill⟩ := s.fills_reserveStorage _ _ _ _ _
    · exact hfill.counterAlignment.trans (s.layout.counterAlignment_reserve n)
    · exact hfill.counterAlignment.trans (s.layout.counterAlignment_passSpace .storage g)
  | moveTo => exact s.layout.counterAlignment_moveTo _
  | jump => exact (fills_resolveOrDefer s _ _ _).counterAlignment.trans (s.layout.counterAlignment_jump _)

theorem Acts.counterAlignment {st : Statement} (h : Acts st s t) :
    t.layout.counterAlignment = s.layout.counterAlignment := by
  induction h with
  | refl => rfl
  | tail _ hact ih => exact hact.counterAlignment.trans ih

theorem Does.fills {job : Job} (h : s.Does job t) : s.layout.Fills t.layout := by
  obtain ⟨u, d, hst, -, -, rfl⟩ := h.exists_establish
  have hsteady := u.steady_establish d
  rw [← hst.layout]
  exact ⟨hsteady.layout.1, hsteady.counters, hsteady.layout.2.1, hsteady.layout.2.2,
    (grows_establish u d).earlier.spaces⟩

/-- Completing an assembly only fills in. -/
theorem fills_completion {m m' : Moment} (h : Completion m m') : m.state.layout.Fills m'.state.layout := by
  rcases h with h | h
  · exact fills_cascade (.single h)
  · cases h with
    | place | close | choose | clear => exact .refl _
    | explain => exact (alike_explain _ _ _).layout ▸ .refl _
    | conclude explained _ _ _ hexplained => exact (conclude_outcome hexplained _).fills

theorem fills_finish (hs : s.Ready) : s.layout.Fills s.finish.layout :=
  (run_finish hs).1.keeps (P := fun m => s.layout.Fills m.state.layout)
    (fun _ _ hstep hm => hm.trans (fills_completion hstep)) (.refl _)

end Assembly

/-! ## 3. The rest of a source -/

namespace Assembly

variable {s t f : Assembly}

/-- Whether the rest of a source gets from `s` to its end `f`, and nothing is reported. -/
structure Completes (s f : Assembly) : Prop where
  ready : s.Ready
  unfinished : s.finished = false
  run : Run Step ⟨s, [], .reading⟩ ⟨f, [], .reading⟩
  clean : f.diagnostics = []
  done : ∀ job, ¬ Moment.Carries ⟨f, [], .reading⟩ job

theorem Completes.of_leads (h : t.Completes f) (hs : s.Ready) (hst : s.Leads t) : s.Completes f :=
  ⟨hs, hst.finished.symm.trans h.unfinished, hst.steps.trans h.run, h.clean, h.done⟩

theorem completes_finish (hs : s.Ready) (hf : s.finished = false) (hclean : s.finish.diagnostics = []) :
    s.Completes s.finish :=
  ⟨hs, hf, (follows_finish hs).run, hclean, fun _ => not_carries_finish hs hf⟩

theorem Completes.earlier (h : s.Completes f) : s.Earlier f := h.run.grows.earlier

theorem Completes.acyclic (h : s.Completes f) : f.layout.spaces.Acyclic :=
  (h.ready.valid.run h.run).wellFormed.acyclic

/-- What has been reported would still be there. -/
theorem Completes.diagnostics (h : s.Completes f) : s.diagnostics = [] := by
  obtain ⟨more, hmore⟩ := h.run.grows.diagnostics
  rw [h.clean] at hmore
  exact (List.append_eq_nil_iff.mp hmore).1

theorem Completes.not_report {fault : Fault} {location : Location} :
    ¬ (s.report fault location).Completes f := fun h =>
  s.diagnostics_addDiagnostic_ne_nil _ h.diagnostics

/-- A job for a space gives the space its length. -/
theorem Completes.length {layout : Layout} {space : SpaceId} {rule : SpaceRule} {frame : Frame}
    (hs : s.Ready) (ha : s.layout.Arranges layout (some ⟨.space space rule, frame⟩))
    (h : ({ s with layout }.resolveOrDefer (.space space rule) frame).Completes f) :
    ∃ (u : Assembly) (length : Length), u.WellFormed ∧ layout.spaces.Earlier u.layout.spaces ∧
      u.Earlier f ∧ u.attemptSpace space rule frame = .resolved length ∧
        (length.spaces = [] → f.layout.spaces.length? space = some length) := by
  have harrange : Progress ⟨s, [], .reading⟩
      ⟨{ s with layout }, [(none, ⟨.space space rule, frame⟩)], .reading⟩ := .arrange ha
  have hopen : s.finished = false :=
    (leads_arrange ha).finished.symm.trans h.unfinished
  have hrun := ((run_resolveAll { s with layout } [⟨.space space rule, frame⟩]).imp
    fun _ _ => Step.cascade).trans h.run
  obtain ⟨u, length, hwf, hsu, huf, hlength, hfinal⟩ :=
    (hs.valid.step (.progress harrange)).exists_length (hs.logged hopen) hrun
      (.inl ⟨_, List.mem_cons_self, rfl⟩) (h.done _) h.clean
  exact ⟨u, length, hwf, hsu.spaces, huf, hlength, hfinal⟩

end Assembly

end Assembler
