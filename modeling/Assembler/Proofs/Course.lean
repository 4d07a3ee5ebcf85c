import Assembler.Proofs.Outside
/-!
The changes of the layout that statements make.

A step may change the layout in any way that keeps it in order. Statements do no more than a few things to it
(`Layout.Changes`): they start sections and counters and go back to them, reserve, align and pass storage, and move the
counter in use to places of its own. A session is made of such steps (`Session.courses_stateAfter`), so what these keep
holds at all its moments.
-/

namespace Assembler

open Assembly

/-! ## 1. Places in terms of the spaces of one counter -/

namespace Address

variable {a b : Spaces} {id : CounterId} {x y : Address} {k : SpaceId}

/-- Whether all spaces of an address belong to a counter. -/
def OwnedBy (a : Spaces) (id : CounterId) (x : Address) : Prop :=
  ∀ k ∈ x.spaces.map Prod.fst, a.counter? k = some id

theorem ownedBy_of_spaces_nil (h : x.spaces = []) : x.OwnedBy a id := by
  intro k hk
  rw [h] at hk
  cases hk

theorem OwnedBy.later (h : x.OwnedBy a id) (hab : a.Earlier b) : x.OwnedBy b id :=
  fun k hk => hab.counter? (h k hk)

theorem OwnedBy.addOffset (h : x.OwnedBy a id) (n : Int32) : (x.addOffset n).OwnedBy a id := h

theorem OwnedBy.addSpace (h : x.OwnedBy a id) (hk : a.counter? k = some id) (n : Int32) :
    (x.addSpace k n).OwnedBy a id := by
  intro t ht
  rcases Terms.mem_keys_insert ht with rfl | ht
  · exact hk
  · exact h t ht

theorem OwnedBy.addScaled (hx : x.OwnedBy a id) (hy : y.OwnedBy a id) (sign : Int32) :
    (x.addScaled y sign).OwnedBy a id := by
  intro k hk
  rcases Terms.mem_keys_addScaled hk with hk | hk
  · exact hx k hk
  · exact hy k hk

/-- A place that a move would be accepted to is in terms of spaces of the counter when it has been rounded up. -/
theorem OwnedBy.of_roundUp {boundary : Nat} (hx : x.LiesIn a) (ha : a.Closed) (h : x.within a id)
    (hround : x.roundUp a boundary = .ok y) : y.OwnedBy a id := by
  intro k hk
  rw [(spaces_of_roundUp hround).2] at hk
  exact counter?_of_within hx ha h k hk

end Address

/-! ## 2. Changes -/

namespace Layout

/-- What statements do to the layout, with the job that they leave. -/
inductive Changes (l : Layout) : Layout → Option Job → Prop
  | ensureSection : l.Changes l.ensureSection none
  | createSection (name? : Option Name) (kind : SectionKind) : l.Changes (l.createSection name? kind).2 none
  | resumeSection (s : SectionId) : l.Changes (l.resumeSection s) none
  | resumeCounter (c : CounterId) : l.Changes (l.resumeCounter c) none
  | createCounter (name : Name) : l.Changes (l.createCounter name).2 none
  | reserve (n : Int32) : l.Changes (l.reserve n) none
  | align (type : DataType) {l' : Layout} : l.align type.alignment = (none, l') → l.Changes l' none
  | pad (type : DataType) {p : Padding} {l' : Layout} {f : Frame} : f.Scoped l.spaces →
    l.align type.alignment = (some p, l') →
    l.Changes l' (some ⟨.space p.space (.padding p.position p.reference p.alignment), f⟩)
  | store (e : Expr) (guarantee : Alignment) {f : Frame} : f.Scoped l.spaces →
    l.Changes (l.passSpace .storage guarantee).2
      (some ⟨.space (l.passSpace .storage guarantee).1 (.storage e), f⟩)
  /-- A counter is moved to a place of its own. -/
  | moveTo {id : CounterId} {place : Address} : l.current? = some id → place.LiesIn l.spaces →
    place ∈ l.candidates ∨ place.OwnedBy l.spaces id → l.Changes (l.moveTo place) none
  | jump (target : Expr) (boundary : Nat) (offset : Int32) {f : Frame} : f.Scoped l.spaces →
    l.Changes (l.jump .jump).2 (some ⟨.space (l.jump .jump).1 (.jump target l.position boundary offset), f⟩)
  | jumpToHighest {id : CounterId} {f : Frame} : l.current? = some id → f.Scoped l.spaces →
    l.Changes (l.jump .jumpToHighest).2
      (some ⟨.space (l.jump .jumpToHighest).1 (.jumpToHighest l.candidates l.position), f⟩)

/-- These are changes as a step may make them. -/
theorem Changes.arranges {l l' : Layout} {job? : Option Job} (h : l.Changes l' job?) (hl : l.Formed) :
    l.Arranges l' job? := by
  cases h with
  | ensureSection => exact l.arranges_ensureSection
  | createSection name? kind => exact l.arranges_createSection name? kind
  | resumeSection s => exact l.arranges_resumeSection s
  | resumeCounter c => exact l.arranges_resumeCounter c
  | createCounter name => exact l.arranges_createCounter name
  | reserve n => exact l.arranges_reserve n
  | align type h => exact arranges_align_none h
  | pad type hf h => exact arranges_align_some h hf
  | store e guarantee hf => exact @arranges_passSpace l guarantee (.storage e) trivial _ hf
  | moveTo _ hplace _ => exact l.arranges_moveTo hplace
  | jump target boundary offset hf =>
    exact @arranges_jump l (.jump target l.position boundary offset) hl.liesIn_position _ hf
  | jumpToHighest hid hf =>
    exact @arranges_jump l (.jumpToHighest l.candidates l.position)
      ⟨hl.position_mem_candidates hid, hl.liesIn_candidates⟩ _ hf

end Layout

/-! ## 3. Courses -/

/-- The steps of a session. -/
inductive Course : Moment → Moment → Prop
  | complete {m m' : Moment} : Completion m m' → Course m m'
  | change {s : Assembly} {hand : List (Option Nat × Job)} {layout : Layout} {job? : Option Job} :
    s.layout.Changes layout job? →
    Course ⟨s, hand, .reading⟩ ⟨{ s with layout }, hand ++ job?.toList.map (none, ·), .reading⟩
  | still {m m' : Moment} : Progress m m' → m'.state.layout = m.state.layout → Course m m'
  | take {s : Assembly} : Course ⟨s, [], .reading⟩ ⟨{ s with diagnostics := [] }, [], .reading⟩

namespace Moment

variable {m m' : Moment}

theorem Valid.turn_of_course (hv : m.Valid) (h : Course m m') : Turn m m' := by
  cases h with
  | complete h => exact .step h.step
  | change h => exact .step (.progress (.arrange (h.arranges hv.formed)))
  | still h _ => exact .step (.progress h)
  | take => exact .take

theorem Valid.turns_of_courses (hv : m.Valid) (h : Run Course m m') : Run Turn m m' := by
  induction h with
  | refl => exact .refl _
  | tail _ hcourse ih => exact .tail ih ((hv.turns ih).turn_of_course hcourse)

end Moment

namespace Assembly

variable {s t u : Assembly} {st : Statement}

/-- Whether a session gets from one state to the other. -/
def Proceeds (s t : Assembly) : Prop := Run Course ⟨s, [], .reading⟩ ⟨t, [], .reading⟩

theorem Proceeds.trans (h : s.Proceeds t) (h' : t.Proceeds u) : s.Proceeds u := Run.trans h h'

theorem courses_of_cascade {m m' : Moment} (h : Run Cascade m m') : Run Course m m' :=
  h.imp fun _ _ hstep => .complete (.inl hstep)

theorem proceeds_changes {layout : Layout} {job? : Option Job} (h : s.layout.Changes layout job?) :
    s.Proceeds ({ s with layout }.resolveAll job?.toList) :=
  (Run.single (.change h)).trans (courses_of_cascade (run_resolveAll _ _))

theorem proceeds_layout {layout : Layout} (h : s.layout.Changes layout none) : s.Proceeds { s with layout } :=
  proceeds_changes h

theorem proceeds_report (s : Assembly) {f : Fault} (hf : f ≠ .cyclic) (location : Location) :
    s.Proceeds (s.report f location) :=
  .single (.still (.report _ fun h => hf (Fault.code_eq_cyclic.mp h)) (alike_report s f location).layout)

theorem proceeds_check (s : Assembly) (rule : CheckRule) {f : Frame} (hf : f.Scoped s.layout.spaces) :
    s.Proceeds (s.resolveOrDefer (.check rule) f) :=
  (Run.single (.still (@Progress.check s [] ⟨.check rule, f⟩ rfl ⟨hf, trivial⟩) rfl)).trans
    (courses_of_cascade (run_resolveAll s [⟨.check rule, f⟩]))

theorem Still.proceeds (h : Still st s t) : s.Proceeds t := by
  cases h with
  | report hf => exact proceeds_report _ hf.ne_cyclic _
  | ensure => exact proceeds_layout .ensureSection
  | enter ht hsupplies _ =>
    obtain ⟨symbols, -, henter, hrun⟩ := exists_enter ht hsupplies.value hsupplies.inScope hsupplies.products
      fun key hkey => (hsupplies.owed key hkey).imp_right And.left
    exact (Run.single (.still henter (alike_foldl_wake _ _).layout)).trans (courses_of_cascade hrun)
  | check _ hf _ => exact proceeds_check _ _ hf

theorem Stills.proceeds (h : Stills st s t) : s.Proceeds t := by
  induction h with
  | refl => exact .refl _
  | tail _ hstill ih => exact ih.trans hstill.proceeds

/-- What statements other than ORG do. -/
theorem Act.proceeds (h : Act st s t) (hst : ¬ st.IsOrg) : s.Proceeds t := by
  cases h with
  | still h => exact h.proceeds
  | @createSection name? kind _ => exact proceeds_layout (.createSection name? kind)
  | resumeSection sect => exact proceeds_layout (.resumeSection sect)
  | resumeCounter c => exact proceeds_layout (.resumeCounter c)
  | createCounter name _ => exact proceeds_layout (.createCounter name)
  | align type hf _ =>
    unfold Assembly.align
    split
    · exact proceeds_layout (.align type ‹_›)
    · exact proceeds_changes (.pad type hf ‹_›)
  | reserve i => exact proceeds_layout (.reserve _)
  | store label? _ _ hf _ =>
    unfold reserveStorage
    split
    · exact proceeds_layout (.reserve _)
    · exact proceeds_changes (.store _ _ hf)
  | moveTo horg => exact absurd horg hst
  | jump horg => exact absurd horg hst

theorem Acts.proceeds (h : Acts st s t) (hst : ¬ st.IsOrg) : s.Proceeds t := by
  induction h with
  | refl => exact .refl _
  | tail _ hact ih => exact ih.trans (hact.proceeds hst)

/-! ### Moves -/

theorem proceeds_moveToHighest {id : CounterId} (hs : s.Ready) (hid : s.layout.current? = some id) {f : Frame}
    (hf : f.Scoped s.layout.spaces) : s.Proceeds (s.moveToHighest f) := by
  unfold moveToHighest
  dsimp only
  split
  · have hmem := Address.mem_of_highest ‹_›
    exact proceeds_layout (.moveTo hid (hs.valid.formed.liesIn_candidates _ hmem) (.inl hmem))
  · exact proceeds_changes (.jumpToHighest hid hf)

theorem proceeds_moveToPlace {id : CounterId} (hid : s.layout.current? = some id) {place : Address}
    (hplace : place.LiesIn s.layout.spaces) (howned : place.OwnedBy s.layout.spaces id) (target : Expr)
    (boundary : Nat) (offset : Int32) {f : Frame} (hf : f.Scoped s.layout.spaces) :
    s.Proceeds (s.moveToPlace place target boundary offset f) := by
  unfold moveToPlace
  dsimp only
  split
  · split
    · exact proceeds_report s (by simp) _
    · exact proceeds_layout (.moveTo hid hplace (.inr howned))
  · -- The check leaves the counter in use alone.
    have hearlier := (leads_checkNotBelow s s.layout.origin target boundary offset hf).earlier
    have hfill := fills_resolveAll s [⟨.check (.notBelow s.layout.origin target boundary offset), f⟩]
    exact (proceeds_check s _ hf).trans (proceeds_layout
      (.moveTo (hfill.current?.trans hid) (hplace.later hearlier) (.inr (howned.later hearlier))))

theorem proceeds_jumpToTarget (hs : s.Ready) (target : Expr) (boundary : Nat) (offset : Int32) {f : Frame}
    (hf : f.Scoped s.layout.spaces) : s.Proceeds (s.jumpToTarget target boundary offset f) := by
  have hjump := proceeds_changes (.jump target boundary offset hf)
  have hearlier := (Turns.earlier (hs.valid.turns_of_courses hjump)).spaces
  exact hjump.trans (proceeds_check _ _ (hf.later hearlier))

theorem proceeds_moveToTarget {id : CounterId} (hs : s.Ready) (hid : s.layout.current? = some id) (target : Expr)
    (boundary : Nat) (offset : Int32) {f : Frame} (hf : f.Scoped s.layout.spaces) :
    s.Proceeds (s.moveToTarget target boundary offset f) := by
  have hwf := hs.valid.wellFormed
  unfold moveToTarget
  split
  · exact proceeds_report s (by simp) _
  · rename_i v fault he
    exact proceeds_report s (Fault.ne_cyclic ((s.plain_evaluate target f).computed he)) _
  · exact proceeds_jumpToTarget hs target boundary offset hf
  · rename_i a he
    have ha : a.LiesIn s.layout.spaces :=
      liesIn_evaluate hwf.inScope hf (e := target) (v := .relocatable a) (by rw [he]; rfl)
    dsimp only
    split
    · rename_i hsame
      have hwithin : a.within s.layout.spaces id := by
        have hall := hsame.2
        rw [hid] at hall
        exact hall
      split
      · rename_i place hround
        have howned := Address.OwnedBy.of_roundUp ha hwf.inScope.closed hwithin hround
        have hplace := ha.roundUp hwf.inScope.closed hround
        have hmoved : (place.addOffset offset).LiesIn s.layout.spaces := hplace
        exact proceeds_moveToPlace hid hmoved (howned.addOffset offset) target boundary offset hf
      · exact proceeds_jumpToTarget hs target boundary offset hf
    · exact proceeds_report s (by simp) _

theorem proceeds_moveToOperands {id : CounterId} (hs : s.Ready) (hid : s.layout.current? = some id) (st : Statement)
    (target? boundary? offset? : Option Expr) : s.Proceeds (s.moveToOperands st target? boundary? offset?) := by
  obtain ⟨hframe, hscope⟩ := stills_frameFor hs st [target?, boundary?, offset?]
  -- A section has been started by then.
  have hsame := frameFor_of_current? hid st [target?, boundary?, offset?]
  unfold moveToOperands
  generalize s.frameFor st [target?, boundary?, offset?] = r at hsame hscope
  obtain ⟨frame, s₁⟩ := r
  dsimp only at hsame hscope ⊢
  subst hsame
  split
  · exact proceeds_report _ (by simp) _
  · split
    · exact proceeds_report _ (by simp) _
    · split
      · exact proceeds_report _ (by simp) _
      · exact proceeds_moveToTarget hs hid _ _ _ hscope

theorem proceeds_processOrg (hs : s.Ready) (st : Statement) (operands : OrgOperands) :
    s.Proceeds (s.processOrg st operands) := by
  obtain ⟨id, hid⟩ := s.layout.exists_current_ensureSection
  have henter := stills_enterOrg hs st
  have hready := henter.leads.ready hs
  have hcurrent : (s.enterOrg st).layout.current? = some id := (steady_enterOrg s st).layout.2.1.trans hid
  refine henter.proceeds.trans ?_
  cases operands with
  | highest =>
    rw [processOrg_highest]
    exact proceeds_moveToHighest hready hcurrent (scoped_frame st _)
  | place target? boundary? offset? =>
    rw [processOrg_place]
    exact proceeds_moveToOperands hready hcurrent st target? boundary? offset?

/-! ### Statements and the end of the source -/

theorem proceeds_process (hs : s.Ready) (st : Statement) : s.Proceeds (s.process st) := by
  by_cases horg : st.IsOrg
  · obtain ⟨operands, hop⟩ := horg
    rw [process, hop]
    exact proceeds_processOrg hs st operands
  · exact (acts_process hs st).proceeds horg

theorem proceeds_defineMacro (s : Assembly) (n : Name) (origin : MacroOrigin) :
    s.Proceeds (s.defineMacro n origin) :=
  (Run.single (.still (.defineMacro n origin) rfl)).trans (courses_of_cascade (run_drain _ forall_mem_nil))

theorem proceeds_finish (hs : s.Ready) : s.Proceeds s.finish := (run_finish hs).1.imp fun _ _ => .complete

end Assembly

/-! ## 4. Sessions -/

namespace Session

variable {s : Session} {settings : Settings}

theorem proceeds_operate (hs : s.assembly.Ready) (o : Operation) : s.assembly.Proceeds (s.operate o).assembly := by
  cases o with
  | takeDiagnostics => exact .single .take
  | command c =>
    cases c with
    | process st => exact proceeds_process hs st
    | defineMacro name origin => exact proceeds_defineMacro _ _ origin
    | defineVariable name value => exact .single (.still (.defineVariable _ value) rfl)
    | requestAttribute kind name => exact .refl _
    | requestVariableAttribute kind name => exact .refl _
    | finish => exact proceeds_finish hs

theorem proceeds_operateAll (hs : s.assembly.Ready) (operations : List Operation) :
    s.assembly.Proceeds (s.operateAll operations).assembly := by
  induction operations generalizing s with
  | nil => exact .refl _
  | cons o rest ih => exact (proceeds_operate hs o).trans (ih (turns_operate hs o).2.1)

/-- The states of a session are reached by its steps. -/
theorem courses_stateAfter (settings : Settings) (operations : List Operation) :
    Run Course (.start settings) ⟨stateAfter settings operations, [], .reading⟩ :=
  proceeds_operateAll (s := new settings) (ready_new settings) operations

end Session

end Assembler
