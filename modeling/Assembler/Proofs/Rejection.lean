import Assembler.Proofs.Check
import Assembler.Proofs.Inventory
import Assembler.Proofs.Unmoved
/-!
Rejected statements.

A move of a location counter is rejected for one of its operands, or because it leads out of the counter, and the start
of a section or a counter because its name is taken or missing (`Assembly.Rejects`). Rejection comes before anything is
done to a counter: besides the report there is at most the label of the ORG, whose cascade adds no symbol and leaves
sections and counters alone (`Session.unmoved_of_rejects`). What is not rejected is carried out.
-/

namespace Assembler

namespace Assembly

variable {s t u : Assembly} {st : Statement} {n : Name}

/-! ## 1. Names in a cascade -/

/-- Whether the same names are taken. -/
def SameNames (s t : Assembly) : Prop := ∀ n, t.symbols.contains n = s.symbols.contains n

theorem SameNames.of_eq (h : t.symbols = s.symbols) : s.SameNames t := fun n => by rw [h]

theorem SameNames.refl (s : Assembly) : s.SameNames s := .of_eq rfl

theorem SameNames.trans (h : s.SameNames t) (h' : t.SameNames u) : s.SameNames u :=
  fun n => (h' n).trans (h n)

/-- Definitions fill in symbols that there are. -/
theorem sameNames_define? {d : Definition} (h : s.define? d = some t) : s.SameNames t := by
  rcases define?_eq_some h with ⟨n, sym, sym', symbols, hsym, -, hget, rfl⟩ | ⟨_, _, _, -, -, rfl⟩
  · intro m
    unfold SymbolTable.contains
    rw [hget]
    by_cases hm : m = n
    · rw [if_pos hm, hm, hsym]
      rfl
    · rw [if_neg hm]
  · exact .of_eq rfl

theorem sameNames_report (s : Assembly) (f : Fault) (location : Location) :
    s.SameNames (s.report f location) := .of_eq (alike_report s f location).symbols

theorem sameNames_establish (s : Assembly) (d : Definition) : s.SameNames (s.establish d) := by
  unfold establish
  split
  · exact .refl s
  · rename_i t ht
    split
    · exact (sameNames_define? ht).trans (.of_eq rfl)
    · exact sameNames_define? ht

theorem sameNames_settle (s : Assembly) (id? : Option Nat) (job : Job) :
    s.SameNames (s.settle id? job) := by
  unfold settle
  split
  · exact s.sameNames_establish _
  · exact (s.sameNames_report _ _).trans (sameNames_establish _ _)
  · split
    · exact (s.sameNames_report _ _).trans (sameNames_establish _ _)
    · unfold postpone
      split <;> exact .of_eq rfl

theorem sameNames_drain (s : Assembly) : s.SameNames s.drain := by
  have hrun := @run_drain [] .reading s forall_mem_nil
  refine hrun.keeps (P := fun m => s.SameNames m.state) (fun m m' hstep hm => hm.trans ?_) (.refl s)
  cases hstep with
  | settle => exact sameNames_settle _ _ _
  | pick | skip | stall | resume => exact .of_eq rfl

/-! ## 2. The label of a move -/

/-- Creating a symbol takes its name, if it is not taken, and no other. -/
theorem contains_createSymbol (s : Assembly) (sym : Symbol) (n : Name) :
    (s.createSymbol sym).symbols.contains n ↔ s.symbols.contains n ∨ n = sym.name := by
  unfold createSymbol createSymbol?
  cases hcreate : s.symbols.create? sym with
  | none =>
    have htaken : s.symbols.contains sym.name := by
      unfold SymbolTable.create? at hcreate
      split at hcreate
      · assumption
      · cases hcreate
    have hsame := s.sameNames_report (.redefinition "symbol") sym.location n
    constructor
    · exact fun h => .inl (hsame ▸ h)
    · rintro (h | rfl)
      · exact hsame ▸ h
      · exact hsame ▸ htaken
  | some symbols =>
    obtain ⟨-, hget⟩ := SymbolTable.create?_eq_some hcreate
    -- Neither waking nor the cascade adds a name.
    have hwoken := (alike_foldl_wake { s with symbols } (provided sym)).symbols
    have hdrained := sameNames_drain ((provided sym).foldl wake { s with symbols }) n
    rw [hwoken] at hdrained
    show (((provided sym).foldl wake { s with symbols }).drain).symbols.contains n ↔ _
    rw [hdrained, SymbolTable.contains, hget]
    by_cases hn : n = sym.name
    · simp [hn]
    · simp [hn, SymbolTable.contains]

theorem contains_enterOrg (s : Assembly) (st : Statement) (n : Name) :
    (s.enterOrg st).symbols.contains n ↔ s.symbols.contains n ∨ st.label? = some n := by
  unfold enterOrg
  dsimp only
  cases st.label? with
  | none => exact ⟨.inl, fun h => h.resolve_right nofun⟩
  | some label =>
    rw [contains_createSymbol, Option.some.injEq, @eq_comm _ label n]
    rfl

/-- A section has been started by then, so the operands start none. -/
theorem frameFor_enterOrg (s : Assembly) (st : Statement) (operands : List (Option Expr)) :
    ((s.enterOrg st).frameFor st operands).2 = s.enterOrg st := by
  obtain ⟨id, hid⟩ := s.layout.exists_current_ensureSection
  exact frameFor_of_current? ((s.steady_enterOrg st).layout.2.1.trans hid) st operands

/-! ## 3. What is rejected -/

/-- Whether a move to a target with a boundary and an offset is rejected, and with which fault. -/
inductive RejectsMove (s : Assembly) (f : Frame) :
    Option Expr → Option Expr → Option Expr → Fault → Prop
  | target {boundary? offset? : Option Expr} : RejectsMove s f none boundary? offset? .orgNotRelocatable
  | boundary {e : Expr} {boundary? offset? : Option Expr} : s.orgBoundary? boundary? f = none →
    RejectsMove s f (some e) boundary? offset? .orgBoundary
  | offset {e : Expr} {boundary? offset? : Option Expr} {boundary : Nat} :
    s.orgBoundary? boundary? f = some boundary → s.orgOffset? offset? f = none →
    RejectsMove s f (some e) boundary? offset? .orgOperandFormat
  /-- The target is a number. -/
  | absolute {e : Expr} {boundary? offset? : Option Expr} {boundary : Nat} {offset n : Int32} :
    s.orgBoundary? boundary? f = some boundary → s.orgOffset? offset? f = some offset →
    s.evaluate e f = .resolved (.absolute n) →
    RejectsMove s f (some e) boundary? offset? .orgNotRelocatable
  /-- The target cannot be evaluated. -/
  | fallback {e : Expr} {boundary? offset? : Option Expr} {boundary : Nat} {offset : Int32} {v : Value}
    {fault : Fault} : s.orgBoundary? boundary? f = some boundary → s.orgOffset? offset? f = some offset →
    s.evaluate e f = .fallback v fault → RejectsMove s f (some e) boundary? offset? fault
  /-- The target lies in another section or behind a space of another counter. -/
  | outside {e : Expr} {boundary? offset? : Option Expr} {boundary : Nat} {offset : Int32} {a : Address} :
    s.orgBoundary? boundary? f = some boundary → s.orgOffset? offset? f = some offset →
    s.evaluate e f = .resolved (.relocatable a) →
    ¬ (a.bases = s.layout.position.bases ∧ s.layout.current?.all (a.within s.layout.spaces ·)) →
    RejectsMove s f (some e) boundary? offset? .outsideSection
  /-- The place is known to be below the origin of the counter. -/
  | below {e : Expr} {boundary? offset? : Option Expr} {boundary : Nat} {offset : Int32} {a place : Address} :
    s.orgBoundary? boundary? f = some boundary → s.orgOffset? offset? f = some offset →
    s.evaluate e f = .resolved (.relocatable a) →
    a.bases = s.layout.position.bases ∧ s.layout.current?.all (a.within s.layout.spaces ·) →
    a.roundUp s.layout.spaces boundary = .ok place →
    ((place.addOffset offset - s.layout.origin).normalize s.layout.spaces).spaces = [] →
    ((place.addOffset offset - s.layout.origin).normalize s.layout.spaces).offset < 0 →
    RejectsMove s f (some e) boundary? offset? .outsideSection

/-- Whether a statement is rejected, and with which fault. -/
inductive Rejects (s : Assembly) (st : Statement) : Fault → Prop
  | move {target? boundary? offset? : Option Expr} {fault : Fault} :
    st.operation = .org (.place target? boundary? offset?) →
    (s.enterOrg st).RejectsMove ((s.enterOrg st).frameFor st [target?, boundary?, offset?]).1
      target? boundary? offset? fault → Rejects s st fault
  /-- There is a section of that name, which has another kind. -/
  | otherKind {kind : SectionKind} {name : Name} {id : SectionId} : st.operation = .sectionStart kind →
    st.label? = some name → s.layout.findSection? name = some id →
    (s.layout.section? id).map (·.kind) ≠ some kind → Rejects s st (.redefinition "section")
  | takenSection {kind : SectionKind} {name : Name} : st.operation = .sectionStart kind →
    st.label? = some name → s.layout.findSection? name = none → s.symbols.contains name →
    Rejects s st (.redefinition "section")
  | unnamedCounter : st.operation = .counterStart → st.label? = none → Rejects s st .unevaluable
  | takenCounter {name : Name} : st.operation = .counterStart → st.label? = some name →
    s.layout.findCounter? name = none → s.symbols.contains name →
    Rejects s st (.redefinition "location counter")

/-- Rejection of a move is the report of it. -/
theorem RejectsMove.moveToOperands {target? boundary? offset? : Option Expr} {fault : Fault}
    (hsame : (u.frameFor st [target?, boundary?, offset?]).2 = u)
    (h : u.RejectsMove (u.frameFor st [target?, boundary?, offset?]).1 target? boundary? offset? fault) :
    u.moveToOperands st target? boundary? offset? = u.report fault st.location := by
  have hlocation := u.location_frameFor st [target?, boundary?, offset?]
  unfold Assembly.moveToOperands
  generalize u.frameFor st [target?, boundary?, offset?] = r at hsame h hlocation ⊢
  obtain ⟨f, u'⟩ := r
  subst hsame
  dsimp only at h hlocation ⊢
  rw [← hlocation]
  cases h with
  | target => rfl
  | boundary hboundary => simp only [hboundary]
  | offset hboundary hoffset => simp only [hboundary, hoffset]
  | absolute hboundary hoffset heval => simp only [hboundary, hoffset, moveToTarget, heval]
  | fallback hboundary hoffset heval => simp only [hboundary, hoffset, moveToTarget, heval]
  | outside hboundary hoffset heval hout =>
    simp only [hboundary, hoffset, moveToTarget, heval]
    rw [if_neg hout]
  | below hboundary hoffset heval hin hup hclosed hbelow =>
    simp only [hboundary, hoffset, moveToTarget, heval]
    rw [if_pos hin]
    simp only [hup, moveToPlace, hclosed, List.isEmpty_nil, if_true, hbelow]

/-- A rejected statement is reported, before which at most the label of an ORG has been entered. -/
theorem Rejects.process {fault : Fault} (h : s.Rejects st fault) :
    (st.IsOrg ∧ s.process st = (s.enterOrg st).report fault st.location) ∨
      (¬ st.IsOrg ∧ s.process st = s.report fault st.location) := by
  have notOrg : ∀ {operation : Operation}, st.operation = operation → (∀ operands, operation ≠ .org operands) →
      ¬ st.IsOrg := by
    rintro operation hop hne ⟨operands, horg⟩
    exact hne operands (hop.symm.trans horg)
  cases h with
  | move hop hmove =>
    refine .inl ⟨⟨_, hop⟩, ?_⟩
    rw [Assembly.process, hop]
    dsimp only
    rw [processOrg_place, hmove.moveToOperands (s.frameFor_enterOrg st _)]
  | otherKind hop hlabel hfind hkind =>
    refine .inr ⟨notOrg hop (by simp), ?_⟩
    simp only [Assembly.process, hop, processSection, hlabel, processNamedSection, hfind]
    rw [if_neg hkind]
  | takenSection hop hlabel hfind htaken =>
    refine .inr ⟨notOrg hop (by simp), ?_⟩
    simp only [Assembly.process, hop, processSection, hlabel, processNamedSection, hfind, htaken, if_true]
  | unnamedCounter hop hlabel =>
    refine .inr ⟨notOrg hop (by simp), ?_⟩
    simp only [Assembly.process, hop, processCounter, hlabel]
  | takenCounter hop hlabel hfind htaken =>
    refine .inr ⟨notOrg hop (by simp), ?_⟩
    simp only [Assembly.process, hop, processCounter, hlabel, hfind, htaken, if_true]

/-! ## 4. What is not rejected -/

theorem steady_resolveOrDefer (s : Assembly) (task : Task) (f : Frame) : s.Steady (s.resolveOrDefer task f) :=
  s.steady_resolveAll [⟨task, f⟩]

/-- Whether the counter in use has been moved: at once and without a report, or by a further space. -/
def Moves (s t : Assembly) : Prop :=
  (∃ place, t.layout = s.layout.moveTo place ∧ t.diagnostics = s.diagnostics) ∨
    t.layout.spaces.size = s.layout.spaces.size + 1

theorem size_jump (l : Layout) (kind : SpaceKind) : (l.jump kind).2.spaces.size = l.spaces.size + 1 := by
  unfold Layout.jump
  dsimp only
  obtain ⟨id, hid⟩ := (l.ensureSection.modifyCurrent (·.mark l.ensureSection.spaces)).exists_current_ensureSection
  rw [Layout.passSpace_eq _ kind .any hid, (Layout.spaces_modifyCurrent _ _).1]
  show (Spaces.create _ _ _ _).2.size = _
  rw [Spaces.size_create, Layout.spaces_ensureSection, Layout.spaces_mark]

theorem moves_moveToHighest (s : Assembly) (f : Frame) : s.Moves (s.moveToHighest f) := by
  unfold moveToHighest
  dsimp only
  split
  · next highest _ => exact .inl ⟨highest, rfl, rfl⟩
  · exact .inr ((steady_resolveOrDefer _ _ _).size.trans (size_jump s.layout .jumpToHighest))

theorem moves_jumpToTarget (s : Assembly) (target : Expr) (boundary : Nat) (offset : Int32) (f : Frame) :
    s.Moves (s.jumpToTarget target boundary offset f) := by
  have hjump := steady_resolveOrDefer { s with layout := (s.layout.jump .jump).2 }
    (.space (s.layout.jump .jump).1 (.jump target s.layout.position boundary offset)) f
  have hcheck := steady_resolveOrDefer ({ s with layout := (s.layout.jump .jump).2 }.resolveOrDefer
    (.space (s.layout.jump .jump).1 (.jump target s.layout.position boundary offset)) f)
    (.check (.notBelow s.layout.origin target boundary offset)) f
  exact .inr ((hjump.trans hcheck).size.trans (size_jump s.layout .jump))

variable {target : Expr} {boundary : Nat} {offset : Int32} {f : Frame} {a place : Address}

/-- A check that does not fail shows neither in the layout nor in the reports. -/
theorem resolveOrDefer_check {rule : CheckRule} (hw : s.worklist = [])
    (hrule : ∀ fault, s.attemptCheck rule f ≠ .fallback () fault) :
    (s.resolveOrDefer (.check rule) f).layout = s.layout ∧
      (s.resolveOrDefer (.check rule) f).diagnostics = s.diagnostics := by
  have hsettle : s.settle none ⟨.check rule, f⟩ = s ∨
      ∃ waiting, s.settle none ⟨.check rule, f⟩ = s.postpone none ⟨.check rule, f⟩ waiting := by
    simp only [settle, attempt]
    cases hattempt : s.attemptCheck rule f with
    | resolved => exact .inl rfl
    | blocked waiting => exact .inr ⟨waiting, rfl⟩
    | fallback _ fault => exact absurd hattempt (hrule fault)
  unfold resolveOrDefer
  rcases hsettle with heq | ⟨waiting, heq⟩
  · rw [heq, drain_of_nil hw]
    exact ⟨rfl, rfl⟩
  · have hnil : (s.postpone none ⟨.check rule, f⟩ waiting).worklist = [] := hw
    rw [heq, drain_of_nil hnil]
    exact ⟨rfl, rfl⟩

/-- As long as the place is known up to open spaces only, it is not found to be below the origin. -/
theorem attemptCheck_ne_fallback (heval : s.evaluate target f = .resolved (.relocatable a))
    (hup : a.roundUp s.layout.spaces boundary = .ok place)
    (hopen : ((place.addOffset offset - s.layout.origin).normalize s.layout.spaces).spaces ≠ []) (fault : Fault) :
    s.attemptCheck (.notBelow s.layout.origin target boundary offset) f ≠ .fallback () fault := by
  have hsettled : (Length.between s.layout.spaces (place.addOffset offset) s.layout.origin).settled =
      .blockedOn (((place.addOffset offset - s.layout.origin).normalize s.layout.spaces).spaces.map (·.1)) :=
    if_neg fun hempty => hopen (List.isEmpty_iff.mp hempty)
  simp only [attemptCheck, heval]
  split_ifs
  · rw [hup]
    simp [Evaluation.ofExcept, Evaluation.andThen, hsettled, Evaluation.blockedOn]
  · simp

/-- Operands for which a move is not rejected move the counter. -/
theorem moves_moveToOperands {target? boundary? offset? : Option Expr}
    (hsame : (u.frameFor st [target?, boundary?, offset?]).2 = u) (hw : u.worklist = [])
    (hno : ∀ fault, ¬ u.RejectsMove (u.frameFor st [target?, boundary?, offset?]).1 target? boundary? offset? fault) :
    u.Moves (u.moveToOperands st target? boundary? offset?) := by
  unfold Assembly.moveToOperands
  generalize u.frameFor st [target?, boundary?, offset?] = r at hsame hno ⊢
  obtain ⟨f, u'⟩ := r
  subst hsame
  dsimp only at hno hw ⊢
  cases target? with
  | none => exact absurd .target (hno _)
  | some e =>
    cases hboundary : u'.orgBoundary? boundary? f with
    | none => exact absurd (.boundary hboundary) (hno _)
    | some boundary =>
      cases hoffset : u'.orgOffset? offset? f with
      | none => exact absurd (.offset hboundary hoffset) (hno _)
      | some offset =>
        dsimp only
        unfold moveToTarget
        split
        · next heval => exact absurd (.absolute hboundary hoffset heval) (hno _)
        · next heval => exact absurd (.fallback hboundary hoffset heval) (hno _)
        · exact moves_jumpToTarget u' e boundary offset f
        · next a heval =>
          -- Only a place that is known up to open spaces is compared with the origin.
          dsimp only
          split_ifs with hin
          · split
            · next place hup =>
              unfold moveToPlace
              dsimp only
              split_ifs with hclosed hbelow
              · exact absurd (.below hboundary hoffset heval hin hup (List.isEmpty_iff.mp hclosed) hbelow) (hno _)
              · exact .inl ⟨_, rfl, rfl⟩
              · have hopen := fun hnil => hclosed (List.isEmpty_iff.mpr hnil)
                obtain ⟨hlayout, hdiagnostics⟩ :=
                  resolveOrDefer_check hw (attemptCheck_ne_fallback heval hup hopen)
                exact .inl ⟨place.addOffset offset, congrArg (·.moveTo (place.addOffset offset)) hlayout, hdiagnostics⟩
            · exact moves_jumpToTarget u' e boundary offset f
          · exact absurd (.outside hboundary hoffset heval hin) (hno _)

end Assembly

namespace Layout

variable {l : Layout} {name? : Option Name} {kind : SectionKind} {name : Name}

/-- Whether the counter in use is the one that a section of the given name and kind was left in. -/
def InSection (l : Layout) (name? : Option Name) (kind : SectionKind) : Prop :=
  ∃ sect ∈ l.sections, l.current? = some sect.active ∧ sect.name? = name? ∧ sect.kind = kind

/-- Whether the counter in use has the given name. -/
def InCounter (l : Layout) (name : Name) : Prop :=
  ∃ c ∈ l.counters, l.current? = some c.id ∧ c.name? = some name

theorem inSection_createSection (l : Layout) (name? : Option Name) (kind : SectionKind) :
    (l.createSection name? kind).2.InSection name? kind :=
  ⟨_, List.mem_append_right _ (List.mem_singleton_self _), rfl, rfl, rfl⟩

theorem inSection_resumeSection {sect : Section} (hmem : sect ∈ l.sections)
    (hsect : l.section? sect.id = some sect) : (l.resumeSection sect.id).InSection sect.name? sect.kind := by
  unfold resumeSection
  rw [hsect]
  exact ⟨sect, hmem, rfl, rfl, rfl⟩

variable {taken : Name → Address → Prop}

/-- A section that is found is the one with its id. -/
theorem Ordered.section?_id (h : l.Ordered taken) {sect : Section} (hmem : sect ∈ l.sections) :
    l.section? sect.id = some sect := by
  obtain ⟨i, hi⟩ := List.mem_iff_getElem?.mp hmem
  rw [h.sectionIds i sect hi]
  exact hi

theorem Ordered.inCounter_resumeCounter (h : l.Ordered taken) {c : Counter} (hmem : c ∈ l.counters)
    (hname : c.name? = some name) : (l.resumeCounter c.id).InCounter name := by
  obtain ⟨j, hj⟩ := List.mem_iff_getElem?.mp hmem
  have hc : l.counter? c.id = some c := by
    rw [h.counterIds j c hj]
    exact hj
  unfold Layout.resumeCounter
  rw [hc]
  exact ⟨c, hmem, rfl, hname⟩

theorem Formed.inCounter_createCounter (h : l.Formed) (name : Name) : (l.createCounter name).2.InCounter name := by
  obtain ⟨c, hc⟩ := h.exists_current
  obtain ⟨hnone, -⟩ | ⟨s, -, heq⟩ := l.createCounter_cases name
  · rw [currentSection?, hc] at hnone
    cases hnone
  · rw [heq]
    exact ⟨_, List.mem_append_right _ (List.mem_singleton_self _), rfl, rfl⟩

end Layout

namespace Assembly

variable {s t : Assembly} {st : Statement} {kind : SectionKind}

theorem Steady.inSection (h : s.Steady t) {name? : Option Name} (hin : s.layout.InSection name? kind) :
    t.layout.InSection name? kind := by
  obtain ⟨sect, hmem, hcurrent, hname⟩ := hin
  exact ⟨sect, h.layout.1.symm ▸ hmem, h.layout.2.1.trans hcurrent, hname⟩

theorem Steady.inCounter (h : s.Steady t) {name : Name} (hin : s.layout.InCounter name) : t.layout.InCounter name := by
  obtain ⟨c, hmem, hcurrent, hname⟩ := hin
  exact ⟨c, h.counters.symm ▸ hmem, h.layout.2.1.trans hcurrent, hname⟩

/-- A start of a section that is not rejected leads to that section. -/
theorem inSection_processSection (ho : s.layout.Ordered s.Names) (hop : st.operation = .sectionStart kind)
    (hno : ∀ fault, ¬ s.Rejects st fault) : (s.processSection st kind).layout.InSection st.label? kind := by
  unfold processSection
  cases hlabel : st.label? with
  | none =>
    dsimp only
    unfold processPrivateSection
    cases hfind : s.layout.privateSection? kind with
    | none => exact Layout.inSection_createSection _ _ _
    | some id =>
      obtain ⟨sect, hsect, rfl⟩ := Option.map_eq_some_iff.mp hfind
      have hmem := List.mem_of_find?_eq_some hsect
      have hprivate := List.find?_some hsect
      rw [decide_eq_true_eq] at hprivate
      have hin := Layout.inSection_resumeSection hmem (ho.section?_id hmem)
      rw [hprivate.1, hprivate.2] at hin
      exact hin
  | some name =>
    dsimp only
    unfold processNamedSection
    cases hfind : s.layout.findSection? name with
    | none =>
      dsimp only
      split_ifs with htaken
      · exact absurd (.takenSection hop hlabel hfind htaken) (hno _)
      · exact (steady_createSymbol _ _).inSection (Layout.inSection_createSection _ _ _)
    | some id =>
      dsimp only
      split_ifs with hkind
      · obtain ⟨sect, hsect, rfl⟩ := Option.map_eq_some_iff.mp hfind
        have hmem := List.mem_of_find?_eq_some hsect
        have hname := List.find?_some hsect
        rw [decide_eq_true_eq] at hname
        rw [ho.section?_id hmem, Option.map_some, Option.some.injEq] at hkind
        have hin := Layout.inSection_resumeSection hmem (ho.section?_id hmem)
        rw [hname, hkind] at hin
        exact hin
      · exact absurd (.otherKind hop hlabel hfind hkind) (hno _)

/-- A start of a counter that is not rejected leads to that counter. -/
theorem inCounter_processCounter (ho : s.layout.Ordered s.Names) (hf : s.layout.Formed)
    (hop : st.operation = .counterStart) (hno : ∀ fault, ¬ s.Rejects st fault) :
    ∃ name, st.label? = some name ∧ (s.processCounter st).layout.InCounter name := by
  unfold processCounter
  cases hlabel : st.label? with
  | none => exact absurd (.unnamedCounter hop hlabel) (hno _)
  | some name =>
    refine ⟨name, rfl, ?_⟩
    dsimp only
    cases hfind : s.layout.findCounter? name with
    | none =>
      dsimp only
      split_ifs with htaken
      · exact absurd (.takenCounter hop hlabel hfind htaken) (hno _)
      · exact (steady_createSymbol _ _).inCounter (hf.inCounter_createCounter name)
    | some id =>
      obtain ⟨c, hc, rfl⟩ := Option.map_eq_some_iff.mp hfind
      have hname := List.find?_some hc
      rw [decide_eq_true_eq] at hname
      exact ho.inCounter_resumeCounter (List.mem_of_find?_eq_some hc) hname

end Assembly

/-! ## 5. Sessions -/

namespace Session

open Assembly

/-- In every state of a session a statement that moves or starts a section or a counter is either rejected or carried
out. If it is rejected, sections, counters and spaces are as they were, except that an ORG has started a section if
there was none, and as to the symbols there is at most the label of the ORG besides those that there were. -/
theorem unmoved_of_rejects (settings : Settings) (operations : List Operation) (st : Statement) :
    let s := stateAfter settings operations
    let t := s.process st
    (∀ fault, s.Rejects st fault →
      (st.IsOrg ∧ t = (s.enterOrg st).report fault st.location ∧ (s.mapLayout Layout.ensureSection).Steady t ∧
        ∀ n, t.symbols.contains n ↔ s.symbols.contains n ∨ st.label? = some n) ∨
      (¬ st.IsOrg ∧ t = s.report fault st.location ∧ s.Steady t ∧
        ∀ n, t.symbols.contains n ↔ s.symbols.contains n)) ∧
    ((∀ fault, ¬ s.Rejects st fault) →
      (st.IsOrg → (s.enterOrg st).Moves t) ∧
      (∀ kind, st.operation = .sectionStart kind → t.layout.InSection st.label? kind) ∧
      (st.operation = .counterStart → ∃ name, st.label? = some name ∧ t.layout.InCounter name)) := by
  intro s t
  have hs : s.Ready := ready_stateAfter settings operations
  have hw : s.worklist = [] := worklist_stateAfter settings operations
  -- Sections and counters of one name are the same, so what is resumed is what the label names.
  have ho : s.layout.Ordered s.Names :=
    ordered_operateAll (s := new settings) (ready_new settings) (.new settings.counterAlignment) operations
  refine ⟨fun fault hfault => ?_, fun hno => ⟨?_, fun kind hop => ?_, fun hop => ?_⟩⟩
  · rcases hfault.process with ⟨horg, ht⟩ | ⟨horg, ht⟩
    · refine .inl ⟨horg, ht, ?_, fun n => ?_⟩
      · rw [show t = _ from ht]
        exact (s.steady_enterOrg st).trans (steady_addDiagnostic _ _)
      · rw [show t = _ from ht, sameNames_report]
        exact s.contains_enterOrg st n
    · refine .inr ⟨horg, ht, ?_, fun n => ?_⟩
      · rw [show t = _ from ht]
        exact steady_addDiagnostic _ _
      · rw [show t = _ from ht, sameNames_report]
  · rintro ⟨operands, hop⟩
    have hprocess : t = s.processOrg st operands := by
      show s.process st = _
      rw [Assembly.process, hop]
    rw [hprocess]
    cases operands with
    | highest =>
      rw [processOrg_highest]
      exact moves_moveToHighest _ _
    | place target? boundary? offset? =>
      rw [processOrg_place]
      exact moves_moveToOperands (s.frameFor_enterOrg st _) ((stills_enterOrg hs st).leads.worklist hw)
        fun fault hfault => hno fault (.move hop hfault)
  · have hprocess : t = s.processSection st kind := by
      show s.process st = _
      rw [Assembly.process, hop]
    rw [hprocess]
    exact inSection_processSection ho hop hno
  · have hprocess : t = s.processCounter st := by
      show s.process st = _
      rw [Assembly.process, hop]
    rw [hprocess]
    exact inCounter_processCounter ho hs.valid.formed hop hno

/-! ### A move to a place in front of the section -/

namespace Below

open Scaled

def target : Expr := .binary .sub (.symbol (.ofString "S")) (.number 5)

def move : Statement := ⟨none, .ofString "ORG", .org (.place (some target) none none), {}⟩

def place : Address := ⟨[(⟨0⟩, 1)], -5, []⟩

/-! The states in between. -/

def newSection : Assembly :=
  { Assembly.new {} with
    layout := ((Assembly.new {}).layout.createSection (some (.ofString "S")) .executable).2 }

def inSection : Assembly := enter newSection (Scaled.place "S" (.start ⟨0⟩) .sectionStart)

theorem process_sectionStart : (Assembly.new {}).process sectionStart = inSection := by
  show newSection.createSymbol (Scaled.place "S" (.start ⟨0⟩) .sectionStart) = inSection
  exact createSymbol_of_idle (by decide +kernel) (by decide +kernel) rfl

end Below

/-- The move to a place in front of the section is rejected. -/
theorem unmoved_of_rejects_below :
    let s := stateAfter {} [.command (.process Scaled.sectionStart)]
    s.Rejects Below.move .outsideSection ∧
      s.process Below.move = (s.enterOrg Below.move).report .outsideSection {} ∧
      (s.mapLayout Layout.ensureSection).Steady (s.process Below.move) := by
  intro s
  have hs : s = Below.inSection := Below.process_sectionStart
  have hrejects : s.Rejects Below.move .outsideSection := by
    rw [hs]
    have heval : Below.inSection.evaluate Below.target {} = .resolved (.relocatable Below.place) := by
      decide +kernel
    exact .move rfl (.below rfl rfl heval (by decide +kernel) rfl (by decide +kernel) (by decide +kernel))
  rcases (unmoved_of_rejects {} [.command (.process Scaled.sectionStart)] Below.move).1 _ hrejects with
    ⟨-, hprocess, hsteady, -⟩ | ⟨horg, -⟩
  · exact ⟨hrejects, hprocess, hsteady⟩
  · exact absurd ⟨_, rfl⟩ horg

end Session

end Assembler
