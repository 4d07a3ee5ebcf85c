import Assembler.Proofs.Act
/-!
Statements as runs of steps.

Carrying out a statement is a chain of acts (`acts_process`). So it gets from one state to the next by steps and
empties the worklist (`leads_process`), and so does the end of the source (`follows_finish`).
-/

namespace Assembler.Assembly

variable {s t u : Assembly}

/-! ## 1. Small acts -/

section Small

variable {st : Statement}

theorem stills_reportAny {fault? : Option Fault} (hf : ∀ fault, fault? = some fault → fault.isComputed) :
    Stills st s (s.reportAny fault? st.location) := by
  cases fault? with
  | none => exact .refl
  | some f => exact (Still.report (.inl (hf f rfl))).stills

theorem alike_reportAny (s : Assembly) (fault? : Option Fault) (location : Location) :
    s.Alike (s.reportAny fault? location) := by
  cases fault? with
  | none => exact .refl s
  | some f => exact s.alike_report f location

theorem acts_report {f : Fault} (hf : f.isComputed) : Acts st s (s.report f st.location) :=
  (Still.report (.inl hf)).acts

/-- The label may turn out to be taken. -/
theorem still_redefinition {name : Name} (hname : st.label? = some name) (kind : String) :
    Still st s (s.report (.redefinition kind) st.location) :=
  .report (.inr ⟨hname ▸ rfl, kind, rfl⟩)

/-- A symbol on a place is created, or its name is reported as taken. -/
theorem still_createSymbol {sym : Symbol} (hsupplies : st.Supplies sym [] s.layout.spaces) :
    Still st s (s.createSymbol sym) := by
  unfold createSymbol
  cases ht : s.createSymbol? sym with
  | none => exact hsupplies.location ▸ still_redefinition hsupplies.label "symbol"
  | some t => exact @Still.enter st s t sym [] ht hsupplies (List.forall_mem_nil _)

/-- The label of a place has nothing left to be filled in. -/
theorem supplies_label {name : Name} (hname : st.label? = some name) {a : Spaces} {place : Address}
    (hplace : place.LiesIn a) (origin : SymbolOrigin) (type : Char) (length : Nat) :
    st.Supplies
      { name, value? := some (.relocatable place), attributes := .label origin type length,
        location := st.location } [] a := by
  refine ⟨hname, rfl, fun v hv => ?_, fun _ hjob => (nomatch hjob),
    fun _ hjob => (nomatch hjob), List.nil_sublist _, fun key hkey => ?_⟩
  · cases hv
    exact hplace
  · simp [Symbol.owed, SymbolAttributes.label] at hkey

theorem still_createLabel {name : Name} (hname : st.label? = some name) {place : Address}
    (hplace : place.LiesIn s.layout.spaces) (origin : SymbolOrigin) (type : Char) (length : Nat) :
    Still st s (s.createSymbol
      { name, value? := some (.relocatable place), attributes := .label origin type length,
        location := st.location }) :=
  still_createSymbol (supplies_label hname hplace origin type length)

theorem location_frameFor (s : Assembly) (st : Statement) (operands : List (Option Expr)) :
    (s.frameFor st operands).1.location = st.location := by
  unfold frameFor
  split <;> rfl

/-- At most a section is started for the location counter. -/
theorem frameFor_cases (s : Assembly) (st : Statement) (operands : List (Option Expr)) :
    (s.frameFor st operands).2 = s ∨ (s.frameFor st operands).2 = s.mapLayout Layout.ensureSection := by
  unfold frameFor
  split
  · exact .inr rfl
  · exact .inl rfl

theorem frameFor_of_current? {id : CounterId} (hid : s.layout.current? = some id) (st : Statement)
    (operands : List (Option Expr)) : (s.frameFor st operands).2 = s := by
  rcases s.frameFor_cases st operands with heq | heq
  · exact heq
  · exact heq.trans (congrArg (fun layout => { s with layout }) (Layout.ensureSection_of_current? hid))

theorem stills_frameFor (hs : s.Ready) (st : Statement) (operands : List (Option Expr)) :
    Stills st.unlabelled s (s.frameFor st operands).2 ∧
      (s.frameFor st operands).1.Scoped (s.frameFor st operands).2.layout.spaces := by
  unfold frameFor
  split
  · refine ⟨Still.ensure.stills, fun x hx => ?_⟩
    cases hx
    exact ((@Still.ensure st s).leads.ready hs).valid.formed.liesIn_position
  · exact ⟨.refl, fun x hx => nomatch hx⟩

theorem scoped_frame (st : Statement) (a : Spaces) : st.frame.Scoped a := fun _ hx => nomatch hx

end Small

/-! ## 2. Sections and EQU -/

theorem acts_processSection (s : Assembly) {st : Statement} {kind : SectionKind}
    (hop : st.operation = .sectionStart kind) : Acts st s (s.processSection st kind) := by
  unfold processSection
  split
  · unfold processPrivateSection
    split
    · exact (Act.resumeSection _).acts
    · exact (Act.createSection none hop).acts
  · rename_i name hname
    unfold processNamedSection
    split
    · split
      · exact (Act.resumeSection _).acts
      · exact (still_redefinition hname _).acts
    · split
      · exact (still_redefinition hname _).acts
      · refine (Act.createSection (some name) hop).acts.tail (.still (still_createLabel hname ?_ _ _ _))
        exact Address.liesIn_of_spaces_nil rfl

theorem acts_processCounter (hs : s.Ready) {st : Statement} (hop : st.operation = .counterStart) :
    Acts st s (s.processCounter st) := by
  unfold processCounter
  split
  · exact acts_report rfl
  · rename_i name hname
    split
    · exact (Act.resumeCounter _).acts
    · split
      · exact (still_redefinition hname _).acts
      · have hact := (@Act.createCounter st s name hop).acts
        exact hact.tail (.still (still_createLabel hname
          (hact.ready hs).valid.formed.liesIn_origin _ _ _))

theorem computed_equLength (s : Assembly) (length? : Option Expr) (implied : Nat) (f : Frame) :
    ∀ fault, (s.equLength length? implied f).2 = some fault → fault.isComputed := by
  unfold equLength
  split
  · exact fun _ h => nomatch h
  · rename_i e
    split
    · split
      · exact fun _ h => nomatch h
      · rintro _ ⟨⟩
        rfl
    · rintro _ ⟨⟩
      rfl
    · rename_i v fault he
      rintro _ ⟨⟩
      exact (s.plain_evaluate e f).computed he
    · exact fun _ h => nomatch h

/-- A length attribute that is not known has its operand wait. -/
theorem exists_of_equLength_isPending {length? : Option Expr} {implied : Nat} {f : Frame}
    (h : (s.equLength length? implied f).1 = .pending) : ∃ e, length? = some e := by
  cases length? with
  | none => cases h
  | some e => exact ⟨e, rfl⟩

theorem computed_equType (s : Assembly) (type? : Option Expr) (f : Frame) :
    ∀ fault, (s.equType type? f).2 = some fault → fault.isComputed := by
  unfold equType
  split
  · exact fun _ h => nomatch h
  · split
    · split
      · exact fun _ h => nomatch h
      · rintro _ ⟨⟩
        rfl
    · rintro _ ⟨⟩
      rfl

/-- Whether a label is entered without a value, with jobs that fill it in and the last of which is given. -/
def Enters (s : Assembly) (label : Name) (job : Job) (t : Assembly) : Prop :=
  ∃ sym u jobs, s.createSymbol? sym = some u ∧ sym.name = label ∧ sym.value? = none ∧
    t = u.resolveAll (jobs ++ [job]) ∧ (∀ other ∈ jobs ++ [job], other.Scoped s.layout.spaces) ∧
      (∀ other ∈ jobs, other.task.product? ≠ some (.symbol label)) ∧
        (jobs ++ [job]).filterMap (·.task.product?) = sym.owed

/-- A length operand of EQU whose value is not known yet leaves a job. -/
theorem exists_deferEquLength (t : Assembly) (label : Name) {length? : Option Expr}
    {length : Slot Nat} (implied : Nat) {f : Frame} {a : Spaces} (hf : f.Scoped a)
    (hpending : length = .pending → ∃ e, length? = some e) :
    ∃ jobs : List Job, t.deferEquLength label length? length implied f = t.resolveAll jobs ∧
      (∀ job ∈ jobs, job.Scoped a ∧ job.frame = f ∧ job.task.product? ≠ some (.symbol label) ∧
        job.task.Anchored a) ∧
      jobs.filterMap (·.task.product?) =
        if length = .pending then [.attr label .length] else [] := by
  cases length with
  | pending =>
    obtain ⟨e, rfl⟩ := hpending rfl
    refine ⟨[⟨.length label e ⟨0, maxEquLength, implied, .equLength⟩, f⟩], rfl, fun job hjob => ?_, rfl⟩
    rw [List.mem_singleton.mp hjob]
    exact ⟨⟨hf, by simp [Task.Scoped]⟩, rfl, by simp [Task.product?], rfl⟩
  | known n => exact ⟨[], by cases length? <;> rfl, List.forall_mem_nil _, rfl⟩
  | absent => exact ⟨[], by cases length? <;> rfl, List.forall_mem_nil _, rfl⟩

/-- The label of EQU is entered, with the job of its length before that of its value. -/
theorem enters_equ {st : Statement} {label : Name} (hlabel : st.label? = some label) (value : Expr)
    {length? : Option Expr} {length : Slot Nat} {type : UInt8} (implied : Nat) {f : Frame}
    (hpending : length = .pending → ∃ e, length? = some e) (hf : f.Scoped s.layout.spaces)
    (hlocation : f.location = st.location)
    (ht : s.createSymbol?
      { name := label, value? := none, attributes := { origin := .equ, type, length },
        location := st.location } = some t) :
    let last := (t.deferEquLength label length? length implied f).resolveOrDefer (.value label value) f
    Still st s last ∧ s.Enters label ⟨.value label value, f⟩ last := by
  obtain ⟨jobs, hjobs, hall, hproducts⟩ := exists_deferEquLength t label implied hf hpending
  have hlast : (t.deferEquLength label length? length implied f).resolveOrDefer (.value label value) f =
      t.resolveAll (jobs ++ [⟨.value label value, f⟩]) := by
    rw [hjobs, resolveAll, resolveAll, List.foldl_append]
    rfl
  have heach : ∀ job ∈ jobs ++ [(⟨.value label value, f⟩ : Job)],
      job.Scoped s.layout.spaces ∧ job.frame = f ∧ job.task.Anchored s.layout.spaces := by
    intro job hjob
    rcases List.mem_append.mp hjob with hjob | hjob
    · obtain ⟨hscoped, hframe, -, hanchored⟩ := hall job hjob
      exact ⟨hscoped, hframe, hanchored⟩
    · rw [List.mem_singleton.mp hjob]
      exact ⟨⟨hf, trivial⟩, rfl, trivial⟩
  -- The label owes what these jobs produce: its length, if that is pending, and its value.
  have howed : (jobs ++ [(⟨.value label value, f⟩ : Job)]).filterMap (·.task.product?) =
      Symbol.owed ⟨label, none, { origin := .equ, type, length }, st.location⟩ := by
    rw [List.filterMap_append, hproducts]
    simp [Symbol.owed, Task.product?]
  dsimp only
  rw [hlast]
  refine ⟨.enter ht ⟨hlabel, rfl, fun v hv => ?_, fun job hjob => (heach job hjob).1,
    fun job hjob => (congrArg Frame.location (heach job hjob).2.1).trans hlocation,
    howed ▸ List.Sublist.refl _, fun key hkey => .inl (howed ▸ hkey)⟩ fun job hjob => (heach job hjob).2.2,
    ?_⟩
  · cases hv
  exact ⟨_, t, jobs, ht, rfl, rfl, rfl, fun job hjob => (heach job hjob).1,
    fun job hjob => (hall job hjob).2.2.1, howed⟩

theorem createSymbol?_of_contains {sym : Symbol} (h : s.symbols.contains sym.name) :
    s.createSymbol? sym = none := by
  unfold createSymbol? SymbolTable.create?
  rw [if_pos h]
  rfl

theorem createSymbol_of_contains {sym : Symbol} (h : s.symbols.contains sym.name) :
    s.createSymbol sym = s.report (.redefinition "symbol") sym.location := by
  unfold createSymbol
  rw [createSymbol?_of_contains h]
  rfl

/-- EQU enters its label in the end, or reports it as taken. With a value it enters the job of that. -/
theorem defineEqu_cases (hs : s.Ready) {st : Statement} {label : Name} {value? length? type? : Option Expr}
    (hlabel : st.label? = some label) (hop : st.operation = .equ value? length? type?) :
    ∃ u, Stills st.unlabelled s u ∧ Still st u (s.defineEqu st label value? length? type?) ∧
      (u.symbols.contains label →
        s.defineEqu st label value? length? type? = u.report (.redefinition "symbol") st.location) ∧
      ∀ value, value? = some value →
        s.defineEqu st label value? length? type? = u.report (.redefinition "symbol") st.location ∨
          u.Enters label ⟨.value label value, (s.frameFor st [value?, length?, type?]).1⟩
            (s.defineEqu st label value? length? type?) := by
  obtain ⟨hframe, hscope⟩ := stills_frameFor hs st [value?, length?, type?]
  have hlocation := s.location_frameFor st [value?, length?, type?]
  unfold defineEqu
  generalize s.frameFor st [value?, length?, type?] = r at hframe hscope hlocation
  obtain ⟨frame, s₁⟩ := r
  dsimp only at hframe hscope hlocation ⊢
  -- The preparation is taken step by step, and of each step only what it may report is kept.
  generalize s₁.impliedLength value? = implied
  have hlength := @stills_reportAny s₁ st.unlabelled _ (s₁.computed_equLength length? implied frame)
  have hpending := @exists_of_equLength_isPending s₁ length? implied frame
  generalize s₁.equLength length? implied frame = r at hlength hpending
  obtain ⟨length, fault?⟩ := r
  dsimp only [Statement.unlabelled] at hlength hpending ⊢
  generalize s₁.reportAny fault? st.location = s₂ at hlength ⊢
  have htype := @stills_reportAny s₂ st.unlabelled _ (s₂.computed_equType type? frame)
  generalize s₂.equType type? frame = r at htype
  obtain ⟨type, fault?⟩ := r
  dsimp only [Statement.unlabelled] at htype ⊢
  generalize s₂.reportAny fault? st.location = s₃ at htype ⊢
  have hscope := hscope.later (hlength.trans htype).leads.earlier
  have hprepared := (hframe.trans hlength).trans htype
  cases value? with
  | none =>
    -- Without a value the label is entered as zero and owes nothing but its length.
    refine ⟨s₃.report .unevaluable st.location, hprepared.tail (.report (.inl rfl)),
      still_createSymbol ⟨hlabel, rfl, fun v hv => ?_, fun _ hjob => (nomatch hjob),
        fun _ hjob => (nomatch hjob), List.nil_sublist _, fun key hkey => .inr ⟨?_, length?, type?, hop⟩⟩,
      fun htaken => ?_, fun value hvalue => nomatch hvalue⟩
    · cases hv
      exact Value.liesIn_absolute 0
    · simp [Symbol.owed] at hkey
      exact hkey.2
    · dsimp only
      rw [createSymbol_of_contains htaken]
  | some value =>
    refine ⟨s₃, hprepared, ?_⟩
    dsimp only
    split
    · exact ⟨still_redefinition hlabel _, fun _ => rfl, fun _ _ => .inl rfl⟩
    · rename_i t ht
      obtain ⟨hstill, henter⟩ := enters_equ hlabel value implied hpending hscope hlocation ht
      refine ⟨hstill, fun htaken => ?_, fun other hother => ?_⟩
      · rw [createSymbol?_of_contains htaken] at ht
        cases ht
      · cases hother
        exact .inr henter

theorem stills_processEqu (hs : s.Ready) {st : Statement} {value? length? type? : Option Expr}
    (hop : st.operation = .equ value? length? type?) :
    Stills st s (s.processEqu st value? length? type?) := by
  unfold processEqu
  split
  · exact (Still.report (.inl rfl)).stills
  · rename_i label hlabel
    obtain ⟨u, hfirst, hlast, -⟩ := defineEqu_cases hs hlabel hop
    exact hfirst.labelled.tail hlast

/-- EQU with a value only, which does not use the location counter. -/
theorem process_equ {st : Statement} {label : Name} {e : Expr} (hlabel : st.label? = some label)
    (hop : st.operation = .equ (some e) none none) (he : e.usesCounter = false) :
    s.process st =
      match s.createSymbol? ⟨label, none,
        { origin := .equ, type := Ebcdic.encode 'U', length := .known (s.impliedLength (some e)) },
        st.location⟩ with
      | none => s.report (.redefinition "symbol") st.location
      | some t => t.resolveOrDefer (.value label e) st.frame := by
  have hframe : s.frameFor st [some e, none, none] = (st.frame, s) := by
    unfold frameFor
    rw [if_neg (by simp [he])]
  unfold process
  rw [hop]
  dsimp only
  unfold processEqu
  rw [hlabel]
  dsimp only
  unfold defineEqu
  rw [hframe]
  rfl

theorem process_equ_of_createSymbol? {st : Statement} {label : Name} {e : Expr}
    (hlabel : st.label? = some label) (hop : st.operation = .equ (some e) none none)
    (he : e.usesCounter = false)
    (ht : s.createSymbol? ⟨label, none,
      { origin := .equ, type := Ebcdic.encode 'U', length := .known (s.impliedLength (some e)) },
      st.location⟩ = some t) :
    s.process st = t.resolveOrDefer (.value label e) st.frame := by
  rw [process_equ hlabel hop he, ht]

/-! ## 3. ORG -/

theorem act_moveToHighest (hs : s.Ready) {c : CounterId} (hc : s.layout.current? = some c)
    {f : Frame} (hf : f.Scoped s.layout.spaces) {st : Statement} (horg : st.IsOrg)
    (hlocation : f.location = st.location) : Act st s (s.moveToHighest f) := by
  have hformed := hs.valid.formed
  unfold moveToHighest
  dsimp only
  split
  · rename_i highest hhighest
    have hmem := Address.mem_of_highest hhighest
    exact .moveTo horg (hformed.liesIn_candidates _ hmem) (.inl hmem)
  · exact @Act.jump st s (.jumpToHighest s.layout.candidates s.layout.position) f horg
      ⟨hformed.position_mem_candidates hc, hformed.liesIn_candidates⟩
      ⟨hformed.liesIn_position, hformed.liesIn_candidates⟩ hf hlocation

theorem leads_checkNotBelow (s : Assembly) (origin : Address) (target : Expr) (boundary : Nat)
    (offset : Int32) {f : Frame} (hf : f.Scoped s.layout.spaces) :
    s.Leads (s.checkNotBelow origin target boundary offset f) :=
  leads_check ⟨.check (.notBelow origin target boundary offset), f⟩ rfl ⟨hf, trivial⟩

theorem acts_moveToPlace (hs : s.Ready) {place : Address} (hplace : place.LiesIn s.layout.spaces)
    (hbases : place.bases = s.layout.position.bases) (target : Expr) (boundary : Nat) (offset : Int32)
    {f : Frame} (hf : f.Scoped s.layout.spaces) {st : Statement} (horg : st.IsOrg)
    (hlocation : f.location = st.location) :
    Acts st s (s.moveToPlace place target boundary offset f) := by
  unfold moveToPlace
  dsimp only
  split
  · split
    · exact hlocation ▸ acts_report rfl
    · exact (Act.moveTo horg hplace (.inr hbases)).acts
  · -- The check leaves the place of the counter alone.
    have hcheck : Still st s (s.checkNotBelow s.layout.origin target boundary offset f) :=
      .check hs.valid.formed.liesIn_origin hf hlocation
    have hsteady := steady_resolveAll s
      [⟨.check (.notBelow s.layout.origin target boundary offset), f⟩]
    exact hcheck.acts.tail (.moveTo horg (hplace.later hcheck.leads.earlier)
      (.inr (hbases.trans (congrArg Address.bases hsteady.position.symm))))

theorem acts_jumpToTarget (hs : s.Ready) (target : Expr) (boundary : Nat) (offset : Int32)
    {f : Frame} (hf : f.Scoped s.layout.spaces) {st : Statement} (horg : st.IsOrg)
    (hlocation : f.location = st.location) :
    Acts st s (s.jumpToTarget target boundary offset f) := by
  have hformed := hs.valid.formed
  have hjump := (@Act.jump st s (.jump target s.layout.position boundary offset) f horg
    hformed.liesIn_position hformed.liesIn_position hf hlocation).acts
  have hearlier := hjump.leads.earlier
  exact hjump.tail (.still (.check (hformed.liesIn_origin.later hearlier) (hf.later hearlier) hlocation))

theorem acts_moveToTarget (hs : s.Ready) (target : Expr) (boundary : Nat) (offset : Int32)
    {f : Frame} (hf : f.Scoped s.layout.spaces) {st : Statement} (horg : st.IsOrg)
    (hlocation : f.location = st.location) :
    Acts st s (s.moveToTarget target boundary offset f) := by
  have hwf := hs.valid.wellFormed
  have hplain := s.plain_evaluate target f
  have hlies := fun v => liesIn_evaluate hwf.inScope hf (e := target) (v := v)
  unfold moveToTarget
  split
  · exact hlocation ▸ acts_report rfl
  · rename_i v fault he
    exact hlocation ▸ acts_report (hplain.computed he)
  · exact acts_jumpToTarget hs target boundary offset hf horg hlocation
  · rename_i a he
    have ha : a.LiesIn s.layout.spaces := hlies (.relocatable a) (by rw [he]; rfl)
    dsimp only
    split
    · rename_i hsame
      split
      · rename_i place hround
        have hplace := ha.roundUp hwf.inScope.closed hround
        have hmoved : (place.addOffset offset).LiesIn s.layout.spaces := hplace
        -- The place is known, so the counter is moved at once.
        exact acts_moveToPlace hs hmoved ((Address.spaces_of_roundUp hround).1.trans hsame.1) target
          boundary offset hf horg hlocation
      · exact acts_jumpToTarget hs target boundary offset hf horg hlocation
    · exact hlocation ▸ acts_report rfl

theorem acts_moveToOperands (hs : s.Ready) {st : Statement} (horg : st.IsOrg)
    (target? boundary? offset? : Option Expr) :
    Acts st.unlabelled s (s.moveToOperands st target? boundary? offset?) := by
  obtain ⟨hframe, hscope⟩ := stills_frameFor hs st [target?, boundary?, offset?]
  have hlocation := s.location_frameFor st [target?, boundary?, offset?]
  unfold moveToOperands
  generalize s.frameFor st [target?, boundary?, offset?] = r at hframe hscope hlocation
  obtain ⟨frame, s₁⟩ := r
  dsimp only at hframe hscope hlocation ⊢
  refine hframe.acts.trans ?_
  split
  · exact @acts_report s₁ st.unlabelled _ rfl
  · split
    · exact @acts_report s₁ st.unlabelled _ rfl
    · split
      · exact @acts_report s₁ st.unlabelled _ rfl
      · exact @acts_moveToTarget s₁ (hframe.leads.ready hs) _ _ _ _ hscope st.unlabelled horg hlocation

theorem steady_createSymbol (s : Assembly) (sym : Symbol) : s.Steady (s.createSymbol sym) := by
  unfold createSymbol createSymbol?
  cases s.symbols.create? sym with
  | none => exact s.steady_addDiagnostic _
  | some symbols =>
    have hentered : s.Steady { s with symbols } := ⟨rfl, rfl, rfl, rfl, rfl, rfl, ⟨rfl, rfl, rfl⟩, rfl⟩
    have hwoken := steady_foldl_wake { s with symbols } (provided sym)
    have hdrained := (@run_drain [] .reading ((provided sym).foldl wake { s with symbols })
      forall_mem_nil).steady
    exact (hentered.trans hwoken).trans hdrained

theorem acts_moveOrg {c : CounterId} (hs : s.Ready) (hc : s.layout.current? = some c) {st : Statement}
    (horg : st.IsOrg) (operands : OrgOperands) :
    Acts st.unlabelled s (match operands with
      | .highest => s.moveToHighest st.frame
      | .place target? boundary? offset? => s.moveToOperands st target? boundary? offset?) := by
  cases operands with
  | highest => exact (@act_moveToHighest s hs c hc _ (scoped_frame st _) st.unlabelled horg rfl).acts
  | place target? boundary? offset? => exact acts_moveToOperands hs horg _ _ _

/-- A section is started before the move. -/
theorem acts_processOrg_ensureSection (hs : s.Ready) {st : Statement} (horg : st.IsOrg) (operands : OrgOperands) :
    Acts st (s.mapLayout Layout.ensureSection) (s.processOrg st operands) := by
  obtain ⟨c, hc⟩ := s.layout.exists_current_ensureSection
  have hready := (@Still.ensure st s).leads.ready hs
  unfold processOrg
  dsimp only
  cases hname : st.label? with
  | none => exact (acts_moveOrg hready hc horg operands).labelled
  | some label =>
    have hlabel := still_createLabel hname hready.valid.formed.liesIn_position .org 'U' 1
    exact hlabel.acts.trans (acts_moveOrg (hlabel.leads.ready hready)
      ((steady_createSymbol _ _).layout.2.1.trans hc) horg operands).labelled

theorem acts_processOrg (hs : s.Ready) {st : Statement} (horg : st.IsOrg) (operands : OrgOperands) :
    Acts st s (s.processOrg st operands) :=
  (@Still.ensure st s).acts.trans (acts_processOrg_ensureSection hs horg operands)

/-! ## 4. Storage -/

theorem computed_lengthAmount (s : Assembly) (op : DataOperand) (bounds : Int32 × Int32) (f : Frame) :
    ∀ fault, (s.lengthAmount op bounds f).2 = some fault → fault.isComputed := by
  unfold lengthAmount
  dsimp only
  split
  · exact fun _ h => nomatch h
  · rename_i modifier
    split
    · split
      · exact fun _ h => nomatch h
      · rintro _ ⟨⟩
        rfl
    · rename_i v fault he
      rintro _ ⟨⟩
      exact (s.plain_evaluateNumber _ f).computed he
    · exact fun _ h => nomatch h

theorem evaluated_duplicationAmount (s : Assembly) (op : DataOperand) (f : Frame) :
    ∀ fault, (s.duplicationAmount op f).2 = some fault → fault.isEvaluated := by
  unfold duplicationAmount
  split
  · exact fun _ h => nomatch h
  · split
    · exact fun _ h => nomatch h
    · rename_i v fault he
      rintro _ ⟨⟩
      exact s.plain_evaluateNumber _ f _ _ he
    · exact fun _ h => nomatch h

theorem evaluated_scaleSlot (s : Assembly) (op : DataOperand) (f : Frame) :
    ∀ fault, (s.scaleSlot op f).2 = some fault → fault.isEvaluated := by
  unfold scaleSlot
  split
  · split
    · exact fun _ h => nomatch h
    · split
      · exact fun _ h => nomatch h
      · rename_i v fault he
        rintro _ ⟨⟩
        exact s.plain_evaluateNumber _ f _ _ he
      · exact fun _ h => nomatch h
  · exact fun _ h => nomatch h

/-- A scale attribute that is not known has its operand wait. -/
theorem exists_of_scaleSlot_isPending {op : DataOperand} {f : Frame}
    (h : (s.scaleSlot op f).1 = .pending) : ∃ e, op.scale? = some e := by
  cases hscale : op.scale? with
  | none =>
    unfold scaleSlot at h
    rw [hscale] at h
    split at h <;> cases h
  | some e => exact ⟨e, rfl⟩

/-- The jobs that fill in the label of an operand. -/
def lengthJobs (label : Name) (op : DataOperand) (bounds : Int32 × Int32) (f : Frame) :
    Amount → List Job
  | .deferred e =>
    [⟨.length label e ⟨bounds.1, bounds.2, op.implicitLength, op.lengthFault bounds⟩, f⟩]
  | .known _ => []

def scaleJobs (label : Name) (op : DataOperand) (scale : Slot Int32) (f : Frame) : List Job :=
  match op.scale? with
  | some e => if scale.isPending then [⟨.scale label e, f⟩] else []
  | none => []

def integerJobs (label : Name) (op : DataOperand) (integer : Slot Int32) (f : Frame) : List Job :=
  if integer.isPending then [⟨.integer label op.type, f⟩] else []

def attributeJobs (label : Name) (op : DataOperand) (length : Amount)
    (attributes : SymbolAttributes) (bounds : Int32 × Int32) (f : Frame) : List Job :=
  lengthJobs label op bounds f length ++ scaleJobs label op attributes.scale f ++
    integerJobs label op attributes.integer f

/-- The jobs of a label are for its length, its scale and its integer attribute. -/
theorem cases_of_mem_attributeJobs {label : Name} {op : DataOperand} {length : Amount}
    {attributes : SymbolAttributes} {bounds : Int32 × Int32} {f : Frame} {job : Job}
    (h : job ∈ attributeJobs label op length attributes bounds f) :
    (∃ e, length = .deferred e ∧
        job = ⟨.length label e ⟨bounds.1, bounds.2, op.implicitLength, op.lengthFault bounds⟩, f⟩) ∨
      (∃ e, op.scale? = some e ∧ job = ⟨.scale label e, f⟩) ∨ job = ⟨.integer label op.type, f⟩ := by
  rw [attributeJobs, List.mem_append, List.mem_append] at h
  rcases h with (h | h) | h
  · cases length with
    | known n => cases h
    | deferred e => exact .inl ⟨e, rfl, List.mem_singleton.mp h⟩
  · unfold scaleJobs at h
    split at h
    · rename_i e he
      split at h
      · exact .inr (.inl ⟨e, he, List.mem_singleton.mp h⟩)
      · cases h
    · cases h
  · unfold integerJobs at h
    split at h
    · exact .inr (.inr (List.mem_singleton.mp h))
    · cases h

theorem deferAttributes_eq (t : Assembly) (label : Name) (op : DataOperand) (length : Amount)
    (attributes : SymbolAttributes) (bounds : Int32 × Int32) (f : Frame) :
    t.deferAttributes label op length attributes bounds f =
      t.resolveAll (attributeJobs label op length attributes bounds f) := by
  unfold deferAttributes attributeJobs resolveAll scaleJobs integerJobs
  rw [List.foldl_append, List.foldl_append]
  cases length <;> cases op.scale? <;> cases attributes.scale.isPending <;>
    cases attributes.integer.isPending <;> rfl

theorem isPending_eq {α : Type} [DecidableEq α] (slot : Slot α) :
    slot.isPending = decide (slot = .pending) := by
  cases slot <;> simp [Slot.isPending]

theorem products_attributeJobs {label : Name} {op : DataOperand} {length : Amount}
    {scale : Slot Int32} (hscale : scale = .pending → ∃ e, op.scale? = some e)
    {value : Value} (bounds : Int32 × Int32) (f : Frame) (location : Location) :
    (attributeJobs label op length (dataAttributes op length scale) bounds f).filterMap
      (·.task.product?) =
        Symbol.owed ⟨label, some value, dataAttributes op length scale, location⟩ := by
  -- Each of the three lists has its job exactly if the slot that it fills is pending.
  have first : (lengthJobs label op bounds f length).filterMap (·.task.product?) =
      if (dataAttributes op length scale).length = .pending then [.attr label .length] else [] := by
    cases length <;> rfl
  have second : (scaleJobs label op scale f).filterMap (·.task.product?) =
      if scale = .pending then [.attr label .scale] else [] := by
    unfold scaleJobs
    rw [isPending_eq]
    by_cases hp : scale = .pending
    · obtain ⟨e, he⟩ := hscale hp
      rw [he, hp]
      rfl
    · rw [if_neg hp, decide_eq_false hp]
      cases op.scale? <;> rfl
  have third : ∀ integer, (integerJobs label op integer f).filterMap (·.task.product?) =
      if integer = .pending then [.attr label .integer] else [] := by
    intro integer
    unfold integerJobs
    rw [isPending_eq]
    by_cases hi : integer = .pending
    · rw [decide_eq_true hi, if_pos hi]
      rfl
    · rw [decide_eq_false hi, if_neg hi]
      rfl
  unfold attributeJobs Symbol.owed
  rw [List.filterMap_append, List.filterMap_append, first,
    show (dataAttributes op length scale).scale = scale from rfl, second, third]
  exact (List.append_nil _).symm

theorem scoped_attributeJobs {label : Name} {op : DataOperand} {length : Amount}
    {attributes : SymbolAttributes} {bounds : Int32 × Int32} {f : Frame} {a : Spaces}
    (hf : f.Scoped a) : ∀ job ∈ attributeJobs label op length attributes bounds f,
      job.Scoped a ∧ job.frame = f ∧ job.task.Anchored a := by
  intro job hjob
  rcases cases_of_mem_attributeJobs hjob with ⟨e, -, rfl⟩ | ⟨e, -, rfl⟩ | rfl
  · exact ⟨⟨hf, by simp [Task.Scoped, DataOperand.lengthFault]⟩, rfl, rfl⟩
  · exact ⟨⟨hf, trivial⟩, rfl, trivial⟩
  · exact ⟨⟨hf, trivial⟩, rfl, trivial⟩

/-- The scale attribute of a new label, and the state in which the label is entered. -/
def scaleOperand (s : Assembly) (op : DataOperand) (f : Frame) : Slot Int32 × Assembly :=
  let s := s.mapLayout Layout.ensureSection
  let (scale, fault?) := s.scaleSlot op f
  (scale, s.reportAny fault? f.location)

/-- The label of an operand as it is entered. -/
def operandSymbol (s : Assembly) (op : DataOperand) (length : Amount) (f : Frame) (label : Name) : Symbol :=
  { name := label, value? := some (.relocatable (s.mapLayout Layout.ensureSection).layout.position),
    attributes := dataAttributes op length (s.scaleOperand op f).1, location := f.location }

theorem defineLabel_eq (s : Assembly) (label : Name) (op : DataOperand) (length : Amount)
    (bounds : Int32 × Int32) (f : Frame) : s.defineLabel label op length bounds f =
      match (s.scaleOperand op f).2.createSymbol? (s.operandSymbol op length f label) with
      | none => (false, (s.scaleOperand op f).2.report (.redefinition "symbol") f.location)
      | some t => (true, t.deferAttributes label op length
          (dataAttributes op length (s.scaleOperand op f).1) bounds f) := rfl

theorem stills_scaleOperand (s : Assembly) {st : Statement} (op : DataOperand) {f : Frame}
    (hlocation : f.location = st.location) : Stills st s (s.scaleOperand op f).2 := by
  have hsection : Still st s (s.mapLayout Layout.ensureSection) := .ensure
  have hscale := @stills_reportAny (s.mapLayout Layout.ensureSection) st _ fun fault h =>
    Fault.isComputed_of_isEvaluated ((s.mapLayout Layout.ensureSection).evaluated_scaleSlot op f fault h)
  rw [← hlocation] at hscale
  exact hsection.stills.trans hscale

/-- The label of an operand is supplied with the jobs for its attributes. -/
theorem supplies_operandSymbol (hs : s.Ready) {st : Statement} {label : Name}
    (hlabel : st.label? = some label) (op : DataOperand) (length : Amount) (bounds : Int32 × Int32)
    {f : Frame} (hf : f.Scoped s.layout.spaces) (hlocation : f.location = st.location) :
    st.Supplies (s.operandSymbol op length f label)
      (attributeJobs label op length (dataAttributes op length (s.scaleOperand op f).1) bounds f)
      (s.scaleOperand op f).2.layout.spaces := by
  have hstills := s.stills_scaleOperand op hlocation
  have hproducts := @products_attributeJobs label op length (s.scaleOperand op f).1
    (@exists_of_scaleSlot_isPending (s.mapLayout Layout.ensureSection) op f)
    (.relocatable (s.mapLayout Layout.ensureSection).layout.position) bounds f f.location
  have hjobs := @scoped_attributeJobs label op length (dataAttributes op length (s.scaleOperand op f).1)
    bounds f _ (hf.later hstills.leads.earlier)
  refine ⟨hlabel, hlocation, fun v hv => ?_, fun job hjob => (hjobs job hjob).1, fun job hjob => ?_,
    hproducts ▸ List.Sublist.refl _, fun key hkey => .inl (hproducts ▸ hkey)⟩
  · -- A report leaves the layout alone.
    have hsame : (s.scaleOperand op f).2.layout = (s.mapLayout Layout.ensureSection).layout :=
      (alike_reportAny _ _ _).layout
    cases hv
    rw [hsame]
    exact ((@Still.ensure st s).leads.ready hs).valid.formed.liesIn_position
  · exact (congrArg Frame.location (hjobs job hjob).2.1).trans hlocation

theorem stills_defineLabel (hs : s.Ready) {st : Statement} {label : Name}
    (hlabel : st.label? = some label) (op : DataOperand) (length : Amount) (bounds : Int32 × Int32)
    {f : Frame} (hf : f.Scoped s.layout.spaces) (hlocation : f.location = st.location) :
    Stills st s (s.defineLabel label op length bounds f).2 := by
  have hstills := s.stills_scaleOperand op hlocation
  rw [defineLabel_eq]
  split
  · exact hstills.tail (hlocation ▸ still_redefinition hlabel _)
  · rename_i t ht
    rw [deferAttributes_eq]
    exact hstills.tail (.enter ht (supplies_operandSymbol hs hlabel op length bounds hf hlocation)
      fun job hjob => (scoped_attributeJobs (hf.later hstills.leads.earlier) job hjob).2.2)

theorem stills_checkLength (s : Assembly) (op : DataOperand) (length : Amount)
    (bounds : Int32 × Int32) {f : Frame} (hf : f.Scoped s.layout.spaces) {st : Statement}
    (hlocation : f.location = st.location) : Stills st s (s.checkLength op length bounds f) := by
  cases length with
  | known n => exact .refl
  | deferred e =>
    exact (@Still.check st s (.lengthInRange e op.type.code bounds.1 bounds.2) f trivial hf hlocation).stills

/-- The least length modifier of every type is positive. -/
theorem one_le_lengthBounds (type : DataType) (storageOnly : Bool) :
    1 ≤ (type.lengthBounds storageOnly).1 := by
  unfold DataType.lengthBounds
  cases storageOnly <;> split <;> decide

theorem takes_amounts (s t : Assembly) (op : DataOperand) (storageOnly : Bool) (f g : Frame) :
    op.Takes (t.duplicationAmount op g).1 (s.lengthAmount op (op.type.lengthBounds storageOnly) f).1 where
  duplication d hd := by
    unfold duplicationAmount at hd
    split at hd
    · cases hd
      decide
    · split at hd
      · cases hd
        split
        · decide
        · exact Int32.not_lt.mp ‹_›
      · cases hd
        decide
      · cases hd
  plain hnone := by
    unfold lengthAmount
    rw [hnone]
  modified n hn := by
    unfold lengthAmount at hn
    dsimp only at hn
    split at hn
    · cases hn
      exact .inl rfl
    · split at hn
      · split at hn
        · rename_i hbounds
          cases hn
          -- A length modifier is taken only within its bounds, and these are positive.
          exact .inr (Int32.le_trans (one_le_lengthBounds _ _) hbounds.1)
        · cases hn
          exact .inl rfl
      · cases hn
        exact .inl rfl
      · cases hn

/-- The state in which the operand has been aligned. -/
def alignOperand (s : Assembly) (st : Statement) (op : DataOperand) : Assembly :=
  if op.length?.isSome then s else s.align op.type.alignment st.frame

theorem acts_alignOperand (s : Assembly) (st : Statement) (op : DataOperand) :
    Acts st.unlabelled s (s.alignOperand st op) := by
  unfold alignOperand
  split
  · exact .refl
  · exact (@Act.align st.unlabelled s op.type _ (scoped_frame st _) rfl).acts

/-- What is known of an operand before its label is entered. -/
structure Preparation where
  state : Assembly
  frame : Frame
  length : Amount
  duplication : Amount

/-- Aligns the location counter for an operand and looks at its amounts. -/
def prepareOperand (s : Assembly) (st : Statement) (storageOnly : Bool) (op : DataOperand) :
    Preparation :=
  let (frame, s) := (s.alignOperand st op).frameFor st
    [op.duplication?, op.length?.map (·.expr), op.scale?, op.exponent?]
  let (length, fault?) := s.lengthAmount op (op.type.lengthBounds storageOnly) frame
  let s := s.reportAny fault? frame.location
  let (duplication, fault?) := s.duplicationAmount op frame
  { state := s.reportAny fault? frame.location, frame, length, duplication }

/-- Enters the label of an operand, if there is one, and says whether it could be entered. -/
def Preparation.enter (p : Preparation) (storageOnly : Bool) (label? : Option Name) (op : DataOperand) :
    Bool × Assembly :=
  match label? with
  | some label => p.state.defineLabel label op p.length (op.type.lengthBounds storageOnly) p.frame
  | none => (false, p.state)

/-- The state in which the storage of an operand is reserved. -/
def Preparation.finish (p : Preparation) (storageOnly : Bool) (label? : Option Name) (op : DataOperand) :
    Assembly :=
  let (defined, s) := p.enter storageOnly label? op
  if defined then s else s.checkLength op p.length (op.type.lengthBounds storageOnly) p.frame

/-- The label whose length attribute stands for the length of an operand. -/
def Preparation.label? (p : Preparation) (storageOnly : Bool) (label? : Option Name) (op : DataOperand) :
    Option Name :=
  if (p.enter storageOnly label? op).1 then label? else none

theorem processOperand_eq (s : Assembly) (st : Statement) (storageOnly : Bool) (label? : Option Name)
    (op : DataOperand) :
    s.processOperand st storageOnly label? op =
      let p := s.prepareOperand st storageOnly op
      (p.finish storageOnly label? op).reserveStorage op (p.label? storageOnly label? op)
        p.duplication p.length p.frame := rfl

/-- Looking at the amounts of an operand leaves the place of the counter alone. -/
theorem stills_prepareOperand (hs : s.Ready) (st : Statement) (storageOnly : Bool) (op : DataOperand) :
    let p := s.prepareOperand st storageOnly op
    Stills st.unlabelled (s.alignOperand st op) p.state ∧ p.frame.Scoped p.state.layout.spaces ∧
      p.frame.location = st.location ∧ op.Takes p.duplication p.length := by
  have hready := (s.acts_alignOperand st op).ready hs
  unfold prepareOperand
  obtain ⟨hframe, hscope⟩ := stills_frameFor hready st
    [op.duplication?, op.length?.map (·.expr), op.scale?, op.exponent?]
  have hlocation : _ = st.unlabelled.location := (s.alignOperand st op).location_frameFor st
    [op.duplication?, op.length?.map (·.expr), op.scale?, op.exponent?]
  generalize (s.alignOperand st op).frameFor st
    [op.duplication?, op.length?.map (·.expr), op.scale?, op.exponent?] = r at hframe hscope hlocation ⊢
  obtain ⟨frame, s₁⟩ := r
  dsimp only at hframe hscope hlocation ⊢
  have htakes := fun t => takes_amounts s₁ t op storageOnly frame frame
  -- The length modifier is looked at first, and the duplication factor after its report.
  have hlength := @stills_reportAny s₁ st.unlabelled _
    (s₁.computed_lengthAmount op (op.type.lengthBounds storageOnly) frame)
  rw [← hlocation] at hlength
  generalize s₁.lengthAmount op (op.type.lengthBounds storageOnly) frame = r at hlength htakes ⊢
  obtain ⟨length, fault?⟩ := r
  dsimp only at hlength htakes ⊢
  generalize s₁.reportAny fault? frame.location = s₂ at hlength ⊢
  have hduplication := @stills_reportAny s₂ st.unlabelled _ fun fault h =>
    Fault.isComputed_of_isEvaluated (s₂.evaluated_duplicationAmount op frame fault h)
  rw [← hlocation] at hduplication
  have hrest := hlength.trans hduplication
  exact ⟨hframe.trans hrest, hscope.later hrest.leads.earlier, hlocation, htakes s₂⟩

/-- So does entering the label. -/
theorem stills_enter (hs : s.Ready) {st : Statement} (storageOnly : Bool) {label? : Option Name}
    (hlabel : ∀ name, label? = some name → st.label? = some name) (op : DataOperand) :
    let p := s.prepareOperand st storageOnly op
    Stills st p.state (p.enter storageOnly label? op).2 := by
  intro p
  obtain ⟨hprepare, hscope, hlocation, -⟩ := stills_prepareOperand hs st storageOnly op
  have hready := hprepare.leads.ready ((s.acts_alignOperand st op).ready hs)
  unfold Preparation.enter
  cases label? with
  | none => exact .refl
  | some label => exact stills_defineLabel hready (hlabel label rfl) op _ _ hscope hlocation

/-- A length that no label takes for its attribute is only checked after that. -/
theorem stills_finish_enter (hs : s.Ready) {st : Statement} (storageOnly : Bool) {label? : Option Name}
    (hlabel : ∀ name, label? = some name → st.label? = some name) (op : DataOperand) :
    let p := s.prepareOperand st storageOnly op
    Stills st (p.enter storageOnly label? op).2 (p.finish storageOnly label? op) := by
  intro p
  obtain ⟨-, hscope, hlocation, -⟩ := stills_prepareOperand hs st storageOnly op
  have henter := stills_enter hs storageOnly hlabel op
  unfold Preparation.finish
  dsimp only
  split
  · exact .refl
  · exact stills_checkLength _ op _ _ (hscope.later henter.leads.earlier) hlocation

theorem stills_finish (hs : s.Ready) {st : Statement} (storageOnly : Bool) {label? : Option Name}
    (hlabel : ∀ name, label? = some name → st.label? = some name) (op : DataOperand) :
    let p := s.prepareOperand st storageOnly op
    Stills st p.state (p.finish storageOnly label? op) :=
  (stills_enter hs storageOnly hlabel op).trans (stills_finish_enter hs storageOnly hlabel op)

theorem acts_processOperand (hs : s.Ready) {st : Statement} (storageOnly : Bool) {label? : Option Name}
    (hlabel : ∀ name, label? = some name → st.label? = some name) {op : DataOperand}
    (hop : st.Reserves op) : Acts st s (s.processOperand st storageOnly label? op) := by
  obtain ⟨hprepare, hscope, hlocation, htakes⟩ := stills_prepareOperand hs st storageOnly op
  have hfinish := stills_finish hs storageOnly hlabel op
  rw [processOperand_eq]
  exact ((s.acts_alignOperand st op).labelled.trans (hprepare.labelled.trans hfinish).acts).tail
    (.store _ hop htakes (hscope.later hfinish.leads.earlier) hlocation)

/-- Storage that no label stands for is only checked and reserved. -/
theorem acts_storeOperand (t : Assembly) {st : Statement} (storageOnly : Bool) {op : DataOperand}
    (hop : st.Reserves op) {p : Preparation} (hscope : p.frame.Scoped t.layout.spaces)
    (hlocation : p.frame.location = st.location) (htakes : op.Takes p.duplication p.length) :
    Acts st.unlabelled t
      ((t.checkLength op p.length (op.type.lengthBounds storageOnly) p.frame).reserveStorage op none
        p.duplication p.length p.frame) := by
  have hcheck := @stills_checkLength t op p.length (op.type.lengthBounds storageOnly) _ hscope
    st.unlabelled hlocation
  exact hcheck.acts.tail (.store none hop htakes (hscope.later hcheck.leads.earlier) hlocation)

theorem acts_processOperand_none (hs : s.Ready) {st : Statement} (storageOnly : Bool) {op : DataOperand}
    (hop : st.Reserves op) : Acts st.unlabelled s (s.processOperand st storageOnly none op) := by
  obtain ⟨hprepare, hscope, hlocation, htakes⟩ := stills_prepareOperand hs st storageOnly op
  exact ((s.acts_alignOperand st op).trans hprepare.acts).trans
    (acts_storeOperand _ storageOnly hop hscope hlocation htakes)

/-- Operands without a label are carried out one after another. -/
theorem acts_operands {st : Statement} {storageOnly : Bool} {operands : List DataOperand} (hs : s.Ready)
    (hops : ∀ op ∈ operands, st.Reserves op) :
    Acts st.unlabelled s (operands.foldl (fun s op => s.processOperand st storageOnly none op) s) := by
  induction operands generalizing s with
  | nil => exact .refl
  | cons op rest ih =>
    have hop := acts_processOperand_none hs storageOnly (hops op List.mem_cons_self)
    exact hop.trans (ih (hop.ready hs) fun op h => hops op (List.mem_cons_of_mem _ h))

theorem acts_dataOperands (hs : s.Ready) {st : Statement} (storageOnly : Bool) {operands : List DataOperand}
    (hops : ∀ op ∈ operands, st.Reserves op) : Acts st s (s.processData st storageOnly operands) := by
  cases operands with
  | nil => exact .refl
  | cons first others =>
    have hfirst := @acts_processOperand s hs st storageOnly st.label? (fun _ => id) first
      (hops first List.mem_cons_self)
    exact hfirst.trans (acts_operands (hfirst.ready hs) fun op hop =>
      hops op (List.mem_cons_of_mem _ hop)).labelled

theorem acts_processData (hs : s.Ready) {st : Statement} {storageOnly : Bool}
    {operands : List DataOperand} (hdata : st.operation = .data storageOnly operands) :
    Acts st s (s.processData st storageOnly operands) :=
  acts_dataOperands hs storageOnly fun _ hop => ⟨storageOnly, _, hdata, hop⟩

/-- The state in which a machine instruction reserves its bytes. -/
def enterInstruction (s : Assembly) (st : Statement) (i : Instruction) : Assembly :=
  match st.label? with
  | none => s
  | some label =>
    let s := s.mapLayout Layout.ensureSection
    s.createSymbol
      { name := label, value? := some (.relocatable s.layout.position),
        attributes := .label .machine 'I' i.length, location := st.location }

theorem processMachine_eq {st : Statement} {i : Instruction} (hi : Instruction.find? st.opcode = some i) :
    s.processMachine st =
      ((s.align .halfword st.frame).enterInstruction st i).mapLayout (·.reserve (Int32.ofNat i.length)) := by
  unfold processMachine
  rw [hi]
  unfold enterInstruction
  cases st.label? <;> rfl

theorem stills_enterInstruction (hs : s.Ready) {st : Statement} (i : Instruction) :
    Stills st s (s.enterInstruction st i) := by
  unfold enterInstruction
  split
  · exact .refl
  · rename_i label hname
    have hsection : Still st s (s.mapLayout Layout.ensureSection) := .ensure
    exact hsection.stills.tail (still_createLabel hname
      (hsection.leads.ready hs).valid.formed.liesIn_position .machine 'I' i.length)

theorem acts_processMachine (hs : s.Ready) (st : Statement) : Acts st s (s.processMachine st) := by
  cases hi : Instruction.find? st.opcode with
  | none =>
    have hsame : s.processMachine st = s := by
      unfold processMachine
      rw [hi]
    rw [hsame]
    exact .refl
  | some i =>
    have halign : Act st s (s.align .halfword st.frame) := .align .h (scoped_frame st _) rfl
    have hlabel := @stills_enterInstruction (s.align .halfword st.frame) (halign.leads.ready hs) st i
    rw [processMachine_eq hi]
    exact (halign.acts.trans hlabel.acts).tail (.reserve i)

/-! ## 5. Statements -/

/-- Carrying out a statement is a chain of acts. -/
theorem acts_process (hs : s.Ready) (st : Statement) : Acts st s (s.process st) := by
  unfold process
  split
  · exact (stills_processEqu hs ‹_›).acts
  · exact acts_processData hs ‹_›
  · exact acts_processOrg hs ⟨_, ‹_›⟩ _
  · exact s.acts_processSection ‹_›
  · exact acts_processCounter hs ‹_›
  · exact acts_processMachine hs st
  · exact .refl

theorem leads_process (hs : s.Ready) (st : Statement) : s.Leads (s.process st) :=
  (acts_process hs st).leads

theorem leads_defineMacro (s : Assembly) (n : Name) (origin : MacroOrigin) :
    s.Leads (s.defineMacro n origin) :=
  ⟨(Run.single (.progress (.defineMacro n origin))).trans
    ((run_drain _ forall_mem_nil).imp fun _ _ => .cascade), fun _ => worklist_drain _⟩

theorem leads_defineVariable (s : Assembly) (n : Name) (v : VariableValue) :
    s.Leads (s.defineVariable n v) := ⟨.single (.progress (.defineVariable n v)), id⟩

/-! ## 6. The end of the source -/

theorem placeCounters_eq (s : Assembly) :
    s.placeCounters =
      s.resolveAll (s.layout.placements.map (·.job s.layout.counterAlignment)) := by
  have fold : ∀ (ps : List Layout.Placement) (t : Assembly),
      t.layout.counterAlignment = s.layout.counterAlignment →
      ps.foldl (fun t p => t.resolveOrDefer (.space p.space
        (.counterStart p.candidates p.sectionStart t.layout.counterAlignment)) {}) t =
          t.resolveAll (ps.map (·.job s.layout.counterAlignment)) := by
    intro ps
    induction ps with
    | nil => exact fun _ _ => rfl
    | cons p rest ih =>
      intro t ht
      have hsteady := (@run_resolveAll .reading t
        [p.job t.layout.counterAlignment]).steady.layout.2.2
      rw [List.map_cons, ← ht]
      rw [← ht] at ih
      exact ih _ hsteady
  exact fold _ s rfl

theorem resumeAll_done (s : { s : Assembly // s.worklist = [] }) :
    (resumeAll s).worklist = [] ∧ (resumeAll s).stalled = [] := by
  fun_induction resumeAll s with
  | case1 s h => exact ⟨s.property, h⟩
  | case2 s h ih => exact ih

theorem drainAll_done (s : Assembly) : s.drainAll.worklist = [] ∧ s.drainAll.stalled = [] :=
  resumeAll_done _

theorem worklist_report (s : Assembly) (fault : Fault) (location : Location) :
    (s.report fault location).worklist = s.worklist ∧ (s.report fault location).stalled = s.stalled ∧
      (s.report fault location).macros = s.macros :=
  have hqueue := (pendings_report s fault location).2
  ⟨hqueue.1, hqueue.2, (steady_addDiagnostic s (.ofFault fault location)).macros⟩

theorem worklist_reportUndefined (s : Assembly) (n : Name) (location : Location) :
    (s.reportUndefined n location).worklist = s.worklist ∧
      (s.reportUndefined n location).stalled = s.stalled ∧
      (s.reportUndefined n location).macros = s.macros := by
  unfold reportUndefined
  split
  · exact ⟨rfl, rfl, rfl⟩
  · exact worklist_report _ _ _

theorem worklist_foldl_reportUndefined (names : List Name) (s : Assembly) (location : Location) :
    (names.foldl (fun s n => s.reportUndefined n location) s).worklist = s.worklist ∧
      (names.foldl (fun s n => s.reportUndefined n location) s).stalled = s.stalled ∧
      (names.foldl (fun s n => s.reportUndefined n location) s).macros = s.macros := by
  induction names generalizing s with
  | nil => exact ⟨rfl, rfl, rfl⟩
  | cons n rest ih =>
    obtain ⟨hworklist, hstalled, hmacros⟩ := s.worklist_reportUndefined n location
    obtain ⟨hworklist', hstalled', hmacros'⟩ := ih (s.reportUndefined n location)
    exact ⟨hworklist'.trans hworklist, hstalled'.trans hstalled, hmacros'.trans hmacros⟩

/-- Explaining work only reports something. -/
theorem worklist_explain (s : Assembly) (waiting : List Prerequisite) (location : Location) :
    (s.explain waiting location).2.worklist = s.worklist ∧
      (s.explain waiting location).2.stalled = s.stalled ∧
      (s.explain waiting location).2.macros = s.macros := by
  simp only [explain]
  split
  · exact s.worklist_report _ _
  · exact worklist_foldl_reportUndefined _ _ _

/-- Whether no work is left to be tried. -/
def Done (s : Assembly) : Prop := s.worklist = [] ∧ s.stalled = []

/-- One piece of work is explained, if it produces something. -/
def explainEntry (found : List Nat × Assembly) (x : Nat × Pending Job) : List Nat × Assembly :=
  if x.2.work.task.product?.isSome then
    let r := found.2.explain x.2.waiting x.2.work.frame.location
    (if r.1 then found.1 ++ [x.1] else found.1, r.2)
  else found

theorem explainAll_eq (s : Assembly) :
    s.explainAll = s.pendings.toList.foldl explainEntry ([], s) := rfl

theorem run_foldl_explainEntry (l : List (Nat × Pending Job)) (found : List Nat × Assembly)
    (hl : ∀ x ∈ l, found.2.pendings.get? x.1 = some x.2)
    (hlog : found.2.reported ≠ [] → found.2.diagnostics ≠ []) (hdone : found.2.Done)
    (hex : found.1 ≠ [] → found.2.diagnostics ≠ []) :
    Run Ending ⟨found.2, [], .closing⟩ ⟨(l.foldl explainEntry found).2, [], .closing⟩ ∧
      (l.foldl explainEntry found).2.Done ∧
        ((l.foldl explainEntry found).1 ≠ [] →
          (l.foldl explainEntry found).2.diagnostics ≠ []) := by
  induction l generalizing found with
  | nil => exact ⟨.refl _, hdone, hex⟩
  | cons x rest ih =>
    obtain ⟨explained, t⟩ := found
    obtain ⟨id, p⟩ := x
    have hrest := fun y hy => hl y (List.mem_cons_of_mem _ hy)
    rw [List.foldl_cons]
    by_cases hsome : p.work.task.product?.isSome
    · have hentry : explainEntry (explained, t) (id, p) =
          (if (t.explain p.waiting p.work.frame.location).1 then explained ++ [id] else explained,
            (t.explain p.waiting p.work.frame.location).2) := if_pos hsome
      have hgrows := t.grows_explain p.waiting p.work.frame.location
      have hkeep := t.worklist_explain p.waiting p.work.frame.location
      have hfirst : Ending ⟨t, [], .closing⟩ ⟨(t.explain p.waiting p.work.frame.location).2, [],
          .closing⟩ := .explain (hl _ List.mem_cons_self) hsome
      rw [hentry]
      -- Work is taken as explained only once something has been reported.
      have hlogged : (if (t.explain p.waiting p.work.frame.location).1 then explained ++ [id]
          else explained) ≠ [] →
          (t.explain p.waiting p.work.frame.location).2.diagnostics ≠ [] := by
        intro hne
        split at hne
        · rename_i hyes
          exact diagnostics_explain_ne_nil hlog hyes
        · obtain ⟨more, hmore⟩ := hgrows.diagnostics
          rw [← hmore]
          exact List.append_ne_nil_of_left_ne_nil (hex hne) _
      obtain ⟨hrun, hfinal⟩ := ih (_, (t.explain p.waiting p.work.frame.location).2)
        (fun y hy => (congrArg (·.get? y.1) (t.pendings_explain _ _)).trans (hrest y hy))
        (hgrows.logged hlog) ⟨hkeep.1.trans hdone.1, hkeep.2.1.trans hdone.2⟩ hlogged
      exact ⟨(Run.single hfirst).trans hrun, hfinal⟩
    · rw [show explainEntry (explained, t) (id, p) = (explained, t) from if_neg hsome]
      exact ih (explained, t) hrest hlog hdone hex

theorem run_explainAll (hlog : s.reported ≠ [] → s.diagnostics ≠ []) (hdone : s.Done) :
    Run Ending ⟨s, [], .closing⟩ ⟨s.explainAll.2, [], .closing⟩ ∧ s.explainAll.2.Done ∧
      (s.explainAll.1 ≠ [] → s.explainAll.2.diagnostics ≠ []) := by
  rw [explainAll_eq]
  exact run_foldl_explainEntry s.pendings.toList ([], s)
    (fun x hx => Std.ExtTreeMap.mem_toList_iff_getElem?_eq_some.mp hx) hlog hdone
    fun hne => absurd rfl hne

theorem run_concludeAll (s : Assembly) (explained : List Nat) (hdone : s.Done)
    (hex : explained ≠ [] → s.diagnostics ≠ []) :
    Run Completion ⟨s, [], .closing⟩ ⟨s.concludeAll explained, [], .closing⟩ ∧
      (s.concludeAll explained).Done ∧
        (s.concludeAll explained).pendings.first? false = none := by
  fun_induction concludeAll s explained with
  | case1 s hnone => exact ⟨.refl _, hdone, hnone⟩
  | case2 s id hfirst hnone =>
    -- The oldest work can be taken.
    obtain ⟨x, hx, hid⟩ := Option.map_eq_some_iff.mp hfirst
    have hmem := List.mem_of_find?_eq_some hx
    obtain ⟨u, hu⟩ := PendingTable.exists_take?
      (Std.ExtTreeMap.mem_toList_iff_getElem?_eq_some.mp hmem)
    rw [hid, hnone] at hu
    cases hu
  | case3 s id hfirst p pendings htaken ih =>
    have hflag : id ∈ explained → ({ s with pendings } : Assembly).diagnostics ≠ [] := fun hid =>
      hex (List.ne_nil_of_mem hid)
    have hsome := PendingTable.product?_of_first? hfirst (PendingTable.take?_eq_some htaken)
    have hchoose : Run Completion ⟨s, [], .closing⟩
        ⟨{ s with pendings }, [(some id, p.work)], .closing⟩ := .single (.inr (.choose htaken))
    have hconclude : Run Completion ⟨{ s with pendings }, [(some id, p.work)], .closing⟩
        ⟨({ s with pendings } : Assembly).conclude (id ∈ explained) p.work, [], .closing⟩ :=
      .single (.inr (.conclude _ hsome hdone.1 hdone.2 fun h => hflag (of_decide_eq_true h)))
    have hcascade : Run Completion _ _ := (@run_drainAll .closing
      (({ s with pendings } : Assembly).conclude (id ∈ explained) p.work)).imp fun _ _ => .inl
    have hrun := (hchoose.trans hconclude).trans hcascade
    obtain ⟨hlast, hfinal⟩ := ih (drainAll_done _) fun hne => by
      obtain ⟨more, hmore⟩ := (hrun.imp fun _ _ => Completion.step).grows.diagnostics
      rw [← hmore]
      exact List.append_ne_nil_of_left_ne_nil (hex hne) _
    exact ⟨hrun.trans hlast, hfinal⟩

/-- The further location counters are placed. -/
theorem run_placeCounters (s : Assembly) :
    Run Cascade
      ⟨s, s.layout.placements.map fun p => (none, p.job s.layout.counterAlignment), .placing⟩
      ⟨s.placeCounters.drainAll, [], .placing⟩ := by
  rw [placeCounters_eq]
  have hjobs := @run_resolveAll .placing s
    (s.layout.placements.map (·.job s.layout.counterAlignment))
  rw [List.map_map] at hjobs
  exact hjobs.trans (run_drainAll _)

/-- At the end of the source all further counters are placed, and the jobs that wait for them are tried. -/
theorem run_placed (hf : s.finished = false) :
    Run Completion ⟨s, [], .reading⟩ ⟨s.placeCounters.drainAll, [], .placing⟩ :=
  (Run.single (.inr (.place hf))).trans (s.run_placeCounters.imp fun _ _ => .inl)

/-- When the further location counters have been placed, all pending work is explained. Then a state is reached in
which nothing is left that produces anything. -/
theorem exists_closing_of_explained (hs : s.Ready) (hf : s.finished = false) :
    let c := { s.placeCounters.drainAll with finished := true }
    Run Completion ⟨c, [], .closing⟩ ⟨c.explainAll.2, [], .closing⟩ ∧
      ∃ u : Assembly, Run Completion ⟨c.explainAll.2, [], .closing⟩ ⟨u, [], .closing⟩ ∧ u.Done ∧
        u.pendings.first? false = none ∧ s.finish = { u with pendings := u.pendings.clear } := by
  intro c
  have hfinish : s.finish = { c.explainAll.2.concludeAll c.explainAll.1 with
      pendings := (c.explainAll.2.concludeAll c.explainAll.1).pendings.clear } := by
    unfold finish
    rw [if_neg (by rw [hf]; decide)]
  have hplace := (run_placed hf).imp fun _ _ => Completion.step
  have hlog : c.reported ≠ [] → c.diagnostics ≠ [] := hplace.grows.logged (hs.logged hf)
  obtain ⟨hexplain, hdone, hex⟩ := run_explainAll (s := c) hlog s.placeCounters.drainAll_done
  obtain ⟨hconclude, hdone, hnone⟩ := run_concludeAll c.explainAll.2 c.explainAll.1 hdone hex
  exact ⟨hexplain.imp fun _ _ => .inr, _, hconclude, hdone, hnone, hfinish⟩

/-- The end of the source gets to a state in which nothing is left that produces anything. It is reached when
the further location counters have been placed. -/
theorem exists_closing_of_placed (hs : s.Ready) (hf : s.finished = false) :
    ∃ u : Assembly, Run Completion ⟨{ s.placeCounters.drainAll with finished := true }, [], .closing⟩
        ⟨u, [], .closing⟩ ∧ u.Done ∧
      u.pendings.first? false = none ∧ s.finish = { u with pendings := u.pendings.clear } := by
  obtain ⟨hexplain, u, hrun, hfinal⟩ := exists_closing_of_explained hs hf
  exact ⟨u, hexplain.trans hrun, hfinal⟩

theorem exists_closing (hs : s.Ready) (hf : s.finished = false) :
    ∃ u : Assembly, Run Completion ⟨s, [], .reading⟩ ⟨u, [], .closing⟩ ∧ u.Done ∧
      u.pendings.first? false = none ∧ s.finish = { u with pendings := u.pendings.clear } := by
  obtain ⟨u, hrun, hfinal⟩ := exists_closing_of_placed hs hf
  have hdone := s.placeCounters.drainAll_done
  have hclose : Run Completion ⟨s.placeCounters.drainAll, [], .placing⟩
      ⟨{ s.placeCounters.drainAll with finished := true }, [], .closing⟩ :=
    .single (.inr (.close hdone.1 hdone.2))
  exact ⟨u, ((run_placed hf).trans hclose).trans hrun, hfinal⟩

/-- From there the end of the source is brought to its end. -/
theorem run_of_placed (hs : s.Ready) (hf : s.finished = false) :
    Run Completion ⟨s.placeCounters.drainAll, [], .placing⟩ ⟨s.finish, [], .reading⟩ := by
  obtain ⟨u, hrun, hdone, hnone, heq⟩ := exists_closing_of_placed hs hf
  have hplaced := s.placeCounters.drainAll_done
  rw [heq]
  exact ((Run.single (.inr (.close hplaced.1 hplaced.2))).trans hrun).tail (.inr (.clear hdone.1 hdone.2 hnone))

theorem run_finish (hs : s.Ready) :
    Run Completion ⟨s, [], .reading⟩ ⟨s.finish, [], .reading⟩ ∧
      (s.worklist = [] → s.finish.worklist = []) := by
  cases hf : s.finished with
  | true =>
    rw [finish, if_pos hf]
    exact ⟨.refl _, id⟩
  | false =>
    obtain ⟨u, hrun, hdone, hnone, heq⟩ := exists_closing hs hf
    rw [heq]
    exact ⟨.tail hrun (.inr (.clear hdone.1 hdone.2 hnone)), fun _ => hdone.1⟩

theorem follows_finish (hs : s.Ready) : s.Follows s.finish :=
  have hrun := run_finish hs
  ⟨hrun.1.imp fun _ _ => Completion.step, hrun.2⟩

end Assembly

end Assembler
