import Assembler.Proofs.Anchor
import Assembler.Proofs.Record
/-!
Names that are taken.

A statement whose label is the name of a symbol reports that once and leaves all symbols alone
(`silent_of_taken`): what it does apart from its label opens new spaces, for which nothing waits, and so there is
no cascade (`Acts.silent`).
-/

namespace Assembler

theorem Fault.code_eq_redefinition {f : Fault} : f.code = "E031" ↔ ∃ kind, f = .redefinition kind := by
  cases f <;> simp [code]

/-- No computation finds that a name is taken. -/
theorem Fault.code_ne_redefinition {f : Fault} (h : f.isComputed) : f.code ≠ "E031" := by
  intro hcode
  obtain ⟨kind, rfl⟩ := code_eq_redefinition.mp hcode
  cases h

namespace Assembly

variable {s t u : Assembly} {job : Job}

/-! ## 1. Leaving symbols alone -/

/-- Whether no symbol is touched, no name is reported as taken, and no work left to be tried. -/
structure Silent (s t : Assembly) : Prop where
  symbols : t.symbols = s.symbols
  settings : t.settings = s.settings
  worklist : t.worklist = s.worklist
  diagnostics : ∃ more, t.diagnostics = s.diagnostics ++ more ∧ ∀ d ∈ more, d.code ≠ "E031"

theorem Silent.of_eq (hsymbols : t.symbols = s.symbols) (hsettings : t.settings = s.settings)
    (hworklist : t.worklist = s.worklist) (hdiagnostics : t.diagnostics = s.diagnostics) : s.Silent t :=
  ⟨hsymbols, hsettings, hworklist, [], by rw [hdiagnostics, List.append_nil], List.forall_mem_nil _⟩

theorem Silent.refl (s : Assembly) : s.Silent s := .of_eq rfl rfl rfl rfl

theorem Silent.trans (h : s.Silent t) (h' : t.Silent u) : s.Silent u := by
  obtain ⟨more, hmore, hcodes⟩ := h.diagnostics
  obtain ⟨more', hmore', hcodes'⟩ := h'.diagnostics
  refine ⟨h'.symbols.trans h.symbols, h'.settings.trans h.settings, h'.worklist.trans h.worklist,
    more ++ more', by rw [hmore', hmore, List.append_assoc], fun d hd => ?_⟩
  exact (List.mem_append.mp hd).elim (hcodes d) (hcodes' d)

theorem silent_report (s : Assembly) {f : Fault} (hf : f.code ≠ "E031") (location : Location) :
    s.Silent (s.report f location) := by
  unfold report addDiagnostic
  split
  · exact .refl s
  · exact ⟨rfl, rfl, rfl, [.ofFault f location], rfl, List.forall_mem_singleton.mpr hf⟩

/-- A job that only opens something: one for a space that nothing waits for, or a check. -/
def IsIdle (s : Assembly) (job : Job) : Prop :=
  (∃ rule, job.task = .check rule) ∨
    ∃ space rule, job.task = .space space rule ∧ s.pendings.waitersOf (.space space) = []

theorem IsIdle.product? (h : s.IsIdle job) : job.task.product? = none ∨
    ∃ space, job.task.product? = some (.space space) ∧ s.pendings.waitersOf (.space space) = [] := by
  rcases h with ⟨rule, heq⟩ | ⟨space, rule, heq, hnone⟩
  · exact .inl (by rw [heq]; rfl)
  · exact .inr ⟨space, by rw [heq]; rfl, hnone⟩

theorem IsIdle.fault_attempt (h : s.IsIdle job) (t : Assembly) {d : Definition} {fault : Fault}
    (hd : t.attempt job = .fallback d fault) : fault.isComputed := by
  rcases t.fault_attempt hd with hplain | ⟨n, e, rule, htask, -⟩ | ⟨_, _, _, _, -, rfl⟩
  · exact Fault.isComputed_of_isEvaluated hplain
  · rcases h with ⟨_, heq⟩ | ⟨_, _, heq, -⟩ <;> rw [heq] at htask <;> cases htask
  · rfl

/-- The length of a space that nothing waits for wakes nothing. -/
theorem silent_establish {d : Definition} (hd : d.product? = none ∨
    ∃ space, d.product? = some (.space space) ∧ s.pendings.waitersOf (.space space) = []) :
    s.Silent (s.establish d) := by
  unfold establish
  split
  · exact .refl s
  · rename_i t ht
    have hkeeps := keeps_define? ht
    cases d with
    | space space length =>
      have hnone : s.pendings.waitersOf (.space space) = [] := by
        rcases hd with hd | ⟨other, hother, hnone⟩
        · cases hd
        · cases hother
          exact hnone
      have hwake : t.wake (.space space) = t := wake_of_nil (hkeeps.pendings ▸ hnone)
      obtain ⟨spaces, -, rfl⟩ := Option.map_eq_some_iff.mp ht
      dsimp only [Definition.product?]
      rw [hwake]
      exact .of_eq rfl rfl rfl rfl
    | nothing => cases ht
    | value | length | scale | integer => rcases hd with hd | ⟨space, hd, -⟩ <;> cases hd

theorem silent_settle (hidle : s.IsIdle job) : s.Silent (s.settle none job) := by
  have finish : ∀ {d : Definition} {f : Fault}, d.product? = job.task.product? → f.code ≠ "E031" →
      s.Silent ((s.report f job.frame.location).establish d) := by
    intro d f hd hf
    refine (s.silent_report hf _).trans (silent_establish ?_)
    rw [hd, (alike_report s f _).pendings]
    exact hidle.product?
  unfold settle
  split
  · rename_i d hd
    have hproduct := product?_attempt (d := d) (by rw [hd]; rfl)
    exact silent_establish (hproduct ▸ hidle.product?)
  · rename_i d fault hd
    exact finish (product?_attempt (by rw [hd]; rfl)) (Fault.code_ne_redefinition (hidle.fault_attempt s hd))
  · split
    · exact finish (Task.product?_fallback _) (by decide)
    · exact .of_eq rfl rfl rfl rfl

/-! ## 2. Statements without a label -/

/-- Nothing waits for a space that has yet to be added. -/
theorem Anchored.waitersOf_eq_nil (ha : s.Anchored) (hs : s.Ready) {space : SpaceId}
    (hspace : s.layout.spaces.size ≤ space.index) : s.pendings.waitersOf (.space space) = [] := by
  refine List.eq_nil_iff_forall_not_mem.mpr fun id hid => ?_
  obtain ⟨p, hp, hkey⟩ := (hs.valid.indexed.waiters _ id).mp hid
  exact absurd (ha.waiting id p hp _ hkey) (Nat.not_lt_of_le hspace)

theorem Opens.silent {layout : Layout} {job? : Option Job} (h : s.Opens layout job?) (hs : s.Ready)
    (ha : s.Anchored) (hw : s.worklist = []) : s.Silent ({ s with layout }.resolveAll job?.toList) := by
  cases job? with
  | none => exact .of_eq rfl rfl rfl rfl
  | some job =>
    have hidle : IsIdle { s with layout } job := by
      rcases h.fresh job rfl with hcheck | ⟨space, rule, heq, hspace⟩
      · exact .inl hcheck
      · exact .inr ⟨space, rule, heq, ha.waitersOf_eq_nil hs hspace⟩
    have hsettle := silent_settle hidle
    have hdrain : { s with layout }.resolveOrDefer job.task job.frame = { s with layout }.settle none job :=
      drain_of_nil (hsettle.worklist.trans hw)
    have hlayout : s.Silent { s with layout } := .of_eq rfl rfl rfl rfl
    show s.Silent ({ s with layout }.resolveOrDefer job.task job.frame)
    rw [hdrain]
    exact hlayout.trans hsettle

variable {st : Statement}

theorem Act.silent (h : Act st.unlabelled s t) (hs : s.Ready) (ha : s.Anchored) (hw : s.worklist = []) :
    s.Silent t := by
  rcases h.cases hs with ⟨fault, hreports, rfl⟩ | ⟨layout, job?, hopens, -, rfl⟩ |
    ⟨_, _, _, -, hsupplies, -, -⟩
  · exact s.silent_report (Fault.code_ne_redefinition (Statement.isComputed_of_reports hreports)) _
  · exact hopens.silent hs ha hw
  · cases hsupplies.label

theorem Acts.silent (h : Acts st.unlabelled s t) (hs : s.Ready) (ha : s.Anchored) (hw : s.worklist = []) :
    s.Silent t := by
  induction h with
  | refl => exact .refl s
  | tail hacts hact ih =>
    exact ih.trans (hact.silent (Acts.ready hacts hs) (Acts.anchored hacts hs ha) (ih.worklist.trans hw))

/-! ## 3. Statements with a label -/

/-- Whether a statement with a label is to create a symbol of that name. A section or a counter that there is
already is gone back to. -/
def Declares (s : Assembly) (st : Statement) (label : Name) : Prop :=
  match st.operation with
  | .equ _ _ _ | .org _ => True
  | .data _ operands => operands ≠ []
  | .sectionStart kind => ∀ sect, s.layout.findSection? label = some sect →
      (s.layout.section? sect).map (·.kind) ≠ some kind
  | .counterStart => s.layout.findCounter? label = none
  | .instruction => (Instruction.find? st.opcode).isSome
  | .other => False

/-- Whether the name of the label is reported as taken in the midst of a statement, which does otherwise what it
would do without a label. -/
def Refuses (st : Statement) (s t : Assembly) : Prop :=
  ∃ u kind, Acts st.unlabelled s u ∧ Acts st.unlabelled (u.report (.redefinition kind) st.location) t

theorem Refuses.silent (h : Refuses st s t) {label : Name} (hlabel : st.label? = some label) (hs : s.Ready)
    (ha : s.Anchored) (hw : s.worklist = []) : t.symbols = s.symbols ∧
      (s.settings.maxDiagnostics = 0 →
        ∃ more, t.diagnostics = s.diagnostics ++ more ∧ more.countP (·.code = "E031") = 1) := by
  obtain ⟨u, kind, hfirst, hlast⟩ := h
  have hbefore := hfirst.silent hs ha hw
  have hready := hfirst.ready hs
  have hreport : Still st u (u.report (.redefinition kind) st.location) := still_redefinition hlabel kind
  have halike := alike_report u (.redefinition kind) st.location
  have hafter := hlast.silent (hreport.leads.ready hready) ((hfirst.anchored hs ha).alike halike)
    (hreport.leads.worklist (hbefore.worklist.trans hw))
  refine ⟨(hafter.symbols.trans halike.symbols).trans hbefore.symbols, fun hroom => ?_⟩
  obtain ⟨more, hmore, hcodes⟩ := hbefore.diagnostics
  obtain ⟨rest, hrest, hcodes'⟩ := hafter.diagnostics
  have hreported : (u.report (.redefinition kind) st.location).diagnostics =
      u.diagnostics ++ [.ofFault (.redefinition kind) st.location] := by
    unfold report addDiagnostic
    rw [if_neg (by rw [hbefore.settings, hroom]; simp)]
  have none : ∀ {ds : List Diagnostic}, (∀ d ∈ ds, d.code ≠ "E031") →
      ds.countP (·.code = "E031") = 0 := fun hds =>
    List.countP_eq_zero.mpr fun d hd => by simpa using hds d hd
  refine ⟨more ++ .ofFault (.redefinition kind) st.location :: rest, ?_, ?_⟩
  · rw [hrest, hreported, hmore]
    simp only [List.append_assoc, List.singleton_append]
  · rw [List.countP_append, List.countP_cons, none hcodes, none hcodes']
    rfl

/-- Only the first operand has the label. -/
theorem refuses_processData (hs : s.Ready) (ha : s.Anchored) (hw : s.worklist = []) {label : Name}
    (hlabel : st.label? = some label) (htaken : s.symbols.contains label) {storageOnly : Bool}
    {operands : List DataOperand} (hop : st.operation = .data storageOnly operands) (hne : operands ≠ []) :
    Refuses st s (s.processData st storageOnly operands) := by
  obtain ⟨first, others, rfl⟩ := List.exists_cons_of_ne_nil hne
  have hops : ∀ op ∈ first :: others, st.Reserves op := fun op hmem => ⟨storageOnly, _, hop, hmem⟩
  obtain ⟨hprepare, hscope, hlocation, htakes⟩ := stills_prepareOperand hs st storageOnly first
  have hprepared := (s.acts_alignOperand st first).trans hprepare.acts
  have hprocess := processOperand_eq s st storageOnly (some label) first
  generalize s.prepareOperand st storageOnly first = p at hscope hlocation htakes hprepared hprocess
  -- The scale is looked at before the label is found to be taken.
  have hscale := @stills_scaleOperand p.state st.unlabelled first p.frame hlocation
  have hfirst := hprepared.trans hscale.acts
  have hscope := hscope.later hscale.leads.earlier
  have hcontains : (p.state.scaleOperand first p.frame).2.symbols.contains
      (p.state.operandSymbol first p.length p.frame label).name := by
    rw [(hfirst.silent hs ha hw).symbols]
    exact htaken
  have henter : p.enter storageOnly (some label) first =
      (false, (p.state.scaleOperand first p.frame).2.report (.redefinition "symbol") p.frame.location) := by
    show p.state.defineLabel label first p.length _ p.frame = _
    rw [defineLabel_eq, createSymbol?_of_contains hcontains]
  refine ⟨(p.state.scaleOperand first p.frame).2, "symbol", hfirst, ?_⟩
  generalize (p.state.scaleOperand first p.frame).2 = u at hfirst hscope henter
  have hreport : Still st u (u.report (.redefinition "symbol") st.location) := still_redefinition hlabel _
  have hready := hreport.leads.ready (hfirst.ready hs)
  rw [show p.frame.location = st.location from hlocation] at henter
  have hstore := acts_storeOperand (u.report (.redefinition "symbol") st.location) storageOnly
    (hops first List.mem_cons_self) (hscope.later hreport.leads.earlier) hlocation htakes
  have hoperand : s.processOperand st storageOnly (some label) first =
      ((u.report (.redefinition "symbol") st.location).checkLength first p.length
        (first.type.lengthBounds storageOnly) p.frame).reserveStorage first none p.duplication p.length
          p.frame := by
    rw [hprocess]
    dsimp only
    rw [Preparation.finish, Preparation.label?, henter]
    rfl
  have hprocess : s.processData st storageOnly (first :: others) =
      others.foldl (fun s op => s.processOperand st storageOnly none op)
        (s.processOperand st storageOnly (some label) first) := by
    rw [processData, hlabel]
  rw [hprocess, hoperand]
  exact hstore.trans (acts_operands (hstore.ready hready) fun op hmem => hops op (List.mem_cons_of_mem _ hmem))

theorem refuses_processOrg (hs : s.Ready) {label : Name} (hlabel : st.label? = some label)
    (htaken : s.symbols.contains label) {operands : OrgOperands} (hop : st.operation = .org operands) :
    Refuses st s (s.processOrg st operands) := by
  have hsection : Still st.unlabelled s (s.mapLayout Layout.ensureSection) := .ensure
  obtain ⟨c, hc⟩ := s.layout.exists_current_ensureSection
  refine ⟨s.mapLayout Layout.ensureSection, "symbol", hsection.acts, ?_⟩
  unfold processOrg
  rw [hlabel]
  dsimp only
  rw [createSymbol_of_contains htaken]
  have hreport : Still st (s.mapLayout Layout.ensureSection)
    ((s.mapLayout Layout.ensureSection).report (.redefinition "symbol") st.location) := still_redefinition hlabel _
  exact acts_moveOrg (hreport.leads.ready (hsection.leads.ready hs))
    ((congrArg (·.current?) (alike_report _ _ _).layout).trans hc) ⟨operands, hop⟩ operands

theorem refuses_processMachine (hs : s.Ready) (ha : s.Anchored) (hw : s.worklist = []) {label : Name}
    (hlabel : st.label? = some label) (htaken : s.symbols.contains label)
    (hsome : (Instruction.find? st.opcode).isSome) : Refuses st s (s.processMachine st) := by
  obtain ⟨i, hi⟩ := Option.isSome_iff_exists.mp hsome
  have halign : Act st.unlabelled s (s.align .halfword st.frame) := .align .h (scoped_frame st _) rfl
  have htaken := (halign.silent hs ha hw).symbols ▸ htaken
  unfold processMachine
  rw [hi, hlabel]
  dsimp only
  generalize s.align .halfword st.frame = s₁ at halign htaken ⊢
  refine ⟨s₁.mapLayout Layout.ensureSection, "symbol", halign.acts.tail (.still .ensure), ?_⟩
  rw [createSymbol_of_contains htaken]
  exact (Act.reserve i).acts

theorem refuses_process (hs : s.Ready) (ha : s.Anchored) (hw : s.worklist = []) {label : Name}
    (hlabel : st.label? = some label) (htaken : s.symbols.contains label) (hdeclares : s.Declares st label) :
    Refuses st s (s.process st) := by
  have report : ∀ kind, Refuses st s (s.report (.redefinition kind) st.location) :=
    fun kind => ⟨s, kind, .refl, .refl⟩
  unfold Declares at hdeclares
  unfold process
  cases hop : st.operation with
  | equ value? length? type? =>
    obtain ⟨u, hfirst, -, hrefused, -⟩ := defineEqu_cases hs hlabel hop
    have hsame := (hfirst.acts.silent hs ha hw).symbols
    dsimp only
    rw [processEqu, hlabel]
    dsimp only
    rw [hrefused (hsame ▸ htaken)]
    exact ⟨u, "symbol", hfirst.acts, .refl⟩
  | data storageOnly operands =>
    rw [hop] at hdeclares
    exact refuses_processData hs ha hw hlabel htaken hop hdeclares
  | org operands => exact refuses_processOrg hs hlabel htaken hop
  | sectionStart kind =>
    rw [hop] at hdeclares
    dsimp only at hdeclares ⊢
    rw [processSection, hlabel]
    dsimp only
    unfold processNamedSection
    split
    · rename_i sect hsect
      rw [if_neg (hdeclares sect hsect)]
      exact report "section"
    · rw [if_pos htaken]
      exact report "section"
  | counterStart =>
    rw [hop] at hdeclares
    dsimp only at hdeclares ⊢
    rw [processCounter, hlabel]
    dsimp only
    rw [hdeclares]
    dsimp only
    rw [if_pos htaken]
    exact report "location counter"
  | instruction =>
    rw [hop] at hdeclares
    exact refuses_processMachine hs ha hw hlabel htaken hdeclares
  | other =>
    rw [hop] at hdeclares
    exact hdeclares.elim

/-- A statement that declares nothing does what it would do without a label. -/
theorem acts_process_unlabelled (hs : s.Ready)
    (hnone : ∀ label, st.label? = some label → ¬ s.Declares st label) :
    Acts st.unlabelled s (s.process st) := by
  cases hlabel : st.label? with
  | none =>
    have heq : st.unlabelled = st := by
      unfold Statement.unlabelled
      rw [← hlabel]
    rw [heq]
    exact acts_process hs st
  | some label =>
    have hnone := hnone label hlabel
    unfold Declares at hnone
    unfold process
    -- A label declares nothing if it names the section or counter that is resumed, or if nothing is
    -- processed.
    cases hop : st.operation with
    | equ | org =>
      rw [hop] at hnone
      exact absurd trivial hnone
    | data storageOnly operands =>
      rw [hop] at hnone
      rw [Classical.not_not.mp hnone]
      exact .refl
    | sectionStart kind =>
      rw [hop] at hnone
      dsimp only at hnone ⊢
      simp only [Classical.not_forall, Classical.not_not] at hnone
      obtain ⟨sect, hsect, hkind⟩ := hnone
      rw [processSection, hlabel]
      dsimp only
      unfold processNamedSection
      rw [hsect]
      dsimp only
      rw [if_pos hkind]
      exact (Act.resumeSection sect).acts
    | counterStart =>
      rw [hop] at hnone
      dsimp only at hnone ⊢
      obtain ⟨c, hc⟩ := Option.ne_none_iff_exists'.mp hnone
      rw [processCounter, hlabel]
      dsimp only
      rw [hc]
      exact (Act.resumeCounter c).acts
    | instruction =>
      rw [hop] at hnone
      dsimp only at hnone ⊢
      unfold processMachine
      rw [Option.not_isSome_iff_eq_none.mp hnone]
      exact .refl
    | other => exact .refl

end Assembly

/-! ## 4. Sessions -/

namespace Session

open Assembly

theorem anchored_new (settings : Settings) : (Assembly.new settings).Anchored where
  jobs job hc := by
    rcases hc with ⟨x, hx, -⟩ | ⟨id, p, hp, -⟩
    · cases hx
    · cases (PendingTable.get?_clear {} id).symm.trans hp
  waiting id p hp := nomatch (PendingTable.get?_clear {} id).symm.trans hp

theorem anchored_operate {s : Session} (hs : s.assembly.Ready) (ha : s.assembly.Anchored) (o : Operation) :
    (s.operate o).assembly.Anchored := by
  have kept : ∀ {t : Assembly}, t.pendings = s.assembly.pendings → t.layout = s.assembly.layout → t.Anchored :=
    fun hpendings hlayout => ha.later hpendings (hlayout ▸ .refl _) fun _ hx => nomatch hx
  cases o with
  | takeDiagnostics => exact kept rfl rfl
  | command c =>
    cases c with
    | process st => exact (acts_process hs st).anchored hs ha
    | defineMacro name origin =>
      have hwoken : Progress ⟨s.assembly, [], .reading⟩ _ := .defineMacro (Name.ofText name) origin
      exact (hs.valid.progress hwoken).anchored_run
        ((run_drain _ forall_mem_nil).imp fun _ _ => .inl) (kept rfl rfl)
    | finish => exact hs.valid.anchored_run (run_finish hs).1 ha
    | defineVariable | requestAttribute | requestVariableAttribute => exact kept rfl rfl

theorem anchored_stateAfter (settings : Settings) (operations : List Operation) :
    (stateAfter settings operations).Anchored := by
  have all : ∀ {s : Session}, s.assembly.Ready → s.assembly.Anchored →
      (s.operateAll operations).assembly.Anchored := by
    induction operations with
    | nil => exact fun _ ha => ha
    | cons o rest ih => exact fun hs ha => ih (turns_operate hs o).2.1 (anchored_operate hs ha o)
  exact all (s := new settings) (ready_new settings) (anchored_new settings)

/-- Symbols are written once and look-ups are stable, between the operations of a session and in the midst of
them. A statement that declares a name that is taken reports that once and leaves the symbols alone, and no other
statement reports it. -/
theorem persists_of_turns (settings : Settings) :
    (∀ operations more, Moment.Occurs settings ⟨stateAfter settings operations, [], .reading⟩ ∧
      Run Turn ⟨stateAfter settings operations, [], .reading⟩
        ⟨stateAfter settings (operations ++ more), [], .reading⟩) ∧
    (∀ m m' : Moment, m.Occurs settings → Run Turn m m' → m.state.Persists m'.state ∧
      ∀ n v, m.state.lookup? n = some v → m'.state.lookup? n = some v) ∧
    ∀ operations (st : Statement), let s := stateAfter settings operations
      (∀ label, st.label? = some label → s.Declares st label → s.symbols.contains label →
        (s.process st).symbols = s.symbols ∧
        (settings.maxDiagnostics = 0 → ∃ more, (s.process st).diagnostics = s.diagnostics ++ more ∧
          more.countP (·.code = "E031") = 1)) ∧
      ((∀ label, st.label? = some label → ¬ s.Declares st label) →
        (s.process st).symbols = s.symbols ∧
        ∃ more, (s.process st).diagnostics = s.diagnostics ++ more ∧ ∀ d ∈ more, d.code ≠ "E031") := by
  refine ⟨fun operations more => ⟨occurs_stateAfter settings operations,
    turns_stateAfter settings operations more⟩, fun m m' hm h => ⟨Turns.persists h, fun n v hlookup => ?_⟩,
    fun operations st => ?_⟩
  · exact Turns.lookup?_eq hm.valid h hlookup
  · intro s
    have hs : s.Ready := ready_stateAfter settings operations
    have ha : s.Anchored := anchored_stateAfter settings operations
    have hw : s.worklist = [] := worklist_stateAfter settings operations
    have hsettings : s.settings = settings := (occurs_stateAfter settings operations).settings_eq
    refine ⟨fun label hlabel hdeclares htaken => ?_, fun hnone => ?_⟩
    · have hrefused := (refuses_process hs ha hw hlabel htaken hdeclares).silent hlabel hs ha hw
      rw [hsettings] at hrefused
      exact hrefused
    · have hsilent := (acts_process_unlabelled hs hnone).silent hs ha hw
      exact ⟨hsilent.symbols, hsilent.diagnostics⟩

/-! ### The name of a section -/

def redefinition : Statement := Scaled.statement "S" "EQU" (.equ (some (.number 2)) none none)

/-- The section without its name. -/
def unnamedSection : Assembly :=
  { Assembly.new {} with layout := ((Assembly.new {}).layout.createSection (some (.ofString "S")) .executable).2 }

def namedSection : Assembly := Scaled.enter unnamedSection (Scaled.place "S" (.start ⟨0⟩) .sectionStart)

theorem stateAfter_sectionStart : stateAfter {} [.command (.process Scaled.sectionStart)] = namedSection := by
  show unnamedSection.createSymbol (Scaled.place "S" (.start ⟨0⟩) .sectionStart) = namedSection
  exact createSymbol_of_idle (by decide +kernel) (by decide +kernel) rfl

/-- A section and then EQU with the same name: the name still stands for the start of the section. -/
theorem persists_of_turns_section :
    let s := stateAfter {} [.command (.process Scaled.sectionStart)]
    (s.process redefinition).symbols = s.symbols ∧
      (∃ more, (s.process redefinition).diagnostics = s.diagnostics ++ more ∧
        more.countP (·.code = "E031") = 1) ∧
      (s.process redefinition).lookup? (.ofString "S") = some 0 := by
  intro s
  obtain ⟨hmoments, hlater, hstatements⟩ := persists_of_turns {}
  obtain ⟨hoccurs, hturns⟩ := hmoments [.command (.process Scaled.sectionStart)] [.command (.process redefinition)]
  have htaken : s.symbols.contains (.ofString "S") := by
    rw [show s = namedSection from stateAfter_sectionStart]
    decide +kernel
  have hlookup : s.lookup? (.ofString "S") = some 0 := by
    rw [show s = namedSection from stateAfter_sectionStart]
    decide +kernel
  obtain ⟨hsymbols, hreport⟩ := (hstatements [.command (.process Scaled.sectionStart)] redefinition).1
    (.ofString "S") rfl trivial htaken
  exact ⟨hsymbols, hreport rfl, (hlater _ _ hoccurs hturns).2 _ _ hlookup⟩

end Session

end Assembler
