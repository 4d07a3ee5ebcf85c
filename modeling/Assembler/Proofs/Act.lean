import Assembler.Assembly.Process
import Assembler.Proofs.Fault
import Assembler.Proofs.Growth
import Assembler.Proofs.Moment
import Mathlib.Logic.Relation
/-!
What carrying out a statement is made of.

A statement does a few things one after another: it reports, it changes the layout, it enters its label with
the jobs that fill it in, and it puts jobs for spaces and checks (`Assembly.Act`). All of them lead from one
state to the next by steps (`Assembly.Acts.leads`). Most leave the places of the counters alone
(`Assembly.Still`).
-/

namespace Assembler

namespace Layout

variable {l : Layout}

/-! ## 1. The counter in use -/

theorem Formed.placed_of_current (h : l.Formed) {c : Counter} (hc : l.current = some c) :
    c.Placed l.spaces := by
  obtain ⟨id, -, hget⟩ := Option.bind_eq_some_iff.mp hc
  exact h.places id.index c hget

theorem Formed.liesIn_position (h : l.Formed) : l.position.LiesIn l.spaces := by
  cases hc : l.current with
  | none =>
    rw [position, hc]
    exact Address.liesIn_of_spaces_nil rfl
  | some c =>
    rw [position, hc]
    exact (h.placed_of_current hc).position

theorem Formed.liesIn_candidates (h : l.Formed) : ∀ x ∈ l.candidates, x.LiesIn l.spaces := by
  intro x hx
  cases hc : l.current with
  | none =>
    rw [candidates, hc] at hx
    cases hx
  | some c =>
    rw [candidates, hc] at hx
    have hplaced := h.placed_of_current hc
    rcases List.mem_append.mp hx with hx | hx
    · exact hplaced.marks x hx
    · rw [List.mem_singleton.mp hx]
      exact hplaced.position

theorem Formed.liesIn_origin (h : l.Formed) : l.origin.LiesIn l.spaces := by
  cases hc : l.current with
  | none =>
    rw [origin, hc]
    exact Address.liesIn_of_spaces_nil rfl
  | some c =>
    rw [origin, hc]
    exact (h.placed_of_current hc).origin

theorem Formed.position_mem_candidates (h : l.Formed) {id : CounterId}
    (hid : l.current? = some id) : l.position ∈ l.candidates := by
  have hlt := h.current id hid
  have hc : l.current = some l.counters[id.index] := by
    rw [Layout.current, hid]
    exact List.getElem?_eq_getElem hlt
  rw [candidates, position, hc]
  exact List.mem_append_right _ (List.mem_singleton_self _)

end Layout

/-- Before the end of the source no name is reported as undefined. -/
theorem Moment.Valid.reported_step {m m' : Moment} (hv : m.Valid) (h : Step m m')
    (hopen : m'.state.finished = false) :
    m.state.finished = false ∧ m'.state.reported = m.state.reported := by
  have hbefore : m.state.finished = false := Bool.eq_false_iff.mpr fun hfin => by
    rw [h.grows.finished hfin] at hopen
    cases hopen
  refine ⟨hbefore, ?_⟩
  cases h with
  | cascade h => exact h.steady.reported
  | progress h => exact h.reported
  | ending h =>
    cases h with
    | place | choose | clear => rfl
    | close => cases hopen
    | explain | conclude =>
      rw [hv.closing rfl] at hbefore
      cases hbefore

namespace Assembly

variable {s t u : Assembly}

/-! ## 2. From one state to the next -/

/-- Whether a statement may be carried out next. Names are reported as undefined at the end of the source only. -/
structure Ready (s : Assembly) : Prop where
  valid : Moment.Valid ⟨s, [], .reading⟩
  unreported : s.finished = false → s.reported = []

theorem Ready.logged (hs : s.Ready) (hf : s.finished = false) : s.reported ≠ [] → s.diagnostics ≠ [] :=
  fun hne => absurd (hs.unreported hf) hne

theorem Ready.run (hs : s.Ready) (h : Run Step ⟨s, [], .reading⟩ ⟨t, [], .reading⟩) : t.Ready := by
  have hkeep := h.keeps (P := fun m => m.Valid ∧ (m.state.finished = false → m.state.reported = []))
    (fun _ _ hstep hm => ⟨hm.1.step hstep, fun hopen => by
      obtain ⟨hbefore, heq⟩ := hm.1.reported_step hstep hopen
      exact heq.trans (hm.2 hbefore)⟩) ⟨hs.valid, hs.unreported⟩
  exact ⟨hkeep.1, hkeep.2⟩

/-- Whether carrying out statements gets from one state to the other. -/
structure Leads (s t : Assembly) : Prop where
  run : Run Advance ⟨s, [], .reading⟩ ⟨t, [], .reading⟩
  worklist : s.worklist = [] → t.worklist = []

theorem Leads.refl (s : Assembly) : s.Leads s := ⟨.refl _, id⟩

theorem Leads.trans (h : s.Leads t) (h' : t.Leads u) : s.Leads u :=
  ⟨h.run.trans h'.run, h'.worklist ∘ h.worklist⟩

theorem Leads.steps (h : s.Leads t) : Run Step ⟨s, [], .reading⟩ ⟨t, [], .reading⟩ := h.run.steps

theorem Leads.ready (h : s.Leads t) (hs : s.Ready) : t.Ready :=
  hs.run h.steps

theorem Leads.earlier (h : s.Leads t) : s.layout.spaces.Earlier t.layout.spaces :=
  h.steps.grows.earlier.spaces

theorem Leads.finished (h : s.Leads t) : t.finished = s.finished :=
  h.run.keeps (P := fun m => m.state.finished = s.finished)
    (fun _ _ hstep hm => hstep.finished.trans hm) rfl

/-- Whether commands of a session get from one state to the other. -/
structure Follows (s t : Assembly) : Prop where
  run : Run Step ⟨s, [], .reading⟩ ⟨t, [], .reading⟩
  worklist : s.worklist = [] → t.worklist = []

theorem Follows.refl (s : Assembly) : s.Follows s := ⟨.refl _, id⟩

theorem Follows.trans (h : s.Follows t) (h' : t.Follows u) : s.Follows u :=
  ⟨h.run.trans h'.run, h'.worklist ∘ h.worklist⟩

theorem Follows.ready (h : s.Follows t) (hs : s.Ready) : t.Ready :=
  hs.run h.run

theorem Leads.follows (h : s.Leads t) : s.Follows t := ⟨h.steps, h.worklist⟩

theorem leads_addDiagnostic (s : Assembly) {d : Diagnostic} (hd : d.code ≠ Fault.cyclic.code) :
    s.Leads (s.addDiagnostic d) := by
  refine ⟨.single (.progress (.report d hd)), fun hw => ?_⟩
  unfold addDiagnostic
  split <;> exact hw

theorem leads_report (s : Assembly) {f : Fault} (hf : f ≠ .cyclic) (location : Location) :
    s.Leads (s.report f location) :=
  s.leads_addDiagnostic fun h => hf (Fault.code_eq_cyclic.mp h)

/-- The jobs of a list, one after another. -/
def resolveAll (s : Assembly) (jobs : List Job) : Assembly :=
  jobs.foldl (fun s job => s.resolveOrDefer job.task job.frame) s

theorem run_resolveAll {phase : Phase} (s : Assembly) (jobs : List Job) :
    Run Cascade ⟨s, jobs.map (none, ·), phase⟩ ⟨s.resolveAll jobs, [], phase⟩ := by
  induction jobs generalizing s with
  | nil => exact .refl _
  | cons job rest ih =>
    refine (run_resolveOrDefer s job fun x hx => ?_).trans (ih _)
    obtain ⟨_, -, rfl⟩ := List.mem_map.mp hx
    rfl

theorem worklist_resolveAll (jobs : List Job) (hw : s.worklist = []) :
    (s.resolveAll jobs).worklist = [] := by
  induction jobs generalizing s with
  | nil => exact hw
  | cons job rest ih => exact ih (worklist_drain _)

theorem steady_resolveAll (s : Assembly) (jobs : List Job) : s.Steady (s.resolveAll jobs) :=
  (@run_resolveAll .reading s jobs).steady

theorem Steady.current (h : s.Steady t) : t.layout.current = s.layout.current := by
  unfold Layout.current Layout.counter?
  rw [h.layout.2.1, h.counters]

theorem Steady.position (h : s.Steady t) : t.layout.position = s.layout.position := by
  simp only [Layout.position, h.current]

theorem leads_arrange {layout : Layout} {job? : Option Job} (ha : s.layout.Arranges layout job?) :
    s.Leads ({ s with layout }.resolveAll job?.toList) :=
  ⟨(Run.single (.progress (.arrange ha))).trans ((run_resolveAll _ _).imp fun _ _ => .cascade),
    fun hw => worklist_resolveAll _ hw⟩

theorem leads_layout {layout : Layout} (ha : s.layout.Arranges layout none) :
    s.Leads { s with layout } := leads_arrange ha

theorem leads_check (job : Job) (hnone : job.task.product? = none)
    (hscope : job.Scoped s.layout.spaces) : s.Leads (s.resolveOrDefer job.task job.frame) :=
  ⟨(Run.single (.progress (.check hnone hscope))).trans
    ((run_resolveAll s [job]).imp fun _ _ => .cascade), fun _ => worklist_drain _⟩

/-- A symbol is entered with the jobs that fill it in, and then these are met. -/
theorem exists_enter {sym : Symbol} {jobs : List Job} (ht : s.createSymbol? sym = some t)
    (hval : ∀ v, sym.value? = some v → v.LiesIn s.layout.spaces)
    (hscope : ∀ job ∈ jobs, job.Scoped s.layout.spaces)
    (hsub : (jobs.filterMap (·.task.product?)).Sublist sym.owed)
    (hall : ∀ key ∈ sym.owed, key ∈ jobs.filterMap (·.task.product?) ∨
      key = .attr sym.name .length) :
    ∃ symbols, s.symbols.create? sym = some symbols ∧
      Progress ⟨s, [], .reading⟩
        ⟨(provided sym).foldl wake { s with symbols }, jobs.map (none, ·), .reading⟩ ∧
      Run Cascade ⟨(provided sym).foldl wake { s with symbols }, jobs.map (none, ·), .reading⟩
        ⟨t.resolveAll jobs, [], .reading⟩ := by
  obtain ⟨symbols, hsym, rfl⟩ := Option.map_eq_some_iff.mp ht
  refine ⟨symbols, hsym, .enter hsym hval hscope hsub hall, ?_⟩
  refine (run_drain _ fun x hx => ?_).trans (run_resolveAll _ jobs)
  obtain ⟨_, -, rfl⟩ := List.mem_map.mp hx
  rfl

theorem leads_create {sym : Symbol} {jobs : List Job} (ht : s.createSymbol? sym = some t)
    (hval : ∀ v, sym.value? = some v → v.LiesIn s.layout.spaces)
    (hscope : ∀ job ∈ jobs, job.Scoped s.layout.spaces)
    (hsub : (jobs.filterMap (·.task.product?)).Sublist sym.owed)
    (hall : ∀ key ∈ sym.owed, key ∈ jobs.filterMap (·.task.product?) ∨
      key = .attr sym.name .length) :
    s.Leads (t.resolveAll jobs) := by
  obtain ⟨symbols, -, henter, hrun⟩ := exists_enter ht hval hscope hsub hall
  refine ⟨.trans (.single (.progress henter)) (hrun.imp fun _ _ => .cascade), fun _ => ?_⟩
  obtain ⟨symbols, -, rfl⟩ := Option.map_eq_some_iff.mp ht
  exact worklist_resolveAll _ (worklist_drain _)

/-! ## 3. What a statement does -/

end Assembly

/-- Whether the label of a statement is entered as `sym`, with jobs that fill in what is not known of it. -/
structure Statement.Supplies (st : Statement) (sym : Symbol) (jobs : List Job) (a : Spaces) :
    Prop where
  label : st.label? = some sym.name
  location : sym.location = st.location
  value : ∀ v, sym.value? = some v → v.LiesIn a
  inScope : ∀ job ∈ jobs, job.Scoped a
  locations : ∀ job ∈ jobs, job.frame.location = st.location
  products : (jobs.filterMap (·.task.product?)).Sublist sym.owed
  /-- Only EQU without a value leaves out the length attribute. -/
  owed : ∀ key ∈ sym.owed, key ∈ jobs.filterMap (·.task.product?) ∨
    (key = .attr sym.name .length ∧ ∃ length? type?, st.operation = .equ none length? type?)

/-- The statement without its label. -/
def Statement.unlabelled (st : Statement) : Statement := { st with label? := none }

/-- Whether a statement reports a fault at once if it meets it: one of a computation, or that its label is taken. -/
def Statement.Reports (st : Statement) (f : Fault) : Prop :=
  f.isComputed ∨ st.label?.isSome ∧ ∃ kind, f = .redefinition kind

theorem Statement.Reports.ne_cyclic {st : Statement} {f : Fault} (h : st.Reports f) : f ≠ .cyclic := by
  rcases h with h | ⟨-, kind, rfl⟩
  · exact Fault.ne_cyclic h
  · exact fun h => nomatch h

/-- Without a label there is no name that could be taken. -/
theorem Statement.isComputed_of_reports {st : Statement} {f : Fault} (h : st.unlabelled.Reports f) :
    f.isComputed :=
  h.resolve_right fun h => nomatch h.1

def Statement.IsOrg (st : Statement) : Prop := ∃ operands, st.operation = .org operands

/-- Whether a statement is a DC or DS with a given operand. -/
def Statement.Reserves (st : Statement) (op : DataOperand) : Prop :=
  ∃ storageOnly operands, st.operation = .data storageOnly operands ∧ op ∈ operands

/-- What is known of the amounts of an operand when its storage is reserved. -/
structure DataOperand.Takes (op : DataOperand) (duplication length : Amount) : Prop where
  duplication : ∀ d, duplication = .known d → 0 ≤ d
  plain : op.length? = none → length = .known (Int32.ofNat op.implicitLength)
  modified : ∀ n, length = .known n → n = Int32.ofNat op.implicitLength ∨ 1 ≤ n

namespace Assembly

/-- What leaves the place of the counter in use alone, except that a section may be started. -/
inductive Still (st : Statement) : Assembly → Assembly → Prop
  | report {s : Assembly} {f : Fault} : st.Reports f → Still st s (s.report f st.location)
  | ensure {s : Assembly} : Still st s (s.mapLayout Layout.ensureSection)
  | enter {s t : Assembly} {sym : Symbol} {jobs : List Job} : s.createSymbol? sym = some t →
    st.Supplies sym jobs s.layout.spaces → (∀ job ∈ jobs, job.task.Anchored s.layout.spaces) →
    Still st s (t.resolveAll jobs)
  | check {s : Assembly} {rule : CheckRule} {f : Frame} : rule.Anchored s.layout.spaces →
    f.Scoped s.layout.spaces → f.location = st.location →
    Still st s (s.resolveOrDefer (.check rule) f)

/-- What a statement does, piece by piece. -/
inductive Act (st : Statement) : Assembly → Assembly → Prop
  | still {s t : Assembly} : Still st s t → Act st s t
  | createSection {s : Assembly} (name? : Option Name) {kind : SectionKind} : st.operation = .sectionStart kind →
    Act st s (s.mapLayout fun l => (l.createSection name? kind).2)
  | resumeSection {s : Assembly} (sect : SectionId) : Act st s (s.mapLayout (·.resumeSection sect))
  | resumeCounter {s : Assembly} (c : CounterId) : Act st s (s.mapLayout (·.resumeCounter c))
  | createCounter {s : Assembly} (name : Name) : st.operation = .counterStart →
    Act st s (s.mapLayout fun l => (l.createCounter name).2)
  /-- Machine instructions are aligned like halfwords. -/
  | align {s : Assembly} (type : DataType) {f : Frame} : f.Scoped s.layout.spaces →
    f.location = st.location → Act st s (s.align type.alignment f)
  | reserve {s : Assembly} (i : Instruction) :
    Act st s (s.mapLayout (·.reserve (Int32.ofNat i.length)))
  | store {s : Assembly} {op : DataOperand} (label? : Option Name) {duplication length : Amount}
    {f : Frame} : st.Reserves op → op.Takes duplication length → f.Scoped s.layout.spaces →
    f.location = st.location → Act st s (s.reserveStorage op label? duplication length f)
  | moveTo {s : Assembly} {place : Address} : st.IsOrg → place.LiesIn s.layout.spaces →
    (place ∈ s.layout.candidates ∨ place.bases = s.layout.position.bases) →
    Act st s (s.mapLayout (·.moveTo place))
  | jump {s : Assembly} {rule : SpaceRule} {f : Frame} : st.IsOrg → rule.Scoped s.layout.spaces →
    rule.Anchored s.layout.spaces → f.Scoped s.layout.spaces → f.location = st.location →
    Act st s ({ s with layout := (s.layout.jump rule.kind).2 }.resolveOrDefer
      (.space (s.layout.jump rule.kind).1 rule) f)

def Stills (st : Statement) : Assembly → Assembly → Prop := Relation.ReflTransGen (Still st)

def Acts (st : Statement) : Assembly → Assembly → Prop := Relation.ReflTransGen (Act st)

variable {st : Statement}

theorem Stills.trans (h : Stills st s t) (h' : Stills st t u) : Stills st s u :=
  Relation.ReflTransGen.trans h h'

theorem Stills.tail (h : Stills st s t) (h' : Still st t u) : Stills st s u :=
  Relation.ReflTransGen.tail h h'

theorem Acts.trans (h : Acts st s t) (h' : Acts st t u) : Acts st s u :=
  Relation.ReflTransGen.trans h h'

theorem Acts.tail (h : Acts st s t) (h' : Act st t u) : Acts st s u :=
  Relation.ReflTransGen.tail h h'

theorem Stills.acts (h : Stills st s t) : Acts st s t :=
  Relation.ReflTransGen.lift id (fun _ _ => Act.still) _ _ h

theorem Still.stills (h : Still st s t) : Stills st s t := .single h

theorem Act.acts (h : Act st s t) : Acts st s t := .single h

theorem Still.acts (h : Still st s t) : Acts st s t := h.stills.acts

/-! ### Labels -/

theorem Still.labelled (h : Still st.unlabelled s t) : Still st s t := by
  cases h with
  | report hf => exact .report (.inl (Statement.isComputed_of_reports hf))
  | ensure => exact .ensure
  | enter _ hsupplies _ => cases hsupplies.label
  | check hrule hf hlocation => exact .check hrule hf hlocation

theorem Act.labelled (h : Act st.unlabelled s t) : Act st s t := by
  cases h with
  | still h => exact .still h.labelled
  | createSection name? hop => exact .createSection name? hop
  | resumeSection sect => exact .resumeSection sect
  | resumeCounter c => exact .resumeCounter c
  | createCounter name hop => exact .createCounter name hop
  | align type hf hlocation => exact .align type hf hlocation
  | reserve i => exact .reserve i
  | store label? hop htakes hf hlocation => exact .store label? hop htakes hf hlocation
  | moveTo horg hplace hplaces => exact .moveTo horg hplace hplaces
  | jump horg hrule hanchored hf hlocation => exact .jump horg hrule hanchored hf hlocation

theorem Stills.labelled (h : Stills st.unlabelled s t) : Stills st s t :=
  Relation.ReflTransGen.lift id (fun _ _ => Still.labelled) _ _ h

theorem Acts.labelled (h : Acts st.unlabelled s t) : Acts st s t :=
  Relation.ReflTransGen.lift id (fun _ _ => Act.labelled) _ _ h

/-! ### Leading from one state to the next -/

theorem leads_align (s : Assembly) (alignment : Alignment) {f : Frame}
    (hf : f.Scoped s.layout.spaces) : s.Leads (s.align alignment f) := by
  unfold align
  split
  · rename_i layout h
    exact leads_layout (Layout.arranges_align_none h)
  · rename_i p layout h
    exact leads_arrange (Layout.arranges_align_some h hf)

theorem leads_reserveStorage (s : Assembly) (op : DataOperand) (label? : Option Name)
    (duplication length : Amount) {f : Frame} (hf : f.Scoped s.layout.spaces) :
    s.Leads (s.reserveStorage op label? duplication length f) := by
  unfold reserveStorage
  split
  · exact leads_layout (s.layout.arranges_reserve _)
  · dsimp only
    generalize (if op.length?.isSome then Alignment.any else op.type.alignment) = guarantee
    exact leads_arrange (@Layout.arranges_passSpace s.layout guarantee
      (.storage (storageExpr op label? duplication length)) trivial f hf)

theorem Still.leads (h : Still st s t) : s.Leads t := by
  cases h with
  | report hf => exact s.leads_report hf.ne_cyclic _
  | ensure => exact leads_layout s.layout.arranges_ensureSection
  | enter ht hsupplies _ =>
    exact leads_create ht hsupplies.value hsupplies.inScope hsupplies.products fun key hkey =>
      (hsupplies.owed key hkey).imp_right And.left
  | @check rule f _ hf _ => exact leads_check ⟨.check rule, f⟩ rfl ⟨hf, trivial⟩

theorem Act.leads (h : Act st s t) : s.Leads t := by
  cases h with
  | still h => exact h.leads
  | @createSection name? kind _ => exact leads_layout (s.layout.arranges_createSection name? kind)
  | resumeSection sect => exact leads_layout (s.layout.arranges_resumeSection sect)
  | resumeCounter c => exact leads_layout (s.layout.arranges_resumeCounter c)
  | createCounter name => exact leads_layout (s.layout.arranges_createCounter name)
  | align type hf _ => exact s.leads_align type.alignment hf
  | reserve i => exact leads_layout (s.layout.arranges_reserve _)
  | store label? _ _ hf _ => exact s.leads_reserveStorage _ label? _ _ hf
  | moveTo _ hplace _ => exact leads_layout (s.layout.arranges_moveTo hplace)
  | jump _ hrule _ hf _ => exact leads_arrange (Layout.arranges_jump _ hrule hf)

theorem Acts.leads (h : Acts st s t) : s.Leads t := by
  induction h with
  | refl => exact .refl s
  | tail _ hact ih => exact ih.trans hact.leads

theorem Stills.leads (h : Stills st s t) : s.Leads t := h.acts.leads

theorem Acts.ready (h : Acts st s t) (hs : s.Ready) : t.Ready := h.leads.ready hs

/-! ### Jobs that are met -/

variable {s t u : Assembly}

/-- Whether some jobs are entered, which leads to `u`, and then met and carried out with the cascade. -/
structure Launches (s : Assembly) (jobs : List Job) (u t : Assembly) : Prop where
  enter : Progress ⟨s, [], .reading⟩ ⟨u, jobs.map (none, ·), .reading⟩
  pendings : u.pendings = s.pendings
  diagnostics : u.diagnostics = s.diagnostics
  cascade : Run Cascade ⟨u, jobs.map (none, ·), .reading⟩ ⟨t, [], .reading⟩

theorem Launches.finished {jobs : List Job} (h : s.Launches jobs u t) : t.finished = s.finished :=
  h.cascade.steady.finished.trans (Advance.finished (.progress h.enter))

theorem launches_arrange {layout : Layout} {job? : Option Job} (ha : s.layout.Arranges layout job?) :
    s.Launches job?.toList { s with layout } ({ s with layout }.resolveAll job?.toList) :=
  ⟨.arrange ha, rfl, rfl, run_resolveAll _ _⟩

theorem launches_check {job : Job} (hnone : job.task.product? = none) (hscope : job.Scoped s.layout.spaces) :
    s.Launches [job] s (s.resolveAll [job]) := ⟨.check hnone hscope, rfl, rfl, run_resolveAll s [job]⟩

/-- The label of a statement is entered. -/
theorem launches_supplies {sym : Symbol} {jobs : List Job}
    (hsupplies : st.Supplies sym jobs s.layout.spaces) (ht : s.createSymbol? sym = some t) :
    ∃ symbols, s.symbols.create? sym = some symbols ∧
      s.Launches jobs ((provided sym).foldl wake { s with symbols }) (t.resolveAll jobs) := by
  obtain ⟨symbols, hsym, henter, hrun⟩ := exists_enter ht hsupplies.value hsupplies.inScope
    hsupplies.products fun key hkey => (hsupplies.owed key hkey).imp_right And.left
  exact ⟨symbols, hsym, henter, (alike_foldl_wake _ _).pendings, diagnostics_foldl_wake _ _, hrun⟩

end Assembly

end Assembler
