import Assembler.Proofs.Avoidance
import Assembler.Proofs.Relocation
import Assembler.Proofs.Termination
/-!
Two assemblies side by side.

Nothing that an assembly does depends on its diagnostics or on the locations of its statements, and nothing but the
attribute `O'` depends on its macros. So two assemblies that differ in these only keep differing in these only when
they carry out the same statements, as long as none asks for `O'` of a name that is a macro in one of them only
(`Comparison.Relates`). Every function of an assembly keeps that relation, `Relates.process` and `Relates.finish`
among them.
-/

namespace Assembler

open StateTransition (mem_eval)

/-! ## 1. Comparisons -/

/-- The diagnostics with one more, unless there are as many as the settings allow. -/
def Settings.log (settings : Settings) (l : List Diagnostic) (d : Diagnostic) : List Diagnostic :=
  if 0 < settings.maxDiagnostics ∧ settings.maxDiagnostics ≤ l.length then l else l ++ [d]

theorem Assembly.addDiagnostic_eq (s : Assembly) (d : Diagnostic) :
    s.addDiagnostic d = { s with diagnostics := s.settings.log s.diagnostics d } := by
  unfold addDiagnostic Settings.log
  split <;> rfl

/-- How two assemblies may differ. -/
structure Comparison where
  /-- Where the second assembly has what the first has at a location. -/
  place : Location → Location
  /-- Counters are placed without a statement, at the location at which both start. -/
  place_start : place {} = {}
  /-- The names that may be macros of one of the two only. -/
  apart : Name → Prop
  first : Settings
  second : Settings
  maxSweeps : second.maxSweeps = first.maxSweeps
  /-- Whether diagnostics of the first assembly go with those of the second. -/
  logs : List Diagnostic → List Diagnostic → Prop
  logs_log : ∀ {l m} d, logs l m → logs (first.log l d) (second.log m (d.mapLocation place))

/-- The location at which counters are placed, where nothing is moved. -/
theorem Location.id_start : id ({} : Location) = {} := rfl

/-- Two assemblies with the same settings. -/
def Comparison.under (settings : Settings) (place : Location → Location) (place_start : place {} = {})
    (apart : Name → Prop) (logs : List Diagnostic → List Diagnostic → Prop)
    (logs_log : ∀ {l m} d, logs l m → logs (settings.log l d) (settings.log m (d.mapLocation place))) :
    Comparison where
  place := place
  place_start := place_start
  apart := apart
  first := settings
  second := settings
  maxSweeps := rfl
  logs := logs
  logs_log := logs_log

namespace Comparison

/-- Whether two assemblies differ in no other way. No work waits for whether a name that may be a macro of one of the
two only is one. -/
structure Relates (c : Comparison) (s t : Assembly) : Prop where
  first : s.settings = c.first
  second : t.settings = c.second
  logs : c.logs s.diagnostics t.diagnostics
  symbols : t.symbols = s.symbols.mapLocation c.place
  layout : t.layout = s.layout
  pendings : t.pendings = s.pendings.map (Job.mapLocation c.place)
  variableValues : t.variableValues = s.variableValues
  macros : ∀ n, ¬ c.apart n → t.macros[n]? = s.macros[n]?
  worklist : t.worklist = s.worklist
  stalled : t.stalled = s.stalled
  finished : t.finished = s.finished
  reported : t.reported = s.reported
  avoids : ∀ id p, s.pendings.get? id = some p → p.work.task.Avoids c.apart
  unawaited : ∀ n, c.apart n → s.pendings.waitersOf (.attr n .opcode) = []

namespace Relates

variable {c : Comparison} {s t : Assembly}

/-! ## 2. What both compute -/

section Same

variable (h : c.Relates s t)
include h

theorem get?_symbols (n : Name) : t.symbols.get? n = (s.symbols.get? n).map (Symbol.mapLocation c.place) := by
  rw [h.symbols, SymbolTable.get?_mapLocation]

theorem contains_symbols (n : Name) : t.symbols.contains n = s.symbols.contains n := by
  rw [h.symbols, SymbolTable.contains_mapLocation]

theorem isExhausted_eq (sweeps : Nat) : t.isExhausted sweeps = s.isExhausted sweeps := by
  unfold Assembly.isExhausted
  rw [h.first, h.second, c.maxSweeps]

theorem attributeOr_eq : t.attributeOr = s.attributeOr := by
  funext n kind value
  simp only [Assembly.attributeOr, h.finished]

theorem slotAttribute_eq : t.slotAttribute = s.slotAttribute := by
  funext kind n slot
  cases slot <;> simp only [Assembly.slotAttribute, h.attributeOr_eq]

theorem symbolAttribute_eq (kind : AttributeKind) (sym : Symbol) (f : Frame) :
    t.symbolAttribute kind (sym.mapLocation c.place) (f.mapLocation c.place) = s.symbolAttribute kind sym f := by
  cases kind <;> simp only [Assembly.symbolAttribute, h.attributeOr_eq, h.slotAttribute_eq, h.finished] <;> rfl

theorem undefinedAttribute_eq : t.undefinedAttribute = s.undefinedAttribute := by
  funext kind n
  cases kind <;> simp only [Assembly.undefinedAttribute, h.attributeOr_eq]

theorem attributeOf_eq {kind : AttributeKind} {operand : AttributeOperand}
    (he : (Expr.attr kind operand).Avoids c.apart) (f : Frame) :
    t.attributeOf kind operand (f.mapLocation c.place) = s.attributeOf kind operand f := by
  cases operand with
  | variableSymbol n => simp only [Assembly.attributeOf, Assembly.variableAttribute, h.variableValues]
  | symbol n =>
    unfold Assembly.attributeOf
    dsimp only
    split
    · rename_i hkind
      rw [Expr.Avoids, Expr.opcodeTerms, if_pos hkind] at he
      have hmacro := h.macros n (he n (List.mem_singleton_self n))
      simp only [Assembly.opcodeAttribute, hmacro, h.attributeOr_eq]
    · rw [h.get?_symbols, h.undefinedAttribute_eq]
      cases s.symbols.get? n with
      | none => rfl
      | some sym => exact h.symbolAttribute_eq kind sym f

theorem evaluateOpen_eq {e : Expr} (he : e.Avoids c.apart) (f : Frame) :
    e.evaluateOpen t.scope (f.mapLocation c.place) = e.evaluateOpen s.scope f := by
  induction e with
  | number | counter => rfl
  | symbol n =>
    have hvalue : t.scope.value? n = s.scope.value? n := by
      change (t.symbols.get? n).bind (·.value?) = (s.symbols.get? n).bind (·.value?)
      rw [h.get?_symbols]
      cases s.symbols.get? n <;> rfl
    rw [Expr.evaluateOpen, Expr.evaluateOpen, hvalue]
  | attr kind operand => exact congrArg (Evaluation.map Value.absolute) (h.attributeOf_eq he f)
  | negate e ih => exact congrArg (Evaluation.map (-·)) (ih he)
  | binary op l r ihl ihr =>
    obtain ⟨hl, hr⟩ := Expr.avoids_binary.mp he
    have hspaces : t.scope.spaces = s.scope.spaces := congrArg Layout.spaces h.layout
    rw [Expr.evaluateOpen, Expr.evaluateOpen, ihl hl, ihr hr, hspaces]

theorem evaluate_eq {e : Expr} (he : e.Avoids c.apart) (f : Frame) :
    t.evaluate e (f.mapLocation c.place) = s.evaluate e f := by
  have hspaces : t.scope.spaces = s.scope.spaces := congrArg Layout.spaces h.layout
  simp only [Assembly.evaluate, Expr.evaluate, h.evaluateOpen_eq he, hspaces]

theorem evaluateNumber_eq {e : Expr} (he : e.Avoids c.apart) (f : Frame) :
    t.evaluateNumber e (f.mapLocation c.place) = s.evaluateNumber e f :=
  congrArg (·.andThen 0 Value.toNumber) (h.evaluate_eq he f)

theorem attemptInteger_eq (n : Name) (type : DataType) : t.attemptInteger n type = s.attemptInteger n type := by
  unfold Assembly.attemptInteger
  rw [h.get?_symbols]
  cases s.symbols.get? n <;> rfl

theorem attemptSpace_eq {rule : SpaceRule} (he : ∀ e ∈ rule.expr?, e.Avoids c.apart) (space : SpaceId) (f : Frame) :
    t.attemptSpace space rule (f.mapLocation c.place) = s.attemptSpace space rule f := by
  cases rule with
  | storage e => simp only [Assembly.attemptSpace, h.evaluateNumber_eq (he e rfl)]
  | jump target position boundary offset =>
    simp only [Assembly.attemptSpace, Assembly.attemptTarget, h.evaluate_eq (he target rfl), h.layout]
  | padding | jumpToHighest | counterStart => simp only [Assembly.attemptSpace, h.layout]

theorem attemptCheck_eq {rule : CheckRule} (he : (Task.check rule).Avoids c.apart) (f : Frame) :
    t.attemptCheck rule (f.mapLocation c.place) = s.attemptCheck rule f := by
  cases rule with
  | notBelow origin target boundary offset =>
    simp only [Assembly.attemptCheck, h.evaluate_eq (he target rfl), h.layout]
  | lengthInRange e type min max => simp only [Assembly.attemptCheck, h.evaluateNumber_eq (he e rfl)]

theorem attempt_eq {job : Job} (hj : job.task.Avoids c.apart) :
    t.attempt (job.mapLocation c.place) = s.attempt job := by
  obtain ⟨task, f⟩ := job
  unfold Assembly.attempt Job.mapLocation
  cases task with
  | value n e => simp only [h.evaluate_eq (hj e rfl)]
  | length n e rule => simp only [Assembly.attemptLength, h.evaluate_eq (hj e rfl)]
  | scale n e => simp only [h.evaluateNumber_eq (hj e rfl)]
  | integer n type => simp only [h.attemptInteger_eq]
  | space space rule => simp only [h.attemptSpace_eq hj]
  | check rule => simp only [h.attemptCheck_eq hj]

theorem impliedLength_eq : t.impliedLength = s.impliedLength := by
  funext value?
  unfold Assembly.impliedLength
  split
  · rw [h.get?_symbols, Option.bind_map]
    rfl
  · rfl

theorem equLength_eq {length? : Option Expr} (he : ∀ e ∈ length?, e.Avoids c.apart) (implied : Nat) (f : Frame) :
    t.equLength length? implied (f.mapLocation c.place) = s.equLength length? implied f := by
  cases length? with
  | none => rfl
  | some e => simp only [Assembly.equLength, h.evaluate_eq (he e rfl)]

theorem equType_eq {type? : Option Expr} (he : ∀ e ∈ type?, e.Avoids c.apart) (f : Frame) :
    t.equType type? (f.mapLocation c.place) = s.equType type? f := by
  cases type? with
  | none => rfl
  | some e => simp only [Assembly.equType, h.evaluate_eq (he e rfl)]

theorem lengthAmount_eq {op : DataOperand} (he : ∀ m ∈ op.length?, m.bytes.Avoids c.apart)
    (bounds : Int32 × Int32) (f : Frame) :
    t.lengthAmount op bounds (f.mapLocation c.place) = s.lengthAmount op bounds f := by
  unfold Assembly.lengthAmount
  cases hm : op.length? with
  | none => rfl
  | some m => simp only [h.evaluateNumber_eq (he m hm)]

theorem duplicationAmount_eq {op : DataOperand} (he : ∀ e ∈ op.duplication?, e.Avoids c.apart) (f : Frame) :
    t.duplicationAmount op (f.mapLocation c.place) = s.duplicationAmount op f := by
  unfold Assembly.duplicationAmount
  cases hd : op.duplication? with
  | none => rfl
  | some e => simp only [h.evaluateNumber_eq (he e hd)]

theorem scaleSlot_eq {op : DataOperand} (he : ∀ e ∈ op.scale?, e.Avoids c.apart) (f : Frame) :
    t.scaleSlot op (f.mapLocation c.place) = s.scaleSlot op f := by
  unfold Assembly.scaleSlot
  cases hs : op.scale? with
  | none => rfl
  | some e => simp only [h.evaluateNumber_eq (he e hs)]

theorem orgBoundary?_eq {boundary? : Option Expr} (he : ∀ e ∈ boundary?, e.Avoids c.apart) (f : Frame) :
    t.orgBoundary? boundary? (f.mapLocation c.place) = s.orgBoundary? boundary? f := by
  cases boundary? with
  | none => rfl
  | some e => simp only [Assembly.orgBoundary?, h.evaluateNumber_eq (he e rfl)]

theorem orgOffset?_eq {offset? : Option Expr} (he : ∀ e ∈ offset?, e.Avoids c.apart) (f : Frame) :
    t.orgOffset? offset? (f.mapLocation c.place) = s.orgOffset? offset? f := by
  cases offset? with
  | none => rfl
  | some e => simp only [Assembly.orgOffset?, h.evaluateNumber_eq (he e rfl)]

theorem reportable?_eq : t.reportable? = s.reportable? := by
  funext root
  simp only [Assembly.reportable?, h.contains_symbols]

end Same

/-! ## 3. Reporting and cascades -/

theorem addDiagnostic (h : c.Relates s t) (d : Diagnostic) :
    c.Relates (s.addDiagnostic d) (t.addDiagnostic (d.mapLocation c.place)) := by
  have hlog := c.logs_log d h.logs
  rw [← h.first, ← h.second] at hlog
  rw [Assembly.addDiagnostic_eq, Assembly.addDiagnostic_eq]
  exact { h with logs := hlog }

theorem report (h : c.Relates s t) (f : Fault) (location : Location) :
    c.Relates (s.report f location) (t.report f (c.place location)) := h.addDiagnostic (.ofFault f location)

theorem mapLayout (h : c.Relates s t) (f : Layout → Layout) : c.Relates (s.mapLayout f) (t.mapLayout f) :=
  { h with layout := congrArg f h.layout }

theorem withLayout (h : c.Relates s t) (layout : Layout) :
    c.Relates { s with layout } { t with layout } := h.mapLayout fun _ => layout

theorem wake (h : c.Relates s t) (key : Prerequisite) : c.Relates (s.wake key) (t.wake key) := by
  have hwaiters : t.pendings.waitersOf key = s.pendings.waitersOf key := by rw [h.pendings]; rfl
  refine { h with worklist := ?_ }
  change (t.pendings.waitersOf key).foldl _ t.worklist = _
  rw [hwaiters, h.worklist]
  rfl

/-- Whether two results are both missing, or both there and in that relation. -/
def Both (c : Comparison) (s? t? : Option Assembly) : Prop :=
  (s? = none ∧ t? = none) ∨ ∃ s t, s? = some s ∧ t? = some t ∧ c.Relates s t

theorem both_map {α : Type} (o : Option α) (m : α → α) {f g : α → Assembly}
    (hfg : ∀ a, c.Relates (f a) (g (m a))) : Both c (o.map f) ((o.map m).map g) := by
  cases o with
  | none => exact .inl ⟨rfl, rfl⟩
  | some a => exact .inr ⟨f a, g (m a), rfl, rfl, hfg a⟩

theorem define? (h : c.Relates s t) (d : Definition) : Both c (s.define? d) (t.define? d) := by
  have hspaces : t.layout.spaces = s.layout.spaces := congrArg Layout.spaces h.layout
  have hsymbols (symbols : SymbolTable) : c.Relates { s with symbols }
      { t with symbols := symbols.mapLocation c.place } := { h with symbols := rfl }
  unfold Assembly.define?
  -- Locations play no part in what is filled in, so both definitions succeed or neither does.
  cases d with
  | nothing => exact .inl ⟨rfl, rfl⟩
  | value n v =>
    dsimp only
    rw [h.symbols, hspaces, SymbolTable.setValue?_mapLocation]
    exact both_map _ _ hsymbols
  | length n length =>
    dsimp only
    rw [h.symbols, SymbolTable.setLength?_mapLocation]
    exact both_map _ _ hsymbols
  | scale n scale =>
    dsimp only
    rw [h.symbols, SymbolTable.setScale?_mapLocation]
    exact both_map _ _ hsymbols
  | integer n integer =>
    dsimp only
    rw [h.symbols, SymbolTable.setInteger?_mapLocation]
    exact both_map _ _ hsymbols
  | space space length =>
    dsimp only
    rw [h.layout]
    rcases hs : s.layout.spaces.resolve? space length with _ | spaces
    · exact .inl ⟨rfl, rfl⟩
    · exact .inr ⟨_, _, rfl, rfl, h.withLayout _⟩

theorem establish (h : c.Relates s t) (d : Definition) : c.Relates (s.establish d) (t.establish d) := by
  unfold Assembly.establish
  rcases h.define? d with ⟨hs, ht⟩ | ⟨s', t', hs, ht, h'⟩ <;> rw [hs, ht]
  · exact h
  · dsimp only
    split
    · exact h'.wake _
    · exact h'

/-- Work is put into the table that does not wait for what nothing may wait for. -/
theorem reinsert (h : c.Relates s t) (id : Nat) {job : Job} (hj : job.task.Avoids c.apart)
    {waiting : List Prerequisite} (hw : ∀ key ∈ waiting, key.Spares c.apart) :
    c.Relates { s with pendings := s.pendings.reinsert id ⟨job, waiting⟩ }
      { t with pendings := t.pendings.reinsert id ⟨job.mapLocation c.place, waiting⟩ } := by
  refine { h with pendings := ?_, avoids := fun j p hp => ?_, unawaited := fun n hn => ?_ }
  · rw [h.pendings]
    exact PendingTable.reinsert_map (Job.mapLocation c.place) s.pendings (fun _ => rfl) id ⟨job, waiting⟩
  · rw [PendingTable.get?_reinsert] at hp
    split at hp
    · cases hp
      exact hj
    · exact h.avoids j p hp
  · refine List.eq_nil_iff_forall_not_mem.mpr fun j hmem => ?_
    rcases PendingTable.mem_waitersOf_reinsert.mp hmem with hold | ⟨-, hkey⟩
    · rw [h.unawaited n hn] at hold
      cases hold
    · exact hw _ hkey n hn rfl

theorem postpone (h : c.Relates s t) (id? : Option Nat) {job : Job} (hj : job.task.Avoids c.apart)
    {waiting : List Prerequisite} (hw : ∀ key ∈ waiting, key.Spares c.apart) :
    c.Relates (s.postpone id? job waiting) (t.postpone id? (job.mapLocation c.place) waiting) := by
  cases id? with
  | some id => exact h.reinsert id hj hw
  | none =>
    have hnext : t.pendings.next = s.pendings.next := by rw [h.pendings]; rfl
    have hnumbered : c.Relates { s with pendings := { s.pendings with next := s.pendings.next + 1 } }
        { t with pendings := { t.pendings with next := t.pendings.next + 1 } } :=
      { h with pendings := by rw [h.pendings]; rfl }
    unfold Assembly.postpone PendingTable.register
    dsimp only
    rw [hnext] at hnumbered ⊢
    exact hnumbered.reinsert _ hj hw

theorem settle (h : c.Relates s t) (id? : Option Nat) {job : Job} (hj : job.task.Avoids c.apart) :
    c.Relates (s.settle id? job) (t.settle id? (job.mapLocation c.place)) := by
  have hcyclic (waiting : List Prerequisite) :
      t.isCyclic (job.mapLocation c.place) waiting = s.isCyclic job waiting := by
    unfold Assembly.isCyclic
    rw [h.pendings]
    simp only [PendingTable.createsCycle_map]
    rfl
  unfold Assembly.settle
  rw [h.attempt_eq hj]
  split
  · exact h.establish _
  · exact (h.report _ _).establish _
  · rename_i waiting hblocked
    rw [hcyclic]
    split
    · exact (h.report _ _).establish _
    · exact h.postpone _ hj (s.spares_of_attempt hj hblocked)

/-- Work is taken out of the table. -/
theorem withTaken (h : c.Relates s t) {id : Nat} {p : Pending Job} {pendings : PendingTable Job}
    (htake : s.pendings.take? id = some (p, pendings)) :
    c.Relates { s with pendings } { t with pendings := pendings.map (Job.mapLocation c.place) } := by
  refine { h with pendings := rfl, avoids := fun j q hq => ?_, unawaited := fun n hn => ?_ }
  · rw [PendingTable.get?_take htake] at hq
    split at hq
    · cases hq
    · exact h.avoids j q hq
  · refine List.eq_nil_iff_forall_not_mem.mpr fun j hmem => ?_
    have hold := ((PendingTable.mem_waitersOf_take htake).mp hmem).1
    rw [h.unawaited n hn] at hold
    cases hold

theorem take?_pendings (h : c.Relates s t) (id : Nat) : t.pendings.take? id =
    (s.pendings.take? id).map fun x => (x.1.map (Job.mapLocation c.place), x.2.map (Job.mapLocation c.place)) := by
  rw [h.pendings]
  exact PendingTable.take?_map (Job.mapLocation c.place) s.pendings (fun _ => rfl) id

theorem retry (h : c.Relates s t) (id : Nat) (rest : List Nat) : c.Relates (s.retry id rest) (t.retry id rest) := by
  unfold Assembly.retry
  rw [h.take?_pendings]
  cases htake : s.pendings.take? id with
  | none => exact { h with worklist := rfl }
  | some x =>
    have htaken : c.Relates { s with worklist := rest, pendings := x.2 }
        { t with worklist := rest, pendings := x.2.map (Job.mapLocation c.place) } :=
      { h.withTaken htake with worklist := rfl }
    exact htaken.settle (some id) (h.avoids id x.1 (PendingTable.take?_eq_some htake))

theorem advance? (h : c.Relates s t) (sweeps : Nat) : Both c (s.advance? sweeps) (t.advance? sweeps) := by
  unfold Assembly.advance?
  rw [h.worklist, h.isExhausted_eq]
  split
  · exact .inl ⟨rfl, rfl⟩
  · refine .inr ⟨_, _, rfl, rfl, ?_⟩
    split
    · refine { h with worklist := rfl, stalled := ?_ }
      change t.stalled ++ t.worklist = s.stalled ++ s.worklist
      rw [h.stalled, h.worklist]
    · exact h.retry _ _

theorem drainFrom (h : c.Relates s t) (sweeps : Nat) : c.Relates (s.drainFrom sweeps) (t.drainFrom sweeps) := by
  fun_induction Assembly.drainFrom s sweeps generalizing t with
  | case1 s sweeps hnone =>
    rcases h.advance? sweeps with ⟨-, ht⟩ | ⟨s', -, hs, -⟩
    · rw [Assembly.drainFrom_of_none ht]
      exact h
    · rw [hnone] at hs
      cases hs
  | case2 s sweeps s' hsome ih =>
    rcases h.advance? sweeps with ⟨hs, -⟩ | ⟨u, t', hs, ht, h'⟩
    · rw [hsome] at hs
      cases hs
    · rw [hsome] at hs
      cases hs
      rw [Assembly.drainFrom_of_advance? ht]
      exact ih h'

theorem drain (h : c.Relates s t) : c.Relates s.drain t.drain := h.drainFrom 0

theorem resume (h : c.Relates s t) : c.Relates s.resume t.resume := by
  have hpending (id : Nat) : (t.pendings.get? id).isNone = (s.pendings.get? id).isNone := by
    rw [h.pendings, PendingTable.get?_map, Option.isNone_map]
  have hunseen (seen : Std.TreeSet Nat) (ids : List Nat) :
      t.unseenPending seen ids = s.unseenPending seen ids := by
    induction ids generalizing seen with
    | nil => rfl
    | cons id rest ih => simp only [Assembly.unseenPending, hpending, ih]
  have hready : t.readyAgain = s.readyAgain := by
    simp only [Assembly.readyAgain, h.worklist, h.stalled, hunseen]
  have hagain : c.Relates { s with worklist := s.readyAgain, stalled := [] }
      { t with worklist := t.readyAgain, stalled := [] } := { h with worklist := hready, stalled := rfl }
  exact hagain.drain

/-- Two loops whose turns keep the relation end in states in that relation. -/
theorem eval {f g : Assembly → Option Assembly} (hfg : ∀ {s t}, c.Relates s t → Both c (f s) (g t))
    (h : c.Relates s t) {u v : Assembly} (hu : u ∈ StateTransition.eval f s)
    (hv : v ∈ StateTransition.eval g t) : c.Relates u v := by
  obtain ⟨hrun, hend⟩ := mem_eval.mp hu
  induction hrun using Relation.ReflTransGen.head_induction_on generalizing t with
  | refl =>
    rcases hfg h with ⟨-, ht⟩ | ⟨s', -, hs, -⟩
    · rw [Part.mem_unique hv (mem_eval.mpr ⟨.refl, ht⟩)]
      exact h
    · rw [hend] at hs
      cases hs
  | head hstep hrest ih =>
    rcases hfg h with ⟨hs, -⟩ | ⟨s', t', hs, ht, h'⟩
    · rw [hs] at hstep
      cases hstep
    · rw [hs] at hstep
      cases hstep
      refine ih h' (mem_eval.mpr ⟨hrest, hend⟩) ?_
      rw [← StateTransition.reaches_eval (.single ht)]
      exact hv

theorem drainAll (h : c.Relates s t) : c.Relates s.drainAll t.drainAll := by
  refine eval (fun {s t} h => ?_) h.drain s.drainAll_mem_eval t.drainAll_mem_eval
  unfold Assembly.round?
  rw [h.stalled]
  split
  · exact .inl ⟨rfl, rfl⟩
  · exact .inr ⟨_, _, rfl, rfl, h.resume⟩

theorem resolveOrDefer (h : c.Relates s t) {task : Task} (htask : task.Avoids c.apart) (f : Frame) :
    c.Relates (s.resolveOrDefer task f) (t.resolveOrDefer task (f.mapLocation c.place)) := by
  have hjob : (Job.mk task f).task.Avoids c.apart := htask
  exact (h.settle none hjob).drain

theorem resolveAll (h : c.Relates s t) {jobs : List Job} (hjobs : ∀ job ∈ jobs, job.task.Avoids c.apart) :
    c.Relates (s.resolveAll jobs) (t.resolveAll (jobs.map (Job.mapLocation c.place))) := by
  induction jobs generalizing s t with
  | nil => exact h
  | cons job rest ih =>
    obtain ⟨hfirst, hrest⟩ := List.forall_mem_cons.mp hjobs
    exact ih (h.resolveOrDefer hfirst job.frame) hrest

/-! ## 4. Statements -/

theorem createSymbol? (h : c.Relates s t) (sym : Symbol) :
    Both c (s.createSymbol? sym) (t.createSymbol? (sym.mapLocation c.place)) := by
  have wakes (keys : List Prerequisite) {s t : Assembly} (h : c.Relates s t) :
      c.Relates (keys.foldl Assembly.wake s) (keys.foldl Assembly.wake t) := by
    induction keys generalizing s t with
    | nil => exact h
    | cons key rest ih => exact ih (h.wake key)
  unfold Assembly.createSymbol?
  rw [h.symbols, SymbolTable.create?_mapLocation]
  refine both_map _ _ fun symbols => ?_
  have hsymbols : c.Relates { s with symbols } { t with symbols := symbols.mapLocation c.place } :=
    { h with symbols := rfl }
  exact (wakes (Assembly.provided sym) hsymbols).drain

theorem createSymbol (h : c.Relates s t) (sym : Symbol) :
    c.Relates (s.createSymbol sym) (t.createSymbol (sym.mapLocation c.place)) := by
  unfold Assembly.createSymbol
  rcases h.createSymbol? sym with ⟨hs, ht⟩ | ⟨s', t', hs, ht, h'⟩ <;> rw [hs, ht]
  · exact h.report _ _
  · exact h'

theorem defineMacro (h : c.Relates s t) (name : Name) (origin : MacroOrigin) :
    c.Relates (s.defineMacro name origin) (t.defineMacro name origin) := by
  have hinsert : c.Relates { s with macros := s.macros.insert name origin }
      { t with macros := t.macros.insert name origin } := by
    refine { h with macros := fun n hn => ?_ }
    rw [Std.ExtTreeMap.getElem?_insert, Std.ExtTreeMap.getElem?_insert, h.macros n hn]
  exact (hinsert.wake _).drain

theorem defineVariable (h : c.Relates s t) (name : Name) (v : VariableValue) :
    c.Relates (s.defineVariable name v) (t.defineVariable name v) :=
  { h with variableValues := congrArg (·.insert name v) h.variableValues }

theorem reportAny (h : c.Relates s t) (fault? : Option Fault) (location : Location) :
    c.Relates (s.reportAny fault? location) (t.reportAny fault? (c.place location)) := by
  cases fault? with
  | none => exact h
  | some fault => exact h.report fault location

theorem frameFor (h : c.Relates s t) (st : Statement) (operands : List (Option Expr)) :
    ∃ f s' t', s.frameFor st operands = (f, s') ∧
      t.frameFor (st.mapLocation c.place) operands = (f.mapLocation c.place, t') ∧ c.Relates s' t' := by
  have h' := h.mapLayout Layout.ensureSection
  unfold Assembly.frameFor
  split
  · dsimp only
    rw [h'.layout]
    exact ⟨_, _, _, rfl, rfl, h'⟩
  · exact ⟨_, _, _, rfl, rfl, h⟩

theorem deferEquLength (h : c.Relates s t) (label : Name) {length? : Option Expr}
    (he : ∀ e ∈ length?, e.Avoids c.apart) (slot : Slot Nat) (implied : Nat) (f : Frame) :
    c.Relates (s.deferEquLength label length? slot implied f)
      (t.deferEquLength label length? slot implied (f.mapLocation c.place)) := by
  unfold Assembly.deferEquLength
  cases length? with
  | none => exact h
  | some e =>
    dsimp only
    split
    · refine h.resolveOrDefer ?_ f
      exact he
    · exact h

theorem defineEqu (h : c.Relates s t) (st : Statement) (label : Name) {value? length? type? : Option Expr}
    (hvalue : ∀ e ∈ value?, e.Avoids c.apart) (hlength : ∀ e ∈ length?, e.Avoids c.apart)
    (htype : ∀ e ∈ type?, e.Avoids c.apart) :
    c.Relates (s.defineEqu st label value? length? type?)
      (t.defineEqu (st.mapLocation c.place) label value? length? type?) := by
  obtain ⟨f, s₁, t₁, hs, ht, h₁⟩ := h.frameFor st [value?, length?, type?]
  have h₂ := h₁.reportAny (s₁.equLength length? (s₁.impliedLength value?) f).2 st.location
  have h₃ (fault?) := h₂.reportAny fault? st.location
  unfold Assembly.defineEqu
  rw [hs, ht]
  dsimp only [Statement.location_mapLocation]
  rw [h₁.impliedLength_eq, h₁.equLength_eq hlength, h₂.equType_eq htype]
  cases value? with
  | none => exact ((h₃ _).report _ _).createSymbol _
  | some value =>
    dsimp only
    rcases (h₃ _).createSymbol? _ with ⟨hs, ht⟩ | ⟨s₄, t₄, hs, ht, h₄⟩ <;>
      dsimp only [Symbol.mapLocation] at ht <;> rw [hs, ht]
    · exact (h₃ _).report _ _
    · refine (h₄.deferEquLength label hlength _ _ f).resolveOrDefer ?_ f
      exact hvalue

theorem processEqu (h : c.Relates s t) (st : Statement) {value? length? type? : Option Expr}
    (hvalue : ∀ e ∈ value?, e.Avoids c.apart) (hlength : ∀ e ∈ length?, e.Avoids c.apart)
    (htype : ∀ e ∈ type?, e.Avoids c.apart) :
    c.Relates (s.processEqu st value? length? type?)
      (t.processEqu (st.mapLocation c.place) value? length? type?) := by
  unfold Assembly.processEqu
  rw [Statement.label?_mapLocation]
  split
  · exact h.report _ _
  · exact h.defineEqu _ _ hvalue hlength htype

theorem align (h : c.Relates s t) (alignment : Alignment) (f : Frame) :
    c.Relates (s.align alignment f) (t.align alignment (f.mapLocation c.place)) := by
  unfold Assembly.align
  rw [h.layout]
  split
  · exact h.withLayout _
  · refine (h.withLayout _).resolveOrDefer ?_ f
    exact nofun

theorem deferAttributes (h : c.Relates s t) (label : Name) {op : DataOperand} (hop : op.Avoids c.apart)
    {length : Amount} (hlength : length.Avoids c.apart) (attributes : SymbolAttributes) (bounds : Int32 × Int32)
    (f : Frame) : c.Relates (s.deferAttributes label op length attributes bounds f)
      (t.deferAttributes label op length attributes bounds (f.mapLocation c.place)) := by
  have hjobs : Assembly.attributeJobs label op length attributes bounds (f.mapLocation c.place) =
      (Assembly.attributeJobs label op length attributes bounds f).map (Job.mapLocation c.place) := by
    unfold Assembly.attributeJobs Assembly.scaleJobs Assembly.integerJobs
    cases length <;> cases op.scale? <;> cases attributes.scale.isPending <;>
      cases attributes.integer.isPending <;> rfl
  rw [Assembly.deferAttributes_eq, Assembly.deferAttributes_eq, hjobs]
  exact h.resolveAll (hop.attributeJobs hlength label attributes bounds f)

theorem defineLabel (h : c.Relates s t) (label : Name) {op : DataOperand} (hop : op.Avoids c.apart)
    {length : Amount} (hlength : length.Avoids c.apart) (bounds : Int32 × Int32) (f : Frame) :
    ∃ defined s' t', s.defineLabel label op length bounds f = (defined, s') ∧
      t.defineLabel label op length bounds (f.mapLocation c.place) = (defined, t') ∧ c.Relates s' t' := by
  have h₁ := h.mapLayout Layout.ensureSection
  have h₂ := h₁.reportAny ((s.mapLayout Layout.ensureSection).scaleSlot op f).2 f.location
  unfold Assembly.defineLabel
  dsimp only [Frame.location_mapLocation]
  rw [h₁.scaleSlot_eq hop.scale, h₁.layout]
  rcases h₂.createSymbol? _ with ⟨hs, ht⟩ | ⟨s₃, t₃, hs, ht, h₃⟩ <;>
    dsimp only [Symbol.mapLocation] at ht <;> rw [hs, ht]
  · exact ⟨_, _, _, rfl, rfl, h₂.report _ _⟩
  · exact ⟨_, _, _, rfl, rfl, h₃.deferAttributes _ hop hlength _ _ _⟩

theorem checkLength (h : c.Relates s t) (op : DataOperand) {length : Amount} (hlength : length.Avoids c.apart)
    (bounds : Int32 × Int32) (f : Frame) :
    c.Relates (s.checkLength op length bounds f) (t.checkLength op length bounds (f.mapLocation c.place)) := by
  cases length with
  | known l => exact h
  | deferred e => exact h.resolveOrDefer (by rintro _ ⟨⟩; exact hlength) _

theorem reserveStorage (h : c.Relates s t) (op : DataOperand) (label? : Option Name) {duplication length : Amount}
    (hd : duplication.Avoids c.apart) (hl : length.Avoids c.apart) (f : Frame) :
    c.Relates (s.reserveStorage op label? duplication length f)
      (t.reserveStorage op label? duplication length (f.mapLocation c.place)) := by
  unfold Assembly.reserveStorage
  split
  · exact h.mapLayout _
  · rw [h.layout]
    refine (h.withLayout _).resolveOrDefer ?_ f
    rintro _ ⟨⟩
    exact Assembly.avoids_storageExpr op label? hd hl

theorem prepareOperand (h : c.Relates s t) (st : Statement) (storageOnly : Bool) {op : DataOperand}
    (hop : op.Avoids c.apart) :
    ∃ s' t' f length duplication, s.prepareOperand st storageOnly op = ⟨s', f, length, duplication⟩ ∧
      t.prepareOperand (st.mapLocation c.place) storageOnly op =
        ⟨t', f.mapLocation c.place, length, duplication⟩ ∧
      length.Avoids c.apart ∧ duplication.Avoids c.apart ∧ c.Relates s' t' := by
  have halign : c.Relates (s.alignOperand st op) (t.alignOperand (st.mapLocation c.place) op) := by
    unfold Assembly.alignOperand
    split
    · exact h
    · exact h.align _ _
  obtain ⟨f, s₁, t₁, hs, ht, h₁⟩ :=
    halign.frameFor st [op.duplication?, op.length?.map (·.expr), op.scale?, op.exponent?]
  have h₂ := h₁.reportAny (s₁.lengthAmount op (op.type.lengthBounds storageOnly) f).2 f.location
  unfold Assembly.prepareOperand
  rw [hs, ht]
  dsimp only [Frame.location_mapLocation]
  rw [h₁.lengthAmount_eq hop.length, h₂.duplicationAmount_eq hop.duplication]
  exact ⟨_, _, _, _, _, rfl, rfl, hop.lengthAmount _ _ _, hop.duplicationAmount _ _, h₂.reportAny _ _⟩

theorem enter (h : c.Relates s t) (storageOnly : Bool) (label? : Option Name) {op : DataOperand}
    (hop : op.Avoids c.apart) {length : Amount} (hlength : length.Avoids c.apart) (f : Frame)
    (duplication : Amount) :
    ∃ defined s' t', Assembly.Preparation.enter ⟨s, f, length, duplication⟩ storageOnly label? op = (defined, s') ∧
      Assembly.Preparation.enter ⟨t, f.mapLocation c.place, length, duplication⟩ storageOnly label? op =
        (defined, t') ∧ c.Relates s' t' := by
  cases label? with
  | none => exact ⟨_, _, _, rfl, rfl, h⟩
  | some label => exact h.defineLabel _ hop hlength _ _

theorem processOperand (h : c.Relates s t) (st : Statement) (storageOnly : Bool) (label? : Option Name)
    {op : DataOperand} (hop : op.Avoids c.apart) :
    c.Relates (s.processOperand st storageOnly label? op)
      (t.processOperand (st.mapLocation c.place) storageOnly label? op) := by
  obtain ⟨s₁, t₁, f, length, duplication, hs, ht, hl, hd, h₁⟩ := h.prepareOperand st storageOnly hop
  obtain ⟨defined, s₂, t₂, hs₂, ht₂, h₂⟩ := h₁.enter storageOnly label? hop hl f duplication
  rw [Assembly.processOperand_eq, Assembly.processOperand_eq, hs, ht]
  simp only [Assembly.Preparation.finish, Assembly.Preparation.label?, hs₂, ht₂]
  refine Relates.reserveStorage ?_ _ _ hd hl _
  split
  · exact h₂
  · exact h₂.checkLength _ hl _ _

theorem processData (h : c.Relates s t) (st : Statement) (storageOnly : Bool) {operands : List DataOperand}
    (hops : ∀ op ∈ operands, op.Avoids c.apart) :
    c.Relates (s.processData st storageOnly operands)
      (t.processData (st.mapLocation c.place) storageOnly operands) := by
  have fold (operands : List DataOperand) (hops : ∀ op ∈ operands, op.Avoids c.apart) {s t : Assembly}
      (h : c.Relates s t) :
      c.Relates (operands.foldl (fun s op => s.processOperand st storageOnly none op) s)
        (operands.foldl (fun s op => s.processOperand (st.mapLocation c.place) storageOnly none op) t) := by
    induction operands generalizing s t with
    | nil => exact h
    | cons op rest ih =>
      obtain ⟨hop, hrest⟩ := List.forall_mem_cons.mp hops
      exact ih hrest (h.processOperand st storageOnly none hop)
  cases operands with
  | nil => exact h
  | cons first others =>
    obtain ⟨hfirst, hothers⟩ := List.forall_mem_cons.mp hops
    exact fold others hothers (h.processOperand st storageOnly st.label? hfirst)

theorem processMachine (h : c.Relates s t) (st : Statement) :
    c.Relates (s.processMachine st) (t.processMachine (st.mapLocation c.place)) := by
  have henter (i : Instruction) {s t : Assembly} (h : c.Relates s t) :
      c.Relates (s.enterInstruction st i) (t.enterInstruction (st.mapLocation c.place) i) := by
    have hsection := h.mapLayout Layout.ensureSection
    unfold Assembly.enterInstruction
    rw [Statement.label?_mapLocation]
    split
    · exact h
    · dsimp only
      rw [hsection.layout]
      exact hsection.createSymbol _
  cases hi : Instruction.find? st.opcode with
  | none =>
    unfold Assembly.processMachine
    rw [Statement.opcode_mapLocation, hi]
    exact h
  | some i =>
    have hi' : Instruction.find? (st.mapLocation c.place).opcode = some i := hi
    rw [Assembly.processMachine_eq hi, Assembly.processMachine_eq hi']
    exact (henter i (h.align _ _)).mapLayout _

theorem definePlace (h : c.Relates s t) (name : Name) (place : Address) (origin : SymbolOrigin)
    (location : Location) :
    c.Relates (s.definePlace name place origin location)
      (t.definePlace name place origin (c.place location)) := h.createSymbol _

theorem processNamedSection (h : c.Relates s t) (name : Name) (kind : SectionKind) (location : Location) :
    c.Relates (s.processNamedSection name kind location)
      (t.processNamedSection name kind (c.place location)) := by
  unfold Assembly.processNamedSection
  rw [h.layout, h.contains_symbols]
  split
  · split
    · exact h.mapLayout _
    · exact h.report _ _
  · split
    · exact h.report _ _
    · exact (h.withLayout _).definePlace _ _ _ _

theorem processSection (h : c.Relates s t) (st : Statement) (kind : SectionKind) :
    c.Relates (s.processSection st kind) (t.processSection (st.mapLocation c.place) kind) := by
  unfold Assembly.processSection
  rw [Statement.label?_mapLocation]
  split
  · unfold Assembly.processPrivateSection
    rw [h.layout]
    split <;> exact h.mapLayout _
  · exact h.processNamedSection _ _ _

theorem processCounter (h : c.Relates s t) (st : Statement) :
    c.Relates (s.processCounter st) (t.processCounter (st.mapLocation c.place)) := by
  unfold Assembly.processCounter
  rw [Statement.label?_mapLocation]
  split
  · exact h.report _ _
  · rename_i name _
    have hcreate := h.mapLayout fun l => (l.createCounter name).2
    rw [h.layout, h.contains_symbols]
    split
    · exact h.mapLayout _
    · split
      · exact h.report _ _
      · dsimp only
        rw [hcreate.layout]
        exact hcreate.definePlace _ _ _ _

theorem moveToHighest (h : c.Relates s t) (f : Frame) :
    c.Relates (s.moveToHighest f) (t.moveToHighest (f.mapLocation c.place)) := by
  unfold Assembly.moveToHighest
  rw [h.layout]
  dsimp only
  split
  · exact h.mapLayout _
  · refine (h.withLayout _).resolveOrDefer ?_ f
    exact nofun

theorem checkNotBelow (h : c.Relates s t) (origin : Address) {target : Expr} (htarget : target.Avoids c.apart)
    (boundary : Nat) (offset : Int32) (f : Frame) :
    c.Relates (s.checkNotBelow origin target boundary offset f)
      (t.checkNotBelow origin target boundary offset (f.mapLocation c.place)) :=
  h.resolveOrDefer (by rintro _ ⟨⟩; exact htarget) f

theorem jumpToTarget (h : c.Relates s t) {target : Expr} (htarget : target.Avoids c.apart) (boundary : Nat)
    (offset : Int32) (f : Frame) :
    c.Relates (s.jumpToTarget target boundary offset f)
      (t.jumpToTarget target boundary offset (f.mapLocation c.place)) := by
  unfold Assembly.jumpToTarget
  rw [h.layout]
  exact ((h.withLayout _).resolveOrDefer (by rintro _ ⟨⟩; exact htarget) _).checkNotBelow _ htarget _ _ _

theorem moveToPlace (h : c.Relates s t) (place : Address) {target : Expr} (htarget : target.Avoids c.apart)
    (boundary : Nat) (offset : Int32) (f : Frame) :
    c.Relates (s.moveToPlace place target boundary offset f)
      (t.moveToPlace place target boundary offset (f.mapLocation c.place)) := by
  unfold Assembly.moveToPlace
  rw [h.layout]
  dsimp only
  split
  · split
    · exact h.report _ _
    · exact h.mapLayout _
  · exact (h.checkNotBelow _ htarget _ _ _).mapLayout _

theorem moveToTarget (h : c.Relates s t) {target : Expr} (htarget : target.Avoids c.apart) (boundary : Nat)
    (offset : Int32) (f : Frame) :
    c.Relates (s.moveToTarget target boundary offset f)
      (t.moveToTarget target boundary offset (f.mapLocation c.place)) := by
  unfold Assembly.moveToTarget
  rw [h.evaluate_eq htarget, h.layout]
  split
  · exact h.report _ _
  · exact h.report _ _
  · exact h.jumpToTarget htarget _ _ _
  · dsimp only
    split
    · split
      · exact h.moveToPlace _ htarget _ _ _
      · exact h.jumpToTarget htarget _ _ _
    · exact h.report _ _

theorem moveToOperands (h : c.Relates s t) (st : Statement) {target? boundary? offset? : Option Expr}
    (htarget : ∀ e ∈ target?, e.Avoids c.apart) (hboundary : ∀ e ∈ boundary?, e.Avoids c.apart)
    (hoffset : ∀ e ∈ offset?, e.Avoids c.apart) :
    c.Relates (s.moveToOperands st target? boundary? offset?)
      (t.moveToOperands (st.mapLocation c.place) target? boundary? offset?) := by
  obtain ⟨f, s₁, t₁, hs, ht, h₁⟩ := h.frameFor st [target?, boundary?, offset?]
  unfold Assembly.moveToOperands
  rw [hs, ht]
  dsimp only
  rw [h₁.orgBoundary?_eq hboundary, h₁.orgOffset?_eq hoffset]
  split
  · exact h₁.report _ _
  · split
    · exact h₁.report _ _
    · split
      · exact h₁.report _ _
      · exact h₁.moveToTarget (htarget _ rfl) _ _ _

theorem processOrg (h : c.Relates s t) (st : Statement) {operands : OrgOperands}
    (hst : ∀ e ∈ (Operation.org operands).exprs, e.Avoids c.apart) :
    c.Relates (s.processOrg st operands) (t.processOrg (st.mapLocation c.place) operands) := by
  have h₁ := h.mapLayout Layout.ensureSection
  unfold Assembly.processOrg
  dsimp only
  rw [h₁.layout, Statement.label?_mapLocation]
  cases operands with
  | highest =>
    cases st.label? with
    | none => exact h₁.moveToHighest _
    | some label => exact (h₁.createSymbol _).moveToHighest _
  | place target? boundary? offset? =>
    have hoperand (e : Expr) (he : e ∈ target? ∨ e ∈ boundary? ∨ e ∈ offset?) : e.Avoids c.apart :=
      hst e (by simpa [Operation.exprs, or_assoc] using he)
    have hmove {s t : Assembly} (h : c.Relates s t) :=
      h.moveToOperands st (fun e he => hoperand e (.inl he)) (fun e he => hoperand e (.inr (.inl he)))
        fun e he => hoperand e (.inr (.inr he))
    cases st.label? with
    | none => exact hmove h₁
    | some label => exact hmove (h₁.createSymbol _)

/-- Whatever the statement does, it does to both. -/
theorem process (h : c.Relates s t) {st : Statement} (hst : st.Avoids c.apart) :
    c.Relates (s.process st) (t.process (st.mapLocation c.place)) := by
  unfold Assembly.process
  rw [Statement.operation_mapLocation]
  unfold Statement.Avoids at hst
  cases hop : st.operation with
  | equ value? length? type? =>
    rw [hop] at hst
    have hoperand (e : Expr) (he : e ∈ value? ∨ e ∈ length? ∨ e ∈ type?) : e.Avoids c.apart :=
      hst e (by simpa [Operation.exprs, or_assoc] using he)
    exact h.processEqu st (fun e he => hoperand e (.inl he)) (fun e he => hoperand e (.inr (.inl he)))
      fun e he => hoperand e (.inr (.inr he))
  | data storageOnly operands =>
    rw [hop] at hst
    exact h.processData st storageOnly fun op hmem e he => hst e (List.mem_flatMap.mpr ⟨op, hmem, he⟩)
  | org operands =>
    rw [hop] at hst
    exact h.processOrg st hst
  | sectionStart kind => exact h.processSection st kind
  | counterStart => exact h.processCounter st
  | instruction => exact h.processMachine st
  | other => exact h

/-! ## 5. The end of the source -/

theorem reportUndefined (h : c.Relates s t) (name : Name) (location : Location) :
    c.Relates (s.reportUndefined name location) (t.reportUndefined name (c.place location)) := by
  unfold Assembly.reportUndefined
  rw [h.reported]
  split
  · exact h
  · have hnoted : c.Relates { s with reported := s.reported ++ [name] }
        { t with reported := s.reported ++ [name] } := { h with reported := rfl }
    exact hnoted.report _ _

theorem explain (h : c.Relates s t) (waiting : List Prerequisite) (location : Location) :
    ∃ accounted s' t', s.explain waiting location = (accounted, s') ∧
      t.explain waiting (c.place location) = (accounted, t') ∧ c.Relates s' t' := by
  have fold (names : List Name) {s t : Assembly} (h : c.Relates s t) :
      c.Relates (names.foldl (fun s n => s.reportUndefined n location) s)
        (names.foldl (fun s n => s.reportUndefined n (c.place location)) t) := by
    induction names generalizing s t with
    | nil => exact h
    | cons name rest ih => exact ih (h.reportUndefined _ _)
  unfold Assembly.explain
  rw [h.pendings, PendingTable.missingRoots_map]
  dsimp only
  split
  · exact ⟨_, _, _, rfl, rfl, h.report _ _⟩
  · rw [h.reportable?_eq]
    exact ⟨_, _, _, rfl, rfl, fold _ h⟩

theorem explainAll (h : c.Relates s t) :
    ∃ explained s' t', s.explainAll = (explained, s') ∧ t.explainAll = (explained, t') ∧ c.Relates s' t' := by
  have fold (l : List (Nat × Pending Job)) (explained : List Nat) {s t : Assembly}
      (h : c.Relates s t) :
      ∃ explained' s' t', l.foldl Assembly.explainEntry (explained, s) = (explained', s') ∧
        (l.map fun x => (x.1, x.2.map (Job.mapLocation c.place))).foldl Assembly.explainEntry (explained, t) =
          (explained', t') ∧ c.Relates s' t' := by
    induction l generalizing explained s t with
    | nil => exact ⟨_, _, _, rfl, rfl, h⟩
    | cons x rest ih =>
      obtain ⟨accounted, s', t', hs, ht, h'⟩ := h.explain x.2.waiting x.2.work.frame.location
      have ht : t.explain (x.2.map (Job.mapLocation c.place)).waiting
          (x.2.map (Job.mapLocation c.place)).work.frame.location = (accounted, t') := ht
      have hproduct : (x.2.map (Job.mapLocation c.place)).work.task.product? = x.2.work.task.product? := rfl
      simp only [List.map_cons, List.foldl_cons, Assembly.explainEntry, hs, ht, hproduct]
      split
      · exact ih _ h'
      · exact ih _ h
  rw [Assembly.explainAll_eq, Assembly.explainAll_eq, h.pendings, PendingTable.toList_map]
  exact fold _ _ h

theorem conclude (h : c.Relates s t) (explained : Bool) {job : Job} (hj : job.task.Avoids c.apart) :
    c.Relates (s.conclude explained job) (t.conclude explained (job.mapLocation c.place)) := by
  unfold Assembly.conclude
  rw [h.attempt_eq hj]
  split
  · exact h.establish _
  · exact (h.report _ _).establish _
  · rename_i waiting _
    obtain ⟨accounted, s', t', hs, ht, h'⟩ := h.explain waiting job.frame.location
    have ht : t.explain waiting (job.mapLocation c.place).frame.location = (accounted, t') := ht
    dsimp only
    rw [hs, ht]
    split
    · exact h.establish _
    · refine Relates.establish ?_ _
      split
      · exact h'
      · exact h'.report _ _

theorem turn? (h : c.Relates s t) (explained : List Nat) : Both c (s.turn? explained) (t.turn? explained) := by
  have hfirst : t.pendings.first? false = s.pendings.first? false := by
    rw [h.pendings]
    exact PendingTable.first?_map (Job.mapLocation c.place) s.pendings (fun _ => rfl) false
  unfold Assembly.turn?
  rw [hfirst]
  cases s.pendings.first? false with
  | none => exact .inl ⟨rfl, rfl⟩
  | some id =>
    simp only [Option.bind_eq_bind, Option.bind_some]
    rw [h.take?_pendings]
    cases htake : s.pendings.take? id with
    | none => exact .inl ⟨rfl, rfl⟩
    | some x =>
      have hjob := h.avoids id x.1 (PendingTable.take?_eq_some htake)
      exact .inr ⟨_, _, rfl, rfl, ((h.withTaken htake).conclude _ hjob).drainAll⟩

theorem concludeAll (h : c.Relates s t) (explained : List Nat) :
    c.Relates (s.concludeAll explained) (t.concludeAll explained) :=
  eval (fun h => h.turn? explained) h (s.concludeAll_mem_eval explained) (t.concludeAll_mem_eval explained)

theorem placeCounters (h : c.Relates s t) : c.Relates s.placeCounters t.placeCounters := by
  have hstart : Frame.mapLocation c.place {} = {} := by
    unfold Frame.mapLocation
    rw [c.place_start]
  have fold (l : List Layout.Placement) {s t : Assembly} (h : c.Relates s t) :
      c.Relates
        (l.foldl (fun s p => s.resolveOrDefer
          (.space p.space (.counterStart p.candidates p.sectionStart s.layout.counterAlignment)) {}) s)
        (l.foldl (fun s p => s.resolveOrDefer
          (.space p.space (.counterStart p.candidates p.sectionStart s.layout.counterAlignment)) {}) t) := by
    induction l generalizing s t with
    | nil => exact h
    | cons p rest ih =>
      have htask : (Task.space p.space
          (.counterStart p.candidates p.sectionStart s.layout.counterAlignment)).Avoids c.apart := nofun
      have hplaced := h.resolveOrDefer htask {}
      rw [hstart] at hplaced
      simp only [List.foldl_cons, h.layout]
      exact ih hplaced
  unfold Assembly.placeCounters
  rw [h.layout]
  exact fold _ h

/-- Whatever is done at the end of the source is done to both. -/
theorem finish (h : c.Relates s t) : c.Relates s.finish t.finish := by
  have hclosed : c.Relates { s.placeCounters.drainAll with finished := true }
      { t.placeCounters.drainAll with finished := true } := { h.placeCounters.drainAll with finished := rfl }
  obtain ⟨explained, s', t', hs, ht, h'⟩ := hclosed.explainAll
  have hend := h'.concludeAll explained
  unfold Assembly.finish
  dsimp only
  rw [h.finished, hs, ht]
  split
  · exact h
  · refine { hend with pendings := ?_, avoids := fun id p hp => ?_, unawaited := fun n hn => ?_ }
    · change (t'.concludeAll explained).pendings.clear = _
      rw [hend.pendings]
      exact PendingTable.clear_map _ _
    · rw [PendingTable.get?_clear] at hp
      cases hp
    · rfl

end Relates

end Comparison

end Assembler
