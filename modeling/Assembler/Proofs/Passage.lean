import Assembler.Program
import Assembler.Proofs.Comparison
/-!
Programs, one line after another.

The lines of a source are taken in one by one (`Program.pass`). Between two of them the assembly is ready for a
statement and no work is left to be tried (`Program.Ready`). Two programs that take in the same lines, with other
numbers perhaps, stay comparable as long as their statements do not ask for what sets them apart
(`Program.Relates.pass`).
-/

namespace Assembler

/-- Whether a line is a comment or blank. -/
def Source.Line.isIdle : Source.Line → Bool
  | .instruction _ => false
  | _ => true

/-- Whether the expressions of a line, as far as it is a statement, ask for none of some names what operation code it
is. -/
def Source.Line.Avoids (ns : Name → Prop) (line : Source.Line) : Prop :=
  ∀ fields location st, line = .instruction fields → (Statement.read fields location).result = .ok st → st.Avoids ns

/-- Where the line stands makes no difference to that. -/
theorem Source.Line.avoids_of_read {ns : Name → Prop} {fields : Source.Fields} {st : Statement}
    (hread : (Statement.read fields {}).result = .ok st) (hst : st.Avoids ns) :
    (Source.Line.instruction fields).Avoids ns := by
  intro _ location st' heq hread'
  cases heq
  have hmoved : (Statement.read fields location).result = _ :=
    Statement.result_read_mapLocation (fun _ => location) fields {}
  rw [hmoved, hread] at hread'
  cases hread'
  exact hst

namespace Program

variable {p q : Program} {c : Comparison}

/-! ## 1. Taking in lines -/

def start (settings : Settings) : Program := { session := .new settings }

/-- The state after some more lines. -/
def pass (p : Program) (lines : List (Nat × Source.Line)) : Program :=
  lines.foldl (fun p numbered => p.line numbered.1 numbered.2) p

theorem pass_append (p : Program) (before after : List (Nat × Source.Line)) :
    p.pass (before ++ after) = (p.pass before).pass after := List.foldl_append

/-- Comments and blank lines do nothing. -/
theorem pass_of_isIdle {lines : List (Nat × Source.Line)} (h : ∀ x ∈ lines, x.2.isIdle) : p.pass lines = p := by
  induction lines generalizing p with
  | nil => rfl
  | cons numbered rest ih =>
    obtain ⟨hline, hrest⟩ := List.forall_mem_cons.mp h
    obtain ⟨number, line⟩ := numbered
    cases line with
    | comment | blank => exact ih hrest
    | instruction fields => cases hline

/-- The report on a line that cannot be read as a statement. -/
def unreadable (e : ReadError) (location : Location) : Diagnostic :=
  { code := Fault.unevaluable.code, message := e.message, location }

/-- A statement that can be read is carried out. -/
theorem process_of_ok {fields : Source.Fields} {location : Location} {st : Statement}
    (h : (Statement.read fields location).result = .ok st) :
    (p.process fields location).session.assembly = p.session.assembly.process st ∧
      (p.process fields location).depth = p.depth ∧ (p.process fields location).atPrototype = p.atPrototype := by
  simp [process, Session.processLine, Session.read, Session.mapAssembly, Session.mentionAll, h]

/-- Of a statement that cannot be read there is only the report. -/
theorem process_of_error {fields : Source.Fields} {location : Location} {e : ReadError}
    (h : (Statement.read fields location).result = .error e) :
    (p.process fields location).session.assembly = p.session.assembly.addDiagnostic (unreadable e location) ∧
      (p.process fields location).depth = p.depth ∧ (p.process fields location).atPrototype = p.atPrototype := by
  simp [process, Session.processLine, Session.read, Session.mapAssembly, Session.mentionAll, h, unreadable]

/-- What a line is taken for, from where it stands with respect to macro definitions. -/
inductive Reception
  | prototype
  | macroStart
  | macroEnd
  | statement
  | passed

/-- What the program does with an instruction line of a given operation code. -/
def reception (p : Program) (opcode : Text) : Reception :=
  if p.atPrototype then .prototype
  else
    match Directive.roleOf? (.ofText opcode) with
    | some .macroStart => .macroStart
    | some .macroEnd => if p.depth = 0 then .statement else .macroEnd
    | some .conditional => .passed
    | _ => if p.depth = 0 then .statement else .passed

theorem instruction_eq (p : Program) (fields : Source.Fields) (location : Location) :
    p.instruction fields location =
      match p.reception fields.opcode with
      | .prototype => p.passPrototype fields.opcode
      | .macroStart => { p with depth := p.depth + 1, atPrototype := true }
      | .macroEnd => { p with depth := p.depth - 1 }
      | .statement => p.process fields location
      | .passed => p := by
  unfold instruction reception
  cases p.atPrototype with
  | true => rfl
  | false =>
    simp only [Bool.false_eq_true, if_false]
    cases hrole : Directive.roleOf? (.ofText fields.opcode) with
    | none => dsimp only; split <;> rfl
    | some role => cases role <;> dsimp only <;> split <;> rfl

/-! ## 2. Between lines -/

/-- Whether the next line may be taken in. -/
structure Ready (p : Program) : Prop where
  assembly : p.session.assembly.Ready
  worklist : p.session.assembly.worklist = []
  /-- The prototype of a macro is in the macro. -/
  inside : p.atPrototype = true → 0 < p.depth

theorem ready_start (settings : Settings) : (start settings).Ready :=
  ⟨Session.ready_new settings, rfl, nofun⟩

theorem Ready.of_leads (h : p.Ready) (hlead : p.session.assembly.Leads q.session.assembly)
    (hinside : q.atPrototype = true → 0 < q.depth) : q.Ready :=
  ⟨hlead.ready h.assembly, hlead.worklist h.worklist, hinside⟩

theorem Ready.process (h : p.Ready) (fields : Source.Fields) (location : Location) :
    (p.process fields location).Ready := by
  cases hread : (Statement.read fields location).result with
  | ok st =>
    obtain ⟨hassembly, hdepth, hproto⟩ := process_of_ok (p := p) hread
    refine h.of_leads ?_ (by rw [hdepth, hproto]; exact h.inside)
    rw [hassembly]
    exact Assembly.leads_process h.assembly st
  | error e =>
    obtain ⟨hassembly, hdepth, hproto⟩ := process_of_error (p := p) hread
    refine h.of_leads ?_ (by rw [hdepth, hproto]; exact h.inside)
    rw [hassembly]
    have hcode : (unreadable e location).code ≠ Fault.cyclic.code := by
      change Fault.unevaluable.code ≠ Fault.cyclic.code
      decide
    exact p.session.assembly.leads_addDiagnostic hcode

theorem Ready.passPrototype (h : p.Ready) (opcode : Text) : (p.passPrototype opcode).Ready := by
  refine h.of_leads ?_ nofun
  change p.session.assembly.Leads (if p.depth = 1 then p.session.defineMacro opcode .source else p.session).assembly
  split
  · exact p.session.assembly.leads_defineMacro _ _
  · exact .refl _

theorem Ready.line (h : p.Ready) (number : Nat) (line : Source.Line) : (p.line number line).Ready := by
  cases line with
  | comment | blank => exact h
  | instruction fields =>
    change (p.instruction fields _).Ready
    rw [instruction_eq]
    cases hreception : p.reception fields.opcode with
    | prototype => exact h.passPrototype _
    | macroStart => exact h.of_leads (.refl _) fun _ => Nat.succ_pos _
    | macroEnd =>
      have hproto : p.atPrototype = false := by
        unfold reception at hreception
        cases hp : p.atPrototype with
        | false => rfl
        | true => rw [hp, if_pos rfl] at hreception; cases hreception
      exact h.of_leads (.refl _) fun hin => by rw [hproto] at hin; cases hin
    | statement => exact h.process _ _
    | passed => exact h

theorem Ready.pass (h : p.Ready) (lines : List (Nat × Source.Line)) : (p.pass lines).Ready := by
  induction lines generalizing p with
  | nil => exact h
  | cons numbered rest ih => exact ih (h.line numbered.1 numbered.2)

/-- Outside of macros the next line is not a prototype. -/
theorem Ready.atPrototype_eq (h : p.Ready) (hdepth : p.depth = 0) : p.atPrototype = false :=
  Bool.eq_false_iff.mpr fun hproto => by
    have hinside := h.inside hproto
    omega

/-! ## 3. Two programs side by side -/

/-- Whether two programs are at the same line and their assemblies can be compared. -/
structure Relates (c : Comparison) (p q : Program) : Prop where
  assembly : c.Relates p.session.assembly q.session.assembly
  depth : q.depth = p.depth
  atPrototype : q.atPrototype = p.atPrototype

namespace Relates

/-- Nothing sets two programs apart at their start. -/
theorem start {settings : Settings} (hfirst : c.first = settings) (hsecond : c.second = settings)
    (hlogs : c.logs [] []) : Relates c (start settings) (start settings) := by
  refine ⟨?_, rfl, rfl⟩
  exact
    { first := hfirst.symm, second := hsecond.symm, logs := hlogs
      symbols := (SymbolTable.mapLocation_empty c.place).symm, layout := rfl
      pendings := (PendingTable.map_empty _).symm, variableValues := rfl, macros := fun _ _ => rfl, worklist := rfl
      stalled := rfl, finished := rfl, reported := rfl, avoids := fun id p hp => nomatch hp
      unawaited := fun _ _ => rfl }

theorem reception_eq (h : Relates c p q) (opcode : Text) : q.reception opcode = p.reception opcode := by
  unfold reception
  rw [h.depth, h.atPrototype]

theorem process (h : Relates c p q) {fields : Source.Fields} {location : Location}
    (hline : (Source.Line.instruction fields).Avoids c.apart) :
    Relates c (p.process fields location) (q.process fields (c.place location)) := by
  have hmoved := Statement.result_read_mapLocation c.place fields location
  cases hread : (Statement.read fields location).result with
  | ok st =>
    rw [hread] at hmoved
    obtain ⟨hp, hpdepth, hpproto⟩ := process_of_ok (p := p) hread
    obtain ⟨hq, hqdepth, hqproto⟩ := process_of_ok (p := q) hmoved
    refine ⟨?_, by rw [hpdepth, hqdepth, h.depth], by rw [hpproto, hqproto, h.atPrototype]⟩
    rw [hp, hq]
    exact h.assembly.process (hline fields location st rfl hread)
  | error e =>
    rw [hread] at hmoved
    obtain ⟨hp, hpdepth, hpproto⟩ := process_of_error (p := p) hread
    obtain ⟨hq, hqdepth, hqproto⟩ := process_of_error (p := q) hmoved
    refine ⟨?_, by rw [hpdepth, hqdepth, h.depth], by rw [hpproto, hqproto, h.atPrototype]⟩
    rw [hp, hq]
    exact h.assembly.addDiagnostic (unreadable e location)

theorem line (h : Relates c p q) {number number' : Nat}
    (hplace : c.place { line := number - 1 } = { line := number' - 1 }) {line : Source.Line}
    (hline : line.Avoids c.apart) : Relates c (p.line number line) (q.line number' line) := by
  cases line with
  | comment | blank => exact h
  | instruction fields =>
    change Relates c (p.instruction fields _) (q.instruction fields _)
    rw [instruction_eq, instruction_eq, h.reception_eq, ← hplace]
    cases p.reception fields.opcode with
    | prototype =>
      refine ⟨?_, h.depth, rfl⟩
      change c.Relates (if p.depth = 1 then p.session.defineMacro fields.opcode .source else p.session).assembly
        (if q.depth = 1 then q.session.defineMacro fields.opcode .source else q.session).assembly
      rw [h.depth]
      split
      · exact h.assembly.defineMacro _ _
      · exact h.assembly
    | macroStart => exact ⟨h.assembly, congrArg (· + 1) h.depth, rfl⟩
    | macroEnd => exact ⟨h.assembly, congrArg (· - 1) h.depth, h.atPrototype⟩
    | statement => exact h.process hline
    | passed => exact h

/-- Both programs take in the same lines, each with numbers of its own. -/
theorem pass (h : Relates c p q) (f : Nat → Nat) {lines : List (Nat × Source.Line)}
    (hplace : ∀ x ∈ lines, c.place { line := x.1 - 1 } = { line := f x.1 - 1 })
    (hlines : ∀ x ∈ lines, x.2.Avoids c.apart) :
    Relates c (p.pass lines) (q.pass (lines.map (Prod.map f id))) := by
  induction lines generalizing p q with
  | nil => exact h
  | cons numbered rest ih =>
    obtain ⟨hfirst, hrest⟩ := List.forall_mem_cons.mp hplace
    obtain ⟨hline, hothers⟩ := List.forall_mem_cons.mp hlines
    exact ih (h.line hfirst hline) hrest hothers

end Relates

end Program

/-! ## 4. A program beside itself -/

theorem Settings.log_congr (settings : Settings) {l m : List Diagnostic} (d : Diagnostic) (h : m = l) :
    settings.log m (d.mapLocation id) = settings.log l d := by
  rw [h]
  rfl

/-- Two assemblies that differ in macros of some names only. -/
def Comparison.same (settings : Settings) (apart : Name → Prop) : Comparison :=
  .under settings id Location.id_start apart (fun l m => m = l) fun d h => settings.log_congr d h

namespace Program

theorem Relates.pass_same {settings : Settings} {apart : Name → Prop} {p q : Program}
    (h : Relates (.same settings apart) p q) {lines : List (Nat × Source.Line)}
    (hlines : ∀ x ∈ lines, x.2.Avoids apart) : Relates (.same settings apart) (p.pass lines) (q.pass lines) := by
  have hpass := h.pass id (fun _ _ => rfl) hlines
  rwa [Prod.map_id, List.map_id] at hpass

theorem relates_same (settings : Settings) {apart : Name → Prop} {lines : List (Nat × Source.Line)}
    (hlines : ∀ x ∈ lines, x.2.Avoids apart) :
    Relates (.same settings apart) ((start settings).pass lines) ((start settings).pass lines) :=
  (Relates.start rfl rfl rfl).pass_same hlines

end Program

end Assembler
