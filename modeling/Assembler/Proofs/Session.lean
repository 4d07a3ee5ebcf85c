import Assembler.Proofs.Idle
import Assembler.Proofs.Wake
import Assembler.Session
/-!
Sessions: statements, macros, variable symbols, requests and the end of the source in any order.

Between the commands of a session no work is left to be tried, and pending work that has not been put aside
would have to wait again (`isBlocked_of_pending`). After the end of the source there is an exception: what
took a missing attribute for zero may have become a misuse of that attribute.
-/

namespace Assembler

namespace Session

/-! ## 1. Commands -/

inductive Command
  | process (st : Statement)
  | defineMacro (name : Text) (origin : MacroOrigin)
  | defineVariable (name : Text) (value : VariableValue)
  | requestAttribute (kind : AttributeKind) (name : Text)
  | requestVariableAttribute (kind : AttributeKind) (name : Text)
  | finish

def perform (s : Session) : Command → Session
  | .process st => s.mapAssembly (·.process st)
  | .defineMacro name origin => s.defineMacro name origin
  | .defineVariable name value => s.defineVariable name value
  | .requestAttribute kind name => (s.requestAttribute kind name).2
  | .requestVariableAttribute kind name => (s.requestVariableAttribute kind name).2
  | .finish => s.finish

def performAll (s : Session) (commands : List Command) : Session := commands.foldl perform s

theorem follows_perform {s : Session} (hs : s.assembly.Ready) (c : Command) :
    s.assembly.Follows (s.perform c).assembly := by
  cases c with
  | process st => exact (Assembly.leads_process hs st).follows
  | defineMacro name origin => exact (s.assembly.leads_defineMacro _ origin).follows
  | defineVariable name value => exact (s.assembly.leads_defineVariable _ value).follows
  | requestAttribute kind name => exact .refl _
  | requestVariableAttribute kind name => exact .refl _
  | finish => exact Assembly.follows_finish hs

/-- Before the end of the source commands get from one state to the next by carrying out statements. -/
theorem leads_perform {s : Session} (hs : s.assembly.Ready) {c : Command} (hc : c ≠ .finish) :
    s.assembly.Leads (s.perform c).assembly := by
  cases c with
  | process st => exact Assembly.leads_process hs st
  | defineMacro name origin => exact s.assembly.leads_defineMacro _ origin
  | defineVariable name value => exact s.assembly.leads_defineVariable _ value
  | requestAttribute kind name => exact .refl _
  | requestVariableAttribute kind name => exact .refl _
  | finish => exact absurd rfl hc

theorem leads_performAll {s : Session} (hs : s.assembly.Ready) {commands : List Command}
    (hc : .finish ∉ commands) : s.assembly.Leads (s.performAll commands).assembly := by
  induction commands generalizing s with
  | nil => exact .refl _
  | cons c rest ih =>
    have hfirst := leads_perform hs (List.ne_of_not_mem_cons hc).symm
    exact hfirst.trans (ih (hfirst.ready hs) (List.not_mem_of_not_mem_cons hc))

theorem ready_new (settings : Settings) : (Assembly.new settings).Ready :=
  ⟨Moment.valid_start settings, fun _ => rfl⟩

theorem follows_performAll {s : Session} (hs : s.assembly.Ready) (commands : List Command) :
    s.assembly.Follows (s.performAll commands).assembly := by
  induction commands generalizing s with
  | nil => exact .refl _
  | cons c rest ih =>
    have hc := follows_perform hs c
    exact hc.trans (ih (hc.ready hs))

/-- Every state of a session comes up between steps. -/
theorem reachable_performAll (settings : Settings) (commands : List Command) :
    Moment.Reachable settings ⟨((new settings).performAll commands).assembly, [], .reading⟩ :=
  (follows_performAll (s := new settings) (ready_new settings) commands).run

/-! ## 2. Pending work -/

theorem isBlocked_of_pending (settings : Settings) (commands : List Command) :
    let s := ((new settings).performAll commands).assembly
    s.worklist = [] ∧
      (∀ id p, s.pendings.get? id = some p → id ∉ s.stalled →
        (s.finished → s.misusesIn p.work = false) → (s.attempt p.work).IsBlocked) ∧
      (settings.maxSweeps = 0 → s.stalled = []) := by
  intro s
  have hlead := follows_performAll (s := new settings) (ready_new settings) commands
  have hreach := reachable_performAll settings commands
  have hworklist : s.worklist = [] := hlead.worklist rfl
  refine ⟨hworklist, fun id p hp hid hm => ?_, fun hmax => ?_⟩
  · rcases hreach.watchful id p hp with hw | hs | hstuck
    · rw [show s.worklist = [] from hworklist] at hw
      cases hw
    · exact absurd hs hid
    · exact hstuck.isBlocked (by simp) hreach.valid.wellFormed hm
  · exact hlead.run.grows.stalled hmax rfl

/-! ### A distance times an attribute that turns out to be missing -/

namespace Scaled

open Assembly

def statement (label opcode : String) (operation : Operation) : Statement :=
  ⟨some (.ofString label), .ofString opcode, operation, {}⟩

/-- The scale attribute of `X` counts as zero until `X` is defined without one. -/
def product : Expr :=
  .binary .mul (.binary .sub (.symbol (.ofString "T")) (.symbol (.ofString "S")))
    (.attr .scale (.symbol (.ofString "X")))

def sectionStart : Statement := statement "S" "CSECT" (.sectionStart .executable)

def counterStart : Statement := statement "T" "LOCTR" .counterStart

def multiplication : Statement := statement "Y" "EQU" (.equ (some product) none none)

def definition : Statement := statement "X" "EQU" (.equ (some (.number 1)) none none)

/-- `T` starts further on in the section `S`, by a space that never gets a length. -/
def commands : List Command :=
  [.finish, .process sectionStart, .process counterStart, .process multiplication]

def job : Job := ⟨.value (.ofString "Y") product, { label? := some (.ofString "Y") }⟩

/-! The states in between. -/

def enter (s : Assembly) (sym : Symbol) : Assembly :=
  { s with symbols := ⟨s.symbols.entries.insert sym.name sym⟩ }

def place (name : String) (a : Address) (origin : SymbolOrigin) : Symbol :=
  { name := .ofString name, value? := some (.relocatable a), attributes := .label origin 'J' 1,
    location := {} }

def equated (name : String) : Symbol :=
  { name := .ofString name, value? := none,
    attributes := { origin := .equ, type := Ebcdic.encode 'U', length := .known 1 }, location := {} }

def atEnd : Assembly := { Assembly.new {} with finished := true }

def newSection : Assembly :=
  { atEnd with layout := (atEnd.layout.createSection (some (.ofString "S")) .executable).2 }

def inSection : Assembly := enter newSection (place "S" (.start ⟨0⟩) .sectionStart)

def newCounter : Assembly :=
  { inSection with layout := (inSection.layout.createCounter (.ofString "T")).2 }

def inCounter : Assembly := enter newCounter (place "T" newCounter.layout.origin .counterStart)

def waiting : Assembly :=
  { enter inCounter (equated "Y") with
    pendings := inCounter.pendings.register ⟨job, [.space ⟨0⟩]⟩ }

def defined : Assembly :=
  enter (enter waiting (equated "X")) { equated "X" with value? := some (.absolute 1) }

theorem finish_new : (Assembly.new {}).finish = atEnd := by
  rw [finish_of_idle rfl rfl rfl rfl (by decide +kernel)]
  rfl

theorem process_sectionStart : atEnd.process sectionStart = inSection := by
  show newSection.createSymbol (place "S" (.start ⟨0⟩) .sectionStart) = inSection
  exact createSymbol_of_idle (by decide +kernel) (by decide +kernel) rfl

theorem process_counterStart : inSection.process counterStart = inCounter := by
  show newCounter.createSymbol (place "T" newCounter.layout.origin .counterStart) = inCounter
  exact createSymbol_of_idle (by decide +kernel) (by decide +kernel) rfl

theorem process_multiplication : inCounter.process multiplication = waiting := by
  have hcreate : inCounter.createSymbol? (equated "Y") = some (enter inCounter (equated "Y")) :=
    createSymbol?_of_idle (by decide +kernel) (by decide +kernel) rfl
  rw [process_equ_of_createSymbol? (e := product) rfl rfl (by decide) hcreate]
  exact resolveOrDefer_of_blocked (by decide +kernel) (by decide +kernel) (by decide +kernel) rfl

theorem process_definition : waiting.process definition = defined := by
  have hcreate : waiting.createSymbol? (equated "X") = some (enter waiting (equated "X")) :=
    createSymbol?_of_idle (by decide +kernel) (by decide +kernel) rfl
  rw [process_equ_of_createSymbol? (e := .number 1) rfl rfl (by decide) hcreate]
  have hsym : (enter waiting (equated "X")).symbols.get? (.ofString "X") = some (equated "X") := by
    decide +kernel
  exact resolveOrDefer_of_resolved (by decide +kernel) (define?_value (v := .absolute 1) hsym rfl)
    rfl (by decide +kernel) rfl

theorem performAll_commands : ((new {}).performAll commands).assembly = waiting := by
  show (((Assembly.new {}).finish.process sectionStart).process counterStart).process
    multiplication = waiting
  rw [finish_new, process_sectionStart, process_counterStart, process_multiplication]

theorem performAll_definition :
    ((new {}).performAll (commands ++ [.process definition])).assembly = defined := by
  show ((new {}).performAll commands).assembly.process definition = defined
  rw [performAll_commands, process_definition]

end Scaled

/-- Before `X` is defined the product has to wait for the space. -/
theorem isBlocked_scaled :
    (((new {}).performAll Scaled.commands).assembly.attempt Scaled.job).IsBlocked := by
  have hpending := (isBlocked_of_pending {} Scaled.commands).2.1 0 ⟨Scaled.job, [.space ⟨0⟩]⟩
  rw [Scaled.performAll_commands] at hpending ⊢
  exact hpending rfl (by decide +kernel) (by decide +kernel)

/-- After that it could be found to be a misuse at once, but nothing wakes it. -/
theorem not_isBlocked_scaled :
    ¬ ∀ (settings : Settings) (commands : List Command),
      let s := ((new settings).performAll commands).assembly
      ∀ id p, s.pendings.get? id = some p → id ∉ s.stalled → (s.attempt p.work).IsBlocked := by
  intro hall
  have hblocked := hall {} (Scaled.commands ++ [.process Scaled.definition]) 0
    ⟨Scaled.job, [.space ⟨0⟩]⟩
  rw [Scaled.performAll_definition] at hblocked
  obtain ⟨waiting, hwaiting⟩ := hblocked rfl (by decide +kernel)
  have hfault : Scaled.defined.attempt Scaled.job =
      .fallback (.value (.ofString "Y") (.absolute 0)) .attributeMisuse := by decide +kernel
  rw [hfault] at hwaiting
  cases hwaiting

end Session

end Assembler
