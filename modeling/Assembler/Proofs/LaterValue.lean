import Assembler.Proofs.Constancy
import Assembler.Proofs.Operation
/-!
The results of expressions in the course of a session.

Before the end of the source an expression keeps its result once it has one: a value with the lengths put in that
have become known since then, or a fault (`Session.evaluate_of_turns`). Only what has to wait may change.
-/

namespace Assembler

open Assembly

/-! ## 1. From one moment to a later one -/

namespace Moment

variable {m m' : Moment} {e : Expr} {f : Frame} {v : Value}

/-- What has a result rests on attributes that are known. -/
theorem Valid.informs (hv : m.Valid) (hopen : m.state.finished = false) (he : e.isPlain)
    (h : ∀ waiting, m.state.evaluate e f ≠ .blocked waiting) : m.state.Informs e :=
  informs_of_evaluate hv.wellFormed.named hopen he fun ⟨waiting, hwaiting⟩ => h waiting hwaiting

theorem Valid.evaluate_turns (hv : m.Valid) (h : Run Turn m m') (hopen : m.state.finished = false)
    (he : e.isPlain) (heval : m.state.evaluate e f = .resolved v) :
    m'.state.evaluate e f = .resolved (v.normalize m'.state.layout.spaces) := by
  have hinforms := hv.informs hopen he fun waiting hwaiting => by
    rw [heval] at hwaiting
    cases hwaiting
  have hlater := (hv.turns h).wellFormed.acyclic
  exact evaluate_later (Turns.earlier h) hv.wellFormed.acyclic hlater he hinforms heval

theorem Valid.fault_turns (hv : m.Valid) (h : Run Turn m m') (hopen : m.state.finished = false)
    (he : e.isPlain) {fault : Fault} (heval : m.state.evaluate e f = .fallback v fault) :
    m'.state.evaluate e f = .fallback v fault := by
  have hinforms := hv.informs hopen he fun waiting hwaiting => by
    rw [heval] at hwaiting
    cases hwaiting
  have hlater := (hv.turns h).wellFormed.acyclic
  exact fault_later (Turns.earlier h) hv.wellFormed.acyclic hlater he hinforms heval

end Moment

/-! ## 2. Sessions -/

namespace Session

/-- Evaluation is stable, between the operations of a session and in the midst of them. -/
theorem evaluate_of_turns (settings : Settings) :
    (∀ operations more, Moment.Occurs settings ⟨stateAfter settings operations, [], .reading⟩ ∧
      Run Turn ⟨stateAfter settings operations, [], .reading⟩
        ⟨stateAfter settings (operations ++ more), [], .reading⟩) ∧
    ∀ m m' : Moment, m.Occurs settings → Run Turn m m' → m'.state.finished = false →
      ∀ (e : Expr) (f : Frame), e.isPlain →
        (∀ v, m.state.evaluate e f = .resolved v →
          m'.state.evaluate e f = .resolved (v.normalize m'.state.layout.spaces)) ∧
        ∀ v fault, m.state.evaluate e f = .fallback v fault → m'.state.evaluate e f = .fallback v fault := by
  refine ⟨fun operations more => ⟨occurs_stateAfter settings operations,
    turns_stateAfter settings operations more⟩, fun m m' hm h hopen e f he => ?_⟩
  have hbefore := Turns.finished h hopen
  exact ⟨fun v heval => hm.valid.evaluate_turns h hbefore he heval,
    fun v fault heval => hm.valid.fault_turns h hbefore he heval⟩

/-! ### A place behind storage of a length not known yet -/

namespace Awaiting

open Assembly

def parameter : Expr := .symbol (.ofString "N")

def operand : DataOperand := { type := .c, length? := some ⟨parameter, false⟩ }

def storage : Statement := ⟨none, .ofString "DS", .data true [operand], {}⟩

def definition : Statement := Scaled.statement "N" "EQU" (.equ (some (.number 5)) none none)

/-- Three bytes after the storage. -/
def place : Expr := .binary .add .counter (.number 3)

def frame : Frame := { position? := some ⟨[(⟨0⟩, 1)], 0, [(⟨0⟩, 1)]⟩ }

def check : Job := ⟨.check (.lengthInRange parameter 'C' 1 65535), {}⟩

def job : Job := ⟨.space ⟨0⟩ (.storage (storageExpr operand none (.known 1) (.deferred parameter))), {}⟩

/-! The states in between. -/

def checking : Assembly :=
  { Assembly.new {} with pendings := (Assembly.new {}).pendings.register ⟨check, [.symbol (.ofString "N")]⟩ }

def passing : Assembly := { checking with layout := (checking.layout.passSpace .storage .any).2 }

def waiting : Assembly :=
  { passing with pendings := passing.pendings.register ⟨job, [.symbol (.ofString "N")]⟩ }

theorem process_storage : (Assembly.new {}).process storage = waiting := by
  have hcheck : (Assembly.new {}).resolveOrDefer check.task {} = checking :=
    resolveOrDefer_of_blocked (by decide +kernel) (by decide +kernel) (by decide +kernel) rfl
  have hjob : passing.resolveOrDefer job.task {} = waiting :=
    resolveOrDefer_of_blocked (by decide +kernel) (by decide +kernel) (by decide +kernel) rfl
  show ((Assembly.new {}).resolveOrDefer check.task {}).reserveStorage operand none (.known 1)
    (.deferred parameter) {} = waiting
  rw [hcheck]
  exact hjob

theorem finished_definition : (waiting.process definition).finished = false := by
  have hready := (follows_perform (s := new {}) (ready_new {}) (.process storage)).ready (ready_new {})
  rw [show ((new {}).perform (.process storage)).assembly = waiting from process_storage] at hready
  exact (leads_process hready definition).finished

end Awaiting

/-- The place is known up to the length of the storage, which is put in when it gets known. -/
theorem evaluate_of_turns_storage :
    let s := stateAfter {} [.command (.process Awaiting.storage)]
    let t := stateAfter {} [.command (.process Awaiting.storage), .command (.process Awaiting.definition)]
    let place : Value := .relocatable ⟨[(⟨0⟩, 1)], 3, [(⟨0⟩, 1)]⟩
    s.evaluate Awaiting.place Awaiting.frame = .resolved place ∧
      t.evaluate Awaiting.place Awaiting.frame = .resolved (place.normalize t.layout.spaces) := by
  intro s t place
  have hs : s = Awaiting.waiting := Awaiting.process_storage
  have hopen : t.finished = false := by
    show (s.process Awaiting.definition).finished = false
    rw [hs]
    exact Awaiting.finished_definition
  have heval : s.evaluate Awaiting.place Awaiting.frame = .resolved place := by
    rw [hs]
    decide +kernel
  obtain ⟨hmoments, hlater⟩ := evaluate_of_turns {}
  obtain ⟨hoccurs, hturns⟩ := hmoments [.command (.process Awaiting.storage)]
    [.command (.process Awaiting.definition)]
  exact ⟨heval, (hlater _ _ hoccurs hturns hopen Awaiting.place Awaiting.frame rfl).1 place heval⟩

end Session

end Assembler
