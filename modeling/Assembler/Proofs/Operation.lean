import Assembler.Proofs.Session
/-!
All operations of a session.

Besides its commands a session hands over its diagnostics, which are gone from the assembly then. Nothing else is
different afterwards, so what holds at every moment of an assembly still holds (`Moment.Occurs.valid`), and what has
become defined stays so (`Turns.earlier`).
-/

namespace Assembler

open Assembly

/-! ## 1. Turns -/

/-- A step, or the removal of the diagnostics between two commands. -/
inductive Turn : Moment → Moment → Prop
  | step {m m' : Moment} : Step m m' → Turn m m'
  | take {s : Assembly} : Turn ⟨s, [], .reading⟩ ⟨{ s with diagnostics := [] }, [], .reading⟩

variable {m m' : Moment} {settings : Settings}

theorem Assembly.alike_takeDiagnostics (s : Assembly) : s.Alike { s with diagnostics := [] } :=
  ⟨rfl, rfl, rfl, rfl⟩

theorem Moment.Valid.turn (hv : m.Valid) (h : Turn m m') : m'.Valid := by
  cases h with
  | step h => exact hv.step h
  | take => exact hv.alike (alike_takeDiagnostics _)

theorem Moment.Valid.turns (hv : m.Valid) (h : Run Turn m m') : m'.Valid :=
  h.keeps (fun _ _ hturn hm => hm.turn hturn) hv

theorem Turn.earlier (h : Turn m m') : m.state.Earlier m'.state := by
  cases h with
  | step h => exact h.grows.earlier
  | take => exact .of_eq rfl rfl rfl rfl

theorem Turns.earlier (h : Run Turn m m') : m.state.Earlier m'.state :=
  h.keeps (P := fun x => m.state.Earlier x.state) (fun _ _ hturn hx => hx.trans hturn.earlier) (.refl _)

theorem Turn.settings_eq (h : Turn m m') : m'.state.settings = m.state.settings := by
  cases h with
  | step h => exact h.grows.settings
  | take => rfl

theorem Turn.finished (h : Turn m m') (hfin : m.state.finished) : m'.state.finished := by
  cases h with
  | step h => exact h.grows.finished hfin
  | take => exact hfin

/-- Once the end of the source has been reached, it stays so. -/
theorem Turns.finished (h : Run Turn m m') (hopen : m'.state.finished = false) :
    m.state.finished = false := by
  refine Bool.eq_false_iff.mpr fun hfin => ?_
  have hlater := h.keeps (P := fun x => x.state.finished) (fun _ _ hturn hx => hturn.finished hx) hfin
  rw [hopen] at hlater
  cases hlater

/-- Whether a moment comes up in some session with the given settings. -/
def Moment.Occurs (settings : Settings) (m : Moment) : Prop := Run Turn (.start settings) m

theorem Moment.Reachable.occurs (h : m.Reachable settings) : m.Occurs settings := h.imp fun _ _ => .step

theorem Moment.Occurs.valid (h : m.Occurs settings) : m.Valid := (valid_start settings).turns h

theorem Moment.Occurs.settings_eq (h : m.Occurs settings) : m.state.settings = settings :=
  h.keeps (P := fun x => x.state.settings = settings) (fun _ _ hturn hx => hturn.settings_eq.trans hx) rfl

/-! ## 2. Operations -/

namespace Session

inductive Operation
  | command (c : Command)
  | takeDiagnostics

def operate (s : Session) : Operation → Session
  | .command c => s.perform c
  | .takeDiagnostics => s.takeDiagnostics.2

def operateAll (s : Session) (operations : List Operation) : Session := operations.foldl operate s

/-- The assembly after some operations. -/
def stateAfter (settings : Settings) (operations : List Operation) : Assembly :=
  ((new settings).operateAll operations).assembly

theorem turns_operate {s : Session} (hs : s.assembly.Ready) (o : Operation) :
    Run Turn ⟨s.assembly, [], .reading⟩ ⟨(s.operate o).assembly, [], .reading⟩ ∧
      (s.operate o).assembly.Ready ∧ (s.assembly.worklist = [] → (s.operate o).assembly.worklist = []) := by
  cases o with
  | command c =>
    have hfollows := follows_perform hs c
    exact ⟨hfollows.run.imp fun _ _ => .step, hfollows.ready hs, hfollows.worklist⟩
  | takeDiagnostics =>
    exact ⟨.single .take, ⟨hs.valid.alike (alike_takeDiagnostics _), hs.unreported⟩, id⟩

theorem turns_operateAll {s : Session} (hs : s.assembly.Ready) (operations : List Operation) :
    Run Turn ⟨s.assembly, [], .reading⟩ ⟨(s.operateAll operations).assembly, [], .reading⟩ ∧
      (s.operateAll operations).assembly.Ready ∧
      (s.assembly.worklist = [] → (s.operateAll operations).assembly.worklist = []) := by
  induction operations generalizing s with
  | nil => exact ⟨.refl _, hs, id⟩
  | cons o rest ih =>
    obtain ⟨hfirst, hready, hlist⟩ := turns_operate hs o
    obtain ⟨hrest, hlast, hlists⟩ := ih hready
    exact ⟨hfirst.trans hrest, hlast, hlists ∘ hlist⟩

theorem ready_stateAfter (settings : Settings) (operations : List Operation) :
    (stateAfter settings operations).Ready := (turns_operateAll (ready_new settings) operations).2.1

theorem worklist_stateAfter (settings : Settings) (operations : List Operation) :
    (stateAfter settings operations).worklist = [] :=
  (turns_operateAll (s := new settings) (ready_new settings) operations).2.2 rfl

/-- The states of a session come up between turns. -/
theorem occurs_stateAfter (settings : Settings) (operations : List Operation) :
    Moment.Occurs settings ⟨stateAfter settings operations, [], .reading⟩ :=
  (turns_operateAll (s := new settings) (ready_new settings) operations).1

theorem stateAfter_append (settings : Settings) (operations more : List Operation) :
    stateAfter settings (operations ++ more) =
      (((new settings).operateAll operations).operateAll more).assembly :=
  congrArg assembly List.foldl_append

/-- Further operations get from one state to the other by turns. -/
theorem turns_stateAfter (settings : Settings) (operations more : List Operation) :
    Run Turn ⟨stateAfter settings operations, [], .reading⟩
      ⟨stateAfter settings (operations ++ more), [], .reading⟩ := by
  rw [stateAfter_append]
  exact (turns_operateAll (ready_stateAfter settings operations) more).1

end Session

end Assembler
