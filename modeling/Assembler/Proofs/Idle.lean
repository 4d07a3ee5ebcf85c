import Assembler.Proofs.Process
/-!
What is done at once when nothing that waits is concerned.

Most steps of a small program wake nothing. Then there is no cascade, and the state after the step is the
state before it with what the step defines.
-/

namespace Assembler.Assembly

variable {s t : Assembly}

/-! ## 1. No cascade -/

theorem drainFrom_of_none {sweeps : Nat} (h : s.advance? sweeps = none) : s.drainFrom sweeps = s := by
  rw [drainFrom]
  split
  · rfl
  · rename_i u hu
    rw [h] at hu
    cases hu

theorem drainFrom_of_advance? {sweeps : Nat} (h : s.advance? sweeps = some t) :
    s.drainFrom sweeps = t.drainFrom (sweeps + 1) := by
  rw [drainFrom]
  split
  · rename_i hnone
    rw [h] at hnone
    cases hnone
  · rename_i u hu
    rw [h] at hu
    cases hu
    rfl

theorem drainFrom_of_nil (hw : s.worklist = []) (sweeps : Nat) : s.drainFrom sweeps = s :=
  drainFrom_of_none (by simp only [advance?, hw])

theorem drain_of_nil (hw : s.worklist = []) : s.drain = s := drainFrom_of_nil hw 0

theorem drainAll_of_nil (hw : s.worklist = []) (hs : s.stalled = []) : s.drainAll = s := by
  have hd := drain_of_nil hw
  have main : ∀ x : { s : Assembly // s.worklist = [] }, x.val = s → resumeAll x = s := by
    intro x hx
    rw [resumeAll]
    rw [dif_pos (by rw [hx]; exact hs)]
    exact hx
  exact main ⟨s.drain, s.worklist_drain⟩ hd

theorem wake_of_nil {key : Prerequisite} (h : s.pendings.waitersOf key = []) : s.wake key = s := by
  unfold wake
  rw [h]
  rfl

theorem foldl_wake_of_nil {keys : List Prerequisite}
    (h : ∀ key ∈ keys, s.pendings.waitersOf key = []) : keys.foldl wake s = s := by
  induction keys with
  | nil => rfl
  | cons key rest ih =>
    rw [List.foldl_cons, wake_of_nil (h key List.mem_cons_self)]
    exact ih fun k hk => h k (List.mem_cons_of_mem _ hk)

/-! ## 2. Symbols and jobs -/

/-- A macro that nothing asks for is only entered. -/
theorem defineMacro_of_idle {n : Name} (hwait : s.pendings.waitersOf (.attr n .opcode) = [])
    (hw : s.worklist = []) (origin : MacroOrigin) :
    s.defineMacro n origin = { s with macros := s.macros.insert n origin } := by
  have hwake : { s with macros := s.macros.insert n origin }.wake (.attr n .opcode) =
      { s with macros := s.macros.insert n origin } := wake_of_nil hwait
  rw [defineMacro, hwake]
  exact drain_of_nil hw

/-- A symbol that nothing waits for is only entered. -/
theorem createSymbol?_of_idle {sym : Symbol} (hnew : s.symbols.contains sym.name = false)
    (hwait : ∀ key ∈ provided sym, s.pendings.waitersOf key = []) (hw : s.worklist = []) :
    s.createSymbol? sym =
      some { s with symbols := ⟨s.symbols.entries.insert sym.name sym⟩ } := by
  have hcreate : s.symbols.create? sym = some ⟨s.symbols.entries.insert sym.name sym⟩ := by
    unfold SymbolTable.create?
    rw [hnew]
    rfl
  have hwake := foldl_wake_of_nil
    (s := { s with symbols := ⟨s.symbols.entries.insert sym.name sym⟩ }) hwait
  unfold createSymbol?
  rw [hcreate, Option.map_some, hwake]
  exact congrArg some (drain_of_nil hw)

theorem createSymbol_of_idle {sym : Symbol} (hnew : s.symbols.contains sym.name = false)
    (hwait : ∀ key ∈ provided sym, s.pendings.waitersOf key = []) (hw : s.worklist = []) :
    s.createSymbol sym = { s with symbols := ⟨s.symbols.entries.insert sym.name sym⟩ } := by
  rw [createSymbol, createSymbol?_of_idle hnew hwait hw]
  rfl

theorem define?_value {n : Name} {v : Value} {sym : Symbol} (hsym : s.symbols.get? n = some sym)
    (hv : sym.value? = none) :
    s.define? (.value n v) = some { s with
      symbols := ⟨s.symbols.entries.insert n
        { sym with value? := some (v.simplify s.layout.spaces) }⟩ } := by
  simp [define?, SymbolTable.setValue?, SymbolTable.update?, hsym, Symbol.isDefined, hv]

/-- A job whose product nothing waits for is only done. -/
theorem settle_of_resolved {task : Task} {f : Frame} {d : Definition} {key : Prerequisite} (id? : Option Nat)
    (h : s.attempt ⟨task, f⟩ = .resolved d) (ht : s.define? d = some t)
    (hkey : d.product? = some key) (hwait : s.pendings.waitersOf key = []) : s.settle id? ⟨task, f⟩ = t := by
  rw [settle_resolved h, establish, ht]
  dsimp only
  rw [hkey]
  exact wake_of_nil (by rw [(keeps_define? ht).pendings]; exact hwait)

theorem resolveOrDefer_of_resolved {task : Task} {f : Frame} {d : Definition} {key : Prerequisite}
    (h : s.attempt ⟨task, f⟩ = .resolved d) (ht : s.define? d = some t)
    (hkey : d.product? = some key) (hwait : s.pendings.waitersOf key = [])
    (hw : s.worklist = []) : s.resolveOrDefer task f = t := by
  rw [resolveOrDefer, settle_of_resolved none h ht hkey hwait,
    drain_of_nil (by rw [(keeps_define? ht).worklist]; exact hw)]

/-- Nothing waits in a circle if what a job waits for is not pending. -/
theorem isCyclic_of_idle {job : Job} {waiting : List Prerequisite}
    (hown : ∀ key ∈ waiting, job.task.product? ≠ some key)
    (hwait : ∀ key ∈ waiting, s.pendings.waitingOf? key = none) :
    s.isCyclic job waiting = false := by
  rw [Bool.eq_false_iff]
  intro hcyclic
  simp only [isCyclic, Option.any_eq_true] at hcyclic
  obtain ⟨key, hkey, hcycle⟩ := hcyclic
  obtain ⟨p, hp, hreach⟩ := PendingTable.createsCycle_iff.mp hcycle
  cases hreach with
  | refl => exact hown _ hp hkey
  | step hpq _ =>
    obtain ⟨ws, hws, -⟩ := hpq
    rw [hwait p hp] at hws
    cases hws

/-- A job that has to wait is only put aside. -/
theorem resolveOrDefer_of_blocked {task : Task} {f : Frame} {waiting : List Prerequisite}
    (h : s.attempt ⟨task, f⟩ = .blocked waiting)
    (hown : ∀ key ∈ waiting, task.product? ≠ some key)
    (hwait : ∀ key ∈ waiting, s.pendings.waitingOf? key = none) (hw : s.worklist = []) :
    s.resolveOrDefer task f =
      { s with pendings := s.pendings.register ⟨⟨task, f⟩, waiting⟩ } := by
  rw [resolveOrDefer, settle_postponed h (isCyclic_of_idle hown hwait), postpone]
  exact drain_of_nil hw

/-! ## 3. The end of the source -/

/-- With nothing pending after the counters are placed only the end is recorded. -/
theorem finish_of_placed (hf : s.finished = false) (hplace : s.placeCounters = t)
    (hw : t.worklist = []) (hs : t.stalled = []) (he : t.pendings.toList = []) :
    s.finish = { t with finished := true, pendings := t.pendings.clear } := by
  have hexplain : ({ t with finished := true } : Assembly).explainAll =
      ([], { t with finished := true }) := by
    unfold explainAll
    rw [show ({ t with finished := true } : Assembly).pendings.toList = [] from he]
    rfl
  have hfirst : ({ t with finished := true } : Assembly).pendings.first? false = none := by
    unfold PendingTable.first?
    rw [show ({ t with finished := true } : Assembly).pendings.toList = [] from he]
    rfl
  have hconclude : ({ t with finished := true } : Assembly).concludeAll [] =
      { t with finished := true } := by
    rw [concludeAll, hfirst]
  unfold finish
  rw [if_neg (by simp [hf])]
  dsimp only
  rw [hplace, drainAll_of_nil hw hs, hexplain]
  dsimp only
  rw [hconclude]

theorem finish_of_idle (hf : s.finished = false) (hp : s.layout.placements = [])
    (hw : s.worklist = []) (hs : s.stalled = []) (he : s.pendings.toList = []) :
    s.finish = { s with finished := true, pendings := s.pendings.clear } := by
  refine finish_of_placed hf ?_ hw hs he
  unfold placeCounters
  rw [hp]
  rfl

end Assembler.Assembly
