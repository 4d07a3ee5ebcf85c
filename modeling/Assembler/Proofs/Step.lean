import Assembler.Proofs.Definition
import Assembler.Proofs.Reachability
/-!
Moments of an assembly, and the steps from one to the next.

Between the steps some jobs are at hand: they have been met or taken out of the pending work, and neither
done nor put aside. There are steps of a cascade, steps of carrying out statements and steps at the end of
the source (`Step`). A cascade is a run of steps of the first kind (`run_drain`, `run_drainAll`).
-/

namespace Assembler

/-! ## 1. Moments -/

inductive Phase
  | reading
  /-- Further location counters are being placed. -/
  | placing
  /-- After the end of the source. -/
  | closing

structure Moment where
  state : Assembly
  /-- The jobs to be done next, with their numbers if they have been pending. -/
  hand : List (Option Nat × Job)
  phase : Phase

/-- The moment before anything has been read. -/
def Moment.start (settings : Settings) : Moment := ⟨.new settings, [], .reading⟩

/-- The job that places a counter. -/
def Layout.Placement.job (p : Layout.Placement) (alignment : Alignment) : Job :=
  ⟨.space p.space (.counterStart p.candidates p.sectionStart alignment), {}⟩

/-! ## 2. Steps -/

/-- The steps of a cascade. -/
inductive Cascade : Moment → Moment → Prop
  | settle {s hand id? job phase} :
    Cascade ⟨s, (id?, job) :: hand, phase⟩ ⟨s.settle id? job, hand, phase⟩
  | pick {s hand phase id rest p pendings} : s.worklist = id :: rest →
    s.pendings.take? id = some (p, pendings) → (∀ x ∈ hand, x.1 = none) →
    Cascade ⟨s, hand, phase⟩
      ⟨{ s with worklist := rest, pendings }, (some id, p.work) :: hand, phase⟩
  | skip {s hand phase id rest} : s.worklist = id :: rest → s.pendings.get? id = none →
    Cascade ⟨s, hand, phase⟩ ⟨{ s with worklist := rest }, hand, phase⟩
  | stall {s hand phase} : 0 < s.settings.maxSweeps →
    Cascade ⟨s, hand, phase⟩ ⟨s.stall, hand, phase⟩
  | resume {s hand phase} :
    Cascade ⟨s, hand, phase⟩ ⟨{ s with worklist := s.readyAgain, stalled := [] }, hand, phase⟩

/-- The steps of carrying out statements. -/
inductive Progress : Moment → Moment → Prop
  | report {s hand} (d : Diagnostic) : d.code ≠ Fault.cyclic.code →
    Progress ⟨s, hand, .reading⟩ ⟨s.addDiagnostic d, hand, .reading⟩
  | arrange {s hand layout} {job? : Option Job} : s.layout.Arranges layout job? →
    Progress ⟨s, hand, .reading⟩
      ⟨{ s with layout }, hand ++ job?.toList.map (none, ·), .reading⟩
  | enter {s hand sym symbols} {jobs : List Job} : s.symbols.create? sym = some symbols →
    (∀ v, sym.value? = some v → v.LiesIn s.layout.spaces) →
    (∀ job ∈ jobs, job.Scoped s.layout.spaces) →
    (jobs.filterMap (·.task.product?)).Sublist sym.owed →
    -- Nothing computes the length attribute of EQU without a value.
    (∀ key ∈ sym.owed, key ∈ jobs.filterMap (·.task.product?) ∨ key = .attr sym.name .length) →
    Progress ⟨s, hand, .reading⟩
      ⟨(Assembly.provided sym).foldl Assembly.wake { s with symbols },
        hand ++ jobs.map (none, ·), .reading⟩
  | check {s hand job} : job.task.product? = none → job.Scoped s.layout.spaces →
    Progress ⟨s, hand, .reading⟩ ⟨s, hand ++ [(none, job)], .reading⟩
  | defineMacro {s hand} (n : Name) (origin : MacroOrigin) :
    Progress ⟨s, hand, .reading⟩
      ⟨{ s with macros := s.macros.insert n origin }.wake (.attr n .opcode), hand, .reading⟩
  | defineVariable {s hand} (n : Name) (v : VariableValue) :
    Progress ⟨s, hand, .reading⟩ ⟨s.defineVariable n v, hand, .reading⟩

/-- The steps at the end of the source. -/
inductive Ending : Moment → Moment → Prop
  | place {s} : s.finished = false →
    Ending ⟨s, [], .reading⟩
      ⟨s, s.layout.placements.map fun p => (none, p.job s.layout.counterAlignment), .placing⟩
  | close {s} : s.worklist = [] → s.stalled = [] →
    Ending ⟨s, [], .placing⟩ ⟨{ s with finished := true }, [], .closing⟩
  | explain {s id p} : s.pendings.get? id = some p → p.work.task.product?.isSome →
    Ending ⟨s, [], .closing⟩ ⟨(s.explain p.waiting p.work.frame.location).2, [], .closing⟩
  | choose {s id p pendings} : s.pendings.take? id = some (p, pendings) →
    Ending ⟨s, [], .closing⟩ ⟨{ s with pendings }, [(some id, p.work)], .closing⟩
  | conclude {s id? job} (explained : Bool) : job.task.product?.isSome →
    s.worklist = [] → s.stalled = [] →
    (explained → s.diagnostics ≠ []) →
    Ending ⟨s, [(id?, job)], .closing⟩ ⟨s.conclude explained job, [], .closing⟩
  | clear {s} : s.worklist = [] → s.stalled = [] → s.pendings.first? false = none →
    Ending ⟨s, [], .closing⟩ ⟨{ s with pendings := s.pendings.clear }, [], .reading⟩

/-- The steps while an assembly is completed. -/
def Completion (m m' : Moment) : Prop := Cascade m m' ∨ Ending m m'

inductive Step (m m' : Moment) : Prop
  | cascade : Cascade m m' → Step m m'
  | progress : Progress m m' → Step m m'
  | ending : Ending m m' → Step m m'

/-- The steps before the end of the source. -/
inductive Advance (m m' : Moment) : Prop
  | cascade : Cascade m m' → Advance m m'
  | progress : Progress m m' → Advance m m'

theorem Advance.step {m m' : Moment} : Advance m m' → Step m m'
  | .cascade h => .cascade h
  | .progress h => .progress h

theorem Completion.step {m m' : Moment} (h : Completion m m') : Step m m' := h.elim .cascade .ending

/-! ## 3. Runs -/

/-- Any number of steps. -/
inductive Run (R : Moment → Moment → Prop) : Moment → Moment → Prop
  | refl (m : Moment) : Run R m m
  | tail {a b c : Moment} : Run R a b → R b c → Run R a c

variable {R R' : Moment → Moment → Prop} {a b c : Moment}

theorem Run.single (h : R a b) : Run R a b := .tail (.refl a) h

theorem Run.trans (h : Run R a b) (h' : Run R b c) : Run R a c := by
  induction h' with
  | refl => exact h
  | tail _ hstep ih => exact .tail ih hstep

theorem Run.imp (hR : ∀ a b, R a b → R' a b) (h : Run R a b) : Run R' a b := by
  induction h with
  | refl => exact .refl _
  | tail _ hstep ih => exact .tail ih (hR _ _ hstep)

theorem Run.steps (h : Run Advance a b) : Run Step a b := h.imp fun _ _ => Advance.step

/-- What every step keeps holds at the end. -/
theorem Run.keeps {P : Moment → Prop} (hP : ∀ a b, R a b → P a → P b) (h : Run R a b) (ha : P a) :
    P b := by
  induction h with
  | refl => exact ha
  | tail _ hstep ih => exact hP _ _ hstep ih

/-- Whether a moment comes up in some assembly with the given settings. -/
def Moment.Reachable (settings : Settings) (m : Moment) : Prop := Run Step (.start settings) m

/-! ## 4. Cascades -/

section Cascades

variable {hand : List (Option Nat × Job)} {phase : Phase}

theorem run_retry {s : Assembly} (hnew : ∀ x ∈ hand, x.1 = none) {id : Nat} {rest : List Nat}
    (hw : s.worklist = id :: rest) :
    Run Cascade ⟨s, hand, phase⟩ ⟨s.retry id rest, hand, phase⟩ := by
  unfold Assembly.retry
  split
  · rename_i hnone
    refine .single (.skip hw ?_)
    cases hp : s.pendings.get? id with
    | none => rfl
    | some p =>
      obtain ⟨u, hu⟩ := PendingTable.exists_take? hp
      rw [hnone] at hu
      cases hu
  · rename_i p pendings htake
    exact .tail (.single (.pick hw htake hnew)) .settle

theorem run_advance? {s t : Assembly} {sweeps : Nat} (hnew : ∀ x ∈ hand, x.1 = none)
    (h : s.advance? sweeps = some t) : Run Cascade ⟨s, hand, phase⟩ ⟨t, hand, phase⟩ := by
  unfold Assembly.advance? at h
  split at h
  · cases h
  · rename_i id rest hw
    cases h
    split
    · rename_i hexhausted
      refine .single (.stall ?_)
      simp only [Assembly.isExhausted, Bool.and_eq_true, decide_eq_true_eq] at hexhausted
      exact hexhausted.1
    · exact run_retry hnew hw

theorem run_drainFrom (s : Assembly) (sweeps : Nat) (hnew : ∀ x ∈ hand, x.1 = none) :
    Run Cascade ⟨s, hand, phase⟩ ⟨s.drainFrom sweeps, hand, phase⟩ := by
  fun_induction Assembly.drainFrom s sweeps with
  | case1 s sweeps h => exact .refl _
  | case2 s sweeps t h ih => exact (run_advance? hnew h).trans ih

theorem run_drain (s : Assembly) (hnew : ∀ x ∈ hand, x.1 = none) :
    Run Cascade ⟨s, hand, phase⟩ ⟨s.drain, hand, phase⟩ := run_drainFrom s 0 hnew

theorem forall_mem_nil : ∀ x ∈ ([] : List (Option Nat × Job)), x.1 = none :=
  fun _ hx => nomatch hx

theorem run_resumeAll (s : { s : Assembly // s.worklist = [] }) :
    Run Cascade ⟨s, [], phase⟩ ⟨Assembly.resumeAll s, [], phase⟩ := by
  fun_induction Assembly.resumeAll s with
  | case1 s h => exact .refl _
  | case2 s h ih =>
    refine Run.trans (.single .resume) (Run.trans ?_ ih)
    exact run_drain _ forall_mem_nil

theorem run_drainAll (s : Assembly) :
    Run Cascade ⟨s, [], phase⟩ ⟨s.drainAll, [], phase⟩ :=
  (run_drain s forall_mem_nil).trans (run_resumeAll ⟨s.drain, s.worklist_drain⟩)

/-- A job is done or put aside, and the cascade is carried out. -/
theorem run_resolveOrDefer (s : Assembly) (job : Job) (hnew : ∀ x ∈ hand, x.1 = none) :
    Run Cascade ⟨s, (none, job) :: hand, phase⟩
      ⟨s.resolveOrDefer job.task job.frame, hand, phase⟩ :=
  Run.trans (.single .settle) (run_drain _ hnew)

end Cascades

end Assembler
