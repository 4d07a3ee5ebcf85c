import Assembler.Proofs.Session
import Mathlib.Computability.StateTransition
import Mathlib.Data.Prod.Lex
/-!
The loops of an assembly, turn by turn.

A cascade takes one piece of work at a time off the worklist and puts it aside when it has tried as many as the
settings allow (`pop?`). Around cascades there are the rounds for the work put aside (`round?`) and, at the end of
the source, the turns that give pending work its fallback (`turn?`). Each of the three loops comes to its end from
every assembly, whatever the settings are (`loops_end`): a piece of work that is tried again leaves the pending work
or wakes nothing, and the first piece of a round is never put aside.
-/

namespace Assembler.Assembly

open StateTransition (eval mem_eval Reaches)

/-! ## 1. Cascades -/

/-- One turn of a cascade that has taken up `sweeps` pieces of work. -/
def pop? : Assembly × Nat → Option (Assembly × Nat)
  | (s, sweeps) =>
    match s.worklist with
    | [] => none
    | id :: rest =>
      some
        (if s.isExhausted sweeps then { s with worklist := rest, stalled := s.stalled ++ [id] }
          else s.retry id rest,
        sweeps + 1)

theorem isExhausted_succ {s : Assembly} {sweeps : Nat} (h : s.isExhausted sweeps) :
    s.isExhausted (sweeps + 1) := by
  simp only [isExhausted, Bool.and_eq_true, decide_eq_true_eq] at h ⊢
  omega

/-- An exhausted cascade puts aside what is left, one piece after another. -/
theorem reaches_stall {s : Assembly} {sweeps : Nat} (h : s.isExhausted sweeps) :
    ∃ sweeps', Reaches pop? (s, sweeps) (s.stall, sweeps') := by
  induction hw : s.worklist generalizing s sweeps with
  | nil =>
    have : s.stall = s := by
      unfold stall
      rw [hw, List.append_nil, ← hw]
    exact ⟨sweeps, by rw [this]; exact .refl⟩
  | cons id rest ih =>
    let t : Assembly := { s with worklist := rest, stalled := s.stalled ++ [id] }
    have hstep : pop? (s, sweeps) = some (t, sweeps + 1) := by simp only [pop?, hw, h, if_true, t]
    obtain ⟨sweeps', hrest⟩ := ih (s := t) (isExhausted_succ h) rfl
    have hstall : t.stall = s.stall := by simp only [stall, t, hw, List.append_assoc, List.singleton_append]
    exact ⟨sweeps', .head hstep (by rw [← hstall]; exact hrest)⟩

/-- One step of a cascade, which puts all work aside at once, is some turns of it. -/
theorem reaches_advance? {s t : Assembly} {sweeps : Nat} (h : s.advance? sweeps = some t) :
    (s.isExhausted sweeps ∧ t.worklist = [] ∧ ∃ sweeps', Reaches pop? (s, sweeps) (t, sweeps')) ∨
      pop? (s, sweeps) = some (t, sweeps + 1) := by
  unfold advance? at h
  split at h
  · cases h
  · rename_i id rest hw
    rw [Option.some.injEq] at h
    subst h
    by_cases he : s.isExhausted sweeps
    · rw [if_pos he]
      exact .inl ⟨he, rfl, reaches_stall he⟩
    · simp only [pop?, hw, he, if_false, or_true, Bool.false_eq_true]

theorem reaches_drainFrom (s : Assembly) (sweeps : Nat) :
    ∃ sweeps', Reaches pop? (s, sweeps) (s.drainFrom sweeps, sweeps') := by
  fun_induction drainFrom s sweeps with
  | case1 s sweeps h => exact ⟨sweeps, .refl⟩
  | case2 s sweeps t h ih =>
    rcases reaches_advance? h with ⟨-, hw, sweeps', hrun⟩ | hstep
    · rw [drainFrom_of_nil hw]
      exact ⟨sweeps', hrun⟩
    · obtain ⟨sweeps', hrun⟩ := ih
      exact ⟨sweeps', .head hstep hrun⟩

theorem drain_mem_eval (s : Assembly) : ∃ sweeps, (s.drain, sweeps) ∈ eval pop? (s, 0) := by
  obtain ⟨sweeps, hrun⟩ := s.reaches_drainFrom 0
  refine ⟨sweeps, mem_eval.mpr ⟨hrun, ?_⟩⟩
  simp only [pop?, s.worklist_drain]

/-! ## 2. Rounds for the work put aside -/

/-- One round, unless nothing is left aside. -/
def round? (s : Assembly) : Option Assembly := if s.stalled = [] then none else some s.resume

theorem worklist_of_reaches {s t : Assembly} (hs : s.worklist = []) (h : Reaches round? s t) :
    t.worklist = [] := by
  induction h with
  | refl => exact hs
  | tail _ hstep _ =>
    unfold round? at hstep
    split at hstep
    · cases hstep
    · cases hstep
      exact worklist_drain _

/-- A round makes the pending work less, or leaves it and puts less work aside. -/
theorem round?_lt {s t : Assembly} (hs : s.worklist = []) (h : round? s = some t) :
    toLex (t.pendings.size, t.stalled.length) < toLex (s.pendings.size, s.stalled.length) := by
  unfold round? at h
  split at h
  · cases h
  · rename_i hne
    cases h
    rw [Prod.Lex.toLex_lt_toLex]
    rcases resume_lt hs hne with hlt | ⟨hle, hlt⟩
    · exact .inl hlt
    · exact (Nat.lt_or_eq_of_le hle).imp id fun heq => ⟨heq, hlt⟩

theorem resumeAll_mem_eval (s : { s : Assembly // s.worklist = [] }) :
    resumeAll s ∈ eval round? s.val := by
  rw [mem_eval]
  fun_induction resumeAll s with
  | case1 s hnil => exact ⟨.refl, if_pos hnil⟩
  | case2 s hne ih => exact ⟨.head (if_neg hne) ih.1, ih.2⟩

theorem drainAll_mem_eval (s : Assembly) : s.drainAll ∈ eval round? s.drain :=
  resumeAll_mem_eval ⟨s.drain, s.worklist_drain⟩

/-! ## 3. The end of the source -/

/-- One turn of doing pending work at the end of the source: the oldest work that produces something is taken, and
its result is followed by a cascade and by rounds for the work put aside. -/
def turn? (explained : List Nat) (s : Assembly) : Option Assembly := do
  let id ← s.pendings.first? false
  let (p, pendings) ← s.pendings.take? id
  return ({ s with pendings }.conclude (id ∈ explained) p.work).drainAll

theorem turn?_lt {explained : List Nat} {s t : Assembly} (h : turn? explained s = some t) :
    t.pendings.size < s.pendings.size := by
  simp only [turn?, Option.bind_eq_bind, Option.bind_eq_some_iff, Option.pure_def,
    Option.some.injEq] at h
  obtain ⟨id, -, ⟨p, pendings⟩, htake, rfl⟩ := h
  refine Nat.lt_of_le_of_lt (size_drainAll_le _) ?_
  rw [pendings_conclude]
  exact PendingTable.size_take? htake

theorem concludeAll_mem_eval (s : Assembly) (explained : List Nat) :
    s.concludeAll explained ∈ eval (turn? explained) s := by
  rw [mem_eval]
  fun_induction concludeAll s explained with
  | case1 s hnone => exact ⟨.refl, by simp [turn?, hnone]⟩
  | case2 s id hid hnone => exact ⟨.refl, by simp [turn?, hid, hnone]⟩
  | case3 s id hid p pendings htake ih =>
    have hstep : turn? explained s =
        some ({ s with pendings }.conclude (id ∈ explained) p.work).drainAll := by
      simp [turn?, hid, htake]
    exact ⟨.head hstep ih.1, ih.2⟩

/-! ## 4. All loops -/

theorem loops_end (s : Assembly) :
    (∃ sweeps, (s.drain, sweeps) ∈ eval pop? (s, 0)) ∧
      s.drainAll ∈ eval round? s.drain ∧
      (∀ t u, Reaches round? s.drain t → round? t = some u →
        toLex (u.pendings.size, u.stalled.length) < toLex (t.pendings.size, t.stalled.length)) ∧
      ∀ explained,
        s.concludeAll explained ∈ eval (turn? explained) s ∧
        ∀ t u, turn? explained t = some u → u.pendings.size < t.pendings.size := by
  refine ⟨s.drain_mem_eval, s.drainAll_mem_eval, fun t u hrun hround => ?_,
    fun explained => ⟨s.concludeAll_mem_eval explained, fun t u => turn?_lt⟩⟩
  exact round?_lt (worklist_of_reaches s.worklist_drain hrun) hround

/-! ### Work put aside -/

namespace Parked

/-- `A` as a copy of `X`. -/
def copy : Job := ⟨.value (.ofString "A") (.symbol (.ofString "X")), { label? := some (.ofString "A") }⟩

/-- With one try in a cascade the copy is put aside when it is woken together with other work. -/
def parked : Assembly :=
  { Assembly.new { maxSweeps := 1 } with
    pendings := (Assembly.new {}).pendings.register ⟨copy, [.symbol (.ofString "X")]⟩
    stalled := [0] }

end Parked

/-- A round is left for the work put aside. -/
theorem loops_end_parked :
    let s := Parked.parked
    s.pendings.size = 1 ∧ s.stalled = [0] ∧ round? s = some s.resume ∧
      toLex (s.resume.pendings.size, s.resume.stalled.length) < toLex (1, 1) := by
  intro s
  have hsize : s.pendings.size = 1 := by rfl
  have hstalled : s.stalled = [0] := rfl
  have hdrain : s.drain = s := drain_of_nil rfl
  have hround : round? s = some s.resume := if_neg (List.cons_ne_nil 0 [])
  have hlt := s.loops_end.2.2.1 s s.resume (by rw [hdrain]; exact .refl) hround
  rw [hsize, hstalled] at hlt
  exact ⟨hsize, hstalled, hround, hlt⟩

end Assembler.Assembly
