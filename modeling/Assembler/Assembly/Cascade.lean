import Assembler.Assembly.Attempt
import Assembler.Pending.Search
/-!
The cascade: a definition wakes the work that waits for it, whose results wake further work.

Work that is tried again either leaves the table of pending work or is put back without waking
anything. So every step of a cascade makes the pending work less, or leaves it and shortens the
worklist (`advance?_lt`), and a cascade comes to an end. The same holds for trying work again that was
put aside (`resume_lt`).
-/

namespace Assembler.Assembly

/-! ### Definitions -/

/-- The assembly with something defined, unless it is defined already. -/
def define? (s : Assembly) : Definition → Option Assembly
  | .value n v =>
    (s.symbols.setValue? n (some (v.simplify s.layout.spaces))).map fun symbols => { s with symbols }
  | .length n length => (s.symbols.setLength? n length).map fun symbols => { s with symbols }
  | .scale n scale => (s.symbols.setScale? n scale).map fun symbols => { s with symbols }
  | .integer n integer => (s.symbols.setInteger? n integer).map fun symbols => { s with symbols }
  | .space space length =>
    (s.layout.spaces.resolve? space length).map fun spaces =>
      { s with layout := { s.layout with spaces } }
  | .nothing => none

/-- Puts the work that waits for a prerequisite on the worklist. -/
def wake (s : Assembly) (key : Prerequisite) : Assembly :=
  { s with
    worklist := (s.pendings.waitersOf key).foldl
      (fun list id => if id ∈ list then list else list ++ [id]) s.worklist }

/-- Defines something and wakes the work that waits for it. -/
def establish (s : Assembly) (d : Definition) : Assembly :=
  match s.define? d with
  | none => s
  | some s' =>
    match d.product? with
    | some key => s'.wake key
    | none => s'

/-- Whether a job would wait for its own product. -/
def isCyclic (s : Assembly) (job : Job) (waiting : List Prerequisite) : Bool :=
  job.task.product?.any fun key => s.pendings.createsCycle key waiting

/-- Registers a job as pending work, under the number it has already or under a new one. -/
def postpone (s : Assembly) (id? : Option Nat) (job : Job) (waiting : List Prerequisite) :
    Assembly :=
  let pending : Pending Job := ⟨job, waiting⟩
  match id? with
  | some id => { s with pendings := s.pendings.reinsert id pending }
  | none => { s with pendings := s.pendings.register pending }

/-- Does a job if it can be done now, with a report if there is a fault, and postpones it otherwise. A job
that would wait for its own product is done with a fallback. -/
def settle (s : Assembly) (id? : Option Nat) (job : Job) : Assembly :=
  match s.attempt job with
  | .resolved d => s.establish d
  | .fallback d fault => (s.report fault job.frame.location).establish d
  | .blocked waiting =>
    if s.isCyclic job waiting then
      (s.report .cyclic job.frame.location).establish job.task.fallback
    else s.postpone id? job waiting

section

variable {s : Assembly} {job : Job} {d : Definition} {fault : Fault} {waiting : List Prerequisite}

theorem settle_resolved {id? : Option Nat} (h : s.attempt job = .resolved d) : s.settle id? job = s.establish d := by
  rw [settle, h]

theorem settle_fallback {id? : Option Nat} (h : s.attempt job = .fallback d fault) :
    s.settle id? job = (s.report fault job.frame.location).establish d := by
  rw [settle, h]

theorem settle_cyclic {id? : Option Nat} (h : s.attempt job = .blocked waiting) (hcyclic : s.isCyclic job waiting) :
    s.settle id? job = (s.report .cyclic job.frame.location).establish job.task.fallback := by
  simp only [settle, h, hcyclic, if_true]

theorem settle_postponed {id? : Option Nat} (h : s.attempt job = .blocked waiting)
    (hno : s.isCyclic job waiting = false) : s.settle id? job = s.postpone id? job waiting := by
  simp only [settle, h, hno, Bool.false_eq_true, if_false]

end

/-! ### What a step leaves alone -/

theorem pendings_define? {s t : Assembly} {d : Definition} (h : s.define? d = some t) :
    t.pendings = s.pendings ∧ t.worklist = s.worklist ∧ t.stalled = s.stalled := by
  cases d with
  | nothing => cases h
  | value | length | scale | integer | space =>
    obtain ⟨_, -, rfl⟩ := Option.map_eq_some_iff.mp h
    exact ⟨rfl, rfl, rfl⟩

theorem pendings_establish (s : Assembly) (d : Definition) :
    (s.establish d).pendings = s.pendings ∧ (s.establish d).stalled = s.stalled := by
  unfold establish
  split
  · exact ⟨rfl, rfl⟩
  · rename_i t ht
    obtain ⟨hp, -, hs⟩ := pendings_define? ht
    split <;> exact ⟨hp, hs⟩

theorem pendings_report (s : Assembly) (f : Fault) (location : Location) :
    (s.report f location).pendings = s.pendings ∧ (s.report f location).worklist = s.worklist ∧
      (s.report f location).stalled = s.stalled := by
  unfold report addDiagnostic
  split <;> exact ⟨rfl, rfl, rfl⟩

theorem stalled_postpone (s : Assembly) (id? : Option Nat) (job : Job)
    (waiting : List Prerequisite) :
    (s.postpone id? job waiting).stalled = s.stalled ∧
      (s.postpone id? job waiting).worklist = s.worklist := by
  unfold postpone
  split <;> exact ⟨rfl, rfl⟩

theorem stalled_settle (s : Assembly) (id? : Option Nat) (job : Job) :
    (s.settle id? job).stalled = s.stalled := by
  unfold settle
  split
  · exact (pendings_establish _ _).2
  · rw [(pendings_establish _ _).2, (pendings_report _ _ _).2.2]
  · split
    · rw [(pendings_establish _ _).2, (pendings_report _ _ _).2.2]
    · exact (stalled_postpone _ _ _ _).1

/-- Settling a job either leaves the pending work alone, or puts one job back and wakes nothing. -/
theorem settle_cases (s : Assembly) (id : Nat) (job : Job) :
    (s.settle (some id) job).pendings = s.pendings ∨
      (s.settle (some id) job).pendings.size ≤ s.pendings.size + 1 ∧
        (s.settle (some id) job).worklist = s.worklist := by
  unfold settle
  split
  · exact .inl (pendings_establish _ _).1
  · exact .inl (by rw [(pendings_establish _ _).1, (pendings_report _ _ _).1])
  · split
    · exact .inl (by rw [(pendings_establish _ _).1, (pendings_report _ _ _).1])
    · exact .inr ⟨PendingTable.size_reinsert_le _ _ _, rfl⟩

/-! ### Cascades -/

/-- Whether a cascade that has tried `sweeps` pieces of work has to put the rest aside. -/
def isExhausted (s : Assembly) (sweeps : Nat) : Bool :=
  0 < s.settings.maxSweeps && s.settings.maxSweeps ≤ sweeps

/-- Puts all work on the worklist aside. -/
def stall (s : Assembly) : Assembly :=
  { s with worklist := [], stalled := s.stalled ++ s.worklist }

/-- Tries the work with a given number, if it is still pending, and leaves `rest` for later. -/
def retry (s : Assembly) (id : Nat) (rest : List Nat) : Assembly :=
  match s.pendings.take? id with
  | none => { s with worklist := rest }
  | some (p, pendings) => { s with worklist := rest, pendings }.settle (some id) p.work

/-- One step of a cascade that has tried `sweeps` pieces of work; there is none when the worklist is
empty. -/
def advance? (s : Assembly) (sweeps : Nat) : Option Assembly :=
  match s.worklist with
  | [] => none
  | id :: rest => some (if s.isExhausted sweeps then s.stall else s.retry id rest)

/-- Trying work again makes the pending work less, or leaves it and wakes nothing. -/
theorem retry_cases (s : Assembly) (id : Nat) (rest : List Nat) :
    (s.retry id rest).pendings.size < s.pendings.size ∨
      (s.retry id rest).pendings.size ≤ s.pendings.size ∧
        (s.retry id rest).worklist = rest := by
  unfold retry
  split
  · exact .inr ⟨Nat.le_refl _, rfl⟩
  · rename_i p table htake
    have hsize := PendingTable.size_take? htake
    rcases settle_cases { s with worklist := rest, pendings := table } id p.work with h | ⟨h, hw⟩
    · exact .inl (by rw [h]; exact hsize)
    · exact .inr ⟨Nat.le_trans h hsize, hw⟩

theorem stalled_retry (s : Assembly) (id : Nat) (rest : List Nat) :
    (s.retry id rest).stalled = s.stalled := by
  unfold retry
  split
  · rfl
  · exact stalled_settle _ _ _

/-- A step makes the pending work less, or leaves it and takes work off the worklist, some of which it may
put aside. -/
theorem advance?_cases {s t : Assembly} {sweeps : Nat} (h : s.advance? sweeps = some t) :
    t.pendings.size < s.pendings.size ∨
      t.pendings.size ≤ s.pendings.size ∧ t.worklist.length < s.worklist.length ∧
        t.stalled.length + t.worklist.length ≤ s.stalled.length + s.worklist.length := by
  unfold advance? at h
  split at h
  · cases h
  · rename_i id rest hw
    rw [Option.some.injEq] at h
    subst h
    rw [hw, List.length_cons]
    split
    · exact .inr ⟨Nat.le_refl _, by simp [stall], by simp [stall, hw]⟩
    · rcases s.retry_cases id rest with hlt | ⟨hle, heq⟩
      · exact .inl hlt
      · rw [heq, stalled_retry]
        exact .inr ⟨hle, Nat.lt_succ_self _, by omega⟩

theorem advance?_lt {s t : Assembly} {sweeps : Nat} (h : s.advance? sweeps = some t) :
    t.pendings.size < s.pendings.size ∨
      t.pendings.size ≤ s.pendings.size ∧ t.worklist.length < s.worklist.length :=
  (advance?_cases h).imp id fun ⟨hle, hlt, _⟩ => ⟨hle, hlt⟩

/-- Carries a cascade on until the worklist is empty. -/
def drainFrom (s : Assembly) (sweeps : Nat) : Assembly :=
  match _step : s.advance? sweeps with
  | none => s
  | some t => t.drainFrom (sweeps + 1)
termination_by (s.pendings.size, s.worklist.length)
decreasing_by
  rcases advance?_lt _step with hlt | ⟨hle, hlt⟩
  · exact Prod.Lex.left _ _ hlt
  · rcases Nat.lt_or_eq_of_le hle with hlt' | heq
    · exact Prod.Lex.left _ _ hlt'
    · rw [heq]; exact Prod.Lex.right _ hlt

/-- Carries out the cascade of the work on the worklist. -/
def drain (s : Assembly) : Assembly := s.drainFrom 0

/-! ### Work put aside -/

/-- How far work has to be put aside in the rest of a cascade: the pending work becomes less, or no more
is put aside than was on the worklist. -/
theorem drainFrom_cases (s : Assembly) (sweeps : Nat) :
    (s.drainFrom sweeps).pendings.size < s.pendings.size ∨
      (s.drainFrom sweeps).pendings.size ≤ s.pendings.size ∧
        (s.drainFrom sweeps).stalled.length ≤ s.stalled.length + s.worklist.length := by
  fun_induction drainFrom s sweeps with
  | case1 s sweeps h => exact .inr ⟨Nat.le_refl _, Nat.le_add_right _ _⟩
  | case2 s sweeps t h ih =>
    rcases advance?_cases h with hlt | ⟨hle, -, hsum⟩
    · rcases ih with hlt' | ⟨hle', -⟩ <;> exact .inl (by omega)
    · rcases ih with hlt' | ⟨hle', hst⟩
      · exact .inl (by omega)
      · exact .inr ⟨by omega, by omega⟩

theorem size_drain_le (s : Assembly) : s.drain.pendings.size ≤ s.pendings.size := by
  rcases s.drainFrom_cases 0 with h | ⟨h, -⟩
  · exact Nat.le_of_lt h
  · exact h

/-- The first piece of work of a cascade is never put aside. -/
theorem drain_stalled_lt {s : Assembly} (hne : s.worklist ≠ []) (hnil : s.stalled = []) :
    s.drain.pendings.size < s.pendings.size ∨
      s.drain.pendings.size ≤ s.pendings.size ∧
        s.drain.stalled.length < s.worklist.length := by
  obtain ⟨id, rest, hw⟩ := List.exists_cons_of_ne_nil hne
  have hfirst : s.isExhausted 0 = false := by simp [isExhausted]; omega
  have hstep : s.advance? 0 = some (s.retry id rest) := by
    simp only [advance?, hw, hfirst, Bool.false_eq_true, if_false]
  have hdrain : s.drain = (s.retry id rest).drainFrom 1 := by
    unfold drain
    rw [drainFrom]
    split
    · rename_i h; rw [hstep] at h; cases h
    · rename_i t h
      rw [hstep] at h
      cases h
      rfl
  rw [hdrain]
  rcases s.retry_cases id rest with hlt | ⟨hle, heq⟩
  · rcases (s.retry id rest).drainFrom_cases 1 with h | ⟨h, -⟩ <;> exact .inl (by omega)
  · rcases (s.retry id rest).drainFrom_cases 1 with h | ⟨h, hl⟩
    · exact .inl (by omega)
    · refine .inr ⟨by omega, ?_⟩
      rw [stalled_retry, hnil, heq, List.length_nil] at hl
      rw [hw, List.length_cons]
      omega

/-- The numbers in a list that are pending and have not been seen, each once. -/
def unseenPending (s : Assembly) (seen : Std.TreeSet Nat) : List Nat → List Nat
  | [] => []
  | id :: rest =>
    if id ∈ seen ∨ (s.pendings.get? id).isNone then s.unseenPending seen rest
    else id :: s.unseenPending (seen.insert id) rest

theorem length_unseenPending_le (s : Assembly) (seen : Std.TreeSet Nat) (ids : List Nat) :
    (s.unseenPending seen ids).length ≤ ids.length := by
  induction ids generalizing seen with
  | nil => exact Nat.le_refl _
  | cons id rest ih =>
    unfold unseenPending
    split
    · exact Nat.le_succ_of_le (ih seen)
    · exact Nat.succ_le_succ (ih _)

/-- The work put aside that is still pending, each piece once. -/
def readyAgain (s : Assembly) : List Nat :=
  s.worklist ++ s.unseenPending (.ofList s.worklist) s.stalled

/-- Gives the work put aside a cascade of its own. -/
def resume (s : Assembly) : Assembly :=
  { s with worklist := s.readyAgain, stalled := [] }.drain

theorem length_readyAgain_le (s : Assembly) :
    s.readyAgain.length ≤ s.worklist.length + s.stalled.length := by
  rw [readyAgain, List.length_append]
  exact Nat.add_le_add_left (s.length_unseenPending_le _ _) _

/-- A round for the work put aside makes the pending work less, or puts less work aside. -/
theorem resume_lt {s : Assembly} (hw : s.worklist = []) (hs : s.stalled ≠ []) :
    s.resume.pendings.size < s.pendings.size ∨
      s.resume.pendings.size ≤ s.pendings.size ∧ s.resume.stalled.length < s.stalled.length := by
  have hlen := s.length_readyAgain_le
  rw [hw] at hlen
  simp only [List.length_nil, Nat.zero_add] at hlen
  have hpos : 0 < s.stalled.length := List.length_pos_iff.mpr hs
  by_cases hr : s.readyAgain = []
  · have : s.resume = { s with worklist := [], stalled := [] } := by
      unfold resume drain
      rw [hr, drainFrom]
      split
      · rfl
      · rename_i h; simp [advance?] at h
    rw [this]
    exact .inr ⟨Nat.le_refl _, hpos⟩
  · rcases drain_stalled_lt (s := { s with worklist := s.readyAgain, stalled := [] }) hr rfl
      with h | ⟨h, hl⟩
    · exact .inl h
    · exact .inr ⟨h, Nat.lt_of_lt_of_le hl hlen⟩

/-- After a cascade the worklist is empty. -/
theorem worklist_drainFrom (s : Assembly) (sweeps : Nat) : (s.drainFrom sweeps).worklist = [] := by
  fun_induction drainFrom s sweeps with
  | case1 s sweeps h =>
    unfold advance? at h
    split at h
    · assumption
    · cases h
  | case2 s sweeps t h ih => exact ih

theorem worklist_drain (s : Assembly) : s.drain.worklist = [] := s.worklist_drainFrom 0

/-- Tries the work put aside again until none is left aside, from a state with an empty worklist. -/
def resumeAll (s : { s : Assembly // s.worklist = [] }) : Assembly :=
  if _done : s.val.stalled = [] then s.val
  else resumeAll ⟨s.val.resume, worklist_drain _⟩
termination_by (s.val.pendings.size, s.val.stalled.length)
decreasing_by
  rcases resume_lt s.property _done with hlt | ⟨hle, hlt⟩
  · exact Prod.Lex.left _ _ hlt
  · rcases Nat.lt_or_eq_of_le hle with hlt' | heq
    · exact Prod.Lex.left _ _ hlt'
    · simp only [heq]; exact Prod.Lex.right _ hlt

/-- Carries out the cascade of the work on the worklist, and tries all work put aside again. -/
def drainAll (s : Assembly) : Assembly := resumeAll ⟨s.drain, s.worklist_drain⟩

theorem size_resume_le (s : Assembly) : s.resume.pendings.size ≤ s.pendings.size :=
  size_drain_le { s with worklist := s.readyAgain, stalled := [] }

theorem size_resumeAll_le (s : { s : Assembly // s.worklist = [] }) :
    (resumeAll s).pendings.size ≤ s.val.pendings.size := by
  fun_induction resumeAll s with
  | case1 s h => exact Nat.le_refl _
  | case2 s h ih => exact Nat.le_trans ih s.val.size_resume_le

theorem size_drainAll_le (s : Assembly) : s.drainAll.pendings.size ≤ s.pendings.size :=
  Nat.le_trans (size_resumeAll_le _) s.size_drain_le

/-! ### Entry points -/

/-- Does a job or postpones it, and carries out the cascade. -/
def resolveOrDefer (s : Assembly) (task : Task) (frame : Frame) : Assembly :=
  (s.settle none ⟨task, frame⟩).drain

/-- The prerequisites that a new symbol provides at once. -/
def provided (sym : Symbol) : List Prerequisite :=
  let known (pending : Bool) (kind : AttributeKind) : List Prerequisite :=
    if pending then [] else [.attr sym.name kind]
  (if sym.isDefined then [.symbol sym.name] else []) ++ [.attr sym.name .type] ++
    known sym.attributes.length.isPending .length ++
    known sym.attributes.scale.isPending .scale ++
    known sym.attributes.integer.isPending .integer

/-- Creates a symbol and carries out the cascade of what it provides. There is no result if the name is
taken. -/
def createSymbol? (s : Assembly) (sym : Symbol) : Option Assembly :=
  (s.symbols.create? sym).map fun symbols =>
    ((provided sym).foldl wake { s with symbols }).drain

/-- Creates a symbol, or reports that its name is taken. -/
def createSymbol (s : Assembly) (sym : Symbol) : Assembly :=
  (s.createSymbol? sym).getD (s.report (.redefinition "symbol") sym.location)

/-- Records a macro definition. -/
def defineMacro (s : Assembly) (n : Name) (origin : MacroOrigin) : Assembly :=
  ({ s with macros := s.macros.insert n origin }.wake (.attr n .opcode)).drain

/-- Records the value of a variable symbol. -/
def defineVariable (s : Assembly) (n : Name) (v : VariableValue) : Assembly :=
  { s with variableValues := s.variableValues.insert n v }

end Assembler.Assembly
