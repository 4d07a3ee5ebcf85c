import Assembler.Assembly.Cascade
/-!
The end of the source.

Further location counters are placed, and undefined names are reported. After that attributes have
values without being defined, and whatever is still pending is done, with a fallback if necessary.
-/

namespace Assembler.Assembly

/-- The name that an undefined prerequisite is reported under. Neither operation codes nor spaces are
reported. -/
def reportable? (s : Assembly) (root : Prerequisite) : Option Name :=
  let name? : Option Name :=
    match root with
    | .symbol n => some n
    | .attr n kind => if kind = .opcode then none else some n
    | .space _ => none
  name?.filter (!s.symbols.contains ·)

/-- Reports a name as undefined, once in an assembly. -/
def reportUndefined (s : Assembly) (n : Name) (location : Location) : Assembly :=
  if n ∈ s.reported then s
  else
    { s with reported := s.reported ++ [n] }.report (.unresolved "ordinary symbol" n.text) location

/-- Reports what work that waits for `waiting` lacks in the end, and says whether that accounts for it. Work
that lacks nothing waits for itself. -/
def explain (s : Assembly) (waiting : List Prerequisite) (location : Location) : Bool × Assembly :=
  let roots := s.pendings.missingRoots waiting
  if roots.isEmpty then (true, s.report .cyclic location)
  else
    let names := roots.filterMap s.reportable?
    (!names.isEmpty, names.foldl (fun s n => s.reportUndefined n location) s)

/-- Explains all pending work that produces something. The result includes the numbers of the work that
is accounted for. -/
def explainAll (s : Assembly) : List Nat × Assembly :=
  s.pendings.toList.foldl
    (fun (explained, s) (id, p) =>
      if p.work.task.product?.isSome then
        let (accounted, s) := s.explain p.waiting p.work.frame.location
        (if accounted then explained ++ [id] else explained, s)
      else (explained, s))
    ([], s)

/-- Does a job at the end of the source. It gets a fallback if it cannot be done, with a report unless it
is explained. -/
def conclude (s : Assembly) (explained : Bool) (job : Job) : Assembly :=
  let location := job.frame.location
  match s.attempt job with
  | .resolved d => s.establish d
  | .fallback d fault => (s.report fault location).establish d
  | .blocked waiting =>
    if explained then s.establish job.task.fallback
    else
      let (accounted, s) := s.explain waiting location
      (if accounted then s else s.report .cyclic location).establish job.task.fallback

section

variable {s : Assembly} {job : Job} {d : Definition} {fault : Fault} {waiting : List Prerequisite}

theorem conclude_resolved {explained : Bool} (h : s.attempt job = .resolved d) :
    s.conclude explained job = s.establish d := by
  simp only [conclude, h]

theorem conclude_fallback {explained : Bool} (h : s.attempt job = .fallback d fault) :
    s.conclude explained job = (s.report fault job.frame.location).establish d := by
  simp only [conclude, h]

theorem conclude_explained (h : s.attempt job = .blocked waiting) :
    s.conclude true job = s.establish job.task.fallback := by
  simp only [conclude, h, if_true]

theorem conclude_unexplained (h : s.attempt job = .blocked waiting) :
    s.conclude false job =
      (if (s.explain waiting job.frame.location).1 then (s.explain waiting job.frame.location).2
        else (s.explain waiting job.frame.location).2.report .cyclic job.frame.location).establish
          job.task.fallback := by
  simp only [conclude, h, Bool.false_eq_true, if_false]

end

theorem pendings_reportUndefined (s : Assembly) (n : Name) (location : Location) :
    (s.reportUndefined n location).pendings = s.pendings := by
  unfold reportUndefined
  split
  · rfl
  · exact (pendings_report _ _ _).1

theorem pendings_explain (s : Assembly) (waiting : List Prerequisite) (location : Location) :
    (s.explain waiting location).2.pendings = s.pendings := by
  have fold : ∀ (names : List Name) (s : Assembly),
      (names.foldl (fun s n => s.reportUndefined n location) s).pendings = s.pendings := by
    intro names
    induction names with
    | nil => exact fun _ => rfl
    | cons n rest ih => exact fun s => (ih _).trans (pendings_reportUndefined s n location)
  simp only [explain]
  split
  · exact (pendings_report _ _ _).1
  · exact fold _ _

theorem pendings_conclude (s : Assembly) (explained : Bool) (job : Job) :
    (s.conclude explained job).pendings = s.pendings := by
  unfold conclude
  split
  · exact (pendings_establish _ _).1
  · rw [(pendings_establish _ _).1, (pendings_report _ _ _).1]
  · split
    · exact (pendings_establish _ _).1
    · rw [(pendings_establish _ _).1]
      split
      · exact pendings_explain _ _ _
      · rw [(pendings_report _ _ _).1]
        exact pendings_explain _ _ _

/-- Does the oldest pending work that produces something, until there is none. -/
def concludeAll (s : Assembly) (explained : List Nat) : Assembly :=
  match s.pendings.first? false with
  | none => s
  | some id =>
    match _taken : s.pendings.take? id with
    | none => s
    | some (p, pendings) =>
      ({ s with pendings }.conclude (id ∈ explained) p.work).drainAll.concludeAll explained
termination_by s.pendings.size
decreasing_by
  refine Nat.lt_of_le_of_lt (size_drainAll_le _) ?_
  rw [pendings_conclude]
  exact PendingTable.size_take? _taken

/-- Places the further location counters of all sections. -/
def placeCounters (s : Assembly) : Assembly :=
  s.layout.placements.foldl
    (fun s p =>
      s.resolveOrDefer
        (.space p.space (.counterStart p.candidates p.sectionStart s.layout.counterAlignment)) {})
    s

/-- Completes the assembly at the end of the source. -/
def finish (s : Assembly) : Assembly :=
  if s.finished then s
  else
    -- Counters are placed while attributes still have to be defined to be known.
    let s := { s.placeCounters.drainAll with finished := true }
    let (explained, s) := s.explainAll
    let s := s.concludeAll explained
    { s with pendings := s.pendings.clear }

end Assembler.Assembly
