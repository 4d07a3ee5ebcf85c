import Assembler.Proofs.Faultless
import Assembler.Proofs.Reservation
/-!
What is reported about a statement whose amounts depend on a parameter.

A topic is a kind of fault and the place of a statement. A length modifier that depends on the parameter is compared
with its range by a job if its number is not known at once, and only such a job is accountable for the topic that
length modifiers are out of their ranges (`Assembly.attempt_range`). All other jobs of the statement are quiet: trying
them does not change how often something is reported (`Assembly.reportsOn_settle`, `Assembly.reportsOn_conclude`).
-/

namespace Assembler

open Assembly Moment

/-! ## 1. Topics -/

/-- A kind of fault and the place of a statement. -/
structure Topic where
  code : String
  place : Location

namespace Topic

variable {topic : Topic}

/-- Whether the topic is that length modifiers are out of their ranges. -/
def isModifier (topic : Topic) : Bool := topic.code = "D008"

/-- Whether the topic is that names are taken. -/
def isRedefinition (topic : Topic) : Bool := topic.code = "E031"

/-- Whether such faults are found by carrying out statements and trying jobs. Cycles and undefined names are found by
looking at the pending work. -/
structure IsOwn (topic : Topic) : Prop where
  acyclic : topic.code ≠ "E033"
  defined : topic.code ≠ "E010"

theorem code_of_isModifier (h : topic.isModifier) : topic.code = "D008" := of_decide_eq_true h

theorem isOwn_of_isModifier (h : topic.isModifier) : topic.IsOwn := by
  constructor <;> rw [code_of_isModifier h] <;> decide

end Topic

/-- Whether a diagnostic is on a topic. -/
def Diagnostic.isOn (d : Diagnostic) (topic : Topic) : Bool := d.code = topic.code ∧ d.location = topic.place

/-- How often something has been reported on a topic. -/
def Assembly.reportsOn (s : Assembly) (topic : Topic) : Nat := s.diagnostics.countP (·.isOn topic)

theorem Fault.code_ne_of_isEvaluated {f : Fault} (h : f.isEvaluated) : f.code ≠ "D008" := by
  cases f with
  | lengthModifier => cases h
  | _ => simp [code]

section

variable {topic : Topic} {f : Fault} {location : Location}

theorem Diagnostic.isOn_of_location_ne (h : location ≠ topic.place) : (ofFault f location).isOn topic = false :=
  decide_eq_false fun hboth => h hboth.2

theorem Diagnostic.isOn_of_code_ne (h : f.code ≠ topic.code) : (ofFault f location).isOn topic = false :=
  decide_eq_false fun hboth => h hboth.1

theorem Diagnostic.isOn_redefinition (h : location = topic.place) :
    (ofFault (.redefinition "symbol") location).isOn topic = topic.isRedefinition := by
  simp [isOn, ofFault, Fault.code, Topic.isRedefinition, h, eq_comm]

theorem DataOperand.isOn_lengthFault (h : location = topic.place) {op : DataOperand} {bounds : Int32 × Int32} :
    (Diagnostic.ofFault (op.lengthFault bounds) location).isOn topic = topic.isModifier := by
  simp [Diagnostic.isOn, Diagnostic.ofFault, lengthFault, Fault.code, Topic.isModifier, h, eq_comm]

end

/-! ## 2. Jobs -/

/-- What a task compares with the range of a length modifier, and that range. -/
def Task.range? : Task → Option (Expr × Int32 × Int32)
  | length _ e rule => if rule.fault.code = "D008" then some (e, rule.min, rule.max) else none
  | check (.lengthInRange e _ min max) => some (e, min, max)
  | _ => none

theorem Task.range?_of_isFaultless {task : Task} {n : Name} (h : task.IsFaultless n) : task.range? = none := by
  cases task with
  | length | check => exact h.elim
  | _ => rfl

/-- Whether a job will report something on a topic, if the parameter that the length modifiers of the statement depend
on has a given number. -/
def Job.owes (job : Job) (topic : Topic) (v : Int32) : Bool :=
  topic.isModifier && job.frame.location = topic.place &&
    job.task.range?.any fun r => ¬ DataOperand.Admits r.2 (r.1.valueAt v 0)

/-- Whether a job never reports anything on a topic, if a parameter has its number. -/
structure Job.Quiet (job : Job) (topic : Topic) (n : Name) (v : Int32) : Prop where
  unowed : job.owes topic v = false
  silent : job.frame.location = topic.place → ∀ s : Assembly, s.Sets n v → ∀ d fault,
    s.attempt job = .fallback d fault → fault.code ≠ topic.code

/-- Whether a job never does so, or compares a length modifier that depends on the parameter with its range. -/
def Job.Accountable (job : Job) (topic : Topic) (n : Name) (v : Int32) : Prop :=
  job.Quiet topic n v ∨ topic.isModifier ∧ job.frame.location = topic.place ∧
    ∃ e bounds, job.task.range? = some (e, bounds) ∧ e.isOver n none

namespace Assembly

variable {s : Assembly} {n : Name} {v : Int32} {topic : Topic} {job : Job} {e : Expr} {bounds : Int32 × Int32}
  {d : Definition} {fault : Fault}

/-- A job that compares nothing with such a range never reports that it is out of it. -/
theorem code_ne_of_range? (hr : job.task.range? = none) (h : s.attempt job = .fallback d fault) :
    fault.code ≠ "D008" := by
  rcases s.fault_attempt h with hplain | ⟨_, e, rule, htask, rfl⟩ | ⟨_, _, _, _, htask, -⟩
  · exact Fault.code_ne_of_isEvaluated hplain
  · rw [htask, Task.range?] at hr
    exact fun hcode => by simp [hcode] at hr
  · rw [htask] at hr
    cases hr

/-- A job that does so reports nothing else. -/
theorem code_of_range? (hset : s.Sets n v) (hr : job.task.range? = some (e, bounds)) (he : e.isOver n none)
    (h : s.attempt job = .fallback d fault) : fault.code = "D008" := by
  unfold Task.range? at hr
  split at hr
  · rename_i l e' rule htask
    split at hr
    · rename_i hcode
      cases hr
      rw [attempt, htask] at h
      obtain ⟨k, hk⟩ := exists_of_map_eq_fallback h
      rw [attemptLength] at hk
      rcases numeric_evaluate hset he job.frame with ⟨x, heval⟩ | ⟨waiting, heval⟩ <;> rw [heval] at hk
      · change (if _ then _ else _) = _ at hk
        split at hk <;> cases hk
        exact hcode
      · cases hk
    · cases hr
  · rename_i e' type min max htask
    cases hr
    rw [attempt, htask] at h
    obtain ⟨u, hu⟩ := exists_of_map_eq_fallback h
    dsimp only [attemptCheck] at hu
    split at hu
    · cases hu
    · split at hu <;> cases hu
      rfl
    · cases hu
  · cases hr

/-- A job that does so reports it just if the number makes it so, and waits for the parameter only. -/
theorem attempt_range (hn : s.Named) (hopen : s.finished = false) (hset : s.Sets n v)
    (hr : job.task.range? = some (e, bounds)) (he : e.isOver n none) :
    (∃ d, s.attempt job = .resolved d ∧ DataOperand.Admits bounds (e.valueAt v 0)) ∨
      (∃ d fault, s.attempt job = .fallback d fault ∧ fault.code = "D008" ∧
        ¬ DataOperand.Admits bounds (e.valueAt v 0)) ∨
      ∃ waiting, s.attempt job = .blocked waiting ∧ ∀ q ∈ waiting, q = .symbol n := by
  unfold Task.range? at hr
  split at hr
  · -- With a label the job of its length attribute looks at the number, without one a check does.
    rename_i l e' rule htask
    split at hr
    · rename_i hcode
      cases hr
      rw [attempt, htask]
      rcases attemptLength_over hn hopen hset he rule job.frame with heq | ⟨waiting, heq, hmem⟩
      · dsimp only
        rw [heq]
        split
        · exact .inl ⟨_, rfl, ‹_›⟩
        · exact .inr (.inl ⟨_, _, rfl, hcode, ‹_›⟩)
      · exact .inr (.inr ⟨waiting, by dsimp only; rw [heq]; rfl, hmem⟩)
    · cases hr
  · rename_i e' type min max htask
    cases hr
    rw [attempt, htask]
    dsimp only [attemptCheck]
    rcases evaluateNumber_parameter hn hopen hset he job.frame with heq | ⟨waiting, heq, hmem⟩
    · rw [heq]
      dsimp only
      split
      · exact .inl ⟨_, rfl, ‹_›⟩
      · exact .inr (.inl ⟨_, _, rfl, rfl, ‹_›⟩)
    · exact .inr (.inr ⟨waiting, by rw [heq]; rfl, hmem⟩)
  · cases hr

theorem product?_ne_of_range? (hr : job.task.range? = some (e, bounds)) :
    job.task.product? ≠ some (.symbol n) := by
  intro hkey
  unfold Task.range? at hr
  split at hr
  · rename_i htask
    rw [htask] at hkey
    cases hkey
  · rename_i htask
    rw [htask] at hkey
    cases hkey
  · cases hr

end Assembly

namespace Job

variable {job : Job} {topic : Topic} {n : Name} {v : Int32} {e : Expr} {bounds : Int32 × Int32}

theorem owes_of_range? (hr : job.task.range? = some (e, bounds)) (hplace : job.frame.location = topic.place) :
    job.owes topic v = (topic.isModifier && decide ¬ DataOperand.Admits bounds (e.valueAt v 0)) := by
  rw [owes, hr, decide_eq_true hplace, Bool.and_true]
  rfl

theorem quiet_of_location_ne (h : job.frame.location ≠ topic.place) : job.Quiet topic n v where
  unowed := by rw [owes, decide_eq_false h, Bool.and_false, Bool.false_and]
  silent hplace := absurd hplace h

/-- A job that compares nothing with a range is quiet if it is never at fault, and about length modifiers anyway. -/
theorem quiet_of_range? (hr : job.task.range? = none) (h : topic.isModifier ∨ job.task.IsFaultless n) :
    job.Quiet topic n v where
  unowed := by rw [owes, hr, Option.any_none, Bool.and_false]
  silent _ s hset d fault hd := by
    rcases h with htopic | hfaultless
    · rw [topic.code_of_isModifier htopic]
      exact code_ne_of_range? hr hd
    · exact absurd hd (faultless_attempt hset hfaultless d fault)

theorem quiet_of_isFaultless (h : job.task.IsFaultless n) : job.Quiet topic n v :=
  quiet_of_range? (Task.range?_of_isFaultless h) (.inr h)

theorem Quiet.accountable (h : job.Quiet topic n v) : job.Accountable topic n v := .inl h

/-- A job that compares what depends on the parameter with a range reports nothing else. -/
theorem accountable_of_range? (hr : job.task.range? = some (e, bounds)) (he : e.isOver n none) :
    job.Accountable topic n v := by
  by_cases hplace : job.frame.location = topic.place
  · by_cases htopic : topic.isModifier
    · exact .inr ⟨htopic, hplace, e, bounds, hr, he⟩
    · refine .inl ⟨?_, fun _ s hset d fault hd => ?_⟩
      · rw [owes, Bool.eq_false_iff.mpr htopic, Bool.false_and, Bool.false_and]
      · rw [code_of_range? hset hr he hd]
        exact fun hcode => htopic (decide_eq_true hcode.symm)
  · exact .inl (quiet_of_location_ne hplace)

end Job

/-! ## 3. Reports -/

namespace Assembly

variable {s : Assembly} {n : Name} {v : Int32} {topic : Topic} {job : Job}

theorem reportsOn_establish (s : Assembly) (d : Definition) (topic : Topic) :
    (s.establish d).reportsOn topic = s.reportsOn topic := by
  rw [reportsOn, diagnostics_establish]
  rfl

theorem reportsOn_report (hroom : s.settings.maxDiagnostics = 0) (fault : Fault) (location : Location)
    (topic : Topic) : (s.report fault location).reportsOn topic =
      s.reportsOn topic + if (Diagnostic.ofFault fault location).isOn topic then 1 else 0 := by
  rw [reportsOn, diagnostics_report hroom, List.countP_append, List.countP_singleton]
  rfl

/-- Other reports are not counted. -/
theorem reportsOn_report_other {fault : Fault} {location : Location}
    (h : (Diagnostic.ofFault fault location).isOn topic = false) :
    (s.report fault location).reportsOn topic = s.reportsOn topic := by
  unfold report addDiagnostic
  split
  · rfl
  · rw [reportsOn, List.countP_append, List.countP_singleton, h]
    rfl

section

variable (hown : topic.IsOwn)
include hown

theorem reportsOn_cyclic (s : Assembly) (location : Location) :
    (s.report .cyclic location).reportsOn topic = s.reportsOn topic :=
  reportsOn_report_other (Diagnostic.isOn_of_code_ne hown.acyclic.symm)

theorem reportsOn_reportUndefined (s : Assembly) (n : Name) (location : Location) :
    (s.reportUndefined n location).reportsOn topic = s.reportsOn topic := by
  unfold reportUndefined
  split
  · rfl
  · exact reportsOn_report_other (Diagnostic.isOn_of_code_ne hown.defined.symm)

/-- At the end of the source undefined names and cycles are reported. -/
theorem reportsOn_explain (s : Assembly) (waiting : List Prerequisite) (location : Location) :
    (s.explain waiting location).2.reportsOn topic = s.reportsOn topic := by
  have hnames : ∀ (names : List Name) (s : Assembly),
      (names.foldl (fun s n => s.reportUndefined n location) s).reportsOn topic = s.reportsOn topic := by
    intro names
    induction names with
    | nil => exact fun _ => rfl
    | cons n rest ih => exact fun s => (ih _).trans (reportsOn_reportUndefined hown s n location)
  simp only [explain]
  split
  · exact reportsOn_cyclic hown s location
  · exact hnames _ _

end

theorem isOn_of_quiet (h : job.Quiet topic n v) (hset : s.Sets n v) {d : Definition} {fault : Fault}
    (hd : s.attempt job = .fallback d fault) : (Diagnostic.ofFault fault job.frame.location).isOn topic = false := by
  by_cases hplace : job.frame.location = topic.place
  · exact Diagnostic.isOn_of_code_ne (h.silent hplace s hset d fault hd)
  · exact Diagnostic.isOn_of_location_ne hplace

theorem reportsOn_settle (hown : topic.IsOwn) (h : job.Quiet topic n v) (hset : s.Sets n v) (id? : Option Nat) :
    (s.settle id? job).reportsOn topic = s.reportsOn topic := by
  unfold settle
  split
  · exact reportsOn_establish _ _ _
  · exact (reportsOn_establish _ _ _).trans (reportsOn_report_other (isOn_of_quiet h hset ‹_›))
  · split
    · exact (reportsOn_establish _ _ _).trans (reportsOn_cyclic hown _ _)
    · cases id? <;> rfl

theorem reportsOn_conclude (hown : topic.IsOwn) (h : job.Quiet topic n v) (hset : s.Sets n v) (explained : Bool) :
    (s.conclude explained job).reportsOn topic = s.reportsOn topic := by
  unfold conclude
  dsimp only
  split
  · exact reportsOn_establish _ _ _
  · exact (reportsOn_establish _ _ _).trans (reportsOn_report_other (isOn_of_quiet h hset ‹_›))
  · rename_i waiting _
    have hexplain := reportsOn_explain hown s waiting job.frame.location
    split
    · exact reportsOn_establish _ _ _
    · split
      · exact (reportsOn_establish _ _ _).trans hexplain
      · exact ((reportsOn_establish _ _ _).trans (reportsOn_cyclic hown _ _)).trans hexplain

end Assembly

end Assembler
