import Assembler.Proofs.Anchor
import Assembler.Proofs.Topic
import Mathlib.Data.Multiset.Count
import Mathlib.Data.Multiset.MapFold
/-!
How often something is reported about a statement whose amounts depend on a parameter.

A length modifier that depends on a parameter is compared with its range when its operand is carried out, or later by
a job. Counted together, the reports on a topic and the jobs that will make one do not change while the jobs are
tried, put aside and done (`Moment.Tallied.cascade`), because a job is pending or at hand only once
(`PendingTable.rows_take?`, `PendingTable.rows_reinsert`). Every operand adds what there is to be reported about it
(`Assembly.Tallied.processOperand`), and statements at other places add nothing (`Assembly.Tallied.acts`).
-/

namespace Assembler

open Assembly Moment

/-! ## 1. The work in a table -/

namespace PendingTable

variable {τ : Type} {t u : PendingTable τ} {id : Nat} {p : Pending τ}

/-- All pending work with its numbers, in no order. -/
def rows (t : PendingTable τ) : Multiset (Nat × Pending τ) := ↑t.toList

theorem mem_rows : (id, p) ∈ t.rows ↔ t.get? id = some p :=
  Multiset.mem_coe.trans Std.ExtTreeMap.mem_toList_iff_getElem?_eq_some

theorem nodup_rows (t : PendingTable τ) : t.rows.Nodup := by
  refine Multiset.coe_nodup.mpr ((Std.ExtTreeMap.distinct_keys_toList (t := t.entries)).imp fun hne heq => hne ?_)
  rw [heq]
  exact Std.ReflCmp.compare_self

variable [Produces τ]

theorem rows_take? (h : t.take? id = some (p, u)) : t.rows = (id, p) ::ₘ u.rows := by
  have hget := get?_take h
  refine ((Multiset.Nodup.ext t.nodup_rows (Multiset.nodup_cons.mpr ⟨fun hmem => ?_, u.nodup_rows⟩)).mpr ?_)
  · rw [mem_rows, hget, if_pos rfl] at hmem
    cases hmem
  · rintro ⟨j, q⟩
    rw [Multiset.mem_cons, mem_rows, mem_rows, hget, Prod.mk.injEq]
    by_cases hj : j = id
    · subst hj
      simp [take?_eq_some h, eq_comm]
    · simp [hj]

theorem rows_reinsert (h : t.get? id = none) : (t.reinsert id p).rows = (id, p) ::ₘ t.rows := by
  have hget := t.get?_reinsert id p
  refine ((Multiset.Nodup.ext (nodup_rows _) (Multiset.nodup_cons.mpr ⟨fun hmem => ?_, t.nodup_rows⟩)).mpr ?_)
  · rw [mem_rows, h] at hmem
    cases hmem
  · rintro ⟨j, q⟩
    rw [Multiset.mem_cons, mem_rows, mem_rows, hget, Prod.mk.injEq]
    by_cases hj : j = id
    · subst hj
      simp [h, eq_comm]
    · simp [hj]

theorem rows_register (h : t.get? t.next = none) : (t.register p).rows = (t.next, p) ::ₘ t.rows :=
  rows_reinsert (t := { t with next := t.next + 1 }) h

end PendingTable

/-! ## 2. The tally -/

namespace Moment

/-- All jobs, at hand or pending. -/
def works (m : Moment) : Multiset Job := ↑(m.hand.map (·.2)) + m.state.pendings.rows.map (·.2.work)

/-- The reports on a topic, and the jobs that will make one. -/
def tally (m : Moment) (topic : Topic) (v : Int32) : Nat :=
  m.state.reportsOn topic + m.works.countP (·.owes topic v)

theorem carries_of_mem_works {m : Moment} {job : Job} (h : job ∈ m.works) : m.Carries job := by
  rcases Multiset.mem_add.mp h with h | h
  · obtain ⟨x, hx, rfl⟩ := List.mem_map.mp (Multiset.mem_coe.mp h)
    exact .inl ⟨x, hx, rfl⟩
  · obtain ⟨⟨id, p⟩, hp, rfl⟩ := Multiset.mem_map.mp h
    exact .inr ⟨id, p, PendingTable.mem_rows.mp hp, rfl⟩

/-- If all jobs are quiet, only the reports are counted. -/
theorem tally_of_quiet {m : Moment} {topic : Topic} {n : Name} {v : Int32}
    (h : ∀ job, m.Carries job → job.Quiet topic n v) : m.tally topic v = m.state.reportsOn topic := by
  have hnone : m.works.countP (·.owes topic v) = 0 := Multiset.countP_eq_zero.mpr fun job hjob => by
    rw [(h job (carries_of_mem_works hjob)).unowed]
    exact Bool.false_ne_true
  rw [tally, hnone, Nat.add_zero]

/-- Whether there is a given number of reports on a topic, or of jobs that will make one. All jobs can be accounted
for, and nothing keeps a report from being made. -/
structure Tallied (m : Moment) (n : Name) (v : Int32) (topic : Topic) (k : Nat) : Prop where
  own : topic.IsOwn
  sets : m.Sets n v
  opened : m.state.finished = false
  room : m.state.settings.maxDiagnostics = 0
  jobs : ∀ job, m.Carries job → job.Accountable topic n v
  tally : m.tally topic v = k

variable {s : Assembly} {m m' : Moment} {n : Name} {v : Int32} {topic : Topic} {k : Nat} {job : Job}

/-- A job at hand is done, and reports something just if it is counted, or it is put aside. -/
theorem Sets.settle_cases {hand : List (Option Nat × Job)} {phase : Phase} {id? : Option Nat}
    (hs : Sets ⟨s, (id?, job) :: hand, phase⟩ n v) (hopen : s.finished = false) (hown : topic.IsOwn)
    (hroom : s.settings.maxDiagnostics = 0) (hjob : job.Accountable topic n v) :
    ((s.settle id? job).pendings = s.pendings ∧
        (s.settle id? job).reportsOn topic = s.reportsOn topic + if job.owes topic v then 1 else 0) ∨
      ∃ waiting, s.settle id? job = s.postpone id? job waiting := by
  rcases hjob with hquiet | ⟨htopic, hplace, e, bounds, hr, he⟩
  · rw [hquiet.unowed, if_neg Bool.false_ne_true]
    rcases settle_outcome s id? job with hdoes | ⟨waiting, -, -, heq⟩
    · exact .inl ⟨hdoes.pendings, reportsOn_settle hown hquiet hs.value id?⟩
    · exact .inr ⟨waiting, heq⟩
  · rw [Job.owes_of_range? hr hplace, htopic, Bool.true_and]
    rcases attempt_range hs.valid.wellFormed.named hopen hs.value hr he with
      ⟨d, hd, hadmits⟩ | ⟨d, fault, hd, hcode, hadmits⟩ | ⟨waiting, hwaiting, hmem⟩
    · refine .inl ?_
      rw [settle_resolved hd, if_neg (by simpa using hadmits)]
      exact ⟨(pendings_establish _ _).1, reportsOn_establish _ _ _⟩
    · refine .inl ?_
      have hon : (Diagnostic.ofFault fault job.frame.location).isOn topic = true :=
        decide_eq_true ⟨hcode.trans (topic.code_of_isModifier htopic).symm, hplace⟩
      have hreport := reportsOn_report hroom fault job.frame.location topic
      rw [if_pos hon] at hreport
      rw [settle_fallback hd, if_pos (by simpa using hadmits)]
      exact ⟨(pendings_establish _ _).1.trans (pendings_report _ _ _).1,
        (reportsOn_establish _ _ _).trans hreport⟩
    · -- The parameter waits for nothing, so the job does not wait for itself.
      have hno : s.isCyclic job waiting = false := Bool.eq_false_iff.mpr fun hcyclic => by
        obtain ⟨key, hkey, q, hq, hreach⟩ := isCyclic_iff.mp hcyclic
        rw [hmem q hq] at hreach
        rw [hs.eq_of_reaches hreach] at hkey
        exact product?_ne_of_range? hr hkey
      exact .inr ⟨waiting, settle_postponed hwaiting hno⟩

/-- A job that is put aside is pending. -/
theorem Valid.rows_postpone {hand : List (Option Nat × Job)} {phase : Phase} {id? : Option Nat}
    (hv : Valid ⟨s, (id?, job) :: hand, phase⟩) (waiting : List Prerequisite) :
    (s.postpone id? job waiting).pendings.rows.map (·.2.work) = job ::ₘ s.pendings.rows.map (·.2.work) := by
  cases id? with
  | some id =>
    have hfree := ((hv.held _ List.mem_cons_self).free id rfl).2
    show (s.pendings.reinsert id _).rows.map _ = _
    rw [PendingTable.rows_reinsert hfree, Multiset.map_cons]
  | none =>
    have hfree : s.pendings.get? s.pendings.next = none := by
      cases hp : s.pendings.get? s.pendings.next with
      | none => rfl
      | some p => exact absurd (hv.indexed.fresh _ p hp) (lt_irrefl _)
    show (s.pendings.register _).rows.map _ = _
    rw [PendingTable.rows_register hfree, Multiset.map_cons]

theorem quiet_placement (p : Layout.Placement) (alignment : Alignment) : (p.job alignment).Quiet topic n v :=
  Job.quiet_of_isFaultless trivial

/-- While a source is completed, jobs come up only for location counters, and these are quiet. -/
theorem quiet_of_completion (h : Completion m m') (hjobs : ∀ job, m.Carries job → job.Quiet topic n v) :
    ∀ job, m'.Carries job → job.Quiet topic n v := fun job hc => by
  rcases Completion.carries h hc with hc | ⟨p, -, rfl⟩
  · exact hjobs job hc
  · exact quiet_placement p _

/-- The cascade keeps the tally. -/
theorem Tallied.cascade (h : m.Tallied n v topic k) (hstep : Cascade m m') : m'.Tallied n v topic k := by
  have hin : m.state.symbols.get? n ≠ none ∨ m'.state.symbols.get? n = none := by
    by_cases hnone : m.state.symbols.get? n = none
    · exact .inr (hstep.get?_eq_none hnone)
    · exact .inl hnone
  have hjobs : ∀ job, m'.Carries job → job.Accountable topic n v := fun job hc => by
    rcases Completion.carries (.inl hstep) hc with hc | ⟨p, -, rfl⟩
    · exact h.jobs job hc
    · exact (quiet_placement p _).accountable
  refine ⟨h.own, h.sets.step (.cascade hstep) hin, (Advance.finished (.cascade hstep)).trans h.opened,
    (Step.cascade hstep).grows.settings ▸ h.room, hjobs, h.tally ▸ ?_⟩
  cases hstep with
  | @settle s hand id? job phase =>
    have hworks : Moment.works ⟨s, (id?, job) :: hand, phase⟩ =
        job ::ₘ (↑(hand.map (·.2)) + s.pendings.rows.map (·.2.work)) := rfl
    rw [Moment.tally, Moment.tally, hworks, Multiset.countP_cons]
    rcases h.sets.settle_cases h.opened h.own h.room (h.jobs job (.inl ⟨_, List.mem_cons_self, rfl⟩)) with
      ⟨hpendings, hcount⟩ | ⟨waiting, heq⟩
    · dsimp only
      rw [works, hcount, hpendings]
      dsimp only
      omega
    · have hsame : (s.postpone id? job waiting).reportsOn topic = s.reportsOn topic := by
        cases id? <;> rfl
      dsimp only
      rw [works, heq, h.sets.valid.rows_postpone, Multiset.add_cons, Multiset.countP_cons, hsame]
  | @pick s hand phase id rest p pendings hw ht hnew =>
    have hworks : Moment.works ⟨s, hand, phase⟩ =
        p.work ::ₘ (↑(hand.map (·.2)) + pendings.rows.map (·.2.work)) := by
      rw [works, PendingTable.rows_take? ht, Multiset.map_cons, Multiset.add_cons]
    rw [Moment.tally, Moment.tally, hworks]
    rfl
  | skip | stall | resume => rfl

theorem Tallied.run (h : m.Tallied n v topic k) (hrun : Run Cascade m m') : m'.Tallied n v topic k :=
  hrun.keeps (P := fun m => m.Tallied n v topic k) (fun _ _ hstep hm => hm.cascade hstep) h

theorem works_append (m : Moment) (jobs : List Job) :
    works { m with hand := m.hand ++ jobs.map (none, ·) } = ↑jobs + m.works := by
  have hjobs : (jobs.map (fun job => ((none : Option Nat), job))).map (·.2) = jobs := by
    rw [List.map_map]
    exact List.map_id jobs
  dsimp only [works]
  rw [List.map_append, hjobs, ← Multiset.coe_add, Multiset.add_comm _ (jobs : Multiset Job), Multiset.add_assoc]

/-- Jobs that come to hand with a step are counted with those that there have been. -/
theorem Tallied.meet (h : m.Tallied n v topic k) (hstep : Step m m') (hsets : m'.Sets n v)
    (hopen : m'.state.finished = false) (hpendings : m'.state.pendings = m.state.pendings)
    (hdiagnostics : m'.state.diagnostics = m.state.diagnostics) {jobs : List Job}
    (hhand : m'.hand = m.hand ++ jobs.map (none, ·)) (hjobs : ∀ job ∈ jobs, job.Accountable topic n v) :
    m'.Tallied n v topic (k + jobs.countP (·.owes topic v)) := by
  refine ⟨h.own, hsets, hopen, (congrArg (·.maxDiagnostics) hstep.grows.settings).trans h.room, fun job hc => ?_, ?_⟩
  · rcases hc with ⟨x, hx, rfl⟩ | ⟨id, p, hp, rfl⟩
    · rw [hhand, List.mem_append] at hx
      rcases hx with hx | hx
      · exact h.jobs x.2 (.inl ⟨x, hx, rfl⟩)
      · obtain ⟨job, hjob, rfl⟩ := List.mem_map.mp hx
        exact hjobs job hjob
    · exact h.jobs p.work (.inr ⟨id, p, hpendings ▸ hp, rfl⟩)
  · have hworks : m'.works = ↑jobs + m.works := by
      rw [← works_append, works, works, hhand, hpendings]
    have hsame : m'.state.reportsOn topic = m.state.reportsOn topic := congrArg (List.countP _) hdiagnostics
    rw [Moment.tally, hworks, hsame, Multiset.countP_add, Multiset.coe_countP, ← h.tally, Moment.tally]
    simp only [Bool.decide_eq_true]
    omega

end Moment

/-! ## 3. Jobs that are met -/

namespace Assembly

/-- Between commands no job is at hand. -/
abbrev Tallied (s : Assembly) (n : Name) (v : Int32) (topic : Topic) (k : Nat) : Prop :=
  Moment.Tallied ⟨s, [], .reading⟩ n v topic k

variable {s t u : Assembly} {n l : Name} {v : Int32} {topic : Topic} {k : Nat} {jobs : List Job}

theorem countP_owes_eq_zero (h : ∀ job ∈ jobs, job.Quiet topic n v) : jobs.countP (·.owes topic v) = 0 :=
  List.countP_eq_zero.mpr fun job hjob => by
    rw [(h job hjob).unowed]
    exact Bool.false_ne_true

theorem Tallied.launches (h : s.Tallied n v topic k) (hl : s.Launches jobs u t)
    (hsets : Moment.Sets ⟨u, jobs.map (none, ·), .reading⟩ n v)
    (hjobs : ∀ job ∈ jobs, job.Accountable topic n v) :
    t.Tallied n v topic (k + jobs.countP (·.owes topic v)) :=
  (h.meet (.progress hl.enter) hsets ((Advance.finished (.progress hl.enter)).trans h.opened) hl.pendings
    hl.diagnostics (List.nil_append _).symm hjobs).run hl.cascade

/-- A parameter that is not entered keeps its number. -/
theorem Tallied.launches_of_kept (h : s.Tallied n v topic k) (hl : s.Launches jobs u t)
    (hkept : s.symbols.get? n ≠ none ∨ u.symbols.get? n = none)
    (hjobs : ∀ job ∈ jobs, job.Accountable topic n v) :
    t.Tallied n v topic (k + jobs.countP (·.owes topic v)) :=
  h.launches hl (hl.approach h.opened h.sets hkept).1.after hjobs

/-- Quiet jobs are not counted. -/
theorem Tallied.launches_of_quiet (h : s.Tallied n v topic k) (hl : s.Launches jobs u t)
    (hkept : s.symbols.get? n ≠ none ∨ u.symbols.get? n = none) (hjobs : ∀ job ∈ jobs, job.Quiet topic n v) :
    t.Tallied n v topic k := by
  have hlaunch := h.launches_of_kept hl hkept fun job hjob => (hjobs job hjob).accountable
  rw [countP_owes_eq_zero hjobs] at hlaunch
  exact hlaunch

theorem Tallied.report (h : s.Tallied n v topic k) (fault : Fault) (hfault : fault ≠ .cyclic) (location : Location) :
    (s.report fault location).Tallied n v topic
      (k + if (Diagnostic.ofFault fault location).isOn topic then 1 else 0) := by
  have halike := s.alike_report fault location
  have hstep : Step ⟨s, [], .reading⟩ ⟨s.report fault location, [], .reading⟩ :=
    .progress (.report _ fun heq => hfault (Fault.code_eq_cyclic.mp heq))
  refine ⟨h.own, h.sets.step hstep ?_, halike.finished.trans h.opened,
    (congrArg (·.maxDiagnostics) hstep.grows.settings).trans h.room, fun job hc => ?_, ?_⟩
  · show s.symbols.get? n ≠ none ∨ (s.report fault location).symbols.get? n = none
    rw [halike.symbols]
    exact ne_or_eq _ _
  · exact h.jobs job (hc.of_subset halike.pendings (List.Subset.refl _))
  · have hworks : Moment.works ⟨s.report fault location, [], .reading⟩ = Moment.works ⟨s, [], .reading⟩ := by
      rw [Moment.works, Moment.works, halike.pendings]
    rw [Moment.tally, hworks, reportsOn_report h.room, ← h.tally, Moment.tally]
    dsimp only
    omega

/-- Faults of another kind are not counted. -/
theorem Tallied.report_other (h : s.Tallied n v topic k) (fault : Fault) (hfault : fault ≠ .cyclic)
    (hcode : fault.code ≠ topic.code) (location : Location) : (s.report fault location).Tallied n v topic k := by
  have hreport := h.report fault hfault location
  rw [Diagnostic.isOn_of_code_ne hcode, if_neg Bool.false_ne_true] at hreport
  exact hreport

theorem Tallied.reportAny (h : s.Tallied n v topic k) {fault? : Option Fault}
    (hfault : ∀ fault, fault? = some fault → fault ≠ .cyclic ∧ fault.code ≠ topic.code) (location : Location) :
    (s.reportAny fault? location).Tallied n v topic k := by
  cases fault? with
  | none => exact h
  | some fault => exact h.report_other fault (hfault fault rfl).1 (hfault fault rfl).2 location

/-- Changes of the layout that come with quiet jobs add nothing. -/
theorem Tallied.arrange (h : s.Tallied n v topic k) {layout : Layout} {job? : Option Job}
    (ha : s.layout.Arranges layout job?) (hjob : ∀ job, job? = some job → job.Quiet topic n v) :
    ({ s with layout }.resolveAll job?.toList).Tallied n v topic k :=
  h.launches_of_quiet (launches_arrange ha) (ne_or_eq _ _) fun job hmem => hjob job (Option.mem_toList.mp hmem)

theorem Tallied.arrange_none (h : s.Tallied n v topic k) {layout : Layout} (ha : s.layout.Arranges layout none) :
    Tallied { s with layout } n v topic k :=
  h.arrange ha fun _ hjob => absurd hjob (Option.some_ne_none _).symm

theorem Tallied.ensureSection (h : s.Tallied n v topic k) :
    (s.mapLayout Layout.ensureSection).Tallied n v topic k := h.arrange_none s.layout.arranges_ensureSection

theorem Tallied.align (h : s.Tallied n v topic k) (alignment : Alignment) {f : Frame}
    (hf : f.Scoped s.layout.spaces) : (s.align alignment f).Tallied n v topic k := by
  unfold Assembly.align
  split
  · rename_i layout heq
    exact h.arrange_none (Layout.arranges_align_none heq)
  · rename_i p layout heq
    refine h.arrange (Layout.arranges_align_some heq hf) fun job hjob => ?_
    cases hjob
    exact Job.quiet_of_isFaultless trivial

end Assembly

/-! ## 4. Operands -/

namespace DataOperand

/-- Whether what may be reported on a topic depends on a parameter only. About the range of a length modifier nothing
else matters, and otherwise the duplication factor and the scale modifier do, too. -/
structure RestsOn (op : DataOperand) (topic : Topic) (n : Name) : Prop where
  length : op.length?.all (·.expr.isOver n none)
  others : topic.isModifier ∨ op.duplication?.all (·.isOver n none) ∧ op.scale?.all (·.isOver n none)

/-- Whether the topic is that length modifiers are out of their ranges, and the one of the operand is. -/
def exceedsOn (op : DataOperand) (topic : Topic) (bounds : Int32 × Int32) (v : Int32) : Bool :=
  topic.isModifier && op.exceeds bounds v

/-- What an operand has still to add to the tally when its amounts have been looked at. -/
def due (op : DataOperand) (topic : Topic) (bounds : Int32 × Int32) (v : Int32) : Amount → Nat
  | .known _ => 0
  | .deferred _ => if op.exceedsOn topic bounds v then 1 else 0

theorem exceedsOn_isModifier {topic : Topic} (h : topic.isModifier) (op : DataOperand) (bounds : Int32 × Int32)
    (v : Int32) : op.exceedsOn topic bounds v = op.exceeds bounds v := by rw [exceedsOn, h, Bool.true_and]

end DataOperand

namespace Assembly

/-- What the label of an operand adds to the tally if it is taken. -/
def repeats (s : Assembly) (label? : Option Name) (topic : Topic) : Nat :=
  if topic.isRedefinition && label?.any (s.symbols.contains ·) then 1 else 0

variable {s t : Assembly} {st : Statement} {n l : Name} {v : Int32} {topic : Topic} {k : Nat} {op : DataOperand}
  {bounds : Int32 × Int32} {length : Amount} {f : Frame}

theorem repeats_none (s : Assembly) (topic : Topic) : s.repeats none topic = 0 := by
  rw [repeats, Option.any_none, Bool.and_false, if_neg Bool.false_ne_true]

theorem repeats_free (h : s.symbols.get? l = none) (topic : Topic) : s.repeats (some l) topic = 0 := by
  rw [repeats, Option.any_some, SymbolTable.contains, h, Option.isSome_none, Bool.and_false, if_neg Bool.false_ne_true]

theorem repeats_taken (h : s.symbols.get? l ≠ none) (topic : Topic) :
    s.repeats (some l) topic = if topic.isRedefinition then 1 else 0 := by
  rw [repeats, Option.any_some, SymbolTable.contains, Option.isSome_iff_ne_none.mpr h, Bool.and_true]

theorem repeats_of_isModifier (h : topic.isModifier) (s : Assembly) (label? : Option Name) :
    s.repeats label? topic = 0 := by
  have hother : topic.isRedefinition = false := by
    rw [Topic.isRedefinition, topic.code_of_isModifier h]
    decide
  rw [repeats, hother, Bool.false_and, if_neg Bool.false_ne_true]

/-! ### Faults of the amounts -/

theorem other_of_isEvaluated (htopic : topic.isModifier) {fault : Fault} (h : fault.isEvaluated) :
    fault ≠ .cyclic ∧ fault.code ≠ topic.code := by
  rw [topic.code_of_isModifier htopic]
  exact ⟨Fault.ne_cyclic (Fault.isComputed_of_isEvaluated h), Fault.code_ne_of_isEvaluated h⟩

theorem other_of_duplicationAmount (hset : s.Sets n v) (hop : op.RestsOn topic n) (f : Frame) :
    ∀ fault, (s.duplicationAmount op f).2 = some fault → fault ≠ .cyclic ∧ fault.code ≠ topic.code := by
  intro fault hfault
  rcases hop.others with htopic | ⟨hdup, -⟩
  · exact other_of_isEvaluated htopic (s.evaluated_duplicationAmount op f fault hfault)
  · -- A factor that depends on the parameter is never at fault.
    unfold duplicationAmount at hfault
    split at hfault
    · cases hfault
    · rename_i e he
      rw [he] at hdup
      split at hfault
      · cases hfault
      · exact absurd ‹_› (faultless_evaluateNumber hset hdup f _ _)
      · cases hfault

theorem other_of_scaleSlot (hset : s.Sets n v) (hop : op.RestsOn topic n) (f : Frame) :
    ∀ fault, (s.scaleSlot op f).2 = some fault → fault ≠ .cyclic ∧ fault.code ≠ topic.code := by
  intro fault hfault
  rcases hop.others with htopic | ⟨-, hscale⟩
  · exact other_of_isEvaluated htopic (s.evaluated_scaleSlot op f fault hfault)
  · unfold scaleSlot at hfault
    split at hfault
    · split at hfault
      · cases hfault
      · rename_i e he
        rw [he] at hscale
        split at hfault
        · cases hfault
        · exact absurd ‹_› (faultless_evaluateNumber hset hscale f _ _)
        · cases hfault
    · cases hfault

/-! ### Jobs of an operand -/

/-- A job that compares a length modifier with its range is counted just if that is out of it. -/
theorem owes_modifier {job : Job} {m : LengthModifier} (hm : op.length? = some m)
    (hr : job.task.range? = some (m.bytes, bounds)) (hplace : job.frame.location = topic.place) :
    job.owes topic v = op.exceedsOn topic bounds v := by
  rw [Job.owes_of_range? hr hplace, DataOperand.exceedsOn, DataOperand.exceeds, DataOperand.modifierAt?_of_length? hm]
  rfl

theorem accountable_modifier {job : Job} {m : LengthModifier} (hop : op.RestsOn topic n)
    (hm : op.length? = some m) (hr : job.task.range? = some (m.bytes, bounds)) : job.Accountable topic n v := by
  have hover := hop.length
  rw [hm] at hover
  exact Job.accountable_of_range? hr (LengthModifier.isOver_bytes hover)

theorem quiet_scaleJobs (hop : op.RestsOn topic n) {scale : Slot Int32} :
    ∀ job ∈ scaleJobs l op scale f, job.Quiet topic n v := by
  intro job hjob
  unfold scaleJobs at hjob
  split at hjob
  · rename_i e he
    split at hjob
    · rw [List.mem_singleton.mp hjob]
      refine Job.quiet_of_range? rfl (hop.others.imp_right fun hothers => ?_)
      have hscale := hothers.2
      rw [he] at hscale
      exact hscale
    · cases hjob
  · cases hjob

theorem quiet_integerJobs {integer : Slot Int32} : ∀ job ∈ integerJobs l op integer f, job.Quiet topic n v := by
  intro job hjob
  unfold integerJobs at hjob
  split at hjob
  · rw [List.mem_singleton.mp hjob]
    exact Job.quiet_of_isFaultless trivial
  · cases hjob

/-- Of the jobs of a label that of its length attribute is counted. -/
theorem countP_attributeJobs (hop : op.RestsOn topic n)
    (hdefers : ∀ e, length = .deferred e → ∃ m, op.length? = some m ∧ e = m.bytes)
    (hplace : f.location = topic.place) (attributes : SymbolAttributes) :
    (attributeJobs l op length attributes bounds f).countP (·.owes topic v) = op.due topic bounds v length := by
  rw [attributeJobs, List.countP_append, List.countP_append, countP_owes_eq_zero (quiet_scaleJobs hop),
    countP_owes_eq_zero (@quiet_integerJobs n l v topic op f attributes.integer)]
  cases length with
  | known x => rfl
  | deferred e =>
    obtain ⟨m, hm, rfl⟩ := hdefers e rfl
    rw [lengthJobs, List.countP_singleton, owes_modifier hm rfl hplace]
    rfl

theorem accountable_attributeJobs (hop : op.RestsOn topic n)
    (hdefers : ∀ e, length = .deferred e → ∃ m, op.length? = some m ∧ e = m.bytes)
    (attributes : SymbolAttributes) :
    ∀ job ∈ attributeJobs l op length attributes bounds f, job.Accountable topic n v := by
  intro job hjob
  rw [attributeJobs, List.mem_append, List.mem_append] at hjob
  rcases hjob with (hjob | hjob) | hjob
  · cases length with
    | known x => cases hjob
    | deferred e =>
      obtain ⟨m, hm, rfl⟩ := hdefers e rfl
      rw [List.mem_singleton.mp hjob]
      exact accountable_modifier hop hm rfl
  · exact (quiet_scaleJobs hop job hjob).accountable
  · exact (quiet_integerJobs job hjob).accountable

/-! ### What an operand adds -/

theorem Tallied.checkLength (h : s.Tallied n v topic k) (hop : op.RestsOn topic n) (bounds : Int32 × Int32)
    (hdefers : ∀ e, length = .deferred e → ∃ m, op.length? = some m ∧ e = m.bytes)
    (hf : f.Scoped s.layout.spaces) (hplace : f.location = topic.place) :
    (s.checkLength op length bounds f).Tallied n v topic (k + op.due topic bounds v length) := by
  cases length with
  | known x => exact h
  | deferred e =>
    obtain ⟨m, hm, rfl⟩ := hdefers e rfl
    have hlaunch := h.launches_of_kept
      (@launches_check s ⟨.check (.lengthInRange m.bytes op.type.code bounds.1 bounds.2), f⟩ rfl ⟨hf, trivial⟩)
      (ne_or_eq _ _) fun job hjob => by
        rw [List.mem_singleton.mp hjob]
        exact accountable_modifier hop hm rfl
    rw [List.countP_singleton, owes_modifier hm rfl hplace] at hlaunch
    exact hlaunch

theorem Tallied.scaleOperand (h : s.Tallied n v topic k) (hop : op.RestsOn topic n) (f : Frame) :
    (s.scaleOperand op f).2.Tallied n v topic k :=
  h.ensureSection.reportAny (other_of_scaleSlot h.ensureSection.sets.value hop f) f.location

/-- A label that is free takes its length attribute from the length modifier, and one that is taken is reported. -/
theorem Tallied.defineLabel (h : s.Tallied n v topic k) (hs : s.Ready) (hlabel : st.label? = some l) (hne : l ≠ n)
    (hop : op.RestsOn topic n) (hdefers : ∀ e, length = .deferred e → ∃ m, op.length? = some m ∧ e = m.bytes)
    (hf : f.Scoped s.layout.spaces) (hlocation : f.location = st.location) (hplace : f.location = topic.place) :
    (s.defineLabel l op length bounds f).2.Tallied n v topic
      (k + (if (s.defineLabel l op length bounds f).1 then op.due topic bounds v length else 0) +
        s.repeats (some l) topic) := by
  have hscale := h.scaleOperand hop f
  by_cases hnone : s.symbols.get? l = none
  · obtain ⟨u, t, heq, hlaunch, hget⟩ := launches_defineLabel hs hlabel hnone op length bounds hf hlocation
    have hkept : (s.scaleOperand op f).2.symbols.get? n ≠ none ∨ u.symbols.get? n = none := by
      rw [hget, if_neg hne.symm, symbols_scaleOperand]
      exact ne_or_eq _ _
    have ht := hscale.launches_of_kept hlaunch hkept (accountable_attributeJobs hop hdefers _)
    rw [countP_attributeJobs hop hdefers hplace] at ht
    rw [heq, repeats_free hnone]
    exact ht
  · have hreport := hscale.report (.redefinition "symbol") nofun f.location
    rw [Diagnostic.isOn_redefinition hplace] at hreport
    rw [defineLabel_of_taken hnone, repeats_taken hnone, if_neg Bool.false_ne_true]
    exact hreport

/-! Neither alignment nor the frame has anything to do with length modifiers. -/

theorem Tallied.alignOperand (h : s.Tallied n v topic k) (st : Statement) (op : DataOperand) :
    (s.alignOperand st op).Tallied n v topic k := by
  unfold Assembly.alignOperand
  split
  · exact h
  · exact h.align op.type.alignment (scoped_frame st _)

theorem Tallied.frameFor (h : s.Tallied n v topic k) (st : Statement) (exprs : List (Option Expr)) :
    (s.frameFor st exprs).2.Tallied n v topic k := by
  rcases s.frameFor_cases st exprs with heq | heq <;> rw [heq]
  · exact h
  · exact h.ensureSection

/-- A length modifier that is out of its range is counted if the tally is about length modifiers. -/
theorem Tallied.reportLength (h : s.Tallied n v topic k) (op : DataOperand) (bounds : Int32 × Int32)
    {location : Location} (hplace : location = topic.place) :
    (s.reportAny (if op.exceeds bounds v then some (op.lengthFault bounds) else none) location).Tallied n v topic
      (k + if op.exceedsOn topic bounds v then 1 else 0) := by
  rw [DataOperand.exceedsOn]
  by_cases hexceeds : op.exceeds bounds v
  · have hreport := h.report (op.lengthFault bounds) Fault.noConfusion location
    rw [DataOperand.isOn_lengthFault hplace] at hreport
    rw [if_pos hexceeds, hexceeds, Bool.and_true]
    exact hreport
  · rw [if_neg hexceeds, Bool.eq_false_iff.mpr hexceeds, Bool.and_false, if_neg Bool.false_ne_true]
    exact h

/-- A length modifier is reported at once if it is out of its range, or its operand has it to add. -/
theorem Tallied.prepareOperand (h : s.Tallied n v topic k) (hop : op.RestsOn topic n)
    (hplace : st.location = topic.place) (storageOnly : Bool) :
    let p := s.prepareOperand st storageOnly op
    op.Defers p.duplication p.length ∧ ∃ j, p.state.Tallied n v topic (k + j) ∧
      j + op.due topic (op.type.lengthBounds storageOnly) v p.length =
        if op.exceedsOn topic (op.type.lengthBounds storageOnly) v then 1 else 0 := by
  unfold Assembly.prepareOperand
  generalize [op.duplication?, op.length?.map (·.expr), op.scale?, op.exponent?] = exprs
  have hlocation := (s.alignOperand st op).location_frameFor st exprs
  have hframed := (h.alignOperand st op).frameFor st exprs
  generalize (s.alignOperand st op).frameFor st exprs = r at hlocation hframed
  obtain ⟨frame, t⟩ := r
  dsimp only at hlocation hframed ⊢
  have hplace := hlocation.trans hplace
  have hduplication : ∀ t : Assembly, ∀ e, (t.duplicationAmount op frame).1 = .deferred e →
      op.duplication? = some e := fun t e => t.deferred_duplicationAmount op frame
  rcases lengthAmount_over hframed.sets.valid.wellFormed.named hframed.opened hframed.sets.value hop.length
    (op.type.lengthBounds storageOnly) frame with heq | ⟨m, hm, heq⟩
  · rw [heq]
    have hlength := hframed.reportLength op (op.type.lengthBounds storageOnly) hplace
    refine ⟨⟨hduplication _, fun _ he => Amount.noConfusion he⟩, _, ?_, Nat.add_zero _⟩
    exact hlength.reportAny (other_of_duplicationAmount hlength.sets.value hop frame) _
  · rw [heq]
    refine ⟨⟨hduplication _, fun e he => ⟨m, hm, (Amount.deferred.inj he).symm⟩⟩, 0, ?_, Nat.zero_add _⟩
    exact hframed.reportAny (other_of_duplicationAmount hframed.sets.value hop frame) _

theorem Tallied.reserveStorage (h : s.Tallied n v topic k) (hop : op.RestsOn topic n) {duplication : Amount}
    (hdefers : op.Defers duplication length) (label? : Option Name) (hf : f.Scoped s.layout.spaces) :
    (s.reserveStorage op label? duplication length f).Tallied n v topic k := by
  unfold Assembly.reserveStorage
  split
  · exact h.arrange_none (s.layout.arranges_reserve _)
  · refine h.arrange (@Layout.arranges_passSpace s.layout _ (.storage (storageExpr op label? duplication length))
      trivial f hf) fun job hjob => ?_
    cases hjob
    refine Job.quiet_of_range? rfl (hop.others.imp_right fun hothers => ⟨label?, isOver_storageExpr ?_ hdefers label?⟩)
    rw [DataOperand.isOver, hothers.1, hop.length]
    rfl

/-- Every operand adds one to the tally if its length modifier is out of its range, or if its label is taken. -/
theorem Tallied.processOperand (h : s.Tallied n v topic k) (hs : s.Ready) (hst : st.label? ≠ some n)
    (hop : op.RestsOn topic n) (hplace : st.location = topic.place) (storageOnly : Bool)
    {label? : Option Name} (hlabel : ∀ name, label? = some name → st.label? = some name) :
    (s.processOperand st storageOnly label? op).Tallied n v topic
      (k + (if op.exceedsOn topic (op.type.lengthBounds storageOnly) v then 1 else 0) + s.repeats label? topic) := by
  obtain ⟨hprepare, hscope, hlocation, -⟩ := stills_prepareOperand hs st storageOnly op
  obtain ⟨hdefers, j, hprepared, hsum⟩ := h.prepareOperand hop hplace storageOnly
  have hacts := (s.acts_alignOperand st op).trans hprepare.acts
  have hready := hacts.ready hs
  have henters := stills_enter hs storageOnly hlabel op
  have hfinish := stills_finish hs storageOnly hlabel op
  have hrepeats : (s.prepareOperand st storageOnly op).state.repeats label? topic = s.repeats label? topic := by
    cases label? with
    | none => rw [repeats_none, repeats_none]
    | some l =>
      by_cases hnone : s.symbols.get? l = none
      · rw [repeats_free hnone, repeats_free (hacts.get?_eq_none nofun hnone)]
      · rw [repeats_taken hnone, repeats_taken (get?_ne_none_of_run hacts.leads.steps hnone)]
  rw [processOperand_eq, ← hsum, ← hrepeats]
  dsimp only
  generalize s.prepareOperand st storageOnly op = p at *
  refine Tallied.reserveStorage ?_ hop hdefers _ (hscope.later hfinish.leads.earlier)
  have henter : (p.enter storageOnly label? op).2.Tallied n v topic
      (k + j + (if (p.enter storageOnly label? op).1 then op.due topic (op.type.lengthBounds storageOnly) v p.length
        else 0) + p.state.repeats label? topic) := by
    cases label? with
    | none =>
      rw [repeats_none]
      exact hprepared
    | some l =>
      exact hprepared.defineLabel hready (hlabel l rfl) (fun heq => hst (heq ▸ hlabel l rfl)) hop hdefers.length
        hscope hlocation (hlocation.trans hplace)
  -- Either the job for the length attribute of the label reports what is due, or the check does.
  unfold Preparation.finish
  dsimp only
  split
  · rename_i hdefined
    rw [if_pos hdefined, Nat.add_assoc k] at henter
    exact henter
  · rename_i hdefined
    rw [if_neg hdefined, Nat.add_zero] at henter
    have hcheck := henter.checkLength hop (op.type.lengthBounds storageOnly) hdefers.length
      (hscope.later henters.leads.earlier) (hlocation.trans hplace)
    rw [Nat.add_right_comm, Nat.add_assoc k] at hcheck
    exact hcheck

/-! ## 5. Statements -/

/-- Operands without a label are carried out one after another. -/
theorem Tallied.operands {operands : List DataOperand} (h : s.Tallied n v topic k) (hs : s.Ready)
    (hst : st.label? ≠ some n) (storageOnly : Bool) (hops : ∀ op ∈ operands, st.Reserves op)
    (hover : ∀ op ∈ operands, op.RestsOn topic n) (hplace : st.location = topic.place) :
    (operands.foldl (fun s op => s.processOperand st storageOnly none op) s).Tallied n v topic
      (k + operands.countP fun op => op.exceedsOn topic (op.type.lengthBounds storageOnly) v) := by
  induction operands generalizing s k with
  | nil => exact h
  | cons op rest ih =>
    have hfirst : (s.processOperand st storageOnly none op).Tallied n v topic _ :=
      h.processOperand hs hst (hover op List.mem_cons_self) hplace storageOnly fun _ h => nomatch h
    rw [repeats_none, Nat.add_zero] at hfirst
    have hready := (acts_processOperand_none hs storageOnly (hops op List.mem_cons_self)).ready hs
    have hrest := ih hfirst hready (fun op hop => hops op (List.mem_cons_of_mem _ hop))
      fun op hop => hover op (List.mem_cons_of_mem _ hop)
    rw [List.countP_cons, Nat.add_comm (List.countP _ rest), ← Nat.add_assoc]
    exact hrest

/-- A statement adds what its operands and its label add. -/
theorem Tallied.processData {operands : List DataOperand} (h : s.Tallied n v topic k) (hs : s.Ready)
    (hst : st.label? ≠ some n) {storageOnly : Bool} (hdata : st.operation = .data storageOnly operands)
    (hne : operands = [] → topic.isModifier) (hover : ∀ op ∈ operands, op.RestsOn topic n)
    (hplace : st.location = topic.place) :
    (s.processData st storageOnly operands).Tallied n v topic
      (k + operands.countP (fun op => op.exceedsOn topic (op.type.lengthBounds storageOnly) v) +
        s.repeats st.label? topic) := by
  cases operands with
  | nil =>
    rw [repeats_of_isModifier (hne rfl)]
    exact h
  | cons op rest =>
    have hops : ∀ op' ∈ op :: rest, st.Reserves op' := fun op' hop => ⟨storageOnly, _, hdata, hop⟩
    have hfirst := h.processOperand hs hst (hover op List.mem_cons_self) hplace storageOnly (fun _ => id)
    have hready := (acts_processOperand hs storageOnly (fun _ => id) (hops op List.mem_cons_self)).ready hs
    have hrest := hfirst.operands hready hst storageOnly (fun op' hop => hops op' (List.mem_cons_of_mem _ hop))
      (fun op' hop => hover op' (List.mem_cons_of_mem _ hop)) hplace
    rw [List.countP_cons, Nat.add_comm (List.countP _ rest), ← Nat.add_assoc, Nat.add_right_comm]
    exact hrest

/-- What a statement at another place does is not counted, piece by piece. -/
theorem Tallied.act (h : s.Tallied n v topic k) (hs : s.Ready) (hact : Act st s t) (hplace : st.location ≠ topic.place)
    (hkept : s.symbols.get? n ≠ none ∨ t.symbols.get? n = none) : t.Tallied n v topic k := by
  rcases hact.cases hs with ⟨fault, hfault, rfl⟩ | ⟨layout, job?, hopens, hlocation, rfl⟩ |
    ⟨u, sym, jobs, hu, hsupplies, -, rfl⟩
  · have hreport := h.report fault hfault.ne_cyclic st.location
    rw [Diagnostic.isOn_of_location_ne hplace, if_neg Bool.false_ne_true] at hreport
    exact hreport
  · refine h.launches_of_quiet hopens.launches (ne_or_eq _ _) fun job hjob => Job.quiet_of_location_ne fun heq => ?_
    exact hplace ((hlocation job (Option.mem_toList.mp hjob)).symm.trans heq)
  · obtain ⟨symbols, -, hlaunch⟩ := launches_supplies hsupplies hu
    refine h.launches_of_quiet hlaunch (hkept.imp_right fun hnone => ?_) fun job hjob =>
      Job.quiet_of_location_ne fun heq => hplace ((hsupplies.locations job hjob).symm.trans heq)
    exact Classical.byContradiction fun hin =>
      get?_ne_none_of_run (hlaunch.cascade.imp fun _ _ => Step.cascade) hin hnone

theorem Tallied.acts (h : s.Tallied n v topic k) (hs : s.Ready) (hacts : Acts st s t)
    (hplace : st.location ≠ topic.place) (hkept : s.symbols.get? n ≠ none ∨ t.symbols.get? n = none) :
    t.Tallied n v topic k := by
  induction hacts with
  | refl => exact h
  | @tail t u hacts hact ih =>
    have hback : u.symbols.get? n = none → t.symbols.get? n = none := fun hnone =>
      Classical.byContradiction fun hin => get?_ne_none_of_run hact.leads.steps hin hnone
    refine (ih (hkept.imp_right hback)).act (Acts.ready hacts hs) hact hplace ?_
    exact hkept.imp_left (get?_ne_none_of_run (Acts.leads hacts).steps)

end Assembly

end Assembler
