import Assembler.Proofs.LaterValue
import Assembler.Proofs.Tally
/-!
Storage before and after the equation of its parameter.

A DC or DS statement may depend on a parameter that gets its number later. In the end the label has the same length
attribute as if the parameter had had its number at once, the same is reported about the statement, and the bytes
reserved are those that the number makes of the operand (`Session.storage_of_parameter`). These are the same bytes if
their exact number fits into 32 bits, except where a length modifier is out of its range and no label takes it for its
length attribute: then it is reserved as it is, although it is reported.
-/

namespace Assembler

open Assembly Moment

/-! ## 1. Commands at other places -/

namespace Assembly

variable {s t : Assembly} {st : Statement} {n : Name} {v : Int32} {topic : Topic} {k : Nat}

theorem tallied_new (settings : Settings) (hroom : settings.maxDiagnostics = 0) (n : Name) (v : Int32)
    (hown : topic.IsOwn) : (Assembly.new settings).Tallied n v topic 0 where
  own := hown
  sets := (Moment.valid_start settings).sets (SymbolTable.get?_empty n) v
  opened := rfl
  room := hroom
  jobs job hc := absurd hc (not_carries_new settings job)
  tally := @Moment.tally_of_quiet _ topic n v fun job hc => absurd hc (not_carries_new settings job)

/-- Statements at another place keep the tally. -/
theorem Tallied.process {eq : Equation} (h : s.Tallied eq.label v topic k) (hs : s.Ready)
    (hconst : eq.value.compute? (fun _ => none) = some v)
    (hst : st.label? = some eq.label → st = eq.statement) (hplace : st.location ≠ topic.place) :
    (s.process st).Tallied eq.label v topic k := by
  have hacts := acts_process hs st
  by_cases hin : s.symbols.get? eq.label = none
  · by_cases hlabel : st.label? = some eq.label
    · obtain rfl := hst hlabel
      obtain ⟨u, hlaunch, -, hsets⟩ := launches_equation hs hin hconst
      have hquiet : ∀ job ∈ [eq.job], job.Quiet topic eq.label v := fun job hjob => by
        rw [List.mem_singleton.mp hjob]
        exact Job.quiet_of_location_ne hplace
      have hlast := h.launches hlaunch hsets fun job hjob => (hquiet job hjob).accountable
      rw [countP_owes_eq_zero hquiet] at hlast
      exact hlast
    · exact h.acts hs hacts hplace (.inr (hacts.get?_eq_none hlabel hin))
  · exact h.acts hs hacts hplace (.inl hin)

/-- What enters no name, meets no job and reports nothing keeps the tally. -/
theorem Tallied.progress (h : s.Tallied n v topic k) (hstep : Progress ⟨s, [], .reading⟩ ⟨t, [], .reading⟩)
    (hsymbols : t.symbols = s.symbols) (hpendings : t.pendings = s.pendings)
    (hdiagnostics : t.diagnostics = s.diagnostics) : t.Tallied n v topic k := by
  have hkept : s.symbols.get? n ≠ none ∨ t.symbols.get? n = none := by
    rw [hsymbols]
    exact ne_or_eq _ _
  have hnone : ∀ job ∈ ([] : List Job), job.Accountable topic n v := List.forall_mem_nil _
  exact h.meet (.progress hstep) (h.sets.step (.progress hstep) hkept)
    ((Advance.finished (.progress hstep)).trans h.opened) hpendings hdiagnostics rfl hnone

end Assembly

namespace Session

variable {s : Session} {eq : Equation} {v : Int32} {topic : Topic} {k : Nat} {commands : List Command}

theorem tallied_perform (h : s.assembly.Tallied eq.label v topic k) (hs : s.assembly.Ready)
    (hconst : eq.value.compute? (fun _ => none) = some v) {c : Command} (hc : Defines eq [c])
    (hplace : ∀ st, c = .process st → st.location ≠ topic.place) :
    (s.perform c).assembly.Tallied eq.label v topic k := by
  cases c with
  | process st => exact h.process hs hconst (hc.sole st List.mem_cons_self) (hplace st rfl)
  | defineMacro name origin =>
    exact (h.progress (.defineMacro _ origin) rfl rfl rfl).run (run_drain _ forall_mem_nil)
  | defineVariable name value => exact h.progress (.defineVariable _ value) rfl rfl rfl
  | requestAttribute | requestVariableAttribute => exact h
  | finish => exact absurd List.mem_cons_self hc.unfinished

/-- Commands at other places keep the tally. -/
theorem tallied_performAll (h : s.assembly.Tallied eq.label v topic k) (hs : s.assembly.Ready)
    (hconst : eq.value.compute? (fun _ => none) = some v) (hdefines : Defines eq commands)
    (hplace : ∀ st, .process st ∈ commands → st.location ≠ topic.place) :
    (s.performAll commands).assembly.Tallied eq.label v topic k := by
  induction commands generalizing s with
  | nil => exact h
  | cons c rest ih =>
    have hc : Defines eq [c] := hdefines.of_subset (List.cons_subset_cons c (List.nil_subset rest))
    have hready := (leads_perform hs fun heq => hc.unfinished (List.mem_singleton.mpr heq.symm)).ready hs
    have hnext := tallied_perform h hs hconst hc fun st heq => hplace st (heq ▸ List.mem_cons_self)
    exact @ih (s.perform c) hnext hready (hdefines.of_subset (List.subset_cons_self c rest))
      fun st hmem => hplace st (List.mem_cons_of_mem c hmem)

/-- Before its equation the parameter is not there. -/
theorem get?_eq_none_of_not_mem (hs : s.assembly.Ready) (hdefines : Defines eq commands)
    (hmem : .process eq.statement ∉ commands) (hnone : s.assembly.symbols.get? eq.label = none) :
    (s.performAll commands).assembly.symbols.get? eq.label = none := by
  induction commands generalizing s with
  | nil => exact hnone
  | cons c rest ih =>
    have hunfinished := List.ne_of_not_mem_cons hdefines.unfinished
    have hready := (leads_perform hs hunfinished.symm).ready hs
    refine @ih (s.perform c) hready (hdefines.of_subset (List.subset_cons_self c rest))
      (List.not_mem_of_not_mem_cons hmem) ?_
    by_cases hst : ∃ st, c = .process st
    · obtain ⟨st, rfl⟩ := hst
      refine (acts_process hs st).get?_eq_none (fun hlabel => ?_) hnone
      rw [hdefines.sole st List.mem_cons_self hlabel] at hmem
      exact hmem List.mem_cons_self
    · exact get?_perform_eq_none hs c (fun st heq => hst ⟨st, heq⟩) hnone

end Session

/-! ## 2. The end of the source -/

namespace Moment

variable {m m' : Moment} {s : Assembly} {n : Name} {v : Int32} {topic : Topic} {k : Nat}

/-- When the parameter has its number and no work is left to be tried, only the reports are left. -/
theorem Tallied.quiet (h : Tallied ⟨s, [], .placing⟩ n v topic k) (hw : Watchful ⟨s, [], .placing⟩)
    (hdone : s.Done) (hhas : s.Has n v) : ∀ job, Carries ⟨s, [], .placing⟩ job → job.Quiet topic n v := by
  intro job hc
  rcases h.jobs job hc with hquiet | ⟨-, -, e, bounds, hr, he⟩
  · exact hquiet
  · obtain ⟨waiting, hwaiting, q, hq, hlacks⟩ := hw.exists_lacking h.sets.valid nofun h.opened hdone hc
    rcases attempt_range h.sets.valid.wellFormed.named h.opened h.sets.value hr he with
      ⟨d, hd, -⟩ | ⟨d, fault, hd, -⟩ | ⟨_, hblocked, hmem⟩
    · cases hwaiting.symm.trans hd
    · cases hwaiting.symm.trans hd
    · cases hwaiting.symm.trans hblocked
      rw [hmem q hq] at hlacks
      exact absurd hlacks (not_lacks_of_has hhas)

/-- While the assembly is completed, quiet jobs add no reports. -/
theorem reportsOn_completion (h : Completion m m') (hown : topic.IsOwn) (hsets : m.Sets n v)
    (hquiet : ∀ job, m.Carries job → job.Quiet topic n v) :
    m'.state.reportsOn topic = m.state.reportsOn topic := by
  rcases h with h | h
  · cases h with
    | settle => exact reportsOn_settle hown (hquiet _ (.inl ⟨_, List.mem_cons_self, rfl⟩)) hsets.value _
    | pick | skip | stall | resume => rfl
  · cases h with
    | explain => exact reportsOn_explain hown _ _ _
    | conclude explained =>
      exact reportsOn_conclude hown (hquiet _ (.inl ⟨_, List.mem_singleton_self _, rfl⟩)) hsets.value explained
    | place | close | choose | clear => rfl

theorem Sets.completion (hsets : m.Sets n v) (h : Completion m m') : m'.Sets n v := by
  refine hsets.step h.step ?_
  by_cases hnone : m.state.symbols.get? n = none
  · exact .inr (h.get?_eq_none hnone)
  · exact .inl hnone

end Moment

namespace Assembly

variable {s : Assembly} {n : Name} {v : Int32} {topic : Topic} {k : Nat}

/-- What is known when the further location counters have been placed is known in the end. -/
theorem earlier_finish (hs : s.Ready) (hf : s.finished = false) : s.placeCounters.drainAll.Earlier s.finish :=
  ((run_of_placed hs hf).imp fun _ _ => Completion.step).grows.earlier

/-- In the end the tally is the number of reports. -/
theorem Tallied.finish (h : s.Tallied n v topic k) (hs : s.Ready)
    (hw : Watchful ⟨s.placeCounters.drainAll, [], .placing⟩) (hhas : s.placeCounters.drainAll.Has n v) :
    s.finish.reportsOn topic = k := by
  have hplace : Step ⟨s, [], .reading⟩ _ := .ending (.place h.opened)
  have hjobs : s.layout.placements.map (fun p => ((none : Option Nat), p.job s.layout.counterAlignment)) =
      [] ++ (s.layout.placements.map (·.job s.layout.counterAlignment)).map (none, ·) := by
    rw [List.map_map]
    rfl
  have hquiet : ∀ job ∈ s.layout.placements.map (·.job s.layout.counterAlignment), job.Quiet topic n v := by
    intro job hjob
    obtain ⟨p, -, rfl⟩ := List.mem_map.mp hjob
    exact quiet_placement p _
  have hplaced := h.meet hplace (h.sets.step hplace (ne_or_eq _ _)) h.opened rfl rfl hjobs fun job hjob =>
    (hquiet job hjob).accountable
  rw [countP_owes_eq_zero hquiet] at hplaced
  have hlast := hplaced.run s.run_placeCounters
  have hquiet := hlast.quiet hw (drainAll_done _) hhas
  obtain ⟨u, hrun, -, -, heq⟩ := exists_closing_of_placed hs h.opened
  have hclose : Completion ⟨s.placeCounters.drainAll, [], .placing⟩ _ :=
    .inr (.close (drainAll_done _).1 (drainAll_done _).2)
  -- Closing steps find quiet jobs only, and leave these.
  have hclosed := (hrun.keeps
    (P := fun m => (m.Sets n v ∧ ∀ job, m.Carries job → job.Quiet topic n v) ∧ m.state.reportsOn topic = k)
    (fun a b hstep ⟨⟨hsets, hq⟩, hk⟩ => ⟨⟨hsets.completion hstep, quiet_of_completion hstep hq⟩,
      (reportsOn_completion hstep h.own hsets hq).trans hk⟩)
    ⟨⟨hlast.sets.completion hclose, quiet_of_completion hclose hquiet⟩,
      (tally_of_quiet hquiet).symm.trans hlast.tally⟩).2
  rw [heq]
  exact hclosed

end Assembly

/-! ## 3. Programs -/

/-- The label that an operand of DC or DS gets after others. Only the first one has a label. -/
def Statement.labelAfter? (st : Statement) (earlier : List DataOperand) : Option Name :=
  if earlier.isEmpty then st.label? else none

theorem Statement.label?_of_labelAfter? {st : Statement} {earlier : List DataOperand} {l : Name}
    (h : st.labelAfter? earlier = some l) : st.label? = some l := by
  unfold labelAfter? at h
  split at h
  · exact h
  · cases h

theorem Assembly.processData_append (s : Assembly) (st : Statement) (storageOnly : Bool)
    (earlier later : List DataOperand) (op : DataOperand) :
    s.processData st storageOnly (earlier ++ op :: later) =
      later.foldl (fun s op => s.processOperand st storageOnly none op)
        ((s.processData st storageOnly earlier).processOperand st storageOnly (st.labelAfter? earlier) op) := by
  cases earlier with
  | nil => rfl
  | cons first others =>
    show (others ++ op :: later).foldl _ _ = _
    rw [List.foldl_append]
    rfl

namespace Session

/-- Whether a program has a DC or DS statement, and one equation for a parameter before or after the statement. -/
structure StoresOver (eq : Equation) (v : Int32) (before : List Command) (st : Statement) (storageOnly : Bool)
    (operands : List DataOperand) (after : List Command) : Prop where
  number : eq.value.compute? (fun _ => none) = some v
  placed : .process eq.statement ∈ before ∨ .process eq.statement ∈ after
  defines : Defines eq (before ++ .process st :: after)
  data : st.operation = .data storageOnly operands

variable {settings : Settings} {eq : Equation} {v : Int32} {before after : List Command} {st : Statement}
  {storageOnly : Bool} {operands earlier later : List DataOperand} {op : DataOperand} {l : Name}

namespace StoresOver

/-- The label of the statement is another name. -/
theorem label?_ne (h : StoresOver eq v before st storageOnly operands after) : st.label? ≠ some eq.label := by
  intro hlabel
  have hdata := h.data
  rw [h.defines.sole st (List.mem_append_right _ List.mem_cons_self) hlabel] at hdata
  cases hdata

theorem reserves (h : StoresOver eq v before st storageOnly operands after) (hop : op ∈ operands) :
    st.Reserves op := ⟨storageOnly, _, h.data, hop⟩

/-- The statement leads to a state at the end of the source in which the parameter has its number. -/
theorem closes (h : StoresOver eq v before st storageOnly operands after) (settings : Settings) :
    let s := ((new settings).performAll before).assembly
    let t := ((new settings).performAll (before ++ .process st :: after)).assembly
    s.Ready ∧ s.finished = false ∧ s.AtRest eq.label v ∧
      Moment.Closes ⟨s.processData st storageOnly operands, [], .reading⟩ eq.label v t.placeCounters.drainAll := by
  have hbefore := h.defines.of_subset (List.subset_append_left before _)
  have hleads := leads_performAll (s := new settings) (ready_new settings) hbefore.unfinished
  have hmem : Command.process eq.statement ∈ before ++ .process st :: after :=
    List.mem_append.mpr (h.placed.imp_right (List.mem_cons_of_mem _))
  have hsplit : before ++ .process st :: after = before ++ [.process st] ++ after := by simp
  obtain ⟨hrest, -⟩ := closes_performAll settings h.number hmem h.defines
  have hdefines := h.defines
  rw [hsplit] at hmem hdefines
  have hcloses := (closes_performAll settings h.number hmem hdefines).2
  have hprocess : ((new settings).performAll (before ++ [.process st])).assembly =
      ((new settings).performAll before).assembly.processData st storageOnly operands := by
    rw [performAll_append]
    show ((new settings).performAll before).assembly.process st = _
    rw [Assembly.process, h.data]
  rw [hprocess] at hcloses
  dsimp only
  rw [hsplit]
  exact ⟨hleads.ready (ready_new settings), hleads.finished, hrest, hcloses⟩

/-- The parameter has its number there, or its number comes late. -/
theorem tells (h : StoresOver eq v before st storageOnly operands after) (settings : Settings) :
    let s := ((new settings).performAll before).assembly
    (.process eq.statement ∈ before → s.Tells eq.label v false) ∧
      (.process eq.statement ∉ before → s.Tells eq.label v true) := by
  have hbefore := h.defines.of_subset (List.subset_append_left before _)
  refine ⟨fun hmem => ?_, fun hmem => ?_⟩
  · exact has_of_sets (h.closes settings).2.2.1
      (get?_ne_none_of_mem (ready_new settings) rfl h.number hbefore.unfinished hmem)
  · exact get?_eq_none_of_not_mem (ready_new settings) hbefore hmem (SymbolTable.get?_empty _)

/-- Each operand leads to that state, and until it is carried out nothing becomes of the parameter. -/
theorem closes_operand (h : StoresOver eq v before st storageOnly (earlier ++ op :: later) after)
    (settings : Settings) :
    let s := ((new settings).performAll before).assembly.processData st storageOnly earlier
    let t := ((new settings).performAll (before ++ .process st :: after)).assembly
    s.Ready ∧ s.finished = false ∧ s.AtRest eq.label v ∧
      (∀ late, ((new settings).performAll before).assembly.Tells eq.label v late → s.Tells eq.label v late) ∧
      Moment.Closes ⟨s.processOperand st storageOnly (st.labelAfter? earlier) op, [], .reading⟩ eq.label v
        t.placeCounters.drainAll := by
  intro s t
  obtain ⟨hs, hopen, hrest, hcloses⟩ := h.closes settings
  have hearlier : Acts st _ s := acts_dataOperands hs storageOnly fun op' hop' =>
    h.reserves (List.mem_append_left _ hop')
  have hready := hearlier.ready hs
  have hunfinished := hearlier.leads.finished.trans hopen
  have hatRest := (approach_acts hopen hrest hearlier h.label?_ne).2
  have hlabel : ∀ name, st.labelAfter? earlier = some name → st.label? = some name :=
    fun _ => Statement.label?_of_labelAfter?
  have hoperand := acts_processOperand hready storageOnly hlabel
    (h.reserves (List.mem_append_right _ List.mem_cons_self))
  -- The operands behind it only add, so what closes the whole statement closes after this operand.
  have hlater : Acts st _ (later.foldl (fun s op => s.processOperand st storageOnly none op) _) :=
    (acts_operands (hoperand.ready hready) fun op' hop' =>
      h.reserves (List.mem_append_right _ (List.mem_cons_of_mem op hop'))).labelled
  rw [processData_append] at hcloses
  exact ⟨hready, hunfinished, hatRest, fun late htells => htells.acts hopen hrest hearlier h.label?_ne,
    hcloses.of_run (approach_acts (hoperand.leads.finished.trans hunfinished)
      (approach_acts hunfinished hatRest hoperand h.label?_ne).2 hlater h.label?_ne).1⟩

/-- What is known when the further location counters have been placed is known in the end. -/
theorem earlier_finish (h : StoresOver eq v before st storageOnly operands after) (settings : Settings) :
    let t := ((new settings).performAll (before ++ .process st :: after)).assembly
    t.Ready ∧ t.placeCounters.drainAll.Earlier t.finish := by
  have hleads := leads_performAll (s := new settings) (ready_new settings) h.defines.unfinished
  have hready := hleads.ready (ready_new settings)
  exact ⟨hready, Assembly.earlier_finish hready hleads.finished⟩

/-- The bytes of an operand are those that the number makes of it, known at once or later. -/
theorem bytes_operand (h : StoresOver eq v before st storageOnly (earlier ++ op :: later) after)
    (settings : Settings) (hop : op.isOver eq.label) (hfit : op.implicitLength < 2 ^ 31) {late : Bool}
    (htells : ((new settings).performAll before).assembly.Tells eq.label v late) :
    let s := ((new settings).performAll before).assembly
    let t := s.processData st storageOnly earlier
    let f := ((new settings).performAll (before ++ .process st :: after)).finish.assembly
    Length.between f.layout.spaces (t.processOperand st storageOnly (st.labelAfter? earlier) op).layout.position
        (t.alignOperand st op).layout.position =
      ⟨if late && op.mentions eq.label then op.bytesLater (op.type.lengthBounds storageOnly) eq.label v
        ((st.labelAfter? earlier).any fun l => (s.symbols.get? l).isNone)
        else op.bytesAtOnce (op.type.lengthBounds storageOnly) v, []⟩ := by
  intro s t f
  obtain ⟨hready, hopen, hrest, htold, hc⟩ := h.closes_operand settings
  obtain ⟨hlast, hearlier⟩ := h.earlier_finish settings
  -- Only the first operand has a label, and nothing has been done before it.
  have hlabelled : ((st.labelAfter? earlier).any fun l => (t.symbols.get? l).isNone) =
      (st.labelAfter? earlier).any fun l => (s.symbols.get? l).isNone := by
    cases earlier <;> rfl
  refine Length.between_eq hlast.finish.valid.wellFormed.acyclic fun τ hτ => ?_
  rw [bytes_processOperand hready hopen hrest (htold late htells) h.label?_ne hop
    (fun _ => Statement.label?_of_labelAfter?) hfit hc (hearlier.spaces.fits hτ), hlabelled]
  grind

/-- These bytes in each case, and when there is no difference between the cases. -/
theorem bytes_cases (h : StoresOver eq v before st storageOnly (earlier ++ op :: later) after)
    (settings : Settings) (hop : op.isOver eq.label) (hfit : op.implicitLength < 2 ^ 31) :
    let s := ((new settings).performAll before).assembly
    let f := ((new settings).performAll (before ++ .process st :: after)).finish.assembly
    let bounds := op.type.lengthBounds storageOnly
    let t := s.processData st storageOnly earlier
    let bytes := Length.between f.layout.spaces
      (t.processOperand st storageOnly (st.labelAfter? earlier) op).layout.position
      (t.alignOperand st op).layout.position
    let labelled := (st.labelAfter? earlier).any fun l => (s.symbols.get? l).isNone
    (.process eq.statement ∈ before ∨ op.mentions eq.label = false → bytes = ⟨op.bytesAtOnce bounds v, []⟩) ∧
      (.process eq.statement ∉ before → op.mentions eq.label →
        bytes = ⟨op.bytesLater bounds eq.label v labelled, []⟩) ∧
      (op.Fits bounds v → (op.exceeds bounds v → labelled) → bytes = ⟨op.storageAt bounds v, []⟩) := by
  obtain ⟨hknown, hlate⟩ := h.tells settings
  have hbytes := fun (late : Bool)
      (htells : ((new settings).performAll before).assembly.Tells eq.label v late) =>
    h.bytes_operand settings hop hfit htells
  dsimp only at hbytes ⊢
  by_cases hmem : .process eq.statement ∈ before
  · have hbytes := hbytes false (hknown hmem)
    rw [Bool.false_and, if_neg Bool.false_ne_true] at hbytes
    refine ⟨fun _ => hbytes, fun hnot => absurd hmem hnot, fun hfits _ => ?_⟩
    exact hbytes.trans (by rw [hfits.bytesAtOnce hfit])
  · have hbytes := hbytes true (hlate hmem)
    rw [Bool.true_and] at hbytes
    cases hmentions : op.mentions eq.label with
    | false =>
      rw [hmentions, if_neg Bool.false_ne_true] at hbytes
      refine ⟨fun _ => hbytes, fun _ h => absurd h Bool.false_ne_true, fun hfits _ => ?_⟩
      exact hbytes.trans (by rw [hfits.bytesAtOnce hfit])
    | true =>
      rw [hmentions, if_pos rfl] at hbytes
      refine ⟨fun h => ?_, fun _ _ => hbytes, fun hfits hlabelled => ?_⟩
      · rcases h with hin | h
        · exact absurd hin hmem
        · cases h
      · exact hbytes.trans (by rw [hfits.bytesLater hfit hlabelled])

/-- The length attribute of the label is the one that the number makes of the first operand. -/
theorem hasLength_finish (h : StoresOver eq v before st storageOnly (op :: later) after)
    (settings : Settings) (hop : op.isOver eq.label) (hlabel : st.label? = some l)
    (hfree : ((new settings).performAll before).assembly.symbols.get? l = none)
    (hfit : op.implicitLength < 2 ^ 31) :
    ((new settings).performAll (before ++ .process st :: after)).finish.assembly.HasLength l
      (op.attributeAt (op.type.lengthBounds storageOnly) v) := by
  have hnil : StoresOver eq v before st storageOnly ([] ++ op :: later) after := h
  obtain ⟨hready, hopen, hrest, -, hc⟩ := hnil.closes_operand settings
  have hne : l ≠ eq.label := fun heq => h.label?_ne (hlabel.trans (congrArg some heq))
  rw [show st.labelAfter? [] = some l from hlabel] at hc
  obtain ⟨hknown, hlate⟩ := h.tells settings
  obtain ⟨late, htells⟩ : ∃ late, ((new settings).performAll before).assembly.Tells eq.label v late :=
    (Classical.em _).elim (fun hmem => ⟨_, hknown hmem⟩) fun hmem => ⟨_, hlate hmem⟩
  exact (hasLength_processOperand hready hopen hrest htells hlabel hne hfree hop
    (h.reserves List.mem_cons_self) hfit hc).later (h.earlier_finish settings).2

/-- What is reported about the statement is what its operands and its label make of the number. -/
theorem reportsOn_finish (h : StoresOver eq v before st storageOnly operands after) {settings : Settings}
    (hroom : settings.maxDiagnostics = 0) (topic : Topic) (hown : topic.IsOwn) (hst : st.location = topic.place)
    (hplace : ∀ other, .process other ∈ before ++ after → other.location ≠ topic.place)
    (hne : operands = [] → topic.isModifier) (hover : ∀ op ∈ operands, op.RestsOn topic eq.label) :
    ((new settings).performAll (before ++ .process st :: after)).finish.assembly.reportsOn topic =
      operands.countP (fun op => op.exceedsOn topic (op.type.lengthBounds storageOnly) v) +
        ((new settings).performAll before).assembly.repeats st.label? topic := by
  obtain ⟨hs, hopen, hrest, hc⟩ := h.closes settings
  have hbefore := tallied_performAll (s := new settings) (@tallied_new topic settings hroom eq.label v hown)
    (ready_new settings) h.number (h.defines.of_subset (List.subset_append_left before _))
    fun other hmem => hplace other (List.mem_append_left _ hmem)
  -- The reports are counted before, in and after the statement; only the statement itself adds some.
  have hdata := hbefore.processData hs h.label?_ne h.data hne hover hst
  have hready := (acts_processData hs h.data).ready hs
  have hprocess : (((new settings).performAll before).perform (.process st)).assembly =
      ((new settings).performAll before).assembly.processData st storageOnly operands := by
    show ((new settings).performAll before).assembly.process st = _
    rw [Assembly.process, h.data]
  rw [Nat.zero_add, ← hprocess] at hdata
  rw [← hprocess] at hready
  have hafter := tallied_performAll hdata hready h.number
    (h.defines.of_subset fun c hmem => List.mem_append_right _ (List.mem_cons_of_mem _ hmem))
    fun other hmem => hplace other (List.mem_append_right _ hmem)
  have hsplit : (((new settings).performAll before).perform (.process st)).performAll after =
      (new settings).performAll (before ++ .process st :: after) := by
    rw [performAll_append]
    rfl
  rw [hsplit] at hafter
  exact hafter.finish (h.earlier_finish settings).1 hc.watchful hc.has

end StoresOver

/-- Wherever the equation of the parameter is, the label gets the length attribute that the number makes of the first
operand, and the statement the reports. An operand gets the bytes that its factor and its length make: if these are
known at once, both are brought into their ranges first, and otherwise the product is. The same bytes are reserved in
the end if their exact number fits, and a length modifier that is out of its range has a label that takes the
implicit length for it. -/
theorem storage_of_parameter (settings : Settings) (h : StoresOver eq v before st storageOnly operands after) :
    let s := ((new settings).performAll before).assembly
    let f := ((new settings).performAll (before ++ .process st :: after)).finish.assembly
    (∀ earlier op later, operands = earlier ++ op :: later → op.isOver eq.label → op.implicitLength < 2 ^ 31 →
      let bounds := op.type.lengthBounds storageOnly
      let t := s.processData st storageOnly earlier
      let bytes := Length.between f.layout.spaces
        (t.processOperand st storageOnly (st.labelAfter? earlier) op).layout.position
        (t.alignOperand st op).layout.position
      let labelled := (st.labelAfter? earlier).any fun l => (s.symbols.get? l).isNone
      (.process eq.statement ∈ before ∨ op.mentions eq.label = false → bytes = ⟨op.bytesAtOnce bounds v, []⟩) ∧
      (.process eq.statement ∉ before → op.mentions eq.label →
        bytes = ⟨op.bytesLater bounds eq.label v labelled, []⟩) ∧
      (op.Fits bounds v → (op.exceeds bounds v → labelled) → bytes = ⟨op.storageAt bounds v, []⟩)) ∧
    (∀ op later l, operands = op :: later → op.isOver eq.label → op.implicitLength < 2 ^ 31 →
      st.label? = some l → s.symbols.get? l = none →
      f.HasLength l (op.attributeAt (op.type.lengthBounds storageOnly) v)) ∧
    (settings.maxDiagnostics = 0 → (∀ other, .process other ∈ before ++ after → other.location ≠ st.location) →
      ((∀ op ∈ operands, op.length?.all (·.expr.isOver eq.label none)) →
        f.diagnostics.countP (fun d => d.code = "D008" ∧ d.location = st.location) =
          operands.countP fun op => op.exceeds (op.type.lengthBounds storageOnly) v) ∧
      (operands ≠ [] → (∀ op ∈ operands, op.isOver eq.label ∧ op.scale?.all (·.isOver eq.label none)) →
        ∀ code, code ≠ "D008" → code ≠ "E010" → code ≠ "E033" →
          f.diagnostics.countP (fun d => d.code = code ∧ d.location = st.location) =
            if code = "E031" ∧ st.label?.any (s.symbols.contains ·) then 1 else 0)) := by
  refine ⟨?_, ?_, fun hroom hplace => ⟨fun hover => ?_, fun hne hover code hmodifier hdefined hacyclic => ?_⟩⟩
  · rintro earlier op later rfl hop hfit
    exact h.bytes_cases settings hop hfit
  · rintro op later l rfl hop hfit hlabel hfree
    exact h.hasLength_finish settings hop hlabel hfree hfit
  · have hreports := h.reportsOn_finish hroom ⟨"D008", st.location⟩ (Topic.isOwn_of_isModifier rfl) rfl hplace
      (fun _ => rfl) fun op hop => ⟨hover op hop, .inl rfl⟩
    simp only [DataOperand.exceedsOn, repeats] at hreports
    exact hreports
  · have hreports := h.reportsOn_finish hroom ⟨code, st.location⟩ ⟨hacyclic, hdefined⟩ rfl hplace
      (fun hnil => absurd hnil hne) fun op hop => by
        obtain ⟨hamounts, hscale⟩ := hover op hop
        obtain ⟨hduplication, hlength⟩ := Bool.and_eq_true_iff.mp hamounts
        exact ⟨hlength, .inr ⟨hduplication, hscale⟩⟩
    -- Only reports about length modifiers depend on the operands.
    have hnone : operands.countP (fun op =>
        op.exceedsOn ⟨code, st.location⟩ (op.type.lengthBounds storageOnly) v) = 0 :=
      List.countP_eq_zero.mpr fun op _ => by
        rw [DataOperand.exceedsOn, Topic.isModifier, decide_eq_false hmodifier, Bool.false_and]
        exact Bool.false_ne_true
    rw [hnone, Nat.zero_add] at hreports
    simp only [repeats, Topic.isRedefinition, Bool.and_eq_true, decide_eq_true_eq] at hreports
    exact hreports

/-! ### A length modifier out of its range -/

namespace Oversized

def equation : Equation := ⟨.ofString "N", .number 70000, { line := 1 }⟩

theorem defines {commands : List Command}
    (h : ∀ c ∈ commands, c = .process Awaiting.storage ∨ c = .process equation.statement) :
    Defines equation commands where
  sole st hmem hlabel := by
    rcases h _ hmem with heq | heq <;> cases heq
    · cases hlabel
    · rfl
  unfinished hmem := by rcases h _ hmem with heq | heq <;> cases heq

theorem storesOver_first :
    StoresOver equation 70000 [.process equation.statement] Awaiting.storage true [Awaiting.operand] [] where
  number := rfl
  placed := .inl List.mem_cons_self
  defines := defines (by simp)
  data := rfl

theorem storesOver_last :
    StoresOver equation 70000 [] Awaiting.storage true [Awaiting.operand] [.process equation.statement] where
  number := rfl
  placed := .inr List.mem_cons_self
  defines := defines (by simp)
  data := rfl

end Oversized

/-- Without a label a length modifier that is out of its range is reported once in any case. If its number is known
one byte is reserved, and if it comes later all bytes are. -/
theorem storage_of_parameter_unlabelled :
    let first := ((new {}).performAll [.process Oversized.equation.statement]).assembly
    let f := ((new {}).performAll [.process Oversized.equation.statement, .process Awaiting.storage]).finish.assembly
    let g := ((new {}).performAll [.process Awaiting.storage, .process Oversized.equation.statement]).finish.assembly
    let reports := fun d : Diagnostic => d.code = "D008" ∧ d.location = {}
    StoresOver Oversized.equation 70000 [.process Oversized.equation.statement] Awaiting.storage true
        [Awaiting.operand] [] ∧
      StoresOver Oversized.equation 70000 [] Awaiting.storage true [Awaiting.operand]
        [.process Oversized.equation.statement] ∧
      Length.between f.layout.spaces (first.processOperand Awaiting.storage true none Awaiting.operand).layout.position
        first.layout.position = ⟨1, []⟩ ∧
      Length.between g.layout.spaces
        ((Assembly.new {}).processOperand Awaiting.storage true none Awaiting.operand).layout.position
        (Assembly.new {}).layout.position = ⟨70000, []⟩ ∧
      f.diagnostics.countP (reports ·) = 1 ∧ g.diagnostics.countP (reports ·) = 1 := by
  intro first f g reports
  obtain ⟨hfirst, -, hreports⟩ := storage_of_parameter {} Oversized.storesOver_first
  obtain ⟨hlast, -, hreportsLater⟩ := storage_of_parameter {} Oversized.storesOver_last
  have hplace : ∀ other, Command.process other ∈ [Command.process Oversized.equation.statement] →
      other.location ≠ Awaiting.storage.location := by
    intro other hmem
    rw [List.mem_singleton, Command.process.injEq] at hmem
    rw [hmem]
    decide
  have hover : ∀ op ∈ [Awaiting.operand], op.length?.all (·.expr.isOver Oversized.equation.label none) := by decide
  refine ⟨Oversized.storesOver_first, Oversized.storesOver_last, ?_, ?_, ?_, ?_⟩
  · exact (hfirst [] _ _ rfl (by decide) (by decide)).1 (.inl List.mem_cons_self)
  · exact (hlast [] _ _ rfl (by decide) (by decide)).2.1 List.not_mem_nil (by decide)
  · exact (hreports rfl hplace).1 hover
  · exact (hreportsLater rfl hplace).1 hover

end Session

end Assembler
