import Assembler.Proofs.Check
import Assembler.Proofs.Climb
/-!
Stages of a program.

A stage is a state that carrying out a program leads through. Between two stages every counter climbs at most
once (`Session.ascends_performAll`), so each counter is covered by the places that it has at the stages
(`Ascends.covers`).
-/

namespace Assembler

/-! ## 1. Stages -/

/-- A state on the way, and the exact number of bytes that are reserved to get there, if it is known at once. -/
structure Stage where
  state : Assembly
  total? : Option Int := none

/-- The bytes of an operand when all values have the given length, as an integer. -/
def DataOperand.total (op : DataOperand) (duplication length : Int32) : Int :=
  duplication.toInt * (if op.length?.isSome then op.valueCount * length.toInt else op.implicitTotal)

namespace Assembly

def Preparation.total? (p : Preparation) (op : DataOperand) : Option Int :=
  match p.duplication, p.length with
  | .known d, .known n => some (op.total d n)
  | _, _ => none

/-- An operand is aligned before its storage is reserved. -/
def operandStages (s : Assembly) (st : Statement) (storageOnly : Bool) (label? : Option Name)
    (op : DataOperand) : List Stage :=
  [{ state := s.alignOperand st op },
    { state := s.processOperand st storageOnly label? op
      total? := (s.prepareOperand st storageOnly op).total? op }]

def dataStages (st : Statement) (storageOnly : Bool) :
    Option Name → List DataOperand → Assembly → List Stage
  | _, [], _ => []
  | label?, op :: rest, s =>
    s.operandStages st storageOnly label? op ++
      dataStages st storageOnly none rest (s.processOperand st storageOnly label? op)

/-- The stages of a statement. The last one is the state after it. -/
def stages (s : Assembly) (st : Statement) : List Stage :=
  match st.operation with
  | .data storageOnly operands => dataStages st storageOnly st.label? operands s
  | .instruction =>
    if (Instruction.find? st.opcode).isSome then
      [{ state := s.align .halfword st.frame }, { state := s.process st }]
    else [{ state := s.process st }]
  | _ => [{ state := s.process st }]

end Assembly

namespace Session

def stages (s : Session) : Command → List Stage
  | .process st => s.assembly.stages st
  | c => [{ state := (s.perform c).assembly }]

/-- The stages of some commands, one after another. -/
def trace (s : Session) : List Command → List Stage
  | [] => []
  | c :: rest => s.stages c ++ (s.perform c).trace rest

end Session

namespace Stage

/-- The places of a counter at a stage: where it is, and where it has begun. -/
def places (stage : Stage) (id : CounterId) : List Address :=
  match stage.state.layout.counter? id with
  | some c => [c.origin, c.position]
  | none => []

/-- The places that a counter ever has. -/
def placesOf (trace : List Stage) (id : CounterId) : List Address := trace.flatMap (·.places id)

end Stage

/-! ## 2. Counters on the way -/

/-- Whether the stages of a trace lead from one state to another, and counters climb between them. -/
inductive Ascends (τ : SpaceId → Int32) : Assembly → List Stage → Assembly → Prop
  | nil (s : Assembly) : Ascends τ s [] s
  | cons {s t : Assembly} {stage : Stage} {rest : List Stage} :
    s.layout.Climbs τ stage.state.layout → Ascends τ stage.state rest t → Ascends τ s (stage :: rest) t

namespace Ascends

variable {τ : SpaceId → Int32} {s t u : Assembly} {trace rest : List Stage}

theorem single {stage : Stage} (h : s.layout.Climbs τ stage.state.layout) :
    Ascends τ s [stage] stage.state := .cons h (.nil _)

theorem append (h : Ascends τ s trace t) (h' : Ascends τ t rest u) : Ascends τ s (trace ++ rest) u := by
  induction h with
  | nil => exact h'
  | cons hclimbs _ ih => exact .cons hclimbs (ih h')

/-- From stage to stage a counter stays covered by the places that it has had. -/
theorem covers (h : Ascends τ s trace t) (id : CounterId) {places : List Address}
    (hc : Covers τ places (s.layout.counter? id))
    (hfit : Address.WithinRange τ (places ++ Stage.placesOf trace id)) :
    Covers τ (places ++ Stage.placesOf trace id) (t.layout.counter? id) := by
  induction h generalizing places with
  | nil => simpa [Stage.placesOf] using hc
  | @cons s t stage rest hclimbs hrest ih =>
    have hsplit : places ++ Stage.placesOf (stage :: rest) id =
        places ++ stage.places id ++ Stage.placesOf rest id := by simp [Stage.placesOf]
    rw [hsplit] at hfit ⊢
    refine ih ?_ hfit
    have hfit := hfit.subset (List.subset_append_left _ (Stage.placesOf rest id))
    unfold Stage.places at hfit ⊢
    cases hold : s.layout.counter? id with
    | some c =>
      obtain ⟨c', hc', hclimb⟩ := hclimbs.kept id c hold
      rw [hold] at hc
      rw [hc'] at hfit ⊢
      exact hc.climb hclimb hfit
    | none =>
      -- Nothing has been covered without the counter.
      have hnil : places = [] := List.eq_nil_iff_forall_not_mem.mpr fun x hx => by
        obtain ⟨c, hsome, -⟩ := hc.covered x hx
        rw [hold] at hsome
        cases hsome
      subst hnil
      cases hnew : stage.state.layout.counter? id with
      | none => exact .nil τ
      | some c' =>
        obtain ⟨c, hfresh, hclimb⟩ := hclimbs.further id c' hold hnew
        rw [hnew] at hfit
        exact Covers.climb_fresh hfresh hclimb hfit

end Ascends

/-! ## 3. Statements -/

namespace Layout

variable {τ : SpaceId → Int32} {l l' l'' : Layout}

theorem Climbs.fills (h : l.Climbs τ l') (hfill : l'.Fills l'') : l.Climbs τ l'' := by
  have heq : ∀ id, l''.counter? id = l'.counter? id := fun id => by
    rw [counter?, counter?, hfill.counters]
  exact ⟨fun id c hc => heq id ▸ h.kept id c hc, fun id c' hnone hc' =>
    h.further id c' hnone (heq id ▸ hc')⟩

theorem Fills.extends (h : l.Fills l') : l.Extends l' := .of_counters h.counters

end Layout

/-- The exact number of bytes, cut to 32 bits, is the number that is reserved. -/
theorem DataOperand.ofInt_total (op : DataOperand) (d n : Int32) :
    Int32.ofInt (op.total d n) = d * op.unit n := by
  unfold total unit
  split
  · rw [Int32.ofInt_mul, Int32.ofInt_mul, Int32.ofInt_toInt, Int32.ofInt_toInt, count,
      Int32.ofInt_eq_ofNat]
  · rw [Int32.ofInt_mul, Int32.ofInt_toInt, Int32.ofInt_eq_ofNat]

/-- Storage that fits into 32 bits is not negative. -/
theorem DataOperand.toInt_unit_nonneg {op : DataOperand} {d n : Int32} (hd : 0 ≤ d)
    (hn : op.length?.isSome → 0 ≤ n) (hfit : op.total d n < 2 ^ 31) : 0 ≤ (d * op.unit n).toInt := by
  have hd := Int32.le_iff_toInt_le.mp hd
  have hzero : (0 : Int32).toInt = 0 := rfl
  have htotal : 0 ≤ op.total d n := by
    unfold total
    refine Int.mul_nonneg (by omega) ?_
    split
    · rename_i hsome
      have hn := Int32.le_iff_toInt_le.mp (hn hsome)
      exact Int.mul_nonneg (Int.natCast_nonneg _) (by omega)
    · exact Int.natCast_nonneg _
  rw [← op.ofInt_total, Int32.toInt_ofInt_of_le (by omega) hfit]
  exact htotal

namespace Assembly

variable {s t f : Assembly} {τ : SpaceId → Int32} {st : Statement}

theorem Still.extends (h : Still st s t) : s.layout.Extends t.layout := by
  rcases h.fills with hfill | heq
  · exact hfill.extends
  · rw [heq]
    exact s.layout.extends_ensureSection

theorem Stills.extends (h : Stills st s t) : s.layout.Extends t.layout := by
  induction h with
  | refl => exact .refl _
  | tail _ hstill ih => exact ih.trans hstill.extends

/-! ### Alignment and storage -/

theorem climbs_align (hs : s.Ready) {a : Alignment} (ha : a.Dyadic) (hbyte : a.byte = 0) {frame : Frame}
    (hframe : frame.Scoped s.layout.spaces) (h : (s.align a frame).Completes f)
    (hτ : f.layout.spaces.Fits τ) : s.layout.Climbs τ (s.align a frame).layout := by
  by_cases hone : a.boundary ≤ 1
  · have heq : s.align a frame = s := by
      rw [align, Layout.align, if_pos hone]
    rw [heq]
    exact (Layout.Extends.refl _).climbs
  have hsection := s.layout.extends_ensureSection
  rcases @Layout.align_cases s.layout _ rfl a (Nat.not_le.mp hone) with
    ⟨-, heq⟩ | ⟨n, -, hn, heq⟩ | heq
  · rw [align_of_none heq]
    exact Layout.climbs_reserve hsection (ha.padding_nonneg _)
  · obtain ⟨_, _, _, -, -, -, rfl⟩ := Layout.guaranteedPadding?_eq_some hn
    rw [align_of_none heq]
    exact Layout.climbs_reserve hsection (ha.padding_nonneg _)
  · have harranges := Layout.arranges_align_some heq hframe
    rw [align_of_some heq] at h ⊢
    obtain ⟨offset, hoffset⟩ := exists_padding hs ha hbyte harranges h
    refine (Layout.climbs_passSpace hsection ?_).fills (fills_resolveOrDefer s _ _ _)
    rw [(hoffset τ hτ).1]
    exact ha.padding_nonneg offset

theorem climbs_reserveStorage (hs : t.Ready) (hst : s.layout.Extends t.layout) {op : DataOperand}
    {label? : Option Name} {duplication length : Amount} {frame : Frame}
    (hframe : frame.Scoped t.layout.spaces)
    (hknown : ∀ d n, duplication = .known d → length = .known n → 0 ≤ (d * op.unit n).toInt)
    (h : (t.reserveStorage op label? duplication length frame).Completes f)
    (hτ : f.layout.spaces.Fits τ) :
    s.layout.Climbs τ (t.reserveStorage op label? duplication length frame).layout := by
  unfold reserveStorage at h ⊢
  split at h
  · exact Layout.climbs_reserve hst (hknown _ _ rfl rfl)
  · dsimp only at h ⊢
    refine (Layout.climbs_passSpace hst ?_).fills (fills_resolveOrDefer t _ _ _)
    obtain ⟨u, space, -, -, -, hlength, hfinal⟩ := Completes.length hs
      (@Layout.arranges_passSpace t.layout _ (.storage (storageExpr op label? duplication length)) trivial
        frame hframe) h
    obtain ⟨n, -, rfl⟩ := attemptSpace_storage hlength
    have hspace := (hτ _ _ (hfinal rfl)).trans (Int32.add_zero _)
    have hnonneg : 0 ≤ (if n < 0 then 0 else n : Int32).toInt := by
      split
      · exact le_refl _
      · rename_i hn
        rw [Int32.lt_iff_toInt_lt] at hn
        exact not_lt.mp hn
    exact le_of_le_of_eq hnonneg (congrArg Int32.toInt hspace.symm)

/-- A length modifier that nothing is reported of is positive. -/
theorem one_le_of_lengthAmount {op : DataOperand} {storageOnly : Bool} {frame : Frame} {n : Int32}
    (hsome : op.length?.isSome)
    (h : s.lengthAmount op (op.type.lengthBounds storageOnly) frame = (.known n, none)) : 1 ≤ n := by
  obtain ⟨modifier, hmodifier⟩ := Option.isSome_iff_exists.mp hsome
  unfold lengthAmount at h
  rw [hmodifier] at h
  dsimp only at h
  split at h
  · split at h
    · rename_i hbounds
      cases h
      exact Int32.le_trans (one_le_lengthBounds op.type storageOnly) hbounds.1
    · cases h
  · cases h
  · cases h

theorem diagnostics_of_reportAny {fault? : Option Fault} {location : Location}
    (h : (s.reportAny fault? location).diagnostics = []) : fault? = none ∧ s.diagnostics = [] := by
  cases fault? with
  | none => exact ⟨rfl, h⟩
  | some fault => exact absurd h (s.diagnostics_addDiagnostic_ne_nil _)

theorem one_le_of_prepareOperand {storageOnly : Bool} {op : DataOperand} {n : Int32}
    (hclean : (s.prepareOperand st storageOnly op).state.diagnostics = []) (hsome : op.length?.isSome)
    (hn : (s.prepareOperand st storageOnly op).length = .known n) : 1 ≤ n := by
  unfold prepareOperand at hclean hn
  dsimp only at hclean hn
  have hnone := (diagnostics_of_reportAny (diagnostics_of_reportAny hclean).2).1
  refine one_le_of_lengthAmount hsome (Prod.ext ?_ hnone)
  exact hn

/-- Whether what is reserved at once fits into 32 bits. -/
def FitsTotal (trace : List Stage) : Prop :=
  ∀ stage ∈ trace, ∀ n, stage.total? = some n → n < 2 ^ 31

/-- Between its stages the storage of an operand is aligned and reserved. -/
theorem ascends_operand (hs : s.Ready) {storageOnly : Bool} {label? : Option Name}
    (hlabel : ∀ name, label? = some name → st.label? = some name) {op : DataOperand}
    (h : (s.processOperand st storageOnly label? op).Completes f) (hτ : f.layout.spaces.Fits τ)
    (hfit : FitsTotal (s.operandStages st storageOnly label? op)) :
    Ascends τ s (s.operandStages st storageOnly label? op) (s.processOperand st storageOnly label? op) := by
  have haligned := (s.acts_alignOperand st op).ready hs
  obtain ⟨hprepare, hscope, -, htakes⟩ := stills_prepareOperand hs st storageOnly op
  have hfinish := stills_finish hs storageOnly hlabel op
  have hstills := hprepare.labelled.trans hfinish
  have hscope := hscope.later hfinish.leads.earlier
  have hreserve : ((s.prepareOperand st storageOnly op).finish storageOnly label? op).Leads
      (s.processOperand st storageOnly label? op) := leads_reserveStorage _ op _ _ _ hscope
  have hcompletes : (s.alignOperand st op).Completes f := h.of_leads haligned (hstills.leads.trans hreserve)
  have hprepared : (s.prepareOperand st storageOnly op).state.Completes f :=
    h.of_leads (hprepare.leads.ready haligned) (hfinish.leads.trans hreserve)
  -- The first stage ends with the alignment of the operand, the second with its storage.
  refine .cons ?_ (.single ?_)
  · show s.layout.Climbs τ (s.alignOperand st op).layout
    unfold alignOperand at hcompletes ⊢
    split
    · exact (Layout.Extends.refl _).climbs
    · rename_i hsome
      rw [if_neg hsome] at hcompletes
      exact climbs_align hs op.type.dyadic_alignment op.type.byte_alignment (scoped_frame st _)
        hcompletes hτ
  · show (s.alignOperand st op).layout.Climbs τ (s.processOperand st storageOnly label? op).layout
    have htotal : ∀ n, (s.prepareOperand st storageOnly op).total? op = some n → n < 2 ^ 31 :=
      hfit _ (List.mem_cons_of_mem _ List.mem_cons_self)
    rw [processOperand_eq] at h ⊢
    dsimp only at h ⊢
    refine climbs_reserveStorage (hstills.leads.ready haligned) hstills.extends hscope
      (fun d n hd hn => ?_) h hτ
    refine DataOperand.toInt_unit_nonneg (htakes.duplication d hd) (fun hsome => ?_) (htotal _ ?_)
    · exact Int32.le_trans (by decide) (one_le_of_prepareOperand hprepared.diagnostics hsome hn)
    rw [Preparation.total?, hd, hn]

theorem FitsTotal.append {trace rest : List Stage} (h : FitsTotal (trace ++ rest)) :
    FitsTotal trace ∧ FitsTotal rest :=
  ⟨fun stage hmem => h stage (List.mem_append_left _ hmem),
    fun stage hmem => h stage (List.mem_append_right _ hmem)⟩

/-- Operands without a label. -/
theorem ascends_operands (hs : s.Ready) {storageOnly : Bool} {operands : List DataOperand}
    (hops : ∀ op ∈ operands, st.Reserves op)
    (h : (operands.foldl (fun s op => s.processOperand st storageOnly none op) s).Completes f)
    (hτ : f.layout.spaces.Fits τ) (hfit : FitsTotal (dataStages st storageOnly none operands s)) :
    Ascends τ s (dataStages st storageOnly none operands s)
      (operands.foldl (fun s op => s.processOperand st storageOnly none op) s) := by
  induction operands generalizing s with
  | nil => exact .nil s
  | cons op rest ih =>
    have hrest : ∀ op ∈ rest, st.Reserves op := fun op hop => hops op (List.mem_cons_of_mem _ hop)
    have hready := (@acts_processOperand s hs st storageOnly none (fun _ h => nomatch h) op
      (hops op List.mem_cons_self)).ready hs
    have hcompletes := h.of_leads hready (acts_operands hready hrest).leads
    exact (@ascends_operand s f τ st hs storageOnly none (fun _ h => nomatch h) op hcompletes hτ
      hfit.append.1).append (ih hready hrest h hfit.append.2)

theorem ascends_processData (hs : s.Ready) {storageOnly : Bool} {operands : List DataOperand}
    (hdata : st.operation = .data storageOnly operands)
    (h : (s.processData st storageOnly operands).Completes f) (hτ : f.layout.spaces.Fits τ)
    (hfit : FitsTotal (dataStages st storageOnly st.label? operands s)) :
    Ascends τ s (dataStages st storageOnly st.label? operands s) (s.processData st storageOnly operands) := by
  cases operands with
  | nil => exact .nil s
  | cons first others =>
    have hops : ∀ op ∈ first :: others, st.Reserves op := fun op hop => ⟨storageOnly, _, hdata, hop⟩
    have hothers : ∀ op ∈ others, st.Reserves op := fun op hop => hops op (List.mem_cons_of_mem _ hop)
    have hready := (@acts_processOperand s hs st storageOnly st.label? (fun _ => id) first
      (hops first List.mem_cons_self)).ready hs
    have hcompletes := h.of_leads hready (acts_operands hready hothers).leads
    exact (ascends_operand hs (fun _ => id) hcompletes hτ hfit.append.1).append
      (ascends_operands hready hothers h hτ hfit.append.2)

theorem climbs_processMachine (hs : s.Ready) {i : Instruction} (hi : Instruction.find? st.opcode = some i)
    (h : (s.processMachine st).Completes f) (hτ : f.layout.spaces.Fits τ) :
    s.layout.Climbs τ (s.align .halfword st.frame).layout ∧
      (s.align .halfword st.frame).layout.Climbs τ (s.processMachine st).layout := by
  have halign : Act st s (s.align .halfword st.frame) := .align .h (scoped_frame st _) rfl
  have hready := halign.leads.ready hs
  have hlength : 0 ≤ (Int32.ofNat i.length).toInt := by
    unfold Instruction.length Format.length
    split <;> decide
  have hlabel := @stills_enterInstruction (s.align .halfword st.frame) hready st i
  rw [processMachine_eq hi] at h ⊢
  refine ⟨?_, Layout.climbs_reserve hlabel.extends hlength⟩
  exact climbs_align hs (DataType.dyadic_alignment .h) (DataType.byte_alignment .h) (scoped_frame st _)
    (h.of_leads hready (hlabel.acts.tail (.reserve i)).leads) hτ

/-! ### Moves -/

section Moves

variable {frame : Frame}

theorem climbs_moveToHighest (hst : s.layout.Extends t.layout)
    (hτ : (t.moveToHighest frame).layout.spaces.Fits τ) :
    s.layout.Climbs τ (t.moveToHighest frame).layout := by
  revert hτ
  unfold moveToHighest
  dsimp only
  split
  · exact fun hτ => Layout.climbs_moveTo hst hτ
  · intro hτ
    have hfill := fills_resolveOrDefer t (t.layout.jump .jumpToHighest).2
      (.space (t.layout.jump .jumpToHighest).1 (.jumpToHighest t.layout.candidates t.layout.position)) frame
    exact (Layout.climbs_jump hst (hfill.spaces.fits hτ)).fills hfill

theorem extends_report (hst : s.layout.Extends t.layout) (fault : Fault) (location : Location) :
    s.layout.Extends (t.report fault location).layout :=
  hst.trans (.of_counters (congrArg (·.counters) (alike_report t _ _).layout))

theorem fills_checkNotBelow (t : Assembly) (origin : Address) (target : Expr) (boundary : Nat)
    (offset : Int32) (frame : Frame) :
    t.layout.Fills (t.checkNotBelow origin target boundary offset frame).layout :=
  fills_resolveAll t [⟨.check (.notBelow origin target boundary offset), frame⟩]

theorem climbs_moveToPlace (hst : s.layout.Extends t.layout) {place : Address} {target : Expr}
    {boundary : Nat} {offset : Int32}
    (hτ : (t.moveToPlace place target boundary offset frame).layout.spaces.Fits τ) :
    s.layout.Climbs τ (t.moveToPlace place target boundary offset frame).layout := by
  revert hτ
  unfold moveToPlace
  dsimp only
  split
  · split
    · exact fun _ => (extends_report hst _ _).climbs
    · exact fun hτ => Layout.climbs_moveTo hst hτ
  · have hcheck := fills_checkNotBelow t t.layout.origin target boundary offset frame
    exact fun hτ => Layout.climbs_moveTo (hst.trans hcheck.extends) hτ

theorem climbs_jumpToTarget (hst : s.layout.Extends t.layout) {target : Expr} {boundary : Nat}
    {offset : Int32} (hτ : (t.jumpToTarget target boundary offset frame).layout.spaces.Fits τ) :
    s.layout.Climbs τ (t.jumpToTarget target boundary offset frame).layout := by
  have hfill := (fills_resolveOrDefer t (t.layout.jump .jump).2 (.space (t.layout.jump .jump).1
    (.jump target t.layout.position boundary offset)) frame).trans
      (fills_checkNotBelow _ t.layout.origin target boundary offset frame)
  exact (Layout.climbs_jump hst (hfill.spaces.fits hτ)).fills hfill

theorem climbs_moveToTarget (hst : s.layout.Extends t.layout) {target : Expr} {boundary : Nat}
    {offset : Int32} (hτ : (t.moveToTarget target boundary offset frame).layout.spaces.Fits τ) :
    s.layout.Climbs τ (t.moveToTarget target boundary offset frame).layout := by
  revert hτ
  unfold moveToTarget
  split
  · exact fun _ => (extends_report hst _ _).climbs
  · exact fun _ => (extends_report hst _ _).climbs
  · exact climbs_jumpToTarget hst
  · dsimp only
    split
    · split
      · exact climbs_moveToPlace hst
      · exact climbs_jumpToTarget hst
    · exact fun _ => (extends_report hst _ _).climbs

theorem climbs_moveToOperands (hs : t.Ready) (hst : s.layout.Extends t.layout)
    {target? boundary? offset? : Option Expr}
    (hτ : (t.moveToOperands st target? boundary? offset?).layout.spaces.Fits τ) :
    s.layout.Climbs τ (t.moveToOperands st target? boundary? offset?).layout := by
  obtain ⟨hframe, -⟩ := stills_frameFor hs st [target?, boundary?, offset?]
  revert hτ
  unfold moveToOperands
  generalize t.frameFor st [target?, boundary?, offset?] = r at hframe ⊢
  obtain ⟨frame, t₁⟩ := r
  dsimp only at hframe ⊢
  have hst := hst.trans hframe.extends
  split
  · exact fun _ => (extends_report hst _ _).climbs
  · split
    · exact fun _ => (extends_report hst _ _).climbs
    · split
      · exact fun _ => (extends_report hst _ _).climbs
      · exact climbs_moveToTarget hst

theorem climbs_processOrg (hs : s.Ready) (st : Statement) {operands : OrgOperands}
    (hτ : (s.processOrg st operands).layout.spaces.Fits τ) :
    s.layout.Climbs τ (s.processOrg st operands).layout := by
  have hlabel := stills_enterOrg hs st
  cases operands with
  | highest =>
    rw [processOrg_highest] at hτ ⊢
    exact climbs_moveToHighest hlabel.extends hτ
  | place target? boundary? offset? =>
    rw [processOrg_place] at hτ ⊢
    exact climbs_moveToOperands (hlabel.leads.ready hs) hlabel.extends hτ

end Moves

/-! ### Sections -/

theorem extends_processSection (s : Assembly) (st : Statement) (kind : SectionKind) :
    s.layout.Extends (s.processSection st kind).layout := by
  unfold processSection
  split
  · unfold processPrivateSection
    split
    · exact s.layout.extends_resumeSection _
    · exact s.layout.extends_createSection none kind
  · rename_i name hname
    unfold processNamedSection
    split
    · split
      · exact s.layout.extends_resumeSection _
      · exact extends_report (.refl _) _ _
    · split
      · exact extends_report (.refl _) _ _
      · have hlabel := @still_createLabel { s with layout := (s.layout.createSection (some name) kind).2 } st
          name hname (.start (s.layout.createSection (some name) kind).1)
          (Address.liesIn_of_spaces_nil rfl) .sectionStart 'J' 1
        exact (s.layout.extends_createSection (some name) kind).trans hlabel.extends

theorem extends_processCounter (hs : s.Ready) (st : Statement) :
    s.layout.Extends (s.processCounter st).layout := by
  unfold processCounter
  split
  · exact extends_report (.refl _) _ _
  · rename_i name hname
    split
    · exact s.layout.extends_resumeCounter _
    · split
      · exact extends_report (.refl _) _ _
      · have hlead : s.Leads (s.mapLayout fun l => (l.createCounter name).2) :=
          leads_layout (s.layout.arranges_createCounter name)
        exact (s.layout.extends_createCounter name).trans (still_createLabel hname
          (hlead.ready hs).valid.formed.liesIn_origin .counterStart 'J' 1).extends

/-! ### All statements -/

/-- The stages of a statement lead to the state after it. -/
theorem ascends_process (hs : s.Ready) (st : Statement) (h : (s.process st).Completes f)
    (hτ : f.layout.spaces.Fits τ) (hfit : FitsTotal (s.stages st)) :
    Ascends τ s (s.stages st) (s.process st) := by
  have hspaces : (s.process st).layout.spaces.Fits τ := h.earlier.spaces.fits hτ
  -- All statements but data and machine instructions have one stage.
  have hone : s.layout.Climbs τ (s.process st).layout → Ascends τ s [{ state := s.process st }] (s.process st) :=
    fun hclimbs => .single hclimbs
  unfold stages at hfit ⊢
  cases hop : st.operation with
  | equ value? length? type? =>
    refine hone ?_
    rw [process, hop]
    exact (stills_processEqu hs hop).extends.climbs
  | data storageOnly operands =>
    rw [hop] at hfit
    rw [process, hop] at h ⊢
    exact ascends_processData hs hop h hτ hfit
  | org operands =>
    refine hone ?_
    rw [process, hop] at hspaces ⊢
    exact climbs_processOrg hs st hspaces
  | sectionStart kind =>
    refine hone ?_
    rw [process, hop]
    exact (s.extends_processSection st kind).climbs
  | counterStart =>
    refine hone ?_
    rw [process, hop]
    exact (extends_processCounter hs st).climbs
  | instruction =>
    have heq : s.process st = s.processMachine st := by rw [process, hop]
    dsimp only
    cases hi : Instruction.find? st.opcode with
    | none =>
      have hnone : s.processMachine st = s := by
        unfold processMachine
        rw [hi]
      rw [if_neg (by decide)]
      refine hone ?_
      rw [heq, hnone]
      exact (Layout.Extends.refl _).climbs
    | some i =>
      rw [heq] at h ⊢
      obtain ⟨halign, hreserve⟩ := climbs_processMachine hs hi h hτ
      rw [if_pos Option.isSome_some]
      generalize s.processMachine st = t at hreserve ⊢
      generalize s.align .halfword st.frame = u at halign hreserve ⊢
      exact .cons halign (.single hreserve)
  | other =>
    refine hone ?_
    rw [process, hop]
    exact (Layout.Extends.refl _).climbs

end Assembly

end Assembler
