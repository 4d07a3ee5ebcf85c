import Assembler.Proofs.Padding
import Assembler.Proofs.Session
/-!
Boundaries of storage.

Every statement keeps what is recorded of the counters right (`Assembly.regular_process`), and the starts of
further counters end on the boundary set for them (`Assembly.start_modEq`). So the labels of machine
instructions and of aligned data lie on their boundaries (`Session.aligned_of_finish`).
-/

namespace Assembler

namespace Assembly

variable {s t f : Assembly} {starts : Alignment} {τ : SpaceId → Int32}

/-! ## 1. Statements -/

theorem Still.regular {st : Statement} (h : Still st s t) (hreg : s.layout.Regular starts τ) :
    t.layout.Regular starts τ := by
  rcases h.fills with hfill | heq
  · exact hreg.fills hfill
  · rw [heq]
    exact hreg.ensureSection

theorem Stills.regular {st : Statement} (h : Stills st s t) (hreg : s.layout.Regular starts τ) :
    t.layout.Regular starts τ := by
  induction h with
  | refl => exact hreg
  | tail _ hstill ih => exact hstill.regular ih

theorem Still.bytes_position {st : Statement} (h : Still st s t) (τ : SpaceId → Int32) :
    t.layout.position.bytes τ = s.layout.position.bytes τ := by
  rcases h.fills with hfill | heq
  · rw [hfill.position]
  · rw [heq, Layout.bytes_position_ensureSection]

theorem Stills.bytes_position {st : Statement} (h : Stills st s t) (τ : SpaceId → Int32) :
    t.layout.position.bytes τ = s.layout.position.bytes τ := by
  induction h with
  | refl => rfl
  | tail _ hstill ih => exact (hstill.bytes_position τ).trans ih

/-- Storage of values without a length modifier, a number of times that is not known yet, ends as a whole number
of boundaries. -/
theorem length_storage_modEq (hs : s.Ready) {op : DataOperand} (hnone : op.length? = none) {e : Expr}
    {n : Int32} {label? : Option Name} {frame : Frame} {space : SpaceId} {layout : Layout}
    (harranges : s.layout.Arranges layout
      (some ⟨.space space (.storage (storageExpr op label? (.deferred e) (.known n))), frame⟩))
    (h : ({ s with layout }.resolveOrDefer
      (.space space (.storage (storageExpr op label? (.deferred e) (.known n)))) frame).Completes f)
    (hτ : f.layout.spaces.Fits τ) : (τ space).toInt ≡ 0 [ZMOD op.type.alignment.boundary] := by
  obtain ⟨u, length, -, -, -, hlength, hfinal⟩ := Completes.length hs harranges h
  obtain ⟨m, hm, rfl⟩ := attemptSpace_storage hlength
  obtain ⟨k, rfl⟩ := evaluateNumber_times hm
  have hspace : τ space = (if k * op.unit n < 0 then 0 else k * op.unit n) :=
    (hτ _ _ (hfinal rfl)).trans (Int32.add_zero _)
  rw [hspace]
  split
  · rfl
  · calc (k * op.unit n).toInt
        ≡ k.toInt * (op.unit n).toInt [ZMOD op.type.alignment.boundary] :=
          toInt_mul_modEq op.type.dyadic_alignment _ _
      _ ≡ k.toInt * 0 [ZMOD op.type.alignment.boundary] := (DataOperand.unit_modEq hnone n).mul_left _
      _ = 0 := Int.mul_zero _

/-- Storage that becomes a space keeps the alignment of its type, if it starts on the boundary. -/
theorem regular_reserveStorage (hs : s.Ready) {op : DataOperand} {label? : Option Name}
    {duplication length : Amount} {frame : Frame} (htakes : op.Takes duplication length)
    (hframe : frame.Scoped s.layout.spaces)
    (h : (s.reserveStorage op label? duplication length frame).Completes f)
    (hτ : f.layout.spaces.Fits τ) (hreg : s.layout.Regular starts τ)
    (hplace : op.length? = none →
      (s.layout.position.bytes τ).toInt ≡ 0 [ZMOD op.type.alignment.boundary]) :
    (s.reserveStorage op label? duplication length frame).layout.Regular starts τ := by
  unfold reserveStorage at h ⊢
  split at h
  · exact hreg.reserve _
  · rename_i hdeferred
    dsimp only at h ⊢
    have hfill := fills_resolveOrDefer s (s.layout.passSpace .storage
      (if op.length?.isSome then Alignment.any else op.type.alignment)).2
    by_cases hsome : op.length?.isSome
    · -- With a length modifier nothing is guaranteed.
      rw [if_pos hsome] at hfill ⊢
      exact (hreg.passSpace (Nat.one_dvd _) fun _ _ _ => Int.modEq_one).fills (hfill _ _)
    · rw [if_neg hsome] at h hfill ⊢
      have hnone := Option.not_isSome_iff_eq_none.mp hsome
      have hlength := htakes.plain hnone
      subst hlength
      cases duplication with
      | known d => exact absurd rfl fun heq => hdeferred d _ rfl heq
      | deferred e =>
        have hspace := length_storage_modEq hs hnone (@Layout.arranges_passSpace s.layout
          op.type.alignment (.storage (storageExpr op label? (.deferred e) _)) trivial frame hframe) h hτ
        refine (hreg.passSpace op.type.dyadic_alignment fun c hc himplies => ?_).fills (hfill _ _)
        have hstart := hplace hnone
        rw [← s.layout.bytes_position_ensureSection, Layout.position_of_current hc] at hstart
        have horigin := hreg.ensureSection.origin hc himplies
        have hdyadic := op.type.dyadic_alignment
        rw [op.type.byte_alignment]
        calc (c.position.bytes τ + τ _ - c.origin.bytes τ).toInt
            ≡ (c.position.bytes τ + τ _).toInt - (c.origin.bytes τ).toInt
              [ZMOD op.type.alignment.boundary] := toInt_sub_modEq hdyadic _ _
          _ ≡ 0 + 0 - 0 [ZMOD op.type.alignment.boundary] :=
              ((toInt_add_modEq hdyadic _ _).trans (hstart.add hspace)).sub horigin
          _ = (0 : Nat) := rfl

/-- An act that reserves no data. -/
theorem Act.regular {st : Statement} (hact : Act st s t) (hs : s.Ready) (h : t.Completes f)
    (hdata : ∀ op, ¬ st.Reserves op) (hτ : f.layout.spaces.Fits τ)
    (hstart : ∀ k, f.layout.HasStart k → (τ k).toInt ≡ 0 [ZMOD starts.boundary])
    (hreg : s.layout.Regular starts τ) : t.layout.Regular starts τ := by
  cases hact with
  | still hstill => exact hstill.regular hreg
  | @createSection name? kind _ => exact hreg.createSection name? kind
  | resumeSection sect => exact hreg.resumeSection sect
  | resumeCounter c => exact hreg.resumeCounter c
  | createCounter name => exact hreg.createCounter name fun k hk => hstart k (Moment.hasStart_run h.run hk)
  | align type hframe _ =>
    obtain ⟨n, hpadded⟩ := padded_align hs type.dyadic_alignment type.byte_alignment hframe h starts
    exact hpadded.regular τ hτ hreg
  | reserve i => exact hreg.reserve _
  | @store op _ _ _ _ hop => exact absurd hop (hdata op)
  | moveTo _ _ _ => exact hreg.moveTo _
  | @jump rule frame _ _ _ _ =>
    have hjump : (s.layout.jump rule.kind).2.Regular starts τ :=
      (hreg.ensureSection.modifyCurrent fun _ hc => (hreg.ensureSection.current hc).mark _).passSpace
        (Nat.one_dvd _) fun _ _ _ => Int.modEq_one
    exact hjump.fills (fills_resolveOrDefer s _ _ _)

theorem Acts.regular {st : Statement} (hacts : Acts st s t) (hs : s.Ready) (h : t.Completes f)
    (hdata : ∀ op, ¬ st.Reserves op) (hτ : f.layout.spaces.Fits τ)
    (hstart : ∀ k, f.layout.HasStart k → (τ k).toInt ≡ 0 [ZMOD starts.boundary])
    (hreg : s.layout.Regular starts τ) : t.layout.Regular starts τ := by
  induction hacts with
  | refl => exact hreg
  | tail hacts hact ih =>
    have hready := Acts.ready hacts hs
    exact hact.regular hready h hdata hτ hstart (ih (h.of_leads hready hact.leads))

/-! ### Operands -/

theorem padded_alignOperand (hs : s.Ready) (st : Statement) {op : DataOperand} (hnone : op.length? = none)
    (h : (s.alignOperand st op).Completes f) (starts : Alignment) :
    ∃ n, Padded s (s.alignOperand st op) f starts op.type.alignment n := by
  have heq : s.alignOperand st op = s.align op.type.alignment st.frame := by
    rw [alignOperand, hnone]
    rfl
  rw [heq] at h ⊢
  exact padded_align hs op.type.dyadic_alignment op.type.byte_alignment (scoped_frame st _) h starts

theorem regular_alignOperand (hs : s.Ready) (st : Statement) (op : DataOperand)
    (h : (s.alignOperand st op).Completes f) (hτ : f.layout.spaces.Fits τ)
    (hreg : s.layout.Regular starts τ) : (s.alignOperand st op).layout.Regular starts τ ∧
      (op.length? = none → ((s.alignOperand st op).layout.position.bytes τ).toInt ≡
        0 [ZMOD op.type.alignment.boundary]) := by
  cases hlength : op.length? with
  | none =>
    obtain ⟨n, hpadded⟩ := padded_alignOperand hs st hlength h starts
    exact ⟨hpadded.regular τ hτ hreg, fun _ => hpadded.boundary τ hτ hreg⟩
  | some modifier =>
    have heq : s.alignOperand st op = s := by
      rw [alignOperand, hlength]
      rfl
    rw [heq]
    exact ⟨hreg, fun hnone => nomatch hnone⟩

/-- An operand is aligned, its label is entered, and its storage is reserved. -/
theorem regular_processOperand (hs : s.Ready) {st : Statement} {storageOnly : Bool}
    {label? : Option Name} (hlabel : ∀ name, label? = some name → st.label? = some name)
    {op : DataOperand} (h : (s.processOperand st storageOnly label? op).Completes f)
    (hτ : f.layout.spaces.Fits τ) (hreg : s.layout.Regular starts τ) :
    (s.processOperand st storageOnly label? op).layout.Regular starts τ := by
  have haligned := (s.acts_alignOperand st op).ready hs
  obtain ⟨hprepare, hscope, -, htakes⟩ := stills_prepareOperand hs st storageOnly op
  have hfinish := stills_finish hs storageOnly hlabel op
  have hstills := hprepare.labelled.trans hfinish
  have hscope := hscope.later hfinish.leads.earlier
  rw [processOperand_eq] at h ⊢
  dsimp only at h ⊢
  have hcompletes : (s.alignOperand st op).Completes f :=
    h.of_leads haligned (hstills.leads.trans (leads_reserveStorage _ op _ _ _ hscope))
  obtain ⟨hregular, hplace⟩ := regular_alignOperand hs st op hcompletes hτ hreg
  refine regular_reserveStorage (hstills.leads.ready haligned) htakes hscope h hτ
    (hstills.regular hregular) fun hnone => ?_
  rw [hstills.bytes_position]
  exact hplace hnone

theorem regular_operands {st : Statement} {storageOnly : Bool} {operands : List DataOperand}
    (hs : s.Ready) (hops : ∀ op ∈ operands, st.Reserves op)
    (h : (operands.foldl (fun s op => s.processOperand st storageOnly none op) s).Completes f)
    (hτ : f.layout.spaces.Fits τ) (hreg : s.layout.Regular starts τ) :
    (operands.foldl (fun s op => s.processOperand st storageOnly none op) s).layout.Regular starts τ := by
  induction operands generalizing s with
  | nil => exact hreg
  | cons op rest ih =>
    have hrest : ∀ op ∈ rest, st.Reserves op := fun op hop => hops op (List.mem_cons_of_mem _ hop)
    have hready := (@acts_processOperand s hs st storageOnly none (fun _ h => nomatch h) op
      (hops op List.mem_cons_self)).ready hs
    refine ih hready hrest h
      (@regular_processOperand s f starts τ hs st storageOnly none (fun _ h => nomatch h) op ?_ hτ hreg)
    exact h.of_leads hready (acts_operands hready hrest).leads

/-- Every statement keeps right what is recorded. -/
theorem regular_process (hs : s.Ready) (st : Statement) (h : (s.process st).Completes f)
    (hτ : f.layout.spaces.Fits τ)
    (hstart : ∀ k, f.layout.HasStart k → (τ k).toInt ≡ 0 [ZMOD starts.boundary])
    (hreg : s.layout.Regular starts τ) : (s.process st).layout.Regular starts τ := by
  by_cases hdata : ∃ op, st.Reserves op
  · obtain ⟨-, storageOnly, operands, hoperation, -⟩ := hdata
    unfold process at h ⊢
    rw [hoperation] at h ⊢
    cases operands with
    | nil => exact hreg
    | cons first others =>
      have hops : ∀ op ∈ first :: others, st.Reserves op := fun op hop =>
        ⟨storageOnly, _, hoperation, hop⟩
      have hothers : ∀ op ∈ others, st.Reserves op := fun op hop => hops op (List.mem_cons_of_mem _ hop)
      have hready := (@acts_processOperand s hs st storageOnly st.label? (fun _ => id) first
        (hops first List.mem_cons_self)).ready hs
      refine regular_operands hready hothers h hτ (regular_processOperand hs (fun _ => id) ?_ hτ hreg)
      exact h.of_leads hready (acts_operands hready hothers).leads
  · exact (acts_process hs st).regular hs h (fun op hop => hdata ⟨op, hop⟩) hτ hstart hreg

/-! ## 2. Starts of counters -/

/-- The starts of further counters end on the boundary that is set for them. -/
theorem start_modEq {settings : Settings} (hreach : Moment.Reachable settings ⟨s, [], .reading⟩)
    (hs : s.Ready) (hf : s.finished = false) (hclean : s.finish.diagnostics = [])
    (hdyadic : s.layout.counterAlignment.Dyadic) (hbyte : s.layout.counterAlignment.byte = 0)
    (hτ : s.finish.layout.spaces.Fits τ) {k : SpaceId} (hk : s.finish.layout.HasStart k) :
    (τ k).toInt ≡ 0 [ZMOD s.layout.counterAlignment.boundary] := by
  have hstart : s.layout.HasStart k := hk.of_counters (fills_finish hs).counters.symm
  obtain ⟨p, hp, rfl⟩ := hs.valid.formed.exists_placement hstart
    (Moment.Reachable.unplaced hreach rfl hf k hstart).2
  obtain ⟨u, length, -, -, -, hlength, hfinal⟩ := exists_start hs hf hclean hp
  obtain ⟨-, last, -, -, rfl⟩ := attemptSpace_counterStart hlength
  generalize (if last < 0 then 0 else last) = last at hfinal
  have hlast : τ p.space = last + s.layout.counterAlignment.padding last.toInt :=
    (hτ _ _ (hfinal rfl)).trans (Int32.add_zero _)
  have hpadding := hdyadic.padding_modEq last.toInt
  rw [hbyte] at hpadding
  rw [hlast]
  calc (last + s.layout.counterAlignment.padding last.toInt).toInt
      ≡ last.toInt + (s.layout.counterAlignment.padding last.toInt).toInt
        [ZMOD s.layout.counterAlignment.boundary] := toInt_add_modEq hdyadic _ _
    _ ≡ last.toInt + ((0 : Nat) - last.toInt) [ZMOD s.layout.counterAlignment.boundary] :=
        hpadding.add_left _
    _ = 0 := by omega

end Assembly

/-! ## 3. Labels -/

/-- The alignment of the place that the label of a statement names: machine instructions start on halfwords, and
data without a length modifier starts on the boundary of its type. -/
def Statement.labelAlignment? (st : Statement) : Option Alignment :=
  match st.operation with
  | .data _ (first :: _) => if first.length?.isSome then none else some first.type.alignment
  | .instruction => (Instruction.find? st.opcode).map fun _ => .halfword
  | _ => none

theorem Statement.labelAlignment?_of_find? {st : Statement} {i : Instruction} (hop : st.operation = .instruction)
    (hi : Instruction.find? st.opcode = some i) : st.labelAlignment? = some .halfword := by
  unfold labelAlignment?
  rw [hop]
  dsimp only
  rw [hi, Option.map_some]

namespace Assembly

variable {s t f : Assembly} {starts : Alignment} {τ : SpaceId → Int32} {label : Name} {place : Address}

/-- Whether a symbol stands for a place. -/
def Names (s : Assembly) (label : Name) (place : Address) : Prop :=
  ∃ sym, s.symbols.get? label = some sym ∧ sym.value? = some (.relocatable place)

theorem Names.later (h : s.Names label place) (hst : s.Earlier t) : t.Names label place := by
  obtain ⟨sym, hsym, hv⟩ := h
  obtain ⟨later, hlater, hle⟩ := hst.symbols label sym hsym
  exact ⟨later, hlater, hle.value_eq hv⟩

theorem names_create {sym : Symbol} (ht : s.createSymbol? sym = some t)
    (hv : sym.value? = some (.relocatable place)) (jobs : List Job) :
    (t.resolveAll jobs).Names sym.name place := by
  obtain ⟨symbols, hsym, rfl⟩ := Option.map_eq_some_iff.mp ht
  have hget := (SymbolTable.create?_eq_some hsym).2 sym.name
  rw [if_pos rfl] at hget
  have halike := alike_foldl_wake { s with symbols } (provided sym)
  have hnames : ((provided sym).foldl wake { s with symbols }).Names sym.name place :=
    ⟨sym, halike.symbols ▸ hget, hv⟩
  refine hnames.later ?_
  exact ((@run_drain [] .reading _ forall_mem_nil).imp fun _ _ => Step.cascade).grows.earlier.trans
    ((@run_resolveAll .reading _ jobs).imp fun _ _ => Step.cascade).grows.earlier

/-- If nothing is reported, a label that is entered names its place in the end. -/
theorem names_createSymbol {sym : Symbol} (hv : sym.value? = some (.relocatable place))
    (h : (s.createSymbol sym).Completes f) : f.Names sym.name place := by
  cases ht : s.createSymbol? sym with
  | none =>
    rw [createSymbol, ht] at h
    exact (Completes.not_report h).elim
  | some t =>
    rw [createSymbol, ht] at h
    exact (names_create ht hv []).later h.earlier

theorem names_defineLabel {op : DataOperand} {length : Amount} {bounds : Int32 × Int32} {frame : Frame}
    (h : (s.defineLabel label op length bounds frame).2.Completes f) :
    f.Names label s.layout.ensureSection.position := by
  unfold defineLabel at h
  dsimp only at h
  generalize ((s.mapLayout Layout.ensureSection).scaleSlot op frame) = r at h
  split at h
  · exact (Completes.not_report h).elim
  · rename_i t ht
    rw [deferAttributes_eq] at h
    exact (names_create ht rfl _).later h.earlier

/-- The label of aligned data names the place that alignment leads to. -/
theorem exists_place_processOperand (hs : s.Ready) {st : Statement} {storageOnly : Bool} {op : DataOperand}
    (hnone : op.length? = none) (hlabel : st.label? = some label)
    (h : (s.processOperand st storageOnly (some label) op).Completes f) (starts : Alignment) :
    ∃ t place n, Padded s t f starts op.type.alignment n ∧
      (∀ τ, place.bytes τ = t.layout.position.bytes τ) ∧ f.Names label place := by
  have haligned := (s.acts_alignOperand st op).ready hs
  obtain ⟨hprepare, hscope, -, htakes⟩ := stills_prepareOperand hs st storageOnly op
  have hname : ∀ name, some label = some name → st.label? = some name := fun name heq => by
    cases heq
    exact hlabel
  have henter := stills_enter hs storageOnly hname op
  have hfinish := stills_finish_enter hs storageOnly hname op
  rw [processOperand_eq] at h
  dsimp only at h henter hfinish
  have hscope := hscope.later (henter.trans hfinish).leads.earlier
  have hentered : ((s.prepareOperand st storageOnly op).enter storageOnly (some label) op).2.Completes f :=
    h.of_leads ((hprepare.labelled.trans henter).leads.ready haligned)
      (hfinish.leads.trans (leads_reserveStorage _ op _ _ _ hscope))
  obtain ⟨n, hpadded⟩ := padded_alignOperand hs st hnone
    (hentered.of_leads haligned (hprepare.labelled.trans henter).leads) starts
  refine ⟨_, _, n, hpadded, fun τ => ?_, names_defineLabel hentered⟩
  rw [Layout.bytes_position_ensureSection]
  exact hprepare.bytes_position τ

/-- So does the label of a machine instruction. -/
theorem exists_place_processMachine (hs : s.Ready) {st : Statement} {i : Instruction}
    (hi : Instruction.find? st.opcode = some i) (hlabel : st.label? = some label)
    (h : (s.processMachine st).Completes f) (starts : Alignment) :
    ∃ t place n, Padded s t f starts .halfword n ∧
      (∀ τ, place.bytes τ = t.layout.position.bytes τ) ∧ f.Names label place := by
  have halign : Act st s (s.align .halfword st.frame) := .align .h (scoped_frame st _) rfl
  unfold processMachine at h
  rw [hi, hlabel] at h
  dsimp only at h
  have hready := halign.leads.ready hs
  have hsection : Still st (s.align .halfword st.frame)
    ((s.align .halfword st.frame).mapLayout Layout.ensureSection) := .ensure
  have hsectioned := hsection.leads.ready hready
  have hcreate := still_createLabel hlabel hsectioned.valid.formed.liesIn_position .machine 'I' i.length
  have hcreated := h.of_leads (hcreate.leads.ready hsectioned) (@Act.reserve st _ i).leads
  have haligned := hcreated.of_leads hready (hsection.leads.trans hcreate.leads)
  obtain ⟨n, hpadded⟩ := padded_align hs (DataType.dyadic_alignment .h) (DataType.byte_alignment .h)
    (scoped_frame st _) haligned starts
  exact ⟨_, _, n, hpadded, fun τ => Layout.bytes_position_ensureSection _ τ,
    names_createSymbol rfl hcreated⟩

theorem exists_place_process (hs : s.Ready) {st : Statement} {a : Alignment}
    (ha : st.labelAlignment? = some a) (hlabel : st.label? = some label)
    (h : (s.process st).Completes f) (starts : Alignment) :
    ∃ t place n, Padded s t f starts a n ∧
      (∀ τ, place.bytes τ = t.layout.position.bytes τ) ∧ f.Names label place := by
  unfold Statement.labelAlignment? at ha
  unfold process at h
  split at ha
  · rename_i storageOnly first others hoperation
    split at ha
    · cases ha
    · cases ha
      rename_i hsome
      have hnone := Option.not_isSome_iff_eq_none.mp hsome
      rw [hoperation] at h
      have hops : ∀ op ∈ first :: others, st.Reserves op := fun op hop => ⟨storageOnly, _, hoperation, hop⟩
      have hfirst := (@acts_processOperand s hs st storageOnly st.label? (fun _ => id) first
        (hops first List.mem_cons_self)).ready hs
      have hcompletes := h.of_leads hfirst (acts_operands hfirst fun op hop =>
        hops op (List.mem_cons_of_mem _ hop)).leads
      rw [hlabel] at hcompletes
      exact exists_place_processOperand hs hnone hlabel hcompletes starts
  · rename_i hoperation
    rw [hoperation] at h
    obtain ⟨i, hi, rfl⟩ := Option.map_eq_some_iff.mp ha
    exact exists_place_processMachine hs hi hlabel h starts
  · cases ha

/-- If a symbol stands for a place, its number is the number of bytes to the place. -/
theorem lookup?_of_names (h : s.Names label place) (hτ : s.layout.spaces.Fits τ) {offset : Int32}
    (hoffset : s.lookup? label = some offset) : offset = place.bytes τ := by
  obtain ⟨sym, hsym, hv⟩ := h
  obtain ⟨later, hlater, hrest⟩ := Option.bind_eq_some_iff.mp hoffset
  rw [hsym] at hlater
  cases hlater
  obtain ⟨v, hvalue, hrest⟩ := Option.bind_eq_some_iff.mp hrest
  rw [valueOf?, hv] at hvalue
  cases hvalue
  dsimp only [Value.normalize] at hrest
  split at hrest
  · rename_i hsettled
    cases hrest
    rw [← Address.bytes_normalize hτ place, Address.bytes, List.isEmpty_iff.mp hsettled.2]
    exact (Int32.add_zero _).symm
  · cases hrest

end Assembly

/-! ## 4. Sessions -/

namespace Session

open Assembly

variable {s : Session} {f : Assembly} {starts : Alignment} {τ : SpaceId → Int32}

/-- Other commands than statements leave the layout alone, except that spaces may get lengths. -/
theorem fills_perform {c : Command} (hc : ∀ st, c ≠ .process st) (hfinish : c ≠ .finish) :
    s.assembly.layout.Fills (s.perform c).assembly.layout := by
  cases c with
  | process st => exact absurd rfl (hc st)
  | finish => exact absurd rfl hfinish
  | defineMacro name origin =>
    have hdrain := fills_cascade (@run_drain [] .reading ({ s.assembly with
      macros := s.assembly.macros.insert (.ofText name) origin }.wake (.attr (.ofText name) .opcode))
      forall_mem_nil)
    exact hdrain
  | defineVariable | requestAttribute | requestVariableAttribute => exact .refl _

theorem counterAlignment_perform (hs : s.assembly.Ready) {c : Command} (hc : c ≠ .finish) :
    (s.perform c).assembly.layout.counterAlignment = s.assembly.layout.counterAlignment := by
  by_cases hst : ∃ st, c = .process st
  · obtain ⟨st, rfl⟩ := hst
    exact (acts_process hs st).counterAlignment
  · exact (fills_perform (fun st heq => hst ⟨st, heq⟩) hc).counterAlignment

theorem counterAlignment_performAll (hs : s.assembly.Ready) {commands : List Command}
    (hc : .finish ∉ commands) :
    (s.performAll commands).assembly.layout.counterAlignment = s.assembly.layout.counterAlignment := by
  induction commands generalizing s with
  | nil => rfl
  | cons c rest ih =>
    have hne := (List.ne_of_not_mem_cons hc).symm
    exact (ih ((leads_perform hs hne).ready hs) (List.not_mem_of_not_mem_cons hc)).trans
      (counterAlignment_perform hs hne)

theorem regular_perform (hs : s.assembly.Ready) {c : Command} (hc : c ≠ .finish)
    (h : (s.perform c).assembly.Completes f) (hτ : f.layout.spaces.Fits τ)
    (hstart : ∀ k, f.layout.HasStart k → (τ k).toInt ≡ 0 [ZMOD starts.boundary])
    (hreg : s.assembly.layout.Regular starts τ) : (s.perform c).assembly.layout.Regular starts τ := by
  by_cases hst : ∃ st, c = .process st
  · obtain ⟨st, rfl⟩ := hst
    exact regular_process hs st h hτ hstart hreg
  · exact hreg.fills (fills_perform (fun st heq => hst ⟨st, heq⟩) hc)

theorem regular_performAll (hs : s.assembly.Ready) {commands : List Command} (hc : .finish ∉ commands)
    (h : (s.performAll commands).assembly.Completes f) (hτ : f.layout.spaces.Fits τ)
    (hstart : ∀ k, f.layout.HasStart k → (τ k).toInt ≡ 0 [ZMOD starts.boundary])
    (hreg : s.assembly.layout.Regular starts τ) : (s.performAll commands).assembly.layout.Regular starts τ := by
  induction commands generalizing s with
  | nil => exact hreg
  | cons c rest ih =>
    have hne := (List.ne_of_not_mem_cons hc).symm
    have hrest := List.not_mem_of_not_mem_cons hc
    have hready := (leads_perform hs hne).ready hs
    exact ih hready hrest h (regular_perform hs hne
      (h.of_leads hready (leads_performAll hready hrest)) hτ hstart hreg)

theorem regular_new {settings : Settings} (τ : SpaceId → Int32) :
    (new settings).assembly.layout.Regular (.multiplesOf settings.counterAlignment) τ :=
  ⟨rfl, fun _ _ hc => nomatch hc⟩

theorem mem_boundaries {settings : Settings} (h : settings.validate = .ok settings) :
    settings.counterAlignment ∈ Settings.boundaries := by
  refine Classical.byContradiction fun hno => ?_
  rw [Settings.validate, if_pos hno] at h
  cases h

theorem dyadic_counterAlignment {settings : Settings} (h : settings.validate = .ok settings) :
    (Alignment.multiplesOf settings.counterAlignment).Dyadic := by
  have hmem := mem_boundaries h
  have hall : ∀ b ∈ Settings.boundaries, max b 1 ∣ 4096 := by decide
  exact hall _ hmem

theorem boundary_counterAlignment {settings : Settings} (h : settings.validate = .ok settings) :
    (Alignment.multiplesOf settings.counterAlignment).boundary = settings.counterAlignment := by
  have hall : ∀ b ∈ Settings.boundaries, max b 1 = b := by decide
  exact hall _ (mem_boundaries h)

/-- If nothing is reported, the label of a machine instruction or of aligned data lies on its boundary, and less
than the boundary is passed to get there. -/
theorem aligned_of_finish (settings : Settings) (hvalid : settings.validate = .ok settings)
    (before after : List Command) (hbefore : .finish ∉ before) (hafter : .finish ∉ after)
    (st : Statement) {label : Name} {a : Alignment} (hlabel : st.label? = some label)
    (ha : st.labelAlignment? = some a) :
    let s := ((new settings).performAll before).assembly
    let f := ((new settings).performAll (before ++ .process st :: after)).assembly.finish
    f.diagnostics = [] →
      (∀ offset, f.lookup? label = some offset → (a.boundary : Int) ∣ offset.toInt) ∧
      ∃ place pad, f.Names label place ∧
        Length.between f.layout.spaces place s.layout.ensureSection.position = ⟨pad, []⟩ ∧
        0 ≤ pad.toInt ∧ pad.toInt < a.boundary := by
  intro s f hclean
  have hall : Command.finish ∉ before ++ .process st :: after := by simp [hbefore, hafter]
  have hleads := leads_performAll (s := new settings) (ready_new settings) hall
  have hready := hleads.ready (ready_new settings)
  have hstarts := counterAlignment_performAll (s := new settings) (ready_new settings) hall
  have hdyadic := dyadic_counterAlignment hvalid
  have hcompletes := completes_finish hready hleads.finished hclean
  have hsplit : (new settings).performAll (before ++ .process st :: after) =
      (((new settings).performAll before).perform (.process st)).performAll after := by
    unfold performAll
    rw [List.foldl_append, List.foldl_cons]
  -- What is recorded before the statement is right.
  have hs := (leads_performAll (s := new settings) (ready_new settings) hbefore).ready (ready_new settings)
  have hprocess := leads_process hs st
  have hst : (s.process st).Completes f := by
    refine hcompletes.of_leads (hprocess.ready hs) ?_
    rw [hsplit]
    exact leads_performAll (s := ((new settings).performAll before).perform (.process st))
      (hprocess.ready hs) hafter
  have hregular : ∀ τ, f.layout.spaces.Fits τ →
      s.layout.Regular (.multiplesOf settings.counterAlignment) τ := by
    intro τ hτ
    refine regular_performAll (s := new settings) (ready_new settings) hbefore (hst.of_leads hs hprocess) hτ
      (fun k hk => ?_) (regular_new τ)
    have hmod := start_modEq (reachable_performAll settings _) hready hleads.finished hclean
      (by rw [hstarts]; exact hdyadic) (by rw [hstarts]; rfl) hτ hk
    rwa [hstarts] at hmod
  obtain ⟨t, place, pad, hpadded, hplace, hnames⟩ := exists_place_process hs ha hlabel hst
    (.multiplesOf settings.counterAlignment)
  refine ⟨fun offset hoffset => ?_, place, pad, hnames, Length.between_eq hst.acyclic fun τ hτ => ?_,
    hpadded.nonneg, hpadded.lt⟩
  · obtain ⟨τ, hτ, -⟩ := Spaces.exists_fits hst.acyclic fun _ => 0
    rw [lookup?_of_names hnames hτ hoffset, hplace]
    exact Int.modEq_zero_iff_dvd.mp (hpadded.boundary τ hτ (hregular τ hτ))
  · rw [hplace, hpadded.bytes τ hτ, Layout.bytes_position_ensureSection]
    grind

/-! ### An instruction after a byte -/

namespace Halfword

def byte : Statement :=
  ⟨none, .ofString "DC", .data false [{ type := .c, nominal? := some (.quoted ['A']) }], {}⟩

def load : Statement := ⟨some (.ofString "B"), .ofString "LR", .instruction, {}⟩

/-! The states in between. -/

def afterByte : Assembly := (Assembly.new {}).mapLayout (·.reserve 1)

def aligned : Assembly := afterByte.mapLayout fun l => (l.align .halfword).2

def label : Symbol :=
  { name := .ofString "B", value? := some (.relocatable aligned.layout.position),
    attributes := .label .machine 'I' 2, location := {} }

def labelled : Assembly := { aligned with symbols := ⟨aligned.symbols.entries.insert label.name label⟩ }

def loaded : Assembly := labelled.mapLayout (·.reserve 2)

theorem process_byte : (Assembly.new {}).process byte = afterByte := rfl

theorem find?_load : Instruction.find? load.opcode = some ⟨.ofString "LR", .rr, .machine⟩ :=
  Instruction.find?_lr

theorem process_load : afterByte.process load = loaded := by
  have hcreate : aligned.createSymbol label = labelled :=
    createSymbol_of_idle (by decide +kernel) (by decide +kernel) rfl
  have henter : (afterByte.align .halfword load.frame).enterInstruction load ⟨.ofString "LR", .rr, .machine⟩ =
      aligned.createSymbol label := rfl
  show afterByte.processMachine load = loaded
  rw [processMachine_eq find?_load, henter, hcreate]
  rfl

theorem performAll_load : ((new {}).performAll [.process byte, .process load]).assembly = loaded := by
  have hnew : (new {}).assembly = Assembly.new {} := rfl
  simp only [performAll, List.foldl_cons, List.foldl_nil, perform, mapAssembly]
  rw [hnew, process_byte, process_load]

theorem diagnostics_finish :
    ((new {}).performAll [.process byte, .process load]).assembly.finish.diagnostics = [] := by
  have hplacements : loaded.layout.placements = [] := by decide +kernel
  have hpending : loaded.pendings.toList = [] := by decide +kernel
  rw [performAll_load, finish_of_idle rfl hplacements rfl rfl hpending]
  rfl

end Halfword

/-- An instruction that follows one byte starts on a halfword. -/
theorem aligned_of_finish_halfword :
    let f := ((new {}).performAll [.process Halfword.byte, .process Halfword.load]).assembly.finish
    f.diagnostics = [] ∧ ∀ offset, f.lookup? (.ofString "B") = some offset → 2 ∣ offset.toInt := by
  have hlabel := Statement.labelAlignment?_of_find? rfl Halfword.find?_load
  have haligned := @aligned_of_finish {} rfl [.process Halfword.byte] [] (by simp) (by simp) Halfword.load
    (.ofString "B") .halfword rfl hlabel
  have hclean := Halfword.diagnostics_finish
  refine ⟨hclean, fun offset hoffset => ?_⟩
  exact (haligned hclean).1 offset hoffset

end Session

end Assembler
