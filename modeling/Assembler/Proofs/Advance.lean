import Assembler.Proofs.Operation
import Assembler.Proofs.Stage
/-!
Storage that goes forward.

The space of storage or padding can get no length but a number of bytes that is not negative, whatever is reported
(`Moment.Valid.solid_turns`). So every stage of DC, DS or a machine instruction takes the counter forward
(`Assembly.rising_process`), and from one known place of the counter to another it goes up, as long as sizes and
places fit into 32 bits (`Session.offset_le_of_turns`).
-/

namespace Assembler

open Assembly

/-! ## 1. Spaces of storage and padding -/

/-- A number of bytes that is not negative, in terms of no space. -/
def Length.Solid (l : Length) : Prop := l.spaces = [] ∧ 0 ≤ l.bytes.toInt

/-- Whether a rule never gives anything else, be it in place of a result. -/
def SpaceRule.Solid (rule : SpaceRule) : Prop :=
  ∀ (s : Assembly) (space : SpaceId) (f : Frame) (length : Length),
    (s.attemptSpace space rule f).value? = some length → length.Solid

/-- Storage of a negative length is empty. -/
theorem SpaceRule.solid_storage (e : Expr) : (storage e).Solid := by
  intro s space f length h
  obtain ⟨n, -, rfl⟩ := Evaluation.exists_of_value?_map h
  refine ⟨rfl, ?_⟩
  dsimp only
  split
  · exact le_refl _
  · rename_i hn
    rw [Int32.lt_iff_toInt_lt] at hn
    exact not_lt.mp hn

theorem SpaceRule.solid_padding (position reference : Address) {a : Alignment} (ha : a.Dyadic) :
    (padding position reference a).Solid := by
  intro s space f length h
  obtain ⟨gap, -, rfl⟩ := Evaluation.exists_of_value?_map h
  exact ⟨rfl, ha.padding_nonneg _⟩

namespace Assembly

variable {s t : Assembly} {space : SpaceId} {rule : SpaceRule} {frame : Frame}

/-- When the job of a space is done, the space has a length as the rule gives it. -/
theorem Does.exists_length (h : s.Does ⟨.space space rule, frame⟩ t) {P : Length → Prop}
    (hrule : ∀ length, (s.attemptSpace space rule frame).value? = some length → length.spaces = [] ∧ P length)
    (hzero : P .zero) (hexp : s.Expects (.space space)) :
    ∃ length, P length ∧ t.layout.spaces.length? space = some length := by
  obtain ⟨u, d, halike, hd, -, rfl⟩ := h.exists_establish
  have hlength : ∃ length : Length, (length.spaces = [] ∧ P length) ∧ d = .space space length := by
    rcases hd with hd | rfl
    · obtain ⟨length, hlength, rfl⟩ := Evaluation.exists_of_value?_map hd
      exact ⟨length, hrule length hlength, rfl⟩
    · exact ⟨.zero, ⟨rfl, hzero⟩, rfl⟩
  obtain ⟨⟨n, spaces⟩, ⟨rfl, hn⟩, rfl⟩ := hlength
  exact ⟨⟨n, []⟩, hn, length?_establish ((halike.expects _).mpr hexp)⟩

end Assembly

namespace Moment

variable {m m' : Moment} {space : SpaceId} {rule : SpaceRule} {frame : Frame}

section Lengths

variable {P : Length → Prop}
  (hrule : ∀ (s : Assembly) (length : Length),
    (s.attemptSpace space rule frame).value? = some length → length.spaces = [] ∧ P length)
  (hzero : P .zero)

include hrule hzero

/-- From turn to turn the job of a space is kept, or the space has a length as the rule gives it. -/
theorem Valid.carries_or_length (hv : m.Valid) (h : Run Turn m m') (hc : m.Carries ⟨.space space rule, frame⟩) :
    m'.Carries ⟨.space space rule, frame⟩ ∨
      ∃ length, P length ∧ m'.state.layout.spaces.length? space = some length := by
  induction h with
  | refl => exact .inl hc
  | @tail a b hrun hturn ih =>
    have hva := hv.turns hrun
    rcases ih with hcarries | ⟨length, hlength, hgiven⟩
    · cases hturn with
      | step hstep =>
        rcases hva.carries_step hstep hcarries with hstill | hdone | ⟨hnone, -⟩
        · exact .inl hstill
        · exact .inr (hdone.does.exists_length (hrule a.state) hzero
            (hva.expected_of_hasJob (hcarries.hasJob hva rfl)))
        · cases hnone
      | take => exact .inl (hcarries.of_subset rfl (List.Subset.refl _))
    · exact .inr ⟨length, hlength, hturn.earlier.spaces.length? hgiven⟩

/-- So the space never has another length. -/
theorem Valid.length_turns (hv : m.Valid) (h : Run Turn m m') (hc : m.Carries ⟨.space space rule, frame⟩)
    {length : Length} (hlength : m'.state.layout.spaces.length? space = some length) : P length := by
  have hv' := hv.turns h
  rcases hv.carries_or_length hrule hzero h hc with hcarries | ⟨other, hother, hgiven⟩
  · have hexp : m'.state.Expects (.space space) := hv'.expected_of_hasJob (hcarries.hasJob hv' rfl)
    exact absurd (Spaces.isResolved_iff.mpr ⟨length, hlength⟩) hexp.2
  · rw [hlength] at hgiven
    cases hgiven
    exact hother

end Lengths

/-- Storage and padding never get a negative length. -/
theorem Valid.solid_turns (hv : m.Valid) (h : Run Turn m m') (hrule : rule.Solid)
    (hc : m.Carries ⟨.space space rule, frame⟩) {length : Length}
    (hlength : m'.state.layout.spaces.length? space = some length) : length.Solid :=
  hv.length_turns (fun s _ hvalue => ⟨(hrule s space frame _ hvalue).1, hrule s space frame _ hvalue⟩)
    ⟨rfl, le_refl _⟩ h hc hlength

end Moment

/-! ## 2. One stage -/

namespace Layout

/-- A section is started before a space is passed. -/
theorem passSpace_ensureSection (l : Layout) (kind : SpaceKind) (g : Alignment) :
    l.ensureSection.passSpace kind g = l.passSpace kind g := by
  have hidem : l.ensureSection.ensureSection = l.ensureSection := by
    obtain ⟨id, hid⟩ := l.exists_current_ensureSection
    generalize l.ensureSection = l₀ at hid ⊢
    unfold ensureSection
    rw [hid]
  unfold passSpace
  rw [hidem]

end Layout

namespace Assembly

variable {s t u : Assembly} {st : Statement}

/-- What a stage does to the counter in use: it goes up by some bytes, or by a new space that can get no length
but a number of bytes. -/
inductive Rises (s t : Assembly) : Prop
  | bytes (n : Int32) : 0 ≤ n.toInt →
    (∀ τ, t.layout.position.bytes τ = s.layout.position.bytes τ + n) → Rises s t
  | space (k : SpaceId) : s.layout.spaces.size ≤ k.index → k.index < t.layout.spaces.size →
    (∀ τ, t.layout.position.bytes τ = s.layout.position.bytes τ + τ k) →
    (∀ m, Run Turn ⟨t, [], .reading⟩ m → ∀ length : Length,
      m.state.layout.spaces.length? k = some length → length.Solid) → Rises s t

theorem Rises.refl (s : Assembly) : s.Rises s := .bytes 0 (le_refl _) fun _ => (Int32.add_zero _).symm

/-- Before that nothing moves the counter. -/
theorem Rises.after (h : t.Rises u) (hstills : Stills st s t) : s.Rises u := by
  cases h with
  | bytes n hn hbytes => exact .bytes n hn fun τ => hstills.bytes_position τ ▸ hbytes τ
  | space k hk hlt hbytes hsolid =>
    exact .space k (hstills.leads.earlier.size_le.trans hk) hlt
      (fun τ => hstills.bytes_position τ ▸ hbytes τ) hsolid

theorem rises_reserve (hs : s.Ready) {n : Int32} (hn : 0 ≤ n.toInt) :
    s.Rises (s.mapLayout (·.reserve n)) :=
  .bytes n hn fun τ => Layout.bytes_position_reserve hs.valid.formed n τ

/-- A space is passed, and its job is met. -/
theorem rises_passSpace (hs : s.Ready) {rule : SpaceRule} (hrule : rule.Solid) {g : Alignment} {frame : Frame}
    (ha : s.layout.Arranges (s.layout.passSpace rule.kind g).2
      (some ⟨.space (s.layout.passSpace rule.kind g).1 rule, frame⟩)) :
    s.Rises ({ s with layout := (s.layout.passSpace rule.kind g).2 }.resolveOrDefer
      (.space (s.layout.passSpace rule.kind g).1 rule) frame) := by
  obtain ⟨⟨-, hkind, -⟩, k, other, htask, hnew⟩ := ha.job _ rfl
  cases htask
  have hfill := fills_resolveOrDefer s (s.layout.passSpace rule.kind g).2
    (.space (s.layout.passSpace rule.kind g).1 rule) frame
  refine .space (s.layout.passSpace rule.kind g).1 hnew
    (Nat.lt_of_lt_of_le (Spaces.lt_size_of_kind? hkind) hfill.spaces.size_le) (fun τ => ?_)
    fun m hturns length hlength => ?_
  · rw [hfill.position]
    exact Layout.bytes_position_passSpace hs.valid.formed rule.kind g τ
  · have hcascade := @run_resolveAll .reading { s with layout := (s.layout.passSpace rule.kind g).2 }
      [⟨.space (s.layout.passSpace rule.kind g).1 rule, frame⟩]
    have hrun := (hcascade.imp fun _ _ h => Turn.step (.cascade h)).trans hturns
    exact (hs.valid.step (.progress (.arrange ha))).solid_turns hrun hrule (.inl ⟨_, List.mem_cons_self, rfl⟩)
      hlength

theorem rises_align (hs : s.Ready) {a : Alignment} (ha : a.Dyadic) {frame : Frame}
    (hframe : frame.Scoped s.layout.spaces) : s.Rises (s.align a frame) := by
  by_cases hone : a.boundary ≤ 1
  · have heq : s.align a frame = s := by
      rw [align, Layout.align, if_pos hone]
    rw [heq]
    exact .refl s
  have hreserve : ∀ offset, s.Rises { s with layout := s.layout.ensureSection.reserve (a.padding offset) } :=
    fun offset => .bytes _ (ha.padding_nonneg offset) fun τ => by
      rw [← s.layout.bytes_position_ensureSection]
      exact Layout.bytes_position_reserve (s.layout.arranges_ensureSection.formed hs.valid.formed) _ τ
  rcases @Layout.align_cases s.layout _ rfl a (Nat.not_le.mp hone) with
    ⟨-, heq⟩ | ⟨n, -, hn, heq⟩ | heq
  · rw [align_of_none heq]
    exact hreserve _
  · obtain ⟨_, _, _, -, -, -, rfl⟩ := Layout.guaranteedPadding?_eq_some hn
    rw [align_of_none heq]
    exact hreserve _
  · have harranges := Layout.arranges_align_some heq hframe
    rw [align_of_some heq]
    rw [Layout.passSpace_ensureSection] at harranges ⊢
    exact rises_passSpace hs (SpaceRule.solid_padding _ _ ha) harranges

theorem rises_reserveStorage (hs : s.Ready) {op : DataOperand} {label? : Option Name}
    {duplication length : Amount} {frame : Frame} (hframe : frame.Scoped s.layout.spaces)
    (hknown : ∀ d n, duplication = .known d → length = .known n → 0 ≤ (d * op.unit n).toInt) :
    s.Rises (s.reserveStorage op label? duplication length frame) := by
  unfold reserveStorage
  split
  · exact rises_reserve hs (hknown _ _ rfl rfl)
  · exact rises_passSpace hs (SpaceRule.solid_storage _) (@Layout.arranges_passSpace s.layout _
      (.storage (storageExpr op label? duplication length)) trivial frame hframe)

/-- Whatever has been found out by then, the counter has gone up by some bytes, or by a space that is open. -/
theorem Rises.cases (h : s.Rises t) {m : Moment} (hturns : Run Turn ⟨t, [], .reading⟩ m) :
    (∃ n : Int32, 0 ≤ n.toInt ∧ ∀ τ, m.state.layout.spaces.Fits τ →
      t.layout.position.bytes τ = s.layout.position.bytes τ + n) ∨
    ∃ k : SpaceId, s.layout.spaces.size ≤ k.index ∧ k.index < t.layout.spaces.size ∧
      ¬ m.state.layout.spaces.isResolved k ∧
      ∀ τ, t.layout.position.bytes τ = s.layout.position.bytes τ + τ k := by
  cases h with
  | bytes n hn hbytes => exact .inl ⟨n, hn, fun τ _ => hbytes τ⟩
  | space k hk hlt hbytes hsolid =>
    by_cases hres : m.state.layout.spaces.isResolved k
    · obtain ⟨⟨n, spaces⟩, hlength⟩ := Spaces.isResolved_iff.mp hres
      obtain ⟨rfl, hn⟩ := hsolid m hturns _ hlength
      refine .inl ⟨n, hn, fun τ hτ => ?_⟩
      rw [hbytes, hτ _ _ hlength]
      exact congrArg (s.layout.position.bytes τ + ·) (Int32.add_zero n)
    · exact .inr ⟨k, hk, hlt, hres, hbytes⟩

end Assembly

/-! ## 3. All stages of a statement -/

/-- Whether the stages lead from one state to another, and each of them takes the counter in use forward. -/
inductive Rising : Assembly → List Stage → Assembly → Prop
  | nil (s : Assembly) : Rising s [] s
  | cons {s t : Assembly} {stage : Stage} {rest : List Stage} : s.Leads stage.state →
    s.Rises stage.state → Rising stage.state rest t → Rising s (stage :: rest) t

namespace Rising

variable {s t u : Assembly} {trace rest : List Stage}

theorem append (h : Rising s trace t) (h' : Rising t rest u) : Rising s (trace ++ rest) u := by
  induction h with
  | nil => exact h'
  | cons hleads hrises _ ih => exact .cons hleads hrises (ih h')

theorem leads (h : Rising s trace t) : s.Leads t := by
  induction h with
  | nil s => exact .refl s
  | cons hleads _ _ ih => exact hleads.trans ih

end Rising

/-- Whether a statement is DC, DS or a machine instruction. -/
def Statement.IsStorage (st : Statement) : Prop :=
  (∃ storageOnly operands, st.operation = .data storageOnly operands) ∨ st.operation = .instruction

namespace Assembly

variable {s t : Assembly} {st : Statement}

theorem rising_operand (hs : s.Ready) {storageOnly : Bool} {label? : Option Name}
    (hlabel : ∀ name, label? = some name → st.label? = some name) {op : DataOperand}
    (himplicit : op.implicitLength < 2 ^ 31)
    (hfit : FitsTotal (s.operandStages st storageOnly label? op)) :
    Rising s (s.operandStages st storageOnly label? op) (s.processOperand st storageOnly label? op) := by
  have halign := s.acts_alignOperand st op
  have haligned := halign.ready hs
  obtain ⟨hprepare, hscope, -, htakes⟩ := stills_prepareOperand hs st storageOnly op
  have hstills := hprepare.labelled.trans (stills_finish hs storageOnly hlabel op)
  have hscope := hscope.later (stills_finish hs storageOnly hlabel op).leads.earlier
  have hready := hstills.leads.ready haligned
  have htotal : ∀ n, (s.prepareOperand st storageOnly op).total? op = some n → n < 2 ^ 31 :=
    hfit _ (List.mem_cons_of_mem _ List.mem_cons_self)
  -- The first stage ends with the alignment of the operand, the second with its storage.
  refine .cons halign.leads ?_ (.cons ?_ ?_ (.nil _))
  · show s.Rises (s.alignOperand st op)
    unfold alignOperand
    split
    · exact .refl s
    · exact rises_align hs op.type.dyadic_alignment (scoped_frame st _)
  · exact hstills.leads.trans (leads_reserveStorage _ op _ _ _ hscope)
  · show (s.alignOperand st op).Rises (s.processOperand st storageOnly label? op)
    rw [processOperand_eq]
    dsimp only
    refine (rises_reserveStorage hready hscope fun d n hd hn => ?_).after hstills
    refine DataOperand.toInt_unit_nonneg (htakes.duplication d hd) (fun _ => ?_) (htotal _ ?_)
    · -- The length is in its range, or the implicit one stands for it.
      rcases htakes.modified n hn with rfl | hone
      · rw [Int32.le_iff_toInt_le, Int32.toInt_ofNat_of_lt himplicit]
        exact Int.natCast_nonneg _
      · exact Int32.le_trans (by decide) hone
    · rw [Preparation.total?, hd, hn]

/-- Operands without a label. -/
theorem rising_operands (hs : s.Ready) {storageOnly : Bool} {operands : List DataOperand}
    (hops : ∀ op ∈ operands, op.implicitLength < 2 ^ 31)
    (hfit : FitsTotal (dataStages st storageOnly none operands s)) :
    Rising s (dataStages st storageOnly none operands s)
      (operands.foldl (fun s op => s.processOperand st storageOnly none op) s) := by
  induction operands generalizing s with
  | nil => exact .nil s
  | cons op rest ih =>
    have hfirst := @rising_operand s st hs storageOnly none (fun _ h => nomatch h) op
      (hops op List.mem_cons_self) hfit.append.1
    exact hfirst.append (ih (hfirst.leads.ready hs) (fun op hop => hops op (List.mem_cons_of_mem _ hop))
      hfit.append.2)

theorem rising_processData (hs : s.Ready) {storageOnly : Bool} {operands : List DataOperand}
    (hops : ∀ op ∈ operands, op.implicitLength < 2 ^ 31)
    (hfit : FitsTotal (dataStages st storageOnly st.label? operands s)) :
    Rising s (dataStages st storageOnly st.label? operands s) (s.processData st storageOnly operands) := by
  cases operands with
  | nil => exact .nil s
  | cons first others =>
    have hfirst := rising_operand hs (fun _ => id) (hops first List.mem_cons_self) hfit.append.1
    exact hfirst.append (rising_operands (hfirst.leads.ready hs)
      (fun op hop => hops op (List.mem_cons_of_mem _ hop)) hfit.append.2)

theorem rising_processMachine (hs : s.Ready) {i : Instruction} (hi : Instruction.find? st.opcode = some i) :
    Rising s [{ state := s.align .halfword st.frame }, { state := s.processMachine st }]
      (s.processMachine st) := by
  have halign : Act st s (s.align .halfword st.frame) := .align .h (scoped_frame st _) rfl
  have hready := halign.leads.ready hs
  have hlabel := @stills_enterInstruction (s.align .halfword st.frame) hready st i
  have hlength : 0 ≤ (Int32.ofNat i.length).toInt := by
    unfold Instruction.length Format.length
    split <;> decide
  rw [processMachine_eq hi]
  refine .cons halign.leads (rises_align hs (DataType.dyadic_alignment .h) (scoped_frame st _)) (.cons ?_ ?_
    (.nil _))
  · exact (hlabel.acts.tail (.reserve i)).leads
  · exact (rises_reserve (hlabel.leads.ready hready) hlength).after hlabel

/-- Every stage of storage takes the counter forward. -/
theorem rising_process (hs : s.Ready) (hst : st.IsStorage)
    (hops : ∀ op, st.Reserves op → op.implicitLength < 2 ^ 31) (hfit : FitsTotal (s.stages st)) :
    Rising s (s.stages st) (s.process st) := by
  unfold stages at hfit ⊢
  rcases hst with ⟨storageOnly, operands, hop⟩ | hop
  · have hreserves : ∀ op ∈ operands, st.Reserves op := fun op hmem => ⟨storageOnly, operands, hop, hmem⟩
    rw [hop] at hfit ⊢
    rw [process, hop]
    exact rising_processData hs (fun op hmem => hops op (hreserves op hmem)) hfit
  · rw [hop]
    have heq : s.process st = s.processMachine st := by rw [process, hop]
    rw [heq]
    cases hi : Instruction.find? st.opcode with
    | none =>
      have hnone : s.processMachine st = s := by
        unfold processMachine
        rw [hi]
      rw [hnone]
      exact .cons (.refl s) (.refl s) (.nil s)
    | some i => exact rising_processMachine hs hi

end Assembly

/-! ## 4. Known places -/

namespace Address

/-- The number of bytes to a place, if nothing else is in it. -/
def offsetIn (a : Spaces) (x : Address) : Int32 := (x.normalize a).offset

/-- Whether the distance between two places fits into 32 bits. -/
def Near (a : Spaces) (x y : Address) : Prop :=
  (y.offsetIn a - x.offsetIn a).toInt = (y.offsetIn a).toInt - (x.offsetIn a).toInt

variable {a : Spaces} {τ : SpaceId → Int32} {x y : Address}

theorem bytes_eq_offsetIn (hx : (x.normalize a).spaces = []) (hτ : a.Fits τ) : x.bytes τ = x.offsetIn a := by
  have hbytes := bytes_normalize hτ x
  rw [bytes, hx] at hbytes
  exact hbytes.symm.trans (Int32.add_zero _)

/-- Some bytes after a known place comes a known place, which is not below it. -/
theorem offsetIn_le_of_bytes (ha : a.Acyclic) (hx : (x.normalize a).spaces = []) {n : Int32} (hn : 0 ≤ n.toInt)
    (h : ∀ τ, a.Fits τ → y.bytes τ = x.bytes τ + n) :
    (y.normalize a).spaces = [] ∧ (x.Near a y → x.offsetIn a ≤ y.offsetIn a) := by
  have hall : ∀ τ, a.Fits τ → y.bytes τ = x.offsetIn a + n := fun τ hτ => by
    rw [h τ hτ, bytes_eq_offsetIn hx hτ]
  have hy := spaces_normalize_eq_nil ha hall
  obtain ⟨τ, hτ, -⟩ := Spaces.exists_fits ha fun _ => 0
  have hoffset : y.offsetIn a = x.offsetIn a + n := (bytes_eq_offsetIn hy hτ).symm.trans (hall τ hτ)
  refine ⟨hy, fun hnear => ?_⟩
  have hgap : y.offsetIn a - x.offsetIn a = n := by
    rw [hoffset]
    grind
  rw [Near, hgap] at hnear
  rw [Int32.le_iff_toInt_le]
  omega

end Address

namespace Rising

variable {s t : Assembly} {trace : List Stage} {m : Moment} {τ υ : SpaceId → Int32}

/-- The distance on the way depends on no spaces but those that are passed. -/
theorem distance_congr (h : Rising s trace t) (hturns : Run Turn ⟨t, [], .reading⟩ m)
    (hτ : m.state.layout.spaces.Fits τ) (hυ : m.state.layout.spaces.Fits υ)
    (heq : ∀ k : SpaceId, s.layout.spaces.size ≤ k.index → ¬ m.state.layout.spaces.isResolved k → τ k = υ k) :
    t.layout.position.bytes τ - s.layout.position.bytes τ =
      t.layout.position.bytes υ - s.layout.position.bytes υ := by
  induction h with
  | nil => grind
  | cons hleads hrises hrest ih =>
    have hsize := hleads.earlier.size_le
    have htail := ih hturns fun k hk => heq k (hsize.trans hk)
    rcases hrises.cases ((hrest.leads.steps.imp fun _ _ => .step).trans hturns) with
      ⟨n, -, hbytes⟩ | ⟨k, hk, -, hopen, hbytes⟩
    · have hfirst := hbytes τ hτ
      have hlast := hbytes υ hυ
      grind
    · have hfirst := hbytes τ
      have hlast := hbytes υ
      have hsame := heq k hk hopen
      grind

/-- Between known places no space is open, so the counter goes up. -/
theorem offsetIn_le (h : Rising s trace t) (hturns : Run Turn ⟨t, [], .reading⟩ m)
    (ha : m.state.layout.spaces.Acyclic)
    (hbefore : (s.layout.position.normalize m.state.layout.spaces).spaces = [])
    (hafter : (t.layout.position.normalize m.state.layout.spaces).spaces = [])
    (hnear : (s.layout.position :: trace.map (·.state.layout.position)).IsChain
      (Address.Near m.state.layout.spaces)) :
    s.layout.position.offsetIn m.state.layout.spaces ≤ t.layout.position.offsetIn m.state.layout.spaces := by
  induction h with
  | nil => exact Int32.le_refl _
  | @cons s t stage rest hleads hrises hrest ih =>
    obtain ⟨hfirst, hnear⟩ := List.isChain_cons_cons.mp hnear
    rcases hrises.cases ((hrest.leads.steps.imp fun _ _ => .step).trans hturns) with
      ⟨n, hn, hbytes⟩ | ⟨k, -, hlt, hopen, hbytes⟩
    · obtain ⟨hknown, hle⟩ := Address.offsetIn_le_of_bytes ha hbefore hn hbytes
      exact Int32.le_trans (hle hfirst) (ih hturns hknown hafter hnear)
    · -- An open space would leave the last place open, as the stages that follow pass other spaces.
      obtain ⟨τ, hτ, hzero⟩ := Spaces.exists_fits ha fun _ => 0
      obtain ⟨υ, hυ, hone⟩ := Spaces.exists_fits ha fun j => if j = k then 1 else 0
      have hrest := hrest.distance_congr hturns hτ hυ fun j hj hres => by
        rw [hzero j hres, hone j hres, if_neg]
        rintro rfl
        exact Nat.not_lt.mpr hj hlt
      have hk : τ k = 0 ∧ υ k = 1 := ⟨hzero k hopen, (hone k hopen).trans (if_pos rfl)⟩
      have hstart := (Address.bytes_eq_offsetIn hbefore hτ).trans (Address.bytes_eq_offsetIn hbefore hυ).symm
      have hend := (Address.bytes_eq_offsetIn hafter hτ).trans (Address.bytes_eq_offsetIn hafter hυ).symm
      have hfirst := hbytes τ
      have hlast := hbytes υ
      have hcontra : (0 : Int32) = 1 := by grind
      cases hcontra

end Rising

/-! ## 5. Sessions -/

namespace Session

/-- Whether the sizes and the places of the storage of a statement fit into 32 bits. -/
structure FitsStorage (s : Assembly) (st : Statement) (a : Spaces) : Prop where
  lengths : ∀ op, st.Reserves op → op.implicitLength < 2 ^ 31
  totals : FitsTotal (s.stages st)
  places : (s.layout.position :: (s.stages st).map (·.state.layout.position)).IsChain (Address.Near a)

/-- In every later state in which the places before and after DC, DS or a machine instruction are known, the counter
has not gone back. -/
theorem offset_le_of_turns (settings : Settings) (operations : List Operation) (st : Statement)
    (hst : st.IsStorage) (m : Moment) :
    let s := stateAfter settings operations
    let a := m.state.layout.spaces
    let before := s.layout.position.normalize a
    let after := (s.process st).layout.position.normalize a
    Run Turn ⟨s.process st, [], .reading⟩ m → FitsStorage s st a →
      before.spaces = [] → after.spaces = [] → before.offset ≤ after.offset := by
  intro s a before after hturns hfit hbefore hafter
  have hready := ready_stateAfter settings operations
  have hrising : Rising s (s.stages st) (s.process st) :=
    rising_process hready hst hfit.lengths hfit.totals
  have hvalid := (hrising.leads.ready hready).valid.turns hturns
  exact hrising.offsetIn_le hturns hvalid.wellFormed.acyclic hbefore hafter hfit.places

/-! ### An instruction behind a byte -/

namespace Halfword

theorem stages_load : afterByte.stages load = [{ state := aligned }, { state := loaded }] := by
  have hstages : afterByte.stages load = if (Instruction.find? load.opcode).isSome then
      [{ state := afterByte.align .halfword load.frame }, { state := afterByte.process load }]
    else [{ state := afterByte.process load }] := rfl
  rw [hstages, find?_load, if_pos Option.isSome_some, process_load]
  rfl

theorem fitsStorage_load : FitsStorage afterByte load loaded.layout.spaces where
  lengths := by
    rintro op ⟨_, _, hop, -⟩
    cases hop
  totals := by
    rw [stages_load]
    simp [FitsTotal]
  places := by
    rw [stages_load]
    have hfirst : Address.Near loaded.layout.spaces afterByte.layout.position aligned.layout.position := by
      unfold Address.Near
      decide +kernel
    have hlast : Address.Near loaded.layout.spaces aligned.layout.position loaded.layout.position := by
      unfold Address.Near
      decide +kernel
    exact .cons_cons hfirst (.cons_cons hlast (.singleton _))

end Halfword

/-- The instruction is aligned first, and it is two bytes long. -/
theorem offset_le_of_turns_load :
    let s := stateAfter {} [.command (.process Halfword.byte)]
    let a := Halfword.loaded.layout.spaces
    let before := s.layout.position.normalize a
    let after := (s.process Halfword.load).layout.position.normalize a
    before = (Address.start ⟨0⟩).addOffset 1 ∧ after = (Address.start ⟨0⟩).addOffset 4 ∧
      before.offset ≤ after.offset := by
  have hprocess : (stateAfter {} [.command (.process Halfword.byte)]).process Halfword.load = Halfword.loaded :=
    Halfword.process_load
  have hle := offset_le_of_turns {} [.command (.process Halfword.byte)] Halfword.load (.inr rfl)
    ⟨Halfword.loaded, [], .reading⟩
  dsimp only at hle ⊢
  rw [hprocess] at hle ⊢
  have hbefore : (stateAfter {} [.command (.process Halfword.byte)]).layout.position.normalize
      Halfword.loaded.layout.spaces = (Address.start ⟨0⟩).addOffset 1 := by decide +kernel
  have hafter : Halfword.loaded.layout.position.normalize Halfword.loaded.layout.spaces =
      (Address.start ⟨0⟩).addOffset 4 := by decide +kernel
  rw [hbefore, hafter] at hle ⊢
  exact ⟨rfl, rfl, hle (.refl _) Halfword.fitsStorage_load rfl rfl⟩

end Session

end Assembler
