import Assembler.Proofs.Measure
import Mathlib.Data.Int.ModEq
/-!
Padding before storage.

Padding follows from what is known of the position of a counter: the distance to its origin, or what is
guaranteed of the last space passed and the bytes after it. If what is recorded is right for the lengths that
the spaces have in the end (`Layout.Regular`), alignment leads to a multiple of the boundary by fewer bytes than
the boundary (`Assembly.padded_align`).
-/

namespace Assembler

/-! ## 1. Remainders of 32-bit numbers -/

section Remainder

variable {b : Nat}

/-- Cutting to 32 bits leaves the remainder modulo a power of two alone. -/
theorem bmod_modEq (hb : b ∣ 4096) (n : Int) : n.bmod (2 ^ 32) ≡ n [ZMOD b] := by
  have hmod : n.bmod (2 ^ 32) % (2 ^ 32 : Nat) = n % (2 ^ 32 : Nat) := Int.bmod_emod
  exact Int.ModEq.of_dvd (Int.natCast_dvd_natCast.mpr (hb.trans (by decide))) hmod

theorem toInt_add_modEq (hb : b ∣ 4096) (m n : Int32) :
    (m + n).toInt ≡ m.toInt + n.toInt [ZMOD b] := by
  rw [Int32.toInt_add]
  exact bmod_modEq hb _

theorem toInt_sub_modEq (hb : b ∣ 4096) (m n : Int32) :
    (m - n).toInt ≡ m.toInt - n.toInt [ZMOD b] := by
  rw [Int32.toInt_sub]
  exact bmod_modEq hb _

theorem toInt_mul_modEq (hb : b ∣ 4096) (m n : Int32) :
    (m * n).toInt ≡ m.toInt * n.toInt [ZMOD b] := by
  rw [Int32.toInt_mul]
  exact bmod_modEq hb _

theorem toInt_ofNat_modEq (hb : b ∣ 4096) (n : Nat) : (Int32.ofNat n).toInt ≡ n [ZMOD b] := by
  rw [← Int32.ofInt_eq_ofNat, Int32.toInt_ofInt]
  exact bmod_modEq hb _

end Remainder

namespace Alignment

variable {a : Alignment}

/-- Whether the boundary is a power of two up to 4096, as all boundaries are. -/
def Dyadic (a : Alignment) : Prop := a.boundary ∣ 4096

theorem Dyadic.pos (h : a.Dyadic) : 0 < a.boundary := Nat.pos_of_dvd_of_pos h (by decide)

theorem Dyadic.le (h : a.Dyadic) : a.boundary ≤ 4096 := Nat.le_of_dvd (by decide) h

theorem Dyadic.toInt_padding (h : a.Dyadic) (offset : Int) :
    (a.padding offset).toInt = a.gap offset := by
  have hnonneg := a.gap_nonneg offset
  have hlt := a.gap_lt offset
  have hle := h.le
  exact Int32.toInt_ofInt_of_le (by omega) (by omega)

theorem Dyadic.padding_nonneg (h : a.Dyadic) (offset : Int) : 0 ≤ (a.padding offset).toInt := by
  rw [h.toInt_padding]
  exact a.gap_nonneg offset

theorem Dyadic.padding_lt (h : a.Dyadic) (offset : Int) :
    (a.padding offset).toInt < a.boundary := by
  have hlt := a.gap_lt offset
  have hpos := h.pos
  rw [h.toInt_padding]
  omega

theorem Dyadic.padding_modEq (h : a.Dyadic) (offset : Int) :
    (a.padding offset).toInt ≡ a.byte - offset [ZMOD a.boundary] := by
  have hpos := h.pos
  rw [h.toInt_padding, gap, Nat.max_eq_left hpos]
  exact Int.mod_modEq _ _

theorem dvd_of_implies {wanted : Alignment} (h : a.implies wanted) : wanted.boundary ∣ a.boundary := by
  simp only [implies, Bool.and_eq_true, decide_eq_true_eq, beq_iff_eq] at h
  exact Nat.dvd_of_mod_eq_zero h.2

end Alignment

theorem DataType.dyadic_alignment (t : DataType) : t.alignment.Dyadic := by
  unfold DataType.alignment Alignment.Dyadic
  split <;> decide

theorem DataType.byte_alignment (t : DataType) : t.alignment.byte = 0 := by
  unfold DataType.alignment
  split <;> rfl

theorem DataType.dvd_defaultLength (t : DataType) : t.alignment.boundary ∣ t.defaultLength := by
  cases t with
  | d format | e format | l format => cases format <;> decide
  | _ => decide

/-- A value of a type is a whole number of boundaries long. -/
theorem DataType.dvd_valueLength (t : DataType) (value : Text) :
    t.alignment.boundary ∣ t.valueLength value := by
  have hdefault := t.dvd_defaultLength
  unfold DataType.valueLength
  -- The types whose values have lengths of their own are not aligned.
  split <;> first | exact Nat.one_dvd _ | exact hdefault

theorem DataOperand.dvd_implicitTotal (op : DataOperand) :
    op.type.alignment.boundary ∣ op.implicitTotal := by
  have fold : ∀ (values : List Text) (n : Nat), op.type.alignment.boundary ∣ n →
      op.type.alignment.boundary ∣ values.foldl (fun n value => n + op.type.valueLength value) n := by
    intro values
    induction values with
    | nil => exact fun _ => id
    | cons value rest ih => exact fun n hn => ih _ (Nat.dvd_add hn (op.type.dvd_valueLength value))
  unfold DataOperand.implicitTotal
  split
  · exact fold _ 0 (Nat.dvd_zero _)
  · exact Nat.dvd_mul_right_of_dvd op.type.dvd_defaultLength _

/-- So is the storage of an operand without a length modifier. -/
theorem DataOperand.unit_modEq {op : DataOperand} (hnone : op.length? = none) (length : Int32) :
    (op.unit length).toInt ≡ 0 [ZMOD op.type.alignment.boundary] := by
  rw [DataOperand.unit, hnone]
  exact (toInt_ofNat_modEq op.type.dyadic_alignment _).trans
    (Int.modEq_zero_iff_dvd.mpr (Int.natCast_dvd_natCast.mpr op.dvd_implicitTotal))

/-- The product of an expression and a number is a multiple of the number. -/
theorem Assembly.evaluateNumber_times {s : Assembly} {e : Expr} {k n : Int32} {f : Frame}
    (h : s.evaluateNumber (Expr.times e (.number k)) f = .resolved n) : ∃ m, n = m * k := by
  unfold Expr.times at h
  split at h
  · -- The expression is the number one.
    cases h
    exact ⟨1, (Int32.one_mul _).symm⟩
  · rename_i hone
    cases hone
    exact ⟨n, (Int32.mul_one _).symm⟩
  · obtain ⟨v, hv, hn⟩ := Evaluation.andThen_eq_resolved.mp h
    unfold Expr.evaluate at hv
    split at hv
    · rename_i w hw
      obtain ⟨⟨x, y⟩, hboth, happly⟩ := Evaluation.andThen_eq_resolved.mp hw
      obtain ⟨-, hy⟩ := Evaluation.both_eq_resolved.mp hboth
      cases hy
      obtain ⟨⟨i, j⟩, hfactors, rfl⟩ := Evaluation.map_eq_resolved.mp happly
      obtain ⟨-, hj⟩ := Evaluation.both_eq_resolved.mp hfactors
      cases hj
      cases hv
      cases hn
      exact ⟨i, rfl⟩
    · rename_i hother
      exact absurd hv (hother v)

/-! ## 2. What is known of positions -/

/-- Whether what is recorded of a counter is right when space `s` has length `τ s`: the first counter of a
section begins at its start, the others begin on a boundary, and the bytes after the last space passed are
counted from a place that the guarantee of the space allows. -/
structure Counter.Regular (starts : Alignment) (a : Spaces) (τ : SpaceId → Int32) (c : Counter) :
    Prop where
  first : c.start? = none → c.origin.bytes τ = 0
  further : c.start?.isSome → (c.origin.bytes τ).toInt ≡ 0 [ZMOD starts.boundary]
  tail : ∀ k after, c.tail? = some (k, after) → ∃ space, a.get? k = some space ∧
    space.guarantee.Dyadic ∧ (c.position.bytes τ - c.origin.bytes τ).toInt ≡
      space.guarantee.byte + after.toInt [ZMOD space.guarantee.boundary]

namespace Counter.Regular

variable {starts : Alignment} {a b : Spaces} {τ : SpaceId → Int32} {c : Counter}

theorem later (h : c.Regular starts a τ) (hab : a.Earlier b) : c.Regular starts b τ where
  first := h.first
  further := h.further
  tail k after htail := by
    obtain ⟨space, hspace, hrest⟩ := h.tail k after htail
    obtain ⟨length?, hlater, -⟩ := hab k space hspace
    exact ⟨_, hlater, hrest⟩

theorem advance (h : c.Regular starts a τ) (n : Int32) : (c.advance n).Regular starts a τ where
  first := h.first
  further := h.further
  tail k after htail := by
    obtain ⟨⟨k', after'⟩, htail', heq⟩ := Option.map_eq_some_iff.mp htail
    cases heq
    obtain ⟨space, hspace, hdyadic, hafter⟩ := h.tail k after' htail'
    refine ⟨space, hspace, hdyadic, ?_⟩
    have hmove : (c.advance n).position.bytes τ - (c.advance n).origin.bytes τ =
        (c.position.bytes τ - c.origin.bytes τ) + n := by
      have := Address.bytes_addOffset τ c.position n
      show (c.position.addOffset n).bytes τ - c.origin.bytes τ = _
      grind
    rw [hmove]
    calc ((c.position.bytes τ - c.origin.bytes τ) + n).toInt
        ≡ (c.position.bytes τ - c.origin.bytes τ).toInt + n.toInt [ZMOD space.guarantee.boundary] :=
          toInt_add_modEq hdyadic _ _
      _ ≡ (space.guarantee.byte + after'.toInt) + n.toInt [ZMOD space.guarantee.boundary] :=
          hafter.add_right _
      _ ≡ space.guarantee.byte + (after' + n).toInt [ZMOD space.guarantee.boundary] := by
          rw [add_assoc]
          exact ((toInt_add_modEq hdyadic after' n).symm).add_left _

theorem pass (h : c.Regular starts a τ) {k : SpaceId} {space : Space} (hspace : a.get? k = some space)
    (hdyadic : space.guarantee.Dyadic) (hend : (c.position.bytes τ + τ k - c.origin.bytes τ).toInt ≡
      space.guarantee.byte [ZMOD space.guarantee.boundary]) : (c.pass k).Regular starts a τ where
  first := h.first
  further := h.further
  tail k' after htail := by
    cases htail
    refine ⟨space, hspace, hdyadic, ?_⟩
    show ((c.position.addSpace k 1).bytes τ - c.origin.bytes τ).toInt ≡ _ [ZMOD _]
    rw [Address.bytes_addSpace]
    simpa using hend

theorem mark (h : c.Regular starts a τ) (b : Spaces) : (c.mark b).Regular starts a τ := by
  unfold Counter.mark
  split
  · exact h
  · exact ⟨h.first, h.further, h.tail⟩

theorem moveTo (h : c.Regular starts a τ) (b : Spaces) (place : Address) :
    ({ c.mark b with position := place, tail? := none } : Counter).Regular starts a τ := by
  have hmark := h.mark b
  exact ⟨hmark.first, hmark.further, fun k after htail => nomatch htail⟩

end Counter.Regular

structure Layout.Regular (starts : Alignment) (τ : SpaceId → Int32) (l : Layout) : Prop where
  counterAlignment : l.counterAlignment = starts
  counters : ∀ (i : Nat) (c : Counter), l.counters[i]? = some c → c.Regular starts l.spaces τ

namespace Layout

variable {starts : Alignment} {τ : SpaceId → Int32} {l l' : Layout} {c : Counter}

theorem Regular.fills (h : l.Regular starts τ) (hfill : l.Fills l') : l'.Regular starts τ where
  counterAlignment := hfill.counterAlignment.trans h.counterAlignment
  counters i c hc := by
    rw [hfill.counters] at hc
    exact (h.counters i c hc).later hfill.spaces

theorem Regular.current (h : l.Regular starts τ) (hc : l.current = some c) :
    c.Regular starts l.spaces τ := by
  obtain ⟨id, -, hget⟩ := Option.bind_eq_some_iff.mp hc
  exact h.counters id.index c hget

theorem Regular.modifyCurrent (h : l.Regular starts τ) {f : Counter → Counter}
    (hf : ∀ c, l.current = some c → (f c).Regular starts l.spaces τ) :
    (l.modifyCurrent f).Regular starts τ := by
  unfold Layout.modifyCurrent
  split
  · rename_i id hid
    refine ⟨h.counterAlignment, fun i c hc => ?_⟩
    obtain ⟨d, hd, rfl⟩ := getElem?_modify_eq_some hc
    split
    · rename_i hi
      refine hf d ?_
      rw [Layout.current, hid]
      show l.counters[id.index]? = some d
      rw [hi]
      exact hd
    · exact h.counters i d hd
  · exact h

theorem Regular.createSection (h : l.Regular starts τ) (name? : Option Name) (kind : SectionKind) :
    (l.createSection name? kind).2.Regular starts τ := by
  refine ⟨h.counterAlignment, fun i c hc => ?_⟩
  rcases getElem?_concat_eq_some.mp hc with hc | ⟨-, rfl⟩
  · exact h.counters i c hc
  · exact ⟨fun _ => Address.bytes_start τ _, fun hsome => (nomatch hsome),
      fun k after htail => (nomatch htail)⟩

theorem Regular.ensureSection (h : l.Regular starts τ) : l.ensureSection.Regular starts τ := by
  unfold Layout.ensureSection
  split
  · exact h
  · exact h.createSection none .executable

theorem Regular.resumeSection (h : l.Regular starts τ) (s : SectionId) :
    (l.resumeSection s).Regular starts τ := by
  unfold Layout.resumeSection
  split
  · exact ⟨h.counterAlignment, h.counters⟩
  · exact h

theorem Regular.resumeCounter (h : l.Regular starts τ) (c : CounterId) :
    (l.resumeCounter c).Regular starts τ := by
  unfold Layout.resumeCounter
  split
  · exact ⟨h.counterAlignment, h.counters⟩
  · exact h

/-- A further counter begins on a boundary if its start has such a length. -/
theorem Regular.createCounter (h : l.Regular starts τ) (name : Name)
    (hstart : ∀ k, (l.createCounter name).2.HasStart k → (τ k).toInt ≡ 0 [ZMOD starts.boundary]) :
    (l.createCounter name).2.Regular starts τ := by
  obtain ⟨-, heq⟩ | ⟨s, -, heq⟩ := l.createCounter_cases name <;> rw [heq] at hstart ⊢
  · exact h.ensureSection
  · refine ⟨h.ensureSection.counterAlignment, fun i c hc => ?_⟩
    rcases getElem?_addCounter.mp hc with hold | ⟨-, rfl⟩
    · exact (h.ensureSection.counters i c hold).later (l.ensureSection.earlier_addCounter name s)
    · refine ⟨fun hnone => (nomatch hnone), fun _ => ?_, fun k after htail => nomatch htail⟩
      have hlength := hstart _ ⟨i, _, hc, rfl⟩
      rw [furtherCounter, Address.bytes_addSpace, Address.bytes_start, Int32.zero_add]
      exact hlength

theorem Regular.reserve (h : l.Regular starts τ) (n : Int32) : (l.reserve n).Regular starts τ :=
  h.ensureSection.modifyCurrent fun _ hc => (h.ensureSection.current hc).advance n

theorem Regular.moveTo (h : l.Regular starts τ) (place : Address) : (l.moveTo place).Regular starts τ :=
  h.ensureSection.modifyCurrent fun _ hc => (h.ensureSection.current hc).moveTo _ place

/-- From the origin of a counter alignment can be measured if that is on the boundary. -/
theorem Regular.origin (h : l.Regular starts τ) (hc : l.current = some c) {a : Alignment}
    (himplies : l.originImplies a) : (c.origin.bytes τ).toInt ≡ 0 [ZMOD a.boundary] := by
  have hreg := h.current hc
  cases hstart : c.start? with
  | none =>
    rw [hreg.first hstart]
    rfl
  | some k =>
    have hfurther := hreg.further (by rw [hstart]; rfl)
    rw [originImplies, hc, h.counterAlignment] at himplies
    simp only [Option.any_some, hstart, Option.isNone_some, Bool.false_or] at himplies
    exact hfurther.of_dvd (Int.natCast_dvd_natCast.mpr (Alignment.dvd_of_implies himplies))

theorem Regular.reference (h : l.Regular starts τ) (hc : l.current = some c) (a : Alignment) :
    ((l.alignmentReference a).bytes τ).toInt ≡ 0 [ZMOD a.boundary] := by
  unfold alignmentReference
  split
  · rename_i himplies
    rw [origin_of_current hc]
    exact h.origin hc himplies
  · rw [currentSection?, hc]
    rfl

/-- The guarantee of a space that is passed has to be right if it is kept. -/
theorem Regular.passSpace (h : l.Regular starts τ) {kind : SpaceKind}
    {g : Alignment} (hg : g.Dyadic) (hend : ∀ c, l.ensureSection.current = some c →
      l.ensureSection.originImplies g →
        (c.position.bytes τ + τ (l.passSpace kind g).1 - c.origin.bytes τ).toInt ≡
          g.byte [ZMOD g.boundary]) :
    (l.passSpace kind g).2.Regular starts τ := by
  obtain ⟨id, hid⟩ := l.exists_current_ensureSection
  rw [passSpace_eq l kind g hid] at hend ⊢
  have hsection := h.ensureSection
  generalize l.ensureSection = l₀ at *
  have hearlier := l₀.spaces.earlier_create kind id (if l₀.originImplies g then g else .any)
  have hfill : l₀.Fills
      { l₀ with spaces := (l₀.spaces.create kind id (if l₀.originImplies g then g else .any)).2 } :=
    ⟨rfl, rfl, rfl, rfl, hearlier⟩
  refine (hsection.fills hfill).modifyCurrent fun c hc => ?_
  refine ((hsection.fills hfill).current hc).pass
    ((Spaces.get?_create _ _ _ _ _).trans (if_pos rfl)) ?_ ?_
  · split
    · exact hg
    · exact Nat.one_dvd _
  · split
    · exact hend c hc ‹_›
    · exact Int.modEq_one

end Layout

/-! ## 3. Alignment -/

namespace Layout

/-- The padding is known from the distance to the reference or from a guarantee, or it becomes a space. -/
theorem align_cases {l l₀ : Layout} (hl : l.ensureSection = l₀) {a : Alignment} (ha : 1 < a.boundary) :
    ((Length.between l₀.spaces l₀.position (l₀.alignmentReference a)).spaces = [] ∧
      l.align a = (none, l₀.reserve (a.padding
        (Length.between l₀.spaces l₀.position (l₀.alignmentReference a)).bytes.toInt))) ∨
    (∃ n, l₀.originImplies a ∧ l₀.guaranteedPadding? a = some n ∧ l.align a = (none, l₀.reserve n)) ∨
    l.align a = (some ⟨(l₀.passSpace .alignment a).1, l₀.position, l₀.alignmentReference a, a⟩,
      (l₀.passSpace .alignment a).2) := by
  unfold align
  rw [if_neg (Nat.not_le.mpr ha)]
  dsimp only
  rw [hl]
  by_cases hgap : ((l₀.position - l₀.alignmentReference a).normalize l₀.spaces).spaces.isEmpty
  · rw [if_pos hgap]
    exact .inl ⟨List.isEmpty_iff.mp hgap, rfl⟩
  · rw [if_neg hgap]
    refine .inr ?_
    by_cases himplies : l₀.originImplies a
    · rw [if_pos himplies]
      cases hpadding : l₀.guaranteedPadding? a with
      | some n => exact .inl ⟨n, himplies, rfl, rfl⟩
      | none => exact .inr rfl
    · rw [if_neg himplies]
      exact .inr rfl

theorem guaranteedPadding?_eq_some {l : Layout} {a : Alignment} {n : Int32}
    (h : l.guaranteedPadding? a = some n) : ∃ k after space, l.current.bind (·.tail?) = some (k, after) ∧
      l.spaces.get? k = some space ∧ space.guarantee.implies a ∧
        n = a.padding (space.guarantee.byte + after.toInt) := by
  obtain ⟨⟨k, after⟩, htail, hrest⟩ := Option.bind_eq_some_iff.mp h
  obtain ⟨space, hspace, hrest⟩ := Option.bind_eq_some_iff.mp hrest
  obtain ⟨_, hguard, hpadding⟩ := Option.bind_eq_some_iff.mp hrest
  refine ⟨k, after, space, htail, hspace, Classical.byContradiction fun hno => ?_,
    (Option.some.inj hpadding).symm⟩
  rw [guard, if_neg fun hboth => hno hboth.2] at hguard
  cases hguard

/-- A guarantee that is used leads to the boundary. -/
theorem Regular.guaranteed {starts : Alignment} {τ : SpaceId → Int32} {l : Layout} {c : Counter}
    (h : l.Regular starts τ) (hc : l.current = some c) {a : Alignment} (ha : a.Dyadic) {n : Int32}
    (hn : l.guaranteedPadding? a = some n) :
    (c.position.bytes τ - c.origin.bytes τ).toInt + n.toInt ≡ a.byte [ZMOD a.boundary] := by
  obtain ⟨k, after, space, htail, hspace, himplies, rfl⟩ := guaranteedPadding?_eq_some hn
  rw [hc] at htail
  obtain ⟨other, hother, -, hafter⟩ := (h.current hc).tail k after htail
  rw [hspace] at hother
  cases hother
  have hend := hafter.of_dvd (Int.natCast_dvd_natCast.mpr (Alignment.dvd_of_implies himplies))
  calc (c.position.bytes τ - c.origin.bytes τ).toInt +
        (a.padding (space.guarantee.byte + after.toInt)).toInt
      ≡ (space.guarantee.byte + after.toInt) +
          (a.byte - (space.guarantee.byte + after.toInt)) [ZMOD a.boundary] :=
        hend.add (ha.padding_modEq _)
    _ = a.byte := by omega

end Layout

/-- What leads from a place to a boundary measured from a reference leads to a multiple of the boundary, if the
reference is one. -/
theorem toInt_add_modEq_zero {b : Nat} (hb : b ∣ 4096) {place reference n : Int32}
    (hreference : reference.toInt ≡ 0 [ZMOD b])
    (hn : (place - reference).toInt + n.toInt ≡ 0 [ZMOD b]) : (place + n).toInt ≡ 0 [ZMOD b] := by
  have hsplit : place + n = (place - reference) + n + reference := by grind
  rw [hsplit]
  calc ((place - reference) + n + reference).toInt
      ≡ ((place - reference) + n).toInt + reference.toInt [ZMOD b] := toInt_add_modEq hb _ _
    _ ≡ ((place - reference).toInt + n.toInt) + 0 [ZMOD b] :=
        (toInt_add_modEq hb _ _).add hreference
    _ ≡ 0 [ZMOD b] := by simpa using hn

namespace Assembly

variable {s t f : Assembly} {starts : Alignment} {τ : SpaceId → Int32}

/-- What alignment of a counter leads to: a number of bytes less than the boundary is passed, and in the end the
place is on the boundary. -/
structure Padded (s t f : Assembly) (starts a : Alignment) (n : Int32) : Prop where
  nonneg : 0 ≤ n.toInt
  lt : n.toInt < a.boundary
  bytes : ∀ τ, f.layout.spaces.Fits τ → t.layout.position.bytes τ = s.layout.position.bytes τ + n
  boundary : ∀ τ, f.layout.spaces.Fits τ → s.layout.Regular starts τ →
    (t.layout.position.bytes τ).toInt ≡ 0 [ZMOD a.boundary]
  regular : ∀ τ, f.layout.spaces.Fits τ → s.layout.Regular starts τ → t.layout.Regular starts τ

/-- The number of bytes that leads from a counter to the boundary, measured from a multiple of it. -/
def Completing (l : Layout) (a : Alignment) (τ : SpaceId → Int32) (n : Int32) : Prop :=
  ∃ reference : Int32, reference.toInt ≡ 0 [ZMOD a.boundary] ∧
    (l.position.bytes τ - reference).toInt + n.toInt ≡ 0 [ZMOD a.boundary]

theorem align_of_none {a : Alignment} {layout : Layout} (h : s.layout.align a = (none, layout))
    (frame : Frame) : s.align a frame = { s with layout } := by
  rw [align, h]

theorem align_of_some {a : Alignment} {p : Layout.Padding} {layout : Layout}
    (h : s.layout.align a = (some p, layout)) (frame : Frame) : s.align a frame =
      { s with layout }.resolveOrDefer (.space p.space (.padding p.position p.reference p.alignment)) frame := by
  rw [align, h]

theorem padded_reserve (hs : s.Ready) {a : Alignment} (ha : a.Dyadic) (offset : Int)
    (hend : ∀ τ, f.layout.spaces.Fits τ → s.layout.Regular starts τ →
      Completing s.layout.ensureSection a τ (a.padding offset)) :
    Padded s { s with layout := s.layout.ensureSection.reserve (a.padding offset) } f starts a
      (a.padding offset) := by
  have hbytes : ∀ τ, (s.layout.ensureSection.reserve (a.padding offset)).position.bytes τ =
      s.layout.ensureSection.position.bytes τ + a.padding offset := fun τ =>
    Layout.bytes_position_reserve (s.layout.arranges_ensureSection.formed hs.valid.formed) _ τ
  refine ⟨ha.padding_nonneg offset, ha.padding_lt offset, fun τ _ => ?_, fun τ hτ hreg => ?_,
    fun τ _ hreg => hreg.ensureSection.reserve _⟩
  · rw [← s.layout.bytes_position_ensureSection]
    exact hbytes τ
  · obtain ⟨reference, hreference, hn⟩ := hend τ hτ hreg
    show ((s.layout.ensureSection.reserve _).position.bytes τ).toInt ≡ _ [ZMOD _]
    rw [hbytes]
    exact toInt_add_modEq_zero ha hreference hn

/-- Padding that becomes a space ends with a length that leads to the boundary. -/
theorem exists_padding (hs : s.Ready) {a : Alignment} (ha : a.Dyadic) (hbyte : a.byte = 0)
    {space : SpaceId} {position reference : Address} {layout : Layout} {frame : Frame}
    (harranges : s.layout.Arranges layout (some ⟨.space space (.padding position reference a), frame⟩))
    (h : ({ s with layout }.resolveOrDefer (.space space (.padding position reference a)) frame).Completes
      f) :
    ∃ offset, ∀ τ, f.layout.spaces.Fits τ → τ space = a.padding offset ∧
      (position.bytes τ - reference.bytes τ).toInt + (a.padding offset).toInt ≡ 0 [ZMOD a.boundary] := by
  obtain ⟨u, length, -, -, huf, hlength, hfinal⟩ := Completes.length hs harranges h
  -- The length does not depend on how long other spaces are.
  have hpadding : ∀ τ, f.layout.spaces.Fits τ → length =
      ⟨a.padding (position.bytes τ - reference.bytes τ).toInt, []⟩ :=
    fun τ hτ => attemptSpace_padding hlength (huf.spaces.fits hτ)
  obtain ⟨τ₀, hτ₀, -⟩ := Spaces.exists_fits h.acyclic fun _ => 0
  have hfirst := hpadding τ₀ hτ₀
  refine ⟨(position.bytes τ₀ - reference.bytes τ₀).toInt, fun τ hτ => ⟨?_, ?_⟩⟩
  · rw [hτ _ _ (hfinal (by rw [hfirst])), hfirst]
    exact Int32.add_zero _
  · have hsame : a.padding (position.bytes τ₀ - reference.bytes τ₀).toInt =
        a.padding (position.bytes τ - reference.bytes τ).toInt :=
      congrArg Length.bytes (hfirst.symm.trans (hpadding τ hτ))
    have hmod := ha.padding_modEq (position.bytes τ - reference.bytes τ).toInt
    rw [hbyte] at hmod
    rw [hsame]
    exact (hmod.add_left _).trans (by simp)

theorem padded_pass (hs : s.Ready) {a : Alignment} (ha : a.Dyadic) (hbyte : a.byte = 0) {frame : Frame}
    (hframe : frame.Scoped s.layout.spaces) {c : Counter} {l : Layout}
    (hl : s.layout.ensureSection = l) (hc : l.current = some c)
    (heq : s.layout.align a = (some ⟨(l.passSpace .alignment a).1, l.position, l.alignmentReference a, a⟩,
      (l.passSpace .alignment a).2)) (h : (s.align a frame).Completes f) :
    ∃ n, Padded s (s.align a frame) f starts a n := by
  have harranges := Layout.arranges_align_some heq hframe
  rw [align_of_some heq] at h ⊢
  -- The space has a length in the end, which pads the place that was open at the statement.
  obtain ⟨offset, hoffset⟩ := exists_padding hs ha hbyte harranges h
  have hformed : l.Formed := hl ▸ s.layout.arranges_ensureSection.formed hs.valid.formed
  have hfill := fills_resolveOrDefer s (l.passSpace .alignment a).2
    (.space (l.passSpace .alignment a).1 (.padding l.position (l.alignmentReference a) a)) frame
  have hregular : ∀ τ, s.layout.Regular starts τ → l.Regular starts τ := fun τ hreg =>
    hl ▸ hreg.ensureSection
  dsimp only at h ⊢
  generalize Assembly.resolveOrDefer _ _ _ = t at h hfill ⊢
  have hbytes : ∀ τ, f.layout.spaces.Fits τ →
      t.layout.position.bytes τ = l.position.bytes τ + a.padding offset := fun τ hτ => by
    rw [hfill.position, Layout.bytes_position_passSpace hformed, (hoffset τ hτ).1]
  refine ⟨a.padding offset, ha.padding_nonneg _, ha.padding_lt _, fun τ hτ => ?_, fun τ hτ hreg => ?_,
    fun τ hτ hreg => ?_⟩
  · rw [← s.layout.bytes_position_ensureSection, hl]
    exact hbytes τ hτ
  · rw [hbytes τ hτ]
    exact toInt_add_modEq_zero ha ((hregular τ hreg).reference hc a) (hoffset τ hτ).2
  · refine ((hregular τ hreg).passSpace ha fun d hd himplies => ?_).fills hfill
    rw [Layout.ensureSection_of_current hc] at hd himplies
    rw [hc] at hd
    cases hd
    have hreference : l.alignmentReference a = c.origin := by
      rw [Layout.alignmentReference, if_pos himplies, Layout.origin_of_current hc]
    obtain ⟨hlength, hend⟩ := hoffset τ hτ
    rw [hreference, Layout.position_of_current hc] at hend
    rw [hlength, hbyte]
    have hsplit : c.position.bytes τ + a.padding offset - c.origin.bytes τ =
        (c.position.bytes τ - c.origin.bytes τ) + a.padding offset := by grind
    rw [hsplit]
    exact (toInt_add_modEq ha _ _).trans hend

theorem padded_align (hs : s.Ready) {a : Alignment} (ha : a.Dyadic) (hbyte : a.byte = 0) {frame : Frame}
    (hframe : frame.Scoped s.layout.spaces) (h : (s.align a frame).Completes f) (starts : Alignment) :
    ∃ n, Padded s (s.align a frame) f starts a n := by
  have hpos := ha.pos
  by_cases hone : a.boundary ≤ 1
  · -- Every place is on the boundary.
    have heq : s.align a frame = s := by
      rw [align, Layout.align, if_pos hone]
    have hboundary : a.boundary = 1 := by omega
    rw [heq]
    refine ⟨0, by decide, by rw [hboundary]; decide, fun τ _ => (Int32.add_zero _).symm, fun τ _ hreg => ?_,
      fun τ _ => id⟩
    rw [hboundary]
    exact Int.modEq_one
  obtain ⟨c, hc⟩ := hs.valid.formed.exists_current
  have hfits : ∀ τ, f.layout.spaces.Fits τ → s.layout.ensureSection.spaces.Fits τ := fun τ hτ => by
    rw [s.layout.spaces_ensureSection]
    exact (h.of_leads hs (s.leads_align a hframe)).earlier.spaces.fits hτ
  rcases @Layout.align_cases s.layout _ rfl a (Nat.not_le.mp hone) with
    ⟨hnil, heq⟩ | ⟨n, himplies, hn, heq⟩ | heq
  · -- The distance to the reference is known.
    rw [align_of_none heq]
    refine ⟨_, padded_reserve hs ha _ fun τ hτ hreg => ?_⟩
    refine ⟨_, hreg.ensureSection.reference hc a, ?_⟩
    rw [← Length.bytes_between hnil (hfits τ hτ)]
    have hpadding := ha.padding_modEq
      (Length.between s.layout.ensureSection.spaces s.layout.ensureSection.position
        (s.layout.ensureSection.alignmentReference a)).bytes.toInt
    rw [hbyte] at hpadding
    exact (hpadding.add_left _).trans (by simp)
  · -- The remainder follows from a guarantee.
    rw [align_of_none heq]
    obtain ⟨k, after, space, -, -, -, rfl⟩ := Layout.guaranteedPadding?_eq_some hn
    refine ⟨_, padded_reserve hs ha _ fun τ hτ hreg => ?_⟩
    refine ⟨_, hreg.ensureSection.origin hc himplies, ?_⟩
    rw [Layout.position_of_current hc]
    have hend := hreg.ensureSection.guaranteed hc ha hn
    rwa [hbyte] at hend
  · exact padded_pass hs ha hbyte hframe rfl hc heq h

end Assembly

end Assembler
