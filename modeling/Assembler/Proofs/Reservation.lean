import Assembler.Proofs.Deferral
import Assembler.Proofs.Stage
/-!
Storage whose amounts depend on a parameter.

For every number of the parameter an operand has a length and a duplication factor. Which bytes these make depends on
whether the parameter has its number when the operand is carried out or gets it later
(`Assembly.bytes_processOperand`): the amounts that are known are brought into their ranges before they are
multiplied, and otherwise the product is. There is no difference if the exact number of bytes fits into 32 bits and a
length modifier out of its range has a label (`DataOperand.Fits.bytesLater`).
-/

namespace Assembler

open Assembly Moment

/-! ## 1. Amounts for a number -/

namespace Expr

variable {n : Name} {v length : Int32} {label? : Option Name} {e l r : Expr}

/-- The value of an expression without attributes does not depend on attributes. -/
theorem valueAt_of_isOver (h : e.isOver n none) : e.valueAt v length = e.valueAt v 0 := by
  induction e with
  | number | symbol | counter => rfl
  | attr kind operand => cases operand <;> simp [isOver] at h
  | negate e ih => rw [valueAt, valueAt, ih h]
  | binary op l r ihl ihr =>
    rw [isOver, Bool.and_eq_true] at h
    rw [valueAt, valueAt, ihl h.1, ihr h.2]

theorem isOver_of_isOver (h : e.isOver n none) : e.isOver n label? := by
  induction e with
  | number | symbol => exact h
  | counter => cases h
  | attr kind operand => cases operand <;> simp [isOver] at h
  | negate e ih => exact ih h
  | binary op l r ihl ihr =>
    rw [isOver, Bool.and_eq_true] at h ⊢
    exact ⟨ihl h.1, ihr h.2⟩

theorem isOver_times (hl : l.isOver n label?) (hr : r.isOver n label?) : (times l r).isOver n label? := by
  unfold times
  split
  · exact hr
  · exact hl
  · rw [isOver, hl, hr]
    rfl

theorem valueAt_times (l r : Expr) (v length : Int32) :
    (times l r).valueAt v length = l.valueAt v length * r.valueAt v length := by
  unfold times
  split
  · exact (Int32.one_mul _).symm
  · exact (Int32.mul_one _).symm
  · rw [valueAt, Operator.exact, Int32.ofInt_mul, Int32.ofInt_toInt, Int32.ofInt_toInt]

end Expr

theorem LengthModifier.isOver_bytes {m : LengthModifier} {n : Name} (h : m.expr.isOver n none) :
    m.bytes.isOver n none := by
  unfold bytes
  split
  · simp [Expr.isOver, h]
  · exact h

theorem LengthModifier.symbolTerms_bytes (m : LengthModifier) : m.bytes.symbolTerms = m.expr.symbolTerms := by
  unfold bytes
  split
  · simp [Expr.symbolTerms]
  · rfl

namespace DataOperand

/-- Whether the duplication factor and the length modifier of an operand are expressions over a parameter. -/
def isOver (op : DataOperand) (n : Name) : Bool :=
  op.duplication?.all (·.isOver n none) && op.length?.all (·.expr.isOver n none)

/-- The length in bytes that the modifier of an operand gives for a number. -/
def modifierAt? (op : DataOperand) (v : Int32) : Option Int32 := op.length?.map (·.bytes.valueAt v 0)

/-- Whether a length modifier is in its range. -/
def Admits (bounds : Int32 × Int32) (n : Int32) : Prop := bounds.1 ≤ n ∧ n ≤ bounds.2

instance (bounds : Int32 × Int32) (n : Int32) : Decidable (Admits bounds n) :=
  inferInstanceAs (Decidable (_ ∧ _))

/-- Whether the length modifier of an operand is outside of its range for a number. -/
def exceeds (op : DataOperand) (bounds : Int32 × Int32) (v : Int32) : Bool :=
  (op.modifierAt? v).any fun n => ¬ Admits bounds n

/-- The length of each value for a number. A length modifier outside of its range does not count. -/
def lengthAt (op : DataOperand) (bounds : Int32 × Int32) (v : Int32) : Int32 :=
  ((op.modifierAt? v).filter fun n => Admits bounds n).getD (Int32.ofNat op.implicitLength)

/-- The length attribute of the label for a number. -/
def attributeAt (op : DataOperand) (bounds : Int32 × Int32) (v : Int32) : Nat :=
  ((op.modifierAt? v).filter fun n => Admits bounds n).elim op.implicitLength (·.toUInt32.toNat)

def factorAt (op : DataOperand) (v : Int32) : Int32 := op.duplication?.elim 1 (·.valueAt v 0)

/-- The exact number of bytes for a number. -/
def totalAt (op : DataOperand) (bounds : Int32 × Int32) (v : Int32) : Int :=
  op.total (op.factorAt v) (op.lengthAt bounds v)

variable {op : DataOperand} {bounds : Int32 × Int32} {v : Int32} {m : LengthModifier}

theorem modifierAt?_of_length? (h : op.length? = some m) : op.modifierAt? v = some (m.bytes.valueAt v 0) := by
  rw [modifierAt?, h]
  rfl

theorem lengthAt_of_admits {n : Int32} (h : op.modifierAt? v = some n) (hn : Admits bounds n) :
    op.lengthAt bounds v = n ∧ op.attributeAt bounds v = n.toUInt32.toNat := by
  rw [lengthAt, attributeAt, h, Option.filter_some, if_pos (decide_eq_true hn)]
  exact ⟨rfl, rfl⟩

theorem lengthAt_of_not_admits (h : ∀ n, op.modifierAt? v = some n → ¬ Admits bounds n) :
    op.lengthAt bounds v = Int32.ofNat op.implicitLength ∧ op.attributeAt bounds v = op.implicitLength := by
  have hnone : (op.modifierAt? v).filter (fun n => Admits bounds n) = none := by
    rw [Option.filter_eq_none_iff]
    exact fun n hn hadmits => h n hn (of_decide_eq_true hadmits)
  rw [lengthAt, attributeAt, hnone]
  exact ⟨rfl, rfl⟩

/-- The length is the attribute as a number of 32 bits. -/
theorem ofNat_attributeAt (op : DataOperand) (bounds : Int32 × Int32) (v : Int32) :
    Int32.ofNat (op.attributeAt bounds v) = op.lengthAt bounds v := by
  rw [lengthAt, attributeAt]
  cases (op.modifierAt? v).filter fun n => Admits bounds n with
  | none => rfl
  | some n =>
    refine Int32.toBitVec_inj.mp ?_
    simp

/-- A length that fits into 32 bits is the attribute. -/
theorem toNat_lengthAt (hfit : op.implicitLength < 2 ^ 31) :
    (op.lengthAt bounds v).toUInt32.toNat = op.attributeAt bounds v := by
  rw [lengthAt, attributeAt]
  cases (op.modifierAt? v).filter fun n => Admits bounds n with
  | none =>
    have hmod : (Int32.ofNat op.implicitLength).toUInt32.toNat = op.implicitLength % 2 ^ 32 := by simp
    exact hmod.trans (Nat.mod_eq_of_lt (by omega))
  | some n => rfl

/-- Lengths are not negative. -/
theorem toInt_lengthAt_nonneg (storageOnly : Bool) (hfit : op.implicitLength < 2 ^ 31) :
    0 ≤ (op.lengthAt (op.type.lengthBounds storageOnly) v).toInt := by
  rw [lengthAt]
  cases hfilter : (op.modifierAt? v).filter fun n => Admits (op.type.lengthBounds storageOnly) n with
  | none =>
    have hvalue : (Int32.ofNat op.implicitLength).toInt = op.implicitLength :=
      Int32.toInt_ofNat_of_lt (by omega)
    exact hvalue ▸ Int.natCast_nonneg _
  | some n =>
    obtain ⟨-, hadmits⟩ := Option.filter_eq_some_iff.mp hfilter
    have hle := Int32.le_iff_toInt_le.mp
      (Int32.le_trans (one_le_lengthBounds op.type storageOnly) (of_decide_eq_true hadmits).1)
    have hone : (1 : Int32).toInt = 1 := rfl
    exact le_trans (by omega) hle

/-- The length that a length modifier gives, in its range or not. -/
def modifierAt (op : DataOperand) (v : Int32) : Int32 := (op.modifierAt? v).getD (Int32.ofNat op.implicitLength)

/-- A length modifier that does not leave its range is the length. -/
theorem modifierAt_eq_lengthAt (h : op.exceeds bounds v = false) : op.modifierAt v = op.lengthAt bounds v := by
  rw [exceeds] at h
  rw [modifierAt, lengthAt]
  cases hmodifier : op.modifierAt? v with
  | none => rfl
  | some n =>
    rw [hmodifier, Option.any_some, decide_eq_false_iff_not, not_not] at h
    rw [Option.filter_some, if_pos (decide_eq_true h)]

/-! ### Amounts that have to wait -/

def factorMentions (op : DataOperand) (n : Name) : Bool := op.duplication?.any (n ∈ ·.symbolTerms)

def lengthMentions (op : DataOperand) (n : Name) : Bool := op.length?.any (n ∈ ·.expr.symbolTerms)

/-- Whether the duplication factor or the length modifier mentions a name. -/
def mentions (op : DataOperand) (n : Name) : Bool := op.factorMentions n || op.lengthMentions n

/-- The length of each value as an amount. What mentions the parameter has to wait if its number comes late. -/
def lengthAmountAt (op : DataOperand) (bounds : Int32 × Int32) (n : Name) (v : Int32) (late : Bool) : Amount :=
  match op.length? with
  | some m => if late && n ∈ m.expr.symbolTerms then .deferred m.bytes else .known (op.lengthAt bounds v)
  | none => .known (op.lengthAt bounds v)

/-- The duplication factor as an amount. -/
def factorAmountAt (op : DataOperand) (n : Name) (v : Int32) (late : Bool) : Amount :=
  match op.duplication? with
  | some e => if late && n ∈ e.symbolTerms then .deferred e else .known (atLeastZero (op.factorAt v))
  | none => .known (atLeastZero (op.factorAt v))

variable {n : Name} {late labelled : Bool}

theorem lengthAmountAt_known (h : (late && op.lengthMentions n) = false) :
    op.lengthAmountAt bounds n v late = .known (op.lengthAt bounds v) := by
  unfold lengthAmountAt
  rw [lengthMentions] at h
  cases hlength : op.length? with
  | none => rfl
  | some m =>
    rw [hlength, Option.any_some] at h
    exact if_neg (Bool.eq_false_iff.mp h)

theorem lengthAmountAt_deferred (h : (late && op.lengthMentions n) = true) :
    ∃ m, op.length? = some m ∧ op.lengthAmountAt bounds n v late = .deferred m.bytes := by
  unfold lengthAmountAt
  rw [lengthMentions] at h
  cases hlength : op.length? with
  | none => rw [hlength, Option.any_none, Bool.and_false] at h; cases h
  | some m =>
    rw [hlength, Option.any_some] at h
    exact ⟨m, rfl, if_pos h⟩

theorem lengthAmountAt_cases (op : DataOperand) (bounds : Int32 × Int32) (n : Name) (v : Int32) (late : Bool) :
    op.lengthAmountAt bounds n v late = .known (op.lengthAt bounds v) ∨
      ∃ m, op.length? = some m ∧ op.lengthAmountAt bounds n v late = .deferred m.bytes := by
  cases h : late && op.lengthMentions n with
  | false => exact .inl (lengthAmountAt_known h)
  | true => exact .inr (lengthAmountAt_deferred h)

theorem factorAmountAt_known (h : (late && op.factorMentions n) = false) :
    op.factorAmountAt n v late = .known (atLeastZero (op.factorAt v)) := by
  unfold factorAmountAt
  rw [factorMentions] at h
  cases hdup : op.duplication? with
  | none => rfl
  | some e =>
    rw [hdup, Option.any_some] at h
    exact if_neg (Bool.eq_false_iff.mp h)

theorem factorAmountAt_deferred (h : (late && op.factorMentions n) = true) :
    ∃ e, op.duplication? = some e ∧ op.factorAmountAt n v late = .deferred e := by
  unfold factorAmountAt
  rw [factorMentions] at h
  cases hdup : op.duplication? with
  | none => rw [hdup, Option.any_none, Bool.and_false] at h; cases h
  | some e =>
    rw [hdup, Option.any_some] at h
    exact ⟨e, rfl, if_pos h⟩

/-- Whether the amounts that are not known are the duplication factor and the length modifier of an operand. -/
structure Defers (op : DataOperand) (duplication length : Amount) : Prop where
  duplication : ∀ e, duplication = .deferred e → op.duplication? = some e
  length : ∀ e, length = .deferred e → ∃ m, op.length? = some m ∧ e = m.bytes

theorem defers_amountsAt (op : DataOperand) (bounds : Int32 × Int32) (n : Name) (v : Int32) (late : Bool) :
    op.Defers (op.factorAmountAt n v late) (op.lengthAmountAt bounds n v late) where
  duplication e he := by
    unfold factorAmountAt at he
    split at he
    · split at he <;> cases he
      assumption
    · cases he
  length e he := by
    unfold lengthAmountAt at he
    split at he
    · split at he <;> cases he
      exact ⟨_, ‹_›, rfl⟩
    · cases he

/-! ### Bytes for a number -/

/-- The bytes that are reserved for a number that is known. -/
def bytesAtOnce (op : DataOperand) (bounds : Int32 × Int32) (v : Int32) : Int32 :=
  atLeastZero (op.factorAt v) * op.unit (op.lengthAt bounds v)

/-- The bytes that are reserved when the number has come later. Of what mentions the parameter, neither the factor nor
a length modifier that no label takes for its length attribute is brought into its range. -/
def bytesLater (op : DataOperand) (bounds : Int32 × Int32) (n : Name) (v : Int32) (labelled : Bool) : Int32 :=
  let factor := if op.factorMentions n then op.factorAt v else atLeastZero (op.factorAt v)
  let length := if op.lengthMentions n && !labelled then op.modifierAt v else op.lengthAt bounds v
  atLeastZero (factor * op.unit length)

/-- What is reserved for a factor and bytes that are not negative, if their product fits into 32 bits. It makes no
difference whether the factor or the product is kept from being negative. -/
theorem atLeastZero_mul {f u : Int32} {bytes : Int} (hbytes : 0 ≤ bytes)
    (hmul : Int32.ofInt (f.toInt * bytes) = f * u) (hlow : -2 ^ 31 ≤ f.toInt * bytes)
    (hhigh : f.toInt * bytes < 2 ^ 31) :
    atLeastZero f * u = Int32.ofInt (max 0 (f.toInt * bytes)) ∧
      atLeastZero (f * u) = Int32.ofInt (max 0 (f.toInt * bytes)) ∧
      atLeastZero (atLeastZero f * u) = Int32.ofInt (max 0 (f.toInt * bytes)) := by
  have hvalue : (f * u).toInt = f.toInt * bytes := by
    rw [← hmul]
    exact Int32.toInt_ofInt_of_le (by omega) hhigh
  have hzero : (0 : Int32).toInt = 0 := rfl
  -- A negative factor makes all three zero, and any other is left alone by them.
  by_cases hneg : f < 0
  · have hf := Int32.lt_iff_toInt_lt.mp hneg
    have hle : f.toInt * bytes ≤ 0 := Int.mul_nonpos_of_nonpos_of_nonneg (by omega) hbytes
    have hnone : atLeastZero f * u = 0 := by
      rw [atLeastZero, if_pos hneg]
      exact Int32.zero_mul
    have hmax : max 0 (f.toInt * bytes) = 0 := by omega
    rw [hmax]
    refine ⟨hnone, ?_, by rw [hnone]; rfl⟩
    unfold atLeastZero
    split
    · rfl
    · rename_i hnot
      rw [Int32.lt_iff_toInt_lt] at hnot
      exact Int32.toInt_inj.mp (by show (f * u).toInt = 0; omega)
  · have hf : 0 ≤ f.toInt := by
      rw [Int32.lt_iff_toInt_lt] at hneg
      omega
    have hle : 0 ≤ f.toInt * bytes := Int.mul_nonneg hf hbytes
    have hsame : atLeastZero f = f := if_neg hneg
    have hmax : max 0 (f.toInt * bytes) = f.toInt * bytes := by omega
    have hproduct : atLeastZero (f * u) = f * u := by
      refine if_neg fun hlt => ?_
      have hlt := Int32.lt_iff_toInt_lt.mp hlt
      omega
    rw [hsame, hmax, hmul, hproduct]
    exact ⟨rfl, rfl, rfl⟩

/-- The bytes that are reserved for a number, if all are reserved that there are to be. -/
def storageAt (op : DataOperand) (bounds : Int32 × Int32) (v : Int32) : Int32 :=
  Int32.ofInt (max 0 (op.totalAt bounds v))

/-- Whether the number of bytes fits into 32 bits. -/
structure Fits (op : DataOperand) (bounds : Int32 × Int32) (v : Int32) : Prop where
  low : -2 ^ 31 ≤ op.totalAt bounds v
  high : op.totalAt bounds v < 2 ^ 31

section

variable {storageOnly : Bool} (h : op.Fits (op.type.lengthBounds storageOnly) v) (hfit : op.implicitLength < 2 ^ 31)
include h hfit

theorem Fits.storage :
    let unit := op.unit (op.lengthAt (op.type.lengthBounds storageOnly) v)
    let storage := op.storageAt (op.type.lengthBounds storageOnly) v
    atLeastZero (op.factorAt v) * unit = storage ∧ atLeastZero (op.factorAt v * unit) = storage ∧
      atLeastZero (atLeastZero (op.factorAt v) * unit) = storage := by
  refine atLeastZero_mul ?_ (op.ofInt_total _ _) h.low h.high
  split
  · exact Int.mul_nonneg (Int.natCast_nonneg _) (toInt_lengthAt_nonneg storageOnly hfit)
  · exact Int.natCast_nonneg _

theorem Fits.bytesAtOnce : op.bytesAtOnce (op.type.lengthBounds storageOnly) v =
    op.storageAt (op.type.lengthBounds storageOnly) v := (h.storage hfit).1

/-- Then the same bytes are reserved in the end, but for a length modifier that is out of its range and not the length
attribute of a label. -/
theorem Fits.bytesLater (hlabelled : op.exceeds (op.type.lengthBounds storageOnly) v → labelled) (n : Name) :
    op.bytesLater (op.type.lengthBounds storageOnly) n v labelled =
      op.storageAt (op.type.lengthBounds storageOnly) v := by
  obtain ⟨-, hraw, hcut⟩ := h.storage hfit
  have hlength : (if op.lengthMentions n && !labelled then op.modifierAt v
      else op.lengthAt (op.type.lengthBounds storageOnly) v) =
        op.lengthAt (op.type.lengthBounds storageOnly) v := by
    cases labelled with
    | true => rw [Bool.not_true, Bool.and_false, if_neg Bool.false_ne_true]
    | false =>
      have hwithin := Bool.eq_false_iff.mpr fun hexceeds => Bool.false_ne_true (hlabelled hexceeds)
      rw [modifierAt_eq_lengthAt hwithin, ite_self]
  dsimp only [DataOperand.bytesLater]
  rw [hlength]
  split
  · exact hraw
  · exact hcut

end

end DataOperand

/-! ## 2. Amounts in a state -/

namespace Assembly

variable {s : Assembly} {n : Name} {v : Int32} {late : Bool} {e : Expr} {op : DataOperand}

/-- Whether a parameter has its number, or its number comes late. -/
def Tells (s : Assembly) (n : Name) (v : Int32) (late : Bool) : Prop :=
  if late then s.symbols.get? n = none else s.Has n v

/-- An expression has its value if it mentions the parameter only when that has its number. -/
theorem evaluateOpen_of_known (he : e.isOver n none) (h : n ∈ e.symbolTerms → s.Has n v) (f : Frame) :
    e.evaluateOpen s.scope f = .resolved (.absolute (e.valueAt v 0)) := by
  induction e with
  | number k => rfl
  | counter => cases he
  | attr kind operand => cases operand <;> simp [Expr.isOver] at he
  | symbol m =>
    have hm : m = n := of_decide_eq_true he
    subst hm
    have hvalue : s.scope.value? m = some (.absolute v) := h (List.mem_singleton_self m)
    rw [Expr.evaluateOpen, hvalue]
    rfl
  | negate e ih =>
    rw [Expr.evaluateOpen, ih he h]
    rfl
  | binary op l r ihl ihr =>
    rw [Expr.isOver, Bool.and_eq_true] at he
    rw [Expr.evaluateOpen, ihl he.1 fun hmem => h (List.mem_append_left _ hmem),
      ihr he.2 fun hmem => h (List.mem_append_right _ hmem)]
    exact op.apply_absolute _ _ _

/-- It has to wait if it mentions a parameter that is still to come. -/
theorem evaluateOpen_of_late (hnone : s.symbols.get? n = none) (he : e.isOver n none) (hmem : n ∈ e.symbolTerms)
    (f : Frame) : ∃ waiting, e.evaluateOpen s.scope f = .blocked waiting := by
  have hvalue : s.scope.value? n = none := by
    show (s.symbols.get? n).bind (·.value?) = none
    rw [hnone]
    rfl
  induction e with
  | number | attr | counter => cases hmem
  | symbol m =>
    have hm : m = n := of_decide_eq_true he
    subst hm
    exact ⟨_, by rw [Expr.evaluateOpen, hvalue]⟩
  | negate e ih =>
    obtain ⟨waiting, heval⟩ := ih he hmem
    exact ⟨waiting, by rw [Expr.evaluateOpen, heval]; rfl⟩
  | binary op l r ihl ihr =>
    rw [Expr.isOver, Bool.and_eq_true] at he
    rw [Expr.evaluateOpen]
    -- An operand that does not mention the parameter has its value.
    have hoperand : ∀ e : Expr, e.isOver n none →
        (n ∈ e.symbolTerms → ∃ waiting, e.evaluateOpen s.scope f = .blocked waiting) →
        (∃ waiting, e.evaluateOpen s.scope f = .blocked waiting) ∨
          n ∉ e.symbolTerms ∧ ∃ x, e.evaluateOpen s.scope f = .resolved x := fun e he ih => by
      by_cases hin : n ∈ e.symbolTerms
      · exact .inl (ih hin)
      · exact .inr ⟨hin, _, @evaluateOpen_of_known s n 0 e he (fun h => absurd h hin) f⟩
    rcases hoperand l he.1 (ihl he.1) with ⟨ps, hl⟩ | ⟨hnl, x, hl⟩ <;>
      rcases hoperand r he.2 (ihr he.2) with ⟨qs, hr⟩ | ⟨hnr, y, hr⟩
    · exact ⟨Evaluation.union ps qs, by rw [hl, hr]; rfl⟩
    · exact ⟨ps, by rw [hl, hr]; rfl⟩
    · exact ⟨qs, by rw [hl, hr]; rfl⟩
    · exact ((List.mem_append.mp hmem).elim hnl hnr).elim

/-- So an expression has to wait just if the parameter comes late and is mentioned. -/
theorem evaluateNumber_tells (htells : s.Tells n v late) (he : e.isOver n none) (f : Frame) :
    if late && n ∈ e.symbolTerms then ∃ waiting, s.evaluateNumber e f = .blocked waiting
      else s.evaluateNumber e f = .resolved (e.valueAt v 0) := by
  split
  · rename_i hwait
    obtain ⟨rfl, hmem⟩ := Bool.and_eq_true_iff.mp hwait
    obtain ⟨waiting, heval⟩ := @evaluateOpen_of_late s n e htells he (of_decide_eq_true hmem) f
    refine ⟨waiting, ?_⟩
    show ((Expr.evaluate e s.scope f).andThen 0 Value.toNumber) = _
    rw [Expr.evaluate, heval]
    rfl
  · rename_i hwait
    have heval := @evaluateOpen_of_known s n v e he (fun hmem => by
      cases late with
      | false => exact htells
      | true => exact absurd (decide_eq_true hmem) (by simpa using hwait)) f
    show ((Expr.evaluate e s.scope f).andThen 0 Value.toNumber) = _
    rw [Expr.evaluate, heval]
    rfl

/-- The length of each value is what the parameter makes it, with a report if that is out of range, or has to
wait. -/
theorem lengthAmount_over (hn : s.Named) (hopen : s.finished = false) (hset : s.Sets n v)
    (hop : op.length?.all (·.expr.isOver n none)) (bounds : Int32 × Int32) (f : Frame) :
    s.lengthAmount op bounds f = (.known (op.lengthAt bounds v),
        if op.exceeds bounds v then some (op.lengthFault bounds) else none) ∨
      ∃ m, op.length? = some m ∧ s.lengthAmount op bounds f = (.deferred m.bytes, none) := by
  unfold lengthAmount DataOperand.exceeds
  cases hlength : op.length? with
  | none =>
    have hnone : op.modifierAt? v = none := by rw [DataOperand.modifierAt?, hlength]; rfl
    have hat := (@DataOperand.lengthAt_of_not_admits op bounds v fun k hk => by
      rw [hnone] at hk
      cases hk).1
    exact .inl (by rw [hnone, hat]; rfl)
  | some m =>
    have hsome := @DataOperand.modifierAt?_of_length? op v m hlength
    rw [hlength] at hop
    have he := LengthModifier.isOver_bytes hop
    rcases evaluateNumber_parameter hn hopen hset he f with heval | ⟨waiting, heval, -⟩
    · refine .inl ?_
      dsimp only
      rw [heval, hsome]
      -- The modifier is taken, or it is out of its bounds and the implicit length stands for it.
      by_cases hadmits : DataOperand.Admits bounds (m.bytes.valueAt v 0)
      · rw [(DataOperand.lengthAt_of_admits hsome hadmits).1]
        show (if DataOperand.Admits bounds (m.bytes.valueAt v 0) then _ else _) = _
        rw [if_pos hadmits, Option.any_some, if_neg (by simp [hadmits])]
      · have hat := (@DataOperand.lengthAt_of_not_admits op bounds v fun k hk => by
          rw [hsome] at hk
          cases hk
          exact hadmits).1
        rw [hat]
        show (if DataOperand.Admits bounds (m.bytes.valueAt v 0) then _ else _) = _
        rw [if_neg hadmits, Option.any_some, if_pos (by simp [hadmits])]
    · exact .inr ⟨m, rfl, by dsimp only; rw [heval]⟩

/-- It has to wait just if the parameter comes late and is mentioned. -/
theorem fst_lengthAmount (hn : s.Named) (hopen : s.finished = false) (hset : s.Sets n v) (htells : s.Tells n v late)
    (hop : op.length?.all (·.expr.isOver n none)) (bounds : Int32 × Int32) (f : Frame) :
    (s.lengthAmount op bounds f).1 = op.lengthAmountAt bounds n v late := by
  have hcases := lengthAmount_over hn hopen hset hop bounds f
  unfold DataOperand.lengthAmountAt
  cases hlength : op.length? with
  | none =>
    rcases hcases with heq | ⟨m, hm, -⟩
    · rw [heq]
    · rw [hlength] at hm
      cases hm
  | some m =>
    rw [hlength] at hop
    have heval := evaluateNumber_tells htells (LengthModifier.isOver_bytes hop) f
    rw [LengthModifier.symbolTerms_bytes] at heval
    dsimp only
    split at heval
    · rename_i hwait
      obtain ⟨waiting, heval⟩ := heval
      rw [if_pos hwait, lengthAmount, hlength]
      dsimp only
      rw [heval]
    · rename_i hwait
      rw [if_neg hwait]
      rcases hcases with heq | ⟨m', hm, heq⟩
      · rw [heq]
      · rw [lengthAmount, hlength] at heq
        dsimp only at heq
        rw [heval] at heq
        dsimp only at heq
        split at heq <;> cases heq

/-- So it is with the duplication factor, which has no faults. -/
theorem duplicationAmount_eq (htells : s.Tells n v late) (hop : op.duplication?.all (·.isOver n none)) (f : Frame) :
    s.duplicationAmount op f = (op.factorAmountAt n v late, none) := by
  unfold duplicationAmount DataOperand.factorAmountAt DataOperand.factorAt
  cases hdup : op.duplication? with
  | none => rfl
  | some e =>
    rw [hdup] at hop
    have heval := evaluateNumber_tells htells hop f
    dsimp only
    split at heval
    · rename_i hwait
      obtain ⟨waiting, heval⟩ := heval
      rw [if_pos hwait, heval]
    · rename_i hwait
      rw [if_neg hwait, heval]
      rfl

theorem deferred_duplicationAmount (s : Assembly) (op : DataOperand) (f : Frame) {e : Expr}
    (h : (s.duplicationAmount op f).1 = .deferred e) : op.duplication? = some e := by
  unfold duplicationAmount at h
  split at h
  · cases h
  · split at h <;> cases h
    assumption

end Assembly

/-! ## 3. Operands -/

namespace Assembly

variable {s t c f : Assembly} {st : Statement} {n : Name} {v : Int32} {op : DataOperand} {label? : Option Name}

/-- What a statement with another label does leaves the parameter its number. -/
theorem approach_acts (hopen : s.finished = false) (hrest : s.AtRest n v) (hacts : Acts st s t)
    (hlabel : st.label? ≠ some n) :
    Run (Approach n v) ⟨s, [], .reading⟩ ⟨t, [], .reading⟩ ∧ t.AtRest n v := by
  refine hrest.approach hacts.leads.steps (hacts.leads.finished.trans hopen) ?_
  by_cases hin : s.symbols.get? n = none
  · exact .inr (hacts.get?_eq_none hlabel hin)
  · exact .inl hin

/-- Such a statement leaves open what has been open, and known what has been known. -/
theorem Tells.acts {late : Bool} (h : s.Tells n v late) (hopen : s.finished = false) (hrest : s.AtRest n v)
    (hacts : Acts st s t) (hlabel : st.label? ≠ some n) : t.Tells n v late := by
  cases late with
  | true => exact hacts.get?_eq_none hlabel h
  | false =>
    have hin : s.symbols.get? n ≠ none := fun hnone => by
      have hvalue : (s.symbols.get? n).bind (·.value?) = some (.absolute v) := h
      rw [hnone] at hvalue
      cases hvalue
    exact has_of_sets (approach_acts hopen hrest hacts hlabel).2 (get?_ne_none_of_run hacts.leads.steps hin)

/-- The amounts of an operand are what the parameter makes them, or have to wait if it comes late. -/
theorem amounts_prepareOperand (hs : s.Ready) (hopen : s.finished = false) (hrest : s.AtRest n v) {late : Bool}
    (htells : s.Tells n v late) (hlabel : st.label? ≠ some n) (hop : op.isOver n) (storageOnly : Bool) :
    let p := s.prepareOperand st storageOnly op
    p.length = op.lengthAmountAt (op.type.lengthBounds storageOnly) n v late ∧
      p.duplication = op.factorAmountAt n v late := by
  have halign := s.acts_alignOperand st op
  have hready := halign.ready hs
  unfold prepareOperand
  obtain ⟨hframe, -⟩ := stills_frameFor hready st
    [op.duplication?, op.length?.map (·.expr), op.scale?, op.exponent?]
  have hacts := (halign.trans hframe.acts).labelled
  have htells := htells.acts hopen hrest hacts hlabel
  have hrest := (approach_acts hopen hrest hacts hlabel).2
  have hopen := hacts.leads.finished.trans hopen
  generalize (s.alignOperand st op).frameFor st
    [op.duplication?, op.length?.map (·.expr), op.scale?, op.exponent?] = r at htells hrest hopen
  obtain ⟨frame, t⟩ := r
  dsimp only at htells hrest hopen ⊢
  obtain ⟨hoverDuplication, hoverLength⟩ := Bool.and_eq_true_iff.mp hop
  refine ⟨fst_lengthAmount hrest.valid.wellFormed.named hopen hrest.value htells hoverLength _ frame, ?_⟩
  generalize t.lengthAmount op (op.type.lengthBounds storageOnly) frame = r
  -- A report does not change what the duplication factor is.
  have halike := t.alike_reportAny r.2 frame.location
  have htold : (t.reportAny r.2 frame.location).Tells n v late := by
    unfold Tells Has scope at htells ⊢
    rw [halike.symbols]
    exact htells
  rw [duplicationAmount_eq htold hoverDuplication]

end Assembly

/-! ## 4. The length attribute -/

/-- A length modifier in its range is the attribute, or else the implicit length. -/
theorem DataOperand.result_eq_attributeAt {op : DataOperand} {m : LengthModifier} (h : op.length? = some m)
    (bounds : Int32 × Int32) (v : Int32) (fault : Fault) :
    LengthRule.result ⟨bounds.1, bounds.2, op.implicitLength, fault⟩ (m.bytes.valueAt v 0) =
      op.attributeAt bounds v := by
  have hsome := @DataOperand.modifierAt?_of_length? op v m h
  by_cases hadmits : Admits bounds (m.bytes.valueAt v 0)
  · rw [(lengthAt_of_admits hsome hadmits).2]
    exact if_pos hadmits
  · have hnot : ∀ k, op.modifierAt? v = some k → ¬ Admits bounds k := fun k hk => by
      rw [hsome] at hk
      cases hk
      exact hadmits
    rw [(lengthAt_of_not_admits hnot).2]
    exact if_neg hadmits

namespace Assembly

variable {s t u : Assembly} {st : Statement} {n l : Name} {v : Int32} {op : DataOperand} {k : Nat}

/-- Nothing that is pending is for an attribute of a name that is free. -/
theorem Ready.product?_ne_attr (hs : s.Ready) (hnone : s.symbols.get? l = none) {kind : AttributeKind} {id : Nat}
    {p : Pending Job} (hp : s.pendings.get? id = some p) : p.work.task.product? ≠ some (.attr l kind) := by
  intro hkey
  have hexp := (hs.valid.entries id p hp).expected _ hkey
  cases kind with
  | length | scale | integer =>
    obtain ⟨sym, hsym, -⟩ := hexp
    rw [hnone] at hsym
    cases hsym
  | _ => exact hexp

/-- A new label has its length attribute, or a job for it is at hand. -/
theorem Launches.measures {jobs : List Job} (h : s.Launches jobs u t) (hs : s.Ready)
    (hnone : s.symbols.get? l = none) {sym : Symbol} (hsym : u.symbols.get? l = some sym)
    (hlength : sym.attributes.length = .known k ∨ sym.attributes.length = .pending ∧
      ∃ job ∈ jobs, job.task.product? = some (.attr l .length))
    (hjobs : ∀ job ∈ jobs, job.task.product? = some (.attr l .length) → job.Measures n v l k) :
    Moment.Measures ⟨u, jobs.map (none, ·), .reading⟩ n v l k := by
  have hpending : ∀ id p, u.pendings.get? id = some p → p.work.task.product? ≠ some (.attr l .length) :=
    fun id p hp => hs.product?_ne_attr hnone (h.pendings ▸ hp)
  refine ⟨fun l' hl' => ?_, fun hlapses => ?_, fun job hc hkey => ?_, fun id p hp hkey => ?_⟩
  · cases hl'
    exact ⟨sym, hsym, hlength.symm.imp_left And.left⟩
  · obtain ⟨⟨other, hin, hopen⟩, hno⟩ := hlapses
    rw [show u.symbols.get? l = some other from hin] at hsym
    cases hsym
    rcases hlength with hknown | ⟨-, job, hjob, hkey⟩
    · rw [hopen] at hknown
      cases hknown
    · exact hno (.inr ⟨_, List.mem_map_of_mem hjob, hkey⟩)
  · rcases hc with ⟨x, hx, rfl⟩ | ⟨id, p, hp, rfl⟩
    · obtain ⟨job, hjob, rfl⟩ := List.mem_map.mp hx
      exact hjobs job hjob hkey
    · exact absurd hkey (hpending id p hp)
  · exact absurd hkey (hpending id p hp)

/-- The only job of a label for its length attribute is that of the length modifier. -/
theorem measures_attributeJobs (hop : op.isOver n) {length : Amount} (bounds : Int32 × Int32)
    (attributes : SymbolAttributes) (f : Frame)
    (hlength : ∀ e, length = .deferred e → ∃ m, op.length? = some m ∧ e = m.bytes) :
    ∀ job ∈ attributeJobs l op length attributes bounds f, job.task.product? = some (.attr l .length) →
      job.Measures n v l (op.attributeAt bounds v) := by
  intro job hjob hkey
  rw [DataOperand.isOver, Bool.and_eq_true] at hop
  rcases cases_of_mem_attributeJobs hjob with ⟨e, he, rfl⟩ | ⟨e, -, rfl⟩ | rfl
  · obtain ⟨m, hm, rfl⟩ := hlength e he
    rw [hm] at hop
    exact ⟨_, _, rfl, LengthModifier.isOver_bytes hop.2, DataOperand.result_eq_attributeAt hm bounds v _⟩
  · cases hkey
  · cases hkey

theorem symbols_scaleOperand (s : Assembly) (op : DataOperand) (f : Frame) :
    (s.scaleOperand op f).2.symbols = s.symbols := (alike_reportAny _ _ _).symbols

/-- A label that is free is entered, with jobs for its attributes. -/
theorem launches_defineLabel (hs : s.Ready) (hlabel : st.label? = some l) (hnone : s.symbols.get? l = none)
    (op : DataOperand) (length : Amount) (bounds : Int32 × Int32) {f : Frame} (hf : f.Scoped s.layout.spaces)
    (hlocation : f.location = st.location) :
    ∃ u t, s.defineLabel l op length bounds f = (true, t) ∧
      (s.scaleOperand op f).2.Launches
        (attributeJobs l op length (dataAttributes op length (s.scaleOperand op f).1) bounds f) u t ∧
      ∀ x, u.symbols.get? x = if x = l then some (s.operandSymbol op length f l) else s.symbols.get? x := by
  have hfree : (s.scaleOperand op f).2.symbols.get? (s.operandSymbol op length f l).name = none := by
    rw [symbols_scaleOperand]
    exact hnone
  obtain ⟨t, ht⟩ := exists_createSymbol? hfree
  obtain ⟨symbols, hcreate, hlaunch⟩ :=
    launches_supplies (supplies_operandSymbol hs hlabel op length bounds hf hlocation) ht
  refine ⟨_, _, ?_, hlaunch, fun x => ?_⟩
  · rw [defineLabel_eq, ht]
    dsimp only
    rw [deferAttributes_eq]
  · rw [(alike_foldl_wake _ _).symbols, ← s.symbols_scaleOperand op f]
    exact (SymbolTable.create?_eq_some hcreate).2 x

/-- The length attribute of such a label is what the parameter makes it, or there is a job for that. -/
theorem measures_defineLabel (hs : s.Ready) (hopen : s.finished = false) (hrest : s.AtRest n v)
    (hlabel : st.label? = some l) (hne : l ≠ n) (hnone : s.symbols.get? l = none) (hop : op.isOver n)
    {length : Amount} {bounds : Int32 × Int32} {f : Frame} (hf : f.Scoped s.layout.spaces)
    (hlocation : f.location = st.location)
    (hlength : length = .known (op.lengthAt bounds v) ∨ ∃ m, op.length? = some m ∧ length = .deferred m.bytes)
    (hfit : op.implicitLength < 2 ^ 31) :
    (s.defineLabel l op length bounds f).1 = true ∧
      Moment.Measures ⟨(s.defineLabel l op length bounds f).2, [], .reading⟩ n v l (op.attributeAt bounds v) := by
  obtain ⟨u, t, heq, hlaunch, hget⟩ := launches_defineLabel hs hlabel hnone op length bounds hf hlocation
  have hscale := (s.stills_scaleOperand op hlocation).acts
  have hother : st.label? ≠ some n := fun heq => hne (Option.some.inj (hlabel.symm.trans heq))
  have hkept : (s.scaleOperand op f).2.symbols.get? n ≠ none ∨ u.symbols.get? n = none := by
    rw [hget, if_neg hne.symm, symbols_scaleOperand]
    exact (ne_or_eq _ _)
  obtain ⟨-, hrun, -⟩ := hlaunch.approach (hscale.leads.finished.trans hopen)
    (approach_acts hopen hrest hscale hother).2 hkept
  have hfree : (s.scaleOperand op f).2.symbols.get? l = none := by
    rw [symbols_scaleOperand]
    exact hnone
  -- Either the attribute is known when the label is entered, or a job for it is among those that are
  -- launched.
  have hattribute : (s.operandSymbol op length f l).attributes.length = .known (op.attributeAt bounds v) ∨
      (s.operandSymbol op length f l).attributes.length = .pending ∧
        ∃ job ∈ attributeJobs l op length (dataAttributes op length (s.scaleOperand op f).1) bounds f,
          job.task.product? = some (.attr l .length) := by
    rcases hlength with rfl | ⟨m, -, rfl⟩
    · exact .inl (congrArg Slot.known (DataOperand.toNat_lengthAt hfit))
    · exact .inr ⟨rfl, _, List.mem_append_left _ (List.mem_append_left _ (List.mem_singleton_self _)), rfl⟩
  have hmeasures := hlaunch.measures (hscale.ready hs) hfree ((hget l).trans (if_pos rfl)) hattribute
    (measures_attributeJobs hop bounds _ f fun e he => by
      rcases hlength with rfl | ⟨m, hm, rfl⟩
      · cases he
      · cases he
        exact ⟨m, hm, rfl⟩)
  rw [heq]
  exact ⟨rfl, hmeasures.run hrun⟩

end Assembly

/-! ## 5. Storage -/

/-- The bytes of one duplicate as an expression. -/
def DataOperand.unitExpr (op : DataOperand) (label? : Option Name) : Amount → Expr
  | .known n => .number (op.unit n)
  | .deferred e => Expr.times (.number op.count)
      (match label? with
      | some label => .attr .length (.symbol label)
      | none => e)

namespace Assembly

variable {s c : Assembly} {n : Name} {v : Int32} {late : Bool} {op : DataOperand} {label? : Option Name}

theorem storageExpr_eq (op : DataOperand) (label? : Option Name) (duplication length : Amount) :
    storageExpr op label? duplication length = Expr.times duplication.toExpr (op.unitExpr label? length) := rfl

/-- The storage of an operand depends on nothing but the parameter and the attribute of the label. -/
theorem isOver_storageExpr {duplication length : Amount} (hop : op.isOver n) (h : op.Defers duplication length)
    (label? : Option Name) : (storageExpr op label? duplication length).isOver n label? := by
  rw [DataOperand.isOver, Bool.and_eq_true] at hop
  have hunit : (op.unitExpr label? length).isOver n label? := by
    cases length with
    | known k => rfl
    | deferred e =>
      obtain ⟨m, hm, rfl⟩ := h.length e rfl
      rw [hm] at hop
      cases label? with
      | some l => exact Expr.isOver_times rfl (by simp [Expr.isOver])
      | none => exact Expr.isOver_times rfl (LengthModifier.isOver_bytes hop.2)
  cases duplication with
  | known d => exact Expr.isOver_times rfl hunit
  | deferred e =>
    rw [h.duplication e rfl] at hop
    exact Expr.isOver_times (Expr.isOver_of_isOver hop.1) hunit

/-- The attribute of the label stands for the length that has to wait, or the length modifier itself. -/
theorem valueAt_unitExpr (hop : op.isOver n) (bounds : Int32 × Int32) (v : Int32) (late : Bool) (label? : Option Name) :
    (op.unitExpr label? (op.lengthAmountAt bounds n v late)).valueAt v (Int32.ofNat (op.attributeAt bounds v)) =
      op.unit (if late && op.lengthMentions n && !label?.isSome then op.modifierAt v else op.lengthAt bounds v) := by
  cases hwait : late && op.lengthMentions n with
  | false =>
    rw [DataOperand.lengthAmountAt_known hwait, Bool.false_and, if_neg Bool.false_ne_true]
    rfl
  | true =>
    obtain ⟨m, hm, heq⟩ := @DataOperand.lengthAmountAt_deferred op bounds v n late hwait
    rw [DataOperand.isOver, Bool.and_eq_true, hm] at hop
    have hunit : ∀ k, op.unit k = op.count * k := fun k => by
      rw [DataOperand.unit, hm]
      rfl
    rw [heq, hunit, Bool.true_and]
    cases label? with
    | some l =>
      rw [DataOperand.unitExpr, Expr.valueAt_times]
      exact congrArg (op.count * ·) (op.ofNat_attributeAt bounds v)
    | none =>
      rw [DataOperand.unitExpr, Expr.valueAt_times]
      have hmodifier : op.modifierAt v = m.bytes.valueAt v 0 := by
        rw [DataOperand.modifierAt, DataOperand.modifierAt?_of_length? hm]
        rfl
      exact congrArg (op.count * ·)
        ((Expr.valueAt_of_isOver (LengthModifier.isOver_bytes hop.2)).trans hmodifier.symm)

/-- The storage of an operand as an expression has the value that is reserved later. -/
theorem valueAt_storageExpr (hop : op.isOver n) (bounds : Int32 × Int32) (v : Int32) (label? : Option Name) :
    atLeastZero ((storageExpr op label? (op.factorAmountAt n v true) (op.lengthAmountAt bounds n v true)).valueAt v
      (Int32.ofNat (op.attributeAt bounds v))) = op.bytesLater bounds n v label?.isSome := by
  have hunit := valueAt_unitExpr hop bounds v true label?
  rw [Bool.true_and] at hunit
  rw [DataOperand.isOver, Bool.and_eq_true] at hop
  dsimp only [DataOperand.bytesLater]
  rw [storageExpr_eq, Expr.valueAt_times, hunit]
  cases hwait : op.factorMentions n with
  | false =>
    rw [@DataOperand.factorAmountAt_known op v n true hwait]
    rfl
  | true =>
    obtain ⟨e, he, heq⟩ := @DataOperand.factorAmountAt_deferred op v n true hwait
    rw [he] at hop
    have hvalue : e.valueAt v (Int32.ofNat (op.attributeAt bounds v)) = op.factorAt v := by
      rw [Expr.valueAt_of_isOver hop.1, DataOperand.factorAt, he]
      rfl
    rw [heq, Amount.toExpr, hvalue]
    rfl

/-- The storage of an operand that need not wait is reserved at once. -/
theorem reserveStorage_atOnce (h : (late && op.mentions n) = false) (s : Assembly) (bounds : Int32 × Int32)
    (v : Int32) (label? : Option Name) (f : Frame) :
    s.reserveStorage op label? (op.factorAmountAt n v late) (op.lengthAmountAt bounds n v late) f =
      s.mapLayout (·.reserve (op.bytesAtOnce bounds v)) := by
  rw [DataOperand.mentions, Bool.and_or_distrib_left, Bool.or_eq_false_iff] at h
  rw [DataOperand.factorAmountAt_known h.1, DataOperand.lengthAmountAt_known h.2]
  rfl

/-- Otherwise a space stands for it. -/
theorem reserveStorage_later (h : op.mentions n) (s : Assembly) (bounds : Int32 × Int32) (v : Int32)
    (label? : Option Name) (f : Frame) :
    let passed := s.layout.passSpace .storage (if op.length?.isSome then Alignment.any else op.type.alignment)
    let e := storageExpr op label? (op.factorAmountAt n v true) (op.lengthAmountAt bounds n v true)
    s.reserveStorage op label? (op.factorAmountAt n v true) (op.lengthAmountAt bounds n v true) f =
      { s with layout := passed.2 }.resolveOrDefer (.space passed.1 (.storage e)) f := by
  rw [DataOperand.mentions, Bool.or_eq_true] at h
  dsimp only
  unfold reserveStorage
  split
  · rename_i d k hd hk
    rcases h with h | h
    · obtain ⟨e, -, heq⟩ := @DataOperand.factorAmountAt_deferred op v n true h
      cases hd.symm.trans heq
    · obtain ⟨m, -, heq⟩ := @DataOperand.lengthAmountAt_deferred op bounds v n true h
      cases hk.symm.trans heq
  · rfl

/-- The bytes that are reserved for an operand: those for a number that is known, or for one that comes later. -/
theorem bytes_reserveStorage (hs : s.Ready) (hopen : s.finished = false) (hrest : s.AtRest n v)
    (hop : op.isOver n) {bounds : Int32 × Int32}
    (hmeasures : ∀ l, label? = some l → Moment.Measures ⟨s, [], .reading⟩ n v l (op.attributeAt bounds v))
    {f : Frame} (hf : f.Scoped s.layout.spaces)
    (hc : Closes ⟨s.reserveStorage op label? (op.factorAmountAt n v late) (op.lengthAmountAt bounds n v late) f,
      [], .reading⟩ n v c) {τ : SpaceId → Int32} (hτ : c.layout.spaces.Fits τ) :
    (s.reserveStorage op label? (op.factorAmountAt n v late)
        (op.lengthAmountAt bounds n v late) f).layout.position.bytes τ =
      s.layout.position.bytes τ +
        if late && op.mentions n then op.bytesLater bounds n v label?.isSome else op.bytesAtOnce bounds v := by
  cases hwait : late && op.mentions n with
  | false =>
    rw [reserveStorage_atOnce hwait, if_neg Bool.false_ne_true]
    exact Layout.bytes_position_reserve hs.valid.formed _ τ
  | true =>
    obtain ⟨rfl, hmentions⟩ := Bool.and_eq_true_iff.mp hwait
    have hover := isOver_storageExpr hop (op.defers_amountsAt bounds n v true) label?
    rw [reserveStorage_later hmentions] at hc ⊢
    rw [if_pos rfl, ← valueAt_storageExpr hop bounds v label?]
    generalize storageExpr op label? (op.factorAmountAt n v true) (op.lengthAmountAt bounds n v true) = e at *
    generalize (if op.length?.isSome then Alignment.any else op.type.alignment) = guarantee at hc ⊢
    have hlaunch := launches_arrange (@Layout.arranges_passSpace s.layout guarantee (.storage e) trivial f hf)
    obtain ⟨hstart, hrun, -⟩ := hlaunch.approach hopen hrest (ne_or_eq _ _)
    have hfill := fills_resolveOrDefer s (s.layout.passSpace .storage guarantee).2
      (.space (s.layout.passSpace .storage guarantee).1 (.storage e)) f
    -- The space stands for the bytes until its job is done.
    have hlength := (hc.of_run hrun).length?
      (.inr ⟨_, .inl ⟨_, List.mem_cons_self, rfl⟩, _, rfl, hover, rfl⟩) fun l hl => (hmeasures l hl).step hstart
    have hspace : τ (s.layout.passSpace .storage guarantee).1 =
        atLeastZero (e.valueAt v (Int32.ofNat (op.attributeAt bounds v))) :=
      (hτ _ _ hlength).trans (Int32.add_zero _)
    rw [hfill.position, ← hspace]
    exact Layout.bytes_position_passSpace hs.valid.formed .storage guarantee τ

/-! ## 6. Operands as a whole -/

section Operand

variable {st : Statement} {l : Name} {storageOnly : Bool}

/-- A label that is taken is reported. -/
theorem defineLabel_of_taken (h : s.symbols.get? l ≠ none) (op : DataOperand) (length : Amount)
    (bounds : Int32 × Int32) (f : Frame) : s.defineLabel l op length bounds f =
      (false, (s.scaleOperand op f).2.report (.redefinition "symbol") f.location) := by
  have htaken : (s.scaleOperand op f).2.symbols.contains (s.operandSymbol op length f l).name := by
    rw [symbols_scaleOperand, SymbolTable.contains]
    exact Option.isSome_iff_ne_none.mpr h
  rw [defineLabel_eq, createSymbol?_of_contains htaken]

/-- An operand gets its label if that is free. The length attribute is then what the parameter makes it, or there is
a job for that. -/
theorem finish_cases (hs : s.Ready) (hopen : s.finished = false) (hrest : s.AtRest n v) (htells : s.Tells n v late)
    (hst : st.label? ≠ some n) (hop : op.isOver n)
    (hlabel : ∀ name, label? = some name → st.label? = some name) (hfit : op.implicitLength < 2 ^ 31) :
    let p := s.prepareOperand st storageOnly op
    (p.label? storageOnly label? op = none ∧ ∀ l, label? = some l → s.symbols.get? l ≠ none) ∨
      ∃ l, label? = some l ∧ s.symbols.get? l = none ∧ p.label? storageOnly label? op = some l ∧
        Moment.Measures ⟨p.finish storageOnly label? op, [], .reading⟩ n v l
          (op.attributeAt (op.type.lengthBounds storageOnly) v) := by
  intro p
  obtain ⟨hprepare, hscope, hlocation, -⟩ := stills_prepareOperand hs st storageOnly op
  have hacts := (s.acts_alignOperand st op).trans hprepare.acts
  cases label? with
  | none => exact .inl ⟨rfl, nofun⟩
  | some l =>
    -- What the operand prepares enters no symbol, so the label is as free or taken as before.
    by_cases hnone : s.symbols.get? l = none
    · have hne : l ≠ n := fun heq => hst (heq ▸ hlabel l rfl)
      have hlength := op.lengthAmountAt_cases (op.type.lengthBounds storageOnly) n v late
      rw [← (amounts_prepareOperand hs hopen hrest htells hst hop storageOnly).1] at hlength
      have hfree : p.state.symbols.get? l = none := hacts.get?_eq_none nofun hnone
      obtain ⟨hdefined, hmeasures⟩ := measures_defineLabel (hacts.ready hs)
        (hacts.leads.finished.trans hopen) (approach_acts hopen hrest hacts.labelled hst).2 (hlabel l rfl) hne
        hfree hop hscope hlocation hlength hfit
      have henter : (p.enter storageOnly (some l) op).1 = true := hdefined
      refine .inr ⟨l, rfl, hnone, if_pos henter, ?_⟩
      have hfinish : p.finish storageOnly (some l) op = (p.enter storageOnly (some l) op).2 := if_pos henter
      rw [hfinish]
      exact hmeasures
    · refine .inl ⟨?_, fun _ heq => Option.some.inj heq ▸ hnone⟩
      have htaken : p.state.symbols.get? l ≠ none := get?_ne_none_of_run hacts.leads.steps hnone
      have henter : ¬ (p.enter storageOnly (some l) op).1 = true := by
        show ¬ (p.state.defineLabel l op p.length _ p.frame).1 = true
        rw [defineLabel_of_taken htaken]
        exact Bool.false_ne_true
      exact if_neg henter

/-- Once the parameter has its number and no work is left, the bytes reserved for an operand are those that the
number makes of it, known at once or later. -/
theorem bytes_processOperand (hs : s.Ready) (hopen : s.finished = false) (hrest : s.AtRest n v)
    (htells : s.Tells n v late) (hst : st.label? ≠ some n) (hop : op.isOver n)
    (hlabel : ∀ name, label? = some name → st.label? = some name) (hfit : op.implicitLength < 2 ^ 31)
    (hc : Closes ⟨s.processOperand st storageOnly label? op, [], .reading⟩ n v c) {τ : SpaceId → Int32}
    (hτ : c.layout.spaces.Fits τ) :
    (s.processOperand st storageOnly label? op).layout.position.bytes τ =
      (s.alignOperand st op).layout.position.bytes τ +
        if late && op.mentions n then
          op.bytesLater (op.type.lengthBounds storageOnly) n v (label?.any fun l => (s.symbols.get? l).isNone)
        else op.bytesAtOnce (op.type.lengthBounds storageOnly) v := by
  obtain ⟨hprepare, hscope, -, -⟩ := stills_prepareOperand hs st storageOnly op
  have hfinish := stills_finish hs storageOnly hlabel op
  have hstills := hprepare.labelled.trans hfinish
  have hacts := (s.acts_alignOperand st op).labelled.trans hstills.acts
  have hcases := @finish_cases s n v late op label? st storageOnly hs hopen hrest htells hst hop hlabel hfit
  obtain ⟨hlength, hduplication⟩ := amounts_prepareOperand hs hopen hrest htells hst hop storageOnly
  rw [processOperand_eq] at hc ⊢
  dsimp only at hc hcases hlength hduplication ⊢
  rw [hlength, hduplication] at hc ⊢
  have htracked : ((s.prepareOperand st storageOnly op).label? storageOnly label? op).isSome =
      label?.any fun l => (s.symbols.get? l).isNone := by
    rcases hcases with ⟨hnone, htaken⟩ | ⟨l, rfl, hfree, hsome, -⟩
    · rw [hnone]
      cases label? with
      | none => rfl
      | some l => simpa [Option.isSome_iff_ne_none] using htaken l rfl
    · rw [hsome, Option.any_some, hfree]
      rfl
  rw [← hstills.bytes_position τ, ← htracked]
  -- Entering the label moves nothing, so the bytes are those that reserving the storage adds.
  refine bytes_reserveStorage (hacts.ready hs) (hacts.leads.finished.trans hopen)
    (approach_acts hopen hrest hacts hst).2 hop (fun l hl => ?_) (hscope.later hfinish.leads.earlier) hc hτ
  rcases hcases with ⟨hnone, -⟩ | ⟨l', -, -, hsome, hmeasures⟩
  · rw [hnone] at hl
    cases hl
  · rw [hsome] at hl
    cases hl
    exact hmeasures

/-- The label has the length attribute then that the number makes of the operand. -/
theorem hasLength_processOperand (hs : s.Ready) (hopen : s.finished = false) (hrest : s.AtRest n v)
    (htells : s.Tells n v late) (hst : st.label? = some l) (hne : l ≠ n) (hnone : s.symbols.get? l = none)
    (hop : op.isOver n) (hreserves : st.Reserves op) (hfit : op.implicitLength < 2 ^ 31)
    (hc : Closes ⟨s.processOperand st storageOnly (some l) op, [], .reading⟩ n v c) :
    c.HasLength l (op.attributeAt (op.type.lengthBounds storageOnly) v) := by
  have hother : st.label? ≠ some n := fun heq => hne (Option.some.inj (hst.symm.trans heq))
  have hlabel : ∀ name, some l = some name → st.label? = some name := fun _ heq => hst.trans heq
  obtain ⟨hprepare, hscope, hlocation, htakes⟩ := stills_prepareOperand hs st storageOnly op
  have hfinish := stills_finish hs storageOnly hlabel op
  have hacts := (s.acts_alignOperand st op).labelled.trans (hprepare.labelled.trans hfinish).acts
  rcases @finish_cases s n v late op (some l) st storageOnly hs hopen hrest htells hother hop hlabel hfit with
    ⟨-, htaken⟩ | ⟨l', heq, -, -, hmeasures⟩
  · exact absurd hnone (htaken l rfl)
  · cases heq
    rw [processOperand_eq] at hc
    have hstore : Act st _ _ := .store
      ((s.prepareOperand st storageOnly op).label? storageOnly (some l) op) hreserves htakes
      (hscope.later hfinish.leads.earlier) hlocation
    have hrun := (approach_acts (hacts.leads.finished.trans hopen) (approach_acts hopen hrest hacts hother).2
      hstore.acts hother).1
    exact (hc.of_run hrun).hasLength hmeasures

end Operand

end Assembly

end Assembler
