import Assembler.Proofs.Unmoved
/-!
Sums that are not cut to 32 bits.

Numbers wrap where the source computes with them, except in two places: the integer attribute of a label and the
start of a further counter are taken to fit into 32 bits. The length attribute of a label of data is positive and no
greater than its operand allows, however it comes about (`Moment.Sized.run`). So the integer attribute leaves the range
upwards only, by a scale near the least number (`DataType.integerFits_iff`), and the start of a counter does so if the
section ends right below the greatest number (`Session.bounds_labelAttributes`).
-/

namespace Assembler

open Assembly Moment

/-! ## 1. The integer attribute -/

namespace DataType

/-- Whether the integer attribute is computed without leaving 32 bits. -/
def IntegerFits (t : DataType) (length : Nat) (scale : Int32) : Prop :=
  ∀ n ∈ t.integerSteps length scale.toInt, FitsInt32 n

instance (t : DataType) (length : Nat) (scale : Int32) : Decidable (t.IntegerFits length scale) :=
  inferInstanceAs (Decidable (∀ n ∈ t.integerSteps length scale.toInt, FitsInt32 n))

/-- The number that the scale is taken from, for the types whose integer attribute depends on the scale. -/
def places? (t : DataType) (length : Nat) : Option Int :=
  match t with
  | f | fd | h => some (8 * length)
  | p => some (2 * length)
  | z => some length
  | d .hex | e .hex | l .hex => some (2 * ((length : Int) - 1))
  | _ => none

/-- The difference with the scale is the only number on the way that can be out of range, and it can only be too
great. -/
theorem integerFits_iff (t : DataType) {length : Nat} (hpos : 1 ≤ length) (hlt : length < 2 ^ 28) (scale : Int32) :
    t.IntegerFits length scale ↔ ∀ n, t.places? length = some n → n - scale.toInt < 2 ^ 31 := by
  have hlow := scale.le_toInt
  have hhigh := scale.toInt_lt
  unfold IntegerFits FitsInt32
  cases t with
  | d format | e format | l format =>
    cases format with
    | hex =>
      -- The length decides whether two more digits are taken off at the end.
      by_cases hlong : 8 < length <;> simp [integerSteps, places?, hlong] <;> omega
    | binary | decimal => simp [integerSteps, places?]
  | _ => simp [integerSteps, places?] <;> omega

/-- Then the attribute is the number of digits. -/
theorem IntegerFits.toInt_integerAttribute {t : DataType} {length : Nat} {scale : Int32}
    (h : t.IntegerFits length scale) :
    (t.integerAttribute length scale).toInt = t.integerDigits length scale.toInt := by
  have hfits : FitsInt32 (t.integerDigits length scale.toInt) := by
    rw [← t.getLastD_integerSteps]
    rcases List.mem_cons.mp (@List.getLastD_mem_cons _ (t.integerSteps length scale.toInt) 0) with hzero | hmem
    · rw [hzero]
      decide
    · exact h _ hmem
  exact Int32.toInt_ofInt_of_le hfits.1 hfits.2

end DataType

/-! ## 2. Lengths -/

theorem DataType.one_le_valueLength (t : DataType) (value : Text) : 1 ≤ t.valueLength value := by
  cases t <;> simp [valueLength, defaultLength]
  case cu => omega

theorem DataType.one_le_defaultLength (t : DataType) : 1 ≤ t.defaultLength := by
  cases t <;> exact Nat.succ_le_of_lt (Nat.succ_pos _)

/-- No type takes a length modifier beyond that of character and hexadecimal storage. -/
theorem DataType.lengthBounds_le (t : DataType) (storageOnly : Bool) : (t.lengthBounds storageOnly).2 ≤ 65535 := by
  unfold lengthBounds
  cases storageOnly <;> split <;> decide

namespace DataOperand

theorem one_le_implicitLength (op : DataOperand) : 1 ≤ op.implicitLength := by
  unfold implicitLength
  split
  · cases hvalues : (op.quotedValues _).head? with
    | none => exact Nat.le_refl 1
    | some value => exact op.type.one_le_valueLength value
  · exact op.type.one_le_defaultLength

/-- Whether the label of an operand can have a given length attribute. -/
def Allows (op : DataOperand) (l : Nat) : Prop := 1 ≤ l ∧ l ≤ max 65535 op.implicitLength

theorem allows_implicitLength (op : DataOperand) : op.Allows op.implicitLength :=
  ⟨op.one_le_implicitLength, Nat.le_max_right _ _⟩

/-- An implicit length that fits into 32 bits is the attribute. -/
theorem allows_ofNat {op : DataOperand} (hfit : op.implicitLength < 2 ^ 32) :
    op.Allows (Int32.ofNat op.implicitLength).toUInt32.toNat := by
  have hmod : (Int32.ofNat op.implicitLength).toUInt32.toNat = op.implicitLength % 2 ^ 32 := by simp
  rw [hmod, Nat.mod_eq_of_lt hfit]
  exact op.allows_implicitLength

theorem allows_of_bounds {op : DataOperand} {storageOnly : Bool} {n : Int32}
    (hmin : (op.type.lengthBounds storageOnly).1 ≤ n) (hmax : n ≤ (op.type.lengthBounds storageOnly).2) :
    op.Allows n.toUInt32.toNat := by
  have hlow := Int32.le_iff_toInt_le.mp (Int32.le_trans (one_le_lengthBounds op.type storageOnly) hmin)
  have hhigh := Int32.le_iff_toInt_le.mp (Int32.le_trans hmax (op.type.lengthBounds_le storageOnly))
  rw [show (1 : Int32).toInt = 1 from rfl] at hlow
  rw [show (65535 : Int32).toInt = 65535 from rfl] at hhigh
  have hnat : n.toUInt32.toNat = n.toNatClampNeg :=
    Int32.toNat_toUInt32_of_le (Int32.le_iff_toInt_le.mpr (show (0 : Int32).toInt ≤ n.toInt from by
      rw [show (0 : Int32).toInt = 0 from rfl]
      omega))
  rw [hnat, Int32.toNatClampNeg]
  unfold Allows
  omega

end DataOperand

/-! ## 3. Labels -/

/-- Whether the length in some attributes is one that an operand allows, so that the integer attribute is exact unless
the difference with the scale is too great. -/
def DataOperand.Bounds (op : DataOperand) (a : SymbolAttributes) : Prop :=
  ∀ length scale, a.length = .known length → a.scale = .known scale →
    op.Allows length ∧
    (op.type.IntegerFits length scale ↔ ∀ n, op.type.places? length = some n → n - scale.toInt < 2 ^ 31) ∧
    (op.type.IntegerFits length scale →
      (op.type.integerAttribute length scale).toInt = op.type.integerDigits length scale.toInt)

theorem DataOperand.bounds_of_allows {op : DataOperand} (hsize : op.implicitLength < 2 ^ 28) {a : SymbolAttributes}
    (h : ∀ length, a.length = .known length → op.Allows length) : op.Bounds a := by
  intro length scale hlength _
  have hallows := h length hlength
  refine ⟨hallows, op.type.integerFits_iff hallows.1 ?_ scale, DataType.IntegerFits.toInt_integerAttribute⟩
  have hmax := hallows.2
  omega

namespace Assembly

variable {s t u : Assembly} {st : Statement} {n : Name} {op : DataOperand} {job : Job}

/-- The attributes that the label of an operand is entered with. -/
def labelAttributes (s : Assembly) (st : Statement) (storageOnly : Bool) (op : DataOperand) : SymbolAttributes :=
  let p := s.prepareOperand st storageOnly op
  dataAttributes op p.length (p.state.scaleOperand op p.frame).1

/-- A length that is known when the operand is carried out is the implicit one or in the range of the modifier. -/
theorem lengthAmount_known {bounds : Int32 × Int32} {f : Frame} {k : Int32}
    (h : (s.lengthAmount op bounds f).1 = .known k) :
    k = Int32.ofNat op.implicitLength ∨ bounds.1 ≤ k ∧ k ≤ bounds.2 := by
  unfold lengthAmount at h
  dsimp only at h
  split at h
  · exact .inl (Amount.known.inj h).symm
  · split at h
    · split at h
      · rename_i hbounds
        exact .inr (Amount.known.inj h ▸ hbounds)
      · exact .inl (Amount.known.inj h).symm
    · exact .inl (Amount.known.inj h).symm
    · cases h

theorem allows_labelAttributes (s : Assembly) (st : Statement) (storageOnly : Bool)
    (hsize : op.implicitLength < 2 ^ 32) {length : Nat}
    (h : (s.labelAttributes st storageOnly op).length = .known length) : op.Allows length := by
  have hamount : ∀ k, (s.prepareOperand st storageOnly op).length = .known k →
      k = Int32.ofNat op.implicitLength ∨
        (op.type.lengthBounds storageOnly).1 ≤ k ∧ k ≤ (op.type.lengthBounds storageOnly).2 :=
    fun k hk => lengthAmount_known hk
  unfold labelAttributes dataAttributes at h
  dsimp only at h
  cases hlength : (s.prepareOperand st storageOnly op).length with
  | known k =>
    rw [hlength] at h
    cases h
    rcases hamount k hlength with rfl | ⟨hmin, hmax⟩
    · exact DataOperand.allows_ofNat hsize
    · exact DataOperand.allows_of_bounds hmin hmax
  | deferred e =>
    rw [hlength] at h
    cases h

/-- What a job makes of a length is the number that its rule admits, or the fallback. -/
theorem Does.exists_hasLength {e : Expr} {rule : LengthRule} (h : s.Does job u) (htask : job.task = .length n e rule)
    (hexp : s.Expects (.attr n .length)) : ∃ k, u.HasLength n k ∧ (k = rule.fallback ∨ ∃ v, k = rule.result v) := by
  obtain ⟨t, d, halike, hd, -, rfl⟩ := h.exists_establish
  have hexp := (halike.expects (.attr n .length)).mpr hexp
  rcases hd with hd | rfl
  · rw [attempt, htask] at hd
    dsimp only at hd
    rw [Evaluation.value?_map, Option.map_eq_some_iff] at hd
    obtain ⟨k, hk, rfl⟩ := hd
    refine ⟨k, hasLength_establish hexp, ?_⟩
    unfold attemptLength at hk
    cases heval : s.evaluate e job.frame with
    | resolved v =>
      rw [heval] at hk
      cases v with
      | absolute v =>
        simp only [Evaluation.andThen] at hk
        split at hk
        · rename_i hin
          cases hk
          exact .inr ⟨v, (if_pos hin).symm⟩
        · cases hk
          exact .inl rfl
      | relocatable a =>
        cases hk
        exact .inl rfl
    | fallback v fault =>
      rw [heval] at hk
      cases hk
      exact .inl rfl
    | blocked waiting =>
      rw [heval] at hk
      cases hk
  · rw [htask]
    exact ⟨rule.fallback, hasLength_establish hexp, .inl rfl⟩

/-- Something that is expected of a symbol later on has been expected of it before. -/
theorem Expects.of_later_attr {kind : AttributeKind} (h : t.Expects (.attr n kind)) (hst : s.Earlier t)
    (hthere : s.symbols.get? n ≠ none) : s.Expects (.attr n kind) := by
  obtain ⟨sym, hsym⟩ := Option.ne_none_iff_exists'.mp hthere
  obtain ⟨later, hlater, hle⟩ := hst.symbols n sym hsym
  have hback : ∀ {α : Type} {a b : Slot α}, a.Earlier b → b = .pending → a = .pending :=
    fun hab hb => hab.elim id fun heq => heq.symm.trans hb
  cases kind with
  | length | scale | integer =>
    obtain ⟨other, hother, hpending⟩ := h
    rw [hlater] at hother
    cases hother
    first
    | exact ⟨sym, hsym, hback hle.length hpending⟩
    | exact ⟨sym, hsym, hback hle.scale hpending⟩
    | exact ⟨sym, hsym, hback hle.integer hpending⟩
  | _ => exact h.elim

end Assembly

/-! ## 4. From the label on -/

/-- Whether a rule makes lengths only that an operand allows. -/
def LengthRule.Keeps (rule : LengthRule) (op : DataOperand) : Prop :=
  op.Allows rule.fallback ∧ ∀ v, op.Allows (rule.result v)

theorem LengthRule.Keeps.of_bounds (op : DataOperand) (storageOnly : Bool) (fault : Fault) :
    LengthRule.Keeps
      ⟨(op.type.lengthBounds storageOnly).1, (op.type.lengthBounds storageOnly).2, op.implicitLength, fault⟩ op := by
  refine ⟨op.allows_implicitLength, fun v => ?_⟩
  unfold LengthRule.result
  split
  · rename_i hin
    exact DataOperand.allows_of_bounds hin.1 hin.2
  · exact op.allows_implicitLength

namespace Moment

variable {m m' : Moment} {n : Name} {op : DataOperand}

/-- Whether the length attribute of a label is one that its operand allows, also if it is still to come, and the
integer attribute is to come from the type of the operand. -/
structure Sized (m : Moment) (n : Name) (op : DataOperand) : Prop where
  known : ∃ sym, m.state.symbols.get? n = some sym ∧
    ∀ length, sym.attributes.length = .known length → op.Allows length
  length : ∀ job, m.Carries job → job.task.product? = some (.attr n .length) →
    ∃ e rule, job.task = .length n e rule ∧ rule.Keeps op
  integer : ∀ job, m.Carries job → job.task.product? = some (.attr n .integer) → job.task = .integer n op.type

theorem Sized.get?_ne_none (h : m.Sized n op) : m.state.symbols.get? n ≠ none := by
  obtain ⟨sym, hsym, -⟩ := h.known
  rw [hsym]
  exact Option.some_ne_none sym

/-- No job for an attribute of the label comes up any more. -/
theorem Sized.carries (h : m.Sized n op) (hv : m.Valid) (hstep : Step m m') {job : Job} {kind : AttributeKind}
    (hc : m'.Carries job) (hkey : job.task.product? = some (.attr n kind)) : m.Carries job := by
  have hexp := (hv.step hstep).expected_of_hasJob (hc.hasJob (hv.step hstep) hkey)
  exact Step.carries hstep (hexp.of_later_attr hstep.grows.earlier h.get?_ne_none) attr_ne_space hc hkey

/-- If a step makes the length attribute known, then by the job for it. -/
theorem Sized.allows (h : m.Sized n op) (hstep : Step m m') (hexp : m.state.Expects (.attr n .length)) {length : Nat}
    (hlength : m'.state.HasLength n length) : op.Allows length := by
  obtain ⟨later, hlater, hlength⟩ := hlength
  rcases Step.does hstep hexp attr_ne_space with ⟨other, hother, hopen⟩ | ⟨x, hx, hkey, hdoes⟩
  · rw [hlater] at hother
    cases hother
    rw [hlength] at hopen
    cases hopen
  · obtain ⟨e, rule, htask, hkeeps⟩ := h.length x.2 (.inl ⟨x, hx, rfl⟩) hkey
    obtain ⟨k, ⟨other, hother, hk⟩, hcases⟩ := hdoes.exists_hasLength htask hexp
    rw [hlater] at hother
    cases hother
    rw [hlength] at hk
    cases hk
    rcases hcases with rfl | ⟨v, rfl⟩
    · exact hkeeps.1
    · exact hkeeps.2 v

theorem Sized.step (h : m.Sized n op) (hv : m.Valid) (hstep : Step m m') : m'.Sized n op := by
  refine ⟨?_, fun job hc hkey => h.length job (h.carries hv hstep hc hkey) hkey,
    fun job hc hkey => h.integer job (h.carries hv hstep hc hkey) hkey⟩
  obtain ⟨sym, hsym, hknown⟩ := h.known
  obtain ⟨later, hlater, hle⟩ := hstep.grows.earlier.symbols n sym hsym
  refine ⟨later, hlater, fun length hlength => ?_⟩
  rcases hle.length with hpending | heq
  · exact h.allows hstep ⟨sym, hsym, hpending⟩ ⟨later, hlater, hlength⟩
  · exact hknown length (heq.symm.trans hlength)

theorem Sized.run (h : m.Sized n op) (hv : m.Valid) (hrun : Run Step m m') : m'.Sized n op :=
  (hrun.keeps (P := fun x => x.Valid ∧ x.Sized n op)
    (fun _ _ hstep hx => ⟨hx.1.step hstep, hx.2.step hx.1 hstep⟩) ⟨hv, h⟩).2

end Moment

namespace Assembly

variable {s t u v : Assembly} {st : Statement} {n : Name} {op : DataOperand}

/-- A job for an attribute of a label that has been free is one of those that it is entered with. -/
theorem Launches.mem_of_carries {jobs : List Job} {job : Job} {kind : AttributeKind} (h : s.Launches jobs u t)
    (hs : s.Ready) (hnone : s.symbols.get? n = none) (hc : Carries ⟨u, jobs.map (none, ·), .reading⟩ job)
    (hkey : job.task.product? = some (.attr n kind)) : job ∈ jobs := by
  rcases hc with ⟨x, hx, rfl⟩ | ⟨id, p, hp, rfl⟩
  · obtain ⟨other, hother, rfl⟩ := List.mem_map.mp hx
    exact hother
  · exact absurd hkey (hs.product?_ne_attr hnone (h.pendings ▸ hp))

/-- A label that is free is entered with a length that its operand allows, or with the job for one. -/
theorem exists_sized (hs : s.Ready) {storageOnly : Bool} {others : List DataOperand} (hlabel : st.label? = some n)
    (hop : st.operation = .data storageOnly (op :: others)) (hsize : op.implicitLength < 2 ^ 32)
    (hnone : s.symbols.get? n = none) :
    ∃ m : Moment, m.Valid ∧ m.Sized n op ∧ Run Step m ⟨s.process st, [], .reading⟩ := by
  obtain ⟨u, v, hacts, hfree, hlaunch, hget, hleads⟩ :=
    exists_launches_operand hs hlabel hnone (leads_firstOperand hs hlabel hop)
  have hready := hacts.ready hs
  refine ⟨_, hready.valid.step (.progress hlaunch.enter), ⟨⟨_, hget, fun length hlength => ?_⟩,
    fun job hc hkey => ?_, fun job hc hkey => ?_⟩,
    (hlaunch.cascade.imp fun _ _ => Step.cascade).trans hleads.steps⟩
  · exact s.allows_labelAttributes st storageOnly hsize hlength
  · have hmem := hlaunch.mem_of_carries hready hfree hc hkey
    rcases cases_of_mem_attributeJobs hmem with ⟨e, -, rfl⟩ | ⟨e, -, rfl⟩ | rfl
    · exact ⟨e, _, rfl, .of_bounds op storageOnly _⟩
    · cases hkey
    · cases hkey
  · have hmem := hlaunch.mem_of_carries hready hfree hc hkey
    rcases cases_of_mem_attributeJobs hmem with ⟨e, -, rfl⟩ | ⟨e, -, rfl⟩ | rfl
    · cases hkey
    · cases hkey
    · rfl

end Assembly

/-! ## 5. Starts of counters -/

/-- Whether a start is the end of a section and the padding behind it. The two are in range together unless their sum
is too great, which takes an end that is less than the boundary away from the greatest number. -/
structure Alignment.StartsBehind (a : Alignment) (last start : Int32) : Prop where
  nonneg : 0 ≤ last.toInt
  sum : start = last + a.padding last.toInt
  fits : FitsInt32 (last.toInt + (a.padding last.toInt).toInt) ↔ last.toInt + (a.padding last.toInt).toInt < 2 ^ 31
  room : last.toInt + (max a.boundary 1 : Nat) ≤ 2 ^ 31 → FitsInt32 (last.toInt + (a.padding last.toInt).toInt)

theorem Alignment.startsBehind_padding (a : Alignment) {last : Int32} (hlast : 0 ≤ last.toInt) :
    a.StartsBehind last (last + a.padding last.toInt) := by
  have hlow := (a.padding last.toInt).le_toInt
  refine ⟨hlast, rfl, ⟨And.right, fun h => ⟨by omega, h⟩⟩, fun h => ?_⟩
  have hnonneg := a.gap_nonneg last.toInt
  have hlt := a.gap_lt last.toInt
  have hexact : (a.padding last.toInt).toInt = a.gap last.toInt :=
    Int32.toInt_ofInt_of_le (by omega) (by omega)
  exact ⟨by omega, by omega⟩

/-- A further counter starts behind the end of its section, which is not before the start of the section. -/
theorem Assembly.exists_startsBehind {s : Assembly} {space : SpaceId} {candidates : List Address}
    {sectionStart : Address} {alignment : Alignment} {f : Frame} {length : Length}
    (h : s.attemptSpace space (.counterStart candidates sectionStart alignment) f = .resolved length) :
    ∃ highest last, Address.highest s.layout.spaces candidates = .ok highest ∧
      (Length.between s.layout.spaces highest sectionStart).settled = .resolved last ∧
      alignment.StartsBehind (if last < 0 then 0 else last) length.bytes := by
  obtain ⟨highest, last, hhighest, hlast, rfl⟩ := attemptSpace_counterStart h
  refine ⟨highest, last, hhighest, hlast, alignment.startsBehind_padding ?_⟩
  split
  · exact Int.le_refl 0
  · exact Int32.le_iff_toInt_le.mp (Int32.not_lt.mp ‹_›)

namespace Session

/-- Whatever has been carried out, the length attribute of a label of data is one that its operand allows, at the
statement and later on. So of what its integer attribute is computed through only the difference with the scale can be
out of range, and only if it is too great. The end of a section with the padding behind it, where a further counter
starts, can be out of range only if the end is less than the boundary away from the greatest number, in whatever state
the start is computed. -/
theorem bounds_labelAttributes (settings : Settings) (before after : List Command) {st : Statement} {n : Name}
    {storageOnly : Bool} {op : DataOperand} {others : List DataOperand} (hlabel : st.label? = some n)
    (hop : st.operation = .data storageOnly (op :: others)) (hsize : op.implicitLength < 2 ^ 28) :
    let s := ((new settings).performAll before).assembly
    let t := ((new settings).performAll (before ++ .process st :: after)).assembly
    op.Bounds (s.labelAttributes st storageOnly op) ∧
    (s.symbols.get? n = none → ∃ sym, t.symbols.get? n = some sym ∧ op.Bounds sym.attributes ∧
      ∀ id p, t.pendings.get? id = some p → p.work.task.product? = some (.attr n .integer) →
        p.work.task = .integer n op.type) ∧
    ∀ (u : Assembly) space candidates sectionStart alignment f length,
      u.attemptSpace space (.counterStart candidates sectionStart alignment) f = .resolved length →
      ∃ highest last, Address.highest u.layout.spaces candidates = .ok highest ∧
        (Length.between u.layout.spaces highest sectionStart).settled = .resolved last ∧
        alignment.StartsBehind (if last < 0 then 0 else last) length.bytes := by
  intro s t
  have hready := follows_performAll (s := new settings) (ready_new settings) before
  have hs : s.Ready := hready.ready (ready_new settings)
  refine ⟨DataOperand.bounds_of_allows hsize fun length h => s.allows_labelAttributes st storageOnly (by omega) h,
    fun hnone => ?_, fun u space candidates sectionStart alignment f length h => exists_startsBehind h⟩
  obtain ⟨m, hv, hsized, hrun⟩ := exists_sized hs hlabel hop (by omega) hnone
  have hprocess := (leads_process hs st).ready hs
  have hafter := follows_performAll (s := ((new settings).performAll before).perform (.process st)) hprocess after
  have hlast : Moment.Sized ⟨t, [], .reading⟩ n op := by
    refine hsized.run hv (hrun.trans ?_)
    show Run Step _ ⟨((new settings).performAll (before ++ .process st :: after)).assembly, [], .reading⟩
    rw [performAll_append]
    exact hafter.run
  obtain ⟨sym, hsym, hallows⟩ := hlast.known
  exact ⟨sym, hsym, DataOperand.bounds_of_allows hsize hallows,
    fun id p hp hkey => hlast.integer p.work (.inr ⟨id, p, hp, rfl⟩) hkey⟩

/-! ### A scale near the least number -/

namespace Overscaled

def operand : DataOperand := { type := .f, scale? := some (.negate (.number 2147483647)) }

def storage : Statement := ⟨some (.ofString "X"), .ofString "DS", .data true [operand], {}⟩

theorem length_labelAttributes :
    ((new {}).assembly.labelAttributes storage true operand).length = .known 4 := by decide +kernel

theorem scale_labelAttributes :
    ((new {}).assembly.labelAttributes storage true operand).scale = .known (-2147483647) := by decide +kernel

end Overscaled

/-- A fullword has more digits before its point than 32 bits can count if its scale is next to the least number. -/
theorem bounds_labelAttributes_overscaled :
    Overscaled.operand.implicitLength < 2 ^ 28 ∧
      ((new {}).assembly.labelAttributes Overscaled.storage true Overscaled.operand).length = .known 4 ∧
      ((new {}).assembly.labelAttributes Overscaled.storage true Overscaled.operand).scale = .known (-2147483647) ∧
      ¬ Overscaled.operand.type.IntegerFits 4 (-2147483647) ∧
      ((new {}).performAll [.process Overscaled.storage]).assembly.symbols.get? (.ofString "X") ≠ none := by
  have hsize : Overscaled.operand.implicitLength < 2 ^ 28 := by decide
  obtain ⟨hat, hlater, -⟩ := @bounds_labelAttributes {} [] [] Overscaled.storage _ _ _ _ rfl rfl hsize
  refine ⟨hsize, Overscaled.length_labelAttributes, Overscaled.scale_labelAttributes, fun hfits => ?_, ?_⟩
  · have hlt := (hat 4 _ Overscaled.length_labelAttributes Overscaled.scale_labelAttributes).2.1.mp hfits 32 rfl
    exact absurd hlt (by decide)
  · obtain ⟨sym, hsym, -⟩ := hlater (SymbolTable.get?_empty _)
    exact hsym ▸ Option.some_ne_none sym

end Session

end Assembler
