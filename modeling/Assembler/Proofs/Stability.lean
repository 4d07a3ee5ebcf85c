import Assembler.Proofs.Evaluation
/-!
What an assembly lacks, and computations that wait for it.

A computation that has to wait lists things that are lacking (`lacks_of_evaluate`), and in a later state
it still has to wait if these are still lacking (`isBlocked_evaluate`). There is one exception: after the
end of the source the scale and integer attributes of a name without a symbol have values, and a symbol
that is defined under this name later may not have these attributes (`misuses`).
-/

namespace Assembler

/-! ## 1. Symbols in earlier and later states -/

namespace Slot

variable {α : Type}

theorem isPending_iff {slot : Slot α} : slot.isPending = true ↔ slot = .pending := by
  cases slot <;> simp [isPending]

/-- Whether a slot is the same later, unless it is filled in between. -/
def Earlier (a b : Slot α) : Prop := a = .pending ∨ b = a

theorem Earlier.refl (a : Slot α) : a.Earlier a := .inr rfl

theorem Earlier.trans {a b c : Slot α} (h : a.Earlier b) (h' : b.Earlier c) : a.Earlier c := by
  rcases h with h | rfl
  · exact .inl h
  · exact h'

end Slot

/-- Whether `later` comes from `sym` by filling in what was not known. -/
structure Symbol.Earlier (sym later : Symbol) : Prop where
  name : later.name = sym.name
  value : sym.value? = none ∨ later.value? = sym.value?
  type : later.attributes.type = sym.attributes.type
  length : sym.attributes.length.Earlier later.attributes.length
  scale : sym.attributes.scale.Earlier later.attributes.scale
  integer : sym.attributes.integer.Earlier later.attributes.integer

theorem Symbol.Earlier.refl (sym : Symbol) : sym.Earlier sym :=
  ⟨rfl, .inr rfl, rfl, .refl _, .refl _, .refl _⟩

/-- A value that a symbol has is never replaced. -/
theorem Symbol.Earlier.value_eq {sym later : Symbol} (h : sym.Earlier later) {v : Value} (hv : sym.value? = some v) :
    later.value? = some v := by
  rcases h.value with hnone | heq
  · cases hnone.symm.trans hv
  · exact heq.trans hv

theorem Symbol.Earlier.trans {a b c : Symbol} (h : a.Earlier b) (h' : b.Earlier c) :
    a.Earlier c where
  name := h'.name.trans h.name
  value := by
    rcases h.value with hv | hv
    · exact .inl hv
    · exact h'.value.imp (hv ▸ ·) (·.trans hv)
  type := h'.type.trans h.type
  length := h.length.trans h'.length
  scale := h.scale.trans h'.scale
  integer := h.integer.trans h'.integer

namespace Assembly

/-! ## 2. What is lacking -/

/-- Whether an assembly lacks a prerequisite. It never lacks counts, numbers or the attribute `D'`, for
which nothing waits. -/
def Lacks (s : Assembly) : Prerequisite → Prop
  | .symbol n => ∀ sym, s.symbols.get? n = some sym → sym.value? = none
  | .attr n .length => ∀ sym, s.symbols.get? n = some sym → sym.attributes.length = .pending
  | .attr n .scale => ∀ sym, s.symbols.get? n = some sym → sym.attributes.scale = .pending
  | .attr n .integer => ∀ sym, s.symbols.get? n = some sym → sym.attributes.integer = .pending
  | .attr n .type => s.symbols.get? n = none
  | .attr n .opcode =>
    s.macros[n]? = none ∧ Directive.find? n = none ∧ Instruction.find? n = none
  | .attr _ _ => False
  | .space space => ¬ s.layout.spaces.isResolved space

/-- Whether `t` comes from `s` by defining more. -/
structure Earlier (s t : Assembly) : Prop where
  symbols : ∀ n sym, s.symbols.get? n = some sym →
    ∃ later, t.symbols.get? n = some later ∧ sym.Earlier later
  spaces : s.layout.spaces.Earlier t.layout.spaces
  macros : ∀ n : Name, (s.macros[n]?).isSome → (t.macros[n]?).isSome
  variableValues : ∀ n : Name, (s.variableValues[n]?).isSome → (t.variableValues[n]?).isSome

variable {s t u : Assembly}

theorem Earlier.refl (s : Assembly) : s.Earlier s where
  symbols _ sym h := ⟨sym, h, .refl sym⟩
  spaces := .refl _
  macros _ := id
  variableValues _ := id

theorem Earlier.trans (h : s.Earlier t) (h' : t.Earlier u) : s.Earlier u where
  symbols n sym hs := by
    obtain ⟨mid, hmid, hle⟩ := h.symbols n sym hs
    obtain ⟨later, hlater, hle'⟩ := h'.symbols n mid hmid
    exact ⟨later, hlater, hle.trans hle'⟩
  spaces := h.spaces.trans h'.spaces
  macros n hn := h'.macros n (h.macros n hn)
  variableValues n hn := h'.variableValues n (h.variableValues n hn)

/-- Symbols, macros and spaces decide what is lacking. -/
theorem Lacks.congr {key : Prerequisite} (h : s.Lacks key) (hsym : t.symbols = s.symbols)
    (hm : t.macros = s.macros) (hsp : t.layout.spaces = s.layout.spaces) : t.Lacks key := by
  cases key with
  | symbol n => rw [Lacks, hsym]; exact h
  | attr n kind =>
    cases kind with
    | length | scale | integer | type => rw [Lacks, hsym]; exact h
    | opcode => rw [Lacks, hm]; exact h
    | count | number | defined => exact h
  | space k => rw [Lacks, hsp]; exact h

theorem Earlier.of_eq (hsym : t.symbols = s.symbols) (hm : t.macros = s.macros)
    (hv : t.variableValues = s.variableValues) (hsp : t.layout.spaces = s.layout.spaces) :
    s.Earlier t where
  symbols n sym h := ⟨sym, by rw [hsym]; exact h, .refl sym⟩
  spaces := by rw [hsp]; exact .refl _
  macros n hn := by rw [hm]; exact hn
  variableValues n hn := by rw [hv]; exact hn

/-! ## 3. Attributes -/

/-- What a reference to an attribute of an ordinary symbol or an operation code waits for. -/
def awaited (n : Name) : AttributeKind → Prerequisite
  | .defined => .symbol n
  | kind => .attr n kind

/-- Whether a reference to an attribute of an ordinary symbol or an operation code has to wait before the
end of the source. -/
def Awaits (s : Assembly) (n : Name) : AttributeKind → Prop
  | .defined => ∃ sym, s.symbols.get? n = some sym ∧ sym.value? = none
  | .count | .number => False
  | kind => s.Lacks (.attr n kind)

/-- A symbol is listed under its own name. -/
def Named (s : Assembly) : Prop := ∀ n sym, s.symbols.get? n = some sym → sym.name = n

theorem attributeOr_eq_blocked {n : Name} {kind : AttributeKind} {v : Int32}
    {waiting : List Prerequisite} : s.attributeOr n kind v = .blocked waiting ↔
      s.finished = false ∧ waiting = [.attr n kind] := by
  unfold attributeOr
  cases s.finished
  · simp [eq_comm]
  · simp

theorem slotAttribute_eq_blocked {n : Name} {kind : AttributeKind} {slot : Slot Int32}
    {waiting : List Prerequisite} : s.slotAttribute kind n slot = .blocked waiting ↔
      slot = .pending ∧ s.finished = false ∧ waiting = [.attr n kind] := by
  cases slot with
  | pending =>
    rw [slotAttribute, attributeOr_eq_blocked]
    exact (and_iff_right rfl).symm
  | known | absent => simp [slotAttribute]

theorem opcodeAttribute_eq_blocked {n : Name} {waiting : List Prerequisite} :
    s.opcodeAttribute n = .blocked waiting ↔
      s.finished = false ∧ s.Awaits n .opcode ∧ waiting = [.attr n .opcode] := by
  show _ ↔ s.finished = false ∧ (s.macros[n]? = none ∧ Directive.find? n = none ∧
    Instruction.find? n = none) ∧ waiting = [.attr n .opcode]
  unfold opcodeAttribute
  cases s.macros[n]? with
  | some => simp
  | none =>
    cases Directive.find? n with
    | some => simp
    | none =>
      cases Instruction.find? n with
      | some => simp
      | none => simp [attributeOr_eq_blocked]

theorem attributeOf_eq_blocked (hn : s.Named) {kind : AttributeKind} {operand : AttributeOperand}
    {f : Frame} {waiting : List Prerequisite} :
    s.attributeOf kind operand f = .blocked waiting ↔ ∃ n, operand = .symbol n ∧
      s.finished = false ∧ s.Awaits n kind ∧ waiting = [awaited n kind] := by
  cases operand with
  | variableSymbol n =>
    simp only [attributeOf, variableAttribute, reduceCtorEq, false_and, exists_false, iff_false]
    split
    · simp
    · split <;> simp
  | symbol n =>
    simp only [AttributeOperand.symbol.injEq, exists_eq_left']
    -- What is awaited depends on whether the name has been entered, and then on the attribute.
    cases hsym : s.symbols.get? n with
    | none =>
      cases kind <;>
        simp [attributeOf, hsym, undefinedAttribute, attributeOr_eq_blocked, awaited, Awaits, Lacks,
          opcodeAttribute_eq_blocked]
    | some sym =>
      have hname := hn n sym hsym
      cases kind with
      | opcode => simp [attributeOf, opcodeAttribute_eq_blocked, awaited]
      | length =>
        simp only [attributeOf, reduceCtorEq, if_false, hsym, symbolAttribute, hname, Awaits, Lacks]
        cases hl : sym.attributes.length <;> simp [hl, attributeOr_eq_blocked, awaited]
      | scale | integer =>
        simp [attributeOf, hsym, symbolAttribute, slotAttribute_eq_blocked, awaited, Awaits, Lacks,
          hname, and_left_comm]
      | defined =>
        simp only [attributeOf, reduceCtorEq, if_false, hsym, symbolAttribute, hname, Awaits,
          Symbol.isDefined, awaited]
        cases hv : sym.value? <;> cases s.finished <;> simp [hv, eq_comm]
      | type =>
        simp only [attributeOf, reduceCtorEq, if_false, hsym, symbolAttribute, Awaits, Lacks]
        split <;> simp
      | count | number => simp [attributeOf, hsym, symbolAttribute, Awaits]

theorem lacks_of_attributeOf (hn : s.Named) {kind : AttributeKind} {operand : AttributeOperand}
    {f : Frame} {waiting : List Prerequisite}
    (h : s.attributeOf kind operand f = .blocked waiting) : ∀ p ∈ waiting, s.Lacks p := by
  obtain ⟨n, -, -, hawaits, rfl⟩ := (attributeOf_eq_blocked hn).mp h
  intro p hp
  rw [List.mem_singleton.mp hp]
  cases kind with
  | defined =>
    obtain ⟨sym, hsym, hv⟩ := hawaits
    intro sym' hsym'
    rw [hsym] at hsym'
    cases hsym'
    exact hv
  | count | number => exact hawaits.elim
  | opcode | length | type | scale | integer => exact hawaits

/-- An attribute that had to wait waits as long as it is lacking. -/
theorem isBlocked_attributeOf (hs : s.Named) (ht : t.Named) (hst : s.Earlier t)
    (hf : t.finished = s.finished) {kind : AttributeKind} {operand : AttributeOperand} {f : Frame}
    {waiting : List Prerequisite} (h : s.attributeOf kind operand f = .blocked waiting)
    (hl : ∀ p ∈ waiting, t.Lacks p) : (t.attributeOf kind operand f).IsBlocked := by
  obtain ⟨n, rfl, hfin, hawaits, rfl⟩ := (attributeOf_eq_blocked hs).mp h
  have hlack := hl _ (List.mem_singleton.mpr rfl)
  refine ⟨_, (attributeOf_eq_blocked ht).mpr ⟨n, rfl, hf.trans hfin, ?_, rfl⟩⟩
  cases kind with
  | defined =>
    obtain ⟨sym, hsym, -⟩ := hawaits
    obtain ⟨later, hlater, -⟩ := hst.symbols n sym hsym
    exact ⟨later, hlater, hlack later hlater⟩
  | count | number => exact hawaits.elim
  | opcode | length | type | scale | integer => exact hlack

/-! ### Attributes that symbols do not have -/

/-- Whether there is a symbol of this name without the attribute. -/
def denies (s : Assembly) (kind : AttributeKind) : AttributeOperand → Bool
  | .symbol n =>
    (s.symbols.get? n).any fun sym =>
      (kind = .scale && sym.attributes.scale = .absent) ||
        (kind = .integer && sym.attributes.integer = .absent)
  | .variableSymbol _ => false

/-- Whether an expression refers to the scale or the integer attribute of a symbol without it. -/
def misuses (s : Assembly) : Expr → Bool
  | .attr kind operand => s.denies kind operand
  | .negate e => s.misuses e
  | .binary _ l r => s.misuses l || s.misuses r
  | _ => false

theorem not_isFault_attributeOr (n : Name) (kind : AttributeKind) (v : Int32) :
    ¬ (s.attributeOr n kind v).IsFault := by
  unfold attributeOr
  split <;> simp

theorem isFault_slotAttribute {kind : AttributeKind} {n : Name} {slot : Slot Int32} :
    (s.slotAttribute kind n slot).IsFault ↔ slot = .absent := by
  cases slot with
  | known v => simp [slotAttribute]
  | pending => simp [slotAttribute, not_isFault_attributeOr]
  | absent => simp [slotAttribute]

/-- Every name has an operation code attribute. -/
theorem not_isFault_opcodeAttribute (n : Name) : ¬ (s.opcodeAttribute n).IsFault := by
  unfold opcodeAttribute
  cases s.macros[n]? with
  | some => simp
  | none =>
    cases Directive.find? n with
    | some => simp
    | none =>
      cases Instruction.find? n with
      | some => simp
      | none => simp [not_isFault_attributeOr]

theorem isFault_attributeOf {kind : AttributeKind} {n : Name} {f : Frame} :
    (s.attributeOf kind (.symbol n) f).IsFault ↔
      kind = .count ∨ kind = .number ∨ s.denies kind (.symbol n) := by
  -- Apart from counts and numbers, only a scale or an integer attribute can be missing for good.
  cases hsym : s.symbols.get? n with
  | none =>
    cases kind with
    | opcode => simp [attributeOf, not_isFault_opcodeAttribute, denies, hsym]
    | length | type | scale | integer | defined | count | number =>
      simp [attributeOf, hsym, undefinedAttribute, not_isFault_attributeOr, denies]
  | some sym =>
    cases kind with
    | opcode => simp [attributeOf, not_isFault_opcodeAttribute, denies, hsym]
    | length =>
      simp only [attributeOf, reduceCtorEq, if_false, hsym, symbolAttribute, denies]
      split <;> simp [not_isFault_attributeOr]
    | type | defined =>
      simp only [attributeOf, reduceCtorEq, if_false, hsym, symbolAttribute, denies]
      split <;> (try split) <;> simp
    | scale | integer => simp [attributeOf, hsym, symbolAttribute, isFault_slotAttribute, denies]
    | count | number => simp [attributeOf, hsym, symbolAttribute]

/-- Before the end of the source an attribute with a value is not denied later. -/
theorem denies_of_later (hst : s.Earlier t) (hfin : s.finished = false) {kind : AttributeKind}
    {n : Name} {f : Frame} {v : Int32} (h : s.attributeOf kind (.symbol n) f = .resolved v)
    (hd : t.denies kind (.symbol n)) : s.denies kind (.symbol n) := by
  cases hsym : s.symbols.get? n with
  | none =>
    cases kind with
    | scale | integer =>
      simp [attributeOf, hsym, undefinedAttribute, attributeOr, hfin] at h
    | _ => simp [denies] at hd
  | some sym =>
    obtain ⟨later, hlater, hle⟩ := hst.symbols n sym hsym
    -- A slot that is absent later was so before or was pending, and then it had no value.
    have hslot : ∀ slot slot' : Slot Int32, slot.Earlier slot' → slot' = .absent →
        s.slotAttribute kind sym.name slot = .resolved v → slot = .absent := by
      rintro slot slot' (rfl | rfl) habsent hv
      · simp [slotAttribute, attributeOr, hfin] at hv
      · exact habsent
    cases kind with
    | scale =>
      have habsent : later.attributes.scale = .absent := by simpa [denies, hlater] using hd
      have hs := hslot _ _ hle.scale habsent (by simpa [attributeOf, hsym, symbolAttribute] using h)
      simp [denies, hsym, hs]
    | integer =>
      have habsent : later.attributes.integer = .absent := by simpa [denies, hlater] using hd
      have hs := hslot _ _ hle.integer habsent
        (by simpa [attributeOf, hsym, symbolAttribute] using h)
      simp [denies, hsym, hs]
    | _ => simp [denies] at hd

/-- An attribute that is known stays known or has to be waited for, unless it is given up at the end of
the source and denied later. -/
theorem later_attributeOf (hst : s.Earlier t) (hf : t.finished = s.finished)
    {kind : AttributeKind} {operand : AttributeOperand} {f : Frame}
    (hd : t.finished → t.denies kind operand = false) :
    Evaluation.Later (fun _ _ => True) (s.attributeOf kind operand f)
      (t.attributeOf kind operand f) := by
  intro v h
  cases operand with
  | variableSymbol n =>
    obtain ⟨w, hw⟩ : ∃ w, s.variableValues[n]? = some w := by
      simp only [attributeOf, variableAttribute] at h
      split at h
      · cases h
      · exact ⟨_, ‹_›⟩
    obtain ⟨w', hw'⟩ := Option.isSome_iff_exists.mp
      (hst.variableValues n (by rw [hw]; rfl))
    simp only [attributeOf, variableAttribute, hw] at h
    refine .inr ?_
    cases kind <;> simp_all [attributeOf, variableAttribute]
  | symbol n =>
    -- It is no fault now, so it has a value or has to be waited for.
    have hno : ¬ (t.attributeOf kind (.symbol n) f).IsFault := by
      have hs : ¬ (s.attributeOf kind (.symbol n) f).IsFault := by
        rw [h]; rintro ⟨_, _, he⟩; cases he
      rw [isFault_attributeOf, not_or, not_or] at hs ⊢
      refine ⟨hs.1, hs.2.1, fun hdeny => ?_⟩
      by_cases hfin : t.finished
      · rw [hd hfin] at hdeny
        cases hdeny
      · have hfin : s.finished = false := by simpa [hf] using hfin
        exact hs.2.2 (denies_of_later hst hfin h hdeny)
    cases ht : t.attributeOf kind (.symbol n) f with
    | resolved w => exact .inr ⟨w, rfl, trivial⟩
    | blocked waiting => exact .inl ⟨_, rfl⟩
    | fallback w fault => exact absurd ⟨_, _, ht⟩ hno

/-! ## 4. Expressions -/

/-- The open spaces that a value waits for are lacking. -/
theorem lacks_of_settle (ha : s.layout.spaces.Acyclic) {v : Value} {waiting : List Prerequisite}
    (h : v.settle s.layout.spaces = .blocked waiting) : ∀ p ∈ waiting, s.Lacks p := by
  obtain ⟨x, -, -, -, rfl⟩ := Value.settle_eq_blocked h
  intro p hp
  obtain ⟨space, hspace, rfl⟩ := List.mem_map.mp hp
  exact (Address.normal_normalize ha x).isOpen space hspace

theorem lacks_of_factor (ha : s.layout.spaces.Acyclic) {v : Value} {waiting : List Prerequisite}
    (h : v.factor s.layout.spaces = .blocked waiting) : ∀ p ∈ waiting, s.Lacks p := by
  rcases Evaluation.andThen_eq_blocked.mp h with h | ⟨u, -, hu⟩
  · exact lacks_of_settle ha h
  · cases u <;> cases hu

theorem lacks_of_apply (ha : s.layout.spaces.Acyclic) {op : Operator} {v w : Value}
    {waiting : List Prerequisite} (h : op.apply s.layout.spaces v w = .blocked waiting) :
    ∀ p ∈ waiting, s.Lacks p := by
  have factors : ∀ f : Int32 × Int32 → Value,
      ((v.factor s.layout.spaces).both (w.factor s.layout.spaces)).map f = .blocked waiting →
        ∀ p ∈ waiting, s.Lacks p := by
    intro f h p hp
    rcases Evaluation.mem_both_blocked (Evaluation.map_eq_blocked.mp h) hp with
      ⟨ps, hv, hmem⟩ | ⟨qs, hw, hmem⟩
    · exact lacks_of_factor ha hv p hmem
    · exact lacks_of_factor ha hw p hmem
  cases op with
  | add | sub => cases h
  | mul | div => exact factors _ h

theorem lacks_of_evaluateOpen (hn : s.Named) (ha : s.layout.spaces.Acyclic) {e : Expr} {f : Frame}
    {waiting : List Prerequisite} (h : e.evaluateOpen s.scope f = .blocked waiting) :
    ∀ p ∈ waiting, s.Lacks p := by
  induction e generalizing waiting with
  | number n => cases h
  | symbol n =>
    simp only [Expr.evaluateOpen] at h
    split at h
    · cases h
    · rename_i hv
      cases h
      intro p hp
      rw [List.mem_singleton.mp hp]
      intro sym hsym
      simpa [scope, hsym] using hv
  | attr kind operand => exact lacks_of_attributeOf hn (Evaluation.map_eq_blocked.mp h)
  | counter =>
    simp only [Expr.evaluateOpen] at h
    split at h <;> cases h
  | negate e ih => exact ih (Evaluation.map_eq_blocked.mp h)
  | binary op l r ihl ihr =>
    -- Either one of the operands had to wait, or both are known and the operator waits for lengths.
    rcases Evaluation.andThen_eq_blocked.mp h with h | ⟨v, -, hv⟩
    · intro p hp
      rcases Evaluation.mem_both_blocked h hp with ⟨ps, hl, hmem⟩ | ⟨qs, hr, hmem⟩
      · exact ihl hl p hmem
      · exact ihr hr p hmem
    · exact lacks_of_apply ha hv

/-- What an expression waits for is lacking. -/
theorem lacks_of_evaluate (hn : s.Named) (ha : s.layout.spaces.Acyclic) {e : Expr} {f : Frame}
    {waiting : List Prerequisite} (h : s.evaluate e f = .blocked waiting) :
    ∀ p ∈ waiting, s.Lacks p := by
  simp only [evaluate, Expr.evaluate] at h
  split at h
  · exact lacks_of_settle ha h
  · exact lacks_of_evaluateOpen hn ha h

/-! ### In a later state -/

/-- Addresses of one shape are reduced to the same spaces. -/
theorem spaces_normalize_of_sameShape {x y : Address} (hxy : Value.SameShape (.relocatable x) (.relocatable y))
    (hsame : x.normalize t.layout.spaces = x.normalize s.layout.spaces) :
    (y.normalize t.layout.spaces).spaces = (x.normalize s.layout.spaces).spaces := by
  rw [← hsame]
  exact congrArg (fun ts => (t.layout.spaces.substitute ts).2) hxy.2.symm

theorem isAbsolute_normalize_of_sameShape {x y : Address}
    (hxy : Value.SameShape (.relocatable x) (.relocatable y)) :
    (y.normalize t.layout.spaces).isAbsolute = x.isAbsolute := by
  rw [Address.isAbsolute_normalize, Address.isAbsolute, ← hxy.1, Address.isAbsolute]

variable (hst : s.Earlier t) (ha : s.layout.spaces.Acyclic) (hb : t.layout.spaces.Acyclic)

include hst ha hb

theorem isBlocked_settle {v w : Value} (hvw : v.SameShape w) {waiting : List Prerequisite}
    (h : v.settle s.layout.spaces = .blocked waiting) (hl : ∀ p ∈ waiting, t.Lacks p) :
    (w.settle t.layout.spaces).IsBlocked := by
  obtain ⟨x, rfl, habs, hopen, rfl⟩ := Value.settle_eq_blocked h
  cases w with
  | absolute n => exact hvw.elim
  | relocatable y =>
    have hsame : x.normalize t.layout.spaces = x.normalize s.layout.spaces :=
      Address.normalize_eq hst.spaces ha hb fun space hspace =>
        hl (.space space) (List.mem_map_of_mem hspace)
    have hy := spaces_normalize_of_sameShape hvw hsame
    have hyabs : (y.normalize t.layout.spaces).isAbsolute := (isAbsolute_normalize_of_sameShape hvw).trans habs
    rw [Value.settle_relocatable, if_neg (by rw [hy]; exact fun hand => hopen hand.2),
      Address.settled, if_pos hyabs]
    exact ⟨_, rfl⟩

theorem isBlocked_factor {v w : Value} (hvw : v.SameShape w) {waiting : List Prerequisite}
    (h : v.factor s.layout.spaces = .blocked waiting) (hl : ∀ p ∈ waiting, t.Lacks p) :
    (w.factor t.layout.spaces).IsBlocked := by
  rcases Evaluation.andThen_eq_blocked.mp h with h | ⟨u, -, hu⟩
  · obtain ⟨ps, hps⟩ := isBlocked_settle hst ha hb hvw h hl
    exact ⟨ps, by rw [Value.factor, hps]; rfl⟩
  · cases u <;> cases hu

/-- A number stays a number. -/
theorem later_factor {v w : Value} (hvw : v.SameShape w) :
    Evaluation.Later (fun _ _ => True) (v.factor s.layout.spaces) (w.factor t.layout.spaces) := by
  intro n h
  obtain ⟨u, hu, hn⟩ := Evaluation.andThen_eq_resolved.mp h
  cases w with
  | absolute m => exact .inr ⟨m, rfl, trivial⟩
  | relocatable y =>
    rcases Value.settle_eq_resolved hu with ⟨m, rfl, -⟩ | ⟨x, rfl, hempty, rfl⟩
    · exact hvw.elim
    split at hn
    · rename_i habs
      have hsame : x.normalize t.layout.spaces = x.normalize s.layout.spaces :=
        Address.normalize_eq_of_isEmpty hst.spaces ha hb (hempty habs)
      have hy := spaces_normalize_of_sameShape hvw hsame
      have hyabs : (y.normalize t.layout.spaces).isAbsolute := (isAbsolute_normalize_of_sameShape hvw).trans habs
      refine .inr ⟨(y.normalize t.layout.spaces).offset, ?_, trivial⟩
      rw [Value.factor, Value.settle_relocatable, if_pos ⟨hyabs, by rw [hy]; exact hempty habs⟩]
      rfl
    · cases hn

theorem isBlocked_apply {op : Operator} {v v' w w' : Value} (hv : v.SameShape v')
    (hw : w.SameShape w') {waiting : List Prerequisite}
    (h : op.apply s.layout.spaces v w = .blocked waiting) (hl : ∀ p ∈ waiting, t.Lacks p) :
    (op.apply t.layout.spaces v' w').IsBlocked := by
  have factors : ∀ f : Int32 × Int32 → Value,
      ((v.factor s.layout.spaces).both (w.factor s.layout.spaces)).map f = .blocked waiting →
        (((v'.factor t.layout.spaces).both (w'.factor t.layout.spaces)).map f).IsBlocked := by
    intro f h
    rw [Evaluation.isBlocked_map]
    rcases Evaluation.both_eq_blocked (Evaluation.map_eq_blocked.mp h) with
      ⟨ps, hps, hsub⟩ | ⟨qs, hqs, hsub⟩
    · exact (isBlocked_factor hst ha hb hv hps fun p hp => hl p (hsub p hp)).both_left _
    · exact (isBlocked_factor hst ha hb hw hqs fun p hp => hl p (hsub p hp)).both_right _
  cases op with
  | add | sub => cases h
  | mul | div => exact factors _ h

theorem later_apply (op : Operator) {v v' w w' : Value} (hv : v.SameShape v')
    (hw : w.SameShape w') : Evaluation.Later Value.SameShape (op.apply s.layout.spaces v w)
      (op.apply t.layout.spaces v' w') := by
  cases op with
  | add =>
    intro u hu
    cases hu
    exact .inr ⟨_, rfl, hv.add hw⟩
  | sub =>
    intro u hu
    cases hu
    exact .inr ⟨_, rfl, hv.sub hw⟩
  | mul | div =>
    refine ((later_factor hst ha hb hv).both (later_factor hst ha hb hw)).map fun _ _ _ => ?_
    trivial

variable (hf : t.finished = s.finished)

include hf

/-- A value keeps its shape, unless it has to be waited for. -/
theorem later_evaluateOpen {e : Expr} {f : Frame} (hm : t.finished → t.misuses e = false) :
    Evaluation.Later Value.SameShape (e.evaluateOpen s.scope f) (e.evaluateOpen t.scope f) := by
  induction e with
  | number n =>
    intro v hv
    exact .inr ⟨v, hv, .refl v⟩
  | symbol n =>
    intro v hv
    simp only [Expr.evaluateOpen] at hv
    split at hv
    · rename_i u hu
      cases hv
      obtain ⟨sym, hsym, hval⟩ := Option.bind_eq_some_iff.mp hu
      obtain ⟨later, hlater, hle⟩ := hst.symbols n sym hsym
      refine .inr ⟨v, ?_, .refl v⟩
      simp [Expr.evaluateOpen, scope, hlater, hle.value_eq hval]
    · cases hv
  | attr kind operand =>
    refine (later_attributeOf hst hf fun hfin => ?_).map fun _ _ _ => trivial
    exact hm hfin
  | counter =>
    intro v hv
    exact .inr ⟨v, hv, .refl v⟩
  | negate e ih =>
    exact (ih hm).map fun _ _ h => h.neg
  | binary op l r ihl ihr =>
    have hml : t.finished → t.misuses l = false := fun hfin => by
      have := hm hfin
      simp only [misuses, Bool.or_eq_false_iff] at this
      exact this.1
    have hmr : t.finished → t.misuses r = false := fun hfin => by
      have := hm hfin
      simp only [misuses, Bool.or_eq_false_iff] at this
      exact this.2
    exact ((ihl hml).both (ihr hmr)).andThen fun _ _ h => later_apply hst ha hb op h.1 h.2

variable (hsn : s.Named) (htn : t.Named)

include hsn htn

theorem isBlocked_evaluateOpen {e : Expr} {f : Frame} {waiting : List Prerequisite}
    (hm : t.finished → t.misuses e = false) (h : e.evaluateOpen s.scope f = .blocked waiting)
    (hl : ∀ p ∈ waiting, t.Lacks p) : (e.evaluateOpen t.scope f).IsBlocked := by
  induction e generalizing waiting with
  | number n => cases h
  | symbol n =>
    simp only [Expr.evaluateOpen] at h
    split at h
    · cases h
    · cases h
      have hlack := hl _ (List.mem_singleton.mpr rfl)
      have hnone : t.scope.value? n = none := by
        rw [scope, Option.bind_eq_none_iff]
        exact fun sym hsym => hlack sym hsym
      exact ⟨[.symbol n], by simp only [Expr.evaluateOpen, hnone]⟩
  | attr kind operand =>
    have h := Evaluation.map_eq_blocked.mp h
    exact Evaluation.isBlocked_map.mpr (isBlocked_attributeOf hsn htn hst hf h hl)
  | counter =>
    simp only [Expr.evaluateOpen] at h
    split at h <;> cases h
  | negate e ih => exact Evaluation.isBlocked_map.mpr (ih hm (Evaluation.map_eq_blocked.mp h) hl)
  | binary op l r ihl ihr =>
    have hm' : t.finished → t.misuses l = false ∧ t.misuses r = false := fun hfin => by
      simpa [misuses] using hm hfin
    rcases Evaluation.andThen_eq_blocked.mp h with h | ⟨⟨v, w⟩, hvw, hop⟩
    · rcases Evaluation.both_eq_blocked h with ⟨ps, hps, hsub⟩ | ⟨qs, hqs, hsub⟩
      · have hblocked := ihl (fun hfin => (hm' hfin).1) hps fun p hp => hl p (hsub p hp)
        exact (hblocked.both_left _).andThen _ _
      · have hblocked := ihr (fun hfin => (hm' hfin).2) hqs fun p hp => hl p (hsub p hp)
        exact (hblocked.both_right _).andThen _ _
    · -- The operands keep their shapes, so the operation waits for the same spaces.
      obtain ⟨hv, hw⟩ := Evaluation.both_eq_resolved.mp hvw
      rcases later_evaluateOpen hst ha hb hf (fun hfin => (hm' hfin).1) v hv with
        hblocked | ⟨v', hv', hvv⟩
      · exact (hblocked.both_left _).andThen _ _
      rcases later_evaluateOpen hst ha hb hf (fun hfin => (hm' hfin).2) w hw with
        hblocked | ⟨w', hw', hww⟩
      · exact (hblocked.both_right _).andThen _ _
      · have hblocked := isBlocked_apply hst ha hb hvv hww hop hl
        simp only [Expr.evaluateOpen, hv', hw']
        exact hblocked

/-- An expression that had to wait waits as long as what it waited for is lacking. -/
theorem isBlocked_evaluate {e : Expr} {f : Frame} {waiting : List Prerequisite}
    (hm : t.finished → t.misuses e = false) (h : s.evaluate e f = .blocked waiting)
    (hl : ∀ p ∈ waiting, t.Lacks p) : (t.evaluate e f).IsBlocked := by
  simp only [evaluate, Expr.evaluate] at h ⊢
  split at h
  · rename_i v hv
    rcases later_evaluateOpen hst ha hb hf hm v hv with ⟨ps, hps⟩ | ⟨w, hw, hvw⟩
    · rw [hps]
      exact ⟨ps, rfl⟩
    · rw [hw]
      exact isBlocked_settle hst ha hb hvw h hl
  · obtain ⟨ps, hps⟩ := isBlocked_evaluateOpen hst ha hb hf hsn htn hm h hl
    rw [hps]
    exact ⟨ps, rfl⟩

theorem isBlocked_evaluateNumber {e : Expr} {f : Frame} {waiting : List Prerequisite}
    (hm : t.finished → t.misuses e = false) (h : s.evaluateNumber e f = .blocked waiting)
    (hl : ∀ p ∈ waiting, t.Lacks p) : (t.evaluateNumber e f).IsBlocked := by
  rcases Evaluation.andThen_eq_blocked.mp h with h | ⟨u, -, hu⟩
  · obtain ⟨ps, hps⟩ := isBlocked_evaluate hst ha hb hf hsn htn hm h hl
    exact ⟨ps, by
      show (t.evaluate e f).andThen 0 Value.toNumber = _
      rw [hps]; rfl⟩
  · cases u <;> cases hu

omit hsn htn

/-- An address stays an address with the same sections and, up to their lengths, the same spaces. -/
theorem later_evaluate_relocatable {e : Expr} {f : Frame} {x : Address}
    (hm : t.finished → t.misuses e = false) (h : s.evaluate e f = .resolved (.relocatable x)) :
    (t.evaluate e f).IsBlocked ∨ ∃ y, t.evaluate e f = .resolved (.relocatable y) ∧
      y.bases = x.bases ∧ y.Normal t.layout.spaces ∧
        y.spaces = (x.normalize t.layout.spaces).spaces := by
  simp only [evaluate, Expr.evaluate] at h ⊢
  split at h
  · rename_i v hv
    rcases later_evaluateOpen hst ha hb hf hm v hv with ⟨ps, hps⟩ | ⟨w, hw, hvw⟩
    · rw [hps]
      exact .inl ⟨ps, rfl⟩
    rw [hw]
    rcases Value.settle_eq_resolved h with ⟨n, -, hn⟩ | ⟨raw, rfl, -, hraw⟩
    · cases hn
    cases w with
    | absolute n => exact hvw.elim
    | relocatable raw' =>
      by_cases habs : raw.isAbsolute
      · rw [if_pos habs] at hraw; cases hraw
      rw [if_neg habs] at hraw
      cases hraw
      have habs' : ¬ (raw'.normalize t.layout.spaces).isAbsolute := by
        rw [isAbsolute_normalize_of_sameShape hvw]
        exact habs
      refine .inr ⟨raw'.normalize t.layout.spaces, ?_, hvw.1.symm,
        Address.normal_normalize hb _, ?_⟩
      · show (Value.relocatable raw').settle t.layout.spaces = _
        rw [Value.settle_relocatable, if_neg fun hand => habs' hand.1, Address.settled, if_neg habs']
      · show _ = ((raw.normalize s.layout.spaces).normalize t.layout.spaces).spaces
        rw [Address.normalize_normalize hst.spaces hb]
        exact congrArg (fun ts => (t.layout.spaces.substitute ts).2) hvw.2.symm
  · rename_i hno
    exact absurd h (hno _)

end Assembly

end Assembler
