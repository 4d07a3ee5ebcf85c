import Assembler.Proofs.Stability
/-!
Results of evaluation in later states.

An expression of numbers, symbols, the location counter and length, scale and integer attributes keeps its
result once it has one, as long as the attributes that it asks for are known. Its value is the same, with the
lengths put in that have become known in between (`Assembly.evaluate_later`), or its fault is the same
(`Assembly.fault_later`). So a check of such an expression has the same outcome, too
(`Assembly.attemptCheck_later`).

Before the end of the source an expression with a result asks only for attributes that are known
(`Assembly.informs_of_evaluate`). After that a missing attribute counts as a default, and the value that it
may still get is another.
-/

namespace Assembler

/-- Whether an expression asks for no attributes but length, scale and integer attributes of symbols. -/
def Expr.isPlain : Expr → Bool
  | .attr kind (.symbol _) => kind = .length || kind = .scale || kind = .integer
  | .attr _ (.variableSymbol _) => false
  | .negate e => e.isPlain
  | .binary _ l r => l.isPlain && r.isPlain
  | .number _ | .symbol _ | .counter => true

namespace Assembly

variable {s t : Assembly}

/-! ## 1. Known attributes -/

/-- Whether the attributes that an expression asks for are known. -/
def Informs (s : Assembly) : Expr → Prop
  | .attr kind (.symbol n) => ¬ s.Lacks (.attr n kind)
  | .negate e => s.Informs e
  | .binary _ l r => s.Informs l ∧ s.Informs r
  | _ => True

/-- What is lacking later was lacking before. -/
theorem Lacks.of_later (hst : s.Earlier t) {key : Prerequisite} (h : t.Lacks key) :
    s.Lacks key := by
  -- A slot that is pending later has been so before.
  have slot : ∀ {α : Type} (pick : SymbolAttributes → Slot α) (n : Name),
      (∀ sym later : Symbol, sym.Earlier later →
        (pick sym.attributes).Earlier (pick later.attributes)) →
      (∀ later, t.symbols.get? n = some later → pick later.attributes = .pending) →
      ∀ sym, s.symbols.get? n = some sym → pick sym.attributes = .pending := by
    intro α pick n hpick hpending sym hsym
    obtain ⟨later, hlater, hle⟩ := hst.symbols n sym hsym
    rcases hpick sym later hle with hp | heq
    · exact hp
    · exact heq.symm.trans (hpending later hlater)
  cases key with
  | symbol n =>
    intro sym hsym
    obtain ⟨later, hlater, hle⟩ := hst.symbols n sym hsym
    rcases hle.value with hv | hv
    · exact hv
    · exact hv.symm.trans (h later hlater)
  | space space => exact fun hres => h (hst.spaces.isResolved hres)
  | attr n kind =>
    cases kind with
    | length => exact slot (·.length) n (fun _ _ hle => hle.length) h
    | scale => exact slot (·.scale) n (fun _ _ hle => hle.scale) h
    | integer => exact slot (·.integer) n (fun _ _ hle => hle.integer) h
    | type =>
      refine Classical.byContradiction fun hne => ?_
      obtain ⟨sym, hsym⟩ := Option.ne_none_iff_exists'.mp hne
      obtain ⟨later, hlater, -⟩ := hst.symbols n sym hsym
      rw [show t.symbols.get? n = none from h] at hlater
      cases hlater
    | opcode =>
      refine ⟨Classical.byContradiction fun hne => ?_, h.2⟩
      have hsome := hst.macros n (Option.isSome_iff_ne_none.mpr hne)
      rw [h.1] at hsome
      cases hsome
    | count | number | defined => exact h

theorem Informs.later (hst : s.Earlier t) {e : Expr} (h : s.Informs e) : t.Informs e := by
  induction e with
  | number | symbol | counter => trivial
  | attr kind operand =>
    cases operand with
    | symbol n => exact fun hlack => h (hlack.of_later hst)
    | variableSymbol n => trivial
  | negate e ih => exact ih h
  | binary op l r ihl ihr => exact ⟨ihl h.1, ihr h.2⟩

/-- An attribute slot that is filled in or absent is not waited for. -/
theorem slotAttribute_eq {kind : AttributeKind} {n m : Name} {slot : Slot Int32}
    (hne : slot ≠ .pending) : t.slotAttribute kind n slot = s.slotAttribute kind m slot := by
  cases slot with
  | pending => exact absurd rfl hne
  | known | absent => rfl

/-- An attribute that is known stays what it is. -/
theorem attributeOf_later (hst : s.Earlier t) {kind : AttributeKind} {n : Name} {f : Frame}
    (hkind : kind = .length ∨ kind = .scale ∨ kind = .integer)
    (hknown : ¬ s.Lacks (.attr n kind)) :
    t.attributeOf kind (.symbol n) f = s.attributeOf kind (.symbol n) f := by
  rcases hkind with rfl | rfl | rfl
  all_goals
    simp only [Lacks, Classical.not_forall] at hknown
    obtain ⟨sym, hsym, hne⟩ := hknown
    obtain ⟨later, hlater, hle⟩ := hst.symbols n sym hsym
    simp only [attributeOf, reduceCtorEq, if_false, hsym, hlater, symbolAttribute]
  · rw [hle.length.resolve_left hne]
    cases hslot : sym.attributes.length with
    | pending => exact absurd hslot hne
    | known | absent => rfl
  · rw [hle.scale.resolve_left hne]
    exact slotAttribute_eq hne
  · rw [hle.integer.resolve_left hne]
    exact slotAttribute_eq hne

/-! ## 2. Values in later states -/

section Values

variable {a b : Spaces} (hab : a.Earlier b) (ha : a.Acyclic) (hb : b.Acyclic)

include hab ha hb

/-- A number stays the same number, and an address stays an address. -/
theorem factor_later (v : Value) : (v.factor a).IsBlocked ∨ v.factor b = v.factor a := by
  cases v with
  | absolute n => exact .inr rfl
  | relocatable x =>
    unfold Value.factor
    simp only [Value.settle_relocatable, Address.settled, Address.isAbsolute_normalize]
    by_cases habs : x.isAbsolute
    · by_cases hempty : (x.normalize a).spaces.isEmpty
      · rw [Address.normalize_eq_of_isEmpty hab ha hb hempty]
        exact .inr rfl
      · rw [if_neg fun hand => hempty hand.2, if_pos habs]
        exact .inl ⟨_, rfl⟩
    · rw [if_neg fun hand => habs hand.1, if_neg habs, if_neg fun hand => habs hand.1, if_neg habs]
      simp only [Evaluation.andThen, Value.toNumber, or_true]

theorem apply_later (op : Operator) (v w : Value) :
    (op.apply a v w).IsBlocked ∨ op.apply b v w = op.apply a v w := by
  have factors : ((v.factor a).both (w.factor a)).IsBlocked ∨
      (v.factor b).both (w.factor b) = (v.factor a).both (w.factor a) := by
    rcases factor_later hab ha hb v with hv | hv
    · exact .inl (hv.both_left _)
    rcases factor_later hab ha hb w with hw | hw
    · exact .inl (hw.both_right _)
    · rw [hv, hw]
      exact .inr rfl
  cases op with
  | add | sub => exact .inr rfl
  | mul | div =>
    rcases factors with hblocked | heq
    · exact .inl (Evaluation.isBlocked_map.mpr hblocked)
    · exact .inr (congrArg (Evaluation.map _) heq)

theorem settle_later {v w : Value} (h : v.settle a = .resolved w) :
    v.settle b = .resolved (w.normalize b) := by
  rcases Value.settle_eq_resolved h with ⟨n, rfl, rfl⟩ | ⟨x, rfl, hempty, rfl⟩
  · rfl
  simp only [Value.settle_relocatable, Address.settled, Address.isAbsolute_normalize]
  by_cases habs : x.isAbsolute
  · rw [Address.normalize_eq_of_isEmpty hab ha hb (hempty habs), if_pos ⟨habs, hempty habs⟩,
      if_pos habs]
    rfl
  · rw [if_neg fun hand => habs hand.1, if_neg habs, if_neg habs, Value.normalize,
      Address.normalize_normalize hab hb x]

end Values

/-! ## 3. Expressions in later states -/

variable (hst : s.Earlier t) (ha : s.layout.spaces.Acyclic) (hb : t.layout.spaces.Acyclic)

include hst ha hb

theorem evaluateOpen_later {e : Expr} {f : Frame} (he : e.isPlain) (h : s.Informs e) :
    (e.evaluateOpen s.scope f).IsBlocked ∨
      e.evaluateOpen t.scope f = e.evaluateOpen s.scope f := by
  induction e with
  | number | counter => simp only [Expr.evaluateOpen, or_true]
  | symbol n =>
    simp only [Expr.evaluateOpen]
    cases hv : s.scope.value? n with
    | none => exact .inl ⟨_, rfl⟩
    | some v =>
      obtain ⟨sym, hsym, hval⟩ := Option.bind_eq_some_iff.mp hv
      obtain ⟨later, hlater, hle⟩ := hst.symbols n sym hsym
      rw [show t.scope.value? n = some v from Option.bind_eq_some_iff.mpr ⟨later, hlater, hle.value_eq hval⟩]
      exact .inr rfl
  | attr kind operand =>
    cases operand with
    | symbol n =>
      have hkind : kind = .length ∨ kind = .scale ∨ kind = .integer := by
        simpa [Expr.isPlain, or_assoc] using he
      simp only [Expr.evaluateOpen, scope, attributeOf_later hst hkind h, or_true]
    | variableSymbol n => cases he
  | negate e ih =>
    rcases ih he h with hblocked | heq
    · exact .inl (Evaluation.isBlocked_map.mpr hblocked)
    · exact .inr (congrArg (Evaluation.map _) heq)
  | binary op l r ihl ihr =>
    obtain ⟨hel, her⟩ := Bool.and_eq_true_iff.mp he
    rcases ihl hel h.1 with hblocked | hl
    · exact .inl ((hblocked.both_left _).andThen _ _)
    rcases ihr her h.2 with hblocked | hr
    · exact .inl ((hblocked.both_right _).andThen _ _)
    simp only [Expr.evaluateOpen, hl, hr]
    cases (l.evaluateOpen s.scope f).both (r.evaluateOpen s.scope f) with
    | resolved vw =>
      obtain ⟨v, w⟩ := vw
      exact apply_later hst.spaces ha hb op v w
    | blocked waiting => exact .inl ⟨waiting, rfl⟩
    | fallback vw fault => simp only [Evaluation.andThen, or_true]

/-- The value of an expression is the same later, except for the lengths that are put in. -/
theorem evaluate_later {e : Expr} {f : Frame} {v : Value} (he : e.isPlain) (hknown : s.Informs e)
    (h : s.evaluate e f = .resolved v) :
    t.evaluate e f = .resolved (v.normalize t.layout.spaces) := by
  simp only [evaluate, Expr.evaluate] at h ⊢
  split at h
  · rename_i w hw
    rcases evaluateOpen_later hst ha hb (f := f) he hknown with ⟨waiting, hblocked⟩ | heq
    · rw [hblocked] at hw
      cases hw
    · rw [heq, hw]
      exact settle_later hst.spaces ha hb h
  · rename_i hno
    exact absurd h (hno v)

/-- The fault of an expression is the same later. -/
theorem fault_later {e : Expr} {f : Frame} {v : Value} {fault : Fault} (he : e.isPlain)
    (hknown : s.Informs e) (h : s.evaluate e f = .fallback v fault) :
    t.evaluate e f = .fallback v fault := by
  simp only [evaluate, Expr.evaluate] at h ⊢
  split at h
  · rename_i w hw
    -- A value may have to wait, but it has no fault.
    unfold Value.settle Address.settled at h
    split at h
    · cases h
    · split at h <;> cases h
  · rcases evaluateOpen_later hst ha hb (f := f) he hknown with ⟨waiting, hblocked⟩ | heq
    · rw [hblocked] at h
      cases h
    · rw [heq, h]

omit hst ha hb

/-! ## 4. What is known when an expression has a result -/

/-- Before the end of the source, what has a result asks only for attributes that are known. -/
theorem informs_of_evaluateOpen (hn : s.Named) (hfin : s.finished = false) {e : Expr} {f : Frame}
    (he : e.isPlain) (h : ¬ (e.evaluateOpen s.scope f).IsBlocked) : s.Informs e := by
  induction e with
  | number | symbol | counter => trivial
  | attr kind operand =>
    cases operand with
    | variableSymbol n => trivial
    | symbol n =>
      intro hlack
      have hkind : kind = .length ∨ kind = .scale ∨ kind = .integer := by
        simpa [Expr.isPlain, or_assoc] using he
      have hawaits : s.Awaits n kind := by
        rcases hkind with rfl | rfl | rfl <;> exact hlack
      have hblocked : s.attributeOf kind (.symbol n) f = .blocked [awaited n kind] :=
        (attributeOf_eq_blocked hn).mpr ⟨n, rfl, hfin, hawaits, rfl⟩
      exact h (Evaluation.isBlocked_map.mpr ⟨_, hblocked⟩)
  | negate e ih => exact ih he fun hblocked => h (Evaluation.isBlocked_map.mpr hblocked)
  | binary op l r ihl ihr =>
    obtain ⟨hel, her⟩ := Bool.and_eq_true_iff.mp he
    exact ⟨ihl hel fun hblocked => h ((hblocked.both_left _).andThen _ _),
      ihr her fun hblocked => h ((hblocked.both_right _).andThen _ _)⟩

theorem informs_of_evaluate (hn : s.Named) (hfin : s.finished = false) {e : Expr} {f : Frame}
    (he : e.isPlain) (h : ¬ (s.evaluate e f).IsBlocked) : s.Informs e := by
  refine informs_of_evaluateOpen (f := f) hn hfin he fun ⟨waiting, hblocked⟩ => h ⟨waiting, ?_⟩
  simp only [evaluate, Expr.evaluate, hblocked]

/-- What has a result refers to no attribute that a symbol does not have. -/
theorem misuses_of_evaluateOpen {e : Expr} {f : Frame} {v : Value}
    (h : e.evaluateOpen s.scope f = .resolved v) : s.misuses e = false := by
  induction e generalizing v with
  | number | symbol | counter => rfl
  | attr kind operand =>
    cases operand with
    | variableSymbol n => rfl
    | symbol n =>
      obtain ⟨k, hk, -⟩ := Evaluation.map_eq_resolved.mp h
      have hno : ¬ (s.attributeOf kind (.symbol n) f).IsFault := by
        have hk : s.attributeOf kind (.symbol n) f = .resolved k := hk
        rw [hk]
        rintro ⟨_, _, hfault⟩
        cases hfault
      rw [isFault_attributeOf, not_or, not_or] at hno
      exact Bool.eq_false_iff.mpr hno.2.2
  | negate e ih =>
    obtain ⟨w, hw, -⟩ := Evaluation.map_eq_resolved.mp h
    exact ih hw
  | binary op l r ihl ihr =>
    obtain ⟨⟨v, w⟩, hvw, -⟩ := Evaluation.andThen_eq_resolved.mp h
    obtain ⟨hv, hw⟩ := Evaluation.both_eq_resolved.mp hvw
    rw [misuses, ihl hv, ihr hw]
    rfl

theorem misuses_of_evaluate {e : Expr} {f : Frame} {v : Value}
    (h : s.evaluate e f = .resolved v) : s.misuses e = false := by
  simp only [evaluate, Expr.evaluate] at h
  split at h
  · rename_i w hw
    exact misuses_of_evaluateOpen hw
  · rename_i hno
    exact absurd h (hno v)

end Assembly

/-! ## 5. Checks in later states -/

/-- The expression that a check evaluates. -/
def CheckRule.expr : CheckRule → Expr
  | .notBelow _ target _ _ => target
  | .lengthInRange e _ _ _ => e

namespace Assembly

variable {s t : Assembly}

theorem evaluateNumber_eq (s : Assembly) (e : Expr) (f : Frame) :
    s.evaluateNumber e f = (s.evaluate e f).andThen 0 Value.toNumber := rfl

/-- A check waits as long as its expression does. -/
theorem isBlocked_attemptCheck_of_evaluate {rule : CheckRule} {f : Frame}
    (h : (s.evaluate rule.expr f).IsBlocked) : (s.attemptCheck rule f).IsBlocked := by
  obtain ⟨waiting, hwaiting⟩ := h
  cases rule with
  | notBelow origin target boundary offset =>
    have hwaiting : s.evaluate target f = .blocked waiting := hwaiting
    exact ⟨waiting, by simp only [attemptCheck, hwaiting]⟩
  | lengthInRange e type min max =>
    have hwaiting : s.evaluate e f = .blocked waiting := hwaiting
    exact ⟨waiting, by simp only [attemptCheck, evaluateNumber_eq, hwaiting, Evaluation.andThen]⟩

/-- Before the end of the source, a check that can be made asks only for attributes that are known. -/
theorem informs_of_attemptCheck (hn : s.Named) (hfin : s.finished = false) {rule : CheckRule}
    {f : Frame} (he : rule.expr.isPlain) (h : ¬ (s.attemptCheck rule f).IsBlocked) :
    s.Informs rule.expr :=
  informs_of_evaluate hn hfin he fun hblocked => h (isBlocked_attemptCheck_of_evaluate hblocked)

/-- A check that can be made has the same outcome later. -/
theorem attemptCheck_later (hst : s.Earlier t) (ha : s.layout.spaces.Acyclic)
    (hb : t.layout.spaces.Acyclic) {rule : CheckRule} {f : Frame} (he : rule.expr.isPlain)
    (hknown : s.Informs rule.expr) :
    (s.attemptCheck rule f).IsBlocked ∨ t.attemptCheck rule f = s.attemptCheck rule f := by
  cases heval : s.evaluate rule.expr f with
  | blocked waiting => exact .inl (isBlocked_attemptCheck_of_evaluate ⟨waiting, heval⟩)
  | fallback v fault =>
    have hlater := fault_later hst ha hb he hknown heval
    refine .inr ?_
    cases rule with
    | notBelow origin target boundary offset =>
      simp only [attemptCheck, show s.evaluate target f = .fallback v fault from heval,
        show t.evaluate target f = .fallback v fault from hlater]
    | lengthInRange e type min max =>
      simp only [attemptCheck, evaluateNumber_eq,
        show s.evaluate e f = .fallback v fault from heval,
        show t.evaluate e f = .fallback v fault from hlater]
  | resolved v =>
    have hlater := evaluate_later hst ha hb he hknown heval
    cases rule with
    | notBelow origin target boundary offset =>
      have heval : s.evaluate target f = .resolved v := heval
      have hlater : t.evaluate target f = .resolved (v.normalize t.layout.spaces) := hlater
      cases v with
      | absolute n => exact .inr (by simp only [attemptCheck, heval, hlater, Value.normalize])
      | relocatable x =>
        simp only [attemptCheck, heval, hlater, Value.normalize]
        -- Known lengths change no bases, so both places are compared with the origin, or neither is.
        by_cases hbases : x.bases = origin.bases
        · have hbases' : (x.normalize t.layout.spaces).bases = origin.bases := hbases
          rw [if_pos hbases, if_pos hbases']
          cases hup : x.roundUp s.layout.spaces boundary with
          | error spaces => exact .inl ⟨_, rfl⟩
          | ok place =>
            rw [Address.roundUp_later hst.spaces ha hb hup]
            simp only [Evaluation.ofExcept, Evaluation.andThen]
            by_cases hempty :
                (Length.between s.layout.spaces (place.addOffset offset) origin).spaces = []
            · rw [Address.between_later hst.spaces ha hb hempty]
              exact .inr rfl
            · refine .inl ?_
              rw [Length.settled, if_neg fun h => hempty (List.isEmpty_iff.mp h)]
              exact ⟨_, rfl⟩
        · have hbases' : (x.normalize t.layout.spaces).bases ≠ origin.bases := hbases
          rw [if_neg hbases, if_neg hbases']
          exact .inr rfl
    | lengthInRange e type min max =>
      have heval : s.evaluate e f = .resolved v := heval
      have hlater : t.evaluate e f = .resolved (v.normalize t.layout.spaces) := hlater
      refine .inr ?_
      cases v <;> simp only [attemptCheck, evaluateNumber_eq, heval, hlater, Evaluation.andThen,
        Value.normalize, Value.toNumber]

/-- A check that fails has a value to check. -/
theorem exists_of_attemptCheck_eq_fallback {rule : CheckRule} {f : Frame} {fault : Fault}
    (h : s.attemptCheck rule f = .fallback () fault) :
    ∃ v, s.evaluate rule.expr f = .resolved v := by
  cases rule with
  | notBelow origin target boundary offset =>
    simp only [attemptCheck] at h
    split at h
    · cases h
    · exact ⟨_, ‹_›⟩
    · cases h
  | lengthInRange e type min max =>
    simp only [attemptCheck] at h
    split at h
    · cases h
    · obtain ⟨v, hv, -⟩ := Evaluation.andThen_eq_resolved.mp ‹_›
      exact ⟨v, hv⟩
    · cases h

end Assembly

end Assembler
