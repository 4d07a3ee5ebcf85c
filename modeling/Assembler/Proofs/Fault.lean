import Assembler.Proofs.Attempt
/-!
Faults of computations.

Evaluating an expression or trying a job may meet a fault, but never finds that something depends on itself or that
a name is taken (`plain_evaluate`, `fault_attempt`). Cycles are found by looking at the pending work, and names when
symbols are entered. Only the jobs that compare a length with its range find it outside.
-/

namespace Assembler

theorem Fault.code_eq_cyclic {f : Fault} : f.code = Fault.cyclic.code ↔ f = .cyclic := by
  cases f <;> simp [code]

theorem Fault.ne_cyclic {f : Fault} (h : f.isComputed) : f ≠ .cyclic := by
  rintro rfl
  cases h

/-- Whether a fault can be met while an expression is evaluated. -/
def Fault.isOperand : Fault → Bool
  | attributeMisuse | unevaluable => true
  | unresolved kind _ => kind = "variable symbol"
  | _ => false

/-- Whether a fault can be met before a length is compared with its range. -/
def Fault.isEvaluated : Fault → Bool
  | cyclic | redefinition _ | lengthModifier _ _ _ => false
  | unresolved kind _ => kind = "variable symbol"
  | _ => true

theorem Fault.isEvaluated_of_isOperand {f : Fault} (h : f.isOperand) : f.isEvaluated := by
  cases f with
  | attributeMisuse | unevaluable => rfl
  | unresolved => exact h
  | _ => cases h

theorem Fault.isComputed_of_isEvaluated {f : Fault} (h : f.isEvaluated) : f.isComputed := by
  cases f with
  | cyclic | redefinition | lengthModifier => cases h
  | unresolved => exact h
  | _ => rfl

namespace Evaluation

variable {α β : Type} {P : Fault → Bool}

/-! ## 1. Results of computations -/

/-- Whether a fault, if there is one, is of a given kind. -/
def FaultsIn (P : Fault → Bool) (x : Evaluation α) : Prop := ∀ a fault, x = fallback a fault → P fault

/-- Whether a fault, if there is one, is met before a length is compared with its range. -/
abbrev Plain (x : Evaluation α) : Prop := x.FaultsIn Fault.isEvaluated

theorem Plain.computed {x : Evaluation α} (hx : x.Plain) {a : α} {fault : Fault} (h : x = fallback a fault) :
    fault.isComputed := Fault.isComputed_of_isEvaluated (hx a fault h)

theorem faultsIn_resolved (a : α) : (resolved a).FaultsIn P := fun _ _ h => nomatch h

theorem faultsIn_blocked (waiting : List Prerequisite) : (blocked waiting : Evaluation α).FaultsIn P :=
  fun _ _ h => nomatch h

theorem faultsIn_fallback {a : α} {fault : Fault} (hf : P fault) : (fallback a fault).FaultsIn P := by
  intro b fault' h
  cases h
  exact hf

theorem FaultsIn.map {x : Evaluation α} (hx : x.FaultsIn P) (f : α → β) : (x.map f).FaultsIn P := by
  cases x with
  | resolved a => exact faultsIn_resolved _
  | blocked waiting => exact faultsIn_blocked _
  | fallback a fault => exact faultsIn_fallback (hx a fault rfl)

theorem FaultsIn.both {x : Evaluation α} {y : Evaluation β} (hx : x.FaultsIn P) (hy : y.FaultsIn P) :
    (x.both y).FaultsIn P := by
  intro v fault h
  cases x with
  | resolved a =>
    cases y with
    | resolved b => cases h
    | blocked waiting => cases h
    | fallback b fault' => cases h; exact hy b _ rfl
  | blocked waiting => cases y <;> cases h
  | fallback a fault' =>
    cases y with
    | resolved b => cases h; exact hx a _ rfl
    | blocked waiting => cases h
    | fallback b fault'' => cases h; exact hx a _ rfl

theorem FaultsIn.andThen {x : Evaluation α} (hx : x.FaultsIn P) {instead : β} {f : α → Evaluation β}
    (hf : ∀ a, (f a).FaultsIn P) : (x.andThen instead f).FaultsIn P := by
  cases x with
  | resolved a => exact hf a
  | blocked waiting => exact faultsIn_blocked _
  | fallback a fault => exact faultsIn_fallback (hx a fault rfl)

theorem faultsIn_ofExcept (x : Except (List SpaceId) α) : (ofExcept x).FaultsIn P := by
  cases x with
  | ok a => exact faultsIn_resolved a
  | error spaces => exact faultsIn_blocked _

theorem FaultsIn.plain {x : Evaluation α} (hx : x.FaultsIn Fault.isOperand) : x.Plain := fun a fault h =>
  Fault.isEvaluated_of_isOperand (hx a fault h)

end Evaluation

open Evaluation

theorem Value.faultsIn_settle {P : Fault → Bool} (a : Spaces) (v : Value) : (v.settle a).FaultsIn P := by
  unfold settle
  split
  · exact faultsIn_resolved _
  · unfold Address.settled
    split
    · exact faultsIn_blocked _
    · exact faultsIn_resolved _

theorem Value.operand_toNumber (v : Value) : v.toNumber.FaultsIn Fault.isOperand := by
  cases v with
  | absolute n => exact faultsIn_resolved n
  | relocatable a => exact faultsIn_fallback rfl

theorem Length.faultsIn_settled {P : Fault → Bool} (l : Length) : l.settled.FaultsIn P := by
  unfold settled
  split
  · exact faultsIn_resolved _
  · exact faultsIn_blocked _

namespace Assembly

variable (s : Assembly)

/-! ## 2. Expressions -/

theorem operand_attributeOr (n : Name) (kind : AttributeKind) (v : Int32) :
    (s.attributeOr n kind v).FaultsIn Fault.isOperand := by
  unfold attributeOr
  split
  · exact faultsIn_resolved v
  · exact faultsIn_blocked _

theorem operand_slotAttribute (kind : AttributeKind) (n : Name) (slot : Slot Int32) :
    (s.slotAttribute kind n slot).FaultsIn Fault.isOperand := by
  cases slot with
  | known v => exact faultsIn_resolved v
  | pending => exact s.operand_attributeOr n kind 0
  | absent => exact faultsIn_fallback rfl

theorem operand_symbolAttribute (kind : AttributeKind) (sym : Symbol) (f : Frame) :
    (s.symbolAttribute kind sym f).FaultsIn Fault.isOperand := by
  cases kind with
  | type =>
    simp only [symbolAttribute]
    split <;> exact faultsIn_resolved _
  | length =>
    simp only [symbolAttribute]
    split
    · exact faultsIn_resolved _
    · exact s.operand_attributeOr _ _ _
    · exact faultsIn_resolved _
  | scale => exact s.operand_slotAttribute _ _ _
  | integer => exact s.operand_slotAttribute _ _ _
  | defined =>
    simp only [symbolAttribute]
    split
    · exact faultsIn_resolved _
    · split
      · exact faultsIn_resolved _
      · exact faultsIn_blocked _
  | count | number | opcode => exact faultsIn_fallback rfl

theorem operand_undefinedAttribute (kind : AttributeKind) (n : Name) :
    (s.undefinedAttribute kind n).FaultsIn Fault.isOperand := by
  cases kind with
  | length | type | scale | integer => exact s.operand_attributeOr _ _ _
  | defined => exact faultsIn_resolved 0
  | count | number | opcode => exact faultsIn_fallback rfl

theorem operand_opcodeAttribute (n : Name) : (s.opcodeAttribute n).FaultsIn Fault.isOperand := by
  unfold opcodeAttribute
  split
  · exact faultsIn_resolved _
  · split
    · exact faultsIn_resolved _
    · split
      · exact faultsIn_resolved _
      · exact s.operand_attributeOr _ _ _

theorem operand_variableAttribute (kind : AttributeKind) (n : Name) :
    (s.variableAttribute kind n).FaultsIn Fault.isOperand := by
  unfold variableAttribute
  split
  · exact faultsIn_fallback rfl
  · split
    · exact faultsIn_resolved _
    · exact faultsIn_resolved _
    · exact faultsIn_resolved _
    · exact faultsIn_fallback rfl

theorem operand_attributeOf (kind : AttributeKind) (operand : AttributeOperand) (f : Frame) :
    (s.attributeOf kind operand f).FaultsIn Fault.isOperand := by
  cases operand with
  | variableSymbol n => exact s.operand_variableAttribute kind n
  | symbol n =>
    simp only [attributeOf]
    split
    · exact s.operand_opcodeAttribute n
    · split
      · exact s.operand_symbolAttribute kind _ f
      · exact s.operand_undefinedAttribute kind n

theorem operand_evaluateOpen (e : Expr) (f : Frame) : (e.evaluateOpen s.scope f).FaultsIn Fault.isOperand := by
  induction e with
  | number n => exact faultsIn_resolved _
  | symbol n =>
    simp only [Expr.evaluateOpen]
    split
    · exact faultsIn_resolved _
    · exact faultsIn_blocked _
  | attr kind operand => exact (s.operand_attributeOf kind operand f).map _
  | counter =>
    simp only [Expr.evaluateOpen]
    split
    · exact faultsIn_resolved _
    · exact faultsIn_fallback rfl
  | negate e ih => exact ih.map _
  | binary op l r ihl ihr =>
    have factor : ∀ v : Value, (v.factor s.layout.spaces).FaultsIn Fault.isOperand := fun v =>
      (v.faultsIn_settle _).andThen Value.operand_toNumber
    refine (ihl.both ihr).andThen fun vw => ?_
    cases op with
    | add | sub => exact faultsIn_resolved _
    | mul | div => exact ((factor _).both (factor _)).map _

theorem operand_evaluate (e : Expr) (f : Frame) : (s.evaluate e f).FaultsIn Fault.isOperand := by
  have hopen := s.operand_evaluateOpen e f
  show (e.evaluate s.scope f).FaultsIn Fault.isOperand
  unfold Expr.evaluate
  split
  · exact Value.faultsIn_settle _ _
  · exact hopen

theorem operand_evaluateNumber (e : Expr) (f : Frame) : (s.evaluateNumber e f).FaultsIn Fault.isOperand :=
  (s.operand_evaluate e f).andThen Value.operand_toNumber

theorem plain_evaluate (e : Expr) (f : Frame) : (s.evaluate e f).Plain := (s.operand_evaluate e f).plain

theorem plain_evaluateNumber (e : Expr) (f : Frame) : (s.evaluateNumber e f).Plain :=
  (s.operand_evaluateNumber e f).plain

/-! ## 3. Jobs -/

theorem plain_attemptTarget (space : SpaceId) (target : Expr) (position : Address) (f : Frame) :
    (s.attemptTarget space target position f).Plain := by
  refine (s.plain_evaluate target f).andThen fun v => ?_
  cases v with
  | absolute n => exact faultsIn_fallback rfl
  | relocatable a =>
    dsimp only
    split
    · split
      · exact faultsIn_blocked _
      · exact faultsIn_resolved _
    · exact faultsIn_fallback rfl

theorem plain_attemptSpace (space : SpaceId) (rule : SpaceRule) (f : Frame) :
    (s.attemptSpace space rule f).Plain := by
  cases rule with
  | storage e => exact (s.plain_evaluateNumber e f).map _
  | padding position reference alignment => exact (Length.faultsIn_settled _).map _
  | jump target position boundary offset =>
    exact (s.plain_attemptTarget space target position f).andThen fun _ => (faultsIn_ofExcept _).map _
  | jumpToHighest candidates position => exact (faultsIn_ofExcept _).map _
  | counterStart candidates sectionStart alignment =>
    exact (faultsIn_ofExcept _).andThen fun _ => (Length.faultsIn_settled _).map _

theorem plain_notBelow (origin : Address) (target : Expr) (boundary : Nat) (offset : Int32) (f : Frame) :
    (s.attemptCheck (.notBelow origin target boundary offset) f).Plain := by
  simp only [attemptCheck]
  split
  · exact faultsIn_blocked _
  · split
    · refine (faultsIn_ofExcept _).andThen fun _ => (Length.faultsIn_settled _).andThen fun _ => ?_
      split
      · exact faultsIn_fallback rfl
      · exact faultsIn_resolved _
    · exact faultsIn_resolved _
  · exact faultsIn_resolved _

theorem fault_attemptCheck (rule : CheckRule) (f : Frame) {a : Unit} {fault : Fault}
    (h : s.attemptCheck rule f = .fallback a fault) : fault.isEvaluated ∨
      ∃ e type min max, rule = .lengthInRange e type min max ∧ fault = .lengthModifier type min max := by
  cases rule with
  | notBelow origin target boundary offset => exact .inl (s.plain_notBelow origin target boundary offset f _ _ h)
  | lengthInRange e type min max =>
    unfold attemptCheck at h
    dsimp only at h
    split at h
    · cases h
    · split at h
      · cases h
      · cases h
        exact .inr ⟨e, type, min, max, rfl, rfl⟩
    · cases h

theorem fault_attemptLength (e : Expr) (rule : LengthRule) (f : Frame) {k : Nat} {fault : Fault}
    (h : s.attemptLength e rule f = .fallback k fault) : fault.isOperand ∨ fault = rule.fault := by
  have hoperand := s.operand_evaluate e f
  unfold attemptLength at h
  cases heval : s.evaluate e f with
  | resolved v =>
    rw [heval] at h
    cases v with
    | absolute n =>
      dsimp only [Evaluation.andThen] at h
      split at h <;> cases h
      exact .inr rfl
    | relocatable x =>
      cases h
      exact .inr rfl
  | blocked waiting =>
    rw [heval] at h
    cases h
  | fallback v fault' =>
    rw [heval] at h
    cases h
    exact .inl (hoperand v _ heval)

theorem faultsIn_attemptInteger {P : Fault → Bool} (n : Name) (type : DataType) :
    (s.attemptInteger n type).FaultsIn P := by
  unfold attemptInteger
  split
  · exact faultsIn_resolved _
  · dsimp only
    generalize (_ ++ _ : List Prerequisite) = waiting
    split
    · exact faultsIn_resolved _
    · exact faultsIn_blocked _

theorem exists_of_map_eq_fallback {α β : Type} {x : Evaluation α} {g : α → β} {b : β} {fault : Fault}
    (h : x.map g = .fallback b fault) : ∃ a, x = .fallback a fault := by
  cases x with
  | resolved | blocked => cases h
  | fallback a other =>
    cases h
    exact ⟨a, rfl⟩

/-- A job that compares a length with its range may report that it is outside. -/
theorem fault_attempt {job : Job} {d : Definition} {fault : Fault} (h : s.attempt job = .fallback d fault) :
    fault.isEvaluated ∨ (∃ n e rule, job.task = .length n e rule ∧ fault = rule.fault) ∨
      ∃ e type min max, job.task = .check (.lengthInRange e type min max) ∧
        fault = .lengthModifier type min max := by
  unfold attempt at h
  split at h
  · exact .inl ((s.plain_evaluate _ _).map _ d fault h)
  · rename_i n e rule htask
    obtain ⟨k, hk⟩ := exists_of_map_eq_fallback h
    exact (s.fault_attemptLength e rule _ hk).imp Fault.isEvaluated_of_isOperand fun heq =>
      .inl ⟨n, e, rule, htask, heq⟩
  · exact .inl ((s.plain_evaluateNumber _ _).map _ d fault h)
  · exact .inl ((s.faultsIn_attemptInteger _ _).map _ d fault h)
  · exact .inl ((s.plain_attemptSpace _ _ _).map _ d fault h)
  · rename_i rule htask
    obtain ⟨a, ha⟩ := exists_of_map_eq_fallback h
    refine (s.fault_attemptCheck rule _ ha).imp_right fun ⟨e, type, min, max, hrule, heq⟩ => .inr ?_
    exact ⟨e, type, min, max, hrule ▸ htask, heq⟩

/-- The range of a length brings its own fault, which is not a cycle either. -/
theorem fault_attempt_ne_cyclic {a : Spaces} {job : Job} (hj : job.Scoped a) :
    ∀ d fault, s.attempt job = .fallback d fault → fault ≠ .cyclic := by
  intro d fault h
  have ht := hj.task
  rcases s.fault_attempt h with hplain | ⟨n, e, rule, htask, rfl⟩ | ⟨_, _, _, _, -, rfl⟩
  · exact Fault.ne_cyclic (Fault.isComputed_of_isEvaluated hplain)
  · rw [htask] at ht
    exact ht
  · exact Fault.noConfusion

end Assembly

end Assembler
