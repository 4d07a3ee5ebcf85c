import Assembler.Proofs.Fault
import Assembler.Proofs.Parameter
/-!
Computations that meet no fault.

An expression over a parameter has a number or has to wait, whatever else is known (`Assembly.numeric_evaluate`). So
storage, scale and integer attributes that depend on a parameter never have a fault to report, nor have padding and
the starts of location counters (`Assembly.faultless_attempt`).
-/

namespace Assembler

open Assembly

/-! ## 1. Results of computations -/

namespace Evaluation

variable {α β : Type}

/-- Whether a computation has a result without a fault, or has to wait. -/
def Faultless (x : Evaluation α) : Prop := ∀ a fault, x ≠ fallback a fault

theorem faultless_resolved (a : α) : (resolved a).Faultless := fun _ _ h => nomatch h

theorem faultless_blocked (waiting : List Prerequisite) : (blocked waiting : Evaluation α).Faultless :=
  fun _ _ h => nomatch h

theorem Faultless.map {x : Evaluation α} (hx : x.Faultless) (f : α → β) : (x.map f).Faultless := by
  cases x with
  | resolved a => exact faultless_resolved _
  | blocked waiting => exact faultless_blocked _
  | fallback a fault => exact absurd rfl (hx a fault)

theorem Faultless.andThen {x : Evaluation α} (hx : x.Faultless) {instead : β} {f : α → Evaluation β}
    (hf : ∀ a, (f a).Faultless) : (x.andThen instead f).Faultless := by
  cases x with
  | resolved a => exact hf a
  | blocked waiting => exact faultless_blocked _
  | fallback a fault => exact absurd rfl (hx a fault)

theorem faultless_ofExcept (x : Except (List SpaceId) α) : (ofExcept x).Faultless := by
  cases x with
  | ok a => exact faultless_resolved a
  | error spaces => exact faultless_blocked _

/-- Whether a computation has a number as its result, or has to wait. -/
def Numeric (x : Evaluation Value) : Prop := (∃ n, x = resolved (.absolute n)) ∨ ∃ waiting, x = blocked waiting

theorem Numeric.toNumber {x : Evaluation Value} (hx : x.Numeric) : (x.andThen 0 Value.toNumber).Faultless := by
  rcases hx with ⟨n, rfl⟩ | ⟨waiting, rfl⟩
  · exact faultless_resolved n
  · exact faultless_blocked waiting

end Evaluation

open Evaluation

theorem Length.faultless_settled (l : Length) : l.settled.Faultless := by
  unfold settled
  split
  · exact faultless_resolved _
  · exact faultless_blocked _

/-! ## 2. Expressions over a parameter -/

namespace Assembly

variable {s : Assembly} {n : Name} {v : Int32} {label? : Option Name} {e : Expr}

theorem numeric_attributeOr (s : Assembly) (n : Name) (kind : AttributeKind) (v : Int32) :
    ((s.attributeOr n kind v).map Value.absolute).Numeric := by
  unfold attributeOr
  split
  · exact .inl ⟨v, rfl⟩
  · exact .inr ⟨_, rfl⟩

/-- Every symbol has a length attribute, known or not. -/
theorem numeric_length (s : Assembly) (l : Name) (f : Frame) :
    ((s.attributeOf .length (.symbol l) f).map Value.absolute).Numeric := by
  simp only [attributeOf]
  split
  · rename_i hkind
    exact absurd hkind (by decide)
  · split
    · simp only [symbolAttribute]
      split
      · exact .inl ⟨_, rfl⟩
      · exact numeric_attributeOr _ _ _ _
      · exact .inl ⟨_, rfl⟩
    · exact numeric_attributeOr _ _ _ _

theorem numeric_evaluateOpen (hset : s.Sets n v) (he : e.isOver n label?) (f : Frame) :
    (e.evaluateOpen s.scope f).Numeric := by
  induction e with
  | number k => exact .inl ⟨k, rfl⟩
  | counter => cases he
  | symbol m =>
    have hm : m = n := of_decide_eq_true he
    subst hm
    rw [Expr.evaluateOpen]
    cases hv : s.scope.value? m with
    | some w => exact .inl ⟨v, congrArg _ (hset w hv)⟩
    | none => exact .inr ⟨_, rfl⟩
  | attr kind operand =>
    cases operand with
    | variableSymbol m => cases he
    | symbol l =>
      rw [Expr.isOver, Bool.and_eq_true, decide_eq_true_eq] at he
      obtain ⟨rfl, -⟩ := he
      exact s.numeric_length l f
  | negate e ih =>
    rw [Expr.evaluateOpen]
    rcases ih he with ⟨x, heval⟩ | ⟨waiting, heval⟩
    · exact .inl ⟨-x, by rw [heval]; rfl⟩
    · exact .inr ⟨waiting, by rw [heval]; rfl⟩
  | binary op l r ihl ihr =>
    rw [Expr.isOver, Bool.and_eq_true] at he
    rw [Expr.evaluateOpen]
    rcases ihl he.1 with ⟨x, hl⟩ | ⟨ps, hl⟩ <;> rcases ihr he.2 with ⟨y, hr⟩ | ⟨qs, hr⟩ <;> rw [hl, hr]
    · exact .inl ⟨_, op.apply_absolute _ x y⟩
    · exact .inr ⟨_, rfl⟩
    · exact .inr ⟨_, rfl⟩
    · exact .inr ⟨_, rfl⟩

/-- An expression over a parameter is never at fault. -/
theorem numeric_evaluate (hset : s.Sets n v) (he : e.isOver n label?) (f : Frame) : (s.evaluate e f).Numeric := by
  rcases numeric_evaluateOpen hset he f with ⟨x, heval⟩ | ⟨waiting, heval⟩
  · exact .inl ⟨x, by rw [evaluate, Expr.evaluate, heval]; rfl⟩
  · exact .inr ⟨waiting, by rw [evaluate, Expr.evaluate, heval]⟩

theorem faultless_evaluateNumber (hset : s.Sets n v) (he : e.isOver n label?) (f : Frame) :
    (s.evaluateNumber e f).Faultless := (numeric_evaluate hset he f).toNumber

end Assembly

/-! ## 3. Jobs -/

/-- Whether a task is one that is never at fault, if a parameter has its number. -/
def Task.IsFaultless (n : Name) : Task → Prop
  | scale _ e => e.isOver n none
  | space _ (.storage e) => ∃ label?, e.isOver n label?
  | integer _ _ | space _ (.padding _ _ _) | space _ (.jumpToHighest _ _) | space _ (.counterStart _ _ _) => True
  | _ => False

namespace Assembly

variable {s : Assembly} {n : Name} {v : Int32} {job : Job}

theorem faultless_attemptInteger (s : Assembly) (n : Name) (type : DataType) : (s.attemptInteger n type).Faultless := by
  unfold attemptInteger
  split
  · exact faultless_resolved _
  · show (if List.isEmpty _ then _ else _ : Evaluation Int32).Faultless
    split
    · exact faultless_resolved _
    · exact faultless_blocked _

theorem faultless_attemptSpace (hset : s.Sets n v) {space : SpaceId} {rule : SpaceRule}
    (h : (Task.space space rule).IsFaultless n) (f : Frame) : (s.attemptSpace space rule f).Faultless := by
  cases rule with
  | storage e =>
    obtain ⟨label?, he⟩ := h
    exact (faultless_evaluateNumber hset he f).map _
  | padding position reference alignment => exact (Length.faultless_settled _).map _
  | jump target position boundary offset => exact h.elim
  | jumpToHighest candidates position => exact (faultless_ofExcept _).map _
  | counterStart candidates sectionStart alignment =>
    exact (faultless_ofExcept _).andThen fun _ => (Length.faultless_settled _).map _

theorem faultless_attempt (hset : s.Sets n v) (h : job.task.IsFaultless n) : (s.attempt job).Faultless := by
  obtain ⟨task, f⟩ := job
  cases task with
  | value m e => exact h.elim
  | length m e rule => exact h.elim
  | scale m e => exact (faultless_evaluateNumber hset h f).map _
  | integer m type => exact (s.faultless_attemptInteger m type).map _
  | space space rule => exact (faultless_attemptSpace hset h f).map _
  | check rule => exact h.elim

end Assembly

end Assembler
