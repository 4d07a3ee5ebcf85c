import Assembler.Proofs.Evaluation
import Assembler.Assembly.Equate
/-!
Equations between names, and the arithmetic of their expressions.

An equation gives a name the value of an expression in numbers and names, with signs and the four
operators. `Expr.compute?` is the value as arithmetic has it: on integers, cut to 32 bits after every
step. As long as all values are numbers, evaluation finds this value once all names in the expression
have one (`evaluate_of_compute?`), and waits for those that have none before that
(`evaluate_of_lacking`).
-/

namespace Assembler

/-! ## 1. Equations -/

/-- EQU with a name field and nothing but a value. -/
structure Equation where
  label : Name
  value : Expr
  location : Location := {}
deriving DecidableEq

namespace Equation

def statement (e : Equation) : Statement :=
  ⟨some e.label, .ofString "EQU", .equ (some e.value) none none, e.location⟩

/-- The job that gives the label its value. -/
def job (e : Equation) : Job := ⟨.value e.label e.value, e.statement.frame⟩

/-- The label as it is entered, before it has a value. -/
def symbol (e : Equation) (length : Nat) : Symbol :=
  ⟨e.label, none, { origin := .equ, type := Ebcdic.encode 'U', length := .known length }, e.location⟩

end Equation

/-! ## 2. Arithmetic -/

/-- What an operator makes of two integers. A quotient is rounded toward zero, and it is zero if the
divisor is. -/
def Operator.exact : Operator → Int → Int → Int
  | add, x, y => x + y
  | sub, x, y => x - y
  | mul, x, y => x * y
  | div, x, y => x.tdiv y

/-- Operators compute with integers and cut the result. -/
theorem Operator.apply_absolute (op : Operator) (a : Spaces) (x y : Int32) :
    op.apply a (.absolute x) (.absolute y) =
      .resolved (.absolute (Int32.ofInt (op.exact x.toInt y.toInt))) := by
  cases op with
  | add =>
    show Evaluation.resolved (Value.absolute (x + y)) = _
    rw [exact, Int32.ofInt_add, Int32.ofInt_toInt, Int32.ofInt_toInt]
  | sub =>
    show Evaluation.resolved (Value.absolute (x - y)) = _
    rw [exact, Int32.ofInt_sub, Int32.ofInt_toInt, Int32.ofInt_toInt]
  | mul =>
    show Evaluation.resolved (Value.absolute (x * y)) = _
    rw [exact, Int32.ofInt_mul, Int32.ofInt_toInt, Int32.ofInt_toInt]
  | div =>
    show Evaluation.resolved (Value.absolute (x / y)) = _
    rw [exact, (Int32.ofInt_eq_iff_bmod_eq_toInt _ _).mpr (Int32.toInt_div x y).symm]

namespace Expr

/-- Whether an expression consists of numbers, names, signs and operators. -/
def isArithmetic : Expr → Bool
  | number _ | symbol _ => true
  | attr _ _ | counter => false
  | negate e => e.isArithmetic
  | binary _ l r => l.isArithmetic && r.isArithmetic

/-- The value of an expression, if all names in it have values. -/
def compute? (number? : Name → Option Int32) : Expr → Option Int32
  | number n => some n
  | symbol n => number? n
  | attr _ _ | counter => none
  | negate e => (e.compute? number?).map fun x => Int32.ofInt (-x.toInt)
  | binary op l r =>
    (l.compute? number?).bind fun x =>
      (r.compute? number?).map fun y => Int32.ofInt (op.exact x.toInt y.toInt)

variable {e : Expr} {f g : Name → Option Int32}

theorem usesCounter_of_isArithmetic (he : e.isArithmetic) : e.usesCounter = false := by
  induction e with
  | number | symbol => rfl
  | attr | counter => cases he
  | negate e ih => exact ih he
  | binary op l r ihl ihr =>
    rw [isArithmetic, Bool.and_eq_true] at he
    rw [usesCounter, ihl he.1, ihr he.2]
    rfl

/-- Only the names in an expression matter for its value. -/
theorem compute?_congr (h : ∀ n ∈ e.symbolTerms, f n = g n) : e.compute? f = e.compute? g := by
  induction e with
  | number | attr | counter => rfl
  | symbol n => exact h n List.mem_cons_self
  | negate e ih => rw [compute?, compute?, ih h]
  | binary op l r ihl ihr =>
    rw [compute?, compute?, ihl fun n hn => h n (List.mem_append_left _ hn),
      ihr fun n hn => h n (List.mem_append_right _ hn)]

/-- An expression with a value has values for its names. -/
theorem exists_of_compute? {v : Int32} (h : e.compute? f = some v) :
    ∀ n ∈ e.symbolTerms, ∃ k, f n = some k := by
  induction e generalizing v with
  | number | attr | counter => exact fun _ hn => absurd hn List.not_mem_nil
  | symbol n =>
    intro m hm
    rw [List.mem_singleton.mp hm]
    exact ⟨v, h⟩
  | negate e ih =>
    obtain ⟨x, hx, -⟩ := Option.map_eq_some_iff.mp h
    exact ih hx
  | binary op l r ihl ihr =>
    obtain ⟨x, hx, hy⟩ := Option.bind_eq_some_iff.mp h
    obtain ⟨y, hy, -⟩ := Option.map_eq_some_iff.mp hy
    intro n hn
    rcases List.mem_append.mp hn with hn | hn
    · exact ihl hx n hn
    · exact ihr hy n hn

/-- Further values of names change nothing. -/
theorem compute?_mono {v : Int32} (h : e.compute? f = some v)
    (hfg : ∀ n k, f n = some k → g n = some k) : e.compute? g = some v := by
  rw [← h]
  apply compute?_congr
  intro n hn
  obtain ⟨k, hk⟩ := exists_of_compute? h n hn
  rw [hk]
  exact hfg n k hk

end Expr

/-! ## 3. Evaluation -/

namespace Assembly

variable {s : Assembly} {e : Expr} {f : Frame}

/-- The value of a name, if it is a number. -/
def number? (s : Assembly) (n : Name) : Option Int32 :=
  match (s.symbols.get? n).bind (·.value?) with
  | some (.absolute v) => some v
  | _ => none

/-- Whether all values are numbers. -/
def Numeric (s : Assembly) : Prop :=
  ∀ n v, (s.symbols.get? n).bind (·.value?) = some v → ∃ k, v = .absolute k

/-- What an expression lacks: the names in it that have no value. -/
def Wants (s : Assembly) (e : Expr) (q : Prerequisite) : Prop :=
  ∃ n ∈ e.symbolTerms, s.number? n = none ∧ q = .symbol n

theorem number?_eq_some {n : Name} {v : Int32} :
    s.number? n = some v ↔ (s.symbols.get? n).bind (·.value?) = some (.absolute v) := by
  unfold number?
  split
  · rename_i k hk
    rw [hk]
    simp
  · rename_i hno
    exact ⟨nofun, fun h => absurd h (hno v)⟩

theorem number?_eq_none (hs : s.Numeric) {n : Name} :
    s.number? n = none ↔ (s.symbols.get? n).bind (·.value?) = none := by
  cases hv : (s.symbols.get? n).bind (·.value?) with
  | none => simp [number?, hv]
  | some v =>
    obtain ⟨k, rfl⟩ := hs n v hv
    simp [number?_eq_some.mpr hv]

/-- An expression with a value wants nothing. -/
theorem not_wants_of_compute? {v : Int32} (h : e.compute? s.number? = some v) (q : Prerequisite) : ¬ s.Wants e q := by
  rintro ⟨n, hn, hnone, -⟩
  obtain ⟨k, hk⟩ := Expr.exists_of_compute? h n hn
  rw [hnone] at hk
  cases hk

/-- What both sides want together is what one of them wants. -/
theorem wants_binary {op : Operator} {l r : Expr} {q : Prerequisite} :
    s.Wants (.binary op l r) q ↔ s.Wants l q ∨ s.Wants r q := by
  simp only [Wants, Expr.symbolTerms, List.mem_append, or_and_right, exists_or]

/-- Further values of names only leave less to be wanted. -/
theorem Wants.of_mono {t : Assembly} {q : Prerequisite} (h : t.Wants e q)
    (hmono : ∀ n k, s.number? n = some k → t.number? n = some k) : s.Wants e q := by
  obtain ⟨n, hn, hnone, rfl⟩ := h
  refine ⟨n, hn, Option.eq_none_iff_forall_ne_some.mpr fun k hk => ?_, rfl⟩
  rw [hmono n k hk] at hnone
  cases hnone

/-- Without the lengths of spaces, an expression has its value or wants some names. -/
theorem evaluateOpen_cases (hs : s.Numeric) (he : e.isArithmetic) (f : Frame) :
    (∃ v, e.compute? s.number? = some v ∧ e.evaluateOpen s.scope f = .resolved (.absolute v)) ∨
      e.compute? s.number? = none ∧ ∃ waiting, e.evaluateOpen s.scope f = .blocked waiting ∧
        ∀ q, q ∈ waiting ↔ s.Wants e q := by
  induction e with
  | number n => exact .inl ⟨n, rfl, rfl⟩
  | symbol n =>
    cases hv : s.number? n with
    | some v =>
      have hscope : s.scope.value? n = some (.absolute v) := number?_eq_some.mp hv
      exact .inl ⟨v, hv, by rw [Expr.evaluateOpen, hscope]⟩
    | none =>
      have hscope : s.scope.value? n = none := (number?_eq_none hs).mp hv
      refine .inr ⟨hv, [.symbol n], by rw [Expr.evaluateOpen, hscope], fun q => ?_⟩
      rw [List.mem_singleton]
      constructor
      · rintro rfl
        exact ⟨n, List.mem_cons_self, hv, rfl⟩
      · rintro ⟨m, hm, -, rfl⟩
        rw [List.mem_singleton.mp hm]
  | attr | counter => cases he
  | negate e ih =>
    rcases ih he with ⟨v, hv, heval⟩ | ⟨hnone, waiting, heval, hmem⟩
    · refine .inl ⟨Int32.ofInt (-v.toInt), by rw [Expr.compute?, hv]; rfl, ?_⟩
      rw [Expr.evaluateOpen, heval, Int32.ofInt_neg, Int32.ofInt_toInt]
      rfl
    · refine .inr ⟨by rw [Expr.compute?, hnone]; rfl, waiting, ?_, hmem⟩
      rw [Expr.evaluateOpen, heval]
      rfl
  | binary op l r ihl ihr =>
    rw [Expr.isArithmetic, Bool.and_eq_true] at he
    rcases ihl he.1 with ⟨x, hx, hl⟩ | ⟨hx, ps, hl, hps⟩ <;>
      rcases ihr he.2 with ⟨y, hy, hr⟩ | ⟨hy, qs, hr, hqs⟩
    · refine .inl ⟨_, by rw [Expr.compute?, hx, hy]; rfl, ?_⟩
      rw [Expr.evaluateOpen, hl, hr]
      exact op.apply_absolute _ x y
    · refine .inr ⟨by rw [Expr.compute?, hx, hy]; rfl, qs, by rw [Expr.evaluateOpen, hl, hr]; rfl, fun q => ?_⟩
      rw [wants_binary, hqs]
      exact (or_iff_right (not_wants_of_compute? hx q)).symm
    · refine .inr ⟨by rw [Expr.compute?, hx]; rfl, ps, by rw [Expr.evaluateOpen, hl, hr]; rfl, fun q => ?_⟩
      rw [wants_binary, hps]
      exact (or_iff_left (not_wants_of_compute? hy q)).symm
    · refine .inr ⟨by rw [Expr.compute?, hx]; rfl, _, by rw [Expr.evaluateOpen, hl, hr]; rfl, fun q => ?_⟩
      rw [wants_binary, Evaluation.mem_union, hps, hqs]

theorem evaluate_of_compute? (hs : s.Numeric) (he : e.isArithmetic) {v : Int32}
    (h : e.compute? s.number? = some v) : s.evaluate e f = .resolved (.absolute v) := by
  rcases evaluateOpen_cases hs he f with ⟨w, hw, heval⟩ | ⟨hnone, -⟩
  · rw [h] at hw
    cases hw
    rw [evaluate, Expr.evaluate, heval]
    rfl
  · rw [h] at hnone
    cases hnone

theorem evaluate_of_lacking (hs : s.Numeric) (he : e.isArithmetic)
    (h : e.compute? s.number? = none) :
    ∃ waiting, s.evaluate e f = .blocked waiting ∧ ∀ q, q ∈ waiting ↔ s.Wants e q := by
  rcases evaluateOpen_cases hs he f with ⟨w, hw, -⟩ | ⟨-, waiting, heval, hmem⟩
  · rw [h] at hw
    cases hw
  · refine ⟨waiting, ?_, hmem⟩
    rw [evaluate, Expr.evaluate, heval]

end Assembly

end Assembler
