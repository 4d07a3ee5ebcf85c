import Assembler.Expr.Basic
import Assembler.Symbol
/-!
Evaluation of expressions.

Every expression has a result: a value, the prerequisites that its value waits for, or a fault with a
value to go on with. Arithmetic is modulo 2^32 on signed numbers; division goes toward zero, and the
quotient by zero is zero.
-/

namespace Assembler

/-- What the statement of an expression contributes to its evaluation. -/
structure Frame where
  /-- The value of the location counter, for expressions that use it. -/
  position? : Option Address := none
  /-- The name field of the statement. -/
  label? : Option Name := none
  location : Location := {}
deriving DecidableEq

/-- What the rest of the program contributes to the evaluation of an expression. -/
structure Scope where
  value? : Name → Option Value
  attributeOf : AttributeKind → AttributeOperand → Frame → Evaluation Int32
  spaces : Spaces

/-- An address, waiting for its spaces if no section takes part. -/
def Address.settled (a : Address) : Evaluation Value :=
  if a.isAbsolute then .blockedOn (a.spaces.map (·.1)) else .resolved (.relocatable a)

/-- The value with the lengths of its spaces put in. A number that depends on spaces without a length
waits for them. -/
def Value.settle (spaces : Spaces) (v : Value) : Evaluation Value :=
  match v.simplify spaces with
  | .absolute n => .resolved (.absolute n)
  | .relocatable a => a.settled

/-- A value as a number; an address cannot be one. -/
def Value.toNumber : Value → Evaluation Int32
  | .absolute n => .resolved n
  | .relocatable _ => .fallback 0 .unevaluable

/-- A factor, dividend or divisor has to be a number. -/
def Value.factor (spaces : Spaces) (v : Value) : Evaluation Int32 :=
  (v.settle spaces).andThen 0 Value.toNumber

def Operator.apply (op : Operator) (spaces : Spaces) (v w : Value) : Evaluation Value :=
  match op with
  | .add => .resolved (v + w)
  | .sub => .resolved (v - w)
  | .mul => ((v.factor spaces).both (w.factor spaces)).map fun (x, y) => .absolute (x * y)
  | .div => ((v.factor spaces).both (w.factor spaces)).map fun (x, y) => .absolute (x / y)

namespace Expr

/-- The value of an expression before the lengths of spaces are put in. -/
def evaluateOpen (s : Scope) (f : Frame) : Expr → Evaluation Value
  | number n => .resolved (.absolute n)
  | symbol n =>
    match s.value? n with
    | some v => .resolved v
    | none => .blocked [.symbol n]
  | attr kind operand => (s.attributeOf kind operand f).map .absolute
  | counter =>
    match f.position? with
    | some a => .resolved (.relocatable a)
    | none => .fallback (.absolute 0) .unevaluable
  | negate e => (e.evaluateOpen s f).map (-·)
  | binary op l r =>
    ((l.evaluateOpen s f).both (r.evaluateOpen s f)).andThen (.absolute 0) fun (v, w) =>
      op.apply s.spaces v w

/-- The value of an expression. -/
def evaluate (e : Expr) (s : Scope) (f : Frame) : Evaluation Value :=
  match e.evaluateOpen s f with
  | .resolved v => v.settle s.spaces
  | other => other

/-- The value of an expression that has to be a number. -/
def evaluateNumber (e : Expr) (s : Scope) (f : Frame) : Evaluation Int32 :=
  (e.evaluate s f).andThen 0 Value.toNumber

end Expr

end Assembler
