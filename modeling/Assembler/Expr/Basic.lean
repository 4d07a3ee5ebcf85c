import Assembler.Attribute
import Assembler.Numeral
/-!
Machine expressions.
-/

namespace Assembler

inductive Operator
  | add
  | sub
  | mul
  | div
deriving DecidableEq

def Operator.sign : Operator → Char
  | add => '+'
  | sub => '-'
  | mul => '*'
  | div => '/'

inductive Expr
  /-- A decimal number or a self-defining term. -/
  | number (n : Int32)
  | symbol (name : Name)
  | attr (kind : AttributeKind) (operand : AttributeOperand)
  /-- The location counter, written `*`. -/
  | counter
  | negate (e : Expr)
  | binary (op : Operator) (left right : Expr)
deriving DecidableEq

namespace Expr

def usesCounter : Expr → Bool
  | counter => true
  | negate e => e.usesCounter
  | binary _ l r => l.usesCounter || r.usesCounter
  | _ => false

/-- The first term, in reading order, that is not reached through a sign. -/
def leftmost : Expr → Expr
  | binary _ l _ => l.leftmost
  | e => e

/-- The symbols referred to as terms, each as often as it occurs. -/
def symbolTerms : Expr → List Name
  | symbol n => [n]
  | negate e => e.symbolTerms
  | binary _ l r => l.symbolTerms ++ r.symbolTerms
  | _ => []

/-- The symbols referred to as terms, each once, in reading order. -/
def symbols (e : Expr) : List Name :=
  e.symbolTerms.foldl (fun found n => if n ∈ found then found else found ++ [n]) []

/-- The product, without a factor that is the number one. -/
def times : Expr → Expr → Expr
  | number 1, e => e
  | e, number 1 => e
  | l, r => binary .mul l r

/-- The expression in a form that shows its structure. -/
def text : Expr → String
  | number n => Numeral.signed n.toInt
  | symbol n => n.text
  | attr k (.symbol n) => k.letter.toString ++ "'" ++ n.text
  | attr k (.variableSymbol n) => k.letter.toString ++ "'&" ++ n.text
  | counter => "@"
  | negate e => "(neg " ++ e.text ++ ")"
  | binary op l r => "(" ++ op.sign.toString ++ " " ++ l.text ++ " " ++ r.text ++ ")"

end Expr

end Assembler
