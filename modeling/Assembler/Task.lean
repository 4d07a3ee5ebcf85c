import Assembler.Data.Type
import Assembler.Expr.Evaluation
import Assembler.Pending.Table
/-!
Tasks: what has to be computed for a program, and what doing so defines.

Every task carries the rule of its computation together with what the result is for, so a result
always fits its task.
-/

namespace Assembler

/-- The range of a length attribute, and what to do outside of it. -/
structure LengthRule where
  min : Int32
  max : Int32
  /-- The length to go on with. -/
  fallback : Nat
  fault : Fault
deriving DecidableEq

/-- How the length of a space comes about. -/
inductive SpaceRule
  /-- Storage of the given length; a negative length reserves nothing. -/
  | storage (length : Expr)
  /-- Padding from a position to an alignment measured from a reference. -/
  | padding (position reference : Address) (alignment : Alignment)
  /-- From a position to a target rounded up to a boundary, plus an offset. -/
  | jump (target : Expr) (position : Address) (boundary : Nat) (offset : Int32)
  /-- From a position to the highest of some candidates. -/
  | jumpToHighest (candidates : List Address) (position : Address)
  /-- From the start of the section to the first aligned place after the highest of some candidates. -/
  | counterStart (candidates : List Address) (sectionStart : Address) (alignment : Alignment)
deriving DecidableEq

/-- What has to hold without anything depending on it. -/
inductive CheckRule
  /-- A move does not go below the origin of its counter. -/
  | notBelow (origin : Address) (target : Expr) (boundary : Nat) (offset : Int32)
  /-- A length modifier is in the range of its type. -/
  | lengthInRange (length : Expr) (type : Char) (min max : Int32)
deriving DecidableEq

inductive Task
  | value (symbol : Name) (e : Expr)
  | length (symbol : Name) (e : Expr) (rule : LengthRule)
  | scale (symbol : Name) (e : Expr)
  /-- The integer attribute, which follows from the length and the scale attribute. -/
  | integer (symbol : Name) (type : DataType)
  | space (space : SpaceId) (rule : SpaceRule)
  | check (rule : CheckRule)
deriving DecidableEq

/-- What is defined by the result of a task. -/
inductive Definition
  | value (symbol : Name) (v : Value)
  | length (symbol : Name) (n : Nat)
  | scale (symbol : Name) (n : Int32)
  | integer (symbol : Name) (n : Int32)
  | space (space : SpaceId) (length : Length)
  | nothing
deriving DecidableEq

/-- The prerequisite that a definition provides. -/
def Definition.product? : Definition → Option Prerequisite
  | value n _ => some (.symbol n)
  | length n _ => some (.attr n .length)
  | scale n _ => some (.attr n .scale)
  | integer n _ => some (.attr n .integer)
  | space s _ => some (.space s)
  | nothing => none

namespace Task

/-- The prerequisite that the result of a task provides. -/
def product? : Task → Option Prerequisite
  | value n _ => some (.symbol n)
  | length n _ _ => some (.attr n .length)
  | scale n _ => some (.attr n .scale)
  | integer n _ => some (.attr n .integer)
  | space s _ => some (.space s)
  | check _ => none

/-- What is defined in place of a result that cannot be had. -/
def fallback : Task → Definition
  | value n _ => .value n (.absolute 0)
  | length n _ rule => .length n rule.fallback
  | scale n _ => .scale n 0
  | integer n _ => .integer n 0
  | space s _ => .space s .zero
  | check _ => .nothing

theorem product?_fallback (t : Task) : t.fallback.product? = t.product? := by
  cases t <;> rfl

end Task

/-- A task and the statement that it comes from. -/
structure Job where
  task : Task
  frame : Frame
deriving DecidableEq

instance : Produces Job := ⟨fun j => j.task.product?⟩

end Assembler
