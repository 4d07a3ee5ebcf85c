import Assembler.Diagnostic
import Assembler.Prerequisite
/-!
Results of computing something from parts that may not be known yet.
-/

namespace Assembler

inductive Evaluation (α : Type)
  | resolved (value : α)
  /-- It cannot be computed before the prerequisites are known. -/
  | blocked (waiting : List Prerequisite)
  /-- There is a fault, and a value to go on with. -/
  | fallback (value : α) (fault : Fault)
deriving DecidableEq

namespace Evaluation

variable {α β : Type}

def map (f : α → β) : Evaluation α → Evaluation β
  | resolved a => resolved (f a)
  | blocked waiting => blocked waiting
  | fallback a fault => fallback (f a) fault

/-- Waits for the lengths of spaces. -/
def blockedOn (spaces : List SpaceId) : Evaluation α := blocked (spaces.map .space)

/-- The prerequisites of `ps`, then those of `qs` that are not listed yet. -/
def union (ps qs : List Prerequisite) : List Prerequisite :=
  qs.foldl (fun found q => if q ∈ found then found else found ++ [q]) ps

/-- Both of two computations. Waiting comes before faults, and the first fault is the one reported. -/
def both : Evaluation α → Evaluation β → Evaluation (α × β)
  | blocked ps, blocked qs => blocked (union ps qs)
  | blocked ps, _ => blocked ps
  | _, blocked qs => blocked qs
  | fallback a fault, resolved b => fallback (a, b) fault
  | fallback a fault, fallback b _ => fallback (a, b) fault
  | resolved a, fallback b fault => fallback (a, b) fault
  | resolved a, resolved b => resolved (a, b)

/-- Goes on with a value that is known; what stands in after a fault is `instead`. -/
def andThen (instead : β) (f : α → Evaluation β) : Evaluation α → Evaluation β
  | resolved a => f a
  | blocked waiting => blocked waiting
  | fallback _ fault => fallback instead fault

end Evaluation

end Assembler
