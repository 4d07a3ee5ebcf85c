import Assembler.Attribute
import Assembler.Layout.Ids
/-!
Prerequisites: what a computation can wait for.

Prerequisites are ordered by a code that no two of them share (`eq_of_code`, `order_eq`), so that
tables can be kept by them.
-/

namespace Assembler

/-- Something that a computation can wait for. -/
inductive Prerequisite
  /-- The value of an ordinary symbol. -/
  | symbol (name : Name)
  /-- An attribute of a symbol or an operation code. -/
  | attr (name : Name) (kind : AttributeKind)
  /-- The length of a space. -/
  | space (space : SpaceId)
deriving DecidableEq

namespace Prerequisite

/-- What the order of prerequisites comes from: numbers first, then texts. -/
def code : Prerequisite → Nat × Text
  | symbol n => (0, n.letters)
  | attr n k => (1, k.letter :: n.letters)
  | space s => (s.index + 2, [])

theorem eq_of_code {p q : Prerequisite} (h : p.code = q.code) : p = q := by
  match p, q with
  | symbol _, symbol _ => rw [Name.eq_of_letters (congrArg Prod.snd h)]
  | symbol _, attr _ _ => cases h
  | symbol _, space _ => cases h
  | attr _ _, symbol _ => cases h
  | attr _ _, attr _ _ =>
    have hl := List.cons.inj (congrArg Prod.snd h)
    rw [AttributeKind.eq_of_letter hl.1, Name.eq_of_letters hl.2]
  | attr _ _, space _ => cases h
  | space _, symbol _ => cases h
  | space _, attr _ _ => cases h
  | space ⟨_⟩, space ⟨_⟩ =>
    have hi := congrArg Prod.fst h
    simp only [code, Nat.add_right_cancel_iff] at hi
    rw [hi]

/-- Symbols come first, then attributes, then spaces. -/
def order : Prerequisite → Prerequisite → Ordering
  | symbol m, symbol n => Text.order m.letters n.letters
  | symbol _, _ => .lt
  | attr _ _, symbol _ => .gt
  | attr m j, attr n k => Text.order (j.letter :: m.letters) (k.letter :: n.letters)
  | attr _ _, space _ => .lt
  | space s, space t => compare s.index t.index
  | space _, _ => .gt

theorem order_eq (p q : Prerequisite) :
    order p q = (compare p.code.1 q.code.1).then (compare p.code.2 q.code.2) := by
  cases p <;> cases q <;> simp [order, code, Text.order_eq_compare, Nat.compare_eq_ite_lt]

instance : Ord Prerequisite := ⟨order⟩

theorem compare_eq (p q : Prerequisite) :
    compare p q = (compare p.code.1 q.code.1).then (compare p.code.2 q.code.2) :=
  order_eq p q

instance : Std.TransOrd Prerequisite where
  eq_swap {p q} := by
    rw [compare_eq, compare_eq]
    exact @Std.OrientedCmp.eq_swap _ (compareLex (compareOn Prod.fst) (compareOn Prod.snd)) _
      p.code q.code
  isLE_trans {p q r} h h' := by
    rw [compare_eq] at h h' ⊢
    exact @Std.TransCmp.isLE_trans _ (compareLex (compareOn Prod.fst) (compareOn Prod.snd)) _
      p.code q.code r.code h h'

instance : Std.LawfulEqOrd Prerequisite where
  compare_self {p} := by
    rw [compare_eq, Std.ReflOrd.compare_self, Std.ReflOrd.compare_self]
    rfl
  eq_of_compare {p q} h := by
    rw [compare_eq] at h
    obtain ⟨h₁, h₂⟩ := Ordering.then_eq_eq.mp h
    exact eq_of_code
      (Prod.ext (Std.LawfulEqOrd.eq_of_compare h₁) (Std.LawfulEqOrd.eq_of_compare h₂))

end Prerequisite

end Assembler
