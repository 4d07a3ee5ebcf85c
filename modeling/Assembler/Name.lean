import Assembler.Text
import Std.Data.ExtTreeMap
/-!
Names of symbols, sections, location counters, variable symbols and operation codes.

A name is its spelling in upper case, so two spellings that differ in letter case only are one name
(`ofText_fold`). Names are ordered by their letters (`compare_eq`). A roster numbers names in the
order of their first mention: a name keeps its number (`index?_mention_of_mem`) and no name is listed
twice (`nodup_mention`).
-/

namespace Assembler

/-- A spelling with its letters `a` to `z` in upper case. -/
structure Name where
  letters : Text
  folded : Text.fold letters = letters
deriving DecidableEq

namespace Name

/-- The name that `t` spells. -/
def ofText (t : Text) : Name := ⟨Text.fold t, Text.fold_fold t⟩

@[simp] theorem letters_ofText (t : Text) : (ofText t).letters = Text.fold t := rfl

theorem ofText_fold (t : Text) : ofText (Text.fold t) = ofText t := by
  simp only [ofText, Text.fold_fold]

theorem ofText_letters (n : Name) : ofText n.letters = n := by
  cases n with | mk letters folded => simp only [ofText, folded]

/-- The spelling of a name, as a string. -/
def text (n : Name) : String := String.ofList n.letters

/-- The name that `s` spells. -/
def ofString (s : String) : Name := ofText s.toList

theorem eq_of_letters {m n : Name} (h : m.letters = n.letters) : m = n := by
  cases m; cases n; cases h; rfl

instance : Inhabited Name := ⟨ofText []⟩

/-! ### Order -/

instance : Ord Name := ⟨fun m n => Text.order m.letters n.letters⟩

theorem compare_eq (m n : Name) : compare m n = compare m.letters n.letters :=
  Text.order_eq_compare _ _

instance : Std.TransOrd Name where
  eq_swap {m n} := by rw [compare_eq, compare_eq]; exact Std.OrientedOrd.eq_swap
  isLE_trans {m n k} h h' := by
    rw [compare_eq] at h h' ⊢
    exact Std.TransOrd.isLE_trans h h'

instance : Std.LawfulEqOrd Name where
  compare_self {n} := by rw [compare_eq]; exact Std.ReflOrd.compare_self
  eq_of_compare {m n} h := by
    rw [compare_eq] at h
    exact eq_of_letters (Std.LawfulEqOrd.eq_of_compare h)

end Name

/-- Names in the order of their first mention. -/
structure Roster where
  names : List Name := []

namespace Roster

/-- Lists `n` unless it is listed already. -/
def mention (r : Roster) (n : Name) : Roster :=
  if n ∈ r.names then r else ⟨r.names ++ [n]⟩

def mentionAll (r : Roster) (ns : List Name) : Roster := ns.foldl mention r

def size (r : Roster) : Nat := r.names.length

/-- The number of a listed name. -/
def index? (r : Roster) (n : Name) : Option Nat := r.names.findIdx? (· = n)

/-- The name with a given number. -/
def name? (r : Roster) (i : Nat) : Option Name := r.names[i]?

theorem nodup_mention {r : Roster} {n : Name} (h : r.names.Nodup) :
    (r.mention n).names.Nodup := by
  unfold mention
  split
  · exact h
  · rename_i hn
    exact List.nodup_append.mpr ⟨h, by simp, by rintro a ha b hb rfl; simp_all⟩

theorem index?_mention_of_mem {r : Roster} {n m : Name} (h : n ∈ r.names) :
    (r.mention m).index? n = r.index? n := by
  unfold mention index?
  split
  · rfl
  · rw [List.findIdx?_append]
    have : (r.names.findIdx? (· = n)).isSome := by
      simp only [List.findIdx?_isSome, List.any_eq_true]
      exact ⟨n, h, by simp⟩
    obtain ⟨i, hi⟩ := Option.isSome_iff_exists.mp this
    rw [hi]; rfl

end Roster

end Assembler
