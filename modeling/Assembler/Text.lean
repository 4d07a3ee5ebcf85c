/-!
Text as the list of its characters.

A blank is any character with the Unicode property White_Space. Letter case is folded for the
letters `a` to `z` only, so folding twice is folding once (`fold_fold`). Texts are compared
lexicographically (`order_eq_compare`). Splitting keeps every character that is not a separator, and
joining the pieces again gives the text back (`intercalate_split`).
-/

namespace Assembler

/-- A text, handled character by character. -/
abbrev Text := List Char

namespace Text

/-- The code points with the property White_Space, as closed ranges. -/
def blankRanges : List (Nat × Nat) :=
  [(0x09, 0x0D), (0x20, 0x20), (0x85, 0x85), (0xA0, 0xA0), (0x1680, 0x1680), (0x2000, 0x200A),
    (0x2028, 0x2029), (0x202F, 0x202F), (0x205F, 0x205F), (0x3000, 0x3000)]

def isBlank (c : Char) : Bool :=
  blankRanges.any fun (low, high) => low ≤ c.toNat && c.toNat ≤ high

theorem isBlank_of_isWhitespace (c : Char) (h : c.isWhitespace) : isBlank c := by
  simp only [Char.isWhitespace, Bool.or_eq_true, decide_eq_true_eq] at h
  rcases h with ((rfl | rfl) | rfl) | rfl <;> decide

/-- The text without the blanks at its start. -/
def trimStart (t : Text) : Text := t.dropWhile isBlank

/-- The text without the blanks at its end. -/
def trimEnd (t : Text) : Text := (t.reverse.dropWhile isBlank).reverse

/-- The text without the blanks at either end. -/
def trim (t : Text) : Text := trimEnd (trimStart t)

/-- The text with its letters `a` to `z` in upper case. -/
def fold (t : Text) : Text := t.map Char.toUpper

theorem toUpper_toUpper (c : Char) : c.toUpper.toUpper = c.toUpper := by
  by_cases h : c.val ≥ 'a'.val ∧ c.val ≤ 'z'.val
  · have hu : c.toUpper.val = c.val + ('A'.val - 'a'.val) := by
      have he : c.toUpper = _ := dif_pos h
      rw [he]
    have hn : ¬ (c.toUpper.val ≥ 'a'.val ∧ c.toUpper.val ≤ 'z'.val) := by
      rw [hu]
      obtain ⟨hl, hr⟩ := h
      simp only [ge_iff_le, UInt32.le_iff_toNat_le, UInt32.toNat_add] at hl hr ⊢
      have e1 : 'a'.val.toNat = 97 := rfl
      have e2 : 'z'.val.toNat = 122 := rfl
      have e3 : ('A'.val - 'a'.val).toNat = 4294967264 := rfl
      rw [e1] at hl ⊢
      rw [e2] at hr ⊢
      rw [e3]
      omega
    exact dif_neg hn
  · have hc : c.toUpper = c := dif_neg h
    rw [hc, hc]

theorem fold_fold (t : Text) : fold (fold t) = fold t := by
  simp only [fold, List.map_map]
  exact List.map_congr_left fun c _ => toUpper_toUpper c

/-! ### Order -/

/-- Compares two texts: the first characters that differ decide, and a text comes before its
continuations. -/
def order : Text → Text → Ordering
  | [], [] => .eq
  | [], _ :: _ => .lt
  | _ :: _, [] => .gt
  | c :: s, d :: t => if c < d then .lt else if c = d then order s t else .gt

theorem order_eq_compare (s t : Text) : order s t = compare s t := by
  induction s generalizing t with
  | nil => cases t <;> rfl
  | cons c s ih =>
    cases t with
    | nil => rfl
    | cons d t =>
      show _ = List.compareLex compare (c :: s) (d :: t)
      rw [List.compareLex_cons_cons]
      show _ = (compareOfLessAndEq c d).then (compare s t)
      rw [order, ih]
      unfold compareOfLessAndEq
      split
      · rfl
      · split <;> rfl

/-! ### Splitting -/

/-- The pieces of a text between the occurrences of a separator; always at least one. -/
def split (separator : Char) : Text → List Text
  | [] => [[]]
  | c :: rest =>
    if c = separator then [] :: split separator rest
    else match split separator rest with
      | [] => [[c]]
      | piece :: pieces => (c :: piece) :: pieces

theorem split_ne_nil (separator : Char) (t : Text) : split separator t ≠ [] := by
  cases t with
  | nil => simp [split]
  | cons c rest =>
    unfold split
    split
    · simp
    · split <;> simp

theorem intercalate_split (separator : Char) (t : Text) :
    [separator].intercalate (split separator t) = t := by
  induction t with
  | nil => simp [split]
  | cons c rest ih =>
    obtain ⟨piece, pieces, h⟩ := List.exists_cons_of_ne_nil (split_ne_nil separator rest)
    rw [h] at ih
    unfold split
    split
    · subst c; rw [h, List.intercalate_cons_cons, ih]; simp
    · rw [h]
      cases pieces with
      | nil => simpa using ih
      | cons p ps => simpa [List.intercalate_cons_cons] using ih

/-- A line without the carriage return that its line feed may follow. -/
def dropReturn (line : Text) : Text :=
  if line.getLast? = some '\r' then line.dropLast else line

/-- The lines of a text. A line ends at a line feed, with or without a carriage return before it;
what follows the last line feed is a line of its own unless it is empty. -/
def lines (t : Text) : List Text :=
  let pieces := split '\n' t
  let last := pieces.getLastD []
  pieces.dropLast.map dropReturn ++ if last.isEmpty then [] else [last]

/-- Characters `start` to `stop - 1` of a text, as far as it has them. -/
def columns (start stop : Nat) (t : Text) : Text := (t.drop start).take (stop - start)

end Text

end Assembler
