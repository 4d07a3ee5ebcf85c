import Assembler.Source.Line
import Mathlib.Data.List.Basic
/-!
Folding of long lines.

A text that is too long for one line is folded: its first 71 characters stand on a line of their own, and each further
piece starts in column 16 of the next line and ends in column 71 at the latest. Every line but the last has a mark in
column 72. Reading a source joins the lines of a folded text again, wherever they stand, and takes what comes before
and after them as it would without them (`parse_of_folds`).
-/

namespace Assembler

/-! ## 1. Lines of a text -/

namespace Text

theorem split_of_notMem {separator : Char} {t : Text} (h : separator ∉ t) :
    split separator t = [t] := by
  induction t with
  | nil => rfl
  | cons c t ih =>
    have hc : c ≠ separator := fun heq => h (heq ▸ List.mem_cons_self)
    rw [split, if_neg hc, ih fun hmem => h (List.mem_cons_of_mem c hmem)]

theorem split_append_cons {separator : Char} {t : Text} (h : separator ∉ t) (rest : Text) :
    split separator (t ++ separator :: rest) = t :: split separator rest := by
  induction t with
  | nil => rw [List.nil_append, split, if_pos rfl]
  | cons c t ih =>
    have hc : c ≠ separator := fun heq => h (heq ▸ List.mem_cons_self)
    rw [List.cons_append, split, if_neg hc, ih fun hmem => h (List.mem_cons_of_mem c hmem)]

theorem split_intercalate {separator : Char} {pieces : List Text} (hne : pieces ≠ [])
    (h : ∀ piece ∈ pieces, separator ∉ piece) :
    split separator ([separator].intercalate pieces) = pieces := by
  induction pieces with
  | nil => exact absurd rfl hne
  | cons piece more ih =>
    have hpiece := h piece List.mem_cons_self
    cases more with
    | nil =>
      rw [List.intercalate_singleton]
      exact split_of_notMem hpiece
    | cons next more =>
      rw [List.intercalate_cons_cons, List.append_assoc, List.singleton_append,
        split_append_cons hpiece, ih (List.cons_ne_nil _ _) fun p hp => h p (List.mem_cons_of_mem _ hp)]

theorem dropReturn_eq_self {line : Text} (h : line.getLast? ≠ some '\r') : dropReturn line = line :=
  if_neg h

/-- Lines with line feeds between them are the lines of the text they make, unless the last one is empty. -/
theorem lines_intercalate {before : List Text} {last : Text} (hlast : last ≠ [])
    (hfeed : ∀ line ∈ before ++ [last], '\n' ∉ line)
    (hreturn : ∀ line ∈ before, line.getLast? ≠ some '\r') :
    lines (['\n'].intercalate (before ++ [last])) = before ++ [last] := by
  have hmap : before.map dropReturn = before := by
    conv_rhs => rw [← List.map_id before]
    exact List.map_congr_left fun line hline => dropReturn_eq_self (hreturn line hline)
  have hempty : last.isEmpty = false := List.isEmpty_eq_false_iff.mpr hlast
  unfold lines
  rw [split_intercalate (List.append_ne_nil_of_right_ne_nil _ (List.cons_ne_nil _ _)) hfeed]
  simp only [List.getLastD_concat, List.dropLast_concat, hmap, hempty, Bool.false_eq_true, if_false]

/-! ## 2. Blanks at the end -/

theorem trimEnd_eq_self {t : Text} (h : t.getLast?.any isBlank = false) : trimEnd t = t := by
  unfold trimEnd
  rw [← List.head?_reverse] at h
  have hdrop : t.reverse.dropWhile isBlank = t.reverse := by
    cases hrev : t.reverse with
    | nil => rfl
    | cons c rest =>
      rw [hrev] at h
      exact List.dropWhile_cons_of_neg (Bool.not_eq_true _ ▸ h)
  rw [hdrop, List.reverse_reverse]

theorem trimEnd_append {t blanks : Text} (h : ∀ c ∈ blanks, isBlank c) :
    trimEnd (t ++ blanks) = trimEnd t := by
  unfold trimEnd
  rw [List.reverse_append,
    List.dropWhile_append_of_pos fun c hc => h c (List.mem_reverse.mp hc)]

end Text

namespace Source

/-! ## 3. Folded texts -/

/-- Whether a character in column 72 says that the line goes on: anything but a space and what ends a line. -/
def IsMark (c : Char) : Prop := c ≠ ' ' ∧ c ≠ '\n' ∧ c ≠ '\r'

instance (c : Char) : Decidable (IsMark c) := inferInstanceAs (Decidable (_ ∧ _ ∧ _))

/-- What is in front of column 16 of a line that another one continues with. -/
def margin : Text := List.replicate 15 ' '

/-- The lines that go on with a text in column 16, each with a piece of it. The lines but the last are filled up with
spaces to the mark in column 72. No piece ends in a blank. -/
inductive Continues : Text → List Text → Prop
  | last {piece : Text} (fits : piece.length ≤ 56) (solid : piece.getLast?.any Text.isBlank = false) :
    Continues piece [margin ++ piece]
  | more {piece rest : Text} {mark : Char} {lines : List Text} (fits : piece.length ≤ 56)
    (solid : piece.getLast?.any Text.isBlank = false) (hmark : IsMark mark)
    (h : Continues rest lines) :
    Continues (piece ++ rest)
      ((margin ++ (piece ++ List.replicate (56 - piece.length) ' ') ++ [mark]) :: lines)

/-- The lines that a text is folded into: its first 71 characters with a mark after them, and the lines that go on
with the rest. -/
inductive Folds : Text → List Text → Prop
  | mk {first rest : Text} {mark : Char} {lines : List Text} (full : first.length = 71)
    (solid : first.getLast?.any Text.isBlank = false) (hmark : IsMark mark)
    (h : Continues rest lines) : Folds (first ++ rest) ((first ++ [mark]) :: lines)

variable {t line : Text} {lines before after : List Text}

theorem isContinued_append {mark : Char} (h : line.length = 71) (hmark : IsMark mark) :
    isContinued (line ++ [mark]) = true := by
  unfold isContinued
  rw [← h, List.getElem?_concat_length]
  exact decide_eq_true hmark.1

theorem isContinued_of_length_le (h : line.length ≤ 71) : isContinued line = false := by
  unfold isContinued
  rw [List.getElem?_eq_none h]
  rfl

theorem firstPart_append (h : line.length = 71) (hsolid : line.getLast?.any Text.isBlank = false)
    (mark : Char) : firstPart (line ++ [mark]) = line := by
  unfold firstPart Text.columns
  rw [List.drop_zero, Nat.sub_zero, List.take_append_of_le_length (Nat.le_of_eq h.symm),
    List.take_of_length_le (Nat.le_of_eq h)]
  exact Text.trimEnd_eq_self hsolid

/-- A piece is read from its line, with spaces and a mark after it or without. -/
theorem continuationPart_append {piece spaces rest : Text}
    (hsolid : piece.getLast?.any Text.isBlank = false) (hspaces : ∀ c ∈ spaces, Text.isBlank c)
    (hrest : (piece ++ spaces).length = 56 ∨ (piece ++ spaces).length ≤ 56 ∧ rest = []) :
    continuationPart (margin ++ (piece ++ spaces) ++ rest) = piece := by
  have hle : (piece ++ spaces).length ≤ 56 := by omega
  have hcolumns : Text.columns 15 71 (margin ++ (piece ++ spaces) ++ rest) = piece ++ spaces := by
    unfold Text.columns
    rw [List.append_assoc, List.drop_left' (by rfl)]
    rcases hrest with h | ⟨-, rfl⟩
    · rw [List.take_left' h]
    · rw [List.append_nil, List.take_of_length_le hle]
  unfold continuationPart
  rw [hcolumns, Text.trimEnd_append hspaces, Text.trimEnd_eq_self hsolid]

/-- A text is what the lines that go on with it continue with. -/
theorem Continues.continuation (h : Continues t lines) (after : List Text) :
    continuation (lines ++ after) = (t, lines.length) := by
  induction h with
  | last fits solid =>
    rename_i piece
    -- The line ends before column 72, so nothing goes on behind it.
    have hlength : (margin ++ piece).length ≤ 71 := by
      rw [List.length_append, margin, List.length_replicate]
      omega
    have hpart : continuationPart (margin ++ (piece ++ []) ++ []) = piece :=
      continuationPart_append solid nofun (.inr ⟨by rwa [List.append_nil], rfl⟩)
    rw [List.append_nil, List.append_nil] at hpart
    rw [List.singleton_append, Source.continuation, isContinued_of_length_le hlength]
    simp only [Bool.false_eq_true, if_false, hpart, List.length_singleton]
  | more fits solid hmark h ih =>
    rename_i piece rest mark lines
    -- Filled up, the piece takes columns 16 to 71, and the mark stands in column 72.
    have hfill : (piece ++ List.replicate (56 - piece.length) ' ').length = 56 := by
      rw [List.length_append, List.length_replicate]
      omega
    have hlength : (margin ++ (piece ++ List.replicate (56 - piece.length) ' ')).length = 71 := by
      rw [List.length_append, hfill, margin, List.length_replicate]
    have hspaces : ∀ c ∈ List.replicate (56 - piece.length) ' ', Text.isBlank c := by
      intro c hc
      rw [List.eq_of_mem_replicate hc]
      rfl
    rw [List.cons_append, Source.continuation, isContinued_append hlength hmark]
    simp only [if_true, ih, continuationPart_append solid hspaces (.inl hfill), List.length_cons]

theorem joinLines_of_folds (h : Folds t lines) (number : Nat) (after : List Text) :
    joinLines number (lines ++ after) = (number, t) :: joinLines (number + lines.length) after := by
  cases h with
  | mk full solid hmark h =>
    rename_i first rest mark lines
    rw [List.cons_append, joinLines, isContinued_append full hmark]
    simp only [if_true, h.continuation, firstPart_append full solid, List.drop_left, List.length_cons]
    rw [Nat.add_right_comm, Nat.add_assoc]

/-! ## 4. Lines before and after -/

/-- What a line goes on with lies in the lines up to the next one that does not go on. -/
theorem continuation_append (h : ∃ line ∈ before, isContinued line = false) (after : List Text) :
    continuation (before ++ after) = continuation before ∧ (continuation before).2 ≤ before.length := by
  induction before with
  | nil =>
    obtain ⟨line, hmem, -⟩ := h
    cases hmem
  | cons line before ih =>
    rw [List.cons_append, continuation, continuation]
    by_cases hline : isContinued line = true
    · have hrest : ∃ line ∈ before, isContinued line = false := by
        obtain ⟨end?, hmem, hend⟩ := h
        rcases List.mem_cons.mp hmem with rfl | hmem
        · rw [hline] at hend
          cases hend
        · exact ⟨end?, hmem, hend⟩
      obtain ⟨hsame, hle⟩ := ih hrest
      simp only [hline, if_true, hsame, List.length_cons]
      exact ⟨trivial, Nat.succ_le_succ hle⟩
    · simp only [hline, Bool.false_eq_true, if_false, List.length_cons]
      exact ⟨trivial, Nat.succ_le_succ (Nat.zero_le _)⟩

/-- Lines of which the last does not go on are joined by themselves. -/
theorem joinLines_append (h : ∀ line ∈ before.getLast?, isContinued line = false) (number : Nat)
    (after : List Text) :
    joinLines number (before ++ after) =
      joinLines number before ++ joinLines (number + before.length) after := by
  -- The recursion is that of joining: what a line goes on with is dropped with it.
  induction hn : before.length using Nat.strongRecOn generalizing before number with
  | ind n ih =>
    subst hn
    cases before with
    | nil => rw [joinLines]; rfl
    | cons line rest =>
      have hrest : ∀ line ∈ rest.getLast?, isContinued line = false := by
        intro last hlast
        apply h last
        rw [List.getLast?_cons, hlast]
        rfl
      rw [List.cons_append, joinLines, joinLines]
      by_cases hline : isContinued line = true
      · have hend : ∃ line ∈ rest, isContinued line = false := by
          cases hlast : rest.getLast? with
          | none =>
            rw [List.getLast?_eq_none_iff.mp hlast] at h
            rw [h line rfl] at hline
            cases hline
          | some last => exact ⟨last, List.mem_of_getLast? hlast, hrest last hlast⟩
        obtain ⟨hsame, hle⟩ := continuation_append hend after
        have hdrop : ∀ last ∈ (rest.drop (continuation rest).2).getLast?, isContinued last = false := by
          intro last hlast
          rw [List.getLast?_drop] at hlast
          split at hlast
          · cases hlast
          · exact hrest last hlast
        have hshort : (rest.drop (continuation rest).2).length < (line :: rest).length := by
          rw [List.length_drop, List.length_cons]
          omega
        simp only [hline, if_true, hsame, List.drop_append_of_le_length hle, List.cons_append]
        rw [ih _ hshort hdrop _ rfl, List.length_drop, List.length_cons]
        have hnumber : number + 1 + (continuation rest).2 + (rest.length - (continuation rest).2) =
            number + (rest.length + 1) := by omega
        rw [hnumber]
      · simp only [hline, Bool.false_eq_true, if_false, List.cons_append]
        rw [ih rest.length (Nat.lt_succ_self _) hrest _ rfl, List.length_cons, Nat.add_right_comm,
          Nat.add_assoc]

theorem joinLines_add (number n : Nat) (lines : List Text) :
    joinLines (number + n) lines = (joinLines number lines).map (Prod.map (· + n) id) := by
  induction number, lines using joinLines.induct with
  | case1 number => rw [joinLines, joinLines]; rfl
  | case2 number line rest hline more m hmore ih =>
    rw [joinLines, joinLines]
    simp only [hline, if_true, hmore, List.map_cons]
    rw [← ih, Nat.add_right_comm number n 1, Nat.add_right_comm _ n m]
    rfl
  | case3 number line rest hline ih =>
    rw [joinLines, joinLines]
    simp only [hline, Bool.false_eq_true, if_false, List.map_cons]
    rw [← ih, Nat.add_right_comm number n 1]
    rfl

/-- Lines that do not go on are lines as they stand. -/
theorem joinLines_of_not_isContinued (h : ∀ line ∈ lines, isContinued line = false) (number : Nat) :
    (joinLines number lines).map Prod.snd = lines := by
  induction lines generalizing number with
  | nil => rw [joinLines]; rfl
  | cons line rest ih =>
    obtain ⟨hline, hrest⟩ := List.forall_mem_cons.mp h
    rw [joinLines, hline]
    exact congrArg (line :: ·) (ih hrest _)

theorem parse_of_not_isContinued {source : Text} (h : ∀ line ∈ Text.lines source, isContinued line = false) :
    (parse source).map Prod.snd = (Text.lines source).map Line.ofText := by
  have hlines := congrArg (List.map Line.ofText) (joinLines_of_not_isContinued h 1)
  rw [List.map_map] at hlines
  rw [parse, List.map_map]
  exact hlines

/-! ## 5. The source of folded lines -/

/-- Every line but the last has its mark at the end, and the last has its margin. -/
theorem Continues.marked (h : Continues t lines) :
    ∃ marked last, lines = marked ++ [last] ∧ last ≠ [] ∧
      ∀ line ∈ marked, ∃ mark, IsMark mark ∧ line.getLast? = some mark := by
  induction h with
  | last fits solid => exact ⟨[], _, rfl, List.append_ne_nil_of_left_ne_nil (by decide) _, nofun⟩
  | more fits solid hmark h ih =>
    obtain ⟨marked, last, rfl, hlast, hmarked⟩ := ih
    refine ⟨_ :: marked, last, rfl, hlast, ?_⟩
    rintro line (_ | ⟨_, hline⟩)
    · exact ⟨_, hmark, List.getLast?_concat⟩
    · exact hmarked line hline

theorem Continues.feed_notMem (h : Continues t lines) (hfeed : '\n' ∉ t) :
    ∀ line ∈ lines, '\n' ∉ line := by
  have hspaces : ∀ n, '\n' ∉ List.replicate n ' ' := fun n hmem => by
    cases List.eq_of_mem_replicate hmem
  induction h with
  | last fits solid =>
    intro line hline
    rw [List.mem_singleton.mp hline, List.mem_append]
    exact not_or_intro (hspaces 15) hfeed
  | more fits solid hmark h ih =>
    rw [List.mem_append, not_or] at hfeed
    rintro line (_ | ⟨_, hline⟩)
    · simp only [List.mem_append, List.mem_singleton, not_or]
      exact ⟨⟨hspaces 15, hfeed.1, hspaces _⟩, hmark.2.1.symm⟩
    · exact ih hfeed.2 line hline

/-- The lines of a folded text, with line feeds between them, are the lines of the source that they make. -/
theorem Folds.lines_intercalate (h : Folds t lines) (hfeed : '\n' ∉ t) :
    Text.lines (['\n'].intercalate lines) = lines := by
  cases h with
  | mk full solid hmark h =>
    rename_i first rest mark lines
    obtain ⟨marked, last, rfl, hlast, hmarked⟩ := h.marked
    rw [List.mem_append, not_or] at hfeed
    have hmore := h.feed_notMem hfeed.2
    change Text.lines (['\n'].intercalate (((first ++ [mark]) :: marked) ++ [last])) = _
    refine Text.lines_intercalate hlast ?_ ?_
    · rintro line (_ | ⟨_, hline⟩)
      · rw [List.mem_append, List.mem_singleton, not_or]
        exact ⟨hfeed.1, hmark.2.1.symm⟩
      · exact hmore line hline
    · have hall : ∀ line ∈ (first ++ [mark]) :: marked,
          ∃ mark, IsMark mark ∧ line.getLast? = some mark := by
        rintro line (_ | ⟨_, hline⟩)
        · exact ⟨mark, hmark, List.getLast?_concat⟩
        · exact hmarked line hline
      intro line hline
      obtain ⟨mark', hmark', heq⟩ := hall line hline
      rw [heq]
      exact fun hreturn => hmark'.2.2 (Option.some.inj hreturn)

/-- In a source, the lines of a folded text are read as one line, with the number of the first of them. What comes
after them is read as a source of its own, and so is what comes before them unless its last line goes on. -/
theorem parse_of_lines (h : Folds t lines) {source before after : Text}
    (hsource : Text.lines source = Text.lines before ++ lines ++ Text.lines after)
    (hends : ∀ line ∈ (Text.lines before).getLast?, isContinued line = false) :
    parse source = parse before ++ ((Text.lines before).length + 1, Line.ofText t) ::
      (parse after).map (Prod.map (· + ((Text.lines before).length + lines.length)) id) := by
  unfold parse
  rw [hsource, List.append_assoc, joinLines_append hends, joinLines_of_folds h, Nat.add_assoc 1,
    joinLines_add 1, List.map_append, List.map_cons, List.map_map, List.map_map, Nat.add_comm 1]
  rfl

/-- Reading undoes folding. The lines of a folded text, with line feeds between them, are read as the text, with
number one. In every source that has these lines somewhere, after a line that does not go on, they are read as the
text, with the number of the first of them, and the lines before and after them are read as they are without them. -/
theorem parse_of_folds (h : Folds t lines) :
    ('\n' ∉ t → Text.lines (['\n'].intercalate lines) = lines ∧
      parse (['\n'].intercalate lines) = [(1, Line.ofText t)]) ∧
    ∀ source before after : Text,
      Text.lines source = Text.lines before ++ lines ++ Text.lines after →
      (∀ line ∈ (Text.lines before).getLast?, isContinued line = false) →
      parse source = parse before ++ ((Text.lines before).length + 1, Line.ofText t) ::
        (parse after).map (Prod.map (· + ((Text.lines before).length + lines.length)) id) := by
  refine ⟨fun hfeed => ?_, fun source before after hsource hends => parse_of_lines h hsource hends⟩
  have hlines := h.lines_intercalate hfeed
  refine ⟨hlines, ?_⟩
  have hsource : Text.lines (['\n'].intercalate lines) = Text.lines [] ++ lines ++ Text.lines [] := by
    rw [hlines]
    exact (List.append_nil lines).symm
  have hnil : parse [] = [] := by
    unfold parse
    rw [show Text.lines [] = [] from rfl, joinLines]
    rfl
  have hends : ∀ line ∈ (Text.lines []).getLast?, isContinued line = false :=
    fun line hline => absurd hline (Option.not_mem_none line)
  rw [parse_of_lines h hsource hends, hnil]
  rfl

/-- A constant that takes three lines, between a line of comment and the end of the program. -/
theorem parse_of_folds_constant :
    let first := " DC C'".toList ++ List.replicate 65 'A'
    let second := List.replicate 56 'B'
    let third := "C' REMARK".toList
    let folded := [first ++ ['X'], margin ++ second ++ ['X'], margin ++ third]
    Folds (first ++ (second ++ third)) folded ∧
      parse (['\n'].intercalate (["* NOTE".toList] ++ folded ++ [" END".toList])) =
        parse "* NOTE\n".toList ++ (2, Line.ofText (first ++ (second ++ third))) ::
          (parse " END".toList).map (Prod.map (· + 4) id) := by
  intro first second third folded
  have hfolds : Folds (first ++ (second ++ third)) folded := by
    refine .mk (by decide) (by decide) (by decide) ?_
    exact .more (by decide) (by decide) (by decide) (.last (by decide) (by decide))
  refine ⟨hfolds, (parse_of_folds hfolds).2 _ "* NOTE\n".toList " END".toList ?_ ?_⟩
  · decide
  · decide

end Source

end Assembler
