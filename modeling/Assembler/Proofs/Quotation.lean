import Assembler.Proofs.Folding
import Assembler.Proofs.SelfDefining
import Mathlib.Algebra.BigOperators.Group.List.Basic
import Mathlib.Algebra.Order.Group.Int
import Mathlib.Data.List.Infix
/-!
Passing over text, inside strings and outside.

What a scan for a blank, a comma or a closing parenthesis does with a piece of text hangs on the characters of the
piece that stand outside strings (`unquoted`) and on whether text is quoted after the piece (`quotedPast`). Each scan
passes over a piece that has nothing in it to stop at (`cutAtBlank_append`, `piecesFrom_append`,
`closingFrom_append`). A coherent piece is one that the first two scans always pass over, in and out of parentheses;
coherent pieces can be put together (`Coherent.append`), and a string with its apostrophes doubled is one
(`inert_string`).
-/

namespace Assembler

/-! ## 1. Nesting -/

section Nesting

variable {α : Type} {nesting : α → Int} {a : α} {l m : List α}

/-- How much deeper in parentheses a list ends than it starts, given how much deeper each member leads. -/
def depth (nesting : α → Int) (l : List α) : Int := (l.map nesting).sum

@[simp] theorem depth_nil : depth nesting [] = 0 := rfl

@[simp] theorem depth_cons : depth nesting (a :: l) = nesting a + depth nesting l := by
  rw [depth, List.map_cons, List.sum_cons, depth]

@[simp] theorem depth_append : depth nesting (l ++ m) = depth nesting l + depth nesting m := by
  rw [depth, List.map_append, List.sum_append, depth, depth]

theorem depth_of_flat (h : ∀ a ∈ l, nesting a = 0) : depth nesting l = 0 := by
  induction l with
  | nil => rfl
  | cons a l ih =>
    rw [depth_cons, h a List.mem_cons_self, ih fun b hb => h b (List.mem_cons_of_mem a hb), Int.add_zero]

/-- Whether parentheses are paired: every prefix ends at least as deep as the list starts, and the whole list just as
deep. -/
structure Paired (nesting : α → Int) (l : List α) : Prop where
  nonneg : ∀ p, p <+: l → 0 ≤ depth nesting p
  closed : depth nesting l = 0

theorem paired_of_flat (h : ∀ a ∈ l, nesting a = 0) : Paired nesting l where
  nonneg _ hp := Int.le_of_eq (depth_of_flat fun a ha => h a (hp.subset ha)).symm
  closed := depth_of_flat h

/-- A prefix of two lists ends in the first or takes it whole. -/
theorem prefix_or_exists_of_prefix_append {p : List α} (h : p <+: l ++ m) :
    p <+: l ∨ ∃ q, p = l ++ q ∧ q <+: m := by
  by_cases hlength : p.length ≤ l.length
  · exact .inl ((List.isPrefix_append_of_length hlength).mp h)
  · obtain ⟨q, rfl⟩ := List.prefix_of_prefix_length_le (List.prefix_append l m) h (by omega)
    exact .inr ⟨q, rfl, (List.prefix_append_right_inj l).mp h⟩

theorem Paired.append (hl : Paired nesting l) (hm : Paired nesting m) :
    Paired nesting (l ++ m) where
  nonneg p hp := by
    rcases prefix_or_exists_of_prefix_append hp with hp | ⟨q, rfl, hq⟩
    · exact hl.nonneg p hp
    · rw [depth_append, hl.closed, Int.zero_add]
      exact hm.nonneg q hq
  closed := by rw [depth_append, hl.closed, hm.closed, Int.zero_add]

/-- What is paired can be put in parentheses. -/
theorem Paired.enclosed {b : α} (h : Paired nesting l) (ha : nesting a = 1) (hb : nesting b = -1) :
    Paired nesting (a :: (l ++ [b])) where
  nonneg p hp := by
    rcases List.prefix_cons_iff.mp hp with rfl | ⟨q, rfl, hq⟩
    · exact Int.le_refl 0
    rw [depth_cons, ha]
    rcases prefix_or_exists_of_prefix_append hq with hq | ⟨r, rfl, hr⟩
    · exact Int.add_nonneg Int.one_nonneg (h.nonneg q hq)
    rcases List.prefix_cons_iff.mp hr with rfl | ⟨s, rfl, hs⟩
    · rw [List.append_nil, h.closed]
      exact Int.one_nonneg
    · rw [List.prefix_nil.mp hs, depth_append, h.closed, depth_cons, hb, depth_nil]
      decide
  closed := by
    rw [depth_cons, depth_append, h.closed, depth_cons, ha, hb]
    rfl

/-- Whether `a` stands nowhere in a list at the level `k`, if the list starts at the level `d`. -/
def Avoids (nesting : α → Int) (a : α) (k d : Int) (l : List α) : Prop :=
  ∀ p, p ++ [a] <+: l → d + depth nesting p ≠ k

theorem avoids_nil {k d : Int} : Avoids nesting a k d [] := fun p hp => by
  have hlength := hp.length_le
  rw [List.length_append] at hlength
  cases hlength

theorem avoids_cons {b : α} {k d : Int} :
    Avoids nesting a k d (b :: l) ↔ (b = a → d ≠ k) ∧ Avoids nesting a k (d + nesting b) l := by
  constructor
  · intro h
    refine ⟨?_, fun p hp => ?_⟩
    · rintro rfl
      have hhere := h [] ⟨l, rfl⟩
      rwa [depth_nil, Int.add_zero] at hhere
    · have hmore := h (b :: p) (List.cons_prefix_cons.mpr ⟨rfl, hp⟩)
      rwa [depth_cons, ← Int.add_assoc] at hmore
  · rintro ⟨hhere, hmore⟩ p hp
    cases p with
    | nil =>
      rw [depth_nil, Int.add_zero]
      exact hhere (List.cons_prefix_cons.mp hp).1.symm
    | cons c p =>
      rw [List.cons_append] at hp
      obtain ⟨rfl, hp'⟩ := List.cons_prefix_cons.mp hp
      rw [depth_cons, ← Int.add_assoc]
      exact hmore p hp'

theorem avoids_of_notMem {k d : Int} (h : a ∉ l) : Avoids nesting a k d l := fun _ hp =>
  absurd (hp.subset (List.mem_append_right _ List.mem_cons_self)) h

theorem avoids_append {k d : Int} (hl : Avoids nesting a k d l)
    (hm : Avoids nesting a k (d + depth nesting l) m) : Avoids nesting a k d (l ++ m) := by
  induction l generalizing d with
  | nil => rwa [depth_nil, Int.add_zero] at hm
  | cons b l ih =>
    obtain ⟨hhere, hmore⟩ := avoids_cons.mp hl
    rw [depth_cons, ← Int.add_assoc] at hm
    exact avoids_cons.mpr ⟨hhere, ih hmore hm⟩

/-- Inside a pair of parentheses nothing stands at the level outside them. -/
theorem Paired.avoids (h : Paired nesting l) : Avoids nesting a 0 1 l := fun p hp => by
  have hnonneg := h.nonneg p ((List.prefix_append p [a]).trans hp)
  omega

/-- Nothing inside a pair of parentheses closes it. -/
theorem Paired.avoids_closing (h : Paired nesting l) (ha : nesting a = -1) : Avoids nesting a 1 1 l :=
  fun p hp => by
    have hnonneg := h.nonneg (p ++ [a]) hp
    rw [depth_append, depth_cons, ha, depth_nil] at hnonneg
    omega

end Nesting

namespace Source

variable {ahead behind t u : Text} {quoted : Bool} {d : Int}

/-! ## 2. Characters outside strings -/

/-- Whether text is quoted after passing a text, with `ahead` still to come. -/
def quotedPast (ahead behind : Text) (quoted : Bool) : Text → Bool
  | [] => quoted
  | c :: t => quotedPast ahead (c :: behind) (quotedAfter behind quoted c (t ++ ahead)) t

/-- The characters of a text that stand outside strings, with `ahead` still to come. -/
def unquoted (ahead behind : Text) (quoted : Bool) : Text → Text
  | [] => []
  | c :: t =>
    let more := unquoted ahead (c :: behind) (quotedAfter behind quoted c (t ++ ahead)) t
    if quoted then more else c :: more

theorem quotedPast_append :
    quotedPast ahead behind quoted (t ++ u) =
      quotedPast ahead (t.reverse ++ behind) (quotedPast (u ++ ahead) behind quoted t) u := by
  induction t generalizing behind quoted with
  | nil => rfl
  | cons c t ih =>
    rw [List.cons_append, quotedPast, ih, quotedPast, List.append_assoc, List.reverse_cons,
      List.append_assoc, List.singleton_append]

theorem unquoted_append :
    unquoted ahead behind quoted (t ++ u) =
      unquoted (u ++ ahead) behind quoted t ++
        unquoted ahead (t.reverse ++ behind) (quotedPast (u ++ ahead) behind quoted t) u := by
  induction t generalizing behind quoted with
  | nil => rfl
  | cons c t ih =>
    rw [List.cons_append, unquoted, ih, unquoted, quotedPast, List.append_assoc, List.reverse_cons,
      List.append_assoc, List.singleton_append]
    cases quoted <;> rfl

/-- A character that is no apostrophe leaves text quoted or unquoted. -/
theorem quotedAfter_of_ne {c : Char} (h : c ≠ '\'') : quotedAfter behind quoted c ahead = quoted :=
  if_neg fun hc => h (of_decide_eq_true (Bool.and_eq_true_iff.mp hc).1)

theorem quotedPast_of_notMem (h : '\'' ∉ t) : quotedPast ahead behind quoted t = quoted := by
  induction t generalizing behind with
  | nil => rfl
  | cons c t ih =>
    rw [List.mem_cons, not_or] at h
    rw [quotedPast, quotedAfter_of_ne (Ne.symm h.1), ih h.2]

theorem unquoted_of_notMem (h : '\'' ∉ t) : unquoted ahead behind false t = t := by
  induction t generalizing behind with
  | nil => rfl
  | cons c t ih =>
    rw [List.mem_cons, not_or] at h
    rw [unquoted, quotedAfter_of_ne (Ne.symm h.1), ih h.2]
    rfl

/-- What stands outside strings behind a character stands outside strings in the whole text. -/
theorem mem_unquoted_cons {b c : Char}
    (h : b ∈ unquoted ahead (c :: behind) (quotedAfter behind quoted c (t ++ ahead)) t) :
    b ∈ unquoted ahead behind quoted (c :: t) := by
  unfold unquoted
  cases quoted with
  | true => exact h
  | false => exact List.mem_cons_of_mem c h

/-! ## 3. Scans -/

/-- How much deeper in parentheses a character outside strings leads. -/
abbrev nesting (c : Char) : Int := deeper false c

theorem cutAtBlank_append (h : ∀ c ∈ unquoted ahead behind quoted t, Text.isBlank c = false) :
    cutAtBlank behind quoted (t ++ ahead) =
      (cutAtBlank (t.reverse ++ behind) (quotedPast ahead behind quoted t) ahead).map (t ++ ·) id := by
  induction t generalizing behind quoted with
  | nil => rfl
  | cons c t ih =>
    have hc : (Text.isBlank c && !quoted) = false := by
      cases quoted with
      | true => exact Bool.and_false _
      | false =>
        rw [h c List.mem_cons_self]
        rfl
    have hmore : ∀ b ∈ unquoted ahead (c :: behind) (quotedAfter behind quoted c (t ++ ahead)) t,
        Text.isBlank b = false := fun b hb => h b (mem_unquoted_cons hb)
    rw [List.cons_append, cutAtBlank, if_neg (Bool.eq_false_iff.mp hc), ih hmore, List.reverse_cons,
      List.append_assoc]
    rfl

theorem piecesFrom_ne_nil (t : Text) : piecesFrom behind quoted d t ≠ [] := by
  cases t with
  | nil => exact List.cons_ne_nil _ _
  | cons c t =>
    rw [piecesFrom]
    split
    · exact List.cons_ne_nil _ _
    · split <;> exact List.cons_ne_nil _ _

/-- A character that does not separate belongs to the first piece. -/
theorem piecesFrom_cons {c : Char} (h : ¬ (c = ',' ∧ quoted = false ∧ d = 0)) (t : Text) :
    piecesFrom behind quoted d (c :: t) =
      (piecesFrom (c :: behind) (quotedAfter behind quoted c t) (d + deeper quoted c) t).modifyHead
        (c :: ·) := by
  have hc : ¬ ((c = ',' && !quoted && d = 0) = true) := by
    simpa only [Bool.and_eq_true, decide_eq_true_eq, Bool.not_eq_true', and_assoc] using h
  rw [piecesFrom, if_neg hc]
  cases hp : piecesFrom (c :: behind) (quotedAfter behind quoted c t) (d + deeper quoted c) t with
  | nil => exact absurd hp (piecesFrom_ne_nil t)
  | cons piece more => rfl

theorem piecesFrom_append (h : Avoids nesting ',' 0 d (unquoted ahead behind quoted t)) :
    piecesFrom behind quoted d (t ++ ahead) =
      (piecesFrom (t.reverse ++ behind) (quotedPast ahead behind quoted t)
        (d + depth nesting (unquoted ahead behind quoted t)) ahead).modifyHead (t ++ ·) := by
  induction t generalizing behind quoted d with
  | nil =>
    rw [unquoted, depth_nil, Int.add_zero]
    exact (congrFun List.modifyHead_id _).symm
  | cons c t ih =>
    -- Inside a string the character does not count, outside it is the first that counts.
    cases quoted with
    | true =>
      have hstep : deeper true c = 0 := rfl
      rw [List.cons_append, piecesFrom_cons (by rintro ⟨-, h, -⟩; cases h), hstep, Int.add_zero, ih h,
        List.modifyHead_modifyHead, quotedPast, unquoted, List.reverse_cons, List.append_assoc]
      rfl
    | false =>
      obtain ⟨hc, hmore⟩ := avoids_cons.mp h
      rw [List.cons_append, piecesFrom_cons (by rintro ⟨rfl, -, hd⟩; exact hc rfl hd), ih hmore,
        List.modifyHead_modifyHead, quotedPast, unquoted, List.reverse_cons, List.append_assoc]
      simp only [Bool.false_eq_true, if_false, depth_cons, Int.add_assoc]
      rfl

theorem closingFrom_append (h : Avoids nesting ')' 1 d (unquoted ahead behind quoted t)) :
    closingFrom behind quoted d (t ++ ahead) =
      (closingFrom (t.reverse ++ behind) (quotedPast ahead behind quoted t)
        (d + depth nesting (unquoted ahead behind quoted t)) ahead).map (· + t.length) := by
  induction t generalizing behind quoted d with
  | nil =>
    rw [unquoted, depth_nil, Int.add_zero]
    exact Option.map_id'.symm
  | cons c t ih =>
    cases quoted with
    | true =>
      have hc : ¬ ((c = ')' && !true && d = 1) = true) := by simp
      have hstep : deeper true c = 0 := rfl
      rw [List.cons_append, closingFrom, if_neg hc, hstep, Int.add_zero, ih h, Option.map_map, quotedPast,
        unquoted, List.reverse_cons, List.append_assoc]
      rfl
    | false =>
      obtain ⟨hhere, hmore⟩ := avoids_cons.mp h
      have hc : ¬ ((c = ')' && !false && d = 1) = true) := by
        simp only [Bool.not_false, Bool.and_true, Bool.and_eq_true, decide_eq_true_eq]
        exact fun hc => hhere hc.1 hc.2
      rw [List.cons_append, closingFrom, if_neg hc, ih hmore, Option.map_map, quotedPast, unquoted,
        List.reverse_cons, List.append_assoc]
      simp only [Bool.false_eq_true, if_false, depth_cons, Int.add_assoc]
      rfl

/-! ## 4. Strings -/

/-- A text with every apostrophe written twice. -/
def doubled (t : Text) : Text := t.flatMap fun c => if c = '\'' then ['\'', '\''] else [c]

theorem doubled_quote (t : Text) : doubled ('\'' :: t) = '\'' :: '\'' :: doubled t := rfl

theorem doubled_cons {c : Char} (h : c ≠ '\'') (t : Text) : doubled (c :: t) = c :: doubled t := by
  rw [doubled, List.flatMap_cons, if_neg h]
  rfl

theorem doubled_of_notMem (h : '\'' ∉ t) : doubled t = t := by
  induction t with
  | nil => rfl
  | cons c t ih =>
    rw [List.mem_cons, not_or] at h
    rw [doubled_cons (Ne.symm h.1), ih h.2]

theorem readQuoted?_doubled (content : Text) {rest : Text} (h : rest.head? ≠ some '\'') :
    readQuoted? (doubled content ++ '\'' :: rest) = some (content, (doubled content).length + 1) := by
  induction content with
  | nil =>
    cases rest with
    | nil => rfl
    | cons c rest =>
      have hc : c ≠ '\'' := fun heq => h (congrArg some heq)
      rw [doubled, List.flatMap_nil, List.nil_append, readQuoted?]
      · rfl
      · rintro rest' heq
        exact hc (List.cons.inj heq).1
  | cons c content ih =>
    by_cases hc : c = '\''
    · subst hc
      rw [doubled_quote, List.cons_append, List.cons_append, readQuoted?, ih]
      rfl
    · rw [doubled_cons hc, List.cons_append, readQuoted?_cons hc, ih]
      rfl

/-- A string is read up to an apostrophe without another one after it. -/
theorem readQuoted?_eq_some_iff {content : Text} {n : Nat} :
    readQuoted? t = some (content, n) ↔
      ∃ rest, t = doubled content ++ '\'' :: rest ∧ rest.head? ≠ some '\'' ∧
        n = (doubled content).length + 1 := by
  constructor
  · intro h
    induction t using readQuoted?.induct generalizing content n with
    | case1 => cases h
    | case2 rest ih =>
      rw [readQuoted?] at h
      obtain ⟨⟨content, n⟩, hread, heq⟩ := Option.map_eq_some_iff.mp h
      cases heq
      obtain ⟨rest, rfl, hrest, rfl⟩ := ih hread
      exact ⟨rest, rfl, hrest, rfl⟩
    | case3 rest hne =>
      rw [readQuoted?] at h
      · cases h
        refine ⟨rest, rfl, fun hhead => ?_, rfl⟩
        exact hne _ (List.eq_cons_of_mem_head? hhead)
      · exact hne
    | case4 c rest hne hne' ih =>
      have hc : c ≠ '\'' := fun heq => hne' heq
      rw [readQuoted?_cons hc] at h
      obtain ⟨⟨content, n⟩, hread, heq⟩ := Option.map_eq_some_iff.mp h
      cases heq
      obtain ⟨rest, rfl, hrest, rfl⟩ := ih hread
      refine ⟨rest, ?_, hrest, ?_⟩
      · rw [doubled_cons hc, List.cons_append]
      · rw [doubled_cons hc, List.length_cons]
  · rintro ⟨rest, rfl, hrest, rfl⟩
    exact readQuoted?_doubled content hrest

/-- An apostrophe in a string ends it. -/
theorem quotedAfter_quoted : quotedAfter behind true '\'' ahead = false := rfl

/-- An apostrophe outside strings that is not part of an attribute reference begins one. -/
theorem quotedAfter_unquoted (h : attributeQuote behind ahead = false) :
    quotedAfter behind false '\'' ahead = true := by
  unfold quotedAfter
  rw [h]
  rfl

theorem attributeQuote_of_ofLetter? {c : Char} (h : AttributeKind.ofLetter? c = none) :
    attributeQuote (c :: behind) ahead = false := by
  simp only [attributeQuote, h]
  rfl

/-- What is left of a string ends outside it, and nothing of it is in the way of a scan. -/
theorem passes_string (content : Text) :
    quotedPast ahead behind true (doubled content ++ ['\'']) = false ∧
      ∀ c ∈ unquoted ahead behind true (doubled content ++ ['\'']), c = '\'' := by
  induction content generalizing behind with
  | nil => exact ⟨rfl, nofun⟩
  | cons c content ih =>
    by_cases hc : c = '\''
    · subst hc
      have hagain : attributeQuote ('\'' :: behind) (doubled content ++ ['\''] ++ ahead) = false :=
        attributeQuote_of_ofLetter? (by decide)
      obtain ⟨hpast, hquotes⟩ := @ih ('\'' :: '\'' :: behind)
      rw [doubled_quote, List.cons_append, List.cons_append]
      simp only [quotedPast, unquoted, quotedAfter_quoted, quotedAfter_unquoted hagain]
      refine ⟨hpast, ?_⟩
      rintro c (_ | ⟨_, hmem⟩)
      · rfl
      · exact hquotes c hmem
    · rw [doubled_cons hc, List.cons_append]
      simp only [quotedPast, unquoted, quotedAfter_of_ne hc]
      exact ih

/-! ## 5. Coherent text -/

/-- A piece of text after `behind` and before `ahead` that does not end in a string, with paired parentheses and no
blank outside strings. -/
structure Coherent (ahead behind t : Text) : Prop where
  past : quotedPast ahead behind false t = false
  noBlank : ∀ c ∈ unquoted ahead behind false t, Text.isBlank c = false
  paired : Paired nesting (unquoted ahead behind false t)

/-- A coherent piece of text without a comma outside strings and parentheses. -/
structure Undivided (ahead behind t : Text) : Prop extends Coherent ahead behind t where
  noComma : Avoids nesting ',' 0 0 (unquoted ahead behind false t)

theorem undivided_nil : Undivided ahead behind [] := ⟨⟨rfl, nofun, paired_of_flat nofun⟩, avoids_nil⟩

/-- A character that no scan stops at or counts. -/
def isInert (c : Char) : Bool := !Text.isBlank c && c ∉ ['(', ')', ',']

theorem isInert_iff {c : Char} :
    isInert c = true ↔ Text.isBlank c = false ∧ c ≠ '(' ∧ c ≠ ')' ∧ c ≠ ',' := by
  simp [isInert]

theorem nesting_of_isInert {c : Char} (h : isInert c = true) : nesting c = 0 := by
  obtain ⟨-, hopen, hclose, -⟩ := isInert_iff.mp h
  simp [deeper, hopen, hclose]

/-- A piece of text that does not end in a string and has only inert characters outside strings. -/
structure Inert (ahead behind t : Text) : Prop where
  past : quotedPast ahead behind false t = false
  chars : ∀ c ∈ unquoted ahead behind false t, isInert c = true

theorem Inert.undivided (h : Inert ahead behind t) : Undivided ahead behind t where
  past := h.past
  noBlank c hc := (isInert_iff.mp (h.chars c hc)).1
  paired := paired_of_flat fun c hc => nesting_of_isInert (h.chars c hc)
  noComma := avoids_of_notMem fun hc => (isInert_iff.mp (h.chars ',' hc)).2.2.2 rfl

theorem Inert.append (ht : Inert (u ++ ahead) behind t) (hu : Inert ahead (t.reverse ++ behind) u) :
    Inert ahead behind (t ++ u) where
  past := by rw [quotedPast_append, ht.past, hu.past]
  chars := by
    rw [unquoted_append, ht.past]
    exact List.forall_mem_append.mpr ⟨ht.chars, hu.chars⟩

/-- Text of inert characters, none of them an apostrophe. -/
theorem inert_of_plain (h : ∀ c ∈ t, isInert c = true ∧ c ≠ '\'') : Inert ahead behind t := by
  have hquote : '\'' ∉ t := fun hmem => (h _ hmem).2 rfl
  refine ⟨quotedPast_of_notMem hquote, ?_⟩
  rw [unquoted_of_notMem hquote]
  exact fun c hc => (h c hc).1

/-- A string in apostrophes, if the first of them is not taken for a part of an attribute reference. -/
theorem inert_string {content : Text}
    (h : attributeQuote behind (doubled content ++ ['\''] ++ ahead) = false) :
    Inert ahead behind ('\'' :: (doubled content ++ ['\''])) := by
  obtain ⟨hpast, hquotes⟩ := @passes_string ahead ('\'' :: behind) content
  constructor
  · rw [quotedPast, quotedAfter_unquoted h, hpast]
  · rw [unquoted, quotedAfter_unquoted h]
    rintro c (_ | ⟨_, hmem⟩)
    · decide
    · rw [hquotes c hmem]
      decide

/-- The apostrophe of an attribute reference. -/
theorem inert_attributeQuote (h : attributeQuote behind ahead = true) : Inert ahead behind ['\''] := by
  have hquote : quotedAfter behind false '\'' ahead = false := by
    unfold quotedAfter
    rw [h]
    rfl
  constructor
  · rw [quotedPast, List.nil_append, hquote]
    rfl
  · rw [unquoted, List.nil_append, hquote]
    rintro c (_ | ⟨_, hmem⟩)
    · decide
    · cases hmem

theorem Coherent.append (ht : Coherent (u ++ ahead) behind t)
    (hu : Coherent ahead (t.reverse ++ behind) u) : Coherent ahead behind (t ++ u) where
  past := by rw [quotedPast_append, ht.past, hu.past]
  noBlank := by
    rw [unquoted_append, ht.past]
    exact List.forall_mem_append.mpr ⟨ht.noBlank, hu.noBlank⟩
  paired := by
    rw [unquoted_append, ht.past]
    exact ht.paired.append hu.paired

theorem Undivided.append (ht : Undivided (u ++ ahead) behind t)
    (hu : Undivided ahead (t.reverse ++ behind) u) : Undivided ahead behind (t ++ u) where
  toCoherent := ht.toCoherent.append hu.toCoherent
  noComma := by
    rw [unquoted_append, ht.past]
    refine avoids_append ht.noComma ?_
    rw [ht.paired.closed]
    exact hu.noComma

theorem unquoted_parentheses (h : quotedPast (')' :: ahead) ('(' :: behind) false t = false) :
    unquoted ahead behind false ('(' :: (t ++ [')'])) =
      '(' :: (unquoted (')' :: ahead) ('(' :: behind) false t ++ [')']) := by
  rw [unquoted, quotedAfter_of_ne (by decide), unquoted_append, List.singleton_append, h]
  rfl

/-- Coherent text in parentheses is undivided, whatever commas it has. -/
theorem Coherent.enclosed (h : Coherent (')' :: ahead) ('(' :: behind) t) :
    Undivided ahead behind ('(' :: (t ++ [')'])) where
  past := by
    rw [quotedPast, quotedAfter_of_ne (by decide), quotedPast_append, List.singleton_append, h.past]
    rfl
  noBlank := by
    rw [unquoted_parentheses h.past]
    rintro c (_ | ⟨_, hc⟩)
    · rfl
    · rcases List.mem_append.mp hc with hc | hc
      · exact h.noBlank c hc
      · rw [List.mem_singleton.mp hc]
        rfl
  paired := by
    rw [unquoted_parentheses h.past]
    exact h.paired.enclosed rfl rfl
  noComma := by
    rw [unquoted_parentheses h.past]
    refine avoids_cons.mpr ⟨nofun, avoids_append h.paired.avoids ?_⟩
    exact avoids_of_notMem (by decide)

/-! ## 6. Scans of coherent text -/

/-- The parenthesis that closes the one before coherent text is the one behind it. -/
theorem Coherent.closingFrom (h : Coherent (')' :: ahead) ('(' :: behind) t) :
    closingFrom behind false 0 ('(' :: (t ++ ')' :: ahead)) = some (t.length + 1) := by
  have hpass := closingFrom_append (d := 1) (h.paired.avoids_closing rfl)
  have hopen : deeper false '(' = 1 := rfl
  rw [Source.closingFrom, if_neg (by decide), quotedAfter_of_ne (by decide), hopen, Int.zero_add, hpass,
    h.past, h.paired.closed, Source.closingFrom]
  simp

theorem Undivided.piecesFrom (h : Undivided ahead behind t) :
    piecesFrom behind false 0 (t ++ ahead) =
      (piecesFrom (t.reverse ++ behind) false 0 ahead).modifyHead (t ++ ·) := by
  rw [piecesFrom_append h.noComma, h.past, h.paired.closed]
  rfl

theorem Coherent.cutAtBlank (h : Coherent ahead behind t) :
    cutAtBlank behind false (t ++ ahead) =
      (cutAtBlank (t.reverse ++ behind) false ahead).map (t ++ ·) id := by
  rw [cutAtBlank_append h.noBlank, h.past]

/-- Text that does not end in a string does not end in a blank, if it has none outside strings. -/
theorem getLast?_of_unquoted (hpast : quotedPast ahead behind quoted t = false)
    (hblank : ∀ c ∈ unquoted ahead behind quoted t, Text.isBlank c = false) :
    t.getLast?.any Text.isBlank = false := by
  induction t generalizing behind quoted with
  | nil => rfl
  | cons c t ih =>
    have hmore : ∀ b ∈ unquoted ahead (c :: behind) (quotedAfter behind quoted c (t ++ ahead)) t,
        Text.isBlank b = false := fun b hb => hblank b (mem_unquoted_cons hb)
    cases t with
    | cons b t => exact ih hpast hmore
    | nil =>
      show Text.isBlank c = false
      cases quoted with
      | false => exact hblank c List.mem_cons_self
      | true =>
        -- Only an apostrophe ends a string.
        by_cases hc : c = '\''
        · rw [hc]
          rfl
        · rw [quotedPast, quotedAfter_of_ne hc] at hpast
          cases hpast

theorem Coherent.trim (h : Coherent ahead behind t) : Text.trim t = t := by
  have hstart : Text.trimStart t = t := by
    cases t with
    | nil => rfl
    | cons c t =>
      have hc := h.noBlank c List.mem_cons_self
      exact List.dropWhile_cons_of_neg (Bool.eq_false_iff.mp hc)
  rw [Text.trim, hstart, Text.trimEnd_eq_self (getLast?_of_unquoted h.past h.noBlank)]

end Source

end Assembler
