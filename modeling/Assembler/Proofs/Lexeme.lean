import Assembler.Proofs.Quotation
/-!
Lexemes: what tokens are spelled like.

A text is divided into tokens just if it consists of blanks and lexemes, where a name, a number or a string goes on as
far as it can (`scanFrom_eq_ok_iff`). All that a lexeme depends on besides its own characters are the character before
it, the character after it, and for a `*` whether a term ends before it.
-/

namespace Assembler

/-! ## 1. Characters of names -/

namespace Source

variable {c : Char}

theorem isNameStart_iff :
    isNameStart c = true ↔ 65 ≤ c.toNat ∧ c.toNat ≤ 90 ∨ 97 ≤ c.toNat ∧ c.toNat ≤ 122 ∨
      c.toNat = 64 ∨ c.toNat = 35 ∨ c.toNat = 36 ∨ c.toNat = 95 := by
  have hcode : ∀ d : Char, c = d ↔ c.toNat = d.toNat := fun d => ⟨congrArg _, Char.toNat_inj.mp⟩
  have halpha : c.isAlpha =
      (decide (65 ≤ c.toNat ∧ c.toNat ≤ 90) || decide (97 ≤ c.toNat) && decide (c.toNat ≤ 122)) := rfl
  simp only [isNameStart, halpha, Bool.or_eq_true, Bool.and_eq_true, decide_eq_true_eq, List.mem_cons,
    List.not_mem_nil, or_false, hcode]
  exact or_assoc

theorem isNameChar_iff :
    isNameChar c = true ↔ isNameStart c = true ∨ c.isDigit = true := by
  simp only [isNameChar, isNameStart, Char.isAlphanum, Bool.or_eq_true]
  tauto

/-- Letter case does not matter for names. -/
theorem isNameStart_toUpper : isNameStart c.toUpper = isNameStart c := by
  rw [Bool.eq_iff_iff, isNameStart_iff, isNameStart_iff, Numeral.toNat_toUpper]
  split_ifs <;> omega

theorem isDigit_toUpper : c.toUpper.isDigit = c.isDigit := by
  rw [Bool.eq_iff_iff, Numeral.isDigit_iff, Numeral.isDigit_iff, Numeral.toNat_toUpper]
  split_ifs <;> omega

theorem isNameChar_toUpper : isNameChar c.toUpper = isNameChar c := by
  rw [Bool.eq_iff_iff, isNameChar_iff, isNameChar_iff, isNameStart_toUpper, isDigit_toUpper]

theorem isBlank_eq_false (h : 33 ≤ c.toNat) (h' : c.toNat ≤ 132) : Text.isBlank c = false := by
  rw [Text.isBlank, List.any_eq_false]
  simp only [Text.blankRanges, List.forall_mem_cons, Bool.and_eq_true, decide_eq_true_eq]
  refine ⟨?_, ?_, ?_, ?_, ?_, ?_, ?_, ?_, ?_, ?_, nofun⟩ <;> omega

/-- Names and numbers are passed over by every scan. -/
theorem isInert_of_isNameChar (h : isNameChar c = true) : isInert c = true ∧ c ≠ '\'' := by
  have hcode : 35 ≤ c.toNat ∧ c.toNat ≤ 132 ∧ c ≠ '\'' ∧ c ≠ '(' ∧ c ≠ ')' ∧ c ≠ ',' := by
    rw [isNameChar_iff, isNameStart_iff, Numeral.isDigit_iff] at h
    refine ⟨by omega, by omega, ?_, ?_, ?_, ?_⟩ <;>
    · rintro rfl
      revert h
      decide
  obtain ⟨hlow, hhigh, hquote, hchars⟩ := hcode
  exact ⟨isInert_iff.mpr ⟨isBlank_eq_false (by omega) hhigh, hchars⟩, hquote⟩

theorem isBlank_of_isNameChar (h : isNameChar c = true) : Text.isBlank c = false :=
  (isInert_iff.mp (isInert_of_isNameChar h).1).1

theorem isNameChar_of_isNameStart (h : isNameStart c = true) : isNameChar c = true :=
  isNameChar_iff.mpr (.inl h)

theorem isNameChar_of_isDigit (h : c.isDigit = true) : isNameChar c = true := isNameChar_iff.mpr (.inr h)

/-- Where no name goes on, no number does. -/
theorem head?_any_isDigit {t : Text} (h : t.head?.any isNameChar = false) : t.head?.any Char.isDigit = false := by
  cases t with
  | nil => rfl
  | cons c t => exact Bool.eq_false_iff.mpr fun hdigit => Bool.eq_false_iff.mp h (isNameChar_of_isDigit hdigit)

theorem ofLetter?_toUpper (c : Char) : AttributeKind.ofLetter? c.toUpper = AttributeKind.ofLetter? c := by
  unfold AttributeKind.ofLetter?
  rw [Text.toUpper_toUpper]

theorem toUpper_eq_of_ofLetter? {kind : AttributeKind} (h : AttributeKind.ofLetter? c = some kind) :
    c.toUpper = kind.letter := by
  have hfound := List.find?_some h
  exact (of_decide_eq_true hfound).symm

theorem isNameStart_of_ofLetter? {kind : AttributeKind} (h : AttributeKind.ofLetter? c = some kind) :
    isNameStart c = true := by
  rw [← isNameStart_toUpper, toUpper_eq_of_ofLetter? h]
  cases kind <;> rfl

theorem attributeQuote_eq_true_iff {behind ahead : Text} :
    attributeQuote (c :: behind) ahead = true ↔
      (AttributeKind.ofLetter? c).isSome = true ∧ behind.head?.any isNameChar = false ∧
        ahead.head?.any (fun d => isNameStart d || d = '&') = true := by
  simp only [attributeQuote, Bool.and_eq_true, Bool.not_eq_true', and_assoc]

theorem inert_name {name ahead behind : Text} (h : name.all isNameChar = true) : Inert ahead behind name :=
  inert_of_plain fun c hc => isInert_of_isNameChar (List.all_eq_true.mp h c hc)

end Source

theorem Numeral.isDigit_of_toUpper {c : Char} (h : c.toUpper ∈ Numeral.digits.take 10) :
    c.isDigit = true := by
  have hmem := List.mem_of_mem_take h
  have hplace : place c < 10 := (mem_take_digits hmem).mp h
  rw [isDigit_iff]
  rcases toNat_eq_of_mem_digits hmem with h | h | h <;> omega

namespace Token

open Source

/-! ## 2. Lexemes -/

/-- The texts that spell a token, if they stand after `behind` and before `ahead`. Whether a term ends before it tells
what a `*` means. -/
inductive Lexeme (behind ahead : Text) (afterTerm : Bool) : Text → Token → Prop
  | leftParen : Lexeme behind ahead afterTerm ['('] .leftParen
  | rightParen : Lexeme behind ahead afterTerm [')'] .rightParen
  | comma : Lexeme behind ahead afterTerm [','] .comma
  | sign (o : Operator) (term : o = .mul → afterTerm = true) :
    Lexeme behind ahead afterTerm [o.sign] (.op o)
  | counter (noTerm : afterTerm = false) : Lexeme behind ahead afterTerm ['*'] .counter
  | variableSymbol {name : Text} (named : name ≠ []) (chars : name.all isNameChar = true)
    (ends : ahead.head?.any isNameChar = false) :
    Lexeme behind ahead afterTerm ('&' :: name) (.variableSymbol (.ofText name))
  | symbol {name : Text} (starts : name.head?.any isNameStart = true)
    (chars : name.all isNameChar = true) (ends : ahead.head?.any isNameChar = false)
    (noQuote : ahead.head? ≠ some '\'') :
    Lexeme behind ahead afterTerm name (.symbol (.ofText name))
  | attr {letter : Char} {kind : AttributeKind} {ampersand : Bool} {name : Text}
    (known : AttributeKind.ofLetter? letter = some kind)
    (alone : behind.head?.any isNameChar = false)
    (starts : ampersand = false → name.head?.any isNameStart = true)
    (chars : name.all isNameChar = true) (ends : ahead.head?.any isNameChar = false) :
    Lexeme behind ahead afterTerm
      (letter :: '\'' :: ((if ampersand then ['&'] else []) ++ name)) (.attr kind ampersand (.ofText name))
  | quoted {word content : Text} {token : Token}
    (known : selfDefining? (Text.fold word) content = some token)
    (ends : ahead.head? ≠ some '\'') :
    Lexeme behind ahead afterTerm (word ++ '\'' :: (doubled content ++ ['\''])) token
  | number {digits : Text} {n : Nat} (reads : Numeral.read? 10 digits = some n) (fits : n ≤ maxNumber)
    (ends : ahead.head?.any Char.isDigit = false) :
    Lexeme behind ahead afterTerm digits (.number n)

variable {behind ahead t rest : Text} {afterTerm : Bool} {token : Token} {c : Char} {n : Nat}

/-! ## 3. One token -/

theorem takeWhile_append {p : Char → Bool} (h : t.all p = true) (hends : ahead.head?.any p = false) :
    (t ++ ahead).takeWhile p = t := by
  rw [List.takeWhile_append_of_pos fun c hc => List.all_eq_true.mp h c hc]
  cases ahead with
  | nil => exact List.append_nil t
  | cons c ahead =>
    have hc : ¬ p c = true := Bool.eq_false_iff.mp hends
    rw [List.takeWhile_cons_of_neg hc, List.append_nil]

theorem head?_dropWhile {p : Char → Bool} (t : Text) : (t.dropWhile p).head?.any p = false := by
  induction t with
  | nil => rfl
  | cons c t ih =>
    by_cases hc : p c = true
    · rwa [List.dropWhile_cons_of_pos hc]
    · rw [List.dropWhile_cons_of_neg hc]
      exact Bool.eq_false_iff.mpr hc

/-- What starts like a name is read as a word. -/
theorem scanOne_of_isNameStart (h : isNameStart c = true) :
    scanOne behind afterTerm c rest = scanWord behind c rest := by
  have hne : ∀ d, isNameStart d = false → c ≠ d := by
    rintro d hd rfl
    rw [h] at hd
    cases hd
  unfold scanOne
  rw [if_neg (hne '(' rfl), if_neg (hne ')' rfl), if_neg (hne ',' rfl), if_neg (hne '+' rfl),
    if_neg (hne '-' rfl), if_neg (hne '/' rfl), if_neg (hne '*' rfl), if_neg (hne '&' rfl), if_pos h]

theorem scanOne_of_isDigit (h : c.isDigit = true) :
    scanOne behind afterTerm c rest =
      ((Numeral.read? 10 (c :: rest.takeWhile Char.isDigit)).filter (· ≤ maxNumber)).elim
        (.error (.numberTooLarge (behind.length + 1)))
        fun n => .ok (number n, (rest.takeWhile Char.isDigit).length) := by
  have hne : ∀ d : Char, d.isDigit = false → c ≠ d := by
    rintro d hd rfl
    rw [h] at hd
    cases hd
  have hstart : ¬ isNameStart c = true := by
    rw [isNameStart_iff]
    rw [Numeral.isDigit_iff] at h
    omega
  unfold scanOne
  rw [if_neg (hne '(' rfl), if_neg (hne ')' rfl), if_neg (hne ',' rfl), if_neg (hne '+' rfl),
    if_neg (hne '-' rfl), if_neg (hne '/' rfl), if_neg (hne '*' rfl), if_neg (hne '&' rfl),
    if_neg hstart]
  refine (if_pos h).trans ?_
  dsimp only
  cases (Numeral.read? 10 (c :: rest.takeWhile Char.isDigit)).filter (· ≤ maxNumber) <;> rfl

/-- The words before a self-defining term. -/
theorem selfDefining?_eq_some {word content : Text} (h : selfDefining? word content = some token) :
    word = ['X'] ∧ token = .hex content ∨
      (word = ['C'] ∨ word = ['C', 'A'] ∨ word = ['C', 'E']) ∧ token = .char content ∨
        word = ['B'] ∧ token = .binary content := by
  unfold selfDefining? at h
  split_ifs at h with hx hc hb
  · exact .inl ⟨hx, (Option.some.inj h).symm⟩
  · exact .inr (.inl ⟨hc, (Option.some.inj h).symm⟩)
  · exact .inr (.inr ⟨hb, (Option.some.inj h).symm⟩)

theorem ofLetter?_of_toUpper (h : c.toUpper ∈ ['A', 'B', 'C', 'E', 'X']) :
    isNameStart c = true ∧ AttributeKind.ofLetter? c = none := by
  have hall : ['A', 'B', 'C', 'E', 'X'].all fun u => isNameStart u = true ∧ AttributeKind.ofLetter? u = none := by
    decide
  rw [← isNameStart_toUpper, ← ofLetter?_toUpper]
  exact of_decide_eq_true (List.all_eq_true.mp hall _ h)

/-- A word before a self-defining term is made of letters, and none of them is the letter of an attribute. -/
theorem letters_of_selfDefining? {word content : Text}
    (h : selfDefining? (Text.fold word) content = some token) :
    word ≠ [] ∧ ∀ c ∈ word, isNameStart c = true ∧ AttributeKind.ofLetter? c = none := by
  have hfold : Text.fold word ∈ [['X'], ['C'], ['C', 'A'], ['C', 'E'], ['B']] := by
    have hword := selfDefining?_eq_some h
    simp only [List.mem_cons, List.not_mem_nil, or_false]
    tauto
  have hall : [['X'], ['C'], ['C', 'A'], ['C', 'E'], ['B']].all fun folded =>
      folded ≠ [] ∧ folded.all (· ∈ ['A', 'B', 'C', 'E', 'X']) = true := by decide
  obtain ⟨hne, hletters⟩ := of_decide_eq_true (List.all_eq_true.mp hall _ hfold)
  refine ⟨?_, fun c hc => ofLetter?_of_toUpper ?_⟩
  · rintro rfl
    exact hne rfl
  · exact of_decide_eq_true (List.all_eq_true.mp hletters _ (List.mem_map_of_mem hc))

/-- The apostrophe after such a word begins a string. -/
theorem attributeQuote_of_selfDefining? {word content : Text}
    (h : selfDefining? (Text.fold word) content = some token) (behind ahead : Text) :
    attributeQuote (word.reverse ++ behind) ahead = false := by
  obtain ⟨hne, hletters⟩ := letters_of_selfDefining? h
  cases hrev : word.reverse with
  | nil => exact absurd (List.reverse_eq_nil_iff.mp hrev) hne
  | cons c tail =>
    have hmem : c ∈ word := List.mem_reverse.mp (hrev ▸ List.mem_cons_self)
    exact attributeQuote_of_ofLetter? (hletters c hmem).2

/-! ## 4. Words -/

section Word

variable {tail : Text} (hchars : tail.all isNameChar = true)

include hchars

theorem scanWord_symbol (hends : ahead.head?.any isNameChar = false) (hquote : ahead.head? ≠ some '\'') :
    scanWord behind c (tail ++ ahead) = .ok (symbol (.ofText (c :: tail)), tail.length) := by
  unfold scanWord
  simp only [takeWhile_append hchars hends, List.drop_left]
  split
  · exact absurd rfl hquote
  · rfl

/-- A word before an apostrophe makes a self-defining term of the string behind it, unless the two begin an attribute
reference. -/
theorem scanWord_string
    (hattr : tail = [] → attributeQuote (c :: behind) ahead = true → AttributeKind.ofLetter? c = none) :
    scanWord behind c (tail ++ '\'' :: ahead) =
      (readQuoted? ahead).elim (.error (.unterminatedString (behind.length + tail.length + 2))) fun read =>
        (selfDefining? (Text.fold (c :: tail)) read.1).elim
          (.error (.unexpectedCharacter '\'' (behind.length + tail.length + 2)))
          fun token => .ok (token, tail.length + 1 + read.2) := by
  have hword : (tail ++ '\'' :: ahead).takeWhile isNameChar = tail := takeWhile_append hchars rfl
  unfold scanWord
  simp only [hword, List.drop_left]
  split
  · rename_i kind hkind
    obtain ⟨⟨htail, hahead⟩, hkind⟩ := Option.ite_none_right_eq_some.mp hkind
    rw [hattr (List.isEmpty_iff.mp htail) hahead] at hkind
    cases hkind
  · cases readQuoted? ahead with
    | none => rfl
    | some read => cases hknown : selfDefining? (Text.fold (c :: tail)) read.1 <;> simp only [Option.elim, hknown]

end Word

/-- What an attribute reference names, with an ampersand or without. -/
theorem attributeQuote_operand {ampersand : Bool} {name : Text}
    (starts : ampersand = false → name.head?.any isNameStart = true) :
    ((if ampersand then ['&'] else []) ++ name ++ ahead).head?.any
      (fun d => isNameStart d || d = '&') = true := by
  cases ampersand with
  | true => rfl
  | false =>
    cases name with
    | nil => cases starts rfl
    | cons d name =>
      have hd : isNameStart d = true := starts rfl
      show (isNameStart d || d = '&') = true
      rw [hd, Bool.true_or]

theorem exists_attribute_operand (h : ahead.head?.any (fun d => isNameStart d || d = '&') = true) :
    ∃ (ampersand : Bool) (name rest : Text),
      ahead = (if ampersand then ['&'] else []) ++ name ++ rest ∧
        (ampersand = false → name.head?.any isNameStart = true) ∧
        name.all isNameChar = true ∧ rest.head?.any isNameChar = false := by
  cases ahead with
  | nil => cases h
  | cons d ahead =>
    by_cases hd : d = '&'
    · subst hd
      refine ⟨true, ahead.takeWhile isNameChar, ahead.dropWhile isNameChar, ?_, nofun,
        List.all_takeWhile, head?_dropWhile ahead⟩
      rw [List.append_assoc, List.takeWhile_append_dropWhile]
      rfl
    · have hstart : isNameStart d = true := by
        have hor : (isNameStart d || d = '&') = true := h
        rw [decide_eq_false hd, Bool.or_false] at hor
        exact hor
      refine ⟨false, (d :: ahead).takeWhile isNameChar, (d :: ahead).dropWhile isNameChar, ?_, fun _ => ?_,
        List.all_takeWhile, head?_dropWhile _⟩
      · exact List.takeWhile_append_dropWhile.symm
      · rw [List.takeWhile_cons_of_pos (isNameChar_of_isNameStart hstart)]
        exact hstart

theorem scanWord_attr {kind : AttributeKind} {ampersand : Bool} {name : Text}
    (known : AttributeKind.ofLetter? c = some kind)
    (alone : behind.head?.any isNameChar = false)
    (starts : ampersand = false → name.head?.any isNameStart = true)
    (chars : name.all isNameChar = true) (ends : ahead.head?.any isNameChar = false) :
    scanWord behind c ('\'' :: ((if ampersand then ['&'] else []) ++ name ++ ahead)) =
      .ok (attr kind ampersand (.ofText name),
        1 + (if ampersand then 1 else 0) + name.length) := by
  have hattr : attributeQuote (c :: behind) ((if ampersand then ['&'] else []) ++ name ++ ahead) = true :=
    attributeQuote_eq_true_iff.mpr
      ⟨Option.isSome_iff_exists.mpr ⟨kind, known⟩, alone, attributeQuote_operand starts⟩
  have hnone : ('\'' :: ((if ampersand then ['&'] else []) ++ name ++ ahead)).takeWhile isNameChar = [] := rfl
  unfold scanWord
  simp only [hnone, List.length_nil, List.drop_zero]
  have hempty : List.isEmpty ([] : Text) = true := rfl
  rw [if_pos (And.intro hempty hattr), known]
  cases ampersand with
  | true =>
    simp [takeWhile_append chars ends]
  | false =>
    have hhead : (name ++ ahead).head? ≠ some '&' := by
      cases name with
      | nil => cases starts rfl
      | cons d name =>
        rintro ⟨⟩
        cases starts rfl
    simp only [Bool.false_eq_true, if_false, List.nil_append, if_neg hhead, decide_eq_false hhead,
      List.drop_zero, takeWhile_append chars ends]

theorem lexeme_of_scanWord (hstart : isNameStart c = true)
    (h : scanWord behind c rest = .ok (token, n)) :
    ∃ t ahead, rest = t ++ ahead ∧ n = t.length ∧ Lexeme behind ahead afterTerm (c :: t) token := by
  obtain ⟨tail, ahead, rfl, hchars, hends⟩ : ∃ tail ahead, rest = tail ++ ahead ∧
      tail.all isNameChar = true ∧ ahead.head?.any isNameChar = false :=
    ⟨rest.takeWhile isNameChar, rest.dropWhile isNameChar, List.takeWhile_append_dropWhile.symm,
      List.all_takeWhile, head?_dropWhile rest⟩
  have hname : (c :: tail).all isNameChar = true := by
    rw [List.all_cons, isNameChar_of_isNameStart hstart, hchars]
    rfl
  by_cases hquote : ahead.head? = some '\''
  · obtain ⟨ahead, rfl⟩ : ∃ more, ahead = '\'' :: more := ⟨_, List.eq_cons_of_mem_head? hquote⟩
    -- With a quote behind it a word is the letter of an attribute or the type of a self-defining term.
    by_cases hattr : tail = [] ∧ attributeQuote (c :: behind) ahead = true ∧
      ∃ kind, AttributeKind.ofLetter? c = some kind
    · obtain ⟨rfl, hattr, kind, known⟩ := hattr
      obtain ⟨-, alone, hhead⟩ := attributeQuote_eq_true_iff.mp hattr
      obtain ⟨ampersand, name, rest, rfl, starts, chars, ends⟩ := exists_attribute_operand hhead
      rw [List.nil_append, scanWord_attr known alone starts chars ends] at h
      cases h
      refine ⟨'\'' :: ((if ampersand then ['&'] else []) ++ name), rest, rfl, ?_,
        .attr known alone starts chars ends⟩
      cases ampersand <;> simp <;> omega
    · rw [scanWord_string hchars fun htail hahead =>
        Option.eq_none_iff_forall_ne_some.mpr fun kind hkind => hattr ⟨htail, hahead, kind, hkind⟩] at h
      cases hread : readQuoted? ahead with
      | none =>
        rw [hread] at h
        cases h
      | some read =>
        obtain ⟨content, m⟩ := read
        obtain ⟨rest, rfl, hrest, rfl⟩ := readQuoted?_eq_some_iff.mp hread
        rw [hread, Option.elim_some] at h
        cases hknown : selfDefining? (Text.fold (c :: tail)) content with
        | none =>
          rw [hknown] at h
          cases h
        | some token' =>
          rw [hknown] at h
          cases h
          refine ⟨tail ++ '\'' :: (doubled content ++ ['\'']), rest, ?_, ?_, .quoted hknown hrest⟩
          · simp
          · simp
            omega
  · rw [scanWord_symbol hchars hends hquote] at h
    cases h
    exact ⟨tail, ahead, rfl, rfl, .symbol hstart hname hends hquote⟩

/-! ## 5. Tokens -/

theorem lexeme_of_isDigit (hdigit : c.isDigit = true)
    (h : scanOne behind afterTerm c rest = .ok (token, n)) :
    ∃ t ahead, rest = t ++ ahead ∧ n = t.length ∧ Lexeme behind ahead afterTerm (c :: t) token := by
  rw [scanOne_of_isDigit hdigit] at h
  cases hm : (Numeral.read? 10 (c :: rest.takeWhile Char.isDigit)).filter (· ≤ maxNumber) with
  | none =>
    rw [hm] at h
    cases h
  | some m =>
    rw [hm] at h
    cases h
    obtain ⟨hread, hfits⟩ := Option.filter_eq_some_iff.mp hm
    exact ⟨rest.takeWhile Char.isDigit, rest.dropWhile Char.isDigit, List.takeWhile_append_dropWhile.symm,
      rfl, .number hread (of_decide_eq_true hfits) (head?_dropWhile rest)⟩

/-- What is read at a character is a lexeme. -/
theorem lexeme_of_scanOne (h : scanOne behind afterTerm c rest = .ok (token, n)) :
    ∃ t ahead, rest = t ++ ahead ∧ n = t.length ∧ Lexeme behind ahead afterTerm (c :: t) token := by
  by_cases hstart : isNameStart c = true
  · rw [scanOne_of_isNameStart hstart] at h
    exact lexeme_of_scanWord hstart h
  by_cases hdigit : c.isDigit = true
  · exact lexeme_of_isDigit hdigit h
  have alone : ∀ {token' : Token}, Lexeme behind rest afterTerm [c] token' →
      Except.ok (token', 0) = (Except.ok (token, n) : Except ScanError (Token × Nat)) →
      ∃ t ahead, rest = t ++ ahead ∧ n = t.length ∧ Lexeme behind ahead afterTerm (c :: t) token := by
    rintro token' hlexeme heq
    cases heq
    exact ⟨[], rest, rfl, rfl, hlexeme⟩
  -- What is left are lexemes of one character and variable symbols, tried one after another.
  unfold scanOne at h
  by_cases hc : c = '('
  · subst hc
    exact alone .leftParen h
  rw [if_neg hc] at h
  by_cases hc : c = ')'
  · subst hc
    exact alone .rightParen h
  rw [if_neg hc] at h
  by_cases hc : c = ','
  · subst hc
    exact alone .comma h
  rw [if_neg hc] at h
  by_cases hc : c = '+'
  · subst hc
    exact alone (.sign .add nofun) h
  rw [if_neg hc] at h
  by_cases hc : c = '-'
  · subst hc
    exact alone (.sign .sub nofun) h
  rw [if_neg hc] at h
  by_cases hc : c = '/'
  · subst hc
    exact alone (.sign .div nofun) h
  rw [if_neg hc] at h
  by_cases hc : c = '*'
  · subst hc
    cases afterTerm with
    | true => exact alone (.sign .mul fun _ => rfl) h
    | false => exact alone (.counter rfl) h
  rw [if_neg hc] at h
  by_cases hc : c = '&'
  · subst hc
    rw [if_pos rfl] at h
    dsimp only at h
    split at h
    · cases h
    · rename_i hname
      cases h
      exact ⟨rest.takeWhile isNameChar, rest.dropWhile isNameChar, List.takeWhile_append_dropWhile.symm,
        rfl, .variableSymbol (fun heq => hname (List.isEmpty_iff.mpr heq)) List.all_takeWhile (head?_dropWhile rest)⟩
  rw [if_neg hc, if_neg hstart, if_neg hdigit] at h
  cases h

/-- A word with a text in quotes behind it is read as the term that they denote. -/
theorem scanOne_quoted {word content : Text} (known : selfDefining? (Text.fold word) content = some token)
    (ends : ahead.head? ≠ some '\'') :
    ∃ d u, word ++ '\'' :: (doubled content ++ ['\'']) = d :: u ∧ Text.isBlank d = false ∧
      Token.scanOne behind afterTerm d (u ++ ahead) = .ok (token, u.length) := by
  obtain ⟨hne, hletters⟩ := letters_of_selfDefining? known
  cases word with
  | nil => exact absurd rfl hne
  | cons d tail =>
    obtain ⟨hstart, hnone⟩ := hletters d List.mem_cons_self
    have hchars : tail.all isNameChar = true := List.all_eq_true.mpr fun e he =>
      isNameChar_of_isNameStart (hletters e (List.mem_cons_of_mem d he)).1
    refine ⟨d, tail ++ '\'' :: (doubled content ++ ['\'']), rfl,
      isBlank_of_isNameChar (isNameChar_of_isNameStart hstart), ?_⟩
    have hread := readQuoted?_doubled content ends
    rw [scanOne_of_isNameStart hstart, List.append_assoc, List.cons_append, List.append_assoc,
      List.singleton_append, scanWord_string hchars fun _ _ => hnone, hread, Option.elim_some, known,
      Option.elim_some]
    simp
    omega

/-- Digits are read as the number that they denote. -/
theorem scanOne_number {m : Nat} (reads : Numeral.read? 10 t = some m) (fits : m ≤ maxNumber)
    (ends : ahead.head?.any Char.isDigit = false) :
    ∃ d u, t = d :: u ∧ Text.isBlank d = false ∧
      Token.scanOne behind afterTerm d (u ++ ahead) = .ok (.number m, u.length) := by
  obtain ⟨hne, hdigits, -⟩ := Numeral.read?_eq_some_iff.mp reads
  have hall : t.all Char.isDigit = true :=
    List.all_eq_true.mpr fun d hd => Numeral.isDigit_of_toUpper (hdigits d hd)
  cases t with
  | nil => exact absurd rfl hne
  | cons d u =>
    rw [List.all_cons, Bool.and_eq_true] at hall
    refine ⟨d, u, rfl, isBlank_of_isNameChar (isNameChar_of_isDigit hall.1), ?_⟩
    rw [scanOne_of_isDigit hall.1, takeWhile_append hall.2 ends, reads, Option.filter_some,
      if_pos (decide_eq_true fits), Option.elim_some]

/-- Every lexeme is read as its token. -/
theorem Lexeme.scanOne (h : Lexeme behind ahead afterTerm t token) :
    ∃ c u, t = c :: u ∧ Text.isBlank c = false ∧
      Token.scanOne behind afterTerm c (u ++ ahead) = .ok (token, u.length) := by
  cases h with
  | leftParen => exact ⟨_, _, rfl, rfl, rfl⟩
  | rightParen => exact ⟨_, _, rfl, rfl, rfl⟩
  | comma => exact ⟨_, _, rfl, rfl, rfl⟩
  | sign o term =>
    cases o with
    | mul =>
      obtain rfl := term rfl
      exact ⟨_, _, rfl, rfl, rfl⟩
    | add | sub | div => exact ⟨_, _, rfl, rfl, rfl⟩
  | counter noTerm =>
    subst noTerm
    exact ⟨_, _, rfl, rfl, rfl⟩
  | variableSymbol named chars ends =>
    rename_i name
    refine ⟨_, _, rfl, rfl, ?_⟩
    have hempty : name.isEmpty = false := List.isEmpty_eq_false_iff.mpr named
    change (if (List.takeWhile isNameChar (name ++ ahead)).isEmpty = true then _ else _) = _
    rw [takeWhile_append chars ends, hempty]
    rfl
  | symbol starts chars ends noQuote =>
    cases t with
    | nil => cases starts
    | cons c u =>
      have hc : isNameStart c = true := starts
      rw [List.all_cons, Bool.and_eq_true] at chars
      refine ⟨c, u, rfl, isBlank_of_isNameChar chars.1, ?_⟩
      rw [scanOne_of_isNameStart hc, scanWord_symbol chars.2 ends noQuote]
  | attr known alone starts chars ends =>
    rename_i letter kind ampersand name
    have hc := isNameStart_of_ofLetter? known
    refine ⟨letter, _, rfl, isBlank_of_isNameChar (isNameChar_of_isNameStart hc), ?_⟩
    rw [scanOne_of_isNameStart hc, List.cons_append, scanWord_attr known alone starts chars ends]
    cases ampersand <;> simp <;> omega
  | quoted known ends => exact scanOne_quoted known ends
  | number reads fits ends => exact scanOne_number reads fits ends

/-! ## 6. Division into lexemes -/

/-- Whether a text after `behind` consists of blanks and the lexemes of the given tokens, each of which comes with the
number of characters before it. -/
inductive Division : Text → Bool → Text → List (Nat × Token) → Prop
  | nil {behind : Text} {afterTerm : Bool} : Division behind afterTerm [] []
  | blank {behind rest : Text} {afterTerm : Bool} {c : Char} {places : List (Nat × Token)}
    (hblank : Text.isBlank c = true) (h : Division (c :: behind) afterTerm rest places) :
    Division behind afterTerm (c :: rest) places
  | token {behind t rest : Text} {afterTerm : Bool} {token : Token} {places : List (Nat × Token)}
    (hlexeme : Lexeme behind rest afterTerm t token)
    (h : Division (t.reverse ++ behind) token.endsTerm rest places) :
    Division behind afterTerm (t ++ rest) ((behind.length, token) :: places)

theorem Division.scanFrom {places : List (Nat × Token)} (h : Division behind afterTerm t places) :
    Token.scanFrom behind afterTerm t = .ok (places.map Prod.snd) := by
  induction h with
  | nil => rw [Token.scanFrom]; rfl
  | blank hblank h ih => rw [Token.scanFrom, if_pos hblank, ih]
  | token hlexeme h ih =>
    rename_i behind t rest afterTerm token places
    obtain ⟨c, u, rfl, hblank, hone⟩ := hlexeme.scanOne
    rw [List.reverse_cons, List.append_assoc, List.singleton_append] at ih
    rw [List.cons_append, Token.scanFrom, if_neg (Bool.eq_false_iff.mp hblank), hone]
    simp only [List.take_left, List.drop_left, ih]
    rfl

theorem exists_division {ts : List Token} (h : scanFrom behind afterTerm t = .ok ts) :
    ∃ places, Division behind afterTerm t places ∧ places.map Prod.snd = ts := by
  -- The recursion is that of reading: the text behind a blank or a lexeme is shorter.
  induction hn : t.length using Nat.strongRecOn generalizing behind afterTerm t ts with
  | ind n ih =>
    subst hn
    cases t with
    | nil =>
      rw [scanFrom] at h
      cases h
      exact ⟨[], .nil, rfl⟩
    | cons c rest =>
      rw [scanFrom] at h
      by_cases hblank : Text.isBlank c = true
      · rw [if_pos hblank] at h
        obtain ⟨places, hdivision, htokens⟩ := ih rest.length (Nat.lt_succ_self _) h rfl
        exact ⟨places, .blank hblank hdivision, htokens⟩
      · rw [if_neg hblank] at h
        cases hone : scanOne behind afterTerm c rest with
        | error e =>
          rw [hone] at h
          cases h
        | ok read =>
          obtain ⟨token, m⟩ := read
          obtain ⟨u, ahead, rfl, rfl, hlexeme⟩ := lexeme_of_scanOne hone
          rw [hone] at h
          simp only [List.take_left, List.drop_left] at h
          cases hmore : scanFrom (u.reverse ++ c :: behind) token.endsTerm ahead with
          | error e =>
            rw [hmore] at h
            cases h
          | ok more =>
            rw [hmore] at h
            cases h
            have hshort : ahead.length < (c :: (u ++ ahead)).length := by
              rw [List.length_cons, List.length_append]
              omega
            obtain ⟨places, hdivision, rfl⟩ := ih _ hshort hmore rfl
            refine ⟨(behind.length, token) :: places, ?_, rfl⟩
            refine .token (t := c :: u) hlexeme ?_
            rwa [List.reverse_cons, List.append_assoc, List.singleton_append]

/-- A text is divided into tokens just if it consists of blanks and their lexemes. -/
theorem scanFrom_eq_ok_iff {ts : List Token} :
    scanFrom behind afterTerm t = .ok ts ↔
      ∃ places, Division behind afterTerm t places ∧ places.map Prod.snd = ts := by
  refine ⟨exists_division, ?_⟩
  rintro ⟨places, h, rfl⟩
  exact h.scanFrom

theorem Lexeme.ne_nil (h : Lexeme behind ahead afterTerm t token) : t ≠ [] := by
  obtain ⟨c, u, rfl, -⟩ := h.scanOne
  exact List.cons_ne_nil c u

theorem Lexeme.scanFrom {ts : List Token} (h : Lexeme behind ahead afterTerm t token)
    (hmore : scanFrom (t.reverse ++ behind) token.endsTerm ahead = .ok ts) :
    Token.scanFrom behind afterTerm (t ++ ahead) = .ok (token :: ts) := by
  obtain ⟨places, hdivision, rfl⟩ := exists_division hmore
  exact (Division.token h hdivision).scanFrom

/-- At one place no two lexemes begin. -/
theorem Lexeme.unique {t' ahead' : Text} {token' : Token} (h : Lexeme behind ahead afterTerm t token)
    (h' : Lexeme behind ahead' afterTerm t' token') (heq : t ++ ahead = t' ++ ahead') :
    t = t' ∧ ahead = ahead' ∧ token = token' := by
  obtain ⟨c, u, rfl, -, hone⟩ := h.scanOne
  obtain ⟨c', u', rfl, -, hone'⟩ := h'.scanOne
  rw [List.cons_append, List.cons_append] at heq
  obtain ⟨rfl, hrest⟩ := List.cons.inj heq
  rw [hrest, hone'] at hone
  obtain ⟨rfl, hlength⟩ := Prod.mk.inj (Except.ok.inj hone)
  obtain ⟨rfl, rfl⟩ := List.append_inj hrest hlength.symm
  exact ⟨rfl, rfl, rfl⟩

/-- A text is divided in one way at most. -/
theorem Division.unique {places places' : List (Nat × Token)} (h : Division behind afterTerm t places)
    (h' : Division behind afterTerm t places') : places = places' := by
  induction h generalizing places' with
  | nil =>
    generalize hwhole : ([] : Text) = whole at h'
    cases h' with
    | nil => rfl
    | blank hblank h' => cases hwhole
    | token hlexeme h' => exact absurd (List.append_eq_nil_iff.mp hwhole.symm).1 hlexeme.ne_nil
  | blank hblank h ih =>
    rename_i behind rest afterTerm c places
    generalize hwhole : c :: rest = whole at h'
    cases h' with
    | nil => cases hwhole
    | blank hblank' h' =>
      cases hwhole
      exact ih h'
    | token hlexeme h' =>
      -- No lexeme begins with a blank.
      obtain ⟨c', u, rfl, hsolid, -⟩ := hlexeme.scanOne
      rw [(List.cons.inj hwhole).1, hsolid] at hblank
      cases hblank
  | token hlexeme h ih =>
    rename_i behind t rest afterTerm token places
    generalize hwhole : t ++ rest = whole at h'
    cases h' with
    | nil => exact absurd (List.append_eq_nil_iff.mp hwhole).1 hlexeme.ne_nil
    | blank hblank h' =>
      obtain ⟨c', u, rfl, hsolid, -⟩ := hlexeme.scanOne
      rw [← (List.cons.inj hwhole).1, hsolid] at hblank
      cases hblank
    | token hlexeme' h' =>
      obtain ⟨rfl, rfl, rfl⟩ := hlexeme.unique hlexeme' hwhole
      rw [ih h']

end Token

end Assembler
