import Assembler.Proofs.Display
/-!
Letter case in source text.

Folding a text before it is divided gives the folded parts of what it is divided into: this holds for the fields of a
line (`Line.ofText_fold`), for the operands between commas (`splitCommas_fold`), and for tokens (`Token.scan_fold`),
of which only the strings of self-defining terms keep the case of their letters.
-/

namespace Assembler

/-! ## 1. Characters and texts -/

namespace Numeral

theorem digit?_toUpper (base : Nat) (c : Char) : digit? base c.toUpper = digit? base c := by
  have hplace : place c.toUpper = place c := by rw [place, Text.toUpper_toUpper, place]
  rw [digit?_eq, digit?_eq, Text.toUpper_toUpper, hplace]

theorem readFrom_fold (base sofar : Nat) (t : Text) : readFrom base sofar (Text.fold t) = readFrom base sofar t := by
  induction t generalizing sofar with
  | nil => rfl
  | cons c t ih =>
    change (digit? base c.toUpper >>= fun d => readFrom base (sofar * base + d) (Text.fold t)) = _
    simp only [digit?_toUpper, ih]
    rfl

theorem read?_fold (base : Nat) (t : Text) : read? base (Text.fold t) = read? base t := by
  rw [read?, read?, readFrom_fold, Text.fold, List.isEmpty_map]

end Numeral

namespace Text

variable {c d : Char} {t : Text}

/-- Only letters have two cases. -/
theorem toUpper_eq_iff (h : d.isAlpha = false) : c.toUpper = d ↔ c = d := by
  have hcode : ∀ a b : Char, a = b ↔ a.toNat = b.toNat := fun _ _ => ⟨congrArg _, Char.toNat_inj.mp⟩
  have halpha : d.isAlpha =
      (decide (65 ≤ d.toNat ∧ d.toNat ≤ 90) || decide (97 ≤ d.toNat) && decide (d.toNat ≤ 122)) := rfl
  have hrange : ¬ (65 ≤ d.toNat ∧ d.toNat ≤ 90) ∧ ¬ (97 ≤ d.toNat ∧ d.toNat ≤ 122) := by
    rw [halpha, Bool.or_eq_false_iff, Bool.and_eq_false_iff] at h
    simp only [decide_eq_false_iff_not] at h
    omega
  rw [hcode, hcode, Numeral.toNat_toUpper]
  split_ifs <;> omega

theorem isBlank_toUpper (c : Char) : isBlank c.toUpper = isBlank c := by
  by_cases h : 97 ≤ c.toNat ∧ c.toNat ≤ 122
  · have hupper : c.toUpper.toNat = c.toNat - 32 := by rw [Numeral.toNat_toUpper, if_pos h]
    rw [Source.isBlank_eq_false (by omega) (by omega), Source.isBlank_eq_false (by omega) (by omega)]
  · have hsame : c.toUpper = c := Char.toNat_inj.mp (by rw [Numeral.toNat_toUpper, if_neg h])
    rw [hsame]

@[simp] theorem length_fold (t : Text) : (fold t).length = t.length := List.length_map _

@[simp] theorem isEmpty_fold (t : Text) : (fold t).isEmpty = t.isEmpty := List.isEmpty_map

theorem fold_cons (c : Char) (t : Text) : fold (c :: t) = c.toUpper :: fold t := rfl

theorem fold_append (t u : Text) : fold (t ++ u) = fold t ++ fold u := List.map_append

theorem fold_take (n : Nat) (t : Text) : fold (t.take n) = (fold t).take n := List.map_take

theorem fold_drop (n : Nat) (t : Text) : fold (t.drop n) = (fold t).drop n := List.map_drop

theorem fold_reverse (t : Text) : fold t.reverse = (fold t).reverse := List.map_reverse

theorem takeWhile_fold {p : Char → Bool} (hp : ∀ c : Char, p c.toUpper = p c) (t : Text) :
    (fold t).takeWhile p = fold (t.takeWhile p) := by
  rw [fold, List.takeWhile_map, show p ∘ Char.toUpper = p from funext hp]
  rfl

theorem dropWhile_fold {p : Char → Bool} (hp : ∀ c : Char, p c.toUpper = p c) (t : Text) :
    (fold t).dropWhile p = fold (t.dropWhile p) := by
  rw [fold, List.dropWhile_map, show p ∘ Char.toUpper = p from funext hp]
  rfl

/-- Whether a text starts with a character that has one case only. -/
theorem head?_fold_eq_iff (h : d.isAlpha = false) (t : Text) : (fold t).head? = some d ↔ t.head? = some d := by
  cases t with
  | nil => exact Iff.rfl
  | cons c t => rw [fold_cons, List.head?_cons, List.head?_cons, Option.some_inj, Option.some_inj, toUpper_eq_iff h]

theorem trim_fold (t : Text) : trim (fold t) = fold (trim t) := by
  simp only [trim, trimStart, trimEnd, dropWhile_fold isBlank_toUpper, ← fold_reverse]

end Text

namespace Source

open Text

variable {behind ahead t : Text} {quoted : Bool} {d : Int}

/-! ## 2. Apostrophes, parentheses and commas -/

theorem attributeQuote_fold (behind ahead : Text) :
    attributeQuote (fold behind) (fold ahead) = attributeQuote behind ahead := by
  have hoperand : (fold ahead).head?.any (fun d => isNameStart d || d = '&') =
      ahead.head?.any fun d => isNameStart d || d = '&' := by
    refine Token.head?_any_fold (fun d => ?_) ahead
    rw [isNameStart_toUpper, decide_eq_decide.mpr (toUpper_eq_iff rfl)]
  cases behind with
  | nil => rfl
  | cons c behind =>
    simp only [fold_cons, attributeQuote, ofLetter?_toUpper, Token.head?_any_fold @isNameChar_toUpper, hoperand]

theorem quotedAfter_fold (behind : Text) (quoted : Bool) (c : Char) (ahead : Text) :
    quotedAfter (fold behind) quoted c.toUpper (fold ahead) = quotedAfter behind quoted c ahead := by
  simp only [quotedAfter, attributeQuote_fold, toUpper_eq_iff (c := c) (d := '\'') rfl]

/-- The string has its letters folded, and goes just as far. -/
theorem readQuoted?_fold (t : Text) : readQuoted? (fold t) = (readQuoted? t).map (Prod.map fold id) := by
  induction t using readQuoted?.induct with
  | case1 => rfl
  | case2 rest ih =>
    change (readQuoted? (fold rest)).map _ = _
    rw [ih, readQuoted?, Option.map_map, Option.map_map]
    rfl
  | case3 rest hne =>
    have hquote : ∀ more, fold rest ≠ '\'' :: more := fun more hmore =>
      hne _ (List.eq_cons_of_mem_head? ((head?_fold_eq_iff rfl rest).mp (congrArg List.head? hmore)))
    change readQuoted? ('\'' :: fold rest) = _
    rw [readQuoted?, readQuoted?]
    · rfl
    · exact hne
    · exact hquote
  | case4 c rest hne hne' ih =>
    have hc : c ≠ '\'' := fun heq => hne' heq
    have hupper : c.toUpper ≠ '\'' := fun heq => hc ((toUpper_eq_iff rfl).mp heq)
    rw [fold_cons, readQuoted?_cons hc, readQuoted?_cons hupper, ih, Option.map_map, Option.map_map]
    rfl

theorem cutAtBlank_fold (behind : Text) (quoted : Bool) (t : Text) :
    cutAtBlank (fold behind) quoted (fold t) = Prod.map fold fold (cutAtBlank behind quoted t) := by
  induction t generalizing behind quoted with
  | nil => rfl
  | cons c t ih =>
    rw [fold_cons, cutAtBlank, cutAtBlank, isBlank_toUpper, quotedAfter_fold, ← fold_cons, ← fold_cons, ih]
    split <;> rfl

theorem splitOperands_fold (t : Text) : splitOperands (fold t) = Prod.map fold fold (splitOperands t) := by
  have hcut : cutAtBlank [] false (fold t) = _ := cutAtBlank_fold [] false t
  simp only [splitOperands, hcut, Prod.map_fst, Prod.map_snd, trim_fold, Prod.map_apply]

theorem deeper_toUpper (quoted : Bool) (c : Char) : deeper quoted c.toUpper = deeper quoted c := by
  simp only [deeper, toUpper_eq_iff (c := c) (d := '(') rfl, toUpper_eq_iff (c := c) (d := ')') rfl]

theorem piecesFrom_fold (behind : Text) (quoted : Bool) (d : Int) (t : Text) :
    piecesFrom (fold behind) quoted d (fold t) = (piecesFrom behind quoted d t).map fold := by
  induction t generalizing behind quoted d with
  | nil => rfl
  | cons c t ih =>
    have hpieces := ih (c :: behind) (quotedAfter behind quoted c t) (d + deeper quoted c)
    by_cases hc : c = ',' ∧ quoted = false ∧ d = 0
    · obtain ⟨rfl, rfl, rfl⟩ := hc
      change [] :: piecesFrom (fold (',' :: behind)) (quotedAfter (fold behind) false (','.toUpper) (fold t)) _
        (fold t) = _
      rw [quotedAfter_fold]
      exact congrArg ([] :: ·) hpieces
    · have hupper : ¬ (c.toUpper = ',' ∧ quoted = false ∧ d = 0) := by rwa [toUpper_eq_iff rfl]
      rw [fold_cons, piecesFrom_cons hc, piecesFrom_cons hupper, quotedAfter_fold, deeper_toUpper, ← fold_cons,
        hpieces]
      cases piecesFrom (c :: behind) (quotedAfter behind quoted c t) (d + deeper quoted c) t <;> rfl

theorem splitCommas_fold (t : Text) : splitCommas (fold t) = (splitCommas t).map fold :=
  piecesFrom_fold [] false 0 t

theorem closingFrom_fold (behind : Text) (quoted : Bool) (d : Int) (t : Text) :
    closingFrom (fold behind) quoted d (fold t) = closingFrom behind quoted d t := by
  induction t generalizing behind quoted d with
  | nil => rfl
  | cons c t ih =>
    rw [fold_cons, closingFrom, closingFrom, quotedAfter_fold, deeper_toUpper, ← fold_cons, ih]
    simp only [toUpper_eq_iff (c := c) (d := ')') rfl]

/-! ## 3. Lines -/

def Fields.fold (fields : Fields) : Fields where
  label? := fields.label?.map Text.fold
  opcode := Text.fold fields.opcode
  operands := Text.fold fields.operands
  remarks := Text.fold fields.remarks

def Line.fold : Line → Line
  | comment text => comment (Text.fold text)
  | instruction fields => instruction fields.fold
  | blank => blank

theorem isComment_iff {t : Text} :
    isComment t = true ↔ t.head? = some '*' ∨ t.head? = some '.' ∧ t.tail.head? = some '*' := by
  constructor
  · intro h
    unfold isComment at h
    split at h
    · exact .inl rfl
    · exact .inr ⟨rfl, rfl⟩
    · cases h
  · rintro (h | ⟨h, hnext⟩)
    · rw [List.eq_cons_of_mem_head? h]
      rfl
    · rw [List.eq_cons_of_mem_head? h, List.eq_cons_of_mem_head? hnext]
      rfl

theorem isComment_fold (t : Text) : isComment (Text.fold t) = isComment t := by
  have htail : (Text.fold t).tail = Text.fold t.tail := List.map_tail.symm
  rw [Bool.eq_iff_iff, isComment_iff, isComment_iff, htail, head?_fold_eq_iff rfl, head?_fold_eq_iff rfl,
    head?_fold_eq_iff rfl]

theorem cutWord_fold (t : Text) : cutWord (Text.fold t) = Prod.map Text.fold Text.fold (cutWord t) := by
  have hword (c : Char) : (!isBlank c.toUpper) = !isBlank c := congrArg not (isBlank_toUpper c)
  simp only [cutWord, takeWhile_fold (p := fun c => !isBlank c) hword,
    dropWhile_fold (p := fun c => !isBlank c) hword, Prod.map_apply]

theorem fieldsAfter_fold (label? : Option Text) (rest : Text) :
    fieldsAfter (label?.map Text.fold) (Text.fold rest) = (fieldsAfter label? rest).fold := by
  simp only [fieldsAfter, trimStart, dropWhile_fold isBlank_toUpper, cutWord_fold, Prod.map_fst, Prod.map_snd,
    splitOperands_fold]
  rfl

/-- The fields of a folded line are its folded fields. -/
theorem Line.ofText_fold (t : Text) : ofText (Text.fold t) = (ofText t).fold := by
  unfold ofText
  rw [isComment_fold, Token.all_fold isBlank_toUpper, Token.head?_any_fold isBlank_toUpper, cutWord_fold]
  split_ifs
  · rfl
  · rfl
  · exact congrArg instruction (fieldsAfter_fold none t)
  · exact congrArg instruction (fieldsAfter_fold (some (cutWord t).1) (cutWord t).2)

end Source

namespace Token

open Source Text

/-! ## 4. Tokens -/

/-- The token with the letters of its string folded. -/
def fold : Token → Token
  | hex digits => hex (Text.fold digits)
  | char content => char (Text.fold content)
  | binary digits => binary (Text.fold digits)
  | t => t

end Token

def ScanError.fold : ScanError → ScanError
  | unexpectedCharacter c column => unexpectedCharacter c.toUpper column
  | e => e

namespace Token

open Source Text

variable {behind t : Text} {afterTerm : Bool}

/-- What is scanned of a folded text, when this is scanned of the text. -/
def foldScan {α : Type} (f : α → α) (result : Except ScanError α) : Except ScanError α :=
  (result.map f).mapError ScanError.fold

theorem selfDefining?_fold (word content : Text) :
    selfDefining? word (Text.fold content) = (selfDefining? word content).map Token.fold := by
  unfold selfDefining?
  split_ifs <;> rfl

theorem scanWord_fold (behind : Text) (c : Char) (rest : Text) :
    scanWord (Text.fold behind) c.toUpper (Text.fold rest) =
      foldScan (Prod.map fold id) (scanWord behind c rest) := by
  have hword : Text.fold (c.toUpper :: Text.fold (rest.takeWhile isNameChar)) =
      Text.fold (c :: rest.takeWhile isNameChar) := Text.fold_fold (c :: rest.takeWhile isNameChar)
  have hname : Name.ofText (c.toUpper :: Text.fold (rest.takeWhile isNameChar)) =
      .ofText (c :: rest.takeWhile isNameChar) := Name.ofText_fold (c :: rest.takeWhile isNameChar)
  unfold scanWord
  simp only [takeWhile_fold @isNameChar_toUpper, length_fold, isEmpty_fold, ← fold_drop]
  cases hrest : rest.drop (rest.takeWhile isNameChar).length with
  | nil =>
    change Except.ok _ = _
    rw [hname]
    rfl
  | cons d ahead =>
    by_cases hd : d = '\''
    · subst hd
      have hquote : attributeQuote (c.toUpper :: Text.fold behind) (Text.fold ahead) =
          attributeQuote (c :: behind) ahead := attributeQuote_fold (c :: behind) ahead
      simp only [fold_cons, show '\''.toUpper = '\'' from rfl, hquote, ofLetter?_toUpper,
        head?_fold_eq_iff (d := '&') rfl, hword, readQuoted?_fold]
      generalize (if ahead.head? = some '&' then 1 else 0) = mark
      generalize (if (rest.takeWhile isNameChar).isEmpty = true ∧ attributeQuote (c :: behind) ahead = true then
        AttributeKind.ofLetter? c else none) = kind?
      cases kind? with
      | some kind =>
        simp only [← fold_drop, takeWhile_fold @isNameChar_toUpper, length_fold, Name.ofText_fold]
        rfl
      | none =>
        cases readQuoted? ahead with
        | none => rfl
        | some read =>
          obtain ⟨content, n⟩ := read
          simp only [Option.map_some, Prod.map_apply, selfDefining?_fold]
          cases selfDefining? (c.toUpper :: Text.fold (rest.takeWhile isNameChar)) content <;> rfl
    · have hupper : d.toUpper ≠ '\'' := fun heq => hd ((toUpper_eq_iff rfl).mp heq)
      rw [fold_cons]
      split
      · rename_i heq
        exact absurd (List.cons_eq_cons.mp heq).1 hupper
      · split
        · rename_i heq
          exact absurd (List.cons_eq_cons.mp heq).1 hd
        · rw [hname]
          rfl

theorem scanOne_fold (behind : Text) (afterTerm : Bool) (c : Char) (rest : Text) :
    scanOne (Text.fold behind) afterTerm c.toUpper (Text.fold rest) =
      foldScan (Prod.map fold id) (scanOne behind afterTerm c rest) := by
  unfold scanOne
  simp only [toUpper_eq_iff (c := c) (d := '(') rfl, toUpper_eq_iff (c := c) (d := ')') rfl,
    toUpper_eq_iff (c := c) (d := ',') rfl, toUpper_eq_iff (c := c) (d := '+') rfl,
    toUpper_eq_iff (c := c) (d := '-') rfl, toUpper_eq_iff (c := c) (d := '/') rfl,
    toUpper_eq_iff (c := c) (d := '*') rfl, toUpper_eq_iff (c := c) (d := '&') rfl, isNameStart_toUpper,
    isDigit_toUpper, scanWord_fold, takeWhile_fold @isNameChar_toUpper, takeWhile_fold @isDigit_toUpper, length_fold,
    isEmpty_fold, Name.ofText_fold]
  have hread : Numeral.read? 10 (c.toUpper :: Text.fold (rest.takeWhile Char.isDigit)) = _ :=
    Numeral.read?_fold 10 (c :: rest.takeWhile Char.isDigit)
  rw [hread]
  generalize (Numeral.read? 10 (c :: rest.takeWhile Char.isDigit)).filter (· ≤ maxNumber) = n?
  cases afterTerm <;> cases n? <;>
  · simp only [apply_ite (foldScan (Prod.map fold id))]
    rfl

theorem endsTerm_fold (token : Token) : token.fold.endsTerm = token.endsTerm := by cases token <;> rfl

/-- The tokens of a folded text are its tokens, their strings folded. -/
theorem scanFrom_fold (behind : Text) (afterTerm : Bool) (t : Text) :
    scanFrom (Text.fold behind) afterTerm (Text.fold t) = foldScan (List.map fold) (scanFrom behind afterTerm t) := by
  induction behind, afterTerm, t using scanFrom.induct with
  | case1 => rw [scanFrom]; exact scanFrom.eq_def _ _ _
  | case2 behind afterTerm c rest hblank ih =>
    have hupper : Text.isBlank c.toUpper = true := by rwa [isBlank_toUpper]
    rw [fold_cons, scanFrom, scanFrom, if_pos hblank, if_pos hupper]
    exact ih
  | case3 behind afterTerm c rest hblank e hone =>
    have hupper : ¬ Text.isBlank c.toUpper = true := by rwa [isBlank_toUpper]
    rw [fold_cons, scanFrom, scanFrom, if_neg hblank, if_neg hupper, scanOne_fold, hone]
    rfl
  | case4 behind afterTerm c rest hblank token n hone ih =>
    have hupper : ¬ Text.isBlank c.toUpper = true := by rwa [isBlank_toUpper]
    rw [fold_append, fold_reverse, fold_take, fold_cons, fold_drop] at ih
    rw [fold_cons, scanFrom, scanFrom, if_neg hblank, if_neg hupper, scanOne_fold, hone]
    change (scanFrom _ token.fold.endsTerm _).map (token.fold :: ·) = _
    rw [endsTerm_fold, id, ih]
    dsimp only
    cases scanFrom ((rest.take n).reverse ++ c :: behind) token.endsTerm (rest.drop n) <;> rfl

theorem scan_fold (t : Text) : scan (Text.fold t) = foldScan (List.map fold) (scan t) := scanFrom_fold [] false t

end Token

end Assembler
