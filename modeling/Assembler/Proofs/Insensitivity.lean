import Assembler.Proofs.Casing
import Assembler.Proofs.DataStatement
import Assembler.Proofs.Grammar
/-!
Statements do not depend on letter case.

A line with its letters `a` to `z` in upper case is read as the same statement, with the strings of its constants
folded, or is rejected for the same reason (`Statement.read_ofText_fold`). Its expressions must not have self-defining
terms in characters: the codes of these differ.
-/

namespace Assembler

/-! ## 1. Readings -/

/-- The same reason, with the letters of what it cites folded. -/
def ReadError.fold : ReadError → ReadError
  | scan e => scan e.fold
  | unexpectedToken t => unexpectedToken t.fold
  | invalidTerm t => invalidTerm (Text.fold t)
  | invalidOperand t => invalidOperand (Text.fold t)
  | invalidLabel t => invalidLabel (Text.fold t)
  | e => e

namespace Reading

variable {α α' β β' : Type}

/-- What is read of a folded text, when this is read of the text. -/
def fold (f : α → α') (r : Reading α) : Reading α' := ⟨r.mentions, (r.result.map f).mapError ReadError.fold⟩

/-- Readings one after another are read of folded texts if each of them is. -/
theorem fold_bind {r : Reading α} {r' : Reading α'} {f : α → α'} {g : α → Reading β} {g' : α' → Reading β'}
    {k : β → β'} (hr : r' = r.fold f) (h : ∀ a, r.result = .ok a → g' (f a) = (g a).fold k) :
    r' >>= g' = (r >>= g).fold k := by
  subst hr
  obtain ⟨mentions, result⟩ := r
  cases result with
  | error e => rfl
  | ok a =>
    change (⟨mentions ++ (g' (f a)).mentions, (g' (f a)).result⟩ : Reading β') = _
    rw [h a rfl]
    rfl

theorem fold_map {r : Reading α} {r' : Reading α'} {f : α → α'} {g : α → β} {g' : α' → β'} {k : β → β'}
    (hr : r' = r.fold f) (h : ∀ a, g' (f a) = k (g a)) : g' <$> r' = (g <$> r).fold k :=
  fold_bind hr fun a _ => congrArg pure (h a)

theorem fold_mapM_loop {f : α → α'} {g : α → Reading β} {g' : α' → Reading β'} {k : β → β'} {as : List α}
    {done : List β} (h : ∀ a ∈ as, g' (f a) = (g a).fold k) :
    List.mapM.loop g' (as.map f) (done.map k) = (List.mapM.loop g as done).fold (List.map k) := by
  induction as generalizing done with
  | nil => exact congrArg pure List.map_reverse.symm
  | cons a as ih =>
    obtain ⟨ha, has⟩ := List.forall_mem_cons.mp h
    exact fold_bind ha fun b _ => @ih (b :: done) has

/-- What is read from a list of folded texts. -/
theorem fold_mapM {f : α → α'} {g : α → Reading β} {g' : α' → Reading β'} {k : β → β'} {as : List α}
    (h : ∀ a ∈ as, g' (f a) = (g a).fold k) : (as.map f).mapM g' = (as.mapM g).fold (List.map k) :=
  @fold_mapM_loop _ _ _ _ f g g' k as [] h

end Reading

/-! ## 2. Expressions -/

namespace Token

/-- Whether a token is a self-defining term in characters. -/
def isChar : Token → Bool
  | char _ => true
  | _ => false

theorem fold_eq_op_iff {t : Token} {o : Operator} : t.fold = .op o ↔ t = .op o := by
  cases t <;> simp [fold]

theorem fold_eq_leftParen_iff {t : Token} : t.fold = .leftParen ↔ t = .leftParen := by
  cases t <;> simp [fold]

theorem mentioned?_fold (t : Token) : t.fold.mentioned? = t.mentioned? := by cases t <;> rfl

theorem fold_decimal (n : Nat) : Text.fold (Numeral.decimal n) = Numeral.decimal n := by
  refine (List.map_congr_left fun c hc => ?_).trans (List.map_id _)
  have hdigit := Numeral.isDigit_iff.mp (Numeral.isDigit_of_toUpper ((Numeral.writes_decimal n).digits c hc))
  exact Char.toNat_inj.mp (by rw [Numeral.toNat_toUpper, if_neg (by omega)]; rfl)

theorem fold_quoted {letter : Char} (h : letter.toUpper = letter) (content : Text) :
    Text.fold (quoted letter content) = quoted letter (Text.fold content) := by
  change letter.toUpper :: '\'' :: Text.fold (content ++ ['\'']) = _
  rw [Text.fold_append, h]
  rfl

theorem text_fold (t : Token) : t.fold.text = Text.fold t.text := by
  cases t with
  | symbol n => exact n.folded.symm
  | number n => exact (fold_decimal n).symm
  | hex t | char t | binary t => exact (fold_quoted rfl t).symm
  | op o => cases o <;> rfl
  | attr kind ampersand n =>
    have hn : List.map Char.toUpper n.letters = n.letters := n.folded
    cases kind <;> cases ampersand <;>
      simp [fold, text, Text.fold, hn, AttributeKind.letter]
  | variableSymbol n => exact congrArg ('&' :: ·) n.folded.symm
  | leftParen | rightParen | comma | counter => rfl

theorem digitsTerm?_fold (base most : Nat) (t : Text) :
    digitsTerm? base most (Text.fold t) = digitsTerm? base most t := by
  have htail : (Text.fold t).tail = Text.fold t.tail := List.map_tail.symm
  simp only [digitsTerm?, Text.length_fold, Text.head?_fold_eq_iff (d := '+') rfl, htail]
  split_ifs <;> simp only [Numeral.read?_fold]

/-- A token is the same term whatever its letter case, unless it is one in characters. -/
theorem primary_fold {t : Token} (h : t.isChar = false) : t.fold.primary = t.primary.mapError ReadError.fold := by
  have hinvalid : (.error (.invalidTerm t.fold.text) : Except ReadError Expr) =
      .error (.invalidTerm (Text.fold t.text)) := by rw [text_fold]
  cases t with
  | symbol | counter | op | leftParen | rightParen | comma => rfl
  | char content => cases h
  | number n =>
    simp only [fold, primary]
    split_ifs
    · rfl
    · exact hinvalid
  | hex digits =>
    simp only [fold, primary, digitsTerm?_fold]
    cases digitsTerm? 16 8 digits with
    | none => exact hinvalid
    | some n => rfl
  | binary digits =>
    simp only [fold, primary, digitsTerm?_fold]
    cases digitsTerm? 2 32 digits with
    | none => exact hinvalid
    | some n => rfl
  | attr kind ampersand n =>
    cases ampersand <;> simp only [fold, primary] <;> split_ifs
    · exact hinvalid
    · rfl
    · exact hinvalid
    · rfl
  | variableSymbol n => exact hinvalid

end Token

/-- Whether two outcomes are those of a list of tokens without terms in characters and of the same list folded. -/
inductive Parsed.Folds {m n : Nat} : Parsed m → Parsed n → Prop
  | ok {e : Expr} {rest : List Token} (h : rest.length < m) (h' : (rest.map Token.fold).length < n)
    (plain : ∀ t ∈ rest, t.isChar = false) : Folds (.ok e rest h) (.ok e (rest.map Token.fold) h')
  | error {e : ReadError} {rest : List Token} : Folds (.error e rest) (.error e.fold (rest.map Token.fold))

namespace Parsed.Folds

variable {m m' n n' : Nat} {p : Parsed m} {q : Parsed n}

theorem widen (h : p.Folds q) (hm : m ≤ m') (hn : n ≤ n') : (p.widen hm).Folds (q.widen hn) := by
  cases h with
  | ok h h' plain => exact .ok _ _ plain
  | error => exact .error

theorem map (h : p.Folds q) (f : Expr → Expr) : (p.map f).Folds (q.map f) := by
  cases h with
  | ok h h' plain => exact .ok _ _ plain
  | error => exact .error

theorem rest_eq (h : p.Folds q) : q.rest = p.rest.map Token.fold := by
  cases h <;> rfl

end Parsed.Folds

namespace Expr

open Grammar Token

mutual

theorem folds_parseSum {ts : List Token} (h : ∀ t ∈ ts, t.isChar = false) :
    (parseSum ts).Folds (parseSum (ts.map fold)) := by
  have hfirst := folds_parseProduct h
  rw [parseSum, parseSum]
  generalize parseProduct ts = p at hfirst
  generalize parseProduct (ts.map fold) = q at hfirst
  cases hfirst with
  | ok hp hq plain => exact (folds_parseSumTail _ plain).widen _ _
  | error => exact .error
termination_by (ts.length, 3)

theorem folds_parseSumTail (left : Expr) {ts : List Token} (h : ∀ t ∈ ts, t.isChar = false) :
    (parseSumTail left ts).Folds (parseSumTail left (ts.map fold)) := by
  by_cases hop : ∃ o more, ts = .op o :: more ∧ o.isAdditive = true
  · obtain ⟨o, more, hts, additive⟩ := hop
    have hlength : more.length < ts.length := by rw [hts]; exact Nat.lt_succ_self _
    have hmore : ∀ t ∈ more, t.isChar = false := fun t ht => h t (by rw [hts]; exact List.mem_cons_of_mem _ ht)
    have hnext := folds_parseProduct hmore
    rw [hts, List.map_cons, show fold (.op o) = .op o from rfl, parseSumTail_op left more additive,
      parseSumTail_op left _ additive]
    generalize parseProduct more = p at hnext
    generalize parseProduct (more.map fold) = q at hnext
    cases hnext with
    | ok hp hq plain => exact (folds_parseSumTail _ plain).widen _ _
    | error => exact .error
  · have hends (o : Operator) (more : List Token) (hts : ts = .op o :: more) : o.isAdditive = false :=
      Bool.eq_false_iff.mpr fun additive => hop ⟨o, more, hts, additive⟩
    rw [parseSumTail_of_ends left hends, parseSumTail_of_ends left]
    · exact .ok _ _ h
    · intro o more hts
      obtain ⟨t, more, rfl, ht, -⟩ := List.map_eq_cons_iff.mp hts
      exact hends o more (by rw [fold_eq_op_iff.mp ht])
termination_by (ts.length, 0)
decreasing_by all_goals omega

theorem folds_parseProduct {ts : List Token} (h : ∀ t ∈ ts, t.isChar = false) :
    (parseProduct ts).Folds (parseProduct (ts.map fold)) := by
  have hfirst := folds_parseSigned h
  rw [parseProduct, parseProduct]
  generalize parseSigned ts = p at hfirst
  generalize parseSigned (ts.map fold) = q at hfirst
  cases hfirst with
  | ok hp hq plain => exact (folds_parseProductTail _ plain).widen _ _
  | error => exact .error
termination_by (ts.length, 2)

theorem folds_parseProductTail (left : Expr) {ts : List Token} (h : ∀ t ∈ ts, t.isChar = false) :
    (parseProductTail left ts).Folds (parseProductTail left (ts.map fold)) := by
  by_cases hop : ∃ o more, ts = .op o :: more ∧ o.isAdditive = false
  · obtain ⟨o, more, hts, multiplicative⟩ := hop
    have hlength : more.length < ts.length := by rw [hts]; exact Nat.lt_succ_self _
    have hmore : ∀ t ∈ more, t.isChar = false := fun t ht => h t (by rw [hts]; exact List.mem_cons_of_mem _ ht)
    have hnext := folds_parseSigned hmore
    rw [hts, List.map_cons, show fold (.op o) = .op o from rfl, parseProductTail_op left more multiplicative,
      parseProductTail_op left _ multiplicative]
    generalize parseSigned more = p at hnext
    generalize parseSigned (more.map fold) = q at hnext
    cases hnext with
    | ok hp hq plain => exact (folds_parseProductTail _ plain).widen _ _
    | error => exact .error
  · have hends : EndsProduct ts := fun o more hts =>
      (Bool.not_eq_false _).mp fun multiplicative => hop ⟨o, more, hts, multiplicative⟩
    rw [parseProductTail_of_ends left hends, parseProductTail_of_ends left]
    · exact .ok _ _ h
    · intro o more hts
      obtain ⟨t, more, rfl, ht, -⟩ := List.map_eq_cons_iff.mp hts
      exact hends o more (by rw [fold_eq_op_iff.mp ht])
termination_by (ts.length, 0)
decreasing_by all_goals omega

theorem folds_parseSigned {ts : List Token} (h : ∀ t ∈ ts, t.isChar = false) :
    (parseSigned ts).Folds (parseSigned (ts.map fold)) := by
  by_cases hsub : ∃ more, ts = .op .sub :: more
  · obtain ⟨more, rfl⟩ := hsub
    change Parsed.Folds _ (parseSigned (.op .sub :: more.map fold))
    rw [parseSigned, parseSigned]
    exact ((folds_parseSigned (List.forall_mem_cons.mp h).2).map _).widen _ _
  by_cases hadd : ∃ more, ts = .op .add :: more
  · obtain ⟨more, rfl⟩ := hadd
    change Parsed.Folds _ (parseSigned (.op .add :: more.map fold))
    rw [parseSigned, parseSigned]
    exact (folds_parseSigned (List.forall_mem_cons.mp h).2).widen _ _
  have hsign (o : Operator) (hne : ∀ more, ts ≠ .op o :: more) (more : List Token) : ts.map fold ≠ .op o :: more := by
    intro hts
    obtain ⟨t, more, rfl, ht, -⟩ := List.map_eq_cons_iff.mp hts
    exact hne more (by rw [fold_eq_op_iff.mp ht])
  have hsub' (more : List Token) : ts ≠ .op .sub :: more := fun hts => hsub ⟨more, hts⟩
  have hadd' (more : List Token) : ts ≠ .op .add :: more := fun hts => hadd ⟨more, hts⟩
  rw [parseSigned_of_not_sign hsub' hadd', parseSigned_of_not_sign (hsign .sub hsub') (hsign .add hadd')]
  exact folds_parseTerm h
termination_by (ts.length, 1)

theorem folds_parseTerm {ts : List Token} (h : ∀ t ∈ ts, t.isChar = false) :
    (parseTerm ts).Folds (parseTerm (ts.map fold)) := by
  cases ts with
  | nil =>
    rw [List.map_nil, parseTerm]
    exact .error
  | cons t more =>
    obtain ⟨ht, hmore⟩ := List.forall_mem_cons.mp h
    by_cases hparen : t = .leftParen
    · subst hparen
      have hsum := folds_parseSum hmore
      change Parsed.Folds _ (parseTerm (.leftParen :: more.map fold))
      rw [parseTerm, parseTerm]
      generalize parseSum more = p at hsum
      generalize parseSum (more.map fold) = q at hsum
      cases hsum with
      | error => exact .error
      | ok hp hq plain =>
        rename_i e rest
        -- The token after the sum has to close the parenthesis.
        rcases rest with _ | ⟨t, rest⟩
        · exact .error
        · cases t with
          | rightParen => exact .ok _ _ (List.forall_mem_cons.mp plain).2
          | _ => exact .error
    · have hparen' : t.fold ≠ .leftParen := fun heq => hparen (fold_eq_leftParen_iff.mp heq)
      rw [List.map_cons, parseTerm, parseTerm, primary_fold ht]
      · cases t.primary with
        | ok e => exact .ok _ _ hmore
        | error e => exact .error
      · exact hparen'
      · exact hparen
termination_by (ts.length, 0)

end

/-- Whether a text, as far as it is one of tokens, has no self-defining term in characters. -/
def IsCaseless (t : Text) : Prop := ∀ ts, scan t = .ok ts → ∀ token ∈ ts, token.isChar = false

theorem mentions_fold {ts : List Token} (h : ∀ t ∈ ts, t.isChar = false) : mentions (ts.map fold) = mentions ts := by
  have hrest := (folds_parseSum h).rest_eq
  simp only [mentions, hrest, List.length_map, ← List.map_take, List.filterMap_map]
  exact congrArg (List.filterMap · _) (funext mentioned?_fold)

theorem parse_fold {ts : List Token} (h : ∀ t ∈ ts, t.isChar = false) :
    parse (ts.map fold) = (parse ts).mapError ReadError.fold := by
  have hsum := folds_parseSum h
  unfold parse
  generalize parseSum ts = p at hsum
  generalize parseSum (ts.map fold) = q at hsum
  cases hsum with
  | error => rfl
  | ok hp hq plain =>
    rename_i e rest
    cases rest <;> rfl

theorem read_fold {t : Text} (h : IsCaseless t) : read (Text.fold t) = (read t).fold id := by
  unfold read
  rw [scan_fold]
  cases hscan : scan t with
  | error e => rfl
  | ok ts =>
    change (⟨mentions (ts.map fold), parse (ts.map fold)⟩ : Reading Expr) = _
    rw [mentions_fold (h ts hscan), parse_fold (h ts hscan)]
    change _ = (⟨mentions ts, ((parse ts).map id).mapError ReadError.fold⟩ : Reading Expr)
    cases parse ts <;> rfl

theorem readOptional_fold {t : Text} (h : IsCaseless (Text.trim t)) :
    readOptional (Text.fold t) = (readOptional t).fold id := by
  unfold readOptional
  dsimp only
  rw [Text.trim_fold, Text.isEmpty_fold]
  split
  · rfl
  · exact Reading.fold_map (read_fold h) fun _ => rfl

end Expr

/-! ## 3. Operands of constants -/

namespace Cursor

/-- The same place in the folded text. -/
def fold (cur : Cursor) : Cursor := ⟨Text.fold cur.behind, Text.fold cur.ahead⟩

variable (cur : Cursor)

theorem advance_fold (n : Nat) : cur.fold.advance n = (cur.advance n).fold := by
  simp only [advance, fold, Text.fold_append, Text.fold_reverse, Text.fold_take, Text.fold_drop]

theorem whole_fold : cur.fold.whole = Text.fold cur.whole := by
  simp only [whole, fold, Text.fold_append, Text.fold_reverse]

theorem parenthesized?_fold : cur.fold.parenthesized? = cur.parenthesized?.map (Prod.map Text.fold fold) := by
  have hclosing : Source.closingFrom (Text.fold cur.behind) false 0 (Text.fold cur.ahead) = _ :=
    Source.closingFrom_fold cur.behind false 0 cur.ahead
  unfold parenthesized?
  rw [show cur.fold.behind = Text.fold cur.behind from rfl, show cur.fold.ahead = Text.fold cur.ahead from rfl,
    hclosing, Option.map_map]
  refine congrArg (Option.map · _) (funext fun n => ?_)
  rw [advance_fold, Function.comp_apply, Prod.map_apply, Text.fold_drop, Text.fold_take]

theorem hasModifier_fold (letter : Char) : cur.fold.hasModifier letter = cur.hasModifier letter := by
  obtain ⟨behind, ahead⟩ := cur
  match ahead with
  | [] | [_] => rfl
  | c :: d :: _ =>
    have hvalue : d.toUpper ∈ ['(', '+', '-', '.'] ↔ d ∈ ['(', '+', '-', '.'] := by
      simp only [List.mem_cons, List.not_mem_nil, or_false, Text.toUpper_eq_iff (c := d) (d := '(') rfl,
        Text.toUpper_eq_iff (c := d) (d := '+') rfl, Text.toUpper_eq_iff (c := d) (d := '-') rfl,
        Text.toUpper_eq_iff (c := d) (d := '.') rfl]
    simp only [hasModifier, fold, Text.fold_cons, Text.toUpper_toUpper, Source.isDigit_toUpper, hvalue]

end Cursor

theorem isAlpha_toUpper (c : Char) : c.toUpper.isAlpha = c.isAlpha := by
  have halpha (c : Char) : c.isAlpha =
      (decide (65 ≤ c.toNat ∧ c.toNat ≤ 90) || decide (97 ≤ c.toNat) && decide (c.toNat ≤ 122)) := rfl
  rw [halpha, halpha, Numeral.toNat_toUpper, Bool.eq_iff_iff]
  simp only [Bool.or_eq_true, Bool.and_eq_true, decide_eq_true_eq]
  split_ifs <;> omega

namespace DataType

theorem ofCode?_toUpper (code : Char) (extension? : Option Char) :
    ofCode? code.toUpper (extension?.map Char.toUpper) = ofCode? code extension? := by
  have hextension : (extension?.map Char.toUpper).map Char.toUpper = extension?.map Char.toUpper := by
    rw [Option.map_map]
    exact congrArg (Option.map · _) (funext Text.toUpper_toUpper)
  unfold ofCode?
  rw [Text.toUpper_toUpper, hextension]

theorem isExtension_toUpper (code extension : Char) :
    isExtension code.toUpper extension.toUpper = isExtension code extension :=
  congrArg Option.isSome (ofCode?_toUpper code (some extension))

end DataType

/-- The values with the letters of a string folded. -/
def Nominal.fold : Nominal → Nominal
  | quoted content => quoted (Text.fold content)
  | exprs values => exprs values

namespace DataOperand

open Assembler.Expr (IsCaseless)

/-- The operand with the letters of its string folded. -/
def fold (op : DataOperand) : DataOperand := { op with nominal? := op.nominal?.map Nominal.fold }

/-! ### Texts of expressions -/

/-- The text of the expression in parentheses ahead, if there is one. -/
def factorTexts (cur : Cursor) : List Text :=
  if cur.ahead.head? = some '(' then (cur.parenthesized?.map Prod.fst).toList else []

/-- The text of an expression that is a length. -/
def lengthTexts (cur : Cursor) : List Text :=
  if cur.hasModifier 'L' then
    factorTexts (cur.advance (if (cur.advance 1).ahead.head? = some '.' then 2 else 1))
  else []

/-- The text of an expression that is a scale or an exponent. -/
def modifierTexts (letter : Char) (cur : Cursor) : List Text :=
  if cur.hasModifier letter then factorTexts (cur.advance 1) else []

/-- The texts of the expressions that are nominal values. -/
def nominalTexts (cur : Cursor) : List Text :=
  (factorTexts cur).flatMap fun inner => (Source.splitCommas inner).map Text.trim

/-- The texts that come where a part of the operand ends, if it can be read. -/
def textsAfter {α : Type} (r : Reading (α × Cursor)) (texts : Cursor → List Text) : List Text :=
  match r.result with
  | .ok (_, next) => texts next
  | .error _ => []

/-- The texts of the expressions in an operand, in the order in which they are read. -/
def exprTexts (t : Text) : List Text :=
  let start : Cursor := ⟨[], Text.trim t⟩
  factorTexts start ++ textsAfter (readDuplication start) fun cur =>
    textsAfter (readType cur) fun cur =>
      lengthTexts cur ++ textsAfter (readLength cur) fun cur =>
        modifierTexts 'S' cur ++ textsAfter (readModifier 'S' cur) fun cur =>
          modifierTexts 'E' cur ++ textsAfter (readModifier 'E' cur) nominalTexts

theorem forall_mem_textsAfter {α : Type} {r : Reading (α × Cursor)} {texts : Cursor → List Text} {a : α}
    {next : Cursor} (h : ∀ t ∈ textsAfter r texts, IsCaseless t) (hr : r.result = .ok (a, next)) :
    ∀ t ∈ texts next, IsCaseless t := by
  unfold textsAfter at h
  rwa [hr] at h

/-! ### Parts of an operand -/

variable {α α' : Type} (cur : Cursor)

theorem invalid_fold (f : α → α') : invalid cur.fold = (invalid cur).fold f := by
  unfold invalid
  rw [Cursor.whole_fold]
  rfl

theorem readNumber_fold : readNumber cur.fold = (readNumber cur).fold (Prod.map id Cursor.fold) := by
  have hdigits : cur.fold.ahead.takeWhile Char.isDigit = Text.fold (cur.ahead.takeWhile Char.isDigit) :=
    Text.takeWhile_fold @Source.isDigit_toUpper cur.ahead
  unfold readNumber
  dsimp only
  rw [hdigits, Numeral.read?_fold, Text.length_fold]
  cases (Numeral.read? 10 (cur.ahead.takeWhile Char.isDigit)).filter (· ≤ 0x7FFFFFFF) with
  | none => exact invalid_fold cur _
  | some n =>
    change pure (_, cur.fold.advance _) = _
    rw [Cursor.advance_fold]
    rfl

theorem readFactor_fold (h : ∀ t ∈ factorTexts cur, IsCaseless t) :
    readFactor cur.fold = (readFactor cur).fold (Prod.map id Cursor.fold) := by
  have hparen : cur.fold.ahead.head? = some '(' ↔ cur.ahead.head? = some '(' := Text.head?_fold_eq_iff rfl cur.ahead
  unfold readFactor
  simp only [hparen]
  split
  · rename_i hopen
    rw [Cursor.parenthesized?_fold]
    cases hinner : cur.parenthesized? with
    | none => exact invalid_fold cur _
    | some inner =>
      have hmem : inner.1 ∈ factorTexts cur := by
        rw [factorTexts, if_pos hopen, hinner]
        exact List.mem_singleton_self _
      exact Reading.fold_bind (Expr.read_fold (h _ hmem)) fun _ _ => rfl
  · exact Reading.fold_bind (readNumber_fold cur) fun _ _ => rfl

theorem readSigned_fold (h : ∀ t ∈ factorTexts cur, IsCaseless t) :
    readSigned cur.fold = (readSigned cur).fold (Prod.map id Cursor.fold) := by
  unfold readSigned
  simp only [show cur.fold.ahead = Text.fold cur.ahead from rfl, Text.head?_fold_eq_iff (d := '-') rfl,
    Text.head?_fold_eq_iff (d := '+') rfl, Cursor.advance_fold]
  split_ifs
  · exact Reading.fold_bind (readNumber_fold _) fun _ _ => rfl
  · exact Reading.fold_bind (readNumber_fold _) fun _ _ => rfl
  · exact readFactor_fold cur h

theorem readDuplication_fold (h : ∀ t ∈ factorTexts cur, IsCaseless t) :
    readDuplication cur.fold = (readDuplication cur).fold (Prod.map id Cursor.fold) := by
  have hhead : cur.fold.ahead.head?.any (fun c => c.isDigit || c = '(') =
      cur.ahead.head?.any fun c => c.isDigit || c = '(' := by
    refine Token.head?_any_fold (fun c => ?_) cur.ahead
    rw [Source.isDigit_toUpper, decide_eq_decide.mpr (Text.toUpper_eq_iff rfl)]
  unfold readDuplication
  rw [hhead]
  split
  · exact Reading.fold_bind (readFactor_fold cur h) fun _ _ => rfl
  · rfl

theorem readType_fold : readType cur.fold = (readType cur).fold (Prod.map id Cursor.fold) := by
  obtain ⟨behind, ahead⟩ := cur
  cases ahead with
  | nil => exact invalid_fold _ _
  | cons code rest =>
    have hextension : (Text.fold rest).head?.filter (fun c => c.isAlpha && DataType.isExtension code.toUpper c) =
        (rest.head?.filter fun c => c.isAlpha && DataType.isExtension code c).map Char.toUpper := by
      cases rest with
      | nil => rfl
      | cons c rest =>
        simp only [Text.fold_cons, List.head?_cons, Option.filter, DataType.isExtension_toUpper, isAlpha_toUpper]
        split <;> rfl
    -- Once the code and the extension are known the rest is the same with and without an extension.
    have htype (extension? : Option Char) (n : Nat) :
        (do
          let type ← .ofOption (.invalidOperand (Cursor.mk behind (code :: rest)).fold.whole)
            (DataType.ofCode? code.toUpper (extension?.map Char.toUpper))
          return (type, (Cursor.mk behind (code :: rest)).fold.advance n)) =
        Reading.fold (Prod.map id Cursor.fold) (do
          let type ← .ofOption (.invalidOperand (Cursor.mk behind (code :: rest)).whole)
            (DataType.ofCode? code extension?)
          return (type, (Cursor.mk behind (code :: rest)).advance n)) := by
      rw [Cursor.whole_fold, DataType.ofCode?_toUpper, Cursor.advance_fold]
      cases DataType.ofCode? code extension? <;> rfl
    unfold readType
    simp only [Cursor.fold, Text.fold_cons, hextension]
    cases rest.head?.filter fun c => c.isAlpha && DataType.isExtension code c with
    | some extension => exact htype (some extension) 2
    | none => exact htype none 1

theorem readLength_fold (h : ∀ t ∈ lengthTexts cur, IsCaseless t) :
    readLength cur.fold = (readLength cur).fold (Prod.map id Cursor.fold) := by
  have hpoint : (cur.advance 1).fold.ahead.head? = some '.' ↔ (cur.advance 1).ahead.head? = some '.' :=
    Text.head?_fold_eq_iff rfl _
  unfold readLength
  simp only [Cursor.hasModifier_fold, Cursor.advance_fold, hpoint]
  split
  · rename_i hmodifier
    rw [lengthTexts, if_pos hmodifier] at h
    exact Reading.fold_bind (readFactor_fold _ h) fun _ _ => rfl
  · rfl

theorem readModifier_fold (letter : Char) (h : ∀ t ∈ modifierTexts letter cur, IsCaseless t) :
    readModifier letter cur.fold = (readModifier letter cur).fold (Prod.map id Cursor.fold) := by
  unfold readModifier
  rw [Cursor.hasModifier_fold, Cursor.advance_fold]
  split
  · rename_i hmodifier
    rw [modifierTexts, if_pos hmodifier] at h
    exact Reading.fold_bind (readSigned_fold _ h) fun _ _ => rfl
  · rfl

variable {cur} in
theorem readNominal_of_ne (hquote : cur.ahead.head? ≠ some '\'') (hopen : cur.ahead.head? ≠ some '(') :
    readNominal cur = pure (none, cur) := by
  unfold readNominal
  split
  · rename_i hahead
    exact absurd (congrArg List.head? hahead) hquote
  · rename_i hahead
    exact absurd (congrArg List.head? hahead) hopen
  · rfl

theorem readNominal_fold (h : ∀ t ∈ nominalTexts cur, IsCaseless t) :
    readNominal cur.fold = (readNominal cur).fold (Prod.map (Option.map Nominal.fold) Cursor.fold) := by
  have hhead {c : Char} (hc : c.isAlpha = false) : cur.fold.ahead.head? = some c ↔ cur.ahead.head? = some c :=
    Text.head?_fold_eq_iff hc cur.ahead
  -- A value in quotes, values in parentheses, or none: the first character tells, and it is no letter.
  by_cases hquote : cur.ahead.head? = some '\''
  · obtain ⟨behind, ahead⟩ := cur
    obtain ⟨rest, rfl⟩ : ∃ rest, ahead = '\'' :: rest := ⟨_, List.eq_cons_of_mem_head? hquote⟩
    have hread := Source.readQuoted?_fold rest
    have hinvalid := @invalid_fold _ (Option Nominal × Cursor) ⟨behind, '\'' :: rest⟩
      (Prod.map (Option.map Nominal.fold) Cursor.fold)
    unfold readNominal
    simp only [Cursor.fold, Text.fold_cons, show '\''.toUpper = '\'' from rfl, hread] at hinvalid ⊢
    cases Source.readQuoted? rest with
    | none => exact hinvalid
    | some read =>
      obtain ⟨content, n⟩ := read
      change (pure (some (Nominal.quoted (Text.fold content)),
        (Cursor.mk behind ('\'' :: rest)).fold.advance (n + 1)) : Reading (Option Nominal × Cursor)) = _
      rw [Cursor.advance_fold]
      rfl
  by_cases hopen : cur.ahead.head? = some '('
  · obtain ⟨behind, ahead⟩ := cur
    obtain ⟨rest, rfl⟩ : ∃ rest, ahead = '(' :: rest := ⟨_, List.eq_cons_of_mem_head? hopen⟩
    have hinner := Cursor.parenthesized?_fold ⟨behind, '(' :: rest⟩
    unfold readNominal
    simp only [Cursor.fold, Text.fold_cons, show '('.toUpper = '(' from rfl] at hinner ⊢
    rw [hinner]
    cases hinner : (Cursor.mk behind ('(' :: rest)).parenthesized? with
    | none => exact invalid_fold ⟨behind, '(' :: rest⟩ _
    | some inner =>
      have hmem : inner.1 ∈ factorTexts ⟨behind, '(' :: rest⟩ := by
        rw [factorTexts, if_pos hopen, hinner]
        exact List.mem_singleton_self _
      have hvalues : (Source.splitCommas (Text.fold inner.1)).mapM (fun piece => Expr.read (Text.trim piece)) =
          ((Source.splitCommas inner.1).mapM fun piece => Expr.read (Text.trim piece)).fold (List.map id) := by
        rw [Source.splitCommas_fold]
        refine Reading.fold_mapM fun piece hpiece => ?_
        rw [Text.trim_fold]
        exact Expr.read_fold (h _ (List.mem_flatMap.mpr ⟨_, hmem, List.mem_map_of_mem hpiece⟩))
      rw [List.map_id_fun] at hvalues
      exact Reading.fold_bind hvalues fun _ _ => rfl
  rw [readNominal_of_ne hquote hopen, readNominal_of_ne (mt (hhead rfl).mp hquote) (mt (hhead rfl).mp hopen)]
  rfl

/-- The folded text of an operand is read as the operand with its string folded. -/
theorem read_fold {t : Text} (h : ∀ u ∈ exprTexts t, IsCaseless u) : read (Text.fold t) = (read t).fold fold := by
  -- The parts are read one after another, and each leaves the texts of the parts behind it.
  unfold exprTexts at h
  simp only [List.forall_mem_append] at h
  obtain ⟨hduplication, h⟩ := h
  unfold read
  dsimp only
  rw [Text.trim_fold]
  refine Reading.fold_bind (readDuplication_fold _ hduplication) fun ⟨duplication?, cur⟩ hread => ?_
  replace h := forall_mem_textsAfter h hread
  refine Reading.fold_bind (readType_fold cur) fun ⟨type, cur⟩ hread => ?_
  replace h := forall_mem_textsAfter h hread
  simp only [List.forall_mem_append] at h
  obtain ⟨hlength, h⟩ := h
  refine Reading.fold_bind (readLength_fold cur hlength) fun ⟨length?, cur⟩ hread => ?_
  replace h := forall_mem_textsAfter h hread
  simp only [List.forall_mem_append] at h
  obtain ⟨hscale, h⟩ := h
  refine Reading.fold_bind (readModifier_fold cur 'S' hscale) fun ⟨scale?, cur⟩ hread => ?_
  replace h := forall_mem_textsAfter h hread
  simp only [List.forall_mem_append] at h
  obtain ⟨hexponent, h⟩ := h
  refine Reading.fold_bind (readModifier_fold cur 'E' hexponent) fun ⟨exponent?, cur⟩ hread => ?_
  replace h := forall_mem_textsAfter h hread
  refine Reading.fold_bind (readNominal_fold cur h) fun ⟨nominal?, cur⟩ _ => ?_
  have hempty : List.isEmpty cur.fold.ahead = List.isEmpty cur.ahead := Text.isEmpty_fold cur.ahead
  simp only [Prod.map_apply, hempty, id]
  split
  · rfl
  · exact invalid_fold cur _

end DataOperand

/-! ## 4. Statements -/

/-- The operation with the letters of the strings of its constants folded. -/
def Operation.fold : Operation → Operation
  | data storageOnly operands => data storageOnly (operands.map DataOperand.fold)
  | op => op

namespace Statement

open Assembler.Expr (IsCaseless)

def fold (st : Statement) : Statement := { st with operation := st.operation.fold }

/-- The texts of the expressions in the operands of an instruction line. -/
def exprTexts (fields : Source.Fields) : List Text :=
  let texts := operandTexts fields.operands
  match Directive.roleOf? (.ofText fields.opcode) with
  | some .equ => (texts.take 3).map Text.trim
  | some .org => (texts.take 3).map Text.trim
  | some (.data _) => texts.flatMap DataOperand.exprTexts
  | _ => []

theorem isOrdinaryName_fold (t : Text) : isOrdinaryName (Text.fold t) = isOrdinaryName t := by
  simp only [isOrdinaryName, Token.head?_any_fold @Source.isNameStart_toUpper,
    Token.all_fold @Source.isNameChar_toUpper, Text.length_fold]

theorem readLabel_fold (label? : Option Text) : readLabel (label?.map Text.fold) = (readLabel label?).fold id := by
  cases label? with
  | none => rfl
  | some t =>
    simp only [Option.map_some, readLabel, Text.head?_fold_eq_iff (d := '.') rfl,
      Text.head?_fold_eq_iff (d := '&') rfl, isOrdinaryName_fold, Name.ofText_fold]
    split_ifs <;> rfl

theorem operandTexts_fold (t : Text) : operandTexts (Text.fold t) = (operandTexts t).map Text.fold := by
  unfold operandTexts
  rw [Token.all_fold Text.isBlank_toUpper, Source.splitCommas_fold]
  split <;> rfl

theorem readOperand_fold {texts : List Text} {n i : Nat} (h : ∀ t ∈ (texts.take n).map Text.trim, IsCaseless t)
    (hi : i < n) : readOperand (texts.map Text.fold) i = (readOperand texts i).fold id := by
  unfold readOperand
  rw [List.getElem?_map]
  cases htext : texts[i]? with
  | none => rfl
  | some t =>
    have hmem : t ∈ texts.take n := List.mem_of_getElem? ((List.getElem?_take_of_lt hi).trans htext)
    exact Expr.readOptional_fold (h _ (List.mem_map_of_mem hmem))

theorem readOperation_fold {fields : Source.Fields} {role : DirectiveRole}
    (hrole : Directive.roleOf? (.ofText fields.opcode) = some role) (h : ∀ t ∈ exprTexts fields, IsCaseless t) :
    readOperation role ((operandTexts fields.operands).map Text.fold) =
      (readOperation role (operandTexts fields.operands)).fold Operation.fold := by
  unfold exprTexts at h
  rw [hrole] at h
  generalize operandTexts fields.operands = texts at h ⊢
  cases role with
  | equ =>
    refine Reading.fold_bind (readOperand_fold h (by decide)) fun _ _ => ?_
    refine Reading.fold_bind (readOperand_fold h (by decide)) fun _ _ => ?_
    exact Reading.fold_bind (readOperand_fold h (by decide)) fun _ _ => rfl
  | data storageOnly =>
    unfold readOperation
    dsimp only
    rw [List.isEmpty_map]
    split
    · rfl
    · refine Reading.fold_bind (Reading.fold_mapM fun t ht => ?_) fun _ _ => rfl
      exact DataOperand.read_fold fun u hu => h u (List.mem_flatMap.mpr ⟨t, ht, hu⟩)
  | org =>
    have hblank : (texts.map Text.fold).all (·.all Text.isBlank) = texts.all (·.all Text.isBlank) := by
      rw [List.all_map]
      exact congrArg texts.all (funext fun t => Token.all_fold Text.isBlank_toUpper t)
    unfold readOperation
    dsimp only
    rw [hblank]
    split
    · rfl
    · refine Reading.fold_bind (readOperand_fold h (by decide)) fun _ _ => ?_
      refine Reading.fold_bind (readOperand_fold h (by decide)) fun _ _ => ?_
      exact Reading.fold_bind (readOperand_fold h (by decide)) fun _ _ => rfl
  | sectionStart | counterStart | macroStart | macroEnd | conditional | other => rfl

/-- The folded fields of a line are read as the statement with its strings folded. -/
theorem read_fold {fields : Source.Fields} (h : ∀ t ∈ exprTexts fields, IsCaseless t) (location : Location) :
    read fields.fold location = (read fields location).fold fold := by
  have hopcode : Reading.mention (.ofText fields.fold.opcode) =
      (Reading.mention (.ofText fields.opcode)).fold id := congrArg Reading.mention (Name.ofText_fold fields.opcode)
  refine Reading.fold_bind (readLabel_fold fields.label?) fun label? _ => ?_
  refine Reading.fold_bind hopcode fun opcode hread => ?_
  obtain rfl : Name.ofText fields.opcode = opcode := Except.ok.inj hread
  dsimp only [id]
  cases hrole : Directive.roleOf? (.ofText fields.opcode) with
  | none => rfl
  | some role =>
    dsimp only
    rw [show fields.fold.operands = Text.fold fields.operands from rfl, operandTexts_fold]
    exact Reading.fold_bind (readOperation_fold hrole h) fun _ _ => rfl

/-- Statements do not depend on letter case. A line with its letters `a` to `z` in upper case mentions the same names
in the same order, whatever names there have been before. It is read as the same statement, with the strings of its
constants folded, or is rejected for the same reason. -/
theorem read_ofText_fold {t : Text} {fields : Source.Fields} (hline : Source.Line.ofText t = .instruction fields)
    (hcaseless : ∀ u ∈ exprTexts fields, IsCaseless u) (location : Location) (names : Roster) :
    ∃ fields', Source.Line.ofText (Text.fold t) = .instruction fields' ∧
      names.mentionAll (read fields' location).mentions = names.mentionAll (read fields location).mentions ∧
      match (read fields location).result, (read fields' location).result with
      | .ok st, .ok st' => st'.label? = st.label? ∧ st'.opcode = st.opcode ∧ st'.operation = st.operation.fold
      | .error e, .error e' => e' = e.fold
      | _, _ => False := by
  have hread := read_fold hcaseless location
  refine ⟨fields.fold, ?_, ?_, ?_⟩
  · rw [Source.Line.ofText_fold, hline]
    rfl
  · rw [hread]
    rfl
  · rw [hread]
    change (match (read fields location).result, ((read fields location).result.map fold).mapError ReadError.fold with
      | .ok st, .ok st' => st'.label? = st.label? ∧ st'.opcode = st.opcode ∧ st'.operation = st.operation.fold
      | .error e, .error e' => e' = e.fold
      | _, _ => False)
    cases (read fields location).result with
    | ok st => exact ⟨rfl, rfl, rfl⟩
    | error e => rfl

/-! ### Constants in lower case -/

namespace Lowercase

def line : Text := "lab dc al4(x'0a'+len),c'it''s' note".toList

def fields : Source.Fields := ⟨some "lab".toList, "dc".toList, "al4(x'0a'+len),c'it''s'".toList, "note".toList⟩

theorem scan_sum :
    Token.scan "x'0a'+len".toList = .ok [.hex "0a".toList, .op .add, .symbol (.ofString "len")] := by decide +kernel

theorem isCaseless : ∀ u ∈ exprTexts fields, IsCaseless u := by
  have htexts : exprTexts fields = ["x'0a'+len".toList] := by decide
  intro u hu ts hts
  rw [htexts, List.mem_singleton] at hu
  rw [hu, scan_sum] at hts
  cases hts
  decide

def sum : Expr := .binary .add (.number 10) (.symbol (.ofString "len"))

def address : DataOperand := { type := .a, length? := some ⟨.number 4, false⟩, nominal? := some (.exprs [sum]) }

def string : DataOperand := { type := .c, nominal? := some (.quoted "it's".toList) }

theorem read_sum : (Expr.read "x'0a'+len".toList).result = .ok sum := by
  have hnumber : (Token.hex "0a".toList).Denotes (.number 10) := Token.primary_eq_ok_iff.mp rfl
  have hname : (Token.symbol (.ofString "len")).Denotes (.symbol (.ofString "len")) := Token.primary_eq_ok_iff.mp rfl
  have hsum := Expr.parseSum_tokens (.mk (.mk (.unsigned (.single _ _ hnumber)) .done)
    (.more .add rfl (.mk (.unsigned (.single _ _ hname)) .done) .done)) Grammar.endsSum_nil
  rw [Expr.read, scan_sum]
  exact Expr.parse_eq_ok.mpr hsum

theorem read_address : (DataOperand.read "al4(x'0a'+len)".toList).result = .ok address := by
  have hvalues : (["x'0a'+len".toList].mapM fun piece => Expr.read (Text.trim piece)).result = .ok [sum] :=
    Reading.result_mapM (.cons read_sum .nil)
  have hnominal : (DataOperand.readNominal ⟨"4la".toList, "(x'0a'+len)".toList⟩).result =
      .ok (some (.exprs [sum]), ⟨"(x'0a'+len)".toList.reverse ++ "4la".toList, []⟩) :=
    Reading.result_bind hvalues _
  have hduplication : (DataOperand.readDuplication ⟨[], "al4(x'0a'+len)".toList⟩).result =
      .ok (none, ⟨[], "al4(x'0a'+len)".toList⟩) := rfl
  have htype : (DataOperand.readType ⟨[], "al4(x'0a'+len)".toList⟩).result =
      .ok (.a, ⟨"a".toList, "l4(x'0a'+len)".toList⟩) := rfl
  have hlength : (DataOperand.readLength ⟨"a".toList, "l4(x'0a'+len)".toList⟩).result =
      .ok (some ⟨.number 4, false⟩, ⟨"4la".toList, "(x'0a'+len)".toList⟩) := rfl
  have hscale : (DataOperand.readModifier 'S' ⟨"4la".toList, "(x'0a'+len)".toList⟩).result =
      .ok (none, ⟨"4la".toList, "(x'0a'+len)".toList⟩) := rfl
  have hexponent : (DataOperand.readModifier 'E' ⟨"4la".toList, "(x'0a'+len)".toList⟩).result =
      .ok (none, ⟨"4la".toList, "(x'0a'+len)".toList⟩) := rfl
  refine (Reading.result_bind hduplication _).trans ((Reading.result_bind htype _).trans
    ((Reading.result_bind hlength _).trans ?_))
  refine (Reading.result_bind hscale _).trans ((Reading.result_bind hexponent _).trans ?_)
  exact Reading.result_bind hnominal _

theorem read_fields : (read fields {}).result =
    .ok ⟨some (.ofString "lab"), .ofString "dc", .data false [address, string], {}⟩ := by
  have hoperands : (["al4(x'0a'+len)".toList, "c'it''s'".toList].mapM DataOperand.read).result =
      .ok [address, string] := Reading.result_mapM (.cons read_address (.cons rfl .nil))
  have hdata : (readOperation (.data false) (operandTexts fields.operands)).result =
      .ok (.data false [address, string]) := Reading.result_bind hoperands _
  exact Reading.result_bind hdata _

end Lowercase

theorem read_ofText_fold_constants :
    Source.Line.ofText Lowercase.line = .instruction Lowercase.fields ∧
      (∀ u ∈ exprTexts Lowercase.fields, IsCaseless u) ∧
      ∃ fields', Source.Line.ofText "LAB DC AL4(X'0A'+LEN),C'IT''S' NOTE".toList = .instruction fields' ∧
        ({} : Roster).mentionAll (read fields' {}).mentions =
          ({} : Roster).mentionAll (read Lowercase.fields {}).mentions ∧
        (read Lowercase.fields {}).result =
          .ok ⟨some (.ofString "lab"), .ofString "dc", .data false [Lowercase.address, Lowercase.string], {}⟩ ∧
        ∃ st, (read fields' {}).result = .ok st ∧ st.label? = some (.ofString "lab") ∧ st.opcode = .ofString "dc" ∧
          st.operation = (Operation.data false [Lowercase.address, Lowercase.string]).fold := by
  have hline : Source.Line.ofText Lowercase.line = .instruction Lowercase.fields := by decide
  obtain ⟨fields', hupper, hnames, hsame⟩ := read_ofText_fold hline Lowercase.isCaseless {} {}
  refine ⟨hline, Lowercase.isCaseless, fields', hupper, hnames, Lowercase.read_fields, ?_⟩
  rw [Lowercase.read_fields] at hsame
  cases hst : (read fields' {}).result with
  | error e =>
    rw [hst] at hsame
    exact hsame.elim
  | ok st =>
    rw [hst] at hsame
    exact ⟨st, rfl, hsame⟩

end Statement

end Assembler
