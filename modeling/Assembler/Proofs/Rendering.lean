import Assembler.Proofs.Delimiter
import Assembler.Proofs.Display
/-!
Renderings of expressions: texts with parentheses around every operation.

A rendering stands in a place where no name goes on around it (`Gap`). There every scan passes over it
(`Rendered.solid`), and it is divided into the tokens of a parse tree of its expression (`Rendered.scanFrom`). So a
rendering is read as the expression it was made from (`Rendered.read`), and lists of renderings come apart at their
commas (`splitCommas_intercalate`). All expressions have renderings, but for names that cannot be written
(`exists_rendered_iff`).
-/

namespace Assembler

open Source

/-! ## 1. Places for terms -/

namespace Source

/-- A place where no name goes on, neither before nor behind it, and no string begins behind it. -/
structure Gap (ahead behind : Text) : Prop where
  before : behind.head?.any isNameChar = false
  after : ahead.head?.any isNameChar = false
  noQuote : ahead.head? ≠ some '\''

variable {ahead behind : Text} {texts : List Text}

theorem gap_nil : Gap [] [] := ⟨rfl, rfl, nofun⟩

/-- Between two characters that are neither of names nor of strings. -/
theorem gap_cons {c d : Char} (hc : isNameChar c = false) (hd : isNameChar d = false) (hquote : c ≠ '\'') :
    Gap (c :: ahead) (d :: behind) := ⟨hd, hc, fun h => hquote (Option.some.inj h)⟩

theorem isNameChar_sign (o : Operator) : isNameChar o.sign = false := by cases o <;> rfl

theorem undivided_sign (o : Operator) : Undivided ahead behind [o.sign] :=
  (inert_of_plain (List.forall_mem_singleton.mpr (by cases o <;> decide))).undivided

/-! ## 2. Lists -/

/-- Whether the scans pass over a text in every place for a term. -/
def Solid (t : Text) : Prop := ∀ {ahead behind : Text}, Gap ahead behind → Undivided ahead behind t

theorem coherent_comma : Coherent ahead behind [','] where
  past := rfl
  noBlank := List.forall_mem_singleton.mpr rfl
  paired := paired_of_flat (List.forall_mem_singleton.mpr rfl)

theorem coherent_intercalate (h : ∀ t ∈ texts, Solid t) (hgap : Gap ahead behind) :
    Coherent ahead behind ([','].intercalate texts) := by
  induction texts generalizing behind with
  | nil => exact undivided_nil.toCoherent
  | cons t texts ih =>
    obtain ⟨hfirst, hmore⟩ := List.forall_mem_cons.mp h
    cases texts with
    | nil =>
      rw [List.intercalate_singleton]
      exact (hfirst hgap).toCoherent
    | cons u texts =>
      rw [List.intercalate_cons_cons, List.append_assoc]
      have htext : Undivided (',' :: ([','].intercalate (u :: texts) ++ ahead)) behind t :=
        hfirst ⟨hgap.before, rfl, ne_of_beq_false rfl⟩
      exact htext.toCoherent.append (coherent_comma.append (ih hmore ⟨rfl, hgap.after, hgap.noQuote⟩))

/-- A list of solid texts comes apart at its commas. -/
theorem piecesFrom_intercalate (hne : texts ≠ []) (h : ∀ t ∈ texts, Solid t)
    (hbehind : behind.head?.any isNameChar = false) :
    piecesFrom behind false 0 ([','].intercalate texts) = texts := by
  induction texts generalizing behind with
  | nil => exact absurd rfl hne
  | cons t texts ih =>
    obtain ⟨hfirst, hmore⟩ := List.forall_mem_cons.mp h
    cases texts with
    | nil =>
      have hpieces := (hfirst (⟨hbehind, rfl, nofun⟩ : Gap [] behind)).piecesFrom
      rw [List.append_nil] at hpieces
      rw [List.intercalate_singleton, hpieces]
      exact congrArg (· :: []) (List.append_nil t)
    | cons u texts =>
      -- The scan passes over the first text, ends its piece at the comma, and starts anew behind it.
      have hgap : Gap (',' :: [','].intercalate (u :: texts)) behind := ⟨hbehind, rfl, ne_of_beq_false rfl⟩
      rw [List.intercalate_cons_cons, List.append_assoc, List.singleton_append, (hfirst hgap).piecesFrom,
        Source.piecesFrom, if_pos (by decide)]
      have hlevel : (0 : Int) + deeper false ',' = 0 := rfl
      rw [quotedAfter_of_ne (by decide), hlevel, ih (List.cons_ne_nil u texts) hmore rfl]
      exact congrArg (· :: _) (List.append_nil t)

theorem splitCommas_intercalate (hne : texts ≠ []) (h : ∀ t ∈ texts, Solid t) :
    splitCommas ([','].intercalate texts) = texts := piecesFrom_intercalate hne h rfl

end Source

/-- Whatever holds of the second of two related members holds of the whole second list. -/
theorem forall_mem_of_forall₂ {α β : Type} {R : α → β → Prop} {p : β → Prop} {as : List α} {bs : List β}
    (hR : ∀ a b, R a b → p b) (h : List.Forall₂ R as bs) : ∀ b ∈ bs, p b := by
  induction h with
  | nil => exact fun b hb => absurd hb List.not_mem_nil
  | cons hab h ih => exact List.forall_mem_cons.mpr ⟨hR _ _ hab, ih⟩

/-! ## 3. Trees of operations -/

namespace Grammar

/-- The tree of a term with a minus sign, in parentheses. -/
def TermTree.negation (d : TermTree) : TermTree :=
  .parens (.mk (.mk (.minus (.unsigned d)) .done) .done)

theorem TermTree.tokens_negation (d : TermTree) :
    d.negation.tokens = .leftParen :: (.op .sub :: d.tokens ++ [.rightParen]) := by
  simp [negation, TermTree.tokens, SumTree.tokens, SumTail.tokens, ProductTree.tokens, ProductTail.tokens,
    SignedTree.tokens]

/-- The tree of an operation on two terms, in parentheses. -/
def TermTree.operation (o : Operator) (l r : TermTree) : TermTree :=
  if h : o.isAdditive = true then
    .parens (.mk (.mk (.unsigned l) .done) (.more o h (.mk (.unsigned r) .done) .done))
  else .parens (.mk (.mk (.unsigned l) (.more o (Bool.eq_false_iff.mpr h) (.unsigned r) .done)) .done)

theorem TermTree.tokens_operation (o : Operator) (l r : TermTree) :
    (operation o l r).tokens = .leftParen :: (l.tokens ++ .op o :: r.tokens ++ [.rightParen]) := by
  unfold operation
  split <;>
  simp [TermTree.tokens, SumTree.tokens, SumTail.tokens, ProductTree.tokens, ProductTail.tokens,
    SignedTree.tokens]

theorem TermTree.expr_operation (o : Operator) (l r : TermTree) :
    (operation o l r).expr = .binary o l.expr r.expr := by
  unfold operation
  split <;> rfl

end Grammar

theorem Token.Denotes.endsTerm {token : Token} {e : Expr} (h : token.Denotes e) : token.endsTerm = true := by
  cases h <;> rfl

namespace Expr

open Grammar

variable {e : Expr} {t ahead behind : Text} {ts : List Token}

/-! ## 4. Terms -/

/-- The texts of single terms: decimal numbers, self-defining terms of digits, names, the location counter and
references to attributes. -/
inductive Term : Expr → Text → Prop
  | decimal {digits : Text} {n : Nat} {v : Int32} (writes : Numeral.Writes 10 digits n) (value : v.toInt = n) :
    Term (.number v) digits
  | hex {digits : Text} {n : Nat} {v : Int32} (writes : Numeral.Writes 16 digits n) (short : digits.length ≤ 8)
    (value : TwosComplement n v) : Term (.number v) (Token.quoted 'X' digits)
  | binary {digits : Text} {n : Nat} {v : Int32} (writes : Numeral.Writes 2 digits n) (short : digits.length ≤ 32)
    (value : TwosComplement n v) : Term (.number v) (Token.quoted 'B' digits)
  | symbol {name : Text} (starts : name.head?.any isNameStart = true) (chars : name.all isNameChar = true) :
    Term (.symbol (.ofText name)) name
  | counter : Term .counter ['*']
  | attr (kind : AttributeKind) {name : Text} (starts : name.head?.any isNameStart = true)
    (chars : name.all isNameChar = true) : Term (.attr kind (.symbol (.ofText name))) (kind.letter :: '\'' :: name)
  | variableAttr (kind : AttributeKind) {name : Text} (named : name ≠ []) (chars : name.all isNameChar = true) :
    Term (.attr kind (.variableSymbol (.ofText name))) (kind.letter :: '\'' :: '&' :: name)

theorem quote_notMem_of_writes {base n : Nat} {digits : Text} (h : Numeral.Writes base digits n) :
    '\'' ∉ digits := by
  intro hmem
  have hdigit := List.mem_of_mem_take (h.digits _ hmem)
  revert hdigit
  decide

/-- A self-defining term of digits is a lexeme. -/
theorem lexeme_quoted {letter : Char} {digits : Text} {token : Token} {base n : Nat}
    (known : Token.selfDefining? (Text.fold [letter]) digits = some token) (writes : Numeral.Writes base digits n)
    (hgap : Gap ahead behind) : Token.Lexeme behind ahead false (Token.quoted letter digits) token := by
  have hlexeme : Token.Lexeme behind ahead false _ token := .quoted known hgap.noQuote
  rwa [doubled_of_notMem (quote_notMem_of_writes writes)] at hlexeme

/-- A term is a lexeme of a token that denotes its expression. -/
theorem Term.lexeme (h : Term e t) :
    ∃ token : Token, token.Denotes e ∧
      ∀ {ahead behind : Text}, Gap ahead behind → Token.Lexeme behind ahead false t token := by
  cases h with
  | decimal writes value =>
    rename_i n v
    -- A number that is not negative is its own two's complement.
    have hrange := v.toInt_lt
    have hfits : n ≤ 0x7FFFFFFF := by omega
    have hvalue : TwosComplement n v := by
      rw [TwosComplement, if_pos (by omega)]
      exact value
    rw [← (twosComplement_ofNat (by omega : n < 4294967296)).unique hvalue]
    refine ⟨.number n, .number hfits, fun hgap => ?_⟩
    have hmax : n ≤ Token.maxNumber := Nat.le_trans hfits (by decide)
    exact .number (Numeral.read?_eq_some_iff.mpr writes) hmax (head?_any_isDigit hgap.after)
  | hex writes short value =>
    rename_i digits n v
    have hterm := (Token.digitsTerm?_eq_some_iff (by decide) rfl).mpr ⟨digits, n, .inl rfl, short, writes, value⟩
    exact ⟨.hex digits, .hex hterm, lexeme_quoted rfl writes⟩
  | binary writes short value =>
    rename_i digits n v
    have hterm := (Token.digitsTerm?_eq_some_iff (by decide) rfl).mpr ⟨digits, n, .inl rfl, short, writes, value⟩
    exact ⟨.binary digits, .binary hterm, lexeme_quoted rfl writes⟩
  | symbol starts chars =>
    exact ⟨_, .symbol _, fun hgap => .symbol starts chars hgap.after hgap.noQuote⟩
  | counter => exact ⟨_, .counter, fun _ => .counter rfl⟩
  | attr kind starts chars =>
    refine ⟨.attr kind false _, .attr kind ?_, fun hgap => ?_⟩
    · intro hnil
      rw [List.map_eq_nil_iff.mp hnil] at starts
      cases starts
    · have hlexeme : Token.Lexeme _ _ false _ (.attr kind false (.ofText _)) :=
        .attr (AttributeKind.ofLetter?_letter kind) hgap.before (fun _ => starts) chars hgap.after
      exact hlexeme
  | variableAttr kind named chars =>
    refine ⟨.attr kind true _, .variableAttr kind fun hnil => named (List.map_eq_nil_iff.mp hnil), fun hgap => ?_⟩
    have hlexeme : Token.Lexeme _ _ false _ (.attr kind true (.ofText _)) :=
      .attr (AttributeKind.ofLetter?_letter kind) hgap.before nofun chars hgap.after
    exact hlexeme

/-! ## 5. Expressions -/

/-- The texts of expressions without blanks that have parentheses around every operation and no terms of characters. -/
inductive Rendered : Expr → Text → Prop
  | term {e : Expr} {t : Text} (h : Term e t) : Rendered e t
  | negate {e : Expr} {t : Text} (h : Rendered e t) : Rendered (.negate e) ('(' :: ('-' :: t ++ [')']))
  | operation (o : Operator) {l r : Expr} {t u : Text} (hl : Rendered l t) (hr : Rendered r u) :
    Rendered (.binary o l r) ('(' :: (t ++ o.sign :: u ++ [')']))

/-- Whether the names of an expression can be written. -/
def Writable : Expr → Prop
  | number _ => True
  | counter => True
  | symbol n => n.letters.head?.any isNameStart = true ∧ n.letters.all isNameChar = true
  | attr _ (.symbol n) => n.letters.head?.any isNameStart = true ∧ n.letters.all isNameChar = true
  | attr _ (.variableSymbol n) => n.letters ≠ [] ∧ n.letters.all isNameChar = true
  | negate e => e.Writable
  | binary _ l r => l.Writable ∧ r.Writable

theorem Term.writable (h : Term e t) : e.Writable := by
  cases h with
  | decimal | hex | binary | counter => exact True.intro
  | symbol starts chars | attr kind starts chars =>
    rw [Writable, Name.letters_ofText, Token.head?_any_fold @isNameStart_toUpper, Token.all_fold @isNameChar_toUpper]
    exact ⟨starts, chars⟩
  | variableAttr kind named chars =>
    rw [Writable, Name.letters_ofText, Token.all_fold @isNameChar_toUpper]
    exact ⟨fun hnil => named (List.map_eq_nil_iff.mp hnil), chars⟩

/-- Negative numbers are written as self-defining terms. -/
theorem exists_term (v : Int32) : ∃ t, Term (.number v) t := by
  have hlow := v.le_toInt
  have hhigh := v.toInt_lt
  by_cases hv : 0 ≤ v.toInt
  · exact ⟨_, .decimal (Numeral.writes_decimal v.toInt.toNat) (Int.toNat_of_nonneg hv).symm⟩
  · have hwrites : Numeral.Writes 16 _ _ :=
      Numeral.writes_toDigits (by decide) (by decide) (v.toInt + 4294967296).toNat
    have hlength := Nat.toDigits_length 16 (v.toInt + 4294967296).toNat 8 (by decide) (by omega)
    refine ⟨_, .hex hwrites hlength ?_⟩
    rw [TwosComplement, if_neg (by omega)]
    omega

theorem exists_rendered_iff : (∃ t, Rendered e t) ↔ e.Writable := by
  constructor
  · rintro ⟨t, h⟩
    induction h with
    | term h => exact h.writable
    | negate h ih => exact ih
    | operation o hl hr ihl ihr => exact ⟨ihl, ihr⟩
  · intro h
    induction e with
    | number v =>
      obtain ⟨t, hterm⟩ := exists_term v
      exact ⟨t, .term hterm⟩
    | symbol n =>
      rw [← n.ofText_letters]
      exact ⟨_, .term (.symbol h.1 h.2)⟩
    | attr kind operand =>
      cases operand with
      | symbol n =>
        rw [← n.ofText_letters]
        exact ⟨_, .term (.attr kind h.1 h.2)⟩
      | variableSymbol n =>
        rw [← n.ofText_letters]
        exact ⟨_, .term (.variableAttr kind h.1 h.2)⟩
    | counter => exact ⟨_, .term .counter⟩
    | negate e ih =>
      obtain ⟨t, ht⟩ := ih h
      exact ⟨_, .negate ht⟩
    | binary o l r ihl ihr =>
      obtain ⟨t, ht⟩ := ihl h.1
      obtain ⟨u, hu⟩ := ihr h.2
      exact ⟨_, .operation o ht hu⟩

theorem Rendered.solid (h : Rendered e t) : Solid t := by
  induction h with
  | term h =>
    intro ahead behind hgap
    obtain ⟨token, denotes, hlexeme⟩ := h.lexeme
    rcases (hlexeme hgap).inert_or_delimiter with ⟨-, rfl⟩ | ⟨-, rfl⟩ | ⟨-, rfl⟩ | ⟨-, hinert⟩
    · cases denotes
    · cases denotes
    · cases denotes
    · exact hinert.undivided
  | negate h ih =>
    rename_i t
    intro ahead behind hgap
    have hoperand : Undivided (')' :: ahead) ('-' :: '(' :: behind) t := ih (gap_cons rfl rfl (by decide))
    exact ((undivided_sign .sub).append hoperand).toCoherent.enclosed
  | operation o hl hr ihl ihr =>
    rename_i t u
    intro ahead behind hgap
    have hsign : o.sign ≠ '\'' := by cases o <;> decide
    have hleft : Undivided (o.sign :: u ++ ')' :: ahead) ('(' :: behind) t :=
      ihl (gap_cons (isNameChar_sign o) rfl hsign)
    have hright : Undivided (')' :: ahead) (o.sign :: (t.reverse ++ '(' :: behind)) u :=
      ihr (gap_cons rfl (isNameChar_sign o) (by decide))
    exact (hleft.append ((undivided_sign o).append hright)).toCoherent.enclosed

/-- A rendering in parentheses is passed over by every scan, wherever it stands. -/
theorem Rendered.enclosed (h : Rendered e t) : Undivided ahead behind ('(' :: (t ++ [')'])) :=
  (h.solid (gap_cons rfl rfl (by decide))).toCoherent.enclosed

/-- What is in parentheses is divided into its tokens with parentheses around them. -/
theorem scanFrom_parentheses {inner : Text} {tokens : List Token}
    (hinner : ∀ {ts}, Token.scanFrom (inner.reverse ++ '(' :: behind) true (')' :: ahead) = .ok ts →
      Token.scanFrom ('(' :: behind) false (inner ++ ')' :: ahead) = .ok (tokens ++ ts))
    (hmore : Token.scanFrom (('(' :: (inner ++ [')'])).reverse ++ behind) true ahead = .ok ts) :
    Token.scanFrom behind false ('(' :: (inner ++ [')']) ++ ahead) =
      .ok (.leftParen :: (tokens ++ [.rightParen]) ++ ts) := by
  have hbehind : ('(' :: (inner ++ [')'])).reverse ++ behind = [')'].reverse ++ (inner.reverse ++ '(' :: behind) := by
    simp
  rw [hbehind] at hmore
  have hclose := hinner (Token.Lexeme.rightParen.scanFrom hmore)
  have hopen : Token.Lexeme behind (inner ++ ')' :: ahead) false ['('] .leftParen := .leftParen
  have hscan := hopen.scanFrom hclose
  simpa using hscan

/-- A rendering is divided into the tokens of a tree of its expression. -/
theorem Rendered.scanFrom (h : Rendered e t) :
    ∃ d : TermTree, d.expr = e ∧ ∀ {ahead behind ts}, Gap ahead behind →
      Token.scanFrom (t.reverse ++ behind) true ahead = .ok ts →
        Token.scanFrom behind false (t ++ ahead) = .ok (d.tokens ++ ts) := by
  -- The scan is put together from the end: each lexeme goes in front of what is scanned behind it.
  induction h with
  | term h =>
    obtain ⟨token, denotes, hlexeme⟩ := h.lexeme
    refine ⟨.single token _ denotes, rfl, fun hgap hmore => ?_⟩
    rw [← denotes.endsTerm] at hmore
    exact (hlexeme hgap).scanFrom hmore
  | negate h ih =>
    rename_i t
    obtain ⟨d, rfl, hoperand⟩ := ih
    refine ⟨d.negation, rfl, fun {ahead behind ts} hgap hmore => ?_⟩
    rw [TermTree.tokens_negation]
    refine scanFrom_parentheses (fun {ts} hclose => ?_) hmore
    rw [List.reverse_cons, List.append_assoc] at hclose
    have hsign : Token.Lexeme ('(' :: behind) (t ++ ')' :: ahead) false ['-'] (.op .sub) := .sign .sub nofun
    exact hsign.scanFrom (hoperand (gap_cons rfl rfl (by decide)) hclose)
  | operation o hl hr ihl ihr =>
    rename_i t u
    obtain ⟨l, rfl, hleft⟩ := ihl
    obtain ⟨r, rfl, hright⟩ := ihr
    refine ⟨.operation o l r, TermTree.expr_operation o l r, fun {ahead behind ts} hgap hmore => ?_⟩
    rw [TermTree.tokens_operation]
    refine scanFrom_parentheses (fun {ts} hclose => ?_) hmore
    rw [List.reverse_append, List.reverse_cons, List.append_assoc, List.append_assoc] at hclose
    have hsecond := hright (gap_cons rfl (isNameChar_sign o) (by decide)) hclose
    have hsign : Token.Lexeme (t.reverse ++ '(' :: behind) (u ++ ')' :: ahead) true [o.sign] (.op o) :=
      .sign o fun _ => rfl
    have hfirst := hleft (gap_cons (isNameChar_sign o) rfl (by cases o <;> decide)) (hsign.scanFrom hsecond)
    rw [List.append_assoc, List.append_assoc]
    exact hfirst

/-- A rendering is read as its expression. -/
theorem Rendered.read (h : Rendered e t) : (read t).result = .ok e := by
  obtain ⟨d, rfl, hscan⟩ := h.scanFrom
  have htokens : Token.scan t = .ok d.tokens := by
    have hend : Token.scanFrom (t.reverse ++ []) true [] = .ok [] := by rw [Token.scanFrom]
    have hwhole := hscan gap_nil hend
    rwa [List.append_nil, List.append_nil] at hwhole
  have hparse : (parseSum d.tokens).result? = some (d.expr, []) := by
    have hsum := parseSum_tokens (.mk (.mk (.unsigned d) .done) .done) endsSum_nil
    have htree : (SumTree.mk (.mk (.unsigned d) .done) .done).tokens ++ [] = d.tokens := by
      simp [SumTree.tokens, SumTail.tokens, ProductTree.tokens, ProductTail.tokens, SignedTree.tokens]
    rwa [htree] at hsum
  unfold Expr.read
  rw [htokens]
  exact parse_eq_ok.mpr hparse

end Expr

end Assembler
