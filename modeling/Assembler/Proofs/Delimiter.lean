import Assembler.Proofs.Lexeme
/-!
Delimiters: the commas and parentheses that the scans of a text find are those among its tokens.

The scans decide from single characters whether an apostrophe begins a string, the division into tokens decides it from
the word before. They agree on every text that can be divided: no scan stops within a lexeme (`Lexeme.piecesFrom`,
`Lexeme.closingFrom`), so the pieces between the commas are divided into the tokens between the commas, and a
parenthesis is closed where its token is (`delimited_of_scan`).
-/

namespace Assembler.Token

open Source

variable {behind behind' ahead ahead' t rest : Text} {afterTerm : Bool} {token : Token} {d : Int}
  {places : List (Nat × Token)}

/-! ## 1. Nesting of tokens -/

/-- How much deeper in parentheses a token leads. -/
def nesting : Token → Int
  | leftParen => 1
  | rightParen => -1
  | _ => 0

/-- The number of commas that stand at the level zero, if a list of tokens starts at the level `d`. -/
def topCommasFrom (d : Int) (ts : List Token) : Nat :=
  (List.range ts.length).countP fun i => ts[i]? = some comma ∧ d + depth nesting (ts.take i) = 0

/-- The number of commas with as many left as right parentheses before them. -/
def topCommas (ts : List Token) : Nat :=
  (List.range ts.length).countP fun i => ts[i]? = some comma ∧ depth nesting (ts.take i) = 0

theorem topCommasFrom_zero (ts : List Token) : topCommasFrom 0 ts = topCommas ts := by
  unfold topCommasFrom topCommas
  simp only [Int.zero_add]

theorem topCommasFrom_cons (d : Int) (token : Token) (ts : List Token) :
    topCommasFrom d (token :: ts) =
      topCommasFrom (d + token.nesting) ts + if token = comma ∧ d = 0 then 1 else 0 := by
  unfold topCommasFrom
  rw [List.length_cons, List.range_succ_eq_map, List.countP_cons, List.countP_map]
  simp [Function.comp_def, Int.add_assoc]

/-! ## 2. Scans of a lexeme -/

/-- The quote behind the letter of an attribute starts no string, since an operand follows. -/
theorem inert_attribute {letter : Char} {kind : AttributeKind} {ampersand : Bool} {name : Text}
    (known : AttributeKind.ofLetter? letter = some kind) (alone : behind.head?.any isNameChar = false)
    (starts : ampersand = false → name.head?.any isNameStart = true) (chars : name.all isNameChar = true) :
    Inert ahead behind (letter :: '\'' :: ((if ampersand then ['&'] else []) ++ name)) := by
  have hletter : isNameChar letter = true := isNameChar_of_isNameStart (isNameStart_of_ofLetter? known)
  have hattr : attributeQuote (letter :: behind) ((if ampersand then ['&'] else []) ++ name ++ ahead) = true :=
    attributeQuote_eq_true_iff.mpr
      ⟨Option.isSome_iff_exists.mpr ⟨kind, known⟩, alone, attributeQuote_operand starts⟩
  have hoperand : ∀ c ∈ (if ampersand then ['&'] else []) ++ name, isInert c = true ∧ c ≠ '\'' := by
    intro c hc
    rcases List.mem_append.mp hc with hc | hc
    · cases ampersand with
      | true =>
        rw [List.mem_singleton.mp hc]
        decide
      | false => cases hc
    · exact isInert_of_isNameChar (List.all_eq_true.mp chars c hc)
  refine Inert.append (t := [letter]) ?_ ((inert_attributeQuote hattr).append (inert_of_plain hoperand))
  exact inert_of_plain (List.forall_mem_singleton.mpr (isInert_of_isNameChar hletter))

/-- A self-defining term with a quoted text is inert. -/
theorem inert_quoted {word content : Text} (known : selfDefining? (Text.fold word) content = some token) :
    Inert ahead behind (word ++ '\'' :: (doubled content ++ ['\''])) := by
  obtain ⟨-, hletters⟩ := letters_of_selfDefining? known
  refine Inert.append (inert_of_plain fun c hc => ?_) (inert_string (attributeQuote_of_selfDefining? known behind _))
  exact isInert_of_isNameChar (isNameChar_of_isNameStart (hletters c hc).1)

/-- A lexeme is inert unless it is a single parenthesis or comma. -/
theorem Lexeme.inert_or_delimiter (h : Lexeme behind ahead afterTerm t token) :
    t = ['('] ∧ token = .leftParen ∨ t = [')'] ∧ token = .rightParen ∨ t = [','] ∧ token = .comma ∨
      (token.nesting = 0 ∧ token ≠ .comma ∧ token ≠ .rightParen) ∧ Inert ahead behind t := by
  cases h with
  | leftParen => exact .inl ⟨rfl, rfl⟩
  | rightParen => exact .inr (.inl ⟨rfl, rfl⟩)
  | comma => exact .inr (.inr (.inl ⟨rfl, rfl⟩))
  | sign o term =>
    refine .inr (.inr (.inr ⟨⟨rfl, nofun, nofun⟩, inert_of_plain ?_⟩))
    rw [List.forall_mem_singleton]
    cases o <;> decide
  | counter noTerm =>
    refine .inr (.inr (.inr ⟨⟨rfl, nofun, nofun⟩, inert_of_plain ?_⟩))
    rw [List.forall_mem_singleton]
    decide
  | variableSymbol named chars ends =>
    rename_i name
    refine .inr (.inr (.inr ⟨⟨rfl, nofun, nofun⟩, ?_⟩))
    have hmark : Inert (name ++ ahead) behind ['&'] :=
      inert_of_plain (List.forall_mem_singleton.mpr (by decide))
    exact hmark.append (inert_name chars)
  | symbol starts chars ends noQuote =>
    exact .inr (.inr (.inr ⟨⟨rfl, nofun, nofun⟩, inert_name chars⟩))
  | attr known alone starts chars ends =>
    exact .inr (.inr (.inr ⟨⟨rfl, nofun, nofun⟩, inert_attribute known alone starts chars⟩))
  | quoted known ends =>
    have hkind : token.nesting = 0 ∧ token ≠ .comma ∧ token ≠ .rightParen := by
      rcases selfDefining?_eq_some known with ⟨-, rfl⟩ | ⟨-, rfl⟩ | ⟨-, rfl⟩ <;>
        exact ⟨rfl, nofun, nofun⟩
    exact .inr (.inr (.inr ⟨hkind, inert_quoted known⟩))
  | number reads fits ends =>
    refine .inr (.inr (.inr ⟨⟨rfl, nofun, nofun⟩, inert_of_plain fun c hc => ?_⟩))
    have hdigit := Numeral.isDigit_of_toUpper ((Numeral.read?_eq_some_iff.mp reads).digits c hc)
    exact isInert_of_isNameChar (isNameChar_of_isDigit hdigit)

theorem Lexeme.quotedPast (h : Lexeme behind ahead afterTerm t token) :
    quotedPast ahead behind false t = false := by
  rcases h.inert_or_delimiter with ⟨rfl, -⟩ | ⟨rfl, -⟩ | ⟨rfl, -⟩ | ⟨-, hinert⟩
  · rfl
  · rfl
  · rfl
  · exact hinert.past

theorem Lexeme.depth (h : Lexeme behind ahead afterTerm t token) :
    depth Source.nesting (unquoted ahead behind false t) = token.nesting := by
  rcases h.inert_or_delimiter with ⟨rfl, rfl⟩ | ⟨rfl, rfl⟩ | ⟨rfl, rfl⟩ | ⟨⟨hflat, -⟩, hinert⟩
  · rfl
  · rfl
  · rfl
  · rw [hflat]
    exact depth_of_flat fun c hc => nesting_of_isInert (hinert.chars c hc)

/-- Dividing a text at commas passes over a lexeme, unless it is a comma at the level zero. -/
theorem Lexeme.piecesFrom (h : Lexeme behind ahead afterTerm t token) (hd : token = .comma → d ≠ 0) :
    piecesFrom behind false d (t ++ ahead) =
      (piecesFrom (t.reverse ++ behind) false (d + token.nesting) ahead).modifyHead (t ++ ·) := by
  have havoids : Avoids Source.nesting ',' 0 d (unquoted ahead behind false t) := by
    rcases h.inert_or_delimiter with ⟨rfl, -⟩ | ⟨rfl, -⟩ | ⟨rfl, hcomma⟩ | ⟨-, hinert⟩
    · exact avoids_of_notMem (l := ['(']) (by decide)
    · exact avoids_of_notMem (l := [')']) (by decide)
    · exact avoids_cons.mpr ⟨fun _ => hd hcomma, avoids_nil⟩
    · exact avoids_of_notMem fun hmem => (isInert_iff.mp (hinert.chars _ hmem)).2.2.2 rfl
  have hpass := piecesFrom_append havoids
  rwa [h.quotedPast, h.depth] at hpass

/-- The search for a closing parenthesis passes over a lexeme, unless it is the one searched for. -/
theorem Lexeme.closingFrom (h : Lexeme behind ahead afterTerm t token)
    (hd : token = .rightParen → d ≠ 1) :
    closingFrom behind false d (t ++ ahead) =
      (closingFrom (t.reverse ++ behind) false (d + token.nesting) ahead).map (· + t.length) := by
  have havoids : Avoids Source.nesting ')' 1 d (unquoted ahead behind false t) := by
    rcases h.inert_or_delimiter with ⟨rfl, -⟩ | ⟨rfl, hclose⟩ | ⟨rfl, -⟩ | ⟨-, hinert⟩
    · exact avoids_of_notMem (l := ['(']) (by decide)
    · exact avoids_cons.mpr ⟨fun _ => hd hclose, avoids_nil⟩
    · exact avoids_of_notMem (l := [',']) (by decide)
    · exact avoids_of_notMem fun hmem => (isInert_iff.mp (hinert.chars _ hmem)).2.2.1 rfl
  have hpass := closingFrom_append havoids
  rwa [h.quotedPast, h.depth] at hpass

/-! ## 3. Lexemes in other places -/

/-- A lexeme stays one when the text behind it ends where it ends, or another text with the same first character
follows, and when no character of a name comes to stand before it. -/
theorem Lexeme.replace (h : Lexeme behind ahead afterTerm t token)
    (hahead : ahead' = [] ∨ ahead'.head? = ahead.head?)
    (hbehind : behind.head?.any isNameChar = false → behind'.head?.any isNameChar = false) :
    Lexeme behind' ahead' afterTerm t token := by
  have hends : ∀ p : Char → Bool, ahead.head?.any p = false → ahead'.head?.any p = false := by
    intro p hp
    rcases hahead with rfl | heq
    · rfl
    · rwa [heq]
  have hquote : ahead.head? ≠ some '\'' → ahead'.head? ≠ some '\'' := by
    intro hne
    rcases hahead with rfl | heq
    · nofun
    · rwa [heq]
  cases h with
  | leftParen => exact .leftParen
  | rightParen => exact .rightParen
  | comma => exact .comma
  | sign o term => exact .sign o term
  | counter noTerm => exact .counter noTerm
  | variableSymbol named chars ends => exact .variableSymbol named chars (hends _ ends)
  | symbol starts chars ends noQuote => exact .symbol starts chars (hends _ ends) (hquote noQuote)
  | attr known alone starts chars ends => exact .attr known (hbehind alone) starts chars (hends _ ends)
  | quoted known ends => exact .quoted known (hquote ends)
  | number reads fits ends => exact .number reads fits (hends _ ends)

/-- A text is divided in the same way behind another text, unless a name goes on there. -/
theorem Division.replace (h : Division behind afterTerm t places)
    (hbehind : behind.head?.any isNameChar = false → behind'.head?.any isNameChar = false) :
    Token.scanFrom behind' afterTerm t = .ok (places.map Prod.snd) := by
  induction h generalizing behind' with
  | nil => exact Division.nil.scanFrom
  | blank hblank h ih =>
    rw [Token.scanFrom, if_pos hblank]
    exact ih id
  | token hlexeme h ih =>
    rename_i behind t rest afterTerm token places
    refine (hlexeme.replace (.inr rfl) hbehind).scanFrom (ih ?_)
    have hne : t.reverse ≠ [] := fun heq => hlexeme.ne_nil (List.reverse_eq_nil_iff.mp heq)
    rw [List.head?_append_of_ne_nil _ hne, List.head?_append_of_ne_nil _ hne]
    exact id

/-! ## 4. Pieces between commas -/

theorem delimiters_of_isBlank {c : Char} (hblank : Text.isBlank c = true) :
    c ≠ '\'' ∧ c ≠ ',' ∧ c ≠ ')' ∧ deeper false c = 0 := by
  have hne : ∀ d, Text.isBlank d = false → c ≠ d := by
    rintro d hd rfl
    rw [hblank] at hd
    cases hd
  refine ⟨hne _ rfl, hne _ rfl, hne _ rfl, ?_⟩
  rw [deeper, if_neg Bool.false_ne_true, if_neg (hne _ rfl), if_neg (hne _ rfl)]

/-- The first piece of a text starts as the text does, unless it is empty. -/
theorem head?_piecesFrom {piece : Text} {more : List Text}
    (h : piecesFrom behind false d t = piece :: more) : piece = [] ∨ piece.head? = t.head? := by
  cases t with
  | nil =>
    cases h
    exact .inl rfl
  | cons c t =>
    by_cases hc : c = ',' ∧ d = 0
    · obtain ⟨rfl, rfl⟩ := hc
      rw [Source.piecesFrom, if_pos (by decide)] at h
      cases h
      exact .inl rfl
    · rw [piecesFrom_cons (fun hsep => hc ⟨hsep.1, hsep.2.2⟩)] at h
      obtain ⟨first, others, hpieces⟩ := List.exists_cons_of_ne_nil (piecesFrom_ne_nil t)
      rw [hpieces] at h
      cases h
      exact .inr rfl

/-- A delimiter is spelled in one way. -/
theorem Lexeme.eq_text (h : Lexeme behind ahead afterTerm t token)
    (hdelimiter : token ∈ [.leftParen, .rightParen, .comma]) : t = token.text := by
  rcases h.inert_or_delimiter with ⟨rfl, rfl⟩ | ⟨rfl, rfl⟩ | ⟨rfl, rfl⟩ | ⟨⟨hflat, hcomma, hclose⟩, -⟩
  · rfl
  · rfl
  · rfl
  · exfalso
    rcases List.mem_cons.mp hdelimiter with rfl | hdelimiter
    · exact absurd hflat (by decide)
    · rcases List.mem_pair.mp hdelimiter with rfl | rfl
      · exact hclose rfl
      · exact hcomma rfl

/-- A member more in the first list is a member more of the whole. -/
theorem intercalate_cons_cons_left {α : Type} (separator : List α) (a : α) (l : List α)
    (ls : List (List α)) :
    separator.intercalate ((a :: l) :: ls) = a :: separator.intercalate (l :: ls) := by
  cases ls with
  | nil => rw [List.intercalate_singleton, List.intercalate_singleton]
  | cons m ls => rw [List.intercalate_cons_cons, List.intercalate_cons_cons]; rfl

/-- The pieces between the commas of a text have the tokens between its commas. -/
theorem Division.pieces (h : Division behind afterTerm t places) (d : Int) :
    ∃ piece more ts tss, piecesFrom behind false d t = piece :: more ∧
      Token.scanFrom behind afterTerm piece = .ok ts ∧ more.map scan = tss.map .ok ∧
      [.comma].intercalate (ts :: tss) = places.map Prod.snd ∧
      more.length = topCommasFrom d (places.map Prod.snd) := by
  induction h generalizing d with
  | nil => exact ⟨[], [], [], [], rfl, Division.nil.scanFrom, rfl, rfl, rfl⟩
  | blank hblank h ih =>
    rename_i behind rest afterTerm c places
    -- A blank is a part of the first piece and of no token.
    obtain ⟨piece, more, ts, tss, hpieces, hfirst, hmore, htokens, hcount⟩ := ih d
    obtain ⟨hquote, hcomma, -, hlevel⟩ := delimiters_of_isBlank hblank
    refine ⟨c :: piece, more, ts, tss, ?_, ?_, hmore, htokens, hcount⟩
    · rw [piecesFrom_cons (fun hsep => hcomma hsep.1), quotedAfter_of_ne hquote, hlevel, Int.add_zero, hpieces]
      rfl
    · rw [Token.scanFrom, if_pos hblank, hfirst]
  | token hlexeme h ih =>
    rename_i behind t rest afterTerm token places
    by_cases hcomma : token = .comma ∧ d = 0
    · obtain ⟨rfl, rfl⟩ := hcomma
      obtain rfl : t = [','] := hlexeme.eq_text (by decide)
      obtain ⟨piece, more, ts, tss, hpieces, hfirst, hmore, htokens, hcount⟩ := ih 0
      obtain ⟨places', hdivision, rfl⟩ := exists_division hfirst
      refine ⟨[], piece :: more, [], places'.map Prod.snd :: tss, ?_, Division.nil.scanFrom, ?_, ?_, ?_⟩
      · rw [List.singleton_append, Source.piecesFrom, if_pos (by decide)]
        exact congrArg _ hpieces
      · -- What follows the comma is divided as a text of its own.
        rw [List.map_cons, List.map_cons, hmore]
        exact congrArg (· :: _) (hdivision.replace fun _ => rfl)
      · rw [List.intercalate_cons_cons, htokens]
        rfl
      · rw [List.length_cons, List.map_cons, topCommasFrom_cons, if_pos ⟨rfl, rfl⟩, hcount]
        rfl
    · -- Any other lexeme is a part of the first piece, which may end right behind it.
      obtain ⟨piece, more, ts, tss, hpieces, hfirst, hmore, htokens, hcount⟩ := ih (d + token.nesting)
      refine ⟨t ++ piece, more, token :: ts, tss, ?_, ?_, hmore, ?_, ?_⟩
      · rw [hlexeme.piecesFrom fun htoken hd => hcomma ⟨htoken, hd⟩, hpieces]
        rfl
      · exact (hlexeme.replace (head?_piecesFrom hpieces) id).scanFrom hfirst
      · rw [intercalate_cons_cons_left, htokens]
        rfl
      · rw [List.map_cons, topCommasFrom_cons, if_neg hcomma, hcount, Nat.add_zero]

/-! ## 5. Closing parentheses -/

/-- Whether the first right parenthesis that leads out of the level one stands at the place `p`, if tokens start at the
level `d`. -/
def ClosedAt (d : Int) (places : List (Nat × Token)) (p : Nat) : Prop :=
  ∃ between rest, places = between ++ (p, .rightParen) :: rest ∧
    d + depth nesting (between.map Prod.snd) = 1 ∧
    ∀ ts, ts <+: between.map Prod.snd → 1 ≤ d + depth nesting ts

theorem closedAt_nil {p : Nat} : ¬ ClosedAt d [] p := by
  rintro ⟨between, rest, hplaces, -⟩
  exact absurd hplaces.symm (List.append_ne_nil_of_right_ne_nil _ (List.cons_ne_nil _ _))

theorem closedAt_rightParen {p q : Nat} : ClosedAt 1 ((p, .rightParen) :: places) q ↔ p = q := by
  constructor
  · rintro ⟨between, rest, hplaces, -, hlevel⟩
    cases between with
    | nil =>
      cases hplaces
      rfl
    | cons first between =>
      -- Behind the parenthesis the level is zero already.
      cases hplaces
      have hzero := hlevel [.rightParen] (List.cons_prefix_cons.mpr ⟨rfl, List.nil_prefix⟩)
      exact absurd hzero (by decide)
  · rintro rfl
    refine ⟨[], places, rfl, rfl, fun ts hts => ?_⟩
    rw [List.prefix_nil.mp hts]
    decide

/-- Any other token is passed. -/
theorem closedAt_cons {p q : Nat} (hd : 1 ≤ d) (hpass : token = .rightParen → d ≠ 1) :
    ClosedAt d ((p, token) :: places) q ↔ ClosedAt (d + token.nesting) places q := by
  constructor
  · rintro ⟨between, rest, hplaces, hclosed, hlevel⟩
    cases between with
    | nil =>
      cases hplaces
      rw [List.map_nil, depth_nil, Int.add_zero] at hclosed
      exact absurd hclosed (hpass rfl)
    | cons first between =>
      cases hplaces
      rw [List.map_cons, depth_cons, ← Int.add_assoc] at hclosed
      refine ⟨between, rest, rfl, hclosed, fun ts hts => ?_⟩
      have hmore := hlevel (token :: ts) (List.cons_prefix_cons.mpr ⟨rfl, hts⟩)
      rwa [depth_cons, ← Int.add_assoc] at hmore
  · rintro ⟨between, rest, rfl, hclosed, hlevel⟩
    refine ⟨(p, token) :: between, rest, rfl, ?_, fun ts hts => ?_⟩
    · rw [List.map_cons, depth_cons, ← Int.add_assoc]
      exact hclosed
    · rcases List.prefix_cons_iff.mp hts with rfl | ⟨ts, rfl, hprefix⟩
      · rwa [depth_nil, Int.add_zero]
      · rw [depth_cons, ← Int.add_assoc]
        exact hlevel ts hprefix

theorem closingFrom_of_isBlank {c : Char} (hblank : Text.isBlank c = true) :
    Source.closingFrom behind false d (c :: rest) =
      (Source.closingFrom (c :: behind) false d rest).map (· + 1) := by
  obtain ⟨hquote, -, hclose, hlevel⟩ := delimiters_of_isBlank hblank
  have hpass : ¬ ((c = ')' && !false && d = 1) = true) := by simp [hclose]
  rw [Source.closingFrom, if_neg hpass, quotedAfter_of_ne hquote, hlevel, Int.add_zero]

/-- The search for a closing parenthesis finds the place of the token that closes. -/
theorem Division.closing (h : Division behind afterTerm t places) (hd : 1 ≤ d) (p : Nat) :
    (Source.closingFrom behind false d t).map (behind.length + ·) = some p ↔ ClosedAt d places p := by
  induction h generalizing d with
  | nil => exact ⟨nofun, fun h => absurd h closedAt_nil⟩
  | blank hblank h ih =>
    rename_i behind rest afterTerm c places
    rw [closingFrom_of_isBlank hblank, Option.map_map, ← ih hd]
    simp only [Function.comp_def, List.length_cons, Nat.add_assoc, Nat.add_comm 1]
  | token hlexeme h ih =>
    rename_i behind t rest afterTerm token places
    by_cases hclose : token = .rightParen ∧ d = 1
    · obtain ⟨rfl, rfl⟩ := hclose
      obtain rfl : t = [')'] := hlexeme.eq_text (by decide)
      rw [closedAt_rightParen, List.singleton_append, Source.closingFrom, if_pos (by decide)]
      exact Option.some_inj
    · -- Before the parenthesis searched for the level stays above zero.
      have hpass : token = .rightParen → d ≠ 1 := fun htoken hlevel => hclose ⟨htoken, hlevel⟩
      have hlevel : 1 ≤ d + token.nesting := by
        by_cases htoken : token = .rightParen
        · have hne := hpass htoken
          rw [htoken]
          show 1 ≤ d + -1
          omega
        · cases token <;> first | exact absurd rfl htoken | (simp only [nesting]; omega)
      rw [hlexeme.closingFrom hpass, closedAt_cons hd hpass, Option.map_map, ← ih hlevel]
      simp only [Function.comp_def, List.length_append, List.length_reverse, Nat.add_comm, Nat.add_left_comm]

theorem closedAt_one_iff {q : Nat} :
    ClosedAt 1 places q ↔
      ∃ between rest, places = between ++ (q, .rightParen) :: rest ∧
        Paired nesting (between.map Prod.snd) := by
  -- The level inside the parentheses is one more than the depth of what stands between them.
  constructor
  · rintro ⟨between, rest, hplaces, hclosed, hlevel⟩
    refine ⟨between, rest, hplaces, fun ts hts => ?_, by omega⟩
    have hone := hlevel ts hts
    omega
  · rintro ⟨between, rest, hplaces, hpaired⟩
    refine ⟨between, rest, hplaces, ?_, fun ts hts => ?_⟩
    · rw [hpaired.closed, Int.add_zero]
    · have hzero := hpaired.nonneg ts hts
      omega

/-- What is divided behind a text is a lexeme in its place and what is divided behind the lexeme. -/
theorem Division.split {before after : List (Nat × Token)} {p : Nat}
    (h : Division behind afterTerm t (before ++ (p, token) :: after)) :
    ∃ u v rest afterTerm', t = u ++ (v ++ rest) ∧ p = behind.length + u.length ∧
      Lexeme (u.reverse ++ behind) rest afterTerm' v token ∧
      Division (v.reverse ++ (u.reverse ++ behind)) token.endsTerm rest after := by
  generalize hplaces : before ++ (p, token) :: after = places at h
  -- Induction on the division; what has been passed over goes in front of the text of the token.
  induction h generalizing before with
  | nil => exact absurd hplaces (List.append_ne_nil_of_right_ne_nil _ (List.cons_ne_nil _ _))
  | blank hblank h ih =>
    rename_i behind t afterTerm c places
    obtain ⟨u, v, rest, afterTerm', rfl, rfl, hlexeme, hafter⟩ := ih hplaces
    have hbehind : u.reverse ++ c :: behind = (c :: u).reverse ++ behind := by
      rw [List.reverse_cons, List.append_assoc, List.singleton_append]
    rw [hbehind] at hlexeme hafter
    refine ⟨c :: u, v, rest, afterTerm', rfl, ?_, hlexeme, hafter⟩
    rw [List.length_cons, List.length_cons]
    omega
  | token hlexeme h ih =>
    rename_i behind t rest afterTerm first places
    cases before with
    | nil =>
      cases hplaces
      exact ⟨[], t, rest, afterTerm, rfl, rfl, hlexeme, h⟩
    | cons place before =>
      cases hplaces
      obtain ⟨u, v, rest, afterTerm', rfl, rfl, hmember, hafter⟩ := ih rfl
      have hbehind : u.reverse ++ (t.reverse ++ behind) = (t ++ u).reverse ++ behind := by
        rw [List.reverse_append, List.append_assoc]
      rw [hbehind] at hmember hafter
      refine ⟨t ++ u, v, rest, afterTerm', (List.append_assoc ..).symm, ?_, hmember, hafter⟩
      rw [List.length_append, List.length_append, List.length_reverse]
      omega

/-- A parenthesis is closed at the place of the token that closes it. -/
theorem Division.matchingParen {before after : List (Nat × Token)} {p : Nat}
    (h : Division [] afterTerm t (before ++ (p, .leftParen) :: after)) (q : Nat) :
    matchingParen? t p = some q ↔
      ∃ between rest, after = between ++ (q, .rightParen) :: rest ∧
        Paired nesting (between.map Prod.snd) := by
  obtain ⟨u, v, rest, afterTerm', rfl, rfl, hparen, hafter⟩ := h.split
  obtain rfl : v = ['('] := hparen.eq_text (by decide)
  rw [List.append_nil] at hparen hafter
  have hinside : Source.closingFrom u.reverse false 0 (['('] ++ rest) =
      (Source.closingFrom ('(' :: u.reverse) false 1 rest).map (· + 1) :=
    hparen.closingFrom nofun
  have hclosing := hafter.closing Int.le_rfl q
  rw [closedAt_one_iff, List.reverse_singleton, List.singleton_append] at hclosing
  rw [← hclosing, matchingParen?, List.length_nil, Nat.zero_add, List.take_left, List.drop_left, hinside,
    Option.map_map, List.length_append, Nat.min_eq_left (Nat.le_add_right ..)]
  simp only [Function.comp_def, List.length_reverse, List.length_cons, Nat.add_comm, Nat.add_left_comm]

/-! ## 6. Scans of operand text -/

/-- What the scans for commas and parentheses find in a text, as its tokens tell it. -/
structure Delimited (t : Text) (ts : List Token) : Prop where
  /-- There is one piece more than there are commas outside parentheses. -/
  length : (splitCommas t).length = topCommas ts + 1
  /-- The pieces between the commas are divided into the tokens between the commas. -/
  pieces : ∃ tss : List (List Token), (splitCommas t).map scan = tss.map .ok ∧ [.comma].intercalate tss = ts
  /-- There is one division into tokens. -/
  divided : ∃! places, Division [] false t places
  tokens : ∀ places, Division [] false t places → places.map Prod.snd = ts
  /-- A parenthesis is closed at the place of the right parenthesis behind tokens with paired parentheses. Without such
  a token it is not closed. -/
  closing : ∀ before p after, Division [] false t (before ++ (p, .leftParen) :: after) → ∀ q,
    matchingParen? t p = some q ↔
      ∃ between rest, after = between ++ (q, .rightParen) :: rest ∧ Paired nesting (between.map Prod.snd)

/-- The scans for commas and parentheses agree with the tokens of every text that can be divided. -/
theorem delimited_of_scan {ts : List Token} (h : scan t = .ok ts) : Delimited t ts := by
  obtain ⟨places, hdivision, rfl⟩ := exists_division h
  obtain ⟨piece, more, ts, tss, hpieces, hfirst, hmore, htokens, hcount⟩ := hdivision.pieces 0
  have hsplit : splitCommas t = piece :: more := hpieces
  constructor
  case length => rw [hsplit, List.length_cons, hcount, topCommasFrom_zero]
  case pieces =>
    refine ⟨ts :: tss, ?_, htokens⟩
    rw [hsplit, List.map_cons, List.map_cons, hmore]
    exact congrArg (· :: _) hfirst
  case divided => exact ⟨places, hdivision, fun places' hdivision' => hdivision'.unique hdivision⟩
  case tokens =>
    intro places' hdivision'
    rw [hdivision'.unique hdivision]
  case closing => exact fun before p after hdivision' => hdivision'.matchingParen

/-- The apostrophe of `L'X` begins no string and that of `C'),('` does. -/
theorem delimited_of_scan_quoted :
    let t := "A,(L'X,C'),('),X'0'".toList
    let ts : List Token := [.symbol (.ofString "A"), .comma, .leftParen, .attr .length false (.ofString "X"), .comma,
      .char "),(".toList, .rightParen, .comma, .hex ['0']]
    scan t = .ok ts ∧ topCommas ts = 2 ∧ Delimited t ts := by
  intro t ts
  have hscan : scan t = .ok ts := by decide +kernel
  exact ⟨hscan, by decide, delimited_of_scan hscan⟩

end Assembler.Token
