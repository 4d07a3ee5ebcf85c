import Assembler.Proofs.Lexeme
/-!
Tokens shown as texts: the text of a token spells it.

Wherever no name goes on around it, the text of a token is a lexeme of that token (`Lexeme.text`), whatever its first
spelling was, unless its string holds an apostrophe: the text does not double it. So a list of tokens that a text is
divided into comes back from the texts of its tokens with blanks between them (`scan_unwords`).
-/

namespace Assembler

/-! ## 1. Decimal numerals -/

namespace Numeral

theorem Writes.append_digit {base n : Nat} {t : Text} {c : Char} (h : Writes base t n)
    (hdigit : c.toUpper ∈ Numeral.digits.take base) : Writes base (t ++ [c]) (base * n + place c) where
  nonempty := List.append_ne_nil_of_left_ne_nil h.nonempty [c]
  digits d hd := by
    rcases List.mem_append.mp hd with hd | hd
    · exact h.digits d hd
    · rwa [List.mem_singleton.mp hd]
  value := by
    rw [List.reverse_append, List.reverse_singleton, List.singleton_append, List.map_cons, Nat.ofDigits_cons, ← h.value,
      Nat.add_comm]

theorem writes_digit {base d : Nat} {c : Char} (hdigit : c.toUpper ∈ Numeral.digits.take base) (hplace : place c = d) :
    Writes base [c] d where
  nonempty := List.cons_ne_nil c []
  digits := List.forall_mem_singleton.mpr hdigit
  value := by rw [List.reverse_singleton, List.map_singleton, Nat.ofDigits_singleton, hplace]

theorem digitChar_mem {base d : Nat} (hbase : base ≤ 16) (h : d < base) :
    (Nat.digitChar d).toUpper ∈ digits.take base ∧ place (Nat.digitChar d) = d := by
  have hall : (List.range 16).all fun d => (Nat.digitChar d).toUpper ∈ digits ∧ place (Nat.digitChar d) = d := by
    decide
  have hmem : d ∈ List.range 16 := List.mem_range.mpr (by omega)
  obtain ⟨hdigit, hplace⟩ := of_decide_eq_true (List.all_eq_true.mp hall d hmem)
  refine ⟨(mem_take_digits hdigit).mpr ?_, hplace⟩
  change place (Nat.digitChar d) < base
  rwa [hplace]

/-- The numeral of a number in a base stands for it. -/
theorem writes_toDigits {base : Nat} (hbase : 1 < base) (hle : base ≤ 16) (n : Nat) :
    Writes base (Nat.toDigits base n) n := by
  induction n using Nat.strongRecOn with
  | ind n ih =>
    by_cases hn : n < base
    · obtain ⟨hdigit, hplace⟩ := digitChar_mem hle hn
      rw [Nat.toDigits_of_lt_base hn]
      exact writes_digit hdigit hplace
    · -- The last digit is the remainder, the others are those of the quotient.
      obtain ⟨hdigit, hplace⟩ := digitChar_mem hle (Nat.mod_lt n (by omega : 0 < base))
      have hquotient : n / base < n := Nat.div_lt_self (by omega) hbase
      rw [Nat.toDigits_of_base_le hbase (Nat.le_of_not_lt hn)]
      have hmore := (ih (n / base) hquotient).append_digit hdigit
      rwa [hplace, Nat.div_add_mod] at hmore

theorem writes_decimal (n : Nat) : Writes 10 (decimal n) n := writes_toDigits (by decide) (by decide) n

end Numeral

namespace Token

open Source

variable {behind behind' ahead ahead' t : Text} {afterTerm : Bool} {token : Token}

/-! ## 2. Texts of tokens -/

/-- The string of a self-defining term. -/
def content : Token → Text
  | hex digits => digits
  | char content => content
  | binary digits => digits
  | _ => []

theorem head?_any_fold {p : Char → Bool} (hp : ∀ c : Char, p c.toUpper = p c) (t : Text) :
    (Text.fold t).head?.any p = t.head?.any p := by
  cases t with
  | nil => rfl
  | cons c t => exact hp c

theorem all_fold {p : Char → Bool} (hp : ∀ c : Char, p c.toUpper = p c) (t : Text) :
    (Text.fold t).all p = t.all p := by
  rw [Text.fold, List.all_map]
  exact congrArg t.all (funext hp)

/-- The text of a token spells it, where no name goes on around it and no string behind it. -/
theorem Lexeme.text (h : Lexeme behind ahead afterTerm t token) (hplain : '\'' ∉ token.content)
    (hbehind : behind'.head?.any isNameChar = false) (hahead : ahead'.head?.any isNameChar = false)
    (hquote : ahead'.head? ≠ some '\'') : Lexeme behind' ahead' afterTerm token.text token := by
  cases h with
  | leftParen => exact .leftParen
  | rightParen => exact .rightParen
  | comma => exact .comma
  | sign o term => exact .sign o term
  | counter noTerm => exact .counter noTerm
  | variableSymbol named chars ends =>
    rename_i name
    have hspelled : Lexeme behind' ahead' afterTerm _ (.variableSymbol (.ofText (Text.fold name))) :=
      .variableSymbol (fun hnil => named (List.map_eq_nil_iff.mp hnil))
        (by rwa [all_fold @isNameChar_toUpper]) hahead
    rwa [Name.ofText_fold] at hspelled
  | symbol starts chars ends noQuote =>
    have hspelled : Lexeme behind' ahead' afterTerm _ (.symbol (.ofText (Text.fold t))) :=
      .symbol (by rwa [head?_any_fold @isNameStart_toUpper]) (by rwa [all_fold @isNameChar_toUpper]) hahead hquote
    rwa [Name.ofText_fold] at hspelled
  | attr known alone starts chars ends =>
    rename_i letter kind ampersand name
    have hspelled : Lexeme behind' ahead' afterTerm _ (.attr kind ampersand (.ofText (Text.fold name))) :=
      .attr (AttributeKind.ofLetter?_letter kind) hbehind
        (fun hampersand => by rw [head?_any_fold @isNameStart_toUpper]; exact starts hampersand)
        (by rwa [all_fold @isNameChar_toUpper]) hahead
    rwa [Name.ofText_fold] at hspelled
  | quoted known ends =>
    rename_i word content
    -- All words of a term in characters are shown as `C`.
    obtain ⟨letter, hknown, htext, hcontent⟩ : ∃ letter, selfDefining? (Text.fold [letter]) content = some token ∧
        token.text = Token.quoted letter content ∧ token.content = content := by
      rcases selfDefining?_eq_some known with ⟨-, rfl⟩ | ⟨-, rfl⟩ | ⟨-, rfl⟩
      · exact ⟨'X', rfl, rfl, rfl⟩
      · exact ⟨'C', rfl, rfl, rfl⟩
      · exact ⟨'B', rfl, rfl, rfl⟩
    have hspelled : Lexeme behind' ahead' afterTerm _ token := .quoted hknown hquote
    rw [hcontent] at hplain
    rw [doubled_of_notMem hplain] at hspelled
    rw [htext]
    exact hspelled
  | number reads fits ends =>
    exact .number (Numeral.read?_eq_some_iff.mpr (Numeral.writes_decimal _)) fits (head?_any_isDigit hahead)

/-! ## 3. Texts of lists of tokens -/

/-- The texts of tokens with blanks between them. -/
def unwords (ts : List Token) : Text := [' '].intercalate (ts.map text)

theorem unwords_cons (token : Token) (ts : List Token) :
    unwords (token :: ts) = token.text ++ if ts = [] then [] else ' ' :: unwords ts := by
  unfold unwords
  cases ts with
  | nil => rw [if_pos rfl, List.append_nil, List.map_singleton, List.intercalate_singleton]
  | cons next ts =>
    rw [if_neg (List.cons_ne_nil next ts), List.map_cons, List.map_cons, List.intercalate_cons_cons, List.append_assoc]
    rfl

/-- What a text is divided into behind a name-free place is what the texts of its tokens are divided into. -/
theorem Division.scanFrom_unwords {places : List (Nat × Token)} (h : Division behind afterTerm t places)
    (hplain : ∀ token ∈ places.map Prod.snd, '\'' ∉ token.content)
    (hbehind : behind'.head?.any isNameChar = false) :
    Token.scanFrom behind' afterTerm (unwords (places.map Prod.snd)) = .ok (places.map Prod.snd) := by
  induction h generalizing behind' with
  | nil => exact Division.nil.scanFrom
  | blank hblank h ih => exact ih hplain hbehind
  | token hlexeme h ih =>
    rename_i behind t rest afterTerm token places
    obtain ⟨hfirst, hmore⟩ := List.forall_mem_cons.mp hplain
    rw [List.map_cons, unwords_cons]
    by_cases hnil : places.map Prod.snd = []
    · rw [if_pos hnil, hnil]
      have hspelled : Lexeme behind' [] afterTerm token.text token := hlexeme.text hfirst hbehind rfl nofun
      exact hspelled.scanFrom Division.nil.scanFrom
    · rw [if_neg hnil]
      refine (hlexeme.text hfirst hbehind rfl ?_).scanFrom ?_
      · exact ne_of_beq_false rfl
      · rw [Token.scanFrom, if_pos (by decide)]
        exact ih hmore rfl

/-- Tokens come back from their texts with blanks between them. -/
theorem scan_unwords {ts : List Token} (h : scan t = .ok ts) (hplain : ∀ token ∈ ts, '\'' ∉ token.content) :
    scan (unwords ts) = .ok ts := by
  obtain ⟨places, hdivision, rfl⟩ := exists_division h
  exact hdivision.scanFrom_unwords hplain rfl

/-- One asterisk multiplies and the other is the location counter, one `x` is a name and the other begins a string. -/
theorem scan_unwords_asterisks :
    let t := "l'x*(007-*),x'1F',ca'B, '&v".toList
    let ts : List Token := [.attr .length false (.ofString "X"), .op .mul, .leftParen, .number 7, .op .sub, .counter,
      .rightParen, .comma, .hex "1F".toList, .comma, .char "B, ".toList, .variableSymbol (.ofString "V")]
    scan t = .ok ts ∧ unwords ts = "L'X * ( 7 - * ) , X'1F' , C'B, ' &V".toList ∧ scan (unwords ts) = .ok ts := by
  intro t ts
  have hscan : scan t = .ok ts := by decide +kernel
  have hplain : ∀ token ∈ ts, '\'' ∉ token.content := by decide
  exact ⟨hscan, by decide, scan_unwords hscan hplain⟩

end Token

end Assembler
