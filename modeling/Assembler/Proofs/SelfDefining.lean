import Assembler.Proofs.Grammar
import Mathlib.Data.Nat.Digits.Lemmas
/-!
Self-defining terms that are written in digits.

The text between the quotes of `X'..'` and `B'..'` is read as a numeral: every character has to be a digit of the base,
and the number is the positional value of the digits (`Numeral.read?_eq_some_iff`), cut to 32 bits in two's complement.
Besides numerals of up to eight hexadecimal or 32 binary digits a numeral one digit shorter is accepted after a plus
sign. Everything else in quotes is an invalid term (`read_selfDefining`).
-/

namespace Assembler

/-! ## 1. Digits -/

namespace Numeral

/-- The digits of base 16. The first of them are the digits of the smaller bases. -/
def digits : Text := ['0', '1', '2', '3', '4', '5', '6', '7', '8', '9', 'A', 'B', 'C', 'D', 'E', 'F']

/-- The place of a character among the digits, in either case. -/
def place (c : Char) : Nat := digits.idxOf c.toUpper

theorem toNat_toUpper (c : Char) :
    c.toUpper.toNat = if 97 ≤ c.toNat ∧ c.toNat ≤ 122 then c.toNat - 32 else c.toNat := by
  by_cases h : 'a'.val ≤ c.val ∧ c.val ≤ 'z'.val
  · have hu : c.toUpper.val = c.val + ('A'.val - 'a'.val) := by
      have he : c.toUpper = _ := dif_pos h
      rw [he]
    have hrange : 97 ≤ c.toNat ∧ c.toNat ≤ 122 := h
    rw [if_pos hrange]
    change c.toUpper.val.toNat = _
    rw [hu, UInt32.toNat_add]
    change (c.toNat + 4294967264) % 4294967296 = c.toNat - 32
    omega
  · have hc : c.toUpper = c := dif_neg h
    have hrange : ¬ (97 ≤ c.toNat ∧ c.toNat ≤ 122) := h
    rw [hc, if_neg hrange]

/-- The codes of the digits. -/
theorem mem_digits_iff {c : Char} :
    c ∈ digits ↔ 48 ≤ c.toNat ∧ c.toNat ≤ 57 ∨ 65 ≤ c.toNat ∧ c.toNat ≤ 70 := by
  constructor
  · intro h
    have hall : digits.all fun d => 48 ≤ d.toNat ∧ d.toNat ≤ 57 ∨ 65 ≤ d.toNat ∧ d.toNat ≤ 70 := by decide
    exact of_decide_eq_true (List.all_eq_true.mp hall c h)
  · intro h
    have hall : ∀ n, 48 ≤ n ∧ n ≤ 57 ∨ 65 ≤ n ∧ n ≤ 70 → Char.ofNat n ∈ digits := by
      intro n hn
      have hle : n ≤ 70 := by omega
      interval_cases n <;> first | omega | decide
    rw [← Char.ofNat_toNat c]
    exact hall c.toNat h

theorem idxOf_digits {c : Char} (h : c ∈ digits) :
    digits.idxOf c = if c.toNat ≤ 57 then c.toNat - 48 else c.toNat - 55 := by
  have hall : digits.all fun d => digits.idxOf d = if d.toNat ≤ 57 then d.toNat - 48 else d.toNat - 55 := by
    decide
  exact of_decide_eq_true (List.all_eq_true.mp hall c h)

/-- What counts as a digit of a base are its first characters of the list. -/
theorem mem_take_digits {base : Nat} {c : Char} (h : c ∈ digits) :
    c ∈ digits.take base ↔ digits.idxOf c < base := by
  have hnodup : digits.Nodup := by decide
  have hlt : digits.idxOf c < digits.length := List.idxOf_lt_length_iff.mpr h
  constructor
  · intro htake
    obtain ⟨i, hi, rfl⟩ := List.mem_iff_getElem.mp htake
    rw [List.length_take] at hi
    rw [List.getElem_take, hnodup.idxOf_getElem]
    omega
  · intro hbase
    apply List.mem_iff_getElem.mpr
    refine ⟨digits.idxOf c, ?_, ?_⟩
    · rw [List.length_take]
      omega
    · rw [List.getElem_take, List.getElem_idxOf hlt]

theorem toNat_eq_of_mem_digits {c : Char} (h : c.toUpper ∈ digits) :
    (48 ≤ c.toNat ∧ c.toNat ≤ 57 ∧ place c = c.toNat - 48) ∨
      (97 ≤ c.toNat ∧ c.toNat ≤ 102 ∧ place c = c.toNat - 97 + 10) ∨
      (65 ≤ c.toNat ∧ c.toNat ≤ 70 ∧ place c = c.toNat - 65 + 10) := by
  have hrange := mem_digits_iff.mp h
  have hplace := idxOf_digits h
  change place c = _ at hplace
  rw [toNat_toUpper] at hrange hplace
  split_ifs at hrange hplace <;> omega

theorem mem_digits_of_toNat {c : Char}
    (h : 48 ≤ c.toNat ∧ c.toNat ≤ 57 ∨ 97 ≤ c.toNat ∧ c.toNat ≤ 102 ∨ 65 ≤ c.toNat ∧ c.toNat ≤ 70) :
    c.toUpper ∈ digits := by
  rw [mem_digits_iff, toNat_toUpper]
  split_ifs <;> omega

theorem isDigit_iff {c : Char} : c.isDigit = true ↔ 48 ≤ c.toNat ∧ c.toNat ≤ 57 := by
  simp only [Char.isDigit, Bool.and_eq_true, decide_eq_true_eq]
  exact Iff.rfl

theorem digit?_eq (base : Nat) (c : Char) :
    digit? base c = if c.toUpper ∈ digits.take base then some (place c) else none := by
  have hlower : 'a' ≤ c ∧ c ≤ 'f' ↔ 97 ≤ c.toNat ∧ c.toNat ≤ 102 := Iff.rfl
  have hupper : 'A' ≤ c ∧ c ≤ 'F' ↔ 65 ≤ c.toNat ∧ c.toNat ≤ 70 := Iff.rfl
  simp only [digit?, isDigit_iff, hlower, hupper]
  change Option.filter _ (if 48 ≤ c.toNat ∧ c.toNat ≤ 57 then some (c.toNat - 48)
    else if 97 ≤ c.toNat ∧ c.toNat ≤ 102 then some (c.toNat - 97 + 10)
    else if 65 ≤ c.toNat ∧ c.toNat ≤ 70 then some (c.toNat - 65 + 10) else none) = _
  by_cases h : c.toUpper ∈ digits
  · have hvalue : (if 48 ≤ c.toNat ∧ c.toNat ≤ 57 then some (c.toNat - 48)
        else if 97 ≤ c.toNat ∧ c.toNat ≤ 102 then some (c.toNat - 97 + 10)
        else if 65 ≤ c.toNat ∧ c.toNat ≤ 70 then some (c.toNat - 65 + 10) else none) =
          some (place c) := by
      rcases toNat_eq_of_mem_digits h with ⟨hl, hh, hplace⟩ | ⟨hl, hh, hplace⟩ | ⟨hl, hh, hplace⟩
      · rw [if_pos ⟨hl, hh⟩, hplace]
      · rw [if_neg (by omega), if_pos ⟨hl, hh⟩, hplace]
      · rw [if_neg (by omega), if_neg (by omega), if_pos ⟨hl, hh⟩, hplace]
    rw [hvalue, Option.filter_some]
    simp only [mem_take_digits h, decide_eq_true_eq]
    rfl
  · have hout : ¬ (48 ≤ c.toNat ∧ c.toNat ≤ 57 ∨ 97 ≤ c.toNat ∧ c.toNat ≤ 102 ∨
        65 ≤ c.toNat ∧ c.toNat ≤ 70) := fun hin => h (mem_digits_of_toNat hin)
    rw [if_neg (by omega), if_neg (by omega), if_neg (by omega),
      if_neg fun htake => h (List.mem_of_mem_take htake)]
    rfl

/-! ## 2. Numerals -/

/-- Whether a text is a numeral of a base, and for which number it stands. -/
structure Writes (base : Nat) (t : Text) (n : Nat) : Prop where
  nonempty : t ≠ []
  digits : ∀ c ∈ t, c.toUpper ∈ Numeral.digits.take base
  value : n = Nat.ofDigits base (t.reverse.map place)

theorem readFrom_eq_some_iff {base sofar n : Nat} {t : Text} :
    readFrom base sofar t = some n ↔
      (∀ c ∈ t, c.toUpper ∈ digits.take base) ∧
        n = Nat.ofDigits base (t.reverse.map place) + base ^ t.length * sofar := by
  induction t generalizing sofar with
  | nil => simp [readFrom, eq_comm]
  | cons c t ih =>
    rw [readFrom, digit?_eq]
    by_cases h : c.toUpper ∈ digits.take base
    · -- The first digit is the most significant one: its weight is that of all places behind it.
      rw [if_pos h]
      simp only [Option.bind_eq_bind, Option.bind_some]
      rw [ih]
      simp only [List.forall_mem_cons, h, true_and, List.reverse_cons, List.map_append, List.map_cons,
        List.map_nil, Nat.ofDigits_append, Nat.ofDigits_singleton, List.length_map,
        List.length_reverse, List.length_cons, pow_succ]
      apply and_congr_right
      intro _
      rw [show base ^ t.length * (sofar * base + place c) =
        base ^ t.length * place c + base ^ t.length * base * sofar by ring, ← Nat.add_assoc]
    · rw [if_neg h]
      simp [h]

theorem read?_eq_some_iff {base : Nat} {t : Text} {n : Nat} : read? base t = some n ↔ Writes base t n := by
  unfold read?
  cases t with
  | nil =>
    constructor
    · intro h
      cases h
    · intro h
      exact absurd rfl h.nonempty
  | cons c t =>
    rw [List.isEmpty_cons, if_neg Bool.false_ne_true, readFrom_eq_some_iff, Nat.mul_zero, Nat.add_zero]
    constructor
    · rintro ⟨hdigits, hvalue⟩
      exact ⟨List.cons_ne_nil c t, hdigits, hvalue⟩
    · intro h
      exact ⟨h.digits, h.value⟩

end Numeral

/-! ## 3. Numbers of 32 bits -/

/-- Whether a number is the two's complement reading of the 32 bits of `n`. -/
def TwosComplement (n : Nat) (v : Int32) : Prop :=
  v.toInt = if n < 2147483648 then (n : Int) else n - 4294967296

theorem twosComplement_ofNat {n : Nat} (h : n < 4294967296) : TwosComplement n (Int32.ofNat n) := by
  have hmod : (n : Int) % 4294967296 = n := Int.emod_eq_of_lt (Int.natCast_nonneg n) (by omega)
  unfold TwosComplement
  rw [Int32.toInt_ofNat', Int.bmod_def]
  change (if (n : Int) % 4294967296 < (4294967296 + 1) / 2 then (n : Int) % 4294967296
    else (n : Int) % 4294967296 - 4294967296) = _
  rw [hmod]
  split_ifs <;> omega

theorem TwosComplement.unique {n : Nat} {v w : Int32} (hv : TwosComplement n v)
    (hw : TwosComplement n w) : v = w :=
  Int32.toInt_inj.mp (hv.trans hw.symm)

/-- Whether the text in the quotes of a self-defining term is a numeral of at most `most` characters, perhaps with a
plus sign at its start, for a number of 32 bits. -/
def Spells (base most : Nat) (t : Text) (v : Int32) : Prop :=
  ∃ digits n, (t = digits ∨ t = '+' :: digits) ∧ t.length ≤ most ∧ Numeral.Writes base digits n ∧
    TwosComplement n v

/-- A numeral does not start with a sign. -/
theorem Numeral.Writes.head_ne_plus {base n : Nat} {t : Text} (h : Writes base t n) :
    t.head? ≠ some '+' := by
  intro hplus
  have hmem := h.digits '+' (List.mem_of_head? hplus)
  have hno : ('+' : Char).toUpper ∉ Numeral.digits := by decide
  exact hno (List.mem_of_mem_take hmem)

theorem Numeral.Writes.lt_pow {base n : Nat} {t : Text} (hbase : 1 < base) (h : Writes base t n) :
    n < base ^ t.length := by
  have hlt : ∀ x ∈ t.reverse.map place, x < base := by
    intro x hx
    obtain ⟨c, hc, rfl⟩ := List.mem_map.mp hx
    have htake := h.digits c (List.mem_reverse.mp hc)
    exact (mem_take_digits (List.mem_of_mem_take htake)).mp htake
  have hbound := Nat.ofDigits_lt_base_pow_length hbase hlt
  rw [List.length_map, List.length_reverse, ← h.value] at hbound
  exact hbound

namespace Token

theorem digitsTerm?_eq_some_iff {base most : Nat} (hbase : 1 < base)
    (hfits : base ^ most = 4294967296) {t : Text} {v : Int32} :
    digitsTerm? base most t = some v ↔ Spells base most t v := by
  have bounded : ∀ digits n, digits.length ≤ most → Numeral.Writes base digits n → n < 4294967296 := by
    intro digits n hlength h
    rw [← hfits]
    exact Nat.lt_of_lt_of_le (h.lt_pow hbase) (Nat.pow_le_pow_right (by omega) hlength)
  unfold digitsTerm?
  constructor
  · intro h
    obtain ⟨hlength, hread⟩ := Option.ite_none_right_eq_some.mp h
    obtain ⟨n, hn, rfl⟩ := Option.map_eq_some_iff.mp hread
    have hwrites := Numeral.read?_eq_some_iff.mp hn
    -- The plus sign counts for the length, but is cut off before the digits are read.
    by_cases hplus : t.head? = some '+'
    · rw [if_pos hplus] at hwrites
      have ht : t = '+' :: t.tail := List.eq_cons_of_mem_head? hplus
      refine ⟨t.tail, n, .inr ht, hlength, hwrites, twosComplement_ofNat (bounded _ n ?_ hwrites)⟩
      rw [List.length_tail]
      omega
    · rw [if_neg hplus] at hwrites
      exact ⟨t, n, .inl rfl, hlength, hwrites, twosComplement_ofNat (bounded t n hlength hwrites)⟩
  · rintro ⟨digits, n, ht, hlength, hwrites, hv⟩
    have hcut : (if t.head? = some '+' then t.tail else t) = digits := by
      rcases ht with rfl | rfl
      · rw [if_neg hwrites.head_ne_plus]
      · rfl
    have hdigits' : digits.length ≤ most := by
      rcases ht with rfl | rfl
      · exact hlength
      · exact Nat.le_of_succ_le hlength
    rw [if_pos hlength, hcut, Numeral.read?_eq_some_iff.mpr hwrites, Option.map_some]
    exact congrArg some ((twosComplement_ofNat (bounded digits n hdigits' hwrites)).unique hv)

end Token

/-! ## 4. Terms in quotes -/

theorem Source.readQuoted?_cons {c : Char} (hc : c ≠ '\'') (rest : Text) :
    readQuoted? (c :: rest) = (readQuoted? rest).map fun (content, n) => (c :: content, n + 1) := by
  rw [readQuoted?.eq_def]
  split
  · contradiction
  · next heq => exact absurd (List.cons.inj heq).1 hc
  · next heq => exact absurd (List.cons.inj heq).1 hc
  · next heq =>
    obtain ⟨rfl, rfl⟩ := List.cons.inj heq
    rfl

/-- A string without quotes in it ends at the quote after it. -/
theorem Source.readQuoted?_append {t : Text} (h : '\'' ∉ t) :
    readQuoted? (t ++ ['\'']) = some (t, t.length + 1) := by
  induction t with
  | nil => rfl
  | cons c t ih =>
    have hc : c ≠ '\'' := fun heq => h (heq ▸ List.mem_cons_self)
    rw [List.cons_append, readQuoted?_cons hc, ih fun hmem => h (List.mem_cons_of_mem c hmem)]
    rfl

namespace Token

/-- A text without quotes in it, in quotes after one of the letters, is one token. -/
theorem scan_quoted {letter : Char} {h : Text} {token : Token} (hletter : letter = 'X' ∨ letter = 'B')
    (hq : '\'' ∉ h) (htoken : selfDefining? [letter] h = some token) :
    scan (quoted letter h) = .ok [token] := by
  -- What the two letters have in common: they start a name and no attribute reference.
  have hattr : Source.attributeQuote [letter] (h ++ ['\'']) = false := by
    rcases hletter with rfl | rfl <;> rfl
  have hfold : Text.fold [letter] = [letter] := by
    rcases hletter with rfl | rfl <;> rfl
  have hblank : Text.isBlank letter = false := by
    rcases hletter with rfl | rfl <;> rfl
  have hone : scanOne [] false letter ('\'' :: (h ++ ['\''])) =
      scanWord [] letter ('\'' :: (h ++ ['\''])) := by
    rcases hletter with rfl | rfl <;> rfl
  have hword : scanWord [] letter ('\'' :: (h ++ ['\''])) = .ok (token, h.length + 2) := by
    have htail : ('\'' :: (h ++ ['\''])).takeWhile Source.isNameChar = [] := rfl
    unfold scanWord
    simp only [htail, List.length_nil, List.drop_zero, hattr, List.isEmpty_nil, Bool.false_eq_true,
      and_false, if_false, Source.readQuoted?_append hq, hfold, htoken]
    rw [Nat.zero_add, Nat.add_comm]
  have hlength : ('\'' :: (h ++ ['\''])).length = h.length + 2 := by
    rw [List.length_cons, List.length_append]
    rfl
  change scanFrom [] false (letter :: '\'' :: (h ++ ['\''])) = _
  rw [scanFrom, hblank, if_neg Bool.false_ne_true, hone, hword]
  dsimp only
  rw [List.drop_of_length_le (Nat.le_of_eq hlength), scanFrom]
  rfl

end Token

namespace Expr

/-- A token that is no operator and no parenthesis is read as a whole expression. -/
theorem parse_singleton {t : Token} (hop : ∀ op, t ≠ .op op) (hparen : t ≠ .leftParen) :
    parse [t] = t.primary := by
  have hsigned : parseSigned [t] = parseTerm [t] := by
    rw [parseSigned]
    · exact fun more h => hop _ (List.cons.inj h).1
    · exact fun more h => hop _ (List.cons.inj h).1
  cases hprimary : t.primary with
  | ok e =>
    have hterm : parseTerm [t] = .ok e [] (Nat.lt_succ_self _) := by
      simp only [parseTerm, hprimary]
    simp only [parse, parseSum, parseProduct, hsigned, hterm, parseProductTail, parseSumTail,
      Parsed.widen]
  | error e =>
    have hterm : parseTerm [t] = .error e [] := by
      simp only [parseTerm, hprimary]
    simp only [parse, parseSum, parseProduct, hsigned, hterm]

theorem read_quoted {letter : Char} {h : Text} {t : Token} (hletter : letter = 'X' ∨ letter = 'B')
    (hq : '\'' ∉ h) (htoken : Token.selfDefining? [letter] h = some t) (hop : ∀ op, t ≠ .op op)
    (hparen : t ≠ .leftParen) : (read (Token.quoted letter h)).result = t.primary := by
  unfold read
  rw [Token.scan_quoted hletter hq htoken]
  exact parse_singleton hop hparen

theorem read_hex {h : Text} (hq : '\'' ∉ h) :
    (read (Token.quoted 'X' h)).result =
      (Token.digitsTerm? 16 8 h).elim (.error (.invalidTerm (Token.quoted 'X' h))) (.ok ∘ .number) := by
  rw [read_quoted (.inl rfl) hq rfl (fun _ heq => nomatch heq) (fun heq => nomatch heq)]
  dsimp only [Token.primary]
  cases Token.digitsTerm? 16 8 h <;> rfl

theorem read_binary {h : Text} (hq : '\'' ∉ h) :
    (read (Token.quoted 'B' h)).result =
      (Token.digitsTerm? 2 32 h).elim (.error (.invalidTerm (Token.quoted 'B' h))) (.ok ∘ .number) := by
  rw [read_quoted (.inr rfl) hq rfl (fun _ heq => nomatch heq) (fun heq => nomatch heq)]
  dsimp only [Token.primary]
  cases Token.digitsTerm? 2 32 h <;> rfl

/-- A term of digits is the number that is spelled, or else the fault. -/
theorem elim_digitsTerm? {base most : Nat} (hbase : 1 < base) (hfits : base ^ most = 4294967296)
    (h : Text) (fault : ReadError) {r : Except ReadError Expr}
    (hr : r = (Token.digitsTerm? base most h).elim (.error fault) (.ok ∘ .number)) :
    (∀ e, r = .ok e ↔ ∃ v, e = .number v ∧ Spells base most h v) ∧
      ((∀ v, ¬ Spells base most h v) → r = .error fault) := by
  subst hr
  cases hterm : Token.digitsTerm? base most h with
  | none =>
    have hno : ∀ v, ¬ Spells base most h v := by
      intro v hv
      rw [← Token.digitsTerm?_eq_some_iff hbase hfits, hterm] at hv
      cases hv
    refine ⟨fun e => ⟨fun heq => ?_, fun ⟨v, _, hv⟩ => absurd hv (hno v)⟩, fun _ => rfl⟩
    cases heq
  | some v =>
    have hv : Spells base most h v := (Token.digitsTerm?_eq_some_iff hbase hfits).mp hterm
    refine ⟨fun e => ⟨fun heq => ?_, fun ⟨w, he, hw⟩ => ?_⟩, fun hno => absurd hv (hno v)⟩
    · cases heq
      exact ⟨v, rfl, hv⟩
    · rw [← Token.digitsTerm?_eq_some_iff hbase hfits, hterm] at hw
      cases hw
      rw [he]
      rfl

/-- A term in quotes after `X` or `B` is read just if a numeral of base 16 or 2, perhaps after a plus sign, stands in
the quotes; its value is the number written, in two's complement. Every other text without quotes in it makes an
invalid term. -/
theorem read_selfDefining {h : Text} (hq : '\'' ∉ h) :
    ((∀ e, (read (Token.quoted 'X' h)).result = .ok e ↔ ∃ v, e = .number v ∧ Spells 16 8 h v) ∧
      ((∀ v, ¬ Spells 16 8 h v) →
        (read (Token.quoted 'X' h)).result = .error (.invalidTerm (Token.quoted 'X' h)))) ∧
    ((∀ e, (read (Token.quoted 'B' h)).result = .ok e ↔ ∃ v, e = .number v ∧ Spells 2 32 h v) ∧
      ((∀ v, ¬ Spells 2 32 h v) →
        (read (Token.quoted 'B' h)).result = .error (.invalidTerm (Token.quoted 'B' h)))) :=
  ⟨elim_digitsTerm? (by omega) rfl h _ (read_hex hq), elim_digitsTerm? (by omega) rfl h _ (read_binary hq)⟩

/-- A plus sign before a digit is read. -/
theorem read_selfDefining_plus :
    '\'' ∉ ['+', 'F'] ∧ (read ['X', '\'', '+', 'F', '\'']).result = .ok (.number 15) := by
  have hq : '\'' ∉ ['+', 'F'] := by decide
  have hwrites : Numeral.Writes 16 ['F'] 15 :=
    ⟨List.cons_ne_nil _ _, List.forall_mem_singleton.mpr (by decide), by decide⟩
  have hspells : Spells 16 8 ['+', 'F'] 15 := ⟨['F'], 15, .inr rfl, by decide, hwrites, rfl⟩
  exact ⟨hq, ((read_selfDefining hq).1.1 (.number 15)).mpr ⟨15, rfl, hspells⟩⟩

end Expr

end Assembler
