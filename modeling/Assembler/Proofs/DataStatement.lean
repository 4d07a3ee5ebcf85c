import Assembler.Proofs.Rendering
import Assembler.Statement
/-!
Statements that define data: DC and DS with operands rendered from their parts.

A rendering of an operand is a duplication factor, a type code with its extension, modifiers and nominal values, all
expressions in parentheses (`DataOperand.Rendered`). Each part is read where it stands, and what follows it is not
taken for a part of it, because no part begins like one that may stand before it (`head?_mem`). The scans for blanks and
commas pass over the whole operand (`DataOperand.Rendered.undivided`). So a line of such operands is read as the
statement that has them (`Statement.read_data`).
-/

namespace Assembler

open Source

/-! ## 1. Readings -/

namespace Reading

variable {α β : Type}

theorem result_bind {r : Reading α} {a : α} (h : r.result = .ok a) (f : α → Reading β) :
    (r >>= f).result = (f a).result := by
  obtain ⟨mentions, result⟩ := r
  obtain rfl : result = .ok a := h
  rfl

theorem result_mapM_loop {f : α → Reading β} {as : List α} {bs done : List β}
    (h : List.Forall₂ (fun a b => (f a).result = .ok b) as bs) :
    (List.mapM.loop f as done).result = .ok (done.reverse ++ bs) := by
  induction h generalizing done with
  | nil =>
    rw [List.append_nil]
    rfl
  | cons ha h ih =>
    rename_i a b as bs
    -- The loop keeps what has been read in reverse.
    have hmore := @ih (b :: done)
    rw [List.reverse_cons, List.append_assoc, List.singleton_append] at hmore
    exact (result_bind ha _).trans hmore

/-- What is read from a list of texts. -/
theorem result_mapM {f : α → Reading β} {as : List α} {bs : List β}
    (h : List.Forall₂ (fun a b => (f a).result = .ok b) as bs) : (as.mapM f).result = .ok bs :=
  result_mapM_loop h

end Reading

/-! ## 2. Renderings -/

/-- The texts of an optional part of an operand: nothing, or an expression in parentheses behind a mark. -/
inductive Part (mark : Text) : Option Expr → Text → Prop
  | absent : Part mark none []
  | given {e : Expr} {t : Text} (h : e.Rendered t) : Part mark (some e) (mark ++ '(' :: (t ++ [')']))

/-- What stands before the value of a length modifier; a point means bits. -/
def lengthMark (length? : Option LengthModifier) : Text := 'L' :: if length?.any (·.bits) then ['.'] else []

/-- The texts of nominal values: a string with its apostrophes doubled, or expressions. -/
inductive Nominal.Rendered : Option Nominal → Text → Prop
  | absent : Rendered none []
  | quoted (content : Text) : Rendered (some (.quoted content)) ('\'' :: (doubled content ++ ['\'']))
  | exprs {values : List Expr} {texts : List Text} (nonempty : values ≠ [])
    (h : List.Forall₂ Expr.Rendered values texts) :
    Rendered (some (.exprs values)) ('(' :: ([','].intercalate texts ++ [')']))

/-- The texts that may stand for the extension of a type. The hexadecimal representation has one that can be left
out. -/
def DataType.extensions (type : DataType) : List Text :=
  match type with
  | .d .hex | .e .hex | .l .hex => [[], ['H']]
  | type => [type.extension?.toList]

namespace DataOperand

/-- Whether the start of an operand reads as something else: as a type code with the extension `E`, or as an attribute
reference instead of a type code before a string. -/
def Ambiguous (op : DataOperand) (extension : Text) : Prop :=
  op.type = .c ∧ op.exponent? ≠ none ∧ op.length? = none ∧ op.scale? = none ∨
    op.type.code ∈ ['D', 'L', 'S'] ∧ extension = [] ∧ op.length? = none ∧ op.scale? = none ∧ op.exponent? = none ∧
      ∃ c content, op.nominal? = some (.quoted (c :: content)) ∧ (isNameStart c = true ∨ c = '&')

/-- The texts of an operand. -/
inductive Rendered (op : DataOperand) : Text → Prop
  | mk {duplication extension length scale exponent nominal : Text}
    (hduplication : Part [] op.duplication? duplication)
    (hextension : extension ∈ op.type.extensions)
    (hlength : Part (lengthMark op.length?) (op.length?.map (·.expr)) length)
    (hscale : Part ['S'] op.scale? scale)
    (hexponent : Part ['E'] op.exponent? exponent)
    (hnominal : Nominal.Rendered op.nominal? nominal)
    (unambiguous : ¬ op.Ambiguous extension) :
    Rendered op
      (duplication ++ (op.type.code :: extension ++ (length ++ (scale ++ (exponent ++ nominal)))))

end DataOperand

/-! ## 3. Parts -/

section Parts

variable {mark t u behind ahead : Text} {e? : Option Expr} {nominal? : Option Nominal}

theorem Part.eq_or_exists (h : Part mark e? t) :
    e? = none ∧ t = [] ∨ ∃ e u, e? = some e ∧ e.Rendered u ∧ t = mark ++ '(' :: (u ++ [')']) := by
  cases h with
  | absent => exact .inl ⟨rfl, rfl⟩
  | given h => exact .inr ⟨_, _, rfl, h, rfl⟩

/-- A part begins with its letter, unless it is left out. -/
theorem Part.head?_mem {letter : Char} {heads : List (Option Char)} (h : Part (letter :: mark) e? t)
    (hu : u.head? ∈ heads) : (t ++ u).head? ∈ some letter :: heads := by
  rcases h.eq_or_exists with ⟨-, rfl⟩ | ⟨e, v, -, -, rfl⟩
  · exact List.mem_cons_of_mem _ hu
  · exact List.mem_cons_self

/-- A part ends with a parenthesis, unless it is left out. -/
theorem Part.attributeQuote (h : Part mark e? t) (hbehind : e? = none → attributeQuote behind ahead = false) :
    Source.attributeQuote (t.reverse ++ behind) ahead = false := by
  rcases h.eq_or_exists with ⟨hnone, rfl⟩ | ⟨e, v, -, -, rfl⟩
  · exact hbehind hnone
  · have hend : (mark ++ '(' :: (v ++ [')'])).reverse ++ behind = ')' :: ((mark ++ '(' :: v).reverse ++ behind) := by
      simp
    rw [hend]
    exact attributeQuote_of_ofLetter? (by decide)

theorem Part.undivided (h : Part mark e? t) (hmark : ∀ c ∈ mark, isInert c = true ∧ c ≠ '\'') :
    Undivided ahead behind t := by
  rcases h.eq_or_exists with ⟨-, rfl⟩ | ⟨e, v, -, hv, rfl⟩
  · exact undivided_nil
  · exact (inert_of_plain hmark).undivided.append hv.enclosed

theorem inert_lengthMark (length? : Option LengthModifier) :
    ∀ c ∈ lengthMark length?, isInert c = true ∧ c ≠ '\'' := by
  have hall : ∀ bits : Bool, ('L' :: if bits then ['.'] else []).all (fun c => isInert c && c ≠ '\'') = true := by
    decide
  intro c hc
  simpa using List.all_eq_true.mp (hall _) c hc

theorem solid_of_expressions {values : List Expr} {texts : List Text}
    (h : List.Forall₂ Expr.Rendered values texts) : ∀ t ∈ texts, Solid t :=
  forall_mem_of_forall₂ (fun _ _ hvalue => hvalue.solid) h

theorem Nominal.Rendered.head?_mem (h : Nominal.Rendered nominal? t) : t.head? ∈ [none, some '\'', some '('] := by
  cases h with
  | absent | quoted | exprs => simp

theorem Nominal.Rendered.undivided (h : Nominal.Rendered nominal? t)
    (hquote : ∀ content, nominal? = some (.quoted content) →
      Source.attributeQuote behind (doubled content ++ ['\''] ++ ahead) = false) : Undivided ahead behind t := by
  cases h with
  | absent => exact undivided_nil
  | quoted content => exact (inert_string (hquote content rfl)).undivided
  | exprs nonempty h =>
    exact (coherent_intercalate (solid_of_expressions h) (gap_cons rfl rfl (by decide))).enclosed

/-! ## 4. Types -/

theorem DataType.mem_all (type : DataType) : type ∈ all := by
  cases type with
  | d format | e format | l format => cases format <;> decide
  | _ => decide

/-- The characters of a type code and its extension are those of a name. -/
theorem DataType.isNameChar_code (type : DataType) {extension : Text} (h : extension ∈ type.extensions) :
    (type.code :: extension).all isNameChar = true := by
  have hall : ∀ type ∈ all, ∀ extension ∈ type.extensions, (type.code :: extension).all isNameChar = true := by decide
  exact hall type type.mem_all extension h

/-- A type code and its extension belong to their type. -/
theorem DataType.ofCode?_code (type : DataType) {extension : Text} (h : extension ∈ type.extensions) :
    ofCode? type.code extension.head? = some type ∧
      (extension = [] ∨ ∃ c, extension = [c] ∧ (c.isAlpha && isExtension type.code c) = true) := by
  have hall : ∀ type ∈ all, ∀ extension ∈ type.extensions, ofCode? type.code extension.head? = some type ∧
      (extension = [] ∨ extension.length = 1 ∧
        extension.all (fun c => c.isAlpha && isExtension type.code c) = true) := by decide +kernel
  obtain ⟨hcode, hextension⟩ := hall type type.mem_all extension h
  refine ⟨hcode, hextension.imp id ?_⟩
  rintro ⟨hlength, hvalid⟩
  obtain ⟨c, rfl⟩ := List.length_eq_one_iff.mp hlength
  exact ⟨c, rfl, List.all_eq_true.mp hvalid c List.mem_cons_self⟩

/-- What may stand behind a type code is an extension only after `C`. -/
theorem DataType.isExtension_of_head (type : DataType) {head : Option Char}
    (h : head ∈ [some 'L', some 'S', some 'E', none, some '\'', some '(']) :
    head.filter (fun c => c.isAlpha && isExtension type.code c) = none ∨ head = some 'E' ∧ type.code = 'C' := by
  have hall : ∀ type ∈ all, ∀ head ∈ [some 'L', some 'S', some 'E', none, some '\'', some '('],
      head.filter (fun c => c.isAlpha && isExtension type.code c) = none ∨ head = some 'E' ∧ type.code = 'C' := by
    decide +kernel
  exact hall type type.mem_all head h

theorem DataType.eq_c_of_code (type : DataType) (h : [] ∈ type.extensions) (hcode : type.code = 'C') : type = .c := by
  have hall : ∀ type ∈ all, [] ∈ type.extensions → type.code = 'C' → type = .c := by decide
  exact hall type type.mem_all h hcode

theorem DataType.code_isDigit (type : DataType) : (type.code.isDigit || type.code = '(') = false := by
  have hall : ∀ type ∈ all, (type.code.isDigit || type.code = '(') = false := by decide
  exact hall type type.mem_all

/-- The type codes that are letters of attributes. -/
theorem DataType.code_mem_of_ofLetter? (type : DataType) (h : (AttributeKind.ofLetter? type.code).isSome = true) :
    type.code ∈ ['D', 'L', 'S'] := by
  have hall : ∀ type ∈ all, (AttributeKind.ofLetter? type.code).isSome = true → type.code ∈ ['D', 'L', 'S'] := by
    decide
  exact hall type type.mem_all h

end Parts

namespace DataOperand

variable {op : DataOperand} {t behind ahead : Text}

/-! ## 5. Scans of operands -/

/-- An operand that is unambiguous without its modifiers has no apostrophe that is taken for a part of an attribute
reference. -/
theorem attributeQuote_of_code {extension content : Text} (hextension : extension ∈ op.type.extensions)
    (unambiguous : ¬ op.Ambiguous extension) (hlength : op.length? = none) (hscale : op.scale? = none)
    (hexponent : op.exponent? = none) (hcontent : op.nominal? = some (.quoted content)) :
    attributeQuote ((op.type.code :: extension).reverse ++ behind) (doubled content ++ ['\''] ++ ahead) = false := by
  apply Bool.eq_false_iff.mpr
  intro hquote
  rcases (op.type.ofCode?_code hextension).2 with rfl | ⟨c, rfl, -⟩
  · obtain ⟨hletter, -, hhead⟩ := attributeQuote_eq_true_iff.mp hquote
    refine unambiguous (.inr ⟨op.type.code_mem_of_ofLetter? hletter, rfl, hlength, hscale, hexponent, ?_⟩)
    cases content with
    | nil => cases hhead
    | cons c content =>
      by_cases hc : c = '\''
      · subst hc
        cases hhead
      · rw [doubled_cons hc] at hhead
        exact ⟨c, content, hcontent, by simpa using hhead⟩
  · -- The type code stands right before the extension.
    obtain ⟨-, halone, -⟩ := attributeQuote_eq_true_iff.mp hquote
    have hcode := List.all_eq_true.mp (op.type.isNameChar_code hextension) _ List.mem_cons_self
    exact Bool.eq_false_iff.mp halone hcode

/-- The scans for blanks and commas pass over an operand, wherever it stands. -/
theorem Rendered.undivided (h : op.Rendered t) : Undivided ahead behind t := by
  obtain ⟨hduplication, hextension, hlength, hscale, hexponent, hnominal, unambiguous⟩ := h
  rename_i duplication extension length scale exponent nominal
  have hmodifier : ∀ letter, isInert letter = true → letter ≠ '\'' → ∀ c ∈ [letter], isInert c = true ∧ c ≠ '\'' :=
    fun letter hinert hquote => List.forall_mem_singleton.mpr ⟨hinert, hquote⟩
  -- Of all parts only a string depends on what stands before it.
  refine (hduplication.undivided nofun).append ?_
  refine (inert_name (op.type.isNameChar_code hextension)).undivided.append ?_
  refine (hlength.undivided (inert_lengthMark op.length?)).append ?_
  refine (hscale.undivided (hmodifier 'S' rfl (by decide))).append ?_
  refine (hexponent.undivided (hmodifier 'E' rfl (by decide))).append ?_
  refine hnominal.undivided fun content hcontent => ?_
  refine hexponent.attributeQuote fun hnoExponent => hscale.attributeQuote fun hnoScale =>
    hlength.attributeQuote fun hnoLength => ?_
  exact attributeQuote_of_code hextension unambiguous (Option.map_eq_none_iff.mp hnoLength) hnoScale hnoExponent
    hcontent

theorem Rendered.ne_nil (h : op.Rendered t) : t ≠ [] := by
  cases h
  exact List.append_ne_nil_of_right_ne_nil _ (List.cons_ne_nil _ _)

/-! ## 6. Reading of parts -/

theorem advance_append (t behind ahead : Text) :
    (⟨behind, t ++ ahead⟩ : Cursor).advance t.length = ⟨t.reverse ++ behind, ahead⟩ := by
  unfold Cursor.advance
  rw [List.take_left, List.drop_left]

theorem parenthesized?_eq (h : Coherent (')' :: ahead) ('(' :: behind) t) :
    (⟨behind, '(' :: (t ++ [')']) ++ ahead⟩ : Cursor).parenthesized? =
      some (t, ⟨('(' :: (t ++ [')'])).reverse ++ behind, ahead⟩) := by
  have hshape : '(' :: (t ++ [')']) ++ ahead = '(' :: (t ++ ')' :: ahead) := by simp
  have hlength : t.length + 1 + 1 = ('(' :: (t ++ [')'])).length := by simp
  have hclosing := h.closingFrom
  rw [← hshape] at hclosing
  rw [Cursor.parenthesized?, hclosing, Option.map_some, hlength, advance_append]
  congr 2
  simp

theorem readFactor_parentheses {e : Expr} (h : e.Rendered t) :
    (readFactor ⟨behind, '(' :: (t ++ [')']) ++ ahead⟩).result =
      .ok (e, ⟨('(' :: (t ++ [')'])).reverse ++ behind, ahead⟩) := by
  have hopen : (⟨behind, '(' :: (t ++ [')']) ++ ahead⟩ : Cursor).ahead.head? = some '(' := rfl
  rw [readFactor, if_pos hopen, parenthesized?_eq (h.solid (gap_cons rfl rfl (by decide))).toCoherent]
  exact Reading.result_bind h.read _

theorem readDuplication_of_part {e? : Option Expr} (h : Part [] e? t)
    (hahead : ahead.head?.any (fun c => c.isDigit || c = '(') = false) :
    (readDuplication ⟨behind, t ++ ahead⟩).result = .ok (e?, ⟨t.reverse ++ behind, ahead⟩) := by
  rcases h.eq_or_exists with ⟨rfl, rfl⟩ | ⟨e, u, rfl, hu, rfl⟩
  · rw [readDuplication, List.nil_append, if_neg (Bool.eq_false_iff.mp hahead)]
    rfl
  · have hopen : (⟨behind, '(' :: (u ++ [')']) ++ ahead⟩ : Cursor).ahead.head?.any
        (fun c => c.isDigit || c = '(') = true := rfl
    rw [readDuplication, List.nil_append, if_pos hopen]
    exact Reading.result_bind (readFactor_parentheses hu) _

theorem readType_of_extension (type : DataType) {extension : Text} (h : extension ∈ type.extensions)
    (hahead : extension = [] →
      ahead.head?.filter (fun c => c.isAlpha && DataType.isExtension type.code c) = none) :
    (readType ⟨behind, type.code :: extension ++ ahead⟩).result =
      .ok (type, ⟨(type.code :: extension).reverse ++ behind, ahead⟩) := by
  obtain ⟨hcode, rfl | ⟨c, rfl, hc⟩⟩ := type.ofCode?_code h
  · rw [List.head?_nil] at hcode
    simp only [readType, List.cons_append, List.nil_append, hahead rfl, hcode]
    rfl
  · rw [List.head?_cons] at hcode
    simp only [readType, List.cons_append, List.nil_append, List.head?_cons, Option.filter_some, hc, if_true, hcode]
    rfl

theorem hasModifier_eq_false {letter : Char} (h : ahead.head?.any (fun c => c.toUpper = letter) = false) :
    (⟨behind, ahead⟩ : Cursor).hasModifier letter = false := by
  match ahead with
  | [] => rfl
  | [c] => rfl
  | c :: d :: rest =>
    have hc : decide (c.toUpper = letter) = false := h
    simp only [Cursor.hasModifier, hc, Bool.false_and]

theorem readLength_of_part {length? : Option LengthModifier}
    (h : Part (lengthMark length?) (length?.map (·.expr)) t)
    (hahead : ahead.head?.any (fun c => c.toUpper = 'L') = false) :
    (readLength ⟨behind, t ++ ahead⟩).result = .ok (length?, ⟨t.reverse ++ behind, ahead⟩) := by
  rcases h.eq_or_exists with ⟨hnone, rfl⟩ | ⟨e, u, hsome, hu, rfl⟩
  · rw [Option.map_eq_none_iff.mp hnone, readLength, List.nil_append,
      if_neg (Bool.eq_false_iff.mp (hasModifier_eq_false hahead))]
    rfl
  · obtain ⟨⟨e, bits⟩, rfl, rfl⟩ := Option.map_eq_some_iff.mp hsome
    -- The value stands behind the letter, or behind the letter and a point.
    cases bits with
    | false =>
      have hmodifier : (⟨behind, 'L' :: ('(' :: (u ++ [')']) ++ ahead)⟩ : Cursor).hasModifier 'L' = true := rfl
      have hvalue := @readFactor_parentheses _ ('L' :: behind) ahead _ hu
      change (readLength ⟨behind, 'L' :: ('(' :: (u ++ [')']) ++ ahead)⟩).result = _
      rw [readLength, if_pos hmodifier]
      refine (Reading.result_bind hvalue _).trans ?_
      simp [lengthMark, Cursor.advance, pure]
    | true =>
      have hmodifier : (⟨behind, 'L' :: '.' :: ('(' :: (u ++ [')']) ++ ahead)⟩ : Cursor).hasModifier 'L' = true := rfl
      have hvalue := @readFactor_parentheses _ ('.' :: 'L' :: behind) ahead _ hu
      change (readLength ⟨behind, 'L' :: '.' :: ('(' :: (u ++ [')']) ++ ahead)⟩).result = _
      rw [readLength, if_pos hmodifier]
      refine (Reading.result_bind hvalue _).trans ?_
      simp [lengthMark, Cursor.advance, pure]

theorem readModifier_of_part {letter : Char} {e? : Option Expr} (h : Part [letter] e? t)
    (hletter : letter.toUpper = letter) (hahead : ahead.head?.any (fun c => c.toUpper = letter) = false) :
    (readModifier letter ⟨behind, t ++ ahead⟩).result = .ok (e?, ⟨t.reverse ++ behind, ahead⟩) := by
  rcases h.eq_or_exists with ⟨rfl, rfl⟩ | ⟨e, u, rfl, hu, rfl⟩
  · rw [readModifier, List.nil_append, if_neg (Bool.eq_false_iff.mp (hasModifier_eq_false hahead))]
    rfl
  · have hmodifier : (⟨behind, letter :: ('(' :: (u ++ [')']) ++ ahead)⟩ : Cursor).hasModifier letter = true := by
      simp [Cursor.hasModifier, hletter]
    have hvalue := @readFactor_parentheses _ (letter :: behind) ahead _ hu
    change (readModifier letter ⟨behind, letter :: ('(' :: (u ++ [')']) ++ ahead)⟩).result = _
    rw [readModifier, if_pos hmodifier]
    refine (Reading.result_bind hvalue _).trans ?_
    simp [pure]

theorem readNominal_of_rendered {nominal? : Option Nominal} (h : Nominal.Rendered nominal? t) :
    (readNominal ⟨behind, t⟩).result = .ok (nominal?, ⟨t.reverse ++ behind, []⟩) := by
  cases h with
  | absent => rfl
  | quoted content =>
    have hread : readQuoted? (doubled content ++ ['\'']) = some (content, (doubled content).length + 1) :=
      readQuoted?_doubled content nofun
    have hlength : (doubled content).length + 1 + 1 = ('\'' :: (doubled content ++ ['\''])).length := by simp
    have hadvance := advance_append ('\'' :: (doubled content ++ ['\''])) behind []
    rw [List.append_nil, ← hlength] at hadvance
    simp only [readNominal, hread, hadvance]
    rfl
  | exprs nonempty h =>
    rename_i values texts
    have hsolid := solid_of_expressions h
    have hcoherent : Coherent [')'] ('(' :: behind) ([','].intercalate texts) :=
      coherent_intercalate hsolid (gap_cons rfl rfl (by decide))
    have hparentheses := parenthesized?_eq hcoherent
    rw [List.append_nil] at hparentheses
    have hpieces : splitCommas ([','].intercalate texts) = texts := by
      refine splitCommas_intercalate ?_ hsolid
      rintro rfl
      exact nonempty (List.forall₂_nil_right_iff.mp h)
    have hvalues : ((splitCommas ([','].intercalate texts)).mapM fun piece => Expr.read (Text.trim piece)).result =
        .ok values := by
      rw [hpieces]
      refine Reading.result_mapM (h.flip.imp fun t e ht => ?_)
      rw [(ht.solid gap_nil).toCoherent.trim]
      exact ht.read
    simp only [readNominal, hparentheses]
    exact Reading.result_bind hvalues _

/-! ## 7. Reading of operands -/

theorem heads_after_length {scale exponent nominal : Text} (hscale : Part ['S'] op.scale? scale)
    (hexponent : Part ['E'] op.exponent? exponent) (hnominal : Nominal.Rendered op.nominal? nominal) :
    nominal.head? ∈ [none, some '\'', some '('] ∧
      (exponent ++ nominal).head? ∈ [some 'E', none, some '\'', some '('] ∧
        (scale ++ (exponent ++ nominal)).head? ∈ [some 'S', some 'E', none, some '\'', some '('] := by
  have hlast := hnominal.head?_mem
  have hmiddle := hexponent.head?_mem hlast
  exact ⟨hlast, hmiddle, hscale.head?_mem hmiddle⟩

/-- What stands behind a type code is no extension of it, unless the operand is ambiguous. -/
theorem no_extension {length scale exponent nominal : Text}
    (hlength : Part (lengthMark op.length?) (op.length?.map (·.expr)) length) (hscale : Part ['S'] op.scale? scale)
    (hexponent : Part ['E'] op.exponent? exponent) (hnominal : Nominal.Rendered op.nominal? nominal)
    (hextension : [] ∈ op.type.extensions) (unambiguous : ¬ op.Ambiguous []) :
    (length ++ (scale ++ (exponent ++ nominal))).head?.filter
      (fun c => c.isAlpha && DataType.isExtension op.type.code c) = none := by
  have hhead := hlength.head?_mem (heads_after_length hscale hexponent hnominal).2.2
  rcases op.type.isExtension_of_head hhead with hnone | ⟨hexp, hcode⟩
  · exact hnone
  · -- Only an exponent begins like an extension of `C`, and no length or scale stands before it.
    exfalso
    refine unambiguous (.inl ⟨op.type.eq_c_of_code hextension hcode, ?_⟩)
    rcases hlength.eq_or_exists with ⟨hnoLength, rfl⟩ | ⟨e, u, -, -, rfl⟩
    · rcases hscale.eq_or_exists with ⟨hnoScale, rfl⟩ | ⟨e, u, -, -, rfl⟩
      · refine ⟨fun hnoExponent => ?_, Option.map_eq_none_iff.mp hnoLength, hnoScale⟩
        rcases hexponent.eq_or_exists with ⟨-, rfl⟩ | ⟨e, u, hsome, -, -⟩
        · have hlast := hnominal.head?_mem
          rw [List.nil_append, List.nil_append, List.nil_append] at hexp
          rw [hexp] at hlast
          revert hlast
          decide
        · rw [hnoExponent] at hsome
          cases hsome
      · cases hexp
    · cases hexp

/-- An operand is read from each of its texts. -/
theorem Rendered.read (h : op.Rendered t) : (read t).result = .ok op := by
  have hundivided : Undivided [] [] t := h.undivided
  have htrim : Text.trim t = t := hundivided.toCoherent.trim
  obtain ⟨hduplication, hextension, hlength, hscale, hexponent, hnominal, unambiguous⟩ := h
  rename_i duplication extension length scale exponent nominal
  obtain ⟨hlast, hmiddle, hrest⟩ := heads_after_length hscale hexponent hnominal
  have hcode : (op.type.code :: extension ++ (length ++ (scale ++ (exponent ++ nominal)))).head?.any
      (fun c => c.isDigit || c = '(') = false := op.type.code_isDigit
  have hnoLength : ∀ head ∈ [some 'S', some 'E', none, some '\'', some '('],
      head.any (fun c => c.toUpper = 'L') = false := by decide
  have hnoScale : ∀ head ∈ [some 'E', none, some '\'', some '('], head.any (fun c => c.toUpper = 'S') = false := by
    decide
  have hnoExponent : ∀ head ∈ [none, some '\'', some '('], head.any (fun c => c.toUpper = 'E') = false := by decide
  unfold DataOperand.read
  rw [htrim]
  -- Each part is read up to the next one, and the last one up to the end.
  refine (Reading.result_bind (readDuplication_of_part hduplication hcode) _).trans ?_
  refine (Reading.result_bind (readType_of_extension op.type hextension fun hnil => ?_) _).trans ?_
  · subst hnil
    exact no_extension hlength hscale hexponent hnominal hextension unambiguous
  refine (Reading.result_bind (readLength_of_part hlength (hnoLength _ hrest)) _).trans ?_
  refine (Reading.result_bind (readModifier_of_part hscale rfl (hnoScale _ hmiddle)) _).trans ?_
  refine (Reading.result_bind (readModifier_of_part hexponent rfl (hnoExponent _ hlast)) _).trans ?_
  refine (Reading.result_bind (readNominal_of_rendered hnominal) _).trans ?_
  rfl

end DataOperand

/-! ## 8. Statements -/

namespace Statement

variable {ops : List DataOperand} {texts : List Text} {blank : Char}

theorem solid_of_operands (h : List.Forall₂ DataOperand.Rendered ops texts) : ∀ t ∈ texts, Solid t :=
  forall_mem_of_forall₂ (fun _ _ hop {_ _} _ => hop.undivided) h

theorem ne_nil_of_operands (hne : ops ≠ []) (h : List.Forall₂ DataOperand.Rendered ops texts) : texts ≠ [] := by
  rintro rfl
  exact hne (List.forall₂_nil_right_iff.mp h)

/-- The operation code of a statement that defines data, or only reserves storage. -/
def dataCode (storageOnly : Bool) : Text := if storageOnly then ['D', 'S'] else ['D', 'C']

theorem isNameChar_of_isBlank {c : Char} (h : Text.isBlank c = true) : isNameChar c = false := by
  apply Bool.eq_false_iff.mpr
  intro hname
  rw [isBlank_of_isNameChar hname] at h
  cases h

/-- Operands end at a blank. -/
theorem splitOperands_blank {t : Text} (hblank : Text.isBlank blank = true) {remark : Text}
    (h : Coherent (blank :: remark) [] t) :
    splitOperands (t ++ blank :: remark) = (t, Text.trim (blank :: remark)) := by
  have hcut : cutAtBlank (t.reverse ++ []) false (blank :: remark) = ([], blank :: remark) := by
    rw [cutAtBlank, hblank]
    rfl
  have hwhole : cutAtBlank [] false (t ++ blank :: remark) = (t, blank :: remark) := by
    rw [h.cutAtBlank, hcut]
    exact congrArg (·, _) (List.append_nil t)
  simp only [splitOperands, hwhole, h.trim]

/-- The first character of operands is no blank. -/
theorem exists_cons_intercalate (hne : ops ≠ []) (h : List.Forall₂ DataOperand.Rendered ops texts) :
    ∃ c t, [','].intercalate texts = c :: t ∧ Text.isBlank c = false := by
  cases h with
  | nil => exact absurd rfl hne
  | cons hfirst h =>
    rename_i op text ops texts
    have hwhole : [','].intercalate (text :: texts) = text ++ ([','].intercalate (text :: texts)).drop text.length := by
      cases texts with
      | nil => simp
      | cons u texts => simp [List.intercalate_cons_cons]
    obtain ⟨c, u, hcons⟩ := List.exists_cons_of_ne_nil hfirst.ne_nil
    have hundivided : Undivided [] [] text := hfirst.undivided
    rw [hwhole, hcons]
    rw [hcons] at hundivided
    exact ⟨c, _, rfl, hundivided.noBlank c List.mem_cons_self⟩

theorem coherent_operands (h : List.Forall₂ DataOperand.Rendered ops texts) (hblank : Text.isBlank blank = true)
    (remark : Text) : Coherent (blank :: remark) [] ([','].intercalate texts) := by
  have hquote : blank ≠ '\'' := by
    rintro rfl
    cases hblank
  exact coherent_intercalate (solid_of_operands h)
    ⟨rfl, isNameChar_of_isBlank hblank, fun heq => hquote (Option.some.inj heq)⟩

/-- A line that defines data has its operands up to the first blank behind them. -/
theorem ofText_data (storageOnly : Bool) (hne : ops ≠ []) (h : List.Forall₂ DataOperand.Rendered ops texts)
    (hblank : Text.isBlank blank = true) (remark : Text) :
    let operands := [','].intercalate texts
    Line.ofText (' ' :: dataCode storageOnly ++ ' ' :: (operands ++ blank :: remark)) =
      .instruction ⟨none, dataCode storageOnly, operands, Text.trim (blank :: remark)⟩ := by
  intro operands
  obtain ⟨c, rest, hcons, hsolid⟩ := exists_cons_intercalate hne h
  have hsplit := splitOperands_blank hblank (coherent_operands h hblank remark)
  have hword : cutWord (Text.trimStart (' ' :: dataCode storageOnly ++ ' ' :: (operands ++ blank :: remark))) =
      (dataCode storageOnly, ' ' :: (operands ++ blank :: remark)) := by
    cases storageOnly <;> rfl
  have hstart : Text.trimStart (' ' :: (operands ++ blank :: remark)) = operands ++ blank :: remark := by
    change Text.trimStart (operands ++ blank :: remark) = _
    rw [show operands = c :: rest from hcons]
    exact List.dropWhile_cons_of_neg (Bool.eq_false_iff.mp hsolid)
  have hall : (' ' :: dataCode storageOnly ++ ' ' :: (operands ++ blank :: remark)).all Text.isBlank = false := by
    cases storageOnly <;> rfl
  rw [Line.ofText, if_neg (by exact Bool.false_ne_true), if_neg (Bool.eq_false_iff.mp hall), if_pos (by rfl)]
  simp only [fieldsAfter, hword, hstart]
  rw [hsplit]

theorem operandTexts_intercalate (hne : ops ≠ []) (h : List.Forall₂ DataOperand.Rendered ops texts) :
    operandTexts ([','].intercalate texts) = texts := by
  obtain ⟨c, rest, hcons, hsolid⟩ := exists_cons_intercalate hne h
  have hall : ([','].intercalate texts).all Text.isBlank = false := by
    rw [hcons, List.all_cons, hsolid, Bool.false_and]
  rw [operandTexts, if_neg (Bool.eq_false_iff.mp hall)]
  exact splitCommas_intercalate (ne_nil_of_operands hne h) (solid_of_operands h)

/-- Operands that are there are read one after another. -/
theorem readOperation_data (storageOnly : Bool) (hne : ops ≠ []) (h : List.Forall₂ DataOperand.Rendered ops texts) :
    (readOperation (.data storageOnly) texts).result = .ok (.data storageOnly ops) := by
  have hempty : ¬ texts.isEmpty = true := fun hnil => ne_nil_of_operands hne h (List.isEmpty_iff.mp hnil)
  rw [readOperation, if_neg hempty]
  exact Reading.result_bind (Reading.result_mapM (h.flip.imp fun t op hop => hop.read)) _

/-- A line that defines data is read as the statement with its operands, whatever remark stands behind them. -/
theorem read_data (storageOnly : Bool) (hne : ops ≠ []) (h : List.Forall₂ DataOperand.Rendered ops texts)
    (hblank : Text.isBlank blank = true) (remark : Text) (location : Location) :
    let operands := [','].intercalate texts
    let fields : Fields := ⟨none, dataCode storageOnly, operands, Text.trim (blank :: remark)⟩
    Line.ofText (' ' :: dataCode storageOnly ++ ' ' :: (operands ++ blank :: remark)) = .instruction fields ∧
      (read fields location).result =
        .ok ⟨none, .ofText (dataCode storageOnly), .data storageOnly ops, location⟩ := by
  intro operands fields
  refine ⟨ofText_data storageOnly hne h hblank remark, ?_⟩
  have hlabel : (readLabel none).result = .ok none := rfl
  have hopcode : (Reading.mention (.ofText (dataCode storageOnly))).result = .ok (.ofText (dataCode storageOnly)) := rfl
  have hrole : Directive.roleOf? (.ofText (dataCode storageOnly)) = some (.data storageOnly) := by
    cases storageOnly <;> decide
  have hdata : (readOperation (.data storageOnly) (operandTexts operands)).result = .ok (.data storageOnly ops) := by
    rw [operandTexts_intercalate hne h]
    exact readOperation_data storageOnly hne h
  refine (Reading.result_bind hlabel _).trans ((Reading.result_bind hopcode _).trans ?_)
  simp only [hrole]
  exact Reading.result_bind hdata _

/-- A string with a blank, an apostrophe and a parenthesis, operations on the location counter and on a negated name,
and a string that would be taken for a part of an attribute reference without the extension before it. -/
theorem read_data_constants :
    let ops : List DataOperand :=
      [{ duplication? := some (.attr .length (.symbol (.ofText ['X']))), type := .c,
         length? := some ⟨.number 4, false⟩, nominal? := some (.quoted "A B'(".toList) },
       { type := .a, nominal? := some (.exprs [.binary .mul .counter (.number 4), .negate (.symbol (.ofText ['Y']))]) },
       { type := .d .hex, nominal? := some (.quoted "A,".toList) }]
    let texts := ["(L'X)CL(4)'A B''('".toList, "A((**4),(-Y))".toList, "DH'A,'".toList]
    let operands := [','].intercalate texts
    let fields : Fields := ⟨none, ['D', 'C'], operands, "B,'C".toList⟩
    ops ≠ [] ∧ List.Forall₂ DataOperand.Rendered ops texts ∧ Text.isBlank ' ' = true ∧
      Line.ofText (" DC ".toList ++ (operands ++ " B,'C".toList)) = .instruction fields ∧
        (read fields {}).result = .ok ⟨none, .ofText ['D', 'C'], .data false ops, {}⟩ := by
  intro ops texts operands fields
  have hwrites : Numeral.Writes 10 ['4'] 4 :=
    ⟨List.cons_ne_nil _ _, List.forall_mem_singleton.mpr (by decide), by decide⟩
  have hfour : Expr.Rendered (.number 4) ['4'] := .term (.decimal hwrites rfl)
  have hx : Expr.Rendered (.attr .length (.symbol (.ofText ['X']))) ['L', '\'', 'X'] := .term (.attr .length rfl rfl)
  have hproduct : Expr.Rendered (.binary .mul .counter (.number 4)) "(**4)".toList :=
    .operation .mul (.term .counter) hfour
  have hy : Expr.Rendered (.negate (.symbol (.ofText ['Y']))) "(-Y)".toList := .negate (.term (.symbol rfl rfl))
  have hrendered : List.Forall₂ DataOperand.Rendered ops texts := by
    refine .cons ?_ (.cons ?_ (.cons ?_ .nil))
    · refine @DataOperand.Rendered.mk _ "(L'X)".toList [] "L(4)".toList [] [] "'A B''('".toList (.given hx)
        (List.mem_singleton_self []) (.given hfour) .absent .absent (.quoted "A B'(".toList) ?_
      rintro (⟨-, hexponent, -⟩ | ⟨hcode, -⟩)
      · exact hexponent rfl
      · exact absurd hcode (by decide)
    · refine @DataOperand.Rendered.mk _ [] [] [] [] [] "((**4),(-Y))".toList .absent (List.mem_singleton_self [])
        .absent .absent .absent (.exprs (List.cons_ne_nil _ _) (.cons hproduct (.cons hy .nil))) ?_
      rintro (⟨htype, -⟩ | ⟨hcode, -⟩)
      · cases htype
      · exact absurd hcode (by decide)
    · have hextension : ['H'] ∈ (DataType.d .hex).extensions := by decide
      refine @DataOperand.Rendered.mk _ [] ['H'] [] [] [] "'A,'".toList .absent hextension .absent .absent .absent
        (.quoted "A,".toList) ?_
      rintro (⟨htype, -⟩ | ⟨-, hnil, -⟩)
      · cases htype
      · cases hnil
  exact ⟨List.cons_ne_nil _ _, hrendered, rfl, read_data false (List.cons_ne_nil _ _) hrendered rfl _ _⟩

end Statement

end Assembler
