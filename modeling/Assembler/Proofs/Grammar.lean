import Assembler.Expr.Reading
/-!
The grammar of expressions.

A sum is made of products with `+` or `-` between them, a product of signed terms with `*` or `/` between them, and a
signed term is a term with any number of signs before it. A term is a single token or a sum in parentheses. The parse
trees of this grammar have the tokens that they cover and the expression that they stand for. Reading accepts exactly
the lists of tokens that some tree covers, and gives the expression of that tree (`parse_iff_tree`); no list is
covered by two trees (`SumTree.tokens_injective`).
-/

namespace Assembler

/-- Whether an operator joins the products of a sum; the others join the terms of a product. -/
def Operator.isAdditive : Operator → Bool
  | add | sub => true
  | mul | div => false

/-- The tokens that are terms by themselves, with what they stand for. -/
inductive Token.Denotes : Token → Expr → Prop
  | number {n : Nat} (fits : n ≤ 0x7FFFFFFF) : Denotes (.number n) (.number (Int32.ofNat n))
  | symbol (n : Name) : Denotes (.symbol n) (.symbol n)
  | counter : Denotes .counter .counter
  | hex {t : Text} {v : Int32} (digits : digitsTerm? 16 8 t = some v) : Denotes (.hex t) (.number v)
  | binary {t : Text} {v : Int32} (digits : digitsTerm? 2 32 t = some v) :
    Denotes (.binary t) (.number v)
  | char {t : Text} {v : Int32} (content : charsTerm? t = some v) : Denotes (.char t) (.number v)
  | attr (k : AttributeKind) {n : Name} (named : n.letters ≠ []) :
    Denotes (.attr k false n) (.attr k (.symbol n))
  | variableAttr (k : AttributeKind) {n : Name} (named : n.letters ≠ []) :
    Denotes (.attr k true n) (.attr k (.variableSymbol n))

theorem eq_some_of_ok (e? : Option Expr) {e : Expr} {fault : ReadError}
    (h : (match e? with
      | some e => Except.ok e
      | none => .error fault) = .ok e) : e? = some e := by
  cases e? with
  | none => cases h
  | some e' => cases h; rfl

theorem Token.primary_eq_ok_iff {t : Token} {e : Expr} : t.primary = .ok e ↔ t.Denotes e := by
  constructor
  · intro h
    cases t with
    | number n =>
      have hsome := eq_some_of_ok (if n ≤ 0x7FFFFFFF then some (.number (Int32.ofNat n)) else none) h
      obtain ⟨fits, he⟩ := Option.ite_none_right_eq_some.mp hsome
      cases he
      exact .number fits
    | symbol n => cases h; exact .symbol n
    | counter => cases h; exact .counter
    | hex t =>
      obtain ⟨v, digits, rfl⟩ :=
        Option.map_eq_some_iff.mp (eq_some_of_ok ((digitsTerm? 16 8 t).map .number) h)
      exact .hex digits
    | binary t =>
      obtain ⟨v, digits, rfl⟩ :=
        Option.map_eq_some_iff.mp (eq_some_of_ok ((digitsTerm? 2 32 t).map .number) h)
      exact .binary digits
    | char t =>
      obtain ⟨v, content, rfl⟩ :=
        Option.map_eq_some_iff.mp (eq_some_of_ok ((charsTerm? t).map .number) h)
      exact .char content
    | attr k ampersand n =>
      cases ampersand with
      | false =>
        have hsome := eq_some_of_ok (if n.letters = [] then none else some (.attr k (.symbol n))) h
        obtain ⟨named, he⟩ := Option.ite_none_left_eq_some.mp hsome
        cases he
        exact .attr k named
      | true =>
        have hsome :=
          eq_some_of_ok (if n.letters = [] then none else some (.attr k (.variableSymbol n))) h
        obtain ⟨named, he⟩ := Option.ite_none_left_eq_some.mp hsome
        cases he
        exact .variableAttr k named
    | variableSymbol | op | leftParen | rightParen | comma => cases h
  · intro h
    cases h with
    | number fits => simp only [primary, if_pos fits]
    | symbol | counter => rfl
    | hex digits | binary digits => simp only [primary, digits, Option.map_some]
    | char content => simp only [primary, content, Option.map_some]
    | attr k named | variableAttr k named => simp only [primary, if_neg named]

/-- A token that is a term by itself opens no parenthesis. -/
theorem Token.Denotes.ne_leftParen {t : Token} {e : Expr} (h : t.Denotes e) : t ≠ .leftParen := by
  rintro rfl
  cases h

/-! ## 1. Parse trees -/

namespace Grammar

mutual

/-- A product with further ones added to it or subtracted from it. -/
inductive SumTree
  | mk (first : ProductTree) (more : SumTail)

/-- What follows the first product of a sum. -/
inductive SumTail
  | done
  | more (op : Operator) (additive : op.isAdditive = true) (next : ProductTree) (rest : SumTail)

/-- A signed term with further ones that it is multiplied with or divided by. -/
inductive ProductTree
  | mk (first : SignedTree) (more : ProductTail)

/-- What follows the first signed term of a product. -/
inductive ProductTail
  | done
  | more (op : Operator) (multiplicative : op.isAdditive = false) (next : SignedTree)
    (rest : ProductTail)

/-- A term with signs before it. -/
inductive SignedTree
  | minus (operand : SignedTree)
  | plus (operand : SignedTree)
  | unsigned (term : TermTree)

inductive TermTree
  | single (t : Token) (e : Expr) (denotes : t.Denotes e)
  | parens (sum : SumTree)

end

mutual

/-- The tokens that a tree covers. -/
def SumTree.tokens : SumTree → List Token
  | .mk first more => first.tokens ++ more.tokens

def SumTail.tokens : SumTail → List Token
  | .done => []
  | .more op _ next rest => .op op :: (next.tokens ++ rest.tokens)

def ProductTree.tokens : ProductTree → List Token
  | .mk first more => first.tokens ++ more.tokens

def ProductTail.tokens : ProductTail → List Token
  | .done => []
  | .more op _ next rest => .op op :: (next.tokens ++ rest.tokens)

def SignedTree.tokens : SignedTree → List Token
  | .minus operand => .op .sub :: operand.tokens
  | .plus operand => .op .add :: operand.tokens
  | .unsigned term => term.tokens

def TermTree.tokens : TermTree → List Token
  | .single t _ _ => [t]
  | .parens sum => .leftParen :: (sum.tokens ++ [.rightParen])

end

mutual

/-- The expression that a tree stands for. Operators group to the left, a minus sign negates, and a plus sign leaves
no trace. -/
def SumTree.expr : SumTree → Expr
  | .mk first more => more.expr first.expr

/-- The expression of a sum that starts with `left`. -/
def SumTail.expr : SumTail → Expr → Expr
  | .done, left => left
  | .more op _ next rest, left => rest.expr (.binary op left next.expr)

def ProductTree.expr : ProductTree → Expr
  | .mk first more => more.expr first.expr

/-- The expression of a product that starts with `left`. -/
def ProductTail.expr : ProductTail → Expr → Expr
  | .done, left => left
  | .more op _ next rest, left => rest.expr (.binary op left next.expr)

def SignedTree.expr : SignedTree → Expr
  | .minus operand => .negate operand.expr
  | .plus operand => operand.expr
  | .unsigned term => term.expr

def TermTree.expr : TermTree → Expr
  | .single _ e _ => e
  | .parens sum => sum.expr

end

/-! ## 2. Where trees end -/

/-- Whether a product ends before these tokens. -/
def EndsProduct (ts : List Token) : Prop :=
  ∀ op rest, ts = .op op :: rest → op.isAdditive = true

/-- Whether a sum ends before these tokens. -/
def EndsSum (ts : List Token) : Prop := ∀ op rest, ts ≠ .op op :: rest

theorem endsSum_nil : EndsSum [] := fun _ _ h => nomatch h

theorem endsSum_rightParen (ts : List Token) : EndsSum (.rightParen :: ts) := fun _ _ h => nomatch h

theorem EndsSum.endsProduct {ts : List Token} (h : EndsSum ts) : EndsProduct ts :=
  fun op rest hts => absurd hts (h op rest)

/-- A product ends before what follows it in a sum. -/
theorem SumTail.endsProduct (d : SumTail) {ts : List Token} (h : EndsSum ts) :
    EndsProduct (d.tokens ++ ts) := by
  cases d with
  | done => exact h.endsProduct
  | more op additive next rest =>
    intro op' rest' hts
    simp only [tokens, List.cons_append, List.cons.injEq, Token.op.injEq] at hts
    rw [← hts.1]
    exact additive

/-- A term does not start with a sign. -/
theorem TermTree.not_sign (d : TermTree) (rest : List Token) (op : Operator) (more : List Token) :
    d.tokens ++ rest ≠ .op op :: more := by
  cases d with
  | single t e denotes =>
    intro h
    simp only [tokens, List.singleton_append, List.cons.injEq] at h
    rw [h.1] at denotes
    cases denotes
  | parens sum =>
    intro h
    cases (List.cons.inj h).1

end Grammar

/-! ## 3. What reading takes -/

namespace Parsed

/-- The expression read and the tokens left, if reading succeeds. -/
def result? {n : Nat} : Parsed n → Option (Expr × List Token)
  | ok e rest _ => some (e, rest)
  | error _ _ => none

@[simp] theorem result?_widen {m n : Nat} (h : m ≤ n) (p : Parsed m) :
    (p.widen h).result? = p.result? := by
  cases p <;> rfl

theorem result?_map {n : Nat} (f : Expr → Expr) (p : Parsed n) :
    (p.map f).result? = p.result?.map fun (e, rest) => (f e, rest) := by
  cases p <;> rfl

theorem length_lt_of_result? {n : Nat} {p : Parsed n} {e : Expr} {rest : List Token}
    (h : p.result? = some (e, rest)) : rest.length < n := by
  cases p with
  | ok e rest shorter => cases h; exact shorter
  | error e rest => cases h

/-- The outcome of reading a term in parentheses, from that of the sum inside them. -/
def closed? : Expr × List Token → Option (Expr × List Token)
  | (e, .rightParen :: rest) => some (e, rest)
  | _ => none

theorem closed?_eq_some {e e' : Expr} {middle rest : List Token}
    (h : closed? (e, middle) = some (e', rest)) : e = e' ∧ middle = .rightParen :: rest := by
  unfold closed? at h
  split at h
  · rename_i he
    cases he
    cases h
    exact ⟨rfl, rfl⟩
  · cases h

end Parsed

namespace Expr

open Grammar

variable {left e : Expr} {ts rest : List Token} {op : Operator}

theorem parseSumTail_op (left : Expr) (ts : List Token) (h : op.isAdditive = true) :
    parseSumTail left (.op op :: ts) =
      match parseProduct ts with
      | .ok e rest h => (parseSumTail (.binary op left e) rest).widen
          (Nat.succ_le_succ (Nat.le_succ_of_le (Nat.le_of_lt h)))
      | .error e rest => .error e rest := by
  cases op with
  | add | sub =>
    cases hp : parseProduct ts <;> simp only [parseSumTail, hp]
  | mul | div => cases h

theorem parseSumTail_of_ends (left : Expr)
    (h : ∀ op rest, ts = .op op :: rest → op.isAdditive = false) :
    parseSumTail left ts = .ok left ts (Nat.lt_succ_self _) := by
  rw [parseSumTail]
  · rintro more rfl
    cases h .add more rfl
  · rintro more rfl
    cases h .sub more rfl

theorem parseProductTail_op (left : Expr) (ts : List Token) (h : op.isAdditive = false) :
    parseProductTail left (.op op :: ts) =
      match parseSigned ts with
      | .ok e rest h => (parseProductTail (.binary op left e) rest).widen
          (Nat.succ_le_succ (Nat.le_succ_of_le (Nat.le_of_lt h)))
      | .error e rest => .error e rest := by
  cases op with
  | add | sub => cases h
  | mul | div =>
    cases hp : parseSigned ts <;> simp only [parseProductTail, hp]

theorem parseProductTail_of_ends (left : Expr) (h : EndsProduct ts) :
    parseProductTail left ts = .ok left ts (Nat.lt_succ_self _) := by
  rw [parseProductTail]
  · rintro more rfl
    cases h .mul more rfl
  · rintro more rfl
    cases h .div more rfl

theorem parseSigned_of_not_sign (hsub : ∀ more, ts ≠ .op .sub :: more)
    (hadd : ∀ more, ts ≠ .op .add :: more) : parseSigned ts = parseTerm ts := by
  rw [parseSigned]
  · exact fun more h => hsub more h
  · exact fun more h => hadd more h

theorem result?_parseSum (ts : List Token) :
    (parseSum ts).result? =
      (parseProduct ts).result?.bind fun (e, rest) => (parseSumTail e rest).result? := by
  rw [parseSum]
  cases parseProduct ts with
  | ok e rest h => exact Parsed.result?_widen _ _
  | error e rest => rfl

theorem result?_parseSumTail_op (left : Expr) (ts : List Token) (h : op.isAdditive = true) :
    (parseSumTail left (.op op :: ts)).result? =
      (parseProduct ts).result?.bind fun (e, rest) =>
        (parseSumTail (.binary op left e) rest).result? := by
  rw [parseSumTail_op left ts h]
  cases parseProduct ts with
  | ok e rest h => exact Parsed.result?_widen _ _
  | error e rest => rfl

theorem result?_parseProduct (ts : List Token) :
    (parseProduct ts).result? =
      (parseSigned ts).result?.bind fun (e, rest) => (parseProductTail e rest).result? := by
  rw [parseProduct]
  cases parseSigned ts with
  | ok e rest h => exact Parsed.result?_widen _ _
  | error e rest => rfl

theorem result?_parseProductTail_op (left : Expr) (ts : List Token) (h : op.isAdditive = false) :
    (parseProductTail left (.op op :: ts)).result? =
      (parseSigned ts).result?.bind fun (e, rest) =>
        (parseProductTail (.binary op left e) rest).result? := by
  rw [parseProductTail_op left ts h]
  cases parseSigned ts with
  | ok e rest h => exact Parsed.result?_widen _ _
  | error e rest => rfl

theorem result?_parseSigned_sub (ts : List Token) :
    (parseSigned (.op .sub :: ts)).result? =
      (parseSigned ts).result?.map fun (e, rest) => (.negate e, rest) := by
  rw [parseSigned, Parsed.result?_widen, Parsed.result?_map]

theorem result?_parseSigned_add (ts : List Token) :
    (parseSigned (.op .add :: ts)).result? = (parseSigned ts).result? := by
  rw [parseSigned, Parsed.result?_widen]

theorem result?_parseTerm_leftParen (ts : List Token) :
    (parseTerm (.leftParen :: ts)).result? = (parseSum ts).result?.bind Parsed.closed? := by
  rw [parseTerm]
  rcases parseSum ts with ⟨e, rest, h⟩ | ⟨e, rest⟩
  · rcases rest with _ | ⟨t, rest⟩
    · rfl
    · cases t <;> rfl
  · rfl

theorem result?_parseTerm_single {t : Token} (ts : List Token) (h : t ≠ .leftParen) :
    (parseTerm (t :: ts)).result? =
      match t.primary with
      | .ok e => some (e, ts)
      | .error _ => none := by
  rw [parseTerm]
  · cases t.primary <;> rfl
  · exact h

end Expr

/-! ## 4. Reading covers trees -/

namespace Expr

open Grammar

mutual

theorem exists_sumTree {ts rest : List Token} {e : Expr}
    (h : (parseSum ts).result? = some (e, rest)) :
    ∃ d : SumTree, d.tokens ++ rest = ts ∧ d.expr = e := by
  -- The recursion is that of reading: fewer tokens are left, or it is further down in the grammar.
  rw [result?_parseSum] at h
  obtain ⟨⟨left, middle⟩, hfirst, hmore⟩ := Option.bind_eq_some_iff.mp h
  have hlength := Parsed.length_lt_of_result? hfirst
  obtain ⟨first, rfl, rfl⟩ := exists_productTree hfirst
  obtain ⟨more, rfl, rfl⟩ := exists_sumTail hmore
  exact ⟨.mk first more, List.append_assoc _ _ _, rfl⟩
termination_by (ts.length, 3)

theorem exists_sumTail {ts rest : List Token} {left e : Expr}
    (h : (parseSumTail left ts).result? = some (e, rest)) :
    ∃ d : SumTail, d.tokens ++ rest = ts ∧ d.expr left = e := by
  by_cases hop : ∃ op more, ts = .op op :: more ∧ op.isAdditive = true
  · obtain ⟨op, more, rfl, additive⟩ := hop
    rw [result?_parseSumTail_op left more additive] at h
    obtain ⟨⟨right, middle⟩, hnext, hrest⟩ := Option.bind_eq_some_iff.mp h
    have hlength := Parsed.length_lt_of_result? hnext
    obtain ⟨next, rfl, rfl⟩ := exists_productTree hnext
    obtain ⟨tail, rfl, rfl⟩ := exists_sumTail hrest
    exact ⟨.more op additive next tail, by simp only [SumTail.tokens, List.cons_append, List.append_assoc], rfl⟩
  · have hends : ∀ op more, ts = .op op :: more → op.isAdditive = false := by
      intro op more hts
      exact Bool.eq_false_iff.mpr fun additive => hop ⟨op, more, hts, additive⟩
    rw [parseSumTail_of_ends left hends] at h
    cases h
    exact ⟨.done, rfl, rfl⟩
termination_by (ts.length, 0)

theorem exists_productTree {ts rest : List Token} {e : Expr}
    (h : (parseProduct ts).result? = some (e, rest)) :
    ∃ d : ProductTree, d.tokens ++ rest = ts ∧ d.expr = e := by
  rw [result?_parseProduct] at h
  obtain ⟨⟨left, middle⟩, hfirst, hmore⟩ := Option.bind_eq_some_iff.mp h
  have hlength := Parsed.length_lt_of_result? hfirst
  obtain ⟨first, rfl, rfl⟩ := exists_signedTree hfirst
  obtain ⟨more, rfl, rfl⟩ := exists_productTail hmore
  exact ⟨.mk first more, List.append_assoc _ _ _, rfl⟩
termination_by (ts.length, 2)

theorem exists_productTail {ts rest : List Token} {left e : Expr}
    (h : (parseProductTail left ts).result? = some (e, rest)) :
    ∃ d : ProductTail, d.tokens ++ rest = ts ∧ d.expr left = e := by
  by_cases hop : ∃ op more, ts = .op op :: more ∧ op.isAdditive = false
  · obtain ⟨op, more, rfl, multiplicative⟩ := hop
    rw [result?_parseProductTail_op left more multiplicative] at h
    obtain ⟨⟨right, middle⟩, hnext, hrest⟩ := Option.bind_eq_some_iff.mp h
    have hlength := Parsed.length_lt_of_result? hnext
    obtain ⟨next, rfl, rfl⟩ := exists_signedTree hnext
    obtain ⟨tail, rfl, rfl⟩ := exists_productTail hrest
    exact ⟨.more op multiplicative next tail,
      by simp only [ProductTail.tokens, List.cons_append, List.append_assoc], rfl⟩
  · have hends : EndsProduct ts := by
      intro op more hts
      exact (Bool.not_eq_false _).mp fun multiplicative => hop ⟨op, more, hts, multiplicative⟩
    rw [parseProductTail_of_ends left hends] at h
    cases h
    exact ⟨.done, rfl, rfl⟩
termination_by (ts.length, 0)

theorem exists_signedTree {ts rest : List Token} {e : Expr}
    (h : (parseSigned ts).result? = some (e, rest)) :
    ∃ d : SignedTree, d.tokens ++ rest = ts ∧ d.expr = e := by
  by_cases hsub : ∃ more, ts = .op .sub :: more
  · obtain ⟨more, rfl⟩ := hsub
    rw [result?_parseSigned_sub] at h
    obtain ⟨⟨e', rest'⟩, hoperand, he⟩ := Option.map_eq_some_iff.mp h
    cases he
    obtain ⟨operand, rfl, rfl⟩ := exists_signedTree hoperand
    exact ⟨.minus operand, rfl, rfl⟩
  by_cases hadd : ∃ more, ts = .op .add :: more
  · obtain ⟨more, rfl⟩ := hadd
    rw [result?_parseSigned_add] at h
    obtain ⟨operand, rfl, rfl⟩ := exists_signedTree h
    exact ⟨.plus operand, rfl, rfl⟩
  rw [parseSigned_of_not_sign (fun more hts => hsub ⟨more, hts⟩) fun more hts => hadd ⟨more, hts⟩] at h
  obtain ⟨term, htokens, hexpr⟩ := exists_termTree h
  exact ⟨.unsigned term, htokens, hexpr⟩
termination_by (ts.length, 1)

theorem exists_termTree {ts rest : List Token} {e : Expr}
    (h : (parseTerm ts).result? = some (e, rest)) :
    ∃ d : TermTree, d.tokens ++ rest = ts ∧ d.expr = e := by
  cases ts with
  | nil => rw [parseTerm] at h; cases h
  | cons t more =>
    by_cases ht : t = .leftParen
    · subst ht
      rw [result?_parseTerm_leftParen] at h
      obtain ⟨⟨e', middle⟩, hsum, hclose⟩ := Option.bind_eq_some_iff.mp h
      obtain ⟨sum, rfl, rfl⟩ := exists_sumTree hsum
      obtain ⟨he, hmiddle⟩ := Parsed.closed?_eq_some hclose
      refine ⟨.parens sum, ?_, he⟩
      rw [hmiddle, TermTree.tokens, List.cons_append, List.append_assoc, List.singleton_append]
    · rw [result?_parseTerm_single more ht] at h
      cases hprimary : t.primary with
      | ok e' =>
        rw [hprimary] at h
        cases h
        exact ⟨.single t e (Token.primary_eq_ok_iff.mp hprimary), rfl, rfl⟩
      | error fault =>
        rw [hprimary] at h
        cases h
termination_by (ts.length, 0)

end

/-! ## 5. Trees are read -/

mutual

theorem parseSum_tokens (d : SumTree) {rest : List Token} (h : EndsSum rest) :
    (parseSum (d.tokens ++ rest)).result? = some (d.expr, rest) := by
  -- The recursion is on the tree. The first product ends where the tail of the sum begins.
  cases d with
  | mk first more =>
    rw [SumTree.tokens, List.append_assoc, result?_parseSum,
      parseProduct_tokens first (more.endsProduct h)]
    exact parseSumTail_tokens more first.expr h

theorem parseSumTail_tokens (d : SumTail) (left : Expr) {rest : List Token} (h : EndsSum rest) :
    (parseSumTail left (d.tokens ++ rest)).result? = some (d.expr left, rest) := by
  cases d with
  | done =>
    rw [SumTail.tokens, List.nil_append,
      parseSumTail_of_ends left fun op more hrest => absurd hrest (h op more)]
    rfl
  | more op additive next tail =>
    rw [SumTail.tokens, List.cons_append, List.append_assoc,
      result?_parseSumTail_op left _ additive, parseProduct_tokens next (tail.endsProduct h)]
    exact parseSumTail_tokens tail _ h

theorem parseProduct_tokens (d : ProductTree) {rest : List Token} (h : EndsProduct rest) :
    (parseProduct (d.tokens ++ rest)).result? = some (d.expr, rest) := by
  cases d with
  | mk first more =>
    rw [ProductTree.tokens, List.append_assoc, result?_parseProduct, parseSigned_tokens first]
    exact parseProductTail_tokens more first.expr h

theorem parseProductTail_tokens (d : ProductTail) (left : Expr) {rest : List Token}
    (h : EndsProduct rest) :
    (parseProductTail left (d.tokens ++ rest)).result? = some (d.expr left, rest) := by
  cases d with
  | done =>
    rw [ProductTail.tokens, List.nil_append, parseProductTail_of_ends left h]
    rfl
  | more op multiplicative next tail =>
    rw [ProductTail.tokens, List.cons_append, List.append_assoc,
      result?_parseProductTail_op left _ multiplicative, parseSigned_tokens next]
    exact parseProductTail_tokens tail _ h

theorem parseSigned_tokens (d : SignedTree) (rest : List Token) :
    (parseSigned (d.tokens ++ rest)).result? = some (d.expr, rest) := by
  cases d with
  | minus operand =>
    rw [SignedTree.tokens, List.cons_append, result?_parseSigned_sub, parseSigned_tokens operand]
    rfl
  | plus operand =>
    rw [SignedTree.tokens, List.cons_append, result?_parseSigned_add, parseSigned_tokens operand]
    rfl
  | unsigned term =>
    rw [SignedTree.tokens, parseSigned_of_not_sign, parseTerm_tokens term]
    · rfl
    · exact term.not_sign rest .sub
    · exact term.not_sign rest .add

theorem parseTerm_tokens (d : TermTree) (rest : List Token) :
    (parseTerm (d.tokens ++ rest)).result? = some (d.expr, rest) := by
  cases d with
  | single t e denotes =>
    rw [TermTree.tokens, List.singleton_append, result?_parseTerm_single rest denotes.ne_leftParen,
      Token.primary_eq_ok_iff.mpr denotes]
    rfl
  | parens sum =>
    rw [TermTree.tokens, List.cons_append, List.append_assoc, List.singleton_append,
      result?_parseTerm_leftParen, parseSum_tokens sum (endsSum_rightParen _)]
    rfl

end

end Expr

/-! ## 6. One tree for a list -/

theorem Token.Denotes.unique {t : Token} {e e' : Expr} (h : t.Denotes e) (h' : t.Denotes e') : e = e' :=
  Except.ok.inj ((primary_eq_ok_iff.mpr h).symm.trans (primary_eq_ok_iff.mpr h'))

namespace Grammar

mutual

/-- Where a sum ends is determined, and so is its tree. -/
theorem SumTree.unique (d d' : SumTree) {rest rest' : List Token} (h : EndsSum rest)
    (h' : EndsSum rest') (heq : d.tokens ++ rest = d'.tokens ++ rest') : d = d' ∧ rest = rest' := by
  cases d with
  | mk first more =>
    cases d' with
    | mk first' more' =>
      rw [SumTree.tokens, SumTree.tokens, List.append_assoc, List.append_assoc] at heq
      obtain ⟨rfl, hmore⟩ :=
        first.unique first' (more.endsProduct h) (more'.endsProduct h') heq
      obtain ⟨rfl, hrest⟩ := more.unique more' h h' hmore
      exact ⟨rfl, hrest⟩
termination_by structural d

theorem SumTail.unique (d d' : SumTail) {rest rest' : List Token} (h : EndsSum rest)
    (h' : EndsSum rest') (heq : d.tokens ++ rest = d'.tokens ++ rest') : d = d' ∧ rest = rest' := by
  cases d with
  | done =>
    cases d' with
    | done => exact ⟨rfl, heq⟩
    | more op' additive' next' tail' => exact absurd heq (h op' _)
  | more op additive next tail =>
    cases d' with
    | done => exact absurd heq.symm (h' op _)
    | more op' additive' next' tail' =>
      simp only [SumTail.tokens, List.cons_append, List.append_assoc, List.cons.injEq, Token.op.injEq] at heq
      obtain ⟨rfl, hnext⟩ := heq
      obtain ⟨rfl, htail⟩ :=
        next.unique next' (tail.endsProduct h) (tail'.endsProduct h') hnext
      obtain ⟨rfl, hrest⟩ := tail.unique tail' h h' htail
      exact ⟨rfl, hrest⟩
termination_by structural d

theorem ProductTree.unique (d d' : ProductTree) {rest rest' : List Token} (h : EndsProduct rest)
    (h' : EndsProduct rest') (heq : d.tokens ++ rest = d'.tokens ++ rest') :
    d = d' ∧ rest = rest' := by
  cases d with
  | mk first more =>
    cases d' with
    | mk first' more' =>
      rw [ProductTree.tokens, ProductTree.tokens, List.append_assoc, List.append_assoc] at heq
      obtain ⟨rfl, hmore⟩ := first.unique first' heq
      obtain ⟨rfl, hrest⟩ := more.unique more' h h' hmore
      exact ⟨rfl, hrest⟩
termination_by structural d

theorem ProductTail.unique (d d' : ProductTail) {rest rest' : List Token} (h : EndsProduct rest)
    (h' : EndsProduct rest') (heq : d.tokens ++ rest = d'.tokens ++ rest') :
    d = d' ∧ rest = rest' := by
  cases d with
  | done =>
    cases d' with
    | done => exact ⟨rfl, heq⟩
    | more op' multiplicative' next' tail' =>
      have hadditive := h op' _ heq
      rw [multiplicative'] at hadditive
      cases hadditive
  | more op multiplicative next tail =>
    cases d' with
    | done =>
      have hadditive := h' op _ heq.symm
      rw [multiplicative] at hadditive
      cases hadditive
    | more op' multiplicative' next' tail' =>
      simp only [ProductTail.tokens, List.cons_append, List.append_assoc, List.cons.injEq, Token.op.injEq] at heq
      obtain ⟨rfl, hnext⟩ := heq
      obtain ⟨rfl, htail⟩ := next.unique next' hnext
      obtain ⟨rfl, hrest⟩ := tail.unique tail' h h' htail
      exact ⟨rfl, hrest⟩
termination_by structural d

theorem SignedTree.unique (d d' : SignedTree) {rest rest' : List Token}
    (heq : d.tokens ++ rest = d'.tokens ++ rest') : d = d' ∧ rest = rest' := by
  cases d with
  | minus operand =>
    cases d' with
    | minus operand' =>
      obtain ⟨rfl, hrest⟩ := operand.unique operand' (List.cons.inj heq).2
      exact ⟨rfl, hrest⟩
    | plus operand' => cases (List.cons.inj heq).1
    | unsigned term' => exact absurd heq.symm (term'.not_sign _ _ _)
  | plus operand =>
    cases d' with
    | minus operand' => cases (List.cons.inj heq).1
    | plus operand' =>
      obtain ⟨rfl, hrest⟩ := operand.unique operand' (List.cons.inj heq).2
      exact ⟨rfl, hrest⟩
    | unsigned term' => exact absurd heq.symm (term'.not_sign _ _ _)
  | unsigned term =>
    cases d' with
    | minus operand' => exact absurd heq (term.not_sign _ _ _)
    | plus operand' => exact absurd heq (term.not_sign _ _ _)
    | unsigned term' =>
      obtain ⟨rfl, hrest⟩ := term.unique term' heq
      exact ⟨rfl, hrest⟩
termination_by structural d

theorem TermTree.unique (d d' : TermTree) {rest rest' : List Token}
    (heq : d.tokens ++ rest = d'.tokens ++ rest') : d = d' ∧ rest = rest' := by
  cases d with
  | single t e denotes =>
    cases d' with
    | single t' e' denotes' =>
      obtain ⟨rfl, hrest⟩ := List.cons.inj heq
      obtain rfl := denotes.unique denotes'
      exact ⟨rfl, hrest⟩
    | parens sum' => exact absurd (List.cons.inj heq).1 denotes.ne_leftParen
  | parens sum =>
    cases d' with
    | single t' e' denotes' => exact absurd (List.cons.inj heq).1.symm denotes'.ne_leftParen
    | parens sum' =>
      simp only [TermTree.tokens, List.cons_append, List.append_assoc, List.cons.injEq, true_and] at heq
      obtain ⟨rfl, hclose⟩ :=
        sum.unique sum' (endsSum_rightParen _) (endsSum_rightParen _) heq
      exact ⟨rfl, (List.cons.inj hclose).2⟩
termination_by structural d

end

theorem SumTree.tokens_injective : Function.Injective SumTree.tokens := by
  intro d d' heq
  apply And.left
  apply d.unique d' endsSum_nil endsSum_nil
  rw [List.append_nil, List.append_nil]
  exact heq

end Grammar

/-! ## 7. Where reading stops -/

@[simp] theorem Parsed.rest_widen {m n : Nat} (h : m ≤ n) (p : Parsed m) : (p.widen h).rest = p.rest := by
  cases p <;> rfl

@[simp] theorem Parsed.rest_map {n : Nat} (f : Expr → Expr) (p : Parsed n) : (p.map f).rest = p.rest := by
  cases p <;> rfl

namespace Expr

open Grammar

mutual

/-- Reading passes over a list from its start, also when it fails. -/
theorem rest_parseSum (ts : List Token) : (parseSum ts).rest <:+ ts := by
  have hfirst := rest_parseProduct ts
  rw [parseSum]
  cases hp : parseProduct ts with
  | error e rest =>
    rw [hp] at hfirst
    exact hfirst
  | ok e rest h =>
    rw [hp] at hfirst
    simp only [Parsed.rest_widen]
    exact (rest_parseSumTail e rest).trans hfirst
termination_by (ts.length, 3)

theorem rest_parseSumTail (left : Expr) (ts : List Token) : (parseSumTail left ts).rest <:+ ts := by
  by_cases hop : ∃ op more, ts = .op op :: more ∧ op.isAdditive = true
  · obtain ⟨op, more, hts, additive⟩ := hop
    have hlength : more.length < ts.length := by rw [hts]; exact Nat.lt_succ_self _
    have hnext := (rest_parseProduct more).trans (List.suffix_cons (.op op) more)
    rw [hts, parseSumTail_op left more additive]
    cases hp : parseProduct more with
    | error e rest =>
      rw [hp] at hnext
      exact hnext
    | ok e rest h =>
      rw [hp] at hnext
      simp only [Parsed.rest_widen]
      exact (rest_parseSumTail _ rest).trans hnext
  · rw [parseSumTail_of_ends left fun op more hts =>
      Bool.eq_false_iff.mpr fun additive => hop ⟨op, more, hts, additive⟩]
    exact List.suffix_rfl
termination_by (ts.length, 0)
decreasing_by all_goals omega

theorem rest_parseProduct (ts : List Token) : (parseProduct ts).rest <:+ ts := by
  have hfirst := rest_parseSigned ts
  rw [parseProduct]
  cases hp : parseSigned ts with
  | error e rest =>
    rw [hp] at hfirst
    exact hfirst
  | ok e rest h =>
    rw [hp] at hfirst
    simp only [Parsed.rest_widen]
    exact (rest_parseProductTail e rest).trans hfirst
termination_by (ts.length, 2)

theorem rest_parseProductTail (left : Expr) (ts : List Token) :
    (parseProductTail left ts).rest <:+ ts := by
  by_cases hop : ∃ op more, ts = .op op :: more ∧ op.isAdditive = false
  · obtain ⟨op, more, hts, multiplicative⟩ := hop
    have hlength : more.length < ts.length := by rw [hts]; exact Nat.lt_succ_self _
    have hnext := (rest_parseSigned more).trans (List.suffix_cons (.op op) more)
    rw [hts, parseProductTail_op left more multiplicative]
    cases hp : parseSigned more with
    | error e rest =>
      rw [hp] at hnext
      exact hnext
    | ok e rest h =>
      rw [hp] at hnext
      simp only [Parsed.rest_widen]
      exact (rest_parseProductTail _ rest).trans hnext
  · rw [parseProductTail_of_ends left fun op more hts =>
      (Bool.not_eq_false _).mp fun multiplicative => hop ⟨op, more, hts, multiplicative⟩]
    exact List.suffix_rfl
termination_by (ts.length, 0)
decreasing_by all_goals omega

theorem rest_parseSigned (ts : List Token) : (parseSigned ts).rest <:+ ts := by
  by_cases hsub : ∃ more, ts = .op .sub :: more
  · obtain ⟨more, rfl⟩ := hsub
    rw [parseSigned, Parsed.rest_widen, Parsed.rest_map]
    exact (rest_parseSigned more).trans (List.suffix_cons _ _)
  by_cases hadd : ∃ more, ts = .op .add :: more
  · obtain ⟨more, rfl⟩ := hadd
    rw [parseSigned, Parsed.rest_widen]
    exact (rest_parseSigned more).trans (List.suffix_cons _ _)
  rw [parseSigned_of_not_sign (fun more hts => hsub ⟨more, hts⟩) fun more hts => hadd ⟨more, hts⟩]
  exact rest_parseTerm ts
termination_by (ts.length, 1)

theorem rest_parseTerm (ts : List Token) : (parseTerm ts).rest <:+ ts := by
  cases ts with
  | nil =>
    rw [parseTerm]
    exact List.suffix_rfl
  | cons t more =>
    by_cases ht : t = .leftParen
    · subst ht
      have hsum := (rest_parseSum more).trans (List.suffix_cons .leftParen more)
      rw [parseTerm]
      rcases hp : parseSum more with ⟨e, rest, h⟩ | ⟨e, rest⟩
      · rw [hp] at hsum
        -- The token after the sum is left unless it closes the parenthesis.
        rcases rest with _ | ⟨t, rest⟩
        · exact hsum
        · cases t with
          | rightParen => exact (List.suffix_cons _ _).trans hsum
          | _ => exact hsum
      · rw [hp] at hsum
        exact hsum
    · rw [parseTerm]
      · cases t.primary <;> exact List.suffix_cons t more
      · exact ht
termination_by (ts.length, 0)

end

/-! ## 8. Reading a whole list -/

theorem parse_eq_ok {ts : List Token} {e : Expr} :
    parse ts = .ok e ↔ (parseSum ts).result? = some (e, []) := by
  unfold parse
  rcases parseSum ts with ⟨e', rest, h⟩ | ⟨e', rest⟩
  · rcases rest with _ | ⟨t, rest⟩
    · simp [Parsed.result?]
    · simp [Parsed.result?]
  · simp [Parsed.result?]

/-- Reading accepts exactly the lists that a parse tree covers, with the expression of the tree, and no list is covered
by two trees. It passes over a list from the start and ends with an expression or a fault. -/
theorem parse_iff_tree :
    (∀ ts e, parse ts = .ok e ↔ ∃ d : SumTree, d.tokens = ts ∧ d.expr = e) ∧
      Function.Injective SumTree.tokens ∧
      ∀ ts, (parseSum ts).rest <:+ ts ∧
        ((∃ d : SumTree, d.tokens = ts ∧ parse ts = .ok d.expr) ∨
          (∀ d : SumTree, d.tokens ≠ ts) ∧ ∃ fault, parse ts = .error fault) := by
  have hiff : ∀ ts e, parse ts = .ok e ↔ ∃ d : SumTree, d.tokens = ts ∧ d.expr = e := by
    intro ts e
    rw [parse_eq_ok]
    constructor
    · intro h
      obtain ⟨d, htokens, hexpr⟩ := exists_sumTree h
      exact ⟨d, by rw [← htokens, List.append_nil], hexpr⟩
    · rintro ⟨d, rfl, rfl⟩
      have hread := parseSum_tokens d endsSum_nil
      rwa [List.append_nil] at hread
  refine ⟨hiff, SumTree.tokens_injective, fun ts => ⟨rest_parseSum ts, ?_⟩⟩
  cases hparse : parse ts with
  | ok e =>
    obtain ⟨d, htokens, rfl⟩ := (hiff ts e).mp hparse
    exact .inl ⟨d, htokens, rfl⟩
  | error fault =>
    refine .inr ⟨fun d htokens => ?_, fault, rfl⟩
    have hok := (hiff ts d.expr).mpr ⟨d, htokens, rfl⟩
    rw [hparse] at hok
    cases hok

end Expr

end Assembler
