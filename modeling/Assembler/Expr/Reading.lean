import Assembler.Ebcdic
import Assembler.Reading
/-!
Reading of expressions.

A sum is a chain of products, a product a chain of signed terms; both group to the left. A term is
primary or a sum in parentheses. Every step leaves fewer tokens than it was given, so reading ends on
every list of tokens.
-/

namespace Assembler

/-- The outcome of reading an expression from a list of fewer than `n` tokens more than are left. -/
inductive Parsed (n : Nat)
  | ok (e : Expr) (rest : List Token) (shorter : rest.length < n)
  /-- The tokens that follow the one at fault. -/
  | error (e : ReadError) (rest : List Token)

namespace Parsed

/-- The same outcome for a longer list. -/
def widen {m n : Nat} (h : m ≤ n) : Parsed m → Parsed n
  | ok e rest shorter => ok e rest (Nat.lt_of_lt_of_le shorter h)
  | error e rest => error e rest

def map {n : Nat} (f : Expr → Expr) : Parsed n → Parsed n
  | ok e rest shorter => ok (f e) rest shorter
  | error e rest => error e rest

/-- The tokens not read. -/
def rest {n : Nat} : Parsed n → List Token
  | ok _ rest _ => rest
  | error _ rest => rest

end Parsed

namespace Token

/-- The number of a self-defining term: a numeral of at most `most` digits, perhaps after a plus
sign. -/
def digitsTerm? (base most : Nat) (t : Text) : Option Int32 :=
  if t.length ≤ most then
    (Numeral.read? base (if t.head? = some '+' then t.tail else t)).map Int32.ofNat
  else none

/-- The number of a self-defining term of one to four characters: their codes, one after another. -/
def charsTerm? (t : Text) : Option Int32 :=
  if 1 ≤ t.length ∧ t.length ≤ 4 then
    some (Int32.ofNat (t.foldl (fun n c => n * 256 + (Ebcdic.encode c).toNat) 0))
  else none

/-- The expression that a single token is. -/
def primary (t : Token) : Except ReadError Expr :=
  let term (e? : Option Expr) : Except ReadError Expr :=
    match e? with
    | some e => .ok e
    | none => .error (.invalidTerm t.text)
  match t with
  | number n => term (if n ≤ 0x7FFFFFFF then some (.number (Int32.ofNat n)) else none)
  | symbol n => .ok (.symbol n)
  | counter => .ok .counter
  | hex digits => term ((digitsTerm? 16 8 digits).map .number)
  | binary digits => term ((digitsTerm? 2 32 digits).map .number)
  | char content => term ((charsTerm? content).map .number)
  | attr kind false n => term (if n.letters = [] then none else some (.attr kind (.symbol n)))
  | attr kind true n =>
    term (if n.letters = [] then none else some (.attr kind (.variableSymbol n)))
  | variableSymbol _ => term none
  | op _ => .error (.unexpectedToken t)
  | leftParen => .error (.unexpectedToken t)
  | rightParen => .error (.unexpectedToken t)
  | comma => .error (.unexpectedToken t)

/-- The name that reading a token mentions. -/
def mentioned? : Token → Option Name
  | symbol n => some n
  | attr _ _ n => if n.letters = [] then none else some n
  | _ => none

end Token

namespace Expr

mutual

/-- Reads a sum from the start of a list of tokens. -/
def parseSum (ts : List Token) : Parsed ts.length :=
  match parseProduct ts with
  | .ok e rest h => (parseSumTail e rest).widen h
  | .error e rest => .error e rest
termination_by (ts.length, 3)

/-- Goes on with the sum that starts with `left`. -/
def parseSumTail (left : Expr) (ts : List Token) : Parsed (ts.length + 1) :=
  match ts with
  | .op .add :: more =>
    match parseProduct more with
    | .ok e rest h => (parseSumTail (.binary .add left e) rest).widen (by simp; omega)
    | .error e rest => .error e rest
  | .op .sub :: more =>
    match parseProduct more with
    | .ok e rest h => (parseSumTail (.binary .sub left e) rest).widen (by simp; omega)
    | .error e rest => .error e rest
  | ts => .ok left ts (Nat.lt_succ_self _)
termination_by (ts.length, 0)
decreasing_by all_goals simp_wf; omega

/-- Reads a product from the start of a list of tokens. -/
def parseProduct (ts : List Token) : Parsed ts.length :=
  match parseSigned ts with
  | .ok e rest h => (parseProductTail e rest).widen h
  | .error e rest => .error e rest
termination_by (ts.length, 2)

/-- Goes on with the product that starts with `left`. -/
def parseProductTail (left : Expr) (ts : List Token) : Parsed (ts.length + 1) :=
  match ts with
  | .op .mul :: more =>
    match parseSigned more with
    | .ok e rest h => (parseProductTail (.binary .mul left e) rest).widen (by simp; omega)
    | .error e rest => .error e rest
  | .op .div :: more =>
    match parseSigned more with
    | .ok e rest h => (parseProductTail (.binary .div left e) rest).widen (by simp; omega)
    | .error e rest => .error e rest
  | ts => .ok left ts (Nat.lt_succ_self _)
termination_by (ts.length, 0)
decreasing_by all_goals simp_wf; omega

/-- Reads a term with any number of signs before it. -/
def parseSigned (ts : List Token) : Parsed ts.length :=
  match ts with
  | .op .sub :: more => ((parseSigned more).map .negate).widen (Nat.le_succ _)
  | .op .add :: more => (parseSigned more).widen (Nat.le_succ _)
  | ts => parseTerm ts
termination_by (ts.length, 1)

/-- Reads a term without a sign. -/
def parseTerm (ts : List Token) : Parsed ts.length :=
  match ts with
  | [] => .error .unexpectedEnd []
  | .leftParen :: more =>
    match parseSum more with
    | .ok e (.rightParen :: rest) h => .ok e rest (by simp at h ⊢; omega)
    | .ok _ (t :: rest) _ => .error (.unexpectedToken t) (t :: rest)
    | .ok _ [] _ => .error .unexpectedEnd []
    | .error e rest => .error e rest
  | t :: more =>
    match t.primary with
    | .ok e => .ok e more (Nat.lt_succ_self _)
    | .error e => .error e more
termination_by (ts.length, 0)

end

/-- Reads a list of tokens as one expression. -/
def parse (ts : List Token) : Except ReadError Expr :=
  match parseSum ts with
  | .ok e [] _ => .ok e
  | .ok _ (t :: _) _ => .error (.unexpectedToken t)
  | .error e _ => .error e

/-- The names mentioned by the tokens read. -/
def mentions (ts : List Token) : List Name :=
  (ts.take (ts.length - (parseSum ts).rest.length)).filterMap Token.mentioned?

/-- Reads a text as one expression. -/
def read (t : Text) : Reading Expr :=
  match Token.scan t with
  | .ok ts => ⟨mentions ts, parse ts⟩
  | .error e => .fail (.scan e)

/-- Reads a text as one expression, unless it is blank. -/
def readOptional (t : Text) : Reading (Option Expr) :=
  let t := Text.trim t
  if t.isEmpty then pure none else some <$> read t

end Expr

end Assembler
