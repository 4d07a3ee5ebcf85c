import Assembler.Attribute
/-!
Apostrophes, parentheses and commas in operand text.

An apostrophe opens a quoted string unless it belongs to an attribute reference such as `L'FIELD`.
Inside a string, blanks, commas and parentheses stand for themselves. The functions here walk over a
text with the characters already passed at hand, the nearest first.
-/

namespace Assembler.Source

/-- Characters that a name can start with. -/
def isNameStart (c : Char) : Bool := c.isAlpha || c ∈ ['@', '#', '$', '_']

/-- Characters that a name can go on with. -/
def isNameChar (c : Char) : Bool := c.isAlphanum || c ∈ ['@', '#', '$', '_']

/-- Whether an apostrophe between the passed characters `behind` and `ahead` belongs to an attribute
reference: an attribute letter stands alone before it, and a name or a variable symbol follows. -/
def attributeQuote (behind ahead : Text) : Bool :=
  match behind with
  | [] => false
  | letter :: before =>
    (AttributeKind.ofLetter? letter).isSome && !before.head?.any isNameChar &&
      ahead.head?.any fun c => isNameStart c || c = '&'

/-- Whether text is quoted after passing `c`. -/
def quotedAfter (behind : Text) (quoted : Bool) (c : Char) (ahead : Text) : Bool :=
  if c = '\'' && (quoted || !attributeQuote behind ahead) then !quoted else quoted

/-- Reads up to the apostrophe that ends a string. The result is what the string stands for, two
apostrophes standing for one, and the number of characters read. -/
def readQuoted? : Text → Option (Text × Nat)
  | [] => none
  | '\'' :: '\'' :: rest => (readQuoted? rest).map fun (content, n) => ('\'' :: content, n + 2)
  | '\'' :: _ => some ([], 1)
  | c :: rest => (readQuoted? rest).map fun (content, n) => (c :: content, n + 1)

/-- Cuts a text before its first blank outside strings. -/
def cutAtBlank (behind : Text) (quoted : Bool) : Text → Text × Text
  | [] => ([], [])
  | c :: rest =>
    if Text.isBlank c && !quoted then ([], c :: rest)
    else
      let (before, after) := cutAtBlank (c :: behind) (quotedAfter behind quoted c rest) rest
      (c :: before, after)

/-- The operands at the start of a text and the remarks after them. -/
def splitOperands (t : Text) : Text × Text :=
  let (operands, remarks) := cutAtBlank [] false t
  (Text.trim operands, Text.trim remarks)

/-- How much deeper in parentheses text is after `c`. -/
def deeper (quoted : Bool) (c : Char) : Int :=
  if quoted then 0 else if c = '(' then 1 else if c = ')' then -1 else 0

/-- The pieces between the commas that stand outside strings at depth zero. -/
def piecesFrom (behind : Text) (quoted : Bool) (depth : Int) : Text → List Text
  | [] => [[]]
  | c :: rest =>
    let pieces :=
      piecesFrom (c :: behind) (quotedAfter behind quoted c rest) (depth + deeper quoted c) rest
    if c = ',' && !quoted && depth = 0 then [] :: pieces
    else match pieces with
      | [] => [[c]]
      | piece :: more => (c :: piece) :: more

/-- The pieces of a text between its commas outside parentheses and strings. -/
def splitCommas (t : Text) : List Text := piecesFrom [] false 0 t

/-- The number of characters before the parenthesis that brings the depth down to zero. -/
def closingFrom (behind : Text) (quoted : Bool) (depth : Int) : Text → Option Nat
  | [] => none
  | c :: rest =>
    if c = ')' && !quoted && depth = 1 then some 0
    else
      (closingFrom (c :: behind) (quotedAfter behind quoted c rest)
        (depth + deeper quoted c) rest).map (· + 1)

/-- The position of the parenthesis that closes the one at position `start`. -/
def matchingParen? (t : Text) (start : Nat) : Option Nat :=
  (closingFrom (t.take start).reverse false 0 (t.drop start)).map (min start t.length + ·)

end Assembler.Source
