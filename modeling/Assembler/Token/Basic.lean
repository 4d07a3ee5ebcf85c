import Assembler.Expr.Basic
import Assembler.Numeral
/-!
Tokens of operands, and the texts they are shown as.
-/

namespace Assembler

inductive Token
  | symbol (name : Name)
  | number (n : Nat)
  /-- A self-defining term `X'..'`. -/
  | hex (digits : Text)
  /-- A self-defining term `C'..'`. -/
  | char (content : Text)
  /-- A self-defining term `B'..'`. -/
  | binary (digits : Text)
  | op (op : Operator)
  | leftParen
  | rightParen
  | comma
  /-- The location counter, `*` where a term is expected. -/
  | counter
  /-- An attribute reference, to a variable symbol if there is an ampersand. -/
  | attr (kind : AttributeKind) (ampersand : Bool) (name : Name)
  | variableSymbol (name : Name)
deriving DecidableEq

namespace Token

/-- Whether a `*` after the token is a multiplication. -/
def endsTerm : Token → Bool
  | op _ => false
  | leftParen => false
  | comma => false
  | _ => true

def quoted (letter : Char) (content : Text) : Text := letter :: '\'' :: content ++ ['\'']

def text : Token → Text
  | symbol n => n.letters
  | number n => Numeral.decimal n
  | hex t => quoted 'X' t
  | char t => quoted 'C' t
  | binary t => quoted 'B' t
  | op o => [o.sign]
  | leftParen => ['(']
  | rightParen => [')']
  | comma => [',']
  | counter => ['*']
  | attr kind ampersand n => kind.letter :: '\'' :: (if ampersand then ['&'] else []) ++ n.letters
  | variableSymbol n => '&' :: n.letters

end Token

end Assembler
