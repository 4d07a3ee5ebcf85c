import Assembler.Token.Scan
/-!
Reading of source text: a result or an error, and the names mentioned up to there.

Names are mentioned in reading order, also by text that turns out to be wrong further on.
-/

namespace Assembler

/-- Why text cannot be read. -/
inductive ReadError
  | scan (e : ScanError)
  | unexpectedEnd
  | unexpectedToken (t : Token)
  | invalidTerm (term : Text)
  | invalidOperand (operand : Text)
  | invalidLabel (label : Text)
  | missingOperand
deriving DecidableEq

def ReadError.message : ReadError → String
  | scan e => e.message
  | unexpectedEnd => "Unexpected end of expression"
  | unexpectedToken t => "Unexpected token '" ++ String.ofList t.text ++ "'"
  | invalidTerm t => "Invalid term: " ++ String.ofList t
  | invalidOperand t => "Invalid DC/DS operand: " ++ String.ofList t
  | invalidLabel t => "Invalid name field: " ++ String.ofList t
  | missingOperand => "Operand expected"

/-- The outcome of reading some text. -/
structure Reading (α : Type) where
  mentions : List Name
  result : Except ReadError α

namespace Reading

variable {α β : Type}

instance : Monad Reading where
  pure a := ⟨[], .ok a⟩
  bind r f :=
    match r.result with
    | .ok a => ⟨r.mentions ++ (f a).mentions, (f a).result⟩
    | .error e => ⟨r.mentions, .error e⟩

def fail (e : ReadError) : Reading α := ⟨[], .error e⟩

/-- Mentions a name. -/
def mention (n : Name) : Reading Name := ⟨[n], .ok n⟩

/-- The value, if there is one, or else an error. -/
def ofOption (e : ReadError) : Option α → Reading α
  | some a => pure a
  | none => fail e

end Reading

end Assembler
