import Assembler.Json.Token
/-!
JSON values, read from text.

Arrays and objects may be nested to any depth: what is still open is kept in a list of frames, the
innermost first.
-/

namespace Assembler

inductive Json
  | null
  | bool (b : Bool)
  /-- There is a value only for a natural number. -/
  | number (n? : Option Nat)
  /-- There is a text only if its surrogates form pairs. -/
  | string (text? : Option Text)
  | array (items : List Json)
  /-- The members in the order of the text, with repetitions. -/
  | object (members : List (Option Text × Json))

namespace Json

/-- An array or an object that is still open, with what it has so far, the last first. An object waits
for the value of `key?`. -/
inductive Frame
  | array (items : List Json)
  | object (members : List (Option Text × Json)) (key? : Option Text)

/-- The value that a single token is. -/
def ofToken? : Token → Option Json
  | .null => some null
  | .bool b => some (bool b)
  | .number n? => some (number n?)
  | .string text? => some (string text?)
  | _ => none

/-- Goes on reading in the open `frames`: after the value `done?`, or where a value has to follow if
there is none. -/
def readFrom (frames : List Frame) (done? : Option Json) (ts : List Token) : Option Json :=
  match done?, frames, ts with
  | some v, [], [] => some v
  | some v, .array items :: outer, .comma :: rest =>
    readFrom (.array (v :: items) :: outer) none rest
  | some v, .array items :: outer, .closeArray :: rest =>
    readFrom outer (some (array (v :: items).reverse)) rest
  | some v, .object members key? :: outer, .comma :: .string next? :: .colon :: rest =>
    readFrom (.object ((key?, v) :: members) next? :: outer) none rest
  | some v, .object members key? :: outer, .closeObject :: rest =>
    readFrom outer (some (object ((key?, v) :: members).reverse)) rest
  | some _, _, _ => none
  | none, frames, .openArray :: .closeArray :: rest => readFrom frames (some (array [])) rest
  | none, frames, .openArray :: rest => readFrom (.array [] :: frames) none rest
  | none, frames, .openObject :: .closeObject :: rest => readFrom frames (some (object [])) rest
  | none, frames, .openObject :: .string key? :: .colon :: rest =>
    readFrom (.object [] key? :: frames) none rest
  | none, frames, t :: rest =>
    match ofToken? t with
    | some v => readFrom frames (some v) rest
    | none => none
  | none, _, [] => none

/-- The value that a text is, if it is one. -/
def read? (t : Text) : Option Json := (Token.scan? t).bind (readFrom [] none)

/-- The natural number that a value is. -/
def natural? : Json → Option Nat
  | number n? => n?
  | _ => none

end Json

end Assembler
