import Assembler.Json.Basic
import Assembler.Settings
/-!
Settings described by a JSON document.

The document is an object whose members are named after the parameters, or an array with their values in
order. A parameter that it does not mention has its default.
-/

namespace Assembler.Settings

/-- A parameter with the name it has in documents. -/
structure Parameter where
  name : Text
  /-- Values have to be less than this. -/
  limit : Nat
  put : Settings → Nat → Settings

/-- The parameters in the order of the array form. -/
def parameters : List Parameter :=
  [⟨"max_sweeps".toList, UInt64.size, fun s n => { s with maxSweeps := n }⟩,
    ⟨"max_diagnostics".toList, UInt64.size, fun s n => { s with maxDiagnostics := n }⟩,
    ⟨"loctr_alignment".toList, UInt32.size, fun s n => { s with counterAlignment := n }⟩]

/-- Gives a parameter the value in a document. -/
def Parameter.set? (p : Parameter) (s : Settings) (value : Json) : Option Settings :=
  (value.natural?.filter (· < p.limit)).map (p.put s)

/-- The settings of an object. It may have further members, but none for a parameter twice and none
whose name is not a text. -/
def ofMembers? (members : List (Option Text × Json)) : Option Settings :=
  if members.all (·.1.isSome) then
    parameters.foldlM
      (fun s p =>
        match members.filter (·.1 = some p.name) with
        | [] => some s
        | [(_, value)] => p.set? s value
        | _ => none)
      {}
  else none

/-- The settings of an array. It may be short of values, but has none too many. -/
def ofItems? (items : List Json) : Option Settings :=
  if items.length ≤ parameters.length then
    (parameters.zip items).foldlM (fun s (p, value) => p.set? s value) {}
  else none

/-- The settings that a document describes, whether in range or not. -/
def ofJson? : Json → Option Settings
  | .object members => ofMembers? members
  | .array items => ofItems? items
  | _ => none

/-- The settings that a text describes. -/
def read (t : Text) : Except SettingsError Settings :=
  match (Json.read? t).bind ofJson? with
  | some s => s.validate
  | none => .error .malformed

/-- The settings that the content of a file describes. There is no content if the file cannot be
read. -/
def ofContent (content? : Option Text) : Except SettingsError Settings :=
  match content? with
  | some t => read t
  | none => .error .unreadable

end Assembler.Settings
