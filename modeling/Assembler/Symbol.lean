import Assembler.Ebcdic
import Assembler.Evaluation
import Assembler.Layout.Address
import Std.Data.ExtTreeMap
/-!
Ordinary symbols and the table of them.

A symbol is created once. Its type, origin and place in the source are fixed then; its value and its
length, scale and integer attributes may be filled in later, each at most once.
-/

namespace Assembler

/-- One attribute of a symbol. -/
inductive Slot (α : Type)
  | known (value : α)
  /-- Waiting to be computed. -/
  | pending
  /-- Symbols of this origin do not have the attribute. -/
  | absent
deriving DecidableEq

namespace Slot

variable {α : Type}

def known? : Slot α → Option α
  | known a => some a
  | _ => none

def isPending : Slot α → Bool
  | pending => true
  | _ => false

/-- Fills a pending slot. -/
def fill? (a : α) : Slot α → Option (Slot α)
  | pending => some (known a)
  | _ => none

end Slot

/-- The kind of statement that created a symbol. -/
inductive SymbolOrigin
  | equ
  | data
  | sectionStart
  | counterStart
  | machine
  | org
deriving DecidableEq

structure SymbolAttributes where
  origin : SymbolOrigin
  /-- The EBCDIC code of the type letter. -/
  type : UInt8
  length : Slot Nat
  scale : Slot Int32 := .absent
  integer : Slot Int32 := .absent
deriving DecidableEq

/-- The attributes of a label on a place: a type and a length, no scale and no integer attribute. -/
def SymbolAttributes.label (origin : SymbolOrigin) (type : Char) (length : Nat) :
    SymbolAttributes :=
  { origin, type := Ebcdic.encode type, length := .known length }

/-- The type attribute as a letter, if its code is shown as one. -/
def SymbolAttributes.typeLetter? (a : SymbolAttributes) : Option Char := Ebcdic.decode? a.type

structure Symbol where
  name : Name
  /-- There is no value until it can be computed. -/
  value? : Option Value
  attributes : SymbolAttributes
  location : Location
deriving DecidableEq

def Symbol.isDefined (s : Symbol) : Bool := s.value?.isSome

/-- Symbols by name. -/
structure SymbolTable where
  entries : Std.ExtTreeMap Name Symbol := ∅

namespace SymbolTable

def size (t : SymbolTable) : Nat := t.entries.size

def get? (t : SymbolTable) (n : Name) : Option Symbol := t.entries[n]?

def contains (t : SymbolTable) (n : Name) : Bool := (t.get? n).isSome

/-- Adds a symbol under a name that is not taken. -/
def create? (t : SymbolTable) (s : Symbol) : Option SymbolTable :=
  if t.contains s.name then none else some ⟨t.entries.insert s.name s⟩

/-- Replaces the symbol of a name by what `f` makes of it, if it makes something of it. -/
def update? (t : SymbolTable) (n : Name) (f : Symbol → Option Symbol) : Option SymbolTable := do
  let s ← t.get? n
  let s' ← f s
  return ⟨t.entries.insert n s'⟩

/-- Gives a symbol without a value its value. -/
def setValue? (t : SymbolTable) (n : Name) (value? : Option Value) : Option SymbolTable :=
  t.update? n fun s => if s.isDefined then none else some { s with value? }

/-- Fills the length attribute of a symbol if it is pending. -/
def setLength? (t : SymbolTable) (n : Name) (length : Nat) : Option SymbolTable :=
  t.update? n fun s => do
    let slot ← s.attributes.length.fill? length
    return { s with attributes := { s.attributes with length := slot } }

/-- Fills the scale attribute of a symbol if it is pending. -/
def setScale? (t : SymbolTable) (n : Name) (scale : Int32) : Option SymbolTable :=
  t.update? n fun s => do
    let slot ← s.attributes.scale.fill? scale
    return { s with attributes := { s.attributes with scale := slot } }

/-- Fills the integer attribute of a symbol if it is pending. -/
def setInteger? (t : SymbolTable) (n : Name) (integer : Int32) : Option SymbolTable :=
  t.update? n fun s => do
    let slot ← s.attributes.integer.fill? integer
    return { s with attributes := { s.attributes with integer := slot } }

end SymbolTable

end Assembler
