import Assembler.Layout.Space
/-!
Addresses whose sections and spaces are not placed yet.

An address is a combination of section starts, a number of bytes and a combination of spaces, all
modulo 2^32. Once every section and space has a place, an address denotes a number (`denote`), and
adding, subtracting and negating addresses does so to the numbers they denote (`denote_add`,
`denote_sub`, `denote_neg`).
-/

namespace Assembler

structure Address where
  bases : Terms SectionId := []
  offset : Int32 := 0
  spaces : Terms SpaceId := []
deriving DecidableEq

namespace Address

instance : Inhabited Address := ⟨{}⟩

/-- The start of a section. -/
def start (s : SectionId) : Address := { bases := [(s, 1)] }

/-- A plain number. -/
def absolute (n : Int32) : Address := { offset := n }

/-- Whether no section takes part. -/
def isAbsolute (a : Address) : Bool := a.bases.isEmpty

/-- The section of an address that is a place in one section. -/
def section? (a : Address) : Option SectionId :=
  match a.bases with
  | [(s, k)] => if k = 1 then some s else none
  | _ => none

/-- Whether the address is a place in one section. -/
def isSimple (a : Address) : Bool := a.section?.isSome

def addOffset (a : Address) (n : Int32) : Address := { a with offset := a.offset + n }

def addSpace (a : Address) (s : SpaceId) (k : Int32) : Address :=
  { a with spaces := a.spaces.add s k }

/-- The sum of `a` and `sign` times `b`. -/
def addScaled (a b : Address) (sign : Int32) : Address where
  bases := a.bases.addScaled b.bases sign
  offset := a.offset + b.offset * sign
  spaces := a.spaces.addScaled b.spaces sign

instance : Add Address := ⟨fun a b => a.addScaled b 1⟩
instance : Sub Address := ⟨fun a b => a.addScaled b (-1)⟩
instance : Neg Address := ⟨fun a => addScaled {} a (-1)⟩

/-! ### Placement -/

/-- The number that an address denotes when section `s` starts at `σ s` and space `t` has length
`τ t`. -/
def denote (σ : SectionId → Int32) (τ : SpaceId → Int32) (a : Address) : Int32 :=
  a.bases.value σ + a.offset + a.spaces.value τ

theorem denote_addScaled (σ : SectionId → Int32) (τ : SpaceId → Int32) (a b : Address)
    (sign : Int32) :
    (a.addScaled b sign).denote σ τ = a.denote σ τ + sign * b.denote σ τ := by
  simp only [denote, addScaled, Terms.value_addScaled]
  grind

theorem denote_add (σ : SectionId → Int32) (τ : SpaceId → Int32) (a b : Address) :
    (a + b).denote σ τ = a.denote σ τ + b.denote σ τ := by
  have := denote_addScaled σ τ a b 1
  grind [show a + b = a.addScaled b 1 from rfl]

theorem denote_sub (σ : SectionId → Int32) (τ : SpaceId → Int32) (a b : Address) :
    (a - b).denote σ τ = a.denote σ τ - b.denote σ τ := by
  have := denote_addScaled σ τ a b (-1)
  grind [show a - b = a.addScaled b (-1) from rfl]

theorem denote_neg (σ : SectionId → Int32) (τ : SpaceId → Int32) (a : Address) :
    (-a).denote σ τ = -a.denote σ τ := by
  have := denote_addScaled σ τ {} a (-1)
  have : denote σ τ {} = 0 := by simp [denote, Terms.value]
  grind [show -a = addScaled {} a (-1) from rfl]

/-! ### Spaces that have a length -/

/-- The address with the lengths of its spaces put in. -/
def normalize (spaces : Spaces) (a : Address) : Address :=
  let (bytes, rest) := spaces.substitute a.spaces
  { a with offset := Int32.ofInt (a.offset.toInt + bytes), spaces := rest }

/-- The spaces without a length that an address depends on. -/
def openSpaces (spaces : Spaces) (a : Address) : List SpaceId :=
  (spaces.substitute a.spaces).2.map (·.1)

/-- The number of bytes from `b` to `a`, if it is known. -/
def distance? (spaces : Spaces) (a b : Address) : Option Int32 :=
  let gap := (a - b).normalize spaces
  if gap.isAbsolute ∧ gap.spaces.isEmpty then some gap.offset else none

/-- Whether `a` is known not to lie below `b`. -/
def reaches (spaces : Spaces) (a b : Address) : Bool :=
  (a.distance? spaces b).any (0 ≤ ·)

/-- The highest of `first` and `others`, or the spaces whose lengths decide it. -/
def highestOf (spaces : Spaces) (first : Address) (others : List Address) :
    Except (List SpaceId) Address :=
  let (best, blocking) := others.foldl (fun (best, blocking) c =>
      let gap := (c - best).normalize spaces
      if gap.spaces.isEmpty then (if 0 < gap.offset then c else best, blocking)
      else (best, gap.spaces.foldl (fun found (s, _) => s.insert found) blocking))
    (first, [])
  if blocking.isEmpty then .ok best else .error blocking

/-- The highest of some candidates, or the spaces whose lengths decide it. -/
def highest (spaces : Spaces) : List Address → Except (List SpaceId) Address
  | [] => .error []
  | first :: others => highestOf spaces first others

end Address

/-! ### Values -/

/-- The value of an expression: a number, or a place that moves with its sections. -/
inductive Value
  | absolute (n : Int32)
  | relocatable (a : Address)
deriving DecidableEq

namespace Value

def toAddress : Value → Address
  | absolute n => .absolute n
  | relocatable a => a

def absolute? : Value → Option Int32
  | absolute n => some n
  | relocatable _ => none

instance : Add Value where
  add
    | absolute m, absolute n => absolute (m + n)
    | v, w => relocatable (v.toAddress + w.toAddress)

instance : Sub Value where
  sub
    | absolute m, absolute n => absolute (m - n)
    | v, w => relocatable (v.toAddress - w.toAddress)

instance : Neg Value where
  neg
    | absolute n => absolute (-n)
    | relocatable a => relocatable (-a)

/-- The value with the lengths of its spaces put in. Without section and space left it is a
number. -/
def simplify (spaces : Spaces) : Value → Value
  | absolute n => absolute n
  | relocatable a =>
    let a := a.normalize spaces
    if a.isAbsolute ∧ a.spaces.isEmpty then absolute a.offset else relocatable a

/-- The value with the lengths of its spaces put in; an address stays an address. -/
def normalize (spaces : Spaces) : Value → Value
  | absolute n => absolute n
  | relocatable a => relocatable (a.normalize spaces)

def denote (σ : SectionId → Int32) (τ : SpaceId → Int32) : Value → Int32
  | absolute n => n
  | relocatable a => a.denote σ τ

end Value

end Assembler
