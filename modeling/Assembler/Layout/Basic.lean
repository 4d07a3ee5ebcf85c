import Assembler.Name
import Assembler.Layout.Address
/-!
Sections and their location counters.

A section has one location counter from the start and gets further ones that are laid out one after
another behind it. The layout holds all sections, counters and spaces, and the counter in use.
-/

namespace Assembler

/-- The kinds of sections. -/
inductive SectionKind
  | executable
  | dummy
  | readOnly
  | common
deriving DecidableEq

/-- The operation code that starts a section of this kind. -/
def SectionKind.opcode : SectionKind → String
  | executable => "CSECT"
  | dummy => "DSECT"
  | readOnly => "RSECT"
  | common => "COM"

structure Section where
  id : SectionId
  /-- A section without a name is the private one of its kind. -/
  name? : Option Name
  kind : SectionKind
  /-- In order of creation. -/
  counters : List CounterId
  /-- The counter that the section was left in. -/
  active : CounterId
deriving DecidableEq

structure Counter where
  id : CounterId
  name? : Option Name
  sectionId : SectionId
  origin : Address
  position : Address
  /-- The last space passed and the bytes reserved after it. -/
  tail? : Option (SpaceId × Int32) := none
  /-- Positions moved away from that may be above the present one. -/
  marks : List Address := []
  /-- The space that stands for the start of a counter that is not the first. -/
  start? : Option SpaceId := none
deriving DecidableEq

/-- Every position that may be the highest one reached. -/
def Counter.candidates (c : Counter) : List Address := c.marks ++ [c.position]

/-- Advances over a known number of bytes. -/
def Counter.advance (c : Counter) (n : Int32) : Counter :=
  { c with
    position := c.position.addOffset n
    tail? := c.tail?.map fun (s, after) => (s, after + n) }

/-- Advances over a space. -/
def Counter.pass (c : Counter) (s : SpaceId) : Counter :=
  { c with position := c.position.addSpace s 1, tail? := some (s, 0) }

/-- Keeps the present position as a mark if it is not known to be below another mark, and drops the
marks known not to be above it. -/
def Counter.mark (c : Counter) (spaces : Spaces) : Counter :=
  if c.marks.any (·.reaches spaces c.position) then c
  else { c with marks := c.marks.filter (!c.position.reaches spaces ·) ++ [c.position] }

structure Layout where
  sections : List Section := []
  counters : List Counter := []
  spaces : Spaces := {}
  current? : Option CounterId := none
  /-- The alignment of counters that are not the first of their section. -/
  counterAlignment : Alignment

namespace Layout

/-- A layout without sections, whose further counters start on multiples of `boundary`. -/
def new (boundary : Nat) : Layout := { counterAlignment := .multiplesOf boundary }

def section? (l : Layout) (s : SectionId) : Option Section := l.sections[s.index]?

def counter? (l : Layout) (c : CounterId) : Option Counter := l.counters[c.index]?

/-- The counter in use. -/
def current (l : Layout) : Option Counter := l.current?.bind l.counter?

def currentSection? (l : Layout) : Option SectionId := l.current.map (·.sectionId)

def findSection? (l : Layout) (n : Name) : Option SectionId :=
  (l.sections.find? (·.name? = some n)).map (·.id)

/-- The section without a name that has the given kind. -/
def privateSection? (l : Layout) (kind : SectionKind) : Option SectionId :=
  (l.sections.find? fun s => s.name? = none ∧ s.kind = kind).map (·.id)

def findCounter? (l : Layout) (n : Name) : Option CounterId :=
  (l.counters.find? (·.name? = some n)).map (·.id)

/-- Changes the counter in use. -/
def modifyCurrent (l : Layout) (f : Counter → Counter) : Layout :=
  match l.current? with
  | some c => { l with counters := l.counters.modify c.index f }
  | none => l

/-! ### Sections and counters -/

/-- Starts a section with its first counter, which is in use from then on. -/
def createSection (l : Layout) (name? : Option Name) (kind : SectionKind) : SectionId × Layout :=
  let s : SectionId := ⟨l.sections.length⟩
  let c : CounterId := ⟨l.counters.length⟩
  (s, { l with
    sections := l.sections ++ [{ id := s, name?, kind, counters := [c], active := c }]
    counters := l.counters ++
      [{ id := c, name?, sectionId := s, origin := .start s, position := .start s }]
    current? := some c })

/-- Goes back to a section, to the counter it was left in. -/
def resumeSection (l : Layout) (s : SectionId) : Layout :=
  match l.section? s with
  | some sect => { l with current? := some sect.active }
  | none => l

/-- Goes back to a counter and its section. -/
def resumeCounter (l : Layout) (c : CounterId) : Layout :=
  match l.counter? c with
  | some counter =>
    { l with
      sections := l.sections.modify counter.sectionId.index ({ · with active := c })
      current? := some c }
  | none => l

/-- Starts the private executable section if no section has been started. -/
def ensureSection (l : Layout) : Layout :=
  match l.current? with
  | some _ => l
  | none => (l.createSection none .executable).2

/-- Adds a counter to the section in use. Its start is a space, which gets its length when the counter
before it is complete. -/
def createCounter (l : Layout) (name : Name) : CounterId × Layout :=
  let l := l.ensureSection
  let c : CounterId := ⟨l.counters.length⟩
  match l.currentSection? with
  | none => (c, l)
  | some s =>
    let (start, spaces) := l.spaces.create .counterStart c l.counterAlignment
    let origin := (Address.start s).addSpace start 1
    (c, { l with
      spaces
      counters := l.counters ++
        [{ id := c, name? := some name, sectionId := s, origin, position := origin, start? := some start }]
      sections := l.sections.modify s.index fun sect =>
        { sect with counters := sect.counters ++ [c], active := c }
      current? := some c })

/-- The position of the counter in use. -/
def position (l : Layout) : Address := (l.current.map (·.position)).getD {}

/-- The origin of the counter in use. -/
def origin (l : Layout) : Address := (l.current.map (·.origin)).getD {}

/-- The positions of the counter in use that may be its highest. -/
def candidates (l : Layout) : List Address := (l.current.map (·.candidates)).getD []

/-! ### Moving the counter in use -/

/-- Advances over a known number of bytes. -/
def reserve (l : Layout) (n : Int32) : Layout :=
  l.ensureSection.modifyCurrent (·.advance n)

/-- Whether positions of the counter in use that are aligned to its origin are so to the section. -/
def originImplies (l : Layout) (alignment : Alignment) : Bool :=
  l.current.any (·.start?.isNone) || l.counterAlignment.implies alignment

/-- Advances over a space of a new length. The guarantee is kept only if the origin of the counter has
that alignment. -/
def passSpace (l : Layout) (kind : SpaceKind) (guarantee : Alignment) : SpaceId × Layout :=
  let l := l.ensureSection
  match l.current? with
  | none => (⟨l.spaces.size⟩, l)
  | some c =>
    -- From any other origin the distance to the origin has no known remainder.
    let guarantee := if l.originImplies guarantee then guarantee else .any
    let (s, spaces) := l.spaces.create kind c guarantee
    (s, { l with spaces }.modifyCurrent (·.pass s))

/-- Padding that has to wait: the space that stands for it, the position that is to be aligned, and the
place that alignment is measured from. -/
structure Padding where
  space : SpaceId
  position : Address
  reference : Address
  alignment : Alignment
deriving DecidableEq

/-- The padding that follows from the guarantee of the last space passed, if it has no length yet. -/
def guaranteedPadding? (l : Layout) (alignment : Alignment) : Option Int32 := do
  let (s, after) ← l.current.bind (·.tail?)
  let space ← l.spaces.get? s
  guard (space.length?.isNone ∧ space.guarantee.implies alignment)
  return alignment.padding (space.guarantee.byte + after.toInt)

/-- The place that alignment in the counter in use is measured from: its origin if that has the
alignment, or else the start of the section. -/
def alignmentReference (l : Layout) (alignment : Alignment) : Address :=
  if l.originImplies alignment then l.origin
  else (l.currentSection?.map Address.start).getD {}

/-- Aligns the counter in use. Padding that depends on spaces without a length becomes a space
itself. -/
def align (l : Layout) (alignment : Alignment) : Option Padding × Layout :=
  if alignment.boundary ≤ 1 then (none, l)
  else
    let l := l.ensureSection
    let reference := l.alignmentReference alignment
    let position := l.position
    let gap := (position - reference).normalize l.spaces
    if gap.spaces.isEmpty then (none, l.reserve (alignment.padding gap.offset.toInt))
    else
      -- The position depends on an open space, but its remainder may follow from the guarantee.
      match if l.originImplies alignment then l.guaranteedPadding? alignment else none with
      | some padding => (none, l.reserve padding)
      | none =>
        let (space, l) := l.passSpace .alignment alignment
        (some { space, position, reference, alignment }, l)

/-- Moves the counter in use to `target`. -/
def moveTo (l : Layout) (target : Address) : Layout :=
  let l := l.ensureSection
  l.modifyCurrent fun c => { c.mark l.spaces with position := target, tail? := none }

/-- Moves the counter in use by a space, to a place not known yet. -/
def jump (l : Layout) (kind : SpaceKind) : SpaceId × Layout :=
  let l := l.ensureSection
  (l.modifyCurrent (·.mark l.spaces)).passSpace kind .any

/-! ### Placing counters -/

/-- What the start of a further counter depends on. -/
structure Placement where
  space : SpaceId
  counter : CounterId
  sectionStart : Address
  /-- The positions that may be the highest of the counter before it. -/
  candidates : List Address
deriving DecidableEq

/-- The placement of `next` after `previous`, unless its start has a length already. -/
def placement? (l : Layout) (s : SectionId) (previous next : CounterId) : Option Placement := do
  let before ← l.counter? previous
  let after ← l.counter? next
  let space ← after.start?
  guard (!l.spaces.isResolved space)
  return { space, counter := next, sectionStart := .start s, candidates := before.candidates }

/-- The placements of all further counters, section by section. -/
def placements (l : Layout) : List Placement :=
  l.sections.zipIdx.flatMap fun (sect, i) =>
    (sect.counters.zip sect.counters.tail).filterMap fun (previous, next) =>
      l.placement? ⟨i⟩ previous next

end Layout

end Assembler
