import Assembler.Assembly.Equate
/-!
ORG: moves of the location counter.

A move leads to a target rounded up to a boundary, plus an offset, or to the highest place that the
counter has reached. It stays in the counter: neither may the target lie in another one nor may the
place be below the origin. A target that is not known yet makes the move a space.
-/

namespace Assembler.Assembly

/-- The boundaries that a target may be rounded up to. -/
def orgBoundaries : List Nat := [2, 4, 8, 16, 32, 64, 128, 256, 512, 1024, 2048, 4096]

/-- The boundary operand, which has to be known. Without one nothing is rounded. -/
def orgBoundary? (s : Assembly) (e? : Option Expr) (f : Frame) : Option Nat :=
  match e? with
  | none => some 1
  | some e =>
    match s.evaluateNumber e f with
    | .resolved n => if 0 ≤ n ∧ n.toInt.toNat ∈ orgBoundaries then some n.toInt.toNat else none
    | _ => none

/-- The offset operand, which has to be known. -/
def orgOffset? (s : Assembly) (e? : Option Expr) (f : Frame) : Option Int32 :=
  match e? with
  | none => some 0
  | some e =>
    match s.evaluateNumber e f with
    | .resolved n => some n
    | _ => none

/-- Moves to the highest place that the counter has reached. -/
def moveToHighest (s : Assembly) (f : Frame) : Assembly :=
  let candidates := s.layout.candidates
  match Address.highest s.layout.spaces candidates with
  | .ok highest => s.mapLayout (·.moveTo highest)
  | .error _ =>
    let position := s.layout.position
    let (space, layout) := s.layout.jump .jumpToHighest
    { s with layout }.resolveOrDefer (.space space (.jumpToHighest candidates position)) f

/-- Checks later that a move does not lead below the origin of its counter. -/
def checkNotBelow (s : Assembly) (origin : Address) (target : Expr) (boundary : Nat)
    (offset : Int32) (f : Frame) : Assembly :=
  s.resolveOrDefer (.check (.notBelow origin target boundary offset)) f

/-- Moves to a place that is known up to open spaces, if it is not below the origin. -/
def moveToPlace (s : Assembly) (place : Address) (target : Expr) (boundary : Nat)
    (offset : Int32) (f : Frame) : Assembly :=
  let origin := s.layout.origin
  let gap := (place - origin).normalize s.layout.spaces
  if gap.spaces.isEmpty then
    if gap.offset < 0 then s.report .outsideSection f.location
    else s.mapLayout (·.moveTo place)
  else (s.checkNotBelow origin target boundary offset f).mapLayout (·.moveTo place)

/-- Moves by a space to a target that is not known yet. -/
def jumpToTarget (s : Assembly) (target : Expr) (boundary : Nat) (offset : Int32) (f : Frame) :
    Assembly :=
  let origin := s.layout.origin
  let position := s.layout.position
  let (space, layout) := s.layout.jump .jump
  ({ s with layout }.resolveOrDefer (.space space (.jump target position boundary offset))
    f).checkNotBelow origin target boundary offset f

/-- Moves to a target. -/
def moveToTarget (s : Assembly) (target : Expr) (boundary : Nat) (offset : Int32) (f : Frame) :
    Assembly :=
  match s.evaluate target f with
  | .resolved (.absolute _) => s.report .orgNotRelocatable f.location
  | .fallback _ fault => s.report fault f.location
  | .blocked _ => s.jumpToTarget target boundary offset f
  | .resolved (.relocatable a) =>
    let spaces := s.layout.spaces
    if a.bases = s.layout.position.bases ∧ s.layout.current?.all (a.within spaces ·) then
      match a.roundUp spaces boundary with
      | .ok place => s.moveToPlace (place.addOffset offset) target boundary offset f
      | .error _ => s.jumpToTarget target boundary offset f
    else s.report .outsideSection f.location

/-- Carries out the operands of ORG. -/
def moveToOperands (s : Assembly) (st : Statement) (target? boundary? offset? : Option Expr) :
    Assembly :=
  let (frame, s) := s.frameFor st [target?, boundary?, offset?]
  match target? with
  | none => s.report .orgNotRelocatable st.location
  | some target =>
    match s.orgBoundary? boundary? frame with
    | none => s.report .orgBoundary st.location
    | some boundary =>
      match s.orgOffset? offset? frame with
      | none => s.report .orgOperandFormat st.location
      | some offset => s.moveToTarget target boundary offset frame

/-- Carries out ORG. Its label names the place before the move. -/
def processOrg (s : Assembly) (st : Statement) (operands : OrgOperands) : Assembly :=
  let s := s.mapLayout Layout.ensureSection
  let s :=
    match st.label? with
    | none => s
    | some label =>
      s.createSymbol
        { name := label, value? := some (.relocatable s.layout.position),
          attributes := .label .org 'U' 1, location := st.location }
  match operands with
  | .highest => s.moveToHighest st.frame
  | .place target? boundary? offset? => s.moveToOperands st target? boundary? offset?

end Assembler.Assembly
