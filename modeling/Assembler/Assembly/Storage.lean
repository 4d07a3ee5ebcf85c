import Assembler.Assembly.Equate
/-!
Storage: DC, DS and machine instructions.

Storage is reserved for every operand. A duplication factor or a length that is not known yet makes the
storage a space. The label gets the attributes of the first operand.
-/

namespace Assembler

/-- A number, or the expression that will give it. -/
inductive Amount
  | known (n : Int32)
  | deferred (e : Expr)
deriving DecidableEq

def Amount.toExpr : Amount → Expr
  | known n => .number n
  | deferred e => e

namespace DataOperand

/-- The number of values, as a factor. -/
def count (op : DataOperand) : Int32 := Int32.ofNat op.valueCount

/-- The bytes of one duplicate when every value has the given length. Without a length modifier the
values have lengths of their own. -/
def unit (op : DataOperand) (length : Int32) : Int32 :=
  if op.length?.isSome then op.count * length else Int32.ofNat op.implicitTotal

/-- The fault of a length modifier outside its range. -/
def lengthFault (op : DataOperand) (bounds : Int32 × Int32) : Fault :=
  .lengthModifier op.type.code bounds.1 bounds.2

end DataOperand

namespace Assembly

/-- Aligns the location counter. Padding that depends on open spaces becomes a task. -/
def align (s : Assembly) (alignment : Alignment) (f : Frame) : Assembly :=
  match s.layout.align alignment with
  | (none, layout) => { s with layout }
  | (some p, layout) =>
    { s with layout }.resolveOrDefer (.space p.space (.padding p.position p.reference p.alignment)) f

/-- The length of each value, with the fault if there is one. -/
def lengthAmount (s : Assembly) (op : DataOperand) (bounds : Int32 × Int32) (f : Frame) :
    Amount × Option Fault :=
  let implicit := Amount.known (Int32.ofNat op.implicitLength)
  match op.length? with
  | none => (implicit, none)
  | some modifier =>
    match s.evaluateNumber modifier.bytes f with
    | .resolved n =>
      if bounds.1 ≤ n ∧ n ≤ bounds.2 then (.known n, none)
      else (implicit, some (op.lengthFault bounds))
    | .fallback _ fault => (implicit, some fault)
    | .blocked _ => (.deferred modifier.bytes, none)

/-- The duplication factor, with the fault if there is one. A negative factor counts as zero. -/
def duplicationAmount (s : Assembly) (op : DataOperand) (f : Frame) : Amount × Option Fault :=
  match op.duplication? with
  | none => (.known 1, none)
  | some e =>
    match s.evaluateNumber e f with
    | .resolved n => (.known (if n < 0 then 0 else n), none)
    | .fallback _ fault => (.known 1, some fault)
    | .blocked _ => (.deferred e, none)

/-- The scale attribute of a label, with the fault if there is one. -/
def scaleSlot (s : Assembly) (op : DataOperand) (f : Frame) : Slot Int32 × Option Fault :=
  if op.type.hasScale then
    match op.scale? with
    | none => (.known op.implicitScale, none)
    | some e =>
      match s.evaluateNumber e f with
      | .resolved n => (.known n, none)
      | .fallback _ fault => (.known 0, some fault)
      | .blocked _ => (.pending, none)
  else (.known 0, none)

/-- The integer attribute of a label, which follows from the other two. -/
def integerSlot (type : DataType) (length : Slot Nat) (scale : Slot Int32) : Slot Int32 :=
  if type.hasScale then
    match length, scale with
    | .known l, .known s => .known (type.integerAttribute l s)
    | _, _ => .pending
  else .known 0

/-- The attributes of the label of an operand. -/
def dataAttributes (op : DataOperand) (length : Amount) (scale : Slot Int32) : SymbolAttributes :=
  let length : Slot Nat :=
    match length with
    | .known n => .known n.toUInt32.toNat
    | .deferred _ => .pending
  { origin := .data
    type := Ebcdic.encode (op.type.typeLetter op.length?.isSome)
    length
    scale
    integer := integerSlot op.type length scale }

/-- Computes the attributes of a new label that are not known yet. -/
def deferAttributes (s : Assembly) (label : Name) (op : DataOperand) (length : Amount)
    (attributes : SymbolAttributes) (bounds : Int32 × Int32) (f : Frame) : Assembly :=
  let s :=
    match length with
    | .deferred e =>
      s.resolveOrDefer
        (.length label e
          { min := bounds.1, max := bounds.2, fallback := op.implicitLength,
            fault := op.lengthFault bounds })
        f
    | .known _ => s
  let s :=
    match op.scale? with
    | some e => if attributes.scale.isPending then s.resolveOrDefer (.scale label e) f else s
    | none => s
  if attributes.integer.isPending then s.resolveOrDefer (.integer label op.type) f else s

/-- Defines the label of an operand, and says whether it could be defined. -/
def defineLabel (s : Assembly) (label : Name) (op : DataOperand) (length : Amount)
    (bounds : Int32 × Int32) (f : Frame) : Bool × Assembly :=
  let s := s.mapLayout Layout.ensureSection
  let position := s.layout.position
  let (scale, fault?) := s.scaleSlot op f
  let s := s.reportAny fault? f.location
  let attributes := dataAttributes op length scale
  let sym : Symbol :=
    { name := label, value? := some (.relocatable position), attributes, location := f.location }
  match s.createSymbol? sym with
  | none => (false, s.report (.redefinition "symbol") f.location)
  | some s => (true, s.deferAttributes label op length attributes bounds f)

/-- Checks a length that is not known yet and that no label takes for its attribute. -/
def checkLength (s : Assembly) (op : DataOperand) (length : Amount) (bounds : Int32 × Int32)
    (f : Frame) : Assembly :=
  match length with
  | .deferred e =>
    s.resolveOrDefer (.check (.lengthInRange e op.type.code bounds.1 bounds.2)) f
  | .known _ => s

/-- The storage of an operand as an expression. The length attribute of the label stands for a length
that is not known yet, so that both become the same number. -/
def storageExpr (op : DataOperand) (label? : Option Name) (duplication length : Amount) : Expr :=
  let unit : Expr :=
    match length with
    | .known n => .number (op.unit n)
    | .deferred e =>
      Expr.times (.number op.count)
        (match label? with
        | some label => .attr .length (.symbol label)
        | none => e)
  Expr.times duplication.toExpr unit

/-- Reserves the storage of an operand. -/
def reserveStorage (s : Assembly) (op : DataOperand) (label? : Option Name)
    (duplication length : Amount) (f : Frame) : Assembly :=
  match duplication, length with
  | .known d, .known n => s.mapLayout (·.reserve (d * op.unit n))
  | _, _ =>
    -- Without a length modifier the storage is a whole number of aligned values.
    let guarantee := if op.length?.isSome then .any else op.type.alignment
    let (space, layout) := s.layout.passSpace .storage guarantee
    { s with layout }.resolveOrDefer
      (.space space (.storage (storageExpr op label? duplication length))) f

/-- Carries out an operand, with the label if it is the first. -/
def processOperand (s : Assembly) (st : Statement) (storageOnly : Bool)
    (label? : Option Name) (op : DataOperand) : Assembly :=
  let s := if op.length?.isSome then s else s.align op.type.alignment st.frame
  let (frame, s) :=
    s.frameFor st [op.duplication?, op.length?.map (·.expr), op.scale?, op.exponent?]
  let bounds := op.type.lengthBounds storageOnly
  let (length, fault?) := s.lengthAmount op bounds frame
  let s := s.reportAny fault? frame.location
  let (duplication, fault?) := s.duplicationAmount op frame
  let s := s.reportAny fault? frame.location
  -- The label names the place before the storage is reserved.
  let (defined, s) :=
    match label? with
    | some label => s.defineLabel label op length bounds frame
    | none => (false, s)
  let s := if defined then s else s.checkLength op length bounds frame
  s.reserveStorage op (if defined then label? else none) duplication length frame

/-- Carries out DC or DS. -/
def processData (s : Assembly) (st : Statement) (storageOnly : Bool)
    (operands : List DataOperand) : Assembly :=
  match operands with
  | [] => s
  | first :: others =>
    others.foldl (fun s op => s.processOperand st storageOnly none op)
      (s.processOperand st storageOnly st.label? first)

/-- Carries out a machine instruction. Other operation codes are macro calls, which reserve nothing. -/
def processMachine (s : Assembly) (st : Statement) : Assembly :=
  match Instruction.find? st.opcode with
  | none => s
  | some i =>
    let s := s.align .halfword st.frame
    let s :=
      match st.label? with
      | none => s
      | some label =>
        let s := s.mapLayout Layout.ensureSection
        s.createSymbol
          { name := label, value? := some (.relocatable s.layout.position),
            attributes := .label .machine 'I' i.length, location := st.location }
    s.mapLayout (·.reserve (Int32.ofNat i.length))

end Assembly

end Assembler
