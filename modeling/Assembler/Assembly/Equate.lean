import Assembler.Assembly.Cascade
import Assembler.Statement
/-!
EQU: a symbol with the value of an expression, and with a length and a type attribute that may be given
by expressions too.
-/

namespace Assembler

/-- The frame of a statement without the location counter. -/
def Statement.frame (st : Statement) : Frame := { label? := st.label?, location := st.location }

namespace Assembly

def mapLayout (s : Assembly) (f : Layout → Layout) : Assembly := { s with layout := f s.layout }

/-- Reports a fault, if there is one. -/
def reportAny (s : Assembly) (fault? : Option Fault) (location : Location) : Assembly :=
  match fault? with
  | some fault => s.report fault location
  | none => s

/-- The frame that the operands of a statement are evaluated in. The location counter is used, and a
section started for it if necessary, only if one of the operands refers to it. -/
def frameFor (s : Assembly) (st : Statement) (operands : List (Option Expr)) : Frame × Assembly :=
  if operands.any (·.any Expr.usesCounter) then
    let s := s.mapLayout Layout.ensureSection
    ({ st.frame with position? := some s.layout.position }, s)
  else (st.frame, s)

/-- The greatest length and type attributes of EQU. -/
def maxEquLength : Int32 := 65535

def maxEquType : Int32 := 255

/-- The length attribute without an operand for it: that of the first term of the value, as far as it is
known, or else one. -/
def impliedLength (s : Assembly) (value? : Option Expr) : Nat :=
  match value?.map Expr.leftmost with
  | some (.symbol n) => ((s.symbols.get? n).bind (·.attributes.length.known?)).getD 1
  | _ => 1

/-- The length attribute that an operand gives, with the fault if there is one. -/
def equLength (s : Assembly) (length? : Option Expr) (implied : Nat) (f : Frame) :
    Slot Nat × Option Fault :=
  match length? with
  | none => (.known implied, none)
  | some e =>
    match s.evaluate e f with
    | .resolved (.absolute n) =>
      if 0 ≤ n ∧ n ≤ maxEquLength then (.known n.toUInt32.toNat, none)
      else (.known implied, some .equLength)
    | .resolved (.relocatable _) => (.known implied, some .equLength)
    | .fallback _ fault => (.known implied, some fault)
    | .blocked _ => (.pending, none)

/-- The type attribute that an operand gives, with the fault if there is one. It cannot wait. -/
def equType (s : Assembly) (type? : Option Expr) (f : Frame) : UInt8 × Option Fault :=
  match type? with
  | none => (Ebcdic.encode 'U', none)
  | some e =>
    match s.evaluate e f with
    | .resolved (.absolute n) =>
      if 0 ≤ n ∧ n ≤ maxEquType then (n.toUInt32.toUInt8, none)
      else (Ebcdic.encode 'U', some .equType)
    | _ => (Ebcdic.encode 'U', some .equType)

/-- Computes the length attribute of a new symbol from its operand, if that has to wait. -/
def deferEquLength (s : Assembly) (label : Name) (length? : Option Expr) (slot : Slot Nat)
    (implied : Nat) (f : Frame) : Assembly :=
  match length? with
  | some e =>
    if slot.isPending then
      s.resolveOrDefer
        (.length label e { min := 0, max := maxEquLength, fallback := implied, fault := .equLength })
        f
    else s
  | none => s

/-- Carries out EQU with a name field. -/
def defineEqu (s : Assembly) (st : Statement) (label : Name)
    (value? length? type? : Option Expr) : Assembly :=
  let (frame, s) := s.frameFor st [value?, length?, type?]
  let implied := s.impliedLength value?
  let (length, fault?) := s.equLength length? implied frame
  let s := s.reportAny fault? st.location
  let (type, fault?) := s.equType type? frame
  let s := s.reportAny fault? st.location
  let attributes : SymbolAttributes := { origin := .equ, type, length }
  match value? with
  | none =>
    (s.report .unevaluable st.location).createSymbol
      { name := label, value? := some (.absolute 0), attributes, location := st.location }
  | some value =>
    let sym : Symbol := { name := label, value? := none, attributes, location := st.location }
    match s.createSymbol? sym with
    | none => s.report (.redefinition "symbol") st.location
    | some s =>
      -- The length waits already when the value wakes what waits for it.
      (s.deferEquLength label length? length implied frame).resolveOrDefer (.value label value)
        frame

/-- Carries out EQU. -/
def processEqu (s : Assembly) (st : Statement) (value? length? type? : Option Expr) : Assembly :=
  match st.label? with
  | none => s.report .unevaluable st.location
  | some label => s.defineEqu st label value? length? type?

end Assembly

end Assembler
