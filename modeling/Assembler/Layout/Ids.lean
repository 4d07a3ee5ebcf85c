/-!
Numbers that stand for sections, location counters and spaces. Each kind is numbered from zero in
the order of creation.
-/

namespace Assembler

structure SectionId where
  index : Nat
deriving DecidableEq

structure CounterId where
  index : Nat
deriving DecidableEq

structure SpaceId where
  index : Nat
deriving DecidableEq

/-- Whether `s` was created before `t`. -/
def SpaceId.precedes (s t : SpaceId) : Bool := s.index < t.index

/-- Inserts `s` into an increasing list of spaces unless it is there. -/
def SpaceId.insert (s : SpaceId) : List SpaceId → List SpaceId
  | [] => [s]
  | t :: rest =>
    if s = t then t :: rest
    else if s.precedes t then s :: t :: rest
    else t :: insert s rest

end Assembler
