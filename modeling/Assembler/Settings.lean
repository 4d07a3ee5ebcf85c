import Assembler.Numeral
/-!
Settings of an assembly.
-/

namespace Assembler

structure Settings where
  /-- How much work is tried again in one cascade; the rest waits for the end of the source. Zero is no
  limit. -/
  maxSweeps : Nat := 10000
  /-- How many diagnostics are kept. Zero is no limit. -/
  maxDiagnostics : Nat := 0
  /-- The boundary that further location counters of a section start on. -/
  counterAlignment : Nat := 8
deriving DecidableEq

/-- Why settings cannot be had. -/
inductive SettingsError
  /-- There is nothing to read them from. -/
  | unreadable
  /-- The text does not describe settings. -/
  | malformed
  /-- The value of a parameter is out of range. -/
  | outOfRange (parameter : String) (value : Nat)
deriving DecidableEq

/-- The text for a value out of range; other errors have none. -/
def SettingsError.message? : SettingsError → Option String
  | outOfRange parameter value =>
    some ("invalid value for " ++ parameter ++ ": " ++ Numeral.signed value)
  | _ => none

namespace Settings

/-- The boundaries that counters may start on. -/
def boundaries : List Nat := [1, 2, 4, 8, 16, 32, 64, 128, 256, 512, 1024, 2048, 4096]

/-- Settings in which every value is in range. -/
def validate (s : Settings) : Except SettingsError Settings :=
  if s.counterAlignment ∉ boundaries then
    .error (.outOfRange "loctr_alignment" s.counterAlignment)
  else if s.maxSweeps = 0 then .error (.outOfRange "max_sweeps" 0)
  else .ok s

end Settings

end Assembler
