/-!
The EBCDIC codes of the characters that assembler source is written in.

Codes of letters and digits lie in runs, each starting at a code of its own. A character without a
code is taken as a blank. Some special characters have a code but are never shown for it.
-/

namespace Assembler.Ebcdic

/-- Consecutive characters with consecutive codes. -/
structure Run where
  first : Char
  last : Char
  code : UInt8

def Run.encode? (r : Run) (c : Char) : Option UInt8 :=
  if r.first ≤ c ∧ c ≤ r.last then some (r.code + UInt8.ofNat (c.toNat - r.first.toNat)) else none

def Run.decode? (r : Run) (code : UInt8) : Option Char :=
  let c := Char.ofNat (r.first.toNat + (code.toNat - r.code.toNat))
  if r.code ≤ code ∧ c ≤ r.last then some c else none

/-- The characters that are shown for their code. -/
def shown : List Run :=
  [⟨' ', ' ', 0x40⟩, ⟨'0', '9', 0xF0⟩, ⟨'A', 'I', 0xC1⟩, ⟨'J', 'R', 0xD1⟩, ⟨'S', 'Z', 0xE2⟩,
    ⟨'a', 'i', 0x81⟩, ⟨'j', 'r', 0x91⟩, ⟨'s', 'z', 0xA2⟩, ⟨'.', '.', 0x4B⟩, ⟨'(', '(', 0x4D⟩,
    ⟨'+', '+', 0x4E⟩, ⟨'&', '&', 0x50⟩, ⟨'$', '$', 0x5B⟩, ⟨'*', '*', 0x5C⟩, ⟨')', ')', 0x5D⟩,
    ⟨'-', '-', 0x60⟩, ⟨'/', '/', 0x61⟩, ⟨',', ',', 0x6B⟩, ⟨'_', '_', 0x6D⟩, ⟨'#', '#', 0x7B⟩,
    ⟨'@', '@', 0x7C⟩, ⟨'\'', '\'', 0x7D⟩, ⟨'=', '=', 0x7E⟩]

/-- Further characters that have a code. -/
def unshown : List Run :=
  [⟨'<', '<', 0x4C⟩, ⟨'!', '!', 0x5A⟩, ⟨';', ';', 0x5E⟩, ⟨'%', '%', 0x6C⟩, ⟨'>', '>', 0x6E⟩,
    ⟨'?', '?', 0x6F⟩, ⟨':', ':', 0x7A⟩, ⟨'"', '"', 0x7F⟩]

def blank : UInt8 := 0x40

/-- The code of a character, or that of a blank if it has none. -/
def encode (c : Char) : UInt8 :=
  ((shown ++ unshown).findSome? (·.encode? c)).getD blank

/-- The character shown for a code. -/
def decode? (code : UInt8) : Option Char := shown.findSome? (·.decode? code)

/-- The character shown for a code has that code. -/
theorem encode_of_decode? {code : UInt8} {c : Char} (h : decode? code = some c) :
    encode c = code := by
  have all : ∀ n : Fin 256, (decode? (UInt8.ofNat n)).all fun c => encode c == UInt8.ofNat n := by
    decide +kernel
  have this := all ⟨code.toNat, code.toNat_lt⟩
  simpa [h] using this

end Assembler.Ebcdic
