import Assembler.Layout.Basic
/-!
The catalog of assembler instructions: operation codes that the assembler itself carries out.
-/

namespace Assembler

/-- What an assembler instruction does to symbols and location counters. -/
inductive DirectiveRole
  | sectionStart (kind : SectionKind)
  | counterStart
  | equ
  /-- Storage, without contents if it is only reserved. -/
  | data (storageOnly : Bool)
  | org
  | macroStart
  | macroEnd
  /-- It takes part in conditional assembly only. -/
  | conditional
  /-- Nothing. -/
  | other
deriving DecidableEq

structure Directive where
  opcode : Name
  role : DirectiveRole
deriving DecidableEq

namespace Directive

def catalog : List Directive :=
  [⟨.ofString "CSECT", .sectionStart .executable⟩, ⟨.ofString "DSECT", .sectionStart .dummy⟩,
    ⟨.ofString "RSECT", .sectionStart .readOnly⟩, ⟨.ofString "COM", .sectionStart .common⟩,
    ⟨.ofString "DXD", .other⟩, ⟨.ofString "START", .sectionStart .executable⟩,
    ⟨.ofString "END", .other⟩, ⟨.ofString "LOCTR", .counterStart⟩, ⟨.ofString "DC", .data false⟩,
    ⟨.ofString "DS", .data true⟩, ⟨.ofString "CCW", .other⟩, ⟨.ofString "CCW0", .other⟩,
    ⟨.ofString "CCW1", .other⟩, ⟨.ofString "EQU", .equ⟩, ⟨.ofString "USING", .other⟩,
    ⟨.ofString "DROP", .other⟩, ⟨.ofString "ORG", .org⟩, ⟨.ofString "PUSH", .other⟩,
    ⟨.ofString "POP", .other⟩, ⟨.ofString "OPSYN", .other⟩, ⟨.ofString "ENTRY", .other⟩,
    ⟨.ofString "EXTRN", .other⟩, ⟨.ofString "WXTRN", .other⟩, ⟨.ofString "COPY", .other⟩,
    ⟨.ofString "LTORG", .other⟩, ⟨.ofString "CNOP", .other⟩, ⟨.ofString "AMODE", .other⟩,
    ⟨.ofString "RMODE", .other⟩, ⟨.ofString "PRINT", .other⟩, ⟨.ofString "TITLE", .other⟩,
    ⟨.ofString "EJECT", .other⟩, ⟨.ofString "SPACE", .other⟩, ⟨.ofString "PUNCH", .other⟩,
    ⟨.ofString "REPRO", .other⟩, ⟨.ofString "ACONTROL", .other⟩, ⟨.ofString "ADATA", .other⟩,
    ⟨.ofString "AINSERT", .other⟩, ⟨.ofString "EXITCTL", .other⟩, ⟨.ofString "XATTR", .other⟩,
    ⟨.ofString "CATTR", .other⟩, ⟨.ofString "ALIAS", .other⟩, ⟨.ofString "MACRO", .macroStart⟩,
    ⟨.ofString "MEND", .macroEnd⟩, ⟨.ofString "MEXIT", .conditional⟩,
    ⟨.ofString "MNOTE", .conditional⟩, ⟨.ofString "LCLA", .conditional⟩,
    ⟨.ofString "LCLB", .conditional⟩, ⟨.ofString "LCLC", .conditional⟩,
    ⟨.ofString "GBLA", .conditional⟩, ⟨.ofString "GBLB", .conditional⟩,
    ⟨.ofString "GBLC", .conditional⟩, ⟨.ofString "SETA", .conditional⟩,
    ⟨.ofString "SETB", .conditional⟩, ⟨.ofString "SETC", .conditional⟩,
    ⟨.ofString "AIF", .conditional⟩, ⟨.ofString "AGO", .conditional⟩,
    ⟨.ofString "ANOP", .conditional⟩, ⟨.ofString "ACTR", .conditional⟩,
    ⟨.ofString "AREAD", .conditional⟩, ⟨.ofString "ASPACE", .conditional⟩,
    ⟨.ofString "AEJECT", .conditional⟩]

/-- The assembler instruction with a given operation code. -/
def find? (opcode : Name) : Option Directive := catalog.find? (·.opcode = opcode)

/-- What the operation code means, if it is an assembler instruction. -/
def roleOf? (opcode : Name) : Option DirectiveRole := (find? opcode).map (·.role)

end Directive

end Assembler
