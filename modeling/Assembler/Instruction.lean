import Assembler.Name
/-!
The catalog of machine instructions: mnemonics, formats and lengths.

Extended mnemonics are branches on a condition that is part of the mnemonic. Where one of them is spelled
like another mnemonic, the entry further down the catalog counts.
-/

namespace Assembler

/-- The encoding formats of machine instructions. -/
inductive Format
  | e
  | i
  | rr
  | rre
  | rrf
  | rx
  | rxe
  | rxy
  | rs
  | rsy
  | ri
  | rie
  | ril
  | si
  | siy
  | sil
  | s
  | ss
  | sse
  | ssf
  | v
deriving DecidableEq

namespace Format

def all : List Format :=
  [e, i, rr, rre, rrf, rx, rxe, rxy, rs, rsy, ri, rie, ril, si,
    siy, sil, s, ss, sse, ssf, v]

/-- The name of a format; `V` stands for all vector formats. -/
def text : Format → String
  | e => "E"
  | i => "I"
  | rr => "RR"
  | rre => "RRE"
  | rrf => "RRF"
  | rx => "RX"
  | rxe => "RXE"
  | rxy => "RXY"
  | rs => "RS"
  | rsy => "RSY"
  | ri => "RI"
  | rie => "RIE"
  | ril => "RIL"
  | si => "SI"
  | siy => "SIY"
  | sil => "SIL"
  | s => "S"
  | ss => "SS"
  | sse => "SSE"
  | ssf => "SSF"
  | v => "V"

/-- The format with a given name. -/
def ofText? (s : String) : Option Format := all.find? (·.text = s)

/-- The length in bytes of an instruction. -/
def length : Format → Nat
  | e | i | rr => 2
  | rre | rrf | rx | rs | ri | si | s => 4
  | rxe | rxy | rsy | rie | ril | siy | sil | ss | sse | ssf | v => 6

end Format

inductive InstructionKind
  | machine
  /-- A branch on a condition that is part of the mnemonic. -/
  | extended
deriving DecidableEq

/-- The type letter of the operation code attribute. -/
def InstructionKind.letter : InstructionKind → Char
  | machine => 'O'
  | extended => 'E'

structure Instruction where
  mnemonic : Name
  format : Format
  kind : InstructionKind
deriving DecidableEq

namespace Instruction

def length (i : Instruction) : Nat := i.format.length

/-- The mnemonics of each format. -/
def machineMnemonics : List (Format × List String) :=
  [
    (.rr, ["LR", "CR", "AR", "SR", "MR", "DR", "ALR", "SLR", "LPDR", "LNDR", "LTDR", "LCDR", "HDR",
          "LDXR", "LDR", "CDR", "ADR", "SDR", "MDR", "DDR", "LER", "CER", "AER", "SER", "MER",
          "DER", "LPR", "LNR", "LTR", "LCR", "NR", "CLR", "OR", "XR", "BALR", "BCTR", "BCR",
          "BASR", "BASSM", "BSM", "SPM", "MVCL", "CLCL"]),
    (.i, ["SVC"]),
    (.e, ["PR", "UPT", "PFPO", "SAM24", "SAM31", "SAM64", "TRAP2"]),
    (.rre, ["LGR", "LGFR", "AGR", "SGR", "MSGR", "DSGR", "CGR", "CLGR", "NGR", "OGR", "XGR",
           "LTGR", "LCGR", "LPGR", "LNGR", "ALGR", "SLGR", "AGFR", "SGFR", "LLGFR", "LLGTR",
           "MSR", "IPM", "EAR", "SAR", "LURA", "STURA", "FLOGR", "LRVR", "LRVGR", "CKSM", "CUSE",
           "SRST", "MVST", "CLST", "TRE", "LBR", "LHR", "LLCR", "LLHR"]),
    (.rrf, ["MSRKC", "ARK", "SRK", "NRK", "ORK", "XRK", "AGRK", "SGRK", "LOCR", "LOCGR", "SELR"]),
    (.rx, ["L", "ST", "A", "S", "M", "D", "AL", "SL", "N", "O", "X", "C", "CL", "LA", "LH", "STH",
          "AH", "SH", "MH", "CH", "IC", "STC", "EX", "BAL", "BAS", "BC", "BCT", "LD", "STD", "LE",
          "STE", "CVB", "CVD", "AD", "SD", "MD", "DD", "CD", "AE", "SE", "ME", "DE", "CE"]),
    (.rxe, ["ADB", "SDB", "MDB", "DDB", "CDB", "AEB", "SEB", "MEEB", "DEB", "CEB", "LDEB"]),
    (.rxy, ["LG", "STG", "AG", "SG", "MSG", "DSG", "CG", "CLG", "NG", "OG", "XG", "LGF", "LGH",
           "LLGF", "LLGH", "LLGC", "LGB", "LAY", "LY", "STY", "AY", "SY", "CY", "LHY", "STHY",
           "ICY", "STCY", "LRV", "LRVG", "STRV", "LT", "LTG", "LB", "LLC", "LLH", "ALG", "SLG",
           "AGF", "SGF", "CGF", "NY", "OY", "XY", "LDY", "STDY"]),
    (.rs, ["LM", "STM", "SLL", "SRL", "SLA", "SRA", "SLDL", "SRDL", "SLDA", "SRDA", "BXH", "BXLE",
          "CS", "CDS", "ICM", "STCM", "CLM", "LAM", "STAM", "MVCLE", "CLCLE"]),
    (.rsy, ["LMG", "STMG", "SLLG", "SRLG", "SLAG", "SRAG", "CSG", "CDSG", "ICMH", "ICMY", "STCMY",
           "CLMY", "BXHG", "BXLEG", "RLL", "RLLG", "LMY", "STMY", "CSY", "LOC", "STOC", "LOCG",
           "STOCG"]),
    (.ri, ["LHI", "AHI", "MHI", "CHI", "LGHI", "AGHI", "MGHI", "CGHI", "TMLL", "TMLH", "TMHL",
          "TMHH", "IILL", "IILH", "IIHL", "IIHH", "NILL", "NILH", "NIHL", "NIHH", "OILL", "OILH",
          "OIHL", "OIHH", "BRAS", "BRC", "BRCT", "BRCTG", "BRXH", "BRXLE"]),
    (.rie, ["CRJ", "CGRJ", "CIJ", "CGIJ", "CLRJ", "CLGRJ", "CLIJ", "CLGIJ", "RISBG", "RISBGN",
           "RNSBG", "ROSBG", "RXSBG", "AHIK", "AGHIK"]),
    (.ril, ["LARL", "BRASL", "BRCL", "LGFI", "LLIHF", "LLILF", "IIHF", "IILF", "NIHF", "NILF",
           "OIHF", "OILF", "XIHF", "XILF", "AFI", "AGFI", "ALFI", "ALGFI", "SLFI", "SLGFI", "CFI",
           "CGFI", "CLFI", "CLGFI", "MSFI", "MSGFI", "LRL", "LGRL", "STRL", "STGRL", "EXRL"]),
    (.si, ["MVI", "CLI", "NI", "OI", "XI", "TM"]),
    (.siy, ["MVIY", "CLIY", "NIY", "OIY", "XIY", "TMY", "ASI", "AGSI"]),
    (.sil, ["MVHHI", "MVHI", "MVGHI", "CHHSI", "CHSI", "CGHSI", "CLHHSI", "CLFHSI", "CLGHSI"]),
    (.s, ["STCK", "STCKE", "STCKF", "SPKA", "IPK", "SSM", "LPSW", "LPSWE", "STIDP", "TS", "SRNM"]),
    (.ss, ["MVC", "CLC", "NC", "OC", "XC", "TR", "TRT", "ED", "EDMK", "MVN", "MVZ", "MVCIN",
          "PACK", "UNPK", "ZAP", "CP", "AP", "SP", "MP", "DP", "MVO", "SRP", "PKA", "PKU",
          "UNPKA", "UNPKU", "MVCK", "MVCP", "MVCS"]),
    (.sse, ["MVCDK", "MVCSK", "LASP", "TPROT"]),
    (.ssf, ["MVCOS", "ECTG", "CSST", "LPD", "LPDG"]),
    (.v, ["VL", "VST", "VLM", "VSTM", "VLR", "VLREP", "VLEB", "VLEH", "VLEF", "VLEG", "VA", "VS",
         "VN", "VO", "VX", "VCEQ", "VCH", "VCHL", "VMX", "VMN", "VSEL", "VFA", "VFS", "VFM",
         "VFD", "VFMA", "VFMS", "VREP", "VREPI", "VLVG", "VLGV", "VGBM", "VZERO", "VONE", "VPERM",
         "VISTR", "VFAE", "VFEE", "VFENE"])
  ]

/-- The conditions that mnemonics name; the empty one always holds. -/
def conditions : List String :=
  ["", "H", "L", "E", "NE", "NH", "NL", "Z", "NZ", "O", "NO", "P", "M", "NP", "NM"]

/-- The branches on a condition. -/
def branches (condition : String) : List (String × Format) :=
  [("B" ++ condition, .rx), ("B" ++ condition ++ "R", .rr), ("J" ++ condition, .ri),
    ("JL" ++ condition, .ril), ("BR" ++ condition, .ri)]

/-- Mnemonics for no operation and for branches without a condition. `BR` branches to the address in a
register. -/
def fixedBranches : List (String × Format) :=
  [("NOP", .rx), ("NOPR", .rr), ("JNOP", .ri), ("JLNOP", .ril), ("BRU", .ri), ("BRUL", .ril),
    ("JLU", .ril), ("BR", .rr)]

def catalog : List Instruction :=
  (machineMnemonics.flatMap fun (format, mnemonics) =>
    mnemonics.map fun m => ⟨.ofString m, format, .machine⟩) ++
  (conditions.flatMap branches ++ fixedBranches).map fun (m, format) =>
    ⟨.ofString m, format, .extended⟩

/-- The instruction with a given mnemonic. -/
def find? (n : Name) : Option Instruction := catalog.reverse.find? (·.mnemonic = n)

/-- The number of mnemonics. -/
def count : Nat := (catalog.map (·.mnemonic)).eraseDups.length

theorem find?_lr : find? (.ofString "LR") = some ⟨.ofString "LR", .rr, .machine⟩ := by decide +kernel

/-- `XX` is not a mnemonic. -/
theorem find?_xx : find? (.ofString "XX") = none := by decide +kernel

end Instruction

end Assembler
