/-
The instruction inventory and its decoder: `core/src/isa_table.cpp`,
`core/src/decode.cpp` and the tables' types in `core/include/opm/insn.hpp`.

The rows stand in the source's order, because a row's index is what the fetch
path caches and what the dispatch reads. They are grouped the way the source
groups them, so that a fact about every row can be checked a group at a time.

`decode`'s sub-tables are arrays filled in one pass over the rows, a later row
overwriting an earlier one. `lastRow` is that array read at one index: the last
row that would have been written there.
-/
import OpenPowerMac.Word

set_option autoImplicit false

namespace OpenPowerMac

/-- `Xk`: the opcode space of a row's extended opcode. -/
inductive Xk where
  | PRI | X19 | X31 | A59 | A63 | X63 | VA4 | VX4 | VXR4
  deriving DecidableEq

/-- `Pat`: the operand pattern. -/
inductive Pat where
  | NONE | RT_RA_RB | RT_RA | RT_RA_SI | RA_RS_RB | RA_RS | RA_RS_UI | RA_RS_SH
  | RT_D_RA | RS_D_RA | FRT_D_RA | FRS_D_RA | RS_RA_RB | FRT_RA_RB | FRS_RA_RB | CMP_SI
  | CMP_UI | CMP_RB | TW_RB | TW_SI | B | BC | BCLR | BCCTR
  | CRB3 | MCRF | RLWINM | RLWNM | MTCRF | MFCR | MFSPR | MTSPR
  | MFTB | MFMSR | MTMSR | MTSR | MFSR | MTSRIN | MFSRIN | RB_ONLY
  | RA_RB | LSWI | MCRXR | SC | FP2 | FP3 | FP3C | FP4
  | FCMP | MTFSF | MTFSFI | MTFSB | MCRFS | MFFS | VX3 | VX2B
  | VX_SPLAT | VX_SPLATIS | MFVSCR | MTVSCR | VA4P | VA_MADD | VSLDOI | VD_RA_RB
  | VS_RA_RB | DST | DSS
  deriving DecidableEq

def FL_RC : U16 := 0x001#16
def FL_OE : U16 := 0x002#16
def FL_LK : U16 := 0x004#16
def FL_AA : U16 := 0x008#16
def FL_PRIV : U16 := 0x010#16
def FL_ILL7400 : U16 := 0x020#16
def FL_TBIT : U16 := 0x040#16
def FL_ABIT : U16 := 0x080#16
def FL_VRC : U16 := 0x100#16

/-- `InsnDesc`: one row of the table. The handler is bound by mnemonic. -/
structure InsnDesc where
  mnem : String
  primary : ℕ
  kind : Xk
  xo : ℕ
  pat : Pat
  flags : U16

/-! ## The rows -/

/-- Primary-opcode integer arithmetic / compare / logical immediates. -/
def kIsaImm : List InsnDesc :=
  [ ⟨"twi", 3, .PRI, 0, .TW_SI, 0#16⟩,
    ⟨"mulli", 7, .PRI, 0, .RT_RA_SI, 0#16⟩,
    ⟨"subfic", 8, .PRI, 0, .RT_RA_SI, 0#16⟩,
    ⟨"cmpli", 10, .PRI, 0, .CMP_UI, 0#16⟩,
    ⟨"cmpi", 11, .PRI, 0, .CMP_SI, 0#16⟩,
    ⟨"addic", 12, .PRI, 0, .RT_RA_SI, 0#16⟩,
    ⟨"addic.", 13, .PRI, 0, .RT_RA_SI, 0#16⟩,
    ⟨"addi", 14, .PRI, 0, .RT_RA_SI, 0#16⟩,
    ⟨"addis", 15, .PRI, 0, .RT_RA_SI, 0#16⟩,
    ⟨"ori", 24, .PRI, 0, .RA_RS_UI, 0#16⟩,
    ⟨"oris", 25, .PRI, 0, .RA_RS_UI, 0#16⟩,
    ⟨"xori", 26, .PRI, 0, .RA_RS_UI, 0#16⟩,
    ⟨"xoris", 27, .PRI, 0, .RA_RS_UI, 0#16⟩,
    ⟨"andi.", 28, .PRI, 0, .RA_RS_UI, 0#16⟩,
    ⟨"andis.", 29, .PRI, 0, .RA_RS_UI, 0#16⟩ ]

/-- Branches / system call / rotates. -/
def kIsaBranch : List InsnDesc :=
  [ ⟨"bc", 16, .PRI, 0, .BC, FL_LK ||| FL_AA⟩,
    ⟨"sc", 17, .PRI, 0, .SC, 0#16⟩,
    ⟨"b", 18, .PRI, 0, .B, FL_LK ||| FL_AA⟩,
    ⟨"rlwimi", 20, .PRI, 0, .RLWINM, FL_RC⟩,
    ⟨"rlwinm", 21, .PRI, 0, .RLWINM, FL_RC⟩,
    ⟨"rlwnm", 23, .PRI, 0, .RLWNM, FL_RC⟩ ]

/-- Primary-opcode loads/stores. -/
def kIsaMem : List InsnDesc :=
  [ ⟨"lwz", 32, .PRI, 0, .RT_D_RA, 0#16⟩,
    ⟨"lwzu", 33, .PRI, 0, .RT_D_RA, 0#16⟩,
    ⟨"lbz", 34, .PRI, 0, .RT_D_RA, 0#16⟩,
    ⟨"lbzu", 35, .PRI, 0, .RT_D_RA, 0#16⟩,
    ⟨"stw", 36, .PRI, 0, .RS_D_RA, 0#16⟩,
    ⟨"stwu", 37, .PRI, 0, .RS_D_RA, 0#16⟩,
    ⟨"stb", 38, .PRI, 0, .RS_D_RA, 0#16⟩,
    ⟨"stbu", 39, .PRI, 0, .RS_D_RA, 0#16⟩,
    ⟨"lhz", 40, .PRI, 0, .RT_D_RA, 0#16⟩,
    ⟨"lhzu", 41, .PRI, 0, .RT_D_RA, 0#16⟩,
    ⟨"lha", 42, .PRI, 0, .RT_D_RA, 0#16⟩,
    ⟨"lhau", 43, .PRI, 0, .RT_D_RA, 0#16⟩,
    ⟨"sth", 44, .PRI, 0, .RS_D_RA, 0#16⟩,
    ⟨"sthu", 45, .PRI, 0, .RS_D_RA, 0#16⟩,
    ⟨"lmw", 46, .PRI, 0, .RT_D_RA, 0#16⟩,
    ⟨"stmw", 47, .PRI, 0, .RS_D_RA, 0#16⟩,
    ⟨"lfs", 48, .PRI, 0, .FRT_D_RA, 0#16⟩,
    ⟨"lfsu", 49, .PRI, 0, .FRT_D_RA, 0#16⟩,
    ⟨"lfd", 50, .PRI, 0, .FRT_D_RA, 0#16⟩,
    ⟨"lfdu", 51, .PRI, 0, .FRT_D_RA, 0#16⟩,
    ⟨"stfs", 52, .PRI, 0, .FRS_D_RA, 0#16⟩,
    ⟨"stfsu", 53, .PRI, 0, .FRS_D_RA, 0#16⟩,
    ⟨"stfd", 54, .PRI, 0, .FRS_D_RA, 0#16⟩,
    ⟨"stfdu", 55, .PRI, 0, .FRS_D_RA, 0#16⟩ ]

/-- Opcode 19 (XL form). -/
def kIsa19 : List InsnDesc :=
  [ ⟨"mcrf", 19, .X19, 0, .MCRF, 0#16⟩,
    ⟨"bclr", 19, .X19, 16, .BCLR, FL_LK⟩,
    ⟨"crnor", 19, .X19, 33, .CRB3, 0#16⟩,
    ⟨"rfi", 19, .X19, 50, .NONE, FL_PRIV⟩,
    ⟨"crandc", 19, .X19, 129, .CRB3, 0#16⟩,
    ⟨"isync", 19, .X19, 150, .NONE, 0#16⟩,
    ⟨"crxor", 19, .X19, 193, .CRB3, 0#16⟩,
    ⟨"crnand", 19, .X19, 225, .CRB3, 0#16⟩,
    ⟨"crand", 19, .X19, 257, .CRB3, 0#16⟩,
    ⟨"creqv", 19, .X19, 289, .CRB3, 0#16⟩,
    ⟨"crorc", 19, .X19, 417, .CRB3, 0#16⟩,
    ⟨"cror", 19, .X19, 449, .CRB3, 0#16⟩,
    ⟨"bcctr", 19, .X19, 528, .BCCTR, FL_LK⟩ ]

/-- Opcode 31: XO-form integer arithmetic (OE variants fold to xo+512). -/
def kIsaXo : List InsnDesc :=
  [ ⟨"subfc", 31, .X31, 8, .RT_RA_RB, FL_RC ||| FL_OE⟩,
    ⟨"addc", 31, .X31, 10, .RT_RA_RB, FL_RC ||| FL_OE⟩,
    ⟨"mulhwu", 31, .X31, 11, .RT_RA_RB, FL_RC⟩,
    ⟨"subf", 31, .X31, 40, .RT_RA_RB, FL_RC ||| FL_OE⟩,
    ⟨"mulhw", 31, .X31, 75, .RT_RA_RB, FL_RC⟩,
    ⟨"neg", 31, .X31, 104, .RT_RA, FL_RC ||| FL_OE⟩,
    ⟨"subfe", 31, .X31, 136, .RT_RA_RB, FL_RC ||| FL_OE⟩,
    ⟨"adde", 31, .X31, 138, .RT_RA_RB, FL_RC ||| FL_OE⟩,
    ⟨"subfze", 31, .X31, 200, .RT_RA, FL_RC ||| FL_OE⟩,
    ⟨"addze", 31, .X31, 202, .RT_RA, FL_RC ||| FL_OE⟩,
    ⟨"subfme", 31, .X31, 232, .RT_RA, FL_RC ||| FL_OE⟩,
    ⟨"addme", 31, .X31, 234, .RT_RA, FL_RC ||| FL_OE⟩,
    ⟨"mullw", 31, .X31, 235, .RT_RA_RB, FL_RC ||| FL_OE⟩,
    ⟨"add", 31, .X31, 266, .RT_RA_RB, FL_RC ||| FL_OE⟩,
    ⟨"divwu", 31, .X31, 459, .RT_RA_RB, FL_RC ||| FL_OE⟩,
    ⟨"divw", 31, .X31, 491, .RT_RA_RB, FL_RC ||| FL_OE⟩ ]

/-- Opcode 31: compares / traps / logicals / shifts. -/
def kIsaLogic : List InsnDesc :=
  [ ⟨"tw", 31, .X31, 4, .TW_RB, 0#16⟩,
    ⟨"cmp", 31, .X31, 0, .CMP_RB, 0#16⟩,
    ⟨"cmpl", 31, .X31, 32, .CMP_RB, 0#16⟩,
    ⟨"slw", 31, .X31, 24, .RA_RS_RB, FL_RC⟩,
    ⟨"cntlzw", 31, .X31, 26, .RA_RS, FL_RC⟩,
    ⟨"and", 31, .X31, 28, .RA_RS_RB, FL_RC⟩,
    ⟨"andc", 31, .X31, 60, .RA_RS_RB, FL_RC⟩,
    ⟨"nor", 31, .X31, 124, .RA_RS_RB, FL_RC⟩,
    ⟨"eqv", 31, .X31, 284, .RA_RS_RB, FL_RC⟩,
    ⟨"xor", 31, .X31, 316, .RA_RS_RB, FL_RC⟩,
    ⟨"orc", 31, .X31, 412, .RA_RS_RB, FL_RC⟩,
    ⟨"or", 31, .X31, 444, .RA_RS_RB, FL_RC⟩,
    ⟨"nand", 31, .X31, 476, .RA_RS_RB, FL_RC⟩,
    ⟨"srw", 31, .X31, 536, .RA_RS_RB, FL_RC⟩,
    ⟨"sraw", 31, .X31, 792, .RA_RS_RB, FL_RC⟩,
    ⟨"srawi", 31, .X31, 824, .RA_RS_SH, FL_RC⟩,
    ⟨"extsh", 31, .X31, 922, .RA_RS, FL_RC⟩,
    ⟨"extsb", 31, .X31, 954, .RA_RS, FL_RC⟩ ]

/-- Opcode 31: indexed loads/stores. -/
def kIsaIndexed : List InsnDesc :=
  [ ⟨"lwarx", 31, .X31, 20, .RT_RA_RB, 0#16⟩,
    ⟨"lwzx", 31, .X31, 23, .RT_RA_RB, 0#16⟩,
    ⟨"lwzux", 31, .X31, 55, .RT_RA_RB, 0#16⟩,
    ⟨"lbzx", 31, .X31, 87, .RT_RA_RB, 0#16⟩,
    ⟨"lbzux", 31, .X31, 119, .RT_RA_RB, 0#16⟩,
    ⟨"stwcx.", 31, .X31, 150, .RS_RA_RB, 0#16⟩,
    ⟨"stwx", 31, .X31, 151, .RS_RA_RB, 0#16⟩,
    ⟨"stwux", 31, .X31, 183, .RS_RA_RB, 0#16⟩,
    ⟨"stbx", 31, .X31, 215, .RS_RA_RB, 0#16⟩,
    ⟨"stbux", 31, .X31, 247, .RS_RA_RB, 0#16⟩,
    ⟨"lhzx", 31, .X31, 279, .RT_RA_RB, 0#16⟩,
    ⟨"lhzux", 31, .X31, 311, .RT_RA_RB, 0#16⟩,
    ⟨"lhax", 31, .X31, 343, .RT_RA_RB, 0#16⟩,
    ⟨"lhaux", 31, .X31, 375, .RT_RA_RB, 0#16⟩,
    ⟨"sthx", 31, .X31, 407, .RS_RA_RB, 0#16⟩,
    ⟨"sthux", 31, .X31, 439, .RS_RA_RB, 0#16⟩,
    ⟨"lswx", 31, .X31, 533, .RT_RA_RB, 0#16⟩,
    ⟨"lwbrx", 31, .X31, 534, .RT_RA_RB, 0#16⟩,
    ⟨"lswi", 31, .X31, 597, .LSWI, 0#16⟩,
    ⟨"stswx", 31, .X31, 661, .RS_RA_RB, 0#16⟩,
    ⟨"stwbrx", 31, .X31, 662, .RS_RA_RB, 0#16⟩,
    ⟨"stswi", 31, .X31, 725, .LSWI, 0#16⟩,
    ⟨"lhbrx", 31, .X31, 790, .RT_RA_RB, 0#16⟩,
    ⟨"sthbrx", 31, .X31, 918, .RS_RA_RB, 0#16⟩,
    ⟨"lfsx", 31, .X31, 535, .FRT_RA_RB, 0#16⟩,
    ⟨"lfsux", 31, .X31, 567, .FRT_RA_RB, 0#16⟩,
    ⟨"lfdx", 31, .X31, 599, .FRT_RA_RB, 0#16⟩,
    ⟨"lfdux", 31, .X31, 631, .FRT_RA_RB, 0#16⟩,
    ⟨"stfsx", 31, .X31, 663, .FRS_RA_RB, 0#16⟩,
    ⟨"stfsux", 31, .X31, 695, .FRS_RA_RB, 0#16⟩,
    ⟨"stfdx", 31, .X31, 727, .FRS_RA_RB, 0#16⟩,
    ⟨"stfdux", 31, .X31, 759, .FRS_RA_RB, 0#16⟩,
    ⟨"stfiwx", 31, .X31, 983, .FRS_RA_RB, 0#16⟩,
    ⟨"eciwx", 31, .X31, 310, .RT_RA_RB, 0#16⟩,
    ⟨"ecowx", 31, .X31, 438, .RS_RA_RB, 0#16⟩ ]

/-- Opcode 31: system / cache / sync / segment / TLB. -/
def kIsaSystem : List InsnDesc :=
  [ ⟨"mfcr", 31, .X31, 19, .MFCR, 0#16⟩,
    ⟨"mfmsr", 31, .X31, 83, .MFMSR, FL_PRIV⟩,
    ⟨"dcbst", 31, .X31, 54, .RA_RB, 0#16⟩,
    ⟨"dcbf", 31, .X31, 86, .RA_RB, 0#16⟩,
    ⟨"mtcrf", 31, .X31, 144, .MTCRF, 0#16⟩,
    ⟨"mtmsr", 31, .X31, 146, .MTMSR, FL_PRIV⟩,
    ⟨"mtsr", 31, .X31, 210, .MTSR, FL_PRIV⟩,
    ⟨"mtsrin", 31, .X31, 242, .MTSRIN, FL_PRIV⟩,
    ⟨"dcbtst", 31, .X31, 246, .RA_RB, 0#16⟩,
    ⟨"dcbt", 31, .X31, 278, .RA_RB, 0#16⟩,
    ⟨"tlbie", 31, .X31, 306, .RB_ONLY, FL_PRIV⟩,
    ⟨"mfspr", 31, .X31, 339, .MFSPR, 0#16⟩,
    ⟨"tlbia", 31, .X31, 370, .NONE, FL_PRIV ||| FL_ILL7400⟩,
    ⟨"mftb", 31, .X31, 371, .MFTB, 0#16⟩,
    ⟨"mtspr", 31, .X31, 467, .MTSPR, 0#16⟩,
    ⟨"dcbi", 31, .X31, 470, .RA_RB, FL_PRIV⟩,
    ⟨"mcrxr", 31, .X31, 512, .MCRXR, 0#16⟩,
    ⟨"tlbsync", 31, .X31, 566, .NONE, FL_PRIV⟩,
    ⟨"mfsr", 31, .X31, 595, .MFSR, FL_PRIV⟩,
    ⟨"sync", 31, .X31, 598, .NONE, 0#16⟩,
    ⟨"mfsrin", 31, .X31, 659, .MFSRIN, FL_PRIV⟩,
    ⟨"dcba", 31, .X31, 758, .RA_RB, 0#16⟩,
    ⟨"eieio", 31, .X31, 854, .NONE, 0#16⟩,
    ⟨"icbi", 31, .X31, 982, .RA_RB, 0#16⟩,
    ⟨"dcbz", 31, .X31, 1014, .RA_RB, 0#16⟩ ]

/-- Opcode 31: AltiVec loads/stores and data streams. -/
def kIsaVecMem : List InsnDesc :=
  [ ⟨"lvsl", 31, .X31, 6, .VD_RA_RB, 0#16⟩,
    ⟨"lvebx", 31, .X31, 7, .VD_RA_RB, 0#16⟩,
    ⟨"lvsr", 31, .X31, 38, .VD_RA_RB, 0#16⟩,
    ⟨"lvehx", 31, .X31, 39, .VD_RA_RB, 0#16⟩,
    ⟨"lvewx", 31, .X31, 71, .VD_RA_RB, 0#16⟩,
    ⟨"lvx", 31, .X31, 103, .VD_RA_RB, 0#16⟩,
    ⟨"stvebx", 31, .X31, 135, .VS_RA_RB, 0#16⟩,
    ⟨"stvehx", 31, .X31, 167, .VS_RA_RB, 0#16⟩,
    ⟨"stvewx", 31, .X31, 199, .VS_RA_RB, 0#16⟩,
    ⟨"stvx", 31, .X31, 231, .VS_RA_RB, 0#16⟩,
    ⟨"dst", 31, .X31, 342, .DST, FL_TBIT⟩,
    ⟨"lvxl", 31, .X31, 359, .VD_RA_RB, 0#16⟩,
    ⟨"dstst", 31, .X31, 374, .DST, FL_TBIT⟩,
    ⟨"stvxl", 31, .X31, 487, .VS_RA_RB, 0#16⟩,
    ⟨"dss", 31, .X31, 822, .DSS, FL_ABIT⟩ ]

/-- Opcode 59: single-precision FP (A-form, 5-bit XO). -/
def kIsa59 : List InsnDesc :=
  [ ⟨"fdivs", 59, .A59, 18, .FP3, FL_RC⟩,
    ⟨"fsubs", 59, .A59, 20, .FP3, FL_RC⟩,
    ⟨"fadds", 59, .A59, 21, .FP3, FL_RC⟩,
    ⟨"fsqrts", 59, .A59, 22, .FP2, FL_RC ||| FL_ILL7400⟩,
    ⟨"fres", 59, .A59, 24, .FP2, FL_RC⟩,
    ⟨"fmuls", 59, .A59, 25, .FP3C, FL_RC⟩,
    ⟨"fmsubs", 59, .A59, 28, .FP4, FL_RC⟩,
    ⟨"fmadds", 59, .A59, 29, .FP4, FL_RC⟩,
    ⟨"fnmsubs", 59, .A59, 30, .FP4, FL_RC⟩,
    ⟨"fnmadds", 59, .A59, 31, .FP4, FL_RC⟩ ]

/-- Opcode 63: double-precision FP (A-form, 5-bit XO). -/
def kIsaA63 : List InsnDesc :=
  [ ⟨"fdiv", 63, .A63, 18, .FP3, FL_RC⟩,
    ⟨"fsub", 63, .A63, 20, .FP3, FL_RC⟩,
    ⟨"fadd", 63, .A63, 21, .FP3, FL_RC⟩,
    ⟨"fsqrt", 63, .A63, 22, .FP2, FL_RC ||| FL_ILL7400⟩,
    ⟨"fsel", 63, .A63, 23, .FP4, FL_RC⟩,
    ⟨"fmul", 63, .A63, 25, .FP3C, FL_RC⟩,
    ⟨"frsqrte", 63, .A63, 26, .FP2, FL_RC⟩,
    ⟨"fmsub", 63, .A63, 28, .FP4, FL_RC⟩,
    ⟨"fmadd", 63, .A63, 29, .FP4, FL_RC⟩,
    ⟨"fnmsub", 63, .A63, 30, .FP4, FL_RC⟩,
    ⟨"fnmadd", 63, .A63, 31, .FP4, FL_RC⟩ ]

/-- Opcode 63: X-form FP (10-bit XO). -/
def kIsaX63 : List InsnDesc :=
  [ ⟨"fcmpu", 63, .X63, 0, .FCMP, 0#16⟩,
    ⟨"frsp", 63, .X63, 12, .FP2, FL_RC⟩,
    ⟨"fctiw", 63, .X63, 14, .FP2, FL_RC⟩,
    ⟨"fctiwz", 63, .X63, 15, .FP2, FL_RC⟩,
    ⟨"fcmpo", 63, .X63, 32, .FCMP, 0#16⟩,
    ⟨"mtfsb1", 63, .X63, 38, .MTFSB, FL_RC⟩,
    ⟨"fneg", 63, .X63, 40, .FP2, FL_RC⟩,
    ⟨"mcrfs", 63, .X63, 64, .MCRFS, 0#16⟩,
    ⟨"mtfsb0", 63, .X63, 70, .MTFSB, FL_RC⟩,
    ⟨"fmr", 63, .X63, 72, .FP2, FL_RC⟩,
    ⟨"mtfsfi", 63, .X63, 134, .MTFSFI, FL_RC⟩,
    ⟨"fnabs", 63, .X63, 136, .FP2, FL_RC⟩,
    ⟨"fabs", 63, .X63, 264, .FP2, FL_RC⟩,
    ⟨"mffs", 63, .X63, 583, .MFFS, FL_RC⟩,
    ⟨"mtfsf", 63, .X63, 711, .MTFSF, FL_RC⟩ ]

/-- Opcode 4: AltiVec VA-form (6-bit XO). -/
def kIsaVa : List InsnDesc :=
  [ ⟨"vmhaddshs", 4, .VA4, 32, .VA4P, 0#16⟩,
    ⟨"vmhraddshs", 4, .VA4, 33, .VA4P, 0#16⟩,
    ⟨"vmladduhm", 4, .VA4, 34, .VA4P, 0#16⟩,
    ⟨"vmsumubm", 4, .VA4, 36, .VA4P, 0#16⟩,
    ⟨"vmsummbm", 4, .VA4, 37, .VA4P, 0#16⟩,
    ⟨"vmsumuhm", 4, .VA4, 38, .VA4P, 0#16⟩,
    ⟨"vmsumuhs", 4, .VA4, 39, .VA4P, 0#16⟩,
    ⟨"vmsumshm", 4, .VA4, 40, .VA4P, 0#16⟩,
    ⟨"vmsumshs", 4, .VA4, 41, .VA4P, 0#16⟩,
    ⟨"vsel", 4, .VA4, 42, .VA4P, 0#16⟩,
    ⟨"vperm", 4, .VA4, 43, .VA4P, 0#16⟩,
    ⟨"vsldoi", 4, .VA4, 44, .VSLDOI, 0#16⟩,
    ⟨"vmaddfp", 4, .VA4, 46, .VA_MADD, 0#16⟩,
    ⟨"vnmsubfp", 4, .VA4, 47, .VA_MADD, 0#16⟩ ]

/-- Opcode 4: AltiVec VXR-form compares (10-bit XO + record bit). -/
def kIsaVxr : List InsnDesc :=
  [ ⟨"vcmpequb", 4, .VXR4, 6, .VX3, FL_VRC⟩,
    ⟨"vcmpequh", 4, .VXR4, 70, .VX3, FL_VRC⟩,
    ⟨"vcmpequw", 4, .VXR4, 134, .VX3, FL_VRC⟩,
    ⟨"vcmpeqfp", 4, .VXR4, 198, .VX3, FL_VRC⟩,
    ⟨"vcmpgefp", 4, .VXR4, 454, .VX3, FL_VRC⟩,
    ⟨"vcmpgtub", 4, .VXR4, 518, .VX3, FL_VRC⟩,
    ⟨"vcmpgtuh", 4, .VXR4, 582, .VX3, FL_VRC⟩,
    ⟨"vcmpgtuw", 4, .VXR4, 646, .VX3, FL_VRC⟩,
    ⟨"vcmpgtfp", 4, .VXR4, 710, .VX3, FL_VRC⟩,
    ⟨"vcmpgtsb", 4, .VXR4, 774, .VX3, FL_VRC⟩,
    ⟨"vcmpgtsh", 4, .VXR4, 838, .VX3, FL_VRC⟩,
    ⟨"vcmpgtsw", 4, .VXR4, 902, .VX3, FL_VRC⟩,
    ⟨"vcmpbfp", 4, .VXR4, 966, .VX3, FL_VRC⟩ ]

/-- Opcode 4: AltiVec VX-form (11-bit XO). -/
def kIsaVx : List InsnDesc :=
  [ ⟨"vaddubm", 4, .VX4, 0, .VX3, 0#16⟩,
    ⟨"vmaxub", 4, .VX4, 2, .VX3, 0#16⟩,
    ⟨"vrlb", 4, .VX4, 4, .VX3, 0#16⟩,
    ⟨"vmuloub", 4, .VX4, 8, .VX3, 0#16⟩,
    ⟨"vaddfp", 4, .VX4, 10, .VX3, 0#16⟩,
    ⟨"vmrghb", 4, .VX4, 12, .VX3, 0#16⟩,
    ⟨"vpkuhum", 4, .VX4, 14, .VX3, 0#16⟩,
    ⟨"vadduhm", 4, .VX4, 64, .VX3, 0#16⟩,
    ⟨"vmaxuh", 4, .VX4, 66, .VX3, 0#16⟩,
    ⟨"vrlh", 4, .VX4, 68, .VX3, 0#16⟩,
    ⟨"vmulouh", 4, .VX4, 72, .VX3, 0#16⟩,
    ⟨"vsubfp", 4, .VX4, 74, .VX3, 0#16⟩,
    ⟨"vmrghh", 4, .VX4, 76, .VX3, 0#16⟩,
    ⟨"vpkuwum", 4, .VX4, 78, .VX3, 0#16⟩,
    ⟨"vadduwm", 4, .VX4, 128, .VX3, 0#16⟩,
    ⟨"vmaxuw", 4, .VX4, 130, .VX3, 0#16⟩,
    ⟨"vrlw", 4, .VX4, 132, .VX3, 0#16⟩,
    ⟨"vmrghw", 4, .VX4, 140, .VX3, 0#16⟩,
    ⟨"vpkuhus", 4, .VX4, 142, .VX3, 0#16⟩,
    ⟨"vpkuwus", 4, .VX4, 206, .VX3, 0#16⟩,
    ⟨"vmaxsb", 4, .VX4, 258, .VX3, 0#16⟩,
    ⟨"vslb", 4, .VX4, 260, .VX3, 0#16⟩,
    ⟨"vmulosb", 4, .VX4, 264, .VX3, 0#16⟩,
    ⟨"vrefp", 4, .VX4, 266, .VX2B, 0#16⟩,
    ⟨"vmrglb", 4, .VX4, 268, .VX3, 0#16⟩,
    ⟨"vpkshus", 4, .VX4, 270, .VX3, 0#16⟩,
    ⟨"vmaxsh", 4, .VX4, 322, .VX3, 0#16⟩,
    ⟨"vslh", 4, .VX4, 324, .VX3, 0#16⟩,
    ⟨"vmulosh", 4, .VX4, 328, .VX3, 0#16⟩,
    ⟨"vrsqrtefp", 4, .VX4, 330, .VX2B, 0#16⟩,
    ⟨"vmrglh", 4, .VX4, 332, .VX3, 0#16⟩,
    ⟨"vpkswus", 4, .VX4, 334, .VX3, 0#16⟩,
    ⟨"vaddcuw", 4, .VX4, 384, .VX3, 0#16⟩,
    ⟨"vmaxsw", 4, .VX4, 386, .VX3, 0#16⟩,
    ⟨"vslw", 4, .VX4, 388, .VX3, 0#16⟩,
    ⟨"vexptefp", 4, .VX4, 394, .VX2B, 0#16⟩,
    ⟨"vmrglw", 4, .VX4, 396, .VX3, 0#16⟩,
    ⟨"vpkshss", 4, .VX4, 398, .VX3, 0#16⟩,
    ⟨"vsl", 4, .VX4, 452, .VX3, 0#16⟩,
    ⟨"vlogefp", 4, .VX4, 458, .VX2B, 0#16⟩,
    ⟨"vpkswss", 4, .VX4, 462, .VX3, 0#16⟩,
    ⟨"vaddubs", 4, .VX4, 512, .VX3, 0#16⟩,
    ⟨"vminub", 4, .VX4, 514, .VX3, 0#16⟩,
    ⟨"vsrb", 4, .VX4, 516, .VX3, 0#16⟩,
    ⟨"vmuleub", 4, .VX4, 520, .VX3, 0#16⟩,
    ⟨"vrfin", 4, .VX4, 522, .VX2B, 0#16⟩,
    ⟨"vspltb", 4, .VX4, 524, .VX_SPLAT, 0#16⟩,
    ⟨"vupkhsb", 4, .VX4, 526, .VX2B, 0#16⟩,
    ⟨"vadduhs", 4, .VX4, 576, .VX3, 0#16⟩,
    ⟨"vminuh", 4, .VX4, 578, .VX3, 0#16⟩,
    ⟨"vsrh", 4, .VX4, 580, .VX3, 0#16⟩,
    ⟨"vmuleuh", 4, .VX4, 584, .VX3, 0#16⟩,
    ⟨"vrfiz", 4, .VX4, 586, .VX2B, 0#16⟩,
    ⟨"vsplth", 4, .VX4, 588, .VX_SPLAT, 0#16⟩,
    ⟨"vupkhsh", 4, .VX4, 590, .VX2B, 0#16⟩,
    ⟨"vadduws", 4, .VX4, 640, .VX3, 0#16⟩,
    ⟨"vminuw", 4, .VX4, 642, .VX3, 0#16⟩,
    ⟨"vsrw", 4, .VX4, 644, .VX3, 0#16⟩,
    ⟨"vrfip", 4, .VX4, 650, .VX2B, 0#16⟩,
    ⟨"vspltw", 4, .VX4, 652, .VX_SPLAT, 0#16⟩,
    ⟨"vupklsb", 4, .VX4, 654, .VX2B, 0#16⟩,
    ⟨"vsr", 4, .VX4, 708, .VX3, 0#16⟩,
    ⟨"vrfim", 4, .VX4, 714, .VX2B, 0#16⟩,
    ⟨"vupklsh", 4, .VX4, 718, .VX2B, 0#16⟩,
    ⟨"vaddsbs", 4, .VX4, 768, .VX3, 0#16⟩,
    ⟨"vminsb", 4, .VX4, 770, .VX3, 0#16⟩,
    ⟨"vsrab", 4, .VX4, 772, .VX3, 0#16⟩,
    ⟨"vmulesb", 4, .VX4, 776, .VX3, 0#16⟩,
    ⟨"vcfux", 4, .VX4, 778, .VX_SPLAT, 0#16⟩,
    ⟨"vspltisb", 4, .VX4, 780, .VX_SPLATIS, 0#16⟩,
    ⟨"vpkpx", 4, .VX4, 782, .VX3, 0#16⟩,
    ⟨"vaddshs", 4, .VX4, 832, .VX3, 0#16⟩,
    ⟨"vminsh", 4, .VX4, 834, .VX3, 0#16⟩,
    ⟨"vsrah", 4, .VX4, 836, .VX3, 0#16⟩,
    ⟨"vmulesh", 4, .VX4, 840, .VX3, 0#16⟩,
    ⟨"vcfsx", 4, .VX4, 842, .VX_SPLAT, 0#16⟩,
    ⟨"vspltish", 4, .VX4, 844, .VX_SPLATIS, 0#16⟩,
    ⟨"vupkhpx", 4, .VX4, 846, .VX2B, 0#16⟩,
    ⟨"vaddsws", 4, .VX4, 896, .VX3, 0#16⟩,
    ⟨"vminsw", 4, .VX4, 898, .VX3, 0#16⟩,
    ⟨"vsraw", 4, .VX4, 900, .VX3, 0#16⟩,
    ⟨"vctuxs", 4, .VX4, 906, .VX_SPLAT, 0#16⟩,
    ⟨"vspltisw", 4, .VX4, 908, .VX_SPLATIS, 0#16⟩,
    ⟨"vctsxs", 4, .VX4, 970, .VX_SPLAT, 0#16⟩,
    ⟨"vupklpx", 4, .VX4, 974, .VX2B, 0#16⟩,
    ⟨"vsububm", 4, .VX4, 1024, .VX3, 0#16⟩,
    ⟨"vavgub", 4, .VX4, 1026, .VX3, 0#16⟩,
    ⟨"vand", 4, .VX4, 1028, .VX3, 0#16⟩,
    ⟨"vmaxfp", 4, .VX4, 1034, .VX3, 0#16⟩,
    ⟨"vslo", 4, .VX4, 1036, .VX3, 0#16⟩,
    ⟨"vsubuhm", 4, .VX4, 1088, .VX3, 0#16⟩,
    ⟨"vavguh", 4, .VX4, 1090, .VX3, 0#16⟩,
    ⟨"vandc", 4, .VX4, 1092, .VX3, 0#16⟩,
    ⟨"vminfp", 4, .VX4, 1098, .VX3, 0#16⟩,
    ⟨"vsro", 4, .VX4, 1100, .VX3, 0#16⟩,
    ⟨"vsubuwm", 4, .VX4, 1152, .VX3, 0#16⟩,
    ⟨"vavguw", 4, .VX4, 1154, .VX3, 0#16⟩,
    ⟨"vor", 4, .VX4, 1156, .VX3, 0#16⟩,
    ⟨"vxor", 4, .VX4, 1220, .VX3, 0#16⟩,
    ⟨"vavgsb", 4, .VX4, 1282, .VX3, 0#16⟩,
    ⟨"vnor", 4, .VX4, 1284, .VX3, 0#16⟩,
    ⟨"vavgsh", 4, .VX4, 1346, .VX3, 0#16⟩,
    ⟨"vsubcuw", 4, .VX4, 1408, .VX3, 0#16⟩,
    ⟨"vavgsw", 4, .VX4, 1410, .VX3, 0#16⟩,
    ⟨"vsububs", 4, .VX4, 1536, .VX3, 0#16⟩,
    ⟨"mfvscr", 4, .VX4, 1540, .MFVSCR, 0#16⟩,
    ⟨"vsum4ubs", 4, .VX4, 1544, .VX3, 0#16⟩,
    ⟨"vsubuhs", 4, .VX4, 1600, .VX3, 0#16⟩,
    ⟨"mtvscr", 4, .VX4, 1604, .MTVSCR, 0#16⟩,
    ⟨"vsum4shs", 4, .VX4, 1608, .VX3, 0#16⟩,
    ⟨"vsubuws", 4, .VX4, 1664, .VX3, 0#16⟩,
    ⟨"vsum2sws", 4, .VX4, 1672, .VX3, 0#16⟩,
    ⟨"vsubsbs", 4, .VX4, 1792, .VX3, 0#16⟩,
    ⟨"vsum4sbs", 4, .VX4, 1800, .VX3, 0#16⟩,
    ⟨"vsubshs", 4, .VX4, 1856, .VX3, 0#16⟩,
    ⟨"vsubsws", 4, .VX4, 1920, .VX3, 0#16⟩,
    ⟨"vsumsws", 4, .VX4, 1928, .VX3, 0#16⟩ ]

/-- `kIsa`. -/
def kIsa : List InsnDesc :=
  kIsaImm ++ kIsaBranch ++ kIsaMem ++ kIsa19 ++ kIsaXo ++ kIsaLogic ++ kIsaIndexed
    ++ kIsaSystem ++ kIsaVecMem ++ kIsa59 ++ kIsaA63 ++ kIsaX63 ++ kIsaVa ++ kIsaVxr ++ kIsaVx

/-! ## Decode -/

/-- The last row, by index, that a sub-table was filled with at a slot. -/
def lastRow (fills : InsnDesc → Bool) : Option ℕ :=
  (kIsa.zipIdx.foldl (fun found row => if fills row.1 then some row.2 else found) none)

/-- The X31 table's slots: the OE form of a row is registered 512 above it. -/
def fillsX31 (xo : ℕ) (d : InsnDesc) : Bool :=
  d.kind = .X31 && (d.xo == xo || (d.flags &&& FL_OE != 0#16 && d.xo + 512 == xo))

/-- The VX table's slots: a VXR row is registered with its record bit both ways. -/
def fillsVx (xo : ℕ) (d : InsnDesc) : Bool :=
  (d.kind = .VX4 && d.xo == xo) || (d.kind = .VXR4 && (d.xo == xo || d.xo + 1024 == xo))

/-- The tables with one slot for each row. -/
def fillsAt (kind : Xk) (xo : ℕ) (d : InsnDesc) : Bool := d.kind = kind && d.xo == xo

/-- `decode`: the row index of a word, if any row decodes it. -/
def decode (insn : U32) : Option ℕ :=
  let op := (f_primary insn).toNat
  if op = 4 then
    match lastRow (fillsAt .VA4 (f_xo6v insn).toNat) with
    | some d => some d
    | none => lastRow (fillsVx (f_xo11v insn).toNat)
  else if op = 19 then lastRow (fillsAt .X19 (f_xo10 insn).toNat)
  else if op = 31 then lastRow (fillsX31 (f_xo10 insn).toNat)
  else if op = 59 then lastRow (fillsAt .A59 (f_xo5 insn).toNat)
  else if op = 63 then
    if 16 ≤ (f_xo5 insn).toNat then lastRow (fillsAt .A63 (f_xo5 insn).toNat)
    else lastRow (fillsAt .X63 (f_xo10 insn).toNat)
  else lastRow fun d => d.kind = .PRI && d.primary == op

/-! ## Facility classes -/

/-- `isFpInsn`. -/
def isFpInsn (d : InsnDesc) : Bool :=
  match d.pat with
  | .FRT_D_RA | .FRS_D_RA | .FRT_RA_RB | .FRS_RA_RB | .FP2 | .FP3 | .FP3C | .FP4 | .FCMP
  | .MTFSF | .MTFSFI | .MTFSB | .MCRFS | .MFFS => true
  | _ => false

/-- `isVecInsn`: everything that touches a vector register, the data-stream
hints excepted. -/
def isVecInsn (d : InsnDesc) : Bool :=
  if d.flags &&& (FL_TBIT ||| FL_ABIT) ≠ 0#16 then false
  else
    match d.pat with
    | .VX3 | .VX2B | .VX_SPLAT | .VX_SPLATIS | .MFVSCR | .MTVSCR | .VA4P | .VA_MADD | .VSLDOI
    | .VD_RA_RB | .VS_RA_RB => true
    | _ => false

end OpenPowerMac
