import Mathlib
import BigAsm.Library.BitFields

/- The 32-bit instruction word of the assembler with the bit-fields of its formats, and the
   decoders the repository gives for signed immediates and jump offsets. -/
namespace BigAsm
open BitFields

abbrev Instruction := BitVec 32

def RV32I_LOAD : BitVec 7 := 0b0000011
def RV32I_STORE : BitVec 7 := 0b0100011
def RV32I_BRANCH : BitVec 7 := 0b1100011
def RV32I_JALR : BitVec 7 := 0b1100111
def RV32I_JAL : BitVec 7 := 0b1101111
def RV32I_OP_IMM : BitVec 7 := 0b0010011
def RV32I_OP : BitVec 7 := 0b0110011
def RV32I_SYSTEM : BitVec 7 := 0b1110011
def RV32I_LUI : BitVec 7 := 0b0110111
def RV32I_AUIPC : BitVec 7 := 0b0010111
def RV64I_OP_IMM32 : BitVec 7 := 0b0011011
def RV64I_OP32 : BitVec 7 := 0b0111011
def RV128I_OP_IMM64 : BitVec 7 := 0b1011011
def RV128I_OP64 : BitVec 7 := 0b1111011

namespace Instruction

def new (opcode : BitVec 7) : Instruction := opcode.setWidth 32

abbrev opcode (w : Instruction) : BitVec 7 := w.extractLsb' 0 7
abbrev rd (w : Instruction) : BitVec 5 := w.extractLsb' 7 5
abbrev funct3 (w : Instruction) : BitVec 3 := w.extractLsb' 12 3
abbrev rs1 (w : Instruction) : BitVec 5 := w.extractLsb' 15 5
abbrev rs2 (w : Instruction) : BitVec 5 := w.extractLsb' 20 5

abbrev setOpcode (v : BitVec 7) (w : Instruction) : Instruction := put 0 v w
abbrev setRd (v : BitVec 5) (w : Instruction) : Instruction := put 7 v w
abbrev setFunct3 (v : BitVec 3) (w : Instruction) : Instruction := put 12 v w
abbrev setRs1 (v : BitVec 5) (w : Instruction) : Instruction := put 15 v w
abbrev setRs2 (v : BitVec 5) (w : Instruction) : Instruction := put 20 v w
abbrev setFunct7 (v : BitVec 7) (w : Instruction) : Instruction := put 25 v w

def isLong (w : Instruction) : Bool := w &&& 3 == 3
def length (w : Instruction) : Nat := if w.isLong then 4 else 2

end Instruction

/-- A field value that is sign-extended by or-ing ones above it. -/
def extended (sign : Bool) (ext value : BitVec 32) : BitVec 32 :=
  value ||| if sign then ext else 0

theorem getLsbD_extended {ext value : BitVec 32} {p i : Nat} {sign : Bool}
    (ones : ∀ j < 32, ext.getLsbD j = decide (p ≤ j)) (inside : i < 32) :
    (extended sign ext value).getLsbD i = (value.getLsbD i || (sign && decide (p ≤ i))) := by
  rw [extended, BitVec.getLsbD_or]
  cases sign with
  | true => simp [ones i inside]
  | false => simp

theorem extended_msb {n : Nat} {ext : BitVec 32} (v : BitVec n)
    (ones : ∀ j < 32, ext.getLsbD j = decide (n ≤ j)) :
    extended v.msb ext (v.setWidth 32) = v.signExtend 32 := by
  apply BitVec.eq_of_getLsbD_eq
  intro i hi
  rw [getLsbD_extended ones hi, BitVec.getLsbD_setWidth, BitVec.getLsbD_signExtend]
  by_cases field : i < n
  · simp [hi, field]
  · simp [hi, field, not_lt.mp field]

namespace Itype
abbrev imm (w : Instruction) : BitVec 12 := w.extractLsb' 20 12
abbrev setImm (v : BitVec 12) (w : Instruction) : Instruction := put 20 v w

def sign (w : Instruction) : Bool := imm w &&& 0x800 != 0

def signedImm (w : Instruction) : BitVec 32 :=
  extended (sign w) 0xFFFFF000 ((imm w).setWidth 32)
end Itype

namespace Stype
abbrev imm1 (w : Instruction) : BitVec 5 := w.extractLsb' 7 5
abbrev imm2 (w : Instruction) : BitVec 7 := w.extractLsb' 25 7
abbrev setImm1 (v : BitVec 5) (w : Instruction) : Instruction := put 7 v w
abbrev setImm2 (v : BitVec 7) (w : Instruction) : Instruction := put 25 v w

def sign (w : Instruction) : Bool := imm2 w &&& 0x40 != 0

def signedImm (w : Instruction) : BitVec 32 :=
  extended (sign w) 0xFFFFF000 ((imm1 w).setWidth 32 ||| ((imm2 w).setWidth 32 <<< 5))
end Stype

namespace Utype
abbrev imm (w : Instruction) : BitVec 20 := w.extractLsb' 12 20
abbrev setImm (v : BitVec 20) (w : Instruction) : Instruction := put 12 v w
end Utype

namespace Btype
abbrev imm1 (w : Instruction) : BitVec 1 := w.extractLsb' 7 1
abbrev imm2 (w : Instruction) : BitVec 4 := w.extractLsb' 8 4
abbrev imm3 (w : Instruction) : BitVec 6 := w.extractLsb' 25 6
abbrev imm4 (w : Instruction) : BitVec 1 := w.extractLsb' 31 1
abbrev setImm1 (v : BitVec 1) (w : Instruction) : Instruction := put 7 v w
abbrev setImm2 (v : BitVec 4) (w : Instruction) : Instruction := put 8 v w
abbrev setImm3 (v : BitVec 6) (w : Instruction) : Instruction := put 25 v w
abbrev setImm4 (v : BitVec 1) (w : Instruction) : Instruction := put 31 v w

def sign (w : Instruction) : Bool := imm4 w == 1

def signedImm (w : Instruction) : BitVec 32 :=
  extended (sign w) 0xFFFFF000
    (((imm2 w).setWidth 32 <<< 1) ||| ((imm3 w).setWidth 32 <<< 5) |||
      ((imm1 w).setWidth 32 <<< 11))
end Btype

namespace Jtype
abbrev imm1 (w : Instruction) : BitVec 8 := w.extractLsb' 12 8
abbrev imm2 (w : Instruction) : BitVec 1 := w.extractLsb' 20 1
abbrev imm3 (w : Instruction) : BitVec 10 := w.extractLsb' 21 10
abbrev imm4 (w : Instruction) : BitVec 1 := w.extractLsb' 31 1
abbrev setImm1 (v : BitVec 8) (w : Instruction) : Instruction := put 12 v w
abbrev setImm2 (v : BitVec 1) (w : Instruction) : Instruction := put 20 v w
abbrev setImm3 (v : BitVec 10) (w : Instruction) : Instruction := put 21 v w
abbrev setImm4 (v : BitVec 1) (w : Instruction) : Instruction := put 31 v w

def sign (w : Instruction) : Bool := imm4 w == 1

/-- The source widens to int64_t before the ones are or-ed in; the int32_t it returns has
    the same low bits. -/
def jumpOffset (w : Instruction) : BitVec 32 :=
  extended (sign w) 0xFFF00000
    (((imm3 w).setWidth 32 <<< 1) ||| ((imm2 w).setWidth 32 <<< 11) |||
      ((imm1 w).setWidth 32 <<< 12))
end Jtype

end BigAsm
