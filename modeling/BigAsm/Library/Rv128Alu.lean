import Mathlib
import BigAsm.Library.Rv128

/- The arithmetic instructions of RV128I and their multiplications: one decoder for the
   register format and the immediate format, over the three operation widths. -/
namespace Rv128

inductive AluOp where
  | add | sll | slt | sltu | xor | srl | sra | or | and
  | sub | mul | div | divu | rem | remu
  deriving DecidableEq, Repr

inductive Width where
  | native | word | double
  deriving DecidableEq, Repr

def Width.bits : Width → Nat
  | .native => 128
  | .word => 32
  | .double => 64

def Width.shiftBits : Width → Nat
  | .native => 7
  | .word => 5
  | .double => 6

inductive Source where
  | reg (r : Reg)
  | imm (n : Int)
  deriving DecidableEq, Repr

structure Alu where
  op : AluOp
  width : Width
  rd : Reg
  rs1 : Reg
  source : Source
  deriving DecidableEq, Repr

def registerWidth : BitVec 7 → Option Width
  | 0b0110011#7 => some .native
  | 0b0111011#7 => some .word
  | 0b1111011#7 => some .double
  | _ => none

def immediateWidth : BitVec 7 → Option Width
  | 0b0010011#7 => some .native
  | 0b0011011#7 => some .word
  | 0b1011011#7 => some .double
  | _ => none

def registerOp (funct7 : BitVec 7) (funct3 : BitVec 3) : Option AluOp :=
  match funct7, funct3 with
  | 0b0000000#7, 0#3 => some .add
  | 0b0000000#7, 1#3 => some .sll
  | 0b0000000#7, 2#3 => some .slt
  | 0b0000000#7, 3#3 => some .sltu
  | 0b0000000#7, 4#3 => some .xor
  | 0b0000000#7, 5#3 => some .srl
  | 0b0000000#7, 6#3 => some .or
  | 0b0000000#7, 7#3 => some .and
  | 0b0100000#7, 0#3 => some .sub
  | 0b0100000#7, 5#3 => some .sra
  | 0b0000001#7, 0#3 => some .mul
  | 0b0000001#7, 4#3 => some .div
  | 0b0000001#7, 5#3 => some .divu
  | 0b0000001#7, 6#3 => some .rem
  | 0b0000001#7, 7#3 => some .remu
  | _, _ => none

def AluOp.funct3 : AluOp → BitVec 3
  | .add | .sub | .mul => 0
  | .sll => 1
  | .slt => 2
  | .sltu => 3
  | .xor | .div => 4
  | .srl | .sra | .divu => 5
  | .or | .rem => 6
  | .and | .remu => 7

def AluOp.funct7 : AluOp → BitVec 7
  | .sub | .sra => 0b0100000
  | .mul | .div | .divu | .rem | .remu => 0b0000001
  | _ => 0

theorem registerOp_funct (op : AluOp) : registerOp op.funct7 op.funct3 = some op := by
  cases op <;> rfl

/-- The bits above the shift amount say which shift it is. -/
def shiftOp (width : Width) (imm : BitVec 12) (clear set : Option AluOp) : Option (AluOp × Int) :=
  let above := imm.toNat / 2 ^ width.shiftBits
  let op := if above = 0 then clear else if above = 0x400 / 2 ^ width.shiftBits then set else none
  op.map (·, (imm.toNat % 2 ^ width.shiftBits : Nat))

def immediateOp (width : Width) (funct3 : BitVec 3) (imm : BitVec 12) : Option (AluOp × Int) :=
  match funct3 with
  | 0#3 => some (.add, imm.toInt)
  | 1#3 => shiftOp width imm (some .sll) none
  | 2#3 => some (.slt, imm.toInt)
  | 3#3 => some (.sltu, imm.toInt)
  | 4#3 => some (.xor, imm.toInt)
  | 5#3 => shiftOp width imm (some .srl) (some .sra)
  | 6#3 => some (.or, imm.toInt)
  | _ => some (.and, imm.toInt)

def decodeAlu (w : BitVec 32) : Option Alu :=
  let opcode := w.extractLsb' 0 7
  let funct3 := w.extractLsb' 12 3
  let rd : Reg := w.extractLsb' 7 5
  let rs1 : Reg := w.extractLsb' 15 5
  match registerWidth opcode, immediateWidth opcode with
  | some width, _ => (registerOp (w.extractLsb' 25 7) funct3).map fun op =>
    ⟨op, width, rd, rs1, .reg (w.extractLsb' 20 5)⟩
  | none, some width => (immediateOp width funct3 (w.extractLsb' 20 12)).map fun (op, n) =>
    ⟨op, width, rd, rs1, .imm n⟩
  | none, none => none

section Decode
variable {w : BitVec 32} {width : Width}

theorem decodeAlu_register (op : registerWidth (w.extractLsb' 0 7) = some width) :
    decodeAlu w = (registerOp (w.extractLsb' 25 7) (w.extractLsb' 12 3)).map fun op =>
      ⟨op, width, w.extractLsb' 7 5, w.extractLsb' 15 5, .reg (w.extractLsb' 20 5)⟩ := by
  simp only [decodeAlu, op]

theorem decodeAlu_immediate (other : registerWidth (w.extractLsb' 0 7) = none)
    (op : immediateWidth (w.extractLsb' 0 7) = some width) :
    decodeAlu w = (immediateOp width (w.extractLsb' 12 3) (w.extractLsb' 20 12)).map fun (op, n) =>
      ⟨op, width, w.extractLsb' 7 5, w.extractLsb' 15 5, .imm n⟩ := by
  simp only [decodeAlu, other, op]

end Decode

theorem shiftOp_eq_iff {width : Width} {imm : BitVec 12} {op : AluOp} {other : Option AluOp}
    {n : Int} (distinct : other ≠ some op) :
    shiftOp width imm (some op) other = some (op, n) ↔ n = imm.toNat ∧ n < width.bits := by
  have bits : width.bits = 2 ^ width.shiftBits := by cases width <;> rfl
  have positive := Nat.two_pow_pos width.shiftBits
  have below : imm.toNat / 2 ^ width.shiftBits = 0 ↔ imm.toNat < 2 ^ width.shiftBits :=
    Nat.div_eq_zero_iff_lt positive
  unfold shiftOp
  dsimp only
  rw [bits]
  by_cases clear : imm.toNat / 2 ^ width.shiftBits = 0
  · have small := below.mp clear
    rw [if_pos clear, Option.map_some, Nat.mod_eq_of_lt small]
    simp only [Option.some.injEq, Prod.mk.injEq, true_and]
    omega
  · have large := mt below.mpr clear
    rw [if_neg clear]
    constructor
    · intro same
      split at same
      · obtain ⟨op', eq, pair⟩ := Option.map_eq_some_iff.mp same
        exact absurd (eq.trans (congrArg some (Prod.mk.inj pair).1)) distinct
      · cases same
    · rintro ⟨rfl, small⟩
      exact absurd (by exact_mod_cast small) large

end Rv128
