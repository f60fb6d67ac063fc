import Mathlib
import BigAsm.Library.BitFields

/- The part of the RV128I instruction set that builds addresses and constants: decoding of
   32-bit words, and execution over a hart with 128-bit registers. x0 reads as zero. -/
namespace Rv128

abbrev Reg := BitVec 5

structure Hart where
  pc : BitVec 128
  x : Reg → BitVec 128

inductive Instr where
  | lui (rd : Reg) (imm : BitVec 20)
  | auipc (rd : Reg) (imm : BitVec 20)
  | addi (rd rs1 : Reg) (imm : BitVec 12)
  | slli (rd rs1 : Reg) (shamt : BitVec 7)
  | add (rd rs1 rs2 : Reg)
  | jalr (rd rs1 : Reg) (imm : BitVec 12)
  deriving DecidableEq, Repr

/-- A word outside this subset does not decode. The shift amount of a 128-bit shift has
    seven bits, so the bits above it must be clear in SLLI. -/
def decode (w : BitVec 32) : Option Instr :=
  let rd : Reg := w.extractLsb' 7 5
  let funct3 := w.extractLsb' 12 3
  let rs1 : Reg := w.extractLsb' 15 5
  let imm := w.extractLsb' 20 12
  match w.extractLsb' 0 7 with
  | 0b0110111#7 => some (.lui rd (w.extractLsb' 12 20))
  | 0b0010111#7 => some (.auipc rd (w.extractLsb' 12 20))
  | 0b0010011#7 =>
    if funct3 = 0 then some (.addi rd rs1 imm)
    else if funct3 = 1 ∧ imm.extractLsb' 7 5 = 0 then some (.slli rd rs1 (imm.extractLsb' 0 7))
    else none
  | 0b0110011#7 =>
    if funct3 = 0 ∧ w.extractLsb' 25 7 = 0 then some (.add rd rs1 (w.extractLsb' 20 5)) else none
  | 0b1100111#7 => if funct3 = 0 then some (.jalr rd rs1 imm) else none
  | _ => none

section Decode
variable {w : BitVec 32}

theorem decode_lui (op : w.extractLsb' 0 7 = 0b0110111) :
    decode w = some (.lui (w.extractLsb' 7 5) (w.extractLsb' 12 20)) := by
  simp only [decode, op]
  rfl

theorem decode_auipc (op : w.extractLsb' 0 7 = 0b0010111) :
    decode w = some (.auipc (w.extractLsb' 7 5) (w.extractLsb' 12 20)) := by
  simp only [decode, op]
  rfl

theorem decode_addi (op : w.extractLsb' 0 7 = 0b0010011) (funct3 : w.extractLsb' 12 3 = 0) :
    decode w = some (.addi (w.extractLsb' 7 5) (w.extractLsb' 15 5) (w.extractLsb' 20 12)) := by
  simp only [decode, op, funct3]
  rfl

theorem decode_slli {shamt : BitVec 7} (op : w.extractLsb' 0 7 = 0b0010011)
    (funct3 : w.extractLsb' 12 3 = 1) (imm : w.extractLsb' 20 12 = shamt.setWidth 12) :
    decode w = some (.slli (w.extractLsb' 7 5) (w.extractLsb' 15 5) shamt) := by
  have high : (shamt.setWidth 12).extractLsb' 7 5 = 0 := by
    ext i hi
    simp
  have low : (shamt.setWidth 12).extractLsb' 0 7 = shamt := by
    ext i hi
    simp only [BitVec.getElem_extractLsb', BitVec.getLsbD_setWidth, Nat.zero_add,
      BitVec.getLsbD_eq_getElem hi]
    simp only [show i < 12 by omega, decide_true, Bool.true_and]
  simp only [decode, op, funct3, imm, high, low]
  rfl

theorem decode_add (op : w.extractLsb' 0 7 = 0b0110011) (funct3 : w.extractLsb' 12 3 = 0)
    (funct7 : w.extractLsb' 25 7 = 0) :
    decode w = some (.add (w.extractLsb' 7 5) (w.extractLsb' 15 5) (w.extractLsb' 20 5)) := by
  simp only [decode, op, funct3, funct7]
  rfl

theorem decode_jalr (op : w.extractLsb' 0 7 = 0b1100111) (funct3 : w.extractLsb' 12 3 = 0) :
    decode w = some (.jalr (w.extractLsb' 7 5) (w.extractLsb' 15 5) (w.extractLsb' 20 12)) := by
  simp only [decode, op, funct3]
  rfl

end Decode

namespace Hart

def read (h : Hart) (r : Reg) : BitVec 128 := if r = 0 then 0 else h.x r

def write (h : Hart) (r : Reg) (v : BitVec 128) : Hart :=
  if r = 0 then h else { h with x := fun q => if q = r then v else h.x q }

def advance (h : Hart) : Hart := { h with pc := h.pc + 4 }

@[simp] theorem write_pc (h : Hart) (r : Reg) (v : BitVec 128) : (h.write r v).pc = h.pc := by
  unfold write; split <;> rfl

@[simp] theorem advance_pc (h : Hart) : h.advance.pc = h.pc + 4 := rfl

@[simp] theorem read_advance (h : Hart) (r : Reg) : h.advance.read r = h.read r := rfl

theorem read_write (h : Hart) (r q : Reg) (v : BitVec 128) (nonzero : r ≠ 0) :
    (h.write r v).read q = if q = r then v else h.read q := by
  unfold write read
  rw [if_neg nonzero]
  by_cases same : q = r
  · subst q
    rw [if_neg nonzero, if_pos rfl]
    exact if_pos rfl
  · simp only [same, ite_false]

@[simp] theorem read_write_self (h : Hart) (r : Reg) (v : BitVec 128) (nonzero : r ≠ 0) :
    (h.write r v).read r = v := by
  rw [read_write h r r v nonzero, if_pos rfl]

end Hart

def upperImm (imm : BitVec 20) : BitVec 128 := (imm ++ 0#12 : BitVec 32).signExtend 128

def Instr.exec : Instr → Hart → Hart
  | .lui rd imm, h => (h.write rd (upperImm imm)).advance
  | .auipc rd imm, h => (h.write rd (h.pc + upperImm imm)).advance
  | .addi rd rs1 imm, h => (h.write rd (h.read rs1 + imm.signExtend 128)).advance
  | .slli rd rs1 shamt, h => (h.write rd (h.read rs1 <<< shamt.toNat)).advance
  | .add rd rs1 rs2, h => (h.write rd (h.read rs1 + h.read rs2)).advance
  | .jalr rd rs1 imm, h =>
    { h.write rd (h.pc + 4) with pc := (h.read rs1 + imm.signExtend 128) &&& ~~~1 }

def run : List (BitVec 32) → Hart → Option Hart
  | [], h => some h
  | w :: ws, h => (decode w).bind fun i => run ws (i.exec h)

theorem run_cons {w : BitVec 32} {i : Instr} (decoded : decode w = some i) (ws : List (BitVec 32))
    (h : Hart) : run (w :: ws) h = run ws (i.exec h) := by
  simp [run, decoded]

theorem run_append (ws vs : List (BitVec 32)) (h : Hart) :
    run (ws ++ vs) h = (run ws h).bind (run vs) := by
  induction ws generalizing h with
  | nil => rfl
  | cons w ws ih =>
    simp only [List.cons_append, run]
    cases decode w with
    | none => rfl
    | some i => exact ih (i.exec h)

/- The split of a 32-bit value over an upper and a signed lower immediate. The upper
   part absorbs the borrow of a negative lower part. -/

def lower (v : BitVec 32) : BitVec 12 := v.setWidth 12

def upper (v : BitVec 32) : BitVec 20 := (v + (lower v).setWidth 32).extractLsb' 12 20

def joined (v : BitVec 32) : BitVec 128 := upperImm (upper v) + (lower v).signExtend 128

/-- From this value on the rounded upper part turns negative on a register wider than 32 bits. -/
def roundingLimit : Nat := 2 ^ 31 - 2 ^ 11

theorem upper_toNat (v : BitVec 32) :
    (upper v).toNat = (v.toNat + v.toNat % 4096) % 4294967296 / 4096 := by
  simp only [upper, lower, BitVec.extractLsb'_toNat, BitVec.toNat_add, BitVec.toNat_setWidth,
    Nat.shiftRight_eq_div_pow]
  omega

theorem upperImm_toNat (u : BitVec 20) :
    (upperImm u).toNat = u.toNat * 4096 + if u.toNat < 524288 then 0 else 2 ^ 128 - 2 ^ 32 := by
  have width : (u ++ 0#12 : BitVec 32).toNat = u.toNat * 4096 := by
    rw [BitVec.toNat_append, Nat.shiftLeft_eq, BitVec.toNat_ofNat, Nat.zero_mod, Nat.or_zero]
  have bound := u.isLt
  rw [upperImm, BitVec.toNat_signExtend, BitVec.msb_eq_decide, BitVec.toNat_setWidth, width]
  by_cases small : u.toNat < 524288
  · simp only [show ¬ 2 ^ (32 - 1) ≤ u.toNat * 4096 by omega, decide_false, small, ite_true]
    simp; omega
  · simp only [show 2 ^ (32 - 1) ≤ u.toNat * 4096 by omega, decide_true, small, ite_false]
    simp; omega

theorem lower_signExtend_toNat (v : BitVec 32) :
    ((lower v).signExtend 128).toNat =
      v.toNat % 4096 + if v.toNat % 4096 < 2048 then 0 else 2 ^ 128 - 2 ^ 12 := by
  have low : (lower v).toNat = v.toNat % 4096 := by simp [lower]
  rw [BitVec.toNat_signExtend, BitVec.msb_eq_decide, BitVec.toNat_setWidth, low]
  by_cases small : v.toNat % 4096 < 2048
  · simp only [show ¬ 2 ^ (12 - 1) ≤ v.toNat % 4096 by omega, decide_false, small, ite_true]
    simp; omega
  · simp only [show 2 ^ (12 - 1) ≤ v.toNat % 4096 by omega, decide_true, small, ite_false]
    simp; omega

/-- What an upper and a lower immediate leave in a register: the value itself below the
    rounding limit, and the value less 2^32 from there on. -/
theorem joined_toNat (v : BitVec 32) :
    (joined v).toNat = v.toNat + if v.toNat < roundingLimit then 0 else 2 ^ 128 - 2 ^ 32 := by
  have bound := v.isLt
  rw [joined, BitVec.toNat_add, upperImm_toNat, lower_signExtend_toNat, upper_toNat, roundingLimit]
  split <;> split <;> split <;> omega

end Rv128
