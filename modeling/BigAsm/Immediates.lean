import Mathlib
import BigAsm.Arithmetic

/- The constants of loads, stores and arithmetic: which of them the 12 bits of a word keep. -/
namespace BigAsm
open Instruction BitFields Runs

def Opcode.load : Opcode → Option (BitVec 3)
  | .lb => some 0x0
  | .lh => some 0x1
  | .lw => some 0x2
  | .ld => some 0x3
  | .lbu => some 0x4
  | .lhu => some 0x5
  | .lwu => some 0x6
  | .lq => some 0x7
  | _ => none

def Opcode.store : Opcode → Option (BitVec 3)
  | .sb => some 0x0
  | .sh => some 0x1
  | .sw => some 0x2
  | .sd => some 0x3
  | .sq => some 0x4
  | _ => none

theorem handler_of_load {op : Opcode} {f3 : BitVec 3} (load : op.load = some f3) :
    op.handler = loadHelper f3 := by
  cases op <;> cases load <;> rfl

theorem handler_of_store {op : Opcode} {f3 : BitVec 3} (store : op.store = some f3) :
    op.handler = storeHelper f3 := by
  cases op <;> cases store <;> rfl

/- A mnemonic is a load, a store or arithmetic, and never two of them. -/

theorem load_only {op : Opcode} {f3 : BitVec 3} (load : op.load = some f3) :
    op.store = none ∧ op.alu = none := by
  cases op <;> cases load <;> exact ⟨rfl, rfl⟩

theorem store_only {op : Opcode} {f3 : BitVec 3} (store : op.store = some f3) :
    op.load = none ∧ op.alu = none := by
  cases op <;> cases store <;> exact ⟨rfl, rfl⟩

def storeWord (f3 : BitVec 3) (dst src : BitVec 5) (imm : BitVec 64) : Instruction :=
  Stype.setImm2 ((imm.sshiftRight 5).setWidth 7) (Stype.setImm1 (imm.setWidth 5)
    (setRs2 src (setRs1 dst (setFunct3 f3 (new RV32I_STORE)))))

/- The handlers, once their first operands are known. -/

section Helpers
variable {f3 : BitVec 3} {dst src imm : Token} {cs rest : List Token}

theorem nextOf_cons {T : TokenType} {tk : Token} (same : tk.type = T) (ts : List Token) :
    nextOf T [] (tk :: ts) = .ok (tk, ts) := nextOf_ok_iff.mpr ⟨rfl, same⟩

theorem resolved_starts (resolved : resolveConstants cs = .ok (imm, rest)) :
    startsWith .constant cs = true := by
  obtain ⟨tk, ts, first, -⟩ := stateT_bind_ok_iff.mp resolved
  obtain ⟨rfl, constant⟩ := nextOf_ok_iff.mp first
  exact beq_iff_eq.mpr constant

theorem nextIs_resolved (resolved : resolveConstants cs = .ok (imm, rest)) :
    nextIs .constant cs = .ok (true, cs) := by
  rw [nextIs_eq, resolved_starts resolved]

theorem storeHelper_constant (isDst : dst.type = .register) (isSrc : src.type = .register)
    (resolved : resolveConstants cs = .ok (imm, rest)) : storeHelper f3 (dst :: src :: cs) =
      .ok ({ words := [storeWord f3 dst.reg src.reg imm.u64] }, rest) := by
  unfold storeHelper
  rw [stateT_bind_of_ok (nextOf_cons isDst (src :: cs)), stateT_bind_of_ok (nextOf_cons isSrc cs),
    stateT_bind_of_ok (nextIs_resolved resolved), if_pos rfl, stateT_bind_of_ok resolved]
  rfl

end Helpers

/- The immediates as they are decoded. -/

theorem Itype.signedImm_eq (w : Instruction) : Itype.signedImm w = (Itype.imm w).signExtend 32 := by
  have sign : Itype.sign w = (Itype.imm w).msb := by
    rw [BitVec.msb_eq_getLsbD_last]
    exact @masked_bit 12 11 (Itype.imm w) (by decide)
  rw [Itype.signedImm, sign]
  exact extended_msb _ (by decide)

theorem Stype.signedImm_eq (w : Instruction) :
    Stype.signedImm w = (Stype.imm2 w ++ Stype.imm1 w : BitVec 12).signExtend 32 := by
  have sign : Stype.sign w = (Stype.imm2 w ++ Stype.imm1 w : BitVec 12).msb := by
    rw [BitVec.msb_eq_getLsbD_last, BitVec.getLsbD_append]
    exact @masked_bit 7 6 (Stype.imm2 w) (by decide)
  have joined : (Stype.imm1 w).setWidth 32 ||| ((Stype.imm2 w).setWidth 32 <<< 5) =
      (Stype.imm2 w ++ Stype.imm1 w : BitVec 12).setWidth 32 := by
    apply BitVec.eq_of_getLsbD_eq
    intro i hi
    simp only [BitVec.getLsbD_or, BitVec.getLsbD_setWidth, BitVec.getLsbD_shiftLeft,
      BitVec.getLsbD_append, hi, decide_true, Bool.true_and]
    by_cases low : i < 5
    · simp [low]
    · simp [low, BitVec.getLsbD_of_ge (Stype.imm1 w) i (not_lt.mp low)]
      omega
  rw [Stype.signedImm, sign, joined]
  exact extended_msb _ (by decide)

theorem signedImm_storeWord (f3 : BitVec 3) (dst src : BitVec 5) (imm : BitVec 64) :
    (Stype.signedImm (storeWord f3 dst src imm)).toInt = (imm.setWidth 12).toInt := by
  have low : Stype.imm1 (storeWord f3 dst src imm) = imm.setWidth 5 := by simp [storeWord]
  have high : Stype.imm2 (storeWord f3 dst src imm) = imm.extractLsb' 5 7 := by
    simp [storeWord, setWidth_sshiftRight]
  have joined : (imm.extractLsb' 5 7 ++ imm.setWidth 5 : BitVec 12) = imm.setWidth 12 := by
    ext i hi
    rw [BitVec.getElem_append]
    split
    · simp
    · rename_i above
      have same : 5 + (i - 5) = i := by omega
      simp [same]
  rw [Stype.signedImm_eq, low, high, joined, BitVec.toInt_signExtend_of_le (by decide)]

/-- 12 bits hold a constant when its lower half is between -2048 and 2047 and its upper half adds
    nothing to it. -/
def Fits (u : BitVec 128) : Prop :=
  (-2048 ≤ (u.setWidth 64).toInt ∧ (u.setWidth 64).toInt ≤ 0x7FF) ∧ Denotes u (u.setWidth 64).toInt

end BigAsm
