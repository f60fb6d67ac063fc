import Mathlib
import BigAsm.Opcodes
import BigAsm.Library.Rv128Alu

/- The arithmetic mnemonics and the instructions their words decode to. -/
namespace BigAsm
open Instruction BitFields Runs Rv128

def Suffix.width : Suffix → Width
  | .none => .native
  | .w => .word
  | .d => .double

def Opcode.alu : Opcode → Option (AluOp × Suffix)
  | .add s => some (.add, s)
  | .sll s => some (.sll, s)
  | .slt s => some (.slt, s)
  | .sltu s => some (.sltu, s)
  | .srl s => some (.srl, s)
  | .and s => some (.and, s)
  | .or s => some (.or, s)
  | .xor s => some (.xor, s)
  | .sub s => some (.sub, s)
  | .mul s => some (.mul, s)
  | .div s => some (.div, s)
  | .divu s => some (.divu, s)
  | .rem s => some (.rem, s)
  | .remu s => some (.remu, s)
  | _ => none

/-- Operands as they are written: [dst reg] stands for dst, dst, reg. -/
inductive Form where
  | registers (dst r1 r2 : BitVec 5)
  | constant (dst : BitVec 5) (u : BitVec 128)

inductive Written : List Token → Form → List Token → Prop
  | two {dst reg : Token} {rest : List Token} (isDst : dst.type = .register)
      (isReg : reg.type = .register) (last : startsWith .register rest = false) :
      Written (dst :: reg :: rest) (.registers dst.reg dst.reg reg.reg) rest
  | three {dst r1 r2 : Token} {rest : List Token} (isDst : dst.type = .register)
      (isR1 : r1.type = .register) (isR2 : r2.type = .register) :
      Written (dst :: r1 :: r2 :: rest) (.registers dst.reg r1.reg r2.reg) rest
  | constant {dst imm : Token} {cs rest : List Token} (isDst : dst.type = .register)
      (resolved : resolveConstants cs = .ok (imm, rest)) :
      Written (dst :: cs) (.constant dst.reg imm.u128) rest

/-- The number a resolved constant is: its lower half as it is read for an immediate, when
    the upper half adds nothing to it. -/
def Denotes (u : BitVec 128) (n : Int) : Prop :=
  n = (u.setWidth 64).toInt ∧
    (u = (u.setWidth 64).setWidth 128 ∨ u = (u.setWidth 64).signExtend 128)

def Names (op : AluOp) (width : Width) (form : Form) (i : Alu) : Prop :=
  match form with
  | .registers dst r1 r2 => i = ⟨op, width, dst, r1, .reg r2⟩
  | .constant dst u => ∃ n, Denotes u n ∧ i = ⟨op, width, dst, dst, .imm n⟩

def Encodes (code : Code) (op : AluOp) (width : Width) (form : Form) : Prop :=
  ∃ w i, code.words = [w] ∧ decodeAlu w = some i ∧ Names op width form i

def takesConstant : AluOp → Bool
  | .add | .sll | .slt | .sltu | .srl | .and | .or | .xor => true
  | _ => false

def immediateWord (opcode : BitVec 7) (funct3 : BitVec 3) (dst : BitVec 5) (imm : BitVec 12) :
    Instruction := Itype.setImm imm (setRs1 dst (setFunct3 funct3 (setRd dst (new opcode))))

def registerWord (funct3 : BitVec 3) (dst r1 r2 : BitVec 5) (base : Instruction) : Instruction :=
  setRs2 r2 (setRs1 r1 (setFunct3 funct3 (setRd dst base)))

def registerOpcode (opcode : BitVec 7) : BitVec 7 :=
  if opcode = RV32I_OP_IMM then RV32I_OP
  else if opcode = RV64I_OP_IMM32 then RV64I_OP32 else RV128I_OP_IMM64

theorem registerOperands_written {dst reg : Token} {instr w : Instruction} {ts rest : List Token}
    (isDst : dst.type = .register) (isReg : reg.type = .register)
    (read : registerOperands dst.reg reg.reg instr ts = .ok (w, rest)) :
    ∃ r1 r2, Written (dst :: reg :: ts) (.registers dst.reg r1 r2) rest ∧
      w = setRs2 r2 (setRs1 r1 instr) := by
  unfold registerOperands at read
  obtain ⟨b, ts', next, read⟩ := stateT_bind_ok_iff.mp read
  cases (nextIs_eq .register ts).symm.trans next
  cases more : startsWith .register ts with
  | true =>
    rw [more, if_pos rfl] at read
    obtain ⟨reg3, ts'', third, done⟩ := stateT_bind_ok_iff.mp read
    obtain ⟨rfl, isReg3⟩ := nextOf_ok_iff.mp third
    obtain ⟨rfl, rfl⟩ := stateT_pure_ok_iff.mp done
    exact ⟨reg.reg, reg3.reg, .three isDst isReg isReg3, rfl⟩
  | false =>
    rw [more, if_neg nofun] at read
    obtain ⟨rfl, rfl⟩ := stateT_pure_ok_iff.mp read
    exact ⟨dst.reg, reg.reg, .two isDst isReg more, rfl⟩

def ImmediateCode (opcode : BitVec 7) (funct3 : BitVec 3) (code : Code) : Form → Prop
  | .registers dst r1 r2 =>
    code.words = [registerWord funct3 dst r1 r2 (setOpcode (registerOpcode opcode) (new opcode))]
  | .constant dst u =>
    -2048 ≤ (u.setWidth 64).toInt ∧ (u.setWidth 64).toInt ≤ 0x7FF ∧
      code.words = [immediateWord opcode funct3 dst ((u.setWidth 64).setWidth 12)]

theorem opImmHelper_written {opcode : BitVec 7} {funct3 : BitVec 3} {ts rest : List Token}
    {code : Code} (accepted : opImmHelper opcode funct3 ts = .ok (code, rest)) :
    ∃ form, Written ts form rest ∧ ImmediateCode opcode funct3 code form := by
  unfold opImmHelper at accepted
  obtain ⟨dst, cs, first, afterDst⟩ := stateT_bind_ok_iff.mp accepted
  obtain ⟨rfl, isDst⟩ := nextOf_ok_iff.mp first
  obtain ⟨b, cs', seen, branches⟩ := stateT_bind_ok_iff.mp afterDst
  cases (nextIs_eq .constant cs).symm.trans seen
  split at branches
  · obtain ⟨imm, ts', resolved, checked⟩ := stateT_bind_ok_iff.mp branches
    split at checked
    · cases checked
    · rename_i bounds
      obtain ⟨rfl, rfl⟩ := stateT_pure_ok_iff.mp checked
      exact ⟨_, .constant isDst resolved, by change _ ≤ imm.u64.toInt; omega,
        by change imm.u64.toInt ≤ _; omega, rfl⟩
  · obtain ⟨b, cs', seen', registers⟩ := stateT_bind_ok_iff.mp branches
    cases (nextIs_eq .register cs).symm.trans seen'
    split at registers
    · obtain ⟨reg, ts', second, later⟩ := stateT_bind_ok_iff.mp registers
      obtain ⟨rfl, isReg⟩ := nextOf_ok_iff.mp second
      obtain ⟨w, ts'', read, done⟩ := stateT_bind_ok_iff.mp later
      obtain ⟨rfl, rfl⟩ := stateT_pure_ok_iff.mp done
      obtain ⟨r1, r2, written, rfl⟩ := registerOperands_written isDst isReg read
      exact ⟨_, written, rfl⟩
    · obtain ⟨tk, ts', -, failed⟩ := stateT_bind_ok_iff.mp registers
      cases failed

theorem opF7Helper_written {opcode funct7 : BitVec 7} {funct3 : BitVec 3} {ts rest : List Token}
    {code : Code} (accepted : opF7Helper opcode funct3 funct7 ts = .ok (code, rest)) :
    ∃ dst r1 r2, Written ts (.registers dst r1 r2) rest ∧
      code.words = [setFunct7 funct7 (registerWord funct3 dst r1 r2 (new opcode))] := by
  unfold opF7Helper at accepted
  obtain ⟨dst, cs, first, afterDst⟩ := stateT_bind_ok_iff.mp accepted
  obtain ⟨rfl, isDst⟩ := nextOf_ok_iff.mp first
  obtain ⟨reg, cs', second, afterReg⟩ := stateT_bind_ok_iff.mp afterDst
  obtain ⟨rfl, isReg⟩ := nextOf_ok_iff.mp second
  obtain ⟨w, ts', read, done⟩ := stateT_bind_ok_iff.mp afterReg
  obtain ⟨rfl, rfl⟩ := stateT_pure_ok_iff.mp done
  obtain ⟨r1, r2, written, rfl⟩ := registerOperands_written isDst isReg read
  exact ⟨_, r1, r2, written, rfl⟩

theorem handler_of_alu {op : Opcode} {alu : AluOp} {s : Suffix} (named : op.alu = some (alu, s)) :
    op.handler = if takesConstant alu then opImmHelper s.immOpcode alu.funct3
      else opF7Helper s.regOpcode alu.funct3 alu.funct7 := by
  cases op <;> cases named <;> rfl

section Decode
variable {funct3 : BitVec 3} {dst r1 r2 : BitVec 5} {opcode : BitVec 7} {width : Width}

theorem new_opcode (opcode : BitVec 7) : (new opcode).extractLsb' 0 7 = opcode := by
  ext i hi
  simp [new, show i < 32 by omega, BitVec.getLsbD_eq_getElem hi]

theorem new_funct7 (opcode : BitVec 7) : (new opcode).extractLsb' 25 7 = 0 := by
  ext i hi
  simp [new, BitVec.getLsbD_of_ge opcode (25 + i) (by omega)]

theorem decode_registerWord {base : Instruction}
    (op : registerWidth (base.extractLsb' 0 7) = some width) :
    decodeAlu (registerWord funct3 dst r1 r2 base) =
      (registerOp (base.extractLsb' 25 7) funct3).map fun op => ⟨op, width, dst, r1, .reg r2⟩ := by
  have h := @decodeAlu_register (registerWord funct3 dst r1 r2 base) width
    (by simpa [registerWord, extract_put_disjoint] using op)
  simpa [registerWord, extract_put_disjoint] using h

theorem decode_immediateWord {imm : BitVec 12} (other : registerWidth opcode = none)
    (op : immediateWidth opcode = some width) :
    decodeAlu (immediateWord opcode funct3 dst imm) =
      (immediateOp width funct3 imm).map fun (op, n) => ⟨op, width, dst, dst, .imm n⟩ := by
  have field : (immediateWord opcode funct3 dst imm).extractLsb' 0 7 = opcode := by
    simp [immediateWord, extract_put_disjoint, new_opcode]
  have h := @decodeAlu_immediate (immediateWord opcode funct3 dst imm) width
    (by rw [field, other]) (by rw [field, op])
  simpa [immediateWord, extract_put_disjoint] using h

end Decode

/-- The forms whose word is right: registers, but not with a width of 64 bits for the
    operations that also take constants; and a constant the immediate field can hold, in a
    shift one below the width. -/
def Faithful (op : AluOp) (s : Suffix) : Form → Prop
  | .registers .. => takesConstant op = true → s ≠ .d
  | .constant _ u =>
    (u = (u.setWidth 64).setWidth 128 ∨ u = (u.setWidth 64).signExtend 128) ∧
      (op = .sll ∨ op = .srl →
        0 ≤ (u.setWidth 64).toInt ∧ (u.setWidth 64).toInt < s.width.bits)

theorem narrow_toInt {x : BitVec 64} (low : -2048 ≤ x.toInt) (high : x.toInt ≤ 0x7FF) :
    (x.setWidth 12).toInt = x.toInt := by
  have bound := x.isLt
  rw [BitVec.toInt_eq_toNat_cond] at low high ⊢
  rw [BitVec.toInt_eq_toNat_cond, BitVec.toNat_setWidth]
  split at low <;> split <;> omega

theorem immediateOp_plain {op : AluOp} (takes : takesConstant op = true)
    (plain : ¬ (op = .sll ∨ op = .srl)) (width : Width) (imm : BitVec 12) :
    immediateOp width op.funct3 imm = some (op, imm.toInt) := by
  cases op with
  | sll | srl => simp at plain
  | sra | sub | mul | div | divu | rem | remu => cases takes
  | add | slt | sltu | xor | or | and => rfl

theorem immediateOp_shift {op : AluOp} (shift : op = .sll ∨ op = .srl) (width : Width)
    (imm : BitVec 12) (n : Int) :
    immediateOp width op.funct3 imm = some (op, n) ↔ n = imm.toNat ∧ n < width.bits := by
  rcases shift with rfl | rfl
  · exact shiftOp_eq_iff (by decide)
  · exact shiftOp_eq_iff (by decide)

theorem immediateOp_iff {op : AluOp} (takes : takesConstant op = true) (s : Suffix)
    {dst : BitVec 5} {u : BitVec 128} (low : -2048 ≤ (u.setWidth 64).toInt)
    (high : (u.setWidth 64).toInt ≤ 0x7FF) :
    (∃ n, Denotes u n ∧
      immediateOp s.width op.funct3 ((u.setWidth 64).setWidth 12) = some (op, n)) ↔
      Faithful op s (.constant dst u) := by
  have narrow := narrow_toInt low high
  by_cases shift : op = .sll ∨ op = .srl
  · have unsigned : (u.setWidth 64).toInt = ((u.setWidth 64).setWidth 12).toNat ↔
        0 ≤ (u.setWidth 64).toInt := by
      have bound := ((u.setWidth 64).setWidth 12).isLt
      rw [← narrow] at low high ⊢
      rw [BitVec.toInt_eq_toNat_cond]
      split <;> omega
    constructor
    · rintro ⟨n, ⟨rfl, upper⟩, decoded⟩
      obtain ⟨same, below⟩ := (immediateOp_shift shift _ _ _).mp decoded
      exact ⟨upper, fun _ => ⟨unsigned.mp same, below⟩⟩
    · rintro ⟨upper, range⟩
      obtain ⟨nonneg, below⟩ := range shift
      exact ⟨_, ⟨rfl, upper⟩,
        (immediateOp_shift shift _ _ _).mpr ⟨unsigned.mpr nonneg, below⟩⟩
  · rw [immediateOp_plain takes shift, narrow]
    constructor
    · rintro ⟨n, ⟨rfl, upper⟩, -⟩
      exact ⟨upper, fun is => absurd is shift⟩
    · rintro ⟨upper, -⟩
      exact ⟨_, ⟨rfl, upper⟩, rfl⟩

theorem encodes_single {code : Code} {w : Instruction} {op : AluOp} {width : Width} {form : Form}
    (single : code.words = [w]) : Encodes code op width form ↔
      ∃ i, decodeAlu w = some i ∧ Names op width form i := by
  unfold Encodes
  rw [single]
  constructor
  · rintro ⟨w', i, same, decoded⟩
    cases same
    exact ⟨i, decoded⟩
  · rintro ⟨i, decoded⟩
    exact ⟨w, i, rfl, decoded⟩

theorem decodeAlu_imm_source {w : Instruction} {i : Alu}
    (other : registerWidth (w.extractLsb' 0 7) = none) (decoded : decodeAlu w = some i) :
    ∃ n, i.source = .imm n := by
  cases format : immediateWidth (w.extractLsb' 0 7) with
  | none =>
    unfold decodeAlu at decoded
    simp only [other, format] at decoded
    cases decoded
  | some width =>
    rw [decodeAlu_immediate other format] at decoded
    obtain ⟨⟨op, n⟩, -, rfl⟩ := Option.map_eq_some_iff.mp decoded
    exact ⟨n, rfl⟩

theorem opImmHelper_encodes_iff {op : AluOp} (takes : takesConstant op = true) (s : Suffix)
    {code : Code} {form : Form} (made : ImmediateCode s.immOpcode op.funct3 code form) :
    Encodes code op s.width form ↔ Faithful op s form := by
  have immediate : registerWidth s.immOpcode = none ∧ immediateWidth s.immOpcode = some s.width := by
    cases s <;> exact ⟨rfl, rfl⟩
  cases form with
  | constant dst u =>
    obtain ⟨low, high, single⟩ := made
    rw [encodes_single single, decode_immediateWord immediate.1 immediate.2,
      ← immediateOp_iff takes s low high]
    constructor
    · rintro ⟨i, decoded, n, denotes, rfl⟩
      obtain ⟨⟨op', n'⟩, field, same⟩ := Option.map_eq_some_iff.mp decoded
      cases same
      exact ⟨n, denotes, field⟩
    · rintro ⟨n, denotes, field⟩
      exact ⟨_, by rw [field]; rfl, n, denotes, rfl⟩
  | registers dst r1 r2 =>
    have funct7 : op.funct7 = 0 := by
      cases op <;> first | rfl | cases takes
    have registers := registerOp_funct op
    rw [funct7] at registers
    have upper : ∀ opcode opcode', (setOpcode opcode (new opcode')).extractLsb' 25 7 = 0 := by
      intro opcode opcode'
      rw [extract_put_disjoint _ _ (by decide), new_funct7]
    cases s with
    | none | w =>
      refine iff_of_true ((encodes_single made).mpr ⟨_, ?_, rfl⟩) nofun
      rw [decode_registerWord ?_, upper, registers]
      · rfl
      · rw [extract_put_self _ _ (by decide)]
        rfl
    | d =>
      refine iff_of_false ?_ fun right => right takes rfl
      rw [encodes_single made]
      rintro ⟨i, decoded, rfl⟩
      have other : registerWidth ((registerWord op.funct3 dst r1 r2
          (setOpcode (registerOpcode Suffix.d.immOpcode) (new Suffix.d.immOpcode))).extractLsb' 0 7) =
          none := by
        simp only [registerWord, extract_put_disjoint, extract_put_self, Nat.reduceLeDiff,
          Nat.reduceAdd, true_or]
        rfl
      obtain ⟨n, source⟩ := decodeAlu_imm_source other decoded
      cases source

theorem opF7Helper_encodes {op : AluOp} (s : Suffix) {code : Code} {dst r1 r2 : BitVec 5}
    (made : code.words =
      [setFunct7 op.funct7 (registerWord op.funct3 dst r1 r2 (new s.regOpcode))]) :
    Encodes code op s.width (.registers dst r1 r2) := by
  have opcode : registerWidth s.regOpcode = some s.width := by cases s <;> rfl
  have named := registerOp_funct op
  have decoded := @decodeAlu_register
    (setFunct7 op.funct7 (registerWord op.funct3 dst r1 r2 (new s.regOpcode))) s.width
    (by simpa [registerWord, extract_put_disjoint, new_opcode] using opcode)
  refine ⟨_, _, made, decoded.trans ?_, rfl⟩
  simp [registerWord, extract_put_disjoint, named]

/-- An accepted arithmetic mnemonic encodes its operands exactly when it is not a 64-bit form
    of one of the first eight with registers, the upper half of a constant adds nothing to its
    lower half, and a constant shift is by an amount below the width. -/
theorem arithmetic_encodes_iff {op : Opcode} {alu : AluOp} {s : Suffix}
    (named : op.alu = some (alu, s)) {ts rest : List Token} {code : Code}
    (accepted : op.handler ts = .ok (code, rest)) :
    ∃ form, Written ts form rest ∧ (Encodes code alu s.width form ↔ Faithful alu s form) := by
  rw [handler_of_alu named] at accepted
  by_cases takes : takesConstant alu = true
  · rw [if_pos takes] at accepted
    obtain ⟨form, written, made⟩ := opImmHelper_written accepted
    exact ⟨form, written, opImmHelper_encodes_iff takes s made⟩
  · rw [if_neg takes] at accepted
    obtain ⟨dst, r1, r2, written, made⟩ := opF7Helper_written accepted
    exact ⟨_, written, iff_of_true (opF7Helper_encodes s made) fun yes => absurd yes takes⟩

theorem srlw_by_three_encodes : ∃ form, Written
      [⟨.register 10, 1, lit "a0"⟩, ⟨.constant 3, 1, lit "3"⟩] form [] ∧
    (Encodes { words := [0x0035551B] } .srl .word form ↔ Faithful .srl .w form) :=
  @arithmetic_encodes_iff (.srl .w) .srl .w rfl _ _ _ (by rfl)

theorem srl_1027_is_arithmetic :
    let ts : List Token := [⟨.register 10, 1, lit "a0"⟩, ⟨.constant 1027, 1, lit "1027"⟩]
    Opcode.handler (.srl .none) ts = .ok ({ words := [0x40355513] }, []) ∧
      Written ts (.constant 10 1027) [] ∧
      ¬ Encodes { words := [0x40355513] } .srl .native (.constant 10 1027) := by
  have decoded : decodeAlu 0x40355513 = some ⟨.sra, .native, 10, 10, .imm 3⟩ := by decide
  have resolved : resolveConstants [⟨.constant 1027, 1, lit "1027"⟩] =
      .ok (⟨.constant 1027, 1, lit "1027"⟩, []) := rfl
  refine ⟨by rfl, .constant rfl resolved, ?_⟩
  rw [encodes_single rfl, decoded]
  rintro ⟨i, ⟨⟩, n, -, named⟩
  cases named

end BigAsm
