import Mathlib
import BigAsm.Operands
import BigAsm.State
import BigAsm.Library.Runs

/- The opcode handlers. A handler only reads operands and returns its instructions; what it
   schedules is returned with them, and captures the location of the first instruction. -/
namespace BigAsm
open Instruction

/-- An InstructionList with the label and the lambda the handler passed to schedule. -/
structure Code where
  words : List Instruction
  fixup : Option (Str × Fixup) := none
  deriving DecidableEq, Repr

/-- How many instructions the lambda patches, counted over the whole expansion. -/
def Fixup.words : Fixup → Nat
  | .la => 2
  | .laq => 14
  | .branch => 1
  | .farcall => 2
  | .jump => 1

/-- Every instruction is four bytes long, and a scheduled lambda owns all of them. -/
structure Code.WellFormed (code : Code) : Prop where
  long : ∀ w ∈ code.words, w.isLong = true
  sized : ∀ lbl f, code.fixup = some (lbl, f) → code.words.length = f.words

/-- ADDI, preceded by LUI when the upper part is not zero; then an ADDI of zero is left out. -/
def buildUint32 (reg : BitVec 5) (value : BitVec 32) : List Instruction :=
  let i1 := Itype.setImm (value.setWidth 12) (setRd reg (new RV32I_OP_IMM))
  let i2 := Utype.setImm (((value + (Itype.imm i1).setWidth 32).sshiftRight 12).setWidth 20)
    (setRd reg (new RV32I_LUI))
  if Utype.imm i2 ≠ 0 then
    i2 :: if value &&& 0xFFF ≠ 0 then [setRs1 reg i1] else []
  else [i1]

def shiftLeft32 (dst : BitVec 5) : Instruction :=
  Itype.setImm 32 (setFunct3 0x1 (setRs1 dst (setRd dst (new RV32I_OP_IMM))))

def addTemp (dst temp : BitVec 5) : Instruction :=
  setRs2 temp (setRs1 dst (setRd dst (new RV32I_OP)))

def setLoop (dst temp : BitVec 5) (whole : BitVec 128) :
    List Nat → BitVec 128 → List Instruction
  | [], _ => []
  | i :: is, valueSoFar =>
    let imm := whole.extractLsb' (32 * i) 32
    buildUint32 temp imm ++
      (if valueSoFar ≠ 0 then [shiftLeft32 dst] else []) ++ [addTemp dst temp] ++
      setLoop dst temp whole is ((valueSoFar <<< 32) ||| imm.signExtend 128)

def setWords (dst temp : BitVec 5) (imm : BitVec 128) : List Instruction :=
  if imm.toNat < 0x100000000 then buildUint32 dst (imm.setWidth 32)
  else
    let top := imm.extractLsb' (32 * 3) 32
    buildUint32 dst top ++ setLoop dst temp imm [2, 1, 0] (top.signExtend 128)

def opSet : Reader Code := do
  let dst ← nextOf .register
  let temp ← nextOf .register
  let imm ← resolveConstants
  return { words := setWords dst.reg temp.reg imm.u128 }

def opLi : Reader Code := do
  let reg ← nextOf .register
  let imm ← resolveConstants
  return { words := buildUint32 reg.reg (imm.u64.setWidth 32) }

def laWords (reg : BitVec 5) : List Instruction :=
  [setRd reg (new RV32I_LUI), setRs1 reg (setRd reg (new RV32I_OP_IMM))]

def opLa : Reader Code := do
  let reg ← nextOf .register
  let lbl ← nextOf .symbol
  return { words := laWords reg.reg, fixup := some (lbl.value, .la) }

def laqWords (dst temp : BitVec 5) : List Instruction :=
  let piece := buildUint32 temp 0x7FFFFFFF ++ [shiftLeft32 dst, addTemp dst temp]
  buildUint32 dst 0x7FFFFFFF ++ piece ++ piece ++ piece

def opLaq : Reader Code := do
  let dst ← nextOf .register
  let temp ← nextOf .register
  let label ← nextOf .symbol
  return { words := laqWords dst.reg temp.reg, fixup := some (label.value, .laq) }

def loadOffset (i1 : Instruction) : Reader Instruction := do
  if ← nextIs .constant then
    let imm ← resolveConstants
    return Itype.setImm (imm.u64.setWidth 12) i1
  else return i1

def loadHelper (f3 : BitVec 3) : Reader Code := do
  let dst ← nextOf .register
  let i1 ← loadOffset (setFunct3 f3 (setRd dst.reg (new RV32I_LOAD)))
  let src ← nextOf .register
  return { words := [setRs1 src.reg i1] }

def storeHelper (f3 : BitVec 3) : Reader Code := do
  let dst ← nextOf .register
  let src ← nextOf .register
  let i1 := setRs2 src.reg (setRs1 dst.reg (setFunct3 f3 (new RV32I_STORE)))
  if ← nextIs .constant then
    let imm ← resolveConstants
    return { words := [Stype.setImm2 ((imm.u64.sshiftRight 5).setWidth 7)
      (Stype.setImm1 (imm.u64.setWidth 5) i1)] }
  else return { words := [i1] }

def branchHelper (f3 : BitVec 3) : Reader Code := do
  let reg1 ← nextOf .register
  let reg2 ← nextOf .register
  let lbl ← nextOf .symbol
  return { words := [setFunct3 f3 (setRs2 reg2.reg (setRs1 reg1.reg (new RV32I_BRANCH)))],
           fixup := some (lbl.value, .branch) }

def farcallWords (reg : BitVec 5) : List Instruction :=
  [setRd reg (new RV32I_LUI), setRd 1 (setRs1 reg (new RV32I_JALR))]

def opFarcall : Reader Code := do
  let reg ← nextOf .register
  let lbl ← nextOf .symbol
  return { words := farcallWords reg.reg, fixup := some (lbl.value, .farcall) }

/-- The four scattered fields of a jump. imm4 is filled from bit 19, the highest bit of
    imm1, and not from bit 20. -/
def setJump (diff : BitVec 64) (instr : Instruction) : Instruction :=
  Jtype.setImm4 ((diff.sshiftRight 19).setWidth 1)
    (Jtype.setImm1 ((diff.sshiftRight 12).setWidth 8)
      (Jtype.setImm2 ((diff.sshiftRight 11).setWidth 1)
        (Jtype.setImm3 ((diff.sshiftRight 1).setWidth 10) instr)))

def callTarget (instr : Instruction) : Reader Code := do
  if ← nextIs .symbol then
    let lbl ← nextOf .symbol
    return { words := [instr], fixup := some (lbl.value, .jump) }
  else if ← nextIs .constant then
    let imm ← nextOf .constant
    return { words := [setJump imm.u64 instr] }
  else
    let tk ← next
    throw (tokenException tk (lit "Unexpected next token"))

def opCall : Reader Code := do
  let code ← callTarget (setRd 1 (new RV32I_JAL))
  if ← nextIs .register then
    let reg ← nextOf .register
    return { code with words := code.words.map (setRd reg.reg) }
  else return code

def jalrBase (instr : Instruction) : Reader Instruction := do
  if ← nextIs .register then
    let reg1 ← nextOf .register
    return setRs1 reg1.reg instr
  else return instr

def jalrOffset (instr : Instruction) : Reader Instruction := do
  if ← nextIs .constant then
    let imm ← nextOf .constant
    return Itype.setImm (imm.u64.setWidth 12) instr
  else return instr

def opJalr : Reader Code := do
  let instr ← jalrBase (new RV32I_JALR)
  let instr ← jalrOffset instr
  if ← nextIs .register then
    let reg2 ← nextOf .register
    return { words := [setRd reg2.reg instr] }
  else return { words := [instr] }

def opJmp : Reader Code := do
  let lbl ← nextOf .symbol
  return { words := [new RV32I_JAL], fixup := some (lbl.value, .jump) }

def registerOperands (reg reg2 : BitVec 5) (instr : Instruction) : Reader Instruction := do
  if ← nextIs .register then
    let reg3 ← nextOf .register
    return setRs2 reg3.reg (setRs1 reg2 instr)
  else return setRs2 reg2 (setRs1 reg instr)

def opImmHelper (opcode : BitVec 7) (funct3 : BitVec 3) : Reader Code := do
  let reg ← nextOf .register
  if ← nextIs .constant then
    let imm ← resolveConstants
    if imm.u64.toInt > 0x7FF ∨ imm.u64.toInt < -2048 then
      throw (tokenException imm (lit "Out of bounds immediate value"))
    else return { words := [Itype.setImm (imm.u64.setWidth 12) (setRs1 reg.reg
      (setFunct3 funct3 (setRd reg.reg (new opcode))))] }
  else if ← nextIs .register then
    let reg2 ← nextOf .register
    let registerOpcode :=
      if opcode = RV32I_OP_IMM then RV32I_OP
      else if opcode = RV64I_OP_IMM32 then RV64I_OP32 else RV128I_OP_IMM64
    let instr := setFunct3 funct3 (setRd reg.reg (setOpcode registerOpcode (new opcode)))
    return { words := [← registerOperands reg.reg reg2.reg instr] }
  else
    let tk ← next
    throw (argumentMismatch tk .register (lit "Unexpected token"))

def opF7Helper (opcode : BitVec 7) (f3 : BitVec 3) (f7 : BitVec 7) : Reader Code := do
  let reg ← nextOf .register
  let reg2 ← nextOf .register
  let instr := setFunct3 f3 (setRd reg.reg (new opcode))
  let instr ← registerOperands reg.reg reg2.reg instr
  return { words := [setFunct7 f7 instr] }

def opMov : Reader Code := do
  let reg ← nextOf .register
  let reg2 ← nextOf .register
  return { words := [setRs1 reg2.reg (setRd reg.reg (setFunct3 0x0 (new RV32I_OP_IMM)))] }

def opInc : Reader Code := do
  let reg ← nextOf .register
  return { words := [Itype.setImm 1 (setRs1 reg.reg (setFunct3 0x0
    (setRd reg.reg (new RV32I_OP_IMM))))] }

def opSyscall : Reader Code := do
  let imm ← resolveConstants
  return { words := [Itype.setImm (imm.u64.setWidth 12) (setRd 17 (new RV32I_OP_IMM)),
    Itype.setImm 0x0 (setFunct3 0x0 (new RV32I_SYSTEM))] }

def opSystem : Reader Code := do
  let f3 ← resolveConstants
  let imm ← resolveConstants
  return { words := [Itype.setImm (imm.u64.setWidth 12)
    (setFunct3 (f3.u64.setWidth 3) (new RV32I_SYSTEM))] }

/-- handler of each Opcode object. -/
def Opcode.handler : Opcode → Reader Code
  | .nop => pure { words := [new RV32I_OP_IMM] }
  | .li => opLi
  | .set => opSet
  | .la => opLa
  | .laq => opLaq
  | .lb => loadHelper 0x0
  | .lh => loadHelper 0x1
  | .lw => loadHelper 0x2
  | .ld => loadHelper 0x3
  | .lbu => loadHelper 0x4
  | .lhu => loadHelper 0x5
  | .lwu => loadHelper 0x6
  | .ldu => throw (.runtime (lit "Unimplemented"))
  | .lq => loadHelper 0x7
  | .sb => storeHelper 0x0
  | .sh => storeHelper 0x1
  | .sw => storeHelper 0x2
  | .sd => storeHelper 0x3
  | .sq => storeHelper 0x4
  | .beq => branchHelper 0x0
  | .bne => branchHelper 0x1
  | .blt => branchHelper 0x4
  | .bge => branchHelper 0x5
  | .bltu => branchHelper 0x6
  | .bgeu => branchHelper 0x7
  | .farcall => opFarcall
  | .call => opCall
  | .jalr => opJalr
  | .ret => pure { words := [setRs1 1 (new RV32I_JALR)] }
  | .jmp => opJmp
  | .mov => opMov
  | .inc => opInc
  | .add s => opImmHelper s.immOpcode 0x0
  | .sll s => opImmHelper s.immOpcode 0x1
  | .slt s => opImmHelper s.immOpcode 0x2
  | .sltu s => opImmHelper s.immOpcode 0x3
  | .srl s => opImmHelper s.immOpcode 0x5
  | .and s => opImmHelper s.immOpcode 0x7
  | .or s => opImmHelper s.immOpcode 0x6
  | .xor s => opImmHelper s.immOpcode 0x4
  | .sub s => opF7Helper s.regOpcode 0x0 0b0100000
  | .mul s => opF7Helper s.regOpcode 0x0 0x1
  | .div s => opF7Helper s.regOpcode 0x4 0x1
  | .divu s => opF7Helper s.regOpcode 0x5 0x1
  | .rem s => opF7Helper s.regOpcode 0x6 0x1
  | .remu s => opF7Helper s.regOpcode 0x7 0x1
  | .syscall => opSyscall
  | .ecall => pure { words := [Itype.setImm 0x0 (setFunct3 0x0 (new RV32I_SYSTEM))] }
  | .ebreak => pure { words := [Itype.setImm 0x1 (new RV32I_SYSTEM)] }
  | .wfi => pure { words := [Itype.setImm 0x105 (new RV32I_SYSTEM)] }
  | .system => opSystem

/- What every handler returns. -/

theorem isLong_iff (w : Instruction) : w.isLong = true ↔ w.extractLsb' 0 2 = 3 := by
  have low : (w &&& 3).toNat = w.toNat % 4 := Nat.and_two_pow_sub_one_eq_mod w.toNat 2
  rw [isLong, beq_iff_eq, ← BitVec.toNat_inj, low, ← BitVec.toNat_inj]
  simp

@[simp] theorem isLong_put {lo : Nat} (v : BitVec n) (w : Instruction) (above : 2 ≤ lo) :
    isLong (BitFields.put lo v w) = isLong w := by
  rw [Bool.eq_iff_iff, isLong_iff, isLong_iff,
    BitFields.extract_put_disjoint v w (Or.inl (by omega))]

theorem isLong_setOpcode (v : BitVec 7) (w : Instruction) :
    isLong (setOpcode v w) = isLong (new v) := by
  rw [Bool.eq_iff_iff, isLong_iff, isLong_iff, BitFields.extract_put_inside v w (by decide)
    (by decide) (by decide), new]
  have same : (v.setWidth 32).extractLsb' 0 2 = v.extractLsb' (0 - 0) 2 := by
    ext i hi
    simp
    omega
  rw [same]

@[simp] theorem length_of_isLong {w : Instruction} (long : w.isLong = true) : w.length = 4 := by
  simp [Instruction.length, long]

theorem immOpcode_isLong (s : Suffix) : isLong (new s.immOpcode) = true := by
  cases s <;> decide

theorem regOpcode_isLong (s : Suffix) : isLong (new s.regOpcode) = true := by
  cases s <;> decide

theorem buildUint32_isLong (reg : BitVec 5) (value : BitVec 32) :
    ∀ w ∈ buildUint32 reg value, w.isLong = true := by
  have addi : isLong (new RV32I_OP_IMM) = true := by decide
  have lui : isLong (new RV32I_LUI) = true := by decide
  intro w mem
  simp only [buildUint32] at mem
  by_cases upper : Utype.imm (Utype.setImm ((value + BitVec.setWidth 32 (Itype.imm (Itype.setImm
      (value.setWidth 12) (setRd reg (new RV32I_OP_IMM))))).sshiftRight 12 |>.setWidth 20)
      (setRd reg (new RV32I_LUI))) ≠ 0
  · rw [if_pos upper] at mem
    rcases List.mem_cons.mp mem with rfl | mem
    · simp [lui]
    · split at mem
      · simp_all
      · simp at mem
  · rw [if_neg upper, List.mem_singleton] at mem
    simp [mem, addi]

theorem shiftLeft32_isLong (dst : BitVec 5) : (shiftLeft32 dst).isLong = true := by
  have addi : isLong (new RV32I_OP_IMM) = true := by decide
  simp [shiftLeft32, addi]

theorem addTemp_isLong (dst temp : BitVec 5) : (addTemp dst temp).isLong = true := by
  have op : isLong (new RV32I_OP) = true := by decide
  simp [addTemp, op]

theorem setLoop_isLong (dst temp : BitVec 5) (whole : BitVec 128) (is : List Nat)
    (valueSoFar : BitVec 128) : ∀ w ∈ setLoop dst temp whole is valueSoFar, w.isLong = true := by
  induction is generalizing valueSoFar with
  | nil => simp [setLoop]
  | cons i is ih =>
    intro w mem
    simp only [setLoop, List.mem_append, List.mem_cons, List.not_mem_nil, or_false] at mem
    rcases mem with ((built | shift) | added) | later
    · exact buildUint32_isLong _ _ w built
    · split at shift
      · simp only [List.mem_cons, List.not_mem_nil, or_false] at shift
        exact shift ▸ shiftLeft32_isLong dst
      · simp at shift
    · exact added ▸ addTemp_isLong dst temp
    · exact ih _ w later

theorem setWords_isLong (dst temp : BitVec 5) (imm : BitVec 128) :
    ∀ w ∈ setWords dst temp imm, w.isLong = true := by
  intro w mem
  unfold setWords at mem
  split at mem
  · exact buildUint32_isLong _ _ w mem
  · rcases List.mem_append.mp mem with top | loop
    · exact buildUint32_isLong _ _ w top
    · exact setLoop_isLong _ _ _ _ _ w loop

theorem buildUint32_placeholder (reg : BitVec 5) :
    buildUint32 reg 0x7FFFFFFF =
      [Utype.setImm 0x80000 (setRd reg (new RV32I_LUI)),
       setRs1 reg (Itype.setImm 0xFFF (setRd reg (new RV32I_OP_IMM)))] := by
  simp [buildUint32]

theorem laqWords_length (dst temp : BitVec 5) : (laqWords dst temp).length = 14 := by
  simp only [laqWords, buildUint32_placeholder, List.length_append, List.length_cons,
    List.length_nil]

theorem laqWords_isLong (dst temp : BitVec 5) : ∀ w ∈ laqWords dst temp, w.isLong = true := by
  intro w mem
  simp only [laqWords, List.mem_append, List.mem_cons, List.not_mem_nil, or_false] at mem
  have piece := buildUint32_isLong temp 0x7FFFFFFF w
  have shift := shiftLeft32_isLong dst
  have added := addTemp_isLong dst temp
  rcases mem with ((first | (h | rfl | rfl)) | (h | rfl | rfl)) | (h | rfl | rfl)
  · exact buildUint32_isLong dst _ w first
  all_goals first | exact piece h | exact shift | exact added

theorem setJump_isLong (diff : BitVec 64) (instr : Instruction) :
    (setJump diff instr).isLong = instr.isLong := by
  simp [setJump]

theorem Code.WellFormed.single {w : Instruction} {fixup : Option (Str × Fixup)}
    (long : w.isLong = true) (one : ∀ lbl f, fixup = some (lbl, f) → f.words = 1) :
    Code.WellFormed ⟨[w], fixup⟩ := by
  constructor
  · intro v mem
    simp only [List.mem_cons, List.not_mem_nil, or_false] at mem
    exact mem ▸ long
  · intro lbl f eq
    exact (one lbl f eq).symm

theorem Code.WellFormed.ofWords {words : List Instruction}
    (long : ∀ w ∈ words, w.isLong = true) : Code.WellFormed ⟨words, none⟩ :=
  ⟨long, by simp⟩

open Runs

theorem registerOperands_isLong (reg reg2 : BitVec 5) {instr : Instruction}
    (long : instr.isLong = true) :
    Yields (fun w => isLong w = true) (registerOperands reg reg2 instr) := by
  refine .bind_any fun more => .ite (.bind_any fun reg3 => .pure ?_) (.pure ?_)
  · simp [long]
  · simp [long]

theorem opImmHelper_wellFormed (s : Suffix) (funct3 : BitVec 3) :
    Yields Code.WellFormed (opImmHelper s.immOpcode funct3) := by
  have long := immOpcode_isLong s
  refine .bind_any fun reg => .bind_any fun c => .ite ?_ (.bind_any fun r => .ite ?_ ?_)
  · refine .bind_any fun imm => .ite .throw (.pure (Code.WellFormed.single ?_ (by simp)))
    simp [long]
  · refine .bind_any fun reg2 => .bind (registerOperands_isLong _ _ ?_) fun w hw =>
      .pure (Code.WellFormed.single hw (by simp))
    cases s <;> simp [isLong_setOpcode, Suffix.immOpcode] <;> decide
  · exact .bind_any fun _ => .throw

theorem opF7Helper_wellFormed (s : Suffix) (f3 : BitVec 3) (f7 : BitVec 7) :
    Yields Code.WellFormed (opF7Helper s.regOpcode f3 f7) := by
  have long := regOpcode_isLong s
  refine .bind_any fun reg => .bind_any fun reg2 =>
    .bind (registerOperands_isLong _ _ ?_) fun w hw => .pure (Code.WellFormed.single ?_ (by simp))
  · simp [long]
  · simp [hw]

theorem loadOffset_isLong {i1 : Instruction} (long : i1.isLong = true) :
    Yields (fun w => isLong w = true) (loadOffset i1) := by
  refine .bind_any fun c => .ite (.bind_any fun imm => .pure ?_) (.pure long)
  simp [long]

theorem loadHelper_wellFormed (f3 : BitVec 3) : Yields Code.WellFormed (loadHelper f3) := by
  have load : isLong (new RV32I_LOAD) = true := by decide
  refine .bind_any fun dst => .bind (loadOffset_isLong ?_) fun w hw => .bind_any fun src =>
    .pure (Code.WellFormed.single ?_ (by simp))
  · simp [load]
  · simp [hw]

theorem storeHelper_wellFormed (f3 : BitVec 3) : Yields Code.WellFormed (storeHelper f3) := by
  have store : isLong (new RV32I_STORE) = true := by decide
  refine .bind_any fun dst => .bind_any fun src => .bind_any fun c =>
    .ite (.bind_any fun imm => .pure (Code.WellFormed.single ?_ (by simp)))
      (.pure (Code.WellFormed.single ?_ (by simp)))
  · simp [store]
  · simp [store]

theorem branchHelper_wellFormed (f3 : BitVec 3) : Yields Code.WellFormed (branchHelper f3) := by
  have branch : isLong (new RV32I_BRANCH) = true := by decide
  refine .bind_any fun reg1 => .bind_any fun reg2 => .bind_any fun lbl =>
    .pure (Code.WellFormed.single ?_ ?_)
  · simp [branch]
  · rintro _ f ⟨⟩
    rfl

theorem callTarget_wellFormed {instr : Instruction} (long : instr.isLong = true) :
    Yields Code.WellFormed (callTarget instr) := by
  refine .bind_any fun s => .ite (.bind_any fun lbl => .pure (Code.WellFormed.single long ?_))
    (.bind_any fun c => .ite (.bind_any fun imm => .pure (Code.WellFormed.single ?_ (by simp))) ?_)
  · rintro _ f ⟨⟩
    rfl
  · rw [setJump_isLong, long]
  · exact .bind_any fun _ => .throw

theorem opCall_wellFormed : Yields Code.WellFormed opCall := by
  have jal : isLong (new RV32I_JAL) = true := by decide
  refine .bind (callTarget_wellFormed (by simp [jal])) fun code hc =>
    .bind_any fun r => .ite (.bind_any fun reg => .pure ⟨?_, ?_⟩) (.pure hc)
  · intro w mem
    obtain ⟨v, hv, rfl⟩ := List.mem_map.mp mem
    simp [hc.long v hv]
  · intro lbl f eq
    rw [List.length_map]
    exact hc.sized lbl f eq

theorem jalrBase_isLong {instr : Instruction} (long : instr.isLong = true) :
    Yields (fun w => isLong w = true) (jalrBase instr) := by
  refine .bind_any fun c => .ite (.bind_any fun reg1 => .pure ?_) (.pure long)
  simp [long]

theorem jalrOffset_isLong {instr : Instruction} (long : instr.isLong = true) :
    Yields (fun w => isLong w = true) (jalrOffset instr) := by
  refine .bind_any fun c => .ite (.bind_any fun imm => .pure ?_) (.pure long)
  simp [long]

theorem opJalr_wellFormed : Yields Code.WellFormed opJalr := by
  have jalr : isLong (new RV32I_JALR) = true := by decide
  refine .bind (jalrBase_isLong jalr) fun w hw => .bind (jalrOffset_isLong hw) fun v hv =>
    .bind_any fun c => .ite (.bind_any fun reg2 => .pure ?_) (.pure ?_)
  · exact Code.WellFormed.single (by simp [hv]) (by simp)
  · exact Code.WellFormed.single hv (by simp)

theorem handler_wellFormed (op : Opcode) : Yields Code.WellFormed op.handler := by
  have addi : isLong (new RV32I_OP_IMM) = true := by decide
  have jalr : isLong (new RV32I_JALR) = true := by decide
  have jal : isLong (new RV32I_JAL) = true := by decide
  have lui : isLong (new RV32I_LUI) = true := by decide
  have system : isLong (new RV32I_SYSTEM) = true := by decide
  cases op with
  | lb | lh | lw | ld | lbu | lhu | lwu | lq => exact loadHelper_wellFormed _
  | sb | sh | sw | sd | sq => exact storeHelper_wellFormed _
  | beq | bne | blt | bge | bltu | bgeu => exact branchHelper_wellFormed _
  | add s | sll s | slt s | sltu s | srl s | and s | or s | xor s =>
    exact opImmHelper_wellFormed s _
  | sub s | mul s | div s | divu s | rem s | remu s => exact opF7Helper_wellFormed s _ _
  | ldu => exact .throw
  | call => exact opCall_wellFormed
  | jalr => exact opJalr_wellFormed
  | nop | ret | ecall | ebreak | wfi =>
    exact .pure (Code.WellFormed.single (by simp [addi, jalr, system]) (by simp))
  | li =>
    exact .bind_any fun _ => .bind_any fun _ => .pure (.ofWords (buildUint32_isLong _ _))
  | set =>
    exact .bind_any fun _ => .bind_any fun _ => .bind_any fun _ =>
      .pure (.ofWords (setWords_isLong _ _ _))
  | la =>
    refine .bind_any fun _ => .bind_any fun _ => .pure ⟨by simp [laWords, lui, addi], ?_⟩
    rintro _ f ⟨⟩
    rfl
  | laq =>
    refine .bind_any fun _ => .bind_any fun _ => .bind_any fun _ =>
      .pure ⟨laqWords_isLong _ _, ?_⟩
    rintro _ f ⟨⟩
    exact laqWords_length _ _
  | farcall =>
    refine .bind_any fun _ => .bind_any fun _ => .pure ⟨by simp [farcallWords, lui, jalr], ?_⟩
    rintro _ f ⟨⟩
    rfl
  | jmp =>
    refine .bind_any fun _ => .pure (Code.WellFormed.single jal ?_)
    rintro _ f ⟨⟩
    rfl
  | mov =>
    exact .bind_any fun _ => .bind_any fun _ =>
      .pure (Code.WellFormed.single (by simp [addi]) (by simp))
  | inc => exact .bind_any fun _ => .pure (Code.WellFormed.single (by simp [addi]) (by simp))
  | syscall => exact .bind_any fun _ => .pure (.ofWords (by simp [addi, system]))
  | system =>
    exact .bind_any fun _ => .bind_any fun _ =>
      .pure (Code.WellFormed.single (by simp [system]) (by simp))

end BigAsm
