import Mathlib
import BigAsm.Schedule

/- Where branches and jumps lead once finish() has patched them: the distance is cut to the
   bits of their fields, and only a jump is checked first. -/
namespace BigAsm
open ByteStore Runs Instruction BitFields

theorem signedImm_patchBranch {diff : BitVec 32} (even : diff.getLsbD 0 = false) (w : Instruction) :
    Btype.signedImm (patchBranch diff w) = (diff.setWidth 13).signExtend 32 := by
  have imm1 : Btype.imm1 (patchBranch diff w) = diff.extractLsb' 11 1 := by
    simp [patchBranch, setWidth_sshiftRight]
  have imm2 : Btype.imm2 (patchBranch diff w) = diff.extractLsb' 1 4 := by
    simp [patchBranch, setWidth_sshiftRight]
  have imm3 : Btype.imm3 (patchBranch diff w) = diff.extractLsb' 5 6 := by
    simp [patchBranch, setWidth_sshiftRight]
  have imm4 : Btype.imm4 (patchBranch diff w) = diff.extractLsb' 12 1 := by
    simp [patchBranch, setWidth_sshiftRight]
  have sign : Btype.sign (patchBranch diff w) = diff.getLsbD 12 := by
    rw [Btype.sign, imm4, extract_bit]
  have ones : ∀ j < 32, (0xFFFFF000 : BitVec 32).getLsbD j = decide (12 ≤ j) := by decide
  apply BitVec.eq_of_getLsbD_eq
  intro i hi
  have top : (diff.setWidth 13).msb = diff.getLsbD 12 := by simp [BitVec.msb_setWidth]
  rw [Btype.signedImm, getLsbD_extended ones hi, BitVec.getLsbD_or, BitVec.getLsbD_or, imm1, imm2, imm3, sign,
    getLsbD_field diff hi, getLsbD_field diff hi, getLsbD_field diff hi, BitVec.getLsbD_signExtend,
    BitVec.getLsbD_setWidth, top]
  by_cases zero : i = 0
  · subst zero
    simpa using even
  · by_cases field : i < 12
    · cases bit : diff.getLsbD i with
      | false => simp [show ¬ 12 ≤ i by omega, show i < 13 by omega, hi]
      | true =>
        simp [show ¬ 12 ≤ i by omega, show i < 13 by omega, hi]
        omega
    · have outside : ¬ i < 1 + 4 ∧ ¬ i < 5 + 6 ∧ ¬ i < 11 + 1 := by omega
      by_cases last : i = 12
      · subst last
        simp
      · simp [outside, show 12 ≤ i by omega, show ¬ i < 13 by omega, hi]

theorem jumpOffset_setJump {diff : BitVec 64} (even : diff.getLsbD 0 = false) (w : Instruction) :
    Jtype.jumpOffset (setJump diff w) = (diff.setWidth 20).signExtend 32 := by
  have imm1 : Jtype.imm1 (setJump diff w) = diff.extractLsb' 12 8 := by
    simp [setJump, setWidth_sshiftRight]
  have imm2 : Jtype.imm2 (setJump diff w) = diff.extractLsb' 11 1 := by
    simp [setJump, setWidth_sshiftRight]
  have imm3 : Jtype.imm3 (setJump diff w) = diff.extractLsb' 1 10 := by
    simp [setJump, setWidth_sshiftRight]
  have imm4 : Jtype.imm4 (setJump diff w) = diff.extractLsb' 19 1 := by
    simp [setJump, setWidth_sshiftRight]
  have sign : Jtype.sign (setJump diff w) = diff.getLsbD 19 := by
    rw [Jtype.sign, imm4, extract_bit]
  have ones : ∀ j < 32, (0xFFF00000 : BitVec 32).getLsbD j = decide (20 ≤ j) := by decide
  apply BitVec.eq_of_getLsbD_eq
  intro i hi
  have top : (diff.setWidth 20).msb = diff.getLsbD 19 := by simp [BitVec.msb_setWidth]
  rw [Jtype.jumpOffset, getLsbD_extended ones hi, BitVec.getLsbD_or, BitVec.getLsbD_or, imm1, imm2, imm3, sign,
    getLsbD_field diff hi, getLsbD_field diff hi, getLsbD_field diff hi, BitVec.getLsbD_signExtend,
    BitVec.getLsbD_setWidth, top]
  by_cases zero : i = 0
  · subst zero
    simpa using even
  · by_cases field : i < 20
    · cases bit : diff.getLsbD i with
      | false => simp [show ¬ 20 ≤ i by omega, field, hi]
      | true =>
        simp [show ¬ 20 ≤ i by omega, field, hi]
        omega
    · have outside : ¬ i < 1 + 10 ∧ ¬ i < 11 + 1 ∧ ¬ i < 12 + 8 := by omega
      simp [outside, show 20 ≤ i by omega, hi]

theorem wordRewrite_bytes (f : Instruction → Instruction) (w : Instruction) :
    wordRewrite f (encodeWords [w]) = wordBytes (f w) := by
  have read : bytesWord (encodeWords [w]) = w := by simp [encodeWords]
  rw [wordRewrite, read]

theorem add_eq_iff {at_ target x : BitVec 128} : at_ + x = target ↔ x = target - at_ := by
  constructor
  · rintro rfl
    ring
  · rintro rfl
    ring

theorem low_reaches_iff {at_ target : BitVec 128} {k : Nat} (low : 0 < k) (narrow : k ≤ 32) :
    at_ + ((((target - at_).setWidth k).signExtend 32).signExtend 128) = target ↔
      -(2 ^ (k - 1) : Int) ≤ (target - at_).toInt ∧ (target - at_).toInt < 2 ^ (k - 1) := by
  rw [add_eq_iff, ← signExtend_low_iff low (by omega), ← BitVec.toInt_inj, ← BitVec.toInt_inj,
    BitVec.toInt_signExtend_of_le (by decide), BitVec.toInt_signExtend_of_le narrow,
    BitVec.toInt_signExtend_of_le (by omega)]

namespace Finished
variable {env : Env} {options : Options} (f : Finished env options)

theorem patched_word (grows : f.program.Grows) {pre post : List Statement} {v : State}
    {code : Code} {wf : code.WellFormed} {lbl : Str} {fix : Fixup} (one : fix.words = 1)
    (processed : f.program.Processes pre (.opcode code wf) post v)
    (fixup : code.fixup = some (lbl, fix)) : ∃ w sym e, code.words = [w] ∧
      f.state.lookup[lbl]? = some sym ∧
      fix.edit f.state (endOf v.current (padTo 4 (v.bytes v.current))) sym = .ok e ∧
      window (padTo 4 (v.bytes v.current)).length 4 (f.state.bytes v.current) =
        e.rewrite (encodeWords [w]) := by
  obtain ⟨sym, e, found, made, patched⟩ := f.patched_words grows processed fixup
  obtain ⟨w, single⟩ := List.length_eq_one_iff.mp ((wf.sized lbl fix fixup).trans one)
  rw [single] at patched
  exact ⟨w, sym, e, single, found, made, patched⟩

end Finished

def Opcode.conditional : Opcode → Bool
  | .beq | .bne | .blt | .bge | .bltu | .bgeu => true
  | _ => false

theorem branchHelper_schedules (f3 : BitVec 3) :
    Yields (fun code => ∃ lbl, code.fixup = some (lbl, .branch)) (branchHelper f3) :=
  .bind_any fun _ => .bind_any fun _ => .bind_any fun lbl => .pure ⟨lbl.value, rfl⟩

theorem Opcode.conditional_schedules {op : Opcode} (conditional : op.conditional = true) :
    Yields (fun code => ∃ lbl, code.fixup = some (lbl, .branch)) op.handler := by
  cases op with
  | beq | bne | blt | bge | bltu | bgeu => exact branchHelper_schedules _
  | _ => cases conditional

theorem patchBranch_keeps (diff : BitVec 32) (w : Instruction) :
    (patchBranch diff w).opcode = w.opcode ∧ (patchBranch diff w).funct3 = w.funct3 ∧
      (patchBranch diff w).rs1 = w.rs1 ∧ (patchBranch diff w).rs2 = w.rs2 := by
  simp [patchBranch]

/-- In a program that cuts nothing off, a branch to an even distance reaches its label exactly
    when the distance fits into 13 bits. -/
theorem branch_reaches_iff {env : Env} {options : Options} (f : Finished env options)
    {pre post : List Statement} {v : State} {op : Opcode} {tokens rest : List Token} {code : Code}
    {wf : code.WellFormed} (conditional : op.conditional = true)
    (returned : op.handler tokens = .ok (code, rest))
    (processed : f.program.Processes pre (.opcode code wf) post v) (grows : f.program.Grows) :
    ∃ w lbl sym, code.words = [w] ∧ code.fixup = some (lbl, .branch) ∧
      f.state.lookup[lbl]? = some sym ∧ ∀ (p : Instruction) (at_ target : BitVec 128),
        p = wordAt (padTo 4 (v.bytes v.current)).length (f.state.bytes v.current) →
        at_ = f.state.address (endOf v.current (padTo 4 (v.bytes v.current))) →
        target = f.state.address sym → (target - at_).getLsbD 0 = false →
        (at_ + (Btype.signedImm p).signExtend 128 = target ∧ p.opcode = w.opcode ∧
            p.funct3 = w.funct3 ∧ p.rs1 = w.rs1 ∧ p.rs2 = w.rs2 ↔
          -4096 ≤ (target - at_).toInt ∧ (target - at_).toInt ≤ 4095) := by
  obtain ⟨lbl, fixup⟩ := Opcode.conditional_schedules conditional tokens code rest returned
  obtain ⟨w, sym, e, single, found, made, patched⟩ := f.patched_word grows rfl processed fixup
  refine ⟨w, lbl, sym, single, fixup, found, fun p at_ target word atEq targetEq even => ?_⟩
  cases made
  have patched : window (padTo 4 (v.bytes v.current)).length 4 (f.state.bytes v.current) =
      wordRewrite (patchBranch ((target - at_).setWidth 32)) (encodeWords [w]) := by
    rw [atEq, targetEq]
    exact patched
  rw [wordRewrite_bytes] at patched
  rw [wordAt_of_window patched] at word
  have low : ((target - at_).setWidth 32).getLsbD 0 = false := by simpa using even
  have narrow : ((target - at_).setWidth 32).setWidth 13 = (target - at_).setWidth 13 :=
    BitVec.setWidth_setWidth_of_le _ (by decide)
  have reaches := @low_reaches_iff at_ target 13 (by decide) (by decide)
  rw [word, signedImm_patchBranch low, narrow, reaches]
  have kept := patchBranch_keeps ((target - at_).setWidth 32) w
  constructor
  · rintro ⟨near, -⟩
    omega
  · intro near
    exact ⟨by omega, kept⟩

def beqToA : Code :=
  { words := [setFunct3 0 (setRs2 11 (setRs1 10 (new RV32I_BRANCH)))],
    fixup := some (lit "a", .branch) }

theorem beqToA_returned : Opcode.beq.handler
    [⟨.register 10, 1, []⟩, ⟨.register 11, 1, []⟩, ⟨.symbol, 1, lit "a"⟩] = .ok (beqToA, []) := rfl

theorem beqToA_wellFormed : beqToA.WellFormed := handler_wellFormed .beq _ _ _ beqToA_returned

theorem branch_reaches_behind : ∃ (f : Finished Env.noFiles {}) (p : Instruction),
    p = wordAt (padTo 4 ((State.new {}).bytes (State.new {}).current)).length
      (f.state.bytes (State.new {}).current) ∧
    0x100000 + (Btype.signedImm p).signExtend 128 = 0x100004 := by
  obtain ⟨p, listed, along, accepted, found, target, start⟩ : ∃ p : Program Env.noFiles {},
      p.statements =
          [.opcode beqToA beqToA_wellFormed, .label (lit "a"), .data .word [0, 0, 0, 0]] ∧
        Along Statement.exec Growing (State.new {}) p.statements ∧
        p.final.state.finish.isOk = true ∧
        (result p.final.state.finish).lookup[lit "a"]? = some ⟨lit ".text", 4, 0, 0⟩ ∧
        0x100004 = (result p.final.state.finish).address ⟨lit ".text", 4, 0, 0⟩ ∧
        0x100000 = (result p.final.state.finish).address (endOf (State.new {}).current
          (padTo 4 ((State.new {}).bytes (State.new {}).current))) :=
    ⟨Program.ofSource {} (lit "beq a0, a1, a\na: dw 0") (by decide +kernel), by decide +kernel⟩
  let f : Finished Env.noFiles {} := ⟨p, result p.final.state.finish, eq_ok_result accepted⟩
  obtain ⟨w, lbl, sym, single, waits, found', meets⟩ := @branch_reaches_iff Env.noFiles {} f []
    [.label (lit "a"), .data .word [0, 0, 0, 0]] (State.new {}) .beq
    [⟨.register 10, 1, []⟩, ⟨.register 11, 1, []⟩, ⟨.symbol, 1, lit "a"⟩] [] beqToA
    beqToA_wellFormed rfl beqToA_returned ⟨listed, run_nil_iff.mpr rfl⟩ (p.grows_iff.mpr along)
  cases waits
  cases found.symm.trans found'
  exact ⟨f, _, rfl, ((meets _ 0x100000 0x100004 rfl start target (by decide)).mpr (by decide)).1⟩

theorem branch_misses_far_label :
    ∃ (f : Finished Env.noFiles {}) (post : List Statement) (sym : SymbolLocation),
      f.program.Processes [] (.opcode beqToA beqToA_wellFormed) post (State.new {}) ∧
      f.state.lookup[lit "a"]? = some sym ∧ f.state.address sym = 0x101000 ∧
      f.state.address (endOf (State.new {}).current
        (padTo 4 ((State.new {}).bytes (State.new {}).current))) = 0x100000 ∧
      (0x101000 - 0x100000 : BitVec 128).getLsbD 0 = false ∧
      0x100000 + (Btype.signedImm (wordAt
        (padTo 4 ((State.new {}).bytes (State.new {}).current)).length
        (f.state.bytes (State.new {}).current))).signExtend 128 ≠ 0x101000 := by
  obtain ⟨p, listed, accepted, facts⟩ : ∃ p : Program Env.noFiles {},
      p.statements = [.opcode beqToA beqToA_wellFormed, .sect (lit ".data"), .org 0x101000,
          .label (lit "a"), .data .word [0, 0, 0, 0]] ∧
        p.final.state.finish.isOk = true ∧
        (result p.final.state.finish).lookup[lit "a"]? = some ⟨lit ".data", 0, 0, 0⟩ ∧
        (result p.final.state.finish).address ⟨lit ".data", 0, 0, 0⟩ = 0x101000 ∧
        (result p.final.state.finish).address (endOf (State.new {}).current
          (padTo 4 ((State.new {}).bytes (State.new {}).current))) = 0x100000 ∧
        (0x101000 - 0x100000 : BitVec 128).getLsbD 0 = false ∧
        0x100000 + (Btype.signedImm (wordAt
          (padTo 4 ((State.new {}).bytes (State.new {}).current)).length
          ((result p.final.state.finish).bytes (State.new {}).current))).signExtend 128 ≠ 0x101000 :=
    ⟨Program.ofSource {} (lit "beq a0, a1, a\n.section .data\n.org 0x101000\na: dw 0")
      (by decide +kernel), by decide +kernel⟩
  exact ⟨⟨p, result p.final.state.finish, eq_ok_result accepted⟩, _, _,
    ⟨listed, run_nil_iff.mpr rfl⟩, facts⟩

def Opcode.jumps : Opcode → Bool
  | .call | .jmp => true
  | _ => false

theorem setJump_keeps (diff : BitVec 64) (w : Instruction) :
    (setJump diff w).opcode = w.opcode ∧ (setJump diff w).rd = w.rd := by
  simp [setJump]

theorem callTarget_schedules (instr : Instruction) :
    Yields (fun code => ∀ lbl fix, code.fixup = some (lbl, fix) → fix = .jump) (callTarget instr) := by
  refine .bind_any fun _ => .ite (.bind_any fun lbl => .pure ?_)
    (.bind_any fun _ => .ite (.bind_any fun imm => .pure nofun) (.bind_any fun _ => .throw))
  rintro _ fix ⟨⟩
  rfl

theorem Opcode.jumps_schedules {op : Opcode} (jumps : op.jumps = true) :
    Yields (fun code => ∀ lbl fix, code.fixup = some (lbl, fix) → fix = .jump) op.handler := by
  cases op with
  | call =>
    exact .bind (callTarget_schedules _) fun code only => .bind_any fun _ =>
      .ite (.bind_any fun _ => .pure only) (.pure only)
  | jmp =>
    refine .bind_any fun lbl => .pure ?_
    rintro _ fix ⟨⟩
    rfl
  | _ => cases jumps

theorem boundsCheckJump_ok {diff : BitVec 64} (passed : boundsCheckJump diff = .ok ()) :
    -2048 ≤ diff.toInt ∧ diff.toInt ≤ 2047 := by
  unfold boundsCheckJump at passed
  split at passed
  · cases passed
  · omega

/-- In a program that cuts nothing off and is accepted, a jump to an even distance reaches its
    label exactly when the whole distance is in the range that its low 64 bits are tested for. -/
theorem jump_reaches_iff {env : Env} {options : Options} (f : Finished env options)
    {pre post : List Statement} {v : State} {op : Opcode} {tokens rest : List Token} {code : Code}
    {wf : code.WellFormed} {lbl : Str} {fix : Fixup} (jumps : op.jumps = true)
    (returned : op.handler tokens = .ok (code, rest)) (fixup : code.fixup = some (lbl, fix))
    (processed : f.program.Processes pre (.opcode code wf) post v) (grows : f.program.Grows) :
    ∃ w sym, code.words = [w] ∧ f.state.lookup[lbl]? = some sym ∧
      ∀ (p : Instruction) (at_ target : BitVec 128),
        p = wordAt (padTo 4 (v.bytes v.current)).length (f.state.bytes v.current) →
        at_ = f.state.address (endOf v.current (padTo 4 (v.bytes v.current))) →
        target = f.state.address sym → (target - at_).getLsbD 0 = false →
        (at_ + (Jtype.jumpOffset p).signExtend 128 = target ∧ p.opcode = w.opcode ∧ p.rd = w.rd ↔
          -2048 ≤ (target - at_).toInt ∧ (target - at_).toInt ≤ 2047) := by
  cases Opcode.jumps_schedules jumps tokens code rest returned lbl fix fixup
  obtain ⟨w, sym, e, single, found, made, patched⟩ := f.patched_word grows rfl processed fixup
  refine ⟨w, sym, single, found, fun p at_ target word atEq targetEq even => ?_⟩
  obtain ⟨_, passed, rfl⟩ := map_ok_iff.mp made
  have patched : window (padTo 4 (v.bytes v.current)).length 4 (f.state.bytes v.current) =
      wordRewrite (setJump ((target - at_).setWidth 64)) (encodeWords [w]) := by
    rw [atEq, targetEq]
    exact patched
  rw [wordRewrite_bytes] at patched
  rw [wordAt_of_window patched] at word
  rw [← atEq, ← targetEq] at passed
  have checked := boundsCheckJump_ok passed
  have low : ((target - at_).setWidth 64).getLsbD 0 = false := by simpa using even
  have narrow : ((target - at_).setWidth 64).setWidth 20 = (target - at_).setWidth 20 :=
    BitVec.setWidth_setWidth_of_le _ (by decide)
  have reaches := @low_reaches_iff at_ target 20 (by decide) (by decide)
  have whole := @signExtend_low_iff 64 128 (by decide) (by decide) (target - at_)
  rw [word, jumpOffset_setJump low, narrow, reaches]
  constructor
  · rintro ⟨near, -⟩
    -- a distance within 64 bits is what the check saw
    have same := whole.mpr (by omega)
    rw [← same, BitVec.toInt_signExtend_of_le (by decide)]
    exact checked
  · intro near
    exact ⟨by omega, setJump_keeps _ w⟩

def jmpToA : Code := { words := [new RV32I_JAL], fixup := some (lit "a", .jump) }

theorem jmpToA_returned : Opcode.jmp.handler [⟨.symbol, 1, lit "a"⟩] = .ok (jmpToA, []) := rfl

theorem jmpToA_wellFormed : jmpToA.WellFormed := handler_wellFormed .jmp _ _ _ jmpToA_returned

theorem jump_reaches_behind : ∃ (f : Finished Env.noFiles {}) (p : Instruction),
    p = wordAt (padTo 4 ((State.new {}).bytes (State.new {}).current)).length
      (f.state.bytes (State.new {}).current) ∧
    0x100000 + (Jtype.jumpOffset p).signExtend 128 = 0x100004 := by
  obtain ⟨p, listed, along, accepted, found, target, start⟩ : ∃ p : Program Env.noFiles {},
      p.statements =
          [.opcode jmpToA jmpToA_wellFormed, .label (lit "a"), .data .word [0, 0, 0, 0]] ∧
        Along Statement.exec Growing (State.new {}) p.statements ∧
        p.final.state.finish.isOk = true ∧
        (result p.final.state.finish).lookup[lit "a"]? = some ⟨lit ".text", 4, 0, 0⟩ ∧
        0x100004 = (result p.final.state.finish).address ⟨lit ".text", 4, 0, 0⟩ ∧
        0x100000 = (result p.final.state.finish).address (endOf (State.new {}).current
          (padTo 4 ((State.new {}).bytes (State.new {}).current))) :=
    ⟨Program.ofSource {} (lit "jmp a\na: dw 0") (by decide +kernel), by decide +kernel⟩
  let f : Finished Env.noFiles {} := ⟨p, result p.final.state.finish, eq_ok_result accepted⟩
  obtain ⟨w, sym, single, found', meets⟩ := @jump_reaches_iff Env.noFiles {} f []
    [.label (lit "a"), .data .word [0, 0, 0, 0]] (State.new {}) .jmp [⟨.symbol, 1, lit "a"⟩] []
    jmpToA jmpToA_wellFormed (lit "a") .jump rfl jmpToA_returned rfl ⟨listed, run_nil_iff.mpr rfl⟩
    (p.grows_iff.mpr along)
  cases found.symm.trans found'
  exact ⟨f, _, rfl, ((meets _ 0x100000 0x100004 rfl start target (by decide)).mpr (by decide)).1⟩

theorem jump_misses_distant_label :
    ∃ (f : Finished Env.noFiles {}) (post : List Statement) (sym : SymbolLocation),
      f.program.Processes [] (.opcode jmpToA jmpToA_wellFormed) post (State.new {}) ∧
      f.state.lookup[lit "a"]? = some sym ∧ f.state.address sym = 0x10000000000100000 ∧
      f.state.address (endOf (State.new {}).current
        (padTo 4 ((State.new {}).bytes (State.new {}).current))) = 0x100000 ∧
      (0x10000000000100000 - 0x100000 : BitVec 128).getLsbD 0 = false ∧
      0x100000 + (Jtype.jumpOffset (wordAt
        (padTo 4 ((State.new {}).bytes (State.new {}).current)).length
        (f.state.bytes (State.new {}).current))).signExtend 128 ≠ 0x10000000000100000 := by
  obtain ⟨p, listed, accepted, facts⟩ : ∃ p : Program Env.noFiles {},
      p.statements = [.opcode jmpToA jmpToA_wellFormed, .sect (lit ".data"),
          .org 0x10000000000100000, .label (lit "a"), .data .word [0, 0, 0, 0]] ∧
        p.final.state.finish.isOk = true ∧
        (result p.final.state.finish).lookup[lit "a"]? = some ⟨lit ".data", 0, 0, 0⟩ ∧
        (result p.final.state.finish).address ⟨lit ".data", 0, 0, 0⟩ = 0x10000000000100000 ∧
        (result p.final.state.finish).address (endOf (State.new {}).current
          (padTo 4 ((State.new {}).bytes (State.new {}).current))) = 0x100000 ∧
        (0x10000000000100000 - 0x100000 : BitVec 128).getLsbD 0 = false ∧
        0x100000 + (Jtype.jumpOffset (wordAt
          (padTo 4 ((State.new {}).bytes (State.new {}).current)).length
          ((result p.final.state.finish).bytes (State.new {}).current))).signExtend 128 ≠
            0x10000000000100000 :=
    ⟨Program.ofSource {} (lit "jmp a\n.section .data\n.org 0x10000000000100000\na: dw 0")
      (by decide +kernel), by decide +kernel⟩
  exact ⟨⟨p, result p.final.state.finish, eq_ok_result accepted⟩, _, _,
    ⟨listed, run_nil_iff.mpr rfl⟩, facts⟩

/- A call with a constant offset, which nothing tests. -/

theorem jumpOffset_even (w : Instruction) : (Jtype.jumpOffset w).getLsbD 0 = false := by
  have ones : ∀ j < 32, (0xFFF00000 : BitVec 32).getLsbD j = decide (20 ≤ j) := by decide
  rw [Jtype.jumpOffset, getLsbD_extended ones (by decide)]
  simp

theorem jumpOffset_exact_iff (c : BitVec 64) (w : Instruction) :
    (Jtype.jumpOffset (setJump c w)).signExtend 64 = c ↔
      c.getLsbD 0 = false ∧ -2 ^ 19 ≤ c.toInt ∧ c.toInt < 2 ^ 19 := by
  have twice : ((c.setWidth 20).signExtend 32).signExtend 64 = (c.setWidth 20).signExtend 64 :=
    BitVec.eq_of_toInt_eq (by rw [BitVec.toInt_signExtend_of_le (by decide),
      BitVec.toInt_signExtend_of_le (by decide), BitVec.toInt_signExtend_of_le (by decide)])
  have fits := @signExtend_low_iff 20 64 (by decide) (by decide) c
  constructor
  · intro same
    have even : c.getLsbD 0 = false := by
      have low := jumpOffset_even (setJump c w)
      rw [← same, BitVec.getLsbD_signExtend]
      simpa using low
    rw [jumpOffset_setJump even, twice] at same
    exact ⟨even, fits.mp same⟩
  · rintro ⟨even, near⟩
    rw [jumpOffset_setJump even, twice]
    exact fits.mpr near

theorem jumpOffset_setRd (reg : BitVec 5) (w : Instruction) :
    Jtype.jumpOffset (setRd reg w) = Jtype.jumpOffset w := by
  simp [Jtype.jumpOffset, Jtype.sign]

theorem opCall_constant (u : BitVec 128) (line : BitVec 32) (value : Str) (rest : List Token) :
    ∃ w rest', opCall (⟨.constant u, line, value⟩ :: rest) = .ok ({ words := [w] }, rest') ∧
      w.opcode = RV32I_JAL ∧ Jtype.jumpOffset w =
        Jtype.jumpOffset (setJump (u.setWidth 64) (setRd 1 (new RV32I_JAL))) := by
  let jal := setJump (u.setWidth 64) (setRd 1 (new RV32I_JAL))
  have opcode : jal.opcode = RV32I_JAL := by
    simp [jal, setJump]
    decide
  have target : callTarget (setRd 1 (new RV32I_JAL)) (⟨.constant u, line, value⟩ :: rest) =
      .ok ({ words := [jal] }, rest) := rfl
  have plain : startsWith .register rest = false → opCall (⟨.constant u, line, value⟩ :: rest) =
      .ok ({ words := [jal] }, rest) := by
    intro other
    refine stateT_bind_ok_iff.mpr ⟨_, rest, target, ?_⟩
    refine stateT_bind_ok_iff.mpr ⟨false, rest, (nextIs_eq _ _).trans (by rw [other]), rfl⟩
  rcases rest with _ | ⟨⟨kind, line', value'⟩, rest⟩
  · exact ⟨jal, [], plain rfl, opcode, rfl⟩
  · cases kind with
    | register reg =>
      exact ⟨_, rest, rfl, (extract_put_disjoint _ _ (by decide)).trans opcode, jumpOffset_setRd _ _⟩
    | directive | label | string | symbol | opcode _ | pseudoop _ | constant _ | operator | unspec =>
      exact ⟨jal, _, plain rfl, opcode, rfl⟩

/-- Every offset that call is given is either refused or the one its word holds. -/
def CallEncodes (u : BitVec 128) (line : BitVec 32) (value : Str) (rest : List Token) : Prop :=
  ∀ code rest', opCall (⟨.constant u, line, value⟩ :: rest) = .ok (code, rest') →
    ∃ w, code.words = [w] ∧ w.opcode = RV32I_JAL ∧
      (Jtype.jumpOffset w).signExtend 64 = u.setWidth 64

/-- A constant offset is encoded exactly when it is even and within 20 bits; the field of the
    highest bit is filled from the bit below it, so offsets of 21 bits come out wrong. -/
theorem call_constant_encodes_iff (u : BitVec 128) (line : BitVec 32) (value : Str)
    (rest : List Token) : CallEncodes u line value rest ↔
      (u.setWidth 64).getLsbD 0 = false ∧ -2 ^ 19 ≤ (u.setWidth 64).toInt ∧
        (u.setWidth 64).toInt < 2 ^ 19 := by
  obtain ⟨w, rest', returned, opcode, offset⟩ := opCall_constant u line value rest
  rw [← jumpOffset_exact_iff _ (setRd 1 (new RV32I_JAL)), ← offset]
  constructor
  · intro encodes
    obtain ⟨w', single, -, same⟩ := encodes _ _ returned
    cases single
    exact same
  · intro same code rest'' returned'
    cases returned.symm.trans returned'
    exact ⟨w, rfl, opcode, same⟩

theorem call_large_constant_turns :
    ¬ CallEncodes 0x80000 1 (lit "524288") [⟨.register 5, 1, lit "t0"⟩] := by
  intro encodes
  obtain ⟨w, single, -, same⟩ := encodes _ _ rfl
  cases single
  revert same
  decide

end BigAsm
