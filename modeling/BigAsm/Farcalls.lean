import Mathlib
import BigAsm.Addresses

/- Where farcall leads once finish() has patched it. Its lower immediate is added with a sign,
   and its upper immediate does not make up for that. -/
namespace BigAsm
open ByteStore Runs Instruction BitFields Rv128

theorem opFarcall_words {reg : BitVec 5} {l m : BitVec 32} {a label : Str} {rest : List Token} :
    opFarcall (⟨.register reg, l, a⟩ :: ⟨.symbol, m, label⟩ :: rest) =
      .ok ({ words := farcallWords reg, fixup := some (label, .farcall) }, rest) := by
  refine stateT_bind_ok_iff.mpr ⟨⟨.register reg, l, a⟩, _, rfl, ?_⟩
  refine stateT_bind_ok_iff.mpr ⟨⟨.symbol, m, label⟩, _, rfl, ?_⟩
  rw [Token.reg_register]
  rfl

theorem patchFarcall_decodes (reg : BitVec 5) (target : BitVec 128) :
    ∃ i1 i2, patchFarcall target (setRd reg (new RV32I_LUI))
        (setRd 1 (setRs1 reg (new RV32I_JALR))) = (i1, i2) ∧
      decode i1 = some (.lui reg ((target >>> 12).setWidth 20)) ∧
      decode i2 = some (.jalr 1 reg (target.setWidth 12)) := by
  have lui : (new RV32I_LUI).extractLsb' 0 7 = 0b0110111 := by decide
  have op : (new RV32I_JALR).extractLsb' 0 7 = 0b1100111 := by decide
  have funct3 : (new RV32I_JALR).extractLsb' 12 3 = 0 := by decide
  refine ⟨_, _, rfl, ?_, ?_⟩
  · have h := @decode_lui (Utype.setImm ((target >>> 12).setWidth 20) (setRd reg (new RV32I_LUI)))
      (by simp [extract_put_disjoint, lui])
    simpa [extract_put_disjoint] using h
  · have h := @decode_jalr
      (Itype.setImm (target.setWidth 12) (setRd 1 (setRs1 reg (new RV32I_JALR))))
      (by simp [extract_put_disjoint, op]) (by simp [extract_put_disjoint, funct3])
    simpa [extract_put_disjoint] using h

/-- Where the two instructions lead: the lower part of an address is added with its sign. -/
def farcallTarget (target : BitVec 128) : BitVec 128 :=
  (upperImm ((target >>> 12).setWidth 20) + (target.setWidth 12).signExtend 128) &&& ~~~1

theorem farcall_runs {reg : BitVec 5} (nonzero : reg ≠ 0) {i1 i2 : Instruction}
    {target : BitVec 128} (patched : patchFarcall target (setRd reg (new RV32I_LUI))
      (setRd 1 (setRs1 reg (new RV32I_JALR))) = (i1, i2)) (h : Hart) :
    ∃ m, run [i1, i2] h = some m ∧ m.pc = farcallTarget target ∧ m.read 1 = h.pc + 8 := by
  obtain ⟨j1, j2, same, first, second⟩ := patchFarcall_decodes reg target
  cases patched.symm.trans same
  let middle : Hart := (h.write reg (upperImm ((target >>> 12).setWidth 20))).advance
  have loaded : middle.read reg = upperImm ((target >>> 12).setWidth 20) :=
    Hart.read_write_self h reg _ nonzero
  have pc : middle.pc + 4 = h.pc + 8 := by
    rw [Hart.advance_pc, Hart.write_pc, BitVec.add_assoc]
    rfl
  refine ⟨_, by rw [run_cons first, run_cons second, run], ?_, ?_⟩
  · change (middle.read reg + _) &&& ~~~1 = _
    rw [loaded]
    rfl
  · rw [← pc]
    exact Hart.read_write_self middle 1 _ (by decide)

theorem farcallTarget_iff {target : BitVec 128} (even : target.toNat % 2 = 0)
    (below : target.toNat < roundingLimit) :
    farcallTarget target = target ↔ target.toNat % 4096 < 2048 := by
  have low := lower_signExtend_toNat (target.setWidth 32)
  rw [lower, BitVec.setWidth_setWidth_of_le _ (by decide), BitVec.toNat_setWidth] at low
  have high : ((target >>> 12).setWidth 20).toNat = target.toNat / 4096 := by
    rw [BitVec.toNat_setWidth, BitVec.toNat_ushiftRight, Nat.shiftRight_eq_div_pow]
    rw [roundingLimit] at below
    omega
  have cleared := toNat_clear_low (upperImm ((target >>> 12).setWidth 20) +
    (target.setWidth 12).signExtend 128) 1 (k := 1) rfl
  rw [BitVec.toNat_add, upperImm_toNat, high, low] at cleared
  rw [farcallTarget, ← BitVec.toNat_inj, cleared]
  rw [roundingLimit] at below
  split <;> split <;> omega

def Calls (ws : List Instruction) (at_ target : BitVec 128) : Prop :=
  ∀ h : Hart, h.pc = at_ → ∃ m, run ws h = some m ∧ m.pc = target ∧ m.read 1 = at_ + 8

theorem farcall_calls_iff {reg : BitVec 5} (nonzero : reg ≠ 0) {i1 i2 : Instruction}
    {at_ target : BitVec 128} (patched : patchFarcall target (setRd reg (new RV32I_LUI))
      (setRd 1 (setRs1 reg (new RV32I_JALR))) = (i1, i2)) :
    Calls [i1, i2] at_ target ↔ farcallTarget target = target := by
  have runs := farcall_runs nonzero patched
  constructor
  · intro every
    obtain ⟨m, run, pc, -⟩ := every ⟨at_, fun _ => 0⟩ rfl
    obtain ⟨m', run', pc', -⟩ := runs ⟨at_, fun _ => 0⟩
    cases run.symm.trans run'
    exact pc'.symm.trans pc
  · intro same h start
    obtain ⟨m, run, pc, link⟩ := runs h
    exact ⟨m, run, pc.trans same, start ▸ link⟩

/-- In a program that cuts nothing off, farcall reaches an even address below 2^31 - 2^11 and
    leaves its return address exactly when bit 11 of the address is clear. -/
theorem farcall_reaches_iff {env : Env} {options : Options} (f : Finished env options)
    {pre post : List Statement} {v : State} {reg : BitVec 5} {l m : BitVec 32} {a label : Str}
    {rest rest' : List Token} {code : Code} {wf : code.WellFormed} (nonzero : reg ≠ 0)
    (returned : opFarcall (⟨.register reg, l, a⟩ :: ⟨.symbol, m, label⟩ :: rest) = .ok (code, rest'))
    (processed : f.program.Processes pre (.opcode code wf) post v) (grows : f.program.Grows) :
    ∃ sym, f.state.lookup[label]? = some sym ∧ ∀ at_ target,
      at_ = f.state.address (endOf v.current (padTo 4 (v.bytes v.current))) →
      target = f.state.address sym → target.toNat % 2 = 0 → target.toNat < 2 ^ 31 - 2 ^ 11 →
      (Calls (wordsAt (f.state.bytes v.current) (padTo 4 (v.bytes v.current)).length 2) at_ target ↔
        target.toNat % 4096 < 2048) := by
  rw [opFarcall_words] at returned
  cases returned
  obtain ⟨sym, e, found, made, patched⟩ := f.patched_words grows processed rfl
  refine ⟨sym, found, fun at_ target _ targetEq even below => ?_⟩
  cases made
  have patched : window (padTo 4 (v.bytes v.current)).length (4 * 2) (f.state.bytes v.current) =
      pairRewrite (patchFarcall target) (encodeWords (farcallWords reg)) := by
    rw [targetEq]
    exact patched
  generalize made : patchFarcall target (setRd reg (new RV32I_LUI))
    (setRd 1 (setRs1 reg (new RV32I_JALR))) = pair
  have words : wordsAt (f.state.bytes v.current) (padTo 4 (v.bytes v.current)).length 2 =
      [pair.1, pair.2] := by
    refine @wordsAt_of_window _ _ [pair.1, pair.2] (patched.trans ?_)
    have both := pairRewrite_bytes (patchFarcall target) (setRd reg (new RV32I_LUI))
      (setRd 1 (setRs1 reg (new RV32I_JALR)))
    rw [made] at both
    simpa [farcallWords, encodeWords] using both
  rw [words, farcall_calls_iff nonzero made]
  exact farcallTarget_iff even below

def farcallOfA : Code := { words := farcallWords 5, fixup := some (lit "a", .farcall) }

theorem farcallOfA_wellFormed : farcallOfA.WellFormed :=
  handler_wellFormed .farcall [⟨.register 5, 1, []⟩, ⟨.symbol, 1, lit "a"⟩] farcallOfA []
    opFarcall_words

theorem farcall_reaches_behind : ∃ f : Finished Env.noFiles {},
    Calls (wordsAt (f.state.bytes (State.new {}).current)
      (padTo 4 ((State.new {}).bytes (State.new {}).current)).length 2) 0x100000 0x100008 := by
  obtain ⟨p, listed, along, accepted, found, target, start⟩ : ∃ p : Program Env.noFiles {},
      p.statements =
          [.opcode farcallOfA farcallOfA_wellFormed, .label (lit "a"), .data .word [0, 0, 0, 0]] ∧
        Along Statement.exec Growing (State.new {}) p.statements ∧
        p.final.state.finish.isOk = true ∧
        (result p.final.state.finish).lookup[lit "a"]? = some ⟨lit ".text", 8, 0, 0⟩ ∧
        0x100008 = (result p.final.state.finish).address ⟨lit ".text", 8, 0, 0⟩ ∧
        0x100000 = (result p.final.state.finish).address (endOf (State.new {}).current
          (padTo 4 ((State.new {}).bytes (State.new {}).current))) :=
    ⟨Program.ofSource {} (lit "farcall t0, a\na: dw 0") (by decide +kernel), by decide +kernel⟩
  let f : Finished Env.noFiles {} := ⟨p, result p.final.state.finish, eq_ok_result accepted⟩
  obtain ⟨sym, found', meets⟩ := @farcall_reaches_iff Env.noFiles {} f []
    [.label (lit "a"), .data .word [0, 0, 0, 0]] (State.new {}) 5 1 1 [] (lit "a") [] [] farcallOfA
    farcallOfA_wellFormed (by decide) opFarcall_words ⟨listed, run_nil_iff.mpr rfl⟩
    (p.grows_iff.mpr along)
  cases found.symm.trans found'
  exact ⟨f, (meets 0x100000 0x100008 start target (by decide) (by decide)).mpr (by decide)⟩

theorem farcall_misses_upper_half :
    ∃ (f : Finished Env.noFiles {}) (post : List Statement) (sym : SymbolLocation),
      f.program.Processes [] (.opcode farcallOfA farcallOfA_wellFormed) post (State.new {}) ∧
      f.state.lookup[lit "a"]? = some sym ∧ f.state.address sym = 0x100800 ∧
      f.state.address (endOf (State.new {}).current
        (padTo 4 ((State.new {}).bytes (State.new {}).current))) = 0x100000 ∧
      ¬ Calls (wordsAt (f.state.bytes (State.new {}).current)
        (padTo 4 ((State.new {}).bytes (State.new {}).current)).length 2) 0x100000 0x100800 := by
  obtain ⟨p, listed, accepted, found, target, start, left⟩ : ∃ p : Program Env.noFiles {},
      p.statements = [.opcode farcallOfA farcallOfA_wellFormed, .sect (lit ".data"), .org 0x100800,
          .label (lit "a"), .data .word [0, 0, 0, 0]] ∧
        p.final.state.finish.isOk = true ∧
        (result p.final.state.finish).lookup[lit "a"]? = some ⟨lit ".data", 0, 0, 0⟩ ∧
        (result p.final.state.finish).address ⟨lit ".data", 0, 0, 0⟩ = 0x100800 ∧
        (result p.final.state.finish).address (endOf (State.new {}).current
          (padTo 4 ((State.new {}).bytes (State.new {}).current))) = 0x100000 ∧
        (run (wordsAt ((result p.final.state.finish).bytes (State.new {}).current)
          (padTo 4 ((State.new {}).bytes (State.new {}).current)).length 2)
            ⟨0x100000, fun _ => 0⟩).map (fun m => m.pc) ≠ some 0x100800 :=
    ⟨Program.ofSource {} (lit "farcall t0, a\n.section .data\n.org 0x100800\na: dw 0")
      (by decide +kernel), by decide +kernel⟩
  refine ⟨⟨p, result p.final.state.finish, eq_ok_result accepted⟩, _, _,
    ⟨listed, run_nil_iff.mpr rfl⟩, found, target, start, fun calls => left ?_⟩
  obtain ⟨m, ran, pc, -⟩ := calls ⟨0x100000, fun _ => 0⟩ rfl
  rw [ran, Option.map_some, pc]

end BigAsm
