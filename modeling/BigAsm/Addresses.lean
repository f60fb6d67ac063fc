import Mathlib
import BigAsm.LoadConstant
import BigAsm.Schedule

/- The addresses la and laq leave in a register, once finish() has patched their instructions. -/
namespace BigAsm
open ByteStore Runs Instruction BitFields Rv128

theorem pairRewrite_bytes (f : Instruction → Instruction → Instruction × Instruction)
    (a b : Instruction) : pairRewrite f (wordBytes a ++ wordBytes b) =
      wordBytes (f a b).1 ++ wordBytes (f a b).2 := by
  have first : wordAt 0 (wordBytes a ++ wordBytes b) = a := wordAt_of_window (by simp [window])
  have second : wordAt 4 (wordBytes a ++ wordBytes b) = b := wordAt_of_window (by simp [window])
  rw [pairRewrite, first, second]

theorem pairRewrite_words (f : Instruction → Instruction → Instruction × Instruction)
    (front back : List Instruction) (a b : Instruction) :
    rewriteAt (4 * front.length) 8 (pairRewrite f) (encodeWords (front ++ a :: b :: back)) =
      encodeWords (front ++ (f a b).1 :: (f a b).2 :: back) := by
  have split : ∀ c d : Instruction, encodeWords (front ++ c :: d :: back) =
      encodeWords front ++ ((wordBytes c ++ wordBytes d) ++ encodeWords back) := by
    intro c d
    rw [encodeWords_append, encodeWords_cons, encodeWords_cons, List.append_assoc]
  have start : (encodeWords front).length = 4 * front.length := encodeWords_length front
  have eight : ∀ c d : Instruction, (wordBytes c ++ wordBytes d).length = 8 := fun c d => by simp
  have cut : window (4 * front.length) 8 (encodeWords (front ++ a :: b :: back)) =
      wordBytes a ++ wordBytes b := by
    rw [split, ← start, window, List.drop_left, ← eight a b, List.take_left]
  have rest : (encodeWords (front ++ a :: b :: back)).drop (4 * front.length + 8) =
      encodeWords back := by
    rw [split, ← List.append_assoc, ← start, ← eight a b, ← List.length_append, List.drop_left]
  rw [rewriteAt, cut, pairRewrite_bytes, splice, eight, rest, split, ← start, List.take_left, List.append_assoc,
    split, List.append_assoc]

def pieceWords (reg : BitVec 5) (value : BitVec 32) : List Instruction :=
  [luiWord reg (upper value), addiWord reg reg (lower value)]

def laqFor (dst temp : BitVec 5) (target : BitVec 128) : List Instruction :=
  let round (i : Nat) := pieceWords temp (piece target i) ++ [shiftLeft32 dst, addTemp dst temp]
  pieceWords dst (piece target 3) ++ round 2 ++ round 1 ++ round 0

theorem shifted_piece (target : BitVec 128) (i : Nat) :
    (target >>> (32 * i)).setWidth 32 = piece target i := setWidth_ushiftRight target

theorem setUint32_pair (value : BitVec 32) (reg : BitVec 5) (up : BitVec 20) (low : BitVec 12) :
    setUint32 value (luiWord reg up) (addiWord reg reg low) =
      (luiWord reg (upper value), addiWord reg reg (lower value)) := by
  have imm : Itype.setImm (value.setWidth 12) (addiWord reg reg low) =
      addiWord reg reg (lower value) := by
    have swap := @put_put_comm _ _ _ 20 15 (value.setWidth 12) reg
      (Itype.setImm low (setRd reg (new RV32I_OP_IMM))) (by decide)
    refine swap.trans ?_
    rw [put_put_self]
    rfl
  have read : Itype.imm (addiWord reg reg (lower value)) = lower value := by
    simp [addiWord, extract_put_disjoint]
  have high : ((value + ((lower value).setWidth 32)).sshiftRight 12).setWidth 20 = upper value :=
    setWidth_sshiftRight _ (by decide)
  unfold setUint32
  dsimp only
  rw [imm, read, high]
  refine Prod.ext ?_ rfl
  exact put_put_self _ _ _

theorem setUint32_words (value : BitVec 32) (reg : BitVec 5) (up : BitVec 20) (low : BitVec 12)
    (front back : List Instruction) :
    rewriteAt (4 * front.length) 8 (pairRewrite (setUint32 value))
        (encodeWords (front ++ luiWord reg up :: addiWord reg reg low :: back)) =
      encodeWords (front ++ pieceWords reg value ++ back) := by
  rw [pairRewrite_words, setUint32_pair, List.append_assoc]
  rfl

def blankRound (dst temp : BitVec 5) : List Instruction :=
  [luiWord temp 0x80000, addiWord temp temp 0xFFF, shiftLeft32 dst, addTemp dst temp]

theorem laqWords_eq (dst temp : BitVec 5) :
    laqWords dst temp = luiWord dst 0x80000 :: addiWord dst dst 0xFFF ::
      (blankRound dst temp ++ blankRound dst temp ++ blankRound dst temp) := by
  simp only [laqWords, buildUint32_placeholder]
  rfl

theorem laqRewrite_words (dst temp : BitVec 5) (target : BitVec 128) :
    laqRewrite target (encodeWords (laqWords dst temp)) = encodeWords (laqFor dst temp target) := by
  let blank := blankRound dst temp
  let made := fun i => pieceWords temp (piece target i) ++ [shiftLeft32 dst, addTemp dst temp]
  let rest : List Instruction := [shiftLeft32 dst, addTemp dst temp]
  let top := pieceWords dst (piece target 3)
  have first : rewriteAt 0 8 (pairRewrite (setUint32 (piece target 3)))
      (encodeWords (laqWords dst temp)) = encodeWords (top ++ (blank ++ blank ++ blank)) := by
    rw [laqWords_eq]
    exact setUint32_words _ dst 0x80000 0xFFF [] (blank ++ blank ++ blank)
  have second : rewriteAt 8 8 (pairRewrite (setUint32 (piece target 2)))
      (encodeWords (top ++ (blank ++ blank ++ blank))) =
        encodeWords (top ++ made 2 ++ (blank ++ blank)) :=
    setUint32_words _ temp 0x80000 0xFFF top (rest ++ (blank ++ blank))
  have third : rewriteAt 24 8 (pairRewrite (setUint32 (piece target 1)))
      (encodeWords (top ++ made 2 ++ (blank ++ blank))) =
        encodeWords (top ++ made 2 ++ made 1 ++ blank) :=
    setUint32_words _ temp 0x80000 0xFFF (top ++ made 2) (rest ++ blank)
  have fourth : rewriteAt 40 8 (pairRewrite (setUint32 (piece target 0)))
      (encodeWords (top ++ made 2 ++ made 1 ++ blank)) = encodeWords (laqFor dst temp target) :=
    setUint32_words _ temp 0x80000 0xFFF (top ++ made 2 ++ made 1) rest
  have whole := fun i => shifted_piece target i
  unfold laqRewrite
  simp only [Function.comp_apply]
  rw [whole 3, first, whole 2, second, whole 1, third, whole 0, fourth]

theorem laqFor_builds {dst temp : BitVec 5} (hd : dst ≠ 0) (ht : temp ≠ 0) (distinct : dst ≠ temp)
    (target : BitVec 128) (h : Hart) :
    Builds (laqFor dst temp target) h dst temp (assembled target) := by
  have round : ∀ (i : Nat) (h : Hart) (acc : BitVec 128), h.read dst = acc →
      Builds (pieceWords temp (piece target i) ++ [shiftLeft32 dst, addTemp dst temp]) h dst temp
        (combine acc (piece target i)) := by
    intro i h acc value
    have built := round_builds hd distinct (luiAddi_puts ht (piece target i)) true value nofun
    rwa [if_pos rfl, List.append_assoc] at built
  have start : Builds (pieceWords dst (piece target 3)) h dst temp (joined (piece target 3)) :=
    (luiAddi_puts hd (piece target 3) h).builds
  exact ((start.append fun m value => round 2 m _ value).append fun m value =>
    round 1 m _ value).append fun m value => round 0 m _ value

def LeaveSame (reg : BitVec 5) (ws vs : List Instruction) : Prop :=
  ∀ h, ∃ m m', run ws h = some m ∧ run vs h = some m' ∧ m.read reg = m'.read reg

theorem LeaveSame.of_builds {dst temp : BitVec 5} {ws vs : List Instruction} {v : BitVec 128}
    (first : ∀ h, Builds ws h dst temp v) (second : ∀ h, Builds vs h dst temp v) :
    LeaveSame dst ws vs := by
  intro h
  obtain ⟨m, run, value, -⟩ := first h
  obtain ⟨m', run', value', -⟩ := second h
  exact ⟨m, m', run, run', value.trans value'.symm⟩

theorem laq_patches {s : State} {loc sym : SymbolLocation} {dst temp : BitVec 5}
    (placed : (loc.slot 56).contents s.bytes = encodeWords (laqWords dst temp)) :
    ∃ t, Fixup.laq.run loc sym s = .ok t ∧
      wordsAt (t.bytes loc.sect) loc.offset 14 = laqFor dst temp (s.address sym) := by
  have fits : (loc.slot 56).Fits s.bytes := by
    have length := congrArg List.length placed
    rw [Slot.contents, window, List.length_take, List.length_drop, encodeWords_length,
      laqWords_length] at length
    change loc.offset + 56 ≤ (s.bytes loc.sect).length
    change min 56 ((s.bytes loc.sect).length - loc.offset) = 4 * 14 at length
    omega
  have known : loc.sect ∈ s.sections := by
    by_contra missing
    have room : loc.offset + 56 ≤ (s.bytes loc.sect).length := fits
    rw [State.bytes, State.sectionAt, Std.ExtTreeMap.getElem?_eq_none missing] at room
    exact absurd room (by simp)
  obtain ⟨t, run, rewritten⟩ := Fixup.run_laq known fits
  refine ⟨t, run, ?_⟩
  have same : (loc.slot 56).contents t.bytes = encodeWords (laqFor dst temp (s.address sym)) := by
    rw [← laqRewrite_words, ← placed, rewritten.contents (laqRewrite_keeps _) fits]
  exact @wordsAt_of_window _ _ (laqFor dst temp (s.address sym)) same

theorem opLaq_words {dst temp : BitVec 5} {l m k : BitVec 32} {a b label : Str} {rest : List Token} :
    opLaq (⟨.register dst, l, a⟩ :: ⟨.register temp, m, b⟩ :: ⟨.symbol, k, label⟩ :: rest) =
      .ok ({ words := laqWords dst temp, fixup := some (label, .laq) }, rest) := by
  refine stateT_bind_ok_iff.mpr ⟨⟨.register dst, l, a⟩, _, rfl, ?_⟩
  refine stateT_bind_ok_iff.mpr ⟨⟨.register temp, m, b⟩, _, rfl, ?_⟩
  refine stateT_bind_ok_iff.mpr ⟨⟨.symbol, k, label⟩, _, rfl, ?_⟩
  rw [Token.reg_register, Token.reg_register]
  rfl

/-- set of an address and laq of a label there leave one value: whenever the lambda of laq runs
    where the instructions of laq are, and in every finished program that cuts nothing off. -/
theorem set_laq_agree {dst temp : BitVec 5} (hd : dst ≠ 0) (ht : temp ≠ 0) (distinct : dst ≠ temp)
    {l m k : BitVec 32} {a b label : Str} {cs rest rest' tail : List Token} {imm : Token}
    {set laq : Code} (const : resolveConstants cs = .ok (imm, rest'))
    (returned : opSet (⟨.register dst, l, a⟩ :: ⟨.register temp, m, b⟩ :: cs) = .ok (set, rest'))
    (returned' : opLaq (⟨.register dst, l, a⟩ :: ⟨.register temp, m, b⟩ :: ⟨.symbol, k, label⟩ ::
      rest) = .ok (laq, tail)) :
    (∀ (s : State) (loc sym : SymbolLocation), s.address sym = imm.u128 →
      (loc.slot 56).contents s.bytes = encodeWords laq.words →
      ∃ t, Fixup.laq.run loc sym s = .ok t ∧
        LeaveSame dst set.words (wordsAt (t.bytes loc.sect) loc.offset 14)) ∧
      ∀ (env : Env) (options : Options) (f : Finished env options) (pre post : List Statement)
        (v : State) (wf : laq.WellFormed) (sym : SymbolLocation), f.program.Grows →
        f.program.Processes pre (.opcode laq wf) post v → f.state.lookup[label]? = some sym →
        f.state.address sym = imm.u128 →
        LeaveSame dst set.words
          (wordsAt (f.state.bytes v.current) (padTo 4 (v.bytes v.current)).length 14) := by
  rw [opSet_words const] at returned
  cases returned
  rw [opLaq_words] at returned'
  cases returned'
  have agree : LeaveSame dst (setWords dst temp imm.u128) (laqFor dst temp imm.u128) :=
    .of_builds (setWords_builds hd ht distinct imm.u128) (laqFor_builds hd ht distinct imm.u128)
  constructor
  · intro s loc sym target placed
    obtain ⟨t, run, words⟩ := @laq_patches s loc sym dst temp placed
    refine ⟨t, run, ?_⟩
    rw [words, target]
    exact agree
  · intro env options f pre post v wf sym grows processed found target
    obtain ⟨sym', e, found', made, patched⟩ := f.patched_words grows processed rfl
    cases found.symm.trans found'
    cases made
    have words : wordsAt (f.state.bytes v.current) (padTo 4 (v.bytes v.current)).length 14 =
        laqFor dst temp imm.u128 := by
      rw [← target]
      refine @wordsAt_of_window _ _ (laqFor dst temp (f.state.address sym)) ?_
      rw [← laqRewrite_words]
      rw [laqWords_length] at patched
      exact patched
    rw [words]
    exact agree

def laqOfA : Code := { words := laqWords 10 5, fixup := some (lit "a", .laq) }

theorem laqOfA_wellFormed : laqOfA.WellFormed :=
  handler_wellFormed .laq [⟨.register 10, 1, []⟩, ⟨.register 5, 1, []⟩, ⟨.symbol, 1, lit "a"⟩] laqOfA []
    opLaq_words

theorem set_laq_agree_behind : ∃ f : Finished Env.noFiles {}, LeaveSame 10 (setWords 10 5 0x100038)
    (wordsAt (f.state.bytes (State.new {}).current)
      (padTo 4 ((State.new {}).bytes (State.new {}).current)).length 14) := by
  obtain ⟨p, listed, along, accepted, found, target⟩ : ∃ p : Program Env.noFiles {},
      p.statements =
          [.opcode laqOfA laqOfA_wellFormed, .label (lit "a"), .data .word [0, 0, 0, 0]] ∧
        Along Statement.exec Growing (State.new {}) p.statements ∧
        p.final.state.finish.isOk = true ∧
        (result p.final.state.finish).lookup[lit "a"]? = some ⟨lit ".text", 56, 0, 0⟩ ∧
        (result p.final.state.finish).address ⟨lit ".text", 56, 0, 0⟩ = 0x100038 :=
    ⟨Program.ofSource {} (lit "laq a0, t0, a\na: dw 0") (by decide +kernel), by decide +kernel⟩
  let f : Finished Env.noFiles {} := ⟨p, result p.final.state.finish, eq_ok_result accepted⟩
  exact ⟨f, (@set_laq_agree 10 5 (by decide) (by decide) (by decide) 1 1 1 [] [] (lit "a")
    [⟨.constant 0x100038, 1, []⟩] [] [] [] ⟨.constant 0x100038, 1, []⟩
    { words := setWords 10 5 0x100038 } laqOfA rfl
    (@opSet_words 10 5 1 1 [] [] [⟨.constant 0x100038, 1, []⟩] [] ⟨.constant 0x100038, 1, []⟩ rfl)
    opLaq_words).2
    Env.noFiles {} f [] [.label (lit "a"), .data .word [0, 0, 0, 0]] (State.new {})
    laqOfA_wellFormed ⟨lit ".text", 56, 0, 0⟩ (p.grows_iff.mpr along)
    ⟨listed, run_nil_iff.mpr rfl⟩ found target⟩

/-- The range la tests its distance against. -/
def InRange (x : Int) : Prop := -2147483648 ≤ x ∧ x ≤ 2147483647

instance (x : Int) : Decidable (InRange x) := inferInstanceAs (Decidable (_ ∧ _))

theorem isRelativelyClose_iff (diff : BitVec 64) :
    isRelativelyClose diff = true ↔ InRange diff.toInt := decide_eq_true_iff

theorem upper_setWidth {w : Nat} (value : BitVec w) (wide : 32 ≤ w) :
    (value + ((value.setWidth 12).setWidth w)).extractLsb' 12 20 = upper (value.setWidth 32) := by
  have divides : 2 ^ 32 ∣ 2 ^ w := Nat.pow_dvd_pow 2 wide
  have small : value.toNat % 4096 < 2 ^ w :=
    lt_of_lt_of_le (Nat.mod_lt _ (by decide)) ((by decide : 4096 ≤ 2 ^ 32).trans
      (Nat.pow_le_pow_right (by decide) wide))
  have cut : (value.toNat + value.toNat % 4096) % 2 ^ w % 2 ^ 32 =
      (value.toNat + value.toNat % 4096) % 2 ^ 32 := Nat.mod_mod_of_dvd _ divides
  have low : ((value.setWidth 12).setWidth w).toNat = value.toNat % 4096 := by
    rw [BitVec.toNat_setWidth, BitVec.toNat_setWidth]
    exact Nat.mod_eq_of_lt small
  apply BitVec.eq_of_toNat_eq
  rw [upper_toNat, BitVec.extractLsb'_toNat, BitVec.toNat_add, low, BitVec.toNat_setWidth,
    Nat.shiftRight_eq_div_pow]
  omega

theorem patchLa_decodes (reg : BitVec 5) (diff : BitVec 64) (target : BitVec 128) :
    ∃ i1 i2, patchLa diff target (setRd reg (new RV32I_LUI))
        (setRs1 reg (setRd reg (new RV32I_OP_IMM))) = (i1, i2) ∧
      decode i1 = some (if InRange diff.toInt then .auipc reg (upper (diff.setWidth 32))
        else .lui reg (upper (target.setWidth 32))) ∧
      decode i2 = some (.addi reg reg (lower (if InRange diff.toInt then diff.setWidth 32
        else target.setWidth 32))) := by
  have op : (new RV32I_OP_IMM).extractLsb' 0 7 = 0b0010011 := by decide
  have funct3 : (new RV32I_OP_IMM).extractLsb' 12 3 = 0 := by decide
  have lui : (new RV32I_LUI).extractLsb' 0 7 = 0b0110111 := by decide
  -- the second instruction is an ADDI with the immediate that was put in
  have addi : ∀ imm : BitVec 12,
      decode (Itype.setImm imm (setRs1 reg (setRd reg (new RV32I_OP_IMM)))) =
        some (.addi reg reg imm) := by
    intro imm
    have h := @decode_addi (Itype.setImm imm (setRs1 reg (setRd reg (new RV32I_OP_IMM))))
      (by simp [extract_put_disjoint, op]) (by simp [extract_put_disjoint, funct3])
    simpa [extract_put_disjoint] using h
  have read : ∀ (imm : BitVec 12) (i2 : Instruction), Itype.imm (Itype.setImm imm i2) = imm :=
    fun imm i2 => extract_put_self _ _ (by decide)
  by_cases close : InRange diff.toInt
  · refine ⟨_, _, by rw [patchLa, if_pos ((isRelativelyClose_iff diff).mpr close)], ?_, ?_⟩
    · rw [if_pos close, read, setWidth_sshiftRight _ (by decide), upper_setWidth diff (by decide)]
      have h := @decode_auipc (Utype.setImm (upper (diff.setWidth 32))
        (setOpcode RV32I_AUIPC (setRd reg (new RV32I_LUI)))) (by
          simp [extract_put_disjoint]
          rfl)
      simpa [extract_put_disjoint] using h
    · rw [if_pos close]
      refine (addi _).trans ?_
      simp [lower]
  · refine ⟨_, _, by rw [patchLa, if_neg fun h => close ((isRelativelyClose_iff diff).mp h)], ?_, ?_⟩
    · rw [if_neg close, read, setWidth_ushiftRight, upper_setWidth target (by decide)]
      have h := @decode_lui (Utype.setImm (upper (target.setWidth 32))
        (setRd reg (new RV32I_LUI))) (by simp [extract_put_disjoint, lui])
      simpa [extract_put_disjoint] using h
    · rw [if_neg close]
      refine (addi _).trans ?_
      simp [lower]

/-- What the two instructions of la leave in the register, run at the address at. -/
def laValue (at_ target : BitVec 128) : BitVec 128 :=
  if InRange ((target - at_).setWidth 64).toInt then at_ + joined ((target - at_).setWidth 32)
  else joined (target.setWidth 32)

theorem la_runs {reg : BitVec 5} (nonzero : reg ≠ 0) {i1 i2 : Instruction} {at_ target : BitVec 128}
    (patched : patchLa ((target - at_).setWidth 64) target (setRd reg (new RV32I_LUI))
      (setRs1 reg (setRd reg (new RV32I_OP_IMM))) = (i1, i2)) {h : Hart} (pc : h.pc = at_) :
    ∃ m, run [i1, i2] h = some m ∧ m.read reg = laValue at_ target := by
  obtain ⟨j1, j2, same, first, second⟩ :=
    patchLa_decodes reg ((target - at_).setWidth 64) target
  cases patched.symm.trans same
  have narrow : ((target - at_).setWidth 64).setWidth 32 = (target - at_).setWidth 32 :=
    BitVec.setWidth_setWidth_of_le _ (by decide)
  rw [narrow] at first second
  have written : ∀ (h : Hart) (v : BitVec 128), (h.write reg v).read reg = v :=
    fun h v => Hart.read_write_self h reg v nonzero
  refine ⟨_, by rw [run_cons first, run_cons second, run], ?_⟩
  unfold laValue
  split
  · simp only [Instr.exec, Hart.read_advance, written, pc, joined, BitVec.add_assoc]
  · simp only [Instr.exec, Hart.read_advance, written, joined]

theorem joined_eq_iff {value : BitVec 128} (small : InRange value.toInt) :
    joined (value.setWidth 32) = value ↔ value.toInt < roundingLimit := by
  have bound := value.isLt
  obtain ⟨low, high⟩ := small
  rw [BitVec.toInt_eq_toNat_cond] at low high ⊢
  rw [← BitVec.toNat_inj, joined_toNat, BitVec.toNat_setWidth, roundingLimit]
  by_cases sign : 2 * value.toNat < 2 ^ 128
  · rw [if_pos sign] at low high ⊢
    split <;> omega
  · rw [if_neg sign] at low high ⊢
    split <;> omega

theorem joined_ne_far {value : BitVec 128} (far : ¬ InRange value.toInt)
    (close : InRange (value.setWidth 64).toInt) : joined (value.setWidth 32) ≠ value := by
  have bound := value.isLt
  intro same
  obtain ⟨low, high⟩ := close
  have same := congrArg BitVec.toNat same
  rw [joined_toNat, BitVec.toNat_setWidth, roundingLimit] at same
  rw [BitVec.toInt_eq_toNat_cond, BitVec.toNat_setWidth] at low high
  refine far ?_
  rw [InRange, BitVec.toInt_eq_toNat_cond]
  split at same <;> split at low <;> split at high <;> split <;> omega

theorem opLa_words {reg : BitVec 5} {l m : BitVec 32} {a label : Str} {rest : List Token} :
    opLa (⟨.register reg, l, a⟩ :: ⟨.symbol, m, label⟩ :: rest) =
      .ok ({ words := laWords reg, fixup := some (label, .la) }, rest) := by
  refine stateT_bind_ok_iff.mpr ⟨⟨.register reg, l, a⟩, _, rfl, ?_⟩
  refine stateT_bind_ok_iff.mpr ⟨⟨.symbol, m, label⟩, _, rfl, ?_⟩
  rw [Token.reg_register]
  rfl

theorem laValue_iff (at_ target : BitVec 128) :
    (InRange (target - at_).toInt ∨ InRange target.toInt → laValue at_ target = target) ↔
      (InRange (target - at_).toInt → (target - at_).toInt < roundingLimit) ∧
      (¬ InRange (target - at_).toInt → InRange target.toInt →
        ¬ InRange ((target - at_).setWidth 64).toInt ∧ target.toInt < roundingLimit) := by
  have relative : ∀ x, at_ + x = target ↔ x = target - at_ := by
    intro x
    constructor
    · rintro rfl
      ring
    · rintro rfl
      ring
  by_cases near : InRange (target - at_).toInt
  · -- the low half of a small distance is the distance
    have close : InRange ((target - at_).setWidth 64).toInt := by
      rw [InRange, BitVec.toInt_eq_toNat_cond] at near ⊢
      have bound := (target - at_).isLt
      rw [BitVec.toNat_setWidth]
      obtain ⟨low, high⟩ := near
      split at low <;> split <;> omega
    have value := joined_eq_iff near
    rw [laValue, if_pos close, relative, value]
    tauto
  · by_cases close : InRange ((target - at_).setWidth 64).toInt
    · have wrong := joined_ne_far near close
      rw [laValue, if_pos close, relative]
      tauto
    · rw [laValue, if_neg close]
      constructor
      · intro exact_
        refine ⟨fun h => absurd h near, fun _ absolute => ⟨close, ?_⟩⟩
        exact (joined_eq_iff absolute).mp (exact_ (Or.inr absolute))
      · rintro ⟨-, far⟩ (h | absolute)
        · exact absurd h near
        · exact (joined_eq_iff absolute).mpr (far near absolute).2

def Leaves (ws : List Instruction) (at_ : BitVec 128) (reg : BitVec 5) (value : BitVec 128) : Prop :=
  ∀ h : Hart, h.pc = at_ → ∃ m, run ws h = some m ∧ m.read reg = value

/-- In a program that cuts nothing off, la leaves the address of its label exactly when the
    ranges end 2^11 earlier and no larger distance looks close in its low half. -/
theorem la_resolves_iff {env : Env} {options : Options} (f : Finished env options)
    {pre post : List Statement} {v : State} {reg : BitVec 5} {l m : BitVec 32} {a label : Str}
    {rest rest' : List Token} {code : Code} {wf : code.WellFormed} (nonzero : reg ≠ 0)
    (returned : opLa (⟨.register reg, l, a⟩ :: ⟨.symbol, m, label⟩ :: rest) = .ok (code, rest'))
    (processed : f.program.Processes pre (.opcode code wf) post v) (grows : f.program.Grows) :
    ∃ sym, f.state.lookup[label]? = some sym ∧ ∀ at_ target,
      at_ = f.state.address (endOf v.current (padTo 4 (v.bytes v.current))) →
      target = f.state.address sym →
      ((InRange (target - at_).toInt ∨ InRange target.toInt →
          Leaves (wordsAt (f.state.bytes v.current) (padTo 4 (v.bytes v.current)).length 2) at_ reg
            target) ↔
        (InRange (target - at_).toInt → (target - at_).toInt < roundingLimit) ∧
        (¬ InRange (target - at_).toInt → InRange target.toInt →
          ¬ InRange ((target - at_).setWidth 64).toInt ∧ target.toInt < roundingLimit)) := by
  rw [opLa_words] at returned
  cases returned
  obtain ⟨sym, e, found, made, patched⟩ := f.patched_words grows processed rfl
  refine ⟨sym, found, fun at_ target atEq targetEq => ?_⟩
  cases made
  have patched : window (padTo 4 (v.bytes v.current)).length (4 * 2) (f.state.bytes v.current) =
      pairRewrite (patchLa ((target - at_).setWidth 64) target)
        (encodeWords (laWords reg)) := by
    rw [atEq, targetEq]
    exact patched
  generalize made : patchLa ((target - at_).setWidth 64) target (setRd reg (new RV32I_LUI))
    (setRs1 reg (setRd reg (new RV32I_OP_IMM))) = pair
  have words : wordsAt (f.state.bytes v.current) (padTo 4 (v.bytes v.current)).length 2 =
      [pair.1, pair.2] := by
    refine @wordsAt_of_window _ _ [pair.1, pair.2] (patched.trans ?_)
    have both := pairRewrite_bytes (patchLa ((target - at_).setWidth 64) target)
      (setRd reg (new RV32I_LUI)) (setRs1 reg (setRd reg (new RV32I_OP_IMM)))
    rw [made] at both
    simpa [laWords, encodeWords] using both
  have leaves : Leaves [pair.1, pair.2] at_ reg target ↔ laValue at_ target = target := by
    have runs := fun (h : Hart) (pc : h.pc = at_) => la_runs nonzero made pc
    constructor
    · intro every
      obtain ⟨m, run, value⟩ := every ⟨at_, fun _ => 0⟩ rfl
      obtain ⟨m', run', value'⟩ := runs ⟨at_, fun _ => 0⟩ rfl
      cases run.symm.trans run'
      exact value'.symm.trans value
    · intro same h pc
      obtain ⟨m, run, value⟩ := runs h pc
      exact ⟨m, run, value.trans same⟩
  rw [words, leaves]
  exact laValue_iff at_ target

def laOfA : Code := { words := laWords 10, fixup := some (lit "a", .la) }

theorem laOfA_wellFormed : laOfA.WellFormed :=
  handler_wellFormed .la [⟨.register 10, 1, []⟩, ⟨.symbol, 1, lit "a"⟩] laOfA [] opLa_words

theorem la_resolves_behind : ∃ f : Finished Env.noFiles {},
    Leaves (wordsAt (f.state.bytes (State.new {}).current)
      (padTo 4 ((State.new {}).bytes (State.new {}).current)).length 2) 0x100000 10 0x100008 := by
  obtain ⟨p, listed, along, accepted, found, target, start⟩ : ∃ p : Program Env.noFiles {},
      p.statements =
          [.opcode laOfA laOfA_wellFormed, .label (lit "a"), .data .word [0, 0, 0, 0]] ∧
        Along Statement.exec Growing (State.new {}) p.statements ∧
        p.final.state.finish.isOk = true ∧
        (result p.final.state.finish).lookup[lit "a"]? = some ⟨lit ".text", 8, 0, 0⟩ ∧
        0x100008 = (result p.final.state.finish).address ⟨lit ".text", 8, 0, 0⟩ ∧
        0x100000 = (result p.final.state.finish).address (endOf (State.new {}).current
          (padTo 4 ((State.new {}).bytes (State.new {}).current))) :=
    ⟨Program.ofSource {} (lit "la a0, a\na: dw 0") (by decide +kernel), by decide +kernel⟩
  let f : Finished Env.noFiles {} := ⟨p, result p.final.state.finish, eq_ok_result accepted⟩
  obtain ⟨sym, found', meets⟩ := @la_resolves_iff Env.noFiles {} f []
    [.label (lit "a"), .data .word [0, 0, 0, 0]] (State.new {}) 10 1 1 [] (lit "a") [] [] laOfA
    laOfA_wellFormed (by decide) opLa_words ⟨listed, run_nil_iff.mpr rfl⟩ (p.grows_iff.mpr along)
  cases found.symm.trans found'
  exact ⟨f, (meets 0x100000 0x100008 start target).mpr (by decide) (Or.inl (by decide))⟩

theorem la_misses_far_label :
    ∃ (f : Finished Env.noFiles {}) (post : List Statement) (sym : SymbolLocation),
      f.program.Processes [] (.opcode laOfA laOfA_wellFormed) post (State.new {}) ∧
      f.state.lookup[lit "a"]? = some sym ∧ f.state.address sym = 0x800FF800 ∧
      f.state.address (endOf (State.new {}).current
        (padTo 4 ((State.new {}).bytes (State.new {}).current))) = 0x100000 ∧
      InRange (0x800FF800 - 0x100000 : BitVec 128).toInt ∧
      ¬ Leaves (wordsAt (f.state.bytes (State.new {}).current)
        (padTo 4 ((State.new {}).bytes (State.new {}).current)).length 2) 0x100000 10
        0x800FF800 := by
  obtain ⟨p, listed, accepted, found, target, start, near, left⟩ : ∃ p : Program Env.noFiles {},
      p.statements = [.opcode laOfA laOfA_wellFormed, .sect (lit ".data"), .org 0x800FF800,
          .label (lit "a"), .data .word [0, 0, 0, 0]] ∧
        p.final.state.finish.isOk = true ∧
        (result p.final.state.finish).lookup[lit "a"]? = some ⟨lit ".data", 0, 0, 0⟩ ∧
        (result p.final.state.finish).address ⟨lit ".data", 0, 0, 0⟩ = 0x800FF800 ∧
        (result p.final.state.finish).address (endOf (State.new {}).current
          (padTo 4 ((State.new {}).bytes (State.new {}).current))) = 0x100000 ∧
        InRange (0x800FF800 - 0x100000 : BitVec 128).toInt ∧
        (run (wordsAt ((result p.final.state.finish).bytes (State.new {}).current)
          (padTo 4 ((State.new {}).bytes (State.new {}).current)).length 2)
            ⟨0x100000, fun _ => 0⟩).map (fun m => m.read 10) ≠ some 0x800FF800 :=
    ⟨Program.ofSource {} (lit "la a0, a\n.section .data\n.org 0x800FF800\na: dw 0")
      (by decide +kernel), by decide +kernel⟩
  refine ⟨⟨p, result p.final.state.finish, eq_ok_result accepted⟩, _, _,
    ⟨listed, run_nil_iff.mpr rfl⟩, found, target, start, near, fun leaves => left ?_⟩
  obtain ⟨m, ran, value⟩ := leaves ⟨0x100000, fun _ => 0⟩ rfl
  rw [ran, Option.map_some, value]
end BigAsm
