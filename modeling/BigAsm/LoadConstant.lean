import Mathlib
import BigAsm.Opcodes
import BigAsm.Library.Rv128

/- The constant loaders as programs. build_uint32 leaves a 32-bit piece in a register, less
   2^32 when the rounded upper part turns negative; set and laq put four pieces together. -/
namespace BigAsm
open Instruction BitFields Rv128

def luiWord (reg : BitVec 5) (imm : BitVec 20) : Instruction :=
  Utype.setImm imm (setRd reg (new RV32I_LUI))

def addiWord (reg src : BitVec 5) (imm : BitVec 12) : Instruction :=
  setRs1 src (Itype.setImm imm (setRd reg (new RV32I_OP_IMM)))

section Decode
variable (reg src dst temp : BitVec 5)

theorem decode_luiWord (imm : BitVec 20) : decode (luiWord reg imm) = some (.lui reg imm) := by
  have op : (new RV32I_LUI).extractLsb' 0 7 = 0b0110111 := by decide
  have h := decode_lui (w := luiWord reg imm) (by simp [luiWord, extract_put_disjoint, op])
  simpa [luiWord, extract_put_disjoint] using h

theorem decode_addiWord (imm : BitVec 12) :
    decode (addiWord reg src imm) = some (.addi reg src imm) := by
  have op : (new RV32I_OP_IMM).extractLsb' 0 7 = 0b0010011 := by decide
  have funct3 : (new RV32I_OP_IMM).extractLsb' 12 3 = 0 := by decide
  have h := decode_addi (w := addiWord reg src imm) (by simp [addiWord, extract_put_disjoint, op])
    (by simp [addiWord, extract_put_disjoint, funct3])
  simpa [addiWord, extract_put_disjoint] using h

theorem decode_shiftLeft32 : decode (shiftLeft32 dst) = some (.slli dst dst 32) := by
  have op : (new RV32I_OP_IMM).extractLsb' 0 7 = 0b0010011 := by decide
  have h := @decode_slli (shiftLeft32 dst) 32
    (by simp [shiftLeft32, extract_put_disjoint, op])
    (by simp [shiftLeft32, extract_put_disjoint]) (by simp [shiftLeft32])
  simpa [shiftLeft32, extract_put_disjoint] using h

theorem decode_addTemp : decode (addTemp dst temp) = some (.add dst dst temp) := by
  have op : (new RV32I_OP).extractLsb' 0 7 = 0b0110011 := by decide
  have funct3 : (new RV32I_OP).extractLsb' 12 3 = 0 := by decide
  have funct7 : (new RV32I_OP).extractLsb' 25 7 = 0 := by decide
  have h := decode_add (w := addTemp dst temp) (by simp [addTemp, extract_put_disjoint, op])
    (by simp [addTemp, extract_put_disjoint, funct3])
    (by simp [addTemp, extract_put_disjoint, funct7])
  simpa [addTemp, extract_put_disjoint] using h

end Decode

theorem low_bits_ne_zero (value : BitVec 32) : value &&& 0xFFF ≠ 0 ↔ lower value ≠ 0 := by
  have mask : (value &&& 0xFFF).toNat = value.toNat % 4096 :=
    Nat.and_two_pow_sub_one_eq_mod value.toNat 12
  have low : (lower value).toNat = value.toNat % 4096 := by simp [lower]
  rw [ne_eq, ne_eq, ← BitVec.toNat_inj, ← BitVec.toNat_inj, mask, low]
  rfl

theorem buildUint32_eq (reg : BitVec 5) (value : BitVec 32) :
    buildUint32 reg value =
      if upper value ≠ 0 then
        luiWord reg (upper value) ::
          if lower value ≠ 0 then [addiWord reg reg (lower value)] else []
      else [addiWord reg 0 (lower value)] := by
  have high : ((value + ((value.setWidth 12).setWidth 32)).sshiftRight 12).setWidth 20 =
      upper value := setWidth_sshiftRight _ (by decide)
  have blank : (Itype.setImm (value.setWidth 12) (setRd reg (new RV32I_OP_IMM))).extractLsb' 15 5 =
      0 := by
    have op : (new RV32I_OP_IMM).extractLsb' 15 5 = 0 := by decide
    simp [extract_put_disjoint, op]
  have alone : Itype.setImm (value.setWidth 12) (setRd reg (new RV32I_OP_IMM)) =
      addiWord reg 0 (lower value) := by
    rw [addiWord, ← blank]
    exact (put_extract _).symm
  have read : Itype.imm (Itype.setImm (value.setWidth 12) (setRd reg (new RV32I_OP_IMM))) =
      value.setWidth 12 := extract_put_self _ _ (by decide)
  have written : Utype.imm (Utype.setImm (upper value) (setRd reg (new RV32I_LUI))) =
      upper value := extract_put_self _ _ (by decide)
  unfold buildUint32
  simp only [read, high, written, low_bits_ne_zero]
  split
  · rfl
  · rw [alone]

/- Running the instructions. Frames are stated on reads, so x0 needs no exception. -/

/-- A run of ws leaves v in reg and every other register as it was. -/
def Puts (ws : List Instruction) (h : Hart) (reg : BitVec 5) (v : BitVec 128) : Prop :=
  ∃ h', run ws h = some h' ∧ ∀ q, h'.read q = if q = reg then v else h.read q

theorem run_single {w : Instruction} {i : Instr} (decoded : decode w = some i) (h : Hart) :
    run [w] h = some (i.exec h) := by
  rw [run_cons decoded, run]

section Run
variable {reg : BitVec 5}

theorem luiWord_puts (nonzero : reg ≠ 0) (imm : BitVec 20) (h : Hart) :
    Puts [luiWord reg imm] h reg (upperImm imm) :=
  ⟨_, run_single (decode_luiWord reg imm) h, fun q => Hart.read_write h reg q _ nonzero⟩

theorem addiWord_puts (nonzero : reg ≠ 0) (src : BitVec 5) (imm : BitVec 12) (h : Hart) :
    Puts [addiWord reg src imm] h reg (h.read src + imm.signExtend 128) :=
  ⟨_, run_single (decode_addiWord reg src imm) h, fun q => Hart.read_write h reg q _ nonzero⟩

theorem shiftLeft32_puts (nonzero : reg ≠ 0) (h : Hart) :
    Puts [shiftLeft32 reg] h reg (h.read reg <<< 32) :=
  ⟨_, run_single (decode_shiftLeft32 reg) h, fun q => Hart.read_write h reg q _ nonzero⟩

theorem addTemp_puts (nonzero : reg ≠ 0) (temp : BitVec 5) (h : Hart) :
    Puts [addTemp reg temp] h reg (h.read reg + h.read temp) :=
  ⟨_, run_single (decode_addTemp reg temp) h, fun q => Hart.read_write h reg q _ nonzero⟩

theorem Puts.append {ws vs : List Instruction} {h : Hart} {v v' : BitVec 128}
    (first : Puts ws h reg v)
    (second : ∀ m : Hart, (∀ q, m.read q = if q = reg then v else h.read q) → Puts vs m reg v') :
    Puts (ws ++ vs) h reg v' := by
  obtain ⟨m, run, reads⟩ := first
  obtain ⟨m', run', reads'⟩ := second m reads
  refine ⟨m', by rw [run_append, run]; exact run', fun q => ?_⟩
  rw [reads', reads]
  split <;> rfl

theorem luiAddi_puts (nonzero : reg ≠ 0) (value : BitVec 32) (h : Hart) :
    Puts [luiWord reg (upper value), addiWord reg reg (lower value)] h reg (joined value) := by
  refine @Puts.append reg [_] [_] h _ _ (luiWord_puts nonzero _ h) fun m reads => ?_
  have same : joined value = m.read reg + (lower value).signExtend 128 := by
    rw [reads, if_pos rfl]
    rfl
  rw [same]
  exact addiWord_puts nonzero reg _ m

theorem buildUint32_puts (nonzero : reg ≠ 0) (value : BitVec 32) (h : Hart) :
    Puts (buildUint32 reg value) h reg (joined value) := by
  rw [buildUint32_eq]
  split
  · split
    · exact luiAddi_puts nonzero value h
    · rename_i none
      have same : joined value = upperImm (upper value) := by
        rw [joined, not_not.mp none]
        simp
      rw [same]
      exact luiWord_puts nonzero _ h
  · rename_i none
    have same : joined value = h.read 0 + (lower value).signExtend 128 := by
      rw [joined, not_not.mp none]
      rfl
    rw [same]
    exact addiWord_puts nonzero 0 _ h

end Run

def piece (v : BitVec 128) (i : Nat) : BitVec 32 := v.extractLsb' (32 * i) 32

def combine (acc : BitVec 128) (p : BitVec 32) : BitVec 128 := acc <<< 32 + joined p

def assembled (v : BitVec 128) : BitVec 128 :=
  combine (combine (combine (joined (piece v 3)) (piece v 2)) (piece v 1)) (piece v 0)

/-- A run of ws leaves v in dst, and changes no register other than dst and temp. -/
def Builds (ws : List Instruction) (h : Hart) (dst temp : BitVec 5) (v : BitVec 128) : Prop :=
  ∃ h', run ws h = some h' ∧ h'.read dst = v ∧ ∀ q, q ≠ dst → q ≠ temp → h'.read q = h.read q

section Combine
variable {dst temp : BitVec 5}

theorem Puts.builds {ws : List Instruction} {h : Hart} {v : BitVec 128} (puts : Puts ws h dst v) :
    Builds ws h dst temp v := by
  obtain ⟨h', run, reads⟩ := puts
  refine ⟨h', run, by rw [reads, if_pos rfl], fun q other _ => ?_⟩
  rw [reads, if_neg other]

theorem Builds.append {ws vs : List Instruction} {h : Hart} {v v' : BitVec 128}
    (first : Builds ws h dst temp v)
    (second : ∀ m : Hart, m.read dst = v → Builds vs m dst temp v') :
    Builds (ws ++ vs) h dst temp v' := by
  obtain ⟨m, run, value, frame⟩ := first
  obtain ⟨m', run', value', frame'⟩ := second m value
  refine ⟨m', by rw [run_append, run]; exact run', value', fun q hd ht => ?_⟩
  rw [frame' q hd ht, frame q hd ht]

theorem round_builds (hd : dst ≠ 0) (distinct : dst ≠ temp)
    {load : List Instruction} {p : BitVec 32} (loads : ∀ h, Puts load h temp (joined p))
    (shift : Bool) {h : Hart} {acc : BitVec 128} (value : h.read dst = acc)
    (skipped : shift = false → acc = 0) :
    Builds (load ++ (if shift then [shiftLeft32 dst] else []) ++ [addTemp dst temp]) h dst temp
      (combine acc p) := by
  obtain ⟨m, run, reads⟩ := loads h
  have kept : m.read dst = acc := by rw [reads, if_neg distinct, value]
  have loaded : m.read temp = joined p := by rw [reads, if_pos rfl]
  have shifted : Puts (if shift then [shiftLeft32 dst] else []) m dst (acc <<< 32) := by
    cases shift with
    | true =>
      rw [← kept]
      exact shiftLeft32_puts hd m
    | false =>
      have zero := skipped rfl
      refine ⟨m, rfl, fun q => ?_⟩
      split
      · rename_i here
        rw [here, kept, zero]
        rfl
      · rfl
  obtain ⟨m', run', reads'⟩ := shifted
  obtain ⟨m'', run'', reads''⟩ := addTemp_puts hd temp m'
  refine ⟨m'', ?_, ?_, fun q od ot => ?_⟩
  · rw [run_append, run_append, run]
    change (Rv128.run _ m).bind _ = _
    rw [run']
    exact run''
  · rw [reads'', if_pos rfl, reads' dst, if_pos rfl, reads' temp, if_neg (Ne.symm distinct), loaded]
    rfl
  · rw [reads'', if_neg od, reads', if_neg od, reads, if_neg ot]

theorem setLoop_builds (hd : dst ≠ 0) (ht : temp ≠ 0) (distinct : dst ≠ temp) (whole : BitVec 128)
    (is : List Nat) {h : Hart} {acc valueSoFar : BitVec 128} {n : Nat}
    (width : n + 32 * is.length ≤ 128) (value : h.read dst = acc)
    (zero : (∀ i < n, valueSoFar.getLsbD i = false) → acc = 0) :
    Builds (setLoop dst temp whole is valueSoFar) h dst temp
      (is.foldl (fun acc i => combine acc (piece whole i)) acc) := by
  induction is generalizing h acc valueSoFar n with
  | nil => exact ⟨h, rfl, value, fun _ _ _ => rfl⟩
  | cons i is ih =>
    rw [List.length_cons] at width
    have skipped : decide (valueSoFar ≠ 0) = false → acc = 0 := by
      intro none
      refine zero fun j _ => ?_
      rw [not_not.mp (of_decide_eq_false none)]
      simp
    have first := round_builds hd distinct (buildUint32_puts ht (piece whole i))
      (decide (valueSoFar ≠ 0)) value skipped
    simp only [decide_eq_true_eq] at first
    refine first.append fun m reads => ih (n := n + 32) (by omega) reads ?_
    -- the low n + 32 bits are those of the new piece and, above them, the old low n bits
    intro low
    have empty : piece whole i = 0 := by
      apply BitVec.eq_of_getLsbD_eq
      intro j hj
      have bit := low j (by omega)
      rw [BitVec.getLsbD_or, BitVec.getLsbD_shiftLeft, BitVec.getLsbD_signExtend] at bit
      simpa [piece, hj, show j < 128 by omega] using bit
    have before : acc = 0 := by
      refine zero fun j hj => ?_
      have bit := low (j + 32) (by omega)
      rw [BitVec.getLsbD_or, BitVec.getLsbD_shiftLeft] at bit
      have both := (Bool.or_eq_false_iff.mp bit).1
      simpa [show j + 32 < 128 by omega] using both
    change combine acc (piece whole i) = 0
    rw [before, empty]
    rfl

theorem setWords_builds (hd : dst ≠ 0) (ht : temp ≠ 0) (distinct : dst ≠ temp) (v : BitVec 128)
    (h : Hart) : Builds (setWords dst temp v) h dst temp (assembled v) := by
  unfold setWords
  split
  · rename_i small
    have whole : v.setWidth 32 = piece v 0 := by
      ext i hi
      simp [piece]
    have high : ∀ i, 1 ≤ i → piece v i = 0 := by
      intro i hi
      have bound : 2 ^ 32 ≤ 2 ^ (32 * i) := Nat.pow_le_pow_right (by decide) (by omega)
      apply BitVec.eq_of_toNat_eq
      rw [piece, BitVec.extractLsb'_toNat, Nat.shiftRight_eq_div_pow, Nat.div_eq_of_lt (by omega)]
      rfl
    have same : assembled v = joined (piece v 0) := by
      rw [assembled, high 1 (by omega), high 2 (by omega), high 3 (by omega), combine]
      have none : combine (combine (joined 0) 0) 0 = 0 := by rfl
      rw [none]
      simp
    rw [whole, same]
    exact (buildUint32_puts hd _ h).builds
  · refine (buildUint32_puts hd (piece v 3) h).builds.append fun m reads => ?_
    refine setLoop_builds hd ht distinct v [2, 1, 0] (n := 32) (by decide) reads fun low => ?_
    have empty : piece v 3 = 0 := by
      apply BitVec.eq_of_getLsbD_eq
      intro j hj
      have bit := low j hj
      rw [BitVec.getLsbD_signExtend] at bit
      simpa [piece, hj, show j < 128 by omega] using bit
    rw [empty]
    rfl

end Combine

theorem piece_toNat (v : BitVec 128) (i : Nat) :
    (piece v i).toNat = v.toNat / 2 ^ (32 * i) % 2 ^ 32 := by
  rw [piece, BitVec.extractLsb'_toNat, Nat.shiftRight_eq_div_pow]

def borrow (p : BitVec 32) : Nat := if p.toNat < roundingLimit then 0 else 1

theorem combine_toNat {acc : BitVec 128} {p : BitVec 32} {x d : Nat}
    (value : (acc.toNat + 2 ^ 32 * d) % 2 ^ 128 = x % 2 ^ 128) :
    ((combine acc p).toNat + 2 ^ 32 * (2 ^ 32 * d + borrow p)) % 2 ^ 128 =
      (x * 2 ^ 32 + p.toNat) % 2 ^ 128 := by
  have up : (acc <<< 32).toNat = acc.toNat * 2 ^ 32 % 2 ^ 128 := by
    rw [BitVec.toNat_shiftLeft, Nat.shiftLeft_eq]
  rw [combine, BitVec.toNat_add, up, joined_toNat, borrow]
  split <;> omega

theorem joined_borrow (p : BitVec 32) :
    ((joined p).toNat + 2 ^ 32 * borrow p) % 2 ^ 128 = p.toNat % 2 ^ 128 := by
  have bound := p.isLt
  rw [joined_toNat, borrow]
  split <;> omega

theorem assembled_borrow (v : BitVec 128) :
    ((assembled v).toNat + 2 ^ 32 * (2 ^ 64 * borrow (piece v 2) + 2 ^ 32 * borrow (piece v 1) +
      borrow (piece v 0))) % 2 ^ 128 = v.toNat := by
  have step := combine_toNat (p := piece v 0)
    (combine_toNat (p := piece v 1) (combine_toNat (p := piece v 2) (joined_borrow (piece v 3))))
  have bound := v.isLt
  rw [piece_toNat v 0, piece_toNat v 1, piece_toNat v 2, piece_toNat v 3] at step
  rw [assembled]
  omega

/-- A piece below the limit is exact; the others lose 2^32 each, which is lost for the top one. -/
theorem assembled_eq_iff (v : BitVec 128) :
    assembled v = v ↔ ∀ i < 3, (piece v i).toNat < roundingLimit := by
  have sum := assembled_borrow v
  have bound := v.isLt
  have bound' := (assembled v).isLt
  have unit : ∀ i, borrow (piece v i) = 0 ∧ (piece v i).toNat < roundingLimit ∨
      borrow (piece v i) = 1 ∧ ¬ (piece v i).toNat < roundingLimit := by
    intro i
    by_cases small : (piece v i).toNat < roundingLimit
    · exact Or.inl ⟨if_pos small, small⟩
    · exact Or.inr ⟨if_neg small, small⟩
  constructor
  · intro same
    rw [same] at sum
    intro i hi
    rcases unit 0 with ⟨b0, s0⟩ | ⟨b0, s0⟩ <;> rcases unit 1 with ⟨b1, s1⟩ | ⟨b1, s1⟩ <;>
      rcases unit 2 with ⟨b2, s2⟩ | ⟨b2, s2⟩ <;> rw [b0, b1, b2] at sum <;> try omega
    interval_cases i <;> assumption
  · intro small
    have zero : ∀ i < 3, borrow (piece v i) = 0 := fun i hi => if_pos (small i hi)
    rw [zero 0 (by decide), zero 1 (by decide), zero 2 (by decide)] at sum
    apply BitVec.eq_of_toNat_eq
    omega

theorem opSet_words {dst temp : BitVec 5} {l m : BitVec 32} {a b : Str} {cs rest : List Token}
    {imm : Token} (const : resolveConstants cs = .ok (imm, rest)) :
    opSet (⟨.register dst, l, a⟩ :: ⟨.register temp, m, b⟩ :: cs) =
      .ok ({ words := setWords dst temp imm.u128 }, rest) := by
  refine Runs.stateT_bind_ok_iff.mpr ⟨⟨.register dst, l, a⟩, _, rfl, ?_⟩
  refine Runs.stateT_bind_ok_iff.mpr ⟨⟨.register temp, m, b⟩, _, rfl, ?_⟩
  refine Runs.stateT_bind_ok_iff.mpr ⟨imm, rest, const, ?_⟩
  rw [Token.reg_register, Token.reg_register]
  rfl

theorem Builds.value {ws : List Instruction} {h : Hart} {dst temp : BitVec 5} {v v' : BitVec 128}
    (first : Builds ws h dst temp v) (second : Builds ws h dst temp v') : v = v' := by
  obtain ⟨m, run, value, -⟩ := first
  obtain ⟨m', run', value', -⟩ := second
  cases run.symm.trans run'
  exact value.symm.trans value'

/-- set leaves its constant in dst exactly when none of the three low 32-bit words reaches
    2^31 - 2^11; it never touches a third register. -/
theorem set_loads_constant_iff {dst temp : BitVec 5} (hd : dst ≠ 0) (ht : temp ≠ 0)
    (distinct : dst ≠ temp) {l m : BitVec 32} {a b : Str} {cs rest rest' : List Token}
    {imm : Token} {code : Code} (const : resolveConstants cs = .ok (imm, rest'))
    (returned : opSet (⟨.register dst, l, a⟩ :: ⟨.register temp, m, b⟩ :: cs) = .ok (code, rest)) :
    (∀ h, Builds code.words h dst temp imm.u128) ↔
      ∀ i < 3, (piece imm.u128 i).toNat < roundingLimit := by
  rw [opSet_words const] at returned
  cases returned
  have built := setWords_builds hd ht distinct imm.u128
  rw [← assembled_eq_iff]
  constructor
  · intro exact_
    exact (built ⟨0, fun _ => 0⟩).value (exact_ ⟨0, fun _ => 0⟩)
  · intro same h
    have here := built h
    rwa [same] at here

theorem set_loads_small_constant :
    Builds (setWords 10 11 0x123456789ABC) ⟨0, fun _ => 0⟩ 10 11 0x123456789ABC :=
  (@set_loads_constant_iff 10 11 (by decide) (by decide) (by decide) 1 1 [] []
    [⟨.constant 0x123456789ABC, 1, []⟩] [] [] ⟨.constant 0x123456789ABC, 1, []⟩
    { words := setWords 10 11 0x123456789ABC } rfl
    (@opSet_words 10 11 1 1 [] [] [⟨.constant 0x123456789ABC, 1, []⟩] []
      ⟨.constant 0x123456789ABC, 1, []⟩ rfl)).mpr (by decide) _

theorem set_high_bit_smeared :
    (run (setWords 10 11 0x80000000) ⟨0, fun _ => 0⟩).map (fun h => h.read 10) =
      some 0xFFFFFFFFFFFFFFFFFFFFFFFF80000000 := by
  decide +kernel

theorem opLi_words {reg : BitVec 5} {l : BitVec 32} {a : Str} {cs rest : List Token} {imm : Token}
    (const : resolveConstants cs = .ok (imm, rest)) :
    opLi (⟨.register reg, l, a⟩ :: cs) =
      .ok ({ words := buildUint32 reg (imm.u64.setWidth 32) }, rest) := by
  refine Runs.stateT_bind_ok_iff.mpr ⟨⟨.register reg, l, a⟩, _, rfl, ?_⟩
  refine Runs.stateT_bind_ok_iff.mpr ⟨imm, rest, const, ?_⟩
  rw [Token.reg_register]
  rfl

theorem Puts.value {ws : List Instruction} {h : Hart} {reg : BitVec 5} {v v' : BitVec 128}
    (first : Puts ws h reg v) (second : Puts ws h reg v') : v = v' := by
  obtain ⟨m, run, reads⟩ := first
  obtain ⟨m', run', reads'⟩ := second
  cases run.symm.trans run'
  have same := (reads reg).symm.trans (reads' reg)
  rwa [if_pos rfl, if_pos rfl] at same

theorem joined_signed_iff {value : BitVec 64} {v : Int} (same : value.toInt = v)
    (low : -2 ^ 31 ≤ v) (high : v ≤ 2 ^ 31 - 1) :
    joined (value.setWidth 32) = BitVec.ofInt 128 v ↔ v < roundingLimit := by
  have bound := value.isLt
  rw [BitVec.toInt_eq_toNat_cond] at same
  have whole : ((BitVec.ofInt 128 v).toNat : Int) = v % 2 ^ 128 := by
    rw [BitVec.toNat_ofInt]
    omega
  rw [← BitVec.toNat_inj, joined_toNat, BitVec.toNat_setWidth, roundingLimit]
  split at same <;> split <;> omega

/-- li leaves every 32-bit constant below 2^31 - 2^11 in its register and changes no other one;
    from there on the register gets the constant less 2^32. -/
theorem li_loads_constant_iff {reg : BitVec 5} (nonzero : reg ≠ 0) {l : BitVec 32} {a : Str}
    {cs rest rest' : List Token} {imm : Token} {code : Code} {v : Int}
    (const : resolveConstants cs = .ok (imm, rest'))
    (returned : opLi (⟨.register reg, l, a⟩ :: cs) = .ok (code, rest))
    (value : imm.u64.toInt = v) (low : -2 ^ 31 ≤ v) (high : v ≤ 2 ^ 31 - 1) :
    (∀ h, Puts code.words h reg (BitVec.ofInt 128 v)) ↔ v < roundingLimit := by
  rw [opLi_words const] at returned
  cases returned
  have built := buildUint32_puts nonzero (imm.u64.setWidth 32)
  rw [← joined_signed_iff value low high]
  constructor
  · intro loads
    exact (built ⟨0, fun _ => 0⟩).value (loads ⟨0, fun _ => 0⟩)
  · intro same h
    have here := built h
    rwa [same] at here

theorem li_loads_minus_one :
    Puts (buildUint32 10 0xFFFFFFFF) ⟨0, fun _ => 0⟩ 10 (BitVec.ofInt 128 (-1)) :=
  (@li_loads_constant_iff 10 (by decide) 1 [] [⟨.constant 0xFFFFFFFFFFFFFFFF, 1, []⟩] [] []
    ⟨.constant 0xFFFFFFFFFFFFFFFF, 1, []⟩ { words := buildUint32 10 0xFFFFFFFF } (-1) rfl
    (@opLi_words 10 1 [] [⟨.constant 0xFFFFFFFFFFFFFFFF, 1, []⟩] []
      ⟨.constant 0xFFFFFFFFFFFFFFFF, 1, []⟩ rfl)
    (by decide) (by decide) (by decide)).mpr (by decide) ⟨0, fun _ => 0⟩

theorem li_largest_constant_wraps : ∃ code,
    opLi [⟨.register 10, 1, lit "a0"⟩, ⟨.constant 0x7FFFFFFF, 1, lit "2147483647"⟩] = .ok (code, []) ∧
      ¬ Puts code.words ⟨0, fun _ => 0⟩ 10 (BitVec.ofInt 128 2147483647) := by
  refine ⟨_, opLi_words rfl, fun loads => ?_⟩
  have left := (@buildUint32_puts 10 (by decide) 0x7FFFFFFF ⟨0, fun _ => 0⟩).value loads
  revert left
  decide

end BigAsm
