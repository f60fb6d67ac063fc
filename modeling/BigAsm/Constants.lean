import Mathlib
import BigAsm.Actions
import BigAsm.Growth
import BigAsm.Library.CData

/- The data pseudo-ops: which bytes db, dh, dw, dd and dq put behind the output of a section. -/
namespace BigAsm
open ByteStore Runs

namespace Scale

def dataOp : Scale → PseudoOp
  | .byte => .data8
  | .half => .data16
  | .word => .data32
  | .double => .data64
  | .quad => .data128

def encoding (scale : Scale) (v : BitVec 128) : List Byte :=
  littleEndian (2 ^ scale.exponent) (v.setWidth (8 * 2 ^ scale.exponent))

def appended (scale : Scale) (v : BitVec 128) (bs : List Byte) : List Byte :=
  bs ++ List.replicate (CData.padding bs.length (2 ^ scale.exponent)) 0 ++ scale.encoding v

/-- What the handler reads of a constant: dq goes through the 64-bit member like the others. -/
def constantStatement (scale : Scale) (v : BitVec 128) : Statement :=
  match scale with
  | .byte => .db ((v.setWidth 64).setWidth 8)
  | .half => .data .half (littleEndian 2 ((v.setWidth 64).setWidth 16))
  | .word => .data .word (littleEndian 4 ((v.setWidth 64).setWidth 32))
  | .double => .data .double (littleEndian 8 (v.setWidth 64))
  | .quad => .data .quad (littleEndian 16 ((v.setWidth 64).setWidth 128))

end Scale

theorem littleEndian_inj {n : Nat} {u v : BitVec w} (bound : 2 ^ w ≤ 256 ^ n)
    (same : littleEndian n u = littleEndian n v) : u = v := by
  have numbers := congrArg CData.number same
  rw [CData.number_littleEndian, CData.number_littleEndian,
    Nat.mod_eq_of_lt (u.isLt.trans_le bound), Nat.mod_eq_of_lt (v.isLt.trans_le bound)] at numbers
  exact BitVec.eq_of_toNat_eq numbers

theorem padTo_eq_append {a : BitVec 64} {k : Nat} (power : a.toNat = 2 ^ k) (small : k ≤ 4)
    {bs : List Byte} (fits : bs.length ≤ maxSize) :
    padTo a bs = bs ++ List.replicate (CData.padding bs.length (2 ^ k)) 0 := by
  have length := padTo_length power small fits
  have zeros : (bs.length + (2 ^ k - 1)) / 2 ^ k * 2 ^ k - bs.length =
      CData.padding bs.length (2 ^ k) := by
    unfold CData.padding
    interval_cases k <;> omega
  have grown : bs.length ≤ (bs.length + (2 ^ k - 1)) / 2 ^ k * 2 ^ k := by
    interval_cases k <;> omega
  unfold padTo at length ⊢
  split
  · rename_i large
    rw [if_pos large, Buffer.resized_length] at length
    rw [length, Buffer.resized_eq_append grown, zeros]
  · rename_i one
    rw [if_neg one] at length
    have none : CData.padding bs.length (2 ^ k) = 0 := by omega
    rw [none, List.replicate_zero, List.append_nil]

def Scale.written (scale : Scale) (v : BitVec 128) : List Byte :=
  littleEndian (2 ^ scale.exponent) ((v.setWidth 64).setWidth (8 * 2 ^ scale.exponent))

theorem Scale.written_iff (scale : Scale) (v : BitVec 128) :
    scale.written v = scale.encoding v ↔ (scale = .quad → v.toNat < 2 ^ 64) := by
  have narrow : ∀ {w : Nat}, w ≤ 64 → (v.setWidth 64).setWidth w = v.setWidth w :=
    fun small => BitVec.setWidth_setWidth_of_le v small
  cases scale with
  | quad =>
    rw [eq_self, true_imp_iff]
    constructor
    · intro same
      have kept : ((v.setWidth 64).setWidth 128).toNat = (v.setWidth 128).toNat :=
        congrArg BitVec.toNat (littleEndian_inj (by decide) same)
      rw [BitVec.toNat_setWidth_of_le (by decide), BitVec.setWidth_eq] at kept
      exact kept ▸ (v.setWidth 64).isLt
    · intro small
      have kept : (v.setWidth 64).setWidth 128 = v.setWidth 128 := by
        apply BitVec.eq_of_toNat_eq
        rw [BitVec.toNat_setWidth_of_le (by decide), BitVec.toNat_setWidth, BitVec.setWidth_eq]
        omega
      exact congrArg (littleEndian 16) kept
  | byte => exact iff_of_true (congrArg (littleEndian 1) (narrow (by decide))) nofun
  | half => exact iff_of_true (congrArg (littleEndian 2) (narrow (by decide))) nofun
  | word => exact iff_of_true (congrArg (littleEndian 4) (narrow (by decide))) nofun
  | double => exact iff_of_true (congrArg (littleEndian 8) (narrow (by decide))) nofun

theorem constantStatement_output (scale : Scale) (v : BitVec 128) {bs : List Byte}
    (fits : bs.length ≤ maxSize) : (scale.constantStatement v).output bs =
      bs ++ List.replicate (CData.padding bs.length (2 ^ scale.exponent)) 0 ++ scale.written v := by
  have padded := padTo_eq_append scale.bytes_toNat scale.exponent_le fits
  rw [← padded]
  cases scale with
  | byte => exact congrArg (· ++ _) (Statement.padTo_small (by decide) bs).symm
  | half | word | double | quad => rfl

namespace Section

theorem addOutput_exists {s : Section} {type : OutputType} {data : List Byte}
    (room : (s.output.bytes ++ data).length ≤ maxSize) : ∃ t, s.addOutput type data = .ok t := by
  have grown : s.output.append data = some ⟨_, room⟩ := dif_pos room
  refine ⟨_, bind_ok_iff.mpr ⟨_, setOutput_ok_iff.mpr ⟨_, grown, rfl⟩, rfl⟩⟩

theorem align_exists {s : Section} {a : BitVec 64}
    (room : (alignedSize s.output.bytes.length a) ≤ maxSize) : ∃ t, s.align a = .ok t := by
  have grown : ∃ b, s.output.resize (alignedSize s.size a) = some b := ⟨_, dif_pos room⟩
  obtain ⟨b, grown⟩ := grown
  unfold align
  dsimp only
  split
  · exact ⟨_, setOutput_ok_iff.mpr ⟨b, grown, rfl⟩⟩
  · exact ⟨s, rfl⟩

theorem alignWithLabels_exists {s : Section} {a : BitVec 64}
    (room : (padTo a s.output.bytes).length ≤ maxSize) :
    ∃ t, s.alignWithLabels a = .ok t ∧ t.output.bytes = padTo a s.output.bytes := by
  unfold padTo at room ⊢
  unfold alignWithLabels alignAbove
  split
  · rename_i large
    rw [if_pos large, Buffer.resized_length] at room
    obtain ⟨t, done⟩ := align_exists room
    rw [done]
    exact ⟨_, rfl, (align_ok done).1⟩
  · exact ⟨_, rfl, rfl⟩

end Section

theorem constantStatement_exec_iff (scale : Scale) (v : BitVec 128) (s : State) :
    (∃ t, (scale.constantStatement v).exec s = .ok t) ↔
      ((scale.constantStatement v).output (s.bytes s.current)).length ≤ maxSize := by
  constructor
  · rintro ⟨t, run⟩
    have after := (Statement.exec_effect run).bytes s.current
    rw [if_pos rfl] at after
    rw [← after]
    exact t.bytes_fits s.current
  · intro room
    have acts : ∃ sect, (scale.constantStatement v).act s.currentSection = .ok sect := by
      have data : ∀ new : List Byte,
          (padTo scale.bytes (s.bytes s.current) ++ new).length ≤ maxSize →
          ∃ sect, (Statement.data scale new).act s.currentSection = .ok sect := by
        intro new room
        rw [List.length_append] at room
        have padded : (padTo scale.bytes s.currentSection.output.bytes).length ≤ maxSize :=
          le_trans (Nat.le_add_right _ _) room
        obtain ⟨m, aligned, here⟩ := Section.alignWithLabels_exists padded
        have room' : (m.output.bytes ++ new).length ≤ maxSize := by
          rw [here, List.length_append]
          exact room
        obtain ⟨t, done⟩ := @Section.addOutput_exists m .data new room'
        exact ⟨t, bind_ok_iff.mpr ⟨m, aligned, done⟩⟩
      cases scale with
      | byte => exact Section.addOutput_exists room
      | half | word | double | quad => exact data _ room
    obtain ⟨sect, acts⟩ := acts
    have stays : ∀ name, scale.constantStatement v ≠ .sect name := by
      cases scale <;> exact fun _ => nofun
    rw [Statement.exec_eq s stays, acts]
    exact ⟨_, rfl⟩

structure AppendsConstant (scale : Scale) (v : BitVec 128) (a b : Assembler) : Prop where
  current : b.state.current = a.state.current
  bytes : b.state.bytes a.state.current = scale.appended v (a.state.bytes a.state.current)
  others : ∀ n ≠ a.state.current, b.state.bytes n = a.state.bytes n

theorem dataOp_ok_iff (env : Env) (scale : Scale) {v : BitVec 128} {line : BitVec 32} {value : Str}
    {rest : List Token} {a b : Assembler} :
    scale.dataOp.handler env { a with tokens := ⟨.constant v, line, value⟩ :: rest } = .ok ((), b) ↔
      ∃ t, (scale.constantStatement v).exec a.state = .ok t ∧
        { a with state := t, tokens := rest } = b := by
  have listed : pseudoStatement env a.realpath scale.dataOp (⟨.constant v, line, value⟩ :: rest) =
      .ok (.stmt (scale.constantStatement v), rest) := by
    cases scale <;> rfl
  have reads := pseudoOp_reads env (fun _ _ => throw .nesting) a.realpath scale.dataOp
    { a with tokens := ⟨.constant v, line, value⟩ :: rest } ((), b) rfl
  refine reads.trans ⟨?_, fun run => ⟨_, rest, listed, play_stmt_ok_iff.mpr run⟩⟩
  rintro ⟨x, rest', read, played⟩
  cases listed.symm.trans read
  exact play_stmt_ok_iff.mp played

/-- db, dh, dw and dd append the low bits of every constant, and dq those of constants below 2^64,
    as long as the vector has room. -/
theorem data_constant_iff (env : Env) (scale : Scale) (v : BitVec 128) (line : BitVec 32)
    (value : Str) (rest : List Token) (a : Assembler) :
    (∃ b, scale.dataOp.handler env { a with tokens := ⟨.constant v, line, value⟩ :: rest } =
        .ok ((), b) ∧ AppendsConstant scale v a b) ↔
      (scale = .quad → v.toNat < 2 ^ 64) ∧
        (scale.appended v (a.state.bytes a.state.current)).length ≤ maxSize := by
  have output := constantStatement_output scale v (a.state.bytes_fits a.state.current)
  have length : (scale.appended v (a.state.bytes a.state.current)).length =
      ((scale.constantStatement v).output (a.state.bytes a.state.current)).length := by
    rw [output]
    simp [Scale.appended, Scale.encoding, Scale.written]
  have same : (scale.constantStatement v).output (a.state.bytes a.state.current) =
      scale.appended v (a.state.bytes a.state.current) ↔ (scale = .quad → v.toNat < 2 ^ 64) := by
    rw [output, Scale.appended, List.append_cancel_left_eq, Scale.written_iff]
  rw [length, ← constantStatement_exec_iff, ← same]
  constructor
  · rintro ⟨b, run, appends⟩
    obtain ⟨t, done, rfl⟩ := (dataOp_ok_iff env scale).mp run
    refine ⟨?_, t, done⟩
    have after := (Statement.exec_effect done).bytes a.state.current
    rw [if_pos rfl] at after
    exact after.symm.trans appends.bytes
  · rintro ⟨same, t, done⟩
    have effect := Statement.exec_effect done
    refine ⟨_, (dataOp_ok_iff env scale).mpr ⟨t, done, rfl⟩, ?_, ?_, fun n other => ?_⟩
    · rw [effect.current]
      cases scale <;> rfl
    · have after := effect.bytes a.state.current
      rw [if_pos rfl] at after
      exact after.trans same
    · have after := effect.bytes n
      rwa [if_neg other] at after

theorem data_quad_cut : ¬ ∃ b, PseudoOp.data128.handler Env.noFiles
    { Assembler.new {} with tokens := [⟨.constant (1#128 <<< 64), 1, lit "0x10000000000000000"⟩] } =
      .ok ((), b) ∧ AppendsConstant .quad (1#128 <<< 64) (Assembler.new {}) b := by
  have written : (fun p : Unit × Assembler => p.2.state.bytes (lit ".text")) <$>
      PseudoOp.data128.handler Env.noFiles { Assembler.new {} with
        tokens := [⟨.constant (1#128 <<< 64), 1, lit "0x10000000000000000"⟩] } =
      .ok (List.replicate 16 0) := by decide +kernel
  have wanted : Scale.quad.appended (1#128 <<< 64)
      ((Assembler.new {}).state.bytes (Assembler.new {}).state.current) ≠ List.replicate 16 0 := by
    decide +kernel
  rintro ⟨b, run, appends⟩
  rw [run] at written
  exact wanted (appends.bytes.symm.trans (Except.ok.inj written))

end BigAsm
