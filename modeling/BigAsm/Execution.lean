import Mathlib
import BigAsm.Farcalls
import BigAsm.Jumps
import BigAsm.Permissions
import BigAsm.TwoPass
import BigAsm.Library.Rv128Machine

/- What a finished program does when a machine runs it. An instruction with a label has a meaning
   in terms of the address of the label. The words finish() leaves for it do what it means while
   the label is in reach, so a run of the machine is a run of the program with labels. -/
namespace BigAsm
open ByteStore Runs Instruction BitFields Rv128

inductive Labelled where
  | branch (cond : Cond) (rs1 rs2 : BitVec 5)
  | jump (rd : BitVec 5)
  | la (rd : BitVec 5)
  | laq (rd temp : BitVec 5)
  | farcall (temp : BitVec 5)
  deriving DecidableEq, Repr

namespace Labelled

def words : Labelled → List Instruction
  | .branch c rs1 rs2 => [setFunct3 c.funct3 (setRs2 rs2 (setRs1 rs1 (new RV32I_BRANCH)))]
  | .jump rd => [setRd rd (new RV32I_JAL)]
  | .la rd => laWords rd
  | .laq rd temp => laqWords rd temp
  | .farcall temp => farcallWords temp

def fixup : Labelled → Fixup
  | .branch .. => .branch
  | .jump _ => .jump
  | .la _ => .la
  | .laq .. => .laq
  | .farcall _ => .farcall

def code (i : Labelled) (lbl : Str) : Code := { words := i.words, fixup := some (lbl, i.fixup) }

theorem words_length (i : Labelled) : i.words.length = i.fixup.words := by
  cases i with
  | laq rd temp => exact laqWords_length rd temp
  | branch _ _ _ | jump _ | la _ | farcall _ => rfl

theorem words_positive (i : Labelled) : 0 < i.words.length := by
  rw [words_length]
  cases i <;> exact Nat.succ_pos _

end Labelled

/-- The code refers to no label, or it is that of an instruction with a label. -/
def Code.Labels (code : Code) : Prop := code.fixup = none ∨ ∃ i lbl, code = Labelled.code i lbl

theorem branchHelper_labels (c : Cond) : Yields Code.Labels (branchHelper c.funct3) :=
  .bind_any fun reg1 => .bind_any fun reg2 => .bind_any fun lbl =>
    .pure (Or.inr ⟨.branch c reg1.reg reg2.reg, lbl.value, rfl⟩)

theorem opCall_labels : Yields Code.Labels opCall := by
  refine .bind (P := fun code => code.fixup = none ∨ ∃ lbl, code = Labelled.code (.jump 1) lbl)
    ?_ fun code target => .bind_any fun more => .ite (.bind_any fun reg => .pure ?_) (.pure ?_)
  · exact .bind_any fun _ => .ite (.bind_any fun lbl => .pure (Or.inr ⟨lbl.value, rfl⟩))
      (.bind_any fun _ => .ite (.bind_any fun _ => .pure (Or.inl rfl)) (.bind_any fun _ => .throw))
  · rcases target with plain | ⟨lbl, rfl⟩
    · exact Or.inl plain
    · refine Or.inr ⟨.jump reg.reg, lbl, ?_⟩
      have last := @put_put_self 5 32 7 reg.reg 1 (new RV32I_JAL)
      exact congrArg (fun w => Code.mk [w] (some (lbl, Fixup.jump))) last
  · rcases target with plain | ⟨lbl, rfl⟩
    · exact Or.inl plain
    · exact Or.inr ⟨.jump 1, lbl, rfl⟩

theorem handler_labels (op : Opcode) : Yields Code.Labels op.handler := by
  cases op with
  | beq => exact branchHelper_labels .eq
  | bne => exact branchHelper_labels .ne
  | blt => exact branchHelper_labels .lt
  | bge => exact branchHelper_labels .ge
  | bltu => exact branchHelper_labels .ltu
  | bgeu => exact branchHelper_labels .geu
  | call => exact opCall_labels
  | jmp =>
    refine .bind_any fun lbl => .pure (Or.inr ⟨.jump 0, lbl.value, ?_⟩)
    have blank : setRd 0 (new RV32I_JAL) = new RV32I_JAL := by decide
    rw [Labelled.code, Labelled.words, blank]
    rfl
  | la => exact .bind_any fun reg => .bind_any fun lbl => .pure (Or.inr ⟨.la reg.reg, lbl.value, rfl⟩)
  | laq =>
    exact .bind_any fun dst => .bind_any fun temp => .bind_any fun lbl =>
      .pure (Or.inr ⟨.laq dst.reg temp.reg, lbl.value, rfl⟩)
  | farcall =>
    exact .bind_any fun reg => .bind_any fun lbl => .pure (Or.inr ⟨.farcall reg.reg, lbl.value, rfl⟩)
  | ldu => exact .throw
  | nop | ret | ecall | ebreak | wfi => exact .pure (Or.inl rfl)
  | inc | syscall => exact .bind_any fun _ => .pure (Or.inl rfl)
  | li | mov | system => exact .bind_any fun _ => .bind_any fun _ => .pure (Or.inl rfl)
  | set => exact .bind_any fun _ => .bind_any fun _ => .bind_any fun _ => .pure (Or.inl rfl)
  | lb | lh | lw | ld | lbu | lhu | lwu | lq =>
    exact .bind_any fun _ => .bind_any fun _ => .bind_any fun _ => .pure (Or.inl rfl)
  | sb | sh | sw | sd | sq =>
    exact .bind_any fun _ => .bind_any fun _ => .bind_any fun _ =>
      .ite (.bind_any fun _ => .pure (Or.inl rfl)) (.pure (Or.inl rfl))
  | jalr =>
    exact .bind_any fun _ => .bind_any fun _ => .bind_any fun _ =>
      .ite (.bind_any fun _ => .pure (Or.inl rfl)) (.pure (Or.inl rfl))
  | add s | sll s | slt s | sltu s | srl s | and s | or s | xor s =>
    exact .bind_any fun _ => .bind_any fun _ => .ite
      (.bind_any fun _ => .ite .throw (.pure (Or.inl rfl)))
      (.bind_any fun _ => .ite (.bind_any fun _ => .bind_any fun _ => .pure (Or.inl rfl))
        (.bind_any fun _ => .throw))
  | sub s | mul s | div s | divu s | rem s | remu s =>
    exact .bind_any fun _ => .bind_any fun _ => .bind_any fun _ => .pure (Or.inl rfl)

def Line.Labels : Line → Prop
  | .stmt (.opcode code _) => code.Labels
  | _ => True

theorem readLine_labels (env : Env) (rpath : Option Str) (token : Token) :
    Yields Line.Labels (readLine env rpath token) := by
  unfold readLine
  cases token.kind with
  | label => exact .pure True.intro
  | opcode op =>
    refine .bind (P := fun x => ∃ code wf, x = .opcode code wf ∧ code.Labels) ?_ ?_
    · intro ts x rest run
      obtain ⟨code, wf, done, rfl⟩ := opcodeStatement_ok_iff.mp run
      exact ⟨code, wf, rfl, handler_labels op ts code rest done⟩
    · rintro _ ⟨code, wf, rfl, labels⟩
      exact .pure labels
  | pseudoop op =>
    cases op with
    | incbin => exact .bind_any fun _ => .bind_any fun _ => .pure True.intro
    | data8 | data16 | data32 | data64 | data128 | resv8 | resv16 | resv32 | resv64 | resv128 =>
      exact .bind_any fun _ => .pure True.intro
  | directive =>
    unfold directiveStatement
    cases findName directiveList token.value with
    | none => exact .pure True.intro
    | some d =>
      cases d with
      | «include» =>
        exact .bind_any fun _ => .bind_any fun _ => .bind_any fun _ => .pure True.intro
      | type => exact .bind_any fun _ => .bind_any fun _ => .bind_any fun _ => .pure True.intro
      | finishLabels | execonly | readonly => exact .pure True.intro
      | align | endfunc | global | sect | org | size | string | strlen | ascii =>
        exact .bind_any fun _ => .pure True.intro
  | string | symbol | register _ | constant _ | operator | unspec => exact .throw

theorem Program.labels {env : Env} {options : Options} (p : Program env options) {code : Code}
    {wf : code.WellFormed} (listed : .opcode code wf ∈ p.statements) : code.Labels := by
  have all := @Program.statements_forall env options p (fun x => Line.Labels (.stmt x)) (by
    intro rpath token
    refine (readLine_labels env rpath token).imp ?_
    rintro _ labels x rfl
    exact labels)
  exact all _ listed

namespace Labelled

/-- The label is where the words can lead, or its address one that they can build with registers
    that keep their values. -/
def Reaches (here target : BitVec 128) : Labelled → Prop
  | .branch .. => (target - here).getLsbD 0 = false ∧
    -4096 ≤ (target - here).toInt ∧ (target - here).toInt ≤ 4095
  | .jump _ => (target - here).getLsbD 0 = false ∧
    -2048 ≤ (target - here).toInt ∧ (target - here).toInt ≤ 2047
  | .la _ => InRange (target - here).toInt ∧ (target - here).toInt < roundingLimit ∨
    ¬ InRange ((target - here).setWidth 64).toInt ∧ InRange target.toInt ∧
      target.toInt < roundingLimit
  | .laq rd temp => rd ≠ 0 ∧ temp ≠ 0 ∧ rd ≠ temp ∧ ∀ i < 3, (piece target i).toNat < roundingLimit
  | .farcall temp => temp ≠ 0 ∧ target.toNat % 2 = 0 ∧ target.toNat < roundingLimit ∧
    target.toNat % 4096 < 2048

def Means (target : BitVec 128) (h m : Hart) : Labelled → Prop
  | .branch c rs1 rs2 => m.pc = (if c.holds (h.read rs1) (h.read rs2) then target else h.pc + 4) ∧
    ∀ q, m.read q = h.read q
  | .jump rd => m.pc = target ∧ ∀ q, m.read q = (h.write rd (h.pc + 4)).read q
  | .la rd => m.pc = h.pc + 8 ∧ ∀ q, m.read q = (h.write rd target).read q
  | .laq rd temp => m.pc = h.pc + 56 ∧ m.read rd = target ∧
    ∀ q, q ≠ rd → q ≠ temp → m.read q = h.read q
  | .farcall temp => m.pc = target ∧ m.read 1 = h.pc + 8 ∧
    ∀ q, q ≠ 1 → q ≠ temp → m.read q = h.read q

end Labelled

section Distances
variable {n : Nat} {diff : BitVec n}

theorem fields_even (even : diff.getLsbD 0 = false) (k : Nat) :
    diff.extractLsb' 1 k ++ 0#1 = (diff.setWidth (k + 1)) := by
  have zero : 0#1 = diff.extractLsb' 0 1 := by
    ext i hi
    obtain rfl : i = 0 := by omega
    simpa using even.symm
  rw [zero, BitVec.extractLsb'_append_extractLsb'_eq_extractLsb' (show 1 = 0 + 1 from rfl)]
  ext i hi
  simp

theorem branchImm_patchBranch {diff : BitVec 32} (even : diff.getLsbD 0 = false)
    (w : Instruction) : branchImm (patchBranch diff w) = diff.setWidth 13 := by
  have fields : branchImm (patchBranch diff w) = diff.extractLsb' 12 1 ++ diff.extractLsb' 11 1 ++
      diff.extractLsb' 5 6 ++ diff.extractLsb' 1 4 ++ 0#1 := by
    simp [branchImm, patchBranch, setWidth_sshiftRight]
  rw [fields, ← fields_even even 12]
  simp only [BitVec.extractLsb'_append_extractLsb'_eq_extractLsb']

theorem jumpImm_setJump {diff : BitVec 64} (even : diff.getLsbD 0 = false) (w : Instruction) :
    jumpImm (setJump diff w) = diff.extractLsb' 19 1 ++ diff.setWidth 20 := by
  have fields : jumpImm (setJump diff w) = diff.extractLsb' 19 1 ++ diff.extractLsb' 12 8 ++
      diff.extractLsb' 11 1 ++ diff.extractLsb' 1 10 ++ 0#1 := by
    simp [jumpImm, setJump, setWidth_sshiftRight]
  rw [fields, ← fields_even even 19]
  ext i hi
  simp
  grind

theorem signExtend_doubled {k m : Nat} (v : BitVec (k + 1)) :
    (v.extractLsb' k 1 ++ v).signExtend m = v.signExtend m := by
  apply BitVec.eq_of_getLsbD_eq
  intro i hi
  simp [BitVec.getLsbD_signExtend, BitVec.getLsbD_append, BitVec.msb_eq_getLsbD_last]
  grind

theorem near_reaches {here target : BitVec 128} {k : Nat} (low : 0 < k) (narrow : k ≤ 128)
    (near : -2 ^ (k - 1) ≤ (target - here).toInt ∧ (target - here).toInt < 2 ^ (k - 1)) :
    here + ((target - here).setWidth k).signExtend 128 = target := by
  rw [(signExtend_low_iff low narrow _).mpr near]
  ring

end Distances

theorem laq_encode (rd temp : BitVec 5) (here target : BitVec 128) :
    Fixup.laq.encode here target (laqWords rd temp) = laqFor rd temp target := by
  have whole := fun i => shifted_piece target i
  simp only [Fixup.encode, laqWords_eq, blankRound, encodePair, List.drop_zero, List.take_zero,
    List.nil_append, List.cons_append, setUint32_pair, List.drop_succ_cons, List.take_succ_cons,
    whole 3, whole 2, whole 1, whole 0, laqFor, pieceWords]

theorem laqFor_straight (rd temp : BitVec 5) (target : BitVec 128) :
    ∀ w ∈ laqFor rd temp target, Straight w := by
  have lui := fun (reg : BitVec 5) imm => (⟨_, decode_luiWord reg imm, fun h => by
    simp [Instr.exec]⟩ : Straight (luiWord reg imm))
  have addi := fun (reg : BitVec 5) imm => (⟨_, decode_addiWord reg reg imm, fun h => by
    simp [Instr.exec]⟩ : Straight (addiWord reg reg imm))
  have shift : Straight (shiftLeft32 rd) := ⟨_, decode_shiftLeft32 rd, fun h => by simp [Instr.exec]⟩
  have add : Straight (addTemp rd temp) := ⟨_, decode_addTemp rd temp, fun h => by simp [Instr.exec]⟩
  have round : ∀ (reg : BitVec 5) i, ∀ w ∈ pieceWords reg (piece target i), Straight w := by
    intro reg i w mem
    simp only [pieceWords, List.mem_cons, List.not_mem_nil, or_false] at mem
    rcases mem with rfl | rfl
    · exact lui reg _
    · exact addi reg _
  intro w mem
  simp only [laqFor, List.mem_append, List.mem_cons, List.not_mem_nil, or_false] at mem
  rcases mem with ((mem | mem | rfl | rfl) | mem | rfl | rfl) | mem | rfl | rfl
  all_goals first | exact round _ _ _ mem | exact shift | exact add

theorem run_pair {w v : Instruction} {i j : Instr} (first : decode w = some i)
    (second : decode v = some j) (h : Hart) : run [w, v] h = some (j.exec (i.exec h)) := by
  rw [run_cons first, run_cons second, run]

namespace Labelled
variable {μ : Type} (isa : Isa μ) {mem : Memory} {h : Hart} {target : BitVec 128}

def Works (mem : Memory) (h : Hart) (target : BitVec 128) (s : μ) (i : Labelled) : Prop :=
  mem.Holds h.pc (i.fixup.encode h.pc target i.words) →
    ∃ m, steps (isa.step mem) i.words.length (h, s) = some (m, s) ∧ i.Means target h m

theorem branch_works (s : μ) {c : Cond} {rs1 rs2 : BitVec 5}
    (reaches : (branch c rs1 rs2).Reaches h.pc target) :
    (branch c rs1 rs2).Works isa mem h target s := by
  intro held
  obtain ⟨even, near⟩ := reaches
  let w := setFunct3 c.funct3 (setRs2 rs2 (setRs1 rs1 (new RV32I_BRANCH)))
  let v := patchBranch ((target - h.pc).setWidth 32) w
  have low : ((target - h.pc).setWidth 32).getLsbD 0 = false := by simpa using even
  have op : v.extractLsb' 0 7 = 0b1100011 := by
    have branch : (new RV32I_BRANCH).extractLsb' 0 7 = 0b1100011 := by decide
    simp [v, w, patchBranch, extract_put_disjoint, branch]
  have decoded := @decodeTransfer_branch v c op (by simp [v, w, patchBranch])
  have operands : v.extractLsb' 15 5 = rs1 ∧ v.extractLsb' 20 5 = rs2 := by
    simp [v, w, patchBranch]
  have narrow : ((target - h.pc).setWidth 32).setWidth 13 = (target - h.pc).setWidth 13 :=
    BitVec.setWidth_setWidth_of_le _ (by decide)
  rw [operands.1, operands.2, branchImm_patchBranch low, narrow] at decoded
  have ran := isa.steps_one s held
  rw [isa.exec_transfer decoded] at ran
  refine ⟨_, ran, ?_, fun q => ?_⟩
  · rw [Transfer.exec]
    split
    · exact near_reaches (by decide) (by decide) (by omega)
    · rfl
  · rw [Transfer.exec]
    split <;> rfl

theorem jump_works (s : μ) {rd : BitVec 5} (reaches : (jump rd).Reaches h.pc target) :
    (jump rd).Works isa mem h target s := by
  intro held
  obtain ⟨even, near⟩ := reaches
  let v := setJump ((target - h.pc).setWidth 64) (setRd rd (new RV32I_JAL))
  have low : ((target - h.pc).setWidth 64).getLsbD 0 = false := by simpa using even
  have op : v.extractLsb' 0 7 = 0b1101111 := by
    have jal : (new RV32I_JAL).extractLsb' 0 7 = 0b1101111 := by decide
    simp [v, setJump, extract_put_disjoint, jal]
  have decoded := decodeTransfer_jal op
  have link : v.extractLsb' 7 5 = rd := by simp [v, setJump]
  rw [link, jumpImm_setJump low] at decoded
  have ran := isa.steps_one s held
  rw [isa.exec_transfer decoded] at ran
  refine ⟨_, ran, ?_, fun q => rfl⟩
  have narrow : ((target - h.pc).setWidth 64).setWidth 20 = (target - h.pc).setWidth 20 :=
    BitVec.setWidth_setWidth_of_le _ (by decide)
  have sign : ((target - h.pc).setWidth 64).extractLsb' 19 1 =
      ((target - h.pc).setWidth 20).extractLsb' 19 1 := by
    ext i hi
    simp
    grind
  change h.pc + BitVec.signExtend 128 _ = target
  rw [narrow, sign, signExtend_doubled]
  exact near_reaches (by decide) (by decide) (by omega)

theorem upper_lower (h : Hart) (rd : BitVec 5) (a low : BitVec 128) :
    let m := (h.write rd a).advance
    let m' := (m.write rd (m.read rd + low)).advance
    m'.pc = h.pc + 8 ∧ ∀ q, m'.read q = (h.write rd (a + low)).read q := by
  refine ⟨?_, fun q => ?_⟩
  · simp [BitVec.add_assoc]
  · by_cases zero : rd = 0
    · subst zero
      rfl
    · simp only [Hart.read_advance, Hart.read_write _ _ _ _ zero, ite_true]
      split <;> rfl

theorem la_works (s : μ) {rd : BitVec 5} (reaches : (la rd).Reaches h.pc target) :
    (la rd).Works isa mem h target s := by
  intro held
  obtain ⟨i1, i2, made, first, second⟩ := patchLa_decodes rd ((target - h.pc).setWidth 64) target
  have words : (la rd).fixup.encode h.pc target (la rd).words = [i1, i2] :=
    congrArg (fun p : Instruction × Instruction => [p.1, p.2]) made
  have value : laValue h.pc target = target := by
    rcases reaches with ⟨near, below⟩ | ⟨far, absolute, below⟩
    · exact (laValue_iff h.pc target).mpr ⟨fun _ => below, fun other => absurd near other⟩ (Or.inl near)
    · rw [laValue, if_neg far]
      exact (joined_eq_iff absolute).mpr below
  have narrow : ((target - h.pc).setWidth 64).setWidth 32 = (target - h.pc).setWidth 32 :=
    BitVec.setWidth_setWidth_of_le _ (by decide)
  rw [narrow] at first second
  rw [words] at held
  have straight : Straight i1 := ⟨_, first, fun h => by split <;> simp [Instr.exec]⟩
  have ran := isa.steps_run s held (by simpa using straight) (run_pair first second h)
  rw [← value]
  refine ⟨_, ran, ?_⟩
  unfold laValue
  split
  · rw [joined, ← BitVec.add_assoc]
    exact upper_lower h rd _ _
  · exact upper_lower h rd _ _

theorem laq_works (s : μ) {rd temp : BitVec 5} (reaches : (laq rd temp).Reaches h.pc target) :
    (laq rd temp).Works isa mem h target s := by
  intro held
  obtain ⟨hd, ht, distinct, pieces⟩ := reaches
  change mem.Holds h.pc (Fixup.laq.encode h.pc target (laqWords rd temp)) at held
  rw [laq_encode] at held
  have straight := laqFor_straight rd temp target
  obtain ⟨m, run, value, frame⟩ := laqFor_builds hd ht distinct target h
  have ran := isa.steps_run s held (fun w mem => straight w (List.mem_of_mem_dropLast mem)) run
  have length : (laq rd temp).words.length = (laqFor rd temp target).length := laqWords_length rd temp
  rw [length]
  exact ⟨m, ran, run_pc straight run, value.trans ((assembled_eq_iff target).mpr pieces), frame⟩

theorem farcall_works (s : μ) {temp : BitVec 5} (reaches : (farcall temp).Reaches h.pc target) :
    (farcall temp).Works isa mem h target s := by
  intro held
  obtain ⟨nonzero, even, below, clear⟩ := reaches
  obtain ⟨i1, i2, made, first, second⟩ := patchFarcall_decodes temp target
  have words : (farcall temp).fixup.encode h.pc target (farcall temp).words = [i1, i2] :=
    congrArg (fun p : Instruction × Instruction => [p.1, p.2]) made
  rw [words] at held
  have straight : Straight i1 := ⟨_, first, fun h => by simp [Instr.exec]⟩
  have ran := isa.steps_run s held (by simpa using straight) (run_pair first second h)
  obtain ⟨m, run, pc, link⟩ := farcall_runs nonzero made h
  cases run.symm.trans (run_pair first second h)
  refine ⟨_, ran, pc.trans ((farcallTarget_iff even below).mpr clear), link, fun q one other => ?_⟩
  change ((h.write temp _).advance.write 1 _).read q = h.read q
  rw [Hart.read_write _ _ _ _ (by decide), if_neg one, Hart.read_advance,
    Hart.read_write _ _ _ _ nonzero, if_neg other]

theorem works (i : Labelled) (s : μ) (reaches : i.Reaches h.pc target) :
    i.Works isa mem h target s := by
  cases i with
  | branch c rs1 rs2 => exact branch_works isa s reaches
  | jump rd => exact jump_works isa s reaches
  | la rd => exact la_works isa s reaches
  | laq rd temp => exact laq_works isa s reaches
  | farcall temp => exact farcall_works isa s reaches

end Labelled

def LinkMap.here (m : LinkMap) (pre : List Statement) (x : Statement) : BitVec 128 :=
  let v := firstPass pre
  m.address v.current (x.start (v.size v.current))

/-- What stands at an address of a program: a word as it was written, or an instruction whose label
    has an address. -/
inductive Command where
  | word (w : Instruction)
  | labelled (i : Labelled) (target : BitVec 128)

namespace Command

def length : Command → Nat
  | .word _ => 1
  | .labelled i _ => i.words.length

def Does {μ : Type} (isa : Isa μ) (m m' : Hart × μ) : Command → Prop
  | .word w => isa.exec w m = some m'
  | .labelled i target => i.Means target m.1 m'.1 ∧ m'.2 = m.2

end Command

/-- The commands of a program by their addresses, while their labels are in reach. -/
inductive Stands (xs : List Statement) (m : LinkMap) : BitVec 128 → Command → Prop
  | word {pre post : List Statement} {code : Code} {wf : code.WellFormed} {k : Nat}
      {w : Instruction} (split : xs = pre ++ .opcode code wf :: post) (plain : code.fixup = none)
      (word : code.words[k]? = some w) :
      Stands xs m (m.here pre (.opcode code wf) + BitVec.ofNat 128 (4 * k)) (.word w)
  | labelled {pre post : List Statement} {i : Labelled} {lbl : Str} {wf : (i.code lbl).WellFormed}
      {target : BitVec 128} (split : xs = pre ++ .opcode (i.code lbl) wf :: post)
      (known : m.target lbl = some target)
      (reaches : i.Reaches (m.here pre (.opcode (i.code lbl) wf)) target) :
      Stands xs m (m.here pre (.opcode (i.code lbl) wf)) (.labelled i target)

def LabelStep {μ : Type} (isa : Isa μ) (xs : List Statement) (m : LinkMap) (a b : Hart × μ) : Prop :=
  ∃ command, Stands xs m a.1.pc command ∧ command.Does isa a b

/-- The sections with code are in the memory, each at its base address. -/
def State.Stored (s : State) (mem : Memory) : Prop :=
  ∀ n, (s.sectionAt n).code = true → mem.read (s.baseOf n) (s.bytes n).length = s.bytes n

theorem holds_of_window {mem : Memory} {base : BitVec 128} {bs : List Byte} {start : Nat}
    {ws : List Instruction} (stored : mem.read base bs.length = bs)
    (placed : window start (4 * ws.length) bs = encodeWords ws) :
    mem.Holds (base + BitVec.ofNat 128 start) ws := by
  have length := congrArg List.length placed
  rw [window, List.length_take, List.length_drop, encodeWords_length] at length
  by_cases inside : start + 4 * ws.length ≤ bs.length
  · have read := mem.window_read base inside
    rw [stored, placed] at read
    exact read.symm
  · have none : ws = [] := by
      rw [← List.length_eq_zero_iff]
      omega
    subst none
    rfl

theorem holds_word {mem : Memory} {a : BitVec 128} {ws : List Instruction} (held : mem.Holds a ws)
    {k : Nat} {w : Instruction} (word : ws[k]? = some w) :
    mem.Holds (a + BitVec.ofNat 128 (4 * k)) [w] := by
  induction ws generalizing a k with
  | nil => cases word
  | cons v ws ih =>
    obtain ⟨-, later⟩ := Memory.holds_cons held
    cases k with
    | zero =>
      cases word
      have front := mem.window_read a (show 0 + 4 ≤ 4 * (w :: ws).length by simp)
      rw [held, encodeWords_cons] at front
      have same : window 0 4 (wordBytes w ++ encodeWords ws) = wordBytes w := by simp [window]
      rw [same] at front
      change mem.read _ 4 = wordBytes w ++ []
      rw [front, List.append_nil]
    | succ k =>
      have next := ih later word
      rwa [BitVec.add_assoc, show (4 : BitVec 128) = BitVec.ofNat 128 4 from rfl,
        ← BitVec.ofNat_add, Nat.add_comm, ← Nat.mul_succ] at next

namespace Finished
variable {env : Env} {options : Options} (f : Finished env options)

def map : LinkMap := ⟨f.state.baseOf, (firstPass f.program.statements).places⟩

theorem held (grows : f.program.Grows) {mem : Memory} (stored : f.state.Stored mem)
    {pre post : List Statement} {code : Code} {wf : code.WellFormed} (filled : code.words ≠ [])
    (split : f.program.statements = pre ++ .opcode code wf :: post) :
    mem.Holds (f.map.here pre (.opcode code wf))
      (code.encode f.map (f.map.here pre (.opcode code wf))) := by
  have placed := secondPass_content f.map split _ rfl
  have image := f.image grows
  rw [f.linkMap_eq grows] at image
  rw [map, ← image] at placed
  have ran := f.program.ran
  rw [split] at ran
  obtain ⟨v, before, -⟩ := run_append_iff.mp ran
  have current := (Surveys.run (grows.upto split before).1 before).current
  have code : (f.state.sectionAt (firstPass pre).current).has .code = true := by
    rw [f.has_iff, current]
    exact ⟨pre, _, post, v, ⟨split, before⟩, rfl, if_neg filled⟩
  refine holds_of_window (stored _ code) ?_
  rw [Code.encode_length]
  exact placed

end Finished

theorem takes_command {env : Env} {options : Options} (f : Finished env options)
    (grows : f.program.Grows) {μ : Type} (isa : Isa μ) {mem : Memory} (stored : f.state.Stored mem)
    {a : Hart × μ} {command : Command} (stands : Stands f.program.statements f.map a.1.pc command) :
    0 < command.length ∧ (∀ b, steps (isa.step mem) command.length a = some b → command.Does isa a b) ∧
      ((∃ b, command.Does isa a b) → ∃ b, steps (isa.step mem) command.length a = some b) := by
  rcases a with ⟨h, s⟩
  change Stands _ _ h.pc command at stands
  generalize pc : h.pc = at_ at stands
  cases stands with
  | @word pre post code wf k w split plain word =>
    have filled : code.words ≠ [] := fun none => by
      rw [none] at word
      cases word
    have held := f.held grows stored filled split
    rw [Code.encode, plain] at held
    have here := holds_word held word
    rw [← pc] at here
    have one := isa.steps_one s here
    refine ⟨Nat.one_pos, fun b ran => one.symm.trans ran, ?_⟩
    rintro ⟨b, does⟩
    exact ⟨b, one.trans does⟩
  | @labelled pre post i lbl wf target split known reaches =>
    have held := f.held grows stored (List.ne_nil_of_length_pos i.words_positive) split
    have encoded : ∀ here, (i.code lbl).encode f.map here = i.fixup.encode here target i.words := by
      intro here
      change i.fixup.encode here ((f.map.target lbl).getD 0) i.words = _
      rw [known]
      rfl
    rw [encoded, ← pc] at held
    rw [← pc] at reaches
    obtain ⟨m, ran, means⟩ := i.works isa s reaches held
    refine ⟨i.words_positive, fun b ran' => ?_, fun _ => ⟨_, ran⟩⟩
    cases ran.symm.trans ran'
    exact ⟨means, rfl⟩

/-- What a run of the machine is while it follows the program: up to an address without a command
    or inside of the last one. -/
def Follows {μ : Type} (isa : Isa μ) (mem : Memory) (xs : List Statement) (m : LinkMap) (n : Nat)
    (a : Hart × μ) : Prop :=
  ∃ k c, k ≤ n ∧ Relation.ReflTransGen (LabelStep isa xs m) a c ∧
    steps (isa.step mem) k a = some c ∧
    ((∀ command, ¬ Stands xs m c.1.pc command) ∨
      ∃ command, Stands xs m c.1.pc command ∧ n < k + command.length)

theorem follows {env : Env} {options : Options} (f : Finished env options)
    (grows : f.program.Grows) {μ : Type} (isa : Isa μ) {mem : Memory} (stored : f.state.Stored mem)
    {n : Nat} {a b : Hart × μ} (ran : steps (isa.step mem) n a = some b) :
    Follows isa mem f.program.statements f.map n a := by
  let Starts := fun (a : Hart × μ) n =>
    ∃ command, Stands f.program.statements f.map a.1.pc command ∧ n = command.length
  have takes : ∀ a n, Starts a n → 0 < n ∧ ∀ b, steps (isa.step mem) n a = some b →
      LabelStep isa f.program.statements f.map a b := by
    rintro a _ ⟨command, stands, rfl⟩
    obtain ⟨positive, does, -⟩ := takes_command f grows isa stored stands
    exact ⟨positive, fun b ran => ⟨command, stands, does b ran⟩⟩
  obtain ⟨k, c, le, follows, reached, ends⟩ := steps_follow takes n ran
  refine ⟨k, c, le, follows, reached, ?_⟩
  rcases ends with idle | ⟨_, ⟨command, stands, rfl⟩, within⟩
  · exact Or.inl fun command stands => idle _ ⟨command, stands, rfl⟩
  · exact Or.inr ⟨command, stands, within⟩

/-- Every instruction of the source is made of plain words or is one of those with a label. A
    machine with the code in its memory does what a command at its pc does, and each of its runs
    follows the program. -/
theorem machine_runs_labels {env : Env} {options : Options} (f : Finished env options)
    (grows : f.program.Grows) {μ : Type} (isa : Isa μ) {mem : Memory}
    (stored : f.state.Stored mem) :
    (∀ code wf, Statement.opcode code wf ∈ f.program.statements → code.Labels) ∧
    (∀ a command, Stands f.program.statements f.map a.1.pc command →
      (∃ b, command.Does isa a b) →
      ∃ b, steps (isa.step mem) command.length a = some b ∧ command.Does isa a b) ∧
    ∀ n a b, steps (isa.step mem) n a = some b → Follows isa mem f.program.statements f.map n a := by
  refine ⟨fun code wf mem => f.program.labels mem, fun a command stands can => ?_,
    fun n a b ran => follows f grows isa stored ran⟩
  obtain ⟨-, does, takes⟩ := takes_command f grows isa stored stands
  obtain ⟨b, ran⟩ := takes can
  exact ⟨b, ran, does b ran⟩

def bareIsa : Isa Unit := ⟨fun _ _ _ => none⟩

theorem callF_wellFormed : ((Labelled.jump 1).code (lit "f")).WellFormed :=
  handler_wellFormed .call [⟨.symbol, 1, lit "f"⟩] _ [] rfl

theorem machine_runs_loop : ∃ (f : Finished Env.noFiles {}) (mem : Memory) (b : Hart × Unit),
    f.state.Stored mem ∧ steps (bareIsa.step mem) 1 (⟨0x100000, fun _ => 0⟩, ()) = some b ∧
      b.1.pc = 0x100000 ∧ b.1.read 1 = 0x100004 := by
  obtain ⟨p, listed, along, accepted, target, here, only, small⟩ : ∃ p : Program Env.noFiles {},
      p.statements =
          [.label (lit "f"), .opcode ((Labelled.jump 1).code (lit "f")) callF_wellFormed] ∧
        Along Statement.exec Growing (State.new {}) p.statements ∧
        p.final.state.finish.isOk = true ∧
        (LinkMap.mk (result p.final.state.finish).baseOf (firstPass p.statements).places).target
          (lit "f") = some 0x100000 ∧
        (LinkMap.mk (result p.final.state.finish).baseOf (firstPass p.statements).places).here
          [.label (lit "f")] (.opcode ((Labelled.jump 1).code (lit "f")) callF_wellFormed) =
            0x100000 ∧
        (result p.final.state.finish).sections.keys = [lit ".text"] ∧
        ((result p.final.state.finish).bytes (lit ".text")).length = 4 :=
    ⟨Program.ofSource {} (lit "f: call f") (by decide +kernel), by decide +kernel⟩
  let f : Finished Env.noFiles {} := ⟨p, result p.final.state.finish, eq_ok_result accepted⟩
  let mem := Memory.store (fun _ => 0) (f.state.baseOf (lit ".text")) (f.state.bytes (lit ".text"))
  have stored : f.state.Stored mem := by
    intro n code
    have known : n ∈ f.state.sections := by
      by_contra unknown
      rw [State.sectionAt, Std.ExtTreeMap.getElem?_eq_none unknown] at code
      cases code
    have name : n ∈ [lit ".text"] := only ▸ Std.ExtTreeMap.mem_keys.mpr known
    cases List.mem_singleton.mp name
    exact Memory.read_store_self _ _ (small.le.trans (by decide))
  have here : f.map.here [.label (lit "f")]
      (.opcode ((Labelled.jump 1).code (lit "f")) callF_wellFormed) = 0x100000 := here
  have stands := @Stands.labelled f.program.statements f.map [.label (lit "f")] [] (.jump 1)
    (lit "f") callF_wellFormed 0x100000 listed target (by
      rw [here]
      exact ⟨by decide, by decide, by decide⟩)
  rw [here] at stands
  obtain ⟨-, runs, -⟩ := machine_runs_labels f (p.grows_iff.mpr along) bareIsa stored
  obtain ⟨b, ran, ⟨pc, regs⟩, -⟩ := runs (⟨0x100000, fun _ => 0⟩, ()) _ stands
    ⟨(⟨0x100000, fun q => if q = 1 then 0x100004 else 0⟩, ()), ⟨rfl, by decide⟩, rfl⟩
  exact ⟨f, mem, b, stored, ran, pc, regs 1⟩

end BigAsm
