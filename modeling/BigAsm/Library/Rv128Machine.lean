import Mathlib
import BigAsm.Library.Bytes
import BigAsm.Library.Rv128
import BigAsm.Library.Simulations

/- A machine over RV128I: the transfers of control with a distance in the word, and a hart that
   fetches its words from a memory. What words outside of the two decoders do is a parameter. -/
namespace Rv128
open ByteStore Runs

inductive Cond where
  | eq | ne | lt | ge | ltu | geu
  deriving DecidableEq, Repr

def Cond.holds : Cond → BitVec 128 → BitVec 128 → Bool
  | .eq, a, b => a == b
  | .ne, a, b => a != b
  | .lt, a, b => a.slt b
  | .ge, a, b => b.sle a
  | .ltu, a, b => a.ult b
  | .geu, a, b => b.ule a

def Cond.funct3 : Cond → BitVec 3
  | .eq => 0
  | .ne => 1
  | .lt => 4
  | .ge => 5
  | .ltu => 6
  | .geu => 7

def condition : BitVec 3 → Option Cond
  | 0#3 => some .eq
  | 1#3 => some .ne
  | 4#3 => some .lt
  | 5#3 => some .ge
  | 6#3 => some .ltu
  | 7#3 => some .geu
  | _ => none

theorem condition_funct3 (c : Cond) : condition c.funct3 = some c := by
  cases c <;> rfl

inductive Transfer where
  | jal (rd : Reg) (offset : BitVec 21)
  | branch (cond : Cond) (rs1 rs2 : Reg) (offset : BitVec 13)
  deriving DecidableEq, Repr

def jumpImm (w : BitVec 32) : BitVec 21 :=
  w.extractLsb' 31 1 ++ w.extractLsb' 12 8 ++ w.extractLsb' 20 1 ++ w.extractLsb' 21 10 ++ 0#1

def branchImm (w : BitVec 32) : BitVec 13 :=
  w.extractLsb' 31 1 ++ w.extractLsb' 7 1 ++ w.extractLsb' 25 6 ++ w.extractLsb' 8 4 ++ 0#1

def decodeTransfer (w : BitVec 32) : Option Transfer :=
  match w.extractLsb' 0 7 with
  | 0b1101111#7 => some (.jal (w.extractLsb' 7 5) (jumpImm w))
  | 0b1100011#7 => (condition (w.extractLsb' 12 3)).map fun c =>
    .branch c (w.extractLsb' 15 5) (w.extractLsb' 20 5) (branchImm w)
  | _ => none

section Decode
variable {w : BitVec 32}

theorem decodeTransfer_jal (op : w.extractLsb' 0 7 = 0b1101111) :
    decodeTransfer w = some (.jal (w.extractLsb' 7 5) (jumpImm w)) := by
  simp only [decodeTransfer, op]
  rfl

theorem decodeTransfer_branch {c : Cond} (op : w.extractLsb' 0 7 = 0b1100011)
    (funct3 : w.extractLsb' 12 3 = c.funct3) : decodeTransfer w =
      some (.branch c (w.extractLsb' 15 5) (w.extractLsb' 20 5) (branchImm w)) := by
  simp only [decodeTransfer, op, funct3, condition_funct3]
  rfl

theorem decodeTransfer_of_decode {i : Instr} (decoded : decode w = some i) :
    decodeTransfer w = none := by
  unfold decode at decoded
  unfold decodeTransfer
  split at decoded
  all_goals
    rename_i op
    first
    | (simp only [op]; rfl)
    | cases decoded

end Decode

def Transfer.exec : Transfer → Hart → Hart
  | .jal rd offset, h => { h.write rd (h.pc + 4) with pc := h.pc + offset.signExtend 128 }
  | .branch c rs1 rs2 offset, h =>
    if c.holds (h.read rs1) (h.read rs2) then { h with pc := h.pc + offset.signExtend 128 }
    else h.advance

/-- What a machine does with the words both decoders leave out; μ is the rest of its state. -/
structure Isa (μ : Type) where
  other : BitVec 32 → Hart → μ → Option (Hart × μ)

abbrev Memory := BitVec 128 → Byte

namespace Memory

def read (mem : Memory) (a : BitVec 128) (n : Nat) : List Byte :=
  (List.range n).map fun i => mem (a + BitVec.ofNat 128 i)

def word (mem : Memory) (a : BitVec 128) : BitVec 32 := bytesWord (mem.read a 4)

def store (mem : Memory) (a : BitVec 128) (bs : List Byte) : Memory :=
  fun x => (bs[(x - a).toNat]?).getD (mem x)

def Holds (mem : Memory) (a : BitVec 128) (ws : List (BitVec 32)) : Prop :=
  mem.read a (4 * ws.length) = encodeWords ws

@[simp] theorem read_length (mem : Memory) (a : BitVec 128) (n : Nat) :
    (mem.read a n).length = n := by
  simp [read]

theorem window_read (mem : Memory) (a : BitVec 128) {start len n : Nat} (inside : start + len ≤ n) :
    window start len (mem.read a n) = mem.read (a + BitVec.ofNat 128 start) len := by
  apply List.ext_getElem?
  intro i
  rw [getElem?_window]
  by_cases within : i < len
  · simp only [within, ite_true, read, List.getElem?_map,
      List.getElem?_range (show start + i < n by omega), List.getElem?_range within,
      Option.map_some, BitVec.ofNat_add, BitVec.add_assoc]
  · simp [within, read]

theorem read_ext {mem mem' : Memory} {a : BitVec 128} {n : Nat}
    (same : ∀ i < n, mem (a + BitVec.ofNat 128 i) = mem' (a + BitVec.ofNat 128 i)) :
    mem.read a n = mem'.read a n :=
  List.map_congr_left fun i listed => same i (List.mem_range.mp listed)

theorem read_store_self (mem : Memory) (a : BitVec 128) {bs : List Byte}
    (fits : bs.length ≤ 2 ^ 128) : (mem.store a bs).read a bs.length = bs := by
  apply List.ext_getElem?
  intro i
  by_cases inside : i < bs.length
  · have offset : (a + BitVec.ofNat 128 i - a).toNat = i := by
      rw [BitVec.add_comm, BitVec.add_sub_cancel, BitVec.toNat_ofNat]
      exact Nat.mod_eq_of_lt (by omega)
    simp only [read, List.getElem?_map, List.getElem?_range inside, Option.map_some, store, offset,
      List.getElem?_eq_getElem inside, Option.getD_some]
  · have outside := not_lt.mp inside
    rw [List.getElem?_eq_none outside, List.getElem?_eq_none ((read_length _ _ _).le.trans outside)]

theorem read_store_apart (mem : Memory) {a b : BitVec 128} {n : Nat} {bs : List Byte}
    (apart : ∀ i < n, bs.length ≤ (a + BitVec.ofNat 128 i - b).toNat) :
    (mem.store b bs).read a n = mem.read a n := by
  refine read_ext fun i inside => ?_
  rw [store, List.getElem?_eq_none (apart i inside)]
  rfl

def storeAll (mem : Memory) (blocks : List (BitVec 128 × List Byte)) : Memory :=
  blocks.foldl (fun mem block => mem.store block.1 block.2) mem

/-- No address of the block a is one of the block b. -/
def Clear (a b : BitVec 128 × List Byte) : Prop :=
  ∀ i < a.2.length, b.2.length ≤ (a.1 + BitVec.ofNat 128 i - b.1).toNat

theorem read_storeAll_clear (mem : Memory) {a : BitVec 128 × List Byte}
    {blocks : List (BitVec 128 × List Byte)} (clear : ∀ b ∈ blocks, Clear a b) :
    (mem.storeAll blocks).read a.1 a.2.length = mem.read a.1 a.2.length := by
  induction blocks generalizing mem with
  | nil => rfl
  | cons b blocks ih =>
    refine (ih (mem.store b.1 b.2) fun b' mem => clear b' (by simp [mem])).trans ?_
    exact read_store_apart mem (clear b (by simp))

theorem read_storeAll (mem : Memory) {blocks : List (BitVec 128 × List Byte)}
    (clear : blocks.Pairwise Clear) (fits : ∀ b ∈ blocks, b.2.length ≤ 2 ^ 128) :
    ∀ b ∈ blocks, (mem.storeAll blocks).read b.1 b.2.length = b.2 := by
  induction blocks generalizing mem with
  | nil => simp
  | cons a blocks ih =>
    obtain ⟨first, rest⟩ := List.pairwise_cons.mp clear
    intro b listed
    rcases List.mem_cons.mp listed with rfl | later
    · refine (read_storeAll_clear (mem.store b.1 b.2) first).trans ?_
      exact read_store_self mem b.1 (fits b (by simp))
    · exact ih (mem.store a.1 a.2) rest (fun b mem => fits b (by simp [mem])) b later

theorem storeAll_outside (mem : Memory) {x : BitVec 128} {blocks : List (BitVec 128 × List Byte)}
    (outside : ∀ b ∈ blocks, b.2.length ≤ (x - b.1).toNat) : mem.storeAll blocks x = mem x := by
  induction blocks generalizing mem with
  | nil => rfl
  | cons a blocks ih =>
    refine (ih (mem.store a.1 a.2) fun b mem => outside b (by simp [mem])).trans ?_
    rw [store, List.getElem?_eq_none (outside a (by simp))]
    rfl

theorem clear_of_below {a b : BitVec 128 × List Byte} (below : a.1.toNat + a.2.length ≤ b.1.toNat)
    (fits : b.1.toNat + b.2.length ≤ 2 ^ 128) : Clear a b ∧ Clear b a := by
  have first := a.1.isLt
  have second := b.1.isLt
  constructor
  · intro i inside
    rw [BitVec.toNat_sub, BitVec.toNat_add, BitVec.toNat_ofNat]
    omega
  · intro i inside
    rw [BitVec.toNat_sub, BitVec.toNat_add, BitVec.toNat_ofNat]
    omega

theorem holds_cons {mem : Memory} {a : BitVec 128} {w : BitVec 32} {ws : List (BitVec 32)}
    (held : mem.Holds a (w :: ws)) : mem.word a = w ∧ mem.Holds (a + 4) ws := by
  have front := mem.window_read a (show 0 + 4 ≤ 4 * (w :: ws).length by simp)
  have back := mem.window_read a (show 4 + 4 * ws.length ≤ 4 * (w :: ws).length by simp; omega)
  rw [held, encodeWords_cons] at front back
  constructor
  · have here : wordBytes w = mem.read a 4 := by simpa [window] using front
    rw [word, ← here, bytesWord_wordBytes]
  · have later : (encodeWords ws).take (4 * ws.length) = mem.read (a + 4#128) (4 * ws.length) := by
      simpa [window] using back
    rw [← encodeWords_length, List.take_length, encodeWords_length] at later
    exact later.symm

end Memory

namespace Isa
variable {μ : Type}

def exec (isa : Isa μ) (w : BitVec 32) (m : Hart × μ) : Option (Hart × μ) :=
  match decodeTransfer w, decode w with
  | some t, _ => some (t.exec m.1, m.2)
  | none, some i => some (i.exec m.1, m.2)
  | none, none => isa.other w m.1 m.2

def step (isa : Isa μ) (mem : Memory) (m : Hart × μ) : Option (Hart × μ) :=
  isa.exec (mem.word m.1.pc) m

theorem exec_decoded (isa : Isa μ) {w : BitVec 32} {i : Instr} (decoded : decode w = some i)
    (h : Hart) (s : μ) : isa.exec w (h, s) = some (i.exec h, s) := by
  simp only [exec, decodeTransfer_of_decode decoded, decoded]

theorem exec_transfer (isa : Isa μ) {w : BitVec 32} {t : Transfer}
    (decoded : decodeTransfer w = some t) (h : Hart) (s : μ) :
    isa.exec w (h, s) = some (t.exec h, s) := by
  simp only [exec, decoded]

theorem steps_one (isa : Isa μ) {mem : Memory} {w : BitVec 32} {h : Hart} (s : μ)
    (held : mem.Holds h.pc [w]) : steps (isa.step mem) 1 (h, s) = isa.exec w (h, s) := by
  change (isa.exec (mem.word h.pc) (h, s)).bind some = _
  rw [(Memory.holds_cons held).1]
  exact Option.bind_fun_some _

end Isa

/-- The word goes on to the word behind it. -/
def Straight (w : BitVec 32) : Prop := ∃ i, decode w = some i ∧ ∀ h : Hart, (i.exec h).pc = h.pc + 4

theorem Isa.steps_run {μ : Type} (isa : Isa μ) {mem : Memory} {ws : List (BitVec 32)} {h m : Hart}
    (s : μ) (held : mem.Holds h.pc ws) (straight : ∀ w ∈ ws.dropLast, Straight w)
    (ran : run ws h = some m) : steps (isa.step mem) ws.length (h, s) = some (m, s) := by
  induction ws generalizing h with
  | nil =>
    cases ran
    rfl
  | cons w ws ih =>
    obtain ⟨here, later⟩ := Memory.holds_cons held
    obtain ⟨i, decoded, rest⟩ := Option.bind_eq_some_iff.mp ran
    have first : isa.step mem (h, s) = some (i.exec h, s) := by
      change isa.exec (mem.word h.pc) (h, s) = _
      rw [here]
      exact isa.exec_decoded decoded h s
    rw [List.length_cons, steps, first, Option.bind_some]
    cases ws with
    | nil =>
      cases rest
      rfl
    | cons v ws =>
      obtain ⟨i', decoded', next⟩ := straight w (by simp)
      cases decoded.symm.trans decoded'
      refine ih ?_ (fun u mem => straight u (by simp [mem])) rest
      rw [next]
      exact later

theorem run_pc {ws : List (BitVec 32)} {h m : Hart} (straight : ∀ w ∈ ws, Straight w)
    (ran : run ws h = some m) : m.pc = h.pc + BitVec.ofNat 128 (4 * ws.length) := by
  induction ws generalizing h with
  | nil =>
    cases ran
    simp
  | cons w ws ih =>
    obtain ⟨i, decoded, next⟩ := straight w (by simp)
    rw [run_cons decoded] at ran
    rw [ih (fun v mem => straight v (by simp [mem])) ran, next, List.length_cons, Nat.mul_succ,
      Nat.add_comm, BitVec.ofNat_add, ← BitVec.add_assoc]
    rfl

end Rv128
