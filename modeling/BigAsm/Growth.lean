import Mathlib
import BigAsm.Listing

/- When the output of a section grows. Lengths and alignments are 64-bit words: a sum that
   wraps cuts the output off, and every other statement only appends to it. -/
namespace BigAsm
open ByteStore Runs

theorem sizeT_toNat {n : Nat} (fits : n < 2 ^ 64) : (sizeT n).toNat = n := by
  rw [sizeT, BitVec.toNat_ofNat, Nat.mod_eq_of_lt fits]

theorem le_alignedSize_iff {n : Nat} {a : BitVec 64} (fits : n < 2 ^ 64) :
    n ≤ alignedSize n a ↔ n + (a - 1).toNat < 2 ^ 64 := by
  have rest := BitFields.mask_add_rest (sizeT n + (a - 1)) (a - 1)
  have kept : ((sizeT n + (a - 1)) &&& (a - 1)).toNat ≤ (a - 1).toNat := by
    rw [BitVec.toNat_and]
    exact Nat.and_le_right
  have sum : (sizeT n + (a - 1)).toNat = (n + (a - 1).toNat) % 2 ^ 64 := by
    rw [BitVec.toNat_add, sizeT_toNat fits]
  have bound := (a - 1).isLt
  rw [alignedSize]
  omega

theorem alignedSize_power {n k : Nat} {a : BitVec 64} (power : a.toNat = 2 ^ k)
    (room : n + (2 ^ k - 1) < 2 ^ 64) :
    alignedSize n a = (n + (2 ^ k - 1)) / 2 ^ k * 2 ^ k := by
  have positive := Nat.two_pow_pos k
  have mask : (a - 1).toNat = 2 ^ k - 1 := by
    have bound := a.isLt
    rw [BitVec.toNat_sub, power]
    change (2 ^ 64 - 1 + 2 ^ k) % 2 ^ 64 = 2 ^ k - 1
    omega
  rw [alignedSize, BitFields.toNat_clear_low _ _ mask, BitVec.toNat_add, mask,
    sizeT_toNat (by omega), Nat.mod_eq_of_lt room]

def Scale.exponent : Scale → Nat
  | .byte => 0
  | .half => 1
  | .word => 2
  | .double => 3
  | .quad => 4

theorem Scale.bytes_toNat (scale : Scale) : scale.bytes.toNat = 2 ^ scale.exponent := by
  cases scale <;> rfl

theorem Scale.exponent_le (scale : Scale) : scale.exponent ≤ 4 := by
  cases scale <;> decide

theorem padTo_length {a : BitVec 64} {k : Nat} (power : a.toNat = 2 ^ k) (small : k ≤ 4)
    {bs : List Byte} (fits : bs.length ≤ maxSize) :
    (padTo a bs).length = (bs.length + (2 ^ k - 1)) / 2 ^ k * 2 ^ k := by
  have bound : 2 ^ k ≤ 2 ^ 4 := Nat.pow_le_pow_right (by decide) small
  unfold maxSize at fits
  unfold padTo
  split
  · rw [Buffer.resized_length, alignedSize_power power (by omega)]
  · have one : 2 ^ k = 1 := by
      have positive := Nat.two_pow_pos k
      omega
    simp [one]

namespace Statement

def exponent : Statement → Nat
  | .opcode .. => 2
  | .data scale _ => scale.exponent
  | .reserve scale _ => scale.exponent
  | .size _ => 2
  | _ => 0

theorem alignment_toNat (x : Statement) : x.alignment.toNat = 2 ^ x.exponent := by
  cases x with
  | data scale _ => exact scale.bytes_toNat
  | reserve scale _ => exact scale.bytes_toNat
  | _ => rfl

theorem exponent_le (x : Statement) : x.exponent ≤ 4 := by
  cases x with
  | data scale _ => exact scale.exponent_le
  | reserve scale _ => exact scale.exponent_le
  | _ => exact Nat.le_of_ble_eq_true rfl

/-- The sum of a length or an alignment with the size before it does not wrap. -/
def Grows (x : Statement) (bs : List Byte) : Prop :=
  match x with
  | .align a => bs.length + (a - 1).toNat < 2 ^ 64
  | .resb times => bs.length + times.toNat < 2 ^ 64
  | .reserve scale times => (x.padded bs).length + (times * scale.bytes).toNat < 2 ^ 64
  | _ => True

instance (x : Statement) (bs : List Byte) : Decidable (x.Grows bs) := by
  cases x <;> unfold Grows <;> infer_instance

theorem padded_of_unaligned {x : Statement} {bs : List Byte} (unaligned : x.exponent = 0) :
    x.padded bs = bs := by
  refine padTo_small ?_ bs
  rw [alignment_toNat, unaligned]
  decide

theorem padded_length (x : Statement) {bs : List Byte} (fits : bs.length ≤ maxSize) :
    (x.padded bs).length = (bs.length + (2 ^ x.exponent - 1)) / 2 ^ x.exponent * 2 ^ x.exponent :=
  padTo_length x.alignment_toNat x.exponent_le fits

theorem le_padded_length (x : Statement) {bs : List Byte} (fits : bs.length ≤ maxSize) :
    bs.length ≤ (x.padded bs).length ∧ (x.padded bs).length < bs.length + 2 ^ x.exponent := by
  have positive := Nat.two_pow_pos x.exponent
  have whole := Nat.div_add_mod' (bs.length + (2 ^ x.exponent - 1)) (2 ^ x.exponent)
  have part := Nat.mod_lt (bs.length + (2 ^ x.exponent - 1)) positive
  rw [x.padded_length fits]
  omega

theorem prefix_padded (x : Statement) {bs : List Byte} (fits : bs.length ≤ maxSize) :
    bs <+: x.padded bs := by
  have grown := (x.le_padded_length fits).1
  unfold padded padTo at *
  split
  · rename_i large
    rw [if_pos large, Buffer.resized_length] at grown
    exact (Buffer.prefix_resized_iff _ _).mpr grown
  · exact List.prefix_rfl

theorem sizeT_add {n : Nat} {len : BitVec 64} (fits : n < 2 ^ 64) :
    n ≤ (sizeT n + len).toNat ↔ n + len.toNat < 2 ^ 64 := by
  have bound := len.isLt
  rw [BitVec.toNat_add, sizeT_toNat fits]
  omega

/-- A product that wraps is still a multiple of the element, so it cuts off the padding and
    at least one byte before it. -/
theorem reserve_cut {scale : Scale} {n p : Nat} {times : BitVec 64} (fits : n ≤ maxSize)
    (aligned : p = (n + (2 ^ scale.exponent - 1)) / 2 ^ scale.exponent * 2 ^ scale.exponent)
    (wraps : 2 ^ 64 ≤ p + (times * scale.bytes).toNat) :
    (sizeT p + times * scale.bytes).toNat < n := by
  have bound := times.isLt
  have product : (times * scale.bytes).toNat = times.toNat * 2 ^ scale.exponent % 2 ^ 64 := by
    rw [BitVec.toNat_mul, scale.bytes_toNat]
  have below : p < 2 ^ 64 := by
    unfold maxSize at fits
    cases scale <;> simp only [Scale.exponent] at aligned <;> omega
  rw [BitVec.toNat_add, sizeT_toNat below, product]
  rw [product] at wraps
  cases scale <;> simp only [Scale.exponent] at * <;> omega

theorem prefix_reserve_iff (scale : Scale) (times : BitVec 64) {bs : List Byte}
    (fits : bs.length ≤ maxSize) : bs <+: (reserve scale times).output bs ↔
      (reserve scale times).Grows bs := by
  have padded := (reserve scale times).prefix_padded fits
  have aligned := (reserve scale times).padded_length fits
  have below : ((reserve scale times).padded bs).length < 2 ^ 64 := by
    have small := (reserve scale times).exponent_le
    have grown := (reserve scale times).le_padded_length fits
    have bound : 2 ^ (reserve scale times).exponent ≤ 2 ^ 4 := Nat.pow_le_pow_right (by decide) small
    unfold maxSize at fits
    omega
  constructor
  · intro kept
    by_contra wraps
    have cut := reserve_cut fits aligned (not_lt.mp wraps)
    have longer := kept.length_le
    rw [output, Buffer.resized_length] at longer
    omega
  · intro room
    exact padded.trans ((Buffer.prefix_resized_iff _ _).mpr ((sizeT_add below).mpr room))

theorem prefix_output_iff (x : Statement) {bs : List Byte} (fits : bs.length ≤ maxSize) :
    bs <+: x.output bs ↔ x.Grows bs := by
  have small : bs.length < 2 ^ 64 := lt_of_le_of_lt fits (by decide)
  have padded := x.prefix_padded fits
  cases x with
  | opcode code wf => exact iff_of_true (padded.trans (List.prefix_append _ _)) trivial
  | data scale new => exact iff_of_true (padded.trans (List.prefix_append _ _)) trivial
  | size sym => exact iff_of_true (padded.trans (List.prefix_append _ _)) trivial
  | db value => exact iff_of_true (List.prefix_append _ _) trivial
  | resb times => exact (Buffer.prefix_resized_iff _ _).trans (sizeT_add small)
  | align a => exact (Buffer.prefix_resized_iff _ _).trans (le_alignedSize_iff small)
  | reserve scale times => exact prefix_reserve_iff scale times fits
  | label _ | finishLabels | endfunc _ | type _ _ | global _ | sect _ | org _ | execonly | readonly =>
    exact iff_of_true List.prefix_rfl trivial

theorem padded_le_output {x : Statement} {bs : List Byte} (fits : bs.length ≤ maxSize)
    (grows : x.Grows bs) : (x.padded bs).length ≤ (x.output bs).length := by
  have whole := ((x.prefix_output_iff fits).mpr grows).length_le
  have small : bs.length < 2 ^ 64 := lt_of_le_of_lt fits (by decide)
  cases x with
  | opcode code wf => exact (List.prefix_append _ _).length_le
  | data scale new => exact (List.prefix_append _ _).length_le
  | size sym => exact (List.prefix_append _ _).length_le
  | reserve scale times =>
    have below := lt_of_le_of_lt (Nat.le_add_right _ _) (show _ + _ < _ from grows)
    rw [output, Buffer.resized_length]
    exact (sizeT_add below).mpr grows
  | label _ | db _ | resb _ | align _ | finishLabels | endfunc _ | type _ _ | global _ | sect _
  | org _ | execonly | readonly =>
    rwa [padded_of_unaligned rfl]

end Statement

namespace State

theorem bytes_fits (s : State) (n : Str) : (s.bytes n).length ≤ maxSize :=
  (s.sectionAt n).output.fits

/-- The output of every section of s is a prefix of its output in t. -/
def Extends (s t : State) : Prop := ∀ n, s.bytes n <+: t.bytes n

theorem Extends.refl (s : State) : s.Extends s := fun _ => List.prefix_rfl

theorem Extends.trans {s m t : State} (first : s.Extends m) (second : m.Extends t) :
    s.Extends t := fun n => (first n).trans (second n)

end State

def ScheduledOp.locations : ScheduledOp → List SymbolLocation
  | .fixup _ loc => [loc]
  | .endfunc loc => [loc]
  | .type _ => []
  | .size loc dataloc => [loc, dataloc]

/-- Every label offset and every captured location lies within its section. -/
structure State.Within (s : State) : Prop where
  labels : ∀ (name : Str) (loc : SymbolLocation), s.lookup[name]? = some loc →
    loc.offset ≤ (s.bytes loc.sect).length
  scheduled : ∀ entry ∈ s.scheduled, ∀ loc ∈ entry.2.locations,
    loc.offset ≤ (s.bytes loc.sect).length

/-- The condition under which a statement keeps what the state it is processed in has output. -/
def Growing (s : State) (x : Statement) : Prop := x.Grows (s.bytes s.current)

instance (s : State) (x : Statement) : Decidable (Growing s x) :=
  inferInstanceAs (Decidable (x.Grows _))

namespace Statement
variable {x : Statement} {s t : State}

theorem exec_extends_iff (run : x.exec s = .ok t) : s.Extends t ↔ Growing s x := by
  have effect := exec_effect run
  rw [Growing, ← x.prefix_output_iff (s.bytes_fits s.current)]
  constructor
  · intro grown
    have here := grown s.current
    rwa [effect.bytes, if_pos rfl] at here
  · intro grown n
    rw [effect.bytes]
    split
    · rename_i same
      exact same ▸ grown
    · exact List.prefix_rfl

theorem schedules_within {current : Str} {bs : List Byte} (fits : bs.length ≤ maxSize)
    (grows : x.Grows bs) {entry : Str × ScheduledOp} (scheduled : x.schedules current bs = some entry)
    {loc : SymbolLocation} (captured : loc ∈ entry.2.locations) :
    loc.sect = current ∧ loc.offset ≤ (x.output bs).length := by
  have padded := padded_le_output fits grows
  have whole := ((x.prefix_output_iff fits).mpr grows).length_le
  cases x with
  | opcode code wf =>
    rcases code with ⟨words, _ | ⟨lbl, f⟩⟩
    · cases scheduled
    · cases scheduled
      cases List.mem_singleton.mp captured
      exact ⟨rfl, padded⟩
  | endfunc sym =>
    cases scheduled
    cases List.mem_singleton.mp captured
    exact ⟨rfl, whole⟩
  | type sym t =>
    cases scheduled
    cases captured
  | size sym =>
    cases scheduled
    rcases List.mem_pair.mp captured with rfl | rfl
    · exact ⟨rfl, padded⟩
    · exact ⟨rfl, whole⟩
  | label _ | db _ | data _ _ | resb _ | reserve _ _ | align _ | finishLabels | global _ | sect _
  | org _ | execonly | readonly => cases scheduled

theorem exec_within (run : x.exec s = .ok t) (grows : Growing s x) (within : s.Within) :
    t.Within := by
  have effect := exec_effect run
  have extended := (exec_extends_iff run).mpr grows
  have fits := s.bytes_fits s.current
  have here : t.bytes s.current = x.output (s.bytes s.current) := by
    rw [effect.bytes, if_pos rfl]
  constructor
  · intro name loc found
    rcases effect.lookup_cases found with old | ⟨-, -, -, rfl⟩
    · exact (within.labels name loc old).trans (extended loc.sect).length_le
    · change _ ≤ (t.bytes s.current).length
      rw [here]
      exact padded_le_output fits grows
  · intro entry mem loc captured
    rcases (effect.mem_scheduled entry).mp mem with old | new
    · exact (within.scheduled entry old loc captured).trans (extended loc.sect).length_le
    · obtain ⟨sect, bound⟩ := schedules_within fits grows new captured
      rw [sect, here]
      exact bound

end Statement

section Runs
variable {s t : State} {xs : List Statement}

theorem execAll_extends (grows : Along Statement.exec Growing s xs) (run : execAll s xs = .ok t) :
    s.Extends t :=
  run_relation_along State.Extends State.Extends.refl (fun _ _ _ => State.Extends.trans)
    (fun _ _ _ grows step => (Statement.exec_extends_iff step).mpr grows) grows run

theorem execAll_within (grows : Along Statement.exec Growing s xs) (run : execAll s xs = .ok t)
    (within : s.Within) : t.Within :=
  run_invariant_along State.Within
    (fun _ _ _ within grows step => Statement.exec_within step grows within) grows within run

theorem new_within (options : Options) : (State.new options).Within := by
  constructor
  · intro name loc found
    cases found
  · intro entry mem
    cases mem

end Runs

def Program.Grows {env : Env} {options : Options} (p : Program env options) : Prop :=
  ∀ pre x post s, p.Processes pre x post s → Growing s x

theorem Program.grows_iff {env : Env} {options : Options} (p : Program env options) :
    p.Grows ↔ Along Statement.exec Growing (State.new options) p.statements := by
  rw [along_iff_splits]
  constructor
  · intro grows pre x post s split before
    exact grows pre x post s ⟨split, before⟩
  · intro grows pre x post s h
    exact grows pre x post s h.split h.before

theorem Program.Grows.upto {env : Env} {options : Options} {p : Program env options}
    (grows : p.Grows) {pre post : List Statement} {s : State} (split : p.statements = pre ++ post)
    (before : execAll (State.new options) pre = .ok s) :
    Along Statement.exec Growing (State.new options) pre ∧
      Along Statement.exec Growing s post ∧ execAll s post = .ok p.final.state := by
  have along := p.grows_iff.mp grows
  have run := p.ran
  rw [split] at along run
  obtain ⟨m, first, rest⟩ := run_append_iff.mp run
  cases before.symm.trans first
  exact ⟨along_front along, along_append along before, rest⟩

def Line.GrowsAt (env : Env) (depth : Nat) (s : State) : Line → Prop
  | .stmt x => Growing s x
  | .included tokens rpath =>
    ∀ xs, BigAsm.expand env depth tokens rpath = .ok xs → Along Statement.exec Growing s xs
  | .unknown => True

theorem Line.extends_of_growing {env : Env} {depth : Nat} {line : Line} {a b : Assembler}
    (played : line.play (assemble env depth) a = .ok ((), b))
    (grows : line.GrowsAt env depth a.state) : a.state.Extends b.state := by
  cases line with
  | stmt x =>
    obtain ⟨t, run, rfl⟩ := play_stmt_ok_iff.mp played
    exact (Statement.exec_extends_iff run).mpr grows
  | included tokens rpath =>
    obtain ⟨xs, t, listed, run, rfl⟩ :=
      (assemble_expands env depth tokens rpath a b (assemble_aligned played)).mp played
    exact execAll_extends (grows xs listed) run
  | unknown =>
    obtain ⟨-, rfl⟩ := stateT_pure_ok_iff.mp played
    exact State.Extends.refl _

/-- A statement that is processed keeps all output exactly when its lengths and alignments do
    not wrap. When no statement of a program wraps, nothing is ever cut off, and every label
    offset and captured location stays within its section. -/
theorem output_append_only_iff (env : Env) (options : Options) (depth : Nat) :
    (∀ token a b, statement env (assemble env depth) token a = .ok ((), b) →
      ∃ line rest, readLine env a.realpath token a.tokens = .ok (line, rest) ∧
        (line.GrowsAt env depth a.state → a.state.Extends b.state) ∧
        ∀ x, line = .stmt x → (a.state.Extends b.state ↔ Growing a.state x)) ∧
    ∀ p : Program env options, p.Grows → ∀ pre post s, p.statements = pre ++ post →
      execAll (State.new options) pre = .ok s → s.Extends p.final.state ∧ s.Within := by
  constructor
  · intro token a b run
    obtain ⟨line, rest, read, played⟩ :=
      (statement_reads env (assemble env depth) a.realpath token a ((), b) rfl).mp run
    refine ⟨line, rest, read, Line.extends_of_growing (a := { a with tokens := rest }) played, ?_⟩
    rintro x rfl
    obtain ⟨t, step, rfl⟩ := play_stmt_ok_iff.mp played
    exact Statement.exec_extends_iff step
  · intro p grows pre post s split before
    obtain ⟨first, later, run⟩ := grows.upto split before
    exact ⟨execAll_extends later run, execAll_within first before (new_within options)⟩

theorem reserve_minus_one_cuts :
    ∃ (p : Program Env.noFiles {}) (pre post : List Statement) (x : Statement) (s t : State),
      p.Processes pre x post s ∧ x.exec s = .ok t ∧ ¬ s.Extends t := by
  let p := Program.ofSource {} (lit "db 5\nresb -1") (by decide +kernel)
  refine ⟨p, [.db 5], [], .resb (-1), _, _, ⟨?_, eq_ok_result ?_⟩, eq_ok_result ?_, ?_⟩
  · decide +kernel
  · decide +kernel
  · decide +kernel
  · intro kept
    exact absurd (kept (lit ".text")) (by decide +kernel)

end BigAsm
