import Mathlib
import BigAsm.Addresses
import BigAsm.Declared
import BigAsm.Placement
import BigAsm.Library.Simulations

/- The assembler as two passes. The first goes over the sizes of the items and finds the places
   of the labels; the second writes every item once, with all addresses known. The words that
   finish() patches are the ones the second pass writes. -/
namespace BigAsm
open ByteStore Runs Instruction

/-- Where everything stands: the base addresses of the sections, the places of the labels. -/
structure LinkMap where
  base : Str → BitVec 128
  place : Str → Option (Str × Nat)

namespace LinkMap

def address (m : LinkMap) (sect : Str) (offset : Nat) : BitVec 128 :=
  m.base sect + BitVec.ofNat 128 offset

def target (m : LinkMap) (name : Str) : Option (BitVec 128) :=
  (m.place name).map fun (sect, offset) => m.address sect offset

end LinkMap

def encodePair (n : Nat) (f : Instruction → Instruction → Instruction × Instruction)
    (ws : List Instruction) : List Instruction :=
  match ws.drop n with
  | i1 :: i2 :: rest => ws.take n ++ (f i1 i2).1 :: (f i1 i2).2 :: rest
  | _ => ws

def Fixup.encode (here target : BitVec 128) (ws : List Instruction) : Fixup → List Instruction
  | .la => encodePair 0 (patchLa ((target - here).setWidth 64) target) ws
  | .laq =>
    let ws := encodePair 0 (setUint32 ((target >>> 96).setWidth 32)) ws
    let ws := encodePair 2 (setUint32 ((target >>> 64).setWidth 32)) ws
    let ws := encodePair 6 (setUint32 ((target >>> 32).setWidth 32)) ws
    encodePair 10 (setUint32 ((target >>> 0).setWidth 32)) ws
  | .branch => ws.map (patchBranch ((target - here).setWidth 32))
  | .farcall => encodePair 0 (patchFarcall target) ws
  | .jump => ws.map (setJump ((target - here).setWidth 64))

def Code.encode (m : LinkMap) (here : BitVec 128) (code : Code) : List Instruction :=
  match code.fixup with
  | some (lbl, f) => f.encode here ((m.target lbl).getD 0) code.words
  | none => code.words

namespace Statement

def start (x : Statement) (n : Nat) : Nat :=
  (n + (2 ^ x.exponent - 1)) / 2 ^ x.exponent * 2 ^ x.exponent

def extent (x : Statement) (n : Nat) : Nat :=
  match x with
  | .opcode code _ => 4 * code.words.length
  | .db _ => 1
  | .data _ bytes => bytes.length
  | .resb times => times.toNat
  | .reserve scale times => (times * scale.bytes).toNat
  | .size _ => 4
  | .align a => alignedSize n a - n
  | _ => 0

/-- The item a statement writes into a section that has n bytes, when everything has its address. -/
def content (m : LinkMap) (sect : Str) (n : Nat) (x : Statement) : List Byte :=
  match x with
  | .opcode code _ => encodeWords (code.encode m (m.address sect (x.start n)))
  | .db value => littleEndian 1 value
  | .data _ bytes => bytes
  | .size sym => wordBytes (sizeWord ((m.target sym).getD 0) (m.address sect n)
      (m.address sect (x.start n)))
  | _ => List.replicate (x.extent n) 0

def write (m : LinkMap) (sect : Str) (n : Nat) (x : Statement) : List Byte :=
  List.replicate (x.start n - n) 0 ++ x.content m sect n

end Statement

/-- What the first pass keeps: sizes and labels, and no byte of the output. -/
structure Survey where
  current : Str
  size : Str → Nat
  waiting : List (Str × Str)
  place : Str → Option (Str × Nat)

namespace Survey

def start : Survey := ⟨lit ".text", fun _ => 0, [], fun _ => none⟩

/-- One statement of the first pass. A label waits with its section until an item of this
    section attaches it, and its first place stays. -/
def next (v : Survey) (x : Statement) : Survey where
  current := x.currentAfter v.current
  size := Function.update v.size v.current
    (x.start (v.size v.current) + x.extent (v.size v.current))
  waiting :=
    if x.flushes then v.waiting.filter (·.2 ≠ v.current)
    else v.waiting ++ x.declares.map (·, v.current)
  place name := (v.place name).or
    (if x.flushes ∧ (name, v.current) ∈ v.waiting then
      some (v.current, x.start (v.size v.current)) else none)

def places (v : Survey) (name : Str) : Option (Str × Nat) :=
  (v.place name).or
    (if (v.waiting.map Prod.fst).contains name then some (v.current, v.size v.current) else none)

end Survey

def firstPass (xs : List Statement) : Survey := xs.foldl Survey.next Survey.start

structure Image where
  current : Str
  bytes : Str → List Byte

namespace Image

def start : Image := ⟨lit ".text", fun _ => []⟩

def next (m : LinkMap) (i : Image) (x : Statement) : Image where
  current := x.currentAfter i.current
  bytes := Function.update i.bytes i.current
    (i.bytes i.current ++ x.write m i.current (i.bytes i.current).length)

end Image

def secondPass (m : LinkMap) (xs : List Statement) : Str → List Byte :=
  (xs.foldl (Image.next m) Image.start).bytes

namespace Statement

def item (x : Statement) (n : Nat) : List Byte :=
  match x with
  | .opcode code _ => encodeWords code.words
  | .db value => littleEndian 1 value
  | .data _ bytes => bytes
  | .size _ => wordBytes 0
  | _ => List.replicate (x.extent n) 0

theorem item_length (x : Statement) (n : Nat) : (x.item n).length = x.extent n := by
  cases x with
  | opcode code wf => exact encodeWords_length code.words
  | db value => simp [item, extent]
  | data scale bytes => rfl
  | size sym => exact wordBytes_length 0
  | label _ | resb _ | reserve _ _ | align _ | finishLabels | endfunc _ | type _ _ | global _
  | sect _ | org _ | execonly | readonly => exact List.length_replicate

theorem start_of_unaligned {x : Statement} (unaligned : x.exponent = 0) (n : Nat) :
    x.start n = n := by
  simp [start, unaligned]

theorem padded_eq (x : Statement) {bs : List Byte} (fits : bs.length ≤ maxSize) :
    x.padded bs = bs ++ List.replicate (x.start bs.length - bs.length) 0 := by
  obtain ⟨more, grown⟩ := x.prefix_padded fits
  have length := x.padded_length fits
  unfold padded padTo at *
  split
  · rename_i large
    rw [if_pos large] at grown length
    have longer : bs.length ≤ alignedSize bs.length x.alignment := by
      have whole := congrArg List.length grown
      rw [List.length_append, Buffer.resized_length] at whole
      omega
    rw [Buffer.resized_length] at length
    rw [Buffer.resized_eq_append longer, length]
    rfl
  · rename_i small
    rw [if_neg small] at length
    rw [start, ← length, Nat.sub_self, List.replicate_zero, List.append_nil]

theorem resized_grown {n len : Nat} {bs : List Byte} (length : n = bs.length + len) :
    Buffer.resized n bs = bs ++ List.replicate len 0 := by
  rw [Buffer.resized_eq_append (by omega), length, Nat.add_sub_cancel_left]

theorem output_eq (x : Statement) {bs : List Byte} (fits : bs.length ≤ maxSize)
    (grows : x.Grows bs) : x.output bs =
      bs ++ (List.replicate (x.start bs.length - bs.length) 0 ++ x.item bs.length) := by
  have small : bs.length < 2 ^ 64 := lt_of_le_of_lt fits (by decide)
  have padded := x.padded_eq fits
  have plain : x.exponent = 0 →
      List.replicate (x.start bs.length - bs.length) (0 : Byte) ++ x.item bs.length =
        x.item bs.length := by
    intro unaligned
    rw [start_of_unaligned unaligned, Nat.sub_self, List.replicate_zero, List.nil_append]
  cases x with
  | opcode code wf | data scale bytes | size sym =>
    rw [output, padded, List.append_assoc]
    rfl
  | db value =>
    rw [plain rfl]
    rfl
  | resb times =>
    have sum : (sizeT bs.length + times).toNat = bs.length + times.toNat := by
      rw [BitVec.toNat_add, sizeT_toNat small, Nat.mod_eq_of_lt grows]
    rw [plain rfl, output, resized_grown sum]
    rfl
  | reserve scale times =>
    have room : ((reserve scale times).padded bs).length + (times * scale.bytes).toNat < 2 ^ 64 :=
      grows
    have sum : (sizeT ((reserve scale times).padded bs).length + times * scale.bytes).toNat =
        ((reserve scale times).padded bs).length + (times * scale.bytes).toNat := by
      rw [BitVec.toNat_add, sizeT_toNat (by omega), Nat.mod_eq_of_lt room]
    rw [output, resized_grown sum, padded, List.append_assoc]
    rfl
  | align a =>
    have sum : alignedSize bs.length a = bs.length + (alignedSize bs.length a - bs.length) := by
      have longer := (le_alignedSize_iff small).mpr grows
      omega
    rw [plain rfl, output, resized_grown sum]
    rfl
  | label _ | finishLabels | endfunc _ | type _ _ | global _ | sect _ | org _ | execonly
  | readonly =>
    rw [plain rfl]
    exact (List.append_nil bs).symm

theorem output_length (x : Statement) {bs : List Byte} (fits : bs.length ≤ maxSize)
    (grows : x.Grows bs) : (x.output bs).length = x.start bs.length + x.extent bs.length := by
  have padded := (x.le_padded_length fits).1
  rw [x.padded_length fits] at padded
  change bs.length ≤ x.start bs.length at padded
  rw [x.output_eq fits grows, List.length_append, List.length_append, List.length_replicate,
    item_length]
  omega

end Statement

/-- The first pass knows the sizes, the queues and the symbols of the assembler. -/
structure Surveys (v : Survey) (s : State) : Prop where
  current : v.current = s.current
  size : ∀ n, v.size n = (s.bytes n).length
  waiting : ∀ name n, (name, n) ∈ v.waiting ↔ name ∈ s.queue n
  place : ∀ name, v.place name = (s.lookup[name]?).map SymbolLocation.place

namespace Surveys
variable {v : Survey} {s t : State} {x : Statement}

theorem new (options : Options) : Surveys Survey.start (State.new options) where
  current := rfl
  size n := by
    rw [(State.new_empty options n).1]
    rfl
  waiting name n := by
    rw [(State.new_empty options n).2]
    exact iff_of_false List.not_mem_nil List.not_mem_nil
  place name := rfl

theorem next (h : Surveys v s) (grows : Growing s x) (run : x.exec s = .ok t) :
    Surveys (v.next x) t := by
  have effect := Statement.exec_effect run
  have fits := s.bytes_fits s.current
  have here : v.size v.current = (s.bytes s.current).length := by rw [h.current, h.size]
  refine ⟨?_, fun n => ?_, fun name n => ?_, fun name => ?_⟩
  · rw [effect.current, ← h.current]
    rfl
  · rw [effect.bytes]
    change Function.update v.size v.current _ n = _
    by_cases same : n = s.current
    · subst same
      rw [if_pos rfl, h.current, Function.update_self, h.size, x.output_length fits grows]
    · rw [if_neg same, h.current, Function.update_of_ne same, h.size]
  · rw [effect.queue]
    change (name, n) ∈ (if x.flushes then _ else _) ↔ _
    by_cases same : n = s.current
    · subst same
      rw [if_pos rfl, x.waiting_eq]
      split
      · simp [h.current]
      · simp [h.waiting, h.current]
    · rw [if_neg same, ← h.waiting]
      split
      · simp [h.current, same]
      · simp [h.current, Ne.symm same]
  · rw [effect.lookup]
    change (v.place name).or _ = _
    have waiting := h.waiting name s.current
    rw [h.place, here, h.current]
    unfold Statement.symbols
    by_cases flushes : x.flushes = true
    · rw [if_pos flushes, State.getElem?_attach]
      have length := x.padded_length fits
      change _ = x.start (s.bytes s.current).length at length
      by_cases waits : name ∈ s.queue s.current
      · rw [if_pos ⟨flushes, waiting.mpr waits⟩, if_pos waits, ← length]
        cases s.lookup[name]? <;> rfl
      · rw [if_neg fun both => waits (waiting.mp both.2), if_neg waits]
        cases s.lookup[name]? <;> rfl
    · rw [if_neg flushes, if_neg (fun both => flushes both.1), Option.or_none]

theorem run {options : Options} {xs : List Statement}
    (grows : Along Statement.exec Growing (State.new options) xs)
    (run : execAll (State.new options) xs = .ok s) : Surveys (firstPass xs) s :=
  run_fold_along Surveys Survey.next (fun _ _ _ _ h grows run => h.next grows run) grows
    (new options) run

end Surveys

theorem Program.Grows.surveyed {env : Env} {options : Options} {p : Program env options}
    (grows : p.Grows) {u : State} (prepared : p.final.state.prepare = .ok u) (name : Str) :
    (u.lookup[name]?).map SymbolLocation.place = (firstPass p.statements).places name := by
  obtain ⟨first, order, indexed, -⟩ := (State.Reachable.ofProgram p).anchored
  obtain ⟨m, u', flushed, run, placed⟩ := State.prepare_ok indexed
  cases run.symm.trans prepared
  have surveys := Surveys.run (p.grows_iff.mp grows) p.ran
  have waits : (∃ n ∈ p.final.state.sections.keys, name ∈ p.final.state.queue n) ↔
      ((firstPass p.statements).waiting.map Prod.fst).contains name = true := by
    rw [List.contains_iff_mem, List.mem_map]
    constructor
    · rintro ⟨n, -, waits⟩
      exact ⟨(name, n), (surveys.waiting name n).mpr waits, rfl⟩
    · rintro ⟨⟨l, n⟩, listed, rfl⟩
      have waits := (surveys.waiting l n).mp listed
      exact ⟨n, Std.ExtTreeMap.mem_keys.mpr (State.known_of_queue waits), waits⟩
  rw [placed.lookup, flushed.lookup, Survey.places, surveys.place, surveys.current, surveys.size]
  by_cases waiting : ((firstPass p.statements).waiting.map Prod.fst).contains name = true
  · rw [if_pos (waits.mpr waiting), if_pos waiting]
    cases p.final.state.lookup[name]? <;> rfl
  · rw [if_neg (mt waits.mp waiting), if_neg waiting, Option.or_none, Option.or_none]

def State.linkMap (s : State) : LinkMap :=
  ⟨s.baseOf, fun name => (s.lookup[name]?).map SymbolLocation.place⟩

theorem State.linkMap_target {s : State} {name : Str} {sym : SymbolLocation}
    (found : s.lookup[name]? = some sym) : s.linkMap.target name = some (s.address sym) := by
  change Option.map _ ((s.lookup[name]?).map SymbolLocation.place) = _
  rw [found]
  rfl

theorem encodePair_length (n : Nat) (f : Instruction → Instruction → Instruction × Instruction)
    (ws : List Instruction) : (encodePair n f ws).length = ws.length := by
  unfold encodePair
  split
  · rename_i i1 i2 rest split
    have length := congrArg List.length split
    rw [List.length_drop, List.length_cons, List.length_cons] at length
    rw [List.length_append, List.length_take, List.length_cons, List.length_cons]
    omega
  · rfl

theorem Fixup.encode_length (f : Fixup) (here target : BitVec 128) (ws : List Instruction) :
    (f.encode here target ws).length = ws.length := by
  cases f with
  | la | laq | farcall => simp only [encode, encodePair_length]
  | branch | jump => exact List.length_map _

theorem Code.encode_length (code : Code) (m : LinkMap) (here : BitVec 128) :
    (code.encode m here).length = code.words.length := by
  unfold encode
  split
  · exact Fixup.encode_length _ _ _ _
  · rfl

theorem Statement.content_length (x : Statement) (m : LinkMap) (sect : Str) (n : Nat) :
    (x.content m sect n).length = x.extent n := by
  cases x with
  | opcode code wf => rw [content, encodeWords_length, Code.encode_length, extent]
  | db value => simp [content, extent]
  | data scale bytes => rfl
  | size sym => exact wordBytes_length _
  | label _ | resb _ | reserve _ _ | align _ | finishLabels | endfunc _ | type _ _ | global _
  | sect _ | org _ | execonly | readonly => exact List.length_replicate

theorem Statement.le_start (x : Statement) (n : Nat) : n ≤ x.start n := by
  have positive := Nat.two_pow_pos x.exponent
  have whole := Nat.div_add_mod (n + (2 ^ x.exponent - 1)) (2 ^ x.exponent)
  have part := Nat.mod_lt (n + (2 ^ x.exponent - 1)) positive
  unfold start
  rw [Nat.mul_comm] at whole
  omega

theorem passes_agree (m : LinkMap) (xs : List Statement) :
    (xs.foldl (Image.next m) Image.start).current = (firstPass xs).current ∧
      ∀ n, (secondPass m xs n).length = (firstPass xs).size n := by
  induction xs using List.reverseRecOn with
  | nil => exact ⟨rfl, fun _ => rfl⟩
  | append_singleton xs x ih =>
    obtain ⟨current, sizes⟩ := ih
    unfold firstPass secondPass at *
    rw [List.foldl_append, List.foldl_append]
    generalize xs.foldl (Image.next m) Image.start = i at *
    generalize xs.foldl Survey.next Survey.start = v at *
    refine ⟨congrArg x.currentAfter current, fun n => ?_⟩
    change (Function.update i.bytes i.current _ n).length = Function.update v.size v.current _ n
    rw [current]
    by_cases same : n = v.current
    · subst same
      have start := x.le_start (v.size v.current)
      rw [Function.update_self, Function.update_self, Statement.write, List.length_append,
        List.length_append, List.length_replicate, x.content_length, sizes]
      omega
    · rw [Function.update_of_ne same, Function.update_of_ne same, sizes]

theorem Image.run_extends (m : LinkMap) (xs : List Statement) (i : Image) (n : Str) :
    i.bytes n <+: (xs.foldl (Image.next m) i).bytes n := by
  induction xs generalizing i with
  | nil => exact List.prefix_refl _
  | cons x xs ih =>
    refine List.IsPrefix.trans ?_ (ih (i.next m x))
    change _ <+: Function.update i.bytes i.current _ n
    by_cases same : n = i.current
    · rw [same, Function.update_self]
      exact List.prefix_append _ _
    · rw [Function.update_of_ne same]

theorem secondPass_content (m : LinkMap) {xs pre post : List Statement} {x : Statement}
    (split : xs = pre ++ x :: post) (v : Survey) (before : firstPass pre = v) :
    window (x.start (v.size v.current)) (x.extent (v.size v.current)) (secondPass m xs v.current) =
      x.content m v.current (v.size v.current) := by
  obtain ⟨current, sizes⟩ := passes_agree m pre
  have grown := Image.run_extends m post ((pre.foldl (Image.next m) Image.start).next m x) v.current
  have whole : (post.foldl (Image.next m) ((pre.foldl (Image.next m) Image.start).next m x)).bytes =
      secondPass m xs := by
    rw [secondPass, split, List.foldl_append]
    rfl
  rw [whole] at grown
  unfold secondPass at sizes
  rw [before] at current sizes
  generalize pre.foldl (Image.next m) Image.start = i at *
  have written : (i.next m x).bytes v.current =
      (i.bytes v.current ++ List.replicate (x.start (v.size v.current) - v.size v.current) 0) ++
        x.content m v.current (v.size v.current) := by
    change Function.update i.bytes i.current _ v.current = _
    rw [current, Function.update_self, sizes, Statement.write, List.append_assoc]
  have start : (i.bytes v.current ++ List.replicate (x.start (v.size v.current) -
      v.size v.current) (0 : Byte)).length = x.start (v.size v.current) := by
    have le := x.le_start (v.size v.current)
    rw [List.length_append, List.length_replicate, sizes]
    omega
  have extent := x.content_length m v.current (v.size v.current)
  rw [written] at grown
  rw [window_grown grown (by rw [List.length_append, start, extent]), ← extent]
  have placed := window_at_end (i.bytes v.current ++ List.replicate (x.start (v.size v.current) -
    v.size v.current) (0 : Byte)) (x.content m v.current (v.size v.current))
  rwa [start] at placed

theorem rewrite_encodePair {n : Nat} {ws : List Instruction} (room : n + 2 ≤ ws.length)
    (f : Instruction → Instruction → Instruction × Instruction) :
    rewriteAt (4 * n) 8 (pairRewrite f) (encodeWords ws) = encodeWords (encodePair n f ws) := by
  have front : (ws.take n).length = n := by
    rw [List.length_take]
    omega
  have behind : (ws.drop n).length = ws.length - n := List.length_drop
  unfold encodePair
  rcases back : ws.drop n with _ | ⟨i1, _ | ⟨i2, rest⟩⟩
  · rw [back, List.length_nil] at behind
    omega
  · rw [back, List.length_singleton] at behind
    omega
  · have whole := List.take_append_drop n ws
    rw [back] at whole
    have pair := pairRewrite_words f (ws.take n) rest i1 i2
    rwa [front, whole] at pair

theorem Fixup.edit_encode {s : State} {loc sym : SymbolLocation} {f : Fixup} {e : Edit Str}
    (done : f.edit s loc sym = .ok e) {ws : List Instruction} (sized : ws.length = f.words) :
    e.rewrite (encodeWords ws) = encodeWords (f.encode (s.address loc) (s.address sym) ws) := by
  have whole : ∀ g : Instruction → Instruction → Instruction × Instruction, ws.length = 2 →
      pairRewrite g (encodeWords ws) = encodeWords (encodePair 0 g ws) := by
    intro g two
    rw [← rewrite_encodePair (by omega) g]
    have length : (encodeWords ws).length = 8 := by rw [encodeWords_length, two]
    have keeps := rewriteAt_back (pairRewrite_keeps g) [] length
    exact keeps.symm
  have single : ∀ g : Instruction → Instruction, ws.length = 1 →
      wordRewrite g (encodeWords ws) = encodeWords (ws.map g) := by
    intro g one
    obtain ⟨w, rfl⟩ := List.length_eq_one_iff.mp one
    change wordBytes (g (bytesWord (wordBytes w ++ []))) = wordBytes (g w) ++ []
    rw [List.append_nil, List.append_nil, bytesWord_wordBytes]
  cases f with
  | la =>
    cases done
    exact whole _ sized
  | laq =>
    cases done
    have long : 12 ≤ ws.length := by
      rw [sized]
      decide
    change laqRewrite (s.address sym) (encodeWords ws) = _
    unfold laqRewrite
    simp only [Function.comp_apply]
    rw [rewrite_encodePair (n := 0) (by omega), rewrite_encodePair (n := 2),
      rewrite_encodePair (n := 6), rewrite_encodePair (n := 10)]
    · rfl
    all_goals simp only [encodePair_length]; omega
  | branch =>
    cases done
    exact single _ sized
  | farcall =>
    cases done
    exact whole _ sized
  | jump =>
    obtain ⟨_, -, rfl⟩ := map_ok_iff.mp done
    exact single _ sized

namespace Statement
variable {x : Statement} {F : State} {name : Str} {bs front : List Byte}

theorem content_of_unscheduled (m : LinkMap) (none : x.schedules name bs = none) (n : Nat) :
    x.content m name n = x.item n := by
  cases x with
  | opcode code wf =>
    rcases code with ⟨words, _ | ⟨lbl, f⟩⟩
    · rfl
    · cases none
  | size sym => cases none
  | _ => rfl

theorem rewrite_item {entry : Str × ScheduledOp} (fits : bs.length ≤ maxSize)
    (scheduled : x.schedules name bs = some entry) {e : Edit Str} (made : F.edit entry = .ok e) :
    e.rewrite (x.item bs.length) = x.content F.linkMap name bs.length := by
  have padded := x.padded_length fits
  change _ = x.start bs.length at padded
  cases x with
  | opcode code wf =>
    rcases code with ⟨words, _ | ⟨lbl, f⟩⟩
    · cases scheduled
    · cases scheduled
      unfold State.edit at made
      cases found : F.lookup[lbl]? with
      | none =>
        rw [found] at made
        cases made
      | some sym =>
        rw [found] at made
        have encoded := Fixup.edit_encode made (wf.sized lbl f rfl)
        refine encoded.trans ?_
        rw [content, Code.encode]
        dsimp only
        rw [State.linkMap_target found, ← padded]
        rfl
  | size sym =>
    cases scheduled
    unfold State.edit at made
    cases found : F.lookup[sym]? with
    | none =>
      rw [found] at made
      cases made
    | some loc =>
      rw [found] at made
      cases made
      rw [content, State.linkMap_target found, ← padded]
      rfl
  | endfunc sym | type sym t =>
    cases scheduled
    unfold State.edit at made
    split at made
    · cases made
      rfl
    · cases made
  | label _ | db _ | data _ _ | resb _ | reserve _ _ | align _ | finishLabels | global _ | sect _
  | org _ | execonly | readonly => cases scheduled

theorem apply_item {entry : Str × ScheduledOp} (fits : bs.length ≤ maxSize) (grows : x.Grows bs)
    (scheduled : x.schedules name bs = some entry) {e : Edit Str} (made : F.edit entry = .ok e)
    {m : Str → List Byte} (length : front.length = bs.length)
    (here : m name = front ++ (List.replicate (x.start bs.length - bs.length) 0 ++ x.item bs.length)) :
    e.apply m = Function.update m name (front ++ x.write F.linkMap name bs.length) := by
  have rewritten := rewrite_item fits scheduled made
  have slot := State.edit_slot made
  have padded := x.padded_length fits
  have output := x.output_length fits grows
  have before := (x.le_padded_length fits).1
  change _ = x.start bs.length at padded
  rcases schedules_slot scheduled with ⟨zero, none⟩ | ⟨region, start, last⟩
  · -- an operation without bytes comes from a statement without an item
    have empty : x.exponent = 0 ∧ x.extent bs.length = 0 ∧ e.rewrite = id := by
      cases x with
      | opcode code wf =>
        rcases code with ⟨words, _ | ⟨lbl, f⟩⟩
        · cases scheduled
        · cases scheduled
          have positive := f.words_pos
          change 4 * f.words = 0 at none
          omega
      | size sym =>
        cases scheduled
        cases none
      | endfunc sym | type sym t =>
        cases scheduled
        unfold State.edit at made
        split at made
        · cases made
          exact ⟨rfl, rfl, rfl⟩
        · cases made
      | label _ | db _ | data _ _ | resb _ | reserve _ _ | align _ | finishLabels | global _
      | sect _ | org _ | execonly | readonly => cases scheduled
    obtain ⟨unaligned, nothing, same⟩ := empty
    have item : x.item bs.length = [] := List.length_eq_zero_iff.mp ((x.item_length _).trans nothing)
    rw [apply_nothing (slot ▸ none) (slot ▸ zero) same, write, ← rewritten, same, id_eq, ← here,
      Function.update_eq_self]
  · funext k
    unfold Edit.apply
    rw [slot, region]
    by_cases same : k = name
    · subst same
      have length' : (x.item bs.length).length = entry.2.slot.length := by
        rw [item_length]
        omega
      have start' : (front ++ List.replicate (x.start bs.length - bs.length) (0 : Byte)).length =
          entry.2.slot.start := by
        rw [List.length_append, List.length_replicate]
        omega
      have keeps : KeepsLength entry.2.slot.length e.rewrite := slot ▸ e.keeps
      rw [if_pos rfl, Function.update_self, here, ← List.append_assoc, ← start',
        rewriteAt_back keeps _ length', rewritten, write, List.append_assoc]
    · rw [if_neg same, Function.update_of_ne same]

def Linked (F : State) (s : State) (x : Statement) : Prop :=
  Growing s x ∧ ∀ entry, x.schedules s.current (s.bytes s.current) = some entry →
    ∃ e, F.edit entry = .ok e

end Statement

theorem Edits.fits {F : State} {order : List (Str × ScheduledOp)} {es : List (Edit Str)}
    (edits : Edits F order es) {m : Str → List Byte}
    (fits : ∀ entry ∈ order, entry.2.slot.Fits m) : ∀ e ∈ es, e.slot.Fits m := by
  induction edits with
  | nil => simp
  | cons made _ ih =>
    rw [List.forall_mem_cons] at fits ⊢
    rw [State.edit_slot made]
    exact ⟨fits.1, ih fits.2⟩

/-- The bytes of the second pass are the bytes so far with the edits of the schedule so far. -/
structure Pictures (F : State) (i : Image) (s : State) : Prop where
  recorded : Recorded s
  current : i.current = s.current
  edits : ∃ order es, order.Perm s.scheduled ∧ Edits F order es ∧
    i.bytes = Edit.applyAll es s.bytes

namespace Pictures
variable {F s t : State} {i : Image} {x : Statement}

theorem new (F : State) (options : Options) : Pictures F Image.start (State.new options) where
  recorded := Recorded.new options
  current := rfl
  edits := by
    refine ⟨[], [], .nil, .nil, funext fun n => ?_⟩
    exact (State.new_empty options n).1.symm

theorem next (h : Pictures F i s) (linked : x.Linked F s) (run : x.exec s = .ok t) :
    Pictures F (i.next F.linkMap x) t := by
  obtain ⟨grows, doable⟩ := linked
  have effect := Statement.exec_effect run
  have recorded := h.recorded.exec grows run
  obtain ⟨order, es, perm, edits, bytes⟩ := h.edits
  have fits := edits.fits fun entry mem => ((h.recorded.of_perm perm).1 entry mem).fits
  have small := s.bytes_fits s.current
  let n := (s.bytes s.current).length
  let new := List.replicate (x.start n - n) (0 : Byte) ++ x.item n
  let more : Str → List Byte := fun k => if k = s.current then new else []
  have grown : ∀ k, t.bytes k = s.bytes k ++ more k := by
    intro k
    rw [effect.bytes]
    by_cases same : k = s.current
    · subst same
      simp only [more, ite_true]
      exact x.output_eq small grows
    · simp only [more, if_neg same, List.append_nil]
  have edited : ∀ k, Edit.applyAll es t.bytes k = i.bytes k ++ more k := by
    rw [bytes]
    exact Edit.applyAll_append fits grown
  have length : (i.bytes s.current).length = n := by
    rw [bytes]
    exact Edit.applyAll_length fits s.current
  have written : (i.next F.linkMap x).bytes = Function.update (Edit.applyAll es t.bytes) s.current
      (i.bytes s.current ++ x.write F.linkMap s.current n) := by
    change Function.update i.bytes i.current (i.bytes i.current ++ _) = _
    rw [h.current, length]
    funext k
    by_cases same : k = s.current
    · rw [same, Function.update_self, Function.update_self]
    · rw [Function.update_of_ne same, Function.update_of_ne same, edited]
      simp only [more, if_neg same, List.append_nil]
  refine ⟨recorded, ?_, ?_⟩
  · rw [effect.current, ← h.current]
    rfl
  · cases scheduled : x.schedules s.current (s.bytes s.current) with
    | none =>
      have perm' := effect.scheduled_perm
      rw [scheduled, Option.toList_none, List.append_nil] at perm'
      refine ⟨order, es, perm.trans perm'.symm, edits, ?_⟩
      have plain : i.bytes s.current ++ x.write F.linkMap s.current n =
          Edit.applyAll es t.bytes s.current := by
        rw [edited, Statement.write, Statement.content_of_unscheduled F.linkMap scheduled]
        simp only [more, ite_true]
        rfl
      rw [written, plain, Function.update_eq_self]
    | some entry =>
      obtain ⟨e, made⟩ := doable entry scheduled
      have perm' := effect.scheduled_perm
      rw [scheduled, Option.toList_some] at perm'
      refine ⟨order ++ [entry], es ++ [e], (perm.append_right _).trans perm'.symm, ?_, ?_⟩
      · exact List.rel_append edits (.cons made .nil)
      · have last : Edit.applyAll (es ++ [e]) t.bytes = e.apply (Edit.applyAll es t.bytes) := by
          rw [Edit.applyAll, List.foldl_append]
          rfl
        have here := edited s.current
        simp only [more, ite_true] at here
        rw [written, last, Statement.apply_item small grows scheduled made length here]

end Pictures

theorem Finished.applied {env : Env} {options : Options} (f : Finished env options)
    (grows : f.program.Grows) {order : List (Str × ScheduledOp)} {es : List (Edit Str)}
    (perm : order.Perm f.program.final.state.scheduled) (edits : Edits f.state order es) :
    f.state.bytes = Edit.applyAll es f.program.final.state.bytes := by
  obtain ⟨u, run, bytes, -, -⟩ := f.program.prepared
  obtain ⟨recorded, same, worked⟩ := grows.prepared run
  obtain ⟨u', run', finished⟩ := bind_ok_iff.mp f.done
  cases run.symm.trans run'
  rw [worked] at finished
  rcases State.runScheduled_all recorded.owned with ⟨es', t, edits', done, frame, all⟩ | ⟨_, _, -, -, failed⟩
  · cases finished.symm.trans done
    obtain ⟨es'', edits'', perm'⟩ := edits'.perm (perm.trans (same ▸ List.Perm.refl _))
    cases (edits.of_frame frame).unique edits''
    rw [all, ← recorded.applyAll_perm edits' perm', bytes]
  · cases finished.symm.trans failed

theorem Finished.linked {env : Env} {options : Options} (f : Finished env options)
    (grows : f.program.Grows) :
    Along Statement.exec (Statement.Linked f.state · ·) (State.new options) f.program.statements := by
  refine along_iff_splits.mpr fun pre x post v split before => ?_
  have processed : f.program.Processes pre x post v := ⟨split, before⟩
  refine ⟨grows pre x post v processed, fun entry scheduled => ?_⟩
  obtain ⟨e, made, -⟩ := f.edited grows
    ((f.program.mem_scheduled_iff entry).mpr ⟨pre, x, post, v, processed, scheduled⟩)
  exact ⟨e, made⟩

theorem Finished.surveyed {env : Env} {options : Options} (f : Finished env options)
    (grows : f.program.Grows) (name : Str) : (f.state.lookup[name]?).map SymbolLocation.place =
      (firstPass f.program.statements).places name := by
  obtain ⟨u, prepared, finished⟩ := bind_ok_iff.mp f.done
  rw [State.finishScheduledWork_place finished, grows.surveyed prepared]

theorem Finished.linkMap_eq {env : Env} {options : Options} (f : Finished env options)
    (grows : f.program.Grows) :
    f.state.linkMap = ⟨f.state.baseOf, (firstPass f.program.statements).places⟩ :=
  congrArg (LinkMap.mk f.state.baseOf) (funext (f.surveyed grows))

theorem Finished.image {env : Env} {options : Options} (f : Finished env options)
    (grows : f.program.Grows) :
    f.state.bytes = secondPass f.state.linkMap f.program.statements := by
  have pictures := run_fold_along (Pictures f.state) (Image.next f.state.linkMap)
    (fun _ _ _ _ h linked run => h.next linked run) (f.linked grows)
    (Pictures.new f.state options) f.program.ran
  obtain ⟨order, es, perm, edits, bytes⟩ := pictures.edits
  rw [f.applied grows perm edits, ← bytes]
  rfl

/-- One pass with patches is two passes without them: the first pass finds every label where
    finish() leaves it, and the output of every section is what the second pass writes with
    these places and the final base addresses. -/
theorem two_passes {env : Env} {options : Options} (f : Finished env options)
    (grows : f.program.Grows) :
    (∀ name, (f.state.lookup[name]?).map SymbolLocation.place =
      (firstPass f.program.statements).places name) ∧
    f.state.bytes = secondPass ⟨f.state.baseOf, (firstPass f.program.statements).places⟩
      f.program.statements := by
  refine ⟨f.surveyed grows, ?_⟩
  rw [← f.linkMap_eq grows]
  exact f.image grows

theorem two_passes_over_byte : ∃ f : Finished Env.noFiles {},
    (firstPass f.program.statements).places (lit "f") = some (lit ".text", 8) ∧
    secondPass ⟨f.state.baseOf, (firstPass f.program.statements).places⟩ f.program.statements
      (lit ".text") = [0xef, 0, 0x80, 0, 1, 0, 0, 0, 0x67, 0x80, 0, 0, 4, 0, 0, 0] := by
  obtain ⟨p, along, accepted, found, bytes⟩ : ∃ p : Program Env.noFiles {},
      Along Statement.exec Growing (State.new {}) p.statements ∧
        p.final.state.finish.isOk = true ∧
        ((result p.final.state.finish).lookup[lit "f"]?).map SymbolLocation.place =
          some (lit ".text", 8) ∧
        (result p.final.state.finish).bytes (lit ".text") =
          [0xef, 0, 0x80, 0, 1, 0, 0, 0, 0x67, 0x80, 0, 0, 4, 0, 0, 0] :=
    ⟨Program.ofSource {} (lit "call f\ndb 1\nf: ret\n.size f") (by decide +kernel), by decide +kernel⟩
  let f : Finished Env.noFiles {} := ⟨p, result p.final.state.finish, eq_ok_result accepted⟩
  obtain ⟨places, image⟩ := two_passes f (p.grows_iff.mpr along)
  exact ⟨f, (places (lit "f")).symm.trans found, (congrFun image (lit ".text")).symm.trans bytes⟩

namespace Statement

def jumps : Statement → Bool
  | .opcode code _ => code.fixup.map Prod.snd = some .jump
  | _ => false

/-- The label a statement refers to is known and, for call and jmp, not out of the bounds that the
    low 64 bits of the distance are tested for. No other instruction has its distance tested. -/
def InReach (m : LinkMap) (v : Survey) (x : Statement) : Prop :=
  ∀ lbl, x.refersTo = some lbl → ∃ target, m.target lbl = some target ∧
    (x.jumps = true →
      let diff := (target - m.address v.current (x.start (v.size v.current))).setWidth 64
      diff.toInt ≤ 2047 ∧ -2048 ≤ diff.toInt)

theorem boundsCheckJump_ok_iff (diff : BitVec 64) :
    boundsCheckJump diff = .ok () ↔ diff.toInt ≤ 2047 ∧ -2048 ≤ diff.toInt := by
  unfold boundsCheckJump
  split
  · refine iff_of_false (fun same => by cases same) ?_
    omega
  · refine iff_of_true rfl ?_
    omega

theorem not_jumps_edit {F : State} {sym : SymbolLocation} {x : Statement} {name lbl : Str}
    {bs : List Byte} {op : ScheduledOp} (scheduled : x.schedules name bs = some (lbl, op))
    (other : x.jumps = false) : ∃ e, op.edit F sym = .ok e := by
  cases x with
  | opcode code wf =>
    rcases code with ⟨words, _ | ⟨l, f⟩⟩
    · cases scheduled
    · cases scheduled
      cases f with
      | jump => cases other
      | la | laq | branch | farcall => exact ⟨_, rfl⟩
  | endfunc sym | type sym t | size sym =>
    cases scheduled
    exact ⟨_, rfl⟩
  | label _ | db _ | data _ _ | resb _ | reserve _ _ | align _ | finishLabels | global _ | sect _
  | org _ | execonly | readonly => cases scheduled

theorem edit_ok_iff {F s : State} {v : Survey} {x : Statement} (surveys : Surveys v s) :
    (∀ entry, x.schedules s.current (s.bytes s.current) = some entry →
      ∃ e, F.edit entry = .ok e) ↔ x.InReach F.linkMap v := by
  have padded := x.padded_length (s.bytes_fits s.current)
  change _ = x.start (s.bytes s.current).length at padded
  have here : F.linkMap.address v.current (x.start (v.size v.current)) =
      F.address (endOf s.current (x.padded (s.bytes s.current))) := by
    rw [surveys.current, surveys.size, ← padded]
    rfl
  have name := x.schedules_name s.current (s.bytes s.current)
  unfold InReach
  rw [← name]
  cases scheduled : x.schedules s.current (s.bytes s.current) with
  | none => simp
  | some entry =>
    rcases entry with ⟨lbl, op⟩
    simp only [Option.some.injEq, forall_eq', Option.map_some, State.edit]
    cases found : F.lookup[lbl]? with
    | none =>
      have unknown : F.linkMap.target lbl = none := by
        change Option.map _ ((F.lookup[lbl]?).map SymbolLocation.place) = _
        rw [found]
        rfl
      simp [unknown]
    | some sym =>
      rw [State.linkMap_target found]
      simp only [Option.some.injEq, exists_eq_left']
      by_cases jumps : x.jumps = true
      · have jump : op = .fixup .jump (endOf s.current (x.padded (s.bytes s.current))) := by
          cases x with
          | opcode code wf =>
            rcases code with ⟨words, _ | ⟨l, f⟩⟩
            · cases jumps
            · cases of_decide_eq_true jumps
              cases scheduled
              rfl
          | _ => cases jumps
        rw [jump, here]
        change (∃ e, (fun _ => _) <$> boundsCheckJump _ = Except.ok e) ↔ (_ → _)
        rw [imp_iff_right jumps, ← boundsCheckJump_ok_iff]
        constructor
        · rintro ⟨e, made⟩
          obtain ⟨_, checked, -⟩ := map_ok_iff.mp made
          exact checked
        · intro checked
          rw [checked]
          exact ⟨_, rfl⟩
      · have other : x.jumps = false := by simpa using jumps
        exact iff_of_true (not_jumps_edit scheduled other) fun h => absurd h jumps

end Statement

theorem Program.Grows.accepts_iff {env : Env} {options : Options} {p : Program env options}
    (grows : p.Grows) {u : State} (prepared : p.final.state.prepare = .ok u) :
    p.final.state.finish.isOk = true ↔ ∀ pre x post, p.statements = pre ++ x :: post →
      x.InReach ⟨u.baseOf, (firstPass p.statements).places⟩ (firstPass pre) := by
  obtain ⟨recorded, same, worked⟩ := grows.prepared prepared
  have finish : p.final.state.finish = u.scheduled.foldlM State.runScheduled u := by
    rw [← worked, State.finish, prepared]
    rfl
  have places : u.linkMap = ⟨u.baseOf, (firstPass p.statements).places⟩ :=
    congrArg (LinkMap.mk u.baseOf) (funext (grows.surveyed prepared))
  have surveyed : ∀ {pre x post v}, p.Processes pre x post v → Surveys (firstPass pre) v :=
    fun processed => Surveys.run (grows.upto processed.split processed.before).1 processed.before
  rw [← places, finish]
  constructor
  · intro accepted pre x post split
    rcases State.runScheduled_all recorded.owned with ⟨es, t, edits, -⟩ | ⟨_, _, -, -, failed⟩
    · have ran := p.ran
      rw [split] at ran
      obtain ⟨v, before, -⟩ := run_append_iff.mp ran
      have processed : p.Processes pre x post v := ⟨split, before⟩
      refine (Statement.edit_ok_iff (surveyed processed)).mp fun entry scheduled => ?_
      have mem := (p.mem_scheduled_iff entry).mpr ⟨pre, x, post, v, processed, scheduled⟩
      obtain ⟨e, -, made⟩ := edits.mem (same ▸ mem)
      exact ⟨e, made⟩
    · rw [failed] at accepted
      cases accepted
  · intro reach
    rcases State.runScheduled_all recorded.owned with ⟨es, t, -, run, -⟩ | ⟨entry, err, mem, failed, -⟩
    · rw [run]
      rfl
    · rw [same] at mem
      obtain ⟨pre, x, post, v, processed, scheduled⟩ := (p.mem_scheduled_iff entry).mp mem
      obtain ⟨e, made⟩ := (Statement.edit_ok_iff (surveyed processed)).mpr
        (reach pre x post processed.split) entry scheduled
      cases failed.symm.trans made

/-- finish() accepts a program that cuts nothing off exactly when every label a statement refers to
    is declared, and the low 64 bits of the distance of every call and jmp are within 2 KiB, by the
    places of the first pass. -/
theorem links_iff {env : Env} {options : Options} (p : Program env options) (grows : p.Grows) :
    ∃ u, p.final.state.prepare = .ok u ∧ (p.final.state.finish.isOk = true ↔
      ∀ pre x post, p.statements = pre ++ x :: post →
        x.InReach ⟨u.baseOf, (firstPass p.statements).places⟩ (firstPass pre)) := by
  obtain ⟨u, prepared, -, -, -⟩ := p.prepared
  exact ⟨u, prepared, grows.accepts_iff prepared⟩

theorem far_jump_not_linked : ∃ (p : Program Env.noFiles {}) (u : State),
    p.final.state.prepare = .ok u ∧ ¬ ∀ pre x post, p.statements = pre ++ x :: post →
      x.InReach ⟨u.baseOf, (firstPass p.statements).places⟩ (firstPass pre) := by
  obtain ⟨p, along, refused⟩ : ∃ p : Program Env.noFiles {},
      Along Statement.exec Growing (State.new {}) p.statements ∧
        p.final.state.finish.isOk = false :=
    ⟨Program.ofSource {} (lit "jmp a\n.section .data\n.org 0x200000\na: dw 0")
      (by decide +kernel), by decide +kernel⟩
  obtain ⟨u, prepared, accepts⟩ := links_iff p (p.grows_iff.mpr along)
  refine ⟨p, u, prepared, fun reach => ?_⟩
  cases (accepts.mpr reach).symm.trans refused

end BigAsm
