import Mathlib
import BigAsm.Growth
import BigAsm.Library.Edits

/- Scheduled operations as edits. Addresses do not depend on the bytes, so what an operation
   writes, and whether it succeeds, is settled before the first of them runs. -/
namespace BigAsm
open ByteStore Runs Instruction

def SymbolLocation.place (loc : SymbolLocation) : Str × Nat := (loc.sect, loc.offset)

theorem State.address_of_base {s t : State} {loc loc' : SymbolLocation}
    (base : ∀ n, (t.sectionAt n).baseAddress = (s.sectionAt n).baseAddress)
    (place : loc'.place = loc.place) : t.address loc' = s.address loc := by
  have sect : loc'.sect = loc.sect := congrArg Prod.fst place
  have offset : loc'.offset = loc.offset := congrArg Prod.snd place
  rw [State.address, State.address, Section.addressAt, Section.addressAt, sect, offset, base]

/-- t has the sections, sizes, base addresses and symbol positions of s. -/
structure SameFrame (s t : State) : Prop where
  current : t.current = s.current
  known : ∀ n, n ∈ t.sections ↔ n ∈ s.sections
  base : ∀ n, (t.sectionAt n).baseAddress = (s.sectionAt n).baseAddress
  size : ∀ n, (t.bytes n).length = (s.bytes n).length
  place : ∀ name : Str, (t.lookup[name]?).map SymbolLocation.place =
    (s.lookup[name]?).map SymbolLocation.place

namespace SameFrame
variable {s m t : State}

theorem refl (s : State) : SameFrame s s :=
  ⟨rfl, fun _ => Iff.rfl, fun _ => rfl, fun _ => rfl, fun _ => rfl⟩

theorem symm (same : SameFrame s t) : SameFrame t s where
  current := same.current.symm
  known n := (same.known n).symm
  base n := (same.base n).symm
  size n := (same.size n).symm
  place name := (same.place name).symm

theorem trans (first : SameFrame s m) (second : SameFrame m t) : SameFrame s t where
  current := second.current.trans first.current
  known n := (second.known n).trans (first.known n)
  base n := (second.base n).trans (first.base n)
  size n := (second.size n).trans (first.size n)
  place name := (second.place name).trans (first.place name)

theorem address (same : SameFrame s t) {loc loc' : SymbolLocation}
    (place : loc'.place = loc.place) : t.address loc' = s.address loc :=
  State.address_of_base same.base place

end SameFrame

namespace State

theorem locationIndex_eq (s : State) {loc : SymbolLocation} {off : Nat}
    (small : loc.offset + off < 2 ^ 64) : s.locationIndex loc off = loc.offset + off := by
  have index : s.address loc + BitVec.ofNat 128 off - (s.sectionAt loc.sect).baseAddress =
      BitVec.ofNat 128 (loc.offset + off) := by
    rw [address, Section.addressAt, BitVec.ofNat_add]
    ring
  rw [locationIndex, index, BitVec.toNat_setWidth, BitVec.toNat_ofNat]
  omega

theorem getElem?_setSymbol {s : State} {name : Str} {old : SymbolLocation}
    (found : s.lookup[name]? = some old) (new : SymbolLocation) (other : Str) :
    (s.setSymbol name new).lookup[other]? = if name = other then some new else s.lookup[other]? := by
  simp only [setSymbol, Std.ExtTreeMap.getElem?_modify, Std.LawfulEqCmp.compare_eq_iff_eq]
  rw [found, Option.map_some]

theorem setSymbol_frame {s : State} {name : Str} {old new : SymbolLocation}
    (found : s.lookup[name]? = some old) (place : new.place = old.place) :
    SameFrame s (s.setSymbol name new) := by
  refine ⟨rfl, fun _ => Iff.rfl, fun _ => rfl, fun _ => rfl, fun other => ?_⟩
  rw [getElem?_setSymbol found]
  split
  · rename_i same
    rw [← same, found]
    exact congrArg some place
  · rfl

end State

structure Rewritten (s t : State) (slot : Slot Str) (f : List Byte → List Byte) : Prop where
  frame : SameFrame s t
  bytes : ∀ n, t.bytes n =
    if n = slot.region then rewriteAt slot.start slot.length f (s.bytes n) else s.bytes n
  lookup : t.lookup = s.lookup

def wordRewrite (f : Instruction → Instruction) (w : List Byte) : List Byte :=
  wordBytes (f (bytesWord w))

def pairRewrite (f : Instruction → Instruction → Instruction × Instruction) (w : List Byte) :
    List Byte := wordBytes (f (wordAt 0 w) (wordAt 4 w)).1 ++ wordBytes (f (wordAt 0 w) (wordAt 4 w)).2

theorem wordRewrite_keeps (f : Instruction → Instruction) : KeepsLength 4 (wordRewrite f) :=
  fun _ _ => wordBytes_length _

theorem pairRewrite_keeps (f : Instruction → Instruction → Instruction × Instruction) :
    KeepsLength 8 (pairRewrite f) := by
  intro w _
  simp [pairRewrite]

namespace State
variable {s : State} {loc : SymbolLocation} {off : Nat}

theorem instructionAt_ok (fits : loc.offset + off < (s.bytes loc.sect).length) :
    s.instructionAt loc off = .ok (loc.offset + off) := by
  have room := s.bytes_fits loc.sect
  unfold maxSize at room
  have index : s.locationIndex loc off = loc.offset + off := s.locationIndex_eq (by omega)
  have size : (s.sectionAt loc.sect).output.size = (s.bytes loc.sect).length := rfl
  rw [instructionAt, index, size, if_neg (by omega)]

theorem readWord_ok {i : Nat} (fits : i + 4 ≤ (s.bytes loc.sect).length) :
    s.readWord loc i = .ok (wordAt i (s.bytes loc.sect)) := by
  have size : (s.sectionAt loc.sect).output.size = (s.bytes loc.sect).length := rfl
  rw [readWord, size, if_neg (by omega)]
  rfl

theorem setInstructionAt_rewritten (known : loc.sect ∈ s.sections)
    (fits : loc.offset + off + 4 ≤ (s.bytes loc.sect).length) (w : Instruction) :
    Rewritten s (s.setInstructionAt loc off w) ⟨loc.sect, loc.offset + off, 4⟩
      (fun _ => wordBytes w) := by
  have room := s.bytes_fits loc.sect
  unfold maxSize at room
  have index : s.locationIndex loc off = loc.offset + off := s.locationIndex_eq (by omega)
  have written : ((s.sectionAt loc.sect).output.overwrite (loc.offset + off) (wordBytes w)).bytes =
      splice (loc.offset + off) (wordBytes w) (s.bytes loc.sect) :=
    Buffer.overwrite_bytes (by rw [wordBytes_length]; exact fits)
  have length : (splice (loc.offset + off) (wordBytes w) (s.bytes loc.sect)).length =
      (s.bytes loc.sect).length := splice_length (by rw [wordBytes_length]; exact fits)
  have bytes : ∀ n, (s.setInstructionAt loc off w).bytes n = if n = loc.sect then
      splice (loc.offset + off) (wordBytes w) (s.bytes n) else s.bytes n := by
    intro n
    rw [State.bytes, setInstructionAt, index, sectionAt_putSection s known]
    split
    · rename_i here
      rw [here]
      exact written
    · rfl
  refine ⟨⟨rfl, fun n => mem_putSection s loc.sect n _, fun n => ?_, fun n => ?_, fun _ => rfl⟩,
    bytes, rfl⟩
  · rw [setInstructionAt, sectionAt_putSection s known]
    split
    · rename_i here
      rw [here]
    · rfl
  · rw [bytes]
    split
    · rename_i here
      rw [here, length]
    · rfl

theorem patchOne_rewritten (known : loc.sect ∈ s.sections)
    (fits : loc.offset + off + 4 ≤ (s.bytes loc.sect).length) (f : Instruction → Instruction) :
    ∃ t, s.patchOne loc off f = .ok t ∧
      Rewritten s t ⟨loc.sect, loc.offset + off, 4⟩ (wordRewrite f) := by
  refine ⟨_, bind_ok_iff.mpr ⟨_, instructionAt_ok (by omega), bind_ok_iff.mpr
    ⟨_, readWord_ok fits, rfl⟩⟩, ?_⟩
  have h := setInstructionAt_rewritten known fits
    (f (wordAt (loc.offset + off) (s.bytes loc.sect)))
  refine ⟨h.frame, fun n => ?_, h.lookup⟩
  rw [h.bytes]
  split
  · rename_i here
    rw [here]
    rfl
  · rfl

theorem patchPair_rewritten (known : loc.sect ∈ s.sections)
    (fits : loc.offset + off + 8 ≤ (s.bytes loc.sect).length)
    (f : Instruction → Instruction → Instruction × Instruction) :
    ∃ t, s.patchPair loc off f = .ok t ∧
      Rewritten s t ⟨loc.sect, loc.offset + off, 8⟩ (pairRewrite f) := by
  refine ⟨_, bind_ok_iff.mpr ⟨_, instructionAt_ok (by omega), bind_ok_iff.mpr
    ⟨_, instructionAt_ok (by omega), bind_ok_iff.mpr ⟨_, readWord_ok (by omega), bind_ok_iff.mpr
      ⟨_, readWord_ok (by omega), rfl⟩⟩⟩⟩, ?_⟩
  generalize words : f (wordAt (loc.offset + off) (s.bytes loc.sect))
    (wordAt (loc.offset + (off + 4)) (s.bytes loc.sect)) = pair
  have second : Rewritten s (s.setInstructionAt loc (off + 4) pair.2)
      ⟨loc.sect, loc.offset + (off + 4), 4⟩ (fun _ => wordBytes pair.2) :=
    setInstructionAt_rewritten known (by omega) pair.2
  have first : Rewritten (s.setInstructionAt loc (off + 4) pair.2)
      ((s.setInstructionAt loc (off + 4) pair.2).setInstructionAt loc off pair.1)
      ⟨loc.sect, loc.offset + off, 4⟩ (fun _ => wordBytes pair.1) :=
    setInstructionAt_rewritten ((second.frame.known _).mpr known)
      (by rw [second.frame.size]; omega) pair.1
  refine ⟨second.frame.trans first.frame, fun n => ?_, first.lookup.trans second.lookup⟩
  rw [first.bytes, second.bytes]
  split
  · rename_i here
    subst here
    have both := @splice_splice_next (loc.offset + off) (wordBytes pair.1) (wordBytes pair.2)
      (s.bytes loc.sect) (by rw [wordBytes_length, wordBytes_length]; omega)
    rw [wordBytes_length] at both
    unfold rewriteAt pairRewrite
    dsimp only
    rw [wordAt_window (by omega), wordAt_window (by omega)]
    simp only [Nat.add_zero, Nat.add_assoc] at both ⊢
    rw [words, ← both]
  · rfl

end State

namespace Rewritten
variable {s m t : State} {f g : List Byte → List Byte}

theorem inside {n : Str} {start k len len' : Nat}
    (h : Rewritten s t ⟨n, start + k, len'⟩ f) (keeps : KeepsLength len' f)
    (bound : start + len ≤ (s.bytes n).length) (within : k + len' ≤ len) :
    Rewritten s t ⟨n, start, len⟩ (rewriteAt k len' f) := by
  refine ⟨h.frame, fun other => ?_, h.lookup⟩
  rw [h.bytes]
  split
  · rename_i here
    dsimp only at here
    subst here
    exact rewriteAt_inside keeps bound within
  · rfl

theorem contents {slot : Slot Str} (h : Rewritten s t slot f) (keeps : KeepsLength slot.length f)
    (fits : slot.Fits s.bytes) : slot.contents t.bytes = f (slot.contents s.bytes) := by
  rw [Slot.contents, h.bytes, if_pos rfl]
  exact window_rewriteAt_self keeps fits

theorem comp {slot : Slot Str} (first : Rewritten s m slot f) (second : Rewritten m t slot g)
    (keeps : KeepsLength slot.length f) (keeps' : KeepsLength slot.length g)
    (fits : slot.Fits s.bytes) : Rewritten s t slot (g ∘ f) := by
  refine ⟨first.frame.trans second.frame, fun n => ?_, second.lookup.trans first.lookup⟩
  rw [second.bytes, first.bytes]
  split
  · rename_i here
    subst here
    exact rewriteAt_rewriteAt keeps keeps' fits
  · rfl

end Rewritten

/-- The four pieces laq patches, the highest first, at bytes 0, 8, 24 and 40. -/
def laqRewrite (target : BitVec 128) : List Byte → List Byte :=
  rewriteAt 40 8 (pairRewrite (setUint32 ((target >>> 0).setWidth 32))) ∘
    rewriteAt 24 8 (pairRewrite (setUint32 ((target >>> 32).setWidth 32))) ∘
    rewriteAt 8 8 (pairRewrite (setUint32 ((target >>> 64).setWidth 32))) ∘
    rewriteAt 0 8 (pairRewrite (setUint32 ((target >>> 96).setWidth 32)))

theorem laqPiece_keeps (k : Nat) (value : BitVec 32) (inside : k + 8 ≤ 56) :
    KeepsLength 56 (rewriteAt k 8 (pairRewrite (setUint32 value))) :=
  rewriteAt_keeps (pairRewrite_keeps _) inside

theorem keeps_comp {len : Nat} {f g : List Byte → List Byte} (first : KeepsLength len f)
    (second : KeepsLength len g) : KeepsLength len (g ∘ f) :=
  fun w hw => second _ (first w hw)

theorem laqRewrite_keeps (target : BitVec 128) : KeepsLength 56 (laqRewrite target) :=
  keeps_comp (keeps_comp (keeps_comp (laqPiece_keeps 0 _ (by decide))
    (laqPiece_keeps 8 _ (by decide))) (laqPiece_keeps 24 _ (by decide)))
    (laqPiece_keeps 40 _ (by decide))

def SymbolLocation.slot (loc : SymbolLocation) (length : Nat) : Slot Str :=
  ⟨loc.sect, loc.offset, length⟩

def ScheduledOp.slot : ScheduledOp → Slot Str
  | .fixup f loc => loc.slot (4 * f.words)
  | .endfunc loc => ⟨loc.sect, 0, 0⟩
  | .type _ => ⟨[], 0, 0⟩
  | .size loc _ => loc.slot 4

def Fixup.edit (s : State) (loc sym : SymbolLocation) : Fixup → Except Failure (Edit Str)
  | .la => .ok ⟨loc.slot 8, pairRewrite (patchLa ((s.address sym - s.address loc).setWidth 64)
      (s.address sym)), pairRewrite_keeps _⟩
  | .laq => .ok ⟨loc.slot 56, laqRewrite (s.address sym), laqRewrite_keeps _⟩
  | .branch => .ok ⟨loc.slot 4, wordRewrite
      (patchBranch ((s.address sym - s.address loc).setWidth 32)), wordRewrite_keeps _⟩
  | .farcall => .ok ⟨loc.slot 8, pairRewrite (patchFarcall (s.address sym)), pairRewrite_keeps _⟩
  | .jump =>
    (fun _ => ⟨loc.slot 4, wordRewrite (setJump ((s.address sym - s.address loc).setWidth 64)),
      wordRewrite_keeps _⟩) <$> boundsCheckJump ((s.address sym - s.address loc).setWidth 64)

def ScheduledOp.edit (s : State) (sym : SymbolLocation) : ScheduledOp → Except Failure (Edit Str)
  | .fixup f loc => f.edit s loc sym
  | .endfunc loc => .ok ⟨⟨loc.sect, 0, 0⟩, id, fun _ => id⟩
  | .type _ => .ok ⟨⟨[], 0, 0⟩, id, fun _ => id⟩
  | .size loc dataloc => .ok ⟨loc.slot 4, wordRewrite fun _ =>
      sizeWord (s.address sym) (s.address dataloc) (s.address loc), wordRewrite_keeps _⟩

def State.edit (s : State) (entry : Str × ScheduledOp) : Except Failure (Edit Str) :=
  match s.lookup[entry.1]? with
  | some sym => entry.2.edit s sym
  | none => .error (.runtime (lit "Unknown symbol scheduled: " ++ entry.1))

theorem Fixup.edit_slot {s : State} {loc sym : SymbolLocation} {f : Fixup} {e : Edit Str}
    (done : f.edit s loc sym = .ok e) : e.slot = loc.slot (4 * f.words) := by
  cases f with
  | jump =>
    obtain ⟨_, -, rfl⟩ := map_ok_iff.mp done
    rfl
  | la | laq | branch | farcall =>
    cases done
    rfl

theorem State.edit_slot {s : State} {entry : Str × ScheduledOp} {e : Edit Str}
    (done : s.edit entry = .ok e) : e.slot = entry.2.slot := by
  unfold State.edit at done
  split at done
  · rcases entry with ⟨name, op⟩
    cases op with
    | fixup f loc => exact Fixup.edit_slot done
    | endfunc loc | type t | size loc dataloc =>
      cases done
      rfl
  · cases done

theorem SameFrame.edit {s t : State} (same : SameFrame s t) (entry : Str × ScheduledOp) :
    t.edit entry = s.edit entry := by
  have here : ∀ loc, t.address loc = s.address loc := fun loc => same.address rfl
  have place := same.place entry.1
  unfold State.edit
  cases found : s.lookup[entry.1]? with
  | none =>
    rw [found, Option.map_none, Option.map_eq_none_iff] at place
    rw [place]
  | some sym =>
    rw [found, Option.map_some, Option.map_eq_some_iff] at place
    obtain ⟨sym', found', moved⟩ := place
    have target : s.address sym' = s.address sym := (SameFrame.refl s).address moved
    rw [found']
    dsimp only
    rcases entry with ⟨name, op⟩
    cases op with
    | fixup f loc => cases f <;> simp only [ScheduledOp.edit, Fixup.edit, here, target]
    | endfunc loc => rfl
    | type t => rfl
    | size loc dataloc => simp only [ScheduledOp.edit, here, target]

/- Running an operation does its edit. -/

theorem laqPiece_run {s m : State} {loc : SymbolLocation} (known : loc.sect ∈ s.sections)
    (fits : (loc.slot 56).Fits s.bytes) (same : SameFrame s m) (k : Nat) (inside : k + 8 ≤ 56)
    (value : BitVec 32) : ∃ t, m.patchPair loc k (setUint32 value) = .ok t ∧
      Rewritten m t (loc.slot 56) (rewriteAt k 8 (pairRewrite (setUint32 value))) := by
  have room : loc.offset + 56 ≤ (m.bytes loc.sect).length := by
    rw [same.size]
    exact fits
  obtain ⟨t, run, done⟩ := @State.patchPair_rewritten m loc k ((same.known _).mpr known)
    (by omega) (setUint32 value)
  exact ⟨t, run, done.inside (pairRewrite_keeps _) room inside⟩

theorem Fixup.run_laq {s : State} {loc sym : SymbolLocation} (known : loc.sect ∈ s.sections)
    (fits : (loc.slot 56).Fits s.bytes) :
    ∃ t, Fixup.laq.run loc sym s = .ok t ∧
      Rewritten s t (loc.slot 56) (laqRewrite (s.address sym)) := by
  have piece := fun m same => @laqPiece_run s m loc known fits same
  have target : ∀ m, SameFrame s m → m.address sym = s.address sym :=
    fun m same => same.address rfl
  obtain ⟨s1, run1, done1⟩ := piece s (SameFrame.refl s) 0 (by decide)
    ((s.address sym >>> 96).setWidth 32)
  have same1 := done1.frame
  obtain ⟨s2, run2, done2⟩ := piece s1 same1 8 (by decide) ((s.address sym >>> 64).setWidth 32)
  have same2 := same1.trans done2.frame
  obtain ⟨s3, run3, done3⟩ := piece s2 same2 24 (by decide) ((s.address sym >>> 32).setWidth 32)
  have same3 := same2.trans done3.frame
  obtain ⟨s4, run4, done4⟩ := piece s3 same3 40 (by decide) ((s.address sym >>> 0).setWidth 32)
  refine ⟨s4, ?_, ?_⟩
  · refine bind_ok_iff.mpr ⟨s1, run1, bind_ok_iff.mpr ⟨s2, ?_, bind_ok_iff.mpr ⟨s3, ?_, ?_⟩⟩⟩
    · rw [target s1 same1]
      exact run2
    · rw [target s2 same2]
      exact run3
    · rw [target s3 same3]
      exact run4
  · have keep := fun k value inside => laqPiece_keeps k value inside
    have two := done1.comp done2 (keep 0 _ (by decide)) (keep 8 _ (by decide)) fits
    have three := two.comp done3 (keeps_comp (keep 0 _ (by decide)) (keep 8 _ (by decide)))
      (keep 24 _ (by decide)) fits
    exact three.comp done4 (keeps_comp (keeps_comp (keep 0 _ (by decide)) (keep 8 _ (by decide)))
      (keep 24 _ (by decide))) (keep 40 _ (by decide)) fits

theorem Rewritten.apply {s t : State} {e : Edit Str} (h : Rewritten s t e.slot e.rewrite) :
    SameFrame s t ∧ t.bytes = e.apply s.bytes :=
  ⟨h.frame, funext h.bytes⟩

theorem Fixup.run_edit {s : State} {loc sym : SymbolLocation} {f : Fixup} {e : Edit Str}
    (known : loc.sect ∈ s.sections) (fits : (loc.slot (4 * f.words)).Fits s.bytes)
    (done : f.edit s loc sym = .ok e) :
    ∃ t, f.run loc sym s = .ok t ∧ Rewritten s t e.slot e.rewrite := by
  have bound : loc.offset + 4 * f.words ≤ (s.bytes loc.sect).length := fits
  cases f with
  | la =>
    cases done
    exact @State.patchPair_rewritten s loc 0 known bound
      (patchLa ((s.address sym - s.address loc).setWidth 64) (s.address sym))
  | laq =>
    cases done
    exact Fixup.run_laq known fits
  | branch =>
    cases done
    exact @State.patchOne_rewritten s loc 0 known bound
      (patchBranch ((s.address sym - s.address loc).setWidth 32))
  | farcall =>
    cases done
    exact @State.patchPair_rewritten s loc 0 known bound (patchFarcall (s.address sym))
  | jump =>
    obtain ⟨_, near, rfl⟩ := map_ok_iff.mp done
    obtain ⟨t, run, rewritten⟩ := @State.patchOne_rewritten s loc 0 known bound
      (setJump ((s.address sym - s.address loc).setWidth 64))
    obtain ⟨i, here, eq⟩ := bind_ok_iff.mp run
    exact ⟨t, bind_ok_iff.mpr ⟨i, here, bind_ok_iff.mpr ⟨(), near, eq⟩⟩, rewritten⟩

theorem Fixup.run_error {s : State} {loc sym : SymbolLocation} {f : Fixup} {err : Failure}
    (fits : (loc.slot (4 * f.words)).Fits s.bytes) (failed : f.edit s loc sym = .error err) :
    f.run loc sym s = .error err := by
  cases f with
  | la | laq | branch | farcall => cases failed
  | jump =>
    have first : loc.offset + 0 < (s.bytes loc.sect).length := by
      change loc.offset + 4 ≤ (s.bytes loc.sect).length at fits
      omega
    unfold Fixup.edit at failed
    unfold Fixup.run
    rw [State.instructionAt_ok first]
    cases bounds : boundsCheckJump ((s.address sym - s.address loc).setWidth 64) with
    | ok _ =>
      rw [bounds] at failed
      cases failed
    | error e =>
      rw [bounds] at failed
      cases failed
      change (boundsCheckJump ((s.address sym - s.address loc).setWidth 64) >>= _) = _
      rw [bounds]
      rfl

/-- A slot with bytes in it lies inside a section that exists. -/
structure Owned (s : State) (slot : Slot Str) : Prop where
  known : 0 < slot.length → slot.region ∈ s.sections
  fits : slot.Fits s.bytes

theorem Fixup.words_pos (f : Fixup) : 0 < 4 * f.words := by
  cases f <;> decide

theorem apply_nothing {e : Edit Str} (empty : e.slot.length = 0) (start : e.slot.start = 0)
    (keep : e.rewrite = id) (m : Str → List Byte) : e.apply m = m := by
  funext n
  unfold Edit.apply
  split
  · simp [rewriteAt, empty, start, keep, window, splice]
  · rfl

theorem State.runScheduled_edit {s : State} {entry : Str × ScheduledOp}
    (owned : Owned s entry.2.slot) :
    match s.edit entry with
    | .ok e => ∃ t, s.runScheduled entry = .ok t ∧ SameFrame s t ∧ t.bytes = e.apply s.bytes
    | .error err => s.runScheduled entry = .error err := by
  rcases entry with ⟨name, op⟩
  unfold State.edit State.runScheduled
  cases found : s.lookup[(name, op).1]? with
  | none => rfl
  | some sym =>
    dsimp only
    cases op with
    | fixup f loc =>
      have known := owned.known f.words_pos
      cases done : f.edit s loc sym with
      | error err =>
        simp only [ScheduledOp.edit, done]
        exact Fixup.run_error owned.fits done
      | ok e =>
        simp only [ScheduledOp.edit, done]
        obtain ⟨t, run, rewritten⟩ := Fixup.run_edit known owned.fits done
        exact ⟨t, run, rewritten.apply⟩
    | endfunc loc =>
      refine ⟨_, rfl, State.setSymbol_frame found rfl, ?_⟩
      exact (apply_nothing rfl rfl rfl s.bytes).symm
    | type t =>
      refine ⟨_, rfl, State.setSymbol_frame found rfl, ?_⟩
      exact (apply_nothing rfl rfl rfl s.bytes).symm
    | size loc dataloc =>
      have known : loc.sect ∈ s.sections := owned.known (Nat.zero_lt_succ 3)
      have bound : loc.offset + 4 ≤ (s.bytes loc.sect).length := owned.fits
      obtain ⟨t, run, rewritten⟩ := @State.patchOne_rewritten s loc 0 known bound
        fun _ => sizeWord (s.address sym) (s.address dataloc) (s.address loc)
      have kept : t.lookup[name]? = some sym := by rwa [rewritten.lookup]
      refine ⟨_, bind_ok_iff.mpr ⟨t, run, rfl⟩, ?_, ?_⟩
      · exact rewritten.frame.trans (State.setSymbol_frame kept rfl)
      · exact funext rewritten.bytes

theorem Owned.of_frame {s t : State} {slot : Slot Str} (owned : Owned s slot) (same : SameFrame s t) :
    Owned t slot where
  known positive := (same.known _).mpr (owned.known positive)
  fits := by
    rw [Slot.Fits, same.size]
    exact owned.fits

/-- The operations of a list do these edits when they run in s. -/
def Edits (s : State) (order : List (Str × ScheduledOp)) (es : List (Edit Str)) : Prop :=
  List.Forall₂ (fun entry e => s.edit entry = .ok e) order es

theorem Edits.of_frame {s t : State} {order : List (Str × ScheduledOp)} {es : List (Edit Str)}
    (edits : Edits t order es) (same : SameFrame s t) : Edits s order es :=
  edits.imp fun entry _ done => (same.edit entry).symm.trans done

theorem Edits.slots {s : State} {order : List (Str × ScheduledOp)} {es : List (Edit Str)}
    (edits : Edits s order es) : es.map Edit.slot = order.map fun entry => entry.2.slot := by
  induction edits with
  | nil => rfl
  | cons done _ ih => rw [List.map_cons, List.map_cons, ih, State.edit_slot done]

theorem State.runScheduled_all {s : State} {order : List (Str × ScheduledOp)}
    (owned : ∀ entry ∈ order, Owned s entry.2.slot) :
    (∃ es t, Edits s order es ∧ order.foldlM runScheduled s = .ok t ∧ SameFrame s t ∧
        t.bytes = Edit.applyAll es s.bytes) ∨
      ∃ entry err, entry ∈ order ∧ s.edit entry = .error err ∧
        order.foldlM runScheduled s = .error err := by
  induction order generalizing s with
  | nil => exact Or.inl ⟨[], s, .nil, rfl, SameFrame.refl s, rfl⟩
  | cons entry order ih =>
    have first := State.runScheduled_edit (owned entry (by simp))
    cases done : s.edit entry with
    | error err =>
      rw [done] at first
      have failed : s.runScheduled entry = .error err := first
      refine Or.inr ⟨entry, err, by simp, done, ?_⟩
      rw [List.foldlM_cons, failed]
      rfl
    | ok e =>
      rw [done] at first
      obtain ⟨m, run, same, bytes⟩ := first
      have later : ∀ other ∈ order, Owned m other.2.slot :=
        fun other mem => (owned other (by simp [mem])).of_frame same
      rcases ih later with ⟨es, t, edits, rest, frame, all⟩ | ⟨other, err, mem, failed, rest⟩
      · refine Or.inl ⟨e :: es, t, .cons done (edits.of_frame same), run_cons_iff.mpr ⟨m, run, rest⟩,
          same.trans frame, ?_⟩
        rw [all, bytes]
        rfl
      · refine Or.inr ⟨other, err, by simp [mem], (same.edit other).symm.trans failed, ?_⟩
        rw [List.foldlM_cons, run]
        exact rest

theorem State.edit_error {s : State} {entry : Str × ScheduledOp} {err : Failure}
    (failed : s.edit entry = .error err) : err ≠ .outOfRange ∧ err ≠ .undefined := by
  unfold State.edit at failed
  split at failed
  · rcases entry with ⟨name, op⟩
    cases op with
    | fixup f loc =>
      cases f with
      | la | laq | branch | farcall => cases failed
      | jump =>
        rename_i sym _
        change (fun _ => _) <$> boundsCheckJump _ = Except.error err at failed
        unfold boundsCheckJump at failed
        split at failed
        · cases failed
          exact ⟨nofun, nofun⟩
        · cases failed
    | endfunc loc | type t | size loc dataloc => cases failed
  · cases failed
    exact ⟨nofun, nofun⟩

end BigAsm
