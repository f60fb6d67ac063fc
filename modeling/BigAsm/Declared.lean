import Mathlib
import BigAsm.Labels
import BigAsm.Schedule

/- The names of labels, from their declaration to the scheduled work. A name that was declared
   waits in a queue or is in the symbol map; the first scheduled operation that cannot be done
   decides how finish() fails. -/
namespace BigAsm
open ByteStore Runs

namespace State
variable {s t : State}

def Has (s : State) (name : Str) : Prop :=
  name ∈ s.lookup ∨ ∃ n ∈ s.sections, name ∈ s.queue n

theorem new_has (options : Options) (name : Str) : ¬ (State.new options).Has name := by
  rintro (known | ⟨n, -, waits⟩)
  · exact Std.ExtTreeMap.not_mem_empty known
  · rw [(new_empty options n).2] at waits
    cases waits

theorem mem_lookup_iff {name : Str} : name ∈ s.lookup ↔ ∃ loc, s.lookup[name]? = some loc := by
  rw [Std.ExtTreeMap.mem_iff_isSome_getElem?, Option.isSome_iff_exists]

end State

namespace Statement
variable {x : Statement} {s t : State} {name : Str}

theorem Effect.has_of_queue (effect : Effect x s t) {n : Str} (waits : name ∈ s.queue n) :
    t.Has name := by
  have inside := effect.known n (State.known_of_queue waits)
  have queue := effect.queue n
  split at queue
  · rename_i here
    rw [waiting_eq] at queue
    split at queue
    · rename_i flushes
      rw [here] at waits
      refine Or.inl (State.mem_lookup_iff.mpr ?_)
      rw [effect.lookup, symbols, if_pos flushes, State.getElem?_attach, if_pos waits]
      cases s.lookup[name]? with
      | some loc => exact ⟨loc, rfl⟩
      | none => exact ⟨_, rfl⟩
    · refine Or.inr ⟨n, inside, ?_⟩
      rw [queue]
      exact List.mem_append_left _ waits
  · refine Or.inr ⟨n, inside, ?_⟩
    rwa [queue]

theorem exec_has_iff (run : x.exec s = .ok t) :
    t.Has name ↔ s.Has name ∨ name ∈ x.declares := by
  have effect := exec_effect run
  constructor
  · rintro (known | ⟨n, -, waits⟩)
    · obtain ⟨loc, found⟩ := State.mem_lookup_iff.mp known
      rcases effect.lookup_cases found with old | ⟨-, -, waits, -⟩
      · exact Or.inl (Or.inl (State.mem_lookup_iff.mpr ⟨loc, old⟩))
      · exact Or.inl (Or.inr ⟨s.current, s.currentMem, waits⟩)
    · by_cases declares : name ∈ x.declares
      · exact Or.inr declares
      · have old := effect.mem_queue declares waits
        exact Or.inl (Or.inr ⟨n, State.known_of_queue old, old⟩)
  · rintro ((known | ⟨n, -, waits⟩) | new)
    · obtain ⟨loc, found⟩ := State.mem_lookup_iff.mp known
      exact Or.inl (State.mem_lookup_iff.mpr ⟨loc, effect.lookup_kept found⟩)
    · exact effect.has_of_queue waits
    · have quiet : ¬ x.flushes = true := by
        cases x with
        | label _ => exact nofun
        | _ => cases new
      refine Or.inr ⟨s.current, effect.known _ s.currentMem, ?_⟩
      rw [effect.queue, if_pos rfl, waiting_eq, if_neg quiet]
      exact List.mem_append_right _ new

end Statement

theorem run_has_iff {xs : List Statement} {s t : State} {name : Str} (run : execAll s xs = .ok t) :
    t.Has name ↔ s.Has name ∨ name ∈ xs.flatMap Statement.declares := by
  induction xs generalizing s with
  | nil =>
    rw [run_nil_iff.mp run]
    simp
  | cons x xs ih =>
    obtain ⟨m, first, rest⟩ := run_cons_iff.mp run
    rw [ih rest, Statement.exec_has_iff first, List.flatMap_cons, List.mem_append, or_assoc]

theorem declared_iff {options : Options} {xs : List Statement} {s : State} {name : Str}
    (run : execAll (State.new options) xs = .ok s) :
    name ∈ xs.flatMap Statement.declares ↔ s.Has name := by
  rw [run_has_iff run, or_iff_right (State.new_has options name)]

namespace State
variable {s t u : State}

/-- One thing the assembler does: a statement, the label flush, the layout, or one scheduled
    operation. -/
inductive Step (s t : State) : Prop where
  | exec (x : Statement) (run : x.exec s = .ok t)
  | flush (run : s.flushLabels = .ok t)
  | layout (run : s.resolveBaseAddresses = .ok t)
  | scheduled (entry : Str × ScheduledOp) (run : s.runScheduled entry = .ok t)

def Keeps (s t : State) : Prop := ∀ (name : Str) (loc : SymbolLocation),
  s.lookup[name]? = some loc → ∃ loc', t.lookup[name]? = some loc' ∧ loc'.place = loc.place

theorem Keeps.refl (s : State) : s.Keeps s := fun _ loc found => ⟨loc, found, rfl⟩

theorem Keeps.trans (first : s.Keeps t) (second : t.Keeps u) : s.Keeps u := by
  intro name loc found
  obtain ⟨loc', found', same⟩ := first name loc found
  obtain ⟨loc'', found'', same'⟩ := second name loc' found'
  exact ⟨loc'', found'', same'.trans same⟩

theorem Keeps.of_place (same : ∀ name : Str, (t.lookup[name]?).map SymbolLocation.place =
    (s.lookup[name]?).map SymbolLocation.place) : s.Keeps t := by
  intro name loc found
  have place := same name
  rw [found, Option.map_some] at place
  exact Option.map_eq_some_iff.mp place

theorem resolveBaseAddresses_lookup (run : s.resolveBaseAddresses = .ok t) :
    t.lookup = s.lookup := by
  obtain ⟨⟨l, m⟩, steps, done⟩ := bind_ok_iff.mp run
  cases done
  refine run_relation (fun a b : Layout × State => b.2.lookup = a.2.lookup) (fun _ => rfl)
    (fun _ _ _ first second => second.trans first) ?_ steps
  rintro ⟨l, a⟩ idx ⟨l', b⟩ step
  unfold layoutStep at step
  dsimp only at step
  split at step
  · cases step
  · split at step <;> cases step <;> rfl

theorem flushLabels_has (run : s.flushLabels = .ok t) :
    (∀ n, t.queue n = []) ∧ ∀ name, name ∈ t.lookup ↔ s.Has name := by
  obtain ⟨t', run', flushed⟩ := s.flushLabels_ok
  cases run'.symm.trans run
  constructor
  · intro n
    rw [queue, flushed.sectionAt]
    split
    · rfl
    · rename_i missing
      rw [Std.ExtTreeMap.mem_keys] at missing
      rw [sectionAt, Std.ExtTreeMap.getElem?_eq_none missing]
      rfl
  · intro name
    have keys : (∃ n ∈ s.sections.keys, name ∈ s.queue n) ↔ ∃ n ∈ s.sections, name ∈ s.queue n := by
      simp only [Std.ExtTreeMap.mem_keys]
    rw [mem_lookup_iff, Has, mem_lookup_iff, flushed.lookup, ← keys]
    cases s.lookup[name]? <;> simp

theorem Step.keeps (step : s.Step t) : s.Keeps t := by
  cases step with
  | exec x run =>
    exact fun name loc found => ⟨loc, (Statement.exec_effect run).lookup_kept found, rfl⟩
  | flush run =>
    obtain ⟨t', run', flushed⟩ := s.flushLabels_ok
    cases run'.symm.trans run
    intro name loc found
    refine ⟨loc, ?_, rfl⟩
    rw [flushed.lookup, found]
    rfl
  | layout run =>
    refine .of_place fun name => ?_
    rw [resolveBaseAddresses_lookup run]
  | scheduled entry run => exact .of_place (runScheduled_place run)

theorem steps_keep (steps : Relation.ReflTransGen Step s t) : s.Keeps t := by
  induction steps with
  | refl => exact Keeps.refl s
  | tail _ step ih => exact ih.trans step.keeps

theorem exec_steps {xs : List Statement} (run : execAll s xs = .ok t) :
    Relation.ReflTransGen Step s t :=
  run_relation (Relation.ReflTransGen Step) (fun _ => .refl) (fun _ _ _ => .trans)
    (fun _ x _ step => .single (.exec x step)) run

theorem finish_steps (run : s.finish = .ok t) : Relation.ReflTransGen Step s t := by
  obtain ⟨u, prepared, finished⟩ := bind_ok_iff.mp run
  obtain ⟨m, flushed, placed⟩ := bind_ok_iff.mp prepared
  refine (Relation.ReflTransGen.single (.flush flushed)).trans ?_
  refine (Relation.ReflTransGen.single (.layout placed)).trans ?_
  exact finishScheduledWork_relation (R := Relation.ReflTransGen Step) (fun _ => .refl)
    (fun _ _ _ => .trans) (fun _ entry _ step => .single (.scheduled entry step)) finished

end State

/- How one scheduled operation ends. -/

def Failure.BeyondOutput (err : Failure) : Prop := err = .outOfRange ∨ err = .undefined

/-- How many bytes behind its location a fixup patches. laq leaves its last two instructions
    as they are. -/
def Fixup.reach : Fixup → Nat
  | .la => 8
  | .laq => 48
  | .branch => 4
  | .farcall => 8
  | .jump => 4

theorem Fixup.reach_le (f : Fixup) : f.reach ≤ 4 * f.words := by
  cases f <;> decide

def ScheduledOp.patches : ScheduledOp → Slot Str
  | .fixup f loc => loc.slot f.reach
  | .endfunc loc => ⟨loc.sect, 0, 0⟩
  | .type _ => ⟨[], 0, 0⟩
  | .size loc _ => loc.slot 4

theorem ScheduledOp.patches_slot (op : ScheduledOp) : op.patches.region = op.slot.region ∧
    op.patches.start = op.slot.start ∧ op.patches.length ≤ op.slot.length := by
  cases op with
  | fixup f loc => exact ⟨rfl, rfl, f.reach_le⟩
  | endfunc loc | type t | size loc dataloc => exact ⟨rfl, rfl, Nat.le_refl _⟩

structure Decided (s : State) (room : Prop) (step : Except Failure State) : Prop where
  done : room → ∃ t, step = .ok t ∧ SameFrame s t
  failed : ¬ room → ∃ err, step = .error err ∧ err.BeyondOutput

namespace State
variable {s : State} {loc : SymbolLocation} {off : Nat}

theorem instructionAt_beyond (small : loc.offset + off < 2 ^ 64)
    (short : (s.bytes loc.sect).length ≤ loc.offset + off) :
    s.instructionAt loc off = .error .outOfRange := by
  have index : s.locationIndex loc off = loc.offset + off := s.locationIndex_eq small
  have size : (s.sectionAt loc.sect).output.size = (s.bytes loc.sect).length := rfl
  rw [instructionAt, index, size, if_pos short]

theorem readWord_beyond {i : Nat} (short : (s.bytes loc.sect).length < i + 4) :
    s.readWord loc i = .error .undefined := by
  have size : (s.sectionAt loc.sect).output.size = (s.bytes loc.sect).length := rfl
  rw [readWord, size, if_pos short]

theorem setInstructionAt_frame (s : State) (loc : SymbolLocation) (off : Nat) (w : Instruction) :
    SameFrame s (s.setInstructionAt loc off w) := by
  have patched := s.setInstructionAt_patched loc off w
  exact ⟨rfl, fun n => mem_putSection s loc.sect n _, patched.base, patched.sizes, fun _ => rfl⟩

theorem patchOne_decided (small : loc.offset + off < 2 ^ 64) (f : Instruction → Instruction) :
    Decided s (loc.offset + off + 4 ≤ (s.bytes loc.sect).length) (s.patchOne loc off f) := by
  constructor
  · intro room
    have bound := @instructionAt_ok s loc off (by omega)
    refine ⟨_, bind_ok_iff.mpr ⟨_, bound, bind_ok_iff.mpr ⟨_, readWord_ok room, rfl⟩⟩, ?_⟩
    exact s.setInstructionAt_frame loc off _
  · intro short
    by_cases first : loc.offset + off < (s.bytes loc.sect).length
    · have read := @readWord_beyond s loc (loc.offset + off) (by omega)
      refine ⟨.undefined, bind_error_iff.mpr (Or.inr ⟨_, instructionAt_ok first, ?_⟩), Or.inr rfl⟩
      exact bind_error_iff.mpr (Or.inl read)
    · have beyond := instructionAt_beyond small (not_lt.mp first)
      exact ⟨.outOfRange, bind_error_iff.mpr (Or.inl beyond), Or.inl rfl⟩

theorem patchPair_decided (small : loc.offset + (off + 4) < 2 ^ 64)
    (f : Instruction → Instruction → Instruction × Instruction) :
    Decided s (loc.offset + off + 8 ≤ (s.bytes loc.sect).length) (s.patchPair loc off f) := by
  constructor
  · intro room
    have first := @instructionAt_ok s loc off (by omega)
    have second := @instructionAt_ok s loc (off + 4) (by omega)
    have read := @readWord_ok s loc (loc.offset + off) (by omega)
    have read' := @readWord_ok s loc (loc.offset + (off + 4)) (by omega)
    refine ⟨_, bind_ok_iff.mpr ⟨_, first, bind_ok_iff.mpr ⟨_, second,
      bind_ok_iff.mpr ⟨_, read, bind_ok_iff.mpr ⟨_, read', rfl⟩⟩⟩⟩, ?_⟩
    exact (s.setInstructionAt_frame loc (off + 4) _).trans (setInstructionAt_frame _ loc off _)
  · intro short
    by_cases head : loc.offset + off < (s.bytes loc.sect).length
    · have first := @instructionAt_ok s loc off head
      by_cases next : loc.offset + (off + 4) < (s.bytes loc.sect).length
      · -- both references are bound, and the second word runs over the end
        have second := @instructionAt_ok s loc (off + 4) next
        have read := @readWord_ok s loc (loc.offset + off) (by omega)
        have read' := @readWord_beyond s loc (loc.offset + (off + 4)) (by omega)
        refine ⟨.undefined, bind_error_iff.mpr (Or.inr ⟨_, first, ?_⟩), Or.inr rfl⟩
        refine bind_error_iff.mpr (Or.inr ⟨_, second, ?_⟩)
        exact bind_error_iff.mpr (Or.inr ⟨_, read, bind_error_iff.mpr (Or.inl read')⟩)
      · have second := instructionAt_beyond small (not_lt.mp next)
        refine ⟨.outOfRange, bind_error_iff.mpr (Or.inr ⟨_, first, ?_⟩), Or.inl rfl⟩
        exact bind_error_iff.mpr (Or.inl second)
    · have first := @instructionAt_beyond s loc off (by omega) (not_lt.mp head)
      exact ⟨.outOfRange, bind_error_iff.mpr (Or.inl first), Or.inl rfl⟩

end State

namespace Decided
variable {s : State} {room room' : Prop} {step : Except Failure State}

theorem bind {next : State → Except Failure State} (first : Decided s room step)
    (second : room → ∀ t, SameFrame s t → Decided t room' (next t)) (more : room' → room) :
    Decided s room' (step >>= next) := by
  constructor
  · intro enough
    obtain ⟨m, run, same⟩ := first.done (more enough)
    obtain ⟨t, run', same'⟩ := (second (more enough) m same).done enough
    exact ⟨t, bind_ok_iff.mpr ⟨m, run, run'⟩, same.trans same'⟩
  · intro short
    by_cases enough : room
    · obtain ⟨m, run, same⟩ := first.done enough
      obtain ⟨err, failed, beyond⟩ := (second enough m same).failed short
      refine ⟨err, ?_, beyond⟩
      rw [run]
      exact failed
    · obtain ⟨err, failed, beyond⟩ := first.failed enough
      refine ⟨err, ?_, beyond⟩
      rw [failed]
      rfl

theorem of_iff (decided : Decided s room step) (same : room ↔ room') : Decided s room' step :=
  ⟨fun enough => decided.done (same.mpr enough), fun short => decided.failed fun enough => short (same.mp enough)⟩

end Decided

def outOfBounds (diff : BitVec 64) : Failure :=
  tokenException { kind := .symbol, value := lit (toString diff.toInt) }
    (lit "Out of bounds address for jump")

def unknownSymbol (name : Str) : Failure := .runtime (lit "Unknown symbol scheduled: " ++ name)

namespace Fixup
variable {s : State} {loc sym : SymbolLocation}

theorem run_laq_decided (small : loc.offset + 48 < 2 ^ 64) :
    Decided s (loc.offset + 48 ≤ (s.bytes loc.sect).length) (Fixup.laq.run loc sym s) := by
  have pair : ∀ (m : State) k f, SameFrame s m → k + 8 ≤ 48 →
      Decided m (loc.offset + k + 8 ≤ (s.bytes loc.sect).length) (m.patchPair loc k f) := by
    intro m k f same inside
    refine (State.patchPair_decided (by omega) f).of_iff ?_
    rw [same.size]
  refine (pair s 0 _ (SameFrame.refl s) (by decide)).bind (fun _ a first => ?_) (by omega)
  refine (pair a (2 * 4) _ first (by decide)).bind (fun _ b second => ?_) (by omega)
  refine (pair b (6 * 4) _ (first.trans second) (by decide)).bind (fun _ d third => ?_) (by omega)
  exact pair d (10 * 4) _ ((first.trans second).trans third) (by decide)

theorem run_decided {f : Fixup} (other : f ≠ .jump) (small : loc.offset + f.reach < 2 ^ 64) :
    Decided s (loc.offset + f.reach ≤ (s.bytes loc.sect).length) (f.run loc sym s) := by
  have bound : ∀ k ≤ f.reach, loc.offset + k < 2 ^ 64 :=
    fun k inside => lt_of_le_of_lt (Nat.add_le_add_left inside _) small
  cases f with
  | la =>
    exact @State.patchPair_decided s loc 0 (bound (0 + 4) (by decide))
      (patchLa ((s.address sym - s.address loc).setWidth 64) (s.address sym))
  | laq => exact run_laq_decided small
  | branch =>
    exact @State.patchOne_decided s loc 0 (bound 0 (by decide))
      (patchBranch ((s.address sym - s.address loc).setWidth 32))
  | farcall =>
    exact @State.patchPair_decided s loc 0 (bound (0 + 4) (by decide)) (patchFarcall (s.address sym))
  | jump => exact absurd rfl other

end Fixup

theorem boundsCheckJump_cases (diff : BitVec 64) :
    boundsCheckJump diff = .ok () ∨ boundsCheckJump diff = .error (outOfBounds diff) := by
  unfold boundsCheckJump
  split
  · exact Or.inr rfl
  · exact Or.inl rfl

namespace State

def Distant (s : State) (entry : Str × ScheduledOp) (diff : BitVec 64) : Prop :=
  ∃ sym loc, s.lookup[entry.1]? = some sym ∧ entry.2 = .fixup .jump loc ∧
    diff = (s.address sym - s.address loc).setWidth 64 ∧ boundsCheckJump diff ≠ .ok ()

structure Meets (s : State) (entry : Str × ScheduledOp) : Prop where
  known : entry.1 ∈ s.lookup
  room : entry.2.patches.Fits s.bytes
  near : ∀ diff, ¬ s.Distant entry diff

/-- The operation does not come to the end of the output: its bytes are there, or it is a jump out
    of bounds, which throws before it touches more than its first byte. -/
def Room (s : State) (entry : Str × ScheduledOp) : Prop :=
  entry.2.patches.Fits s.bytes ∨
    (∃ diff, s.Distant entry diff) ∧
      entry.2.patches.start < (s.bytes entry.2.patches.region).length

inductive Faults (s : State) (entry : Str × ScheduledOp) : Failure → Prop where
  | unknown (missing : entry.1 ∉ s.lookup) : s.Faults entry (unknownSymbol entry.1)
  | beyond {err : Failure} (known : entry.1 ∈ s.lookup) (cut : ¬ s.Room entry)
      (beyond : err.BeyondOutput) : s.Faults entry err
  | far {diff : BitVec 64} (known : entry.1 ∈ s.lookup) (room : s.Room entry)
      (distant : s.Distant entry diff) : s.Faults entry (outOfBounds diff)

variable {s t : State} {entry : Str × ScheduledOp}

theorem Faults.not_meets {err : Failure} (faults : s.Faults entry err) : ¬ s.Meets entry := by
  intro meets
  cases faults with
  | unknown missing => exact missing meets.known
  | beyond _ cut _ => exact cut (Or.inl meets.room)
  | far _ _ distant => exact meets.near _ distant

end State

namespace SameFrame
variable {s t : State} {entry : Str × ScheduledOp}

theorem mem_lookup (same : SameFrame s t) (name : Str) : name ∈ t.lookup ↔ name ∈ s.lookup := by
  have place := congrArg Option.isSome (same.place name)
  rw [Option.isSome_map, Option.isSome_map] at place
  rw [Std.ExtTreeMap.mem_iff_isSome_getElem?, Std.ExtTreeMap.mem_iff_isSome_getElem?, place]

theorem fits (same : SameFrame s t) (slot : Slot Str) : slot.Fits t.bytes ↔ slot.Fits s.bytes := by
  rw [Slot.Fits, Slot.Fits, same.size]

theorem distant (same : SameFrame s t) {diff : BitVec 64} (far : t.Distant entry diff) :
    s.Distant entry diff := by
  obtain ⟨sym, loc, found, jump, rfl, bounds⟩ := far
  have place := same.place entry.1
  rw [found, Option.map_some, eq_comm, Option.map_eq_some_iff] at place
  obtain ⟨sym', found', moved⟩ := place
  have target : t.address sym = s.address sym' := same.address moved.symm
  have here : t.address loc = s.address loc := same.address rfl
  rw [target, here] at bounds ⊢
  exact ⟨sym', loc, found', jump, rfl, bounds⟩

theorem room (same : SameFrame s t) (room : t.Room entry) : s.Room entry := by
  rcases room with fits | ⟨⟨diff, far⟩, first⟩
  · exact Or.inl ((same.fits _).mp fits)
  · rw [same.size] at first
    exact Or.inr ⟨⟨diff, same.distant far⟩, first⟩

theorem meets (same : SameFrame s t) (meets : t.Meets entry) : s.Meets entry where
  known := (same.mem_lookup _).mp meets.known
  room := (same.fits _).mp meets.room
  near diff far := meets.near diff (same.symm.distant far)

theorem faults (same : SameFrame s t) {err : Failure} (faults : t.Faults entry err) :
    s.Faults entry err := by
  cases faults with
  | unknown missing => exact .unknown fun known => missing ((same.mem_lookup _).mpr known)
  | beyond known cut beyond =>
    exact .beyond ((same.mem_lookup _).mp known) (fun room => cut (same.symm.room room)) beyond
  | far known room far =>
    exact .far ((same.mem_lookup _).mp known) (same.room room) (same.distant far)

end SameFrame

namespace State
variable {s : State}

theorem runScheduled_jump {name : Str} {loc sym : SymbolLocation}
    (found : s.lookup[name]? = some sym) (small : loc.offset < 2 ^ 64) :
    s.Meets (name, .fixup .jump loc) ∧
        (∃ t, s.runScheduled (name, .fixup .jump loc) = .ok t ∧ SameFrame s t) ∨
      ∃ err, s.runScheduled (name, .fixup .jump loc) = .error err ∧
        s.Faults (name, .fixup .jump loc) err := by
  have known : name ∈ s.lookup := mem_lookup_iff.mpr ⟨sym, found⟩
  have unfolded : s.runScheduled (name, .fixup .jump loc) = Fixup.jump.run loc sym s := by
    rw [runScheduled, found]
    rfl
  rw [unfolded, Fixup.run]
  by_cases first : loc.offset + 0 < (s.bytes loc.sect).length
  · rw [instructionAt_ok first]
    change s.Meets _ ∧ (∃ t, (boundsCheckJump _ >>= fun _ => _) = .ok t ∧ _) ∨
      ∃ err, (boundsCheckJump _ >>= fun _ => _) = .error err ∧ _
    rcases boundsCheckJump_cases ((s.address sym - s.address loc).setWidth 64) with near | far
    · have close : ∀ diff, ¬ s.Distant (name, .fixup .jump loc) diff := by
        rintro diff ⟨sym', loc', found', same, rfl, bounds⟩
        cases found.symm.trans found'
        cases same
        exact bounds near
      rw [near]
      change s.Meets _ ∧ (∃ t, (s.readWord loc _ >>= fun _ => _) = .ok t ∧ _) ∨
        ∃ err, (s.readWord loc _ >>= fun _ => _) = .error err ∧ _
      by_cases room : loc.offset + 0 + 4 ≤ (s.bytes loc.sect).length
      · rw [@readWord_ok s loc (loc.offset + 0) room]
        exact Or.inl ⟨⟨known, room, close⟩, _, rfl, s.setInstructionAt_frame loc 0 _⟩
      · rw [@readWord_beyond s loc (loc.offset + 0) (not_le.mp room)]
        refine Or.inr ⟨.undefined, rfl, .beyond known ?_ (Or.inr rfl)⟩
        rintro (fits | ⟨⟨diff, far⟩, -⟩)
        · exact room fits
        · exact close diff far
    · have distant : s.Distant (name, .fixup .jump loc)
          ((s.address sym - s.address loc).setWidth 64) := by
        refine ⟨sym, loc, found, rfl, rfl, ?_⟩
        rw [far]
        intro same
        cases same
      rw [far]
      exact Or.inr ⟨_, rfl, .far known (Or.inr ⟨⟨_, distant⟩, first⟩) distant⟩
  · rw [instructionAt_beyond small (not_lt.mp first)]
    refine Or.inr ⟨.outOfRange, rfl, .beyond known ?_ (Or.inl rfl)⟩
    rintro (fits | ⟨-, head⟩)
    · change loc.offset + 4 ≤ (s.bytes loc.sect).length at fits
      omega
    · exact first head

theorem runScheduled_decided {entry : Str × ScheduledOp}
    (small : entry.2.patches.start + entry.2.patches.length < 2 ^ 64) :
    s.Meets entry ∧ (∃ t, s.runScheduled entry = .ok t ∧ SameFrame s t) ∨
      ∃ err, s.runScheduled entry = .error err ∧ s.Faults entry err := by
  rcases entry with ⟨name, op⟩
  cases found : s.lookup[name]? with
  | none =>
    refine Or.inr ⟨unknownSymbol name, by rw [runScheduled, found]; rfl, .unknown fun known => ?_⟩
    obtain ⟨loc, there⟩ := mem_lookup_iff.mp known
    cases found.symm.trans there
  | some sym =>
    have known : name ∈ s.lookup := mem_lookup_iff.mpr ⟨sym, found⟩
    have unfolded : s.runScheduled (name, op) = op.run name sym s := by rw [runScheduled, found]
    -- an operation that only needs its bytes
    have plain : (∀ loc, op ≠ .fixup .jump loc) →
        Decided s (op.patches.Fits s.bytes) (s.runScheduled (name, op)) →
        s.Meets (name, op) ∧ (∃ t, s.runScheduled (name, op) = .ok t ∧ SameFrame s t) ∨
          ∃ err, s.runScheduled (name, op) = .error err ∧ s.Faults (name, op) err := by
      intro other decided
      by_cases room : op.patches.Fits s.bytes
      · refine Or.inl ⟨⟨known, room, ?_⟩, decided.done room⟩
        rintro diff ⟨_, loc, -, jump, -⟩
        exact other loc jump
      · obtain ⟨err, failed, beyond⟩ := decided.failed room
        refine Or.inr ⟨err, failed, .beyond known ?_ beyond⟩
        rintro (fits | ⟨⟨diff, _, loc, -, jump, -⟩, -⟩)
        · exact room fits
        · exact other loc jump
    have free : ∀ t, s.runScheduled (name, op) = .ok t → SameFrame s t →
        op.patches.Fits s.bytes → Decided s (op.patches.Fits s.bytes) (s.runScheduled (name, op)) :=
      fun t run same room => ⟨fun _ => ⟨t, run, same⟩, fun short => absurd room short⟩
    cases op with
    | fixup f loc =>
      by_cases jump : f = .jump
      · subst jump
        exact runScheduled_jump found (lt_of_le_of_lt (Nat.le_add_right _ _) small)
      · refine plain (fun loc' same => jump ?_) ?_
        · cases same
          rfl
        · rw [unfolded]
          exact Fixup.run_decided jump small
    | endfunc loc =>
      exact plain (by simp) (free _ unfolded (setSymbol_frame found rfl) (Nat.zero_le _))
    | type type =>
      exact plain (by simp) (free _ unfolded (setSymbol_frame found rfl) (Nat.zero_le _))
    | size loc dataloc =>
      refine plain (by simp) ?_
      rw [unfolded]
      have patched := @patchOne_decided s loc 0 (lt_of_le_of_lt (Nat.le_add_right _ _) small)
        fun _ => sizeWord (s.address sym) (s.address dataloc) (s.address loc)
      refine patched.bind (fun room m same => ?_) id
      have place := same.place name
      rw [found, Option.map_some] at place
      obtain ⟨sym', found', moved⟩ := Option.map_eq_some_iff.mp place
      exact ⟨fun _ => ⟨_, rfl, setSymbol_frame found' moved.symm⟩, fun short => absurd room short⟩

theorem run_decided {order : List (Str × ScheduledOp)}
    (small : ∀ entry ∈ order, entry.2.patches.start + entry.2.patches.length < 2 ^ 64) :
    (∀ entry ∈ order, s.Meets entry) ∧ (∃ t, order.foldlM runScheduled s = .ok t) ∨
      ∃ front entry rest err, order = front ++ entry :: rest ∧ (∀ e ∈ front, s.Meets e) ∧
        s.Faults entry err ∧ order.foldlM runScheduled s = .error err := by
  induction order generalizing s with
  | nil => exact Or.inl ⟨by simp, s, rfl⟩
  | cons entry order ih =>
    rw [List.foldlM_cons]
    rcases @runScheduled_decided s entry (small entry (by simp)) with
      ⟨meets, m, run, same⟩ | ⟨err, failed, faults⟩
    · rw [run]
      rcases @ih m fun e mem => small e (by simp [mem]) with
        ⟨all, t, rest⟩ | ⟨front, e, rest, err, rfl, met, faults, failed⟩
      · refine Or.inl ⟨fun e mem => ?_, t, rest⟩
        rcases List.mem_cons.mp mem with rfl | later
        · exact meets
        · exact same.meets (all e later)
      · refine Or.inr ⟨entry :: front, e, rest, err, rfl, fun e' mem => ?_, same.faults faults, failed⟩
        rcases List.mem_cons.mp mem with rfl | later
        · exact meets
        · exact same.meets (met e' later)
    · rw [failed]
      exact Or.inr ⟨[], entry, order, err, rfl, by simp, faults, rfl⟩

/-- No operation that is reached under a known name has lost its bytes. -/
def Uncut (s : State) (order : List (Str × ScheduledOp)) : Prop :=
  ∀ front entry rest, order = front ++ entry :: rest → (∀ e ∈ front, s.Meets e) →
    entry.1 ∈ s.lookup → s.Room entry

theorem uncut_iff {front rest : List (Str × ScheduledOp)} {entry : Str × ScheduledOp}
    (met : ∀ e ∈ front, s.Meets e) (fails : ¬ s.Meets entry) :
    s.Uncut (front ++ entry :: rest) ↔ (entry.1 ∈ s.lookup → s.Room entry) := by
  constructor
  · intro uncut
    exact uncut front entry rest rfl met
  · intro room front' entry' rest' split met' known
    rcases List.append_eq_append_iff.mp split with ⟨more, longer, same⟩ | ⟨more, shorter, same⟩
    · cases more with
      | nil =>
        cases same
        exact room known
      | cons e more =>
        cases same
        exact absurd (met' entry (by simp [longer])) fails
    · cases more with
      | nil =>
        cases same
        exact room known
      | cons e more =>
        cases same
        exact Or.inl (met entry' (by simp [shorter])).room

theorem unknown_thrown_iff {order : List (Str × ScheduledOp)}
    (small : ∀ entry ∈ order, entry.2.patches.start + entry.2.patches.length < 2 ^ 64) :
    ((∃ name, order.foldlM runScheduled s = .error (unknownSymbol name)) ↔
        (∃ entry ∈ order, entry.1 ∉ s.lookup) ∧
          ¬ ∃ diff, order.foldlM runScheduled s = .error (outOfBounds diff)) ↔
      ((∃ entry ∈ order, entry.1 ∉ s.lookup) → s.Uncut order) := by
  rcases run_decided small with ⟨all, t, run⟩ | ⟨front, entry, rest, err, rfl, met, faults, failed⟩
  · have none : ¬ ∃ entry ∈ order, entry.1 ∉ s.lookup :=
      fun ⟨entry, mem, missing⟩ => missing (all entry mem).known
    rw [run]
    exact iff_of_true (iff_of_false nofun fun both => none both.1) fun missing => absurd missing none
  · have inside : entry ∈ front ++ entry :: rest := by simp
    rw [failed, uncut_iff met faults.not_meets]
    cases faults with
    | unknown missing =>
      refine iff_of_true (iff_of_true ⟨entry.1, rfl⟩ ⟨⟨entry, inside, missing⟩, ?_⟩)
        fun _ known => absurd known missing
      rintro ⟨diff, same⟩
      cases same
    | beyond known cut beyond =>
      have other : (∀ name, err ≠ unknownSymbol name) ∧ ∀ diff, err ≠ outOfBounds diff := by
        rcases beyond with rfl | rfl <;> exact ⟨fun _ => nofun, fun _ => nofun⟩
      constructor
      · intro claim missing
        obtain ⟨name, same⟩ := claim.mpr ⟨missing, fun ⟨diff, same⟩ => other.2 diff (Except.error.inj same)⟩
        exact absurd (Except.error.inj same) (other.1 name)
      · intro uncut
        refine iff_of_false (fun ⟨name, same⟩ => other.1 name (Except.error.inj same)) ?_
        exact fun both => cut (uncut both.1 known)
    | far known room distant =>
      refine iff_of_true (iff_of_false ?_ fun both => both.2 ⟨_, rfl⟩) fun _ _ => room
      rintro ⟨name, same⟩
      cases same

end State

def Statement.refersTo : Statement → Option Str
  | .opcode code _ => code.fixup.map Prod.fst
  | .endfunc sym => some sym
  | .type sym _ => some sym
  | .size sym => some sym
  | _ => none

theorem Statement.schedules_name (x : Statement) (current : Str) (bs : List Byte) :
    (x.schedules current bs).map Prod.fst = x.refersTo := by
  cases x with
  | opcode code wf =>
    rcases code with ⟨words, _ | ⟨lbl, f⟩⟩
    · rfl
    · rfl
  | _ => rfl

namespace Program
variable {env : Env} {options : Options}

def Refers (p : Program env options) (name : Str) : Prop :=
  ∃ x ∈ p.statements, x.refersTo = some name

def Declares (p : Program env options) (name : Str) : Prop :=
  name ∈ p.statements.flatMap Statement.declares

theorem refers_iff (p : Program env options) (name : Str) :
    p.Refers name ↔ ∃ entry ∈ p.final.state.scheduled, entry.1 = name := by
  constructor
  · rintro ⟨x, mem, refers⟩
    obtain ⟨pre, post, split⟩ := List.append_of_mem mem
    have ran := p.ran
    rw [split] at ran
    obtain ⟨v, before, -⟩ := run_append_iff.mp ran
    rw [← x.schedules_name v.current (v.bytes v.current)] at refers
    obtain ⟨entry, scheduled, same⟩ := Option.map_eq_some_iff.mp refers
    exact ⟨entry, (p.mem_scheduled_iff entry).mpr ⟨pre, x, post, v, ⟨split, before⟩, scheduled⟩, same⟩
  · rintro ⟨entry, mem, same⟩
    obtain ⟨pre, x, post, v, processed, scheduled⟩ := (p.mem_scheduled_iff entry).mp mem
    refine ⟨x, by simp [processed.split], ?_⟩
    rw [← x.schedules_name v.current (v.bytes v.current), scheduled, ← same]
    rfl

theorem patches_small (p : Program env options) {entry : Str × ScheduledOp}
    (mem : entry ∈ p.final.state.scheduled) :
    entry.2.patches.start + entry.2.patches.length < 2 ^ 64 := by
  obtain ⟨pre, x, post, v, processed, scheduled⟩ := (p.mem_scheduled_iff entry).mp mem
  obtain ⟨t, run, -⟩ := processed.after
  have fits := t.bytes_fits v.current
  rw [(Statement.exec_effect run).bytes, if_pos rfl] at fits
  unfold maxSize at fits
  obtain ⟨-, start, length⟩ := entry.2.patches_slot
  rcases Statement.schedules_slot scheduled with ⟨zero, none⟩ | ⟨-, -, last⟩
  · omega
  · omega

theorem prepared_declares (p : Program env options) {u : State}
    (run : p.final.state.prepare = .ok u) (name : Str) : name ∈ u.lookup ↔ p.Declares name := by
  obtain ⟨m, flushed, placed⟩ := bind_ok_iff.mp run
  rw [State.resolveBaseAddresses_lookup placed, (State.flushLabels_has flushed).2 name]
  exact (declared_iff p.ran).symm

theorem Grows.uncut {p : Program env options} (grows : p.Grows) {u : State}
    (run : p.final.state.prepare = .ok u) : u.Uncut u.scheduled := by
  intro front entry rest split met known
  obtain ⟨region, start, length⟩ := entry.2.patches_slot
  have owned : entry.2.slot.start + entry.2.slot.length ≤ (u.bytes entry.2.slot.region).length :=
    ((grows.prepared run).1.owned entry (by simp [split])).fits
  refine Or.inl ?_
  rw [Slot.Fits, region]
  omega

end Program

/-- A declared name waits in a queue or is in the symbol map; an entry of the map stays in its
    place whatever the assembler does next, and the label flush empties the queues. So finish()
    reports an unknown symbol exactly when a name was scheduled and never declared, and no jump
    failed before, unless it came to an operation that has lost its bytes. -/
theorem no_label_lost_iff (options : Options) :
    (∀ xs s, execAll (State.new options) xs = .ok s →
      ∀ name, name ∈ xs.flatMap Statement.declares ↔ s.Has name) ∧
    (∀ s t : State, Relation.ReflTransGen State.Step s t → s.Keeps t) ∧
    (∀ xs (s t : State), execAll s xs = .ok t ∨ s.finish = .ok t → Relation.ReflTransGen State.Step s t) ∧
    (∀ s t : State, s.flushLabels = .ok t →
      (∀ n, t.queue n = []) ∧ ∀ name, name ∈ t.lookup ↔ s.Has name) ∧
    ∀ (env : Env) (p : Program env options), ∃ u, p.final.state.prepare = .ok u ∧
      (((∃ name, p.final.state.finish = .error (unknownSymbol name)) ↔
          (∃ name, p.Refers name ∧ ¬ p.Declares name) ∧
            ¬ ∃ diff, p.final.state.finish = .error (outOfBounds diff)) ↔
        ((∃ name, p.Refers name ∧ ¬ p.Declares name) → u.Uncut u.scheduled)) ∧
      (p.Grows → u.Uncut u.scheduled) := by
  refine ⟨fun xs s run name => declared_iff run, fun s t => State.steps_keep, fun xs s t run => ?_,
    fun s t => State.flushLabels_has, fun env p => ?_⟩
  · rcases run with run | run
    · exact State.exec_steps run
    · exact State.finish_steps run
  · obtain ⟨u, run, -⟩ := p.prepared
    obtain ⟨same, worked⟩ := p.prepared_scheduled run
    refine ⟨u, run, ?_, fun grows => grows.uncut run⟩
    have finish : p.final.state.finish = u.scheduled.foldlM State.runScheduled u := by
      rw [State.finish, run]
      exact worked
    have undeclared : (∃ name, p.Refers name ∧ ¬ p.Declares name) ↔
        ∃ entry ∈ u.scheduled, entry.1 ∉ u.lookup := by
      simp only [p.refers_iff, ← same, ← p.prepared_declares run]
      constructor
      · rintro ⟨name, ⟨entry, mem, rfl⟩, missing⟩
        exact ⟨entry, mem, missing⟩
      · rintro ⟨entry, mem, missing⟩
        exact ⟨entry.1, ⟨entry, mem, rfl⟩, missing⟩
    rw [finish, undeclared]
    exact State.unknown_thrown_iff fun entry mem => p.patches_small (same ▸ mem)

/-- The name b is never declared, but .align 0 cuts off the instructions that wait for a, and
    finish() comes to these first. -/
theorem unknown_symbol_hidden : ∃ p : Program Env.noFiles {},
    (∃ name, p.Refers name ∧ ¬ p.Declares name) ∧
      (¬ ∃ diff, p.final.state.finish = .error (outOfBounds diff)) ∧
      ¬ ∃ name, p.final.state.finish = .error (unknownSymbol name) := by
  obtain ⟨p, refers, declares, failed⟩ : ∃ p : Program Env.noFiles {},
      (p.statements.map Statement.refersTo).contains (some (lit "b")) = true ∧
        (p.statements.flatMap Statement.declares).contains (lit "b") = false ∧
        (match p.final.state.finish with
          | .error err => err == .outOfRange
          | .ok _ => false) = true :=
    ⟨Program.ofSource {} (lit "a: la a0, a\nla a0, b\n.align 0") (by decide +kernel),
      by decide +kernel⟩
  have refers' : p.Refers (lit "b") := List.mem_map.mp (List.contains_iff_mem.mp refers)
  have missing : ¬ p.Declares (lit "b") := fun declared =>
    absurd (List.contains_iff_mem.mpr declared) (by rw [declares]; exact nofun)
  cases finish : p.final.state.finish with
  | ok t =>
    rw [finish] at failed
    cases failed
  | error err =>
    rw [finish] at failed
    cases beq_iff_eq.mp failed
    exact ⟨p, ⟨_, refers', missing⟩, by rw [finish]; exact nofun, by rw [finish]; exact nofun⟩

end BigAsm
