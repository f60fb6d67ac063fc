import Mathlib
import BigAsm.ElfTables
import BigAsm.Library.Simulations

/- The attributes of sections over whole runs, and the permissions they become in the file. What
   a statement gives to its section stays, and finish() and the writer only read it. -/
namespace BigAsm
open ByteStore Runs

inductive Attribute where
  | code | data | resv | execonly | readonly
  deriving DecidableEq, Repr

def OutputType.attribute : OutputType → Attribute
  | .code => .code
  | .data => .data
  | .resv => .resv

def Statement.gives : Statement → Option Attribute
  | .opcode code _ => if code.words = [] then none else some .code
  | .db _ | .data _ _ | .size _ => some .data
  | .resb _ | .reserve _ _ => some .resv
  | .execonly => some .execonly
  | .readonly => some .readonly
  | _ => none

namespace Section
variable {s t : Section} (a : Attribute)

def has (s : Section) : Attribute → Bool
  | .code => s.code
  | .data => s.data
  | .resv => s.resv
  | .execonly => s.execonly
  | .readonly => s.readonly

theorem setOutput_has {o : Option Buffer} (run : s.setOutput o = .ok t) : t.has a = s.has a := by
  obtain ⟨output, -, rfl⟩ := setOutput_ok_iff.mp run
  cases a <;> rfl

theorem mark_has (s : Section) (type : OutputType) :
    (s.mark type).has a = (s.has a || decide (type.attribute = a)) := by
  cases type <;> cases a <;> simp [mark, has, OutputType.attribute]

theorem addOutput_has {type : OutputType} {data : List Byte} (run : s.addOutput type data = .ok t) :
    t.has a = (s.has a || decide (type.attribute = a)) := by
  obtain ⟨m, grown, marked⟩ := bind_ok_iff.mp run
  rw [← pure_ok_iff.mp marked, mark_has, setOutput_has a grown]

theorem allocate_has {len : BitVec 64} (run : s.allocate len = .ok t) :
    t.has a = (s.has a || decide (.resv = a)) := by
  obtain ⟨m, grown, marked⟩ := bind_ok_iff.mp run
  rw [← pure_ok_iff.mp marked, mark_has, setOutput_has a grown]
  rfl

theorem align_has {alignment : BitVec 64} (run : s.align alignment = .ok t) : t.has a = s.has a := by
  unfold Section.align at run
  dsimp only at run
  split at run
  · exact setOutput_has a run
  · cases run
    rfl

theorem alignWithLabels_has {alignment : BitVec 64} (run : s.alignWithLabels alignment = .ok t) :
    t.has a = s.has a := by
  obtain ⟨m, aligned, done⟩ := bind_ok_iff.mp run
  have first : m.has a = s.has a := by
    unfold Section.alignAbove at aligned
    split at aligned
    · exact align_has a aligned
    · cases aligned
      rfl
  rw [← pure_ok_iff.mp done, ← first]
  cases a <;> rfl

theorem emitCode_has {words : List Instruction} (run : s.emitCode words = .ok t) :
    t.has a = (s.has a || decide (words ≠ [] ∧ .code = a)) := by
  induction words generalizing s with
  | nil =>
    cases run
    simp
  | cons w words ih =>
    obtain ⟨m, first, rest⟩ := run_cons_iff.mp run
    rw [ih rest, addOutput_has a first]
    cases a <;> simp [OutputType.attribute]

end Section

namespace Statement
variable {x : Statement} (a : Attribute)

theorem has_of_none {s t : Section} (same : t.has a = s.has a) (none : x.gives = none) :
    t.has a = (s.has a || decide (x.gives = some a)) := by
  rw [same, none]
  simp

theorem has_of_some {s t : Section} {b : Attribute} (more : t.has a = (s.has a || decide (b = a)))
    (some : x.gives = some b) : t.has a = (s.has a || decide (x.gives = Option.some a)) := by
  rw [more, some]
  simp

theorem act_has {s t : Section} (run : x.act s = .ok t) :
    t.has a = (s.has a || decide (x.gives = some a)) := by
  cases x with
  | opcode code wf =>
    obtain ⟨m, aligned, emitted⟩ := bind_ok_iff.mp run
    have more := Section.emitCode_has a emitted
    rw [Section.alignWithLabels_has a aligned] at more
    by_cases empty : code.words = []
    · refine has_of_none a ?_ (if_pos empty)
      simpa [empty] using more
    · refine has_of_some a ?_ (if_neg empty)
      simpa [empty] using more
  | db value => exact has_of_some a (Section.addOutput_has a run) rfl
  | data scale bytes | size sym =>
    obtain ⟨m, aligned, written⟩ := bind_ok_iff.mp run
    have more := Section.addOutput_has a written
    rw [Section.alignWithLabels_has a aligned] at more
    exact has_of_some a more rfl
  | resb times => exact has_of_some a (Section.allocate_has a run) rfl
  | reserve scale times =>
    obtain ⟨m, aligned, resized⟩ := bind_ok_iff.mp run
    have more := Section.allocate_has a resized
    rw [Section.alignWithLabels_has a aligned] at more
    exact has_of_some a more rfl
  | align alignment => exact has_of_none a (Section.align_has a run) rfl
  | finishLabels => exact has_of_none a (Section.alignWithLabels_has a run) rfl
  | org base =>
    change (if s.size > 0 then _ else _) = _ at run
    split at run
    · cases run
    · cases run
      exact has_of_none a (by cases a <;> rfl) rfl
  | execonly =>
    cases run
    exact has_of_some a (b := .execonly) (by cases a <;> simp [Section.has]) rfl
  | readonly =>
    cases run
    exact has_of_some a (b := .readonly) (by cases a <;> simp [Section.has]) rfl
  | label name | endfunc sym | type sym type | global sym | sect name =>
    cases run
    exact has_of_none a (by cases a <;> rfl) rfl

end Statement

namespace State
variable {s t : State}

theorem has_setSection (s : State) (name n : Str) (a : Attribute) :
    ((s.setSection name).sectionAt n).has a = (s.sectionAt n).has a := by
  unfold State.sectionAt setSection
  rw [Std.ExtTreeMap.getElem?_insertIfNew]
  split
  · rename_i new
    rw [Std.LawfulEqCmp.eq_of_compare new.1] at new
    rw [Std.ExtTreeMap.getElem?_eq_none new.2]
    cases a <;> rfl
  · rfl

theorem exec_gives {x : Statement} (run : x.exec s = .ok t) (n : Str) (a : Attribute) :
    (t.sectionAt n).has a = true ↔
      (s.sectionAt n).has a = true ∨ s.current = n ∧ x.gives = some a := by
  rcases Statement.exec_cases run with ⟨name, rfl, rfl⟩ | ⟨sect, acted, rfl⟩
  · rw [has_setSection]
    refine (or_iff_left fun both => ?_).symm
    cases both.2
  · have same : (x.commit s sect).sectionAt n = (s.putSection s.current sect).sectionAt n := rfl
    rw [same, sectionAt_putCurrent]
    by_cases here : n = s.current
    · subst here
      rw [if_pos rfl, Statement.act_has a acted]
      simp [State.currentSection]
    · rw [if_neg here]
      simp [Ne.symm here]

structure Rewrites (s t : State) : Prop where
  options : t.options = s.options
  globals : t.globals = s.globals
  sections : ∀ n, ∃ o, t.sectionAt n = { s.sectionAt n with output := o }

theorem Rewrites.refl (s : State) : Rewrites s s := ⟨rfl, rfl, fun n => ⟨(s.sectionAt n).output, rfl⟩⟩

theorem Rewrites.trans {m : State} (first : Rewrites s m) (second : Rewrites m t) : Rewrites s t where
  options := second.options.trans first.options
  globals := second.globals.trans first.globals
  sections n := by
    obtain ⟨o, here⟩ := first.sections n
    obtain ⟨o', there⟩ := second.sections n
    rw [here] at there
    exact ⟨o', there⟩

theorem rewrites_setInstructionAt (s : State) (loc : SymbolLocation) (off : Nat) (w : Instruction) :
    Rewrites s (s.setInstructionAt loc off w) := by
  refine ⟨rfl, rfl, ?_⟩
  intro n
  by_cases known : loc.sect ∈ s.sections
  · rw [setInstructionAt, sectionAt_putSection s known]
    split
    · rename_i here
      rw [here]
      exact ⟨_, rfl⟩
    · exact ⟨_, rfl⟩
  · have unchanged : (s.setInstructionAt loc off w).sections[n]? = s.sections[n]? := by
      refine (Std.ExtTreeMap.getElem?_modify ..).trans ?_
      split
      · rename_i here
        rw [← Std.LawfulEqCmp.eq_of_compare here, Std.ExtTreeMap.getElem?_eq_none known]
        rfl
      · rfl
    rw [sectionAt, unchanged]
    exact ⟨_, rfl⟩

theorem rewrites_patchOne {loc : SymbolLocation} {off : Nat} {f : Instruction → Instruction}
    (run : s.patchOne loc off f = .ok t) : Rewrites s t := by
  obtain ⟨i, -, rest⟩ := bind_ok_iff.mp run
  obtain ⟨w, -, done⟩ := bind_ok_iff.mp rest
  rw [← pure_ok_iff.mp done]
  exact s.rewrites_setInstructionAt loc off _

theorem rewrites_patchPair {loc : SymbolLocation} {off : Nat}
    {f : Instruction → Instruction → Instruction × Instruction}
    (run : s.patchPair loc off f = .ok t) : Rewrites s t := by
  obtain ⟨i, -, rest⟩ := bind_ok_iff.mp run
  obtain ⟨j, -, rest⟩ := bind_ok_iff.mp rest
  obtain ⟨w, -, rest⟩ := bind_ok_iff.mp rest
  obtain ⟨w', -, done⟩ := bind_ok_iff.mp rest
  rw [← pure_ok_iff.mp done]
  exact (s.rewrites_setInstructionAt loc (off + 4) _).trans (rewrites_setInstructionAt _ loc off _)

theorem rewrites_fixup {f : Fixup} {loc sym : SymbolLocation} (run : f.run loc sym s = .ok t) :
    Rewrites s t := by
  cases f with
  | la =>
    change s.patchPair loc 0 (patchLa _ _) = .ok t at run
    exact rewrites_patchPair run
  | farcall =>
    change s.patchPair loc 0 (patchFarcall _) = .ok t at run
    exact rewrites_patchPair run
  | branch =>
    change s.patchOne loc 0 (patchBranch _) = .ok t at run
    exact rewrites_patchOne run
  | laq =>
    obtain ⟨a, first, rest⟩ := bind_ok_iff.mp run
    obtain ⟨b, second, rest⟩ := bind_ok_iff.mp rest
    obtain ⟨d, third, fourth⟩ := bind_ok_iff.mp rest
    exact (((rewrites_patchPair first).trans (rewrites_patchPair second)).trans
      (rewrites_patchPair third)).trans (rewrites_patchPair fourth)
  | jump =>
    obtain ⟨i, -, rest⟩ := bind_ok_iff.mp run
    obtain ⟨_, -, rest⟩ := bind_ok_iff.mp rest
    obtain ⟨w, -, done⟩ := bind_ok_iff.mp rest
    rw [← pure_ok_iff.mp done]
    exact s.rewrites_setInstructionAt loc 0 _

theorem rewrites_runScheduled {entry : Str × ScheduledOp} (run : s.runScheduled entry = .ok t) :
    Rewrites s t := by
  rcases entry with ⟨name, op⟩
  unfold runScheduled at run
  split at run
  · cases op with
    | fixup f loc => exact rewrites_fixup run
    | endfunc loc | type type =>
      cases run
      exact ⟨rfl, rfl, fun n => ⟨_, rfl⟩⟩
    | size loc dataloc =>
      obtain ⟨m, patched, done⟩ := bind_ok_iff.mp run
      have kept : Rewrites s m := rewrites_patchOne patched
      rw [← pure_ok_iff.mp done]
      exact ⟨kept.options, kept.globals, kept.sections⟩
  · cases run

theorem rewrites_runAll {entries : List (Str × ScheduledOp)}
    (run : entries.foldlM runScheduled s = .ok t) : Rewrites s t :=
  run_relation Rewrites Rewrites.refl (fun _ _ _ => Rewrites.trans)
    (fun _ _ _ => rewrites_runScheduled) run

theorem rewrites_finishScheduledWork (run : s.finishScheduledWork = .ok t) : Rewrites s t :=
  finishScheduledWork_relation Rewrites.refl (fun _ _ _ => Rewrites.trans)
    (fun _ _ _ => rewrites_runScheduled) run

def Frames (s t : State) : Prop := ∀ n a, (t.sectionAt n).has a = (s.sectionAt n).has a

theorem Frames.trans {m : State} (first : Frames s m) (second : Frames m t) : Frames s t :=
  fun n a => (second n a).trans (first n a)

theorem Rewrites.frames (rewrites : Rewrites s t) : Frames s t := by
  intro n a
  obtain ⟨o, same⟩ := rewrites.sections n
  rw [same]
  cases a <;> rfl

theorem frames_finish {order : List Str} (indexed : s.Indexed order) (run : s.finish = .ok t) :
    Frames s t := by
  obtain ⟨u, prepared, finished⟩ := bind_ok_iff.mp run
  obtain ⟨m, u', flushed, run, placed⟩ := prepare_ok indexed
  cases run.symm.trans prepared
  have cleared : Frames s m := by
    intro n a
    rw [flushed.sectionAt]
    split
    · cases a <;> rfl
    · rfl
  have based : Frames m u := by
    intro n a
    by_cases listed : n ∈ order
    · obtain ⟨i, bound, here⟩ := List.getElem_of_mem listed
      have found : order[i]? = some n := by rw [List.getElem?_eq_getElem bound, here]
      have all : i < (({ base := s.options.base } : Layout).bases
          s.options.sectionAttrPageSeparation (order.map s.sectionAt)).length := by
        rw [Layout.bases_length, List.length_map]
        exact bound
      rw [placed.placed i n _ found (List.getElem?_eq_getElem all)]
      cases a <;> rfl
    · rw [placed.other n listed]
  exact (cleared.trans based).trans (rewrites_finishScheduledWork finished).frames

end State

/-- A statement of the program gives the attribute to the section. -/
def Program.Gives {env : Env} {options : Options} (p : Program env options) (n : Str)
    (a : Attribute) : Prop :=
  ∃ pre x post v, p.Processes pre x post v ∧ v.current = n ∧ x.gives = some a

theorem Finished.has_iff {env : Env} {options : Options} (f : Finished env options) (n : Str)
    (a : Attribute) : (f.state.sectionAt n).has a = true ↔ f.program.Gives n a := by
  obtain ⟨first, order, indexed, -⟩ := (State.Reachable.ofProgram f.program).anchored
  have gained := run_gained_iff (fun s : State => (s.sectionAt n).has a = true)
    (fun s x => s.current = n ∧ x.gives = some a) (fun _ _ _ run => State.exec_gives run n a)
    f.program.ran
  have blank : ¬ ((State.new options).sectionAt n).has a = true := by
    rw [State.new_sectionAt]
    split <;> cases a <;> exact Bool.false_ne_true
  rw [State.frames_finish indexed f.done n a, gained]
  constructor
  · rintro (start | ⟨pre, x, post, v, split, before, here, gives⟩)
    · exact absurd start blank
    · exact ⟨pre, x, post, v, ⟨split, before⟩, here, gives⟩
  · rintro ⟨pre, x, post, v, processed, here, gives⟩
    exact Or.inr ⟨pre, x, post, v, processed.split, processed.before, here, gives⟩

theorem programs_at (c : ElfClass) {sections : List Section} {offset i : Nat} {p : Phdr c}
    (found : (programs c offset sections)[i]? = some p) :
    ∃ sect o, sections[i]? = some sect ∧ p = sect.programHeader c o := by
  induction sections generalizing offset i with
  | nil => cases found
  | cons sect sections ih =>
    cases i with
    | zero =>
      cases found
      exact ⟨sect, offset, rfl, rfl⟩
    | succ i => exact ih found

/-- The permissions of a segment, as the flags of its program header. -/
structure Permits (sect : Attribute → Prop) (p : Phdr c) : Prop where
  loaded : p.type = PT_LOAD ↔ sect .code ∨ sect .data
  executable : p.flags &&& PF_X ≠ 0 ↔ sect .code
  readable : p.flags &&& PF_R ≠ 0 ↔
    (sect .data ∨ sect .resv) ∧ ¬ (sect .code ∧ sect .execonly)
  writable : p.flags &&& PF_W ≠ 0 ↔
    (sect .data ∨ sect .resv) ∧ ¬ (sect .code ∧ sect .execonly) ∧ ¬ sect .readonly

theorem segmentFlags_bits : ∀ code data resv execonly readonly : Bool,
    let flags := (if code then PF_X else 0) |||
      if !code || !execonly then if data || resv then PF_R ||| if readonly then 0 else PF_W else 0
      else 0
    (flags &&& PF_X ≠ 0 ↔ code = true) ∧
    (flags &&& PF_R ≠ 0 ↔ (data = true ∨ resv = true) ∧ ¬ (code = true ∧ execonly = true)) ∧
    (flags &&& PF_W ≠ 0 ↔ (data = true ∨ resv = true) ∧ ¬ (code = true ∧ execonly = true) ∧
      ¬ readonly = true) := by decide

theorem programHeader_permits (c : ElfClass) (offset : Nat) (sect : Section) :
    Permits (fun a => sect.has a = true) (sect.programHeader c offset) := by
  obtain ⟨executable, readable, writable⟩ :=
    segmentFlags_bits sect.code sect.data sect.resv sect.execonly sect.readonly
  refine ⟨?_, executable, readable, writable⟩
  have loaded : sect.loadable = true ↔ sect.code = true ∨ sect.data = true := Bool.or_eq_true _ _ ▸ Iff.rfl
  change (if sect.loadable then PT_LOAD else 0) = PT_LOAD ↔ sect.code = true ∨ sect.data = true
  rw [← loaded]
  split
  · rename_i yes
    exact iff_of_true rfl yes
  · rename_i no
    exact iff_of_false (by decide) no

/-- The segments of the file have the permissions the source gives to their sections: code makes
    them executable, data and reservations readable, unless there is code and an .execonly, and
    writable without a .readonly. -/
theorem permissions_follow_source (c : ElfClass) {env : Env} {options : Options}
    (f : Finished env options) (order : f.state.SymbolOrder) {e : ElfBin c} {file : List Byte}
    (written : f.state.elfWriter c options order = .ok e) (kept : e.file = .ok file) :
    (programHeaders c file).length = f.state.sections.size ∧
      ∀ (i : Nat) (p : Phdr c) (n : Str), (programHeaders c file)[i]? = some p →
        f.state.sections.keys[i]? = some n → Permits (f.program.Gives n) p := by
  obtain ⟨entry, w⟩ := State.Written.of_ok written
  unfold ElfBin.file at kept
  split at kept
  · rename_i fits
    cases kept
    have few := State.Written.sections_few (w.fits_iff.mp fits)
    rw [w.programHeaders_eq few]
    refine ⟨w.phdr_length, fun i p n header named => ?_⟩
    rw [w.phdr] at header
    obtain ⟨sect, o, here, rfl⟩ := programs_at c header
    rw [← Std.ExtTreeMap.map_fst_toList_eq_keys, List.getElem?_map] at named
    rw [State.sectionList, List.getElem?_map] at here
    obtain ⟨⟨n', sect'⟩, entry, rfl⟩ := Option.map_eq_some_iff.mp named
    rw [entry] at here
    cases here
    have known := Std.ExtTreeMap.mem_toList_iff_getElem?_eq_some.mp (List.mem_of_getElem? entry)
    have gives : (fun a => sect'.has a = true) = f.program.Gives n' := by
      funext a
      rw [← State.sectionAt_of_getElem? known]
      exact propext (f.has_iff n' a)
    rw [← gives]
    exact programHeader_permits c o sect'
  · cases kept

theorem small_permissions_follow : ∃ (e : ElfBin .elf64) (file : List Byte) (p : Phdr .elf64),
    smallFinished.state.elfWriter .elf64 {} smallFinished.state.mapOrder = .ok e ∧
    e.file = .ok file ∧ (programHeaders .elf64 file)[1]? = some p ∧
    Permits (smallFinished.program.Gives (lit ".text")) p := by
  obtain ⟨e, run, kept⟩ := smallFinished_written
  obtain ⟨entry, w⟩ := State.Written.of_ok run
  have file := w.file_eq (w.fits_of_size kept)
  obtain ⟨count, permits⟩ := permissions_follow_source .elf64 smallFinished _ run file
  have keys : smallFinished.state.sections.keys[1]? = some (lit ".text") := by decide +kernel
  have size : smallFinished.state.sections.size = 2 := by decide +kernel
  have inside : 1 < (programHeaders .elf64 e.bin).length := by
    rw [count, size]
    decide
  have header := List.getElem?_eq_getElem inside
  exact ⟨e, e.bin, _, run, file, header, permits 1 _ _ header keys⟩

end BigAsm
