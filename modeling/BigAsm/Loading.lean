import Mathlib
import BigAsm.Execution
import BigAsm.Placement
import BigAsm.Alignment

/- What a loader makes of the written file. The segments of type PT_LOAD are put at their
   addresses, so the memory holds every section with code or data where finish() has placed it,
   and a machine that starts at the entry point runs the program with labels. -/
namespace BigAsm
open ByteStore Runs Rv128

variable {c : ElfClass}

/-- A segment is put where its header says, and filled up with zeros. -/
def Phdr.load (file : List Byte) (mem : Memory) (p : Phdr c) : Memory :=
  if p.type = PT_LOAD then
    mem.store (p.vaddr.setWidth 128) (window p.offset.toNat p.filesz.toNat file ++
      List.replicate (p.memsz.toNat - p.filesz.toNat) 0)
  else mem

def load (c : ElfClass) (file : List Byte) (mem : Memory) : Memory :=
  (programHeaders c file).foldl (Phdr.load file) mem

def entryPoint (c : ElfClass) (file : List Byte) : BitVec 128 := (readEhdr c file).entry.setWidth 128

def Section.block (sect : Section) : BitVec 128 × List Byte := (sect.baseAddress, sect.output.bytes)

def State.blocks (s : State) : List (BitVec 128 × List Byte) :=
  (s.sectionList.filter Section.loadable).map Section.block

def ElfClass.Reaches (c : ElfClass) (a : BitVec 128) : Prop := a.toNat < 2 ^ (8 * c.addrBytes)

instance (c : ElfClass) (a : BitVec 128) : Decidable (c.Reaches a) := inferInstanceAs (Decidable (_ < _))

theorem setWidth_back {a : BitVec 128} (reaches : c.Reaches a) :
    (a.setWidth (8 * c.addrBytes)).setWidth 128 = a := by
  apply BitVec.eq_of_toNat_eq
  rw [BitVec.toNat_setWidth, BitVec.toNat_setWidth, Nat.mod_eq_of_lt reaches, Nat.mod_eq_of_lt a.isLt]

theorem load_segments {file : List Byte} {sections : List Section} {offset : Nat}
    (segments : List.Forall₂ (fun p sect => sect.loadable → Segment c file p sect)
      (programs c offset sections) sections)
    (reaches : ∀ sect ∈ sections, sect.loadable → c.Reaches sect.baseAddress) (mem : Memory) :
    (programs c offset sections).foldl (Phdr.load file) mem =
      mem.storeAll ((sections.filter Section.loadable).map Section.block) := by
  induction sections generalizing offset mem with
  | nil => rfl
  | cons sect sections ih =>
    cases segments with
    | cons segment rest =>
    rw [programs, List.foldl_cons, ih rest fun s listed => reaches s (by simp [listed])]
    by_cases loadable : sect.loadable = true
    · have seg := segment loadable
      have sizes : (sect.programHeader c offset).memsz = (sect.programHeader c offset).filesz :=
        (if_pos loadable).symm
      have loaded : (sect.programHeader c offset).load file mem =
          mem.store sect.baseAddress sect.output.bytes := by
        rw [Phdr.load, if_pos seg.type, seg.contents, seg.vaddr, sizes, Nat.sub_self,
          List.replicate_zero, List.append_nil, setWidth_back (reaches sect (by simp) loadable)]
      rw [loaded, List.filter_cons_of_pos loadable]
      rfl
    · have skipped : (sect.programHeader c offset).load file mem = mem := by
        refine if_neg fun type => ?_
        change (if sect.loadable then PT_LOAD else 0) = PT_LOAD at type
        rw [if_neg loadable] at type
        cases type
      rw [skipped, List.filter_cons_of_neg loadable]

namespace State.Written
variable {s : State} {order : s.SymbolOrder} {entry : BitVec 128} {e : ElfBin c}

theorem load_eq (w : s.Written c order entry e) (fits : s.lastHeaderAt c order ≤ 262144)
    (reaches : ∀ sect ∈ s.sectionList, sect.loadable → c.Reaches sect.baseAddress) (mem : Memory) :
    load c e.bin mem = mem.storeAll s.blocks := by
  have segments := @programs_segments c s.sectionList (e.data.encode ++ tables c s order)
    (s.programsAt c order) (by rw [List.length_append, w.encode_length, tables_length])
    (Nat.lt_of_le_of_lt fits (by decide))
  rw [← w.bin_eq] at segments
  rw [load, w.programHeaders_eq (sections_few fits), w.phdr]
  exact load_segments segments reaches mem

end State.Written

/-- No two sections with code or data share an address. -/
def State.Apart (s : State) : Prop :=
  ∀ a b, a ≠ b → (s.sectionAt a).loadable = true → (s.sectionAt b).loadable = true →
    Memory.Clear (s.sectionAt a).block (s.sectionAt b).block

namespace State
variable {s : State}

theorem mem_blocks {block : BitVec 128 × List Byte} : block ∈ s.blocks ↔
    ∃ n, (s.sectionAt n).loadable = true ∧ (s.sectionAt n).block = block := by
  simp only [blocks, sectionList, List.mem_map, List.mem_filter, Prod.exists]
  constructor
  · rintro ⟨sect, ⟨⟨n, _, listed, rfl⟩, loadable⟩, rfl⟩
    have known := Std.ExtTreeMap.mem_toList_iff_getElem?_eq_some.mp listed
    rw [← sectionAt_of_getElem? known] at loadable ⊢
    exact ⟨n, loadable, rfl⟩
  · rintro ⟨n, loadable, rfl⟩
    cases found : s.sections[n]? with
    | none =>
      rw [sectionAt, found] at loadable
      cases loadable
    | some sect =>
      have same := sectionAt_of_getElem? found
      rw [same] at loadable ⊢
      exact ⟨sect, ⟨⟨n, sect, Std.ExtTreeMap.mem_toList_iff_getElem?_eq_some.mpr found, rfl⟩,
        loadable⟩, rfl⟩

theorem Apart.blocks (apart : s.Apart) : s.blocks.Pairwise Memory.Clear := by
  rw [State.blocks, sectionList, List.pairwise_map, List.pairwise_filter, List.pairwise_map]
  refine s.sections.distinct_keys_toList.imp_of_mem ?_
  rintro ⟨n, x⟩ ⟨n', x'⟩ listed listed' distinct loadable loadable'
  have known := sectionAt_of_getElem? (Std.ExtTreeMap.mem_toList_iff_getElem?_eq_some.mp listed)
  have known' := sectionAt_of_getElem? (Std.ExtTreeMap.mem_toList_iff_getElem?_eq_some.mp listed')
  have other : n ≠ n' := by
    rintro rfl
    exact distinct Std.ReflCmp.compare_self
  have clear := apart n n' other (by rwa [known]) (by rwa [known'])
  rwa [known, known'] at clear

end State

theorem State.Apart.read {s : State} (apart : s.Apart) (mem : Memory) {n : Str}
    (loadable : (s.sectionAt n).loadable = true) :
    (mem.storeAll s.blocks).read (s.baseOf n) (s.bytes n).length = s.bytes n := by
  have back := Memory.read_storeAll mem apart.blocks (by
    rintro _ member
    obtain ⟨m, -, rfl⟩ := State.mem_blocks.mp member
    exact (s.bytes_fits m).trans (by decide))
  exact back _ (State.mem_blocks.mpr ⟨n, loadable, rfl⟩)

theorem load_written {options : Options} {s : State} {order : s.SymbolOrder} {e : ElfBin c}
    {file : List Byte} (written : s.elfWriter c options order = .ok e) (kept : e.file = .ok file)
    (reaches : ∀ n, (s.sectionAt n).loadable = true → c.Reaches (s.baseOf n)) (mem : Memory) :
    load c file mem = mem.storeAll s.blocks ∧ ∃ entry, s.addressOf options.entry = .ok entry ∧
      (c.Reaches entry → entryPoint c file = entry) := by
  obtain ⟨entry, known⟩ := State.addressOf_of_elfWriter written
  obtain ⟨e', run, w⟩ := State.elfWriter_written c order known
  cases written.symm.trans run
  unfold ElfBin.file at kept
  split at kept
  · rename_i fits
    cases kept
    refine ⟨w.load_eq (w.fits_iff.mp fits) (fun sect listed loadable => ?_) mem, entry, known, ?_⟩
    · obtain ⟨n, same, block⟩ := State.mem_blocks.mp (List.mem_map_of_mem
        (List.mem_filter.mpr ⟨listed, loadable⟩) : sect.block ∈ s.blocks)
      have base : s.baseOf n = sect.baseAddress := congrArg Prod.fst block
      exact base ▸ reaches n same
    · rw [entryPoint, w.readEhdr_eq]
      exact setWidth_back
  · cases kept

theorem State.Layout.bases_fit {l : Layout} {separation : Bool} {sects : List Section}
    {sect : Section} {i : Nat} {base : BitVec 128} (fits : l.Fits separation sects)
    (at_ : sects[i]? = some sect) (based : (l.bases separation sects)[i]? = some base) :
    base.toNat + sect.size < 2 ^ 128 := by
  induction sects generalizing l i with
  | nil => cases at_
  | cons first rest ih =>
    obtain ⟨-, room, later⟩ := fits
    cases i with
    | zero =>
      cases at_
      cases based
      omega
    | succ i => exact ih later at_ based

def Statement.setsBase : Statement → Bool
  | .org _ => true
  | _ => false

namespace State
variable {s t : State}

/-- Only the first section has an address of its own. -/
def Floats (s : State) : Prop := ∀ n, (s.sectionAt n).hasBaseAddr = true → n = lit ".text"

theorem new_floats (options : Options) : (State.new options).Floats := by
  intro n based
  rw [new_sectionAt] at based
  split at based
  · assumption
  · cases based

theorem exec_floats {x : Statement} (floating : x.setsBase = false) (floats : s.Floats)
    (run : x.exec s = .ok t) : t.Floats := by
  intro n based
  rcases Statement.exec_cases run with ⟨name, rfl, rfl⟩ | ⟨sect, acted, rfl⟩
  · rw [sectionAt_setSection_of_mem s name (known_of_based_setSection based)] at based
    exact floats n based
  · change ((s.putSection s.current sect).sectionAt n).hasBaseAddr = true at based
    rw [sectionAt_putCurrent] at based
    split at based
    · rename_i here
      subst here
      rcases Statement.act_retains acted with kept | ⟨base, rfl, -⟩
      · exact floats s.current (kept.based.symm.trans based)
      · cases floating
    · exact floats n based

theorem prepared_below {order : List Str} (indexed : s.Indexed order) (floats : s.Floats)
    (anchored : ∃ first rest, order = first :: rest ∧ (s.sectionAt first).hasBaseAddr = true)
    (fits : s.LayoutFits) (run : s.prepare = .ok t) {a b : Str} (inA : a ∈ s.sections)
    (inB : b ∈ s.sections) (before : (s.sectionAt a).idx < (s.sectionAt b).idx) :
    (t.baseOf a).toNat + (t.bytes a).length ≤ (t.baseOf b).toNat ∧
      (t.baseOf b).toNat + (t.bytes b).length < 2 ^ 128 := by
  obtain ⟨m, t', flushed, run', placed⟩ := prepare_ok indexed
  cases run'.symm.trans run
  obtain ⟨first, rest, whole, based⟩ := anchored
  have text := floats first based
  rw [LayoutFits, indexed.inOrder_eq] at fits
  have listed : ∀ n ∈ s.sections,
      (order.map s.sectionAt)[(s.sectionAt n).idx]? = some (s.sectionAt n) := by
    intro n known
    rw [List.getElem?_map, indexed.index known]
    rfl
  obtain ⟨basedA, sizeA⟩ := prepared_base flushed placed (indexed.index inA)
  obtain ⟨basedB, sizeB⟩ := prepared_base flushed placed (indexed.index inB)
  rw [sizeA, sizeB]
  refine ⟨Layout.bases_apart fits before (listed a inA) basedA basedB fun k after small sect at_ => ?_,
    Layout.bases_fit fits (listed b inB) basedB⟩
  rw [List.getElem?_map] at at_
  obtain ⟨c, nth, rfl⟩ := Option.map_eq_some_iff.mp at_
  refine Bool.eq_false_iff.mpr fun explicit => ?_
  have zero : order[0]? = some c := by
    rw [whole, floats c explicit, text]
    rfl
  have inC := (indexed.found 0 c zero).2
  have inC' := (indexed.found k c nth).2
  omega

end State

def Program.Floating {env : Env} {options : Options} (p : Program env options) : Prop :=
  ∀ x ∈ p.statements, x.setsBase = false

instance {env : Env} {options : Options} (p : Program env options) : Decidable p.Floating :=
  inferInstanceAs (Decidable (∀ x ∈ p.statements, x.setsBase = false))

theorem Program.Floating.floats {env : Env} {options : Options} {p : Program env options}
    (floating : p.Floating) : p.final.state.Floats :=
  run_invariant_mem State.Floats (fun _ x _ mem floats run =>
    State.exec_floats (floating x mem) floats run) (State.new_floats options) p.ran

theorem Finished.apart {env : Env} {options : Options} (f : Finished env options)
    (floating : f.program.Floating) (fits : f.program.final.state.LayoutFits) : f.state.Apart := by
  obtain ⟨first, order, indexed, anchored⟩ := (State.Reachable.ofProgram f.program).anchored
  obtain ⟨u, prepared, base⟩ := State.finish_base f.done
  obtain ⟨u', prepared', bytes, -⟩ := f.program.prepared
  cases prepared.symm.trans prepared'
  have known : ∀ n, (f.state.sectionAt n).loadable = true → n ∈ f.program.final.state.sections := by
    intro n loadable
    by_contra unknown
    have flags := State.frames_finish indexed f.done n
    have code : (f.state.sectionAt n).code = _ := flags .code
    have data : (f.state.sectionAt n).data = _ := flags .data
    rw [Section.loadable, code, data, State.sectionAt, Std.ExtTreeMap.getElem?_eq_none unknown]
      at loadable
    cases loadable
  have block : ∀ n, (f.state.sectionAt n).block.1 = u.baseOf n ∧
      (f.state.sectionAt n).block.2.length = (u.bytes n).length := by
    intro n
    refine ⟨base n, ?_⟩
    rw [bytes]
    exact f.sizes n
  intro a b other loadA loadB
  have inA := known a loadA
  have inB := known b loadB
  have below := fun {a b : Str} => @State.prepared_below _ u (first :: order) indexed floating.floats
    ⟨first, order, rfl, anchored⟩ fits prepared a b
  have distinct : (f.program.final.state.sectionAt a).idx ≠ (f.program.final.state.sectionAt b).idx := by
    intro same
    have here := indexed.index inA
    rw [same, indexed.index inB] at here
    exact other (Option.some.inj here).symm
  obtain ⟨baseA, sizeA⟩ := block a
  obtain ⟨baseB, sizeB⟩ := block b
  rcases Nat.lt_or_gt_of_ne distinct with before | after
  · obtain ⟨apart, small⟩ := below inA inB before
    refine (Memory.clear_of_below ?_ ?_).1
    · rwa [baseA, sizeA, baseB]
    · rw [baseB, sizeB]
      exact small.le
  · obtain ⟨apart, small⟩ := below inB inA after
    refine (Memory.clear_of_below ?_ ?_).2
    · rwa [baseA, sizeB, baseB]
    · rw [baseA, sizeA]
      exact small.le

theorem smallFinished_within (n : Str) :
    (smallFinished.state.baseOf n).toNat + (smallFinished.state.bytes n).length ≤ 2 ^ 24 := by
  have listed : ∀ n ∈ smallFinished.state.sections.keys,
      (smallFinished.state.baseOf n).toNat + (smallFinished.state.bytes n).length ≤ 2 ^ 24 := by
    decide +kernel
  by_cases known : n ∈ smallFinished.state.sections
  · exact listed n (Std.ExtTreeMap.mem_keys.mpr known)
  · have missing := Std.ExtTreeMap.getElem?_eq_none known
    simp [State.baseOf, State.bytes, State.sectionAt, missing]

theorem smallFinished_reaches (n : Str) : (smallFinished.state.baseOf n).toNat +
    (smallFinished.state.bytes n).length < 2 ^ (8 * ElfClass.elf64.addrBytes) :=
  Nat.lt_of_le_of_lt (smallFinished_within n) (by decide)

theorem smallFinished_floating : smallFinished.program.Floating := by decide +kernel

theorem smallFinished_grows : smallFinished.program.Grows :=
  smallFinished.program.grows_iff.mpr (by decide +kernel)

/-- Loading the written file puts every section with code or data at its base address, when no two
    of them overlap and the layout of the file can hold their addresses, and touches nothing
    else; the entry point is the address of the entry symbol, when the layout can hold it. -/
theorem file_loads_sections (c : ElfClass) {options : Options} {s : State} (order : s.SymbolOrder)
    {e : ElfBin c} {file : List Byte} (written : s.elfWriter c options order = .ok e)
    (kept : e.file = .ok file) (apart : s.Apart)
    (reaches : ∀ n, (s.sectionAt n).loadable = true → c.Reaches (s.baseOf n)) (mem : Memory) :
    (∀ n, (s.sectionAt n).loadable = true →
      (load c file mem).read (s.baseOf n) (s.bytes n).length = s.bytes n) ∧
    (∀ a, (∀ n, (s.sectionAt n).loadable = true → (s.bytes n).length ≤ (a - s.baseOf n).toNat) →
      load c file mem a = mem a) ∧
    ∃ entry, s.addressOf options.entry = .ok entry ∧
      (c.Reaches entry → entryPoint c file = entry) := by
  obtain ⟨loaded, entry⟩ := load_written written kept reaches mem
  rw [loaded]
  refine ⟨fun n => apart.read mem, fun a outside => ?_, entry⟩
  refine Memory.storeAll_outside mem ?_
  rintro _ member
  obtain ⟨n, loadable, rfl⟩ := State.mem_blocks.mp member
  exact outside n loadable

theorem small_file_loads : ∃ (e : ElfBin .elf64) (file : List Byte),
    smallFinished.state.elfWriter .elf64 {} smallFinished.state.mapOrder = .ok e ∧
    e.file = .ok file ∧
    (load .elf64 file fun _ => 1).read 0x100000 4 = [0x67, 0x80, 0, 0] ∧
    load .elf64 file (fun _ => 1) 0x2000000 = 1 ∧ entryPoint .elf64 file = 0x100000 := by
  obtain ⟨e, run, kept⟩ := smallFinished_written
  obtain ⟨entry, w⟩ := State.Written.of_ok run
  have file := w.file_eq (w.fits_of_size kept)
  obtain ⟨placed, outside, entry', known, point⟩ := file_loads_sections .elf64 _ run file
    (smallFinished.apart smallFinished_floating (by decide +kernel))
    (fun n _ => Nat.lt_of_le_of_lt (Nat.le_add_right _ _) (smallFinished_reaches n)) fun _ => 1
  have text : (smallFinished.state.sectionAt (lit ".text")).loadable = true ∧
      smallFinished.state.baseOf (lit ".text") = 0x100000 ∧
      smallFinished.state.bytes (lit ".text") = [0x67, 0x80, 0, 0] := by decide +kernel
  have here := placed (lit ".text") text.1
  rw [text.2.1, text.2.2] at here
  have above : ∀ (b : BitVec 128) (len : Nat), b.toNat + len ≤ 2 ^ 24 →
      len ≤ (0x2000000 - b).toNat := by
    intro b len below
    have inside : b.toNat ≤ (0x2000000 : BitVec 128).toNat := by
      change _ ≤ 2 ^ 25
      omega
    rw [BitVec.toNat_sub_of_le (BitVec.le_def.mpr inside)]
    change len ≤ 2 ^ 25 - b.toNat
    omega
  refine ⟨e, e.bin, run, file, here, outside 0x2000000 fun n _ => above _ _ (smallFinished_within n), ?_⟩
  cases smallFinished_facts.1.symm.trans known
  exact point (by decide)

theorem Finished.label_within {env : Env} {options : Options} (f : Finished env options)
    (grows : f.program.Grows) {name : Str} {label : SymbolLocation}
    (found : f.state.lookup[name]? = some label) :
    label.offset ≤ (f.state.bytes label.sect).length := by
  have within := execAll_within (f.program.grows_iff.mp grows) f.program.ran (new_within options)
  have place := f.place name
  rw [found, Option.map_some] at place
  obtain ⟨old, there, same⟩ := Option.map_eq_some_iff.mp place.symm
  have sect : old.sect = label.sect := congrArg Prod.fst same
  have offset : old.offset = label.offset := congrArg Prod.snd same
  rw [← offset, ← sect, f.sizes]
  cases known : f.program.final.state.lookup[name]? with
  | some loc =>
    rw [known, Option.some_or] at there
    cases there
    exact within.labels name old known
  | none =>
    rw [known, Option.none_or] at there
    split at there
    · cases there
      exact Nat.le_refl _
    · cases there

/-- From the source to a running machine: what starts at the entry point of the loaded file runs
    the program with labels from the entry label on. No statement cuts its section off, and the
    sections follow each other without an .org, below 2^128 and where the layout of the file
    reaches. -/
theorem loaded_file_runs (c : ElfClass) {env : Env} {options : Options} (f : Finished env options)
    (grows : f.program.Grows) (floating : f.program.Floating)
    (fits : f.program.final.state.LayoutFits)
    (reaches : ∀ n, (f.state.baseOf n).toNat + (f.state.bytes n).length < 2 ^ (8 * c.addrBytes))
    (order : f.state.SymbolOrder) {e : ElfBin c} {file : List Byte}
    (written : f.state.elfWriter c options order = .ok e) (kept : e.file = .ok file) {μ : Type}
    (isa : Isa μ) (mem : Memory) :
    f.map.target options.entry = some (entryPoint c file) ∧ ∀ regs s k b,
      steps (isa.step (load c file mem)) k (⟨entryPoint c file, regs⟩, s) = some b →
      Follows isa (load c file mem) f.program.statements f.map k (⟨entryPoint c file, regs⟩, s) := by
  have based : ∀ n, c.Reaches (f.state.baseOf n) := fun n =>
    Nat.lt_of_le_of_lt (Nat.le_add_right _ _) (reaches n)
  obtain ⟨loaded, entry, known, point⟩ := load_written written kept (fun n _ => based n) mem
  have stored : f.state.Stored (load c file mem) := by
    intro n code
    rw [loaded]
    exact (f.apart floating fits).read mem (by rw [Section.loadable, code, Bool.true_or])
  refine ⟨?_, fun regs s k b ran => follows f grows isa stored ran⟩
  rw [State.addressOf] at known
  split at known
  · rename_i sym found
    cases known
    have inside := f.label_within grows found
    have near := reaches sym.sect
    rw [point, Finished.map, ← f.linkMap_eq grows]
    · exact State.linkMap_target found
    · change ((f.state.baseOf sym.sect + BitVec.ofNat 128 sym.offset).toNat < _)
      have small := Nat.mod_le ((f.state.baseOf sym.sect).toNat + sym.offset % 2 ^ 128) (2 ^ 128)
      have cut := Nat.mod_le sym.offset (2 ^ 128)
      rw [BitVec.toNat_add, BitVec.toNat_ofNat]
      omega
  · cases known

theorem small_file_runs : ∃ (e : ElfBin .elf64) (file : List Byte),
    smallFinished.state.elfWriter .elf64 {} smallFinished.state.mapOrder = .ok e ∧
    e.file = .ok file ∧
    smallFinished.map.target ({} : Options).entry = some (entryPoint .elf64 file) ∧ ∀ regs k b,
      steps (bareIsa.step (load .elf64 file fun _ => 0)) k (⟨entryPoint .elf64 file, regs⟩, ()) =
        some b →
      Follows bareIsa (load .elf64 file fun _ => 0) smallFinished.program.statements
        smallFinished.map k (⟨entryPoint .elf64 file, regs⟩, ()) := by
  obtain ⟨e, run, kept⟩ := smallFinished_written
  obtain ⟨entry, w⟩ := State.Written.of_ok run
  have file := w.file_eq (w.fits_of_size kept)
  obtain ⟨target, runs⟩ := loaded_file_runs .elf64 smallFinished smallFinished_grows
    smallFinished_floating (by decide +kernel) smallFinished_reaches _ run file bareIsa fun _ => 0
  exact ⟨e, e.bin, run, file, target, fun regs k b ran => runs regs () k b ran⟩

end BigAsm
