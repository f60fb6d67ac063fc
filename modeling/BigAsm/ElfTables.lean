import Mathlib
import BigAsm.ElfImage
import BigAsm.Finished

/- The written file, read back by the rules of the format: program headers and segments, the
   symbol table with its strings, and the bindings; and how large elfbin grows meanwhile. -/
namespace BigAsm
open ByteStore CData Runs

variable {c : ElfClass} {s : State} {order : s.SymbolOrder}

theorem State.addressOf_of_elfWriter {options : Options} {e : ElfBin c}
    (run : s.elfWriter c options order = .ok e) :
    ∃ entry, s.addressOf options.entry = .ok entry := by
  obtain ⟨t, first, -⟩ := map_ok_iff.mp run
  obtain ⟨entry, known, -⟩ := bind_ok_iff.mp first
  exact ⟨entry, known⟩

namespace State.Written
variable {entry : BitVec 128} {e : ElfBin c}

theorem of_ok {options : Options} (run : s.elfWriter c options order = .ok e) :
    ∃ entry, s.Written c order entry e := by
  obtain ⟨entry, known⟩ := addressOf_of_elfWriter run
  obtain ⟨e', run', written⟩ := elfWriter_written c order known
  cases run.symm.trans run'
  exact ⟨entry, written⟩

theorem phdr_length (w : s.Written c order entry e) : e.data.phdr.length = s.sections.size := by
  rw [w.phdr, programs_length, sectionList_length]

theorem encode_length (w : s.Written c order entry e) : e.data.encode.length = s.namesAt c := by
  rw [ElfData.encode_length, w.phdr_length, namesAt]

def tables (c : ElfClass) (s : State) (order : s.SymbolOrder) : List Byte :=
  0 :: terminated sectionNames ++ (0 :: terminated order.names) ++
    ({} :: s.symbolEntries c 1 order.symbols).flatMap CStruct.encode

theorem tables_length : s.namesAt c + (tables c s order).length = s.programsAt c order := by
  have fixed : (0 :: terminated sectionNames).length = 27 := by decide
  simp only [tables, List.length_append, fixed, CStruct.encodes_length, List.length_cons,
    symbolEntries_length, programsAt, symbolsAt, stringsAt]
  omega

theorem bin_eq (w : s.Written c order entry e) : e.bin = e.data.encode ++ tables c s order ++
    s.sectionList.flatMap fun sect => sect.output.bytes := by
  simp only [ElfBin.bin, w.rest, tables, List.append_assoc]

theorem size_eq (w : s.Written c order entry e) :
    e.size = s.programsAt c order + (s.sectionList.map Section.size).sum := by
  rw [ElfBin.size, w.bin_eq, List.length_append, List.length_append, w.encode_length,
    tables_length, List.length_flatMap]
  rfl

theorem namesAt_lt : s.namesAt c < s.lastHeaderAt c order := by
  rw [lastHeaderAt, programsAt, symbolsAt, stringsAt]
  omega

theorem fits_iff (w : s.Written c order entry e) :
    (∀ n ∈ e.writes, n ≤ e.capacity) ↔ s.lastHeaderAt c order ≤ 262144 := by
  have more := @namesAt_lt c s order
  rw [w.writes, w.capacity]
  omega

theorem fits_of_size (w : s.Written c order entry e) (kept : e.size ≤ e.capacity) :
    s.lastHeaderAt c order ≤ 262144 := by
  refine w.fits_iff.mp (w.writes.mpr (Nat.le_trans ?_ kept))
  rw [w.size_eq, lastHeaderAt]
  exact Nat.add_le_add_left ((List.dropLast_sublist _).map _ |>.sum_le_sum (by simp)) _

theorem file_eq (w : s.Written c order entry e) (fits : s.lastHeaderAt c order ≤ 262144) :
    e.file = .ok e.bin := if_pos (w.fits_iff.mpr fits)

theorem sections_few (fits : s.lastHeaderAt c order ≤ 262144) : s.sections.size < 2 ^ 16 := by
  have more := @namesAt_lt c s order
  have each : 56 ≤ CStruct.size (Phdr c) := by cases c <;> decide
  have all := Nat.mul_le_mul_left s.sections.size each
  rw [namesAt, ElfData.length] at more
  omega

theorem readEhdr_eq (w : s.Written c order entry e) :
    readEhdr c e.bin = elfHeader c entry s.sections.size := by
  have front : window 0 (CStruct.size (Ehdr c)) e.bin = CStruct.encode e.data.hdr := by
    rw [ElfBin.bin, ElfData.encode, List.append_assoc, List.append_assoc, window, List.drop_zero,
      List.take_left' (CStruct.encode_length _)]
  rw [readEhdr, front, CStruct.decode_encode, w.hdr]

theorem sectionHeaders_eq (w : s.Written c order entry e) :
    sectionHeaders c e.bin = e.data.shdr.toList := by
  have start : (elfHeader c entry s.sections.size).shoff.toNat = ElfData.shdrOffset c := by
    cases c <;> rfl
  have stride : (elfHeader c entry s.sections.size).shentsize.toNat = CStruct.size (Shdr c) := by
    cases c <;> rfl
  have count : (elfHeader c entry s.sections.size).shnum.toNat = e.data.shdr.toList.length := by
    rw [Vector.length_toList]
    rfl
  rw [sectionHeaders, w.readEhdr_eq, start, stride, count]
  refine CStruct.table_of_encodes (CStruct.encode e.data.hdr)
    (e.data.phdr.flatMap CStruct.encode ++ e.rest) ?_ ?_
  · simp only [ElfBin.bin, ElfData.encode, List.append_assoc]
  · rw [CStruct.encode_length, ElfData.shdrOffset]

theorem programHeaders_eq (w : s.Written c order entry e) (few : s.sections.size < 2 ^ 16) :
    programHeaders c e.bin = e.data.phdr := by
  have start : (elfHeader c entry s.sections.size).phoff.toNat = ElfData.phdrOffset c := by
    cases c <;> rfl
  have stride : (elfHeader c entry s.sections.size).phentsize.toNat = CStruct.size (Phdr c) := by
    cases c <;> rfl
  have count : (elfHeader c entry s.sections.size).phnum.toNat = e.data.phdr.length := by
    rw [w.phdr_length]
    exact (BitVec.toNat_ofNat ..).trans (Nat.mod_eq_of_lt few)
  rw [programHeaders, w.readEhdr_eq, start, stride, count]
  refine CStruct.table_of_encodes
    (CStruct.encode e.data.hdr ++ e.data.shdr.toList.flatMap CStruct.encode) e.rest ?_ ?_
  · simp only [ElfBin.bin, ElfData.encode, List.append_assoc]
  · rw [List.length_append, CStruct.encode_length, CStruct.encodes_length, Vector.length_toList,
      ElfData.phdrOffset, ElfData.shdrOffset]

end State.Written

structure Segment (c : ElfClass) (file : List Byte) (p : Phdr c) (sect : Section) : Prop where
  type : p.type = PT_LOAD
  inside : p.offset.toNat + p.filesz.toNat ≤ file.length
  contents : window p.offset.toNat p.filesz.toNat file = sect.output.bytes
  vaddr : p.vaddr = sect.baseAddress.setWidth _

theorem ofNat_addr_toNat {n : Nat} (fits : n < 2 ^ 64) :
    (BitVec.ofNat (8 * c.addrBytes) n).toNat = n := by
  have wide : 2 ^ 64 ≤ 2 ^ (8 * c.addrBytes) := by cases c <;> decide
  exact (BitVec.toNat_ofNat ..).trans (Nat.mod_eq_of_lt (by omega))

theorem programs_segments (sections : List Section) (front : List Byte) {offset : Nat}
    (at_ : offset = front.length)
    (fits : offset + (sections.dropLast.map Section.size).sum < 2 ^ 64) :
    List.Forall₂ (fun (p : Phdr c) sect => sect.loadable →
        Segment c (front ++ sections.flatMap fun sect => sect.output.bytes) p sect)
      (programs c offset sections) sections := by
  induction sections generalizing front offset with
  | nil => exact .nil
  | cons sect sections ih =>
    have start : (sect.programHeader c offset).offset.toNat = offset :=
      ofNat_addr_toNat (Nat.lt_of_le_of_lt (Nat.le_add_right _ _) fits)
    refine .cons (fun loadable => ?_) ?_
    · have short : sect.size ≤ maxSize := sect.output.fits
      have filesz : (sect.programHeader c offset).filesz.toNat = sect.size := by
        simp only [Section.programHeader, loadable, if_true]
        exact ofNat_addr_toNat (Nat.lt_of_le_of_lt short (by decide))
      refine ⟨if_pos loadable, ?_, ?_, rfl⟩
      · rw [start, filesz, at_, List.flatMap_cons, List.length_append, List.length_append]
        exact Nat.add_le_add_left (Nat.le_add_right _ _) _
      · rw [start, filesz, at_, List.flatMap_cons, ← List.append_assoc]
        change window front.length sect.output.bytes.length _ = _
        rw [window_append_left (by simp), window_at_end]
    · cases sections with
      | nil => exact .nil
      | cons next sections =>
        rw [List.dropLast_cons_cons, List.map_cons, List.sum_cons] at fits
        have later := @ih (front ++ sect.output.bytes) (offset + sect.size)
          (by rw [at_, List.length_append]; rfl) (by omega)
        rwa [List.append_assoc] at later

/-- Elf_Writer's file, as long as elfbin stays where it was reserved. -/
theorem segments_decode (c : ElfClass) {options : Options} {s : State} (order : s.SymbolOrder)
    {e : ElfBin c} (written : s.elfWriter c options order = .ok e) (kept : e.size ≤ e.capacity) :
    ∃ file, e.file = .ok file ∧ List.Forall₂
      (fun (p : Phdr c) sect => sect.code ∨ sect.data → Segment c file p sect)
      (programHeaders c file) (s.sections.toList.map Prod.snd) := by
  obtain ⟨entry, w⟩ := State.Written.of_ok written
  have fits := w.fits_of_size kept
  refine ⟨e.bin, w.file_eq fits, ?_⟩
  rw [w.programHeaders_eq (State.Written.sections_few fits), w.phdr, w.bin_eq]
  refine (programs_segments s.sectionList (e.data.encode ++ State.Written.tables c s order)
    ?_ (Nat.lt_of_le_of_lt fits (by decide))).imp fun p sect segment loaded => segment ?_
  · rw [List.length_append, w.encode_length, State.Written.tables_length]
  · simpa [Section.loadable] using loaded

def State.mapOrder (s : State) : s.SymbolOrder := ⟨s.lookup.toList, .refl _⟩

def smallProgram : Program Env.noFiles {} :=
  .ofSource {} (lit "_start: ret\n.section .data\ncounter: dw 7") (by decide +kernel)

def smallFinished : Finished Env.noFiles {} where
  program := smallProgram
  state := result smallProgram.final.state.finish
  done := eq_ok_result (by decide +kernel)

theorem smallFinished_facts :
    smallFinished.state.addressOf ({} : Options).entry = .ok 0x100000 ∧
    smallFinished.state.programsAt .elf64 smallFinished.state.mapOrder +
      (smallFinished.state.sectionList.map Section.size).sum ≤ 262144 ∧
    (∀ name ∈ smallFinished.state.lookup.keys, (0 : Byte) ∉ name) ∧
    ∀ name ∈ smallFinished.state.lookup.keys, name ∉ smallFinished.state.globals := by
  decide +kernel

theorem smallFinished_written : ∃ e,
    smallFinished.state.elfWriter .elf64 {} smallFinished.state.mapOrder = .ok e ∧
      e.size ≤ e.capacity := by
  obtain ⟨entry, fits, -⟩ := smallFinished_facts
  obtain ⟨e, run, w⟩ := @State.elfWriter_written .elf64 {} _ smallFinished.state.mapOrder _ entry
  refine ⟨e, run, ?_⟩
  rw [w.size_eq, w.capacity]
  exact fits.trans (Nat.le_max_left _ _)

theorem small_segments_decode : ∃ e file,
    smallFinished.state.elfWriter .elf64 {} smallFinished.state.mapOrder = .ok e ∧
    e.file = .ok file ∧ List.Forall₂
    (fun (p : Phdr .elf64) sect => sect.code ∨ sect.data → Segment .elf64 file p sect)
    (programHeaders .elf64 file) (smallFinished.state.sections.toList.map Prod.snd) := by
  obtain ⟨e, run, kept⟩ := smallFinished_written
  obtain ⟨file, decoded⟩ := segments_decode .elf64 smallFinished.state.mapOrder run kept
  exact ⟨e, file, run, decoded⟩

/-- Header fields are written before elfbin moves: up to the last program header it may grow
    to what was reserved. Without the entry symbol the writer stops at the file header. -/
theorem headers_within_capacity_iff (c : ElfClass) (options : Options) (s : State)
    (order : s.SymbolOrder) :
    (∀ e, s.elfWriter c options order = .ok e → ∀ n ∈ e.writes, n ≤ e.capacity) ↔
      s.lookup[options.entry]? = none ∨ s.lastHeaderAt c order ≤ 262144 := by
  constructor
  · intro every
    cases found : s.lookup[options.entry]? with
    | none => exact Or.inl rfl
    | some sym =>
      have known : s.addressOf options.entry = .ok (s.address sym) := by
        rw [State.addressOf, found]
      obtain ⟨e, run, w⟩ := State.elfWriter_written c order known
      exact Or.inr (w.fits_iff.mp (every e run))
  · rintro (missing | fits) e run
    · obtain ⟨entry, known⟩ := State.addressOf_of_elfWriter run
      rw [State.addressOf, missing] at known
      cases known
    · obtain ⟨entry, w⟩ := State.Written.of_ok run
      exact w.fits_iff.mpr fits

def largeProgram : Program Env.noFiles {} :=
  .ofSource {} (lit "_start: ret\n.section .a\nresb 262144") (by decide +kernel)

def largeFinished : Finished Env.noFiles {} where
  program := largeProgram
  state := result largeProgram.final.state.finish
  done := eq_ok_result (by decide +kernel)

theorem large_size : (largeFinished.state.bytes (lit ".a")).length = 262144 := by
  obtain ⟨first, order, indexed, -⟩ := (State.Reachable.ofProgram largeProgram).anchored
  have same := State.finish_sizes indexed largeFinished.done (lit ".a")
  have last : largeProgram.statements =
      largeProgram.statements.dropLast ++ [.resb 262144] := by decide +kernel
  have ran := largeProgram.ran
  rw [last] at ran
  obtain ⟨m, started, step⟩ := run_append_iff.mp ran
  have before : execAll (State.new {}) largeProgram.statements.dropLast = .ok m := started
  have here : (result (execAll (State.new {}) largeProgram.statements.dropLast)).current = lit ".a" ∧
      (result (execAll (State.new {}) largeProgram.statements.dropLast)).bytes (lit ".a") = [] := by
    decide +kernel
  rw [before] at here
  have grown := (Statement.exec_effect (run_single_iff.mp step)).bytes (lit ".a")
  change m.current = lit ".a" ∧ m.bytes (lit ".a") = [] at here
  rw [here.1, if_pos rfl, here.2] at grown
  rw [same, grown]
  exact Buffer.resized_length _ _

theorem large_section_outgrows_headers : ¬ ∀ (f : Finished Env.noFiles {})
    (order : f.state.SymbolOrder) (e : ElfBin .elf64),
    f.state.elfWriter .elf64 {} order = .ok e → ∀ n ∈ e.writes, n ≤ e.capacity := by
  intro every
  have facts : largeFinished.state.addressOf ({} : Options).entry = .ok 0x100000 ∧
      largeFinished.state.sections.keys = [lit ".a", lit ".text"] := by decide +kernel
  obtain ⟨known, keys⟩ := facts
  obtain ⟨e, run, w⟩ := @State.elfWriter_written .elf64 {} _ largeFinished.state.mapOrder _ known
  have fits := w.fits_iff.mp (every largeFinished _ e run)
  rw [← Std.ExtTreeMap.map_fst_toList_eq_keys] at keys
  -- the section is not the last one, so its bytes come before a header
  obtain ⟨x, y, both⟩ : ∃ x y, largeFinished.state.sections.toList = [(lit ".a", x), y] := by
    rcases entries : largeFinished.state.sections.toList with _ | ⟨⟨n, x⟩, _ | ⟨y, _ | ⟨z, rest⟩⟩⟩
    · rw [entries] at keys
      cases keys
    · rw [entries] at keys
      cases keys
    · rw [entries] at keys
      cases (List.cons.inj keys).1
      exact ⟨x, y, rfl⟩
    · rw [entries] at keys
      cases (List.cons.inj (List.cons.inj keys).2).2
  have found : largeFinished.state.sections[lit ".a"]? = some x :=
    Std.ExtTreeMap.mem_toList_iff_getElem?_eq_some.mp (by rw [both]; simp)
  have size : x.size = 262144 := by
    have same := large_size
    rw [State.bytes, State.sectionAt_of_getElem? found] at same
    exact same
  have before : largeFinished.state.sectionList.dropLast = [x] := by
    rw [State.sectionList, both]
    rfl
  rw [State.lastHeaderAt, before, List.map_singleton, List.sum_singleton, size, State.programsAt,
    State.symbolsAt, State.stringsAt] at fits
  omega

namespace State.Written
variable {entry : BitVec 128} {e : ElfBin c}

theorem parts_small (fits : s.lastHeaderAt c order ≤ 262144) :
    s.namesAt c + 27 + 1 + (terminated order.names).length +
      (order.symbols.length + 1) * CStruct.size (Sym c) ≤ 262144 := by
  rw [lastHeaderAt, programsAt, symbolsAt, stringsAt] at fits
  omega

theorem sectionHeaders_list (w : s.Written c order entry e) : sectionHeaders c e.bin =
    [{}, stringShdr c 1 (s.namesAt c) 27,
      symbolShdr c 11 (s.symbolsAt c order) (order.symbols.length + 1),
      stringShdr c 19 (s.stringsAt c) (1 + (terminated order.names).length)] := by
  rw [w.sectionHeaders_eq, w.shdr]
  rfl

theorem stringShdr_contents {name offset size : Nat} (front more : List Byte)
    {bs file : List Byte} (split : file = front ++ bs ++ more) (at_ : offset = front.length) (length : size = bs.length)
    (fits : offset + size ≤ 262144) : (stringShdr c name offset size).contents file = bs := by
  have start : (stringShdr c name offset size).offset.toNat = front.length :=
    (ofNat_addr_toNat (by omega)).trans at_
  have long : (stringShdr c name offset size).size.toNat = bs.length :=
    (ofNat_addr_toNat (by omega)).trans length
  rw [Shdr.contents, start, long, split, window_append_left (by simp), window_at_end]

theorem names_contents (w : s.Written c order entry e) (fits : s.lastHeaderAt c order ≤ 262144) :
    (stringShdr c 1 (s.namesAt c) 27).contents e.bin = 0 :: terminated sectionNames := by
  have small := parts_small fits
  refine stringShdr_contents e.data.encode ((0 :: terminated order.names) ++
      (({} :: s.symbolEntries c 1 order.symbols).flatMap CStruct.encode ++
        s.sectionList.flatMap fun sect => sect.output.bytes)) ?_ w.encode_length.symm rfl (by omega)
  simp only [w.bin_eq, tables, List.append_assoc]

theorem strings_contents (w : s.Written c order entry e) (fits : s.lastHeaderAt c order ≤ 262144) :
    (stringShdr c 19 (s.stringsAt c) (1 + (terminated order.names).length)).contents e.bin =
      0 :: terminated order.names := by
  have small := parts_small fits
  refine stringShdr_contents (e.data.encode ++ (0 :: terminated sectionNames))
    (({} :: s.symbolEntries c 1 order.symbols).flatMap CStruct.encode ++
        s.sectionList.flatMap fun sect => sect.output.bytes) ?_ ?_ ?_ ?_
  · simp only [w.bin_eq, tables, List.append_assoc]
  · rw [List.length_append, w.encode_length]
    rfl
  · rw [List.length_cons, Nat.add_comm]
  · rw [stringsAt]
    omega

theorem symbols_eq (w : s.Written c order entry e) (fits : s.lastHeaderAt c order ≤ 262144) :
    (symbolShdr c 11 (s.symbolsAt c order) (order.symbols.length + 1)).symbols e.bin =
      {} :: s.symbolEntries c 1 order.symbols := by
  have small := parts_small fits
  have least : s.symbolsAt c order < 2 ^ 64 := by
    rw [symbolsAt, stringsAt]
    omega
  have each : 0 < CStruct.size (Sym c) ∧ CStruct.size (Sym c) < 2 ^ 64 := by cases c <;> decide
  have start : (symbolShdr c 11 (s.symbolsAt c order) (order.symbols.length + 1)).offset.toNat =
      s.symbolsAt c order := ofNat_addr_toNat least
  have stride : (symbolShdr c 11 (s.symbolsAt c order) (order.symbols.length + 1)).entsize.toNat =
      CStruct.size (Sym c) := ofNat_addr_toNat each.2
  have size : (symbolShdr c 11 (s.symbolsAt c order) (order.symbols.length + 1)).size.toNat =
      (order.symbols.length + 1) * CStruct.size (Sym c) := ofNat_addr_toNat (by omega)
  have count : order.symbols.length + 1 =
      (({} : Sym c) :: s.symbolEntries c 1 order.symbols).length := by
    rw [List.length_cons, symbolEntries_length]
  rw [Shdr.symbols, start, stride, size, Nat.mul_div_cancel _ each.1, count]
  refine CStruct.table_of_encodes
    (e.data.encode ++ (0 :: terminated sectionNames ++ (0 :: terminated order.names)))
    (s.sectionList.flatMap fun sect => sect.output.bytes) ?_ ?_
  · simp only [w.bin_eq, tables, List.append_assoc]
  · have fixed : (0 :: terminated sectionNames).length = 27 := by decide
    rw [List.length_append, List.length_append, fixed, w.encode_length, List.length_cons, symbolsAt,
      stringsAt]
    omega

theorem sectionName_eq (w : s.Written c order entry e) (fits : s.lastHeaderAt c order ≤ 262144)
    (sh : Shdr c) : sectionName c e.bin sh =
      untilNul ((0 :: terminated sectionNames).drop sh.name.toNat) := by
  have index : (elfHeader c entry s.sections.size).shstrndx.toNat = 1 := rfl
  rw [sectionName, w.readEhdr_eq, index, w.sectionHeaders_list]
  change (stringShdr c 1 (s.namesAt c) 27).stringAt e.bin sh.name.toNat = _
  rw [Shdr.stringAt, w.names_contents fits]

theorem sectionName_names (w : s.Written c order entry e)
    (fits : s.lastHeaderAt c order ≤ 262144) :
    (sectionHeaders c e.bin).map (sectionName c e.bin) = [] :: sectionNames := by
  have name : ∀ sh, sectionName c e.bin sh = _ := w.sectionName_eq fits
  rw [w.sectionHeaders_list]
  simp only [List.map_cons, List.map_nil, name]
  change [untilNul ((0 :: terminated sectionNames).drop 0),
    untilNul ((0 :: terminated sectionNames).drop 1),
    untilNul ((0 :: terminated sectionNames).drop 11),
    untilNul ((0 :: terminated sectionNames).drop 19)] = _
  decide

theorem symtab_eq (w : s.Written c order entry e) (fits : s.lastHeaderAt c order ≤ 262144) :
    sectionNamed c e.bin (lit ".symtab") =
      some (symbolShdr c 11 (s.symbolsAt c order) (order.symbols.length + 1)) := by
  have names := w.sectionName_names fits
  rw [w.sectionHeaders_list] at names
  simp only [List.map_cons, List.map_nil, sectionNames, List.cons.injEq, and_true] at names
  obtain ⟨none, first, second, -⟩ := names
  rw [sectionNamed, w.sectionHeaders_list]
  rw [List.find?_cons_of_neg (by rw [none]; decide), List.find?_cons_of_neg (by rw [first]; decide),
    List.find?_cons_of_pos (by rw [second]; decide)]

theorem strtab_eq (w : s.Written c order entry e) :
    (sectionHeaders c e.bin)[
      (symbolShdr c 11 (s.symbolsAt c order) (order.symbols.length + 1)).link.toNat]? =
      some (stringShdr c 19 (s.stringsAt c) (1 + (terminated order.names).length)) := by
  rw [w.sectionHeaders_list]
  rfl

end State.Written

/-- What an entry of the symbol table says of a symbol, its name in the string table included. -/
structure Entry (s : State) (strtab : Shdr c) (file : List Byte) (sym : Sym c)
    (symbol : Str × SymbolLocation) : Prop where
  name : strtab.stringAt file sym.name.toNat = symbol.1
  value : sym.value = (s.address symbol.2).setWidth _
  size : sym.size.toNat = symbol.2.size.toNat
  kind : sym.kind = symbol.2.type.toNat

theorem symbolEntry_kind (c : ElfClass) (s : State) (offset : Nat) {sym : SymbolLocation} (typed : sym.type.toNat ≤ 2) :
    (s.symbolEntry c offset sym).kind = sym.type.toNat ∧
      (s.symbolEntry c offset sym).bind = STB_LOCAL := by
  have info : (s.symbolEntry c offset sym).info.toNat = sym.type.toNat := by
    change (sym.type.setWidth 8).toNat = _
    rw [BitVec.toNat_setWidth]
    omega
  rw [Sym.kind, Sym.bind, info, STB_LOCAL]
  omega

theorem symbolEntries_entries {strtab : Shdr c} {file : List Byte} {names : List Str}
    (front : List Str) {symbols : List (Str × SymbolLocation)} {offset : Nat}
    (contents : strtab.contents file = 0 :: terminated names) (few : (terminated names).length < 2 ^ 31)
    (split : names = front ++ symbols.map Prod.fst) (at_ : offset = 1 + (terminated front).length)
    (plain : ∀ symbol ∈ symbols, (0 : Byte) ∉ symbol.1)
    (typed : ∀ symbol ∈ symbols, symbol.2.type.toNat ≤ 2) :
    List.Forall₂ (Entry s strtab file) (s.symbolEntries c offset symbols) symbols := by
  induction symbols generalizing front offset with
  | nil => exact .nil
  | cons symbol symbols ih =>
    obtain ⟨name, sym⟩ := symbol
    have before : (terminated front).length ≤ (terminated names).length := by
      rw [split, terminated, terminated, List.flatMap_append, List.length_append]
      exact Nat.le_add_right _ _
    have kind := (symbolEntry_kind c s offset (typed (name, sym) (by simp))).1
    refine .cons ⟨?_, rfl, ?_, kind⟩ ?_
    · have index : (s.symbolEntry c offset sym).name.toNat = (terminated front).length + 1 := by
        refine (BitVec.toNat_ofNat ..).trans ?_
        rw [Nat.mod_eq_of_lt (by omega), at_, Nat.add_comm]
      have found := untilNul_terminated front (symbols.map Prod.fst)
        (plain (name, sym) (by simp)) []
      rw [List.append_nil] at found
      rw [Shdr.stringAt, contents, index, List.drop_succ_cons, split]
      exact found
    · change (sym.size.setWidth (8 * c.addrBytes)).toNat = _
      rw [BitVec.toNat_setWidth]
      have wide : 2 ^ 64 ≤ 2 ^ (8 * c.addrBytes) := by cases c <;> decide
      exact Nat.mod_eq_of_lt (Nat.lt_of_lt_of_le sym.size.isLt wide)
    · refine @ih (front ++ [name]) _ (by simpa using split) ?_ (fun s mem => plain s (by simp [mem]))
        fun s mem => typed s (by simp [mem])
      rw [at_]
      simp [terminated, Nat.add_assoc]

theorem SymbolOrder_typed {env : Env} {options : Options} (f : Finished env options)
    (order : f.state.SymbolOrder) : ∀ symbol ∈ order.symbols, symbol.2.type.toNat ≤ 2 := by
  intro symbol mem
  have known := order.perm.mem_iff.mp mem
  exact f.typed symbol.1 symbol.2 (Std.ExtTreeMap.mem_toList_iff_getElem?_eq_some.mp known)

/-- The symbol table and the string tables of the file, read through the section headers. -/
theorem symbols_decode (c : ElfClass) {env : Env} {options : Options} (f : Finished env options)
    (order : f.state.SymbolOrder) {e : ElfBin c}
    (written : f.state.elfWriter c options order = .ok e) (kept : e.size ≤ e.capacity)
    (plain : ∀ name, name ∈ f.state.lookup → (0 : Byte) ∉ name) :
    ∃ file symtab strtab entries, e.file = .ok file ∧
      (sectionHeaders c file).map (sectionName c file) =
        [[], lit ".shstrtab", lit ".symtab", lit ".strtab"] ∧
      sectionNamed c file (lit ".symtab") = some symtab ∧
      (sectionHeaders c file)[symtab.link.toNat]? = some strtab ∧
      sectionName c file strtab = lit ".strtab" ∧
      symtab.symbols file = {} :: entries ∧
      List.Forall₂ (Entry f.state strtab file) entries order.symbols := by
  obtain ⟨entry, w⟩ := State.Written.of_ok written
  have fits := w.fits_of_size kept
  have small := State.Written.parts_small fits
  refine ⟨e.bin, _, _, _, w.file_eq fits, w.sectionName_names fits, w.symtab_eq fits, w.strtab_eq,
    ?_, w.symbols_eq fits, ?_⟩
  · rw [w.sectionName_eq fits]
    change untilNul ((0 :: terminated State.sectionNames).drop 19) = _
    decide
  · refine symbolEntries_entries [] (w.strings_contents fits) (by omega) rfl rfl
      ((order.forall_names fun name => 0 ∉ name).mpr plain) (SymbolOrder_typed f order)

theorem small_symbols_decode : ∃ e file symtab strtab entries,
    smallFinished.state.elfWriter .elf64 {} smallFinished.state.mapOrder = .ok e ∧
      e.file = .ok file ∧
      (sectionHeaders .elf64 file).map (sectionName .elf64 file) =
        [[], lit ".shstrtab", lit ".symtab", lit ".strtab"] ∧
      sectionNamed .elf64 file (lit ".symtab") = some symtab ∧
      (sectionHeaders .elf64 file)[symtab.link.toNat]? = some strtab ∧
      sectionName .elf64 file strtab = lit ".strtab" ∧
      symtab.symbols file = {} :: entries ∧
      List.Forall₂ (Entry smallFinished.state strtab file) entries
        smallFinished.state.mapOrder.symbols := by
  obtain ⟨e, run, kept⟩ := smallFinished_written
  obtain ⟨-, -, plain, -⟩ := smallFinished_facts
  obtain ⟨file, symtab, strtab, entries, decoded⟩ :=
    symbols_decode .elf64 smallFinished smallFinished.state.mapOrder run kept
      fun name known => plain name (Std.ExtTreeMap.mem_keys.mpr known)
  exact ⟨e, file, symtab, strtab, entries, run, decoded⟩

/-- The bindings a symbol table should have: those .global asks for, local entries first, and
    sh_info the index of the first entry that is not local. -/
structure BindingsFollow (c : ElfClass) (s : State) (order : s.SymbolOrder) (file : List Byte) :
    Prop where
  bindings : ∃ symtab entries, sectionNamed c file (lit ".symtab") = some symtab ∧
    symtab.symbols file = {} :: entries ∧
    List.Forall₂ (fun entry symbol =>
      entry.bind = if symbol.1 ∈ s.globals then STB_GLOBAL else STB_LOCAL) entries order.symbols
  ordered : ∀ symtab, sectionNamed c file (lit ".symtab") = some symtab →
    (symtab.symbols file).Pairwise fun a b => b.bind = STB_LOCAL → a.bind = STB_LOCAL
  info : ∀ symtab, sectionNamed c file (lit ".symtab") = some symtab →
    symtab.info.toNat = (symtab.symbols file).findIdx fun entry => entry.bind ≠ STB_LOCAL

theorem symbolEntries_local {symbols : List (Str × SymbolLocation)}
    (typed : ∀ symbol ∈ symbols, symbol.2.type.toNat ≤ 2) (offset : Nat) :
    ∀ entry ∈ s.symbolEntries c offset symbols, entry.bind = STB_LOCAL := by
  induction symbols generalizing offset with
  | nil => simp [State.symbolEntries]
  | cons symbol symbols ih =>
    intro entry mem
    rcases List.mem_cons.mp mem with rfl | later
    · exact (symbolEntry_kind c s offset (typed symbol (by simp))).2
    · exact ih (fun s mem => typed s (by simp [mem])) _ entry later

theorem forall₂_locals_iff {symbols : List (Str × SymbolLocation)}
    (typed : ∀ symbol ∈ symbols, symbol.2.type.toNat ≤ 2) (offset : Nat) :
    List.Forall₂ (fun (entry : Sym c) symbol =>
        entry.bind = if symbol.1 ∈ s.globals then STB_GLOBAL else STB_LOCAL)
      (s.symbolEntries c offset symbols) symbols ↔ ∀ symbol ∈ symbols, symbol.1 ∉ s.globals := by
  induction symbols generalizing offset with
  | nil => simp [State.symbolEntries]
  | cons symbol symbols ih =>
    have rest := ih (fun s mem => typed s (by simp [mem])) (offset + (symbol.1.length + 1))
    have local_ := (symbolEntry_kind c s offset (typed symbol (by simp))).2
    rw [List.forall_mem_cons, ← rest]
    change List.Forall₂ _ (s.symbolEntry c offset symbol.2 :: _) _ ↔ _
    rw [List.forall₂_cons, local_]
    by_cases global : symbol.1 ∈ s.globals <;> simp [global, STB_LOCAL, STB_GLOBAL]

theorem State.Written.follow_iff {entry : BitVec 128} {e : ElfBin c} (w : s.Written c order entry e)
    (fits : s.lastHeaderAt c order ≤ 262144)
    (typed : ∀ symbol ∈ order.symbols, symbol.2.type.toNat ≤ 2) :
    BindingsFollow c s order e.bin ↔ ∀ name, name ∈ s.lookup → name ∉ s.globals := by
  rw [← order.forall_names (· ∉ s.globals)]
  constructor
  · intro follow
    obtain ⟨symtab, entries, found, read, each⟩ := follow.bindings
    cases (w.symtab_eq fits).symm.trans found
    cases (w.symbols_eq fits).symm.trans read
    exact (forall₂_locals_iff typed 1).mp each
  · intro none
    have all : ∀ sym ∈ {} :: s.symbolEntries c 1 order.symbols, sym.bind = STB_LOCAL := by
      intro sym mem
      rcases List.mem_cons.mp mem with rfl | mem
      · simp [Sym.bind, STB_LOCAL]
      · exact symbolEntries_local typed 1 sym mem
    refine ⟨⟨_, _, w.symtab_eq fits, w.symbols_eq fits, (forall₂_locals_iff typed 1).mpr none⟩, ?_, ?_⟩
    · intro symtab found
      cases (w.symtab_eq fits).symm.trans found
      rw [w.symbols_eq fits]
      exact List.Pairwise.imp_of_mem (fun here _ _ _ => all _ here)
        (List.pairwise_of_forall fun _ _ => trivial)
    · intro symtab found
      cases (w.symtab_eq fits).symm.trans found
      have small := parts_small fits
      have some : 24 ≤ CStruct.size (Sym c) := by cases c <;> decide
      have many := Nat.mul_le_mul_left (order.symbols.length + 1) some
      rw [w.symbols_eq fits, List.findIdx_eq_length.mpr (by simpa using all), List.length_cons,
        symbolEntries_length]
      exact (BitVec.toNat_ofNat ..).trans (Nat.mod_eq_of_lt (by omega))

theorem bindings_follow_global_iff (c : ElfClass) {env : Env} {options : Options}
    (f : Finished env options) (order : f.state.SymbolOrder) {e : ElfBin c}
    (written : f.state.elfWriter c options order = .ok e) :
    (∃ file, e.file = .ok file ∧ BindingsFollow c f.state order file) ↔
      f.state.lastHeaderAt c order ≤ 262144 ∧
        ∀ name, name ∈ f.state.lookup → name ∉ f.state.globals := by
  obtain ⟨entry, w⟩ := State.Written.of_ok written
  have typed := SymbolOrder_typed f order
  constructor
  · rintro ⟨file, readable, follow⟩
    have fits : f.state.lastHeaderAt c order ≤ 262144 := by
      refine w.fits_iff.mp ?_
      by_contra late
      rw [ElfBin.file, if_neg late] at readable
      cases readable
    cases (w.file_eq fits).symm.trans readable
    exact ⟨fits, (w.follow_iff fits typed).mp follow⟩
  · rintro ⟨fits, none⟩
    exact ⟨e.bin, w.file_eq fits, (w.follow_iff fits typed).mpr none⟩

theorem small_bindings_follow : ∃ e,
    smallFinished.state.elfWriter .elf64 {} smallFinished.state.mapOrder = .ok e ∧
    ((∃ file, e.file = .ok file ∧
        BindingsFollow .elf64 smallFinished.state smallFinished.state.mapOrder file) ↔
      smallFinished.state.lastHeaderAt .elf64 smallFinished.state.mapOrder ≤ 262144 ∧
        ∀ name, name ∈ smallFinished.state.lookup → name ∉ smallFinished.state.globals) ∧
    ∀ name, name ∈ smallFinished.state.lookup → name ∉ smallFinished.state.globals := by
  obtain ⟨e, run, -⟩ := smallFinished_written
  obtain ⟨-, -, -, none⟩ := smallFinished_facts
  exact ⟨e, run, bindings_follow_global_iff .elf64 smallFinished smallFinished.state.mapOrder run,
    fun name known => none name (Std.ExtTreeMap.mem_keys.mpr known)⟩

def globalProgram : Program Env.noFiles {} :=
  .ofSource {} (lit ".global _start\n_start: ret") (by decide +kernel)

def globalFinished : Finished Env.noFiles {} where
  program := globalProgram
  state := result globalProgram.final.state.finish
  done := eq_ok_result (by decide +kernel)

theorem global_start_is_local : ¬ ∀ (f : Finished Env.noFiles {}) (order : f.state.SymbolOrder)
    (e : ElfBin .elf64), f.state.elfWriter .elf64 {} order = .ok e →
      ∃ file, e.file = .ok file ∧ BindingsFollow .elf64 f.state order file := by
  intro every
  have facts : globalFinished.state.addressOf ({} : Options).entry = .ok 0x100000 ∧
      globalFinished.state.lastHeaderAt .elf64 globalFinished.state.mapOrder ≤ 262144 ∧
      (lit "_start" ∈ globalFinished.state.lookup ∧ lit "_start" ∈ globalFinished.state.globals) := by
    decide +kernel
  obtain ⟨known, fits, symbol, global⟩ := facts
  obtain ⟨e, run, w⟩ := @State.elfWriter_written .elf64 {} _ globalFinished.state.mapOrder _ known
  obtain ⟨file, readable, follow⟩ := every globalFinished _ e run
  cases (w.file_eq fits).symm.trans readable
  exact (w.follow_iff fits (SymbolOrder_typed globalFinished _)).mp follow _ symbol global

end BigAsm
