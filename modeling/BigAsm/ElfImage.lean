import Mathlib
import BigAsm.ElfWriter

/- What Elf_Writer leaves in elfbin: every header as a value, and the bytes after the headers
   as the three tables and the sections one after the other. -/
namespace BigAsm
open ByteStore CData Runs

variable {c : ElfClass}

def ElfData.length (c : ElfClass) (sections : Nat) : Nat :=
  phdrOffset c + sections * CStruct.size (Phdr c)

theorem ElfData.encode_length (d : ElfData c) :
    d.encode.length = ElfData.length c d.phdr.length := by
  simp only [ElfData.encode, ElfData.length, ElfData.phdrOffset, ElfData.shdrOffset,
    List.length_append, CStruct.encode_length, CStruct.encodes_length, Vector.length_toList]

theorem ElfBin.size_eq (e : ElfBin c) :
    e.size = ElfData.length c e.data.phdr.length + e.rest.length := by
  rw [ElfBin.size, ElfBin.bin, List.length_append, ElfData.encode_length]

structure Appended (i : Fin 4) (e e' : ElfBin c) (bs : List Byte) (sh : Shdr c) : Prop where
  rest : e'.rest = e.rest ++ bs
  capacity : e'.capacity = e.capacity
  hdr : e'.data.hdr = e.data.hdr
  phdr : e'.data.phdr = e.data.phdr
  shdr : e'.data.shdr = e.data.shdr.set i sh
  writes : (∀ n ∈ e.writes, n ≤ e.size) → ∀ n ∈ e'.writes, n ≤ e'.size

namespace Appended
variable {i : Fin 4} {e m e' : ElfBin c} {bs bs' : List Byte} {sh sh' : Shdr c}

theorem size (h : Appended i e e' bs sh) : e'.size = e.size + bs.length := by
  rw [ElfBin.size_eq, ElfBin.size_eq, h.phdr, h.rest, List.length_append, Nat.add_assoc]

theorem at_self (h : Appended i e e' bs sh) : e'.shdr i = sh := by
  rw [ElfBin.shdr, h.shdr]
  simp

theorem at_other (h : Appended i e e' bs sh) {j : Fin 4} (other : i ≠ j) :
    e'.shdr j = e.shdr j := by
  rw [ElfBin.shdr, h.shdr]
  exact Vector.getElem_set_ne i.isLt j.isLt fun same => other (Fin.ext same)

theorem trans (first : Appended i e m bs sh) (second : Appended i m e' bs' sh') :
    Appended i e e' (bs ++ bs') sh' where
  rest := by rw [second.rest, first.rest, List.append_assoc]
  capacity := second.capacity.trans first.capacity
  hdr := second.hdr.trans first.hdr
  phdr := second.phdr.trans first.phdr
  shdr := by
    rw [second.shdr, first.shdr]
    exact Vector.set_set ..
  writes bounded := second.writes (first.writes bounded)

end Appended

namespace ElfBin

theorem appended_setShdr (i : Fin 4) (f : Shdr c → Shdr c) (e : ElfBin c) :
    Appended i e (e.setShdr i f) [] (f (e.shdr i)) where
  rest := (List.append_nil _).symm
  capacity := rfl
  hdr := rfl
  phdr := rfl
  shdr := rfl
  writes bounded n mem := by
    have same : (e.setShdr i f).size = e.size := by
      rw [size_eq, size_eq]
      rfl
    rw [same]
    obtain rfl | old := List.mem_cons.mp mem
    · exact Nat.le_refl _
    · exact bounded n old

theorem appended_append (i : Fin 4) (bs : List Byte) (e : ElfBin c) :
    Appended i e (e.append bs) bs (e.shdr i) where
  rest := rfl
  capacity := rfl
  hdr := rfl
  phdr := rfl
  shdr := by
    apply Vector.ext
    intro k bound
    simp [append, ElfBin.shdr]
  writes bounded n mem := by
    have grown : (e.append bs).size = e.size + bs.length := by
      rw [size_eq, size_eq]
      simp [append, Nat.add_assoc]
    have := bounded n mem
    omega

theorem appended_both (i : Fin 4) (bs : List Byte) (f : Shdr c → Shdr c) (e : ElfBin c) :
    Appended i e ((e.append bs).setShdr i f) bs (f (e.shdr i)) := by
  have both := (e.appended_append i bs).trans ((e.append bs).appended_setShdr i f)
  rwa [List.append_nil] at both

end ElfBin

def stringShdr (c : ElfClass) (name offset size : Nat) : Shdr c :=
  { name := BitVec.ofNat _ name, type := SHT_STRTAB, offset := BitVec.ofNat _ offset
    size := BitVec.ofNat _ size, addralign := 1, entsize := 1 }

def symbolShdr (c : ElfClass) (name offset count : Nat) : Shdr c :=
  { name := BitVec.ofNat _ name, type := SHT_SYMTAB, offset := BitVec.ofNat _ offset
    size := BitVec.ofNat _ (count * CStruct.size (Sym c)), link := 3, info := BitVec.ofNat _ count
    addralign := BitVec.ofNat _ c.addrBytes, entsize := BitVec.ofNat _ (CStruct.size (Sym c)) }

/-- A string section of elfbin, begun at e, after some strings were added. -/
structure StringsAdded (i : Fin 4) (e : ElfBin c) (name : Nat) (names : List Str)
    (acc : StringSection × ElfBin c) : Prop where
  shindex : acc.1.shindex = i
  offset : acc.1.offset = 1 + (terminated names).length
  found : ∀ front str back, names = front ++ str :: back → str ∉ back →
    acc.1.namelist[str]? = some (1 + (terminated front).length)
  appended : Appended i e acc.2 (0 :: terminated names)
    (stringShdr c name e.size (1 + (terminated names).length))

theorem openStrings_added {i : Fin 4} {e : ElfBin c} (blank : e.shdr i = {}) :
    StringsAdded i e 0 [] (e.openStrings i) where
  shindex := rfl
  offset := rfl
  found front str back split := by simp at split
  appended := by
    have opened := (e.appended_setShdr i fun sh =>
      { sh with
        name := 0
        type := SHT_STRTAB
        flags := 0
        entsize := 1
        offset := BitVec.ofNat _ e.size
        size := 0
        addralign := 1
        info := 0
        link := 0 }).trans (ElfBin.appended_both i [0] (fun sh => { sh with size := sh.size + 1 }) _)
    rw [Appended.at_self (e.appended_setShdr i _), blank] at opened
    have value : stringShdr c 0 e.size (1 + (terminated []).length) =
        { type := SHT_STRTAB, offset := BitVec.ofNat _ e.size, size := 0 + 1, addralign := 1
          entsize := 1 } := by
      simp [stringShdr, terminated]
    rw [value]
    exact opened

namespace StringsAdded
variable {i : Fin 4} {e : ElfBin c} {name : Nat} {names : List Str}
  {acc : StringSection × ElfBin c}

theorem add (h : StringsAdded i e name names acc) (str : Str) :
    StringsAdded i e name (names ++ [str]) (ElfBin.addString str acc) := by
  have longer : (terminated (names ++ [str])).length =
      (terminated names).length + (str.length + 1) := by
    simp [terminated]
  refine ⟨h.shindex, ?_, fun front other back split last => ?_, ?_⟩
  · change acc.1.offset + (str.length + 1) = _
    rw [h.offset, longer, Nat.add_assoc]
  · change (acc.1.namelist.insert str acc.1.offset)[other]? = _
    rw [Std.ExtTreeMap.getElem?_insert]
    rcases List.eq_nil_or_concat back with rfl | ⟨back', tail, rfl⟩
    · obtain ⟨rfl, same⟩ := List.append_inj' split rfl
      cases same
      simp [h.offset]
    · rw [List.concat_eq_append, ← List.cons_append, ← List.append_assoc] at split
      obtain ⟨rfl, same⟩ := List.append_inj' split rfl
      cases same
      rw [List.concat_eq_append, List.mem_append, not_or, List.mem_singleton] at last
      rw [if_neg (by simpa using Ne.symm last.2)]
      exact h.found front other back' rfl last.1
  · have step := h.appended.trans (ElfBin.appended_both i (str ++ [0])
      (fun sh => { sh with size := sh.size + BitVec.ofNat _ (str.length + 1) }) acc.2)
    rw [h.appended.at_self] at step
    have bytes : 0 :: terminated (names ++ [str]) = 0 :: terminated names ++ (str ++ [0]) := by
      simp [terminated]
    rw [bytes, longer, ← Nat.add_assoc]
    have run : (ElfBin.addString str acc).2 = (acc.2.append (str ++ [0])).setShdr i fun sh =>
        { sh with size := sh.size + BitVec.ofNat _ (str.length + 1) } := by
      rw [← h.shindex]
      rfl
    rw [run]
    simpa [stringShdr, BitVec.ofNat_add] using step

theorem addAll (h : StringsAdded i e name names acc) (strs : List Str) :
    StringsAdded i e name (names ++ strs)
      (strs.foldl (fun acc str => ElfBin.addString str acc) acc) := by
  induction strs generalizing names acc with
  | nil => simpa using h
  | cons str strs ih =>
    have step := ih (h.add str)
    rwa [List.append_assoc] at step

theorem setName (h : StringsAdded i e 0 names acc) (n : Nat) :
    StringsAdded i e n names (acc.1, acc.2.setShdr i fun sh => { sh with name := BitVec.ofNat _ n }) := by
  refine ⟨h.shindex, h.offset, h.found, ?_⟩
  have step := h.appended.trans (acc.2.appended_setShdr i fun sh => { sh with name := BitVec.ofNat _ n })
  rwa [h.appended.at_self, List.append_nil] at step

end StringsAdded

theorem openSymbols_appended {e : ElfBin c} (blank : e.shdr 2 = {}) :
    Appended 2 e (e.openSymbols 2 3) (CStruct.encode ({} : Sym c)) (symbolShdr c 0 e.size 1) := by
  have opened := (e.appended_setShdr 2 fun sh =>
    { sh with
      type := SHT_SYMTAB
      flags := 0
      entsize := BitVec.ofNat _ (CStruct.size (Sym c))
      offset := BitVec.ofNat _ e.size
      size := 0
      info := 0
      addralign := BitVec.ofNat _ c.addrBytes
      link := BitVec.ofNat _ (3 : Fin 4).val }).trans
    (ElfBin.appended_both 2 (CStruct.encode ({} : Sym c)) (fun sh =>
      { sh with size := sh.size + BitVec.ofNat _ (CStruct.size (Sym c)), info := sh.info + 1 }) _)
  rw [Appended.at_self (e.appended_setShdr 2 _), blank, List.nil_append] at opened
  have value : symbolShdr c 0 e.size 1 =
      { type := SHT_SYMTAB, offset := BitVec.ofNat _ e.size
        size := 0 + BitVec.ofNat _ (CStruct.size (Sym c)), link := 3, info := 0 + 1
        addralign := BitVec.ofNat _ c.addrBytes
        entsize := BitVec.ofNat _ (CStruct.size (Sym c)) } := by
    simp [symbolShdr]
  rw [value]
  exact opened

theorem Appended.addSym {e acc : ElfBin c} {name : Nat} {syms : List (Sym c)}
    (h : Appended 2 e acc (syms.flatMap CStruct.encode) (symbolShdr c name e.size syms.length))
    (sym : Sym c) :
    Appended 2 e (acc.addSym 2 sym) ((syms ++ [sym]).flatMap CStruct.encode)
      (symbolShdr c name e.size (syms ++ [sym]).length) := by
  have step := h.trans (ElfBin.appended_both 2 (CStruct.encode sym) (fun sh =>
    { sh with size := sh.size + BitVec.ofNat _ (CStruct.size (Sym c)), info := sh.info + 1 }) acc)
  rw [h.at_self] at step
  have bytes : (syms ++ [sym]).flatMap CStruct.encode =
      syms.flatMap CStruct.encode ++ CStruct.encode sym := by
    simp
  have value : symbolShdr c name e.size (syms ++ [sym]).length =
      { symbolShdr c name e.size syms.length with
        size := (symbolShdr c name e.size syms.length).size +
          BitVec.ofNat _ (CStruct.size (Sym c))
        info := (symbolShdr c name e.size syms.length).info + 1 } := by
    simp [symbolShdr, Nat.succ_mul, BitVec.ofNat_add]
  rw [bytes, value]
  exact step

namespace State

def symbolEntry (c : ElfClass) (s : State) (offset : Nat) (sym : SymbolLocation) : Sym c :=
  { name := BitVec.ofNat _ offset, info := sym.type.setWidth 8, value := (s.address sym).setWidth _
    size := sym.size.setWidth _ }

def symbolEntries (c : ElfClass) (s : State) : Nat → List (Str × SymbolLocation) → List (Sym c)
  | _, [] => []
  | offset, (name, sym) :: symbols =>
    s.symbolEntry c offset sym :: symbolEntries c s (offset + (name.length + 1)) symbols

theorem symbolEntries_length (s : State) (offset : Nat) (symbols : List (Str × SymbolLocation)) :
    (s.symbolEntries c offset symbols).length = symbols.length := by
  induction symbols generalizing offset with
  | nil => rfl
  | cons symbol symbols ih =>
    rw [symbolEntries, List.length_cons, ih, List.length_cons]

theorem addSymbols_ok (s : State) {strings : StringSection} {e : ElfBin c} {name : Nat}
    {symbols : List (Str × SymbolLocation)} {offset : Nat} {syms : List (Sym c)} {acc : ElfBin c}
    (found : ∀ front symbol back, symbols = front ++ symbol :: back →
      strings.namelist[symbol.1]? = some (offset + (terminated (front.map Prod.fst)).length))
    (h : Appended 2 e acc (syms.flatMap CStruct.encode) (symbolShdr c name e.size syms.length)) :
    ∃ e', symbols.foldlM (ElfBin.addSymbol 2 s strings) acc = .ok e' ∧
      Appended 2 e e' ((syms ++ s.symbolEntries c offset symbols).flatMap CStruct.encode)
        (symbolShdr c name e.size (syms ++ s.symbolEntries c offset symbols).length) := by
  induction symbols generalizing offset syms acc with
  | nil => exact ⟨acc, rfl, by simpa [symbolEntries] using h⟩
  | cons symbol symbols ih =>
    obtain ⟨str, sym⟩ := symbol
    have here := found [] (str, sym) symbols rfl
    have later : ∀ front symbol back, symbols = front ++ symbol :: back →
        strings.namelist[symbol.1]? =
          some (offset + (str.length + 1) + (terminated (front.map Prod.fst)).length) := by
      intro front symbol back split
      rw [found ((str, sym) :: front) symbol back (by rw [split]; rfl), List.map_cons,
        terminated_cons_length, ← Nat.add_assoc]
    obtain ⟨e', run, built⟩ := ih later (h.addSym (s.symbolEntry c offset sym))
    refine ⟨e', ?_, by simpa [symbolEntries] using built⟩
    have step : ElfBin.addSymbol 2 s strings acc (str, sym) =
        .ok (acc.addSym 2 (s.symbolEntry c offset sym)) := by
      have here : strings.namelist[str]? = some offset := by simpa [terminated] using here
      simp only [ElfBin.addSymbol, StringSection.lookup, here]
      rfl
    rw [List.foldlM_cons, step]
    exact run

end State

def programs (c : ElfClass) : Nat → List Section → List (Phdr c)
  | _, [] => []
  | offset, sect :: sections =>
    sect.programHeader c offset :: programs c (offset + sect.size) sections

theorem programs_length (offset : Nat) (sections : List Section) :
    (programs c offset sections).length = sections.length := by
  induction sections generalizing offset with
  | nil => rfl
  | cons sect sections ih => rw [programs, List.length_cons, ih, List.length_cons]

structure ProgramsAdded (i : Nat) (e e' : ElfBin c) (sections : List Section) : Prop where
  rest : e'.rest = e.rest ++ sections.flatMap fun sect => sect.output.bytes
  capacity : e'.capacity = e.capacity
  hdr : e'.data.hdr = e.data.hdr
  shdr : e'.data.shdr = e.data.shdr
  phdr : e'.data.phdr = e.data.phdr.take i ++ programs c e.size sections ++
    e.data.phdr.drop (i + sections.length)
  size : e'.size = e.size + (sections.map Section.size).sum
  writes : (∀ n ∈ e.writes, n ≤ e.size) → ∀ n ∈ e'.writes, n ≤ e'.size

theorem addPrograms (sections : List Section) {i : Nat} {e : ElfBin c}
    (room : i + sections.length ≤ e.data.phdr.length) :
    (sections.foldl ElfBin.addProgram (i, e)).1 = i + sections.length ∧
      ProgramsAdded i e (sections.foldl ElfBin.addProgram (i, e)).2 sections := by
  induction sections generalizing i e with
  | nil =>
    refine ⟨rfl, by simp, rfl, rfl, rfl, ?_, by simp, id⟩
    simp [programs]
  | cons sect sections ih =>
    rw [List.length_cons] at room
    have size : ((e.setPhdr i (sect.programHeader c e.size)).append sect.output.bytes).size =
        e.size + sect.size := by
      rw [ElfBin.size_eq, ElfBin.size_eq]
      simp [ElfBin.setPhdr, ElfBin.header, ElfBin.append, Section.size, Buffer.size, Nat.add_assoc]
    obtain ⟨next, built⟩ := @ih (i + 1)
      ((e.setPhdr i (sect.programHeader c e.size)).append sect.output.bytes)
      (by simp only [ElfBin.setPhdr, ElfBin.header, ElfBin.append, List.length_set]; omega)
    rw [List.foldl_cons]
    refine ⟨next.trans (by rw [List.length_cons]; omega), ?_, built.capacity, built.hdr, built.shdr,
      ?_, ?_, fun bounded => built.writes fun n mem => ?_⟩
    · refine built.rest.trans ?_
      simp [ElfBin.setPhdr, ElfBin.header, ElfBin.append]
    · refine built.phdr.trans ?_
      rw [size]
      change (e.data.phdr.set i _).take (i + 1) ++ _ ++ (e.data.phdr.set i _).drop _ = _
      rw [List.drop_set_of_lt (by omega), List.take_add_one, List.take_set_of_le (Nat.le_refl i),
        List.getElem?_set_self (by omega)]
      simp [programs, Nat.add_assoc, Nat.add_comm 1]
    · refine built.size.trans ?_
      rw [size, List.map_cons, List.sum_cons, Nat.add_assoc]
    · rw [size]
      obtain rfl | old := List.mem_cons.mp mem
      · exact Nat.le_add_right _ _
      · exact (bounded n old).trans (Nat.le_add_right _ _)

namespace State

def sectionList (s : State) : List Section := s.sections.toList.map Prod.snd

def SymbolOrder.names {s : State} (order : s.SymbolOrder) : List Str := order.symbols.map Prod.fst

def sectionNames : List Str := [lit ".shstrtab", lit ".symtab", lit ".strtab"]

def namesAt (c : ElfClass) (s : State) : Nat := ElfData.length c s.sections.size
def stringsAt (c : ElfClass) (s : State) : Nat := s.namesAt c + 27
def symbolsAt (c : ElfClass) (s : State) (order : s.SymbolOrder) : Nat :=
  s.stringsAt c + (1 + (terminated order.names).length)
def programsAt (c : ElfClass) (s : State) (order : s.SymbolOrder) : Nat :=
  s.symbolsAt c order + (order.symbols.length + 1) * CStruct.size (Sym c)

/-- The size elfbin has when the last program header is written. -/
def lastHeaderAt (c : ElfClass) (s : State) (order : s.SymbolOrder) : Nat :=
  s.programsAt c order + (s.sectionList.dropLast.map Section.size).sum

structure Written (c : ElfClass) (s : State) (order : s.SymbolOrder) (entry : BitVec 128)
    (e : ElfBin c) : Prop where
  hdr : e.data.hdr = elfHeader c entry s.sections.size
  shdr : e.data.shdr = #v[{}, stringShdr c 1 (s.namesAt c) 27,
    symbolShdr c 11 (s.symbolsAt c order) (order.symbols.length + 1),
    stringShdr c 19 (s.stringsAt c) (1 + (terminated order.names).length)]
  phdr : e.data.phdr = programs c (s.programsAt c order) s.sectionList
  rest : e.rest = 0 :: terminated sectionNames ++ (0 :: terminated order.names) ++
    ({} :: s.symbolEntries c 1 order.symbols).flatMap CStruct.encode ++
    s.sectionList.flatMap fun sect => sect.output.bytes
  capacity : e.capacity = max 262144 (s.namesAt c)
  writes : (∀ n ∈ e.writes, n ≤ e.capacity) ↔ s.lastHeaderAt c order ≤ e.capacity

theorem sectionList_length (s : State) : s.sectionList.length = s.sections.size := by
  simp [sectionList]

theorem SymbolOrder.length {s : State} (order : s.SymbolOrder) :
    order.symbols.length = s.lookup.size := by
  rw [order.perm.length_eq]
  simp

theorem SymbolOrder.names_perm {s : State} (order : s.SymbolOrder) :
    order.names.Perm s.lookup.keys := by
  rw [← Std.ExtTreeMap.map_fst_toList_eq_keys]
  exact order.perm.map _

theorem SymbolOrder.forall_names {s : State} (order : s.SymbolOrder) (P : Str → Prop) :
    (∀ symbol ∈ order.symbols, P symbol.1) ↔ ∀ name, name ∈ s.lookup → P name := by
  have listed : (∀ symbol ∈ order.symbols, P symbol.1) ↔ ∀ name ∈ order.names, P name := by
    rw [names, List.forall_mem_map]
  simp only [listed, order.names_perm.mem_iff, Std.ExtTreeMap.mem_keys]

theorem SymbolOrder.names_nodup {s : State} (order : s.SymbolOrder) : order.names.Nodup := by
  refine order.names_perm.nodup_iff.mpr ?_
  rw [List.nodup_iff_pairwise_ne]
  refine (Std.ExtTreeMap.distinct_keys (t := s.lookup)).imp fun apart same => apart ?_
  rw [same]
  exact Std.ReflCmp.compare_self

theorem sectionList_ne_nil (s : State) : s.sectionList ≠ [] := by
  intro empty
  have none := s.sectionList_length
  rw [empty, List.length_nil, eq_comm, ← Std.ExtTreeMap.eq_empty_iff_size_eq_zero] at none
  have known := s.currentMem
  rw [none] at known
  exact Std.ExtTreeMap.not_mem_empty known

theorem writes_addPrograms {e : ElfBin c} {sections : List Section} {i : Nat}
    (bounded : ∀ n ∈ e.writes, n ≤ e.size) (some : sections ≠ [])
    (room : i + sections.length ≤ e.data.phdr.length) (limit : Nat) :
    (∀ n ∈ (sections.foldl ElfBin.addProgram (i, e)).2.writes, n ≤ limit) ↔
      e.size + (sections.dropLast.map Section.size).sum ≤ limit := by
  obtain ⟨before, last, rfl⟩ := List.eq_nil_or_concat' sections |>.resolve_left some
  rw [List.length_append, List.length_singleton] at room
  obtain ⟨-, built⟩ := @addPrograms c before i e (by omega)
  rw [List.foldl_append, List.foldl_cons, List.foldl_nil, List.dropLast_concat, ← built.size]
  change (∀ n ∈ _ :: _, n ≤ limit) ↔ _
  rw [List.forall_mem_cons]
  constructor
  · intro all
    exact all.1
  · intro fits
    exact ⟨fits, fun n mem => (built.writes bounded n mem).trans fits⟩

theorem writeNames_added {e : ElfBin c} (blank : e.shdr 1 = {}) :
    StringsAdded 1 e 1 sectionNames (writeNames e) :=
  ((((openStrings_added blank).add (lit ".shstrtab")).setName 1).add (lit ".symtab")).add
    (lit ".strtab")

theorem writeStrings_added {s : State} (order : s.SymbolOrder) {e : ElfBin c}
    (blank : e.shdr 3 = {}) (name : Nat) :
    StringsAdded 3 e name order.names (s.writeStrings order name e) := by
  have added := ((openStrings_added blank).setName name).addAll order.names
  rwa [List.nil_append, SymbolOrder.names, List.foldl_map] at added

theorem writeSymbols_appended {s : State} (order : s.SymbolOrder) {e : ElfBin c}
    (blank : e.shdr 2 = {}) {strings : StringSection} (shindex : strings.shindex = 3)
    (found : ∀ front str back, order.names = front ++ str :: back → str ∉ back →
      strings.namelist[str]? = some (1 + (terminated front).length)) (name : Nat) :
    ∃ e', s.writeSymbols order strings name e = .ok e' ∧
      Appended 2 e e' (({} :: s.symbolEntries c 1 order.symbols).flatMap CStruct.encode)
        (symbolShdr c name e.size (order.symbols.length + 1)) := by
  have opened := openSymbols_appended blank
  have named := opened.trans (ElfBin.appended_setShdr 2
    (fun sh => { sh with name := BitVec.ofNat _ name }) _)
  rw [opened.at_self, List.append_nil] at named
  have each : ∀ front symbol back, order.symbols = front ++ symbol :: back →
      strings.namelist[symbol.1]? = some (1 + (terminated (front.map Prod.fst)).length) := by
    intro front symbol back split
    have names : order.names = front.map Prod.fst ++ symbol.1 :: back.map Prod.fst := by
      rw [SymbolOrder.names, split, List.map_append, List.map_cons]
    have apart := order.names_nodup
    rw [names, List.nodup_append, List.nodup_cons] at apart
    exact found _ _ _ names apart.2.1.1
  have first : Appended 2 e ((e.openSymbols 2 3).setShdr 2 fun sh =>
      { sh with name := BitVec.ofNat _ name })
      ([({} : Sym c)].flatMap CStruct.encode) (symbolShdr c name e.size [({} : Sym c)].length) := by
    rw [List.flatMap_singleton]
    exact named
  obtain ⟨m, run, symbols⟩ := s.addSymbols_ok each first
  have counted := symbols.trans (m.appended_setShdr 2 fun sh =>
    { sh with info := BitVec.ofNat _ (s.lookup.size + 1) })
  rw [symbols.at_self, List.append_nil] at counted
  refine ⟨m.setShdr 2 fun sh => { sh with info := BitVec.ofNat _ (s.lookup.size + 1) }, ?_, ?_⟩
  · rw [writeSymbols, shindex]
    exact bind_ok_iff.mpr ⟨m, run, rfl⟩
  · have value : symbolShdr c name e.size (order.symbols.length + 1) =
        { symbolShdr c name e.size ([({} : Sym c)] ++ s.symbolEntries c 1 order.symbols).length with
          info := BitVec.ofNat _ (s.lookup.size + 1) } := by
      simp [symbolShdr, symbolEntries_length, order.length]
    rw [value]
    exact counted

theorem elfWriter_written (c : ElfClass) {options : Options} {s : State} (order : s.SymbolOrder)
    {entry : BitVec 128} (known : s.addressOf options.entry = .ok entry) :
    ∃ e, s.elfWriter c options order = .ok e ∧ s.Written c order entry e := by
  let e₀ := (ElfBin.start c s.sections.size).header
    fun d => { d with hdr := elfHeader c entry s.sections.size }
  have size₀ : e₀.size = s.namesAt c := by
    rw [ElfBin.size_eq]
    simp [e₀, ElfBin.header, ElfBin.start, namesAt]
  have names := writeNames_added (e := e₀) rfl
  have symtab : (writeNames e₀).1.lookup (lit ".symtab") = .ok 11 := by
    rw [StringSection.lookup, names.found [lit ".shstrtab"] _ [lit ".strtab"] rfl (by decide)]
    rfl
  have strtab : (writeNames e₀).1.lookup (lit ".strtab") = .ok 19 := by
    rw [StringSection.lookup, names.found [lit ".shstrtab", lit ".symtab"] _ [] rfl (by decide)]
    rfl
  have strings := s.writeStrings_added order (e := (writeNames e₀).2)
    (names.appended.at_other (j := 3) (by decide)) 19
  have blank := (strings.appended.at_other (j := 2) (by decide)).trans
    (names.appended.at_other (j := 2) (by decide))
  obtain ⟨e₃, run, symbols⟩ := s.writeSymbols_appended order blank strings.shindex strings.found 11
  have phdr : e₃.data.phdr = List.replicate s.sections.size {} := by
    rw [symbols.phdr, strings.appended.phdr, names.appended.phdr]
    rfl
  have room : 0 + s.sectionList.length ≤ e₃.data.phdr.length := by
    rw [phdr, List.length_replicate, sectionList_length, Nat.zero_add]
  obtain ⟨-, added⟩ := addPrograms s.sectionList room
  have size₁ : (writeNames e₀).2.size = s.stringsAt c := by
    rw [names.appended.size, size₀]
    rfl
  have size₂ : (s.writeStrings order 19 (writeNames e₀).2).2.size = s.symbolsAt c order := by
    rw [strings.appended.size, size₁, symbolsAt, List.length_cons, Nat.add_comm 1]
  have size₃ : e₃.size = s.programsAt c order := by
    rw [symbols.size, size₂, programsAt, CStruct.encodes_length, List.length_cons,
      symbolEntries_length]
  have bounded : ∀ n ∈ e₃.writes, n ≤ e₃.size := by
    refine symbols.writes (strings.appended.writes (names.appended.writes ?_))
    intro n mem
    rw [List.mem_singleton.mp mem, size₀, ElfBin.size_eq]
    simp [ElfBin.start, namesAt]
  have capacity : e₃.capacity = max 262144 (s.namesAt c) := by
    rw [symbols.capacity, strings.appended.capacity, names.appended.capacity]
    simp [e₀, ElfBin.header, ElfBin.start, ElfData.encode_length, namesAt]
  refine ⟨s.writePrograms e₃, ?_, ?_, ?_, ?_, ?_, ?_, ?_⟩
  · refine map_ok_iff.mpr ⟨e₃, ?_, rfl⟩
    rw [elfTables, known]
    exact bind_ok_iff.mpr ⟨entry, rfl, bind_ok_iff.mpr ⟨19, strtab, bind_ok_iff.mpr ⟨11, symtab, run⟩⟩⟩
  · exact added.hdr.trans (symbols.hdr.trans (strings.appended.hdr.trans names.appended.hdr))
  · refine added.shdr.trans ?_
    rw [symbols.shdr, strings.appended.shdr, names.appended.shdr, size₀, size₁, size₂]
    rfl
  · refine added.phdr.trans ?_
    rw [phdr, size₃, sectionList_length, Nat.zero_add]
    simp
  · refine added.rest.trans ?_
    rw [symbols.rest, strings.appended.rest, names.appended.rest]
    rfl
  · exact added.capacity.trans capacity
  · have last := writes_addPrograms bounded s.sectionList_ne_nil room (s.writePrograms e₃).capacity
    rw [size₃] at last
    exact last

end State

end BigAsm
