import Mathlib
import BigAsm.Finish
import BigAsm.ElfFormat

/- Elf_Writer for both layouts. The headers at the front of elfbin are kept as structures,
   since the code only reaches them through elfdata; the rest of elfbin is bytes. -/
namespace BigAsm
open ByteStore CData

def SHT_SYMTAB : BitVec 32 := 2
def SHT_STRTAB : BitVec 32 := 3
def PT_LOAD : BitVec 32 := 1
def PF_X : BitVec 32 := 1
def PF_W : BitVec 32 := 2
def PF_R : BitVec 32 := 4
def STB_LOCAL : Nat := 0
def STB_GLOBAL : Nat := 1

structure ElfData (c : ElfClass) where
  hdr : Ehdr c := {}
  shdr : Vector (Shdr c) 4 := Vector.replicate 4 {}
  phdr : List (Phdr c) := []

namespace ElfData
variable {c : ElfClass}

def encode (d : ElfData c) : List Byte :=
  CStruct.encode d.hdr ++ d.shdr.toList.flatMap CStruct.encode ++ d.phdr.flatMap CStruct.encode

def shdrOffset (c : ElfClass) : Nat := CStruct.size (Ehdr c)
def phdrOffset (c : ElfClass) : Nat := shdrOffset c + 4 * CStruct.size (Shdr c)

end ElfData

/-- elfbin with the headers elfdata points to. The vector is reserved once; writes records the
    size it had at every write through elfdata, the latest first. -/
structure ElfBin (c : ElfClass) where
  data : ElfData c
  rest : List Byte := []
  capacity : Nat
  writes : List Nat := []

structure StringSection where
  shindex : Fin 4
  namelist : StrMap Nat := ∅
  offset : Nat := 0

namespace ElfBin
variable {c : ElfClass}

def bin (e : ElfBin c) : List Byte := e.data.encode ++ e.rest

def size (e : ElfBin c) : Nat := e.bin.length

/-- A write through elfdata or a reference taken from it. -/
def header (f : ElfData c → ElfData c) (e : ElfBin c) : ElfBin c :=
  { e with data := f e.data, writes := e.size :: e.writes }

def setShdr (i : Fin 4) (f : Shdr c → Shdr c) (e : ElfBin c) : ElfBin c :=
  e.header fun d => { d with shdr := d.shdr.set i (f d.shdr[i]) }

def shdr (i : Fin 4) (e : ElfBin c) : Shdr c := e.data.shdr[i]

def setPhdr (i : Nat) (p : Phdr c) (e : ElfBin c) : ElfBin c :=
  e.header fun d => { d with phdr := d.phdr.set i p }

def append (bs : List Byte) (e : ElfBin c) : ElfBin c := { e with rest := e.rest ++ bs }

/-- elfbin after reserve and resize: all header bytes are zero. -/
def start (c : ElfClass) (sections : Nat) : ElfBin c :=
  let data : ElfData c := { phdr := List.replicate sections {} }
  { data, capacity := max 262144 data.encode.length }

/-- The file that is written. Once elfbin has outgrown its capacity elfdata points to freed
    memory, and what a write through it does is open. -/
def file (e : ElfBin c) : Except Failure (List Byte) :=
  if ∀ n ∈ e.writes, n ≤ e.capacity then .ok e.bin else .error .undefined

def appendNull (sec : StringSection) (e : ElfBin c) : StringSection × ElfBin c :=
  let e := (e.append [0]).setShdr sec.shindex fun sh => { sh with size := sh.size + 1 }
  ({ sec with offset := sec.offset + 1 }, e)

def openStrings (i : Fin 4) (e : ElfBin c) : StringSection × ElfBin c :=
  let e := e.setShdr i fun sh =>
    { sh with
      name := 0
      type := SHT_STRTAB
      flags := 0
      entsize := 1
      offset := BitVec.ofNat _ e.size
      size := 0
      addralign := 1
      info := 0
      link := 0 }
  e.appendNull { shindex := i }

/-- ElfStringSection::add, which copies the terminator of the string too. -/
def addString (str : Str) (acc : StringSection × ElfBin c) : StringSection × ElfBin c :=
  let (sec, e) := acc
  let e := (e.append (str ++ [0])).setShdr sec.shindex fun sh =>
    { sh with size := sh.size + BitVec.ofNat _ (str.length + 1) }
  ({ sec with
      namelist := sec.namelist.insert str sec.offset
      offset := sec.offset + (str.length + 1) }, e)

def addSym (i : Fin 4) (sym : Sym c) (e : ElfBin c) : ElfBin c :=
  (e.append (CStruct.encode sym)).setShdr i fun sh =>
    { sh with size := sh.size + BitVec.ofNat _ (CStruct.size (Sym c)), info := sh.info + 1 }

def openSymbols (i strindex : Fin 4) (e : ElfBin c) : ElfBin c :=
  let e := e.setShdr i fun sh =>
    { sh with
      type := SHT_SYMTAB
      flags := 0
      entsize := BitVec.ofNat _ (CStruct.size (Sym c))
      offset := BitVec.ofNat _ e.size
      size := 0
      info := 0
      addralign := BitVec.ofNat _ c.addrBytes
      link := BitVec.ofNat _ strindex.val }
  e.addSym i {}

end ElfBin

def StringSection.lookup (sec : StringSection) (str : Str) : Except Failure Nat :=
  match sec.namelist[str]? with
  | some offset => .ok offset
  | none => .error .outOfRange

/-- ElfSymSection::add. The caller computes a binding but passes the type alone as info. -/
def ElfBin.addSymbol {c : ElfClass} (i : Fin 4) (s : State) (strings : StringSection)
    (e : ElfBin c) (symbol : Str × SymbolLocation) : Except Failure (ElfBin c) := do
  let (name, sym) := symbol
  let offset ← strings.lookup name
  return e.addSym i
    { name := BitVec.ofNat _ offset
      info := sym.type.setWidth 8
      value := (s.address sym).setWidth _
      size := sym.size.setWidth _ }

def Section.segmentFlags (sect : Section) : BitVec 32 :=
  (if sect.code then PF_X else 0) |||
    if !sect.code || !sect.execonly then
      if sect.data || sect.resv then PF_R ||| if sect.readonly then 0 else PF_W else 0
    else 0

def Section.loadable (sect : Section) : Bool := sect.code || sect.data

def Section.programHeader (c : ElfClass) (offset : Nat) (sect : Section) : Phdr c :=
  { type := if sect.loadable then PT_LOAD else 0
    flags := sect.segmentFlags
    offset := BitVec.ofNat _ offset
    vaddr := sect.baseAddress.setWidth _
    paddr := sect.baseAddress.setWidth _
    filesz := if sect.loadable then BitVec.ofNat _ sect.size else 0
    memsz := BitVec.ofNat _ sect.size
    align := 0 }

def ElfBin.addProgram {c : ElfClass} (acc : Nat × ElfBin c) (sect : Section) : Nat × ElfBin c :=
  let (i, e) := acc
  let e := e.setPhdr i (sect.programHeader c e.size)
  (i + 1, e.append sect.output.bytes)

namespace State

def addressOf (s : State) (name : Str) : Except Failure (BitVec 128) :=
  match s.lookup[name]? with
  | some sym => .ok (s.address sym)
  | none => .error (.runtime (lit "No such symbol: " ++ name))

/-- The order an unordered_map is iterated in, the same as long as it is not changed. -/
structure SymbolOrder (s : State) where
  symbols : List (Str × SymbolLocation)
  perm : symbols.Perm s.lookup.toList

def elfHeader (c : ElfClass) (entry : BitVec 128) (sections : Nat) : Ehdr c :=
  { ident := #v[0x7f, 0x45, 0x4c, 0x46, c.ident, 1, 1, 255, 0, 0, 0, 0, 0, 0, 0, 0]
    type := 2
    machine := 243
    version := 1
    entry := entry.setWidth _
    phoff := BitVec.ofNat _ (ElfData.phdrOffset c)
    shoff := BitVec.ofNat _ (ElfData.shdrOffset c)
    ehsize := BitVec.ofNat _ (CStruct.size (Ehdr c))
    phentsize := BitVec.ofNat _ (CStruct.size (Phdr c))
    phnum := BitVec.ofNat _ sections
    shentsize := BitVec.ofNat _ (CStruct.size (Shdr c))
    shnum := 1 + 3
    shstrndx := 1 }

def writeNames {c : ElfClass} (e : ElfBin c) : StringSection × ElfBin c :=
  let (shnames, e) := e.openStrings 1
  let sh_name := shnames.offset
  let (shnames, e) := ElfBin.addString (lit ".shstrtab") (shnames, e)
  let e := e.setShdr 1 fun sh => { sh with name := BitVec.ofNat _ sh_name }
  ElfBin.addString (lit ".strtab") (ElfBin.addString (lit ".symtab") (shnames, e))

def writeStrings {c : ElfClass} (s : State) (order : s.SymbolOrder) (sh_name : Nat)
    (e : ElfBin c) : StringSection × ElfBin c :=
  let (strings, e) := e.openStrings 3
  let e := e.setShdr 3 fun sh => { sh with name := BitVec.ofNat _ sh_name }
  order.symbols.foldl (fun acc symbol => ElfBin.addString symbol.1 acc) (strings, e)

def writeSymbols {c : ElfClass} (s : State) (order : s.SymbolOrder) (strings : StringSection)
    (sh_name : Nat) (e : ElfBin c) : Except Failure (ElfBin c) := do
  let e := e.openSymbols 2 strings.shindex
  let e := e.setShdr 2 fun sh => { sh with name := BitVec.ofNat _ sh_name }
  let e ← order.symbols.foldlM (ElfBin.addSymbol 2 s strings) e
  return e.setShdr 2 fun sh => { sh with info := BitVec.ofNat _ (s.lookup.size + 1) }

def writePrograms {c : ElfClass} (s : State) (e : ElfBin c) : ElfBin c :=
  ((s.sections.toList.map Prod.snd).foldl ElfBin.addProgram (0, e)).2

/-- Elf_Writer up to its first file_writer: the headers, the names and the symbols. -/
def elfTables (c : ElfClass) (options : Options) (s : State) (order : s.SymbolOrder) :
    Except Failure (ElfBin c) := do
  let e := ElfBin.start c s.sections.size
  let entry ← s.addressOf options.entry
  let e := e.header fun d => { d with hdr := elfHeader c entry s.sections.size }
  let (shnames, e) := writeNames e
  let sh_name ← shnames.lookup (lit ".strtab")
  let (strings, e) := s.writeStrings order sh_name e
  let sh_name ← shnames.lookup (lit ".symtab")
  s.writeSymbols order strings sh_name e

def elfWriter (c : ElfClass) (options : Options) (s : State) (order : s.SymbolOrder) :
    Except Failure (ElfBin c) :=
  s.writePrograms <$> s.elfTables c options order

end State

end BigAsm
