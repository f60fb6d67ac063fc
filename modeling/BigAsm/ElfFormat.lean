import Mathlib
import BigAsm.Instruction
import BigAsm.Library.CData

/- The ELF structures in the two layouts of elf128.h and elf.h: the members are the same, and
   an address, an offset or an Xword has 8 bytes in the one and 16 in the other. The readers
   at the end follow the file format, from the header on. -/
namespace BigAsm
open ByteStore CData

inductive ElfClass where
  | elf64 | elf128
  deriving DecidableEq, Repr

namespace ElfClass

def addrBytes : ElfClass → Nat
  | elf64 => 8
  | elf128 => 16

def ident : ElfClass → Byte
  | elf64 => 2
  | elf128 => 3

end ElfClass

abbrev ElfAddr (c : ElfClass) := BitVec (8 * c.addrBytes)

structure Ehdr (c : ElfClass) where
  ident : Vector Byte 16 := Vector.replicate 16 0
  type : BitVec 16 := 0
  machine : BitVec 16 := 0
  version : BitVec 32 := 0
  entry : ElfAddr c := 0
  phoff : ElfAddr c := 0
  shoff : ElfAddr c := 0
  flags : BitVec 32 := 0
  ehsize : BitVec 16 := 0
  phentsize : BitVec 16 := 0
  phnum : BitVec 16 := 0
  shentsize : BitVec 16 := 0
  shnum : BitVec 16 := 0
  shstrndx : BitVec 16 := 0
  deriving DecidableEq

structure Shdr (c : ElfClass) where
  name : BitVec 32 := 0
  type : BitVec 32 := 0
  flags : ElfAddr c := 0
  addr : ElfAddr c := 0
  offset : ElfAddr c := 0
  size : ElfAddr c := 0
  link : BitVec 32 := 0
  info : BitVec 32 := 0
  addralign : ElfAddr c := 0
  entsize : ElfAddr c := 0
  deriving DecidableEq

structure Phdr (c : ElfClass) where
  type : BitVec 32 := 0
  flags : BitVec 32 := 0
  offset : ElfAddr c := 0
  vaddr : ElfAddr c := 0
  paddr : ElfAddr c := 0
  filesz : ElfAddr c := 0
  memsz : ElfAddr c := 0
  align : ElfAddr c := 0
  deriving DecidableEq

structure Sym (c : ElfClass) where
  name : BitVec 32 := 0
  info : Byte := 0
  other : Byte := 0
  shndx : BitVec 16 := 0
  value : ElfAddr c := 0
  size : ElfAddr c := 0
  deriving DecidableEq

theorem ofNat_toNat_mod {w n : Nat} (v : BitVec w) (fits : w = 8 * n) :
    BitVec.ofNat w (v.toNat % 256 ^ n) = v := by
  subst fits
  apply BitVec.eq_of_toNat_eq
  have bound : v.toNat < 256 ^ n := by
    have := v.isLt
    rwa [Nat.pow_mul] at this
  rw [BitVec.toNat_ofNat, Nat.mod_eq_of_lt bound, Nat.mod_eq_of_lt v.isLt]

theorem zip_bytes (bs : List Byte) :
    ((List.replicate bs.length 1).zip (bs.map BitVec.toNat)).map
      (fun m : Nat × Nat => m.2 % 256 ^ m.1) = bs.map BitVec.toNat := by
  induction bs with
  | nil => rfl
  | cons b bs ih =>
    have byte : b.toNat % 256 ^ 1 = b.toNat := Nat.mod_eq_of_lt b.isLt
    rw [List.length_cons, List.replicate_succ, List.map_cons, List.zip_cons_cons, List.map_cons, ih,
      byte]

instance (c : ElfClass) : CStruct (Ehdr c) where
  alignment := c.addrBytes
  widths := List.replicate 16 1 ++
    [2, 2, 4, c.addrBytes, c.addrBytes, c.addrBytes, 4, 2, 2, 2, 2, 2, 2]
  values h := h.ident.toList.map BitVec.toNat ++
    [h.type.toNat, h.machine.toNat, h.version.toNat, h.entry.toNat, h.phoff.toNat, h.shoff.toNat,
      h.flags.toNat, h.ehsize.toNat, h.phentsize.toNat, h.phnum.toNat, h.shentsize.toNat,
      h.shnum.toNat, h.shstrndx.toNat]
  ofValues v :=
    { ident := Vector.ofFn fun i : Fin 16 => BitVec.ofNat 8 (v.getD i 0)
      type := BitVec.ofNat _ (v.getD 16 0)
      machine := BitVec.ofNat _ (v.getD 17 0)
      version := BitVec.ofNat _ (v.getD 18 0)
      entry := BitVec.ofNat _ (v.getD 19 0)
      phoff := BitVec.ofNat _ (v.getD 20 0)
      shoff := BitVec.ofNat _ (v.getD 21 0)
      flags := BitVec.ofNat _ (v.getD 22 0)
      ehsize := BitVec.ofNat _ (v.getD 23 0)
      phentsize := BitVec.ofNat _ (v.getD 24 0)
      phnum := BitVec.ofNat _ (v.getD 25 0)
      shentsize := BitVec.ofNat _ (v.getD 26 0)
      shnum := BitVec.ofNat _ (v.getD 27 0)
      shstrndx := BitVec.ofNat _ (v.getD 28 0) }
  count h := by simp
  back h := by
    have ident := zip_bytes h.ident.toList
    rw [Vector.length_toList] at ident
    rw [List.zip_append (by simp), List.map_append, ident]
    have past : ∀ (rest : List Nat) (i : Nat), 16 ≤ i →
        (h.ident.toList.map BitVec.toNat ++ rest).getD i 0 = rest.getD (i - 16) 0 := by
      intro rest i bound
      rw [List.getD_append_right _ _ _ _ (by simpa using bound)]
      simp
    have front : ∀ (rest : List Nat) (i : Fin 16),
        (h.ident.toList.map BitVec.toNat ++ rest).getD i 0 = h.ident[i].toNat := by
      intro rest i
      rw [List.getD_append _ _ _ _ (by simp)]
      simp [List.getD]
    simp (disch := decide) only [past, front]
    simp only [List.zip_cons_cons, List.zip_nil_right, List.map_cons, List.map_nil,
      Nat.reduceSub, List.getD_cons_zero, List.getD_cons_succ]
    simp only [ofNat_toNat_mod (n := 2) _ rfl, ofNat_toNat_mod (n := 4) _ rfl,
      ofNat_toNat_mod (n := c.addrBytes) _ rfl]
    congr 1
    ext i hi
    simp

instance (c : ElfClass) : CStruct (Shdr c) where
  alignment := c.addrBytes
  widths := [4, 4, c.addrBytes, c.addrBytes, c.addrBytes, c.addrBytes, 4, 4, c.addrBytes, c.addrBytes]
  values h := [h.name.toNat, h.type.toNat, h.flags.toNat, h.addr.toNat, h.offset.toNat, h.size.toNat,
    h.link.toNat, h.info.toNat, h.addralign.toNat, h.entsize.toNat]
  ofValues v :=
    { name := BitVec.ofNat _ (v.getD 0 0)
      type := BitVec.ofNat _ (v.getD 1 0)
      flags := BitVec.ofNat _ (v.getD 2 0)
      addr := BitVec.ofNat _ (v.getD 3 0)
      offset := BitVec.ofNat _ (v.getD 4 0)
      size := BitVec.ofNat _ (v.getD 5 0)
      link := BitVec.ofNat _ (v.getD 6 0)
      info := BitVec.ofNat _ (v.getD 7 0)
      addralign := BitVec.ofNat _ (v.getD 8 0)
      entsize := BitVec.ofNat _ (v.getD 9 0) }
  count h := rfl
  back h := by
    simp only [List.zip_cons_cons, List.zip_nil_right, List.map_cons, List.map_nil,
      List.getD_cons_zero, List.getD_cons_succ]
    simp only [ofNat_toNat_mod (n := 4) _ rfl, ofNat_toNat_mod (n := c.addrBytes) _ rfl]

instance (c : ElfClass) : CStruct (Phdr c) where
  alignment := c.addrBytes
  widths := [4, 4, c.addrBytes, c.addrBytes, c.addrBytes, c.addrBytes, c.addrBytes, c.addrBytes]
  values h := [h.type.toNat, h.flags.toNat, h.offset.toNat, h.vaddr.toNat, h.paddr.toNat,
    h.filesz.toNat, h.memsz.toNat, h.align.toNat]
  ofValues v :=
    { type := BitVec.ofNat _ (v.getD 0 0)
      flags := BitVec.ofNat _ (v.getD 1 0)
      offset := BitVec.ofNat _ (v.getD 2 0)
      vaddr := BitVec.ofNat _ (v.getD 3 0)
      paddr := BitVec.ofNat _ (v.getD 4 0)
      filesz := BitVec.ofNat _ (v.getD 5 0)
      memsz := BitVec.ofNat _ (v.getD 6 0)
      align := BitVec.ofNat _ (v.getD 7 0) }
  count h := rfl
  back h := by
    simp only [List.zip_cons_cons, List.zip_nil_right, List.map_cons, List.map_nil,
      List.getD_cons_zero, List.getD_cons_succ]
    simp only [ofNat_toNat_mod (n := 4) _ rfl, ofNat_toNat_mod (n := c.addrBytes) _ rfl]

instance (c : ElfClass) : CStruct (Sym c) where
  alignment := c.addrBytes
  widths := [4, 1, 1, 2, c.addrBytes, c.addrBytes]
  values s := [s.name.toNat, s.info.toNat, s.other.toNat, s.shndx.toNat, s.value.toNat, s.size.toNat]
  ofValues v :=
    { name := BitVec.ofNat _ (v.getD 0 0)
      info := BitVec.ofNat _ (v.getD 1 0)
      other := BitVec.ofNat _ (v.getD 2 0)
      shndx := BitVec.ofNat _ (v.getD 3 0)
      value := BitVec.ofNat _ (v.getD 4 0)
      size := BitVec.ofNat _ (v.getD 5 0) }
  count s := rfl
  back s := by
    simp only [List.zip_cons_cons, List.zip_nil_right, List.map_cons, List.map_nil,
      List.getD_cons_zero, List.getD_cons_succ]
    simp only [ofNat_toNat_mod (n := 1) _ rfl, ofNat_toNat_mod (n := 2) _ rfl,
      ofNat_toNat_mod (n := 4) _ rfl, ofNat_toNat_mod (n := c.addrBytes) _ rfl]

example : (CStruct.size (Ehdr .elf64), CStruct.size (Shdr .elf64), CStruct.size (Phdr .elf64),
    CStruct.size (Sym .elf64)) = (64, 64, 56, 24) := rfl

example : (CStruct.size (Ehdr .elf128), CStruct.size (Shdr .elf128), CStruct.size (Phdr .elf128),
    CStruct.size (Sym .elf128)) = (96, 128, 112, 48) := rfl

def readEhdr (c : ElfClass) (file : List Byte) : Ehdr c :=
  CStruct.decode (Ehdr c) (window 0 (CStruct.size (Ehdr c)) file)

def programHeaders (c : ElfClass) (file : List Byte) : List (Phdr c) :=
  let h := readEhdr c file
  CStruct.table (Phdr c) h.phoff.toNat h.phentsize.toNat h.phnum.toNat file

def sectionHeaders (c : ElfClass) (file : List Byte) : List (Shdr c) :=
  let h := readEhdr c file
  CStruct.table (Shdr c) h.shoff.toNat h.shentsize.toNat h.shnum.toNat file

namespace Shdr
variable {c : ElfClass}

def contents (sh : Shdr c) (file : List Byte) : List Byte := window sh.offset.toNat sh.size.toNat file

def stringAt (sh : Shdr c) (file : List Byte) (i : Nat) : List Byte :=
  untilNul ((sh.contents file).drop i)

/-- The entries of a symbol table. -/
def symbols (sh : Shdr c) (file : List Byte) : List (Sym c) :=
  CStruct.table (Sym c) sh.offset.toNat sh.entsize.toNat (sh.size.toNat / sh.entsize.toNat) file

end Shdr

def sectionName (c : ElfClass) (file : List Byte) (sh : Shdr c) : List Byte :=
  let names := (sectionHeaders c file).getD (readEhdr c file).shstrndx.toNat {}
  names.stringAt file sh.name.toNat

def sectionNamed (c : ElfClass) (file name : List Byte) : Option (Shdr c) :=
  (sectionHeaders c file).find? fun sh => sectionName c file sh = name

namespace Sym
variable {c : ElfClass}

def bind (s : Sym c) : Nat := s.info.toNat / 16
def kind (s : Sym c) : Nat := s.info.toNat % 16

end Sym

end BigAsm
