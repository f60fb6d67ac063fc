import Mathlib
import BigAsm.Token
import BigAsm.Library.Bytes

/- One output section: its bytes, its attributes, its base address and the labels that wait
   for the next item. Sizes are size_t and every sum and mask wraps at 64 bits. -/
namespace BigAsm
open ByteStore

inductive OutputType where
  | code | data | resv
  deriving DecidableEq, Repr

/-- The section pointer of the source is the section's name, the key of its map node. -/
structure SymbolLocation where
  sect : Str
  offset : Nat
  type : BitVec 32 := 0
  size : BitVec 64 := 0
  deriving DecidableEq, Repr

structure Section where
  name : Str
  idx : Nat
  output : Buffer := Buffer.empty
  code : Bool := false
  data : Bool := false
  resv : Bool := false
  execonly : Bool := false
  readonly : Bool := false
  hasBaseAddr : Bool := false
  labelQueue : List Str := []
  baseAddress : BitVec 128 := 0
  deriving DecidableEq

def sizeT (n : Nat) : BitVec 64 := BitVec.ofNat 64 n

/-- The mask rounding of Section::align: (size + (alignment-1)) & ~(alignment-1). -/
def alignedSize (size : Nat) (alignment : BitVec 64) : Nat :=
  ((sizeT size + (alignment - 1)) &&& ~~~(alignment - 1)).toNat

namespace Section

def size (s : Section) : Nat := s.output.size

def addressAt (s : Section) (offset : Nat) : BitVec 128 := s.baseAddress + BitVec.ofNat 128 offset

def setBaseAddress (nba : BitVec 128) (s : Section) : Section :=
  { s with baseAddress := nba, hasBaseAddr := true }

def addLabelSoon (name : Str) (s : Section) : Section :=
  { s with labelQueue := s.labelQueue ++ [name] }

def setOutput (s : Section) : Option Buffer → Except Failure Section
  | some output => .ok { s with output }
  | none => .error .lengthError

def mark (type : OutputType) (s : Section) : Section :=
  match type with
  | .code => { s with code := true }
  | .data => { s with data := true }
  | .resv => { s with resv := true }

def addOutput (type : OutputType) (data : List Byte) (s : Section) : Except Failure Section := do
  let s ← s.setOutput (s.output.append data)
  return s.mark type

def allocate (len : BitVec 64) (s : Section) : Except Failure Section := do
  let s ← s.setOutput (s.output.resize (sizeT s.size + len).toNat)
  return s.mark .resv

def align (alignment : BitVec 64) (s : Section) : Except Failure Section :=
  let newsize := alignedSize s.size alignment
  if s.size ≠ newsize then s.setOutput (s.output.resize newsize) else .ok s

end Section

end BigAsm
