import Mathlib
import BigAsm.Section

/- The assembler apart from its token cursor: the sections with the current one, the symbol
   map, the scheduled operations and the globals, with the operations the handlers call. -/
namespace BigAsm
open ByteStore

structure Options where
  base : BitVec 128 := 0x100000
  entry : Str := lit "_start"
  sectionAttrPageSeparation : Bool := true

/-- What a scheduled opcode patches, one for each lambda of opcodes.cpp; call and jmp share
    theirs word for word. -/
inductive Fixup where
  | la | laq | branch | farcall | jump
  deriving DecidableEq, Repr

/-- A scheduled_op_t with the locations it captured. -/
inductive ScheduledOp where
  | fixup (f : Fixup) (loc : SymbolLocation)
  | endfunc (loc : SymbolLocation)
  | type (type : BitVec 32)
  | size (loc dataloc : SymbolLocation)
  deriving DecidableEq, Repr

abbrev StrMap (β : Type) := Std.ExtTreeMap Str β compare

instance transCmpStr : Std.TransCmp (compare : Str → Str → Ordering) := inferInstance

@[ext]
structure State where
  options : Options
  sections : StrMap Section
  current : Str
  currentMem : current ∈ sections
  lookup : StrMap SymbolLocation
  schedule : StrMap (List ScheduledOp)
  globals : StrMap Unit

namespace State

/-- The section a pointer denotes; every pointer of the source is to an existing section. -/
def sectionAt (s : State) (name : Str) : Section :=
  (s.sections[name]?).getD { name := name, idx := 0 }

def currentSection (s : State) : Section := s.sectionAt s.current

def putSection (s : State) (name : Str) (sect : Section) : State :=
  { s with
    sections := s.sections.modify name fun _ => sect
    currentMem := Std.ExtTreeMap.mem_modify.mpr s.currentMem }

def onSection (s : State) (name : Str) (f : Section → Except Failure Section) :
    Except Failure State := do
  let sect ← f (s.sectionAt name)
  return s.putSection name sect

/-- Assembler::section and set_section: a new section gets the next index. -/
def setSection (s : State) (name : Str) : State :=
  { s with
    sections := s.sections.insertIfNew name { name := name, idx := s.sections.size }
    current := name
    currentMem := by simp }

/-- Assembler::Assembler: the default section has the base address of the options. -/
def new (options : Options) : State :=
  let s : State :=
    { options := options
      sections := (∅ : StrMap Section).insertIfNew (lit ".text")
        { name := lit ".text", idx := 0 }
      current := lit ".text"
      currentMem := by simp
      lookup := ∅
      schedule := ∅
      globals := ∅ }
  s.putSection s.current (s.currentSection.setBaseAddress options.base)

def currentLocation (s : State) : SymbolLocation := ⟨s.current, s.currentSection.size, 0, 0⟩

def address (s : State) (loc : SymbolLocation) : BitVec 128 :=
  (s.sectionAt loc.sect).addressAt loc.offset

def addOutput (type : OutputType) (data : List Byte) (s : State) : Except Failure State :=
  s.onSection s.current (Section.addOutput type data)

def allocate (len : BitVec 64) (s : State) : Except Failure State :=
  s.onSection s.current (Section.allocate len)

def align (alignment : BitVec 64) (s : State) : Except Failure State :=
  s.onSection s.current (Section.align alignment)

def addLabelSoon (name : Str) (s : State) : State :=
  s.putSection s.current (s.currentSection.addLabelSoon name)

/-- emplace keeps an entry that is already there. -/
def addSymbolHere (s : State) (name : Str) : State :=
  { s with lookup := s.lookup.insertIfNew name s.currentLocation }

/-- An alignment of 0 or 1 is skipped. -/
def alignAbove (name : Str) (alignment : BitVec 64) (s : State) : Except Failure State :=
  if 1 < alignment.toNat then s.onSection name (Section.align alignment) else .ok s

/-- Section::align_with_labels. The queue is that of the section name; the symbols are
    added by the assembler, at the end of its current section. -/
def sectionAlignWithLabels (name : Str) (alignment : BitVec 64) (s : State) :
    Except Failure State := do
  let s ← s.alignAbove name alignment
  let s := (s.sectionAt name).labelQueue.foldl addSymbolHere s
  return s.putSection name { s.sectionAt name with labelQueue := [] }

def alignWithLabels (alignment : BitVec 64) (s : State) : Except Failure State :=
  s.sectionAlignWithLabels s.current alignment

def scheduleOp (sym : Str) (op : ScheduledOp) (s : State) : State :=
  { s with schedule := s.schedule.alter sym fun ops => some (ops.getD [] ++ [op]) }

def makeGlobal (name : Str) (s : State) : State :=
  { s with globals := s.globals.insert name () }

end State

end BigAsm
