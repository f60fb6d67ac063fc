import Mathlib
import BigAsm.Opcodes

/- Assembler::finish: the last labels are attached, the sections get their addresses, and
   the scheduled operations patch the instructions and words that wait for an address. -/
namespace BigAsm
open ByteStore Instruction

namespace State

def locationIndex (s : State) (loc : SymbolLocation) (off : Nat) : Nat :=
  ((s.address loc + BitVec.ofNat 128 off -
    (s.sectionAt loc.sect).baseAddress).setWidth 64).toNat

/-- output.at checks the first byte and binds a reference to it; nothing is read yet. -/
def instructionAt (s : State) (loc : SymbolLocation) (off : Nat) : Except Failure Nat :=
  let i := s.locationIndex loc off
  if (s.sectionAt loc.sect).output.size ≤ i then .error .outOfRange else .ok i

/-- The word behind a reference. The three bytes after the first were not checked. -/
def readWord (s : State) (loc : SymbolLocation) (i : Nat) : Except Failure Instruction :=
  let output := (s.sectionAt loc.sect).output
  if output.size < i + 4 then .error .undefined else .ok (wordAt i output.bytes)

def setInstructionAt (s : State) (loc : SymbolLocation) (off : Nat) (w : Instruction) : State :=
  let sect := s.sectionAt loc.sect
  s.putSection loc.sect
    { sect with output := sect.output.overwrite (s.locationIndex loc off) (wordBytes w) }

def patchOne (s : State) (loc : SymbolLocation) (off : Nat) (f : Instruction → Instruction) :
    Except Failure State := do
  let i ← s.instructionAt loc off
  let instr ← s.readWord loc i
  return s.setInstructionAt loc off (f instr)

def patchPair (s : State) (loc : SymbolLocation) (off : Nat)
    (f : Instruction → Instruction → Instruction × Instruction) : Except Failure State := do
  let at1 ← s.instructionAt loc off
  let at2 ← s.instructionAt loc (off + 4)
  let i1 ← s.readWord loc at1
  let i2 ← s.readWord loc at2
  let (i1, i2) := f i1 i2
  return (s.setInstructionAt loc (off + 4) i2).setInstructionAt loc off i1

def setSymbol (s : State) (name : Str) (sym : SymbolLocation) : State :=
  { s with lookup := s.lookup.modify name fun _ => sym }

end State

def isRelativelyClose (diff : BitVec 64) : Bool :=
  decide (-2147483648 ≤ diff.toInt ∧ diff.toInt ≤ 2147483647)

def boundsCheckJump (diff : BitVec 64) : Except Failure Unit :=
  if diff.toInt < -2048 ∨ diff.toInt > 2047 then
    .error (tokenException { kind := .symbol, value := lit (toString diff.toInt) }
      (lit "Out of bounds address for jump"))
  else .ok ()

def setUint32 (value : BitVec 32) (i1 i2 : Instruction) : Instruction × Instruction :=
  let i2 := Itype.setImm (value.setWidth 12) i2
  (Utype.setImm (((value + (Itype.imm i2).setWidth 32).sshiftRight 12).setWidth 20) i1, i2)

def patchLa (diff : BitVec 64) (target : BitVec 128) (i1 i2 : Instruction) :
    Instruction × Instruction :=
  if isRelativelyClose diff then
    let i2 := Itype.setImm (diff.setWidth 12) i2
    (Utype.setImm (((diff + (Itype.imm i2).setWidth 64).sshiftRight 12).setWidth 20)
      (setOpcode RV32I_AUIPC i1), i2)
  else
    let i2 := Itype.setImm (target.setWidth 12) i2
    (Utype.setImm (((target + (Itype.imm i2).setWidth 128) >>> 12).setWidth 20) i1, i2)

def patchFarcall (target : BitVec 128) (i1 i2 : Instruction) : Instruction × Instruction :=
  (Utype.setImm ((target >>> 12).setWidth 20) i1, Itype.setImm (target.setWidth 12) i2)

def patchBranch (diff : BitVec 32) (instr : Instruction) : Instruction :=
  Btype.setImm4 ((diff.sshiftRight 12).setWidth 1)
    (Btype.setImm1 ((diff.sshiftRight 11).setWidth 1)
      (Btype.setImm3 ((diff.sshiftRight 5).setWidth 6)
        (Btype.setImm2 ((diff.sshiftRight 1).setWidth 4) instr)))

def STT_OBJECT : BitVec 32 := 1
def STT_FUNC : BitVec 32 := 2

/-- The word of .size: backward from the position of the directive, or forward from the end
    of the word itself. -/
def sizeWord (sym dataloc loc : BitVec 128) : BitVec 32 :=
  if sym < dataloc then (dataloc - sym).setWidth 32 else (sym - 4 - loc).setWidth 32

/-- The body of each lambda, for the symbol it is called with. -/
def Fixup.run (loc sym : SymbolLocation) (s : State) : Fixup → Except Failure State
  | .la => s.patchPair loc 0 (patchLa ((s.address sym - s.address loc).setWidth 64) (s.address sym))
  | .laq => do
    let s ← s.patchPair loc 0 (setUint32 ((s.address sym >>> 96).setWidth 32))
    let s ← s.patchPair loc (2 * 4) (setUint32 ((s.address sym >>> 64).setWidth 32))
    let s ← s.patchPair loc (6 * 4) (setUint32 ((s.address sym >>> 32).setWidth 32))
    s.patchPair loc (10 * 4) (setUint32 ((s.address sym >>> 0).setWidth 32))
  | .branch => s.patchOne loc 0 (patchBranch ((s.address sym - s.address loc).setWidth 32))
  | .farcall => s.patchPair loc 0 (patchFarcall (s.address sym))
  | .jump => do
    let i ← s.instructionAt loc 0
    let diff := (s.address sym - s.address loc).setWidth 64
    boundsCheckJump diff
    let instr ← s.readWord loc i
    return s.setInstructionAt loc 0 (setJump diff instr)

def ScheduledOp.run (name : Str) (sym : SymbolLocation) (s : State) :
    ScheduledOp → Except Failure State
  | .fixup f loc => f.run loc sym s
  | .endfunc loc =>
    .ok (s.setSymbol name { sym with
      size := (s.address loc - s.address sym).setWidth 64, type := STT_FUNC })
  | .type t => .ok (s.setSymbol name { sym with type := t })
  | .size loc dataloc => do
    let size := sizeWord (s.address sym) (s.address dataloc) (s.address loc)
    let s ← s.patchOne loc 0 fun _ => size
    return s.setSymbol name { sym with size := size.setWidth 64 }

namespace State

def runScheduled (s : State) (entry : Str × ScheduledOp) : Except Failure State :=
  match s.lookup[entry.1]? with
  | some sym => entry.2.run entry.1 sym s
  | none => .error (.runtime (lit "Unknown symbol scheduled: " ++ entry.1))

def finishScheduledWork (s : State) : Except Failure State :=
  s.schedule.toList.foldlM (fun s (name, ops) =>
    match s.lookup[name]? with
    | some _ => (ops.map (name, ·)).foldlM runScheduled s
    | none => .error (.runtime (lit "Unknown symbol scheduled: " ++ name))) s

def pageRealign (base : BitVec 128) : BitVec 128 := (base + 0xFFF) &&& ~~~0xFFF

/-- The running variables of the layout loop. -/
structure Layout where
  base : BitVec 128
  wasExecutable : Bool := false
  wasReadonly : Bool := false

/-- Page-realign when going from executable to non-executable, and readonly to writable. -/
def Layout.separate (l : Layout) (separation : Bool) (sect : Section) : Layout :=
  if separation then
    if l.wasExecutable && !sect.code then
      { l with wasExecutable := false, base := pageRealign l.base }
    else if l.wasReadonly && !sect.readonly then
      { l with wasReadonly := false, base := pageRealign l.base }
    else l
  else l

def layoutStep (acc : Layout × State) (idx : Nat) : Except Failure (Layout × State) :=
  let (l, s) := acc
  match s.sections.toList.find? fun entry => entry.2.idx == idx with
  | none => .error (.runtime (lit "Could not find section index " ++ lit (toString idx)))
  | some (name, sect) =>
    let (l, s) :=
      if !sect.hasBaseAddr then
        let l := l.separate s.options.sectionAttrPageSeparation sect
        (l, s.putSection name (sect.setBaseAddress l.base))
      else ({ l with base := sect.baseAddress, wasExecutable := sect.code }, s)
    .ok ({ l with base := (l.base + BitVec.ofNat 128 sect.size + 0xF) &&& ~~~0xF }, s)

def resolveBaseAddresses (s : State) : Except Failure State := do
  let (_, s) ← (List.range s.sections.size).foldlM layoutStep ({ base := s.options.base }, s)
  return s

/-- Output any remaining unattached labels: the queues of all sections in map order. -/
def flushLabels (s : State) : Except Failure State :=
  s.sections.keys.foldlM (fun s name => s.sectionAlignWithLabels name 1) s

/-- finish() up to the point where the scheduled operations run. -/
def prepare (s : State) : Except Failure State := do
  let s ← s.flushLabels
  s.resolveBaseAddresses

def finish (s : State) : Except Failure State := do
  let s ← s.prepare
  s.finishScheduledWork

end State

end BigAsm
