import Mathlib
import BigAsm.Assemble

/- The statements of a program after their operands are read, and what each of them does to
   the state of the assembler. Sizes of data elements are powers of two by construction. -/
namespace BigAsm
open ByteStore

inductive Scale where
  | byte | half | word | double | quad
  deriving DecidableEq, Repr

def Scale.bytes : Scale → BitVec 64
  | .byte => 1
  | .half => 2
  | .word => 4
  | .double => 8
  | .quad => 16

/-- One statement. data stands for dh to dq, .string, .strlen, .ascii and incbin, which all
    align, attach the waiting labels and write; db and resb do not attach labels. -/
inductive Statement where
  | label (name : Str)
  | opcode (code : Code) (wellFormed : code.WellFormed)
  | db (value : BitVec 8)
  | data (scale : Scale) (bytes : List Byte)
  | resb (times : BitVec 64)
  | reserve (scale : Scale) (times : BitVec 64)
  | size (sym : Str)
  | align (alignment : BitVec 64)
  | finishLabels
  | endfunc (sym : Str)
  | type (sym : Str) (type : BitVec 32)
  | global (sym : Str)
  | sect (name : Str)
  | org (base : BitVec 128)
  | execonly
  | readonly
  deriving DecidableEq

namespace Statement

def exec (s : State) : Statement → Except Failure State
  | .label name => .ok (s.addLabelSoon name)
  | .opcode code _ => do
    let s ← s.alignWithLabels 4
    (s.scheduleFixup code).emitCode code.words
  | .db value => s.addOutput .data (littleEndian 1 value)
  | .data scale bytes => s.emitData scale.bytes bytes
  | .resb times => s.allocate times
  | .reserve scale times => s.reserve scale.bytes times
  | .size sym => s.emitSize sym
  | .align alignment => s.align alignment
  | .finishLabels => s.alignWithLabels 0
  | .endfunc sym => .ok (s.endfunc sym)
  | .type sym t => .ok (s.symbolSetType sym t)
  | .global sym => .ok (s.makeGlobal sym)
  | .sect name => .ok (s.setSection name)
  | .org base => s.org base
  | .execonly => .ok s.makeExeconly
  | .readonly => .ok s.makeReadonly

def emits : Statement → Bool
  | .opcode .. | .db _ | .data .. | .resb _ | .reserve .. | .size _ => true
  | _ => false

def flushes : Statement → Bool
  | .opcode .. | .data .. | .reserve .. | .size _ | .finishLabels => true
  | _ => false

/-- The alignment a statement asks for before it writes, at most 1 when it asks for none. -/
def alignment : Statement → BitVec 64
  | .opcode .. => 4
  | .data scale _ => scale.bytes
  | .reserve scale _ => scale.bytes
  | .size _ => 4
  | _ => 1

def declares : Statement → List Str
  | .label name => [name]
  | _ => []

end Statement

abbrev execAll (s : State) (xs : List Statement) : Except Failure State := xs.foldlM Statement.exec s

end BigAsm
