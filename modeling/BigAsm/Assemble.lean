import Mathlib
import BigAsm.Finish
import BigAsm.Tokenizer

/- Pseudo-ops, directives and Assembler::assemble. The token cursor and the directory of the
   current file are saved and restored around each nested .include. -/
namespace BigAsm
open ByteStore

/-- What the assembler asks of the operating system. -/
structure Env where
  fopen : Str → Option Str
  dirname : Str → Str
  realpath : Str → Option Str

structure Assembler where
  state : State
  tokens : List Token := []
  realpath : Option Str := none

abbrev Asm := StateT Assembler (Except Failure)

def Assembler.new (options : Options) : Assembler := { state := State.new options }

def read (r : Reader α) : Asm α := fun a => do
  let (x, tokens) ← r a.tokens
  return (x, { a with tokens })

def lift (x : Except Failure α) : Reader α := fun ts => do return (← x, ts)

def update (f : State → Except Failure State) : Asm Unit := fun a => do
  let state ← f a.state
  return ((), { a with state })

def modify (f : State → State) : Asm Unit := update fun s => .ok (f s)

def getRealpath (env : Env) (path : Str) : Option Str := env.realpath (env.dirname path)

def loadFile (env : Env) (filename : Str) (rpath : Option Str) : Except Failure Str :=
  let relpath := rpath.bind fun r => env.fopen (r ++ lit "/" ++ filename)
  match (env.fopen filename).or relpath with
  | some contents => .ok contents
  | none => .error (.runtime (lit "Could not open file: " ++ filename))

namespace State

/-- align_with_labels and one write of data: what most pseudo-ops and directives do. -/
def emitData (alignment : BitVec 64) (data : List Byte) (s : State) : Except Failure State := do
  let s ← s.alignWithLabels alignment
  s.addOutput .data data

/-- RESV_16 to RESV_128: the element size is the alignment, and the product wraps. -/
def reserve (element times : BitVec 64) (s : State) : Except Failure State := do
  let s ← s.alignWithLabels element
  s.allocate (times * element)

def endfunc (sym : Str) (s : State) : State := s.scheduleOp sym (.endfunc s.currentLocation)

def org (base : BitVec 128) (s : State) : Except Failure State :=
  if s.currentSection.size > 0 then
    .error (.runtime (lit "Cannot change base address when instructions already generated"))
  else .ok (s.putSection s.current (s.currentSection.setBaseAddress base))

def makeExeconly (s : State) : State :=
  s.putSection s.current { s.currentSection with execonly := true }

def makeReadonly (s : State) : State :=
  s.putSection s.current { s.currentSection with readonly := true }

def symbolSetType (name : Str) (type : BitVec 32) (s : State) : State :=
  s.scheduleOp name (.type type)

/-- .size: dataloc is the position before the alignment, loc that of the word. -/
def emitSize (sym : Str) (s : State) : Except Failure State := do
  let dataloc := s.currentLocation
  let s ← s.alignWithLabels 4
  let s := s.scheduleOp sym (.size s.currentLocation dataloc)
  s.addOutput .data (wordBytes 0)

/-- The instructions of an opcode, after alignment; the handler's lambda captures the
    location of the first of them. -/
def scheduleFixup (code : Code) (s : State) : State :=
  match code.fixup with
  | some (lbl, f) => s.scheduleOp lbl (.fixup f s.currentLocation)
  | none => s

def emitCode (words : List Instruction) (s : State) : Except Failure State :=
  words.foldlM (fun s w => s.addOutput .code ((wordBytes w).take (Instruction.length w))) s

end State

/-- handler of each PseudoOp object. db and resb write without align_with_labels. -/
def PseudoOp.handler (env : Env) : PseudoOp → Asm Unit
  | .data128 => do
    let constant ← read (nextOf .constant)
    let value : BitVec 128 := constant.u64.setWidth 128
    update (State.emitData 16 (littleEndian 16 value))
  | .data64 => do
    let constant ← read (nextOf .constant)
    update (State.emitData 8 (littleEndian 8 constant.u64))
  | .data32 => do
    let constant ← read (nextOf .constant)
    let value : BitVec 32 := constant.u64.setWidth 32
    update (State.emitData 4 (littleEndian 4 value))
  | .data16 => do
    let constant ← read (nextOf .constant)
    let value : BitVec 16 := constant.u64.setWidth 16
    update (State.emitData 2 (littleEndian 2 value))
  | .data8 => do
    let constant ← read (nextOf .constant)
    let value : BitVec 8 := constant.u64.setWidth 8
    update (State.addOutput .data (littleEndian 1 value))
  | .resv8 => do
    let times ← read (nextOf .constant)
    update (State.allocate times.u64)
  | .resv16 => do
    let times ← read (nextOf .constant)
    update (State.reserve 2 times.u64)
  | .resv32 => do
    let times ← read (nextOf .constant)
    update (State.reserve 4 times.u64)
  | .resv64 => do
    let times ← read (nextOf .constant)
    update (State.reserve 8 times.u64)
  | .resv128 => do
    let times ← read (nextOf .constant)
    update (State.reserve 16 times.u64)
  | .incbin => do
    let filename ← read (nextOf .string)
    let contents ← read (lift (loadFile env filename.value (← get).realpath))
    update (State.emitData 1 contents)

inductive Directive where
  | align | endfunc | finishLabels | global | include | sect | org | execonly | readonly
  | type | size | string | strlen | ascii
  deriving DecidableEq, Repr

def directiveList : List (String × Directive) :=
  [(".align", .align), (".endfunc", .endfunc), (".finish_labels", .finishLabels),
   (".global", .global), (".include", .include), (".section", .sect), (".org", .org),
   (".execonly", .execonly), (".readonly", .readonly), (".type", .type), (".size", .size),
   (".string", .string), (".strlen", .strlen), (".ascii", .ascii)]

def symbolType (info : Str) : Except Failure (BitVec 32) :=
  if info = lit "object" then .ok STT_OBJECT
  else if info = lit "func" ∨ info = lit "function" then .ok STT_FUNC
  else .error (.runtime (lit "Unknown type: " ++ info))

/-- Assembler::directive; nested is the call of assemble on an included file. A directive
    that is not in the list only prints a message. -/
def directive (env : Env) (nested : List Token → Option Str → Asm Unit) (token : Token) :
    Asm Unit :=
  match findName directiveList token.value with
  | some .align => do
    let alignment ← read (nextOf .constant)
    update (State.align alignment.u64)
  | some .endfunc => do
    let sym ← read (nextOf .symbol)
    modify (State.endfunc sym.value)
  | some .finishLabels => update (State.alignWithLabels 0)
  | some .global => do
    let sym ← read (nextOf .symbol)
    modify (State.makeGlobal sym.value)
  | some .include => do
    let sym ← read (nextOf .string)
    let contents ← read (lift (loadFile env sym.value (← get).realpath))
    let tokens ← read (lift (split contents))
    nested tokens (getRealpath env sym.value)
  | some .sect => do
    let sect ← read (nextOf .directive)
    modify (·.setSection sect.value)
  | some .org => do
    let ba ← read (nextOf .constant)
    update (State.org ba.u128)
  | some .execonly => modify State.makeExeconly
  | some .readonly => modify State.makeReadonly
  | some .type => do
    let sym ← read (nextOf .symbol)
    let info ← read (nextOf .symbol)
    let type ← read (lift (symbolType info.value))
    modify (State.symbolSetType sym.value type)
  | some .size => do
    let sym ← read (nextOf .symbol)
    update (State.emitSize sym.value)
  | some .string => do
    let str ← read (nextOf .string)
    update (State.emitData 0 (str.value ++ [0]))
  | some .strlen => do
    let str ← read (nextOf .string)
    update (State.emitData 4 (littleEndian 4 (BitVec.ofNat 32 str.value.length)))
  | some .ascii => do
    let str ← read (nextOf .string)
    update (State.emitData 0 str.value)
  | none => pure ()

def statement (env : Env) (nested : List Token → Option Str → Asm Unit) (token : Token) :
    Asm Unit :=
  match token.kind with
  | .directive => directive env nested token
  | .label => modify (State.addLabelSoon token.value)
  | .opcode op => do
    update (State.alignWithLabels 4)
    let code ← read op.handler
    modify (State.scheduleFixup code)
    update (State.emitCode code.words)
  | .pseudoop op => op.handler env
  | _ => throw (.runtime (lit "Unexpected token: " ++ token.toStr))

/-- The while loop of assemble. Every statement takes at least its first token, so as many
    rounds as there are tokens reach the end. -/
def statements (env : Env) (nested : List Token → Option Str → Asm Unit) : Nat → Asm Unit
  | 0 => pure ()
  | rounds + 1 => do
    let a ← get
    match a.tokens with
    | [] => pure ()
    | token :: rest => do
      set { a with tokens := rest }
      statement env nested token
      statements env nested rounds

def State.checkBase (s : State) : Except Failure State :=
  if s.options.base &&& 0xF = 0 then .ok s else .error .assertion

/-- Assembler::assemble. The first argument bounds the depth of nested .include. -/
def assemble (env : Env) : Nat → List Token → Option Str → Asm Unit
  | 0, _, _ => throw .nesting
  | depth + 1, tv, rpath => do
    let prev ← get
    set { prev with tokens := tv, realpath := rpath }
    update State.checkBase
    statements env (assemble env depth) tv.length
    let a ← get
    set { a with tokens := prev.tokens, realpath := prev.realpath }

def assembleFiles (env : Env) (depth : Nat) (files : List (List Token × Option Str)) :
    Asm Unit :=
  files.forM fun (tv, rpath) => assemble env depth tv rpath

end BigAsm
