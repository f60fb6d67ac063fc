import Mathlib
import BigAsm.Effects

/- The statements of a program, read from its tokens ahead of their execution. Included files
   are spliced in, so assembling a program is running one list of statements. -/
namespace BigAsm
open ByteStore Runs

/-- What one token of the assemble loop begins. -/
inductive Line where
  | stmt (x : Statement)
  | included (tokens : List Token) (rpath : Option Str)
  | unknown

def opcodeStatement (op : Opcode) : Reader Statement := fun ts =>
  match h : op.handler ts with
  | .ok (code, rest) => .ok (.opcode code (handler_wellFormed op ts code rest h), rest)
  | .error e => .error e

def dataStatement (scale : Scale) (bytes : BitVec 64 → List Byte) : Reader Line := do
  let constant ← nextOf .constant
  return .stmt (.data scale (bytes constant.u64))

def reserveStatement (scale : Scale) : Reader Line := do
  let times ← nextOf .constant
  return .stmt (.reserve scale times.u64)

def pseudoStatement (env : Env) (rpath : Option Str) : PseudoOp → Reader Line
  | .data128 => dataStatement .quad fun u => littleEndian 16 (u.setWidth 128)
  | .data64 => dataStatement .double fun u => littleEndian 8 u
  | .data32 => dataStatement .word fun u => littleEndian 4 (u.setWidth 32)
  | .data16 => dataStatement .half fun u => littleEndian 2 (u.setWidth 16)
  | .data8 => do
    let constant ← nextOf .constant
    return .stmt (.db (constant.u64.setWidth 8))
  | .resv8 => do
    let times ← nextOf .constant
    return .stmt (.resb times.u64)
  | .resv16 => reserveStatement .half
  | .resv32 => reserveStatement .word
  | .resv64 => reserveStatement .double
  | .resv128 => reserveStatement .quad
  | .incbin => do
    let filename ← nextOf .string
    let contents ← lift (loadFile env filename.value rpath)
    return .stmt (.data .byte contents)

def symbolStatement (f : Str → Statement) : Reader Line := do
  let sym ← nextOf .symbol
  return .stmt (f sym.value)

def stringStatement (scale : Scale) (bytes : Str → List Byte) : Reader Line := do
  let str ← nextOf .string
  return .stmt (.data scale (bytes str.value))

def directiveStatement (env : Env) (rpath : Option Str) (token : Token) : Reader Line :=
  match findName directiveList token.value with
  | some .align => do
    let alignment ← nextOf .constant
    return .stmt (.align alignment.u64)
  | some .endfunc => symbolStatement .endfunc
  | some .finishLabels => return .stmt .finishLabels
  | some .global => symbolStatement .global
  | some .include => do
    let sym ← nextOf .string
    let contents ← lift (loadFile env sym.value rpath)
    let tokens ← lift (split contents)
    return .included tokens (getRealpath env sym.value)
  | some .sect => do
    let sect ← nextOf .directive
    return .stmt (.sect sect.value)
  | some .org => do
    let ba ← nextOf .constant
    return .stmt (.org ba.u128)
  | some .execonly => return .stmt .execonly
  | some .readonly => return .stmt .readonly
  | some .type => do
    let sym ← nextOf .symbol
    let info ← nextOf .symbol
    let type ← lift (symbolType info.value)
    return .stmt (.type sym.value type)
  | some .size => symbolStatement .size
  | some .string => stringStatement .byte fun value => value ++ [0]
  | some .strlen => stringStatement .word fun value => littleEndian 4 (BitVec.ofNat 32 value.length)
  | some .ascii => stringStatement .byte fun value => value
  | none => return .unknown

def readLine (env : Env) (rpath : Option Str) (token : Token) : Reader Line :=
  match token.kind with
  | .directive => directiveStatement env rpath token
  | .label => return .stmt (.label token.value)
  | .opcode op => do
    let x ← opcodeStatement op
    return .stmt x
  | .pseudoop op => pseudoStatement env rpath op
  | _ => throw (.runtime (lit "Unexpected token: " ++ token.toStr))

def Line.play (nested : List Token → Option Str → Asm Unit) : Line → Asm Unit
  | .stmt x => update fun s => x.exec s
  | .included tokens rpath => nested tokens rpath
  | .unknown => pure ()

theorem read_ok_iff {α : Type} {r : Reader α} {a b : Assembler} {x : α} :
    read r a = .ok (x, b) ↔ ∃ ts, r a.tokens = .ok (x, ts) ∧ { a with tokens := ts } = b := by
  simp only [read, bind_ok_iff, pure_ok_iff, Prod.exists, Prod.mk.injEq]
  constructor
  · rintro ⟨x', ts, done, rfl, eq⟩
    exact ⟨ts, done, eq⟩
  · rintro ⟨ts, done, eq⟩
    exact ⟨x, ts, done, rfl, eq⟩

theorem update_ok_iff {f : State → Except Failure State} {a b : Assembler} {u : Unit} :
    update f a = .ok (u, b) ↔ ∃ t, f a.state = .ok t ∧ { a with state := t } = b := by
  simp only [update, bind_ok_iff, pure_ok_iff, Prod.mk.injEq, true_and]

/-- One round of the loop and its line agree: they read the same tokens, and what the round
    does to the assembler is what the line does. -/
def Reads (nested : List Token → Option Str → Asm Unit) (rpath : Option Str) (m : Asm Unit)
    (r : Reader Line) : Prop :=
  ∀ a q, a.realpath = rpath → (m a = .ok q ↔
    ∃ line rest, r a.tokens = .ok (line, rest) ∧ line.play nested { a with tokens := rest } = .ok q)

namespace Reads
variable {nested : List Token → Option Str → Asm Unit} {rpath : Option Str} {α : Type}

theorem play (line : Line) : Reads nested rpath (line.play nested) (Pure.pure line) := by
  intro a q _
  constructor
  · intro run
    exact ⟨line, a.tokens, rfl, run⟩
  · rintro ⟨line', rest, eq, run⟩
    obtain ⟨rfl, rfl⟩ := stateT_pure_ok_iff.mp eq
    exact run

theorem read {r : Reader α} {m : α → Asm Unit} {f : α → Reader Line}
    (rest : ∀ x, Reads nested rpath (m x) (f x)) :
    Reads nested rpath (BigAsm.read r >>= m) (r >>= f) := by
  intro a q here
  rcases q with ⟨u, b⟩
  rw [stateT_bind_ok_iff]
  constructor
  · rintro ⟨x, m, run, later⟩
    obtain ⟨ts, done, rfl⟩ := read_ok_iff.mp run
    obtain ⟨line, ts', read, played⟩ := (rest x { a with tokens := ts } (u, b) here).mp later
    exact ⟨line, ts', stateT_bind_ok_iff.mpr ⟨x, ts, done, read⟩, played⟩
  · rintro ⟨line, ts', run, played⟩
    obtain ⟨x, ts, done, read⟩ := stateT_bind_ok_iff.mp run
    exact ⟨x, { a with tokens := ts }, read_ok_iff.mpr ⟨ts, done, rfl⟩,
      (rest x { a with tokens := ts } (u, b) here).mpr ⟨line, ts', read, played⟩⟩

theorem realpath {m : Assembler → Asm Unit} {r : Reader Line}
    (rest : ∀ a : Assembler, a.realpath = rpath → Reads nested rpath (m a) r) :
    Reads nested rpath (get >>= m) r :=
  fun a q here => rest a here a q here

theorem throw {e : Failure} : Reads nested rpath (throw e) (throw e) := by
  intro a q _
  constructor
  · intro run
    cases run
  · rintro ⟨line, rest, run, -⟩
    cases run

end Reads

theorem emitData_zero (data : List Byte) :
    State.emitData 0 data = State.emitData Scale.byte.bytes data := by
  funext s
  have zero : s.alignAbove s.current 0 = .ok s := if_neg (by decide)
  have one : s.alignAbove s.current Scale.byte.bytes = .ok s := if_neg (by decide)
  simp only [State.emitData, State.alignWithLabels, State.sectionAlignWithLabels, zero, one]

section Agreement
variable (env : Env) (nested : List Token → Option Str → Asm Unit) (rpath : Option Str)

theorem pseudoOp_reads (op : PseudoOp) :
    Reads nested rpath (op.handler env) (pseudoStatement env rpath op) := by
  cases op with
  | incbin =>
    refine .read fun filename => .realpath fun a here => ?_
    rw [here]
    exact .read fun contents => .play (.stmt (.data .byte contents))
  | data8 => exact .read fun constant => .play (.stmt (.db _))
  | data16 => exact .read fun constant => .play (.stmt (.data .half _))
  | data32 => exact .read fun constant => .play (.stmt (.data .word _))
  | data64 => exact .read fun constant => .play (.stmt (.data .double _))
  | data128 => exact .read fun constant => .play (.stmt (.data .quad _))
  | resv8 => exact .read fun times => .play (.stmt (.resb _))
  | resv16 => exact .read fun times => .play (.stmt (.reserve .half _))
  | resv32 => exact .read fun times => .play (.stmt (.reserve .word _))
  | resv64 => exact .read fun times => .play (.stmt (.reserve .double _))
  | resv128 => exact .read fun times => .play (.stmt (.reserve .quad _))

theorem directive_reads (token : Token) :
    Reads nested rpath (directive env nested token) (directiveStatement env rpath token) := by
  unfold directive directiveStatement
  cases findName directiveList token.value with
  | none => exact .play .unknown
  | some d =>
    cases d with
    | «include» =>
      refine .read fun sym => .realpath fun a here => ?_
      rw [here]
      exact .read fun contents => .read fun tokens => .play (.included _ _)
    | align => exact .read fun alignment => .play (.stmt (.align _))
    | endfunc => exact .read fun sym => .play (.stmt (.endfunc _))
    | finishLabels => exact .play (.stmt .finishLabels)
    | global => exact .read fun sym => .play (.stmt (.global _))
    | sect => exact .read fun sect => .play (.stmt (.sect _))
    | org => exact .read fun ba => .play (.stmt (.org _))
    | execonly => exact .play (.stmt .execonly)
    | readonly => exact .play (.stmt .readonly)
    | type =>
      exact .read fun sym => .read fun info => .read fun type => .play (.stmt (.type _ _))
    | size => exact .read fun sym => .play (.stmt (.size _))
    | string | ascii =>
      simp only [emitData_zero]
      exact .read fun str => .play (.stmt (.data .byte _))
    | strlen => exact .read fun str => .play (.stmt (.data .word _))

theorem play_stmt_ok_iff {nested : List Token → Option Str → Asm Unit} {x : Statement}
    {a b : Assembler} {u : Unit} : (Line.stmt x).play nested a = .ok (u, b) ↔
      ∃ t, x.exec a.state = .ok t ∧ { a with state := t } = b := by
  change update (fun s => x.exec s) a = .ok (u, b) ↔ _
  exact update_ok_iff

theorem opcodeStatement_ok_iff {op : Opcode} {ts rest : List Token} {x : Statement} :
    opcodeStatement op ts = .ok (x, rest) ↔
      ∃ code wf, op.handler ts = .ok (code, rest) ∧ x = .opcode code wf := by
  unfold opcodeStatement
  constructor
  · intro h
    split at h
    · rename_i code ts' done
      cases h
      exact ⟨code, _, done, rfl⟩
    · cases h
  · rintro ⟨code, wf, done, rfl⟩
    split
    · rename_i code' ts' done'
      rw [done] at done'
      cases done'
      rfl
    · rename_i e failed
      rw [done] at failed
      cases failed

def Line.Sourced (env : Env) (rpath : Option Str) : Line → Prop
  | .included tv path => ∃ name contents, loadFile env name rpath = .ok contents ∧
      split contents = .ok tv ∧ path = getRealpath env name
  | .stmt (.type _ t) => ∃ info, symbolType info = .ok t
  | _ => True

theorem lift_yields {α : Type} (x : Except Failure α) : Yields (fun a => x = .ok a) (lift x) := by
  intro ts a rest run
  obtain ⟨a', done, same⟩ := bind_ok_iff.mp run
  cases same
  exact done

theorem readLine_sourced (env : Env) (rpath : Option Str) (token : Token) :
    Yields (Line.Sourced env rpath) (readLine env rpath token) := by
  unfold readLine
  cases token.kind with
  | label => exact .pure True.intro
  | opcode op =>
    refine .bind (P := fun x => ∃ code wf, x = .opcode code wf) ?_ ?_
    · intro ts x rest run
      obtain ⟨code, wf, -, rfl⟩ := opcodeStatement_ok_iff.mp run
      exact ⟨code, wf, rfl⟩
    · rintro _ ⟨code, wf, rfl⟩
      exact .pure True.intro
  | pseudoop op =>
    cases op with
    | incbin => exact .bind_any fun _ => .bind_any fun _ => .pure True.intro
    | data8 | data16 | data32 | data64 | data128 | resv8 | resv16 | resv32 | resv64 | resv128 =>
      exact .bind_any fun _ => .pure True.intro
  | directive =>
    unfold directiveStatement
    cases findName directiveList token.value with
    | none => exact .pure True.intro
    | some d =>
      cases d with
      | «include» =>
        refine .bind_any fun sym => .bind (lift_yields _) fun contents loaded => ?_
        exact .bind (lift_yields _) fun tv tokens => .pure ⟨sym.value, contents, loaded, tokens, rfl⟩
      | type =>
        refine .bind_any fun sym => .bind_any fun info => .bind (lift_yields _) fun t named => ?_
        exact .pure ⟨info.value, named⟩
      | finishLabels | execonly | readonly => exact .pure True.intro
      | align | endfunc | global | sect | org | size | string | strlen | ascii =>
        exact .bind_any fun _ => .pure True.intro
  | string | symbol | register _ | constant _ | operator | unspec => exact .throw

/-- The round of an opcode aligns before it reads its operands; the handler sees only tokens,
    so reading first makes no difference to a run that succeeds. -/
theorem opcode_reads (op : Opcode) :
    Reads nested rpath (do
        update (State.alignWithLabels 4)
        let code ← read op.handler
        modify (State.scheduleFixup code)
        update (State.emitCode code.words))
      (do
        let x ← opcodeStatement op
        return .stmt x) := by
  rintro a ⟨u, b⟩ -
  simp only [stateT_bind_ok_iff, stateT_pure_ok_iff, opcodeStatement_ok_iff]
  constructor
  · rintro ⟨_, m1, first, code, m2, second, _, m3, third, fourth⟩
    obtain ⟨s, aligned, rfl⟩ := update_ok_iff.mp first
    obtain ⟨ts, done, rfl⟩ := read_ok_iff.mp second
    obtain ⟨_, ⟨⟩, rfl⟩ := update_ok_iff.mp third
    obtain ⟨t, written, rfl⟩ := update_ok_iff.mp fourth
    have wf := handler_wellFormed op a.tokens code ts done
    exact ⟨_, ts, ⟨.opcode code wf, ts, ⟨code, wf, done, rfl⟩, rfl, rfl⟩,
      play_stmt_ok_iff.mpr ⟨t, bind_ok_iff.mpr ⟨s, aligned, written⟩, rfl⟩⟩
  · rintro ⟨_, ts, ⟨_, _, ⟨code, wf, done, rfl⟩, rfl, rfl⟩, played⟩
    obtain ⟨t, run, rfl⟩ := play_stmt_ok_iff.mp played
    obtain ⟨s, aligned, written⟩ := bind_ok_iff.mp run
    exact ⟨(), _, update_ok_iff.mpr ⟨s, aligned, rfl⟩, code, _, read_ok_iff.mpr ⟨_, done, rfl⟩,
      (), _, update_ok_iff.mpr ⟨_, rfl, rfl⟩, update_ok_iff.mpr ⟨t, written, rfl⟩⟩

theorem statement_reads (token : Token) :
    Reads nested rpath (statement env nested token) (readLine env rpath token) := by
  unfold statement readLine
  cases token.kind with
  | directive => exact directive_reads env nested rpath token
  | label => exact .play (.stmt (.label _))
  | opcode op => exact opcode_reads nested rpath op
  | pseudoop op => exact pseudoOp_reads env nested rpath op
  | string | symbol | register _ | constant _ | operator | unspec => exact .throw

end Agreement

def Line.expand (nested : List Token → Option Str → Except Failure (List Statement)) :
    Line → Except Failure (List Statement)
  | .stmt x => .ok [x]
  | .included tokens rpath => nested tokens rpath
  | .unknown => .ok []

def expandRounds (env : Env) (nested : List Token → Option Str → Except Failure (List Statement))
    (rpath : Option Str) : Nat → Reader (List Statement)
  | 0, ts => .ok ([], ts)
  | _ + 1, [] => .ok ([], [])
  | rounds + 1, token :: ts => do
    let (line, ts) ← readLine env rpath token ts
    let here ← line.expand nested
    let (later, ts) ← expandRounds env nested rpath rounds ts
    return (here ++ later, ts)

/-- The statements of a file with those of its included files in place. -/
def expand (env : Env) : Nat → List Token → Option Str → Except Failure (List Statement)
  | 0, _, _ => .error .nesting
  | depth + 1, tv, rpath => Prod.fst <$> expandRounds env (expand env depth) rpath tv.length tv

/-- A nested call of assemble runs the statements its expansion lists, and gives the tokens
    and the path of its caller back. -/
def Expands (nested : List Token → Option Str → Asm Unit)
    (listed : List Token → Option Str → Except Failure (List Statement)) : Prop :=
  ∀ tv rpath a b, a.state.options.base &&& 0xF = 0 → (nested tv rpath a = .ok ((), b) ↔
    ∃ xs t, listed tv rpath = .ok xs ∧ execAll a.state xs = .ok t ∧ { a with state := t } = b)

theorem execAll_options {s t : State} {xs : List Statement} (run : execAll s xs = .ok t) :
    t.options = s.options :=
  (run_relation (fun s t : State => s.options = t.options) (fun _ => rfl)
    (fun _ _ _ => Eq.trans) (fun _ _ _ step => (Statement.exec_effect step).options.symm) run).symm

theorem execAll_aligned {s t : State} {xs : List Statement} (run : execAll s xs = .ok t)
    (aligned : s.options.base &&& 0xF = 0) : t.options.base &&& 0xF = 0 := by
  rw [execAll_options run]
  exact aligned

theorem line_expands {nested : List Token → Option Str → Asm Unit}
    {listed : List Token → Option Str → Except Failure (List Statement)}
    (agree : Expands nested listed) (line : Line) {a b : Assembler}
    (aligned : a.state.options.base &&& 0xF = 0) :
    line.play nested a = .ok ((), b) ↔
      ∃ xs t, line.expand listed = .ok xs ∧ execAll a.state xs = .ok t ∧
        { a with state := t } = b := by
  cases line with
  | stmt x =>
    rw [play_stmt_ok_iff]
    simp [Line.expand, execAll]
  | included tokens rpath => exact agree tokens rpath a b aligned
  | unknown =>
    rw [Line.play, stateT_pure_ok_iff]
    simp [Line.expand, execAll, pure_ok_iff]

theorem statements_succ (env : Env) (nested : List Token → Option Str → Asm Unit) (n : Nat)
    (a : Assembler) : statements env nested (n + 1) a =
      match a.tokens with
      | [] => .ok ((), a)
      | token :: rest =>
        (statement env nested token >>= fun _ => statements env nested n)
          { a with tokens := rest } := by
  rcases a with ⟨s, _ | ⟨token, rest⟩, rpath⟩ <;> rfl

theorem statements_expand {env : Env} {nested : List Token → Option Str → Asm Unit}
    {listed : List Token → Option Str → Except Failure (List Statement)}
    (agree : Expands nested listed) (n : Nat) {a b : Assembler}
    (aligned : a.state.options.base &&& 0xF = 0) :
    statements env nested n a = .ok ((), b) ↔
      ∃ xs rest t, expandRounds env listed a.realpath n a.tokens = .ok (xs, rest) ∧
        execAll a.state xs = .ok t ∧ { a with state := t, tokens := rest } = b := by
  induction n generalizing a with
  | zero => simp [statements, stateT_pure_ok_iff, expandRounds, execAll, pure_ok_iff]
  | succ n ih =>
    rw [statements_succ]
    rcases a with ⟨s, _ | ⟨token, ts⟩, rpath⟩
    · simp [expandRounds, execAll, pure_ok_iff]
    · have round := statement_reads env nested rpath token ⟨s, ts, rpath⟩
      simp only [stateT_bind_ok_iff, expandRounds, bind_ok_iff, pure_ok_iff, Prod.exists,
        Prod.mk.injEq]
      constructor
      · rintro ⟨_, m, first, later⟩
        obtain ⟨line, ts', read, played⟩ := (round ((), m) rfl).mp first
        obtain ⟨xs, t, here, ran, rfl⟩ :=
          (line_expands agree line (a := ⟨s, ts', rpath⟩) aligned).mp played
        obtain ⟨ys, rest, u, listed, ran', rfl⟩ :=
          (ih (a := ⟨t, ts', rpath⟩) (execAll_aligned ran aligned)).mp later
        exact ⟨xs ++ ys, rest, u, ⟨line, ts', read, xs, here, ys, rest, listed, rfl, rfl⟩,
          run_append_iff.mpr ⟨t, ran, ran'⟩, rfl⟩
      · rintro ⟨_, _, u, ⟨line, ts', read, xs, here, ys, rest, listed, rfl, rfl⟩, run, rfl⟩
        obtain ⟨t, ran, ran'⟩ := run_append_iff.mp run
        exact ⟨(), ⟨t, ts', rpath⟩, (round _ rfl).mpr ⟨line, ts', read,
            (line_expands agree line (a := ⟨s, ts', rpath⟩) aligned).mpr ⟨xs, t, here, ran, rfl⟩⟩,
          (ih (execAll_aligned ran aligned)).mpr ⟨ys, rest, u, listed, ran', rfl⟩⟩

theorem checkBase_ok_iff {s t : State} :
    s.checkBase = .ok t ↔ s.options.base &&& 0xF = 0 ∧ s = t := by
  unfold State.checkBase
  split <;> simp_all

theorem assemble_succ (env : Env) (depth : Nat) (tv : List Token) (rpath : Option Str)
    (a : Assembler) : assemble env (depth + 1) tv rpath a =
      (update State.checkBase >>= fun _ => statements env (assemble env depth) tv.length >>=
        fun _ c => .ok ((), { c with tokens := a.tokens, realpath := a.realpath }))
        { a with tokens := tv, realpath := rpath } := rfl

theorem assemble_expands (env : Env) (depth : Nat) : Expands (assemble env depth) (expand env depth) := by
  induction depth with
  | zero =>
    intro tv rpath a b _
    constructor
    · intro run
      cases run
    · rintro ⟨xs, t, listed, -⟩
      cases listed
  | succ depth ih =>
    intro tv rpath a b aligned
    rw [assemble_succ]
    simp only [stateT_bind_ok_iff, update_ok_iff, checkBase_ok_iff]
    constructor
    · rintro ⟨_, _, ⟨_, ⟨-, rfl⟩, rfl⟩, _, m, ran, done⟩
      obtain ⟨xs, rest, t, listed, run, rfl⟩ :=
        (statements_expand ih tv.length (a := ⟨a.state, tv, rpath⟩) aligned).mp ran
      cases done
      exact ⟨xs, t, map_ok_iff.mpr ⟨_, listed, rfl⟩, run, rfl⟩
    · rintro ⟨xs, t, listed, run, rfl⟩
      obtain ⟨⟨_, rest⟩, rounds, rfl⟩ := map_ok_iff.mp listed
      exact ⟨(), _, ⟨_, ⟨aligned, rfl⟩, rfl⟩, (), ⟨t, rest, rpath⟩,
        (statements_expand ih tv.length (a := ⟨a.state, tv, rpath⟩) aligned).mpr
          ⟨_, rest, t, rounds, run, rfl⟩, rfl⟩

theorem assemble_aligned {env : Env} {depth : Nat} {tv : List Token} {rpath : Option Str}
    {a b : Assembler} (run : assemble env depth tv rpath a = .ok ((), b)) :
    a.state.options.base &&& 0xF = 0 := by
  cases depth with
  | zero => cases run
  | succ depth =>
    rw [assemble_succ] at run
    obtain ⟨_, _, checked, -⟩ := stateT_bind_ok_iff.mp run
    obtain ⟨t, checked, -⟩ := update_ok_iff.mp checked
    exact (checkBase_ok_iff.mp checked).1

def expandFiles (env : Env) (depth : Nat) :
    List (List Token × Option Str) → Except Failure (List Statement)
  | [] => .ok []
  | (tv, rpath) :: files => do
    let here ← expand env depth tv rpath
    let later ← expandFiles env depth files
    return here ++ later

theorem assembleFiles_expand {env : Env} {depth : Nat} {files : List (List Token × Option Str)}
    {a b : Assembler} (run : assembleFiles env depth files a = .ok ((), b)) :
    ∃ xs, expandFiles env depth files = .ok xs ∧ execAll a.state xs = .ok b.state := by
  induction files generalizing a with
  | nil =>
    obtain ⟨-, rfl⟩ := stateT_pure_ok_iff.mp run
    exact ⟨[], rfl, rfl⟩
  | cons file files ih =>
    obtain ⟨_, m, first, rest⟩ := stateT_bind_ok_iff.mp run
    obtain ⟨xs, t, listed, ran, rfl⟩ :=
      (assemble_expands env depth _ _ _ _ (assemble_aligned first)).mp first
    obtain ⟨ys, listed', ran'⟩ := ih rest
    exact ⟨xs ++ ys, bind_ok_iff.mpr ⟨xs, listed, bind_ok_iff.mpr ⟨ys, listed', rfl⟩⟩,
      run_append_iff.mpr ⟨t, ran, ran'⟩⟩

/-- Files that assemble accepted, one after the other, from a new assembler. -/
structure Program (env : Env) (options : Options) where
  depth : Nat
  files : List (List Token × Option Str)
  final : Assembler
  accepted : assembleFiles env depth files (Assembler.new options) = .ok ((), final)

namespace Program
variable {env : Env} {options : Options}

def statements (p : Program env options) : List Statement :=
  result (expandFiles env p.depth p.files)

theorem ran (p : Program env options) :
    execAll (State.new options) p.statements = .ok p.final.state := by
  obtain ⟨xs, listed, run⟩ := assembleFiles_expand p.accepted
  rw [statements, listed]
  exact run

structure Processes (p : Program env options) (pre : List Statement) (x : Statement)
    (post : List Statement) (s : State) : Prop where
  split : p.statements = pre ++ x :: post
  before : execAll (State.new options) pre = .ok s

theorem Processes.after {p : Program env options} {pre post : List Statement} {x : Statement}
    {s : State} (h : p.Processes pre x post s) :
    ∃ t, x.exec s = .ok t ∧ execAll t post = .ok p.final.state := by
  have run := p.ran
  rw [h.split] at run
  obtain ⟨s', before, rest⟩ := run_append_iff.mp run
  cases h.before.symm.trans before
  exact run_cons_iff.mp rest

end Program

instance : Inhabited State := ⟨State.new {}⟩
instance : Inhabited Assembler := ⟨Assembler.new {}⟩

def Env.noFiles : Env := ⟨fun _ => none, fun path => path, fun _ => none⟩

def assembleSource (options : Options) (source : Str) : Except Failure Assembler := do
  let tv ← split source
  Prod.snd <$> assembleFiles Env.noFiles 1 [(tv, none)] (Assembler.new options)

def Program.ofSource (options : Options) (source : Str)
    (accepted : (assembleSource options source).isOk = true) : Program Env.noFiles options where
  depth := 1
  files := [(result (split source), none)]
  final := result (assembleSource options source)
  accepted := by
    obtain ⟨tv, tokens, run⟩ := bind_ok_iff.mp (eq_ok_result accepted)
    obtain ⟨⟨_, a⟩, done, same⟩ := map_ok_iff.mp run
    change a = result (assembleSource options source) at same
    rw [tokens, ← same]
    exact done

end BigAsm
