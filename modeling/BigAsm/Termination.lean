import Mathlib
import BigAsm.Splicing
import BigAsm.Library.Lassos

/- When assembling ends. Nothing keeps a file from including itself, so an assembly can open one
   file inside the other for ever, at every bound on the nesting of the model. -/
namespace BigAsm
open ByteStore Runs Lassos

/- Nothing but a nested call reports the bound on the nesting. -/

namespace Spared

theorem apply (op : ConstantOp) (sum value : BitVec 128) : Avoids .nesting (op.apply sum value) := by
  cases op with
  | div | mod | shr | shl => exact .ite (.error (by intro h; cases h)) (.ok _)
  | add | sub | mul | and | or | xor => exact .ok _

theorem resolveLoop (ts : List Token) (sum : BitVec 128) (ops : Option ConstantOp)
    (isNegated : Bool) : Avoids .nesting (BigAsm.resolveLoop sum ops isNegated ts) := by
  induction ts generalizing sum ops isNegated with
  | nil => exact .ok _
  | cons tk ts ih =>
    rcases tk with ⟨kind, line, value⟩
    cases kind with
    | constant u =>
      rw [resolveLoop_constant]
      cases ops with
      | none => exact .error (by intro h; cases h)
      | some op => exact (apply op sum _).bind fun sum => ih sum (some op) false
    | operator =>
      rw [resolveLoop_operator]
      refine .ite (ih sum ops _) (.ite (.error (by intro h; cases h)) ?_)
      cases ConstantOp.ofOperator value with
      | none => exact .error (by intro h; cases h)
      | some op => exact ih sum (some op) isNegated
    | directive | label | string | symbol | opcode _ | pseudoop _ | register _ | unspec =>
      exact .ok _

theorem of_composed {α : Type} {r : Reader α} (h : Composed r) : Spares .nesting r := by
  induction h with
  | pure x => exact .pure x
  | throw other => exact .throw other
  | bind _ _ first rest => exact first.bind rest
  | ite _ _ yes no => exact .ite yes no
  | next =>
    intro ts
    cases ts with
    | nil => exact .error (by intro h; cases h)
    | cons tk ts => exact .ok _
  | nextIs _ =>
    intro ts
    rw [nextIs_eq]
    exact .ok _
  | resolveLoop sum ops isNegated => exact fun ts => resolveLoop ts sum ops isNegated

theorem nextOf (T : TokenType) (info : Str) : Spares .nesting (BigAsm.nextOf T info) :=
  of_composed (.nextOf T info)

theorem handler (op : Opcode) : Spares .nesting op.handler := of_composed (.handler op)

theorem stoull (digits : Str) (base : Nat) : Avoids .nesting (BigAsm.stoull digits base) := by
  unfold BigAsm.stoull
  dsimp only
  split
  · exact .error (by intro h; cases h)
  · exact .ite (.error (by intro h; cases h)) (.ite (.error (by intro h; cases h)) (.ok _))

theorem parse (word : Str) (line : BitVec 32) : Avoids .nesting (BigAsm.parse word line) := by
  have number : Avoids .nesting (parseNumber word) := by
    unfold parseNumber
    refine .ite (.ite ?_ ?_) (.ite ?_ (.ok _))
    · exact (stoull _ _).bind fun _ => (stoull _ _).bind fun _ => .ok _
    · exact (stoull _ _).bind fun _ => .ok _
    · exact (stoull _ _).bind fun _ => .ok _
  unfold BigAsm.parse
  split
  · exact .error (by intro h; cases h)
  · refine .ite (.ok _) (.ite (.ok _) (.ite (.ok _) (.ite ?_ (.ite (.ok _) (.ite ?_ (.ok _))))))
    · split
      · exact .ite (.ok _) (.error (by intro h; cases h))
      · exact .error (by intro h; cases h)
    · exact number.bind fun _ => .ok _

theorem split (text : Str) : Avoids .nesting (BigAsm.split text) := by
  have push : ∀ sc : Scanner, Avoids .nesting sc.pushWord := fun sc =>
    (parse _ _).bind fun _ => .ok _
  have flush : ∀ sc : Scanner, Avoids .nesting sc.flushWord := fun sc => .ite (push sc) (.ok _)
  have step : ∀ (sc : Scanner) (c : BitVec 8), Avoids .nesting (sc.step c) := by
    intro sc c
    refine .ite (.ite (.ok _) (.ite ((push _).bind fun _ => .ok _) (.ok _))) (.ite (.ok _) ?_)
    refine .ite (.ok _) (.ite (.ok _) (.ite ((flush _).bind fun _ => .ok _) ?_))
    exact .ite ((flush _).bind fun _ => .ok _) (.ite (.ok _) (.ok _))
  exact (Avoids.run step text _).bind fun sc => (flush sc).bind fun _ => .ok _

theorem loadFile (env : Env) (f : Str) (rpath : Option Str) :
    Avoids .nesting (BigAsm.loadFile env f rpath) := by
  unfold BigAsm.loadFile
  dsimp only
  split
  · exact .ok _
  · exact .error (by intro h; cases h)

theorem lift {α : Type} {x : Except Failure α} (avoids : Avoids .nesting x) :
    Spares .nesting (BigAsm.lift x) :=
  fun _ => avoids.bind fun _ => .ok _

theorem read {α : Type} {r : Reader α} (spares : Spares .nesting r) : Spares .nesting (BigAsm.read r) :=
  fun a => (spares a.tokens).bind fun _ => .ok _

theorem update {f : State → Except Failure State} (avoids : ∀ s, Avoids .nesting (f s)) :
    Spares .nesting (BigAsm.update f) :=
  fun a => (avoids a.state).bind fun _ => .ok _

theorem modify (f : State → State) : Spares .nesting (BigAsm.modify f) := update fun _ => .ok _

theorem onSection {s : State} {name : Str} {f : Section → Except Failure Section}
    (avoids : ∀ sect, Avoids .nesting (f sect)) : Avoids .nesting (s.onSection name f) :=
  (avoids _).bind fun _ => .ok _

theorem setOutput (sect : Section) (output : Option Buffer) :
    Avoids .nesting (sect.setOutput output) := by
  cases output with
  | none => exact .error (by intro h; cases h)
  | some output => exact .ok _

theorem addOutput (type : OutputType) (data : List Byte) (s : State) :
    Avoids .nesting (s.addOutput type data) :=
  onSection fun sect => (setOutput sect _).bind fun _ => .ok _

theorem allocate (len : BitVec 64) (s : State) : Avoids .nesting (s.allocate len) :=
  onSection fun sect => (setOutput sect _).bind fun _ => .ok _

theorem align (alignment : BitVec 64) (s : State) : Avoids .nesting (s.align alignment) :=
  onSection fun sect => .ite (setOutput sect _) (.ok _)

theorem alignWithLabels (alignment : BitVec 64) (s : State) :
    Avoids .nesting (s.alignWithLabels alignment) := by
  have above : Avoids .nesting (s.alignAbove s.current alignment) :=
    .ite (onSection fun sect => .ite (setOutput sect _) (.ok _)) (.ok _)
  exact above.bind fun _ => .ok _

theorem emitData (alignment : BitVec 64) (data : List Byte) (s : State) :
    Avoids .nesting (s.emitData alignment data) :=
  (alignWithLabels alignment s).bind fun _ => addOutput _ _ _

theorem reserve (element times : BitVec 64) (s : State) :
    Avoids .nesting (s.reserve element times) :=
  (alignWithLabels element s).bind fun _ => allocate _ _

theorem emitSize (sym : Str) (s : State) : Avoids .nesting (s.emitSize sym) :=
  (alignWithLabels 4 s).bind fun _ => addOutput _ _ _

theorem emitCode (words : List Instruction) (s : State) : Avoids .nesting (s.emitCode words) :=
  Avoids.run (fun s _ => addOutput _ _ s) words s

theorem pseudoOp (env : Env) (op : PseudoOp) : Spares .nesting (op.handler env) := by
  cases op with
  | data8 => exact (read (nextOf _ _)).bind fun _ => update (addOutput _ _)
  | data16 | data32 | data64 | data128 =>
    exact (read (nextOf _ _)).bind fun _ => update (emitData _ _)
  | resv8 => exact (read (nextOf _ _)).bind fun _ => update (allocate _)
  | resv16 | resv32 | resv64 | resv128 =>
    exact (read (nextOf _ _)).bind fun _ => update (reserve _ _)
  | incbin =>
    exact (read (nextOf _ _)).bind fun _ => .bind (fun a => .ok (a, a)) fun a =>
      (read (lift (loadFile _ _ _))).bind fun _ => update (emitData _ _)

end Spared

abbrev Nested := List Token → Option Str → Asm Unit

/-- A round of the loop is the nested call its line asks for, or ends alike whatever nested calls
    do, and not at the bound on the nesting. -/
def Rounds (rpath : Option Str) (m : Nested → Asm Unit) (r : Reader Line) : Prop :=
  ∀ a, a.realpath = rpath →
    (∃ tv path rest, r a.tokens = .ok (.included tv path, rest) ∧
      ∀ nested, m nested a = nested tv path { a with tokens := rest }) ∨
    ∃ q, Avoids .nesting q ∧ ∀ nested, m nested a = q

namespace Rounds
variable {rpath : Option Str} {α : Type}

theorem fixed {m : Asm Unit} (spares : Spares .nesting m) (r : Reader Line) :
    Rounds rpath (fun _ => m) r :=
  fun a _ => Or.inr ⟨m a, spares a, fun _ => rfl⟩

theorem nested (tv : List Token) (path : Option Str) :
    Rounds rpath (fun nested => nested tv path) (pure (.included tv path)) :=
  fun a _ => Or.inl ⟨tv, path, a.tokens, rfl, fun _ => rfl⟩

theorem read {r : Reader α} {m : α → Nested → Asm Unit} {f : α → Reader Line}
    (spares : Spares .nesting r) (rest : ∀ x, Rounds rpath (m x) (f x)) :
    Rounds rpath (fun nested => BigAsm.read r >>= fun x => m x nested) (r >>= f) := by
  intro a here
  have avoids := spares a.tokens
  cases done : r a.tokens with
  | error e =>
    rw [done] at avoids
    refine Or.inr ⟨.error e, fun failed => avoids (Except.error.inj failed ▸ rfl), fun nested => ?_⟩
    change ((r a.tokens >>= fun p => .ok (p.1, { a with tokens := p.2 })) >>= _) = _
    rw [done]
    rfl
  | ok p =>
    obtain ⟨x, ts⟩ := p
    have first : BigAsm.read r a = .ok (x, { a with tokens := ts }) :=
      read_ok_iff.mpr ⟨ts, done, rfl⟩
    rcases rest x { a with tokens := ts } here with ⟨tv, path, left, line, call⟩ | ⟨q, avoids, same⟩
    · refine Or.inl ⟨tv, path, left, stateT_bind_ok_iff.mpr ⟨x, ts, done, line⟩, fun nested => ?_⟩
      exact (stateT_bind_of_ok first).trans (call nested)
    · exact Or.inr ⟨q, avoids, fun nested => (stateT_bind_of_ok first).trans (same nested)⟩

theorem realpath {m : Assembler → Nested → Asm Unit} {r : Reader Line}
    (rest : ∀ a : Assembler, a.realpath = rpath → Rounds rpath (m a) r) :
    Rounds rpath (fun nested => get >>= fun a => m a nested) r :=
  fun a here => rest a here a here

end Rounds

theorem directive_rounds (env : Env) (rpath : Option Str) (token : Token) :
    Rounds rpath (fun nested => directive env nested token) (directiveStatement env rpath token) := by
  unfold directive directiveStatement
  cases findName directiveList token.value with
  | none => exact .fixed (.pure _) _
  | some d =>
    cases d with
    | «include» =>
      refine .read (Spared.nextOf _ _) fun sym => .realpath fun a here => ?_
      rw [here]
      exact .read (Spared.lift (Spared.loadFile _ _ _)) fun contents =>
        .read (Spared.lift (Spared.split _)) fun tokens => .nested _ _
    | align =>
      exact .fixed ((Spared.read (Spared.nextOf _ _)).bind fun _ => Spared.update (Spared.align _)) _
    | endfunc | global | sect =>
      exact .fixed ((Spared.read (Spared.nextOf _ _)).bind fun _ => Spared.modify _) _
    | finishLabels => exact .fixed (Spared.update (Spared.alignWithLabels _)) _
    | org =>
      refine .fixed ((Spared.read (Spared.nextOf _ _)).bind fun _ => Spared.update fun s => ?_) _
      exact .ite (.error (by intro h; cases h)) (.ok _)
    | execonly | readonly => exact .fixed (Spared.modify _) _
    | type =>
      have known : ∀ info, Avoids .nesting (symbolType info) := fun info =>
        .ite (.ok _) (.ite (.ok _) (.error (by intro h; cases h)))
      exact .fixed ((Spared.read (Spared.nextOf _ _)).bind fun _ =>
        (Spared.read (Spared.nextOf _ _)).bind fun _ =>
          (Spared.read (Spared.lift (known _))).bind fun _ => Spared.modify _) _
    | size =>
      exact .fixed ((Spared.read (Spared.nextOf _ _)).bind fun _ => Spared.update (Spared.emitSize _)) _
    | string | strlen | ascii =>
      exact .fixed ((Spared.read (Spared.nextOf _ _)).bind fun _ =>
        Spared.update (Spared.emitData _ _)) _

theorem statement_rounds (env : Env) (rpath : Option Str) (token : Token) :
    Rounds rpath (fun nested => statement env nested token) (readLine env rpath token) := by
  unfold statement readLine
  cases token.kind with
  | directive => exact directive_rounds env rpath token
  | label => exact .fixed (Spared.modify _) _
  | opcode op =>
    exact .fixed ((Spared.update (Spared.alignWithLabels _)).bind fun _ =>
      (Spared.read (Spared.handler op)).bind fun _ => (Spared.modify _).bind fun _ =>
        Spared.update (Spared.emitCode _)) _
  | pseudoop op => exact .fixed (Spared.pseudoOp env op) _
  | string | symbol | register _ | constant _ | operator | unspec =>
    exact .fixed (.throw (by intro h; cases h)) _

theorem statement_round (env : Env) (token : Token) (s : State) (ts : List Token)
    (rpath : Option Str) :
    (∃ tv path rest, readLine env rpath token ts = .ok (.included tv path, rest) ∧
      ∀ nested, statement env nested token ⟨s, ts, rpath⟩ = nested tv path ⟨s, rest, rpath⟩) ∨
    ∃ q, Avoids .nesting q ∧ ∀ nested, statement env nested token ⟨s, ts, rpath⟩ = q :=
  statement_rounds env rpath token ⟨s, ts, rpath⟩ rfl

/- A bound that is not reached makes no difference. -/

theorem statements_cons (env : Env) (nested : Nested) (n : Nat) (s : State) (token : Token)
    (ts : List Token) (rpath : Option Str) :
    statements env nested (n + 1) ⟨s, token :: ts, rpath⟩ =
      statement env nested token ⟨s, ts, rpath⟩ >>= fun p => statements env nested n p.2 := rfl

theorem statements_nil (env : Env) (nested : Nested) (n : Nat) (s : State) (rpath : Option Str) :
    statements env nested (n + 1) ⟨s, [], rpath⟩ = .ok ((), ⟨s, [], rpath⟩) :=
  statements_succ env nested n ⟨s, [], rpath⟩

theorem assemble_loop (env : Env) (depth : Nat) (tv : List Token) (rpath : Option Str)
    (a : Assembler) : assemble env (depth + 1) tv rpath a =
      if a.state.options.base &&& 0xF = 0 then
        statements env (assemble env depth) tv.length ⟨a.state, tv, rpath⟩ >>= fun p =>
          .ok ((), { p.2 with tokens := a.tokens, realpath := a.realpath })
      else .error .assertion := by
  rw [assemble_succ]
  change ((a.state.checkBase >>= fun state => .ok ((), (⟨state, tv, rpath⟩ : Assembler))) >>=
    fun p => statements env (assemble env depth) tv.length p.2 >>= fun p => _) = _
  unfold State.checkBase
  split <;> rfl

/-- The calls of one function succeed and fail like those of another, unless they reach the
    bound. -/
def Deeper (nested nested' : Nested) : Prop :=
  ∀ tv path a, Avoids .nesting (nested tv path a) → nested' tv path a = nested tv path a

section Monotone
variable {env : Env}

theorem statement_deeper {nested nested' : Nested} (deeper : Deeper nested nested') {token : Token}
    {a : Assembler} (avoids : Avoids .nesting (statement env nested token a)) :
    statement env nested' token a = statement env nested token a := by
  rcases statement_round env token a.state a.tokens a.realpath with
    ⟨tv, path, rest, -, call⟩ | ⟨q, -, same⟩
  · have first := call nested
    change Avoids .nesting (statement env nested token ⟨a.state, a.tokens, a.realpath⟩) at avoids
    rw [first] at avoids
    exact ((call nested').trans (deeper tv path _ avoids)).trans first.symm
  · exact (same nested').trans (same nested).symm

theorem statements_deeper {nested nested' : Nested} (deeper : Deeper nested nested') (n : Nat)
    {a : Assembler} (avoids : Avoids .nesting (statements env nested n a)) :
    statements env nested' n a = statements env nested n a := by
  induction n generalizing a with
  | zero => rfl
  | succ n ih =>
    rcases a with ⟨s, _ | ⟨token, ts⟩, rpath⟩
    · rw [statements_nil, statements_nil]
    · rw [statements_cons] at avoids
      rw [statements_cons, statements_cons, statement_deeper deeper fun failed =>
        avoids (bind_error_iff.mpr (Or.inl failed))]
      cases done : statement env nested token ⟨s, ts, rpath⟩ with
      | error e => rfl
      | ok p => exact ih fun failed => avoids (bind_error_iff.mpr (Or.inr ⟨p, done, failed⟩))

theorem assemble_nesting_iff {depth : Nat} {tv : List Token} {rpath : Option Str} {a : Assembler} :
    assemble env (depth + 1) tv rpath a = .error .nesting ↔
      a.state.options.base &&& 0xF = 0 ∧
        statements env (assemble env depth) tv.length ⟨a.state, tv, rpath⟩ = .error .nesting := by
  rw [assemble_loop]
  split
  · rename_i aligned
    rw [bind_error_iff, and_iff_right aligned]
    constructor
    · rintro (failed | ⟨p, -, failed⟩)
      · exact failed
      · cases failed
    · exact Or.inl
  · rename_i unaligned
    refine iff_of_false (fun failed => ?_) fun failed => unaligned failed.1
    cases failed

theorem assemble_deeper (depth : Nat) : Deeper (assemble env depth) (assemble env (depth + 1)) := by
  induction depth with
  | zero => exact fun tv path a avoids => absurd rfl avoids
  | succ depth ih =>
    intro tv path a avoids
    rw [assemble_loop, assemble_loop]
    split
    · rename_i aligned
      rw [statements_deeper ih tv.length fun failed =>
        avoids (assemble_nesting_iff.mpr ⟨aligned, failed⟩)]
    · rfl

theorem assemble_deepest {n m : Nat} (below : n ≤ m) : Deeper (assemble env n) (assemble env m) := by
  induction m, below using Nat.le_induction with
  | base => exact fun tv path a _ => rfl
  | succ m _ ih =>
    intro tv path a avoids
    have same := ih tv path a avoids
    rw [← same] at avoids
    exact (assemble_deeper m tv path a avoids).trans same

end Monotone

/- The files a file opens, read from its tokens alone. -/

abbrev File := List Token × Option Str

/-- Read from its start, a file lists the statements xs and then includes another file. -/
inductive Opens (env : Env) (rpath : Option Str) : List Token → List Statement → File → Prop
  | here {token : Token} {ts rest tv : List Token} {path : Option Str}
      (read : readLine env rpath token ts = .ok (.included tv path, rest)) :
      Opens env rpath (token :: ts) [] (tv, path)
  | later {token : Token} {ts rest : List Token} {line : Line} {depth : Nat}
      {listed xs : List Statement} {g : File} (read : readLine env rpath token ts = .ok (line, rest))
      (expands : line.expand (expand env depth) = .ok listed) (more : Opens env rpath rest xs g) :
      Opens env rpath (token :: ts) (listed ++ xs) g

/-- No bound on the nesting is enough to list the statements of the file. -/
def Endless (env : Env) (f : File) : Prop := ∀ depth xs, expand env depth f.1 f.2 ≠ .ok xs

/-- At every bound, the assembly of the file reaches it. -/
def Sinks (env : Env) (f : File) (a : Assembler) : Prop :=
  ∀ depth, assemble env depth f.1 f.2 a = .error .nesting

section Static
variable {env : Env} {rpath : Option Str}

theorem expand_deepest {n m : Nat} (below : n ≤ m) {tv : List Token} {xs : List Statement}
    (run : expand env n tv rpath = .ok xs) : expand env m tv rpath = .ok xs := by
  induction m, below using Nat.le_induction with
  | base => exact run
  | succ m _ ih => exact expand_mono ih

theorem Line.expand_deepest {n m : Nat} (below : n ≤ m) {line : Line} {xs : List Statement}
    (run : line.expand (BigAsm.expand env n) = .ok xs) :
    line.expand (BigAsm.expand env m) = .ok xs := by
  cases line with
  | stmt x | unknown => exact run
  | included tv path => exact BigAsm.expand_deepest below run

theorem statement_included {token : Token} {ts rest tv : List Token} {path : Option Str}
    (read : readLine env rpath token ts = .ok (.included tv path, rest)) (nested : Nested) (s : State) :
    statement env nested token ⟨s, ts, rpath⟩ = nested tv path ⟨s, rest, rpath⟩ := by
  rcases statement_round env token s ts rpath with ⟨tv', path', rest', line, call⟩ | ⟨q, -, same⟩
  · cases read.symm.trans line
    exact call nested
  · -- a round that never asks for the call cannot both succeed and fail with it
    let accepts : Nested := fun _ _ => pure ()
    let refuses : Nested := fun _ _ => throw .nesting
    have done : statement env accepts token ⟨s, ts, rpath⟩ = .ok ((), ⟨s, rest, rpath⟩) :=
      (statement_reads env accepts rpath token ⟨s, ts, rpath⟩ _ rfl).mpr ⟨_, _, read, rfl⟩
    have done' : statement env refuses token ⟨s, ts, rpath⟩ = .ok ((), ⟨s, rest, rpath⟩) :=
      (same refuses).trans ((same accepts).symm.trans done)
    obtain ⟨line, rest', read', played⟩ :=
      (statement_reads env refuses rpath token ⟨s, ts, rpath⟩ _ rfl).mp done'
    cases read.symm.trans read'
    cases played

theorem statement_listed {token : Token} {ts rest : List Token} {line : Line} {depth : Nat}
    {xs : List Statement} (read : readLine env rpath token ts = .ok (line, rest))
    (expands : line.expand (expand env depth) = .ok xs) {s t : State}
    (aligned : s.options.base &&& 0xF = 0) (ran : execAll s xs = .ok t) :
    statement env (assemble env depth) token ⟨s, ts, rpath⟩ = .ok ((), ⟨t, rest, rpath⟩) :=
  (statement_reads env _ rpath token ⟨s, ts, rpath⟩ _ rfl).mpr ⟨line, rest, read,
    (@line_expands _ _ (assemble_expands env depth) line ⟨s, rest, rpath⟩ _ aligned).mpr
      ⟨xs, t, expands, ran, rfl⟩⟩

theorem Opens.nests {ts : List Token} {ys : List Statement} {g : File}
    (opens : Opens env rpath ts ys g) {n m : Nat} (enough : ts.length ≤ m) {s t : State}
    (aligned : s.options.base &&& 0xF = 0) (ran : execAll s ys = .ok t)
    (inside : ∀ b : Assembler, b.state = t → assemble env n g.1 g.2 b = .error .nesting) :
    statements env (assemble env n) m ⟨s, ts, rpath⟩ = .error .nesting := by
  induction opens generalizing m s with
  | @here token ts rest tv path read =>
    obtain ⟨m, rfl⟩ : ∃ k, m = k + 1 := ⟨m - 1, by rw [List.length_cons] at enough; omega⟩
    cases run_nil_iff.mp ran
    rw [statements_cons, statement_included read]
    exact bind_error_iff.mpr (Or.inl (inside _ rfl))
  | @later token ts rest line depth listed xs g read expands more ih =>
    obtain ⟨m, rfl⟩ : ∃ k, m = k + 1 := ⟨m - 1, by rw [List.length_cons] at enough; omega⟩
    obtain ⟨u, here, later⟩ := run_append_iff.mp ran
    have shorter : rest.length ≤ m := by
      have taken := (Framed.readLine env rpath token ts line rest read).1.length_le
      rw [List.length_cons] at enough
      omega
    have following := ih shorter (execAll_aligned here aligned) later inside
    have deep := statement_listed read (line.expand_deepest (le_max_right n depth) expands) aligned here
    rw [statements_cons, bind_error_iff]
    by_cases avoids : Avoids .nesting (statement env (assemble env n) token ⟨s, ts, rpath⟩)
    · have same := statement_deeper (assemble_deepest (le_max_left n depth)) avoids
      exact Or.inr ⟨_, same.symm.trans deep, following⟩
    · exact Or.inl (not_not.mp avoids)

theorem statements_sink {n : Nat} {a : Assembler} (aligned : a.state.options.base &&& 0xF = 0)
    (sinks : ∀ depth, statements env (assemble env depth) n a = .error .nesting) :
    ∃ ys g b, Opens env a.realpath a.tokens ys g ∧ execAll a.state ys = .ok b.state ∧
      Sinks env g b := by
  induction n generalizing a with
  | zero => cases sinks 0
  | succ n ih =>
    rcases a with ⟨s, _ | ⟨token, ts⟩, rpath⟩
    · cases sinks 0
    · simp only [statements_cons, bind_error_iff] at sinks
      -- what is left to do once the first line has ended
      have go : ∀ {line : Line} {rest : List Token} {depth : Nat} {xs : List Statement} {t : State},
          readLine env rpath token ts = .ok (line, rest) →
          line.expand (expand env depth) = .ok xs → execAll s xs = .ok t →
          (∀ k, statements env (assemble env k) n ⟨t, rest, rpath⟩ = .error .nesting) →
          ∃ ys g b, Opens env rpath (token :: ts) ys g ∧ execAll s ys = .ok b.state ∧
            Sinks env g b := by
        intro line rest depth xs t read expands ran later
        obtain ⟨ys, g, b, opens, ran', deeper⟩ :=
          ih (a := ⟨t, rest, rpath⟩) (execAll_aligned ran aligned) later
        exact ⟨xs ++ ys, g, b, .later read expands opens, run_append_iff.mpr ⟨t, ran, ran'⟩, deeper⟩
      rcases statement_round env token s ts rpath with ⟨tv, path, rest, read, call⟩ | ⟨q, avoids, same⟩
      · by_cases all : Sinks env (tv, path) ⟨s, rest, rpath⟩
        · exact ⟨[], (tv, path), ⟨s, rest, rpath⟩, .here read, rfl, all⟩
        · simp only [call] at sinks
          obtain ⟨depth, ends⟩ := not_forall.mp all
          -- the included file ends at this bound, and alike at every larger one
          obtain ⟨p, done, -⟩ := (sinks depth).resolve_left ends
          obtain ⟨xs, t, listed, ran, same⟩ :=
            (assemble_expands env depth tv path ⟨s, rest, rpath⟩ p.2 aligned).mp done
          refine go read listed ran fun k => ?_
          by_contra avoids
          have deep := assemble_deepest (le_max_right k depth) tv path ⟨s, rest, rpath⟩ ends
          obtain ⟨p', done', failed⟩ := (sinks (max k depth)).resolve_left fun failed =>
            ends (deep.symm.trans failed)
          cases done'.symm.trans (deep.trans done)
          rw [← same] at failed
          exact avoids ((statements_deeper (assemble_deepest (le_max_left k depth)) n avoids).symm.trans
            failed)
      · simp only [same] at sinks
        obtain ⟨p, done, -⟩ := (sinks 0).resolve_left avoids
        obtain ⟨line, rest, read, played⟩ :=
          (statement_reads env (assemble env 0) rpath token ⟨s, ts, rpath⟩ p rfl).mp ((same _).trans done)
        obtain ⟨xs, t, listed, ran, here⟩ :=
          (@line_expands _ _ (assemble_expands env 0) line ⟨s, rest, rpath⟩ p.2 aligned).mp played
        refine go read listed ran fun k => ?_
        obtain ⟨p', done', failed⟩ := (sinks k).resolve_left avoids
        cases done.symm.trans done'
        rwa [← here] at failed

theorem Opens.listed {ts : List Token} {ys xs : List Statement} {g : File} {depth : Nat}
    (opens : Opens env rpath ts ys g) (lines : Lines env rpath (expand env depth) ts xs) :
    ∃ zs, expand env depth g.1 g.2 = .ok zs := by
  induction opens generalizing xs with
  | here read =>
    cases lines with
    | cons read' expands more =>
      cases read.symm.trans read'
      exact ⟨_, expands⟩
  | later read expands more ih =>
    cases lines with
    | cons read' expands' more' =>
      cases read.symm.trans read'
      exact ih more'

theorem Sinks.opens {f : File} {a : Assembler} (sinks : Sinks env f a) :
    a.state.options.base &&& 0xF = 0 ∧
      ∃ ys g b, Opens env f.2 f.1 ys g ∧ execAll a.state ys = .ok b.state ∧ Sinks env g b := by
  have loop := fun depth => assemble_nesting_iff.mp (sinks (depth + 1))
  exact ⟨(loop 0).1, statements_sink (a := ⟨a.state, f.1, f.2⟩) (loop 0).1 fun depth => (loop depth).2⟩

theorem Sinks.endless {f : File} {a : Assembler} (sinks : Sinks env f a) : Endless env f := by
  intro depth xs listed
  induction depth generalizing f a xs with
  | zero => cases listed
  | succ depth ih =>
    obtain ⟨-, ys, g, b, opens, -, deeper⟩ := sinks.opens
    obtain ⟨zs, inside⟩ := opens.listed (expand_succ_ok_iff.mp listed)
    exact ih deeper zs inside

def Enters (env : Env) (f : File) (ys : List Statement) (g : File) : Prop :=
  Opens env f.2 f.1 ys g ∧ Endless env g

theorem Opens.single {ts : List Token} {ys zs : List Statement} {g h : File}
    (first : Opens env rpath ts ys g) (second : Opens env rpath ts zs h) (endless : Endless env g)
    (endless' : Endless env h) : ys = zs ∧ g = h := by
  induction first generalizing zs with
  | here read =>
    cases second with
    | here read' =>
      cases read.symm.trans read'
      exact ⟨rfl, rfl⟩
    | later read' expands more =>
      cases read.symm.trans read'
      exact absurd expands (endless _ _)
  | @later token ts rest line depth listed xs g read expands more ih =>
    cases second with
    | here read' =>
      cases read.symm.trans read'
      exact absurd expands (endless' _ _)
    | @later _ _ _ line' depth' listed' xs' _ read' expands' more' =>
      cases read.symm.trans read'
      have one := line.expand_deepest (le_max_left depth depth') expands
      cases one.symm.trans (line.expand_deepest (le_max_right depth depth') expands')
      obtain ⟨rfl, rfl⟩ := ih more' endless
      exact ⟨rfl, rfl⟩

theorem Enters.single {f g h : File} {ys zs : List Statement} (first : Enters env f ys g)
    (second : Enters env f zs h) : ys = zs ∧ g = h :=
  first.1.single second.1 first.2 second.2

end Static

def Leads (env : Env) (f : File) (ys : List Statement) (g : File) : Prop := Opens env f.2 f.1 ys g

/-- Some file is opened again inside itself, and its statements run any number of times: p are
    those from the start to its first opening, c those from one opening to the next. -/
def Loops (env : Env) (f : File) (s : State) : Prop :=
  ∃ i q g p c, Walk (Leads env) i f p g ∧ Walk (Leads env) (q + 1) g c g ∧
    ∀ k, ∃ t, execAll s (p ++ (List.replicate k c).flatten) = .ok t

section Cycles
variable {env : Env}

theorem Loops.step {f : File} {s : State} (loops : Loops env f s) :
    ∃ ys g t, Leads env f ys g ∧ execAll s ys = .ok t ∧ Loops env g t := by
  obtain ⟨i, q, g, p, c, start, loop, runs⟩ := loops
  have behind : ∀ {xs ys : List Statement} {t : State}, execAll s xs = .ok t →
      (∃ u, execAll s (xs ++ ys) = .ok u) → ∃ u, execAll t ys = .ok u := by
    rintro xs ys t here ⟨u, run⟩
    obtain ⟨t', here', later⟩ := run_append_iff.mp run
    cases here.symm.trans here'
    exact ⟨u, later⟩
  cases start with
  | nil =>
    -- at the file itself, one round goes back to it
    cases loop with
    | @cons _ _ h _ xs ys leads more =>
      obtain ⟨u, once⟩ := runs 1
      have once : execAll s (xs ++ ys) = .ok u := by simpa using once
      obtain ⟨t, here, -⟩ := run_append_iff.mp once
      refine ⟨xs, h, t, leads, here, q, q, f, ys, xs ++ ys, more, .cons leads more, fun k => ?_⟩
      refine behind here ?_
      have again := runs (k + 1)
      rwa [List.replicate_succ, List.flatten_cons, List.nil_append, List.append_assoc] at again
  | @cons n _ h _ xs ys leads more =>
    obtain ⟨u, once⟩ := runs 0
    rw [List.append_assoc] at once
    obtain ⟨t, here, -⟩ := run_append_iff.mp once
    refine ⟨xs, h, t, leads, here, n, q, g, ys, c, more, loop, fun k => behind here ?_⟩
    have run := runs k
    rwa [List.append_assoc] at run

theorem Loops.sinks {f : File} {a : Assembler} (aligned : a.state.options.base &&& 0xF = 0)
    (loops : Loops env f a.state) : Sinks env f a := by
  intro depth
  induction depth generalizing f a with
  | zero => rfl
  | succ depth ih =>
    obtain ⟨ys, g, t, leads, ran, again⟩ := loops.step
    refine assemble_nesting_iff.mpr ⟨aligned, ?_⟩
    refine leads.nests (Nat.le_refl _) aligned ran fun b here => ?_
    subst here
    exact ih (execAll_aligned ran aligned) again

end Cycles

/- With finitely many files, a walk from file to file comes back to one of them. -/

def Env.ofFiles (files : List (Str × Str)) (dirname : Str → Str) (realpath : Str → Option Str) : Env :=
  ⟨fun f => files.lookup f, dirname, realpath⟩

section Files
variable {files : List (Str × Str)} {dirname : Str → Str} {realpath : Str → Option Str}

def FromFiles (files : List (Str × Str)) (dirname : Str → Str) (realpath : Str → Option Str)
    (g : File) : Prop :=
  (∃ c ∈ files.map Prod.snd, split c = .ok g.1) ∧
    ∃ name ∈ (files.map Prod.fst).flatMap List.tails,
      g.2 = getRealpath (Env.ofFiles files dirname realpath) name

theorem lookup_mem {f contents : Str} (found : files.lookup f = some contents) :
    f ∈ files.map Prod.fst ∧ contents ∈ files.map Prod.snd := by
  obtain ⟨front, back, same, -⟩ := List.lookup_eq_some_iff.mp found
  have mem : (f, contents) ∈ files := by simp [same]
  exact ⟨List.mem_map_of_mem mem, List.mem_map_of_mem mem⟩

theorem loadFile_mem {f contents : Str} {rpath : Option Str}
    (loaded : loadFile (Env.ofFiles files dirname realpath) f rpath = .ok contents) :
    contents ∈ files.map Prod.snd ∧ f ∈ (files.map Prod.fst).flatMap List.tails := by
  unfold loadFile at loaded
  have end_ : ∀ {key : Str}, files.lookup key = some contents → f <:+ key →
      contents ∈ files.map Prod.snd ∧ f ∈ (files.map Prod.fst).flatMap List.tails := by
    intro key found suffix
    obtain ⟨named, held⟩ := lookup_mem found
    exact ⟨held, List.mem_flatMap.mpr ⟨key, named, (List.mem_tails ..).mpr suffix⟩⟩
  dsimp only at loaded
  split at loaded
  · rename_i text opened
    cases loaded
    rcases Option.or_eq_some_iff.mp opened with plain | ⟨-, relative⟩
    · exact end_ plain List.suffix_rfl
    · obtain ⟨r, -, relative⟩ := Option.bind_eq_some_iff.mp relative
      exact end_ relative (List.suffix_append ..)
  · cases loaded

theorem readLine_fromFiles (rpath : Option Str) (token : Token) :
    Yields (fun line => ∀ tv path, line = .included tv path → FromFiles files dirname realpath (tv, path))
      (readLine (Env.ofFiles files dirname realpath) rpath token) := by
  refine (readLine_sourced _ rpath token).imp ?_
  rintro _ sourced tv path rfl
  obtain ⟨name, contents, loaded, tokens, same⟩ := sourced
  obtain ⟨held, named⟩ := loadFile_mem loaded
  exact ⟨⟨contents, held, tokens⟩, name, named, same⟩

theorem Opens.fromFiles {rpath : Option Str} {ts : List Token} {ys : List Statement} {g : File}
    (opens : Opens (Env.ofFiles files dirname realpath) rpath ts ys g) :
    FromFiles files dirname realpath g := by
  induction opens with
  | here read => exact readLine_fromFiles _ _ _ _ _ read _ _ rfl
  | later read expands more ih => exact ih

theorem fromFiles_finite : {g | FromFiles files dirname realpath g}.Finite := by
  let tokens : Set (List Token) := (fun c => result (split c)) '' {c | c ∈ files.map Prod.snd}
  let paths : Set (Option Str) := (getRealpath (Env.ofFiles files dirname realpath)) ''
    {name | name ∈ (files.map Prod.fst).flatMap List.tails}
  have finite : (tokens ×ˢ paths).Finite :=
    ((List.finite_toSet _).image _).prod ((List.finite_toSet _).image _)
  refine finite.subset ?_
  rintro ⟨tv, path⟩ ⟨⟨c, held, cut⟩, name, mem, same⟩
  refine ⟨⟨c, held, ?_⟩, name, mem, same.symm⟩
  change result (split c) = tv
  rw [cut]
  rfl

theorem Sinks.loops {f : File} {a : Assembler}
    (sinks : Sinks (Env.ofFiles files dirname realpath) f a) :
    Loops (Env.ofFiles files dirname realpath) f a.state := by
  let env := Env.ofFiles files dirname realpath
  have step : ∀ d : {p : File × Assembler // Sinks env p.1 p.2},
      ∃ (e : {p : File × Assembler // Sinks env p.1 p.2}) (ys : List Statement),
        Enters env d.1.1 ys e.1.1 ∧ execAll d.1.2.state ys = .ok e.1.2.state := by
    rintro ⟨⟨g, b⟩, deep⟩
    obtain ⟨-, ys, h, c, opens, ran, deeper⟩ := deep.opens
    exact ⟨⟨(h, c), deeper⟩, ys, ⟨opens, deeper.endless⟩, ran⟩
  choose next lists enters ran using step
  let at_ := fun n => next^[n] ⟨(f, a), sinks⟩
  have succ : ∀ n, at_ (n + 1) = next (at_ n) := fun n => Function.iterate_succ_apply' next n _
  have steps : ∀ n, Enters env (at_ n).1.1 (lists (at_ n)) (at_ (n + 1)).1.1 := by
    intro n
    rw [succ]
    exact enters (at_ n)
  have runs : ∀ n i, execAll (at_ i).1.2.state (joined (fun n => lists (at_ n)) i n) =
      .ok (at_ (i + n)).1.2.state := by
    intro n
    induction n with
    | zero => exact fun i => rfl
    | succ n ih =>
      intro i
      have later := ih (i + 1)
      rw [succ, show i + 1 + n = i + (n + 1) by omega] at later
      exact run_append_iff.mpr ⟨_, ran (at_ i), later⟩
  have finite : (Set.range fun n => (at_ n).1.1).Finite := by
    refine ((@fromFiles_finite files dirname realpath).insert f).subset ?_
    rintro _ ⟨n, rfl⟩
    cases n with
    | zero => exact Or.inl rfl
    | succ n => exact Or.inr (steps n).1.fromFiles
  obtain ⟨i, q, g, p, c, start, loop, repeated⟩ :=
    lasso steps (fun _ _ _ _ _ first second => first.single second) finite
  refine ⟨i, q, g, p, c, start.imp fun _ _ _ e => e.1, loop.imp fun _ _ _ e => e.1, fun k => ?_⟩
  rw [repeated]
  exact ⟨_, runs _ 0⟩

end Files

/-- Assembling ends at some bound on the nesting exactly when no file is opened again inside
    itself with statements that run any number of times, or when the base address is refused. -/
theorem assembly_ends_iff (files : List (Str × Str)) (dirname : Str → Str)
    (realpath : Str → Option Str) (tv : List Token) (rpath : Option Str) (a : Assembler) :
    (∃ depth, assemble (Env.ofFiles files dirname realpath) depth tv rpath a ≠ .error .nesting) ↔
      (a.state.options.base &&& 0xF = 0 →
        ¬ Loops (Env.ofFiles files dirname realpath) (tv, rpath) a.state) := by
  constructor
  · rintro ⟨depth, ends⟩ aligned loops
    exact ends (loops.sinks aligned depth)
  · intro straight
    by_contra endless
    have sinks : Sinks (Env.ofFiles files dirname realpath) (tv, rpath) a := by
      intro depth
      by_contra ends
      exact endless ⟨depth, ends⟩
    exact straight sinks.opens.1 sinks.loops

def includesF : List Token := [⟨.directive, 1, lit ".include"⟩, ⟨.string, 1, lit "f"⟩]

theorem self_include_never_ends :
    ¬ ∃ depth, assemble (Env.ofFiles [(lit "f", lit ".include \"f\"")] id fun _ => none) depth
      includesF none (Assembler.new {}) ≠ .error .nesting := by
  rintro ⟨depth, ends⟩
  let env := Env.ofFiles [(lit "f", lit ".include \"f\"")] id fun _ => none
  have loaded : loadFile env (lit "f") none = .ok (lit ".include \"f\"") := rfl
  have tokens : split (lit ".include \"f\"") = .ok includesF := by decide +kernel
  have itself : Leads env (includesF, none) [] (includesF, none) :=
    .here (@readLine_include env none ⟨.directive, 1, lit ".include"⟩ ⟨.string, 1, lit "f"⟩
      (lit ".include \"f\"") includesF [] rfl rfl rfl loaded tokens)
  refine ends (Loops.sinks (f := (includesF, none)) (by decide) ?_ depth)
  refine ⟨0, 0, (includesF, none), [], [], .nil _, .cons itself (.nil _), fun k => ?_⟩
  exact ⟨(Assembler.new {}).state, by simp [execAll, pure, Except.pure]⟩

end BigAsm
