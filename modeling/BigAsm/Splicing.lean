import Mathlib
import BigAsm.Listing

/- An included file is read like the same tokens in its place: the operands of a statement
   never take a token that starts the next one, so what follows a statement makes no difference. -/
namespace BigAsm
open Runs

def TokenKind.starts : TokenKind → Bool
  | .directive | .label | .opcode _ | .pseudoop _ => true
  | _ => false

theorem TokenKind.type_ne {k : TokenKind} (starts : k.starts = true) {T : TokenType}
    (operand : T = .constant ∨ T = .register ∨ T = .symbol) : k.type ≠ T := by
  cases k with
  | directive | label | opcode _ | pseudoop _ => rcases operand with rfl | rfl | rfl <;> nofun
  | string | symbol | register _ | constant _ | operator | unspec => cases starts

/-- The tokens are at their end, or at the start of a statement. -/
def Stops (ts : List Token) : Prop := ∀ tk ∈ ts.head?, tk.kind.starts = true

theorem stops_nil : Stops [] := by simp [Stops]

theorem stops_cons {tk : Token} {ts : List Token} : Stops (tk :: ts) ↔ tk.kind.starts = true := by
  simp [Stops]

/-- A reader that takes tokens from the front, and the same ones whatever statement follows. -/
def Framed {α : Type} (r : Reader α) : Prop :=
  ∀ ts x rest, r ts = .ok (x, rest) →
    rest <:+ ts ∧ ∀ more, Stops more → r (ts ++ more) = .ok (x, rest ++ more)

namespace Framed
variable {α β : Type}

theorem pure (x : α) : Framed (Pure.pure x : Reader α) := by
  intro ts y rest run
  obtain ⟨rfl, rfl⟩ := stateT_pure_ok_iff.mp run
  exact ⟨List.suffix_rfl, fun more _ => rfl⟩

theorem throw (e : Failure) : Framed (throw e : Reader α) := by
  intro ts x rest run
  cases run

theorem bind {r : Reader α} {f : α → Reader β} (first : Framed r) (rest : ∀ x, Framed (f x)) :
    Framed (r >>= f) := by
  intro ts y last run
  obtain ⟨x, mid, read, later⟩ := stateT_bind_ok_iff.mp run
  obtain ⟨taken, frame⟩ := first ts x mid read
  obtain ⟨taken', frame'⟩ := rest x mid y last later
  exact ⟨taken'.trans taken, fun more stops =>
    stateT_bind_ok_iff.mpr ⟨x, mid ++ more, frame more stops, frame' more stops⟩⟩

theorem ite {c : Prop} [Decidable c] {x y : Reader α} (yes : Framed x) (no : Framed y) :
    Framed (if c then x else y) := by
  split
  · exact yes
  · exact no

theorem lift (x : Except Failure α) : Framed (BigAsm.lift x) := by
  intro ts y rest run
  obtain ⟨z, done, same⟩ := bind_ok_iff.mp run
  cases same
  exact ⟨List.suffix_rfl, fun more _ => bind_ok_iff.mpr ⟨y, done, rfl⟩⟩

theorem next : Framed BigAsm.next := by
  intro ts x rest run
  cases ts with
  | nil => cases run
  | cons tk ts =>
    cases run
    exact ⟨List.suffix_cons .., fun more _ => rfl⟩

theorem nextOf (T : TokenType) (info : Str) : Framed (BigAsm.nextOf T info) :=
  next.bind fun _ => .ite (.throw _) (.pure _)

theorem nextIs {T : TokenType} (operand : T = .constant ∨ T = .register ∨ T = .symbol) :
    Framed (BigAsm.nextIs T) := by
  intro ts x rest run
  rw [nextIs_eq] at run
  cases run
  refine ⟨List.suffix_rfl, fun more stops => ?_⟩
  rw [nextIs_eq]
  cases ts with
  | cons tk ts => rfl
  | nil =>
    cases more with
    | nil => rfl
    | cons tk more =>
      have other : (tk.type == T) = false :=
        beq_false_of_ne (TokenKind.type_ne (stops_cons.mp stops) operand)
      change Except.ok (tk.type == T, tk :: more) = .ok (false, tk :: more)
      rw [other]

theorem resolveLoop_frame {ts rest : List Token} {sum v : BitVec 128} {ops : Option ConstantOp}
    {isNegated : Bool} (run : resolveLoop sum ops isNegated ts = .ok (v, rest)) :
    rest <:+ ts ∧ ∀ more, Stops more →
      resolveLoop sum ops isNegated (ts ++ more) = .ok (v, rest ++ more) := by
  induction ts generalizing sum ops isNegated with
  | nil =>
    cases run
    refine ⟨List.suffix_rfl, fun more stops => ?_⟩
    rcases more with _ | ⟨⟨kind, line, value⟩, more⟩
    · rfl
    · cases kind with
      | directive | label | opcode _ | pseudoop _ => rfl
      | string | symbol | register _ | constant _ | operator | unspec =>
        cases stops_cons.mp stops
  | cons tk ts ih =>
    rcases tk with ⟨kind, line, value⟩
    cases kind with
    | constant u =>
      rw [resolveLoop_constant] at run
      cases ops with
      | none => cases run
      | some op =>
        obtain ⟨sum', applied, later⟩ := bind_ok_iff.mp run
        obtain ⟨taken, frame⟩ := ih later
        refine ⟨taken.trans (List.suffix_cons ..), fun more stops => ?_⟩
        rw [List.cons_append, resolveLoop_constant]
        exact bind_ok_iff.mpr ⟨sum', applied, frame more stops⟩
    | operator =>
      rw [resolveLoop_operator] at run
      split at run
      · rename_i tilde
        obtain ⟨taken, frame⟩ := ih run
        refine ⟨taken.trans (List.suffix_cons ..), fun more stops => ?_⟩
        rw [List.cons_append, resolveLoop_operator, if_pos tilde]
        exact frame more stops
      · rename_i tilde
        split at run
        · cases run
        · rename_i single
          cases named : ConstantOp.ofOperator value with
          | none =>
            rw [named] at run
            cases run
          | some op =>
            rw [named] at run
            obtain ⟨taken, frame⟩ := ih run
            refine ⟨taken.trans (List.suffix_cons ..), fun more stops => ?_⟩
            rw [List.cons_append, resolveLoop_operator, if_neg tilde, if_neg single, named]
            exact frame more stops
    | directive | label | string | symbol | opcode _ | pseudoop _ | register _ | unspec =>
      cases run
      exact ⟨List.suffix_rfl, fun more _ => rfl⟩

end Framed

/-- The readers all handlers are put together from: they take operands from the front, and none
    of them reports the bound on the nesting. -/
inductive Composed : {α : Type} → Reader α → Prop
  | pure {α : Type} (x : α) : Composed (Pure.pure x : Reader α)
  | throw {α : Type} {e : Failure} (other : e ≠ .nesting) : Composed (throw e : Reader α)
  | bind {α β : Type} {r : Reader α} {f : α → Reader β} (first : Composed r)
      (rest : ∀ x, Composed (f x)) : Composed (r >>= f)
  | ite {α : Type} {c : Prop} [Decidable c] {x y : Reader α} (yes : Composed x) (no : Composed y) :
      Composed (if c then x else y)
  | next : Composed BigAsm.next
  | nextIs {T : TokenType} (operand : T = .constant ∨ T = .register ∨ T = .symbol) :
      Composed (BigAsm.nextIs T)
  | resolveLoop (sum : BitVec 128) (ops : Option ConstantOp) (isNegated : Bool) :
      Composed (fun ts => BigAsm.resolveLoop sum ops isNegated ts)

namespace Composed

theorem nextOf (T : TokenType) (info : Str) : Composed (BigAsm.nextOf T info) :=
  next.bind fun _ => .ite (.throw (by intro h; cases h)) (.pure _)

theorem resolveConstants : Composed BigAsm.resolveConstants :=
  (nextOf .constant []).bind fun imm => (Composed.resolveLoop imm.u128 none false).bind fun _ => .pure _

theorem isConstant : Composed (BigAsm.nextIs .constant) := nextIs (Or.inl rfl)

theorem isRegister : Composed (BigAsm.nextIs .register) := nextIs (Or.inr (Or.inl rfl))

theorem isSymbol : Composed (BigAsm.nextIs .symbol) := nextIs (Or.inr (Or.inr rfl))

theorem registerOperands (reg reg2 : BitVec 5) (instr : Instruction) :
    Composed (BigAsm.registerOperands reg reg2 instr) :=
  isRegister.bind fun _ => .ite ((nextOf _ _).bind fun _ => .pure _) (.pure _)

theorem loadHelper (f3 : BitVec 3) : Composed (BigAsm.loadHelper f3) := by
  have offset : ∀ i1, Composed (loadOffset i1) := fun i1 =>
    isConstant.bind fun _ => .ite (resolveConstants.bind fun _ => .pure _) (.pure _)
  exact (nextOf _ _).bind fun dst => (offset _).bind fun i1 => (nextOf _ _).bind fun _ => .pure _

theorem storeHelper (f3 : BitVec 3) : Composed (BigAsm.storeHelper f3) :=
  (nextOf _ _).bind fun _ => (nextOf _ _).bind fun _ => isConstant.bind fun _ =>
    .ite (resolveConstants.bind fun _ => .pure _) (.pure _)

theorem branchHelper (f3 : BitVec 3) : Composed (BigAsm.branchHelper f3) :=
  (nextOf _ _).bind fun _ => (nextOf _ _).bind fun _ => (nextOf _ _).bind fun _ => .pure _

theorem opCall : Composed BigAsm.opCall := by
  have target : ∀ instr, Composed (callTarget instr) := fun instr =>
    isSymbol.bind fun _ => .ite ((nextOf _ _).bind fun _ => .pure _)
      (isConstant.bind fun _ => .ite ((nextOf _ _).bind fun _ => .pure _)
        (next.bind fun _ => .throw (by intro h; cases h)))
  exact (target _).bind fun _ => isRegister.bind fun _ =>
    .ite ((nextOf _ _).bind fun _ => .pure _) (.pure _)

theorem opJalr : Composed BigAsm.opJalr := by
  have base : ∀ instr, Composed (jalrBase instr) := fun instr =>
    isRegister.bind fun _ => .ite ((nextOf _ _).bind fun _ => .pure _) (.pure _)
  have offset : ∀ instr, Composed (jalrOffset instr) := fun instr =>
    isConstant.bind fun _ => .ite ((nextOf _ _).bind fun _ => .pure _) (.pure _)
  exact (base _).bind fun _ => (offset _).bind fun _ => isRegister.bind fun _ =>
    .ite ((nextOf _ _).bind fun _ => .pure _) (.pure _)

theorem opImmHelper (opcode : BitVec 7) (funct3 : BitVec 3) :
    Composed (BigAsm.opImmHelper opcode funct3) :=
  (nextOf _ _).bind fun _ => isConstant.bind fun _ =>
    .ite (resolveConstants.bind fun _ => .ite (.throw (by intro h; cases h)) (.pure _))
      (isRegister.bind fun _ => .ite
        ((nextOf _ _).bind fun _ => (registerOperands _ _ _).bind fun _ => .pure _)
        (next.bind fun _ => .throw (by intro h; cases h)))

theorem opF7Helper (opcode : BitVec 7) (f3 : BitVec 3) (f7 : BitVec 7) :
    Composed (BigAsm.opF7Helper opcode f3 f7) :=
  (nextOf _ _).bind fun _ => (nextOf _ _).bind fun _ => (registerOperands _ _ _).bind fun _ =>
    .pure _

theorem handler (op : Opcode) : Composed op.handler := by
  cases op with
  | nop | ret | ecall | ebreak | wfi => exact .pure _
  | ldu => exact .throw (by intro h; cases h)
  | inc => exact (nextOf _ _).bind fun _ => .pure _
  | li => exact (nextOf _ _).bind fun _ => resolveConstants.bind fun _ => .pure _
  | set => exact (nextOf _ _).bind fun _ => (nextOf _ _).bind fun _ => resolveConstants.bind fun _ => .pure _
  | la | farcall | mov => exact (nextOf _ _).bind fun _ => (nextOf _ _).bind fun _ => .pure _
  | laq => exact (nextOf _ _).bind fun _ => (nextOf _ _).bind fun _ => (nextOf _ _).bind fun _ => .pure _
  | lb | lh | lw | ld | lbu | lhu | lwu | lq => exact loadHelper _
  | sb | sh | sw | sd | sq => exact storeHelper _
  | beq | bne | blt | bge | bltu | bgeu => exact branchHelper _
  | call => exact opCall
  | jalr => exact opJalr
  | jmp => exact (nextOf _ _).bind fun _ => .pure _
  | add s | sll s | slt s | sltu s | srl s | and s | or s | xor s => exact opImmHelper _ _
  | sub s | mul s | div s | divu s | rem s | remu s => exact opF7Helper _ _ _
  | syscall => exact resolveConstants.bind fun _ => .pure _
  | system => exact resolveConstants.bind fun _ => resolveConstants.bind fun _ => .pure _

end Composed

namespace Framed

theorem of_composed {α : Type} {r : Reader α} (h : Composed r) : Framed r := by
  induction h with
  | pure x => exact .pure x
  | throw _ => exact .throw _
  | bind _ _ first rest => exact first.bind rest
  | ite _ _ yes no => exact .ite yes no
  | next => exact .next
  | nextIs operand => exact .nextIs operand
  | resolveLoop sum ops isNegated =>
    intro ts v rest run
    exact resolveLoop_frame run

theorem handler (op : Opcode) : Framed op.handler := .of_composed (.handler op)

theorem opcodeStatement (op : Opcode) : Framed (BigAsm.opcodeStatement op) := by
  intro ts x rest run
  obtain ⟨code, wf, read, rfl⟩ := opcodeStatement_ok_iff.mp run
  obtain ⟨taken, frame⟩ := handler op ts code rest read
  exact ⟨taken, fun more stops => opcodeStatement_ok_iff.mpr ⟨code, wf, frame more stops, rfl⟩⟩

theorem pseudoStatement (env : Env) (rpath : Option Str) (op : PseudoOp) :
    Framed (BigAsm.pseudoStatement env rpath op) := by
  cases op with
  | data8 | data16 | data32 | data64 | data128 | resv8 | resv16 | resv32 | resv64 | resv128 =>
    exact (nextOf _ _).bind fun _ => .pure _
  | incbin => exact (nextOf _ _).bind fun _ => (lift _).bind fun _ => .pure _

theorem directiveStatement (env : Env) (rpath : Option Str) (token : Token) :
    Framed (BigAsm.directiveStatement env rpath token) := by
  unfold BigAsm.directiveStatement
  cases findName directiveList token.value with
  | none => exact .pure _
  | some d =>
    cases d with
    | finishLabels | execonly | readonly => exact .pure _
    | align | endfunc | global | sect | org | size | string | strlen | ascii =>
      exact (nextOf _ _).bind fun _ => .pure _
    | «include» =>
      exact (nextOf _ _).bind fun _ => (lift _).bind fun _ => (lift _).bind fun _ => .pure _
    | type => exact (nextOf _ _).bind fun _ => (nextOf _ _).bind fun _ => (lift _).bind fun _ => .pure _

theorem readLine (env : Env) (rpath : Option Str) (token : Token) :
    Framed (BigAsm.readLine env rpath token) := by
  unfold BigAsm.readLine
  cases token.kind with
  | directive => exact directiveStatement env rpath token
  | label => exact .pure _
  | opcode op => exact (opcodeStatement op).bind fun _ => .pure _
  | pseudoop op => exact pseudoStatement env rpath op
  | string | symbol | register _ | constant _ | operator | unspec => exact .throw _

end Framed

theorem readLine_starts {env : Env} {rpath : Option Str} {token : Token} {ts rest : List Token}
    {line : Line} (run : readLine env rpath token ts = .ok (line, rest)) :
    token.kind.starts = true := by
  rcases token with ⟨kind, n, value⟩
  cases kind with
  | directive | label | opcode _ | pseudoop _ => rfl
  | string | symbol | register _ | constant _ | operator | unspec => cases run

inductive Lines (env : Env) (rpath : Option Str)
    (listed : List Token → Option Str → Except Failure (List Statement)) :
    List Token → List Statement → Prop
  | nil : Lines env rpath listed [] []
  | cons {token : Token} {ts rest : List Token} {line : Line} {here later : List Statement}
      (read : readLine env rpath token ts = .ok (line, rest))
      (expands : line.expand listed = .ok here) (more : Lines env rpath listed rest later) :
      Lines env rpath listed (token :: ts) (here ++ later)

/-- A whole number of statements: read on their own, the last one ends where the tokens do. -/
inductive Whole (env : Env) (rpath : Option Str) : List Token → Prop
  | nil : Whole env rpath []
  | cons {token : Token} {ts rest : List Token} {line : Line}
      (read : readLine env rpath token ts = .ok (line, rest)) (more : Whole env rpath rest) :
      Whole env rpath (token :: ts)

section Reading
variable {env : Env} {rpath : Option Str}
  {listed listed' : List Token → Option Str → Except Failure (List Statement)}
  {ts more : List Token} {xs ys : List Statement}

theorem expandRounds_lines {n : Nat} (enough : ts.length ≤ n) {rest : List Token} :
    expandRounds env listed rpath n ts = .ok (xs, rest) ↔ rest = [] ∧ Lines env rpath listed ts xs := by
  induction n generalizing ts xs with
  | zero =>
    obtain rfl := List.length_eq_zero_iff.mp (Nat.le_zero.mp enough)
    constructor
    · intro run
      cases run
      exact ⟨rfl, .nil⟩
    · rintro ⟨rfl, ⟨⟩⟩
      rfl
  | succ n ih =>
    cases ts with
    | nil =>
      constructor
      · intro run
        cases run
        exact ⟨rfl, .nil⟩
      · rintro ⟨rfl, ⟨⟩⟩
        rfl
    | cons token ts =>
      have shorter : ∀ {line : Line} {ts' : List Token},
          readLine env rpath token ts = .ok (line, ts') → ts'.length ≤ n := by
        intro line ts' read
        have taken := (Framed.readLine env rpath token ts line ts' read).1.length_le
        rw [List.length_cons] at enough
        omega
      constructor
      · intro run
        obtain ⟨⟨line, ts'⟩, read, run⟩ := bind_ok_iff.mp run
        obtain ⟨here, expands, run⟩ := bind_ok_iff.mp run
        obtain ⟨⟨later, last⟩, rounds, done⟩ := bind_ok_iff.mp run
        cases done
        obtain ⟨rfl, lines⟩ := (ih (shorter read)).mp rounds
        exact ⟨rfl, .cons read expands lines⟩
      · rintro ⟨rfl, lines⟩
        cases lines with
        | @cons _ _ ts' line here later read expands lines =>
          exact bind_ok_iff.mpr ⟨(line, ts'), read, bind_ok_iff.mpr ⟨here, expands,
            bind_ok_iff.mpr ⟨(later, []), (ih (shorter read)).mpr ⟨rfl, lines⟩, rfl⟩⟩⟩

theorem expand_succ_ok_iff {depth : Nat} : expand env (depth + 1) ts rpath = .ok xs ↔
    Lines env rpath (expand env depth) ts xs := by
  rw [expand, map_ok_iff]
  constructor
  · rintro ⟨⟨ys, rest⟩, run, rfl⟩
    exact ((expandRounds_lines (Nat.le_refl _)).mp run).2
  · intro lines
    exact ⟨(xs, []), (expandRounds_lines (Nat.le_refl _)).mpr ⟨rfl, lines⟩, rfl⟩

theorem Lines.mono (deeper : ∀ tv path zs, listed tv path = .ok zs → listed' tv path = .ok zs)
    (lines : Lines env rpath listed ts xs) : Lines env rpath listed' ts xs := by
  induction lines with
  | nil => exact .nil
  | @cons token ts rest line here later read expands more ih =>
    refine .cons read ?_ ih
    cases line with
    | stmt x | unknown => exact expands
    | included tv path => exact deeper tv path here expands

theorem expand_mono {depth : Nat} (run : expand env depth ts rpath = .ok xs) :
    expand env (depth + 1) ts rpath = .ok xs := by
  induction depth generalizing ts rpath xs with
  | zero => cases run
  | succ depth ih =>
    exact expand_succ_ok_iff.mpr ((expand_succ_ok_iff.mp run).mono fun tv path zs => ih)

theorem Lines.stops (lines : Lines env rpath listed ts xs) : Stops ts := by
  cases lines with
  | nil => exact stops_nil
  | cons read expands more => exact stops_cons.mpr (readLine_starts read)

theorem Lines.append (first : Lines env rpath listed ts xs) (rest : Lines env rpath listed more ys) :
    Lines env rpath listed (ts ++ more) (xs ++ ys) := by
  induction first with
  | nil => exact rest
  | @cons token ts ts' line here later read expands _ ih =>
    have frame := (Framed.readLine env rpath token ts line ts' read).2 more rest.stops
    rw [List.append_assoc]
    exact .cons frame expands ih

theorem Whole.split (whole : Whole env rpath ts) (stops : Stops more)
    (lines : Lines env rpath listed (ts ++ more) xs) :
    ∃ ys zs, xs = ys ++ zs ∧ Lines env rpath listed ts ys ∧ Lines env rpath listed more zs := by
  induction whole generalizing xs with
  | nil => exact ⟨[], xs, rfl, .nil, lines⟩
  | @cons token ts ts' line read _ ih =>
    have frame := (Framed.readLine env rpath token ts line ts' read).2 more stops
    rw [List.cons_append] at lines
    cases lines with
    | @cons _ _ _ line' here later read' expands rest =>
      cases frame.symm.trans read'
      obtain ⟨ys, zs, rfl, first, second⟩ := ih rest
      exact ⟨here ++ ys, zs, (List.append_assoc ..).symm, .cons read expands first, second⟩

theorem readLine_rpath {rpath' : Option Str}
    (same : ∀ f, loadFile env f rpath = loadFile env f rpath') (token : Token) :
    readLine env rpath token = readLine env rpath' token := by
  unfold readLine
  cases token.kind with
  | directive => simp only [directiveStatement, same]
  | pseudoop op => cases op <;> simp only [pseudoStatement, same]
  | label | opcode _ | string | symbol | register _ | constant _ | operator | unspec => rfl

theorem Lines.moved {rpath' : Option Str}
    (same : ∀ f, loadFile env f rpath = loadFile env f rpath')
    (lines : Lines env rpath listed ts xs) : Lines env rpath' listed ts xs := by
  induction lines with
  | nil => exact .nil
  | cons read expands more ih =>
    rw [readLine_rpath same] at read
    exact .cons read expands ih

theorem readLine_include {dir name : Token} {contents : Str} {inc post : List Token}
    (directive : dir.kind = .directive) (includes : dir.value = lit ".include")
    (file : name.kind = .string) (loaded : loadFile env name.value rpath = .ok contents)
    (tokens : BigAsm.split contents = .ok inc) :
    readLine env rpath dir (name :: post) =
      .ok (.included inc (getRealpath env name.value), post) := by
  have named : findName directiveList dir.value = some .include := by
    rw [includes]
    decide
  have read : nextOf .string [] (name :: post) = .ok (name, post) :=
    nextOf_ok_iff.mpr ⟨rfl, congrArg TokenKind.type file⟩
  unfold readLine
  rw [directive]
  simp only [directiveStatement, named]
  exact stateT_bind_ok_iff.mpr ⟨name, post, read,
    stateT_bind_ok_iff.mpr ⟨contents, post, bind_ok_iff.mpr ⟨contents, loaded, rfl⟩,
      stateT_bind_ok_iff.mpr ⟨inc, post, bind_ok_iff.mpr ⟨inc, tokens, rfl⟩, rfl⟩⟩⟩

end Reading

/-- Assembling an included file is assembling its tokens in the place of the directive. -/
theorem include_splices {env : Env} {depth : Nat} {rpath : Option Str} {pre inc post : List Token}
    {dir name : Token} {contents : Str} {a b : Assembler} (directive : dir.kind = .directive)
    (includes : dir.value = lit ".include") (file : name.kind = .string)
    (loaded : loadFile env name.value rpath = .ok contents)
    (tokens : BigAsm.split contents = .ok inc)
    (same : ∀ f, loadFile env f (getRealpath env name.value) = loadFile env f rpath)
    (whole : Whole env rpath pre)
    (run : assemble env depth (pre ++ dir :: name :: post) rpath a = .ok ((), b)) :
    assemble env depth (pre ++ inc ++ post) rpath a = .ok ((), b) := by
  have aligned := assemble_aligned run
  obtain ⟨xs, t, listed, ran, done⟩ := (assemble_expands env depth _ _ _ _ aligned).mp run
  refine (assemble_expands env depth _ _ _ _ aligned).mpr ⟨xs, t, ?_, ran, done⟩
  cases depth with
  | zero => cases listed
  | succ depth =>
    have starts : Stops (dir :: name :: post) := by
      rw [stops_cons, directive]
      rfl
    obtain ⟨ys, zs, rfl, before, after⟩ := whole.split starts (expand_succ_ok_iff.mp listed)
    have directive_read := @readLine_include env rpath dir name contents inc post directive includes file loaded tokens
    cases after with
    | @cons _ _ rest line here later read expands following =>
      cases directive_read.symm.trans read
      -- the file was read at its own directory and one level deeper
      have inside : expand env depth inc (getRealpath env name.value) = .ok here := expands
      have spliced : Lines env rpath (expand env depth) inc here :=
        (expand_succ_ok_iff.mp (expand_mono inside)).moved same
      rw [List.append_assoc]
      exact expand_succ_ok_iff.mpr (before.append (spliced.append following))

def oneFile : Env := ⟨fun f => if f = lit "f" then some (lit "x: dw 5\ny:") else none, id, fun _ => none⟩

def includeDirective : Token := ⟨.directive, 2, lit ".include"⟩
def includedName : Token := ⟨.string, 2, lit "f"⟩
def labelAndByte : List Token :=
  [⟨.label, 1, lit "a"⟩, ⟨.pseudoop .data8, 1, lit "db"⟩, ⟨.constant 1, 1, lit "1"⟩]
def returnOnly : List Token := [⟨.opcode .ret, 3, lit "ret"⟩]

theorem labelAndByte_whole : Whole oneFile none labelAndByte := by
  refine @Whole.cons oneFile none _ _ [⟨.pseudoop .data8, 1, lit "db"⟩, ⟨.constant 1, 1, lit "1"⟩]
    (.stmt (.label (lit "a"))) rfl ?_
  exact @Whole.cons oneFile none _ _ [] (.stmt (.db 1)) rfl .nil

theorem label_and_word_spliced : ∃ inc b, BigAsm.split (lit "x: dw 5\ny:") = .ok inc ∧
    assemble oneFile 2 (labelAndByte ++ inc ++ returnOnly) none (Assembler.new {}) =
      .ok ((), b) := by
  have facts : (BigAsm.split (lit "x: dw 5\ny:")).isOk = true ∧
      loadFile oneFile includedName.value none = .ok (lit "x: dw 5\ny:") ∧
      (assemble oneFile 2 (labelAndByte ++ includeDirective :: includedName :: returnOnly) none
        (Assembler.new {})).isOk = true := by
    decide +kernel
  obtain ⟨tokens, loaded, accepted⟩ := facts
  obtain ⟨inc, read⟩ : ∃ inc, BigAsm.split (lit "x: dw 5\ny:") = .ok inc :=
    ⟨_, eq_ok_result tokens⟩
  generalize assembled : assemble oneFile 2
    (labelAndByte ++ includeDirective :: includedName :: returnOnly) none (Assembler.new {}) = r
    at accepted
  rcases r with e | ⟨⟨⟩, b⟩
  · cases accepted
  · exact ⟨inc, b, read, @include_splices oneFile 2 none labelAndByte inc returnOnly includeDirective
      includedName _ _ b rfl rfl rfl loaded read (fun _ => rfl) labelAndByte_whole assembled⟩

end BigAsm
