import Mathlib
import BigAsm.Operands
import BigAsm.Library.Runs

/- Chains of constants. The reader of a chain keeps its operator after an operand, so it
   combines neighbouring constants and stops at the second operator. -/
namespace BigAsm
open Runs

/-- What a constant or operator token stands for in a chain. -/
inductive Piece where
  | constant (u : BitVec 128)
  | complement
  | binary (op : ConstantOp)
  | unknown
  deriving DecidableEq, Repr

def Token.piece (tk : Token) : Option Piece :=
  match tk.kind with
  | .constant u => some (.constant u)
  | .operator =>
    if tk.value = lit "~" then some .complement
    else match ConstantOp.ofOperator tk.value with
      | some op => some (.binary op)
      | none => some .unknown
  | _ => none

def constantRun : List Token → List Piece × List Token
  | [] => ([], [])
  | tk :: ts =>
    match tk.piece with
    | some p => (p :: (constantRun ts).1, (constantRun ts).2)
    | none => ([], tk :: ts)

/-- OP ~* C -/
structure Link where
  op : ConstantOp
  complements : Nat
  constant : BitVec 128

namespace Link

def pieces (l : Link) : List Piece :=
  .binary l.op :: (List.replicate l.complements .complement ++ [.constant l.constant])

def operand (l : Link) : BitVec 128 := (fun u => ~~~u)^[l.complements] l.constant

def flatten (links : List Link) : List Piece := links.flatMap pieces

def value (links : List Link) (start : BitVec 128) : Except Failure (BitVec 128) :=
  links.foldlM (fun sum l => l.op.apply sum l.operand) start

end Link

def ConstantOp.Admits (op : ConstantOp) (operand : BitVec 128) : Prop :=
  match op with
  | .div | .mod => operand ≠ 0
  | .shr | .shl => operand.toNat < 128
  | _ => True

namespace ConstantOp
variable {op : ConstantOp} {operand : BitVec 128}

theorem apply_of_admits (sum : BitVec 128) (admits : op.Admits operand) : ∃ v, op.apply sum operand = .ok v := by
  cases op with
  | div | mod => exact ⟨_, if_neg admits⟩
  | shr | shl => exact ⟨_, if_neg (not_le.mpr admits)⟩
  | add | sub | mul | and | or | xor => exact ⟨_, rfl⟩

theorem apply_of_not_admits {sum : BitVec 128} (refused : ¬ op.Admits operand) :
    op.apply sum operand = .error .undefined := by
  cases op with
  | div | mod => exact if_pos (not_not.mp refused)
  | shr | shl => exact if_pos (not_lt.mp refused)
  | add | sub | mul | and | or | xor => exact absurd trivial refused

end ConstantOp

/-- The loop of resolve_constants over the pieces of a run; an exception is none. -/
def scanChain (sum : BitVec 128) (ops : Option ConstantOp) (isNegated : Bool) :
    List Piece → Except Failure (Option (BitVec 128))
  | [] => .ok (some sum)
  | .constant u :: ps =>
    match ops with
    | none => .ok none
    | some op => do
      let sum ← op.apply sum (if isNegated then ~~~u else u)
      scanChain sum ops false ps
  | .complement :: ps => scanChain sum ops (!isNegated) ps
  | .binary op :: ps => if ops.isSome then .ok none else scanChain sum (some op) isNegated ps
  | .unknown :: _ => .ok none

def Rejected {α : Type} (x : Except Failure α) : Prop := ∃ e, x = .error e ∧ e ≠ .undefined

def SameEnd (scanned : Except Failure (Option (BitVec 128))) (rest : List Token)
    (resolved : Except Failure (BitVec 128 × List Token)) : Prop :=
  match scanned with
  | .ok (some v) => resolved = .ok (v, rest)
  | .ok none => Rejected resolved
  | .error e => e = .undefined ∧ resolved = .error .undefined

theorem resolveLoop_scan (ts : List Token) (sum : BitVec 128) (ops : Option ConstantOp)
    (isNegated : Bool) :
    SameEnd (scanChain sum ops isNegated (constantRun ts).1) (constantRun ts).2
      (resolveLoop sum ops isNegated ts) := by
  induction ts generalizing sum ops isNegated with
  | nil => exact rfl
  | cons tk ts ih =>
    rcases tk with ⟨kind, line, value⟩
    cases kind with
    | constant u =>
      rw [resolveLoop_constant]
      change SameEnd (scanChain sum ops isNegated (.constant u :: (constantRun ts).1))
        (constantRun ts).2 _
      cases ops with
      | none => exact ⟨_, rfl, nofun⟩
      | some op =>
        unfold scanChain
        by_cases admits : op.Admits (if isNegated then ~~~u else u)
        · obtain ⟨v, applied⟩ := op.apply_of_admits sum admits
          dsimp only
          rw [applied]
          exact ih v (some op) false
        · dsimp only
          rw [op.apply_of_not_admits admits]
          exact ⟨rfl, rfl⟩
    | operator =>
      rw [resolveLoop_operator]
      unfold constantRun Token.piece
      by_cases tilde : value = lit "~"
      · rw [if_pos tilde, if_pos tilde]
        exact ih sum ops (!isNegated)
      · rw [if_neg tilde, if_neg tilde]
        cases named : ConstantOp.ofOperator value with
        | none => cases ops <;> exact ⟨_, rfl, nofun⟩
        | some op =>
          cases ops with
          | none => exact ih sum (some op) isNegated
          | some first => exact ⟨_, rfl, nofun⟩
    | directive | label | string | symbol | opcode _ | pseudoop _ | register _ | unspec =>
      exact rfl

theorem resolveConstants_constant (u : BitVec 128) (line : BitVec 32) (value : Str)
    (ts : List Token) : resolveConstants (⟨.constant u, line, value⟩ :: ts) =
      (fun r => (⟨.constant r.1, line, value⟩, r.2)) <$> resolveLoop u none false ts := by
  change (resolveLoop u none false ts >>= fun r => Except.ok (_, r.2)) = _
  cases resolveLoop u none false ts <;> rfl

theorem constantRun_starts {ts : List Token} {u : BitVec 128} {ps : List Piece}
    (starts : (constantRun ts).1 = .constant u :: ps) : ∃ line value later,
      ts = ⟨.constant u, line, value⟩ :: later ∧ (constantRun later).1 = ps ∧
        (constantRun ts).2 = (constantRun later).2 := by
  rcases ts with _ | ⟨⟨kind, line, value⟩, later⟩
  · cases starts
  · cases kind with
    | constant w =>
      obtain ⟨⟨⟩, rest⟩ := List.cons.inj (show .constant w :: (constantRun later).1 = _ from starts)
      exact ⟨line, value, later, rfl, rest, rfl⟩
    | operator =>
      unfold constantRun Token.piece at starts
      dsimp only at starts
      split at starts
      · rename_i named
        split at named
        · cases named
          cases starts
        · split at named <;> · cases named; cases starts
      · cases starts
    | directive | label | string | symbol | opcode _ | pseudoop _ | register _ | unspec =>
      cases starts

theorem resolveConstants_scan {ts : List Token} {u : BitVec 128} {ps : List Piece}
    (starts : (constantRun ts).1 = .constant u :: ps) :
    (∀ v, (∃ imm, resolveConstants ts = .ok (imm, (constantRun ts).2) ∧ imm.kind = .constant v) ↔
      scanChain u none false ps = .ok (some v)) ∧
    (Rejected (resolveConstants ts) ↔ scanChain u none false ps = .ok none) ∧
    (resolveConstants ts = .error .undefined ↔ scanChain u none false ps = .error .undefined) := by
  obtain ⟨line, value, later, rfl, rfl, rest⟩ := constantRun_starts starts
  have ended := resolveLoop_scan later u none false
  rw [resolveConstants_constant, rest]
  generalize scanned : scanChain u none false (constantRun later).1 = outcome at ended ⊢
  rcases outcome with e | _ | w
  · obtain ⟨rfl, resolved⟩ := ended
    rw [resolved]
    refine ⟨fun v => ⟨?_, nofun⟩, ⟨?_, nofun⟩, fun _ => rfl, fun _ => rfl⟩
    · rintro ⟨imm, ⟨⟩, -⟩
    · rintro ⟨e, ⟨⟩, other⟩
      exact absurd rfl other
  · obtain ⟨e, resolved, other⟩ := ended
    rw [resolved]
    refine ⟨fun v => ⟨?_, nofun⟩, ⟨fun _ => rfl, fun _ => ⟨e, rfl, other⟩⟩, ?_, nofun⟩
    · rintro ⟨imm, ⟨⟩, -⟩
    · intro undefined
      cases undefined
      exact absurd rfl other
  · have resolved : resolveLoop u none false later = .ok (w, (constantRun later).2) := ended
    rw [resolved]
    refine ⟨fun v => ⟨?_, ?_⟩, ⟨?_, nofun⟩, nofun, nofun⟩
    · rintro ⟨imm, ⟨⟩, ⟨⟩⟩
      rfl
    · rintro ⟨⟩
      exact ⟨_, rfl, rfl⟩
    · rintro ⟨e, ⟨⟩, -⟩

/- The pieces of a run, without the tokens. -/

def operands (isNegated : Bool) : List Piece → List (BitVec 128)
  | .constant u :: ps => (if isNegated then ~~~u else u) :: operands false ps
  | .complement :: ps => operands (!isNegated) ps
  | _ => []

def afterOperands : List Piece → List Piece
  | .constant _ :: ps => afterOperands ps
  | .complement :: ps => afterOperands ps
  | ps => ps

def afterComplements : List Piece → List Piece
  | .complement :: ps => afterComplements ps
  | ps => ps

def startsNegated : List Piece → Bool
  | .complement :: ps => !startsNegated ps
  | _ => false

theorem scanChain_leading (sum : BitVec 128) (isNegated : Bool) (ps : List Piece) :
    scanChain sum none isNegated ps =
      match afterComplements ps with
      | [] => .ok (some sum)
      | .binary op :: tail => scanChain sum (some op) (isNegated ^^ startsNegated ps) tail
      | _ => .ok none := by
  induction ps generalizing isNegated with
  | nil => rfl
  | cons p ps ih =>
    cases p with
    | complement =>
      rw [scanChain, ih, afterComplements, startsNegated]
      cases isNegated <;> cases startsNegated ps <;> rfl
    | binary op =>
      rw [afterComplements, startsNegated, Bool.xor_false]
      · rfl
      all_goals nofun
    | constant u => rfl
    | unknown => rfl

theorem scanChain_operands (sum : BitVec 128) (op : ConstantOp) (isNegated : Bool)
    (ps : List Piece) : scanChain sum (some op) isNegated ps =
      (operands isNegated ps).foldlM (fun sum x => op.apply sum x) sum >>= fun v =>
        .ok (if afterOperands ps = [] then some v else none) := by
  induction ps generalizing sum isNegated with
  | nil => rfl
  | cons p ps ih =>
    cases p with
    | constant u =>
      simp only [scanChain, operands, afterOperands, List.foldlM_cons, bind_assoc]
      exact bind_congr fun v => ih v false
    | complement => exact ih sum (!isNegated)
    | binary op' => rfl
    | unknown => rfl

theorem fold_apply_error {op : ConstantOp} {xs : List (BitVec 128)} {sum : BitVec 128} {e : Failure}
    (failed : xs.foldlM (fun sum x => op.apply sum x) sum = .error e) : e = .undefined := by
  induction xs generalizing sum with
  | nil => cases failed
  | cons x xs ih =>
    rw [List.foldlM_cons] at failed
    by_cases admits : op.Admits x
    · obtain ⟨v, applied⟩ := op.apply_of_admits sum admits
      rw [applied] at failed
      exact ih failed
    · rw [op.apply_of_not_admits admits] at failed
      cases failed
      rfl

theorem fold_apply_ok_iff (op : ConstantOp) (xs : List (BitVec 128)) (sum : BitVec 128) :
    (∃ v, xs.foldlM (fun sum x => op.apply sum x) sum = .ok v) ↔ ∀ x ∈ xs, op.Admits x := by
  induction xs generalizing sum with
  | nil => simp [pure_ok_iff]
  | cons x xs ih =>
    simp only [run_cons_iff, List.forall_mem_cons]
    by_cases admits : op.Admits x
    · obtain ⟨v, applied⟩ := op.apply_of_admits sum admits
      simp [applied, admits, ih]
    · simp [op.apply_of_not_admits admits, admits]

namespace Link

theorem complements_operands (n : Nat) (u : BitVec 128) (isNegated : Bool) (ps : List Piece) :
    operands isNegated (List.replicate n .complement ++ .constant u :: ps) =
      (fun u => ~~~u)^[n] (if isNegated then ~~~u else u) :: operands false ps := by
  induction n generalizing isNegated with
  | zero => rfl
  | succ n ih =>
    rw [List.replicate_succ, List.cons_append, operands, ih, Function.iterate_succ_apply]
    cases isNegated <;> simp

theorem complements_after (n : Nat) (u : BitVec 128) (ps : List Piece) :
    afterOperands (List.replicate n .complement ++ .constant u :: ps) = afterOperands ps := by
  induction n with
  | zero => rfl
  | succ n ih => rwa [List.replicate_succ, List.cons_append, afterOperands]

theorem flatten_front (links : List Link) :
    operands false (flatten links) = [] ∧ afterOperands (flatten links) = flatten links ∧
      afterComplements (flatten links) = flatten links ∧ startsNegated (flatten links) = false := by
  cases links with
  | nil => exact ⟨rfl, rfl, rfl, rfl⟩
  | cons l links => exact ⟨rfl, rfl, rfl, rfl⟩

theorem flatten_cons (l : Link) (links : List Link) : flatten (l :: links) =
    .binary l.op :: (List.replicate l.complements .complement ++
      .constant l.constant :: flatten links) := by
  simp [flatten, pieces]

theorem replicate_constant_inj {n m : Nat} {u w : BitVec 128} {ps qs : List Piece}
    (same : List.replicate n Piece.complement ++ .constant u :: ps =
      List.replicate m .complement ++ .constant w :: qs) : n = m ∧ u = w ∧ ps = qs := by
  induction n generalizing m with
  | zero =>
    cases m with
    | zero =>
      cases same
      exact ⟨rfl, rfl, rfl⟩
    | succ m => cases same
  | succ n ih =>
    cases m with
    | zero => cases same
    | succ m =>
      obtain ⟨rfl, rest⟩ := ih (List.cons.inj same).2
      exact ⟨rfl, rest⟩

theorem flatten_injective {links links' : List Link} (same : flatten links = flatten links') :
    links = links' := by
  induction links generalizing links' with
  | nil =>
    cases links' with
    | nil => rfl
    | cons l links' => cases same
  | cons l links ih =>
    cases links' with
    | nil => cases same
    | cons l' links' =>
      rw [flatten_cons, flatten_cons] at same
      obtain ⟨op, tail⟩ := List.cons.inj same
      obtain ⟨complements, constant, rest⟩ := replicate_constant_inj tail
      rcases l with ⟨o, n, u⟩
      rcases l' with ⟨o', n', u'⟩
      cases op
      cases complements
      cases constant
      rw [ih rest]

theorem scanChain_flatten (l : Link) (links : List Link) (sum : BitVec 128) :
    scanChain sum none false (flatten (l :: links)) =
      l.op.apply sum l.operand >>= fun v => .ok (if links = [] then some v else none) := by
  have front := flatten_front links
  have done : flatten links = [] ↔ links = [] := by
    cases links with
    | nil => exact iff_of_true rfl rfl
    | cons l links => exact iff_of_false nofun nofun
  rw [flatten_cons, scanChain, Option.isSome_none, if_neg nofun, scanChain_operands,
    complements_operands, complements_after, front.1, front.2.1]
  simp only [done, List.foldlM_cons, List.foldlM_nil, bind_pure]
  rfl

theorem value_ok_iff {links : List Link} {start : BitVec 128} :
    (∃ v, value links start = .ok v) ↔ ∀ l ∈ links, l.op.Admits l.operand := by
  induction links generalizing start with
  | nil => simp [value, pure_ok_iff]
  | cons l links ih =>
    simp only [value, run_cons_iff, List.forall_mem_cons]
    by_cases admits : l.op.Admits l.operand
    · obtain ⟨v, applied⟩ := l.op.apply_of_admits start admits
      have later : (∃ w, links.foldlM (fun sum l => l.op.apply sum l.operand) v = .ok w) ↔ _ :=
        @ih v
      simpa [applied, admits] using later
    · simp [l.op.apply_of_not_admits admits, admits]

end Link

theorem afterComplements_ne (ps tail : List Piece) : afterComplements ps ≠ .complement :: tail := by
  induction ps with
  | nil => nofun
  | cons p ps ih =>
    cases p with
    | complement => exact ih
    | constant u | binary op | unknown => nofun

structure Chained (start : BitVec 128) (ps : List Piece) : Prop where
  value : ∀ links v, ps = Link.flatten links → Link.value links start = .ok v →
    scanChain start none false ps = .ok (some v)
  rejected : (∀ links, ps ≠ Link.flatten links) → scanChain start none false ps = .ok none

/-- The runs the loop reads as chains: one link at most, or a token out of place that comes
    before an operator has its operand, or a second operator in a run that is no chain. Operands
    without a result are left out of chains, and must not come before such an operator. -/
def Foreseen (ps : List Piece) : Prop :=
  match afterComplements ps with
  | [] => ps = []
  | .binary op :: tail =>
    if afterOperands tail = [] then ∃ l : Link, ps = l.pieces
    else (∀ links, ps = Link.flatten links → ∃ l ∈ links, ¬ l.op.Admits l.operand) ∧
      ((∀ links, ps ≠ Link.flatten links) → ∀ x ∈ operands (startsNegated ps) tail, op.Admits x)
  | _ => True

theorem single_of_last {op : ConstantOp} {tail : List Piece} {links : List Link} {ps : List Piece}
    (last : afterOperands tail = []) (first : .binary op :: tail = Link.flatten links)
    (same : ps = Link.flatten links) : ∃ l : Link, ps = l.pieces := by
  cases links with
  | nil => cases first
  | cons l links =>
    rw [Link.flatten_cons] at first
    rw [(List.cons.inj first).2, Link.complements_after, (Link.flatten_front links).2.1] at last
    refine ⟨l, ?_⟩
    rw [same, Link.flatten, List.flatMap_cons, ← Link.flatten, last, List.append_nil]

section Heads
variable {start : BitVec 128} {ps later tail : List Piece} {op : ConstantOp}

theorem leading_of_chain (after : afterComplements ps = later) {links : List Link}
    (same : ps = Link.flatten links) : later = Link.flatten links := by
  subst same
  exact after.symm.trans (Link.flatten_front links).2.2.1

theorem chained_complements_iff (after : afterComplements ps = []) : Chained start ps ↔ ps = [] := by
  have scanned := scanChain_leading start false ps
  rw [after] at scanned
  constructor
  · intro h
    by_contra nonempty
    have none : scanChain start none false ps = .ok none := h.rejected fun links same =>
      nonempty (same.trans (leading_of_chain after same).symm)
    cases scanned.symm.trans none
  · rintro rfl
    refine ⟨fun links v same done => ?_, fun no => absurd rfl (no [])⟩
    cases Link.flatten_injective (show Link.flatten [] = Link.flatten links from same)
    cases done
    rfl

theorem chained_last_iff (after : afterComplements ps = .binary op :: tail)
    (last : afterOperands tail = []) : Chained start ps ↔ ∃ l : Link, ps = l.pieces := by
  have scanned := scanChain_leading start false ps
  rw [after] at scanned
  simp only [Bool.false_xor, scanChain_operands, if_pos last] at scanned
  constructor
  · intro h
    by_contra single
    have none : scanChain start none false ps = .ok none := h.rejected fun links same =>
      single (single_of_last last (leading_of_chain after same) same)
    obtain ⟨v, -, some_⟩ := bind_ok_iff.mp (scanned.symm.trans none)
    cases some_
  · rintro ⟨l, rfl⟩
    have one : l.pieces = Link.flatten [l] := by simp [Link.flatten]
    refine ⟨fun links v same done => ?_, fun no => absurd one (no [l])⟩
    cases Link.flatten_injective (one.symm.trans same)
    rw [one, Link.scanChain_flatten]
    exact bind_ok_iff.mpr ⟨v, run_single_iff.mp done, rfl⟩

theorem chained_beyond_iff (after : afterComplements ps = .binary op :: tail)
    (more : afterOperands tail ≠ []) : Chained start ps ↔
      (∀ links, ps = Link.flatten links → ∃ l ∈ links, ¬ l.op.Admits l.operand) ∧
        ((∀ links, ps ≠ Link.flatten links) →
          ∀ x ∈ operands (startsNegated ps) tail, op.Admits x) := by
  have scanned := scanChain_leading start false ps
  rw [after] at scanned
  simp only [Bool.false_xor, scanChain_operands, if_neg more] at scanned
  have stops : scanChain start none false ps = .ok none ↔
      ∀ x ∈ operands (startsNegated ps) tail, op.Admits x := by
    rw [scanned, ← fold_apply_ok_iff op _ start, bind_ok_iff]
    simp
  constructor
  · intro h
    refine ⟨fun links same => ?_, fun no => stops.mp (h.rejected no)⟩
    by_contra! admits
    obtain ⟨v, done⟩ := Link.value_ok_iff.mpr admits
    obtain ⟨w, -, none⟩ := bind_ok_iff.mp (scanned.symm.trans (h.value links v same done))
    cases none
  · rintro ⟨undefined, admits⟩
    refine ⟨fun links v same done => ?_, fun no => stops.mpr (admits no)⟩
    obtain ⟨l, mem, refused⟩ := undefined links same
    exact absurd (Link.value_ok_iff.mp ⟨v, done⟩ l mem) refused

end Heads

theorem chained_iff (start : BitVec 128) (ps : List Piece) : Chained start ps ↔ Foreseen ps := by
  have scanned := scanChain_leading start false ps
  unfold Foreseen
  generalize after : afterComplements ps = later at scanned ⊢
  rcases later with _ | ⟨p, tail⟩
  · exact chained_complements_iff after
  · cases p with
    | binary op =>
      dsimp only
      split
      · rename_i last
        exact chained_last_iff after last
      · rename_i more
        exact chained_beyond_iff after more
    | constant u | unknown =>
      refine iff_of_true ⟨fun links v same _ => ?_, fun _ => scanned⟩ trivial
      have first := leading_of_chain after same
      cases links <;> cases first
    | complement => exact absurd after (afterComplements_ne ps tail)

/-- What is asked of resolve_constants for the tokens at its index: a run C (OP ~* C)* gives
    the value of the chain and the tokens after the run, any other run an exception. -/
def ResolvesChains (ts : List Token) : Prop :=
  match (constantRun ts).1 with
  | .constant u :: ps =>
    (∀ links v, ps = Link.flatten links → Link.value links u = .ok v →
      ∃ imm, resolveConstants ts = .ok (imm, (constantRun ts).2) ∧ imm.kind = .constant v) ∧
    ((∀ links, ps ≠ Link.flatten links) → Rejected (resolveConstants ts))
  | _ => Rejected (resolveConstants ts)

theorem resolveConstants_start {tk : Token} {ts : List Token} (other : tk.type ≠ .constant) :
    Rejected (resolveConstants (tk :: ts)) := by
  refine ⟨argumentMismatch tk .constant [], ?_, nofun⟩
  have mismatch : nextOf .constant [] (tk :: ts) = .error (argumentMismatch tk .constant []) := by
    change (if tk.type ≠ .constant then throw _ else _ : Reader Token) ts = _
    rw [if_pos other]
    rfl
  change (nextOf .constant [] (tk :: ts) >>= _) = _
  rw [mismatch]
  rfl

theorem rejected_unless_constant {ts : List Token}
    (other : ∀ u ps, (constantRun ts).1 ≠ .constant u :: ps) : Rejected (resolveConstants ts) := by
  rcases ts with _ | ⟨⟨kind, line, value⟩, ts⟩
  · exact ⟨.outOfRange, rfl, nofun⟩
  · refine resolveConstants_start fun constant => ?_
    cases kind with
    | constant u => exact other u _ rfl
    | directive | label | string | symbol | opcode _ | pseudoop _ | register _ | operator
    | unspec => cases constant

/-- resolve_constants reads a run as the chain it is exactly when the run has one link at
    most, or is refused at a token out of place or at a second operator. -/
theorem resolves_chains_iff (ts : List Token) : ResolvesChains ts ↔
    ∀ u ps, (constantRun ts).1 = .constant u :: ps → Foreseen ps := by
  unfold ResolvesChains
  split
  · rename_i u ps starts
    obtain ⟨value, rejected, -⟩ := resolveConstants_scan starts
    simp only [value, rejected]
    have chained := chained_iff u ps
    constructor
    · rintro h u' ps' same
      cases starts.symm.trans same
      exact chained.mp ⟨h.1, h.2⟩
    · intro foreseen
      have h := chained.mpr (foreseen u ps starts)
      exact ⟨h.value, h.rejected⟩
  · rename_i other
    exact iff_of_true (rejected_unless_constant other) fun u ps starts => absurd starts (other u ps)

def threeConstants : List Token :=
  [⟨.constant 1, 1, lit "1"⟩, ⟨.operator, 1, lit "+"⟩, ⟨.constant 2, 1, lit "2"⟩,
   ⟨.operator, 1, lit "+"⟩, ⟨.constant 3, 1, lit "3"⟩]

theorem three_constants_refused : ¬ ResolvesChains threeConstants := by
  rintro ⟨chain, -⟩
  obtain ⟨imm, accepted, -⟩ := chain [⟨.add, 0, 2⟩, ⟨.add, 0, 3⟩] 6 (by decide) rfl
  have refused : (resolveConstants threeConstants).isOk = false := by decide
  rw [accepted] at refused
  cases refused

/- Where the arithmetic of a chain has no result. -/

def combined (ps : List Piece) : List (ConstantOp × BitVec 128) :=
  match afterComplements ps with
  | .binary op :: tail => (operands (startsNegated ps) tail).map fun x => (op, x)
  | _ => []

theorem scanChain_defined_iff (sum : BitVec 128) (ps : List Piece) :
    scanChain sum none false ps ≠ .error .undefined ↔ ∀ p ∈ combined ps, p.1.Admits p.2 := by
  have scanned := scanChain_leading sum false ps
  unfold combined
  generalize afterComplements ps = later at scanned ⊢
  rcases later with _ | ⟨p, tail⟩
  · rw [scanned]
    exact iff_of_true nofun nofun
  · cases p with
    | binary op =>
      dsimp only at scanned ⊢
      rw [scanned, Bool.false_xor, scanChain_operands, List.forall_mem_map, ← fold_apply_ok_iff op _ sum]
      generalize folded : (operands (startsNegated ps) tail).foldlM (fun sum x => op.apply sum x) sum = outcome
      cases outcome with
      | ok v => exact iff_of_true nofun ⟨v, rfl⟩
      | error e =>
        refine iff_of_false (fun defined => defined ?_) nofun
        rw [fold_apply_error folded]
        rfl
    | constant u | complement | unknown =>
      rw [scanned]
      exact iff_of_true nofun nofun

/-- What is asked of the arithmetic of resolve_constants: it is never undefined, and a chain with
    an operand that its operator has no result for ends in an exception. -/
structure Guarded (ts : List Token) : Prop where
  defined : resolveConstants ts ≠ .error .undefined
  refused : ∀ u links, (constantRun ts).1 = .constant u :: Link.flatten links →
    (∃ l ∈ links, ¬ l.op.Admits l.operand) → Rejected (resolveConstants ts)

def reached (ts : List Token) : List (ConstantOp × BitVec 128) :=
  match (constantRun ts).1 with
  | .constant _ :: ps => combined ps
  | _ => []

theorem Link.scanChain_refused {links : List Link} {sum : BitVec 128}
    (defined : scanChain sum none false (flatten links) ≠ .error .undefined)
    (refused : ∃ l ∈ links, ¬ l.op.Admits l.operand) :
    scanChain sum none false (flatten links) = .ok none := by
  obtain ⟨bad, mem, refused⟩ := refused
  cases links with
  | nil => cases mem
  | cons l links =>
    rw [scanChain_flatten] at defined ⊢
    by_cases admits : l.op.Admits l.operand
    · obtain ⟨v, applied⟩ := l.op.apply_of_admits sum admits
      have later : links ≠ [] := by
        rintro rfl
        cases List.mem_singleton.mp mem
        exact refused admits
      rw [applied]
      change Except.ok (if links = [] then some v else none) = _
      rw [if_neg later]
    · rw [l.op.apply_of_not_admits admits] at defined
      exact absurd rfl defined

/-- The arithmetic of a chain is guarded exactly when no operand the loop reaches is one its
    operator has no result for. -/
theorem guarded_iff (ts : List Token) :
    Guarded ts ↔ ∀ p ∈ reached ts, p.1.Admits p.2 := by
  unfold reached
  split
  · rename_i u ps starts
    obtain ⟨-, rejected, undefined⟩ := resolveConstants_scan starts
    rw [← scanChain_defined_iff u ps]
    constructor
    · intro h
      rw [ne_eq, ← undefined]
      exact h.defined
    · intro defined
      refine ⟨undefined.not.mpr defined, fun w links same refused => ?_⟩
      cases starts.symm.trans same
      exact rejected.mpr (Link.scanChain_refused defined refused)
  · rename_i other
    have refused := rejected_unless_constant other
    refine iff_of_true ⟨?_, fun _ _ _ _ => refused⟩ nofun
    obtain ⟨e, ended, defined⟩ := refused
    rw [ended]
    intro same
    cases same
    exact defined rfl

def zeroDivisor : List Token :=
  [⟨.constant 1, 1, lit "1"⟩, ⟨.operator, 1, lit "/"⟩, ⟨.constant 0, 1, lit "0"⟩]

theorem zero_divisor_unguarded : ¬ Guarded zeroDivisor := by
  intro guarded
  exact guarded.defined rfl

end BigAsm
