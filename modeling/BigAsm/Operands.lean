import Mathlib
import BigAsm.Token
import BigAsm.Library.Runs

/- Reading operands: next, next_is and resolve_constants over the tokens that are left. The
   tokens at and after the index of the source are the state. -/
namespace BigAsm

abbrev Reader := StateT (List Token) (Except Failure)

/-- tokens->at(index++): past the end it throws std::out_of_range. -/
def next : Reader Token
  | [] => .error .outOfRange
  | tk :: rest => .ok (tk, rest)

def nextOf (T : TokenType) (info : Str := []) : Reader Token := do
  let tk ← next
  if tk.type ≠ T then throw (argumentMismatch tk T info) else return tk

def nextIs (T : TokenType) : Reader Bool
  | [] => .ok (false, [])
  | tk :: rest => .ok (tk.type == T, tk :: rest)

theorem nextOf_ok_iff {T : TokenType} {info : Str} {ts rest : List Token} {tk : Token} :
    nextOf T info ts = .ok (tk, rest) ↔ ts = tk :: rest ∧ tk.type = T := by
  unfold nextOf
  rw [Runs.stateT_bind_ok_iff]
  constructor
  · rintro ⟨tk', ts', read, checked⟩
    cases ts with
    | nil => cases read
    | cons first later =>
      cases read
      split at checked
      · cases checked
      · rename_i same
        obtain ⟨rfl, rfl⟩ := Runs.stateT_pure_ok_iff.mp checked
        exact ⟨rfl, not_not.mp same⟩
  · rintro ⟨rfl, same⟩
    refine ⟨tk, rest, rfl, ?_⟩
    rw [if_neg (not_not.mpr same)]
    rfl

/-- What next_is finds out. -/
def startsWith (T : TokenType) : List Token → Bool
  | [] => false
  | tk :: _ => tk.type == T

theorem nextIs_eq (T : TokenType) (ts : List Token) : nextIs T ts = .ok (startsWith T ts, ts) := by
  cases ts <;> rfl

inductive ConstantOp where
  | add | sub | mul | div | shr | shl | mod | and | or | xor
  deriving DecidableEq, Repr

def ConstantOp.ofOperator (value : Str) : Option ConstantOp :=
  if value = lit "+" then some .add
  else if value = lit "-" then some .sub
  else if value = lit "*" then some .mul
  else if value = lit "/" then some .div
  else if value = lit ">>" then some .shr
  else if value = lit "<<" then some .shl
  else if value = lit "%" then some .mod
  else if value = lit "&" then some .and
  else if value = lit "|" then some .or
  else if value = lit "^" then some .xor
  else none

/-- The switch over ops. A zero divisor and a shift by 128 or more have no defined result. -/
def ConstantOp.apply (sum value : BitVec 128) : ConstantOp → Except Failure (BitVec 128)
  | .add => .ok (sum + value)
  | .sub => .ok (sum - value)
  | .mul => .ok (sum * value)
  | .div => if value = 0 then .error .undefined else .ok (sum / value)
  | .shr => if 128 ≤ value.toNat then .error .undefined else .ok (sum >>> value.toNat)
  | .shl => if 128 ≤ value.toNat then .error .undefined else .ok (sum <<< value.toNat)
  | .mod => if value = 0 then .error .undefined else .ok (sum % value)
  | .and => .ok (sum &&& value)
  | .or => .ok (sum ||| value)
  | .xor => .ok (sum ^^^ value)

/-- The while loop of resolve_constants. ops none is NONE; it is never reset, so a second
    binary operator is rejected while a second constant is combined by the first one. -/
def resolveLoop (sum : BitVec 128) (ops : Option ConstantOp) (isNegated : Bool) :
    List Token → Except Failure (BitVec 128 × List Token)
  | [] => .ok (sum, [])
  | tk :: rest =>
    match tk.kind with
    | .constant u =>
      let value := if isNegated then ~~~u else u
      match ops with
      | none => .error (tokenException tk (lit "Unexpected constant"))
      | some op => do
        let sum ← op.apply sum value
        resolveLoop sum ops false rest
    | .operator =>
      if tk.value = lit "~" then resolveLoop sum ops (!isNegated) rest
      else if ops.isSome then .error (tokenException tk (lit "Unexpected operator"))
      else
        match ConstantOp.ofOperator tk.value with
        | some op => resolveLoop sum (some op) isNegated rest
        | none => .error (tokenException tk (lit "Unknown operator: " ++ tk.value))
    | _ => .ok (sum, tk :: rest)

section Rounds
variable {sum u : BitVec 128} {ops : Option ConstantOp} {isNegated : Bool} {line : BitVec 32}
  {value : Str} {ts : List Token}

theorem resolveLoop_constant :
    resolveLoop sum ops isNegated (⟨.constant u, line, value⟩ :: ts) =
      match ops with
      | none => .error (tokenException ⟨.constant u, line, value⟩ (lit "Unexpected constant"))
      | some op => op.apply sum (if isNegated then ~~~u else u) >>= fun sum =>
        resolveLoop sum ops false ts := rfl

theorem resolveLoop_operator :
    resolveLoop sum ops isNegated (⟨.operator, line, value⟩ :: ts) =
      if value = lit "~" then resolveLoop sum ops (!isNegated) ts
      else if ops.isSome then
        .error (tokenException ⟨.operator, line, value⟩ (lit "Unexpected operator"))
      else
        match ConstantOp.ofOperator value with
        | some op => resolveLoop sum (some op) isNegated ts
        | none => .error (tokenException ⟨.operator, line, value⟩
            (lit "Unknown operator: " ++ value)) := rfl

end Rounds

/-- The token returned is the first constant with the value of the whole chain. -/
def resolveConstants : Reader Token := do
  let imm ← nextOf .constant
  let sum ← resolveLoop imm.u128 none false
  return { imm with kind := .constant sum }

end BigAsm
