import Mathlib
import BigAsm.Token
import BigAsm.Library.Runs

/- From source text to tokens: the character scanner of raw_split.cpp and the word parser of
   tokenizer.cpp with its tables. Library number parsers follow their documentation. -/
namespace BigAsm
open Runs

def chr (c : Char) : BitVec 8 := BitVec.ofNat 8 c.toNat

def opcodeList : List (String × Opcode) :=
  [("nop", .nop), ("set", .set), ("li", .li), ("la", .la), ("laq", .laq), ("mv", .mov),
   ("mov", .mov),
   ("lb", .lb), ("lh", .lh), ("lw", .lw), ("ld", .ld), ("lq", .lq), ("lbu", .lbu),
   ("lhu", .lhu), ("lwu", .lwu), ("ldu", .ldu),
   ("sb", .sb), ("sh", .sh), ("sw", .sw), ("sd", .sd), ("sq", .sq),
   ("beq", .beq), ("bne", .bne), ("blt", .blt), ("bge", .bge), ("bltu", .bltu),
   ("bgeu", .bgeu),
   ("farcall", .farcall), ("call", .call), ("jal", .call), ("jalr", .jalr), ("ret", .ret),
   ("jmp", .jmp),
   ("inc", .inc), ("add", .add .none), ("sub", .sub .none), ("sll", .sll .none),
   ("slt", .slt .none), ("sltu", .sltu .none), ("srl", .srl .none), ("and", .and .none),
   ("or", .or .none), ("xor", .xor .none), ("addw", .add .w), ("subw", .sub .w),
   ("sllw", .sll .w), ("sltw", .slt .w), ("sltuw", .sltu .w), ("srlw", .srl .w),
   ("andw", .and .w), ("orw", .or .w), ("xorw", .xor .w), ("addd", .add .d), ("subd", .sub .d),
   ("slld", .sll .d), ("sltd", .slt .d), ("sltud", .sltu .d), ("srld", .srl .d),
   ("andd", .and .d), ("ord", .or .d), ("xord", .xor .d), ("mul", .mul .none),
   ("div", .div .none), ("divu", .divu .none), ("rem", .rem .none), ("remu", .remu .none),
   ("mulw", .mul .w), ("divw", .div .w), ("divuw", .divu .w), ("remw", .rem .w),
   ("remuw", .remu .w), ("muld", .mul .d), ("divd", .div .d), ("divud", .divu .d),
   ("remd", .rem .d), ("remud", .remu .d),
   ("syscall", .syscall), ("ecall", .ecall), ("ebreak", .ebreak), ("wfi", .wfi),
   ("system", .system)]

def regList : List (String × BitVec 5) :=
  [("zero", 0), ("ra", 1), ("sp", 2), ("gp", 3), ("tp", 4), ("t0", 5), ("t1", 6), ("t2", 7),
   ("fp", 8), ("s0", 8), ("s1", 9), ("a0", 10), ("a1", 11), ("a2", 12), ("a3", 13),
   ("a4", 14), ("a5", 15), ("a6", 16), ("a7", 17), ("s2", 18), ("s3", 19), ("s4", 20),
   ("s5", 21), ("s6", 22), ("s7", 23), ("s8", 24), ("s9", 25), ("s10", 26), ("s11", 27),
   ("t3", 28), ("t4", 29), ("t5", 30), ("t6", 31),
   ("x0", 0), ("x1", 1), ("x2", 2), ("x3", 3), ("x4", 4), ("x5", 5), ("x6", 6), ("x7", 7),
   ("x8", 8), ("x9", 9), ("x10", 10), ("x11", 11), ("x12", 12), ("x13", 13), ("x14", 14),
   ("x15", 15), ("x16", 16), ("x17", 17), ("x18", 18), ("x19", 19), ("x20", 20), ("x21", 21),
   ("x22", 22), ("x23", 23), ("x24", 24), ("x25", 25), ("x26", 26), ("x27", 27), ("x28", 28),
   ("x29", 29), ("x30", 30), ("x31", 31)]

def pseudoList : List (String × PseudoOp) :=
  [("db", .data8), ("dh", .data16), ("dw", .data32), ("dd", .data64), ("dq", .data128),
   ("resb", .resv8), ("resh", .resv16), ("resw", .resv32), ("resd", .resv64),
   ("resq", .resv128), ("incbin", .incbin)]

def findName (table : List (String × α)) (value : Str) : Option α :=
  (table.find? fun entry => lit entry.1 == value).map Prod.snd

def isOperator (word : Str) : Bool :=
  word ∈ [lit "+", lit "-", lit "*", lit "/", lit "<<", lit ">>", lit "%", lit "|", lit "&",
    lit "^", lit "~"]

def isDigit (c : BitVec 8) : Bool := chr '0' ≤ c && c ≤ chr '9'

def isNumber (c : BitVec 8) : Bool := c == chr '-' || c == chr '+' || isDigit c

/- The number parsers of the C library. -/

def isSpace (c : BitVec 8) : Bool :=
  c ∈ [chr ' ', chr '\t', chr '\n', 0x0B, 0x0C, chr '\r']

def digitValue (c : BitVec 8) : Option Nat :=
  if isDigit c then some (c.toNat - (chr '0').toNat)
  else if chr 'a' ≤ c && c ≤ chr 'z' then some (c.toNat - (chr 'a').toNat + 10)
  else if chr 'A' ≤ c && c ≤ chr 'Z' then some (c.toNat - (chr 'A').toNat + 10)
  else none

def digitOf (base : Nat) (c : BitVec 8) : Option Nat := (digitValue c).filter (· < base)

def readDigits (base : Nat) (acc : Nat) : Str → Nat
  | [] => acc
  | c :: cs =>
    match digitOf base c with
    | some d => readDigits base (acc * base + d) cs
    | none => acc

/-- The characters of a C string end at the first zero byte. -/
def cString (s : Str) : Str := s.takeWhile (· != 0)

/-- Leading white space, an optional sign and, in base 16, an optional 0x before a digit. -/
def numberPrefix (base : Nat) (s : Str) : Bool × Str :=
  let s := s.dropWhile isSpace
  let (negative, s) :=
    match s with
    | c :: cs => if c = chr '-' then (true, cs) else if c = chr '+' then (false, cs) else (false, s)
    | [] => (false, [])
  match s with
  | z :: x :: d :: cs =>
    if base = 16 ∧ z = chr '0' ∧ (x = chr 'x' ∨ x = chr 'X') ∧ (digitOf 16 d).isSome then
      (negative, d :: cs)
    else (negative, s)
  | _ => (negative, s)

/-- std::stoull: no digit is invalid_argument, a value of 2^64 or more out_of_range, and a
    minus sign negates the value modulo 2^64. -/
def stoull (s : Str) (base : Nat) : Except Failure (BitVec 64) :=
  let (negative, digits) := numberPrefix base (cString s)
  match digits with
  | [] => .error .invalidArgument
  | c :: _ =>
    if (digitOf base c).isNone then .error .invalidArgument
    else
      let n := readDigits base 0 digits
      if 2 ^ 64 ≤ n then .error .outOfRange
      else .ok (if negative then -BitVec.ofNat 64 n else BitVec.ofNat 64 n)

/-- atoi is strtol narrowed to int; strtol saturates at the ends of long. -/
def atoi (s : Str) : BitVec 32 :=
  let (negative, digits) := numberPrefix 10 (cString s)
  let n := readDigits 10 0 digits
  if negative then BitVec.ofInt 32 (-(min n (2 ^ 63) : Nat))
  else BitVec.ofInt 32 (min n (2 ^ 63 - 1) : Nat)

/-- The constant of a word that is_number: hexadecimal in two halves when it is longer than
    18 characters, else 64 bits, binary, or decimal through int. -/
def parseNumber (word : Str) : Except Failure (BitVec 128) :=
  if word.length > 2 ∧ word[1]? = some (chr 'x') then
    if word.length > 18 then do
      let lower := word.drop (word.length - 16)
      let upper := (word.drop 2).take (word.length - 18)
      let u ← stoull upper 16
      let l ← stoull lower 16
      return (u.setWidth 128 <<< 64) ||| l.setWidth 128
    else return (← stoull (word.drop 2) 16).setWidth 128
  else if word.length > 2 ∧ word[1]? = some (chr 'b') then
    return (← stoull (word.drop 2) 2).setWidth 128
  else return ((atoi word).signExtend 64).setWidth 128

def parseName (word : Str) : TokenKind :=
  match findName opcodeList word with
  | some op => .opcode op
  | none =>
    match findName regList word with
    | some n => .register n
    | none =>
      match findName pseudoList word with
      | some op => .pseudoop op
      | none => .symbol

/-- Assembler::parse. A character is a signed char, so it sign-extends into u64. -/
def parse (word : Str) (line : BitVec 32) : Except Failure Token :=
  match word with
  | [] => .error .assertion
  | c :: _ =>
    if c = chr '.' then .ok ⟨.directive, line, word⟩
    else if word.getLast? = some (chr ':') then .ok ⟨.label, line, word.dropLast⟩
    else if c = chr '"' then .ok ⟨.string, line, (word.drop 1).take (word.length - 2)⟩
    else if c = chr '\'' then
      match word with
      | _ :: value :: quote :: _ =>
        if quote = chr '\'' then .ok ⟨.constant ((value.signExtend 64).setWidth 128), line, []⟩
        else .error (.runtime (lit "Invalid character constant: " ++ word ++ lit ". Missing quote?"))
      | _ => .error (.runtime (lit "Invalid character constant: " ++ word ++ lit ". Missing quote?"))
    else if isOperator word then .ok ⟨.operator, line, word⟩
    else if isNumber c then do
      let u ← parseNumber word
      return ⟨.constant u, line, word⟩
    else .ok ⟨parseName word, line, word⟩

def escapeCharacter (echar : BitVec 8) : BitVec 8 :=
  if echar = chr 'n' then chr '\n'
  else if echar = chr 'r' then chr '\r'
  else if echar = chr 't' then chr '\t'
  else if echar = chr 'b' then 0x08
  else if echar = chr '0' then 0
  else echar

/-- The local variables of Assembler::split. -/
structure Scanner where
  tokens : List Token := []
  word : Str := []
  line : BitVec 32 := 1
  beginQuotes : Bool := false
  beginComment : Bool := false
  beginEscape : Bool := false
  deriving DecidableEq, Repr

namespace Scanner

def pushWord (sc : Scanner) : Except Failure Scanner := do
  let tk ← parse sc.word sc.line
  return { sc with tokens := sc.tokens ++ [tk], word := [] }

def flushWord (sc : Scanner) : Except Failure Scanner :=
  if sc.word ≠ [] then sc.pushWord else .ok sc

def quoted (sc : Scanner) (c : BitVec 8) (isEscaped : Bool) : Except Failure Scanner :=
  if c = chr '\\' then .ok { sc with beginEscape := true }
  else
    let sc := { sc with word := sc.word ++ [c] }
    if c = chr '"' ∧ !isEscaped then do
      let sc ← sc.pushWord
      return { sc with beginQuotes := false }
    else .ok sc

/-- The switch over a character outside quotes and comments. -/
def plain (sc : Scanner) (c : BitVec 8) : Except Failure Scanner :=
  if c = chr ';' then .ok { sc with beginComment := true }
  else if c = chr '\\' then .ok { sc with beginEscape := true }
  else if c = chr '+' ∨ c = chr '-' ∨ c = chr '*' then do
    let sc ← sc.flushWord
    return { sc with word := sc.word ++ [c] }
  else if c = chr ',' ∨ c = chr ' ' ∨ c = chr '\t' ∨ c = chr '\n' ∨ c = chr '\r' then do
    let sc ← sc.flushWord
    return if c = chr '\n' then { sc with line := sc.line + 1 } else sc
  else if c = chr '"' then .ok { sc with beginQuotes := true, word := sc.word ++ [c] }
  else .ok { sc with word := sc.word ++ [c] }

def step (sc : Scanner) (c : BitVec 8) : Except Failure Scanner :=
  let isEscaped := sc.beginEscape
  let c := if isEscaped then escapeCharacter c else c
  let sc := { sc with beginEscape := false }
  if sc.beginQuotes then sc.quoted c isEscaped
  else if sc.beginComment then
    .ok (if c = chr '\n' then { sc with beginComment := false, line := sc.line + 1 } else sc)
  else sc.plain c

end Scanner

/-- Assembler::split: the loop over the characters, then the last word. -/
def split (s : Str) : Except Failure (List Token) := do
  let sc ← s.foldlM Scanner.step ({} : Scanner)
  let sc ← sc.flushWord
  return sc.tokens

/- What the parser and the scanner can do, case by case. -/

inductive ParseRead (word : Str) (line : BitVec 32) : Token → Prop
  | directive (dot : word.head? = some (chr '.')) : ParseRead word line ⟨.directive, line, word⟩
  | label (colon : word.getLast? = some (chr ':')) :
      ParseRead word line ⟨.label, line, word.dropLast⟩
  | string (mark : word.head? = some (chr '"')) :
      ParseRead word line ⟨.string, line, (word.drop 1).take (word.length - 2)⟩
  | character {value : BitVec 8} {rest : Str} (quotes : word = chr '\'' :: value :: chr '\'' :: rest) :
      ParseRead word line ⟨.constant ((value.signExtend 64).setWidth 128), line, []⟩
  | operator (operator : isOperator word = true) : ParseRead word line ⟨.operator, line, word⟩
  | number {u : BitVec 128} (number : parseNumber word = .ok u) :
      ParseRead word line ⟨.constant u, line, word⟩
  | name : ParseRead word line ⟨parseName word, line, word⟩

theorem parse_read {word : Str} {line : BitVec 32} {tk : Token} (done : parse word line = .ok tk) :
    ParseRead word line tk := by
  unfold parse at done
  cases word with
  | nil => cases done
  | cons c cs =>
    dsimp only at done
    split at done
    · rename_i dot
      cases done
      exact .directive (congrArg some dot)
    · split at done
      · rename_i colon
        cases done
        exact .label colon
      · split at done
        · rename_i mark
          cases done
          exact .string (congrArg some mark)
        · split at done
          · rename_i mark
            subst mark
            split at done
            · rename_i first value quote rest eq
              obtain ⟨rfl, rfl⟩ := List.cons.inj eq
              split at done
              · rename_i quotes
                subst quotes
                cases done
                exact .character rfl
              · cases done
            · cases done
          · split at done
            · rename_i operator
              cases done
              exact .operator operator
            · split at done
              · obtain ⟨u, number, eq⟩ := bind_ok_iff.mp done
                cases eq
                exact .number number
              · cases done
                exact .name

namespace Scanner

inductive QuotedRead (sc : Scanner) (c : BitVec 8) (isEscaped : Bool) : Scanner → Prop
  | escape (slash : c = chr '\\') : QuotedRead sc c isEscaped { sc with beginEscape := true }
  | close {m : Scanner} (mark : c = chr '"') (unescaped : isEscaped = false)
      (pushed : pushWord { sc with word := sc.word ++ [c] } = .ok m) :
      QuotedRead sc c isEscaped { m with beginQuotes := false }
  | more (other : c ≠ chr '\\') (still : c = chr '"' → isEscaped = true) :
      QuotedRead sc c isEscaped { sc with word := sc.word ++ [c] }

theorem quoted_read {sc sc' : Scanner} {c : BitVec 8} {isEscaped : Bool}
    (run : sc.quoted c isEscaped = .ok sc') : QuotedRead sc c isEscaped sc' := by
  unfold quoted at run
  split at run
  · rename_i slash
    cases run
    exact .escape slash
  · rename_i other
    dsimp only at run
    split at run
    · rename_i closing
      obtain ⟨m, pushed, eq⟩ := bind_ok_iff.mp run
      cases eq
      exact .close closing.1 (by simpa using closing.2) pushed
    · rename_i still
      cases run
      exact .more other (by simpa using still)

inductive PlainRead (sc : Scanner) (c : BitVec 8) : Scanner → Prop
  | comment (semicolon : c = chr ';') : PlainRead sc c { sc with beginComment := true }
  | escape (slash : c = chr '\\') : PlainRead sc c { sc with beginEscape := true }
  | chain {m : Scanner} (operator : c = chr '+' ∨ c = chr '-' ∨ c = chr '*')
      (flushed : sc.flushWord = .ok m) : PlainRead sc c { m with word := m.word ++ [c] }
  | separator {m : Scanner}
      (blank : c = chr ',' ∨ c = chr ' ' ∨ c = chr '\t' ∨ c = chr '\n' ∨ c = chr '\r')
      (flushed : sc.flushWord = .ok m) :
      PlainRead sc c (if c = chr '\n' then { m with line := m.line + 1 } else m)
  | quote (mark : c = chr '"') :
      PlainRead sc c { sc with beginQuotes := true, word := sc.word ++ [c] }
  | word (semicolon : c ≠ chr ';') (slash : c ≠ chr '\\')
      (operator : ¬ (c = chr '+' ∨ c = chr '-' ∨ c = chr '*'))
      (blank : ¬ (c = chr ',' ∨ c = chr ' ' ∨ c = chr '\t' ∨ c = chr '\n' ∨ c = chr '\r'))
      (mark : c ≠ chr '"') : PlainRead sc c { sc with word := sc.word ++ [c] }

theorem plain_read {sc sc' : Scanner} {c : BitVec 8} (run : sc.plain c = .ok sc') :
    PlainRead sc c sc' := by
  unfold plain at run
  split at run
  · rename_i semicolon
    cases run
    exact .comment semicolon
  · rename_i semicolon
    split at run
    · rename_i slash
      cases run
      exact .escape slash
    · rename_i slash
      split at run
      · rename_i operator
        obtain ⟨m, flushed, eq⟩ := bind_ok_iff.mp run
        cases eq
        exact .chain operator flushed
      · rename_i operator
        split at run
        · rename_i blank
          obtain ⟨m, flushed, eq⟩ := bind_ok_iff.mp run
          cases eq
          exact .separator blank flushed
        · rename_i blank
          split at run
          · rename_i mark
            cases run
            exact .quote mark
          · rename_i mark
            cases run
            exact .word semicolon slash operator blank mark

end Scanner

end BigAsm
