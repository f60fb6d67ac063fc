import Mathlib
import BigAsm.Instruction

/- Tokens, and the exceptions of the assembler with the texts they carry. A std::string is
   a list of bytes. The type of a token and the union member it uses are one kind, so a
   token that is read through the wrong member cannot be built. -/
namespace BigAsm

abbrev Str := List (BitVec 8)

def lit (s : String) : Str := s.toList.map fun c => BitVec.ofNat 8 c.toNat

/-- The width suffix of an arithmetic mnemonic. It stands for the template argument of the
    handler, which is the opcode below with an immediate and the one after it without. -/
inductive Suffix where
  | none | w | d
  deriving DecidableEq, Repr

def Suffix.immOpcode : Suffix → BitVec 7
  | .none => RV32I_OP_IMM
  | .w => RV64I_OP_IMM32
  | .d => RV128I_OP_IMM64

def Suffix.regOpcode : Suffix → BitVec 7
  | .none => RV32I_OP
  | .w => RV64I_OP32
  | .d => RV128I_OP64

inductive Opcode where
  | nop | li | set | la | laq
  | lb | lh | lw | ld | lbu | lhu | lwu | ldu | lq
  | sb | sh | sw | sd | sq
  | beq | bne | blt | bge | bltu | bgeu
  | farcall | call | jalr | ret | jmp
  | mov | inc
  | add (s : Suffix) | sll (s : Suffix) | slt (s : Suffix) | sltu (s : Suffix)
  | srl (s : Suffix) | and (s : Suffix) | or (s : Suffix) | xor (s : Suffix)
  | sub (s : Suffix) | mul (s : Suffix) | div (s : Suffix) | divu (s : Suffix)
  | rem (s : Suffix) | remu (s : Suffix)
  | syscall | ecall | ebreak | wfi | system
  deriving DecidableEq, Repr

inductive PseudoOp where
  | data8 | data16 | data32 | data64 | data128
  | resv8 | resv16 | resv32 | resv64 | resv128
  | incbin
  deriving DecidableEq, Repr

inductive TokenType where
  | directive | label | string | symbol | opcode | pseudoop | register | constant
  | operator | unspec
  deriving DecidableEq, Repr

inductive TokenKind where
  | directive | label | string | symbol
  | opcode (op : Opcode)
  | pseudoop (op : PseudoOp)
  | register (n : BitVec 5)
  | constant (u128 : BitVec 128)
  | operator | unspec
  deriving DecidableEq, Repr

structure Token where
  kind : TokenKind
  line : BitVec 32 := 0
  value : Str := []
  deriving DecidableEq, Repr

def TokenKind.type : TokenKind → TokenType
  | .directive => .directive
  | .label => .label
  | .string => .string
  | .symbol => .symbol
  | .opcode _ => .opcode
  | .pseudoop _ => .pseudoop
  | .register _ => .register
  | .constant _ => .constant
  | .operator => .operator
  | .unspec => .unspec

namespace Token

def type (tk : Token) : TokenType := tk.kind.type

/-- The 16 bytes of the union; registers are stored through i64, other tokens leave zero. -/
def u128 (tk : Token) : BitVec 128 :=
  match tk.kind with
  | .constant u => u
  | .register n => n.setWidth 128
  | _ => 0

def u64 (tk : Token) : BitVec 64 := tk.u128.setWidth 64

def reg (tk : Token) : BitVec 5 := tk.u128.setWidth 5

@[simp] theorem u128_constant (u : BitVec 128) (line : BitVec 32) (value : Str) :
    u128 ⟨.constant u, line, value⟩ = u := rfl

@[simp] theorem reg_register (n : BitVec 5) (line : BitVec 32) (value : Str) :
    reg ⟨.register n, line, value⟩ = n := by
  simp [reg, u128]

end Token

/- Token::to_string(TokenType): only these types have a name of their own, the others print
   their number in the enumeration. -/
def TokenType.toStr : TokenType → Str
  | .directive => lit "[Directive]"
  | .label => lit "[Label]"
  | .string => lit "[String]"
  | .opcode => lit "[Opcode]"
  | .register => lit "[Register]"
  | .symbol => lit "[Symbol]"
  | .constant => lit "[Constant]"
  | .pseudoop => lit "Unknown token: 5"
  | .operator => lit "Unknown token: 8"
  | .unspec => lit "Unknown token: 9"

def Token.toStr (tk : Token) : Str := tk.type.toStr ++ lit " " ++ tk.value

/-- How a call ends other than by returning. token is token_exception with the line and the
    info it prints; undefined stands for behaviour the C++ standard leaves open, such as a
    division by zero; nesting is the model's own bound on the depth of .include. -/
inductive Failure where
  | token (tk : Token) (info : Str)
  | runtime (what : Str)
  | outOfRange
  | invalidArgument
  | lengthError
  | assertion
  | undefined
  | nesting
  deriving DecidableEq, Repr

def tokenException (tk : Token) (info : Str) : Failure := .token tk info

def argumentMismatch (tk : Token) (T : TokenType) (info : Str) : Failure :=
  tokenException tk (lit "Argument mismatch. Expected " ++ T.toStr ++ lit ", found " ++
    tk.type.toStr ++ lit " instead." ++ info)

end BigAsm
