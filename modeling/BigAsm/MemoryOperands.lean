import Mathlib
import BigAsm.Immediates
import BigAsm.Numbers
import BigAsm.Scanning
import BigAsm.Splicing

/- Loads and stores as the documentation writes them, a register and then rs+offset: how the line
   is split into tokens, and which of these statements the handlers read as they are meant. -/
namespace BigAsm
open Numerals Runs Instruction BitFields ByteStore

/- The text of a statement. -/

def isPlain (c : BitVec 8) : Bool :=
  !startsChain c && !isSeparator c && c != chr ';' && c != chr '\\' && c != chr '"'

namespace Scanner
variable {sc : Scanner} {c : BitVec 8} {w : Str} {tk : Token}

theorem step_plain (outside : sc.Outside) (plain : isPlain c = true) :
    sc.step c = .ok { sc with word := sc.word ++ [c] } := by
  simp only [isPlain, Bool.and_eq_true, Bool.not_eq_true', bne_iff_ne] at plain
  obtain ⟨⟨⟨⟨chain, separator⟩, comment⟩, escape⟩, quotes⟩ := plain
  rw [← Bool.not_eq_true, startsChain_iff] at chain
  rw [← Bool.not_eq_true, isSeparator_iff] at separator
  rcases sc with ⟨tokens, word, line, _, _, _⟩
  obtain ⟨rfl, rfl, rfl⟩ := outside
  change plain _ c = _
  unfold Scanner.plain
  rw [if_neg comment, if_neg escape, if_neg chain, if_neg separator, if_neg quotes]

theorem scan_plain (outside : sc.Outside) (plain : w.all isPlain = true) :
    w.foldlM step sc = .ok { sc with word := sc.word ++ w } := by
  induction w generalizing sc with
  | nil => exact run_nil_iff.mpr (by rw [List.append_nil])
  | cons c cs ih =>
    rw [List.all_cons, Bool.and_eq_true] at plain
    refine run_cons_iff.mpr ⟨_, step_plain outside plain.1, ?_⟩
    have rest := @ih { sc with word := sc.word ++ [c] } outside plain.2
    rwa [List.append_assoc] at rest

theorem step_separator (outside : sc.Outside) (separator : isSeparator c = true)
    (same : c ≠ chr '\n') : sc.step c = sc.flushWord := by
  have other : c ≠ chr ';' ∧ c ≠ chr '\\' ∧ startsChain c = false := by
    revert c
    decide +kernel
  have chain := other.2.2
  rw [← Bool.not_eq_true, startsChain_iff] at chain
  rw [isSeparator_iff] at separator
  rcases sc with ⟨tokens, word, line, _, _, _⟩
  obtain ⟨rfl, rfl, rfl⟩ := outside
  change plain _ c = _
  unfold Scanner.plain
  rw [if_neg other.1, if_neg other.2.1, if_neg chain, if_pos separator]
  cases flushWord ⟨tokens, word, line, false, false, false⟩ with
  | error e => rfl
  | ok m =>
    change Except.ok (if c = chr '\n' then _ else m) = _
    rw [if_neg same]

theorem step_chain (outside : sc.Outside) (chain : startsChain c = true) :
    sc.step c = (fun m => { m with word := m.word ++ [c] }) <$> sc.flushWord := by
  have other : c ≠ chr ';' ∧ c ≠ chr '\\' := by
    revert c
    decide +kernel
  rw [startsChain_iff] at chain
  rcases sc with ⟨tokens, word, line, _, _, _⟩
  obtain ⟨rfl, rfl, rfl⟩ := outside
  change plain _ c = _
  unfold Scanner.plain
  rw [if_neg other.1, if_neg other.2, if_pos chain]
  cases flushWord ⟨tokens, word, line, false, false, false⟩ <;> rfl

def idle (tokens : List Token) : Scanner := { tokens }

variable {tokens : List Token}

theorem flush_word (some : w ≠ []) (parsed : parse w 1 = .ok tk) :
    flushWord { idle tokens with word := w } = .ok (idle (tokens ++ [tk])) := by
  rw [flushWord, if_pos some]
  exact bind_ok_iff.mpr ⟨tk, parsed, rfl⟩

theorem scan_separated (some : w ≠ []) (plain : w.all isPlain = true)
    (parsed : parse w 1 = .ok tk) (separator : isSeparator c = true) (same : c ≠ chr '\n') :
    (w ++ [c]).foldlM step (idle tokens) = .ok (idle (tokens ++ [tk])) := by
  refine run_append_iff.mpr ⟨_, scan_plain ⟨rfl, rfl, rfl⟩ plain, run_single_iff.mpr ?_⟩
  rw [step_separator ⟨rfl, rfl, rfl⟩ separator same]
  exact flush_word some parsed

theorem scan_signed (some : w ≠ []) (plain : w.all isPlain = true)
    (parsed : parse w 1 = .ok tk) (chain : startsChain c = true) :
    (w ++ [c]).foldlM step (idle tokens) = .ok { idle (tokens ++ [tk]) with word := [c] } := by
  refine run_append_iff.mpr ⟨_, scan_plain ⟨rfl, rfl, rfl⟩ plain, run_single_iff.mpr ?_⟩
  rw [step_chain ⟨rfl, rfl, rfl⟩ chain]
  exact map_ok_iff.mpr ⟨_, flush_word some parsed, rfl⟩

end Scanner

/- The words of a statement. -/

/-- What every name in the tables is: plain characters, and none that says another kind of token. -/
structure NameWord (word : Str) : Prop where
  nonempty : word ≠ []
  plain : word.all isPlain = true
  first : word.head?.any (fun c => c == chr '.' || c == chr '\'' || isNumber c) = false
  last : word.getLast? ≠ some (chr ':')
  noOperator : isOperator word = false

instance (word : Str) : Decidable (NameWord word) :=
  decidable_of_iff (word ≠ [] ∧ word.all isPlain = true ∧
      word.head?.any (fun c => c == chr '.' || c == chr '\'' || isNumber c) = false ∧
      word.getLast? ≠ some (chr ':') ∧ isOperator word = false)
    ⟨fun h => ⟨h.1, h.2.1, h.2.2.1, h.2.2.2.1, h.2.2.2.2⟩,
      fun h => ⟨h.nonempty, h.plain, h.first, h.last, h.noOperator⟩⟩

theorem opcodeList_names : ∀ e ∈ opcodeList, NameWord (lit e.1) := by decide +kernel

theorem regList_names : ∀ e ∈ regList, NameWord (lit e.1) := by decide +kernel

theorem findName_some {α : Type} {table : List (String × α)} {word : Str} {x : α}
    (found : findName table word = some x) : ∃ e ∈ table, lit e.1 = word ∧ e.2 = x := by
  obtain ⟨e, first, same⟩ := Option.map_eq_some_iff.mp found
  have equal := List.find?_some first
  exact ⟨e, List.mem_of_find?_eq_some first, beq_iff_eq.mp equal, same⟩

theorem opcode_word {word : Str} {op : Opcode} (named : parseName word = .opcode op) :
    NameWord word := by
  unfold parseName at named
  split at named
  · rename_i found
    obtain ⟨e, listed, rfl, -⟩ := findName_some found
    exact opcodeList_names e listed
  · split at named
    · cases named
    · split at named <;> cases named

theorem register_word {word : Str} {r : BitVec 5} (named : parseName word = .register r) :
    NameWord word := by
  unfold parseName at named
  split at named
  · cases named
  · split at named
    · rename_i found
      obtain ⟨e, listed, rfl, -⟩ := findName_some found
      exact regList_names e listed
    · split at named <;> cases named

theorem parse_name {word : Str} (name : NameWord word) (line : BitVec 32) :
    parse word line = .ok ⟨parseName word, line, word⟩ := by
  cases word with
  | nil => exact absurd rfl name.nonempty
  | cons c cs =>
    have first := name.first
    simp only [List.head?_cons, Option.any_some, Bool.or_eq_false_iff, beq_eq_false_iff_ne] at first
    obtain ⟨⟨dot, quote⟩, number⟩ := first
    have string : c ≠ chr '"' := by
      rintro rfl
      exact absurd (List.all_eq_true.mp name.plain (chr '"') (by simp)) (by decide)
    unfold parse
    dsimp only
    rw [if_neg dot, if_neg name.last, if_neg string, if_neg quote, name.noOperator, if_neg nofun,
      number, if_neg nofun]

def signOf (negative : Bool) : BitVec 8 := if negative then chr '-' else chr '+'

def offsetOf (negative : Bool) (digits : Str) : Int :=
  if negative then -(numeralValue 10 digits : Int) else numeralValue 10 digits

def offsetWord (off : Int) : BitVec 128 := ((BitVec.ofInt 32 off).signExtend 64).setWidth 128

theorem digit_not_base : ∀ c : BitVec 8, (digitOf 10 c).isSome = true →
    c ≠ chr 'x' ∧ c ≠ chr 'b' := by
  decide +kernel

theorem digit_plain : ∀ c : BitVec 8, (digitOf 10 c).isSome = true → isPlain c = true := by
  decide +kernel

theorem parse_offset {negative : Bool} {digits : Str} (valid : IsNumeral 10 digits)
    (low : -2048 ≤ offsetOf negative digits) (high : offsetOf negative digits ≤ 0x7FF)
    (line : BitVec 32) : parse (signOf negative :: digits) line =
      .ok ⟨.constant (offsetWord (offsetOf negative digits)), line, signOf negative :: digits⟩ := by
  have plain := valid.plain (by decide)
  have sign : signOf negative = chr '-' ∨ signOf negative = chr '+' := by
    cases negative
    · exact Or.inr rfl
    · exact Or.inl rfl
  obtain ⟨d, ds, rfl⟩ := List.exists_cons_of_ne_nil valid.nonempty
  have number : NumberWord (signOf negative :: d :: ds) := by
    refine ⟨?_, nofun, ?_⟩
    · rintro c ⟨⟩
      rcases sign with same | same <;> rw [same] <;> rfl
    · rcases sign with same | same <;> rw [same] <;> rfl
  have open_ : (signOf negative :: d :: ds).getLast? ≠ some (chr ':') := by
    intro label
    rw [List.getLast?_cons_cons] at label
    exact (plain _ (List.mem_of_getLast? label)).2.2.2.2.2.1 rfl
  have letter : d ≠ chr 'x' ∧ d ≠ chr 'b' := digit_not_base d (valid.digits d (by simp))
  have cut : unsigned (signOf negative :: d :: ds) = (negative, d :: ds) := by
    cases negative <;> rfl
  have clean : ∀ c ∈ signOf negative :: d :: ds, c ≠ 0 := by
    refine unsigned_clean number fun c mem => ?_
    rw [cut] at mem
    exact (plain c mem).2.2.2.2.2.2
  have value : atoi (signOf negative :: d :: ds) = BitVec.ofInt 32 (offsetOf negative (d :: ds)) := by
    rw [atoi_eq number clean, cut, readDigits_numeral valid.digits]
    unfold offsetOf at low high ⊢
    cases negative with
    | true =>
      rw [if_pos rfl] at low high
      rw [if_pos rfl, if_pos rfl, min_eq_left (by omega)]
    | false =>
      rw [if_neg nofun] at low high
      rw [if_neg nofun, if_neg nofun, min_eq_left (by omega)]
  rw [parse_number number line open_, parseNumber_decimal (fun h => letter.1 h.2)
    (fun h => letter.2 h.2), value]
  rfl

/- The tokens of a statement. -/

def statementText (mnemonic first second : Str) (negative : Bool) (digits : Str) : Str :=
  (mnemonic ++ [chr ' ']) ++ ((first ++ [chr ',']) ++ (chr ' ' ::
    ((second ++ [signOf negative]) ++ digits)))

def statementTokens (mnemonic first second : Str) (op : Opcode) (r base : BitVec 5)
    (negative : Bool) (digits : Str) : List Token :=
  [⟨.opcode op, 1, mnemonic⟩, ⟨.register r, 1, first⟩, ⟨.register base, 1, second⟩,
    ⟨.constant (offsetWord (offsetOf negative digits)), 1, signOf negative :: digits⟩]

theorem split_statement {mnemonic first second digits : Str} {op : Opcode} {r base : BitVec 5}
    {negative : Bool} (named : parseName mnemonic = .opcode op) (reg1 : parseName first = .register r)
    (reg2 : parseName second = .register base) (valid : IsNumeral 10 digits)
    (low : -2048 ≤ offsetOf negative digits) (high : offsetOf negative digits ≤ 0x7FF) :
    split (statementText mnemonic first second negative digits) =
      .ok (statementTokens mnemonic first second op r base negative digits) := by
  have word0 := opcode_word named
  have word1 := register_word reg1
  have word2 := register_word reg2
  have parsed0 := parse_name word0 1
  have parsed1 := parse_name word1 1
  have parsed2 := parse_name word2 1
  rw [named] at parsed0
  rw [reg1] at parsed1
  rw [reg2] at parsed2
  have sign : startsChain (signOf negative) = true := by cases negative <;> rfl
  have plain : digits.all isPlain = true :=
    List.all_eq_true.mpr fun c mem => digit_plain c (valid.digits c mem)
  have scanned : (statementText mnemonic first second negative digits).foldlM Scanner.step {} =
      .ok { Scanner.idle [⟨.opcode op, 1, mnemonic⟩, ⟨.register r, 1, first⟩,
          ⟨.register base, 1, second⟩] with word := signOf negative :: digits } := by
    unfold statementText
    refine run_append_iff.mpr ⟨Scanner.idle [⟨.opcode op, 1, mnemonic⟩],
      Scanner.scan_separated word0.nonempty word0.plain parsed0 (by decide) (by decide), ?_⟩
    refine run_append_iff.mpr ⟨Scanner.idle [⟨.opcode op, 1, mnemonic⟩, ⟨.register r, 1, first⟩],
      Scanner.scan_separated word1.nonempty word1.plain parsed1 (by decide) (by decide), ?_⟩
    refine run_cons_iff.mpr ⟨_, Scanner.step_separator ⟨rfl, rfl, rfl⟩ (by decide) (by decide), ?_⟩
    refine run_append_iff.mpr ⟨_,
      Scanner.scan_signed word2.nonempty word2.plain parsed2 sign, ?_⟩
    exact Scanner.scan_plain ⟨rfl, rfl, rfl⟩ plain
  exact split_ok_iff.mpr ⟨_, _, scanned, Scanner.flush_word nofun (parse_offset valid low high 1), rfl⟩

/- Which statements are read as one word. -/

/-- The load or store a mnemonic names, with a register, a base register and an offset. -/
def MemoryWord (op : Opcode) (r base : BitVec 5) (off : Int) (w : Instruction) : Prop :=
  (∃ f3, op.load = some f3 ∧ w.opcode = RV32I_LOAD ∧ w.funct3 = f3 ∧ w.rd = r ∧ w.rs1 = base ∧
    (Itype.signedImm w).toInt = off) ∨
  ∃ f3, op.store = some f3 ∧ w.opcode = RV32I_STORE ∧ w.funct3 = f3 ∧ w.rs2 = r ∧ w.rs1 = base ∧
    (Stype.signedImm w).toInt = off

/-- At any place in a program the tokens are one statement of a single word, and the statements
    before and behind them are what they are without it. -/
def Assembles (ts : List Token) (Q : Instruction → Prop) : Prop :=
  ∃ code wf w, code.words = [w] ∧ code.fixup = none ∧ Q w ∧
    ∀ env rpath listed pre post xs, Whole env rpath pre → Stops post →
      (Lines env rpath listed (pre ++ (ts ++ post)) xs ↔ ∃ ys zs,
        xs = ys ++ Statement.opcode code wf :: zs ∧ Lines env rpath listed pre ys ∧
          Lines env rpath listed post zs)

theorem assembles_iff {op : Opcode} {line : BitVec 32} {value : Str} {operands : List Token}
    {Q : Instruction → Prop} (inside : ∀ tk ∈ operands, tk.kind.starts = false) : Assembles (⟨.opcode op, line, value⟩ :: operands) Q ↔
      ∃ code w, op.handler operands = .ok (code, []) ∧ code.words = [w] ∧ code.fixup = none ∧ Q w := by
  have reads : ∀ {env rpath code wf ts rest},
      readLine env rpath ⟨.opcode op, line, value⟩ ts = .ok (.stmt (.opcode code wf), rest) ↔
        op.handler ts = .ok (code, rest) := by
    intro env rpath code wf ts rest
    change (opcodeStatement op >>= _) ts = _ ↔ _
    simp only [stateT_bind_ok_iff, stateT_pure_ok_iff, opcodeStatement_ok_iff]
    constructor
    · rintro ⟨x, ts', ⟨code', wf', done, rfl⟩, same, rfl⟩
      cases same
      exact done
    · intro done
      exact ⟨_, rest, ⟨code, wf, done, rfl⟩, rfl, rfl⟩
  constructor
  · rintro ⟨code, wf, w, single, alone, holds, place⟩
    have lines := (place Env.noFiles none (fun _ _ => .error .nesting) [] [] [.opcode code wf] .nil
      stops_nil).mpr ⟨[], [], rfl, .nil, .nil⟩
    rw [List.nil_append, List.append_nil] at lines
    generalize listing : [Statement.opcode code wf] = xs at lines
    cases lines with
    | @cons _ _ rest l here later read expands more =>
      obtain ⟨x, ts', made, done⟩ := stateT_bind_ok_iff.mp read
      obtain ⟨rfl, rfl⟩ := stateT_pure_ok_iff.mp done
      obtain ⟨code', wf', handled, rfl⟩ := opcodeStatement_ok_iff.mp made
      cases expands
      obtain ⟨same, none⟩ := List.cons.inj listing
      cases same
      cases more with
      | nil => exact ⟨code, w, handled, single, alone, holds⟩
      | @cons tk _ _ _ _ _ read' expands' more' =>
        have taken := (Framed.handler op operands code _ handled).1
        have starts := readLine_starts read'
        rw [inside tk (taken.mem (by simp))] at starts
        cases starts
  · rintro ⟨code, w, handled, single, alone, holds⟩
    have wf := handler_wellFormed op operands code [] handled
    refine ⟨code, wf, w, single, alone, holds, fun env rpath listed pre post xs whole stops => ?_⟩
    have read : readLine env rpath ⟨.opcode op, line, value⟩ (operands ++ post) =
        .ok (.stmt (.opcode code wf), post) :=
      reads.mpr ((Framed.handler op operands code [] handled).2 post stops)
    constructor
    · intro lines
      obtain ⟨ys, zs, rfl, before, after⟩ := whole.split (stops_cons.mpr rfl) lines
      cases after with
      | @cons _ _ rest l here later read' expands more =>
        cases read.symm.trans read'
        cases expands
        exact ⟨ys, later, rfl, before, more⟩
    · rintro ⟨ys, zs, rfl, before, after⟩
      exact before.append (.cons read rfl after)

section Fields
variable (f3 : BitVec 3) (dst src : BitVec 5) (imm : BitVec 64)

theorem storeWord_fields : (storeWord f3 dst src imm).opcode = RV32I_STORE ∧
    (storeWord f3 dst src imm).funct3 = f3 ∧ (storeWord f3 dst src imm).rs1 = dst ∧
      (storeWord f3 dst src imm).rs2 = src := by
  simp [storeWord, extract_put_disjoint, new_opcode]

end Fields

theorem loadHelper_offset (f3 : BitVec 3) {rd rs imm : Token} (isRd : rd.type = .register)
    (isRs : rs.type = .register) : loadHelper f3 [rd, rs, imm] =
      .ok ({ words := [setRs1 rs.reg (setFunct3 f3 (setRd rd.reg (new RV32I_LOAD)))] }, [imm]) := by
  have next : nextIs .constant [rs, imm] = .ok (false, [rs, imm]) := by
    have other : (rs.type == .constant) = false := by rw [isRs]; rfl
    rw [nextIs_eq, startsWith, other]
  unfold loadHelper
  rw [stateT_bind_of_ok (nextOf_cons isRd _)]
  have offset : loadOffset (setFunct3 f3 (setRd rd.reg (new RV32I_LOAD))) [rs, imm] =
      .ok (setFunct3 f3 (setRd rd.reg (new RV32I_LOAD)), [rs, imm]) := by
    unfold loadOffset
    rw [stateT_bind_of_ok next, if_neg nofun]
    rfl
  rw [stateT_bind_of_ok offset, stateT_bind_of_ok (nextOf_cons isRs _)]
  rfl

theorem storeHelper_offset (f3 : BitVec 3) {first second imm : Token} {r base : BitVec 5}
    {off : BitVec 128} (isFirst : first.kind = .register r) (isSecond : second.kind = .register base)
    (isOffset : imm.kind = .constant off) : storeHelper f3 [first, second, imm] =
      .ok ({ words := [storeWord f3 r base (off.setWidth 64)] }, []) := by
  rcases first with ⟨_, line1, name1⟩
  rcases second with ⟨_, line2, name2⟩
  rcases imm with ⟨_, line3, name3⟩
  cases isFirst
  cases isSecond
  cases isOffset
  have resolved : resolveConstants [(⟨.constant off, line3, name3⟩ : Token)] =
      .ok (⟨.constant off, line3, name3⟩, []) := rfl
  rw [storeHelper_constant rfl rfl resolved, Token.reg_register, Token.reg_register]
  rfl

theorem offsetWord_low (off : Int) (low : -2048 ≤ off) (high : off ≤ 0x7FF) :
    (((offsetWord off).setWidth 64).setWidth 12).toInt = off := by
  have kept : (offsetWord off).setWidth 64 = (BitVec.ofInt 32 off).signExtend 64 := by
    rw [offsetWord, BitVec.setWidth_setWidth_of_le _ (by decide), BitVec.setWidth_eq]
  have value : ((offsetWord off).setWidth 64).toInt = off := by
    rw [kept, BitVec.toInt_signExtend_of_le (by decide), BitVec.toInt_ofInt]
    exact Int.bmod_eq_of_le (by omega) (by omega)
  rw [narrow_toInt (by omega) (by omega), value]

/-- Of the documented loads and stores with an offset none is read as it is meant, but the stores
    whose two registers are the same. -/
theorem memory_operands_iff {mnemonic first second digits : Str} {op : Opcode} {r base : BitVec 5}
    {negative : Bool} (named : parseName mnemonic = .opcode op)
    (memory : op.load.isSome ∨ op.store.isSome) (reg1 : parseName first = .register r)
    (reg2 : parseName second = .register base) (valid : IsNumeral 10 digits)
    (low : -2048 ≤ offsetOf negative digits) (high : offsetOf negative digits ≤ 0x7FF) :
    ∃ ts, split (statementText mnemonic first second negative digits) = .ok ts ∧
      ∀ lines, Assembles (ts.map (Token.later lines))
        (MemoryWord op r base (offsetOf negative digits)) ↔ op.store.isSome ∧ r = base := by
  refine ⟨_, split_statement named reg1 reg2 valid low high, fun lines => ?_⟩
  have inside : ∀ tk ∈ [(⟨.register r, 1, first⟩ : Token).later lines,
      (⟨.register base, 1, second⟩ : Token).later lines,
      (⟨.constant (offsetWord (offsetOf negative digits)), 1, signOf negative :: digits⟩ : Token).later
        lines], tk.kind.starts = false := by
    simp [Token.later, TokenKind.starts]
  refine (assembles_iff inside).trans ?_
  rcases memory with loads | stores
  · obtain ⟨f3, load⟩ := Option.isSome_iff_exists.mp loads
    obtain ⟨store, -⟩ := load_only load
    rw [handler_of_load load, loadHelper_offset f3 rfl rfl, store]
    refine iff_of_false ?_ (by simp)
    rintro ⟨code, w, handled, -⟩
    cases handled
  · obtain ⟨f3, store⟩ := Option.isSome_iff_exists.mp stores
    obtain ⟨load, -⟩ := store_only store
    obtain ⟨opcode, funct3, rs1, rs2⟩ :=
      storeWord_fields f3 r base ((offsetWord (offsetOf negative digits)).setWidth 64)
    have immediate := signedImm_storeWord f3 r base ((offsetWord (offsetOf negative digits)).setWidth 64)
    rw [offsetWord_low _ low high] at immediate
    rw [handler_of_store store, storeHelper_offset f3 rfl rfl rfl, and_iff_right stores]
    constructor
    · rintro ⟨code, w, handled, single, -, word⟩
      cases handled
      cases single
      rcases word with ⟨f3', load', -⟩ | ⟨f3', -, -, -, -, named, -⟩
      · cases load.symm.trans load'
      · exact rs1.symm.trans named
    · rintro rfl
      exact ⟨_, _, rfl, rfl, rfl, Or.inr ⟨f3, store, opcode, funct3, rs2, rs1, immediate⟩⟩

theorem sq_sp_assembles : ∃ ts, split (lit "sq sp, sp+16") = .ok ts ∧
    ∀ lines, Assembles (ts.map (Token.later lines)) (MemoryWord .sq 2 2 16) ↔
      Opcode.sq.store.isSome ∧ (2 : BitVec 5) = 2 := by
  have text : statementText (lit "sq") (lit "sp") (lit "sp") false (lit "16") = lit "sq sp, sp+16" := by
    decide
  have offset : offsetOf false (lit "16") = 16 := by decide
  have instance_ := @memory_operands_iff (lit "sq") (lit "sp") (lit "sp") (lit "16") .sq 2 2 false
    (by decide +kernel) (Or.inr rfl) (by decide +kernel) (by decide +kernel) (by decide +kernel)
    (by decide) (by decide)
  rwa [text, offset] at instance_

theorem memory_operands_swapped :
    (fun _ => ()) <$> assembleSource {} (lit "lw a0, a1+8") =
        .error (.runtime (lit "Unexpected token: [Constant] +8")) ∧
      (fun a : Assembler => a.state.bytes (lit ".text")) <$> assembleSource {} (lit "sw a0, a1+8") =
        .ok (wordBytes 0x00B52423) ∧
      rs1 0x00B52423 = 10 ∧ rs2 0x00B52423 = 11 := by
  decide +kernel

end BigAsm
