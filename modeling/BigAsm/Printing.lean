import Mathlib
import BigAsm.MemoryOperands

/- Tokens written back as text. Whatever text the tokens come from, the printed one is split
   into the same tokens on the same lines. -/
namespace BigAsm
open Runs

/-- A word outside quotes: plain characters, of which the first may begin a constant chain. -/
def Bare (w : Str) : Prop :=
  w.head?.all (fun c => isPlain c || startsChain c) = true ∧ w.tail.all isPlain = true

/-- A word inside quotes, from the first quote on without a backslash. -/
def Opened (w : Str) : Prop := ∃ p body, w = p ++ chr '"' :: body ∧ Bare p ∧ chr '\\' ∉ body

def Closed (w : Str) : Prop := Bare w ∨ ∃ v, w = v ++ [chr '"'] ∧ Opened v

def Begun (w : Str) : Prop := Bare w ∨ Opened w

section Words
variable {w p body : Str} {c : BitVec 8}

theorem Bare.nil : Bare [] := ⟨rfl, rfl⟩

theorem Bare.append (bare : Bare w) (plain : isPlain c = true) : Bare (w ++ [c]) := by
  cases w with
  | nil => exact ⟨by simp [plain], rfl⟩
  | cons d ds =>
    obtain ⟨first, rest⟩ := bare
    refine ⟨first, ?_⟩
    simp only [List.cons_append, List.tail_cons] at rest ⊢
    simp [rest, plain]

theorem Bare.clean (bare : Bare w) (special : c = chr '"' ∨ c = chr '\\') : c ∉ w := by
  have other : isPlain c = false ∧ startsChain c = false := by
    rcases special with rfl | rfl <;> decide
  cases w with
  | nil => exact List.not_mem_nil
  | cons d ds =>
    obtain ⟨first, rest⟩ := bare
    intro mem
    rcases List.mem_cons.mp mem with rfl | later
    · simp [other] at first
    · have plain := List.all_eq_true.mp rest c later
      rw [other.1] at plain
      cases plain

theorem Opened.append (opened : Opened w) (other : c ≠ chr '\\') : Opened (w ++ [c]) := by
  obtain ⟨p, body, rfl, bare, clean⟩ := opened
  refine ⟨p, body ++ [c], by simp, bare, ?_⟩
  intro mem
  rcases List.mem_append.mp mem with old | new
  · exact clean old
  · exact other (List.mem_singleton.mp new).symm

theorem Begun.clean (begun : Begun w) : chr '\\' ∉ w := by
  rcases begun with bare | ⟨p, body, rfl, bare, clean⟩
  · exact bare.clean (Or.inr rfl)
  · intro mem
    rcases List.mem_append.mp mem with front | back
    · exact bare.clean (Or.inr rfl) front
    · rcases List.mem_cons.mp back with same | inside
      · exact absurd same (by decide)
      · exact clean inside

theorem Closed.begun (closed : Closed w) : Begun w := by
  rcases closed with bare | ⟨v, rfl, opened⟩
  · exact Or.inl bare
  · exact Or.inr (opened.append (by decide))

end Words

/- What the scanner collects. -/

structure Scanner.Spelled (sc : Scanner) : Prop where
  word : if sc.beginQuotes then Opened sc.word else Bare sc.word
  tokens : ∀ tk ∈ sc.tokens, ∃ w, Closed w ∧ parse w tk.line = .ok tk

namespace Scanner
variable {sc sc' : Scanner} {c : BitVec 8}

theorem pushWord_spelled (closed : Closed sc.word)
    (tokens : ∀ tk ∈ sc.tokens, ∃ w, Closed w ∧ parse w tk.line = .ok tk)
    (run : sc.pushWord = .ok sc') : sc'.word = [] ∧ sc'.beginQuotes = sc.beginQuotes ∧
      ∀ tk ∈ sc'.tokens, ∃ w, Closed w ∧ parse w tk.line = .ok tk := by
  obtain ⟨tk, parsed, eq⟩ := bind_ok_iff.mp run
  cases eq
  refine ⟨rfl, rfl, ?_⟩
  intro tk' mem
  rcases List.mem_append.mp mem with old | new
  · exact tokens tk' old
  · cases List.mem_singleton.mp new
    exact ⟨sc.word, closed, (parse_line parsed).symm ▸ parsed⟩

theorem flushWord_spelled (spelled : sc.Spelled) (outside : sc.beginQuotes = false)
    (run : sc.flushWord = .ok sc') : sc'.word = [] ∧ sc'.beginQuotes = false ∧
      ∀ tk ∈ sc'.tokens, ∃ w, Closed w ∧ parse w tk.line = .ok tk := by
  have bare := spelled.word
  rw [outside, if_neg nofun] at bare
  unfold flushWord at run
  split at run
  · obtain ⟨empty, quotes, tokens⟩ := pushWord_spelled (Or.inl bare) spelled.tokens run
    exact ⟨empty, quotes.trans outside, tokens⟩
  · rename_i none
    cases run
    exact ⟨not_not.mp none, outside, spelled.tokens⟩

theorem quoted_spelled {e : Bool} (spelled : sc.Spelled) (quotes : sc.beginQuotes = true)
    (run : sc.quoted c e = .ok sc') : sc'.Spelled := by
  have opened := spelled.word
  rw [quotes, if_pos rfl] at opened
  cases quoted_read run with
  | escape slash =>
    refine ⟨?_, spelled.tokens⟩
    rw [quotes, if_pos rfl]
    exact opened
  | close mark unescaped pushed =>
    subst mark
    have closed : Closed (sc.word ++ [chr '"']) := Or.inr ⟨sc.word, rfl, opened⟩
    obtain ⟨empty, -, tokens⟩ :=
      @pushWord_spelled { sc with word := sc.word ++ [chr '"'] } _ closed spelled.tokens pushed
    refine ⟨?_, tokens⟩
    rw [if_neg nofun]
    exact empty ▸ Bare.nil
  | more other still =>
    refine ⟨?_, spelled.tokens⟩
    rw [quotes, if_pos rfl]
    exact opened.append other

theorem plain_spelled (spelled : sc.Spelled) (outside : sc.beginQuotes = false)
    (run : sc.plain c = .ok sc') : sc'.Spelled := by
  have bare := spelled.word
  rw [outside, if_neg nofun] at bare
  cases plain_read run with
  | comment semicolon => exact ⟨spelled.word, spelled.tokens⟩
  | escape slash => exact ⟨spelled.word, spelled.tokens⟩
  | chain operator flushed =>
    obtain ⟨empty, quotes, tokens⟩ := flushWord_spelled spelled outside flushed
    refine ⟨?_, tokens⟩
    rw [quotes, if_neg nofun, empty]
    exact ⟨by simp [startsChain_iff.mpr operator], rfl⟩
  | separator blank flushed =>
    obtain ⟨empty, quotes, tokens⟩ := flushWord_spelled spelled outside flushed
    have none : ∀ m : Scanner, m.word = [] → m.beginQuotes = false →
        if m.beginQuotes then Opened m.word else Bare m.word := by
      intro m empty quotes
      rw [quotes, if_neg nofun, empty]
      exact Bare.nil
    split
    · exact ⟨none _ empty quotes, tokens⟩
    · exact ⟨none _ empty quotes, tokens⟩
  | quote mark => exact ⟨⟨sc.word, [], by rw [mark], bare, List.not_mem_nil⟩, spelled.tokens⟩
  | word semicolon slash operator blank mark =>
    refine ⟨?_, spelled.tokens⟩
    rw [outside, if_neg nofun]
    rw [← startsChain_iff, Bool.not_eq_true] at operator
    rw [← isSeparator_iff, Bool.not_eq_true] at blank
    refine bare.append ?_
    simp [isPlain, semicolon, slash, operator, blank, mark]

theorem step_spelled (spelled : sc.Spelled) (run : sc.step c = .ok sc') : sc'.Spelled := by
  have before : Spelled { sc with beginEscape := false } := ⟨spelled.word, spelled.tokens⟩
  unfold step at run
  dsimp only at run
  generalize (if sc.beginEscape then escapeCharacter c else c) = d at run
  split at run
  · rename_i quotes
    exact quoted_spelled before quotes run
  · rename_i outside
    split at run
    · cases run
      split <;> exact ⟨spelled.word, spelled.tokens⟩
    · exact plain_spelled before (by simpa using outside) run

end Scanner

theorem split_spelled {text : Str} {tokens : List Token} (done : split text = .ok tokens) :
    (∀ tk ∈ tokens, ∃ w, Begun w ∧ parse w tk.line = .ok tk) ∧
      ∀ tk ∈ tokens.dropLast, ∃ w, Closed w ∧ parse w tk.line = .ok tk := by
  obtain ⟨sc, sc', scanned, flushed, rfl⟩ := split_ok_iff.mp done
  have start : Scanner.Spelled {} := ⟨Bare.nil, by simp⟩
  have spelled := run_invariant Scanner.Spelled (fun _ _ _ spelled step => Scanner.step_spelled spelled step)
    start scanned
  have begun : Begun sc.word := by
    have word := spelled.word
    split at word
    · exact Or.inr word
    · exact Or.inl word
  have closed : ∀ tk ∈ sc.tokens, ∃ w, Begun w ∧ parse w tk.line = .ok tk := by
    intro tk mem
    obtain ⟨w, closed, parsed⟩ := spelled.tokens tk mem
    exact ⟨w, closed.begun, parsed⟩
  unfold Scanner.flushWord at flushed
  split at flushed
  · obtain ⟨tk, parsed, eq⟩ := bind_ok_iff.mp flushed
    cases eq
    refine ⟨?_, ?_⟩
    · intro tk' mem
      rcases List.mem_append.mp mem with old | new
      · exact closed tk' old
      · cases List.mem_singleton.mp new
        exact ⟨sc.word, begun, (parse_line parsed).symm ▸ parsed⟩
    · rw [List.dropLast_concat]
      exact spelled.tokens
  · cases flushed
    exact ⟨closed, fun tk mem => spelled.tokens tk (List.dropLast_subset _ mem)⟩

/- The word a token is written as. -/

def charWord (c : BitVec 8) : Str :=
  if c = chr '"' then [chr '\'', c, chr '\'', c] else [chr '\'', c, chr '\'']

def Token.word (tk : Token) : Str :=
  match tk.kind with
  | .label => tk.value ++ [chr ':']
  | .string => chr '"' :: (tk.value ++ [chr '"'])
  | .constant u => if tk.value = [] then charWord (u.setWidth 8) else tk.value
  | _ => tk.value

section Tokens
variable {w : Str} {line : BitVec 32} {tk : Token}

theorem charWord_parse {c : BitVec 8} (writes : c = chr '"' ∨ isPlain c = true) (line : BitVec 32) :
    Closed (charWord c) ∧
      parse (charWord c) line = .ok ⟨.constant ((c.signExtend 64).setWidth 128), line, []⟩ := by
  by_cases mark : c = chr '"'
  · subst mark
    refine ⟨Or.inr ⟨[chr '\'', chr '"', chr '\''], rfl, [chr '\''], [chr '\''], rfl, ?_⟩, rfl⟩
    exact ⟨⟨by decide, rfl⟩, by decide⟩
  · have plain := writes.resolve_left mark
    have word : charWord c = [chr '\'', c, chr '\''] := if_neg mark
    rw [word]
    refine ⟨Or.inl ⟨rfl, ?_⟩, rfl⟩
    rw [List.tail_cons, List.all_cons, plain]
    rfl

theorem signExtend_low : ∀ c : BitVec 8, ((c.signExtend 64).setWidth 128).setWidth 8 = c := by
  decide +kernel

theorem Begun.char {c : BitVec 8} {rest : Str} (begun : Begun (chr '\'' :: c :: rest)) :
    c = chr '"' ∨ isPlain c = true := by
  have second : ∀ {v : Str}, Bare (chr '\'' :: c :: v) → isPlain c = true := by
    rintro v ⟨-, plain⟩
    rw [List.tail_cons, List.all_cons, Bool.and_eq_true] at plain
    exact plain.1
  rcases begun with bare | ⟨p, body, split, bare, -⟩
  · exact Or.inr (second bare)
  · rcases p with _ | ⟨a, _ | ⟨b, p⟩⟩
    · exact absurd (List.cons.inj split).1 (by decide)
    · exact Or.inl (List.cons.inj (List.cons.inj split).2).1
    · obtain ⟨rfl, rest⟩ := List.cons.inj split
      obtain ⟨rfl, -⟩ := List.cons.inj rest
      exact Or.inr (second bare)

def TokenKind.Named (kind : TokenKind) : Prop :=
  kind ≠ .label ∧ kind ≠ .string ∧ ∀ u, kind ≠ .constant u

theorem parseName_named (word : Str) : (parseName word).Named := by
  unfold parseName
  split
  · exact ⟨nofun, nofun, nofun⟩
  · split
    · exact ⟨nofun, nofun, nofun⟩
    · split <;> exact ⟨nofun, nofun, nofun⟩

theorem TokenKind.Named.word {kind : TokenKind} (named : kind.Named) (line : BitVec 32)
    (value : Str) : Token.word ⟨kind, line, value⟩ = value := by
  obtain ⟨label, string, constant⟩ := named
  cases kind with
  | label => exact absurd rfl label
  | string => exact absurd rfl string
  | constant u => exact absurd rfl (constant u)
  | directive | symbol | opcode _ | pseudoop _ | register _ | operator | unspec => rfl

theorem parse_word (begun : Begun w) (parsed : parse w line = .ok tk) :
    (tk.word = w ∨ Closed tk.word) ∧ parse tk.word line = .ok tk := by
  have same : tk.word = w → (tk.word = w ∨ Closed tk.word) ∧ parse tk.word line = .ok tk := by
    intro eq
    exact ⟨Or.inl eq, eq.symm ▸ parsed⟩
  cases parse_read parsed with
  | directive dot => exact same rfl
  | label colon => exact same (List.dropLast_append_getLast? _ colon)
  | string mark =>
    -- a string loses its quotes, and what is between them has no backslash
    have clean : chr '\\' ∉ (w.drop 1).take (w.length - 2) := fun mem =>
      begun.clean (parse_value_subset parsed mem)
    refine ⟨Or.inr (Or.inr ⟨_, rfl, [], _, rfl, Bare.nil, clean⟩), ?_⟩
    exact Scanner.parse_quoted _ line
  | @character value rest quotes =>
    subst quotes
    have written := charWord_parse begun.char line
    have word : Token.word ⟨.constant ((value.signExtend 64).setWidth 128), line, []⟩ =
        charWord value := congrArg charWord (signExtend_low value)
    rw [word]
    exact ⟨Or.inr written.1, written.2⟩
  | operator operator => exact same rfl
  | number number =>
    have some : w ≠ [] := by
      rintro rfl
      cases parsed
    exact same (if_neg some)
  | name => exact same ((parseName_named w).word line w)

end Tokens

/- The text of a word. -/

/-- The quotes behind the first one are escaped, all but the one that ends the word. -/
def spell (w : Str) : Str :=
  match w.dropWhile (· != chr '"') with
  | [] => w
  | mark :: body => w.takeWhile (· != chr '"') ++ mark ::
      (if body.getLast? = some (chr '"') then body.dropLast.flatMap quoteChar ++ [chr '"']
      else body.flatMap quoteChar)

section Spelling
variable {w p body : Str}

theorem Bare.unquoted (bare : Bare w) : ∀ c ∈ w, (c != chr '"') = true := by
  intro c mem
  have other : c ≠ chr '"' := by
    rintro rfl
    exact bare.clean (Or.inl rfl) mem
  simpa using other

theorem spell_bare (bare : Bare w) : spell w = w := by
  have none : w.dropWhile (· != chr '"') = [] := List.dropWhile_eq_nil_iff.mpr bare.unquoted
  rw [spell, none]

theorem spell_opened (bare : Bare p) : spell (p ++ chr '"' :: body) = p ++ chr '"' ::
    (if body.getLast? = some (chr '"') then body.dropLast.flatMap quoteChar ++ [chr '"']
      else body.flatMap quoteChar) := by
  have stop : (chr '"' != chr '"') = false := by decide
  have back : (p ++ chr '"' :: body).dropWhile (· != chr '"') = chr '"' :: body := by
    rw [List.dropWhile_append_of_pos bare.unquoted, List.dropWhile_cons, stop, if_neg nofun]
  have front : (p ++ chr '"' :: body).takeWhile (· != chr '"') = p := by
    rw [List.takeWhile_append_of_pos bare.unquoted, List.takeWhile_cons, stop, if_neg nofun,
      List.append_nil]
  rw [spell, back, front]

end Spelling

namespace Scanner

def between (tokens : List Token) (line : BitVec 32) : Scanner := { tokens, line }

variable {tokens : List Token} {line : BitVec 32} {tk : Token} {w p body : Str}

theorem scan_bare (bare : Bare w) :
    w.foldlM step (between tokens line) = .ok { between tokens line with word := w } := by
  cases w with
  | nil => rfl
  | cons c cs =>
    obtain ⟨first, rest⟩ := bare
    have begun : (between tokens line).step c = .ok { between tokens line with word := [c] } := by
      rw [List.head?_cons, Option.all_some, Bool.or_eq_true] at first
      rcases first with plain | chain
      · exact step_plain ⟨rfl, rfl, rfl⟩ plain
      · rw [step_chain ⟨rfl, rfl, rfl⟩ chain]
        rfl
    exact run_cons_iff.mpr ⟨_, begun, scan_plain ⟨rfl, rfl, rfl⟩ rest⟩

theorem scan_opened (bare : Bare p) (clean : chr '\\' ∉ body) :
    (p ++ chr '"' :: body.flatMap quoteChar).foldlM step (between tokens line) =
      .ok (inside (between tokens line) (p ++ chr '"' :: body) false) := by
  obtain ⟨same, none⟩ := unescaped_of_no_backslash clean
  have open_ : ({ between tokens line with word := p } : Scanner).step (chr '"') =
      .ok (inside (between tokens line) (p ++ [chr '"']) false) := rfl
  refine run_append_iff.mpr ⟨_, scan_bare bare, run_cons_iff.mpr ⟨_, open_, ?_⟩⟩
  rw [scan_body, same, none, List.append_assoc]
  rfl

theorem step_closing (parsed : parse (w ++ [chr '"']) line = .ok tk) :
    (inside (between tokens line) w false).step (chr '"') = .ok (between (tokens ++ [tk]) line) := by
  have other : chr '"' ≠ chr '\\' := by decide
  change quoted (inside (between tokens line) w false) (chr '"') false = _
  rw [quoted, if_neg other]
  dsimp only
  rw [if_pos ⟨rfl, rfl⟩]
  refine bind_ok_iff.mpr ⟨_, bind_ok_iff.mpr ⟨tk, parsed, rfl⟩, rfl⟩

theorem flush_between : (between tokens line).flushWord = .ok (between tokens line) := rfl

theorem flush_parsed (parsed : parse w line = .ok tk) :
    flushWord { between tokens line with word := w } = .ok (between (tokens ++ [tk]) line) := by
  have some : w ≠ [] := by
    rintro rfl
    cases parsed
  rw [flushWord, if_pos some]
  exact bind_ok_iff.mpr ⟨tk, parsed, rfl⟩

theorem scan_quoted {v : Str} (opened : Opened v) (parsed : parse (v ++ [chr '"']) line = .ok tk) :
    (spell (v ++ [chr '"'])).foldlM step (between tokens line) =
      .ok (between (tokens ++ [tk]) line) := by
  obtain ⟨p, body, rfl, bare, clean⟩ := opened
  have whole : p ++ chr '"' :: body ++ [chr '"'] = p ++ chr '"' :: (body ++ [chr '"']) := by simp
  have last : (body ++ [chr '"']).getLast? = some (chr '"') := List.getLast?_concat
  rw [whole, spell_opened bare, if_pos last, List.dropLast_concat, ← List.cons_append,
    ← List.append_assoc]
  exact run_append_iff.mpr ⟨_, scan_opened bare clean, run_single_iff.mpr (step_closing parsed)⟩

theorem scan_closed (closed : Closed w) (parsed : parse w line = .ok tk) :
    (spell w ++ [chr ' ']).foldlM step (between tokens line) =
      .ok (between (tokens ++ [tk]) line) := by
  have blank : ∀ {sc : Scanner}, sc.Outside → sc.step (chr ' ') = sc.flushWord := fun outside =>
    step_separator outside (by decide) (by decide)
  rcases closed with bare | ⟨v, rfl, opened⟩
  · rw [spell_bare bare]
    refine run_append_iff.mpr ⟨_, scan_bare bare, run_single_iff.mpr ?_⟩
    rw [blank ⟨rfl, rfl, rfl⟩]
    exact flush_parsed parsed
  · refine run_append_iff.mpr ⟨_, scan_quoted opened parsed, run_single_iff.mpr ?_⟩
    rw [blank ⟨rfl, rfl, rfl⟩, flush_between]

theorem scan_begun (begun : Begun w) (parsed : parse w line = .ok tk) : ∃ sc sc',
    (spell w).foldlM step (between tokens line) = .ok sc ∧ sc.flushWord = .ok sc' ∧
      sc'.tokens = tokens ++ [tk] := by
  rcases begun with bare | ⟨p, body, rfl, bare, clean⟩
  · rw [spell_bare bare]
    exact ⟨_, between (tokens ++ [tk]) line, scan_bare bare, flush_parsed parsed, rfl⟩
  · by_cases ended : body.getLast? = some (chr '"')
    · obtain ⟨inner, rfl⟩ : ∃ inner, body = inner ++ [chr '"'] :=
        ⟨_, (List.dropLast_append_getLast? _ ended).symm⟩
      have whole : p ++ chr '"' :: (inner ++ [chr '"']) = p ++ chr '"' :: inner ++ [chr '"'] := by
        simp
      rw [whole] at parsed ⊢
      have opened : Opened (p ++ chr '"' :: inner) :=
        ⟨p, inner, rfl, bare, fun mem => clean (by simp [mem])⟩
      exact ⟨_, between (tokens ++ [tk]) line, scan_quoted opened parsed, flush_between, rfl⟩
    · rw [spell_opened bare, if_neg ended]
      -- the quotes are still open where the text ends
      have some : p ++ chr '"' :: body ≠ [] := by simp
      refine ⟨_, { between (tokens ++ [tk]) line with beginQuotes := true },
        scan_opened bare clean, ?_, rfl⟩
      exact (if_pos some).trans (bind_ok_iff.mpr ⟨tk, parsed, rfl⟩)

theorem scan_newlines (n : Nat) (tokens : List Token) (line : BitVec 32) :
    (List.replicate n (chr '\n')).foldlM step (between tokens line) =
      .ok (between tokens (line + BitVec.ofNat 32 n)) := by
  induction n generalizing line with
  | zero => simp [pure, Except.pure]
  | succ n ih =>
    have first : (between tokens line).step (chr '\n') = .ok (between tokens (line + 1)) := rfl
    have count : line + BitVec.ofNat 32 (n + 1) = line + 1 + BitVec.ofNat 32 n := by
      rw [BitVec.ofNat_add, add_comm (BitVec.ofNat 32 n), ← add_assoc]
      rfl
    rw [List.replicate_succ, run_cons_iff]
    exact ⟨_, first, count ▸ ih (line + 1)⟩

end Scanner

/-- The newlines up to the line of a token, and its word. -/
def printToken (line : BitVec 32) (tk : Token) : Str :=
  List.replicate (tk.line - line).toNat (chr '\n') ++ spell tk.word

def printTokens (line : BitVec 32) : List Token → Str
  | [] => []
  | [tk] => printToken line tk
  | tk :: ts => printToken line tk ++ (chr ' ' :: printTokens tk.line ts)

theorem scan_printToken {tokens : List Token} (line : BitVec 32) (tk : Token) {rest : Str}
    {sc : Scanner}
    (scanned : (spell tk.word ++ rest).foldlM Scanner.step (Scanner.between tokens tk.line) = .ok sc) :
    (printToken line tk ++ rest).foldlM Scanner.step (Scanner.between tokens line) = .ok sc := by
  have reached : line + BitVec.ofNat 32 (tk.line - line).toNat = tk.line := by
    rw [BitVec.ofNat_toNat, BitVec.setWidth_eq]
    exact add_sub_cancel line tk.line
  have newlines := Scanner.scan_newlines (tk.line - line).toNat tokens line
  rw [reached] at newlines
  rw [printToken, List.append_assoc]
  exact run_append_iff.mpr ⟨_, newlines, scanned⟩

theorem scan_printTokens {ts : List Token}
    (begun : ∀ tk ∈ ts, Begun tk.word ∧ parse tk.word tk.line = .ok tk)
    (closed : ∀ tk ∈ ts.dropLast, Closed tk.word) (tokens : List Token) (line : BitVec 32) :
    ∃ sc sc', (printTokens line ts).foldlM Scanner.step (Scanner.between tokens line) = .ok sc ∧
      sc.flushWord = .ok sc' ∧ sc'.tokens = tokens ++ ts := by
  induction ts generalizing tokens line with
  | nil => exact ⟨_, _, rfl, rfl, (List.append_nil tokens).symm⟩
  | cons tk ts ih =>
    obtain ⟨here, parsed⟩ := begun tk (by simp)
    cases ts with
    | nil =>
      obtain ⟨sc, sc', scanned, flushed, same⟩ := Scanner.scan_begun here parsed
      refine ⟨sc, sc', ?_, flushed, same⟩
      rw [← List.append_nil (spell tk.word)] at scanned
      have text := scan_printToken line tk scanned
      rwa [List.append_nil] at text
    | cons next ts =>
      rw [List.dropLast_cons_cons] at closed
      obtain ⟨sc, sc', scanned, flushed, same⟩ := ih (fun tk mem => begun tk (by simp [mem]))
        (fun tk mem => closed tk (by simp [mem])) (tokens ++ [tk]) tk.line
      refine ⟨sc, sc', ?_, flushed, by rw [same]; simp⟩
      refine scan_printToken line tk ?_
      rw [← List.singleton_append, ← List.append_assoc]
      exact run_append_iff.mpr ⟨_, Scanner.scan_closed (closed tk (by simp)) parsed, scanned⟩

/-- The tokens of any text that is accepted, printed and split again. -/
theorem split_print (tokens : List Token) :
    split (printTokens 1 tokens) = .ok tokens ↔ ∃ text, split text = .ok tokens := by
  constructor
  · intro printed
    exact ⟨_, printed⟩
  · rintro ⟨text, done⟩
    obtain ⟨begun, closed⟩ := split_spelled done
    have words : ∀ tk ∈ tokens, Begun tk.word ∧ parse tk.word tk.line = .ok tk := by
      intro tk mem
      obtain ⟨w, begun, parsed⟩ := begun tk mem
      obtain ⟨word, again⟩ := parse_word begun parsed
      exact ⟨word.elim (fun same => same.symm ▸ begun) Closed.begun, again⟩
    have ends : ∀ tk ∈ tokens.dropLast, Closed tk.word := by
      intro tk mem
      obtain ⟨w, closed, parsed⟩ := closed tk mem
      obtain ⟨word, -⟩ := parse_word closed.begun parsed
      exact word.elim (fun same => same.symm ▸ closed) id
    obtain ⟨sc, sc', scanned, flushed, same⟩ := scan_printTokens words ends [] 1
    exact split_ok_iff.mpr ⟨sc, sc', scanned, flushed, same⟩

end BigAsm
