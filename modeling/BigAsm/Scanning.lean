import Mathlib
import BigAsm.Literals

/- What the scanner does with a character depends on the flags and on whether a word is begun.
   The effect of every step follows from these, and split works on a text part by part. -/
namespace BigAsm
open Runs

/-- The part of the scanner's state that decides what a character means. -/
structure Mode where
  pending : Bool := false
  quotes : Bool := false
  comment : Bool := false
  escape : Bool := false
  deriving DecidableEq, Repr

def isSeparator (c : BitVec 8) : Bool :=
  [chr ',', chr ' ', chr '\t', chr '\n', chr '\r'].contains c

def startsChain (c : BitVec 8) : Bool := [chr '+', chr '-', chr '*'].contains c

theorem isSeparator_iff {c : BitVec 8} : isSeparator c = true ↔
    c = chr ',' ∨ c = chr ' ' ∨ c = chr '\t' ∨ c = chr '\n' ∨ c = chr '\r' := by
  simp [isSeparator]

theorem startsChain_iff {c : BitVec 8} :
    startsChain c = true ↔ c = chr '+' ∨ c = chr '-' ∨ c = chr '*' := by
  simp [startsChain]

namespace Mode

def reads (m : Mode) (c : BitVec 8) : BitVec 8 := if m.escape then escapeCharacter c else c

def next (m : Mode) (c : BitVec 8) : Mode :=
  let d := m.reads c
  if m.quotes then
    if d = chr '\\' then { m with escape := true }
    else if d = chr '"' ∧ !m.escape then { m with pending := false, quotes := false, escape := false }
    else { m with pending := true, escape := false }
  else if m.comment then { m with comment := d ≠ chr '\n', escape := false }
  else if d = chr ';' then { m with comment := true, escape := false }
  else if d = chr '\\' then { m with escape := true }
  else if startsChain d then { m with pending := true, escape := false }
  else if isSeparator d then { m with pending := false, escape := false }
  else { m with pending := true, quotes := d = chr '"', escape := false }

def ends (m : Mode) (c : BitVec 8) : Bool :=
  let d := m.reads c
  if m.quotes then d = chr '"' ∧ !m.escape
  else m.pending && !m.comment && (startsChain d || isSeparator d)

def counts (m : Mode) (c : BitVec 8) : Bool := !m.quotes && m.reads c == chr '\n'

end Mode

def Token.later (lines : BitVec 32) (tk : Token) : Token := { tk with line := tk.line + lines }

namespace Scanner

def mode (sc : Scanner) : Mode := ⟨sc.word ≠ [], sc.beginQuotes, sc.beginComment, sc.beginEscape⟩

end Scanner

theorem parse_moved (word : Str) (line : BitVec 32) :
    parse word line = (fun tk => { tk with line }) <$> parse word 0 := by
  cases word with
  | nil => rfl
  | cons c cs =>
    unfold parse
    dsimp only
    split
    · rfl
    · split
      · rfl
      · split
        · rfl
        · split
          · split
            · split <;> rfl
            · rfl
          · split
            · rfl
            · split
              · cases parseNumber (c :: cs) <;> rfl
              · rfl

theorem parse_line {word : Str} {line : BitVec 32} {tk : Token} (done : parse word line = .ok tk) :
    tk.line = line := by
  rw [parse_moved] at done
  obtain ⟨tk', -, rfl⟩ := map_ok_iff.mp done
  rfl

namespace Scanner

theorem pushWord_ok {sc sc' : Scanner} (run : sc.pushWord = .ok sc') :
    ∃ tk, tk.line = sc.line ∧ sc' = { sc with tokens := sc.tokens ++ [tk], word := [] } := by
  obtain ⟨tk, done, eq⟩ := bind_ok_iff.mp run
  cases eq
  exact ⟨tk, parse_line done, rfl⟩

theorem flushWord_ok {sc sc' : Scanner} (run : sc.flushWord = .ok sc') :
    ∃ tokens, sc' = { sc with tokens, word := [] } ∧
      if sc.mode.pending then ∃ tk, tk.line = sc.line ∧ tokens = sc.tokens ++ [tk]
      else tokens = sc.tokens := by
  unfold flushWord at run
  split at run
  · rename_i pending
    obtain ⟨tk, line, eq⟩ := pushWord_ok run
    refine ⟨_, eq, ?_⟩
    simp [mode, pending, line]
  · rename_i none
    have empty : sc.word = [] := not_not.mp none
    cases run
    exact ⟨_, by rw [← empty], by simp [mode, empty]⟩

/-- What one step does, as far as lines and the number of tokens are concerned. -/
structure Stepped (sc : Scanner) (c : BitVec 8) (sc' : Scanner) : Prop where
  mode : sc'.mode = sc.mode.next c
  line : sc'.line = if sc.mode.counts c then sc.line + 1 else sc.line
  tokens : if sc.mode.ends c then ∃ tk, tk.line = sc.line ∧ sc'.tokens = sc.tokens ++ [tk]
    else sc'.tokens = sc.tokens

theorem quoted_stepped {sc sc' : Scanner} {c : BitVec 8} (quotes : sc.beginQuotes = true)
    (run : quoted { sc with beginEscape := false } (sc.mode.reads c) sc.beginEscape = .ok sc') :
    Stepped sc c sc' := by
  have inside : sc.mode.quotes = true := quotes
  have escape : sc.mode.escape = sc.beginEscape := rfl
  generalize read : sc.mode.reads c = d at run
  cases quoted_read run with
  | escape slash =>
    have other : d ≠ chr '"' := by
      rw [slash]
      decide
    refine ⟨?_, ?_, ?_⟩
    · simp [Mode.next, read, inside, slash]
      simp [mode, quotes]
    · simp [Mode.counts, inside]
    · simp [Mode.ends, read, inside, other]
  | close mark unescaped pushed =>
    subst mark
    have other : chr '"' ≠ chr '\\' := by decide
    obtain ⟨tk, line, rfl⟩ := pushWord_ok pushed
    clear run pushed
    refine ⟨?_, ?_, ?_⟩
    · simp [Mode.next, read, inside, other, unescaped, escape]
      simp [mode]
    · simp [Mode.counts, inside]
    · simpa [Mode.ends, read, inside, unescaped, escape] using line
  | more other still =>
    refine ⟨?_, ?_, ?_⟩
    · have next : sc.mode.next c = { sc.mode with pending := true, escape := false } := by
        simpa [Mode.next, read, inside, other, escape] using still
      rw [next]
      simp [mode, quotes]
    · simp [Mode.counts, inside]
    · simpa [Mode.ends, read, inside, escape] using still

section Plain
variable {sc sc' m : Scanner} {c : BitVec 8}

theorem chain_stepped (quotes : sc.beginQuotes = false) (comment : sc.beginComment = false)
    (chain : startsChain (sc.mode.reads c) = true)
    (flushed : flushWord { sc with beginEscape := false } = .ok m) :
    Stepped sc c { m with word := m.word ++ [sc.mode.reads c] } := by
  have outside : sc.mode.quotes = false := quotes
  have apart : sc.mode.comment = false := comment
  generalize read : sc.mode.reads c = d at chain ⊢
  have other : d ≠ chr ';' ∧ d ≠ chr '\\' ∧ d ≠ chr '\n' := by
    refine ⟨?_, ?_, ?_⟩ <;>
    · rintro rfl
      cases chain
  obtain ⟨tokens, rfl, pushed⟩ := flushWord_ok flushed
  have pushed : if sc.mode.pending then ∃ tk, tk.line = sc.line ∧ tokens = sc.tokens ++ [tk]
    else tokens = sc.tokens := pushed
  clear flushed
  refine ⟨?_, ?_, ?_⟩
  · simp [Mode.next, read, outside, apart, other, chain]
    simp [mode, quotes, comment]
  · simp [Mode.counts, read, other]
  · simpa [Mode.ends, read, outside, apart, chain] using pushed

theorem separator_stepped (quotes : sc.beginQuotes = false) (comment : sc.beginComment = false)
    (separator : isSeparator (sc.mode.reads c) = true)
    (flushed : flushWord { sc with beginEscape := false } = .ok m) :
    Stepped sc c (if sc.mode.reads c = chr '\n' then { m with line := m.line + 1 } else m) := by
  have outside : sc.mode.quotes = false := quotes
  have apart : sc.mode.comment = false := comment
  generalize read : sc.mode.reads c = d at separator ⊢
  have other : d ≠ chr ';' ∧ d ≠ chr '\\' := by
    refine ⟨?_, ?_⟩ <;>
    · rintro rfl
      cases separator
  have chain : startsChain d = false := by
    rcases isSeparator_iff.mp separator with rfl | rfl | rfl | rfl | rfl <;> rfl
  obtain ⟨tokens, rfl, pushed⟩ := flushWord_ok flushed
  have pushed : if sc.mode.pending then ∃ tk, tk.line = sc.line ∧ tokens = sc.tokens ++ [tk]
    else tokens = sc.tokens := pushed
  clear flushed
  refine ⟨?_, ?_, ?_⟩
  · simp [Mode.next, read, outside, apart, other, chain, separator]
    split <;> simp [mode, quotes, comment]
  · simp [Mode.counts, read, outside]
    split <;> rfl
  · have kept : ∀ sc : Scanner, (if d = chr '\n' then { sc with line := sc.line + 1 } else sc).tokens =
        sc.tokens := by
      intro sc
      split <;> rfl
    rw [kept]
    simpa [Mode.ends, read, outside, apart, separator] using pushed

theorem word_stepped (quotes : sc.beginQuotes = false) (comment : sc.beginComment = false)
    (special : sc.mode.reads c ≠ chr ';' ∧ sc.mode.reads c ≠ chr '\\')
    (chain : startsChain (sc.mode.reads c) = false)
    (separator : isSeparator (sc.mode.reads c) = false)
    (run : (if sc.mode.reads c = chr '"' then .ok { sc with
        beginEscape := false, beginQuotes := true, word := sc.word ++ [sc.mode.reads c] }
      else .ok { sc with beginEscape := false, word := sc.word ++ [sc.mode.reads c] } :
        Except Failure Scanner) = .ok sc') : Stepped sc c sc' := by
  have outside : sc.mode.quotes = false := quotes
  have apart : sc.mode.comment = false := comment
  generalize read : sc.mode.reads c = d at special chain separator run
  have other : d ≠ chr '\n' := by
    rintro rfl
    cases separator
  have next : sc.mode.next c =
      { sc.mode with pending := true, quotes := d = chr '"', escape := false } := by
    simp [Mode.next, read, outside, apart, special, chain, separator]
  have counts : sc.mode.counts c = false := by simp [Mode.counts, read, other]
  have ends : sc.mode.ends c = false := by simp [Mode.ends, read, outside, chain, separator]
  refine ⟨?_, ?_, ?_⟩
  · rw [next]
    split at run
    · rename_i mark
      cases run
      simp [mode, mark]
    · rename_i mark
      cases run
      simp [mode, mark, quotes]
  · rw [counts]
    split at run <;> cases run <;> rfl
  · rw [ends]
    split at run <;> cases run <;> rfl

theorem semicolon_ne_backslash : chr ';' ≠ chr '\\' := by decide

theorem special_stepped (quotes : sc.beginQuotes = false) (comment : sc.beginComment = false)
    (special : sc.mode.reads c = chr ';' ∨ sc.mode.reads c = chr '\\')
    (comments : sc'.beginComment = decide (sc.mode.reads c = chr ';'))
    (escapes : sc'.beginEscape = decide (sc.mode.reads c = chr '\\'))
    (same : sc'.word = sc.word ∧ sc'.beginQuotes = sc.beginQuotes ∧ sc'.line = sc.line ∧
      sc'.tokens = sc.tokens) : Stepped sc c sc' := by
  have outside : sc.mode.quotes = false := quotes
  have apart : sc.mode.comment = false := comment
  generalize read : sc.mode.reads c = d at special comments escapes
  have alone : startsChain d = false ∧ isSeparator d = false ∧ d ≠ chr '\n' := by
    rcases special with rfl | rfl <;> decide
  refine ⟨?_, ?_, ?_⟩
  · rcases special with rfl | rfl
    · simp [Mode.next, read, outside, apart]
      simp [mode, quotes, comments, escapes, same, semicolon_ne_backslash]
    · simp [Mode.next, read, outside, apart, semicolon_ne_backslash.symm]
      simp [mode, quotes, comments, escapes, same, semicolon_ne_backslash.symm]
  · simp [Mode.counts, read, alone, same]
  · simp [Mode.ends, read, outside, alone, same]

theorem plain_stepped (quotes : sc.beginQuotes = false) (comment : sc.beginComment = false)
    (run : plain { sc with beginEscape := false } (sc.mode.reads c) = .ok sc') :
    Stepped sc c sc' := by
  cases plain_read run with
  | comment semicolon =>
    exact special_stepped quotes comment (Or.inl semicolon) (by simp [semicolon])
      (by simp [semicolon, semicolon_ne_backslash]) ⟨rfl, rfl, rfl, rfl⟩
  | escape slash =>
    exact special_stepped quotes comment (Or.inr slash)
      (by simp [slash, comment, semicolon_ne_backslash.symm]) (by simp [slash]) ⟨rfl, rfl, rfl, rfl⟩
  | chain operator flushed =>
    exact chain_stepped quotes comment (startsChain_iff.mpr operator) flushed
  | separator blank flushed =>
    exact separator_stepped quotes comment (isSeparator_iff.mpr blank) flushed
  | quote mark =>
    have alone : sc.mode.reads c ≠ chr ';' ∧ sc.mode.reads c ≠ chr '\\' := by
      rw [mark]
      decide
    have other : startsChain (sc.mode.reads c) = false ∧ isSeparator (sc.mode.reads c) = false := by
      rw [mark]
      decide
    exact word_stepped quotes comment alone other.1 other.2 (if_pos mark)
  | word semicolon slash operator blank mark =>
    rw [← startsChain_iff, Bool.not_eq_true] at operator
    rw [← isSeparator_iff, Bool.not_eq_true] at blank
    exact word_stepped quotes comment ⟨semicolon, slash⟩ operator blank (if_neg mark)

end Plain

theorem commented_stepped {sc sc' : Scanner} {c : BitVec 8} (quotes : sc.beginQuotes = false)
    (comment : sc.beginComment = true)
    (run : (if sc.mode.reads c = chr '\n' then
      { sc with beginEscape := false, beginComment := false, line := sc.line + 1 }
      else { sc with beginEscape := false }) = sc') : Stepped sc c sc' := by
  have outside : sc.mode.quotes = false := quotes
  have within : sc.mode.comment = true := comment
  generalize read : sc.mode.reads c = d at run
  subst run
  by_cases newline : d = chr '\n'
  · rw [if_pos newline]
    refine ⟨?_, ?_, ?_⟩
    · simp [Mode.next, read, outside, within, newline]
      simp [mode, quotes]
    · simp [Mode.counts, read, outside, newline]
    · simp [Mode.ends, outside, within]
  · rw [if_neg newline]
    refine ⟨?_, ?_, ?_⟩
    · simp [Mode.next, read, outside, within, newline]
      simp [mode, quotes, comment]
    · simp [Mode.counts, read, newline]
    · simp [Mode.ends, outside, within]

theorem step_stepped {sc sc' : Scanner} {c : BitVec 8} (run : sc.step c = .ok sc') :
    Stepped sc c sc' := by
  unfold step at run
  dsimp only at run
  split at run
  · rename_i quotes
    exact quoted_stepped quotes run
  · rename_i outside
    have quotes : sc.beginQuotes = false := by simpa using outside
    split at run
    · rename_i comment
      exact commented_stepped quotes comment (Except.ok.inj run)
    · rename_i apart
      exact plain_stepped quotes (by simpa using apart) run

def Outside (sc : Scanner) : Prop :=
  sc.beginQuotes = false ∧ sc.beginComment = false ∧ sc.beginEscape = false

theorem step_newline {sc : Scanner} (outside : sc.Outside) :
    sc.step (chr '\n') = (fun m => { m with line := m.line + 1 }) <$> sc.flushWord := by
  obtain ⟨quotes, comment, escape⟩ := outside
  rcases sc with ⟨tokens, word, line, _, _, _⟩
  subst quotes comment escape
  rfl

theorem flushed_moved {sc sc' : Scanner} (outside : sc.Outside) (flushed : sc.flushWord = .ok sc') :
    { sc' with line := sc'.line + 1 } =
      moved (fun ts => sc'.tokens ++ ts.map (Token.later sc.line)) (· + sc.line) {} := by
  obtain ⟨quotes, comment, escape⟩ := outside
  obtain ⟨tokens, rfl, -⟩ := flushWord_ok flushed
  simp [moved, quotes, comment, escape, BitVec.add_comm]

end Scanner

theorem split_ok_iff {s : Str} {tokens : List Token} : split s = .ok tokens ↔
    ∃ sc sc', s.foldlM Scanner.step {} = .ok sc ∧ sc.flushWord = .ok sc' ∧ sc'.tokens = tokens := by
  unfold split
  simp only [bind_ok_iff, pure_ok_iff]
  constructor
  · rintro ⟨sc, scanned, sc', flushed, eq⟩
    exact ⟨sc, sc', scanned, flushed, eq⟩
  · rintro ⟨sc, sc', scanned, flushed, eq⟩
    exact ⟨sc, scanned, sc', flushed, eq⟩

theorem later_moves (earlier : List Token) (lines : BitVec 32) :
    Scanner.Moves (fun ts => earlier ++ ts.map (Token.later lines)) (· + lines) where
  push tokens word line := by
    rw [parse_moved word (line + lines), parse_moved word line]
    cases parse word 0 with
    | error e => rfl
    | ok tk => simp [Functor.map, Except.map, Token.later]
  lines line := by ring

/-- A text is split at any newline outside quotes, comments and escapes: into the tokens of
    what is before it and the tokens of what is behind it, on later lines. -/
theorem split_compositional {s1 s2 : Str}
    (outside : ∀ sc, s1.foldlM Scanner.step {} = .ok sc → sc.Outside) (tokens : List Token) :
    split (s1 ++ chr '\n' :: s2) = .ok tokens ↔ ∃ sc t1 t2,
      s1.foldlM Scanner.step {} = .ok sc ∧ split s1 = .ok t1 ∧ split s2 = .ok t2 ∧
        tokens = t1 ++ t2.map (Token.later sc.line) := by
  constructor
  · intro done
    obtain ⟨last, last', scanned, flushed, eq⟩ := split_ok_iff.mp done
    obtain ⟨sc, first, rest⟩ := run_append_iff.mp scanned
    obtain ⟨m, newline, later⟩ := run_cons_iff.mp rest
    rw [Scanner.step_newline (outside sc first)] at newline
    obtain ⟨sc', ended, rfl⟩ := map_ok_iff.mp newline
    have moves := later_moves sc'.tokens sc.line
    rw [Scanner.flushed_moved (outside sc first) ended, Scanner.scan_moved moves] at later
    obtain ⟨fresh, scanned2, rfl⟩ := map_ok_iff.mp later
    rw [Scanner.flushWord_moved moves] at flushed
    obtain ⟨fresh', flushed2, rfl⟩ := map_ok_iff.mp flushed
    exact ⟨sc, sc'.tokens, fresh'.tokens, first, split_ok_iff.mpr ⟨sc, sc', first, ended, rfl⟩,
      split_ok_iff.mpr ⟨fresh, fresh', scanned2, flushed2, rfl⟩, eq.symm⟩
  · rintro ⟨sc, t1, t2, first, done1, done2, rfl⟩
    obtain ⟨sc0, sc', first', ended, rfl⟩ := split_ok_iff.mp done1
    cases first.symm.trans first'
    obtain ⟨fresh, fresh', scanned2, flushed2, rfl⟩ := split_ok_iff.mp done2
    have moves := later_moves sc'.tokens sc.line
    let move := Scanner.moved (fun ts => sc'.tokens ++ ts.map (Token.later sc.line)) (· + sc.line)
    refine split_ok_iff.mpr ⟨move fresh, move fresh', ?_, ?_, rfl⟩
    · have newline : sc.step (chr '\n') = .ok { sc' with line := sc'.line + 1 } :=
        (Scanner.step_newline (outside sc first)).trans (map_ok_iff.mpr ⟨sc', ended, rfl⟩)
      refine run_append_iff.mpr ⟨sc, first, run_cons_iff.mpr ⟨_, newline, ?_⟩⟩
      rw [Scanner.flushed_moved (outside sc first) ended, Scanner.scan_moved moves]
      exact map_ok_iff.mpr ⟨fresh, scanned2, rfl⟩
    · rw [Scanner.flushWord_moved moves]
      exact map_ok_iff.mpr ⟨fresh', flushed2, rfl⟩

theorem split_two_lines : split (lit "a \"b\" ; c\nd" ++ chr '\n' :: lit "e:") = .ok
    [⟨.symbol, 1, lit "a"⟩, ⟨.string, 1, lit "b"⟩, ⟨.symbol, 2, lit "d"⟩, ⟨.label, 3, lit "e"⟩] := by
  refine (@split_compositional (lit "a \"b\" ; c\nd") (lit "e:") ?_ _).mpr
    ⟨{ tokens := [⟨.symbol, 1, lit "a"⟩, ⟨.string, 1, lit "b"⟩], word := lit "d", line := 2 },
      [⟨.symbol, 1, lit "a"⟩, ⟨.string, 1, lit "b"⟩, ⟨.symbol, 2, lit "d"⟩],
      [⟨.label, 1, lit "e"⟩], by decide +kernel, by decide +kernel, by decide +kernel, by decide +kernel⟩
  intro sc scanned
  have known : (lit "a \"b\" ; c\nd").foldlM Scanner.step {} = Except.ok
      { tokens := [⟨.symbol, 1, lit "a"⟩, ⟨.string, 1, lit "b"⟩], word := lit "d", line := 2 } := by
    decide +kernel
  cases known.symm.trans scanned
  exact ⟨rfl, rfl, rfl⟩

end BigAsm
