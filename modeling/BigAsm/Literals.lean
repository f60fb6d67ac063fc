import Mathlib
import BigAsm.Growth

/- Quoted literals from source text to output bytes. An escape is translated before the scanner
   looks for a backslash, so no backslash ever becomes part of a word. -/
namespace BigAsm
open ByteStore Runs

def quoteChar (c : BitVec 8) : Str :=
  if c = chr '\\' ∨ c = chr '"' then [chr '\\', c] else [c]

def quote (s : Str) : Str := chr '"' :: (s.flatMap quoteChar ++ [chr '"'])

def Scanner.Idle (sc : Scanner) : Prop := sc = { tokens := sc.tokens, line := sc.line }

def tokensFrom (line : BitVec 32) (text : Str) : Except Failure (List Token) := do
  let sc ← text.foldlM Scanner.step ({ line } : Scanner)
  let sc ← sc.flushWord
  return sc.tokens

theorem split_eq_tokensFrom (s : Str) : split s = tokensFrom 1 s := rfl

section Escapes

theorem escapeCharacter_ne_backslash {c : BitVec 8} (other : c ≠ chr '\\') :
    escapeCharacter c ≠ chr '\\' := by
  unfold escapeCharacter
  split
  · decide
  · split
    · decide
    · split
      · decide
      · split
        · decide
        · split
          · decide
          · exact other

/-- What the scanner appends for the characters of a literal; e says that the character
    before was a backslash. -/
def unescaped : Bool → Str → Str
  | _, [] => []
  | e, c :: cs =>
    if c = chr '\\' then unescaped true cs
    else (if e then escapeCharacter c else c) :: unescaped false cs

def pendingEscape : Bool → Str → Bool
  | e, [] => e
  | _, c :: cs => pendingEscape (c = chr '\\') cs

theorem unescaped_of_no_backslash {s : Str} (clean : chr '\\' ∉ s) :
    unescaped false s = s ∧ pendingEscape false s = false := by
  induction s with
  | nil => exact ⟨rfl, rfl⟩
  | cons c cs ih =>
    have here : c ≠ chr '\\' := fun eq => clean (by simp [eq])
    obtain ⟨same, none⟩ := ih fun later => clean (by simp [later])
    simp only [unescaped, pendingEscape, if_neg here, same, decide_eq_false here]
    exact ⟨rfl, none⟩

end Escapes

namespace Scanner

def inside (sc : Scanner) (word : Str) (e : Bool) : Scanner :=
  { sc with word, beginQuotes := true, beginEscape := e }

theorem step_backslash (sc : Scanner) (word : Str) (e : Bool) :
    (sc.inside word e).step (chr '\\') = .ok (sc.inside word true) := by
  cases e <;> rfl

theorem step_inside (sc : Scanner) (word : Str) {e : Bool} {c : BitVec 8}
    (other : c ≠ chr '\\') (open_ : c = chr '"' → e = true) :
    (sc.inside word e).step c =
      .ok (sc.inside (word ++ [if e then escapeCharacter c else c]) false) := by
  have kept := escapeCharacter_ne_backslash other
  cases e with
  | false =>
    have plain : c ≠ chr '"' := fun eq => Bool.noConfusion (open_ eq)
    simp [step, quoted, inside, other, plain]
  | true => simp [step, quoted, inside, kept]

theorem scan_quoteChar (sc : Scanner) (word : Str) (e : Bool) (c : BitVec 8) :
    (quoteChar c).foldlM step (sc.inside word e) =
      .ok (sc.inside (word ++ unescaped e [c]) (decide (c = chr '\\'))) := by
  by_cases slash : c = chr '\\'
  · subst c
    simp only [quoteChar, true_or, if_true, run_cons_iff, run_nil_iff, unescaped, List.append_nil,
      decide_true]
    exact ⟨_, step_backslash sc word e, _, step_backslash sc word true, rfl⟩
  · by_cases mark : c = chr '"'
    · subst c
      have same : unescaped e [chr '"'] = [chr '"'] := by cases e <;> rfl
      simp only [quoteChar, or_true, if_true, run_cons_iff, run_nil_iff, same, decide_eq_false slash]
      exact ⟨_, step_backslash sc word e, _, step_inside sc word slash fun _ => rfl, rfl⟩
    · have alone : quoteChar c = [c] := if_neg (by simp [slash, mark])
      have same : unescaped e [c] = [if e then escapeCharacter c else c] := by
        simp [unescaped, slash]
      rw [alone, same, run_single_iff, decide_eq_false slash]
      exact step_inside sc word slash fun eq => absurd eq mark

theorem unescaped_cons (e : Bool) (c : BitVec 8) (cs : Str) :
    unescaped e (c :: cs) = unescaped e [c] ++ unescaped (decide (c = chr '\\')) cs := by
  by_cases slash : c = chr '\\'
  · simp [unescaped, slash]
  · simp [unescaped, slash]

theorem scan_body (sc : Scanner) (word : Str) (e : Bool) (s : Str) :
    (s.flatMap quoteChar).foldlM step (sc.inside word e) =
      .ok (sc.inside (word ++ unescaped e s) (pendingEscape e s)) := by
  induction s generalizing word e with
  | nil => simp [unescaped, pendingEscape, pure, Except.pure]
  | cons c cs ih =>
    rw [List.flatMap_cons, run_append_iff]
    refine ⟨_, scan_quoteChar sc word e c, ?_⟩
    rw [ih, unescaped_cons e c cs, List.append_assoc]
    rfl

theorem parse_quoted (w : Str) (line : BitVec 32) :
    parse (chr '"' :: (w ++ [chr '"'])) line = .ok ⟨.string, line, w⟩ := by
  have last : (chr '"' :: (w ++ [chr '"'])).getLast? = some (chr '"') := by
    rw [← List.cons_append, List.getLast?_append]
    rfl
  have inner : ((chr '"' :: (w ++ [chr '"'])).drop 1).take
      ((chr '"' :: (w ++ [chr '"'])).length - 2) = w := by
    simp
  have dot : chr '"' ≠ chr '.' := by decide
  have colon : some (chr '"') ≠ some (chr ':') := by decide
  rw [parse, if_neg dot, last, if_neg colon, if_pos rfl, inner]

theorem step_close (tokens : List Token) (line : BitVec 32) (w : Str) :
    (inside { tokens, line } (chr '"' :: w) false).step (chr '"') =
      .ok { tokens := tokens ++ [⟨.string, line, w⟩], line } := by
  have other : chr '"' ≠ chr '\\' := by decide
  change quoted (inside { tokens, line } (chr '"' :: w) false) (chr '"') false = _
  rw [quoted, if_neg other]
  dsimp only
  rw [if_pos ⟨rfl, rfl⟩]
  refine bind_ok_iff.mpr ⟨_, bind_ok_iff.mpr ⟨_, parse_quoted w line, rfl⟩, rfl⟩

theorem scan_quote {sc : Scanner} (idle : sc.Idle) {s : Str} (clean : chr '\\' ∉ s) :
    (quote s).foldlM step sc =
      .ok { tokens := sc.tokens ++ [⟨.string, sc.line, s⟩], line := sc.line } := by
  obtain ⟨tokens, line, rfl⟩ : ∃ tokens line, sc = { tokens, line } := ⟨_, _, idle⟩
  obtain ⟨same, none⟩ := unescaped_of_no_backslash clean
  rw [quote, run_cons_iff]
  refine ⟨inside { tokens, line } [chr '"'] false, rfl, ?_⟩
  rw [run_append_iff]
  refine ⟨_, scan_body _ _ false s, ?_⟩
  rw [run_single_iff, same, none]
  exact step_close tokens line s

/- No backslash in any word or token. -/

def Clean (sc : Scanner) : Prop :=
  chr '\\' ∉ sc.word ∧ ∀ tk ∈ sc.tokens, chr '\\' ∉ tk.value

end Scanner

theorem parse_value_subset {word : Str} {line : BitVec 32} {tk : Token}
    (done : parse word line = .ok tk) : tk.value ⊆ word := by
  cases parse_read done with
  | directive dot => exact List.Subset.refl _
  | label colon => exact List.dropLast_subset _
  | string mark => exact List.Subset.trans (List.take_subset _ _) (List.drop_subset _ _)
  | character quotes => exact List.nil_subset _
  | operator operator => exact List.Subset.refl _
  | number number => exact List.Subset.refl _
  | name => exact List.Subset.refl _

namespace Scanner

theorem pushWord_clean {sc sc' : Scanner} (clean : sc.Clean) (run : sc.pushWord = .ok sc') :
    sc'.Clean := by
  obtain ⟨tk, done, eq⟩ := bind_ok_iff.mp run
  cases eq
  refine ⟨by simp, ?_⟩
  intro t mem
  rcases List.mem_append.mp mem with old | new
  · exact clean.2 t old
  · cases List.mem_singleton.mp new
    exact fun inside => clean.1 (parse_value_subset done inside)

theorem flushWord_clean {sc sc' : Scanner} (clean : sc.Clean) (run : sc.flushWord = .ok sc') :
    sc'.Clean := by
  unfold flushWord at run
  split at run
  · exact pushWord_clean clean run
  · cases run
    exact clean

theorem append_clean {sc : Scanner} (clean : sc.Clean) {c : BitVec 8} (other : c ≠ chr '\\') :
    chr '\\' ∉ sc.word ++ [c] := by
  intro mem
  rcases List.mem_append.mp mem with old | new
  · exact clean.1 old
  · exact other (List.mem_singleton.mp new).symm

theorem quoted_clean {sc sc' : Scanner} (clean : sc.Clean) {c : BitVec 8} {e : Bool}
    (run : sc.quoted c e = .ok sc') : sc'.Clean := by
  cases quoted_read run with
  | escape slash => exact clean
  | close mark unescaped pushed =>
    have other : c ≠ chr '\\' := by
      rw [mark]
      decide
    have before : Clean { sc with word := sc.word ++ [c] } := ⟨append_clean clean other, clean.2⟩
    have kept := pushWord_clean before pushed
    exact kept
  | more other still => exact ⟨append_clean clean other, clean.2⟩

theorem plain_clean {sc sc' : Scanner} (clean : sc.Clean) {c : BitVec 8}
    (run : sc.plain c = .ok sc') : sc'.Clean := by
  cases plain_read run with
  | comment semicolon => exact clean
  | escape slash => exact clean
  | chain operator flushed =>
    have other : c ≠ chr '\\' := by
      rcases operator with rfl | rfl | rfl <;> decide
    have kept := flushWord_clean clean flushed
    exact ⟨append_clean kept other, kept.2⟩
  | separator blank flushed =>
    have kept := flushWord_clean clean flushed
    split <;> exact kept
  | quote mark =>
    have other : c ≠ chr '\\' := by
      rw [mark]
      decide
    exact ⟨append_clean clean other, clean.2⟩
  | word semicolon slash operator blank mark => exact ⟨append_clean clean slash, clean.2⟩

theorem step_clean {sc sc' : Scanner} {c : BitVec 8} (clean : sc.Clean)
    (run : sc.step c = .ok sc') : sc'.Clean := by
  have before : Clean { sc with beginEscape := false } := clean
  unfold step at run
  dsimp only at run
  generalize (if sc.beginEscape then escapeCharacter c else c) = d at run
  split at run
  · exact quoted_clean before run
  · split at run
    · cases run
      split <;> exact clean
    · exact plain_clean before run

end Scanner

theorem tokensFrom_clean {line : BitVec 32} {text : Str} {tokens : List Token}
    (done : tokensFrom line text = .ok tokens) : ∀ tk ∈ tokens, chr '\\' ∉ tk.value := by
  obtain ⟨sc, scanned, rest⟩ := bind_ok_iff.mp done
  obtain ⟨sc', flushed, eq⟩ := bind_ok_iff.mp rest
  cases eq
  have clean := run_invariant Scanner.Clean (fun _ _ _ => Scanner.step_clean)
    ⟨by simp, by simp⟩ scanned
  exact (Scanner.flushWord_clean clean flushed).2

/- The tokens and lines read so far have no part in how a scanner reads on. -/

namespace Scanner

def moved (f : List Token → List Token) (h : BitVec 32 → BitVec 32) (sc : Scanner) : Scanner :=
  { sc with tokens := f sc.tokens, line := h sc.line }

/-- A move that a word becoming a token and a new line do not see. -/
structure Moves (f : List Token → List Token) (h : BitVec 32 → BitVec 32) : Prop where
  push : ∀ tokens word line, (fun tk => f tokens ++ [tk]) <$> parse word (h line) =
    (fun tk => f (tokens ++ [tk])) <$> parse word line
  lines : ∀ line, h (line + 1) = h line + 1

variable {f : List Token → List Token} {h : BitVec 32 → BitVec 32}

theorem pushWord_moved (moves : Moves f h) (sc : Scanner) :
    (sc.moved f h).pushWord = moved f h <$> sc.pushWord := by
  have push := moves.push sc.tokens sc.word sc.line
  unfold pushWord moved
  dsimp only at push ⊢
  cases parsed : parse sc.word sc.line with
  | error e =>
    rw [parsed] at push
    cases shifted : parse sc.word (h sc.line) with
    | error e' =>
      rw [shifted] at push
      cases push
      rfl
    | ok tk =>
      rw [shifted] at push
      cases push
  | ok tk =>
    rw [parsed] at push
    cases shifted : parse sc.word (h sc.line) with
    | error e =>
      rw [shifted] at push
      cases push
    | ok tk' =>
      rw [shifted] at push
      have same : f sc.tokens ++ [tk'] = f (sc.tokens ++ [tk]) := Except.ok.inj push
      change Except.ok _ = Except.ok _
      rw [same]

theorem flushWord_moved (moves : Moves f h) (sc : Scanner) :
    (sc.moved f h).flushWord = moved f h <$> sc.flushWord := by
  by_cases pending : sc.word ≠ []
  · have pending' : (sc.moved f h).word ≠ [] := pending
    rw [flushWord, flushWord, if_pos pending, if_pos pending']
    exact pushWord_moved moves sc
  · have empty : ¬ (sc.moved f h).word ≠ [] := pending
    rw [flushWord, flushWord, if_neg pending, if_neg empty]
    rfl

theorem bind_moved {x : Except Failure Scanner} {k k' : Scanner → Except Failure Scanner}
    (same : ∀ sc, k (sc.moved f h) = moved f h <$> k' sc) :
    ((moved f h <$> x) >>= k) = moved f h <$> (x >>= k') := by
  cases x with
  | error e => rfl
  | ok sc => exact same sc

theorem quoted_moved (moves : Moves f h) (sc : Scanner) (c : BitVec 8) (e : Bool) :
    (sc.moved f h).quoted c e = moved f h <$> sc.quoted c e := by
  unfold quoted
  split
  · rfl
  · dsimp only
    split
    · have pushed := pushWord_moved moves { sc with word := sc.word ++ [c] }
      unfold moved at pushed ⊢
      rw [pushed]
      exact bind_moved fun _ => rfl
    · rfl

theorem plain_moved (moves : Moves f h) (sc : Scanner) (c : BitVec 8) :
    (sc.moved f h).plain c = moved f h <$> sc.plain c := by
  unfold plain
  split
  · rfl
  · split
    · rfl
    · split
      · rw [flushWord_moved moves]
        exact bind_moved fun _ => rfl
      · split
        · rw [flushWord_moved moves]
          refine bind_moved fun m => ?_
          split
          · have line : h m.line + 1 = h (m.line + 1) := (moves.lines m.line).symm
            change Except.ok { m.moved f h with line := h m.line + 1 } = _
            rw [line]
            rfl
          · rfl
        · split <;> rfl

theorem step_moved (moves : Moves f h) (sc : Scanner) (c : BitVec 8) :
    (sc.moved f h).step c = moved f h <$> sc.step c := by
  rcases sc with ⟨tokens, word, line, quotes, comment, escape⟩
  cases quotes with
  | true => exact quoted_moved moves ⟨tokens, word, line, true, comment, false⟩ _ escape
  | false =>
    cases comment with
    | true =>
      have later : h line + 1#32 = h (line + 1#32) := (moves.lines line).symm
      unfold step moved
      dsimp only
      generalize (if escape = true then escapeCharacter c else c) = d
      by_cases newline : d = chr '\n' <;> simp [newline, Functor.map, Except.map, later]
    | false => exact plain_moved moves ⟨tokens, word, line, false, false, false⟩ _

theorem scan_moved (moves : Moves f h) (sc : Scanner) (text : Str) :
    text.foldlM step (sc.moved f h) = moved f h <$> text.foldlM step sc := by
  induction text generalizing sc with
  | nil => rfl
  | cons c cs ih =>
    rw [List.foldlM_cons, List.foldlM_cons, step_moved moves]
    exact bind_moved ih

def after (earlier : List Token) (sc : Scanner) : Scanner :=
  { sc with tokens := earlier ++ sc.tokens }

theorem after_moves (earlier : List Token) : Moves (earlier ++ ·) id where
  push tokens word line := by simp [List.append_assoc]
  lines _ := rfl

theorem scan_after (earlier : List Token) (sc : Scanner) (text : Str) :
    text.foldlM step (sc.after earlier) = after earlier <$> text.foldlM step sc :=
  scan_moved (after_moves earlier) sc text

theorem flushWord_after (earlier : List Token) (sc : Scanner) :
    (sc.after earlier).flushWord = after earlier <$> sc.flushWord :=
  flushWord_moved (after_moves earlier) sc

end Scanner

theorem split_append {before text : Str} {sc : Scanner} {later : List Token}
    (scanned : before.foldlM Scanner.step {} = .ok sc) (idle : sc.Idle)
    (rest : tokensFrom sc.line text = .ok later) :
    split (before ++ text) = .ok (sc.tokens ++ later) := by
  obtain ⟨m, scanned', rest'⟩ := bind_ok_iff.mp rest
  obtain ⟨m', flushed, eq⟩ := bind_ok_iff.mp rest'
  cases eq
  have start : Scanner.after sc.tokens { line := sc.line } = sc := by
    rw [Scanner.after, List.append_nil]
    exact idle.symm
  refine bind_ok_iff.mpr ⟨m.after sc.tokens, ?_, bind_ok_iff.mpr ⟨m'.after sc.tokens, ?_, rfl⟩⟩
  · refine run_append_iff.mpr ⟨sc, scanned, ?_⟩
    have later := Scanner.scan_after sc.tokens { line := sc.line } text
    rw [start, scanned'] at later
    exact later
  · rw [Scanner.flushWord_after, flushed]
    rfl

/-- What a directive named name appends when it reads the string s. -/
def Appends (name : String) (s new : Str) : Prop :=
  ∀ env nested line line' a b tokens, a.tokens = ⟨.string, line, s⟩ :: tokens →
    directive env nested ⟨.directive, line', lit name⟩ a = .ok ((), b) →
    b.tokens = tokens ∧ ∀ n, b.state.bytes n =
      if n = a.state.current then a.state.bytes n ++ new else a.state.bytes n

theorem appends_of_data {name : String} {s new : Str} {x : Statement}
    (reads : ∀ env rpath line line' tokens, directiveStatement env rpath
      ⟨.directive, line', lit name⟩ (⟨.string, line, s⟩ :: tokens) = .ok (.stmt x, tokens))
    (output : ∀ bs, x.output bs = bs ++ new) : Appends name s new := by
  intro env nested line line' a b tokens begins run
  obtain ⟨played, rest, read, done⟩ := (directive_reads env nested a.realpath _ a ((), b) rfl).mp run
  rw [begins, reads env a.realpath line line' tokens] at read
  cases read
  obtain ⟨t, step, rfl⟩ := play_stmt_ok_iff.mp done
  refine ⟨rfl, fun n => ?_⟩
  rw [(Statement.exec_effect step).bytes, output]

theorem ascii_appends (s : Str) : Appends ".ascii" s s := by
  refine appends_of_data (x := .data .byte s) (fun _ _ _ _ _ => rfl) fun bs => ?_
  rw [Statement.output, Statement.padded_of_unaligned rfl]

theorem string_appends (s : Str) : Appends ".string" s (s ++ [0]) := by
  refine appends_of_data (x := .data .byte (s ++ [0])) (fun _ _ _ _ _ => rfl) fun bs => ?_
  rw [Statement.output, Statement.padded_of_unaligned rfl]

/-- A literal comes back as one token with its own text, between any texts before and after
    it, exactly when it has no backslash in it. -/
theorem literal_round_trip_iff {before after s : Str} {sc : Scanner} {later : List Token}
    (scanned : before.foldlM Scanner.step {} = .ok sc) (idle : sc.Idle)
    (rest : tokensFrom sc.line after = .ok later) :
    (split (before ++ (quote s ++ after)) =
        .ok (sc.tokens ++ ⟨.string, sc.line, s⟩ :: later) ∧
      Appends ".ascii" s s ∧ Appends ".string" s (s ++ [0])) ↔ chr '\\' ∉ s := by
  constructor
  · intro h
    have clean := tokensFrom_clean ((split_eq_tokensFrom _).symm.trans h.1)
    exact clean ⟨.string, sc.line, s⟩ (by simp)
  · intro clean
    refine ⟨?_, ascii_appends s, string_appends s⟩
    have literal := run_append_iff.mpr ⟨sc, scanned, Scanner.scan_quote idle clean⟩
    rw [← List.append_assoc, split_append literal rfl rest, List.append_assoc]
    rfl

theorem literal_round_trip_quotes : split (lit "a b, \"say \\\"hi\\\"\" c") =
    .ok [⟨.symbol, 1, lit "a"⟩, ⟨.symbol, 1, lit "b"⟩, ⟨.string, 1, lit "say \"hi\""⟩,
      ⟨.symbol, 1, lit "c"⟩] :=
  ((@literal_round_trip_iff (lit "a b, ") (lit " c") (lit "say \"hi\"")
    { tokens := [⟨.symbol, 1, lit "a"⟩, ⟨.symbol, 1, lit "b"⟩] } [⟨.symbol, 1, lit "c"⟩]
    (by decide +kernel) rfl (by decide +kernel)).mpr (by decide +kernel)).1

theorem literal_backslash_lost :
    split (quote (lit "\\")) ≠ .ok [⟨.string, 1, lit "\\"⟩] := by
  decide +kernel

end BigAsm
