import Mathlib
import BigAsm.Lines

/- Comments as white space: a text with every comment cut down to one newline has the tokens of
   the whole text, unless a comment begins right behind a word. -/
namespace BigAsm
open Runs

def Mode.opens (m : Mode) (c : BitVec 8) : Bool :=
  !m.quotes && !m.comment && !m.escape && c == chr ';'

/-- A text with each comment replaced by a newline. The flag says that a comment is being cut,
    which its newline ends. -/
def uncommentFrom : Mode → Bool → Str → Str
  | _, _, [] => []
  | m, true, c :: cs => uncommentFrom m (c != chr '\n') cs
  | m, false, c :: cs =>
    if m.opens c then chr '\n' :: uncommentFrom m true cs
    else c :: uncommentFrom (m.next c) false cs

def uncomment (s : Str) : Str := uncommentFrom {} false s

/-- No comment that a newline ends begins while a word is pending. -/
def DetachedFrom : Mode → Str → Prop
  | _, [] => True
  | m, c :: cs =>
    (m.opens c = true → chr '\n' ∈ cs → m.pending = false) ∧ DetachedFrom (m.next c) cs

def Detached (s : Str) : Prop := DetachedFrom {} s

instance decidableDetachedFrom : ∀ m s, Decidable (DetachedFrom m s)
  | _, [] => .isTrue trivial
  | m, c :: cs =>
    have := decidableDetachedFrom (m.next c) cs
    inferInstanceAs (Decidable ((m.opens c = true → chr '\n' ∈ cs → m.pending = false) ∧
      DetachedFrom (m.next c) cs))

instance (s : Str) : Decidable (Detached s) := decidableDetachedFrom {} s

example : uncomment (lit "a ;b;c\n\";d\" e;f") = lit "a \n\";d\" e\n" := by decide +kernel

def tokensAfter (sc : Scanner) (text : Str) : Except Failure (List Token) := do
  let sc ← text.foldlM Scanner.step sc
  let sc ← sc.flushWord
  return sc.tokens

theorem tokensAfter_cons (sc : Scanner) (c : BitVec 8) (cs : Str) :
    tokensAfter sc (c :: cs) = sc.step c >>= fun m => tokensAfter m cs := by
  unfold tokensAfter
  rw [List.foldlM_cons, bind_assoc]

theorem tokensAfter_nil (sc : Scanner) : tokensAfter sc [] =
    if sc.word ≠ [] then (fun tk => sc.tokens ++ [tk]) <$> parse sc.word sc.line
    else .ok sc.tokens := by
  change (sc.flushWord >>= fun sc => pure sc.tokens) = _
  unfold Scanner.flushWord Scanner.pushWord
  split
  · cases parse sc.word sc.line <;> rfl
  · rfl

def Scanner.commented (sc : Scanner) : Scanner := { sc with beginComment := true }

def Scanner.uncommented (sc : Scanner) : Scanner := { sc with line := sc.line + 1 }

theorem opens_iff {sc : Scanner} {c : BitVec 8} :
    sc.mode.opens c = true ↔ sc.Outside ∧ c = chr ';' := by
  simp [Mode.opens, Scanner.Outside, Scanner.mode, and_assoc]

theorem step_opens {sc : Scanner} {c : BitVec 8} (opens : sc.mode.opens c = true) :
    sc.step c = .ok sc.commented := by
  obtain ⟨⟨quotes, comment, escape⟩, rfl⟩ := opens_iff.mp opens
  rcases sc with ⟨tokens, word, line, _, _, _⟩
  subst quotes comment escape
  rfl

theorem step_commented {sc : Scanner} (outside : sc.Outside) (c : BitVec 8) :
    sc.commented.step c = .ok (if c = chr '\n' then sc.uncommented else sc.commented) := by
  obtain ⟨quotes, comment, escape⟩ := outside
  rcases sc with ⟨tokens, word, line, _, _, _⟩
  subst quotes comment escape
  by_cases newline : c = chr '\n' <;>
    simp [Scanner.step, Scanner.commented, Scanner.uncommented, newline]

theorem tokensAfter_unended {sc : Scanner} (outside : sc.Outside) {rest : Str}
    (unended : chr '\n' ∉ rest) : tokensAfter sc.commented rest = tokensAfter sc [] := by
  induction rest with
  | nil => rw [tokensAfter_nil, tokensAfter_nil, Scanner.commented]
  | cons c cs ih =>
    have other : c ≠ chr '\n' := fun eq => unended (by simp [eq])
    rw [tokensAfter_cons, step_commented outside, if_neg other]
    exact ih fun mem => unended (by simp [mem])

theorem uncommentFrom_unended {m : Mode} {rest : Str} (unended : chr '\n' ∉ rest) :
    uncommentFrom m true rest = [] := by
  induction rest with
  | nil => rfl
  | cons c cs ih =>
    have other : (c != chr '\n') = true := bne_iff_ne.mpr fun eq => unended (by simp [eq])
    rw [uncommentFrom, other]
    exact ih fun mem => unended (by simp [mem])

theorem tokensAfter_newline {sc : Scanner} (outside : sc.Outside) :
    tokensAfter sc [chr '\n'] = tokensAfter sc [] := by
  rw [tokensAfter_cons, Scanner.step_newline outside]
  change _ = sc.flushWord >>= fun sc => pure sc.tokens
  cases flushed : sc.flushWord with
  | error e => rfl
  | ok m =>
    obtain ⟨tokens, rfl, -⟩ := Scanner.flushWord_ok flushed
    exact tokensAfter_nil _

theorem step_newline_idle {sc : Scanner} (outside : sc.Outside) (none : sc.mode.pending = false) :
    sc.step (chr '\n') = .ok sc.uncommented := by
  have empty : sc.word = [] := by simpa [Scanner.mode] using none
  rw [Scanner.step_newline outside, Scanner.flushWord, if_neg (not_not.mpr empty)]
  rfl

/-- A detached text and the text without its comments lead to one list of tokens; the second
    part is about a text that begins inside a comment. -/
theorem tokensAfter_uncomment (s : Str) :
    (∀ sc : Scanner, DetachedFrom sc.mode s →
      tokensAfter sc (uncommentFrom sc.mode false s) = tokensAfter sc s) ∧
    ∀ sc : Scanner, sc.Outside → sc.mode.pending = false → chr '\n' ∈ s →
      DetachedFrom sc.commented.mode s →
      tokensAfter sc.uncommented (uncommentFrom sc.mode true s) = tokensAfter sc.commented s := by
  induction s with
  | nil => exact ⟨fun sc _ => rfl, fun sc _ _ ended => nomatch ended⟩
  | cons c cs ih =>
    obtain ⟨plain, cutting⟩ := ih
    constructor
    · intro sc detached
      obtain ⟨here, later⟩ := detached
      cases opens : sc.mode.opens c with
      | true =>
        have first := step_opens opens
        have outside := (opens_iff.mp opens).1
        rw [(Scanner.step_stepped first).mode.symm] at later
        rw [uncommentFrom, if_pos opens, tokensAfter_cons sc c, first]
        by_cases ended : chr '\n' ∈ cs
        · have none := here opens ended
          rw [tokensAfter_cons, step_newline_idle outside none]
          exact cutting sc outside none ended later
        · rw [uncommentFrom_unended ended, tokensAfter_newline outside]
          exact (tokensAfter_unended outside ended).symm
      | false =>
        rw [uncommentFrom, opens, if_neg nofun, tokensAfter_cons, tokensAfter_cons]
        cases first : sc.step c with
        | error e => rfl
        | ok m =>
          have mode := (Scanner.step_stepped first).mode
          rw [← mode] at later ⊢
          exact plain m later
    · intro sc outside none ended detached
      obtain ⟨-, later⟩ := detached
      have first := step_commented outside c
      rw [(Scanner.step_stepped first).mode.symm] at later
      rw [uncommentFrom, tokensAfter_cons sc.commented, first]
      by_cases newline : c = chr '\n'
      · rw [if_pos newline] at later ⊢
        rw [bne_eq_false_iff_eq.mpr newline]
        exact plain sc.uncommented later
      · rw [if_neg newline] at later ⊢
        rw [bne_iff_ne.mpr newline]
        have behind : chr '\n' ∈ cs := by
          rcases List.mem_cons.mp ended with eq | mem
          · exact absurd eq.symm newline
          · exact mem
        exact cutting sc outside none behind later

theorem tokensAfter_ok_iff {sc : Scanner} {text : Str} {tokens : List Token} :
    tokensAfter sc text = .ok tokens ↔ ∃ m last, text.foldlM Scanner.step sc = .ok m ∧
      m.flushWord = .ok last ∧ last.tokens = tokens := by
  unfold tokensAfter
  simp only [bind_ok_iff, pure_ok_iff]
  constructor
  · rintro ⟨m, scanned, last, flushed, eq⟩
    exact ⟨m, last, scanned, flushed, eq⟩
  · rintro ⟨m, last, scanned, flushed, eq⟩
    exact ⟨m, scanned, last, flushed, eq⟩

theorem tokensAfter_extends {sc : Scanner} {text : Str} {tokens : List Token}
    (done : tokensAfter sc text = .ok tokens) : sc.tokens <+: tokens := by
  induction text generalizing sc with
  | nil =>
    rw [tokensAfter_nil] at done
    split at done
    · obtain ⟨tk, -, rfl⟩ := map_ok_iff.mp done
      exact List.prefix_append _ _
    · cases done
      exact List.prefix_rfl
  | cons c cs ih =>
    rw [tokensAfter_cons] at done
    obtain ⟨m, first, rest⟩ := bind_ok_iff.mp done
    have pushed := (Scanner.step_stepped first).tokens
    split at pushed
    · obtain ⟨tk, -, same⟩ := pushed
      exact (same ▸ List.prefix_append sc.tokens [tk]).trans (ih rest)
    · exact pushed ▸ ih rest

theorem getElem?_of_extended {tk : Token} {ts us : List Token} (grown : ts ++ [tk] <+: us) :
    us[ts.length]? = some tk := by
  obtain ⟨more, rfl⟩ := grown
  simp

theorem pending_line {sc : Scanner} {text : Str} {tokens : List Token} (sound : sc.mode.Sound)
    (pending : sc.mode.pending = true) (done : tokensAfter sc text = .ok tokens) :
    ∃ tk k, tokens[sc.tokens.length]? = some tk ∧ tk.line = sc.line + BitVec.ofNat 32 k ∧
      k ≤ newlines text := by
  induction text generalizing sc with
  | nil =>
    obtain ⟨m, last, scanned, flushed, rfl⟩ := tokensAfter_ok_iff.mp done
    cases run_nil_iff.mp scanned
    obtain ⟨tokens, rfl, pushed⟩ := Scanner.flushWord_ok flushed
    rw [pending, if_pos rfl] at pushed
    obtain ⟨tk, line, rfl⟩ := pushed
    exact ⟨tk, 0, by simp, by simp [line], Nat.zero_le _⟩
  | cons c cs ih =>
    rw [tokensAfter_cons] at done
    obtain ⟨m, first, rest⟩ := bind_ok_iff.mp done
    have step := Scanner.step_stepped first
    have pushed := step.tokens
    cases ends : sc.mode.ends c with
    | true =>
      rw [ends, if_pos rfl] at pushed
      obtain ⟨tk, line, same⟩ := pushed
      have grown := tokensAfter_extends rest
      rw [same] at grown
      exact ⟨tk, 0, getElem?_of_extended grown, by simp [line], Nat.zero_le _⟩
    | false =>
      rw [ends, if_neg nofun] at pushed
      obtain ⟨stays, newline⟩ := Mode.pending_next sound pending ends
      obtain ⟨tk, k, found, line, bound⟩ :=
        ih (step.mode ▸ Mode.next_sound sound c) (step.mode ▸ stays) rest
      rw [pushed] at found
      have counted := step.line
      cases counts : sc.mode.counts c with
      | true =>
        rw [counts, if_pos rfl] at counted
        refine ⟨tk, k + 1, found, ?_, ?_⟩
        · rw [line, counted, BitVec.ofNat_add, add_assoc, add_comm 1]
          rfl
        · rw [newline counts]
          simpa [newlines] using bound
      | false =>
        rw [counts, if_neg nofun] at counted
        refine ⟨tk, k, found, by rw [line, counted], bound.trans ?_⟩
        exact List.count_le_count_cons

theorem tokensAfter_commented {sc : Scanner} (outside : sc.Outside) {rest : Str}
    (ended : chr '\n' ∈ rest) : ∃ later, tokensAfter sc.commented rest = tokensAfter sc.uncommented later ∧
      newlines later + 1 = newlines rest := by
  induction rest with
  | nil => cases ended
  | cons c cs ih =>
    rw [tokensAfter_cons, step_commented outside]
    by_cases newline : c = chr '\n'
    · rw [if_pos newline]
      exact ⟨cs, rfl, by simp [newlines, newline]⟩
    · rw [if_neg newline]
      have behind : chr '\n' ∈ cs := by
        rcases List.mem_cons.mp ended with eq | mem
        · exact absurd eq.symm newline
        · exact mem
      obtain ⟨later, same, count⟩ := ih behind
      exact ⟨later, same, by rw [count]; simp [newlines, newline]⟩

theorem attached_differs {sc : Scanner} (outside : sc.Outside) (pending : sc.mode.pending = true)
    {cs rest : Str} (ended : chr '\n' ∈ cs) (short : newlines cs < 2 ^ 32) {tokens : List Token}
    (done : tokensAfter sc.commented cs = .ok tokens) :
    tokensAfter sc (chr '\n' :: rest) ≠ .ok tokens := by
  intro cut
  obtain ⟨later, same, count⟩ := tokensAfter_commented outside ended
  rw [same] at done
  have sound : sc.uncommented.mode.Sound := by
    obtain ⟨quotes, comment, -⟩ := outside
    exact ⟨fun h => absurd (quotes.symm.trans h) nofun, fun h => absurd (comment.symm.trans h) nofun⟩
  obtain ⟨tk, k, found, line, bound⟩ := pending_line sound pending done
  rw [tokensAfter_cons, Scanner.step_newline outside] at cut
  obtain ⟨m, first, others⟩ := bind_ok_iff.mp cut
  obtain ⟨m', flushed, rfl⟩ := map_ok_iff.mp first
  obtain ⟨new, rfl, pushed⟩ := Scanner.flushWord_ok flushed
  rw [pending, if_pos rfl] at pushed
  obtain ⟨tk', line', rfl⟩ := pushed
  have found' : tokens[sc.tokens.length]? = some tk' := getElem?_of_extended (tokensAfter_extends others)
  have found : tokens[sc.tokens.length]? = some tk := found
  cases found.symm.trans found'
  -- the second line is k + 1 newlines below the first, fewer than the counter can tell apart
  have same := congrArg BitVec.toNat (line'.symm.trans line)
  change sc.line.toNat = (sc.line + 1 + BitVec.ofNat 32 k).toNat at same
  have one : (1 : BitVec 32).toNat = 1 := rfl
  have width := sc.line.isLt
  rw [BitVec.toNat_add, BitVec.toNat_add, BitVec.toNat_ofNat, one] at same
  omega

theorem detachedFrom_unended {m : Mode} {s : Str} (unended : chr '\n' ∉ s) : DetachedFrom m s := by
  induction s generalizing m with
  | nil => trivial
  | cons c cs ih =>
    have later : chr '\n' ∉ cs := fun mem => unended (by simp [mem])
    exact ⟨fun _ ended => absurd ended later, ih later⟩

theorem newlines_cons (c : BitVec 8) (s : Str) : newlines s ≤ newlines (c :: s) :=
  List.count_le_count_cons

theorem tokensAfter_attached (s : Str) (short : newlines s < 2 ^ 32) (tokens : List Token) :
    (∀ sc : Scanner, ¬ DetachedFrom sc.mode s → tokensAfter sc s = .ok tokens →
      tokensAfter sc (uncommentFrom sc.mode false s) ≠ .ok tokens) ∧
    ∀ sc : Scanner, sc.Outside → ¬ DetachedFrom sc.commented.mode s →
      tokensAfter sc.commented s = .ok tokens →
      tokensAfter sc.uncommented (uncommentFrom sc.mode true s) ≠ .ok tokens := by
  induction s with
  | nil => exact ⟨fun sc attached => absurd trivial attached, fun sc _ attached => absurd trivial attached⟩
  | cons c cs ih =>
    obtain ⟨plain, cutting⟩ := ih (lt_of_le_of_lt (newlines_cons c cs) short)
    constructor
    · intro sc attached done
      rw [tokensAfter_cons] at done
      obtain ⟨m, first, rest⟩ := bind_ok_iff.mp done
      have mode := (Scanner.step_stepped first).mode
      cases opens : sc.mode.opens c with
      | true =>
        have outside := (opens_iff.mp opens).1
        cases (step_opens opens).symm.trans first
        rw [uncommentFrom, if_pos opens]
        by_cases ended : chr '\n' ∈ cs
        · cases pending : sc.mode.pending with
          | true =>
            have fewer := lt_of_le_of_lt (newlines_cons c cs) short
            exact attached_differs outside pending ended fewer rest
          | false =>
            rw [tokensAfter_cons, step_newline_idle outside pending]
            refine cutting sc outside (fun later => attached ⟨fun _ _ => pending, ?_⟩) rest
            rwa [← mode]
        · refine absurd ⟨fun _ behind => absurd behind ended, ?_⟩ attached
          exact detachedFrom_unended ended
      | false =>
        rw [uncommentFrom, opens, if_neg nofun, tokensAfter_cons, first]
        rw [← mode]
        refine plain m (fun later => attached ⟨fun h => ?_, mode ▸ later⟩) rest
        rw [opens] at h
        cases h
    · intro sc outside attached done
      have first := step_commented outside c
      have mode := (Scanner.step_stepped first).mode
      rw [tokensAfter_cons, first] at done
      have inside : sc.commented.mode.opens c = false := by simp [Mode.opens, Scanner.mode, Scanner.commented]
      have later : ¬ DetachedFrom (sc.commented.mode.next c) cs := by
        intro later
        refine attached ⟨fun h => ?_, later⟩
        rw [inside] at h
        cases h
      rw [← mode] at later
      rw [uncommentFrom]
      by_cases newline : c = chr '\n'
      · rw [if_pos newline] at later done
        rw [bne_eq_false_iff_eq.mpr newline]
        exact plain sc.uncommented later done
      · rw [if_neg newline] at later done
        rw [bne_iff_ne.mpr newline]
        exact cutting sc outside later done

/-- A text without its comments has the tokens of the whole text if no comment begins right behind
    a word; and only then, if the text is accepted and its lines can be told apart. -/
theorem comment_is_space_iff (s : Str) :
    (Detached s → split (uncomment s) = split s) ∧
      ∀ tokens, split s = .ok tokens → newlines s < 2 ^ 32 →
        (split (uncomment s) = .ok tokens ↔ Detached s) := by
  refine ⟨(tokensAfter_uncomment s).1 {}, fun tokens done short => ⟨fun same => ?_, fun detached => ?_⟩⟩
  · by_contra attached
    exact (tokensAfter_attached s short tokens).1 {} attached done same
  · exact ((tokensAfter_uncomment s).1 {} detached).trans done

theorem comment_joins_words :
    split (lit "nop;c\nret") = .ok [⟨.symbol, 2, lit "nopret"⟩] ∧
      split (uncomment (lit "nop;c\nret")) = .ok [⟨.opcode .nop, 1, lit "nop"⟩, ⟨.opcode .ret, 2, lit "ret"⟩] := by
  decide +kernel

end BigAsm
