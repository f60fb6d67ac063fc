import Mathlib
import BigAsm.Scanning

/- The line a token gets, against the lines of the source text. Newlines in quotes are not
   counted, escaped ones outside quotes are, and a word goes on behind a comment. -/
namespace BigAsm
open Runs

def newlines (text : Str) : Nat := text.count (chr '\n')

namespace Mode

def tally (p : Mode → BitVec 8 → Bool) : Mode → Str → Nat
  | _, [] => 0
  | m, c :: cs => (p m c).toNat + tally p (m.next c) cs

theorem tally_append (p : Mode → BitVec 8 → Bool) (m : Mode) (s t : Str) :
    tally p m (s ++ t) = tally p m s + tally p (s.foldl next m) t := by
  induction s generalizing m with
  | nil => simp [tally]
  | cons c cs ih =>
    simp only [List.cons_append, tally, List.foldl_cons, ih]
    omega

def quotedNewline (m : Mode) (c : BitVec 8) : Bool := m.quotes && c == chr '\n'

def escapedNewline (m : Mode) (c : BitVec 8) : Bool := !m.quotes && m.escape && c == chr 'n'

def begins (m : Mode) (c : BitVec 8) : Bool :=
  let d := m.reads c
  !m.quotes && !m.comment &&
    (startsChain d || !m.pending && !isSeparator d && d != chr ';' && d != chr '\\')

structure Sound (m : Mode) : Prop where
  quoted : m.quotes = true → m.pending = true ∧ m.comment = false
  commented : m.comment = true → m.escape = false

theorem escapeCharacter_newline (c : BitVec 8) : (escapeCharacter c == chr '\n').toNat =
    (c == chr '\n').toNat + (c == chr 'n').toNat := by
  revert c
  decide +kernel

theorem counts_balance (m : Mode) (c : BitVec 8) :
    (m.counts c).toNat + (m.quotedNewline c).toNat =
      (c == chr '\n').toNat + (m.escapedNewline c).toNat := by
  rcases m with ⟨pending, quotes, comment, escape⟩
  cases quotes with
  | true => simp [counts, quotedNewline, escapedNewline]
  | false =>
    cases escape with
    | false => simp [counts, quotedNewline, escapedNewline, reads]
    | true => simp [counts, quotedNewline, escapedNewline, reads, escapeCharacter_newline c]

theorem next_sound {m : Mode} (sound : m.Sound) (c : BitVec 8) : (m.next c).Sound := by
  cases inside : m.quotes with
  | true =>
    obtain ⟨pending, comment⟩ := sound.quoted inside
    unfold next
    simp only [inside, if_true]
    split
    · exact ⟨fun _ => ⟨pending, comment⟩, fun h => by simp_all⟩
    · split
      · exact ⟨nofun, fun _ => rfl⟩
      · exact ⟨fun _ => ⟨rfl, comment⟩, fun _ => rfl⟩
  | false =>
    unfold next
    simp only [inside, Bool.false_eq_true, if_false]
    split
    · exact ⟨fun h => by simp_all, fun _ => rfl⟩
    · rename_i comment
      have apart : m.comment = false := by simpa using comment
      split
      · exact ⟨fun h => by simp_all, fun _ => rfl⟩
      · split
        · exact ⟨fun h => by simp_all, fun h => by simp_all⟩
        · split
          · exact ⟨fun h => by simp_all, fun _ => rfl⟩
          · split
            · exact ⟨fun h => by simp_all, fun _ => rfl⟩
            · exact ⟨fun _ => ⟨rfl, apart⟩, fun _ => rfl⟩

theorem next_pending {m : Mode} (sound : m.Sound) {c : BitVec 8}
    (pending : (m.next c).pending = true) :
    m.begins c = true ∧ m.counts c = false ∨
      m.begins c = false ∧ m.pending = true := by
  cases inside : m.quotes with
  | true => exact Or.inr ⟨by simp [begins, inside], (sound.quoted inside).1⟩
  | false =>
    cases comment : m.comment with
    | true =>
      simp only [next, inside, comment, Bool.false_eq_true, if_false, if_true] at pending
      exact Or.inr ⟨by simp [begins, comment], pending⟩
    | false =>
      simp only [next, inside, comment, Bool.false_eq_true, if_false] at pending
      have begun : m.begins c = (startsChain (m.reads c) || !m.pending && !isSeparator (m.reads c) &&
          m.reads c != chr ';' && m.reads c != chr '\\') := by
        simp [begins, inside, comment]
      have counted : m.counts c = (m.reads c == chr '\n') := by simp [counts, inside]
      rw [begun, counted]
      generalize m.reads c = d at pending ⊢
      split at pending
      · rename_i semicolon
        subst semicolon
        exact Or.inr ⟨by simp [startsChain]; decide, pending⟩
      · rename_i semicolon
        split at pending
        · rename_i slash
          subst slash
          exact Or.inr ⟨by simp [startsChain]; decide, pending⟩
        · rename_i slash
          split at pending
          · rename_i chain
            have line : d ≠ chr '\n' := by
              rintro rfl
              cases chain
            exact Or.inl ⟨by simp [chain], by simp [line]⟩
          · rename_i chain
            split at pending
            · cases pending
            · rename_i separator
              have line : d ≠ chr '\n' := by
                rintro rfl
                exact separator rfl
              cases before : m.pending with
              | true => exact Or.inr ⟨by simp [chain], rfl⟩
              | false => exact Or.inl ⟨by simp [separator, semicolon, slash], by simp [line]⟩

theorem pending_next {m : Mode} (sound : m.Sound) {c : BitVec 8} (pending : m.pending = true)
    (goes : m.ends c = false) :
    (m.next c).pending = true ∧ (m.counts c = true → c = chr '\n') := by
  cases inside : m.quotes with
  | true =>
    refine ⟨?_, by simp [counts, inside]⟩
    unfold next
    unfold ends at goes
    simp only [inside, if_true] at goes ⊢
    split
    · exact pending
    · split
      · simp_all
      · rfl
  | false =>
    cases comment : m.comment with
    | true =>
      refine ⟨?_, fun line => ?_⟩
      · simp [next, inside, comment, pending]
      · simpa [counts, inside, reads, sound.commented comment] using line
    | false =>
      have apart : startsChain (m.reads c) = false ∧ isSeparator (m.reads c) = false := by
        simpa [ends, inside, comment, pending] using goes
      refine ⟨?_, fun line => ?_⟩
      · unfold next
        simp only [inside, comment, apart, Bool.false_eq_true, if_false]
        split
        · exact pending
        · split
          · exact pending
          · rfl
      · have newline : m.reads c = chr '\n' := by simpa [counts, inside] using line
        rw [newline] at apart
        exact absurd apart (by decide)

theorem ends_pending {m : Mode} (sound : m.Sound) {c : BitVec 8} (ends : m.ends c = true) :
    m.pending = true := by
  rw [Mode.ends] at ends
  cases quotes : m.quotes with
  | true => exact (sound.quoted quotes).1
  | false => simp_all

end Mode

/-- Where a word begins in the source text, and the comment lines inside it so far. -/
structure Mark where
  before : Str
  inside : Nat
  deriving DecidableEq, Repr

def Mark.next (mark : Mark) (text : Str) (m : Mode) (c : BitVec 8) : Mark :=
  if m.begins c then ⟨text, 0⟩
  else if m.counts c then { mark with inside := mark.inside + 1 } else mark

/-- The marks of the words that become tokens, in order: the words that end in the rest of the
    text, where the mark is that of the word pending before it. -/
def marksFrom (text : Str) (m : Mode) (mark : Mark) : Str → List Mark
  | [] => if m.pending then [mark] else []
  | c :: cs =>
    (if m.ends c then [mark] else []) ++
      marksFrom (text ++ [c]) (m.next c) (mark.next text m c) cs

def marks (s : Str) : List Mark := marksFrom [] {} ⟨[], 0⟩ s

def quotedNewlines (text : Str) : Nat := Mode.tally Mode.quotedNewline {} text

def escapedNewlines (text : Str) : Nat := Mode.tally Mode.escapedNewline {} text

def Counted (line : BitVec 32) (text : Str) (more : Nat) : Prop :=
  (line.toNat + quotedNewlines text) % 2 ^ 32 =
    (1 + newlines text + escapedNewlines text + more) % 2 ^ 32

theorem newlines_snoc (text : Str) (c : BitVec 8) :
    newlines (text ++ [c]) = newlines text + (c == chr '\n').toNat := by
  by_cases newline : c = chr '\n' <;> simp [newlines, newline]

theorem Counted.more {line : BitVec 32} {text : Str} {more : Nat} (counted : Counted line text more) :
    Counted (line + 1) text (more + 1) := by
  unfold Counted at counted ⊢
  rw [BitVec.toNat_add]
  have one : (1 : BitVec 32).toNat = 1 := rfl
  omega

theorem Counted.next {line line' : BitVec 32} {text : Str} {c : BitVec 8}
    (counted : Counted line text 0)
    (step : line' = if (text.foldl Mode.next {}).counts c then line + 1 else line) :
    Counted line' (text ++ [c]) 0 := by
  generalize mode : text.foldl Mode.next {} = m at step
  have balance := m.counts_balance c
  have quoted : quotedNewlines (text ++ [c]) = quotedNewlines text + (m.quotedNewline c).toNat := by
    rw [quotedNewlines, Mode.tally_append, mode]
    rfl
  have escaped : escapedNewlines (text ++ [c]) = escapedNewlines text + (m.escapedNewline c).toNat := by
    rw [escapedNewlines, Mode.tally_append, mode]
    rfl
  cases counts : m.counts c with
  | true =>
    rw [counts] at balance
    have later := counted.more
    rw [counts] at step
    cases step
    unfold Counted at later ⊢
    rw [newlines_snoc, quoted, escaped]
    simp only [Bool.toNat_true, if_true] at balance later ⊢
    omega
  | false =>
    rw [counts] at balance step
    cases step
    unfold Counted at counted ⊢
    rw [newlines_snoc, quoted, escaped]
    simp only [Bool.toNat_false, Bool.false_eq_true, if_false] at balance counted ⊢
    omega

structure Reading (sc : Scanner) (text : Str) (mark : Mark) : Prop where
  mode : sc.mode = text.foldl Mode.next {}
  sound : sc.mode.Sound
  line : Counted sc.line text 0
  word : sc.mode.pending = true → Counted sc.line mark.before mark.inside

theorem Reading.start : Reading {} [] ⟨[], 0⟩ where
  mode := rfl
  sound := ⟨nofun, nofun⟩
  line := rfl
  word := nofun

theorem Reading.next {sc sc' : Scanner} {text : Str} {mark : Mark} {c : BitVec 8}
    (h : Reading sc text mark) (step : sc.Stepped c sc') :
    Reading sc' (text ++ [c]) (mark.next text sc.mode c) := by
  refine ⟨?_, ?_, ?_, ?_⟩
  · rw [step.mode, h.mode, List.foldl_append]
    rfl
  · rw [step.mode]
    exact Mode.next_sound h.sound c
  · exact h.line.next (h.mode ▸ step.line)
  · intro pending
    rw [step.mode] at pending
    rw [step.line]
    rcases Mode.next_pending h.sound pending with ⟨begins, counts⟩ | ⟨begins, before⟩
    · simp only [Mark.next, begins, counts, if_true, Bool.false_eq_true, if_false]
      exact h.line
    · cases counts : sc.mode.counts c with
      | true =>
        simp only [Mark.next, begins, counts, if_true, Bool.false_eq_true, if_false]
        exact (h.word before).more
      | false =>
        simp only [Mark.next, begins, counts, Bool.false_eq_true, if_false]
        exact h.word before

theorem marksFrom_before {text rest : Str} {m : Mode} {mark found : Mark} (old : mark.before <+: text)
    (mem : found ∈ marksFrom text m mark rest) : found.before <+: text ++ rest := by
  induction rest generalizing text m mark with
  | nil =>
    unfold marksFrom at mem
    split at mem
    · cases List.mem_singleton.mp mem
      rwa [List.append_nil]
    · cases mem
  | cons c cs ih =>
    rcases List.mem_append.mp mem with here | later
    · split at here
      · cases List.mem_singleton.mp here
        exact old.trans (List.prefix_append _ _)
      · cases here
    · have grown : (mark.next text m c).before <+: text ++ [c] := by
        unfold Mark.next
        split
        · exact List.prefix_append _ _
        · split <;> exact old.trans (List.prefix_append _ _)
      have found := ih grown later
      rwa [List.append_assoc, List.singleton_append] at found

theorem Reading.tokens {sc sc' last : Scanner} {text rest : Str} {mark : Mark}
    (h : Reading sc text mark) (scanned : rest.foldlM Scanner.step sc = .ok sc')
    (flushed : sc'.flushWord = .ok last) : ∃ new, last.tokens = sc.tokens ++ new ∧
      List.Forall₂ (fun tk mark => Counted tk.line mark.before mark.inside) new
        (marksFrom text sc.mode mark rest) := by
  induction rest generalizing sc text mark with
  | nil =>
    cases run_nil_iff.mp scanned
    obtain ⟨tokens, rfl, pushed⟩ := Scanner.flushWord_ok flushed
    cases pending : sc'.mode.pending with
    | true =>
      rw [pending, if_pos rfl] at pushed
      obtain ⟨tk, line, rfl⟩ := pushed
      refine ⟨[tk], rfl, ?_⟩
      rw [marksFrom, pending, if_pos rfl]
      exact .cons (line ▸ h.word pending) .nil
    | false =>
      rw [pending, if_neg nofun] at pushed
      refine ⟨[], by rw [pushed, List.append_nil], ?_⟩
      rw [marksFrom, pending, if_neg nofun]
      exact .nil
  | cons c cs ih =>
    obtain ⟨m, first, later⟩ := run_cons_iff.mp scanned
    have step := Scanner.step_stepped first
    obtain ⟨new, eq, lines⟩ := ih (h.next step) later
    rw [step.mode] at lines
    have pushed := step.tokens
    rw [marksFrom]
    cases ends : sc.mode.ends c with
    | true =>
      rw [ends, if_pos rfl] at pushed
      obtain ⟨tk, line, same⟩ := pushed
      refine ⟨tk :: new, by rw [eq, same, List.append_assoc]; rfl, ?_⟩
      exact .cons (line ▸ h.word (Mode.ends_pending h.sound ends)) lines
    | false =>
      rw [ends, if_neg nofun] at pushed
      exact ⟨new, by rw [eq, pushed], lines⟩

/-- As many newlines in quotes come before the word as escaped ones outside quotes before it and
    comment lines inside it, and the line number fits into 32 bits. -/
def Mark.Balanced (mark : Mark) : Prop :=
  quotedNewlines mark.before % 2 ^ 32 = (escapedNewlines mark.before + mark.inside) % 2 ^ 32 ∧
    1 + newlines mark.before < 2 ^ 32

instance (mark : Mark) : Decidable mark.Balanced := inferInstanceAs (Decidable (_ ∧ _))

theorem Counted.right_iff {line : BitVec 32} {mark : Mark}
    (counted : Counted line mark.before mark.inside) :
    line.toNat = 1 + newlines mark.before ↔ mark.Balanced := by
  have bound := line.isLt
  unfold Counted at counted
  unfold Mark.Balanced
  omega

/-- The line of a token is one more than the newlines before its first character exactly when its
    mark is balanced. -/
theorem token_lines_iff {s : Str} {tokens : List Token} (done : split s = .ok tokens) :
    (∀ mark ∈ marks s, mark.before <+: s) ∧
      List.Forall₂ (fun tk mark => tk.line.toNat = 1 + newlines mark.before ↔ mark.Balanced)
        tokens (marks s) := by
  obtain ⟨sc, last, scanned, flushed, rfl⟩ := split_ok_iff.mp done
  obtain ⟨new, eq, lines⟩ := Reading.start.tokens scanned flushed
  have same : last.tokens = new := eq
  rw [same]
  exact ⟨fun mark mem => marksFrom_before (List.nil_prefix) mem,
    lines.imp fun tk mark counted => counted.right_iff⟩

theorem token_lines_two : ∃ tokens, split (lit "a ;x\nb") = .ok tokens ∧
    marks (lit "a ;x\nb") = [⟨[], 0⟩, ⟨lit "a ;x\n", 0⟩] ∧
    List.Forall₂ (fun tk mark => tk.line.toNat = 1 + newlines mark.before ↔ mark.Balanced)
      tokens (marks (lit "a ;x\nb")) :=
  ⟨[⟨.symbol, 1, lit "a"⟩, ⟨.symbol, 2, lit "b"⟩], by decide +kernel, by decide +kernel,
    (@token_lines_iff (lit "a ;x\nb") _ (by decide +kernel)).2⟩

theorem string_newline_uncounted : ∃ tokens, split (lit "\"a\nb\" c") = .ok tokens ∧
    ¬ List.Forall₂ (fun tk mark => tk.line.toNat = 1 + newlines mark.before) tokens
      (marks (lit "\"a\nb\" c")) := by
  refine ⟨[⟨.string, 1, lit "a\nb"⟩, ⟨.symbol, 1, lit "c"⟩], by decide +kernel, ?_⟩
  have known : marks (lit "\"a\nb\" c") = [⟨[], 0⟩, ⟨lit "\"a\nb\" ", 0⟩] := by decide +kernel
  rw [known]
  rintro (_ | ⟨_, _ | ⟨second, _⟩⟩)
  revert second
  decide +kernel

end BigAsm
