import Mathlib
import BigAsm.Layout

/- Statements of two sections do not see each other: a block of statements is a function of its
   own section, and what it adds to the shared maps commutes with what the other block adds. -/
namespace BigAsm
open ByteStore Runs OrderedMaps

/-- What a block adds to the symbols, the schedule and the globals. -/
structure Contribution where
  symbols : List (Str × SymbolLocation) := []
  ops : List (Str × ScheduledOp) := []
  globals : List Str := []

namespace Contribution

def append (k l : Contribution) : Contribution :=
  ⟨k.symbols ++ l.symbols, k.ops ++ l.ops, k.globals ++ l.globals⟩

def into (k : Contribution) (s : State) : State :=
  { s with
    lookup := emplaceAll s.lookup k.symbols
    schedule := pushAll s.schedule k.ops
    globals := insertAll s.globals k.globals }

theorem into_into (k l : Contribution) (s : State) : l.into (k.into s) = (k.append l).into s := by
  simp only [into, append, emplaceAll, pushAll, insertAll, List.foldl_append]

end Contribution

namespace Statement

def attaches (x : Statement) (name : Str) (sect : Section) : List (Str × SymbolLocation) :=
  if x.flushes then
    sect.labelQueue.map fun l => (l, endOf name (x.padded sect.output.bytes))
  else []

def exports : Statement → List Str
  | .global sym => [sym]
  | _ => []

def adds (x : Statement) (name : Str) (sect : Section) : Contribution :=
  ⟨x.attaches name sect, (x.schedules name sect.output.bytes).toList, x.exports⟩

theorem commit_eq (x : Statement) (s : State) (sect : Section) :
    x.commit s sect = (x.adds s.current s.currentSection).into (s.putSection s.current sect) := by
  have symbols : x.symbols s = emplaceAll s.lookup (x.attaches s.current s.currentSection) := by
    unfold Statement.symbols attaches
    split
    · rw [emplaceAll, List.foldl_map]
      rfl
    · rfl
  have schedule : x.schedule s =
      pushAll s.schedule (x.schedules s.current (s.bytes s.current)).toList := by
    unfold Statement.schedule
    cases x.schedules s.current (s.bytes s.current) <;> rfl
  have globals : x.globals s = insertAll s.globals x.exports := by
    cases x <;> rfl
  unfold commit
  rw [symbols, schedule, globals]
  rfl

/-- A block of statements of one section, run on that section alone. -/
def play (name : Str) : Section → List Statement → Except Failure (Section × Contribution)
  | own, [] => .ok (own, {})
  | own, x :: xs => do
    let next ← x.act own
    let (last, k) ← play name next xs
    return (last, (x.adds name own).append k)

def Stays (x : Statement) : Prop := ∀ name, x ≠ .sect name

theorem execAll_play {xs : List Statement} (stay : ∀ x ∈ xs, x.Stays) (s : State) :
    execAll s xs =
      (fun r : Section × Contribution => r.2.into (s.putSection s.current r.1)) <$>
        play s.current s.currentSection xs := by
  induction xs generalizing s with
  | nil =>
    refine congrArg Except.ok ?_
    change s = s.putSection s.current s.currentSection
    rw [s.putSection_same]
  | cons x xs ih =>
    have step : execAll s (x :: xs) = x.exec s >>= fun m => execAll m xs := List.foldlM_cons
    rw [step, exec_eq s (stay x (by simp))]
    cases acted : x.act s.currentSection with
    | error e =>
      simp only [play, acted]
      rfl
    | ok next =>
      have later := ih (fun y mem => stay y (by simp [mem])) (x.commit s next)
      have here : (x.commit s next).currentSection = next := s.currentSection_putSection next
      change execAll (x.commit s next) xs = _
      rw [later, here]
      simp only [play, acted]
      change _ <$> play s.current next xs = _ <$> (play s.current next xs >>= _)
      cases play s.current next xs with
      | error e => rfl
      | ok r =>
        refine congrArg Except.ok ?_
        change r.2.into ((x.commit s next).putSection s.current r.1) =
          ((x.adds s.current s.currentSection).append r.2).into (s.putSection s.current r.1)
        rw [← Contribution.into_into, commit_eq]
        have twice := s.putSection_putSection s.current next r.1
        rw [← twice]
        rfl

theorem act_waiting {x : Statement} {own next : Section} (run : x.act own = .ok next) :
    next.labelQueue = x.waiting own.labelQueue := by
  have aligned : ∀ {a : BitVec 64} {m : Section}, own.alignWithLabels a = .ok m →
      m.labelQueue = [] := by
    intro a m done
    obtain ⟨_, -, rest⟩ := bind_ok_iff.mp done
    rw [← pure_ok_iff.mp rest]
  cases x with
  | label name | endfunc _ | type _ _ | global _ | sect _ | execonly | readonly =>
    cases run
    rfl
  | opcode code wf =>
    obtain ⟨m, first, rest⟩ := bind_ok_iff.mp run
    refine run_invariant (fun sect : Section => sect.labelQueue = []) (fun a w b empty step => ?_)
      (aligned first) rest
    rw [(Section.addOutput_ok step).2, empty]
  | db value => exact (Section.addOutput_ok run).2
  | data scale bytes | size sym =>
    obtain ⟨m, first, rest⟩ := bind_ok_iff.mp run
    exact (Section.addOutput_ok rest).2.trans (aligned first)
  | resb times => exact (Section.allocate_ok run).2
  | reserve scale times =>
    obtain ⟨m, first, rest⟩ := bind_ok_iff.mp run
    exact (Section.allocate_ok rest).2.trans (aligned first)
  | align a => exact (Section.align_ok run).2
  | finishLabels => exact aligned run
  | org base =>
    change (if own.size > 0 then _ else Except.ok (own.setBaseAddress base)) = Except.ok next at run
    split at run
    · cases run
    · cases run
      rfl

theorem play_symbols {name : Str} {own last : Section} {xs : List Statement} {k : Contribution}
    (run : play name own xs = .ok (last, k)) :
    ∀ e ∈ k.symbols, e.1 ∈ own.labelQueue ∨ e.1 ∈ xs.flatMap declares := by
  induction xs generalizing own k with
  | nil =>
    cases run
    simp
  | cons x xs ih =>
    obtain ⟨next, acted, rest⟩ := bind_ok_iff.mp run
    obtain ⟨⟨last', l⟩, later, done⟩ := bind_ok_iff.mp rest
    cases done
    intro e mem
    rcases List.mem_append.mp mem with here | there
    · change e ∈ x.attaches name own at here
      unfold attaches at here
      split at here
      · obtain ⟨l, waiting, rfl⟩ := List.mem_map.mp here
        exact Or.inl waiting
      · cases here
    · rw [List.flatMap_cons, List.mem_append]
      rcases ih later e there with waiting | declared
      · rw [act_waiting acted, waiting_eq] at waiting
        split at waiting
        · cases waiting
        · rcases List.mem_append.mp waiting with old | new
          · exact Or.inl old
          · exact Or.inr (Or.inl new)
      · exact Or.inr (Or.inr declared)

end Statement

structure QueuesApart (s : State) (declared : List Str) : Prop where
  known : ∀ n, ∀ l ∈ s.queue n, l ∈ declared
  apart : ∀ n m, n ≠ m → ∀ l ∈ s.queue n, l ∉ s.queue m

theorem QueuesApart.exec {s t : State} {x : Statement} {declared : List Str}
    (h : QueuesApart s declared) (new : ∀ l ∈ x.declares, l ∉ declared) (run : x.exec s = .ok t) :
    QueuesApart t (declared ++ x.declares) := by
  have effect := Statement.exec_effect run
  -- a label of a queue was there before, or is the one declared here
  have cases_ : ∀ n, ∀ l ∈ t.queue n, l ∈ s.queue n ∨ n = s.current ∧ l ∈ x.declares := by
    intro n l mem
    rw [effect.queue] at mem
    split at mem
    · rename_i here
      rw [Statement.waiting_eq] at mem
      split at mem
      · cases mem
      · rcases List.mem_append.mp mem with old | declares
        · exact Or.inl old
        · exact Or.inr ⟨here, declares⟩
    · exact Or.inl mem
  refine ⟨fun n l mem => ?_, fun n m other l inN inM => ?_⟩
  · rw [List.mem_append]
    rcases cases_ n l mem with old | ⟨-, declares⟩
    · exact Or.inl (h.known n l old)
    · exact Or.inr declares
  · rcases cases_ n l inN with old | ⟨here, declares⟩
    · rcases cases_ m l inM with old' | ⟨-, declares⟩
      · exact h.apart n m other l old old'
      · exact new l declares (h.known n l old)
    · rcases cases_ m l inM with old' | ⟨here', -⟩
      · exact new l declares (h.known m l old')
      · exact other (here.trans here'.symm)

theorem QueuesApart.run {s t : State} {xs : List Statement} {declared : List Str}
    (h : QueuesApart s declared) (once : (declared ++ xs.flatMap Statement.declares).Nodup)
    (run : execAll s xs = .ok t) : QueuesApart t (declared ++ xs.flatMap Statement.declares) := by
  induction xs generalizing s declared with
  | nil =>
    rw [← run_nil_iff.mp run, List.flatMap_nil, List.append_nil]
    exact h
  | cons x xs ih =>
    obtain ⟨m, first, rest⟩ := run_cons_iff.mp run
    rw [List.flatMap_cons, ← List.append_assoc] at once ⊢
    refine ih (h.exec (fun l declares old => ?_) first) once rest
    have front := (List.nodup_append.mp once).1
    exact (List.nodup_append.mp front).2.2 l old l declares rfl

theorem QueuesApart.new (options : Options) : QueuesApart (State.new options) [] := by
  have empty : ∀ n, (State.new options).queue n = [] := fun n => (State.new_empty options n).2
  refine ⟨fun n l mem => ?_, fun n m _ l mem => ?_⟩
  · simp [empty] at mem
  · simp [empty] at mem

theorem execAll_block {s : State} {A : Str} (known : A ∈ s.sections) {xs : List Statement}
    (stay : ∀ x ∈ xs, x.Stays) :
    execAll s (.sect A :: xs) =
      (fun r : Section × Contribution => r.2.into ((s.setSection A).putSection A r.1)) <$>
        Statement.play A (s.sectionAt A) xs := by
  have step : execAll s (.sect A :: xs) = execAll (s.setSection A) xs := rfl
  have here : (s.setSection A).currentSection = s.sectionAt A :=
    s.sectionAt_setSection_of_mem A known
  rw [step, Statement.execAll_play stay, here]
  rfl

/-- t and t' are the same but for the order of the scheduled operations of each name. -/
structure SameUpToOrder (t t' : State) : Prop where
  options : t.options = t'.options
  sections : t.sections = t'.sections
  current : t.current = t'.current
  lookup : t.lookup = t'.lookup
  globals : t.globals = t'.globals
  schedule : ∀ name : Str,
    ((t.schedule[name]?).getD []).Perm ((t'.schedule[name]?).getD [])

def Agree : Except Failure State → Except Failure State → Prop
  | .ok t, .ok t' => SameUpToOrder t t'
  | .error _, .error _ => True
  | _, _ => False

def twoBlocks (s : State) (A B : Str) (a b : Section × Contribution) : State :=
  b.2.into (((a.2.into ((s.setSection A).putSection A a.1)).setSection B).putSection B b.1)

theorem execAll_two {s : State} {A B C : Str} {P Q : List Statement} (distinct : A ≠ B)
    (knownA : A ∈ s.sections) (knownB : B ∈ s.sections) (stayP : ∀ x ∈ P, x.Stays)
    (stayQ : ∀ x ∈ Q, x.Stays) :
    execAll s (.sect A :: P ++ .sect B :: Q ++ [.sect C]) = do
      let a ← Statement.play A (s.sectionAt A) P
      let b ← Statement.play B (s.sectionAt B) Q
      return (twoBlocks s A B a b).setSection C := by
  have split : execAll s (.sect A :: P ++ .sect B :: Q ++ [.sect C]) =
      execAll s (.sect A :: P) >>= fun m => execAll m (.sect B :: Q) >>= fun t =>
        .ok (t.setSection C) := by
    rw [execAll, List.foldlM_append, List.foldlM_append, bind_assoc]
    rfl
  rw [split, execAll_block knownA stayP]
  cases Statement.play A (s.sectionAt A) P with
  | error e => rfl
  | ok a =>
    let m := a.2.into ((s.setSection A).putSection A a.1)
    have opened : A ∈ (s.setSection A).sections := (s.setSection A).currentMem
    have knownB' : B ∈ m.sections := by
      change B ∈ ((s.setSection A).putSection A a.1).sections
      rw [State.mem_putSection]
      exact Std.ExtTreeMap.mem_insertIfNew.mpr (Or.inr knownB)
    have other : m.sectionAt B = s.sectionAt B := by
      change ((s.setSection A).putSection A a.1).sectionAt B = _
      rw [State.sectionAt_putSection _ opened, if_neg (Ne.symm distinct),
        s.sectionAt_setSection_of_mem A knownB]
    change (execAll m (.sect B :: Q) >>= fun t => .ok (t.setSection C)) = _
    rw [execAll_block knownB' stayQ, other]
    change _ = Statement.play B (s.sectionAt B) Q >>= _
    cases Statement.play B (s.sectionAt B) Q <;> rfl

theorem twoBlocks_section {s : State} {A B : Str} (distinct : A ≠ B) (knownA : A ∈ s.sections)
    (knownB : B ∈ s.sections) (a b : Section × Contribution) (n : Str) :
    (twoBlocks s A B a b).sections[n]? =
      if n = A then some a.1 else if n = B then some b.1 else s.sections[n]? := by
  simp only [twoBlocks, Contribution.into, State.putSection, State.setSection,
    Std.ExtTreeMap.getElem?_modify, Std.ExtTreeMap.getElem?_insertIfNew,
    Std.LawfulEqCmp.compare_eq_iff_eq, Std.ExtTreeMap.mem_modify, Std.ExtTreeMap.mem_insertIfNew]
  by_cases inA : n = A
  · subst inA
    simp [knownA, Ne.symm distinct]
  · by_cases inB : n = B
    · subst inB
      simp [knownA, knownB, Ne.symm inA, inA]
    · simp [knownA, knownB, Ne.symm inA, Ne.symm inB, inA, inB]

theorem sections_independent {options : Options} {s : State} {xs P Q : List Statement}
    {A B C : Str} (reached : execAll (State.new options) xs = .ok s)
    (once : (xs.flatMap Statement.declares).Nodup) (distinct : A ≠ B) (knownA : A ∈ s.sections)
    (knownB : B ∈ s.sections) (stayP : ∀ x ∈ P, x.Stays) (stayQ : ∀ x ∈ Q, x.Stays)
    (apart : ∀ l ∈ P.flatMap Statement.declares, l ∉ Q.flatMap Statement.declares)
    (freshP : ∀ l ∈ P.flatMap Statement.declares, l ∉ xs.flatMap Statement.declares)
    (freshQ : ∀ l ∈ Q.flatMap Statement.declares, l ∉ xs.flatMap Statement.declares) :
    Agree (execAll s (.sect A :: P ++ .sect B :: Q ++ [.sect C]))
      (execAll s (.sect B :: Q ++ .sect A :: P ++ [.sect C])) := by
  have queues : QueuesApart s (xs.flatMap Statement.declares) :=
    (QueuesApart.new options).run once reached
  rw [execAll_two distinct knownA knownB stayP stayQ,
    execAll_two (Ne.symm distinct) knownB knownA stayQ stayP]
  cases playP : Statement.play A (s.sectionAt A) P with
  | error e =>
    cases Statement.play B (s.sectionAt B) Q <;> exact True.intro
  | ok a =>
    cases playQ : Statement.play B (s.sectionAt B) Q with
    | error e => exact True.intro
    | ok b =>
      -- no label is attached by both blocks
      have different : ∀ e ∈ a.2.symbols, ∀ f ∈ b.2.symbols, e.1 ≠ f.1 := by
        intro e memP f memQ same
        have fromP := Statement.play_symbols playP e memP
        have fromQ := Statement.play_symbols playQ f memQ
        rw [← same] at fromQ
        rcases fromP with waits | declared
        · rcases fromQ with waits' | declared'
          · exact queues.apart A B distinct e.1 waits waits'
          · exact freshQ e.1 declared' (queues.known A e.1 waits)
        · rcases fromQ with waits' | declared'
          · exact freshP e.1 declared (queues.known B e.1 waits')
          · exact apart e.1 declared declared'
      have sections : (twoBlocks s A B a b).sections = (twoBlocks s B A b a).sections := by
        apply Std.ExtTreeMap.ext_getElem?
        intro n
        rw [twoBlocks_section distinct knownA knownB,
          twoBlocks_section (Ne.symm distinct) knownB knownA]
        by_cases inA : n = A
        · subst inA
          simp [distinct]
        · simp [inA]
      change SameUpToOrder ((twoBlocks s A B a b).setSection C) ((twoBlocks s B A b a).setSection C)
      refine ⟨rfl, ?_, rfl, emplaceAll_comm _ different, insertAll_comm _ _ _, fun name => ?_⟩
      · simp only [State.setSection, sections]
      · change ((pushAll (pushAll s.schedule a.2.ops) b.2.ops)[name]?.getD []).Perm
          ((pushAll (pushAll s.schedule b.2.ops) a.2.ops)[name]?.getD [])
        simp only [getD_pushAll, List.append_assoc]
        exact List.Perm.append_left _ List.perm_append_comm

def twoSections : State := result (execAll (State.new {}) [.sect (lit ".data"), .label (lit "top")])

theorem text_and_data_commute :
    Agree
      (execAll twoSections (.sect (lit ".text") ::
        [.label (lit "a"), .data .word [1, 2, 3, 4], .endfunc (lit "f")] ++ .sect (lit ".data") ::
        [.label (lit "b"), .reserve .half 3, .endfunc (lit "f")] ++ [.sect (lit ".bss")]))
      (execAll twoSections (.sect (lit ".data") ::
        [.label (lit "b"), .reserve .half 3, .endfunc (lit "f")] ++ .sect (lit ".text") ::
        [.label (lit "a"), .data .word [1, 2, 3, 4], .endfunc (lit "f")] ++ [.sect (lit ".bss")])) := by
  have ran : (execAll (State.new {}) [.sect (lit ".data"), .label (lit "top")]).isOk = true ∧
      lit ".text" ∈ twoSections.sections ∧ lit ".data" ∈ twoSections.sections := by decide +kernel
  obtain ⟨ok, text, data⟩ := ran
  refine sections_independent (eq_ok_result ok) (by decide) (by decide) text data ?_ ?_ (by decide)
    (by decide) (by decide)
  · simp [Statement.Stays]
  · simp [Statement.Stays]

end BigAsm
