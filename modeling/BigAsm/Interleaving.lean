import Mathlib
import BigAsm.Independence
import BigAsm.Permissions
import BigAsm.Schedule
import BigAsm.Library.Simulations
import BigAsm.Library.Traces

/- Interleavings of the sections. What a source says about one section is a thread of statements,
   and .section switches between the threads. The assembler gives the same sections, addresses
   and symbols for every interleaving of the same threads. -/
namespace BigAsm
open ByteStore Runs OrderedMaps Traces

namespace Statement

def placed (current : Str) : List Statement → List (Str × Statement)
  | [] => []
  | .sect name :: xs => placed name xs
  | x :: xs => (current, x) :: placed current xs

def opens : Statement → List Str
  | .sect name => [name]
  | _ => []

theorem stays_or_sect (x : Statement) : x.Stays ∨ ∃ name, x = .sect name := by
  cases x with
  | sect name => exact Or.inr ⟨name, rfl⟩
  | _ =>
    refine Or.inl ?_
    intro name same
    cases same

theorem placed_cons {x : Statement} (stays : x.Stays) (current : Str) (xs : List Statement) :
    placed current (x :: xs) = (current, x) :: placed current xs := by
  cases x with
  | sect name => exact absurd rfl (stays name)
  | _ => rfl

theorem opens_of_stays {x : Statement} (stays : x.Stays) : x.opens = [] := by
  cases x with
  | sect name => exact absurd rfl (stays name)
  | _ => rfl

theorem placed_stays {current : Str} {xs : List Statement} :
    ∀ e ∈ placed current xs, e.2.Stays := by
  induction xs generalizing current with
  | nil => simp [placed]
  | cons x xs ih =>
    rcases x.stays_or_sect with stays | ⟨name, rfl⟩
    · rw [placed_cons stays]
      intro e mem
      rcases List.mem_cons.mp mem with rfl | later
      · exact stays
      · exact ih e later
    · exact ih

theorem placed_known {current : Str} {xs : List Statement} :
    ∀ e ∈ placed current xs, e.1 = current ∨ e.1 ∈ xs.flatMap opens := by
  induction xs generalizing current with
  | nil => simp [placed]
  | cons x xs ih =>
    rcases x.stays_or_sect with stays | ⟨name, rfl⟩
    · rw [placed_cons stays, List.flatMap_cons, opens_of_stays stays, List.nil_append]
      intro e mem
      rcases List.mem_cons.mp mem with rfl | later
      · exact Or.inl rfl
      · exact ih e later
    · intro e mem
      rw [List.flatMap_cons, List.mem_append]
      rcases ih e mem with same | opened
      · exact Or.inr (Or.inl (List.mem_singleton.mpr same))
      · exact Or.inr (Or.inr opened)

theorem placed_declares (current : Str) (xs : List Statement) :
    (placed current xs).flatMap (fun e => e.2.declares) = xs.flatMap declares := by
  induction xs generalizing current with
  | nil => rfl
  | cons x xs ih =>
    rcases x.stays_or_sect with stays | ⟨name, rfl⟩
    · rw [placed_cons stays, List.flatMap_cons, List.flatMap_cons, ih]
    · exact ih name

end Statement

def created (order : List Str) (names : List Str) : List Str :=
  names.foldl (fun order n => if order.contains n then order else order ++ [n]) order

def sectionOrder (xs : List Statement) : List Str :=
  created [lit ".text"] (xs.flatMap Statement.opens)

def lastSection (xs : List Statement) : Str :=
  xs.foldl (fun current x => x.currentAfter current) (lit ".text")

/-- Two sources say the same about every section, and differ in when they say it. -/
structure Interleaved (xs ys : List Statement) : Prop where
  threads : SameThreads Prod.fst (Statement.placed (lit ".text") xs)
    (Statement.placed (lit ".text") ys)
  order : sectionOrder xs = sectionOrder ys
  last : lastSection xs = lastSection ys

instance decidableInterleaved (xs ys : List Statement) : Decidable (Interleaved xs ys) :=
  decidable_of_iff (SameThreads Prod.fst (Statement.placed (lit ".text") xs)
      (Statement.placed (lit ".text") ys) ∧ sectionOrder xs = sectionOrder ys ∧
      lastSection xs = lastSection ys)
    ⟨fun h => ⟨h.1, h.2.1, h.2.2⟩, fun h => ⟨h.threads, h.order, h.last⟩⟩

/-- s and t are the same but for the current section and the order of the schedule. -/
structure Reordered (s t : State) : Prop where
  options : t.options = s.options
  sections : t.sections = s.sections
  lookup : t.lookup = s.lookup
  globals : t.globals = s.globals
  schedule : t.scheduled.Perm s.scheduled

namespace Reordered
variable {s m t : State}

theorem refl (s : State) : Reordered s s := ⟨rfl, rfl, rfl, rfl, .refl _⟩

theorem trans (first : Reordered s m) (second : Reordered m t) : Reordered s t where
  options := second.options.trans first.options
  sections := second.sections.trans first.sections
  lookup := second.lookup.trans first.lookup
  globals := second.globals.trans first.globals
  schedule := second.schedule.trans first.schedule

theorem symm (h : Reordered s t) : Reordered t s where
  options := h.options.symm
  sections := h.sections.symm
  lookup := h.lookup.symm
  globals := h.globals.symm
  schedule := h.schedule.symm

theorem sectionAt (h : Reordered s t) (n : Str) : t.sectionAt n = s.sectionAt n := by
  rw [State.sectionAt, h.sections, State.sectionAt]

theorem setSection (h : Reordered s t) (n : Str) :
    Reordered (s.setSection n) (t.setSection n) where
  options := h.options
  sections := by
    change t.sections.insertIfNew n _ = s.sections.insertIfNew n _
    rw [h.sections]
  lookup := h.lookup
  globals := h.globals
  schedule := h.schedule

theorem into (h : Reordered s t) (n : Str) (sect : Section) (k : Contribution) :
    Reordered (k.into (s.putSection n sect)) (k.into (t.putSection n sect)) where
  options := h.options
  sections := by
    change t.sections.modify n _ = s.sections.modify n _
    rw [h.sections]
  lookup := by
    change emplaceAll t.lookup k.symbols = emplaceAll s.lookup k.symbols
    rw [h.lookup]
  globals := by
    change insertAll t.globals k.globals = insertAll s.globals k.globals
    rw [h.globals]
  schedule := by
    have before := (flatten_pushAll_perm s.schedule k.ops).symm
    have after := flatten_pushAll_perm t.schedule k.ops
    exact (after.trans (h.schedule.append_right k.ops)).trans before

end Reordered

namespace Statement
variable {x : Statement} {s t : State}

theorem exec_into (stays : x.Stays) (s : State) : x.exec s =
    (fun sect => (x.adds s.current s.currentSection).into (s.putSection s.current sect)) <$>
      x.act s.currentSection := by
  rw [exec_eq s stays]
  exact congrArg (· <$> x.act s.currentSection) (funext fun sect => x.commit_eq s sect)

theorem exec_reordered (x : Statement) (h : Reordered s t) (current : t.current = s.current) :
    Alike Reordered (x.exec s) (x.exec t) := by
  rcases x.stays_or_sect with stays | ⟨name, rfl⟩
  · have here : t.currentSection = s.currentSection := by
      rw [State.currentSection, current, h.sectionAt, State.currentSection]
    rw [exec_into stays, exec_into stays, here, current]
    cases x.act s.currentSection with
    | error e => exact True.intro
    | ok sect => exact h.into s.current sect _
  · exact h.setSection name

def execIn (s : State) (e : Str × Statement) : Except Failure State := e.2.exec (s.setSection e.1)

theorem execIn_reordered (h : Reordered s t) (e : Str × Statement) :
    Alike Reordered (execIn s e) (execIn t e) := e.2.exec_reordered (h.setSection e.1) rfl

def after (x : Statement) (n : Str) (s : State) (sect : Section) : State :=
  (x.adds n (s.sectionAt n)).into ((s.setSection n).putSection n sect)

theorem execIn_eq {n : Str} (stays : x.Stays) (known : n ∈ s.sections) :
    execIn s (n, x) = x.after n s <$> x.act (s.sectionAt n) := by
  have here : (s.setSection n).currentSection = s.sectionAt n :=
    s.sectionAt_setSection_of_mem n known
  have step : execIn s (n, x) = x.exec (s.setSection n) := rfl
  rw [step, exec_into stays, here]
  rfl

theorem execIn_two {n m : Str} {x y : Statement} (distinct : n ≠ m) (knownN : n ∈ s.sections)
    (knownM : m ∈ s.sections) (staysX : x.Stays) (staysY : y.Stays) :
    [(n, x), (m, y)].foldlM execIn s = do
      let a ← x.act (s.sectionAt n)
      let b ← y.act (s.sectionAt m)
      return twoBlocks s n m (a, x.adds n (s.sectionAt n)) (b, y.adds m (s.sectionAt m)) := by
  rw [List.foldlM_cons, execIn_eq staysX knownN]
  cases x.act (s.sectionAt n) with
  | error e => rfl
  | ok a =>
    have there : m ∈ (x.after n s a).sections := by
      refine (State.mem_putSection ..).mpr ?_
      exact Std.ExtTreeMap.mem_insertIfNew.mpr (Or.inr knownM)
    have other : (x.after n s a).sectionAt m = s.sectionAt m := by
      have opened : n ∈ (s.setSection n).sections := (s.setSection n).currentMem
      change ((s.setSection n).putSection n a).sectionAt m = _
      rw [State.sectionAt_putSection _ opened, if_neg (Ne.symm distinct),
        s.sectionAt_setSection_of_mem n knownM]
    change [(m, y)].foldlM execIn (x.after n s a) = _
    rw [List.foldlM_cons, execIn_eq staysY there, other]
    cases y.act (s.sectionAt m) with
    | error e => rfl
    | ok b =>
      change Except.ok (y.after m (x.after n s a) b) = Except.ok _
      rw [after, other]
      rfl

theorem attaches_waiting {n m : Str} :
    ∀ e ∈ x.attaches n (s.sectionAt m), e.1 ∈ s.queue m := by
  intro e mem
  unfold attaches at mem
  split at mem
  · obtain ⟨l, waiting, rfl⟩ := List.mem_map.mp mem
    exact waiting
  · cases mem

end Statement

theorem State.setSection_sections {s : State} {n : Str} (known : n ∈ s.sections) :
    (s.setSection n).sections = s.sections := by
  apply Std.ExtTreeMap.ext_getElem?
  intro m
  refine (Std.ExtTreeMap.getElem?_insertIfNew ..).trans (if_neg ?_)
  rintro ⟨-, new⟩
  exact new known

/-- The statements can follow in any order that keeps the threads: their sections are there, and
    no label is declared twice. -/
structure CanRun (s : State) (es : List (Str × Statement)) : Prop where
  known : ∀ e ∈ es, e.1 ∈ s.sections
  stays : ∀ e ∈ es, e.2.Stays
  labels : ∃ declared, QueuesApart s declared ∧
    (declared ++ es.flatMap fun e => e.2.declares).Nodup

namespace CanRun
variable {s t : State} {e : Str × Statement} {es es' : List (Str × Statement)}

theorem next (h : CanRun s (e :: es)) (run : Statement.execIn s e = .ok t) : CanRun t es := by
  obtain ⟨declared, apart, once⟩ := h.labels
  have opened : execAll s [.sect e.1, e.2] = .ok t :=
    run_cons_iff.mpr ⟨s.setSection e.1, rfl, run_single_iff.mpr run⟩
  rw [List.flatMap_cons, ← List.append_assoc] at once
  refine ⟨fun f mem => ?_, fun f mem => h.stays f (by simp [mem]), declared ++ e.2.declares, ?_, once⟩
  · have before := h.known f (by simp [mem])
    have effect := Statement.exec_effect run
    exact effect.known f.1 (Std.ExtTreeMap.mem_insertIfNew.mpr (Or.inr before))
  · have declares : [Statement.sect e.1, e.2].flatMap Statement.declares = e.2.declares := by
      simp [Statement.declares]
    rw [← declares] at once ⊢
    exact apart.run (List.nodup_append.mp once).1 opened

theorem exchange (h : CanRun s es) (exchange : Exchange Prod.fst es es') : CanRun s es' := by
  obtain ⟨declared, apart, once⟩ := h.labels
  have perm := exchange.perm
  refine ⟨fun e mem => h.known e (perm.mem_iff.mpr mem), fun e mem => h.stays e (perm.mem_iff.mpr mem),
    declared, apart, ?_⟩
  exact ((perm.flatMap_right fun e => e.2.declares).append_left declared).nodup_iff.mp once

theorem commute {f : Str × Statement} (h : CanRun s (e :: f :: es)) (distinct : e.1 ≠ f.1) :
    Alike Reordered ([e, f].foldlM Statement.execIn s) ([f, e].foldlM Statement.execIn s) := by
  rcases e with ⟨n, x⟩
  rcases f with ⟨m, y⟩
  have knownN : n ∈ s.sections := h.known (n, x) (by simp)
  have knownM : m ∈ s.sections := h.known (m, y) (by simp)
  have staysX : x.Stays := h.stays (n, x) (by simp)
  have staysY : y.Stays := h.stays (m, y) (by simp)
  obtain ⟨declared, queues, -⟩ := h.labels
  rw [Statement.execIn_two distinct knownN knownM staysX staysY,
    Statement.execIn_two (Ne.symm distinct) knownM knownN staysY staysX]
  cases x.act (s.sectionAt n) with
  | error e =>
    cases y.act (s.sectionAt m) <;> exact True.intro
  | ok a =>
    cases y.act (s.sectionAt m) with
    | error e => exact True.intro
    | ok b =>
      have different : ∀ e ∈ x.attaches n (s.sectionAt n), ∀ f ∈ y.attaches m (s.sectionAt m),
          e.1 ≠ f.1 := by
        intro e memX f memY same
        have inM := Statement.attaches_waiting f memY
        rw [← same] at inM
        exact queues.apart n m distinct e.1 (Statement.attaches_waiting e memX) inM
      refine ⟨rfl, ?_, (emplaceAll_comm _ different).symm, (insertAll_comm _ _ _).symm, ?_⟩
      · apply Std.ExtTreeMap.ext_getElem?
        intro k
        rw [twoBlocks_section distinct knownN knownM,
          twoBlocks_section (Ne.symm distinct) knownM knownN]
        by_cases here : k = n
        · subst here
          simp [distinct]
        · simp [here]
      · have both : ∀ k l : List (Str × ScheduledOp),
            (flatten (pushAll (pushAll s.schedule k) l)).Perm (flatten s.schedule ++ (k ++ l)) := by
          intro k l
          have pushed := (flatten_pushAll_perm s.schedule k).append_right l
          rw [List.append_assoc] at pushed
          exact (flatten_pushAll_perm _ l).trans pushed
        exact (both _ _).trans ((List.perm_append_comm.append_left _).trans (both _ _).symm)

end CanRun

theorem execIn_commutes : Commutes Statement.execIn Prod.fst Reordered CanRun where
  refl := Reordered.refl
  trans _ _ _ := Reordered.trans
  respects _ _ e related := Statement.execIn_reordered related e
  next _ _ _ _ fits run := fits.next run
  exchange _ _ _ exchange fits := fits.exchange exchange
  commute _ _ _ _ fits distinct := fits.commute distinct

namespace State
variable {s t : State}

def openAll (s : State) (names : List Str) : State := names.foldl setSection s

theorem mem_openAll {n : Str} (known : n ∈ s.sections) (names : List Str) :
    n ∈ (s.openAll names).sections := by
  induction names generalizing s with
  | nil => exact known
  | cons m names ih => exact ih (Std.ExtTreeMap.mem_insertIfNew.mpr (Or.inr known))

theorem opened_openAll {n : Str} {names : List Str} (listed : n ∈ names) :
    n ∈ (s.openAll names).sections := by
  induction names generalizing s with
  | nil => cases listed
  | cons m names ih =>
    rcases List.mem_cons.mp listed with rfl | later
    · exact mem_openAll (s.setSection n).currentMem names
    · exact ih later

theorem sectionAt_openAll {n : Str} (known : n ∈ s.sections) (names : List Str) :
    (s.openAll names).sectionAt n = s.sectionAt n := by
  induction names generalizing s with
  | nil => rfl
  | cons m names ih =>
    have more : n ∈ (s.setSection m).sections := Std.ExtTreeMap.mem_insertIfNew.mpr (Or.inr known)
    exact (ih more).trans (s.sectionAt_setSection_of_mem m known)

theorem setSection_putSection {n : Str} (known : n ∈ s.sections) (m : Str) (sect : Section) :
    (s.putSection n sect).setSection m = (s.setSection m).putSection n sect := by
  refine State.ext rfl ?_ rfl rfl rfl rfl
  apply Std.ExtTreeMap.ext_getElem?
  intro k
  have size : (s.putSection n sect).sections.size = s.sections.size := Std.ExtTreeMap.size_modify
  have left : ((s.putSection n sect).setSection m).sections[k]? =
      if m = k ∧ m ∉ s.sections then some { name := m, idx := s.sections.size }
      else if n = k then (s.sections[n]?).map fun _ => sect else s.sections[k]? := by
    refine (Std.ExtTreeMap.getElem?_insertIfNew ..).trans ?_
    simp only [mem_putSection, size, Std.LawfulEqCmp.compare_eq_iff_eq]
    simp only [putSection, Std.ExtTreeMap.getElem?_modify, Std.LawfulEqCmp.compare_eq_iff_eq]
  have right : ((s.setSection m).putSection n sect).sections[k]? =
      if n = k then ((s.setSection m).sections[n]?).map fun _ => sect
      else if m = k ∧ m ∉ s.sections then some { name := m, idx := s.sections.size }
      else s.sections[k]? := by
    refine (Std.ExtTreeMap.getElem?_modify ..).trans ?_
    simp only [Std.LawfulEqCmp.compare_eq_iff_eq, setSection, Std.ExtTreeMap.getElem?_insertIfNew]
  have here : (s.setSection m).sections[n]? = s.sections[n]? := by
    refine (Std.ExtTreeMap.getElem?_insertIfNew ..).trans (if_neg ?_)
    rintro ⟨same, new⟩
    rw [Std.LawfulEqCmp.eq_of_compare same] at new
    exact new known
  rw [left, right, here]
  by_cases new : m = k ∧ m ∉ s.sections
  · have other : n ≠ k := by
      rintro rfl
      rw [new.1] at new
      exact new.2 known
    rw [if_pos new, if_neg other, if_pos new]
  · rw [if_neg new, if_neg new]

theorem openAll_into {n : Str} (known : n ∈ s.sections) (names : List Str) (k : Contribution)
    (sect : Section) : (k.into (s.putSection n sect)).openAll names =
      k.into ((s.openAll names).putSection n sect) := by
  induction names generalizing s with
  | nil => rfl
  | cons m names ih =>
    have more : n ∈ (s.setSection m).sections := Std.ExtTreeMap.mem_insertIfNew.mpr (Or.inr known)
    have moved := congrArg k.into (setSection_putSection known m sect)
    change (k.into ((s.putSection n sect).setSection m)).openAll names = _
    rw [moved]
    exact ih more

end State

theorem Reordered.openAll {s t : State} (h : Reordered s t) (names : List Str) :
    Reordered (s.openAll names) (t.openAll names) := by
  induction names generalizing s t with
  | nil => exact h
  | cons n names ih => exact ih (h.setSection n)

namespace Statement
variable {s : State}

theorem execAll_placed (s : State) (xs : List Statement) :
    Alike Reordered (execAll s xs)
      ((placed s.current xs).foldlM execIn (s.openAll (xs.flatMap opens))) := by
  induction xs generalizing s with
  | nil => exact Reordered.refl s
  | cons x xs ih =>
    rcases x.stays_or_sect with stays | ⟨name, rfl⟩
    · have known := State.mem_openAll s.currentMem (xs.flatMap opens)
      have here : (s.openAll (xs.flatMap opens)).sectionAt s.current = s.currentSection :=
        State.sectionAt_openAll s.currentMem _
      rw [placed_cons stays, List.flatMap_cons, opens_of_stays stays, List.nil_append,
        List.foldlM_cons, execIn_eq stays known, here]
      change Alike Reordered (x.exec s >>= fun m => execAll m xs) _
      rw [exec_into stays]
      cases x.act s.currentSection with
      | error e => exact True.intro
      | ok sect =>
        let m := (x.adds s.current s.currentSection).into (s.putSection s.current sect)
        have opened : Reordered (m.openAll (xs.flatMap opens))
            (x.after s.current (s.openAll (xs.flatMap opens)) sect) := by
          have same := State.setSection_sections known
          rw [State.openAll_into s.currentMem, after, here]
          refine Reordered.into ?_ s.current sect _
          exact ⟨rfl, same, rfl, rfl, .refl _⟩
        have later : Alike Reordered (execAll m xs)
            ((placed s.current xs).foldlM execIn (m.openAll (xs.flatMap opens))) := ih m
        exact later.trans (fun _ _ _ => Reordered.trans)
          (Alike.run (fun _ _ e related => execIn_reordered related e) opened _)
    · exact ih (s.setSection name)

end Statement

theorem openAll_created {s : State} {front : List Str} (names : List Str)
    (there : ∀ n, n ∈ front ↔ n ∈ s.sections) : ∃ added, created front names = front ++ added ∧
      Reordered (s.openAll added) (s.openAll names) := by
  induction names generalizing s front with
  | nil => exact ⟨[], (List.append_nil front).symm, Reordered.refl s⟩
  | cons n names ih =>
    by_cases known : n ∈ front
    · obtain ⟨added, order, same⟩ := ih there
      have kept := State.setSection_sections ((there n).mp known)
      have here : Reordered s (s.setSection n) := ⟨rfl, kept, rfl, rfl, .refl _⟩
      have step : created front (n :: names) = created front names := by
        simp [created, known]
      exact ⟨added, step.trans order, same.trans (here.openAll names)⟩
    · have more : ∀ m, m ∈ front ++ [n] ↔ m ∈ (s.setSection n).sections := by
        intro m
        refine Iff.trans ?_ Std.ExtTreeMap.mem_insertIfNew.symm
        rw [List.mem_append, List.mem_singleton, there m, Std.LawfulEqCmp.compare_eq_iff_eq,
          or_comm, eq_comm]
      obtain ⟨added, order, same⟩ := ih more
      have step : created front (n :: names) = created (front ++ [n]) names := by
        simp [created, known]
      exact ⟨n :: added, by simpa [step] using order, same⟩

theorem openAll_of_order (options : Options) {names names' : List Str}
    (same : created [lit ".text"] names = created [lit ".text"] names') :
    Reordered ((State.new options).openAll names) ((State.new options).openAll names') := by
  have start : ∀ n, n ∈ [lit ".text"] ↔ n ∈ (State.new options).sections := by
    intro n
    rw [List.mem_singleton, (State.new_sections options).2 n]
  obtain ⟨added, order, here⟩ := openAll_created names start
  obtain ⟨added', order', there⟩ := openAll_created names' start
  rw [order, order'] at same
  obtain rfl := List.append_cancel_left same
  exact here.symm.trans there

theorem QueuesApart.openAll (options : Options) (names : List Str) :
    QueuesApart ((State.new options).openAll names) [] := by
  have opened : ∀ s : State, execAll s (names.map Statement.sect) = .ok (s.openAll names) := by
    intro s
    induction names generalizing s with
    | nil => rfl
    | cons n names ih => exact run_cons_iff.mpr ⟨s.setSection n, rfl, ih (s.setSection n)⟩
  have declares : (names.map Statement.sect).flatMap Statement.declares = [] := by
    simp [Statement.declares]
  have apart := (QueuesApart.new options).run (by simp [declares]) (opened _)
  rwa [declares] at apart

theorem Interleaved.run {xs ys : List Statement} (h : Interleaved xs ys) (options : Options)
    (once : (xs.flatMap Statement.declares).Nodup) :
    Alike Reordered (execAll (State.new options) xs) (execAll (State.new options) ys) := by
  have fits : CanRun ((State.new options).openAll (xs.flatMap Statement.opens))
      (Statement.placed (lit ".text") xs) := by
    refine ⟨?_, Statement.placed_stays, [], QueuesApart.openAll options _, ?_⟩
    · intro e mem
      rcases Statement.placed_known e mem with text | opened
      · rw [text]
        exact State.mem_openAll (State.new options).currentMem _
      · exact State.opened_openAll opened
    · rw [List.nil_append, Statement.placed_declares]
      exact once
  have interleave := execIn_commutes.interleave h.threads fits
  have start := Alike.run (fun _ _ e related => Statement.execIn_reordered related e)
    (openAll_of_order options h.order) (Statement.placed (lit ".text") ys)
  have first := Statement.execAll_placed (State.new options) xs
  have last := (Statement.execAll_placed (State.new options) ys).symm fun _ _ => Reordered.symm
  have trans : ∀ r s t, Reordered r s → Reordered s t → Reordered r t := fun _ _ _ => Reordered.trans
  exact ((first.trans trans interleave).trans trans start).trans trans last

namespace State
variable (ops : StrMap (List ScheduledOp))

def withSchedule (s : State) : State := { s with schedule := ops }

theorem sectionAlignWithLabels_withSchedule (s : State) (n : Str) (a : BitVec 64) :
    (s.withSchedule ops).sectionAlignWithLabels n a =
      withSchedule ops <$> s.sectionAlignWithLabels n a := by
  have above : (s.withSchedule ops).alignAbove n a = withSchedule ops <$> s.alignAbove n a := by
    unfold alignAbove
    split
    · exact bind_commutes (x := (s.sectionAt n).align a) (h := id) (id_map _).symm fun _ => rfl
    · rfl
  refine bind_commutes above fun m => ?_
  have attached : ∀ (labels : List Str) (m : State),
      labels.foldl addSymbolHere (m.withSchedule ops) =
        (labels.foldl addSymbolHere m).withSchedule ops := by
    intro labels
    induction labels with
    | nil =>
      intro m
      rfl
    | cons l labels ih =>
      intro m
      exact ih (m.addSymbolHere l)
  exact congrArg (fun t : State => Except.ok (t.putSection n { t.sectionAt n with labelQueue := [] }))
    (attached (m.sectionAt n).labelQueue m)

theorem prepare_withSchedule (s : State) :
    (s.withSchedule ops).prepare = withSchedule ops <$> s.prepare := by
  have flush : (s.withSchedule ops).flushLabels = withSchedule ops <$> s.flushLabels :=
    run_commutes (withSchedule ops) (fun n _ s => sectionAlignWithLabels_withSchedule ops s n 1) s
  refine bind_commutes flush fun m => ?_
  have step : ∀ idx ∈ List.range m.sections.size, ∀ acc : Layout × State,
      layoutStep (Prod.map id (withSchedule ops) acc) idx =
        Prod.map id (withSchedule ops) <$> layoutStep acc idx := by
    intro idx _ acc
    rcases acc with ⟨l, v⟩
    have there : (v.withSchedule ops).sections = v.sections := rfl
    simp only [layoutStep, Prod.map_apply, id, there]
    cases v.sections.toList.find? fun entry => entry.2.idx == idx with
    | none => rfl
    | some entry =>
      rcases entry with ⟨name, sect⟩
      dsimp only
      split <;> rfl
  have layout := run_commutes (Prod.map id (withSchedule ops)) step ({ base := m.options.base }, m)
  exact bind_commutes layout fun acc => rfl

end State

theorem sections_of_rewrites {u v a b : State} (same : v.sections = u.sections)
    (left : u.Rewrites a) (right : v.Rewrites b) (knownA : ∀ n, n ∈ a.sections ↔ n ∈ u.sections)
    (knownB : ∀ n, n ∈ b.sections ↔ n ∈ v.sections) (bytes : b.bytes = a.bytes) :
    b.sections = a.sections := by
  have before : ∀ n, v.sectionAt n = u.sectionAt n := by
    intro n
    rw [State.sectionAt, same, State.sectionAt]
  have each : ∀ n, b.sectionAt n = a.sectionAt n := by
    intro n
    obtain ⟨o, here⟩ := left.sections n
    obtain ⟨o', there⟩ := right.sections n
    have one : o'.bytes = o.bytes := by
      have content := congrFun bytes n
      rwa [State.bytes, State.bytes, here, there] at content
    have one' : o' = o := by
      cases o
      cases o'
      cases one
      rfl
    rw [here, there, before, one']
  apply Std.ExtTreeMap.ext_getElem?
  intro n
  by_cases known : n ∈ u.sections
  · have inA := (knownA n).mpr known
    have inB := (knownB n).mpr (by rw [same]; exact known)
    rw [State.getElem?_sections inA, State.getElem?_sections inB, each]
  · have notA : n ∉ a.sections := fun mem => known ((knownA n).mp mem)
    have notB : n ∉ b.sections := fun mem => known (by rw [← same]; exact (knownB n).mp mem)
    rw [Std.ExtTreeMap.getElem?_eq_none notA, Std.ExtTreeMap.getElem?_eq_none notB]

/-- What two builds of the same program agree in: the whole of every section, with its bytes and
    its address, the globals, and where each symbol is. -/
structure Matches (t t' : State) : Prop where
  options : t'.options = t.options
  sections : t'.sections = t.sections
  current : t'.current = t.current
  globals : t'.globals = t.globals
  place : ∀ name : Str, (t'.lookup[name]?).map SymbolLocation.place =
    (t.lookup[name]?).map SymbolLocation.place

theorem Recorded.prepare {options : Options} {s : State} (recorded : Recorded s)
    (reachable : State.Reachable options s) : ∃ u, s.prepare = .ok u ∧ Recorded u ∧
      u.schedule = s.schedule ∧ u.scheduled = s.scheduled := by
  obtain ⟨first, order, indexed, -⟩ := reachable.anchored
  obtain ⟨m, u, flushed, run, placed⟩ := State.prepare_ok indexed
  have schedule : u.schedule = s.schedule := placed.schedule.trans flushed.schedule
  have listed : u.scheduled = s.scheduled := by rw [State.scheduled, schedule, State.scheduled]
  have bytes : u.bytes = s.bytes := by
    funext n
    rw [placed.bytes (by rw [State.Layout.bases_length, List.length_map]), flushed.bytes]
  have known : ∀ n, n ∈ u.sections ↔ n ∈ s.sections :=
    fun n => (placed.known n).trans (flushed.known n)
  refine ⟨u, run, ⟨?_, by rw [listed]; exact recorded.apart⟩, schedule, listed⟩
  intro entry mem
  rw [listed] at mem
  have owned := recorded.owned entry mem
  exact ⟨fun positive => (known _).mpr (owned.known positive), by rw [Slot.Fits, bytes]; exact owned.fits⟩

theorem Recorded.matches {u v : State} (recorded : Recorded u)
    (same : v = u.withSchedule v.schedule) (perm : v.scheduled.Perm u.scheduled) :
    Alike Matches (u.scheduled.foldlM State.runScheduled u)
      (v.scheduled.foldlM State.runScheduled v) := by
  have frame : SameFrame u v := by
    rw [same]
    exact ⟨rfl, fun _ => Iff.rfl, fun _ => rfl, fun _ => rfl, fun _ => rfl⟩
  have options : v.options = u.options := by rw [same]; rfl
  have globals : v.globals = u.globals := by rw [same]; rfl
  have sections : v.sections = u.sections := by rw [same]; rfl
  have bytes : v.bytes = u.bytes := by rw [same]; rfl
  have owned : ∀ entry ∈ v.scheduled, Owned v entry.2.slot :=
    fun entry mem => ((recorded.of_perm perm).1 entry mem).of_frame frame
  rcases State.runScheduled_all recorded.owned with
    ⟨es, a, edits, done, left, written⟩ | ⟨entry, err, mem, failed, done⟩
  · obtain ⟨es', edits', perm'⟩ := edits.perm perm
    have one := recorded.applyAll_perm edits perm'
    rcases State.runScheduled_all owned with
      ⟨es'', b, again, done', right, written'⟩ | ⟨entry, err, mem, failed, -⟩
    · cases edits'.unique (again.of_frame frame)
      rw [bytes] at written'
      have output : b.bytes = a.bytes := written'.trans (one.trans written.symm)
      have rewrites := State.rewrites_runAll done
      have rewrites' := State.rewrites_runAll done'
      have whole := sections_of_rewrites sections rewrites rewrites' left.known right.known output
      rw [done, done']
      exact {
        options := (rewrites'.options.trans options).trans rewrites.options.symm
        sections := whole
        current := (right.current.trans frame.current).trans left.current.symm
        globals := (rewrites'.globals.trans globals).trans rewrites.globals.symm
        place name := ((right.place name).trans (frame.place name)).trans (left.place name).symm }
    · obtain ⟨e, -, edited⟩ := (edits'.of_frame frame.symm).mem mem
      cases failed.symm.trans edited
  · rcases State.runScheduled_all owned with ⟨es, b, edits, -, -, -⟩ | ⟨other, err', -, -, done'⟩
    · obtain ⟨e, -, edited⟩ := (edits.of_frame frame).mem (perm.mem_iff.mpr mem)
      cases failed.symm.trans edited
    · rw [done, done']
      exact True.intro

theorem Reordered.finish {options : Options} {s t : State} (h : Reordered s t)
    (current : t.current = s.current) (reachable : State.Reachable options s) (recorded : Recorded s)
    (filled : s.Filled) (filled' : t.Filled) : Alike Matches s.finish t.finish := by
  have same : t = s.withSchedule t.schedule :=
    State.ext h.options h.sections current h.lookup rfl h.globals
  obtain ⟨u, run, recorded', schedule, listed⟩ := recorded.prepare reachable
  have run' : t.prepare = .ok (u.withSchedule t.schedule) := by
    rw [same, State.prepare_withSchedule, run]
    rfl
  have worked : s.finish = u.scheduled.foldlM State.runScheduled u := by
    rw [State.finish, run]
    refine State.finishScheduledWork_eq ?_
    intro name ops found
    rw [schedule] at found
    exact filled name ops found
  have worked' : t.finish = (u.withSchedule t.schedule).scheduled.foldlM State.runScheduled
      (u.withSchedule t.schedule) := by
    rw [State.finish, run']
    exact State.finishScheduledWork_eq filled'
  rw [worked, worked']
  refine recorded'.matches rfl ?_
  rw [listed]
  exact h.schedule

theorem execAll_current {s t : State} {xs : List Statement} (run : execAll s xs = .ok t) :
    t.current = xs.foldl (fun current x => x.currentAfter current) s.current := by
  induction xs generalizing s with
  | nil => rw [← run_nil_iff.mp run, List.foldl_nil]
  | cons x xs ih =>
    obtain ⟨m, first, rest⟩ := run_cons_iff.mp run
    rw [ih rest, (Statement.exec_effect first).current, List.foldl_cons]

def build (options : Options) (xs : List Statement) : Except Failure State := do
  let s ← execAll (State.new options) xs
  s.finish

/-- A source is built from its threads: when the statements of the sections are interleaved in
    another way, and the sections are still opened in their order, the build fails in both cases
    or gives the same sections, addresses, globals and places of symbols. -/
theorem interleavings_build_same {options : Options} {xs ys : List Statement}
    (h : Interleaved xs ys) (once : (xs.flatMap Statement.declares).Nodup)
    (grows : Along Statement.exec Growing (State.new options) xs) :
    Alike Matches (build options xs) (build options ys) := by
  refine (h.run options once).bind fun s t ran ran' reordered => ?_
  have current : t.current = s.current := by
    rw [execAll_current ran, execAll_current ran']
    exact h.last.symm
  have recorded : Recorded s := run_invariant_along Recorded
    (fun _ _ _ recorded grows step => recorded.exec grows step) grows (Recorded.new options) ran
  have filled : ∀ {xs : List Statement} {s : State}, execAll (State.new options) xs = .ok s →
      s.Filled := fun run => run_invariant State.Filled
    (fun _ _ _ filled step => filled.exec step) (State.Filled.new options) run
  exact reordered.finish current ⟨xs, ran⟩ recorded (filled ran) (filled ran')

theorem turns_build_same : ∃ p q : Program Env.noFiles {}, p.statements ≠ q.statements ∧
    (build {} p.statements).isOk = true ∧
    Alike Matches (build {} p.statements) (build {} q.statements) := by
  obtain ⟨p, q, differ, interleaved, once, along, accepted⟩ : ∃ p q : Program Env.noFiles {},
      p.statements ≠ q.statements ∧ Interleaved p.statements q.statements ∧
        (p.statements.flatMap Statement.declares).Nodup ∧
        Along Statement.exec Growing (State.new {}) p.statements ∧
        (build {} p.statements).isOk = true :=
    ⟨Program.ofSource {} (lit "a: la a0, d\n.section .data\nd: dw 7\n" ++
        lit ".section .text\nb: call a\n.section .data\ndb 5") (by decide +kernel),
      Program.ofSource {} (lit ".section .data\nd: dw 7\n" ++
        lit ".section .text\na: la a0, d\nb: call a\n.section .data\ndb 5") (by decide +kernel),
      by decide +kernel⟩
  exact ⟨p, q, differ, accepted, interleavings_build_same interleaved once along⟩

end BigAsm
