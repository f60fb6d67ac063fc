import Mathlib
import BigAsm.Actions
import BigAsm.Listing

/- finish() up to the scheduled work. The layout loop looks sections up by index in a map
   ordered by name; over the sections in the order of their creation it is a plain scan. -/
namespace BigAsm
open ByteStore Runs

namespace State

def Reachable (options : Options) (s : State) : Prop :=
  ∃ xs, execAll (State.new options) xs = .ok s

theorem Reachable.ofProgram {env : Env} {options : Options} (p : Program env options) :
    Reachable options p.final.state := ⟨p.statements, p.ran⟩

/-- order lists the sections as they were created. -/
structure Indexed (s : State) (order : List Str) : Prop where
  size : s.sections.size = order.length
  found : ∀ (i : Nat) (name : Str), order[i]? = some name →
    name ∈ s.sections ∧ (s.sectionAt name).idx = i
  complete : ∀ name, name ∈ s.sections → name ∈ order

theorem getElem?_sections {s : State} {name : Str} (known : name ∈ s.sections) :
    s.sections[name]? = some (s.sectionAt name) := by
  obtain ⟨sect, found⟩ := Option.isSome_iff_exists.mp
    (Std.ExtTreeMap.mem_iff_isSome_getElem?.mp known)
  rw [sectionAt, found]
  rfl

theorem sectionAt_of_getElem? {s : State} {name : Str} {sect : Section}
    (found : s.sections[name]? = some sect) : s.sectionAt name = sect := by
  rw [sectionAt, found]
  rfl

namespace Indexed
variable {s t : State} {order : List Str}

theorem nodup (h : s.Indexed order) : order.Nodup := by
  rw [List.nodup_iff_getElem?_ne_getElem?]
  intro i j before inside same
  have first := h.found i order[i] (List.getElem?_eq_getElem (by omega))
  have second := h.found j order[i] (by rw [← same]; exact List.getElem?_eq_getElem (by omega))
  omega

theorem index (h : s.Indexed order) {name : Str} (known : name ∈ s.sections) :
    order[(s.sectionAt name).idx]? = some name := by
  obtain ⟨i, at_⟩ := List.mem_iff_getElem?.mp (h.complete name known)
  rwa [(h.found i name at_).2]

theorem mem_iff (h : s.Indexed order) (name : Str) : name ∈ order ↔ name ∈ s.sections := by
  constructor
  · intro mem
    obtain ⟨i, at_⟩ := List.mem_iff_getElem?.mp mem
    exact (h.found i name at_).1
  · exact h.complete name

theorem of_same (h : s.Indexed order) (size : t.sections.size = s.sections.size)
    (known : ∀ n, n ∈ t.sections ↔ n ∈ s.sections)
    (idx : ∀ n, n ∈ s.sections → (t.sectionAt n).idx = (s.sectionAt n).idx) : t.Indexed order where
  size := size.trans h.size
  found i name at_ := by
    obtain ⟨mem, same⟩ := h.found i name at_
    exact ⟨(known name).mpr mem, (idx name mem).trans same⟩
  complete name mem := h.complete name ((known name).mp mem)

theorem putSection (h : s.Indexed order) {n : Str} (known : n ∈ s.sections) {sect : Section}
    (idx : sect.idx = (s.sectionAt n).idx) : (s.putSection n sect).Indexed order := by
  refine h.of_same Std.ExtTreeMap.size_modify (fun m => mem_putSection s n m sect) fun m _ => ?_
  rw [sectionAt_putSection s known]
  split
  · rename_i same
    rw [idx, same]
  · rfl

theorem setSection (h : s.Indexed order) (n : Str) :
    (s.setSection n).Indexed (if n ∈ s.sections then order else order ++ [n]) := by
  have lookup : ∀ m, (s.setSection n).sections[m]? =
      if n = m ∧ n ∉ s.sections then some { name := n, idx := s.sections.size }
      else s.sections[m]? := by
    intro m
    simp only [State.setSection, Std.ExtTreeMap.getElem?_insertIfNew,
      Std.LawfulEqCmp.compare_eq_iff_eq]
  split
  · rename_i known
    refine h.of_same ?_ (fun m => ?_) fun m _ => ?_
    · simp [State.setSection, Std.ExtTreeMap.size_insertIfNew, known]
    · rw [Std.ExtTreeMap.mem_iff_isSome_getElem?, lookup, if_neg fun new => new.2 known,
        Std.ExtTreeMap.mem_iff_isSome_getElem?]
    · rw [sectionAt, lookup, if_neg fun new => new.2 known, ← sectionAt]
  · rename_i new
    have other : ∀ m, m ∈ s.sections → (s.setSection n).sections[m]? = s.sections[m]? := by
      intro m mem
      refine (lookup m).trans (if_neg ?_)
      rintro ⟨rfl, -⟩
      exact new mem
    have here : (s.setSection n).sections[n]? = some { name := n, idx := s.sections.size } := by
      rw [lookup, if_pos ⟨rfl, new⟩]
    refine ⟨?_, fun i name at_ => ?_, fun name mem => ?_⟩
    · simp [State.setSection, Std.ExtTreeMap.size_insertIfNew, new, h.size]
    · rw [List.getElem?_append] at at_
      split at at_
      · obtain ⟨mem, same⟩ := h.found i name at_
        refine ⟨?_, ?_⟩
        · rw [Std.ExtTreeMap.mem_iff_isSome_getElem?, other name mem,
            ← Std.ExtTreeMap.mem_iff_isSome_getElem?]
          exact mem
        · rwa [sectionAt, other name mem, ← sectionAt]
      · rename_i past
        have last : i = order.length ∧ n = name := by
          rw [List.getElem?_singleton] at at_
          split at at_
          · exact ⟨by omega, Option.some.inj at_⟩
          · cases at_
        obtain ⟨rfl, rfl⟩ := last
        refine ⟨?_, ?_⟩
        · rw [Std.ExtTreeMap.mem_iff_isSome_getElem?, here]
          rfl
        · rw [sectionAt_of_getElem? here]
          exact h.size
    · rw [List.mem_append, List.mem_singleton]
      by_cases same : name = n
      · exact Or.inr same
      · refine Or.inl (h.complete name ?_)
        rw [Std.ExtTreeMap.mem_iff_isSome_getElem?, lookup, if_neg fun eq => same eq.1.symm] at mem
        rwa [Std.ExtTreeMap.mem_iff_isSome_getElem?]

end Indexed

theorem sectionAt_setSection_of_mem (s : State) (n : Str) {m : Str} (known : m ∈ s.sections) :
    (s.setSection n).sectionAt m = s.sectionAt m := by
  simp only [sectionAt, setSection, Std.ExtTreeMap.getElem?_insertIfNew,
    Std.LawfulEqCmp.compare_eq_iff_eq]
  rw [if_neg]
  rintro ⟨rfl, new⟩
  exact new known

theorem Indexed.exec {s t : State} {x : Statement} {order : List Str} (h : s.Indexed order)
    (run : x.exec s = .ok t) : ∃ order', t.Indexed order' ∧ order <+: order' := by
  rcases Statement.exec_cases run with ⟨name, rfl, rfl⟩ | ⟨sect, acted, rfl⟩
  · refine ⟨_, h.setSection name, ?_⟩
    split
    · exact List.prefix_rfl
    · exact List.prefix_append _ _
  · have put := h.putSection s.currentMem (Statement.act_idx acted)
    exact ⟨order, ⟨put.size, put.found, put.complete⟩, List.prefix_rfl⟩

theorem exec_based {s t : State} {x : Statement} (run : x.exec s = .ok t) {n : Str}
    (known : n ∈ s.sections) (based : (s.sectionAt n).hasBaseAddr = true) :
    (t.sectionAt n).hasBaseAddr = true := by
  rcases Statement.exec_cases run with ⟨name, rfl, rfl⟩ | ⟨sect, acted, rfl⟩
  · rwa [sectionAt_setSection_of_mem s name known]
  · change ((s.putSection s.current sect).sectionAt n).hasBaseAddr = true
    rw [sectionAt_putCurrent]
    split
    · rename_i here
      subst here
      exact Statement.act_based acted based
    · exact based

theorem new_sectionAt (options : Options) (n : Str) : (new options).sectionAt n =
    if n = lit ".text" then { name := n, idx := 0, hasBaseAddr := true, baseAddress := options.base }
    else { name := n, idx := 0 } := by
  let start : State :=
    { options := options
      sections := (∅ : StrMap Section).insertIfNew (lit ".text") { name := lit ".text", idx := 0 }
      current := lit ".text"
      currentMem := by simp
      lookup := ∅
      schedule := ∅
      globals := ∅ }
  have fresh : ∀ m, start.sectionAt m = { name := m, idx := 0 } := by
    intro m
    simp only [sectionAt, start, Std.ExtTreeMap.getElem?_insertIfNew, Std.ExtTreeMap.not_mem_empty,
      not_false_eq_true, and_true, Std.ExtTreeMap.getElem?_empty, Std.LawfulEqCmp.compare_eq_iff_eq]
    split
    · rename_i text
      rw [text]
      rfl
    · rfl
  refine (start.sectionAt_putCurrent (start.currentSection.setBaseAddress options.base) n).trans ?_
  rw [currentSection, fresh, fresh]
  change (if n = lit ".text" then _ else _) = _
  split
  · rename_i text
    rw [text]
    rfl
  · rfl

theorem new_empty (options : Options) (n : Str) :
    (new options).bytes n = [] ∧ (new options).queue n = [] := by
  rw [bytes, queue, new_sectionAt]
  split <;> exact ⟨rfl, rfl⟩

theorem new_sections (options : Options) :
    (new options).sections.size = 1 ∧ ∀ n, n ∈ (new options).sections ↔ n = lit ".text" := by
  constructor
  · refine Std.ExtTreeMap.size_modify.trans ?_
    exact Std.ExtTreeMap.size_insertIfNew.trans (if_neg Std.ExtTreeMap.not_mem_empty)
  · intro n
    refine Std.ExtTreeMap.mem_modify.trans ?_
    simp only [Std.ExtTreeMap.mem_insertIfNew, Std.LawfulEqCmp.compare_eq_iff_eq,
      Std.ExtTreeMap.not_mem_empty, or_false]
    exact eq_comm

def Anchored (s : State) : Prop :=
  ∃ first rest, s.Indexed (first :: rest) ∧ (s.sectionAt first).hasBaseAddr = true

theorem new_anchored (options : Options) : (new options).Anchored := by
  obtain ⟨one, known⟩ := new_sections options
  have text := new_sectionAt options (lit ".text")
  rw [if_pos rfl] at text
  refine ⟨lit ".text", [], ⟨one, fun i name at_ => ?_, fun name mem => ?_⟩, by rw [text]⟩
  · rw [List.getElem?_singleton] at at_
    split at at_
    · rename_i zero
      obtain rfl := Option.some.inj at_
      rw [text]
      exact ⟨(known _).mpr rfl, zero.symm⟩
    · cases at_
  · rw [(known name).mp mem]
    exact List.mem_singleton_self _

theorem Reachable.anchored {options : Options} {s : State} (reachable : Reachable options s) :
    s.Anchored := by
  obtain ⟨xs, run⟩ := reachable
  refine run_invariant Anchored ?_ (new_anchored options) run
  rintro s x t ⟨first, rest, indexed, based⟩ step
  obtain ⟨order', indexed', more⟩ := indexed.exec step
  have known := (indexed.mem_iff first).mp (by simp)
  cases order' with
  | nil => exact absurd more.length_le (by simp)
  | cons first' rest' =>
    obtain ⟨rfl, -⟩ := List.cons_prefix_cons.mp more
    exact ⟨first, rest', indexed', exec_based step known based⟩

/-- t is s with the queues of the named sections attached: all of their labels at the end of
    the section that is current. -/
structure Flushed (s t : State) (names : List Str) : Prop where
  options : t.options = s.options
  current : t.current = s.current
  schedule : t.schedule = s.schedule
  globals : t.globals = s.globals
  size : t.sections.size = s.sections.size
  known : ∀ n, n ∈ t.sections ↔ n ∈ s.sections
  sectionAt : ∀ n, t.sectionAt n =
    if n ∈ names then { s.sectionAt n with labelQueue := [] } else s.sectionAt n
  lookup : ∀ name : Str, t.lookup[name]? = s.lookup[name]?.or
    (if ∃ n ∈ names, name ∈ s.queue n then some s.currentLocation else none)

namespace Flushed
variable {s m t : State} {names : List Str}

theorem bytes (h : Flushed s t names) (n : Str) : t.bytes n = s.bytes n := by
  rw [State.bytes, h.sectionAt]
  split <;> rfl

theorem currentLocation (h : Flushed s t names) : t.currentLocation = s.currentLocation := by
  have size : t.currentSection.size = s.currentSection.size := by
    have same := congrArg List.length (h.bytes s.current)
    rw [← h.current] at same
    rw [currentSection, currentSection, ← h.current]
    exact same
  rw [State.currentLocation, State.currentLocation, size, h.current]

theorem nil (s : State) : Flushed s s [] where
  options := rfl
  current := rfl
  schedule := rfl
  globals := rfl
  size := rfl
  known _ := Iff.rfl
  sectionAt n := by simp
  lookup name := by simp

theorem one {n : Str} (known : n ∈ s.sections) :
    ∃ t, s.sectionAlignWithLabels n 1 = .ok t ∧ Flushed s t [n] := by
  have skip : s.alignAbove n 1 = .ok s := if_neg (by decide)
  let attached := (s.queue n).foldl addSymbolHere s
  have run : s.sectionAlignWithLabels n 1 =
      .ok (attached.putSection n { attached.sectionAt n with labelQueue := [] }) := by
    unfold sectionAlignWithLabels
    rw [skip]
    rfl
  have only : attached = { s with lookup := attach (s.queue n) s.currentLocation s.lookup } :=
    foldl_addSymbolHere (s.queue n) s
  refine ⟨_, run, ?_⟩
  rw [only]
  refine ⟨rfl, rfl, rfl, rfl, Std.ExtTreeMap.size_modify, fun m => mem_putSection _ n m _,
    fun m => ?_, fun name => ?_⟩
  · refine (sectionAt_putSection
      { s with lookup := attach (s.queue n) s.currentLocation s.lookup } known _ m).trans ?_
    simp only [List.mem_singleton]
    split
    · rename_i here
      rw [here]
      rfl
    · rfl
  · refine (getElem?_attach (s.queue n) s.currentLocation s.lookup name).trans ?_
    simp

theorem cons {n : Str} (first : Flushed s m [n]) (rest : Flushed m t names) :
    Flushed s t (n :: names) where
  options := rest.options.trans first.options
  current := rest.current.trans first.current
  schedule := rest.schedule.trans first.schedule
  globals := rest.globals.trans first.globals
  size := rest.size.trans first.size
  known k := (rest.known k).trans (first.known k)
  sectionAt k := by
    rw [rest.sectionAt, first.sectionAt]
    by_cases here : k = n
    · by_cases later : k ∈ names <;> simp [here]
    · by_cases later : k ∈ names <;> simp [here, later]
  lookup name := by
    have waits : ∀ k, name ∈ m.queue k ↔ k ≠ n ∧ name ∈ s.queue k := by
      intro k
      rw [State.queue, first.sectionAt]
      by_cases here : k = n <;> simp [here, State.queue]
    rw [rest.lookup, first.lookup, first.currentLocation]
    by_cases here : name ∈ s.queue n
    · cases s.lookup[name]? <;> simp [here]
    · have later : (∃ k ∈ names, name ∈ m.queue k) ↔ ∃ k ∈ n :: names, name ∈ s.queue k := by
        simp only [waits, List.mem_cons, exists_eq_or_imp, here, false_or]
        constructor
        · rintro ⟨k, mem, -, inside⟩
          exact ⟨k, mem, inside⟩
        · rintro ⟨k, mem, inside⟩
          exact ⟨k, mem, fun same => here (same ▸ inside), inside⟩
      simp only [later]
      simp [here]

theorem all (names : List Str) (known : ∀ n ∈ names, n ∈ s.sections) :
    ∃ t, names.foldlM (fun s n => s.sectionAlignWithLabels n 1) s = .ok t ∧ Flushed s t names := by
  induction names generalizing s with
  | nil => exact ⟨s, rfl, nil s⟩
  | cons n names ih =>
    obtain ⟨m, step, first⟩ := one (known n (by simp))
    obtain ⟨t, run, rest⟩ := @ih m fun k mem => (first.known k).mpr (known k (by simp [mem]))
    exact ⟨t, run_cons_iff.mpr ⟨m, step, run⟩, cons first rest⟩

end Flushed

theorem flushLabels_ok (s : State) :
    ∃ t, s.flushLabels = .ok t ∧ Flushed s t s.sections.keys :=
  Flushed.all s.sections.keys fun _ mem => Std.ExtTreeMap.mem_keys.mp mem

theorem Indexed.flushed {s t : State} {order names : List Str} (h : s.Indexed order)
    (flushed : Flushed s t names) : t.Indexed order := by
  refine h.of_same flushed.size flushed.known fun n _ => ?_
  rw [flushed.sectionAt]
  split <;> rfl

namespace Layout

def enter (l : Layout) (separation : Bool) (sect : Section) : Layout :=
  if !sect.hasBaseAddr then l.separate separation sect
  else { l with base := sect.baseAddress, wasExecutable := sect.code }

def leave (l : Layout) (sect : Section) : Layout :=
  { l with base := (l.base + BitVec.ofNat 128 sect.size + 0xF) &&& ~~~0xF }

/-- The base addresses of sections in the order of their creation. -/
def bases (l : Layout) (separation : Bool) : List Section → List (BitVec 128)
  | [] => []
  | sect :: rest =>
    (l.enter separation sect).base :: ((l.enter separation sect).leave sect).bases separation rest

theorem bases_cleared (l : Layout) (separation : Bool) (sects : List Section) :
    l.bases separation (sects.map fun sect => { sect with labelQueue := [] }) =
      l.bases separation sects := by
  induction sects generalizing l with
  | nil => rfl
  | cons sect rest ih => exact congrArg (List.cons _) (ih _)

theorem bases_length (l : Layout) (separation : Bool) (sects : List Section) :
    (l.bases separation sects).length = sects.length := by
  induction sects generalizing l with
  | nil => rfl
  | cons sect rest ih => exact congrArg (· + 1) (ih _)

end Layout

theorem putSection_sectionAt {s : State} {n : Str} (known : n ∈ s.sections) :
    s.putSection n (s.sectionAt n) = s := by
  have same : s.sections.modify n (fun _ => s.sectionAt n) = s.sections := by
    apply Std.ExtTreeMap.ext_getElem?
    intro m
    rw [Std.ExtTreeMap.getElem?_modify]
    split
    · rename_i eq
      cases Std.LawfulEqCmp.eq_of_compare eq
      rw [getElem?_sections known]
      rfl
    · rfl
  unfold putSection
  simp only [same]

namespace Indexed
variable {s : State} {order : List Str}

theorem find (h : s.Indexed order) {i : Nat} {name : Str} (at_ : order[i]? = some name) :
    (s.sections.toList.find? fun entry => entry.2.idx == i) = some (name, s.sectionAt name) := by
  obtain ⟨known, idx⟩ := h.found i name at_
  have listed : (name, s.sectionAt name) ∈ s.sections.toList :=
    Std.ExtTreeMap.mem_toList_iff_getElem?_eq_some.mpr (getElem?_sections known)
  cases found : s.sections.toList.find? fun entry => entry.2.idx == i with
  | none =>
    have absent := List.find?_eq_none.mp found _ listed
    exact absurd (beq_iff_eq.mpr idx) absent
  | some entry =>
    rcases entry with ⟨name', sect⟩
    have there := Std.ExtTreeMap.mem_toList_iff_getElem?_eq_some.mp (List.mem_of_find?_eq_some found)
    have known' : name' ∈ s.sections := by
      rw [Std.ExtTreeMap.mem_iff_isSome_getElem?, there]
      rfl
    obtain ⟨j, at'⟩ := List.mem_iff_getElem?.mp (h.complete name' known')
    have idx' := (h.found j name' at').2
    rw [sectionAt_of_getElem? there] at idx'
    have passed := List.find?_some found
    have same : sect.idx = i := beq_iff_eq.mp passed
    obtain rfl : j = i := idx'.symm.trans same
    cases at'.symm.trans at_
    rw [sectionAt_of_getElem? there]

theorem layoutStep_ok (h : s.Indexed order) (l : Layout) {i : Nat} {name : Str}
    (at_ : order[i]? = some name) : layoutStep (l, s) i =
      .ok ((l.enter s.options.sectionAttrPageSeparation (s.sectionAt name)).leave (s.sectionAt name),
        s.putSection name ((s.sectionAt name).setBaseAddress
          (l.enter s.options.sectionAttrPageSeparation (s.sectionAt name)).base)) := by
  have known := (h.found i name at_).1
  unfold layoutStep
  dsimp only
  rw [h.find at_]
  cases based : (s.sectionAt name).hasBaseAddr with
  | false =>
    simp only [Layout.enter, based, Bool.not_false, if_true]
    rfl
  | true =>
    have same : (s.sectionAt name).setBaseAddress (s.sectionAt name).baseAddress = s.sectionAt name := by
      rw [Section.setBaseAddress, ← based]
    simp only [Layout.enter, based, Bool.not_true, Bool.false_eq_true, if_false, same,
      putSection_sectionAt known]
    rfl

end Indexed

structure Placed (s t : State) (order : List Str) (bases : List (BitVec 128)) : Prop where
  options : t.options = s.options
  current : t.current = s.current
  lookup : t.lookup = s.lookup
  schedule : t.schedule = s.schedule
  globals : t.globals = s.globals
  size : t.sections.size = s.sections.size
  known : ∀ n, n ∈ t.sections ↔ n ∈ s.sections
  other : ∀ n, n ∉ order → t.sectionAt n = s.sectionAt n
  placed : ∀ (i : Nat) (name : Str) (base : BitVec 128), order[i]? = some name →
    bases[i]? = some base → t.sectionAt name = (s.sectionAt name).setBaseAddress base

theorem Placed.bytes {s t : State} {order : List Str} {bases : List (BitVec 128)}
    (h : Placed s t order bases) (all : bases.length = order.length) (n : Str) :
    t.bytes n = s.bytes n := by
  by_cases listed : n ∈ order
  · obtain ⟨i, at_⟩ := List.mem_iff_getElem?.mp listed
    have inside : i < bases.length := by
      rw [all]
      exact (List.getElem?_eq_some_iff.mp at_).1
    rw [State.bytes, h.placed i n bases[i] at_ (List.getElem?_eq_getElem inside)]
    rfl
  · rw [State.bytes, h.other n listed, State.bytes]

theorem layout_run {s : State} {order front rest : List Str} (h : s.Indexed order)
    (split : order = front ++ rest) (l : Layout) :
    ∃ l' t, (List.range' front.length rest.length).foldlM layoutStep (l, s) = .ok (l', t) ∧
      Placed s t rest
        (l.bases s.options.sectionAttrPageSeparation (rest.map s.sectionAt)) := by
  induction rest generalizing s front l with
  | nil => exact ⟨l, s, rfl, rfl, rfl, rfl, rfl, rfl, rfl, fun _ => Iff.rfl, fun _ _ => rfl, nofun⟩
  | cons name rest ih =>
    have at_ : order[front.length]? = some name := by simp [split]
    have known := (h.found _ _ at_).1
    have step := h.layoutStep_ok l at_
    have distinct : name ∉ rest := by
      have nodup := h.nodup
      rw [split, List.nodup_append] at nodup
      exact (List.nodup_cons.mp nodup.2.1).1
    generalize entered : l.enter s.options.sectionAttrPageSeparation (s.sectionAt name) = m at step
    let s' := s.putSection name ((s.sectionAt name).setBaseAddress m.base)
    have others : ∀ n, n ≠ name → s'.sectionAt n = s.sectionAt n := by
      intro n other
      rw [sectionAt_putSection s known, if_neg other]
    have here : s'.sectionAt name = (s.sectionAt name).setBaseAddress m.base := by
      rw [sectionAt_putSection s known, if_pos rfl]
    have indexed : s'.Indexed order := h.putSection known rfl
    obtain ⟨l', t, run, later⟩ := @ih s' (front ++ [name]) indexed (by simp [split])
      (m.leave (s.sectionAt name))
    have same : rest.map s'.sectionAt = rest.map s.sectionAt := by
      refine List.map_congr_left fun n mem => others n ?_
      rintro rfl
      exact distinct mem
    rw [same] at later
    refine ⟨l', t, ?_, later.options, later.current, later.lookup, later.schedule, later.globals,
      later.size.trans Std.ExtTreeMap.size_modify,
      fun n => (later.known n).trans (mem_putSection s name n _), fun n other => ?_,
      fun i n base nth based => ?_⟩
    · rw [List.length_cons, List.range'_succ]
      refine run_cons_iff.mpr ⟨_, step, ?_⟩
      simpa using run
    · rw [List.mem_cons, not_or] at other
      rw [later.other n other.2, others n other.1]
    · rw [List.map_cons, Layout.bases, entered] at based
      cases i with
      | zero =>
        cases nth
        cases based
        rw [later.other name distinct, here]
      | succ i =>
        have placed := later.placed i n base nth based
        have apart : n ≠ name := by
          rintro rfl
          exact distinct (List.mem_of_getElem? nth)
        rwa [others n apart] at placed

theorem resolveBaseAddresses_ok {s : State} {order : List Str} (h : s.Indexed order) :
    ∃ t, s.resolveBaseAddresses = .ok t ∧
      Placed s t order (({ base := s.options.base } : Layout).bases
        s.options.sectionAttrPageSeparation (order.map s.sectionAt)) := by
  obtain ⟨l, t, run, placed⟩ := @layout_run s order [] order h rfl { base := s.options.base }
  refine ⟨t, ?_, placed⟩
  unfold resolveBaseAddresses
  rw [h.size, List.range_eq_range']
  exact bind_ok_iff.mpr ⟨_, run, rfl⟩

/-- What finish() has done when the scheduled operations start: all that waited is attached,
    and every section has its address. -/
theorem prepare_ok {s : State} {order : List Str} (h : s.Indexed order) :
    ∃ m t, Flushed s m s.sections.keys ∧ s.prepare = .ok t ∧
      Placed m t order (({ base := s.options.base } : Layout).bases
        s.options.sectionAttrPageSeparation (order.map s.sectionAt)) := by
  obtain ⟨m, flush, flushed⟩ := s.flushLabels_ok
  obtain ⟨t, resolve, placed⟩ := resolveBaseAddresses_ok (h.flushed flushed)
  have cleared : order.map m.sectionAt =
      (order.map s.sectionAt).map fun sect => { sect with labelQueue := [] } := by
    rw [List.map_map]
    refine List.map_congr_left fun n mem => ?_
    rw [flushed.sectionAt, if_pos (Std.ExtTreeMap.mem_keys.mpr ((h.mem_iff n).mp mem))]
    rfl
  rw [cleared, Layout.bases_cleared, flushed.options] at placed
  exact ⟨m, t, flushed, bind_ok_iff.mpr ⟨m, flush, resolve⟩, placed⟩

end State

end BigAsm
