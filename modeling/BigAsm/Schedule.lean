import Mathlib
import BigAsm.Finished
import BigAsm.Relocation

/- What the schedule holds over a run. Every operation was scheduled by one statement, and its
   slot is the bytes this statement emitted, so no two slots overlap. -/
namespace BigAsm
open ByteStore Runs

namespace State

def Filled (s : State) : Prop := ∀ (name : Str) (ops : List ScheduledOp),
  s.schedule[name]? = some ops → ops ≠ []

theorem Filled.new (options : Options) : (State.new options).Filled := by
  intro name ops found
  cases (Std.ExtTreeMap.getElem?_empty (a := name)).symm.trans found

theorem Filled.exec {s t : State} {x : Statement} (h : s.Filled) (run : x.exec s = .ok t) :
    t.Filled := by
  intro name ops found
  rw [(Statement.exec_effect run).schedule, Statement.schedule] at found
  cases new : x.schedules s.current (s.bytes s.current) with
  | none =>
    rw [new] at found
    exact h name ops found
  | some entry =>
    rcases entry with ⟨sym, op⟩
    rw [new] at found
    dsimp only at found
    rw [OrderedMaps.push, Std.ExtTreeMap.getElem?_alter] at found
    split at found
    · cases found
      simp
    · exact h name ops found

theorem runScheduled_name {s : State} {name : Str} {ops : List ScheduledOp} (filled : ops ≠ []) :
    (match s.lookup[name]? with
      | some _ => (ops.map (name, ·)).foldlM runScheduled s
      | none => .error (.runtime (lit "Unknown symbol scheduled: " ++ name))) =
      (ops.map (name, ·)).foldlM runScheduled s := by
  cases found : s.lookup[name]? with
  | some sym => rfl
  | none =>
    cases ops with
    | nil => exact absurd rfl filled
    | cons op ops =>
      have failed : s.runScheduled (name, op) =
          .error (.runtime (lit "Unknown symbol scheduled: " ++ name)) := by
        rw [runScheduled, found]
      rw [List.map_cons, List.foldlM_cons, failed]
      rfl

theorem finishScheduledWork_eq {s : State} (filled : s.Filled) :
    s.finishScheduledWork = s.scheduled.foldlM runScheduled s := by
  have lists : ∀ entry ∈ s.schedule.toList, entry.2 ≠ [] := fun entry mem =>
    filled entry.1 entry.2 (Std.ExtTreeMap.mem_toList_iff_getElem?_eq_some.mp mem)
  unfold finishScheduledWork scheduled OrderedMaps.flatten
  generalize s.schedule.toList = entries at lists
  clear filled
  induction entries generalizing s with
  | nil => rfl
  | cons entry entries ih =>
    have later : ∀ other ∈ entries, other.2 ≠ [] := fun other mem => lists other (by simp [mem])
    have here := @runScheduled_name s entry.1 entry.2 (lists entry (by simp))
    rw [List.foldlM_cons, List.flatMap_cons, List.foldlM_append, ← here]
    exact bind_congr fun m => ih later

end State

namespace Statement
variable {x : Statement} {name : Str} {bs : List Byte} {entry : Str × ScheduledOp}

theorem schedules_slot (scheduled : x.schedules name bs = some entry) :
    entry.2.slot.start = 0 ∧ entry.2.slot.length = 0 ∨
      entry.2.slot.region = name ∧ entry.2.slot.start = (x.padded bs).length ∧
        entry.2.slot.start + entry.2.slot.length = (x.output bs).length := by
  cases x with
  | opcode code wf =>
    rcases code with ⟨words, _ | ⟨lbl, f⟩⟩
    · cases scheduled
    · cases scheduled
      refine Or.inr ⟨rfl, rfl, ?_⟩
      have sized := wf.sized lbl f rfl
      rw [output, List.length_append, encodeWords_length, sized]
      rfl
  | size sym =>
    cases scheduled
    refine Or.inr ⟨rfl, rfl, ?_⟩
    rw [output, List.length_append, wordBytes_length]
    rfl
  | endfunc sym | type sym t =>
    cases scheduled
    exact Or.inl ⟨rfl, rfl⟩
  | label _ | db _ | data _ _ | resb _ | reserve _ _ | align _ | finishLabels | global _ | sect _
  | org _ | execonly | readonly => cases scheduled

theorem schedules_inside (scheduled : x.schedules name bs = some entry) {n : Str} {i : Nat}
    (covers : entry.2.slot.Covers n i) :
    n = name ∧ (x.padded bs).length ≤ i ∧ i < (x.output bs).length := by
  obtain ⟨rfl, start, bound⟩ := covers
  rcases schedules_slot scheduled with ⟨zero, none⟩ | ⟨here, first, last⟩
  · omega
  · exact ⟨here, by omega, by omega⟩

end Statement

/-- The slots of the schedule lie in their sections and do not overlap. -/
structure Recorded (s : State) : Prop where
  owned : ∀ entry ∈ s.scheduled, Owned s entry.2.slot
  apart : s.scheduled.Pairwise fun a b => a.2.slot.Apart b.2.slot

theorem Recorded.new (options : Options) : Recorded (State.new options) := by
  have none : (State.new options).scheduled = [] := rfl
  refine ⟨fun entry mem => ?_, ?_⟩
  · rw [none] at mem
    cases mem
  · rw [none]
    exact List.Pairwise.nil

theorem Owned.of_extends {s t : State} {slot : Slot Str} (owned : Owned s slot)
    (grown : s.Extends t) (known : ∀ n, n ∈ s.sections → n ∈ t.sections) : Owned t slot where
  known positive := known _ (owned.known positive)
  fits := le_trans owned.fits (grown slot.region).length_le

theorem Recorded.exec {s t : State} {x : Statement} (h : Recorded s) (grows : Growing s x)
    (run : x.exec s = .ok t) : Recorded t := by
  have effect := Statement.exec_effect run
  have grown := (Statement.exec_extends_iff run).mpr grows
  have old : ∀ entry ∈ s.scheduled, Owned t entry.2.slot :=
    fun entry mem => (h.owned entry mem).of_extends grown effect.known
  have symm : ∀ {a b : Str × ScheduledOp}, a.2.slot.Apart b.2.slot → b.2.slot.Apart a.2.slot :=
    Slot.Apart.symm
  have here : t.bytes s.current = x.output (s.bytes s.current) := by rw [effect.bytes, if_pos rfl]
  have padded := (x.le_padded_length (s.bytes_fits s.current)).1
  refine ⟨fun entry mem => ?_, ?_⟩
  · rcases (effect.mem_scheduled entry).mp mem with before | new
    · exact old entry before
    · rcases Statement.schedules_slot new with ⟨zero, none⟩ | ⟨region, -, last⟩
      · refine ⟨fun positive => absurd none (by omega), ?_⟩
        rw [Slot.Fits, zero, none]
        exact Nat.zero_le _
      · refine ⟨fun _ => ?_, ?_⟩
        · rw [region]
          exact effect.known _ s.currentMem
        · rw [Slot.Fits, region, here]
          exact last.le
  · refine (effect.scheduled_perm.pairwise_iff symm).mpr (List.pairwise_append.mpr ⟨h.apart, ?_, ?_⟩)
    · cases x.schedules s.current (s.bytes s.current) <;> simp
    · intro before mem entry new same
      have fits : before.2.slot.start + before.2.slot.length ≤
          (s.bytes before.2.slot.region).length := (h.owned before mem).fits
      -- the new slot starts behind the bytes all old slots of the section lie in
      rcases Statement.schedules_slot (Option.mem_toList.mp new) with ⟨zero, none⟩ | ⟨region, first, -⟩
      · omega
      · rw [same, region] at fits
        omega

theorem scheduled_iff {s t : State} {xs : List Statement} {entry : Str × ScheduledOp}
    (run : execAll s xs = .ok t) : entry ∈ t.scheduled ↔ entry ∈ s.scheduled ∨
      ∃ pre x post v, xs = pre ++ x :: post ∧ execAll s pre = .ok v ∧
        x.schedules v.current (v.bytes v.current) = some entry := by
  induction xs generalizing s with
  | nil =>
    rw [run_nil_iff.mp run]
    simp
  | cons y ys ih =>
    obtain ⟨m, first, rest⟩ := run_cons_iff.mp run
    rw [ih rest, (Statement.exec_effect first).mem_scheduled]
    constructor
    · rintro ((old | new) | ⟨pre, x, post, v, rfl, before, scheduled⟩)
      · exact Or.inl old
      · exact Or.inr ⟨[], y, ys, s, rfl, rfl, new⟩
      · exact Or.inr ⟨y :: pre, x, post, v, rfl, run_cons_iff.mpr ⟨m, first, before⟩, scheduled⟩
    · rintro (old | ⟨pre, x, post, v, split, before, scheduled⟩)
      · exact Or.inl (Or.inl old)
      · cases pre with
        | nil =>
          cases split
          rw [← run_nil_iff.mp before] at scheduled
          exact Or.inl (Or.inr scheduled)
        | cons z pre =>
          cases split
          obtain ⟨m', first', rest'⟩ := run_cons_iff.mp before
          cases first.symm.trans first'
          exact Or.inr ⟨pre, x, post, v, rfl, rest', scheduled⟩

namespace Program
variable {env : Env} {options : Options} {p : Program env options}

theorem Grows.recorded (grows : p.Grows) : Recorded p.final.state :=
  run_invariant_along Recorded (fun _ _ _ recorded grows step => recorded.exec grows step)
    (p.grows_iff.mp grows) (Recorded.new options) p.ran

theorem filled (p : Program env options) : p.final.state.Filled :=
  run_invariant State.Filled (fun _ _ _ filled step => filled.exec step) (State.Filled.new options) p.ran

theorem mem_scheduled_iff (p : Program env options) (entry : Str × ScheduledOp) :
    entry ∈ p.final.state.scheduled ↔ ∃ pre x post v, p.Processes pre x post v ∧
      x.schedules v.current (v.bytes v.current) = some entry := by
  have none : entry ∉ (State.new options).scheduled := by
    have empty : (State.new options).scheduled = [] := rfl
    rw [empty]
    exact List.not_mem_nil
  rw [scheduled_iff p.ran, or_iff_right none]
  constructor
  · rintro ⟨pre, x, post, v, split, before, scheduled⟩
    exact ⟨pre, x, post, v, ⟨split, before⟩, scheduled⟩
  · rintro ⟨pre, x, post, v, h, scheduled⟩
    exact ⟨pre, x, post, v, h.split, h.before, scheduled⟩

theorem prepared (p : Program env options) : ∃ u, p.final.state.prepare = .ok u ∧
    u.bytes = p.final.state.bytes ∧ u.schedule = p.final.state.schedule ∧
    ∀ n, n ∈ u.sections ↔ n ∈ p.final.state.sections := by
  obtain ⟨first, order, indexed, -⟩ := (State.Reachable.ofProgram p).anchored
  obtain ⟨m, u, flushed, run, placed⟩ := State.prepare_ok indexed
  refine ⟨u, run, funext fun n => ?_, placed.schedule.trans flushed.schedule,
    fun n => (placed.known n).trans (flushed.known n)⟩
  rw [placed.bytes (by rw [State.Layout.bases_length, List.length_map]), flushed.bytes]

theorem prepared_scheduled (p : Program env options) {u : State}
    (run : p.final.state.prepare = .ok u) : u.scheduled = p.final.state.scheduled ∧
      u.finishScheduledWork = u.scheduled.foldlM State.runScheduled u := by
  obtain ⟨u', run', -, schedule, -⟩ := p.prepared
  cases run'.symm.trans run
  refine ⟨by rw [State.scheduled, schedule, State.scheduled], State.finishScheduledWork_eq ?_⟩
  intro name ops found
  rw [schedule] at found
  exact p.filled name ops found

theorem Grows.prepared (grows : p.Grows) {u : State} (run : p.final.state.prepare = .ok u) :
    Recorded u ∧ u.scheduled = p.final.state.scheduled ∧
      u.finishScheduledWork = u.scheduled.foldlM State.runScheduled u := by
  obtain ⟨u', run', bytes, -, known⟩ := p.prepared
  cases run'.symm.trans run
  obtain ⟨same, worked⟩ := p.prepared_scheduled run
  refine ⟨⟨fun entry mem => ?_, ?_⟩, same, worked⟩
  · rw [same] at mem
    have owned := grows.recorded.owned entry mem
    exact ⟨fun positive => (known _).mpr (owned.known positive), by rw [Slot.Fits, bytes]; exact owned.fits⟩
  · rw [same]
    exact grows.recorded.apart

end Program

def SameOutcome : Except Failure State → Except Failure State → Prop
  | .ok t, .ok t' => t'.bytes = t.bytes
  | .error _, .error _ => True
  | _, _ => False

namespace Edits
variable {s : State} {order order' : List (Str × ScheduledOp)} {es es' : List (Edit Str)}

theorem perm (edits : Edits s order es) (perm : order'.Perm order) :
    ∃ es', Edits s order' es' ∧ es'.Perm es := by
  obtain ⟨es', edits', perm'⟩ := List.perm_comp_forall₂ perm edits
  exact ⟨es', edits', perm'⟩

theorem unique (edits : Edits s order es) (edits' : Edits s order es') : es = es' := by
  induction edits generalizing es' with
  | nil =>
    cases edits'
    rfl
  | cons done _ ih =>
    cases edits' with
    | cons done' rest' =>
      cases done.symm.trans done'
      rw [ih rest']

theorem mem (edits : Edits s order es) {entry : Str × ScheduledOp} (listed : entry ∈ order) :
    ∃ e ∈ es, s.edit entry = .ok e := by
  induction edits with
  | nil => cases listed
  | cons done _ ih =>
    rcases List.mem_cons.mp listed with rfl | later
    · exact ⟨_, by simp, done⟩
    · obtain ⟨e, mem, done⟩ := ih later
      exact ⟨e, by simp [mem], done⟩

theorem apart (edits : Edits s order es) (owned : ∀ entry ∈ order, Owned s entry.2.slot)
    (apart : order.Pairwise fun a b => a.2.slot.Apart b.2.slot) :
    (∀ e ∈ es, e.slot.Fits s.bytes) ∧ es.Pairwise fun e f => e.slot.Apart f.slot := by
  have slots := edits.slots
  constructor
  · intro e mem
    have listed : e.slot ∈ order.map fun entry => entry.2.slot := by
      rw [← slots]
      exact List.mem_map_of_mem mem
    obtain ⟨entry, inside, same⟩ := List.mem_map.mp listed
    rw [← same]
    exact (owned entry inside).fits
  · have mapped : (order.map fun entry => entry.2.slot).Pairwise Slot.Apart :=
      List.pairwise_map.mpr apart
    rw [← slots] at mapped
    exact List.pairwise_map.mp mapped

end Edits

namespace Recorded
variable {u : State} {order : List (Str × ScheduledOp)}

theorem of_perm (h : Recorded u) (perm : order.Perm u.scheduled) :
    (∀ entry ∈ order, Owned u entry.2.slot) ∧
      order.Pairwise fun a b => a.2.slot.Apart b.2.slot := by
  have symm : ∀ {a b : Str × ScheduledOp}, a.2.slot.Apart b.2.slot → b.2.slot.Apart a.2.slot :=
    Slot.Apart.symm
  exact ⟨fun entry mem => h.owned entry (perm.mem_iff.mp mem), (perm.pairwise_iff symm).mpr h.apart⟩

theorem applyAll_perm {es es' : List (Edit Str)} (h : Recorded u) (edits : Edits u u.scheduled es)
    (perm : es'.Perm es) : Edit.applyAll es' u.bytes = Edit.applyAll es u.bytes := by
  obtain ⟨fits, apart⟩ := edits.apart h.owned h.apart
  have fits' : ∀ e ∈ es', e.slot.Fits u.bytes := fun e mem => fits e (perm.mem_iff.mp mem)
  have symm : ∀ {e f : Edit Str}, e.slot.Apart f.slot → f.slot.Apart e.slot := Slot.Apart.symm
  exact Edit.applyAll_perm perm fits' ((perm.pairwise_iff symm).mpr apart)

theorem same_outcome (h : Recorded u) (perm : order.Perm u.scheduled) :
    SameOutcome (u.scheduled.foldlM State.runScheduled u) (order.foldlM State.runScheduled u) := by
  obtain ⟨owned, -⟩ := h.of_perm perm
  rcases State.runScheduled_all h.owned with ⟨es, t, edits, run, -, bytes⟩ | ⟨entry, err, mem, failed, run⟩
  · obtain ⟨es', edits', perm'⟩ := edits.perm perm
    have one := h.applyAll_perm edits perm'
    rcases State.runScheduled_all owned with ⟨es'', t', again, run', -, bytes'⟩ | ⟨entry, err, mem, failed, -⟩
    · cases edits'.unique again
      rw [run, run']
      exact bytes'.trans (one.trans bytes.symm)
    · obtain ⟨e, -, done⟩ := edits'.mem mem
      cases failed.symm.trans done
  · rcases State.runScheduled_all owned with ⟨es, t, edits, -, -, -⟩ | ⟨other, err', -, -, run'⟩
    · obtain ⟨e, -, done⟩ := edits.mem (perm.mem_iff.mpr mem)
      cases failed.symm.trans done
    · rw [run, run']
      trivial

end Recorded

def Statement.reserves : Statement → Bool
  | .resb _ | .reserve .. => true
  | _ => false

theorem align_grows {a : BitVec 64} {k : Nat} {bs : List Byte} (power : a.toNat = 2 ^ k)
    (fits : bs.length ≤ maxSize) : (Statement.align a).Grows bs := by
  have small : k < 64 := by
    have bound := a.isLt
    rw [power] at bound
    exact (Nat.pow_lt_pow_iff_right (by decide)).mp bound
  have top : 2 ^ k ≤ 2 ^ 63 := Nat.pow_le_pow_right (by decide) (by omega)
  have positive := Nat.two_pow_pos k
  have mask : (a - 1).toNat = 2 ^ k - 1 := by
    rw [BitVec.toNat_sub, power]
    change (2 ^ 64 - 1 + 2 ^ k) % 2 ^ 64 = 2 ^ k - 1
    omega
  unfold maxSize at fits
  rw [Statement.Grows, mask]
  omega

theorem reserve_grows {x : Statement} {bs : List Byte} (reserves : x.reserves = true)
    (fits : bs.length ≤ maxSize) (grown : bs.length ≤ (x.output bs).length) : x.Grows bs := by
  cases x with
  | resb times =>
    rw [Statement.output, Buffer.resized_length] at grown
    exact (Statement.sizeT_add (lt_of_le_of_lt fits (by decide))).mp grown
  | reserve scale times =>
    by_contra wraps
    have cut := Statement.reserve_cut fits ((Statement.reserve scale times).padded_length fits)
      (not_lt.mp wraps)
    rw [Statement.output, Buffer.resized_length] at grown
    omega
  | label _ | opcode _ _ | db _ | data _ _ | size _ | align _ | finishLabels | endfunc _ | type _ _
    | global _ | sect _ | org _ | execonly | readonly => cases reserves

/-- The alignments of a program are powers of two, and its reservations shrink no section. -/
structure Program.Sized {env : Env} {options : Options} (p : Program env options) : Prop where
  aligns : ∀ pre a post v, p.Processes pre (.align a) post v → ∃ k, a.toNat = 2 ^ k
  reserves : ∀ pre x post v, p.Processes pre x post v → x.reserves = true →
    (v.bytes v.current).length ≤ (x.output (v.bytes v.current)).length

theorem Program.Sized.grows {env : Env} {options : Options} {p : Program env options}
    (sized : p.Sized) : p.Grows := by
  intro pre x post v h
  have fits := v.bytes_fits v.current
  cases x with
  | align a =>
    obtain ⟨k, power⟩ := sized.aligns pre a post v h
    exact align_grows power fits
  | resb times => exact reserve_grows rfl fits (sized.reserves pre _ post v h rfl)
  | reserve scale times => exact reserve_grows rfl fits (sized.reserves pre _ post v h rfl)
  | label _ | opcode _ _ | db _ | data _ _ | size _ | finishLabels | endfunc _ | type _ _ | global _
    | sect _ | org _ | execonly | readonly => trivial

theorem runScheduled_outside {s t : State} {entry : Str × ScheduledOp} (owned : Owned s entry.2.slot)
    (run : s.runScheduled entry = .ok t) {n : Str} {i : Nat}
    (outside : ¬ entry.2.slot.Covers n i) : (t.bytes n)[i]? = (s.bytes n)[i]? := by
  have first := State.runScheduled_edit owned
  cases done : s.edit entry with
  | error err =>
    rw [done] at first
    cases run.symm.trans first
  | ok e =>
    rw [done] at first
    obtain ⟨t', run', -, bytes⟩ := first
    cases run.symm.trans run'
    have slot := State.edit_slot done
    rw [bytes]
    exact Edit.apply_outside (by rw [slot]; exact owned.fits) (by rw [slot]; exact outside)

/-- The operations of the schedule succeed or fail alike in every order, and end with the same
    bytes. Each of them writes only within the bytes its own statement emitted, and none of them
    asks for a location out of range. -/
theorem relocation_order_independent {env : Env} {options : Options} (p : Program env options)
    (sized : p.Sized) : ∃ u, p.final.state.prepare = .ok u ∧ u.bytes = p.final.state.bytes ∧
      (∀ entry ∈ u.scheduled, ∃ pre x post v, p.Processes pre x post v ∧
        x.schedules v.current (v.bytes v.current) = some entry ∧
        ∀ n i, entry.2.slot.Covers n i → n = v.current ∧
          (x.padded (v.bytes v.current)).length ≤ i ∧ i < (x.output (v.bytes v.current)).length) ∧
      ∀ order, order.Perm u.scheduled →
        SameOutcome p.final.state.finish (order.foldlM State.runScheduled u) ∧
        (∀ err, order.foldlM State.runScheduled u = .error err →
          err ≠ .outOfRange ∧ err ≠ .undefined) ∧
        (∀ front entry back m t, order = front ++ entry :: back →
          front.foldlM State.runScheduled u = .ok m → m.runScheduled entry = .ok t →
          ∀ n i, ¬ entry.2.slot.Covers n i → (t.bytes n)[i]? = (m.bytes n)[i]?) ∧
        ∀ t, order.foldlM State.runScheduled u = .ok t → ∀ n i,
          (∀ entry ∈ order, ¬ entry.2.slot.Covers n i) →
          (t.bytes n)[i]? = (p.final.state.bytes n)[i]? := by
  have grows := sized.grows
  obtain ⟨u, run, bytes, -, -⟩ := p.prepared
  obtain ⟨recorded, same, worked⟩ := grows.prepared run
  have finish : p.final.state.finish = u.scheduled.foldlM State.runScheduled u := by
    rw [← worked, State.finish, run]
    rfl
  refine ⟨u, run, bytes, fun entry mem => ?_, fun order perm => ?_⟩
  · rw [same] at mem
    obtain ⟨pre, x, post, v, processed, scheduled⟩ := (p.mem_scheduled_iff entry).mp mem
    exact ⟨pre, x, post, v, processed, scheduled, fun n i => Statement.schedules_inside scheduled⟩
  · obtain ⟨owned, -⟩ := recorded.of_perm perm
    refine ⟨by rw [finish]; exact recorded.same_outcome perm, fun err failed => ?_, ?_, ?_⟩
    · rcases State.runScheduled_all owned with ⟨es, t, -, done, -, -⟩ | ⟨entry, err', -, edit, failed'⟩
      · cases failed.symm.trans done
      · cases failed.symm.trans failed'
        exact State.edit_error edit
    · rintro front entry back m t rfl before step n i outside
      have early : ∀ other ∈ front, Owned u other.2.slot := fun other mem => owned other (by simp [mem])
      rcases State.runScheduled_all early with ⟨es, m', -, before', frame, -⟩ | ⟨_, _, -, -, failed⟩
      · cases before.symm.trans before'
        exact runScheduled_outside ((owned entry (by simp)).of_frame frame) step outside
      · cases before.symm.trans failed
    · intro t done n i outside
      rcases State.runScheduled_all owned with ⟨es, t', edits, done', -, all⟩ | ⟨_, _, -, -, failed⟩
      · cases done.symm.trans done'
        have slots := edits.slots
        rw [all, ← bytes]
        refine Edit.applyAll_outside (edits.apart owned ?_).1 fun e mem => ?_
        · exact (recorded.of_perm perm).2
        · have listed : e.slot ∈ order.map fun entry => entry.2.slot := by
            rw [← slots]
            exact List.mem_map_of_mem mem
          obtain ⟨entry, inside, same⟩ := List.mem_map.mp listed
          rw [← same]
          exact outside entry inside
      · cases done.symm.trans failed

theorem jump_and_address_reversed : ∃ (p : Program Env.noFiles {}) (u : State),
    p.final.state.prepare = .ok u ∧ u.scheduled.length = 2 ∧
      SameOutcome p.final.state.finish (u.scheduled.reverse.foldlM State.runScheduled u) := by
  obtain ⟨p, plain, two⟩ : ∃ p : Program Env.noFiles {},
      (∀ x ∈ p.statements, x.reserves = false ∧
        (x = .align 8 ∨ x.flushes = true ∨ x.declares ≠ [])) ∧
        p.final.state.scheduled.length = 2 :=
    ⟨Program.ofSource {} (lit "a: jmp a\n.align 8\nla a0, a") (by decide +kernel), by decide +kernel⟩
  have sized : p.Sized := by
    constructor
    · intro pre a post v h
      obtain ⟨-, eight | flushes | declares⟩ := plain (.align a) (by rw [h.split]; simp)
      · cases eight
        exact ⟨3, rfl⟩
      · cases flushes
      · exact absurd rfl declares
    · intro pre x post v h reserves
      have none := (plain x (by rw [h.split]; simp)).1
      cases none.symm.trans reserves
  obtain ⟨u, prepared, -, -, orders⟩ := relocation_order_independent p sized
  have same := (sized.grows.prepared prepared).2.1
  exact ⟨p, u, prepared, by rw [same, two], (orders _ (List.reverse_perm _)).1⟩

/- What a patch makes of the instructions of its own statement. -/

theorem Program.Grows.emitted {env : Env} {options : Options} {p : Program env options}
    (grows : p.Grows) {pre post : List Statement} {v : State} {code : Code} {wf : code.WellFormed}
    (processed : p.Processes pre (.opcode code wf) post v) :
    window (padTo 4 (v.bytes v.current)).length (4 * code.words.length)
      (p.final.state.bytes v.current) = encodeWords code.words := by
  obtain ⟨t, step, rest⟩ := processed.after
  have split : p.statements = (pre ++ [.opcode code wf]) ++ post := by simp [processed.split]
  have upto : execAll (State.new options) (pre ++ [.opcode code wf]) = .ok t :=
    run_append_iff.mpr ⟨v, processed.before, run_single_iff.mpr step⟩
  obtain ⟨-, later, run⟩ := grows.upto split upto
  have kept := execAll_extends later run v.current
  have here : t.bytes v.current = padTo 4 (v.bytes v.current) ++ encodeWords code.words := by
    rw [(Statement.exec_effect step).bytes, if_pos rfl]
    rfl
  rw [here] at kept
  rw [window_grown kept (by simp), ← encodeWords_length]
  exact window_at_end _ _

namespace Finished
variable {env : Env} {options : Options} (f : Finished env options)

theorem edited (grows : f.program.Grows) {entry : Str × ScheduledOp}
    (scheduled : entry ∈ f.program.final.state.scheduled) : ∃ e, f.state.edit entry = .ok e ∧
      entry.2.slot.contents f.state.bytes =
        e.rewrite (entry.2.slot.contents f.program.final.state.bytes) := by
  obtain ⟨u, run, bytes, -, -⟩ := f.program.prepared
  obtain ⟨recorded, same, worked⟩ := grows.prepared run
  obtain ⟨u', run', finished⟩ := bind_ok_iff.mp f.done
  cases run.symm.trans run'
  rw [worked] at finished
  rcases State.runScheduled_all recorded.owned with ⟨es, t, edits, done, frame, all⟩ | ⟨_, _, -, -, failed⟩
  · cases finished.symm.trans done
    obtain ⟨e, mem, made⟩ := edits.mem (same ▸ scheduled)
    obtain ⟨fits, apart⟩ := edits.apart recorded.owned recorded.apart
    refine ⟨e, (frame.edit entry).trans made, ?_⟩
    rw [← State.edit_slot made, all, ← bytes]
    exact Edit.applyAll_contents fits apart mem
  · cases finished.symm.trans failed

theorem patched_words (grows : f.program.Grows) {pre post : List Statement} {v : State}
    {code : Code} {wf : code.WellFormed} {lbl : Str} {fix : Fixup}
    (processed : f.program.Processes pre (.opcode code wf) post v)
    (fixup : code.fixup = some (lbl, fix)) : ∃ sym e, f.state.lookup[lbl]? = some sym ∧
      fix.edit f.state (endOf v.current (padTo 4 (v.bytes v.current))) sym = .ok e ∧
      window (padTo 4 (v.bytes v.current)).length (4 * code.words.length) (f.state.bytes v.current) =
        e.rewrite (encodeWords code.words) := by
  have entry : (Statement.opcode code wf).schedules v.current (v.bytes v.current) =
      some (lbl, .fixup fix (endOf v.current (padTo 4 (v.bytes v.current)))) := by
    rw [Statement.schedules, fixup]
    rfl
  have scheduled := (f.program.mem_scheduled_iff _).mpr ⟨pre, _, post, v, processed, entry⟩
  obtain ⟨e, made, contents⟩ := f.edited grows scheduled
  have sized := wf.sized lbl fix fixup
  unfold State.edit at made
  cases found : f.state.lookup[lbl]? with
  | none =>
    rw [found] at made
    cases made
  | some sym =>
    rw [found] at made
    refine ⟨sym, e, rfl, made, ?_⟩
    rw [← grows.emitted processed, sized]
    exact contents

end Finished

end BigAsm
