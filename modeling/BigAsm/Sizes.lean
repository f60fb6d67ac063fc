import Mathlib
import BigAsm.Labels
import BigAsm.Schedule

/- .size and .endfunc. The word of .size is settled by three addresses of the finished program,
   and a symbol has the size that the last of its .size and .endfunc gives it. -/
namespace BigAsm
open ByteStore Runs

def ScheduledOp.sizes : ScheduledOp → Bool
  | .size .. | .endfunc _ => true
  | _ => false

def Statement.sizes (sym : Str) : Statement → Bool
  | .size l | .endfunc l => decide (l = sym)
  | _ => false

namespace State
variable {s t : State} {name : Str} {sym : SymbolLocation}

theorem runScheduled_size {entry : Str × ScheduledOp} (run : s.runScheduled entry = .ok t)
    (found : s.lookup[name]? = some sym) : ∃ sym', t.lookup[name]? = some sym' ∧
      sym'.size = if entry.1 = name then (entry.2.symbolAfter s sym).size else sym.size := by
  obtain ⟨old, known, ran⟩ := runScheduled_ran run
  rw [ran.lookup]
  split
  · rename_i same
    rw [same, found] at known
    cases known
    exact ⟨_, rfl, rfl⟩
  · exact ⟨sym, found, rfl⟩

theorem runScheduled_size_kept {entries : List (Str × ScheduledOp)}
    (none : ∀ entry ∈ entries, entry.1 = name → entry.2.sizes = false)
    (run : entries.foldlM runScheduled s = .ok t) (found : s.lookup[name]? = some sym) :
    ∃ sym', t.lookup[name]? = some sym' ∧ sym'.size = sym.size := by
  refine run_invariant_mem (fun s : State => ∃ sym', s.lookup[name]? = some sym' ∧
    sym'.size = sym.size) (fun m entry u mem known step => ?_) ⟨sym, found, rfl⟩ run
  obtain ⟨old, there, same⟩ := known
  obtain ⟨new, here, size⟩ := runScheduled_size step there
  refine ⟨new, here, size.trans ?_⟩
  split
  · rename_i named
    have idle := none entry mem named
    rw [← same]
    cases op : entry.2 with
    | fixup f loc => rfl
    | type t' => rfl
    | size loc dataloc | endfunc loc =>
      rw [op] at idle
      cases idle
  · exact same

end State

namespace Statement
variable {x : Statement} {sym current : Str} {bs : List Byte} {op : ScheduledOp}

theorem schedules_sizes (scheduled : x.schedules current bs = some (sym, op)) :
    op.sizes = x.sizes sym := by
  cases x with
  | opcode code wf =>
    obtain ⟨⟨lbl, f⟩, -, same⟩ := Option.map_eq_some_iff.mp scheduled
    cases same
    rfl
  | size l | endfunc l | type l t =>
    cases scheduled
    simp [ScheduledOp.sizes, sizes]
  | label _ | db _ | data _ _ | resb _ | reserve _ _ | align _ | finishLabels | global _ | sect _
  | org _ | execonly | readonly => cases scheduled

end Statement

theorem Statement.Effect.schedule_of {x : Statement} {s t : State} (effect : Effect x s t)
    {sym : Str} {op : ScheduledOp}
    (scheduled : x.schedules s.current (s.bytes s.current) = some (sym, op)) :
    t.schedule[sym]? = some ((s.schedule[sym]?).getD [] ++ [op]) := by
  rw [effect.schedule, Statement.schedule, scheduled]
  dsimp only
  rw [OrderedMaps.push_eq_insert, Std.ExtTreeMap.getElem?_insert_self]

theorem schedule_grown {s t : State} {xs : List Statement} {sym : Str} {ops : List ScheduledOp}
    (idle : ∀ x ∈ xs, x.sizes sym = false) (run : execAll s xs = .ok t)
    (found : s.schedule[sym]? = some ops) : ∃ back, t.schedule[sym]? = some (ops ++ back) ∧
      ∀ op ∈ back, op.sizes = false := by
  refine run_invariant_mem (fun s : State => ∃ back, s.schedule[sym]? = some (ops ++ back) ∧
    ∀ op ∈ back, op.sizes = false) (fun m x u mem known step => ?_) ⟨[], by simpa using found, by simp⟩ run
  obtain ⟨back, there, none⟩ := known
  have effect := Statement.exec_effect step
  cases scheduled : x.schedules m.current (m.bytes m.current) with
  | none =>
    refine ⟨back, ?_, none⟩
    rw [effect.schedule, Statement.schedule, scheduled]
    exact there
  | some entry =>
    rcases entry with ⟨other, op⟩
    by_cases same : other = sym
    · subst same
      refine ⟨back ++ [op], ?_, ?_⟩
      · rw [effect.schedule_of scheduled, there, Option.getD_some, List.append_assoc]
      · intro op' inside
        rcases List.mem_append.mp inside with old | new
        · exact none op' old
        · cases List.mem_singleton.mp new
          exact (Statement.schedules_sizes scheduled).trans (idle x mem)
    · refine ⟨back, ?_, none⟩
      rw [effect.schedule, Statement.schedule, scheduled]
      dsimp only
      rw [OrderedMaps.push_eq_insert, Std.ExtTreeMap.getElem?_insert]
      simpa [same] using there

theorem ScheduledOp.size_of_base {s t : State} {sym sym' : SymbolLocation} {op : ScheduledOp}
    (sizes : op.sizes = true)
    (base : ∀ n, (t.sectionAt n).baseAddress = (s.sectionAt n).baseAddress)
    (place : sym'.place = sym.place) : (op.symbolAfter t sym').size = (op.symbolAfter s sym).size := by
  have here : ∀ loc, t.address loc = s.address loc := fun loc => State.address_of_base base rfl
  have target : s.address sym' = s.address sym := State.address_of_base (fun _ => rfl) place
  cases op with
  | size loc dataloc => simp only [symbolAfter, here, target]
  | endfunc loc => simp only [symbolAfter, here, target]
  | fixup f loc => cases sizes
  | type t' => cases sizes

namespace Finished
variable {env : Env} {options : Options} (f : Finished env options)

theorem symbol_size {pre post : List Statement} {x : Statement} {u : State} {sym : Str}
    {op : ScheduledOp} {label : SymbolLocation} (processed : f.program.Processes pre x post u)
    (scheduled : x.schedules u.current (u.bytes u.current) = some (sym, op))
    (sizes : op.sizes = true) (last : ∀ y ∈ post, y.sizes sym = false)
    (found : f.state.lookup[sym]? = some label) : label.size = (op.symbolAfter f.state label).size := by
  obtain ⟨t, step, rest⟩ := processed.after
  obtain ⟨back, listed, idle⟩ :=
    schedule_grown last rest ((Statement.exec_effect step).schedule_of scheduled)
  rw [List.append_assoc, List.singleton_append] at listed
  obtain ⟨before, after, split, named⟩ := OrderedMaps.flatten_split listed
  -- finish() runs the operation, and behind it none that sizes this symbol again
  obtain ⟨u', prepared, finished⟩ := bind_ok_iff.mp f.done
  obtain ⟨same, worked⟩ := f.program.prepared_scheduled prepared
  have order : u'.scheduled = before ++ (sym, op) :: after := same.trans split
  rw [worked, order] at finished
  obtain ⟨m, -, tail⟩ := run_append_iff.mp finished
  obtain ⟨m', done, rest⟩ := run_cons_iff.mp tail
  have kept : (∀ n, (f.state.sectionAt n).baseAddress = (m.sectionAt n).baseAddress) ∧
      (f.state.lookup[sym]?).map SymbolLocation.place = (m.lookup[sym]?).map SymbolLocation.place :=
    run_relation (fun a b : State =>
        (∀ n, (b.sectionAt n).baseAddress = (a.sectionAt n).baseAddress) ∧
          (b.lookup[sym]?).map SymbolLocation.place = (a.lookup[sym]?).map SymbolLocation.place)
      (fun _ => ⟨fun _ => rfl, rfl⟩)
      (fun _ _ _ first second => ⟨fun n => (second.1 n).trans (first.1 n), second.2.trans first.2⟩)
      (fun _ _ _ step => ⟨(State.runScheduled_shape step).2, State.runScheduled_place step sym⟩) tail
  rw [found, Option.map_some] at kept
  obtain ⟨old, known, place⟩ := Option.map_eq_some_iff.mp kept.2.symm
  obtain ⟨new, there, given⟩ := State.runScheduled_size done known
  obtain ⟨final, here, size⟩ := State.runScheduled_size_kept
    (fun entry mem name => idle entry.2 (named entry mem name)) rest there
  cases found.symm.trans here
  rw [size, given, if_pos rfl]
  exact (ScheduledOp.size_of_base sizes kept.1 place.symm).symm

theorem size_word (grows : f.program.Grows) {pre post : List Statement} {v : State} {sym : Str}
    {label : SymbolLocation} (processed : f.program.Processes pre (.size sym) post v)
    (found : f.state.lookup[sym]? = some label) :
    wordAt (padTo 4 (v.bytes v.current)).length (f.state.bytes v.current) =
      sizeWord (f.state.address label) (f.state.address (endOf v.current (v.bytes v.current)))
        (f.state.address (endOf v.current (padTo 4 (v.bytes v.current)))) := by
  have scheduled := (f.program.mem_scheduled_iff _).mpr ⟨pre, _, post, v, processed, rfl⟩
  obtain ⟨e, made, contents⟩ := f.edited grows scheduled
  rw [State.edit, found] at made
  cases made
  exact wordAt_of_window contents

end Finished

def SameSide (base : BitVec 128) (a p : Nat) : Prop :=
  base.toNat + a < 2 ^ 128 ↔ base.toNat + p < 2 ^ 128

instance decidableSameSide (base : BitVec 128) (a p : Nat) : Decidable (SameSide base a p) :=
  inferInstanceAs (Decidable (_ ↔ _))

theorem address_lt_iff {base : BitVec 128} {a p : Nat} (ha : a < 2 ^ 64) (hp : p < 2 ^ 64) :
    base + BitVec.ofNat 128 a < base + BitVec.ofNat 128 p ↔
      SameSide base a p ∧ a < p ∨ ¬ SameSide base a p ∧ p < a := by
  have bound := base.isLt
  rw [BitVec.lt_def, BitVec.toNat_add, BitVec.toNat_add, BitVec.toNat_ofNat, BitVec.toNat_ofNat,
    SameSide]
  omega

theorem difference_setWidth (base : BitVec 128) (i j : Nat) :
    (base + BitVec.ofNat 128 i - (base + BitVec.ofNat 128 j)).setWidth 32 =
      BitVec.ofNat 32 i - BitVec.ofNat 32 j := by
  have whole : base + BitVec.ofNat 128 i - (base + BitVec.ofNat 128 j) =
      BitVec.ofNat 128 i - BitVec.ofNat 128 j := add_sub_add_left_eq_sub ..
  rw [whole, BitVec.sub_eq_add_neg, BitVec.setWidth_add _ _ (by decide),
    BitVec.setWidth_neg_of_le (by decide), BitVec.setWidth_ofNat_of_le (by decide),
    BitVec.setWidth_ofNat_of_le (by decide), ← BitVec.sub_eq_add_neg]

theorem sizeWord_offsets (base : BitVec 128) (a p w : Nat) :
    sizeWord (base + BitVec.ofNat 128 a) (base + BitVec.ofNat 128 p) (base + BitVec.ofNat 128 w) =
      if base + BitVec.ofNat 128 a < base + BitVec.ofNat 128 p then
        BitVec.ofNat 32 p - BitVec.ofNat 32 a
      else BitVec.ofNat 32 a - BitVec.ofNat 32 (w + 4) := by
  have onward : base + BitVec.ofNat 128 a - 4 - (base + BitVec.ofNat 128 w) =
      base + BitVec.ofNat 128 a - (base + BitVec.ofNat 128 (w + 4)) := by
    rw [BitVec.ofNat_add w 4, sub_sub, add_comm (4 : BitVec 128), add_assoc]
    rfl
  rw [sizeWord, onward, difference_setWidth, difference_setWidth]

theorem sub_eq_ofNat_iff {a p d : Nat} :
    BitVec.ofNat 32 p - BitVec.ofNat 32 a = BitVec.ofNat 32 d ↔ (a + d) % 2 ^ 32 = p % 2 ^ 32 := by
  rw [← BitVec.toNat_inj, BitVec.toNat_sub, BitVec.toNat_ofNat, BitVec.toNat_ofNat,
    BitVec.toNat_ofNat]
  omega

theorem sizeWord_exact_iff {base : BitVec 128} {a p w d : Nat} (ha : a < 2 ^ 64) (hp : p < 2 ^ 64)
    (after : p ≤ w) (near : w < p + 4) (distance : a + d = p ∨ w + 4 + d = a) :
    sizeWord (base + BitVec.ofNat 128 a) (base + BitVec.ofNat 128 p) (base + BitVec.ofNat 128 w) =
        BitVec.ofNat 32 d ↔
      a ≠ p ∧ (SameSide base a p ∨ 2 * a % 2 ^ 32 = (p + w + 4) % 2 ^ 32) := by
  have order := @address_lt_iff base a p ha hp
  rw [sizeWord_offsets]
  by_cases same : SameSide base a p
  · simp only [same, true_and, not_true_eq_false, false_and, or_false, true_or, and_true] at order ⊢
    split <;> rename_i compared <;> rw [order] at compared <;> rw [sub_eq_ofNat_iff]
    · omega
    · omega
  · simp only [same, false_and, not_false_eq_true, true_and, false_or] at order ⊢
    split <;> rename_i compared <;> rw [order] at compared <;> rw [sub_eq_ofNat_iff]
    · omega
    · omega

def Statement.givenSize (s : State) (sym : SymbolLocation) (v : State) : Statement → BitVec 64
  | .size _ => (sizeWord (s.address sym) (s.address (endOf v.current (v.bytes v.current)))
      (s.address (endOf v.current (padTo 4 (v.bytes v.current))))).setWidth 64
  | .endfunc _ => (s.address (endOf v.current (v.bytes v.current)) - s.address sym).setWidth 64
  | _ => sym.size

theorem Statement.sizes_schedules {x : Statement} {sym : Str} (sizes : x.sizes sym = true) (s v : State)
    (label : SymbolLocation) : ∃ op, x.schedules v.current (v.bytes v.current) = some (sym, op) ∧
      op.sizes = true ∧ (op.symbolAfter s label).size = x.givenSize s label v := by
  cases x with
  | size l | endfunc l =>
    cases of_decide_eq_true sizes
    exact ⟨_, rfl, rfl, rfl⟩
  | opcode _ _ | type _ _ | label _ | db _ | data _ _ | resb _ | reserve _ _ | align _ | finishLabels
  | global _ | sect _ | org _ | execonly | readonly => cases sizes

def OffsetsFit (s : State) : Prop := ∀ (name : Str) (loc : SymbolLocation),
  s.lookup[name]? = some loc → loc.offset < 2 ^ 64

theorem OffsetsFit.exec {s t : State} {x : Statement} (h : OffsetsFit s) (run : x.exec s = .ok t) :
    OffsetsFit t := by
  intro name loc found
  rcases (Statement.exec_effect run).lookup_cases found with old | ⟨-, -, -, rfl⟩
  · exact h name loc old
  · have fits := s.bytes_fits s.current
    have padded := (x.le_padded_length fits).2
    have small : 2 ^ x.exponent ≤ 2 ^ 4 := Nat.pow_le_pow_right (by decide) x.exponent_le
    unfold maxSize at fits
    change (x.padded (s.bytes s.current)).length < 2 ^ 64
    omega

namespace Finished
variable {env : Env} {options : Options} (f : Finished env options)

theorem offset_lt {name : Str} {label : SymbolLocation} (found : f.state.lookup[name]? = some label) :
    label.offset < 2 ^ 64 := by
  have start : OffsetsFit (State.new options) := by
    intro name loc found
    cases (Std.ExtTreeMap.getElem?_empty (a := name)).symm.trans found
  have all := run_invariant OffsetsFit (fun _ _ _ h step => h.exec step) start f.program.ran
  have place := f.place name
  rw [found, Option.map_some] at place
  obtain ⟨old, there, same⟩ := Option.map_eq_some_iff.mp place.symm
  have offset : old.offset = label.offset := congrArg Prod.snd same
  rw [← offset]
  cases known : f.program.final.state.lookup[name]? with
  | some loc =>
    rw [known, Option.some_or] at there
    cases there
    exact all name old known
  | none =>
    rw [known, Option.none_or] at there
    split at there
    · cases there
      have fits := f.program.final.state.bytes_fits f.program.final.state.current
      exact lt_of_le_of_lt fits (by decide)
    · cases there

/-- The word of .size and the size of its symbol are the distance d, modulo 2^32. -/
def SizeEmits (v : State) (label : SymbolLocation) (d : Nat) : Prop :=
  wordAt (padTo 4 (v.bytes v.current)).length (f.state.bytes v.current) = BitVec.ofNat 32 d ∧
    label.size = (BitVec.ofNat 32 d).setWidth 64

/-- No .size or .endfunc of the symbol behind this .size gives it another size in the end. -/
def KeepsSize (pre : List Statement) (sym : Str) (label : SymbolLocation) (size : BitVec 64) : Prop :=
  ∀ mid y rest u, f.program.Processes (pre ++ .size sym :: mid) y rest u → y.sizes sym = true →
    (∀ z ∈ rest, z.sizes sym = false) → y.givenSize f.state label u = size

theorem size_kept_iff {pre post : List Statement} {v : State} {sym : Str} {label : SymbolLocation}
    {size : BitVec 64} (processed : f.program.Processes pre (.size sym) post v)
    (found : f.state.lookup[sym]? = some label)
    (given : (Statement.size sym).givenSize f.state label v = size) :
    label.size = size ↔ f.KeepsSize pre sym label size := by
  have settled : ∀ {pre' x post' u}, f.program.Processes pre' x post' u → x.sizes sym = true →
      (∀ y ∈ post', y.sizes sym = false) → label.size = x.givenSize f.state label u := by
    intro pre' x post' u here sizes last
    obtain ⟨op, scheduled, opSizes, same⟩ := Statement.sizes_schedules sizes f.state u label
    rw [← same]
    exact f.symbol_size here scheduled opSizes last found
  constructor
  · intro kept mid y rest u later sizes last
    rw [← kept, settled later sizes last]
  · intro kept
    rcases none_or_last (Statement.sizes sym) post with none | ⟨mid, y, rest, split, sizes, last⟩
    · rw [settled processed (decide_eq_true rfl) none, given]
    · have listed : f.program.statements = (pre ++ .size sym :: mid) ++ y :: rest := by
        rw [processed.split, split]
        simp
      obtain ⟨u, before, -⟩ := run_append_iff.mp (listed ▸ f.program.ran)
      have later : f.program.Processes (pre ++ .size sym :: mid) y rest u := ⟨listed, before⟩
      rw [settled later sizes last, kept mid y rest u later sizes last]

end Finished

/-- A label bound in the section at an offset other than that of the directive is measured right,
    unless its addresses pass the end of the address space or its size is set again. -/
theorem size_emits_distance_iff {env : Env} {options : Options} (f : Finished env options)
    {pre post : List Statement} {v : State} {sym : Str} {label : SymbolLocation} {d : Nat}
    (processed : f.program.Processes pre (.size sym) post v) (grows : f.program.Grows)
    (found : f.state.lookup[sym]? = some label) (bound : label.sect = v.current)
    (distance : if sym ∈ v.lookup then label.offset + d = (v.bytes v.current).length
      else (padTo 4 (v.bytes v.current)).length + 4 + d = label.offset) :
    f.SizeEmits v label d ↔ label.offset ≠ (v.bytes v.current).length ∧
      (SameSide (f.state.sectionAt v.current).baseAddress label.offset (v.bytes v.current).length ∨
        2 * label.offset % 2 ^ 32 =
          ((v.bytes v.current).length + (padTo 4 (v.bytes v.current)).length + 4) % 2 ^ 32) ∧
      f.KeepsSize pre sym label ((BitVec.ofNat 32 d).setWidth 64) := by
  have fits := v.bytes_fits v.current
  have padded := (Statement.size sym).le_padded_length fits
  change _ ≤ (padTo 4 (v.bytes v.current)).length ∧
    (padTo 4 (v.bytes v.current)).length < _ + 4 at padded
  have small : (v.bytes v.current).length < 2 ^ 64 := lt_of_le_of_lt fits (by decide)
  have apart : label.offset + d = (v.bytes v.current).length ∨
      (padTo 4 (v.bytes v.current)).length + 4 + d = label.offset := by
    split at distance
    · exact Or.inl distance
    · exact Or.inr distance
  have measured := @sizeWord_exact_iff (f.state.sectionAt v.current).baseAddress label.offset _ _ d
    (f.offset_lt found) small padded.1 padded.2 apart
  have target : f.state.address label =
      (f.state.sectionAt v.current).baseAddress + BitVec.ofNat 128 label.offset := by
    rw [State.address, Section.addressAt, bound]
  have word := f.size_word grows processed found
  rw [target] at word
  rw [← and_assoc, ← measured, Finished.SizeEmits, word]
  refine and_congr_right fun same => f.size_kept_iff processed found ?_
  rw [Statement.givenSize, target]
  exact congrArg (BitVec.setWidth 64) same

theorem size_of_word : ∃ (f : Finished Env.noFiles {}) (v : State) (label : SymbolLocation),
    f.state.lookup[lit "a"]? = some label ∧ f.SizeEmits v label 4 := by
  let pre : List Statement := [.label (lit "a"), .data .word [0, 0, 0, 0]]
  obtain ⟨p, listed, along, accepted, before, known, bytes, current, found, base⟩ :
      ∃ p : Program Env.noFiles {}, p.statements = pre ++ [.size (lit "a")] ∧
        Along Statement.exec Growing (State.new {}) p.statements ∧
        p.final.state.finish.isOk = true ∧ (execAll (State.new {}) pre).isOk = true ∧
        lit "a" ∈ (result (execAll (State.new {}) pre)).lookup ∧
        (result (execAll (State.new {}) pre)).bytes (lit ".text") = [0, 0, 0, 0] ∧
        (result (execAll (State.new {}) pre)).current = lit ".text" ∧
        (result p.final.state.finish).lookup[lit "a"]? = some ⟨lit ".text", 0, 0, 4⟩ ∧
        ((result p.final.state.finish).sectionAt (lit ".text")).baseAddress = 0x100000 :=
    ⟨Program.ofSource {} (lit "a: dw 0\n.size a") (by decide +kernel), by decide +kernel⟩
  let f : Finished Env.noFiles {} := ⟨p, result p.final.state.finish, eq_ok_result accepted⟩
  generalize ran : result (execAll (State.new {}) pre) = v at known bytes current
  have processed : f.program.Processes pre (.size (lit "a")) [] v :=
    ⟨listed, ran ▸ eq_ok_result before⟩
  refine ⟨f, v, _, found, (size_emits_distance_iff f processed (p.grows_iff.mpr along) found
    current.symm ?_).mpr ⟨?_, Or.inl ?_, ?_⟩⟩
  · rw [if_pos known, current, bytes]
    rfl
  · rw [current, bytes]
    decide
  · rw [current, bytes, base]
    decide
  · intro mid y rest u later
    have short := congrArg List.length (listed.symm.trans later.split)
    simp at short

theorem size_at_label_counts_back :
    ∃ (f : Finished Env.noFiles {}) (pre : List Statement) (v : State) (label : SymbolLocation),
      f.program.Processes pre (.size (lit "a")) [] v ∧ f.program.Grows ∧
      f.state.lookup[lit "a"]? = some label ∧ label.sect = v.current ∧ lit "a" ∈ v.lookup ∧
      label.offset = (v.bytes v.current).length ∧
      wordAt (padTo 4 (v.bytes v.current)).length (f.state.bytes v.current) = 0xFFFFFFFC ∧
      ¬ f.SizeEmits v label 0 := by
  let pre : List Statement := [.label (lit "a"), .finishLabels]
  obtain ⟨p, listed, along, accepted, before, known, start, current, found, word⟩ :
      ∃ p : Program Env.noFiles {}, p.statements = pre ++ [.size (lit "a")] ∧
        Along Statement.exec Growing (State.new {}) p.statements ∧
        p.final.state.finish.isOk = true ∧ (execAll (State.new {}) pre).isOk = true ∧
        lit "a" ∈ (result (execAll (State.new {}) pre)).lookup ∧
        (result (execAll (State.new {}) pre)).bytes (lit ".text") = [] ∧
        (result (execAll (State.new {}) pre)).current = lit ".text" ∧
        (result p.final.state.finish).lookup[lit "a"]? = some ⟨lit ".text", 0, 0, 0xFFFFFFFC⟩ ∧
        wordAt 0 ((result p.final.state.finish).bytes (lit ".text")) = 0xFFFFFFFC :=
    ⟨Program.ofSource {} (lit "a:\n.finish_labels\n.size a") (by decide +kernel), by decide +kernel⟩
  generalize ran : result (execAll (State.new {}) pre) = v at known start current
  refine ⟨⟨p, result p.final.state.finish, eq_ok_result accepted⟩, pre, v, _,
    ⟨listed, ran ▸ eq_ok_result before⟩, p.grows_iff.mpr along, found, current.symm, known, ?_, ?_, ?_⟩
  · rw [current, start]
    rfl
  · rw [current, start]
    exact word
  · rintro ⟨same, -⟩
    rw [current, start] at same
    exact absurd (word.symm.trans same) (by decide)

end BigAsm
