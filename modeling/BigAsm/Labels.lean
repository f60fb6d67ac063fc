import Mathlib
import BigAsm.Finished
import BigAsm.Relocation

/- Where a label ends up. It waits in its section until a statement of the section attaches
   labels; finish() attaches what waits then, all of it to the section that is current. -/
namespace BigAsm
open ByteStore Runs

def Attaching (sect : Str) (s : State) (x : Statement) : Prop :=
  s.current = sect ∧ x.flushes = true

/-- The statement puts an item into the section, or is its .finish_labels. -/
def Item (sect : Str) (s : State) (x : Statement) : Prop :=
  s.current = sect ∧ (x.emits = true ∨ x = .finishLabels)

/-- The statement puts nothing into the section, not even padding. -/
def Silent (sect : Str) (s : State) (x : Statement) : Prop :=
  s.current = sect → x.emits = false ∧ ∀ a, x ≠ .align a

structure Unseen (name : Str) (s : State) : Prop where
  unknown : s.lookup[name]? = none
  idle : ∀ n, name ∉ s.queue n

/-- The label waits in the section, and nowhere else. -/
structure Waits (name sect : Str) (s : State) : Prop where
  unknown : s.lookup[name]? = none
  here : name ∈ s.queue sect
  elsewhere : ∀ n, n ≠ sect → name ∉ s.queue n

namespace Statement
variable {x : Statement} {s t : State} {name sect : Str}

theorem Effect.mem_queue (effect : Effect x s t) {n : Str} (other : name ∉ x.declares)
    (waits : name ∈ t.queue n) : name ∈ s.queue n := by
  rw [effect.queue] at waits
  split at waits
  · rw [waiting_eq] at waits
    split at waits
    · cases waits
    · rcases List.mem_append.mp waits with old | new
      · exact old
      · exact absurd new other
  · exact waits

theorem Effect.unknown (effect : Effect x s t) (unknown : s.lookup[name]? = none)
    (idle : x.flushes = true → name ∉ s.queue s.current) : t.lookup[name]? = none := by
  cases found : t.lookup[name]? with
  | none => rfl
  | some loc =>
    rcases effect.lookup_cases found with old | ⟨-, flushes, waits, -⟩
    · exact absurd (unknown.symm.trans old) (by simp)
    · exact absurd waits (idle flushes)

end Statement

theorem Unseen.new (name : Str) (options : Options) : Unseen name (State.new options) where
  unknown := Std.ExtTreeMap.getElem?_empty
  idle n := by
    rw [(State.new_empty options n).2]
    exact List.not_mem_nil

theorem Unseen.exec {name : Str} {s t : State} {x : Statement} (h : Unseen name s)
    (other : name ∉ x.declares) (run : x.exec s = .ok t) : Unseen name t := by
  have effect := Statement.exec_effect run
  exact ⟨effect.unknown h.unknown fun _ => h.idle s.current,
    fun n waits => h.idle n (effect.mem_queue other waits)⟩

theorem Unseen.run {name : Str} {s t : State} {xs : List Statement} (h : Unseen name s)
    (other : name ∉ xs.flatMap Statement.declares) (run : execAll s xs = .ok t) : Unseen name t := by
  refine run_invariant_mem (Unseen name) (fun s x t mem unseen step => ?_) h run
  exact unseen.exec (fun declares => other (List.mem_flatMap.mpr ⟨x, mem, declares⟩)) step

theorem Unseen.declared {name : Str} {s t : State} (h : Unseen name s)
    (run : (Statement.label name).exec s = .ok t) : Waits name s.current t := by
  have effect := Statement.exec_effect run
  refine ⟨effect.unknown h.unknown nofun, ?_, fun n other => ?_⟩
  · rw [effect.queue, if_pos rfl]
    simp [Statement.waiting]
  · rw [effect.queue, if_neg other]
    exact h.idle n

theorem Waits.exec {name sect : Str} {s t : State} {x : Statement} (h : Waits name sect s)
    (other : name ∉ x.declares) (leaves : ¬ Attaching sect s x) (run : x.exec s = .ok t) :
    Waits name sect t := by
  have effect := Statement.exec_effect run
  refine ⟨effect.unknown h.unknown fun flushes => h.elsewhere s.current fun here =>
    leaves ⟨here, flushes⟩, ?_, fun n apart waits => h.elsewhere n apart (effect.mem_queue other waits)⟩
  rw [effect.queue]
  split
  · rename_i here
    have stays : ¬ x.flushes = true := fun flushes => leaves ⟨here.symm, flushes⟩
    rw [Statement.waiting_eq, if_neg stays]
    exact List.mem_append_left _ h.here
  · exact h.here

theorem Waits.attached {name sect : Str} {s t : State} {x : Statement} (h : Waits name sect s)
    (attaching : Attaching sect s x) (run : x.exec s = .ok t) :
    t.lookup[name]? = some (endOf sect (x.padded (s.bytes sect))) := by
  obtain ⟨rfl, flushes⟩ := attaching
  rw [(Statement.exec_effect run).lookup, Statement.symbols, if_pos flushes, State.getElem?_attach,
    h.unknown, if_pos h.here]
  rfl

theorem lookup_kept {name : Str} {s t : State} {xs : List Statement} {loc : SymbolLocation}
    (known : s.lookup[name]? = some loc) (run : execAll s xs = .ok t) :
    t.lookup[name]? = some loc :=
  run_invariant (fun s : State => s.lookup[name]? = some loc)
    (fun _ _ _ known step => (Statement.exec_effect step).lookup_kept known) known run

theorem Silent.bytes {sect : Str} {s t : State} {x : Statement} (silent : Silent sect s x)
    (run : x.exec s = .ok t) : t.bytes sect = s.bytes sect := by
  rw [(Statement.exec_effect run).bytes]
  split
  · rename_i here
    obtain ⟨quiet, unaligned⟩ := silent here.symm
    cases x with
    | opcode _ _ | db _ | data _ _ | resb _ | reserve _ _ | size _ => cases quiet
    | align a => exact absurd rfl (unaligned a)
    | label _ | finishLabels | endfunc _ | type _ _ | global _ | sect _ | org _ | execonly
      | readonly => rfl
  · rfl

theorem Silent.padded {sect : Str} {s : State} {x : Statement} (silent : Silent sect s x)
    (attaching : Attaching sect s x) (bs : List Byte) : x.padded bs = bs := by
  obtain ⟨quiet, -⟩ := silent attaching.1
  cases x with
  | opcode _ _ | db _ | data _ _ | resb _ | reserve _ _ | size _ => cases quiet
  | label _ | align _ | finishLabels | endfunc _ | type _ _ | global _ | sect _ | org _ | execonly
    | readonly => rfl

namespace Program.Processes
variable {env : Env} {options : Options} {p : Program env options} {pre post : List Statement}
  {name : Str} {s : State}

theorem label_waits (h : p.Processes pre (.label name) post s)
    (distinct : (p.statements.flatMap Statement.declares).Nodup) :
    ∃ t, (Statement.label name).exec s = .ok t ∧ Waits name s.current t ∧
      execAll t post = .ok p.final.state ∧ name ∉ post.flatMap Statement.declares := by
  have names : p.statements.flatMap Statement.declares =
      pre.flatMap Statement.declares ++ name :: post.flatMap Statement.declares := by
    rw [h.split, List.flatMap_append, List.flatMap_cons]
    rfl
  rw [names, List.nodup_append] at distinct
  obtain ⟨-, later, apart⟩ := distinct
  have before : name ∉ pre.flatMap Statement.declares :=
    fun early => apart name early name (by simp) rfl
  have unseen := (Unseen.new name options).run before h.before
  obtain ⟨t, step, rest⟩ := h.after
  exact ⟨t, step, unseen.declared step, rest, (List.nodup_cons.mp later).1⟩

theorem label_attached (h : p.Processes pre (.label name) post s)
    (distinct : (p.statements.flatMap Statement.declares).Nodup) {u : State} {y : Statement}
    (attached : First Statement.exec (Attaching s.current) s (.label name :: post) u y) :
    p.final.state.lookup[name]? = some (endOf s.current (y.padded (u.bytes s.current))) := by
  obtain ⟨t, step, waits, rest, once⟩ := h.label_waits distinct
  cases attached with
  | here holds => cases holds.2
  | later _ step' found =>
    cases step.symm.trans step'
    have others : Along Statement.exec (fun _ x => name ∉ x.declares) t post :=
      along_of_forall fun _ x mem declares => once (List.mem_flatMap.mpr ⟨x, mem, declares⟩)
    have waits' : Waits name s.current u := found.invariant (Waits name s.current)
      (fun m x n waits leaves other step => waits.exec other leaves step) others waits
    obtain ⟨v, ys, taken, after, -⟩ := found.rest rest
    exact lookup_kept (waits'.attached found.holds taken) after

theorem label_waiting (h : p.Processes pre (.label name) post s)
    (distinct : (p.statements.flatMap Statement.declares).Nodup)
    (never : Along Statement.exec (fun t x => ¬ Attaching s.current t x) s (.label name :: post)) :
    Waits name s.current p.final.state := by
  obtain ⟨t, step, waits, rest, once⟩ := h.label_waits distinct
  have along := along_mono (Q := fun t x => ¬ Attaching s.current t x ∧ name ∉ x.declares)
    (fun m x mem leaves => ⟨leaves, fun declares =>
      once (List.mem_flatMap.mpr ⟨x, mem, declares⟩)⟩) (never.2 t step)
  exact run_invariant_along (Waits name s.current)
    (fun m x n waits apart step => waits.exec apart.2 apart.1 step) along waits rest

theorem attached_or_waiting (h : p.Processes pre (.label name) post s) :
    (∃ u y, First Statement.exec (Attaching s.current) s (.label name :: post) u y) ∨
      Along Statement.exec (fun t x => ¬ Attaching s.current t x) s (.label name :: post) := by
  obtain ⟨t, step, rest⟩ := h.after
  exact first_or_along (run_cons_iff.mpr ⟨t, step, rest⟩)

end Program.Processes

namespace State
variable {s t : State}

theorem known_of_queue {n name : Str} (waits : name ∈ s.queue n) : n ∈ s.sections := by
  by_contra missing
  rw [queue, sectionAt, Std.ExtTreeMap.getElem?_eq_none missing] at waits
  cases waits

theorem runScheduled_place {entry : Str × ScheduledOp} (run : s.runScheduled entry = .ok t)
    (name : Str) : (t.lookup[name]?).map SymbolLocation.place =
      (s.lookup[name]?).map SymbolLocation.place := by
  obtain ⟨sym, found, ran⟩ := runScheduled_ran run
  rw [ran.lookup]
  split
  · rename_i same
    rw [← same, found]
    cases entry.2 <;> rfl
  · rfl

theorem finishScheduledWork_place (run : s.finishScheduledWork = .ok t) (name : Str) :
    (t.lookup[name]?).map SymbolLocation.place = (s.lookup[name]?).map SymbolLocation.place := by
  exact finishScheduledWork_relation (R := fun a b : State =>
      (b.lookup[name]?).map SymbolLocation.place = (a.lookup[name]?).map SymbolLocation.place)
    (fun _ => rfl) (fun _ _ _ first second => second.trans first)
    (fun a entry b step => runScheduled_place step name) run

end State

namespace Finished
variable {env : Env} {options : Options}

theorem place (f : Finished env options) (name : Str) :
    (f.state.lookup[name]?).map SymbolLocation.place =
      (f.program.final.state.lookup[name]?.or
        (if ∃ n ∈ f.program.final.state.sections.keys, name ∈ f.program.final.state.queue n then
          some f.program.final.state.currentLocation else none)).map SymbolLocation.place := by
  obtain ⟨u, prepared, finished⟩ := bind_ok_iff.mp f.done
  obtain ⟨first, order, indexed, -⟩ := (State.Reachable.ofProgram f.program).anchored
  obtain ⟨m, u', flushed, run, placed⟩ := State.prepare_ok indexed
  cases run.symm.trans prepared
  rw [State.finishScheduledWork_place finished, placed.lookup, flushed.lookup]

theorem sizes (f : Finished env options) (n : Str) :
    (f.state.bytes n).length = (f.program.final.state.bytes n).length := by
  obtain ⟨first, order, indexed, -⟩ := (State.Reachable.ofProgram f.program).anchored
  exact State.finish_sizes indexed f.done n

end Finished

theorem Finished.place_attached {env : Env} {options : Options} (f : Finished env options)
    {name sect : Str} {bs : List Byte}
    (attached : f.program.final.state.lookup[name]? = some (endOf sect bs)) :
    (f.state.lookup[name]?).map SymbolLocation.place = some (sect, bs.length) := by
  rw [f.place, attached]
  rfl

theorem Finished.place_waiting {env : Env} {options : Options} (f : Finished env options)
    {name sect : Str} (waits : Waits name sect f.program.final.state) :
    (f.state.lookup[name]?).map SymbolLocation.place =
      some f.program.final.state.currentLocation.place := by
  rw [f.place, waits.unknown, if_pos ⟨sect, Std.ExtTreeMap.mem_keys.mpr
    (State.known_of_queue waits.here), waits.here⟩]
  rfl

/-- A label keeps the section it was declared in exactly when a later statement in that section
    attaches labels, or the program ends in that section. A label that keeps its section, and
    has nothing after it there, is at the end of the section. -/
theorem label_keeps_section_iff {env : Env} {options : Options} (f : Finished env options)
    {pre post : List Statement} {name : Str} {s : State}
    (distinct : (f.program.statements.flatMap Statement.declares).Nodup)
    (declared : f.program.Processes pre (.label name) post s) :
    (∃ loc, f.state.lookup[name]? = some loc ∧ loc.sect = s.current ∧
        (Along Statement.exec (Silent s.current) s (.label name :: post) →
          loc.offset = (f.state.bytes s.current).length)) ↔
      f.program.final.state.current = s.current ∨
        ∃ u y, First Statement.exec (Attaching s.current) s (.label name :: post) u y := by
  have settled : ∀ place, (f.state.lookup[name]?).map SymbolLocation.place = some place →
      ∃ loc, f.state.lookup[name]? = some loc ∧ loc.place = place :=
    fun place same => Option.map_eq_some_iff.mp same
  rcases declared.attached_or_waiting with ⟨u, y, found⟩ | never
  · refine iff_of_true ?_ (Or.inr ⟨u, y, found⟩)
    have attached := declared.label_attached distinct found
    obtain ⟨loc, there, place⟩ := settled _ (f.place_attached attached)
    refine ⟨loc, there, congrArg Prod.fst place, fun silent => ?_⟩
    obtain ⟨t, step, rest⟩ := declared.after
    have run : execAll s (.label name :: post) = .ok f.program.final.state :=
      run_cons_iff.mpr ⟨t, step, rest⟩
    have kept : f.program.final.state.bytes s.current = s.bytes s.current :=
      run_invariant_along (fun t => t.bytes s.current = s.bytes s.current)
        (fun m x n same silent step => (silent.bytes step).trans same) silent rfl run
    have early : u.bytes s.current = s.bytes s.current :=
      found.invariant (fun t => t.bytes s.current = s.bytes s.current)
        (fun m x n same _ silent step => (silent.bytes step).trans same) silent rfl
    have plain : y.padded (u.bytes s.current) = u.bytes s.current :=
      Silent.padded (found.of_along silent) found.holds _
    have offset : loc.offset = (y.padded (u.bytes s.current)).length := congrArg Prod.snd place
    rw [offset, plain, early, f.sizes, kept]
  · have waits := declared.label_waiting distinct never
    obtain ⟨loc, there, place⟩ := settled _ (f.place_waiting waits)
    have sect : loc.sect = f.program.final.state.current := congrArg Prod.fst place
    have offset : loc.offset = (f.program.final.state.bytes f.program.final.state.current).length :=
      congrArg Prod.snd place
    constructor
    · rintro ⟨loc', there', own, -⟩
      cases there.symm.trans there'
      exact Or.inl (sect.symm.trans own)
    · rintro (here | ⟨u, y, found⟩)
      · refine ⟨loc, there, sect.trans here, fun _ => ?_⟩
        rw [offset, here, f.sizes]
      · exact absurd never found.not_along

theorem label_before_byte_stays :
    ∃ (f : Finished Env.noFiles {}) (loc : SymbolLocation),
      f.state.lookup[lit "a"]? = some loc ∧ loc.sect = (State.new {}).current := by
  obtain ⟨p, listed, here, accepted⟩ : ∃ p : Program Env.noFiles {},
      p.statements = [.label (lit "a"), .db 1] ∧
        p.final.state.current = (State.new {}).current ∧ p.final.state.finish.isOk = true :=
    ⟨Program.ofSource {} (lit "a: db 1") (by decide +kernel), by decide +kernel⟩
  have distinct : (p.statements.flatMap Statement.declares).Nodup := by
    rw [listed]
    decide
  obtain ⟨loc, there, own, -⟩ := (@label_keeps_section_iff Env.noFiles {}
    ⟨p, result p.final.state.finish, eq_ok_result accepted⟩ [] [.db 1] (lit "a")
    (State.new {}) distinct ⟨listed, run_nil_iff.mpr rfl⟩).mpr (Or.inl here)
  exact ⟨⟨p, result p.final.state.finish, eq_ok_result accepted⟩, loc, there, own⟩

theorem label_leaves_section :
    ∃ (f : Finished Env.noFiles {}) (post : List Statement) (loc : SymbolLocation),
      f.program.Processes [] (.label (lit "a")) post (State.new {}) ∧
      (f.program.statements.flatMap Statement.declares).Nodup ∧
      f.state.lookup[lit "a"]? = some loc ∧ loc.sect ≠ (State.new {}).current := by
  obtain ⟨p, listed, accepted, there, apart⟩ : ∃ p : Program Env.noFiles {},
      p.statements = [.label (lit "a"), .sect (lit ".data")] ∧
        p.final.state.finish.isOk = true ∧
        (result p.final.state.finish).lookup[lit "a"]? = some ⟨lit ".data", 0, 0, 0⟩ ∧
        lit ".data" ≠ (State.new {}).current :=
    ⟨Program.ofSource {} (lit "a:\n.section .data\n") (by decide +kernel), by decide +kernel⟩
  have distinct : (p.statements.flatMap Statement.declares).Nodup := by
    rw [listed]
    decide
  exact ⟨⟨p, result p.final.state.finish, eq_ok_result accepted⟩, _, _,
    ⟨listed, run_nil_iff.mpr rfl⟩, distinct, there, apart⟩

def RecordedAt (s : State) (name : Str) (offset : Nat) : Prop :=
  (s.lookup[name]?).map SymbolLocation.offset = some offset

theorem Attaching.item {sect : Str} {s : State} {x : Statement} (h : Attaching sect s x) :
    Item sect s x := by
  obtain ⟨here, flushes⟩ := h
  refine ⟨here, ?_⟩
  cases x with
  | opcode _ _ | data _ _ | reserve _ _ | size _ => exact Or.inl rfl
  | finishLabels => exact Or.inr rfl
  | label _ | db _ | resb _ | align _ | endfunc _ | type _ _ | global _ | sect _ | org _ | execonly
    | readonly => cases flushes

/-- A label is recorded at the first item after it in its section exactly when this item
    attaches labels, as all of them but db and resb do, or when the next statement there that
    does starts at the same offset. What nothing attaches is recorded by finish(), at the size
    of the section that is current in the end. -/
theorem label_at_first_item_iff {env : Env} {options : Options} (p : Program env options)
    {pre post : List Statement} {name : Str} {s u : State} {x : Statement}
    (distinct : (p.statements.flatMap Statement.declares).Nodup)
    (declared : p.Processes pre (.label name) post s)
    (item : First Statement.exec (Item s.current) s (.label name :: post) u x) :
    (RecordedAt p.final.state name (x.padded (u.bytes s.current)).length ↔
        x.flushes = true ∨ ∃ v y,
          First Statement.exec (Attaching s.current) s (.label name :: post) v y ∧
          (y.padded (v.bytes s.current)).length = (x.padded (u.bytes s.current)).length) ∧
      ∀ f : Finished env options, f.program = p →
        (RecordedAt f.state name (x.padded (u.bytes s.current)).length ↔
          x.flushes = true ∨ (∃ v y,
            First Statement.exec (Attaching s.current) s (.label name :: post) v y ∧
            (y.padded (v.bytes s.current)).length = (x.padded (u.bytes s.current)).length) ∨
          Along Statement.exec (fun t z => ¬ Attaching s.current t z) s (.label name :: post) ∧
            (p.final.state.bytes p.final.state.current).length =
              (x.padded (u.bytes s.current)).length) := by
  have itself : x.flushes = true →
      First Statement.exec (Attaching s.current) s (.label name :: post) u x :=
    fun flushes => item.narrow (fun _ _ => Attaching.item) ⟨item.holds.1, flushes⟩
  have offset : ∀ t : State, (t.lookup[name]?).map SymbolLocation.offset =
      ((t.lookup[name]?).map SymbolLocation.place).map Prod.snd := by
    intro t
    rw [Option.map_map]
    rfl
  rcases declared.attached_or_waiting with ⟨v, y, found⟩ | never
  · -- the next statement that attaches labels decides, and it is the item if that does
    have attached := declared.label_attached distinct found
    have next : (x.flushes = true ∨ ∃ v y,
        First Statement.exec (Attaching s.current) s (.label name :: post) v y ∧
        (y.padded (v.bytes s.current)).length = (x.padded (u.bytes s.current)).length) ↔
        (y.padded (v.bytes s.current)).length = (x.padded (u.bytes s.current)).length := by
      constructor
      · rintro (flushes | ⟨v', y', found', same⟩)
        · obtain ⟨rfl, rfl⟩ := found.unique (itself flushes)
          rfl
        · obtain ⟨rfl, rfl⟩ := found.unique found'
          exact same
      · exact fun same => Or.inr ⟨v, y, found, same⟩
    refine ⟨?_, fun f program => ?_⟩
    · rw [next, RecordedAt, attached]
      exact Option.some_inj
    · subst program
      rw [← or_assoc, next, or_iff_left fun late => found.not_along late.1, RecordedAt, offset,
        f.place_attached attached]
      exact Option.some_inj
  · have waits := declared.label_waiting distinct never
    have later : ¬ ∃ v y, First Statement.exec (Attaching s.current) s (.label name :: post) v y ∧
        (y.padded (v.bytes s.current)).length = (x.padded (u.bytes s.current)).length :=
      fun ⟨_, _, found, _⟩ => found.not_along never
    have silent : ¬ x.flushes = true := fun flushes => (itself flushes).not_along never
    refine ⟨?_, fun f program => ?_⟩
    · rw [RecordedAt, waits.unknown, or_iff_right silent]
      exact iff_of_false nofun later
    · subst program
      rw [or_iff_right silent, or_iff_right later, and_iff_right never, RecordedAt, offset,
        f.place_waiting waits]
      exact Option.some_inj

theorem label_of_word :
    ∃ p : Program Env.noFiles {}, RecordedAt p.final.state (lit "a") 0 := by
  obtain ⟨p, listed, start⟩ : ∃ p : Program Env.noFiles {},
      p.statements = [.label (lit "a"), .data .word [1, 0, 0, 0]] ∧
        ((Statement.data .word [1, 0, 0, 0]).padded
          (((State.new {}).addLabelSoon (lit "a")).bytes (State.new {}).current)).length = 0 :=
    ⟨Program.ofSource {} (lit "a: dw 1") (by decide +kernel), by decide +kernel⟩
  have distinct : (p.statements.flatMap Statement.declares).Nodup := by
    rw [listed]
    decide
  have item : First Statement.exec (Item (State.new {}).current) (State.new {})
      [.label (lit "a"), .data .word [1, 0, 0, 0]] ((State.new {}).addLabelSoon (lit "a"))
      (.data .word [1, 0, 0, 0]) := by
    refine .later (t := (State.new {}).addLabelSoon (lit "a")) ?_ rfl (.here ⟨rfl, Or.inl rfl⟩)
    simp [Item, Statement.emits]
  refine ⟨p, ?_⟩
  rw [← start]
  exact (@label_at_first_item_iff Env.noFiles {} p [] [.data .word [1, 0, 0, 0]] (lit "a")
    (State.new {}) _ _ distinct ⟨listed, run_nil_iff.mpr rfl⟩ item).1.mpr (Or.inl rfl)

theorem label_skips_byte :
    ∃ (p : Program Env.noFiles {}) (post : List Statement) (u : State) (x : Statement),
      p.Processes [] (.label (lit "a")) post (State.new {}) ∧
      (p.statements.flatMap Statement.declares).Nodup ∧
      First Statement.exec (Item (State.new {}).current) (State.new {}) (.label (lit "a") :: post) u x ∧
      ¬ RecordedAt p.final.state (lit "a") (x.padded (u.bytes (State.new {}).current)).length := by
  obtain ⟨p, listed, start, recorded⟩ : ∃ p : Program Env.noFiles {},
      p.statements = [.label (lit "a"), .db 1, .data .word [2, 0, 0, 0]] ∧
        ((Statement.db 1).padded
          (((State.new {}).addLabelSoon (lit "a")).bytes (State.new {}).current)).length = 0 ∧
        (p.final.state.lookup[lit "a"]?).map SymbolLocation.offset = some 4 :=
    ⟨Program.ofSource {} (lit "a: db 1\ndw 2") (by decide +kernel), by decide +kernel⟩
  have distinct : (p.statements.flatMap Statement.declares).Nodup := by
    rw [listed]
    decide
  have item : First Statement.exec (Item (State.new {}).current) (State.new {})
      [.label (lit "a"), .db 1, .data .word [2, 0, 0, 0]]
      ((State.new {}).addLabelSoon (lit "a")) (.db 1) := by
    refine .later (t := (State.new {}).addLabelSoon (lit "a")) ?_ rfl (.here ⟨rfl, Or.inl rfl⟩)
    simp [Item, Statement.emits]
  refine ⟨p, _, _, _, ⟨listed, run_nil_iff.mpr rfl⟩, distinct, item, ?_⟩
  rw [start, RecordedAt, recorded]
  decide

end BigAsm
