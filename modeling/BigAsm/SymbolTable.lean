import Mathlib
import BigAsm.Outputs

/- The symbol table of the written file, from the source: a third pass over the statements finds
   what .type, .size and .endfunc make of a label, in the order they stand in the source. -/
namespace BigAsm
open ByteStore CData Runs

structure Attributes where
  type : BitVec 32 := 0
  size : BitVec 64 := 0

def SymbolLocation.attributes (sym : SymbolLocation) : Attributes := ⟨sym.type, sym.size⟩

def Statement.describe (m : LinkMap) (v : Survey) (name : Str) (target : BitVec 128)
    (a : Attributes) (x : Statement) : Attributes :=
  let here := m.address v.current (v.size v.current)
  match x with
  | .endfunc sym => if sym = name then ⟨STT_FUNC, (here - target).setWidth 64⟩ else a
  | .type sym t => if sym = name then { a with type := t } else a
  | .size sym =>
    if sym = name then
      { a with size := (sizeWord target here
          (m.address v.current (x.start (v.size v.current)))).setWidth 64 }
    else a
  | _ => a

/-- The third pass: the attributes of one label behind all statements. -/
def thirdPass (m : LinkMap) (xs : List Statement) (name : Str) : Attributes :=
  (xs.foldl (fun w x => (w.1.next x, x.describe m w.1 name ((m.target name).getD 0) w.2))
    (Survey.start, {})).2

def ScheduledOp.describe (s : State) (target : BitVec 128) (a : Attributes) :
    ScheduledOp → Attributes
  | .fixup .. => a
  | .endfunc loc => ⟨STT_FUNC, (s.address loc - target).setWidth 64⟩
  | .type t => { a with type := t }
  | .size loc dataloc =>
    { a with size := (sizeWord target (s.address dataloc) (s.address loc)).setWidth 64 }

def describeAll (s : State) (target : BitVec 128) (ops : List ScheduledOp) (a : Attributes) :
    Attributes := ops.foldl (ScheduledOp.describe s target) a

theorem describeAll_append (s : State) (target : BitVec 128) (ops more : List ScheduledOp)
    (a : Attributes) : describeAll s target (ops ++ more) a =
      describeAll s target more (describeAll s target ops a) := List.foldl_append

theorem ScheduledOp.symbolAfter_describe {F s : State} {sym : SymbolLocation} (op : ScheduledOp)
    (base : ∀ n, (s.sectionAt n).baseAddress = (F.sectionAt n).baseAddress) :
    (op.symbolAfter s sym).place = sym.place ∧
      (op.symbolAfter s sym).attributes = op.describe F (F.address sym) sym.attributes := by
  have here : ∀ loc, s.address loc = F.address loc := fun loc => State.address_of_base base rfl
  cases op with
  | fixup f loc | type t => exact ⟨rfl, rfl⟩
  | endfunc loc => exact ⟨rfl, by simp only [symbolAfter, here]; rfl⟩
  | size loc dataloc => exact ⟨rfl, by simp only [symbolAfter, here]; rfl⟩

namespace State
variable {F s t : State} {name : Str}

def opsOf (name : Str) (entries : List (Str × ScheduledOp)) : List ScheduledOp :=
  (entries.filter fun e => e.1 = name).map Prod.snd

theorem runScheduled_describes {entries : List (Str × ScheduledOp)} {sym : SymbolLocation}
    (base : ∀ n, (s.sectionAt n).baseAddress = (F.sectionAt n).baseAddress)
    (run : entries.foldlM runScheduled s = .ok t) (found : s.lookup[name]? = some sym) :
    ∃ sym', t.lookup[name]? = some sym' ∧ sym'.place = sym.place ∧
      sym'.attributes = describeAll F (F.address sym) (opsOf name entries) sym.attributes := by
  induction entries generalizing s sym with
  | nil =>
    cases run_nil_iff.mp run
    exact ⟨sym, found, rfl, rfl⟩
  | cons entry entries ih =>
    obtain ⟨m, first, rest⟩ := run_cons_iff.mp run
    obtain ⟨old, known, ran⟩ := runScheduled_ran first
    have base' : ∀ n, (m.sectionAt n).baseAddress = (F.sectionAt n).baseAddress :=
      fun n => (ran.base n).trans (base n)
    have after := ran.lookup name
    by_cases same : entry.1 = name
    · subst same
      cases known.symm.trans found
      rw [if_pos rfl] at after
      obtain ⟨place, given⟩ : (entry.2.symbolAfter s sym).place = sym.place ∧ _ :=
        entry.2.symbolAfter_describe base
      obtain ⟨sym', there, placed, described⟩ := ih base' rest after
      have target : F.address (entry.2.symbolAfter s sym) = F.address sym :=
        address_of_base (fun _ => rfl) place
      have listed : opsOf entry.1 (entry :: entries) = entry.2 :: opsOf entry.1 entries := by
        simp [opsOf]
      refine ⟨sym', there, placed.trans place, ?_⟩
      rw [described, target, given, listed]
      rfl
    · rw [if_neg same, found] at after
      have listed : opsOf name (entry :: entries) = opsOf name entries := by
        simp [opsOf, same]
      rw [listed]
      exact ih base' rest after

theorem opsOf_scheduled (s : State) (name : Str) :
    opsOf name s.scheduled = (s.schedule[name]?).getD [] := OrderedMaps.flatten_filter _ _

end State

theorem Statement.Effect.opsOf {x : Statement} {s t : State} (effect : Effect x s t) (name : Str) :
    State.opsOf name t.scheduled = State.opsOf name s.scheduled ++
      State.opsOf name (x.schedules s.current (s.bytes s.current)).toList := by
  have pushed : t.schedule =
      OrderedMaps.pushAll s.schedule (x.schedules s.current (s.bytes s.current)).toList := by
    rw [effect.schedule, Statement.schedule]
    cases x.schedules s.current (s.bytes s.current) <;> rfl
  rw [State.opsOf_scheduled, State.opsOf_scheduled, pushed, OrderedMaps.getD_pushAll]
  rfl

theorem Statement.describe_eq {F s : State} {v : Survey} {x : Statement} (surveys : Surveys v s)
    (name : Str) (target : BitVec 128) (a : Attributes) :
    x.describe F.linkMap v name target a = describeAll F target
      (State.opsOf name (x.schedules s.current (s.bytes s.current)).toList) a := by
  have here : F.linkMap.address v.current (v.size v.current) =
      F.address (endOf s.current (s.bytes s.current)) := by
    rw [surveys.current, surveys.size]
    rfl
  have single : ∀ sym op, describeAll F target (State.opsOf name [(sym, op)]) a =
      if sym = name then op.describe F target a else a := by
    intro sym op
    by_cases same : sym = name <;> simp [State.opsOf, same, describeAll]
  cases x with
  | opcode code wf =>
    rcases code with ⟨words, _ | ⟨lbl, f⟩⟩
    · rfl
    · change a = describeAll F target (State.opsOf name [(lbl, _)]) a
      rw [single]
      exact (ite_self a).symm
  | endfunc sym =>
    change (if sym = name then _ else a) = describeAll F target (State.opsOf name [(sym, _)]) a
    rw [single, here]
    rfl
  | type sym t =>
    change (if sym = name then _ else a) = describeAll F target (State.opsOf name [(sym, _)]) a
    rw [single]
    rfl
  | size sym =>
    have padded := (Statement.size sym).padded_length (s.bytes_fits s.current)
    change _ = (Statement.size sym).start (s.bytes s.current).length at padded
    have word : F.linkMap.address v.current ((Statement.size sym).start (v.size v.current)) =
        F.address (endOf s.current ((Statement.size sym).padded (s.bytes s.current))) := by
      rw [surveys.current, surveys.size, ← padded]
      rfl
    change (if sym = name then _ else a) = describeAll F target (State.opsOf name [(sym, _)]) a
    rw [single, here, word]
    rfl
  | label _ | db _ | data _ _ | resb _ | reserve _ _ | align _ | finishLabels | global _ | sect _
  | org _ | execonly | readonly => rfl

namespace State

def Blank (s : State) : Prop := ∀ (name : Str) (sym : SymbolLocation),
  s.lookup[name]? = some sym → sym.attributes = {}

theorem Blank.exec {s t : State} {x : Statement} (blank : s.Blank) (run : x.exec s = .ok t) :
    t.Blank := by
  intro name sym found
  rcases (Statement.exec_effect run).lookup_cases found with old | ⟨-, -, -, rfl⟩
  · exact blank name sym old
  · rfl

end State

theorem Program.prepared_blank {env : Env} {options : Options} (p : Program env options) {u : State}
    (run : p.final.state.prepare = .ok u) : u.Blank := by
  have start : (State.new options).Blank := by
    intro name sym found
    cases (Std.ExtTreeMap.getElem?_empty (a := name)).symm.trans found
  have blank := run_invariant State.Blank (fun _ _ _ blank step => blank.exec step) start p.ran
  obtain ⟨first, order, indexed, -⟩ := (State.Reachable.ofProgram p).anchored
  obtain ⟨m, u', flushed, run', placed⟩ := State.prepare_ok indexed
  cases run.symm.trans run'
  intro name sym found
  rw [placed.lookup, flushed.lookup] at found
  rcases Option.or_eq_some_iff.mp found with old | ⟨-, new⟩
  · exact blank name sym old
  · split at new
    · cases new
      rfl
    · cases new

structure Describes (F : State) (name : Str) (target : BitVec 128) (w : Survey × Attributes)
    (s : State) : Prop where
  surveys : Surveys w.1 s
  attributes : w.2 = describeAll F target (State.opsOf name s.scheduled) {}

theorem Describes.run {F s : State} {options : Options} {xs : List Statement}
    (grows : Along Statement.exec Growing (State.new options) xs)
    (run : execAll (State.new options) xs = .ok s) (name : Str) :
    thirdPass F.linkMap xs name = describeAll F ((F.linkMap.target name).getD 0)
      (State.opsOf name s.scheduled) {} := by
  let target := (F.linkMap.target name).getD 0
  have start : Describes F name target (Survey.start, {}) (State.new options) :=
    ⟨Surveys.new options, rfl⟩
  refine (run_fold_along (Describes F name target)
    (fun w x => (w.1.next x, x.describe F.linkMap w.1 name target w.2)) ?_ grows start run).attributes
  intro w m x t h grows step
  refine ⟨h.surveys.next grows step, ?_⟩
  rw [(Statement.exec_effect step).opsOf, describeAll_append, ← h.attributes]
  exact Statement.describe_eq h.surveys name target w.2

theorem Finished.described {env : Env} {options : Options} (f : Finished env options)
    (grows : f.program.Grows) {name : Str} {sym : SymbolLocation}
    (found : f.state.lookup[name]? = some sym) :
    sym.attributes = thirdPass f.map f.program.statements name := by
  obtain ⟨u, run, frame, -⟩ := f.frame grows
  obtain ⟨u', run', finished⟩ := bind_ok_iff.mp f.done
  cases run.symm.trans run'
  obtain ⟨listed, worked⟩ := f.program.prepared_scheduled run
  rw [worked] at finished
  have before := (frame.mem_lookup name).mp (Std.ExtTreeMap.mem_iff_isSome_getElem?.mpr (by rw [found]; rfl))
  obtain ⟨old, known⟩ := State.mem_lookup_iff.mp before
  obtain ⟨sym', there, place, given⟩ :=
    State.runScheduled_describes (F := f.state) (fun n => (frame.base n).symm) finished known
  cases found.symm.trans there
  have target : f.state.address old = f.state.address sym :=
    State.address_of_base (fun _ => rfl) place.symm
  have passed := Describes.run (F := f.state) (f.program.grows_iff.mp grows) f.program.ran name
  rw [State.linkMap_target found, Option.getD_some, f.linkMap_eq grows] at passed
  rw [given, f.program.prepared_blank run name old known, target, listed]
  exact passed.symm

structure Symbol where
  name : Str
  value : Nat
  size : Nat
  kind : Nat
  deriving DecidableEq

/-- The symbols of a file behind the null entry, found by the section headers. -/
def listSymbols (c : ElfClass) (file : List Byte) : List Symbol :=
  match sectionNamed c file (lit ".symtab") with
  | none => []
  | some symtab =>
    let strtab := (sectionHeaders c file).getD symtab.link.toNat {}
    (symtab.symbols file).tail.map fun sym =>
      ⟨strtab.stringAt file sym.name.toNat, sym.value.toNat, sym.size.toNat, sym.kind⟩

def sourceSymbol (c : ElfClass) (m : LinkMap) (xs : List Statement) (name : Str) : Symbol :=
  let a := thirdPass m xs name
  ⟨name, ((m.target name).getD 0).toNat % 2 ^ (8 * c.addrBytes), a.size.toNat, a.type.toNat⟩

def sourceSymbols (c : ElfClass) (m : LinkMap) (xs : List Statement) : List Symbol :=
  (xs.flatMap Statement.declares).dedup.map (sourceSymbol c m xs)

theorem Finished.names_perm {env : Env} {options : Options} (f : Finished env options)
    (grows : f.program.Grows) (order : f.state.SymbolOrder) :
    order.names.Perm (f.program.statements.flatMap Statement.declares).dedup := by
  refine (List.perm_ext_iff_of_nodup order.names_nodup (List.nodup_dedup _)).mpr ?_
  intro name
  rw [order.names_perm.mem_iff, Std.ExtTreeMap.mem_keys, f.mem_lookup grows name, List.mem_dedup]
  rfl

theorem Finished.lines_eq {c : ElfClass} {env : Env} {options : Options} (f : Finished env options)
    (grows : f.program.Grows) (order : f.state.SymbolOrder) {strtab : Shdr c} {file : List Byte}
    {entries : List (Sym c)}
    (each : List.Forall₂ (Entry f.state strtab file) entries order.symbols) :
    (entries.map fun sym => (⟨strtab.stringAt file sym.name.toNat, sym.value.toNat, sym.size.toNat,
        sym.kind⟩ : Symbol)) =
      order.symbols.map (sourceSymbol c f.map f.program.statements ∘ Prod.fst) := by
  have known : ∀ symbol ∈ order.symbols, f.state.lookup[symbol.1]? = some symbol.2 :=
    fun symbol mem => Std.ExtTreeMap.mem_toList_iff_getElem?_eq_some.mp (order.perm.mem_iff.mp mem)
  rw [← List.forall₂_eq_eq_eq, List.forall₂_map_left_iff, List.forall₂_map_right_iff]
  refine ((List.forall₂_and_left _ _).mpr ⟨known, each.flip⟩).flip.imp ?_
  rintro sym ⟨name, loc⟩ ⟨found, entry⟩
  have described := f.described grows found
  have target : f.map.target name = some (f.state.address loc) := by
    rw [Finished.map, ← f.linkMap_eq grows]
    exact State.linkMap_target found
  rw [Function.comp_apply, sourceSymbol, ← described, target, entry.name, entry.value, entry.size,
    entry.kind, Option.getD_some, BitVec.toNat_setWidth]
  rfl

/-- Listing the symbol table of the written file gives what the source says of each label: its
    address, as far as the layout holds it, and the type and size that its .type, .size and .endfunc
    leave it. -/
theorem symbols_follow_source (c : ElfClass) {env : Env} {options : Options}
    (f : Finished env options) (grows : f.program.Grows) (order : f.state.SymbolOrder) {e : ElfBin c}
    (written : f.state.elfWriter c options order = .ok e)
    (room : f.state.lastHeaderAt c order ≤ 262144)
    (plain : ∀ name, f.program.Declares name → (0 : Byte) ∉ name) :
    ∃ file, e.file = .ok file ∧ (listSymbols c file).Perm
      (sourceSymbols c ⟨f.state.baseOf, (firstPass f.program.statements).places⟩
        f.program.statements) := by
  obtain ⟨entry, w⟩ := State.Written.of_ok written
  have small := State.Written.parts_small room
  have named : ∀ symbol ∈ order.symbols, (0 : Byte) ∉ symbol.1 :=
    (order.forall_names fun name => 0 ∉ name).mpr fun name known =>
      plain name ((f.mem_lookup grows name).mp known)
  have entries := symbolEntries_entries (s := f.state) (c := c) [] (w.strings_contents room)
    (by omega) rfl rfl named (SymbolOrder_typed f order)
  refine ⟨e.bin, w.file_eq room, ?_⟩
  have lines : listSymbols c e.bin = order.names.map (sourceSymbol c f.map f.program.statements) := by
    rw [listSymbols, w.symtab_eq room]
    dsimp only
    rw [List.getD_eq_getElem?_getD, w.strtab_eq, Option.getD_some, w.symbols_eq room, List.tail_cons,
      State.SymbolOrder.names, List.map_map]
    exact f.lines_eq grows order entries
  rw [lines]
  exact (f.names_perm grows order).map _

theorem two_symbols_follow : ∃ (f : Finished Env.noFiles {}) (order : f.state.SymbolOrder)
    (e : ElfBin .elf64) (file : List Byte), f.state.elfWriter .elf64 {} order = .ok e ∧
      e.file = .ok file ∧ (listSymbols .elf64 file).Perm
        [⟨lit "_start", 0x100000, 4, 2⟩, ⟨lit "n", 0x101000, 4, 1⟩] := by
  obtain ⟨p, along, accepted, starts, room, plain, lines⟩ : ∃ p : Program Env.noFiles {},
      Along Statement.exec Growing (State.new {}) p.statements ∧
        p.final.state.finish.isOk = true ∧
        (result p.final.state.finish).addressOf (lit "_start") = .ok 0x100000 ∧
        (result p.final.state.finish).lastHeaderAt .elf64 (result p.final.state.finish).mapOrder ≤
          262144 ∧
        (∀ name ∈ p.statements.flatMap Statement.declares, (0 : Byte) ∉ name) ∧
        sourceSymbols .elf64 ⟨(result p.final.state.finish).baseOf, (firstPass p.statements).places⟩
          p.statements =
            [⟨lit "_start", 0x100000, 4, 2⟩, ⟨lit "n", 0x101000, 4, 1⟩] :=
    ⟨Program.ofSource {}
        (lit "_start: ret\n.endfunc _start\n.section .data\nn: dw 7\n.type n object\n.size n")
        (by decide +kernel), by decide +kernel⟩
  let f : Finished Env.noFiles {} := ⟨p, result p.final.state.finish, eq_ok_result accepted⟩
  obtain ⟨e, run, -⟩ := @State.elfWriter_written .elf64 {} f.state f.state.mapOrder _ starts
  obtain ⟨file, written, listed⟩ :=
    symbols_follow_source .elf64 f (p.grows_iff.mpr along) f.state.mapOrder run room plain
  exact ⟨f, f.state.mapOrder, e, file, run, written, lines ▸ listed⟩

end BigAsm
