import Mathlib
import BigAsm.Main
import BigAsm.Independence
import BigAsm.Loading
import BigAsm.Rebasing

/- main from the command line to the files it leaves. It ends in the first exception, and what was
   written before stays: nothing before the entry symbol is resolved, and no .bin file when a
   .global symbol is missing. A file that cannot be opened or written does not end it. -/
namespace BigAsm
open ByteStore Runs

/-- What ends main before its last line: exit(1), or an exception that nobody catches. -/
inductive Stop where
  | usage
  | uncaught (f : Failure)

/-- What the file system does with a call of file_writer that so many others came before: none when
    fopen fails, otherwise the number of bytes that fwrite gets out. -/
abbrev Disk := Nat → Str → (bin : List Byte) → Option (Fin (bin.length + 1))

/-- What a call leaves in its file. fopen has emptied it, and none stands for a file not opened. -/
def Disk.keeps (disk : Disk) (i : Nat) (filename : Str) (bin : List Byte) : Option (List Byte) :=
  (disk i filename bin).map fun n => bin.take n.val

/-- The calls of file_writer, in order, with what each left in its file. An exception does not take
    them back. -/
abbrev Files := List (Str × Option (List Byte))

abbrev Output := ExceptT Stop (StateM Files)

namespace Output
variable {α β : Type}

def on (x : Output α) (files : Files) : Except Stop α × Files :=
  StateT.run (ExceptT.run x) files

def attempt : Except Failure α → Output α
  | .ok a => pure a
  | .error f => throw (.uncaught f)

theorem on_bind (x : Output α) (f : α → Output β) (files : Files) :
    (x >>= f).on files = match x.on files with
      | (.ok a, files) => (f a).on files
      | (.error e, files) => (.error e, files) := by
  unfold on ExceptT.run StateT.run
  simp only [bind, ExceptT.bind, ExceptT.mk, StateT.bind, ExceptT.bindCont]
  cases x files with
  | mk result files => cases result <;> rfl

theorem on_bind_ok {x : Output α} {f : α → Output β} {files files' : Files} {a : α}
    (first : x.on files = (.ok a, files')) : (x >>= f).on files = (f a).on files' := by
  rw [on_bind, first]

theorem on_attempt (a : α) (f : α → Output β) (files : Files) :
    (attempt (.ok a) >>= f).on files = (f a).on files := on_bind_ok rfl

theorem on_bind_error {x : Output α} {f : α → Output β} {files files' : Files}
    {e : Stop} (first : x.on files = (.error e, files')) : (x >>= f).on files = (.error e, files') := by
  rw [on_bind, first]

end Output

def fileWriter (disk : Disk) (filename : Str) (bin : List Byte) : Output Bool := do
  let files ← getThe Files
  match disk files.length filename bin with
  | none =>
    set (files ++ [(filename, none)])
    return false
  | some n =>
    set (files ++ [(filename, some (bin.take n.val))])
    return n.val == bin.length

theorem fileWriter_on (disk : Disk) (filename : Str) (bin : List Byte) (files : Files) :
    ∃ whole, (fileWriter disk filename bin).on files =
      (.ok whole, files ++ [(filename, disk.keeps files.length filename bin)]) := by
  have read : (getThe Files : Output Files).on files = (.ok files, files) := rfl
  unfold fileWriter Disk.keeps
  rw [Output.on_bind_ok read]
  cases disk files.length filename bin with
  | none => exact ⟨false, rfl⟩
  | some n => exact ⟨n.val == bin.length, rfl⟩

/-- Elf_Writer with both of its file_writer calls, which open the same file. -/
def elfFiles (disk : Disk) (c : ElfClass) (options : Options) (s : State) (order : s.SymbolOrder)
    (outfile : Str) : Output Unit := do
  let e ← Output.attempt (s.elfTables c options order)
  let _ ← fileWriter disk outfile (← Output.attempt e.file)
  let _ ← fileWriter disk outfile (← Output.attempt (s.writePrograms e).file)

def ElfClass.suffix : ElfClass → Str
  | .elf64 => lit "64"
  | .elf128 => lit "128"

def printGlobal (s : State) (symbol : Str) : Output Unit := do
  let _ ← Output.attempt (s.addressOf symbol)

/-- main behind finish(). The symbols of .global are printed with their addresses before the .bin
    file is written, so one that is missing ends the run there. -/
def writeFiles (disk : Disk) (s : State) (order : s.SymbolOrder) (outfile : Str) : Output Unit := do
  elfFiles disk .elf64 {} s order (outfile ++ ElfClass.elf64.suffix)
  elfFiles disk .elf128 {} s order (outfile ++ ElfClass.elf128.suffix)
  s.globals.keys.forM (printGlobal s)
  let _ ← fileWriter disk (outfile ++ lit ".bin") (s.bytes (lit ".text"))

def main (env : Env) (disk : Disk) (depth : Nat) (order : ∀ s : State, s.SymbolOrder)
    (argv : List Str) : Output Unit := do
  if argv.length < 3 then throw .usage
  let (_, assembler) ← Output.attempt (mainLoop env depth argv (Assembler.new {}))
  let s ← Output.attempt assembler.state.finish
  writeFiles disk s (order s) (argv.getLastD [])

namespace State
variable {c : ElfClass} {options : Options} {s : State} {order : s.SymbolOrder}

theorem writePrograms_writes (s : State) (e : ElfBin c) :
    (s.writePrograms e).capacity = e.capacity ∧ ∀ n ∈ e.writes, n ∈ (s.writePrograms e).writes := by
  have each : ∀ (sections : List Section) (i : Nat) (e : ElfBin c),
      (sections.foldl ElfBin.addProgram (i, e)).2.capacity = e.capacity ∧
        ∀ n ∈ e.writes, n ∈ (sections.foldl ElfBin.addProgram (i, e)).2.writes := by
    intro sections
    induction sections with
    | nil =>
      intro i e
      exact ⟨rfl, fun n mem => mem⟩
    | cons sect sections ih =>
      intro i e
      obtain ⟨capacity, writes⟩ := ih (i + 1) (ElfBin.addProgram (i, e) sect).2
      exact ⟨capacity, fun n mem => writes n (List.mem_cons_of_mem _ mem)⟩
  exact each _ 0 e

theorem addressOf_isOk (s : State) (name : Str) : (s.addressOf name).isOk = true ↔ name ∈ s.lookup := by
  rw [Std.ExtTreeMap.mem_iff_isSome_getElem?, addressOf]
  cases s.lookup[name]? <;> simp [Except.isOk, Except.toBool]

end State

open Output

section Writer
variable {c : ElfClass} {options : Options} {s : State} {order : s.SymbolOrder}

theorem elfFiles_missing (disk : Disk) (missing : options.entry ∉ s.lookup) (outfile : Str)
    (files : Files) : ∃ e, (elfFiles disk c options s order outfile).on files = (.error e, files) := by
  have none : s.lookup[options.entry]? = none := Std.ExtTreeMap.getElem?_eq_none missing
  have failed : s.elfTables c options order =
      .error (.runtime (lit "No such symbol: " ++ options.entry)) := by
    rw [State.elfTables, State.addressOf, none]
    rfl
  refine ⟨.uncaught (.runtime (lit "No such symbol: " ++ options.entry)), ?_⟩
  unfold elfFiles
  rw [failed]
  rfl

theorem elfFiles_written (disk : Disk) (known : options.entry ∈ s.lookup)
    (room : s.lastHeaderAt c order ≤ 262144) (outfile : Str) (files : Files) : ∃ t tables e file,
      s.elfTables c options order = .ok t ∧ t.file = .ok tables ∧
      s.elfWriter c options order = .ok e ∧ e.file = .ok file ∧
      (elfFiles disk c options s order outfile).on files =
        (.ok (), files ++ [(outfile, disk.keeps files.length outfile tables),
          (outfile, disk.keeps (files.length + 1) outfile file)]) := by
  obtain ⟨entry, resolved⟩ : ∃ entry, s.addressOf options.entry = .ok entry :=
    ⟨_, eq_ok_result ((s.addressOf_isOk options.entry).mpr known)⟩
  obtain ⟨e, run, w⟩ := State.elfWriter_written c order resolved
  have fits := w.fits_iff.mpr room
  have whole : e.file = .ok e.bin := if_pos fits
  obtain ⟨t, ran, rfl⟩ := map_ok_iff.mp run
  obtain ⟨capacity, writes⟩ := s.writePrograms_writes t
  have part : t.file = .ok t.bin := by
    refine if_pos ?_
    intro n mem
    rw [← capacity]
    exact fits n (writes n mem)
  obtain ⟨_, first⟩ := fileWriter_on disk outfile t.bin files
  obtain ⟨_, second⟩ := fileWriter_on disk outfile (s.writePrograms t).bin
    (files ++ [(outfile, disk.keeps files.length outfile t.bin)])
  refine ⟨t, t.bin, s.writePrograms t, (s.writePrograms t).bin, ran, part, run, whole, ?_⟩
  unfold elfFiles
  rw [ran]
  refine (on_attempt _ _ _).trans ?_
  rw [part]
  refine (on_attempt _ _ _).trans ?_
  refine (on_bind_ok first).trans ?_
  rw [whole]
  refine (on_attempt _ _ _).trans ?_
  refine (on_bind_ok second).trans ?_
  rw [List.append_assoc, List.length_append]
  rfl

end Writer

theorem printGlobals_on (s : State) (names : List Str) (files : Files) :
    ∃ r, (names.forM (printGlobal s)).on files = (r, files) ∧
      (r.isOk = true ↔ ∀ name ∈ names, name ∈ s.lookup) := by
  induction names with
  | nil => exact ⟨.ok (), rfl, by simp [Except.isOk, Except.toBool]⟩
  | cons name names ih =>
    have known := s.addressOf_isOk name
    change ∃ r, (printGlobal s name >>= fun _ => names.forM (printGlobal s)).on files = (r, files) ∧ _
    unfold printGlobal at ih ⊢
    cases resolved : s.addressOf name with
    | error f =>
      rw [resolved] at known
      have missing : name ∉ s.lookup := fun mem => by cases known.mpr mem
      refine ⟨.error (.uncaught f), rfl, iff_of_false (fun ok => by cases ok) ?_⟩
      intro every
      exact missing (every name (by simp))
    | ok address =>
      rw [resolved] at known
      obtain ⟨r, run, all⟩ := ih
      refine ⟨r, run, ?_⟩
      rw [all, List.forall_mem_cons, and_iff_right (known.mp rfl)]

/-- What stands under a name: what the last call left that opened the file. -/
def contents (files : Files) (filename : Str) : Option (List Byte) :=
  files.reverse.findSome? fun call => if filename = call.1 then call.2 else none

theorem contents_append (files : Files) (name other : Str) (kept : Option (List Byte)) :
    contents (files ++ [(name, kept)]) other =
      (if other = name then kept else none).or (contents files other) := by
  unfold contents
  rw [List.reverse_append, List.reverse_singleton, List.singleton_append, List.findSome?_cons]
  cases (if other = name then kept else none) <;> rfl

theorem contents_twice (files : Files) (name other : Str) (first second : Option (List Byte)) :
    contents (files ++ [(name, first), (name, second)]) other =
      (if other = name then second.or first else none).or (contents files other) := by
  have apart : files ++ [(name, first), (name, second)] =
      (files ++ [(name, first)]) ++ [(name, second)] := by simp
  rw [apart, contents_append, contents_append]
  by_cases same : other = name
  · rw [if_pos same, if_pos same, if_pos same, Option.or_assoc]
  · rw [if_neg same, if_neg same, if_neg same, Option.none_or]

theorem writeFiles_missing (disk : Disk) {s : State} (order : s.SymbolOrder) (outfile : Str)
    (missing : ({} : Options).entry ∉ s.lookup) :
    ∃ e, (writeFiles disk s order outfile).on [] = (.error e, []) := by
  obtain ⟨e, failed⟩ :=
    @elfFiles_missing .elf64 {} s order disk missing (outfile ++ ElfClass.elf64.suffix) []
  exact ⟨e, on_bind_error failed⟩

def ElfClass.callsBefore : ElfClass → Nat
  | .elf64 => 0
  | .elf128 => 2

/-- Under the name of an ELF file stands what the second call of its writer left, or the first one
    when the second could not open the file. -/
def WritesElf (disk : Disk) (s : State) (order : s.SymbolOrder) (outfile : Str) (files : Files)
    (c : ElfClass) : Prop :=
  ∃ t tables e file, s.elfTables c {} order = .ok t ∧ t.file = .ok tables ∧
    s.elfWriter c {} order = .ok e ∧ e.file = .ok file ∧
    contents files (outfile ++ c.suffix) =
      (disk.keeps (c.callsBefore + 1) (outfile ++ c.suffix) file).or
        (disk.keeps c.callsBefore (outfile ++ c.suffix) tables)

/-- What main leaves of a finished state: both ELF files, and behind them the bytes of .text, when
    every global symbol has an address. -/
structure Delivers (disk : Disk) (s : State) (order : s.SymbolOrder) (outfile : Str)
    (r : Except Stop Unit) (files : Files) : Prop where
  ends : r.isOk = true ↔ ∀ name ∈ s.globals, name ∈ s.lookup
  elf : ∀ c, WritesElf disk s order outfile files c
  bin : contents files (outfile ++ lit ".bin") =
    if r.isOk = true then disk.keeps 4 (outfile ++ lit ".bin") (s.bytes (lit ".text")) else none

theorem outfile_distinct {outfile a b : Str} (distinct : a ≠ b) : outfile ++ a ≠ outfile ++ b :=
  fun same => distinct (List.append_cancel_left same)

theorem elfFiles_both (disk : Disk) {s : State} (order : s.SymbolOrder) (outfile : Str)
    (known : ({} : Options).entry ∈ s.lookup) (room : ∀ c, s.lastHeaderAt c order ≤ 262144)
    (rest : Output Unit) : ∃ both,
      (do
        elfFiles disk .elf64 {} s order (outfile ++ ElfClass.elf64.suffix)
        elfFiles disk .elf128 {} s order (outfile ++ ElfClass.elf128.suffix)
        rest : Output Unit).on [] = rest.on both ∧
      (∀ c, WritesElf disk s order outfile both c) ∧ both.length = 4 ∧
      contents both (outfile ++ lit ".bin") = none := by
  obtain ⟨t, tables, e, file, ran, part, run, whole, written⟩ :=
    elfFiles_written disk known (room .elf64) (outfile ++ ElfClass.elf64.suffix) []
  let name64 := outfile ++ ElfClass.elf64.suffix
  let name128 := outfile ++ ElfClass.elf128.suffix
  let one : Files := [(name64, disk.keeps 0 name64 tables), (name64, disk.keeps 1 name64 file)]
  obtain ⟨t', tables', e', file', ran', part', run', whole', written'⟩ :=
    elfFiles_written disk known (room .elf128) name128 one
  let both := one ++ [(name128, disk.keeps 2 name128 tables'), (name128, disk.keeps 3 name128 file')]
  have first : ∀ other, contents one other = if other = name64 then
      (disk.keeps 1 name64 file).or (disk.keeps 0 name64 tables) else none := fun other =>
    (contents_twice [] _ _ _ _).trans Option.or_none
  have second : ∀ other, other ≠ name128 → contents both other = contents one other := by
    intro other distinct
    refine (contents_twice one _ _ _ _).trans ?_
    rw [if_neg distinct, Option.none_or]
  refine ⟨both, (on_bind_ok written).trans (on_bind_ok written'), ?_, rfl, ?_⟩
  · intro c
    cases c with
    | elf64 =>
      refine ⟨t, tables, e, file, ran, part, run, whole, ?_⟩
      exact (second name64 (outfile_distinct (by decide))).trans ((first name64).trans (if_pos rfl))
    | elf128 =>
      refine ⟨t', tables', e', file', ran', part', run', whole', ?_⟩
      refine (contents_twice one _ _ _ _).trans ?_
      rw [if_pos rfl, first, if_neg (outfile_distinct (by decide)), Option.or_none]
      rfl
  · rw [second _ (outfile_distinct (by decide)), first, if_neg (outfile_distinct (by decide))]

theorem writeFiles_delivers (disk : Disk) {s : State} (order : s.SymbolOrder) (outfile : Str)
    (known : ({} : Options).entry ∈ s.lookup) (room : ∀ c, s.lastHeaderAt c order ≤ 262144) :
    ∃ r files, (writeFiles disk s order outfile).on [] = (r, files) ∧
      Delivers disk s order outfile r files := by
  obtain ⟨both, before, elf, four, bin⟩ := elfFiles_both disk order outfile known room (do
    s.globals.keys.forM (printGlobal s)
    let _ ← fileWriter disk (outfile ++ lit ".bin") (s.bytes (lit ".text")))
  obtain ⟨r, printed, all⟩ := printGlobals_on s s.globals.keys both
  have globals : r.isOk = true ↔ ∀ name ∈ s.globals, name ∈ s.lookup := by
    rw [all]
    simp only [Std.ExtTreeMap.mem_keys]
  cases r with
  | error stop => exact ⟨.error stop, both, before.trans (on_bind_error printed), globals, elf, bin⟩
  | ok _ =>
    let kept := disk.keeps 4 (outfile ++ lit ".bin") (s.bytes (lit ".text"))
    obtain ⟨_, third⟩ := fileWriter_on disk (outfile ++ lit ".bin") (s.bytes (lit ".text")) both
    rw [four] at third
    have last : ∀ c, contents (both ++ [(outfile ++ lit ".bin", kept)])
        (outfile ++ ElfClass.suffix c) = contents both (outfile ++ ElfClass.suffix c) := by
      intro c
      rw [contents_append, if_neg (outfile_distinct (by cases c <;> decide)), Option.none_or]
    refine ⟨.ok (), both ++ [(outfile ++ lit ".bin", kept)],
      before.trans ((on_bind_ok printed).trans (on_bind_ok third)), globals, ?_, ?_⟩
    · intro c
      obtain ⟨t, tables, e, file, ran, part, run, whole, stands⟩ := elf c
      exact ⟨t, tables, e, file, ran, part, run, whole, (last c).trans stands⟩
    · rw [contents_append, if_pos rfl, bin, Option.or_none]
      rfl

theorem assembleFiles_rounds {env : Env} {depth : Nat} {first : Str} {inputs : List Str}
    {passed : List (List Token)} {a b : Assembler}
    (run : inputs.mapM (fun _ => assembleFile env depth first) a = .ok (passed, b)) :
    assembleFiles env depth (inputs.map fun _ =>
      (result (fileTokens env first), getRealpath env first)) a = .ok ((), b) := by
  induction inputs generalizing a passed with
  | nil =>
    obtain ⟨-, rfl⟩ := stateT_pure_ok_iff.mp run
    exact stateT_pure_ok_iff.mpr ⟨rfl, rfl⟩
  | cons f inputs ih =>
    rw [List.mapM_cons] at run
    obtain ⟨tokens, m, here, later⟩ := stateT_bind_ok_iff.mp run
    obtain ⟨rest, m', following, last⟩ := stateT_bind_ok_iff.mp later
    obtain ⟨-, rfl⟩ := stateT_pure_ok_iff.mp last
    obtain ⟨file, assembled⟩ := assembleFile_ok_iff.mp here
    refine stateT_bind_ok_iff.mpr ⟨(), m, ?_, ih following⟩
    rw [file]
    exact assembled

def Program.ofLoop {env : Env} {depth : Nat} {argv : List Str} {passed : List (List Token)}
    {a : Assembler} (run : mainLoop env depth argv (Assembler.new {}) = .ok (passed, a)) :
    Program env {} where
  depth := depth
  files := (inputFiles argv).map fun _ =>
    (result (fileTokens env (argv.getD 1 [])), getRealpath env (argv.getD 1 []))
  final := a
  accepted := assembleFiles_rounds run

theorem Statement.exec_globals {x : Statement} {s t : State} (run : x.exec s = .ok t) (name : Str) :
    name ∈ t.globals ↔ name ∈ s.globals ∨ name ∈ x.exports := by
  rcases exec_cases run with ⟨n, rfl, rfl⟩ | ⟨sect, -, rfl⟩
  · exact (or_iff_left List.not_mem_nil).symm
  · change name ∈ x.globals s ↔ _
    cases x with
    | global sym =>
      rw [Statement.globals, Std.ExtTreeMap.mem_insert, Std.LawfulEqCmp.compare_eq_iff_eq, or_comm,
        Statement.exports, List.mem_singleton, eq_comm]
    | _ => exact (or_iff_left List.not_mem_nil).symm

def Program.Exports {env : Env} {options : Options} (p : Program env options) (name : Str) : Prop :=
  name ∈ p.statements.flatMap Statement.exports

theorem Program.mem_globals {env : Env} {options : Options} (p : Program env options) (name : Str) :
    name ∈ p.final.state.globals ↔ p.Exports name := by
  have gained := run_gained_iff (fun s : State => name ∈ s.globals) (fun _ x => name ∈ x.exports)
    (fun _ _ _ run => Statement.exec_globals run name) p.ran
  have none : name ∉ (State.new options).globals := Std.ExtTreeMap.not_mem_empty
  rw [gained, or_iff_right none]
  constructor
  · rintro ⟨pre, x, post, m, split, -, exported⟩
    rw [Exports, split]
    simp [exported]
  · intro listed
    obtain ⟨x, mem, exported⟩ := List.mem_flatMap.mp listed
    obtain ⟨pre, post, split⟩ := List.append_of_mem mem
    have ran := p.ran
    rw [split] at ran
    obtain ⟨m, before, -⟩ := run_append_iff.mp ran
    exact ⟨pre, x, post, m, split, before, exported⟩

theorem Finished.globals {env : Env} {options : Options} (f : Finished env options) :
    f.state.globals = f.program.final.state.globals := by
  obtain ⟨first, order, indexed, -⟩ := (State.Reachable.ofProgram f.program).anchored
  obtain ⟨m, u, flushed, run, placed⟩ := State.prepare_ok indexed
  obtain ⟨u', run', worked⟩ := bind_ok_iff.mp f.done
  cases run.symm.trans run'
  have written := State.rewrites_finishScheduledWork worked
  exact written.globals.trans (placed.globals.trans flushed.globals)

def Program.Links {env : Env} {options : Options} (p : Program env options) (m : LinkMap) : Prop :=
  ∀ pre x post, p.statements = pre ++ x :: post → x.InReach m (firstPass pre)

theorem Finished.mem_lookup {env : Env} {options : Options} (f : Finished env options)
    (grows : f.program.Grows) (name : Str) : name ∈ f.state.lookup ↔ f.program.Declares name := by
  obtain ⟨u, run, frame, -⟩ := f.frame grows
  rw [frame.mem_lookup, f.program.prepared_declares run]

theorem Finished.exported_iff {env : Env} {options : Options} (f : Finished env options)
    (grows : f.program.Grows) : (∀ name ∈ f.state.globals, name ∈ f.state.lookup) ↔
      ∀ name, f.program.Exports name → f.program.Declares name := by
  refine forall_congr' fun name => ?_
  rw [f.globals, f.program.mem_globals name, f.mem_lookup grows name]

theorem Finished.image_of_prepared {env : Env} {options : Options} (f : Finished env options)
    (grows : f.program.Grows) {u : State} (prepared : f.program.final.state.prepare = .ok u) :
    f.state.bytes =
      secondPass ⟨u.baseOf, (firstPass f.program.statements).places⟩ f.program.statements := by
  obtain ⟨u', run, frame, -⟩ := f.frame grows
  cases prepared.symm.trans run
  have base : f.state.baseOf = u.baseOf := funext frame.base
  rw [f.image grows, f.linkMap_eq grows, base]

theorem main_reaches {env : Env} (disk : Disk) {depth : Nat} (order : ∀ s : State, s.SymbolOrder)
    {argv : List Str} (enough : 3 ≤ argv.length) :
    (main env disk depth order argv).on [] = (do
      let (_, assembler) ← Output.attempt (mainLoop env depth argv (Assembler.new {}))
      let s ← Output.attempt assembler.state.finish
      writeFiles disk s (order s) (argv.getLastD []) : Output Unit).on [] := by
  have many : ¬ argv.length < 3 := by omega
  unfold main
  rw [if_neg many]

/-- The outcome of a run of main whose loop has come to its end. Without a declared _start and every
    other label that is referred to, in reach, no file is opened. Otherwise both ELF files are
    written, and the .bin file and the normal end of main wait for the labels of .global. -/
def Program.Outcome {env : Env} (p : Program env {}) (disk : Disk)
    (order : ∀ s : State, s.SymbolOrder) (outfile : Str) (r : Except Stop Unit) (files : Files) :
    Prop :=
  ∃ u, p.final.state.prepare = .ok u ∧
    let m : LinkMap := ⟨u.baseOf, (firstPass p.statements).places⟩
    let ready := p.Links m ∧ p.Declares (lit "_start")
    (r.isOk = true ↔ ready ∧ ∀ name, p.Exports name → p.Declares name) ∧
    (¬ ready → files = []) ∧
    (ready → ∃ s, p.final.state.finish = .ok s ∧
      s.bytes (lit ".text") = secondPass m p.statements (lit ".text") ∧
      Delivers disk s (order s) outfile r files)

theorem Program.Grows.outcome {env : Env} {p : Program env {}} (grows : p.Grows) (disk : Disk)
    (order : ∀ s : State, s.SymbolOrder) (outfile : Str)
    (room : ∀ s c, p.final.state.finish = .ok s → s.lastHeaderAt c (order s) ≤ 262144) :
    ∃ r files, (do
      let s ← Output.attempt p.final.state.finish
      writeFiles disk s (order s) outfile : Output Unit).on [] = (r, files) ∧
      p.Outcome disk order outfile r files := by
  obtain ⟨u, prepared, -, -, -⟩ := p.prepared
  have accepts : p.final.state.finish.isOk = true ↔
      p.Links ⟨u.baseOf, (firstPass p.statements).places⟩ := grows.accepts_iff prepared
  cases finished : p.final.state.finish with
  | error f =>
    rw [finished] at accepts
    have refused : ¬ p.Links ⟨u.baseOf, (firstPass p.statements).places⟩ := by
      intro links
      cases accepts.mpr links
    refine ⟨.error (.uncaught f), [], rfl, u, prepared, ?_, fun _ => rfl, ?_⟩
    · exact iff_of_false (fun ok => by cases ok) fun h => refused h.1.1
    · intro ready
      exact absurd ready.1 refused
  | ok s =>
    rw [finished] at accepts
    have links : p.Links ⟨u.baseOf, (firstPass p.statements).places⟩ := accepts.mp rfl
    let f : Finished env {} := ⟨p, s, finished⟩
    by_cases declared : p.Declares (lit "_start")
    · have known := (f.mem_lookup grows (lit "_start")).mpr declared
      obtain ⟨r, files, written, delivers⟩ := writeFiles_delivers disk (order s) outfile known
        fun c => room s c finished
      refine ⟨r, files, (on_attempt _ _ _).trans written, u, prepared, ?_, ?_, ?_⟩
      · have exported := f.exported_iff grows
        rw [delivers.ends, exported]
        exact (and_iff_right ⟨links, declared⟩).symm
      · intro missing
        exact absurd ⟨links, declared⟩ missing
      · intro _
        exact ⟨s, finished, congrFun (f.image_of_prepared grows prepared) (lit ".text"), delivers⟩
    · have missing : lit "_start" ∉ s.lookup := fun mem =>
        declared ((f.mem_lookup grows (lit "_start")).mp mem)
      obtain ⟨e, failed⟩ := writeFiles_missing disk (order s) outfile missing
      refine ⟨.error e, [], (on_attempt _ _ _).trans failed, u, prepared, ?_, fun _ => rfl, ?_⟩
      · exact iff_of_false (fun ok => by cases ok) fun h => declared h.1.2
      · intro ready
        exact absurd ready.2 declared

/-- What main leaves behind, for every command line: nothing when it has too few arguments or
    assemble() rejects an input, and otherwise what the source says. -/
theorem main_outputs (env : Env) (disk : Disk) (depth : Nat) (order : ∀ s : State, s.SymbolOrder)
    (argv : List Str) :
    (argv.length < 3 → (main env disk depth order argv).on [] = (.error .usage, [])) ∧
    (3 ≤ argv.length → ∀ f, f ≠ .undefined → f ≠ .nesting →
      mainLoop env depth argv (Assembler.new {}) = .error f →
      (main env disk depth order argv).on [] = (.error (.uncaught f), [])) ∧
    (3 ≤ argv.length → ∀ passed a
      (run : mainLoop env depth argv (Assembler.new {}) = .ok (passed, a)),
      (Program.ofLoop run).Grows →
      (∀ s c, a.state.finish = .ok s → s.lastHeaderAt c (order s) ≤ 262144) →
      ∃ r files, (main env disk depth order argv).on [] = (r, files) ∧
        (Program.ofLoop run).Outcome disk order (argv.getLastD []) r files) := by
  refine ⟨fun few => ?_, fun enough f _ _ failed => ?_, fun enough passed a run grows room => ?_⟩
  · unfold main
    rw [if_pos few]
    rfl
  · rw [main_reaches disk order enough, failed]
    rfl
  · rw [main_reaches disk order enough, run]
    exact grows.outcome disk order _ room

def Env.always (text : Str) : Env := ⟨fun _ => some text, id, fun _ => none⟩

theorem eq_ok_pair {α β : Type} [Inhabited α] [Inhabited β] {x : Except Failure (α × β)}
    (h : x.isOk = true) : x = .ok ((result x).1, (result x).2) := eq_ok_result h

def Disk.withoutSecond : Disk := fun i _ bin => if i = 1 then none else some (Fin.last bin.length)

theorem Disk.withoutSecond_keeps {i : Nat} (other : i ≠ 1) (filename : Str) (bin : List Byte) :
    withoutSecond.keeps i filename bin = some bin := by
  rw [keeps, withoutSecond, if_neg other]
  exact congrArg some List.take_length

theorem one_file_outputs : ∃ files,
    (main (Env.always (lit "_start: ret\n.global _start")) Disk.withoutSecond 1 State.mapOrder
      [lit "bigassembler", lit "a", lit "out"]).on [] = (.ok (), files) ∧
    contents files (lit "out.bin") = some [0x67, 0x80, 0, 0] := by
  obtain ⟨passed, a, run, along, finished, small, starts, exported, bytes⟩ :
      ∃ passed a, ∃ run : mainLoop (Env.always (lit "_start: ret\n.global _start")) 1
          [lit "bigassembler", lit "a", lit "out"] (Assembler.new {}) = .ok (passed, a),
        Along Statement.exec Growing (State.new {}) (Program.ofLoop run).statements ∧
        a.state.finish.isOk = true ∧
        (∀ c ∈ [ElfClass.elf64, .elf128], (result a.state.finish).lastHeaderAt c
          (result a.state.finish).mapOrder ≤ 262144) ∧
        lit "_start" ∈ (Program.ofLoop run).statements.flatMap Statement.declares ∧
        (∀ name ∈ (Program.ofLoop run).statements.flatMap Statement.exports,
          name ∈ (Program.ofLoop run).statements.flatMap Statement.declares) ∧
        (result a.state.finish).bytes (lit ".text") = [0x67, 0x80, 0, 0] :=
    ⟨_, _, eq_ok_pair (by decide +kernel), by decide +kernel⟩
  have room : ∀ s c, a.state.finish = .ok s → s.lastHeaderAt c s.mapOrder ≤ 262144 := by
    intro s c done
    cases (eq_ok_result finished).symm.trans done
    exact small c (by cases c <;> simp)
  have grows := (Program.ofLoop run).grows_iff.mpr along
  obtain ⟨-, -, outcome⟩ := main_outputs (Env.always (lit "_start: ret\n.global _start"))
    Disk.withoutSecond 1 State.mapOrder [lit "bigassembler", lit "a", lit "out"]
  obtain ⟨r, files, ran, u, prepared, ends, -, left⟩ := outcome (by decide) passed a run grows room
  have links := (grows.accepts_iff prepared).mp finished
  obtain ⟨s, done, -, delivers⟩ := left ⟨links, starts⟩
  change a.state.finish = .ok s at done
  have normal : r.isOk = true := ends.mpr ⟨⟨links, starts⟩, exported⟩
  have text : s.bytes (lit ".text") = [0x67, 0x80, 0, 0] := by
    rw [← bytes, done]
    rfl
  refine ⟨files, ?_, ?_⟩
  · cases r with
    | error e => cases normal
    | ok _ => exact ran
  · rw [← text]
    exact delivers.bin.trans ((if_pos normal).trans (Disk.withoutSecond_keeps (by decide) _ _))

end BigAsm
