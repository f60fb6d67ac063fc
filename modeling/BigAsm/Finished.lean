import Mathlib
import BigAsm.Layout
import BigAsm.Relocation

/- The states finish() leaves behind, and the types of their symbols: STT_OBJECT and STT_FUNC
   are the only ones a program can ask for. -/
namespace BigAsm
open ByteStore Runs

structure Finished (env : Env) (options : Options) where
  program : Program env options
  state : State
  done : program.final.state.finish = .ok state

theorem expandRounds_forall {P : Statement → Prop} {env : Env} {rpath : Option Str}
    {listed : List Token → Option Str → Except Failure (List Statement)}
    (reads : ∀ rpath token, Yields (fun line => ∀ x, line = .stmt x → P x)
      (readLine env rpath token))
    (nested : ∀ tv path xs, listed tv path = .ok xs → ∀ x ∈ xs, P x) (n : Nat)
    {ts rest : List Token} {xs : List Statement}
    (run : expandRounds env listed rpath n ts = .ok (xs, rest)) : ∀ x ∈ xs, P x := by
  induction n generalizing ts xs with
  | zero =>
    cases run
    simp
  | succ n ih =>
    cases ts with
    | nil =>
      cases run
      simp
    | cons token ts =>
      obtain ⟨⟨line, ts'⟩, read, more⟩ := bind_ok_iff.mp run
      obtain ⟨here, expanded, more⟩ := bind_ok_iff.mp more
      obtain ⟨⟨later, ts''⟩, rounds, done⟩ := bind_ok_iff.mp more
      cases done
      intro x mem
      rcases List.mem_append.mp mem with first | rest
      · cases line with
        | stmt y =>
          cases expanded
          rw [List.mem_singleton.mp first]
          exact reads rpath token ts _ ts' read y rfl
        | included tv path => exact nested tv path here expanded x first
        | unknown =>
          cases expanded
          cases first
      · exact ih rounds x rest

theorem expand_forall {P : Statement → Prop} {env : Env}
    (reads : ∀ rpath token, Yields (fun line => ∀ x, line = .stmt x → P x)
      (readLine env rpath token)) (depth : Nat) {tv : List Token} {rpath : Option Str}
    {xs : List Statement} (run : expand env depth tv rpath = .ok xs) : ∀ x ∈ xs, P x := by
  induction depth generalizing tv rpath xs with
  | zero => cases run
  | succ depth ih =>
    obtain ⟨⟨ys, rest⟩, rounds, rfl⟩ := map_ok_iff.mp run
    exact expandRounds_forall reads (fun tv path xs run => ih run) tv.length rounds

theorem Program.statements_forall {env : Env} {options : Options} (p : Program env options)
    {P : Statement → Prop} (reads : ∀ rpath token,
      Yields (fun line => ∀ x, line = .stmt x → P x) (readLine env rpath token)) :
    ∀ x ∈ p.statements, P x := by
  obtain ⟨xs, listed, -⟩ := assembleFiles_expand p.accepted
  have same : p.statements = xs := by
    rw [Program.statements, listed]
    rfl
  rw [same]
  clear same
  generalize p.files = files at listed
  induction files generalizing xs with
  | nil =>
    cases listed
    simp
  | cons file files ih =>
    obtain ⟨here, first, more⟩ := bind_ok_iff.mp listed
    obtain ⟨later, rest, done⟩ := bind_ok_iff.mp more
    cases done
    intro x mem
    rcases List.mem_append.mp mem with early | late
    · exact expand_forall reads p.depth first x early
    · exact ih later rest x late

def Statement.Typed (x : Statement) : Prop := ∀ sym t, x = .type sym t → t.toNat ≤ 2

theorem symbolType_le {info : Str} {t : BitVec 32} (run : symbolType info = .ok t) : t.toNat ≤ 2 := by
  unfold symbolType at run
  split at run
  · cases run
    decide
  · split at run
    · cases run
      decide
    · cases run

theorem readLine_typed (env : Env) (rpath : Option Str) (token : Token) :
    Yields (fun line => ∀ x, line = .stmt x → x.Typed) (readLine env rpath token) := by
  refine (readLine_sourced env rpath token).imp ?_
  rintro _ sourced _ rfl sym t rfl
  obtain ⟨info, named⟩ := sourced
  exact symbolType_le named

def ScheduledOp.symbolAfter (s : State) (sym : SymbolLocation) : ScheduledOp → SymbolLocation
  | .fixup .. => sym
  | .endfunc loc => { sym with size := (s.address loc - s.address sym).setWidth 64, type := STT_FUNC }
  | .type t => { sym with type := t }
  | .size loc dataloc => { sym with
      size := (sizeWord (s.address sym) (s.address dataloc) (s.address loc)).setWidth 64 }

namespace State

def SymbolsTyped (s : State) : Prop :=
  ∀ (name : Str) (sym : SymbolLocation), s.lookup[name]? = some sym → sym.type.toNat ≤ 2

def OpTyped (op : ScheduledOp) : Prop := ∀ t, op = .type t → t.toNat ≤ 2

def ScheduleTyped (s : State) : Prop := ∀ entry ∈ s.scheduled, OpTyped entry.2

variable {s t : State}

theorem exec_typed {x : Statement} (typed : x.Typed) (symbols : s.SymbolsTyped)
    (schedule : s.ScheduleTyped) (run : x.exec s = .ok t) : t.SymbolsTyped ∧ t.ScheduleTyped := by
  have effect := Statement.exec_effect run
  refine ⟨fun name sym found => ?_, fun entry mem type eq => ?_⟩
  · rcases effect.lookup_cases found with old | ⟨-, -, -, rfl⟩
    · exact symbols name sym old
    · exact Nat.zero_le 2
  · rcases (effect.mem_scheduled entry).mp mem with old | new
    · exact schedule entry old type eq
    · rcases entry with ⟨name, op⟩
      cases x with
      | type sym type' =>
        cases new
        cases eq
        exact typed name type rfl
      | opcode code wf =>
        obtain ⟨fixup, -, same⟩ := Option.map_eq_some_iff.mp new
        cases same
        cases eq
      | endfunc sym | size sym =>
        cases new
        cases eq
      | label _ | db _ | data _ _ | resb _ | reserve _ _ | align _ | finishLabels | global _
        | sect _ | org _ | execonly | readonly => cases new

structure Patched (s t : State) : Prop where
  lookup : t.lookup = s.lookup
  sizes : ∀ n, (t.bytes n).length = (s.bytes n).length
  base : ∀ n, (t.sectionAt n).baseAddress = (s.sectionAt n).baseAddress

theorem Patched.trans {m : State} (first : Patched s m) (second : Patched m t) : Patched s t where
  lookup := second.lookup.trans first.lookup
  sizes n := (second.sizes n).trans (first.sizes n)
  base n := (second.base n).trans (first.base n)

theorem setInstructionAt_patched (s : State) (loc : SymbolLocation) (off : Nat) (w : Instruction) :
    Patched s (s.setInstructionAt loc off w) := by
  have each : ∀ n, ((s.setInstructionAt loc off w).sectionAt n = s.sectionAt n) ∨
      n = loc.sect ∧ (s.setInstructionAt loc off w).sectionAt n = { s.sectionAt loc.sect with
        output := (s.sectionAt loc.sect).output.overwrite (s.locationIndex loc off) (wordBytes w) } := by
    intro n
    by_cases known : loc.sect ∈ s.sections
    · rw [setInstructionAt, sectionAt_putSection s known]
      split
      · rename_i here
        exact Or.inr ⟨here, rfl⟩
      · exact Or.inl rfl
    · have same : (s.setInstructionAt loc off w).sections[n]? = s.sections[n]? := by
        refine (Std.ExtTreeMap.getElem?_modify ..).trans ?_
        split
        · rename_i here
          rw [← Std.LawfulEqCmp.eq_of_compare here, Std.ExtTreeMap.getElem?_eq_none known]
          rfl
        · rfl
      exact Or.inl (by rw [sectionAt, same, sectionAt])
  refine ⟨rfl, fun n => ?_, fun n => ?_⟩
  · rcases each n with same | ⟨rfl, same⟩
    · rw [bytes, same, bytes]
    · rw [bytes, same, Buffer.overwrite_length, bytes]
  · rcases each n with same | ⟨rfl, same⟩ <;> rw [same]

theorem patchOne_patched {loc : SymbolLocation} {off : Nat} {f : Instruction → Instruction}
    (run : s.patchOne loc off f = .ok t) : Patched s t := by
  obtain ⟨i, -, rest⟩ := bind_ok_iff.mp run
  obtain ⟨w, -, done⟩ := bind_ok_iff.mp rest
  rw [← pure_ok_iff.mp done]
  exact s.setInstructionAt_patched loc off _

theorem patchPair_patched {loc : SymbolLocation} {off : Nat}
    {f : Instruction → Instruction → Instruction × Instruction}
    (run : s.patchPair loc off f = .ok t) : Patched s t := by
  obtain ⟨i, -, rest⟩ := bind_ok_iff.mp run
  obtain ⟨j, -, rest⟩ := bind_ok_iff.mp rest
  obtain ⟨w, -, rest⟩ := bind_ok_iff.mp rest
  obtain ⟨w', -, done⟩ := bind_ok_iff.mp rest
  rw [← pure_ok_iff.mp done]
  exact (s.setInstructionAt_patched loc (off + 4) _).trans (setInstructionAt_patched _ loc off _)

theorem fixup_patched {f : Fixup} {loc sym : SymbolLocation} (run : f.run loc sym s = .ok t) :
    Patched s t := by
  cases f with
  | la =>
    change s.patchPair loc 0 (patchLa _ _) = .ok t at run
    exact patchPair_patched run
  | farcall =>
    change s.patchPair loc 0 (patchFarcall _) = .ok t at run
    exact patchPair_patched run
  | branch =>
    change s.patchOne loc 0 (patchBranch _) = .ok t at run
    exact patchOne_patched run
  | laq =>
    obtain ⟨a, first, rest⟩ := bind_ok_iff.mp run
    obtain ⟨b, second, rest⟩ := bind_ok_iff.mp rest
    obtain ⟨d, third, fourth⟩ := bind_ok_iff.mp rest
    exact (((patchPair_patched first).trans (patchPair_patched second)).trans
      (patchPair_patched third)).trans (patchPair_patched fourth)
  | jump =>
    obtain ⟨i, -, rest⟩ := bind_ok_iff.mp run
    obtain ⟨_, -, rest⟩ := bind_ok_iff.mp rest
    obtain ⟨w, -, done⟩ := bind_ok_iff.mp rest
    rw [← pure_ok_iff.mp done]
    exact s.setInstructionAt_patched loc 0 _

/-- What an operation on a name does to the state: it writes within the bytes, and leaves new as
    the symbol of its name. -/
structure Ran (s t : State) (name : Str) (new : SymbolLocation) : Prop where
  sizes : ∀ n, (t.bytes n).length = (s.bytes n).length
  base : ∀ n, (t.sectionAt n).baseAddress = (s.sectionAt n).baseAddress
  lookup : ∀ other : Str, t.lookup[other]? = if name = other then some new else s.lookup[other]?

theorem runScheduled_ran {entry : Str × ScheduledOp} (run : s.runScheduled entry = .ok t) :
    ∃ sym, s.lookup[entry.1]? = some sym ∧ Ran s t entry.1 (entry.2.symbolAfter s sym) := by
  rcases entry with ⟨name, op⟩
  unfold runScheduled at run
  cases found : s.lookup[name]? with
  | none =>
    rw [found] at run
    cases run
  | some sym =>
    rw [found] at run
    refine ⟨sym, rfl, ?_⟩
    cases op with
    | fixup f loc =>
      have patched := fixup_patched run
      refine ⟨patched.sizes, patched.base, fun other => ?_⟩
      rw [patched.lookup]
      split
      · rename_i same
        rw [← same, found]
        rfl
      · rfl
    | endfunc loc | type t' =>
      cases run
      exact ⟨fun _ => rfl, fun _ => rfl, getElem?_setSymbol found _⟩
    | size loc dataloc =>
      obtain ⟨m, patched, done⟩ := bind_ok_iff.mp run
      have kept := patchOne_patched patched
      have found' : m.lookup[name]? = some sym := by rw [kept.lookup, found]
      rw [← pure_ok_iff.mp done]
      refine ⟨kept.sizes, kept.base, fun other => ?_⟩
      rw [getElem?_setSymbol found', kept.lookup]
      rfl

theorem runScheduled_shape {entry : Str × ScheduledOp} (run : s.runScheduled entry = .ok t) :
    (∀ n, (t.bytes n).length = (s.bytes n).length) ∧
      ∀ n, (t.sectionAt n).baseAddress = (s.sectionAt n).baseAddress := by
  obtain ⟨sym, -, ran⟩ := runScheduled_ran run
  exact ⟨ran.sizes, ran.base⟩

theorem runScheduled_typed {entry : Str × ScheduledOp} (typed : OpTyped entry.2)
    (symbols : s.SymbolsTyped) (run : s.runScheduled entry = .ok t) : t.SymbolsTyped := by
  intro other loc there
  obtain ⟨sym, found, ran⟩ := runScheduled_ran run
  rw [ran.lookup] at there
  split at there
  · cases there
    have old := symbols entry.1 sym found
    rcases entry with ⟨name, op⟩
    cases op with
    | fixup f loc | size loc dataloc => exact old
    | endfunc loc => exact Nat.le_refl 2
    | type t' => exact typed t' rfl
  · exact symbols other loc there

theorem finishScheduledWork_typed (schedule : s.ScheduleTyped) (symbols : s.SymbolsTyped)
    (run : s.finishScheduledWork = .ok t) : t.SymbolsTyped := by
  refine run_invariant_mem SymbolsTyped (fun m entry u mem symbols step => ?_) symbols run
  rcases entry with ⟨name, ops⟩
  dsimp only at step
  split at step
  · refine run_invariant_mem SymbolsTyped (fun m one u inside symbols step => ?_) symbols step
    refine runScheduled_typed (schedule one ?_) symbols step
    exact List.mem_flatMap.mpr ⟨(name, ops), mem, inside⟩
  · cases step

theorem finishScheduledWork_relation {R : State → State → Prop} (refl : ∀ a, R a a)
    (trans : ∀ a b c, R a b → R b c → R a c)
    (keep : ∀ a entry b, runScheduled a entry = .ok b → R a b)
    (run : s.finishScheduledWork = .ok t) : R s t := by
  refine run_relation R refl trans (fun a entry b step => ?_) run
  rcases entry with ⟨name, ops⟩
  dsimp only at step
  split at step
  · exact run_relation R refl trans (fun a entry b step => keep a entry b step) step
  · cases step

theorem finish_sizes {order : List Str} (indexed : s.Indexed order) (run : s.finish = .ok t)
    (n : Str) : (t.bytes n).length = (s.bytes n).length := by
  obtain ⟨u, prepared, finished⟩ := bind_ok_iff.mp run
  obtain ⟨m, u', flushed, run, placed⟩ := prepare_ok indexed
  cases run.symm.trans prepared
  have worked : (t.bytes n).length = (u.bytes n).length :=
    finishScheduledWork_relation (R := fun a b : State => (b.bytes n).length = (a.bytes n).length)
      (fun _ => rfl) (fun _ _ _ first second => second.trans first)
      (fun a entry b step => (runScheduled_shape step).1 n) finished
  rw [worked, placed.bytes (by rw [Layout.bases_length, List.length_map]), flushed.bytes]

theorem finish_base (run : s.finish = .ok t) : ∃ u, s.prepare = .ok u ∧
    ∀ n, (t.sectionAt n).baseAddress = (u.sectionAt n).baseAddress := by
  obtain ⟨u, prepared, finished⟩ := bind_ok_iff.mp run
  refine ⟨u, prepared, ?_⟩
  exact finishScheduledWork_relation
    (R := fun a b : State => ∀ n, (b.sectionAt n).baseAddress = (a.sectionAt n).baseAddress)
    (fun _ _ => rfl) (fun _ _ _ first second n => (second n).trans (first n))
    (fun a entry b step => (runScheduled_shape step).2) finished

end State

theorem Finished.typed {env : Env} {options : Options} (f : Finished env options) :
    f.state.SymbolsTyped := by
  have start : (State.new options).SymbolsTyped ∧ (State.new options).ScheduleTyped := by
    refine ⟨fun name sym found => ?_, fun entry mem => ?_⟩
    · cases (Std.ExtTreeMap.getElem?_empty (a := name)).symm.trans found
    · cases mem
  obtain ⟨symbols, schedule⟩ := run_invariant_mem
    (fun s : State => s.SymbolsTyped ∧ s.ScheduleTyped)
    (fun s x t mem typed step => State.exec_typed
      (f.program.statements_forall (readLine_typed env) x mem) typed.1 typed.2 step)
    start f.program.ran
  obtain ⟨t, prepared, finished⟩ := bind_ok_iff.mp f.done
  obtain ⟨first, order, indexed, -⟩ := (State.Reachable.ofProgram f.program).anchored
  obtain ⟨m, t', flushed, run, placed⟩ := State.prepare_ok indexed
  cases run.symm.trans prepared
  refine State.finishScheduledWork_typed (fun entry mem => schedule entry ?_)
    (fun name sym found => ?_) finished
  · rwa [State.scheduled, placed.schedule, flushed.schedule] at mem
  · rw [placed.lookup, flushed.lookup] at found
    rcases Option.or_eq_some_iff.mp found with old | ⟨-, new⟩
    · exact symbols name sym old
    · split at new
      · cases new
        exact Nat.zero_le 2
      · cases new

end BigAsm
