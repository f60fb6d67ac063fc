import Mathlib
import BigAsm.Effects

/- A statement in two parts: what it does to the section it stands in, and what it adds to the
   symbols, the schedule and the globals that all sections share. -/
namespace BigAsm
open ByteStore Runs

namespace Section

def alignAbove (alignment : BitVec 64) (s : Section) : Except Failure Section :=
  if 1 < alignment.toNat then s.align alignment else .ok s

def alignWithLabels (alignment : BitVec 64) (s : Section) : Except Failure Section := do
  let s ← s.alignAbove alignment
  return { s with labelQueue := [] }

def emitCode (words : List Instruction) (s : Section) : Except Failure Section :=
  words.foldlM (fun s w => s.addOutput .code ((wordBytes w).take (Instruction.length w))) s

end Section

namespace Statement

def act (sect : Section) : Statement → Except Failure Section
  | .label name => .ok (sect.addLabelSoon name)
  | .opcode code _ => do
    let sect ← sect.alignWithLabels 4
    sect.emitCode code.words
  | .db value => sect.addOutput .data (littleEndian 1 value)
  | .data scale bytes => do
    let sect ← sect.alignWithLabels scale.bytes
    sect.addOutput .data bytes
  | .resb times => sect.allocate times
  | .reserve scale times => do
    let sect ← sect.alignWithLabels scale.bytes
    sect.allocate (times * scale.bytes)
  | .size _ => do
    let sect ← sect.alignWithLabels 4
    sect.addOutput .data (wordBytes 0)
  | .align alignment => sect.align alignment
  | .finishLabels => sect.alignWithLabels 0
  | .org base =>
    if sect.size > 0 then
      .error (.runtime (lit "Cannot change base address when instructions already generated"))
    else .ok (sect.setBaseAddress base)
  | .execonly => .ok { sect with execonly := true }
  | .readonly => .ok { sect with readonly := true }
  | .endfunc _ | .type _ _ | .global _ | .sect _ => .ok sect

def globals (x : Statement) (s : State) : StrMap Unit :=
  match x with
  | .global sym => s.globals.insert sym ()
  | _ => s.globals

def commit (x : Statement) (s : State) (sect : Section) : State :=
  { s.putSection s.current sect with
    lookup := x.symbols s
    schedule := x.schedule s
    globals := x.globals s }

end Statement

namespace State

theorem putSection_same (s : State) : s.putSection s.current s.currentSection = s := by
  have same : s.sections.modify s.current (fun _ => s.currentSection) = s.sections := by
    apply Std.ExtTreeMap.ext_getElem?
    intro n
    rw [Std.ExtTreeMap.getElem?_modify]
    split
    · rename_i eq
      cases Std.LawfulEqCmp.eq_of_compare eq
      obtain ⟨sect, found⟩ := Option.isSome_iff_exists.mp
        (Std.ExtTreeMap.mem_iff_isSome_getElem?.mp s.currentMem)
      rw [currentSection, sectionAt, found]
      rfl
    · rfl
  unfold putSection
  simp only [same]

theorem putSection_putSection (s : State) (n : Str) (a b : Section) :
    (s.putSection n a).putSection n b = s.putSection n b := by
  have same : (s.sections.modify n fun _ => a).modify n (fun _ => b) =
      s.sections.modify n fun _ => b := by
    apply Std.ExtTreeMap.ext_getElem?
    intro m
    simp only [Std.ExtTreeMap.getElem?_modify]
    split
    · rename_i eq
      cases Std.LawfulEqCmp.eq_of_compare eq
      rw [if_pos eq, Option.map_map]
      rfl
    · rfl
  unfold putSection
  simp only [same]

@[simp] theorem currentSection_putSection (s : State) (sect : Section) :
    (s.putSection s.current sect).currentSection = sect := by
  have here : (s.putSection s.current sect).current = s.current := rfl
  rw [currentSection, here, sectionAt_putCurrent, if_pos rfl]

end State

structure Acted (s t : State) (sect : Section) : Prop where
  options : t.options = s.options
  sections : t.sections = (s.putSection s.current sect).sections
  current : t.current = s.current
  globals : t.globals = s.globals

namespace Acted
variable {s m t : State} {sect sect' : Section}

theorem currentSection (h : Acted s t sect) : t.currentSection = sect := by
  rw [State.currentSection, State.sectionAt, h.sections, h.current]
  exact s.currentSection_putSection sect

theorem refl (s : State) : Acted s s s.currentSection :=
  ⟨rfl, (congrArg State.sections s.putSection_same).symm, rfl, rfl⟩

theorem trans (first : Acted s m sect) (second : Acted m t sect') : Acted s t sect' where
  options := second.options.trans first.options
  sections := by
    have twice := congrArg State.sections (s.putSection_putSection s.current sect sect')
    rw [second.sections, ← twice]
    simp only [State.putSection, first.sections, first.current]
  current := second.current.trans first.current
  globals := second.globals.trans first.globals

end Acted

/-- The step does to the state what the action does to its current section, and fails as the
    action fails. -/
def Performs (s : State) (step : Except Failure State) (action : Except Failure Section) : Prop :=
  match action with
  | .ok sect => ∃ t, step = .ok t ∧ Acted s t sect
  | .error e => step = .error e

namespace Performs
variable {s : State}

theorem bind {step : Except Failure State} {action : Except Failure Section}
    {f : State → Except Failure State} {g : Section → Except Failure Section}
    (first : Performs s step action)
    (rest : ∀ t sect, Acted s t sect → Performs t (f t) (g sect)) :
    Performs s (step >>= f) (action >>= g) := by
  cases action with
  | error e =>
    have failed : step = .error e := first
    rw [failed]
    exact rfl
  | ok sect =>
    obtain ⟨m, rfl, acted⟩ := first
    have later := rest m sect acted
    change Performs s (f m) (g sect)
    cases done : g sect with
    | error e =>
      rw [done] at later
      exact later
    | ok sect' =>
      rw [done] at later
      obtain ⟨t, run, acted'⟩ := later
      exact ⟨t, run, acted.trans acted'⟩

theorem onSection (s : State) (f : Section → Except Failure Section) :
    Performs s (s.onSection s.current f) (f s.currentSection) := by
  have unfolded : s.onSection s.current f =
      f s.currentSection >>= fun sect => .ok (s.putSection s.current sect) := rfl
  rw [unfolded]
  cases f s.currentSection with
  | error e => exact rfl
  | ok sect => exact ⟨_, rfl, rfl, rfl, rfl, rfl⟩

theorem ofActed {t : State} {sect : Section} (acted : Acted s t sect) :
    Performs s (.ok t) (.ok sect) := ⟨t, rfl, acted⟩

theorem onActed {t : State} {sect : Section} (acted : Acted s t sect)
    (f : Section → Except Failure Section) : Performs t (t.onSection t.current f) (f sect) := by
  have h := onSection t f
  rwa [acted.currentSection] at h

theorem alignWithLabels (s : State) (a : BitVec 64) :
    Performs s (s.alignWithLabels a) (s.currentSection.alignWithLabels a) := by
  unfold State.alignWithLabels State.sectionAlignWithLabels Section.alignWithLabels
  refine bind ?_ fun t sect acted => ?_
  · unfold State.alignAbove Section.alignAbove
    split
    · exact onSection s _
    · exact ofActed (Acted.refl s)
  · rw [← acted.current, State.foldl_addSymbolHere]
    refine ofActed ⟨rfl, ?_, rfl, rfl⟩
    have here : t.sectionAt t.current = sect := acted.currentSection
    change (t.putSection t.current { t.sectionAt t.current with labelQueue := [] }).sections = _
    rw [here]

theorem emitCode {s t : State} {sect : Section} (acted : Acted s t sect)
    (words : List Instruction) : Performs t (t.emitCode words) (sect.emitCode words) := by
  induction words generalizing s t sect with
  | nil =>
    rw [← acted.currentSection]
    exact ofActed (Acted.refl t)
  | cons w words ih =>
    simp only [State.emitCode, Section.emitCode, List.foldlM_cons]
    exact bind (onActed acted _) fun m sect' acted' => ih acted'

theorem after {t t' : State} {step : Except Failure State} {action : Except Failure Section}
    (same : Acted t t' t.currentSection) (later : Performs t' step action) :
    Performs t step action := by
  cases action with
  | error e => exact later
  | ok sect =>
    obtain ⟨u, run, acted⟩ := later
    exact ⟨u, run, same.trans acted⟩

end Performs

namespace Statement
variable {s t : State} {x : Statement}

theorem exec_of_performs (same : x.globals s = s.globals)
    (performs : Performs s (x.exec s) (x.act s.currentSection)) :
    x.exec s = x.commit s <$> x.act s.currentSection := by
  cases acts : x.act s.currentSection with
  | error e =>
    rw [acts] at performs
    exact performs
  | ok sect =>
    rw [acts] at performs
    obtain ⟨t, run, acted⟩ := performs
    have effect := exec_effect run
    rw [run]
    refine congrArg Except.ok (State.ext acted.options acted.sections acted.current
      effect.lookup effect.schedule (acted.globals.trans same.symm))

/-- A statement other than .section does its act to the current section, and adds to the rest
    of the state what does not depend on any other section. -/
theorem exec_eq (s : State) (stays : ∀ name, x ≠ .sect name) :
    x.exec s = x.commit s <$> x.act s.currentSection := by
  cases x with
  | sect name => exact absurd rfl (stays name)
  | global sym =>
    have kept := s.putSection_same
    refine congrArg Except.ok (State.ext rfl ?_ rfl rfl rfl rfl)
    exact (congrArg State.sections kept).symm
  | label name => exact exec_of_performs rfl (Performs.ofActed ⟨rfl, rfl, rfl, rfl⟩)
  | opcode code wf =>
    refine exec_of_performs rfl (Performs.bind (Performs.alignWithLabels s 4) fun t sect acted => ?_)
    have same : Acted t (t.scheduleFixup code) t.currentSection := by
      rcases code with ⟨words, _ | ⟨lbl, f⟩⟩
      · exact Acted.refl t
      · exact ⟨rfl, (congrArg State.sections t.putSection_same).symm, rfl, rfl⟩
    have kept : t.currentSection = sect := acted.currentSection
    exact Performs.after same (Performs.emitCode (kept ▸ acted.trans same) code.words)
  | db value => exact exec_of_performs rfl (Performs.onSection s _)
  | data scale bytes =>
    exact exec_of_performs rfl (Performs.bind (Performs.alignWithLabels s scale.bytes)
      fun t sect acted => Performs.onActed acted _)
  | resb times => exact exec_of_performs rfl (Performs.onSection s _)
  | reserve scale times =>
    exact exec_of_performs rfl (Performs.bind (Performs.alignWithLabels s scale.bytes)
      fun t sect acted => Performs.onActed acted _)
  | size sym =>
    refine exec_of_performs rfl (Performs.bind (Performs.alignWithLabels s 4) fun t sect acted => ?_)
    have same : Acted t (t.scheduleOp sym (.size t.currentLocation s.currentLocation))
        t.currentSection :=
      ⟨rfl, (congrArg State.sections t.putSection_same).symm, rfl, rfl⟩
    have kept : t.currentSection = sect := acted.currentSection
    exact Performs.after same (Performs.onActed (kept ▸ acted.trans same) _)
  | align a => exact exec_of_performs rfl (Performs.onSection s _)
  | finishLabels => exact exec_of_performs rfl (Performs.alignWithLabels s 0)
  | endfunc sym =>
    exact exec_of_performs rfl
      (Performs.ofActed ⟨rfl, (congrArg State.sections s.putSection_same).symm, rfl, rfl⟩)
  | type sym t =>
    exact exec_of_performs rfl
      (Performs.ofActed ⟨rfl, (congrArg State.sections s.putSection_same).symm, rfl, rfl⟩)
  | org base =>
    refine exec_of_performs rfl ?_
    change Performs s (s.org base) _
    unfold State.org Statement.act
    split
    · exact rfl
    · exact Performs.ofActed ⟨rfl, rfl, rfl, rfl⟩
  | execonly => exact exec_of_performs rfl (Performs.ofActed ⟨rfl, rfl, rfl, rfl⟩)
  | readonly => exact exec_of_performs rfl (Performs.ofActed ⟨rfl, rfl, rfl, rfl⟩)

theorem exec_cases (run : x.exec s = .ok t) :
    (∃ name, x = .sect name ∧ s.setSection name = t) ∨
      ∃ sect, x.act s.currentSection = .ok sect ∧ x.commit s sect = t := by
  by_cases stays : ∀ name, x ≠ .sect name
  · rw [exec_eq s stays] at run
    exact Or.inr (map_ok_iff.mp run)
  · push Not at stays
    obtain ⟨name, rfl⟩ := stays
    cases run
    exact Or.inl ⟨name, rfl, rfl⟩

end Statement

structure Section.Retains (s t : Section) : Prop where
  idx : t.idx = s.idx
  based : t.hasBaseAddr = s.hasBaseAddr
  base : t.baseAddress = s.baseAddress

namespace Section.Retains
variable {s m t : Section}

theorem refl (s : Section) : s.Retains s := ⟨rfl, rfl, rfl⟩

theorem trans (first : s.Retains m) (second : m.Retains t) : s.Retains t where
  idx := second.idx.trans first.idx
  based := second.based.trans first.based
  base := second.base.trans first.base

theorem setOutput {o : Option Buffer} (run : s.setOutput o = .ok t) : s.Retains t := by
  obtain ⟨output, -, rfl⟩ := setOutput_ok_iff.mp run
  exact ⟨rfl, rfl, rfl⟩

theorem mark (s : Section) (type : OutputType) : s.Retains (s.mark type) := by
  cases type <;> exact ⟨rfl, rfl, rfl⟩

theorem addOutput {type : OutputType} {data : List Byte} (run : s.addOutput type data = .ok t) :
    s.Retains t := by
  obtain ⟨m, grown, marked⟩ := bind_ok_iff.mp run
  exact pure_ok_iff.mp marked ▸ (setOutput grown).trans (Retains.mark m type)

theorem allocate {len : BitVec 64} (run : s.allocate len = .ok t) : s.Retains t := by
  obtain ⟨m, grown, marked⟩ := bind_ok_iff.mp run
  exact pure_ok_iff.mp marked ▸ (setOutput grown).trans (Retains.mark m .resv)

theorem align {a : BitVec 64} (run : s.align a = .ok t) : s.Retains t := by
  unfold Section.align at run
  dsimp only at run
  split at run
  · exact setOutput run
  · cases run
    exact refl s

theorem alignWithLabels {a : BitVec 64} (run : s.alignWithLabels a = .ok t) : s.Retains t := by
  obtain ⟨m, aligned, done⟩ := bind_ok_iff.mp run
  have first : s.Retains m := by
    unfold Section.alignAbove at aligned
    split at aligned
    · exact align aligned
    · cases aligned
      exact refl s
  cases done
  exact first.trans ⟨rfl, rfl, rfl⟩

theorem emitCode {words : List Instruction} (run : s.emitCode words = .ok t) : s.Retains t :=
  run_relation Section.Retains refl (fun _ _ _ => trans) (fun _ _ _ step => addOutput step) run

end Section.Retains

theorem Statement.act_retains {x : Statement} {s t : Section} (run : x.act s = .ok t) :
    s.Retains t ∨ ∃ base, x = .org base ∧ s.setBaseAddress base = t := by
  cases x with
  | label name | execonly | readonly =>
    cases run
    exact Or.inl ⟨rfl, rfl, rfl⟩
  | endfunc sym | type sym t | global sym | sect name =>
    cases run
    exact Or.inl (.refl s)
  | opcode code wf =>
    obtain ⟨m, aligned, emitted⟩ := bind_ok_iff.mp run
    exact Or.inl ((Section.Retains.alignWithLabels aligned).trans (.emitCode emitted))
  | db value => exact Or.inl (.addOutput run)
  | data scale bytes =>
    obtain ⟨m, aligned, written⟩ := bind_ok_iff.mp run
    exact Or.inl ((Section.Retains.alignWithLabels aligned).trans (.addOutput written))
  | resb times => exact Or.inl (.allocate run)
  | reserve scale times =>
    obtain ⟨m, aligned, resized⟩ := bind_ok_iff.mp run
    exact Or.inl ((Section.Retains.alignWithLabels aligned).trans (.allocate resized))
  | size sym =>
    obtain ⟨m, aligned, written⟩ := bind_ok_iff.mp run
    exact Or.inl ((Section.Retains.alignWithLabels aligned).trans (.addOutput written))
  | align a => exact Or.inl (.align run)
  | finishLabels => exact Or.inl (.alignWithLabels run)
  | org base =>
    change (if s.size > 0 then _ else _) = _ at run
    split at run
    · cases run
    · cases run
      exact Or.inr ⟨base, rfl, rfl⟩

theorem Statement.act_idx {x : Statement} {s t : Section} (run : x.act s = .ok t) : t.idx = s.idx := by
  rcases act_retains run with kept | ⟨base, -, rfl⟩
  · exact kept.idx
  · rfl

theorem Statement.act_based {x : Statement} {s t : Section} (run : x.act s = .ok t)
    (based : s.hasBaseAddr = true) : t.hasBaseAddr = true := by
  rcases act_retains run with kept | ⟨base, -, rfl⟩
  · rw [kept.based, based]
  · rfl

end BigAsm
