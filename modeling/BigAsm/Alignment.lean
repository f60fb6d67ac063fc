import Mathlib
import BigAsm.Finished
import BigAsm.Placement

/- The absolute addresses of what is emitted. A statement aligns its section from the start of
   the section; the layout puts that start at a multiple of 16, and every element size divides
   16. -/
namespace BigAsm
open ByteStore Runs State

namespace Statement

/-- The offsets of the elements a statement emits from start on, each with its size. An
    instruction is a word; a reserved block counts once. -/
def elements (x : Statement) (start : Nat) : List (Nat × Nat) :=
  match x with
  | .opcode code _ => (List.range code.words.length).map fun i => (start + 4 * i, 4)
  | .data scale _ => [(start, 2 ^ scale.exponent)]
  | .reserve scale _ => [(start, 2 ^ scale.exponent)]
  | .size _ => [(start, 4)]
  | _ => []

theorem elements_dvd {x : Statement} {start off size : Nat} (mem : (off, size) ∈ x.elements start)
    (aligned : 2 ^ x.exponent ∣ start) : size ∣ off ∧ size ∣ 16 := by
  have divides : 2 ^ x.exponent ∣ 16 := Nat.pow_dvd_pow 2 x.exponent_le
  cases x with
  | opcode code wf =>
    obtain ⟨i, -, same⟩ := List.mem_map.mp mem
    cases same
    have start4 : 4 ∣ start := aligned
    exact ⟨Nat.dvd_add start4 (Nat.dvd_mul_right 4 i), by decide⟩
  | data scale new | reserve scale times | size sym =>
    cases List.mem_singleton.mp mem
    exact ⟨aligned, divides⟩
  | label _ | db _ | resb _ | align _ | finishLabels | endfunc _ | type _ _ | global _ | sect _
  | org _ | execonly | readonly => cases mem

theorem padded_dvd (x : Statement) (s : State) :
    2 ^ x.exponent ∣ (x.padded (s.bytes s.current)).length := by
  rw [x.padded_length (s.bytes_fits s.current)]
  exact Nat.dvd_mul_left _ _

end Statement

namespace State
variable {s t : State}

def BasesAligned (s : State) : Prop :=
  ∀ n, (s.sectionAt n).hasBaseAddr = true → 16 ∣ (s.sectionAt n).baseAddress.toNat

theorem new_basesAligned {options : Options} (aligned : 16 ∣ options.base.toNat) :
    (new options).BasesAligned := by
  intro n based
  rw [new_sectionAt] at based ⊢
  split at based
  · rename_i text
    rwa [if_pos text]
  · cases based

theorem known_of_based_setSection {n m : Str}
    (based : ((s.setSection n).sectionAt m).hasBaseAddr = true) : m ∈ s.sections := by
  by_contra missing
  have absent := Std.ExtTreeMap.getElem?_eq_none missing
  simp only [sectionAt, setSection, Std.ExtTreeMap.getElem?_insertIfNew, absent] at based
  split at based <;> cases based

theorem exec_basesAligned {x : Statement} (org : ∀ base, x = .org base → 16 ∣ base.toNat)
    (aligned : s.BasesAligned) (run : x.exec s = .ok t) : t.BasesAligned := by
  intro n based
  rcases Statement.exec_cases run with ⟨name, rfl, rfl⟩ | ⟨sect, acted, rfl⟩
  · have same := sectionAt_setSection_of_mem s name (known_of_based_setSection based)
    rw [same] at based ⊢
    exact aligned n based
  · change ((s.putSection s.current sect).sectionAt n).hasBaseAddr = true at based
    change 16 ∣ ((s.putSection s.current sect).sectionAt n).baseAddress.toNat
    rw [sectionAt_putCurrent] at based ⊢
    split at based
    · rename_i here
      rw [if_pos here]
      rcases Statement.act_retains acted with kept | ⟨base, rfl, rfl⟩
      · rw [kept.base]
        exact aligned s.current (kept.based.symm.trans based)
      · exact org base rfl
    · rename_i other
      rw [if_neg other]
      exact aligned n based

theorem prepared_dvd {options : Options} (reachable : Reachable options s)
    (aligned : s.BasesAligned) (run : s.prepare = .ok t) {n : Str} (known : n ∈ s.sections) :
    16 ∣ (t.baseOf n).toNat := by
  cases based : (s.sectionAt n).hasBaseAddr with
  | true =>
    rw [explicit_base reachable run based]
    exact aligned n based
  | false => exact automatic_base reachable run known based

end State

theorem Section.addressAt_dvd {sect : Section} {off size : Nat} (start : 16 ∣ sect.baseAddress.toNat)
    (offset : size ∣ off) (divides : size ∣ 16) : size ∣ (sect.addressAt off).toNat := by
  have wraps : size ∣ 2 ^ 128 := Nat.dvd_trans divides (by decide)
  rw [Section.addressAt, BitVec.toNat_add, BitVec.toNat_ofNat, Nat.dvd_mod_iff wraps]
  exact Nat.dvd_add (Nat.dvd_trans divides start) ((Nat.dvd_mod_iff wraps).mpr offset)

theorem Program.Processes.base_dvd {env : Env} {options : Options} {p : Program env options}
    {pre post : List Statement} {x : Statement} {s : State} (h : p.Processes pre x post s) :
    16 ∣ options.base.toNat := by
  have mask : (0xF : BitVec 128).toNat = 2 ^ 4 - 1 := rfl
  obtain ⟨xs, listed, -⟩ := assembleFiles_expand p.accepted
  have accepted := p.accepted
  cases files : p.files with
  | nil =>
    have split := h.split
    rw [Program.statements, files] at split
    exact absurd split (by simp [expandFiles, result])
  | cons file files' =>
    rw [files] at accepted
    obtain ⟨_, m, first, -⟩ := stateT_bind_ok_iff.mp accepted
    have clear : options.base &&& 0xF = 0 := assemble_aligned first
    have low := congrArg BitVec.toNat clear
    rw [BitVec.toNat_and, mask, Nat.and_two_pow_sub_one_eq_mod] at low
    exact Nat.dvd_of_mod_eq_zero low

/-- Where every .org address is a multiple of 16, whatever a statement emits lies at a multiple
    of its element size once the program is finished. -/
theorem natural_alignment {env : Env} {options : Options} (f : Finished env options)
    (orgs : ∀ base, .org base ∈ f.program.statements → 16 ∣ base.toNat)
    {pre post : List Statement} {x : Statement} {s : State}
    (h : f.program.Processes pre x post s) :
    ∃ t, x.exec s = .ok t ∧ t.bytes s.current = x.output (s.bytes s.current) ∧
      ∀ off size, (off, size) ∈ x.elements (x.padded (s.bytes s.current)).length →
        size ∣ (f.state.address ⟨s.current, off, 0, 0⟩).toNat := by
  obtain ⟨t, run, later⟩ := h.after
  have effect := Statement.exec_effect run
  refine ⟨t, run, by rw [effect.bytes, if_pos rfl], fun off size mem => ?_⟩
  obtain ⟨offset, divides⟩ := Statement.elements_dvd mem (x.padded_dvd s)
  have aligned : f.program.final.state.BasesAligned :=
    run_invariant_mem BasesAligned (fun s x t inside aligned step =>
      exec_basesAligned (fun base same => orgs base (same ▸ inside)) aligned step)
      (new_basesAligned h.base_dvd) f.program.ran
  obtain ⟨u, prepared, base⟩ := finish_base f.done
  have known : s.current ∈ f.program.final.state.sections :=
    run_invariant (fun a : State => s.current ∈ a.sections)
      (fun a y b inside step => (Statement.exec_effect step).known _ inside)
      (effect.known _ s.currentMem) later
  have start := prepared_dvd (Reachable.ofProgram f.program) aligned prepared known
  rw [baseOf, ← base] at start
  exact Section.addressAt_dvd start offset divides

theorem quad_aligned_after_byte : ∃ f : Finished Env.noFiles {},
    16 ∣ (f.state.address ⟨lit ".data", 16, 0, 0⟩).toNat := by
  let pre : List Statement := [.org 0x2000, .db 1, .sect (lit ".data"), .db 1]
  let quad : Statement := .data .quad (littleEndian 16 (7 : BitVec 128))
  let s := result (execAll (State.new {}) pre)
  obtain ⟨p, listed, before, accepted, bases, mem⟩ : ∃ p : Program Env.noFiles {},
      p.statements = pre ++ [quad] ∧ (execAll (State.new {}) pre).isOk = true ∧
        p.final.state.finish.isOk = true ∧
        p.statements.all (fun x => match x with
          | .org base => base.toNat % 16 == 0
          | _ => true) = true ∧
        (s.current = lit ".data" ∧ (16, 16) ∈ quad.elements (quad.padded (s.bytes s.current)).length) :=
    ⟨Program.ofSource {} (lit ".org 0x2000\ndb 1\n.section .data\ndb 1\ndq 7") (by decide +kernel),
      by decide +kernel⟩
  let f : Finished Env.noFiles {} := ⟨p, result p.final.state.finish, eq_ok_result accepted⟩
  obtain ⟨t, -, -, aligned⟩ := natural_alignment f
    (fun base org => Nat.dvd_of_mod_eq_zero (beq_iff_eq.mp (List.all_eq_true.mp bases _ org)))
    ⟨listed, eq_ok_result before⟩
  rw [mem.1] at aligned
  exact ⟨f, aligned 16 16 mem.2⟩

end BigAsm
