import Mathlib
import BigAsm.Layout
import BigAsm.Growth

/- Where the sections come to stand. Below 2^128 no section reaches into the next one unless
   that one has an address of its own; page boundaries are kept only after code at such an
   address. -/
namespace BigAsm
open ByteStore Runs State

namespace State.Layout
variable {l : Layout} {separation : Bool} {sect : Section} {sects : List Section}

theorem align16 (x : BitVec 128) (small : x.toNat + 0xF < 2 ^ 128) :
    ((x + 0xF) &&& ~~~0xF).toNat = (x.toNat + 15) / 16 * 16 := by
  have mask : (0xF : BitVec 128).toNat = 2 ^ 4 - 1 := rfl
  have sum : (x + 0xF).toNat = x.toNat + 15 := by
    rw [BitVec.toNat_add]
    exact Nat.mod_eq_of_lt small
  rw [BitFields.toNat_clear_low _ _ mask, sum]
  norm_num

theorem align16_dvd (x : BitVec 128) : 16 ∣ ((x + 0xF) &&& ~~~0xF).toNat := by
  have mask : (0xF : BitVec 128).toNat = 2 ^ 4 - 1 := rfl
  rw [BitFields.toNat_clear_low _ _ mask]
  exact Nat.dvd_mul_left 16 _

theorem pageRealign_toNat (x : BitVec 128) :
    (pageRealign x).toNat = (x.toNat + 0xFFF) % 2 ^ 128 / 4096 * 4096 := by
  have mask : (0xFFF : BitVec 128).toNat = 2 ^ 12 - 1 := rfl
  rw [pageRealign, BitFields.toNat_clear_low _ _ mask, BitVec.toNat_add]
  rfl

theorem separate_base (l : Layout) (separation : Bool) (sect : Section) :
    (l.separate separation sect).base = l.base ∨
      (l.separate separation sect).base = pageRealign l.base := by
  unfold separate
  split
  · split
    · exact Or.inr rfl
    · split
      · exact Or.inr rfl
      · exact Or.inl rfl
  · exact Or.inl rfl

/-- The ends of the sections and their roundings stay below 2^128. -/
def Fits (l : Layout) (separation : Bool) : List Section → Prop
  | [] => True
  | sect :: rest =>
    (sect.hasBaseAddr = false → (l.separate separation sect).base ≠ l.base →
      l.base.toNat + 0xFFF < 2 ^ 128) ∧
    (l.enter separation sect).base.toNat + sect.size + 0xF < 2 ^ 128 ∧
    ((l.enter separation sect).leave sect).Fits separation rest

def decidableFits (separation : Bool) : ∀ l sects, Decidable (Fits l separation sects)
  | _, [] => .isTrue trivial
  | l, sect :: rest =>
    have := decidableFits separation ((l.enter separation sect).leave sect) rest
    inferInstanceAs (Decidable (_ ∧ _ ∧ _))

instance (sects : List Section) : Decidable (l.Fits separation sects) :=
  decidableFits separation l sects

theorem enter_explicit (explicit : sect.hasBaseAddr = true) :
    (l.enter separation sect).base = sect.baseAddress := by
  simp [enter, explicit]

theorem enter_automatic (automatic : sect.hasBaseAddr = false) :
    l.enter separation sect = l.separate separation sect := by
  simp [enter, automatic]

theorem le_enter (automatic : sect.hasBaseAddr = false)
    (fits : (l.separate separation sect).base ≠ l.base → l.base.toNat + 0xFFF < 2 ^ 128) :
    l.base.toNat ≤ (l.enter separation sect).base.toNat := by
  rw [enter_automatic automatic]
  rcases separate_base l separation sect with same | realigned
  · rw [same]
  · by_cases moved : (l.separate separation sect).base = l.base
    · rw [moved]
    · have room := fits moved
      rw [realigned, pageRealign_toNat, Nat.mod_eq_of_lt room]
      omega

theorem enter_dvd (automatic : sect.hasBaseAddr = false) (aligned : 16 ∣ l.base.toNat) :
    16 ∣ (l.enter separation sect).base.toNat := by
  rw [enter_automatic automatic]
  rcases separate_base l separation sect with same | realigned
  · rwa [same]
  · rw [realigned, pageRealign_toNat]
    omega

theorem leave_dvd (l : Layout) (sect : Section) : 16 ∣ (l.leave sect).base.toNat :=
  align16_dvd _

theorem le_leave (room : l.base.toNat + sect.size + 0xF < 2 ^ 128) :
    l.base.toNat + sect.size ≤ (l.leave sect).base.toNat := by
  have sum : (l.base + BitVec.ofNat 128 sect.size).toNat = l.base.toNat + sect.size := by
    rw [BitVec.toNat_add, BitVec.toNat_ofNat]
    omega
  rw [leave, align16 _ (by omega), sum]
  omega

theorem bases_explicit {i : Nat} {base : BitVec 128} (at_ : sects[i]? = some sect)
    (based : (l.bases separation sects)[i]? = some base) (explicit : sect.hasBaseAddr = true) :
    base = sect.baseAddress := by
  induction sects generalizing l i with
  | nil => cases at_
  | cons first rest ih =>
    cases i with
    | zero =>
      cases at_
      cases based
      exact enter_explicit explicit
    | succ i => exact ih at_ based

theorem bases_dvd {i : Nat} {base : BitVec 128} (aligned : 16 ∣ l.base.toNat)
    (at_ : sects[i]? = some sect) (based : (l.bases separation sects)[i]? = some base)
    (automatic : sect.hasBaseAddr = false) : 16 ∣ base.toNat := by
  induction sects generalizing l i with
  | nil => cases at_
  | cons first rest ih =>
    cases i with
    | zero =>
      cases at_
      cases based
      exact enter_dvd automatic aligned
    | succ i => exact ih (leave_dvd _ first) at_ based

theorem bases_tail_dvd {first : Section} {i : Nat} {base : BitVec 128}
    (at_ : (first :: sects)[i + 1]? = some sect)
    (based : (l.bases separation (first :: sects))[i + 1]? = some base)
    (automatic : sect.hasBaseAddr = false) : 16 ∣ base.toNat := by
  rw [List.getElem?_cons_succ] at at_
  rw [bases, List.getElem?_cons_succ] at based
  exact bases_dvd (leave_dvd _ first) at_ based automatic

theorem le_bases {j : Nat} {base : BitVec 128} (fits : l.Fits separation sects)
    (based : (l.bases separation sects)[j]? = some base)
    (automatic : ∀ k ≤ j, ∀ sect, sects[k]? = some sect → sect.hasBaseAddr = false) :
    l.base.toNat ≤ base.toNat := by
  induction sects generalizing l j with
  | nil => cases based
  | cons first rest ih =>
    obtain ⟨page, room, later⟩ := fits
    have free := automatic 0 (Nat.zero_le j) first rfl
    have entered := le_enter free (page free)
    cases j with
    | zero =>
      cases based
      exact entered
    | succ j =>
      have left := le_leave room
      have grown := ih later based fun k before sect at_ => automatic (k + 1) (by omega) sect at_
      omega

theorem bases_apart {i j : Nat} {base base' : BitVec 128} (fits : l.Fits separation sects)
    (before : i < j) (at_ : sects[i]? = some sect)
    (based : (l.bases separation sects)[i]? = some base)
    (based' : (l.bases separation sects)[j]? = some base')
    (automatic : ∀ k, i < k → k ≤ j → ∀ sect, sects[k]? = some sect → sect.hasBaseAddr = false) :
    base.toNat + sect.size ≤ base'.toNat := by
  induction sects generalizing l i j with
  | nil => cases at_
  | cons first rest ih =>
    obtain ⟨page, room, later⟩ := fits
    cases j with
    | zero => omega
    | succ j =>
      cases i with
      | zero =>
        cases at_
        cases based
        have left := le_leave room
        have grown := le_bases later based' fun k small sect at_ =>
          automatic (k + 1) (by omega) (by omega) sect at_
        omega
      | succ i =>
        exact ih later (by omega) at_ based based' fun k after small sect at_ =>
          automatic (k + 1) (by omega) (by omega) sect at_

end State.Layout

namespace State

def inOrder (s : State) : List Section :=
  (List.range s.sections.size).filterMap fun idx =>
    (s.sections.toList.find? fun entry => entry.2.idx == idx).map Prod.snd

theorem filterMap_getElem? {α : Type} (xs : List α) :
    (List.range xs.length).filterMap (fun i => xs[i]?) = xs := by
  induction xs using List.reverseRecOn with
  | nil => rfl
  | append_singleton xs x ih =>
    have front : (List.range xs.length).filterMap (fun i => (xs ++ [x])[i]?) = xs := by
      refine Eq.trans (List.filterMap_congr fun i mem => ?_) ih
      exact List.getElem?_append_left (List.mem_range.mp mem)
    rw [List.length_append, List.length_singleton, List.range_succ, List.filterMap_append, front]
    simp

theorem Indexed.inOrder_eq {s : State} {order : List Str} (h : s.Indexed order) :
    s.inOrder = order.map s.sectionAt := by
  have same : ∀ i < order.length,
      (s.sections.toList.find? fun entry => entry.2.idx == i).map Prod.snd =
        (order.map s.sectionAt)[i]? := by
    intro i inside
    rw [h.find (List.getElem?_eq_getElem inside), List.getElem?_map, List.getElem?_eq_getElem inside]
    rfl
  unfold inOrder
  rw [h.size]
  have whole := filterMap_getElem? (order.map s.sectionAt)
  rw [List.length_map] at whole
  rw [← whole]
  exact List.filterMap_congr fun i mem => same i (List.mem_range.mp mem)

def LayoutFits (s : State) : Prop :=
  ({ base := s.options.base } : Layout).Fits s.options.sectionAttrPageSeparation s.inOrder

instance (s : State) : Decidable s.LayoutFits := inferInstanceAs (Decidable (Layout.Fits _ _ _))

def baseOf (s : State) (name : Str) : BitVec 128 := (s.sectionAt name).baseAddress

end State

/- Page boundaries. -/

def Section.room (sect : Section) : Nat := (sect.size + 15) / 16 * 16

namespace State.Layout
variable {l : Layout} {e sect : Section} {middle : List Section}

def after (l : Layout) (separation : Bool) (sects : List Section) : Layout :=
  sects.foldl (fun l sect => (l.enter separation sect).leave sect) l

theorem bases_append (l : Layout) (separation : Bool) (front back : List Section) :
    l.bases separation (front ++ back) =
      l.bases separation front ++ (l.after separation front).bases separation back := by
  induction front generalizing l with
  | nil => rfl
  | cons sect front ih => exact congrArg (List.cons _) (ih _)

theorem bases_at (l : Layout) (separation : Bool) (front : List Section) (sect : Section)
    (back : List Section) : (l.bases separation (front ++ sect :: back))[front.length]? =
      some ((l.after separation front).enter separation sect).base := by
  rw [bases_append, List.getElem?_append_right (by rw [bases_length]), bases_length, Nat.sub_self]
  rfl

theorem after_wasReadonly (separation : Bool) (sects : List Section)
    (clear : l.wasReadonly = false) : (l.after separation sects).wasReadonly = false := by
  induction sects generalizing l with
  | nil => exact clear
  | cons sect rest ih =>
    refine ih ?_
    change (l.enter separation sect).wasReadonly = false
    unfold enter separate
    repeat' split
    all_goals first | exact clear | rfl

theorem leave_mod (l : Layout) (sect : Section) :
    (l.leave sect).base.toNat % 4096 = (l.base.toNat + sect.size + 15) / 16 * 16 % 4096 := by
  have mask : (0xF : BitVec 128).toNat = 2 ^ 4 - 1 := rfl
  change ((l.base + BitVec.ofNat 128 sect.size + 0xF) &&& ~~~0xF).toNat % 4096 = _
  rw [BitFields.toNat_clear_low _ _ mask, BitVec.toNat_add, BitVec.toNat_add, BitVec.toNat_ofNat]
  change ((l.base.toNat + sect.size % 2 ^ 128) % 2 ^ 128 + 15) % 2 ^ 128 / 2 ^ 4 * 2 ^ 4 % 4096 = _
  omega

theorem leave_mod_aligned (sect : Section) (aligned : 16 ∣ l.base.toNat) :
    (l.leave sect).base.toNat % 4096 = (l.base.toNat + sect.room) % 4096 := by
  rw [leave_mod, Section.room]
  omega

theorem pageRealign_mod (x : BitVec 128) : (pageRealign x).toNat % 4096 = 0 := by
  rw [pageRealign_toNat]
  exact Nat.mul_mod_left _ _

theorem enter_separated (automatic : sect.hasBaseAddr = false) (clear : l.wasReadonly = false) :
    l.enter true sect =
      if l.wasExecutable && !sect.code then
        { l with wasExecutable := false, base := pageRealign l.base }
      else l := by
  simp [enter_automatic automatic, separate, clear]

theorem after_automatic (aligned : 16 ∣ l.base.toNat) (clear : l.wasReadonly = false)
    (automatic : ∀ x ∈ middle, x.hasBaseAddr = false) :
    (l.after true middle).wasExecutable = (l.wasExecutable && middle.all (·.code)) ∧
      (l.after true middle).base.toNat % 4096 =
        (if l.wasExecutable && !middle.all (·.code) then
            ((middle.dropWhile (·.code)).map Section.room).sum
          else l.base.toNat + (middle.map Section.room).sum) % 4096 := by
  induction middle generalizing l with
  | nil => simp [after]
  | cons x rest ih =>
    have free := automatic x (by simp)
    have later := fun y mem => automatic y (List.mem_cons_of_mem x mem)
    have entered := enter_separated free clear
    have next : l.after true (x :: rest) = ((l.enter true x).leave x).after true rest := rfl
    have kept : ((l.enter true x).leave x).wasReadonly = false := by
      rw [entered, leave]
      split <;> exact clear
    obtain ⟨flag, offset⟩ := @ih ((l.enter true x).leave x) (leave_dvd _ x) kept later
    rw [next, flag, offset]
    by_cases breaks : (l.wasExecutable && !x.code) = true
    · rw [if_pos breaks] at entered
      have base : (l.enter true x).base = pageRealign l.base := by rw [entered]
      have page := pageRealign_mod l.base
      have here := leave_mod_aligned x (l := l.enter true x) (by rw [base]; omega)
      have cleared : ((l.enter true x).leave x).wasExecutable = false := by
        rw [entered]
        rfl
      rw [Bool.and_eq_true, Bool.not_eq_true'] at breaks
      rw [cleared, Bool.false_and, Bool.false_and, if_neg nofun, breaks.1, List.all_cons, breaks.2,
        Bool.false_and, Bool.not_false, Bool.and_true, if_pos rfl, List.dropWhile_cons_of_neg (by simp [breaks.2]),
        List.map_cons, List.sum_cons]
      rw [base] at here
      exact ⟨rfl, by omega⟩
    · rw [if_neg breaks] at entered
      have here := leave_mod_aligned x aligned
      have flag' : (l.leave x).wasExecutable = l.wasExecutable := rfl
      rw [entered, flag']
      cases executable : l.wasExecutable with
      | false =>
        simp only [Bool.false_and, Bool.false_eq_true, if_false, List.map_cons, List.sum_cons]
        exact ⟨trivial, by omega⟩
      | true =>
        have code : x.code = true := by simpa [executable] using breaks
        simp only [Bool.true_and, List.all_cons, code, List.dropWhile_cons, if_true, true_and,
          List.map_cons, List.sum_cons]
        split
        · rfl
        · omega

/-- How far after a page boundary a section starts: e is the last section before it with an
    address of its own, middle are the sections between them. -/
def pageOffset (e : Section) (middle : List Section) (sect : Section) : Nat :=
  if e.code && !(middle.all (·.code) && sect.code) then
    ((middle.dropWhile (·.code)).map Section.room).sum
  else (e.baseAddress.toNat + e.size + 15) / 16 * 16 + (middle.map Section.room).sum

theorem enter_mod (clear : l.wasReadonly = false) (explicit : e.hasBaseAddr = true)
    (between : ∀ x ∈ middle, x.hasBaseAddr = false) (automatic : sect.hasBaseAddr = false) :
    ((((l.enter true e).leave e).after true middle).enter true sect).base.toNat % 4096 =
      pageOffset e middle sect % 4096 := by
  have entered : l.enter true e = { l with base := e.baseAddress, wasExecutable := e.code } := by
    simp [enter, explicit]
  have start := leave_mod (l.enter true e) e
  have flag : ((l.enter true e).leave e).wasExecutable = e.code := by
    rw [entered]
    rfl
  have clear' : ((l.enter true e).leave e).wasReadonly = false := by
    rw [entered]
    exact clear
  have base : (l.enter true e).base = e.baseAddress := enter_explicit explicit
  obtain ⟨flag', offset⟩ := after_automatic (leave_dvd _ e) clear' between
  have last := enter_separated automatic (after_wasReadonly true middle clear')
  rw [base] at start
  rw [flag] at flag' offset
  rw [last, flag', pageOffset]
  cases code : e.code with
  | false =>
    simp only [code, Bool.false_and, Bool.false_eq_true, if_false] at offset ⊢
    omega
  | true =>
    simp only [code, Bool.true_and] at offset ⊢
    cases allCode : middle.all (·.code) with
    | false =>
      simp only [allCode, Bool.false_and, Bool.false_eq_true, if_false, Bool.not_false,
        if_true] at offset ⊢
      exact offset
    | true =>
      simp only [allCode, Bool.not_true, Bool.false_eq_true, if_false, Bool.true_and] at offset ⊢
      split
      · have none : middle.dropWhile (·.code) = [] :=
          List.dropWhile_eq_nil_iff.mpr (List.all_eq_true.mp allCode)
        rw [none]
        exact pageRealign_mod _
      · omega

end State.Layout

section Claims
open State Layout

variable {options : Options} {s : State}

theorem prepared_base {order : List Str} {m t : State} {names : List Str}
    (flushed : Flushed s m names) (placed : Placed m t order
      (({ base := s.options.base } : Layout).bases s.options.sectionAttrPageSeparation
        (order.map s.sectionAt))) {i : Nat} {n : Str} (at_ : order[i]? = some n) :
    (({ base := s.options.base } : Layout).bases s.options.sectionAttrPageSeparation
      (order.map s.sectionAt))[i]? = some (t.baseOf n) ∧ t.bytes n = s.bytes n := by
  obtain ⟨inside, -⟩ := List.getElem?_eq_some_iff.mp at_
  obtain ⟨base, based⟩ : ∃ base, (({ base := s.options.base } : Layout).bases
      s.options.sectionAttrPageSeparation (order.map s.sectionAt))[i]? = some base := by
    refine ⟨_, List.getElem?_eq_getElem ?_⟩
    rwa [bases_length, List.length_map]
  have at_base := placed.placed i n base at_ based
  refine ⟨?_, ?_⟩
  · rw [based, baseOf, at_base]
    rfl
  · rw [State.bytes, at_base]
    exact flushed.bytes n

theorem known_of_based {n : Str} (based : (s.sectionAt n).hasBaseAddr = true) :
    n ∈ s.sections := by
  by_contra missing
  rw [sectionAt, Std.ExtTreeMap.getElem?_eq_none missing] at based
  cases based

theorem explicit_base (reachable : Reachable options s) {t : State} (run : s.prepare = .ok t)
    {n : Str} (explicit : (s.sectionAt n).hasBaseAddr = true) : t.baseOf n = s.baseOf n := by
  obtain ⟨first, rest, indexed, -⟩ := reachable.anchored
  obtain ⟨m, t', flushed, run', placed⟩ := prepare_ok indexed
  cases run'.symm.trans run
  have at_ := indexed.index (known_of_based explicit)
  have listed : ((first :: rest).map s.sectionAt)[(s.sectionAt n).idx]? = some (s.sectionAt n) := by
    rw [List.getElem?_map, at_]
    rfl
  exact bases_explicit listed (prepared_base flushed placed at_).1 explicit

theorem automatic_base (reachable : Reachable options s) {t : State} (run : s.prepare = .ok t)
    {n : Str} (known : n ∈ s.sections) (automatic : (s.sectionAt n).hasBaseAddr = false) :
    16 ∣ (t.baseOf n).toNat := by
  obtain ⟨first, rest, indexed, anchored⟩ := reachable.anchored
  obtain ⟨m, t', flushed, run', placed⟩ := prepare_ok indexed
  cases run'.symm.trans run
  have listed : ((first :: rest).map s.sectionAt)[(s.sectionAt n).idx]? = some (s.sectionAt n) := by
    rw [List.getElem?_map, indexed.index known]
    rfl
  have based := (prepared_base flushed placed (indexed.index known)).1
  cases place : (s.sectionAt n).idx with
  | zero =>
    rw [place] at listed
    have same : s.sectionAt first = s.sectionAt n := Option.some.inj listed
    rw [← same, anchored] at automatic
    cases automatic
  | succ i =>
    rw [place, List.map_cons] at listed based
    exact bases_tail_dvd listed based automatic

/-- Sections keep the addresses they were given, the others start at multiples of 16, and no
    section reaches into a later one when no section up to that one has an address of its own. -/
theorem sections_do_not_overlap (reachable : Reachable options s) (fits : s.LayoutFits) :
    ∃ t, s.prepare = .ok t ∧
      (∀ n, (s.sectionAt n).hasBaseAddr = true → t.baseOf n = s.baseOf n) ∧
      (∀ n ∈ s.sections, (s.sectionAt n).hasBaseAddr = false → 16 ∣ (t.baseOf n).toNat) ∧
      ∀ a ∈ s.sections, ∀ b ∈ s.sections, (s.sectionAt a).idx < (s.sectionAt b).idx →
        (∀ c ∈ s.sections, (s.sectionAt a).idx < (s.sectionAt c).idx →
          (s.sectionAt c).idx ≤ (s.sectionAt b).idx → (s.sectionAt c).hasBaseAddr = false) →
        (t.baseOf a).toNat + (t.bytes a).length ≤ (t.baseOf b).toNat := by
  obtain ⟨first, rest, indexed, -⟩ := reachable.anchored
  obtain ⟨m, t, flushed, run, placed⟩ := prepare_ok indexed
  have ordered := indexed.inOrder_eq
  have base := fun n known => prepared_base flushed placed (@Indexed.index s (first :: rest) indexed n known)
  have listed : ∀ n ∈ s.sections,
      ((first :: rest).map s.sectionAt)[(s.sectionAt n).idx]? = some (s.sectionAt n) := by
    intro n known
    rw [List.getElem?_map, indexed.index known]
    rfl
  rw [LayoutFits, ordered] at fits
  refine ⟨t, run, fun n => explicit_base reachable run, fun n => automatic_base reachable run,
    fun a inA b inB before free => ?_⟩
  obtain ⟨basedA, sizeA⟩ := base a inA
  rw [sizeA]
  refine bases_apart fits before (listed a inA) basedA (base b inB).1 fun k after small sect at_ => ?_
  rw [List.getElem?_map] at at_
  obtain ⟨c, nth, rfl⟩ := Option.map_eq_some_iff.mp at_
  obtain ⟨inC, idx⟩ := indexed.found k c nth
  exact free c inC (by omega) (by omega)

theorem text_stays_below_data :
    let p := Program.ofSource {} (lit "db 1\n.section .data\ndb 2") (by decide +kernel)
    ∃ t, p.final.state.prepare = .ok t ∧
      (t.baseOf (lit ".text")).toNat + (t.bytes (lit ".text")).length ≤
        (t.baseOf (lit ".data")).toNat := by
  intro p
  obtain ⟨inText, inData, before, keys, free⟩ :
      lit ".text" ∈ p.final.state.sections ∧ lit ".data" ∈ p.final.state.sections ∧
      (p.final.state.sectionAt (lit ".text")).idx < (p.final.state.sectionAt (lit ".data")).idx ∧
      p.final.state.sections.keys = [lit ".data", lit ".text"] ∧
      (p.final.state.sectionAt (lit ".data")).hasBaseAddr = false := by decide +kernel
  obtain ⟨t, run, -, -, apart⟩ := sections_do_not_overlap (Reachable.ofProgram p) (by decide +kernel)
  refine ⟨t, run, apart (lit ".text") inText (lit ".data") inData before fun c inC after small => ?_⟩
  have mem := Std.ExtTreeMap.mem_keys.mpr inC
  rw [keys] at mem
  rcases List.mem_pair.mp mem with rfl | rfl
  · exact free
  · exact absurd after (Nat.lt_irrefl _)

/-- From p to n the right to execute, or the protection from writes, is given up. -/
def Crosses (p n : Section) : Prop :=
  p.code = true ∧ n.code = false ∨ p.readonly = true ∧ n.readonly = false

theorem last_based {front : List Str}
    (some_ : ∃ n ∈ front, (s.sectionAt n).hasBaseAddr = true) :
    ∃ before e middle, front = before ++ e :: middle ∧ (s.sectionAt e).hasBaseAddr = true ∧
      ∀ n ∈ middle, (s.sectionAt n).hasBaseAddr = false := by
  induction front using List.reverseRecOn with
  | nil => simp at some_
  | append_singleton front n ih =>
    by_cases last : (s.sectionAt n).hasBaseAddr = true
    · exact ⟨front, n, [], rfl, last, nofun⟩
    · obtain ⟨k, mem, based⟩ := some_
      have inside : k ∈ front := by
        rcases List.mem_append.mp mem with inside | same
        · exact inside
        · rw [List.mem_singleton.mp same] at based
          exact absurd based last
      obtain ⟨before, e, middle, rfl, explicit, free⟩ := ih ⟨k, inside, based⟩
      refine ⟨before, e, middle ++ [n], by simp, explicit, fun m mem => ?_⟩
      rcases List.mem_append.mp mem with inside | same
      · exact free m inside
      · rw [List.mem_singleton.mp same]
        exact Bool.eq_false_iff.mpr last

theorem prepared_offset {order before middle back : List Str} {e n : Str} {m t : State}
    {names : List Str} (flushed : Flushed s m names) (placed : Placed m t order
      (({ base := s.options.base } : Layout).bases s.options.sectionAttrPageSeparation
        (order.map s.sectionAt))) (separation : s.options.sectionAttrPageSeparation = true)
    (split : order = (before ++ e :: middle) ++ n :: back)
    (explicit : (s.sectionAt e).hasBaseAddr = true)
    (free : ∀ k ∈ middle, (s.sectionAt k).hasBaseAddr = false)
    (automatic : (s.sectionAt n).hasBaseAddr = false) : (t.baseOf n).toNat % 4096 =
      pageOffset (s.sectionAt e) (middle.map s.sectionAt) (s.sectionAt n) % 4096 := by
  have atN : order[(before ++ e :: middle).length]? = some n := by
    rw [split, List.getElem?_append_right (Nat.le_refl _), Nat.sub_self]
    rfl
  have based := (prepared_base flushed placed atN).1
  have reached := bases_at { base := s.options.base } true
    ((before ++ e :: middle).map s.sectionAt) (s.sectionAt n) (back.map s.sectionAt)
  rw [← List.map_cons, ← List.map_append, ← split, List.length_map] at reached
  rw [separation, reached] at based
  have clear : (({ base := s.options.base } : Layout).after true
      (before.map s.sectionAt)).wasReadonly = false := after_wasReadonly true _ rfl
  have between : ∀ x ∈ middle.map s.sectionAt, x.hasBaseAddr = false := by
    intro x mem
    obtain ⟨k, inMiddle, rfl⟩ := List.mem_map.mp mem
    exact free k inMiddle
  have offset := enter_mod clear explicit between automatic
  have chain : ({ base := s.options.base } : Layout).after true
      ((before ++ e :: middle).map s.sectionAt) =
      (((({ base := s.options.base } : Layout).after true (before.map s.sectionAt)).enter true
        (s.sectionAt e)).leave (s.sectionAt e)).after true (middle.map s.sectionAt) := by
    rw [List.map_append, List.map_cons, after, List.foldl_append]
    rfl
  rwa [← chain, Option.some.inj based] at offset

/-- A section without an address of its own, created right after one that is executable or
    read-only while it is not, starts a page exactly when its offset from the page of the last
    section with an address of its own is a multiple of 4096. -/
theorem pages_separated_iff (reachable : Reachable options s)
    (separation : s.options.sectionAttrPageSeparation = true) :
    ∃ order t, s.Indexed order ∧ s.prepare = .ok t ∧
      ∀ i p n, order[i]? = some p → order[i + 1]? = some n →
        (s.sectionAt n).hasBaseAddr = false → Crosses (s.sectionAt p) (s.sectionAt n) →
        ∃ before e middle back, order = before ++ e :: (middle ++ n :: back) ∧
          (s.sectionAt e).hasBaseAddr = true ∧
          (∀ m ∈ middle, (s.sectionAt m).hasBaseAddr = false) ∧
          (4096 ∣ (t.baseOf n).toNat ↔ 4096 ∣
            pageOffset (s.sectionAt e) (middle.map s.sectionAt) (s.sectionAt n)) ∧
          (s.LayoutFits → 4096 ∣ (t.baseOf n).toNat → ∀ x y, (t.baseOf p).toNat ≤ x →
            x < (t.baseOf p).toNat + (t.bytes p).length → (t.baseOf n).toNat ≤ y →
            x / 4096 ≠ y / 4096) := by
  obtain ⟨first, rest, indexed, anchored⟩ := reachable.anchored
  obtain ⟨m, t, flushed, run, placed⟩ := prepare_ok indexed
  refine ⟨first :: rest, t, indexed, run, fun i p n atP atN automatic _ => ?_⟩
  generalize same : first :: rest = order at *
  obtain ⟨inside, here⟩ := List.getElem?_eq_some_iff.mp atN
  have split : order = order.take (i + 1) ++ n :: order.drop (i + 2) := by
    rw [← here, List.getElem_cons_drop, List.take_append_drop]
  have some_ : ∃ k ∈ order.take (i + 1), (s.sectionAt k).hasBaseAddr = true := by
    refine ⟨first, ?_, anchored⟩
    rw [← same, List.take_succ_cons]
    simp
  obtain ⟨before, e, middle, front, explicit, free⟩ := last_based some_
  refine ⟨before, e, middle, order.drop (i + 2), ?_, explicit, free, ?_, ?_⟩
  · rw [← List.cons_append, ← List.append_assoc, ← front]
    exact split
  · have offset := prepared_offset flushed placed separation (front ▸ split) explicit free automatic
    rw [Nat.dvd_iff_mod_eq_zero, Nat.dvd_iff_mod_eq_zero, offset]
  · intro fits aligned x y low high above
    rw [LayoutFits, indexed.inOrder_eq] at fits
    obtain ⟨basedP, size⟩ := prepared_base flushed placed atP
    have nextTo := bases_apart fits (Nat.lt_succ_self i) (by rw [List.getElem?_map, atP]; rfl) basedP
      (prepared_base flushed placed atN).1 fun k after small sect at_ => by
        obtain rfl : k = i + 1 := by omega
        rw [List.getElem?_map, atN] at at_
        cases at_
        exact automatic
    rw [size] at high
    change x < (t.baseOf p).toNat + (s.sectionAt p).size at high
    omega

theorem data_starts_a_page :
    let p := Program.ofSource {} (lit "ret\n.section .data\ndb 2") (by decide +kernel)
    ∃ t, p.final.state.prepare = .ok t ∧ 4096 ∣ (t.baseOf (lit ".data")).toNat := by
  intro p
  obtain ⟨order, t, indexed, run, pages⟩ :=
    pages_separated_iff (Reachable.ofProgram p) (by decide +kernel)
  obtain ⟨inText, inData, zero, one, size, automatic, crosses⟩ :
      lit ".text" ∈ p.final.state.sections ∧ lit ".data" ∈ p.final.state.sections ∧
      (p.final.state.sectionAt (lit ".text")).idx = 0 ∧
      (p.final.state.sectionAt (lit ".data")).idx = 1 ∧ p.final.state.sections.size = 2 ∧
      (p.final.state.sectionAt (lit ".data")).hasBaseAddr = false ∧
      (p.final.state.sectionAt (lit ".text")).code = true ∧
      (p.final.state.sectionAt (lit ".data")).code = false := by decide +kernel
  have text := indexed.index inText
  have data := indexed.index inData
  rw [zero] at text
  rw [one] at data
  obtain ⟨before, e, middle, back, split, -, -, starts, -⟩ :=
    pages 0 (lit ".text") (lit ".data") text data automatic (Or.inl crosses)
  have two : order.length = 2 := indexed.size.symm.trans size
  rw [split] at two text
  simp only [List.length_append, List.length_cons] at two
  obtain rfl := List.length_eq_zero_iff.mp (show before.length = 0 by omega)
  obtain rfl := List.length_eq_zero_iff.mp (show middle.length = 0 by omega)
  obtain rfl : e = lit ".text" := Option.some.inj text
  exact ⟨t, run, starts.mpr (by decide +kernel)⟩

theorem data_after_code_on_one_page :
    let p := Program.ofSource {} (lit ".section .a\nret\n.section .b\ndb 1") (by decide +kernel)
    let s := p.final.state
    ∃ t, s.prepare = .ok t ∧ s.options.sectionAttrPageSeparation = true ∧
      (s.sectionAt (lit ".a")).idx + 1 = (s.sectionAt (lit ".b")).idx ∧
      Crosses (s.sectionAt (lit ".a")) (s.sectionAt (lit ".b")) ∧
      (s.sectionAt (lit ".b")).hasBaseAddr = false ∧ ¬ 4096 ∣ (t.baseOf (lit ".b")).toNat := by
  intro p s
  obtain ⟨prepared, on, next, code, data, automatic, off⟩ : s.prepare.isOk = true ∧
      s.options.sectionAttrPageSeparation = true ∧
      (s.sectionAt (lit ".a")).idx + 1 = (s.sectionAt (lit ".b")).idx ∧
      (s.sectionAt (lit ".a")).code = true ∧ (s.sectionAt (lit ".b")).code = false ∧
      (s.sectionAt (lit ".b")).hasBaseAddr = false ∧
      ¬ 4096 ∣ ((result s.prepare).baseOf (lit ".b")).toNat := by decide +kernel
  exact ⟨result s.prepare, eq_ok_result prepared, on, next, Or.inl ⟨code, data⟩, automatic, off⟩

end Claims

end BigAsm
