import Mathlib
import BigAsm.Library.Bytes

/- Edits of a family of byte sequences, each confined to one slot. Edits of slots that do not
   overlap commute, so a list of them has one result in every order. -/
namespace ByteStore

def rewriteAt (start len : Nat) (f : List Byte → List Byte) (bs : List Byte) : List Byte :=
  splice start (f (window start len bs)) bs

/-- A rewriter that answers a window of this length with one of the same length. -/
def KeepsLength (len : Nat) (f : List Byte → List Byte) : Prop :=
  ∀ w, w.length = len → (f w).length = len

section RewriteAt
variable {start start' len len' : Nat} {f g : List Byte → List Byte} {bs : List Byte}

theorem rewritten_length (keeps : KeepsLength len f) (bound : start + len ≤ bs.length) :
    (f (window start len bs)).length = len := keeps _ (window_length bound)

theorem rewriteAt_length (keeps : KeepsLength len f) (bound : start + len ≤ bs.length) :
    (rewriteAt start len f bs).length = bs.length :=
  splice_length (by rwa [rewritten_length keeps bound])

theorem getElem?_rewriteAt (keeps : KeepsLength len f) (bound : start + len ≤ bs.length)
    (i : Nat) : (rewriteAt start len f bs)[i]? =
      if start ≤ i ∧ i < start + len then (f (window start len bs))[i - start]? else bs[i]? := by
  have length := rewritten_length keeps bound
  rw [rewriteAt, getElem?_splice (by omega), length]

theorem window_rewriteAt_self (keeps : KeepsLength len f) (bound : start + len ≤ bs.length) :
    window start len (rewriteAt start len f bs) = f (window start len bs) := by
  have length := rewritten_length keeps bound
  have self : window start (f (window start len bs)).length (rewriteAt start len f bs) =
      f (window start len bs) := window_splice_self (by omega)
  rwa [length] at self

theorem window_rewriteAt_apart (keeps : KeepsLength len f) (bound : start + len ≤ bs.length)
    (apart : start' + len' ≤ start ∨ start + len ≤ start') :
    window start' len' (rewriteAt start len f bs) = window start' len' bs := by
  have length := rewritten_length keeps bound
  exact window_splice_disjoint (by omega) (by omega)

theorem rewriteAt_comm (keeps : KeepsLength len f) (keeps' : KeepsLength len' g)
    (bound : start + len ≤ bs.length) (bound' : start' + len' ≤ bs.length)
    (apart : start' + len' ≤ start ∨ start + len ≤ start') :
    rewriteAt start len f (rewriteAt start' len' g bs) =
      rewriteAt start' len' g (rewriteAt start len f bs) := by
  have length := rewritten_length keeps bound
  have length' := rewritten_length keeps' bound'
  have same : window start len (rewriteAt start' len' g bs) = window start len bs :=
    window_rewriteAt_apart keeps' bound' (by omega)
  have same' : window start' len' (rewriteAt start len f bs) = window start' len' bs :=
    window_rewriteAt_apart keeps bound apart
  rw [rewriteAt, same, rewriteAt, rewriteAt, same', rewriteAt]
  exact splice_comm (by omega) (by omega) (by omega)

theorem rewriteAt_inside (keeps : KeepsLength len' f) (bound : start + len ≤ bs.length)
    (inside : start' + len' ≤ len) :
    rewriteAt (start + start') len' f bs = rewriteAt start len (rewriteAt start' len' f) bs := by
  have whole := window_length bound
  have inner : KeepsLength len (rewriteAt start' len' f) := by
    intro w hw
    rw [rewriteAt_length keeps (by omega), hw]
  apply List.ext_getElem?
  intro i
  rw [getElem?_rewriteAt keeps (by omega), getElem?_rewriteAt inner bound,
    getElem?_rewriteAt keeps (by omega), window_window inside, getElem?_window]
  split
  · rw [if_pos (by omega), if_pos (by omega)]
    congr 1
    omega
  · split
    · rw [if_neg (by omega), if_pos (by omega)]
      congr 1
      omega
    · rfl

theorem rewriteAt_keeps (keeps : KeepsLength len' f) (inside : start' + len' ≤ len) :
    KeepsLength len (rewriteAt start' len' f) := by
  intro w hw
  rw [rewriteAt_length keeps (by omega), hw]

theorem rewriteAt_rewriteAt (keeps : KeepsLength len f) (keeps' : KeepsLength len g)
    (bound : start + len ≤ bs.length) :
    rewriteAt start len g (rewriteAt start len f bs) = rewriteAt start len (g ∘ f) bs := by
  have both : KeepsLength len (g ∘ f) := fun w hw => keeps' _ (keeps w hw)
  have kept := rewriteAt_length keeps bound
  apply List.ext_getElem?
  intro i
  rw [getElem?_rewriteAt keeps' (by omega), window_rewriteAt_self keeps bound,
    getElem?_rewriteAt both bound]
  split
  · rfl
  · rename_i outside
    rw [getElem?_rewriteAt keeps bound, if_neg outside]

theorem rewriteAt_append (keeps : KeepsLength len f) (bound : start + len ≤ bs.length)
    (more : List Byte) :
    rewriteAt start len f (bs ++ more) = rewriteAt start len f bs ++ more := by
  have length := rewritten_length keeps bound
  have beyond : start + (f (window start len bs)).length ≤ bs.length := by omega
  rw [rewriteAt, rewriteAt, window_append_left bound, splice, splice,
    List.take_append_of_le_length (by omega), List.drop_append_of_le_length beyond]
  simp only [List.append_assoc]

theorem rewriteAt_back (keeps : KeepsLength len f) (front : List Byte) {back : List Byte}
    (length : back.length = len) :
    rewriteAt front.length len f (front ++ back) = front ++ f back := by
  have whole : window front.length len (front ++ back) = back := by
    rw [← length]
    exact window_at_end front back
  have end_ : (front ++ back).length ≤ front.length + (f back).length := by
    rw [List.length_append, keeps back length, length]
  rw [rewriteAt, whole, splice, List.take_left, List.drop_eq_nil_of_le end_, List.append_nil]

end RewriteAt

structure Slot (κ : Type) where
  region : κ
  start : Nat
  length : Nat
  deriving DecidableEq, Repr

namespace Slot
variable {κ : Type}

def Apart (a b : Slot κ) : Prop :=
  a.region = b.region → a.start + a.length ≤ b.start ∨ b.start + b.length ≤ a.start

theorem Apart.symm {a b : Slot κ} (h : a.Apart b) : b.Apart a :=
  fun same => (h same.symm).symm

def Fits (a : Slot κ) (m : κ → List Byte) : Prop := a.start + a.length ≤ (m a.region).length

def contents (a : Slot κ) (m : κ → List Byte) : List Byte := window a.start a.length (m a.region)

def Covers (a : Slot κ) (n : κ) (i : Nat) : Prop :=
  a.region = n ∧ a.start ≤ i ∧ i < a.start + a.length

end Slot

structure Edit (κ : Type) where
  slot : Slot κ
  rewrite : List Byte → List Byte
  keeps : KeepsLength slot.length rewrite

namespace Edit
variable {κ : Type} [DecidableEq κ]

def apply (e : Edit κ) (m : κ → List Byte) : κ → List Byte := fun n =>
  if n = e.slot.region then rewriteAt e.slot.start e.slot.length e.rewrite (m n) else m n

theorem apply_length {e : Edit κ} {m : κ → List Byte} (fits : e.slot.Fits m) (n : κ) :
    (e.apply m n).length = (m n).length := by
  unfold apply
  split
  · rename_i here
    subst here
    exact rewriteAt_length e.keeps fits
  · rfl

theorem apply_fits {e : Edit κ} {m : κ → List Byte} (fits : e.slot.Fits m) {a : Slot κ}
    (other : a.Fits m) : a.Fits (e.apply m) := by
  rw [Slot.Fits, apply_length fits]
  exact other

theorem apply_contents {e : Edit κ} {m : κ → List Byte} (fits : e.slot.Fits m) :
    e.slot.contents (e.apply m) = e.rewrite (e.slot.contents m) := by
  rw [Slot.contents, apply, if_pos rfl]
  exact window_rewriteAt_self e.keeps fits

theorem apply_apart {e : Edit κ} {m : κ → List Byte} (fits : e.slot.Fits m) {a : Slot κ}
    (apart : e.slot.Apart a) : a.contents (e.apply m) = a.contents m := by
  rw [Slot.contents, apply]
  split
  · rename_i here
    exact window_rewriteAt_apart e.keeps (here ▸ fits) (by have := apart here.symm; omega)
  · rfl

theorem apply_outside {e : Edit κ} {m : κ → List Byte} (fits : e.slot.Fits m) {n : κ} {i : Nat}
    (outside : ¬ e.slot.Covers n i) : (e.apply m n)[i]? = (m n)[i]? := by
  unfold apply
  split
  · rename_i here
    subst here
    rw [getElem?_rewriteAt e.keeps fits, if_neg fun inside => outside ⟨rfl, inside⟩]
  · rfl

theorem apply_comm {e f : Edit κ} {m : κ → List Byte} (fits : e.slot.Fits m)
    (fits' : f.slot.Fits m) (apart : e.slot.Apart f.slot) :
    e.apply (f.apply m) = f.apply (e.apply m) := by
  funext n
  unfold apply
  by_cases here : n = e.slot.region
  · by_cases there : n = f.slot.region
    · rw [if_pos here, if_pos there, if_pos there, if_pos here]
      have distinct := apart (here.symm.trans there)
      exact rewriteAt_comm e.keeps f.keeps (here ▸ fits) (there ▸ fits') (by omega)
    · rw [if_pos here, if_neg there, if_neg there, if_pos here]
  · rw [if_neg here]
    split <;> rfl

def applyAll (es : List (Edit κ)) (m : κ → List Byte) : κ → List Byte :=
  es.foldl (fun m e => e.apply m) m

section ApplyAll
variable {es fs : List (Edit κ)} {m : κ → List Byte}

/-- Pairwise separate edits give one result in any order. -/
theorem applyAll_perm (perm : es.Perm fs) (fits : ∀ e ∈ es, e.slot.Fits m)
    (apart : es.Pairwise fun e f => e.slot.Apart f.slot) : applyAll es m = applyAll fs m := by
  induction perm generalizing m with
  | nil => rfl
  | cons e perm ih =>
    have here := fits e (by simp)
    exact ih (fun f mem => apply_fits here (fits f (by simp [mem])))
      (List.pairwise_cons.mp apart).2
  | swap e f es =>
    have distinct := (List.pairwise_cons.mp apart).1 e (by simp)
    rw [applyAll, List.foldl_cons, List.foldl_cons,
      apply_comm (fits e (by simp)) (fits f (by simp)) distinct.symm]
    rfl
  | trans first second ih ih' =>
    have symm : ∀ {e f : Edit κ}, e.slot.Apart f.slot → f.slot.Apart e.slot := Slot.Apart.symm
    exact (ih fits apart).trans (ih' (fun e mem => fits e (first.mem_iff.mpr mem))
      ((first.pairwise_iff symm).mp apart))

theorem applyAll_apart (fits : ∀ e ∈ es, e.slot.Fits m) {a : Slot κ}
    (apart : ∀ e ∈ es, e.slot.Apart a) : a.contents (applyAll es m) = a.contents m := by
  induction es generalizing m with
  | nil => rfl
  | cons e es ih =>
    have here := fits e (by simp)
    rw [applyAll, List.foldl_cons, ← applyAll,
      ih (fun f mem => apply_fits here (fits f (by simp [mem])))
        fun f mem => apart f (by simp [mem])]
    exact apply_apart here (apart e (by simp))

/-- The slot of each edit ends up with what that edit alone makes of it. -/
theorem applyAll_contents (fits : ∀ e ∈ es, e.slot.Fits m)
    (apart : es.Pairwise fun e f => e.slot.Apart f.slot) {e : Edit κ} (mem : e ∈ es) :
    e.slot.contents (applyAll es m) = e.rewrite (e.slot.contents m) := by
  induction es generalizing m with
  | nil => cases mem
  | cons f es ih =>
    obtain ⟨first, rest⟩ := List.pairwise_cons.mp apart
    have here := fits f (by simp)
    have later : ∀ g ∈ es, g.slot.Fits (f.apply m) :=
      fun g inside => apply_fits here (fits g (by simp [inside]))
    rw [applyAll, List.foldl_cons, ← applyAll]
    rcases List.mem_cons.mp mem with rfl | inside
    · rw [applyAll_apart later fun g inside => (first g inside).symm, apply_contents here]
    · rw [ih later rest inside, apply_apart here (first e inside)]

theorem applyAll_outside (fits : ∀ e ∈ es, e.slot.Fits m) {n : κ} {i : Nat}
    (outside : ∀ e ∈ es, ¬ e.slot.Covers n i) : (applyAll es m n)[i]? = (m n)[i]? := by
  induction es generalizing m with
  | nil => rfl
  | cons e es ih =>
    have here := fits e (by simp)
    rw [applyAll, List.foldl_cons, ← applyAll,
      ih (fun f mem => apply_fits here (fits f (by simp [mem])))
        fun f mem => outside f (by simp [mem])]
    exact apply_outside here (outside e (by simp))

theorem applyAll_length (fits : ∀ e ∈ es, e.slot.Fits m) (n : κ) :
    (applyAll es m n).length = (m n).length := by
  induction es generalizing m with
  | nil => rfl
  | cons e es ih =>
    have here := fits e (by simp)
    rw [applyAll, List.foldl_cons, ← applyAll,
      ih fun f mem => apply_fits here (fits f (by simp [mem])), apply_length here]

theorem applyAll_append (fits : ∀ e ∈ es, e.slot.Fits m) {more m' : κ → List Byte}
    (grown : ∀ n, m' n = m n ++ more n) (n : κ) : applyAll es m' n = applyAll es m n ++ more n := by
  induction es generalizing m m' with
  | nil => exact grown n
  | cons e es ih =>
    have here := fits e (by simp)
    refine ih (fun f mem => apply_fits here (fits f (by simp [mem]))) fun k => ?_
    change e.apply m' k = e.apply m k ++ more k
    unfold apply
    rw [grown]
    split
    · rename_i same
      subst same
      exact rewriteAt_append e.keeps here _
    · rfl

end ApplyAll

end Edit

end ByteStore
