import Mathlib
import BigAsm.Library.Runs

/- Words whose letters belong to threads. Two words with the same threads are reached from one
   another by exchanging neighbours of different threads, so a run whose steps commute has one
   outcome for every interleaving of its threads. -/
namespace Traces
variable {α κ : Type} {key : α → κ} {xs ys zs : List α}

/-- ys is xs after exchanges of neighbours that belong to different threads. -/
inductive Exchange (key : α → κ) : List α → List α → Prop
  | refl (xs : List α) : Exchange key xs xs
  | cons (x : α) {xs ys : List α} (rest : Exchange key xs ys) : Exchange key (x :: xs) (x :: ys)
  | swap {x y : α} (apart : key x ≠ key y) (xs : List α) :
    Exchange key (x :: y :: xs) (y :: x :: xs)
  | trans {xs ys zs : List α} (first : Exchange key xs ys) (rest : Exchange key ys zs) :
    Exchange key xs zs

namespace Exchange

theorem symm (h : Exchange key xs ys) : Exchange key ys xs := by
  induction h with
  | refl xs => exact .refl xs
  | cons x _ ih => exact .cons x ih
  | swap apart xs => exact .swap apart.symm xs
  | trans _ _ first rest => exact .trans rest first

theorem perm (h : Exchange key xs ys) : xs.Perm ys := by
  induction h with
  | refl xs => exact .refl xs
  | cons x _ ih => exact .cons x ih
  | swap apart xs => exact .swap _ _ xs
  | trans _ _ first rest => exact first.trans rest

theorem front {x : α} (zs : List α) (apart : ∀ y ∈ xs, key y ≠ key x) :
    Exchange key (xs ++ x :: zs) (x :: (xs ++ zs)) := by
  induction xs with
  | nil => exact .refl _
  | cons y xs ih =>
    have later := ih fun z mem => apart z (by simp [mem])
    exact .trans (.cons y later) (.swap (apart y (by simp)) _)

end Exchange

section Threads
variable [DecidableEq κ]

def thread (key : α → κ) (k : κ) (xs : List α) : List α := xs.filter fun x => key x = k

def SameThreads (key : α → κ) (xs ys : List α) : Prop := ∀ k, thread key k xs = thread key k ys

theorem thread_append (k : κ) (xs ys : List α) :
    thread key k (xs ++ ys) = thread key k xs ++ thread key k ys := List.filter_append ..

theorem thread_of_apart {k : κ} (apart : ∀ x ∈ xs, key x ≠ k) : thread key k xs = [] := by
  refine List.filter_eq_nil_iff.mpr ?_
  intro x mem
  simpa using apart x mem

theorem sameThreads_iff : SameThreads key xs ys ↔
    ∀ x ∈ xs ++ ys, thread key (key x) xs = thread key (key x) ys := by
  constructor
  · intro same x _
    exact same (key x)
  · intro same k
    by_cases used : ∃ x ∈ xs ++ ys, key x = k
    · obtain ⟨x, mem, rfl⟩ := used
      exact same x mem
    · have apart : ∀ x ∈ xs ++ ys, key x ≠ k := by
        intro x mem here
        exact used ⟨x, mem, here⟩
      rw [thread_of_apart fun x mem => apart x (by simp [mem]),
        thread_of_apart fun x mem => apart x (by simp [mem])]

instance decidableSameThreads [DecidableEq α] (key : α → κ) (xs ys : List α) :
    Decidable (SameThreads key xs ys) := decidable_of_iff _ sameThreads_iff.symm

theorem split_of_thread {x : α} {rest : List α} (first : thread key (key x) ys = x :: rest) :
    ∃ before after, ys = before ++ x :: after ∧ ∀ y ∈ before, key y ≠ key x := by
  obtain ⟨before, after, split, apart, -, -⟩ := List.filter_eq_cons_iff.mp first
  refine ⟨before, after, split, ?_⟩
  intro y mem
  simpa using apart y mem

/-- The threads determine a word up to exchanges. -/
theorem SameThreads.exchange (same : SameThreads key xs ys) : Exchange key xs ys := by
  induction xs generalizing ys with
  | nil =>
    cases ys with
    | nil => exact .refl []
    | cons y ys => exact absurd (same (key y)) (by simp [thread])
  | cons x xs ih =>
    have first : thread key (key x) ys = x :: thread key (key x) xs := by
      rw [← same (key x)]
      simp [thread]
    obtain ⟨before, after, rfl, apart⟩ := split_of_thread first
    have moved := (Exchange.front after apart).symm
    -- what is left behind the letter has the threads of xs
    have others : SameThreads key xs (before ++ after) := by
      intro k
      have whole := same k
      rw [thread_append] at whole ⊢
      by_cases here : key x = k
      · subst here
        rw [thread_of_apart apart] at whole ⊢
        simpa [thread] using whole
      · simpa [thread, here] using whole
    exact .trans (.cons x (ih others)) moved

end Threads

/-- Both computations fail, or both succeed with related results. -/
def Alike {ε σ : Type} (R : σ → σ → Prop) : Except ε σ → Except ε σ → Prop
  | .ok s, .ok t => R s t
  | .error _, .error _ => True
  | _, _ => False

namespace Alike
variable {ε σ : Type} {R : σ → σ → Prop} {a b c : Except ε σ}

theorem of_eq (refl : ∀ s, R s s) (same : a = b) : Alike R a b := by
  subst same
  cases a with
  | error e => exact True.intro
  | ok s => exact refl s

theorem symm (symm : ∀ s t, R s t → R t s) (h : Alike R a b) : Alike R b a := by
  cases a with
  | error e =>
    cases b with
    | error e' => exact True.intro
    | ok t => exact h.elim
  | ok s =>
    cases b with
    | error e => exact h.elim
    | ok t => exact symm s t h

theorem trans (trans : ∀ r s t, R r s → R s t → R r t) (first : Alike R a b)
    (rest : Alike R b c) : Alike R a c := by
  cases b with
  | error e =>
    cases a with
    | ok r => exact first.elim
    | error e' =>
      cases c with
      | ok t => exact rest.elim
      | error e'' => exact True.intro
  | ok s =>
    cases a with
    | error e => exact first.elim
    | ok r =>
      cases c with
      | error e => exact rest.elim
      | ok t => exact trans r s t first rest

theorem bind {τ : Type} {Q : τ → τ → Prop} {f g : σ → Except ε τ} (first : Alike R a b)
    (rest : ∀ s t, a = .ok s → b = .ok t → R s t → Alike Q (f s) (g t)) :
    Alike Q (a >>= f) (b >>= g) := by
  cases a with
  | error e =>
    cases b with
    | error e' => exact True.intro
    | ok t => exact first.elim
  | ok s =>
    cases b with
    | error e => exact first.elim
    | ok t => exact rest s t rfl rfl first

theorem run {step : σ → α → Except ε σ}
    (respects : ∀ s t x, R s t → Alike R (step s x) (step t x)) {s t : σ} (related : R s t)
    (xs : List α) : Alike R (List.foldlM step s xs) (List.foldlM step t xs) := by
  induction xs generalizing s t with
  | nil => exact related
  | cons x xs ih => exact (respects s t x related).bind fun s' t' _ _ related' => ih related'

end Alike

/-- What makes a run independent of the order of its threads; Fits s xs says that the run can
    go on with xs from s. -/
structure Commutes {ε σ : Type} (step : σ → α → Except ε σ) (key : α → κ) (R : σ → σ → Prop)
    (Fits : σ → List α → Prop) : Prop where
  refl : ∀ s, R s s
  trans : ∀ r s t, R r s → R s t → R r t
  respects : ∀ s t x, R s t → Alike R (step s x) (step t x)
  next : ∀ s x xs t, Fits s (x :: xs) → step s x = .ok t → Fits t xs
  exchange : ∀ s xs ys, Exchange key xs ys → Fits s xs → Fits s ys
  commute : ∀ s x y xs, Fits s (x :: y :: xs) → key x ≠ key y →
    Alike R (List.foldlM step s [x, y]) (List.foldlM step s [y, x])

namespace Commutes
variable {ε σ : Type} {step : σ → α → Except ε σ} {R : σ → σ → Prop} {Fits : σ → List α → Prop}

theorem run (h : Commutes step key R Fits) (exchange : Exchange key xs ys) {s : σ}
    (fits : Fits s xs) : Alike R (List.foldlM step s xs) (List.foldlM step s ys) := by
  induction exchange generalizing s with
  | refl xs => exact Alike.of_eq h.refl rfl
  | cons x _ ih =>
    rw [List.foldlM_cons, List.foldlM_cons]
    cases first : step s x with
    | error e => exact True.intro
    | ok t => exact ih (h.next s x _ t fits first)
  | @swap x y apart xs =>
    have two : ∀ x y : α, List.foldlM step s (x :: y :: xs) =
        List.foldlM step s [x, y] >>= fun t => List.foldlM step t xs := by
      intro x y
      exact List.foldlM_append (l := [x, y])
    rw [two, two]
    exact (h.commute s x y xs fits apart).bind fun t u _ _ related =>
      Alike.run h.respects related xs
  | trans first _ here later => exact (here fits).trans h.trans (later (h.exchange s _ _ first fits))

/-- Every interleaving of the same threads has the same outcome. -/
theorem interleave [DecidableEq κ] (h : Commutes step key R Fits) (same : SameThreads key xs ys)
    {s : σ} (fits : Fits s xs) : Alike R (List.foldlM step s xs) (List.foldlM step s ys) :=
  h.run same.exchange fits

end Commutes

end Traces
