import Mathlib

/- Runs of a fallible step function over a list of inputs. A run stops at the first
   failure; every invariant of a whole run is derived here from what one step keeps. -/
namespace Runs
variable {ε σ τ α β : Type}

theorem bind_ok_iff {x : Except ε α} {f : α → Except ε β} {b : β} :
    (x >>= f) = .ok b ↔ ∃ a, x = .ok a ∧ f a = .ok b := by
  cases x <;> simp [bind, Except.bind]

theorem bind_error_iff {x : Except ε α} {f : α → Except ε β} {e : ε} :
    (x >>= f) = .error e ↔ x = .error e ∨ ∃ a, x = .ok a ∧ f a = .error e := by
  cases x <;> simp [bind, Except.bind]

theorem map_ok_iff {x : Except ε α} {f : α → β} {b : β} :
    f <$> x = .ok b ↔ ∃ a, x = .ok a ∧ f a = b := by
  cases x <;> simp [Functor.map, Except.map]

theorem pure_ok_iff {a b : α} : (pure a : Except ε α) = .ok b ↔ a = b := by
  simp [pure, Except.pure]

theorem stateT_bind_ok_iff {x : StateT σ (Except ε) α} {f : α → StateT σ (Except ε) β}
    {s t : σ} {b : β} :
    (x >>= f) s = .ok (b, t) ↔ ∃ a u, x s = .ok (a, u) ∧ f a u = .ok (b, t) := by
  simp only [bind, StateT.bind]
  constructor
  · intro h
    obtain ⟨⟨a, u⟩, hx, hf⟩ := bind_ok_iff.mp h
    exact ⟨a, u, hx, hf⟩
  · rintro ⟨a, u, hx, hf⟩
    exact bind_ok_iff.mpr ⟨(a, u), hx, hf⟩

theorem stateT_pure_ok_iff {s t : σ} {a b : α} :
    (pure a : StateT σ (Except ε) α) s = .ok (b, t) ↔ a = b ∧ s = t := by
  simp [pure, StateT.pure, Except.pure]

theorem stateT_bind_of_ok {x : StateT σ (Except ε) α} {f : α → StateT σ (Except ε) β} {s u : σ}
    {a : α} (first : x s = .ok (a, u)) : (x >>= f) s = f a u := by
  change (x s >>= fun p => f p.1 p.2) = _
  rw [first]
  rfl

/-- Whatever a stateful computation returns satisfies `Q`. -/
def Yields (Q : α → Prop) (r : StateT σ (Except ε) α) : Prop :=
  ∀ s a t, r s = .ok (a, t) → Q a

namespace Yields
variable {P : α → Prop} {Q : β → Prop}

theorem trivial (r : StateT σ (Except ε) α) : Yields (fun _ => True) r :=
  fun _ _ _ _ => True.intro

theorem imp {P' : α → Prop} {r : StateT σ (Except ε) α} (yields : Yields P r)
    (weaker : ∀ a, P a → P' a) : Yields P' r :=
  fun s a t run => weaker a (yields s a t run)

theorem pure {a : α} (h : P a) : Yields P (Pure.pure a : StateT σ (Except ε) α) := by
  intro s b t run
  exact (stateT_pure_ok_iff.mp run).1 ▸ h

theorem throw {e : ε} : Yields P (throw e : StateT σ (Except ε) α) := by
  intro s a t run
  cases run

theorem bind {x : StateT σ (Except ε) α} {f : α → StateT σ (Except ε) β}
    (first : Yields P x) (rest : ∀ a, P a → Yields Q (f a)) : Yields Q (x >>= f) := by
  intro s b t run
  obtain ⟨a, u, hx, hf⟩ := stateT_bind_ok_iff.mp run
  exact rest a (first s a u hx) u b t hf

theorem bind_any {x : StateT σ (Except ε) α} {f : α → StateT σ (Except ε) β}
    (rest : ∀ a, Yields Q (f a)) : Yields Q (x >>= f) :=
  bind (trivial x) fun a _ => rest a

theorem ite {c : Prop} [Decidable c] {x y : StateT σ (Except ε) α} (yes : Yields P x)
    (no : Yields P y) : Yields P (if c then x else y) := by
  split
  · exact yes
  · exact no

end Yields

/-- The computation does not fail with `e`. -/
def Avoids (e : ε) (x : Except ε α) : Prop := x ≠ .error e

namespace Avoids
variable {e e' : ε}

theorem ok (a : α) : Avoids e (.ok a) := by
  intro failed
  cases failed

theorem error (other : e' ≠ e) : Avoids e (.error e' : Except ε α) := by
  intro failed
  cases failed
  exact other rfl

theorem bind {x : Except ε α} {f : α → Except ε β} (first : Avoids e x) (rest : ∀ a, Avoids e (f a)) :
    Avoids e (x >>= f) := by
  intro failed
  cases x with
  | ok a => exact rest a failed
  | error e' =>
    cases failed
    exact first rfl

theorem ite {c : Prop} [Decidable c] {x y : Except ε α} (yes : Avoids e x) (no : Avoids e y) :
    Avoids e (if c then x else y) := by
  split
  · exact yes
  · exact no

theorem run {step : σ → α → Except ε σ} (each : ∀ s x, Avoids e (step s x)) (xs : List α) (s : σ) :
    Avoids e (xs.foldlM step s) := by
  induction xs generalizing s with
  | nil => exact ok s
  | cons x xs ih => exact (each s x).bind fun t => ih t

end Avoids

def Spares (e : ε) (r : StateT σ (Except ε) α) : Prop := ∀ s, Avoids e (r s)

namespace Spares
variable {e e' : ε}

theorem pure (a : α) : Spares e (Pure.pure a : StateT σ (Except ε) α) := fun s => Avoids.ok (a, s)

theorem throw (other : e' ≠ e) : Spares e (throw e' : StateT σ (Except ε) α) :=
  fun _ => Avoids.error other

theorem bind {x : StateT σ (Except ε) α} {f : α → StateT σ (Except ε) β} (first : Spares e x)
    (rest : ∀ a, Spares e (f a)) : Spares e (x >>= f) :=
  fun s => (first s).bind fun p => rest p.1 p.2

theorem ite {c : Prop} [Decidable c] {x y : StateT σ (Except ε) α} (yes : Spares e x)
    (no : Spares e y) : Spares e (if c then x else y) := by
  split
  · exact yes
  · exact no

end Spares

def result [Inhabited α] : Except ε α → α
  | .ok a => a
  | .error _ => default

theorem eq_ok_result [Inhabited α] {x : Except ε α} (h : x.isOk = true) : x = .ok (result x) := by
  cases x with
  | ok a => rfl
  | error e => simp [Except.isOk, Except.toBool] at h

section Fold
variable {step : σ → α → Except ε σ} {s t u : σ} {x : α} {xs ys : List α}

theorem run_nil_iff : List.foldlM step s [] = .ok t ↔ s = t := pure_ok_iff

theorem run_cons_iff :
    List.foldlM step s (x :: xs) = .ok u ↔ ∃ t, step s x = .ok t ∧ List.foldlM step t xs = .ok u := by
  rw [List.foldlM_cons, bind_ok_iff]

theorem run_append_iff :
    List.foldlM step s (xs ++ ys) = .ok u ↔
      ∃ t, List.foldlM step s xs = .ok t ∧ List.foldlM step t ys = .ok u := by
  rw [List.foldlM_append, bind_ok_iff]

theorem run_single_iff : List.foldlM step s [x] = .ok t ↔ step s x = .ok t := by
  simp only [run_cons_iff, run_nil_iff, exists_eq_right]

theorem run_invariant (I : σ → Prop) (keep : ∀ s x t, I s → step s x = .ok t → I t)
    (start : I s) (run : List.foldlM step s xs = .ok t) : I t := by
  induction xs generalizing s with
  | nil => exact run_nil_iff.mp run ▸ start
  | cons x xs ih =>
    obtain ⟨m, first, rest⟩ := run_cons_iff.mp run
    exact ih (keep s x m start first) rest

theorem run_invariant_mem (I : σ → Prop)
    (keep : ∀ s x t, x ∈ xs → I s → step s x = .ok t → I t)
    (start : I s) (run : List.foldlM step s xs = .ok t) : I t := by
  induction xs generalizing s with
  | nil => exact run_nil_iff.mp run ▸ start
  | cons x xs ih =>
    obtain ⟨m, first, rest⟩ := run_cons_iff.mp run
    exact ih (fun s y t mem => keep s y t (by simp [mem])) (keep s x m (by simp) start first) rest

theorem run_relation (R : σ → σ → Prop) (refl : ∀ s, R s s)
    (trans : ∀ a b c, R a b → R b c → R a c) (keep : ∀ s x t, step s x = .ok t → R s t)
    (run : List.foldlM step s xs = .ok t) : R s t :=
  run_invariant (R s) (fun m x n hm hx => trans s m n hm (keep m x n hx)) (refl s) run

end Fold

/-- Every step of a run from `s` is taken where `P` holds of the state and the input. -/
def Along (step : σ → α → Except ε σ) (P : σ → α → Prop) : σ → List α → Prop
  | _, [] => True
  | s, x :: xs => P s x ∧ ∀ t, step s x = .ok t → Along step P t xs

section Along
variable {step : σ → α → Except ε σ} {P : σ → α → Prop} {s t : σ} {x : α} {xs ys : List α}

def decidableAlong (step : σ → α → Except ε σ) (P : σ → α → Prop) [∀ s x, Decidable (P s x)] :
    ∀ s xs, Decidable (Along step P s xs)
  | _, [] => .isTrue trivial
  | s, x :: xs =>
    match next : step s x with
    | .ok t =>
      have := decidableAlong step P t xs
      decidable_of_iff (P s x ∧ Along step P t xs) (by simp [Along, next])
    | .error _ => decidable_of_iff (P s x) (by simp [Along, next])

instance [∀ s x, Decidable (P s x)] : Decidable (Along step P s xs) := decidableAlong step P s xs

theorem along_iff_splits : Along step P s xs ↔
    ∀ pre x post m, xs = pre ++ x :: post → List.foldlM step s pre = .ok m → P m x := by
  induction xs generalizing s with
  | nil => simp [Along]
  | cons y ys ih =>
    constructor
    · rintro ⟨here, later⟩ pre x post m split run
      cases pre with
      | nil =>
        cases split
        exact run_nil_iff.mp run ▸ here
      | cons z pre =>
        cases split
        obtain ⟨t, first, rest⟩ := run_cons_iff.mp run
        exact ih.mp (later t first) pre x post m rfl rest
    · intro every
      refine ⟨every [] y ys s rfl rfl, fun t first => ih.mpr ?_⟩
      intro pre x post m split run
      exact every (y :: pre) x post m (by simp [split]) (run_cons_iff.mpr ⟨t, first, run⟩)

theorem along_append (h : Along step P s (xs ++ ys)) (run : List.foldlM step s xs = .ok t) :
    Along step P t ys := by
  induction xs generalizing s with
  | nil => exact run_nil_iff.mp run ▸ h
  | cons x xs ih =>
    obtain ⟨m, first, rest⟩ := run_cons_iff.mp run
    exact ih (h.2 m first) rest

theorem along_front (h : Along step P s (xs ++ ys)) : Along step P s xs := by
  induction xs generalizing s with
  | nil => trivial
  | cons x xs ih => exact ⟨h.1, fun t first => ih (h.2 t first)⟩

theorem along_of_forall (every : ∀ s x, x ∈ xs → P s x) : Along step P s xs := by
  induction xs generalizing s with
  | nil => trivial
  | cons x xs ih => exact ⟨every s x (by simp), fun _ _ => ih fun s y mem => every s y (by simp [mem])⟩

theorem along_mono {Q : σ → α → Prop} (weaker : ∀ s x, x ∈ xs → P s x → Q s x)
    (h : Along step P s xs) : Along step Q s xs := by
  induction xs generalizing s with
  | nil => trivial
  | cons x xs ih =>
    exact ⟨weaker s x (by simp) h.1,
      fun t first => ih (fun s y hy => weaker s y (by simp [hy])) (h.2 t first)⟩

theorem run_invariant_along (I : σ → Prop)
    (keep : ∀ s x t, I s → P s x → step s x = .ok t → I t)
    (along : Along step P s xs) (start : I s) (run : List.foldlM step s xs = .ok t) : I t := by
  induction xs generalizing s with
  | nil => exact run_nil_iff.mp run ▸ start
  | cons x xs ih =>
    obtain ⟨m, first, rest⟩ := run_cons_iff.mp run
    exact ih (along.2 m first) (keep s x m start along.1 first) rest

theorem run_relation_along (R : σ → σ → Prop) (refl : ∀ s, R s s)
    (trans : ∀ a b c, R a b → R b c → R a c)
    (keep : ∀ s x t, P s x → step s x = .ok t → R s t)
    (along : Along step P s xs) (run : List.foldlM step s xs = .ok t) : R s t :=
  run_invariant_along (R s) (fun m x n hm hp hx => trans s m n hm (keep m x n hp hx))
    along (refl s) run

end Along

theorem none_or_last (P : α → Bool) (xs : List α) : (∀ x ∈ xs, P x = false) ∨
    ∃ front x back, xs = front ++ x :: back ∧ P x = true ∧ ∀ y ∈ back, P y = false := by
  induction xs with
  | nil => exact Or.inl (by simp)
  | cons y ys ih =>
    rcases ih with none | ⟨front, x, back, rfl, holds, last⟩
    · by_cases here : P y = true
      · exact Or.inr ⟨[], y, ys, rfl, here, none⟩
      · exact Or.inl (List.forall_mem_cons.mpr ⟨by simpa using here, none⟩)
    · exact Or.inr ⟨y :: front, x, back, rfl, holds, last⟩

/-- The first step of a run from s that is taken where P holds: it is x, taken from m. -/
inductive First (step : σ → α → Except ε σ) (P : σ → α → Prop) : σ → List α → σ → α → Prop
  | here {s : σ} {x : α} {xs : List α} : P s x → First step P s (x :: xs) s x
  | later {s t m : σ} {x y : α} {xs : List α} : ¬ P s x → step s x = .ok t →
      First step P t xs m y → First step P s (x :: xs) m y

section First
variable {step : σ → α → Except ε σ} {P Q : σ → α → Prop} {s t m m' : σ} {x x' : α} {xs : List α}

theorem First.holds (h : First step P s xs m x) : P m x := by
  induction h with
  | here holds => exact holds
  | later _ _ _ ih => exact ih

theorem First.unique (h : First step P s xs m x) (h' : First step P s xs m' x') :
    m = m' ∧ x = x' := by
  induction h with
  | here holds =>
    cases h' with
    | here _ => exact ⟨rfl, rfl⟩
    | later fails _ _ => exact absurd holds fails
  | later fails first _ ih =>
    cases h' with
    | here holds => exact absurd holds fails
    | later _ first' rest' =>
      cases first.symm.trans first'
      exact ih rest'

theorem first_or_along (run : List.foldlM step s xs = .ok t) :
    (∃ m x, First step P s xs m x) ∨ Along step (fun s x => ¬ P s x) s xs := by
  induction xs generalizing s with
  | nil => exact Or.inr trivial
  | cons x xs ih =>
    obtain ⟨m, first, rest⟩ := run_cons_iff.mp run
    by_cases holds : P s x
    · exact Or.inl ⟨s, x, .here holds⟩
    · rcases ih rest with ⟨m', y, found⟩ | along
      · exact Or.inl ⟨m', y, .later holds first found⟩
      · refine Or.inr ⟨holds, fun t' first' => ?_⟩
        cases first.symm.trans first'
        exact along

theorem First.not_along (h : First step P s xs m x) : ¬ Along step (fun s x => ¬ P s x) s xs := by
  induction h with
  | here holds => exact fun along => along.1 holds
  | later _ first _ ih => exact fun along => ih (along.2 _ first)

theorem First.narrow (h : First step P s xs m x) (narrower : ∀ s x, Q s x → P s x) (holds : Q m x) :
    First step Q s xs m x := by
  induction h with
  | here _ => exact .here holds
  | later fails first _ ih => exact .later (fun q => fails (narrower _ _ q)) first (ih holds)

theorem First.of_along (h : First step P s xs m x) (along : Along step Q s xs) : Q m x := by
  induction h with
  | here _ => exact along.1
  | later _ first _ ih => exact ih (along.2 _ first)

theorem First.invariant (I : σ → Prop)
    (keep : ∀ s x t, I s → ¬ P s x → Q s x → step s x = .ok t → I t)
    (along : Along step Q s xs) (start : I s) (h : First step P s xs m x) : I m := by
  induction h with
  | here _ => exact start
  | later fails first _ ih =>
    exact ih (along.2 _ first) (keep _ _ _ start fails along.1 first)

theorem First.rest (h : First step P s xs m x) (run : List.foldlM step s xs = .ok t) :
    ∃ m' ys, step m x = .ok m' ∧ List.foldlM step m' ys = .ok t ∧ ys ⊆ xs := by
  induction h with
  | here _ =>
    obtain ⟨m', first, rest⟩ := run_cons_iff.mp run
    exact ⟨m', _, first, rest, by simp⟩
  | later _ first _ ih =>
    obtain ⟨m'', first', rest⟩ := run_cons_iff.mp run
    cases first.symm.trans first'
    obtain ⟨m', ys, taken, done, inside⟩ := ih rest
    exact ⟨m', ys, taken, done, fun y mem => by simp [inside mem]⟩

end First

end Runs
