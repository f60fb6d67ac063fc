import Mathlib
import BigAsm.Library.Runs

/- Two runs side by side: a fold that follows a run which can fail, step by step, and a machine
   that takes several steps for one step of a program. -/
namespace Runs

section Fold
variable {ε σ α β : Type} {step : σ → α → Except ε σ} {P : σ → α → Prop} {s t : σ} {xs : List α}

/-- A fold that keeps a relation to the state at every step keeps it over the whole run. -/
theorem run_fold_along (R : β → σ → Prop) (next : β → α → β)
    (keep : ∀ b s x t, R b s → P s x → step s x = .ok t → R (next b x) t)
    (along : Along step P s xs) {b : β} (start : R b s) (run : List.foldlM step s xs = .ok t) :
    R (xs.foldl next b) t := by
  induction xs generalizing s b with
  | nil => exact run_nil_iff.mp run ▸ start
  | cons x xs ih =>
    obtain ⟨m, first, rest⟩ := run_cons_iff.mp run
    exact ih (along.2 m first) (keep b s x m start along.1 first) rest

theorem bind_commutes {τ : Type} {x y : Except ε σ} {f g : σ → Except ε τ} {h : σ → σ} {k : τ → τ}
    (first : y = h <$> x) (rest : ∀ s, g (h s) = k <$> f s) : y >>= g = k <$> (x >>= f) := by
  subst first
  cases x with
  | error e => rfl
  | ok s => exact rest s

theorem run_commutes (g : σ → σ) (each : ∀ x ∈ xs, ∀ s, step (g s) x = g <$> step s x) (s : σ) :
    List.foldlM step (g s) xs = g <$> List.foldlM step s xs := by
  induction xs generalizing s with
  | nil => rfl
  | cons x xs ih =>
    rw [List.foldlM_cons, List.foldlM_cons, each x (by simp)]
    cases step s x with
    | error e => rfl
    | ok m => exact ih (fun y mem => each y (by simp [mem])) m

/-- What a run leaves true was true before, or one of its steps has made it so. -/
theorem run_gained_iff (Q : σ → Prop) (G : σ → α → Prop)
    (each : ∀ s x t, step s x = .ok t → (Q t ↔ Q s ∨ G s x)) (run : List.foldlM step s xs = .ok t) :
    Q t ↔ Q s ∨ ∃ pre x post m, xs = pre ++ x :: post ∧ List.foldlM step s pre = .ok m ∧ G m x := by
  induction xs generalizing s with
  | nil =>
    cases run_nil_iff.mp run
    simp
  | cons x xs ih =>
    obtain ⟨m, first, rest⟩ := run_cons_iff.mp run
    rw [ih rest, each s x m first, or_assoc]
    refine or_congr_right ⟨?_, ?_⟩
    · rintro (here | ⟨pre, y, post, u, rfl, upto, gained⟩)
      · exact ⟨[], x, xs, s, rfl, run_nil_iff.mpr rfl, here⟩
      · exact ⟨x :: pre, y, post, u, rfl, run_cons_iff.mpr ⟨m, first, upto⟩, gained⟩
    · rintro ⟨pre, y, post, u, split, upto, gained⟩
      cases pre with
      | nil =>
        cases split
        cases run_nil_iff.mp upto
        exact Or.inl gained
      | cons z pre =>
        cases split
        obtain ⟨m', first', rest'⟩ := run_cons_iff.mp upto
        cases first.symm.trans first'
        exact Or.inr ⟨pre, y, post, u, rfl, rest', gained⟩

end Fold

def steps {τ : Type} (step : τ → Option τ) : Nat → τ → Option τ
  | 0, t => some t
  | n + 1, t => (step t).bind (steps step n)

section Steps
variable {τ : Type} {step : τ → Option τ} {s t u : τ}

theorem steps_add (n k : Nat) (s : τ) :
    steps step (n + k) s = (steps step n s).bind (steps step k) := by
  induction n generalizing s with
  | zero => simp [steps]
  | succ n ih =>
    rw [Nat.succ_add, steps, steps, Option.bind_assoc]
    exact Option.bind_congr fun t _ => ih t

theorem steps_trans {n k : Nat} (first : steps step n s = some t) (rest : steps step k t = some u) :
    steps step (n + k) s = some u := by
  rw [steps_add, first]
  exact rest

theorem steps_split {n k : Nat} (le : k ≤ n) (run : steps step n s = some t) :
    ∃ m, steps step k s = some m ∧ steps step (n - k) m = some t := by
  have whole : k + (n - k) = n := by omega
  rw [← whole, steps_add] at run
  exact Option.bind_eq_some_iff.mp run

/-- Where Starts s n holds, one step of a program is n steps of the machine. Then every run of
    the machine is a run of the program, up to a state where no step of the program starts or
    the last one has not ended. -/
theorem steps_follow {Starts : τ → Nat → Prop} {Step : τ → τ → Prop}
    (takes : ∀ s n, Starts s n → 0 < n ∧ ∀ t, steps step n s = some t → Step s t) (n : Nat)
    (run : steps step n s = some t) :
    ∃ k m, k ≤ n ∧ Relation.ReflTransGen Step s m ∧ steps step k s = some m ∧
      ((∀ c, ¬ Starts m c) ∨ ∃ c, Starts m c ∧ n < k + c) := by
  induction n using Nat.strongRecOn generalizing s with
  | ind n ih =>
    by_cases none : ∀ c, ¬ Starts s c
    · exact ⟨0, s, Nat.zero_le n, .refl, rfl, Or.inl none⟩
    · obtain ⟨c, starts⟩ := not_forall_not.mp none
      obtain ⟨positive, taken⟩ := takes s c starts
      by_cases short : n < c
      · exact ⟨0, s, Nat.zero_le n, .refl, rfl, Or.inr ⟨c, starts, by omega⟩⟩
      · obtain ⟨m, first, rest⟩ := steps_split (by omega : c ≤ n) run
        obtain ⟨k, u, le, follows, reached, ends⟩ := ih (n - c) (by omega) rest
        refine ⟨c + k, u, by omega, .head (taken m first) follows, steps_trans first reached, ?_⟩
        rcases ends with idle | ⟨c', starts', within⟩
        · exact Or.inl idle
        · exact Or.inr ⟨c', starts', by omega⟩

end Steps

end Runs
