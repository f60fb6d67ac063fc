import Mathlib

/- Walks along a relation whose steps carry lists. A walk without an end that can go on in one
   way only, through finitely many places, comes back to a place and repeats its lists. -/
namespace Lassos
variable {α β : Type}

/-- A walk of n steps, with the lists of its steps joined. -/
inductive Walk (R : α → List β → α → Prop) : Nat → α → List β → α → Prop
  | nil (a : α) : Walk R 0 a [] a
  | cons {n : Nat} {a b c : α} {xs ys : List β} (step : R a xs b) (more : Walk R n b ys c) :
      Walk R (n + 1) a (xs ++ ys) c

theorem Walk.imp {R S : α → List β → α → Prop} (each : ∀ a xs b, R a xs b → S a xs b) {n : Nat}
    {a b : α} {xs : List β} (walk : Walk R n a xs b) : Walk S n a xs b := by
  induction walk with
  | nil a => exact .nil a
  | cons step more ih => exact .cons (each _ _ _ step) ih

def joined (lists : Nat → List β) (i : Nat) : Nat → List β
  | 0 => []
  | n + 1 => lists i ++ joined lists (i + 1) n

section Joined
variable {lists : Nat → List β}

theorem joined_add (i m n : Nat) :
    joined lists i (m + n) = joined lists i m ++ joined lists (i + m) n := by
  induction m generalizing i with
  | zero => simp [joined]
  | succ m ih =>
    have next : i + 1 + m = i + (m + 1) := by omega
    rw [Nat.succ_add, joined, joined, ih, next, List.append_assoc]

theorem joined_shift {i j : Nat} (same : ∀ k, lists (i + k) = lists (j + k)) (n : Nat) :
    joined lists i n = joined lists j n := by
  induction n generalizing i j with
  | zero => rfl
  | succ n ih =>
    have later : ∀ k, lists (i + 1 + k) = lists (j + 1 + k) := by
      intro k
      have next := same (1 + k)
      rwa [← Nat.add_assoc, ← Nat.add_assoc] at next
    rw [joined, joined, ih later]
    exact congrArg (· ++ _) (same 0)

theorem joined_periodic {i q : Nat} (same : ∀ k, lists (i + k) = lists (i + q + k)) (k : Nat) :
    joined lists i (k * q) = (List.replicate k (joined lists i q)).flatten := by
  induction k with
  | zero =>
    rw [Nat.zero_mul]
    rfl
  | succ k ih =>
    have split : (k + 1) * q = q + k * q := by ring
    rw [split, joined_add, ← joined_shift same, ih, List.replicate_succ, List.flatten_cons]

end Joined

section Endless
variable {R : α → List β → α → Prop} {place : Nat → α} {lists : Nat → List β}

theorem stretch (steps : ∀ n, R (place n) (lists n) (place (n + 1))) (i n : Nat) :
    Walk R n (place i) (joined lists i n) (place (i + n)) := by
  induction n generalizing i with
  | zero => exact .nil (place i)
  | succ n ih =>
    have later := ih (i + 1)
    rw [show i + 1 + n = i + (n + 1) by omega] at later
    exact .cons (steps i) later

theorem repeats (steps : ∀ n, R (place n) (lists n) (place (n + 1)))
    (single : ∀ a xs b ys c, R a xs b → R a ys c → xs = ys ∧ b = c)
    {i q : Nat} (back : place i = place (i + q)) (k : Nat) :
    place (i + k) = place (i + q + k) ∧ lists (i + k) = lists (i + q + k) := by
  have here : ∀ k, place (i + k) = place (i + q + k) := by
    intro k
    induction k with
    | zero => exact back
    | succ k ih =>
      have first := steps (i + k)
      rw [ih] at first
      exact (single _ _ _ _ _ first (steps (i + q + k))).2
  have first := steps (i + k)
  rw [here k] at first
  exact ⟨here k, (single _ _ _ _ _ first (steps (i + q + k))).1⟩

/-- An endless walk through finitely many places is a walk to a place and a walk from there back
    to it, whose lists are repeated for ever. -/
theorem lasso (steps : ∀ n, R (place n) (lists n) (place (n + 1)))
    (single : ∀ a xs b ys c, R a xs b → R a ys c → xs = ys ∧ b = c)
    (finite : (Set.range place).Finite) :
    ∃ i q a p c, Walk R i (place 0) p a ∧ Walk R (q + 1) a c a ∧
      ∀ k, p ++ (List.replicate k c).flatten = joined lists 0 (i + k * (q + 1)) := by
  have : Finite (Set.range place) := finite
  obtain ⟨n, m, apart, same⟩ :=
    Finite.exists_ne_map_eq_of_infinite fun n => (⟨place n, n, rfl⟩ : Set.range place)
  have same : place n = place m := congrArg Subtype.val same
  obtain ⟨i, q, back⟩ : ∃ i q, place i = place (i + (q + 1)) := by
    rcases Nat.lt_or_gt_of_ne apart with before | after
    · exact ⟨n, m - n - 1, by rwa [show n + (m - n - 1 + 1) = m by omega]⟩
    · exact ⟨m, n - m - 1, by rw [show m + (n - m - 1 + 1) = n by omega, same]⟩
  have start := stretch steps 0 i
  have loop := stretch steps i (q + 1)
  rw [Nat.zero_add] at start
  rw [← back] at loop
  refine ⟨i, q, place i, _, _, start, loop, fun k => ?_⟩
  have periodic := joined_periodic (fun k => (repeats steps single back k).2) k
  rw [joined_add 0 i, Nat.zero_add, periodic]

end Endless

end Lassos
