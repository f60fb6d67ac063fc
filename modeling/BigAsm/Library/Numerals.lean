import Mathlib

/- Positional numerals, the highest digit first: the value a reader accumulates from the left,
   and the digits of a number at a fixed width. -/
namespace Numerals

def value (base : Nat) (ds : List Nat) : Nat := ds.foldl (fun acc d => acc * base + d) 0

theorem value_eq_ofDigits (base : Nat) (ds : List Nat) :
    value base ds = Nat.ofDigits base ds.reverse := by
  rw [Nat.ofDigits_eq_foldr, List.foldr_reverse]
  simp only [value, Nat.cast_id, Nat.mul_comm base, Nat.add_comm]

theorem value_append (base : Nat) (ds es : List Nat) :
    value base (ds ++ es) = value base ds * base ^ es.length + value base es := by
  simp only [value_eq_ofDigits, List.reverse_append, Nat.ofDigits_append, List.length_reverse]
  ring

theorem value_snoc (base : Nat) (ds : List Nat) (d : Nat) :
    value base (ds ++ [d]) = value base ds * base + d := by
  rw [value, value, List.foldl_append]
  rfl

theorem value_lt {base : Nat} {ds : List Nat} (wide : 1 < base) (small : ∀ d ∈ ds, d < base) :
    value base ds < base ^ ds.length := by
  rw [value_eq_ofDigits, ← List.length_reverse]
  exact Nat.ofDigits_lt_base_pow_length wide fun d mem => small d (List.mem_reverse.mp mem)

def digits (base n v : Nat) : List Nat := (List.range n).map fun i => v / base ^ (n - 1 - i) % base

@[simp] theorem digits_length (base n v : Nat) : (digits base n v).length = n := by simp [digits]

theorem digits_lt {base n v d : Nat} (positive : 0 < base) (mem : d ∈ digits base n v) : d < base := by
  obtain ⟨i, -, rfl⟩ := List.mem_map.mp mem
  exact Nat.mod_lt _ positive

theorem digits_succ (base n v : Nat) :
    digits base (n + 1) v = digits base n (v / base) ++ [v % base] := by
  rw [digits, List.range_succ, List.map_append, digits]
  congr 1
  · refine List.map_congr_left fun i mem => ?_
    have below := List.mem_range.mp mem
    have shift : n + 1 - 1 - i = (n - 1 - i) + 1 := by omega
    rw [shift, pow_succ', Nat.div_div_eq_div_mul]
  · simp

theorem digits_cons (base n v : Nat) :
    digits base (n + 1) v = v / base ^ n % base :: digits base n v := by
  rw [digits, List.range_succ_eq_map, List.map_cons, List.map_map, digits]
  congr 1
  refine List.map_congr_left fun i _ => ?_
  have shift : n + 1 - 1 - (i + 1) = n - 1 - i := by omega
  rw [Function.comp_apply, shift]

theorem value_digits (base n v : Nat) : value base (digits base n v) = v % base ^ n := by
  induction n generalizing v with
  | zero => simp [digits, value, Nat.mod_one]
  | succ n ih =>
    rw [digits_succ, value_snoc, ih, pow_succ', Nat.mod_mul]
    ring

theorem flatMap_range_pairs {α : Type} (f : Nat → α) (n : Nat) :
    (List.range n).flatMap (fun i => [f (2 * i), f (2 * i + 1)]) = (List.range (2 * n)).map f := by
  induction n with
  | zero => rfl
  | succ n ih =>
    have double : 2 * (n + 1) = 2 * n + 1 + 1 := by omega
    rw [List.range_succ, List.flatMap_append, ih, double, List.range_succ, List.range_succ]
    simp

end Numerals
