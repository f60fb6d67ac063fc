import Mathlib

/- Bit-fields of a machine word: n bits from position lo are replaced by put and read
   back by extractLsb'. A field that does not overlap the replaced one is untouched. -/
namespace BitFields

def put (lo : Nat) (v : BitVec n) (w : BitVec m) : BitVec m :=
  (w &&& ~~~((BitVec.allOnes n).setWidth m <<< lo)) ||| (v.setWidth m <<< lo)

theorem getLsbD_put {lo i : Nat} (v : BitVec n) (w : BitVec m) (inside : i < m) :
    (put lo v w).getLsbD i =
      if lo ≤ i ∧ i < lo + n then v.getLsbD (i - lo) else w.getLsbD i := by
  simp only [put, BitVec.getLsbD_or, BitVec.getLsbD_and, BitVec.getLsbD_not,
    BitVec.getLsbD_shiftLeft, BitVec.getLsbD_setWidth, BitVec.getLsbD_allOnes, inside,
    decide_true, Bool.true_and]
  by_cases before : i < lo
  · simp [before, show ¬ lo ≤ i by omega]
  · have here : i - lo < m := by omega
    by_cases field : i < lo + n
    · simp [before, here, show lo ≤ i by omega, field, show i - lo < n by omega]
    · have past : v.getLsbD (i - lo) = false := BitVec.getLsbD_of_ge v _ (by omega)
      simp [before, field, past, show ¬ i - lo < n by omega]

@[simp] theorem extract_put_self {lo : Nat} (v : BitVec n) (w : BitVec m) (fits : lo + n ≤ m) :
    (put lo v w).extractLsb' lo n = v := by
  ext i hi
  rw [BitVec.getElem_extractLsb', getLsbD_put v w (by omega), if_pos (by omega),
    Nat.add_sub_cancel_left, BitVec.getLsbD_eq_getElem hi]

theorem extract_put_inside {lo lo' k : Nat} (v : BitVec n) (w : BitVec m) (fits : lo + n ≤ m)
    (above : lo ≤ lo') (below : lo' + k ≤ lo + n) :
    (put lo v w).extractLsb' lo' k = v.extractLsb' (lo' - lo) k := by
  ext i hi
  rw [BitVec.getElem_extractLsb', BitVec.getElem_extractLsb', getLsbD_put v w (by omega),
    if_pos (by omega)]
  congr 1
  omega

@[simp] theorem extract_put_disjoint {lo lo' k : Nat} (v : BitVec n) (w : BitVec m)
    (apart : lo' + k ≤ lo ∨ lo + n ≤ lo') :
    (put lo v w).extractLsb' lo' k = w.extractLsb' lo' k := by
  ext i hi
  rw [BitVec.getElem_extractLsb', BitVec.getElem_extractLsb']
  by_cases inside : lo' + i < m
  · rw [getLsbD_put v w inside, if_neg (by omega)]
  · rw [BitVec.getLsbD_of_ge _ _ (by omega), BitVec.getLsbD_of_ge _ _ (by omega)]

theorem put_put_self {lo : Nat} (v u : BitVec n) (w : BitVec m) :
    put lo v (put lo u w) = put lo v w := by
  apply BitVec.eq_of_getLsbD_eq
  intro i hi
  rw [getLsbD_put v _ hi, getLsbD_put v w hi]
  split
  · rfl
  · rename_i outside
    rw [getLsbD_put u w hi, if_neg outside]

theorem put_put_comm {lo lo' : Nat} (v : BitVec n) (u : BitVec k) (w : BitVec m)
    (apart : lo' + k ≤ lo ∨ lo + n ≤ lo') :
    put lo v (put lo' u w) = put lo' u (put lo v w) := by
  apply BitVec.eq_of_getLsbD_eq
  intro i hi
  rw [getLsbD_put v _ hi, getLsbD_put u w hi, getLsbD_put u _ hi, getLsbD_put v w hi]
  split
  · rw [if_neg (by omega)]
  · rfl

theorem put_extract {lo : Nat} (w : BitVec m) : put lo (w.extractLsb' lo n) w = w := by
  apply BitVec.eq_of_getLsbD_eq
  intro i hi
  rw [getLsbD_put _ w hi]
  split
  · rename_i inside
    have same : lo + (i - lo) = i := by omega
    have small : i - lo < n := by omega
    rw [BitVec.getLsbD_extractLsb', same]
    simp [small]
  · rfl

theorem setWidth_sshiftRight {lo : Nat} (w : BitVec m) (inside : lo + n ≤ m) :
    (w.sshiftRight lo).setWidth n = w.extractLsb' lo n := by
  ext i hi
  rw [BitVec.getElem_setWidth, BitVec.getLsbD_sshiftRight, BitVec.getElem_extractLsb']
  simp [show ¬ m ≤ i by omega, show lo + i < m by omega]

theorem setWidth_ushiftRight {lo : Nat} (w : BitVec m) :
    (w >>> lo).setWidth n = w.extractLsb' lo n := by
  ext i hi
  rw [BitVec.getElem_setWidth, BitVec.getLsbD_ushiftRight, BitVec.getElem_extractLsb']

theorem getLsbD_field {lo n m i : Nat} (w : BitVec k) (inside : i < m) :
    ((w.extractLsb' lo n).setWidth m <<< lo).getLsbD i =
      (decide (lo ≤ i ∧ i < lo + n) && w.getLsbD i) := by
  rw [BitVec.getLsbD_shiftLeft, BitVec.getLsbD_setWidth, BitVec.getLsbD_extractLsb']
  by_cases above : lo ≤ i
  · have same : lo + (i - lo) = i := by omega
    have small : i - lo < m := by omega
    by_cases field : i < lo + n
    · simp [inside, above, field, same, small, show i - lo < n by omega]
    · simp [field, show ¬ i - lo < n by omega]
  · simp [above, show i < lo by omega]

theorem extract_bit (w : BitVec k) (i : Nat) : (w.extractLsb' i 1 == 1) = w.getLsbD i := by
  have bit : w.extractLsb' i 1 = BitVec.ofBool (w.getLsbD i) := by
    ext j hj
    obtain rfl : j = 0 := by omega
    simp
  rw [bit]
  cases w.getLsbD i <;> rfl

theorem masked_bit {n i : Nat} (v : BitVec n) (inside : i < n) :
    (v &&& BitVec.twoPow n i != 0) = v.getLsbD i := by
  rw [BitVec.and_twoPow]
  cases v.getLsbD i with
  | false => simp
  | true =>
    have positive : BitVec.twoPow n i ≠ 0 := by
      intro zero
      have bit := congrArg (BitVec.getLsbD · i) zero
      simp [inside] at bit
    simpa using positive

/-- The low bits of a number stand for all of it exactly when it fits into them. -/
theorem signExtend_low_iff {k n : Nat} (low : 0 < k) (wide : k ≤ n) (D : BitVec n) :
    (D.setWidth k).signExtend n = D ↔ -(2 ^ (k - 1) : Int) ≤ D.toInt ∧ D.toInt < 2 ^ (k - 1) := by
  obtain ⟨j, rfl⟩ : ∃ j, k = j + 1 := ⟨k - 1, by omega⟩
  have read : (D.setWidth (j + 1)).toInt = D.toInt.bmod (2 ^ (j + 1)) := by
    rw [BitVec.toInt_setWidth, BitVec.toInt_eq_toNat_bmod, Int.bmod_bmod_of_dvd]
    exact Nat.pow_dvd_pow 2 wide
  have double : ((2 ^ (j + 1) : Nat) : Int) = 2 * 2 ^ j := by
    push_cast
    rw [pow_succ]
    omega
  rw [← BitVec.toInt_inj, BitVec.toInt_signExtend_of_le wide, read, Nat.add_sub_cancel]
  have positive : (0 : Int) < 2 ^ j := by positivity
  constructor
  · intro same
    have lower := Int.le_bmod (x := D.toInt) (m := 2 ^ (j + 1)) (by positivity)
    have upper := Int.bmod_lt (x := D.toInt) (m := 2 ^ (j + 1)) (by positivity)
    omega
  · rintro ⟨lower, upper⟩
    exact Int.bmod_eq_of_le (by omega) (by omega)

/- A word is the sum of what a mask keeps and what it clears. -/

theorem mask_add_rest (y mask : BitVec m) :
    (y &&& mask).toNat + (y &&& ~~~mask).toNat = y.toNat := by
  have apart : (y &&& mask) &&& (y &&& ~~~mask) = 0#m := by
    rw [BitVec.and_assoc, ← BitVec.and_assoc mask, BitVec.and_comm mask y, BitVec.and_assoc y mask,
      BitVec.and_not_self]
    simp
  rw [← BitVec.toNat_add_of_and_eq_zero apart, BitVec.add_eq_or_of_and_eq_zero _ _ apart,
    ← BitVec.and_or_distrib_left, BitVec.or_not_self, BitVec.and_allOnes]

theorem toNat_clear_low (y mask : BitVec m) {k : Nat} (low : mask.toNat = 2 ^ k - 1) :
    (y &&& ~~~mask).toNat = y.toNat / 2 ^ k * 2 ^ k := by
  have kept : (y &&& mask).toNat = y.toNat % 2 ^ k := by
    rw [BitVec.toNat_and, low, Nat.and_two_pow_sub_one_eq_mod]
  have sum := mask_add_rest y mask
  have split := Nat.div_add_mod' y.toNat (2 ^ k)
  omega

end BitFields
