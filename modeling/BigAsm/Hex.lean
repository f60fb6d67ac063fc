import Mathlib
import BigAsm.Numbers

/- The hexadecimal printer of the log and warning texts, and that the tokenizer reads its output
   back. -/
namespace BigAsm
open Numerals Runs

def lut : Str := lit "0123456789ABCDEF"

/-- Two digits a byte from the first byte that is not zero, and at least 8. -/
def hexLen (value : BitVec 128) : Nat :=
  match (List.range (16 - 8 / 2)).find? fun i => (value >>> ((15 - i) * 8)) &&& 0xFF != 0 with
  | some i => 32 - i * 2
  | none => 8

def hexDigit (value : BitVec 128) (shift : Nat) : BitVec 8 :=
  lut.getD ((value >>> shift) &&& 0xF).toNat 0

def toHex (buffer : Str) (value : BitVec 128) : Str × Nat :=
  if buffer.length < 32 then (buffer, 0)
  else
    let len := hexLen value
    let max := len / 2
    let written := (List.range max).foldl (fun (b : Str) i =>
      (b.set (i * 2 + 0) (hexDigit value ((max - 1 - i) * 8 + 4))).set (i * 2 + 1)
        (hexDigit value ((max - 1 - i) * 8 + 0))) buffer
    (written, len)

def toHexString (value : BitVec 128) : Str := (toHex (List.replicate 32 0) value).1

theorem foldl_set_pairs {α : Type} (f g : Nat → α) (n : Nat) (b : List α) (room : 2 * n ≤ b.length) :
    (List.range n).foldl (fun b i => (b.set (i * 2 + 0) (f i)).set (i * 2 + 1) (g i)) b =
      (List.range n).flatMap (fun i => [f i, g i]) ++ b.drop (2 * n) := by
  induction n with
  | zero => rfl
  | succ n ih =>
    have size : ((List.range n).flatMap fun i => [f i, g i]).length = 2 * n := by
      simp [List.length_flatMap, Nat.mul_comm]
    obtain ⟨x, y, rest⟩ : ∃ x y, b.drop (2 * n) = x :: y :: b.drop (2 * (n + 1)) := by
      have first : 2 * n < b.length := by omega
      have second : 2 * n + 1 < b.length := by omega
      exact ⟨_, _, by rw [List.drop_eq_getElem_cons first, List.drop_eq_getElem_cons second]; rfl⟩
    rw [List.range_succ, List.foldl_append, ih (by omega), List.flatMap_append, rest]
    simp only [List.foldl_cons, List.foldl_nil, List.flatMap_cons, List.flatMap_nil, List.append_nil]
    rw [List.set_append_right _ _ (by omega), List.set_append_right _ _ (by omega), size,
      List.append_assoc]
    have start : n * 2 + 0 - 2 * n = 0 := by omega
    have next : n * 2 + 1 - 2 * n = 1 := by omega
    rw [start, next]
    rfl

theorem byte_eq (value : BitVec 128) (shift : Nat) :
    ((value >>> shift) &&& 0xFF).toNat = value.toNat / 2 ^ shift % 256 := by
  rw [BitVec.toNat_and, BitVec.toNat_ushiftRight, Nat.shiftRight_eq_div_pow]
  exact Nat.and_two_pow_sub_one_eq_mod _ 8

theorem nibble_eq (value : BitVec 128) (shift : Nat) :
    ((value >>> shift) &&& 0xF).toNat = value.toNat / 2 ^ shift % 16 := by
  rw [BitVec.toNat_and, BitVec.toNat_ushiftRight, Nat.shiftRight_eq_div_pow]
  exact Nat.and_two_pow_sub_one_eq_mod _ 4

theorem lt_of_zero_bytes (value : BitVec 128) (k : Nat) (few : k ≤ 16)
    (zeros : ∀ i < k, (value >>> ((15 - i) * 8)) &&& 0xFF = 0) :
    value.toNat < 2 ^ ((16 - k) * 8) := by
  induction k with
  | zero => exact value.isLt
  | succ k ih =>
    have bound := ih (by omega) fun i below => zeros i (by omega)
    have zero := byte_eq value ((15 - k) * 8)
    rw [zeros k (by omega)] at zero
    have split : (16 - k) * 8 = (15 - k) * 8 + 8 := by omega
    rw [split, pow_add] at bound
    have small : value.toNat / 2 ^ ((15 - k) * 8) < 256 := Nat.div_lt_of_lt_mul bound
    have same : 16 - (k + 1) = 15 - k := by omega
    rw [same]
    exact (Nat.div_eq_zero_iff_lt (by positivity)).mp (by simpa [Nat.mod_eq_of_lt small] using zero.symm)

structure HexLength (value : BitVec 128) (len : Nat) : Prop where
  even : len % 2 = 0
  least : 8 ≤ len
  most : len ≤ 32
  enough : value.toNat < 16 ^ len
  needed : len = 8 ∨ value.toNat / 16 ^ (len - 2) % 256 ≠ 0

theorem hexLen_spec (value : BitVec 128) : HexLength value (hexLen value) := by
  have bits : ∀ n, (16 : Nat) ^ n = 2 ^ (n * 4) := fun n => by
    rw [Nat.mul_comm, pow_mul]
    norm_num
  unfold hexLen
  split
  · rename_i i found
    obtain ⟨byte, inside, before⟩ := List.find?_range_eq_some.mp found
    have below := List.mem_range.mp inside
    have zeros : ∀ j < i, (value >>> ((15 - j) * 8)) &&& 0xFF = 0 := fun j earlier => by
      simpa using before j earlier
    refine ⟨by omega, by omega, by omega, ?_, Or.inr ?_⟩
    · have bound := lt_of_zero_bytes value i (by omega) zeros
      have same : (32 - i * 2) * 4 = (16 - i) * 8 := by omega
      rwa [bits, same]
    · have same : (32 - i * 2 - 2) * 4 = (15 - i) * 8 := by omega
      rw [bits, same, ← byte_eq]
      intro zero
      exact bne_iff_ne.mp byte (BitVec.eq_of_toNat_eq zero)
  · rename_i none
    have zeros : ∀ i < 12, (value >>> ((15 - i) * 8)) &&& 0xFF = 0 := fun i below => by
      simpa using List.find?_range_eq_none.mp none i below
    have bound := lt_of_zero_bytes value 12 (by decide) zeros
    exact ⟨by decide, le_refl _, by decide, by simpa [bits] using bound, Or.inl rfl⟩

/-- The text without the zeros that fill the string. -/
def hexText (value : BitVec 128) : Str :=
  (digits 16 (hexLen value) value.toNat).map fun d => lut.getD d 0

theorem hexDigit_eq (value : BitVec 128) (n : Nat) :
    hexDigit value (n * 4) = lut.getD (value.toNat / 16 ^ n % 16) 0 := by
  rw [hexDigit, nibble_eq, Nat.mul_comm, pow_mul]
  norm_num

theorem toHexString_eq (value : BitVec 128) :
    toHexString value = hexText value ++ List.replicate (32 - hexLen value) 0 := by
  obtain ⟨even, -, most, -, -⟩ := hexLen_spec value
  have room : ¬ (List.replicate 32 (0 : BitVec 8)).length < 32 := by simp
  have whole : 2 * (hexLen value / 2) = hexLen value := by omega
  have pairs : (List.range (hexLen value / 2)).flatMap (fun i =>
      [hexDigit value ((hexLen value / 2 - 1 - i) * 8 + 4),
        hexDigit value ((hexLen value / 2 - 1 - i) * 8 + 0)]) = hexText value := by
    rw [hexText, digits, List.map_map]
    conv_rhs => rw [← whole]
    rw [← flatMap_range_pairs]
    refine List.flatMap_congr fun i mem => ?_
    have below := List.mem_range.mp mem
    have upper : (hexLen value / 2 - 1 - i) * 8 + 4 =
        (2 * (hexLen value / 2) - 1 - 2 * i) * 4 := by omega
    have lower : (hexLen value / 2 - 1 - i) * 8 + 0 =
        (2 * (hexLen value / 2) - 1 - (2 * i + 1)) * 4 := by omega
    rw [upper, lower, hexDigit_eq, hexDigit_eq]
    rfl
  unfold toHexString toHex
  rw [if_neg room]
  dsimp only
  rw [foldl_set_pairs (fun i => hexDigit value ((hexLen value / 2 - 1 - i) * 8 + 4))
    (fun i => hexDigit value ((hexLen value / 2 - 1 - i) * 8 + 0)) _ _ (by simp; omega), pairs, whole,
    List.drop_replicate]

theorem lut_digit : ∀ d < 16, digitOf 16 (lut.getD d 0) = some d ∧ lut.getD d 0 ∈ lut := by
  decide

theorem hexText_length (value : BitVec 128) : (hexText value).length = hexLen value := by
  simp [hexText]

theorem hexText_mem {value : BitVec 128} {c : BitVec 8} (mem : c ∈ hexText value) :
    c ∈ lut ∧ (digitOf 16 c).isSome = true := by
  obtain ⟨d, inside, rfl⟩ := List.mem_map.mp mem
  obtain ⟨known, listed⟩ := lut_digit d (digits_lt (by decide) inside)
  exact ⟨listed, by rw [known]; rfl⟩

theorem hexText_numeral (value : BitVec 128) : IsNumeral 16 (hexText value) := by
  have least := (hexLen_spec value).least
  refine ⟨?_, fun c mem => (hexText_mem mem).2⟩
  rw [← List.length_pos_iff, hexText_length]
  omega

theorem hexText_value (value : BitVec 128) : numeralValue 16 (hexText value) = value.toNat := by
  have back : ((digits 16 (hexLen value) value.toNat).map fun d => lut.getD d 0).map (digit 16) =
      digits 16 (hexLen value) value.toNat := by
    rw [List.map_map]
    refine (List.map_congr_left fun d mem => ?_).trans (List.map_id _)
    rw [Function.comp_apply, digit, (lut_digit d (digits_lt (by decide) mem)).1, Option.getD_some]
    rfl
  rw [numeralValue, hexText, back, value_digits, Nat.mod_eq_of_lt (hexLen_spec value).enough]

theorem cString_toHexString (value : BitVec 128) : cString (toHexString value) = hexText value := by
  have clean : ∀ c ∈ hexText value, (c != 0) = true := fun c mem =>
    bne_iff_ne.mpr ((hexText_numeral value).plain (le_refl 16) c mem).2.2.2.2.2.2
  rw [toHexString_eq, cString, List.takeWhile_append_of_pos clean]
  cases 32 - hexLen value with
  | zero => simp
  | succ n => simp [List.replicate_succ]

theorem hexText_leading (value : BitVec 128) :
    hexLen value = 8 ∨ ¬ [chr '0', chr '0'] <+: hexText value := by
  obtain ⟨-, least, -, -, needed⟩ := hexLen_spec value
  refine needed.imp id fun byte zeros => byte ?_
  obtain ⟨n, len⟩ : ∃ n, hexLen value = n + 2 := ⟨hexLen value - 2, by omega⟩
  rw [hexText, len, digits_cons, digits_cons, List.map_cons, List.map_cons,
    List.cons_prefix_cons, List.cons_prefix_cons] at zeros
  have zero : ∀ d < 16, chr '0' = lut.getD d 0 → d = 0 := by decide
  have high := zero _ (Nat.mod_lt _ (by decide)) zeros.1
  have low := zero _ (Nat.mod_lt _ (by decide)) zeros.2.1
  rw [pow_succ, ← Nat.div_div_eq_div_mul] at high
  rw [len, Nat.add_sub_cancel]
  omega

theorem stoull_fits {s : Str} (h : IsNumeral 16 s) (short : s.length ≤ 16) :
    ∃ u, stoull s 16 = .ok u := by
  have bound := numeralValue_lt (by decide) h.digits
  have wide : (16 : Nat) ^ s.length ≤ 16 ^ 16 := Nat.pow_le_pow_right (by decide) short
  have same : (16 : Nat) ^ 16 = 2 ^ 64 := by norm_num
  rw [stoull_numeral h (le_refl 16), if_neg (by omega)]
  exact ⟨_, rfl⟩

theorem parseNumber_hex_ok {z : BitVec 8} {t : Str} (h : IsNumeral 16 t) (short : t.length ≤ 32) :
    ∃ u, parseNumber (z :: chr 'x' :: t) = .ok u := by
  rw [parseNumber_hex h.nonempty]
  split
  · rename_i large
    obtain ⟨u, upper⟩ := stoull_fits (h.take (k := t.length - 16) (by omega)) (by simp; omega)
    obtain ⟨l, lower⟩ := stoull_fits (h.drop (k := t.length - 16) (by omega)) (by simp; omega)
    rw [upper, lower]
    exact ⟨_, rfl⟩
  · obtain ⟨u, whole⟩ := stoull_fits h (by omega)
    rw [whole]
    exact ⟨_, rfl⟩

theorem parse_hex {t : Str} (h : IsNumeral 16 t) (short : t.length ≤ 32) (line : BitVec 32) :
    parse (lit "0x" ++ t) line =
      .ok ⟨.constant (BitVec.ofNat 128 (numeralValue 16 t)), line, lit "0x" ++ t⟩ := by
  have split : lit "0x" ++ t = chr '0' :: chr 'x' :: t := rfl
  have number : NumberWord (chr '0' :: chr 'x' :: t) := by
    refine ⟨?_, nofun, ?_⟩
    · rintro c ⟨⟩
      rfl
    · cases t with
      | nil => exact absurd rfl h.nonempty
      | cons c cs => rfl
  have last : (chr '0' :: chr 'x' :: t).getLast? ≠ some (chr ':') := by
    intro label
    rw [List.getLast?_cons_cons, List.getLast?_cons_of_ne_nil h.nonempty] at label
    exact (h.plain (le_refl 16) _ (List.mem_of_getLast? label)).2.2.2.2.2.1 rfl
  obtain ⟨u, read⟩ := parseNumber_hex_ok (z := chr '0') h short
  have same : u = BitVec.ofNat 128 (numeralValue 16 t) := by
    rw [← parseNumber_hex_value h read, BitVec.ofNat_toNat, BitVec.setWidth_eq]
  rw [split, parse_number number line last, read, same]
  rfl

/-- What is printed is upper-case hexadecimal digits in pairs, without zeros in front that 8 digits
    or a whole byte do not need, and is read back as the value. -/
theorem hex_round_trip (value : BitVec 128) :
    (∀ c ∈ cString (toHexString value), c ∈ lit "0123456789ABCDEF") ∧
      (cString (toHexString value)).length % 2 = 0 ∧
      8 ≤ (cString (toHexString value)).length ∧ (cString (toHexString value)).length ≤ 32 ∧
      ((cString (toHexString value)).length = 8 ∨ ¬ lit "00" <+: cString (toHexString value)) ∧
      ∀ line, ∃ tk, parse (lit "0x" ++ cString (toHexString value)) line = .ok tk ∧
        tk.type = .constant ∧ tk.u128 = value := by
  obtain ⟨even, least, most, -, -⟩ := hexLen_spec value
  rw [cString_toHexString, hexText_length]
  refine ⟨fun c mem => (hexText_mem mem).1, even, least, most, hexText_leading value, fun line => ?_⟩
  have short : (hexText value).length ≤ 32 := by rwa [hexText_length]
  refine ⟨_, parse_hex (hexText_numeral value) short line, rfl, ?_⟩
  rw [Token.u128_constant, hexText_value, BitVec.ofNat_toNat, BitVec.setWidth_eq]

end BigAsm
