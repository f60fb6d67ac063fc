import Mathlib
import BigAsm.Tokenizer
import BigAsm.Library.Numerals
import BigAsm.Library.Runs

/- Integer literals: what a word means by the syntax of the language, what the number parsers of
   the C library make of it, and for which words parse keeps the meaning. -/
namespace BigAsm
open Numerals Runs

def digit (base : Nat) (c : BitVec 8) : Nat := (digitOf base c).getD 0

structure IsNumeral (base : Nat) (s : Str) : Prop where
  nonempty : s ≠ []
  digits : ∀ c ∈ s, (digitOf base c).isSome = true

theorem isNumeral_iff (base : Nat) (s : Str) :
    s ≠ [] ∧ (s.all fun c => (digitOf base c).isSome) = true ↔ IsNumeral base s := by
  rw [List.all_eq_true]
  exact ⟨fun h => ⟨h.1, h.2⟩, fun h => ⟨h.nonempty, h.digits⟩⟩

instance decidableIsNumeral (base : Nat) (s : Str) : Decidable (IsNumeral base s) :=
  decidable_of_iff _ (isNumeral_iff base s)

def numeralValue (base : Nat) (s : Str) : Nat := value base (s.map (digit base))

def numeral (base : Nat) (s : Str) : Option Nat :=
  if IsNumeral base s then some (numeralValue base s) else none

def unsignedLiteral : Str → Option Nat
  | z :: x :: s =>
    if z = chr '0' ∧ x = chr 'x' then numeral 16 s
    else if z = chr '0' ∧ x = chr 'b' then numeral 2 s
    else numeral 10 (z :: x :: s)
  | s => numeral 10 s

/-- The number a well-formed literal means. -/
def literalValue : Str → Option Int
  | [] => none
  | c :: s =>
    if c = chr '-' then (unsignedLiteral s).map fun n : Nat => -(n : Int)
    else if c = chr '+' then (unsignedLiteral s).map fun n : Nat => (n : Int)
    else (unsignedLiteral (c :: s)).map fun n : Nat => (n : Int)

/-- A constant holds a number: as it is, or on 64 bits in two's complement when it is negative. -/
def Holds (u : BitVec 128) (v : Int) : Prop :=
  if 0 ≤ v then (u.toNat : Int) = v else -2 ^ 63 ≤ v ∧ (u.toNat : Int) = 2 ^ 64 + v

section Digits
variable {base : Nat} {s t : Str} {c : BitVec 8}

theorem readDigits_append (digits : ∀ c ∈ s, (digitOf base c).isSome = true) (acc : Nat) :
    readDigits base acc (s ++ t) =
      readDigits base ((s.map (digit base)).foldl (fun acc d => acc * base + d) acc) t := by
  induction s generalizing acc with
  | nil => rfl
  | cons c cs ih =>
    obtain ⟨d, known⟩ := Option.isSome_iff_exists.mp (digits c (by simp))
    have here : digit base c = d := by rw [digit, known, Option.getD_some]
    rw [List.cons_append, readDigits, known, List.map_cons, List.foldl_cons, here]
    exact ih (fun c mem => digits c (by simp [mem])) _

theorem readDigits_numeral (digits : ∀ c ∈ s, (digitOf base c).isSome = true) :
    readDigits base 0 s = numeralValue base s := by
  have read := readDigits_append (t := []) digits 0
  rwa [List.append_nil] at read

theorem digit_lt (known : (digitOf base c).isSome = true) : digit base c < base := by
  obtain ⟨d, found⟩ := Option.isSome_iff_exists.mp known
  have small := (Option.filter_eq_some_iff.mp found).2
  rw [digit, found, Option.getD_some]
  simpa using small

theorem numeralValue_lt (wide : 1 < base) (digits : ∀ c ∈ s, (digitOf base c).isSome = true) :
    numeralValue base s < base ^ s.length := by
  have bound := @value_lt base (s.map (digit base)) wide fun d mem => by
    obtain ⟨c, inside, rfl⟩ := List.mem_map.mp mem
    exact digit_lt (digits c inside)
  rwa [List.length_map] at bound

theorem numeralValue_append :
    numeralValue base (s ++ t) = numeralValue base s * base ^ t.length + numeralValue base t := by
  rw [numeralValue, List.map_append, value_append, List.length_map]
  rfl

theorem digitOf_sixteen : ∀ c : BitVec 8, (digitOf 16 c).isSome = true → isSpace c = false ∧
    c ≠ chr '-' ∧ c ≠ chr '+' ∧ c ≠ chr 'x' ∧ c ≠ chr 'X' ∧ c ≠ chr ':' ∧ c ≠ 0 := by
  decide +kernel

theorem digitOf_wider {base' : Nat} (wider : base ≤ base') (known : (digitOf base c).isSome = true) :
    (digitOf base' c).isSome = true := by
  obtain ⟨d, found⟩ := Option.isSome_iff_exists.mp known
  obtain ⟨read, small⟩ := Option.filter_eq_some_iff.mp found
  refine Option.isSome_iff_exists.mpr ⟨d, Option.filter_eq_some_iff.mpr ⟨read, ?_⟩⟩
  simp only [decide_eq_true_eq] at small ⊢
  omega

theorem IsNumeral.plain (h : IsNumeral base s) (narrow : base ≤ 16) : ∀ c ∈ s, isSpace c = false ∧
    c ≠ chr '-' ∧ c ≠ chr '+' ∧ c ≠ chr 'x' ∧ c ≠ chr 'X' ∧ c ≠ chr ':' ∧ c ≠ 0 :=
  fun c mem => digitOf_sixteen c (digitOf_wider narrow (h.digits c mem))

theorem cString_of_no_zero (clean : ∀ c ∈ s, c ≠ 0) : cString s = s := by
  rw [cString, List.takeWhile_eq_self_iff]
  intro c mem
  exact bne_iff_ne.mpr (clean c mem)

theorem numberPrefix_numeral (h : IsNumeral base s) (narrow : base ≤ 16) :
    numberPrefix base (cString s) = (false, s) := by
  have plain := h.plain narrow
  rw [cString_of_no_zero fun c mem => (plain c mem).2.2.2.2.2.2]
  cases s with
  | nil => exact absurd rfl h.nonempty
  | cons c cs =>
    obtain ⟨space, minus, plus, -⟩ := plain c (by simp)
    have kept : (c :: cs).dropWhile isSpace = c :: cs := by
      rw [List.dropWhile_cons, space]
      rfl
    unfold numberPrefix
    rw [kept]
    simp only [if_neg minus, if_neg plus]
    cases cs with
    | nil => rfl
    | cons x rest =>
      cases rest with
      | nil => rfl
      | cons d rest =>
        obtain ⟨-, -, -, lower, upper, -⟩ := plain x (by simp)
        simp [lower, upper]

/-- What stoull refuses: no digit behind white space, sign and 0x, or a value from 2^64 on. -/
def Refused (base : Nat) (s : Str) : Prop :=
  (∀ c ∈ (numberPrefix base (cString s)).2.head?, digitOf base c = none) ∨
    2 ^ 64 ≤ readDigits base 0 (numberPrefix base (cString s)).2

theorem stoull_error_iff : (∃ e, stoull s base = .error e) ↔ Refused base s := by
  unfold stoull Refused
  rcases numberPrefix base (cString s) with ⟨negative, rest⟩
  cases rest with
  | nil => simp
  | cons c cs =>
    dsimp only
    split
    · rename_i none
      exact iff_of_true ⟨_, rfl⟩ (Or.inl (by simpa using none))
    · rename_i some
      split
      · rename_i large
        exact iff_of_true ⟨_, rfl⟩ (Or.inr large)
      · rename_i small
        refine iff_of_false nofun ?_
        rintro (none | large)
        · exact some (by simpa using none)
        · exact small large

theorem stoull_numeral (h : IsNumeral base s) (narrow : base ≤ 16) : stoull s base =
    if 2 ^ 64 ≤ numeralValue base s then .error .outOfRange
    else .ok (BitVec.ofNat 64 (numeralValue base s)) := by
  unfold stoull
  rw [numberPrefix_numeral h narrow]
  cases s with
  | nil => exact absurd rfl h.nonempty
  | cons c cs =>
    have first := h.digits c (by simp)
    have some : ¬ (digitOf base c).isNone = true := by
      rw [Option.isNone_iff_eq_none]
      exact Option.isSome_iff_ne_none.mp first
    dsimp only
    rw [if_neg some, readDigits_numeral h.digits]
    rfl

end Digits

theorem unsignedLiteral_eq_some {s : Str} {n : Nat} (known : unsignedLiteral s = some n) :
    (∃ t, s = chr '0' :: chr 'x' :: t ∧ IsNumeral 16 t ∧ n = numeralValue 16 t) ∨
      (∃ t, s = chr '0' :: chr 'b' :: t ∧ IsNumeral 2 t ∧ n = numeralValue 2 t) ∨
      IsNumeral 10 s ∧ n = numeralValue 10 s := by
  have read : ∀ {base : Nat} {t : Str}, numeral base t = some n →
      IsNumeral base t ∧ n = numeralValue base t := by
    intro base t found
    unfold numeral at found
    split at found
    · rename_i valid
      exact ⟨valid, (Option.some.inj found).symm⟩
    · cases found
  unfold unsignedLiteral at known
  split at known
  · rename_i z x t
    split at known
    · rename_i hex
      obtain ⟨rfl, rfl⟩ := hex
      exact Or.inl ⟨t, rfl, read known⟩
    · split at known
      · rename_i binary
        obtain ⟨rfl, rfl⟩ := binary
        exact Or.inr (Or.inl ⟨t, rfl, read known⟩)
      · exact Or.inr (Or.inr (read known))
  · exact Or.inr (Or.inr (read known))

theorem numeral_of {base : Nat} {s : Str} (valid : IsNumeral base s) :
    numeral base s = some (numeralValue base s) := if_pos valid

structure NumberWord (word : Str) : Prop where
  starts : ∀ c ∈ word.head?, isNumber c = true
  nonempty : word ≠ []
  noOperator : isOperator word = false

theorem parse_number {word : Str} (number : NumberWord word) (line : BitVec 32)
    (open_ : word.getLast? ≠ some (chr ':')) :
    parse word line = (fun u => ⟨.constant u, line, word⟩) <$> parseNumber word := by
  cases word with
  | nil => exact absurd rfl number.nonempty
  | cons c cs =>
    have first : isNumber c = true := number.starts c rfl
    have other : ∀ d : BitVec 8, isNumber d = false → c ≠ d := by
      rintro d none rfl
      exact absurd (none.symm.trans first) nofun
    unfold parse
    dsimp only
    rw [if_neg (other _ (by decide)), if_neg open_, if_neg (other _ (by decide)),
      if_neg (other _ (by decide)), number.noOperator, if_neg nofun, if_pos first]
    cases parseNumber (c :: cs) <;> rfl

theorem parse_label {word : Str} (number : NumberWord word) (line : BitVec 32)
    (label : word.getLast? = some (chr ':')) :
    parse word line = .ok ⟨.label, line, word.dropLast⟩ := by
  cases word with
  | nil => exact absurd rfl number.nonempty
  | cons c cs =>
    have first : isNumber c = true := number.starts c rfl
    have dot : c ≠ chr '.' := by
      rintro rfl
      cases first
    unfold parse
    dsimp only
    rw [if_neg dot, if_pos label]

/- The two paths that go through stoull. -/

theorem Holds.of_nat {u : BitVec 128} {n : Nat} (same : u.toNat = n) : Holds u (n : Int) := by
  rw [Holds, if_pos (Int.natCast_nonneg n), same]

theorem stoull_value {base : Nat} {s : Str} {u : BitVec 64} (h : IsNumeral base s)
    (narrow : base ≤ 16) (read : stoull s base = .ok u) : u.toNat = numeralValue base s := by
  rw [stoull_numeral h narrow] at read
  split at read
  · cases read
  · rename_i small
    cases read
    rw [BitVec.toNat_ofNat]
    omega

theorem IsNumeral.take {base : Nat} {s : Str} (h : IsNumeral base s) {k : Nat} (some : 0 < k) :
    IsNumeral base (s.take k) := by
  refine ⟨?_, fun c mem => h.digits c (List.mem_of_mem_take mem)⟩
  rw [ne_eq, List.take_eq_nil_iff, not_or]
  exact ⟨by omega, h.nonempty⟩

theorem IsNumeral.drop {base : Nat} {s : Str} (h : IsNumeral base s) {k : Nat} (more : k < s.length) :
    IsNumeral base (s.drop k) := by
  refine ⟨?_, fun c mem => h.digits c (List.mem_of_mem_drop mem)⟩
  rw [ne_eq, List.drop_eq_nil_iff]
  omega

theorem halves_toNat (u l : BitVec 64) :
    ((u.setWidth 128 <<< 64) ||| l.setWidth 128).toNat = u.toNat * 2 ^ 64 + l.toNat := by
  have high := u.isLt
  have low := l.isLt
  rw [BitVec.toNat_or, BitVec.toNat_shiftLeft, BitVec.toNat_setWidth, BitVec.toNat_setWidth,
    Nat.mod_eq_of_lt (by omega : u.toNat < 2 ^ 128), Nat.mod_eq_of_lt (by omega : l.toNat < 2 ^ 128),
    Nat.shiftLeft_eq, Nat.mod_eq_of_lt (by omega), ← Nat.shiftLeft_eq,
    ← Nat.shiftLeft_add_eq_or_of_lt low, Nat.shiftLeft_eq]

theorem parseNumber_hex {z : BitVec 8} {t : Str} (more : t ≠ []) :
    parseNumber (z :: chr 'x' :: t) =
      if 16 < t.length then do
        let u ← stoull (t.take (t.length - 16)) 16
        let l ← stoull (t.drop (t.length - 16)) 16
        return (u.setWidth 128 <<< 64) ||| l.setWidth 128
      else return (← stoull t 16).setWidth 128 := by
  have long := List.length_pos_iff.mpr more
  have three : (z :: chr 'x' :: t).length > 2 := by
    rw [List.length_cons, List.length_cons]
    omega
  unfold parseNumber
  rw [if_pos ⟨three, rfl⟩]
  by_cases large : 16 < t.length
  · have size : (z :: chr 'x' :: t).length > 18 := by
      rw [List.length_cons, List.length_cons]
      omega
    have upper : (z :: chr 'x' :: t).length - 18 = t.length - 16 := by simp
    have lower : (z :: chr 'x' :: t).length - 16 = t.length - 16 + 2 := by
      rw [List.length_cons, List.length_cons]
      omega
    rw [if_pos size, if_pos large, upper, lower]
    rfl
  · have size : ¬ (z :: chr 'x' :: t).length > 18 := by
      rw [List.length_cons, List.length_cons]
      omega
    rw [if_neg size, if_neg large]
    rfl

theorem parseNumber_binary {z : BitVec 8} {t : Str} (more : t ≠ []) :
    parseNumber (z :: chr 'b' :: t) = (fun u => u.setWidth 128) <$> stoull t 2 := by
  have three : (z :: chr 'b' :: t).length > 2 := by simpa [List.length_pos_iff] using more
  have other : ¬ ((z :: chr 'b' :: t).length > 2 ∧ (z :: chr 'b' :: t)[1]? = some (chr 'x')) := by
    rintro ⟨-, same⟩
    cases same
  unfold parseNumber
  rw [if_neg other, if_pos ⟨three, rfl⟩]
  rfl

theorem parseNumber_hex_value {z : BitVec 8} {t : Str} (h : IsNumeral 16 t) {u : BitVec 128}
    (read : parseNumber (z :: chr 'x' :: t) = .ok u) : u.toNat = numeralValue 16 t := by
  rw [parseNumber_hex h.nonempty] at read
  split at read
  · rename_i large
    have low : IsNumeral 16 (t.drop (t.length - 16)) := h.drop (by omega)
    obtain ⟨a, upper, rest⟩ := bind_ok_iff.mp read
    obtain ⟨b, lower, eq⟩ := bind_ok_iff.mp rest
    cases eq
    have whole := @numeralValue_append 16 (t.take (t.length - 16)) (t.drop (t.length - 16))
    have width : (t.drop (t.length - 16)).length = 16 := by
      rw [List.length_drop]
      omega
    rw [List.take_append_drop, width] at whole
    have sixteen : (2 : Nat) ^ 64 = 16 ^ 16 := by norm_num
    rw [halves_toNat, stoull_value (h.take (by omega)) (by decide) upper,
      stoull_value low (by decide) lower, whole, sixteen]
  · obtain ⟨a, number, eq⟩ := bind_ok_iff.mp read
    cases eq
    rw [BitVec.toNat_setWidth_of_le (by decide), stoull_value h (by decide) number]

/- The decimal path, through the int that atoi returns. -/

theorem int_toNat (x : BitVec 32) : (((x.signExtend 64).setWidth 128).toNat : Int) =
    if x.toInt < 0 then 2 ^ 64 + x.toInt else x.toInt := by
  have same : (x.signExtend 64).toInt = x.toInt := BitVec.toInt_signExtend_of_le (by decide)
  have bound := (x.signExtend 64).isLt
  rw [BitVec.toNat_setWidth_of_le (by decide), ← same, BitVec.toInt_eq_toNat_cond]
  split <;> split <;> omega

theorem int_holds_iff (x : BitVec 32) (v : Int) : Holds ((x.signExtend 64).setWidth 128) v ↔
    x.toInt = v ∨ x.toInt < 0 ∧ v = 2 ^ 64 + x.toInt := by
  have low := BitVec.le_toInt x
  have high := BitVec.toInt_lt (x := x)
  rw [Holds, int_toNat]
  norm_num at low high
  split <;> split <;> omega

theorem atoi_holds_iff (negative : Bool) (n : Nat) :
    Holds (((if negative then BitVec.ofInt 32 (-(min n (2 ^ 63) : Nat))
        else BitVec.ofInt 32 (min n (2 ^ 63 - 1) : Nat)).signExtend 64).setWidth 128)
      (if negative then -(n : Int) else n) ↔
    (-2 ^ 31 ≤ (if negative then -(n : Int) else n) ∧ (if negative then -(n : Int) else n) < 2 ^ 31) ∨
      (if negative then -(n : Int) else n) = 2 ^ 64 - 1 := by
  rw [int_holds_iff]
  cases negative with
  | true =>
    simp only [if_true, BitVec.toInt_ofInt]
    rw [Int.bmod_def]
    split <;> omega
  | false =>
    simp only [Bool.false_eq_true, if_false, BitVec.toInt_ofInt]
    rw [Int.bmod_def]
    split <;> omega

def unsigned : Str → Bool × Str
  | [] => (false, [])
  | c :: s => if c = chr '-' then (true, s) else if c = chr '+' then (false, s) else (false, c :: s)

theorem isNumber_not_space : ∀ c : BitVec 8, isNumber c = true → isSpace c = false := by
  decide +kernel

theorem atoi_eq {word : Str} (number : NumberWord word) (clean : ∀ c ∈ word, c ≠ 0) :
    atoi word = if (unsigned word).1
      then BitVec.ofInt 32 (-(min (readDigits 10 0 (unsigned word).2) (2 ^ 63) : Nat))
      else BitVec.ofInt 32 (min (readDigits 10 0 (unsigned word).2) (2 ^ 63 - 1) : Nat) := by
  have taken : numberPrefix 10 (cString word) = unsigned word := by
    rw [cString_of_no_zero clean]
    cases word with
    | nil => exact absurd rfl number.nonempty
    | cons c s =>
      have space := isNumber_not_space c (number.starts c rfl)
      have kept : (c :: s).dropWhile isSpace = c :: s := by
        rw [List.dropWhile_cons, space]
        rfl
      have ten : ¬ (10 : Nat) = 16 := by decide
      unfold numberPrefix unsigned
      rw [kept]
      simp only [ten, false_and, if_false]
      split <;> split <;> rfl
  unfold atoi
  rw [taken]

theorem literalValue_eq (word : Str) : literalValue word =
    (unsignedLiteral (unsigned word).2).map fun n : Nat =>
      if (unsigned word).1 then -(n : Int) else n := by
  cases word with
  | nil => rfl
  | cons c s =>
    simp only [literalValue, unsigned]
    split
    · rfl
    · split <;> rfl

/-- The decimal words that keep their value: those of a 32-bit int and, by the saturation of
    strtol, 2^64 - 1; of the others only zeros. -/
def DecimalKept (word : Str) : Prop := ∃ v, literalValue word = some v ∧
  (v = 0 ∨ IsNumeral 10 (unsigned word).2 ∧ (-2 ^ 31 ≤ v ∧ v < 2 ^ 31 ∨ v = 2 ^ 64 - 1))

theorem unsigned_clean {word : Str} (number : NumberWord word)
    (clean : ∀ c ∈ (unsigned word).2, c ≠ 0) : ∀ c ∈ word, c ≠ 0 := by
  cases word with
  | nil => exact absurd rfl number.nonempty
  | cons c s =>
    have first : c ≠ 0 := by
      rintro rfl
      exact absurd (number.starts 0 rfl) (by decide)
    have body : ∀ d ∈ s, d ≠ 0 := by
      intro d mem
      refine clean d ?_
      simp only [unsigned]
      split
      · exact mem
      · split
        · exact mem
        · exact List.mem_cons_of_mem c mem
    intro d mem
    rcases List.mem_cons.mp mem with rfl | later
    · exact first
    · exact body d later

theorem atoi_zero {word t : Str} (number : NumberWord word) {x : BitVec 8}
    (letter : digitOf 10 x = none) (nonzero : x ≠ 0) (body : (unsigned word).2 = chr '0' :: x :: t)
    (clean : ∀ c ∈ t, c ≠ 0) : atoi word = 0 := by
  have zero : chr '0' ≠ 0 := by decide
  have whole : ∀ c ∈ (unsigned word).2, c ≠ 0 := by
    rw [body]
    intro c mem
    rcases List.mem_cons.mp mem with rfl | mem
    · exact zero
    · rcases List.mem_cons.mp mem with rfl | mem
      · exact nonzero
      · exact clean c mem
  have known : digitOf 10 (chr '0') = some 0 := by decide
  have read : readDigits 10 0 (unsigned word).2 = 0 := by
    rw [body, readDigits, known]
    dsimp only
    rw [readDigits, letter]
  rw [atoi_eq number (unsigned_clean number whole), read]
  split <;> rfl

theorem decimal_holds_iff {word : Str} (number : NumberWord word) {v : Int}
    (known : literalValue word = some v) : Holds (((atoi word).signExtend 64).setWidth 128) v ↔
      v = 0 ∨ IsNumeral 10 (unsigned word).2 ∧ (-2 ^ 31 ≤ v ∧ v < 2 ^ 31 ∨ v = 2 ^ 64 - 1) := by
  rw [literalValue_eq, Option.map_eq_some_iff] at known
  obtain ⟨n, body, rfl⟩ := known
  have based : ∀ {x : BitVec 8} {t : Str} {base : Nat}, digitOf 10 x = none → x ≠ 0 → base ≤ 16 →
      IsNumeral base t → (unsigned word).2 = chr '0' :: x :: t →
      ∀ v, Holds (((atoi word).signExtend 64).setWidth 128) v ↔
        v = 0 ∨ IsNumeral 10 (unsigned word).2 ∧ (-2 ^ 31 ≤ v ∧ v < 2 ^ 31 ∨ v = 2 ^ 64 - 1) := by
    intro x t base letter nonzero narrow valid split v
    have clean : ∀ c ∈ t, c ≠ 0 := fun c mem => (valid.plain narrow c mem).2.2.2.2.2.2
    have other : ¬ IsNumeral 10 (unsigned word).2 := by
      intro decimal
      have digit := decimal.digits x (by rw [split]; simp)
      rw [letter] at digit
      cases digit
    rw [atoi_zero number letter nonzero split clean, int_holds_iff]
    simp only [other, false_and, or_false]
    constructor
    · rintro (same | ⟨negative, -⟩)
      · exact same.symm
      · exact absurd negative (by decide)
    · exact fun zero => Or.inl zero.symm
  rcases unsignedLiteral_eq_some body with ⟨t, split, valid, -⟩ | ⟨t, split, valid, -⟩ | ⟨valid, rfl⟩
  · exact based (by decide) (by decide) (by decide) valid split _
  · exact based (by decide) (by decide) (by decide) valid split _
  · have clean := fun c mem => (valid.plain (by decide) c mem).2.2.2.2.2.2
    rw [atoi_eq number (unsigned_clean number clean), readDigits_numeral valid.digits, atoi_holds_iff]
    simp only [valid, true_and]
    constructor
    · exact Or.inr
    · rintro (zero | kept)
      · rw [zero]
        exact Or.inl (by decide)
      · exact kept

/- All words. -/

def Exact (word : Str) : Prop := ∀ line tk, parse word line = .ok tk →
  ∃ u v, tk = ⟨.constant u, line, word⟩ ∧ literalValue word = some v ∧ Holds u v

/-- The words for which parse does so. A hexadecimal or binary word has no sign and only digits, or
    it is refused: for a missing digit where a number is looked for, or for its size. -/
def Kept (word : Str) : Prop :=
  word.getLast? ≠ some (chr ':') ∧
    match word with
    | z :: x :: t =>
      if t ≠ [] ∧ x = chr 'x' then
        z = chr '0' ∧ IsNumeral 16 t ∨
          if 16 < t.length then
            Refused 16 (t.take (t.length - 16)) ∨ Refused 16 (t.drop (t.length - 16))
          else Refused 16 t
      else if t ≠ [] ∧ x = chr 'b' then z = chr '0' ∧ IsNumeral 2 t ∨ Refused 2 t
      else DecimalKept word
    | _ => DecimalKept word

theorem literalValue_hex {t : Str} (valid : IsNumeral 16 t) :
    literalValue (chr '0' :: chr 'x' :: t) = some (numeralValue 16 t : Int) := by
  have body : unsignedLiteral (chr '0' :: chr 'x' :: t) = numeral 16 t := rfl
  rw [literalValue_eq]
  change (unsignedLiteral (chr '0' :: chr 'x' :: t)).map _ = _
  rw [body, numeral_of valid]
  rfl

theorem literalValue_binary {t : Str} (valid : IsNumeral 2 t) :
    literalValue (chr '0' :: chr 'b' :: t) = some (numeralValue 2 t : Int) := by
  have body : unsignedLiteral (chr '0' :: chr 'b' :: t) = numeral 2 t := rfl
  rw [literalValue_eq]
  change (unsignedLiteral (chr '0' :: chr 'b' :: t)).map _ = _
  rw [body, numeral_of valid]
  rfl

theorem literal_based {z x : BitVec 8} {t : Str} {v : Int}
    (known : literalValue (z :: x :: t) = some v) (letter : digitOf 10 x = none) (zero : x ≠ chr '0') :
    z = chr '0' ∧ (x = chr 'x' ∧ IsNumeral 16 t ∨ x = chr 'b' ∧ IsNumeral 2 t) := by
  rw [literalValue_eq, Option.map_eq_some_iff] at known
  obtain ⟨n, body, -⟩ := known
  have none : ∀ {s : Str}, x ∈ s → ¬ IsNumeral 10 s := by
    intro s mem valid
    have digit := valid.digits x mem
    rw [letter] at digit
    cases digit
  have found := unsignedLiteral_eq_some body
  simp only [unsigned] at found
  split at found
  · rcases found with ⟨_, split, -⟩ | ⟨_, split, -⟩ | ⟨valid, -⟩
    · exact absurd (List.cons.inj split).1 zero
    · exact absurd (List.cons.inj split).1 zero
    · exact absurd valid (none (by simp))
  · split at found
    · rcases found with ⟨_, split, -⟩ | ⟨_, split, -⟩ | ⟨valid, -⟩
      · exact absurd (List.cons.inj split).1 zero
      · exact absurd (List.cons.inj split).1 zero
      · exact absurd valid (none (by simp))
    · rcases found with ⟨_, split, valid, -⟩ | ⟨_, split, valid, -⟩ | ⟨valid, -⟩
      · cases split
        exact ⟨rfl, Or.inl ⟨rfl, valid⟩⟩
      · cases split
        exact ⟨rfl, Or.inr ⟨rfl, valid⟩⟩
      · exact absurd valid (none (by simp))

theorem exact_iff {word : Str} (number : NumberWord word)
    (open_ : word.getLast? ≠ some (chr ':')) : Exact word ↔
      ∀ u, parseNumber word = .ok u → ∃ v, literalValue word = some v ∧ Holds u v := by
  constructor
  · intro exact_ u read
    have parsed : parse word 0 = .ok ⟨.constant u, 0, word⟩ := by
      rw [parse_number number 0 open_, read]
      rfl
    obtain ⟨u', v, same, known, holds⟩ := exact_ 0 _ parsed
    cases same
    exact ⟨v, known, holds⟩
  · intro every line tk parsed
    rw [parse_number number line open_] at parsed
    obtain ⟨u, read, rfl⟩ := map_ok_iff.mp parsed
    obtain ⟨v, known, holds⟩ := every u read
    exact ⟨u, v, rfl, known, holds⟩

theorem not_exact_label {word : Str} (number : NumberWord word)
    (label : word.getLast? = some (chr ':')) : ¬ Exact word := by
  intro exact_
  obtain ⟨u, v, same, -⟩ := exact_ 0 _ (parse_label number 0 label)
  cases same

theorem decimal_exact_iff {word : Str} (number : NumberWord word)
    (read : parseNumber word = .ok (((atoi word).signExtend 64).setWidth 128)) :
    (∀ u, parseNumber word = .ok u → ∃ v, literalValue word = some v ∧ Holds u v) ↔
      DecimalKept word := by
  constructor
  · intro every
    obtain ⟨v, known, holds⟩ := every _ read
    exact ⟨v, known, (decimal_holds_iff number known).mp holds⟩
  · rintro ⟨v, known, kept⟩ u read'
    cases read.symm.trans read'
    exact ⟨v, known, (decimal_holds_iff number known).mpr kept⟩

theorem hex_exact_iff {z : BitVec 8} {t : Str} (more : t ≠ []) :
    (∀ u, parseNumber (z :: chr 'x' :: t) = .ok u →
        ∃ v, literalValue (z :: chr 'x' :: t) = some v ∧ Holds u v) ↔
      z = chr '0' ∧ IsNumeral 16 t ∨
        if 16 < t.length then
          Refused 16 (t.take (t.length - 16)) ∨ Refused 16 (t.drop (t.length - 16))
        else Refused 16 t := by
  have refused : (∃ e, parseNumber (z :: chr 'x' :: t) = .error e) ↔
      if 16 < t.length then
        Refused 16 (t.take (t.length - 16)) ∨ Refused 16 (t.drop (t.length - 16))
      else Refused 16 t := by
    rw [parseNumber_hex more]
    split
    · rw [← stoull_error_iff, ← stoull_error_iff]
      cases stoull (t.take (t.length - 16)) 16 with
      | error e => exact iff_of_true ⟨e, rfl⟩ (Or.inl ⟨e, rfl⟩)
      | ok u =>
        cases stoull (t.drop (t.length - 16)) 16 with
        | error e => exact iff_of_true ⟨e, rfl⟩ (Or.inr ⟨e, rfl⟩)
        | ok l => exact iff_of_false nofun (by rintro (⟨e, ⟨⟩⟩ | ⟨e, ⟨⟩⟩))
    · rw [← stoull_error_iff]
      cases stoull t 16 with
      | error e => exact iff_of_true ⟨e, rfl⟩ ⟨e, rfl⟩
      | ok u => exact iff_of_false nofun nofun
  rw [← refused]
  constructor
  · intro every
    cases read : parseNumber (z :: chr 'x' :: t) with
    | error e => exact Or.inr ⟨e, rfl⟩
    | ok u =>
      obtain ⟨v, known, -⟩ := every u read
      rcases literal_based known (by decide) (by decide) with ⟨rfl, ⟨-, valid⟩ | ⟨letter, -⟩⟩
      · exact Or.inl ⟨rfl, valid⟩
      · exact absurd letter (by decide)
  · rintro (⟨rfl, valid⟩ | ⟨e, failed⟩) u read
    · exact ⟨_, literalValue_hex valid, .of_nat (parseNumber_hex_value valid read)⟩
    · cases failed.symm.trans read

theorem binary_exact_iff {z : BitVec 8} {t : Str} (more : t ≠ []) :
    (∀ u, parseNumber (z :: chr 'b' :: t) = .ok u →
        ∃ v, literalValue (z :: chr 'b' :: t) = some v ∧ Holds u v) ↔
      z = chr '0' ∧ IsNumeral 2 t ∨ Refused 2 t := by
  rw [← stoull_error_iff, parseNumber_binary more]
  constructor
  · intro every
    cases read : stoull t 2 with
    | error e => exact Or.inr ⟨e, rfl⟩
    | ok u =>
      obtain ⟨v, known, -⟩ := every _ (map_ok_iff.mpr ⟨u, read, rfl⟩)
      rcases literal_based known (by decide) (by decide) with ⟨rfl, ⟨letter, -⟩ | ⟨-, valid⟩⟩
      · exact absurd letter (by decide)
      · exact Or.inl ⟨rfl, valid⟩
  · rintro (⟨rfl, valid⟩ | ⟨e, failed⟩) u read
    · obtain ⟨w, number, rfl⟩ := map_ok_iff.mp read
      refine ⟨_, literalValue_binary valid, .of_nat ?_⟩
      rw [BitVec.toNat_setWidth_of_le (by decide), stoull_value valid (by decide) number]
    · rw [failed] at read
      cases read

theorem parseNumber_decimal {z x : BitVec 8} {t : Str} (hex : ¬ (t ≠ [] ∧ x = chr 'x'))
    (binary : ¬ (t ≠ [] ∧ x = chr 'b')) :
    parseNumber (z :: x :: t) = .ok (((atoi (z :: x :: t)).signExtend 64).setWidth 128) := by
  have more : (z :: x :: t).length > 2 → t ≠ [] := by
    rintro long rfl
    exact absurd long (by simp)
  unfold parseNumber
  rw [if_neg fun h => hex ⟨more h.1, Option.some.inj h.2⟩,
    if_neg fun h => binary ⟨more h.1, Option.some.inj h.2⟩]
  rfl

/-- parse of a word that begins with a digit or a sign throws or keeps its number, exactly for these
    words. -/
theorem literal_exact_iff {word : Str} (number : NumberWord word) : Exact word ↔ Kept word := by
  by_cases label : word.getLast? = some (chr ':')
  · exact iff_of_false (not_exact_label number label) fun kept => kept.1 label
  · rw [exact_iff number label]
    unfold Kept
    rw [and_iff_right label]
    cases word with
    | nil => exact absurd rfl number.nonempty
    | cons z rest =>
      cases rest with
      | nil => exact decimal_exact_iff number rfl
      | cons x t =>
        dsimp only
        by_cases hex : t ≠ [] ∧ x = chr 'x'
        · obtain ⟨more, rfl⟩ := hex
          rw [if_pos ⟨more, rfl⟩]
          exact hex_exact_iff more
        · rw [if_neg hex]
          by_cases binary : t ≠ [] ∧ x = chr 'b'
          · obtain ⟨more, rfl⟩ := binary
            rw [if_pos ⟨more, rfl⟩]
            exact binary_exact_iff more
          · rw [if_neg binary]
            exact decimal_exact_iff number (parseNumber_decimal hex binary)

theorem literal_kept_hex : Exact (lit "0x1F") :=
  (literal_exact_iff ⟨by decide, by decide, by decide⟩).mpr
    ⟨by decide, Or.inl ⟨rfl, by decide⟩⟩

theorem literal_wrong : ¬ Exact (lit "4294967296") ∧ ¬ Exact (lit "12a") := by
  have wide : parse (lit "4294967296") 0 = .ok ⟨.constant 0, 0, lit "4294967296"⟩ ∧
      literalValue (lit "4294967296") = some 4294967296 := by decide +kernel
  have letter : parse (lit "12a") 0 = .ok ⟨.constant 12, 0, lit "12a"⟩ ∧
      literalValue (lit "12a") = none := by decide +kernel
  constructor
  · intro exact_
    obtain ⟨u, v, same, known, holds⟩ := exact_ 0 _ wide.1
    cases same
    cases wide.2.symm.trans known
    exact absurd holds (by unfold Holds; decide)
  · intro exact_
    obtain ⟨u, v, -, known, -⟩ := exact_ 0 _ letter.1
    cases letter.2.symm.trans known

end BigAsm
