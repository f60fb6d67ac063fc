import Mathlib
import BigAsm.Library.Bytes

/- C data in a file of bytes: little-endian numbers, structures whose members are aligned to
   their own size, tables of structures, and tables of NUL-terminated strings. -/
namespace CData
open ByteStore

def number : List Byte → Nat
  | [] => 0
  | b :: bs => b.toNat + 256 * number bs

theorem number_littleEndian (n : Nat) (v : BitVec w) :
    number (littleEndian n v) = v.toNat % 256 ^ n := by
  induction n generalizing v with
  | zero => simp [littleEndian, number, Nat.mod_one]
  | succ n ih =>
    have tail : (List.range n).map (fun i => v.extractLsb' (8 * (i + 1)) 8) =
        littleEndian n (v >>> 8) := by
      refine List.map_congr_left fun i _ => ?_
      apply BitVec.eq_of_toNat_eq
      simp only [BitVec.extractLsb'_toNat, BitVec.toNat_ushiftRight, Nat.shiftRight_eq_div_pow]
      rw [Nat.div_div_eq_div_mul, ← Nat.pow_add, Nat.mul_add, Nat.add_comm]
    have first : littleEndian (n + 1) v = v.extractLsb' 0 8 :: littleEndian n (v >>> 8) := by
      rw [← tail, littleEndian, List.range_succ_eq_map]
      simp [Function.comp_def]
    have low : (v.extractLsb' 0 8).toNat = v.toNat % 256 := by
      simp [BitVec.extractLsb'_toNat]
    have high : (v >>> 8).toNat = v.toNat / 256 := by
      rw [BitVec.toNat_ushiftRight, Nat.shiftRight_eq_div_pow]
    rw [first, number, ih, low, high, Nat.pow_succ', Nat.mod_mul]

def padding (offset width : Nat) : Nat := (width - offset % width) % width

def layout : Nat → List (Nat × Nat) → List Byte
  | _, [] => []
  | offset, (width, value) :: members =>
    List.replicate (padding offset width) 0 ++ littleEndian width (BitVec.ofNat (8 * width) value) ++
      layout (offset + padding offset width + width) members

def extent : Nat → List Nat → Nat
  | offset, [] => offset
  | offset, width :: widths => extent (offset + padding offset width + width) widths

def members : Nat → List Nat → List Byte → List Nat
  | _, [], _ => []
  | offset, width :: widths, bs =>
    number (window (padding offset width) width bs) ::
      members (offset + padding offset width + width) widths
        (bs.drop (padding offset width + width))

theorem layout_length (offset : Nat) (ms : List (Nat × Nat)) :
    offset + (layout offset ms).length = extent offset (ms.map Prod.fst) := by
  induction ms generalizing offset with
  | nil => rfl
  | cons m ms ih =>
    rw [layout, List.map_cons, extent, ← ih]
    simp only [List.length_append, List.length_replicate, littleEndian_length]
    omega

theorem members_layout (offset : Nat) (ms : List (Nat × Nat)) (more : List Byte) :
    members offset (ms.map Prod.fst) (layout offset ms ++ more) =
      ms.map fun m => m.2 % 256 ^ m.1 := by
  induction ms generalizing offset with
  | nil => rfl
  | cons m ms ih =>
    obtain ⟨width, value⟩ := m
    have value_eq : number (littleEndian width (BitVec.ofNat (8 * width) value)) =
        value % 256 ^ width := by
      rw [number_littleEndian, BitVec.toNat_ofNat, Nat.pow_mul]
      exact Nat.mod_mod _ _
    have here : window (padding offset width) width (layout offset ((width, value) :: ms) ++ more) =
        littleEndian width (BitVec.ofNat (8 * width) value) := by
      simp [layout, window]
    have past : (layout offset ((width, value) :: ms) ++ more).drop (padding offset width + width) =
        layout (offset + padding offset width + width) ms ++ more := by
      rw [layout, List.append_assoc, List.drop_left' (by simp)]
    rw [List.map_cons, members, here, past, ih, value_eq, List.map_cons]

/-- A structure type: the widths of its members in order, and the members as numbers. -/
class CStruct (R : Type) where
  alignment : Nat
  widths : List Nat
  values : R → List Nat
  ofValues : List Nat → R
  count : ∀ r, (values r).length = widths.length
  back : ∀ r, ofValues ((widths.zip (values r)).map fun m => m.2 % 256 ^ m.1) = r

namespace CStruct
variable {R : Type} [CStruct R]

/-- sizeof: the structure is padded to a multiple of its alignment. -/
def size (R : Type) [CStruct R] : Nat :=
  extent 0 (widths R) + padding (extent 0 (widths R)) (alignment R)

def encode (r : R) : List Byte :=
  layout 0 ((widths R).zip (values r)) ++
    List.replicate (padding (extent 0 (widths R)) (alignment R)) 0

def decode (R : Type) [CStruct R] (bs : List Byte) : R := ofValues (members 0 (widths R) bs)

theorem zip_widths (r : R) : ((widths R).zip (values r)).map Prod.fst = widths R :=
  List.map_fst_zip (count r).ge

@[simp] theorem encode_length (r : R) : (encode r).length = size R := by
  have inner := layout_length 0 ((widths R).zip (values r))
  rw [zip_widths, Nat.zero_add] at inner
  rw [encode, List.length_append, List.length_replicate, inner, size]

theorem decode_encode (r : R) : decode R (encode r) = r := by
  have read := members_layout 0 ((widths R).zip (values r))
    (List.replicate (padding (extent 0 (widths R)) (alignment R)) 0)
  rw [zip_widths] at read
  rw [decode, encode, read, back]

def table (R : Type) [CStruct R] (start stride count : Nat) (bs : List Byte) : List R :=
  (List.range count).map fun k => decode R (window (start + k * stride) (size R) bs)

@[simp] theorem encodes_length (rs : List R) : (rs.flatMap encode).length = rs.length * size R := by
  induction rs with
  | nil => simp
  | cons r rs ih => simp [ih, Nat.succ_mul, Nat.add_comm]

theorem window_encodes {rs : List R} {k : Nat} {r : R} (found : rs[k]? = some r) :
    window (k * size R) (size R) (rs.flatMap encode) = encode r := by
  induction rs generalizing k with
  | nil => cases found
  | cons first rs ih =>
    cases k with
    | zero =>
      cases found
      simp [window]
    | succ k =>
      have past : (k + 1) * size R = (encode first).length + k * size R := by
        rw [encode_length, Nat.succ_mul, Nat.add_comm]
      rw [← ih found, window, window, List.flatMap_cons, past, ← List.drop_drop, List.drop_left]

theorem table_of_encodes {rs : List R} (front more : List Byte) {bs : List Byte} {start : Nat}
    (file : bs = front ++ rs.flatMap encode ++ more) (at_ : start = front.length) :
    table R start (size R) rs.length bs = rs := by
  apply List.ext_getElem?
  intro k
  rw [table, List.getElem?_map]
  by_cases inside : k < rs.length
  · have found := List.getElem?_eq_getElem inside
    have room : k * size R + size R ≤ (rs.flatMap encode).length := by
      rw [encodes_length, ← Nat.succ_mul]
      exact Nat.mul_le_mul_right _ inside
    have cut : window (start + k * size R) (size R) bs = encode rs[k] := by
      rw [file, at_, List.append_assoc, window, ← List.drop_drop, List.drop_left, ← window,
        window_append_left room, window_encodes found]
    rw [List.getElem?_range inside, Option.map_some, cut, decode_encode, found]
  · rw [List.getElem?_eq_none (by simpa using inside), List.getElem?_eq_none (by omega)]
    rfl

end CStruct

def untilNul (bs : List Byte) : List Byte := bs.takeWhile (· ≠ 0)

def terminated (names : List (List Byte)) : List Byte := names.flatMap (· ++ [0])

theorem terminated_cons_length (name : List Byte) (names : List (List Byte)) :
    (terminated (name :: names)).length = name.length + 1 + (terminated names).length := by
  rw [terminated, List.flatMap_cons, List.length_append, List.length_append]
  rfl

theorem untilNul_append {name : List Byte} (plain : 0 ∉ name) (more : List Byte) :
    untilNul (name ++ 0 :: more) = name := by
  induction name with
  | nil => simp [untilNul]
  | cons b name ih =>
    rw [List.mem_cons, not_or] at plain
    have rest := ih plain.2
    rw [untilNul] at rest ⊢
    rw [List.cons_append, List.takeWhile_cons_of_pos (by simpa using Ne.symm plain.1), rest]

theorem untilNul_terminated (front back : List (List Byte)) {name : List Byte} (plain : 0 ∉ name)
    (more : List Byte) :
    untilNul ((terminated (front ++ name :: back) ++ more).drop (terminated front).length) =
      name := by
  have split : terminated (front ++ name :: back) ++ more =
      terminated front ++ (name ++ 0 :: (terminated back ++ more)) := by
    simp [terminated]
  rw [split, List.drop_left, untilNul_append plain]

end CData
