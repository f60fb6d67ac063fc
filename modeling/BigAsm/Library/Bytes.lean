import Mathlib

/- Byte sequences read and rewritten in place: little-endian words, windows, splices,
   and a growable buffer whose length never passes the largest size a vector allows. -/
namespace ByteStore

abbrev Byte := BitVec 8
abbrev Word := BitVec 32

def littleEndian (n : Nat) (v : BitVec w) : List Byte :=
  (List.range n).map fun i => v.extractLsb' (8 * i) 8

def wordBytes (w : Word) : List Byte := littleEndian 4 w

def bytesWord : List Byte → Word
  | [a, b, c, d] => (d ++ c ++ b ++ a : BitVec 32)
  | _ => 0

def encodeWords (ws : List Word) : List Byte := ws.flatMap wordBytes

def window (start len : Nat) (bs : List Byte) : List Byte := (bs.drop start).take len

def splice (start : Nat) (new bs : List Byte) : List Byte :=
  bs.take start ++ new ++ bs.drop (start + new.length)

def wordAt (start : Nat) (bs : List Byte) : Word := bytesWord (window start 4 bs)

def wordsAt (bs : List Byte) : Nat → Nat → List Word
  | _, 0 => []
  | start, n + 1 => wordAt start bs :: wordsAt bs (start + 4) n

@[simp] theorem littleEndian_length (n : Nat) (v : BitVec w) : (littleEndian n v).length = n := by
  simp [littleEndian]

@[simp] theorem wordBytes_length (w : Word) : (wordBytes w).length = 4 := littleEndian_length 4 w

@[simp] theorem bytesWord_wordBytes (w : Word) : bytesWord (wordBytes w) = w := by
  change (w.extractLsb' 24 8 ++ w.extractLsb' 16 8 ++ w.extractLsb' 8 8 ++ w.extractLsb' 0 8 :
    BitVec 32) = w
  ext i hi
  simp only [BitVec.getElem_append, BitVec.getElem_extractLsb']
  split
  · simp [BitVec.getElem_eq_testBit_toNat, BitVec.getLsbD]
  · split
    · have same : 8 + (i - 8) = i := by omega
      simp [same, ← BitVec.getLsbD_eq_getElem]
    · split
      · have same : 16 + (i - 8 - 8) = i := by omega
        simp [same, ← BitVec.getLsbD_eq_getElem]
      · have same : 24 + (i - 8 - 8 - 8) = i := by omega
        simp [same, ← BitVec.getLsbD_eq_getElem]

@[simp] theorem encodeWords_length (ws : List Word) : (encodeWords ws).length = 4 * ws.length := by
  induction ws with
  | nil => rfl
  | cons w ws ih =>
    simp only [encodeWords, List.flatMap_cons, List.length_append, wordBytes_length,
      List.length_cons] at ih ⊢
    omega

theorem encodeWords_cons (w : Word) (ws : List Word) :
    encodeWords (w :: ws) = wordBytes w ++ encodeWords ws := rfl

theorem encodeWords_append (ws vs : List Word) :
    encodeWords (ws ++ vs) = encodeWords ws ++ encodeWords vs := List.flatMap_append

theorem window_length {start len : Nat} {bs : List Byte} (bound : start + len ≤ bs.length) :
    (window start len bs).length = len := by
  simp only [window, List.length_take, List.length_drop]
  omega

theorem getElem?_window (start len i : Nat) (bs : List Byte) :
    (window start len bs)[i]? = if i < len then bs[start + i]? else none := by
  simp [window, List.getElem?_take]

theorem window_append_left {start len : Nat} {bs more : List Byte}
    (bound : start + len ≤ bs.length) : window start len (bs ++ more) = window start len bs := by
  apply List.ext_getElem?
  intro i
  rw [getElem?_window, getElem?_window]
  split
  · exact List.getElem?_append_left (by omega)
  · rfl

theorem window_grown {start len : Nat} {bs cs : List Byte} (grown : bs <+: cs)
    (bound : start + len ≤ bs.length) : window start len cs = window start len bs := by
  obtain ⟨more, rfl⟩ := grown
  exact window_append_left bound

theorem window_window {start len start' len' : Nat} {bs : List Byte}
    (inside : start' + len' ≤ len) :
    window start' len' (window start len bs) = window (start + start') len' bs := by
  apply List.ext_getElem?
  intro i
  rw [getElem?_window, getElem?_window, getElem?_window]
  split
  · rw [if_pos (by omega), Nat.add_assoc]
  · rfl

theorem wordAt_window {start len k : Nat} {bs : List Byte} (inside : k + 4 ≤ len) :
    wordAt k (window start len bs) = wordAt (start + k) bs := by
  rw [wordAt, window_window inside, wordAt]

theorem window_at_end (bs new : List Byte) : window bs.length new.length (bs ++ new) = new := by
  simp [window]

theorem getElem?_splice {start : Nat} {new bs : List Byte} (bound : start + new.length ≤ bs.length)
    (i : Nat) : (splice start new bs)[i]? =
      if start ≤ i ∧ i < start + new.length then new[i - start]? else bs[i]? := by
  have front : (bs.take start).length = start := by simp; omega
  rw [splice, List.append_assoc]
  by_cases before : i < start
  · rw [List.getElem?_append_left (by omega), List.getElem?_take, if_pos before, if_neg (by omega)]
  · rw [List.getElem?_append_right (by omega), front]
    by_cases inside : i < start + new.length
    · rw [List.getElem?_append_left (by omega), if_pos (by omega)]
    · rw [List.getElem?_append_right (by omega), List.getElem?_drop, if_neg (by omega)]
      congr 1
      omega

theorem splice_length {start : Nat} {new bs : List Byte} (bound : start + new.length ≤ bs.length) :
    (splice start new bs).length = bs.length := by
  simp only [splice, List.length_append, List.length_take, List.length_drop]
  omega

theorem window_splice_self {start : Nat} {new bs : List Byte}
    (bound : start + new.length ≤ bs.length) : window start new.length (splice start new bs) = new := by
  apply List.ext_getElem?
  intro i
  rw [getElem?_window, getElem?_splice bound]
  by_cases inside : i < new.length
  · rw [if_pos inside, if_pos (by omega), Nat.add_sub_cancel_left]
  · rw [if_neg inside]
    exact (List.getElem?_eq_none (by omega)).symm

theorem window_splice_disjoint {start start' len : Nat} {new bs : List Byte}
    (bound : start + new.length ≤ bs.length)
    (apart : start' + len ≤ start ∨ start + new.length ≤ start') :
    window start' len (splice start new bs) = window start' len bs := by
  apply List.ext_getElem?
  intro i
  rw [getElem?_window, getElem?_window]
  split
  · rw [getElem?_splice bound, if_neg (by omega)]
  · rfl

theorem splice_comm {start start' : Nat} {new new' bs : List Byte}
    (bound : start + new.length ≤ bs.length) (bound' : start' + new'.length ≤ bs.length)
    (apart : start' + new'.length ≤ start ∨ start + new.length ≤ start') :
    splice start new (splice start' new' bs) = splice start' new' (splice start new bs) := by
  apply List.ext_getElem?
  intro i
  rw [getElem?_splice (by rwa [splice_length bound']), getElem?_splice bound',
    getElem?_splice (by rwa [splice_length bound]), getElem?_splice bound]
  split
  · rw [if_neg (by omega)]
  · rfl

theorem splice_splice_next {start : Nat} {new new' bs : List Byte}
    (bound : start + new.length + new'.length ≤ bs.length) :
    splice start new (splice (start + new.length) new' bs) = splice start (new ++ new') bs := by
  have inner : (splice (start + new.length) new' bs).length = bs.length := splice_length bound
  apply List.ext_getElem?
  intro i
  rw [getElem?_splice (by omega), getElem?_splice bound,
    getElem?_splice (by rw [List.length_append]; omega), List.length_append]
  by_cases first : start ≤ i ∧ i < start + new.length
  · rw [if_pos first, if_pos (by omega), List.getElem?_append_left (by omega)]
  · rw [if_neg first]
    split
    · rw [if_pos (by omega), List.getElem?_append_right (by omega)]
      congr 1
      omega
    · rw [if_neg (by omega)]

theorem wordsAt_of_window {bs : List Byte} {start : Nat} {ws : List Word}
    (found : window start (4 * ws.length) bs = encodeWords ws) : wordsAt bs start ws.length = ws := by
  induction ws generalizing start with
  | nil => rfl
  | cons w ws ih =>
    have head : window start 4 bs = wordBytes w := by
      have cut := congrArg (window 0 4) found
      rw [window_window (by simp only [List.length_cons]; omega)] at cut
      simpa [encodeWords_cons, window] using cut
    have tail : window (start + 4) (4 * ws.length) bs = encodeWords ws := by
      have cut := congrArg (window 4 (4 * ws.length)) found
      rw [window_window (by simp only [List.length_cons]; omega)] at cut
      have keep : (encodeWords ws).take (4 * ws.length) = encodeWords ws :=
        List.take_of_length_le (by simp)
      simpa [encodeWords_cons, window, keep] using cut
    simp only [List.length_cons, wordsAt, wordAt, head, bytesWord_wordBytes, ih tail]

theorem wordAt_of_window {bs : List Byte} {start : Nat} {w : Word}
    (found : window start 4 bs = wordBytes w) : wordAt start bs = w := by
  rw [wordAt, found, bytesWord_wordBytes]

/- std::vector<uint8_t>::max_size() is PTRDIFF_MAX. -/
def maxSize : Nat := 2 ^ 63 - 1

structure Buffer where
  bytes : List Byte
  fits : bytes.length ≤ maxSize
  deriving DecidableEq

namespace Buffer

def empty : Buffer := ⟨[], Nat.zero_le _⟩

def size (b : Buffer) : Nat := b.bytes.length

/-- insert at the end; none is the length_error of a vector that would pass max_size. -/
def append (b : Buffer) (data : List Byte) : Option Buffer :=
  if h : (b.bytes ++ data).length ≤ maxSize then some ⟨b.bytes ++ data, h⟩ else none

/-- resize either cuts the end off or appends zero bytes. -/
def resized (n : Nat) (bs : List Byte) : List Byte :=
  bs.take n ++ List.replicate (n - bs.length) 0

@[simp] theorem resized_length (n : Nat) (bs : List Byte) : (resized n bs).length = n := by
  simp only [resized, List.length_append, List.length_take, List.length_replicate]
  omega

def resize (b : Buffer) (n : Nat) : Option Buffer :=
  if h : n ≤ maxSize then some ⟨resized n b.bytes, by simpa using h⟩ else none

def overwrite (b : Buffer) (start : Nat) (new : List Byte) : Buffer :=
  if h : start + new.length ≤ b.bytes.length then
    ⟨splice start new b.bytes, by rw [splice_length h]; exact b.fits⟩
  else b

@[simp] theorem empty_bytes : empty.bytes = [] := rfl

theorem resized_eq_append {n : Nat} {bs : List Byte} (grow : bs.length ≤ n) :
    resized n bs = bs ++ List.replicate (n - bs.length) 0 := by
  rw [resized, List.take_of_length_le grow]

theorem resized_self (bs : List Byte) : resized bs.length bs = bs := by simp [resized]

theorem prefix_resized_iff (n : Nat) (bs : List Byte) :
    bs <+: resized n bs ↔ bs.length ≤ n := by
  constructor
  · intro grown
    simpa using grown.length_le
  · intro grow
    rw [resized_eq_append grow]
    exact List.prefix_append _ _

theorem append_some_iff {b c : Buffer} {data : List Byte} :
    b.append data = some c ↔ c.bytes = b.bytes ++ data := by
  unfold append
  constructor
  · intro h
    split at h
    · cases h; rfl
    · cases h
  · intro eq
    have fits := c.fits
    rw [eq] at fits
    rw [dif_pos fits]
    cases c
    cases eq
    rfl

theorem resize_some_iff {b c : Buffer} {n : Nat} :
    b.resize n = some c ↔ c.bytes = resized n b.bytes := by
  unfold resize
  constructor
  · intro h
    split at h
    · cases h; rfl
    · cases h
  · intro eq
    have fits := c.fits
    rw [eq, resized_length] at fits
    rw [dif_pos fits]
    cases c
    cases eq
    rfl

theorem overwrite_bytes {b : Buffer} {start : Nat} {new : List Byte}
    (bound : start + new.length ≤ b.bytes.length) :
    (b.overwrite start new).bytes = splice start new b.bytes := by
  rw [overwrite, dif_pos bound]

@[simp] theorem overwrite_length (b : Buffer) (start : Nat) (new : List Byte) :
    (b.overwrite start new).bytes.length = b.bytes.length := by
  unfold overwrite
  split
  · rename_i bound
    exact splice_length bound
  · rfl

end Buffer

end ByteStore
