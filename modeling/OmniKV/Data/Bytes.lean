import Mathlib.Data.List.Lex
import Mathlib.Data.List.TakeDrop
import Mathlib.Data.Nat.Basic
import Mathlib.Order.Lex
import Mathlib.Tactic.Ring

/-!
# Byte strings, little-endian words and positional file access

Byte strings are lists, ordered lexicographically. Files are byte strings: a write beyond the end
leaves a hole of zero bytes, a read past the end returns nothing.
-/

abbrev Bytes := List UInt8

/-- Unsigned comparison of bytes is a linear order. -/
instance linearOrderUInt8 : LinearOrder UInt8 where
  le_refl a := UInt8.le_refl a
  le_trans _ _ _ := UInt8.le_trans
  le_antisymm _ _ := UInt8.le_antisymm
  le_total a b := UInt8.le_total a b
  lt_iff_le_not_ge a b := by
    simp only [UInt8.le_iff_toNat_le, UInt8.lt_iff_toNat_lt]
    omega
  toDecidableLE := inferInstance
  toDecidableLT := inferInstance
  toDecidableEq := inferInstance

/-- Found once, for every test whether a byte string is in a list. -/
instance lawfulBEqBytes : LawfulBEq Bytes := inferInstance

namespace Bytes

open List

def ofString (s : String) : Bytes := s.toUTF8.data.toList

/-- The `w` low bytes of `n`, least significant first. -/
def le : Nat → Nat → Bytes
  | 0, _ => []
  | w + 1, n => UInt8.ofNat n :: le w (n / 256)

/-- The number denoted by little-endian bytes. -/
def ofLe : Bytes → Nat
  | [] => 0
  | b :: bs => b.toNat + 256 * ofLe bs

@[simp] theorem length_le (w n : Nat) : (le w n).length = w := by
  induction w generalizing n with
  | zero => rfl
  | succ w ih => simp [le, ih]

theorem ofLe_lt (bs : Bytes) : ofLe bs < 256 ^ bs.length := by
  induction bs with
  | nil => simp [ofLe]
  | cons b bs ih =>
    have hb := b.toNat_lt
    simp only [ofLe, length_cons]
    omega

/-- Reading back a written word gives its residue modulo the word range. -/
theorem ofLe_le (w n : Nat) : ofLe (le w n) = n % 256 ^ w := by
  induction w generalizing n with
  | zero => simp [le, ofLe, Nat.mod_one]
  | succ w ih =>
    have low : (UInt8.ofNat n).toNat = n % 256 := UInt8.toNat_ofNat'
    rw [le, ofLe, ih, low, Nat.pow_succ, Nat.mul_comm (256 ^ w), Nat.mod_mul]

theorem ofLe_le_of_lt {w n : Nat} (fits : n < 256 ^ w) : ofLe (le w n) = n := by
  rw [ofLe_le, Nat.mod_eq_of_lt fits]

/-- Writing the number read from `bs` gives back `bs`. -/
theorem le_ofLe (bs : Bytes) : le bs.length (ofLe bs) = bs := by
  induction bs with
  | nil => rfl
  | cons b bs ih =>
    have hb := b.toNat_lt
    have low : UInt8.ofNat (b.toNat + 256 * ofLe bs) = b := by
      apply UInt8.toNat_inj.mp
      rw [UInt8.toNat_ofNat']
      omega
    have high : (b.toNat + 256 * ofLe bs) / 256 = ofLe bs := by omega
    rw [length_cons, ofLe, le, low, high, ih]

/-- A word of `w` bytes is written modulo its range. -/
theorem le_mod (w n : Nat) : le w (n % 256 ^ w) = le w n := by
  have same := le_ofLe (le w n)
  rwa [length_le, ofLe_le] at same

/-- The bytes from position `i` up to, but not including, position `j`. -/
def slice (bs : Bytes) (i j : Nat) : Bytes := (bs.drop i).take (j - i)

variable {bs data file : Bytes} {i j off : Nat}

theorem slice_eq_of_eq_append {part : Bytes} (before after : Bytes)
    (layout : bs = before ++ (part ++ after)) (hi : before.length = i)
    (hj : i + part.length = j) : slice bs i j = part := by
  subst layout hi hj
  simp [slice]

theorem length_slice (inside : j ≤ bs.length) : (slice bs i j).length = j - i := by
  simp only [slice, length_take, length_drop]
  omega

/-- The word that is read from a slice is the one that the slice holds. -/
theorem le_ofLe_slice {w : Nat} (inside : i + w ≤ bs.length) :
    le w (ofLe (slice bs i (i + w))) = slice bs i (i + w) := by
  have length : (slice bs i (i + w)).length = w := by
    rw [length_slice inside]
    omega
  have same := le_ofLe (slice bs i (i + w))
  rwa [length] at same

theorem slice_append_slice (bs : Bytes) {k : Nat} (first : i ≤ j) (second : j ≤ k) :
    slice bs i j ++ slice bs j k = slice bs i k := by
  have whole : k - i = (j - i) + (k - j) := by omega
  rw [slice, slice, slice, whole, take_add, drop_drop, Nat.add_sub_cancel' first]

theorem slice_append_of_le (more : Bytes) (inside : j ≤ bs.length) :
    slice (bs ++ more) i j = slice bs i j := by
  by_cases ordered : i ≤ j
  · simp only [slice]
    rw [drop_append_of_le_length (by omega), take_append_of_le_length (by simp; omega)]
  · have empty : j - i = 0 := by omega
    simp [slice, empty]

/-- Padding a gap beyond the end with zero bytes. An empty write never touches the file. -/
def writeAt (file : Bytes) (off : Nat) (data : Bytes) : Bytes :=
  if data = [] then file
  else file.take off ++ List.replicate (off - file.length) 0 ++ data ++
    file.drop (off + data.length)

/-- Read exactly `len` bytes at `off`. An empty read never touches the file. -/
def readExactAt (file : Bytes) (off len : Nat) : Option Bytes :=
  if len = 0 ∨ off + len ≤ file.length then some ((file.drop off).take len) else none

@[simp] theorem writeAt_nil (file : Bytes) (off : Nat) : writeAt file off [] = file := if_pos rfl

theorem writeAt_end (file data : Bytes) : writeAt file file.length data = file ++ data := by
  by_cases empty : data = []
  · simp [empty]
  · simp [writeAt, empty]

theorem getElem?_writeAt_inside (file data : Bytes) (inside : i < data.length) :
    (writeAt file off data)[off + i]? = data[i]? := by
  have nonempty : data ≠ [] := ne_nil_of_length_pos (Nat.zero_lt_of_lt inside)
  have front : (file.take off ++ List.replicate (off - file.length) 0).length = off := by
    simp
    omega
  rw [writeAt, if_neg nonempty, append_assoc, getElem?_append_right (by omega), front,
    Nat.add_sub_cancel_left, getElem?_append_left inside]

theorem getElem?_writeAt_outside (old : i < file.length)
    (outside : i < off ∨ off + data.length ≤ i) : (writeAt file off data)[i]? = file[i]? := by
  by_cases empty : data = []
  · simp [empty]
  rw [writeAt, if_neg empty]
  obtain before | after := outside
  · rw [append_assoc, append_assoc, getElem?_append_left (by simp; omega),
      getElem?_take_of_lt before]
  · have front : (file.take off ++ List.replicate (off - file.length) 0 ++ data).length =
        off + data.length := by
      simp
      omega
    rw [getElem?_append_right (by omega), getElem?_drop]
    congr 1
    omega

theorem length_writeAt_le (file data : Bytes) (off : Nat) :
    (writeAt file off data).length ≤ max file.length (off + data.length) := by
  rw [writeAt]
  split_ifs
  · exact le_max_left ..
  · simp only [length_append, length_take, length_replicate, length_drop]
    omega

/-- Writing two pieces one after the other is writing them at once. -/
theorem writeAt_writeAt (file a b : Bytes) (off : Nat) :
    writeAt (writeAt file off a) (off + a.length) b = writeAt file off (a ++ b) := by
  by_cases emptyA : a = []
  · simp [emptyA]
  by_cases emptyB : b = []
  · simp [emptyB]
  have front : (file.take off ++ List.replicate (off - file.length) 0 ++ a).length =
      off + a.length := by
    simp
    omega
  rw [writeAt, if_neg emptyB, writeAt, if_neg emptyA, writeAt, if_neg (by simp [emptyA])]
  have pad : off + a.length - (file.take off ++ List.replicate (off - file.length) 0 ++ a ++
      file.drop (off + a.length)).length = 0 := by
    rw [length_append]
    omega
  rw [pad, take_left' front, ← drop_drop, drop_left' front]
  simp [Nat.add_assoc]

/-- An exact read succeeds when the file has the bytes it returns at that place. -/
theorem readExactAt_eq_some_iff {len : Nat} : readExactAt file off len = some data ↔
      data.length = len ∧ ∀ i < len, file[off + i]? = data[i]? := by
  constructor
  · intro read
    rw [readExactAt] at read
    split_ifs at read with fits
    cases read
    refine ⟨?_, fun i hi => ?_⟩
    · simp only [length_take, length_drop]
      omega
    · rw [getElem?_take_of_lt hi, getElem?_drop]
  · rintro ⟨rfl, same⟩
    have fits : data.length = 0 ∨ off + data.length ≤ file.length := by
      by_contra short
      -- The last byte of a read that runs past the end would be missing.
      have last := same (data.length - 1) (by omega)
      rw [getElem?_eq_none (by omega), getElem?_eq_getElem (by omega)] at last
      cases last
    rw [readExactAt, if_pos fits]
    congr 1
    apply ext_getElem?
    intro i
    by_cases hi : i < data.length
    · rw [getElem?_take_of_lt hi, getElem?_drop, same i hi]
    · rw [getElem?_eq_none (by simp; omega), getElem?_eq_none (by omega)]

theorem readExactAt_congr {file' : Bytes} {len : Nat} (read : readExactAt file off len = some data)
    (same : ∀ i < len, file'[off + i]? = file[off + i]?) :
    readExactAt file' off len = some data := by
  obtain ⟨length, bytes⟩ := readExactAt_eq_some_iff.mp read
  exact readExactAt_eq_some_iff.mpr ⟨length, fun i hi => (same i hi).trans (bytes i hi)⟩

/-- A read of two adjacent pieces is a read of each. -/
theorem readExactAt_append_eq_some {a b : Bytes}
    (read : readExactAt file off (a ++ b).length = some (a ++ b)) :
    readExactAt file off a.length = some a ∧
      readExactAt file (off + a.length) b.length = some b := by
  obtain ⟨-, bytes⟩ := readExactAt_eq_some_iff.mp read
  simp only [length_append] at bytes
  constructor
  · refine readExactAt_eq_some_iff.mpr ⟨rfl, fun i hi => ?_⟩
    rw [bytes i (by omega), getElem?_append_left hi]
  · refine readExactAt_eq_some_iff.mpr ⟨rfl, fun i hi => ?_⟩
    rw [Nat.add_assoc, bytes (a.length + i) (by omega), getElem?_append_right (by omega),
      Nat.add_sub_cancel_left]

theorem readExactAt_writeAt (file before data after : Bytes) (off : Nat) :
    readExactAt (writeAt file off (before ++ (data ++ after))) (off + before.length) data.length =
      some data := by
  refine readExactAt_eq_some_iff.mpr ⟨rfl, fun i hi => ?_⟩
  rw [Nat.add_assoc, getElem?_writeAt_inside _ _ (by simp; omega),
    getElem?_append_right (by omega), Nat.add_sub_cancel_left, getElem?_append_left hi]

end Bytes
