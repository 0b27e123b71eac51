import RowStore.Bytes
import Mathlib.Algebra.Group.Nat.Defs
import Mathlib.Data.List.Induction
import Mathlib.Tactic.SplitIfs

/-!
# RowStore.Proofs.Bytes: stretches of byte strings, and numbers

What a splice does, byte by byte (`getElem?_splice`), and from it the two facts every page write
rests on: the new stretch reads back as it was written, and a stretch that does not meet it reads
as before.  Numbers read back from the bytes they are written as, and bytes are what the number
they spell is written as.
-/

namespace RowStore.Bytes

theorem getElem?_slice (bytes : Bytes) (start count i : Nat) :
    (bytes.slice start count)[i]? = if i < count then bytes[start + i]? else none := by
  unfold slice
  rw [List.getElem?_take]
  split_ifs with h
  · rw [List.getElem?_drop]
  · rfl

theorem getElem?_splice {bytes : Bytes} {start : Nat} (piece : Bytes) (h : start ≤ bytes.length)
    (i : Nat) :
    (bytes.splice start piece)[i]? =
      if i < start then bytes[i]?
      else if i < start + piece.length then piece[i - start]?
      else bytes[i]? := by
  have hlen : (bytes.take start).length = start := by simp [h]
  unfold splice
  rw [List.append_assoc, List.getElem?_append, hlen]
  split_ifs with h1 h2
  · rw [List.getElem?_take, if_pos h1]
  · rw [List.getElem?_append, if_pos (by omega)]
  · rw [List.getElem?_append, if_neg (by omega), List.getElem?_drop]
    congr 1
    omega

theorem length_slice {bytes : Bytes} {start count : Nat} (h : start + count ≤ bytes.length) :
    (bytes.slice start count).length = count := by
  simp only [slice, List.length_take, List.length_drop]
  omega

/-- A stretch behind the first bytes is a stretch of all bytes. -/
theorem slice_drop (bytes : Bytes) (first start count : Nat) :
    slice (bytes.drop first) start count = bytes.slice (first + start) count := by
  unfold slice
  rw [List.drop_drop]

/-- Bytes behind a stretch leave it as it was. -/
theorem slice_append_of_le {bytes : Bytes} {start count : Nat} (h : start + count ≤ bytes.length)
    (more : Bytes) : slice (bytes ++ more) start count = bytes.slice start count := by
  unfold slice
  rw [List.drop_append_of_le_length (by omega), List.take_append_of_le_length]
  rw [List.length_drop]
  omega

/-- A splice that begins inside the byte string reaches as far as the string or the piece. -/
theorem length_splice_eq_max {bytes piece : Bytes} {start : Nat} (h : start ≤ bytes.length) :
    (bytes.splice start piece).length = max bytes.length (start + piece.length) := by
  simp only [splice, List.length_append, List.length_take, List.length_drop]
  omega

/-- A spliced piece reads back as it was written. -/
theorem slice_splice_self {bytes : Bytes} {start : Nat} (piece : Bytes)
    (h : start ≤ bytes.length) : (bytes.splice start piece).slice start piece.length = piece := by
  apply List.ext_getElem?
  intro i
  rw [getElem?_slice, getElem?_splice piece h]
  split_ifs with h1 h2 h3
  · omega
  · rw [Nat.add_sub_cancel_left]
  · omega
  · exact (List.getElem?_eq_none (by omega)).symm

/-- A stretch that does not meet the spliced piece reads as before. -/
theorem slice_splice_of_disjoint {bytes : Bytes} {start : Nat} (piece : Bytes) {other count : Nat}
    (h : start ≤ bytes.length)
    (hd : other + count ≤ start ∨ start + piece.length ≤ other) :
    (bytes.splice start piece).slice other count = bytes.slice other count := by
  apply List.ext_getElem?
  intro i
  rw [getElem?_slice, getElem?_slice]
  split_ifs with hi
  · rw [getElem?_splice piece h]
    split_ifs with h1 h2
    · rfl
    · omega
    · rfl
  · rfl

theorem splice_nil (bytes : Bytes) (start : Nat) : bytes.splice start [] = bytes := by
  simp [splice]

/-- A piece spliced in at the end is appended. -/
theorem splice_length (bytes piece : Bytes) : bytes.splice bytes.length piece = bytes ++ piece := by
  simp [splice]

/-! ## Numbers -/

theorem toNat_append_singleton (bytes : Bytes) (byte : UInt8) :
    toNat (bytes ++ [byte]) = bytes.toNat * 256 + byte.toNat := by
  simp [toNat]

/-- A number reads back as far as its width reaches. -/
theorem toNat_ofNat (width n : Nat) : toNat (ofNat width n) = n % 256 ^ width := by
  induction width generalizing n with
  | zero => rw [ofNat, Nat.pow_zero, Nat.mod_one]; rfl
  | succ width ih =>
    have hbyte : (UInt8.ofNat n).toNat = n % 256 := UInt8.toNat_ofNat'
    rw [ofNat, toNat_append_singleton, ih, hbyte, Nat.pow_succ', Nat.mod_mul]
    omega

/-- The four bytes of a signed word read back. -/
theorem toInt32_ofInt32 (n : Int32) : toInt32 (ofInt32 n) = n := by
  have hlt : n.toUInt32.toNat < 256 ^ 4 := n.toUInt32.toNat_lt
  rw [toInt32, ofInt32, toNat_ofNat, Nat.mod_eq_of_lt hlt, UInt32.ofNat_toNat,
    Int32.toInt32_toUInt32]

/-- A number that a signed word can hold reads back from four bytes with its sign. -/
theorem toInt_toInt32_ofNat {n : Nat} (h : n ≤ 2147483647) :
    (toInt32 (ofNat 4 n)).toInt = n := by
  rw [toInt32, toNat_ofNat, Nat.mod_eq_of_lt (show n < 256 ^ 4 by omega), UInt32.toInt32_ofNat',
    Int32.toInt_ofNat_of_lt (by omega)]

theorem toNat_lt (bytes : Bytes) : bytes.toNat < 256 ^ bytes.length := by
  induction bytes using List.reverseRecOn with
  | nil => decide
  | append_singleton bytes byte ih =>
    have hbyte : byte.toNat < 256 := byte.toNat_lt
    rw [toNat_append_singleton, List.length_append, List.length_singleton, Nat.pow_succ]
    omega

/-- Bytes are what the number they spell is written as. -/
theorem ofNat_toNat (bytes : Bytes) : ofNat bytes.length bytes.toNat = bytes := by
  induction bytes using List.reverseRecOn with
  | nil => rfl
  | append_singleton bytes byte ih =>
    have hbyte : byte.toNat < 256 := byte.toNat_lt
    have hlast : UInt8.ofNat (toNat bytes * 256 + byte.toNat) = byte := by
      apply UInt8.toNat_inj.mp
      rw [UInt8.toNat_ofNat']
      omega
    rw [toNat_append_singleton, List.length_append, List.length_singleton, ofNat, hlast,
      show (toNat bytes * 256 + byte.toNat) / 256 = toNat bytes by omega, ih]

/-- Four bytes are what the signed word they spell is written as. -/
theorem ofInt32_toInt32 {bytes : Bytes} (h : bytes.length = 4) : ofInt32 (toInt32 bytes) = bytes := by
  have hlt := toNat_lt bytes
  rw [h] at hlt
  have hword : (toInt32 bytes).toUInt32.toNat = bytes.toNat := by
    rw [toInt32, UInt32.toUInt32_toInt32, UInt32.toNat_ofNat_of_lt' hlt]
  rw [ofInt32, hword, ← h, ofNat_toNat]

/-- A signed word that is not negative is written as the number it is. -/
theorem ofNat_toInt {n : Int32} (h : 0 ≤ n.toInt) : ofNat 4 n.toInt.toNat = ofInt32 n := by
  rw [ofInt32, Int32.toNat_toInt, Int32.toNat_toUInt32_of_le (Int32.le_iff_toInt_le.mpr h)]

end RowStore.Bytes
