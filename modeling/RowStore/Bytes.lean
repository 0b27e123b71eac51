/-!
# RowStore.Bytes: byte strings and big-endian words

Everything that reaches a file is a list of bytes.  A number is written most significant byte
first in a fixed width (`Bytes.ofNat`), so a stored number reads the same on every machine, and
`Bytes.splice` replaces a stretch of a byte string without moving the rest.
-/

namespace RowStore

/-- A byte string. -/
abbrev Bytes := List UInt8

namespace Bytes

/-- The greatest length of a byte string in memory: a length is a signed 64-bit word. -/
def maxLength : Nat := 9223372036854775807

/-- The `width` lowest bytes of `n`, most significant first. -/
def ofNat : (width n : Nat) → Bytes
  | 0, _ => []
  | width + 1, n => ofNat width (n / 256) ++ [UInt8.ofNat n]

/-- The number a byte string spells, most significant byte first. -/
def toNat (bytes : Bytes) : Nat :=
  bytes.foldl (fun value byte => value * 256 + byte.toNat) 0

/-- The four bytes of a signed word in two's complement. -/
def ofInt32 (n : Int32) : Bytes :=
  ofNat 4 n.toUInt32.toNat

/-- The signed word four bytes spell in two's complement. -/
def toInt32 (bytes : Bytes) : Int32 :=
  (UInt32.ofNat bytes.toNat).toInt32

/-- A byte string of `count` zeros. -/
def zeros (count : Nat) : Bytes :=
  List.replicate count 0

/-- `bytes` with the stretch that starts at `start` replaced by `piece`.  When the stretch lies
inside `bytes` the length is kept; a piece that reaches past the end makes the result longer. -/
def splice (bytes : Bytes) (start : Nat) (piece : Bytes) : Bytes :=
  bytes.take start ++ piece ++ bytes.drop (start + piece.length)

/-- The `count` bytes that start at `start`. -/
def slice (bytes : Bytes) (start count : Nat) : Bytes :=
  (bytes.drop start).take count

@[simp] theorem length_ofNat (width n : Nat) : (ofNat width n).length = width := by
  induction width generalizing n with
  | zero => rfl
  | succ width ih => simp [ofNat, ih]

@[simp] theorem length_ofInt32 (n : Int32) : (ofInt32 n).length = 4 := by
  simp [ofInt32]

@[simp] theorem length_zeros (count : Nat) : (zeros count).length = count := by
  simp [zeros]

/-- A splice inside the byte string keeps its length. -/
theorem length_splice {bytes piece : Bytes} {start : Nat}
    (h : start + piece.length ≤ bytes.length) :
    (bytes.splice start piece).length = bytes.length := by
  simp only [splice, List.length_append, List.length_take, List.length_drop]
  omega

end Bytes

end RowStore
