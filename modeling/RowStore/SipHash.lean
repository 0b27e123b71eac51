import RowStore.Bytes

/-!
# RowStore.SipHash: SipHash-1-3

The keyed hash SipHash with one round per eight-byte word and three rounds at the end.  Words are
read least significant byte first; the last word carries the bytes that are left over and, in its
top byte, the length of the input.
-/

namespace RowStore.SipHash

/-- The four words a hash in progress consists of. -/
structure State where
  v0 : UInt64
  v1 : UInt64
  v2 : UInt64
  v3 : UInt64
  deriving DecidableEq, Repr

/-- A word with its bits turned left. -/
def rotate (word : UInt64) (count : UInt64) : UInt64 :=
  (word <<< count) ||| (word >>> (64 - count))

/-- One round of mixing. -/
def State.round (s : State) : State :=
  let v0 := s.v0 + s.v1
  let v1 := rotate s.v1 13 ^^^ v0
  let v0 := rotate v0 32
  let v2 := s.v2 + s.v3
  let v3 := rotate s.v3 16 ^^^ v2
  let v0 := v0 + v3
  let v3 := rotate v3 21 ^^^ v0
  let v2 := v2 + v1
  let v1 := rotate v1 17 ^^^ v2
  let v2 := rotate v2 32
  { v0, v1, v2, v3 }

/-- The state before any input, under the two key words. -/
def State.start (k0 k1 : UInt64) : State where
  v0 := k0 ^^^ 0x736f6d6570736575
  v1 := k1 ^^^ 0x646f72616e646f6d
  v2 := k0 ^^^ 0x6c7967656e657261
  v3 := k1 ^^^ 0x7465646279746573

/-- The state after one more word. -/
def State.absorb (s : State) (word : UInt64) : State :=
  let mixed := State.round { s with v3 := s.v3 ^^^ word }
  { mixed with v0 := mixed.v0 ^^^ word }

/-- The word bytes spell, least significant first. -/
def wordOf (bytes : Bytes) : UInt64 :=
  UInt64.ofNat (Bytes.toNat bytes.reverse)

/-- The state after `count` whole words, and the bytes that are left over. -/
def State.absorbWords : (count : Nat) → State → Bytes → State × Bytes
  | 0, s, bytes => (s, bytes)
  | count + 1, s, bytes => absorbWords count (s.absorb (wordOf (bytes.take 8))) (bytes.drop 8)

/-- The hash of a byte string under the two key words. -/
def hash (k0 k1 : UInt64) (bytes : Bytes) : UInt64 :=
  let (s, rest) := (State.start k0 k1).absorbWords (bytes.length / 8) bytes
  let last := (UInt64.ofNat bytes.length <<< 56) ||| wordOf rest
  let s := s.absorb last
  let s := State.round { s with v2 := s.v2 ^^^ 0xff }
  let s := s.round.round
  s.v0 ^^^ s.v1 ^^^ s.v2 ^^^ s.v3

end RowStore.SipHash
