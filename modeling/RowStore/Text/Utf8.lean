import RowStore.Bytes

/-!
# RowStore.Text.Utf8: text as UTF-8, with the exact place of a fault

`encode` writes characters as bytes and `decode` reads them back.  `decode` goes through the
bytes once and carries the character in progress (`Pending`), so when it refuses it can say where
the first bad character starts and how many of its bytes were still good.  `fit` keeps the
longest run of whole characters that occupies at most a given number of bytes.
-/

namespace RowStore.Utf8

/-- How a byte string stops being UTF-8: at a byte no character can have there, after `width`
bytes that could have begun one, or because it ends inside a character. -/
inductive Fault where
  | invalid (width : Nat)
  | incomplete
  deriving DecidableEq, Repr

/-- A fault and the index of the first byte of the character it is in. -/
structure Failure where
  position : Nat
  fault : Fault
  deriving DecidableEq, Repr

/-- The text of a failure. -/
def Failure.message (failure : Failure) : String :=
  match failure.fault with
  | .invalid width =>
    s!"invalid utf-8 sequence of {width} bytes from index {failure.position}"
  | .incomplete => s!"incomplete utf-8 byte sequence from index {failure.position}"

/-- A character of which `seen` bytes are read and `more` are missing.  The next byte has to lie
between `low` and `high`. -/
structure Pending where
  value : Nat
  seen : Nat
  more : Nat
  low : Nat := 0x80
  high : Nat := 0xBF
  deriving DecidableEq, Repr

/-- The character a leading byte opens.  The narrower bounds after `E0`, `ED`, `F0` and `F4` rule
out overlong forms, surrogates and values above `10FFFF`. -/
def Pending.open? (byte : UInt8) : Option Pending :=
  let b := byte.toNat
  if b < 0x80 then some { value := b, seen := 1, more := 0 }
  else if b < 0xC2 then none
  else if b < 0xE0 then some { value := b - 0xC0, seen := 1, more := 1 }
  else if b = 0xE0 then some { value := 0, seen := 1, more := 2, low := 0xA0 }
  else if b = 0xED then some { value := 0xD, seen := 1, more := 2, high := 0x9F }
  else if b < 0xF0 then some { value := b - 0xE0, seen := 1, more := 2 }
  else if b = 0xF0 then some { value := 0, seen := 1, more := 3, low := 0x90 }
  else if b < 0xF4 then some { value := b - 0xF0, seen := 1, more := 3 }
  else if b = 0xF4 then some { value := 4, seen := 1, more := 3, high := 0x8F }
  else none

/-- The character in progress after one more byte, when that byte is allowed there. -/
def Pending.push? (pending : Pending) (byte : UInt8) : Option Pending :=
  if pending.low ≤ byte.toNat ∧ byte.toNat ≤ pending.high then
    some {
      value := pending.value * 64 + (byte.toNat - 0x80)
      seen := pending.seen + 1
      more := pending.more - 1 }
  else
    none

/-- Reads characters from bytes.  `position` is the index at which the character in progress, or
else the next one, starts. -/
def decodeFrom : Option Pending → (position : Nat) → Bytes → Except Failure (List Char)
  | none, _, [] => .ok []
  | some _, position, [] => .error ⟨position, .incomplete⟩
  | none, position, byte :: rest =>
    match Pending.open? byte with
    | none => .error ⟨position, .invalid 1⟩
    | some pending =>
      if pending.more = 0 then
        (decodeFrom none (position + pending.seen) rest).map (Char.ofNat pending.value :: ·)
      else
        decodeFrom (some pending) position rest
  | some pending, position, byte :: rest =>
    match pending.push? byte with
    | none => .error ⟨position, .invalid pending.seen⟩
    | some pending =>
      if pending.more = 0 then
        (decodeFrom none (position + pending.seen) rest).map (Char.ofNat pending.value :: ·)
      else
        decodeFrom (some pending) position rest

/-- The characters a byte string spells, or where it stops being UTF-8. -/
def decode (bytes : Bytes) : Except Failure (List Char) :=
  decodeFrom none 0 bytes

/-- The bytes of characters, one after the other. -/
def encode (chars : List Char) : Bytes :=
  chars.flatMap String.utf8EncodeChar

/-- The longest run of leading characters that occupies at most `limit` bytes. -/
def fit : (limit : Nat) → List Char → List Char
  | _, [] => []
  | limit, c :: chars =>
    if c.utf8Size ≤ limit then c :: fit (limit - c.utf8Size) chars else []

@[simp] theorem encode_nil : encode [] = [] := rfl

@[simp] theorem encode_cons (c : Char) (chars : List Char) :
    encode (c :: chars) = String.utf8EncodeChar c ++ encode chars := rfl

/-- What `fit` keeps occupies at most `limit` bytes. -/
theorem length_encode_fit (limit : Nat) (chars : List Char) :
    (encode (fit limit chars)).length ≤ limit := by
  induction chars generalizing limit with
  | nil => simp [fit]
  | cons c chars ih =>
    by_cases h : c.utf8Size ≤ limit
    · have := ih (limit - c.utf8Size)
      simp only [fit, if_pos h, encode_cons, List.length_append, String.length_utf8EncodeChar]
      omega
    · simp [fit, h]

end RowStore.Utf8
