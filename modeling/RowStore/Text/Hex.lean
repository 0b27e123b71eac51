import RowStore.Bytes

/-!
# RowStore.Text.Hex: numbers and bytes in hexadecimal

`digits` writes a number in a fixed number of digits, `ofBytes` writes two digits per byte, and
both can be read back.
-/

namespace RowStore.Hex

/-- The last `width` hexadecimal digits of `n`, most significant first. -/
def digits : (width n : Nat) → List Char
  | 0, _ => []
  | width + 1, n => digits width (n / 16) ++ [Nat.digitChar (n % 16)]

/-- A number in `width` hexadecimal digits. -/
def ofNat (width n : Nat) : String :=
  String.ofList (digits width n)

/-- The value of a hexadecimal digit of either case. -/
def digit? (c : Char) : Option Nat :=
  if '0' ≤ c ∧ c ≤ '9' then some (c.toNat - '0'.toNat)
  else if 'a' ≤ c ∧ c ≤ 'f' then some (c.toNat - 'a'.toNat + 10)
  else if 'A' ≤ c ∧ c ≤ 'F' then some (c.toNat - 'A'.toNat + 10)
  else none

/-- The number hexadecimal digits spell. -/
def toNat? (s : String) : Option Nat :=
  s.toList.foldlM (fun n c => (digit? c).map (n * 16 + ·)) 0

/-- Bytes as two digits each. -/
def ofBytes (bytes : Bytes) : String :=
  String.ofList (bytes.flatMap fun byte => digits 2 byte.toNat)

/-- The bytes that pairs of digits spell. -/
def bytesOf : List Char → Option Bytes
  | [] => some []
  | [_] => none
  | a :: b :: rest =>
    match digit? a, digit? b, bytesOf rest with
    | some x, some y, some bytes => some (UInt8.ofNat (x * 16 + y) :: bytes)
    | _, _, _ => none

/-- The bytes a text of two digits each spells. -/
def toBytes? (s : String) : Option Bytes :=
  bytesOf s.toList

end RowStore.Hex
