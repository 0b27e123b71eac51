import RowStore.Value

/-!
# RowStore.Value.Codec: stored form of one value

An integer is four bytes, big-endian.  Text is a four-byte length, that many bytes of UTF-8, and
zeros up to the column's limit; text that is too long is cut after the last whole character that
fits.  Reading hands back what it did not consume, also when it fails: nothing is consumed when
the bytes run short, only the length when the length is out of range, and the whole column when
the text is not UTF-8.
-/

namespace RowStore

/-- Why a value could not be written or read. -/
inductive CodecError where
  /-- Fewer bytes are available than the type occupies. -/
  | bufferTooSmall (required available : Nat)
  /-- The value is not of the column's kind. -/
  | typeMismatch (expected : ColumnType) (found : Value)
  /-- A stored length lies outside the column's range. -/
  | lengthOutOfRange (length : Int) (limit : Nat)
  /-- Stored text is not UTF-8. -/
  | notText (failure : Utf8.Failure)
  deriving DecidableEq, Repr

/-- The text of a codec error. -/
def CodecError.message : CodecError → String
  | .bufferTooSmall required available =>
    s!"buffer too small: need {required} bytes, have {available}"
  | .typeMismatch expected found =>
    "cannot store " ++ found.display ++ " in a column of type " ++ expected.text
  | .lengthOutOfRange length limit =>
    s!"invalid format: string length {length} outside 0..={limit}"
  | .notText failure => "invalid format: " ++ failure.message

namespace ColumnType

/-- The stored form of text in a column of at most `limit` bytes. -/
def encodeText (limit : Nat) (s : String) : Bytes :=
  let kept := Utf8.encode (Utf8.fit limit s.toList)
  Bytes.ofNat 4 kept.length ++ kept ++ Bytes.zeros (limit - kept.length)

/-- The stored form of a value in a column of this type. -/
def encode : ColumnType → Value → Except CodecError Bytes
  | .int, .int n => .ok (Bytes.ofInt32 n)
  | .varchar limit, .text s => .ok (encodeText limit s)
  | type, value => .error (.typeMismatch type value)

/-- The stored form of a value where only `room` bytes are left.  Room is checked first. -/
def encodeInto (type : ColumnType) (room : Nat) (value : Value) : Except CodecError Bytes :=
  if room < type.width then .error (.bufferTooSmall type.width room) else type.encode value

/-- Reads one value and hands back the bytes that were not consumed. -/
def decode (type : ColumnType) (input : Bytes) : Except CodecError Value × Bytes :=
  if input.length < type.width then
    (.error (.bufferTooSmall type.width input.length), input)
  else
    let word := Bytes.toInt32 (input.take 4)
    let body := input.drop 4
    match type with
    | .int => (.ok (.int word), body)
    | .varchar limit =>
      if word.toInt < 0 ∨ (limit : Int) < word.toInt then
        (.error (.lengthOutOfRange word.toInt limit), body)
      else
        match Utf8.decode (body.take word.toInt.toNat) with
        | .error failure => (.error (.notText failure), body.drop limit)
        | .ok chars => (.ok (.text (String.ofList chars)), body.drop limit)

/-- Stored text has the width of its column. -/
@[simp] theorem length_encodeText (limit : Nat) (s : String) :
    (encodeText limit s).length = 4 + limit := by
  have := Utf8.length_encode_fit limit s.toList
  simp only [encodeText, List.length_append, Bytes.length_ofNat, Bytes.length_zeros]
  omega

/-- A stored value has the width of its column. -/
theorem length_of_encode {type : ColumnType} {value : Value} {bytes : Bytes}
    (h : type.encode value = .ok bytes) : bytes.length = type.width := by
  cases type <;> cases value <;> simp [encode] at h <;> subst h <;> simp [width]

end ColumnType

end RowStore
