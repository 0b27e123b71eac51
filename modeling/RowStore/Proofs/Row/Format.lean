import RowStore.Proofs.Row

/-!
# RowStore.Proofs.Row.Format: what can be read as a row

The columns of a stored row start at fixed offsets (`ColumnType.EachColumn`).  Bytes are read as a
row exactly when every column holds a stored value of its type (`ColumnType.Stores`): any word for an
integer, and for text a length in range with that many bytes of valid UTF-8 behind it.  What lies
between the text and the end of its column, the padding, is skipped.  So a row that was read is
written again as it was but with zeros for padding, and rows are the same exactly when their bytes
are the same without padding (`ColumnType.significant`).

Reading goes forward only, and `ColumnType.read?` does it step by step so that it is seen when a step
reaches behind the last byte.  None does (`Row.read?_eq`), since the width of a column is checked
before any of it is read.
-/

namespace RowStore

namespace ColumnType

variable {type : ColumnType} {types : List ColumnType} {value : Value} {input rest a b : Bytes}

/-! ## One column -/

/-- The bytes of a column are a stored value of its type. -/
def Stores : ColumnType → Bytes → Prop
  | .int, _ => True
  | .varchar limit, bytes =>
    (0 ≤ storedLength bytes ∧ storedLength bytes ≤ limit) ∧
      ((bytes.drop 4).take (storedLength bytes).toNat).toByteArray.IsValidUTF8

/-- The bytes of a column without the padding of text. -/
def significant : ColumnType → Bytes → Bytes
  | .int, bytes => bytes
  | .varchar _, bytes => bytes.take (4 + (storedLength bytes).toNat)

/-- The bytes of a column with zeros for the padding of text. -/
def zeroPadded (type : ColumnType) (bytes : Bytes) : Bytes :=
  type.significant bytes ++ Bytes.zeros (type.width - (type.significant bytes).length)

theorem storedLength_take (limit : Nat) (input : Bytes) :
    storedLength (input.take (4 + limit)) = storedLength input := by
  unfold storedLength
  rw [List.take_take, Nat.min_eq_left (Nat.le_add_right 4 limit)]

theorem text_take {limit length : Nat} (h : length ≤ limit) (input : Bytes) :
    ((input.take (4 + limit)).drop 4).take length = (input.drop 4).take length := by
  rw [List.drop_take, List.take_take, Nat.min_eq_left (by omega)]

/-- A column is read when its bytes are there and are a stored value. -/
theorem decode_isOk_iff :
    (∃ value rest, type.decode input = (.ok value, rest)) ↔
      type.width ≤ input.length ∧ type.Stores (input.take type.width) := by
  cases type with
  | int => simp [decode_int_eq_ok_iff, width, Stores]
  | varchar limit =>
    simp only [decode_varchar_eq_ok_iff, width, Stores, storedLength_take]
    constructor
    · rintro ⟨value, rest, hroom, hrange, ⟨chars, hchars, -⟩, -⟩
      refine ⟨hroom, hrange, ?_⟩
      rw [text_take (by omega), ← hchars]
      exact ⟨chars, rfl⟩
    · rintro ⟨hroom, hrange, htext⟩
      rw [text_take (by omega)] at htext
      obtain ⟨chars, hchars⟩ := Utf8.decode_isOk_iff.mpr htext
      exact ⟨_, _, hroom, hrange, ⟨chars, Utf8.decode_eq_ok_iff.mp hchars, rfl⟩, rfl⟩

/-- A column that is read is consumed, and what was read is written with zeros for padding. -/
theorem encode_eq_zeroPadded (h : type.decode input = (.ok value, rest)) :
    rest = input.drop type.width ∧
      type.encode value = .ok (type.zeroPadded (input.take type.width)) := by
  cases type with
  | int =>
    obtain ⟨hroom, rfl, rfl⟩ := decode_int_eq_ok_iff.mp h
    have hlength : (input.take 4).length = 4 := by
      rw [List.length_take]
      omega
    refine ⟨rfl, ?_⟩
    simp [encode, zeroPadded, significant, width, Bytes.ofInt32_toInt32 hlength, Bytes.zeros, hroom]
  | varchar limit =>
    obtain ⟨hroom, hrange, ⟨chars, hchars, rfl⟩, rfl⟩ := decode_varchar_eq_ok_iff.mp h
    have hword : (input.take 4).length = 4 := by
      rw [List.length_take]
      omega
    have hlength : (Utf8.encode chars).length = (storedLength input).toNat := by
      rw [hchars, List.length_take, List.length_drop]
      omega
    have hfit : Utf8.fit limit chars = chars := Utf8.fit_eq_self (by omega)
    have hnumber : Bytes.ofNat 4 (storedLength input).toNat = input.take 4 := by
      rw [storedLength, Bytes.ofNat_toInt hrange.1, Bytes.ofInt32_toInt32 hword]
    have hfront : (input.take (4 + limit)).take (4 + (storedLength input).toNat) =
        input.take 4 ++ Utf8.encode chars := by
      rw [List.take_take, Nat.min_eq_left (by omega), List.take_add, hchars]
    refine ⟨rfl, ?_⟩
    simp only [encode, encodeText, String.toList_ofList, hfit, hlength, hnumber, zeroPadded,
      significant, width, storedLength_take, hfront, List.length_append, hword]
    congr 3
    omega

theorem take_zeroPadded {limit : Nat} (h : 4 ≤ a.length) :
    (zeroPadded (.varchar limit) a).take 4 = a.take 4 := by
  have hle : 4 ≤ (significant (.varchar limit) a).length := by
    rw [significant, List.length_take]
    omega
  rw [zeroPadded, List.take_append_of_le_length hle, significant, List.take_take,
    Nat.min_eq_left (Nat.le_add_right 4 _)]

/-- Columns are the same with zeros for padding when they are the same without padding. -/
theorem zeroPadded_eq_iff (ha : a.length = type.width) (hb : b.length = type.width) :
    type.zeroPadded a = type.zeroPadded b ↔ type.significant a = type.significant b := by
  constructor
  · intro h
    refine List.append_inj_left h ?_
    cases type with
    | int => exact ha.trans hb.symm
    | varchar limit =>
      rw [width] at ha hb
      have hword : a.take 4 = b.take 4 := by
        rw [← @take_zeroPadded a limit (by omega), h, take_zeroPadded (by omega)]
      have hsame : storedLength a = storedLength b := by rw [storedLength, hword, storedLength]
      rw [significant, significant, List.length_take, List.length_take, ha, hb, hsame]
  · intro h
    rw [zeroPadded, h, zeroPadded]

/-- Values are the same when their columns are the same without padding. -/
theorem value_eq_iff {value' : Value} {rest' : Bytes} (ha : type.decode a = (.ok value, rest))
    (hb : type.decode b = (.ok value', rest')) :
    value = value' ↔
      type.significant (a.take type.width) = type.significant (b.take type.width) := by
  obtain ⟨hroomA, -⟩ := decode_isOk_iff.mp ⟨_, _, ha⟩
  obtain ⟨hroomB, -⟩ := decode_isOk_iff.mp ⟨_, _, hb⟩
  obtain ⟨-, hencodeA⟩ := encode_eq_zeroPadded ha
  obtain ⟨-, hencodeB⟩ := encode_eq_zeroPadded hb
  rw [← zeroPadded_eq_iff (List.length_take_of_le hroomA) (List.length_take_of_le hroomB)]
  constructor
  · rintro rfl
    exact Except.ok.inj (hencodeA.symm.trans hencodeB)
  · intro h
    obtain ⟨bytes, hbytes, hreadA⟩ := encode_of_decode ha
    obtain ⟨bytes', hbytes', hreadB⟩ := encode_of_decode hb
    obtain rfl : bytes = bytes' := by
      rw [hencodeA, Except.ok.injEq] at hbytes
      rw [hencodeB, Except.ok.injEq] at hbytes'
      rw [← hbytes, h, hbytes']
    exact Except.ok.inj (Prod.mk.inj ((hreadA []).symm.trans (hreadB []))).1

/-! ## All columns -/

/-- Something holds of each column and the offset at which it starts, the widths of the columns
before it. -/
def EachColumn (types : List ColumnType) (holds : ColumnType → (start : Nat) → Prop) : Prop :=
  ∀ index type, types[index]? = some type → holds type (widths (types.take index))

theorem eachColumn_nil (holds : ColumnType → Nat → Prop) : EachColumn [] holds := by
  intro index type htype
  cases htype

theorem eachColumn_cons {holds : ColumnType → Nat → Prop} :
    EachColumn (type :: types) holds ↔
      holds type 0 ∧ EachColumn types fun other start => holds other (type.width + start) := by
  constructor
  · intro h
    exact ⟨h 0 type rfl, fun index other hother => h (index + 1) other hother⟩
  · rintro ⟨hfirst, hothers⟩ index other hother
    cases index with
    | zero =>
      obtain rfl : type = other := Option.some.inj hother
      exact hfirst
    | succ index => exact hothers index other hother

end ColumnType

open ColumnType

theorem decodeValues_isOk_iff : ∀ {types : List ColumnType} {input : Bytes},
    (∃ values rest, decodeValues types input = (.ok values, rest)) ↔
      widths types ≤ input.length ∧
        EachColumn types fun type start => type.Stores (input.slice start type.width)
  | [], input => iff_of_true ⟨[], input, rfl⟩ ⟨Nat.zero_le _, eachColumn_nil _⟩
  | type :: types, input => by
    have hothers := @decodeValues_isOk_iff types (input.drop type.width)
    simp only [Bytes.slice_drop, List.length_drop] at hothers
    rw [eachColumn_cons, widths, show input.slice 0 type.width = input.take type.width from rfl]
    constructor
    · rintro ⟨values, rest, h⟩
      obtain ⟨value, others, behind, hvalue, hvalues, -⟩ := decodeValues_cons_eq_ok h
      obtain ⟨hroom, hstores⟩ := decode_isOk_iff.mp ⟨_, _, hvalue⟩
      obtain ⟨rfl, -⟩ := encode_eq_zeroPadded hvalue
      obtain ⟨hrest, hall⟩ := hothers.mp ⟨_, _, hvalues⟩
      exact ⟨by omega, hstores, hall⟩
    · rintro ⟨hroom, hstores, hall⟩
      obtain ⟨value, behind, hvalue⟩ := decode_isOk_iff.mpr ⟨by omega, hstores⟩
      obtain ⟨rfl, -⟩ := encode_eq_zeroPadded hvalue
      obtain ⟨others, last, hvalues⟩ := hothers.mpr ⟨by omega, hall⟩
      refine ⟨value :: others, last, ?_⟩
      rw [decodeValues, hvalue]
      dsimp only
      rw [hvalues]

/-- Values that are read are consumed, and written again with zeros for padding. -/
theorem encodeValues_of_read : ∀ {types : List ColumnType} {values : List Value}
    {input rest : Bytes}, decodeValues types input = (.ok values, rest) →
      rest = input.drop (widths types) ∧
        ∃ bytes, encodeValues types values = .ok bytes ∧ bytes.length = widths types ∧
          EachColumn types fun type start =>
            bytes.slice start type.width = type.zeroPadded (input.slice start type.width)
  | [], values, input, rest, h => by
    obtain ⟨hvalues, rfl⟩ := Prod.mk.inj h
    obtain rfl : [] = values := Except.ok.inj hvalues
    exact ⟨rfl, [], rfl, rfl, eachColumn_nil _⟩
  | type :: types, values, input, rest, h => by
    obtain ⟨value, others, behind, hvalue, hvalues, rfl⟩ := decodeValues_cons_eq_ok h
    obtain ⟨rfl, hhead⟩ := encode_eq_zeroPadded hvalue
    obtain ⟨rfl, tail, htail, hlength, hall⟩ := encodeValues_of_read hvalues
    have hwidth := length_of_encode hhead
    refine ⟨by rw [List.drop_drop, widths], _, by rw [encodeValues, hhead, htail], ?_, ?_⟩
    · rw [List.length_append, hwidth, hlength, widths]
    · rw [eachColumn_cons]
      refine ⟨List.take_left' hwidth, fun index other hother => ?_⟩
      dsimp only
      rw [← Bytes.slice_drop, ← Bytes.slice_drop, List.drop_left' hwidth]
      exact hall index other hother

/-- Values are the same when their columns are the same without padding. -/
theorem values_eq_iff : ∀ {types : List ColumnType} {values values' : List Value}
    {a b rest rest' : Bytes}, decodeValues types a = (.ok values, rest) →
      decodeValues types b = (.ok values', rest') →
        (values = values' ↔ EachColumn types fun type start =>
          type.significant (a.slice start type.width) =
            type.significant (b.slice start type.width))
  | [], values, values', a, b, rest, rest', ha, hb => by
    obtain rfl : [] = values := Except.ok.inj (Prod.mk.inj ha).1
    obtain rfl : [] = values' := Except.ok.inj (Prod.mk.inj hb).1
    exact iff_of_true rfl (eachColumn_nil _)
  | type :: types, values, values', a, b, rest, rest', ha, hb => by
    obtain ⟨value, others, behind, hvalue, hvalues, rfl⟩ := decodeValues_cons_eq_ok ha
    obtain ⟨value', others', behind', hvalue', hvalues', rfl⟩ := decodeValues_cons_eq_ok hb
    have hfirst := value_eq_iff hvalue hvalue'
    obtain ⟨rfl, -⟩ := encode_eq_zeroPadded hvalue
    obtain ⟨rfl, -⟩ := encode_eq_zeroPadded hvalue'
    have hothers := values_eq_iff hvalues hvalues'
    simp only [Bytes.slice_drop] at hothers
    rw [List.cons.injEq, eachColumn_cons, hfirst, hothers]
    rfl

/-! ## Reading forward -/

/-- The first bytes and those behind them, if there are as many. -/
def Bytes.split? (count : Nat) (bytes : Bytes) : Option (Bytes × Bytes) :=
  if count ≤ bytes.length then some (bytes.take count, bytes.drop count) else none

theorem Bytes.split?_eq {count : Nat} {bytes : Bytes} (h : count ≤ bytes.length) :
    bytes.split? count = some (bytes.take count, bytes.drop count) :=
  if_pos h

/-- Reads one value step by step.  There is nothing when a step reaches behind the last byte. -/
def ColumnType.read? (type : ColumnType) (input : Bytes) :
    Option (Except CodecError Value × Bytes) :=
  if input.length < type.width then
    some (.error (.bufferTooSmall type.width input.length), input)
  else
    (input.split? 4).bind fun (word, body) =>
      let word := Bytes.toInt32 word
      match type with
      | .int => some (.ok (.int word), body)
      | .varchar limit =>
        if word.toInt < 0 ∨ (limit : Int) < word.toInt then
          some (.error (.lengthOutOfRange word.toInt limit), body)
        else
          (Bytes.split? word.toInt.toNat body).bind fun (text, behind) =>
            (Bytes.split? (limit - word.toInt.toNat) behind).map fun (_, rest) =>
              match Utf8.decode text with
              | .error failure => (.error (.notText failure), rest)
              | .ok chars => (.ok (.text (String.ofList chars)), rest)

/-- Reads one value per column step by step. -/
def readValues? : List ColumnType → Bytes → Option (Except CodecError (List Value) × Bytes)
  | [], input => some (.ok [], input)
  | type :: types, input =>
    match type.read? input with
    | none => none
    | some (.error e, rest) => some (.error e, rest)
    | some (.ok value, rest) =>
      match readValues? types rest with
      | none => none
      | some (.error e, rest) => some (.error e, rest)
      | some (.ok values, rest) => some (.ok (value :: values), rest)

/-- Reads a row step by step. -/
def Row.read? (schema : Schema) (input : Bytes) : Option (Except CodecError Row × Bytes) :=
  match readValues? schema.types input with
  | none => none
  | some (.error e, rest) => some (.error e, rest)
  | some (.ok values, rest) => some (.ok { schema, values }, rest)

theorem ColumnType.read?_eq (type : ColumnType) (input : Bytes) :
    type.read? input = some (type.decode input) := by
  unfold ColumnType.read? ColumnType.decode
  by_cases hroom : input.length < type.width
  · rw [if_pos hroom, if_pos hroom]
  rw [if_neg hroom, if_neg hroom]
  cases type with
  | int =>
    rw [width] at hroom
    rw [Bytes.split?_eq (by omega)]
    rfl
  | varchar limit =>
    rw [width] at hroom
    rw [Bytes.split?_eq (by omega)]
    dsimp only [Option.bind_some]
    by_cases hrange : (Bytes.toInt32 (input.take 4)).toInt < 0 ∨
        (limit : Int) < (Bytes.toInt32 (input.take 4)).toInt
    · rw [if_pos hrange, if_pos hrange]
    rw [if_neg hrange, if_neg hrange, Bytes.split?_eq (by rw [List.length_drop]; omega)]
    dsimp only [Option.bind_some]
    rw [Bytes.split?_eq (by rw [List.length_drop, List.length_drop]; omega), Option.map_some,
      List.drop_drop, List.drop_drop, List.drop_drop]
    dsimp only
    have hwhole : 4 + (Bytes.toInt32 (input.take 4)).toInt.toNat +
        (limit - (Bytes.toInt32 (input.take 4)).toInt.toNat) = 4 + limit := by omega
    cases Utf8.decode ((input.drop 4).take (Bytes.toInt32 (input.take 4)).toInt.toNat) <;>
      rw [hwhole]

theorem readValues?_eq : ∀ (types : List ColumnType) (input : Bytes),
    readValues? types input = some (decodeValues types input)
  | [], _ => rfl
  | type :: types, input => by
    rw [readValues?, type.read?_eq, decodeValues]
    rcases type.decode input with ⟨e | value, rest⟩
    · rfl
    · dsimp only
      rw [readValues?_eq types rest]
      rcases decodeValues types rest with ⟨e | values, last⟩ <;> rfl

/-- No step of reading a row reaches behind the last byte. -/
theorem Row.read?_eq (schema : Schema) (input : Bytes) :
    Row.read? schema input = some (Row.decode schema input) := by
  rw [Row.read?, readValues?_eq, Row.decode]
  rcases decodeValues schema.types input with ⟨e | values, rest⟩ <;> rfl

/-! ## Rows -/

namespace Row

theorem decode_eq_ok_iff {schema : Schema} {input rest : Bytes} {row : Row} :
    decode schema input = (.ok row, rest) ↔
      ∃ values, decodeValues schema.types input = (.ok values, rest) ∧ row = { schema, values } := by
  unfold decode
  rcases decodeValues schema.types input with ⟨e | values, last⟩ <;> simp [eq_comm, and_comm]

/-- For every schema and all bytes: a row is read exactly when there are as many bytes as a row has
and each column, at its offset, is a stored value; the bytes of one row are consumed then, and the
row is written again as it was but with zeros for padding; rows are the same exactly when their
bytes are the same without padding; and no step of reading reaches behind the last byte. -/
theorem decodes_format (schema : Schema) :
    (∀ input, (∃ row, (decode schema input).1 = .ok row) ↔
      schema.width ≤ input.length ∧
        EachColumn schema.types fun type start => type.Stores (input.slice start type.width)) ∧
    (∀ input row rest, decode schema input = (.ok row, rest) →
      rest = input.drop schema.width ∧
        ∃ bytes, bytes.length = schema.width ∧
          (∀ room, schema.width ≤ room → row.encodeInto room = (bytes, .ok ())) ∧
          EachColumn schema.types fun type start =>
            bytes.slice start type.width = type.zeroPadded (input.slice start type.width)) ∧
    (∀ a b row row', (decode schema a).1 = .ok row → (decode schema b).1 = .ok row' →
      (row = row' ↔ EachColumn schema.types fun type start =>
        type.significant (a.slice start type.width) =
          type.significant (b.slice start type.width))) ∧
    ∀ input, read? schema input = some (decode schema input) := by
  refine ⟨fun input => ?_, fun input row rest h => ?_, fun a b row row' ha hb => ?_,
    read?_eq schema⟩
  · refine Iff.trans ?_ (@decodeValues_isOk_iff schema.types input)
    constructor
    · rintro ⟨row, hrow⟩
      obtain ⟨values, hvalues, -⟩ := decode_eq_ok_iff.mp (Prod.ext hrow rfl)
      exact ⟨values, _, hvalues⟩
    · rintro ⟨values, rest, hvalues⟩
      exact ⟨_, congrArg Prod.fst (decode_eq_ok_iff.mpr ⟨values, hvalues, rfl⟩)⟩
  · obtain ⟨values, hvalues, rfl⟩ := decode_eq_ok_iff.mp h
    obtain ⟨hrest, bytes, hbytes, hlength, hcolumns⟩ := encodeValues_of_read hvalues
    exact ⟨hrest, bytes, hlength, fun room hroom => encodeValuesInto_eq hbytes hroom, hcolumns⟩
  · obtain ⟨values, hvalues, rfl⟩ := decode_eq_ok_iff.mp (Prod.ext ha rfl)
    obtain ⟨values', hvalues', rfl⟩ := decode_eq_ok_iff.mp (Prod.ext hb rfl)
    rw [← values_eq_iff hvalues hvalues', Row.mk.injEq]
    simp

/-- A text of one character of two bytes, with one byte of padding, is read and written again with
zero for that byte. -/
theorem decodes_format_padding :
    let schema : Schema := ⟨[⟨.varchar 3, none⟩, ⟨.int, none⟩], by decide⟩
    let input : Bytes := [0, 0, 0, 2, 0xC3, 0xA9, 0x7F, 0, 0, 0, 5, 0xFF]
    let row : Row := ⟨schema, [.text "é", .int 5], none⟩
    decode schema input = (.ok row, [0xFF]) ∧
      (EachColumn schema.types fun type start => type.Stores (input.slice start type.width)) ∧
      ∃ bytes, row.encodeInto 11 = (bytes, .ok ()) ∧ bytes[6]? = some 0 ∧
        EachColumn schema.types fun type start =>
          bytes.slice start type.width = type.zeroPadded (input.slice start type.width) := by
  intro schema input row
  have hread : decode schema input = (.ok row, [0xFF]) := by decide +kernel
  obtain ⟨hformat, hwritten, -, -⟩ := decodes_format schema
  obtain ⟨-, hstores⟩ := (hformat input).mp ⟨row, congrArg Prod.fst hread⟩
  obtain ⟨-, bytes, -, hbytes, hcolumns⟩ := hwritten input row _ hread
  have hinto := hbytes 11 (by decide)
  refine ⟨hread, hstores, bytes, hinto, ?_, hcolumns⟩
  have hsixth : (row.encodeInto 11).1[6]? = some 0 := by decide +kernel
  rwa [hinto] at hsixth

end Row

end RowStore
