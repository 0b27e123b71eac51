import RowStore.Proofs.Bytes
import RowStore.Proofs.Text.Utf8
import RowStore.Row

/-!
# RowStore.Proofs.Row: rows read back

A column keeps an integer as it is and text as far as it fits (`ColumnType.keep`).  The stored form
of a value reads back as what the column keeps, in front of any other bytes
(`ColumnType.decode_append`), and so does the stored form of a row (`Row.decode_of_encode`).  The
length of text is stored in a signed word, so this holds of columns whose limit such a word can
hold (`ColumnType.Addressable`), and under any limit of values that were read from a file before
(`Row.storesAs_of_decode`).  A row that is well-typed has a stored form (`exists_encodeValues`), and
that is what is written where there is room for it (`encodeValuesInto_eq`); no more is written than
there is room for (`length_encodeValuesInto_le`).
-/

namespace RowStore

namespace ColumnType

/-- The value a column of this type keeps: text is cut after the last whole character that fits. -/
def keep : ColumnType → Value → Value
  | .varchar limit, .text s => .text (String.ofList (Utf8.fit limit s.toList))
  | _, value => value

/-- Every length the column allows can be stored. -/
def Addressable : ColumnType → Prop
  | .int => True
  | .varchar limit => limit ≤ 2147483647

instance (type : ColumnType) : Decidable type.Addressable := by
  cases type <;> unfold Addressable <;> infer_instance

/-- The stored form of text reads back as the text that was kept, when its length can be stored. -/
theorem decode_encodeText {limit : Nat} {s : String}
    (hlength : (Utf8.encode (Utf8.fit limit s.toList)).length ≤ 2147483647) (rest : Bytes) :
    decode (.varchar limit) (encodeText limit s ++ rest) =
      (.ok (.text (String.ofList (Utf8.fit limit s.toList))), rest) := by
  have hroom : ¬ (encodeText limit s ++ rest).length < (varchar limit).width := by
    rw [List.length_append, length_encodeText, width]
    omega
  rw [decode, if_neg hroom]
  unfold encodeText
  have hkept := Utf8.length_encode_fit limit s.toList
  generalize hbytes : Utf8.encode (Utf8.fit limit s.toList) = kept at hkept hlength ⊢
  have hlen : (Bytes.ofNat 4 kept.length).length = 4 := Bytes.length_ofNat 4 kept.length
  have hword : ((Bytes.ofNat 4 kept.length ++ kept ++ Bytes.zeros (limit - kept.length) ++
      rest).take 4) = Bytes.ofNat 4 kept.length := by
    rw [List.append_assoc, List.append_assoc, List.take_left' hlen]
  have hbody : ((Bytes.ofNat 4 kept.length ++ kept ++ Bytes.zeros (limit - kept.length) ++
      rest).drop 4) = kept ++ (Bytes.zeros (limit - kept.length) ++ rest) := by
    rw [List.append_assoc, List.append_assoc, List.drop_left' hlen]
  have hrest : (kept ++ (Bytes.zeros (limit - kept.length) ++ rest)).drop limit = rest := by
    rw [← List.append_assoc]
    refine List.drop_left' ?_
    rw [List.length_append, Bytes.length_zeros]
    omega
  dsimp only
  rw [hword, hbody, hrest, Bytes.toInt_toInt32_ofNat (by omega), if_neg (by omega),
    Int.toNat_natCast, List.take_left' rfl, ← hbytes, Utf8.decode_encode]

/-- A stored value reads back as what its column keeps, and nothing else is consumed. -/
theorem decode_append {type : ColumnType} {value : Value} {bytes : Bytes}
    (htype : type.Addressable) (h : type.encode value = .ok bytes) (rest : Bytes) :
    type.decode (bytes ++ rest) = (.ok (type.keep value), rest) := by
  cases type with
  | int =>
    cases value with
    | text s => cases h
    | int n =>
      obtain rfl : Bytes.ofInt32 n = bytes := Except.ok.inj h
      have hlen : (Bytes.ofInt32 n).length = 4 := Bytes.length_ofInt32 n
      have hroom : ¬ (Bytes.ofInt32 n ++ rest).length < int.width := by
        rw [List.length_append, hlen, width]
        omega
      rw [decode, if_neg hroom]
      dsimp only
      rw [List.take_left' hlen, List.drop_left' hlen, Bytes.toInt32_ofInt32]
      rfl
  | varchar limit =>
    cases value with
    | int n => cases h
    | text s =>
      obtain rfl : encodeText limit s = bytes := Except.ok.inj h
      have hkept := Utf8.length_encode_fit limit s.toList
      have hlimit : limit ≤ 2147483647 := htype
      exact decode_encodeText (by omega) rest

/-- Only values that the column accepts have a stored form. -/
theorem accepts_of_encode {type : ColumnType} {value : Value} {bytes : Bytes}
    (h : type.encode value = .ok bytes) : type.accepts value = true := by
  cases type <;> cases value <;> simp_all [encode, accepts]

/-- A value that a column accepts has a stored form. -/
theorem exists_encode {type : ColumnType} {value : Value} (h : type.accepts value = true) :
    ∃ bytes, type.encode value = .ok bytes := by
  cases type with
  | int =>
    cases value with
    | int n => exact ⟨_, rfl⟩
    | text s => cases h
  | varchar limit =>
    cases value with
    | int n => cases h
    | text s => exact ⟨_, rfl⟩

/-- The length that is told in front of stored text. -/
def storedLength (bytes : Bytes) : Int :=
  (Bytes.toInt32 (bytes.take 4)).toInt

theorem decode_int_eq_ok_iff {value : Value} {input rest : Bytes} :
    decode .int input = (.ok value, rest) ↔
      4 ≤ input.length ∧ value = .int (Bytes.toInt32 (input.take 4)) ∧ rest = input.drop 4 := by
  unfold decode
  by_cases hroom : input.length < int.width
  · have hshort : ¬ 4 ≤ input.length := Nat.not_le.mpr hroom
    simp [if_pos hroom, hshort]
  · have hlong : 4 ≤ input.length := Nat.not_lt.mp hroom
    simp [if_neg hroom, hlong, eq_comm]

/-- Text is read when its length is in range and its bytes are those of characters. -/
theorem decode_varchar_eq_ok_iff {limit : Nat} {value : Value} {input rest : Bytes} :
    decode (.varchar limit) input = (.ok value, rest) ↔
      4 + limit ≤ input.length ∧ (0 ≤ storedLength input ∧ storedLength input ≤ limit) ∧
        (∃ chars, Utf8.encode chars = (input.drop 4).take (storedLength input).toNat ∧
          value = .text (String.ofList chars)) ∧
        rest = input.drop (4 + limit) := by
  unfold decode storedLength
  by_cases hroom : input.length < (varchar limit).width
  · have hshort : ¬ 4 + limit ≤ input.length := Nat.not_le.mpr hroom
    simp [if_pos hroom, hshort]
  have hlong : 4 + limit ≤ input.length := Nat.not_lt.mp hroom
  rw [if_neg hroom]
  dsimp only
  generalize (Bytes.toInt32 (input.take 4)).toInt = length
  by_cases hrange : length < 0 ∨ (limit : Int) < length
  · have hout : ¬ (0 ≤ length ∧ length ≤ limit) := by omega
    simp [if_pos hrange, hout]
  have hin : 0 ≤ length ∧ length ≤ limit := by omega
  rw [if_neg hrange]
  simp only [← Utf8.decode_eq_ok_iff]
  cases hchars : Utf8.decode ((input.drop 4).take length.toNat) with
  | error failure => simp
  | ok chars => simp [hlong, hin, List.drop_drop, eq_comm]

/-- A value that was read is stored so that it reads back as it is, whatever the limit of its
column. -/
theorem encode_of_decode {type : ColumnType} {value : Value} {input rest : Bytes}
    (h : type.decode input = (.ok value, rest)) :
    ∃ bytes, type.encode value = .ok bytes ∧
      ∀ other, type.decode (bytes ++ other) = (.ok value, other) := by
  cases type with
  | int =>
    obtain ⟨-, rfl, -⟩ := decode_int_eq_ok_iff.mp h
    exact ⟨_, rfl, fun other => @decode_append .int (.int _) _ trivial rfl other⟩
  | varchar limit =>
    obtain ⟨-, hrange, ⟨chars, hchars, rfl⟩, -⟩ := decode_varchar_eq_ok_iff.mp h
    -- the text was as long as its stored length says, so it fits and its length can be stored
    have hword := (Bytes.toInt32 (input.take 4)).toInt_lt
    have hlength := congrArg List.length hchars
    rw [List.length_take] at hlength
    unfold storedLength at hrange hlength
    have hfit : Utf8.fit limit chars = chars := Utf8.fit_eq_self (by omega)
    refine ⟨_, rfl, fun other => ?_⟩
    rw [decode_encodeText, String.toList_ofList, hfit]
    rw [String.toList_ofList, hfit]
    omega

end ColumnType

/-- Values are stored column by column. -/
theorem encodeValues_cons_eq_ok {type : ColumnType} {types : List ColumnType} {value : Value}
    {values : List Value} {bytes : Bytes}
    (h : encodeValues (type :: types) (value :: values) = .ok bytes) :
    ∃ head tail, type.encode value = .ok head ∧ encodeValues types values = .ok tail ∧
      bytes = head ++ tail := by
  rw [encodeValues] at h
  cases hhead : type.encode value with
  | error e => simp [hhead] at h
  | ok head =>
    cases htail : encodeValues types values with
    | error e => simp [hhead, htail] at h
    | ok tail => exact ⟨head, tail, rfl, rfl, by simpa [hhead, htail, eq_comm] using h⟩

theorem length_encodeValues : ∀ {types : List ColumnType} {values : List Value} {bytes : Bytes},
    values.length = types.length → encodeValues types values = .ok bytes →
      bytes.length = ColumnType.widths types
  | [], [], _, _, h => by
    cases h
    rfl
  | type :: types, value :: values, bytes, hlen, h => by
    obtain ⟨head, tail, hhead, htail, rfl⟩ := encodeValues_cons_eq_ok h
    rw [List.length_append, ColumnType.length_of_encode hhead,
      length_encodeValues (Nat.succ.inj hlen) htail, ColumnType.widths]

theorem length_encodeValues_le : ∀ {types : List ColumnType} {values : List Value} {bytes : Bytes},
    encodeValues types values = .ok bytes → bytes.length ≤ ColumnType.widths types
  | [], _, _, h => by
    cases h
    simp
  | _ :: _, [], _, h => by
    cases h
    simp
  | type :: types, value :: values, bytes, h => by
    obtain ⟨head, tail, hhead, htail, rfl⟩ := encodeValues_cons_eq_ok h
    rw [List.length_append, ColumnType.length_of_encode hhead, ColumnType.widths]
    exact Nat.add_le_add_left (length_encodeValues_le htail) _

/-- Values that their columns accept have a stored form. -/
theorem exists_encodeValues : ∀ {types : List ColumnType} {values : List Value},
    (∀ pair ∈ types.zip values, pair.1.accepts pair.2 = true) →
      ∃ bytes, encodeValues types values = .ok bytes
  | [], _, _ => ⟨[], rfl⟩
  | _ :: _, [], _ => ⟨[], rfl⟩
  | type :: types, value :: values, h => by
    obtain ⟨head, hhead⟩ := ColumnType.exists_encode (h (type, value) (by simp))
    obtain ⟨tail, htail⟩ := @exists_encodeValues types values fun pair hpair =>
      h pair (by simp [hpair])
    exact ⟨head ++ tail, by rw [encodeValues, hhead, htail]⟩

/-- Where there is room for all columns, values are written as they are stored. -/
theorem encodeValuesInto_eq : ∀ {types : List ColumnType} {values : List Value} {bytes : Bytes}
    {room : Nat}, encodeValues types values = .ok bytes → ColumnType.widths types ≤ room →
      encodeValuesInto room types values = (bytes, .ok ())
  | [], _, _, _, h, _ => by
    cases h
    rfl
  | _ :: _, [], _, _, h, _ => by
    cases h
    rfl
  | type :: types, value :: values, bytes, room, h, hroom => by
    obtain ⟨head, tail, hhead, htail, rfl⟩ := encodeValues_cons_eq_ok h
    rw [ColumnType.widths] at hroom
    have hlength := ColumnType.length_of_encode hhead
    have hfirst : type.encodeInto room value = .ok head := by
      rw [ColumnType.encodeInto, if_neg (by omega), hhead]
    have hrest := @encodeValuesInto_eq types values tail (room - head.length) htail (by omega)
    rw [encodeValuesInto, hfirst]
    dsimp only
    rw [hrest]

/-- Where only `room` bytes are left, no more than those are written. -/
theorem length_encodeValuesInto_le : ∀ (room : Nat) (types : List ColumnType)
    (values : List Value), (encodeValuesInto room types values).1.length ≤ room
  | room, [], _ => by simp [encodeValuesInto]
  | room, _ :: _, [] => by simp [encodeValuesInto]
  | room, type :: types, value :: values => by
    rw [encodeValuesInto]
    cases hhead : type.encodeInto room value with
    | error e => exact Nat.zero_le room
    | ok head =>
      have hle : head.length ≤ room := by
        unfold ColumnType.encodeInto at hhead
        split_ifs at hhead with hroom
        rw [ColumnType.length_of_encode hhead]
        omega
      have hrest := length_encodeValuesInto_le (room - head.length) types values
      dsimp only
      rw [List.length_append]
      omega

/-- Stored values read back as what their columns keep, and nothing else is consumed. -/
theorem decodeValues_append : ∀ {types : List ColumnType} {values : List Value} {bytes : Bytes},
    (∀ type ∈ types, type.Addressable) → values.length = types.length →
      encodeValues types values = .ok bytes → ∀ rest,
        decodeValues types (bytes ++ rest) =
          (.ok (List.zipWith ColumnType.keep types values), rest)
  | [], [], _, _, _, h, rest => by
    cases h
    rfl
  | type :: types, value :: values, bytes, htypes, hlen, h, rest => by
    obtain ⟨head, tail, hhead, htail, rfl⟩ := encodeValues_cons_eq_ok h
    have hfirst := ColumnType.decode_append (htypes type List.mem_cons_self) hhead (tail ++ rest)
    have hothers := decodeValues_append (fun t ht => htypes t (List.mem_cons_of_mem _ ht))
      (Nat.succ.inj hlen) htail rest
    rw [List.append_assoc, decodeValues, hfirst]
    dsimp only
    rw [hothers]
    rfl

theorem decodeValues_cons_eq_ok {type : ColumnType} {types : List ColumnType} {values : List Value}
    {input rest : Bytes} (h : decodeValues (type :: types) input = (.ok values, rest)) :
    ∃ value others behind, type.decode input = (.ok value, behind) ∧
      decodeValues types behind = (.ok others, rest) ∧ values = value :: others := by
  rw [decodeValues] at h
  rcases hvalue : type.decode input with ⟨e | value, behind⟩
  · simp [hvalue] at h
  rw [hvalue] at h
  dsimp only at h
  rcases hvalues : decodeValues types behind with ⟨e | others, last⟩
  · simp [hvalues] at h
  rw [hvalues] at h
  obtain ⟨hok, rfl⟩ := Prod.mk.inj h
  exact ⟨value, others, behind, rfl, hvalues, (Except.ok.inj hok).symm⟩

/-- Values that were read are stored so that they read back as they are. -/
theorem encodeValues_of_decodeValues : ∀ {types : List ColumnType} {values : List Value}
    {input rest : Bytes}, decodeValues types input = (.ok values, rest) →
      ∃ bytes, encodeValues types values = .ok bytes ∧ bytes.length = ColumnType.widths types ∧
        ∀ other, decodeValues types (bytes ++ other) = (.ok values, other)
  | [], values, input, rest, h => by
    obtain rfl : [] = values := Except.ok.inj (Prod.mk.inj h).1
    exact ⟨[], rfl, rfl, fun _ => rfl⟩
  | type :: types, values, input, rest, h => by
    obtain ⟨value, others, behind, hvalue, hvalues, rfl⟩ := decodeValues_cons_eq_ok h
    obtain ⟨head, hhead, hreadHead⟩ := ColumnType.encode_of_decode hvalue
    obtain ⟨tail, htail, hlength, hreadTail⟩ := encodeValues_of_decodeValues hvalues
    refine ⟨head ++ tail, by simp [encodeValues, hhead, htail], ?_, fun other => ?_⟩
    · rw [List.length_append, ColumnType.length_of_encode hhead, hlength, ColumnType.widths]
    · rw [List.append_assoc, decodeValues, hreadHead]
      dsimp only
      rw [hreadTail]

/-- There is a value for each column, and the column accepts it. -/
theorem accepts_of_decodeValues : ∀ {types : List ColumnType} {values : List Value}
    {input rest : Bytes}, decodeValues types input = (.ok values, rest) →
      values.length = types.length ∧ ∀ pair ∈ types.zip values, pair.1.accepts pair.2 = true
  | [], values, input, rest, h => by
    obtain rfl : [] = values := Except.ok.inj (Prod.mk.inj h).1
    exact ⟨rfl, fun pair hpair => absurd hpair List.not_mem_nil⟩
  | type :: types, values, input, rest, h => by
    obtain ⟨value, others, behind, hvalue, hvalues, rfl⟩ := decodeValues_cons_eq_ok h
    obtain ⟨bytes, hbytes, -⟩ := ColumnType.encode_of_decode hvalue
    obtain ⟨hlength, haccepts⟩ := accepts_of_decodeValues hvalues
    refine ⟨congrArg Nat.succ hlength, fun pair hpair => ?_⟩
    rw [List.zip_cons_cons] at hpair
    rcases List.mem_cons.mp hpair with rfl | hpair
    · exact ColumnType.accepts_of_encode hbytes
    · exact haccepts pair hpair

namespace Row

theorem WellTyped.length_values {row : Row} (h : row.WellTyped) :
    row.values.length = row.schema.types.length := by
  rw [h.1, Schema.size, Schema.types, List.length_map]

/-- The row as a table with this schema keeps it at a record: integers as they are, and of each text the
longest run of whole characters that its column has bytes for (`Row.keepsAll_iff`). -/
def keptAt (row : Row) (schema : Schema) (record : RecordId) : Row where
  schema := schema
  values := List.zipWith ColumnType.keep schema.types row.values
  record := some record

/-- The stored form of a row reads back, in a schema that agrees with the row's, as what the
columns keep. -/
theorem decode_of_encode {row : Row} {schema : Schema} {bytes : Bytes} (hrow : row.WellTyped)
    (hagree : row.schema.Agrees schema) (htypes : ∀ type ∈ schema.types, type.Addressable)
    (h : row.encode = .ok bytes) :
    (decode schema bytes).1 =
      .ok { schema, values := List.zipWith ColumnType.keep schema.types row.values } := by
  have hsame : row.schema.types = schema.types := hagree
  have hlen : row.values.length = schema.types.length := hsame ▸ hrow.length_values
  rw [encode, hsame] at h
  have hvalues := decodeValues_append htypes hlen h []
  rw [List.append_nil] at hvalues
  rw [decode, hvalues]

theorem schema_of_decode {row : Row} {schema : Schema} {input : Bytes}
    (h : (decode schema input).1 = .ok row) : row.schema = schema := by
  unfold decode at h
  rcases hread : decodeValues schema.types input with ⟨e | values, rest⟩
  · simp [hread] at h
  · rw [hread] at h
    rw [← Except.ok.inj h]

theorem wellTyped_of_decode {row : Row} {schema : Schema} {input : Bytes}
    (h : (decode schema input).1 = .ok row) : row.WellTyped := by
  unfold decode at h
  rcases hread : decodeValues schema.types input with ⟨e | values, rest⟩
  · simp [hread] at h
  · rw [hread] at h
    rw [← Except.ok.inj h]
    obtain ⟨hlength, haccepts⟩ := accepts_of_decodeValues hread
    exact ⟨by rw [hlength, Schema.types, List.length_map, Schema.size], haccepts⟩

/-- Whether a row is well-typed does not depend on the names of its columns. -/
theorem WellTyped.of_agrees {row : Row} {schema : Schema} (h : row.WellTyped)
    (hagree : schema.Agrees row.schema) : Row.WellTyped { row with schema } := by
  have hsame : schema.types = row.schema.types := hagree
  obtain ⟨hlength, haccepts⟩ := h
  refine ⟨?_, by rwa [hsame]⟩
  have hsize := congrArg List.length hsame
  rw [Schema.types, Schema.types, List.length_map, List.length_map] at hsize
  rw [hlength, Schema.size, Schema.size, hsize]

/-- A row has a stored form that reads back, in a schema, as these values. -/
def StoresAs (row : Row) (schema : Schema) (kept : List Value) : Prop :=
  ∃ bytes, row.encode = .ok bytes ∧ bytes.length = schema.width ∧
    (decode schema bytes).1 = .ok { schema, values := kept }

/-- A row that was read can be stored again, under any schema that agrees with its own. -/
theorem storesAs_of_decode {row stored : Row} {schema : Schema} {input : Bytes}
    (h : (decode schema input).1 = .ok stored) (hagree : row.schema.Agrees schema)
    (hvalues : row.values = stored.values) : row.StoresAs schema stored.values := by
  have hsame : row.schema.types = schema.types := hagree
  unfold decode at h
  rcases hread : decodeValues schema.types input with ⟨e | values, rest⟩
  · simp [hread] at h
  rw [hread] at h
  obtain rfl := Except.ok.inj h
  obtain ⟨bytes, hbytes, hlength, hagain⟩ := encodeValues_of_decodeValues hread
  have hback := hagain []
  rw [List.append_nil] at hback
  exact ⟨bytes, by rw [encode, hsame, hvalues, hbytes], hlength, by rw [decode, hback]⟩

end Row

end RowStore
