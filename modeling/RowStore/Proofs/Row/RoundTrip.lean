import RowStore.Proofs.Row

/-!
# RowStore.Proofs.Row.RoundTrip: rows written, read and written again

`Schema.Built` follows the ways to make a schema and counts its width as each of them does: the sum
over the columns, or the sum of two counts where schemas are put together.  A well-typed row is
written in exactly that many bytes.  Read back, each integer is as it was and each text is its
longest run of whole characters within the limit of its column (`ColumnType.Keeps`), and the row
that was read is written as the same bytes (`Row.round_trip`).
-/

namespace RowStore

/-! ## One column -/

namespace ColumnType

/-- The text occupies no more bytes than its column allows. -/
def Fits : ColumnType → Value → Prop
  | .varchar limit, .text s => s.utf8ByteSize ≤ limit
  | _, _ => True

/-- What is to become of a value in a column: an integer stays, and of a text there remain as many
of its leading characters as the column has bytes for. -/
inductive Keeps : ColumnType → (value kept : Value) → Prop where
  | int (n : Int32) : Keeps .int (.int n) (.int n)
  | text {limit : Nat} {s kept : String} (leading : kept.toList <+: s.toList)
      (bounded : kept.utf8ByteSize ≤ limit)
      (longest : ∀ other : String, other.toList <+: s.toList → other.utf8ByteSize ≤ limit →
        other.toList <+: kept.toList) :
      Keeps (.varchar limit) (.text s) (.text kept)

theorem utf8ByteSize_eq (s : String) : s.utf8ByteSize = (Utf8.encode s.toList).length := by
  rw [← String.size_toByteArray, ← String.utf8Encode_toList, List.utf8Encode, List.size_toByteArray,
    Utf8.encode]

theorem keeps_keep {type : ColumnType} {value : Value} (h : type.accepts value = true) :
    type.Keeps value (type.keep value) := by
  cases type with
  | int =>
    cases value with
    | int n => exact .int n
    | text s => cases h
  | varchar limit =>
    cases value with
    | int n => cases h
    | text s =>
      obtain ⟨hleading, hbounded⟩ :=
        (Utf8.prefix_fit_iff _ limit s.toList).mp (List.prefix_refl _)
      refine .text ?_ ?_ fun other hother hsize => ?_
      · rwa [String.toList_ofList]
      · rwa [utf8ByteSize_eq, String.toList_ofList]
      · rw [String.toList_ofList]
        exact (Utf8.prefix_fit_iff _ _ _).mpr ⟨hother, utf8ByteSize_eq other ▸ hsize⟩

/-- Nothing else is what a column keeps of a value it accepts. -/
theorem keeps_iff {type : ColumnType} {value kept : Value} (h : type.accepts value = true) :
    type.Keeps value kept ↔ kept = type.keep value := by
  refine ⟨fun hkept => ?_, fun heq => heq ▸ keeps_keep h⟩
  have hkeep := keeps_keep h
  generalize type.keep value = other at hkeep ⊢
  cases hkept with
  | int n =>
    cases hkeep
    rfl
  | text leading bounded longest =>
    cases hkeep with
    | text leading' bounded' longest' =>
      have hle := longest _ leading' bounded'
      have hge := longest' _ leading bounded
      have hsame := hge.eq_of_length (Nat.le_antisymm hge.length_le hle.length_le)
      rw [String.toList_injective hsame]

/-- A value that fits is kept as it is. -/
theorem keep_eq_self {type : ColumnType} {value : Value} (h : type.Fits value) :
    type.keep value = value := by
  cases type with
  | int => cases value <;> rfl
  | varchar limit =>
    cases value with
    | int n => rfl
    | text s =>
      rw [keep, Utf8.fit_eq_self (utf8ByteSize_eq s ▸ h), String.ofList_toList]

/-- What is kept of a value is stored as the value is. -/
theorem encode_keep (type : ColumnType) (value : Value) :
    type.encode (type.keep value) = type.encode value := by
  cases type with
  | int => cases value <;> rfl
  | varchar limit =>
    cases value with
    | int n => rfl
    | text s =>
      rw [keep, encode, encode, encodeText, encodeText, String.toList_ofList,
        Utf8.fit_eq_self (Utf8.length_encode_fit limit s.toList)]

end ColumnType

/-! ## All columns -/

theorem encodeValues_keep : ∀ (types : List ColumnType) (values : List Value),
    encodeValues types (List.zipWith ColumnType.keep types values) = encodeValues types values
  | [], _ => rfl
  | _ :: _, [] => rfl
  | type :: types, value :: values => by
    rw [List.zipWith_cons_cons, encodeValues, encodeValues, ColumnType.encode_keep,
      encodeValues_keep types values]

/-- Each of the kept values is what its column keeps of the value in the same place. -/
def KeepsAll (types : List ColumnType) (values kept : List Value) : Prop :=
  kept.length = values.length ∧
    ∀ (index : Nat) type value, types[index]? = some type → values[index]? = some value →
      ∃ value', kept[index]? = some value' ∧ type.Keeps value value'

theorem keepsAll_zipWith {types : List ColumnType} {values : List Value}
    (hlength : values.length = types.length)
    (haccepts : ∀ pair ∈ types.zip values, pair.1.accepts pair.2 = true) :
    KeepsAll types values (List.zipWith ColumnType.keep types values) := by
  refine ⟨?_, fun index type value htype hvalue => ⟨type.keep value, ?_, ?_⟩⟩
  · rw [List.length_zipWith, hlength, Nat.min_self]
  · rw [List.getElem?_zipWith, htype, hvalue]
  · have hpair : (type, value) ∈ types.zip values :=
      List.mem_of_getElem? (List.getElem?_zip_eq_some.mpr ⟨htype, hvalue⟩)
    exact ColumnType.keeps_keep (haccepts _ hpair)

/-- The values of a row that is kept at a record are what its columns keep, and nothing else is. -/
theorem Row.keepsAll_iff {row : Row} {schema : Schema} {kept : List Value} (hrow : row.WellTyped)
    (hagree : row.schema.Agrees schema) (record : RecordId) :
    KeepsAll schema.types row.values kept ↔ kept = (row.keptAt schema record).values := by
  have hsame : row.schema.types = schema.types := hagree
  have hlength : row.values.length = schema.types.length := hsame ▸ hrow.length_values
  have haccepts : ∀ pair ∈ schema.types.zip row.values, pair.1.accepts pair.2 = true :=
    hsame ▸ hrow.2
  obtain ⟨hsize, hkeeps⟩ := keepsAll_zipWith hlength haccepts
  constructor
  · rintro ⟨hsize', hkeeps'⟩
    refine List.ext_getElem? fun index => ?_
    by_cases hindex : index < row.values.length
    · obtain ⟨type, htype⟩ : ∃ type, schema.types[index]? = some type :=
        ⟨_, List.getElem?_eq_getElem (hlength ▸ hindex)⟩
      obtain ⟨value, hvalue⟩ : ∃ value, row.values[index]? = some value :=
        ⟨_, List.getElem?_eq_getElem hindex⟩
      have hpair : (type, value) ∈ schema.types.zip row.values :=
        List.mem_of_getElem? (List.getElem?_zip_eq_some.mpr ⟨htype, hvalue⟩)
      obtain ⟨other, hother, hkept⟩ := hkeeps' index type value htype hvalue
      rw [hother, (ColumnType.keeps_iff (haccepts _ hpair)).mp hkept, keptAt,
        List.getElem?_zipWith, htype, hvalue]
    · rw [List.getElem?_eq_none (by omega), List.getElem?_eq_none (hsize ▸ Nat.not_lt.mp hindex)]
  · rintro rfl
    exact ⟨hsize, hkeeps⟩

/-- Values that fit are kept as they are. -/
theorem zipWith_keep_eq_self : ∀ {types : List ColumnType} {values : List Value},
    values.length = types.length → (∀ pair ∈ types.zip values, pair.1.Fits pair.2) →
      List.zipWith ColumnType.keep types values = values
  | [], [], _, _ => rfl
  | type :: types, value :: values, hlength, hfits => by
    rw [List.zipWith_cons_cons, ColumnType.keep_eq_self (hfits (type, value) (by simp)),
      zipWith_keep_eq_self (Nat.succ.inj hlength) fun pair hpair => hfits pair (by simp [hpair])]

/-! ## Schemas -/

namespace Schema

/-- The schemas there are, each with the width that is counted where it is made. -/
inductive Built : Schema → (size : Nat) → Prop where
  | ofTypes {types : List ColumnType} {schema : Schema} (made : ofTypes types = .ok schema) :
      Built schema (ColumnType.widths types)
  | ofNamedTypes {types : List ColumnType} {names : List String} {schema : Schema}
      (made : ofNamedTypes types names = .ok schema) : Built schema (ColumnType.widths types)
  | ofColumns {columns : List Column} {schema : Schema} (made : ofColumns columns = .ok schema) :
      Built schema (ColumnType.widths (columns.map Column.type))
  | append {left right : Schema} {size size' : Nat} (built : Built left size)
      (built' : Built right size') : Built (left.append right) (size + size')

theorem types_of_ofColumns {columns : List Column} {schema : Schema}
    (h : ofColumns columns = .ok schema) : schema.types = columns.map Column.type := by
  unfold ofColumns at h
  split at h
  · cases h
  · rw [← Except.ok.inj h, types]

theorem types_of_ofTypes {types : List ColumnType} {schema : Schema}
    (h : ofTypes types = .ok schema) : schema.types = types := by
  rw [types_of_ofColumns h, List.map_map]
  exact List.map_id types

theorem types_of_ofNamedTypes {types : List ColumnType} {names : List String} {schema : Schema}
    (h : ofNamedTypes types names = .ok schema) : schema.types = types := by
  unfold ofNamedTypes at h
  split at h
  · cases h
  · rename_i hcounts
    rw [types_of_ofColumns h, List.map_map]
    exact List.map_fst_zip (Nat.le_of_eq (not_ne_iff.mp hcounts))

/-- The width that is counted where a schema is made is the width of its rows. -/
theorem Built.width_eq {schema : Schema} {size : Nat} (h : schema.Built size) :
    schema.width = size := by
  induction h with
  | ofTypes made => rw [width, types_of_ofTypes made]
  | ofNamedTypes made => rw [width, types_of_ofNamedTypes made]
  | ofColumns made => rw [width, types_of_ofColumns made]
  | append built built' ih ih' => rw [width_append, ih, ih']

end Schema

/-! ## Rows -/

namespace Row

/-- For every schema however it was made, with lengths that can be stored, and every well-typed row
of it: the row is written in as many bytes as its schema counts, wherever there is room for them;
in front of any other bytes they are read back, exactly they, as the row with each text cut to the
longest run of whole characters that fits, so as the same row if all texts fit; and the row that was
read is written as the same bytes again. -/
theorem round_trip {row : Row} {size : Nat} (hbuilt : row.schema.Built size)
    (htypes : ∀ type ∈ row.schema.types, type.Addressable) (hrow : row.WellTyped) :
    ∃ bytes kept, bytes.length = size ∧
      (∀ room, size ≤ room → row.encodeInto room = (bytes, .ok ())) ∧
      (∀ rest, decode row.schema (bytes ++ rest) = (.ok kept, rest)) ∧
      (kept.schema = row.schema ∧ KeepsAll row.schema.types row.values kept.values) ∧
      ((∀ pair ∈ row.schema.types.zip row.values, pair.1.Fits pair.2) → kept.Same row) ∧
      ∀ room, size ≤ room → kept.encodeInto room = (bytes, .ok ()) := by
  obtain rfl := hbuilt.width_eq
  obtain ⟨bytes, hbytes⟩ := exists_encodeValues hrow.2
  have hagain := (encodeValues_keep row.schema.types row.values).trans hbytes
  refine ⟨bytes, ⟨row.schema, List.zipWith ColumnType.keep row.schema.types row.values, none⟩,
    length_encodeValues hrow.length_values hbytes,
    fun room hroom => encodeValuesInto_eq hbytes hroom, fun rest => ?_,
    ⟨rfl, keepsAll_zipWith hrow.length_values hrow.2⟩,
    fun hfits => ⟨rfl, zipWith_keep_eq_self hrow.length_values hfits⟩,
    fun room hroom => encodeValuesInto_eq hagain hroom⟩
  rw [decode, decodeValues_append htypes hrow.length_values hbytes rest]

/-- A character of two bytes that reaches over the limit is dropped, and a column without room for
any character keeps none. -/
theorem round_trip_cut :
    let schema : Schema := (⟨[⟨.varchar 4, none⟩], by decide⟩ : Schema).append
      ⟨[⟨.int, some "n"⟩, ⟨.varchar 0, some "z"⟩], by decide⟩
    let row : Row := ⟨schema, [.text "abcé", .int (-2), .text "z"], none⟩
    row.schema.Built 16 ∧ row.WellTyped ∧
      ∃ bytes kept, row.encodeInto 16 = (bytes, .ok ()) ∧
        decode schema (bytes ++ [7]) = (.ok kept, [7]) ∧
        kept.values = [.text "abc", .int (-2), .text ""] ∧
        kept.encodeInto 16 = (bytes, .ok ()) := by
  intro schema row
  have hbuilt : row.schema.Built 16 :=
    .append (@Schema.Built.ofTypes [.varchar 4] _ rfl)
      (@Schema.Built.ofNamedTypes [.int, .varchar 0] ["n", "z"] _ rfl)
  have hrow : row.WellTyped := ⟨rfl, by decide⟩
  obtain ⟨bytes, kept, -, hinto, hback, -, -, hagain⟩ := round_trip hbuilt (by decide) hrow
  have hbytes := hinto 16 (by decide)
  refine ⟨hbuilt, hrow, bytes, kept, hbytes, hback [7], ?_, hagain 16 (by decide)⟩
  have hread := congrArg Prod.fst (hback [7])
  rw [show bytes = (row.encodeInto 16).1 by rw [hbytes]] at hread
  have hvalues : (decode schema ((row.encodeInto 16).1 ++ [7])).1 =
      .ok ⟨schema, [.text "abc", .int (-2), .text ""], none⟩ := by decide +kernel
  rw [show row.schema = schema from rfl, hvalues] at hread
  rw [← Except.ok.inj hread]

end Row

end RowStore
