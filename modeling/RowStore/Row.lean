import RowStore.Address
import RowStore.Schema
import RowStore.Value.Codec

/-!
# RowStore.Row: rows and their stored form

A row is a list of values for a schema, and knows the record it is stored at, if any.  The stored
form is the stored values back to back, so all rows of a schema have one width.  `WellTyped` says
that there is one value per column and that each column accepts its value; every way to make or
change a row keeps it.
-/

namespace RowStore

/-- Values for the columns of a schema. -/
structure Row where
  schema : Schema
  values : List Value
  record : Option RecordId := none
  deriving DecidableEq, Repr

/-- The first position at which a value does not fit its column. -/
def firstMismatch : (index : Nat) → List ColumnType → List Value →
    Option (Nat × ColumnType × Value)
  | index, type :: types, value :: values =>
    if type.accepts value then firstMismatch (index + 1) types values
    else some (index, type, value)
  | _, _, _ => none

/-- Reads one value per type and hands back the bytes that were not consumed. -/
def decodeValues : List ColumnType → Bytes → Except CodecError (List Value) × Bytes
  | [], input => (.ok [], input)
  | type :: types, input =>
    match type.decode input with
    | (.error e, rest) => (.error e, rest)
    | (.ok value, rest) =>
      match decodeValues types rest with
      | (.error e, rest) => (.error e, rest)
      | (.ok values, rest) => (.ok (value :: values), rest)

/-- The stored forms of values back to back, as columns of the given types. -/
def encodeValues : List ColumnType → List Value → Except CodecError Bytes
  | type :: types, value :: values =>
    match type.encode value with
    | .error e => .error e
    | .ok head =>
      match encodeValues types values with
      | .error e => .error e
      | .ok tail => .ok (head ++ tail)
  | _, _ => .ok []

/-- Writes values where only `room` bytes are left.  What was written before the first column
that fails stays written. -/
def encodeValuesInto : (room : Nat) → List ColumnType → List Value →
    Bytes × Except CodecError Unit
  | room, type :: types, value :: values =>
    match type.encodeInto room value with
    | .error e => ([], .error e)
    | .ok head =>
      let (tail, result) := encodeValuesInto (room - head.length) types values
      (head ++ tail, result)
  | _, _, _ => ([], .ok ())

namespace Row

/-- There is one value per column, and each column accepts its value. -/
def WellTyped (row : Row) : Prop :=
  row.values.length = row.schema.size ∧
    ∀ pair ∈ row.schema.types.zip row.values, pair.1.accepts pair.2 = true

/-- The row with these values.  The number of values is checked before their types. -/
def ofValues (schema : Schema) (values : List Value) : Except SchemaError Row :=
  if values.length ≠ schema.size then
    .error (.arityMismatch schema.size values.length)
  else
    match firstMismatch 0 schema.types values with
    | some (index, expected, found) => .error (.typeMismatch index expected found)
    | none => .ok { schema, values }

/-- The value at an index. -/
def value (row : Row) (index : Nat) : Except SchemaError Value :=
  match row.values[index]? with
  | some value => .ok value
  | none => .error (.indexOutOfBounds index row.values.length)

/-- The row with the value at an index replaced by one of the same kind. -/
def set (row : Row) (index : Nat) (value : Value) : Except SchemaError Row :=
  match row.schema.column index with
  | .error e => .error e
  | .ok column =>
    if column.type.accepts value then
      .ok { row with values := row.values.set index value }
    else
      .error (.typeMismatch index column.type value)

/-- The same row stored at another record, or nowhere. -/
def withRecord (row : Row) (record : Option RecordId) : Row :=
  { row with record }

/-- The same values under a schema that agrees with the row's. -/
def withSchema (row : Row) (schema : Schema) : Except SchemaError Row :=
  if schema.Agrees row.schema then
    .ok { row with schema }
  else
    .error (.arityMismatch schema.size row.values.length)

/-- Two rows say the same when their schemas agree and their values are equal, wherever they are
stored. -/
def Same (a b : Row) : Prop :=
  a.schema.Agrees b.schema ∧ a.values = b.values

instance (a b : Row) : Decidable (a.Same b) :=
  inferInstanceAs (Decidable (_ ∧ _))

/-- The stored form of the row. -/
def encode (row : Row) : Except CodecError Bytes :=
  encodeValues row.schema.types row.values

/-- Writes the row where only `room` bytes are left. -/
def encodeInto (row : Row) (room : Nat) : Bytes × Except CodecError Unit :=
  encodeValuesInto room row.schema.types row.values

/-- Reads one row and hands back the bytes that were not consumed. -/
def decode (schema : Schema) (input : Bytes) : Except CodecError Row × Bytes :=
  match decodeValues schema.types input with
  | (.error e, rest) => (.error e, rest)
  | (.ok values, rest) => (.ok { schema, values }, rest)

/-- The values as text, separated by tabs. -/
def text (row : Row) : String :=
  "\t".intercalate (row.values.map Value.display)

end Row

end RowStore
