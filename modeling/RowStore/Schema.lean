import RowStore.Value

/-!
# RowStore.Schema: typed columns with optional names

A schema is a non-empty list of columns.  Only the types decide whether two schemas agree, so a
renamed schema still describes the same rows; names serve lookup and display.
-/

namespace RowStore

/-- One column of a schema. -/
structure Column where
  type : ColumnType
  name : Option String
  deriving DecidableEq, Repr, Inhabited

/-- A column as `TYPE(name)`, or `TYPE(null)` when it has no name. -/
def Column.text (column : Column) : String :=
  column.type.text ++ "(" ++ column.name.getD "null" ++ ")"

/-- A list of columns, never empty. -/
structure Schema where
  columns : List Column
  columns_ne_nil : columns ≠ []
  deriving DecidableEq, Repr

/-- How a schema or a row breaks the rules of schemas. -/
inductive SchemaError where
  /-- There is no column. -/
  | noColumns
  /-- The lists of types and names differ in length. -/
  | nameCountMismatch (types names : Nat)
  /-- A row has the wrong number of values. -/
  | arityMismatch (expected actual : Nat)
  /-- A value is not of its column's kind. -/
  | typeMismatch (index : Nat) (expected : ColumnType) (found : Value)
  /-- There is no column at this index. -/
  | indexOutOfBounds (index length : Nat)
  /-- There is no column of this name. -/
  | unknownColumn (name : String)
  deriving DecidableEq, Repr

/-- The text of a schema error. -/
def SchemaError.message : SchemaError → String
  | .noColumns => "tuple descriptor must have at least one column"
  | .nameCountMismatch types names => s!"got {types} types but {names} names"
  | .arityMismatch expected actual => s!"expected {expected} fields, got {actual}"
  | .typeMismatch index expected found =>
    s!"column {index} expects " ++ expected.text ++ ", got " ++ found.display
  | .indexOutOfBounds index length =>
    s!"column index {index} out of bounds for {length} columns"
  | .unknownColumn name => "no column named \"" ++ name ++ "\""

/-- Bytes that stored values of these types occupy together. -/
def ColumnType.widths : List ColumnType → Nat
  | [] => 0
  | type :: types => type.width + widths types

@[simp] theorem ColumnType.widths_append (types others : List ColumnType) :
    widths (types ++ others) = widths types + widths others := by
  induction types with
  | nil => simp [widths]
  | cons type types ih => simp [widths, ih, Nat.add_assoc]

namespace Schema

/-- The schema with these columns. -/
def ofColumns (columns : List Column) : Except SchemaError Schema :=
  if h : columns = [] then .error .noColumns else .ok ⟨columns, h⟩

/-- The schema with columns of these types and no names. -/
def ofTypes (types : List ColumnType) : Except SchemaError Schema :=
  ofColumns (types.map fun type => ⟨type, none⟩)

/-- The schema with columns of these types and names.  The counts are compared first. -/
def ofNamedTypes (types : List ColumnType) (names : List String) : Except SchemaError Schema :=
  if types.length ≠ names.length then
    .error (.nameCountMismatch types.length names.length)
  else
    ofColumns ((types.zip names).map fun (type, name) => ⟨type, some name⟩)

/-- The schema of a single unnamed integer. -/
def oneInt : Schema :=
  ⟨[⟨.int, none⟩], by simp⟩

/-- The columns of `left` followed by those of `right`. -/
def append (left right : Schema) : Schema :=
  ⟨left.columns ++ right.columns, by simp [left.columns_ne_nil]⟩

/-- The number of columns. -/
def size (schema : Schema) : Nat :=
  schema.columns.length

/-- The column types in order. -/
def types (schema : Schema) : List ColumnType :=
  schema.columns.map Column.type

/-- Bytes a stored row of this schema occupies, fewer than 2^61 in a table (`Table.WithinWords`). -/
def width (schema : Schema) : Nat :=
  ColumnType.widths schema.types

/-- Two schemas agree when their column types are equal. -/
def Agrees (a b : Schema) : Prop :=
  a.types = b.types

instance (a b : Schema) : Decidable (a.Agrees b) :=
  inferInstanceAs (Decidable (a.types = b.types))

/-- The column at an index. -/
def column (schema : Schema) (index : Nat) : Except SchemaError Column :=
  match schema.columns[index]? with
  | some column => .ok column
  | none => .error (.indexOutOfBounds index schema.size)

/-- The index of the first column of this name. -/
def indexOf (schema : Schema) (name : String) : Except SchemaError Nat :=
  match schema.columns.findIdx? fun column => column.name = some name with
  | some index => .ok index
  | none => .error (.unknownColumn name)

/-- The same columns under other names. -/
def rename (schema : Schema) (name : Option String → Option String) : Schema :=
  ⟨schema.columns.map fun column => { column with name := name column.name },
    by simp [schema.columns_ne_nil]⟩

/-- The columns as text, separated by commas. -/
def text (schema : Schema) : String :=
  ", ".intercalate (schema.columns.map Column.text)

@[simp] theorem types_append (left right : Schema) :
    (left.append right).types = left.types ++ right.types := by
  simp [append, types]

@[simp] theorem width_append (left right : Schema) :
    (left.append right).width = left.width + right.width := by
  simp [width]

/-- A renamed schema describes the same rows. -/
@[simp] theorem types_rename (schema : Schema) (name : Option String → Option String) :
    (schema.rename name).types = schema.types := by
  simp [rename, types]

end Schema

end RowStore
