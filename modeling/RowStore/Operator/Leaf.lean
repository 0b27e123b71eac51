import RowStore.Cursor
import RowStore.Operator.Error

/-!
# RowStore.Operator.Leaf: rows from a list and rows from a table

The two operators that have no child.  A value list hands out rows it was given.  A table scan
hands out the rows of a registered table under columns renamed `label.name`, so one table can
appear twice under two labels; it looks its table up each time it is opened.
-/

namespace RowStore

/-- Rows in memory and how many of them were handed out. -/
structure ValueList where
  schema : Schema
  rows : List Row
  position : Nat := 0
  isOpen : Bool := false
  deriving DecidableEq, Repr

namespace ValueList

/-- A list of rows of a schema. -/
def ofRows (schema : Schema) (rows : List Row) : Except OperatorError ValueList :=
  match rows.find? fun row => ¬ row.schema.Agrees schema with
  | some row => .error (.schemaMismatch schema row.schema)
  | none => .ok { schema, rows }

/-- Opens the list before its first row. -/
def start (list : ValueList) : Except OperatorError Unit × ValueList :=
  if list.isOpen then (.error (.alreadyOpen .values), list)
  else (.ok (), { list with position := 0, isOpen := true })

/-- Whether there is another row. -/
def hasNext (list : ValueList) : Except OperatorError Bool :=
  if list.isOpen then .ok (list.position < list.rows.length) else .error (.notOpen .values)

/-- The next row, or `none` behind the last. -/
def next (list : ValueList) : Except OperatorError (Option Row) × ValueList :=
  if list.isOpen then
    match list.rows[list.position]? with
    | some row => (.ok (some row), { list with position := list.position + 1 })
    | none => (.ok none, list)
  else
    (.error (.notOpen .values), list)

/-- Goes back before the first row. -/
def rewind (list : ValueList) : Except OperatorError Unit × ValueList :=
  if list.isOpen then (.ok (), { list with position := 0 })
  else (.error (.notOpen .values), list)

/-- Closes the list. -/
def close (list : ValueList) : ValueList :=
  { list with isOpen := false }

end ValueList

/-- A scan of a registered table.  It is open while it has a cursor. -/
structure TableScan where
  table : TableId
  tableName : String
  label : String
  schema : Schema
  cursor : Option Cursor := none
  deriving DecidableEq, Repr

namespace TableScan

/-- The columns of a schema under a label. -/
def labelled (schema : Schema) (label : String) : Schema :=
  schema.rename fun name => some (label ++ "." ++ name.getD "null")

/-- A scan of the registered table with this identity. -/
def ofTable (catalog : Catalog) (table : TableId) (label : String) :
    Except OperatorError TableScan :=
  match catalog.entry table with
  | .error e => .error (.catalog e)
  | .ok entry =>
    .ok { table, tableName := entry.name, label, schema := labelled entry.table.schema label }

/-- A scan of a registered table under the table's own name. -/
def ofNamedTable (catalog : Catalog) (table : TableId) : Except OperatorError TableScan :=
  match catalog.nameOf table with
  | .error e => .error (.catalog e)
  | .ok name => ofTable catalog table name

/-- Opens the scan before the table's first row. -/
def start (scan : TableScan) (s : Store) : Except OperatorError Unit × TableScan :=
  if scan.cursor.isSome then (.error (.alreadyOpen .scan), scan)
  else
    match s.catalog.table scan.table with
    | .error e => (.error (.catalog e), scan)
    | .ok table =>
      if table.schema.Agrees scan.schema then
        (.ok (), { scan with cursor := some (Cursor.start { table }) })
      else
        (.error (.schemaMismatch scan.schema table.schema), scan)

/-- Whether there is another row. -/
def hasNext (scan : TableScan) (s : Store) : Except OperatorError Bool × TableScan × Store :=
  match scan.cursor with
  | none => (.error (.notOpen .scan), scan, s)
  | some cursor =>
    match cursor.hasNext s with
    | (result, cursor, s) => (result.mapError .table, { scan with cursor := some cursor }, s)

/-- The next row, or `none` behind the last. -/
def next (scan : TableScan) (s : Store) :
    Except OperatorError (Option Row) × TableScan × Store :=
  match scan.cursor with
  | none => (.error (.notOpen .scan), scan, s)
  | some cursor =>
    match cursor.pull s with
    | (.error e, cursor, s) => (.error (.table e), { scan with cursor := some cursor }, s)
    | (.ok none, cursor, s) => (.ok none, { scan with cursor := some cursor }, s)
    | (.ok (some row), cursor, s) =>
      let scan := { scan with cursor := some cursor }
      match row.withSchema scan.schema with
      | .error e => (.error (.schema e), scan, s)
      | .ok row => (.ok (some row), scan, s)

/-- Goes back before the first row. -/
def rewind (scan : TableScan) : Except OperatorError Unit × TableScan :=
  match scan.cursor with
  | none => (.error (.notOpen .scan), scan)
  | some cursor => (.ok (), { scan with cursor := some cursor.start })

/-- Closes the scan. -/
def close (scan : TableScan) : TableScan :=
  { scan with cursor := none }

/-- Points the scan at another table and label.  A scan that is pointed elsewhere is closed; when
the table is not registered the scan stays as it was. -/
def reset (scan : TableScan) (catalog : Catalog) (table : TableId) (label : String) :
    Except OperatorError Unit × TableScan :=
  match ofTable catalog table label with
  | .error e => (.error e, scan)
  | .ok scan => (.ok (), scan)

end TableScan

end RowStore
