import RowStore.Operator.Aggregation
import RowStore.Operator.Leaf
import RowStore.Operator.Tally

/-!
# RowStore.Operator: trees of operators that hand out rows

An operator starts closed.  Opening it makes it ready to hand out rows, and while it is closed it
answers requests for rows with `notOpen`.  Inserting and deleting happen when the operator is
opened: it opens its child, changes a table for every row of the child, closes the child, and then
has one row to hand out, the count.  Rewinding hands out the same rows again and never repeats a
change.

Loops over the rows of a child are bounded by `drainLimit`: every row that is inserted or deleted
takes or frees a slot of a page that stays in the cache, so there are no more such rows than slots.
-/

namespace RowStore

/-- An operator with its children. -/
inductive Operator where
  /-- Rows from memory. -/
  | values (list : ValueList)
  /-- Rows of a table. -/
  | scan (source : TableScan)
  /-- Inserts the child's rows into a table. -/
  | insert (child : Operator) (tid : TransactionId) (table : TableId) (tally : Tally)
  /-- Deletes the child's rows from the tables they are stored in. -/
  | delete (child : Operator) (tid : TransactionId) (tally : Tally)
  /-- Reduces the child's rows by group. -/
  | aggregate (child : Operator) (aggregation : Aggregation)
  deriving Repr

namespace Operator

/-- The schema of the rows the operator hands out. -/
def schema : Operator → Schema
  | .values list => list.schema
  | .scan source => source.schema
  | .insert .. => .oneInt
  | .delete .. => .oneInt
  | .aggregate _ aggregation => aggregation.grouping.schema

/-! ## Building -/

/-- An operator that inserts a child's rows into a registered table of an agreeing schema. -/
def insertInto (catalog : Catalog) (tid : TransactionId) (child : Operator) (table : TableId) :
    Except OperatorError Operator :=
  match catalog.table table with
  | .error e => .error (.catalog e)
  | .ok target =>
    if child.schema.Agrees target.schema then .ok (.insert child tid table {})
    else .error (.schemaMismatch target.schema child.schema)

/-- An operator that deletes a child's rows. -/
def deleting (tid : TransactionId) (child : Operator) : Operator :=
  .delete child tid {}

/-- An operator that reduces one column of a child's rows, grouped by another if one is given. -/
def aggregating (child : Operator) (column : Nat) (groupBy : Option Nat) (aggregate : Aggregate) :
    Except OperatorError Operator :=
  match Grouping.ofSchema child.schema groupBy column aggregate with
  | .error e => .error e
  | .ok grouping => .ok (.aggregate child { grouping })

/-! ## Rows -/

/-- Whether there is another row. -/
def hasNext : Operator → Store → Except OperatorError Bool × Operator × Store
  | .values list, s => (list.hasNext, .values list, s)
  | .scan source, s =>
    match source.hasNext s with
    | (result, source, s) => (result, .scan source, s)
  | .insert child tid table tally, s =>
    (tally.hasNext .insert, .insert child tid table tally, s)
  | .delete child tid tally, s => (tally.hasNext .delete, .delete child tid tally, s)
  | .aggregate child aggregation, s =>
    match aggregation.hasNext with
    | (result, aggregation) => (result, .aggregate child aggregation, s)

/-- The next row, or `none` behind the last. -/
def next : Operator → Store → Except OperatorError (Option Row) × Operator × Store
  | .values list, s =>
    match list.next with
    | (result, list) => (result, .values list, s)
  | .scan source, s =>
    match source.next s with
    | (result, source, s) => (result, .scan source, s)
  | .insert child tid table tally, s =>
    match tally.next .insert with
    | (result, tally) => (result, .insert child tid table tally, s)
  | .delete child tid tally, s =>
    match tally.next .delete with
    | (result, tally) => (result, .delete child tid tally, s)
  | .aggregate child aggregation, s =>
    match aggregation.next with
    | (result, aggregation) => (result, .aggregate child aggregation, s)

/-- Goes back before the first row. -/
def rewind : Operator → Except OperatorError Unit × Operator
  | .values list =>
    match list.rewind with
    | (result, list) => (result, .values list)
  | .scan source =>
    match source.rewind with
    | (result, source) => (result, .scan source)
  | .insert child tid table tally =>
    match tally.rewind .insert with
    | (result, tally) => (result, .insert child tid table tally)
  | .delete child tid tally =>
    match tally.rewind .delete with
    | (result, tally) => (result, .delete child tid tally)
  | .aggregate child aggregation =>
    match aggregation.rewind with
    | (result, aggregation) => (result, .aggregate child aggregation)

/-- Closes the operator.  An aggregation closes its child too; the others closed theirs when they
were done with it. -/
def close : Operator → Operator
  | .values list => .values list.close
  | .scan source => .scan source.close
  | .insert child tid table tally => .insert child tid table tally.close
  | .delete child tid tally => .delete child tid tally.close
  | .aggregate child aggregation => .aggregate child.close aggregation.close

/-- No operator hands out more rows than this before it ends, unless its table grows. -/
def rowLimit : Operator → Store → Nat
  | .values list, _ => list.rows.length
  | .scan source, s => (source.cursor.map fun cursor => cursor.rowLimit s).getD 0
  | .insert .., _ => 1
  | .delete .., _ => 1
  | .aggregate _ aggregation, _ => aggregation.grouping.groups.length

/-- The number of requests after which a loop over the operator's rows has ended: one more than
the rows it hands out and the slots the cache can hold. -/
def drainLimit (operator : Operator) (s : Store) : Nat :=
  operator.rowLimit s + s.cache.capacity * s.slotLimit + 1

/-- All rows that are left, fewer than `limit` of them. -/
def drainWithin : (limit : Nat) → Operator → Store →
    Except OperatorError (List Row) × Operator × Store
  | 0, operator, s => (.error (.table .rowLimit), operator, s)
  | limit + 1, operator, s =>
    match operator.next s with
    | (.error e, operator, s) => (.error e, operator, s)
    | (.ok none, operator, s) => (.ok [], operator, s)
    | (.ok (some row), operator, s) =>
      match drainWithin limit operator s with
      | (.error e, operator, s) => (.error e, operator, s)
      | (.ok rows, operator, s) => (.ok (row :: rows), operator, s)

/-- All rows that are left. -/
def drain (operator : Operator) (s : Store) :
    Except OperatorError (List Row) × Operator × Store :=
  operator.drainWithin (operator.drainLimit s) s

/-! ## Opening -/

/-- Applies a change to every row of an operator, up to the first that fails, and counts the
rows.  `count` is the number of rows changed so far. -/
def changeEach (change : Store → Row → Except TableError Unit × Store) :
    (limit count : Nat) → Operator → Store → Except OperatorError Nat × Operator × Store
  | 0, _, operator, s => (.error (.table .rowLimit), operator, s)
  | limit + 1, count, operator, s =>
    match operator.next s with
    | (.error e, operator, s) => (.error e, operator, s)
    | (.ok none, operator, s) => (.ok count, operator, s)
    | (.ok (some row), operator, s) =>
      match change s row with
      | (.error e, s) => (.error (.table e), operator, s)
      | (.ok (), s) => changeEach change limit (count + 1) operator s

/-- Applies a change to every row of a child that was just opened, closes the child, and tells the
count as a tally. -/
def changeAll (change : Store → Row → Except TableError Unit × Store) (tally : Tally)
    (child : Operator) (s : Store) : Except OperatorError Unit × Tally × Operator × Store :=
  match changeEach change (child.drainLimit s) 0 child s with
  | (.error e, child, s) => (.error e, tally, child.close, s)
  | (.ok count, child, s) =>
    match Tally.rowOf count with
    | .error e => (.error e, tally, child.close, s)
    | .ok row => (.ok (), { row := some row }, child.close, s)

/-- Inserts a row into a table. -/
def insertChange (tid : TransactionId) (table : TableId) (s : Store) (row : Row) :
    Except TableError Unit × Store :=
  match s.insertRow tid table row with
  | (result, s) => (result.map fun _ => (), s)

/-- Deletes a row from the table it is stored in. -/
def deleteChange (tid : TransactionId) (s : Store) (row : Row) : Except TableError Unit × Store :=
  match s.deleteRow tid row with
  | (result, s) => (result.map fun _ => (), s)

/-- Opens the operator. -/
def start : Operator → Store → Except OperatorError Unit × Operator × Store
  | .values list, s =>
    match list.start with
    | (result, list) => (result, .values list, s)
  | .scan source, s =>
    match source.start s with
    | (result, source) => (result, .scan source, s)
  | .insert child tid table tally, s =>
    if tally.isOpen then (.error (.alreadyOpen .insert), .insert child tid table tally, s)
    else
      match start child s with
      | (.error e, child, s) => (.error e, .insert child tid table tally, s)
      | (.ok (), child, s) =>
        match changeAll (insertChange tid table) tally child s with
        | (result, tally, child, s) => (result, .insert child tid table tally, s)
  | .delete child tid tally, s =>
    if tally.isOpen then (.error (.alreadyOpen .delete), .delete child tid tally, s)
    else
      match start child s with
      | (.error e, child, s) => (.error e, .delete child tid tally, s)
      | (.ok (), child, s) =>
        match changeAll (deleteChange tid) tally child s with
        | (result, tally, child, s) => (result, .delete child tid tally, s)
  | .aggregate child aggregation, s =>
    match aggregation.start (fun _ s => start child s) next close drainLimit child s with
    | (result, aggregation, child, s) => (result, .aggregate child aggregation, s)

end Operator

end RowStore
