import RowStore.Store.Rows

/-!
# RowStore.Cursor: reading a table page by page

A cursor goes through a table's pages in order.  It copies the rows of a page when it reaches the
page and hands them out one by one, so changes to pages it has not reached are still seen.  While
it is closed it has nothing to hand out.  A page that cannot be read is not skipped: the next
request tries it again.
-/

namespace RowStore

/-- A position in a table. -/
structure Cursor where
  table : Table
  isOpen : Bool := false
  /-- The page to read next. -/
  next : Nat := 0
  /-- Rows of the page read last that were not handed out. -/
  buffer : List Row := []
  deriving DecidableEq, Repr

namespace Cursor

/-- The cursor before the first row. -/
def start (cursor : Cursor) : Cursor :=
  { cursor with isOpen := true, next := 0, buffer := [] }

/-- The cursor closed. -/
def close (cursor : Cursor) : Cursor :=
  { cursor with isOpen := false, buffer := [] }

/-- Reads pages until one has a row, at most `remaining` of them.  Tells whether one had. -/
def fill : (remaining : Nat) → Cursor → Store → Except TableError Bool × Cursor × Store
  | 0, cursor, s => (.ok false, cursor, s)
  | remaining + 1, cursor, s =>
    match s.fetch ⟨cursor.table.id, cursor.next⟩ with
    | (.error e, s) => (.error (.cache e), cursor, s)
    | (.ok page, s) =>
      match page.rows with
      | .error e => (.error e, cursor, s)
      | .ok [] => fill remaining { cursor with next := cursor.next + 1 } s
      | .ok rows => (.ok true, { cursor with next := cursor.next + 1, buffer := rows }, s)

/-- Whether there is another row, reading pages as needed. -/
def hasNext (cursor : Cursor) (s : Store) : Except TableError Bool × Cursor × Store :=
  if !cursor.isOpen then (.ok false, cursor, s)
  else if cursor.buffer.isEmpty then
    cursor.fill (cursor.table.pageCount s.disk - cursor.next) s
  else
    (.ok true, cursor, s)

/-- The next row, or `none` behind the last. -/
def pull (cursor : Cursor) (s : Store) : Except TableError (Option Row) × Cursor × Store :=
  match cursor.hasNext s with
  | (.error e, cursor, s) => (.error e, cursor, s)
  | (.ok false, cursor, s) => (.ok none, cursor, s)
  | (.ok true, cursor, s) =>
    (.ok cursor.buffer.head?, { cursor with buffer := cursor.buffer.tail }, s)

/-- No cursor hands out more rows than this before it ends, unless its table grows. -/
def rowLimit (cursor : Cursor) (s : Store) : Nat :=
  cursor.buffer.length + cursor.table.pageCount s.disk * s.slotLimit

/-- All rows that are left, fewer than `limit` of them. -/
def drainWithin : (limit : Nat) → Cursor → Store →
    Except TableError (List Row) × Cursor × Store
  | 0, cursor, s => (.error .rowLimit, cursor, s)
  | limit + 1, cursor, s =>
    match cursor.pull s with
    | (.error e, cursor, s) => (.error e, cursor, s)
    | (.ok none, cursor, s) => (.ok [], cursor, s)
    | (.ok (some row), cursor, s) =>
      match drainWithin limit cursor s with
      | (.error e, cursor, s) => (.error e, cursor, s)
      | (.ok rows, cursor, s) => (.ok (row :: rows), cursor, s)

/-- All rows that are left. -/
def drain (cursor : Cursor) (s : Store) : Except TableError (List Row) × Cursor × Store :=
  cursor.drainWithin (cursor.rowLimit s + 1) s

end Cursor

end RowStore
