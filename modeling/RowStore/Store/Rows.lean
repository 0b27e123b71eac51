import RowStore.Store

/-!
# RowStore.Store.Rows: inserting and deleting rows

A row goes into the lowest page of its table that has a free slot; when every page is full, one
empty page is appended to the file and takes it.  Either way the page is left in the cache, marked
as changed by the transaction.
-/

namespace RowStore.Store

/-- Puts a row into a page that has a free slot; `none` when it has none. -/
def insertInPage (s : Store) (tid : TransactionId) (page : PageId) (row : Row) :
    Except TableError (Option RecordId) × Store :=
  match s.fetch page with
  | (.error e, s) => (.error (.cache e), s)
  | (.ok content, s) =>
    if content.firstFree?.isNone then (.ok none, s)
    else
      match content.insert row with
      | .error e => (.error e, s)
      | .ok (record, changed) => (.ok (some record), s.put (changed.mark (some tid)))

/-- Puts a row into the first of the pages that has a free slot. -/
def insertInPages (tid : TransactionId) (row : Row) :
    List PageId → Store → Except TableError (Option RecordId) × Store
  | [], s => (.ok none, s)
  | page :: pages, s =>
    match s.insertInPage tid page row with
    | (.ok none, s) => insertInPages tid row pages s
    | done => done

/-- Puts a row into the first page of the table that has a free slot, appending pages when there
is none.  An appended page is empty on the disk, but a page that is still cached under its number
may be full, and then the search starts over; `attempts` bounds how often. -/
def insertGrowing (table : Table) (tid : TransactionId) (row : Row) :
    (attempts : Nat) → Store → Except TableError RecordId × Store
  | 0, s => (.error (.pageFull ⟨table.id, table.pageCount s.disk⟩), s)
  | attempts + 1, s =>
    let count := table.pageCount s.disk
    match insertInPages tid row (table.firstPages count) s with
    | (.error e, s) => (.error e, s)
    | (.ok (some record), s) => (.ok record, s)
    | (.ok none, s) =>
      match table.writeBytes s.disk ⟨table.id, count⟩ (Bytes.zeros table.pageSize) with
      | .error e => (.error (.storage e), s)
      | .ok disk =>
        match insertInPage { s with disk } tid ⟨table.id, count⟩ row with
        | (.error e, s) => (.error e, s)
        | (.ok (some record), s) => (.ok record, s)
        | (.ok none, s) => insertGrowing table tid row attempts s

/-- Inserts a row into a table and tells where it is stored.  A full page that is cached past the
end of the file costs one more attempt, so one more than the number of cached pages is enough. -/
def insertInTable (s : Store) (table : Table) (tid : TransactionId) (row : Row) :
    Except TableError RecordId × Store :=
  if row.schema.Agrees table.schema then
    insertGrowing table tid row (s.cache.size + 1) s
  else
    (.error (.schemaMismatch table.schema row.schema), s)

/-- Inserts a row into the registered table with this identity. -/
def insertRow (s : Store) (tid : TransactionId) (table : TableId) (row : Row) :
    Except TableError RecordId × Store :=
  match s.catalog.table table with
  | .error e => (.error (.catalog e), s)
  | .ok table => s.insertInTable table tid row

/-- What the caller of an insert is told: the pages that were changed, and the row with the record
where it is stored.  A row that was not inserted keeps the record it had. -/
def told (row : Row) :
    Except TableError RecordId × Store → Except TableError (List PageId) × Row × Store
  | (.error e, s) => (.error e, row, s)
  | (.ok record, s) => (.ok [record.page], row.withRecord (some record), s)

/-- Adds a row to a table. -/
def addToTable (s : Store) (table : Table) (tid : TransactionId) (row : Row) :
    Except TableError (List PageId) × Row × Store :=
  told row (s.insertInTable table tid row)

/-- Adds a row to the registered table with this identity. -/
def addRow (s : Store) (tid : TransactionId) (table : TableId) (row : Row) :
    Except TableError (List PageId) × Row × Store :=
  told row (s.insertRow tid table row)

/-- Deletes a row from a table, where its record says it is stored, and tells the page. -/
def deleteFromTable (s : Store) (table : Table) (tid : TransactionId) (row : Row) :
    Except TableError PageId × Store :=
  match row.record with
  | none => (.error .noRecord, s)
  | some record =>
    if record.page.table ≠ table.id then
      (.error (.wrongTable table.id record.page.table), s)
    else if table.pageCount s.disk ≤ record.page.number then
      (.error (.pageNotFound record.page), s)
    else
      match s.fetch record.page with
      | (.error e, s) => (.error (.cache e), s)
      | (.ok content, s) =>
        match content.delete row with
        | .error e => (.error e, s)
        | .ok changed => (.ok record.page, s.put (changed.mark (some tid)))

/-- Deletes a row from the registered table its record names. -/
def deleteRow (s : Store) (tid : TransactionId) (row : Row) : Except TableError PageId × Store :=
  match row.record with
  | none => (.error .noRecord, s)
  | some record =>
    match s.catalog.table record.page.table with
    | .error e => (.error (.catalog e), s)
    | .ok table => s.deleteFromTable table tid row

end RowStore.Store
