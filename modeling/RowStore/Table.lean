import RowStore.Disk
import RowStore.Page
import RowStore.PagedFile

/-!
# RowStore.Table: a file of rows of one schema

A table is a page file together with the schema of its rows.  Its identity comes from where the
file lies, so every table opened on one file shares it.  Reading and writing pages here goes
straight to the disk; rows are inserted, deleted and scanned through the cache.
-/

namespace RowStore

/-- A table: its identity, the schema of its rows, its file and the size of its pages. -/
structure Table where
  id : TableId
  schema : Schema
  file : Location
  pageSize : Nat
  deriving DecidableEq, Repr

namespace Table

/-- Opens the table in the file a path names, and makes the file when there is none.  A page has
to have room for one row; this is checked before the disk is touched. -/
def openAt (disk : Disk) (folder : Location) (path : String) (schema : Schema) (pageSize : Nat) :
    Except TableError (Table × Disk) :=
  if (PageGeometry.mk pageSize schema.width).slots = 0 then
    .error (.rowTooLarge schema.width pageSize)
  else
    match disk.resolve folder path with
    | none => .error (.storage (.io ("cannot open " ++ path)))
    | some file => .ok ({ id := file.tableId, schema, file, pageSize }, disk.create file)

/-- The number of slots of each page. -/
def slotsPerPage (table : Table) : Nat :=
  (PageGeometry.mk table.pageSize table.schema.width).slots

/-- The table's file as it is on the disk. -/
def pagedFile (table : Table) (disk : Disk) : PagedFile :=
  ⟨table.pageSize, disk.contents table.file⟩

/-- The number of pages on the disk, fewer than 2^32 (`Table.WithinWords`). -/
def pageCount (table : Table) (disk : Disk) : Nat :=
  (table.pagedFile disk).span

/-- The first `count` pages of the table. -/
def firstPages (table : Table) (count : Nat) : List PageId :=
  (List.range count).map fun number => ⟨table.id, number⟩

/-- A page as it is on the disk. -/
def readPage (table : Table) (disk : Disk) (page : PageId) : Except StorageError Page :=
  if page.table ≠ table.id then .error (.foreignPage page table.id)
  else
    match (table.pagedFile disk).read page table.pageSize with
    | .error e => .error e
    | .ok data => .ok (Page.ofBytes page table.schema data)

/-- The disk with bytes written as one of the table's pages. -/
def writeBytes (table : Table) (disk : Disk) (page : PageId) (data : Bytes) :
    Except StorageError Disk :=
  match (table.pagedFile disk).write page data with
  | .error e => .error e
  | .ok file => .ok (disk.write table.file file.bytes)

/-- The disk with a page written. -/
def writePage (table : Table) (disk : Disk) (page : Page) : Except StorageError Disk :=
  if page.id.table ≠ table.id then .error (.foreignPage page.id table.id)
  else table.writeBytes disk page.id page.data

end Table

end RowStore
