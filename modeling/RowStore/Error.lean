import RowStore.Row

/-!
# RowStore.Error: why storage refuses

Errors are causes, layered as the library is: a page file refuses with a `StorageError`, the
catalog with a `CatalogError`, the cache with one of its own or with either of these, and a table
with one of its own or with any of these.  The text of a wrapped error is the inner text, except
that codec errors are announced as such.
-/

namespace RowStore

/-- Why a page file could not be used. -/
inductive StorageError where
  /-- The file ends before the page does. -/
  | shortRead (page : PageId) (length required : Nat)
  /-- The page starts past the end of the file, so writing it would leave a gap. -/
  | writeBeyondEnd (page : PageId) (offset length : Nat)
  /-- The page belongs to another table than the file. -/
  | foreignPage (page : PageId) (table : TableId)
  /-- A buffer is not one page long. -/
  | wrongBufferSize (expected actual : Nat)
  /-- A call of the file system failed, with this text. -/
  | io (cause : String)
  deriving DecidableEq, Repr

/-- The text of a storage error. -/
def StorageError.message : StorageError → String
  | .shortRead page length required =>
    "short read of page " ++ page.text ++ s!": file has {length} bytes, need {required}"
  | .writeBeyondEnd page offset length =>
    "write of page " ++ page.text ++ s!" at offset {offset} is past end of file ({length} bytes)"
  | .foreignPage page table =>
    "page " ++ page.text ++ " does not belong to table " ++ table.text
  | .wrongBufferSize expected actual =>
    s!"invalid buffer size: expected {expected}, got {actual}"
  | .io cause => "I/O error: " ++ cause

/-- Why a table could not be found. -/
inductive CatalogError where
  | unknownTable (table : TableId)
  | unknownName (name : String)
  deriving DecidableEq, Repr

/-- The text of a catalog error. -/
def CatalogError.message : CatalogError → String
  | .unknownTable table => "table " ++ table.text ++ " does not exist"
  | .unknownName name => "table \"" ++ name ++ "\" does not exist"

/-- Why the cache could not serve a page. -/
inductive CacheError where
  /-- The cache is full of pages that are dirty or held. -/
  | noEvictablePage (capacity : Nat)
  | catalog (cause : CatalogError)
  | storage (cause : StorageError)
  deriving DecidableEq, Repr

/-- The text of a cache error. -/
def CacheError.message : CacheError → String
  | .noEvictablePage capacity =>
    s!"buffer pool exhausted: all {capacity} pages are dirty or in use"
  | .catalog cause => cause.message
  | .storage cause => cause.message

/-- Why a table or one of its pages refused. -/
inductive TableError where
  /-- The row's column types are not the table's. -/
  | schemaMismatch (expected found : Schema)
  /-- The row is stored in another table. -/
  | wrongTable (expected found : TableId)
  /-- The row is stored on another page. -/
  | wrongPage (expected found : PageId)
  /-- The row is not stored anywhere. -/
  | noRecord
  /-- The slot holds no row. -/
  | slotEmpty (record : RecordId)
  /-- The page has no such slot. -/
  | slotOutOfRange (slot slots : Nat)
  /-- The page lies past the end of the table's file. -/
  | pageNotFound (page : PageId)
  /-- Every slot of the page is taken. -/
  | pageFull (page : PageId)
  /-- Not even one row fits on a page. -/
  | rowTooLarge (width pageSize : Nat)
  /-- More rows came than the store has room for. -/
  | rowLimit
  | codec (cause : CodecError)
  | storage (cause : StorageError)
  | cache (cause : CacheError)
  | catalog (cause : CatalogError)
  deriving DecidableEq, Repr

/-- The text of a table error. -/
def TableError.message : TableError → String
  | .schemaMismatch expected found =>
    "schema mismatch: table has (" ++ expected.text ++ "), tuple has (" ++ found.text ++ ")"
  | .wrongTable expected found =>
    "tuple belongs to table " ++ found.text ++ ", not " ++ expected.text
  | .wrongPage expected found =>
    "tuple belongs to page " ++ found.text ++ ", not " ++ expected.text
  | .noRecord => "tuple has no record id"
  | .slotEmpty record => "slot " ++ record.text ++ " is already empty"
  | .slotOutOfRange slot slots => s!"slot {slot} out of range for {slots} slots"
  | .pageNotFound page => "page " ++ page.text ++ " does not exist"
  | .pageFull page => "page " ++ page.text ++ " is full"
  | .rowTooLarge width pageSize =>
    s!"tuple of {width} bytes does not fit in a {pageSize}-byte page"
  | .rowLimit => "row limit exceeded"
  | .codec cause => "serialization error: " ++ cause.message
  | .storage cause => cause.message
  | .cache cause => cause.message
  | .catalog cause => cause.message

end RowStore
