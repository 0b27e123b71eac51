import RowStore.Error

/-!
# RowStore.PagedFile: a file as an array of pages

Pages lie back to back with no header, so the length of the file alone says how many there are; a
partial page at the end counts as one.  A page can be read only when the file holds all of it,
and written wherever that leaves no gap: over present bytes or right behind them.
-/

namespace RowStore

/-- A file read and written one page at a time. -/
structure PagedFile where
  pageSize : Nat
  bytes : Bytes
  deriving DecidableEq, Repr

/-- Why pages cannot be counted. -/
inductive CountError where
  /-- Pages have no bytes. -/
  | zeroPageSize
  deriving DecidableEq, Repr

/-- The text of a count error. -/
def CountError.message : CountError → String
  | .zeroPageSize => "attempt to divide by zero"

namespace PagedFile

/-- The number of pages the file spans, counting a partial page at its end.  There are fewer than 2^32
(`Table.WithinWords`). -/
def span (file : PagedFile) : Nat :=
  (file.bytes.length + file.pageSize - 1) / file.pageSize

/-- The number of pages, which makes sense only for pages that have bytes. -/
def pageCount (file : PagedFile) : Except CountError Nat :=
  if file.pageSize = 0 then .error .zeroPageSize else .ok file.span

/-- The bytes of a page, read into a buffer of `room` bytes. -/
def read (file : PagedFile) (page : PageId) (room : Nat) : Except StorageError Bytes :=
  let offset := page.offset file.pageSize
  if room ≠ file.pageSize then .error (.wrongBufferSize file.pageSize room)
  else if file.bytes.length < offset + file.pageSize then
    .error (.shortRead page file.bytes.length (offset + file.pageSize))
  else .ok (file.bytes.slice offset file.pageSize)

/-- The file with a page replaced or added at its end. -/
def write (file : PagedFile) (page : PageId) (data : Bytes) : Except StorageError PagedFile :=
  let offset := page.offset file.pageSize
  if data.length ≠ file.pageSize then .error (.wrongBufferSize file.pageSize data.length)
  else if file.bytes.length < offset then
    .error (.writeBeyondEnd page offset file.bytes.length)
  else .ok { file with bytes := file.bytes.splice offset data }

end PagedFile

end RowStore
