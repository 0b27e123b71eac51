import RowStore.Catalog
import RowStore.Cache

/-!
# RowStore.Store: tables behind a cache

A store is a disk, the catalog of its tables and the cache of their pages.  `fetch` brings a
page into the cache; a page that is changed stays there, marked with the transaction that changed
it, until `commit` writes it or `abort` puts its former bytes back.  An operation that can fail
returns the store it leaves behind also when it fails.
-/

namespace RowStore

/-- A disk, its registered tables and their cached pages. -/
structure Store where
  disk : Disk
  catalog : Catalog
  cache : Cache
  deriving DecidableEq, Repr

namespace Store

/-- The page, from the cache or else from the disk.  A miss on a full cache evicts a page, but only
after the page was read, so a fetch that fails leaves the store as it was. -/
def fetch (s : Store) (page : PageId) : Except CacheError Page × Store :=
  match s.cache.find? page with
  | some frame => (.ok frame.page, { s with cache := s.cache.touch page })
  | none =>
    match s.catalog.table page.table with
    | .error e => (.error (.catalog e), s)
    | .ok table =>
      match table.readPage s.disk page with
      | .error e => (.error (.storage e), s)
      | .ok content =>
        match s.cache.makeRoom? with
        | none => (.error (.noEvictablePage s.cache.capacity), s)
        | some cache => (.ok content, { s with cache := cache.load content })

/-- The store with the contents of a cached page replaced. -/
def put (s : Store) (page : Page) : Store :=
  { s with cache := s.cache.put page }

/-- The disk after a page is written to its table's file. -/
def writeBack (s : Store) (page : Page) : Except CacheError Disk :=
  match s.catalog.table page.id.table with
  | .error e => .error (.catalog e)
  | .ok table => (table.writePage s.disk page).mapError .storage

/-! ## Transactions -/

/-- Writes those of the given pages that `tid` changed, and makes their bytes the ones to fall
back to.  The first write that fails ends the work. -/
def commitPages (tid : TransactionId) : List PageId → Store → Except CacheError Unit × Store
  | [], s => (.ok (), s)
  | page :: pages, s =>
    match s.cache.find? page with
    | none => commitPages tid pages s
    | some frame =>
      if frame.page.dirtier = some tid then
        match s.writeBack frame.page with
        | .error e => (.error e, s)
        | .ok disk =>
          commitPages tid pages ({ s with disk }.put (frame.page.mark none).setBefore)
      else
        commitPages tid pages s

/-- Finishes `tid`: the pages it changed are written, in ascending order. -/
def commit (s : Store) (tid : TransactionId) : Except CacheError Unit × Store :=
  commitPages tid s.cache.pageIds s

/-- Finishes `tid`: the pages it changed get their former bytes back. -/
def abort (s : Store) (tid : TransactionId) : Store :=
  let restore (frame : Frame) : Frame :=
    if frame.page.dirtier = some tid then { frame with page := frame.page.beforeImage } else frame
  { s with cache := { s.cache with
    frames := s.cache.frames.map fun (id, frame) => (id, restore frame) } }

/-! ## Writing and dropping single pages -/

/-- Writes a page that is cached and dirty.  The bytes to fall back to stay what they were. -/
def flush (s : Store) (page : PageId) : Except CacheError Unit × Store :=
  match s.cache.find? page with
  | none => (.ok (), s)
  | some frame =>
    if frame.page.dirtier.isSome then
      match s.writeBack frame.page with
      | .error e => (.error e, s)
      | .ok disk => (.ok (), { s with disk }.put (frame.page.mark none))
    else
      (.ok (), s)

/-- Writes those of the given pages that are cached and dirty, up to the first that fails. -/
def flushPages : List PageId → Store → Except CacheError Unit × Store
  | [], s => (.ok (), s)
  | page :: pages, s =>
    match s.flush page with
    | (.error e, s) => (.error e, s)
    | (.ok (), s) => flushPages pages s

/-- Writes every dirty page, in ascending order, whoever changed it. -/
def flushAll (s : Store) : Except CacheError Unit × Store :=
  flushPages s.cache.pageIds s

/-- Drops a page from the cache without writing it. -/
def discard (s : Store) (page : PageId) : Store :=
  { s with cache := s.cache.discard page }

/-! ## Bounds -/

/-- No page that can be fetched has more slots than this: a page has at most eight per byte. -/
def slotLimit (s : Store) : Nat :=
  let tables := s.catalog.entries.map fun entry => entry.table.pageSize
  let frames := s.cache.frames.map fun entry => entry.2.page.data.length
  8 * (tables ++ frames).foldr (· + ·) 0

end Store

end RowStore
