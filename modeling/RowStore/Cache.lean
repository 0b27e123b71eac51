import RowStore.Page
import RowStore.Recency

/-!
# RowStore.Cache: cached pages

The cache keeps at most `capacity` pages in memory.  Each loaded page gets a frame with a tag of
its own, so two loads of one page are told apart.  A handle names the frame a page was fetched
into; as long as one is held the frame is in use and is not evicted.  A frame that is discarded
while it is in use is detached: it lives on for its handles alone.
-/

namespace RowStore

/-- A loaded page under a tag that no other load shares. -/
structure Frame where
  tag : Nat
  page : Page
  deriving DecidableEq, Repr

/-- A claim on a loaded page. -/
structure Handle where
  page : PageId
  tag : Nat
  deriving DecidableEq, Repr

/-- Cached pages, the order in which they were last used, and the handles on them. -/
structure Cache where
  pageSize : Nat
  capacity : Nat
  capacity_pos : 0 < capacity
  /-- The cached pages, each under its identity. -/
  frames : List (PageId × Frame)
  recency : Recency
  /-- Frames that were discarded while a handle on them was held. -/
  detached : List Frame
  /-- Every handle that is held, as often as it is held. -/
  handles : List Handle
  nextTag : Nat
  deriving DecidableEq, Repr

/-- Why there can be no cache. -/
inductive CacheSetupError where
  /-- The cache would have room for no page. -/
  | zeroCapacity
  deriving DecidableEq, Repr

/-- The text of a set-up error. -/
def CacheSetupError.message : CacheSetupError → String
  | .zeroCapacity => "capacity must be > 0"

namespace Cache

/-- A cache without pages. -/
def ofCapacity (pageSize capacity : Nat) : Except CacheSetupError Cache :=
  if h : 0 < capacity then
    .ok {
      pageSize
      capacity
      capacity_pos := h
      frames := []
      recency := .empty
      detached := []
      handles := []
      nextTag := 0 }
  else
    .error .zeroCapacity

/-- The number of cached pages. -/
def size (cache : Cache) : Nat :=
  cache.frames.length

/-- The frame of a cached page. -/
def find? (cache : Cache) (page : PageId) : Option Frame :=
  cache.frames.lookup page

/-- Whether a handle on the frame with this tag is held. -/
def isHeld (cache : Cache) (tag : Nat) : Bool :=
  cache.handles.any fun handle => handle.tag = tag

/-- Whether a page may leave the cache: it is clean and nobody holds it. -/
def isEvictable (cache : Cache) (page : PageId) : Bool :=
  match cache.find? page with
  | none => true
  | some frame => frame.page.dirtier.isNone && !cache.isHeld frame.tag

/-- The cache after a cached page was used. -/
def touch (cache : Cache) (page : PageId) : Cache :=
  { cache with recency := cache.recency.touch page }

/-- The cache with room for one more page.  When it is full the least recently used page that may
leave is dropped; there may be none. -/
def makeRoom? (cache : Cache) : Option Cache :=
  if cache.size < cache.capacity then some cache
  else
    match cache.recency.evict cache.isEvictable with
    | none => none
    | some (victim, recency) =>
      some { cache with frames := cache.frames.filter fun entry => entry.1 ≠ victim, recency }

/-- The cache with a page loaded into a new frame and just used. -/
def load (cache : Cache) (page : Page) : Cache :=
  { cache with
    frames := cache.frames ++ [(page.id, ⟨cache.nextTag, page⟩)]
    recency := cache.recency.touch page.id
    nextTag := cache.nextTag + 1 }

/-- The cache with the contents of a cached page replaced. -/
def put (cache : Cache) (page : Page) : Cache :=
  { cache with
    frames := cache.frames.map fun (id, frame) =>
      if id = page.id then (id, { frame with page }) else (id, frame) }

/-- The cache without a page.  Its frame lives on when it is held. -/
def discard (cache : Cache) (page : PageId) : Cache :=
  match cache.find? page with
  | none => cache
  | some frame =>
    { cache with
      frames := cache.frames.filter fun entry => entry.1 ≠ page
      recency := cache.recency.remove page
      detached := if cache.isHeld frame.tag then frame :: cache.detached else cache.detached }

/-- The cached pages in ascending order. -/
def pageIds (cache : Cache) : List PageId :=
  (cache.frames.map Prod.fst).mergeSort PageId.ble

/-! ## Handles -/

/-- Takes a handle on a cached page. -/
def hold? (cache : Cache) (page : PageId) : Option (Handle × Cache) :=
  match cache.find? page with
  | none => none
  | some frame =>
    let handle := ⟨page, frame.tag⟩
    some (handle, { cache with handles := handle :: cache.handles })

/-- Gives a handle back.  A discarded frame is dropped with the last handle on it. -/
def release (cache : Cache) (handle : Handle) : Cache :=
  let released := { cache with handles := cache.handles.erase handle }
  { released with detached := released.detached.filter fun frame => released.isHeld frame.tag }

/-- The page behind a handle, wherever its frame is. -/
def held? (cache : Cache) (handle : Handle) : Option Page :=
  let loaded := cache.frames.map Prod.snd ++ cache.detached
  (loaded.find? fun frame => frame.tag = handle.tag).map Frame.page

/-- The cache with the page behind a handle replaced. -/
def putHeld (cache : Cache) (handle : Handle) (page : Page) : Cache :=
  let replace (frame : Frame) : Frame :=
    if frame.tag = handle.tag then { frame with page } else frame
  { cache with
    frames := cache.frames.map fun (id, frame) => (id, replace frame)
    detached := cache.detached.map replace }

end Cache

end RowStore
