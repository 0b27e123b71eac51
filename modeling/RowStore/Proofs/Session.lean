import RowStore.Proofs.Store.Room
import Mathlib.Control.Monad.Basic

/-!
# RowStore.Proofs.Session: requests in any order

A `Session` is a store with the cursors opened on it.  It answers `Request`s one by one, whoever
makes them, so a list of requests is a history of interleaved transactions and scans.
-/

namespace RowStore

/-- What is asked of a store or of one of the cursors on it. -/
inductive Request where
  | fetch (page : PageId)
  | insert (tid : TransactionId) (table : TableId) (row : Row)
  | delete (tid : TransactionId) (row : Row)
  | commit (tid : TransactionId)
  | abort (tid : TransactionId)
  | flush (page : PageId)
  | flushAll
  | discard (page : PageId)
  /-- Adds a cursor on a table, which is closed. -/
  | addCursor (table : Table)
  /-- Opens a cursor, or puts it back before the first row. -/
  | start (cursor : Nat)
  | hasNext (cursor : Nat)
  | next (cursor : Nat)
  | close (cursor : Nat)
  deriving DecidableEq, Repr

/-- What a request is answered with. -/
inductive Response where
  | page (result : Except CacheError Page)
  | record (result : Except TableError RecordId)
  | changed (result : Except TableError PageId)
  | finished (result : Except CacheError Unit)
  | more (result : Except TableError Bool)
  | row (result : Except TableError (Option Row))
  | done
  deriving DecidableEq

/-- Whether pages are written although their transaction has not finished. -/
def Request.isFlush : Request → Bool
  | .flush _ | .flushAll => true
  | _ => false

/-- Whether a request leaves it to the cache which pages are dropped, and to commits which are
written. -/
def Request.isQuiet : Request → Bool
  | .flush _ | .flushAll | .discard _ => false
  | _ => true

theorem Request.isFlush_of_isQuiet {request : Request} (h : request.isQuiet = true) :
    request.isFlush = false := by
  cases request <;> first | rfl | cases h

/-- Whether a request only asks for what there is. -/
def Request.isRead : Request → Bool
  | .fetch _ | .addCursor _ | .start _ | .hasNext _ | .next _ | .close _ => true
  | _ => false

/-- The transaction on whose behalf a request changes rows. -/
def Request.changer? : Request → Option TransactionId
  | .insert tid _ _ | .delete tid _ => some tid
  | _ => none

/-- Whether a request was answered without an error. -/
def Response.isOk : Response → Bool
  | .page result => result.isOk
  | .record result => result.isOk
  | .changed result => result.isOk
  | .finished result => result.isOk
  | .more result => result.isOk
  | .row result => result.isOk
  | .done => true

/-- Whether a request was refused because every cached page is dirty or held. -/
def Response.isRefused : Response → Bool
  | .page (.error e) => e.isRefusal
  | .record result => RowStore.isRefused result
  | .changed result => RowStore.isRefused result
  | .more result => RowStore.isRefused result
  | .row result => RowStore.isRefused result
  | _ => false

/-- A store and the cursors on it. -/
structure Session where
  store : Store
  cursors : List Cursor := []
  deriving DecidableEq, Repr

namespace Session

/-- The session with a cursor moved without reading. -/
def moveCursor (x : Session) (number : Nat) (move : Cursor → Cursor) : Response × Session :=
  (.done, { x with cursors := x.cursors.modify number move })

/-- The answer of a cursor that may read pages; there is none without the cursor. -/
def askCursor {α : Type} (x : Session) (number : Nat)
    (ask : Cursor → Store → Except TableError α × Cursor × Store)
    (answer : Except TableError α → Response) : Response × Session :=
  match x.cursors[number]? with
  | none => (.done, x)
  | some cursor =>
    let (result, cursor, store) := ask cursor x.store
    (answer result, { store, cursors := x.cursors.set number cursor })

/-- The answer to a request and the session it leaves behind. -/
def respond (x : Session) : Request → Response × Session
  | .fetch page =>
    let (result, store) := x.store.fetch page
    (.page result, { x with store })
  | .insert tid table row =>
    let (result, store) := x.store.insertRow tid table row
    (.record result, { x with store })
  | .delete tid row =>
    let (result, store) := x.store.deleteRow tid row
    (.changed result, { x with store })
  | .commit tid =>
    let (result, store) := x.store.commit tid
    (.finished result, { x with store })
  | .abort tid => (.done, { x with store := x.store.abort tid })
  | .flush page =>
    let (result, store) := x.store.flush page
    (.finished result, { x with store })
  | .flushAll =>
    let (result, store) := x.store.flushAll
    (.finished result, { x with store })
  | .discard page => (.done, { x with store := x.store.discard page })
  | .addCursor table => (.done, { x with cursors := x.cursors ++ [{ table }] })
  | .start number => x.moveCursor number Cursor.start
  | .hasNext number => x.askCursor number Cursor.hasNext .more
  | .next number => x.askCursor number Cursor.pull .row
  | .close number => x.moveCursor number Cursor.close

/-- The session after a list of requests. -/
def after (x : Session) (requests : List Request) : Session :=
  requests.foldl (fun x request => (x.respond request).2) x

@[simp] theorem after_nil (x : Session) : x.after [] = x := rfl

@[simp] theorem after_cons (x : Session) (request : Request) (requests : List Request) :
    x.after (request :: requests) = (x.respond request).2.after requests := rfl

theorem after_append (x : Session) (first second : List Request) :
    x.after (first ++ second) = (x.after first).after second :=
  List.foldl_append

theorem after_take_succ (x : Session) (requests : List Request) (count : Nat) :
    x.after (requests.take (count + 1)) =
      match requests[count]? with
      | none => x.after (requests.take count)
      | some request => ((x.after (requests.take count)).respond request).2 := by
  rw [List.take_add_one, after_append]
  cases requests[count]? <;> rfl

/-- Whatever every request keeps holds after a list of them. -/
theorem after_keeps {keeps : Session → Prop} {requests : List Request}
    (hkeep : ∀ request ∈ requests, ∀ x, keeps x → keeps (x.respond request).2) {x : Session}
    (hx : keeps x) : keeps (x.after requests) := by
  induction requests generalizing x with
  | nil => exact hx
  | cons request requests ih =>
    exact ih (fun r hr => hkeep r (List.mem_cons_of_mem _ hr))
      (hkeep request List.mem_cons_self x hx)

/-! ## What every request keeps -/

theorem fetches_askCursor {α : Type} {x : Session} {number : Nat}
    {ask : Cursor → Store → Except TableError α × Cursor × Store}
    {answer : Except TableError α → Response}
    (hask : ∀ cursor s, Store.Fetches s (ask cursor s).2.2) :
    Store.Fetches x.store (x.askCursor number ask answer).2.store := by
  unfold askCursor
  cases x.cursors[number]? with
  | none => exact .refl
  | some cursor => exact hask cursor x.store

/-- A request that only asks for what there is fetches pages. -/
theorem fetches_respond {x : Session} {request : Request} (hread : request.isRead = true) :
    Store.Fetches x.store (x.respond request).2.store := by
  cases request with
  | fetch page => exact Store.fetches_fetch x.store page
  | addCursor table => exact .refl
  | start number => exact .refl
  | hasNext number => exact fetches_askCursor Store.fetches_hasNext
  | next number => exact fetches_askCursor Store.fetches_pull
  | close number => exact .refl
  | _ => cases hread

theorem view_respond {x : Session} (hs : x.store.Coherent) {request : Request}
    (hread : request.isRead = true) : (x.respond request).2.store.view = x.store.view :=
  Store.Fetches.view (fetches_respond hread) hs

/-- Requests but for aborts and flushes are answered by moves. -/
theorem moves_respond {x : Session} (hs : x.store.cache.Valid) {request : Request}
    (hflush : request.isFlush = false) (habort : ∀ tid, request ≠ .abort tid) :
    Store.Moves x.store (x.respond request).2.store := by
  cases request with
  | insert tid table row => exact Store.moves_insertRow hs tid table row
  | delete tid row => exact Store.moves_deleteRow hs tid row
  | commit tid => exact Store.moves_commit x.store tid
  | abort tid => exact absurd rfl (habort tid)
  | flush page => cases hflush
  | flushAll => cases hflush
  | discard page => exact .single (.drop page)
  | _ => exact Store.Fetches.moves (fetches_respond rfl)

/-- What moves, flushes and aborts keep is kept by every request. -/
theorem respond_keeps {keeps : Store → Prop} (hvalid : ∀ {s}, keeps s → s.cache.Valid)
    (hmoves : ∀ {s s'}, Store.Moves s s' → keeps s → keeps s')
    (hflush : ∀ {s} page, keeps s → keeps (s.flush page).2)
    (habort : ∀ {s} tid, keeps s → keeps (s.abort tid)) {x : Session} (hx : keeps x.store)
    (request : Request) : keeps (x.respond request).2.store := by
  by_cases hwrites : request.isFlush = true
  · cases request with
    | flush page => exact hflush page hx
    | flushAll => exact Store.flushPages_keeps keeps (fun s page hs => hflush page hs) _ _ hx
    | _ => cases hwrites
  · by_cases haborts : ∃ tid, request = .abort tid
    · obtain ⟨tid, rfl⟩ := haborts
      exact habort tid hx
    · exact hmoves (moves_respond (hvalid hx) (by simpa using hwrites) (by simpa using haborts)) hx

theorem seated_respond {x : Session} (hs : x.store.Seated) (request : Request) :
    (x.respond request).2.store.Seated :=
  respond_keeps (fun hs => hs.valid) (fun hmoves hs => Store.Moves.seated hmoves hs)
    (fun page hs => hs.flush page) (fun tid hs => hs.abort tid) hs request

theorem coherent_respond {x : Session} (hs : x.store.Coherent) {request : Request}
    (hflush : request.isFlush = false) : (x.respond request).2.store.Coherent := by
  by_cases habort : ∃ tid, request = .abort tid
  · obtain ⟨tid, rfl⟩ := habort
    exact hs.abort tid
  · exact (moves_respond hs.valid hflush (by simpa using habort)).coherent hs

theorem seated_after {x : Session} (hs : x.store.Seated) (requests : List Request) :
    (x.after requests).store.Seated :=
  @after_keeps (fun x => x.store.Seated) requests (fun request _ _ hx => seated_respond hx request) _
    hs

theorem coherent_after {x : Session} (hs : x.store.Coherent) {requests : List Request}
    (hflush : ∀ request ∈ requests, request.isFlush = false) : (x.after requests).store.Coherent :=
  @after_keeps (fun x => x.store.Coherent) requests
    (fun request hr _ hx => coherent_respond hx (hflush request hr)) _ hs

end Session

/-! ## Fresh stores -/

/-- Nothing was done with the store yet: its cache is as it was made. -/
def Store.Fresh (s : Store) : Prop :=
  ∃ pageSize capacity, Cache.ofCapacity pageSize capacity = .ok s.cache

theorem Cache.find?_of_ofCapacity {cache : Cache} {pageSize capacity : Nat}
    (h : Cache.ofCapacity pageSize capacity = .ok cache) (page : PageId) :
    cache.find? page = none := by
  unfold ofCapacity at h
  split_ifs at h
  cases h
  rfl

/-- A fresh store shows what its disk has. -/
theorem Store.Fresh.view {s : Store} (h : s.Fresh) (page : PageId) :
    s.view.changed page = none := by
  obtain ⟨pageSize, capacity, hcache⟩ := h
  simp [Store.view, Cache.find?_of_ofCapacity hcache]

theorem Store.Fresh.roomy {s : Store} (h : s.Fresh) : s.Roomy := by
  refine ⟨Store.allClean_iff.mpr h.view, ?_⟩
  obtain ⟨pageSize, capacity, hcache⟩ := h
  unfold Cache.ofCapacity at hcache
  split_ifs at hcache
  rw [← Except.ok.inj hcache]

/-- A fresh store over tables that were opened agrees with its disk, whatever that has. -/
theorem Store.Fresh.coherent {s : Store} (h : s.Fresh) (hsound : s.catalog.Sound) :
    s.Coherent := by
  obtain ⟨pageSize, capacity, hcache⟩ := h
  have hnone : ∀ {page frame}, s.cache.find? page ≠ some frame := by
    simp [Cache.find?_of_ofCapacity hcache]
  exact ⟨⟨hsound, Cache.valid_of_ofCapacity hcache, fun hf => absurd hf hnone⟩,
    fun _ _ hf => absurd hf hnone, fun _ _ hf => absurd hf hnone⟩

/-! ## A small store -/

namespace Sample

/-- Two integers. -/
def schema : Schema := ⟨[⟨.int, none⟩, ⟨.int, none⟩], by decide⟩

/-- A table with two rows to a page. -/
def table : Table where
  id := Location.tableId ["t"]
  schema := schema
  file := ["t"]
  pageSize := 20

def row (key value : Int32) : Row := ⟨schema, [.int key, .int value], none⟩

/-- A fresh store with the one table, whose file is empty. -/
def store (capacity : Nat) (h : 0 < capacity) : Store where
  disk := ({} : Disk).create ["t"]
  catalog := Catalog.empty.add table "t"
  cache := ⟨20, capacity, h, [], .empty, [], [], 0⟩

theorem sound_catalog : (Catalog.empty.add table "t").Sound :=
  Catalog.sound_empty.add ⟨rfl, by decide⟩ "t"

theorem fresh_store (capacity : Nat) (h : 0 < capacity) : (store capacity h).Fresh :=
  ⟨20, capacity, by simp [Cache.ofCapacity, h, store]⟩

end Sample

end RowStore
