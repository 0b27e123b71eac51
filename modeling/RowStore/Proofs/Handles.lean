import RowStore.Proofs.Session

/-!
# RowStore.Proofs.Handles: pages in use

An `Action` is a request, or a page is fetched and kept in use, or given back.  Keeping a page in
use changes nothing but what may be evicted: `SameFrames` is what such a step leaves alone.

Whatever is done, and whichever calls fail because the files or the catalog are not as they should
be, the cache keeps its invariant (`Cache.Valid`): the frames, each under the identity of its page,
are exactly what the order of last use lists, and there are no more of them than the cache was
built for.
-/

namespace RowStore

/-- What is done with a session. -/
inductive Action where
  | ask (request : Request)
  /-- Fetches a page and keeps a handle on it. -/
  | hold (page : PageId)
  /-- Gives a handle back. -/
  | release (handle : Handle)
  deriving DecidableEq, Repr

/-- Whether pages are written although their transaction has not finished. -/
def Action.isFlush : Action → Bool
  | .ask request => request.isFlush
  | _ => false

namespace Store

variable {s s' : Store}

/-- The page, which is kept in use when it could be fetched. -/
def hold (s : Store) (page : PageId) : Except CacheError Page × Store :=
  match s.fetch page with
  | (.error e, s) => (.error e, s)
  | (.ok content, s) =>
    match s.cache.hold? page with
    | none => (.ok content, s)
    | some (_, cache) => (.ok content, { s with cache })

/-- The store with a handle given back. -/
def release (s : Store) (handle : Handle) : Store :=
  { s with cache := s.cache.release handle }

/-- Two stores that differ at most in the handles on their pages. -/
structure SameFrames (s s' : Store) : Prop where
  disk : s'.disk = s.disk
  catalog : s'.catalog = s.catalog
  frames : s'.cache.frames = s.cache.frames
  recency : s'.cache.recency = s.cache.recency
  capacity : s'.cache.capacity = s.cache.capacity

/-- The page was fetched, and there is one more handle if it is cached. -/
theorem hold_eq (s : Store) (page : PageId) : (s.hold page).2 = (s.fetch page).2 ∨
    ∃ s' frame, (s.fetch page).2 = s' ∧ s'.cache.find? page = some frame ∧
      (s.hold page).2 =
        { s' with cache.handles := ⟨page, frame.tag⟩ :: s'.cache.handles } := by
  unfold hold
  rcases s.fetch page with ⟨e | content, s'⟩
  · exact Or.inl rfl
  · dsimp only [Cache.hold?]
    cases hf : s'.cache.find? page with
    | none => exact Or.inl rfl
    | some frame => exact Or.inr ⟨s', frame, rfl, hf, rfl⟩

theorem sameFrames_hold (s : Store) (page : PageId) :
    (s.fetch page).2.SameFrames (s.hold page).2 := by
  rcases hold_eq s page with h | ⟨s', frame, rfl, -, h⟩ <;> rw [h] <;>
    exact ⟨rfl, rfl, rfl, rfl, rfl⟩

theorem sameFrames_release (s : Store) (handle : Handle) : s.SameFrames (s.release handle) :=
  ⟨rfl, rfl, rfl, rfl, rfl⟩

theorem SameFrames.find? (h : s.SameFrames s') (page : PageId) :
    s'.cache.find? page = s.cache.find? page := by
  rw [Cache.find?, Cache.find?, h.frames]

theorem SameFrames.valid (h : s.SameFrames s') (hs : s.cache.Valid) : s'.cache.Valid := by
  refine hs.of_frames (by rw [h.frames]) h.recency h.capacity ?_
  intro page frame hf
  rw [h.find?] at hf
  exact hs.keyed hf

theorem SameFrames.view (h : s.SameFrames s') : s'.view = s.view := by
  refine view_eq_of h.disk h.catalog fun page => ?_
  simp only [Store.view, h.find?]

theorem SameFrames.stored (h : s.SameFrames s') (page : PageId) : s'.stored page = s.stored page := by
  rw [Store.stored, Store.stored, h.disk, h.catalog]

theorem SameFrames.seated (h : s.SameFrames s') (hs : s.Seated) : s'.Seated := by
  refine ⟨h.catalog ▸ hs.sound, h.valid hs.valid, fun {page frame} hf => ?_⟩
  rw [h.stored]
  exact hs.seated (h.find? page ▸ hf)

theorem SameFrames.coherent (h : s.SameFrames s') (hs : s.Coherent) : s'.Coherent := by
  refine ⟨h.seated hs.toSeated, fun page frame hf hclean => ?_, fun page frame hf => ?_⟩ <;>
    rw [storedBytes, h.stored, ← storedBytes]
  · exact hs.clean page frame (h.find? page ▸ hf) hclean
  · exact hs.before page frame (h.find? page ▸ hf)

/-- The cache keeps its invariant and was built for `capacity` pages. -/
structure Bounded (capacity : Nat) (s : Store) : Prop where
  valid : s.cache.Valid
  capacity : s.cache.capacity = capacity

variable {capacity : Nat}

theorem Moves.bounded (h : Moves s s') (hs : s.Bounded capacity) : s'.Bounded capacity :=
  ⟨Moves.valid h hs.valid, (Moves.fixed h).2.trans hs.capacity⟩

theorem SameFrames.bounded (h : s.SameFrames s') (hs : s.Bounded capacity) : s'.Bounded capacity :=
  ⟨h.valid hs.valid, h.capacity.trans hs.capacity⟩

theorem Bounded.abort (hs : s.Bounded capacity) (tid : TransactionId) :
    (s.abort tid).Bounded capacity :=
  ⟨valid_abort hs.valid tid, hs.capacity⟩

theorem Bounded.flush (hs : s.Bounded capacity) (page : PageId) :
    (s.flush page).2.Bounded capacity := by
  refine ⟨valid_flush hs.valid page, ?_⟩
  rcases flush_eq s page with h | ⟨frame, disk, -, -, h⟩
  · rw [h]
    exact hs.capacity
  · rw [h]
    exact hs.capacity

end Store

namespace Session

variable {x : Session}

/-- The session after an action. -/
def act (x : Session) : Action → Session
  | .ask request => (x.respond request).2
  | .hold page => { x with store := (x.store.hold page).2 }
  | .release handle => { x with store := x.store.release handle }

/-- What moves, flushes and aborts keep, and what does not depend on handles, is kept by every
action. -/
theorem act_keeps {keeps : Store → Prop} (hvalid : ∀ {s}, keeps s → s.cache.Valid)
    (hmoves : ∀ {s s'}, Store.Moves s s' → keeps s → keeps s')
    (hsame : ∀ {s s'}, Store.SameFrames s s' → keeps s → keeps s')
    (hflush : ∀ {s} page, keeps s → keeps (s.flush page).2)
    (habort : ∀ {s} tid, keeps s → keeps (s.abort tid)) (hx : keeps x.store) (action : Action) :
    keeps (x.act action).store := by
  cases action with
  | ask request => exact respond_keeps hvalid hmoves hflush habort hx request
  | hold page =>
    exact hsame (Store.sameFrames_hold x.store page) (hmoves (Store.moves_fetch x.store page) hx)
  | release handle => exact hsame (Store.sameFrames_release x.store handle) hx

theorem coherent_act (hx : x.store.Coherent) {action : Action} (hflush : action.isFlush = false) :
    (x.act action).store.Coherent := by
  cases action with
  | ask request => exact coherent_respond hx hflush
  | hold page =>
    have hfetched := (Store.moves_fetch x.store page).coherent hx
    exact (Store.sameFrames_hold x.store page).coherent hfetched
  | release handle => exact (Store.sameFrames_release x.store handle).coherent hx

/-- No action touches the catalog. -/
theorem catalog_act (hx : x.store.cache.Valid) (action : Action) :
    (x.act action).store.catalog = x.store.catalog := by
  refine (@act_keeps x (fun s => s.cache.Valid ∧ s.catalog = x.store.catalog)
    (fun h => h.1) ?_ ?_ ?_ ?_ ⟨hx, rfl⟩ action).2
  · rintro s s' hmoves ⟨hs, hcatalog⟩
    exact ⟨Store.Moves.valid hmoves hs, (Store.Moves.catalog hmoves).trans hcatalog⟩
  · rintro s s' hsame ⟨hs, hcatalog⟩
    exact ⟨hsame.valid hs, hsame.catalog.trans hcatalog⟩
  · rintro s page ⟨hs, hcatalog⟩
    exact ⟨Store.valid_flush hs page, (Store.catalog_flush s page).trans hcatalog⟩
  · rintro s tid ⟨hs, hcatalog⟩
    exact ⟨Store.valid_abort hs tid, hcatalog⟩

/-! ## The invariant of the cache -/

/-- An action once others have changed the files and the catalog. -/
structure Disturbance where
  disk : Disk
  catalog : Catalog
  action : Action

/-- The session after the files and the catalog have become others and then an action. -/
def disturb (x : Session) (d : Disturbance) : Session :=
  act { x with store := { x.store with disk := d.disk, catalog := d.catalog } } d.action

variable {capacity : Nat}

/-- Every action keeps the invariant, also one that fails half way. -/
theorem bounded_act (hx : x.store.Bounded capacity) (action : Action) :
    (x.act action).store.Bounded capacity :=
  act_keeps (fun hs => hs.valid) Store.Moves.bounded Store.SameFrames.bounded
    (fun page hs => hs.flush page) (fun tid hs => hs.abort tid) hx action

/-- A run keeps the invariant, whatever becomes of the files and the catalog. -/
theorem bounded_disturb (hx : x.store.Bounded capacity) (run : List Disturbance) :
    (run.foldl disturb x).store.Bounded capacity := by
  induction run generalizing x with
  | nil => exact hx
  | cons d run ih =>
    have haltered : Store.Bounded capacity { x.store with disk := d.disk, catalog := d.catalog } :=
      ⟨hx.valid, hx.capacity⟩
    exact ih (bounded_act (x := { x with store := _ }) haltered d.action)

/-- A cache with room for a page can be built, and whatever is done with a session on it, and
whatever becomes of the files and tables meanwhile, it never holds more pages than it was built for,
the order of last use lists exactly the cached pages and none of them twice, and every page is
cached under its identity. -/
theorem cache_bounded_tracked_keyed (pageSize : Nat) {capacity : Nat} (hpos : 0 < capacity) :
    ∃ cache, Cache.ofCapacity pageSize capacity = .ok cache ∧
      ∀ (disk : Disk) (catalog : Catalog) (cursors : List Cursor) (run : List Disturbance),
        let reached := (run.foldl disturb ⟨⟨disk, catalog, cache⟩, cursors⟩).store.cache
        reached.size ≤ capacity ∧
          reached.recency.pages.Nodup ∧
          reached.recency.pages.Perm (reached.frames.map Prod.fst) ∧
          ∀ entry ∈ reached.frames, entry.2.page.id = entry.1 := by
  cases hcache : Cache.ofCapacity pageSize capacity with
  | error e => simp [Cache.ofCapacity, hpos] at hcache
  | ok cache =>
    refine ⟨cache, rfl, fun disk catalog cursors run => ?_⟩
    have hcapacity : cache.capacity = capacity := by
      unfold Cache.ofCapacity at hcache
      rw [dif_pos hpos] at hcache
      rw [← Except.ok.inj hcache]
    have hstart : Store.Bounded capacity ⟨disk, catalog, cache⟩ :=
      ⟨Cache.valid_of_ofCapacity hcache, hcapacity⟩
    obtain ⟨hvalid, hreached⟩ :=
      @bounded_disturb ⟨⟨disk, catalog, cache⟩, cursors⟩ capacity hstart run
    refine ⟨hreached ▸ hvalid.bounded, hvalid.once, ?_, ?_⟩
    · rw [List.perm_ext_iff_of_nodup hvalid.once hvalid.distinct]
      intro page
      rw [hvalid.tracked, Cache.find?_isSome_iff]
    · rintro ⟨page, frame⟩ hentry
      exact hvalid.keyed ((Lookup.lookup_eq_some_iff_mem hvalid.distinct).mpr hentry)

end Session

/-- The first page is filled while it is kept in use, and the third insert, which appends a page,
finds no room for it. -/
def Sample.crowded : List Action :=
  [.ask (.insert ⟨1⟩ Sample.table.id (Sample.row 1 10)), .hold ⟨Sample.table.id, 0⟩,
    .ask (.commit ⟨1⟩), .ask (.insert ⟨2⟩ Sample.table.id (Sample.row 2 20)),
    .ask (.insert ⟨2⟩ Sample.table.id (Sample.row 3 30))]

/-- A cache for one page, which is in use, stays at that page, also when the file is emptied before
every action. -/
theorem Session.cache_bounded_crowded :
    let run := Sample.crowded.map fun action =>
      (⟨(Sample.store 1 Nat.one_pos).disk, (Sample.store 1 Nat.one_pos).catalog, action⟩ :
        Disturbance)
    let reached := (run.foldl disturb { store := Sample.store 1 Nat.one_pos }).store.cache
    reached.frames.map Prod.fst = [⟨Sample.table.id, 0⟩] ∧ reached.size ≤ 1 ∧
      reached.recency.pages.Perm (reached.frames.map Prod.fst) := by
  obtain ⟨cache, hcache, hkept⟩ := cache_bounded_tracked_keyed 20 Nat.one_pos
  obtain rfl : (Sample.store 1 Nat.one_pos).cache = cache := Except.ok.inj hcache
  obtain ⟨hsize, -, hperm, -⟩ := hkept (Sample.store 1 Nat.one_pos).disk
    (Sample.store 1 Nat.one_pos).catalog [] _
  exact ⟨by decide +kernel, hsize, hperm⟩

end RowStore
