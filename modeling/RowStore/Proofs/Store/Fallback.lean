import RowStore.Proofs.Operator.Matching
import RowStore.Proofs.View.Entries

/-!
# RowStore.Proofs.Store.Fallback: the bytes pages fall back to

A page carries the bytes it falls back to when its transaction is aborted, and a flush leaves them
as they are.  Until something is aborted nobody can tell what they are: two stores that are
`Store.plain`ly the same answer alike and stay so.  When all pages are clean and hold what the disk
has, a store that is plainly the same is coherent (`Store.exists_coherent`), so whatever is known of
coherent stores can be used after a flush as well.
-/

namespace RowStore

namespace Page

variable {first second : Page}

/-- The page without the bytes it falls back to. -/
def plain (page : Page) : Page :=
  { page with before := [] }

theorem dirtier_congr (h : first.plain = second.plain) : first.dirtier = second.dirtier :=
  show first.plain.dirtier = second.plain.dirtier from congrArg dirtier h

theorem written_congr (h : first.plain = second.plain) : first.written = second.written :=
  show first.plain.written = second.plain.written from congrArg written h

theorem rows_congr (h : first.plain = second.plain) : first.rows = second.rows :=
  rows_eq_of_written (written_congr h)

theorem firstFree?_congr (h : first.plain = second.plain) : first.firstFree? = second.firstFree? :=
  show first.plain.firstFree? = second.plain.firstFree? from congrArg firstFree? h

theorem insert_congr (h : first.plain = second.plain) (row : Row) :
    (first.insert row).map (fun out => (out.1, out.2.plain)) =
      (second.insert row).map fun out => (out.1, out.2.plain) := by
  have hplain : ∀ page : Page, (page.plain.insert row).map (fun out => (out.1, out.2.plain)) =
      (page.insert row).map fun out => (out.1, out.2.plain) := by
    intro page
    have hschema : page.plain.schema = page.schema := rfl
    have hslot : page.plain.firstFree? = page.firstFree? := rfl
    unfold insert
    rw [hschema, hslot]
    split_ifs
    · rcases page.firstFree? with _ | slot
      · rfl
      · rcases row.encode with e | bytes <;> rfl
    · rfl
  rw [← hplain first, ← hplain second, h]

end Page

/-! ## Pages of a cache -/

namespace Cache

/-- The cache with all of its pages changed. -/
def mapPages (change : Page → Page) (cache : Cache) : Cache :=
  { cache with
    frames := cache.frames.map fun entry =>
      (entry.1, { entry.2 with page := change entry.2.page }) }

variable (change : Page → Page)

theorem find?_mapPages (cache : Cache) (page : PageId) :
    (cache.mapPages change).find? page =
      (cache.find? page).map fun frame => { frame with page := change frame.page } :=
  Lookup.lookup_map cache.frames (fun _ frame => { frame with page := change frame.page }) page

theorem isEvictable_mapPages (hchange : ∀ page, (change page).dirtier = page.dirtier)
    (cache : Cache) (page : PageId) :
    (cache.mapPages change).isEvictable page = cache.isEvictable page := by
  unfold isEvictable
  rw [find?_mapPages]
  cases cache.find? page with
  | none => rfl
  | some frame =>
    dsimp only [Option.map_some]
    rw [hchange]
    rfl

theorem makeRoom?_mapPages (hchange : ∀ page, (change page).dirtier = page.dirtier)
    (cache : Cache) :
    (cache.mapPages change).makeRoom? = cache.makeRoom?.map (mapPages change) := by
  have hsize : (cache.mapPages change).size = cache.size := List.length_map _
  have hevict : (cache.mapPages change).isEvictable = cache.isEvictable :=
    funext (isEvictable_mapPages change hchange cache)
  unfold makeRoom?
  rw [hsize, hevict, mapPages]
  dsimp only
  by_cases hroom : cache.size < cache.capacity
  · rw [if_pos hroom, if_pos hroom]
    rfl
  · rw [if_neg hroom, if_neg hroom]
    cases cache.recency.evict cache.isEvictable with
    | none => rfl
    | some evicted =>
      simp only [Option.map_some, mapPages, List.filter_map]
      rfl

theorem load_mapPages (hchange : ∀ page, (change page).id = page.id) (cache : Cache) (page : Page) :
    (cache.load page).mapPages change = (cache.mapPages change).load (change page) := by
  simp [load, mapPages, hchange]

theorem put_mapPages (hchange : ∀ page, (change page).id = page.id) (cache : Cache) (page : Page) :
    (cache.put page).mapPages change = (cache.mapPages change).put (change page) := by
  simp only [put, mapPages, hchange, List.map_map]
  congr 2
  funext entry
  dsimp only [Function.comp_apply]
  split_ifs <;> rfl

end Cache

/-! ## Stores that are plainly the same -/

namespace Store

/-- The store whose pages have nothing to fall back to. -/
def plain (s : Store) : Store :=
  { s with cache := s.cache.mapPages Page.plain }

/-- Two outcomes that are the same, with stores that are plainly the same. -/
structure Same {α : Type} (first second : α × Store) : Prop where
  result : first.1 = second.1
  store : first.2.plain = second.2.plain

/-- Two outcomes that are the same, also for the cursor or operator that was asked, with stores that
are plainly the same. -/
structure SameStep {α κ : Type} (first second : α × κ × Store) : Prop where
  result : first.1 = second.1
  state : first.2.1 = second.2.1
  store : first.2.2.plain = second.2.2.plain

variable {s t : Store} {page : PageId} {tid : TransactionId} {row : Row}

theorem disk_congr (h : s.plain = t.plain) : s.disk = t.disk :=
  show s.plain.disk = t.plain.disk from congrArg Store.disk h

theorem catalog_congr (h : s.plain = t.plain) : s.catalog = t.catalog :=
  show s.plain.catalog = t.plain.catalog from congrArg Store.catalog h

theorem cache_congr (h : s.plain = t.plain) :
    s.cache.mapPages Page.plain = t.cache.mapPages Page.plain :=
  congrArg Store.cache h

theorem capacity_congr (h : s.plain = t.plain) : s.cache.capacity = t.cache.capacity :=
  show (s.cache.mapPages Page.plain).capacity = (t.cache.mapPages Page.plain).capacity from
    congrArg Cache.capacity (cache_congr h)

theorem slotLimit_congr (h : s.plain = t.plain) : s.slotLimit = t.slotLimit := by
  have hplain : ∀ u : Store, u.plain.slotLimit = u.slotLimit := by
    intro u
    simp only [slotLimit, plain, Cache.mapPages, List.map_map]
    rfl
  rw [← hplain s, ← hplain t, h]

/-- The frames found under one page differ at most in the bytes the page falls back to. -/
theorem find?_congr (h : s.plain = t.plain) (page : PageId) :
    (s.cache.find? page).map (fun frame => { frame with page := frame.page.plain }) =
      (t.cache.find? page).map fun frame => { frame with page := frame.page.plain } := by
  rw [← Cache.find?_mapPages, ← Cache.find?_mapPages, cache_congr h]

/-- Stores that are plainly the same answer a fetch with pages that are plainly the same. -/
theorem fetch_congr (h : s.plain = t.plain) (page : PageId) :
    (s.fetch page).1.map Page.plain = (t.fetch page).1.map Page.plain ∧
      (s.fetch page).2.plain = (t.fetch page).2.plain := by
  have hfind := find?_congr h page
  have hroom := congrArg Cache.makeRoom? (cache_congr h)
  rw [Cache.makeRoom?_mapPages Page.plain (fun _ => rfl),
    Cache.makeRoom?_mapPages Page.plain (fun _ => rfl)] at hroom
  have hstored : s.stored page = t.stored page := by
    rw [stored, stored, disk_congr h, catalog_congr h]
  rw [fetch_eq, fetch_eq, hstored, capacity_congr h]
  cases hs : s.cache.find? page with
  | some frame =>
    cases ht : t.cache.find? page with
    | none => simp [hs, ht] at hfind
    | some frame' =>
      simp only [hs, ht, Option.map_some, Option.some.injEq, Frame.mk.injEq] at hfind
      exact ⟨congrArg Except.ok hfind.2,
        congrArg (fun u : Store => { u with cache := u.cache.touch page }) h⟩
  | none =>
    cases ht : t.cache.find? page with
    | some frame' => simp [hs, ht] at hfind
    | none =>
      cases t.stored page with
      | error e => exact ⟨rfl, h⟩
      | ok content =>
        cases hs : s.cache.makeRoom? with
        | none =>
          cases ht : t.cache.makeRoom? with
          | none => exact ⟨rfl, h⟩
          | some room' => simp [hs, ht] at hroom
        | some room =>
          cases ht : t.cache.makeRoom? with
          | none => simp [hs, ht] at hroom
          | some room' =>
            rw [hs, ht, Option.map_some, Option.map_some, Option.some.injEq] at hroom
            refine ⟨rfl, ?_⟩
            dsimp only [plain]
            rw [Cache.load_mapPages Page.plain (fun _ => rfl),
              Cache.load_mapPages Page.plain (fun _ => rfl), hroom, disk_congr h, catalog_congr h]

theorem put_congr {first second : Page} (h : s.plain = t.plain)
    (hpage : first.plain = second.plain) : (s.put first).plain = (t.put second).plain := by
  dsimp only [put, plain]
  rw [Cache.put_mapPages Page.plain (fun _ => rfl), Cache.put_mapPages Page.plain (fun _ => rfl),
    cache_congr h, hpage, disk_congr h, catalog_congr h]

/-! ### What is shown -/

theorem changed_congr (h : s.plain = t.plain) (page : PageId) :
    (s.view.changed page).map Page.plain = (t.view.changed page).map Page.plain := by
  have hfind := find?_congr h page
  unfold view
  dsimp only
  generalize s.cache.find? page = first at hfind ⊢
  generalize t.cache.find? page = second at hfind ⊢
  rcases first with _ | first <;> rcases second with _ | second
  · rfl
  · cases hfind
  · cases hfind
  · have hpage : first.page.plain = second.page.plain := congrArg Frame.page (Option.some.inj hfind)
    have hdirtier : first.page.dirtier = second.page.dirtier := Page.dirtier_congr hpage
    simp only [Option.map_some, Option.filter_some, hdirtier]
    split_ifs
    · exact congrArg some hpage
    · rfl

theorem readsAs_congr (h : s.plain = t.plain) : s.view.ReadsAs t.view := by
  refine ⟨fun page => ?_, fun file => by rw [disk_view, disk_view, disk_congr h]⟩
  have hchanged := changed_congr h page
  unfold View.page
  rw [disk_view, disk_view, catalog_view, catalog_view, disk_congr h, catalog_congr h]
  generalize s.view.changed page = first at hchanged ⊢
  generalize t.view.changed page = second at hchanged ⊢
  rcases first with _ | first <;> rcases second with _ | second
  · rfl
  · cases hchanged
  · cases hchanged
  · have hpage : first.plain = second.plain := Option.some.inj hchanged
    exact congrArg Except.ok (Page.written_congr hpage.symm)

theorem AllClean.congr (hs : s.AllClean) (h : s.plain = t.plain) : t.AllClean := by
  refine allClean_iff.mpr fun page => ?_
  have hchanged := changed_congr h page
  rw [allClean_iff.mp hs] at hchanged
  exact Option.map_eq_none_iff.mp hchanged.symm

theorem Roomy.congr (hs : s.Roomy) (h : s.plain = t.plain) : t.Roomy :=
  ⟨hs.clean.congr h, (congrArg (fun u : Store => u.cache.handles) h).symm.trans hs.free⟩

/-- When clean pages hold what the disk has and all are clean, they may as well fall back to it. -/
theorem exists_coherent (hs : s.Seated) (hmatch : s.CleanMatch) (hclean : s.AllClean) :
    ∃ t : Store, t.plain = s.plain ∧ t.Coherent := by
  have hfind := Cache.find?_mapPages Page.setBefore s.cache
  refine ⟨{ s with cache := s.cache.mapPages Page.setBefore }, ?_, ⟨hs.sound, ?_, ?_⟩, ?_, ?_⟩
  · simp only [plain, Cache.mapPages, List.map_map]
    rfl
  · refine hs.valid.of_frames ?_ rfl rfl fun {page frame} hf => ?_
    · simp only [Cache.mapPages, List.map_map]
      rfl
    · rw [hfind] at hf
      obtain ⟨old, hold, rfl⟩ := Option.map_eq_some_iff.mp hf
      exact (hs.valid.keyed hold : old.page.id = page)
  · intro page frame hf
    rw [hfind] at hf
    obtain ⟨old, hold, rfl⟩ := Option.map_eq_some_iff.mp hf
    obtain ⟨content, hstored, hschema, hlength, -⟩ := hs.seated hold
    exact ⟨content, hstored, hschema, hlength, hlength⟩
  · intro page frame hf _
    rw [hfind] at hf
    obtain ⟨old, hold, rfl⟩ := Option.map_eq_some_iff.mp hf
    exact hmatch page old hold (hclean page old hold)
  · intro page frame hf
    rw [hfind] at hf
    obtain ⟨old, hold, rfl⟩ := Option.map_eq_some_iff.mp hf
    exact hmatch page old hold (hclean page old hold)

/-! ### Inserting -/

theorem insertInPage_congr (h : s.plain = t.plain) (tid : TransactionId) (page : PageId)
    (row : Row) : Same (s.insertInPage tid page row) (t.insertInPage tid page row) := by
  have hfetch := fetch_congr h page
  unfold insertInPage
  rcases hs : s.fetch page with ⟨e | first, s'⟩ <;>
    rcases ht : t.fetch page with ⟨e' | second, t'⟩ <;>
    rw [hs, ht] at hfetch <;> obtain ⟨hresult, hnext⟩ := hfetch
  · obtain rfl := Except.error.inj hresult
    exact ⟨rfl, hnext⟩
  · cases hresult
  · cases hresult
  · have hpage : first.plain = second.plain := Except.ok.inj hresult
    have hinsert := Page.insert_congr hpage row
    dsimp only
    rw [Page.firstFree?_congr hpage]
    split_ifs
    · exact ⟨rfl, hnext⟩
    · rcases hfirst : first.insert row with e | ⟨record, changed⟩ <;>
        rcases hsecond : second.insert row with e' | ⟨record', changed'⟩ <;>
        rw [hfirst, hsecond] at hinsert
      · obtain rfl := Except.error.inj hinsert
        exact ⟨rfl, hnext⟩
      · cases hinsert
      · cases hinsert
      · obtain ⟨rfl, hchanged⟩ := Prod.mk.inj (Except.ok.inj hinsert)
        exact ⟨rfl, put_congr hnext (congrArg (fun page : Page => page.mark (some tid)) hchanged)⟩

theorem insertInPages_congr (tid : TransactionId) (row : Row) :
    ∀ (pages : List PageId) {s t : Store}, s.plain = t.plain →
      Same (insertInPages tid row pages s) (insertInPages tid row pages t)
  | [], s, t, h => ⟨rfl, h⟩
  | page :: pages, s, t, h => by
    have hfirst := insertInPage_congr h tid page row
    unfold insertInPages
    rcases hs : s.insertInPage tid page row with ⟨result, s'⟩
    rcases ht : t.insertInPage tid page row with ⟨result', t'⟩
    rw [hs, ht] at hfirst
    obtain ⟨rfl, hnext⟩ := hfirst
    rcases result with e | _ | record
    · exact ⟨rfl, hnext⟩
    · exact insertInPages_congr tid row pages hnext
    · exact ⟨rfl, hnext⟩

theorem insertGrowing_congr (table : Table) (tid : TransactionId) (row : Row) :
    ∀ (attempts : Nat) {s t : Store}, s.plain = t.plain →
      Same (insertGrowing table tid row attempts s) (insertGrowing table tid row attempts t)
  | 0, s, t, h => by
    unfold insertGrowing
    rw [disk_congr h]
    exact ⟨rfl, h⟩
  | attempts + 1, s, t, h => by
    have hpages := insertInPages_congr tid row (table.firstPages (table.pageCount t.disk)) h
    unfold insertGrowing
    rw [disk_congr h]
    dsimp only
    rcases hs : insertInPages tid row (table.firstPages (table.pageCount t.disk)) s with
      ⟨result, s'⟩
    rcases ht : insertInPages tid row (table.firstPages (table.pageCount t.disk)) t with
      ⟨result', t'⟩
    rw [hs, ht] at hpages
    obtain ⟨rfl, hnext⟩ := hpages
    rcases result with e | _ | record
    · exact ⟨rfl, hnext⟩
    · dsimp only
      rw [disk_congr hnext]
      cases table.writeBytes t'.disk ⟨table.id, table.pageCount t.disk⟩
          (Bytes.zeros table.pageSize) with
      | error e => exact ⟨rfl, hnext⟩
      | ok disk =>
        have hgrown : ({ s' with disk } : Store).plain = ({ t' with disk } : Store).plain :=
          congrArg (fun u : Store => { u with disk }) hnext
        have hlast := insertInPage_congr hgrown tid ⟨table.id, table.pageCount t.disk⟩ row
        dsimp only
        rcases hs' : insertInPage { s' with disk } tid ⟨table.id, table.pageCount t.disk⟩ row with
          ⟨result, s''⟩
        rcases ht' : insertInPage { t' with disk } tid ⟨table.id, table.pageCount t.disk⟩ row with
          ⟨result', t''⟩
        rw [hs', ht'] at hlast
        obtain ⟨rfl, hnext'⟩ := hlast
        rcases result with e | _ | record
        · exact ⟨rfl, hnext'⟩
        · exact insertGrowing_congr table tid row attempts hnext'
        · exact ⟨rfl, hnext'⟩
    · exact ⟨rfl, hnext⟩

/-- Stores that are plainly the same answer an insert alike. -/
theorem insertRow_congr (h : s.plain = t.plain) (tid : TransactionId) (id : TableId) (row : Row) :
    Same (s.insertRow tid id row) (t.insertRow tid id row) := by
  have hsize : s.cache.size = t.cache.size := by
    have hlength := congrArg (fun cache => cache.frames.length) (cache_congr h)
    rwa [Cache.mapPages, Cache.mapPages, List.length_map, List.length_map] at hlength
  unfold insertRow insertInTable
  rw [catalog_congr h, hsize]
  cases t.catalog.table id with
  | error e => exact ⟨rfl, h⟩
  | ok table =>
    dsimp only
    split_ifs
    · exact insertGrowing_congr table tid row _ h
    · exact ⟨rfl, h⟩

end Store

/-! ## Cursors and scans -/

namespace Cursor

variable {s t : Store}

theorem fill_congr : ∀ (remaining : Nat) (cursor : Cursor) {s t : Store}, s.plain = t.plain →
    Store.SameStep (cursor.fill remaining s) (cursor.fill remaining t)
  | 0, _, _, _, h => ⟨rfl, rfl, h⟩
  | remaining + 1, cursor, s, t, h => by
    have hfetch := Store.fetch_congr h ⟨cursor.table.id, cursor.next⟩
    unfold fill
    rcases hs : s.fetch ⟨cursor.table.id, cursor.next⟩ with ⟨e | first, s'⟩ <;>
      rcases ht : t.fetch ⟨cursor.table.id, cursor.next⟩ with ⟨e' | second, t'⟩ <;>
      rw [hs, ht] at hfetch <;> obtain ⟨hresult, hnext⟩ := hfetch
    · obtain rfl := Except.error.inj hresult
      exact ⟨rfl, rfl, hnext⟩
    · cases hresult
    · cases hresult
    · dsimp only
      rw [Page.rows_congr (Except.ok.inj hresult : first.plain = second.plain)]
      rcases second.rows with e | _ | ⟨row, rest⟩
      · exact ⟨rfl, rfl, hnext⟩
      · exact fill_congr remaining _ hnext
      · exact ⟨rfl, rfl, hnext⟩

theorem pull_congr (cursor : Cursor) (h : s.plain = t.plain) :
    Store.SameStep (cursor.pull s) (cursor.pull t) := by
  have hnext : Store.SameStep (cursor.hasNext s) (cursor.hasNext t) := by
    unfold hasNext
    split_ifs
    · exact ⟨rfl, rfl, h⟩
    · rw [Store.disk_congr h]
      exact fill_congr _ cursor h
    · exact ⟨rfl, rfl, h⟩
  unfold pull
  rcases hs : cursor.hasNext s with ⟨result, moved, s'⟩
  rcases ht : cursor.hasNext t with ⟨result', moved', t'⟩
  rw [hs, ht] at hnext
  obtain ⟨rfl, rfl, hstore⟩ := hnext
  rcases result with e | _ | _ <;> exact ⟨rfl, rfl, hstore⟩

theorem drainWithin_congr : ∀ (limit : Nat) (cursor : Cursor) {s t : Store}, s.plain = t.plain →
    (cursor.drainWithin limit s).1 = (cursor.drainWithin limit t).1
  | 0, _, _, _, _ => rfl
  | limit + 1, cursor, s, t, h => by
    have hpull := pull_congr cursor h
    unfold drainWithin
    rcases hs : cursor.pull s with ⟨result, moved, s'⟩
    rcases ht : cursor.pull t with ⟨result', moved', t'⟩
    rw [hs, ht] at hpull
    obtain ⟨rfl, rfl, hnext⟩ := hpull
    rcases result with e | _ | row
    · rfl
    · rfl
    · have hrest := drainWithin_congr limit moved hnext
      dsimp only
      rcases hs' : moved.drainWithin limit s' with ⟨e | rows, last⟩ <;>
        rcases ht' : moved.drainWithin limit t' with ⟨e' | rows', last'⟩ <;>
        rw [hs', ht'] at hrest
      · exact hrest
      · cases hrest
      · cases hrest
      · obtain rfl := Except.ok.inj hrest
        rfl

theorem rowLimit_congr (cursor : Cursor) (h : s.plain = t.plain) :
    cursor.rowLimit s = cursor.rowLimit t := by
  rw [rowLimit, rowLimit, Store.disk_congr h, Store.slotLimit_congr h]

end Cursor

/-- Stores that are plainly the same hold the same rows. -/
theorem Store.scan_congr {s t : Store} (h : s.plain = t.plain) (table : Table) :
    s.scan table = t.scan table := by
  rw [scan, scan, Cursor.drain, Cursor.drain, Cursor.rowLimit_congr _ h]
  exact Cursor.drainWithin_congr _ _ h

/-! ## Operators -/

namespace Operator

variable {s t : Store}

theorem next_congr (op : Operator) (h : s.plain = t.plain) :
    Store.SameStep (op.next s) (op.next t) := by
  cases op with
  | scan source =>
    cases hcursor : source.cursor with
    | none =>
      rw [next, next, TableScan.next, TableScan.next, hcursor]
      exact ⟨rfl, rfl, h⟩
    | some cursor =>
      have hpull := cursor.pull_congr h
      rw [next, next, TableScan.next, TableScan.next, hcursor]
      dsimp only
      rcases hs : cursor.pull s with ⟨result, moved, s'⟩
      rcases ht : cursor.pull t with ⟨result', moved', t'⟩
      rw [hs, ht] at hpull
      obtain ⟨rfl, rfl, hnext⟩ := hpull
      rcases result with e | _ | row
      · exact ⟨rfl, rfl, hnext⟩
      · exact ⟨rfl, rfl, hnext⟩
      · dsimp only
        cases row.withSchema source.schema <;> exact ⟨rfl, rfl, hnext⟩
  | _ => exact ⟨rfl, rfl, h⟩

theorem drainLimit_congr (op : Operator) (h : s.plain = t.plain) :
    op.drainLimit s = op.drainLimit t := by
  have hslots := Store.slotLimit_congr h
  have hrows : op.rowLimit s = op.rowLimit t := by
    cases op with
    | scan source =>
      simp only [rowLimit]
      congr 2
      funext cursor
      exact cursor.rowLimit_congr h
    | _ => rfl
  rw [drainLimit, drainLimit, hrows, hslots, Store.capacity_congr h]

theorem drainWithin_congr : ∀ (limit : Nat) (op : Operator) {s t : Store}, s.plain = t.plain →
    (op.drainWithin limit s).1 = (op.drainWithin limit t).1
  | 0, _, _, _, _ => rfl
  | limit + 1, op, s, t, h => by
    have hfirst := op.next_congr h
    rcases hs : op.next s with ⟨result, op', s'⟩
    rcases ht : op.next t with ⟨result', op'', t'⟩
    rw [hs, ht] at hfirst
    obtain ⟨rfl, rfl, hnext⟩ := hfirst
    rcases result with e | _ | row
    · rw [drainWithin_error limit hs, drainWithin_error limit ht]
    · rw [drainWithin_none limit hs, drainWithin_none limit ht]
    · rw [drainWithin_some limit hs, drainWithin_some limit ht]
      exact congrArg (Except.map (row :: ·)) (drainWithin_congr limit op' hnext)

theorem drain_congr (op : Operator) (h : s.plain = t.plain) : (op.drain s).1 = (op.drain t).1 := by
  rw [drain, drain, drainLimit_congr op h]
  exact drainWithin_congr _ op h

theorem changeEach_congr (tid : TransactionId) (id : TableId) :
    ∀ (limit count : Nat) (op : Operator) {s t : Store}, s.plain = t.plain →
      Store.SameStep (changeEach (insertChange tid id) limit count op s)
        (changeEach (insertChange tid id) limit count op t)
  | 0, _, _, _, _, h => ⟨rfl, rfl, h⟩
  | limit + 1, count, op, s, t, h => by
    have hfirst := op.next_congr h
    unfold changeEach
    rcases hs : op.next s with ⟨result, op', s'⟩
    rcases ht : op.next t with ⟨result', op'', t'⟩
    rw [hs, ht] at hfirst
    obtain ⟨rfl, rfl, hnext⟩ := hfirst
    rcases result with e | _ | row
    · exact ⟨rfl, rfl, hnext⟩
    · exact ⟨rfl, rfl, hnext⟩
    · have hinsert := Store.insertRow_congr hnext tid id row
      dsimp only
      unfold insertChange
      rcases hs' : s'.insertRow tid id row with ⟨result, s''⟩
      rcases ht' : t'.insertRow tid id row with ⟨result', t''⟩
      rw [hs', ht'] at hinsert
      obtain ⟨rfl, hnext'⟩ := hinsert
      rcases result with e | record
      · exact ⟨rfl, rfl, hnext'⟩
      · exact changeEach_congr tid id limit (count + 1) op' hnext'

/-- Inserting the rows of a scan ends alike on stores that are plainly the same. -/
theorem start_congr (source : TableScan) (tid : TransactionId) (id : TableId) (tally : Tally)
    (h : s.plain = t.plain) :
    Store.SameStep ((insert (.scan source) tid id tally).start s)
      ((insert (.scan source) tid id tally).start t) := by
  have hsource : source.start s = source.start t := by
    rw [TableScan.start, TableScan.start, Store.catalog_congr h]
  unfold start
  split_ifs
  · exact ⟨rfl, rfl, h⟩
  · rw [start, start, hsource]
    rcases source.start t with ⟨e | _, moved⟩
    · exact ⟨rfl, rfl, h⟩
    · have hloop := changeEach_congr tid id ((scan moved).drainLimit t) 0 (.scan moved) h
      dsimp only [changeAll]
      rw [drainLimit_congr _ h]
      rcases hs : changeEach (insertChange tid id) ((scan moved).drainLimit t) 0 (.scan moved) s
        with ⟨result, child, s'⟩
      rcases ht : changeEach (insertChange tid id) ((scan moved).drainLimit t) 0 (.scan moved) t
        with ⟨result', child', t'⟩
      rw [hs, ht] at hloop
      obtain ⟨rfl, rfl, hnext⟩ := hloop
      rcases result with e | total
      · exact ⟨rfl, rfl, hnext⟩
      · dsimp only
        cases Tally.rowOf total <;> exact ⟨rfl, rfl, hnext⟩

end Operator

end RowStore
