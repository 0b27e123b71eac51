import RowStore.Proofs.Cursor
import RowStore.Proofs.Handles

/-!
# RowStore.Proofs.Served: the schema and the size of cached pages

A page keeps the schema and the size it was loaded with for as long as it is cached; nothing
compares it with the catalog again.  So whatever holds of the schema and the size of every page
that can be loaded (`Store.AllLoaded`) goes on to hold of every page that is cached
(`Store.AllCached`), and of every page a fetch returns.
-/

namespace RowStore

namespace Store

variable {s s' : Store} {fits : PageId → Schema → Nat → Prop} {page : PageId} {content : Page}

/-- Every page that can be loaded has a schema and a size that fit it. -/
def AllLoaded (fits : PageId → Schema → Nat → Prop) (s : Store) : Prop :=
  ∀ page table, s.catalog.table page.table = .ok table → fits page table.schema table.pageSize

/-- Every cached page has a schema and a size that fit it, and falls back to as many bytes. -/
def AllCached (fits : PageId → Schema → Nat → Prop) (s : Store) : Prop :=
  ∀ page frame, s.cache.find? page = some frame →
    fits page frame.page.schema frame.page.data.length ∧
      frame.page.before.length = frame.page.data.length

theorem AllLoaded.stored (hl : s.AllLoaded fits) (h : s.stored page = .ok content) :
    fits page content.schema content.data.length := by
  obtain ⟨table, ht, hschema, hlength⟩ := Catalog.table_of_stored h
  rw [hschema, hlength]
  exact hl page table ht

theorem AllCached.of_find? (hc : s.AllCached fits)
    (hfind : ∀ page, s'.cache.find? page = s.cache.find? page) : s'.AllCached fits := by
  intro page frame hf
  rw [hfind] at hf
  exact hc page frame hf

/-- A cached page can be replaced by one that fits as well. -/
theorem AllCached.put {frame : Frame} (hc : s.AllCached fits)
    (hf : s.cache.find? content.id = some frame)
    (hfits : fits content.id content.schema content.data.length)
    (hbefore : content.before.length = content.data.length) : (s.put content).AllCached fits := by
  intro page frame' hf'
  rw [find?_put hf] at hf'
  split_ifs at hf' with heq
  · rw [← Option.some.inj hf', heq]
    exact ⟨hfits, hbefore⟩
  · exact hc page frame' hf'

theorem Move.allCached (h : Move s s') (hs : s.cache.Valid) (hl : s.AllLoaded fits)
    (hc : s.AllCached fits) : s'.AllCached fits := by
  cases h with
  | use hused => exact hc.of_find? fun _ => rfl
  | @load loaded content room hmiss hstored hroom =>
    intro page frame hf
    change (room.load content).find? page = some frame at hf
    rw [Cache.find?_load] at hf
    rcases Option.or_eq_some_iff.mp hf with hold | ⟨-, hload⟩
    · exact hc page frame (Cache.find?_of_find?_makeRoom hs hroom hold)
    · split_ifs at hload with heq
      rw [← Option.some.inj hload, heq, id_of_stored hstored]
      refine ⟨hl.stored hstored, ?_⟩
      rw [stored_eq_ofBytes hstored]
      rfl
  | @rewrite rewritten frame changed tid hf hr =>
    obtain ⟨hfits, hbefore⟩ := hc rewritten frame hf
    have hid : (changed.mark (some tid)).id = rewritten := hr.id.trans (hs.keyed hf)
    refine hc.put (hid ▸ hf) ?_ ?_
    · rw [hid]
      change fits rewritten changed.schema changed.data.length
      rw [hr.schema, hr.length]
      exact hfits
    · change changed.before.length = changed.data.length
      rw [hr.before, hr.length]
      exact hbefore
  | @settle settled frame disk hf hw =>
    have hid : ((frame.page.mark none).setBefore).id = settled := hs.keyed hf
    refine AllCached.put (s := { s with disk }) hc (hid ▸ hf) ?_ rfl
    rw [hid]
    exact (hc settled frame hf).1
  | drop gone =>
    intro page frame hf
    rw [find?_discard] at hf
    split_ifs at hf
    exact hc page frame hf
  | grow ht hw => exact hc

theorem AllLoaded.of_catalog (hl : s.AllLoaded fits) (h : s'.catalog = s.catalog) :
    s'.AllLoaded fits := by
  intro page table ht
  rw [h] at ht
  exact hl page table ht

theorem Moves.allCached (h : Moves s s') (hs : s.cache.Valid) (hl : s.AllLoaded fits)
    (hc : s.AllCached fits) : s'.AllCached fits := by
  induction h with
  | refl => exact hc
  | tail hmoves hmove ih =>
    exact hmove.allCached (Moves.valid hmoves hs) (hl.of_catalog (Moves.catalog hmoves)) ih

theorem AllCached.flush (hs : s.cache.Valid) (hc : s.AllCached fits) (page : PageId) :
    (s.flush page).2.AllCached fits := by
  rcases flush_eq s page with h | ⟨frame, disk, hf, -, h⟩
  · rwa [h]
  · rw [h]
    have hid : (frame.page.mark none).id = page := hs.keyed hf
    obtain ⟨hfits, hbefore⟩ := hc page frame hf
    exact AllCached.put (s := { s with disk }) hc (hid ▸ hf) (hid ▸ hfits) hbefore

theorem AllCached.abort (hc : s.AllCached fits) (tid : TransactionId) :
    (s.abort tid).AllCached fits := by
  intro page frame' hf'
  obtain ⟨frame, hf, ⟨-, hpage⟩ | ⟨-, rfl⟩⟩ := cached_of_abort hf'
  · obtain ⟨hfits, hbefore⟩ := hc page frame hf
    rw [hpage]
    refine ⟨?_, rfl⟩
    change fits page frame.page.schema frame.page.before.length
    rw [hbefore]
    exact hfits
  · exact hc page frame' hf

/-- A page that is fetched fits. -/
theorem fits_of_fetch (hl : s.AllLoaded fits) (hc : s.AllCached fits)
    (h : s.fetch page = (.ok content, s')) : fits page content.schema content.data.length := by
  have hfetched := s.fetched page
  rw [h] at hfetched
  cases hfetched with
  | hit hf => exact (hc page _ hf).1
  | loaded hmiss hstored hroom => exact hl.stored hstored

end Store

/-! ## Rows of pages that fit -/

theorem Page.schema_of_mem_rows {page : Page} {rows : List Row} (h : page.rows = .ok rows) :
    ∀ row ∈ rows, row.schema = page.schema := by
  have hslots : ∀ (slots : List Nat) {rows : List Row},
      page.rowsAt page.geometry slots = .ok rows → ∀ row ∈ rows, row.schema = page.schema := by
    intro slots
    induction slots with
    | nil =>
      intro rows h row hrow
      cases h
      cases hrow
    | cons slot slots ih =>
      intro rows h row hrow
      obtain ⟨first, rest, hfirst, hrest, rfl⟩ := rowsAt_cons_eq_ok_iff.mp h
      rcases List.mem_cons.mp hrow with rfl | hmem
      · unfold rowAt Row.decode at hfirst
        rcases hvalues : decodeValues page.schema.types
          (page.data.slice (page.geometry.offset slot) page.geometry.rowWidth) with
          ⟨e | values, left⟩
        · simp [hvalues] at hfirst
        · simp only [hvalues, Except.ok.injEq] at hfirst
          rw [← hfirst]
          rfl
      · exact ih hrest row hmem
  exact hslots page.usedSlots h

namespace Cursor

variable {s : Store} {fits : PageId → Schema → Nat → Prop}

/-- Rows a cursor takes into its buffer are rows of pages of its table, which fit. -/
theorem fits_of_fill : ∀ (remaining : Nat) (cursor : Cursor) {s : Store}, s.cache.Valid →
    s.AllLoaded fits → s.AllCached fits →
    ∀ row ∈ (cursor.fill remaining s).2.1.buffer, row ∈ cursor.buffer ∨
      ∃ page size, page.table = cursor.table.id ∧ fits page row.schema size
  | 0, _, _, _, _, _ => fun _ hrow => Or.inl hrow
  | remaining + 1, cursor, s, hs, hl, hc => by
    have hmoves := Store.moves_fetch s ⟨cursor.table.id, cursor.next⟩
    unfold fill
    cases hfetch : s.fetch ⟨cursor.table.id, cursor.next⟩ with
    | mk result s₁ =>
      rw [hfetch] at hmoves
      cases result with
      | error e => exact fun _ hrow => Or.inl hrow
      | ok content =>
        dsimp only
        cases hrows : content.rows with
        | error e => exact fun _ hrow => Or.inl hrow
        | ok rows =>
          cases rows with
          | nil =>
            exact fits_of_fill remaining { cursor with next := cursor.next + 1 }
              (Store.Moves.valid hmoves hs) (hl.of_catalog (Store.Moves.catalog hmoves))
              (Store.Moves.allCached hmoves hs hl hc)
          | cons first rest =>
            intro row hrow
            refine Or.inr ⟨⟨cursor.table.id, cursor.next⟩, content.data.length, rfl, ?_⟩
            rw [Page.schema_of_mem_rows hrows row hrow]
            exact Store.fits_of_fetch hl hc hfetch

theorem fits_of_hasNext (cursor : Cursor) (hs : s.cache.Valid) (hl : s.AllLoaded fits)
    (hc : s.AllCached fits) :
    ∀ row ∈ (cursor.hasNext s).2.1.buffer, row ∈ cursor.buffer ∨
      ∃ page size, page.table = cursor.table.id ∧ fits page row.schema size := by
  unfold hasNext
  split_ifs
  · exact fun _ hrow => Or.inl hrow
  · exact fits_of_fill _ cursor hs hl hc
  · exact fun _ hrow => Or.inl hrow

/-- A row that is handed out was in the buffer, and what stays in the buffer was there too. -/
theorem pull_eq (cursor : Cursor) (s : Store) :
    (cursor.pull s).2.1.table = cursor.table ∧
      (∀ row ∈ (cursor.pull s).2.1.buffer, row ∈ (cursor.hasNext s).2.1.buffer) ∧
      ∀ row, (cursor.pull s).1 = .ok (some row) → row ∈ (cursor.hasNext s).2.1.buffer := by
  have htable := cursor.table_hasNext s
  unfold pull
  rcases hnext : cursor.hasNext s with ⟨e | _ | _, cursor', s'⟩
  · rw [hnext] at htable
    exact ⟨htable, fun _ hrow => hrow, fun _ hrow => by cases hrow⟩
  · rw [hnext] at htable
    exact ⟨htable, fun _ hrow => hrow, fun _ hrow => by cases hrow⟩
  · rw [hnext] at htable
    exact ⟨htable, fun _ hrow => List.mem_of_mem_tail hrow,
      fun _ hrow => List.mem_of_mem_head? (Except.ok.inj hrow)⟩

end Cursor

/-! ## Sessions -/

namespace Session

variable {x : Session} {fits : PageId → Schema → Nat → Prop}

/-- Whatever a session does, the catalog stays and the cached pages go on to fit. -/
theorem allCached_act (hs : x.store.cache.Valid) (hl : x.store.AllLoaded fits)
    (hc : x.store.AllCached fits) (action : Action) :
    (x.act action).store.cache.Valid ∧ (x.act action).store.catalog = x.store.catalog ∧
      (x.act action).store.AllCached fits := by
  refine @act_keeps x (fun s => s.cache.Valid ∧ s.catalog = x.store.catalog ∧ s.AllCached fits)
    (fun h => h.1) ?_ ?_ ?_ ?_ ⟨hs, rfl, hc⟩ action
  · rintro s s' hmoves ⟨hs, hcatalog, hc⟩
    exact ⟨Store.Moves.valid hmoves hs, (Store.Moves.catalog hmoves).trans hcatalog,
      Store.Moves.allCached hmoves hs (hl.of_catalog hcatalog) hc⟩
  · rintro s s' hsame ⟨hs, hcatalog, hc⟩
    exact ⟨hsame.valid hs, hsame.catalog.trans hcatalog, hc.of_find? hsame.find?⟩
  · rintro s page ⟨hs, hcatalog, hc⟩
    exact ⟨Store.valid_flush hs page, (Store.catalog_flush s page).trans hcatalog, hc.flush hs page⟩
  · rintro s tid ⟨hs, hcatalog, hc⟩
    exact ⟨Store.valid_abort hs tid, hcatalog, hc.abort tid⟩

end Session

end RowStore
