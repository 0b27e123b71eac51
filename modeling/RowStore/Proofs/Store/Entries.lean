import RowStore.Proofs.Session
import RowStore.Proofs.View.Entries

/-!
# RowStore.Proofs.Store.Entries: what a store does to its entries

A store is `Intact` when its cache agrees with the disk, its pages can be read and its tables can
store the lengths of text they allow.  Whatever the cache has room for, an insert into an intact
store adds one entry or fails, and a delete removes one or fails (`Intact.insertRow`,
`Intact.deleteRow`); and a cursor that is not refused takes the first of the rows that are left.
-/

namespace RowStore

/-- The lengths that the columns of the registered tables allow can be stored. -/
def Catalog.Addressable (catalog : Catalog) : Prop :=
  ∀ entry ∈ catalog.entries, ∀ type ∈ entry.table.schema.types, type.Addressable

theorem Catalog.Addressable.table {catalog : Catalog} (h : catalog.Addressable) {id : TableId}
    {table : Table} (ht : catalog.table id = .ok table) :
    ∀ type ∈ table.schema.types, type.Addressable := by
  obtain ⟨-, entry, hentry, rfl⟩ := Catalog.mem_of_table ht
  exact h entry hentry

namespace Store

variable {s s' : Store} {tid : TransactionId} {row : Row} {page : PageId}

/-! ## Intact stores -/

/-- The cache agrees with the disk, every page can be read, and every length can be stored. -/
structure Intact (s : Store) : Prop extends s.Coherent where
  readable : s.view.Readable
  addressable : s.catalog.Addressable

/-- Once a table may have grown a page that is shown still has the schema of its table. -/
theorem schema_of_grown {grown : View} {content : Page} {table : Table} (hs : s.Coherent)
    (hgrown : grown = s.view ∨ s.view.Grows grown) (h : grown.page page = .ok content)
    (ht : s.catalog.table page.table = .ok table) : content.schema = table.schema := by
  unfold View.page at h
  rw [View.changed_of_grown hgrown] at h
  -- a changed page is shown as before; any other is stored, also the one that was appended
  cases hchanged : s.view.changed page with
  | some changed =>
    have hpage : s.view.page page = .ok content := by
      rw [View.page, hchanged]
      rwa [hchanged] at h
    rw [hs.page_view] at hpage
    obtain ⟨table', ht', hschema, -⟩ := hs.table_of_shown hpage
    rw [ht, Except.ok.injEq] at ht'
    rw [hschema, ht']
  | none =>
    rw [hchanged] at h
    obtain ⟨table', ht', hschema, -⟩ := Catalog.table_of_stored h
    have hcatalog : grown.catalog = s.catalog := by
      rcases hgrown with rfl | hgrows
      · rfl
      · exact hgrows.catalog
    rw [hcatalog, ht, Except.ok.injEq] at ht'
    rw [hschema, ht']

/-- What an insert does to the entries: it adds one at a record that was free, or fails. -/
theorem Intact.insertRow {id : TableId} {result : Except TableError RecordId} (hs : s.Intact)
    (hrow : row.WellTyped) (h : s.insertRow tid id row = (result, s')) :
    s'.view.Readable ∧
      ((∀ record, result ≠ .ok record) ∧ s'.view.entries = s.view.entries ∨
        ∃ record table, result = .ok record ∧ s.catalog.table id = .ok table ∧
          record.page.table = id ∧ s.view.entries record = none ∧
          s'.view.entries = Function.update s.view.entries record
            (some (row.keptAt table.schema record))) := by
  obtain ⟨grown, hgrown, hcases⟩ := insertRow_spec hs.toCoherent h
  have hentries : grown.entries = s.view.entries := by
    rcases hgrown with rfl | hgrows
    · rfl
    · exact hgrows.entries hs.sound
  have hreadable : grown.Readable := by
    rcases hgrown with rfl | hgrows
    · exact hs.readable
    · exact hgrows.readable hs.sound hs.readable
  rcases hcases with ⟨hview, hfailed⟩ | ⟨record, table, rfl, ht, hid, hinserts⟩
  · rw [hview]
    exact ⟨hreadable, Or.inl ⟨hfailed, hentries⟩⟩
  · have hkeyed := hs.keyed_view.of_changed (View.changed_of_grown hgrown)
    have hschema : ∀ content, grown.page record.page = .ok content →
        content.schema = table.schema := fun content hpage =>
      schema_of_grown hs.toCoherent hgrown hpage (hid ▸ ht)
    have hstores := hinserts.storesAs hschema hrow (hs.addressable.table ht)
    refine ⟨hinserts.readable hschema hstores hreadable,
      Or.inr ⟨record, table, rfl, ht, hid, ?_, ?_⟩⟩
    · rw [← hentries]
      exact hinserts.free
    · rw [← hentries]
      exact hinserts.entries hschema hstores hkeyed

/-- What a delete does to the entries: it removes the one at the record of its row, or fails. -/
theorem Intact.deleteRow {result : Except TableError PageId} (hs : s.Intact)
    (h : s.deleteRow tid row = (result, s')) :
    s'.view.Readable ∧
      ((∀ page, result ≠ .ok page) ∧ s'.view.entries = s.view.entries ∨
        ∃ record, result = .ok record.page ∧ row.record = some record ∧
          (s.view.entries record).isSome = true ∧
          s'.view.entries = Function.update s.view.entries record none) := by
  rcases deleteRow_spec hs.toCoherent h with ⟨hview, hfailed⟩ | ⟨record, rfl, hdeletes⟩
  · rw [hview]
    exact ⟨hs.readable, Or.inl ⟨hfailed, rfl⟩⟩
  · exact ⟨hdeletes.readable hs.readable, Or.inr ⟨record, rfl, hdeletes.1,
      hdeletes.isSome hs.readable, hdeletes.entries hs.keyed_view⟩⟩

/-! ## Cursors -/

section Cursors

variable {cursor : Cursor}

theorem pull_eq_of_ok {found : Option Row} (hs : s.Coherent) (h : (cursor.pull s).1 = .ok found) :
    s.view.pull cursor = (.ok found, (cursor.pull s).2.1) := by
  rcases (pull_refines hs cursor).2 with hsame | hrefused
  · rw [← hsame, h]
  · rw [h] at hrefused
    cases hrefused

theorem rest_of_pull_none (hs : s.Coherent) (hopen : cursor.isOpen = true)
    (h : (cursor.pull s).1 = .ok none) : s.view.rest cursor = .ok [] := by
  rcases View.pull_spec (fun page content => slots_le_slotLimit hs) hopen (pull_eq_of_ok hs h) with
    ⟨e, he, -⟩ | ⟨-, hrest⟩ | ⟨row, hrow, -⟩
  · cases he
  · exact hrest
  · cases hrow

theorem rest_of_pull_some {row : Row} (hs : s.Coherent) (hopen : cursor.isOpen = true)
    (h : (cursor.pull s).1 = .ok (some row)) :
    s.view.rest cursor = (s.view.rest (cursor.pull s).2.1).map (row :: ·) ∧
      (cursor.pull s).2.1.isOpen = true := by
  rcases View.pull_spec (fun page content => slots_le_slotLimit hs) hopen (pull_eq_of_ok hs h) with
    ⟨e, he, -⟩ | ⟨hnone, -⟩ | ⟨row', hrow, hrest, hopen', -⟩
  · cases he
  · cases hnone
  · cases hrow
    exact ⟨hrest, hopen'⟩

theorem rest_of_hasNext {found : Bool} (hs : s.Coherent) (hopen : cursor.isOpen = true)
    (h : (cursor.hasNext s).1 = .ok found) :
    (cursor.hasNext s).2.1.isOpen = true ∧
      s.view.rest (cursor.hasNext s).2.1 = s.view.rest cursor := by
  rcases (hasNext_refines hs cursor).2 with hsame | hrefused
  · rw [h] at hsame
    exact View.rest_hasNext hopen hsame.symm
  · rw [h] at hrefused
    cases hrefused

end Cursors

/-- A page that is shown is one of those a scan of its table passes over. -/
theorem Coherent.number_lt_pageCount {content : Page} {table : Table} (hs : s.Coherent)
    (h : s.view.page page = .ok content) (ht : s.catalog.table page.table = .ok table) :
    page.number < table.pageCount s.disk := by
  rw [hs.page_view] at h
  obtain ⟨stored, hstored, -⟩ := hs.stored_of_shown h
  exact Catalog.number_lt_pageCount hs.sound ht hstored

/-- The pages of a table that are shown are among those its file has. -/
theorem Coherent.pages_lt {table : Table} (hs : s.Coherent)
    (ht : s.catalog.table table.id = .ok table) (page : PageId) (content : Page)
    (h : s.view.page page = .ok content) (hof : page.table = table.id) :
    page.number < table.pageCount s.view.disk :=
  hs.number_lt_pageCount h (hof ▸ ht)

/-- A store on which nothing was done is intact when the stored pages can be read. -/
theorem Fresh.intact (h : s.Fresh) (hsound : s.catalog.Sound)
    (hreadable : ∀ page content, s.stored page = .ok content → content.Readable)
    (haddressable : s.catalog.Addressable) : s.Intact := by
  refine ⟨h.coherent hsound, fun page content hpage => ?_, haddressable⟩
  rw [View.page, h.view] at hpage
  exact hreadable page content hpage

end Store

end RowStore
