import RowStore.Proofs.Operator.Replay
import RowStore.Proofs.Store.Entries
import RowStore.Proofs.View.Advance
import RowStore.Proofs.View.Copies

/-!
# RowStore.Proofs.Operator.Copying: inserting a table into itself

An operator that inserts the rows of a scan reads the table while it changes it, one page at a time.
Its copies go to the lowest free slots.  As long as those are on pages the scan has passed it never
reads a copy, and that is so exactly while at most half of the slots of these pages are taken
(`View.HalfFree`).  `Copying` is what holds between two rows; pulling a row and inserting its copy
keep it (`Copying.pull`, `Copying.insert`), so the loop over all rows ends with one copy of each.
-/

namespace RowStore

namespace View

/-- At most half of the slots of the first `count` pages of a table are taken. -/
def HalfFreeIn (v : View) (table : Table) (count : Nat) : Prop :=
  ∀ rows, v.rowsFrom table.id 0 count = .ok rows → 2 * rows.length ≤ count * table.slotsPerPage

/-- At most half of the slots of the first pages of a table are taken, of however many pages. -/
def HalfFree (v : View) (table : Table) : Prop :=
  ∀ count ≤ table.pageCount v.disk, v.HalfFreeIn table count

end View

namespace Store

variable {s t : Store} {table : Table} {rows : List Row}

/-- A page that is shown has the schema and as many slots as its table says. -/
theorem Coherent.slots_eq {page : PageId} {content : Page} (hs : s.Coherent)
    (htable : s.catalog.table page.table = .ok table) (h : s.view.page page = .ok content) :
    content.schema = table.schema ∧ content.slots = table.slotsPerPage := by
  rw [hs.page_view] at h
  obtain ⟨found, hfound, hschema, hlength⟩ := hs.table_of_shown h
  rw [htable, Except.ok.injEq] at hfound
  subst hfound
  exact ⟨hschema, by rw [Page.slots, Page.geometry, hschema, hlength, Table.slotsPerPage]⟩

/-- A table that is read while its rows are inserted into it again: all of its pages fit into the
cache, and no page is dirty or held. -/
structure Copyable (s : Store) (table : Table) (rows : List Row) : Prop where
  coherent : s.Coherent
  roomy : s.Roomy
  registered : s.catalog.table table.id = .ok table
  fits : table.pageCount s.disk < s.cache.capacity
  scanned : s.view.scan table = .ok rows

namespace Copyable

theorem clean (h : s.Copyable table rows) (page : PageId) : s.view.changed page = none :=
  allClean_iff.mp h.roomy.clean page

theorem readableIn (h : s.Copyable table rows) : s.view.ReadableIn table.id := by
  intro number content hpage
  have hlt : number < table.pageCount s.disk := h.coherent.number_lt_pageCount hpage h.registered
  exact View.readable_of_rowsFrom h.scanned (Nat.zero_le _) (by simpa using hlt) hpage

/-- Every row of the table can be stored in it again. -/
theorem storesAs (h : s.Copyable table rows) {row : Row} (hrow : row ∈ rows) :
    row.schema = table.schema ∧ ∀ schema : Schema, schema.Agrees table.schema →
      { row with schema }.StoresAs table.schema row.values := by
  have hlists := View.lists_rowsFrom h.coherent.keyed_view h.scanned
  obtain ⟨record, ⟨htable, -⟩, hentry, -⟩ := hlists.of_mem hrow
  obtain ⟨content, hpage⟩ := View.exists_page_of_isSome (by rw [hentry]; rfl)
  rw [View.entries_of_page hpage] at hentry
  have hcontent := (h.coherent.slots_eq (htable ▸ h.registered) hpage).1
  refine ⟨(Page.schema_of_read? hentry).trans hcontent, fun schema hagree => ?_⟩
  rw [← hcontent] at hagree ⊢
  exact Page.storesAs_of_read? hentry hagree

end Copyable

end Store

/-! ## Between two rows -/

/-- A scan of a table has handed out the rows `seen`, `copied` of which were inserted again, all on
pages it has passed. -/
structure Copying (s : Store) (table : Table) (t : Store) (cursor : Cursor) (seen copied : List Row)
    (records : List RecordId) : Prop where
  coherent : t.Coherent
  unheld : t.cache.handles = []
  capacity : t.cache.capacity = s.cache.capacity
  copies : s.view.Copies t.view table.id cursor.next records copied
  readable : t.view.ReadableIn table.id
  cursor_table : cursor.table = table
  isOpen : cursor.isOpen = true
  next_le : cursor.next ≤ table.pageCount s.disk
  read : s.view.rowsFrom table.id 0 cursor.next = .ok (seen ++ cursor.buffer)

namespace Copying

open Store (Copyable)

variable {s t : Store} {table : Table} {rows seen copied : List Row} {cursor : Cursor}
  {records : List RecordId} {row : Row}

theorem start (hc : s.Copyable table rows) :
    Copying s table s (Cursor.start { table }) [] [] [] :=
  ⟨hc.coherent, hc.roomy.free, rfl, .refl _ _ _, hc.readableIn, rfl, rfl, Nat.zero_le _, rfl⟩

theorem disk_eq (h : Copying s table t cursor seen copied records) : t.disk = s.disk :=
  h.copies.disk

theorem registered (h : Copying s table t cursor seen copied records) (hc : s.Copyable table rows) :
    t.catalog.table table.id = .ok table :=
  (congrArg (·.table table.id) h.copies.catalog).trans hc.registered

/-- The pages that were passed are still there. -/
theorem exists_page (h : Copying s table t cursor seen copied records) (hc : s.Copyable table rows)
    {number : Nat} (hlt : number < cursor.next) :
    ∃ content, t.view.page ⟨table.id, number⟩ = .ok content := by
  obtain ⟨content, -, hpage, -⟩ :=
    View.exists_page_of_rowsFrom h.read (Nat.zero_le number) (by omega)
  rw [View.page, hc.clean] at hpage
  unfold View.page
  cases t.view.changed ⟨table.id, number⟩ with
  | some changed => exact ⟨changed, rfl⟩
  | none => exact ⟨content, by rw [h.copies.catalog, h.copies.disk]; exact hpage⟩

/-- There is room for every page: only pages of the table are dirty, and they all fit. -/
theorem admits (h : Copying s table t cursor seen copied records) (hc : s.Copyable table rows) :
    t.Admits := by
  refine ⟨@Store.hasRoom_of_changed t h.coherent.valid h.unheld
    (table.firstPages (table.pageCount s.disk)) (fun page content hchanged => ?_) ?_,
    by simp [Store.Issued, h.unheld]⟩
  · by_contra hout
    have hother : ¬ (page.table = table.id ∧ page.number < cursor.next) := by
      rintro ⟨htable, hlt⟩
      refine hout (List.mem_map.mpr ⟨page.number, List.mem_range.mpr ?_, by rw [← htable]⟩)
      exact Nat.lt_of_lt_of_le hlt h.next_le
    rw [h.copies.elsewhere page hother, hc.clean] at hchanged
    cases hchanged
  · rw [h.capacity, Table.firstPages, List.length_map, List.length_range]
    exact hc.fits

/-- Pages the cursor has not reached hold what they held. -/
theorem rowsFrom_ahead (h : Copying s table t cursor seen copied records) (more : Nat) :
    t.view.rowsFrom table.id cursor.next more = s.view.rowsFrom table.id cursor.next more :=
  View.rowsFrom_congr _ _ fun _ hle _ =>
    congrArg _ (h.copies.page fun hin => Nat.not_lt_of_le hle hin.2)

/-- What is left of the table behind the rows that were seen. -/
theorem exists_rest (h : Copying s table t cursor seen copied records)
    (hc : s.Copyable table rows) :
    ∃ rest, t.view.rest cursor = .ok rest ∧ rows = seen ++ rest := by
  have hscan := hc.scanned
  unfold View.scan at hscan
  rw [Store.disk_view, ← Nat.add_sub_cancel' h.next_le, View.rowsFrom_add_eq_ok_iff] at hscan
  obtain ⟨first, behind, hfirst, hbehind, rfl⟩ := hscan
  rw [h.read, Except.ok.injEq] at hfirst
  subst hfirst
  rw [Nat.zero_add] at hbehind
  refine ⟨cursor.buffer ++ behind, View.rest_eq_ok_iff.mpr ⟨behind, ?_, rfl⟩, List.append_assoc ..⟩
  rw [h.cursor_table, Store.disk_view, h.disk_eq, h.rowsFrom_ahead, hbehind]

theorem length_le (h : Copying s table t cursor seen copied records) (hc : s.Copyable table rows) :
    seen.length ≤ rows.length := by
  obtain ⟨rest, -, rfl⟩ := h.exists_rest hc
  rw [List.length_append]
  exact Nat.le_add_right _ _

/-- A cursor gets no further than the last page of the table. -/
theorem next_pull_le (h : Copying s table t cursor seen copied records)
    (hc : s.Copyable table rows) : (cursor.pull t).2.1.next ≤ table.pageCount s.disk := by
  by_contra hpast
  have hadvance := Cursor.advance_pull h.coherent h.isOpen
  have hlast : table.pageCount s.disk < (cursor.pull t).2.1.next := by omega
  obtain ⟨content, hpage⟩ := hadvance.exists_page h.next_le hlast
  rw [h.cursor_table] at hpage
  have hlt : table.pageCount s.disk < table.pageCount t.disk :=
    h.coherent.number_lt_pageCount hpage (h.registered hc)
  rw [h.disk_eq] at hlt
  exact Nat.lt_irrefl _ hlt

/-- Pulling a row leaves everything as it was but for that row. -/
theorem pulled (h : Copying s table t cursor seen copied records) (hc : s.Copyable table rows)
    (hrow : (cursor.pull t).1 = .ok (some row)) :
    Copying s table (cursor.pull t).2.2 (cursor.pull t).2.1 (seen ++ [row]) copied records := by
  have hmoves := Store.moves_pull cursor t
  have hview := (Store.pull_refines h.coherent cursor).1
  have hadvance := Cursor.advance_pull h.coherent h.isOpen
  have hbuffer := @Cursor.buffer_append_taken cursor t h.isOpen
  rw [hrow] at hbuffer
  have hpassed := (hadvance.congr (w := s.view) fun number hle _ => ?_).passed
  · rw [h.cursor_table] at hpassed
    refine ⟨Store.Moves.coherent hmoves h.coherent, (Store.Moves.handles hmoves).trans h.unheld,
      (Store.Moves.fixed hmoves).2.trans h.capacity, hview ▸ h.copies.mono hadvance.next_le,
      hview ▸ h.readable, (cursor.table_pull t).trans h.cursor_table,
      hadvance.isOpen.trans h.isOpen, h.next_pull_le hc, ?_⟩
    -- what was in the buffer and what was taken in are the row and what is in the buffer now
    rw [← Nat.add_sub_cancel' hadvance.next_le, View.rowsFrom_add_eq_ok_iff]
    refine ⟨_, _, h.read, by rw [Nat.zero_add]; exact hpassed, ?_⟩
    rw [List.append_assoc, List.append_assoc, hbuffer]
    rfl
  · exact congrArg _ (h.copies.page fun hin => Nat.not_lt_of_le hle hin.2).symm

/-- The scan hands out the next row of the table, or has come to its end. -/
theorem pull (h : Copying s table t cursor seen copied records) (hc : s.Copyable table rows) :
    (cursor.pull t).1 = .ok none ∧ seen = rows ∨
      ∃ row ∈ rows, (cursor.pull t).1 = .ok (some row) := by
  obtain ⟨rest, hrest, rfl⟩ := h.exists_rest hc
  obtain ⟨-, hsame | hrefused⟩ := Store.pull_refines h.coherent cursor
  · rcases View.pull_spec (fun _ _ hpage => Store.slots_le_slotLimit h.coherent hpage) h.isOpen
      hsame.symm with ⟨e, -, herror⟩ | ⟨hnone, hempty⟩ | ⟨row, hsome, hfirst, -, -⟩
    · rw [hrest] at herror
      cases herror
    · rw [hrest, Except.ok.injEq] at hempty
      exact Or.inl ⟨hnone, by rw [hempty, List.append_nil]⟩
    · rw [hrest] at hfirst
      cases hleft : t.view.rest (cursor.pull t).2.1 with
      | error e => simp [hleft, Except.map] at hfirst
      | ok left =>
        simp only [hleft, Except.map, Except.ok.injEq] at hfirst
        exact Or.inr ⟨row, by simp [hfirst], hsome⟩
  · rw [Store.isRefused_pull h.coherent (h.admits hc)] at hrefused
    cases hrefused

/-- One of the pages that were passed has a free slot for the next copy. -/
theorem exists_free (h : Copying s table t cursor (copied ++ [row]) copied records)
    (hc : s.Copyable table rows) (hhalf : s.view.HalfFree table) :
    ∃ number content, number < cursor.next ∧ t.view.page ⟨table.id, number⟩ = .ok content ∧
      content.firstFree? ≠ none := by
  have hlength := hhalf cursor.next h.next_le _ h.read
  have hcount := h.copies.copied.length_eq
  refine h.copies.exists_free hc.coherent.keyed_view h.coherent.keyed_view h.readable
    (fun number hlt => h.exists_page hc hlt)
    (fun number content hpage => (h.coherent.slots_eq (h.registered hc) hpage).2) h.read ?_
  simp only [List.length_append, List.length_singleton] at hlength ⊢
  omega

/-- The row that was pulled is inserted again on one of the pages that were passed, when one of
these has a free slot. -/
theorem insert (h : Copying s table t cursor (copied ++ [row]) copied records)
    (hc : s.Copyable table rows) (hrow : row ∈ rows) {schema : Schema}
    (hagree : schema.Agrees table.schema)
    (hfree : ∃ number content, number < cursor.next ∧
      t.view.page ⟨table.id, number⟩ = .ok content ∧ content.firstFree? ≠ none)
    (tid : TransactionId) :
    ∃ record t', t.insertRow tid table.id { row with schema } = (.ok record, t') ∧
      Copying s table t' cursor (copied ++ [row]) (copied ++ [row]) (records ++ [record]) := by
  obtain ⟨hschema, hstores⟩ := hc.storesAs hrow
  have hcontent : ∀ {number content}, t.view.page ⟨table.id, number⟩ = .ok content →
      content.schema = table.schema := fun hpage =>
    (h.coherent.slots_eq (h.registered hc) hpage).1
  have hpages : ∀ page ∈ table.firstPages cursor.next, page.table = table.id ∧
      page.number < cursor.next := by
    intro page hmem
    obtain ⟨number, hlt, rfl⟩ := List.mem_map.mp hmem
    exact ⟨rfl, List.mem_range.mp hlt⟩
  obtain ⟨record, moved, hinserted⟩ :
      ∃ record moved, View.insertInPages tid { row with schema } (table.firstPages cursor.next)
        t.view = (.ok (some record), moved) := by
    refine View.insertInPages_of_free (fun page hmem => ?_)
      (fun page hmem content hpage hfree => ?_) ?_
    · obtain ⟨number, hlt, rfl⟩ := List.mem_map.mp hmem
      exact h.exists_page hc (List.mem_range.mp hlt)
    · obtain ⟨number, -, rfl⟩ := List.mem_map.mp hmem
      have hsame := hcontent hpage
      exact Page.exists_insert (hsame ▸ hagree) (hsame ▸ hstores schema hagree) hfree
    · obtain ⟨number, content, hlt, hpage, hslot⟩ := hfree
      exact ⟨_, List.mem_map_of_mem (List.mem_range.mpr hlt), content, hpage, hslot⟩
  obtain ⟨t', ht', rfl⟩ := Store.insertRow_of_free h.coherent (h.admits hc) (h.registered hc) hagree
    (h.disk_eq ▸ h.next_le) hinserted
  rcases View.insertInPages_spec h.coherent.keyed_view hinserted with
    ⟨-, hnone⟩ | ⟨found, hfound, hmem, hinserts⟩
  · exact absurd rfl (hnone record)
  obtain rfl : record = found := by simpa using hfound
  have hpage := hpages _ hmem
  have hrecord : ∀ content, t.view.page record.page = .ok content →
      content.schema = table.schema := by
    intro content hshown
    exact @hcontent record.page.number content (hpage.1 ▸ hshown)
  have hmoves := Store.moves_insertRow h.coherent.valid tid table.id { row with schema }
  rw [ht'] at hmoves
  refine ⟨record, t', ht', Store.Moves.coherent hmoves h.coherent,
    (Store.Moves.handles hmoves).trans h.unheld, (Store.Moves.fixed hmoves).2.trans h.capacity, ?_,
    hinserts.readableIn hrecord (hstores schema hagree) hpage.1 h.readable, h.cursor_table,
    h.isOpen, h.next_le, h.read⟩
  exact h.copies.insert h.coherent.keyed_view hinserts hpage (hschema ▸ hrecord)
    (hschema ▸ hstores schema hagree)

end Copying

/-! ## All rows -/

namespace Operator

open Store (Copyable)

variable {s t : Store} {table : Table} {rows copied : List Row} {cursor : Cursor}
  {records : List RecordId} {source : TableScan}

/-- Inserting every row a scan has still to hand out ends with a copy of each row of the table. -/
theorem changeEach_copying (hc : s.Copyable table rows) (hhalf : s.view.HalfFree table)
    (hagree : source.schema.Agrees table.schema) (tid : TransactionId) :
    ∀ (limit : Nat) {t : Store} {cursor : Cursor} {copied : List Row} {records : List RecordId},
      Copying s table t cursor copied copied records →
        rows.length < copied.length + limit →
          ∃ cursor' t' records', changeEach (insertChange tid table.id) limit copied.length
              (.scan { source with cursor := some cursor }) t =
                (.ok rows.length, .scan { source with cursor := some cursor' }, t') ∧
            s.view.Copies t'.view table.id (table.pageCount s.disk) records' rows
  | 0, t, cursor, copied, records, h, hlimit => by
    have hlength := h.length_le hc
    omega
  | limit + 1, t, cursor, copied, records, h, hlimit => by
    unfold changeEach
    rcases h.pull hc with ⟨hnone, rfl⟩ | ⟨row, hrow, hsome⟩
    · have hview := (Store.pull_refines h.coherent cursor).1
      rw [next, TableScan.next_of_pull_none rfl hnone]
      exact ⟨_, _, records, rfl, hview ▸ h.copies.mono h.next_le⟩
    · have hpulled := h.pulled hc hsome
      obtain ⟨record, t', ht', hnext⟩ :=
        hpulled.insert hc hrow hagree (hpulled.exists_free hc hhalf) tid
      have hschema := (hc.storesAs hrow).1
      rw [next, TableScan.next_of_pull_some rfl hsome (hschema ▸ hagree)]
      dsimp only
      rw [insertChange, ht']
      dsimp only [Except.map]
      have hrest := changeEach_copying hc hhalf hagree tid limit hnext (by simp; omega)
      rwa [List.length_append, List.length_singleton] at hrest

end Operator

end RowStore
