import RowStore.Proofs.View.Scan

/-!
# RowStore.Proofs.View.Effects: what each operation changes

One statement for each operation that changes something.  A commit writes pages out
(`Store.WritesOut`): they show what they showed, and pages of other transactions stay as they are,
in the cache and on the disk.  An insert or delete changes one shown page or none, and an insert
may append an empty page before (`View.Grows`), which changes no stored page and no scan.
-/

namespace RowStore

/-! ## Committing -/

namespace Store

variable {s s' t : Store} {page : PageId} {content : Page} {frame : Frame} {tid : TransactionId}

/-- `s'` is `s` with some pages of `tid` written out. -/
structure WritesOut (tid : TransactionId) (s s' : Store) : Prop where
  catalog : s'.catalog = s.catalog
  /-- No page shows other rows than before. -/
  shown : ∀ page, (s'.view.page page).map Page.written = (s.view.page page).map Page.written
  changed : ∀ page, s'.view.changed page = s.view.changed page ∨
    (∃ content, s.view.changed page = some content ∧ content.dirtier = some tid) ∧
      s'.view.changed page = none
  /-- No page that `tid` did not change is written. -/
  stored : ∀ page, (∀ content, s.view.changed page = some content → content.dirtier ≠ some tid) →
    s'.stored page = s.stored page
  length : ∀ file, (s'.disk.contents file).length = (s.disk.contents file).length

theorem WritesOut.refl (tid : TransactionId) (s : Store) : WritesOut tid s s :=
  ⟨rfl, fun _ => rfl, fun _ => Or.inl rfl, fun _ _ => rfl, fun _ => rfl⟩

theorem WritesOut.trans (h : WritesOut tid s t) (h' : WritesOut tid t s') :
    WritesOut tid s s' := by
  refine ⟨h'.catalog.trans h.catalog, fun page => (h'.shown page).trans (h.shown page),
    fun page => ?_, fun page hpage => ?_, fun file => (h'.length file).trans (h.length file)⟩
  · rcases h.changed page with hsame | ⟨hown, hnone⟩
    · rw [← hsame]
      exact h'.changed page
    · rcases h'.changed page with hsame | ⟨⟨content, hcontent, -⟩, -⟩
      · exact Or.inr ⟨hown, hsame.trans hnone⟩
      · rw [hnone] at hcontent
        cases hcontent
  · refine (h'.stored page fun content hcontent => ?_).trans (h.stored page hpage)
    rcases h.changed page with hsame | ⟨-, hnone⟩
    · exact hpage content (hsame ▸ hcontent)
    · rw [hnone] at hcontent
      cases hcontent

theorem writesOut_settle {disk : Disk} (hs : s.Seated) (hf : s.cache.find? page = some frame)
    (hmark : frame.page.dirtier = some tid) (hw : s.writeBack frame.page = .ok disk) :
    WritesOut tid s (({ s with disk } : Store).put (frame.page.mark none).setBefore) := by
  obtain ⟨hself, hother, hlength⟩ := stored_of_writeBack hs hf hw
  have hchanged : s.view.changed page = some frame.page :=
    changed_eq_some_iff.mpr ⟨frame, hf, rfl, hmark ▸ rfl⟩
  have hview := view_settle hs hf disk
  refine ⟨rfl, fun other => ?_, fun other => ?_, fun other hclean => ?_, hlength⟩
  · rw [hview]
    unfold View.page View.settle
    dsimp only
    split_ifs with heq
    · rw [heq, hchanged, catalog_view, hself]
      rfl
    · cases hother' : s.view.changed other with
      | some content => rfl
      | none => exact congrArg (Except.map Page.written) (hother other heq)
  · rw [hview]
    unfold View.settle
    dsimp only
    split_ifs with heq
    · exact Or.inr ⟨⟨frame.page, heq ▸ hchanged, hmark⟩, rfl⟩
    · exact Or.inl rfl
  · refine hother other ?_
    rintro rfl
    exact hclean frame.page hchanged hmark

theorem commitPages_spec (tid : TransactionId) :
    ∀ (pages : List PageId) {s : Store}, s.Coherent →
      WritesOut tid s (commitPages tid pages s).2 ∧
        ∀ page ∈ pages, ∀ content, (commitPages tid pages s).2.view.changed page = some content →
          content.dirtier ≠ some tid
  | [], s, _ => ⟨.refl tid s, fun _ h => by cases h⟩
  | page :: pages, s, hs => by
    -- the first page is settled or not a page of the transaction, and stays so
    suffices hnext : ∃ t : Store, t.Coherent ∧ WritesOut tid s t ∧
        commitPages tid (page :: pages) s = commitPages tid pages t ∧
        ∀ content, t.view.changed page = some content → content.dirtier ≠ some tid by
      obtain ⟨t, ht, hfirst, heq, hpage⟩ := hnext
      obtain ⟨hrest, hpages⟩ := commitPages_spec tid pages ht
      rw [heq]
      refine ⟨hfirst.trans hrest, fun other hother content hcontent => ?_⟩
      rcases List.mem_cons.mp hother with rfl | hin
      · rcases hrest.changed other with hsame | ⟨-, hnone⟩
        · exact hpage content (hsame ▸ hcontent)
        · rw [hnone] at hcontent
          cases hcontent
      · exact hpages other hin content hcontent
    simp only [commitPages]
    cases hf : s.cache.find? page with
    | none =>
      refine ⟨s, hs, .refl tid s, rfl, fun content hcontent => ?_⟩
      obtain ⟨frame, hf', -⟩ := changed_eq_some_iff.mp hcontent
      rw [hf] at hf'
      cases hf'
    | some frame =>
      dsimp only
      split_ifs with hmark
      · obtain ⟨disk, hw⟩ := writeBack_isOk hs.toSeated hf
        refine ⟨_, (Move.settle hf hw).coherent hs, writesOut_settle hs.toSeated hf hmark hw,
          by rw [hw], fun content hcontent => ?_⟩
        rw [view_settle hs.toSeated hf disk] at hcontent
        simp [View.settle] at hcontent
      · refine ⟨s, hs, .refl tid s, rfl, fun content hcontent => ?_⟩
        obtain ⟨frame', hf', rfl, -⟩ := changed_eq_some_iff.mp hcontent
        rw [hf, Option.some.injEq] at hf'
        rwa [← hf']

/-- A commit succeeds, writes out pages of the transaction and no others, and leaves none. -/
theorem commit_spec (hs : s.Coherent) (tid : TransactionId) :
    (s.commit tid).1 = .ok () ∧ WritesOut tid s (s.commit tid).2 ∧
      ∀ page content, (s.commit tid).2.view.changed page = some content →
        content.dirtier ≠ some tid := by
  obtain ⟨hwrites, hpages⟩ := commitPages_spec tid s.cache.pageIds hs
  unfold commit
  refine ⟨(commitPages_refines tid s.cache.pageIds hs).1, hwrites, fun page content hcontent => ?_⟩
  refine hpages page ?_ content hcontent
  -- a page that is still changed was changed before, so it was cached
  rcases hwrites.changed page with hsame | ⟨-, hnone⟩
  · obtain ⟨frame, hf, -⟩ := changed_eq_some_iff.mp (hsame.symm.trans hcontent)
    exact Cache.mem_pageIds.mpr (hf ▸ rfl)
  · rw [hnone] at hcontent
    cases hcontent

end Store

/-! ## Growing -/

namespace View

variable {v v' : View} {page : PageId} {content : Page} {tid : TransactionId} {row : Row}

theorem Grows.changed (h : v.Grows v') : v'.changed = v.changed := by
  obtain ⟨_, _, -, -, rfl⟩ := h
  rfl

theorem Grows.catalog (h : v.Grows v') : v'.catalog = v.catalog := by
  obtain ⟨_, _, -, -, rfl⟩ := h
  rfl

theorem changed_of_grown (h : v' = v ∨ v.Grows v') : v'.changed = v.changed := by
  rcases h with rfl | hgrows
  · rfl
  · exact hgrows.changed

/-- A stored page stays as it is. -/
theorem Grows.stored_of_stored (h : v.Grows v') (hs : v.catalog.Sound)
    (hstored : v.catalog.stored v.disk page = .ok content) :
    v'.catalog.stored v'.disk page = .ok content := by
  obtain ⟨table, disk, ht, hw, rfl⟩ := h
  have hne : page ≠ ⟨table.id, table.pageCount v.disk⟩ := by
    rintro rfl
    exact Catalog.stored_behind hs ht hstored
  exact Catalog.stored_writeBytes_of_ne ht hw hs hne hstored

/-- A page of another table than the one that grows is stored or not as it was. -/
theorem stored_write_of_ne {table : Table} {disk : Disk} (hs : v.catalog.Sound)
    (ht : v.catalog.table table.id = .ok table)
    (hw : table.writeBytes v.disk ⟨table.id, table.pageCount v.disk⟩
      (Bytes.zeros table.pageSize) = .ok disk) (hne : page.table ≠ table.id) :
    v.catalog.stored disk page = v.catalog.stored v.disk page := by
  unfold Catalog.stored
  cases ht' : v.catalog.table page.table with
  | error e => rfl
  | ok table' =>
    have hfile := hs.file_ne ht' ht hne
    simp only [Table.readPage, Table.pagedFile, Table.contents_of_writeBytes_of_ne hw hfile]

/-- A page that is stored after growing was stored before or holds zeros. -/
theorem Grows.stored_cases (h : v.Grows v') (hs : v.catalog.Sound)
    (hstored : v'.catalog.stored v'.disk page = .ok content) :
    v.catalog.stored v.disk page = .ok content ∨
      (∃ e, v.catalog.stored v.disk page = .error e) ∧ ∃ count, content.data = Bytes.zeros count := by
  cases hold : v.catalog.stored v.disk page with
  | ok content' =>
    rw [h.stored_of_stored hs hold] at hstored
    exact Or.inl hstored
  | error e =>
    obtain ⟨table, disk, ht, hw, rfl⟩ := h
    refine Or.inr ⟨⟨e, rfl⟩, ?_⟩
    by_cases hid : page.table = table.id
    · have ht' : v.catalog.table page.table = .ok table := hid ▸ ht
      have hpos := (hs.table ht).pageSize_pos
      -- the page was not stored before, so it is the one that was appended
      have hlast : page = ⟨table.id, table.pageCount v.disk⟩ := by
        have hlt : page.number < table.pageCount disk :=
          Catalog.number_lt_pageCount hs ht' hstored
        have hge : table.pageCount v.disk ≤ page.number := by
          refine Nat.le_of_not_lt fun hin => ?_
          obtain ⟨content', hold'⟩ :=
            Catalog.exists_stored_of_lt ht' ((Table.writeBytes_next_iff hpos).mp hw).1 hin
          rw [hold] at hold'
          cases hold'
        rw [Table.pageCount_of_writeBytes_next hpos hw] at hlt
        have hnumber : page.number = table.pageCount v.disk := by omega
        cases page
        simp_all
      subst hlast
      have hself := (Catalog.stored_writeBytes_self ht hw).symm.trans hstored
      exact ⟨table.pageSize, (congrArg Page.data (Except.ok.inj hself)).symm⟩
    · rw [show v.catalog.stored disk page = _ from stored_write_of_ne hs ht hw hid, hold] at hstored
      cases hstored

/-- Growing appends zeros to one file. -/
theorem Grows.contents (h : v.Grows v') (hs : v.catalog.Sound) (file : Location) :
    ∃ count, v'.disk.contents file = v.disk.contents file ++ Bytes.zeros count := by
  obtain ⟨table, disk, ht, hw, rfl⟩ := h
  obtain ⟨-, rfl⟩ := (Table.writeBytes_next_iff (hs.table ht).pageSize_pos).mp hw
  rw [Disk.contents_write]
  split_ifs with hfile
  · exact ⟨table.pageSize, by rw [hfile]⟩
  · exact ⟨0, by simp [Bytes.zeros]⟩

/-! ### Scans while a table grows -/

/-- Rows are read alike where the pages are alike. -/
theorem rowsFrom_congr {table : TableId} (next count : Nat)
    (h : ∀ number, next ≤ number → number < next + count →
      (v'.page ⟨table, number⟩).map Page.written = (v.page ⟨table, number⟩).map Page.written) :
    v'.rowsFrom table next count = v.rowsFrom table next count := by
  induction count generalizing next with
  | zero => rfl
  | succ count ih =>
    have hpage := h next (Nat.le_refl _) (by omega)
    have hrest := ih (next + 1) fun number h1 h2 => h number (by omega) (by omega)
    rw [rowsFrom, rowsFrom, hrest]
    rcases Page.written_eq_or_error hpage with ⟨e, hnew, hold⟩ | ⟨new, old, hnew, hold, hwritten⟩
    · rw [hnew, hold]
    · rw [hnew, hold]
      dsimp only
      rw [Page.rows_eq_of_written hwritten]

/-- An empty page behind the others adds no rows. -/
theorem rowsFrom_succ_of_empty {table : TableId} (next count : Nat)
    (hpage : v.page ⟨table, next + count⟩ = .ok content) (hrows : content.rows = .ok []) :
    v.rowsFrom table next (count + 1) = v.rowsFrom table next count := by
  induction count generalizing next with
  | zero =>
    simp only [Nat.add_zero] at hpage
    simp [rowsFrom, hpage, hrows, Except.map]
  | succ count ih =>
    rw [rowsFrom, ih (next + 1) (by rwa [Nat.add_assoc, Nat.add_comm 1 count]), ← rowsFrom]

/-- A page that a table had is stored as it was. -/
theorem Grows.stored_of_lt {table : Table} {number : Nat} (h : v.Grows v') (hs : v.catalog.Sound)
    (ht : v.catalog.table table.id = .ok table) (hlt : number < table.pageCount v.disk) :
    v'.catalog.stored v'.disk ⟨table.id, number⟩ = v.catalog.stored v.disk ⟨table.id, number⟩ := by
  have hgrows := h
  obtain ⟨grown, disk, hg, hw, rfl⟩ := h
  by_cases hid : table.id = grown.id
  · rw [hid, hg, Except.ok.injEq] at ht
    subst ht
    have hwhole := ((Table.writeBytes_next_iff (hs.table hg).pageSize_pos).mp hw).1
    obtain ⟨content, hstored⟩ : ∃ content, v.catalog.stored v.disk ⟨grown.id, number⟩ = .ok content :=
      Catalog.exists_stored_of_lt hg hwhole hlt
    rw [hgrows.stored_of_stored hs hstored, hstored]
  · exact stored_write_of_ne hs hg hw hid

/-- A table has as many pages as before or one more, which is empty. -/
theorem Grows.pageCount {table : Table} (h : v.Grows v') (hs : v.catalog.Sound)
    (ht : v.catalog.table table.id = .ok table) :
    table.pageCount v'.disk = table.pageCount v.disk ∨
      table.pageCount v'.disk = table.pageCount v.disk + 1 ∧
        ∃ content, v'.catalog.stored v'.disk ⟨table.id, table.pageCount v.disk⟩ = .ok content ∧
          content.rows = .ok [] := by
  obtain ⟨grown, disk, hg, hw, rfl⟩ := h
  by_cases hid : table.id = grown.id
  · rw [hid, hg, Except.ok.injEq] at ht
    subst ht
    exact Or.inr ⟨Table.pageCount_of_writeBytes_next (hs.table hg).pageSize_pos hw, _,
      Catalog.stored_writeBytes_self hg hw, Page.rows_of_zeros rfl⟩
  · refine Or.inl ?_
    rw [Table.pageCount, Table.pageCount, Table.pagedFile, Table.pagedFile,
      Table.contents_of_writeBytes_of_ne hw (hs.file_ne ht hg hid)]

/-- The pages a table had are shown as they were. -/
theorem Grows.page_of_lt {table : Table} {number : Nat} (h : v.Grows v') (hs : v.catalog.Sound)
    (ht : v.catalog.table table.id = .ok table) (hlt : number < table.pageCount v.disk) :
    v'.page ⟨table.id, number⟩ = v.page ⟨table.id, number⟩ := by
  rw [View.page, View.page, h.changed, h.stored_of_lt hs ht hlt]

/-- A scan that shows only stored pages is not changed by growing. -/
theorem Grows.scan (h : v.Grows v') (hs : v.catalog.Sound)
    (hclean : ∀ page, v.changed page = none) {table : Table}
    (ht : v.catalog.table table.id = .ok table) : v'.scan table = v.scan table := by
  have hsame : v'.rowsFrom table.id 0 (table.pageCount v.disk) = v.scan table :=
    rowsFrom_congr 0 _ fun number _ hlt => congrArg _ (h.page_of_lt hs ht (by omega))
  rcases h.pageCount hs ht with hcount | ⟨hcount, content, hstored, hempty⟩
  · rw [View.scan, hcount, hsame]
  · -- the appended page is read last and is empty
    have hlast : v'.page ⟨table.id, 0 + table.pageCount v.disk⟩ = .ok content := by
      rw [Nat.zero_add, View.page, h.changed, hclean]
      exact hstored
    rw [View.scan, hcount, rowsFrom_succ_of_empty 0 _ hlast hempty, hsame]

/-! ### Growing again and again -/

/-- The view of a disk to which nothing was changed. -/
def ofDisk (disk : Disk) (catalog : Catalog) : View :=
  ⟨disk, catalog, fun _ => none⟩

/-- `disk'` is `disk` with empty pages appended to tables: what was stored is stored, what is new
holds zeros, and no scan finds more. -/
structure Extends (catalog : Catalog) (disk disk' : Disk) : Prop where
  contents : ∀ file, ∃ count, disk'.contents file = disk.contents file ++ Bytes.zeros count
  stored : ∀ page content, catalog.stored disk page = .ok content →
    catalog.stored disk' page = .ok content
  zeros : ∀ page content, catalog.stored disk' page = .ok content →
    catalog.stored disk page = .ok content ∨
      (∃ e, catalog.stored disk page = .error e) ∧ ∃ count, content.data = Bytes.zeros count
  scan : ∀ table, catalog.table table.id = .ok table →
    (ofDisk disk' catalog).scan table = (ofDisk disk catalog).scan table

theorem Extends.refl (catalog : Catalog) (disk : Disk) : Extends catalog disk disk :=
  ⟨fun _ => ⟨0, by simp [Bytes.zeros]⟩, fun _ _ h => h, fun _ _ h => Or.inl h, fun _ _ => rfl⟩

theorem Extends.trans {catalog : Catalog} {a b c : Disk} (h : Extends catalog a b)
    (h' : Extends catalog b c) : Extends catalog a c := by
  refine ⟨fun file => ?_, fun page content hs => h'.stored page content (h.stored page content hs),
    fun page content hs => ?_, fun table ht => (h'.scan table ht).trans (h.scan table ht)⟩
  · obtain ⟨m, hm⟩ := h.contents file
    obtain ⟨n, hn⟩ := h'.contents file
    exact ⟨m + n, by rw [hn, hm, List.append_assoc, Bytes.zeros, Bytes.zeros, Bytes.zeros,
      List.replicate_append_replicate]⟩
  · rcases h'.zeros page content hs with hb | ⟨⟨e, hb⟩, hzeros⟩
    · exact h.zeros page content hb
    · refine Or.inr ⟨?_, hzeros⟩
      cases ha : catalog.stored a page with
      | error e' => exact ⟨e', rfl⟩
      | ok old =>
        rw [h.stored page old ha] at hb
        cases hb

theorem Grows.extends_disk (h : v.Grows v') (hs : v.catalog.Sound) :
    Extends v.catalog v.disk v'.disk := by
  have hbare : (ofDisk v.disk v.catalog).Grows (ofDisk v'.disk v.catalog) := by
    obtain ⟨table, disk, ht, hw, rfl⟩ := h
    exact ⟨table, disk, ht, hw, rfl⟩
  exact ⟨h.contents hs, fun page content => hbare.stored_of_stored hs,
    fun page content => hbare.stored_cases hs, fun table => hbare.scan hs (fun _ => rfl)⟩

/-! ## Inserting and deleting -/

/-- Every changed page is listed under its own identity. -/
def Keyed (v : View) : Prop :=
  ∀ page content, v.changed page = some content → content.id = page

theorem Keyed.id_of_page (hk : v.Keyed) (h : v.page page = .ok content) : content.id = page := by
  unfold View.page at h
  cases hchanged : v.changed page with
  | none =>
    rw [hchanged] at h
    rw [Catalog.eq_ofBytes_of_stored h]
    rfl
  | some changed =>
    rw [hchanged, Except.ok.injEq] at h
    exact h ▸ hk page changed hchanged

theorem Keyed.of_changed (hk : v.Keyed) (h : v'.changed = v.changed) : v'.Keyed := by
  unfold Keyed
  rw [h]
  exact hk

/-- `v'` is `v` with the row put into the shown page of its record by `tid`. -/
def Inserts (v v' : View) (tid : TransactionId) (row : Row) (record : RecordId) : Prop :=
  ∃ content changed, v.page record.page = .ok content ∧
    content.insert row = .ok (record, changed) ∧ v' = v.put (changed.mark (some tid))

/-- `v'` is `v` with the row taken out of the shown page of its record by `tid`. -/
def Deletes (v v' : View) (tid : TransactionId) (row : Row) (record : RecordId) : Prop :=
  row.record = some record ∧ ∃ content changed, v.page record.page = .ok content ∧
    content.delete row = .ok changed ∧ v' = v.put (changed.mark (some tid))

theorem insertInPage_spec {result : Except TableError (Option RecordId)} (hk : v.Keyed)
    (h : v.insertInPage tid page row = (result, v')) :
    (v' = v ∧ ∀ record, result ≠ .ok (some record)) ∨
      ∃ record, result = .ok (some record) ∧ record.page = page ∧ v.Inserts v' tid row record := by
  unfold insertInPage at h
  cases hpage : v.page page with
  | error e =>
    simp only [hpage, Prod.mk.injEq] at h
    exact Or.inl ⟨h.2.symm, by simp [← h.1]⟩
  | ok content =>
    simp only [hpage] at h
    split_ifs at h
    · simp only [Prod.mk.injEq] at h
      exact Or.inl ⟨h.2.symm, by simp [← h.1]⟩
    · cases hinsert : content.insert row with
      | error e =>
        simp only [hinsert, Prod.mk.injEq] at h
        exact Or.inl ⟨h.2.symm, by simp [← h.1]⟩
      | ok out =>
        obtain ⟨record, changed⟩ := out
        simp only [hinsert, Prod.mk.injEq] at h
        have hrecord : record.page = page :=
          (Page.id_of_insert hinsert).trans (hk.id_of_page hpage)
        exact Or.inr ⟨record, h.1.symm, hrecord, content, changed, hrecord ▸ hpage, hinsert,
          h.2.symm⟩

theorem insertInPages_spec (hk : v.Keyed) :
    ∀ {pages : List PageId} {result : Except TableError (Option RecordId)},
      insertInPages tid row pages v = (result, v') →
        (v' = v ∧ ∀ record, result ≠ .ok (some record)) ∨
          ∃ record, result = .ok (some record) ∧ record.page ∈ pages ∧
            v.Inserts v' tid row record
  | [], _, h => Or.inl ⟨(Prod.mk.inj h).2.symm, by simp [← (Prod.mk.inj h).1]⟩
  | page :: pages, result, h => by
    unfold insertInPages at h
    cases hfirst : v.insertInPage tid page row with
    | mk found moved =>
      rw [hfirst] at h
      rcases found with e | _ | record
      · obtain ⟨rfl, rfl⟩ := Prod.mk.inj h
        rcases insertInPage_spec hk hfirst with hfailed | ⟨_, hok, -⟩
        · exact Or.inl hfailed
        · cases hok
      · rw [insertInPage_none hfirst] at h
        rcases insertInPages_spec hk h with hfailed | ⟨record, hok, hmem, hinserts⟩
        · exact Or.inl hfailed
        · exact Or.inr ⟨record, hok, List.mem_cons_of_mem _ hmem, hinserts⟩
      · obtain ⟨rfl, rfl⟩ := Prod.mk.inj h
        rcases insertInPage_spec hk hfirst with hfailed | ⟨record, hok, hrecord, hinserts⟩
        · exact Or.inl hfailed
        · exact Or.inr ⟨record, hok, hrecord ▸ List.mem_cons_self, hinserts⟩

/-- An insert appends an empty page or none, and then puts the row into one page of the table or
fails. -/
theorem insertInTable_spec {table : Table} {result : Except TableError RecordId} (hk : v.Keyed)
    (ht : v.catalog.table table.id = .ok table)
    (h : v.insertInTable table tid row = (result, v')) :
    ∃ grown, (grown = v ∨ v.Grows grown) ∧
      ((v' = grown ∧ ∀ record, result ≠ .ok record) ∨
        ∃ record, result = .ok record ∧ record.page.table = table.id ∧
          grown.Inserts v' tid row record) := by
  unfold insertInTable at h
  dsimp only at h
  split_ifs at h
  · cases hsweep : insertInPages tid row (table.firstPages (table.pageCount v.disk)) v with
    | mk found moved =>
      rw [hsweep] at h
      rcases found with e | _ | record
      · obtain ⟨rfl, rfl⟩ := Prod.mk.inj h
        rcases insertInPages_spec hk hsweep with ⟨rfl, -⟩ | ⟨_, hok, -⟩
        · exact ⟨_, Or.inl rfl, Or.inl ⟨rfl, by simp⟩⟩
        · cases hok
      · have hmoved := insertInPages_none hsweep
        subst hmoved
        dsimp only at h
        cases hwrite : table.writeBytes moved.disk ⟨table.id, table.pageCount moved.disk⟩
            (Bytes.zeros table.pageSize) with
        | error e =>
          simp only [hwrite, Prod.mk.injEq] at h
          exact ⟨moved, Or.inl rfl, Or.inl ⟨h.2.symm, by simp [← h.1]⟩⟩
        | ok disk =>
          simp only [hwrite] at h
          refine ⟨{ moved with disk }, Or.inr ⟨table, disk, ht, hwrite, rfl⟩, ?_⟩
          have hk' : Keyed { moved with disk } := hk
          cases hlast : insertInPage { moved with disk } tid
              ⟨table.id, table.pageCount moved.disk⟩ row with
          | mk found last =>
            rw [hlast] at h
            rcases insertInPage_spec hk' hlast with ⟨rfl, hne⟩ | ⟨record, rfl, hpage, hinserts⟩
            · rcases found with e | _ | record
              · exact Or.inl ⟨(Prod.mk.inj h).2.symm, by simp [← (Prod.mk.inj h).1]⟩
              · exact Or.inl ⟨(Prod.mk.inj h).2.symm, by simp [← (Prod.mk.inj h).1]⟩
              · exact absurd rfl (hne record)
            · obtain ⟨rfl, rfl⟩ := Prod.mk.inj h
              exact Or.inr ⟨record, rfl, congrArg PageId.table hpage, hinserts⟩
      · obtain ⟨rfl, rfl⟩ := Prod.mk.inj h
        rcases insertInPages_spec hk hsweep with ⟨-, hne⟩ | ⟨_, hok, hmem, hinserts⟩
        · exact absurd rfl (hne record)
        · cases hok
          obtain ⟨number, -, hpage⟩ := List.mem_map.mp hmem
          exact ⟨v, Or.inl rfl, Or.inr ⟨record, rfl, (congrArg PageId.table hpage).symm, hinserts⟩⟩
  · simp only [Prod.mk.injEq] at h
    exact ⟨v, Or.inl rfl, Or.inl ⟨h.2.symm, by simp [← h.1]⟩⟩

theorem deleteRow_spec {result : Except TableError PageId}
    (h : v.deleteRow tid row = (result, v')) :
    (v' = v ∧ ∀ page, result ≠ .ok page) ∨
      ∃ record, result = .ok record.page ∧ v.Deletes v' tid row record := by
  unfold deleteRow deleteFromTable at h
  cases hrecord : row.record with
  | none =>
    simp only [hrecord, Prod.mk.injEq] at h
    exact Or.inl ⟨h.2.symm, by simp [← h.1]⟩
  | some record =>
    simp only [hrecord] at h
    cases ht : v.catalog.table record.page.table with
    | error e =>
      simp only [ht, Prod.mk.injEq] at h
      exact Or.inl ⟨h.2.symm, by simp [← h.1]⟩
    | ok table =>
      simp only [ht] at h
      split_ifs at h
      · simp only [Prod.mk.injEq] at h
        exact Or.inl ⟨h.2.symm, by simp [← h.1]⟩
      · simp only [Prod.mk.injEq] at h
        exact Or.inl ⟨h.2.symm, by simp [← h.1]⟩
      · cases hpage : v.page record.page with
        | error e =>
          simp only [hpage, Prod.mk.injEq] at h
          exact Or.inl ⟨h.2.symm, by simp [← h.1]⟩
        | ok content =>
          simp only [hpage] at h
          cases hdelete : content.delete row with
          | error e =>
            simp only [hdelete, Prod.mk.injEq] at h
            exact Or.inl ⟨h.2.symm, by simp [← h.1]⟩
          | ok changed =>
            simp only [hdelete, Prod.mk.injEq] at h
            exact Or.inr ⟨record, h.1.symm, hrecord, content, changed, hpage, hdelete, h.2.symm⟩

end View

namespace Store

variable {s s' : Store} {tid : TransactionId} {row : Row}

theorem view_of_allClean (h : s.AllClean) : s.view = View.ofDisk s.disk s.catalog :=
  view_eq_of rfl rfl (allClean_iff.mp h)

theorem Coherent.keyed_view (hs : s.Coherent) : s.view.Keyed := by
  intro page content h
  obtain ⟨frame, hf, rfl, -⟩ := changed_eq_some_iff.mp h
  exact hs.valid.keyed hf

/-- An insert appends an empty page or none, and then puts the row into one page of the table that
was asked for or fails. -/
theorem insertRow_spec {id : TableId} {result : Except TableError RecordId} (hs : s.Coherent)
    (h : s.insertRow tid id row = (result, s')) :
    ∃ grown, (grown = s.view ∨ s.view.Grows grown) ∧
      ((s'.view = grown ∧ ∀ record, result ≠ .ok record) ∨
        ∃ record table, result = .ok record ∧ s.catalog.table id = .ok table ∧
          record.page.table = id ∧ grown.Inserts s'.view tid row record) := by
  have hrefines := insertRow_refines hs tid id row
  rw [h] at hrefines
  rcases hrefines with (hsame | ⟨hrefused, hkept⟩) | ⟨hrefused, hgrown⟩
  · unfold View.insertRow at hsame
    cases ht : s.view.catalog.table id with
    | error e =>
      rw [ht] at hsame
      obtain ⟨rfl, hview⟩ := Prod.mk.inj hsame
      exact ⟨_, Or.inl rfl, Or.inl ⟨hview, by simp⟩⟩
    | ok table =>
      rw [ht] at hsame
      obtain ⟨rfl, -⟩ := Catalog.mem_of_table ht
      obtain ⟨grown, hgrown, hfailed | ⟨record, hok, htable, hinserts⟩⟩ :=
        View.insertInTable_spec hs.keyed_view ht hsame.symm
      · exact ⟨grown, hgrown, Or.inl hfailed⟩
      · exact ⟨grown, hgrown, Or.inr ⟨record, table, hok, ht, htable, hinserts⟩⟩
  · obtain ⟨capacity, hresult⟩ := eq_error_of_isRefused hrefused
    exact ⟨_, Or.inl rfl, Or.inl ⟨hkept, by simp [show result = _ from hresult]⟩⟩
  · obtain ⟨capacity, hresult⟩ := eq_error_of_isRefused hrefused
    exact ⟨_, Or.inr hgrown, Or.inl ⟨rfl, by simp [show result = _ from hresult]⟩⟩

/-- An insert writes nothing to the disk but an empty page. -/
theorem extends_insertRow (hs : s.Coherent) (tid : TransactionId) (id : TableId) (row : Row) :
    View.Extends s.catalog s.disk (s.insertRow tid id row).2.disk := by
  cases hresult : s.insertRow tid id row with
  | mk result s' =>
    obtain ⟨grown, hgrown, hrest⟩ := insertRow_spec hs hresult
    have hdisk : s'.disk = grown.disk := by
      rcases hrest with ⟨hview, -⟩ | ⟨_, _, -, -, -, _, _, -, -, hview⟩
      · exact congrArg View.disk hview
      · exact congrArg View.disk hview
    dsimp only
    rw [hdisk]
    rcases hgrown with rfl | hgrows
    · exact .refl s.catalog s.disk
    · exact hgrows.extends_disk hs.sound

/-- A delete takes the row out of one page or fails. -/
theorem deleteRow_spec {result : Except TableError PageId} (hs : s.Coherent)
    (h : s.deleteRow tid row = (result, s')) :
    (s'.view = s.view ∧ ∀ page, result ≠ .ok page) ∨
      ∃ record, result = .ok record.page ∧ s.view.Deletes s'.view tid row record := by
  have hrefines := deleteRow_refines hs tid row
  rw [h] at hrefines
  rcases hrefines with hsame | ⟨hrefused, hkept⟩
  · exact View.deleteRow_spec hsame.symm
  · obtain ⟨capacity, hresult⟩ := eq_error_of_isRefused hrefused
    exact Or.inl ⟨hkept, by simp [show result = _ from hresult]⟩

/-- A delete writes nothing to the disk. -/
theorem disk_deleteRow (hs : s.Coherent) (tid : TransactionId) (row : Row) :
    (s.deleteRow tid row).2.disk = s.disk := by
  cases hresult : s.deleteRow tid row with
  | mk result s' =>
    rcases deleteRow_spec hs hresult with ⟨hview, -⟩ | ⟨_, -, -, _, _, -, -, hview⟩
    · exact congrArg View.disk hview
    · exact congrArg View.disk hview

end Store

end RowStore
