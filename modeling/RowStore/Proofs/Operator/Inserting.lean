import RowStore.Proofs.Entries
import RowStore.Proofs.Operator.Draining
import RowStore.Proofs.Store.Growing
import RowStore.Proofs.View.Copies
import RowStore.Proofs.View.Slots

/-!
# RowStore.Proofs.Operator.Inserting: inserting the rows of a child

An insert that succeeds adds one entry to its table, at a record whose slot was free; one that fails
adds none, though the table may have grown by an empty page.  Neither touches another table
(`View.Gains`), so a scan of another table that runs below the operator does not notice.  Hence the
operator inserts all rows of its child or, when it fails, the first of them
(`Operator.inserts_rows`).
-/

namespace RowStore

namespace View

variable {u v w : View} {table : Table} {rows more : List Row} {records others : List RecordId}
  {record : RecordId} {row : Row} {tid : TransactionId}

/-! ## Views in which a table has gained rows -/

/-- `w` is `v` with rows added to a table, each at a record whose slot was free; the table may have
grown. -/
structure Gains (v w : View) (table : Table) (rows : List Row) (records : List RecordId) :
    Prop where
  catalog : w.catalog = v.catalog
  distinct : records.Nodup
  free : ∀ record ∈ records, record.page.table = table.id ∧ v.slot? record = none
  added : List.Forall₂
    (fun record row => w.entries record = some (row.keptAt table.schema record)) records rows
  others : ∀ record, record ∉ records →
    w.slot? record = v.slot? record ∧ w.entries record = v.entries record
  /-- Other tables are as they were, on the disk and in the cache. -/
  elsewhere : ∀ page, page.table ≠ table.id → w.page page = v.page page
  files : ∀ file, file ≠ table.file → w.disk.contents file = v.disk.contents file
  /-- When the table could be read to its end it still can. -/
  readable : v.ReadableIn table.id → w.ReadableIn table.id
  shown : (∀ number < table.pageCount v.disk, ∃ content, v.page ⟨table.id, number⟩ = .ok content) →
    ∀ number < table.pageCount w.disk, ∃ content, w.page ⟨table.id, number⟩ = .ok content

namespace Gains

theorem refl (v : View) (table : Table) : v.Gains v table [] [] :=
  ⟨rfl, .nil, fun _ hin => absurd hin List.not_mem_nil, .nil, fun _ _ => ⟨rfl, rfl⟩, fun _ _ => rfl,
    fun _ _ => rfl, id, id⟩

/-- What was added has its slot. -/
theorem isSome_of_mem (h : v.Gains w table rows records) (hin : record ∈ records) :
    (w.slot? record).isSome = true := by
  apply isSome_slot?_of_entries
  obtain ⟨row, -, hentry⟩ := Entries.exists_of_mem_right h.added.flip hin
  rw [hentry]
  rfl

theorem trans (h : u.Gains v table rows records) (h' : v.Gains w table more others) :
    u.Gains w table (rows ++ more) (records ++ others) := by
  -- what is added later goes to slots that were not taken before
  have hdisjoint : ∀ record ∈ records, record ∉ others := by
    intro record hin hlater
    have htaken := h.isSome_of_mem hin
    rw [(h'.free record hlater).2] at htaken
    cases htaken
  refine ⟨h'.catalog.trans h.catalog, ?_, ?_, List.rel_append ?_ h'.added, ?_, ?_, ?_, ?_, ?_⟩
  · exact List.Nodup.append h.distinct h'.distinct hdisjoint
  · intro record hin
    rcases List.mem_append.mp hin with hfirst | hlater
    · exact h.free record hfirst
    · obtain ⟨htable, hfree⟩ := h'.free record hlater
      have hnew : record ∉ records := fun hfirst => hdisjoint record hfirst hlater
      exact ⟨htable, (h.others record hnew).1.symm.trans hfree⟩
  · refine ((List.forall₂_and_left records rows).mpr ⟨fun _ hin => hin, h.added⟩).imp ?_
    rintro record row ⟨hin, hentry⟩
    rw [(h'.others record (hdisjoint record hin)).2, hentry]
  · intro record hout
    rw [List.mem_append, not_or] at hout
    obtain ⟨hslot, hentry⟩ := h.others record hout.1
    obtain ⟨hslot', hentry'⟩ := h'.others record hout.2
    exact ⟨hslot'.trans hslot, hentry'.trans hentry⟩
  · exact fun page hne => (h'.elsewhere page hne).trans (h.elsewhere page hne)
  · exact fun file hne => (h'.files file hne).trans (h.files file hne)
  · exact fun hreadable => h'.readable (h.readable hreadable)
  · exact fun hshown => h'.shown (h.shown hshown)

end Gains

/-- Pages of tables in other files are shown alike. -/
theorem page_of_files {page : PageId} (hs : v.catalog.Sound)
    (ht : v.catalog.table table.id = .ok table) (hcatalog : w.catalog = v.catalog)
    (hchanged : w.changed = v.changed)
    (hfiles : ∀ file, file ≠ table.file → w.disk.contents file = v.disk.contents file)
    (hne : page.table ≠ table.id) : w.page page = v.page page := by
  unfold View.page
  rw [hchanged]
  cases v.changed page with
  | some content => rfl
  | none =>
    dsimp only
    unfold Catalog.stored
    rw [hcatalog]
    cases ht' : v.catalog.table page.table with
    | error e => rfl
    | ok other =>
      simp only [Table.readPage, Table.pagedFile, hfiles other.file (hs.file_ne ht' ht hne)]

/-- A table that grows gains no row. -/
theorem Grows.gains (h : v.Grows w) (hs : v.catalog.Sound)
    (ht : v.catalog.table table.id = .ok table)
    (hfiles : ∀ file, file ≠ table.file → w.disk.contents file = v.disk.contents file) :
    v.Gains w table [] [] := by
  refine ⟨h.catalog, .nil, fun _ hin => absurd hin List.not_mem_nil, .nil, ?_, ?_, hfiles, ?_, ?_⟩
  · exact fun record _ => ⟨congrFun (h.slot? hs) record, congrFun (h.entries hs) record⟩
  · exact fun page hne => page_of_files hs ht h.catalog h.changed hfiles hne
  · intro hreadable number content hpage
    rcases h.page_cases hs ⟨table.id, number⟩ with hsame | ⟨-, hzeros⟩
    · exact hreadable number content (hsame ▸ hpage)
    · obtain ⟨count, hdata⟩ := hzeros content hpage
      exact Page.readable_of_zeros hdata
  · intro hshown number hlt
    by_cases hold : number < table.pageCount v.disk
    · rw [h.page_of_lt hs ht hold]
      exact hshown number hold
    -- the only page that is new is the one that was appended
    rcases h.pageCount hs ht with hcount | ⟨hcount, content, hstored, -⟩
    · omega
    obtain rfl : number = table.pageCount v.disk := by omega
    unfold View.page
    cases w.changed ⟨table.id, table.pageCount v.disk⟩ with
    | some changed => exact ⟨changed, rfl⟩
    | none => exact ⟨content, hstored⟩

/-- An insert adds one row. -/
theorem Inserts.gains (h : v.Inserts w tid row record) (hk : v.Keyed)
    (htable : record.page.table = table.id)
    (hschema : ∀ content, v.page record.page = .ok content → content.schema = table.schema)
    (hrow : row.WellTyped) (htypes : ∀ type ∈ table.schema.types, type.Addressable) :
    v.Gains w table [row] [record] := by
  have hstores := h.storesAs hschema hrow htypes
  have hentries := h.entries hschema hstores hk
  have hslots := fun other hne => @h.slot?_of_ne _ _ _ other _ _ hk hne
  have hfree := h.slot?_eq_none
  have hreadable := h.readableIn hschema hstores htable
  obtain ⟨changed, hid, rfl⟩ := h.exists_put hk
  refine ⟨rfl, List.nodup_singleton record, ?_, .cons ?_ .nil, ?_, ?_, fun _ _ => rfl, hreadable, ?_⟩
  · intro other hin
    rw [List.mem_singleton.mp hin]
    exact ⟨htable, hfree⟩
  · rw [hentries, Function.update_self]
    rfl
  · intro other hout
    have hne : other ≠ record := fun heq => hout (List.mem_singleton.mpr heq)
    exact ⟨hslots other hne, by rw [hentries, Function.update_of_ne hne]⟩
  · intro page hne
    rw [page_put, if_neg]
    rintro rfl
    exact hne (by rw [hid, htable])
  · intro hshown number hlt
    rw [page_put]
    split_ifs
    · exact ⟨_, rfl⟩
    · exact hshown number hlt

/-- A scan of the table finds what it found before and the rows that were added. -/
theorem Gains.scan (h : v.Gains w table rows records) (hv : v.Keyed) (hw : w.Keyed)
    (hin : ∀ page content, v.page page = .ok content → page.table = table.id →
      page.number < table.pageCount v.disk)
    (hin' : ∀ page content, w.page page = .ok content → page.table = table.id →
      page.number < table.pageCount w.disk) {old : List Row} (hold : v.scan table = .ok old) :
    ∃ new, w.scan table = .ok new ∧ new.Perm
      (old ++ List.zipWith (fun record row => row.keptAt table.schema record) records rows) := by
  have hreadable : v.ReadableIn table.id := by
    intro number content hpage
    have hlt : number < table.pageCount v.disk := hin _ content hpage rfl
    exact readable_of_rowsFrom hold (Nat.zero_le number) (by omega) hpage
  have hshown : ∀ number < table.pageCount v.disk,
      ∃ content, v.page ⟨table.id, number⟩ = .ok content := by
    intro number hlt
    obtain ⟨content, _, hpage, -⟩ := exists_page_of_rowsFrom hold (Nat.zero_le number) (by omega)
    exact ⟨content, hpage⟩
  have hread : ∃ new, w.rowsFrom table.id 0 (table.pageCount w.disk) = .ok new :=
    rowsFrom_isOk (h.readable hreadable) fun number _ hlt => h.shown hshown number (by omega)
  obtain ⟨new, hnew⟩ := hread
  refine ⟨new, hnew, ?_⟩
  have hperm := (lists_scan hv hold hin).perm (lists_scan hw hnew hin') h.distinct
    (fun record hmem => ⟨(h.free record hmem).1, entries_of_slot?_eq_none (h.free record hmem).2⟩)
    (fun record hmem => ?_) fun record hmem => (h.others record hmem).2
  · rwa [Entries.filterMap_eq_zipWith h.added] at hperm
  · obtain ⟨row, -, hentry⟩ := Entries.exists_of_mem_right h.added.flip hmem
    rw [hentry]
    rfl

/-- `w` is `v` with these rows added to a table, and a scan of the table finds them besides what it
found. -/
def Adds (v : View) (table : Table) (rows : List Row) (w : View) : Prop :=
  ∃ records, v.Gains w table rows records ∧
    ∀ old, v.scan table = .ok old → ∃ new, w.scan table = .ok new ∧ new.Perm
      (old ++ List.zipWith (fun record row => row.keptAt table.schema record) records rows)

end View

/-! ## One insert -/

namespace Store

variable {s s' : Store} {table : Table} {tid : TransactionId} {row : Row}

/-- An insert writes to no file but that of its table. -/
theorem contents_insertRow (hs : s.Coherent) (ht : s.catalog.table table.id = .ok table)
    (tid : TransactionId) (row : Row) {file : Location} (hne : file ≠ table.file) :
    (s.insertRow tid table.id row).2.disk.contents file = s.disk.contents file := by
  have hdisk : (s.insertRow tid table.id row).2.disk = s.disk ∨
      (s.insertRow tid table.id row).2.disk = table.grown s.disk := by
    rw [insertRow, ht]
    dsimp only
    rw [insertInTable]
    split_ifs with hagree
    · exact (added_insertGrowing hs ht s.cache.size).disk hs ht
    · exact Or.inl rfl
  rcases hdisk with hsame | hgrown
  · rw [hsame]
  · rw [hgrown, Table.grown, Disk.contents_write, if_neg hne]

/-- An insert of a well-typed row adds it to the table at the record it tells, and one that fails
adds none. -/
theorem gains_of_insertRow {result : Except TableError RecordId} (hs : s.Coherent)
    (ht : s.catalog.table table.id = .ok table)
    (htypes : ∀ type ∈ table.schema.types, type.Addressable)
    (h : s.insertRow tid table.id row = (result, s')) :
    (∃ e, result = .error e ∧ s.view.Gains s'.view table [] []) ∨
      ∃ record, result = .ok record ∧
        (row.WellTyped → s.view.Gains s'.view table [row] [record]) := by
  have hfiles : ∀ file, file ≠ table.file →
      s'.view.disk.contents file = s.view.disk.contents file := by
    intro file hne
    have hsame := contents_insertRow hs ht tid row hne
    rwa [h] at hsame
  obtain ⟨grown, hgrown, hrest⟩ := insertRow_spec hs h
  have hdisk : s'.view.disk = grown.disk := by
    rcases hrest with ⟨hview, -⟩ | ⟨_, _, -, -, -, _, _, -, -, hview⟩
    · rw [hview]
    · rw [hview]
      rfl
  have hgains : s.view.Gains grown table [] [] := by
    rcases hgrown with rfl | hgrows
    · exact .refl s.view table
    · exact hgrows.gains hs.sound ht (hdisk ▸ hfiles)
  rcases hrest with ⟨hview, hfailed⟩ | ⟨record, found, rfl, hfound, htable, hinserts⟩
  · cases result with
    | error e => exact Or.inl ⟨e, rfl, hview ▸ hgains⟩
    | ok record => exact absurd rfl (hfailed record)
  · have hkeyed := hs.keyed_view.of_changed (View.changed_of_grown hgrown)
    have hschema : ∀ content, grown.page record.page = .ok content →
        content.schema = table.schema := fun content hpage =>
      schema_of_grown hs hgrown hpage (htable ▸ ht)
    refine Or.inr ⟨record, rfl, fun hrow => ?_⟩
    exact hgains.trans (hinserts.gains hkeyed htable hschema hrow htypes)

theorem adds_of_gains {rows : List Row} {records : List RecordId} (hs : s.Coherent)
    (hs' : s'.Coherent) (ht : s.catalog.table table.id = .ok table)
    (h : s.view.Gains s'.view table rows records) : s.view.Adds table rows s'.view := by
  have hregistered : s'.catalog.table table.id = .ok table := by
    rw [show s'.catalog = s.catalog from h.catalog, ht]
  refine ⟨records, h, fun old hold => ?_⟩
  exact h.scan hs.keyed_view hs'.keyed_view (hs.pages_lt ht) (hs'.pages_lt hregistered) hold

end Store

namespace Operator

variable {s t t' : Store} {child op op' : Operator} {tid : TransactionId} {tally : Tally}
  {table : Table} {rows done : List Row} {row : Row}

/-- The rows of a list are well-typed, as all are that were made by `Row.ofValues`.  A scan reads no
others. -/
def RowsWellTyped : Operator → Prop
  | .values list => ∀ row ∈ list.rows, row.WellTyped
  | _ => True

/-- The operator does not read the table. -/
def Avoids (table : TableId) : Operator → Prop
  | .scan source => source.table ≠ table
  | _ => True

/-- Every row that is handed out is well-typed. -/
theorem Supplies.wellTyped (h : Supplies s child op t done) (hs : s.Coherent)
    (htyped : child.RowsWellTyped) (hrow : row ∈ done) : row.WellTyped := by
  cases h with
  | values hle => exact htyped row (List.mem_of_mem_take hrow)
  | @scan source table _ cursor seen hregistered hagree h =>
    obtain ⟨found, hfound, rfl⟩ := List.mem_map.mp hrow
    obtain ⟨record, hentry, -, htable, -⟩ := h.passed hs hfound
    obtain ⟨content, hpage⟩ := View.exists_page_of_isSome (Option.isSome_of_eq_some hentry)
    rw [View.entries_of_page hpage] at hentry
    have hid := (Catalog.mem_of_table hregistered).1
    have hshown : content.schema = table.schema :=
      Store.schema_of_grown hs (Or.inl rfl) hpage (by rw [htable, hid, hregistered])
    have hschema : found.schema = table.schema := (Page.schema_of_read? hentry).trans hshown
    obtain ⟨stored, hstored, hread⟩ := Page.decode_of_read? hentry
    have hkept : stored.WellTyped := Row.wellTyped_of_decode hstored
    have hfoundTyped : found.WellTyped := by
      rw [hread]
      exact hkept
    exact hfoundTyped.of_agrees (hschema ▸ hagree.symm)

/-- What is inserted into a table that the child does not read makes no difference to it. -/
theorem Supplies.gains {records : List RecordId} (h : Supplies s child op t done)
    (ht : t.Coherent) (hregistered : t.catalog.table table.id = .ok table)
    (havoids : child.Avoids table.id) (hgains : t.view.Gains t'.view table rows records) :
    Supplies s child op t' done := by
  refine h.changed hgains.catalog fun page other hahead hother => ?_
  have hne : page.table ≠ table.id := by
    cases h with
    | values hle => exact hahead.elim
    | @scan source read _ cursor seen hread hagree h =>
      obtain ⟨cursor', hcursor, htable, -⟩ := hahead
      obtain rfl : cursor = cursor' := Option.some.inj hcursor
      rw [htable, h.cursor_table, (Catalog.mem_of_table hread).1]
      exact havoids
  refine ⟨?_, fun _ => hgains.elsewhere page hne⟩
  rw [Table.pageCount, Table.pageCount, Table.pagedFile, Table.pagedFile]
  have hfile := hgains.files other.file (ht.sound.file_ne hother hregistered hne)
  rw [show t'.disk.contents other.file = t.disk.contents other.file from hfile]

/-! ## Opening the operator -/

section Insert

variable (hs : s.Coherent) (hregistered : s.catalog.table table.id = .ok table)
  (htypes : ∀ type ∈ table.schema.types, type.Addressable)
include hs hregistered htypes

/-- An insert that fails adds nothing, and one of a well-typed row adds it. -/
theorem adds_of_insertChange {result : Except TableError Unit} (ht : t.Coherent)
    (h : s.view.Adds table rows t.view)
    (hchange : insertChange tid table.id t row = (result, t')) :
    (∃ e, result = .error e) ∧ s.view.Adds table rows t'.view ∨
      result = .ok () ∧ (row.WellTyped → s.view.Adds table (rows ++ [row]) t'.view ∧
        ∃ record, t.view.Gains t'.view table [row] [record]) := by
  obtain ⟨records, hgains, -⟩ := h
  have hsame : t.catalog.table table.id = .ok table := by
    rw [show t.catalog = s.catalog from hgains.catalog, hregistered]
  have hmoves := moves_insertChange tid table.id row ht.valid
  rw [hchange] at hmoves
  have ht' : t'.Coherent := Store.Moves.coherent hmoves ht
  unfold insertChange at hchange
  rcases hinsert : t.insertRow tid table.id row with ⟨told, t''⟩
  rw [hinsert] at hchange
  obtain ⟨rfl, rfl⟩ := Prod.mk.inj hchange
  rcases Store.gains_of_insertRow ht hsame htypes hinsert with ⟨e, rfl, hnone⟩ | ⟨record, rfl, hmore⟩
  · have hall := hgains.trans hnone
    rw [List.append_nil, List.append_nil] at hall
    exact Or.inl ⟨⟨e, rfl⟩, Store.adds_of_gains hs ht' hregistered hall⟩
  · refine Or.inr ⟨rfl, fun hrow => ⟨?_, record, hmore hrow⟩⟩
    exact Store.adds_of_gains hs ht' hregistered (hgains.trans (hmore hrow))

theorem applies_insert (hleaf : child.IsLeaf) (htyped : child.RowsWellTyped)
    (havoids : child.Avoids table.id) (hclosed : (insert child tid table.id tally).AllClosed) :
    (insert child tid table.id tally).Applies (s.view.Adds table) child s := by
  obtain ⟨htally, hchild⟩ := id hclosed
  refine applies_of_change hleaf hchild hs
    (Store.adds_of_gains hs hs hregistered (.refl s.view table)) (moves_insertChange tid table.id)
    ?_ ?_ (fun tally child => insert child tid table.id tally) tally hclosed ?_ fun _ _ _ =>
      drain_insert_tally
  · intro rows row op t t' ht hadds hsupplies hchange
    have hrow := hsupplies.wellTyped hs htyped (List.mem_append_right _ List.mem_cons_self)
    have hsame : t.catalog.table table.id = .ok table := by
      obtain ⟨records, hgains, -⟩ := hadds
      rw [show t.catalog = s.catalog from hgains.catalog, hregistered]
    rcases adds_of_insertChange hs hregistered htypes ht hadds hchange with
      ⟨⟨e, hfailed⟩, -⟩ | ⟨-, hadded⟩
    · cases hfailed
    · obtain ⟨hadds', record, hgains⟩ := hadded hrow
      exact ⟨hadds', hsupplies.gains ht hsame havoids hgains⟩
  · intro rows row t t' e ht hadds hchange
    rcases adds_of_insertChange hs hregistered htypes ht hadds hchange with ⟨-, hadds'⟩ | ⟨hok, -⟩
    · exact hadds'
    · cases hok
  · exact if_neg (ne_true_of_eq_false htally)

end Insert

/-- In every state that is reached without a flush, an operator that is opened to insert the rows of
a list, or of a scan of another table, adds all of them to its table, each at a record of its own
whose slot was free and as the columns keep it, and hands out their number; or it fails, has added
the first of them, and is closed with its child.  No other entry and no other table is changed. -/
theorem inserts_rows {first : Store} (hfresh : first.Fresh) (hsound : first.catalog.Sound)
    (hreached : first.Reached s) (hregistered : s.catalog.table table.id = .ok table)
    (htypes : ∀ type ∈ table.schema.types, type.Addressable) (hleaf : child.IsLeaf)
    (htyped : child.RowsWellTyped) (havoids : child.Avoids table.id)
    (hclosed : (insert child tid table.id tally).AllClosed) :
    (insert child tid table.id tally).Applies (s.view.Adds table) child s ∧
      ∀ result op' s', (insert child tid table.id tally).start s = (result, op', s') →
        s'.scan table = s'.view.scan table ∨ isRefused (s'.scan table) = true := by
  obtain ⟨hs, -, -⟩ := hreached.invariant hfresh hsound
  refine ⟨applies_insert hs hregistered htypes hleaf htyped havoids hclosed, ?_⟩
  intro result op' s' hstart
  have hmoves := (insert child tid table.id tally).moves_start hs.valid
  rw [hstart] at hmoves
  exact Store.scan_refines (Store.Moves.coherent hmoves hs) table

/-- A text that is too long is inserted into a table with a row, through a cache for one page. -/
theorem inserts_rows_labelled :
    let s := (({ store := Sample.labelStore } : Session).after
      [.insert ⟨1⟩ Sample.labelled.id (Sample.label "d" 0), .commit ⟨1⟩]).store
    let child := values { schema := Sample.labels, rows := [Sample.label "añb" 1] }
    let op := insert child ⟨2⟩ Sample.labelled.id {}
    (s.view.scan Sample.labelled).map (·.map Row.values) = .ok [[.text "d", .int 0]] ∧
      (op.start s).1 = .ok () ∧
      ((op.start s).2.2.view.scan Sample.labelled).map (·.map Row.values) =
        .ok [[.text "d", .int 0], [.text "añ", .int 1]] ∧
      op.Applies (s.view.Adds Sample.labelled) child s := by
  intro s child op
  have hsound : Sample.labelStore.catalog.Sound :=
    Catalog.sound_empty.add ⟨rfl, by decide⟩ "l"
  have hreached : Sample.labelStore.Reached s :=
    @Store.Reached.after _ { store := Sample.labelStore } .first _ (by decide)
  have htyped : child.RowsWellTyped := by
    intro row hrow
    rw [List.mem_singleton.mp hrow]
    exact ⟨rfl, by simp [Sample.label, Sample.labels, Schema.types, ColumnType.accepts]⟩
  refine ⟨by decide +kernel, by decide +kernel, by decide +kernel, ?_⟩
  exact (@inserts_rows s child ⟨2⟩ {} Sample.labelled _ ⟨12, 1, rfl⟩ hsound hreached
    (by decide +kernel) (by decide) trivial htyped trivial ⟨rfl, rfl⟩).1

end Operator

end RowStore
