import RowStore.Proofs.Operator.Reading
import RowStore.Proofs.Store.Faults

/-!
# RowStore.Proofs.FailedInsert: what an insert that fails leaves behind

An insert that fails has fetched pages and done nothing else, with one exception.  When every page
of the table is full an empty page is appended to the file, and the insert can still fail: no room
can be made for the page because the cache is full of pages that are dirty or held (`Store.Jams`),
or the file system fails while the page is written or read.  What was appended stays; all that was
shown before is shown as it was (`Store.Grew`).
-/

namespace RowStore

/-! ## Whole pages -/

/-- The file of a table of which every page is stored consists of whole pages. -/
theorem Catalog.whole_of_stored {catalog : Catalog} {disk : Disk} {table : Table}
    (hs : catalog.Sound) (ht : catalog.table table.id = .ok table)
    (h : ∀ number < table.pageCount disk,
      ∃ content, catalog.stored disk ⟨table.id, number⟩ = .ok content) :
    (disk.contents table.file).length = table.pageCount disk * table.pageSize := by
  have hpos := (hs.table ht).pageSize_pos
  have hle : (disk.contents table.file).length ≤ table.pageCount disk * table.pageSize := by
    show (table.pagedFile disk).bytes.length ≤ _ * (table.pagedFile disk).pageSize
    exact (PagedFile.span_le_iff hpos _).mp (Nat.le_refl _)
  refine Nat.le_antisymm hle ?_
  cases hcount : table.pageCount disk with
  | zero => simp
  | succ last =>
    -- the last page can be read, so the file holds all of it
    obtain ⟨content, hstored⟩ := h last (by omega)
    obtain ⟨table', ht', data, hread, -⟩ := stored_eq_ok_iff.mp hstored
    rw [show catalog.table table.id = _ from ht, Except.ok.injEq] at ht'
    subst ht'
    have hin := (PagedFile.read_eq_ok_iff.mp hread).1
    rw [Nat.succ_mul]
    exact hin

namespace Store

variable {first s s' s₁ : Store} {tid : TransactionId} {row row' : Row} {table : Table}
  {id : TableId} {page : PageId} {pages : List PageId} {e : TableError}

/-! ## Nothing done -/

/-- `s'` differs from `s` in which clean pages are cached and in their order at most. -/
structure Untouched (s s' : Store) : Prop where
  disk : s'.disk = s.disk
  catalog : s'.catalog = s.catalog
  /-- Every page shows the same bytes, changed by the same transaction. -/
  shown : ∀ page, s'.shown page = s.shown page
  /-- The same pages are dirty. -/
  changed : ∀ page, s'.view.changed page = s.view.changed page
  handles : s'.cache.handles = s.cache.handles
  detached : s'.cache.detached = s.cache.detached
  capacity : s'.cache.capacity = s.cache.capacity

theorem Untouched.refl (s : Store) : s.Untouched s :=
  ⟨rfl, rfl, fun _ => rfl, fun _ => rfl, rfl, rfl, rfl⟩

theorem Steps.detached (h : Steps s s') : s'.cache.detached = s.cache.detached := by
  induction h with
  | refl => rfl
  | tail _ hstep ih => exact hstep.2.trans ih

/-- Steps after which the view is what it was touch nothing. -/
theorem Steps.untouched (h : Steps s s') (hs : s.Coherent) (hview : s'.view = s.view) :
    s.Untouched s' := by
  have hs' : s'.Coherent := Moves.coherent (Steps.moves h) hs
  obtain ⟨hhandles, hcapacity⟩ := Moves.fixed (Steps.moves h)
  refine ⟨congrArg View.disk hview, congrArg View.catalog hview, fun page => ?_, fun page => ?_,
    hhandles, Steps.detached h, hcapacity⟩
  · rw [← hs'.page_view, ← hs.page_view, hview]
  · rw [hview]

/-- Fetching pages touches nothing. -/
theorem Fetches.untouched (h : Fetches s s') (hs : s.Coherent) : s.Untouched s' :=
  Steps.untouched (Fetches.steps h) hs (Fetches.view h hs)

/-! ## A page appended for nothing -/

/-- Every page of the registered table is cached and full, and no page can be loaded. -/
structure Jams (s : Store) (id : TableId) (row : Row) (table : Table) : Prop where
  registered : s.catalog.table id = .ok table
  agrees : row.schema.Agrees table.schema
  noRoom : ¬ s.HasRoom
  full : ∀ number < table.pageCount s.disk, ∃ frame,
    s.cache.find? ⟨table.id, number⟩ = some frame ∧ frame.page.firstFree? = none

/-- The row is one for the registered table, and every page of the table is full. -/
structure Filled (s : Store) (id : TableId) (row : Row) (table : Table) : Prop where
  registered : s.catalog.table id = .ok table
  agrees : row.schema.Agrees table.schema
  full : ∀ number < table.pageCount s.disk, ∃ content,
    s.shown ⟨table.id, number⟩ = .ok content ∧ content.firstFree? = none

/-- `s'` is `s` with zeros appended to the file of a table, up to a page of them. -/
structure Grew (s s' : Store) (table : Table) (count : Nat) : Prop where
  pos : 0 < count
  le : count ≤ table.pageSize
  untouched : Untouched { s with disk := table.grownBy count s.disk } s'
  pageCount : table.pageCount s'.disk = table.pageCount s.disk + 1
  /-- The page behind the last can be read when all of it is there, and is empty. -/
  empty : ∀ content, s'.shown ⟨table.id, table.pageCount s.disk⟩ = .ok content ↔
    count = table.pageSize ∧ content =
      .ofBytes ⟨table.id, table.pageCount s.disk⟩ table.schema (Bytes.zeros table.pageSize)
  /-- Every other page shows what it showed. -/
  others : ∀ page, page ≠ ⟨table.id, table.pageCount s.disk⟩ → ∀ content,
    s'.shown page = .ok content ↔ s.shown page = .ok content

/-- Without room a page that was fetched was cached. -/
theorem find?_of_fetch_of_not_hasRoom {content : Page} (hroom : ¬ s.HasRoom)
    (h : (s.fetch page).1 = .ok content) :
    ∃ frame, s.cache.find? page = some frame ∧ frame.page = content := by
  have hfetched := s.fetched page
  generalize s.fetch page = out at h hfetched
  cases hfetched with
  | hit hf => exact ⟨_, hf, Except.ok.inj h⟩
  | failed | full => cases h
  | loaded _ _ hsome =>
    refine absurd ?_ hroom
    show s.cache.makeRoom?.isSome = true
    rw [hsome]
    rfl

/-- Every page that is passed over is full, as it is fetched before any of them was. -/
theorem full_of_sweep_none (hs : s.Coherent) (hissued : s.Issued)
    (h : insertInPages tid row pages s = (.ok none, s')) :
    ∀ page ∈ pages, ∃ content, (s.fetch page).1 = .ok content ∧ content.firstFree? = none := by
  induction pages generalizing s with
  | nil => simp
  | cons first pages ih =>
    obtain ⟨hfirst, hrest⟩ | ⟨-, hne⟩ := insertInPages_cons h
    · have hmoves := moves_fetch s first
      intro page hmem
      rcases List.mem_cons.mp hmem with rfl | hmem
      · exact full_of_insertInPage_none hfirst
      · have hfull := ih (hmoves.coherent hs) (hissued.moves hmoves) hrest page hmem
        rwa [fetch_fetch hs hissued first page] at hfull
    · exact absurd rfl hne

/-- When every page of the table is passed over all are full. -/
theorem filled_of_sweep_none (hs : s.Coherent) (hissued : s.Issued)
    (ht : s.catalog.table table.id = .ok table) (hagree : row.schema.Agrees table.schema)
    (h : insertInPages tid row (table.firstPages (table.pageCount s.disk)) s = (.ok none, s₁)) :
    s.Filled table.id row table := by
  refine ⟨ht, hagree, fun number hlt => ?_⟩
  obtain ⟨content, hfetch, hnone⟩ :=
    full_of_sweep_none hs hissued h _ (List.mem_map_of_mem (List.mem_range.mpr hlt))
  exact ⟨content, shown_of_fetch hfetch, hnone⟩

/-- Pages that are cached and full are passed over, and no room is made. -/
theorem sweep_of_full (hs : s.cache.Valid)
    (hfull : ∀ page ∈ pages, ∃ frame, s.cache.find? page = some frame ∧
      frame.page.firstFree? = none) :
    ∃ s₁, insertInPages tid row pages s = (.ok none, s₁) ∧ (s₁.HasRoom ↔ s.HasRoom) := by
  induction pages generalizing s with
  | nil => exact ⟨s, rfl, Iff.rfl⟩
  | cons page pages ih =>
    obtain ⟨frame, hf, hnone⟩ := hfull page List.mem_cons_self
    have hfirst : s.insertInPage tid page row =
        (.ok none, { s with cache := s.cache.touch page }) := by
      unfold insertInPage
      rw [fetch_eq, hf]
      dsimp only
      rw [hnone]
      rfl
    have hrest := @ih { s with cache := s.cache.touch page } (hs.touch (hf ▸ rfl)) ?_
    · obtain ⟨s₁, hsweep, hroom⟩ := hrest
      refine ⟨s₁, ?_, hroom.trans (hasRoom_touch hs (hf ▸ rfl))⟩
      rw [insertInPages, hfirst]
      exact hsweep
    · intro other hmem
      obtain ⟨frame', hf', hnone'⟩ := hfull other (List.mem_cons_of_mem _ hmem)
      refine ⟨frame', ?_, hnone'⟩
      show (s.cache.touch page).find? other = _
      rw [Cache.find?_touch]
      exact hf'

/-- A store agrees with its disk also when zeros are appended to the file of a table. -/
theorem Coherent.grownBy (hs : s.Coherent) (ht : s.catalog.table table.id = .ok table)
    (count : Nat) : Coherent { s with disk := table.grownBy count s.disk } := by
  have hbytes : ∀ {page data}, s.storedBytes page = .ok data →
      storedBytes { s with disk := table.grownBy count s.disk } page = .ok data := by
    intro page data h
    obtain ⟨content, hstored, hdata⟩ := storedBytes_eq_ok_iff.mp h
    exact storedBytes_eq_ok_iff.mpr ⟨content, Catalog.stored_grownBy hs.sound ht count hstored, hdata⟩
  refine ⟨⟨hs.sound, hs.valid, fun {page frame} hf => ?_⟩, fun page frame hf hclean => ?_,
    fun page frame hf => ?_⟩
  · obtain ⟨content, hstored, hlike⟩ := hs.seated hf
    exact ⟨content, Catalog.stored_grownBy hs.sound ht count hstored, hlike⟩
  · exact hbytes (hs.clean page frame hf hclean)
  · exact hbytes (hs.before page frame hf)

/-- The store in which zeros were appended once all pages were passed over. -/
theorem grew_torn {count : Nat} (hs : s.Coherent) (ht : s.catalog.table table.id = .ok table)
    (hsweep : insertInPages tid row (table.firstPages (table.pageCount s.disk)) s = (.ok none, s₁))
    (hwhole : (s.disk.contents table.file).length = table.pageCount s.disk * table.pageSize)
    (hpos : 0 < count) (hle : count ≤ table.pageSize) :
    s.Grew { s₁ with disk := table.grownBy count s.disk } table count := by
  obtain ⟨hs₁, hdisk, hcatalog⟩ := of_sweep_none hs hsweep
  have huntouched := (fetches_insertInPages_none hsweep).untouched hs
  have hbefore := hs.grownBy ht count
  have hafter : Coherent { s₁ with disk := table.grownBy count s.disk } :=
    hdisk ▸ hs₁.grownBy (hcatalog ▸ ht) count
  have hview : view { s₁ with disk := table.grownBy count s.disk } =
      ⟨table.grownBy count s.disk, s.view.catalog, s.view.changed⟩ := by
    show (⟨_, s₁.view.catalog, s₁.view.changed⟩ : View) = _
    rw [(fetches_insertInPages_none hsweep).view hs]
  have hsame : view { s₁ with disk := table.grownBy count s.disk } =
      view { s with disk := table.grownBy count s.disk } := hview
  -- a page is shown as it was changed, or else as it is stored
  have hmiss : s.view.changed ⟨table.id, table.pageCount s.disk⟩ = none := by
    simp [view, find?_behind hs.toSeated ht]
  refine ⟨hpos, hle, ⟨rfl, huntouched.catalog, fun page => ?_, fun page => ?_, huntouched.handles,
    huntouched.detached, huntouched.capacity⟩, Table.pageCount_grownBy hwhole hpos hle,
    fun content => ?_, fun page hne content => ?_⟩
  · rw [← hafter.page_view, ← hbefore.page_view, hsame]
  · rw [hsame]
  · rw [← hafter.page_view, hview, View.page]
    dsimp only
    rw [hmiss]
    exact Catalog.stored_grownBy_behind_iff hs.sound ht hwhole hle
  · rw [← hafter.page_view, ← hs.page_view, hview]
    unfold View.page
    dsimp only
    cases s.view.changed page with
    | some changed => exact Iff.rfl
    | none => exact Catalog.stored_grownBy_iff hs.sound ht hwhole hle hne

section

variable (hs : s.Coherent) (ht : s.catalog.table table.id = .ok table) {disk : Disk}
  (hsweep : insertInPages tid row (table.firstPages (table.pageCount s.disk)) s = (.ok none, s₁))
  (hw : table.writeBytes s.disk ⟨table.id, table.pageCount s.disk⟩ (Bytes.zeros table.pageSize) =
    .ok disk)
include hs ht hsweep hw

/-- The page that was appended is not cached, and is stored. -/
theorem stored_appended :
    s₁.cache.find? ⟨table.id, table.pageCount s.disk⟩ = none ∧
      stored { s₁ with disk } ⟨table.id, table.pageCount s.disk⟩ =
        .ok (.ofBytes ⟨table.id, table.pageCount s.disk⟩ table.schema
          (Bytes.zeros table.pageSize)) := by
  obtain ⟨hs₁, hdisk, hcatalog⟩ := of_sweep_none hs hsweep
  have ht₁ : s₁.catalog.table table.id = .ok table := by rwa [hcatalog]
  constructor
  · rw [← hdisk]
    exact find?_behind hs₁.toSeated ht₁
  · rw [← hdisk] at hw ⊢
    exact Catalog.stored_writeBytes_self ht₁ hw

/-- Where there is no room for the page that was appended the insert fails. -/
theorem insertInPage_of_not_hasRoom (hroom : ¬ s₁.HasRoom) :
    insertInPage { s₁ with disk } tid ⟨table.id, table.pageCount s.disk⟩ row =
      (.error (.cache (.noEvictablePage s.cache.capacity)), { s₁ with disk }) := by
  obtain ⟨hmiss, hstored⟩ := stored_appended hs ht hsweep hw
  have hnone : s₁.cache.makeRoom? = none := by simpa [HasRoom] using hroom
  have hcapacity : s₁.cache.capacity = s.cache.capacity :=
    (Moves.fixed (Fetches.moves (fetches_insertInPages_none hsweep))).2
  unfold insertInPage
  rw [fetch_eq]
  dsimp only
  rw [hmiss, hstored, hnone, hcapacity]

/-- When all pages were passed over and the row does not get into the page that was appended, there
was no room for it from the start. -/
theorem jams_of_stuck (hissued : s.Issued) (hrow : row.WellTyped)
    (hagree : row.schema.Agrees table.schema)
    (hlast : insertInPage { s₁ with disk } tid ⟨table.id, table.pageCount s.disk⟩ row =
      (.error e, s')) : ¬ s₁.HasRoom ∧ s.Jams table.id row table := by
  obtain ⟨hmiss, hstored⟩ := stored_appended hs ht hsweep hw
  have hfetches := fetches_insertInPages_none hsweep
  have hfull := full_of_sweep_none hs hissued hsweep
  have hroom₁ : ¬ s₁.HasRoom := by
    intro hsome
    have hfetched := fetched { s₁ with disk } ⟨table.id, table.pageCount s.disk⟩
    obtain ⟨-, ⟨cause, hcause, -⟩ | ⟨content, hcontent, hfree, hinsert⟩⟩ := insertInPage_error hlast
    · generalize fetch { s₁ with disk } _ = out at hcause hfetched
      cases hfetched with
      | hit | loaded => cases hcause
      | failed _ hnot => cases hstored.symm.trans hnot
      | full _ _ hnone =>
        have hnone' : s₁.cache.makeRoom? = none := hnone
        simp [HasRoom, hnone'] at hsome
    · -- the page that was appended has the schema of the table and takes every row of it
      generalize fetch { s₁ with disk } _ = out at hcontent hfetched
      cases hfetched with
      | hit hf => cases hmiss.symm.trans hf
      | failed | full => cases hcontent
      | loaded _ hfound _ =>
        obtain rfl := Except.ok.inj hcontent
        obtain rfl := Except.ok.inj (hstored.symm.trans hfound)
        obtain ⟨_, hok⟩ := Page.insert_isOk hrow hagree hfree
        cases hok.symm.trans hinsert
  have hroom : ¬ s.HasRoom := by
    intro hroom
    have hadmits : s.Admits := ⟨hroom, hissued⟩
    exact hroom₁ (hadmits.fetches hs.valid hfetches).room
  refine ⟨hroom₁, ht, hagree, hroom, fun number hlt => ?_⟩
  obtain ⟨content, hfetch, hnone⟩ :=
    hfull _ (List.mem_map_of_mem (List.mem_range.mpr hlt))
  obtain ⟨frame, hf, hcontent⟩ := find?_of_fetch_of_not_hasRoom hroom hfetch
  exact ⟨frame, hf, hcontent ▸ hnone⟩

end

/-! ## Inserts that fail -/

/-- An insert without faults fails without a trace, unless a page is appended for which there is no
room. -/
theorem Added.failed_cases (h : s.Added table tid row (.error e, s')) (hs : s.Coherent)
    (hissued : s.Issued) (ht : s.catalog.table table.id = .ok table) (hrow : row.WellTyped)
    (hagree : row.schema.Agrees table.schema) :
    s.Untouched s' ∨ s.Jams table.id row table ∧
      e = .cache (.noEvictablePage s.cache.capacity) ∧ s.Grew s' table table.pageSize := by
  cases h with
  | failed hsweep => exact Or.inl ((fetches_insertInPages_error hsweep).untouched hs)
  | broken hsweep hw => exact Or.inl ((fetches_insertInPages_none hsweep).untouched hs)
  | @stuck _ s₁ _ disk hsweep hw hlast =>
    have hpos := (hs.sound.table ht).pageSize_pos
    obtain ⟨hroom, hjams⟩ := jams_of_stuck hs ht hsweep hw hissued hrow hagree hlast
    have hrefused := @insertInPage_of_not_hasRoom _ _ tid _ _ hs ht _ hsweep hw hroom
    obtain ⟨he, rfl⟩ := Prod.mk.inj (hlast.symm.trans hrefused)
    obtain ⟨hwhole, rfl⟩ := (Table.writeBytes_next_iff hpos).mp hw
    exact Or.inr ⟨hjams, Except.error.inj he,
      grew_torn hs ht hsweep hwhole hpos (Nat.le_refl _)⟩

/-- Where every page of the table is cached and full and no page can be loaded an insert fails, and
leaves an empty page behind. -/
theorem Jams.insertInTable (h : s.Jams table.id row table) (hs : s.Coherent) (tid : TransactionId) :
    ∃ s', s.insertInTable table tid row =
      (.error (.cache (.noEvictablePage s.cache.capacity)), s') ∧
        s.Grew s' table table.pageSize := by
  have ht := h.registered
  have hpos := (hs.sound.table ht).pageSize_pos
  have hcached : ∀ page ∈ table.firstPages (table.pageCount s.disk), ∃ frame,
      s.cache.find? page = some frame ∧ frame.page.firstFree? = none := by
    intro page hmem
    obtain ⟨number, hnumber, rfl⟩ := List.mem_map.mp hmem
    exact h.full number (List.mem_range.mp hnumber)
  obtain ⟨s₁, hsweep, hroom⟩ := @sweep_of_full s tid row _ hs.valid hcached
  -- all pages are cached, so all are stored, and the file can be extended
  have hwhole := Catalog.whole_of_stored hs.sound ht fun number hlt => by
    obtain ⟨frame, hf, -⟩ := h.full number hlt
    exact ⟨_, hs.stored_eq hf⟩
  have hw := (Table.writeBytes_next_iff hpos).mpr ⟨hwhole, rfl⟩
  have hlast := @insertInPage_of_not_hasRoom _ _ tid _ _ hs ht _ hsweep hw (mt hroom.mp h.noRoom)
  refine ⟨_, ?_, grew_torn hs ht hsweep hwhole hpos (Nat.le_refl _)⟩
  rw [Store.insertInTable, if_pos h.agrees, insertGrowing_succ hs ht]
  unfold insertGrowing
  dsimp only
  rw [hsweep]
  dsimp only
  rw [(of_sweep_none hs hsweep).2.1, hw]
  dsimp only
  rw [hlast]
  rfl

/-- The same of an insert into the registered table with an identity. -/
theorem insertRow_error (hs : s.Coherent) (hissued : s.Issued) (hrow : row.WellTyped)
    (h : s.insertRow tid id row = (.error e, s')) :
    s.Untouched s' ∨ ∃ table, s.Jams id row table ∧
      e = .cache (.noEvictablePage s.cache.capacity) ∧ s.Grew s' table table.pageSize := by
  unfold insertRow at h
  cases ht : s.catalog.table id with
  | error cause =>
    rw [ht] at h
    obtain rfl := (Prod.mk.inj h).2
    exact Or.inl (.refl s)
  | ok table =>
    obtain ⟨hid, -⟩ := Catalog.mem_of_table ht
    subst hid
    rw [ht] at h
    dsimp only [insertInTable] at h
    by_cases hagree : row.schema.Agrees table.schema
    · rw [if_pos hagree] at h
      have hadded := @added_insertGrowing s tid row table hs ht s.cache.size
      rw [h] at hadded
      exact (hadded.failed_cases hs hissued ht hrow hagree).imp_right fun hjams => ⟨table, hjams⟩
    · rw [if_neg hagree] at h
      obtain rfl := (Prod.mk.inj h).2
      exact Or.inl (.refl s)

/-- An insert fails without a trace, unless every page of the table is full and there is no room for
the page that is appended, or the file system fails once some of it is. -/
theorem insertRowWith_error {faults rest : Faults} (hs : s.Coherent) (hissued : s.Issued)
    (hrow : row.WellTyped) (h : s.insertRowWith faults tid id row = ((.error e, s'), rest)) :
    s.Untouched s' ∨ ∃ table count, s.Filled id row table ∧ s.Grew s' table count ∧
      (e.isIo = true ∨ s.Jams id row table ∧ count = table.pageSize ∧
        e = .cache (.noEvictablePage s.cache.capacity)) := by
  have hcases := insertRowWith_cases hs faults tid id row
  rw [h] at hcases
  obtain ⟨cause, hrefused⟩ | ⟨table, rfl, ht, hagree, hadded⟩ := hcases
  · rw [(Prod.mk.inj hrefused).2]
    exact Or.inl (.refl s)
  · cases hadded with
    | added hadded =>
      obtain huntouched | ⟨hjams, he, hgrew⟩ := hadded.failed_cases hs hissued ht hrow hagree
      · exact Or.inl huntouched
      · refine Or.inr ⟨table, _, ⟨ht, hagree, fun number hlt => ?_⟩, hgrew, Or.inr ⟨hjams, rfl, he⟩⟩
        obtain ⟨frame, hf, hnone⟩ := hjams.full number hlt
        exact ⟨frame.page, by rw [shown, hf], hnone⟩
    | unread hio hfetches => exact Or.inl (hfetches.untouched hs)
    | torn hio hsweep hwhole hpos hle =>
      exact Or.inr ⟨table, _, filled_of_sweep_none hs hissued ht hagree hsweep,
        grew_torn hs ht hsweep hwhole hpos hle, Or.inl hio⟩

/-! ## States that are reached in spite of faults -/

/-- However an insert ends, the store agrees with its disk. -/
theorem AddedWith.keeps {outcome : Except TableError RecordId × Store}
    (h : s.AddedWith table tid row outcome) (hs : s.Coherent) (htagged : s.Tagged)
    (ht : s.catalog.table table.id = .ok table) :
    outcome.2.Coherent ∧ outcome.2.Tagged ∧ outcome.2.catalog = s.catalog := by
  have hmoves : ∀ {t : Store}, Moves s t → t.Coherent ∧ t.Tagged ∧ t.catalog = s.catalog :=
    fun hmoves => ⟨hmoves.coherent hs, htagged.moves hs.valid hmoves, Moves.catalog hmoves⟩
  cases h with
  | added hadded => exact hmoves (hadded.moves hs ht)
  | unread hio hfetches => exact hmoves (Fetches.moves hfetches)
  | @torn e s₁ count hio hsweep hwhole hpos hle =>
    obtain ⟨hs₁, htagged₁, hcatalog⟩ := hmoves (Fetches.moves (fetches_insertInPages_none hsweep))
    have hdisk : s₁.disk = s.disk := (of_sweep_none hs hsweep).2.1
    exact ⟨hdisk ▸ hs₁.grownBy (hcatalog ▸ ht) count, ⟨htagged₁.frames, htagged₁.issued⟩, hcatalog⟩

theorem insertRowWith_keeps (hs : s.Coherent) (htagged : s.Tagged) (faults : Faults)
    (tid : TransactionId) (id : TableId) (row : Row) :
    let t := (s.insertRowWith faults tid id row).1.2
    t.Coherent ∧ t.Tagged ∧ t.catalog = s.catalog := by
  obtain ⟨e, hrefused⟩ | ⟨table, rfl, ht, -, hadded⟩ := insertRowWith_cases hs faults tid id row
  · rw [hrefused]
    exact ⟨hs, htagged, rfl⟩
  · exact hadded.keeps hs htagged ht

/-- What becomes of a store by actions of sessions and calls of operators, without a flush, and by
inserts during which calls of the file system fail.  What else stops because a page cannot be read
leaves what the fetches, inserts and deletes before that left. -/
inductive ReachedDespite (first : Store) : Store → Prop
  | first : ReachedDespite first first
  | calls {s t : Store} (h : ReachedDespite first s) (hcalls : s.Reached t) :
    ReachedDespite first t
  | insert {s : Store} (h : ReachedDespite first s) (faults : Faults) (tid : TransactionId)
    (id : TableId) (row : Row) : ReachedDespite first (s.insertRowWith faults tid id row).1.2

theorem ReachedDespite.invariant (h : first.ReachedDespite s) (hfresh : first.Fresh)
    (hsound : first.catalog.Sound) : s.Coherent ∧ s.Tagged := by
  induction h with
  | first => exact ⟨hfresh.coherent hsound, hfresh.tagged⟩
  | calls _ hcalls ih =>
    obtain ⟨hs, htagged, -⟩ := hcalls.keeps ih.1 ih.2
    exact ⟨hs, htagged⟩
  | insert _ faults tid id row ih =>
    obtain ⟨hs, htagged, -⟩ := insertRowWith_keeps ih.1 ih.2 faults tid id row
    exact ⟨hs, htagged⟩

/-- A failed insert leaves no trace: all that was shown, the dirty pages and the files are as they
were, and the row has the record it had.  There are two exceptions, both when every page of the table
is full.  When besides they are all cached, and the cache is full of pages that are dirty or held,
an insert always fails for want of room and leaves an empty page behind the table's file.  When the
file system fails while that page is written or read, what was written of it stays.  Where no call
of the file system fails `Store.addRowWith` is `Store.addRow`. -/
theorem addRow_failed (hfresh : first.Fresh) (hsound : first.catalog.Sound)
    (hreached : first.ReachedDespite s) (hrow : row.WellTyped) (tid : TransactionId)
    (id : TableId) :
    s.addRowWith [] tid id row = (s.addRow tid id row, []) ∧
    (∀ e row' s', s.addRow tid id row = (.error e, row', s') →
      row' = row ∧ (s.Untouched s' ∨ ∃ table, s.Jams id row table ∧
        e = .cache (.noEvictablePage s.cache.capacity) ∧ s.Grew s' table table.pageSize)) ∧
    (∀ table, s.Jams id row table → ∃ s',
      s.addRow tid id row = (.error (.cache (.noEvictablePage s.cache.capacity)), row, s') ∧
        s.Grew s' table table.pageSize) ∧
    ∀ faults rest e row' s', s.addRowWith faults tid id row = ((.error e, row', s'), rest) →
      row' = row ∧ (s.Untouched s' ∨ ∃ table count, s.Filled id row table ∧ s.Grew s' table count ∧
        (e.isIo = true ∨ s.Jams id row table ∧ count = table.pageSize ∧
          e = .cache (.noEvictablePage s.cache.capacity))) := by
  obtain ⟨hs, htagged⟩ := hreached.invariant hfresh hsound
  refine ⟨addRowWith_nil s tid id row, ?_, ?_, ?_⟩
  · intro e row' s' h
    unfold addRow at h
    rcases hinsert : s.insertRow tid id row with ⟨cause | record, t⟩
    · simp only [hinsert, told, Prod.mk.injEq, Except.error.injEq] at h
      obtain ⟨rfl, hkept, rfl⟩ := h
      exact ⟨hkept.symm, insertRow_error hs htagged.issued hrow hinsert⟩
    · simp [hinsert, told] at h
  · intro table hjams
    have ht := hjams.registered
    obtain ⟨hid, -⟩ := Catalog.mem_of_table ht
    subst hid
    obtain ⟨s', hinsert, hgrew⟩ := hjams.insertInTable hs tid
    refine ⟨s', ?_, hgrew⟩
    unfold addRow insertRow
    rw [ht]
    dsimp only
    rw [hinsert]
    rfl
  · intro faults rest e row' s' h
    unfold addRowWith at h
    rcases hinsert : s.insertRowWith faults tid id row with ⟨⟨cause | record, t⟩, rest'⟩
    · simp only [hinsert, told, Prod.mk.injEq, Except.error.injEq] at h
      obtain ⟨⟨rfl, hkept, rfl⟩, rfl⟩ := h
      exact ⟨hkept.symm, insertRowWith_error hs htagged.issued hrow hinsert⟩
    · simp [hinsert, told] at h

end Store

namespace Sample

/-- Two rows fill the only page of the table, and it is the only page the cache has room for. -/
def filled : Session :=
  (Session.mk (store 1 Nat.one_pos) []).after
    [.insert ⟨1⟩ table.id (row 1 10), .insert ⟨1⟩ table.id (row 2 20)]

theorem reached_filled : (store 1 Nat.one_pos).Reached filled.store := by
  refine @Store.Reached.after _ (Session.mk (store 1 Nat.one_pos) []) .first _ ?_
  decide

/-- The pages are counted twice, and then the write stops after five bytes. -/
def fullDisk : Faults := [none, none, some ⟨"No space left on device", 5⟩]

end Sample

namespace Store

/-- A third row is not inserted, and leaves an empty page behind, or five bytes of one where the disk
is full; a row for a table that is not registered leaves nothing. -/
theorem addRow_failed_filled :
    let s := Sample.filled.store
    let row := Sample.row 3 30
    let torn := s.addRowWith Sample.fullDisk ⟨1⟩ Sample.table.id row
    let outcome := s.addRow ⟨1⟩ ⟨7⟩ row
    (∃ s', s.addRow ⟨1⟩ Sample.table.id row = (.error (.cache (.noEvictablePage 1)), row, s') ∧
      s.Grew s' Sample.table 20) ∧
    (torn.1.1 = .error (.storage (.io "No space left on device")) ∧ torn.1.2.1 = row ∧
      (torn.1.2.2.disk.contents Sample.table.file).length = 25 ∧
      ∃ count, s.Grew torn.1.2.2 Sample.table count) ∧
    outcome.1 = .error (.catalog (.unknownTable ⟨7⟩)) ∧ outcome.2.1 = row ∧
      s.Untouched outcome.2.2 := by
  intro s row torn outcome
  have hrow : row.WellTyped := ⟨rfl, by decide⟩
  have ht : s.catalog.table Sample.table.id = .ok Sample.table := by decide +kernel
  have hunknown : s.catalog.table ⟨7⟩ = .error (.unknownTable ⟨7⟩) := by decide +kernel
  have hfailed : outcome.1 = .error (.catalog (.unknownTable ⟨7⟩)) := by decide +kernel
  have hio : torn.1.1 = .error (.storage (.io "No space left on device")) := by decide +kernel
  have hbefore : (s.disk.contents Sample.table.file).length = 20 := by decide +kernel
  have hlength : (torn.1.2.2.disk.contents Sample.table.file).length = 25 := by decide +kernel
  have hfails := fun id => addRow_failed (Sample.fresh_store 1 Nat.one_pos) Sample.sound_catalog
    (.calls .first Sample.reached_filled) hrow ⟨1⟩ id
  refine ⟨?_, ?_, ?_⟩
  · have hjams : s.Jams Sample.table.id row Sample.table := by
      have hroom : ¬ s.HasRoom := by
        unfold HasRoom
        decide +kernel
      refine ⟨ht, rfl, hroom, fun number hlt => ?_⟩
      rw [show Sample.table.pageCount s.disk = 1 by decide +kernel] at hlt
      obtain rfl : number = 0 := by omega
      have hfull : (s.cache.find? ⟨Sample.table.id, 0⟩).map (·.page.firstFree?) = some none := by
        decide +kernel
      exact Option.map_eq_some_iff.mp hfull
    exact (hfails Sample.table.id).2.2.1 Sample.table hjams
  · obtain ⟨hkept, huntouched | ⟨table, count, hfilled, hgrew, -⟩⟩ :=
      (hfails Sample.table.id).2.2.2 Sample.fullDisk torn.2 _ torn.1.2.1 torn.1.2.2 (by rw [← hio])
    · rw [huntouched.disk, hbefore] at hlength
      cases hlength
    · obtain rfl := Except.ok.inj (ht.symm.trans hfilled.registered)
      exact ⟨hio, hkept, hlength, count, hgrew⟩
  · obtain ⟨hkept, huntouched | ⟨table, hjams, -⟩⟩ :=
      (hfails ⟨7⟩).2.1 _ outcome.2.1 outcome.2.2 (by rw [← hfailed])
    · exact ⟨hfailed, hkept, huntouched⟩
    · cases hunknown.symm.trans hjams.registered

/-- The file is longer than it was before the third row was not inserted. -/
theorem longer_after_failed_insert :
    let s := Sample.filled.store
    let outcome := s.addRow ⟨1⟩ Sample.table.id (Sample.row 3 30)
    (Sample.store 1 Nat.one_pos).Fresh ∧ (Sample.store 1 Nat.one_pos).catalog.Sound ∧
      (Sample.store 1 Nat.one_pos).Reached s ∧ (Sample.row 3 30).WellTyped ∧
      outcome.1 = .error (.cache (.noEvictablePage 1)) ∧
      (s.disk.contents Sample.table.file).length = 20 ∧
      (outcome.2.2.disk.contents Sample.table.file).length = 40 := by
  refine ⟨Sample.fresh_store 1 Nat.one_pos, Sample.sound_catalog, Sample.reached_filled,
    ⟨rfl, by decide⟩, ?_⟩
  decide +kernel

end Store

end RowStore
