import RowStore.Catalog
import RowStore.Proofs.Lookup
import RowStore.Proofs.PagedFile

/-!
# RowStore.Proofs.Catalog: registered tables and their pages on the disk

A table that was opened takes its identity from its file (`Table.WellFormed`), so in a sound
catalog two identities never share a file.  `Catalog.stored` is a page as the disk has it; writing
one page of a registered table changes that page alone.
-/

namespace RowStore

/-! ## Files -/

theorem Disk.contents_write (disk : Disk) (file other : Location) (bytes : Bytes) :
    (disk.write file bytes).contents other = if other = file then bytes else disk.contents other := by
  split_ifs with h
  · rw [h, Disk.contents_write_self]
  · have ho : (other == file) = false := by simpa using h
    simp only [Disk.contents, Disk.write, List.lookup_cons, ho]
    rw [Lookup.lookup_filter_ne, if_neg h]

/-! ## Tables -/

namespace Table

/-- A table as opening one makes it: its identity comes from its file, and a page has a slot. -/
def WellFormed (table : Table) : Prop :=
  table.id = table.file.tableId ∧ table.slotsPerPage ≠ 0

theorem wellFormed_of_openAt {disk disk' : Disk} {folder : Location} {path : String}
    {schema : Schema} {pageSize : Nat} {table : Table}
    (h : openAt disk folder path schema pageSize = .ok (table, disk')) : table.WellFormed := by
  unfold openAt at h
  split_ifs at h with hslots
  cases hfile : disk.resolve folder path with
  | none => simp [hfile] at h
  | some file =>
    simp only [hfile, Except.ok.injEq, Prod.mk.injEq] at h
    obtain ⟨rfl, -⟩ := h
    exact ⟨rfl, hslots⟩

theorem WellFormed.pageSize_pos {table : Table} (h : table.WellFormed) : 0 < table.pageSize := by
  refine Nat.pos_of_ne_zero fun h0 => h.2 ?_
  simp [slotsPerPage, PageGeometry.slots, h0]

variable {table : Table} {disk disk' : Disk} {page other : PageId} {data : Bytes}

/-- A write goes to the table's own file. -/
theorem writeBytes_eq_ok_iff :
    table.writeBytes disk page data = .ok disk' ↔
      ∃ file, (table.pagedFile disk).write page data = .ok file ∧
        disk' = disk.write table.file file.bytes := by
  unfold writeBytes
  cases (table.pagedFile disk).write page data with
  | error e => simp
  | ok file => simp [eq_comm]

theorem pagedFile_of_writeBytes (h : table.writeBytes disk page data = .ok disk') :
    (table.pagedFile disk).write page data = .ok (table.pagedFile disk') := by
  obtain ⟨file, hw, rfl⟩ := writeBytes_eq_ok_iff.mp h
  obtain ⟨-, -, rfl⟩ := PagedFile.write_eq_ok_iff.mp hw
  rw [hw]
  simp [pagedFile]

/-- A write leaves every other file as it was. -/
theorem contents_of_writeBytes_of_ne (h : table.writeBytes disk page data = .ok disk')
    {file : Location} (hne : file ≠ table.file) : disk'.contents file = disk.contents file := by
  obtain ⟨result, -, rfl⟩ := writeBytes_eq_ok_iff.mp h
  rw [Disk.contents_write, if_neg hne]

/-- The page behind the last is written only when the file consists of whole pages, and is then
appended to it. -/
theorem writeBytes_next_iff (hpos : 0 < table.pageSize) :
    table.writeBytes disk ⟨table.id, table.pageCount disk⟩ (Bytes.zeros table.pageSize) =
        .ok disk' ↔
      (disk.contents table.file).length = table.pageCount disk * table.pageSize ∧
        disk' = disk.write table.file
          (disk.contents table.file ++ Bytes.zeros table.pageSize) := by
  have hle : (table.pagedFile disk).bytes.length ≤
      table.pageCount disk * (table.pagedFile disk).pageSize :=
    (PagedFile.span_le_iff hpos _).mp (Nat.le_refl _)
  rw [writeBytes_eq_ok_iff]
  constructor
  · rintro ⟨file, hw, rfl⟩
    obtain ⟨-, hin, rfl⟩ := PagedFile.write_eq_ok_iff.mp hw
    have hlen : (disk.contents table.file).length = table.pageCount disk * table.pageSize :=
      Nat.le_antisymm hle hin
    refine ⟨hlen, ?_⟩
    dsimp only [pagedFile, PageId.offset]
    rw [← hlen, Bytes.splice_length]
  · rintro ⟨hlen, rfl⟩
    refine ⟨_, PagedFile.write_eq_ok (Bytes.length_zeros _) (Nat.le_of_eq hlen.symm), ?_⟩
    dsimp only [pagedFile, PageId.offset]
    rw [← hlen, Bytes.splice_length]

/-- The disk with zeros appended to the file of a table. -/
def grownBy (table : Table) (count : Nat) (disk : Disk) : Disk :=
  disk.write table.file (disk.contents table.file ++ Bytes.zeros count)

/-- Zeros behind a file of whole pages, up to a page of them, make it span one page more. -/
theorem pageCount_grownBy {count : Nat}
    (hwhole : (disk.contents table.file).length = table.pageCount disk * table.pageSize)
    (hpos : 0 < count) (hle : count ≤ table.pageSize) :
    table.pageCount (table.grownBy count disk) = table.pageCount disk + 1 := by
  have hnew : ((table.grownBy count disk).contents table.file).length =
      table.pageCount disk * table.pageSize + count := by
    rw [grownBy, Disk.contents_write_self, List.length_append, Bytes.length_zeros, hwhole]
  have hspan := fun pages => PagedFile.span_le_iff (show 0 < (table.pagedFile
    (table.grownBy count disk)).pageSize from Nat.lt_of_lt_of_le hpos hle) pages
  refine Nat.le_antisymm ((hspan _).mpr ?_) (Nat.lt_of_not_le fun hshort => ?_)
  · simp only [pagedFile, hnew, Nat.succ_mul]
    omega
  · have hlt := (hspan _).mp hshort
    simp only [pagedFile, hnew] at hlt
    omega

/-- Appending a page makes the file span one page more. -/
theorem pageCount_of_writeBytes_next (hpos : 0 < table.pageSize)
    (h : table.writeBytes disk ⟨table.id, table.pageCount disk⟩ (Bytes.zeros table.pageSize) =
      .ok disk') : table.pageCount disk' = table.pageCount disk + 1 := by
  obtain ⟨hwhole, rfl⟩ := (writeBytes_next_iff hpos).mp h
  exact pageCount_grownBy hwhole hpos (Nat.le_refl _)

end Table

/-! ## Catalogs -/

namespace Catalog

variable {catalog : Catalog} {disk disk' : Disk} {page other : PageId}

/-- Every registered table was opened, as in a database always (`Workspace.sound_after`). -/
def Sound (catalog : Catalog) : Prop :=
  ∀ entry ∈ catalog.entries, entry.table.WellFormed

theorem sound_empty : Catalog.empty.Sound := by
  intro entry h
  simp [Catalog.empty] at h

theorem Sound.add (h : catalog.Sound) {table : Table} (ht : table.WellFormed) (name : String) :
    (catalog.add table name).Sound := by
  intro entry he
  simp only [Catalog.add, List.mem_append, List.mem_filter, List.mem_singleton] at he
  rcases he with ⟨hold, -⟩ | rfl
  · exact h entry hold
  · exact ht

/-- A table is found under its own identity and was registered. -/
theorem mem_of_table {id : TableId} {table : Table} (h : catalog.table id = .ok table) :
    table.id = id ∧ ∃ entry ∈ catalog.entries, entry.table = table := by
  unfold Catalog.table Catalog.entry at h
  cases hfind : catalog.entries.find? fun entry => entry.table.id = id with
  | none => simp [hfind, Except.map] at h
  | some entry =>
    simp only [hfind, Except.map, Except.ok.injEq] at h
    have hid := List.find?_some hfind
    simp only [decide_eq_true_eq] at hid
    exact ⟨h ▸ hid, entry, List.mem_of_find?_eq_some hfind, h⟩

theorem Sound.table (hs : catalog.Sound) {id : TableId} {table : Table}
    (h : catalog.table id = .ok table) : table.WellFormed := by
  obtain ⟨-, entry, he, rfl⟩ := mem_of_table h
  exact hs entry he

/-- Two identities never share a file. -/
theorem Sound.file_ne (hs : catalog.Sound) {a b : TableId} {ta tb : Table}
    (ha : catalog.table a = .ok ta) (hb : catalog.table b = .ok tb) (hne : a ≠ b) :
    ta.file ≠ tb.file := by
  intro hfile
  apply hne
  rw [← (mem_of_table ha).1, ← (mem_of_table hb).1, (hs.table ha).1, (hs.table hb).1, hfile]

/-- A page as the disk has it. -/
def stored (catalog : Catalog) (disk : Disk) (page : PageId) : Except CacheError Page :=
  match catalog.table page.table with
  | .error e => .error (.catalog e)
  | .ok table => (table.readPage disk page).mapError .storage

theorem stored_of_table {table : Table} (ht : catalog.table page.table = .ok table) :
    catalog.stored disk page =
      (((table.pagedFile disk).read page table.pageSize).map
        (Page.ofBytes page table.schema)).mapError .storage := by
  have hid := (mem_of_table ht).1
  simp only [stored, ht, Table.readPage, hid, ne_eq, not_true_eq_false, if_false]
  cases (table.pagedFile disk).read page table.pageSize <;> rfl

theorem stored_eq_ok_iff {content : Page} :
    catalog.stored disk page = .ok content ↔
      ∃ table, catalog.table page.table = .ok table ∧ ∃ data,
        (table.pagedFile disk).read page table.pageSize = .ok data ∧
          content = Page.ofBytes page table.schema data := by
  cases ht : catalog.table page.table with
  | error e => simp [stored, ht]
  | ok table =>
    rw [stored_of_table ht]
    cases hr : (table.pagedFile disk).read page table.pageSize with
    | error e => simp [Except.map, Except.mapError, hr]
    | ok data => simp [Except.map, Except.mapError, hr, eq_comm]

/-- A stored page is clean and falls back to the bytes it has. -/
theorem eq_ofBytes_of_stored {content : Page} (h : catalog.stored disk page = .ok content) :
    content = Page.ofBytes page content.schema content.data := by
  obtain ⟨table, -, data, -, rfl⟩ := stored_eq_ok_iff.mp h
  rfl

/-- A stored page is a page of a registered table. -/
theorem table_of_stored {content : Page} (h : catalog.stored disk page = .ok content) :
    ∃ table, catalog.table page.table = .ok table ∧ content.schema = table.schema ∧
      content.data.length = table.pageSize := by
  obtain ⟨table, ht, data, hr, rfl⟩ := stored_eq_ok_iff.mp h
  exact ⟨table, ht, rfl, PagedFile.length_of_read hr⟩

/-- A page is stored or not for reasons of the catalog and the disk alone. -/
theorem stored_ne_noEvictablePage (capacity : Nat) :
    catalog.stored disk page ≠ .error (.noEvictablePage capacity) := by
  unfold stored
  cases catalog.table page.table with
  | error e => simp
  | ok table =>
    dsimp only
    cases table.readPage disk page <;> simp [Except.mapError]

/-- A page that is stored is one of the pages its table's file spans. -/
theorem number_lt_pageCount {table : Table} {content : Page} (hs : catalog.Sound)
    (ht : catalog.table page.table = .ok table) (h : catalog.stored disk page = .ok content) :
    page.number < table.pageCount disk := by
  obtain ⟨table', ht', data, hr, -⟩ := stored_eq_ok_iff.mp h
  rw [ht, Except.ok.injEq] at ht'
  subst ht'
  have hpos := (hs.table ht).pageSize_pos
  have hin := (PagedFile.read_eq_ok_iff.mp hr).1
  refine Nat.lt_of_not_le fun hle => ?_
  have hlen := (PagedFile.span_le_iff (show 0 < (table.pagedFile disk).pageSize from hpos) _).mp hle
  simp only [PageId.offset, Table.pagedFile] at hin hlen
  omega

/-- Every page of a file of whole pages is stored. -/
theorem exists_stored_of_lt {table : Table} (ht : catalog.table page.table = .ok table)
    (hwhole : (disk.contents table.file).length = table.pageCount disk * table.pageSize)
    (hlt : page.number < table.pageCount disk) : ∃ content, catalog.stored disk page = .ok content := by
  have hin : page.offset table.pageSize + table.pageSize ≤ (disk.contents table.file).length := by
    have hle := Nat.mul_le_mul_right table.pageSize hlt
    rw [Nat.succ_mul] at hle
    rw [hwhole]
    exact hle
  exact ⟨_, stored_eq_ok_iff.mpr ⟨table, ht, _, PagedFile.read_eq_ok_iff.mpr ⟨hin, rfl⟩, rfl⟩⟩

/-- The page behind the last is not stored before it is appended. -/
theorem stored_behind {table : Table} {content : Page} (hs : catalog.Sound)
    (ht : catalog.table table.id = .ok table) :
    catalog.stored disk ⟨table.id, table.pageCount disk⟩ ≠ .ok content := by
  intro h
  have hlt : table.pageCount disk < table.pageCount disk := number_lt_pageCount hs ht h
  exact Nat.lt_irrefl _ hlt

section Write

variable {table : Table} {data : Bytes} (ht : catalog.table page.table = .ok table)
  (hw : table.writeBytes disk page data = .ok disk')
include ht hw

/-- A page that was written is stored as it was written. -/
theorem stored_writeBytes_self :
    catalog.stored disk' page = .ok (Page.ofBytes page table.schema data) := by
  rw [stored_eq_ok_iff]
  exact ⟨table, ht, data, PagedFile.read_of_write (Table.pagedFile_of_writeBytes hw), rfl⟩

/-- Writing a page leaves every other stored page as it was. -/
theorem stored_writeBytes_of_ne (hs : catalog.Sound) (hne : other ≠ page) {content : Page}
    (h : catalog.stored disk other = .ok content) : catalog.stored disk' other = .ok content := by
  obtain ⟨table', ht', data', hr, rfl⟩ := stored_eq_ok_iff.mp h
  rw [stored_eq_ok_iff]
  refine ⟨table', ht', data', ?_, rfl⟩
  by_cases hid : other.table = page.table
  · rw [hid, ht, Except.ok.injEq] at ht'
    subst ht'
    refine PagedFile.read_of_write_of_ne (Table.pagedFile_of_writeBytes hw) (fun hnum => hne ?_) hr
    cases other
    cases page
    simp_all
  · have hfile := hs.file_ne ht' ht hid
    rw [Table.pagedFile, Table.contents_of_writeBytes_of_ne hw hfile]
    exact hr

/-- Writing over a stored page leaves every other page as it was, stored or not. -/
theorem stored_overwrite_of_ne (hs : catalog.Sound) (hne : other ≠ page) {content : Page}
    (h : catalog.stored disk page = .ok content) :
    catalog.stored disk' other = catalog.stored disk other := by
  by_cases hid : other.table = page.table
  · have ht' : catalog.table other.table = .ok table := hid ▸ ht
    obtain ⟨table', ht'', _, hr, -⟩ := stored_eq_ok_iff.mp h
    rw [ht, Except.ok.injEq] at ht''
    subst ht''
    have hnumber : other.number ≠ page.number := by
      intro hnumber
      apply hne
      cases other
      cases page
      simp_all
    have hread := PagedFile.read_of_overwrite (Table.pagedFile_of_writeBytes hw) hnumber
      (PagedFile.read_eq_ok_iff.mp hr).1 table.pageSize
    rw [stored_of_table ht', stored_of_table ht', hread]
  · unfold stored
    cases ht' : catalog.table other.table with
    | error e => rfl
    | ok table' =>
      have hfile := hs.file_ne ht' ht hid
      simp only [Table.readPage, Table.pagedFile, Table.contents_of_writeBytes_of_ne hw hfile]

/-- Writing over a stored page keeps the length of every file. -/
theorem length_overwrite {content : Page} (h : catalog.stored disk page = .ok content)
    (file : Location) : (disk'.contents file).length = (disk.contents file).length := by
  obtain ⟨table', ht', _, hr, -⟩ := stored_eq_ok_iff.mp h
  rw [ht, Except.ok.injEq] at ht'
  subst ht'
  by_cases hfile : file = table.file
  · subst hfile
    exact PagedFile.length_of_write (Table.pagedFile_of_writeBytes hw)
      (PagedFile.read_eq_ok_iff.mp hr).1
  · rw [Table.contents_of_writeBytes_of_ne hw hfile]

end Write

/-! ### Zeros behind a file -/

section Zeros

variable {table : Table} {content : Page} {count : Nat} (hs : catalog.Sound)
  (ht : catalog.table table.id = .ok table)
include hs ht

/-- Zeros behind the bytes of a file leave every stored page as it was. -/
theorem stored_grownBy (count : Nat) (h : catalog.stored disk page = .ok content) :
    catalog.stored (table.grownBy count disk) page = .ok content := by
  obtain ⟨table', ht', data, hread, rfl⟩ := stored_eq_ok_iff.mp h
  refine stored_eq_ok_iff.mpr ⟨table', ht', data, ?_, rfl⟩
  by_cases hid : page.table = table.id
  · rw [hid, ht, Except.ok.injEq] at ht'
    subst ht'
    rw [Table.pagedFile, Table.grownBy, Disk.contents_write_self]
    exact PagedFile.read_append hread _
  · have hfile := hs.file_ne ht' ht hid
    rw [Table.pagedFile, Table.grownBy, Disk.contents_write, if_neg hfile]
    exact hread

variable (hwhole : (disk.contents table.file).length = table.pageCount disk * table.pageSize)
  (hle : count ≤ table.pageSize)
include hwhole hle

/-- Zeros behind a file of whole pages, up to a page of them, change no page but the one behind the
last. -/
theorem stored_grownBy_iff (hne : page ≠ ⟨table.id, table.pageCount disk⟩) :
    catalog.stored (table.grownBy count disk) page = .ok content ↔
      catalog.stored disk page = .ok content := by
  refine ⟨fun hnew => ?_, stored_grownBy hs ht count⟩
  by_cases hid : page.table = table.id
  · have ht' : catalog.table page.table = .ok table := hid ▸ ht
    obtain ⟨found, hfound, data, hread, -⟩ := stored_eq_ok_iff.mp hnew
    rw [ht', Except.ok.injEq] at hfound
    subst hfound
    have hin : page.number * table.pageSize + table.pageSize ≤
        table.pageCount disk * table.pageSize + count := by
      have hread := (PagedFile.read_eq_ok_iff.mp hread).1
      rwa [Table.pagedFile, Table.grownBy, Disk.contents_write_self, List.length_append,
        Bytes.length_zeros, hwhole] at hread
    have hnumber : page.number ≠ table.pageCount disk := by
      intro heq
      exact hne (by cases page; simp_all)
    have hlt : page.number < table.pageCount disk := by
      refine Nat.lt_of_le_of_ne (Nat.le_of_mul_le_mul_right (c := table.pageSize) ?_ ?_) hnumber
      · omega
      · exact (hs.table ht).pageSize_pos
    obtain ⟨old, hold⟩ := exists_stored_of_lt ht' hwhole hlt
    rwa [stored_grownBy hs ht count hold, ← hold] at hnew
  · obtain ⟨found, hfound, data, hread, rfl⟩ := stored_eq_ok_iff.mp hnew
    have hfile := hs.file_ne hfound ht hid
    refine stored_eq_ok_iff.mpr ⟨found, hfound, data, ?_, rfl⟩
    rwa [Table.pagedFile, Table.grownBy, Disk.contents_write, if_neg hfile] at hread

/-- The page behind the last is stored once a whole page of zeros is there. -/
theorem stored_grownBy_behind_iff :
    catalog.stored (table.grownBy count disk) ⟨table.id, table.pageCount disk⟩ = .ok content ↔
      count = table.pageSize ∧ content = .ofBytes ⟨table.id, table.pageCount disk⟩ table.schema
        (Bytes.zeros table.pageSize) := by
  have hpos := (hs.table ht).pageSize_pos
  by_cases hcount : count = table.pageSize
  · subst hcount
    have hw : table.writeBytes disk ⟨table.id, table.pageCount disk⟩
        (Bytes.zeros table.pageSize) = .ok (table.grownBy table.pageSize disk) :=
      (Table.writeBytes_next_iff hpos).mpr ⟨hwhole, rfl⟩
    rw [stored_writeBytes_self ht hw]
    simp [eq_comm]
  · refine iff_of_false (fun hnew => ?_) fun h => hcount h.1
    obtain ⟨found, hfound, data, hread, -⟩ := stored_eq_ok_iff.mp hnew
    rw [show catalog.table table.id = _ from ht, Except.ok.injEq] at hfound
    subst hfound
    have hin := (PagedFile.read_eq_ok_iff.mp hread).1
    rw [Table.pagedFile, Table.grownBy, Disk.contents_write_self, List.length_append,
      Bytes.length_zeros, hwhole] at hin
    simp only [PageId.offset] at hin
    omega

end Zeros

/-! ### Registering -/

variable {table found : Table} {name : String} {id : TableId}

/-- When no identity is listed twice, every table that is listed is found. -/
theorem table_of_mem (hd : catalog.ids.Nodup) {entry : CatalogEntry}
    (h : entry ∈ catalog.entries) : catalog.table entry.table.id = .ok entry.table := by
  have hids : (catalog.entries.map fun entry => entry.table.id).Nodup := hd
  have hfind := (Lookup.find?_eq_some_iff_mem hids).mpr ⟨h, rfl⟩
  rw [Catalog.table, Catalog.entry, hfind]
  rfl

/-- What no two entries share, no two share after registering a table, if it is one of the things
that displace an entry. -/
theorem nodup_map_add {γ : Type} {read : CatalogEntry → γ}
    (hd : (catalog.entries.map read).Nodup) (table : Table) (name : String)
    (hnew : ∀ entry : CatalogEntry, entry.name ≠ name ∧ entry.table.id ≠ table.id →
      read entry ≠ read ⟨table, name⟩) : ((catalog.add table name).entries.map read).Nodup := by
  simp only [add, List.map_append, List.map_cons, List.map_nil]
  rw [List.nodup_append]
  refine ⟨hd.sublist (List.filter_sublist.map _), List.nodup_singleton _, ?_⟩
  intro a ha b hb hab
  obtain ⟨entry, hentry, rfl⟩ := List.mem_map.mp ha
  have hkept := (List.mem_filter.mp hentry).2
  simp only [decide_eq_true_eq] at hkept
  exact hnew entry hkept (hab.trans (List.mem_singleton.mp hb))

theorem nodup_add (hd : catalog.ids.Nodup) (table : Table) (name : String) :
    (catalog.add table name).ids.Nodup :=
  nodup_map_add hd table name fun _ hkept => hkept.2

theorem table_add_self (hd : catalog.ids.Nodup) (table : Table) (name : String) :
    (catalog.add table name).table table.id = .ok table := by
  have hmem : ⟨table, name⟩ ∈ (catalog.add table name).entries := by simp [add]
  exact table_of_mem (nodup_add hd table name) hmem

/-- After registering a table, every table that is found is that table or was found before. -/
theorem table_of_add (hd : catalog.ids.Nodup)
    (h : (catalog.add table name).table id = .ok found) :
    id = table.id ∧ found = table ∨ catalog.table id = .ok found := by
  obtain ⟨rfl, entry, hentry, rfl⟩ := mem_of_table h
  simp only [add, List.mem_append, List.mem_filter, List.mem_singleton] at hentry
  rcases hentry with ⟨hold, -⟩ | rfl
  · exact Or.inr (table_of_mem hd hold)
  · exact Or.inl ⟨rfl, rfl⟩

end Catalog

end RowStore
