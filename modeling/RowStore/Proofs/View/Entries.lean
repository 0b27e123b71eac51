import RowStore.Proofs.Page.Entries
import RowStore.Proofs.View.Effects
import Mathlib.Data.List.Sort

/-!
# RowStore.Proofs.View.Entries: a view as a map from records to rows

`View.entries` has the row of every record.  An insert and a delete update it at one record
(`View.Inserts.entries`, `View.Deletes.entries`); appending empty pages and writing pages out leave
it.  Scanning a table lists it: `Entries.Lists` says that rows are the entries at certain records,
each once and in ascending order, and at most one sequence of rows is (`Entries.Lists.unique`).
-/

namespace RowStore

namespace RecordId

theorem compare_eq_lt_iff (a b : RecordId) :
    compare a b = .lt ↔
      a.page.table.value.toNat < b.page.table.value.toNat ∨
        a.page.table.value.toNat = b.page.table.value.toNat ∧
          (a.page.number < b.page.number ∨ a.page.number = b.page.number ∧ a.slot < b.slot) := by
  have hdef : compare a b = ((compare a.page.table.value.toNat b.page.table.value.toNat).then
      (compare a.page.number b.page.number)).then (compare a.slot b.slot) := rfl
  rw [hdef]
  simp only [Ordering.then_eq_lt, Ordering.then_eq_eq, Nat.compare_eq_lt, Nat.compare_eq_eq]
  omega

/-- The order of records. -/
def Precedes (a b : RecordId) : Prop :=
  compare a b = .lt

instance : Std.Irrefl Precedes where
  irrefl a h := by
    unfold Precedes at h
    rw [compare_eq_lt_iff] at h
    omega

instance : Std.Antisymm Precedes where
  antisymm a b h h' := by
    unfold Precedes at h h'
    rw [compare_eq_lt_iff] at h h'
    omega

end RecordId

/-! ## Maps from records to rows -/

/-- The rows stored at records. -/
abbrev Entries := RecordId → Option Row

namespace Entries

variable {entries : Entries} {among others : RecordId → Prop} {rows more : List Row}

/-- `rows` are the entries at the records of a kind, each once and in ascending order of records,
and every row knows its record. -/
def Lists (entries : Entries) (among : RecordId → Prop) (rows : List Row) : Prop :=
  ∃ records : List RecordId, records.Pairwise RecordId.Precedes ∧
    (∀ record, record ∈ records ↔ among record ∧ (entries record).isSome = true) ∧
    List.Forall₂ (fun record row => entries record = some row ∧ row.record = some record)
      records rows

theorem lists_nil (h : ∀ record, among record → entries record = none) :
    entries.Lists among [] := by
  refine ⟨[], .nil, fun record => ?_, .nil⟩
  constructor
  · intro hin
    cases hin
  · rintro ⟨hamong, hsome⟩
    rw [h record hamong] at hsome
    cases hsome

/-- Records may be left out, or added, that have no row. -/
theorem Lists.congr (h : entries.Lists among rows)
    (hiff : ∀ record, (entries record).isSome = true → (among record ↔ others record)) :
    entries.Lists others rows := by
  obtain ⟨records, hsorted, hmem, hrows⟩ := h
  refine ⟨records, hsorted, fun record => ?_, hrows⟩
  rw [hmem]
  exact and_congr_left (hiff record)

theorem Lists.append (h : entries.Lists among rows) (h' : entries.Lists others more)
    (hlt : ∀ a b, among a → others b → a.Precedes b) :
    entries.Lists (fun record => among record ∨ others record) (rows ++ more) := by
  obtain ⟨records, hsorted, hmem, hrows⟩ := h
  obtain ⟨records', hsorted', hmem', hmore⟩ := h'
  refine ⟨records ++ records', ?_, fun record => ?_, List.rel_append hrows hmore⟩
  · refine List.pairwise_append.mpr ⟨hsorted, hsorted', fun a ha b hb => ?_⟩
    exact hlt a b ((hmem a).mp ha).1 ((hmem' b).mp hb).1
  · rw [List.mem_append, hmem, hmem', or_and_right]

/-- Every member of the second of two related lists has a partner in the first. -/
theorem exists_of_mem_right {α β : Type} {R : α → β → Prop} {as : List α} {bs : List β}
    (h : List.Forall₂ R as bs) {b : β} (hb : b ∈ bs) : ∃ a ∈ as, R a b := by
  induction h with
  | nil => cases hb
  | cons hab _ ih =>
    rcases List.mem_cons.mp hb with rfl | hb
    · exact ⟨_, List.mem_cons_self, hab⟩
    · obtain ⟨a, ha, hab'⟩ := ih hb
      exact ⟨a, List.mem_cons_of_mem _ ha, hab'⟩

/-- A row that is listed is the entry at its record. -/
theorem Lists.of_mem (h : entries.Lists among rows) {row : Row} (hrow : row ∈ rows) :
    ∃ record, among record ∧ entries record = some row ∧ row.record = some record := by
  obtain ⟨records, -, hmem, hrows⟩ := h
  obtain ⟨record, hin, hentry, hrecord⟩ := exists_of_mem_right hrows hrow
  exact ⟨record, ((hmem record).mp hin).1, hentry, hrecord⟩

/-- Every entry of the kind is listed. -/
theorem Lists.mem (h : entries.Lists among rows) {record : RecordId} {row : Row}
    (hamong : among record) (hentry : entries record = some row) : row ∈ rows := by
  obtain ⟨records, -, hmem, hrows⟩ := h
  have hin : record ∈ records := (hmem record).mpr ⟨hamong, by rw [hentry]; rfl⟩
  obtain ⟨found, hfound, hsame, -⟩ := exists_of_mem_right hrows.flip hin
  rw [hentry, Option.some.injEq] at hsame
  exact hsame ▸ hfound

/-- There is one way to list the entries of a kind. -/
theorem Lists.unique (h : entries.Lists among rows) (h' : entries.Lists among more) :
    rows = more := by
  obtain ⟨records, hsorted, hmem, hrows⟩ := h
  obtain ⟨records', hsorted', hmem', hmore⟩ := h'
  have hsame : records = records' :=
    hsorted.eq_of_mem_iff hsorted' fun record => (hmem record).trans (hmem' record).symm
  subst hsame
  refine List.right_unique_forall₂' ?_ hrows hmore
  intro record row other hrow hother
  exact Option.some.inj (hrow.1.symm.trans hother.1)

/-- The rows at records that have one. -/
theorem filterMap_eq {records : List RecordId}
    (h : List.Forall₂ (fun record row => entries record = some row) records rows) :
    records.filterMap entries = rows := by
  induction h with
  | nil => rfl
  | cons hrow _ ih => rw [List.filterMap_cons_some hrow, ih]

theorem filterMap_eq_zipWith {records : List RecordId} {stored : RecordId → Row → Row}
    (h : List.Forall₂ (fun record row => entries record = some (stored record row)) records rows) :
    records.filterMap entries = List.zipWith stored records rows := by
  induction h with
  | nil => rfl
  | cons hrow _ ih => rw [List.filterMap_cons_some hrow, ih, List.zipWith_cons_cons]

/-- Records that are added to those that have a row add their rows to the list. -/
theorem Lists.perm {entries' : Entries} {records : List RecordId} (h : entries.Lists among rows)
    (h' : entries'.Lists among more) (hdistinct : records.Nodup)
    (hfree : ∀ record ∈ records, among record ∧ entries record = none)
    (hadded : ∀ record ∈ records, (entries' record).isSome = true)
    (hothers : ∀ record, record ∉ records → entries' record = entries record) :
    more.Perm (rows ++ records.filterMap entries') := by
  obtain ⟨old, hold, hmemOld, hrows⟩ := h
  obtain ⟨new, hnew, hmemNew, hmore⟩ := h'
  have hnodup : ∀ {list : List RecordId}, list.Pairwise RecordId.Precedes → list.Nodup :=
    fun hsorted => hsorted.imp fun {a b} hlt => ne_of_irrefl hlt
  have hdisjoint : ∀ record ∈ old, record ∉ records := by
    intro record hin hmem
    have hsome := ((hmemOld record).mp hin).2
    rw [(hfree record hmem).2] at hsome
    cases hsome
  have hperm : new.Perm (old ++ records) := by
    refine (List.perm_ext_iff_of_nodup (hnodup hnew)
      (List.Nodup.append (hnodup hold) hdistinct hdisjoint)).mpr fun record => ?_
    rw [List.mem_append, hmemNew, hmemOld]
    by_cases hmem : record ∈ records
    · simp only [hmem, (hfree record hmem).1, hadded record hmem, or_true, and_true]
    · rw [hothers record hmem]
      simp [hmem]
  have hsame : old.filterMap entries' = old.filterMap entries :=
    List.filterMap_congr fun record hin => hothers record (hdisjoint record hin)
  rw [← filterMap_eq (hmore.imp fun _ _ h => h.1), ← filterMap_eq (hrows.imp fun _ _ h => h.1),
    ← hsame, ← List.filterMap_append]
  exact hperm.filterMap entries'

end Entries

/-! ## The entries of a view -/

namespace View

variable {v v' : View} {page : PageId} {content : Page} {tid : TransactionId} {row : Row}
  {record : RecordId} {rows : List Row}

/-- The row at each record: the one in its slot of the page that is shown. -/
def entries (v : View) : Entries := fun record =>
  match v.page record.page with
  | .ok content => content.read? record.slot
  | .error _ => none

theorem entries_of_page (h : v.page record.page = .ok content) :
    v.entries record = content.read? record.slot := by
  rw [entries, h]

theorem entries_of_error {e : CacheError} (h : v.page record.page = .error e) :
    v.entries record = none := by
  rw [entries, h]

/-- A record with a row is on a page that is shown. -/
theorem exists_page_of_isSome (h : (v.entries record).isSome = true) :
    ∃ content, v.page record.page = .ok content := by
  cases hpage : v.page record.page with
  | ok content => exact ⟨content, rfl⟩
  | error e =>
    rw [entries_of_error hpage] at h
    cases h

theorem page_put (v : View) (content : Page) (page : PageId) :
    (v.put content).page page = if page = content.id then .ok content else v.page page := by
  unfold View.page put
  dsimp only
  split_ifs <;> rfl

/-- `v'` shows pages that are the same as those of `v` once they are written, in files of the same
lengths. -/
structure ReadsAs (v v' : View) : Prop where
  shown : ∀ page, (v'.page page).map Page.written = (v.page page).map Page.written
  length : ∀ file, (v'.disk.contents file).length = (v.disk.contents file).length

theorem ReadsAs.refl (v : View) : v.ReadsAs v :=
  ⟨fun _ => rfl, fun _ => rfl⟩

theorem ReadsAs.trans {u : View} (h : v.ReadsAs u) (h' : u.ReadsAs v') : v.ReadsAs v' :=
  ⟨fun page => (h'.shown page).trans (h.shown page),
    fun file => (h'.length file).trans (h.length file)⟩

theorem ReadsAs.entries (h : v.ReadsAs v') : v'.entries = v.entries := by
  funext record
  rcases Page.written_eq_or_error (h.shown record.page) with
    ⟨e, hnew, hold⟩ | ⟨new, old, hnew, hold, hwritten⟩
  · rw [entries_of_error hnew, entries_of_error hold]
  · rw [entries_of_page hnew, entries_of_page hold, ← Page.read?_written new, hwritten,
      Page.read?_written]

/-- Every page that is shown can be read. -/
def Readable (v : View) : Prop :=
  ∀ page content, v.page page = .ok content → content.Readable

theorem ReadsAs.readable (h : v.ReadsAs v') (hr : v.Readable) : v'.Readable := by
  intro page content hpage
  rcases Page.written_eq_or_error (h.shown page) with
    ⟨e, hnew, -⟩ | ⟨new, old, hnew, hold, hwritten⟩
  · rw [hpage] at hnew
    cases hnew
  · rw [hpage, Except.ok.injEq] at hnew
    subst hnew
    rw [← Page.readable_written_iff, hwritten, Page.readable_written_iff]
    exact hr page old hold

/-- What a cursor has still to hand out depends on what the pages hold. -/
theorem ReadsAs.rest (h : v.ReadsAs v') (cursor : Cursor) : v'.rest cursor = v.rest cursor := by
  have hcount : cursor.table.pageCount v'.disk = cursor.table.pageCount v.disk := by
    simp only [Table.pageCount, Table.pagedFile, PagedFile.span, h.length]
  rw [View.rest, View.rest, hcount, rowsFrom_congr _ _ fun number _ _ => h.shown _]

/-! ### Growing -/

/-- A page that is shown once a table has grown was shown before, or is empty and was not. -/
theorem Grows.page_cases (h : v.Grows v') (hs : v.catalog.Sound) (page : PageId) :
    v'.page page = v.page page ∨
      (∃ e, v.page page = .error e) ∧
        ∀ content, v'.page page = .ok content → ∃ count, content.data = Bytes.zeros count := by
  unfold View.page
  rw [h.changed]
  cases v.changed page with
  | some changed => exact Or.inl rfl
  | none =>
    dsimp only
    cases hold : v.catalog.stored v.disk page with
    | ok content => exact Or.inl (h.stored_of_stored hs hold)
    | error e =>
      refine Or.inr ⟨⟨e, rfl⟩, fun content hnew => ?_⟩
      rcases h.stored_cases hs hnew with hsame | ⟨-, hzeros⟩
      · rw [hold] at hsame
        cases hsame
      · exact hzeros

theorem Grows.entries (h : v.Grows v') (hs : v.catalog.Sound) : v'.entries = v.entries := by
  funext record
  rcases h.page_cases hs record.page with hsame | ⟨⟨e, hold⟩, hzeros⟩
  · rw [View.entries, View.entries, hsame]
  · rw [entries_of_error hold]
    cases hnew : v'.page record.page with
    | error e' => exact entries_of_error hnew
    | ok content =>
      obtain ⟨count, hdata⟩ := hzeros content hnew
      rw [entries_of_page hnew, Page.read?_of_zeros hdata]

theorem Grows.readable (h : v.Grows v') (hs : v.catalog.Sound) (hr : v.Readable) :
    v'.Readable := by
  intro page content hpage
  rcases h.page_cases hs page with hsame | ⟨-, hzeros⟩
  · exact hr page content (hsame ▸ hpage)
  · obtain ⟨count, hdata⟩ := hzeros content hpage
    exact Page.readable_of_zeros hdata

/-! ### Inserting and deleting -/

/-- Changing what one slot of a page has changes one entry. -/
theorem entries_put {changed : Page} {found : Option Row} (hpage : v.page record.page = .ok content)
    (hid : changed.id = record.page)
    (hentry : changed.read? = Function.update content.read? record.slot found) :
    (v.put changed).entries = Function.update v.entries record found := by
  funext other
  -- on the page that changed the map differs at one slot; other pages show what they showed
  by_cases hsame : other.page = record.page
  · have hnew : (v.put changed).page other.page = .ok changed := by
      rw [page_put, if_pos (hsame.trans hid.symm)]
    rw [entries_of_page hnew, hentry]
    by_cases hslot : other.slot = record.slot
    · have heq : other = record := by
        cases other
        cases record
        simp_all
      rw [heq, Function.update_self, Function.update_self]
    · have hne : other ≠ record := fun heq => hslot (heq ▸ rfl)
      rw [Function.update_of_ne hslot, Function.update_of_ne hne,
        entries_of_page (hsame.symm ▸ hpage)]
  · have hne : other ≠ record := fun heq => hsame (heq ▸ rfl)
    have hother : other.page ≠ changed.id := fun heq => hsame (heq.trans hid)
    rw [Function.update_of_ne hne, View.entries, View.entries, page_put, if_neg hother]

theorem Readable.put {changed : Page} (h : v.Readable) (hchanged : changed.Readable) :
    (v.put changed).Readable := by
  intro page content hpage
  rw [page_put] at hpage
  split_ifs at hpage
  · rwa [← Except.ok.inj hpage]
  · exact h page content hpage

section Insert

variable {schema : Schema} (h : v.Inserts v' tid row record)
include h

/-- An insert tells a record that has no row. -/
theorem Inserts.free : v.entries record = none := by
  obtain ⟨content, changed, hpage, hinsert, -⟩ := h
  rw [entries_of_page hpage, Page.read?_of_not_isUsed (Page.isUsed_of_insert hinsert)]

variable (hschema : ∀ content, v.page record.page = .ok content → content.schema = schema)
include hschema

/-- A well-typed row is stored as the columns of the table keep it. -/
theorem Inserts.storesAs (hrow : row.WellTyped) (htypes : ∀ type ∈ schema.types, type.Addressable) :
    row.StoresAs schema (List.zipWith ColumnType.keep schema.types row.values) := by
  obtain ⟨content, changed, hpage, hinsert, -⟩ := h
  obtain rfl := hschema content hpage
  exact Page.storesAs_of_insert hinsert hrow htypes

variable {kept : List Value} (hrow : row.StoresAs schema kept)
include hrow

/-- An insert adds the row, as it reads back, at the record it tells. -/
theorem Inserts.entries (hk : v.Keyed) :
    v'.entries = Function.update v.entries record (some ⟨schema, kept, some record⟩) := by
  obtain ⟨content, changed, hpage, hinsert, rfl⟩ := h
  obtain rfl := hschema content hpage
  refine entries_put hpage ?_ ?_
  · exact (Page.rewrites_of_insert hinsert).id.trans (hk.id_of_page hpage)
  · rw [Page.read?_mark]
    exact Page.read?_insert hinsert hrow

theorem Inserts.readable (hr : v.Readable) : v'.Readable := by
  obtain ⟨content, changed, hpage, hinsert, rfl⟩ := h
  obtain rfl := hschema content hpage
  exact hr.put (Page.readable_mark_iff.mpr
    ((hr record.page content hpage).insert hinsert hrow))

end Insert

section Delete

variable (h : v.Deletes v' tid row record)
include h

/-- A delete takes out a row that there is. -/
theorem Deletes.isSome (hr : v.Readable) : (v.entries record).isSome = true := by
  obtain ⟨hrecord, content, changed, hpage, hdelete, -⟩ := h
  rw [entries_of_page hpage, (hr record.page content hpage).isSome_read?]
  exact (Page.isUsed_of_delete hdelete hrecord).2

/-- A delete removes the entry at the record of its row. -/
theorem Deletes.entries (hk : v.Keyed) : v'.entries = Function.update v.entries record none := by
  obtain ⟨hrecord, content, changed, hpage, hdelete, rfl⟩ := h
  refine entries_put hpage ?_ ?_
  · exact (Page.rewrites_of_delete hdelete).id.trans (hk.id_of_page hpage)
  · rw [Page.read?_mark]
    exact Page.read?_delete hdelete hrecord

theorem Deletes.readable (hr : v.Readable) : v'.Readable := by
  obtain ⟨hrecord, content, changed, hpage, hdelete, rfl⟩ := h
  exact hr.put (Page.readable_mark_iff.mpr
    ((hr record.page content hpage).delete hdelete hrecord))

end Delete

/-! ### Scanning -/

/-- Reading a page lists the entries on it. -/
theorem lists_page (hk : v.Keyed) (hpage : v.page page = .ok content)
    (hrows : content.rows = .ok rows) :
    v.entries.Lists (fun record => record.page = page) rows := by
  have hid := hk.id_of_page hpage
  have hentry : ∀ slot, v.entries ⟨page, slot⟩ = content.read? slot := fun slot =>
    entries_of_page hpage
  refine ⟨content.usedSlots.map (RecordId.mk page), ?_, fun record => ?_, ?_⟩
  · refine List.pairwise_map.mpr (content.pairwise_usedSlots.imp fun {a b} hlt => ?_)
    exact (RecordId.compare_eq_lt_iff ⟨page, a⟩ ⟨page, b⟩).mpr (by dsimp only; omega)
  · obtain ⟨on, slot⟩ := record
    rw [List.mem_map]
    constructor
    · rintro ⟨used, hused, heq⟩
      obtain ⟨rfl, rfl⟩ := RecordId.mk.inj heq
      rw [hentry, (Page.readable_of_rows hrows).isSome_read?]
      exact ⟨rfl, Page.mem_usedSlots.mp hused⟩
    · rintro ⟨rfl, hsome⟩
      rw [hentry, (Page.readable_of_rows hrows).isSome_read?] at hsome
      exact ⟨slot, Page.mem_usedSlots.mpr hsome, rfl⟩
  · rw [List.forall₂_map_left_iff]
    refine (Page.forall₂_of_rows hrows).imp fun slot row hrow => ⟨?_, ?_⟩
    · rw [hentry, hrow]
    · rw [Page.record_of_read? hrow, hid]

/-- Reading pages of a table one after the other lists the entries on them. -/
theorem lists_rowsFrom {table : TableId} {next count : Nat} (hk : v.Keyed)
    (h : v.rowsFrom table next count = .ok rows) :
    v.entries.Lists (fun record => record.page.table = table ∧ next ≤ record.page.number ∧
      record.page.number < next + count) rows := by
  induction count generalizing next rows with
  | zero =>
    cases h
    exact Entries.lists_nil fun record hamong => by omega
  | succ count ih =>
    obtain ⟨content, first, rest, hpage, hrows, hrest, rfl⟩ := rowsFrom_succ_eq_ok_iff.mp h
    -- the entries of the first page come before those of the pages behind it
    refine ((lists_page hk hpage hrows).append (ih hrest) ?_).congr ?_
    · rintro a b ha ⟨htable, hle, -⟩
      refine (RecordId.compare_eq_lt_iff a b).mpr ?_
      rw [ha, htable]
      dsimp only
      omega
    · intro record _
      constructor
      · rintro (hfirst | ⟨htable, hle, hlt⟩)
        · rw [hfirst]
          exact ⟨rfl, Nat.le_refl _, by dsimp only; omega⟩
        · exact ⟨htable, by omega, by omega⟩
      · rintro ⟨htable, hle, hlt⟩
        rcases Nat.eq_or_lt_of_le hle with heq | hbehind
        · left
          rw [heq, ← htable]
        · exact Or.inr ⟨htable, hbehind, by omega⟩

/-- Scanning a table lists its entries. -/
theorem lists_scan {table : Table} (hk : v.Keyed) (h : v.scan table = .ok rows)
    (hin : ∀ page content, v.page page = .ok content → page.table = table.id →
      page.number < table.pageCount v.disk) :
    v.entries.Lists (fun record => record.page.table = table.id) rows := by
  refine (lists_rowsFrom hk h).congr fun record hsome => ?_
  obtain ⟨content, hpage⟩ := exists_page_of_isSome hsome
  constructor
  · exact fun hamong => hamong.1
  · intro htable
    have hlt := hin record.page content hpage htable
    exact ⟨htable, Nat.zero_le _, by omega⟩

end View

end RowStore
