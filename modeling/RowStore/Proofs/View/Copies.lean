import RowStore.Proofs.View.FirstFit

/-!
# RowStore.Proofs.View.Copies: rows that were inserted again

`View.Copies` relates a view to what becomes of it when rows of a table are inserted into that table
once more, each at a record that was free.  On the pages that took them there are then as many rows
more as there are copies, which tells whether one of these pages has a slot left
(`Copies.exists_free`).
-/

namespace RowStore.View

variable {v w w' : View} {table : TableId} {count : Nat} {records : List RecordId}
  {record : RecordId} {rows : List Row} {row : Row}

/-! ## Tables that can be read -/

/-- Every page of a table that is shown can be read. -/
def ReadableIn (v : View) (table : TableId) : Prop :=
  ∀ number content, v.page ⟨table, number⟩ = .ok content → content.Readable

theorem rowsFrom_isOk {next : Nat} (hreadable : v.ReadableIn table)
    (hshown : ∀ number, next ≤ number → number < next + count →
      ∃ content, v.page ⟨table, number⟩ = .ok content) :
    ∃ rows, v.rowsFrom table next count = .ok rows := by
  induction count generalizing next with
  | zero => exact ⟨[], rfl⟩
  | succ count ih =>
    obtain ⟨content, hpage⟩ := hshown next (Nat.le_refl _) (by omega)
    obtain ⟨first, hfirst⟩ := (hreadable next content hpage).rows_isOk
    obtain ⟨rest, hrest⟩ := @ih (next + 1) fun number hle hlt => hshown number (by omega) (by omega)
    exact ⟨first ++ rest,
      rowsFrom_succ_eq_ok_iff.mpr ⟨content, first, rest, hpage, hfirst, hrest, rfl⟩⟩

/-- Pages that were passed in a scan can be read. -/
theorem readable_of_rowsFrom {next number : Nat} {content : Page}
    (h : v.rowsFrom table next count = .ok rows) (hle : next ≤ number) (hlt : number < next + count)
    (hpage : v.page ⟨table, number⟩ = .ok content) : content.Readable := by
  obtain ⟨shown, found, hshown, hfound⟩ := exists_page_of_rowsFrom h hle hlt
  rw [hpage, Except.ok.injEq] at hshown
  exact Page.readable_of_rows (hshown ▸ hfound)

theorem Inserts.readableIn {tid : TransactionId} {schema : Schema} {kept : List Value}
    (h : w.Inserts w' tid row record)
    (hschema : ∀ content, w.page record.page = .ok content → content.schema = schema)
    (hstores : row.StoresAs schema kept) (htable : record.page.table = table)
    (hreadable : w.ReadableIn table) : w'.ReadableIn table := by
  obtain ⟨content, changed, hpage, hinsert, rfl⟩ := h
  obtain rfl := hschema content hpage
  intro number found hfound
  rw [page_put] at hfound
  split_ifs at hfound
  · rw [← Except.ok.inj hfound, Page.readable_mark_iff]
    refine Page.Readable.insert hinsert hstores (hreadable record.page.number content ?_)
    rwa [← htable]
  · exact hreadable number found hfound

/-! ## Copies -/

/-- `w` is `v` with rows put at these records as well, which were free, on the first `count` pages
of a table. -/
structure Copies (v w : View) (table : TableId) (count : Nat) (records : List RecordId)
    (rows : List Row) : Prop where
  disk : w.disk = v.disk
  catalog : w.catalog = v.catalog
  elsewhere : ∀ page, ¬ (page.table = table ∧ page.number < count) →
    w.changed page = v.changed page
  /-- No two rows were put at one record. -/
  distinct : records.Nodup
  unused : ∀ record ∈ records,
    record.page.table = table ∧ record.page.number < count ∧ v.entries record = none
  copied : List.Forall₂ (fun record row => w.entries record = some (row.withRecord (some record)))
    records rows
  /-- All other records have the row they had, or none. -/
  others : ∀ record, record ∉ records → w.entries record = v.entries record

theorem Copies.refl (v : View) (table : TableId) (count : Nat) : v.Copies v table count [] [] :=
  ⟨rfl, rfl, fun _ _ => rfl, .nil, (fun _ hmem => by cases hmem), .nil, fun _ _ => rfl⟩

namespace Copies

theorem mono {more : Nat} (h : v.Copies w table count records rows) (hle : count ≤ more) :
    v.Copies w table more records rows := by
  refine ⟨h.disk, h.catalog, fun page hpage => h.elsewhere page ?_, h.distinct,
    fun record hmem => ?_, h.copied, h.others⟩
  · exact fun hin => hpage ⟨hin.1, by omega⟩
  · obtain ⟨htable, hlt, hfree⟩ := h.unused record hmem
    exact ⟨htable, by omega, hfree⟩

/-- Pages that took no copy are shown as they were. -/
theorem page (h : v.Copies w table count records rows) {page : PageId}
    (hpage : ¬ (page.table = table ∧ page.number < count)) : w.page page = v.page page := by
  rw [View.page, View.page, h.elsewhere page hpage, h.catalog, h.disk]

theorem isSome_of_mem (h : v.Copies w table count records rows) (hmem : record ∈ records) :
    (w.entries record).isSome = true := by
  obtain ⟨row, -, hentry⟩ := Entries.exists_of_mem_right h.copied.flip hmem
  rw [hentry]
  rfl

/-- One more row that reads back as it is. -/
theorem insert {tid : TransactionId} {found : Row} (h : v.Copies w table count records rows)
    (hk : w.Keyed) (hinserts : w.Inserts w' tid found record)
    (hpage : record.page.table = table ∧ record.page.number < count)
    (hschema : ∀ content, w.page record.page = .ok content → content.schema = row.schema)
    (hstores : found.StoresAs row.schema row.values) :
    v.Copies w' table count (records ++ [record]) (rows ++ [row]) := by
  have hentries := hinserts.entries hschema hstores hk
  have hfree := hinserts.free
  have hnew : record ∉ records := by
    intro hmem
    have hsome := h.isSome_of_mem hmem
    rw [hfree] at hsome
    cases hsome
  obtain ⟨content, changed, hcontent, hinsert, rfl⟩ := hinserts
  have hid : changed.id = record.page :=
    (Page.rewrites_of_insert hinsert).id.trans (hk.id_of_page hcontent)
  refine ⟨h.disk, h.catalog, fun page hout => ?_, ?_, fun other hmem => ?_, ?_,
    fun other hmem => ?_⟩
  · have hne : page ≠ (changed.mark (some tid)).id := by
      rintro rfl
      exact hout (hid ▸ hpage)
    rw [put]
    dsimp only
    rw [if_neg hne]
    exact h.elsewhere page hout
  · exact List.Nodup.append h.distinct (List.nodup_singleton record) (by simpa using hnew)
  · rcases List.mem_append.mp hmem with hold | hlast
    · exact h.unused other hold
    · rw [List.mem_singleton.mp hlast]
      exact ⟨hpage.1, hpage.2, (h.others record hnew).symm.trans hfree⟩
  · refine List.rel_append ?_ (.cons ?_ .nil)
    · refine ((List.forall₂_and_left records rows).mpr ⟨fun _ hmem => hmem, h.copied⟩).imp ?_
      rintro other copy ⟨hmem, hcopy⟩
      have hne : other ≠ record := fun heq => hnew (heq ▸ hmem)
      rw [hentries, Function.update_of_ne hne, hcopy]
    · rw [hentries, Function.update_self]
      rfl
  · rw [List.mem_append, List.mem_singleton, not_or] at hmem
    rw [hentries, Function.update_of_ne hmem.2]
    exact h.others other hmem.1

/-- The pages that took the copies have one row more for each. -/
theorem length_rowsFrom (h : v.Copies w table count records rows) (hv : v.Keyed) (hw : w.Keyed)
    {first second : List Row} (hfirst : v.rowsFrom table 0 count = .ok first)
    (hsecond : w.rowsFrom table 0 count = .ok second) :
    second.length = first.length + records.length := by
  have hperm := (lists_rowsFrom hv hfirst).perm (lists_rowsFrom hw hsecond) h.distinct
    (fun record hmem => ?_) (fun record hmem => h.isSome_of_mem hmem) h.others
  · have hcount := h.copied.length_eq
    rw [hperm.length_eq, List.length_append, Entries.filterMap_eq_zipWith h.copied,
      List.length_zipWith, ← hcount, Nat.min_self]
  · obtain ⟨htable, hlt, hfree⟩ := h.unused record hmem
    exact ⟨⟨htable, Nat.zero_le _, by omega⟩, hfree⟩

/-- One of the pages has a free slot left when they have more slots than rows and copies. -/
theorem exists_free {slots : Nat} (h : v.Copies w table count records rows) (hv : v.Keyed)
    (hw : w.Keyed) (hreadable : w.ReadableIn table)
    (hshown : ∀ number, number < count → ∃ content, w.page ⟨table, number⟩ = .ok content)
    (hslots : ∀ number content, w.page ⟨table, number⟩ = .ok content → content.slots = slots)
    {first : List Row} (hfirst : v.rowsFrom table 0 count = .ok first)
    (hlt : first.length + records.length < count * slots) :
    ∃ number content, number < count ∧ w.page ⟨table, number⟩ = .ok content ∧
      content.firstFree? ≠ none := by
  obtain ⟨second, hsecond⟩ := @rowsFrom_isOk w table count 0 hreadable
    fun number _ hbound => hshown number (by omega)
  have hlength := h.length_rowsFrom hv hw hfirst hsecond
  obtain ⟨number, content, -, hbound, hfound⟩ :=
    exists_free_of_length_lt hslots hsecond (by omega)
  exact ⟨number, content, by omega, hfound⟩

end Copies

/-! ## Rows that are still to be read -/

/-- Pages read after an insert could be read before, and have one row more if they took it. -/
theorem Inserts.rowsFrom_eq_ok {tid : TransactionId} {next : Nat} (h : w.Inserts w' tid row record)
    (hk : w.Keyed) (hrows : w'.rowsFrom table next count = .ok rows) :
    ∃ old, w.rowsFrom table next count = .ok old ∧ rows.length = old.length +
      if record.page.table = table ∧ next ≤ record.page.number ∧ record.page.number < next + count
      then 1 else 0 := by
  obtain ⟨content, changed, hpage, hinsert, rfl⟩ := h
  have hid : (changed.mark (some tid)).id = record.page :=
    (Page.rewrites_of_insert hinsert).id.trans (hk.id_of_page hpage)
  induction count generalizing next rows with
  | zero =>
    cases hrows
    exact ⟨[], rfl, by rw [if_neg (by omega)]; rfl⟩
  | succ count ih =>
    obtain ⟨found, first, rest, hfound, hfirst, hrest, rfl⟩ := rowsFrom_succ_eq_ok_iff.mp hrows
    obtain ⟨oldRest, hold, hlength⟩ := ih hrest
    rw [page_put, hid] at hfound
    split_ifs at hfound with hsame
    · -- the page that took the row comes first
      rw [← Except.ok.inj hfound, Page.rows_mark] at hfirst
      obtain ⟨oldFirst, holdFirst, hmore⟩ := Page.rows_of_insert hinsert hfirst
      refine ⟨oldFirst ++ oldRest, rowsFrom_succ_eq_ok_iff.mpr
        ⟨content, oldFirst, oldRest, hsame ▸ hpage, holdFirst, hold, rfl⟩, ?_⟩
      rw [← hsame] at hlength ⊢
      rw [if_neg (by dsimp only; omega)] at hlength
      rw [if_pos ⟨rfl, Nat.le_refl _, by dsimp only; omega⟩, List.length_append, List.length_append]
      omega
    · refine ⟨first ++ oldRest, rowsFrom_succ_eq_ok_iff.mpr
        ⟨found, first, oldRest, hfound, hfirst, hold, rfl⟩, ?_⟩
      have hiff : (record.page.table = table ∧ next ≤ record.page.number ∧
          record.page.number < next + (count + 1)) ↔
          record.page.table = table ∧ next + 1 ≤ record.page.number ∧
            record.page.number < next + 1 + count := by
        refine and_congr_right fun htable => ?_
        have hne : next ≠ record.page.number := fun heq => hsame (by rw [← htable, heq])
        omega
      rw [List.length_append, List.length_append, hlength, if_congr hiff rfl rfl]
      omega

/-- What a cursor has still to hand out after an insert it had to hand out before, but for the new
row where that is on a page the cursor has not reached. -/
theorem Inserts.rest_eq_ok {tid : TransactionId} {cursor : Cursor} (h : w.Inserts w' tid row record)
    (hk : w.Keyed) (hrest : w'.rest cursor = .ok rows) :
    ∃ old, w.rest cursor = .ok old ∧ rows.length = old.length +
      if record.page.table = cursor.table.id ∧ cursor.next ≤ record.page.number ∧
        record.page.number < cursor.next + (cursor.table.pageCount w'.disk - cursor.next)
      then 1 else 0 := by
  have hdisk : w'.disk = w.disk := by
    obtain ⟨content, changed, -, -, rfl⟩ := h
    rfl
  obtain ⟨new, hnew, rfl⟩ := rest_eq_ok_iff.mp hrest
  obtain ⟨old, hold, hlength⟩ := h.rowsFrom_eq_ok hk hnew
  refine ⟨cursor.buffer ++ old, rest_eq_ok_iff.mpr ⟨old, hdisk ▸ hold, rfl⟩, ?_⟩
  rw [List.length_append, List.length_append, hlength, Nat.add_assoc]

/-- What a cursor has still to hand out when its table may have grown it had to hand out before. -/
theorem rest_of_grown {cursor : Cursor} (h : w = v ∨ v.Grows w) (hs : v.catalog.Sound)
    (ht : v.catalog.table cursor.table.id = .ok cursor.table) (hrest : w.rest cursor = .ok rows) :
    ∃ old, v.rest cursor = .ok old ∧ old.length ≤ rows.length := by
  rcases h with rfl | hgrows
  · exact ⟨rows, hrest, Nat.le_refl _⟩
  · have hcount : cursor.table.pageCount v.disk ≤ cursor.table.pageCount w.disk := by
      rcases hgrows.pageCount hs ht with hcount | ⟨hcount, -⟩ <;> omega
    obtain ⟨more, hmore⟩ : ∃ more, cursor.table.pageCount w.disk - cursor.next =
        cursor.table.pageCount v.disk - cursor.next + more :=
      Nat.exists_eq_add_of_le (by omega)
    obtain ⟨new, hnew, rfl⟩ := rest_eq_ok_iff.mp hrest
    rw [hmore, rowsFrom_add_eq_ok_iff] at hnew
    obtain ⟨first, last, hfirst, -, rfl⟩ := hnew
    have hsame : w.rowsFrom cursor.table.id cursor.next
        (cursor.table.pageCount v.disk - cursor.next) = v.rowsFrom cursor.table.id cursor.next
        (cursor.table.pageCount v.disk - cursor.next) :=
      rowsFrom_congr _ _ fun number _ hlt => congrArg _ (hgrows.page_of_lt hs ht (by omega))
    refine ⟨cursor.buffer ++ first, rest_eq_ok_iff.mpr ⟨first, hsame ▸ hfirst, rfl⟩, ?_⟩
    simp only [List.length_append]
    omega

end RowStore.View
