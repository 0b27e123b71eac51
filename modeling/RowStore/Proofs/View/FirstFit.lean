import RowStore.Proofs.View.Entries

/-!
# RowStore.Proofs.View.FirstFit: where a row goes

A row goes into the first page of its table that has a free slot.  When one of the first few pages
has one, the row goes into one of them, whatever pages there are behind, and no page is appended
(`Store.insertRow_of_free`).  Some of the first pages has a free slot when they have fewer rows than
slots (`View.exists_free_of_length_lt`).
-/

namespace RowStore

/-! ## Pages -/

namespace Page

variable {page : Page} {row : Row} {rows : List Row}

/-- A page with a free slot takes every row of its schema that can be stored. -/
theorem exists_insert {kept : List Value} (hagree : row.schema.Agrees page.schema)
    (hstores : row.StoresAs page.schema kept) (hfree : page.firstFree? ≠ none) :
    ∃ record changed, page.insert row = .ok (record, changed) := by
  obtain ⟨slot, hslot⟩ := Option.ne_none_iff_exists'.mp hfree
  obtain ⟨bytes, hbytes, -⟩ := hstores
  unfold insert
  rw [if_neg (not_not.mpr hagree), hslot]
  dsimp only
  rw [hbytes]
  exact ⟨_, _, rfl⟩

/-- A page without a free slot has as many rows as slots. -/
theorem length_rows_of_full (h : page.rows = .ok rows) (hfull : page.firstFree? = none) :
    rows.length = page.slots := by
  rw [firstFree?_eq_head?, List.head?_eq_none_iff, freeSlots, List.filter_eq_nil_iff] at hfull
  have hused : page.usedSlots = List.range page.slots := by
    rw [usedSlots, List.filter_eq_self]
    intro slot hslot
    simpa using hfull slot hslot
  rw [length_of_rowsAt h, hused, List.length_range]

end Page

/-! ## Tables -/

namespace View

variable {v v' : View} {tid : TransactionId} {row : Row} {pages : List PageId} {table : TableId}

/-- What pages behind the one that takes the row hold makes no difference. -/
theorem insertInPages_append {record : RecordId} (more : List PageId)
    (h : insertInPages tid row pages v = (.ok (some record), v')) :
    insertInPages tid row (pages ++ more) v = (.ok (some record), v') := by
  induction pages generalizing v with
  | nil => cases h
  | cons page pages ih =>
    rw [insertInPages] at h
    rw [List.cons_append, insertInPages]
    rcases hfirst : v.insertInPage tid page row with ⟨e | _ | found, moved⟩
    · rw [hfirst] at h
      exact h
    · rw [hfirst] at h
      exact ih h
    · rw [hfirst] at h
      exact h

/-- A row goes into one of these pages when all of them can be had and one has a free slot. -/
theorem insertInPages_of_free (hshown : ∀ page ∈ pages, ∃ content, v.page page = .ok content)
    (htakes : ∀ page ∈ pages, ∀ content, v.page page = .ok content → content.firstFree? ≠ none →
      ∃ record changed, content.insert row = .ok (record, changed))
    (hfree : ∃ page ∈ pages, ∃ content, v.page page = .ok content ∧ content.firstFree? ≠ none) :
    ∃ record v', insertInPages tid row pages v = (.ok (some record), v') := by
  induction pages with
  | nil =>
    obtain ⟨page, hmem, -⟩ := hfree
    cases hmem
  | cons page pages ih =>
    obtain ⟨content, hpage⟩ := hshown page List.mem_cons_self
    rw [insertInPages, insertInPage, hpage]
    dsimp only
    by_cases hfull : content.firstFree? = none
    · rw [hfull]
      -- a page without a free slot is passed over
      refine ih (fun other hmem => hshown other (List.mem_cons_of_mem _ hmem))
        (fun other hmem => htakes other (List.mem_cons_of_mem _ hmem)) ?_
      obtain ⟨other, hmem, found, hfound, hslot⟩ := hfree
      rcases List.mem_cons.mp hmem with rfl | hmem
      · rw [hpage, Except.ok.injEq] at hfound
        exact absurd (hfound ▸ hfull) hslot
      · exact ⟨other, hmem, found, hfound, hslot⟩
    · obtain ⟨record, changed, hinsert⟩ := htakes page List.mem_cons_self content hpage hfull
      obtain ⟨slot, hslot⟩ := Option.ne_none_iff_exists'.mp hfull
      rw [hslot, hinsert]
      exact ⟨record, _, rfl⟩

theorem firstPages_append (table : Table) {few many : Nat} (hle : few ≤ many) :
    ∃ more, table.firstPages many = table.firstPages few ++ more := by
  obtain ⟨extra, rfl⟩ := Nat.exists_eq_add_of_le hle
  exact ⟨_, by rw [Table.firstPages, List.range_add, List.map_append]; rfl⟩

/-- Among pages with fewer rows than slots there is one with a free slot. -/
theorem exists_free_of_length_lt {slots next count : Nat} {rows : List Row}
    (hslots : ∀ number content, v.page ⟨table, number⟩ = .ok content → content.slots = slots)
    (h : v.rowsFrom table next count = .ok rows) (hlt : rows.length < count * slots) :
    ∃ number content, next ≤ number ∧ number < next + count ∧ v.page ⟨table, number⟩ = .ok content ∧
      content.firstFree? ≠ none := by
  induction count generalizing next rows with
  | zero => omega
  | succ count ih =>
    obtain ⟨content, first, rest, hpage, hfirst, hrest, rfl⟩ := rowsFrom_succ_eq_ok_iff.mp h
    by_cases hfull : content.firstFree? = none
    · have hlength := Page.length_rows_of_full hfirst hfull
      rw [hslots next content hpage] at hlength
      rw [List.length_append, hlength, Nat.succ_mul] at hlt
      obtain ⟨number, found, hle, hbound, hfound⟩ := ih hrest (by omega)
      exact ⟨number, found, by omega, by omega, hfound⟩
    · exact ⟨next, content, Nat.le_refl _, by omega, hpage, hfull⟩

end View

/-! ## Inserting with room -/

theorem Page.isRefusal_of_insert_error {page : Page} {row : Row} {e : TableError}
    (h : page.insert row = .error e) : e.isRefusal = false := by
  unfold insert at h
  split_ifs at h
  · cases hslot : page.firstFree? with
    | none =>
      rw [hslot] at h
      rw [← Except.error.inj h]
      rfl
    | some slot =>
      rw [hslot] at h
      cases hbytes : row.encode with
      | ok bytes => simp [hbytes] at h
      | error cause =>
        simp only [hbytes, Except.error.injEq] at h
        rw [← h]
        rfl
  · rw [← Except.error.inj h]
    rfl

namespace Store

variable {s s' : Store} {tid : TransactionId} {row : Row} {page : PageId}

theorem insertInPage_none (h : s.insertInPage tid page row = (.ok none, s')) :
    s' = (s.fetch page).2 := by
  unfold insertInPage at h
  rcases hfetch : s.fetch page with ⟨e | content, moved⟩
  · simp [hfetch] at h
  · rw [hfetch] at h
    dsimp only at h
    split_ifs at h
    · exact (Prod.mk.inj h).2.symm
    · rcases hinsert : content.insert row with e | ⟨record, changed⟩ <;> simp [hinsert] at h

theorem isRefused_insertInPage (hs : s.Coherent) (hadmits : s.Admits) (page : PageId) :
    isRefused (s.insertInPage tid page row).1 = false := by
  have hfetch := @fetch_of_hasRoom s page hs (Or.inl hadmits.room)
  unfold insertInPage
  rcases hfetched : s.fetch page with ⟨e | content, s'⟩
  · rw [hfetched] at hfetch
    cases e with
    | noEvictablePage capacity =>
      exact absurd hfetch.symm (hs.page_ne_noEvictablePage page capacity)
    | catalog cause => rfl
    | storage cause => rfl
  · dsimp only
    split_ifs
    · rfl
    · rcases hinsert : content.insert row with e | ⟨record, changed⟩
      · exact Page.isRefusal_of_insert_error hinsert
      · rfl

/-- Going through pages is not refused where there is room. -/
theorem isRefused_insertInPages : ∀ (pages : List PageId) {s : Store}, s.Coherent → s.Admits →
    isRefused (insertInPages tid row pages s).1 = false
  | [], _, _, _ => rfl
  | page :: pages, s, hs, hadmits => by
    have hfirst := @isRefused_insertInPage s tid row hs hadmits page
    unfold insertInPages
    rcases hinsert : s.insertInPage tid page row with ⟨e | _ | record, s'⟩
    · rw [hinsert] at hfirst
      exact hfirst
    · obtain rfl := insertInPage_none hinsert
      have hfetches := fetches_fetch s page
      exact isRefused_insertInPages pages ((Fetches.moves hfetches).coherent hs)
        (hadmits.fetches hs.valid hfetches)
    · rfl

/-- A row that finds a free slot on one of the first pages is inserted there. -/
theorem insertRow_of_free {table : Table} {few : Nat} {record : RecordId} {v' : View}
    (hs : s.Coherent) (hadmits : s.Admits) (htable : s.catalog.table table.id = .ok table)
    (hagree : row.schema.Agrees table.schema) (hle : few ≤ table.pageCount s.disk)
    (h : View.insertInPages tid row (table.firstPages few) s.view = (.ok (some record), v')) :
    ∃ s', s.insertRow tid table.id row = (.ok record, s') ∧ s'.view = v' := by
  obtain ⟨more, hpages⟩ := View.firstPages_append table hle
  have hview := View.insertInPages_append more h
  rw [← hpages] at hview
  have hrefines := insertInPages_refines tid row (table.firstPages (table.pageCount s.disk)) hs
  have hadmitted := @isRefused_insertInPages tid row
    (table.firstPages (table.pageCount s.disk)) s hs hadmits
  unfold insertRow insertInTable insertGrowing
  rw [htable]
  dsimp only
  rw [if_pos hagree]
  rcases houtcome : insertInPages tid row (table.firstPages (table.pageCount s.disk)) s with
    ⟨result, s'⟩
  rw [houtcome] at hrefines hadmitted
  rcases hrefines with hsame | ⟨hrefused, -⟩
  · rw [hview] at hsame
    obtain ⟨rfl, rfl⟩ := Prod.mk.inj hsame
    exact ⟨s', rfl, rfl⟩
  · rw [hadmitted] at hrefused
    cases hrefused

end Store

end RowStore
