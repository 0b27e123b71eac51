import RowStore.Proofs.Operator.Reading
import RowStore.Proofs.Store.Entries
import RowStore.Proofs.Store.Growing

/-!
# RowStore.Proofs.Placement: where an insert puts a row, and what it leaves alone

An insert takes the lowest free record of its table among the pages that are shown, or the first
record of a page it appends when there is none (`View.Chooses`).  It changes one slot of one page
(`View.Places`): every other page, and every other slot of that page, is as it was.
-/

namespace RowStore

namespace View

variable {v v' : View} {tid : TransactionId} {row : Row} {record : RecordId} {page : PageId}
  {pages : List PageId} {table : Table} {content : Page}

/-! ## Free records -/

/-- A record of a table whose slot is free on the page that is shown. -/
def Free (v : View) (table : Table) (record : RecordId) : Prop :=
  record.page.table = table.id ∧ record.page.number < table.pageCount v.disk ∧
    ∃ content, v.page record.page = .ok content ∧ record.slot < content.slots ∧
      content.isUsed record.slot = false

/-- A page that is shown and has no free slot. -/
def Full (v : View) (page : PageId) : Prop :=
  ∃ content, v.page page = .ok content ∧ content.firstFree? = none

theorem Full.not_free (h : v.Full record.page) : ¬ v.Free table record := by
  rintro ⟨-, -, content, hpage, hlt, hfree⟩
  obtain ⟨full, hpage', hnone⟩ := h
  rw [hpage, Except.ok.injEq] at hpage'
  subst hpage'
  rw [Page.firstFree?_eq_none_iff.mp hnone record.slot hlt] at hfree
  cases hfree

/-- Where an insert may put a row, and the disk behind it: at the lowest free record of the table,
or at the first record of an appended page when no record is free. -/
def Chooses (v : View) (table : Table) (record : RecordId) (disk : Disk) : Prop :=
  (v.Free table record ∧ (∀ other, v.Free table other → other = record ∨ record.Precedes other) ∧
      disk = v.disk) ∨
    (∀ other, ¬ v.Free table other) ∧ record = ⟨⟨table.id, table.pageCount v.disk⟩, 0⟩ ∧
      disk = table.grown v.disk ∧ table.pageCount disk = table.pageCount v.disk + 1

/-! ## One slot of one page -/

/-- `v'` is `v` with the row at a record of the table, put there by `tid`. -/
structure Places (v v' : View) (table : Table) (tid : TransactionId) (row : Row)
    (record : RecordId) : Prop where
  catalog : v'.catalog = v.catalog
  /-- The page of the record is changed by `tid`, and the slot reads as the columns keep the row. -/
  placed : ∃ content, v'.changed record.page = some content ∧ content.dirtier = some tid ∧
    content.row? record.slot = .ok (some (row.keptAt table.schema record))
  /-- Every other slot of the page is as it was, or free when there was no page. -/
  slots : ∀ content, v'.page record.page = .ok content → ∀ slot, slot ≠ record.slot →
    (∀ old, v.page record.page = .ok old → content.isUsed slot = old.isUsed slot ∧
      content.slotBytes slot = old.slotBytes slot ∧ content.row? slot = old.row? slot) ∧
    ((∃ e, v.page record.page = .error e) → content.isUsed slot = false)
  /-- Every other page of every table is shown as it was. -/
  others : ∀ page, page ≠ record.page → ∀ content,
    v'.page page = .ok content ↔ v.page page = .ok content

/-! ## Going through the pages -/

theorem full_of_insertInPage_none (h : v.insertInPage tid page row = (.ok none, v')) :
    v.Full page := by
  unfold insertInPage at h
  cases hpage : v.page page with
  | error e => simp [hpage] at h
  | ok content =>
    rw [hpage] at h
    dsimp only at h
    by_cases hfull : content.firstFree? = none
    · exact ⟨content, hpage, hfull⟩
    · rw [if_neg (by simpa using hfull)] at h
      rcases hinsert : content.insert row with e | ⟨record, changed⟩ <;> simp [hinsert] at h

/-- A page that does not take the row leaves it to the pages behind it; any other page decides. -/
theorem insertInPages_cons {outcome : Except TableError (Option RecordId)}
    (h : insertInPages tid row (page :: pages) v = (outcome, v')) :
    (v.insertInPage tid page row = (.ok none, v) ∧
        insertInPages tid row pages v = (outcome, v')) ∨
      (v.insertInPage tid page row = (outcome, v') ∧ outcome ≠ .ok none) := by
  unfold insertInPages at h
  rcases hfirst : v.insertInPage tid page row with ⟨e | _ | record, moved⟩
  · rw [hfirst] at h
    obtain ⟨rfl, rfl⟩ := Prod.mk.inj h
    exact Or.inr ⟨rfl, by simp⟩
  · rw [hfirst] at h
    obtain rfl := insertInPage_none hfirst
    exact Or.inl ⟨rfl, h⟩
  · rw [hfirst] at h
    obtain ⟨rfl, rfl⟩ := Prod.mk.inj h
    exact Or.inr ⟨rfl, by simp⟩

theorem full_of_insertInPages_none (h : insertInPages tid row pages v = (.ok none, v')) :
    ∀ page ∈ pages, v.Full page := by
  induction pages with
  | nil => simp
  | cons first pages ih =>
    obtain ⟨hfirst, hrest⟩ | ⟨-, hne⟩ := insertInPages_cons h
    · intro page hmem
      rcases List.mem_cons.mp hmem with rfl | hmem
      · exact full_of_insertInPage_none hfirst
      · exact ih hrest page hmem
    · exact absurd rfl hne

/-- The pages before the one that takes the row are full. -/
theorem full_before_of_insertInPages (hk : v.Keyed)
    (h : insertInPages tid row pages v = (.ok (some record), v')) :
    v.Inserts v' tid row record ∧
      ∃ before behind, pages = before ++ record.page :: behind ∧ ∀ page ∈ before, v.Full page := by
  induction pages with
  | nil => cases (Prod.mk.inj h).1
  | cons first pages ih =>
    obtain ⟨hfirst, hrest⟩ | ⟨hfirst, -⟩ := insertInPages_cons h
    · obtain ⟨hinserts, before, behind, rfl, hfull⟩ := ih hrest
      refine ⟨hinserts, first :: before, behind, rfl, fun page hmem => ?_⟩
      rcases List.mem_cons.mp hmem with rfl | hmem
      · exact full_of_insertInPage_none hfirst
      · exact hfull page hmem
    · obtain ⟨-, hne⟩ | ⟨found, hok, rfl, hinserts⟩ := insertInPage_spec hk hfirst
      · exact absurd rfl (hne record)
      · obtain rfl := Option.some.inj (Except.ok.inj hok)
        exact ⟨hinserts, [], pages, rfl, by simp⟩

theorem mem_firstPages {count : Nat} :
    page ∈ table.firstPages count ↔ page.table = table.id ∧ page.number < count := by
  rw [Table.firstPages, List.mem_map]
  constructor
  · rintro ⟨number, hnumber, rfl⟩
    exact ⟨rfl, List.mem_range.mp hnumber⟩
  · rintro ⟨htable, hlt⟩
    exact ⟨page.number, List.mem_range.mpr hlt, by rw [← htable]⟩

/-- Pages come in ascending order. -/
theorem number_lt_of_firstPages {count : Nat} {before behind : List PageId}
    (h : table.firstPages count = before ++ page :: behind) {other : PageId}
    (hother : other ∈ table.firstPages count) (hlt : other.number < page.number) :
    other ∈ before := by
  have hsorted : (table.firstPages count).Pairwise fun a b => a.number < b.number :=
    List.pairwise_map.mpr List.pairwise_lt_range
  rw [h] at hsorted hother
  rcases List.mem_append.mp hother with hbefore | hrest
  · exact hbefore
  · obtain ⟨-, hbehind, -⟩ := List.pairwise_append.mp hsorted
    rcases List.mem_cons.mp hrest with rfl | hmem
    · omega
    · have := (List.pairwise_cons.mp hbehind).1 other hmem
      omega

/-- A row goes to the lowest free record of its table. -/
theorem chooses_of_insertInPages (hk : v.Keyed)
    (h : insertInPages tid row (table.firstPages (table.pageCount v.disk)) v =
      (.ok (some record), v')) : v.Chooses table record v.disk := by
  obtain ⟨hinserts, before, behind, hpages, hfull⟩ := full_before_of_insertInPages hk h
  obtain ⟨content, changed, hpage, hinsert, -⟩ := hinserts
  have hmem : record.page ∈ table.firstPages (table.pageCount v.disk) := by
    rw [hpages]
    exact List.mem_append_right _ List.mem_cons_self
  obtain ⟨htable, hnumber⟩ := mem_firstPages.mp hmem
  obtain ⟨slot, -, -, hslot, -, hrecord, -⟩ := Page.insert_eq_ok hinsert
  have hsame : record.slot = slot := by rw [hrecord]
  rw [← hsame] at hslot
  obtain ⟨hlt, hfree⟩ := Page.lt_of_firstFree? hslot
  refine Or.inl ⟨⟨htable, hnumber, content, hpage, hlt, hfree⟩, fun other hother => ?_, rfl⟩
  obtain ⟨htable', hnumber', content', hpage', -, hfree'⟩ := id hother
  -- a free record on a lower page would have been taken, and so would a lower one on the same page
  have hpage_le : record.page.number ≤ other.page.number := by
    by_contra hlower
    have hin := mem_firstPages.mpr ⟨htable', hnumber'⟩
    exact (hfull other.page (number_lt_of_firstPages hpages hin (by omega))).not_free hother
  by_cases heq : other.page.number = record.page.number
  · have hsamePage : other.page = record.page := by
      cases hp : other.page
      cases hq : record.page
      simp_all
    rw [hsamePage, hpage, Except.ok.injEq] at hpage'
    subst hpage'
    have hslot_le := Page.le_of_firstFree? hslot hfree'
    by_cases hslots : other.slot = record.slot
    · left
      cases other
      cases record
      simp_all
    · right
      refine (RecordId.compare_eq_lt_iff record other).mpr ?_
      rw [hsamePage]
      omega
  · right
    refine (RecordId.compare_eq_lt_iff record other).mpr ?_
    rw [htable, htable']
    omega

/-- Where all pages of a table are full no record is free. -/
theorem not_free_of_full
    (h : ∀ page ∈ table.firstPages (table.pageCount v.disk), v.Full page) (record : RecordId) :
    ¬ v.Free table record := by
  intro hfree
  exact (h record.page (mem_firstPages.mpr ⟨hfree.1, hfree.2.1⟩)).not_free hfree

/-! ## Putting the row -/

/-- Putting a row into a shown page changes one slot of that page and no other page. -/
theorem Inserts.places (h : v.Inserts v' tid row record) (hk : v.Keyed)
    (hschema : ∀ content, v.page record.page = .ok content → content.schema = table.schema)
    (hstores : row.StoresAs table.schema
      (List.zipWith ColumnType.keep table.schema.types row.values)) :
    v.Places v' table tid row record := by
  obtain ⟨old, changed, hpage, hinsert, rfl⟩ := h
  have hkept := hschema old hpage
  rw [← hkept] at hstores
  have hid : (changed.mark (some tid)).id = record.page :=
    (Page.rewrites_of_insert hinsert).id.trans (hk.id_of_page hpage)
  refine ⟨rfl, ⟨changed.mark (some tid), ?_, rfl, ?_⟩, ?_, ?_⟩
  · show (if record.page = _ then _ else _) = _
    rw [if_pos hid.symm]
  · show changed.row? record.slot = _
    rw [Page.row?_insert_self hinsert hstores, Row.keptAt, hkept]
  · intro content hcontent slot hne
    rw [page_put, if_pos hid.symm, Except.ok.injEq] at hcontent
    subst hcontent
    refine ⟨fun found hfound => ?_, ?_⟩
    · rw [hpage, Except.ok.injEq] at hfound
      subst hfound
      refine ⟨?_, Page.slotBytes_insert_of_ne hinsert hne, ?_⟩
      · show changed.isUsed slot = old.isUsed slot
        rw [Page.isUsed_insert hinsert, decide_eq_false hne, Bool.false_or]
      · show changed.row? slot = old.row? slot
        exact Page.row?_insert_of_ne hinsert hne
    · rintro ⟨e, he⟩
      rw [hpage] at he
      cases he
  · intro page hne content
    rw [page_put, if_neg (by rwa [hid])]

/-! ### On a page that was appended -/

section Appended

variable {disk : Disk} (hs : v.catalog.Sound) (ht : v.catalog.table table.id = .ok table)
  (hw : table.writeBytes v.disk ⟨table.id, table.pageCount v.disk⟩ (Bytes.zeros table.pageSize) =
    .ok disk)
  (hbehind : v.changed ⟨table.id, table.pageCount v.disk⟩ = none)
include hs ht hw hbehind

/-- A row that is put into the page that was appended is all that has changed. -/
theorem Places.of_grown (hrecord : record.page = ⟨table.id, table.pageCount v.disk⟩)
    (h : View.Places { v with disk } v' table tid row record) :
    v.Places v' table tid row record := by
  refine ⟨h.catalog, h.placed, ?_, ?_⟩
  · intro content hcontent slot hne
    refine ⟨fun old hold => ?_, fun _ => ?_⟩
    · -- the page was not there before
      rw [View.page, hrecord, hbehind] at hold
      exact absurd hold (Catalog.stored_behind hs ht)
    · have hempty := page_grown_behind ht hw hbehind
      rw [← hrecord] at hempty
      obtain ⟨hused, -⟩ := (h.slots content hcontent slot hne).1 _ hempty
      rw [hused]
      exact Page.isUsed_of_zeros rfl slot
  · intro page hne content
    rw [h.others page hne content]
    exact page_grown_iff hs ht hw (by rwa [← hrecord])

/-- A row that finds all pages full goes to the first slot of the page that was appended. -/
theorem appended (hk : v.Keyed)
    (hfull : ∀ page ∈ table.firstPages (table.pageCount v.disk), v.Full page)
    (hrow : row.WellTyped) (htypes : ∀ type ∈ table.schema.types, type.Addressable)
    (h : View.insertInPage { v with disk } tid ⟨table.id, table.pageCount v.disk⟩ row =
      (.ok (some record), v')) :
    v.Chooses table record disk ∧ v.Places v' table tid row record := by
  have hpos := (hs.table ht).pageSize_pos
  have hempty := page_grown_behind ht hw hbehind
  have hk' : View.Keyed { v with disk } := hk
  obtain ⟨-, hne⟩ | ⟨found, hfound, hpage, hinserts⟩ := insertInPage_spec hk' h
  · exact absurd rfl (hne record)
  obtain rfl := Option.some.inj (Except.ok.inj hfound)
  rw [← hpage] at hempty
  have hschema : ∀ content, View.page { v with disk } record.page = .ok content →
      content.schema = table.schema := by
    intro content hcontent
    rw [hempty, Except.ok.injEq] at hcontent
    rw [← hcontent]
    rfl
  have hplaces := hinserts.places hk' hschema (hinserts.storesAs hschema hrow htypes)
  refine ⟨Or.inr ⟨not_free_of_full hfull, ?_, ((Table.writeBytes_next_iff hpos).mp hw).2,
    Table.pageCount_of_writeBytes_next hpos hw⟩, hplaces.of_grown hs ht hw hbehind hpage⟩
  obtain ⟨content, changed, hcontent, hinsert, -⟩ := hinserts
  rw [hempty, Except.ok.injEq] at hcontent
  obtain ⟨slot, -, -, hslot, -, hrecord, -⟩ := Page.insert_eq_ok hinsert
  have hslots : content.slots ≠ 0 := by
    have hopened := (hs.table ht).2
    rw [← hcontent]
    simpa [Page.slots, Page.geometry, Page.ofBytes, Table.slotsPerPage] using hopened
  rw [Page.firstFree?_of_zeros (by rw [← hcontent]; rfl) hslots, Option.some.injEq] at hslot
  rw [hrecord, ← hslot, ← hcontent]
  show (⟨record.page, 0⟩ : RecordId) = _
  rw [hpage]

end Appended

end View

/-! ## Inserting -/

namespace Store

variable {first s s' : Store} {table : Table} {tid : TransactionId} {row row' : Row}
  {record : RecordId} {pages : List PageId}

/-- What an insert that succeeds does, in a store that agrees with its disk. -/
theorem Coherent.places (hs : s.Coherent) (ht : s.catalog.table table.id = .ok table)
    (hrow : row.WellTyped) (htypes : ∀ type ∈ table.schema.types, type.Addressable)
    (h : s.insertInTable table tid row = (.ok record, s')) :
    s.view.Chooses table record s'.disk ∧ s.view.Places s'.view table tid row record := by
  have hk := hs.keyed_view
  have hagree : row.schema.Agrees table.schema := by
    by_contra hforeign
    rw [insertInTable, if_neg hforeign] at h
    cases (Prod.mk.inj h).1
  rw [insertInTable, if_pos hagree] at h
  have hadded := @added_insertGrowing s tid row table hs ht s.cache.size
  have hsweeps := insertInPages_refines tid row (table.firstPages (table.pageCount s.disk)) hs
  rw [h] at hadded
  cases hadded with
  | placed hsweep =>
    have hdisk := disk_insertInPages tid row (table.firstPages (table.pageCount s.disk)) s
    rw [hsweep] at hdisk hsweeps
    have hview := hsweeps.of_ok
    have hchooses := View.chooses_of_insertInPages hk hview
    obtain ⟨hinserts, before, behind, hpages, -⟩ := View.full_before_of_insertInPages hk hview
    have hmem : record.page ∈ table.firstPages (table.pageCount s.disk) :=
      hpages ▸ List.mem_append_right _ List.mem_cons_self
    have htable : record.page.table = table.id := (View.mem_firstPages.mp hmem).1
    have hschema : ∀ content, s.view.page record.page = .ok content →
        content.schema = table.schema := fun content hpage =>
      schema_of_grown hs (Or.inl rfl) hpage (htable ▸ ht)
    rw [show s'.disk = s.disk from hdisk]
    exact ⟨hchooses, hinserts.places hk hschema (hinserts.storesAs hschema hrow htypes)⟩
  | @appended _ s₁ _ disk hsweep hw hlast =>
    obtain ⟨hgrown, hgrownView⟩ := of_appended hs ht hsweep hw
    rw [hsweep] at hsweeps
    have hfull := View.full_of_insertInPages_none hsweeps.of_ok
    have hbehind : s.view.changed ⟨table.id, table.pageCount s.disk⟩ = none := by
      simp [view, find?_behind hs.toSeated ht]
    have hlasts := insertInPage_refines hgrown tid ⟨table.id, table.pageCount s.disk⟩ row
    have hdisk := disk_insertInPage { s₁ with disk } tid ⟨table.id, table.pageCount s.disk⟩ row
    rw [hlast] at hlasts hdisk
    rw [hgrownView] at hlasts
    rw [show s'.disk = disk from hdisk]
    exact View.appended hs.sound ht hw hbehind hk hfull hrow htypes hlasts.of_ok

/-- First fit.  An insert that succeeds takes the lowest free record of its table, or the first of
an appended page when there is none, tells the one page of that record, and changes nothing but the
slot.  The search ends with its first attempt, also when it fails, and appends at most one page. -/
theorem addToTable_first_fit (hfresh : first.Fresh) (hsound : first.catalog.Sound)
    (hreached : first.Reached s) (ht : s.catalog.table table.id = .ok table) (hrow : row.WellTyped)
    (htypes : ∀ type ∈ table.schema.types, type.Addressable) (tid : TransactionId) :
    (∀ pages row' s', s.addToTable table tid row = (.ok pages, row', s') →
      ∃ record, row' = row.withRecord (some record) ∧ pages = [record.page] ∧
        s.view.Chooses table record s'.disk ∧ s.view.Places s'.view table tid row record) ∧
    (∀ attempts, insertGrowing table tid row (attempts + 1) s = insertGrowing table tid row 1 s) ∧
    (∀ page, (insertGrowing table tid row 1 s).1 ≠ .error (.pageFull page)) ∧
    ((insertGrowing table tid row 1 s).2.disk = s.disk ∨
      (insertGrowing table tid row 1 s).2.disk = table.grown s.disk) := by
  obtain ⟨hs, -, -⟩ := hreached.invariant hfresh hsound
  have hadded := @added_insertGrowing s tid row table hs ht 0
  refine ⟨fun pages row' s' h => ?_, insertGrowing_succ hs ht, hadded.ne_pageFull,
    hadded.disk hs ht⟩
  unfold addToTable told at h
  rcases hinsert : s.insertInTable table tid row with ⟨e | record, t⟩
  · rw [hinsert] at h
    cases (Prod.mk.inj h).1
  · rw [hinsert] at h
    obtain ⟨rfl, rfl, rfl⟩ : _ ∧ _ ∧ _ := by simpa using h
    obtain ⟨hchooses, hplaces⟩ := hs.places ht hrow htypes hinsert
    exact ⟨record, rfl, rfl, hchooses, hplaces⟩

/-- Once a row of the first of two pages was deleted the next one goes to its slot. -/
theorem addToTable_reuses_slot :
    let x := (Session.mk (Sample.store 2 (by decide)) []).after
      [.insert ⟨1⟩ Sample.table.id (Sample.row 1 10), .insert ⟨1⟩ Sample.table.id (Sample.row 2 20),
        .insert ⟨1⟩ Sample.table.id (Sample.row 3 30),
        .delete ⟨1⟩ ((Sample.row 2 20).withRecord (some ⟨⟨Sample.table.id, 0⟩, 1⟩))]
    let row := Sample.row 4 40
    let outcome := x.store.addToTable Sample.table ⟨2⟩ row
    let record : RecordId := ⟨⟨Sample.table.id, 0⟩, 1⟩
    outcome.1 = .ok [record.page] ∧ outcome.2.1 = row.withRecord (some record) ∧
      x.store.view.Chooses Sample.table record outcome.2.2.disk ∧
      x.store.view.Places outcome.2.2.view Sample.table ⟨2⟩ row record := by
  intro x row outcome record
  have hreached : (Sample.store 2 (by decide)).Reached x.store := by
    refine @Reached.after _ (Session.mk (Sample.store 2 (by decide)) []) .first _ ?_
    decide
  have hrow : row.WellTyped := ⟨rfl, by decide⟩
  have hpages : outcome.1 = .ok [record.page] := by decide +kernel
  have htold : outcome.2.1 = row.withRecord (some record) := by decide +kernel
  have htable : x.store.catalog.table Sample.table.id = .ok Sample.table := by decide +kernel
  obtain ⟨hplace, -⟩ := addToTable_first_fit (Sample.fresh_store 2 (by decide))
    Sample.sound_catalog hreached htable hrow (by decide) ⟨2⟩
  obtain ⟨found, hfound, -, hchooses, hplaces⟩ :=
    hplace [record.page] outcome.2.1 outcome.2.2 (by rw [← hpages])
  obtain rfl : found = record := by
    rw [htold] at hfound
    exact (Option.some.inj (congrArg Row.record hfound)).symm
  exact ⟨hpages, htold, hchooses, hplaces⟩

end Store

end RowStore
