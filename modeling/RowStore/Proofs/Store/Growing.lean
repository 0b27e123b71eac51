import RowStore.Proofs.View.FirstFit

/-!
# RowStore.Proofs.Store.Growing: how an insert ends

An insert goes through the pages of its table.  When all of them are full it appends an empty page
and puts the row there.  `Store.Added` lists the ways in which this can end.  The page that was
appended has room, so the search never starts over: more attempts than one change nothing
(`Store.insertGrowing_succ`), and the attempts never run out (`Store.Added.ne_pageFull`).
-/

namespace RowStore

/-- The disk with an empty page appended to the file of a table. -/
def Table.grown (table : Table) (disk : Disk) : Disk :=
  disk.write table.file (disk.contents table.file ++ Bytes.zeros table.pageSize)

/-! ## Pages that are full -/

namespace Page

variable {page : Page} {row : Row} {slot : Nat}

/-- A page with a free slot does not tell that it is full. -/
theorem insert_ne_pageFull (hfree : page.firstFree? ≠ none) (id : PageId) :
    page.insert row ≠ .error (.pageFull id) := by
  intro h
  obtain ⟨slot, hslot⟩ := Option.ne_none_iff_exists'.mp hfree
  unfold insert at h
  split_ifs at h
  · rw [hslot] at h
    cases hbytes : row.encode with
    | error e => simp [hbytes] at h
    | ok bytes => simp [hbytes] at h
  · cases h

end Page

/-! ## Views with a page more -/

namespace View

variable {v : View} {table : Table} {page : PageId} {content : Page} {disk : Disk}
  (hs : v.catalog.Sound) (ht : v.catalog.table table.id = .ok table)
  (hw : table.writeBytes v.disk ⟨table.id, table.pageCount v.disk⟩ (Bytes.zeros table.pageSize) =
    .ok disk)
include hs ht hw

/-- Appending a page changes no other page, stored or not. -/
theorem stored_grown_iff (hne : page ≠ ⟨table.id, table.pageCount v.disk⟩) :
    v.catalog.stored disk page = .ok content ↔ v.catalog.stored v.disk page = .ok content := by
  obtain ⟨hwhole, rfl⟩ := (Table.writeBytes_next_iff (hs.table ht).pageSize_pos).mp hw
  exact Catalog.stored_grownBy_iff hs ht hwhole (Nat.le_refl _) hne

theorem page_grown_iff (hne : page ≠ ⟨table.id, table.pageCount v.disk⟩) :
    View.page { v with disk } page = .ok content ↔ v.page page = .ok content := by
  unfold View.page
  cases v.changed page with
  | some changed => exact Iff.rfl
  | none => exact stored_grown_iff hs ht hw hne

omit hs in
/-- The page that was appended is empty. -/
theorem page_grown_behind (hbehind : v.changed ⟨table.id, table.pageCount v.disk⟩ = none) :
    View.page { v with disk } ⟨table.id, table.pageCount v.disk⟩ =
      .ok (.ofBytes ⟨table.id, table.pageCount v.disk⟩ table.schema
        (Bytes.zeros table.pageSize)) := by
  unfold View.page
  dsimp only
  rw [hbehind]
  exact Catalog.stored_writeBytes_self ht hw

end View

namespace Store

variable {s s' s₁ s₂ : Store} {tid : TransactionId} {row : Row} {page : PageId}
  {pages : List PageId} {table : Table} {e : TableError}
  {outcome : Except TableError RecordId × Store}

/-! ## One page -/

/-- A page that is passed over was fetched and is full. -/
theorem full_of_insertInPage_none (h : s.insertInPage tid page row = (.ok none, s')) :
    ∃ content, (s.fetch page).1 = .ok content ∧ content.firstFree? = none := by
  unfold insertInPage at h
  rcases hfetch : s.fetch page with ⟨e | content, t⟩
  · simp [hfetch] at h
  · rw [hfetch] at h
    dsimp only at h
    by_cases hfull : content.firstFree? = none
    · exact ⟨content, rfl, hfull⟩
    · rw [if_neg (by simpa using hfull)] at h
      rcases hinsert : content.insert row with e | ⟨record, changed⟩ <;> simp [hinsert] at h

/-- When a row is not put into a page, the page was fetched and no more, and could not be had or did
not take the row. -/
theorem insertInPage_error (h : s.insertInPage tid page row = (.error e, s')) :
    s' = (s.fetch page).2 ∧
      ((∃ cause, (s.fetch page).1 = .error cause ∧ e = .cache cause) ∨
        ∃ content, (s.fetch page).1 = .ok content ∧ content.firstFree? ≠ none ∧
          content.insert row = .error e) := by
  unfold insertInPage at h
  rcases hfetch : s.fetch page with ⟨cause | content, t⟩
  · rw [hfetch] at h
    obtain ⟨he, hs⟩ := Prod.mk.inj h
    exact ⟨hs.symm, Or.inl ⟨cause, rfl, (Except.error.inj he).symm⟩⟩
  · rw [hfetch] at h
    dsimp only at h
    by_cases hfull : content.firstFree? = none
    · rw [if_pos (by simpa using hfull)] at h
      cases h
    · rw [if_neg (by simpa using hfull)] at h
      rcases hinsert : content.insert row with cause | ⟨record, changed⟩
      · rw [hinsert] at h
        obtain ⟨he, hs⟩ := Prod.mk.inj h
        obtain rfl := Except.error.inj he
        exact ⟨hs.symm, Or.inr ⟨content, rfl, hfull, hinsert⟩⟩
      · simp [hinsert] at h

theorem insertInPage_ne_pageFull (id : PageId) :
    (s.insertInPage tid page row).1 ≠ .error (.pageFull id) := by
  intro h
  have hpair : s.insertInPage tid page row =
      (.error (.pageFull id), (s.insertInPage tid page row).2) := by rw [← h]
  obtain ⟨-, ⟨cause, -, hcause⟩ | ⟨content, -, hfree, hinsert⟩⟩ := insertInPage_error hpair
  · cases hcause
  · exact Page.insert_ne_pageFull hfree id hinsert

/-! ## Page after page -/

/-- A page that does not take the row is fetched, and the pages behind it decide; any other page
decides. -/
theorem insertInPages_cons {outcome : Except TableError (Option RecordId)}
    (h : insertInPages tid row (page :: pages) s = (outcome, s')) :
    (s.insertInPage tid page row = (.ok none, (s.fetch page).2) ∧
        insertInPages tid row pages (s.fetch page).2 = (outcome, s')) ∨
      (s.insertInPage tid page row = (outcome, s') ∧ outcome ≠ .ok none) := by
  unfold insertInPages at h
  rcases hfirst : s.insertInPage tid page row with ⟨e | _ | record, t⟩
  · rw [hfirst] at h
    obtain ⟨rfl, rfl⟩ := Prod.mk.inj h
    exact Or.inr ⟨rfl, by simp⟩
  · rw [hfirst] at h
    obtain rfl := insertInPage_none hfirst
    exact Or.inl ⟨rfl, h⟩
  · rw [hfirst] at h
    obtain ⟨rfl, rfl⟩ := Prod.mk.inj h
    exact Or.inr ⟨rfl, by simp⟩

theorem insertInPages_ne_pageFull (id : PageId) :
    ∀ (pages : List PageId) (s : Store), (insertInPages tid row pages s).1 ≠ .error (.pageFull id)
  | [], _ => by simp [insertInPages]
  | page :: pages, s => by
    have hfirst := @insertInPage_ne_pageFull s tid row page id
    unfold insertInPages
    rcases hinsert : s.insertInPage tid page row with ⟨e | _ | record, t⟩
    · rw [hinsert] at hfirst
      exact hfirst
    · exact insertInPages_ne_pageFull id pages t
    · simp

/-- Pages that are passed over are fetched and no more. -/
theorem fetches_insertInPages_none (h : insertInPages tid row pages s = (.ok none, s')) :
    Fetches s s' := by
  induction pages generalizing s with
  | nil =>
    obtain rfl : s = s' := (Prod.mk.inj h).2
    exact .refl
  | cons page pages ih =>
    obtain ⟨-, hrest⟩ | ⟨-, hne⟩ := insertInPages_cons h
    · exact (fetches_fetch s page).trans (ih hrest)
    · exact absurd rfl hne

/-- When a row is not put into any of the pages, pages were fetched and no more. -/
theorem fetches_insertInPages_error (h : insertInPages tid row pages s = (.error e, s')) :
    Fetches s s' := by
  induction pages generalizing s with
  | nil => cases (Prod.mk.inj h).1
  | cons page pages ih =>
    obtain ⟨-, hrest⟩ | ⟨hfirst, -⟩ := insertInPages_cons h
    · exact (fetches_fetch s page).trans (ih hrest)
    · rw [(insertInPage_error hfirst).1]
      exact fetches_fetch s page

/-! ## All pages, and one more -/

/-- How an insert into a table can end, with what it tells and the store behind it. -/
inductive Added (s : Store) (table : Table) (tid : TransactionId) (row : Row) :
    Except TableError RecordId × Store → Prop
  /-- A page of the table could not be had or did not take the row. -/
  | failed {e : TableError} {s₁ : Store}
    (hsweep : insertInPages tid row (table.firstPages (table.pageCount s.disk)) s =
      (.error e, s₁)) :
    Added s table tid row (.error e, s₁)
  /-- A page of the table took the row. -/
  | placed {record : RecordId} {s₁ : Store}
    (hsweep : insertInPages tid row (table.firstPages (table.pageCount s.disk)) s =
      (.ok (some record), s₁)) :
    Added s table tid row (.ok record, s₁)
  /-- All pages are full, and no page can be appended. -/
  | broken {e : StorageError} {s₁ : Store}
    (hsweep : insertInPages tid row (table.firstPages (table.pageCount s.disk)) s = (.ok none, s₁))
    (hw : table.writeBytes s.disk ⟨table.id, table.pageCount s.disk⟩
      (Bytes.zeros table.pageSize) = .error e) :
    Added s table tid row (.error (.storage e), s₁)
  /-- All pages are full, and the page that was appended could not be had or did not take the
  row. -/
  | stuck {e : TableError} {s₁ s₂ : Store} {disk : Disk}
    (hsweep : insertInPages tid row (table.firstPages (table.pageCount s.disk)) s = (.ok none, s₁))
    (hw : table.writeBytes s.disk ⟨table.id, table.pageCount s.disk⟩
      (Bytes.zeros table.pageSize) = .ok disk)
    (hlast : insertInPage { s₁ with disk } tid ⟨table.id, table.pageCount s.disk⟩ row =
      (.error e, s₂)) :
    Added s table tid row (.error e, s₂)
  /-- All pages are full, and the page that was appended took the row. -/
  | appended {record : RecordId} {s₁ s₂ : Store} {disk : Disk}
    (hsweep : insertInPages tid row (table.firstPages (table.pageCount s.disk)) s = (.ok none, s₁))
    (hw : table.writeBytes s.disk ⟨table.id, table.pageCount s.disk⟩
      (Bytes.zeros table.pageSize) = .ok disk)
    (hlast : insertInPage { s₁ with disk } tid ⟨table.id, table.pageCount s.disk⟩ row =
      (.ok (some record), s₂)) :
    Added s table tid row (.ok record, s₂)

/-- Pages that are passed over leave the disk and the catalog as they were, and the store
coherent. -/
theorem of_sweep_none (hs : s.Coherent) (h : insertInPages tid row pages s = (.ok none, s₁)) :
    s₁.Coherent ∧ s₁.disk = s.disk ∧ s₁.catalog = s.catalog := by
  have hmoves := Fetches.moves (fetches_insertInPages_none h)
  have hdisk := disk_insertInPages tid row pages s
  rw [h] at hdisk
  exact ⟨hmoves.coherent hs, hdisk, Moves.catalog hmoves⟩

section

variable (hs : s.Coherent) (ht : s.catalog.table table.id = .ok table)
include hs ht

/-- The store with a page appended once all others were passed over: it is coherent, and shows what
it showed over the longer file. -/
theorem of_appended {disk : Disk} (hsweep : insertInPages tid row pages s = (.ok none, s₁))
    (hw : table.writeBytes s.disk ⟨table.id, table.pageCount s.disk⟩
      (Bytes.zeros table.pageSize) = .ok disk) :
    Coherent { s₁ with disk } ∧ view { s₁ with disk } = ⟨disk, s.view.catalog, s.view.changed⟩ := by
  obtain ⟨hs₁, hdisk, hcatalog⟩ := of_sweep_none hs hsweep
  constructor
  · rw [← hdisk] at hw
    exact (Move.grow (hcatalog ▸ ht) hw).coherent hs₁
  · show (⟨disk, s₁.view.catalog, s₁.view.changed⟩ : View) = _
    rw [(fetches_insertInPages_none hsweep).view hs]

/-- The page that is appended once all others were passed over is not full. -/
theorem insertInPage_appended {disk : Disk}
    (hsweep : insertInPages tid row pages s = (.ok none, s₁))
    (hw : table.writeBytes s.disk ⟨table.id, table.pageCount s.disk⟩
      (Bytes.zeros table.pageSize) = .ok disk) :
    insertInPage { s₁ with disk } tid ⟨table.id, table.pageCount s.disk⟩ row ≠ (.ok none, s₂) := by
  obtain ⟨hs₁, hdisk, hcatalog⟩ := of_sweep_none hs hsweep
  rw [← hcatalog] at ht
  rw [← hdisk] at hw ⊢
  exact insertInPage_behind hs₁ ht hw

/-- An insert that may make an attempt ends in one of these ways. -/
theorem added_insertGrowing (attempts : Nat) :
    s.Added table tid row (insertGrowing table tid row (attempts + 1) s) := by
  unfold insertGrowing
  dsimp only
  rcases hsweep : insertInPages tid row (table.firstPages (table.pageCount s.disk)) s with
    ⟨e | _ | record, s₁⟩
  · exact .failed hsweep
  · have hdisk : s₁.disk = s.disk := (of_sweep_none hs hsweep).2.1
    dsimp only
    rw [hdisk]
    rcases hw : table.writeBytes s.disk ⟨table.id, table.pageCount s.disk⟩
        (Bytes.zeros table.pageSize) with e | disk
    · exact .broken hsweep hw
    · dsimp only
      rcases hlast : insertInPage { s₁ with disk } tid ⟨table.id, table.pageCount s.disk⟩ row with
        ⟨e | _ | record, s₂⟩
      · exact .stuck hsweep hw hlast
      · exact absurd hlast (insertInPage_appended hs ht hsweep hw)
      · exact .appended hsweep hw hlast
  · exact .placed hsweep

/-- The first attempt of an insert is its last. -/
theorem insertGrowing_succ (attempts : Nat) :
    insertGrowing table tid row (attempts + 1) s = insertGrowing table tid row 1 s := by
  unfold insertGrowing
  dsimp only
  rcases hsweep : insertInPages tid row (table.firstPages (table.pageCount s.disk)) s with
    ⟨e | _ | record, s₁⟩
  · rfl
  · have hdisk : s₁.disk = s.disk := (of_sweep_none hs hsweep).2.1
    dsimp only
    rw [hdisk]
    rcases hw : table.writeBytes s.disk ⟨table.id, table.pageCount s.disk⟩
        (Bytes.zeros table.pageSize) with e | disk
    · rfl
    · dsimp only
      rcases hlast : insertInPage { s₁ with disk } tid ⟨table.id, table.pageCount s.disk⟩ row with
        ⟨e | _ | record, s₂⟩
      · rfl
      · exact absurd hlast (insertInPage_appended hs ht hsweep hw)
      · rfl
  · rfl

/-- An insert leaves the disk as it was, or with one empty page more. -/
theorem Added.disk (h : s.Added table tid row outcome) :
    outcome.2.disk = s.disk ∨ outcome.2.disk = table.grown s.disk := by
  have hpos := (hs.sound.table ht).pageSize_pos
  cases h with
  | failed hsweep | placed hsweep | broken hsweep hw =>
    have hdisk := disk_insertInPages tid row (table.firstPages (table.pageCount s.disk)) s
    rw [hsweep] at hdisk
    exact Or.inl hdisk
  | @stuck e s₁ s₂ disk hsweep hw hlast | @appended record s₁ s₂ disk hsweep hw hlast =>
    have hdisk := disk_insertInPage { s₁ with disk } tid ⟨table.id, table.pageCount s.disk⟩ row
    rw [hlast] at hdisk
    exact Or.inr (hdisk.trans ((Table.writeBytes_next_iff hpos).mp hw).2)

/-- An insert is a sequence of moves, however it ends. -/
theorem Added.moves (h : s.Added table tid row outcome) : Moves s outcome.2 := by
  cases h with
  | @failed e s₁ hsweep | @placed record s₁ hsweep | @broken e s₁ hsweep hw =>
    have hsteps := steps_insertInPages tid row (table.firstPages (table.pageCount s.disk)) hs.valid
    rw [hsweep] at hsteps
    exact hsteps.moves
  | @stuck e s₁ s₂ disk hsweep hw hlast | @appended record s₁ s₂ disk hsweep hw hlast =>
    obtain ⟨hs₁, hdisk, hcatalog⟩ := of_sweep_none hs hsweep
    have hgrown : Moves s { s₁ with disk } :=
      (fetches_insertInPages_none hsweep).moves.tail (.grow (hcatalog ▸ ht) (hdisk ▸ hw))
    have hsteps := @steps_insertInPage { s₁ with disk } hs₁.valid tid
      ⟨table.id, table.pageCount s.disk⟩ row
    rw [hlast] at hsteps
    exact hgrown.trans hsteps.moves

end

/-- The attempts of an insert do not run out. -/
theorem Added.ne_pageFull (h : s.Added table tid row outcome) (id : PageId) :
    outcome.1 ≠ .error (.pageFull id) := by
  intro hfull
  cases h with
  | @failed e s₁ hsweep =>
    have hne := @insertInPages_ne_pageFull tid row id (table.firstPages (table.pageCount s.disk)) s
    rw [hsweep] at hne
    obtain rfl := Except.error.inj hfull
    exact hne rfl
  | @stuck e s₁ s₂ disk hsweep hw hlast =>
    have hne := @insertInPage_ne_pageFull { s₁ with disk } tid row
      ⟨table.id, table.pageCount s.disk⟩ id
    rw [hlast] at hne
    obtain rfl := Except.error.inj hfull
    exact hne rfl
  | placed | broken | appended => cases hfull

end Store

end RowStore
