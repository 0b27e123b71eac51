import RowStore.Proofs.Store.Growing

/-!
# RowStore.Proofs.Store.Faults: inserts when the file system fails

An insert counts the pages of its table, reads those that are not cached, and may append one.  Each
of these is a call of the file system, and each may fail; `Faults` says how they go, one after
another.  The functions here are those of `Store.insertRow` with a fault at every such call, and
where no call fails they are those functions (`Store.addRowWith_nil`).

A read that fails changes nothing.  A write that fails has written the first of its bytes, so an
insert may leave a part of an empty page behind (`Store.AddedWith`).
-/

namespace RowStore

/-- A call of the file system that fails: why, and how many bytes a write had written by then. -/
structure Fault where
  cause : String
  written : Nat
  deriving DecidableEq, Repr

/-- The error a call that fails is answered with. -/
def Fault.error (fault : Fault) : StorageError :=
  .io fault.cause

/-- How calls of the file system go, one after another; the calls behind the list go well. -/
abbrev Faults := List (Option Fault)

/-- How the next call goes, and those behind it. -/
def Faults.next : Faults → Option Fault × Faults
  | [] => (none, [])
  | fault :: faults => (fault, faults)

/-- Whether a call of the file system failed. -/
def TableError.isIo : TableError → Bool
  | .storage (.io _) | .cache (.storage (.io _)) => true
  | _ => false

namespace Table

/-- The disk behind a write that stops after some bytes.  A write that is refused writes none. -/
def tear (table : Table) (disk : Disk) (page : PageId) (data : Bytes) (written : Nat) : Disk :=
  match table.writeBytes disk page data with
  | .error _ => disk
  | .ok _ =>
    if written = 0 then disk
    else disk.write table.file
      ((disk.contents table.file).splice (page.offset table.pageSize) (data.take written))

/-- Appends an empty page behind the first `count`, once the pages were counted again. -/
def appendWith (faults : Faults) (table : Table) (disk : Disk) (count : Nat) :
    (Except StorageError Unit × Disk) × Faults :=
  let page : PageId := ⟨table.id, count⟩
  let data := Bytes.zeros table.pageSize
  match faults.next with
  | (some fault, faults) => ((.error fault.error, disk), faults)
  | (none, faults) =>
    match faults.next with
    | (some fault, faults) =>
      ((.error fault.error, table.tear disk page data fault.written), faults)
    | (none, faults) =>
      match table.writeBytes disk page data with
      | .error e => ((.error e, disk), faults)
      | .ok disk => ((.ok (), disk), faults)

end Table

namespace Store

/-- How the read goes that a fetch of the page makes; only a page that is not cached is read. -/
def readWith (faults : Faults) (s : Store) (page : PageId) : Option Fault × Faults :=
  if (s.cache.find? page).isNone && (s.catalog.table page.table).isOk then faults.next
  else (none, faults)

/-- `Store.insertInPage`, with how the calls of the file system go. -/
def insertInPageWith (faults : Faults) (s : Store) (tid : TransactionId) (page : PageId)
    (row : Row) : (Except TableError (Option RecordId) × Store) × Faults :=
  match s.readWith faults page with
  | (some fault, faults) => ((.error (.cache (.storage fault.error)), s), faults)
  | (none, faults) => (s.insertInPage tid page row, faults)

/-- `Store.insertInPages`, with how the calls of the file system go. -/
def insertInPagesWith (tid : TransactionId) (row : Row) :
    List PageId → Faults → Store → (Except TableError (Option RecordId) × Store) × Faults
  | [], faults, s => ((.ok none, s), faults)
  | page :: pages, faults, s =>
    match s.insertInPageWith faults tid page row with
    | ((.ok none, s), faults) => insertInPagesWith tid row pages faults s
    | done => done

/-- `Store.insertGrowing`, with how the calls of the file system go. -/
def insertGrowingWith (table : Table) (tid : TransactionId) (row : Row) :
    (attempts : Nat) → Faults → Store → (Except TableError RecordId × Store) × Faults
  | 0, faults, s => ((.error (.pageFull ⟨table.id, table.pageCount s.disk⟩), s), faults)
  | attempts + 1, faults, s =>
    let count := table.pageCount s.disk
    match faults.next with
    | (some fault, faults) => ((.error (.storage fault.error), s), faults)
    | (none, faults) =>
      match insertInPagesWith tid row (table.firstPages count) faults s with
      | ((.error e, s), faults) => ((.error e, s), faults)
      | ((.ok (some record), s), faults) => ((.ok record, s), faults)
      | ((.ok none, s), faults) =>
        match table.appendWith faults s.disk count with
        | ((.error e, disk), faults) => ((.error (.storage e), { s with disk }), faults)
        | ((.ok (), disk), faults) =>
          match insertInPageWith faults { s with disk } tid ⟨table.id, count⟩ row with
          | ((.error e, s), faults) => ((.error e, s), faults)
          | ((.ok (some record), s), faults) => ((.ok record, s), faults)
          | ((.ok none, s), faults) => insertGrowingWith table tid row attempts faults s

/-- `Store.insertRow`, with how the calls of the file system go. -/
def insertRowWith (faults : Faults) (s : Store) (tid : TransactionId) (table : TableId)
    (row : Row) : (Except TableError RecordId × Store) × Faults :=
  match s.catalog.table table with
  | .error e => ((.error (.catalog e), s), faults)
  | .ok table =>
    if row.schema.Agrees table.schema then
      insertGrowingWith table tid row (s.cache.size + 1) faults s
    else
      ((.error (.schemaMismatch table.schema row.schema), s), faults)

/-- `Store.addRow`, with how the calls of the file system go. -/
def addRowWith (faults : Faults) (s : Store) (tid : TransactionId) (table : TableId) (row : Row) :
    (Except TableError (List PageId) × Row × Store) × Faults :=
  let (outcome, faults) := s.insertRowWith faults tid table row
  (told row outcome, faults)

variable {s s' s₁ : Store} {tid : TransactionId} {row : Row} {page : PageId} {pages : List PageId}
  {table : Table} {id : TableId} {faults : Faults}

/-! ## No faults -/

theorem insertInPageWith_nil : s.insertInPageWith [] tid page row = (s.insertInPage tid page row, [])
    := by
  have hread : s.readWith [] page = (none, []) := by
    unfold readWith
    split_ifs <;> rfl
  rw [insertInPageWith, hread]

theorem insertInPagesWith_nil : ∀ (pages : List PageId) (s : Store),
    insertInPagesWith tid row pages [] s = (insertInPages tid row pages s, [])
  | [], _ => rfl
  | page :: pages, s => by
    rw [insertInPagesWith, insertInPages, insertInPageWith_nil]
    rcases s.insertInPage tid page row with ⟨e | _ | record, s'⟩
    · rfl
    · exact insertInPagesWith_nil pages s'
    · rfl

theorem appendWith_nil (table : Table) (disk : Disk) (count : Nat) :
    table.appendWith [] disk count =
      match table.writeBytes disk ⟨table.id, count⟩ (Bytes.zeros table.pageSize) with
      | .error e => ((.error e, disk), [])
      | .ok disk => ((.ok (), disk), []) := rfl

theorem insertGrowingWith_nil : ∀ (attempts : Nat) (s : Store),
    insertGrowingWith table tid row attempts [] s = (insertGrowing table tid row attempts s, [])
  | 0, _ => rfl
  | attempts + 1, s => by
    rw [insertGrowingWith, insertGrowing, Faults.next]
    dsimp only
    rw [insertInPagesWith_nil]
    rcases insertInPages tid row (table.firstPages (table.pageCount s.disk)) s with
      ⟨e | _ | record, s₁⟩
    · rfl
    · dsimp only
      rw [appendWith_nil]
      cases table.writeBytes s₁.disk ⟨table.id, table.pageCount s.disk⟩
        (Bytes.zeros table.pageSize) with
      | error e => rfl
      | ok disk =>
        dsimp only
        rw [insertInPageWith_nil]
        rcases insertInPage { s₁ with disk } tid ⟨table.id, table.pageCount s.disk⟩ row with
          ⟨e | _ | record, s₂⟩
        · rfl
        · exact insertGrowingWith_nil attempts s₂
        · rfl
    · rfl

/-- Where no call of the file system fails a row is added as without faults. -/
theorem addRowWith_nil (s : Store) (tid : TransactionId) (id : TableId) (row : Row) :
    s.addRowWith [] tid id row = (s.addRow tid id row, []) := by
  unfold addRowWith addRow insertRowWith insertRow
  cases s.catalog.table id with
  | error e => rfl
  | ok table =>
    dsimp only [insertInTable]
    split_ifs
    · rw [insertGrowingWith_nil]
    · rfl

/-! ## How an insert can end -/

/-- A page takes the row as without faults, unless it cannot be read. -/
theorem insertInPageWith_eq :
    (s.insertInPageWith faults tid page row).1 = s.insertInPage tid page row ∨
      ∃ fault : Fault, (s.insertInPageWith faults tid page row).1 =
        (.error (.cache (.storage fault.error)), s) := by
  unfold insertInPageWith
  rcases s.readWith faults page with ⟨_ | fault, rest⟩
  · exact Or.inl rfl
  · exact Or.inr ⟨fault, rfl⟩

/-- One of the pages takes the row as without faults, unless one of them cannot be read; those
before it were fetched. -/
theorem insertInPagesWith_eq :
    (insertInPagesWith tid row pages faults s).1 = insertInPages tid row pages s ∨
      ∃ (fault : Fault) (s₁ : Store), (insertInPagesWith tid row pages faults s).1 =
        (.error (.cache (.storage fault.error)), s₁) ∧ Fetches s s₁ := by
  induction pages generalizing faults s with
  | nil => exact Or.inl rfl
  | cons page pages ih =>
    have hfirst := @insertInPageWith_eq s tid row page faults
    rw [insertInPagesWith, insertInPages]
    generalize s.insertInPageWith faults tid page row = out at hfirst ⊢
    obtain ⟨outcome, rest⟩ := out
    obtain rfl | ⟨fault, rfl⟩ := hfirst
    · rcases hinsert : s.insertInPage tid page row with ⟨e | _ | record, s'⟩
      · exact Or.inl rfl
      · obtain heq | ⟨fault, s₁, heq, hfetches⟩ := @ih s' rest
        · exact Or.inl heq
        · obtain rfl := insertInPage_none hinsert
          exact Or.inr ⟨fault, s₁, heq, (fetches_fetch s page).trans hfetches⟩
      · exact Or.inl rfl
    · exact Or.inr ⟨fault, s, rfl, .refl⟩

/-- How an insert into a table can end when calls of the file system may fail. -/
inductive AddedWith (s : Store) (table : Table) (tid : TransactionId) (row : Row) :
    Except TableError RecordId × Store → Prop
  /-- As without faults. -/
  | added {outcome : Except TableError RecordId × Store} (h : s.Added table tid row outcome) :
    AddedWith s table tid row outcome
  /-- A call failed before anything was written. -/
  | unread {e : TableError} {s₁ : Store} (hio : e.isIo = true) (hfetches : Fetches s s₁) :
    AddedWith s table tid row (.error e, s₁)
  /-- No page took the row, and a call failed once some of an empty page was appended. -/
  | torn {e : TableError} {s₁ : Store} {count : Nat} (hio : e.isIo = true)
    (hsweep : insertInPages tid row (table.firstPages (table.pageCount s.disk)) s = (.ok none, s₁))
    (hwhole : (s.disk.contents table.file).length = table.pageCount s.disk * table.pageSize)
    (hpos : 0 < count) (hle : count ≤ table.pageSize) :
    AddedWith s table tid row (.error e, { s₁ with disk := table.grownBy count s.disk })

/-- A page is appended, or is refused, or a call fails before or while it is written. -/
theorem appendWith_eq (hpos : 0 < table.pageSize) (disk : Disk) :
    (∃ grown, (table.appendWith faults disk (table.pageCount disk)).1 = (.ok (), grown) ∧
      table.writeBytes disk ⟨table.id, table.pageCount disk⟩ (Bytes.zeros table.pageSize) =
        .ok grown) ∨
    (∃ e, (table.appendWith faults disk (table.pageCount disk)).1 = (.error e, disk) ∧
      (table.writeBytes disk ⟨table.id, table.pageCount disk⟩ (Bytes.zeros table.pageSize) =
        .error e ∨ ∃ fault : Fault, e = fault.error)) ∨
    ∃ (fault : Fault) (count : Nat), (table.appendWith faults disk (table.pageCount disk)).1 =
        (.error fault.error, table.grownBy count disk) ∧
      (disk.contents table.file).length = table.pageCount disk * table.pageSize ∧
      0 < count ∧ count ≤ table.pageSize := by
  unfold Table.appendWith
  rcases faults.next with ⟨_ | fault, rest⟩
  · dsimp only
    rcases rest.next with ⟨_ | fault, rest⟩
    · cases hw : table.writeBytes disk ⟨table.id, table.pageCount disk⟩
          (Bytes.zeros table.pageSize) with
      | error e => exact Or.inr (Or.inl ⟨e, rfl, Or.inl rfl⟩)
      | ok grown => exact Or.inl ⟨grown, rfl, rfl⟩
    · dsimp only [Table.tear]
      cases hw : table.writeBytes disk ⟨table.id, table.pageCount disk⟩
          (Bytes.zeros table.pageSize) with
      | error e => exact Or.inr (Or.inl ⟨_, rfl, Or.inr ⟨fault, rfl⟩⟩)
      | ok grown =>
        dsimp only
        split_ifs with hzero
        · exact Or.inr (Or.inl ⟨_, rfl, Or.inr ⟨fault, rfl⟩⟩)
        · have hwhole := ((Table.writeBytes_next_iff hpos).mp hw).1
          have hzeros : (Bytes.zeros table.pageSize).take fault.written =
              Bytes.zeros (min fault.written table.pageSize) := List.take_replicate
          refine Or.inr (Or.inr ⟨fault, min fault.written table.pageSize, ?_, hwhole, by omega,
            Nat.min_le_right _ _⟩)
          rw [PageId.offset, ← hwhole, Bytes.splice_length, hzeros]
          rfl
  · exact Or.inr (Or.inl ⟨_, rfl, Or.inr ⟨fault, rfl⟩⟩)

/-- An insert that may make an attempt ends in one of these ways. -/
theorem added_insertGrowingWith (hs : s.Coherent) (ht : s.catalog.table table.id = .ok table)
    (attempts : Nat) :
    s.AddedWith table tid row (insertGrowingWith table tid row (attempts + 1) faults s).1 := by
  have hpos := (hs.sound.table ht).pageSize_pos
  unfold insertGrowingWith
  dsimp only
  rcases faults.next with ⟨_ | fault, rest⟩
  · dsimp only
    have hpages := @insertInPagesWith_eq s tid row (table.firstPages (table.pageCount s.disk)) rest
    generalize insertInPagesWith tid row (table.firstPages (table.pageCount s.disk)) rest s = out
      at hpages ⊢
    obtain ⟨outcome, rest⟩ := out
    obtain hsweep | ⟨fault, s₁, rfl, hfetches⟩ := hpages
    · rcases outcome with ⟨e | _ | record, s₁⟩
      · exact .added (.failed hsweep.symm)
      · have hsweep := hsweep.symm
        have hfetches := fetches_insertInPages_none hsweep
        have hdisk : s₁.disk = s.disk := (of_sweep_none hs hsweep).2.1
        have hsame : { s₁ with disk := s.disk } = s₁ := by rw [← hdisk]
        have happend := @appendWith_eq table rest hpos s.disk
        dsimp only
        rw [hdisk]
        generalize table.appendWith rest s.disk (table.pageCount s.disk) = out at happend ⊢
        obtain ⟨outcome, rest⟩ := out
        obtain ⟨disk, rfl, hw⟩ | ⟨e, rfl, hrefused | ⟨fault, rfl⟩⟩ |
          ⟨fault, count, rfl, hwhole, hcount, hle⟩ := happend
        · have hlast := @insertInPageWith_eq { s₁ with disk } tid row
            ⟨table.id, table.pageCount s.disk⟩ rest
          dsimp only
          generalize insertInPageWith rest { s₁ with disk } tid ⟨table.id, table.pageCount s.disk⟩
            row = out at hlast ⊢
          obtain ⟨outcome, rest⟩ := out
          obtain hinsert | ⟨fault, rfl⟩ := hlast
          · rcases outcome with ⟨e | _ | record, s₂⟩
            · exact .added (.stuck hsweep hw hinsert.symm)
            · exact absurd hinsert.symm (insertInPage_appended hs ht hsweep hw)
            · exact .added (.appended hsweep hw hinsert.symm)
          · obtain ⟨hwhole, rfl⟩ := (Table.writeBytes_next_iff hpos).mp hw
            exact .torn rfl hsweep hwhole hpos (Nat.le_refl _)
        · dsimp only
          rw [hsame]
          exact .added (.broken hsweep hrefused)
        · dsimp only
          rw [hsame]
          exact .unread rfl hfetches
        · exact .torn rfl hsweep hwhole hcount hle
      · exact .added (.placed hsweep.symm)
    · exact .unread rfl hfetches
  · exact .unread rfl .refl

/-- An insert is refused for want of a table that takes the row, or goes to that table. -/
theorem insertRowWith_cases (hs : s.Coherent) (faults : Faults) (tid : TransactionId)
    (id : TableId) (row : Row) :
    (∃ e, (s.insertRowWith faults tid id row).1 = (.error e, s)) ∨
      ∃ table, table.id = id ∧ s.catalog.table id = .ok table ∧
        row.schema.Agrees table.schema ∧
        s.AddedWith table tid row (s.insertRowWith faults tid id row).1 := by
  unfold insertRowWith
  cases ht : s.catalog.table id with
  | error e => exact Or.inl ⟨_, rfl⟩
  | ok table =>
    obtain ⟨hid, -⟩ := Catalog.mem_of_table ht
    dsimp only
    by_cases hagree : row.schema.Agrees table.schema
    · rw [if_pos hagree]
      exact Or.inr ⟨table, hid, rfl, hagree, added_insertGrowingWith hs (hid ▸ ht) s.cache.size⟩
    · rw [if_neg hagree]
      exact Or.inl ⟨_, rfl⟩

end Store

end RowStore
