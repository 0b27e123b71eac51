import RowStore.Cursor
import RowStore.Proofs.Catalog

/-!
# RowStore.Proofs.View: a store without its cache

A `View` is what users of a store can tell about it: the disk, the catalog, and the pages that were
changed and not yet written.  There is no cache in it, so nothing is loaded, evicted or refused for
want of room.  Its operations are those of a store with `View.page` in place of a fetch.
-/

namespace RowStore

/-- A disk, its registered tables, and their pages that differ from it. -/
structure View where
  disk : Disk
  catalog : Catalog
  /-- The pages that were changed since they were last written. -/
  changed : PageId → Option Page

namespace View

/-- The page, changed or else from the disk. -/
def page (v : View) (page : PageId) : Except CacheError Page :=
  match v.changed page with
  | some content => .ok content
  | none => v.catalog.stored v.disk page

/-- The view with a changed page. -/
def put (v : View) (content : Page) : View :=
  { v with changed := fun page => if page = content.id then some content else v.changed page }

/-- The view on which a page shows as the disk has it. -/
def settle (v : View) (gone : PageId) : View :=
  { v with changed := fun page => if page = gone then none else v.changed page }

/-! ## Rows -/

/-- Puts a row into a page that has a free slot; `none` when it has none. -/
def insertInPage (v : View) (tid : TransactionId) (page : PageId) (row : Row) :
    Except TableError (Option RecordId) × View :=
  match v.page page with
  | .error e => (.error (.cache e), v)
  | .ok content =>
    if content.firstFree?.isNone then (.ok none, v)
    else
      match content.insert row with
      | .error e => (.error e, v)
      | .ok (record, changed) => (.ok (some record), v.put (changed.mark (some tid)))

/-- Puts a row into the first of the pages that has a free slot. -/
def insertInPages (tid : TransactionId) (row : Row) :
    List PageId → View → Except TableError (Option RecordId) × View
  | [], v => (.ok none, v)
  | page :: pages, v =>
    match v.insertInPage tid page row with
    | (.ok none, v) => insertInPages tid row pages v
    | done => done

/-- Inserts a row into the first page of a table that has a free slot, or into a page appended to
the table when there is none. -/
def insertInTable (v : View) (table : Table) (tid : TransactionId) (row : Row) :
    Except TableError RecordId × View :=
  let behind : PageId := ⟨table.id, table.pageCount v.disk⟩
  if row.schema.Agrees table.schema then
    match insertInPages tid row (table.firstPages (table.pageCount v.disk)) v with
    | (.error e, v) => (.error e, v)
    | (.ok (some record), v) => (.ok record, v)
    | (.ok none, v) =>
      match table.writeBytes v.disk behind (Bytes.zeros table.pageSize) with
      | .error e => (.error (.storage e), v)
      | .ok disk =>
        match insertInPage { v with disk } tid behind row with
        | (.error e, v) => (.error e, v)
        | (.ok (some record), v) => (.ok record, v)
        | (.ok none, v) => (.error (.pageFull behind), v)
  else
    (.error (.schemaMismatch table.schema row.schema), v)

/-- Inserts a row into the registered table with this identity. -/
def insertRow (v : View) (tid : TransactionId) (table : TableId) (row : Row) :
    Except TableError RecordId × View :=
  match v.catalog.table table with
  | .error e => (.error (.catalog e), v)
  | .ok table => v.insertInTable table tid row

/-- Deletes a row from a table, where its record says it is stored, and tells the page. -/
def deleteFromTable (v : View) (table : Table) (tid : TransactionId) (row : Row) :
    Except TableError PageId × View :=
  match row.record with
  | none => (.error .noRecord, v)
  | some record =>
    if record.page.table ≠ table.id then
      (.error (.wrongTable table.id record.page.table), v)
    else if table.pageCount v.disk ≤ record.page.number then
      (.error (.pageNotFound record.page), v)
    else
      match v.page record.page with
      | .error e => (.error (.cache e), v)
      | .ok content =>
        match content.delete row with
        | .error e => (.error e, v)
        | .ok changed => (.ok record.page, v.put (changed.mark (some tid)))

/-- Deletes a row from the registered table its record names. -/
def deleteRow (v : View) (tid : TransactionId) (row : Row) : Except TableError PageId × View :=
  match row.record with
  | none => (.error .noRecord, v)
  | some record =>
    match v.catalog.table record.page.table with
    | .error e => (.error (.catalog e), v)
    | .ok table => v.deleteFromTable table tid row

/-- A view in which an empty page was appended to a registered table. -/
def Grows (v v' : View) : Prop :=
  ∃ table disk, v.catalog.table table.id = .ok table ∧
    table.writeBytes v.disk ⟨table.id, table.pageCount v.disk⟩ (Bytes.zeros table.pageSize) =
      .ok disk ∧ v' = { v with disk }

/-! ## Transactions -/

/-- The disk after a page is written to its table's file. -/
def writeBack (v : View) (content : Page) : Except CacheError Disk :=
  match v.catalog.table content.id.table with
  | .error e => .error (.catalog e)
  | .ok table => (table.writePage v.disk content).mapError .storage

/-- Writes those of the given pages that `tid` changed, up to the first write that fails. -/
def commitPages (tid : TransactionId) : List PageId → View → Except CacheError Unit × View
  | [], v => (.ok (), v)
  | page :: pages, v =>
    match v.changed page with
    | none => commitPages tid pages v
    | some content =>
      if content.dirtier = some tid then
        match v.writeBack content with
        | .error e => (.error e, v)
        | .ok disk => commitPages tid pages ({ v with disk }.settle page)
      else
        commitPages tid pages v

/-- Forgets what `tid` changed. -/
def abort (v : View) (tid : TransactionId) : View :=
  { v with changed := fun page => (v.changed page).filter fun content =>
      content.dirtier ≠ some tid }

/-! ## Cursors -/

/-- Reads pages until one has a row, at most `remaining` of them.  Tells whether one had. -/
def fill (v : View) : (remaining : Nat) → Cursor → Except TableError Bool × Cursor
  | 0, cursor => (.ok false, cursor)
  | remaining + 1, cursor =>
    match v.page ⟨cursor.table.id, cursor.next⟩ with
    | .error e => (.error (.cache e), cursor)
    | .ok page =>
      match page.rows with
      | .error e => (.error e, cursor)
      | .ok [] => v.fill remaining { cursor with next := cursor.next + 1 }
      | .ok rows => (.ok true, { cursor with next := cursor.next + 1, buffer := rows })

/-- Whether there is another row, reading pages as needed. -/
def hasNext (v : View) (cursor : Cursor) : Except TableError Bool × Cursor :=
  if !cursor.isOpen then (.ok false, cursor)
  else if cursor.buffer.isEmpty then
    v.fill (cursor.table.pageCount v.disk - cursor.next) cursor
  else
    (.ok true, cursor)

/-- The next row, or `none` behind the last. -/
def pull (v : View) (cursor : Cursor) : Except TableError (Option Row) × Cursor :=
  match v.hasNext cursor with
  | (.error e, cursor) => (.error e, cursor)
  | (.ok false, cursor) => (.ok none, cursor)
  | (.ok true, cursor) => (.ok cursor.buffer.head?, { cursor with buffer := cursor.buffer.tail })

/-- The rows of `count` pages of a table, or why they cannot be read. -/
def rowsFrom (v : View) (table : TableId) : (next count : Nat) → Except TableError (List Row)
  | _, 0 => .ok []
  | next, count + 1 =>
    match v.page ⟨table, next⟩ with
    | .error e => .error (.cache e)
    | .ok content =>
      match content.rows with
      | .error e => .error e
      | .ok rows => (v.rowsFrom table (next + 1) count).map (rows ++ ·)

/-- All rows of a table, or why they cannot be read. -/
def scan (v : View) (table : Table) : Except TableError (List Row) :=
  v.rowsFrom table.id 0 (table.pageCount v.disk)

variable {v : View}

theorem rowsFrom_succ_eq_ok_iff {table : TableId} {next count : Nat} {rows : List Row} :
    v.rowsFrom table next (count + 1) = .ok rows ↔ ∃ content first rest,
      v.page ⟨table, next⟩ = .ok content ∧ content.rows = .ok first ∧
        v.rowsFrom table (next + 1) count = .ok rest ∧ rows = first ++ rest := by
  rw [rowsFrom]
  cases v.page ⟨table, next⟩ with
  | error e => simp
  | ok content =>
    cases hrows : content.rows with
    | error e => simp [hrows]
    | ok first => cases v.rowsFrom table (next + 1) count <;> simp [hrows, Except.map, eq_comm]

/-- The rows of some pages and those of the pages behind them. -/
theorem rowsFrom_add_eq_ok_iff {table : TableId} {next few more : Nat} {rows : List Row} :
    v.rowsFrom table next (few + more) = .ok rows ↔ ∃ first rest,
      v.rowsFrom table next few = .ok first ∧ v.rowsFrom table (next + few) more = .ok rest ∧
        rows = first ++ rest := by
  induction few generalizing next rows with
  | zero => simp [rowsFrom]
  | succ few ih =>
    rw [Nat.succ_add, rowsFrom_succ_eq_ok_iff]
    simp only [ih, rowsFrom_succ_eq_ok_iff, Nat.add_assoc, Nat.add_comm 1 few]
    constructor
    · rintro ⟨content, first, rest, hpage, hrows, ⟨second, third, hsecond, hthird, rfl⟩, rfl⟩
      exact ⟨first ++ second, third, ⟨content, first, second, hpage, hrows, hsecond, rfl⟩, hthird,
        (List.append_assoc ..).symm⟩
    · rintro ⟨_, third, ⟨content, first, second, hpage, hrows, hsecond, rfl⟩, hthird, rfl⟩
      exact ⟨content, first, second ++ third, hpage, hrows, ⟨second, third, hsecond, hthird, rfl⟩,
        List.append_assoc ..⟩

/-- Each of the pages whose rows were read could be read. -/
theorem exists_page_of_rowsFrom {table : TableId} {next count number : Nat} {rows : List Row}
    (h : v.rowsFrom table next count = .ok rows) (hle : next ≤ number) (hlt : number < next + count) :
    ∃ content found, v.page ⟨table, number⟩ = .ok content ∧ content.rows = .ok found := by
  obtain ⟨before, rfl⟩ := Nat.exists_eq_add_of_le hle
  obtain ⟨behind, rfl⟩ := Nat.exists_eq_add_of_le (Nat.succ_le_of_lt (Nat.add_lt_add_iff_left.mp hlt))
  rw [Nat.succ_add_eq_add_succ] at h
  obtain ⟨-, rest, -, hrest, -⟩ := rowsFrom_add_eq_ok_iff.mp h
  obtain ⟨content, found, -, hpage, hfound, -⟩ := rowsFrom_succ_eq_ok_iff.mp hrest
  exact ⟨content, found, hpage, hfound⟩

/-! ## What the operations leave alone -/

/-- A page without a free slot is left as it is. -/
theorem insertInPage_none {v' : View} {tid : TransactionId} {page : PageId} {row : Row}
    (h : v.insertInPage tid page row = (.ok none, v')) : v' = v := by
  unfold insertInPage at h
  cases hpage : v.page page with
  | error e => simp [hpage] at h
  | ok content =>
    simp only [hpage] at h
    split_ifs at h with hfull
    · exact (Prod.mk.inj h).2.symm
    · cases hinsert : content.insert row <;> simp [hinsert] at h

theorem insertInPages_none {tid : TransactionId} {row : Row} :
    ∀ {pages : List PageId} {v v' : View}, insertInPages tid row pages v = (.ok none, v') → v' = v
  | [], _, _, h => (Prod.mk.inj h).2.symm
  | page :: pages, v, v', h => by
    unfold insertInPages at h
    cases hinsert : v.insertInPage tid page row with
    | mk result v₁ =>
      rcases result with e | _ | record
      · simp [hinsert] at h
      · rw [hinsert] at h
        rw [insertInPages_none h, insertInPage_none hinsert]
      · simp [hinsert] at h

end View

end RowStore
