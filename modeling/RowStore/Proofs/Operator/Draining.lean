import RowStore.Proofs.Operator.Lifecycle
import RowStore.Proofs.Operator.Matching
import RowStore.Proofs.Operator.Reading
import RowStore.Proofs.Store.Entries
import RowStore.Proofs.View.Advance

/-!
# RowStore.Proofs.Operator.Draining: the rows of a child, while tables are changed

An operator that inserts or deletes does so between two rows of its child.  As long as the pages
the child has still to read are left alone, it hands out the rows it would have handed out of the
store as it was when the child was opened (`Operator.Supplies`).  `Operator.Ended` says how the loop
over them can end, for whatever is kept from one row to the next, and `Operator.Applies` what opening
the operator comes to.
-/

namespace RowStore

namespace View

variable {v : View} {table : TableId} {next count : Nat} {rows : List Row}

/-- The rows of the pages of a table up to the first that cannot be read. -/
def firstRows (v : View) (table : TableId) (next : Nat) : (count : Nat) → List Row
  | 0 => []
  | count + 1 =>
    match v.page ⟨table, next⟩ with
    | .error _ => []
    | .ok content =>
      match content.rows with
      | .error _ => []
      | .ok rows => rows ++ firstRows v table (next + 1) count

theorem firstRows_add (h : v.rowsFrom table next count = .ok rows) (more : Nat) :
    v.firstRows table next (count + more) = rows ++ v.firstRows table (next + count) more := by
  induction count generalizing next rows with
  | zero =>
    cases h
    rw [Nat.zero_add]
    rfl
  | succ count ih =>
    obtain ⟨content, first, rest, hpage, hfirst, hrest, rfl⟩ := rowsFrom_succ_eq_ok_iff.mp h
    rw [Nat.add_right_comm, firstRows, hpage]
    dsimp only
    rw [hfirst]
    dsimp only
    rw [ih hrest, List.append_assoc, Nat.add_right_comm, Nat.add_assoc]

/-- They are the rows of some of the pages. -/
theorem exists_rowsFrom_firstRows (v : View) (table : TableId) (next count : Nat) :
    ∃ read ≤ count, v.rowsFrom table next read = .ok (v.firstRows table next count) := by
  induction count generalizing next with
  | zero => exact ⟨0, Nat.le_refl _, rfl⟩
  | succ count ih =>
    unfold firstRows
    cases hpage : v.page ⟨table, next⟩ with
    | error e => exact ⟨0, Nat.zero_le _, rfl⟩
    | ok content =>
      dsimp only
      cases hfirst : content.rows with
      | error e => exact ⟨0, Nat.zero_le _, rfl⟩
      | ok first =>
        obtain ⟨read, hle, hrest⟩ := ih (next + 1)
        exact ⟨read + 1, by omega, rowsFrom_succ_eq_ok_iff.mpr ⟨content, first, _, hpage, hfirst,
          hrest, rfl⟩⟩

end View

/-- The row as the scan hands it out. -/
def TableScan.relabel (source : TableScan) (row : Row) : Row :=
  { row with schema := source.schema }

/-! ## A table that is read while others are changed -/

/-- A scan that was opened on `s` has handed out the rows `seen` of its table; `t` has the pages it
has still to read as `s` had them. -/
structure Reading (s : Store) (table : Table) (t : Store) (cursor : Cursor) (seen : List Row) :
    Prop where
  registered : t.catalog.table table.id = .ok table
  cursor_table : cursor.table = table
  isOpen : cursor.isOpen = true
  next_le : cursor.next ≤ table.pageCount s.disk
  read : s.view.rowsFrom table.id 0 cursor.next = .ok (seen ++ cursor.buffer)
  pageCount : table.pageCount t.disk = table.pageCount s.disk
  ahead : ∀ number, cursor.next ≤ number → number < table.pageCount s.disk →
    t.view.page ⟨table.id, number⟩ = s.view.page ⟨table.id, number⟩

namespace Reading

variable {s t t' : Store} {table : Table} {cursor : Cursor} {seen : List Row}

theorem start (ht : s.catalog.table table.id = .ok table) :
    Reading s table s (Cursor.start { table }) [] :=
  ⟨ht, rfl, rfl, Nat.zero_le _, rfl, rfl, fun _ _ _ => rfl⟩

/-- The pages the scan has not read are still those of `s` after a change elsewhere. -/
theorem changed (h : Reading s table t cursor seen) (hcatalog : t'.catalog = t.catalog)
    (hcount : table.pageCount t'.disk = table.pageCount t.disk)
    (hpages : ∀ number, cursor.next ≤ number → number < table.pageCount t.disk →
      t'.view.page ⟨table.id, number⟩ = t.view.page ⟨table.id, number⟩) :
    Reading s table t' cursor seen := by
  refine ⟨hcatalog ▸ h.registered, h.cursor_table, h.isOpen, h.next_le, h.read,
    hcount.trans h.pageCount, ?_⟩
  intro number hle hlt
  rw [hpages number hle (h.pageCount ▸ hlt)]
  exact h.ahead number hle hlt

/-- Asking for the next row reads on, whatever the answer. -/
theorem pull (h : Reading s table t cursor seen) (ht : t.Coherent) :
    Reading s table (cursor.pull t).2.2 (cursor.pull t).2.1
      (seen ++ Cursor.handed (cursor.pull t).1) := by
  have hview := (Store.pull_refines ht cursor).1
  have hadvance := Cursor.advance_pull ht h.isOpen
  have hbuffer := @Cursor.buffer_append_taken cursor t h.isOpen
  have hdisk : (cursor.pull t).2.2.disk = t.disk := congrArg View.disk hview
  have hcatalog : (cursor.pull t).2.2.catalog = t.catalog := congrArg View.catalog hview
  -- no page is passed behind the last
  have hnext : (cursor.pull t).2.1.next ≤ table.pageCount s.disk := by
    by_contra hpast
    obtain ⟨content, hpage⟩ := hadvance.exists_page h.next_le (by omega)
    rw [h.cursor_table] at hpage
    have hlt : table.pageCount s.disk < table.pageCount t.disk :=
      ht.number_lt_pageCount hpage h.registered
    rw [h.pageCount] at hlt
    exact Nat.lt_irrefl _ hlt
  refine ⟨hcatalog ▸ h.registered, (cursor.table_pull t).trans h.cursor_table,
    hadvance.isOpen.trans h.isOpen, hnext, ?_, hdisk ▸ h.pageCount, ?_⟩
  · -- the pages that were passed are those of `s`
    have hsame : s.view.Advance cursor (cursor.pull t).2.1 (cursor.taken t) := by
      refine hadvance.congr fun number hle hlt => ?_
      rw [h.cursor_table, h.ahead number hle (by omega)]
    have hpassed := hsame.passed
    rw [h.cursor_table] at hpassed
    rw [← Nat.add_sub_cancel' hadvance.next_le, View.rowsFrom_add_eq_ok_iff]
    refine ⟨_, _, h.read, by rw [Nat.zero_add]; exact hpassed, ?_⟩
    rw [List.append_assoc, List.append_assoc, hbuffer]
  · intro number hle hlt
    rw [hview]
    exact h.ahead number (Nat.le_trans hadvance.next_le hle) hlt

/-- When there is no further row the table was read to its end. -/
theorem ended (h : Reading s table t cursor seen) (ht : t.Coherent)
    (hnone : (cursor.pull t).1 = .ok none) : s.view.scan table = .ok seen := by
  have hpulled := h.pull ht
  obtain ⟨hbuffer, hcount⟩ := Cursor.pull_eq_none h.isOpen hnone
  rw [h.cursor_table, h.pageCount] at hcount
  have hread := hpulled.read
  rw [hnone, hbuffer, Nat.le_antisymm hpulled.next_le hcount, List.append_nil,
    show Cursor.handed (.ok none) = [] from rfl, List.append_nil] at hread
  exact hread

/-- The rows that were handed out are the first rows of the table. -/
theorem prefix_firstRows (h : Reading s table t cursor seen) :
    seen <+: s.view.firstRows table.id 0 (table.pageCount s.disk) := by
  have hrows := View.firstRows_add h.read (table.pageCount s.disk - cursor.next)
  rw [Nat.add_sub_cancel' h.next_le, List.append_assoc] at hrows
  exact ⟨_, hrows.symm⟩

/-- They are stored on pages the scan has read. -/
theorem passed (h : Reading s table t cursor seen) (hs : s.Coherent) {row : Row}
    (hrow : row ∈ seen) : ∃ record, s.view.entries record = some row ∧ row.record = some record ∧
      record.page.table = table.id ∧ record.page.number < cursor.next := by
  have hlists := View.lists_rowsFrom hs.keyed_view h.read
  obtain ⟨record, ⟨htable, -, hlt⟩, hentry, hrecord⟩ :=
    hlists.of_mem (List.mem_append_left _ hrow)
  exact ⟨record, hentry, hrecord, htable, by omega⟩

end Reading

/-- A scan hands out the row of its cursor under its own schema. -/
theorem TableScan.next_eq_ok_some {scan scan' : TableScan} {s s' : Store} {found : Row}
    {cursor : Cursor} (hcursor : scan.cursor = some cursor)
    (h : scan.next s = (.ok (some found), scan', s')) :
    ∃ row, (cursor.pull s).1 = .ok (some row) ∧ found = scan.relabel row ∧
      scan' = { scan with cursor := some (cursor.pull s).2.1 } ∧ s' = (cursor.pull s).2.2 := by
  have hmoved := scan.snd_next hcursor s
  rw [h] at hmoved
  obtain ⟨hscan, hstore⟩ := Prod.mk.inj hmoved
  unfold next at h
  rw [hcursor] at h
  dsimp only at h
  rcases hpull : cursor.pull s with ⟨e | _ | row, cursor', s''⟩
  · rw [hpull] at h
    cases h
  · rw [hpull] at h
    cases h
  · rw [hpull] at h
    dsimp only at h
    refine ⟨row, rfl, ?_, by rw [hscan, hpull], by rw [hstore, hpull]⟩
    unfold Row.withSchema at h
    split_ifs at h with hagree
    · exact (Option.some.inj (Except.ok.inj (Prod.mk.inj h).1)).symm
    · cases h

namespace Operator

variable {s t t' : Store} {child op op' : Operator} {done rows : List Row} {row : Row}

/-! ## Rows from memory and rows of a table -/

/-- The operator has no child. -/
def IsLeaf : Operator → Prop
  | .values _ | .scan _ => True
  | _ => False

/-- The rows that the operator has to hand out, up to the first page that cannot be read. -/
def offered (s : Store) : Operator → List Row
  | .values list => list.rows
  | .scan source =>
    match s.catalog.table source.table with
    | .error _ => []
    | .ok table =>
      (s.view.firstRows table.id 0 (table.pageCount s.disk)).map source.relabel
  | _ => []

/-- The rows are all rows of the list, or all rows of the table, which can be read to its end. -/
def Yields (s : Store) (rows : List Row) : Operator → Prop
  | .values list => rows = list.rows
  | .scan source => ∃ table found, s.catalog.table source.table = .ok table ∧
    s.view.scan table = .ok found ∧ rows = found.map source.relabel
  | _ => False

/-- All rows are all that is offered. -/
theorem Yields.eq_offered (h : child.Yields s rows) : rows = child.offered s := by
  cases child with
  | values list => exact h
  | scan source =>
    obtain ⟨table, found, htable, hscan, rfl⟩ := h
    have hrows := View.firstRows_add hscan 0
    rw [offered, htable]
    dsimp only
    rw [← Nat.add_zero (table.pageCount s.disk), ← Store.disk_view, hrows]
    simp [View.firstRows]
  | _ => exact h.elim

/-- `op` is the child, opened on `s`, after it has handed out some rows; `t` has what it has still
to hand out as `s` had it. -/
inductive Supplies (s : Store) : Operator → Operator → Store → List Row → Prop
  | values {list : ValueList} {t : Store} {position : Nat} (hle : position ≤ list.rows.length) :
    Supplies s (.values list) (.values { list with position, isOpen := true }) t
      (list.rows.take position)
  | scan {source : TableScan} {table : Table} {t : Store} {cursor : Cursor} {seen : List Row}
    (hregistered : s.catalog.table source.table = .ok table)
    (hagree : table.schema.Agrees source.schema) (h : Reading s table t cursor seen) :
    Supplies s (.scan source) (.scan { source with cursor := some cursor }) t
      (seen.map source.relabel)

/-- Opening a closed operator that has no child changes nothing. -/
theorem supplies_start (hleaf : child.IsLeaf) (hclosed : child.AllClosed) :
    (child.start s).2.2 = s ∧
      ((child.start s).1 = .ok () → Supplies s child (child.start s).2.1 s []) := by
  cases child with
  | values list =>
    have hopen : list.isOpen = false := hclosed
    rw [start, ValueList.start, hopen]
    exact ⟨rfl, fun _ => .values (Nat.zero_le _)⟩
  | scan source =>
    have hcursor : source.cursor.isSome = false := hclosed
    rw [start, TableScan.start, hcursor]
    rw [if_neg Bool.false_ne_true]
    cases htable : s.catalog.table source.table with
    | error e => exact ⟨rfl, fun h => by cases h⟩
    | ok table =>
      dsimp only
      split_ifs with hagree
      · obtain ⟨hid, -⟩ := Catalog.mem_of_table htable
        exact ⟨rfl, fun _ => .scan htable hagree (.start (hid ▸ htable))⟩
      · exact ⟨rfl, fun h => by cases h⟩
  | _ => exact hleaf.elim

namespace Supplies

/-- What was handed out is the beginning of what was offered. -/
theorem prefix_offered (h : Supplies s child op t done) : done <+: child.offered s := by
  cases h with
  | values hle => exact List.take_prefix _ _
  | scan hregistered hagree h =>
    rw [offered, hregistered]
    exact h.prefix_firstRows.map _

/-- The next row. -/
theorem next_some (h : Supplies s child op t done) (ht : t.Coherent)
    (hnext : op.next t = (.ok (some row), op', t')) :
    Supplies s child op' t' (done ++ [row]) ∧ Store.Fetches t t' := by
  have hfetches := op.fetches_next t
  rw [hnext] at hfetches
  refine ⟨?_, hfetches⟩
  cases h with
  | @values list _ position hle =>
    rw [next, ValueList.next, if_pos rfl] at hnext
    dsimp only at hnext
    cases hrow : list.rows[position]? with
    | none => simp [hrow] at hnext
    | some found =>
      simp only [hrow, Prod.mk.injEq, Except.ok.injEq, Option.some.injEq] at hnext
      obtain ⟨rfl, rfl, rfl⟩ := hnext
      obtain ⟨hlt, -⟩ := List.getElem?_eq_some_iff.mp hrow
      have hdone : list.rows.take position ++ [found] = list.rows.take (position + 1) := by
        rw [List.take_add_one, hrow]
        rfl
      rw [hdone]
      exact .values hlt
  | @scan source table _ cursor seen hregistered hagree h =>
    rw [next] at hnext
    rcases hmoved : TableScan.next { source with cursor := some cursor } t with
      ⟨result, source', t''⟩
    simp only [hmoved, Prod.mk.injEq] at hnext
    obtain ⟨rfl, rfl, rfl⟩ := hnext
    obtain ⟨found, hpull, rfl, rfl, rfl⟩ := TableScan.next_eq_ok_some rfl hmoved
    have hpulled := h.pull ht
    rw [hpull] at hpulled
    have hdone : seen.map source.relabel ++ [source.relabel found] =
        (seen ++ [found]).map source.relabel := by
      rw [List.map_append]
      rfl
    show Supplies s _ _ _ (seen.map source.relabel ++ [source.relabel found])
    rw [hdone]
    exact .scan hregistered hagree hpulled

/-- When there is no further row all were handed out. -/
theorem next_none (h : Supplies s child op t done) (ht : t.Coherent)
    (hnext : (op.next t).1 = .ok none) : child.Yields s done := by
  cases h with
  | @values list _ position hle =>
    rw [next, ValueList.next, if_pos rfl] at hnext
    dsimp only at hnext
    cases hrow : list.rows[position]? with
    | none =>
      rw [List.getElem?_eq_none_iff] at hrow
      exact List.take_of_length_le hrow
    | some found => simp [hrow] at hnext
  | @scan source table _ cursor seen hregistered hagree h =>
    refine ⟨table, seen, hregistered, h.ended ht ?_, rfl⟩
    rw [next] at hnext
    rcases @TableScan.next_cases { source with cursor := some cursor } cursor rfl t with
      ⟨e, hmoved⟩ | ⟨hnone, -⟩ | ⟨found, relabelled, -, hmoved⟩
    · rw [hmoved] at hnext
      cases hnext
    · exact hnone
    · rw [hmoved] at hnext
      cases hnext

end Supplies

/-- The operator has still to read the page. -/
def Ahead (page : PageId) : Operator → Prop
  | .scan source => ∃ cursor, source.cursor = some cursor ∧ page.table = cursor.table.id ∧
    cursor.next ≤ page.number
  | _ => False

namespace Supplies

/-- Changes elsewhere make no difference to what is still to be handed out. -/
theorem changed (h : Supplies s child op t done) (hcatalog : t'.catalog = t.catalog)
    (hahead : ∀ page table, op.Ahead page → t.catalog.table page.table = .ok table →
      table.pageCount t'.disk = table.pageCount t.disk ∧
        (page.number < table.pageCount t.disk → t'.view.page page = t.view.page page)) :
    Supplies s child op t' done := by
  cases h with
  | values hle => exact .values hle
  | @scan source table _ cursor seen hregistered hagree h =>
    have hin : ∀ number, cursor.next ≤ number →
        Ahead ⟨table.id, number⟩ (.scan { source with cursor := some cursor }) := by
      intro number hle
      exact ⟨cursor, rfl, by rw [h.cursor_table], hle⟩
    refine .scan hregistered hagree (h.changed hcatalog ?_ ?_)
    · exact (hahead ⟨table.id, cursor.next⟩ table (hin _ (Nat.le_refl _)) h.registered).1
    · intro number hle hlt
      exact (hahead ⟨table.id, number⟩ table (hin number hle) h.registered).2 hlt

/-- A row that was handed out is not stored on a page that is still to be read. -/
theorem not_ahead (h : Supplies s child op t done) (hs : s.Coherent) (hrow : row ∈ done)
    {record : RecordId} (hrecord : row.record = some record) : ¬ op.Ahead record.page := by
  cases h with
  | values hle => exact fun hahead => hahead
  | @scan source table _ cursor seen hregistered hagree h =>
    obtain ⟨found, hfound, rfl⟩ := List.mem_map.mp hrow
    obtain ⟨passed, -, hpassed, -, hlt⟩ := h.passed hs hfound
    obtain rfl : passed = record := Option.some.inj (hpassed.symm.trans hrecord)
    rintro ⟨cursor', hcursor, -, hle⟩
    obtain rfl : cursor = cursor' := Option.some.inj hcursor
    omega

end Supplies

/-! ## The loop over the rows -/

variable {change : Store → Row → Except TableError Unit × Store}
  {keeps : List Row → Operator → Store → Prop} {limit : Nat}

/-- How the loop over the rows of a child can end, where something is kept from row to row: behind
the last row, or with the failure of a request for a row or of a change. -/
inductive Ended (change : Store → Row → Except TableError Unit × Store)
    (keeps : List Row → Operator → Store → Prop) (limit : Nat) :
    Except OperatorError Nat × Operator × Store → Prop
  | all {rows : List Row} {op op' : Operator} {t t' : Store} (h : keeps rows op t)
    (hend : op.next t = (.ok none, op', t')) : Ended change keeps limit (.ok rows.length, op', t')
  | unread {rows : List Row} {op op' : Operator} {t t' : Store} {e : OperatorError}
    (h : keeps rows op t) (hfailed : op.next t = (.error e, op', t')) :
    Ended change keeps limit (.error e, op', t')
  | unchanged {rows : List Row} {row : Row} {op op' : Operator} {t t' t'' : Store} {e : TableError}
    (h : keeps rows op t) (hnext : op.next t = (.ok (some row), op', t'))
    (hfailed : change t' row = (.error e, t'')) :
    Ended change keeps limit (.error (.table e), op', t'')
  /-- There were as many rows as the loop was made for. -/
  | spent {rows : List Row} {op : Operator} {t : Store} (h : keeps rows op t)
    (hlength : rows.length = limit) : Ended change keeps limit (.error (.table .rowLimit), op, t)

theorem ended_changeEach
    (hkeep : ∀ {rows row op op' t t' t''}, keeps rows op t →
      op.next t = (.ok (some row), op', t') → change t' row = (.ok (), t'') →
        keeps (rows ++ [row]) op' t'') :
    ∀ (limit : Nat) {rows : List Row} {op : Operator} {t : Store}, keeps rows op t →
      Ended change keeps (rows.length + limit) (changeEach change limit rows.length op t)
  | 0, _, _, _, h => .spent h rfl
  | limit + 1, rows, op, t, h => by
    unfold changeEach
    rcases hnext : op.next t with ⟨e | _ | row, op', t'⟩
    · exact .unread h hnext
    · exact .all h hnext
    · dsimp only
      rcases hchange : change t' row with ⟨e | done, t''⟩
      · exact .unchanged h hnext hchange
      · have hrest := ended_changeEach hkeep limit (hkeep h hnext hchange)
        rw [List.length_append, List.length_singleton, Nat.add_right_comm] at hrest
        exact hrest

/-- The loop is made for more rows than are offered. -/
theorem length_offered_lt (hleaf : child.IsLeaf) (hclosed : child.AllClosed) (hs : s.Coherent)
    (hok : (child.start s).1 = .ok ()) :
    (child.offered s).length < (child.start s).2.1.drainLimit s := by
  refine Nat.lt_succ_of_le (Nat.le_trans ?_ (Nat.le_add_right _ _))
  obtain ⟨-, hsupplies⟩ := @supplies_start s _ hleaf hclosed
  have hstarted := hsupplies hok
  generalize (child.start s).2.1 = op at hstarted
  generalize hdone : ([] : List Row) = done at hstarted
  cases hstarted with
  | values hle => exact Nat.le_refl _
  | @scan source table _ cursor seen hregistered hagree h =>
    obtain ⟨read, hle, hread⟩ :=
      View.exists_rowsFrom_firstRows s.view table.id 0 (table.pageCount s.disk)
    have hlength := View.length_rowsFrom_le
      (fun _ _ hpage => Store.slots_le_slotLimit hs hpage) hread
    have hmul := Nat.mul_le_mul_right s.slotLimit hle
    rw [offered, hregistered, List.length_map]
    show _ ≤ cursor.buffer.length + cursor.table.pageCount s.disk * s.slotLimit
    rw [h.cursor_table]
    omega

/-! ## Opening an operator that changes tables -/

/-- What opening the operator comes to, where changing some rows turns the view of the store into one
that is their effect. -/
structure Applies (effect : List Row → View → Prop) (op child : Operator) (s : Store) : Prop where
  /-- When it is opened the rows of the child were changed, and their number is handed out. -/
  opened : ∀ op' s', op.start s = (.ok (), op', s') → ∃ rows row, child.Yields s rows ∧
    effect rows s'.view ∧ Tally.rowOf rows.length = .ok row ∧ (op'.drain s').1 = .ok [row]
  /-- When it is not, the first of them were, and there is no number. -/
  refused : ∀ e op' s', op.start s = (.error e, op', s') →
    op'.AllClosed ∧ (op'.next s').1 = .error (.notOpen op'.kind) ∧
      ∃ rows, rows <+: child.offered s ∧ effect rows s'.view

/-- Who has one row to hand out hands out that row. -/
theorem drain_of_one {spent : Operator} (hfirst : op.next s = (.ok (some row), spent, s))
    (hlast : spent.next s = (.ok none, spent, s)) (hlimit : op.rowLimit s = 1) :
    (op.drain s).1 = .ok [row] := by
  obtain ⟨limit, hlimit⟩ : ∃ limit, op.drainLimit s = limit + 1 + 1 :=
    ⟨s.cache.capacity * s.slotLimit, by rw [drainLimit, hlimit]; omega⟩
  rw [drain, hlimit, drainWithin_some _ hfirst, drainWithin_none _ hlast]
  rfl

theorem drain_insert_tally {tid : TransactionId} {id : TableId} :
    ((insert child tid id { row := some row }).drain s).1 = .ok [row] := by
  have hlast : (insert child tid id { row := some row, isSpent := true }).next s =
      (.ok none, insert child tid id { row := some row, isSpent := true }, s) := rfl
  exact drain_of_one rfl hlast rfl

theorem drain_delete_tally {tid : TransactionId} :
    ((delete child tid { row := some row }).drain s).1 = .ok [row] := by
  have hlast : (delete child tid { row := some row, isSpent := true }).next s =
      (.ok none, delete child tid { row := some row, isSpent := true }, s) := rfl
  exact drain_of_one rfl hlast rfl

section Applying

variable {effect : List Row → View → Prop}
  (hleaf : child.IsLeaf) (hclosed : child.AllClosed) (hs : s.Coherent)
  (hstart : effect [] s.view)
  (hmoves : ∀ {t : Store} (row : Row), t.cache.Valid → Store.Moves t (change t row).2)
  (hchange : ∀ {rows row op t t'}, t.Coherent → effect rows t.view →
    Supplies s child op t (rows ++ [row]) → change t row = (.ok (), t') →
      effect (rows ++ [row]) t'.view ∧ Supplies s child op t' (rows ++ [row]))
  (hfailed : ∀ {rows row t t' e}, t.Coherent → effect rows t.view →
    change t row = (.error e, t') → effect rows t'.view)

include hmoves hchange in
/-- What the loop keeps from row to row. -/
theorem keeps_of_change {rows : List Row} {row : Row} {t'' : Store}
    (h : Supplies s child op t rows ∧ t.Coherent ∧ effect rows t.view)
    (hnext : op.next t = (.ok (some row), op', t')) (hdone : change t' row = (.ok (), t'')) :
    Supplies s child op' t'' (rows ++ [row]) ∧ t''.Coherent ∧ effect (rows ++ [row]) t''.view := by
  obtain ⟨hsupplies, ht, heffect⟩ := h
  obtain ⟨hsupplies', hfetches⟩ := hsupplies.next_some ht hnext
  have ht' : t'.Coherent := (Store.Fetches.moves hfetches).coherent ht
  rw [← Store.Fetches.view hfetches ht] at heffect
  obtain ⟨heffect', hsupplies''⟩ := hchange ht' heffect hsupplies' hdone
  have hmoved := hmoves row ht'.valid
  rw [hdone] at hmoved
  exact ⟨hsupplies'', Store.Moves.coherent hmoved ht', heffect'⟩

include hleaf hclosed hs hstart hmoves hchange hfailed in
/-- How the loop ends: behind the last row, or with the first rows changed. -/
theorem changed_of_start (hok : (child.start s).1 = .ok ()) {result : Except OperatorError Nat}
    (hloop : changeEach change ((child.start s).2.1.drainLimit s) 0 (child.start s).2.1 s =
      (result, op', t')) :
    (∃ rows, result = .ok rows.length ∧ child.Yields s rows ∧ effect rows t'.view) ∨
      ∃ e rows, result = .error e ∧ rows <+: child.offered s ∧ effect rows t'.view := by
  obtain ⟨-, hsupplies⟩ := @supplies_start s _ hleaf hclosed
  have hended := @ended_changeEach change (fun rows op t =>
    Supplies s child op t rows ∧ t.Coherent ∧ effect rows t.view)
    (fun h hnext hdone => keeps_of_change hmoves hchange h hnext hdone)
    ((child.start s).2.1.drainLimit s) [] _ s ⟨hsupplies hok, hs, hstart⟩
  rw [List.length_nil, hloop] at hended
  -- a request for a row fetches pages, so the view is the same behind it
  have hfetched : ∀ {op op' t t' answer}, t.Coherent → Operator.next op t = (answer, op', t') →
      t'.view = t.view ∧ t'.Coherent := by
    intro op op' t t' answer ht hnext
    have hfetches := op.fetches_next t
    rw [hnext] at hfetches
    exact ⟨Store.Fetches.view hfetches ht, (Store.Fetches.moves hfetches).coherent ht⟩
  cases hended with
  | @all rows _ _ _ _ h hend =>
    obtain ⟨hlast, ht, heffect⟩ := h
    refine Or.inl ⟨rows, rfl, hlast.next_none ht (congrArg Prod.fst hend), ?_⟩
    rwa [(hfetched ht hend).1]
  | @unread rows _ _ _ _ e h hnext =>
    obtain ⟨hlast, ht, heffect⟩ := h
    refine Or.inr ⟨e, rows, rfl, hlast.prefix_offered, ?_⟩
    rwa [(hfetched ht hnext).1]
  | @unchanged rows row _ _ _ _ _ e h hnext hdone =>
    obtain ⟨hlast, ht, heffect⟩ := h
    obtain ⟨hview, ht'⟩ := hfetched ht hnext
    exact Or.inr ⟨_, rows, rfl, hlast.prefix_offered, hfailed ht' (hview ▸ heffect) hdone⟩
  | @spent rows _ _ h hlength =>
    exfalso
    have hle := h.1.prefix_offered.length_le
    have hlt := length_offered_lt hleaf hclosed hs hok
    omega

include hleaf hclosed hs hstart hmoves hchange hfailed in
/-- The number of rows is told as a tally, unless it is too great to be told. -/
theorem changed_of_changeAll (hok : (child.start s).1 = .ok ()) {result : Except OperatorError Unit}
    {tally tally' : Tally} (hall : changeAll change tally (child.start s).2.1 s =
      (result, tally', op', t')) :
    (∃ rows row, result = .ok () ∧ tally' = { row := some row } ∧ child.Yields s rows ∧
      effect rows t'.view ∧ Tally.rowOf rows.length = .ok row) ∨
      ∃ e rows, result = .error e ∧ rows <+: child.offered s ∧ effect rows t'.view := by
  unfold changeAll at hall
  rcases hloop : changeEach change ((child.start s).2.1.drainLimit s) 0 (child.start s).2.1 s with
    ⟨counted, last, t⟩
  rw [hloop] at hall
  rcases changed_of_start hleaf hclosed hs hstart hmoves hchange hfailed hok hloop with
    ⟨rows, rfl, hyields, heffect⟩ | ⟨e, rows, rfl, hprefix, heffect⟩
  · dsimp only at hall
    cases hrow : Tally.rowOf rows.length with
    | error e =>
      rw [hrow] at hall
      simp only [Prod.mk.injEq] at hall
      obtain ⟨rfl, -, -, rfl⟩ := hall
      exact Or.inr ⟨e, rows, rfl, hyields.eq_offered ▸ List.prefix_refl _, heffect⟩
    | ok row =>
      rw [hrow] at hall
      simp only [Prod.mk.injEq] at hall
      obtain ⟨rfl, rfl, -, rfl⟩ := hall
      exact Or.inl ⟨rows, row, rfl, rfl, hyields, heffect, hrow⟩
  · simp only [Prod.mk.injEq] at hall
    obtain ⟨rfl, -, -, rfl⟩ := hall
    exact Or.inr ⟨e, rows, rfl, hprefix, heffect⟩

include hleaf hclosed hs hstart hmoves hchange hfailed in
/-- Opening an operator that applies the change to all rows of its child.  `build` makes such an
operator of a tally and a child. -/
theorem applies_of_change (build : Tally → Operator → Operator) (tally : Tally)
    (hop : op.AllClosed)
    (hopens : op.start s =
      match child.start s with
      | (.error e, child', s') => (.error e, build tally child', s')
      | (.ok (), child', s') =>
        match changeAll change tally child' s' with
        | (result, tally', child'', s'') => (result, build tally' child'', s''))
    (htally : ∀ row child' s', ((build { row := some row } child').drain s').1 = .ok [row]) :
    op.Applies effect child s := by
  obtain ⟨hsame, -⟩ := @supplies_start s _ hleaf hclosed
  have hall := fun hok result tally' op' t' => @changed_of_changeAll s t' child op' change effect
    hleaf hclosed hs hstart hmoves hchange hfailed hok result tally tally'
  -- an operator that was not opened has no row, and neither it nor its child is open
  have hrefused : ∀ {e op' s'}, op.start s = (.error e, op', s') →
      op'.AllClosed ∧ (op'.next s').1 = .error (.notOpen op'.kind) := by
    intro e op' s' h
    have hstarted := started hop.settled hop.isOpen s
    rw [h] at hstarted
    cases hstarted with
    | refused hdone he => exact ⟨hdone, by rw [next_of_closed hdone.isOpen]⟩
  rcases hbegin : child.start s with ⟨e | _, child', s'⟩ <;> rw [hbegin] at hopens hall hsame <;>
    dsimp only at hopens hall hsame <;> subst hsame
  · refine ⟨fun op' t h => ?_, fun e' op' t h => ?_⟩
    · rw [hopens] at h
      cases h
    · obtain ⟨hdone, hnone⟩ := hrefused h
      rw [hopens] at h
      cases h
      exact ⟨hdone, hnone, [], List.nil_prefix, hstart⟩
  · rcases hloop : changeAll change tally child' s' with ⟨result, tally', child'', t⟩
    rw [hloop] at hopens
    rcases hall rfl _ _ _ _ hloop with ⟨rows, row, rfl, rfl, hyields, heffect, hrow⟩ |
      ⟨e, rows, rfl, hprefix, heffect⟩
    · refine ⟨fun op' t' h => ?_, fun e op' t' h => ?_⟩ <;> rw [hopens] at h <;> cases h
      exact ⟨rows, row, hyields, heffect, hrow, htally _ _ _⟩
    · refine ⟨fun op' t' h => ?_, fun e' op' t' h => ?_⟩
      · rw [hopens] at h
        cases h
      · obtain ⟨hdone, hnone⟩ := hrefused h
        rw [hopens] at h
        cases h
        exact ⟨hdone, hnone, rows, hprefix, heffect⟩

end Applying

end Operator

end RowStore
