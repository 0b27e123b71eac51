import RowStore.Proofs.CleanPages
import RowStore.Proofs.Operator.Copying
import RowStore.Proofs.Operator.Draining
import RowStore.Proofs.Store.Fallback

/-!
# RowStore.Proofs.Operator.Doubling: when inserting a table into itself doubles it

Whatever is inserted while a scan runs, the scan hands out at least the rows it had still to hand
out (`Operator.le_of_changeEach`), and one more for every row that went to a page it had not
reached.  So as soon as one copy goes there, more rows are counted than the table had.  Hence an
operator that inserts a table into itself counts its rows and copies each of them once when at most
half of the slots of the first pages are taken, and never otherwise (`Operator.doubles_iff`).
-/

namespace RowStore

/-! ## Inserting ahead of a cursor -/

namespace Store

variable {s s' : Store} {tid : TransactionId} {id : TableId} {row : Row} {record : RecordId}

/-- A row goes to a page that had a free slot, unless it is a page that was appended for it. -/
theorem free_of_insertRow {table : Table} (hs : s.Coherent)
    (h : s.insertRow tid table.id row = (.ok record, s'))
    (ht : s.catalog.table table.id = .ok table)
    (hlt : record.page.number < table.pageCount s.disk) :
    ∃ content, s.view.page ⟨table.id, record.page.number⟩ = .ok content ∧
      content.firstFree? ≠ none := by
  obtain ⟨grown, hgrown, ⟨-, hfailed⟩ | ⟨found, -, hfound, -, htable, content, changed, hpage,
    hinsert, -⟩⟩ := insertRow_spec hs h
  · exact absurd rfl (hfailed record)
  · obtain rfl : record = found := by simpa using hfound
    obtain ⟨slot, -, -, hslot, -⟩ := Page.insert_eq_ok hinsert
    refine ⟨content, ?_, by simp [hslot]⟩
    have hshown : grown.page ⟨table.id, record.page.number⟩ = .ok content := htable ▸ hpage
    rcases hgrown with rfl | hgrows
    · exact hshown
    · exact (hgrows.page_of_lt hs.sound ht hlt).symm.trans hshown

/-- A cursor has no less to hand out after an insert than before, and more when the row went to a
page of its table it has not reached. -/
theorem rest_of_insertRow {cursor : Cursor} {rows : List Row} (hs : s.Coherent)
    (h : s.insertRow tid id row = (.ok record, s'))
    (ht : s.catalog.table cursor.table.id = .ok cursor.table)
    (hrest : s'.view.rest cursor = .ok rows) :
    ∃ old, s.view.rest cursor = .ok old ∧ old.length ≤ rows.length ∧
      (id = cursor.table.id → cursor.next ≤ record.page.number → old.length < rows.length) := by
  have hmoves := moves_insertRow hs.valid tid id row
  rw [h] at hmoves
  have hs' : s'.Coherent := Moves.coherent hmoves hs
  obtain ⟨grown, hgrown, ⟨-, hfailed⟩ | ⟨found, -, hfound, -, htable, hinserts⟩⟩ :=
    insertRow_spec hs h
  · exact absurd rfl (hfailed record)
  · obtain rfl : record = found := by simpa using hfound
    have hkeyed : grown.Keyed := hs.keyed_view.of_changed (View.changed_of_grown hgrown)
    obtain ⟨mid, hmid, hlength⟩ := hinserts.rest_eq_ok hkeyed hrest
    obtain ⟨old, hold, hle⟩ := View.rest_of_grown hgrown hs.sound ht hmid
    refine ⟨old, hold, by omega, fun hid hnext => ?_⟩
    obtain ⟨content, changed, hpage, hinsert, hview⟩ := hinserts
    have hshown : s'.view.page record.page = .ok (changed.mark (some tid)) := by
      rw [hview, View.page_put, if_pos]
      exact ((Page.rewrites_of_insert hinsert).id.trans (hkeyed.id_of_page hpage)).symm
    have hcatalog : s'.catalog = s.catalog := Moves.catalog hmoves
    have hlt : record.page.number < cursor.table.pageCount s'.disk :=
      hs'.number_lt_pageCount hshown (by rw [htable, hid, hcatalog, ht])
    rw [if_pos ⟨htable.trans hid, hnext, by rw [disk_view]; omega⟩] at hlength
    omega

end Store

/-- What pages fall back to makes no difference to copies. -/
theorem View.Copies.congr {s t s' t' : Store} {table : TableId} {count : Nat}
    {records : List RecordId} {rows : List Row}
    (h : s.view.Copies s'.view table count records rows) (hclean : s.AllClean)
    (hsame : s.plain = t.plain) (hsame' : s'.plain = t'.plain) :
    t.view.Copies t'.view table count records rows := by
  have hentries := (Store.readsAs_congr hsame).entries
  have hentries' := (Store.readsAs_congr hsame').entries
  refine ⟨?_, ?_, fun page hpage => ?_, h.distinct, ?_, ?_, ?_⟩
  · rw [Store.disk_view, Store.disk_view, ← Store.disk_congr hsame, ← Store.disk_congr hsame']
    exact h.disk
  · rw [Store.catalog_view, Store.catalog_view, ← Store.catalog_congr hsame,
      ← Store.catalog_congr hsame']
    exact h.catalog
  · have hbefore := Store.allClean_iff.mp hclean page
    have hafter := Store.changed_congr hsame' page
    rw [h.elsewhere page hpage, hbefore] at hafter
    rw [Store.allClean_iff.mp (hclean.congr hsame) page]
    exact Option.map_eq_none_iff.mp hafter.symm
  · rw [hentries]
    exact h.unused
  · rw [hentries']
    exact h.copied
  · rw [hentries, hentries']
    exact h.others

namespace Operator

open Store (Copyable)

variable {s t : Store} {table : Table} {rows copied : List Row} {cursor : Cursor}
  {records : List RecordId} {source : TableScan}

/-! ## How many rows are counted -/

/-- Every row a scan has still to hand out is counted, whatever is inserted meanwhile. -/
theorem le_of_changeEach (tid : TransactionId) (id : TableId) :
    ∀ (limit : Nat) {count total : Nat} {cursor : Cursor} {t : Store}, t.Coherent →
      cursor.isOpen = true → t.catalog.table cursor.table.id = .ok cursor.table →
        (changeEach (insertChange tid id) limit count
          (.scan { source with cursor := some cursor }) t).1 = .ok total →
          ∃ rest, t.view.rest cursor = .ok rest ∧ count + rest.length ≤ total
  | 0, _, _, _, _, _, _, _, h => by cases h
  | limit + 1, count, total, cursor, t, ht, hopen, htable, h => by
    have hview := (Store.pull_refines ht cursor).1
    have ht' : (cursor.pull t).2.2.Coherent := Store.Moves.coherent (Store.moves_pull cursor t) ht
    rw [changeEach, next] at h
    rcases @TableScan.next_cases { source with cursor := some cursor } cursor rfl t with
      ⟨e, hnext⟩ | ⟨hnone, hnext⟩ | ⟨row, found, hsome, hnext⟩ <;> rw [hnext] at h <;>
      dsimp only at h
    · cases h
    · exact ⟨[], Store.rest_of_pull_none ht hopen hnone, Nat.le_of_eq (Except.ok.inj h)⟩
    · obtain ⟨hrest, hopen'⟩ := Store.rest_of_pull_some ht hopen hsome
      have hsame : (cursor.pull t).2.2.catalog.table (cursor.pull t).2.1.table.id =
          .ok (cursor.pull t).2.1.table := by
        rw [Store.Moves.catalog (Store.moves_pull cursor t), cursor.table_pull, htable]
      have hmoves := Store.moves_insertRow ht'.valid tid id found
      rw [insertChange] at h
      rcases hinsert : (cursor.pull t).2.2.insertRow tid id found with ⟨e | record, t''⟩ <;>
        rw [hinsert] at h hmoves
      · cases h
      · obtain ⟨behind, hbehind, hle⟩ := le_of_changeEach tid id limit
          (Store.Moves.coherent hmoves ht') hopen' (by rw [Store.Moves.catalog hmoves, hsame]) h
        obtain ⟨old, hold, hless, -⟩ := Store.rest_of_insertRow ht' hinsert hsame hbehind
        refine ⟨row :: old, ?_, by rw [List.length_cons]; omega⟩
        rw [hrest, ← hview, hold]
        rfl

end Operator

/-! ## How full the pages are -/

namespace Copying

open Store (Copyable)

variable {s t : Store} {table : Table} {rows seen copied : List Row} {cursor : Cursor}
  {records : List RecordId} {row : Row}

/-- Once a copy was made of every row of the pages that were passed, these and their copies are all
on these pages. -/
theorem two_mul_length_le (h : Copying s table t cursor copied copied records)
    (hc : s.Copyable table rows) (hbuffer : cursor.buffer = []) :
    2 * copied.length ≤ cursor.next * table.slotsPerPage := by
  obtain ⟨found, hfound⟩ := @View.rowsFrom_isOk t.view table.id cursor.next 0 h.readable
    fun number _ hlt => h.exists_page hc (by omega)
  have hlength :=
    h.copies.length_rowsFrom hc.coherent.keyed_view h.coherent.keyed_view h.read hfound
  have hslots : ∀ number content, t.view.page ⟨table.id, number⟩ = .ok content →
      content.slots ≤ table.slotsPerPage := fun _ _ hpage =>
    Nat.le_of_eq (h.coherent.slots_eq (h.registered hc) hpage).2
  have hmost := View.length_rowsFrom_le hslots hfound
  have hcount := h.copies.copied.length_eq
  rw [hbuffer, List.append_nil] at hlength
  omega

/-- Pages a scan passes without a row do not fill the pages before them any further. -/
theorem half_pull (h : Copying s table t cursor copied copied records) (hc : s.Copyable table rows)
    (hhalf : ∀ count < cursor.next, s.view.HalfFreeIn table count)
    (hrow : (cursor.pull t).1 = .ok (some row)) :
    ∀ count < (cursor.pull t).2.1.next, s.view.HalfFreeIn table count := by
  intro count hlt
  rcases View.passed_of_pull h.isOpen (Store.pull_eq_of_ok h.coherent hrow) with
    hsame | ⟨hbuffer, passed, hnext, hempty⟩
  · exact hhalf count (hsame ▸ hlt)
  by_cases hin : count < cursor.next
  · exact hhalf count hin
  obtain ⟨more, rfl⟩ := Nat.exists_eq_add_of_le (Nat.le_of_not_lt hin)
  intro found hfound
  rw [View.rowsFrom_add_eq_ok_iff, h.read, Nat.zero_add, hbuffer, List.append_nil] at hfound
  obtain ⟨first, rest, hfirst, hrest, rfl⟩ := hfound
  have hnone : s.view.rowsFrom table.id cursor.next more = .ok [] := by
    rw [← h.rowsFrom_ahead]
    exact View.rowsFrom_take_eq_nil (by omega) (h.cursor_table ▸ hempty)
  rw [hnone, Except.ok.injEq] at hrest
  obtain rfl := Except.ok.inj hfirst
  rw [← hrest, List.append_nil]
  exact Nat.le_trans (h.two_mul_length_le hc hbuffer)
    (Nat.mul_le_mul_right _ (Nat.le_add_right cursor.next more))

/-- When the scan has come to its end the pages it has passed without a row are no fuller either. -/
theorem half_of_end (h : Copying s table t cursor rows rows records) (hc : s.Copyable table rows)
    (hhalf : ∀ count < cursor.next, s.view.HalfFreeIn table count) : s.view.HalfFree table := by
  have hbuffer : cursor.buffer = [] := by
    obtain ⟨rest, hrest, hrows⟩ := h.exists_rest hc
    obtain ⟨behind, -, rfl⟩ := View.rest_eq_ok_iff.mp hrest
    have hnone : cursor.buffer ++ behind = [] := List.append_right_eq_self.mp hrows.symm
    exact (List.append_eq_nil_iff.mp hnone).1
  intro count hle
  by_cases hin : count < cursor.next
  · exact hhalf count hin
  intro found hfound
  obtain ⟨more, hmore⟩ := Nat.exists_eq_add_of_le hle
  have hscan := hc.scanned
  rw [View.scan, hmore, View.rowsFrom_add_eq_ok_iff, hfound] at hscan
  obtain ⟨first, rest, hfirst, -, rfl⟩ := hscan
  obtain rfl := Except.ok.inj hfirst
  have hlength := h.two_mul_length_le hc hbuffer
  have hmul := Nat.mul_le_mul_right table.slotsPerPage (Nat.le_of_not_lt hin)
  rw [List.length_append] at hlength
  omega

end Copying

namespace Operator

open Store (Copyable)

variable {s t : Store} {table : Table} {rows copied : List Row} {cursor : Cursor}
  {records : List RecordId} {source : TableScan}

/-- When no more rows are counted than the table had, each copy found a free slot on the pages that
had been passed, which are therefore half free. -/
theorem half_of_changeEach (hc : s.Copyable table rows) (hagree : source.schema.Agrees table.schema)
    (tid : TransactionId) : ∀ (limit : Nat) {t : Store} {cursor : Cursor} {copied : List Row}
      {records : List RecordId}, Copying s table t cursor copied copied records →
        (∀ count < cursor.next, s.view.HalfFreeIn table count) →
          (changeEach (insertChange tid table.id) limit copied.length
            (.scan { source with cursor := some cursor }) t).1 = .ok rows.length →
            s.view.HalfFree table
  | 0, _, _, _, _, _, _, htotal => by cases htotal
  | limit + 1, t, cursor, copied, records, h, hhalf, htotal => by
    rcases h.pull hc with ⟨hnone, rfl⟩ | ⟨row, hrow, hsome⟩
    · exact h.half_of_end hc hhalf
    have hpulled := h.pulled hc hsome
    have hschema := (hc.storesAs hrow).1
    rw [changeEach, next, TableScan.next_of_pull_some rfl hsome (hschema ▸ hagree)] at htotal
    dsimp only at htotal
    rw [insertChange] at htotal
    by_cases hfree : ∃ number content, number < (cursor.pull t).2.1.next ∧
        (cursor.pull t).2.2.view.page ⟨table.id, number⟩ = .ok content ∧ content.firstFree? ≠ none
    · obtain ⟨record, t', ht', hnext⟩ := hpulled.insert hc hrow hagree hfree tid
      rw [ht'] at htotal
      refine half_of_changeEach hc hagree tid limit hnext (h.half_pull hc hhalf hsome) ?_
      rwa [List.length_append, List.length_singleton]
    · -- the copy goes to a page that is still to be read, and is counted as well
      exfalso
      have hmoves := Store.moves_insertRow hpulled.coherent.valid tid table.id
        { row with schema := source.schema }
      rcases hinsert : (cursor.pull t).2.2.insertRow tid table.id
        { row with schema := source.schema } with ⟨e | record, t'⟩ <;> rw [hinsert] at htotal hmoves
      · cases htotal
      have htable : (cursor.pull t).2.2.catalog.table (cursor.pull t).2.1.table.id =
          .ok (cursor.pull t).2.1.table := by
        rw [hpulled.cursor_table, hpulled.registered hc]
      obtain ⟨behind, hbehind, hle⟩ := le_of_changeEach tid table.id limit
        (Store.Moves.coherent hmoves hpulled.coherent) hpulled.isOpen
        (by rw [Store.Moves.catalog hmoves, htable]) htotal
      obtain ⟨old, hold, -, hless⟩ :=
        Store.rest_of_insertRow hpulled.coherent hinsert htable hbehind
      have hahead : (cursor.pull t).2.1.next ≤ record.page.number := by
        refine Nat.le_of_not_lt fun hlt => hfree ?_
        have hpages : record.page.number < table.pageCount (cursor.pull t).2.2.disk := by
          rw [hpulled.disk_eq]
          exact Nat.lt_of_lt_of_le hlt hpulled.next_le
        obtain ⟨content, hpage⟩ :=
          Store.free_of_insertRow hpulled.coherent hinsert (hpulled.registered hc) hpages
        exact ⟨_, content, hlt, hpage⟩
      have hmore := hless (congrArg Table.id hpulled.cursor_table.symm) hahead
      obtain ⟨rest, hrest, hrows⟩ := hpulled.exists_rest hc
      rw [hold, Except.ok.injEq] at hrest
      rw [hrows, List.length_append, List.length_append, List.length_singleton, ← hrest] at hle
      omega

/-! ## Opening and draining -/

/-- A scan that is opened stands before the first row. -/
theorem start_scan {label : String} (htable : s.catalog.table table.id = .ok table)
    (hsource : TableScan.ofTable s.catalog table.id label = .ok source) :
    (scan source).start s =
        (.ok (), scan { source with cursor := some (Cursor.start { table }) }, s) ∧
      source.schema.Agrees table.schema := by
  obtain ⟨entry, hentry, rfl⟩ :
      ∃ entry, s.catalog.entry table.id = .ok entry ∧ entry.table = table := by
    unfold Catalog.table at htable
    cases hentry : s.catalog.entry table.id with
    | error e => simp [hentry, Except.map] at htable
    | ok entry => exact ⟨entry, rfl, by simpa [hentry, Except.map] using htable⟩
  rw [TableScan.ofTable, hentry] at hsource
  obtain rfl := Except.ok.inj hsource
  have hagree : entry.table.schema.Agrees (TableScan.labelled entry.table.schema label) :=
    (Schema.types_rename _ _).symm
  refine ⟨?_, hagree.symm⟩
  rw [start, TableScan.start]
  dsimp only [Option.isSome_none]
  rw [htable]
  simp only [Bool.false_eq_true, if_false]
  rw [if_pos hagree]

theorem start_insert_eq_ok_iff {s' : Store} {child started opened : Operator} {tid : TransactionId}
    {id : TableId} {tally : Tally} (htally : tally.isOpen = false)
    (hchild : child.start s = (.ok (), started, s')) :
    (insert child tid id tally).start s = (.ok (), opened, t) ↔ ∃ total last row,
      changeEach (insertChange tid id) (started.drainLimit s') 0 started s' = (.ok total, last, t) ∧
        Tally.rowOf total = .ok row ∧ opened = insert last.close tid id { row := some row } := by
  rw [start, htally, if_neg Bool.false_ne_true, hchild]
  dsimp only [changeAll]
  rcases changeEach (insertChange tid id) (started.drainLimit s') 0 started s' with
    ⟨e | total, last, t'⟩
  · simp
  · dsimp only
    cases hrow : Tally.rowOf total with
    | error e => simp [hrow]
    | ok row => simp [hrow, eq_comm, and_comm]

/-- Opening the operator and draining it hands out the number of these rows and leaves the table
with one more copy of each, at records that were free, and everything else as it was. -/
def Doubles (op : Operator) (s : Store) (table : Table) (rows : List Row) : Prop :=
  ∃ opened t records, op.start s = (.ok (), opened, t) ∧
    (opened.drain t).1 = .ok [{ schema := .oneInt, values := [.int (Int32.ofNat rows.length)] }] ∧
    s.view.Copies t.view table.id (table.pageCount s.disk) records rows

theorem rowOf_eq_ok_iff {total : Nat} {row : Row} : Tally.rowOf total = .ok row ↔
    total ≤ 2147483647 ∧ row = { schema := .oneInt, values := [.int (Int32.ofNat total)] } := by
  unfold Tally.rowOf
  split_ifs with htotal <;> simp [htotal, eq_comm]

/-- Counts that can be told are told apart. -/
theorem count_inj {few many : Nat} (hfew : few ≤ 2147483647) (hmany : many ≤ 2147483647)
    (h : Int32.ofNat few = Int32.ofNat many) : few = many := by
  have hint := congrArg Int32.toInt h
  rw [Int32.toInt_ofNat_of_lt (by omega), Int32.toInt_ofNat_of_lt (by omega)] at hint
  exact Int.ofNat.inj hint

theorem doubles_iff_of_copyable {label : String} {tally : Tally} (hc : s.Copyable table rows)
    (hsource : TableScan.ofTable s.catalog table.id label = .ok source)
    (htally : tally.isOpen = false) (tid : TransactionId) :
    (insert (.scan source) tid table.id tally).Doubles s table rows ↔
      rows.length ≤ 2147483647 ∧ s.view.HalfFree table := by
  obtain ⟨hstart, hagree⟩ := start_scan hc.registered hsource
  have hbegin : Copying s table s (Cursor.start { table }) [] [] [] := .start hc
  constructor
  · rintro ⟨opened, t, records, hopened, hdrain, -⟩
    obtain ⟨total, last, row, hloop, hrow, rfl⟩ := (start_insert_eq_ok_iff htally hstart).mp hopened
    obtain ⟨htotal, rfl⟩ := rowOf_eq_ok_iff.mp hrow
    obtain ⟨rest, hrest, hle⟩ := le_of_changeEach tid table.id _ hc.coherent rfl hc.registered
      (congrArg Prod.fst hloop)
    rw [View.rest_start, hc.scanned, Except.ok.injEq] at hrest
    rw [← hrest, Nat.zero_add] at hle
    rw [drain_insert_tally] at hdrain
    obtain rfl : total = rows.length :=
      count_inj htotal (Nat.le_trans hle htotal) (by simpa using hdrain)
    exact ⟨htotal, half_of_changeEach hc hagree tid _ hbegin
      (fun count hlt => absurd hlt (Nat.not_lt_zero count)) (congrArg Prod.fst hloop)⟩
  · rintro ⟨hcount, hhalf⟩
    have hlimit : rows.length < (scan { source with
        cursor := some (Cursor.start { table }) }).drainLimit s := by
      have hlength := View.length_rowsFrom_le
        (fun _ _ hpage => Store.slots_le_slotLimit hc.coherent hpage) hc.scanned
      have hlimit : (scan { source with cursor := some (Cursor.start { table }) }).rowLimit s =
          table.pageCount s.disk * s.slotLimit := Nat.zero_add _
      rw [drainLimit, hlimit]
      exact Nat.lt_succ_of_le (Nat.le_trans hlength (Nat.le_add_right _ _))
    obtain ⟨cursor, t, records, hloop, hcopies⟩ := changeEach_copying hc hhalf hagree tid _ hbegin
      (by rwa [List.length_nil, Nat.zero_add])
    exact ⟨_, t, records, (start_insert_eq_ok_iff htally hstart).mpr
      ⟨rows.length, _, _, hloop, rowOf_eq_ok_iff.mpr ⟨hcount, rfl⟩, rfl⟩, drain_insert_tally,
      hcopies⟩

/-! ## Any state without dirty pages -/

/-- What pages fall back to makes no difference. -/
theorem Doubles.congr {tid : TransactionId} {id : TableId} {tally : Tally}
    (h : (insert (.scan source) tid id tally).Doubles s table rows) (hclean : s.AllClean)
    (hsame : s.plain = t.plain) : (insert (.scan source) tid id tally).Doubles t table rows := by
  obtain ⟨opened, s', records, hopened, hdrain, hcopies⟩ := h
  have hstart := start_congr source tid id tally hsame
  rcases hopened' : (insert (.scan source) tid id tally).start t with ⟨result, opened', t'⟩
  rw [hopened, hopened'] at hstart
  obtain ⟨rfl, rfl, hsame'⟩ := hstart
  refine ⟨opened, t', records, hopened', (drain_congr opened hsame').symm.trans hdrain, ?_⟩
  rw [← Store.disk_congr hsame]
  exact hcopies.congr hclean hsame hsame'

/-- In every state in which no page is dirty or held and cached pages hold what the disk has
(`Seated`, as in every state that is visited, and `CleanMatch`), and in which the pages of the table
fit into the cache, inserting the table into itself counts its rows and copies each of them once,
exactly when the count can be told and at most half of the slots of the first pages of the table are
taken, of however many pages. -/
theorem doubles_iff {label : String} {tally : Tally} (hs : s.Seated) (hmatch : s.CleanMatch)
    (hroomy : s.Roomy) (htable : s.catalog.table table.id = .ok table)
    (hcapacity : table.pageCount s.disk < s.cache.capacity) (hrows : s.scan table = .ok rows)
    (hsource : TableScan.ofTable s.catalog table.id label = .ok source)
    (htally : tally.isOpen = false) (tid : TransactionId) :
    (insert (.scan source) tid table.id tally).Doubles s table rows ↔
      rows.length ≤ 2147483647 ∧ s.view.HalfFree table := by
  obtain ⟨t, hsame, ht⟩ := Store.exists_coherent hs hmatch hroomy.clean
  have hroomy' : t.Roomy := hroomy.congr hsame.symm
  have hview : t.view = s.view := by
    rw [Store.view_of_allClean hroomy.clean, Store.view_of_allClean hroomy'.clean,
      Store.disk_congr hsame, Store.catalog_congr hsame]
  have hc : t.Copyable table rows := by
    refine ⟨ht, hroomy', by rwa [Store.catalog_congr hsame], ?_, ?_⟩
    · rwa [Store.disk_congr hsame, Store.capacity_congr hsame]
    · rw [← Store.scan_of_roomy ht hroomy', Store.scan_congr hsame, hrows]
  rw [← hview, ← doubles_iff_of_copyable hc (by rwa [Store.catalog_congr hsame]) htally tid]
  exact ⟨fun h => h.congr hroomy.clean hsame.symm, fun h => h.congr hroomy'.clean hsame⟩

/-- A table of one row is doubled after its page was flushed, when the page is clean and falls back
to what it held before the row was inserted. -/
theorem doubles_flushed :
    let s := ((Session.mk (Sample.store 3 (by decide)) []).after
      [.insert ⟨1⟩ Sample.table.id (Sample.row 1 10), .flushAll]).store
    let row := (Sample.row 1 10).withRecord (some ⟨⟨Sample.table.id, 0⟩, 0⟩)
    s.scan Sample.table = .ok [row] ∧
      (insert (.scan Sample.tableScan) ⟨2⟩ Sample.table.id {}).Doubles s Sample.table [row] := by
  intro s row
  have hfresh := Sample.fresh_store 3 (by decide)
  have hcoherent := hfresh.coherent Sample.sound_catalog
  have hvisited : (Sample.store 3 (by decide)).Visited s :=
    @Store.Visited.after _ (Session.mk (Sample.store 3 (by decide)) []) .first _
  have hseated := hvisited.seated hfresh Sample.sound_catalog
  have hmatch : s.CleanMatch := by
    refine @Session.cleanMatch_of_fallsBack (Session.mk (Sample.store 3 (by decide)) [])
      [.insert ⟨1⟩ Sample.table.id (Sample.row 1 10), .flushAll] hcoherent.toSeated
      hcoherent.clean ?_ 2
    rintro (_ | _ | count) tid habort <;> simp at habort
  have hrows : s.scan Sample.table = .ok [row] := by decide +kernel
  have hroomy : s.Roomy := by
    refine ⟨fun page frame hf => ?_, by decide +kernel⟩
    have hclean : ∀ entry ∈ s.cache.frames, entry.2.page.dirtier = none := by decide +kernel
    exact hclean _ (Lookup.mem_of_lookup hf)
  have hsource : TableScan.ofTable s.catalog Sample.table.id "s" = .ok Sample.tableScan := by
    decide +kernel
  have hhalf : s.view.HalfFree Sample.table := by
    have hpages : Sample.table.pageCount s.disk = 1 := by decide +kernel
    have hcounts : (s.view.rowsFrom Sample.table.id 0 0).map List.length = .ok 0 ∧
        (s.view.rowsFrom Sample.table.id 0 1).map List.length = .ok 1 := by decide +kernel
    intro count hle found hfound
    rw [Store.disk_view, hpages] at hle
    interval_cases count
    · rw [hfound] at hcounts
      rw [Except.ok.inj hcounts.1]
      decide
    · rw [hfound] at hcounts
      rw [Except.ok.inj hcounts.2]
      decide
  exact ⟨hrows, (doubles_iff hseated hmatch hroomy (by decide +kernel) (by decide +kernel) hrows
    hsource rfl ⟨2⟩).mpr ⟨by decide, hhalf⟩⟩

/-- A table that is one full page is not doubled: its copies are read and inserted again, until
there is no room in the cache. -/
theorem not_doubles_full :
    let s : Store := { Sample.store 3 (by decide) with
      disk := ({} : Disk).write ["t"]
        ([3, 0, 0, 0, 1, 0, 0, 0, 10, 0, 0, 0, 2, 0, 0, 0, 20] ++ Bytes.zeros 3) }
    s.Roomy ∧ 2 * Sample.table.pageCount s.disk < s.cache.capacity ∧
      (s.scan Sample.table).map (·.map Row.values) =
        .ok [[.int 1, .int 10], [.int 2, .int 20]] ∧
      ((insert (.scan Sample.tableScan) ⟨1⟩ Sample.table.id {}).start s).1 =
        .error (.table (.cache (.noEvictablePage 3))) := by
  refine ⟨(Store.Fresh.roomy ⟨20, 3, rfl⟩), ?_⟩
  decide +kernel

end Operator

end RowStore
