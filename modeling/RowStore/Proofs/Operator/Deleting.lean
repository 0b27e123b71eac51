import RowStore.Proofs.Operator.Draining
import RowStore.Proofs.Operator.Replay
import RowStore.Proofs.View.Copies
import RowStore.Proofs.View.Slots

/-!
# RowStore.Proofs.Operator.Deleting: deleting the rows of a child

Each delete frees one slot that was taken and leaves all others alone, so the records of the rows
that were deleted are distinct, and nothing else changes (`View.Loses`).  A scan below the operator
has left the page of a row behind when the row is handed out, and does not notice.  So the operator
deletes all rows of its child or, when it fails, the first of them (`Operator.deletes_rows`), and
over a scan it empties the table (`Operator.Empties`).
-/

namespace RowStore

namespace View

variable {v w w' : View} {records : List RecordId} {record : RecordId} {row : Row}
  {tid : TransactionId} {table : Table}

/-! ## Views that have lost records -/

/-- `w` is `v` without these records, each of which was taken. -/
structure Loses (v w : View) (records : List RecordId) : Prop where
  disk : w.disk = v.disk
  catalog : w.catalog = v.catalog
  distinct : records.Nodup
  taken : ∀ record ∈ records, (v.slot? record).isSome = true
  slots : ∀ record, w.slot? record = if record ∈ records then none else v.slot? record
  entries : ∀ record, w.entries record = if record ∈ records then none else v.entries record
  /-- Pages with none of the records are shown as they were, and no page is lost. -/
  pages : ∀ page, (∀ record ∈ records, record.page ≠ page) → w.page page = v.page page
  shown : ∀ page content, v.page page = .ok content → ∃ changed, w.page page = .ok changed

theorem Loses.refl (v : View) : v.Loses v [] := by
  refine ⟨rfl, rfl, List.nodup_nil, ?_, ?_, ?_, fun _ _ => rfl, fun _ content h => ⟨content, h⟩⟩
  · exact fun record hin => absurd hin List.not_mem_nil
  · exact fun record => (if_neg List.not_mem_nil).symm
  · exact fun record => (if_neg List.not_mem_nil).symm

/-- A delete takes out one record more. -/
theorem Loses.delete (h : v.Loses w records) (hk : w.Keyed)
    (hdeletes : w.Deletes w' tid row record) : v.Loses w' (records ++ [record]) := by
  have htaken := hdeletes.isSome_slot?
  have hslots := hdeletes.slot? hk
  have hentries := hdeletes.entries hk
  obtain ⟨changed, hid, rfl⟩ := hdeletes.exists_put hk
  -- the slot was taken before the delete, so it is not one of those that are free already
  have hnew : record ∉ records := by
    intro hin
    rw [h.slots, if_pos hin] at htaken
    cases htaken
  rw [h.slots, if_neg hnew] at htaken
  refine ⟨h.disk, h.catalog, ?_, ?_, ?_, ?_, ?_, ?_⟩
  · rw [← List.concat_eq_append]
    exact h.distinct.concat hnew
  · intro other hin
    rcases List.mem_append.mp hin with hold | hlast
    · exact h.taken other hold
    · rwa [List.mem_singleton.mp hlast]
  · intro other
    rw [hslots, Function.update_apply, h.slots]
    simp only [List.mem_append, List.mem_singleton]
    split_ifs <;> simp_all
  · intro other
    rw [hentries, Function.update_apply, h.entries]
    simp only [List.mem_append, List.mem_singleton]
    split_ifs <;> simp_all
  · intro page hout
    have hne : page ≠ changed.id := by
      rw [hid]
      exact (hout record (List.mem_append_right _ List.mem_cons_self)).symm
    rw [page_put, if_neg hne]
    exact h.pages page fun other hin => hout other (List.mem_append_left _ hin)
  · intro page found hfound
    rw [page_put]
    split_ifs
    · exact ⟨_, rfl⟩
    · exact h.shown page found hfound

/-- `w` is `v` without the records of these rows. -/
def Removes (v : View) (rows : List Row) (w : View) : Prop :=
  ∃ records, rows.map Row.record = records.map some ∧ v.Loses w records

/-- A table of which no slot is taken has no rows. -/
theorem scan_eq_nil (hk : v.Keyed)
    (hshown : ∀ number < table.pageCount v.disk, ∃ content, v.page ⟨table.id, number⟩ = .ok content)
    (hnone : ∀ record, record.page.table = table.id → v.slot? record = none) :
    v.scan table = .ok [] := by
  have hreadable : v.ReadableIn table.id := by
    intro number content hpage slot hused
    have hfree := hnone ⟨⟨table.id, number⟩, slot⟩ rfl
    rw [slot?_of_page hpage, if_pos hused] at hfree
    cases hfree
  have hread : ∃ rows, v.rowsFrom table.id 0 (table.pageCount v.disk) = .ok rows :=
    rowsFrom_isOk hreadable fun number _ hlt => hshown number (by omega)
  obtain ⟨rows, hrows⟩ := hread
  have hlists := lists_rowsFrom hk hrows
  have hempty := hlists.unique (Entries.lists_nil fun record hamong =>
    entries_of_slot?_eq_none (hnone record hamong.1))
  exact hempty ▸ hrows

/-- In a table that can be read the taken slots are those that have a row. -/
theorem isSome_slot?_iff {rows : List Row} (h : v.scan table = .ok rows)
    (htable : record.page.table = table.id)
    (hin : ∀ content, v.page record.page = .ok content →
      record.page.number < table.pageCount v.disk) :
    (v.slot? record).isSome = true ↔ (v.entries record).isSome = true := by
  refine ⟨fun htaken => ?_, isSome_slot?_of_entries⟩
  cases hpage : v.page record.page with
  | error e =>
    rw [slot?_of_error hpage] at htaken
    cases htaken
  | ok content =>
    have hshown : v.page ⟨table.id, record.page.number⟩ = .ok content := htable ▸ hpage
    have hreadable := readable_of_rowsFrom h (Nat.zero_le _)
      (by have := hin content hpage; omega) hshown
    rw [entries_of_page hpage, hreadable.isSome_read?]
    rw [slot?_of_page hpage] at htaken
    split_ifs at htaken with hused
    · exact hused
    · cases htaken

/-- Without the rows that a scan of a table found no slot of the table is taken. -/
theorem Removes.slot?_eq_none {rows found : List Row} (h : v.Removes rows w) (hk : v.Keyed)
    (hscan : v.scan table = .ok found) (hrows : rows.map Row.record = found.map Row.record)
    (hin : ∀ page content, v.page page = .ok content → page.table = table.id →
      page.number < table.pageCount v.disk) (hof : record.page.table = table.id) :
    w.slot? record = none := by
  obtain ⟨records, hrecords, hloses⟩ := h
  rw [hloses.slots]
  split_ifs with hdeleted
  · rfl
  by_contra htaken
  rw [← ne_eq, ← Option.isSome_iff_ne_none,
    isSome_slot?_iff hscan hof fun content hpage => hin _ content hpage hof] at htaken
  obtain ⟨listed, hentry⟩ := Option.isSome_iff_exists.mp htaken
  have hlisted := (lists_scan hk hscan hin).mem hof hentry
  have hmem : some record ∈ records.map some := by
    rw [← hrecords, hrows, ← record_of_entries hk hentry]
    exact List.mem_map_of_mem hlisted
  obtain ⟨other, hother, heq⟩ := List.mem_map.mp hmem
  exact hdeleted (Option.some.inj heq ▸ hother)

end View

namespace Operator

variable {s t t' : Store} {child op op' : Operator} {tid : TransactionId} {tally : Tally}
  {rows : List Row} {row : Row}

/-! ## One delete -/

/-- A delete that fails takes out nothing, and one that succeeds takes out the record of the row. -/
theorem removes_of_deleteChange {result : Except TableError Unit} (ht : t.Coherent)
    (h : s.view.Removes rows t.view) (hchange : deleteChange tid t row = (result, t')) :
    (∃ e, result = .error e) ∧ s.view.Removes rows t'.view ∨
      result = .ok () ∧ s.view.Removes (rows ++ [row]) t'.view ∧
        ∃ record, t.view.Deletes t'.view tid row record := by
  unfold deleteChange at hchange
  rcases hdelete : t.deleteRow tid row with ⟨told, t''⟩
  rw [hdelete] at hchange
  obtain ⟨rfl, rfl⟩ := Prod.mk.inj hchange
  rcases Store.deleteRow_spec ht hdelete with ⟨hview, hfailed⟩ | ⟨record, rfl, hdeletes⟩
  · refine Or.inl ⟨?_, hview ▸ h⟩
    cases told with
    | error e => exact ⟨e, rfl⟩
    | ok page => exact absurd rfl (hfailed page)
  · obtain ⟨records, hrecords, hloses⟩ := h
    refine Or.inr ⟨rfl, ⟨records ++ [record], ?_, hloses.delete ht.keyed_view hdeletes⟩, record,
      hdeletes⟩
    rw [List.map_append, List.map_append, hrecords, List.map_singleton, List.map_singleton,
      hdeletes.1]

/-- The page from which a row is deleted that was handed out has been left behind by the child. -/
theorem Supplies.deletes {record : RecordId} (h : Supplies s child op t (rows ++ [row]))
    (hs : s.Coherent) (ht : t.Coherent) (hdeletes : t.view.Deletes t'.view tid row record) :
    Supplies s child op t' (rows ++ [row]) := by
  obtain ⟨changed, hid, hview⟩ := hdeletes.exists_put ht.keyed_view
  have hbehind := h.not_ahead hs (List.mem_append_right _ List.mem_cons_self) hdeletes.1
  refine h.changed (congrArg View.catalog hview) fun page table hahead _ => ⟨?_, fun _ => ?_⟩
  · rw [show t'.disk = t.disk from congrArg View.disk hview]
  · have hne : page ≠ changed.id := by
      rintro rfl
      exact hbehind (hid ▸ hahead)
    rw [hview, View.page_put, if_neg hne]

/-! ## Opening the operator -/

theorem applies_delete (hleaf : child.IsLeaf) (hs : s.Coherent)
    (hclosed : (delete child tid tally).AllClosed) :
    (delete child tid tally).Applies s.view.Removes child s := by
  obtain ⟨htally, hchild⟩ := id hclosed
  refine applies_of_change hleaf hchild hs ⟨[], rfl, .refl s.view⟩ (moves_deleteChange tid) ?_ ?_
    (fun tally child => delete child tid tally) tally hclosed ?_ fun _ _ _ => drain_delete_tally
  · intro rows row op t t' ht hremoves hsupplies hchange
    rcases removes_of_deleteChange ht hremoves hchange with
      ⟨⟨e, hfailed⟩, -⟩ | ⟨-, hremoves', record, hdeletes⟩
    · cases hfailed
    · exact ⟨hremoves', hsupplies.deletes hs ht hdeletes⟩
  · intro rows row t t' e ht hremoves hchange
    rcases removes_of_deleteChange ht hremoves hchange with ⟨-, hremoves'⟩ | ⟨hok, -⟩
    · exact hremoves'
    · cases hok
  · exact if_neg (ne_true_of_eq_false htally)

/-- Opening the operator leaves no row in the table, and hands out how many there were. -/
def Empties (op : Operator) (s : Store) (table : Table) : Prop :=
  ∀ op' s', op.start s = (.ok (), op', s') → ∃ found row, s.view.scan table = .ok found ∧
    Tally.rowOf found.length = .ok row ∧ (op'.drain s').1 = .ok [row] ∧
    (∀ record, record.page.table = table.id → s'.view.slot? record = none) ∧
    s'.view.scan table = .ok [] ∧
    (s'.scan table = .ok [] ∨ isRefused (s'.scan table) = true)

/-- Whoever deletes all rows that a scan hands out empties the table. -/
theorem Applies.empties {source : TableScan} {table : Table} (hs : s.Coherent)
    (h : op.Applies s.view.Removes (scan source) s)
    (htable : s.catalog.table source.table = .ok table) : op.Empties s table := by
  intro op' s' hstart
  obtain ⟨rows, row, hyields, hremoves, hrow, hdrain⟩ := h.opened op' s' hstart
  obtain ⟨table', found, htable', hscan, rfl⟩ := hyields
  obtain rfl : table' = table := Except.ok.inj (htable'.symm.trans htable)
  obtain ⟨hid, -⟩ := Catalog.mem_of_table htable
  have hregistered : s.catalog.table table'.id = .ok table' := hid ▸ htable
  have hrecords : (found.map source.relabel).map Row.record = found.map Row.record :=
    List.map_map
  have hnone : ∀ record, record.page.table = table'.id → s'.view.slot? record = none :=
    fun record => hremoves.slot?_eq_none hs.keyed_view hscan hrecords (hs.pages_lt hregistered)
  have hs' : s'.Coherent := by
    have hmoves := op.moves_start hs.valid
    rw [hstart] at hmoves
    exact Store.Moves.coherent hmoves hs
  have hempty : s'.view.scan table' = .ok [] := by
    obtain ⟨records, -, hloses⟩ := hremoves
    refine View.scan_eq_nil hs'.keyed_view (fun number hlt => ?_) hnone
    rw [hloses.disk] at hlt
    obtain ⟨content, -, hpage, -⟩ :=
      View.exists_page_of_rowsFrom hscan (Nat.zero_le number) (by omega)
    exact hloses.shown _ content hpage
  refine ⟨found, row, hscan, by rwa [List.length_map] at hrow, hdrain, hnone, hempty, ?_⟩
  rw [← hempty]
  exact Store.scan_refines hs' table'

/-- In every state that is reached without a flush, an operator that is opened to delete the rows of
a list or of a scan deletes all of them, which are of distinct records that are all taken, and hands
out their number; or it fails, has deleted the first of them, and is closed with its child.  Over a
scan of a registered table it leaves the table empty. -/
theorem deletes_rows {first : Store} (hfresh : first.Fresh) (hsound : first.catalog.Sound)
    (hreached : first.Reached s) (hleaf : child.IsLeaf)
    (hclosed : (delete child tid tally).AllClosed) :
    (delete child tid tally).Applies s.view.Removes child s ∧
      ∀ source table, child = .scan source → s.catalog.table source.table = .ok table →
        (delete child tid tally).Empties s table := by
  obtain ⟨hs, -, -⟩ := hreached.invariant hfresh hsound
  have happlies := applies_delete hleaf hs hclosed
  refine ⟨happlies, ?_⟩
  rintro source table rfl htable
  exact happlies.empties hs htable

/-- Three rows of two transactions, on two pages that are dirty, are deleted through a scan. -/
theorem deletes_rows_scanned :
    let s := ((Session.mk (Sample.store 3 (by decide)) []).after
      [.insert ⟨1⟩ Sample.table.id (Sample.row 1 10), .insert ⟨1⟩ Sample.table.id (Sample.row 2 20),
        .insert ⟨2⟩ Sample.table.id (Sample.row 3 30)]).store
    let op := delete (.scan Sample.tableScan) ⟨3⟩ {}
    (s.view.scan Sample.table).map List.length = .ok 3 ∧ (op.start s).1 = .ok () ∧
      op.Applies s.view.Removes (.scan Sample.tableScan) s ∧ op.Empties s Sample.table := by
  intro s op
  have hreached : (Sample.store 3 (by decide)).Reached s :=
    @Store.Reached.after _ (Session.mk (Sample.store 3 (by decide)) []) .first _ (by decide)
  have hdeletes := @deletes_rows s (.scan Sample.tableScan) ⟨3⟩ {} _
    (Sample.fresh_store 3 (by decide)) Sample.sound_catalog hreached trivial ⟨rfl, rfl⟩
  refine ⟨by decide +kernel, by decide +kernel, hdeletes.1, hdeletes.2 _ _ rfl ?_⟩
  decide +kernel

end Operator

end RowStore
