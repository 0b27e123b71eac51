import RowStore.Proofs.FailedInsert
import RowStore.Proofs.Page.SlotArray
import RowStore.Proofs.Store.Entries

/-!
# RowStore.Proofs.Deletion: when a row can be deleted, and the one bit that changes

A row can be deleted exactly when its record names a slot that is taken on a page that the file of
its table spans (`Store.Takes`).  The delete clears the bit of that slot and marks the page; every
other bit and byte of the page, every other page and every file are as they were (`Store.Frees`).
A delete that fails has fetched a page at most, and nothing of what is shown has changed.
-/

namespace RowStore.Store

variable {first s s' : Store} {tid : TransactionId} {row : Row} {record : RecordId} {page : PageId}
  {table : Table} {content : Page}

/-! ## Records that are taken -/

/-- A page, whole or in part, of the file of a registered table. -/
def Spans (s : Store) (page : PageId) : Prop :=
  ∃ table, s.catalog.table page.table = .ok table ∧ page.number < table.pageCount s.disk

/-- A record of a registered table whose slot is taken on the page that is shown. -/
def Takes (s : Store) (record : RecordId) : Prop :=
  s.Spans record.page ∧ ∃ content, s.shown record.page = .ok content ∧
    record.slot < content.slots ∧ content.isUsed record.slot = true

/-- A page that is shown is one that its file spans. -/
theorem Coherent.spans (hs : s.Coherent) (h : s.shown page = .ok content) : s.Spans page := by
  obtain ⟨table, ht, -⟩ := hs.table_of_shown h
  exact ⟨table, ht, hs.number_lt_pageCount (hs.page_view page ▸ h) ht⟩

/-- Whatever record a row has that is taken on a page that can be fetched, it can be deleted. -/
theorem deleteRow_of_takes (hs : s.Coherent) (hrecord : row.record = some record)
    (htakes : s.Takes record) (hfetch : ∃ content, (s.fetch record.page).1 = .ok content) :
    (s.deleteRow tid row).1 = .ok record.page := by
  obtain ⟨⟨table, ht, hlt⟩, content, hshown, hslot, hused⟩ := htakes
  obtain ⟨fetched, hfetch⟩ := hfetch
  obtain rfl := Except.ok.inj ((shown_of_fetch hfetch).symm.trans hshown)
  have hid : fetched.id = record.page :=
    hs.keyed_view.id_of_page ((hs.page_view record.page).trans hshown)
  obtain ⟨changed, hdelete⟩ := (fetched.deletes row).succeeds.mpr
    ⟨record.slot, by rw [hrecord, hid], hslot, hused⟩
  have htable : table.id = record.page.table := (Catalog.mem_of_table ht).1
  rw [deleteRow, hrecord]
  dsimp only
  rw [ht]
  dsimp only
  rw [deleteFromTable, hrecord]
  dsimp only
  rw [if_neg (not_not.mpr htable.symm), if_neg (Nat.not_le.mpr hlt)]
  rcases hout : s.fetch record.page with ⟨e | found, s₁⟩
  · rw [hout] at hfetch
    cases hfetch
  · rw [hout] at hfetch
    obtain rfl := Except.ok.inj hfetch
    dsimp only
    rw [hdelete]

/-! ## What a delete does -/

/-- `s'` is `s` with the slot of a record freed by `tid`. -/
structure Frees (s s' : Store) (tid : TransactionId) (record : RecordId) : Prop where
  disk : s'.disk = s.disk
  catalog : s'.catalog = s.catalog
  /-- The slot was taken; its bit is cleared, and no other bit or byte of the page is changed. -/
  page : ∃ content changed, s.shown record.page = .ok content ∧
    content.isUsed record.slot = true ∧ content.Deleted record.slot changed ∧
    s'.shown record.page = .ok (changed.mark (some tid))
  /-- Every other page shows the same bytes, changed by the same transaction. -/
  others : ∀ page, page ≠ record.page → s'.shown page = s.shown page
  /-- No other page has become dirty or clean. -/
  changed : ∀ page, page ≠ record.page → s'.view.changed page = s.view.changed page
  handles : s'.cache.handles = s.cache.handles
  detached : s'.cache.detached = s.cache.detached
  capacity : s'.cache.capacity = s.cache.capacity

theorem frees_of_deletes (hs : s.Coherent) (hs' : s'.Coherent) (hsteps : Steps s s')
    (h : s.view.Deletes s'.view tid row record) : s.Frees s' tid record := by
  obtain ⟨hrecord, content, changed, hpage, hdelete, hview⟩ := h
  have hid : content.id = record.page := hs.keyed_view.id_of_page hpage
  have hid' : (changed.mark (some tid)).id = record.page :=
    (Page.rewrites_of_delete hdelete).id.trans hid
  have hrecord' : row.record = some ⟨content.id, record.slot⟩ := by rw [hrecord, hid]
  obtain ⟨hhandles, hcapacity⟩ := Moves.fixed (Steps.moves hsteps)
  refine ⟨congrArg View.disk hview, congrArg View.catalog hview, ⟨content, changed, ?_, ?_, ?_, ?_⟩,
    fun page hne => ?_, fun page hne => ?_, hhandles, hsteps.detached, hcapacity⟩
  · rw [← hs.page_view, hpage]
  · exact (Page.isUsed_of_delete hdelete hrecord).2
  · exact Page.deleted_of_delete hdelete hrecord'
  · rw [← hs'.page_view, hview, View.page_put, if_pos hid'.symm]
  · rw [← hs'.page_view, ← hs.page_view, hview, View.page_put, if_neg (hid' ▸ hne)]
  · rw [hview]
    exact if_neg (hid' ▸ hne)

/-- A slot that was freed is taken no more. -/
theorem Frees.not_takes (h : s.Frees s' tid record) : ¬ s'.Takes record := by
  obtain ⟨content, changed, -, -, hdeleted, hshown⟩ := h.page
  rintro ⟨-, found, hfound, -, hused⟩
  obtain rfl := Except.ok.inj (hshown.symm.trans hfound)
  have hfree : (changed.mark (some tid)).isUsed record.slot = false := hdeleted.row.1
  cases hused.symm.trans hfree

/-- A delete that succeeds frees the slot of the record of its row, and one that fails touches
nothing. -/
theorem Coherent.deleteRow_cases (hs : s.Coherent) (tid : TransactionId) (row : Row) :
    (∃ record, row.record = some record ∧ (s.deleteRow tid row).1 = .ok record.page ∧
        s.Frees (s.deleteRow tid row).2 tid record) ∨
      (∃ e, (s.deleteRow tid row).1 = .error e) ∧ s.Untouched (s.deleteRow tid row).2 := by
  have hsteps := steps_deleteRow hs.valid tid row
  rcases hdelete : s.deleteRow tid row with ⟨result, s'⟩
  rw [hdelete] at hsteps
  rcases deleteRow_spec hs hdelete with ⟨hview, hfailed⟩ | ⟨record, rfl, hdeletes⟩
  · refine Or.inr ⟨?_, hsteps.untouched hs hview⟩
    cases result with
    | error e => exact ⟨e, rfl⟩
    | ok page => exact absurd rfl (hfailed page)
  · exact Or.inl ⟨record, hdeletes.1, rfl,
      frees_of_deletes hs (Moves.coherent (Steps.moves hsteps) hs) hsteps hdeletes⟩

/-- Deleting a row from its own table is deleting it from the table its record names. -/
theorem deleteFromTable_eq (ht : s.catalog.table table.id = .ok table)
    (hown : ∀ record, row.record = some record → record.page.table = table.id) :
    s.deleteFromTable table tid row = s.deleteRow tid row := by
  unfold deleteRow
  cases hrecord : row.record with
  | none => rw [deleteFromTable, hrecord]
  | some record =>
    dsimp only
    rw [hown record hrecord, ht]

theorem deleteFromTable_foreign (hrecord : row.record = some record)
    (hforeign : record.page.table ≠ table.id) :
    s.deleteFromTable table tid row = (.error (.wrongTable table.id record.page.table), s) := by
  rw [deleteFromTable, hrecord]
  exact if_pos hforeign

/-- In every state that is reached without a flush, a row whose page can be fetched is deleted
exactly when its record names a taken slot of a registered table.  That slot is freed for `tid` and
nothing else is changed; a delete that fails changes nothing.  A table deletes rows of its own the
same way, and refuses any other without looking at a page. -/
theorem deleteRow_frees (hfresh : first.Fresh) (hsound : first.catalog.Sound)
    (hreached : first.Reached s) (tid : TransactionId) (row : Row) :
    ((∀ record, row.record = some record → s.Spans record.page →
        ∃ content, (s.fetch record.page).1 = .ok content) →
      ((∃ page, (s.deleteRow tid row).1 = .ok page) ↔
        ∃ record, row.record = some record ∧ s.Takes record)) ∧
    (∀ page s', s.deleteRow tid row = (.ok page, s') →
      ∃ record, row.record = some record ∧ page = record.page ∧ s.Frees s' tid record) ∧
    (∀ e s', s.deleteRow tid row = (.error e, s') → s.Untouched s') ∧
    ∀ table, s.catalog.table table.id = .ok table →
      ((∀ record, row.record = some record → record.page.table = table.id) →
        s.deleteFromTable table tid row = s.deleteRow tid row) ∧
      ∀ record, row.record = some record → record.page.table ≠ table.id →
        s.deleteFromTable table tid row =
          (.error (.wrongTable table.id record.page.table), s) := by
  obtain ⟨hs, -, -⟩ := hreached.invariant hfresh hsound
  have hcases := hs.deleteRow_cases tid row
  refine ⟨fun hfetch => ⟨?_, ?_⟩, fun page s' h => ?_, fun e s' h => ?_, fun table ht =>
    ⟨deleteFromTable_eq ht, fun record => deleteFromTable_foreign⟩⟩
  · rintro ⟨page, hok⟩
    obtain ⟨record, hrecord, -, hfrees⟩ | ⟨⟨e, herror⟩, -⟩ := hcases
    · obtain ⟨content, changed, hshown, hused, -⟩ := hfrees.page
      have hslot : record.slot < content.slots := by
        rw [Page.isUsed_eq, Bool.and_eq_true, decide_eq_true_eq] at hused
        exact hused.1
      exact ⟨record, hrecord, hs.spans hshown, content, hshown, hslot, hused⟩
    · cases hok.symm.trans herror
  · rintro ⟨record, hrecord, htakes⟩
    exact ⟨record.page, deleteRow_of_takes hs hrecord htakes (hfetch record hrecord htakes.1)⟩
  · rw [h] at hcases
    obtain ⟨record, hrecord, hok, hfrees⟩ | ⟨⟨e, herror⟩, -⟩ := hcases
    · exact ⟨record, hrecord, Except.ok.inj hok, hfrees⟩
    · cases herror
  · rw [h] at hcases
    obtain ⟨record, -, hok, -⟩ | ⟨-, huntouched⟩ := hcases
    · cases hok
    · exact huntouched

/-- A row of a page that the first transaction changed is deleted by the second, which marks the
page; it cannot be deleted again, and the table refuses a row of another. -/
theorem deleteRow_frees_shared :
    let s := ((Session.mk (Sample.store 2 (by decide)) []).after
      [.insert ⟨1⟩ Sample.table.id (Sample.row 1 10), .insert ⟨1⟩ Sample.table.id (Sample.row 2 20),
        .insert ⟨1⟩ Sample.table.id (Sample.row 3 30)]).store
    let record : RecordId := ⟨⟨Sample.table.id, 0⟩, 1⟩
    let row := (Sample.row 2 20).withRecord (some record)
    let foreign := (Sample.row 2 20).withRecord (some ⟨⟨⟨7⟩, 0⟩, 1⟩)
    let outcome := s.deleteRow ⟨2⟩ row
    outcome.1 = .ok record.page ∧ s.Takes record ∧ s.Frees outcome.2 ⟨2⟩ record ∧
      ¬ outcome.2.Takes record ∧
      s.deleteFromTable Sample.table ⟨2⟩ row = outcome ∧
      s.deleteFromTable Sample.table ⟨2⟩ foreign =
        (.error (.wrongTable Sample.table.id ⟨7⟩), s) := by
  intro s record row foreign outcome
  have hreached : (Sample.store 2 (by decide)).Reached s :=
    @Reached.after _ (Session.mk (Sample.store 2 (by decide)) []) .first _ (by decide)
  have htable : s.catalog.table Sample.table.id = .ok Sample.table := by decide +kernel
  have hok : outcome.1 = .ok record.page := by decide +kernel
  have hfetch : ∃ content, (s.fetch record.page).1 = .ok content := by
    have hisOk : (s.fetch record.page).1.isOk = true := by decide +kernel
    cases hcontent : (s.fetch record.page).1 with
    | error e =>
      rw [hcontent] at hisOk
      cases hisOk
    | ok content => exact ⟨content, rfl⟩
  obtain ⟨hiff, hdone, -, hown⟩ := deleteRow_frees (Sample.fresh_store 2 (by decide))
    Sample.sound_catalog hreached ⟨2⟩ row
  obtain ⟨-, -, -, hrefuses⟩ := deleteRow_frees (Sample.fresh_store 2 (by decide))
    Sample.sound_catalog hreached ⟨2⟩ foreign
  have hrecord : ∀ found, row.record = some found → found = record := fun found h =>
    (Option.some.inj h).symm
  obtain ⟨taken, hrow, htakes⟩ := (hiff fun found h _ => hrecord found h ▸ hfetch).mp ⟨_, hok⟩
  obtain ⟨freed, hrow', -, hfrees⟩ := hdone record.page outcome.2 (by rw [← hok])
  obtain rfl := hrecord taken hrow
  obtain rfl := hrecord freed hrow'
  exact ⟨hok, htakes, hfrees, hfrees.not_takes, (hown _ htable).1 fun found h => hrecord found h ▸ rfl,
    (hrefuses _ htable).2 ⟨⟨⟨7⟩, 0⟩, 1⟩ rfl (by decide +kernel)⟩

end RowStore.Store
