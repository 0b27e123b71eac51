import RowStore.Proofs.Page.Entries
import RowStore.Proofs.Row.RoundTrip
import Mathlib.Data.List.Forall2

/-!
# RowStore.Proofs.Page.SlotArray: a page as a first-fit array of slots

Nothing is asked of the bytes of the page here: there may be any number of them, bits behind the
last slot may be set, and a taken slot need not be readable.  An insert fills the lowest free slot,
a delete clears one bit, and either leaves every other byte of the page, and so every other slot
(`Page.Inserted`, `Page.Deleted`).  Both are done in the bytes of the page, and `insertInPlace` and
`deleteInPlace` write as that is done, so that it can be said of a call that fails that nothing
was written.
-/

namespace RowStore.Page

variable {page changed : Page} {row : Row} {record : RecordId} {slot : Nat}

/-! ## Calls in place -/

/-- Inserts a row into the bytes of a page.  What is written before a column fails stays. -/
def insertInPlace (page : Page) (row : Row) : Except TableError RecordId × Page :=
  if ¬ row.schema.Agrees page.schema then
    (.error (.schemaMismatch page.schema row.schema), page)
  else
    match (List.range page.slots).find? fun slot => !page.isUsed slot with
    | none => (.error (.pageFull page.id), page)
    | some slot =>
      let (written, result) := row.encodeInto page.schema.width
      let data := page.data.splice (page.geometry.offset slot) written
      match result with
      | .error e => (.error (.codec e), { page with data })
      | .ok () => (.ok ⟨page.id, slot⟩, { page with data := markSlot data slot true })

/-- Deletes a row from the bytes of a page. -/
def deleteInPlace (page : Page) (row : Row) : Except TableError Unit × Page :=
  match row.record with
  | none => (.error .noRecord, page)
  | some record =>
    if record.page ≠ page.id then (.error (.wrongPage page.id record.page), page)
    else if page.slots ≤ record.slot then
      (.error (.slotOutOfRange record.slot page.slots), page)
    else if !page.isUsed record.slot then (.error (.slotEmpty record), page)
    else (.ok (), { page with data := markSlot page.data record.slot false })

/-- Writing a well-typed row into a page either comes to the end or does not begin. -/
theorem insertInPlace_eq (page : Page) (hrow : row.WellTyped) :
    page.insertInPlace row =
      match page.insert row with
      | .error e => (.error e, page)
      | .ok (record, changed) => (.ok record, changed) := by
  unfold insertInPlace insert
  rw [← firstFree?_eq_find?]
  by_cases hagree : row.schema.Agrees page.schema
  · rw [if_neg (not_not.mpr hagree), if_neg (not_not.mpr hagree)]
    cases page.firstFree? with
    | none => rfl
    | some slot =>
      obtain ⟨bytes, hbytes⟩ := exists_encodeValues hrow.2
      have hwritten : row.encodeInto page.schema.width = (bytes, .ok ()) := by
        refine encodeValuesInto_eq hbytes (Nat.le_of_eq ?_)
        rw [Schema.width, show row.schema.types = page.schema.types from hagree]
      dsimp only
      rw [hwritten, show row.encode = .ok bytes from hbytes]
  · rw [if_pos hagree, if_pos hagree]

theorem deleteInPlace_eq (page : Page) (row : Row) :
    page.deleteInPlace row =
      match page.delete row with
      | .error e => (.error e, page)
      | .ok changed => (.ok (), changed) := by
  unfold deleteInPlace delete
  cases row.record with
  | none => rfl
  | some record =>
    dsimp only
    split_ifs <;> rfl

/-! ## The bytes of a page -/

/-- The bit of a slot is set or cleared and a piece stands where the slot starts.  Of the other
bits and bytes, and of all the page has besides its bytes, nothing is changed. -/
structure Edited (page : Page) (slot : Nat) (on : Bool) (piece : Bytes) (changed : Page) :
    Prop where
  rest : changed = { page with data := changed.data }
  length : changed.data.length = page.data.length
  bits : ∀ index < 8, bitAt (changed.data.getD (slot / 8) 0) index =
    if index = slot % 8 then on else bitAt (page.data.getD (slot / 8) 0) index
  stored : changed.data.slice (page.geometry.offset slot) piece.length = piece
  others : ∀ index, index ≠ slot / 8 →
    ¬ (page.geometry.offset slot ≤ index ∧ index < page.geometry.offset slot + piece.length) →
      changed.data[index]? = page.data[index]?

theorem edited_markSlot (hslot : slot < page.slots) (on : Bool) {piece : Bytes}
    (hpiece : piece.length ≤ page.schema.width) :
    page.Edited slot on piece
      { page with
        data := markSlot (page.data.splice (page.geometry.offset slot) piece) slot on } := by
  have hfit : page.geometry.offset slot + page.schema.width ≤ page.data.length :=
    PageGeometry.offset_add_le hslot
  have hbyte : slot / 8 < page.geometry.offset slot := PageGeometry.byte_lt_offset hslot slot
  have hstart : page.geometry.offset slot ≤ page.data.length := by omega
  refine ⟨rfl, ?_, fun index hindex => ?_, ?_, fun index hne hout => ?_⟩
  · rw [length_markSlot, Bytes.length_splice (by omega)]
  · have hget : page.data[slot / 8]? = some page.data[slot / 8] :=
      List.getElem?_eq_getElem (by omega)
    unfold markSlot
    rw [List.getD_eq_getElem?_getD, List.getD_eq_getElem?_getD, List.getElem?_modify_eq,
      Bytes.getElem?_splice piece hstart, if_pos hbyte, hget, Option.map_eq_map, Option.map_some,
      Option.getD_some, Option.getD_some, bitAt_setBitAt _ (Nat.mod_lt _ (by decide)) hindex]
  · dsimp only
    rw [slice_markSlot hbyte, Bytes.slice_splice_self piece hstart]
  · unfold markSlot
    rw [List.getElem?_modify_ne _ _ (Ne.symm hne), Bytes.getElem?_splice piece hstart]
    split_ifs with hbefore hinside
    · rfl
    · exact absurd ⟨Nat.not_lt.mp hbefore, hinside⟩ hout
    · rfl

/-! ## Slots -/

/-- Every slot but one is taken or free as before, and is read with the same result as before, be
that a row or an error. -/
def SameBut (page : Page) (slot : Nat) (changed : Page) : Prop :=
  ∀ other, other ≠ slot →
    changed.isUsed other = page.isUsed other ∧ changed.row? other = page.row? other

/-- What an insert that succeeds does to a page. -/
structure Inserted (page : Page) (row : Row) (record : RecordId) (changed : Page) : Prop where
  id : record.page = page.id
  lowest : page.LowestFree record.slot
  bytes : ∃ bytes, row.encodeInto page.schema.width = (bytes, .ok ()) ∧
    bytes.length = page.schema.width ∧ page.Edited record.slot true bytes changed
  row : ∃ kept, KeepsAll page.schema.types row.values kept ∧
    changed.row? record.slot = .ok (some ⟨page.schema, kept, some record⟩)
  others : page.SameBut record.slot changed

/-- What a delete that succeeds does to a page. -/
structure Deleted (page : Page) (slot : Nat) (changed : Page) : Prop where
  bytes : page.Edited slot false [] changed
  row : changed.isUsed slot = false ∧ changed.row? slot = .ok none
  others : page.SameBut slot changed

theorem inserted_of_insert (hrow : row.WellTyped)
    (htypes : ∀ type ∈ page.schema.types, type.Addressable)
    (h : page.insert row = .ok (record, changed)) : page.Inserted row record changed := by
  have hstores := storesAs_of_insert h hrow htypes
  have hself := row?_insert_self h hstores
  obtain ⟨slot, bytes, hagree, hslot, hbytes, hrecord, hchanged⟩ := insert_eq_ok h
  have hlowest := firstFree?_eq_some_iff.mp hslot
  have htypes' : row.schema.types = page.schema.types := hagree
  have hwidth : row.schema.width = page.schema.width := by
    rw [Schema.width, Schema.width, htypes']
  have hlength : bytes.length = page.schema.width := (length_encode hrow hbytes).trans hwidth
  have hwritten : row.encodeInto page.schema.width = (bytes, .ok ()) :=
    encodeValuesInto_eq hbytes (Nat.le_of_eq hwidth)
  have hkept := keepsAll_zipWith hrow.length_values hrow.2
  rw [htypes'] at hkept
  refine ⟨id_of_insert h, ?_, ⟨bytes, hwritten, hlength, ?_⟩, ⟨_, hkept, hself⟩,
    fun other hne => ⟨?_, row?_insert_of_ne h hne⟩⟩
  · rwa [hrecord]
  · rw [hrecord, hchanged]
    exact edited_markSlot hlowest.1 true (Nat.le_of_eq hlength)
  · rw [isUsed_insert h, decide_eq_false hne, Bool.false_or]

theorem deleted_of_delete (h : page.delete row = .ok changed)
    (hrecord : row.record = some ⟨page.id, slot⟩) : page.Deleted slot changed := by
  have hfreed := isUsed_delete_self h hrecord
  obtain ⟨gone, hgone, hlt, -, hchanged⟩ := delete_eq_ok h
  obtain rfl : gone = slot := by simpa using hgone.symm.trans hrecord
  refine ⟨?_, ⟨hfreed, by rw [row?, if_neg (by rw [hfreed]; exact Bool.false_ne_true)]⟩,
    fun other hne => ⟨?_, row?_delete_of_ne h hrecord hne⟩⟩
  · have hedited := @edited_markSlot page gone hlt false [] (Nat.zero_le _)
    rwa [Bytes.splice_nil, ← hchanged] at hedited
  · rw [isUsed_delete h hrecord, decide_eq_true hne, Bool.true_and]

/-! ## All slots -/

theorem length_usedSlots_add_length_freeSlots (page : Page) :
    page.usedSlots.length + page.freeSlots.length = page.slots := by
  rw [usedSlots, freeSlots, ← List.length_eq_length_filter_add, List.length_range]

/-- What reading all rows of a page gives. -/
structure Listed (page : Page) : Prop where
  used : ∀ slot, slot ∈ page.usedSlots ↔ page.isUsed slot = true
  ascending : page.usedSlots.Pairwise (· < ·)
  rows : ∀ rows, page.rows = .ok rows →
    List.Forall₂ (fun slot row => page.row? slot = .ok (some row)) page.usedSlots rows
  fails : (∃ e, page.rows = .error e) ↔
    ∃ slot e, page.isUsed slot = true ∧ page.row? slot = .error e
  free : ∀ slot, slot ∈ page.freeSlots ↔ slot < page.slots ∧ page.isUsed slot = false
  count : page.usedSlots.length + page.freeSlots.length = page.slots

theorem listed (page : Page) : page.Listed := by
  refine ⟨fun slot => mem_usedSlots, page.pairwise_usedSlots, fun rows hrows => ?_, ?_,
    fun slot => mem_freeSlots, page.length_usedSlots_add_length_freeSlots⟩
  · refine (forall₂_of_rows hrows).imp fun slot row hread => ?_
    obtain ⟨hused, hrow⟩ := read?_eq_some_iff.mp hread
    rw [row?_of_isUsed hused, hrow]
    rfl
  · constructor
    · rintro ⟨e, herror⟩
      by_contra hnone
      have hreadable : page.Readable := by
        intro slot hused
        cases hread : page.rowAt page.geometry slot with
        | ok row => exact ⟨row, by rw [row?_of_isUsed hused, hread]; rfl⟩
        | error e => exact absurd ⟨slot, e, hused, by rw [row?_of_isUsed hused, hread]; rfl⟩ hnone
      obtain ⟨rows, hrows⟩ := hreadable.rows_isOk
      cases hrows.symm.trans herror
    · rintro ⟨slot, e, hused, herror⟩
      cases hrows : page.rows with
      | error e => exact ⟨e, rfl⟩
      | ok rows =>
        obtain ⟨row, hrow⟩ := readable_of_rows hrows slot hused
        cases hrow.symm.trans herror

/-! ## The page -/

/-- What there is to say of inserting a row into a page. -/
structure Inserts (page : Page) (row : Row) : Prop where
  succeeds : (∃ result, page.insert row = .ok result) ↔
    row.schema.Agrees page.schema ∧ ∃ slot < page.slots, page.isUsed slot = false
  effect : ∀ record changed, page.insert row = .ok (record, changed) →
    page.Inserted row record changed
  written : ∀ record changed, page.insertInPlace row = (.ok record, changed) ↔
    page.insert row = .ok (record, changed)
  fails : ∀ e changed, page.insertInPlace row = (.error e, changed) ↔
    page.insert row = .error e ∧ changed = page

/-- What there is to say of deleting a row from a page. -/
structure Deletes (page : Page) (row : Row) : Prop where
  succeeds : (∃ changed, page.delete row = .ok changed) ↔
    ∃ slot, row.record = some ⟨page.id, slot⟩ ∧ slot < page.slots ∧ page.isUsed slot = true
  effect : ∀ slot changed, row.record = some ⟨page.id, slot⟩ → page.delete row = .ok changed →
    page.Deleted slot changed
  written : ∀ changed, page.deleteInPlace row = (.ok (), changed) ↔ page.delete row = .ok changed
  fails : ∀ e changed, page.deleteInPlace row = (.error e, changed) ↔
    page.delete row = .error e ∧ changed = page

theorem inserts (htypes : ∀ type ∈ page.schema.types, type.Addressable) (hrow : row.WellTyped) :
    page.Inserts row := by
  refine ⟨⟨?_, ?_⟩, fun record changed h => inserted_of_insert hrow htypes h,
    fun record changed => ?_, fun e changed => ?_⟩
  · rintro ⟨⟨record, changed⟩, h⟩
    obtain ⟨slot, bytes, hagree, hslot, -⟩ := insert_eq_ok h
    exact ⟨hagree, firstFree?_ne_none_iff.mp (by rw [hslot]; exact Option.some_ne_none slot)⟩
  · rintro ⟨hagree, hfree⟩
    exact insert_isOk hrow hagree (firstFree?_ne_none_iff.mpr hfree)
  · rw [insertInPlace_eq page hrow]
    rcases page.insert row with e | ⟨record', changed'⟩ <;> simp
  · rw [insertInPlace_eq page hrow]
    rcases page.insert row with e' | ⟨record', changed'⟩ <;> simp [eq_comm]

theorem deletes (page : Page) (row : Row) : page.Deletes row := by
  refine ⟨⟨?_, ?_⟩, fun slot changed hrecord h => deleted_of_delete h hrecord, fun changed => ?_,
    fun e changed => ?_⟩
  · rintro ⟨changed, h⟩
    obtain ⟨slot, hrecord, hlt, hused, -⟩ := delete_eq_ok h
    exact ⟨slot, hrecord, hlt, hused⟩
  · rintro ⟨slot, hrecord, hlt, hused⟩
    refine ⟨{ page with data := markSlot page.data slot false }, ?_⟩
    rw [delete, hrecord]
    simp [hused, Nat.not_le.mpr hlt]
  · rw [deleteInPlace_eq]
    rcases page.delete row with e | changed' <;> simp
  · rw [deleteInPlace_eq]
    rcases page.delete row with e' | changed' <;> simp [eq_comm]

/-- For every schema with lengths that can be stored and every page of it, whatever its bytes: a
well-typed row can be inserted exactly when the schemas agree and a slot is free; it goes into the
lowest free slot, is read back from there as its columns keep it, and no other byte and no other
slot is changed.  A row can be deleted exactly when its record names a taken slot of this page; its
bit is cleared, and no other byte and no other slot is changed.  A call that fails writes nothing.
Reading the page lists the taken slots in ascending order, and fails only for a taken slot that
cannot be read; and every slot is taken or free. -/
theorem is_slotArray (page : Page) (htypes : ∀ type ∈ page.schema.types, type.Addressable) :
    (∀ row, row.WellTyped → page.Inserts row) ∧ (∀ row, page.Deletes row) ∧ page.Listed :=
  ⟨fun _ hrow => inserts htypes hrow, page.deletes, page.listed⟩

/-- A page of two slots on which bits behind the last slot are set and the second slot, which is
taken, has a length out of range: a row goes into the first slot, cut to its column, the second
reads with the same error as before, and for it the page cannot be listed. -/
theorem is_slotArray_garbage :
    let schema : Schema := ⟨[⟨.varchar 2, none⟩], by decide⟩
    let page := ofBytes ⟨⟨3⟩, 0⟩ schema
      ([0xFE] ++ Bytes.zeros 6 ++ [0xFF, 0xFF, 0xFF, 0xFF, 0x61, 0x62] ++ [0x7F])
    let row : Row := ⟨schema, [.text "aé"], none⟩
    page.slots = 2 ∧ row.WellTyped ∧ ∃ changed, page.insert row = .ok (⟨⟨⟨3⟩, 0⟩, 0⟩, changed) ∧
      changed.row? 0 = .ok (some ⟨schema, [.text "a"], some ⟨⟨⟨3⟩, 0⟩, 0⟩⟩) ∧
      page.row? 1 = .error (.codec (.lengthOutOfRange (-1) 2)) ∧
      changed.row? 1 = page.row? 1 ∧ changed.data[13]? = page.data[13]? ∧
      ∃ e, page.rows = .error e := by
  intro schema page row
  have hslots : page.slots = 2 := by decide
  have hrow : row.WellTyped := ⟨rfl, by decide⟩
  obtain ⟨hinserts, -, hlisted⟩ := is_slotArray page (by decide)
  obtain ⟨hsucceeds, heffect, -, -⟩ := hinserts row hrow
  obtain ⟨⟨record, changed⟩, hok⟩ := hsucceeds.mpr ⟨rfl, 0, by decide, by decide +kernel⟩
  obtain ⟨-, -, ⟨bytes, -, hlength, hedited⟩, -, hothers⟩ := heffect _ _ hok
  have hbad : page.row? 1 = .error (.codec (.lengthOutOfRange (-1) 2)) := by decide +kernel
  have hrecord : (page.insert row).map Prod.fst = .ok ⟨⟨⟨3⟩, 0⟩, 0⟩ := by decide +kernel
  have hread : ((page.insert row).map fun result => result.2.row? 0) =
      .ok (.ok (some ⟨schema, [.text "a"], some ⟨⟨⟨3⟩, 0⟩, 0⟩⟩)) := by decide +kernel
  rw [hok] at hrecord hread
  obtain rfl : record = ⟨⟨⟨3⟩, 0⟩, 0⟩ := Except.ok.inj hrecord
  refine ⟨hslots, hrow, changed, hok, Except.ok.inj hread, hbad, (hothers 1 (by decide)).2, ?_,
    hlisted.fails.mpr ⟨1, _, by decide +kernel, hbad⟩⟩
  refine hedited.others 13 (by decide) ?_
  rw [hlength]
  decide

end RowStore.Page
