import RowStore.Proofs.View.Entries

/-!
# RowStore.Proofs.View.Slots: which slots are taken, and by which bytes

`View.slot?` is what a view has at a record, whether or not it can be read as a row.  An insert
takes one slot, a delete frees one, an empty page takes none, and every other slot keeps its bytes.
-/

namespace RowStore.View

variable {v v' : View} {record other : RecordId} {content : Page} {tid : TransactionId} {row : Row}

/-- The bytes in the slot of a record; `none` when the slot is free or there is no such slot. -/
def slot? (v : View) (record : RecordId) : Option Bytes :=
  match v.page record.page with
  | .error _ => none
  | .ok content =>
    if content.isUsed record.slot then some (content.slotBytes record.slot) else none

theorem slot?_of_page (h : v.page record.page = .ok content) : v.slot? record =
    if content.isUsed record.slot then some (content.slotBytes record.slot) else none := by
  rw [slot?, h]

theorem slot?_of_error {e : CacheError} (h : v.page record.page = .error e) :
    v.slot? record = none := by
  rw [slot?, h]

theorem slot?_congr (h : v'.page record.page = v.page record.page) :
    v'.slot? record = v.slot? record := by
  rw [slot?, slot?, h]

/-- A record with a row has a slot that is taken. -/
theorem isSome_slot?_of_entries (h : (v.entries record).isSome = true) :
    (v.slot? record).isSome = true := by
  obtain ⟨content, hpage⟩ := exists_page_of_isSome h
  rw [entries_of_page hpage] at h
  rw [slot?_of_page hpage]
  split_ifs with hused
  · rfl
  · rw [Page.read?_of_not_isUsed (by simpa using hused)] at h
    cases h

theorem entries_of_slot?_eq_none (h : v.slot? record = none) : v.entries record = none := by
  by_contra hsome
  have htaken := isSome_slot?_of_entries (Option.isSome_iff_ne_none.mpr hsome)
  rw [h] at htaken
  cases htaken

/-- A row knows its record. -/
theorem record_of_entries (hk : v.Keyed) (h : v.entries record = some row) :
    row.record = some record := by
  obtain ⟨content, hpage⟩ := exists_page_of_isSome (Option.isSome_of_eq_some h)
  rw [entries_of_page hpage] at h
  rw [Page.record_of_read? h, hk.id_of_page hpage]

theorem Grows.slot? (h : v.Grows v') (hs : v.catalog.Sound) : v'.slot? = v.slot? := by
  funext record
  rcases h.page_cases hs record.page with hsame | ⟨⟨e, hold⟩, hzeros⟩
  · exact slot?_congr hsame
  · rw [slot?_of_error hold]
    cases hnew : v'.page record.page with
    | error e' => exact slot?_of_error hnew
    | ok content =>
      obtain ⟨count, hdata⟩ := hzeros content hnew
      rw [slot?_of_page hnew, if_neg]
      rw [Page.isUsed_of_zeros hdata]
      exact Bool.false_ne_true

/-- What is changed on one page is in no slot of another. -/
theorem slot?_put {changed : Page} (hne : record.page ≠ changed.id) :
    (v.put changed).slot? record = v.slot? record := by
  apply slot?_congr
  rw [page_put, if_neg hne]

/-- An insert changes the page of the record it tells. -/
theorem Inserts.exists_put (h : v.Inserts v' tid row record) (hk : v.Keyed) :
    ∃ changed : Page, changed.id = record.page ∧ v' = v.put changed := by
  obtain ⟨content, changed, hpage, hinsert, rfl⟩ := h
  exact ⟨changed.mark (some tid), (Page.rewrites_of_insert hinsert).id.trans
    (hk.id_of_page hpage), rfl⟩

/-- A delete changes the page of the record of its row. -/
theorem Deletes.exists_put (h : v.Deletes v' tid row record) (hk : v.Keyed) :
    ∃ changed : Page, changed.id = record.page ∧ v' = v.put changed := by
  obtain ⟨-, content, changed, hpage, hdelete, rfl⟩ := h
  exact ⟨changed.mark (some tid), (Page.rewrites_of_delete hdelete).id.trans
    (hk.id_of_page hpage), rfl⟩

/-- An insert tells a record whose slot was free. -/
theorem Inserts.slot?_eq_none (h : v.Inserts v' tid row record) : v.slot? record = none := by
  obtain ⟨content, changed, hpage, hinsert, -⟩ := h
  rw [slot?_of_page hpage, if_neg]
  rw [Page.isUsed_of_insert hinsert]
  exact Bool.false_ne_true

/-- It leaves all other slots as they were. -/
theorem Inserts.slot?_of_ne (h : v.Inserts v' tid row record) (hk : v.Keyed)
    (hne : other ≠ record) : v'.slot? other = v.slot? other := by
  obtain ⟨content, changed, hpage, hinsert, rfl⟩ := h
  have hid : (changed.mark (some tid)).id = record.page :=
    (Page.rewrites_of_insert hinsert).id.trans (hk.id_of_page hpage)
  by_cases hsame : other.page = record.page
  · have hslot : other.slot ≠ record.slot := by
      intro hslot
      apply hne
      cases other
      cases record
      simp_all
    have hnew : (v.put (changed.mark (some tid))).page other.page =
        .ok (changed.mark (some tid)) := by
      rw [page_put, if_pos (hsame.trans hid.symm)]
    rw [slot?_of_page hnew, slot?_of_page (hsame.symm ▸ hpage)]
    show (if changed.isUsed other.slot then some (changed.slotBytes other.slot) else none) = _
    rw [Page.isUsed_insert hinsert, decide_eq_false hslot, Bool.false_or,
      Page.slotBytes_insert_of_ne hinsert hslot]
  · exact slot?_put fun heq => hsame (heq.trans hid)

section Delete

variable (h : v.Deletes v' tid row record)
include h

/-- A delete is of a record whose slot was taken. -/
theorem Deletes.isSome_slot? : (v.slot? record).isSome = true := by
  obtain ⟨hrecord, content, changed, hpage, hdelete, -⟩ := h
  rw [slot?_of_page hpage, if_pos (Page.isUsed_of_delete hdelete hrecord).2]
  rfl

/-- It frees that slot and leaves all others as they were. -/
theorem Deletes.slot? (hk : v.Keyed) : v'.slot? = Function.update v.slot? record none := by
  obtain ⟨hrecord, content, changed, hpage, hdelete, rfl⟩ := h
  have hkeyed := hk.id_of_page hpage
  have hid : (changed.mark (some tid)).id = record.page :=
    (Page.rewrites_of_delete hdelete).id.trans hkeyed
  have hstored : row.record = some ⟨content.id, record.slot⟩ := by
    rw [hrecord, hkeyed]
  funext other
  by_cases hsame : other.page = record.page
  · have hnew : (v.put (changed.mark (some tid))).page other.page =
        .ok (changed.mark (some tid)) := by
      rw [page_put, if_pos (hsame.trans hid.symm)]
    rw [slot?_of_page hnew]
    show (if changed.isUsed other.slot then some (changed.slotBytes other.slot) else none) = _
    rw [Page.isUsed_delete hdelete hstored, Page.slotBytes_delete hdelete]
    by_cases hslot : other.slot = record.slot
    · have heq : other = record := by
        cases other
        cases record
        simp_all
      rw [heq, Function.update_self]
      simp
    · have hne : other ≠ record := fun heq => hslot (heq ▸ rfl)
      rw [Function.update_of_ne hne, slot?_of_page (hsame.symm ▸ hpage)]
      simp [hslot]
  · have hne : other ≠ record := fun heq => hsame (heq ▸ rfl)
    rw [Function.update_of_ne hne]
    exact slot?_put fun heq => hsame (heq.trans hid)

end Delete

end RowStore.View
