import RowStore.Proofs.Page.Slots

/-!
# RowStore.Proofs.Page.Rows: the rows of a page

`Page.rows` reads the taken slots one by one, so it has one row for each of them, and it depends
on the bytes of a page alone: a page reads as it does once it was written (`Page.rows_written`).
-/

namespace RowStore.Page

variable {page : Page} {row : Row} {rows : List Row} {slot : Nat}

/-- The page as it is cached once it was written: clean, to fall back to the bytes it has. -/
def written (page : Page) : Page :=
  ofBytes page.id page.schema page.data

/-! ## Reading slots -/

/-- The row of a slot is what the bytes of the slot are read as. -/
theorem rowAt_geometry (page : Page) (slot : Nat) :
    page.rowAt page.geometry slot =
      match (Row.decode page.schema (page.slotBytes slot)).1 with
      | .error e => .error (.codec e)
      | .ok row => .ok (row.withRecord (some ⟨page.id, slot⟩)) := rfl

theorem rowsAt_cons_eq_ok_iff {geometry : PageGeometry} {slots : List Nat} :
    page.rowsAt geometry (slot :: slots) = .ok rows ↔ ∃ row rest,
      page.rowAt geometry slot = .ok row ∧ page.rowsAt geometry slots = .ok rest ∧
        rows = row :: rest := by
  rw [rowsAt]
  cases page.rowAt geometry slot with
  | error e => simp
  | ok row => cases page.rowsAt geometry slots <;> simp [eq_comm]

theorem length_of_rowsAt {geometry : PageGeometry} {slots : List Nat}
    (h : page.rowsAt geometry slots = .ok rows) : rows.length = slots.length := by
  induction slots generalizing rows with
  | nil =>
    cases h
    rfl
  | cons slot slots ih =>
    obtain ⟨row, rest, -, hrest, rfl⟩ := rowsAt_cons_eq_ok_iff.mp h
    rw [List.length_cons, List.length_cons, ih hrest]

theorem mem_of_rowsAt {geometry : PageGeometry} {slots : List Nat}
    (h : page.rowsAt geometry slots = .ok rows) (hslot : slot ∈ slots) :
    ∃ row ∈ rows, page.rowAt geometry slot = .ok row := by
  induction slots generalizing rows with
  | nil => cases hslot
  | cons first slots ih =>
    obtain ⟨row, rest, hfirst, hrest, rfl⟩ := rowsAt_cons_eq_ok_iff.mp h
    rcases List.mem_cons.mp hslot with rfl | hin
    · exact ⟨row, List.mem_cons_self, hfirst⟩
    · obtain ⟨found, hfound, hrow⟩ := ih hrest hin
      exact ⟨found, List.mem_cons_of_mem _ hfound, hrow⟩

/-- A slot that cannot be read is one whose bytes cannot be decoded. -/
theorem rowsAt_eq_error {geometry : PageGeometry} {slots : List Nat} {e : TableError}
    (h : page.rowsAt geometry slots = .error e) : ∃ cause, e = .codec cause := by
  induction slots with
  | nil => cases h
  | cons slot slots ih =>
    rw [rowsAt] at h
    cases hrow : page.rowAt geometry slot with
    | error e' =>
      simp only [hrow, Except.error.injEq] at h
      unfold rowAt at hrow
      split at hrow
      · next cause _ => exact ⟨cause, by rw [← h, ← Except.error.inj hrow]⟩
      · cases hrow
    | ok row =>
      cases hrest : page.rowsAt geometry slots with
      | error e' =>
        simp only [hrow, hrest, Except.error.injEq] at h
        exact ih (h ▸ hrest)
      | ok rest => simp [hrow, hrest] at h

/-! ## Reading pages -/

theorem length_rows_le (h : page.rows = .ok rows) : rows.length ≤ page.slots := by
  rw [length_of_rowsAt h, usedSlots]
  exact Nat.le_trans (List.length_filter_le _ _) (by simp)

/-- A page that can be read has a row for each taken slot. -/
theorem mem_rows_of_isUsed (h : page.rows = .ok rows) (hused : page.isUsed slot = true) :
    ∃ row ∈ rows, page.rowAt page.geometry slot = .ok row := by
  refine mem_of_rowsAt h ?_
  rw [isUsed, Bool.and_eq_true, decide_eq_true_eq] at hused
  exact List.mem_filter.mpr ⟨List.mem_range.mpr hused.1, hused.2⟩

theorem rows_of_zeros {count : Nat} (h : page.data = Bytes.zeros count) : page.rows = .ok [] := by
  rw [rows, usedSlots_of_zeros h]
  rfl

theorem rowsAt_written (page : Page) (geometry : PageGeometry) (slots : List Nat) :
    page.written.rowsAt geometry slots = page.rowsAt geometry slots := by
  induction slots with
  | nil => rfl
  | cons slot slots ih =>
    rw [rowsAt, rowsAt, ih]
    rfl

/-- A page reads as it does once it was written. -/
theorem rows_written (page : Page) : page.written.rows = page.rows :=
  rowsAt_written page page.geometry page.usedSlots

/-- Pages that are the same once written have the same rows. -/
theorem rows_eq_of_written {a b : Page} (h : a.written = b.written) : a.rows = b.rows := by
  rw [← rows_written, h, rows_written]

/-- Marking a page leaves its rows. -/
theorem rows_mark (page : Page) (dirtier : Option TransactionId) :
    (page.mark dirtier).rows = page.rows :=
  rows_eq_of_written rfl

/-- Two results that are the same once written are the same error or pages with the same bytes. -/
theorem written_eq_or_error {ε : Type} {a b : Except ε Page} (h : a.map written = b.map written) :
    (∃ e, a = .error e ∧ b = .error e) ∨
      ∃ first second, a = .ok first ∧ b = .ok second ∧ first.written = second.written := by
  cases a with
  | error e =>
    cases b with
    | error e' => exact Or.inl ⟨e, rfl, by rw [Except.error.inj h]⟩
    | ok second => cases h
  | ok first =>
    cases b with
    | error e' => cases h
    | ok second => exact Or.inr ⟨first, second, rfl, rfl, Except.ok.inj h⟩

/-! ## Holding a row -/

/-- Whether a slot of the page is taken by a row with this stored form. -/
def Holds (page : Page) (slot : Nat) (bytes : Bytes) : Prop :=
  page.isUsed slot = true ∧ page.slotBytes slot = bytes

variable {changed : Page} {record : RecordId} {bytes : Bytes}

theorem holds_written : page.written.Holds slot bytes ↔ page.Holds slot bytes := Iff.rfl

theorem holds_mark {dirtier : Option TransactionId} :
    (page.mark dirtier).Holds slot bytes ↔ page.Holds slot bytes := Iff.rfl

theorem not_holds_of_zeros {count : Nat} (h : page.data = Bytes.zeros count) :
    ¬ page.Holds slot bytes := by
  intro hholds
  have hused := hholds.1
  rw [isUsed_of_zeros h] at hused
  cases hused

theorem length_encode (hrow : row.WellTyped) (h : row.encode = .ok bytes) :
    bytes.length = row.schema.width :=
  length_encodeValues hrow.length_values h

/-- A page with a free slot takes every well-typed row of its schema. -/
theorem insert_isOk (hrow : row.WellTyped) (hagree : row.schema.Agrees page.schema)
    (hfree : page.firstFree? ≠ none) : ∃ result, page.insert row = .ok result := by
  obtain ⟨slot, hslot⟩ := Option.ne_none_iff_exists'.mp hfree
  obtain ⟨bytes, hbytes⟩ := exists_encodeValues hrow.2
  unfold insert
  rw [if_neg (not_not.mpr hagree), hslot]
  dsimp only
  rw [show row.encode = .ok bytes from hbytes]
  exact ⟨_, rfl⟩

/-- A row that is inserted is held with all of its stored form. -/
theorem holds_insert_self (h : page.insert row = .ok (record, changed))
    (hbytes : row.encode = .ok bytes) (hwidth : bytes.length = row.schema.width) :
    changed.Holds record.slot bytes := by
  have hused : changed.isUsed record.slot = true := by
    rw [isUsed_insert h]
    simp
  have hgeometry := (rewrites_of_insert h).geometry
  obtain ⟨slot, bytes', hagree, hslot, hbytes', rfl, rfl⟩ := insert_eq_ok h
  rw [hbytes, Except.ok.injEq] at hbytes'
  subst hbytes'
  refine ⟨hused, ?_⟩
  have hlt := (lt_of_firstFree? hslot).1
  have hfit : page.geometry.offset slot + page.schema.width ≤ page.data.length :=
    PageGeometry.offset_add_le hlt
  have hlen : page.schema.width = bytes.length := by
    rw [hwidth, Schema.width, Schema.width, show row.schema.types = page.schema.types from hagree]
  unfold slotBytes
  rw [hgeometry]
  dsimp only
  rw [slice_markSlot (PageGeometry.byte_lt_offset hlt slot), hlen]
  exact Bytes.slice_splice_self bytes (by omega)

/-- An insert goes into another slot than those that are taken. -/
theorem holds_insert (h : page.insert row = .ok (record, changed)) (hholds : page.Holds slot bytes) :
    changed.Holds slot bytes := by
  have hne : slot ≠ record.slot := by
    rintro rfl
    have hnot := isUsed_of_insert h
    rw [hholds.1] at hnot
    cases hnot
  refine ⟨?_, ?_⟩
  · rw [isUsed_insert h, hholds.1, Bool.or_true]
  · rw [slotBytes_insert_of_ne h hne, hholds.2]

/-- A delete leaves the rows in other slots. -/
theorem holds_delete (h : page.delete row = .ok changed) (hne : row.record ≠ some ⟨page.id, slot⟩)
    (hholds : page.Holds slot bytes) : changed.Holds slot bytes := by
  obtain ⟨gone, hgone, -⟩ := delete_eq_ok h
  have hother : slot ≠ gone := by
    rintro rfl
    exact hne hgone
  refine ⟨?_, ?_⟩
  · rw [isUsed_delete h hgone, hholds.1, Bool.and_true, decide_eq_true_eq]
    exact hother
  · rw [slotBytes_delete h, hholds.2]

end RowStore.Page
