import RowStore.Proofs.Page.Rows
import RowStore.Proofs.Row
import Mathlib.Logic.Function.Basic

/-!
# RowStore.Proofs.Page.Entries: a page as a map from slots to rows

`Page.read?` is the row in a slot.  An insert changes the map at the slot it tells, which was free,
and a delete at the slot of the row's record; reading the page lists the map in ascending order of
slots (`Page.forall₂_of_rows`).  A page is `Readable` when every taken slot has a row.
-/

namespace RowStore.Page

variable {page changed : Page} {row : Row} {rows : List Row} {record : RecordId} {slot : Nat}

/-- The row in a slot, if the slot is taken and can be read. -/
def read? (page : Page) (slot : Nat) : Option Row :=
  match page.row? slot with
  | .ok row => row
  | .error _ => none

/-- Every taken slot can be read. -/
def Readable (page : Page) : Prop :=
  ∀ slot, page.isUsed slot = true → ∃ row, page.row? slot = .ok (some row)

theorem row?_of_isUsed (h : page.isUsed slot = true) :
    page.row? slot = (page.rowAt page.geometry slot).map some := by
  rw [row?, if_pos h]

theorem read?_eq_some_iff :
    page.read? slot = some row ↔
      page.isUsed slot = true ∧ page.rowAt page.geometry slot = .ok row := by
  unfold read? row?
  split_ifs with hused
  · cases page.rowAt page.geometry slot <;> simp [Except.map, hused]
  · simp [hused]

theorem read?_of_not_isUsed (h : page.isUsed slot = false) : page.read? slot = none := by
  simp [read?, row?, h]

/-- On a readable page the taken slots are those with a row. -/
theorem Readable.isSome_read? (h : page.Readable) (slot : Nat) :
    (page.read? slot).isSome = page.isUsed slot := by
  cases hused : page.isUsed slot with
  | false => rw [read?_of_not_isUsed hused]; rfl
  | true =>
    obtain ⟨row, hrow⟩ := h slot hused
    rw [read?, hrow]
    rfl

/-- A row that was read from a page has been decoded under the schema of the page. -/
theorem decode_of_read? (h : page.read? slot = some row) :
    ∃ stored, (Row.decode page.schema (page.slotBytes slot)).1 = .ok stored ∧
      row = stored.withRecord (some ⟨page.id, slot⟩) := by
  have hrow := (read?_eq_some_iff.mp h).2
  rw [rowAt_geometry] at hrow
  cases hread : (Row.decode page.schema (page.slotBytes slot)).1 with
  | error e => simp [hread] at hrow
  | ok stored =>
    rw [hread] at hrow
    exact ⟨stored, rfl, (Except.ok.inj hrow).symm⟩

theorem schema_of_read? (h : page.read? slot = some row) : row.schema = page.schema := by
  obtain ⟨stored, hstored, rfl⟩ := decode_of_read? h
  have hschema := Row.schema_of_decode hstored
  exact hschema

/-- The row in a slot knows where it is stored. -/
theorem record_of_read? (h : page.read? slot = some row) :
    row.record = some ⟨page.id, slot⟩ := by
  obtain ⟨stored, -, rfl⟩ := decode_of_read? h
  rfl

/-! ## Pages that read alike -/

/-- What a slot is read as depends on the identity and schema of the page, on whether the slot is
taken, and on its bytes. -/
theorem row?_congr (hid : changed.id = page.id) (hschema : changed.schema = page.schema)
    (hused : changed.isUsed slot = page.isUsed slot)
    (hbytes : changed.slotBytes slot = page.slotBytes slot) :
    changed.row? slot = page.row? slot := by
  rw [row?, row?, hused, rowAt_geometry, rowAt_geometry, hid, hschema, hbytes]

theorem read?_written (page : Page) : page.written.read? = page.read? := rfl

theorem read?_mark (page : Page) (dirtier : Option TransactionId) :
    (page.mark dirtier).read? = page.read? := rfl

theorem readable_written_iff : page.written.Readable ↔ page.Readable := Iff.rfl

theorem readable_mark_iff {dirtier : Option TransactionId} :
    (page.mark dirtier).Readable ↔ page.Readable := Iff.rfl

theorem read?_of_zeros {count : Nat} (h : page.data = Bytes.zeros count) (slot : Nat) :
    page.read? slot = none :=
  read?_of_not_isUsed (isUsed_of_zeros h slot)

theorem readable_of_zeros {count : Nat} (h : page.data = Bytes.zeros count) : page.Readable := by
  intro slot hused
  rw [isUsed_of_zeros h slot] at hused
  cases hused

/-! ## Inserting and deleting -/

/-- A well-typed row that a page takes is stored as its columns keep it. -/
theorem storesAs_of_insert (h : page.insert row = .ok (record, changed)) (hrow : row.WellTyped)
    (htypes : ∀ type ∈ page.schema.types, type.Addressable) :
    row.StoresAs page.schema (List.zipWith ColumnType.keep page.schema.types row.values) := by
  obtain ⟨slot, bytes, hagree, -, hbytes, -, -⟩ := insert_eq_ok h
  refine ⟨bytes, hbytes, ?_, Row.decode_of_encode hrow hagree htypes hbytes⟩
  rw [length_encode hrow hbytes, Schema.width, Schema.width,
    show row.schema.types = page.schema.types from hagree]

/-- A row that was read from a page can be stored in it again, also under other names of the
columns. -/
theorem storesAs_of_read? {schema : Schema} (h : page.read? slot = some row)
    (hagree : schema.Agrees page.schema) : { row with schema }.StoresAs page.schema row.values := by
  obtain ⟨stored, hstored, rfl⟩ := decode_of_read? h
  exact @Row.storesAs_of_decode _ stored _ _ hstored hagree rfl

section Insert

variable (h : page.insert row = .ok (record, changed))
include h

theorem row?_insert_of_ne (hne : slot ≠ record.slot) : changed.row? slot = page.row? slot := by
  have hrewrites := rewrites_of_insert h
  refine row?_congr hrewrites.id hrewrites.schema ?_ (slotBytes_insert_of_ne h hne)
  rw [isUsed_insert h, decide_eq_false hne, Bool.false_or]

variable {kept : List Value} (hrow : row.StoresAs page.schema kept)
include hrow

/-- The slot an insert tells has the row as it reads back. -/
theorem row?_insert_self :
    changed.row? record.slot = .ok (some ⟨page.schema, kept, some record⟩) := by
  have hrewrites := rewrites_of_insert h
  have hid := id_of_insert h
  obtain ⟨slot, bytes, hagree, -, hbytes, -, -⟩ := insert_eq_ok h
  obtain ⟨bytes', hbytes', hlength, hread⟩ := hrow
  rw [hbytes, Except.ok.injEq] at hbytes'
  subst hbytes'
  have hwidth : bytes.length = row.schema.width := by
    rw [hlength, Schema.width, Schema.width, show row.schema.types = page.schema.types from hagree]
  obtain ⟨hused, hslot⟩ := holds_insert_self h hbytes hwidth
  rw [row?_of_isUsed hused, rowAt_geometry, hslot, hrewrites.schema, hread, hrewrites.id, ← hid]
  rfl

/-- An insert changes what the page has in one slot. -/
theorem read?_insert :
    changed.read? =
      Function.update page.read? record.slot (some ⟨page.schema, kept, some record⟩) := by
  funext slot
  by_cases heq : slot = record.slot
  · rw [heq, Function.update_self, read?, row?_insert_self h hrow]
  · rw [Function.update_of_ne heq, read?, read?, row?_insert_of_ne h heq]

theorem Readable.insert (hpage : page.Readable) : changed.Readable := by
  intro slot hused
  by_cases heq : slot = record.slot
  · exact ⟨_, heq ▸ row?_insert_self h hrow⟩
  · rw [row?_insert_of_ne h heq]
    refine hpage slot ?_
    rwa [isUsed_insert h, decide_eq_false heq, Bool.false_or] at hused

end Insert

section Delete

variable (h : page.delete row = .ok changed) (hrecord : row.record = some record)
include h hrecord

/-- A row is deleted where its record says, and the slot was taken. -/
theorem isUsed_of_delete : record.page = page.id ∧ page.isUsed record.slot = true := by
  obtain ⟨slot, hslot, -, hused, -⟩ := delete_eq_ok h
  rw [hrecord, Option.some.injEq] at hslot
  subst hslot
  exact ⟨rfl, hused⟩

theorem row?_delete_of_ne (hne : slot ≠ record.slot) : changed.row? slot = page.row? slot := by
  have hrewrites := rewrites_of_delete h
  obtain ⟨gone, hgone, -, -, -⟩ := delete_eq_ok h
  have hne' : slot ≠ gone := by
    rw [hrecord, Option.some.injEq] at hgone
    rwa [hgone] at hne
  refine row?_congr hrewrites.id hrewrites.schema ?_ (slotBytes_delete h slot)
  rw [isUsed_delete h hgone, decide_eq_true hne', Bool.true_and]

theorem isUsed_delete_self : changed.isUsed record.slot = false := by
  obtain ⟨gone, hgone, -, -, -⟩ := delete_eq_ok h
  have hslot : record.slot = gone := by
    rw [hrecord, Option.some.injEq] at hgone
    rw [hgone]
  rw [isUsed_delete h hgone, decide_eq_false (not_not.mpr hslot), Bool.false_and]

/-- A delete changes what the page has in one slot. -/
theorem read?_delete : changed.read? = Function.update page.read? record.slot none := by
  funext slot
  by_cases heq : slot = record.slot
  · rw [heq, Function.update_self, read?_of_not_isUsed (isUsed_delete_self h hrecord)]
  · rw [Function.update_of_ne heq, read?, read?, row?_delete_of_ne h hrecord heq]

theorem Readable.delete (hpage : page.Readable) : changed.Readable := by
  intro slot hused
  have hne : slot ≠ record.slot := by
    rintro rfl
    rw [isUsed_delete_self h hrecord] at hused
    cases hused
  obtain ⟨gone, hgone, -, -, -⟩ := delete_eq_ok h
  rw [row?_delete_of_ne h hrecord hne]
  rw [isUsed_delete h hgone, Bool.and_eq_true] at hused
  exact hpage slot hused.2

end Delete

/-! ## Reading pages -/

theorem forall₂_of_rowsAt {slots : List Nat} (hused : ∀ slot ∈ slots, page.isUsed slot = true)
    (h : page.rowsAt page.geometry slots = .ok rows) :
    List.Forall₂ (fun slot row => page.read? slot = some row) slots rows := by
  induction slots generalizing rows with
  | nil =>
    cases h
    exact .nil
  | cons slot slots ih =>
    obtain ⟨row, rest, hrow, hrest, rfl⟩ := rowsAt_cons_eq_ok_iff.mp h
    exact .cons (read?_eq_some_iff.mpr ⟨hused slot List.mem_cons_self, hrow⟩)
      (ih (fun slot hslot => hused slot (List.mem_cons_of_mem _ hslot)) hrest)

theorem mem_usedSlots : slot ∈ page.usedSlots ↔ page.isUsed slot = true := by
  rw [usedSlots, List.mem_filter, List.mem_range, isUsed, Bool.and_eq_true, decide_eq_true_eq]

/-- Reading a page gives the rows of the taken slots in order. -/
theorem forall₂_of_rows (h : page.rows = .ok rows) :
    List.Forall₂ (fun slot row => page.read? slot = some row) page.usedSlots rows :=
  forall₂_of_rowsAt (fun _ hslot => mem_usedSlots.mp hslot) h

theorem pairwise_usedSlots (page : Page) : page.usedSlots.Pairwise (· < ·) :=
  List.Pairwise.filter _ List.pairwise_lt_range

/-- A page that was read has a row in every taken slot. -/
theorem readable_of_rows (h : page.rows = .ok rows) : page.Readable := by
  intro slot hused
  obtain ⟨row, -, hrow⟩ := mem_rows_of_isUsed h hused
  exact ⟨row, by rw [row?_of_isUsed hused, hrow]; rfl⟩

theorem rowsAt_isOk {slots : List Nat}
    (h : ∀ slot ∈ slots, ∃ row, page.rowAt page.geometry slot = .ok row) :
    ∃ rows, page.rowsAt page.geometry slots = .ok rows := by
  induction slots with
  | nil => exact ⟨[], rfl⟩
  | cons slot slots ih =>
    obtain ⟨row, hrow⟩ := h slot List.mem_cons_self
    obtain ⟨rest, hrest⟩ := ih fun other hother => h other (List.mem_cons_of_mem _ hother)
    exact ⟨row :: rest, rowsAt_cons_eq_ok_iff.mpr ⟨row, rest, hrow, hrest, rfl⟩⟩

/-- A page of which every taken slot can be read can be read. -/
theorem Readable.rows_isOk (h : page.Readable) : ∃ rows, page.rows = .ok rows := by
  refine rowsAt_isOk fun slot hslot => ?_
  have hused := mem_usedSlots.mp hslot
  obtain ⟨row, hrow⟩ := h slot hused
  rw [row?_of_isUsed hused] at hrow
  cases hread : page.rowAt page.geometry slot with
  | error e => simp [hread, Except.map] at hrow
  | ok found => exact ⟨found, rfl⟩

/-- A page that takes a row has one row more. -/
theorem rows_of_insert (h : page.insert row = .ok (record, changed))
    (hrows : changed.rows = .ok rows) :
    ∃ old, page.rows = .ok old ∧ rows.length = old.length + 1 := by
  have hreadable : page.Readable := by
    intro slot hused
    have hne : slot ≠ record.slot := by
      rintro rfl
      rw [isUsed_of_insert h] at hused
      cases hused
    rw [← row?_insert_of_ne h hne]
    refine readable_of_rows hrows slot ?_
    rw [isUsed_insert h, hused, Bool.or_true]
  obtain ⟨old, hold⟩ := hreadable.rows_isOk
  have hperm : changed.usedSlots.Perm (record.slot :: page.usedSlots) := by
    have hnew : record.slot ∉ page.usedSlots := by
      rw [mem_usedSlots, isUsed_of_insert h]
      exact Bool.false_ne_true
    have hdistinct : ∀ page : Page, page.usedSlots.Nodup := fun page =>
      page.pairwise_usedSlots.imp fun hlt => Nat.ne_of_lt hlt
    refine (List.perm_ext_iff_of_nodup (hdistinct changed)
      (List.nodup_cons.mpr ⟨hnew, hdistinct page⟩)).mpr fun slot => ?_
    rw [mem_usedSlots, isUsed_insert h, List.mem_cons, mem_usedSlots, Bool.or_eq_true,
      decide_eq_true_eq]
  refine ⟨old, hold, ?_⟩
  rw [length_of_rowsAt hrows, length_of_rowsAt hold, hperm.length_eq, List.length_cons]

end RowStore.Page
