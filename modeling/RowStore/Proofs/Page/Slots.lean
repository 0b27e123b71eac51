import RowStore.Page
import RowStore.Proofs.Row
import Mathlib.Data.List.Find
import Mathlib.Tactic.IntervalCases
import Mathlib.Tactic.Ring

/-!
# RowStore.Proofs.Page.Slots: a page as an array of slots

The slots of a page lie behind its bitmap and inside the page (`PageGeometry.offset_add_le`), so
setting a bit or filling a slot leaves every other bit and every other slot as it was.
`Page.insert_eq_ok` and `Page.delete_eq_ok` say all that a successful insert or delete does;
`isUsed_insert`, `slotBytes_insert` and their twins for delete read it slot by slot.
-/

namespace RowStore

/-! ## Geometry -/

namespace PageGeometry

variable (geometry : PageGeometry)

/-- The bitmap and all slots fit into the page. -/
theorem headerBytes_add_le :
    geometry.headerBytes + geometry.slots * geometry.rowWidth ≤ geometry.pageSize := by
  have h : geometry.slots * (geometry.rowWidth * 8 + 1) ≤ geometry.pageSize * 8 :=
    Nat.div_mul_le_self _ _
  have hexp : geometry.slots * (geometry.rowWidth * 8 + 1) =
      8 * (geometry.slots * geometry.rowWidth) + geometry.slots := by ring
  unfold headerBytes
  omega

variable {geometry} {slot other : Nat}

/-- A slot ends inside the page. -/
theorem offset_add_le (h : slot < geometry.slots) :
    geometry.offset slot + geometry.rowWidth ≤ geometry.pageSize := by
  have hfit := geometry.headerBytes_add_le
  have hmul := Nat.mul_le_mul_right geometry.rowWidth (Nat.succ_le_of_lt h)
  rw [Nat.succ_mul] at hmul
  unfold offset
  omega

/-- The bit of a slot lies in the bitmap. -/
theorem byte_lt_headerBytes (h : slot < geometry.slots) : slot / 8 < geometry.headerBytes := by
  unfold headerBytes
  omega

theorem byte_lt_pageSize (h : slot < geometry.slots) : slot / 8 < geometry.pageSize := by
  have h1 := geometry.headerBytes_add_le
  have h2 := byte_lt_headerBytes h
  omega

theorem byte_lt_offset (h : slot < geometry.slots) (other : Nat) :
    slot / 8 < geometry.offset other := by
  have := byte_lt_headerBytes h
  unfold offset
  omega

/-- Different slots do not overlap. -/
theorem offset_disjoint (hne : other ≠ slot) :
    geometry.offset other + geometry.rowWidth ≤ geometry.offset slot ∨
      geometry.offset slot + geometry.rowWidth ≤ geometry.offset other := by
  unfold offset
  rcases Nat.lt_or_gt_of_ne hne with hlt | hgt
  · left
    have := Nat.mul_le_mul_right geometry.rowWidth (Nat.succ_le_of_lt hlt)
    rw [Nat.succ_mul] at this
    omega
  · right
    have := Nat.mul_le_mul_right geometry.rowWidth (Nat.succ_le_of_lt hgt)
    rw [Nat.succ_mul] at this
    omega

end PageGeometry

/-! ## Bits -/

theorem bitAt_setBitAt (byte : UInt8) {i j : Nat} (hi : i < 8) (hj : j < 8) (on : Bool) :
    bitAt (setBitAt byte i on) j = if j = i then on else bitAt byte j := by
  have hmask : (UInt8.ofNat (1 <<< i)).toNat.testBit j = decide (j = i) := by
    interval_cases i <;> interval_cases j <;> rfl
  have hnot : (~~~ UInt8.ofNat (1 <<< i)).toNat.testBit j = !decide (j = i) := by
    interval_cases i <;> interval_cases j <;> rfl
  unfold bitAt setBitAt
  cases on with
  | true =>
    simp only [if_true, UInt8.toNat_or, Nat.testBit_or, hmask]
    split_ifs with h <;> simp [h]
  | false =>
    simp only [Bool.false_eq_true, if_false, UInt8.toNat_and, Nat.testBit_and, hnot]
    split_ifs with h <;> simp [h]

namespace Page

/-- The bit of a slot in the bytes of a page. -/
def bitOf (data : Bytes) (slot : Nat) : Bool :=
  bitAt (data.getD (slot / 8) 0) (slot % 8)

@[simp] theorem length_markSlot (data : Bytes) (slot : Nat) (on : Bool) :
    (markSlot data slot on).length = data.length := by
  simp [markSlot]

/-- Marking a slot sets or clears its own bit only. -/
theorem bitOf_markSlot {data : Bytes} {slot : Nat} (h : slot / 8 < data.length) (on : Bool)
    (other : Nat) :
    bitOf (markSlot data slot on) other = if other = slot then on else bitOf data other := by
  unfold bitOf markSlot
  simp only [List.getD_eq_getElem?_getD]
  by_cases hbyte : slot / 8 = other / 8
  · have hget : data[other / 8]? = some data[other / 8] := List.getElem?_eq_getElem (by omega)
    rw [hbyte, List.getElem?_modify_eq, hget, Option.map_eq_map, Option.map_some,
      Option.getD_some, Option.getD_some,
      bitAt_setBitAt _ (Nat.mod_lt _ (by decide)) (Nat.mod_lt _ (by decide))]
    have hiff : other % 8 = slot % 8 ↔ other = slot := by omega
    simp only [hiff]
  · have hne : other ≠ slot := by rintro rfl; exact hbyte rfl
    rw [List.getElem?_modify_ne _ _ hbyte, if_neg hne]

/-- Marking a slot leaves the bytes behind its bit as they were. -/
theorem slice_markSlot {data : Bytes} {slot start : Nat} (h : slot / 8 < start) (on : Bool)
    (count : Nat) : (markSlot data slot on).slice start count = data.slice start count := by
  apply List.ext_getElem?
  intro i
  rw [Bytes.getElem?_slice, Bytes.getElem?_slice]
  split_ifs
  · unfold markSlot
    rw [List.getElem?_modify_ne _ _ (by omega)]
  · rfl

/-- A splice behind the byte of a bit leaves the bit as it was. -/
theorem bitOf_splice {data : Bytes} {start slot : Nat} (piece : Bytes) (hs : start ≤ data.length)
    (h : slot / 8 < start) : bitOf (data.splice start piece) slot = bitOf data slot := by
  unfold bitOf
  rw [List.getD_eq_getElem?_getD, List.getD_eq_getElem?_getD, Bytes.getElem?_splice piece hs,
    if_pos h]

/-! ## Slots -/

/-- The bytes of a slot. -/
def slotBytes (page : Page) (slot : Nat) : Bytes :=
  page.data.slice (page.geometry.offset slot) page.schema.width

/-- `changed` is `page` with other rows: the same page of the same table, to fall back to the
same bytes. -/
structure Rewrites (page changed : Page) : Prop where
  id : changed.id = page.id
  schema : changed.schema = page.schema
  before : changed.before = page.before
  length : changed.data.length = page.data.length

theorem isUsed_eq (page : Page) (slot : Nat) :
    page.isUsed slot = (decide (slot < page.slots) && bitOf page.data slot) := rfl

variable {page changed : Page} {row : Row} {record : RecordId}

theorem Rewrites.geometry (h : page.Rewrites changed) : changed.geometry = page.geometry := by
  simp [Page.geometry, h.length, h.schema]

theorem Rewrites.slots (h : page.Rewrites changed) : changed.slots = page.slots := by
  simp [Page.slots, h.geometry]

/-! ## Free slots -/

theorem bit_eq_isUsed {slot : Nat} (h : slot < page.slots) : page.bit slot = page.isUsed slot := by
  rw [isUsed, decide_eq_true h, Bool.true_and]

theorem mem_freeSlots {slot : Nat} :
    slot ∈ page.freeSlots ↔ slot < page.slots ∧ page.isUsed slot = false := by
  rw [freeSlots, List.mem_filter, List.mem_range]
  refine and_congr_right fun hlt => ?_
  rw [bit_eq_isUsed hlt, Bool.not_eq_true']

/-- Trying the slots in order finds the lowest free slot. -/
theorem firstFree?_eq_find? (page : Page) :
    page.firstFree? = (List.range page.slots).find? fun slot => !page.isUsed slot := by
  rw [firstFree?_eq_head?, freeSlots, List.head?_filter]
  exact List.find?_congr fun slot hslot => by rw [bit_eq_isUsed (List.mem_range.mp hslot)]

/-- A free slot of the page below which every slot is taken. -/
def LowestFree (page : Page) (slot : Nat) : Prop :=
  slot < page.slots ∧ page.isUsed slot = false ∧ ∀ lower < slot, page.isUsed lower = true

theorem firstFree?_eq_some_iff {slot : Nat} :
    page.firstFree? = some slot ↔ page.LowestFree slot := by
  rw [firstFree?_eq_find?, List.find?_range_eq_some, LowestFree, List.mem_range]
  simp only [Bool.not_eq_true', Bool.not_not]
  exact and_left_comm

/-- A page without a lowest free slot has no free slot. -/
theorem firstFree?_eq_none_iff :
    page.firstFree? = none ↔ ∀ slot < page.slots, page.isUsed slot = true := by
  rw [firstFree?_eq_find?, List.find?_range_eq_none]
  simp only [Bool.not_not]

theorem firstFree?_ne_none_iff :
    page.firstFree? ≠ none ↔ ∃ slot < page.slots, page.isUsed slot = false := by
  rw [ne_eq, firstFree?_eq_none_iff]
  simp

/-- The lowest free slot is a slot of the page and is free. -/
theorem lt_of_firstFree? {slot : Nat} (h : page.firstFree? = some slot) :
    slot < page.slots ∧ page.isUsed slot = false := by
  obtain ⟨hlt, hfree, -⟩ := firstFree?_eq_some_iff.mp h
  exact ⟨hlt, hfree⟩

/-- No free slot lies below the lowest. -/
theorem le_of_firstFree? {slot other : Nat} (h : page.firstFree? = some slot)
    (hfree : page.isUsed other = false) : slot ≤ other := by
  obtain ⟨-, -, hlower⟩ := firstFree?_eq_some_iff.mp h
  by_contra hlt
  rw [hlower other (Nat.not_le.mp hlt)] at hfree
  cases hfree

/-! ## Pages of zeros -/

/-- A page of zeros has no row. -/
theorem bitOf_zeros (count slot : Nat) : bitOf (Bytes.zeros count) slot = false := by
  have hbyte : (Bytes.zeros count).getD (slot / 8) 0 = 0 := by
    rw [List.getD_eq_getElem?_getD, Bytes.zeros, List.getElem?_replicate]
    split_ifs <;> rfl
  rw [bitOf, hbyte]
  simp [bitAt]

theorem isUsed_of_zeros {count : Nat} (h : page.data = Bytes.zeros count) (slot : Nat) :
    page.isUsed slot = false := by
  rw [isUsed_eq, h, bitOf_zeros, Bool.and_false]

theorem usedSlots_of_zeros {count : Nat} (h : page.data = Bytes.zeros count) :
    page.usedSlots = [] := by
  rw [usedSlots, List.filter_eq_nil_iff]
  intro slot _
  change ¬ bitOf page.data slot = true
  simp [h, bitOf_zeros]

theorem firstFree?_of_zeros {count : Nat} (h : page.data = Bytes.zeros count)
    (hslots : page.slots ≠ 0) : page.firstFree? = some 0 := by
  have hfree : page.freeSlots = List.range page.slots := by
    rw [freeSlots, List.filter_eq_self]
    intro slot _
    change (!bitOf page.data slot) = true
    simp [h, bitOf_zeros]
  rw [firstFree?_eq_head?, hfree, List.head?_range, if_neg hslots]

/-! ## Inserting and deleting -/

/-- What a successful insert does. -/
theorem insert_eq_ok (h : page.insert row = .ok (record, changed)) :
    ∃ slot bytes, row.schema.Agrees page.schema ∧ page.firstFree? = some slot ∧
      row.encode = .ok bytes ∧ record = ⟨page.id, slot⟩ ∧
      changed = { page with
        data := markSlot (page.data.splice (page.geometry.offset slot) bytes) slot true } := by
  unfold insert at h
  split_ifs at h with hagree
  cases hslot : page.firstFree? with
  | none => simp [hslot] at h
  | some slot =>
    cases hbytes : row.encode with
    | error e => simp [hslot, hbytes] at h
    | ok bytes =>
      simp only [hslot, hbytes, Except.ok.injEq, Prod.mk.injEq] at h
      exact ⟨slot, bytes, hagree, rfl, rfl, h.1.symm, h.2.symm⟩

/-- What a successful delete does. -/
theorem delete_eq_ok (h : page.delete row = .ok changed) :
    ∃ slot, row.record = some ⟨page.id, slot⟩ ∧ slot < page.slots ∧ page.isUsed slot = true ∧
      changed = { page with data := markSlot page.data slot false } := by
  unfold delete at h
  cases hrecord : row.record with
  | none => simp [hrecord] at h
  | some record =>
    simp only [hrecord] at h
    split_ifs at h with h1 h2 h3
    · simp only [Except.ok.injEq] at h
      refine ⟨record.slot, ?_, by omega, by simpa using h3, h.symm⟩
      rw [← not_not.mp h1]

/-- The stored form of a row of the page's schema fits into a slot. -/
theorem length_encode_le {bytes : Bytes} (ha : row.schema.Agrees page.schema)
    (h : row.encode = .ok bytes) : bytes.length ≤ page.schema.width := by
  have := length_encodeValues_le h
  rw [Schema.width, ← show row.schema.types = page.schema.types from ha]
  exact this

theorem rewrites_of_insert (h : page.insert row = .ok (record, changed)) :
    page.Rewrites changed := by
  obtain ⟨slot, bytes, hagree, hslot, hbytes, -, rfl⟩ := insert_eq_ok h
  have hfit : page.geometry.offset slot + page.schema.width ≤ page.data.length :=
    PageGeometry.offset_add_le (lt_of_firstFree? hslot).1
  have hlen := length_encode_le hagree hbytes
  refine ⟨rfl, rfl, rfl, ?_⟩
  rw [length_markSlot, Bytes.length_splice (by omega)]

theorem rewrites_of_delete (h : page.delete row = .ok changed) : page.Rewrites changed := by
  obtain ⟨slot, -, -, -, rfl⟩ := delete_eq_ok h
  exact ⟨rfl, rfl, rfl, length_markSlot _ _ _⟩

theorem id_of_insert (h : page.insert row = .ok (record, changed)) : record.page = page.id := by
  obtain ⟨slot, -, -, -, -, rfl, -⟩ := insert_eq_ok h
  rfl

/-- An insert tells a slot that was free. -/
theorem isUsed_of_insert (h : page.insert row = .ok (record, changed)) :
    page.isUsed record.slot = false := by
  obtain ⟨slot, -, -, hslot, -, rfl, -⟩ := insert_eq_ok h
  exact (lt_of_firstFree? hslot).2

/-- An insert takes one slot and leaves every other slot taken or free as it was. -/
theorem isUsed_insert (h : page.insert row = .ok (record, changed)) (other : Nat) :
    changed.isUsed other = (decide (other = record.slot) || page.isUsed other) := by
  have hslots := (rewrites_of_insert h).slots
  obtain ⟨slot, bytes, hagree, hslot, hbytes, rfl, rfl⟩ := insert_eq_ok h
  have hlt := (lt_of_firstFree? hslot).1
  have hfit : page.geometry.offset slot + page.schema.width ≤ page.data.length :=
    PageGeometry.offset_add_le hlt
  have hlen := length_encode_le hagree hbytes
  have hbyte : slot / 8 < page.data.length := PageGeometry.byte_lt_pageSize hlt
  rw [isUsed_eq, isUsed_eq, hslots]
  dsimp only
  rw [bitOf_markSlot (by rwa [Bytes.length_splice (by omega)])]
  by_cases hother : other < page.slots
  · rw [bitOf_splice bytes (by omega) (PageGeometry.byte_lt_offset hother slot)]
    by_cases heq : other = slot <;> simp [heq, hother, hlt]
  · have hne : other ≠ slot := by rintro rfl; exact hother hlt
    simp [hother, hne]

/-- An insert leaves the bytes of every other slot as they were. -/
theorem slotBytes_insert_of_ne (h : page.insert row = .ok (record, changed)) {other : Nat}
    (hne : other ≠ record.slot) :
    changed.slotBytes other = page.slotBytes other := by
  have hgeometry := (rewrites_of_insert h).geometry
  obtain ⟨slot, bytes, hagree, hslot, hbytes, rfl, rfl⟩ := insert_eq_ok h
  have hlt := (lt_of_firstFree? hslot).1
  have hfit : page.geometry.offset slot + page.schema.width ≤ page.data.length :=
    PageGeometry.offset_add_le hlt
  have hlen := length_encode_le hagree hbytes
  unfold slotBytes
  rw [hgeometry]
  dsimp only
  rw [slice_markSlot (PageGeometry.byte_lt_offset hlt other)]
  apply Bytes.slice_splice_of_disjoint bytes (by omega)
  have hdisjoint : page.geometry.offset other + page.schema.width ≤ page.geometry.offset slot ∨
      page.geometry.offset slot + page.schema.width ≤ page.geometry.offset other :=
    PageGeometry.offset_disjoint hne
  omega

/-- A delete frees one slot and leaves every other slot taken or free as it was. -/
theorem isUsed_delete (h : page.delete row = .ok changed) {slot : Nat}
    (hr : row.record = some ⟨page.id, slot⟩) (other : Nat) :
    changed.isUsed other = (decide (other ≠ slot) && page.isUsed other) := by
  have hslots := (rewrites_of_delete h).slots
  obtain ⟨slot', hr', hlt, -, rfl⟩ := delete_eq_ok h
  obtain rfl : slot' = slot := by simpa using hr'.symm.trans hr
  have hbyte : slot' / 8 < page.data.length := PageGeometry.byte_lt_pageSize hlt
  rw [isUsed_eq, isUsed_eq, hslots]
  dsimp only
  rw [bitOf_markSlot hbyte]
  by_cases heq : other = slot' <;> simp [heq]

/-- A delete leaves the bytes of every slot as they were. -/
theorem slotBytes_delete (h : page.delete row = .ok changed) (other : Nat) :
    changed.slotBytes other = page.slotBytes other := by
  have hgeometry := (rewrites_of_delete h).geometry
  obtain ⟨slot, -, hlt, -, rfl⟩ := delete_eq_ok h
  unfold slotBytes
  rw [hgeometry]
  exact slice_markSlot (PageGeometry.byte_lt_offset hlt other) _ _

end Page

end RowStore
