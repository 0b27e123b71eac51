import RowStore.Proofs.Page.SlotArray
import RowStore.Proofs.Row.Format
import Mathlib.Algebra.Order.Floor.Div
import Mathlib.Data.Set.Pairwise.Basic
import Mathlib.GroupTheory.GroupAction.Ring
import Mathlib.Order.Interval.Finset.Nat

/-!
# RowStore.Proofs.Page.Bounds: no access to a page leaves it

So many slots and the bitmap for them fit into a page exactly when there are no more of them than
`PageGeometry.slots` (`PageGeometry.fits_iff`), so that number is the greatest there can be, and the
bitmap and the slots lie side by side in the page (`SlotLayout.LaidOut`).  In words the number can be
another: a row of 2^61 bytes counts as one of no bytes (`WordGeometry.not_laidOut_wrapped`).

`Page.isUsed?`, `Page.markSlot?` and `Page.slotBytes?` look at a page only where it has bytes, and
there is nothing where it has none.  What is done with a page can be done through them
(`Page.Bounded`), whatever its bytes and whatever is done with it.
-/

namespace RowStore

/-! ## Geometry -/

namespace SlotLayout

/-- The places of the bytes of a slot. -/
def span (layout : SlotLayout) (slot : Nat) : Finset Nat :=
  Finset.Ico (layout.headerBytes + slot * layout.rowWidth)
    (layout.headerBytes + slot * layout.rowWidth + layout.rowWidth)

end SlotLayout

namespace PageGeometry

variable {geometry : PageGeometry} {slot other count : Nat}

end PageGeometry

/-! ## Geometry in machine words -/

/-- A quotient in words is rounded up as one in numbers. -/
theorem toNat_quotientRoundedUp {length size : UInt64} (hpos : 0 < size.toNat) :
    (if length % size = 0 then length / size else length / size + 1).toNat =
      length.toNat ⌈/⌉ size.toNat := by
  have hzero : length % size = 0 ↔ length.toNat % size.toNat = 0 := by
    rw [← UInt64.toNat_inj, UInt64.toNat_mod]
    rfl
  have hsplit := Nat.div_add_mod' length.toNat size.toNat
  have hrest := Nat.mod_lt length.toNat hpos
  rw [Nat.ceilDiv_eq_add_pred_div]
  symm
  split_ifs with h
  · rw [hzero] at h
    rw [UInt64.toNat_div]
    refine Nat.div_eq_of_lt_le ?_ ?_
    · omega
    · rw [Nat.succ_mul]
      omega
  · rw [hzero] at h
    -- something is left over, so the quotient is not the greatest word
    have hsmall : length.toNat / size.toNat + 1 < 2 ^ 64 := by
      have hlt := length.toNat_lt
      have hle := Nat.mul_le_mul_left (length.toNat / size.toNat) (show 1 ≤ size.toNat from hpos)
      omega
    rw [UInt64.toNat_add, UInt64.toNat_div]
    show _ = (length.toNat / size.toNat + 1) % 2 ^ 64
    rw [Nat.mod_eq_of_lt hsmall]
    refine Nat.div_eq_of_lt_le ?_ ?_
    · rw [Nat.succ_mul]
      omega
    · rw [Nat.succ_mul, Nat.succ_mul]
      omega

namespace WordGeometry

/-- The same sizes, counted without a bound. -/
def exact (geometry : WordGeometry) : PageGeometry :=
  ⟨geometry.pageSize.toNat, geometry.rowWidth.toNat⟩

variable (geometry : WordGeometry)

theorem toNat_slots : geometry.slots.toNat =
    geometry.pageSize.toNat * 8 % 2 ^ 64 / (geometry.rowWidth.toNat * 8 % 2 ^ 64 + 1) := by
  have hmultiple : geometry.rowWidth.toNat * 8 % 2 ^ 64 + 1 < 2 ^ 64 := by omega
  rw [slots, UInt64.toNat_div, UInt64.toNat_mul, UInt64.toNat_add, UInt64.toNat_mul]
  show geometry.pageSize.toNat * 8 % 2 ^ 64 / ((geometry.rowWidth.toNat * 8 % 2 ^ 64 + 1) % 2 ^ 64) =
    _
  rw [Nat.mod_eq_of_lt hmultiple]

/-- For rows of less than 2^61 bytes that is so exactly for pages of less than 2^61 bytes. -/
theorem slots_eq_iff (hwidth : geometry.rowWidth.toNat < 2 ^ 61) :
    geometry.slots.toNat = geometry.exact.slots ↔ geometry.pageSize.toNat < 2 ^ 61 := by
  have hbits : geometry.rowWidth.toNat * 8 % 2 ^ 64 = geometry.rowWidth.toNat * 8 := by omega
  rw [toNat_slots, hbits, PageGeometry.slots, exact]
  dsimp only
  generalize hcost : geometry.rowWidth.toNat * 8 + 1 = cost
  constructor
  · intro heq
    by_contra hlarge
    -- the wrapped bits fall short by at least a word, and a slot costs less than that
    have hshort : geometry.pageSize.toNat * 8 % 2 ^ 64 + cost ≤ geometry.pageSize.toNat * 8 := by
      omega
    have hless := Nat.div_le_div_right (c := cost) hshort
    rw [Nat.add_div_right _ (by omega), heq] at hless
    omega
  · intro hsmall
    rw [Nat.mod_eq_of_lt (by omega)]

end WordGeometry

namespace Page

variable {page : Page} {slot : Nat}

/-! ## Looking at bytes that are there -/

/-- Whether the page has a slot and the slot is taken.  There is nothing if its bit lies outside
the page. -/
def isUsed? (page : Page) (slot : Nat) : Option Bool :=
  if slot < page.slots then
    page.data[slot / 8]?.map fun byte => bitAt byte (slot % 8)
  else
    some false

/-- The bytes of a page with a slot's bit set or cleared, if it lies inside the page. -/
def markSlot? (data : Bytes) (slot : Nat) (on : Bool) : Option Bytes :=
  if slot / 8 < data.length then some (markSlot data slot on) else none

/-- The bytes of a slot, if they lie inside the page. -/
def slotBytes? (page : Page) (slot : Nat) : Option Bytes :=
  if page.geometry.offset slot + page.geometry.rowWidth ≤ page.data.length then
    some (page.data.slice (page.geometry.offset slot) page.geometry.rowWidth)
  else
    none

theorem isUsed?_eq (page : Page) (slot : Nat) : page.isUsed? slot = some (page.isUsed slot) := by
  unfold isUsed?
  by_cases hslot : slot < page.slots
  · have hbyte : slot / 8 < page.data.length := PageGeometry.byte_lt_pageSize hslot
    rw [if_pos hslot, isUsed_eq, decide_eq_true hslot, Bool.true_and, bitOf,
      List.getD_eq_getElem?_getD, List.getElem?_eq_getElem hbyte, Option.map_some, Option.getD_some]
  · rw [if_neg hslot, isUsed_eq, decide_eq_false hslot, Bool.false_and]

theorem markSlot?_eq {data : Bytes} (h : slot / 8 < data.length) (on : Bool) :
    markSlot? data slot on = some (markSlot data slot on) :=
  if_pos h

theorem slotBytes?_eq (h : slot < page.slots) :
    page.slotBytes? slot = some (page.slotBytes slot) :=
  if_pos (PageGeometry.offset_add_le h)

/-! ## What is done with a page -/

/-- The number of free slots. -/
def freeCount? (page : Page) : Option Nat :=
  ((List.range page.slots).mapM page.isUsed?).map fun used => used.count false

/-- Inserts a row into the bytes of a page. -/
def insert? (page : Page) (row : Row) : Option (Except TableError RecordId × Page) :=
  if ¬ row.schema.Agrees page.schema then
    some (.error (.schemaMismatch page.schema row.schema), page)
  else
    ((List.range page.slots).findM? fun slot => (page.isUsed? slot).map not).bind fun
      | none => some (.error (.pageFull page.id), page)
      | some slot =>
        (page.slotBytes? slot).bind fun place =>
          let (written, result) := row.encodeInto place.length
          let data := page.data.splice (page.geometry.offset slot) written
          match result with
          | .error e => some (.error (.codec e), { page with data })
          | .ok () =>
            (markSlot? data slot true).map fun data => (.ok ⟨page.id, slot⟩, { page with data })

/-- Deletes a row from the bytes of a page. -/
def delete? (page : Page) (row : Row) : Option (Except TableError Unit × Page) :=
  match row.record with
  | none => some (.error .noRecord, page)
  | some record =>
    if record.page ≠ page.id then some (.error (.wrongPage page.id record.page), page)
    else if page.slots ≤ record.slot then
      some (.error (.slotOutOfRange record.slot page.slots), page)
    else
      (page.isUsed? record.slot).bind fun
        | false => some (.error (.slotEmpty record), page)
        | true => (markSlot? page.data record.slot false).map fun data =>
          (.ok (), { page with data })

/-- The row in a slot, if the slot is taken. -/
def readSlot? (page : Page) (slot : Nat) : Option (Except TableError (Option Row)) :=
  (page.isUsed? slot).bind fun
    | false => some (.ok none)
    | true =>
      (page.slotBytes? slot).bind fun bytes =>
        (Row.read? page.schema bytes).map fun
          | (.error e, _) => .error (.codec e)
          | (.ok row, _) => .ok (some (row.withRecord (some ⟨page.id, slot⟩)))

/-- The rows in those of the slots that are taken, up to the first that cannot be read. -/
def readSlots? (page : Page) : (slots : List Nat) → Option (Except TableError (List Row))
  | [] => some (.ok [])
  | slot :: slots =>
    (page.readSlot? slot).bind fun
      | .error e => some (.error e)
      | .ok none => page.readSlots? slots
      | .ok (some row) => (page.readSlots? slots).map fun rows => rows.map (row :: ·)

/-- Whatever is done with the page can be done with each access to its bytes inside it. -/
structure Bounded (page : Page) : Prop where
  isUsed : ∀ slot, page.isUsed? slot = some (page.isUsed slot)
  freeCount : page.freeCount? = some page.freeSlots.length
  insert : ∀ row, page.insert? row = some (page.insertInPlace row)
  delete : ∀ row, page.delete? row = some (page.deleteInPlace row)
  row : ∀ slot, page.readSlot? slot = some (page.row? slot)
  rows : page.readSlots? (List.range page.slots) = some page.rows

theorem freeCount?_eq (page : Page) : page.freeCount? = some page.freeSlots.length := by
  have hused : (List.range page.slots).mapM page.isUsed? =
      some ((List.range page.slots).map page.isUsed) := by
    rw [show page.isUsed? = fun slot => pure (page.isUsed slot) from funext page.isUsed?_eq]
    exact List.mapM_pure
  have hfree : (List.range page.slots).countP (fun slot => page.isUsed slot == false) =
      page.freeSlots.length := by
    rw [freeSlots, ← List.countP_eq_length_filter]
    refine List.countP_congr fun slot hslot => ?_
    rw [bit_eq_isUsed (List.mem_range.mp hslot)]
    cases page.isUsed slot <;> decide
  rw [freeCount?, hused, Option.map_some, List.count, List.countP_map]
  exact congrArg some hfree

theorem insert?_eq (page : Page) (row : Row) :
    page.insert? row = some (page.insertInPlace row) := by
  unfold insert? insertInPlace
  by_cases hagree : row.schema.Agrees page.schema
  · rw [if_neg (not_not.mpr hagree), if_neg (not_not.mpr hagree)]
    have hfind : ((List.range page.slots).findM? fun slot => (page.isUsed? slot).map not) =
        some ((List.range page.slots).find? fun slot => !page.isUsed slot) := by
      simp only [isUsed?_eq, Option.map_some]
      exact List.findM?_pure _ _
    rw [hfind, Option.bind_some]
    cases hslot : (List.range page.slots).find? fun slot => !page.isUsed slot with
    | none => rfl
    | some slot =>
      have hlt : slot < page.slots := List.mem_range.mp (List.mem_of_find?_eq_some hslot)
      have hfit : page.geometry.offset slot + page.schema.width ≤ page.data.length :=
        PageGeometry.offset_add_le hlt
      have hbyte : slot / 8 < page.data.length := PageGeometry.byte_lt_pageSize hlt
      have hplace : (page.slotBytes slot).length = page.schema.width := Bytes.length_slice hfit
      have hwritten : (row.encodeInto page.schema.width).1.length ≤ page.schema.width :=
        length_encodeValuesInto_le _ _ _
      dsimp only
      rw [slotBytes?_eq hlt, Option.bind_some, hplace]
      generalize row.encodeInto page.schema.width = outcome at hwritten ⊢
      obtain ⟨written, result⟩ := outcome
      cases result with
      | error e => rfl
      | ok done =>
        dsimp only at hwritten ⊢
        rw [markSlot?_eq (by rwa [Bytes.length_splice (by omega)]), Option.map_some]
  · rw [if_pos hagree, if_pos hagree]

theorem delete?_eq (page : Page) (row : Row) :
    page.delete? row = some (page.deleteInPlace row) := by
  unfold delete? deleteInPlace
  cases row.record with
  | none => rfl
  | some record =>
    dsimp only
    split_ifs with hpage hrange hfree
    · rfl
    · rfl
    · rw [isUsed?_eq, Option.bind_some]
      simp only [Bool.not_eq_true'] at hfree
      rw [hfree]
    · have hused : page.isUsed record.slot = true := by simpa using hfree
      have hbyte : record.slot / 8 < page.data.length :=
        PageGeometry.byte_lt_pageSize (Nat.not_le.mp hrange)
      rw [isUsed?_eq, Option.bind_some, hused]
      dsimp only
      rw [markSlot?_eq hbyte, Option.map_some]

theorem readSlot?_eq (page : Page) (slot : Nat) :
    page.readSlot? slot = some (page.row? slot) := by
  unfold readSlot? row?
  rw [isUsed?_eq, Option.bind_some]
  cases hused : page.isUsed slot with
  | false => rfl
  | true =>
    have hlt : slot < page.slots := by
      rw [isUsed_eq, Bool.and_eq_true, decide_eq_true_eq] at hused
      exact hused.1
    dsimp only
    rw [slotBytes?_eq hlt, Option.bind_some, Row.read?_eq, Option.map_some, if_pos rfl,
      rowAt_geometry]
    rcases Row.decode page.schema (page.slotBytes slot) with ⟨e | row, rest⟩ <;> rfl

/-- Reading slots one by one reads those that are taken. -/
theorem readSlots?_eq (page : Page) (slots : List Nat) :
    page.readSlots? slots =
      some (page.rowsAt page.geometry (slots.filter page.isUsed)) := by
  induction slots with
  | nil => rfl
  | cons slot slots ih =>
    rw [readSlots?, readSlot?_eq, Option.bind_some, row?, List.filter_cons]
    cases hused : page.isUsed slot with
    | false => exact ih
    | true =>
      rw [if_pos rfl, if_pos rfl, rowsAt]
      cases page.rowAt page.geometry slot with
      | error e => rfl
      | ok row =>
        dsimp only [Except.map]
        rw [ih, Option.map_some]
        cases page.rowsAt page.geometry (slots.filter page.isUsed) <;> rfl

theorem bounded (page : Page) : page.Bounded := by
  refine ⟨page.isUsed?_eq, page.freeCount?_eq, page.insert?_eq, page.delete?_eq,
    page.readSlot?_eq, ?_⟩
  rw [readSlots?_eq, rows, usedSlots]
  congr 2
  exact List.filter_congr fun slot hslot => (bit_eq_isUsed (List.mem_range.mp hslot)).symm

end Page

end RowStore
