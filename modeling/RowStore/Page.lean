import RowStore.Error
import RowStore.Page.Geometry

/-!
# RowStore.Page: a page of rows

A page is its bytes, read as a bitmap of taken slots and the slots themselves.  It also carries
the transaction that changed it last and has not finished, and the bytes it is to fall back to
when that transaction is aborted.  A row goes into the lowest free slot; deleting a row clears
its bit and leaves its bytes.
-/

namespace RowStore

/-- A page of a table. -/
structure Page where
  id : PageId
  schema : Schema
  data : Bytes
  /-- The unfinished transaction that changed the page last, if any. -/
  dirtier : Option TransactionId
  /-- The bytes to fall back to. -/
  before : Bytes
  deriving DecidableEq, Repr

/-- Whether bit `index` of a byte is set, the least significant bit first. -/
def bitAt (byte : UInt8) (index : Nat) : Bool :=
  byte.toNat.testBit index

/-- A byte with bit `index` set or cleared. -/
def setBitAt (byte : UInt8) (index : Nat) (on : Bool) : UInt8 :=
  let mask := UInt8.ofNat (1 <<< index)
  if on then byte ||| mask else byte &&& ~~~mask

/-- The number of the first clear bit of a bitmap, counted on from `start`. -/
def firstClear? (start : Nat) : Bytes → Option Nat
  | [] => none
  | byte :: bytes =>
    match (List.range 8).find? fun index => !bitAt byte index with
    | some index => some (start + index)
    | none => firstClear? (start + 8) bytes

/-- Going byte by byte finds the same bit as trying all bits in order. -/
theorem firstClear?_eq_find? (start : Nat) (bytes : Bytes) :
    firstClear? start bytes =
      ((List.range (8 * bytes.length)).find? fun slot =>
        !bitAt (bytes.getD (slot / 8) 0) (slot % 8)).map (start + ·) := by
  induction bytes generalizing start with
  | nil => rfl
  | cons byte bytes ih =>
    have first : (List.range 8).find? (fun slot =>
          !bitAt ((byte :: bytes).getD (slot / 8) 0) (slot % 8)) =
        (List.range 8).find? fun slot => !bitAt byte slot := rfl
    have next (slot : Nat) : (byte :: bytes).getD (slot / 8 + 1) 0 = bytes.getD (slot / 8) 0 := rfl
    rw [List.length_cons, Nat.mul_add, Nat.add_comm, Nat.mul_one,
      List.range_add, List.find?_append, first, List.find?_map, firstClear?]
    cases (List.range 8).find? fun slot => !bitAt byte slot with
    | some index => rfl
    | none =>
      simp [ih, Function.comp_def, next, Nat.add_assoc, -List.getD_eq_getElem?_getD]

namespace Page

/-- A clean page with the given bytes. -/
def ofBytes (id : PageId) (schema : Schema) (data : Bytes) : Page :=
  { id, schema, data, dirtier := none, before := data }

/-- The geometry of the page. -/
def geometry (page : Page) : PageGeometry :=
  ⟨page.data.length, page.schema.width⟩

/-- The number of slots. -/
def slots (page : Page) : Nat :=
  page.geometry.slots

/-- The bit of a slot. -/
def bit (page : Page) (slot : Nat) : Bool :=
  bitAt (page.data.getD (slot / 8) 0) (slot % 8)

/-- Whether the page has a slot and the slot is taken. -/
def isUsed (page : Page) (slot : Nat) : Bool :=
  slot < page.slots && page.bit slot

/-- The taken slots in ascending order. -/
def usedSlots (page : Page) : List Nat :=
  (List.range page.slots).filter page.bit

/-- The free slots in ascending order. -/
def freeSlots (page : Page) : List Nat :=
  (List.range page.slots).filter fun slot => !page.bit slot

/-- The lowest free slot. -/
def firstFree? (page : Page) : Option Nat :=
  (firstClear? 0 page.data).filter fun slot => slot < page.slots

/-- There are at most eight slots per byte. -/
theorem slots_le (page : Page) : page.slots ≤ 8 * page.data.length := by
  rw [Nat.mul_comm]
  exact Nat.div_le_self _ _

/-- The lowest free slot heads the free slots. -/
theorem firstFree?_eq_head? (page : Page) : page.firstFree? = page.freeSlots.head? := by
  obtain ⟨spare, hspare⟩ := Nat.exists_eq_add_of_le page.slots_le
  have bits : (fun slot => !bitAt (page.data.getD (slot / 8) 0) (slot % 8)) =
      fun slot => !page.bit slot := rfl
  rw [firstFree?, firstClear?_eq_find?, hspare, List.range_add, List.find?_append, freeSlots,
    List.head?_filter, bits]
  cases hfind : (List.range page.slots).find? fun slot => !page.bit slot with
  | some slot =>
    have := List.mem_range.1 (List.mem_of_find?_eq_some hfind)
    simp [this]
  | none =>
    simp only [Option.none_or, Option.map_eq_some_iff, Nat.zero_add, Option.map_id',
      Option.filter_eq_none_iff, List.find?_map, decide_eq_true_eq]
    rintro _ ⟨slot, _, rfl⟩
    omega

/-- The bytes of a page with a slot's bit set or cleared. -/
def markSlot (data : Bytes) (slot : Nat) (on : Bool) : Bytes :=
  data.modify (slot / 8) fun byte => setBitAt byte (slot % 8) on

/-- The page with a row in its lowest free slot, and the record the row is stored at. -/
def insert (page : Page) (row : Row) : Except TableError (RecordId × Page) :=
  if ¬ row.schema.Agrees page.schema then
    .error (.schemaMismatch page.schema row.schema)
  else
    match page.firstFree? with
    | none => .error (.pageFull page.id)
    | some slot =>
      match row.encode with
      | .error e => .error (.codec e)
      | .ok bytes =>
        let data := markSlot (page.data.splice (page.geometry.offset slot) bytes) slot true
        .ok (⟨page.id, slot⟩, { page with data })

/-- The page without the row.  The row's record says where it is stored. -/
def delete (page : Page) (row : Row) : Except TableError Page :=
  match row.record with
  | none => .error .noRecord
  | some record =>
    if record.page ≠ page.id then .error (.wrongPage page.id record.page)
    else if page.slots ≤ record.slot then .error (.slotOutOfRange record.slot page.slots)
    else if !page.isUsed record.slot then .error (.slotEmpty record)
    else .ok { page with data := markSlot page.data record.slot false }

/-- The row whose bytes lie in a slot of a page with the given geometry. -/
def rowAt (page : Page) (geometry : PageGeometry) (slot : Nat) : Except TableError Row :=
  match (Row.decode page.schema (page.data.slice (geometry.offset slot) geometry.rowWidth)).1 with
  | .error e => .error (.codec e)
  | .ok row => .ok (row.withRecord (some ⟨page.id, slot⟩))

/-- The row in a slot, if the slot is taken. -/
def row? (page : Page) (slot : Nat) : Except TableError (Option Row) :=
  if page.isUsed slot then (page.rowAt page.geometry slot).map some else .ok none

/-- The rows in the given slots, up to the first that cannot be read. -/
def rowsAt (page : Page) (geometry : PageGeometry) :
    (slots : List Nat) → Except TableError (List Row)
  | [] => .ok []
  | slot :: slots =>
    match page.rowAt geometry slot with
    | .error e => .error e
    | .ok row =>
      match page.rowsAt geometry slots with
      | .error e => .error e
      | .ok rows => .ok (row :: rows)

/-- All stored rows in ascending order of slots. -/
def rows (page : Page) : Except TableError (List Row) :=
  page.rowsAt page.geometry page.usedSlots

/-- The page marked as changed by a transaction, or as clean. -/
def mark (page : Page) (dirtier : Option TransactionId) : Page :=
  { page with dirtier }

/-- A clean page with the bytes to fall back to. -/
def beforeImage (page : Page) : Page :=
  ofBytes page.id page.schema page.before

/-- The page with its present bytes as the bytes to fall back to. -/
def setBefore (page : Page) : Page :=
  { page with before := page.data }

end Page

end RowStore
