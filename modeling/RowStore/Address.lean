import RowStore.Text.Hex

/-!
# RowStore.Address: tables, pages and stored rows by name

A table has a 64-bit identity, a page is a table and a position in its file, and a stored row is
a page and a slot.  Pages and rows are ordered by table, then page, then slot.
-/

namespace RowStore

/-- Identity of a table, derived from where its file lies. -/
structure TableId where
  value : UInt64
  deriving DecidableEq, Repr, Inhabited

instance : Ord TableId where
  compare a b := compare a.value.toNat b.value.toNat

/-- A table's identity as sixteen hexadecimal digits. -/
def TableId.text (table : TableId) : String :=
  Hex.ofNat 16 table.value.toNat

/-- A page: its table and its position in the table's file.  Positions are numbers of 32 bits, as a
file has fewer than 2^32 pages (`Table.WithinWords`). -/
structure PageId where
  table : TableId
  number : Nat
  deriving DecidableEq, Repr, Inhabited

instance : Ord PageId where
  compare a b := (compare a.table b.table).then (compare a.number b.number)

/-- A page as `table:number`. -/
def PageId.text (page : PageId) : String :=
  page.table.text ++ ":" ++ toString page.number

/-- Where the page starts in its file when pages have `pageSize` bytes.  It is less than 2^64
(`Table.WithinWords`). -/
def PageId.offset (page : PageId) (pageSize : Nat) : Nat :=
  page.number * pageSize

/-- The order of pages as a test. -/
def PageId.ble (a b : PageId) : Bool :=
  (compare a b).isLE

/-- Where a row is stored.  It names the row only as long as the row stays in that slot. -/
structure RecordId where
  page : PageId
  slot : Nat
  deriving DecidableEq, Repr, Inhabited

instance : Ord RecordId where
  compare a b := (compare a.page b.page).then (compare a.slot b.slot)

/-- A record as `(page, slot)`. -/
def RecordId.text (record : RecordId) : String :=
  "(" ++ record.page.text ++ ", " ++ toString record.slot ++ ")"

/-- Identity of a transaction.  It marks the pages the transaction changed, nothing else. -/
structure TransactionId where
  value : Nat
  deriving DecidableEq, Repr, Inhabited

end RowStore
