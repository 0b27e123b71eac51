/-!
# RowStore.Page.Geometry: where the slots of a page lie

A page begins with a bitmap of one bit per slot, rounded up to whole bytes, and the slots follow
back to back.  Nothing about this is stored: it follows from the page size and the row width.  A
slot costs its bytes and one bit, so `slots` is the number of times eight times the width plus
one goes into the bits of the page.

`PageGeometry` counts without a bound.  `WordGeometry` counts in 64-bit words, whose products wrap
around.  The two agree on pages and rows of less than 2^61 bytes (`Table.WithinWords`), and there
pages are laid out by the first.
-/

namespace RowStore

/-- A page size and a row width, with the slots and the bytes of bitmap that were found for them. -/
structure SlotLayout where
  pageSize : Nat
  rowWidth : Nat
  slots : Nat
  headerBytes : Nat
  deriving DecidableEq, Repr

/-- The geometry of a page. -/
structure PageGeometry where
  pageSize : Nat
  rowWidth : Nat
  deriving DecidableEq, Repr

namespace PageGeometry

/-- The number of slots. -/
def slots (geometry : PageGeometry) : Nat :=
  geometry.pageSize * 8 / (geometry.rowWidth * 8 + 1)

/-- Bytes of the bitmap. -/
def headerBytes (geometry : PageGeometry) : Nat :=
  (geometry.slots + 7) / 8

/-- Where a slot starts in the page. -/
def offset (geometry : PageGeometry) (slot : Nat) : Nat :=
  geometry.headerBytes + slot * geometry.rowWidth

/-- The layout that is found. -/
def layout (geometry : PageGeometry) : SlotLayout :=
  ⟨geometry.pageSize, geometry.rowWidth, geometry.slots, geometry.headerBytes⟩

end PageGeometry

/-- The geometry of a page in machine words. -/
structure WordGeometry where
  pageSize : UInt64
  rowWidth : UInt64
  deriving DecidableEq, Repr

namespace WordGeometry

/-- The number of slots.  The sizes in bits wrap around. -/
def slots (geometry : WordGeometry) : UInt64 :=
  geometry.pageSize * 8 / (geometry.rowWidth * 8 + 1)

/-- Bytes of the bitmap. -/
def headerBytes (geometry : WordGeometry) : UInt64 :=
  if geometry.slots % 8 = 0 then geometry.slots / 8 else geometry.slots / 8 + 1

/-- The layout that is found. -/
def layout (geometry : WordGeometry) : SlotLayout :=
  ⟨geometry.pageSize.toNat, geometry.rowWidth.toNat, geometry.slots.toNat,
    geometry.headerBytes.toNat⟩

end WordGeometry

end RowStore
