import RowStore.Table
import RowStore.Proofs.Page.Bounds

/-!
# RowStore.Proofs.Words: numbers of a table in machine words

Widths, offsets and page counts are numbers without a bound here.  In 64-bit words they are what is
left of them modulo 2^64, and a page count that is cut to 32 bits is what is left modulo 2^32.  So
words and numbers agree while a table stays within `Table.WithinWords`: rows and pages of less than
2^61 bytes, and a file of fewer than 2^32 pages whose length, with a page more, fits into 64 bits.
-/

namespace RowStore

/-! ## Widths -/

/-- The width of a column in words. -/
def ColumnType.widthInWords : ColumnType → UInt64
  | .int => 4
  | .varchar limit => 4 + .ofNat limit

theorem ColumnType.toNat_widthInWords (type : ColumnType) :
    type.widthInWords.toNat = type.width % 2 ^ 64 := by
  cases type with
  | int => rfl
  | varchar limit =>
    rw [widthInWords, UInt64.toNat_add, UInt64.toNat_ofNat']
    show (4 + limit % 2 ^ 64) % 2 ^ 64 = _
    rw [Nat.add_mod_mod, width]

/-- The width of a row in words, column by column. -/
def Schema.widthInWords (schema : Schema) : UInt64 :=
  schema.types.foldl (fun total type => total + type.widthInWords) 0

theorem toNat_foldl_widthInWords (types : List ColumnType) (total : UInt64) :
    (types.foldl (fun total type => total + type.widthInWords) total).toNat =
      (total.toNat + ColumnType.widths types) % 2 ^ 64 := by
  induction types generalizing total with
  | nil => exact (Nat.mod_eq_of_lt total.toNat_lt).symm
  | cons type types ih =>
    rw [List.foldl_cons, ih, UInt64.toNat_add, ColumnType.toNat_widthInWords, ColumnType.widths,
      Nat.add_mod_mod, Nat.mod_add_mod, Nat.add_assoc]

/-- In words a row is as wide as it is, modulo 2^64. -/
theorem Schema.toNat_widthInWords (schema : Schema) :
    schema.widthInWords.toNat = schema.width % 2 ^ 64 := by
  rw [widthInWords, toNat_foldl_widthInWords, width]
  exact congrArg (· % 2 ^ 64) (Nat.zero_add _)

/-! ## Pages of a file -/

/-- Where a page starts, in words. -/
def PageId.offsetInWords (page : PageId) (pageSize : UInt64) : UInt64 :=
  .ofNat page.number * pageSize

theorem PageId.toNat_offsetInWords (page : PageId) (pageSize : UInt64) :
    (page.offsetInWords pageSize).toNat = page.offset pageSize.toNat % 2 ^ 64 := by
  rw [offsetInWords, UInt64.toNat_mul, UInt64.toNat_ofNat', Nat.mod_mul_mod, offset]

/-- The number of pages in a length, rounded up and cut to 32 bits. -/
def spanInWords (length pageSize : UInt64) : UInt32 :=
  (if length % pageSize = 0 then length / pageSize else length / pageSize + 1).toUInt32

/-- In words a file has as many pages as it spans, modulo 2^32. -/
theorem toNat_spanInWords {length pageSize : UInt64} (hpos : 0 < pageSize.toNat) :
    (spanInWords length pageSize).toNat =
      (length.toNat + pageSize.toNat - 1) / pageSize.toNat % 2 ^ 32 := by
  rw [spanInWords, UInt64.toNat_toUInt32, toNat_quotientRoundedUp hpos,
    Nat.ceilDiv_eq_add_pred_div]

/-! ## Tables -/

namespace Table

variable {table : Table} {disk : Disk}

/-- Rows, pages and the file of a table are small enough for words: there are fewer than 2^32 pages,
and a page more would end before the greatest length. -/
structure WithinWords (table : Table) (disk : Disk) : Prop where
  width : table.schema.width < 2 ^ 61
  pageSize : table.pageSize < 2 ^ 61
  pages : table.pageCount disk < 2 ^ 32
  length : (disk.contents table.file).length + 2 * table.pageSize ≤ 2 ^ 64

/-- A table within words has the width, the pages, the slots and the offsets in words that it has. -/
theorem WithinWords.exact (h : table.WithinWords disk) (hpos : 0 < table.pageSize) :
    table.schema.widthInWords.toNat = table.schema.width ∧
    (spanInWords (.ofNat (disk.contents table.file).length) (.ofNat table.pageSize)).toNat =
      table.pageCount disk ∧
    (WordGeometry.mk (.ofNat table.pageSize) table.schema.widthInWords).slots.toNat =
      table.slotsPerPage ∧
    ∀ page : PageId, page.number ≤ table.pageCount disk →
      (page.offsetInWords (.ofNat table.pageSize)).toNat = page.offset table.pageSize := by
  obtain ⟨hwidth, hsize, hpages, hlength⟩ := h
  have hrow : table.schema.widthInWords.toNat = table.schema.width := by
    rw [Schema.toNat_widthInWords, Nat.mod_eq_of_lt (by omega)]
  have hpage : (UInt64.ofNat table.pageSize).toNat = table.pageSize :=
    UInt64.toNat_ofNat_of_lt' (show _ < 2 ^ 64 by omega)
  have hbytes : (UInt64.ofNat (disk.contents table.file).length).toNat =
      (disk.contents table.file).length :=
    UInt64.toNat_ofNat_of_lt' (show _ < 2 ^ 64 by omega)
  refine ⟨hrow, ?_, ?_, fun page hle => ?_⟩
  · rw [toNat_spanInWords (by rwa [hpage]), hpage, hbytes]
    exact Nat.mod_eq_of_lt hpages
  · rw [(WordGeometry.slots_eq_iff _ (by rwa [hrow])).mpr (by rwa [hpage]), WordGeometry.exact,
      hpage, hrow]
    rfl
  · have hend : table.pageCount disk * table.pageSize ≤
        (disk.contents table.file).length + table.pageSize - 1 := Nat.div_mul_le_self _ _
    have hstart := Nat.mul_le_mul_right table.pageSize hle
    rw [PageId.toNat_offsetInWords, hpage, PageId.offset, Nat.mod_eq_of_lt (by omega)]

end Table

end RowStore
