import RowStore.PagedFile
import RowStore.Proofs.Bytes

/-!
# RowStore.Proofs.PagedFile: a page file as an array of pages

When a read or write is accepted and what it returns, and the two laws of an array: a page that
was written reads back, and every page that could be read before reads as before.
-/

namespace RowStore.PagedFile

/-- Two pages of one file do not overlap. -/
theorem offset_disjoint {a b : PageId} (pageSize : Nat) (h : a.number ≠ b.number) :
    a.offset pageSize + pageSize ≤ b.offset pageSize ∨
      b.offset pageSize + pageSize ≤ a.offset pageSize := by
  unfold PageId.offset
  rcases Nat.lt_or_gt_of_ne h with hlt | hgt
  · left
    have := Nat.mul_le_mul_right pageSize hlt
    rwa [Nat.succ_mul] at this
  · right
    have := Nat.mul_le_mul_right pageSize hgt
    rwa [Nat.succ_mul] at this

/-- A read into a buffer of one page succeeds when the file holds the whole page. -/
theorem read_eq_ok_iff {file : PagedFile} {page : PageId} {data : Bytes} :
    file.read page file.pageSize = .ok data ↔
      page.offset file.pageSize + file.pageSize ≤ file.bytes.length ∧
        data = file.bytes.slice (page.offset file.pageSize) file.pageSize := by
  simp only [read, ne_eq, not_true_eq_false, if_false]
  split_ifs with h
  · simp only [false_iff, not_and]
    omega
  · simp only [Except.ok.injEq]
    exact ⟨fun hd => ⟨by omega, hd.symm⟩, fun hd => hd.2.symm⟩

/-- A page that can be read has the length of a page. -/
theorem length_of_read {file : PagedFile} {page : PageId} {data : Bytes}
    (h : file.read page file.pageSize = .ok data) : data.length = file.pageSize := by
  obtain ⟨hin, rfl⟩ := read_eq_ok_iff.mp h
  exact Bytes.length_slice hin

/-- A write of one page that leaves no gap is accepted. -/
theorem write_eq_ok {file : PagedFile} {page : PageId} {data : Bytes}
    (hlen : data.length = file.pageSize) (hin : page.offset file.pageSize ≤ file.bytes.length) :
    file.write page data =
      .ok { file with bytes := file.bytes.splice (page.offset file.pageSize) data } := by
  simp only [write, ne_eq, hlen, not_true_eq_false, if_false]
  rw [if_neg (by omega)]

theorem write_eq_ok_iff {file result : PagedFile} {page : PageId} {data : Bytes} :
    file.write page data = .ok result ↔
      data.length = file.pageSize ∧ page.offset file.pageSize ≤ file.bytes.length ∧
        result = { file with bytes := file.bytes.splice (page.offset file.pageSize) data } := by
  constructor
  · intro h
    unfold write at h
    dsimp only at h
    split_ifs at h with h1 h2
    simp only [Except.ok.injEq] at h
    exact ⟨by omega, by omega, h.symm⟩
  · rintro ⟨hlen, hin, rfl⟩
    exact write_eq_ok hlen hin

/-- A page that was written reads back. -/
theorem read_of_write {file result : PagedFile} {page : PageId} {data : Bytes}
    (h : file.write page data = .ok result) : result.read page result.pageSize = .ok data := by
  obtain ⟨hlen, hin, rfl⟩ := write_eq_ok_iff.mp h
  rw [read_eq_ok_iff]
  dsimp only
  rw [Bytes.length_splice_eq_max hin, hlen]
  refine ⟨by omega, ?_⟩
  have := Bytes.slice_splice_self data hin
  rw [hlen] at this
  exact this.symm

/-- A write leaves every other page that could be read as it was. -/
theorem read_of_write_of_ne {file result : PagedFile} {page other : PageId} {data content : Bytes}
    (h : file.write page data = .ok result) (hne : other.number ≠ page.number)
    (hr : file.read other file.pageSize = .ok content) :
    result.read other result.pageSize = .ok content := by
  obtain ⟨hlen, hin, rfl⟩ := write_eq_ok_iff.mp h
  obtain ⟨hoff, rfl⟩ := read_eq_ok_iff.mp hr
  rw [read_eq_ok_iff]
  dsimp only
  rw [Bytes.length_splice_eq_max hin]
  refine ⟨by omega, ?_⟩
  rw [Bytes.slice_splice_of_disjoint data hin]
  rw [hlen]
  exact offset_disjoint file.pageSize hne

/-- A write over present bytes keeps the length of the file. -/
theorem length_of_write {file result : PagedFile} {page : PageId} {data : Bytes}
    (h : file.write page data = .ok result)
    (hin : page.offset file.pageSize + file.pageSize ≤ file.bytes.length) :
    result.bytes.length = file.bytes.length := by
  obtain ⟨hlen, -, rfl⟩ := write_eq_ok_iff.mp h
  exact Bytes.length_splice (by omega)

/-- A write over present bytes leaves every other page as it was, also those that cannot be read. -/
theorem read_of_overwrite {file result : PagedFile} {page other : PageId} {data : Bytes}
    (h : file.write page data = .ok result) (hne : other.number ≠ page.number)
    (hin : page.offset file.pageSize + file.pageSize ≤ file.bytes.length) (room : Nat) :
    result.read other room = file.read other room := by
  have hlength := length_of_write h hin
  obtain ⟨hlen, hstart, rfl⟩ := write_eq_ok_iff.mp h
  dsimp only at hlength
  simp only [read, hlength]
  rw [Bytes.slice_splice_of_disjoint data hstart]
  rw [hlen]
  exact offset_disjoint file.pageSize hne

/-- Bytes behind those of a file leave every page that could be read as it was. -/
theorem read_append {file : PagedFile} {page : PageId} {data : Bytes}
    (h : file.read page file.pageSize = .ok data) (more : Bytes) :
    read { file with bytes := file.bytes ++ more } page file.pageSize = .ok data := by
  obtain ⟨hin, rfl⟩ := read_eq_ok_iff.mp h
  refine read_eq_ok_iff.mpr ⟨?_, (Bytes.slice_append_of_le hin more).symm⟩
  rw [List.length_append]
  exact Nat.le_add_right_of_le hin

/-- A file spans no more pages than it has bytes for. -/
theorem span_le_iff {file : PagedFile} (hpos : 0 < file.pageSize) (count : Nat) :
    file.span ≤ count ↔ file.bytes.length ≤ count * file.pageSize := by
  unfold span
  rw [Nat.div_le_iff_le_mul_add_pred hpos, Nat.mul_comm]
  omega

end RowStore.PagedFile
