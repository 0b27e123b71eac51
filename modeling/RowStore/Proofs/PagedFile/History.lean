import RowStore.Proofs.PagedFile
import Mathlib.Algebra.Order.Field.Rat
import Mathlib.Data.Rat.Floor

/-!
# RowStore.Proofs.PagedFile.History: a page file after many reads and writes

A write is accepted when it brings one page and leaves no gap (`Accepts`).  After any reads and
writes the byte at `i` is the one last written to page `i / pageSize`, and the initial one when no
write to that page was accepted (`IsArray.bytes`); the same holds page by page for what can be read
(`IsArray.reads`).  Reading needs the whole page and writing only its start, so a partial page at the
end is counted and can be written, but not read.
-/

namespace RowStore.PagedFile

variable {file next : PagedFile} {page other : PageId} {data : Bytes}

/-! ## Calls -/

/-- A call of a page file. -/
inductive Call where
  | read (page : PageId) (room : Nat)
  | write (page : PageId) (data : Bytes)
  deriving DecidableEq, Repr

/-- The bytes are one page, and the page starts inside the file or at its end. -/
def Accepts (file : PagedFile) (page : PageId) (data : Bytes) : Prop :=
  data.length = file.pageSize ∧ page.offset file.pageSize ≤ file.bytes.length

instance (file : PagedFile) (page : PageId) (data : Bytes) : Decidable (file.Accepts page data) :=
  inferInstanceAs (Decidable (_ ∧ _))

/-- The file after a call. -/
def perform (file : PagedFile) : Call → PagedFile
  | .read _ _ => file
  | .write page data =>
    match file.write page data with
    | .ok next => next
    | .error _ => file

/-- The file after a history of calls. -/
def after (file : PagedFile) (calls : List Call) : PagedFile :=
  calls.foldl perform file

/-- What a call writes to the page of a number. -/
def written? (file : PagedFile) (number : Nat) : Call → Option Bytes
  | .read _ _ => none
  | .write page data => if page.number = number ∧ file.Accepts page data then some data else none

/-- What the calls have last written to the page of a number. -/
def lastWritten? (file : PagedFile) (number : Nat) : List Call → Option Bytes
  | [] => none
  | call :: later => ((file.perform call).lastWritten? number later).or (file.written? number call)

/-! ## One call -/

theorem write_eq_ok_of_accepts (h : file.Accepts page data) :
    file.write page data =
      .ok { file with bytes := file.bytes.splice (page.offset file.pageSize) data } :=
  write_eq_ok h.1 h.2

theorem accepts_iff_write : (∃ next, file.write page data = .ok next) ↔ file.Accepts page data := by
  constructor
  · rintro ⟨next, h⟩
    obtain ⟨hlength, hin, -⟩ := write_eq_ok_iff.mp h
    exact ⟨hlength, hin⟩
  · intro h
    exact ⟨_, write_eq_ok_of_accepts h⟩

theorem perform_of_write (h : file.write page data = .ok next) :
    file.perform (.write page data) = next := by
  rw [perform, h]

/-- A write that is rejected changes nothing. -/
theorem perform_of_not_accepts (h : ¬ file.Accepts page data) :
    file.perform (.write page data) = file := by
  rw [perform]
  cases hw : file.write page data with
  | error e => rfl
  | ok next => exact absurd (accepts_iff_write.mp ⟨next, hw⟩) h

theorem pageSize_of_write (h : file.write page data = .ok next) : next.pageSize = file.pageSize := by
  obtain ⟨-, -, rfl⟩ := write_eq_ok_iff.mp h
  rfl

@[simp] theorem pageSize_perform (call : Call) : (file.perform call).pageSize = file.pageSize := by
  cases call with
  | read page room => rfl
  | write page data =>
    rw [perform]
    cases hw : file.write page data with
    | error e => rfl
    | ok next => exact pageSize_of_write hw

/-- A write makes the file reach to the end of its page, if it did not reach farther. -/
theorem length_of_write_eq_max (h : file.write page data = .ok next) :
    next.bytes.length = max file.bytes.length ((page.number + 1) * file.pageSize) := by
  obtain ⟨hlength, hin, rfl⟩ := write_eq_ok_iff.mp h
  rw [Bytes.length_splice_eq_max hin, hlength, PageId.offset, Nat.succ_mul]

/-- A write replaces the bytes of its page and no other. -/
theorem getElem?_of_write (h : file.write page data = .ok next) (i : Nat) :
    next.bytes[i]? =
      if page.number * file.pageSize ≤ i ∧ i < (page.number + 1) * file.pageSize then
        data[i - page.number * file.pageSize]?
      else file.bytes[i]? := by
  obtain ⟨hlength, hin, rfl⟩ := write_eq_ok_iff.mp h
  rw [Bytes.getElem?_splice data hin, hlength, PageId.offset, Nat.succ_mul]
  split_ifs with hbefore hpage hbehind hpage' <;> first | rfl | omega

theorem readable_iff {room : Nat} :
    (∃ data, file.read page room = .ok data) ↔
      room = file.pageSize ∧ (page.number + 1) * file.pageSize ≤ file.bytes.length := by
  rw [Nat.succ_mul]
  constructor
  · rintro ⟨data, h⟩
    have hroom : room = file.pageSize := by
      by_contra hne
      rw [read, if_pos hne] at h
      cases h
    subst hroom
    exact ⟨rfl, (read_eq_ok_iff.mp h).1⟩
  · rintro ⟨rfl, hin⟩
    exact ⟨_, read_eq_ok_iff.mpr ⟨hin, rfl⟩⟩

/-- What is read of a page depends on its number alone. -/
theorem toOption_read_congr (h : page.number = other.number) (room : Nat) :
    (file.read page room).toOption = (file.read other room).toOption := by
  unfold read PageId.offset
  rw [h]
  dsimp only
  split_ifs <;> rfl

/-- A write changes nothing about whether and how another page is read. -/
theorem toOption_read_of_write_of_ne (h : file.write page data = .ok next)
    (hne : other.number ≠ page.number) :
    (next.read other next.pageSize).toOption = (file.read other file.pageSize).toOption := by
  cases hread : file.read other file.pageSize with
  | ok content => rw [read_of_write_of_ne h hne hread]
  | error e =>
    cases hnext : next.read other next.pageSize with
    | error e => rfl
    | ok content =>
      -- the write does not reach past the end without ending there, so the page was whole before
      obtain ⟨hin, -⟩ := read_eq_ok_iff.mp hnext
      obtain ⟨hlength, hstart, rfl⟩ := write_eq_ok_iff.mp h
      have hdisjoint := offset_disjoint file.pageSize hne
      dsimp only at hin
      rw [Bytes.length_splice_eq_max hstart, hlength] at hin
      have hwhole : other.offset file.pageSize + file.pageSize ≤ file.bytes.length := by omega
      rw [read_eq_ok_iff.mpr ⟨hwhole, rfl⟩] at hread
      cases hread

/-- The number of the page a byte belongs to. -/
theorem eq_div_iff {pageSize number i : Nat} (hpos : 0 < pageSize) :
    number = i / pageSize ↔ number * pageSize ≤ i ∧ i < (number + 1) * pageSize := by
  constructor
  · rintro rfl
    exact ⟨Nat.div_mul_le_self i pageSize, (Nat.div_lt_iff_lt_mul hpos).mp (Nat.lt_succ_self _)⟩
  · rintro ⟨hlow, hhigh⟩
    exact (Nat.div_eq_of_lt_le hlow hhigh).symm

section Perform

variable (file) (call : Call)

/-- After a call a page reads as what the call has written to it, and otherwise as before. -/
theorem toOption_read_perform (page : PageId) :
    ((file.perform call).read page (file.perform call).pageSize).toOption =
      (file.written? page.number call).or (file.read page file.pageSize).toOption := by
  cases call with
  | read _ _ => rfl
  | write target data =>
    by_cases h : file.Accepts target data
    · have hw := write_eq_ok_of_accepts h
      rw [written?, perform_of_write hw]
      split_ifs with hpage
      · rw [toOption_read_congr hpage.1.symm, read_of_write hw]
        rfl
      · exact toOption_read_of_write_of_ne hw fun hnumber => hpage ⟨hnumber.symm, h⟩
    · rw [perform_of_not_accepts h, written?, if_neg fun hpage => h hpage.2]
      rfl

/-- After a call a byte is the one the call has written to its page, and otherwise the one before. -/
theorem getElem?_perform (hpos : 0 < file.pageSize) (i : Nat) :
    (file.perform call).bytes[i]? =
      ((file.written? (i / file.pageSize) call).bind fun data => data[i % file.pageSize]?).or
        file.bytes[i]? := by
  cases call with
  | read _ _ => rfl
  | write page data =>
    by_cases h : file.Accepts page data
    · have hw := write_eq_ok_of_accepts h
      rw [written?, perform_of_write hw, getElem?_of_write hw]
      simp only [← eq_div_iff hpos, h, and_true]
      split_ifs with hi
      · have hmod : i % file.pageSize < data.length := by
          rw [h.1]
          exact Nat.mod_lt i hpos
        rw [hi, ← Nat.mod_eq_sub_div_mul, Option.bind_some, List.getElem?_eq_getElem hmod]
        rfl
      · rfl
    · rw [perform_of_not_accepts h, written?, if_neg fun hpage => h hpage.2]
      rfl

end Perform

theorem length_of_written? {number : Nat} {call : Call} (h : file.written? number call = some data) :
    data.length = file.pageSize := by
  cases call with
  | read _ _ => cases h
  | write page written =>
    rw [written?] at h
    split_ifs at h with hpage
    obtain rfl := Option.some.inj h
    exact hpage.2.1

/-! ## All calls -/

@[simp] theorem pageSize_after (file : PagedFile) (calls : List Call) :
    (file.after calls).pageSize = file.pageSize := by
  induction calls generalizing file with
  | nil => rfl
  | cons call later ih => exact (ih (file.perform call)).trans (pageSize_perform call)

theorem toOption_read_after (file : PagedFile) (calls : List Call) (page : PageId) :
    ((file.after calls).read page (file.after calls).pageSize).toOption =
      (file.lastWritten? page.number calls).or (file.read page file.pageSize).toOption := by
  induction calls generalizing file with
  | nil => rfl
  | cons call later ih =>
    rw [lastWritten?, Option.or_assoc, ← toOption_read_perform]
    exact ih (file.perform call)

theorem length_of_lastWritten? {number : Nat} {calls : List Call}
    (h : file.lastWritten? number calls = some data) : data.length = file.pageSize := by
  induction calls generalizing file with
  | nil => cases h
  | cons call later ih =>
    rw [lastWritten?, Option.or_eq_some_iff] at h
    rcases h with hlater | ⟨-, hcall⟩
    · exact (ih hlater).trans (pageSize_perform call)
    · exact length_of_written? hcall

theorem getElem?_after (hpos : 0 < file.pageSize) (calls : List Call) (i : Nat) :
    (file.after calls).bytes[i]? =
      ((file.lastWritten? (i / file.pageSize) calls).bind fun data => data[i % file.pageSize]?).or
        file.bytes[i]? := by
  induction calls generalizing file with
  | nil => rfl
  | cons call later ih =>
    have hlater := @ih (file.perform call) (by rwa [pageSize_perform])
    rw [pageSize_perform, getElem?_perform file call hpos] at hlater
    refine hlater.trans ?_
    rw [lastWritten?]
    cases hdata : (file.perform call).lastWritten? (i / file.pageSize) later with
    | none => rfl
    | some data =>
      -- a page that was written has all its bytes
      have hmod : i % file.pageSize < data.length := by
        rw [length_of_lastWritten? hdata, pageSize_perform]
        exact Nat.mod_lt i hpos
      rw [Option.some_or, Option.bind_some, List.getElem?_eq_getElem hmod]
      rfl

/-- The number of pages is the length of the file in pages, rounded up. -/
theorem pageCount_eq_ceil (hpos : 0 < file.pageSize) :
    file.pageCount = .ok ⌈(file.bytes.length : ℚ) / file.pageSize⌉₊ := by
  have hceil : file.span = ⌈(file.bytes.length : ℚ) / file.pageSize⌉₊ := by
    refine eq_of_forall_ge_iff fun count => ?_
    rw [span_le_iff hpos, Nat.ceil_le, div_le_iff₀ (by exact_mod_cast hpos)]
    exact_mod_cast Iff.rfl
  rw [pageCount, if_neg hpos.ne', hceil]

/-- A file that was `file` is a gapless array of pages after the calls. -/
structure IsArray (file now : PagedFile) (calls : List Call) : Prop where
  pageSize : now.pageSize = file.pageSize
  /-- A byte is the one last written to its page, and otherwise the initial one. -/
  bytes : ∀ i, now.bytes[i]? =
    ((file.lastWritten? (i / file.pageSize) calls).bind fun data => data[i % file.pageSize]?).or
      file.bytes[i]?
  accepted : ∀ page data, (∃ next, now.write page data = .ok next) ↔ now.Accepts page data
  rejected : ∀ page data, ¬ now.Accepts page data → now.perform (.write page data) = now
  /-- A write replaces the bytes of its page, which the file then has. -/
  replaced : ∀ page data next, now.write page data = .ok next → next.pageSize = now.pageSize ∧
    next.bytes.length = max now.bytes.length ((page.number + 1) * now.pageSize) ∧
    ∀ i, next.bytes[i]? =
      if page.number * now.pageSize ≤ i ∧ i < (page.number + 1) * now.pageSize then
        data[i - page.number * now.pageSize]?
      else now.bytes[i]?
  readable : ∀ page room, (∃ data, now.read page room = .ok data) ↔
    room = now.pageSize ∧ (page.number + 1) * now.pageSize ≤ now.bytes.length
  /-- A page reads as it was last written, and otherwise as it was read from the initial file. -/
  reads : ∀ page, (now.read page now.pageSize).toOption =
    (file.lastWritten? page.number calls).or (file.read page file.pageSize).toOption
  pageCount : now.pageCount = .ok ⌈(now.bytes.length : ℚ) / now.pageSize⌉₊

/-- After any reads and writes, of any pages and with any buffers, a file is a gapless array of
pages. -/
theorem after_isArray (file : PagedFile) (calls : List Call) (hpos : 0 < file.pageSize) :
    file.IsArray (file.after calls) calls where
  pageSize := pageSize_after file calls
  bytes := getElem?_after hpos calls
  accepted _ _ := accepts_iff_write
  rejected _ _ := perform_of_not_accepts
  replaced _ _ _ h := ⟨pageSize_of_write h, length_of_write_eq_max h, getElem?_of_write h⟩
  readable _ _ := readable_iff
  reads := toOption_read_after file calls
  pageCount := pageCount_eq_ceil (by rwa [pageSize_after])

/-- The partial page at the end of a file is written; a write behind a gap is rejected. -/
theorem after_isArray_partial :
    0 < (PagedFile.mk 2 [1, 2, 3]).pageSize ∧
      (PagedFile.mk 2 [1, 2, 3]).after [.write ⟨⟨0⟩, 1⟩ [4, 5], .write ⟨⟨0⟩, 3⟩ [6, 7]] =
        PagedFile.mk 2 [1, 2, 4, 5] ∧
      (PagedFile.mk 2 [1, 2, 3]).IsArray
        ((PagedFile.mk 2 [1, 2, 3]).after [.write ⟨⟨0⟩, 1⟩ [4, 5], .write ⟨⟨0⟩, 3⟩ [6, 7]])
        [.write ⟨⟨0⟩, 1⟩ [4, 5], .write ⟨⟨0⟩, 3⟩ [6, 7]] :=
  ⟨by decide, by decide, after_isArray (.mk 2 [1, 2, 3]) _ (by decide)⟩

end RowStore.PagedFile
