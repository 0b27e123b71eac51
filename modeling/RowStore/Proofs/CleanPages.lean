import RowStore.Proofs.Session

/-!
# RowStore.Proofs.CleanPages: when clean pages hold what the disk has

Every request but an abort keeps the agreement of clean pages with the disk.  An abort keeps it
exactly when the pages of the transaction fall back to the bytes the disk has, which a flush may
have replaced since.  So a history without flushes never loses the agreement, and one with flushes
loses it at the first abort whose pages fall back to older bytes.
-/

namespace RowStore

/-- Every page a transaction changed falls back to the bytes the disk has. -/
def Store.FallsBack (s : Store) (tid : TransactionId) : Prop :=
  ∀ page frame, s.cache.find? page = some frame → frame.page.dirtier = some tid →
    s.storedBytes page = .ok frame.page.before

namespace Session

variable {x : Session} {requests : List Request}

theorem cleanMatch_respond (hs : x.store.Seated) (hc : x.store.CleanMatch) {request : Request}
    (habort : ∀ tid, request ≠ .abort tid) : (x.respond request).2.store.CleanMatch := by
  by_cases hflush : request.isFlush = true
  · cases request with
    | flush page => exact hs.cleanMatch_flush hc page
    | flushAll =>
      have hkeep := Store.flushPages_keeps (fun s => s.Seated ∧ s.CleanMatch)
        (fun s page h => ⟨h.1.flush page, h.1.cleanMatch_flush h.2 page⟩)
        x.store.cache.pageIds x.store ⟨hs, hc⟩
      exact hkeep.2
    | _ => cases hflush
  · exact (moves_respond hs.valid (by simpa using hflush) habort).cleanMatch hs hc

/-- Clean pages hold what the disk has throughout a history when every abort in it finds the pages
of its transaction falling back to what the disk has. -/
theorem cleanMatch_of_fallsBack (hs : x.store.Seated) (hc : x.store.CleanMatch)
    (h : ∀ count tid, requests[count]? = some (.abort tid) →
      (x.after (requests.take count)).store.FallsBack tid) (count : Nat) :
    (x.after (requests.take count)).store.CleanMatch := by
  induction count with
  | zero => exact hc
  | succ count ih =>
    have hseated := seated_after hs (requests.take count)
    rw [after_take_succ]
    cases hrequest : requests[count]? with
    | none => exact ih
    | some request =>
      by_cases habort : ∃ tid, request = .abort tid
      · obtain ⟨tid, rfl⟩ := habort
        exact (Store.cleanMatch_abort_iff ih tid).mpr (h count tid hrequest)
      · exact cleanMatch_respond hseated ih (by simpa using habort)

/-- Clean pages hold what the disk has throughout a history exactly when, at every abort in it, the
pages of the transaction fall back to what the disk has.  Without flushes they always do. -/
theorem cleanMatch_iff_fallsBack {s : Store} (hs : s.Fresh) (hsound : s.catalog.Sound)
    (requests : List Request) :
    ((∀ count, ((Session.mk s []).after (requests.take count)).store.CleanMatch) ↔
      ∀ count tid, requests[count]? = some (.abort tid) →
        ((Session.mk s []).after (requests.take count)).store.FallsBack tid) ∧
    ((∀ request ∈ requests, request.isFlush = false) →
      ∀ count, ((Session.mk s []).after (requests.take count)).store.CleanMatch) := by
  have hcoherent := hs.coherent hsound
  refine ⟨⟨fun h count tid hrequest => ?_, fun h count => ?_⟩, fun hflush count => ?_⟩
  · have hnext := h (count + 1)
    rw [after_take_succ, hrequest] at hnext
    exact (Store.cleanMatch_abort_iff (h count) tid).mp hnext
  · exact cleanMatch_of_fallsBack hcoherent.toSeated hcoherent.clean h count
  · exact (coherent_after hcoherent fun r hr => hflush r (List.mem_of_mem_take hr)).clean

/-- Two transactions that only commit keep clean pages as the disk has them, though pages are
flushed in between. -/
theorem cleanMatch_flush_commit :
    let requests : List Request := [.insert ⟨1⟩ Sample.table.id (Sample.row 1 10), .flushAll,
      .insert ⟨2⟩ Sample.table.id (Sample.row 2 20), .commit ⟨2⟩]
    (Sample.store 1 (by decide)).Fresh ∧ (Catalog.empty.add Sample.table "t").Sound ∧
      ∀ count, ((Session.mk (Sample.store 1 (by decide)) []).after
        (requests.take count)).store.CleanMatch := by
  refine ⟨Sample.fresh_store 1 (by decide), Sample.sound_catalog, ?_⟩
  refine (cleanMatch_iff_fallsBack (Sample.fresh_store 1 (by decide)) Sample.sound_catalog
    _).1.mpr ?_
  rintro (_ | _ | _ | _ | count) tid hrequest <;> simp at hrequest

/-- A page that was flushed, changed again and rolled back is clean and misses the row the flush
wrote. -/
theorem not_cleanMatch_flush_abort :
    ¬ ((Session.mk (Sample.store 1 (by decide)) []).after
      [.insert ⟨1⟩ Sample.table.id (Sample.row 1 10), .flushAll,
        .insert ⟨2⟩ Sample.table.id (Sample.row 2 20), .abort ⟨2⟩]).store.CleanMatch := by
  generalize hs : ((Session.mk (Sample.store 1 (by decide)) []).after
    [.insert ⟨1⟩ Sample.table.id (Sample.row 1 10), .flushAll,
      .insert ⟨2⟩ Sample.table.id (Sample.row 2 20), .abort ⟨2⟩]).store = s
  have hclean : (s.cache.find? ⟨Sample.table.id, 0⟩).map (·.page.dirtier) = some none := by
    rw [← hs]
    decide +kernel
  have hbytes : (s.storedBytes ⟨Sample.table.id, 0⟩).toOption ≠
      (s.cache.find? ⟨Sample.table.id, 0⟩).map (·.page.data) := by
    rw [← hs]
    decide +kernel
  intro h
  cases hf : s.cache.find? ⟨Sample.table.id, 0⟩ with
  | none => simp [hf] at hclean
  | some frame =>
    rw [hf, Option.map_some, Option.some.injEq] at hclean
    rw [hf, h _ frame hf hclean] at hbytes
    exact hbytes rfl

end Session

end RowStore
