import RowStore.Proofs.Handles
import RowStore.Proofs.Store.Room

/-!
# RowStore.Proofs.Store.Tags: frames through time

Tags are given out in ascending order and never again.  So a frame whose tag was given out before
some moment was there at that moment, under the same page (`Traces`), whatever has happened since;
and who holds such a frame is known from the handles of that moment.
-/

namespace RowStore

namespace Store

variable {s s' t : Store} {page : PageId} {frame : Frame}

/-- Every cached frame, and every frame there is a handle for, was loaded. -/
structure Tagged (s : Store) : Prop where
  frames : ∀ {page frame}, s.cache.find? page = some frame → frame.tag < s.cache.nextTag
  issued : s.Issued

/-- The frames of `t` were cached in `s`, under the same pages, or are younger than `s`. -/
structure Traces (s t : Store) : Prop where
  nextTag_le : s.cache.nextTag ≤ t.cache.nextTag
  frames : ∀ {page frame}, t.cache.find? page = some frame →
    (∃ old, s.cache.find? page = some old ∧ old.tag = frame.tag) ∨
      s.cache.nextTag ≤ frame.tag ∧ frame.tag < t.cache.nextTag

theorem Traces.of_frames (hnext : t.cache.nextTag = s.cache.nextTag)
    (hframes : ∀ {page frame}, t.cache.find? page = some frame →
      ∃ old, s.cache.find? page = some old ∧ old.tag = frame.tag) : s.Traces t :=
  ⟨hnext ▸ Nat.le_refl _, fun hf => Or.inl (hframes hf)⟩

theorem Traces.of_find? (hnext : t.cache.nextTag = s.cache.nextTag)
    (hfind : ∀ page, t.cache.find? page = s.cache.find? page) : s.Traces t :=
  .of_frames hnext fun {page frame} hf => ⟨frame, hfind page ▸ hf, rfl⟩

/-- Changes to frames that leave their tags alone. -/
theorem Traces.of_map {change : PageId → Frame → Frame}
    (hnext : t.cache.nextTag = s.cache.nextTag)
    (hfind : ∀ page, t.cache.find? page = (s.cache.find? page).map (change page))
    (hchange : ∀ page frame, (change page frame).tag = frame.tag) : s.Traces t := by
  refine .of_frames hnext fun {page frame} hf => ?_
  obtain ⟨old, hold, rfl⟩ := Option.map_eq_some_iff.mp (hfind page ▸ hf)
  exact ⟨old, hold, (hchange page old).symm⟩

theorem Traces.refl (s : Store) : s.Traces s :=
  .of_find? rfl fun _ => rfl

theorem Traces.trans (h : s.Traces s') (h' : s'.Traces t) : s.Traces t := by
  refine ⟨Nat.le_trans h.nextTag_le h'.nextTag_le, fun {page frame} hf => ?_⟩
  rcases h'.frames hf with ⟨old, hold, htag⟩ | ⟨hle, hlt⟩
  · rcases h.frames hold with ⟨older, holder, htag'⟩ | ⟨hle, hlt⟩
    · exact Or.inl ⟨older, holder, htag'.trans htag⟩
    · exact Or.inr (htag ▸ ⟨hle, Nat.lt_of_lt_of_le hlt h'.nextTag_le⟩)
  · exact Or.inr ⟨Nat.le_trans h.nextTag_le hle, hlt⟩

/-- A frame with a tag that had been given out was there. -/
theorem Traces.of_lt (h : s.Traces t) (hf : t.cache.find? page = some frame)
    (hlt : frame.tag < s.cache.nextTag) :
    ∃ old, s.cache.find? page = some old ∧ old.tag = frame.tag :=
  (h.frames hf).resolve_right fun hnew => absurd hnew.1 (Nat.not_le_of_lt hlt)

theorem traces_disk (s : Store) (disk : Disk) : s.Traces { s with disk } :=
  .of_find? rfl fun _ => rfl

theorem traces_put (s : Store) (content : Page) : s.Traces (s.put content) :=
  .of_map rfl (fun _ => s.cache.find?_put content) fun _ _ => by split_ifs <;> rfl

theorem traces_abort (s : Store) (tid : TransactionId) : s.Traces (s.abort tid) :=
  .of_map rfl (find?_abort s tid) fun _ _ => by split_ifs <;> rfl

theorem traces_flush (s : Store) (page : PageId) : s.Traces (s.flush page).2 := by
  rcases flush_eq s page with h | ⟨frame, disk, -, -, h⟩
  · rw [h]
    exact .refl s
  · rw [h]
    exact (traces_disk s disk).trans (traces_put { s with disk } _)

theorem Move.traces (h : Move s s') (hs : s.cache.Valid) : s.Traces s' := by
  cases h with
  | use hused => exact .of_find? rfl fun _ => rfl
  | @load loaded content room hmiss hstored hroom =>
    have hnext := (Cache.fixed_of_makeRoom hroom).2.2.1
    have hnew : (room.load content).nextTag = s.cache.nextTag + 1 := congrArg (· + 1) hnext
    refine ⟨?_, fun {page frame} hf => ?_⟩
    · exact hnew ▸ Nat.le_succ _
    · change (room.load content).find? page = some frame at hf
      rw [Cache.find?_load] at hf
      rcases Option.or_eq_some_iff.mp hf with hold | ⟨-, hload⟩
      · exact Or.inl ⟨frame, Cache.find?_of_find?_makeRoom hs hroom hold, rfl⟩
      · split_ifs at hload
        rw [← Option.some.inj hload]
        exact Or.inr ⟨hnext.ge, hnew ▸ hnext ▸ Nat.lt_succ_self _⟩
  | rewrite tid hf hr => exact traces_put s _
  | @settle settled frame disk hf hw =>
    exact (traces_disk s disk).trans (traces_put { s with disk } _)
  | drop gone =>
    refine .of_frames ?_ fun {page frame} hf => ?_
    · simp only [discard, Cache.discard]
      split <;> rfl
    · rw [find?_discard] at hf
      split_ifs at hf
      exact ⟨frame, hf, rfl⟩
  | grow ht hw => exact traces_disk s _

theorem Moves.traces (h : Moves s s') (hs : s.cache.Valid) : s.Traces s' := by
  induction h with
  | refl => exact .refl s
  | tail hmoves hmove ih => exact ih.trans (hmove.traces (Moves.valid hmoves hs))

/-- Tags stay in order where nobody takes a handle. -/
theorem Tagged.of_traces (hs : s.Tagged) (h : s.Traces t)
    (hhandles : t.cache.handles ⊆ s.cache.handles) : t.Tagged := by
  refine ⟨fun {page frame} hf => ?_, fun handle hmem =>
    Nat.lt_of_lt_of_le (hs.issued handle (hhandles hmem)) h.nextTag_le⟩
  rcases h.frames hf with ⟨old, hold, htag⟩ | ⟨-, hlt⟩
  · exact htag ▸ Nat.lt_of_lt_of_le (hs.frames hold) h.nextTag_le
  · exact hlt

theorem Tagged.moves (ht : s.Tagged) (hs : s.cache.Valid) (h : Moves s s') : s'.Tagged :=
  ht.of_traces (Moves.traces h hs) (Moves.handles h ▸ List.Subset.refl _)

theorem traces_hold (hs : s.cache.Valid) (page : PageId) : s.Traces (s.hold page).2 := by
  refine (Moves.traces (moves_fetch s page) hs).trans ?_
  refine .of_find? ?_ (sameFrames_hold s page).find?
  rcases hold_eq s page with h | ⟨s', frame, rfl, -, h⟩ <;> rw [h]

theorem Tagged.hold (ht : s.Tagged) (hs : s.cache.Valid) (page : PageId) :
    (s.hold page).2.Tagged := by
  have hfetched := ht.moves hs (moves_fetch s page)
  rcases hold_eq s page with h | ⟨s', frame, rfl, hf, h⟩ <;> rw [h]
  · exact hfetched
  · refine ⟨hfetched.frames, fun handle hmem => ?_⟩
    rcases List.mem_cons.mp hmem with rfl | hmem
    · exact hfetched.frames hf
    · exact hfetched.issued handle hmem

theorem Tagged.release (ht : s.Tagged) (handle : Handle) : (s.release handle).Tagged :=
  ht.of_traces (.of_find? rfl fun _ => rfl) List.erase_subset

theorem Tagged.of_ofCapacity {pageSize capacity : Nat}
    (h : Cache.ofCapacity pageSize capacity = .ok s.cache) : s.Tagged := by
  refine ⟨by simp [Cache.find?_of_ofCapacity h], ?_⟩
  unfold Cache.ofCapacity at h
  split_ifs at h
  simp [Issued, ← Except.ok.inj h]

end Store

namespace Session

variable {x : Session}

/-- Whatever is done with a session, tags stay in order. -/
theorem tagged_act (ht : x.store.Tagged) (hs : x.store.cache.Valid) (action : Action) :
    (x.act action).store.Tagged := by
  cases action with
  | ask request =>
    refine (@respond_keeps (fun s => s.cache.Valid ∧ s.Tagged) (fun h => h.1) ?_ ?_ ?_
      x ⟨hs, ht⟩ request).2
    · rintro s s' hmoves ⟨hs, ht⟩
      exact ⟨Store.Moves.valid hmoves hs, ht.moves hs hmoves⟩
    · rintro s page ⟨hs, ht⟩
      refine ⟨Store.valid_flush hs page, ht.of_traces (Store.traces_flush s page) ?_⟩
      rcases Store.flush_eq s page with h | ⟨frame, disk, -, -, h⟩ <;>
        rw [h] <;> exact fun _ hmem => hmem
    · rintro s tid ⟨hs, ht⟩
      exact ⟨Store.valid_abort hs tid, ht.of_traces (Store.traces_abort s tid) fun _ hmem => hmem⟩
  | hold page => exact ht.hold hs page
  | release handle => exact ht.release handle

end Session

end RowStore
