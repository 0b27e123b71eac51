import RowStore.Proofs.View.Refinement
import Mathlib.Data.List.Perm.Subperm

/-!
# RowStore.Proofs.Store.Room: when a fetch is refused

A page that is not cached can be loaded when the cache is not full, or when some cached page is not
in use: neither dirty nor held.  Fetching changes nothing about that.  Where there is room each page
that is loaded may be evicted again, and where there is none nothing is loaded.  So what a fetch
returns does not depend on which pages were fetched before (`Fetches.fetch`).
-/

namespace RowStore

namespace Store

variable {s s' t : Store} {page : PageId} {content : Page}

/-- A page that is not cached could be loaded. -/
def HasRoom (s : Store) : Prop :=
  s.cache.makeRoom?.isSome = true

/-- The page is cached, and is dirty or held. -/
def InUse (s : Store) (page : PageId) : Prop :=
  ∃ frame, s.cache.find? page = some frame ∧
    (frame.page.dirtier.isSome = true ∨ s.cache.isHeld frame.tag = true)

/-- Every handle is for a frame that was loaded. -/
def Issued (s : Store) : Prop :=
  ∀ handle ∈ s.cache.handles, handle.tag < s.cache.nextTag

theorem hasRoom_iff (hs : s.cache.Valid) :
    s.HasRoom ↔ s.cache.size < s.cache.capacity ∨
      ∃ page, (s.cache.find? page).isSome = true ∧ ¬ s.InUse page := by
  refine (Cache.makeRoom?_isSome_iff hs).trans (or_congr_right ?_)
  constructor
  · rintro ⟨page, frame, hf, hclean, hfree⟩
    refine ⟨page, hf ▸ rfl, ?_⟩
    rintro ⟨frame', hf', huse⟩
    rw [hf, Option.some.injEq] at hf'
    subst hf'
    simp [hclean, hfree] at huse
  · rintro ⟨page, hcached, hfree⟩
    obtain ⟨frame, hf⟩ := Option.isSome_iff_exists.mp hcached
    refine ⟨page, frame, hf, ?_, ?_⟩
    · cases hmark : frame.page.dirtier with
      | none => rfl
      | some tid => exact absurd ⟨frame, hf, Or.inl (hmark ▸ rfl)⟩ hfree
    · cases hheld : s.cache.isHeld frame.tag with
      | false => rfl
      | true => exact absurd ⟨frame, hf, Or.inr hheld⟩ hfree

/-- Where nobody holds a page and fewer pages were changed than fit, there is room. -/
theorem hasRoom_of_changed (hs : s.cache.Valid) (hfree : s.cache.handles = []) {pages : List PageId}
    (hchanged : ∀ page content, s.view.changed page = some content → page ∈ pages)
    (hlt : pages.length < s.cache.capacity) : s.HasRoom := by
  refine (hasRoom_iff hs).mpr (or_iff_not_imp_left.mpr fun hfull => ?_)
  by_contra hall
  have hsub : s.cache.frames.map Prod.fst ⊆ pages := by
    intro page hmem
    have huse : s.InUse page := by
      by_contra hunused
      exact hall ⟨page, Cache.find?_isSome_iff.mpr hmem, hunused⟩
    obtain ⟨frame, hf, hdirty | hheld⟩ := huse
    · exact hchanged page frame.page (changed_eq_some_iff.mpr ⟨frame, hf, rfl, hdirty⟩)
    · simp [Cache.isHeld, hfree] at hheld
  have hlength := (List.Nodup.subperm hs.distinct hsub).length_le
  simp only [Cache.size, List.length_map] at hfull hlength
  omega

theorem Roomy.hasRoom (hroomy : s.Roomy) (hs : s.cache.Valid) : s.HasRoom := by
  refine @hasRoom_of_changed s hs hroomy.free [] (fun page content hchanged => ?_)
    s.cache.capacity_pos
  rw [allClean_iff.mp hroomy.clean page] at hchanged
  cases hchanged

theorem Roomy.issued (hroomy : s.Roomy) : s.Issued := by
  simp [Issued, hroomy.free]

/-! ## Fetching with and without room -/

/-- A page that is cached, or could be loaded, is fetched as it is shown. -/
theorem fetch_of_hasRoom (hs : s.Coherent)
    (h : s.HasRoom ∨ (s.cache.find? page).isSome = true) :
    (s.fetch page).1 = s.view.page page := by
  rw [hs.page_view, shown]
  have hfetched := s.fetched page
  generalize s.fetch page = out at hfetched ⊢
  cases hfetched with
  | hit hf => rw [hf]
  | failed hmiss hstored | loaded hmiss hstored _ => rw [hmiss, hstored]
  | full hmiss _ hroom =>
    have hsome : s.HasRoom := h.resolve_right (by simp [hmiss])
    simp [HasRoom, hroom] at hsome

/-- That there is no room is never how a page is shown. -/
theorem Coherent.page_ne_noEvictablePage (hs : s.Coherent) (page : PageId) (capacity : Nat) :
    s.view.page page ≠ .error (.noEvictablePage capacity) := by
  rw [hs.page_view, shown]
  cases s.cache.find? page with
  | some frame => simp
  | none => exact Catalog.stored_ne_noEvictablePage capacity

/-- Without room nothing is loaded. -/
theorem snd_fetch_of_not_hasRoom (h : ¬ s.HasRoom) (page : PageId) :
    (s.fetch page).2 = s ∨
      (s.cache.find? page).isSome = true ∧ (s.fetch page).2 = { s with cache := s.cache.touch page } := by
  have hnone : s.cache.makeRoom? = none := by simpa [HasRoom] using h
  have hfetched := s.fetched page
  generalize s.fetch page = out at hfetched ⊢
  cases hfetched with
  | hit hf => exact Or.inr ⟨by rw [hf]; rfl, rfl⟩
  | failed | full => exact Or.inl rfl
  | loaded _ _ hroom => cases hnone.symm.trans hroom

theorem hasRoom_touch (hs : s.cache.Valid) (hcached : (s.cache.find? page).isSome = true) :
    HasRoom { s with cache := s.cache.touch page } ↔ s.HasRoom :=
  (hasRoom_iff (s := { s with cache := s.cache.touch page }) (hs.touch hcached)).trans
    (hasRoom_iff hs).symm

theorem HasRoom.load {room : Cache} (hissued : s.Issued)
    (hstored : s.stored page = .ok content) (hroom : s.cache.makeRoom? = some room)
    (hvalid : (room.load content).Valid) (hmiss : room.find? page = none) :
    HasRoom { s with cache := room.load content } := by
  -- the page that was loaded is clean, and nobody holds a frame that did not exist before
  have hfound : (room.load content).find? page = some ⟨room.nextTag, content⟩ := by
    rw [Cache.find?_load, hmiss, id_of_stored hstored]
    simp
  obtain ⟨hhandles, -, hnext, -⟩ := Cache.fixed_of_makeRoom hroom
  refine (Cache.makeRoom?_isSome_iff hvalid).mpr (Or.inr ⟨page, _, hfound, ?_, ?_⟩)
  · rw [stored_eq_ofBytes hstored]
    rfl
  · rw [Cache.isHeld, List.any_eq_false]
    intro handle hmem
    change handle ∈ room.handles at hmem
    have hlt := hissued handle (hhandles ▸ hmem)
    simp only [decide_eq_true_eq]
    omega

/-- A fetch takes no room away. -/
theorem HasRoom.fetch (hs : s.cache.Valid) (hissued : s.Issued) (h : s.HasRoom) (page : PageId) :
    (s.fetch page).2.HasRoom := by
  have hvalid := Moves.valid (moves_fetch s page) hs
  have hfetched := s.fetched page
  generalize s.fetch page = out at hvalid hfetched ⊢
  cases hfetched with
  | hit hf => exact (hasRoom_touch hs (hf ▸ rfl)).mpr h
  | failed | full => exact h
  | loaded hmiss hstored hroom =>
    exact HasRoom.load hissued hstored hroom hvalid
      (Cache.find?_makeRoom_eq_none hs hroom hmiss)

theorem Move.nextTag_le (h : Move s s') : s.cache.nextTag ≤ s'.cache.nextTag := by
  cases h with
  | @load page content room hmiss hstored hroom =>
    have hnext := (Cache.fixed_of_makeRoom hroom).2.2.1
    exact hnext ▸ Nat.le_succ room.nextTag
  | drop gone =>
    simp only [discard, Cache.discard]
    split <;> exact Nat.le_refl _
  | _ => exact Nat.le_refl _

theorem Issued.moves (hissued : s.Issued) (h : Moves s s') : s'.Issued := by
  induction h with
  | refl => exact hissued
  | tail _ hmove ih =>
    intro handle hmem
    rw [hmove.fixed.1] at hmem
    exact Nat.lt_of_lt_of_le (ih handle hmem) hmove.nextTag_le

/-! ## Fetching does not change what can be fetched -/

theorem fetch_fetch (hs : s.Coherent) (hissued : s.Issued) (first page : PageId) :
    ((s.fetch first).2.fetch page).1 = (s.fetch page).1 := by
  by_cases hroom : s.HasRoom
  · have hview := (fetch_refines hs (Prod.eta (s.fetch first)).symm).1
    rw [fetch_of_hasRoom ((moves_fetch s first).coherent hs)
      (Or.inl (hroom.fetch hs.valid hissued first)), hview, fetch_of_hasRoom hs (Or.inl hroom)]
  · rcases snd_fetch_of_not_hasRoom hroom first with hsame | ⟨hcached, htouched⟩
    · rw [hsame]
    · have hnone : s.cache.makeRoom? = none := by simpa [HasRoom] using hroom
      have hnone' : (s.cache.touch first).makeRoom? = none := by
        have hroom' := mt (hasRoom_touch hs.valid hcached).mp hroom
        simpa [HasRoom] using hroom'
      have hstored : stored { s with cache := s.cache.touch first } page = s.stored page := rfl
      rw [htouched, fetch_eq, fetch_eq]
      simp only [Cache.find?_touch, hstored, hnone, hnone']
      cases s.cache.find? page with
      | some frame => rfl
      | none => cases s.stored page <;> rfl

/-- What a fetch returns does not depend on what was fetched before. -/
theorem Fetches.fetch (h : Fetches s s') (hs : s.Coherent) (hissued : s.Issued) (page : PageId) :
    (s'.fetch page).1 = (s.fetch page).1 := by
  induction h with
  | refl => rfl
  | tail hfetches hfetch ih =>
    obtain ⟨first, rfl⟩ := hfetch
    have hmoves := Fetches.moves hfetches
    rw [fetch_fetch (hmoves.coherent hs) (hissued.moves hmoves), ih]

/-- Fetching changes nothing that is shown. -/
theorem Fetches.view (h : Fetches s s') (hs : s.Coherent) : s'.view = s.view := by
  induction h with
  | refl => rfl
  | tail hfetches hfetch ih =>
    obtain ⟨page, rfl⟩ := hfetch
    exact (fetch_refines ((Fetches.moves hfetches).coherent hs) (Prod.eta _).symm).1.trans ih

/-- There is room, and there is going to be while pages are fetched. -/
structure Admits (s : Store) : Prop where
  room : s.HasRoom
  issued : s.Issued

theorem Roomy.admits (hroomy : s.Roomy) (hs : s.cache.Valid) : s.Admits :=
  ⟨hroomy.hasRoom hs, hroomy.issued⟩

theorem Admits.fetches (h : s.Admits) (hs : s.cache.Valid) (hfetches : Fetches s s') :
    s'.Admits := by
  induction hfetches with
  | refl => exact h
  | tail hfetches hfetch ih =>
    obtain ⟨page, rfl⟩ := hfetch
    have hmoves := Fetches.moves hfetches
    exact ⟨ih.room.fetch (Moves.valid hmoves hs) ih.issued page,
      ih.issued.moves (moves_fetch _ page)⟩

/-! ## One store that serves as well as another -/

/-- Whatever can be fetched from the first store can be fetched from the second. -/
def Serves (s t : Store) : Prop :=
  ∀ page content, (s.fetch page).1 = .ok content → (t.fetch page).1 = .ok content

/-- Two stores that show the same and have the same number of places serve equally well when in the
second no other pages are in use than in the first. -/
theorem serves_of_inUse (hs : s.Coherent) (ht : t.Coherent) (hview : t.view = s.view)
    (hcapacity : t.cache.capacity = s.cache.capacity)
    (huse : ∀ page, t.InUse page → s.InUse page) : s.Serves t := by
  intro page content hfetch
  have hshown : s.view.page page = .ok content := by
    rcases (fetch_refines hs (Prod.eta (s.fetch page)).symm).2 with hsame | ⟨capacity, hrefused⟩
    · rw [← hsame, hfetch]
    · rw [hrefused] at hfetch
      cases hfetch
  refine (fetch_of_hasRoom ht ?_).trans (hview ▸ hshown)
  by_contra hnone
  obtain ⟨hroom, hmiss⟩ := not_or.mp hnone
  rw [hasRoom_iff ht.valid] at hroom
  obtain ⟨hfull, hall⟩ := not_or.mp hroom
  -- the second cache is full of pages in use, and they are cached and in use in the first as well
  have hin : ∀ other, (t.cache.find? other).isSome = true → s.InUse other := fun other hcached =>
    huse other (by by_contra hfree; exact hall ⟨other, hcached, hfree⟩)
  have hsub : t.cache.frames.map Prod.fst ⊆ s.cache.frames.map Prod.fst := by
    intro other hmem
    obtain ⟨frame, hf, -⟩ := hin other (Cache.find?_isSome_iff.mpr hmem)
    exact Cache.find?_isSome_iff.mp (hf ▸ rfl)
  have hperm : (t.cache.frames.map Prod.fst).Perm (s.cache.frames.map Prod.fst) := by
    refine (List.Nodup.subperm ht.valid.distinct hsub).perm_of_length_le ?_
    have hbound := hs.valid.bounded
    simp only [Cache.size, List.length_map] at hfull hbound ⊢
    omega
  have hsame : ∀ other, (s.cache.find? other).isSome = true ↔ (t.cache.find? other).isSome = true :=
    fun other => by rw [Cache.find?_isSome_iff, Cache.find?_isSome_iff, hperm.mem_iff]
  -- so the first has no room either, and the page is cached in both
  have hroom' : ¬ s.HasRoom := by
    rw [hasRoom_iff hs.valid]
    have hlength := hperm.length_eq
    rintro (hlt | ⟨other, hcached, hfree⟩)
    · simp only [Cache.size, List.length_map] at hfull hlt hlength
      omega
    · exact hfree (hin other ((hsame other).mp hcached))
  refine hmiss ((hsame page).mp ?_)
  have hnone' : s.cache.makeRoom? = none := by simpa [HasRoom] using hroom'
  have hfetched := s.fetched page
  generalize s.fetch page = out at hfetch hfetched
  cases hfetched with
  | hit hf => exact hf ▸ rfl
  | failed | full => cases hfetch
  | loaded _ _ hroom => cases hnone'.symm.trans hroom

end Store

end RowStore
