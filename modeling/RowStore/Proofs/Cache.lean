import RowStore.Cache
import RowStore.Proofs.Lookup
import Mathlib.Data.List.Perm.Basic
import Mathlib.Data.List.Perm.Lattice

/-!
# RowStore.Proofs.Cache: what the cache finds, and when it makes room

`Cache.Valid` is the invariant of the cache: every frame is listed once, under the identity of its
page, the order of last use lists exactly the cached pages, and there are at most `capacity` of
them.  For each operation on the cache one lemma says what it finds afterwards and one that it
keeps the invariant.  `makeRoom?_eq_some` says that making room drops a clean page or nothing.
-/

namespace RowStore

/-! ## The order of pages -/

namespace PageId

theorem ble_iff (a b : PageId) :
    a.ble b = true ↔ a.table.value.toNat < b.table.value.toNat ∨
      a.table.value.toNat = b.table.value.toNat ∧ a.number ≤ b.number := by
  have hdef : a.ble b = ((compare a.table.value.toNat b.table.value.toNat).then
      (compare a.number b.number)).isLE := rfl
  rw [hdef]
  rcases Nat.lt_trichotomy a.table.value.toNat b.table.value.toNat with h | h | h
  · simp [Nat.compare_eq_lt.mpr h, h]
  · simp [h, Nat.isLE_compare]
  · simp [Nat.compare_eq_gt.mpr h, Nat.not_lt_of_gt h, Nat.ne_of_gt h]

theorem ble_total (a b : PageId) : (a.ble b || b.ble a) = true := by
  rw [Bool.or_eq_true, ble_iff, ble_iff]
  omega

theorem ble_trans (a b c : PageId) (h1 : a.ble b = true) (h2 : b.ble c = true) :
    a.ble c = true := by
  rw [ble_iff] at *
  omega

theorem ble_antisymm {a b : PageId} (h1 : a.ble b = true) (h2 : b.ble a = true) : a = b := by
  rw [ble_iff] at h1 h2
  obtain ⟨⟨ta⟩, na⟩ := a
  obtain ⟨⟨tb⟩, nb⟩ := b
  have ht : ta = tb := UInt64.toNat_inj.mp (by dsimp only at h1 h2; omega)
  have hn : na = nb := by dsimp only at h1 h2; omega
  rw [ht, hn]

end PageId

/-! ## The order of last use -/

namespace Recency

variable {recency : Recency} {page : PageId}

theorem mem_touch {other : PageId} :
    other ∈ (recency.touch page).pages ↔ other = page ∨ other ∈ recency.pages := by
  simp only [touch, remove, List.mem_append, List.mem_filter, List.mem_singleton, ne_eq,
    decide_not, Bool.not_eq_true', decide_eq_false_iff_not]
  tauto

theorem nodup_touch (h : recency.pages.Nodup) : (recency.touch page).pages.Nodup := by
  simp only [touch, remove]
  rw [List.nodup_append]
  refine ⟨h.filter _, List.nodup_singleton _, ?_⟩
  intro a ha b hb hab
  simp only [List.mem_filter, ne_eq, decide_not, Bool.not_eq_true', decide_eq_false_iff_not] at ha
  exact ha.2 (hab.trans (List.mem_singleton.mp hb))

/-- The page taken out qualifies, and is all that is taken out. -/
theorem evict_eq_some {qualifies : PageId → Bool} {rest : Recency}
    (h : recency.evict qualifies = some (page, rest)) :
    page ∈ recency.pages ∧ qualifies page = true ∧ recency.pages.Perm (page :: rest.pages) := by
  unfold evict at h
  cases hidx : recency.pages.findIdx? qualifies with
  | none => simp [hidx] at h
  | some index =>
    obtain ⟨hlt, hq, -⟩ := List.findIdx?_eq_some_iff_getElem.mp hidx
    simp only [hidx, List.getElem?_eq_getElem hlt, Option.some.injEq, Prod.mk.injEq] at h
    obtain ⟨rfl, rfl⟩ := h
    exact ⟨List.getElem_mem hlt, hq, (List.getElem_cons_eraseIdx_perm hlt).symm⟩

/-- Something is taken out as soon as some page qualifies. -/
theorem evict_isSome {qualifies : PageId → Bool} (hmem : page ∈ recency.pages)
    (hq : qualifies page = true) : (recency.evict qualifies).isSome := by
  unfold evict
  cases hidx : recency.pages.findIdx? qualifies with
  | none =>
    rw [List.findIdx?_eq_none_iff] at hidx
    rw [hidx page hmem] at hq
    simp at hq
  | some index =>
    obtain ⟨hlt, -⟩ := List.findIdx?_eq_some_iff_getElem.mp hidx
    simp [List.getElem?_eq_getElem hlt]

end Recency

/-! ## The invariant of the cache -/

namespace Cache

/-- Every frame is listed once and under the identity of its page, the order of last use lists
exactly the cached pages, and there are at most `capacity` of them. -/
structure Valid (cache : Cache) : Prop where
  keyed : ∀ {page frame}, cache.find? page = some frame → frame.page.id = page
  distinct : (cache.frames.map Prod.fst).Nodup
  tracked : ∀ page, page ∈ cache.recency.pages ↔ (cache.find? page).isSome
  once : cache.recency.pages.Nodup
  bounded : cache.size ≤ cache.capacity

variable {cache room : Cache} {page : PageId} {frame : Frame}

theorem find?_isSome_iff : (cache.find? page).isSome ↔ page ∈ cache.frames.map Prod.fst :=
  Lookup.lookup_isSome_iff_mem

/-! ### What is found after an operation -/

@[simp] theorem find?_touch (used : PageId) : (cache.touch used).find? page = cache.find? page :=
  rfl

theorem find?_put (content : Page) :
    (cache.put content).find? page =
      (cache.find? page).map fun frame =>
        if page = content.id then { frame with page := content } else frame := by
  have hmap : (cache.put content).frames = cache.frames.map fun entry =>
      (entry.1, if entry.1 = content.id then { entry.2 with page := content } else entry.2) := by
    simp only [put]
    congr 1
    funext entry
    split_ifs <;> rfl
  rw [find?, hmap, find?,
    Lookup.lookup_map cache.frames fun id frame =>
      if id = content.id then { frame with page := content } else frame]

theorem find?_load (content : Page) :
    (cache.load content).find? page =
      (cache.find? page).or
        (if page = content.id then some ⟨cache.nextTag, content⟩ else none) := by
  simp only [find?, load, List.lookup_append]
  congr 1
  split_ifs with h
  · simp [h]
  · rw [List.lookup_cons, beq_eq_false_iff_ne.mpr h]
    rfl

theorem find?_discard (gone : PageId) :
    (cache.discard gone).find? page = if page = gone then none else cache.find? page := by
  unfold discard
  cases hgone : cache.find? gone with
  | none =>
    dsimp only
    split_ifs with h
    · rw [h, hgone]
    · rfl
  | some frame => exact Lookup.lookup_filter_ne cache.frames gone page

/-! ### Making room -/

/-- Making room drops the least recently used page that is clean and not held, or nothing when
there is room. -/
theorem makeRoom?_eq_some (hv : cache.Valid) (h : cache.makeRoom? = some room) :
    (room = cache ∧ cache.size < cache.capacity) ∨
      ∃ victim frame rest, cache.find? victim = some frame ∧ frame.page.dirtier = none ∧
        cache.isHeld frame.tag = false ∧ cache.recency.pages.Perm (victim :: rest.pages) ∧
        room = { cache with
          frames := cache.frames.filter fun entry => entry.1 ≠ victim
          recency := rest } := by
  unfold makeRoom? at h
  split_ifs at h with hfull
  · exact Or.inl ⟨(Option.some.inj h).symm, hfull⟩
  · right
    cases hevict : cache.recency.evict cache.isEvictable with
    | none => simp [hevict] at h
    | some out =>
      obtain ⟨victim, rest⟩ := out
      obtain ⟨hmem, hq, hperm⟩ := Recency.evict_eq_some hevict
      obtain ⟨frame, hframe⟩ := Option.isSome_iff_exists.mp ((hv.tracked victim).mp hmem)
      simp only [isEvictable, hframe, Bool.and_eq_true, Option.isNone_iff_eq_none,
        Bool.not_eq_true'] at hq
      simp only [hevict, Option.some.injEq] at h
      exact ⟨victim, frame, rest, hframe, hq.1, hq.2, hperm, h.symm⟩

/-- Making room touches nothing but the cached pages and their order. -/
theorem fixed_of_makeRoom (h : cache.makeRoom? = some room) :
    room.handles = cache.handles ∧ room.detached = cache.detached ∧
      room.nextTag = cache.nextTag ∧ room.capacity = cache.capacity := by
  unfold makeRoom? at h
  split_ifs at h
  · rw [← Option.some.inj h]
    exact ⟨rfl, rfl, rfl, rfl⟩
  · split at h
    · cases h
    · rw [← Option.some.inj h]
      exact ⟨rfl, rfl, rfl, rfl⟩

/-- A page that is still cached after making room is unchanged. -/
theorem find?_of_find?_makeRoom (hv : cache.Valid) (h : cache.makeRoom? = some room)
    (hf : room.find? page = some frame) : cache.find? page = some frame := by
  rcases makeRoom?_eq_some hv h with ⟨rfl, -⟩ | ⟨victim, _, rest, -, -, -, -, rfl⟩
  · exact hf
  · have hfilter := Lookup.lookup_filter_ne cache.frames victim page
    change (cache.frames.filter fun entry => entry.1 ≠ victim).lookup page = some frame at hf
    rw [hfilter] at hf
    split_ifs at hf
    exact hf

/-- Making room brings no page in. -/
theorem find?_makeRoom_eq_none (hv : cache.Valid) (h : cache.makeRoom? = some room)
    (hmiss : cache.find? page = none) : room.find? page = none :=
  Option.eq_none_iff_forall_ne_some.mpr fun frame hf => by
    rw [find?_of_find?_makeRoom hv h hf] at hmiss
    cases hmiss

/-- A page that making room dropped was clean. -/
theorem find?_makeRoom (hv : cache.Valid) (h : cache.makeRoom? = some room)
    (hf : cache.find? page = some frame) :
    room.find? page = some frame ∨ room.find? page = none ∧ frame.page.dirtier = none := by
  rcases makeRoom?_eq_some hv h with ⟨rfl, -⟩ | ⟨victim, dropped, rest, hd, hclean, -, -, rfl⟩
  · exact Or.inl hf
  · have hfilter := Lookup.lookup_filter_ne cache.frames victim page
    change (cache.frames.filter fun entry => entry.1 ≠ victim).lookup page = some frame ∨
      (cache.frames.filter fun entry => entry.1 ≠ victim).lookup page = none ∧ _
    rw [hfilter]
    split_ifs with heq
    · subst heq
      rw [hd, Option.some.injEq] at hf
      exact Or.inr ⟨rfl, hf ▸ hclean⟩
    · exact Or.inl hf

/-- There is room unless the cache is full of pages that are dirty or held. -/
theorem makeRoom?_isSome_iff (hv : cache.Valid) :
    cache.makeRoom?.isSome = true ↔ cache.size < cache.capacity ∨
      ∃ page frame, cache.find? page = some frame ∧ frame.page.dirtier = none ∧
        cache.isHeld frame.tag = false := by
  constructor
  · intro h
    obtain ⟨room, hroom⟩ := Option.isSome_iff_exists.mp h
    rcases makeRoom?_eq_some hv hroom with ⟨-, hlt⟩ | ⟨page, frame, -, hf, hclean, hfree, -⟩
    · exact Or.inl hlt
    · exact Or.inr ⟨page, frame, hf, hclean, hfree⟩
  · intro h
    unfold makeRoom?
    split_ifs with hlt
    · rfl
    · obtain ⟨page, frame, hf, hclean, hfree⟩ := h.resolve_left hlt
      have hevictable : cache.isEvictable page = true := by
        simp [isEvictable, hf, hclean, hfree]
      have hevict := Recency.evict_isSome ((hv.tracked page).mpr (hf ▸ rfl)) hevictable
      obtain ⟨⟨victim, rest⟩, hout⟩ := Option.isSome_iff_exists.mp hevict
      simp [hout]

/-! ### Every operation keeps the invariant -/

theorem Valid.touch (hv : cache.Valid) (hpage : (cache.find? page).isSome) :
    (cache.touch page).Valid := by
  refine ⟨hv.keyed, hv.distinct, ?_, Recency.nodup_touch hv.once, hv.bounded⟩
  intro other
  rw [find?_touch, ← hv.tracked]
  refine Recency.mem_touch.trans ⟨?_, Or.inr⟩
  rintro (rfl | h)
  · exact (hv.tracked _).mpr hpage
  · exact h

/-- Changing pages in place keeps the invariant as long as no page changes its identity. -/
theorem Valid.of_frames (hv : cache.Valid) {changed : Cache}
    (hkeys : changed.frames.map Prod.fst = cache.frames.map Prod.fst)
    (hrecency : changed.recency = cache.recency) (hcapacity : changed.capacity = cache.capacity)
    (hkeyed : ∀ {page frame}, changed.find? page = some frame → frame.page.id = page) :
    changed.Valid := by
  have hfound : ∀ page, (changed.find? page).isSome ↔ (cache.find? page).isSome := by
    intro page
    rw [find?_isSome_iff, find?_isSome_iff, hkeys]
  have hlen : changed.frames.length = cache.frames.length := by
    simpa using congrArg List.length hkeys
  refine ⟨hkeyed, hkeys ▸ hv.distinct, fun page => ?_, hrecency ▸ hv.once, ?_⟩
  · rw [hrecency, hv.tracked, hfound]
  · have := hv.bounded
    simp only [size] at this ⊢
    omega

theorem Valid.put (hv : cache.Valid) (content : Page) : (cache.put content).Valid := by
  refine hv.of_frames ?_ rfl rfl ?_
  · simp only [Cache.put, List.map_map]
    apply List.map_congr_left
    intro entry _
    simp only [Function.comp_apply]
    split_ifs <;> rfl
  · intro page frame hf
    rw [find?_put] at hf
    obtain ⟨old, hold, rfl⟩ := Option.map_eq_some_iff.mp hf
    split_ifs with h
    · exact h.symm
    · exact hv.keyed hold

theorem Valid.makeRoom (hv : cache.Valid) (h : cache.makeRoom? = some room) :
    room.Valid ∧ room.size < room.capacity := by
  rcases makeRoom?_eq_some hv h with ⟨rfl, hroom⟩ | ⟨victim, frame, rest, hd, -, -, hperm, rfl⟩
  · exact ⟨hv, hroom⟩
  · have hfind : ∀ page, Cache.find? { cache with
          frames := cache.frames.filter fun entry => entry.1 ≠ victim, recency := rest } page =
        if page = victim then none else cache.find? page :=
      Lookup.lookup_filter_ne cache.frames victim
    have honce : (victim :: rest.pages).Nodup := hperm.nodup_iff.mp hv.once
    have hsub : ((cache.frames.filter fun entry => entry.1 ≠ victim).map Prod.fst).Sublist
        (cache.frames.map Prod.fst) := List.filter_sublist.map _
    have hlt : (cache.frames.filter fun entry => entry.1 ≠ victim).length <
        cache.frames.length := by
      rw [List.length_filter_lt_length_iff_exists]
      exact ⟨(victim, frame), Lookup.mem_of_lookup hd, by simp⟩
    have hbound := hv.bounded
    refine ⟨⟨?_, hv.distinct.sublist hsub, fun page => ?_, honce.of_cons, ?_⟩, ?_⟩
    · intro page found hf
      rw [hfind] at hf
      split_ifs at hf
      exact hv.keyed hf
    · rw [hfind]
      have hmem : page ∈ cache.recency.pages ↔ page = victim ∨ page ∈ rest.pages := by
        rw [hperm.mem_iff, List.mem_cons]
      have hnot := (List.nodup_cons.mp honce).1
      split_ifs with heq
      · simp [heq, hnot]
      · rw [← hv.tracked, hmem]
        simp [heq]
    · simp only [size] at hbound ⊢
      omega
    · simp only [size] at hbound ⊢
      omega

theorem Valid.load (hv : cache.Valid) (hroom : cache.size < cache.capacity) {content : Page}
    (hmiss : cache.find? content.id = none) : (cache.load content).Valid := by
  have hnew : content.id ∉ cache.frames.map Prod.fst := by
    rw [← find?_isSome_iff, hmiss]
    simp
  refine ⟨?_, ?_, fun page => ?_, Recency.nodup_touch hv.once, ?_⟩
  · intro page frame hf
    rw [find?_load] at hf
    rcases Option.or_eq_some_iff.mp hf with hold | ⟨-, hload⟩
    · exact hv.keyed hold
    · split_ifs at hload with heq
      rw [← Option.some.inj hload, heq]
  · simp only [Cache.load, List.map_append, List.map_cons, List.map_nil]
    rw [List.nodup_append]
    refine ⟨hv.distinct, List.nodup_singleton _, ?_⟩
    intro a ha b hb hab
    exact hnew (List.mem_singleton.mp hb ▸ hab ▸ ha)
  · refine Recency.mem_touch.trans ?_
    rw [hv.tracked, find?_load, Option.isSome_or, Bool.or_eq_true]
    split_ifs with heq <;> simp [heq]
  · simp only [size, Cache.load, List.length_append, List.length_cons, List.length_nil] at hroom ⊢
    omega

theorem Valid.discard (hv : cache.Valid) (gone : PageId) : (cache.discard gone).Valid := by
  unfold Cache.discard
  cases hgone : cache.find? gone with
  | none => exact hv
  | some frame =>
    have hfind : ∀ page, (cache.frames.filter fun entry => entry.1 ≠ gone).lookup page =
        if page = gone then none else cache.find? page :=
      Lookup.lookup_filter_ne cache.frames gone
    have hsub : ((cache.frames.filter fun entry => entry.1 ≠ gone).map Prod.fst).Sublist
        (cache.frames.map Prod.fst) := List.filter_sublist.map _
    refine ⟨?_, hv.distinct.sublist hsub, fun page => ?_, hv.once.filter _, ?_⟩
    · intro page found hf
      change (cache.frames.filter fun entry => entry.1 ≠ gone).lookup page = some found at hf
      rw [hfind] at hf
      split_ifs at hf
      exact hv.keyed hf
    · change page ∈ cache.recency.pages.filter _ ↔
        ((cache.frames.filter fun entry => entry.1 ≠ gone).lookup page).isSome
      rw [hfind, List.mem_filter, hv.tracked]
      split_ifs with heq <;> simp [heq]
    · exact Nat.le_trans (List.length_filter_le _ _) hv.bounded

theorem valid_of_ofCapacity {pageSize capacity : Nat} (h : ofCapacity pageSize capacity = .ok cache) :
    cache.Valid := by
  unfold ofCapacity at h
  split_ifs at h
  cases h
  exact ⟨by simp [find?], List.nodup_nil, by simp [find?, Recency.empty], List.nodup_nil,
    Nat.zero_le _⟩

/-! ## The cached pages in order -/

theorem mem_pageIds : page ∈ cache.pageIds ↔ (cache.find? page).isSome := by
  rw [find?_isSome_iff, pageIds, List.mem_mergeSort]

theorem pairwise_pageIds : cache.pageIds.Pairwise fun a b => a.ble b = true :=
  List.pairwise_mergeSort PageId.ble_trans PageId.ble_total _

theorem Valid.nodup_pageIds (hv : cache.Valid) : cache.pageIds.Nodup :=
  (List.mergeSort_perm _ _).nodup_iff.mpr hv.distinct

end Cache

end RowStore
