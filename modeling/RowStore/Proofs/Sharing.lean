import RowStore.Proofs.Handles

/-!
# RowStore.Proofs.Sharing: one live copy of every page

Whoever holds a page holds the frame it is cached in.  `Pinned` says so: a handle has the tag of the
frame that is cached under its page, no two cached frames have the same tag, and no frame lives on
outside the cache.  Making room keeps it because a held page is not evicted, a page that is loaded
gets a tag of its own, and aborts, commits and changes through handles work on frames in place.
Only discarding a held page breaks it, and is left out here.

From this follows that a change is seen by everybody, whoever makes it: `OneCopy`.
-/

namespace RowStore

/-! ## Tags -/

namespace Cache

variable {cache room : Cache} {page : PageId} {frame : Frame} {tag : Nat} {handle : Handle}

/-- The tag of the frame a page is cached in. -/
def tag? (cache : Cache) (page : PageId) : Option Nat :=
  (cache.find? page).map Frame.tag

/-- The page as it is cached. -/
def page? (cache : Cache) (page : PageId) : Option Page :=
  (cache.find? page).map Frame.page

theorem page?_of_find? (h : cache.find? page = some frame) : cache.page? page = some frame.page := by
  rw [page?, h]
  rfl

theorem tag?_eq_some_iff :
    cache.tag? page = some tag ↔ ∃ frame, cache.find? page = some frame ∧ frame.tag = tag :=
  Option.map_eq_some_iff

theorem isHeld_of_mem (h : handle ∈ cache.handles) : cache.isHeld handle.tag = true :=
  List.any_eq_true.mpr ⟨handle, h, by simp⟩

/-- Changes to frames that leave their tags alone. -/
theorem tag?_of_map {changed : Cache} {change : Frame → Frame}
    (h : changed.find? page = (cache.find? page).map change)
    (hchange : ∀ frame, (change frame).tag = frame.tag) : changed.tag? page = cache.tag? page := by
  rw [tag?, tag?, h, Option.map_map]
  congr 1
  exact funext hchange

@[simp] theorem tag?_put (content : Page) : (cache.put content).tag? page = cache.tag? page :=
  tag?_of_map (find?_put content) fun _ => by split_ifs <;> rfl

theorem tag?_load (content : Page) :
    (cache.load content).tag? page =
      (cache.tag? page).or (if page = content.id then some cache.nextTag else none) := by
  rw [tag?, find?_load, tag?]
  cases cache.find? page with
  | some frame => rfl
  | none => split_ifs <;> rfl

theorem tag?_discard (gone : PageId) :
    (cache.discard gone).tag? page = if page = gone then none else cache.tag? page := by
  rw [tag?, find?_discard]
  split_ifs <;> rfl

/-- Making room drops no page that is held. -/
theorem find?_makeRoom_of_isHeld (hv : cache.Valid) (h : cache.makeRoom? = some room)
    (hf : cache.find? page = some frame) (hheld : cache.isHeld frame.tag = true) :
    room.find? page = some frame := by
  rcases makeRoom?_eq_some hv h with ⟨rfl, -⟩ | ⟨victim, dropped, rest, hd, -, hfree, -, rfl⟩
  · exact hf
  · have hne : page ≠ victim := by
      rintro rfl
      rw [hd, Option.some.injEq] at hf
      rw [hf, hheld] at hfree
      cases hfree
    refine (Lookup.lookup_filter_ne cache.frames victim page).trans ?_
    rw [if_neg hne]
    exact hf

/-- A change through a handle changes the pages of the frames with its tag. -/
theorem find?_putHeld (content : Page) :
    (cache.putHeld handle content).find? page = (cache.find? page).map fun frame =>
      if frame.tag = handle.tag then { frame with page := content } else frame :=
  Lookup.lookup_map cache.frames (fun _ frame =>
    if frame.tag = handle.tag then { frame with page := content } else frame) page

@[simp] theorem tag?_putHeld (content : Page) :
    (cache.putHeld handle content).tag? page = cache.tag? page :=
  tag?_of_map (find?_putHeld content) fun _ => by split_ifs <;> rfl

end Cache

namespace Store

variable {s s' : Store} {page : PageId} {frame : Frame} {content : Page} {handle : Handle}
  {tid : TransactionId} {row : Row} {record : RecordId}

/-! ## Who holds a page holds the frame it is cached in -/

/-- Every handle has the tag of the frame its page is cached in, and no tag is used twice. -/
structure Pinned (s : Store) : Prop where
  valid : s.cache.Valid
  fresh : ∀ {page tag}, s.cache.tag? page = some tag → tag < s.cache.nextTag
  once : ∀ {a b tag}, s.cache.tag? a = some tag → s.cache.tag? b = some tag → a = b
  held : ∀ handle ∈ s.cache.handles, s.cache.tag? handle.page = some handle.tag
  attached : s.cache.detached = []

/-- A store without pages and handles. -/
theorem Pinned.of_ofCapacity {pageSize capacity : Nat}
    (h : Cache.ofCapacity pageSize capacity = .ok s.cache) : s.Pinned := by
  have hvalid := Cache.valid_of_ofCapacity h
  have hnone : ∀ page, s.cache.tag? page = none := by
    intro page
    unfold Cache.ofCapacity at h
    split_ifs at h
    rw [← Except.ok.inj h]
    rfl
  refine ⟨hvalid, ?_, ?_, ?_, ?_⟩
  · simp [hnone]
  · simp [hnone]
  all_goals
    unfold Cache.ofCapacity at h
    split_ifs at h
    simp [← Except.ok.inj h]

/-- Only the tags and the handles matter. -/
theorem Pinned.of_tags (hs : s.Pinned) (hvalid : s'.cache.Valid)
    (htags : ∀ page, s'.cache.tag? page = s.cache.tag? page)
    (hnext : s'.cache.nextTag = s.cache.nextTag)
    (hhandles : s'.cache.handles ⊆ s.cache.handles)
    (hdetached : s'.cache.detached = s.cache.detached) : s'.Pinned where
  valid := hvalid
  fresh h := hnext ▸ hs.fresh (htags _ ▸ h)
  once ha hb := hs.once (htags _ ▸ ha) (htags _ ▸ hb)
  held handle hmem := (htags _).trans (hs.held handle (hhandles hmem))
  attached := hdetached.trans hs.attached

theorem Pinned.put (hs : s.Pinned) (content : Page) : (s.put content).Pinned :=
  hs.of_tags (hs.valid.put content) (fun _ => Cache.tag?_put content) rfl (fun _ h => h) rfl

/-- The disk and the catalog do not matter. -/
theorem Pinned.alter (hs : s.Pinned) (disk : Disk) (catalog : Catalog) :
    Pinned { s with disk, catalog } :=
  hs.of_tags hs.valid (fun _ => rfl) rfl (fun _ h => h) rfl

/-- Loading a page gives it a tag of its own and drops no page that is held. -/
theorem Pinned.load {room : Cache} (hs : s.Pinned) (hmiss : s.cache.find? page = none)
    (hid : content.id = page) (hroom : s.cache.makeRoom? = some room)
    (hvalid : (room.load content).Valid) : Pinned { s with cache := room.load content } := by
  obtain ⟨hhandles, hdetached, hnext, -⟩ := Cache.fixed_of_makeRoom hroom
  -- a tag of the cache with room is a tag of the cache before
  have hold : ∀ {page tag}, room.tag? page = some tag → s.cache.tag? page = some tag := by
    intro page tag h
    obtain ⟨frame, hf, htag⟩ := Cache.tag?_eq_some_iff.mp h
    exact Cache.tag?_eq_some_iff.mpr
      ⟨frame, Cache.find?_of_find?_makeRoom hs.valid hroom hf, htag⟩
  have hcases : ∀ {other tag}, (room.load content).tag? other = some tag →
      s.cache.tag? other = some tag ∨ other = page ∧ tag = s.cache.nextTag := by
    intro other tag h
    rw [Cache.tag?_load, hid, hnext] at h
    rcases Option.or_eq_some_iff.mp h with hroomy | ⟨-, hnew⟩
    · exact Or.inl (hold hroomy)
    · split_ifs at hnew with heq
      exact Or.inr ⟨heq, (Option.some.inj hnew).symm⟩
  refine ⟨hvalid, ?_, ?_, ?_, ?_⟩
  · intro other tag h
    change tag < room.nextTag + 1
    rw [hnext]
    rcases hcases h with h | ⟨-, rfl⟩
    · exact Nat.lt_succ_of_lt (hs.fresh h)
    · exact Nat.lt_succ_self _
  · intro a b tag ha hb
    rcases hcases ha with ha | ⟨rfl, rfl⟩ <;> rcases hcases hb with hb | ⟨rfl, hb⟩
    · exact hs.once ha hb
    · exact absurd (hb ▸ hs.fresh ha) (Nat.lt_irrefl _)
    · exact absurd (hs.fresh hb) (Nat.lt_irrefl _)
    · rfl
  · intro handle hmem
    change handle ∈ room.handles at hmem
    rw [hhandles] at hmem
    obtain ⟨frame, hf, htag⟩ := Cache.tag?_eq_some_iff.mp (hs.held handle hmem)
    have hkept := Cache.find?_makeRoom_of_isHeld hs.valid hroom hf
      (htag ▸ Cache.isHeld_of_mem hmem)
    change (room.load content).tag? handle.page = some handle.tag
    rw [Cache.tag?_load, Cache.tag?_eq_some_iff.mpr ⟨frame, hkept, htag⟩]
    rfl
  · exact hdetached.trans hs.attached

/-- A page that was dropped and not detached was not held. -/
theorem Pinned.drop (hs : s.Pinned) (gone : PageId)
    (hdetached : (s.discard gone).cache.detached = s.cache.detached) :
    (s.discard gone).Pinned := by
  have htag : ∀ {page tag}, (s.discard gone).cache.tag? page = some tag →
      s.cache.tag? page = some tag := by
    intro page tag h
    change (s.cache.discard gone).tag? page = some tag at h
    rw [Cache.tag?_discard] at h
    split_ifs at h
    exact h
  have hfixed : (s.discard gone).cache.handles = s.cache.handles ∧
      (s.discard gone).cache.nextTag = s.cache.nextTag := by
    simp only [discard, Cache.discard]
    split <;> exact ⟨rfl, rfl⟩
  refine ⟨hs.valid.discard gone, fun h => hfixed.2 ▸ hs.fresh (htag h),
    fun ha hb => hs.once (htag ha) (htag hb), ?_, hdetached.trans hs.attached⟩
  intro handle hmem
  rw [hfixed.1] at hmem
  have hheld := hs.held handle hmem
  change (s.cache.discard gone).tag? handle.page = some handle.tag
  rw [Cache.tag?_discard]
  split_ifs with heq
  · exfalso
    obtain ⟨frame, hf, htag⟩ := Cache.tag?_eq_some_iff.mp (heq ▸ hheld)
    simp only [discard, Cache.discard, hf, htag, Cache.isHeld_of_mem hmem, if_true] at hdetached
    exact List.cons_ne_self _ _ hdetached
  · exact hheld

theorem Pinned.step (hs : s.Pinned) (h : Step s s') : s'.Pinned := by
  obtain ⟨hmove, hdetached⟩ := h
  have hvalid := hmove.valid hs.valid
  cases hmove with
  | use hused => exact hs.of_tags hvalid (fun _ => rfl) rfl (fun _ h => h) rfl
  | load hmiss hstored hroom => exact hs.load hmiss (id_of_stored hstored) hroom hvalid
  | rewrite tid hf hr => exact hs.put _
  | settle hf hw => exact (hs.alter _ _).put _
  | drop gone => exact hs.drop gone hdetached
  | grow ht hw => exact hs.alter _ _

theorem Pinned.steps (hs : s.Pinned) (h : Steps s s') : s'.Pinned := by
  induction h with
  | refl => exact hs
  | tail _ hstep ih => exact ih.step hstep

theorem Pinned.flush (hs : s.Pinned) (page : PageId) : (s.flush page).2.Pinned := by
  rcases flush_eq s page with h | ⟨frame, disk, -, -, h⟩
  · rwa [h]
  · rw [h]
    exact (hs.alter disk s.catalog).put _

theorem Pinned.abort (hs : s.Pinned) (tid : TransactionId) : (s.abort tid).Pinned := by
  refine hs.of_tags (valid_abort hs.valid tid) (fun page => ?_) rfl (fun _ h => h) rfl
  exact Cache.tag?_of_map (find?_abort s tid page) fun _ => by split_ifs <;> rfl

theorem Pinned.hold (hs : s.Pinned) (page : PageId) : (s.hold page).2.Pinned := by
  have hfetched := hs.steps (steps_fetch s page)
  have hvalid := (sameFrames_hold s page).valid hfetched.valid
  rcases hold_eq s page with h | ⟨s', frame, rfl, hf, h⟩ <;> rw [h] at hvalid ⊢
  · exact hfetched
  · refine ⟨hvalid, hfetched.fresh, hfetched.once, ?_, hfetched.attached⟩
    intro handle hmem
    rcases List.mem_cons.mp hmem with rfl | hmem
    · exact Cache.tag?_eq_some_iff.mpr ⟨frame, hf, rfl⟩
    · exact hfetched.held handle hmem

theorem Pinned.release (hs : s.Pinned) (handle : Handle) : (s.release handle).Pinned := by
  refine hs.of_tags ((sameFrames_release s handle).valid hs.valid) (fun _ => rfl) rfl
    List.erase_subset ?_
  simp [Store.release, Cache.release, hs.attached]

/-! ## Changes through a handle -/

/-- The store after the page behind a handle that is held was changed. -/
def edit (s : Store) (handle : Handle) (change : Page → Page) : Store :=
  if handle ∈ s.cache.handles then
    match s.cache.held? handle with
    | none => s
    | some content => { s with cache := s.cache.putHeld handle (change content) }
  else s

/-- Behind a handle is the page that is cached. -/
theorem Pinned.held?_eq (hs : s.Pinned) (hmem : handle ∈ s.cache.handles)
    (hf : s.cache.find? handle.page = some frame) : s.cache.held? handle = some frame.page := by
  obtain ⟨found, hfound, htag⟩ := Cache.tag?_eq_some_iff.mp (hs.held handle hmem)
  rw [hf, Option.some.injEq] at hfound
  subst hfound
  have hin : frame ∈ s.cache.frames.map Prod.snd :=
    List.mem_map_of_mem (Lookup.mem_of_lookup hf)
  have hdef : s.cache.held? handle =
      ((s.cache.frames.map Prod.snd).find? fun frame => frame.tag = handle.tag).map Frame.page := by
    rw [Cache.held?, hs.attached, List.append_nil]
  rw [hdef]
  cases hfirst : (s.cache.frames.map Prod.snd).find? fun frame => frame.tag = handle.tag with
  | none => simpa [htag] using List.find?_eq_none.mp hfirst frame hin
  | some first =>
    have hsame : first.tag = handle.tag := by simpa using List.find?_some hfirst
    obtain ⟨⟨page, frame'⟩, hentry, rfl⟩ := List.mem_map.mp (List.mem_of_find?_eq_some hfirst)
    have hlookup : s.cache.find? page = some frame' :=
      (Lookup.lookup_eq_some_iff_mem hs.valid.distinct).mpr hentry
    have hpage : page = handle.page :=
      hs.once (Cache.tag?_eq_some_iff.mpr ⟨frame', hlookup, hsame⟩) (hs.held handle hmem)
    rw [hpage, hf, Option.some.injEq] at hlookup
    rw [hlookup]
    rfl

/-- A page that is held is cached. -/
theorem Pinned.exists_frame (hs : s.Pinned) (hmem : handle ∈ s.cache.handles) :
    ∃ frame, s.cache.find? handle.page = some frame :=
  (Cache.tag?_eq_some_iff.mp (hs.held handle hmem)).imp fun _ h => h.1

/-- Which page is cached where after a change through a handle. -/
theorem Pinned.find?_edit (hs : s.Pinned) (hmem : handle ∈ s.cache.handles)
    (hf : s.cache.find? handle.page = some frame) (change : Page → Page) (page : PageId) :
    (s.edit handle change).cache.find? page =
      if page = handle.page then some { frame with page := change frame.page }
      else s.cache.find? page := by
  rw [edit, if_pos hmem, hs.held?_eq hmem hf]
  dsimp only
  rw [Cache.find?_putHeld]
  obtain ⟨found, hfound, htag⟩ := Cache.tag?_eq_some_iff.mp (hs.held handle hmem)
  rw [hf, Option.some.injEq] at hfound
  subst hfound
  split_ifs with heq
  · rw [heq, hf, Option.map_some, if_pos htag]
  · cases hother : s.cache.find? page with
    | none => rfl
    | some other =>
      have hne : other.tag ≠ handle.tag := fun hsame =>
        heq (hs.once (Cache.tag?_eq_some_iff.mpr ⟨other, hother, hsame⟩) (hs.held handle hmem))
      rw [Option.map_some, if_neg hne]

theorem Pinned.edit (hs : s.Pinned) (handle : Handle) {change : Page → Page}
    (hchange : ∀ content, (change content).id = content.id) : (s.edit handle change).Pinned := by
  by_cases hmem : handle ∈ s.cache.handles
  · obtain ⟨frame, hf⟩ := hs.exists_frame hmem
    have hfind := hs.find?_edit hmem hf change
    rw [Store.edit, if_pos hmem, hs.held?_eq hmem hf] at hfind ⊢
    refine hs.of_tags (hs.valid.of_frames ?_ rfl rfl ?_) (fun page => Cache.tag?_putHeld _) rfl
      (fun _ h => h) ?_
    · simp [Cache.putHeld, Function.comp_def]
    · intro page found hfound
      rw [hfind] at hfound
      split_ifs at hfound with heq
      · rw [← Option.some.inj hfound, heq]
        exact (hchange frame.page).trans (hs.valid.keyed hf)
      · exact hs.valid.keyed hfound
    · simp [Cache.putHeld, hs.attached]
  · rwa [Store.edit, if_neg hmem]

/-! ## What operations do to a page that is held -/

/-- Pages were fetched, and perhaps others dropped for them, but none of those that are held. -/
structure LeavesHeld (s s' : Store) : Prop where
  pinned : s'.Pinned
  handles : s'.cache.handles = s.cache.handles
  held : ∀ handle ∈ s.cache.handles, s'.cache.find? handle.page = s.cache.find? handle.page

theorem LeavesHeld.refl (hs : s.Pinned) : s.LeavesHeld s :=
  ⟨hs, rfl, fun _ _ => rfl⟩

theorem LeavesHeld.trans {s'' : Store} (h : s.LeavesHeld s') (h' : s'.LeavesHeld s'') :
    s.LeavesHeld s'' :=
  ⟨h'.pinned, h'.handles.trans h.handles, fun handle hmem =>
    (h'.held handle (h.handles.symm ▸ hmem)).trans (h.held handle hmem)⟩

theorem leavesHeld_fetch (hs : s.Pinned) (page : PageId) : s.LeavesHeld (s.fetch page).2 := by
  have hpinned := hs.steps (steps_fetch s page)
  refine ⟨hpinned, Moves.handles (moves_fetch s page), fun handle hmem => ?_⟩
  have hfetched := s.fetched page
  generalize s.fetch page = out at hfetched ⊢
  cases hfetched with
  | hit | failed | full => rfl
  | @loaded content room hmiss hstored hroom =>
    obtain ⟨frame, hheld, htag⟩ := Cache.tag?_eq_some_iff.mp (hs.held handle hmem)
    have hkept := Cache.find?_makeRoom_of_isHeld hs.valid hroom hheld
      (htag ▸ Cache.isHeld_of_mem hmem)
    change (room.load content).find? handle.page = _
    rw [Cache.find?_load, hkept, hheld]
    rfl

/-- After pages were fetched `old`, which is cached, was replaced by `new`. -/
def Replaces (s s' : Store) (old new : Page) : Prop :=
  ∃ s₁ frame, s.LeavesHeld s₁ ∧ s₁.cache.find? new.id = some frame ∧ frame.page = old ∧
    s' = s₁.put new

theorem LeavesHeld.replaces {s'' : Store} {old new : Page} (h : s.LeavesHeld s')
    (h' : s'.Replaces s'' old new) : s.Replaces s'' old new := by
  obtain ⟨s₁, frame, hleaves, hrest⟩ := h'
  exact ⟨s₁, frame, h.trans hleaves, hrest⟩

/-- How an insert ends: no page that is held was changed, or the row was put into one page. -/
inductive Inserted (s s' : Store) (tid : TransactionId) (row : Row) :
    Except TableError (Option RecordId) → Prop
  | failed {e : TableError} (h : s.LeavesHeld s') : Inserted s s' tid row (.error e)
  | full (h : s.LeavesHeld s') : Inserted s s' tid row (.ok none)
  | stored {record : RecordId} {content changed : Page}
    (hinsert : content.insert row = .ok (record, changed)) (hpage : record.page = changed.id)
    (h : s.Replaces s' content (changed.mark (some tid))) :
    Inserted s s' tid row (.ok (some record))

theorem LeavesHeld.inserted {s'' : Store} {result : Except TableError (Option RecordId)}
    (h : s.LeavesHeld s') (h' : s'.Inserted s'' tid row result) : s.Inserted s'' tid row result := by
  cases h' with
  | failed h' => exact .failed (h.trans h')
  | full h' => exact .full (h.trans h')
  | stored hinsert hpage h' => exact .stored hinsert hpage (h.replaces h')

theorem inserted_insertInPage (hs : s.Pinned) (tid : TransactionId) (page : PageId) (row : Row) :
    s.Inserted (s.insertInPage tid page row).2 tid row (s.insertInPage tid page row).1 := by
  have hleaves := leavesHeld_fetch hs page
  unfold insertInPage
  rcases hfetch : s.fetch page with ⟨e | content, s'⟩
  · rw [hfetch] at hleaves
    exact .failed hleaves
  · rw [hfetch] at hleaves
    dsimp only
    split_ifs
    · exact .full hleaves
    · cases hinsert : content.insert row with
      | error e => exact .failed hleaves
      | ok out =>
        obtain ⟨record, changed⟩ := out
        obtain ⟨frame, hf, rfl⟩ := find?_of_fetch hs.valid hfetch
        have hid : changed.id = page :=
          (Page.rewrites_of_insert hinsert).id.trans (hleaves.pinned.valid.keyed hf)
        have hpage : record.page = changed.id :=
          (Page.id_of_insert hinsert).trans (Page.rewrites_of_insert hinsert).id.symm
        exact .stored hinsert hpage ⟨s', frame, hleaves, hid.symm ▸ hf, rfl, rfl⟩

theorem inserted_insertInPages (tid : TransactionId) (row : Row) :
    ∀ (pages : List PageId) {s : Store}, s.Pinned →
      s.Inserted (insertInPages tid row pages s).2 tid row (insertInPages tid row pages s).1
  | [], _, hs => .full (.refl hs)
  | page :: pages, s, hs => by
    have hfirst := inserted_insertInPage hs tid page row
    unfold insertInPages
    rcases hinsert : s.insertInPage tid page row with ⟨e | _ | record, s'⟩
    · rw [hinsert] at hfirst
      exact hfirst
    · rw [hinsert] at hfirst
      cases hfirst with
      | full hleaves =>
        exact hleaves.inserted (inserted_insertInPages tid row pages hleaves.pinned)
    · rw [hinsert] at hfirst
      exact hfirst

theorem inserted_insertGrowing (table : Table) (tid : TransactionId) (row : Row) :
    ∀ (attempts : Nat) {s : Store}, s.Pinned →
      s.Inserted (insertGrowing table tid row attempts s).2 tid row
        ((insertGrowing table tid row attempts s).1.map some)
  | 0, _, hs => .failed (.refl hs)
  | attempts + 1, s, hs => by
    have hsweep := inserted_insertInPages tid row (table.firstPages (table.pageCount s.disk)) hs
    unfold insertGrowing
    dsimp only
    rcases hinsert : insertInPages tid row (table.firstPages (table.pageCount s.disk)) s with
      ⟨e | _ | record, s₁⟩
    · rw [hinsert] at hsweep
      exact hsweep
    · rw [hinsert] at hsweep
      cases hsweep with
      | full hleaves =>
        dsimp only
        cases table.writeBytes s₁.disk ⟨table.id, table.pageCount s.disk⟩
            (Bytes.zeros table.pageSize) with
        | error e => exact .failed hleaves
        | ok disk =>
          have hgrown : s.LeavesHeld { s₁ with disk } :=
            ⟨hleaves.pinned.alter disk s₁.catalog, hleaves.handles, hleaves.held⟩
          have hlast := inserted_insertInPage hgrown.pinned tid
            ⟨table.id, table.pageCount s.disk⟩ row
          dsimp only
          rcases hlast' : insertInPage { s₁ with disk } tid
              ⟨table.id, table.pageCount s.disk⟩ row with ⟨e | _ | record, s₂⟩
          · rw [hlast'] at hlast
            exact hgrown.inserted hlast
          · rw [hlast'] at hlast
            cases hlast with
            | full hlast =>
              exact (hgrown.trans hlast).inserted
                (inserted_insertGrowing table tid row attempts hlast.pinned)
          · rw [hlast'] at hlast
            exact hgrown.inserted hlast
    · rw [hinsert] at hsweep
      exact hsweep

theorem inserted_insertRow (hs : s.Pinned) (tid : TransactionId) (id : TableId) (row : Row) :
    s.Inserted (s.insertRow tid id row).2 tid row ((s.insertRow tid id row).1.map some) := by
  unfold insertRow
  cases s.catalog.table id with
  | error e => exact .failed (.refl hs)
  | ok table =>
    dsimp only [insertInTable]
    split_ifs
    · exact inserted_insertGrowing table tid row _ hs
    · exact .failed (.refl hs)

/-- A delete takes the row out of the page its record names. -/
theorem replaces_deleteRow (hs : s.Pinned) (h : s.deleteRow tid row = (.ok page, s')) :
    ∃ content changed, content.delete row = .ok changed ∧ page = changed.id ∧
      s.Replaces s' content (changed.mark (some tid)) := by
  unfold deleteRow deleteFromTable at h
  cases hrecord : row.record with
  | none => simp [hrecord] at h
  | some record =>
    simp only [hrecord] at h
    cases ht : s.catalog.table record.page.table with
    | error e => simp [ht] at h
    | ok table =>
      simp only [ht] at h
      split_ifs at h
      · simp at h
      · simp at h
      · have hleaves := leavesHeld_fetch hs record.page
        rcases hfetch : s.fetch record.page with ⟨e | content, s₁⟩
        · simp [hfetch] at h
        · rw [hfetch] at hleaves h
          dsimp only at h
          cases hdelete : content.delete row with
          | error e => simp [hdelete] at h
          | ok changed =>
            simp only [hdelete, Prod.mk.injEq, Except.ok.injEq] at h
            obtain ⟨rfl, rfl⟩ := h
            obtain ⟨frame, hf, rfl⟩ := find?_of_fetch hs.valid hfetch
            have hid : changed.id = record.page :=
              (Page.rewrites_of_delete hdelete).id.trans (hleaves.pinned.valid.keyed hf)
            exact ⟨frame.page, changed, hdelete, hid.symm, s₁, frame, hleaves, hid.symm ▸ hf, rfl,
              rfl⟩

/-- What becomes of a cached page when `tid` commits. -/
def committed (tid : TransactionId) (content : Page) : Page :=
  if content.dirtier = some tid then (content.mark none).setBefore else content

/-- What becomes of a cached page when `tid` aborts. -/
def aborted (tid : TransactionId) (content : Page) : Page :=
  if content.dirtier = some tid then content.beforeImage else content

theorem committed_committed (tid : TransactionId) (content : Page) :
    committed tid (committed tid content) = committed tid content := by
  unfold committed
  split_ifs with h h'
  · cases h'
  · rfl
  · rfl

theorem page?_put (hf : s.cache.find? content.id = some frame) :
    (s.put content).cache.page? page =
      if page = content.id then some content else s.cache.page? page := by
  rw [Cache.page?, find?_put hf]
  split_ifs <;> rfl

/-- A commit that succeeds has been through all the pages it was to go through. -/
theorem page?_commitPages (tid : TransactionId) :
    ∀ (pages : List PageId) {s s' : Store}, s.cache.Valid →
      commitPages tid pages s = (.ok (), s') → ∀ page,
        s'.cache.page? page = (s.cache.page? page).map fun content =>
          if page ∈ pages then committed tid content else content
  | [], s, s', _, h, page => by
    obtain ⟨-, rfl⟩ := Prod.mk.inj h
    simp
  | first :: pages, s, s', hs, h, page => by
    -- the first page is settled, or there is nothing to settle
    suffices hfirst : ∃ t : Store, t.cache.Valid ∧ commitPages tid pages t = (.ok (), s') ∧
        ∀ page, t.cache.page? page = (s.cache.page? page).map fun content =>
          if page = first then committed tid content else content by
      obtain ⟨t, ht, hrest, hpage⟩ := hfirst
      rw [page?_commitPages tid pages ht hrest page, hpage, Option.map_map]
      congr 1
      funext content
      by_cases heq : page = first
      · simp [heq, committed_committed]
      · simp [heq]
    simp only [commitPages] at h
    cases hf : s.cache.find? first with
    | none =>
      rw [hf] at h
      refine ⟨s, hs, h, fun page => ?_⟩
      by_cases heq : page = first
      · rw [heq, Cache.page?, hf]
        rfl
      · simp [heq]
    | some frame =>
      simp only [hf] at h
      split_ifs at h with hmark
      · cases hwrite : s.writeBack frame.page with
        | error e => simp [hwrite] at h
        | ok disk =>
          simp only [hwrite] at h
          have hid : ((frame.page.mark none).setBefore).id = first := hs.keyed hf
          refine ⟨_, hs.put _, h, fun page => ?_⟩
          rw [page?_put (s := { s with disk }) (hid.symm ▸ hf), hid]
          by_cases heq : page = first
          · rw [if_pos heq, heq, Cache.page?_of_find? hf]
            simp [committed, hmark]
          · simp [heq]
      · refine ⟨s, hs, h, fun page => ?_⟩
        by_cases heq : page = first
        · rw [heq, Cache.page?_of_find? hf]
          simp [committed, hmark]
        · simp [heq]

/-! ## What everybody sees -/

/-- The page is seen through every handle on it, and the next fetch returns it. -/
def Shows (s : Store) (page : PageId) (content : Page) : Prop :=
  (∀ handle ∈ s.cache.handles, handle.page = page → s.cache.held? handle = some content) ∧
    (s.fetch page).1 = .ok content

theorem Pinned.shows (hs : s.Pinned) (hf : s.cache.find? page = some frame) :
    s.Shows page frame.page := by
  refine ⟨?_, by rw [fetch_eq, hf]⟩
  rintro handle hmem rfl
  exact hs.held?_eq hmem hf

theorem Pinned.shows_iff (hs : s.Pinned) (hmem : handle ∈ s.cache.handles) :
    s.Shows handle.page content ↔
      s.cache.page? handle.page = some content := by
  obtain ⟨frame, hf⟩ := hs.exists_frame hmem
  rw [Cache.page?_of_find? hf, Option.some.injEq]
  constructor
  · rintro ⟨-, hfetch⟩
    rw [fetch_eq, hf] at hfetch
    exact Except.ok.inj hfetch
  · rintro rfl
    exact hs.shows hf

/-- What replaces a page that is held is seen by everybody. -/
theorem Replaces.shows {old new : Page} (hs : s.Pinned) (h : s.Replaces s' old new)
    (hmem : handle ∈ s.cache.handles) (hpage : handle.page = new.id)
    (hshows : s.Shows handle.page content) : content = old ∧ s'.Shows handle.page new := by
  obtain ⟨s₁, frame, hleaves, hf, rfl, rfl⟩ := h
  rw [hs.shows_iff hmem, Cache.page?, ← hleaves.held handle hmem, hpage, hf] at hshows
  refine ⟨(Option.some.inj hshows).symm, ?_⟩
  have hnew : (s₁.put new).cache.find? handle.page = some { frame with page := new } := by
    rw [find?_put hf, if_pos hpage]
  exact (hleaves.pinned.put new).shows hnew

end Store

/-! ## Sessions -/

/-- What is done with a session whose pages are shared: an action, a change to a page through a
handle on it, or others change the files and the catalog. -/
inductive Usage where
  | act (action : Action)
  | edit (handle : Handle) (change : Page → Page)
  | alter (disk : Disk) (catalog : Catalog)

/-- No page is discarded, and no page is made another. -/
def Usage.Proper : Usage → Prop
  | .act (.ask (.discard _)) => False
  | .edit _ change => ∀ content, (change content).id = content.id
  | _ => True

namespace Session

variable {x : Session}

/-- The session after it was used. -/
def use (x : Session) : Usage → Session
  | .act action => x.act action
  | .edit handle change => { x with store := x.store.edit handle change }
  | .alter disk catalog => { x with store := { x.store with disk, catalog } }

theorem pinned_askCursor {α : Type} {number : Nat}
    {ask : Cursor → Store → Except TableError α × Cursor × Store}
    {answer : Except TableError α → Response} (hx : x.store.Pinned)
    (hask : ∀ cursor s, Store.Fetches s (ask cursor s).2.2) :
    (x.askCursor number ask answer).2.store.Pinned := by
  unfold askCursor
  cases x.cursors[number]? with
  | none => exact hx
  | some cursor => exact hx.steps (hask cursor x.store).steps

theorem pinned_respond (hx : x.store.Pinned) (request : Request)
    (hdiscard : ∀ page, request ≠ .discard page) : (x.respond request).2.store.Pinned := by
  cases request with
  | fetch page => exact hx.steps (Store.steps_fetch x.store page)
  | insert tid table row => exact hx.steps (Store.steps_insertRow hx.valid tid table row)
  | delete tid row => exact hx.steps (Store.steps_deleteRow hx.valid tid row)
  | commit tid => exact hx.steps (Store.steps_commit x.store tid)
  | abort tid => exact hx.abort tid
  | flush page => exact hx.flush page
  | flushAll => exact Store.flushPages_keeps Store.Pinned (fun s page hs => hs.flush page) _ _ hx
  | discard page => exact absurd rfl (hdiscard page)
  | addCursor table => exact hx
  | start number => exact hx
  | hasNext number => exact pinned_askCursor hx Store.fetches_hasNext
  | next number => exact pinned_askCursor hx Store.fetches_pull
  | close number => exact hx

theorem pinned_use (hx : x.store.Pinned) {usage : Usage} (hproper : usage.Proper) :
    (x.use usage).store.Pinned := by
  cases usage with
  | act action =>
    cases action with
    | ask request =>
      refine pinned_respond hx _ ?_
      rintro page rfl
      exact hproper
    | hold page => exact hx.hold page
    | release handle => exact hx.release handle
  | edit handle change => exact hx.edit handle hproper
  | alter disk catalog => exact hx.alter disk catalog

theorem pinned_foldl (hx : x.store.Pinned) {run : List Usage}
    (hrun : ∀ usage ∈ run, usage.Proper) : (run.foldl use x).store.Pinned := by
  induction run generalizing x with
  | nil => exact hx
  | cons usage run ih =>
    exact ih (pinned_use hx (hrun usage List.mem_cons_self))
      fun later h => hrun later (List.mem_cons_of_mem _ h)

/-- No request takes a handle away. -/
theorem handles_respond (hx : x.store.cache.Valid) (request : Request) :
    (x.respond request).2.store.cache.handles = x.store.cache.handles := by
  refine (@respond_keeps (fun s => s.cache.Valid ∧ s.cache.handles = x.store.cache.handles)
    (fun h => h.1) ?_ ?_ ?_ x ⟨hx, rfl⟩ request).2
  · rintro s s' hmoves ⟨hs, hsame⟩
    exact ⟨Store.Moves.valid hmoves hs, (Store.Moves.handles hmoves).trans hsame⟩
  · rintro s page ⟨hs, hsame⟩
    refine ⟨Store.valid_flush hs page, ?_⟩
    rcases Store.flush_eq s page with h | ⟨frame, disk, -, -, h⟩ <;> rw [h] <;> exact hsame
  · rintro s tid ⟨hs, hsame⟩
    exact ⟨Store.valid_abort hs tid, hsame⟩

/-- There is one live copy of every page that is held, and a change to it is seen by everybody. -/
structure OneCopy (x : Session) : Prop where
  /-- A page that is held is cached in the frame the handle is for, and in no other place. -/
  cached : ∀ handle ∈ x.store.cache.handles, ∃ frame,
    x.store.cache.find? handle.page = some frame ∧ frame.tag = handle.tag ∧
      ∀ page other, x.store.cache.find? page = some other → other.tag = handle.tag →
        page = handle.page
  /-- Handles on the same page are for the same frame. -/
  same : ∀ a ∈ x.store.cache.handles, ∀ b ∈ x.store.cache.handles, a.page = b.page → a = b
  /-- All handles on a page and the next fetch show the same. -/
  shown : ∀ handle ∈ x.store.cache.handles, ∃ content, x.store.Shows handle.page content
  /-- Requests take no handle away. -/
  kept : ∀ request, (x.respond request).2.store.cache.handles = x.store.cache.handles
  /-- A change through a handle is seen by everybody. -/
  edited : ∀ handle ∈ x.store.cache.handles, ∀ change : Page → Page,
    (∀ content, (change content).id = content.id) → ∀ content, x.store.Shows handle.page content →
      (x.store.edit handle change).cache.handles = x.store.cache.handles ∧
        (x.store.edit handle change).Shows handle.page (change content)
  /-- So is a row that is inserted, -/
  inserted : ∀ tid id row record, (x.respond (.insert tid id row)).1 = .record (.ok record) →
    ∀ handle ∈ x.store.cache.handles, handle.page = record.page →
      ∀ content, x.store.Shows handle.page content → ∃ changed,
        content.insert row = .ok (record, changed) ∧
          (x.respond (.insert tid id row)).2.store.Shows handle.page (changed.mark (some tid))
  /-- a row that is deleted, -/
  deleted : ∀ tid row page, (x.respond (.delete tid row)).1 = .changed (.ok page) →
    ∀ handle ∈ x.store.cache.handles, handle.page = page →
      ∀ content, x.store.Shows handle.page content → ∃ changed,
        content.delete row = .ok changed ∧
          (x.respond (.delete tid row)).2.store.Shows handle.page (changed.mark (some tid))
  /-- what a commit does to the page, -/
  committed : ∀ tid, (x.respond (.commit tid)).1 = .finished (.ok ()) →
    ∀ handle ∈ x.store.cache.handles, ∀ content, x.store.Shows handle.page content →
      (x.respond (.commit tid)).2.store.Shows handle.page (Store.committed tid content)
  /-- and what an abort does. -/
  aborted : ∀ tid, ∀ handle ∈ x.store.cache.handles, ∀ content,
    x.store.Shows handle.page content →
      (x.respond (.abort tid)).2.store.Shows handle.page (Store.aborted tid content)

theorem inserted_of_pinned (hx : x.store.Pinned) {tid : TransactionId} {id : TableId} {row : Row}
    {record : RecordId} {handle : Handle} {content : Page}
    (h : (x.store.insertRow tid id row).1 = .ok record) (hmem : handle ∈ x.store.cache.handles)
    (hpage : handle.page = record.page) (hshows : x.store.Shows handle.page content) :
    ∃ changed, content.insert row = .ok (record, changed) ∧
      (x.store.insertRow tid id row).2.Shows handle.page (changed.mark (some tid)) := by
  have hinserted := Store.inserted_insertRow hx tid id row
  rw [h] at hinserted
  cases hinserted with
  | @stored record old changed hinsert hid hreplaces =>
    obtain ⟨rfl, hnew⟩ := hreplaces.shows hx hmem (hpage.trans hid) hshows
    exact ⟨changed, hinsert, hnew⟩

theorem oneCopy_of_pinned (hx : x.store.Pinned) : x.OneCopy where
  cached handle hmem := by
    have hheld := hx.held handle hmem
    obtain ⟨frame, hf, htag⟩ := Cache.tag?_eq_some_iff.mp hheld
    exact ⟨frame, hf, htag, fun page other hother hsame =>
      hx.once (Cache.tag?_eq_some_iff.mpr ⟨other, hother, hsame⟩) hheld⟩
  same a ha b hb hpage := by
    have htag : some a.tag = some b.tag := by
      rw [← hx.held a ha, ← hx.held b hb, hpage]
    cases a
    cases b
    simp_all
  shown handle hmem := by
    obtain ⟨frame, hf⟩ := hx.exists_frame hmem
    exact ⟨frame.page, hx.shows hf⟩
  kept := handles_respond hx.valid
  edited handle hmem change hchange content hshows := by
    obtain ⟨frame, hf⟩ := hx.exists_frame hmem
    rw [hx.shows_iff hmem, Cache.page?_of_find? hf, Option.some.injEq] at hshows
    subst hshows
    have hfind := hx.find?_edit hmem hf change handle.page
    rw [if_pos rfl] at hfind
    refine ⟨?_, (hx.edit handle hchange).shows hfind⟩
    rw [Store.edit, if_pos hmem, hx.held?_eq hmem hf]
    rfl
  inserted tid id row record h handle hmem hpage content hshows :=
    inserted_of_pinned hx (Response.record.inj h) hmem hpage hshows
  deleted tid row page h handle hmem hpage content hshows := by
    obtain ⟨old, changed, hdelete, hid, hreplaces⟩ := Store.replaces_deleteRow hx
      (Prod.ext (Response.changed.inj h) rfl : x.store.deleteRow tid row = (.ok page, _))
    obtain ⟨rfl, hnew⟩ := hreplaces.shows hx hmem (hpage.trans hid) hshows
    exact ⟨changed, hdelete, hnew⟩
  committed tid h handle hmem content hshows := by
    have hpinned := pinned_respond hx (.commit tid) (by simp)
    have hpages := Store.page?_commitPages tid x.store.cache.pageIds hx.valid
      (Prod.ext (Response.finished.inj h) rfl : x.store.commit tid = (.ok (), _)) handle.page
    obtain ⟨frame, hf⟩ := hx.exists_frame hmem
    have hin : handle.page ∈ x.store.cache.pageIds := Cache.mem_pageIds.mpr (hf ▸ rfl)
    rw [hx.shows_iff hmem] at hshows
    rw [hshows, Option.map_some, if_pos hin] at hpages
    exact (hpinned.shows_iff ((handles_respond hx.valid (.commit tid)).symm ▸ hmem)).mpr hpages
  aborted tid handle hmem content hshows := by
    have hpinned := pinned_respond hx (.abort tid) (by simp)
    refine (hpinned.shows_iff ((handles_respond hx.valid (.abort tid)).symm ▸ hmem)).mpr ?_
    obtain ⟨frame, hf⟩ := hx.exists_frame hmem
    rw [hx.shows_iff hmem, Cache.page?_of_find? hf, Option.some.injEq] at hshows
    subst hshows
    have hfound := Store.find?_abort x.store tid handle.page
    rw [hf, Option.map_some] at hfound
    refine (Cache.page?_of_find? hfound).trans ?_
    unfold Store.aborted
    split_ifs <;> rfl

/-- Whatever is done with a session, whichever calls fail and whatever becomes of the files and the
catalog meanwhile, as long as no page is discarded there is one live copy of every page that is
held. -/
theorem one_copy (hfresh : x.store.Fresh) {run : List Usage}
    (hrun : ∀ usage ∈ run, usage.Proper) : (run.foldl use x).OneCopy := by
  obtain ⟨pageSize, capacity, hcache⟩ := hfresh
  exact oneCopy_of_pinned (pinned_foldl (.of_ofCapacity hcache) hrun)

end Session

/-- The first page is filled by two transactions while two handles on it are held, and marked
through one of them in between. -/
def Sample.shared : List Usage :=
  [.act (.ask (.insert ⟨1⟩ Sample.table.id (Sample.row 1 10))), .act (.hold ⟨Sample.table.id, 0⟩),
    .act (.hold ⟨Sample.table.id, 0⟩), .act (.ask (.commit ⟨1⟩)),
    .edit ⟨⟨Sample.table.id, 0⟩, 0⟩ fun content => content.mark (some ⟨7⟩),
    .act (.ask (.insert ⟨2⟩ Sample.table.id (Sample.row 2 20)))]

/-- Both holders and the next fetch see the same page, with both rows, and see the abort that takes
out the second of them. -/
theorem Session.one_copy_shared :
    let x := Sample.shared.foldl Session.use { store := Sample.store 1 Nat.one_pos }
    x.store.cache.handles = [⟨⟨Sample.table.id, 0⟩, 0⟩, ⟨⟨Sample.table.id, 0⟩, 0⟩] ∧
      ∃ content, x.store.Shows ⟨Sample.table.id, 0⟩ content ∧ content.usedSlots = [0, 1] ∧
        (x.respond (.abort ⟨2⟩)).2.store.Shows ⟨Sample.table.id, 0⟩ (Store.aborted ⟨2⟩ content) ∧
        (Store.aborted ⟨2⟩ content).usedSlots = [0] := by
  intro x
  have hone : x.OneCopy :=
    Session.one_copy (x := { store := Sample.store 1 Nat.one_pos }) (Sample.fresh_store 1 Nat.one_pos)
      (by simp [Sample.shared, Usage.Proper, Page.mark])
  have hhandles : x.store.cache.handles =
      [⟨⟨Sample.table.id, 0⟩, 0⟩, ⟨⟨Sample.table.id, 0⟩, 0⟩] := by
    decide +kernel
  have hmem : (⟨⟨Sample.table.id, 0⟩, 0⟩ : Handle) ∈ x.store.cache.handles := by
    simp [hhandles]
  obtain ⟨content, hshows⟩ := hone.shown _ hmem
  have hfetch : (x.store.fetch ⟨Sample.table.id, 0⟩).1 = .ok content := hshows.2
  have hused : ∀ content, (x.store.fetch ⟨Sample.table.id, 0⟩).1 = .ok content →
      content.usedSlots = [0, 1] ∧ (Store.aborted ⟨2⟩ content).usedSlots = [0] := by
    have hboth : ((x.store.fetch ⟨Sample.table.id, 0⟩).1.map fun content =>
        (content.usedSlots, (Store.aborted ⟨2⟩ content).usedSlots)) = .ok ([0, 1], [0]) := by
      decide +kernel
    intro content h
    rw [h] at hboth
    exact Prod.mk.inj (Except.ok.inj hboth)
  obtain ⟨htwo, hone'⟩ := hused content hfetch
  exact ⟨hhandles, content, hshows, htwo, hone.aborted ⟨2⟩ _ hmem content hshows, hone'⟩

end RowStore
