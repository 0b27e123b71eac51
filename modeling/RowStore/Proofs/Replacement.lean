import RowStore.Proofs.Handles

/-!
# RowStore.Proofs.Replacement: which page makes room

A log lists the pages that were fetched, in the order in which that happened.  The order of last
use that the cache keeps is the order of the last accesses in the log (`Store.Recalls`), whatever
else is done with the pages, the handles on them, the files and the catalog.  So the page that makes
room is, of those that may leave, the one whose last access is the longest ago; and a fetch that
fails changes nothing (`Store.EvictsOldest`).
-/

namespace RowStore

/-- What can be done with a store, call by call. -/
inductive PoolCall where
  | get (page : PageId)
  /-- Gets a page and keeps a handle on it. -/
  | hold (page : PageId)
  /-- Gives a handle back. -/
  | release (handle : Handle)
  /-- Changes the contents and the mark of a cached page in place. -/
  | change (content : Page)
  | commit (tid : TransactionId)
  | abort (tid : TransactionId)
  | flush (page : PageId)
  | flushAll
  | discard (page : PageId)
  /-- The files and the catalog become others. -/
  | alter (disk : Disk) (catalog : Catalog)

/-! ## The order of past accesses -/

/-- The last access to `page` came before an access to `other`. -/
def Older (log : List PageId) (page other : PageId) : Prop :=
  ∃ earlier later, log = earlier ++ page :: later ∧ page ∉ later ∧ other ∈ later

variable {log : List PageId} {page other : PageId}

/-- An access to some other page changes no order among the pages before. -/
theorem Older.concat (h : Older log page other) {used : PageId} (hne : page ≠ used) :
    Older (log ++ [used]) page other := by
  obtain ⟨earlier, later, rfl, hlast, hother⟩ := h
  refine ⟨earlier, later ++ [used], by simp, ?_, List.mem_append_left _ hother⟩
  rw [List.mem_append, List.mem_singleton, not_or]
  exact ⟨hlast, hne⟩

/-- The page of the latest access is younger than every other page. -/
theorem older_concat (hmem : page ∈ log) {used : PageId} (hne : page ≠ used) :
    Older (log ++ [used]) page used := by
  obtain ⟨before, behind, hsplit, hlast⟩ :=
    List.eq_append_cons_of_mem (List.mem_reverse.mpr hmem)
  refine ⟨behind.reverse, before.reverse ++ [used], ?_, ?_, by simp⟩
  · rw [← List.reverse_reverse log, hsplit]
    simp
  · rw [List.mem_append, List.mem_singleton, List.mem_reverse, not_or]
    exact ⟨hlast, hne⟩

/-- Of two pages at most one is the older. -/
theorem Older.asymm (h : Older log page other) : ¬ Older log other page := by
  rintro ⟨earlier', later', hsplit', hlast', hmem'⟩
  obtain ⟨earlier, later, rfl, hlast, hmem⟩ := h
  rcases List.append_eq_append_iff.mp hsplit' with ⟨between, rfl, hrest⟩ | ⟨between, rfl, hrest⟩
  · cases between with
    | nil =>
      obtain ⟨rfl, rfl⟩ := List.cons.inj hrest
      exact hlast hmem
    | cons first between =>
      obtain ⟨rfl, rfl⟩ := List.cons.inj hrest
      exact hlast (by simp [hmem'])
  · cases between with
    | nil =>
      obtain ⟨rfl, rfl⟩ := List.cons.inj hrest
      exact hlast hmem
    | cons first between =>
      obtain ⟨rfl, rfl⟩ := List.cons.inj hrest
      exact hlast' (by simp [hmem])

/-! ## The page that is taken out -/

/-- Where no page is listed twice the first one that qualifies is taken out. -/
theorem Recency.evict_eq {recency : Recency} (hnodup : recency.pages.Nodup)
    (qualifies : PageId → Bool) : recency.evict qualifies =
      (recency.pages.find? qualifies).map fun page => (page, recency.remove page) := by
  unfold evict
  rw [List.find?_eq_bind_findIdx?_getElem?]
  cases hindex : recency.pages.findIdx? qualifies with
  | none => rfl
  | some index =>
    obtain ⟨hlt, -⟩ := List.findIdx?_eq_some_iff_getElem.mp hindex
    have herase : recency.pages.eraseIdx index =
        recency.pages.filter fun other => other ≠ recency.pages[index] := by
      rw [← hnodup.erase_getElem index hlt, hnodup.erase_eq_filter]
      simp [bne, beq_eq_decide]
    simp [List.getElem?_eq_getElem hlt, herase, remove]

namespace Cache

variable {cache : Cache}

/-- The cache without a page that nobody holds. -/
def without (cache : Cache) (victim : PageId) : Cache :=
  { cache with
    frames := cache.frames.filter fun entry => entry.1 ≠ victim
    recency := cache.recency.remove victim }

/-- Room is made by the least recently used page that may leave. -/
theorem makeRoom?_of_full (hv : cache.Valid) (hfull : cache.size = cache.capacity) :
    cache.makeRoom? = (cache.recency.pages.find? cache.isEvictable).map cache.without := by
  unfold makeRoom?
  rw [if_neg (by omega), Recency.evict_eq hv.once]
  cases cache.recency.pages.find? cache.isEvictable <;> rfl

end Cache

namespace Store

variable {s s' : Store}

/-- A cached page may leave when it is not in use. -/
theorem isEvictable_iff (hcached : (s.cache.find? page).isSome = true) :
    s.cache.isEvictable page = true ↔ ¬ s.InUse page := by
  obtain ⟨frame, hf⟩ := Option.isSome_iff_exists.mp hcached
  have huse : s.InUse page ↔ frame.page.dirtier.isSome = true ∨ s.cache.isHeld frame.tag = true := by
    constructor
    · rintro ⟨found, hfound, h⟩
      obtain rfl := Option.some.inj (hf.symm.trans hfound)
      exact h
    · intro h
      exact ⟨frame, hf, h⟩
  rw [huse, Cache.isEvictable, hf]
  cases hmark : frame.page.dirtier <;> simp [hmark]

/-- The cache lists its pages in the order of their last accesses. -/
structure Recalls (s : Store) (log : List PageId) : Prop where
  valid : s.cache.Valid
  accessed : ∀ page ∈ s.cache.recency.pages, page ∈ log
  ordered : s.cache.recency.pages.Pairwise (Older log)

/-- A page that may leave, and whose last access is longer ago than that of any other such page. -/
structure Victim (s : Store) (log : List PageId) (victim : PageId) : Prop where
  cached : (s.cache.find? victim).isSome = true
  free : ¬ s.InUse victim
  oldest : ∀ other, (s.cache.find? other).isSome = true → ¬ s.InUse other → other ≠ victim →
    Older log victim other

/-- There is at most one. -/
theorem Victim.unique {log : List PageId} {a b : PageId} (ha : s.Victim log a)
    (hb : s.Victim log b) : a = b := by
  by_contra hne
  exact (ha.oldest b hb.cached hb.free (Ne.symm hne)).asymm (hb.oldest a ha.cached ha.free hne)

/-- What a fetch does after the accesses of the log. -/
structure EvictsOldest (s : Store) (log : List PageId) (page : PageId) : Prop where
  /-- The cached pages are listed in the order of their last accesses. -/
  cached : ∀ other, other ∈ s.cache.recency.pages ↔ (s.cache.find? other).isSome = true
  ordered : s.cache.recency.pages.Pairwise (Older log)
  /-- A cached page is returned and becomes the most recent, and nothing else changes. -/
  hit : ∀ frame, s.cache.find? page = some frame →
    s.fetch page = (.ok frame.page, { s with cache := s.cache.touch page })
  /-- A page that is not cached is loaded where there is room. -/
  loads : ∀ content, s.cache.find? page = none → s.stored page = .ok content →
    s.cache.size < s.cache.capacity →
      s.fetch page = (.ok content, { s with cache := s.cache.load content })
  /-- Else the victim, of which there is no other (`Victim.unique`), makes room for it. -/
  evicts : ∀ content, s.cache.find? page = none → s.stored page = .ok content →
    s.cache.size = s.cache.capacity →
      (∃ other, (s.cache.find? other).isSome = true ∧ ¬ s.InUse other) →
        ∃ victim, s.Victim log victim ∧
          s.fetch page = (.ok content, { s with cache := (s.cache.without victim).load content })
  /-- There is none exactly if all are in use. -/
  refused : (∃ count, (s.fetch page).1 = .error (.noEvictablePage count)) ↔
    s.cache.find? page = none ∧ (∃ content, s.stored page = .ok content) ∧
      s.cache.size = s.cache.capacity ∧
        ∀ other, (s.cache.find? other).isSome = true → s.InUse other
  /-- A page that is neither cached nor can be read is reported so. -/
  unread : ∀ e, s.cache.find? page = none → s.stored page = .error e → s.fetch page = (.error e, s)
  /-- The page that was fetched is the most recent, and the others are in the order they were in. -/
  newest : ∀ content s', s.fetch page = (.ok content, s') →
    ∃ others, s'.cache.recency.pages = others ++ [page] ∧ page ∉ others ∧
      others.Sublist s.cache.recency.pages
  /-- A fetch that fails changes nothing. -/
  failed : ∀ e, (s.fetch page).1 = .error e → (s.fetch page).2 = s

/-! ## A fetch on a full cache -/

/-- The first page of the order that may leave is the one whose last access is the longest ago. -/
theorem Recalls.victim {log : List PageId} (h : s.Recalls log) {victim : PageId}
    (hfirst : s.cache.recency.pages.find? s.cache.isEvictable = some victim) :
    s.Victim log victim := by
  obtain ⟨hevictable, before, behind, hsplit, hbefore⟩ := List.find?_eq_some_iff_append.mp hfirst
  have htracked : victim ∈ s.cache.recency.pages := by
    rw [hsplit]
    simp
  have hcached := (h.valid.tracked victim).mp htracked
  refine ⟨hcached, (isEvictable_iff hcached).mp hevictable, ?_⟩
  intro other hother hfree hne
  have hmem := (h.valid.tracked other).mpr hother
  have hordered := h.ordered
  rw [hsplit] at hmem hordered
  rcases List.mem_append.mp hmem with hin | hin
  · have hnot := hbefore other hin
    rw [(isEvictable_iff hother).mpr hfree] at hnot
    cases hnot
  · have hbehind := (List.mem_cons.mp hin).resolve_left hne
    exact (List.pairwise_cons.mp (List.pairwise_append.mp hordered).2.1).1 other hbehind

/-- There is a page to make room unless all are in use. -/
theorem find?_isEvictable_isSome (hv : s.cache.Valid) :
    (s.cache.recency.pages.find? s.cache.isEvictable).isSome = true ↔
      ∃ other, (s.cache.find? other).isSome = true ∧ ¬ s.InUse other := by
  rw [List.find?_isSome]
  constructor
  · rintro ⟨other, hmem, hevictable⟩
    have hcached := (hv.tracked other).mp hmem
    exact ⟨other, hcached, (isEvictable_iff hcached).mp hevictable⟩
  · rintro ⟨other, hcached, hfree⟩
    exact ⟨other, (hv.tracked other).mpr hcached, (isEvictable_iff hcached).mpr hfree⟩

theorem makeRoom?_eq_none_iff (hv : s.cache.Valid) :
    s.cache.makeRoom? = none ↔ s.cache.size = s.cache.capacity ∧
      ∀ other, (s.cache.find? other).isSome = true → s.InUse other := by
  have hroom := hasRoom_iff hv
  rw [HasRoom, Option.isSome_iff_ne_none] at hroom
  rw [← not_iff_not, ← ne_eq, hroom]
  have hbounded := hv.bounded
  constructor
  · rintro (hlt | ⟨other, hcached, hfree⟩) ⟨hfull, hall⟩
    · omega
    · exact hfree (hall other hcached)
  · intro hnot
    by_contra hneither
    push Not at hneither
    exact hnot ⟨by omega, hneither.2⟩

theorem sublist_makeRoom {cache room : Cache} (hv : cache.Valid)
    (hroom : cache.makeRoom? = some room) : room.recency.pages.Sublist cache.recency.pages := by
  by_cases hfull : cache.size = cache.capacity
  · rw [Cache.makeRoom?_of_full hv hfull] at hroom
    obtain ⟨victim, -, rfl⟩ := Option.map_eq_some_iff.mp hroom
    exact List.filter_sublist
  · have hbounded := hv.bounded
    rw [Cache.makeRoom?, if_pos (by omega)] at hroom
    rw [← Option.some.inj hroom]

theorem Recalls.evictsOldest {log : List PageId} (h : s.Recalls log) (page : PageId) :
    s.EvictsOldest log page where
  cached := h.valid.tracked
  ordered := h.ordered
  hit frame hf := by
    rw [fetch_eq, hf]
  loads content hmiss hstored hlt := by
    rw [fetch_eq, hmiss, hstored]
    dsimp only
    rw [Cache.makeRoom?, if_pos hlt]
  evicts content hmiss hstored hfull hfree := by
    obtain ⟨victim, hfirst⟩ :=
      Option.isSome_iff_exists.mp ((find?_isEvictable_isSome h.valid).mpr hfree)
    refine ⟨victim, h.victim hfirst, ?_⟩
    rw [fetch_eq, hmiss, hstored]
    dsimp only
    rw [Cache.makeRoom?_of_full h.valid hfull, hfirst]
    rfl
  refused := by
    rw [← makeRoom?_eq_none_iff h.valid]
    have hfetched := s.fetched page
    generalize s.fetch page = out at hfetched
    cases hfetched with
    | hit hf => simp [hf]
    | failed hmiss hstored =>
      constructor
      · rintro ⟨count, hcount⟩
        cases hcount
        exact absurd hstored (Catalog.stored_ne_noEvictablePage count)
      · rintro ⟨-, ⟨content, hcontent⟩, -⟩
        rw [hstored] at hcontent
        cases hcontent
    | full hmiss hstored hroom => exact ⟨fun _ => ⟨hmiss, ⟨_, hstored⟩, hroom⟩, fun _ => ⟨_, rfl⟩⟩
    | loaded hmiss hstored hroom => simp [hroom]
  unread e hmiss hstored := by
    rw [fetch_eq, hmiss, hstored]
  newest content s' hfetch := by
    have hfetched := s.fetched page
    rw [hfetch] at hfetched
    cases hfetched with
    | hit hf => exact ⟨_, rfl, by simp [Recency.remove], List.filter_sublist⟩
    | loaded hmiss hstored hroom =>
      obtain rfl := id_of_stored hstored
      refine ⟨_, rfl, by simp [Recency.remove], ?_⟩
      exact List.filter_sublist.trans (sublist_makeRoom h.valid hroom)
  failed e hfetch := by
    have hfetched := s.fetched page
    generalize s.fetch page = out at hfetched hfetch
    cases hfetched with
    | hit | loaded => cases hfetch
    | failed | full => rfl

/-! ## Every call keeps the order -/

/-- The store after a call. -/
def serve (s : Store) : PoolCall → Store
  | .get page => (s.fetch page).2
  | .hold page => (s.hold page).2
  | .release handle => s.release handle
  | .change content => s.put content
  | .commit tid => (s.commit tid).2
  | .abort tid => s.abort tid
  | .flush page => (s.flush page).2
  | .flushAll => s.flushAll.2
  | .discard page => s.discard page
  | .alter disk catalog => { s with disk, catalog }

/-- The page a call accesses: the one it gets, if it does. -/
def accessed (s : Store) : PoolCall → List PageId
  | .get page | .hold page => if (s.fetch page).1.isOk then [page] else []
  | _ => []

/-- The pages that a list of calls accesses, in their order. -/
def accesses : Store → List PoolCall → List PageId
  | _, [] => []
  | s, call :: calls => s.accessed call ++ accesses (s.serve call) calls

variable {log : List PageId}

/-- Leaving pages out keeps the order. -/
theorem Recalls.of_sublist (h : s.Recalls log) (hvalid : s'.cache.Valid)
    (hsub : s'.cache.recency.pages.Sublist s.cache.recency.pages) : s'.Recalls log :=
  ⟨hvalid, fun page hmem => h.accessed page (hsub.subset hmem), h.ordered.sublist hsub⟩

theorem Recalls.of_recency (h : s.Recalls log) (hvalid : s'.cache.Valid)
    (hrecency : s'.cache.recency = s.cache.recency) : s'.Recalls log :=
  h.of_sublist hvalid (hrecency ▸ List.Sublist.refl _)

/-- So does an access, which makes its page the most recent. -/
theorem Recalls.concat (h : s.Recalls log) (hvalid : s'.cache.Valid) {others : List PageId}
    (hpages : s'.cache.recency.pages = others ++ [page]) (hnew : page ∉ others)
    (hsub : others.Sublist s.cache.recency.pages) : s'.Recalls (log ++ [page]) := by
  have hne : ∀ other ∈ others, other ≠ page := fun other hmem heq => hnew (heq ▸ hmem)
  refine ⟨hvalid, ?_, ?_⟩
  · intro other hmem
    rw [hpages] at hmem
    rcases List.mem_append.mp hmem with hold | hlast
    · exact List.mem_append_left _ (h.accessed other (hsub.subset hold))
    · exact List.mem_append_right _ hlast
  · rw [hpages, List.pairwise_append]
    refine ⟨(h.ordered.sublist hsub).imp_of_mem fun ha _ hab => hab.concat (hne _ ha),
      List.pairwise_singleton _ _, ?_⟩
    intro other hmem last hlast
    obtain rfl := List.mem_singleton.mp hlast
    exact older_concat (h.accessed other (hsub.subset hmem)) (hne other hmem)

theorem Recalls.fetch (h : s.Recalls log) (page : PageId) :
    (s.fetch page).2.Recalls (log ++ if (s.fetch page).1.isOk then [page] else []) := by
  have hvalid := (moves_fetch s page).valid h.valid
  have holdest := h.evictsOldest page
  cases hfetch : s.fetch page with
  | mk result s' =>
    rw [hfetch] at hvalid
    cases result with
    | error e =>
      have hsame := holdest.failed e (congrArg Prod.fst hfetch)
      rw [hfetch] at hsame
      obtain rfl : s' = s := hsame
      have hlog : (log ++ if (Except.isOk (Except.error e : Except CacheError Page)) = true
          then [page] else []) = log := List.append_nil log
      rw [hlog]
      exact h
    | ok content =>
      obtain ⟨others, hpages, hnew, hsub⟩ := holdest.newest content s' hfetch
      exact h.concat hvalid hpages hnew hsub

/-- Neither writing nor marking pages changes when they were used. -/
theorem recency_commitPages (tid : TransactionId) :
    ∀ (pages : List PageId) (s : Store),
      (commitPages tid pages s).2.cache.recency = s.cache.recency
  | [], _ => rfl
  | page :: pages, s => by
    unfold commitPages
    cases s.cache.find? page with
    | none => exact recency_commitPages tid pages s
    | some frame =>
      dsimp only
      split_ifs
      · cases s.writeBack frame.page with
        | error e => rfl
        | ok disk => exact recency_commitPages tid pages _
      · exact recency_commitPages tid pages s

theorem Recalls.flush (h : s.Recalls log) (page : PageId) : (s.flush page).2.Recalls log := by
  have hvalid := valid_flush h.valid page
  rcases flush_eq s page with hflush | ⟨frame, disk, -, -, hflush⟩ <;> rw [hflush] at hvalid ⊢
  · exact h
  · exact h.of_recency hvalid rfl

theorem Recalls.discard (h : s.Recalls log) (page : PageId) : (s.discard page).Recalls log := by
  refine h.of_sublist (h.valid.discard page) ?_
  unfold Store.discard Cache.discard
  cases s.cache.find? page with
  | none => exact List.Sublist.refl _
  | some frame => exact List.filter_sublist

theorem Recalls.serve (h : s.Recalls log) (call : PoolCall) :
    (s.serve call).Recalls (log ++ s.accessed call) := by
  -- only the first two calls access a page
  have hquiet : ∀ s' : Store, s'.Recalls log → s'.Recalls (log ++ []) := by
    intro s' h'
    rwa [List.append_nil]
  cases call with
  | get page => exact h.fetch page
  | hold page =>
    have hfetched := h.fetch page
    have hsame := sameFrames_hold s page
    exact hfetched.of_recency (hsame.valid hfetched.valid) hsame.recency
  | release handle =>
    exact hquiet _ (h.of_recency ((sameFrames_release s handle).valid h.valid) rfl)
  | change content => exact hquiet _ (h.of_recency (h.valid.put content) rfl)
  | commit tid =>
    have hvalid := (moves_commit s tid).valid h.valid
    exact hquiet _ (h.of_recency hvalid (recency_commitPages tid _ s))
  | abort tid => exact hquiet _ (h.of_recency (valid_abort h.valid tid) rfl)
  | flush page => exact hquiet _ (h.flush page)
  | flushAll =>
    exact hquiet _ (flushPages_keeps (fun s => s.Recalls log) (fun s page hs => hs.flush page) _ _ h)
  | discard page => exact hquiet _ (h.discard page)
  | alter disk catalog => exact hquiet _ (h.of_recency h.valid rfl)

theorem Recalls.foldl (h : s.Recalls log) (calls : List PoolCall) :
    (calls.foldl Store.serve s).Recalls (log ++ s.accesses calls) := by
  induction calls generalizing s log with
  | nil => rwa [accesses, List.append_nil]
  | cons call calls ih =>
    rw [accesses, ← List.append_assoc]
    exact ih (h.serve call)

/-- Whatever was done with a fresh store, and whatever became of the files and the catalog, the page
that a fetch drops is the one that was accessed the longest ago of those that are not in use, and a
fetch that fails changes nothing. -/
theorem evictsOldest_of_fresh {first : Store} (hfresh : first.Fresh) (calls : List PoolCall)
    (page : PageId) : (calls.foldl serve first).EvictsOldest (first.accesses calls) page := by
  obtain ⟨pageSize, capacity, hcache⟩ := hfresh
  have hempty : first.cache.recency.pages = [] := by
    unfold Cache.ofCapacity at hcache
    split_ifs at hcache
    rw [← Except.ok.inj hcache]
    rfl
  have hstart : first.Recalls [] := by
    refine ⟨Cache.valid_of_ofCapacity hcache, ?_, ?_⟩ <;> rw [hempty]
    · exact fun page hmem => hmem
    · exact List.Pairwise.nil
  exact (hstart.foldl calls).evictsOldest page

end Store

/-- A fresh store for two pages over a table whose file has three. -/
def Sample.threePages : Store where
  disk := ({} : Disk).write ["t"] (Bytes.zeros 60)
  catalog := Catalog.empty.add Sample.table "t"
  cache := ⟨20, 2, Nat.two_pos, [], .empty, [], [], 0⟩

/-- After the first page was fetched, the second, and the first again, the third takes the place of
the second. -/
theorem Store.evictsOldest_second :
    let page (number : Nat) : PageId := ⟨Sample.table.id, number⟩
    let s := [.get (page 0), .get (page 1), .get (page 0)].foldl serve Sample.threePages
    s.EvictsOldest [page 0, page 1, page 0] (page 2) ∧
      (s.fetch (page 2)).2.cache.frames.map Prod.fst = [page 0, page 2] := by
  intro page s
  have hfresh : Sample.threePages.Fresh := ⟨20, 2, rfl⟩
  have hlog : Sample.threePages.accesses [.get (page 0), .get (page 1), .get (page 0)] =
      [page 0, page 1, page 0] := by
    decide +kernel
  refine ⟨?_, by decide +kernel⟩
  rw [← hlog]
  exact evictsOldest_of_fresh hfresh _ (page 2)

end RowStore
