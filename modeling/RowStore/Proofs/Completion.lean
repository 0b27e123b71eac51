import RowStore.Proofs.Session

/-!
# RowStore.Proofs.Completion: how a transaction is finished

An abort restores the pages of the transaction and nothing else.  A commit finishes them one by
one, in ascending order, and stops at the first that cannot be written (`Store.Finishes`).  What it
had done until then is kept, so that a second commit, once the first page can be written, goes on
from there and ends where a commit without the interruption would have ended.
-/

namespace RowStore

/-- A byte string is known by its stretches of any one length. -/
theorem Bytes.ext_slice {a b : Bytes} {size : Nat} (hpos : 0 < size)
    (h : ∀ number, a.slice (number * size) size = b.slice (number * size) size) : a = b := by
  apply List.ext_getElem?
  intro i
  have hrest : i % size < size := Nat.mod_lt i hpos
  have hi : i / size * size + i % size = i := Nat.div_add_mod' i size
  have hsame := congrArg (fun bytes : Bytes => bytes[i % size]?) (h (i / size))
  rwa [Bytes.getElem?_slice, Bytes.getElem?_slice, if_pos hrest, if_pos hrest, hi] at hsame

theorem PageId.compare_eq_lt {a b : PageId} (hle : a.ble b = true) (hne : a ≠ b) :
    compare a b = .lt := by
  cases hcompare : compare a b with
  | lt => rfl
  | eq =>
    refine absurd (PageId.ble_antisymm hle ?_) hne
    have hdef : compare a b = (compare a.table.value.toNat b.table.value.toNat).then
      (compare a.number b.number) := rfl
    rw [hcompare, eq_comm, Ordering.then_eq_eq, Nat.compare_eq_eq, Nat.compare_eq_eq] at hdef
    rw [PageId.ble_iff]
    omega
  | gt =>
    have hdef : a.ble b = (compare a b).isLE := rfl
    rw [hdef, hcompare] at hle
    cases hle

theorem Table.folders_of_writeBytes {table : Table} {disk disk' : Disk} {page : PageId}
    {data : Bytes} (h : table.writeBytes disk page data = .ok disk') :
    disk'.folders = disk.folders := by
  obtain ⟨file, -, rfl⟩ := writeBytes_eq_ok_iff.mp h
  rfl

/-- Where the file of a table has the same bytes, the same is written to it. -/
theorem Table.writePage_congr {table : Table} {disk disk' : Disk}
    (h : disk'.contents table.file = disk.contents table.file) (content : Page) :
    (∃ e, table.writePage disk content = .error e ∧ table.writePage disk' content = .error e) ∨
      ∃ bytes, table.writePage disk content = .ok (disk.write table.file bytes) ∧
        table.writePage disk' content = .ok (disk'.write table.file bytes) := by
  have hfile : table.pagedFile disk' = table.pagedFile disk := by
    rw [pagedFile, pagedFile, h]
  unfold writePage writeBytes
  rw [hfile]
  split_ifs with hforeign
  · exact Or.inl ⟨_, rfl, rfl⟩
  · cases (table.pagedFile disk).write content.id content.data with
    | error e => exact Or.inl ⟨_, rfl, rfl⟩
    | ok file => exact Or.inr ⟨_, rfl, rfl⟩

/-! ## Finished pages -/

namespace Page

/-- A page once it was written: clean, with its present bytes to fall back to. -/
def finished (page : Page) : Page :=
  (page.mark none).setBefore

@[simp] theorem finished_finished (page : Page) : page.finished.finished = page.finished := rfl

@[simp] theorem id_finished (page : Page) : page.finished.id = page.id := rfl

end Page

namespace Cache

variable {cache : Cache} {done more : List PageId} {page : PageId} {frame : Frame}

/-- The cache with something done to these pages. -/
def change (cache : Cache) (what : Page → Page) (done : List PageId) : Cache :=
  { cache with
    frames := cache.frames.map fun (id, frame) =>
      (id, if id ∈ done then { frame with page := what frame.page } else frame) }

variable {what : Page → Page}

theorem find?_change (cache : Cache) (what : Page → Page) (done : List PageId) (page : PageId) :
    (cache.change what done).find? page = (cache.find? page).map fun frame =>
      if page ∈ done then { frame with page := what frame.page } else frame :=
  Lookup.lookup_map cache.frames (fun id frame =>
    if id ∈ done then { frame with page := what frame.page } else frame) page

theorem find?_change_of_not_mem (h : page ∉ done) :
    (cache.change what done).find? page = cache.find? page := by
  rw [find?_change]
  simp [h]

theorem find?_change_of_mem (h : page ∈ done) (hf : cache.find? page = some frame) :
    (cache.change what done).find? page = some { frame with page := what frame.page } := by
  rw [find?_change, hf, Option.map_some, if_pos h]

@[simp] theorem change_nil (cache : Cache) (what : Page → Page) : cache.change what [] = cache := by
  simp [change]

@[simp] theorem pageIds_change (cache : Cache) (what : Page → Page) (done : List PageId) :
    (cache.change what done).pageIds = cache.pageIds := by
  simp [change, pageIds, Function.comp_def]

/-- What makes no difference when done twice may be done to some pages and then to others. -/
theorem change_change (htwice : ∀ page, what (what page) = what page) (cache : Cache)
    (done more : List PageId) :
    (cache.change what done).change what more = cache.change what (done ++ more) := by
  unfold change
  simp only [List.map_map, List.mem_append, mk.injEq, and_self, and_true, true_and]
  apply List.map_congr_left
  rintro ⟨id, frame⟩ -
  by_cases hdone : id ∈ done <;> by_cases hmore : id ∈ more <;> simp [hdone, hmore, htwice]

theorem Valid.change (hv : cache.Valid) (hid : ∀ page, (what page).id = page.id)
    (done : List PageId) : (cache.change what done).Valid := by
  refine hv.of_frames ?_ rfl rfl ?_
  · simp [Cache.change, Function.comp_def]
  · intro page frame hf
    rw [find?_change] at hf
    obtain ⟨old, hold, rfl⟩ := Option.map_eq_some_iff.mp hf
    have hkeyed := hv.keyed hold
    split_ifs
    · exact (hid old.page).trans hkeyed
    · exact hkeyed

/-- Putting the finished page back finishes it and no other. -/
theorem put_finished (hv : cache.Valid) (hf : cache.find? page = some frame) :
    cache.put frame.page.finished = cache.change Page.finished [page] := by
  have hid : frame.page.finished.id = page := hv.keyed hf
  unfold put change
  simp only [mk.injEq, and_self, and_true, true_and]
  apply List.map_congr_left
  rintro ⟨id, other⟩ hmem
  have hfound : cache.find? id = some other :=
    (Lookup.lookup_eq_some_iff_mem hv.distinct).mpr hmem
  simp only [hid, List.mem_singleton]
  split_ifs with heq
  · subst heq
    rw [hf, Option.some.injEq] at hfound
    rw [hfound]
  · rfl

end Cache

namespace Store

variable {s s' t r : Store} {tid : TransactionId} {page : PageId} {frame : Frame}
  {done more pages : List PageId} {e : CacheError}

/-- The bytes of a table's file where a page lies: fewer than a page when the file ends before. -/
def onDisk (s : Store) (page : PageId) : Except CatalogError Bytes :=
  (s.catalog.table page.table).map fun table =>
    (s.disk.contents table.file).slice (page.offset table.pageSize) table.pageSize

/-- Whether a page is cached and `tid` changed it last. -/
def owns (s : Store) (tid : TransactionId) (page : PageId) : Bool :=
  (s.cache.find? page).any fun frame => frame.page.dirtier = some tid

/-- The pages of a transaction, in ascending order. -/
def ownedBy (s : Store) (tid : TransactionId) : List PageId :=
  s.cache.pageIds.filter (s.owns tid)

theorem owns_iff : s.owns tid page = true ↔
    ∃ frame, s.cache.find? page = some frame ∧ frame.page.dirtier = some tid := by
  simp [owns, Option.any_eq_true]

theorem mem_ownedBy : page ∈ s.ownedBy tid ↔ s.owns tid page = true := by
  rw [ownedBy, List.mem_filter, Cache.mem_pageIds, and_iff_right_iff_imp, owns_iff]
  rintro ⟨frame, hf, -⟩
  rw [hf]
  rfl

theorem ascending_ownedBy (hv : s.cache.Valid) (tid : TransactionId) :
    (s.ownedBy tid).Pairwise fun a b => compare a b = .lt := by
  have hsorted := (@Cache.pairwise_pageIds s.cache).and hv.nodup_pageIds
  exact (hsorted.imp fun h => PageId.compare_eq_lt h.1 h.2).filter _

/-- `s'` is `s` with these pages written and finished, and all else as it was. -/
structure Finishes (s s' : Store) (done : List PageId) : Prop where
  catalog : s'.catalog = s.catalog
  /-- These pages are clean and fall back to the bytes they had; every other cached page has the
  bytes, the mark and the bytes to fall back to that it had. -/
  cache : s'.cache = s.cache.change Page.finished done
  /-- The disk has their bytes, -/
  written : ∀ page ∈ done, ∀ frame, s.cache.find? page = some frame →
    s'.onDisk page = .ok frame.page.data
  /-- and of every other page the bytes it had. -/
  kept : ∀ page, page ∉ done → s'.onDisk page = s.onDisk page
  /-- Files of other tables are as they were. -/
  files : ∀ file, (∀ page ∈ done, ∀ table, s.catalog.table page.table = .ok table →
    file ≠ table.file) → s'.disk.contents file = s.disk.contents file
  folders : s'.disk.folders = s.disk.folders

theorem Finishes.refl (s : Store) : s.Finishes s [] :=
  ⟨rfl, (s.cache.change_nil _).symm, (fun _ hmem => by cases hmem), fun _ _ => rfl, fun _ _ => rfl,
    rfl⟩

theorem Finishes.trans (h : s.Finishes t done) (h' : t.Finishes s' more)
    (hdisjoint : ∀ page ∈ done, page ∉ more) : s.Finishes s' (done ++ more) := by
  refine ⟨h'.catalog.trans h.catalog, ?_, ?_, ?_, ?_, h'.folders.trans h.folders⟩
  · rw [h'.cache, h.cache, Cache.change_change Page.finished_finished]
  · intro page hmem frame hf
    by_cases hdone : page ∈ done
    · rw [h'.kept page (hdisjoint page hdone)]
      exact h.written page hdone frame hf
    · have hmore := (List.mem_append.mp hmem).resolve_left hdone
      refine h'.written page hmore frame ?_
      rw [h.cache, Cache.find?_change_of_not_mem hdone, hf]
  · intro page hmem
    rw [List.mem_append, not_or] at hmem
    rw [h'.kept page hmem.2, h.kept page hmem.1]
  · intro file hfile
    have hsecond : s'.disk.contents file = t.disk.contents file := by
      apply h'.files
      intro page hmem table htable
      rw [h.catalog] at htable
      exact hfile page (List.mem_append_right _ hmem) table htable
    rw [hsecond]
    exact h.files file fun page hmem => hfile page (List.mem_append_left _ hmem)

/-- A page that is finished is clean, has the bytes it had, and falls back to them. -/
theorem Finishes.settled (h : s.Finishes s' done) (hmem : page ∈ done)
    (hf : s.cache.find? page = some frame) :
    ∃ frame', s'.cache.find? page = some frame' ∧ frame'.page.dirtier = none ∧
      frame'.page.data = frame.page.data ∧ frame'.page.before = frame.page.data := by
  rw [h.cache, Cache.find?_change_of_mem hmem hf]
  exact ⟨_, rfl, rfl, rfl, rfl⟩

/-- Writing a page back finishes it. -/
theorem finishes_writeBack {disk : Disk} (hv : s.cache.Valid) (hsound : s.catalog.Sound)
    (hf : s.cache.find? page = some frame) (hw : s.writeBack frame.page = .ok disk) :
    s.Finishes ({ s with disk }.put frame.page.finished) [page] := by
  obtain ⟨table, ht, hbytes⟩ := (writeBack_eq_ok_iff (hv.keyed hf)).mp hw
  obtain ⟨hlength, hin, hfile⟩ : frame.page.data.length = table.pageSize ∧
      page.offset table.pageSize ≤ (s.disk.contents table.file).length ∧ _ :=
    PagedFile.write_eq_ok_iff.mp (Table.pagedFile_of_writeBytes hbytes)
  have hcontents : disk.contents table.file =
      (s.disk.contents table.file).splice (page.offset table.pageSize) frame.page.data :=
    congrArg PagedFile.bytes hfile
  refine ⟨rfl, Cache.put_finished hv hf, ?_, ?_, ?_, Table.folders_of_writeBytes hbytes⟩
  · intro other hmem frame' hf'
    obtain rfl := List.mem_singleton.mp hmem
    obtain rfl : frame = frame' := Option.some.inj (hf.symm.trans hf')
    show (s.catalog.table other.table).map _ = _
    rw [ht]
    show Except.ok ((disk.contents table.file).slice _ _) = _
    rw [hcontents]
    have hread := Bytes.slice_splice_self frame.page.data hin
    rw [hlength] at hread
    exact congrArg Except.ok hread
  · intro other hne
    rw [List.mem_singleton] at hne
    show (s.catalog.table other.table).map _ = (s.catalog.table other.table).map _
    cases ht' : s.catalog.table other.table with
    | error e => rfl
    | ok table' =>
      show Except.ok ((disk.contents table'.file).slice _ _) =
        Except.ok ((s.disk.contents table'.file).slice _ _)
      by_cases hsame : other.table = page.table
      · rw [hsame, ht, Except.ok.injEq] at ht'
        subst ht'
        have hnumber : other.number ≠ page.number := by
          intro hnumber
          apply hne
          cases other
          cases page
          simp_all
        rw [hcontents, Bytes.slice_splice_of_disjoint frame.page.data hin]
        rw [hlength]
        exact PagedFile.offset_disjoint table.pageSize hnumber
      · rw [Table.contents_of_writeBytes_of_ne hbytes (hsound.file_ne ht' ht hsame)]
  · intro file hfile
    exact Table.contents_of_writeBytes_of_ne hbytes (hfile page List.mem_cons_self table ht)

/-! ## Going through the pages -/

/-- A page of nobody or of somebody else is passed over. -/
theorem commitPages_of_not_owns (pages : List PageId) (hown : s.owns tid page = false) :
    commitPages tid (page :: pages) s = commitPages tid pages s := by
  rw [commitPages]
  cases hf : s.cache.find? page with
  | none => rfl
  | some frame =>
    have hmark : ¬ frame.page.dirtier = some tid := by
      intro hmark
      rw [owns_iff.mpr ⟨frame, hf, hmark⟩] at hown
      cases hown
    exact if_neg hmark

/-- A page of the transaction is written and finished, or the commit ends there. -/
theorem commitPages_of_owns (pages : List PageId) (hf : s.cache.find? page = some frame)
    (hmark : frame.page.dirtier = some tid) :
    commitPages tid (page :: pages) s =
      match s.writeBack frame.page with
      | .error e => (.error e, s)
      | .ok disk => commitPages tid pages ({ s with disk }.put frame.page.finished) := by
  rw [commitPages, hf]
  exact if_pos hmark

theorem Finishes.owns_eq (h : s.Finishes t done) (hpage : page ∉ done) :
    t.owns tid page = s.owns tid page := by
  rw [owns, owns, h.cache, Cache.find?_change_of_not_mem hpage]

/-- Finishing a page changes nothing about whose the others are. -/
theorem Finishes.filter_owns (h : s.Finishes t [page]) (hnew : page ∉ pages) :
    pages.filter (t.owns tid) = pages.filter (s.owns tid) := by
  apply List.filter_congr
  intro other hother
  apply h.owns_eq
  rw [List.mem_singleton]
  rintro rfl
  exact hnew hother

/-- A page that is finished belongs to no transaction. -/
theorem Finishes.owns_of_mem (h : s.Finishes t done) (hpage : page ∈ done) :
    t.owns tid page = false := by
  rw [owns, h.cache, Cache.find?_change]
  cases s.cache.find? page with
  | none => rfl
  | some frame => simp [hpage, Page.finished, Page.mark, Page.setBefore]

/-- What going through a list of pages can come to. -/
inductive Committed (s : Store) (tid : TransactionId) (pages : List PageId) :
    Except CacheError Unit × Store → Prop
  /-- Those of the transaction are finished. -/
  | all {s' : Store} (h : s.Finishes s' (pages.filter (s.owns tid))) :
    Committed s tid pages (.ok (), s')
  /-- Those before the first that cannot be written are. -/
  | stopped {e : CacheError} {s' : Store} {before behind : List PageId} {failing : PageId}
    {frame : Frame} (hpages : pages.filter (s.owns tid) = before ++ failing :: behind)
    (h : s.Finishes s' before) (hf : s.cache.find? failing = some frame)
    (hw : s'.writeBack frame.page = .error e) : Committed s tid pages (.error e, s')

/-- A page that is passed over makes no difference. -/
theorem Committed.skip {out : Except CacheError Unit × Store} (h : s.Committed tid pages out)
    (hown : s.owns tid page = false) : s.Committed tid (page :: pages) out := by
  have hfilter : (page :: pages).filter (s.owns tid) = pages.filter (s.owns tid) :=
    List.filter_cons_of_neg (by simp [hown])
  cases h with
  | all h => exact .all (hfilter ▸ h)
  | stopped hpages h hf hw => exact .stopped (hfilter.trans hpages) h hf hw

/-- After the first page was finished the others are gone through as they would have been. -/
theorem Committed.cons {out : Except CacheError Unit × Store} (h : t.Committed tid pages out)
    (hdone : s.Finishes t [page]) (hown : s.owns tid page = true) (hnew : page ∉ pages) :
    s.Committed tid (page :: pages) out := by
  have hfilter : (page :: pages).filter (s.owns tid) = page :: pages.filter (s.owns tid) :=
    List.filter_cons_of_pos hown
  -- the pages still to come are not touched by finishing this one
  have hsame : pages.filter (t.owns tid) = pages.filter (s.owns tid) := hdone.filter_owns hnew
  have hdisjoint : ∀ more : List PageId, (∀ other ∈ more, other ∈ pages) →
      ∀ other ∈ [page], other ∉ more := by
    intro more hmore other hother hmem
    rw [List.mem_singleton] at hother
    exact hnew (hother ▸ hmore other hmem)
  cases h with
  | all h =>
    rw [hsame] at h
    have hall := hdone.trans h (hdisjoint _ fun other hother => List.mem_of_mem_filter hother)
    refine .all ?_
    rw [hfilter]
    exact hall
  | @stopped e s' before behind failing found hpages h hf hw =>
    rw [hsame] at hpages
    have hin : ∀ other ∈ before ++ failing :: behind, other ∈ pages := by
      rw [← hpages]
      intro other hother
      exact List.mem_of_mem_filter hother
    have hfound : s.cache.find? failing = some found := by
      rw [hdone.cache, Cache.find?_change_of_not_mem] at hf
      · exact hf
      · rw [List.mem_singleton]
        rintro rfl
        exact hnew (hin _ (by simp))
    have hall := hdone.trans h (hdisjoint _ fun other hother =>
      hin other (List.mem_append_left _ hother))
    refine @Committed.stopped s tid _ e s' ([page] ++ before) behind failing found ?_ hall hfound hw
    rw [hfilter, hpages]
    rfl

theorem committed_commitPages (tid : TransactionId) :
    ∀ (pages : List PageId) {s : Store}, s.cache.Valid → s.catalog.Sound → pages.Nodup →
      s.Committed tid pages (commitPages tid pages s)
  | [], s, _, _, _ => .all (.refl s)
  | page :: pages, s, hv, hsound, hnodup => by
    obtain ⟨hnew, hrest⟩ := List.nodup_cons.mp hnodup
    cases hown : s.owns tid page with
    | false =>
      rw [commitPages_of_not_owns pages hown]
      exact (committed_commitPages tid pages hv hsound hrest).skip hown
    | true =>
      obtain ⟨frame, hf, hmark⟩ := owns_iff.mp hown
      rw [commitPages_of_owns pages hf hmark]
      cases hw : s.writeBack frame.page with
      | error e => exact .stopped (List.filter_cons_of_pos hown) (.refl s) hf hw
      | ok disk =>
        have hdone := finishes_writeBack hv hsound hf hw
        have hv' : Cache.Valid ({ s with disk }.put frame.page.finished).cache := hv.put _
        exact (committed_commitPages tid pages hv' hsound hrest).cons hdone hown hnew

/-! ## Going on after a failure -/

/-- Pages of nobody need not be offered to a commit. -/
theorem commitPages_filter (tid : TransactionId) :
    ∀ {pages : List PageId} (s : Store), s.cache.Valid → s.catalog.Sound → pages.Nodup →
      commitPages tid (pages.filter (s.owns tid)) s = commitPages tid pages s
  | [], _, _, _, _ => rfl
  | page :: pages, s, hv, hsound, hnodup => by
    obtain ⟨hnew, hrest⟩ := List.nodup_cons.mp hnodup
    cases hown : s.owns tid page with
    | false =>
      rw [List.filter_cons_of_neg (by simp [hown]), commitPages_of_not_owns pages hown]
      exact commitPages_filter tid s hv hsound hrest
    | true =>
      obtain ⟨frame, hf, hmark⟩ := owns_iff.mp hown
      rw [List.filter_cons_of_pos hown, commitPages_of_owns _ hf hmark,
        commitPages_of_owns _ hf hmark]
      cases hw : s.writeBack frame.page with
      | error e => rfl
      | ok disk =>
        have hdone := finishes_writeBack hv hsound hf hw
        have hv' : Cache.Valid ({ s with disk }.put frame.page.finished).cache := hv.put _
        have hnext := commitPages_filter tid ({ s with disk }.put frame.page.finished) hv' hsound
          hrest
        rw [hdone.filter_owns hnew] at hnext
        exact hnext

/-- A commit of some pages that succeeds is one of the first of them and then one of the others. -/
theorem commitPages_append (tid : TransactionId) (more : List PageId) :
    ∀ (pages : List PageId) (s : Store), (commitPages tid (pages ++ more) s).1 = .ok () →
      (commitPages tid pages s).1 = .ok () ∧
        commitPages tid (pages ++ more) s = commitPages tid more (commitPages tid pages s).2
  | [], _, _ => ⟨rfl, rfl⟩
  | page :: pages, s, hok => by
    rw [List.cons_append] at hok ⊢
    cases hown : s.owns tid page with
    | false =>
      rw [commitPages_of_not_owns _ hown] at hok ⊢
      rw [commitPages_of_not_owns _ hown]
      exact commitPages_append tid more pages s hok
    | true =>
      obtain ⟨frame, hf, hmark⟩ := owns_iff.mp hown
      rw [commitPages_of_owns _ hf hmark] at hok ⊢
      rw [commitPages_of_owns _ hf hmark]
      cases hw : s.writeBack frame.page with
      | error e =>
        rw [hw] at hok
        cases hok
      | ok disk =>
        rw [hw] at hok
        exact commitPages_append tid more pages _ hok

/-- Two stores that no call tells apart: they differ at most in how their files are listed. -/
structure SameContents (s t : Store) : Prop where
  cache : t.cache = s.cache
  catalog : t.catalog = s.catalog
  folders : t.disk.folders = s.disk.folders
  contents : ∀ file, t.disk.contents file = s.disk.contents file

theorem SameContents.writeBack (h : s.SameContents t) (content : Page) :
    (∃ e, s.writeBack content = .error e ∧ t.writeBack content = .error e) ∨
      ∃ disk disk', s.writeBack content = .ok disk ∧ t.writeBack content = .ok disk' ∧
        Store.SameContents { s with disk } { t with disk := disk' } := by
  unfold Store.writeBack
  rw [h.catalog]
  cases s.catalog.table content.id.table with
  | error e => exact Or.inl ⟨_, rfl, rfl⟩
  | ok table =>
    dsimp only
    rcases Table.writePage_congr (h.contents table.file) content with ⟨e, hs, ht⟩ | ⟨bytes, hs, ht⟩
    · rw [hs, ht]
      exact Or.inl ⟨_, rfl, rfl⟩
    · rw [hs, ht]
      refine Or.inr ⟨_, _, rfl, rfl, h.cache, rfl, h.folders, ?_⟩
      intro file
      show (t.disk.write table.file bytes).contents file =
        (s.disk.write table.file bytes).contents file
      rw [Disk.contents_write, Disk.contents_write, h.contents]

theorem SameContents.commitPages (tid : TransactionId) :
    ∀ (pages : List PageId) {s t : Store}, s.SameContents t →
      (commitPages tid pages t).1 = (commitPages tid pages s).1 ∧
        (commitPages tid pages s).2.SameContents (commitPages tid pages t).2
  | [], _, _, h => ⟨rfl, h⟩
  | page :: pages, s, t, h => by
    have howns : t.owns tid page = s.owns tid page := by
      rw [owns, owns, h.cache]
    cases hown : s.owns tid page with
    | false =>
      rw [commitPages_of_not_owns _ hown, commitPages_of_not_owns _ (howns.trans hown)]
      exact SameContents.commitPages tid pages h
    | true =>
      obtain ⟨frame, hf, hmark⟩ := owns_iff.mp hown
      have hf' : t.cache.find? page = some frame := by
        rw [h.cache, hf]
      rw [commitPages_of_owns _ hf hmark, commitPages_of_owns _ hf' hmark]
      rcases h.writeBack frame.page with ⟨e, hw, hw'⟩ | ⟨disk, disk', hw, hw', hsame⟩
      · rw [hw, hw']
        exact ⟨rfl, h⟩
      · rw [hw, hw']
        apply SameContents.commitPages tid pages
        refine ⟨?_, hsame.catalog, hsame.folders, hsame.contents⟩
        show t.cache.put _ = s.cache.put _
        rw [h.cache]

/-- Finishing some pages of a store comes to the same whoever does it. -/
theorem Finishes.unique (hsound : s.catalog.Sound) (hcached : ∀ page ∈ done,
    (s.cache.find? page).isSome) (h : s.Finishes t done) (h' : s.Finishes r done) :
    t.SameContents r := by
  refine ⟨h'.cache.trans h.cache.symm, h'.catalog.trans h.catalog.symm,
    h'.folders.trans h.folders.symm, ?_⟩
  intro file
  by_cases hfile : ∀ page ∈ done, ∀ table, s.catalog.table page.table = .ok table →
      file ≠ table.file
  · rw [h'.files file hfile, h.files file hfile]
  · push Not at hfile
    obtain ⟨done', hmem, table, ht, rfl⟩ := hfile
    -- the file is compared page by page
    refine Bytes.ext_slice (hsound.table ht).pageSize_pos ?_
    intro number
    have hpage : r.onDisk ⟨done'.table, number⟩ = t.onDisk ⟨done'.table, number⟩ := by
      by_cases hdone : (⟨done'.table, number⟩ : PageId) ∈ done
      · obtain ⟨frame, hf⟩ := Option.isSome_iff_exists.mp (hcached _ hdone)
        rw [h'.written _ hdone frame hf, h.written _ hdone frame hf]
      · rw [h'.kept _ hdone, h.kept _ hdone]
    unfold onDisk at hpage
    rw [h.catalog, h'.catalog, ht] at hpage
    exact Except.ok.inj hpage

/-- What is left for a commit when some pages of the transaction are finished. -/
theorem Finishes.ownedBy_eq {before rest : List PageId} (h : t.Finishes r before)
    (hpages : t.ownedBy tid = before ++ rest) (hnodup : (before ++ rest).Nodup) :
    r.ownedBy tid = rest := by
  have howns : ∀ page, r.owns tid page = (decide (page ∉ before) && t.owns tid page) := by
    intro page
    by_cases hmem : page ∈ before
    · rw [h.owns_of_mem hmem]
      simp [hmem]
    · rw [h.owns_eq hmem]
      simp [hmem]
  have hpageIds : r.cache.pageIds = t.cache.pageIds := by
    rw [h.cache, Cache.pageIds_change]
  have hfilter : r.ownedBy tid = (t.ownedBy tid).filter fun page => page ∉ before := by
    rw [ownedBy, ownedBy, hpageIds, List.filter_filter]
    exact List.filter_congr fun page _ => howns page
  rw [hfilter, hpages, List.filter_append, List.filter_eq_nil_iff.mpr, List.nil_append,
    List.filter_eq_self.mpr]
  · intro page hmem
    have hnot := (List.nodup_append.mp hnodup).2.2
    simp only [decide_eq_true_eq]
    intro hbefore
    exact hnot page hbefore page hmem rfl
  · intro page hmem
    simp [hmem]

/-- A commit goes through the pages of its transaction. -/
theorem commit_eq_ownedBy (hv : s.cache.Valid) (hsound : s.catalog.Sound) (tid : TransactionId) :
    s.commit tid = commitPages tid (s.ownedBy tid) s :=
  (commitPages_filter tid s hv hsound hv.nodup_pageIds).symm

/-- A commit goes on from the pages that are finished already, and ends where it would have ended
from the start. -/
theorem commit_of_finishes {before rest : List PageId} (hv : t.cache.Valid)
    (hsound : t.catalog.Sound) (hpages : t.ownedBy tid = before ++ rest)
    (hdone : t.Finishes r before) (hok : (t.commit tid).1 = .ok ()) :
    (r.commit tid).1 = .ok () ∧ (t.commit tid).2.SameContents (r.commit tid).2 := by
  have hnodup : (before ++ rest).Nodup := by
    rw [← hpages]
    exact hv.nodup_pageIds.filter _
  have howned : ∀ page ∈ before, t.owns tid page = true := by
    intro page hmem
    have hin := List.mem_append_left rest hmem
    rw [← hpages] at hin
    exact mem_ownedBy.mp hin
  have hv' : r.cache.Valid := by
    rw [hdone.cache]
    exact hv.change Page.id_finished before
  have hsound' : r.catalog.Sound := by
    rw [hdone.catalog]
    exact hsound
  rw [commit_eq_ownedBy hv hsound, hpages] at hok ⊢
  rw [commit_eq_ownedBy hv' hsound', hdone.ownedBy_eq hpages hnodup]
  obtain ⟨hokBefore, happend⟩ := commitPages_append tid rest before t hok
  -- the first commit, where it had finished the same pages
  have hcommitted := committed_commitPages tid before hv hsound (List.nodup_append.mp hnodup).1
  have hfilter : before.filter (t.owns tid) = before := List.filter_eq_self.mpr howned
  have hsame : (commitPages tid before t).2.SameContents r := by
    generalize commitPages tid before t = out at hcommitted hokBefore
    cases hcommitted with
    | all h =>
      rw [hfilter] at h
      refine h.unique hsound ?_ hdone
      intro page hmem
      obtain ⟨frame, hf, -⟩ := owns_iff.mp (howned page hmem)
      rw [hf]
      rfl
    | stopped => cases hokBefore
  obtain ⟨heq, hend⟩ := hsame.commitPages tid rest
  rw [happend] at hok ⊢
  exact ⟨heq.trans hok, hend⟩

/-- `t` and `r` are what `s` and `s'` become when tables are registered and files are seen to, in
both the same way.  Of the tables of these pages neither the entry nor the file is changed. -/
structure Repaired (s s' : Store) (done : List PageId) (t r : Store) : Prop where
  sound : t.catalog.Sound
  cache : t.cache = s.cache
  cache' : r.cache = s'.cache
  catalog : r.catalog = t.catalog
  folders : r.disk.folders = t.disk.folders
  tables : ∀ page ∈ done, t.catalog.table page.table = s.catalog.table page.table
  files : ∀ page ∈ done, ∀ table, s.catalog.table page.table = .ok table →
    t.disk.contents table.file = s.disk.contents table.file ∧
      r.disk.contents table.file = s'.disk.contents table.file
  others : ∀ file, (∀ page ∈ done, ∀ table, s.catalog.table page.table = .ok table →
    file ≠ table.file) → r.disk.contents file = t.disk.contents file

/-- A repair leaves the pages finished that were. -/
theorem Repaired.finishes (hrepaired : s.Repaired s' done t r) (h : s.Finishes s' done) :
    t.Finishes r done := by
  have hsame : ∀ page ∈ done, ∀ number, t.onDisk ⟨page.table, number⟩ =
      s.onDisk ⟨page.table, number⟩ ∧ r.onDisk ⟨page.table, number⟩ =
        s'.onDisk ⟨page.table, number⟩ := by
    intro page hmem number
    unfold onDisk
    rw [hrepaired.catalog, h.catalog, hrepaired.tables page hmem]
    cases ht : s.catalog.table page.table with
    | error e => exact ⟨rfl, rfl⟩
    | ok table =>
      obtain ⟨hfile, hfile'⟩ := hrepaired.files page hmem table ht
      simp only [Except.map, hfile, hfile', and_self]
  refine ⟨hrepaired.catalog, ?_, ?_, ?_, ?_, hrepaired.folders⟩
  · rw [hrepaired.cache', hrepaired.cache, h.cache]
  · intro page hmem frame hf
    rw [(hsame page hmem page.number).2]
    rw [hrepaired.cache] at hf
    exact h.written page hmem frame hf
  · intro page hmem
    by_cases hshared : ∃ other ∈ done, other.table = page.table
    · obtain ⟨other, hother, htable⟩ := hshared
      obtain ⟨hfirst, hsecond⟩ := hsame other hother page.number
      rw [htable] at hfirst hsecond
      rw [hfirst, hsecond]
      exact h.kept page hmem
    · unfold onDisk
      rw [hrepaired.catalog]
      cases ht : t.catalog.table page.table with
      | error e => rfl
      | ok table =>
        have hfile : r.disk.contents table.file = t.disk.contents table.file := by
          apply hrepaired.others
          intro other hother table' ht'
          rw [← hrepaired.tables other hother] at ht'
          exact hrepaired.sound.file_ne ht ht' fun htable => hshared ⟨other, hother, htable.symm⟩
        simp only [Except.map, hfile]
  · intro file hfile
    apply hrepaired.others
    intro page hmem table ht
    rw [← hrepaired.tables page hmem] at ht
    exact hfile page hmem table ht

/-- An abort gives each page of the transaction its former bytes back, and changes nothing else. -/
theorem cache_abort (hv : s.cache.Valid) (tid : TransactionId) :
    (s.abort tid).cache = s.cache.change Page.beforeImage (s.ownedBy tid) := by
  unfold abort Cache.change
  simp only [Cache.mk.injEq, and_self, and_true, true_and]
  apply List.map_congr_left
  rintro ⟨page, frame⟩ hmem
  have hf : s.cache.find? page = some frame :=
    (Lookup.lookup_eq_some_iff_mem hv.distinct).mpr hmem
  have howned : page ∈ s.ownedBy tid ↔ frame.page.dirtier = some tid := by
    rw [mem_ownedBy, owns_iff]
    constructor
    · rintro ⟨found, hfound, hmark⟩
      obtain rfl := Option.some.inj (hf.symm.trans hfound)
      exact hmark
    · intro hmark
      exact ⟨frame, hf, hmark⟩
  simp only [howned]

/-- What finishing a transaction comes to. -/
structure Completes (s : Store) (tid : TransactionId) : Prop where
  /-- Its pages are those that are cached with its mark, -/
  owned : ∀ page, page ∈ s.ownedBy tid ↔
    ∃ frame, s.cache.find? page = some frame ∧ frame.page.dirtier = some tid
  /-- taken in their order. -/
  ascending : (s.ownedBy tid).Pairwise fun a b => compare a b = .lt
  /-- An abort makes each of them clean, with the bytes it was to fall back to, and changes nothing
  else. -/
  aborted : s.abort tid =
    { s with cache := s.cache.change Page.beforeImage (s.ownedBy tid) }
  /-- So no transaction has changed any of them any more, and they hold the former bytes. -/
  restored : ∀ page ∈ s.ownedBy tid, ∀ frame, s.cache.find? page = some frame →
    ∃ frame', (s.abort tid).cache.find? page = some frame' ∧ frame'.page.dirtier = none ∧
      frame'.page.data = frame.page.before ∧ frame'.page.before = frame.page.before
  /-- Pages that are finished are clean, with the bytes they had, and fall back to these. -/
  settled : ∀ s' done, s.Finishes s' done → ∀ page ∈ done, ∀ frame,
    s.cache.find? page = some frame → ∃ frame', s'.cache.find? page = some frame' ∧
      frame'.page.dirtier = none ∧ frame'.page.data = frame.page.data ∧
      frame'.page.before = frame.page.data
  /-- A commit that succeeds has finished them, -/
  committed : ∀ s', s.commit tid = (.ok (), s') → s.Finishes s' (s.ownedBy tid)
  /-- and one that fails those before the first that cannot be written: -/
  stopped : ∀ e s', s.commit tid = (.error e, s') → ∃ before failing behind frame,
    s.ownedBy tid = before ++ failing :: behind ∧ s.Finishes s' before ∧
      s.cache.find? failing = some frame ∧ s'.writeBack frame.page = .error e ∧
      -- they stay finished while the cause is removed,
      (∀ t r : Store, s.Repaired s' before t r → t.Finishes r before) ∧
      -- and where they are, a commit ends where it would have ended without the failure
      ∀ t r : Store, t.cache = s.cache → t.catalog.Sound → t.Finishes r before →
        (t.commit tid).1 = .ok () →
          (r.commit tid).1 = .ok () ∧ (t.commit tid).2.SameContents (r.commit tid).2

end Store

/-- Finishing a transaction touches exactly its own pages; where a commit stops, it is known which
of them are finished, and it can be tried again. -/
theorem Store.completes {s : Store} (hv : s.cache.Valid) (hsound : s.catalog.Sound)
    (tid : TransactionId) : s.Completes tid where
  owned page := mem_ownedBy.trans owns_iff
  ascending := ascending_ownedBy hv tid
  aborted := by
    have hcache := cache_abort hv tid
    rw [← hcache]
    rfl
  restored page hmem frame hf := by
    rw [cache_abort hv tid, Cache.find?_change_of_mem hmem hf]
    exact ⟨_, rfl, rfl, rfl, rfl⟩
  settled s' done h page hmem frame hf := h.settled hmem hf
  committed s' hcommit := by
    have hcommitted := committed_commitPages tid s.cache.pageIds hv hsound hv.nodup_pageIds
    change s.Committed tid _ (s.commit tid) at hcommitted
    rw [hcommit] at hcommitted
    cases hcommitted with
    | all h => exact h
  stopped e s' hcommit := by
    have hcommitted := committed_commitPages tid s.cache.pageIds hv hsound hv.nodup_pageIds
    change s.Committed tid _ (s.commit tid) at hcommitted
    rw [hcommit] at hcommitted
    cases hcommitted with
    | @stopped e s' before behind failing frame hpages h hf hw =>
      refine ⟨before, failing, behind, frame, hpages, h, hf, hw, fun t r ht => ht.finishes h, ?_⟩
      intro t r hcache hsound' hdone hok
      have hpages' : t.ownedBy tid = before ++ failing :: behind := by
        rw [← hpages, ownedBy, hcache]
        apply List.filter_congr
        intro page _
        rw [owns, owns, hcache]
      have hv' : t.cache.Valid := by
        rw [hcache]
        exact hv
      exact commit_of_finishes hv' hsound' hpages' hdone hok

namespace Sample

/-- A second table of the same rows. -/
def second : Table where
  id := Location.tableId ["u"]
  schema := schema
  file := ["u"]
  pageSize := 20

/-- A fresh store with two tables, whose files are empty. -/
def twoTables : Store where
  disk := (({} : Disk).create ["t"]).create ["u"]
  catalog := (Catalog.empty.add table "t").add second "u"
  cache := ⟨20, 2, Nat.two_pos, [], .empty, [], [], 0⟩

/-- The same where a transaction has changed a page of either table. -/
def changed : Store :=
  ((twoTables.insertRow ⟨1⟩ table.id (row 1 2)).2.insertRow ⟨1⟩ second.id (row 3 4)).2

/-- The same after the table whose page comes last was displaced. -/
def displaced : Store :=
  { changed with catalog := Catalog.empty.add table "t" }

end Sample

/-- The commit finishes the page of the one table and stops at the page of the other, until that
table is registered again.  An abort empties both pages. -/
theorem Store.completes_displaced :
    let s' := (Sample.displaced.commit ⟨1⟩).2
    Sample.displaced.Completes ⟨1⟩ ∧
      (Sample.displaced.commit ⟨1⟩).1 = .error (.catalog (.unknownTable Sample.second.id)) ∧
      s'.ownedBy ⟨1⟩ = [⟨Sample.second.id, 0⟩] ∧
      ({ s' with catalog := Sample.changed.catalog }.commit ⟨1⟩).1 = .ok () ∧
      Sample.displaced.ownedBy ⟨1⟩ = [⟨Sample.table.id, 0⟩, ⟨Sample.second.id, 0⟩] ∧
      ∀ page ∈ Sample.displaced.ownedBy ⟨1⟩, ∃ frame,
        (Sample.displaced.abort ⟨1⟩).cache.find? page = some frame ∧ frame.page.dirtier = none ∧
          frame.page.data = Bytes.zeros 20 := by
  intro s'
  have hfresh : Sample.twoTables.cache.Valid :=
    Cache.valid_of_ofCapacity (show Cache.ofCapacity 20 2 = .ok Sample.twoTables.cache from rfl)
  have hfirst := (moves_insertRow hfresh ⟨1⟩ Sample.table.id (Sample.row 1 2)).valid hfresh
  have hv : Sample.displaced.cache.Valid :=
    (moves_insertRow hfirst ⟨1⟩ Sample.second.id (Sample.row 3 4)).valid hfirst
  -- the pages of either store, in their order
  have hsorted : List.Pairwise (fun a b => PageId.ble a b = true)
      [⟨Sample.table.id, 0⟩, ⟨Sample.second.id, 0⟩] := by
    decide +kernel
  have hpages : Sample.displaced.cache.pageIds =
      [⟨Sample.table.id, 0⟩, ⟨Sample.second.id, 0⟩] := by
    have hframes : Sample.displaced.cache.frames.map Prod.fst =
        [⟨Sample.table.id, 0⟩, ⟨Sample.second.id, 0⟩] := by
      decide +kernel
    rw [Cache.pageIds, hframes, List.mergeSort_of_pairwise hsorted]
  have hcommit : Sample.displaced.commit ⟨1⟩ = commitPages ⟨1⟩
      [⟨Sample.table.id, 0⟩, ⟨Sample.second.id, 0⟩] Sample.displaced := by
    rw [commit, hpages]
  have hpages' : s'.cache.pageIds = [⟨Sample.table.id, 0⟩, ⟨Sample.second.id, 0⟩] := by
    have hframes : s'.cache.frames.map Prod.fst =
        [⟨Sample.table.id, 0⟩, ⟨Sample.second.id, 0⟩] := by
      dsimp only [s']
      rw [hcommit]
      decide +kernel
    rw [Cache.pageIds, hframes, List.mergeSort_of_pairwise hsorted]
  have hcompletes := completes hv Sample.sound_catalog ⟨1⟩
  refine ⟨hcompletes, ?_, ?_, ?_, ?_, fun page hmem => ?_⟩
  · rw [hcommit]
    decide +kernel
  · rw [ownedBy, hpages']
    dsimp only [s']
    rw [hcommit]
    decide +kernel
  · rw [commit]
    dsimp only
    rw [hpages']
    dsimp only [s']
    rw [hcommit]
    decide +kernel
  · rw [ownedBy, hpages]
    decide +kernel
  · obtain ⟨frame, hf, -⟩ := (hcompletes.owned page).mp hmem
    obtain ⟨frame', hf', hclean, hdata, -⟩ := hcompletes.restored page hmem frame hf
    have hbefore : ∀ entry ∈ Sample.displaced.cache.frames,
        entry.2.page.before = Bytes.zeros 20 := by
      decide +kernel
    exact ⟨frame', hf', hclean, hdata.trans (hbefore _ (Lookup.mem_of_lookup hf))⟩

end RowStore
