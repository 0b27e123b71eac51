import RowStore.Store.Rows
import RowStore.Proofs.Catalog
import RowStore.Proofs.Cache
import RowStore.Proofs.Page.Rows

/-!
# RowStore.Proofs.Store.Coherence: the cache against the disk

`Store.stored` is a page as the disk has it and `Store.shown` as a fetch with room returns it;
`Store.Fetched` lists how a fetch can end.  A store is `Seated` when every cached page lies over a
stored page of its table, it has `CleanMatch` when clean pages hold the stored bytes, and
`BeforeMatch` when the bytes every page falls back to are the stored ones; all three make it
`Coherent`.

A `Move` is the least change an operation makes to a store.  `Move.cached` says what a move does to
a cached page; that it keeps the three properties follows.  Writing a page out early and rolling a
transaction back are not moves: each keeps two of the properties, and not the same two.
-/

namespace RowStore.Store

/-! ## Pages on the disk and pages shown -/

/-- A page as the disk has it. -/
def stored (s : Store) (page : PageId) : Except CacheError Page :=
  s.catalog.stored s.disk page

/-- The bytes of a page on the disk. -/
def storedBytes (s : Store) (page : PageId) : Except CacheError Bytes :=
  (s.stored page).map Page.data

/-- A page as a fetch returns it when the cache has room. -/
def shown (s : Store) (page : PageId) : Except CacheError Page :=
  match s.cache.find? page with
  | some frame => .ok frame.page
  | none => s.stored page

theorem storedBytes_eq_ok_iff {s : Store} {page : PageId} {data : Bytes} :
    s.storedBytes page = .ok data ↔ ∃ content, s.stored page = .ok content ∧ content.data = data := by
  unfold storedBytes
  cases s.stored page <;> simp [Except.map]

theorem fetch_eq (s : Store) (page : PageId) :
    s.fetch page = match s.cache.find? page with
      | some frame => (.ok frame.page, { s with cache := s.cache.touch page })
      | none =>
        match s.stored page with
        | .error e => (.error e, s)
        | .ok content =>
          match s.cache.makeRoom? with
          | none => (.error (.noEvictablePage s.cache.capacity), s)
          | some room => (.ok content, { s with cache := room.load content }) := by
  unfold fetch
  cases s.cache.find? page with
  | some frame => rfl
  | none =>
    unfold stored Catalog.stored
    cases s.catalog.table page.table with
    | error e => rfl
    | ok table =>
      dsimp only
      cases table.readPage s.disk page <;> rfl

/-- How a fetch can end, with what it returns and the store behind it. -/
inductive Fetched (s : Store) (page : PageId) : Except CacheError Page × Store → Prop
  /-- The page is cached. -/
  | hit {frame : Frame} (hf : s.cache.find? page = some frame) :
    Fetched s page (.ok frame.page, { s with cache := s.cache.touch page })
  /-- It is not, and cannot be read. -/
  | failed {e : CacheError} (hmiss : s.cache.find? page = none) (hstored : s.stored page = .error e) :
    Fetched s page (.error e, s)
  /-- It is read, and there is no room for it. -/
  | full {content : Page} (hmiss : s.cache.find? page = none) (hstored : s.stored page = .ok content)
    (hroom : s.cache.makeRoom? = none) :
    Fetched s page (.error (.noEvictablePage s.cache.capacity), s)
  /-- It is read and loaded. -/
  | loaded {content : Page} {room : Cache} (hmiss : s.cache.find? page = none)
    (hstored : s.stored page = .ok content) (hroom : s.cache.makeRoom? = some room) :
    Fetched s page (.ok content, { s with cache := room.load content })

theorem fetched (s : Store) (page : PageId) : s.Fetched page (s.fetch page) := by
  rw [fetch_eq]
  cases hf : s.cache.find? page with
  | some frame => exact .hit hf
  | none =>
    cases hstored : s.stored page with
    | error e => exact .failed hf hstored
    | ok content =>
      dsimp only
      cases hroom : s.cache.makeRoom? with
      | none => exact .full hf hstored hroom
      | some room => exact .loaded hf hstored hroom

/-- A page is fetched as it is shown. -/
theorem shown_of_fetch {s : Store} {page : PageId} {content : Page}
    (h : (s.fetch page).1 = .ok content) : s.shown page = .ok content := by
  have hfetched := s.fetched page
  generalize s.fetch page = out at h hfetched
  unfold shown
  cases hfetched with
  | hit hf =>
    rw [hf]
    exact h
  | failed | full => cases h
  | loaded hmiss hstored =>
    rw [hmiss, hstored]
    exact h

/-! ## The three properties -/

/-- Every cached page lies over a stored page of its table. -/
structure Seated (s : Store) : Prop where
  sound : s.catalog.Sound
  valid : s.cache.Valid
  seated : ∀ {page frame}, s.cache.find? page = some frame →
    ∃ content, s.stored page = .ok content ∧ frame.page.schema = content.schema ∧
      frame.page.data.length = content.data.length ∧
      frame.page.before.length = content.data.length

/-- Every clean cached page holds the bytes the disk has. -/
def CleanMatch (s : Store) : Prop :=
  ∀ page frame, s.cache.find? page = some frame → frame.page.dirtier = none →
    s.storedBytes page = .ok frame.page.data

/-- Every cached page falls back to the bytes the disk has. -/
def BeforeMatch (s : Store) : Prop :=
  ∀ page frame, s.cache.find? page = some frame → s.storedBytes page = .ok frame.page.before

/-- The cache agrees with the disk. -/
structure Coherent (s : Store) : Prop extends s.Seated where
  clean : s.CleanMatch
  before : s.BeforeMatch

variable {s s' : Store} {page : PageId} {frame : Frame} {content : Page}

/-- The page a stored page is stored as. -/
theorem stored_eq_ofBytes (h : s.stored page = .ok content) :
    content = Page.ofBytes page content.schema content.data :=
  Catalog.eq_ofBytes_of_stored h

theorem id_of_stored (h : s.stored page = .ok content) : content.id = page := by
  rw [stored_eq_ofBytes h]
  rfl

/-- In a coherent store a cached page falls back to the stored page. -/
theorem Coherent.stored_eq (hs : s.Coherent) (hf : s.cache.find? page = some frame) :
    s.stored page = .ok frame.page.beforeImage := by
  obtain ⟨content, hstored, hschema, -⟩ := hs.seated hf
  obtain ⟨content', hstored', hdata⟩ := storedBytes_eq_ok_iff.mp (hs.before page frame hf)
  rw [hstored, Except.ok.injEq] at hstored'
  subst hstored'
  rw [hstored, stored_eq_ofBytes hstored, Page.beforeImage, hs.valid.keyed hf, hschema, hdata]

/-- In a coherent store a clean cached page is the stored page. -/
theorem Coherent.stored_eq_of_clean (hs : s.Coherent) (hf : s.cache.find? page = some frame)
    (hclean : frame.page.dirtier = none) : s.stored page = .ok frame.page := by
  have hbefore := hs.before page frame hf
  rw [hs.clean page frame hf hclean, Except.ok.injEq] at hbefore
  rw [hs.stored_eq hf, Page.beforeImage, ← hbefore, Except.ok.injEq]
  cases hpage : frame.page
  simp_all [Page.ofBytes]

/-! ## Moves -/

/-- The least changes an operation makes to a store: a cached page is used or loaded, its rows are
changed, it is written and settled, or dropped, or an empty page is appended to a table. -/
inductive Move (s : Store) : Store → Prop
  | use {page : PageId} (hf : (s.cache.find? page).isSome) :
    Move s { s with cache := s.cache.touch page }
  | load {page : PageId} {content : Page} {room : Cache} (hmiss : s.cache.find? page = none)
    (hstored : s.stored page = .ok content) (hroom : s.cache.makeRoom? = some room) :
    Move s { s with cache := room.load content }
  | rewrite {page : PageId} {frame : Frame} {changed : Page} (tid : TransactionId)
    (hf : s.cache.find? page = some frame) (hr : frame.page.Rewrites changed) :
    Move s (s.put (changed.mark (some tid)))
  | settle {page : PageId} {frame : Frame} {disk : Disk} (hf : s.cache.find? page = some frame)
    (hw : s.writeBack frame.page = .ok disk) :
    Move s ({ s with disk }.put (frame.page.mark none).setBefore)
  | drop (page : PageId) : Move s (s.discard page)
  | grow {table : Table} {disk : Disk} (ht : s.catalog.table table.id = .ok table)
    (hw : table.writeBytes s.disk ⟨table.id, table.pageCount s.disk⟩
      (Bytes.zeros table.pageSize) = .ok disk) :
    Move s { s with disk }

@[simp] theorem catalog_of_move (h : Move s s') : s'.catalog = s.catalog := by
  cases h <;> rfl

theorem find?_discard (gone : PageId) :
    (s.discard gone).cache.find? page = if page = gone then none else s.cache.find? page :=
  Cache.find?_discard gone

theorem find?_put (hf : s.cache.find? content.id = some frame) :
    (s.put content).cache.find? page =
      if page = content.id then some { frame with page := content } else s.cache.find? page := by
  change (s.cache.put content).find? page = _
  rw [Cache.find?_put]
  split_ifs with h
  · rw [h, hf]
    rfl
  · simp

theorem writeBack_eq (hid : content.id = page) :
    s.writeBack content = match s.catalog.table page.table with
      | .error e => .error (.catalog e)
      | .ok table => (table.writeBytes s.disk page content.data).mapError .storage := by
  unfold writeBack
  rw [hid]
  cases ht : s.catalog.table page.table with
  | error e => rfl
  | ok table => simp [Table.writePage, hid, (Catalog.mem_of_table ht).1]

/-- A page is written back to the file its table is registered with. -/
theorem writeBack_eq_ok_iff {disk : Disk} (hid : content.id = page) :
    s.writeBack content = .ok disk ↔ ∃ table, s.catalog.table page.table = .ok table ∧
      table.writeBytes s.disk page content.data = .ok disk := by
  rw [writeBack_eq hid]
  cases s.catalog.table page.table with
  | error e => simp
  | ok table => cases h : table.writeBytes s.disk page content.data <;> simp [h, Except.mapError]

/-- Writing a cached page back stores its bytes, leaves every other page as it was, and keeps the
length of every file. -/
theorem stored_of_writeBack {disk : Disk} (hs : s.Seated) (hf : s.cache.find? page = some frame)
    (hw : s.writeBack frame.page = .ok disk) :
    s.catalog.stored disk page = .ok frame.page.written ∧
      (∀ other, other ≠ page → s.catalog.stored disk other = s.stored other) ∧
      ∀ file, (disk.contents file).length = (s.disk.contents file).length := by
  have hid := hs.valid.keyed hf
  obtain ⟨content, hstored, hschema, -⟩ := hs.seated hf
  obtain ⟨table, ht, hbytes⟩ := (writeBack_eq_ok_iff hid).mp hw
  obtain ⟨table', ht', data, -, rfl⟩ := Catalog.stored_eq_ok_iff.mp hstored
  obtain rfl : table = table' := Except.ok.inj (ht.symm.trans ht')
  refine ⟨?_, fun other hne => Catalog.stored_overwrite_of_ne ht hbytes hs.sound hne hstored,
    Catalog.length_overwrite ht hbytes hstored⟩
  rw [Catalog.stored_writeBytes_self ht hbytes, Page.written, hid, hschema]
  rfl

/-- A cached page can always be written back. -/
theorem writeBack_isOk (hs : s.Seated) (hf : s.cache.find? page = some frame) :
    ∃ disk, s.writeBack frame.page = .ok disk := by
  have hid := hs.valid.keyed hf
  obtain ⟨content, hstored, -, hlen, -⟩ := hs.seated hf
  obtain ⟨table, ht, data, hr, rfl⟩ := Catalog.stored_eq_ok_iff.mp hstored
  have hlength : frame.page.data.length = table.pageSize := hlen.trans (PagedFile.length_of_read hr)
  have hin := (PagedFile.read_eq_ok_iff.mp hr).1
  have hwrite : (table.pagedFile s.disk).write page frame.page.data = .ok _ :=
    PagedFile.write_eq_ok hlength (by omega)
  exact ⟨_, (writeBack_eq_ok_iff hid).mpr
    ⟨table, ht, Table.writeBytes_eq_ok_iff.mpr ⟨_, hwrite, rfl⟩⟩⟩

/-- What is cached and stored once a cached page was written back and replaced. -/
theorem cached_of_writeBack {disk : Disk} {written : PageId} {frame' : Frame} (hs : s.Seated)
    (hf : s.cache.find? written = some frame) (hw : s.writeBack frame.page = .ok disk)
    (hid : content.id = written)
    (hf' : (({ s with disk } : Store).put content).cache.find? page = some frame') :
    (page = written ∧ frame'.page = content ∧
        s.catalog.stored disk page = .ok frame.page.written) ∨
      (page ≠ written ∧ s.cache.find? page = some frame' ∧
        s.catalog.stored disk page = s.stored page) := by
  obtain ⟨hself, hother, -⟩ := stored_of_writeBack hs hf hw
  have hseat : Cache.find? ({ s with disk } : Store).cache content.id = some frame := hid ▸ hf
  rw [find?_put hseat, hid] at hf'
  split_ifs at hf' with heq
  · subst heq
    exact Or.inl ⟨rfl, by rw [← Option.some.inj hf'], hself⟩
  · exact Or.inr ⟨heq, hf', hother page heq⟩

/-- Appending a page leaves every stored page as it was. -/
theorem stored_of_grow {table : Table} {disk : Disk} (hs : s.catalog.Sound)
    (ht : s.catalog.table table.id = .ok table)
    (hw : table.writeBytes s.disk ⟨table.id, table.pageCount s.disk⟩
      (Bytes.zeros table.pageSize) = .ok disk)
    (h : s.stored page = .ok content) : s.catalog.stored disk page = .ok content := by
  have hne : page ≠ ⟨table.id, table.pageCount s.disk⟩ := by
    rintro rfl
    exact Catalog.stored_behind hs ht h
  exact Catalog.stored_writeBytes_of_ne ht hw hs hne h

/-- What a move does to a cached page: it keeps it, makes it the stored page, or changes its rows
and marks it. -/
theorem Move.cached {frame' : Frame} (h : Move s s') (hs : s.Seated)
    (hf : s'.cache.find? page = some frame') :
    (∃ frame, s.cache.find? page = some frame ∧ frame'.page = frame.page ∧
        s'.stored page = s.stored page) ∨
      s'.stored page = .ok frame'.page ∨
      ∃ frame, s.cache.find? page = some frame ∧ frame.page.Rewrites frame'.page ∧
        frame'.page.dirtier.isSome ∧ s'.stored page = s.stored page := by
  cases h with
  | use hused => exact Or.inl ⟨frame', hf, rfl, rfl⟩
  | @load loaded content room hmiss hstored hroom =>
    change (room.load content).find? page = some frame' at hf
    rw [Cache.find?_load] at hf
    rcases Option.or_eq_some_iff.mp hf with hold | ⟨-, hload⟩
    · exact Or.inl ⟨frame', Cache.find?_of_find?_makeRoom hs.valid hroom hold, rfl, rfl⟩
    · split_ifs at hload with heq
      refine Or.inr (Or.inl ?_)
      rw [← Option.some.inj hload, heq, id_of_stored hstored]
      exact hstored
  | @rewrite rewritten frame changed tid hframe hr =>
    have hid : (changed.mark (some tid)).id = rewritten := hr.id.trans (hs.valid.keyed hframe)
    rw [find?_put (hid ▸ hframe)] at hf
    split_ifs at hf with heq
    · refine Or.inr (Or.inr ⟨frame, by rw [heq, hid, hframe], ?_, ?_, rfl⟩)
      · rw [← Option.some.inj hf]
        exact ⟨hr.id, hr.schema, hr.before, hr.length⟩
      · rw [← Option.some.inj hf]
        rfl
    · exact Or.inl ⟨frame', hf, rfl, rfl⟩
  | @settle settled frame disk hframe hw =>
    have hid : ((frame.page.mark none).setBefore).id = settled := hs.valid.keyed hframe
    rcases cached_of_writeBack hs hframe hw hid hf with ⟨rfl, hpage, hstored⟩ | ⟨-, hold, hsame⟩
    · rw [hpage]
      exact Or.inr (Or.inl hstored)
    · exact Or.inl ⟨frame', hold, rfl, hsame⟩
  | drop gone =>
    rw [find?_discard] at hf
    split_ifs at hf
    refine Or.inl ⟨frame', hf, rfl, ?_⟩
    simp only [stored, discard]
  | grow ht hw =>
    obtain ⟨content, hstored, -⟩ := hs.seated hf
    refine Or.inl ⟨frame', hf, rfl, ?_⟩
    rw [hstored]
    have hgrown := stored_of_grow hs.sound ht hw hstored
    exact hgrown

theorem Move.valid (h : Move s s') (hs : s.cache.Valid) : s'.cache.Valid := by
  cases h with
  | use hused => exact hs.touch hused
  | @load page content room hmiss hstored hroom =>
    obtain ⟨hvalid, hlt⟩ := hs.makeRoom hroom
    refine hvalid.load hlt ?_
    rw [id_of_stored hstored]
    cases hfound : room.find? page with
    | none => rfl
    | some frame =>
      rw [Cache.find?_of_find?_makeRoom hs hroom hfound] at hmiss
      cases hmiss
  | rewrite tid hf hr => exact hs.put _
  | settle hf hw => exact hs.put _
  | drop gone => exact hs.discard gone
  | grow ht hw => exact hs

theorem Move.seated (h : Move s s') (hs : s.Seated) : s'.Seated := by
  refine ⟨catalog_of_move h ▸ hs.sound, h.valid hs.valid, ?_⟩
  intro page frame' hf
  rcases h.cached hs hf with ⟨frame, hold, hpage, hsame⟩ | hstored | ⟨frame, hold, hr, -, hsame⟩
  · rw [hsame, hpage]
    exact hs.seated hold
  · refine ⟨frame'.page, hstored, rfl, rfl, ?_⟩
    rw [stored_eq_ofBytes hstored]
    rfl
  · rw [hsame, hr.schema, hr.length, hr.before]
    exact hs.seated hold

theorem Move.cleanMatch (h : Move s s') (hs : s.Seated) (hc : s.CleanMatch) : s'.CleanMatch := by
  intro page frame' hf hclean
  rcases h.cached hs hf with ⟨frame, hold, hpage, hsame⟩ | hstored | ⟨frame, -, -, hdirty, -⟩
  · rw [storedBytes, hsame, hpage]
    exact hc page frame hold (hpage ▸ hclean)
  · rw [storedBytes, hstored]
    rfl
  · rw [hclean] at hdirty
    cases hdirty

theorem Move.beforeMatch (h : Move s s') (hs : s.Seated) (hb : s.BeforeMatch) :
    s'.BeforeMatch := by
  intro page frame' hf
  rcases h.cached hs hf with ⟨frame, hold, hpage, hsame⟩ | hstored | ⟨frame, hold, hr, -, hsame⟩
  · rw [storedBytes, hsame, hpage]
    exact hb page frame hold
  · rw [storedBytes, hstored, stored_eq_ofBytes hstored]
    rfl
  · rw [storedBytes, hsame, hr.before]
    exact hb page frame hold

theorem Move.coherent (h : Move s s') (hs : s.Coherent) : s'.Coherent :=
  ⟨h.seated hs.toSeated, h.cleanMatch hs.toSeated hs.clean, h.beforeMatch hs.toSeated hs.before⟩

end RowStore.Store
