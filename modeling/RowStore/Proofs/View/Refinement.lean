import RowStore.Proofs.Store.Moves
import RowStore.Proofs.View

/-!
# RowStore.Proofs.View.Refinement: the cache cannot be told

`Store.view` forgets the cache of a store.  An operation on a coherent store either answers as the
same operation on its view and leaves the view that one leaves, or it is refused because every
cached page is dirty or held; then nothing has changed but that an empty page may have been
appended to a table.
-/

namespace RowStore

/-! ## The view of a store -/

/-- Whether an error says that every cached page is dirty or held. -/
def CacheError.isRefusal : CacheError → Bool
  | .noEvictablePage _ => true
  | _ => false

def TableError.isRefusal : TableError → Bool
  | .cache e => e.isRefusal
  | _ => false

/-- Whether an operation was refused because every cached page is dirty or held. -/
def isRefused {α : Type} : Except TableError α → Bool
  | .error e => e.isRefusal
  | .ok _ => false

theorem eq_error_of_isRefused {α : Type} {result : Except TableError α}
    (h : isRefused result = true) :
    ∃ capacity, result = .error (.cache (.noEvictablePage capacity)) := by
  cases result with
  | ok value => cases h
  | error e =>
    cases e with
    | cache cause =>
      cases cause with
      | noEvictablePage capacity => exact ⟨capacity, rfl⟩
      | _ => cases h
    | _ => cases h

namespace Store

/-- The store without its cache. -/
def view (s : Store) : View where
  disk := s.disk
  catalog := s.catalog
  changed page := ((s.cache.find? page).map Frame.page).filter fun content =>
    content.dirtier.isSome

@[simp] theorem disk_view (s : Store) : s.view.disk = s.disk := rfl

@[simp] theorem catalog_view (s : Store) : s.view.catalog = s.catalog := rfl

variable {s s' : Store} {page : PageId} {frame : Frame} {content : Page} {tid : TransactionId}
  {row : Row} {table : Table}

theorem changed_eq_some_iff :
    s.view.changed page = some content ↔
      ∃ frame, s.cache.find? page = some frame ∧ frame.page = content ∧
        content.dirtier.isSome := by
  simp only [view, Option.filter_eq_some_iff, Option.map_eq_some_iff]
  constructor
  · rintro ⟨⟨frame, hf, hpage⟩, hdirty⟩
    exact ⟨frame, hf, hpage, hdirty⟩
  · rintro ⟨frame, hf, hpage, hdirty⟩
    exact ⟨⟨frame, hf, hpage⟩, hdirty⟩

/-- In a coherent store the view shows a page as a fetch with room does. -/
theorem Coherent.page_view (hs : s.Coherent) (page : PageId) : s.view.page page = s.shown page := by
  unfold View.page shown view
  cases hf : s.cache.find? page with
  | none => simp [hf, stored]
  | some frame =>
    cases hmark : frame.page.dirtier with
    | none => simpa [hf, hmark, Option.filter_some, stored] using hs.stored_eq_of_clean hf hmark
    | some tid => simp [hf, hmark, Option.filter_some]

/-- Stores have the same view when they agree on the disk and on the changed pages. -/
theorem view_eq_of {v : View} (hdisk : s.disk = v.disk) (hcatalog : s.catalog = v.catalog)
    (h : ∀ page, s.view.changed page = v.changed page) : s.view = v := by
  obtain ⟨disk, catalog, changed⟩ := v
  subst hdisk hcatalog
  exact congrArg (View.mk s.disk s.catalog) (funext h)

/-- No cached page is dirty. -/
def AllClean (s : Store) : Prop :=
  ∀ page frame, s.cache.find? page = some frame → frame.page.dirtier = none

theorem allClean_iff : s.AllClean ↔ ∀ page, s.view.changed page = none := by
  constructor
  · intro h page
    cases hchanged : s.view.changed page with
    | none => rfl
    | some content =>
      obtain ⟨frame, hf, rfl, hdirty⟩ := changed_eq_some_iff.mp hchanged
      rw [h page frame hf] at hdirty
      cases hdirty
  · intro h page frame hf
    cases hmark : frame.page.dirtier with
    | none => rfl
    | some tid =>
      have hchanged := changed_eq_some_iff.mpr ⟨frame, hf, rfl, hmark ▸ rfl⟩
      rw [h page] at hchanged
      cases hchanged

/-- While no page is dirty every page shows what the disk has. -/
theorem Coherent.shown_of_allClean (hs : s.Coherent) (h : s.AllClean) (page : PageId) :
    s.shown page = s.stored page := by
  rw [← hs.page_view, View.page, allClean_iff.mp h]
  rfl

/-- Every cached page may be evicted. -/
structure Roomy (s : Store) : Prop where
  clean : s.AllClean
  free : s.cache.handles = []

theorem view_put (hf : s.cache.find? content.id = some frame) (hdirty : content.dirtier.isSome) :
    (s.put content).view = s.view.put content := by
  refine view_eq_of rfl rfl fun page => ?_
  change (((s.put content).cache.find? page).map Frame.page).filter _ =
    if page = content.id then some content else s.view.changed page
  rw [find?_put hf]
  split_ifs
  · simp [hdirty]
  · rfl

theorem view_load {room : Cache} (hs : s.Seated) (hmiss : s.cache.find? page = none)
    (hstored : s.stored page = .ok content) (hroom : s.cache.makeRoom? = some room) :
    ({ s with cache := room.load content } : Store).view = s.view := by
  refine view_eq_of rfl rfl fun other => ?_
  change (((room.load content).find? other).map Frame.page).filter _ =
    ((s.cache.find? other).map Frame.page).filter _
  have hclean : content.dirtier = none := by
    rw [stored_eq_ofBytes hstored]
    rfl
  rw [Cache.find?_load, id_of_stored hstored]
  cases hf : s.cache.find? other with
  | some frame =>
    rcases Cache.find?_makeRoom hs.valid hroom hf with hkept | ⟨hgone, hframe⟩
    · rw [hkept]
      rfl
    · rw [hgone, if_neg (by rintro rfl; rw [hf] at hmiss; cases hmiss)]
      simp [hframe, Option.filter_some]
  | none =>
    have hnone : room.find? other = none := by
      cases hfound : room.find? other with
      | none => rfl
      | some frame =>
        rw [Cache.find?_of_find?_makeRoom hs.valid hroom hfound] at hf
        cases hf
    rw [hnone]
    split_ifs <;> simp [hclean]

theorem view_settle (hs : s.Seated) (hf : s.cache.find? page = some frame) (disk : Disk) :
    (({ s with disk } : Store).put (frame.page.mark none).setBefore).view =
      ({ s.view with disk } : View).settle page := by
  refine view_eq_of rfl rfl fun other => ?_
  have hid : (frame.page.mark none).setBefore.id = page := hs.valid.keyed hf
  have hseat : Cache.find? ({ s with disk } : Store).cache
      (frame.page.mark none).setBefore.id = some frame := hid ▸ hf
  change ((Cache.find? _ other).map Frame.page).filter _ =
    if other = page then none else s.view.changed other
  rw [find?_put hseat, hid]
  split_ifs
  · rfl
  · rfl

theorem view_discard (gone : PageId) : (s.discard gone).view = s.view.settle gone := by
  refine view_eq_of rfl rfl fun page => ?_
  change ((Cache.find? _ page).map Frame.page).filter _ =
    if page = gone then none else s.view.changed page
  rw [find?_discard]
  split_ifs <;> rfl

theorem view_abort (s : Store) (tid : TransactionId) : (s.abort tid).view = s.view.abort tid := by
  refine view_eq_of rfl rfl fun page => ?_
  change ((Cache.find? _ page).map Frame.page).filter _ =
    (((s.cache.find? page).map Frame.page).filter _).filter _
  rw [find?_abort]
  cases s.cache.find? page with
  | none => rfl
  | some frame =>
    by_cases hmark : frame.page.dirtier = some tid
    · simp [hmark, Page.beforeImage, Page.ofBytes, Option.filter_some]
    · by_cases hdirty : frame.page.dirtier.isSome <;> simp [hmark, hdirty, Option.filter_some]

/-! ## Reading -/

/-- The page behind the last of a table is not cached before it is appended. -/
theorem find?_behind (hs : s.Seated) (ht : s.catalog.table table.id = .ok table) :
    s.cache.find? ⟨table.id, table.pageCount s.disk⟩ = none := by
  cases hf : s.cache.find? ⟨table.id, table.pageCount s.disk⟩ with
  | none => rfl
  | some frame =>
    obtain ⟨content, hstored, -⟩ := hs.seated hf
    exact absurd hstored (Catalog.stored_behind hs.sound ht)

theorem fetch_refines {result : Except CacheError Page} (hs : s.Coherent)
    (h : s.fetch page = (result, s')) :
    s'.view = s.view ∧
      (result = s.view.page page ∨ ∃ capacity, result = .error (.noEvictablePage capacity)) := by
  rw [hs.page_view, shown]
  have hfetched := s.fetched page
  rw [h] at hfetched
  cases hfetched with
  | hit hf => exact ⟨rfl, Or.inl (by rw [hf])⟩
  | failed hmiss hstored => exact ⟨rfl, Or.inl (by rw [hmiss, hstored])⟩
  | full => exact ⟨rfl, Or.inr ⟨_, rfl⟩⟩
  | loaded hmiss hstored hroom =>
    exact ⟨view_load hs.toSeated hmiss hstored hroom, Or.inl (by rw [hmiss, hstored])⟩

/-! ## Changing rows -/

/-- An operation on a store whose view was `v` does what `reference` does to the view, or it is
refused and leaves the view as it was. -/
def Refines {α : Type} (v : View) (outcome : Except TableError α × Store)
    (reference : Except TableError α × View) : Prop :=
  (outcome.1, outcome.2.view) = reference ∨ isRefused outcome.1 = true ∧ outcome.2.view = v

/-- An operation that succeeds was not refused. -/
theorem Refines.of_ok {α : Type} {v : View} {value : α} {reference : Except TableError α × View}
    (h : Refines v (.ok value, s) reference) : reference = (.ok value, s.view) := by
  rcases h with hsame | ⟨hrefused, -⟩
  · exact hsame.symm
  · cases hrefused

/-- A page that was fetched is cached under the identity of what it is changed to. -/
theorem find?_of_fetch_rewrites {changed : Page} (hs : s.cache.Valid)
    (hfetch : s.fetch page = (.ok content, s')) (hr : content.Rewrites changed)
    (tid : TransactionId) :
    ∃ frame, s'.cache.find? (changed.mark (some tid)).id = some frame := by
  obtain ⟨frame, hf, hcontent⟩ := find?_of_fetch hs hfetch
  have hs' := Moves.valid (moves_fetch s page) hs
  rw [hfetch] at hs'
  have hid : (changed.mark (some tid)).id = page := by
    rw [← hs'.keyed hf, hcontent]
    exact hr.id
  exact ⟨frame, hid ▸ hf⟩

theorem insertInPage_refines (hs : s.Coherent) (tid : TransactionId) (page : PageId) (row : Row) :
    Refines s.view (s.insertInPage tid page row) (s.view.insertInPage tid page row) := by
  unfold insertInPage View.insertInPage
  cases hfetch : s.fetch page with
  | mk result s' =>
    obtain ⟨hview, rfl | ⟨capacity, rfl⟩⟩ := fetch_refines hs hfetch
    · cases hpage : s.view.page page with
      | error e => exact Or.inl (by rw [← hview])
      | ok content =>
        dsimp only
        split_ifs
        · exact Or.inl (by rw [← hview])
        · cases hinsert : content.insert row with
          | error e => exact Or.inl (by rw [← hview])
          | ok out =>
            obtain ⟨record, changed⟩ := out
            rw [hpage] at hfetch
            obtain ⟨frame, hf⟩ := find?_of_fetch_rewrites hs.valid hfetch
              (Page.rewrites_of_insert hinsert) tid
            refine Or.inl ?_
            dsimp only
            rw [view_put hf rfl, hview]
    · exact Or.inr ⟨rfl, hview⟩

theorem insertInPages_refines (tid : TransactionId) (row : Row) :
    ∀ (pages : List PageId) {s : Store}, s.Coherent →
      Refines s.view (insertInPages tid row pages s) (View.insertInPages tid row pages s.view)
  | [], _, _ => Or.inl rfl
  | page :: pages, s, hs => by
    have hfirst := insertInPage_refines hs tid page row
    have hmoves := moves_insertInPage hs.valid tid page row
    unfold insertInPages View.insertInPages
    cases hinsert : s.insertInPage tid page row with
    | mk result s' =>
      rw [hinsert] at hfirst hmoves
      rcases hfirst with hsame | ⟨hrefused, hkept⟩
      · rw [← hsame]
        rcases result with e | _ | record
        · exact Or.inl rfl
        · have hrest := insertInPages_refines tid row pages (Moves.coherent hmoves hs)
          rwa [View.insertInPage_none hsame.symm] at hrest ⊢
        · exact Or.inl rfl
      · obtain ⟨capacity, rfl⟩ := eq_error_of_isRefused hrefused
        exact Or.inr ⟨rfl, hkept⟩

/-- The page appended to a table has room, and only one attempt is ever needed. -/
theorem insertInPage_behind {disk : Disk} {s₂ : Store} (hs : s.Coherent)
    (ht : s.catalog.table table.id = .ok table)
    (hw : table.writeBytes s.disk ⟨table.id, table.pageCount s.disk⟩
      (Bytes.zeros table.pageSize) = .ok disk) :
    insertInPage { s with disk } tid ⟨table.id, table.pageCount s.disk⟩ row ≠ (.ok none, s₂) := by
  intro h
  have hgrown : Coherent { s with disk } := (Move.grow ht hw).coherent hs
  unfold insertInPage at h
  cases hfetch : fetch { s with disk } ⟨table.id, table.pageCount s.disk⟩ with
  | mk result s₁ =>
    rcases result with e | content
    · simp [hfetch] at h
    · obtain ⟨-, hcontent | ⟨capacity, hrefused⟩⟩ := fetch_refines hgrown hfetch
      · rw [hgrown.page_view, shown, find?_behind hs.toSeated ht] at hcontent
        have hstored := Catalog.stored_writeBytes_self ht hw
        change s.catalog.stored disk _ = _ at hstored
        change _ = s.catalog.stored disk _ at hcontent
        rw [hstored, Except.ok.injEq] at hcontent
        have hslots : content.slots ≠ 0 := by
          have hopened := (hs.sound.table ht).2
          rw [hcontent]
          simpa [Page.slots, Page.geometry, Page.ofBytes, Table.slotsPerPage] using hopened
        have hfree : content.firstFree? = some 0 :=
          Page.firstFree?_of_zeros (by rw [hcontent]; rfl) hslots
        simp only [hfetch, hfree] at h
        cases hinsert : content.insert row <;> simp [hinsert] at h
      · cases hrefused

/-- An insert that is refused may have appended an empty page. -/
theorem insertInTable_refines (hs : s.Coherent) (ht : s.catalog.table table.id = .ok table)
    (tid : TransactionId) (row : Row) :
    Refines s.view (s.insertInTable table tid row) (s.view.insertInTable table tid row) ∨
      isRefused (s.insertInTable table tid row).1 ∧
        s.view.Grows (s.insertInTable table tid row).2.view := by
  have hsweep := insertInPages_refines tid row (table.firstPages (table.pageCount s.disk)) hs
  have hmoves := moves_insertInPages tid row (table.firstPages (table.pageCount s.disk))
    hs.valid
  have hdisk := disk_insertInPages tid row (table.firstPages (table.pageCount s.disk)) s
  unfold insertInTable View.insertInTable insertGrowing
  simp only [disk_view]
  split_ifs
  · cases hinsert : insertInPages tid row (table.firstPages (table.pageCount s.disk)) s with
    | mk result s₁ =>
      rw [hinsert] at hsweep hmoves hdisk
      rcases hsweep with hsame | ⟨hrefused, hkept⟩
      · rw [← hsame]
        rcases result with e | _ | record
        · exact Or.inl (Or.inl rfl)
        · have hview := View.insertInPages_none hsame.symm
          dsimp only at hview hdisk ⊢
          rw [← hdisk, disk_view]
          cases hwrite : table.writeBytes s₁.disk ⟨table.id, table.pageCount s₁.disk⟩
              (Bytes.zeros table.pageSize) with
          | error e => exact Or.inl (Or.inl rfl)
          | ok disk =>
            have hs₁ : s₁.Coherent := Moves.coherent hmoves hs
            have ht₁ : s₁.catalog.table table.id = .ok table := by rwa [Moves.catalog hmoves]
            have hgrown : Coherent { s₁ with disk } := (Move.grow ht₁ hwrite).coherent hs₁
            have hlast := insertInPage_refines hgrown tid
              ⟨table.id, table.pageCount s₁.disk⟩ row
            dsimp only
            cases hlast' : insertInPage { s₁ with disk } tid
                ⟨table.id, table.pageCount s₁.disk⟩ row with
            | mk result s₂ =>
              rw [hlast'] at hlast
              rcases hlast with hsame₂ | ⟨hrefused, hkept⟩
              · change _ = View.insertInPage { s₁.view with disk } _ _ _ at hsame₂
                rw [← hsame₂]
                rcases result with e | _ | record
                · exact Or.inl (Or.inl rfl)
                · exact absurd hlast' (insertInPage_behind hs₁ ht₁ hwrite)
                · exact Or.inl (Or.inl rfl)
              · obtain ⟨capacity, rfl⟩ := eq_error_of_isRefused hrefused
                refine Or.inr ⟨rfl, ?_⟩
                rw [← hview]
                exact ⟨table, disk, ht₁, hwrite, hkept⟩
        · exact Or.inl (Or.inl rfl)
      · obtain ⟨capacity, rfl⟩ := eq_error_of_isRefused hrefused
        exact Or.inl (Or.inr ⟨rfl, hkept⟩)
  · exact Or.inl (Or.inl rfl)

theorem insertRow_refines (hs : s.Coherent) (tid : TransactionId) (id : TableId) (row : Row) :
    Refines s.view (s.insertRow tid id row) (s.view.insertRow tid id row) ∨
      isRefused (s.insertRow tid id row).1 ∧ s.view.Grows (s.insertRow tid id row).2.view := by
  unfold insertRow View.insertRow
  rw [catalog_view]
  cases ht : s.catalog.table id with
  | error e => exact Or.inl (Or.inl rfl)
  | ok table =>
    rw [← (Catalog.mem_of_table ht).1] at ht
    exact insertInTable_refines hs ht tid row

theorem deleteFromTable_refines (hs : s.Coherent) (table : Table) (tid : TransactionId)
    (row : Row) :
    Refines s.view (s.deleteFromTable table tid row) (s.view.deleteFromTable table tid row) := by
  unfold deleteFromTable View.deleteFromTable
  cases row.record with
  | none => exact Or.inl rfl
  | some record =>
    dsimp only
    by_cases hforeign : record.page.table ≠ table.id
    · rw [if_pos hforeign, if_pos hforeign]
      exact Or.inl rfl
    rw [if_neg hforeign, if_neg hforeign]
    by_cases hpast : table.pageCount s.disk ≤ record.page.number
    · rw [if_pos hpast, if_pos (show table.pageCount s.view.disk ≤ _ from hpast)]
      exact Or.inl rfl
    rw [if_neg hpast, if_neg (show ¬ table.pageCount s.view.disk ≤ _ from hpast)]
    cases hfetch : s.fetch record.page with
    | mk result s' =>
      obtain ⟨hview, rfl | ⟨capacity, rfl⟩⟩ := fetch_refines hs hfetch
      · cases hpage : s.view.page record.page with
        | error e => exact Or.inl (by rw [← hview])
        | ok content =>
          dsimp only
          cases hdelete : content.delete row with
          | error e => exact Or.inl (by rw [← hview])
          | ok changed =>
            rw [hpage] at hfetch
            obtain ⟨frame, hf⟩ := find?_of_fetch_rewrites hs.valid hfetch
              (Page.rewrites_of_delete hdelete) tid
            refine Or.inl ?_
            dsimp only
            rw [view_put hf rfl, hview]
      · exact Or.inr ⟨rfl, hview⟩

theorem deleteRow_refines (hs : s.Coherent) (tid : TransactionId) (row : Row) :
    Refines s.view (s.deleteRow tid row) (s.view.deleteRow tid row) := by
  unfold deleteRow View.deleteRow
  rw [catalog_view]
  cases row.record with
  | none => exact Or.inl rfl
  | some record =>
    dsimp only
    cases s.catalog.table record.page.table with
    | error e => exact Or.inl rfl
    | ok table => exact deleteFromTable_refines hs table tid row

/-! ## Committing -/

/-- A commit on a coherent store never fails. -/
theorem commitPages_refines (tid : TransactionId) :
    ∀ (pages : List PageId) {s : Store}, s.Coherent →
      (commitPages tid pages s).1 = .ok () ∧
        View.commitPages tid pages s.view = (.ok (), (commitPages tid pages s).2.view)
  | [], _, _ => ⟨rfl, rfl⟩
  | page :: pages, s, hs => by
    unfold commitPages View.commitPages
    cases hf : s.cache.find? page with
    | none =>
      have hnone : s.view.changed page = none := by simp [view, hf]
      rw [hnone]
      exact commitPages_refines tid pages hs
    | some frame =>
      dsimp only
      split_ifs with hmark
      · have hsome : s.view.changed page = some frame.page :=
          changed_eq_some_iff.mpr ⟨frame, hf, rfl, hmark ▸ rfl⟩
        obtain ⟨disk, hwrite⟩ := writeBack_isOk hs.toSeated hf
        have hrest := commitPages_refines tid pages ((Move.settle hf hwrite).coherent hs)
        rw [view_settle hs.toSeated hf disk] at hrest
        have hwrite' : s.view.writeBack frame.page = .ok disk := hwrite
        rw [hwrite, hsome]
        dsimp only
        rw [if_pos hmark, hwrite']
        exact hrest
      · have hrest := commitPages_refines tid pages hs
        cases hchanged : s.view.changed page with
        | none => exact hrest
        | some content =>
          obtain ⟨frame', hf', rfl, -⟩ := changed_eq_some_iff.mp hchanged
          rw [hf, Option.some.injEq] at hf'
          subst hf'
          dsimp only
          rwa [if_neg hmark]

/-! ## Cursors -/

theorem fill_refines (remaining : Nat) (cursor : Cursor) {s : Store} (hs : s.Coherent) :
    (cursor.fill remaining s).2.2.view = s.view ∧
      (((cursor.fill remaining s).1, (cursor.fill remaining s).2.1) = s.view.fill remaining cursor ∨
        isRefused (cursor.fill remaining s).1) := by
  induction remaining generalizing cursor s with
  | zero => exact ⟨rfl, Or.inl rfl⟩
  | succ remaining ih =>
    unfold Cursor.fill View.fill
    cases hfetch : s.fetch ⟨cursor.table.id, cursor.next⟩ with
    | mk result s' =>
      obtain ⟨hview, rfl | ⟨capacity, rfl⟩⟩ := fetch_refines hs hfetch
      · cases hpage : s.view.page ⟨cursor.table.id, cursor.next⟩ with
        | error e => exact ⟨hview, Or.inl rfl⟩
        | ok content =>
          dsimp only
          cases hrows : content.rows with
          | error e => exact ⟨hview, Or.inl rfl⟩
          | ok rows =>
            cases rows with
            | nil =>
              have hs' := (moves_fetch s ⟨cursor.table.id, cursor.next⟩).coherent hs
              rw [hfetch] at hs'
              have hrest := ih { cursor with next := cursor.next + 1 } hs'
              rwa [hview] at hrest
            | cons first rest => exact ⟨hview, Or.inl rfl⟩
      · exact ⟨hview, Or.inr rfl⟩

theorem hasNext_refines (hs : s.Coherent) (cursor : Cursor) :
    (cursor.hasNext s).2.2.view = s.view ∧
      (((cursor.hasNext s).1, (cursor.hasNext s).2.1) = s.view.hasNext cursor ∨
        isRefused (cursor.hasNext s).1) := by
  unfold Cursor.hasNext View.hasNext
  split_ifs
  · exact ⟨rfl, Or.inl rfl⟩
  · exact fill_refines _ cursor hs
  · exact ⟨rfl, Or.inl rfl⟩

theorem pull_refines (hs : s.Coherent) (cursor : Cursor) :
    (cursor.pull s).2.2.view = s.view ∧
      (((cursor.pull s).1, (cursor.pull s).2.1) = s.view.pull cursor ∨
        isRefused (cursor.pull s).1) := by
  obtain ⟨hview, hresult⟩ := hasNext_refines hs cursor
  unfold Cursor.pull View.pull
  cases hnext : cursor.hasNext s with
  | mk result rest =>
    obtain ⟨cursor', s'⟩ := rest
    rw [hnext] at hview hresult
    rcases hresult with hsame | hrefused
    · rw [← hsame]
      rcases result with e | more
      · exact ⟨hview, Or.inl rfl⟩
      · cases more <;> exact ⟨hview, Or.inl rfl⟩
    · obtain ⟨capacity, rfl⟩ := eq_error_of_isRefused hrefused
      exact ⟨hview, Or.inr rfl⟩

end Store

end RowStore
