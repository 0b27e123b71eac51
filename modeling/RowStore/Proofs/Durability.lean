import RowStore.Proofs.Session
import RowStore.Proofs.View.Effects

/-!
# RowStore.Proofs.Durability: when a committed row stays

A row is `StoredAt` a record when the disk holds its stored form there, and `ShownAt` it when a
fetch finds it there.  A row that is both stays both whatever happens, unless it is deleted.  A
page remembers only the transaction that changed it last, so a commit makes a row that is shown
stored exactly when that transaction is the one that commits.  `durable_iff` says which rows a
commit makes durable; a row on a page that another transaction has changed since is not among
them.
-/

namespace RowStore

/-! ## Rows on the disk and rows shown -/

namespace View

variable {v v' : View} {record other : RecordId} {bytes : Bytes} {tid : TransactionId} {row : Row}

def ShownAt (v : View) (record : RecordId) (bytes : Bytes) : Prop :=
  ∃ content, v.page record.page = .ok content ∧ content.Holds record.slot bytes

theorem ShownAt.grows (h : v.ShownAt record bytes) (hg : v.Grows v') (hs : v.catalog.Sound) :
    v'.ShownAt record bytes := by
  obtain ⟨content, hpage, hholds⟩ := h
  refine ⟨content, ?_, hholds⟩
  unfold View.page at hpage ⊢
  rw [hg.changed]
  cases hchanged : v.changed record.page with
  | some changed => rwa [hchanged] at hpage
  | none =>
    rw [hchanged] at hpage
    exact hg.stored_of_stored hs hpage

/-- Changing one page leaves the rows on all others, and those on it that the change leaves. -/
theorem ShownAt.put {changed : Page} (h : v.ShownAt record bytes)
    (hchanged : changed.id = record.page → ∀ content, v.page record.page = .ok content →
      content.Holds record.slot bytes → changed.Holds record.slot bytes) :
    (v.put changed).ShownAt record bytes := by
  obtain ⟨content, hpage, hholds⟩ := h
  by_cases hid : record.page = changed.id
  · refine ⟨changed, ?_, hchanged hid.symm content hpage hholds⟩
    simp [View.page, View.put, hid]
  · refine ⟨content, ?_, hholds⟩
    rw [← hpage]
    simp [View.page, View.put, hid]

theorem ShownAt.inserts (h : v.ShownAt record bytes) (hk : v.Keyed)
    (hi : v.Inserts v' tid row other) : v'.ShownAt record bytes := by
  obtain ⟨content, changed, hpage, hinsert, rfl⟩ := hi
  refine h.put fun hid content' hpage' hholds => ?_
  have hsame : other.page = record.page := by
    rw [← hid, ← hk.id_of_page hpage]
    exact (Page.rewrites_of_insert hinsert).id.symm
  rw [← hsame, hpage, Except.ok.injEq] at hpage'
  subst hpage'
  exact Page.holds_mark.mpr (Page.holds_insert hinsert hholds)

theorem ShownAt.deletes (h : v.ShownAt record bytes) (hk : v.Keyed)
    (hd : v.Deletes v' tid row other) (hne : other ≠ record) : v'.ShownAt record bytes := by
  obtain ⟨hrow, content, changed, hpage, hdelete, rfl⟩ := hd
  refine h.put fun hid content' hpage' hholds => ?_
  have hsame : other.page = record.page := by
    rw [← hid, ← hk.id_of_page hpage]
    exact (Page.rewrites_of_delete hdelete).id.symm
  rw [← hsame, hpage, Except.ok.injEq] at hpage'
  subst hpage'
  refine Page.holds_mark.mpr (Page.holds_delete hdelete ?_ hholds)
  rw [hrow, hk.id_of_page hpage, hsame]
  intro heq
  exact hne (Option.some.inj heq)

/-- A row that was inserted is shown where the insert says. -/
theorem Inserts.shownAt (hi : v.Inserts v' tid row record) (hk : v.Keyed) (hrow : row.WellTyped)
    (hbytes : row.encode = .ok bytes) : v'.ShownAt record bytes := by
  obtain ⟨content, changed, hpage, hinsert, rfl⟩ := hi
  have hid : changed.id = record.page :=
    (Page.rewrites_of_insert hinsert).id.trans (hk.id_of_page hpage)
  refine ⟨changed.mark (some tid), ?_, ?_⟩
  · have hput : record.page = (changed.mark (some tid)).id := hid.symm
    simp [View.page, View.put, hput]
  · exact Page.holds_mark.mpr
      (Page.holds_insert_self hinsert hbytes (Page.length_encode hrow hbytes))

/-- The rows of a page are among those a scan that passes over it finds. -/
theorem mem_rowsFrom {table : TableId} {next count number : Nat} {rows : List Row}
    {content : Page} (h : v.rowsFrom table next count = .ok rows) (hle : next ≤ number)
    (hlt : number < next + count) (hpage : v.page ⟨table, number⟩ = .ok content) :
    ∃ found, content.rows = .ok found ∧ ∀ row ∈ found, row ∈ rows := by
  induction count generalizing next rows with
  | zero => omega
  | succ count ih =>
    rw [rowsFrom] at h
    cases hfirst : v.page ⟨table, next⟩ with
    | error e => simp [hfirst] at h
    | ok first =>
      simp only [hfirst] at h
      cases hrows : first.rows with
      | error e => simp [hrows] at h
      | ok found =>
        simp only [hrows] at h
        cases hrest : v.rowsFrom table (next + 1) count with
        | error e => simp [hrest, Except.map] at h
        | ok rest =>
          simp only [hrest, Except.map, Except.ok.injEq] at h
          subst h
          by_cases heq : number = next
          · subst heq
            rw [hfirst, Except.ok.injEq] at hpage
            subst hpage
            exact ⟨found, hrows, fun row hrow => List.mem_append_left _ hrow⟩
          · obtain ⟨found', hfound', hin⟩ := ih hrest (by omega) (by omega)
            exact ⟨found', hfound', fun row hrow => List.mem_append_right _ (hin row hrow)⟩

end View

namespace Store

variable {s t : Store} {record : RecordId} {bytes : Bytes} {tid : TransactionId}

/-- The disk holds a row with this stored form at the record. -/
def StoredAt (s : Store) (record : RecordId) (bytes : Bytes) : Prop :=
  ∃ content, s.stored record.page = .ok content ∧ content.Holds record.slot bytes

/-- A fetch with room finds a row with this stored form at the record. -/
def ShownAt (s : Store) (record : RecordId) (bytes : Bytes) : Prop :=
  ∃ content, s.shown record.page = .ok content ∧ content.Holds record.slot bytes

/-- The page is cached and was last changed by this transaction, which has not finished. -/
def ChangedBy (s : Store) (page : PageId) (tid : TransactionId) : Prop :=
  ∃ frame, s.cache.find? page = some frame ∧ frame.page.dirtier = some tid

theorem Coherent.shownAt_view (hs : s.Coherent) :
    s.view.ShownAt record bytes ↔ s.ShownAt record bytes := by
  unfold View.ShownAt ShownAt
  rw [hs.page_view]

theorem changedBy_iff {page : PageId} : s.ChangedBy page tid ↔
    ∃ content, s.view.changed page = some content ∧ content.dirtier = some tid := by
  constructor
  · rintro ⟨frame, hf, hmark⟩
    exact ⟨frame.page, changed_eq_some_iff.mpr ⟨frame, hf, rfl, hmark ▸ rfl⟩, hmark⟩
  · rintro ⟨content, hchanged, hmark⟩
    obtain ⟨frame, hf, rfl, -⟩ := changed_eq_some_iff.mp hchanged
    exact ⟨frame, hf, hmark⟩

/-- Appending empty pages stores no row and loses none. -/
theorem storedAt_iff_of_extends (hcatalog : t.catalog = s.catalog)
    (h : View.Extends s.catalog s.disk t.disk) :
    t.StoredAt record bytes ↔ s.StoredAt record bytes := by
  unfold StoredAt stored
  rw [hcatalog]
  constructor
  · rintro ⟨content, hstored, hholds⟩
    rcases h.zeros _ _ hstored with hold | ⟨-, count, hzeros⟩
    · exact ⟨content, hold, hholds⟩
    · exact absurd hholds (Page.not_holds_of_zeros hzeros)
  · rintro ⟨content, hstored, hholds⟩
    exact ⟨content, h.stored _ _ hstored, hholds⟩

theorem WritesOut.shownAt_iff (h : WritesOut tid s t) :
    t.view.ShownAt record bytes ↔ s.view.ShownAt record bytes := by
  unfold View.ShownAt
  rcases Page.written_eq_or_error (h.shown record.page) with
    ⟨e, hnew, hold⟩ | ⟨new, old, hnew, hold, hwritten⟩
  · rw [hnew, hold]
  · have hiff : new.Holds record.slot bytes ↔ old.Holds record.slot bytes := by
      rw [← Page.holds_written, hwritten, Page.holds_written]
    rw [hnew, hold]
    simpa using hiff

/-- What a commit stores at a record: what is shown there when the page was last changed by the
transaction that commits, and what was stored before when not. -/
theorem storedAt_commit_iff (hs : s.Coherent) :
    (s.commit tid).2.StoredAt record bytes ↔
      (s.ChangedBy record.page tid ∧ s.ShownAt record bytes) ∨
        (¬ s.ChangedBy record.page tid ∧ s.StoredAt record bytes) := by
  obtain ⟨-, hwrites, hnone⟩ := commit_spec hs tid
  by_cases hby : s.ChangedBy record.page tid
  · have hgone : (s.commit tid).2.view.changed record.page = none := by
      obtain ⟨content, hchanged, hmark⟩ := changedBy_iff.mp hby
      rcases hwrites.changed record.page with hsame | ⟨-, hgone⟩
      · exact absurd hmark (hnone _ _ (hsame.trans hchanged))
      · exact hgone
    have hstored : (s.commit tid).2.stored record.page =
        (s.commit tid).2.view.page record.page := by
      rw [View.page, hgone]
      rfl
    have hiff : (s.commit tid).2.view.ShownAt record bytes ↔ s.ShownAt record bytes :=
      hwrites.shownAt_iff.trans hs.shownAt_view
    simp only [hby, true_and, not_true_eq_false, false_and, or_false]
    rw [← hiff, StoredAt, hstored]
    rfl
  · have hstored := hwrites.stored record.page fun content hchanged hmark =>
      hby (changedBy_iff.mpr ⟨content, hchanged, hmark⟩)
    simp only [hby, false_and, not_false_eq_true, true_and, false_or]
    rw [StoredAt, hstored]
    rfl

/-- A row that is stored and shown is still shown after an abort. -/
theorem shownAt_abort (hs : s.Coherent) (hstored : s.StoredAt record bytes)
    (hshown : s.ShownAt record bytes) (tid : TransactionId) :
    (s.abort tid).ShownAt record bytes := by
  rw [← (hs.abort tid).shownAt_view, view_abort]
  rw [← hs.shownAt_view] at hshown
  unfold View.ShownAt View.page View.abort at *
  dsimp only
  cases hchanged : s.view.changed record.page with
  | none => exact hstored
  | some content =>
    rw [hchanged] at hshown
    by_cases hmark : content.dirtier = some tid
    · simpa [Option.filter_some, hmark, StoredAt, stored] using hstored
    · simpa [Option.filter_some, hmark] using hshown

end Store

/-! ## Rows through a history -/

namespace Session

variable {x : Session} {request : Request} {requests : List Request} {record : RecordId}
variable {bytes : Bytes}

/-- Whether a request deletes the row at a record. -/
def deletes (x : Session) (record : RecordId) (request : Request) : Bool :=
  match request with
  | .delete _ row => (x.respond request).1.isOk && row.record = some record
  | _ => false

/-- Whether nobody deletes the row at a record in a history. -/
def spares (x : Session) (record : RecordId) : List Request → Bool
  | [] => true
  | request :: requests =>
    !x.deletes record request && (x.respond request).2.spares record requests

/-- Without commits nothing is stored and nothing is lost. -/
theorem storedAt_respond_iff (hs : x.store.Coherent) (hquiet : request.isQuiet = true)
    (hcommit : ∀ tid, request ≠ .commit tid) :
    (x.respond request).2.store.StoredAt record bytes ↔ x.store.StoredAt record bytes := by
  by_cases hread : request.isRead = true
  · have hview := view_respond hs hread
    have hcatalog : (x.respond request).2.store.catalog = x.store.catalog :=
      congrArg View.catalog hview
    have hdisk : (x.respond request).2.store.disk = x.store.disk := congrArg View.disk hview
    exact Store.storedAt_iff_of_extends hcatalog (hdisk ▸ .refl _ _)
  · cases request with
    | insert tid id row =>
      exact Store.storedAt_iff_of_extends
        (Store.Moves.catalog (Store.moves_insertRow hs.valid tid id row))
        (Store.extends_insertRow hs tid id row)
    | delete tid row =>
      have hdisk := Store.disk_deleteRow hs tid row
      exact Store.storedAt_iff_of_extends
        (Store.Moves.catalog (Store.moves_deleteRow hs.valid tid row)) (hdisk ▸ .refl _ _)
    | commit tid => exact absurd rfl (hcommit tid)
    | abort tid => exact Iff.rfl
    | flush page => cases hquiet
    | flushAll => cases hquiet
    | discard page => cases hquiet
    | _ => exact absurd rfl hread

/-- A row that is stored and shown is still shown after any request that does not delete it. -/
theorem shownAt_respond (hs : x.store.Coherent) (hquiet : request.isQuiet = true)
    (hspare : x.deletes record request = false) (hstored : x.store.StoredAt record bytes)
    (hshown : x.store.ShownAt record bytes) :
    (x.respond request).2.store.ShownAt record bytes := by
  have hs' : (x.respond request).2.store.Coherent :=
    coherent_respond hs (Request.isFlush_of_isQuiet hquiet)
  have hview := hs.shownAt_view.mpr hshown
  rw [← hs'.shownAt_view]
  by_cases hread : request.isRead = true
  · rw [view_respond hs hread]
    exact hview
  · cases request with
    | insert tid id row =>
      obtain ⟨grown, hgrown, hrest⟩ :=
        Store.insertRow_spec hs (Prod.eta (x.store.insertRow tid id row)).symm
      have hkeyed : grown.Keyed := hs.keyed_view.of_changed (View.changed_of_grown hgrown)
      have hkept : grown.ShownAt record bytes := by
        rcases hgrown with rfl | hgrows
        · exact hview
        · exact hview.grows hgrows hs.sound
      rcases hrest with ⟨hsame, -⟩ | ⟨other, -, -, -, -, hinserts⟩
      · change View.ShownAt (x.store.insertRow tid id row).2.view record bytes
        rw [hsame]
        exact hkept
      · exact hkept.inserts hkeyed hinserts
    | delete tid row =>
      rcases Store.deleteRow_spec hs (Prod.eta (x.store.deleteRow tid row)).symm with
        ⟨hsame, -⟩ | ⟨other, hok, hdeletes⟩
      · change View.ShownAt (x.store.deleteRow tid row).2.view record bytes
        rw [hsame]
        exact hview
      · refine hview.deletes hs.keyed_view hdeletes ?_
        rintro rfl
        simp [Session.deletes, respond, Response.isOk, hok, hdeletes.1, Except.isOk,
          Except.toBool] at hspare
    | commit tid => exact (Store.commit_spec hs tid).2.1.shownAt_iff.mpr hview
    | abort tid => exact hs'.shownAt_view.mpr (Store.shownAt_abort hs hstored hshown tid)
    | flush page => cases hquiet
    | flushAll => cases hquiet
    | discard page => cases hquiet
    | _ => exact absurd rfl hread

theorem storedAt_respond (hs : x.store.Coherent) (hquiet : request.isQuiet = true)
    (hstored : x.store.StoredAt record bytes) (hshown : x.store.ShownAt record bytes) :
    (x.respond request).2.store.StoredAt record bytes := by
  by_cases hcommit : ∃ tid, request = .commit tid
  · obtain ⟨tid, rfl⟩ := hcommit
    refine (Store.storedAt_commit_iff hs).mpr ?_
    by_cases hby : x.store.ChangedBy record.page tid
    · exact Or.inl ⟨hby, hshown⟩
    · exact Or.inr ⟨hby, hstored⟩
  · exact (storedAt_respond_iff hs hquiet (by simpa using hcommit)).mpr hstored

/-- A row that is shown if it is stored is so after any request that does not delete it. -/
theorem shownAt_respond_of_stored (hs : x.store.Coherent) (hquiet : request.isQuiet = true)
    (hspare : x.deletes record request = false)
    (hbacked : x.store.StoredAt record bytes → x.store.ShownAt record bytes)
    (hstored : (x.respond request).2.store.StoredAt record bytes) :
    (x.respond request).2.store.ShownAt record bytes := by
  by_cases hcommit : ∃ tid, request = .commit tid
  · obtain ⟨tid, rfl⟩ := hcommit
    rcases (Store.storedAt_commit_iff hs).mp hstored with ⟨-, hshown⟩ | ⟨-, hold⟩
    · have hs' := coherent_respond hs (Request.isFlush_of_isQuiet hquiet)
      exact hs'.shownAt_view.mp
        ((Store.commit_spec hs tid).2.1.shownAt_iff.mpr (hs.shownAt_view.mpr hshown))
    · exact shownAt_respond hs hquiet hspare hold (hbacked hold)
  · have hold := (storedAt_respond_iff hs hquiet (by simpa using hcommit)).mp hstored
    exact shownAt_respond hs hquiet hspare hold (hbacked hold)

/-- Whatever every request that spares a record keeps holds after a history that spares it. -/
theorem spares_keeps {keeps : Session → Prop}
    (hkeep : ∀ {x : Session} {request : Request}, x.store.Coherent → request.isQuiet = true →
      x.deletes record request = false → keeps x → keeps (x.respond request).2)
    (hs : x.store.Coherent) (hquiet : ∀ request ∈ requests, request.isQuiet = true)
    (hspares : x.spares record requests = true) (hx : keeps x) : keeps (x.after requests) := by
  induction requests generalizing x with
  | nil => exact hx
  | cons request requests ih =>
    simp only [spares, Bool.and_eq_true, Bool.not_eq_true'] at hspares
    have hfirst := hquiet request List.mem_cons_self
    exact ih (coherent_respond hs (Request.isFlush_of_isQuiet hfirst))
      (fun r hr => hquiet r (List.mem_cons_of_mem request hr)) hspares.2
      (hkeep hs hfirst hspares.1 hx)

end Session

/-! ## Durability -/

namespace Store

variable {s : Store} {record : RecordId} {bytes : Bytes}

/-- A row with this stored form is at the record for good: the disk holds it, every full scan
returns it, and so does every full scan of a fresh store on the disk, which is never refused. -/
structure Durable (s : Store) (record : RecordId) (bytes : Bytes) : Prop where
  stored : s.StoredAt record bytes
  scan : ∀ table, s.catalog.table record.page.table = .ok table → ∀ rows,
    s.scan table = .ok rows → ∃ row, (Row.decode table.schema bytes).1 = .ok row ∧
      row.withRecord (some record) ∈ rows
  fresh : ∀ other : Store, other.Fresh → other.disk = s.disk → other.catalog = s.catalog →
    ∀ table, s.catalog.table record.page.table = .ok table →
      isRefused (other.scan table) = false ∧ ∀ rows, other.scan table = .ok rows →
        ∃ row, (Row.decode table.schema bytes).1 = .ok row ∧ row.withRecord (some record) ∈ rows

/-- A full scan returns the rows that are shown. -/
theorem mem_scan_of_shownAt {table : Table} {rows : List Row} (hs : s.Coherent)
    (ht : s.catalog.table record.page.table = .ok table) (hshown : s.ShownAt record bytes)
    (h : s.scan table = .ok rows) :
    ∃ row, (Row.decode table.schema bytes).1 = .ok row ∧ row.withRecord (some record) ∈ rows := by
  obtain ⟨content, hcontent, hused, hbytes⟩ := hshown
  have hid : table.id = record.page.table := (Catalog.mem_of_table ht).1
  have hview : s.view.page ⟨table.id, record.page.number⟩ = .ok content := by
    rw [hs.page_view, hid]
    exact hcontent
  have hkey : content.id = record.page := by
    rw [hs.keyed_view.id_of_page hview, hid]
  have hschema : content.schema = table.schema := by
    obtain ⟨table', ht', hschema, -⟩ := hs.toSeated.table_of_shown hcontent
    rw [ht, Except.ok.injEq] at ht'
    rw [hschema, ht']
  have hlt : record.page.number < table.pageCount s.disk := by
    obtain ⟨stored, hstored, -⟩ := hs.toSeated.stored_of_shown hcontent
    exact Catalog.number_lt_pageCount hs.sound ht hstored
  rcases scan_refines hs table with hscan | hrefused
  · rw [hscan, View.scan] at h
    obtain ⟨found, hfound, hin⟩ :=
      View.mem_rowsFrom h (Nat.zero_le _) (by rwa [Nat.zero_add]) hview
    obtain ⟨row, hrow, hat⟩ := Page.mem_rows_of_isUsed hfound hused
    rw [Page.rowAt_geometry, hschema, hbytes, hkey] at hat
    cases hdecode : (Row.decode table.schema bytes).1 with
    | error e => simp [hdecode] at hat
    | ok decoded =>
      rw [hdecode] at hat
      refine ⟨decoded, rfl, ?_⟩
      rw [Except.ok.inj hat]
      exact hin row hrow
  · rw [h] at hrefused
    cases hrefused

theorem durable_of_shownAt (hs : s.Coherent) (hstored : s.StoredAt record bytes)
    (hshown : s.ShownAt record bytes) : s.Durable record bytes := by
  refine ⟨hstored, fun table ht rows => mem_scan_of_shownAt hs ht hshown, ?_⟩
  intro other hfresh hdisk hcatalog table ht
  have hother : other.Coherent := hfresh.coherent (hcatalog ▸ hs.sound)
  refine ⟨?_, fun rows => mem_scan_of_shownAt hother (hcatalog ▸ ht) ?_⟩
  · exact isRefused_drainWithin _ hother (hfresh.roomy.admits hother.valid)
  · obtain ⟨content, hcontent, hholds⟩ := hstored
    refine ⟨content, ?_, hholds⟩
    rw [hother.shown_of_allClean hfresh.roomy.clean, Store.stored, hdisk, hcatalog]
    exact hcontent

end Store

namespace Session

variable {x : Session} {requests : List Request} {record : RecordId} {bytes : Bytes}

/-- A row that is stored and shown is durable throughout a history that does not delete it. -/
theorem durable_after (hs : x.store.Coherent)
    (hquiet : ∀ request ∈ requests, request.isQuiet = true)
    (hspares : x.spares record requests = true) (hstored : x.store.StoredAt record bytes)
    (hshown : x.store.ShownAt record bytes) : (x.after requests).store.Durable record bytes := by
  have hkept : (x.after requests).store.StoredAt record bytes ∧
      (x.after requests).store.ShownAt record bytes := by
    refine @spares_keeps x requests record
      (fun x => x.store.StoredAt record bytes ∧ x.store.ShownAt record bytes) ?_ hs hquiet hspares
      ⟨hstored, hshown⟩
    intro x request hs hquiet hspare hkept
    exact ⟨storedAt_respond hs hquiet hkept.1 hkept.2,
      shownAt_respond hs hquiet hspare hkept.1 hkept.2⟩
  have hs' := coherent_after hs fun r hr => Request.isFlush_of_isQuiet (hquiet r hr)
  exact Store.durable_of_shownAt hs' hkept.1 hkept.2

/-- A row that was just inserted is shown. -/
theorem shownAt_respond_insert (hs : x.store.Coherent) {tid : TransactionId} {id : TableId}
    {row : Row} (hrow : row.WellTyped) (hbytes : row.encode = .ok bytes)
    (hinsert : (x.respond (.insert tid id row)).1 = .record (.ok record)) :
    (x.respond (.insert tid id row)).2.store.ShownAt record bytes := by
  have hs' : (x.respond (.insert tid id row)).2.store.Coherent := coherent_respond hs rfl
  rw [← hs'.shownAt_view]
  have hresult : (x.store.insertRow tid id row).1 = .ok record := Response.record.inj hinsert
  obtain ⟨grown, hgrown, hrest⟩ :=
    Store.insertRow_spec hs (Prod.eta (x.store.insertRow tid id row)).symm
  have hkeyed : grown.Keyed := hs.keyed_view.of_changed (View.changed_of_grown hgrown)
  rcases hrest with ⟨-, hfailed⟩ | ⟨other, -, hok, -, -, hinserts⟩
  · exact absurd hresult (hfailed record)
  · rw [hresult, Except.ok.injEq] at hok
    subst hok
    exact hinserts.shownAt hkeyed hrow hbytes

/-- What a commit makes durable, where a row is shown if it is stored: the row if the transaction
that commits was the last to change its page, and what was stored before. -/
theorem durable_commit_iff (hs : x.store.Coherent) {tid : TransactionId}
    (hbacked : x.store.StoredAt record bytes → x.store.ShownAt record bytes) :
    (∀ requests, (∀ request ∈ requests, request.isQuiet = true) →
        (x.respond (.commit tid)).2.spares record requests = true →
        ((x.respond (.commit tid)).2.after requests).store.Durable record bytes) ↔
      x.store.ChangedBy record.page tid ∧ x.store.ShownAt record bytes ∨
        x.store.StoredAt record bytes := by
  have hcommit : (x.respond (.commit tid)).2.store.StoredAt record bytes ↔
      (x.store.ChangedBy record.page tid ∧ x.store.ShownAt record bytes) ∨
        (¬ x.store.ChangedBy record.page tid ∧ x.store.StoredAt record bytes) :=
    Store.storedAt_commit_iff hs
  constructor
  · intro hdurable
    have hstored := (hdurable [] (by simp) rfl).stored
    rcases hcommit.mp hstored with hby | ⟨-, hold⟩
    · exact Or.inl hby
    · exact Or.inr hold
  · intro hcases requests hquiet hspares
    have hstored : (x.respond (.commit tid)).2.store.StoredAt record bytes := by
      refine hcommit.mpr ?_
      by_cases hby : x.store.ChangedBy record.page tid
      · rcases hcases with ⟨-, hnow⟩ | hold
        · exact Or.inl ⟨hby, hnow⟩
        · exact Or.inl ⟨hby, hbacked hold⟩
      · rcases hcases with ⟨hby', -⟩ | hold
        · exact absurd hby' hby
        · exact Or.inr ⟨hby, hold⟩
    have hshown : (x.respond (.commit tid)).2.store.ShownAt record bytes :=
      shownAt_respond_of_stored hs rfl rfl hbacked hstored
    exact durable_after (coherent_respond hs rfl) hquiet hspares hstored hshown

/-- Which inserts a commit makes durable.  A commit is answered without an error, and a row that
was inserted before is durable from then on, unless it is deleted, exactly when the transaction that
commits was the last to change its page, or the row was stored before. -/
theorem durable_iff {s : Store} (hs : s.Fresh) (hsound : s.catalog.Sound)
    {first between : List Request} {tid : TransactionId} {id : TableId} {row : Row}
    (hquiet : ∀ request ∈ first ++ between, request.isQuiet = true) (hrow : row.WellTyped)
    (hbytes : row.encode = .ok bytes)
    (hinsert : (((Session.mk s []).after first).respond (.insert tid id row)).1 =
      .record (.ok record))
    (hspares : (((Session.mk s []).after first).respond (.insert tid id row)).2.spares record
      between = true) :
    let before := (Session.mk s []).after (first ++ .insert tid id row :: between)
    let committed := (before.respond (.commit tid)).2
    (before.respond (.commit tid)).1 = .finished (.ok ()) ∧
      ((∀ requests, (∀ request ∈ requests, request.isQuiet = true) →
          committed.spares record requests = true →
          (committed.after requests).store.Durable record bytes) ↔
        before.store.ChangedBy record.page tid ∧ before.store.ShownAt record bytes ∨
          before.store.StoredAt record bytes) := by
  intro before committed
  simp only [List.mem_append, or_imp, forall_and] at hquiet
  have hfirst : ((Session.mk s []).after first).store.Coherent :=
    coherent_after (hs.coherent hsound) fun r hr => Request.isFlush_of_isQuiet (hquiet.1 r hr)
  have hinserted : (((Session.mk s []).after first).respond (.insert tid id row)).2.store.Coherent :=
    coherent_respond hfirst rfl
  have hbefore : before = (((Session.mk s []).after first).respond (.insert tid id row)).2.after
      between := by
    rw [← after_cons, ← after_append]
  have hcoherent : before.store.Coherent := by
    rw [hbefore]
    exact coherent_after hinserted fun r hr => Request.isFlush_of_isQuiet (hquiet.2 r hr)
  -- the row is shown when it is inserted, and until the commit whenever it is stored
  have hbacked : before.store.StoredAt record bytes → before.store.ShownAt record bytes := by
    rw [hbefore]
    refine @spares_keeps _ between record
      (fun x => x.store.StoredAt record bytes → x.store.ShownAt record bytes) ?_ hinserted
      hquiet.2 hspares (fun _ => shownAt_respond_insert hfirst hrow hbytes hinsert)
    intro x request hs hquiet hspare hbacked
    exact shownAt_respond_of_stored hs hquiet hspare hbacked
  exact ⟨congrArg Response.finished (Store.commit_spec hcoherent tid).1,
    durable_commit_iff hcoherent hbacked⟩

/-- A row whose page no other transaction changed before the commit is durable. -/
theorem durable_insert_commit :
    let x : Session := ⟨Sample.store 1 (by decide), []⟩
    let record : RecordId := ⟨⟨Sample.table.id, 0⟩, 0⟩
    let committed := x.after [.insert ⟨1⟩ Sample.table.id (Sample.row 1 10), .commit ⟨1⟩]
    (x.respond (.insert ⟨1⟩ Sample.table.id (Sample.row 1 10))).1 = .record (.ok record) ∧
      ∀ requests, (∀ request ∈ requests, request.isQuiet = true) →
        committed.spares record requests = true →
        (committed.after requests).store.Durable record [0, 0, 0, 1, 0, 0, 0, 10] := by
  intro x record committed
  have hcoherent : x.store.Coherent :=
    (Sample.fresh_store 1 (by decide)).coherent Sample.sound_catalog
  have hrow : (Sample.row 1 10).WellTyped := by
    unfold Row.WellTyped
    decide
  have hbytes : (Sample.row 1 10).encode = .ok [0, 0, 0, 1, 0, 0, 0, 10] := by decide +kernel
  have hinsert : (x.respond (.insert ⟨1⟩ Sample.table.id (Sample.row 1 10))).1 =
      .record (.ok record) := by
    decide +kernel
  have hchanged : (x.respond (.insert ⟨1⟩ Sample.table.id (Sample.row 1 10))).2.store.ChangedBy
      record.page ⟨1⟩ := by
    have hmark : ((x.respond (.insert ⟨1⟩ Sample.table.id (Sample.row 1 10))).2.store.cache.find?
        record.page).map (·.page.dirtier) = some (some ⟨1⟩) := by
      decide +kernel
    exact Option.map_eq_some_iff.mp hmark
  refine ⟨hinsert, ?_⟩
  exact (@durable_iff record _ _ (Sample.fresh_store 1 (by decide)) Sample.sound_catalog
    [] [] ⟨1⟩ Sample.table.id (Sample.row 1 10) (by simp) hrow hbytes hinsert rfl).2.mpr
    (Or.inl ⟨hchanged, shownAt_respond_insert hcoherent hrow hbytes hinsert⟩)

/-- A row is lost after its commit was answered without an error, when another transaction changed
its page before the commit and is aborted after it. -/
theorem lost_after_commit :
    let x : Session := ⟨Sample.store 1 (by decide), []⟩
    let record : RecordId := ⟨⟨Sample.table.id, 0⟩, 0⟩
    let shared := x.after [.insert ⟨1⟩ Sample.table.id (Sample.row 1 10),
      .insert ⟨2⟩ Sample.table.id (Sample.row 2 20)]
    let lost := shared.after [.commit ⟨1⟩, .abort ⟨2⟩]
    (x.respond (.insert ⟨1⟩ Sample.table.id (Sample.row 1 10))).1 = .record (.ok record) ∧
      (shared.respond (.commit ⟨1⟩)).1 = .finished (.ok ()) ∧
      lost.store.scan Sample.table = .ok [] ∧ ∀ bytes, ¬ lost.store.StoredAt record bytes := by
  intro x record shared lost
  refine ⟨by decide +kernel, by decide +kernel, by decide +kernel, ?_⟩
  rintro bytes ⟨content, hstored, hused, -⟩
  have hfree : (lost.store.stored record.page).map (·.isUsed record.slot) = .ok false := by
    decide +kernel
  rw [hstored, Except.map, hused] at hfree
  cases hfree

end Session

end RowStore
