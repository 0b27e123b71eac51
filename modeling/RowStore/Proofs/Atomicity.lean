import RowStore.Proofs.Session
import RowStore.Proofs.View.Effects

/-!
# RowStore.Proofs.Atomicity: transactions one at a time

In a serial history a transaction changes rows only while no other has changes under way.  A
commit made while no other transaction has changes under way is a commit point.  `Store.Pending`
relates the store at the last commit point to the present one: the disk has gained empty pages at
most, and one transaction made all the changes there are.  So the disk always holds what was
committed, aborting the transaction shows that again, and committing it puts what is shown on the
disk.  A commit by another transaction in the middle of the changes writes nothing, and is no
commit point.
-/

namespace RowStore

namespace Store

variable {s c x x' : Store} {tid : TransactionId}

/-- Whether no transaction but `tid` has changes under way. -/
def isChangedOnlyBy (s : Store) (tid : TransactionId) : Bool :=
  s.cache.frames.all fun entry =>
    entry.2.page.dirtier.isNone || entry.2.page.dirtier = some tid

theorem isChangedOnlyBy_iff (hs : s.Seated) :
    s.isChangedOnlyBy tid = true ↔
      ∀ page content, s.view.changed page = some content → content.dirtier = some tid := by
  simp only [isChangedOnlyBy, List.all_eq_true, Bool.or_eq_true, Option.isNone_iff_eq_none,
    decide_eq_true_eq]
  constructor
  · intro h page content hchanged
    obtain ⟨frame, hf, rfl, hdirty⟩ := changed_eq_some_iff.mp hchanged
    rcases h _ (Lookup.mem_of_lookup hf) with hnone | hsome
    · rw [hnone] at hdirty
      cases hdirty
    · exact hsome
  · rintro h ⟨page, frame⟩ hmem
    cases hmark : frame.page.dirtier with
    | none => exact Or.inl rfl
    | some other =>
      have hf : s.cache.find? page = some frame :=
        (Lookup.lookup_eq_some_iff_mem hs.valid.distinct).mpr hmem
      have hown := h page frame.page (changed_eq_some_iff.mpr ⟨frame, hf, rfl, hmark ▸ rfl⟩)
      exact Or.inr (hmark ▸ hown)

/-- A commit of a transaction that changed nothing does nothing. -/
theorem commitPages_of_unchanged {pages : List PageId}
    (h : ∀ page frame, s.cache.find? page = some frame → frame.page.dirtier ≠ some tid) :
    commitPages tid pages s = (.ok (), s) := by
  induction pages with
  | nil => rfl
  | cons page pages ih =>
    rw [commitPages]
    cases hf : s.cache.find? page with
    | none => exact ih
    | some frame =>
      dsimp only
      rw [if_neg (h page frame hf)]
      exact ih

/-! ## The store since the last commit point -/

/-- `c` is the store at the last commit point, and `x` the store now: one transaction at most has
changes under way, and the disk has at most gained empty pages. -/
structure Pending (c x : Store) : Prop where
  point : c.Coherent
  roomy : c.Roomy
  coherent : x.Coherent
  free : x.cache.handles = []
  catalog : x.catalog = c.catalog
  disk : View.Extends c.catalog c.disk x.disk
  owner : ∃ tid, x.isChangedOnlyBy tid = true

theorem Pending.refl (hs : s.Coherent) (hroomy : s.Roomy) : Pending s s :=
  ⟨hs, hroomy, hs, hroomy.free, rfl, .refl _ _, ⟨0⟩,
    (isChangedOnlyBy_iff hs.toSeated).mpr fun page content h => by
      rw [allClean_iff.mp hroomy.clean] at h
      cases h⟩

/-- Nothing but empty pages was written, and the changes are still those of one transaction. -/
theorem Pending.step (h : Pending c x) (hcoherent : x'.Coherent)
    (hhandles : x'.cache.handles = x.cache.handles) (hcatalog : x'.catalog = x.catalog)
    (hdisk : View.Extends x.catalog x.disk x'.disk) (howner : ∃ tid, x'.isChangedOnlyBy tid = true) :
    Pending c x' := by
  rw [h.catalog] at hdisk
  exact ⟨h.point, h.roomy, hcoherent, hhandles.trans h.free, hcatalog.trans h.catalog,
    h.disk.trans hdisk, howner⟩

theorem Pending.owner_of_changed (h : Pending c x) (hcoherent : x'.Coherent)
    (hchanged : x'.view.changed = x.view.changed) : ∃ tid, x'.isChangedOnlyBy tid = true := by
  obtain ⟨tid, howner⟩ := h.owner
  refine ⟨tid, (isChangedOnlyBy_iff hcoherent.toSeated).mpr ?_⟩
  rw [hchanged]
  exact (isChangedOnlyBy_iff h.coherent.toSeated).mp howner

theorem Pending.of_view (h : Pending c x) (hcoherent : x'.Coherent)
    (hhandles : x'.cache.handles = x.cache.handles) (hview : x'.view = x.view) :
    Pending c x' := by
  have hdisk : x'.disk = x.disk := congrArg View.disk hview
  refine h.step hcoherent hhandles (congrArg View.catalog hview) ?_
    (h.owner_of_changed hcoherent (congrArg View.changed hview))
  rw [hdisk]
  exact .refl _ _

/-- A transaction that has all the changes there are has them still after one more. -/
theorem isChangedOnlyBy_of_put {v : View} {changed : Page} (hx : x.Coherent)
    (hcoherent : x'.Coherent) (hchanged : v.changed = x.view.changed)
    (howner : x.isChangedOnlyBy tid = true) (hview : x'.view = v.put (changed.mark (some tid))) :
    x'.isChangedOnlyBy tid = true := by
  refine (isChangedOnlyBy_iff hcoherent.toSeated).mpr fun page content hcontent => ?_
  rw [hview] at hcontent
  simp only [View.put, hchanged] at hcontent
  split_ifs at hcontent
  · rw [← Option.some.inj hcontent]
    rfl
  · exact (isChangedOnlyBy_iff hx.toSeated).mp howner page content hcontent

theorem Pending.insertRow (h : Pending c x) (id : TableId) (row : Row)
    (howner : (x.insertRow tid id row).1.isOk = true → x.isChangedOnlyBy tid = true) :
    Pending c (x.insertRow tid id row).2 := by
  have hmoves := moves_insertRow h.coherent.valid tid id row
  have hdisk := extends_insertRow h.coherent tid id row
  cases hresult : x.insertRow tid id row with
  | mk result x' =>
    rw [hresult] at hmoves hdisk howner
    have hcoherent := Moves.coherent hmoves h.coherent
    refine h.step hcoherent (Moves.handles hmoves) (Moves.catalog hmoves) hdisk ?_
    obtain ⟨grown, hgrown, hrest⟩ := insertRow_spec h.coherent hresult
    have hchanged := View.changed_of_grown hgrown
    rcases hrest with ⟨hview, -⟩ | ⟨record, -, rfl, -, -, content, changed, -, -, hview⟩
    · exact h.owner_of_changed hcoherent ((congrArg View.changed hview).trans hchanged)
    · exact ⟨tid, isChangedOnlyBy_of_put h.coherent hcoherent hchanged (howner rfl) hview⟩

theorem Pending.deleteRow (h : Pending c x) (row : Row)
    (howner : (x.deleteRow tid row).1.isOk = true → x.isChangedOnlyBy tid = true) :
    Pending c (x.deleteRow tid row).2 := by
  have hmoves := moves_deleteRow h.coherent.valid tid row
  have hdisk := disk_deleteRow h.coherent tid row
  cases hresult : x.deleteRow tid row with
  | mk result x' =>
    rw [hresult] at hmoves hdisk howner
    have hcoherent := Moves.coherent hmoves h.coherent
    refine h.step hcoherent (Moves.handles hmoves) (Moves.catalog hmoves) ?_ ?_
    · dsimp only at hdisk ⊢
      rw [hdisk]
      exact .refl _ _
    · rcases deleteRow_spec h.coherent hresult with
        ⟨hview, -⟩ | ⟨record, rfl, -, content, changed, -, -, hview⟩
      · exact h.owner_of_changed hcoherent (congrArg View.changed hview)
      · exact ⟨tid, isChangedOnlyBy_of_put h.coherent hcoherent rfl (howner rfl) hview⟩

theorem Pending.abort (h : Pending c x) (tid : TransactionId) : Pending c (x.abort tid) := by
  refine h.step (h.coherent.abort tid) rfl rfl (.refl _ _) ?_
  obtain ⟨owner, howner⟩ := h.owner
  refine ⟨owner, (isChangedOnlyBy_iff (h.coherent.abort tid).toSeated).mpr ?_⟩
  intro page content hcontent
  rw [view_abort] at hcontent
  obtain ⟨hcontent, -⟩ := Option.filter_eq_some_iff.mp hcontent
  exact (isChangedOnlyBy_iff h.coherent.toSeated).mp howner page content hcontent

/-- A commit by another transaction than the one with changes under way does nothing. -/
theorem Pending.commit_of_other (h : Pending c x) (hother : x.isChangedOnlyBy tid = false) :
    x.commit tid = (.ok (), x) := by
  obtain ⟨owner, howner⟩ := h.owner
  refine commitPages_of_unchanged fun page frame hf hmark => ?_
  have hown := (isChangedOnlyBy_iff h.coherent.toSeated).mp howner page frame.page
    (changed_eq_some_iff.mpr ⟨frame, hf, rfl, hmark ▸ rfl⟩)
  rw [hmark, Option.some.injEq] at hown
  rw [hown, howner] at hother
  cases hother

/-- A commit by the transaction with changes under way leaves none. -/
theorem allClean_commit (hs : s.Coherent) (howner : s.isChangedOnlyBy tid = true) :
    (s.commit tid).2.AllClean := by
  obtain ⟨-, hwrites, hnone⟩ := commit_spec hs tid
  refine allClean_iff.mpr fun page => ?_
  cases hchanged : (s.commit tid).2.view.changed page with
  | none => rfl
  | some content =>
    rcases hwrites.changed page with hsame | ⟨-, hgone⟩
    · have hown := (isChangedOnlyBy_iff hs.toSeated).mp howner page content
        (hsame.symm.trans hchanged)
      exact absurd hown (hnone page content hchanged)
    · rw [hgone] at hchanged
      cases hchanged

/-- An abort by the transaction with changes under way leaves none. -/
theorem allClean_abort (hs : s.Coherent) (howner : s.isChangedOnlyBy tid = true) :
    (s.abort tid).AllClean := by
  refine allClean_iff.mpr fun page => ?_
  rw [view_abort]
  refine Option.filter_eq_none_iff.mpr fun content hcontent => ?_
  simp [(isChangedOnlyBy_iff hs.toSeated).mp howner page content hcontent]

end Store

namespace Session

variable {c x : Session} {request : Request} {requests : List Request}

/-- Whether a request that changes rows comes while no other transaction has changes under way. -/
def mayChange (x : Session) (request : Request) : Bool :=
  match request.changer? with
  | none => true
  | some tid => !(x.respond request).1.isOk || x.store.isChangedOnlyBy tid

/-- Whether the transactions of a history change rows one at a time. -/
def isSerial (x : Session) : List Request → Bool
  | [] => true
  | request :: requests => x.mayChange request && (x.respond request).2.isSerial requests

/-- Whether a request is a commit while no other transaction has changes under way. -/
def isCommitPoint (x : Session) (request : Request) : Bool :=
  match request with
  | .commit tid => (x.respond request).1.isOk && x.store.isChangedOnlyBy tid
  | _ => false

/-- The session at the last commit point of a history, or at `c` when there is none. -/
def lastCommit (c x : Session) : List Request → Session
  | [] => c
  | request :: requests =>
    let next := (x.respond request).2
    lastCommit (if x.isCommitPoint request then next else c) next requests

/-- Between commit points the disk gains empty pages at most. -/
theorem pending_respond (h : Store.Pending c.store x.store) (hquiet : request.isQuiet = true)
    (hserial : x.mayChange request = true)
    (hpoint : x.isCommitPoint request = false) :
    Store.Pending c.store (x.respond request).2.store := by
  by_cases hread : request.isRead = true
  · have habort : ∀ tid, request ≠ .abort tid := by
      rintro tid rfl
      cases hread
    have hmoves := moves_respond h.coherent.valid (Request.isFlush_of_isQuiet hquiet) habort
    exact h.of_view (Store.Moves.coherent hmoves h.coherent)
      (Store.Moves.handles hmoves) (view_respond h.coherent hread)
  · cases request with
    | insert tid id row =>
      refine h.insertRow id row fun hok => ?_
      simpa [mayChange, Request.changer?, respond, Response.isOk, hok] using hserial
    | delete tid row =>
      refine h.deleteRow row fun hok => ?_
      simpa [mayChange, Request.changer?, respond, Response.isOk, hok] using hserial
    | commit tid =>
      have hok : (x.respond (.commit tid)).1.isOk = true := by
        simp [respond, Response.isOk, (Store.commit_spec h.coherent tid).1, Except.isOk,
          Except.toBool]
      have hother : x.store.isChangedOnlyBy tid = false := by
        simpa [isCommitPoint, hok] using hpoint
      change Store.Pending c.store (x.store.commit tid).2
      rw [h.commit_of_other hother]
      exact h
    | abort tid => exact h.abort tid
    | flush page => cases hquiet
    | flushAll => cases hquiet
    | discard page => cases hquiet
    | _ => exact absurd rfl hread

/-- A commit point starts afresh. -/
theorem pending_of_commitPoint (h : Store.Pending c.store x.store)
    (hpoint : x.isCommitPoint request = true) :
    Store.Pending (x.respond request).2.store (x.respond request).2.store := by
  cases request with
  | commit tid =>
    simp only [isCommitPoint, Bool.and_eq_true] at hpoint
    have hmoves := Store.moves_commit x.store tid
    exact .refl (Store.Moves.coherent hmoves h.coherent)
      ⟨Store.allClean_commit h.coherent hpoint.2,
        (Store.Moves.handles hmoves).trans h.free⟩
  | _ => cases hpoint

/-- Throughout a serial history the store is as it was at the last commit point, but for empty
pages on the disk and the changes of one transaction in the cache. -/
theorem pending_lastCommit (h : Store.Pending c.store x.store)
    (hquiet : ∀ request ∈ requests, request.isQuiet = true)
    (hserial : x.isSerial requests = true) :
    Store.Pending (c.lastCommit x requests).store (x.after requests).store := by
  induction requests generalizing c x with
  | nil => exact h
  | cons request requests ih =>
    simp only [isSerial, Bool.and_eq_true] at hserial
    have hfirst := hquiet request List.mem_cons_self
    have hrest := fun r hr => hquiet r (List.mem_cons_of_mem request hr)
    rw [lastCommit, after_cons]
    cases hpoint : x.isCommitPoint request with
    | true => exact ih (pending_of_commitPoint h hpoint) hrest hserial.2
    | false => exact ih (pending_respond h hfirst hserial.1 hpoint) hrest hserial.2

end Session

/-! ## Atomicity -/

namespace Store

variable {s c x : Store} {tid : TransactionId}

/-- What a store `x` owes to the store `c` at the last commit: the disk has what was shown then, so
a fresh store finds what was committed; rolling back the changes under way shows that again, and
committing them puts what is shown on the disk. -/
structure Atomic (c x : Store) : Prop where
  /-- Files have gained zeros at most. -/
  contents : ∀ file, ∃ count, x.disk.contents file = c.disk.contents file ++ Bytes.zeros count
  committed : ∀ page content, c.shown page = .ok content → x.storedBytes page = .ok content.data
  /-- A page that was appended since holds zeros. -/
  appended : ∀ page data, x.storedBytes page = .ok data →
    (∃ content, c.shown page = .ok content ∧ data = content.data) ∨
      (∃ e, c.shown page = .error e) ∧ ∃ count, data = Bytes.zeros count
  fresh : ∀ table, x.catalog.table table.id = .ok table → ∀ other : Store, other.Fresh →
    other.disk = x.disk → other.catalog = x.catalog → other.scan table = c.scan table
  abort : ∀ tid, x.isChangedOnlyBy tid = true →
    (∀ page, (x.abort tid).shown page = x.stored page) ∧
      ∀ table, x.catalog.table table.id = .ok table → (x.abort tid).scan table = c.scan table
  commit : ∀ tid, x.isChangedOnlyBy tid = true → (x.commit tid).1 = .ok () ∧
    (∀ page, (x.commit tid).2.shown page = (x.shown page).map Page.written ∧
      (x.commit tid).2.stored page = (x.shown page).map Page.written) ∧
    ∀ table, ∀ other : Store, other.Fresh → other.disk = (x.commit tid).2.disk →
      other.catalog = x.catalog → other.scan table = (x.commit tid).2.scan table
  /-- A commit by another transaction than the one with changes under way does nothing. -/
  idle : ∀ tid, x.isChangedOnlyBy tid = false → x.commit tid = (.ok (), x)

/-- Stores without dirty or held pages find the same on the same disk. -/
theorem scan_eq_of_roomy {t : Store} (hs : s.Coherent) (hsroomy : s.Roomy) (ht : t.Coherent)
    (htroomy : t.Roomy) (hdisk : s.disk = t.disk) (hcatalog : s.catalog = t.catalog)
    (table : Table) : s.scan table = t.scan table := by
  rw [scan_of_roomy hs hsroomy, scan_of_roomy ht htroomy, view_of_allClean hsroomy.clean,
    view_of_allClean htroomy.clean, hdisk, hcatalog]

/-- A store without dirty or held pages finds on the present disk what was found at the last
commit. -/
theorem Pending.scan_eq (h : Pending c x) (hs : s.Coherent) (hroomy : s.Roomy)
    (hdisk : s.disk = x.disk) (hcatalog : s.catalog = x.catalog) {table : Table}
    (ht : x.catalog.table table.id = .ok table) : s.scan table = c.scan table := by
  rw [scan_of_roomy hs hroomy, scan_of_roomy h.point h.roomy, view_of_allClean hroomy.clean,
    view_of_allClean h.roomy.clean, hdisk, hcatalog, h.catalog]
  exact h.disk.scan table (h.catalog ▸ ht)

theorem Pending.atomic (h : Pending c x) : Atomic c x := by
  have hpoint := h.point.shown_of_allClean h.roomy.clean
  have hstored : ∀ page, x.stored page = c.catalog.stored x.disk page := by
    intro page
    rw [stored, h.catalog]
  refine ⟨h.disk.contents, fun page content hshown => ?_, fun page data hbytes => ?_, ?_, ?_, ?_,
    fun tid hother => h.commit_of_other hother⟩
  · rw [hpoint] at hshown
    rw [storedBytes, hstored, h.disk.stored page content hshown]
    rfl
  · obtain ⟨content, hcontent, rfl⟩ := storedBytes_eq_ok_iff.mp hbytes
    rw [hstored] at hcontent
    rw [hpoint]
    rcases h.disk.zeros page content hcontent with hold | hnew
    · exact Or.inl ⟨content, hold, rfl⟩
    · exact Or.inr hnew
  · intro table ht other hfresh hdisk hcatalog
    exact h.scan_eq (hfresh.coherent (hcatalog ▸ h.coherent.sound)) hfresh.roomy hdisk hcatalog ht
  · intro tid howner
    have hcoherent := h.coherent.abort tid
    have hclean := allClean_abort h.coherent howner
    refine ⟨fun page => hcoherent.shown_of_allClean hclean page, fun table ht => ?_⟩
    exact h.scan_eq hcoherent ⟨hclean, h.free⟩ rfl rfl ht
  · intro tid howner
    obtain ⟨hok, hwrites, -⟩ := commit_spec h.coherent tid
    have hmoves := moves_commit x tid
    have hcoherent := Moves.coherent hmoves h.coherent
    have hclean := allClean_commit h.coherent howner
    have hroomy : (x.commit tid).2.Roomy :=
      ⟨hclean, (Moves.handles hmoves).trans h.free⟩
    have hpage : ∀ page, (x.commit tid).2.stored page = (x.shown page).map Page.written := by
      intro page
      have hshown := hwrites.shown page
      rw [h.coherent.page_view, hcoherent.page_view, hcoherent.shown_of_allClean hclean] at hshown
      rw [← hshown]
      cases hcontent : (x.commit tid).2.stored page with
      | error e => rfl
      | ok content =>
        rw [stored_eq_ofBytes hcontent]
        rfl
    refine ⟨hok, fun page => ⟨?_, hpage page⟩, fun table other hfresh hdisk hcatalog => ?_⟩
    · rw [hcoherent.shown_of_allClean hclean, hpage]
    · have hcatalog' := hcatalog.trans hwrites.catalog.symm
      exact scan_eq_of_roomy (hfresh.coherent (hcatalog ▸ h.coherent.sound)) hfresh.roomy
        hcoherent hroomy hdisk hcatalog' table

end Store

namespace Session

/-- Transactions that change rows one at a time are atomic: throughout a serial history the store
owes what `Store.Atomic` says to the store at the last commit point. -/
theorem atomic_of_serial {s : Store} (hs : s.Fresh) (hsound : s.catalog.Sound)
    {requests : List Request} (hquiet : ∀ request ∈ requests, request.isQuiet = true)
    (hserial : (Session.mk s []).isSerial requests = true) :
    Store.Atomic (lastCommit ⟨s, []⟩ ⟨s, []⟩ requests).store
      ((Session.mk s []).after requests).store :=
  (pending_lastCommit (.refl (hs.coherent hsound) hs.roomy) hquiet hserial).atomic

/-- After a commit and an insert that is not finished the disk still has what was committed. -/
theorem atomic_unfinished_insert :
    let x : Session := ⟨Sample.store 1 (by decide), []⟩
    let requests : List Request := [.insert ⟨1⟩ Sample.table.id (Sample.row 1 10), .commit ⟨1⟩,
      .insert ⟨2⟩ Sample.table.id (Sample.row 2 20), .fetch ⟨Sample.table.id, 0⟩]
    (∀ request ∈ requests, request.isQuiet = true) ∧ x.isSerial requests = true ∧
      Store.Atomic (lastCommit x x requests).store (x.after requests).store := by
  intro x requests
  have hquiet : ∀ request ∈ requests, request.isQuiet = true := by decide
  have hserial : x.isSerial requests = true := by decide +kernel
  exact ⟨hquiet, hserial,
    atomic_of_serial (Sample.fresh_store 1 (by decide)) Sample.sound_catalog hquiet hserial⟩

/-- A commit by a transaction that changed nothing, while another has changes under way, is
answered without an error and leaves the disk without what is shown. -/
theorem stored_ne_shown_idle_commit :
    let x : Session := ⟨Sample.store 1 (by decide), []⟩
    let page : PageId := ⟨Sample.table.id, 0⟩
    let changed := (x.respond (.insert ⟨1⟩ Sample.table.id (Sample.row 1 10))).2
    let (answer, after) := changed.respond (.commit ⟨2⟩)
    x.isSerial [.insert ⟨1⟩ Sample.table.id (Sample.row 1 10), .commit ⟨2⟩] = true ∧
      answer.isOk = true ∧ after.store.storedBytes page ≠ (after.store.shown page).map Page.data := by
  decide +kernel

end Session

end RowStore
