import RowStore.Proofs.Session

/-!
# RowStore.Proofs.Transparency: which cache a store has cannot be told

Two sessions are `Alike` when their stores have the same view and their cursors stand alike; the
caches may differ in capacity and contents.  Alike sessions answer a request alike unless one of
them refuses it for want of room, and stay alike.  Hence two histories of the same requests from
the same disk have the same log, up to the first refusal of either.
-/

namespace RowStore

/-! ## Commits look at changed pages only -/

namespace View

/-- Pages that were not changed need not be offered to a commit. -/
theorem commitPages_filter (tid : TransactionId) :
    ∀ {pages : List PageId} (v : View), pages.Nodup →
      commitPages tid pages v = commitPages tid (pages.filter fun p => (v.changed p).isSome) v
  | [], _, _ => rfl
  | page :: pages, v, hnodup => by
    obtain ⟨hnew, hrest⟩ := List.nodup_cons.mp hnodup
    cases hchanged : v.changed page with
    | none =>
      rw [List.filter_cons_of_neg (by simp [hchanged]), commitPages, hchanged]
      exact commitPages_filter tid v hrest
    | some content =>
      rw [List.filter_cons_of_pos (by simp [hchanged]), commitPages, commitPages, hchanged]
      dsimp only
      split_ifs with hmark
      · cases v.writeBack content with
        | error e => rfl
        | ok disk =>
          dsimp only
          rw [commitPages_filter tid _ hrest]
          -- settling the page changes none of the pages still to come
          congr 1
          apply List.filter_congr
          intro other hother
          have hne : other ≠ page := by
            rintro rfl
            exact hnew hother
          simp [settle, hne]
      · exact commitPages_filter tid v hrest

end View

namespace Store

variable {s t : Store}

/-- Stores with the same view list the same changed pages, in the same order. -/
theorem changedIds_eq (hs : s.Seated) (ht : t.Seated) (hview : s.view = t.view) :
    (s.cache.pageIds.filter fun page => (s.view.changed page).isSome) =
      t.cache.pageIds.filter fun page => (t.view.changed page).isSome := by
  have hmem : ∀ {u : Store} {page : PageId}, (u.view.changed page).isSome →
      page ∈ u.cache.pageIds := by
    intro u page hchanged
    obtain ⟨content, hcontent⟩ := Option.isSome_iff_exists.mp hchanged
    obtain ⟨frame, hf, -⟩ := changed_eq_some_iff.mp hcontent
    exact Cache.mem_pageIds.mpr (hf ▸ rfl)
  refine List.Perm.eq_of_pairwise (fun a b _ _ => PageId.ble_antisymm)
    (Cache.pairwise_pageIds.filter _) (Cache.pairwise_pageIds.filter _) ?_
  rw [List.perm_ext_iff_of_nodup (hs.valid.nodup_pageIds.filter _)
    (ht.valid.nodup_pageIds.filter _)]
  intro page
  simp only [List.mem_filter]
  constructor
  · rintro ⟨-, hchanged⟩
    rw [hview] at hchanged
    exact ⟨hmem hchanged, hchanged⟩
  · rintro ⟨-, hchanged⟩
    rw [← hview] at hchanged
    exact ⟨hmem hchanged, hchanged⟩

/-- Committing on stores with the same view leaves stores with the same view. -/
theorem view_commit_eq (hs : s.Coherent) (ht : t.Coherent) (hview : s.view = t.view)
    (tid : TransactionId) :
    (s.commit tid).1 = (t.commit tid).1 ∧ (s.commit tid).2.view = (t.commit tid).2.view := by
  obtain ⟨hok, hcommit⟩ := commitPages_refines tid s.cache.pageIds hs
  obtain ⟨hok', hcommit'⟩ := commitPages_refines tid t.cache.pageIds ht
  rw [View.commitPages_filter tid _ hs.valid.nodup_pageIds,
    changedIds_eq hs.toSeated ht.toSeated hview, hview,
    ← View.commitPages_filter tid _ ht.valid.nodup_pageIds, hcommit'] at hcommit
  exact ⟨hok.trans hok'.symm, (Prod.mk.inj hcommit).2.symm⟩

/-- Two stores that do as one reference does, and refuse neither, answer and end alike. -/
theorem eq_of_refines {α : Type} {v : View} {first second : Except TableError α × Store}
    {reference : Except TableError α × View} {p q : Prop}
    (h₁ : Refines v first reference ∨ isRefused first.1 = true ∧ p)
    (h₂ : Refines v second reference ∨ isRefused second.1 = true ∧ q)
    (hr₁ : isRefused first.1 = false) (hr₂ : isRefused second.1 = false) :
    first.1 = second.1 ∧ first.2.view = second.2.view := by
  simp only [Refines, hr₁, hr₂, Bool.false_eq_true, false_and, or_false] at h₁ h₂
  exact Prod.mk.inj (h₁.trans h₂.symm)

/-- A fresh cache shows what a cache without dirty pages shows. -/
theorem view_renew {cache : Cache} (h : s.AllClean) (hfresh : Fresh { s with cache }) :
    ({ s with cache } : Store).view = s.view := by
  refine view_eq_of rfl rfl fun page => ?_
  rw [allClean_iff.mp h, hfresh.view]

end Store

/-! ## Alike sessions -/

/-- Two sessions that differ in nothing but their caches. -/
structure Session.Alike (x y : Session) : Prop where
  first : x.store.Coherent
  second : y.store.Coherent
  view : x.store.view = y.store.view
  cursors : x.cursors = y.cursors

namespace Session

variable {x y : Session}

theorem Alike.disk (h : x.Alike y) : x.store.disk = y.store.disk :=
  congrArg View.disk h.view

/-- Alike cursors read alike. -/
theorem Alike.askCursor {α : Type} (h : x.Alike y) (number : Nat)
    {ask : Cursor → Store → Except TableError α × Cursor × Store}
    {reference : View → Cursor → Except TableError α × Cursor}
    {answer : Except TableError α → Response}
    (hask : ∀ {s : Store}, s.Coherent → ∀ cursor, (ask cursor s).2.2.view = s.view ∧
      (((ask cursor s).1, (ask cursor s).2.1) = reference s.view cursor ∨
        isRefused (ask cursor s).1 = true))
    (hanswer : ∀ result, (answer result).isRefused = isRefused result)
    (hr₁ : (x.askCursor number ask answer).1.isRefused = false)
    (hr₂ : (y.askCursor number ask answer).1.isRefused = false) :
    (x.askCursor number ask answer).1 = (y.askCursor number ask answer).1 ∧
      (x.askCursor number ask answer).2.store.view =
        (y.askCursor number ask answer).2.store.view ∧
      (x.askCursor number ask answer).2.cursors =
        (y.askCursor number ask answer).2.cursors := by
  unfold Session.askCursor at *
  rw [← h.cursors] at hr₂ ⊢
  cases hcursor : x.cursors[number]? with
  | none => exact ⟨rfl, h.view, h.cursors⟩
  | some cursor =>
    obtain ⟨hview₁, hsame₁⟩ := hask h.first cursor
    obtain ⟨hview₂, hsame₂⟩ := hask h.second cursor
    simp only [hcursor, hanswer] at hr₁ hr₂
    simp only [hr₁, hr₂, Bool.false_eq_true, or_false] at hsame₁ hsame₂
    rw [← h.view, ← hsame₁] at hsame₂
    obtain ⟨hresult, hmoved⟩ := Prod.mk.inj hsame₂
    exact ⟨congrArg answer hresult.symm, hview₁.trans (h.view.trans hview₂.symm),
      congrArg (x.cursors.set number) hmoved.symm⟩

/-- Alike sessions answer a request alike, unless one refuses it, and stay alike. -/
theorem Alike.respond (h : x.Alike y) {request : Request} (hflush : request.isFlush = false)
    (hr₁ : (x.respond request).1.isRefused = false)
    (hr₂ : (y.respond request).1.isRefused = false) :
    (x.respond request).1 = (y.respond request).1 ∧
      (x.respond request).2.Alike (y.respond request).2 := by
  suffices hsame : (x.respond request).1 = (y.respond request).1 ∧
      (x.respond request).2.store.view = (y.respond request).2.store.view ∧
      (x.respond request).2.cursors = (y.respond request).2.cursors from
    ⟨hsame.1, coherent_respond h.first hflush, coherent_respond h.second hflush, hsame.2.1,
      hsame.2.2⟩
  cases request with
  | fetch page =>
    obtain ⟨hview₁, hsame₁⟩ := Store.fetch_refines h.first (Prod.eta (x.store.fetch page)).symm
    obtain ⟨hview₂, hsame₂⟩ := Store.fetch_refines h.second (Prod.eta (y.store.fetch page)).symm
    change (Response.page (x.store.fetch page).1).isRefused = false at hr₁
    change (Response.page (y.store.fetch page).1).isRefused = false at hr₂
    rcases hsame₁ with hsame₁ | ⟨capacity, hrefused⟩
    · rcases hsame₂ with hsame₂ | ⟨capacity, hrefused⟩
      · rw [← h.view] at hsame₂
        exact ⟨congrArg Response.page (hsame₁.trans hsame₂.symm),
          hview₁.trans (h.view.trans hview₂.symm), h.cursors⟩
      · rw [hrefused] at hr₂
        cases hr₂
    · rw [hrefused] at hr₁
      cases hr₁
  | insert tid table row =>
    have hrefines₂ := Store.insertRow_refines h.second tid table row
    rw [← h.view] at hrefines₂
    obtain ⟨hresult, hview⟩ := Store.eq_of_refines (Store.insertRow_refines h.first tid table row)
      hrefines₂ hr₁ hr₂
    exact ⟨congrArg Response.record hresult, hview, h.cursors⟩
  | delete tid row =>
    have hrefines₂ := Store.deleteRow_refines h.second tid row
    rw [← h.view] at hrefines₂
    obtain ⟨hresult, hview⟩ := Store.eq_of_refines (p := False) (q := False)
      (Or.inl (Store.deleteRow_refines h.first tid row)) (Or.inl hrefines₂) hr₁ hr₂
    exact ⟨congrArg Response.changed hresult, hview, h.cursors⟩
  | commit tid =>
    obtain ⟨hresult, hview⟩ := Store.view_commit_eq h.first h.second h.view tid
    exact ⟨congrArg Response.finished hresult, hview, h.cursors⟩
  | abort tid =>
    refine ⟨rfl, ?_, h.cursors⟩
    change (x.store.abort tid).view = (y.store.abort tid).view
    rw [Store.view_abort, Store.view_abort, h.view]
  | flush page => cases hflush
  | flushAll => cases hflush
  | discard page =>
    refine ⟨rfl, ?_, h.cursors⟩
    change (x.store.discard page).view = (y.store.discard page).view
    rw [Store.view_discard, Store.view_discard, h.view]
  | addCursor table => exact ⟨rfl, h.view, by simp only [Session.respond, h.cursors]⟩
  | start number => exact ⟨rfl, h.view, by simp only [Session.respond, moveCursor, h.cursors]⟩
  | hasNext number =>
    exact h.askCursor number Store.hasNext_refines (fun _ => rfl) hr₁ hr₂
  | next number => exact h.askCursor number Store.pull_refines (fun _ => rfl) hr₁ hr₂
  | close number => exact ⟨rfl, h.view, by simp only [Session.respond, moveCursor, h.cursors]⟩

end Session

/-! ## Histories -/

/-- A history of requests with its log: each response with the disk after it.  While no cached
page is dirty and no cursor is open, the cache may be exchanged for a fresh one. -/
inductive History : Session → List Request → List (Response × Disk) → Prop
  | nil (x : Session) : History x [] []
  | respond {x : Session} {request : Request} {requests : List Request}
    {log : List (Response × Disk)} (rest : History (x.respond request).2 requests log) :
    History x (request :: requests)
      (((x.respond request).1, (x.respond request).2.store.disk) :: log)
  | renew {x : Session} {cache : Cache} {requests : List Request} {log : List (Response × Disk)}
    (hfresh : Store.Fresh { x.store with cache }) (hclean : x.store.AllClean)
    (hclosed : ∀ cursor ∈ x.cursors, cursor.isOpen = false)
    (rest : History { x with store := { x.store with cache } } requests log) :
    History x requests log

/-- The log of a history in which the cache is never exchanged. -/
def Session.log (x : Session) : List Request → List (Response × Disk)
  | [] => []
  | request :: requests =>
    ((x.respond request).1, (x.respond request).2.store.disk) ::
      (x.respond request).2.log requests

namespace History

theorem of_log (x : Session) (requests : List Request) : History x requests (x.log requests) := by
  induction requests generalizing x with
  | nil => exact .nil x
  | cons request requests ih => exact .respond (ih _)

variable {x y : Session} {requests : List Request} {log log' : List (Response × Disk)}

/-- A session after its cache was exchanged is alike any session it was alike before. -/
theorem alike_renew {cache : Cache} (h : x.Alike y) (hfresh : Store.Fresh { y.store with cache })
    (hclean : y.store.AllClean) : x.Alike { y with store := { y.store with cache } } :=
  ⟨h.first, hfresh.coherent h.second.sound, h.view.trans (Store.view_renew hclean hfresh).symm,
    h.cursors⟩

theorem eq_nil (h : History x [] log) : log = [] := by
  generalize hrequests : [] = requests at h
  induction h with
  | nil => rfl
  | respond => cases hrequests
  | renew _ _ _ _ ih => exact ih hrequests

/-- A history of a first request and others, up to an exchange of the cache. -/
theorem eq_cons {request : Request} (h : History y (request :: requests) log)
    (halike : x.Alike y) : ∃ z log', x.Alike z ∧ History (z.respond request).2 requests log' ∧
      log = ((z.respond request).1, (z.respond request).2.store.disk) :: log' := by
  generalize hrequests : request :: requests = all at h
  induction h with
  | nil => cases hrequests
  | respond rest =>
    cases hrequests
    exact ⟨_, _, halike, rest, rfl⟩
  | renew hfresh hclean _ _ ih => exact ih (alike_renew halike hfresh hclean) hrequests

/-- Histories of the same requests from alike sessions have the same log up to a refusal. -/
theorem take_eq_of_alike (hflush : ∀ request ∈ requests, request.isFlush = false)
    (hx : History x requests log) (hy : History y requests log') (h : x.Alike y) (count : Nat)
    (hr : ∀ entry ∈ log.take count, entry.1.isRefused = false)
    (hr' : ∀ entry ∈ log'.take count, entry.1.isRefused = false) :
    log.take count = log'.take count := by
  induction requests generalizing x y log log' count with
  | nil => rw [hx.eq_nil, hy.eq_nil]
  | cons request requests ih =>
    obtain ⟨x', log, hself, hrestx, rfl⟩ := hx.eq_cons ⟨h.first, h.first, rfl, rfl⟩
    obtain ⟨y', log', hother, hresty, rfl⟩ := hy.eq_cons h
    have h' : x'.Alike y' := ⟨hself.second, hother.second, hself.view.symm.trans hother.view,
      hself.cursors.symm.trans hother.cursors⟩
    cases count with
    | zero => rfl
    | succ count =>
      simp only [List.take_succ_cons, List.forall_mem_cons] at hr hr' ⊢
      obtain ⟨hresponse, hafter⟩ := h'.respond (hflush request List.mem_cons_self) hr.1 hr'.1
      have hrest := ih (fun r hr => hflush r (List.mem_cons_of_mem _ hr)) hrestx hresty hafter
        count hr.2 hr'.2
      rw [hrest, hresponse, hafter.disk]

/-- Which cache a store has cannot be told: two histories of the same requests, none of them a
flush, over the same disk and tables have the same log as long as neither was refused for want of
room, whatever the capacities of the caches and whenever they were exchanged. -/
theorem transparent {s t : Store} (hs : s.Fresh) (ht : t.Fresh) (hsound : s.catalog.Sound)
    (hdisk : s.disk = t.disk) (hcatalog : s.catalog = t.catalog)
    (hflush : ∀ request ∈ requests, request.isFlush = false)
    (hfirst : History ⟨s, []⟩ requests log) (hsecond : History ⟨t, []⟩ requests log')
    (count : Nat) (hr : ∀ entry ∈ log.take count, entry.1.isRefused = false)
    (hr' : ∀ entry ∈ log'.take count, entry.1.isRefused = false) :
    log.take count = log'.take count := by
  refine take_eq_of_alike hflush hfirst hsecond ⟨hs.coherent hsound, ?_, ?_, rfl⟩ count hr hr'
  · exact ht.coherent (hcatalog ▸ hsound)
  · refine Store.view_eq_of hdisk hcatalog fun page => ?_
    rw [hs.view, ht.view]

/-- With room for one page and with room for two, a store that has to evict pages between
transactions and one that need not answer alike. -/
theorem transparent_one_two :
    let requests : List Request := [.insert ⟨1⟩ Sample.table.id (Sample.row 1 10),
      .insert ⟨1⟩ Sample.table.id (Sample.row 2 20), .commit ⟨1⟩,
      .insert ⟨2⟩ Sample.table.id (Sample.row 3 30), .abort ⟨2⟩, .fetch ⟨Sample.table.id, 0⟩]
    let small : Session := ⟨Sample.store 1 (by decide), []⟩
    let large : Session := ⟨Sample.store 2 (by decide), []⟩
    (∀ entry ∈ (small.log requests).take 6, entry.1.isRefused = false) ∧
      (∀ entry ∈ (large.log requests).take 6, entry.1.isRefused = false) ∧
      (small.log requests).take 6 = (large.log requests).take 6 := by
  intro requests small large
  have hsmall : ∀ entry ∈ (small.log requests).take 6, entry.1.isRefused = false := by
    decide +kernel
  have hlarge : ∀ entry ∈ (large.log requests).take 6, entry.1.isRefused = false := by
    decide +kernel
  exact ⟨hsmall, hlarge, transparent (Sample.fresh_store 1 (by decide))
    (Sample.fresh_store 2 (by decide)) Sample.sound_catalog rfl rfl (by decide)
    (of_log small requests) (of_log large requests) 6 hsmall hlarge⟩

end History

end RowStore
