import RowStore.Proofs.Atomicity
import RowStore.Proofs.Operator.Reading

/-!
# RowStore.Proofs.Operator.Bystanders: transactions that change nothing

A page is marked with a transaction only when a row is inserted or deleted on its behalf.  So a
transaction on whose behalf nothing was changed has marked no page (`Store.ReachedWithout.unmarked`),
whatever else was done, and its commit does nothing (`Store.Unmarked.commit_eq`).
-/

namespace RowStore

/-- The transaction on whose behalf an action changes rows. -/
def Action.changer? : Action → Option TransactionId
  | .ask request => request.changer?
  | _ => none

namespace Store

variable {first s s' : Store} {tid other : TransactionId}

/-- No page is marked with the transaction. -/
def Unmarked (tid : TransactionId) (s : Store) : Prop :=
  ∀ page content, s.view.changed page = some content → content.dirtier ≠ some tid

namespace Unmarked

/-- Pages that are changed now were changed before, or are marked with another transaction. -/
theorem of_changed (h : s.Unmarked tid)
    (hchanged : ∀ page content, s'.view.changed page = some content →
      s.view.changed page = some content ∨ content.dirtier ≠ some tid) : s'.Unmarked tid := by
  intro page content hcontent
  rcases hchanged page content hcontent with hold | hother
  · exact h page content hold
  · exact hother

theorem of_view (h : s.Unmarked tid) (hview : s'.view.changed = s.view.changed) :
    s'.Unmarked tid :=
  h.of_changed fun _ _ hcontent => Or.inl (hview ▸ hcontent)

/-- A page is changed on behalf of another transaction. -/
theorem of_put {v : View} {changed : Page} (h : s.Unmarked tid) (hne : other ≠ tid)
    (hv : v.changed = s.view.changed) (hview : s'.view = v.put (changed.mark (some other))) :
    s'.Unmarked tid := by
  refine h.of_changed fun page content hcontent => ?_
  simp only [hview, View.put, hv] at hcontent
  split_ifs at hcontent
  · rw [← Option.some.inj hcontent]
    exact Or.inr fun heq => hne (Option.some.inj heq)
  · exact Or.inl hcontent

theorem fetches (h : s.Unmarked tid) (hs : s.Coherent) (hfetches : Fetches s s') :
    s'.Unmarked tid :=
  h.of_view (congrArg View.changed (Fetches.view hfetches hs))

theorem insertRow (h : s.Unmarked tid) (hs : s.Coherent) (hne : other ≠ tid) (id : TableId)
    (row : Row) : (s.insertRow other id row).2.Unmarked tid := by
  rcases hresult : s.insertRow other id row with ⟨result, s'⟩
  obtain ⟨grown, hgrown, hcases⟩ := insertRow_spec hs hresult
  have hchanged := View.changed_of_grown hgrown
  rcases hcases with ⟨hview, -⟩ | ⟨record, table, -, -, -, content, changed, -, -, hview⟩
  · exact h.of_view ((congrArg View.changed hview).trans hchanged)
  · exact h.of_put hne hchanged hview

theorem deleteRow (h : s.Unmarked tid) (hs : s.Coherent) (hne : other ≠ tid) (row : Row) :
    (s.deleteRow other row).2.Unmarked tid := by
  rcases hresult : s.deleteRow other row with ⟨result, s'⟩
  rcases deleteRow_spec hs hresult with ⟨hview, -⟩ | ⟨record, -, -, content, changed, -, -, hview⟩
  · exact h.of_view (congrArg View.changed hview)
  · exact h.of_put hne rfl hview

theorem commit (h : s.Unmarked tid) (hs : s.Coherent) (other : TransactionId) :
    (s.commit other).2.Unmarked tid := by
  refine h.of_changed fun page content hcontent => Or.inl ?_
  rcases (commit_spec hs other).2.1.changed page with hsame | ⟨-, hnone⟩
  · rw [← hsame, hcontent]
  · rw [hnone] at hcontent
    cases hcontent

theorem abort (h : s.Unmarked tid) (other : TransactionId) : (s.abort other).Unmarked tid := by
  refine h.of_changed fun page content hcontent => Or.inl ?_
  rw [view_abort] at hcontent
  exact (Option.filter_eq_some_iff.mp hcontent).1

theorem discard (h : s.Unmarked tid) (gone : PageId) : (s.discard gone).Unmarked tid := by
  refine h.of_changed fun page content hcontent => Or.inl ?_
  simp only [view_discard, View.settle] at hcontent
  split_ifs at hcontent
  exact hcontent

theorem act {x : Session} {action : Action} (h : x.store.Unmarked tid) (hs : x.store.Coherent)
    (hflush : action.isFlush = false) (hother : action.changer? ≠ some tid) :
    (x.act action).store.Unmarked tid := by
  cases action with
  | hold page =>
    have hfetched := h.fetches hs (fetches_fetch x.store page)
    exact hfetched.of_view (congrArg View.changed (sameFrames_hold x.store page).view)
  | release handle => exact h.of_view (congrArg View.changed (sameFrames_release x.store handle).view)
  | ask request =>
    cases request with
    | insert other id row => exact h.insertRow hs (fun heq => hother (congrArg some heq)) id row
    | delete other row => exact h.deleteRow hs (fun heq => hother (congrArg some heq)) row
    | commit other => exact h.commit hs other
    | abort other => exact h.abort other
    | flush page => cases hflush
    | flushAll => cases hflush
    | discard page => exact h.discard page
    | _ => exact h.fetches hs (Session.fetches_respond rfl)

/-- Opening an operator that changes nothing on behalf of the transaction. -/
theorem start {op : Operator} (h : s.Unmarked tid) (hs : s.Coherent)
    (hother : ¬ op.ChangesFor tid) : (op.start s).2.2.Unmarked tid := by
  have hne : ∀ other, op.ChangesFor other → other ≠ tid := by
    rintro other hchanges rfl
    exact hother hchanges
  have hdoes := @Operator.start_does
    (fun s s' => s.Coherent → s.Unmarked tid → s'.Coherent ∧ s'.Unmarked tid)
    (fun hfetches hs h => ⟨(Fetches.moves hfetches).coherent hs, h.fetches hs hfetches⟩)
    (fun hfirst hsecond hs h => hsecond (hfirst hs h).1 (hfirst hs h).2) op
    (fun other hchanges table s row hs h =>
      ⟨(Operator.moves_insertChange other table row hs.valid).coherent hs,
        h.insertRow hs (hne other hchanges) table row⟩)
    (fun other hchanges s row hs h =>
      ⟨(Operator.moves_deleteChange other row hs.valid).coherent hs,
        h.deleteRow hs (hne other hchanges) row⟩) s
  exact (hdoes hs h).2

/-- A commit of a transaction that changed nothing does nothing. -/
theorem commit_eq (h : s.Unmarked tid) : s.commit tid = (.ok (), s) := by
  refine commitPages_of_unchanged fun page frame hf hmark => ?_
  exact h page frame.page (changed_eq_some_iff.mpr ⟨frame, hf, rfl, hmark ▸ rfl⟩) hmark

end Unmarked

/-! ## Histories without a transaction -/

/-- What becomes of a store by actions of sessions and calls of operators, without a flush, where no
row is inserted or deleted on behalf of the transaction. -/
inductive ReachedWithout (tid : TransactionId) (first : Store) : Store → Prop
  | first : ReachedWithout tid first first
  | act {x : Session} {action : Action} (h : ReachedWithout tid first x.store)
    (hflush : action.isFlush = false) (hother : action.changer? ≠ some tid) :
    ReachedWithout tid first (x.act action).store
  | start {s : Store} (h : ReachedWithout tid first s) (op : Operator)
    (hother : ¬ op.ChangesFor tid) : ReachedWithout tid first (op.start s).2.2
  | hasNext {s : Store} (h : ReachedWithout tid first s) (op : Operator) :
    ReachedWithout tid first (op.hasNext s).2.2
  | next {s : Store} (h : ReachedWithout tid first s) (op : Operator) :
    ReachedWithout tid first (op.next s).2.2

theorem ReachedWithout.reached (h : first.ReachedWithout tid s) : first.Reached s := by
  induction h with
  | first => exact .first
  | act _ hflush _ ih => exact ReachedBy.act ih hflush
  | start _ op _ ih => exact ReachedBy.start ih op
  | hasNext _ op ih => exact ReachedBy.hasNext ih op
  | next _ op ih => exact ReachedBy.next ih op

theorem ReachedWithout.after {x : Session} (h : first.ReachedWithout tid x.store)
    {requests : List Request} (hflush : ∀ request ∈ requests, request.isFlush = false)
    (hother : ∀ request ∈ requests, request.changer? ≠ some tid) :
    first.ReachedWithout tid (x.after requests).store := by
  induction requests generalizing x with
  | nil => exact h
  | cons request requests ih =>
    have hnext : first.ReachedWithout tid (x.act (.ask request)).store :=
      h.act (hflush request List.mem_cons_self) (hother request List.mem_cons_self)
    exact ih hnext (fun other hmem => hflush other (List.mem_cons_of_mem _ hmem))
      fun other hmem => hother other (List.mem_cons_of_mem _ hmem)

/-- A transaction on whose behalf nothing was changed has marked no page. -/
theorem ReachedWithout.unmarked (h : first.ReachedWithout tid s) (hfresh : first.Fresh)
    (hsound : first.catalog.Sound) : s.Unmarked tid := by
  have hcoherent : ∀ {s}, ReachedWithout tid first s → s.Coherent := fun h =>
    (h.reached.invariant hfresh hsound).1
  induction h with
  | first =>
    intro page content hcontent
    rw [hfresh.view] at hcontent
    cases hcontent
  | act h hflush hother ih => exact ih.act (hcoherent h) hflush hother
  | start h op hother ih => exact ih.start (hcoherent h) hother
  | hasNext h op ih => exact ih.fetches (hcoherent h) (op.fetches_hasNext _)
  | next h op ih => exact ih.fetches (hcoherent h) (op.fetches_next _)

end Store

end RowStore
