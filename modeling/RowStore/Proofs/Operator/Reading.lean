import RowStore.Proofs.Operator.Lifecycle
import RowStore.Proofs.Store.Tags

/-!
# RowStore.Proofs.Operator.Reading: what operators do to a store

A request for a row fetches pages and does nothing else (`Operator.fetches_next`).  Opening an
operator is a sequence of moves, and only fetches pages too unless something is inserted or deleted
below.  A store is `Visited` from a fresh one by anything that is done with sessions and operators
on it, and `Reached` as long as no page is flushed.
-/

namespace RowStore

/-! ## Requests for rows -/

namespace TableScan

theorem fetches_hasNext (scan : TableScan) (s : Store) : Store.Fetches s (scan.hasNext s).2.2 := by
  unfold hasNext
  cases scan.cursor with
  | none => exact .refl
  | some cursor => exact Store.fetches_hasNext cursor s

theorem fetches_next (scan : TableScan) (s : Store) : Store.Fetches s (scan.next s).2.2 := by
  cases hcursor : scan.cursor with
  | none => rw [next, hcursor]
  | some cursor =>
    rw [snd_next hcursor]
    exact Store.fetches_pull cursor s

end TableScan

/-- Feeding does to the state what requests for rows do. -/
theorem Aggregation.feed_state {κ σ : Type} {does : σ → σ → Prop} (hrefl : ∀ s, does s s)
    (htrans : ∀ {s s' s''}, does s s' → does s' s'' → does s s'')
    {pull : κ → σ → Except OperatorError (Option Row) × κ × σ}
    (hpull : ∀ child s, does s (pull child s).2.2) :
    ∀ (limit : Nat) (grouping : Grouping) (child : κ) (s : σ),
      does s (feed pull limit grouping child s).2.2.2
  | 0, _, _, s => hrefl s
  | limit + 1, grouping, child, s => by
    have hnext := hpull child s
    unfold feed
    rcases hrow : pull child s with ⟨e | _ | row, child', s'⟩
    · rw [hrow] at hnext
      exact hnext
    · rw [hrow] at hnext
      dsimp only
      rcases grouping.results with ⟨e | rows, grouping'⟩ <;> exact hnext
    · rw [hrow] at hnext
      dsimp only
      cases grouping.merge row with
      | error e => exact hnext
      | ok grouping' => exact htrans hnext (feed_state hrefl htrans hpull limit grouping' child' s')

namespace Operator

open Store (Fetches Moves)

variable {op : Operator} {s s' : Store} {tid : TransactionId}

theorem fetches_hasNext (op : Operator) (s : Store) : Fetches s (op.hasNext s).2.2 := by
  cases op with
  | scan source => exact source.fetches_hasNext s
  | _ => exact .refl

theorem fetches_next (op : Operator) (s : Store) : Fetches s (op.next s).2.2 := by
  cases op with
  | scan source => exact source.fetches_next s
  | _ => exact .refl

theorem fetches_drainWithin : ∀ (limit : Nat) (op : Operator) (s : Store),
    Fetches s (op.drainWithin limit s).2.2
  | 0, _, _ => .refl
  | limit + 1, op, s => by
    have hnext := op.fetches_next s
    unfold drainWithin
    rcases hrow : op.next s with ⟨e | _ | row, op', s'⟩
    · rw [hrow] at hnext
      exact hnext
    · rw [hrow] at hnext
      exact hnext
    · rw [hrow] at hnext
      have hrest := fetches_drainWithin limit op' s'
      dsimp only
      rcases hdrain : op'.drainWithin limit s' with ⟨e | rows, op'', s''⟩ <;>
        (rw [hdrain] at hrest; exact hnext.trans hrest)

theorem fetches_drain (op : Operator) (s : Store) : Fetches s (op.drain s).2.2 :=
  fetches_drainWithin _ op s

/-! ## Opening -/

theorem moves_insertChange (tid : TransactionId) (table : TableId) {s : Store} (row : Row)
    (hs : s.cache.Valid) : Moves s (insertChange tid table s row).2 :=
  Store.moves_insertRow hs tid table row

theorem moves_deleteChange (tid : TransactionId) {s : Store} (row : Row) (hs : s.cache.Valid) :
    Moves s (deleteChange tid s row).2 :=
  Store.moves_deleteRow hs tid row

theorem fetches_feed (limit : Nat) (grouping : Grouping) (child : Operator) (s : Store) :
    Fetches s (Aggregation.feed Operator.next limit grouping child s).2.2.2 :=
  Aggregation.feed_state (fun _ => .refl) .trans fetches_next limit grouping child s

/-- The operator or one below it changes rows on behalf of the transaction. -/
def ChangesFor (tid : TransactionId) : Operator → Prop
  | .values _ | .scan _ => False
  | .insert child other _ _ | .delete child other _ => other = tid ∨ child.ChangesFor tid
  | .aggregate child _ => child.ChangesFor tid

section

variable {does : Store → Store → Prop} (hfetches : ∀ {s s'}, Fetches s s' → does s s')
  (htrans : ∀ {s s' s''}, does s s' → does s' s'' → does s s'')

include hfetches htrans

/-- The loop over the rows does what requests for rows and changes of single rows do. -/
theorem changeEach_does {change : Store → Row → Except TableError Unit × Store}
    (hchange : ∀ s row, does s (change s row).2) :
    ∀ (limit count : Nat) (op : Operator) (s : Store),
      does s (changeEach change limit count op s).2.2
  | 0, _, _, _ => hfetches .refl
  | limit + 1, count, op, s => by
    have hnext := hfetches (op.fetches_next s)
    unfold changeEach
    rcases hrow : op.next s with ⟨e | _ | row, op', s'⟩
    · rw [hrow] at hnext
      exact hnext
    · rw [hrow] at hnext
      exact hnext
    · rw [hrow] at hnext
      have hchanged := hchange s' row
      dsimp only
      rcases hdone : change s' row with ⟨e | done, s''⟩
      · rw [hdone] at hchanged
        exact htrans hnext hchanged
      · rw [hdone] at hchanged
        exact htrans hnext (htrans hchanged (changeEach_does hchange limit (count + 1) op' s''))

theorem changeAll_does {change : Store → Row → Except TableError Unit × Store}
    (hchange : ∀ s row, does s (change s row).2) (tally : Tally) (child : Operator) (s : Store) :
    does s (changeAll change tally child s).2.2.2 := by
  have hdoes := changeEach_does hfetches htrans hchange (child.drainLimit s) 0 child s
  unfold changeAll
  rcases hcount : changeEach change (child.drainLimit s) 0 child s with ⟨e | count, child', s'⟩
  · rw [hcount] at hdoes
    exact hdoes
  · rw [hcount] at hdoes
    dsimp only
    cases Tally.rowOf count <;> exact hdoes

/-- Opening an aggregation does to the store what opening its child does, and fetches pages. -/
theorem aggregate_start {child : Operator} (aggregation : Aggregation)
    (hchild : does s (child.start s).2.2) :
    does s ((aggregate child aggregation).start s).2.2 := by
  rw [start, Aggregation.start]
  by_cases hopen : aggregation.isOpen = true
  · rw [if_pos hopen]
    exact hfetches .refl
  rw [if_neg hopen]
  rcases hstart : child.start s with ⟨e | done, child', s'⟩
  · rw [hstart] at hchild
    exact hchild
  · rw [hstart] at hchild
    dsimp only
    split_ifs
    · exact hchild
    · have hfeed := fetches_feed (child'.drainLimit s') aggregation.grouping child' s'
      rcases hfed : Aggregation.feed Operator.next (child'.drainLimit s') aggregation.grouping
        child' s' with ⟨e | fed, grouping, child'', s''⟩ <;>
        (rw [hfed] at hfeed; exact htrans hchild (hfetches hfeed))

/-- Opening an operator does what requests for rows do, and what changes of single rows do that are
made on behalf of its transactions. -/
theorem start_does (op : Operator)
    (hinsert : ∀ tid, op.ChangesFor tid → ∀ table s row, does s (insertChange tid table s row).2)
    (hdelete : ∀ tid, op.ChangesFor tid → ∀ s row, does s (deleteChange tid s row).2) (s : Store) :
    does s (op.start s).2.2 := by
  induction op generalizing s with
  | values list => exact hfetches .refl
  | scan source => exact hfetches .refl
  | insert child tid table tally ih =>
    have hchild := ih (fun other hother => hinsert other (Or.inr hother))
      (fun other hother => hdelete other (Or.inr hother)) s
    rw [start]
    split_ifs
    · exact hfetches .refl
    · rcases hstart : child.start s with ⟨e | done, child', s'⟩
      · rw [hstart] at hchild
        exact hchild
      · rw [hstart] at hchild
        exact htrans hchild (changeAll_does hfetches htrans
          (hinsert tid (Or.inl rfl) table) tally child' s')
  | delete child tid tally ih =>
    have hchild := ih (fun other hother => hinsert other (Or.inr hother))
      (fun other hother => hdelete other (Or.inr hother)) s
    rw [start]
    split_ifs
    · exact hfetches .refl
    · rcases hstart : child.start s with ⟨e | done, child', s'⟩
      · rw [hstart] at hchild
        exact hchild
      · rw [hstart] at hchild
        exact htrans hchild (changeAll_does hfetches htrans (hdelete tid (Or.inl rfl)) tally child' s')
  | aggregate child aggregation ih =>
    exact aggregate_start hfetches htrans aggregation (ih hinsert hdelete s)

end

/-- Opening an operator is a sequence of moves, also when it fails. -/
theorem moves_start (op : Operator) (hs : s.cache.Valid) : Moves s (op.start s).2.2 :=
  @start_does (fun s s' => s.cache.Valid → Moves s s')
    (fun hfetches _ => Fetches.moves hfetches)
    (fun hfirst hsecond hs => (hfirst hs).trans (hsecond (Moves.valid (hfirst hs) hs))) op
    (fun tid _ table _ row hs => moves_insertChange tid table row hs)
    (fun tid _ _ row hs => moves_deleteChange tid row hs) s hs

/-- Nothing is inserted or deleted by the operator and those below it. -/
def Reads : Operator → Prop
  | .values _ | .scan _ => True
  | .insert .. | .delete .. => False
  | .aggregate child _ => child.Reads

theorem Reads.not_changesFor (hreads : op.Reads) : ¬ op.ChangesFor tid := by
  induction op with
  | values list => exact id
  | scan source => exact id
  | insert child tid table tally => exact hreads.elim
  | delete child tid tally => exact hreads.elim
  | aggregate child aggregation ih => exact ih hreads

theorem fetches_start (hreads : op.Reads) (s : Store) : Fetches s (op.start s).2.2 :=
  start_does id .trans op (fun _ hchanges => absurd hchanges hreads.not_changesFor)
    (fun _ hchanges => absurd hchanges hreads.not_changesFor) s

end Operator

/-! ## States that are reached -/

namespace Store

variable {first s : Store}

/-- What becomes of a store by these actions of sessions and by calls of operators. -/
inductive ReachedBy (allowed : Action → Prop) (first : Store) : Store → Prop
  | first : ReachedBy allowed first first
  | act {x : Session} {action : Action} (h : ReachedBy allowed first x.store)
    (hallowed : allowed action) : ReachedBy allowed first (x.act action).store
  | start {s : Store} (h : ReachedBy allowed first s) (op : Operator) :
    ReachedBy allowed first (op.start s).2.2
  | hasNext {s : Store} (h : ReachedBy allowed first s) (op : Operator) :
    ReachedBy allowed first (op.hasNext s).2.2
  | next {s : Store} (h : ReachedBy allowed first s) (op : Operator) :
    ReachedBy allowed first (op.next s).2.2

/-- What becomes of a store by actions of sessions and calls of operators, without a flush. -/
def Reached (first s : Store) : Prop :=
  ReachedBy (fun action => action.isFlush = false) first s

/-- What becomes of a store by any actions of sessions and calls of operators. -/
def Visited (first s : Store) : Prop :=
  ReachedBy (fun _ => True) first s

theorem Reached.start (h : first.Reached s) (op : Operator) : first.Reached (op.start s).2.2 :=
  ReachedBy.start h op

theorem ReachedBy.after {allowed : Action → Prop} {x : Session}
    (h : ReachedBy allowed first x.store) {requests : List Request}
    (hallowed : ∀ request ∈ requests, allowed (.ask request)) :
    ReachedBy allowed first (x.after requests).store := by
  induction requests generalizing x with
  | nil => exact h
  | cons request requests ih =>
    have hnext : ReachedBy allowed first (x.act (.ask request)).store :=
      h.act (hallowed request List.mem_cons_self)
    exact ih hnext fun other hmem => hallowed other (List.mem_cons_of_mem _ hmem)

theorem Visited.after {x : Session} (h : first.Visited x.store) (requests : List Request) :
    first.Visited (x.after requests).store :=
  ReachedBy.after h fun _ _ => trivial

theorem Reached.after {x : Session} (h : first.Reached x.store) {requests : List Request}
    (hflush : ∀ request ∈ requests, request.isFlush = false) :
    first.Reached (x.after requests).store :=
  ReachedBy.after h hflush

/-- In all that is reached, flushes or not, every cached page lies over a stored page of its table.
-/
theorem Visited.seated (h : first.Visited s) (hfresh : first.Fresh) (hsound : first.catalog.Sound) :
    s.Seated := by
  unfold Visited at h
  induction h with
  | first => exact (hfresh.coherent hsound).toSeated
  | act _ _ ih =>
    exact Session.act_keeps (fun hs => hs.valid) Moves.seated SameFrames.seated
      (fun page hs => hs.flush page) (fun tid hs => hs.abort tid) ih _
  | start _ op ih => exact Moves.seated (op.moves_start ih.valid) ih
  | hasNext _ op ih => exact Moves.seated (Fetches.moves (op.fetches_hasNext _)) ih
  | next _ op ih => exact Moves.seated (Fetches.moves (op.fetches_next _)) ih

/-- What moves, aborts and handles keep is kept in all that is reached. -/
theorem Reached.keeps (h : Reached first s) (hcoherent : first.Coherent) (htags : first.Tagged) :
    s.Coherent ∧ s.Tagged ∧ s.catalog = first.catalog := by
  have hmoves : ∀ {s s' : Store}, Moves s s' →
      s.Coherent ∧ s.Tagged ∧ s.catalog = first.catalog →
      s'.Coherent ∧ s'.Tagged ∧ s'.catalog = first.catalog := by
    rintro s s' hmoves ⟨hs, htagged, hcatalog⟩
    exact ⟨hmoves.coherent hs, htagged.moves hs.valid hmoves,
      (Moves.catalog hmoves).trans hcatalog⟩
  unfold Reached at h
  induction h with
  | first => exact ⟨hcoherent, htags, rfl⟩
  | @act x action _ hflush ih =>
    obtain ⟨hs, htagged, hcatalog⟩ := ih
    exact ⟨Session.coherent_act hs hflush, Session.tagged_act htagged hs.valid action,
      (Session.catalog_act hs.valid action).trans hcatalog⟩
  | start _ op ih => exact hmoves (op.moves_start ih.1.valid) ih
  | hasNext _ op ih => exact hmoves (Fetches.moves (op.fetches_hasNext _)) ih
  | next _ op ih => exact hmoves (Fetches.moves (op.fetches_next _)) ih

theorem Fresh.tagged (h : first.Fresh) : first.Tagged := by
  obtain ⟨pageSize, capacity, hcache⟩ := h
  exact .of_ofCapacity hcache

theorem Reached.invariant (h : Reached first s) (hfresh : first.Fresh) (hsound : first.catalog.Sound) :
    s.Coherent ∧ s.Tagged ∧ s.catalog = first.catalog :=
  h.keeps (hfresh.coherent hsound) hfresh.tagged

end Store

end RowStore
