import RowStore.Proofs.Operator.Matching
import RowStore.Proofs.Operator.Rewinding

/-!
# RowStore.Proofs.Operator.Replay: draining an operator again

Once an operator is open all it does is to fetch pages, and rewinding puts it back as it was opened.
So draining it again hands out the same rows for as long as the pages show what they showed: nothing
is inserted or deleted a second time.  A drain can be refused that was not refused before, but only
when somebody keeps a page in use who did not when the operator was opened (`Operator.Replays`).
-/

namespace RowStore

/-! ## How far a drain has to go -/

namespace Operator

variable {op op' opened : Operator} {s s' t : Store} {row : Row} {most few many : Nat}

/-- How many rows an operator can still hand out when no page has more than `most` of them. -/
def left (v : View) (most : Nat) : Operator → Nat
  | .values list => list.rows.length - list.position
  | .scan source => (source.cursor.map fun cursor => v.room cursor most).getD 0
  | .insert _ _ _ tally => if tally.isSpent then 0 else 1
  | .delete _ _ tally => if tally.isSpent then 0 else 1
  | .aggregate _ aggregation => aggregation.grouping.groups.length - aggregation.position

theorem room_pull_lt {cursor : Cursor} (hs : s.Coherent)
    (hmost : ∀ page content, s.view.page page = .ok content → content.slots ≤ most)
    (h : (cursor.pull s).1 = .ok (some row)) :
    s.view.room (cursor.pull s).2.1 most < s.view.room cursor most := by
  rcases (Store.pull_refines hs cursor).2 with hsame | hrefused
  · have hopen : cursor.isOpen = true := by
      by_contra hopen
      have hclosed : cursor.isOpen = false := by simpa using hopen
      rw [Cursor.pull, Cursor.hasNext, hclosed] at h
      cases h
    rcases View.pull_spec hmost hopen hsame.symm with
      ⟨e, he, -⟩ | ⟨hnone, -⟩ | ⟨row, -, -, -, hless⟩
    · rw [h] at he
      cases he
    · rw [h] at hnone
      cases hnone
    · exact hless
  · rw [h] at hrefused
    cases hrefused

/-- With every row there is less left. -/
theorem left_next_lt (hop : op.Prepared) (hs : s.Coherent)
    (hmost : ∀ page content, s.view.page page = .ok content → content.slots ≤ most)
    (h : op.next s = (.ok (some row), op', s')) : op'.left s.view most < op.left s.view most := by
  cases op with
  | values list =>
    simp only [Operator.next, ValueList.next] at h
    split_ifs at h
    · cases hrow : list.rows[list.position]? with
      | none => simp [hrow] at h
      | some found =>
        rw [hrow] at h
        obtain ⟨-, rfl, -⟩ := h
        have hlt := (List.getElem?_eq_some_iff.mp hrow).1
        simp only [left]
        omega
    · cases (Prod.mk.inj h).1
  | scan source =>
    rw [Operator.next] at h
    cases hcursor : source.cursor with
    | none => simp [TableScan.next, hcursor] at h
    | some cursor =>
      rcases TableScan.next_cases hcursor s with ⟨e, hnext⟩ | ⟨-, hnext⟩ | ⟨found, _, hfound, hnext⟩ <;>
        rw [hnext] at h
      · cases (Prod.mk.inj h).1
      · cases (Prod.mk.inj h).1
      · obtain ⟨-, rfl, -⟩ := h
        simpa [left, hcursor] using room_pull_lt hs hmost hfound
  | insert child tid table tally | delete child tid tally =>
    simp only [Operator.next, Tally.next] at h
    split_ifs at h with hopen hspent
    · cases (Prod.mk.inj h).1
    · rw [← (Prod.mk.inj (Prod.mk.inj h).2).1]
      simp [left, hspent]
    · cases (Prod.mk.inj h).1
  | aggregate child aggregation =>
    simp only [Operator.next, Aggregation.next] at h
    split_ifs at h with hopen
    · obtain ⟨rows, hrows, hlength⟩ := Aggregation.Prepared.results hop hopen
      rw [hrows] at h
      dsimp only at h
      cases hrow : rows[aggregation.position]? with
      | none => simp [hrow] at h
      | some found =>
        rw [hrow] at h
        obtain ⟨-, rfl, -⟩ := h
        have hlt := (List.getElem?_eq_some_iff.mp hrow).1
        simp only [left]
        omega
    · cases (Prod.mk.inj h).1

/-- A drain that may go further than there are rows gives the same as any that may go further
still. -/
theorem drainWithin_eq (hop : op.Prepared) (hs : s.Coherent)
    (hmost : ∀ page content, s.view.page page = .ok content → content.slots ≤ most)
    (hleft : op.left s.view most < few) (hle : few ≤ many) :
    op.drainWithin many s = op.drainWithin few s := by
  induction few generalizing op s many with
  | zero => omega
  | succ few ih =>
    obtain ⟨many, rfl⟩ : ∃ less, many = less + 1 := ⟨many - 1, by omega⟩
    rcases hnext : op.next s with ⟨e | _ | row, op', s'⟩
    · rw [drainWithin_error many hnext, drainWithin_error few hnext]
    · rw [drainWithin_none many hnext, drainWithin_none few hnext]
    · have hfetches := op.fetches_next s
      have hprepared := hop.next s
      rw [hnext] at hfetches hprepared
      dsimp only at hfetches hprepared
      have hview := Store.Fetches.view hfetches hs
      have hless := left_next_lt hop hs hmost hnext
      have hrest : op'.drainWithin many s' = op'.drainWithin few s' :=
        ih hprepared ((Store.Fetches.moves hfetches).coherent hs) (hview ▸ hmost)
          (by rw [hview]; omega) (by omega)
      rw [drainWithin_some many hnext, drainWithin_some few hnext, hrest]

theorem left_lt_drainLimit (op : Operator) (s : Store) :
    op.left s.view s.slotLimit < op.drainLimit s := by
  have hle : op.left s.view s.slotLimit ≤ op.rowLimit s := by
    cases op with
    | values list => exact Nat.sub_le _ _
    | scan source =>
      cases hcursor : source.cursor with
      | none => simp [left, hcursor]
      | some cursor =>
        simp only [left, rowLimit, hcursor, Option.map_some, Option.getD_some, View.room,
          Cursor.rowLimit]
        exact Nat.add_le_add_left (Nat.mul_le_mul_right _ (Nat.sub_le _ _)) _
    | insert child tid table tally | delete child tid tally =>
      simp only [left, rowLimit]
      split_ifs <;> omega
    | aggregate child aggregation => exact Nat.sub_le _ _
  exact Nat.lt_succ_of_le (Nat.le_trans hle (Nat.le_add_right _ _))

/-- Drains on two stores of which one follows the other match. -/
theorem matches_drain {excused : Prop} (hop : op.Prepared) (h : s.Follows excused t) :
    Matches OperatorError.isRefusal excused ((op.drain s).1, ()) ((op.drain t).1, ()) := by
  have hfirst : op.drainWithin (max (op.drainLimit s) (op.drainLimit t)) s = op.drain s :=
    drainWithin_eq hop h.first (fun _ _ hpage => Store.slots_le_slotLimit h.first hpage)
      (left_lt_drainLimit op s) (Nat.le_max_left _ _)
  have hsecond : op.drainWithin (max (op.drainLimit s) (op.drainLimit t)) t = op.drain t :=
    drainWithin_eq hop h.second (fun _ _ hpage => Store.slots_le_slotLimit h.second hpage)
      (left_lt_drainLimit op t) (Nat.le_max_right _ _)
  rw [← hfirst, ← hsecond]
  exact matches_drainWithin _ op h

end Operator

/-! ## While nothing is changed -/

/-- Whether an action leaves the rows of a store alone: it asks for what there is, takes or gives
back a handle, or discards a page that is not dirty. -/
def Action.IsIdle (s : Store) : Action → Prop
  | .ask (.discard page) => s.view.changed page = none
  | .ask request => request.isRead = true
  | .hold _ | .release _ => True

namespace Store

variable {s t u : Store} {page : PageId}

/-- The second store has become of the first, and shows what the first showed. -/
structure Lasts (s t : Store) : Prop where
  coherent : t.Coherent
  tagged : t.Tagged
  view : t.view = s.view
  capacity : t.cache.capacity = s.cache.capacity
  traces : s.Traces t

theorem Lasts.refl (hs : s.Coherent) (htagged : s.Tagged) : s.Lasts s :=
  ⟨hs, htagged, rfl, rfl, .refl s⟩

theorem Lasts.moves (h : s.Lasts t) (hmoves : Moves t u) (hview : u.view = t.view) : s.Lasts u :=
  ⟨hmoves.coherent h.coherent, h.tagged.moves h.coherent.valid hmoves, hview.trans h.view,
    (Moves.fixed hmoves).2.trans h.capacity, h.traces.trans (Moves.traces hmoves h.coherent.valid)⟩

theorem Lasts.fetches (h : s.Lasts t) (hfetches : Fetches t u) : s.Lasts u :=
  h.moves (Fetches.moves hfetches) (Fetches.view hfetches h.coherent)

theorem Lasts.hold (h : s.Lasts t) (page : PageId) : s.Lasts (t.hold page).2 := by
  have hfetched := h.fetches (fetches_fetch t page)
  have hsame := sameFrames_hold t page
  exact ⟨hsame.coherent hfetched.coherent, h.tagged.hold h.coherent.valid page,
    hsame.view.trans hfetched.view, hsame.capacity.trans hfetched.capacity,
    h.traces.trans (traces_hold h.coherent.valid page)⟩

theorem Lasts.release (h : s.Lasts t) (handle : Handle) : s.Lasts (t.release handle) :=
  ⟨(sameFrames_release t handle).coherent h.coherent, h.tagged.release handle,
    (sameFrames_release t handle).view.trans h.view, h.capacity,
    h.traces.trans (.of_find? rfl fun _ => rfl)⟩

/-- A page that is not dirty may be discarded. -/
theorem Lasts.discard (h : s.Lasts t) (hclean : t.view.changed page = none) :
    s.Lasts (t.discard page) := by
  refine h.moves (.single (.drop page)) ((view_discard page).trans ?_)
  refine congrArg (View.mk t.view.disk t.view.catalog) (funext fun other => ?_)
  split_ifs with hsame
  · exact (hsame ▸ hclean : t.view.changed other = none).symm
  · rfl

theorem Lasts.act {x : Session} (h : s.Lasts x.store) {action : Action}
    (hidle : action.IsIdle x.store) : s.Lasts (x.act action).store := by
  cases action with
  | ask request =>
    cases request with
    | discard page => exact h.discard hidle
    | insert tid table row => cases hidle
    | delete tid row => cases hidle
    | commit tid => cases hidle
    | abort tid => cases hidle
    | flush page => cases hidle
    | flushAll => cases hidle
    | _ => exact h.fetches (Session.fetches_respond rfl)
  | hold page => exact h.hold page
  | release handle => exact h.release handle

/-- What was in use and still is was so all the time, and what has come into use since is held by
somebody who has taken a new handle. -/
theorem Lasts.inUse (h : s.Lasts t) (hissued : s.Issued)
    (hhandles : t.cache.handles ⊆ s.cache.handles) (huse : t.InUse page) : s.InUse page := by
  obtain ⟨frame, hf, hdirty | hheld⟩ := huse
  · have hchanged : s.view.changed page = some frame.page :=
      h.view ▸ changed_eq_some_iff.mpr ⟨frame, hf, rfl, hdirty⟩
    obtain ⟨old, hold, hpage, hmark⟩ := changed_eq_some_iff.mp hchanged
    exact ⟨old, hold, Or.inl (hpage ▸ hmark)⟩
  · obtain ⟨handle, hmem, htag⟩ := List.any_eq_true.mp hheld
    have htag' : handle.tag = frame.tag := by simpa using htag
    obtain ⟨old, hold, hsame⟩ := h.traces.of_lt hf (htag' ▸ hissued handle (hhandles hmem))
    refine ⟨old, hold, Or.inr (List.any_eq_true.mpr ⟨handle, hhandles hmem, ?_⟩)⟩
    simp [hsame, htag']

end Store

namespace Operator

variable {op opened : Operator} {s t : Store}

/-- What becomes of an operator that was opened and of its store while the operator is asked for
rows and put back, and others do what leaves the rows of the store alone. -/
inductive Meanwhile (opened : Operator) (t : Store) : Operator → Store → Prop
  | opened : Meanwhile opened t opened t
  | hasNext {op : Operator} {s : Store} (h : Meanwhile opened t op s) :
    Meanwhile opened t (op.hasNext s).2.1 (op.hasNext s).2.2
  | next {op : Operator} {s : Store} (h : Meanwhile opened t op s) :
    Meanwhile opened t (op.next s).2.1 (op.next s).2.2
  | rewind {op : Operator} {s : Store} (h : Meanwhile opened t op s) :
    Meanwhile opened t op.rewind.2 s
  | act {op : Operator} {x : Session} {action : Action} (h : Meanwhile opened t op x.store)
    (hidle : action.IsIdle x.store) : Meanwhile opened t op (x.act action).store
  | otherStart {op other : Operator} {s : Store} (h : Meanwhile opened t op s)
    (hreads : other.Reads) : Meanwhile opened t op (other.start s).2.2
  | otherHasNext {op : Operator} {s : Store} (h : Meanwhile opened t op s) (other : Operator) :
    Meanwhile opened t op (other.hasNext s).2.2
  | otherNext {op : Operator} {s : Store} (h : Meanwhile opened t op s) (other : Operator) :
    Meanwhile opened t op (other.next s).2.2

/-- The operator can always be put back as it was opened, and the store shows what it showed. -/
theorem Meanwhile.invariant (h : Meanwhile opened t op s) (hopened : opened.Prepared)
    (hback : opened.rewind = (.ok (), opened)) (ht : t.Coherent) (htagged : t.Tagged) :
    op.Prepared ∧ op.rewind = (.ok (), opened) ∧ t.Lasts s := by
  induction h with
  | opened => exact ⟨hopened, hback, .refl ht htagged⟩
  | @hasNext op s _ ih =>
    obtain ⟨hop, hrewind, hlasts⟩ := ih
    exact ⟨hop.hasNext s, (hop.rewind_hasNext s).trans hrewind,
      hlasts.fetches (op.fetches_hasNext s)⟩
  | @next op s _ ih =>
    obtain ⟨hop, hrewind, hlasts⟩ := ih
    exact ⟨hop.next s, (hop.rewind_next s).trans hrewind, hlasts.fetches (op.fetches_next s)⟩
  | @rewind op s _ ih =>
    obtain ⟨hop, hrewind, hlasts⟩ := ih
    exact ⟨hop.rewind, by rw [hrewind]; exact hback, hlasts⟩
  | act _ hidle ih => exact ⟨ih.1, ih.2.1, ih.2.2.act hidle⟩
  | @otherStart op other s _ hreads ih =>
    exact ⟨ih.1, ih.2.1, ih.2.2.fetches (fetches_start hreads s)⟩
  | @otherHasNext op s _ other ih => exact ⟨ih.1, ih.2.1, ih.2.2.fetches (other.fetches_hasNext s)⟩
  | @otherNext op s _ other ih => exact ⟨ih.1, ih.2.1, ih.2.2.fetches (other.fetches_next s)⟩

/-- What an operator that was opened can be relied on for, until it is closed and as long as nobody
else changes a row. -/
structure Replays (opened : Operator) (t : Store) : Prop where
  /-- Rewinding puts it back as it was opened. -/
  put_back : ∀ op s, Meanwhile opened t op s → op.rewind = (.ok (), opened)
  /-- What a drain hands out then is what a drain right after opening hands out, or that is refused.
  It is only refused instead while somebody has a handle that was not there when the operator was
  opened. -/
  same_rows : ∀ op s, Meanwhile opened t op s →
    (op.rewind.2.drain s).1 = (opened.drain t).1 ∨
      refuses OperatorError.isRefusal (opened.drain t).1 = true ∨
      (∃ handle ∈ s.cache.handles, handle ∉ t.cache.handles) ∧
        refuses OperatorError.isRefusal (op.rewind.2.drain s).1 = true
  /-- No request for rows changes a page, its dirtier or a file. -/
  keeps_view : ∀ op s, Meanwhile opened t op s → s.view = t.view ∧
    (op.hasNext s).2.2.view = t.view ∧ (op.next s).2.2.view = t.view ∧
    (op.rewind.2.drain s).2.2.view = t.view

/-- An operator that was opened in any state that was reached without flushing pages replays its
rows. -/
theorem Reachable.replays {first : Store} (hop : Reachable op) (hfresh : first.Fresh)
    (hsound : first.catalog.Sound) (hreached : first.Reached s)
    (hstart : op.start s = (.ok (), opened, t)) : Replays opened t := by
  obtain ⟨ht, htagged, -⟩ : t.Coherent ∧ t.Tagged ∧ t.catalog = first.catalog := by
    have hinvariant := (hreached.start op).invariant hfresh hsound
    rwa [hstart] at hinvariant
  have hopened : opened.Prepared := by
    have hprepared := hop.prepared.start s
    rwa [hstart] at hprepared
  have hback := rewind_of_start hstart
  refine ⟨fun op s h => (h.invariant hopened hback ht htagged).2.1, fun op s h => ?_,
    fun op s h => ?_⟩
  · obtain ⟨-, hrewind, hlasts⟩ := h.invariant hopened hback ht htagged
    rw [hrewind]
    have hfollows : t.Follows (∃ handle ∈ s.cache.handles, handle ∉ t.cache.handles) s := by
      refine Store.follows_of_view ht hlasts.coherent htagged.issued hlasts.tagged.issued
        hlasts.view fun hnone => ?_
      refine Store.serves_of_inUse ht hlasts.coherent hlasts.view hlasts.capacity fun page huse => ?_
      refine hlasts.inUse htagged.issued (fun handle hmem => ?_) huse
      by_contra hnew
      exact hnone ⟨handle, hmem, hnew⟩
    cases matches_drain hopened hfollows with
    | same h => exact Or.inl (Prod.mk.inj h).1
    | first h => exact Or.inr (Or.inl h)
    | second hheld h => exact Or.inr (Or.inr ⟨hheld, h⟩)
  · obtain ⟨-, -, hlasts⟩ := h.invariant hopened hback ht htagged
    exact ⟨hlasts.view, (hlasts.fetches (op.fetches_hasNext s)).view,
      (hlasts.fetches (op.fetches_next s)).view,
      (hlasts.fetches (op.rewind.2.fetches_drain s)).view⟩

end Operator

namespace Sample

/-- Three rows on two pages on the disk, and room for one page. -/
def twoPages : Store where
  disk := ({} : Disk).write ["t"]
    ([3, 0, 0, 0, 1, 0, 0, 0, 10, 0, 0, 0, 2, 0, 0, 0, 20] ++ Bytes.zeros 3 ++
      ([1, 0, 0, 0, 3, 0, 0, 0, 30] ++ Bytes.zeros 11))
  catalog := Catalog.empty.add table "t"
  cache := ⟨20, 1, Nat.one_pos, [], .empty, [], [], 0⟩

def tableScan : TableScan where
  table := table.id
  tableName := "t"
  label := "s"
  schema := TableScan.labelled schema "s"

/-- The scan once it was opened. -/
def openedScan : Operator :=
  .scan { tableScan with cursor := some (Cursor.start { table }) }

theorem start_tableScan : (Operator.scan tableScan).start twoPages = (.ok (), openedScan, twoPages) := by
  have htable : twoPages.catalog.table table.id = .ok table := by decide +kernel
  have hagrees : table.schema.Agrees tableScan.schema := by decide +kernel
  simp only [Operator.start, TableScan.start]
  rw [show twoPages.catalog.table tableScan.table = .ok table from htable]
  simp only [hagrees, if_true]
  rfl

end Sample

namespace Operator

/-- A table of two pages is read through a cache for one, and again after its second row. -/
theorem replays_tableScan :
    let first := Sample.openedScan.next Sample.twoPages
    let second := first.2.1.next first.2.2
    ((Sample.openedScan.drain Sample.twoPages).1.map (·.map Row.values)).toOption =
        some [[.int 1, .int 10], [.int 2, .int 20], [.int 3, .int 30]] ∧
      (second.2.1.rewind.2.drain second.2.2).1 = (Sample.openedScan.drain Sample.twoPages).1 := by
  intro first second
  have hscan : Reachable (.scan Sample.tableScan) :=
    .scan (by decide +kernel : TableScan.ofTable Sample.twoPages.catalog Sample.table.id "s" = _)
  have hreplays : Replays Sample.openedScan Sample.twoPages :=
    Reachable.replays hscan ⟨20, 1, rfl⟩ Sample.sound_catalog .first Sample.start_tableScan
  have hfree : second.2.2.cache.handles = [] := by decide +kernel
  refine ⟨by decide +kernel, ?_⟩
  rcases hreplays.same_rows _ _ (.next (.next .opened)) with hsame | hrefused | ⟨⟨handle, hmem, -⟩, -⟩
  · exact hsame
  · exact absurd hrefused (by decide +kernel)
  · rw [hfree] at hmem
    cases hmem

/-- When somebody takes a page into use meanwhile the second drain may be refused, and when a dirty
page is discarded its row is gone. -/
theorem not_replays_held_discarded :
    let held := (Sample.twoPages.hold ⟨Sample.table.id, 0⟩).2
    let dirty := ((Sample.store 2 Nat.two_pos).insertRow ⟨1⟩ Sample.table.id (Sample.row 1 10)).2
    let lost := dirty.discard ⟨Sample.table.id, 0⟩
    ((Sample.openedScan.drain Sample.twoPages).1.map List.length).toOption = some 3 ∧
      (Sample.openedScan.rewind.2.drain held).1.map List.length =
        .error (.table (.cache (.noEvictablePage 1))) ∧
      ((Sample.openedScan.drain dirty).1.map List.length).toOption = some 1 ∧
      ((Sample.openedScan.rewind.2.drain lost).1.map List.length).toOption = some 0 := by
  decide +kernel

end Operator

end RowStore
