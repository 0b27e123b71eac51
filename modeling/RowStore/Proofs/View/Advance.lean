import RowStore.Proofs.Cursor
import RowStore.Proofs.View.Entries

/-!
# RowStore.Proofs.View.Advance: how far a cursor gets

A call of a cursor passes over pages in order, also when it fails on the way or is refused
(`View.Advance`): pages without a row, and then perhaps one whose rows it takes into its buffer.
What it takes in are the rows stored on the pages it passed; each row is handed out once
(`buffer_append_taken`); and after a failure it goes on as it would have gone on before, because
all it passed was empty (`View.fst_pull_of_advance`).
-/

namespace RowStore

/-- The cursor became `cursor'`, past some pages whose rows are `rows`. -/
structure View.Advance (v : View) (cursor cursor' : Cursor) (rows : List Row) : Prop where
  table : cursor'.table = cursor.table
  isOpen : cursor'.isOpen = cursor.isOpen
  next_le : cursor.next ≤ cursor'.next
  passed : v.rowsFrom cursor.table.id cursor.next (cursor'.next - cursor.next) = .ok rows

namespace View.Advance

variable {v : View} {cursor cursor' : Cursor} {rows : List Row}

/-- A cursor that passed no page took in nothing. -/
theorem of_next_eq (htable : cursor'.table = cursor.table) (hopen : cursor'.isOpen = cursor.isOpen)
    (hnext : cursor'.next = cursor.next) : v.Advance cursor cursor' [] :=
  ⟨htable, hopen, hnext.ge, by rw [hnext, Nat.sub_self]; rfl⟩

/-- One page without a row, and then others. -/
theorem pass {content : Page} (hpage : v.page ⟨cursor.table.id, cursor.next⟩ = .ok content)
    (hrows : content.rows = .ok []) (h : v.Advance { cursor with next := cursor.next + 1 } cursor' rows) :
    v.Advance cursor cursor' rows := by
  have hle : cursor.next + 1 ≤ cursor'.next := h.next_le
  refine ⟨h.table, h.isOpen, by omega, ?_⟩
  rw [show cursor'.next - cursor.next = cursor'.next - (cursor.next + 1) + 1 by omega, View.rowsFrom,
    hpage]
  dsimp only
  rw [hrows]
  dsimp only
  rw [View.map_nil_append]
  exact h.passed

/-- What was taken in are the rows stored on the pages that were passed. -/
theorem lists (h : v.Advance cursor cursor' rows) (hk : v.Keyed) :
    v.entries.Lists (fun record => record.page.table = cursor.table.id ∧
      cursor.next ≤ record.page.number ∧ record.page.number < cursor'.next) rows := by
  refine (View.lists_rowsFrom hk h.passed).congr fun record _ => ?_
  rw [Nat.add_sub_cancel' h.next_le]

end View.Advance

namespace Cursor

variable {cursor : Cursor} {s : Store}

/-! ## One call -/

/-- The rows a call takes into the buffer: those of the page it stops at, if it reads pages. -/
def taken (cursor : Cursor) (s : Store) : List Row :=
  if cursor.buffer.isEmpty then (cursor.hasNext s).2.1.buffer else []

theorem advance_fill (remaining : Nat) (hs : s.Coherent) (hbuffer : cursor.buffer = []) :
    s.view.Advance cursor (cursor.fill remaining s).2.1 (cursor.fill remaining s).2.1.buffer := by
  induction remaining generalizing cursor s with
  | zero => exact hbuffer ▸ .of_next_eq rfl rfl rfl
  | succ remaining ih =>
    rw [fill]
    cases hfetch : s.fetch ⟨cursor.table.id, cursor.next⟩ with
    | mk result s' =>
      obtain ⟨hview, hresult⟩ := Store.fetch_refines hs hfetch
      have hs' : s'.Coherent := by
        have hmoves := Store.moves_fetch s ⟨cursor.table.id, cursor.next⟩
        rw [hfetch] at hmoves
        exact Store.Moves.coherent hmoves hs
      cases result with
      | error e => exact hbuffer ▸ .of_next_eq rfl rfl rfl
      | ok content =>
        have hpage : s.view.page ⟨cursor.table.id, cursor.next⟩ = .ok content := by
          rcases hresult with hpage | ⟨capacity, hrefused⟩
          · exact hpage.symm
          · cases hrefused
        dsimp only
        cases hrows : content.rows with
        | error e => exact hbuffer ▸ .of_next_eq rfl rfl rfl
        | ok rows =>
          cases rows with
          | nil =>
            refine .pass hpage hrows ?_
            have hrest := @ih { cursor with next := cursor.next + 1 } s' hs' hbuffer
            rwa [hview] at hrest
          | cons first rest =>
            refine ⟨rfl, rfl, Nat.le_succ _, ?_⟩
            dsimp only
            rw [Nat.add_sub_cancel_left, View.rowsFrom, hpage]
            dsimp only
            rw [hrows]
            simp [View.rowsFrom, Except.map]

theorem advance_hasNext (hs : s.Coherent) (hopen : cursor.isOpen = true) :
    s.view.Advance cursor (cursor.hasNext s).2.1 (cursor.taken s) := by
  unfold taken
  split_ifs with hempty
  · rw [hasNext, if_neg (by simp [hopen]), if_pos hempty]
    exact advance_fill _ hs (List.isEmpty_iff.mp hempty)
  · rw [hasNext, if_neg (by simp [hopen]), if_neg hempty]
    exact .of_next_eq rfl rfl rfl

/-- Taking a row from the buffer moves a cursor no further. -/
theorem pull_eq_hasNext (cursor : Cursor) (s : Store) :
    (cursor.pull s).2.1.table = (cursor.hasNext s).2.1.table ∧
      (cursor.pull s).2.1.isOpen = (cursor.hasNext s).2.1.isOpen ∧
      (cursor.pull s).2.1.next = (cursor.hasNext s).2.1.next := by
  unfold pull
  rcases cursor.hasNext s with ⟨e | _ | _, moved⟩ <;> exact ⟨rfl, rfl, rfl⟩

theorem advance_pull (hs : s.Coherent) (hopen : cursor.isOpen = true) :
    s.view.Advance cursor (cursor.pull s).2.1 (cursor.taken s) := by
  obtain ⟨htable, hopened, hnext⟩ := cursor.pull_eq_hasNext s
  have h := advance_hasNext hs hopen
  exact ⟨htable.trans h.table, hopened.trans h.isOpen, hnext ▸ h.next_le, hnext ▸ h.passed⟩

/-- After a call the buffer has what it had and what was taken in. -/
theorem buffer_hasNext (hopen : cursor.isOpen = true) :
    (cursor.hasNext s).2.1.buffer = cursor.buffer ++ cursor.taken s := by
  unfold taken
  split_ifs with hempty
  · rw [List.isEmpty_iff.mp hempty, List.nil_append]
  · rw [hasNext, if_neg (by simp [hopen]), if_neg hempty, List.append_nil]

/-- The row a cursor answers a request for one with. -/
def handed (answer : Except TableError (Option Row)) : List Row :=
  match answer with
  | .ok (some row) => [row]
  | _ => []

/-- Every row that was taken in is handed out once or still in the buffer. -/
theorem buffer_append_taken (hopen : cursor.isOpen = true) :
    cursor.buffer ++ cursor.taken s =
      handed (cursor.pull s).1 ++ (cursor.pull s).2.1.buffer := by
  rw [← buffer_hasNext hopen]
  unfold pull
  rcases hnext : cursor.hasNext s with ⟨e | _ | _, cursor', s'⟩
  · rfl
  · rfl
  · obtain ⟨row, rest, hbuffer⟩ := List.exists_cons_of_ne_nil (buffer_of_hasNext hnext)
    simp [handed, hbuffer]

/-! ## The end -/

/-- A cursor that has no more rows has passed all pages. -/
theorem hasNext_eq_false (hopen : cursor.isOpen = true) (h : (cursor.hasNext s).1 = .ok false) :
    (cursor.hasNext s).2.1.buffer = [] ∧
      cursor.table.pageCount s.disk ≤ (cursor.hasNext s).2.1.next := by
  unfold hasNext at h ⊢
  rw [if_neg (by simp [hopen])] at h ⊢
  split_ifs at h ⊢ with hempty
  · obtain ⟨-, -, ⟨hmore, -⟩ | ⟨-, hbuffer, hnext⟩⟩ := fill_eq_ok _ (Prod.ext h rfl :
      cursor.fill (cursor.table.pageCount s.disk - cursor.next) s = (.ok false, _, _))
    · cases hmore
    · refine ⟨hbuffer.trans (List.isEmpty_iff.mp hempty), ?_⟩
      rw [hnext]
      omega
  · cases h

theorem pull_eq_none (hopen : cursor.isOpen = true) (h : (cursor.pull s).1 = .ok none) :
    (cursor.pull s).2.1.buffer = [] ∧ cursor.table.pageCount s.disk ≤ (cursor.pull s).2.1.next := by
  have hend := @hasNext_eq_false cursor s hopen
  unfold pull at h ⊢
  rcases hnext : cursor.hasNext s with ⟨e | _ | _, cursor', s'⟩
  · simp [hnext] at h
  · rw [hnext] at hend
    exact hend rfl
  · obtain ⟨row, rest, hbuffer⟩ := List.exists_cons_of_ne_nil (buffer_of_hasNext hnext)
    simp [hnext, hbuffer] at h

/-! ## Failures -/

/-- Filling that fails leaves the buffer as it was. -/
theorem buffer_of_fill_error {e : TableError} : ∀ (remaining : Nat) {cursor : Cursor} {s : Store},
    (cursor.fill remaining s).1 = .error e → (cursor.fill remaining s).2.1.buffer = cursor.buffer
  | 0, _, _, _ => rfl
  | remaining + 1, cursor, s, h => by
    unfold fill at h ⊢
    rcases hfetch : s.fetch ⟨cursor.table.id, cursor.next⟩ with ⟨e' | content, s'⟩
    · rfl
    · rw [hfetch] at h
      dsimp only at h ⊢
      rcases hrows : content.rows with e' | _ | ⟨first, rest⟩
      · rfl
      · rw [hrows] at h
        exact buffer_of_fill_error remaining h
      · rw [hrows] at h
        cases h

/-- A call that fails had an empty buffer and leaves it empty. -/
theorem buffer_of_pull_error {e : TableError} (h : (cursor.pull s).1 = .error e) :
    cursor.buffer = [] ∧ (cursor.pull s).2.1.buffer = [] := by
  have hfailed : (cursor.hasNext s).1 = .error e ∧
      (cursor.pull s).2.1 = (cursor.hasNext s).2.1 := by
    unfold pull at h ⊢
    rcases hnext : cursor.hasNext s with ⟨e' | _ | _, moved⟩
    · rw [hnext] at h
      cases h
      exact ⟨rfl, rfl⟩
    · simp [hnext] at h
    · simp [hnext] at h
  obtain ⟨herror, hsame⟩ := hfailed
  rw [hsame]
  unfold hasNext at herror ⊢
  split_ifs at herror ⊢ with hclosed hempty
  have hbuffer := List.isEmpty_iff.mp hempty
  exact ⟨hbuffer, (buffer_of_fill_error _ herror).trans hbuffer⟩

/-- A call that fails has passed nothing but pages without rows. -/
theorem advance_of_pull_error {e : TableError} (hs : s.Coherent) (hopen : cursor.isOpen = true)
    (h : (cursor.pull s).1 = .error e) : s.view.Advance cursor (cursor.pull s).2.1 [] := by
  obtain ⟨hbuffer, hbuffer'⟩ := buffer_of_pull_error h
  have hconserved := @buffer_append_taken cursor s hopen
  rw [h, hbuffer, hbuffer'] at hconserved
  have htaken : cursor.taken s = [] := hconserved
  exact htaken ▸ advance_pull hs hopen

end Cursor

/-! ## Going on after a failure -/

namespace View

variable {v w : View} {cursor cursor' : Cursor}

/-- A cursor that hands out a row stays on its page, or goes on from its last row to the next page
that has some. -/
theorem passed_of_pull {row : Row} (hopen : cursor.isOpen = true)
    (h : v.pull cursor = (.ok (some row), cursor')) :
    cursor'.next = cursor.next ∨ cursor.buffer = [] ∧ ∃ passed,
      cursor'.next = cursor.next + passed + 1 ∧
        v.rowsFrom cursor.table.id cursor.next passed = .ok [] := by
  unfold pull hasNext at h
  rw [hopen] at h
  simp only [Bool.not_true, Bool.false_eq_true, if_false] at h
  split_ifs at h with hempty
  · rcases hfill : v.fill (cursor.table.pageCount v.disk - cursor.next) cursor with ⟨found, moved⟩
    rw [hfill] at h
    rcases (fill_spec hfill).2.2 with ⟨e, rfl, -⟩ | ⟨rfl, -⟩ | ⟨rfl, content, passed, hpassed, hmore⟩
    · cases (Prod.mk.inj h).1
    · cases (Prod.mk.inj h).1
    · obtain ⟨-, -, -, -, hnext, -⟩ := hmore
      obtain ⟨-, rfl⟩ := Prod.mk.inj h
      exact Or.inr ⟨List.isEmpty_iff.mp hempty, passed, hnext, hpassed⟩
  · obtain ⟨-, rfl⟩ := Prod.mk.inj h
    exact Or.inl rfl

/-- Where no page has a row filling finds none. -/
theorem fst_fill_of_empty {remaining : Nat}
    (h : v.rowsFrom cursor.table.id cursor.next remaining = .ok []) :
    (v.fill remaining cursor).1 = .ok false := by
  rcases (fill_spec (Prod.eta (v.fill remaining cursor)).symm).2.2 with
    ⟨e, -, herror⟩ | ⟨hfalse, -⟩ | ⟨-, content, passed, -, -, -, hne, -, -, heq⟩
  · rw [h] at herror
    cases herror
  · exact hfalse
  · rw [h] at heq
    cases hrest : v.rowsFrom cursor.table.id (v.fill remaining cursor).2.next
        (remaining - passed - 1) with
    | error e => simp [hrest, Except.map] at heq
    | ok rows => simp_all [Except.map]

theorem rowsFrom_succ_eq_nil {table : TableId} {next count : Nat}
    (h : v.rowsFrom table next (count + 1) = .ok []) :
    (∃ content, v.page ⟨table, next⟩ = .ok content ∧ content.rows = .ok []) ∧
      v.rowsFrom table (next + 1) count = .ok [] := by
  obtain ⟨content, first, rest, hpage, hrows, hrest, happend⟩ := rowsFrom_succ_eq_ok_iff.mp h
  obtain ⟨rfl, rfl⟩ := List.append_eq_nil_iff.mp happend.symm
  exact ⟨⟨content, hpage, hrows⟩, hrest⟩

theorem rowsFrom_take_eq_nil {table : TableId} {next few many : Nat} (hle : few ≤ many)
    (h : v.rowsFrom table next many = .ok []) : v.rowsFrom table next few = .ok [] := by
  obtain ⟨more, rfl⟩ := Nat.exists_eq_add_of_le hle
  obtain ⟨first, rest, hfirst, -, happend⟩ := rowsFrom_add_eq_ok_iff.mp h
  rw [hfirst, (List.append_eq_nil_iff.mp happend.symm).1]

/-- Filling passes over pages without rows. -/
theorem fill_of_passed (passed remaining : Nat)
    (h : v.rowsFrom cursor.table.id cursor.next passed = .ok []) :
    v.fill (passed + remaining) cursor =
      v.fill remaining { cursor with next := cursor.next + passed } := by
  induction passed generalizing cursor with
  | zero => rw [Nat.zero_add]; rfl
  | succ passed ih =>
    obtain ⟨⟨content, hpage, hrows⟩, hrest⟩ := rowsFrom_succ_eq_nil h
    rw [Nat.succ_add, fill, hpage]
    dsimp only
    rw [hrows]
    dsimp only
    rw [@ih { cursor with next := cursor.next + 1 } hrest]
    dsimp only
    rw [Nat.add_assoc, Nat.add_comm 1 passed]

/-- A cursor that has passed pages without rows hands out the same row as before. -/
theorem fst_pull_of_advance (h : v.Advance cursor cursor' []) (hbuffer : cursor.buffer = [])
    (hbuffer' : cursor'.buffer = []) : (v.pull cursor').1 = (v.pull cursor).1 := by
  obtain ⟨table, isOpen, next, buffer⟩ := cursor
  obtain ⟨table', isOpen', next', buffer'⟩ := cursor'
  obtain ⟨rfl, rfl, hle, hpassed⟩ := h
  dsimp only at hbuffer hbuffer' hle hpassed
  subst hbuffer hbuffer'
  unfold pull hasNext
  by_cases hopen : isOpen' = true
  · simp only [hopen, Bool.not_true, Bool.false_eq_true, if_false, List.isEmpty_nil, if_true]
    -- the pages that were passed are all still there, or there are fewer pages now
    by_cases hcount : next' ≤ table'.pageCount v.disk
    · have hfill : v.fill (next' - next + (table'.pageCount v.disk - next'))
          ⟨table', true, next, []⟩ = v.fill (table'.pageCount v.disk - next')
          ⟨table', true, next + (next' - next), []⟩ := fill_of_passed _ _ hpassed
      rw [show next' - next + (table'.pageCount v.disk - next') = table'.pageCount v.disk - next by
        omega, Nat.add_sub_cancel' hle] at hfill
      rw [hfill]
    · have hnone : v.fill (table'.pageCount v.disk - next') ⟨table', true, next', []⟩ =
          (.ok false, ⟨table', true, next', []⟩) := by
        rw [show table'.pageCount v.disk - next' = 0 by omega]
        rfl
      have hempty : v.rowsFrom table'.id next (table'.pageCount v.disk - next) = .ok [] :=
        rowsFrom_take_eq_nil (by omega) hpassed
      have hfirst : (v.fill (table'.pageCount v.disk - next) ⟨table', true, next, []⟩).1 =
          .ok false := fst_fill_of_empty hempty
      rw [hnone]
      rcases hfill : v.fill (table'.pageCount v.disk - next) ⟨table', true, next, []⟩ with
        ⟨result, moved⟩
      rw [hfill] at hfirst
      obtain rfl : result = .ok false := hfirst
      rfl
  · simp [hopen]

/-- What a cursor answers depends on what the pages of its table hold and how many there are. -/
theorem fill_congr (remaining : Nat)
    (h : ∀ number, (w.page ⟨cursor.table.id, number⟩).map Page.written =
      (v.page ⟨cursor.table.id, number⟩).map Page.written) :
    w.fill remaining cursor = v.fill remaining cursor := by
  induction remaining generalizing cursor with
  | zero => rfl
  | succ remaining ih =>
    rw [fill, fill]
    rcases Page.written_eq_or_error (h cursor.next) with
      ⟨e, hnew, hold⟩ | ⟨new, old, hnew, hold, hwritten⟩
    · rw [hnew, hold]
    · rw [hnew, hold]
      dsimp only
      rw [Page.rows_eq_of_written hwritten, @ih { cursor with next := cursor.next + 1 } h]

theorem pull_congr (hcount : cursor.table.pageCount w.disk = cursor.table.pageCount v.disk)
    (h : ∀ number, (w.page ⟨cursor.table.id, number⟩).map Page.written =
      (v.page ⟨cursor.table.id, number⟩).map Page.written) :
    w.pull cursor = v.pull cursor := by
  rw [pull, pull, hasNext, hasNext, hcount, fill_congr _ h]

/-- What was passed without a row is passed so again where those pages hold what they held. -/
theorem Advance.congr {rows : List Row} (h : v.Advance cursor cursor' rows)
    (hsame : ∀ number, cursor.next ≤ number → number < cursor'.next →
      (w.page ⟨cursor.table.id, number⟩).map Page.written =
        (v.page ⟨cursor.table.id, number⟩).map Page.written) :
    w.Advance cursor cursor' rows := by
  refine ⟨h.table, h.isOpen, h.next_le, (rowsFrom_congr _ _ fun number hle hlt => ?_).trans h.passed⟩
  exact hsame number hle (by have := h.next_le; omega)

/-- The pages that were passed could be read. -/
theorem Advance.exists_page {rows : List Row} (h : v.Advance cursor cursor' rows) {number : Nat}
    (hle : cursor.next ≤ number) (hlt : number < cursor'.next) :
    ∃ content, v.page ⟨cursor.table.id, number⟩ = .ok content :=
  let ⟨content, _, hpage, _⟩ := exists_page_of_rowsFrom h.passed hle (by omega)
  ⟨content, hpage⟩

end View

end RowStore
