import RowStore.Proofs.Page.Rows
import RowStore.Proofs.Store.Room
import Mathlib.Algebra.Order.BigOperators.Group.List

/-!
# RowStore.Proofs.View.Scan: what cursors hand out

`View.rest` is all a cursor has still to hand out: its buffer and the rows of the pages it has not
reached.  Pulling a row takes the first of them (`View.pull_spec`), so draining a cursor that was
just opened gives `View.scan`, the rows of all pages in order.  A drain is refused for want of room
only when a page is dirty or held.
-/

namespace RowStore

namespace View

variable {v : View} {cursor cursor' : Cursor}

/-- All rows the cursor has still to hand out, or why they cannot be read. -/
def rest (v : View) (cursor : Cursor) : Except TableError (List Row) :=
  (v.rowsFrom cursor.table.id cursor.next (cursor.table.pageCount v.disk - cursor.next)).map
    (cursor.buffer ++ ·)

theorem rest_eq_ok_iff {rows : List Row} : v.rest cursor = .ok rows ↔ ∃ behind,
    v.rowsFrom cursor.table.id cursor.next (cursor.table.pageCount v.disk - cursor.next) = .ok behind ∧
      rows = cursor.buffer ++ behind := by
  unfold rest
  cases v.rowsFrom cursor.table.id cursor.next (cursor.table.pageCount v.disk - cursor.next) with
  | error e => simp [Except.map]
  | ok behind => simp [Except.map, eq_comm]

theorem map_nil_append {α ε : Type} (rows : Except ε (List α)) : rows.map ([] ++ ·) = rows := by
  cases rows <;> rfl

/-- Behind its buffer a cursor has the rows of the pages it has not reached. -/
theorem rest_of_nil (h : cursor.buffer = []) :
    v.rest cursor = v.rowsFrom cursor.table.id cursor.next
      (cursor.table.pageCount v.disk - cursor.next) := by
  rw [rest, h, map_nil_append]

theorem rest_start (v : View) (cursor : Cursor) : v.rest cursor.start = v.scan cursor.table := by
  rw [rest_of_nil rfl]
  rfl

/-- Pages have no more rows than slots. -/
theorem length_rowsFrom_le {table : TableId} {next count most : Nat} {rows : List Row}
    (hmost : ∀ number content, v.page ⟨table, number⟩ = .ok content → content.slots ≤ most)
    (h : v.rowsFrom table next count = .ok rows) : rows.length ≤ count * most := by
  induction count generalizing next rows with
  | zero =>
    cases h
    exact Nat.zero_le _
  | succ count ih =>
    obtain ⟨content, first, rest, hpage, hfirst, hrest, rfl⟩ := rowsFrom_succ_eq_ok_iff.mp h
    have hslots := Nat.le_trans (Page.length_rows_le hfirst) (hmost _ content hpage)
    have hlength := ih hrest
    rw [List.length_append, Nat.succ_mul]
    omega

/-- Filling passes over pages without rows and stops behind the first page with some. -/
theorem fill_spec {remaining : Nat} {result : Except TableError Bool}
    (h : v.fill remaining cursor = (result, cursor')) :
    cursor'.table = cursor.table ∧ cursor'.isOpen = cursor.isOpen ∧
      ((∃ e, result = .error e ∧
          v.rowsFrom cursor.table.id cursor.next remaining = .error e) ∨
        (result = .ok false ∧ v.rowsFrom cursor.table.id cursor.next remaining = .ok []) ∨
        result = .ok true ∧ ∃ content passed,
          v.rowsFrom cursor.table.id cursor.next passed = .ok [] ∧
          v.page ⟨cursor.table.id, cursor.next + passed⟩ = .ok content ∧
          content.rows = .ok cursor'.buffer ∧ cursor'.buffer ≠ [] ∧ passed < remaining ∧
          cursor'.next = cursor.next + passed + 1 ∧
          v.rowsFrom cursor.table.id cursor.next remaining =
            (v.rowsFrom cursor.table.id cursor'.next (remaining - passed - 1)).map
              (cursor'.buffer ++ ·)) := by
  induction remaining generalizing cursor with
  | zero =>
    obtain ⟨rfl, rfl⟩ := Prod.mk.inj h
    exact ⟨rfl, rfl, Or.inr (Or.inl ⟨rfl, rfl⟩)⟩
  | succ remaining ih =>
    rw [fill] at h
    rw [rowsFrom]
    cases hpage : v.page ⟨cursor.table.id, cursor.next⟩ with
    | error e =>
      simp only [hpage, Prod.mk.injEq] at h
      obtain ⟨rfl, rfl⟩ := h
      exact ⟨rfl, rfl, Or.inl ⟨_, rfl, rfl⟩⟩
    | ok content =>
      simp only [hpage] at h
      dsimp only
      cases hrows : content.rows with
      | error e =>
        simp only [hrows, Prod.mk.injEq] at h
        obtain ⟨rfl, rfl⟩ := h
        exact ⟨rfl, rfl, Or.inl ⟨_, rfl, rfl⟩⟩
      | ok rows =>
        simp only [hrows] at h
        cases rows with
        | nil =>
          obtain ⟨htable, hopen, hcases⟩ := ih h
          refine ⟨htable, hopen, ?_⟩
          dsimp only at hcases ⊢
          rw [map_nil_append]
          rcases hcases with he | hnone | ⟨hok, found, passed, hempty, hrest⟩
          · exact Or.inl he
          · exact Or.inr (Or.inl hnone)
          · obtain ⟨hcontent, hbuffer, hne, hlt, hnext, heq⟩ := hrest
            refine Or.inr (Or.inr ⟨hok, found, passed + 1, ?_, ?_, hbuffer, hne, by omega, by omega, ?_⟩)
            · exact rowsFrom_succ_eq_ok_iff.mpr ⟨content, [], [], hpage, hrows, hempty, rfl⟩
            · rwa [Nat.add_comm passed 1, ← Nat.add_assoc]
            · rw [heq, show remaining + 1 - (passed + 1) - 1 = remaining - passed - 1 by omega]
        | cons first others =>
          simp only [Prod.mk.injEq] at h
          obtain ⟨rfl, rfl⟩ := h
          exact ⟨rfl, rfl, Or.inr (Or.inr ⟨rfl, content, 0, rfl, hpage, hrows, by simp, by omega,
            rfl, rfl⟩)⟩

/-- Filling passes over nothing that is left. -/
theorem rest_fill {remaining : Nat} {found : Bool} (hbuffer : cursor.buffer = [])
    (hremaining : remaining = cursor.table.pageCount v.disk - cursor.next)
    (h : v.fill remaining cursor = (.ok found, cursor')) : v.rest cursor' = v.rest cursor := by
  induction remaining generalizing cursor with
  | zero => rw [(Prod.mk.inj h).2]
  | succ remaining ih =>
    have hleft : remaining = cursor.table.pageCount v.disk - (cursor.next + 1) := by omega
    rw [rest_of_nil hbuffer, ← hremaining, rowsFrom]
    rw [fill] at h
    cases hpage : v.page ⟨cursor.table.id, cursor.next⟩ with
    | error e => simp [hpage] at h
    | ok content =>
      simp only [hpage] at h
      dsimp only
      cases hrows : content.rows with
      | error e => simp [hrows] at h
      | ok rows =>
        simp only [hrows] at h
        dsimp only
        cases rows with
        | nil =>
          have hpassed := @ih { cursor with next := cursor.next + 1 } hbuffer hleft h
          rw [hpassed, map_nil_append, hleft]
          exact rest_of_nil hbuffer
        | cons first others =>
          obtain ⟨-, rfl⟩ := Prod.mk.inj h
          rw [rest, hleft]

/-- Asking whether there is another row takes none. -/
theorem rest_hasNext {found : Bool} (hopen : cursor.isOpen = true)
    (h : v.hasNext cursor = (.ok found, cursor')) :
    cursor'.isOpen = true ∧ v.rest cursor' = v.rest cursor := by
  unfold hasNext at h
  rw [hopen] at h
  simp only [Bool.not_true, Bool.false_eq_true, if_false] at h
  split_ifs at h with hbuffer
  · exact ⟨(fill_spec h).2.1.trans hopen, rest_fill (List.isEmpty_iff.mp hbuffer) rfl h⟩
  · obtain ⟨-, rfl⟩ := Prod.mk.inj h
    exact ⟨hopen, rfl⟩

/-- How many rows a cursor can still hand out when no page has more than `most` of them. -/
def room (v : View) (cursor : Cursor) (most : Nat) : Nat :=
  cursor.buffer.length + (cursor.table.pageCount v.disk - cursor.next) * most

/-- Pulling a row takes the first of all that are left. -/
theorem pull_spec {most : Nat} {result : Except TableError (Option Row)}
    (hmost : ∀ page content, v.page page = .ok content → content.slots ≤ most)
    (hopen : cursor.isOpen = true) (h : v.pull cursor = (result, cursor')) :
    (∃ e, result = .error e ∧ v.rest cursor = .error e) ∨
      (result = .ok none ∧ v.rest cursor = .ok []) ∨
      ∃ row, result = .ok (some row) ∧ v.rest cursor = (v.rest cursor').map (row :: ·) ∧
        cursor'.isOpen = true ∧ v.room cursor' most < v.room cursor most := by
  unfold pull hasNext at h
  rw [hopen] at h
  simp only [Bool.not_true, Bool.false_eq_true, if_false] at h
  cases hbuffer : cursor.buffer with
  | cons row others =>
    simp only [hbuffer, List.isEmpty_cons, Bool.false_eq_true, if_false, List.head?_cons,
      List.tail_cons, Prod.mk.injEq] at h
    obtain ⟨rfl, rfl⟩ := h
    refine Or.inr (Or.inr ⟨row, rfl, ?_, hopen, ?_⟩)
    · simp only [rest, hbuffer]
      cases v.rowsFrom cursor.table.id cursor.next
        (cursor.table.pageCount v.disk - cursor.next) <;> rfl
    · simp [room, hbuffer]
  | nil =>
    simp only [hbuffer, List.isEmpty_nil, if_true] at h
    rw [rest_of_nil hbuffer]
    cases hfill : v.fill (cursor.table.pageCount v.disk - cursor.next) cursor with
    | mk found moved =>
      rw [hfill] at h
      obtain ⟨htable, hopen', hcases⟩ := fill_spec hfill
      rcases hcases with ⟨e, rfl, he⟩ | ⟨rfl, hnone⟩ | ⟨rfl, content, passed, -, hmore⟩
      · exact Or.inl ⟨e, (Prod.mk.inj h).1.symm, he⟩
      · exact Or.inr (Or.inl ⟨(Prod.mk.inj h).1.symm, hnone⟩)
      · obtain ⟨hcontent, hrows, hne, hlt, hnext, heq⟩ := hmore
        obtain ⟨row, others, hmoved⟩ := List.exists_cons_of_ne_nil hne
        obtain ⟨rfl, rfl⟩ := Prod.mk.inj h
        have hleft : cursor.table.pageCount v.disk - moved.next =
            cursor.table.pageCount v.disk - cursor.next - passed - 1 := by
          omega
        refine Or.inr (Or.inr ⟨row, by rw [hmoved]; rfl, ?_, by rw [← hopen, ← hopen'], ?_⟩)
        · simp only [rest, htable, hleft, heq, hmoved, List.tail_cons]
          cases v.rowsFrom cursor.table.id moved.next
            (cursor.table.pageCount v.disk - cursor.next - passed - 1) <;> rfl
        · have hslots := Nat.le_trans (Page.length_rows_le hrows) (hmost _ content hcontent)
          have hmul : (cursor.table.pageCount v.disk - cursor.next - passed - 1 + 1) * most ≤
              (cursor.table.pageCount v.disk - cursor.next) * most :=
            Nat.mul_le_mul_right most (by omega)
          rw [Nat.succ_mul] at hmul
          simp only [room, hbuffer, List.length_nil, htable, hleft, hmoved, List.tail_cons,
            List.length_cons] at hslots ⊢
          omega

end View

namespace Store

variable {s : Store} {cursor : Cursor} {page : PageId} {content : Page}

/-- A page that is shown lies over a stored page. -/
theorem Seated.stored_of_shown (hs : s.Seated) (h : s.shown page = .ok content) :
    ∃ stored, s.stored page = .ok stored ∧ content.schema = stored.schema ∧
      content.data.length = stored.data.length := by
  unfold shown at h
  cases hf : s.cache.find? page with
  | none =>
    rw [hf] at h
    exact ⟨content, h, rfl, rfl⟩
  | some frame =>
    rw [hf, Except.ok.injEq] at h
    subst h
    obtain ⟨stored, hstored, hschema, hlength, -⟩ := hs.seated hf
    exact ⟨stored, hstored, hschema, hlength⟩

/-- A page that is shown is a page of a registered table. -/
theorem Seated.table_of_shown (hs : s.Seated) (h : s.shown page = .ok content) :
    ∃ table, s.catalog.table page.table = .ok table ∧ content.schema = table.schema ∧
      content.data.length = table.pageSize := by
  obtain ⟨stored, hstored, hschema, hlength⟩ := hs.stored_of_shown h
  rw [hschema, hlength]
  exact Catalog.table_of_stored hstored

theorem slots_le_slotLimit (hs : s.Coherent) (h : s.view.page page = .ok content) :
    content.slots ≤ s.slotLimit := by
  rw [hs.page_view] at h
  obtain ⟨table, ht, -, hlength⟩ := hs.table_of_shown h
  obtain ⟨-, entry, hentry, rfl⟩ := Catalog.mem_of_table ht
  refine Nat.le_trans content.slots_le (Nat.mul_le_mul_left 8 ?_)
  rw [hlength]
  refine List.single_le_sum (fun _ _ => Nat.zero_le _) _ ?_
  exact List.mem_append_left _ (List.mem_map_of_mem hentry)

/-! ## Draining -/

/-- Draining a cursor hands out all that was left, unless it is refused. -/
theorem drainWithin_refines {most : Nat} (limit : Nat) (hs : s.Coherent)
    (hmost : ∀ page content, s.view.page page = .ok content → content.slots ≤ most)
    (hopen : cursor.isOpen = true) (hroom : s.view.room cursor most < limit) :
    (cursor.drainWithin limit s).1 = s.view.rest cursor ∨
      isRefused (cursor.drainWithin limit s).1 = true := by
  induction limit generalizing cursor s with
  | zero => omega
  | succ limit ih =>
    obtain ⟨hview, hpull⟩ := pull_refines hs cursor
    have hs' := Moves.coherent (moves_pull cursor s) hs
    rw [Cursor.drainWithin]
    cases hresult : cursor.pull s with
    | mk result moved =>
      obtain ⟨cursor', s'⟩ := moved
      rw [hresult] at hview hpull hs'
      rcases hpull with hsame | hrefused
      · rcases View.pull_spec hmost hopen hsame.symm with
          ⟨e, rfl, hrest⟩ | ⟨rfl, hrest⟩ | ⟨row, rfl, hrest, hopen', hless⟩
        · exact Or.inl hrest.symm
        · exact Or.inl hrest.symm
        · dsimp only at hview hs' hopen' hless ⊢
          rw [← hview] at hmost
          have hdrain := ih hs' hmost hopen' (by rw [hview]; omega)
          rw [hrest, ← hview]
          rcases hdrain with hdrain | hrefused
          · left
            rw [← hdrain]
            cases hlast : cursor'.drainWithin limit s' with
            | mk outcome rest => cases outcome <;> rfl
          · right
            cases hlast : cursor'.drainWithin limit s' with
            | mk outcome rest =>
              rw [hlast] at hrefused
              obtain ⟨capacity, rfl⟩ := eq_error_of_isRefused hrefused
              rfl
      · obtain ⟨capacity, rfl⟩ := eq_error_of_isRefused hrefused
        exact Or.inr rfl

/-- All rows a cursor on a table hands out when it is opened and drained. -/
def scan (s : Store) (table : Table) : Except TableError (List Row) :=
  ((Cursor.mk table false 0 []).start.drain s).1

/-- A full scan of a table hands out the rows of its pages in order, unless it is refused. -/
theorem scan_refines (hs : s.Coherent) (table : Table) :
    s.scan table = s.view.scan table ∨ isRefused (s.scan table) = true := by
  have hdrain := drainWithin_refines
    ((Cursor.mk table false 0 []).start.rowLimit s + 1) hs
    (fun page content h => slots_le_slotLimit hs h) rfl (Nat.lt_succ_of_le (Nat.le_refl _))
  rwa [View.rest_start] at hdrain

/-! ## Refusals -/

theorem isRefused_fill (remaining : Nat) (hs : s.Coherent) (hadmits : s.Admits) :
    isRefused (cursor.fill remaining s).1 = false := by
  induction remaining generalizing cursor s with
  | zero => rfl
  | succ remaining ih =>
    have hfetch : (s.fetch ⟨cursor.table.id, cursor.next⟩).1 =
        s.view.page ⟨cursor.table.id, cursor.next⟩ := fetch_of_hasRoom hs (Or.inl hadmits.room)
    have hfetches := fetches_fetch s ⟨cursor.table.id, cursor.next⟩
    rw [Cursor.fill]
    cases hresult : s.fetch ⟨cursor.table.id, cursor.next⟩ with
    | mk result s' =>
      rw [hresult] at hfetch hfetches
      cases result with
      | error e =>
        cases e with
        | noEvictablePage capacity =>
          exact absurd hfetch.symm (hs.page_ne_noEvictablePage _ capacity)
        | catalog cause => rfl
        | storage cause => rfl
      | ok content =>
        dsimp only
        cases hrows : content.rows with
        | error e =>
          obtain ⟨cause, rfl⟩ := Page.rowsAt_eq_error hrows
          rfl
        | ok rows =>
          cases rows with
          | nil =>
            exact ih ((Fetches.moves hfetches).coherent hs) (hadmits.fetches hs.valid hfetches)
          | cons first rest => rfl

theorem isRefused_pull (hs : s.Coherent) (hadmits : s.Admits) (cursor : Cursor) :
    isRefused (cursor.pull s).1 = false := by
  have hnext : isRefused (cursor.hasNext s).1 = false := by
    unfold Cursor.hasNext
    split_ifs
    · rfl
    · exact isRefused_fill _ hs hadmits
    · rfl
  unfold Cursor.pull
  cases hresult : cursor.hasNext s with
  | mk result moved =>
    rw [hresult] at hnext
    rcases result with e | _ | _
    · exact hnext
    · rfl
    · rfl

theorem isRefused_drainWithin (limit : Nat) (hs : s.Coherent) (hadmits : s.Admits) :
    isRefused (cursor.drainWithin limit s).1 = false := by
  induction limit generalizing cursor s with
  | zero => rfl
  | succ limit ih =>
    have hpull := isRefused_pull hs hadmits cursor
    have hfetches := fetches_pull cursor s
    rw [Cursor.drainWithin]
    cases hresult : cursor.pull s with
    | mk result moved =>
      obtain ⟨cursor', s'⟩ := moved
      rw [hresult] at hpull hfetches
      rcases result with e | _ | row
      · exact hpull
      · rfl
      · have hrest := @ih s' cursor' ((Fetches.moves hfetches).coherent hs)
          (hadmits.fetches hs.valid hfetches)
        dsimp only
        cases hlast : cursor'.drainWithin limit s' with
        | mk outcome rest =>
          rw [hlast] at hrest
          cases outcome with
          | error e => exact hrest
          | ok rows => rfl

/-- A full scan while no cached page is dirty or held hands out the rows of the pages in order. -/
theorem scan_of_roomy (hs : s.Coherent) (hroomy : s.Roomy) (table : Table) :
    s.scan table = s.view.scan table := by
  refine (scan_refines hs table).resolve_right ?_
  rw [scan, Cursor.drain, isRefused_drainWithin _ hs (hroomy.admits hs.valid)]
  simp

end Store

end RowStore
