import RowStore.Proofs.Operator.Draining
import RowStore.Statistics

/-!
# RowStore.Proofs.Statistics.Passes: one pass over a table, and another

`Cursor.Run` says what a cursor hands out, request by request, and how it ends.  A drain collects
these rows (`Run.drainWithin`) and a fold goes through the same ones (`Run.foldWithin`), each for any
limit that is greater than their number.  As the first pass only fetches pages, and every fetch is
answered as before, the second pass hands out the same rows (`Run.of_follows`), whatever was evicted
in between.
-/

namespace RowStore

namespace Cursor

open Store (Fetches)

variable {β : Type} {f : β → Row → Except StatisticsError β} {acc acc' : β}
  {cursor : Cursor} {s s' t : Store} {rows : List Row} {result : Except TableError Unit} {limit : Nat}

/-- The cursor hands out these rows, and behind them there is no further one or the request for it
fails. -/
inductive Run : Cursor → Store → List Row → Except TableError Unit → Store → Prop
  | ended {cursor cursor' : Cursor} {s s' : Store} (h : cursor.pull s = (.ok none, cursor', s')) :
    Run cursor s [] (.ok ()) s'
  | failed {cursor cursor' : Cursor} {s s' : Store} {e : TableError}
    (h : cursor.pull s = (.error e, cursor', s')) : Run cursor s [] (.error e) s'
  | row {cursor cursor' : Cursor} {s s' s'' : Store} {row : Row} {rows : List Row}
    {result : Except TableError Unit} (h : cursor.pull s = (.ok (some row), cursor', s'))
    (rest : Run cursor' s' rows result s'') : Run cursor s (row :: rows) result s''

namespace Run

/-- A run fetches pages. -/
theorem fetches (h : cursor.Run s rows result s') : Fetches s s' := by
  induction h with
  | @ended cursor cursor' s s' h | @failed cursor cursor' s s' e h =>
    have hfetches := Store.fetches_pull cursor s
    rw [h] at hfetches
    exact hfetches
  | @row cursor cursor' s s' s'' row rows result h rest ih =>
    have hfetches := Store.fetches_pull cursor s
    rw [h] at hfetches
    exact hfetches.trans ih

theorem drainWithin (h : cursor.Run s rows result s') (hlimit : rows.length < limit) :
    (cursor.drainWithin limit s).1 = result.map fun _ => rows := by
  induction h generalizing limit with
  | ended h | failed h =>
    obtain ⟨limit, rfl⟩ := Nat.exists_eq_add_of_lt hlimit
    rw [List.length_nil, Nat.zero_add, Cursor.drainWithin, h]
    rfl
  | @row cursor cursor' s s' s'' row rows result h rest ih =>
    obtain ⟨limit, rfl⟩ : ∃ rest, limit = rest + 1 := ⟨limit - 1, by omega⟩
    have hrest := ih (Nat.succ_lt_succ_iff.mp hlimit)
    rw [Cursor.drainWithin, h]
    dsimp only
    rcases hdrain : cursor'.drainWithin limit s' with ⟨e | more, last⟩ <;> rw [hdrain] at hrest <;>
      cases result <;> cases hrest <;> rfl

/-- A fold that does not fail on any of the rows ends as the run does. -/
theorem foldWithin (h : cursor.Run s rows result s') (hlimit : rows.length < limit)
    (hfold : rows.foldlM f acc = .ok acc') :
    cursor.foldWithin f limit acc s = ((result.map fun _ => acc').mapError .table, s') := by
  induction h generalizing limit acc with
  | ended h | failed h =>
    cases hfold
    obtain ⟨limit, rfl⟩ := Nat.exists_eq_add_of_lt hlimit
    rw [List.length_nil, Nat.zero_add, Cursor.foldWithin, h]
    rfl
  | @row cursor cursor' s s' s'' row rows result h rest ih =>
    obtain ⟨limit, rfl⟩ : ∃ rest, limit = rest + 1 := ⟨limit - 1, by omega⟩
    rw [List.foldlM_cons] at hfold
    rw [Cursor.foldWithin, h]
    dsimp only
    cases hnext : f acc row with
    | error e =>
      rw [hnext] at hfold
      cases hfold
    | ok next =>
      rw [hnext] at hfold
      exact ih (Nat.succ_lt_succ_iff.mp hlimit) hfold

end Run

/-- A request that is answered with a row leaves less room for others. -/
theorem room_lt_of_pull {cursor' : Cursor} {row : Row} {most : Nat} (hs : s.Coherent)
    (hmost : ∀ page content, s.view.page page = .ok content → content.slots ≤ most)
    (hopen : cursor.isOpen = true) (h : cursor.pull s = (.ok (some row), cursor', s')) :
    s'.Coherent ∧ s'.view = s.view ∧ cursor'.isOpen = true ∧
      s.view.room cursor' most < s.view.room cursor most := by
  have hfetches := Store.fetches_pull cursor s
  have hpull := Store.pull_eq_of_ok hs (congrArg Prod.fst h)
  rw [h] at hfetches hpull
  refine ⟨(Fetches.moves hfetches).coherent hs, Fetches.view hfetches hs, ?_⟩
  rcases View.pull_spec hmost hopen hpull with ⟨e, he, -⟩ | ⟨hnone, -⟩ | ⟨_, -, -, hopen', hlt⟩
  · cases he
  · cases hnone
  · exact ⟨hopen', hlt⟩

/-- A cursor comes to an end. -/
theorem exists_run (hs : s.Coherent) (hopen : cursor.isOpen = true) :
    ∃ rows result s', cursor.Run s rows result s' := by
  -- the rows there is room for get fewer, though what is cached need not
  suffices hbound : ∀ most room, ∀ (cursor : Cursor) (s : Store), s.Coherent →
      cursor.isOpen = true →
      (∀ page content, s.view.page page = .ok content → content.slots ≤ most) →
      s.view.room cursor most = room → ∃ rows result s', cursor.Run s rows result s' from
    hbound s.slotLimit _ cursor s hs hopen (fun _ _ => Store.slots_le_slotLimit hs) rfl
  intro most room
  induction room using Nat.strong_induction_on with
  | _ room ih =>
    rintro cursor s hs hopen hmost rfl
    rcases hpull : cursor.pull s with ⟨e | _ | row, cursor', s'⟩
    · exact ⟨[], _, s', .failed hpull⟩
    · exact ⟨[], _, s', .ended hpull⟩
    · obtain ⟨hs', hview, hopen', hlt⟩ := room_lt_of_pull hs hmost hopen hpull
      obtain ⟨rows, result, s'', hrun⟩ := ih _ hlt cursor' s' hs' hopen' (hview ▸ hmost)
        (congrArg (View.room · cursor' most) hview)
      exact ⟨row :: rows, result, s'', .row hpull hrun⟩

namespace Run

/-- A run has no more rows than there is room for. -/
theorem length_le {most : Nat} (h : cursor.Run s rows result s') (hs : s.Coherent)
    (hmost : ∀ page content, s.view.page page = .ok content → content.slots ≤ most)
    (hopen : cursor.isOpen = true) : rows.length ≤ s.view.room cursor most := by
  induction h with
  | ended | failed => exact Nat.zero_le _
  | @row cursor cursor' s s' s'' row rows result h rest ih =>
    obtain ⟨hs', hview, hopen', hlt⟩ := room_lt_of_pull hs hmost hopen h
    have hle := ih hs' (hview ▸ hmost) hopen'
    rw [hview] at hle
    rw [List.length_cons]
    omega

/-- A cursor that was just opened is drained to its end. -/
theorem length_lt (h : cursor.start.Run s rows result s') (hs : s.Coherent) :
    rows.length < cursor.start.rowLimit s + 1 := by
  have hle := h.length_le hs (fun _ _ => Store.slots_le_slotLimit hs) rfl
  exact Nat.lt_succ_of_le hle

end Run

end Cursor

/-- Once pages were fetched every page is fetched as before. -/
theorem Store.Fetches.follows {s t : Store} (h : Store.Fetches s t) (hs : s.Coherent)
    (hissued : s.Issued) : s.Follows False t :=
  ⟨hs, (Store.Fetches.moves h).coherent hs, hissued, hissued.moves (Store.Fetches.moves h),
    congrArg View.disk (Store.Fetches.view h hs),
    fun page => .same (by rw [Store.Fetches.fetch h hs hissued])⟩

namespace Cursor

open Store (Fetches)

variable {cursor : Cursor} {s s' t : Store} {table : Table} {rows seen : List Row}
  {result : Except TableError Unit}

/-- A cursor on a store that follows hands out the same rows. -/
theorem Run.of_follows (h : cursor.Run s rows (.ok ()) s') (hfollows : s.Follows False t) :
    ∃ t', cursor.Run t rows (.ok ()) t' := by
  generalize hresult : Except.ok () = result at h
  induction h generalizing t with
  | failed => cases hresult
  | @ended cursor cursor' s s' h =>
    have hmatches := cursor.matches_pull hfollows
    rcases hpull : cursor.pull t with ⟨answer, moved, t'⟩
    rw [h, hpull] at hmatches
    cases hmatches with
    | same hsame =>
      simp only [Prod.mk.injEq] at hsame
      obtain ⟨rfl, rfl⟩ := hsame
      exact ⟨t', .ended hpull⟩
    | first hrefused => cases hrefused
    | second hexcused => exact hexcused.elim
  | @row cursor cursor' s s' s'' row rows result h rest ih =>
    have hmatches := cursor.matches_pull hfollows
    have hnext := hfollows.fetches (Store.fetches_pull cursor s) (Store.fetches_pull cursor t)
    rcases hpull : cursor.pull t with ⟨answer, moved, t'⟩
    rw [h, hpull] at hmatches hnext
    cases hmatches with
    | same hsame =>
      simp only [Prod.mk.injEq] at hsame
      obtain ⟨rfl, rfl⟩ := hsame
      obtain ⟨t'', hrest⟩ := ih hnext hresult
      exact ⟨t'', .row hpull hrest⟩
    | first hrefused => cases hrefused
    | second hexcused => exact hexcused.elim

/-- The rows that are handed out are stored on pages of the table. -/
theorem Run.stored (h : cursor.Run t rows result s') (hreading : Reading s table t cursor seen)
    (hs : s.Coherent) (ht : t.Coherent) :
    ∀ row ∈ rows, ∃ record, s.view.entries record = some row ∧ record.page.table = table.id := by
  induction h generalizing seen with
  | ended | failed => simp
  | @row cursor cursor' t t' t'' row rows result h rest ih =>
    have hpulled := hreading.pull ht
    have hfetches := Store.fetches_pull cursor t
    rw [h] at hpulled hfetches
    have hrest := ih hpulled ((Fetches.moves hfetches).coherent ht)
    rintro other (_ | ⟨_, hother⟩)
    · obtain ⟨record, hentry, -, htable, -⟩ :=
        hpulled.passed hs (List.mem_append_right _ (List.mem_singleton_self row))
      exact ⟨record, hentry, htable⟩
    · exact hrest other hother

end Cursor

/-- A row of a page of a table has the schema of the table, and a value of its kind in each column.
-/
theorem Store.Coherent.wellTyped_of_entry {s : Store} {table : Table} {record : RecordId} {row : Row}
    (hs : s.Coherent) (ht : s.catalog.table table.id = .ok table)
    (hentry : s.view.entries record = some row) (htable : record.page.table = table.id) :
    row.schema = table.schema ∧ row.WellTyped := by
  obtain ⟨content, hpage⟩ : ∃ content, s.view.page record.page = .ok content :=
    View.exists_page_of_isSome (by rw [hentry]; rfl)
  rw [View.entries_of_page hpage] at hentry
  rw [hs.page_view] at hpage
  obtain ⟨table', ht', hschema, -⟩ := hs.table_of_shown hpage
  rw [htable, ht, Except.ok.injEq] at ht'
  subst ht'
  obtain ⟨stored, hstored, rfl⟩ := Page.decode_of_read? hentry
  have hrow : stored.WellTyped := Row.wellTyped_of_decode hstored
  exact ⟨(Page.schema_of_read? hentry).trans hschema, hrow⟩

end RowStore
