import RowStore.Proofs.Entries
import RowStore.Proofs.Store.Tags
import RowStore.Proofs.View.Advance

/-!
# RowStore.Proofs.Interleaving: a scan while its table changes

A cursor that is open is asked for rows while others insert and delete rows, commit and abort.  Each
action moves it on by some pages, or none, and what it takes in are the rows that are stored on
those pages at that moment (`Session.advance_act`).  As pages are passed in order and each but once,
the rows it hands out ascend, each was stored when its page was read, and a row that stays where it
is from the opening of the cursor to its end is not missed.  A request that fails loses nothing: the
next one answers as the failed one would have answered.
-/

namespace RowStore

/-! ## Rows in ascending order -/

/-- Rows that know their records, which ascend through the pages of a table from `low` on and below
`high`. -/
def Ascend (table : TableId) (low high : Nat) (rows : List Row) : Prop :=
  ∃ records : List RecordId, List.Forall₂ (fun record row => row.record = some record) records rows ∧
    records.Pairwise RecordId.Precedes ∧
    ∀ record ∈ records, record.page.table = table ∧ low ≤ record.page.number ∧
      record.page.number < high

namespace Ascend

variable {table : TableId} {low middle high : Nat} {rows more : List Row}

theorem nil : Ascend table low high [] :=
  ⟨[], .nil, .nil, by simp⟩

theorem of_lists {entries : Entries} (h : entries.Lists (fun record => record.page.table = table ∧
    low ≤ record.page.number ∧ record.page.number < high) rows) : Ascend table low high rows := by
  obtain ⟨records, hsorted, hmem, hrows⟩ := h
  exact ⟨records, hrows.imp fun _ _ h => h.2, hsorted, fun record hin => ((hmem record).mp hin).1⟩

theorem append (h : Ascend table low middle rows) (h' : Ascend table middle high more)
    (hlow : low ≤ middle) (hhigh : middle ≤ high) : Ascend table low high (rows ++ more) := by
  obtain ⟨records, hrows, hsorted, hin⟩ := h
  obtain ⟨records', hmore, hsorted', hin'⟩ := h'
  refine ⟨records ++ records', List.rel_append hrows hmore, ?_, fun record hmem => ?_⟩
  · refine List.pairwise_append.mpr ⟨hsorted, hsorted', fun a ha b hb => ?_⟩
    obtain ⟨hta, -, hlt⟩ := hin a ha
    obtain ⟨htb, hle, -⟩ := hin' b hb
    exact (RecordId.compare_eq_lt_iff a b).mpr (Or.inr ⟨by rw [hta, htb], Or.inl (by omega)⟩)
  · rcases List.mem_append.mp hmem with hmem | hmem
    · obtain ⟨ht, hle, hlt⟩ := hin record hmem
      exact ⟨ht, hle, by omega⟩
    · obtain ⟨ht, hle, hlt⟩ := hin' record hmem
      exact ⟨ht, by omega, hlt⟩

theorem of_append (h : Ascend table low high (rows ++ more)) : Ascend table low high rows := by
  obtain ⟨records, hrows, hsorted, hin⟩ := h
  have htake := List.forall₂_take rows.length hrows
  rw [List.take_left] at htake
  exact ⟨records.take rows.length, htake, hsorted.sublist (List.take_sublist _ _),
    fun record hmem => hin record (List.mem_of_mem_take hmem)⟩

theorem nodup (h : Ascend table low high rows) : rows.Nodup := by
  obtain ⟨records, hrows, hsorted, -⟩ := h
  induction hrows with
  | nil => exact .nil
  | @cons record row records rows hrow hrest ih =>
    obtain ⟨hfirst, hsorted⟩ := List.pairwise_cons.mp hsorted
    refine List.nodup_cons.mpr ⟨fun hmem => ?_, ih hsorted⟩
    obtain ⟨other, hother, hsame⟩ := Entries.exists_of_mem_right hrest hmem
    rw [hrow, Option.some.injEq] at hsame
    exact (Std.Irrefl.irrefl other : ¬ other.Precedes other) (hsame ▸ hfirst other hother)

end Ascend

/-! ## One action -/

namespace Action

variable {action : Action} {number : Nat}

/-- Whether an action reads with a cursor. -/
def asks (number : Nat) : Action → Bool
  | .ask (.hasNext cursor) | .ask (.next cursor) => cursor == number
  | _ => false

/-- Whether an action opens or closes a cursor. -/
def resets (number : Nat) : Action → Bool
  | .ask (.start cursor) | .ask (.close cursor) => cursor == number
  | _ => false

theorem uses_eq_false (hasks : action.asks number = false) (hresets : action.resets number = false) :
    action.uses number = false := by
  rcases action with request | page | handle
  · cases request <;> first | rfl | exact hasks | exact hresets
  · rfl
  · rfl

end Action

namespace Session

variable {x : Session} {number : Nat} {cursor cursor' : Cursor} {action : Action} {run : List Action}

/-- The rows that a cursor takes in because of an action. -/
def taken (number : Nat) (x : Session) (action : Action) : List Row :=
  match x.cursors[number]? with
  | some cursor => if action.asks number then cursor.taken x.store else []
  | none => []

/-- The row that an action hands out, if it asks a cursor for one. -/
def handed (number : Nat) (x : Session) : Action → List Row
  | .ask (.next asked) =>
    match x.cursors[number]? with
    | some cursor => if asked = number then Cursor.handed (cursor.pull x.store).1 else []
    | none => []
  | _ => []

/-- What every action of a run gives, one after the other. -/
def collect (give : Session → Action → List Row) : Session → List Action → List Row
  | _, [] => []
  | x, action :: run => give x action ++ collect give (x.act action) run

theorem taken_of_not_asks (h : action.asks number = false) : x.taken number action = [] := by
  unfold taken
  cases x.cursors[number]? with
  | none => rfl
  | some cursor => rw [h]; rfl

theorem handed_of_not_asks (h : action.asks number = false) : x.handed number action = [] := by
  unfold handed
  split
  · rename_i asked
    have hne : asked ≠ number := beq_eq_false_iff_ne.mp h
    split
    · rw [if_neg hne]
    · rfl
  · rfl

/-- Every action moves an open cursor on by some pages or none, and what the cursor takes in is
handed out once or stays in its buffer. -/
theorem advance_act (hx : x.store.Coherent) (hcursor : x.cursors[number]? = some cursor)
    (hopen : cursor.isOpen = true) (hresets : action.resets number = false) :
    ∃ cursor', (x.act action).cursors[number]? = some cursor' ∧
      x.store.view.Advance cursor cursor' (x.taken number action) ∧
      cursor.buffer ++ x.taken number action = x.handed number action ++ cursor'.buffer := by
  by_cases hasks : action.asks number = true
  · have htaken : x.taken number action = cursor.taken x.store := by
      rw [taken, hcursor]
      exact if_pos hasks
    rcases action with request | page | handle
    · cases request with
      | hasNext asked =>
        obtain rfl : asked = number := beq_iff_eq.mp hasks
        refine ⟨_, cursor_hasNext hcursor, htaken ▸ Cursor.advance_hasNext hx hopen, ?_⟩
        rw [htaken]
        exact (Cursor.buffer_hasNext hopen).symm
      | next asked =>
        obtain rfl : asked = number := beq_iff_eq.mp hasks
        refine ⟨_, cursor_next hcursor, htaken ▸ Cursor.advance_pull hx hopen, ?_⟩
        rw [htaken, handed, hcursor]
        dsimp only
        rw [if_pos rfl]
        exact Cursor.buffer_append_taken hopen
      | _ => cases hasks
    · cases hasks
    · cases hasks
  · have hnot : action.asks number = false := by simpa using hasks
    rw [taken_of_not_asks hnot, handed_of_not_asks hnot]
    exact ⟨cursor, cursor_act hcursor (Action.uses_eq_false hnot hresets),
      .of_next_eq rfl rfl rfl, by simp⟩

/-! ## A run -/

/-- No page is flushed, and the cursor is neither opened nor closed. -/
def Leaves (number : Nat) (run : List Action) : Prop :=
  ∀ action ∈ run, action.isFlush = false ∧ action.resets number = false

theorem Leaves.head (h : Leaves number (action :: run)) :
    action.isFlush = false ∧ action.resets number = false :=
  h action List.mem_cons_self

theorem Leaves.tail (h : Leaves number (action :: run)) : Leaves number run :=
  fun other hin => h other (List.mem_cons_of_mem _ hin)

/-- A cursor that was open goes through the pages in order, and hands out what it takes in. -/
theorem advance_foldl (hx : x.store.Coherent) (hrun : Leaves number run)
    (hcursor : x.cursors[number]? = some cursor) (hopen : cursor.isOpen = true) :
    ∃ cursor', (run.foldl act x).cursors[number]? = some cursor' ∧ cursor'.table = cursor.table ∧
      cursor'.isOpen = true ∧ cursor.next ≤ cursor'.next ∧
      cursor.buffer ++ collect (taken number) x run =
        collect (handed number) x run ++ cursor'.buffer ∧
      Ascend cursor.table.id cursor.next cursor'.next (collect (taken number) x run) := by
  -- by induction on the run from its first action on, for whatever the buffer holds by then
  induction run generalizing x cursor with
  | nil => exact ⟨cursor, hcursor, rfl, hopen, Nat.le_refl _, by simp [collect], .nil⟩
  | cons action run ih =>
    obtain ⟨moved, hmoved, hadvance, hbuffer⟩ := advance_act hx hcursor hopen hrun.head.2
    obtain ⟨cursor', hcursor', htable, hopen', hle, hrest, hascend⟩ :=
      ih (coherent_act hx hrun.head.1) hrun.tail hmoved (hadvance.isOpen.trans hopen)
    refine ⟨cursor', hcursor', htable.trans hadvance.table, hopen',
      Nat.le_trans hadvance.next_le hle, ?_, ?_⟩
    · rw [collect, collect, ← List.append_assoc, hbuffer, List.append_assoc, hrest,
        List.append_assoc]
    · rw [hadvance.table] at hascend
      exact (Ascend.of_lists (hadvance.lists hx.keyed_view)).append hascend hadvance.next_le hle

/-- Every row that is taken in is stored at its record at that moment, on a page that the cursor
passes. -/
theorem stored_of_taken {row : Row} (hx : x.store.Coherent) (hrun : Leaves number run)
    (hcursor : x.cursors[number]? = some cursor) (hopen : cursor.isOpen = true)
    (hrow : row ∈ collect (taken number) x run) :
    ∃ earlier action later record from_ to_, run = earlier ++ action :: later ∧
      action.asks number = true ∧ row.record = some record ∧
      (earlier.foldl act x).entries record = some row ∧
      (earlier.foldl act x).cursors[number]? = some from_ ∧
      ((earlier.foldl act x).act action).cursors[number]? = some to_ ∧
      from_.next ≤ record.page.number ∧ record.page.number < to_.next := by
  induction run generalizing x cursor with
  | nil => cases hrow
  | cons action run ih =>
    obtain ⟨moved, hmoved, hadvance, -⟩ := advance_act hx hcursor hopen hrun.head.2
    rcases List.mem_append.mp hrow with hnow | hlater
    · obtain ⟨record, ⟨-, hle, hlt⟩, hentry, hrecord⟩ :=
        (hadvance.lists hx.keyed_view).of_mem hnow
      have hasks : action.asks number = true := by
        by_contra hnot
        rw [taken_of_not_asks (by simpa using hnot)] at hnow
        cases hnow
      exact ⟨[], action, run, record, cursor, moved, rfl, hasks, hrecord, hentry, hcursor, hmoved,
        hle, hlt⟩
    · obtain ⟨earlier, other, later, record, from_, to_, rfl, hrest⟩ :=
        ih (coherent_act hx hrun.head.1) hrun.tail hmoved (hadvance.isOpen.trans hopen) hlater
      exact ⟨action :: earlier, other, later, record, from_, to_, rfl, hrest⟩

/-- A row that stays at its record is taken in when its page is passed. -/
theorem mem_taken {record : RecordId} {row : Row} (hx : x.store.Coherent)
    (hrun : Leaves number run) (hcursor : x.cursors[number]? = some cursor)
    (hopen : cursor.isOpen = true) (hcursor' : (run.foldl act x).cursors[number]? = some cursor')
    (htable : record.page.table = cursor.table.id) (hle : cursor.next ≤ record.page.number)
    (hlt : record.page.number < cursor'.next)
    (hstays : ∀ earlier later, run = earlier ++ later →
      (earlier.foldl act x).entries record = some row) : row ∈ collect (taken number) x run := by
  induction run generalizing x cursor with
  | nil =>
    rw [List.foldl_nil, hcursor, Option.some.injEq] at hcursor'
    rw [hcursor'] at hle
    omega
  | cons action run ih =>
    obtain ⟨moved, hmoved, hadvance, -⟩ := advance_act hx hcursor hopen hrun.head.2
    have hnow : x.entries record = some row := hstays [] _ rfl
    refine List.mem_append.mpr ?_
    by_cases hpassed : record.page.number < moved.next
    · exact Or.inl ((hadvance.lists hx.keyed_view).mem ⟨htable, hle, hpassed⟩ hnow)
    · right
      refine ih (coherent_act hx hrun.head.1) hrun.tail hmoved (hadvance.isOpen.trans hopen)
        hcursor' (hadvance.table ▸ htable) (by omega) fun earlier later heq => ?_
      exact hstays (action :: earlier) later (by rw [heq]; rfl)

end Session

/-! ## After a failure -/

namespace Store

variable {s t : Store} {disk : Disk} {cursor : Cursor}

/-- Other files that have every page that could be read, as it was. -/
def Repairs (s : Store) (disk : Disk) : Prop :=
  ∀ page content, s.stored page = .ok content → s.catalog.stored disk page = .ok content

theorem Coherent.repaired (hs : s.Coherent) (h : s.Repairs disk) : Coherent { s with disk } := by
  have hbytes : ∀ {page data}, s.storedBytes page = .ok data →
      storedBytes { s with disk } page = .ok data := by
    intro page data hdata
    obtain ⟨content, hstored, rfl⟩ := storedBytes_eq_ok_iff.mp hdata
    exact storedBytes_eq_ok_iff.mpr ⟨content, h page content hstored, rfl⟩
  refine ⟨⟨hs.sound, hs.valid, fun {page frame} hf => ?_⟩,
    fun page frame hf hclean => hbytes (hs.clean page frame hf hclean),
    fun page frame hf => hbytes (hs.before page frame hf)⟩
  obtain ⟨content, hstored, hrest⟩ := hs.seated hf
  exact ⟨content, h page content hstored, hrest⟩

/-- Where the pages that could be read are as they were, a cursor answers after a failure what it
would answer if it had not been asked before, unless it is refused. -/
theorem pull_after_error {e : TableError} (hs : s.Coherent) (ht : t.Coherent)
    (hopen : cursor.isOpen = true) (herror : (cursor.pull s).1 = .error e)
    (hsame : ∀ number content, s.view.page ⟨cursor.table.id, number⟩ = .ok content →
      (t.view.page ⟨cursor.table.id, number⟩).map Page.written = .ok content.written) :
    ((cursor.pull s).2.1.pull t).1 = (t.view.pull cursor).1 ∨
      isRefused ((cursor.pull s).2.1.pull t).1 = true := by
  obtain ⟨hbuffer, hbuffer'⟩ := Cursor.buffer_of_pull_error herror
  have hadvance := Cursor.advance_of_pull_error hs hopen herror
  have hadvance' : t.view.Advance cursor (cursor.pull s).2.1 [] := by
    refine hadvance.congr fun number hle hlt => ?_
    obtain ⟨content, hpage⟩ := hadvance.exists_page hle hlt
    rw [hpage]
    exact hsame number content hpage
  refine (pull_refines ht (cursor.pull s).2.1).2.imp (fun hanswer => ?_) id
  rw [← View.fst_pull_of_advance hadvance' hbuffer hbuffer', ← hanswer]

end Store

namespace Session

variable {x : Session} {number : Nat} {cursor : Cursor} {run : List Action}

theorem coherent_foldl (hx : x.store.Coherent) (hrun : ∀ action ∈ run, action.isFlush = false) :
    (run.foldl act x).store.Coherent ∧ (run.foldl act x).store.catalog = x.store.catalog := by
  induction run generalizing x with
  | nil => exact ⟨hx, rfl⟩
  | cons action run ih =>
    obtain ⟨hcoherent, hcatalog⟩ := ih (coherent_act hx (hrun action List.mem_cons_self))
      fun other hin => hrun other (List.mem_cons_of_mem _ hin)
    exact ⟨hcoherent, hcatalog.trans (catalog_act hx.valid action)⟩

theorem tagged_foldl (hx : x.store.Coherent) (ht : x.store.Tagged)
    (hrun : ∀ action ∈ run, action.isFlush = false) : (run.foldl act x).store.Tagged := by
  induction run generalizing x with
  | nil => exact ht
  | cons action run ih =>
    exact ih (coherent_act hx (hrun action List.mem_cons_self)) (tagged_act ht hx.valid action)
      fun other hin => hrun other (List.mem_cons_of_mem _ hin)

theorem cursor_foldl (h : x.cursors[number]? = some cursor)
    (hrun : ∀ action ∈ run, action.uses number = false) :
    (run.foldl act x).cursors[number]? = some cursor := by
  induction run generalizing x with
  | nil => exact h
  | cons action run ih =>
    exact ih (cursor_act h (hrun action List.mem_cons_self))
      fun other hin => hrun other (List.mem_cons_of_mem _ hin)

/-- The cursor answers that it has no more rows. -/
def Ends (number : Nat) (x : Session) (last : Action) : Prop :=
  last = .ask (.next number) ∧ (x.respond (.next number)).1 = .row (.ok none) ∨
    last = .ask (.hasNext number) ∧ (x.respond (.hasNext number)).1 = .more (.ok false)

/-- What a cursor that was just opened on a table does while a run changes the table. -/
structure Scans (number : Nat) (table : Table) (x : Session) (run : List Action) : Prop where
  /-- The rows it hands out are in strictly ascending order of records, so none comes twice. -/
  ascending : (∃ high, Ascend table.id 0 high (collect (handed number) x run)) ∧
    (collect (handed number) x run).Nodup
  /-- Each of them was stored at its record when the cursor passed the page. -/
  stored : ∀ row ∈ collect (handed number) x run, ∃ earlier action later record from_ to_,
    run = earlier ++ action :: later ∧ action.asks number = true ∧ row.record = some record ∧
      (earlier.foldl act x).entries record = some row ∧
      (earlier.foldl act x).cursors[number]? = some from_ ∧
      ((earlier.foldl act x).act action).cursors[number]? = some to_ ∧
      from_.next ≤ record.page.number ∧ record.page.number < to_.next
  /-- When it comes to its end, every row that stayed at its record all the time was handed out
  once.  The table has to be the one that is registered, or a namesake with pages of that size. -/
  complete : (∀ registered, x.store.catalog.table table.id = .ok registered →
      registered.file = table.file ∧ registered.pageSize = table.pageSize) →
    ∀ most last, run = most ++ [last] → Ends number (most.foldl act x) last →
      ∀ record row, record.page.table = table.id →
        (∀ earlier later, run = earlier ++ later →
          (earlier.foldl act x).entries record = some row) →
        (collect (handed number) x run).count row = 1
  /-- A request for a row that fails loses nothing.  Whatever is done afterwards, where the pages of
  the table that could be read hold what they held, the next request is answered from the pages as
  if the failed one had not been made, and as that one would have been answered if no page had been
  refused; unless it is refused itself, which it is not when there is room. -/
  resumes : ∀ e, ((run.foldl act x).respond (.next number)).1 = .row (.error e) →
    ∃ cursor, (run.foldl act x).cursors[number]? = some cursor ∧
      ∀ (later : List Action) (disk : Disk),
        (∀ action ∈ later, action.isFlush = false ∧ action.uses number = false) →
        let failed := (run.foldl act x).store
        let after := later.foldl act ((run.foldl act x).respond (.next number)).2
        let retried : Session := { after with store := { after.store with disk } }
        after.store.Repairs disk →
        (∀ page content, page.table = table.id → failed.view.page page = .ok content →
          (retried.store.view.page page).map Page.written = .ok content.written) →
        (retried.respond (.next number)).1 = .row (retried.store.view.pull cursor).1 ∧
            ((∀ page, page.table = table.id → (retried.store.view.page page).map Page.written =
                (failed.view.page page).map Page.written) →
              table.pageCount retried.store.disk = table.pageCount failed.disk →
              (retried.respond (.next number)).1 = .row (failed.view.pull cursor).1) ∨
          (retried.respond (.next number)).1.isRefused = true ∧ ¬ retried.store.HasRoom

/-- A row on a page of a table is on one of the pages a scan passes. -/
theorem number_lt_of_entry {record : RecordId} {row : Row} {table : Table} (hx : x.store.Coherent)
    (htable : ∀ registered, x.store.catalog.table table.id = .ok registered →
      registered.file = table.file ∧ registered.pageSize = table.pageSize)
    (hrecord : record.page.table = table.id) (hentry : x.entries record = some row) :
    record.page.number < table.pageCount x.store.disk := by
  have hsome : (x.store.view.entries record).isSome = true :=
    Option.isSome_iff_exists.mpr ⟨row, hentry⟩
  obtain ⟨content, hpage⟩ := View.exists_page_of_isSome hsome
  have hshown := hpage
  rw [hx.page_view] at hshown
  obtain ⟨registered, ht, -⟩ := hx.table_of_shown hshown
  have hlt := hx.number_lt_pageCount hpage ht
  obtain ⟨hfile, hsize⟩ := htable registered (hrecord ▸ ht)
  rwa [Table.pageCount, Table.pagedFile, hfile, hsize] at hlt

/-- A cursor that answers that it has no more rows has passed all pages and handed out all it took
in. -/
theorem cursor_of_ends {last : Action} (hcursor : x.cursors[number]? = some cursor)
    (hopen : cursor.isOpen = true) (h : Ends number x last) :
    ∃ cursor', (x.act last).cursors[number]? = some cursor' ∧ cursor'.buffer = [] ∧
      cursor.table.pageCount x.store.disk ≤ cursor'.next := by
  rcases h with ⟨rfl, hanswer⟩ | ⟨rfl, hanswer⟩
  · rw [respond_next hcursor] at hanswer
    exact ⟨_, cursor_next hcursor, Cursor.pull_eq_none hopen (Response.row.inj hanswer)⟩
  · rw [respond_hasNext hcursor] at hanswer
    exact ⟨_, cursor_hasNext hcursor, Cursor.hasNext_eq_false hopen (Response.more.inj hanswer)⟩

theorem mem_handed_of_ends {last : Action} {most : List Action} {record : RecordId} {row : Row}
    (hx : x.store.Coherent) (hrun : Leaves number (most ++ [last]))
    (hcursor : x.cursors[number]? = some cursor) (hopen : cursor.isOpen = true)
    (hfirst : cursor.next = 0) (hbuffer : cursor.buffer = [])
    (htable : ∀ registered, x.store.catalog.table cursor.table.id = .ok registered →
      registered.file = cursor.table.file ∧ registered.pageSize = cursor.table.pageSize)
    (hends : Ends number (most.foldl act x) last) (hrecord : record.page.table = cursor.table.id)
    (hstays : ∀ earlier later, most ++ [last] = earlier ++ later →
      (earlier.foldl act x).entries record = some row) :
    row ∈ collect (handed number) x (most ++ [last]) := by
  have hmost : Leaves number most := fun action hin => hrun action (List.mem_append_left _ hin)
  obtain ⟨moved, hmoved, hmovedTable, hmovedOpen, -⟩ := advance_foldl hx hmost hcursor hopen
  obtain ⟨hy, hcatalog⟩ := coherent_foldl hx fun action hin => (hmost action hin).1
  obtain ⟨cursor', hlast, hbuffer', hcount⟩ := cursor_of_ends hmoved hmovedOpen hends
  have hcursor' : ((most ++ [last]).foldl act x).cursors[number]? = some cursor' := by
    rwa [List.foldl_append]
  -- all pages were passed, so the row was taken in, and all that was taken in was handed out
  have hlt := number_lt_of_entry hy (hcatalog ▸ htable) hrecord (hstays most [last] rfl)
  have htaken := mem_taken hx hrun hcursor hopen hcursor' hrecord (hfirst ▸ Nat.zero_le _)
    (Nat.lt_of_lt_of_le hlt (hmovedTable ▸ hcount)) hstays
  obtain ⟨found, hfound, -, -, -, hconserved, -⟩ := advance_foldl hx hrun hcursor hopen
  rw [hcursor', Option.some.injEq] at hfound
  rw [← hfound, hbuffer', hbuffer, List.nil_append, List.append_nil] at hconserved
  exact hconserved ▸ htaken

/-- The next request after one that failed. -/
theorem resumes_of_error {e : TableError} (hx : x.store.Coherent) (htagged : x.store.Tagged)
    (hcursor : x.cursors[number]? = some cursor) (hopen : cursor.isOpen = true)
    (herror : (x.respond (.next number)).1 = .row (.error e)) {later : List Action} {disk : Disk}
    (hlater : ∀ action ∈ later, action.isFlush = false ∧ action.uses number = false) :
    let after := later.foldl act (x.respond (.next number)).2
    let retried : Session := { after with store := { after.store with disk } }
    after.store.Repairs disk →
    (∀ page content, page.table = cursor.table.id → x.store.view.page page = .ok content →
      (retried.store.view.page page).map Page.written = .ok content.written) →
    (retried.respond (.next number)).1 = .row (retried.store.view.pull cursor).1 ∨
      (retried.respond (.next number)).1.isRefused = true ∧ ¬ retried.store.HasRoom := by
  intro after retried hrepairs hsame
  have hnext : Action.isFlush (.ask (.next number)) = false := rfl
  have hfailed : (x.respond (.next number)).2.store.Coherent := coherent_act hx hnext
  have hflush : ∀ action ∈ later, action.isFlush = false := fun action hin => (hlater action hin).1
  have hafter : after.store.Coherent := (coherent_foldl hfailed hflush).1
  have htagged' : after.store.Tagged :=
    tagged_foldl hfailed (tagged_act htagged hx.valid (.ask (.next number))) hflush
  have hretried : retried.store.Coherent := hafter.repaired hrepairs
  rw [respond_next hcursor] at herror
  have hcursor' : retried.cursors[number]? = some (cursor.pull x.store).2.1 :=
    cursor_foldl (cursor_next hcursor) fun action hin => (hlater action hin).2
  rw [respond_next hcursor']
  rcases Store.pull_after_error hx hretried hopen (Response.row.inj herror)
    fun number content hpage => hsame _ content rfl hpage with hanswer | hrefused
  · exact Or.inl (congrArg Response.row hanswer)
  · refine Or.inr ⟨hrefused, fun hroom => ?_⟩
    have hadmits : retried.store.Admits := ⟨hroom, htagged'.issued⟩
    rw [Store.isRefused_pull hretried hadmits] at hrefused
    cases hrefused

/-- A cursor that is opened in any state that was reached without flushing pages scans its table, in
whatever order others then change the table. -/
theorem scans_while_changed (hfresh : x.store.Fresh) (hsound : x.store.catalog.Sound)
    {before run : List Action} (hbefore : ∀ action ∈ before, action.isFlush = false)
    (hrun : Leaves number run) (hcursor : (before.foldl act x).cursors[number]? = some cursor) :
    Scans number cursor.table ((before.foldl act x).respond (.start number)).2 run := by
  obtain ⟨pageSize, capacity, hcache⟩ := id hfresh
  have hcoherent := (coherent_foldl (hfresh.coherent hsound) hbefore).1
  have htagged := tagged_foldl (hfresh.coherent hsound) (.of_ofCapacity hcache) hbefore
  generalize before.foldl act x = y at hcursor hcoherent htagged
  have hx : (y.respond (.start number)).2.store.Coherent := hcoherent
  have hcursor' : (y.respond (.start number)).2.cursors[number]? = some cursor.start := by
    simp [respond, moveCursor, hcursor]
  obtain ⟨last, hlast, htable, hopen, -, hconserved, hascend⟩ :=
    advance_foldl hx hrun hcursor' rfl
  have hhanded : Ascend cursor.table.id 0 last.next
      (collect (handed number) (y.respond (.start number)).2 run) := by
    have htaken : collect (taken number) (y.respond (.start number)).2 run =
        collect (handed number) (y.respond (.start number)).2 run ++ last.buffer := hconserved
    rw [htaken] at hascend
    exact hascend.of_append
  refine ⟨⟨⟨last.next, hhanded⟩, hhanded.nodup⟩, fun row hrow => ?_, ?_, ?_⟩
  · refine stored_of_taken hx hrun hcursor' rfl ?_
    have htaken : collect (taken number) (y.respond (.start number)).2 run =
        collect (handed number) (y.respond (.start number)).2 run ++ last.buffer := hconserved
    rw [htaken]
    exact List.mem_append_left _ hrow
  · rintro hregistered most final rfl hends record row hrecord hstays
    refine List.count_eq_one_of_mem hhanded.nodup ?_
    exact mem_handed_of_ends hx hrun hcursor' rfl rfl rfl hregistered hends hrecord hstays
  · intro e herror
    have hflush : ∀ action ∈ run, action.isFlush = false := fun action hin => (hrun action hin).1
    refine ⟨last, hlast, fun later disk hlater hrepairs hsame => ?_⟩
    refine (resumes_of_error (coherent_foldl hx hflush).1 (tagged_foldl hx htagged hflush) hlast
      hopen herror hlater hrepairs (htable ▸ hsame)).imp (fun hanswer => ⟨hanswer, ?_⟩) id
    intro hpages hcount
    rw [hanswer, View.pull_congr (htable ▸ hcount) fun number => hpages _ (htable ▸ rfl)]

end Session

namespace Sample

/-- Three rows on two pages, and a cursor on them. -/
def threeRows : List Action :=
  [.ask (.insert ⟨1⟩ table.id (row 1 10)), .ask (.insert ⟨1⟩ table.id (row 2 20)),
    .ask (.commit ⟨1⟩), .ask (.insert ⟨2⟩ table.id (row 3 30)), .ask (.commit ⟨2⟩),
    .ask (.addCursor table)]

/-- The first page is held while the cursor is to read the second, and loses the first row. -/
def heldMeanwhile : List Action :=
  [.ask (.next 0), .hold ⟨table.id, 0⟩,
    .ask (.delete ⟨3⟩ ((row 1 10).withRecord (some ⟨⟨table.id, 0⟩, 0⟩))), .ask (.next 0),
    .ask (.next 0), .ask (.commit ⟨3⟩), .release ⟨⟨table.id, 0⟩, 2⟩, .ask (.next 0),
    .ask (.insert ⟨4⟩ table.id (row 4 40)), .ask (.next 0)]

end Sample

/-- The third request is refused, and the one after it hands out the row; the row that is inserted
behind the cursor is not handed out. -/
theorem Session.scans_held :
    let x := Sample.threeRows.foldl act { store := Sample.store 1 Nat.one_pos }
    let started := (x.respond (.start 0)).2
    let third := (Sample.row 3 30).withRecord (some ⟨⟨Sample.table.id, 1⟩, 0⟩)
    (((Sample.heldMeanwhile.take 4).foldl act started).respond (.next 0)).1.isRefused = true ∧
      collect (handed 0) started Sample.heldMeanwhile =
        [(Sample.row 1 10).withRecord (some ⟨⟨Sample.table.id, 0⟩, 0⟩),
          (Sample.row 2 20).withRecord (some ⟨⟨Sample.table.id, 0⟩, 1⟩), third] ∧
      (collect (handed 0) started Sample.heldMeanwhile).Nodup := by
  intro x started third
  have hcursor : x.cursors[0]? = some { table := Sample.table } := by decide +kernel
  have hscans : Scans 0 Sample.table started Sample.heldMeanwhile :=
    scans_while_changed (x := { store := Sample.store 1 Nat.one_pos })
      (Sample.fresh_store 1 Nat.one_pos) Sample.sound_catalog
      (by simp [Sample.threeRows, Action.isFlush, Request.isFlush])
      (by simp [Leaves, Sample.heldMeanwhile, Action.isFlush, Request.isFlush, Action.resets])
      hcursor
  exact ⟨by decide +kernel, by decide +kernel, hscans.ascending.2⟩

end RowStore
