import RowStore.Proofs.Handles
import RowStore.Proofs.Store.Entries

/-!
# RowStore.Proofs.Entries: tables as maps from records to rows

Over files whose pages can be read, and while nothing is aborted, flushed or discarded, a session
behaves as a map from records to rows (`Session.Maps`), whatever its cache has room for.  Actions
other than inserts and deletes change nothing that a reader could tell (`Session.readsAs_act`), so
a cursor that is drained while only such actions come between hands out what a scan finds
(`Session.Drains.spec`): the entries of its table, each once and in order.
-/

namespace RowStore

/-! ## Actions -/

namespace Action

/-- Whether an action is neither an insert nor a delete, and nothing is aborted, flushed or
discarded. -/
def isCalm : Action → Bool
  | .ask (.commit _) => true
  | .ask request => request.isRead
  | .hold _ | .release _ => true

/-- Rows are inserted and deleted, and nothing is aborted, flushed or discarded. -/
def Plain : Action → Prop
  | .ask (.insert _ _ row) => row.WellTyped
  | .ask (.delete _ _) => True
  | action => action.isCalm = true

theorem plain_of_isCalm {action : Action} (h : action.isCalm = true) : action.Plain := by
  rcases action with request | page | handle
  · cases request <;> first | exact h | trivial
  · exact h
  · exact h

theorem isFlush_of_plain {action : Action} (h : action.Plain) : action.isFlush = false := by
  rcases action with request | page | handle
  · cases request <;> first | rfl | cases h
  · rfl
  · rfl

/-- Whether an action reads with a cursor, or opens or closes it. -/
def uses (number : Nat) : Action → Bool
  | .ask (.start cursor) | .ask (.hasNext cursor) | .ask (.next cursor) | .ask (.close cursor) =>
    cursor == number
  | _ => false

end Action

namespace Session

variable {x y z : Session} {action : Action} {number : Nat} {cursor : Cursor} {rows : List Row}

/-- The rows stored at records. -/
def entries (x : Session) : Entries :=
  x.store.view.entries

theorem view_readsAs_act (hx : x.store.Coherent) (h : action.isCalm = true) :
    x.store.view.ReadsAs (x.act action).store.view := by
  have hsame : ∀ {v : View}, v = x.store.view → x.store.view.ReadsAs v := by
    rintro v rfl
    exact .refl _
  cases action with
  | ask request =>
    by_cases hread : request.isRead = true
    · exact hsame (view_respond hx hread)
    · cases request with
      | commit tid =>
        have hwrites := (Store.commit_spec hx tid).2.1
        exact ⟨hwrites.shown, hwrites.length⟩
      | _ => first | exact absurd rfl hread | cases h
  | hold page =>
    have hfetch := (Store.fetch_refines hx (Prod.eta (x.store.fetch page)).symm).1
    exact hsame ((Store.sameFrames_hold x.store page).view.trans hfetch)
  | release handle => exact hsame (Store.sameFrames_release x.store handle).view

/-- `y` came of `x` without a change that a reader could tell, and its store is intact. -/
structure ReadsAs (x y : Session) : Prop where
  intact : y.store.Intact
  catalog : y.store.catalog = x.store.catalog
  view : x.store.view.ReadsAs y.store.view

theorem ReadsAs.refl (hx : x.store.Intact) : x.ReadsAs x :=
  ⟨hx, rfl, .refl x.store.view⟩

theorem ReadsAs.trans (h : x.ReadsAs y) (h' : y.ReadsAs z) : x.ReadsAs z :=
  ⟨h'.intact, h'.catalog.trans h.catalog, h.view.trans h'.view⟩

theorem ReadsAs.entries (h : x.ReadsAs y) : y.entries = x.entries :=
  h.view.entries

/-- A calm action changes nothing a reader could tell. -/
theorem readsAs_act (hx : x.store.Intact) (h : action.isCalm = true) : x.ReadsAs (x.act action) :=
  have hplain := Action.plain_of_isCalm h
  have hview := view_readsAs_act hx.toCoherent h
  have hcatalog := catalog_act hx.valid action
  ⟨⟨coherent_act hx.toCoherent (Action.isFlush_of_plain hplain), hview.readable hx.readable,
      hcatalog ▸ hx.addressable⟩,
    hcatalog, hview⟩

theorem readsAs_foldl (hx : x.store.Intact) {run : List Action}
    (h : ∀ action ∈ run, action.isCalm = true) : x.ReadsAs (run.foldl act x) := by
  induction run generalizing x with
  | nil => exact .refl hx
  | cons action run ih =>
    have hfirst := readsAs_act hx (h action List.mem_cons_self)
    exact hfirst.trans (ih hfirst.intact fun a ha => h a (List.mem_cons_of_mem _ ha))

theorem intact_act (hx : x.store.Intact) (h : action.Plain) : (x.act action).store.Intact := by
  have hcoherent := coherent_act hx.toCoherent (Action.isFlush_of_plain h)
  have haddressable : (x.act action).store.catalog.Addressable :=
    catalog_act hx.valid action ▸ hx.addressable
  by_cases hcalm : action.isCalm = true
  · exact (readsAs_act hx hcalm).intact
  · rcases action with request | page | handle
    · cases request with
      | insert tid id row =>
        exact ⟨hcoherent, (hx.insertRow h (Prod.eta (x.store.insertRow tid id row)).symm).1,
          haddressable⟩
      | delete tid row =>
        exact ⟨hcoherent, (hx.deleteRow (Prod.eta (x.store.deleteRow tid row)).symm).1,
          haddressable⟩
      | _ => exact absurd h hcalm
    · exact absurd rfl hcalm
    · exact absurd rfl hcalm

theorem intact_foldl (hx : x.store.Intact) {run : List Action}
    (h : ∀ action ∈ run, action.Plain) :
    (run.foldl act x).store.Intact ∧ (run.foldl act x).store.catalog = x.store.catalog := by
  induction run generalizing x with
  | nil => exact ⟨hx, rfl⟩
  | cons action run ih =>
    have haction := h action List.mem_cons_self
    obtain ⟨hintact, hcatalog⟩ :=
      ih (intact_act hx haction) fun a ha => h a (List.mem_cons_of_mem _ ha)
    exact ⟨hintact, hcatalog.trans (catalog_act hx.valid action)⟩

/-! ## Draining a cursor -/

/-- From `x` on, the cursor of this number hands out `rows` and then tells that there is no other,
which leaves `y`.  It may be asked whether there is another row, and other calm actions may come
between, also those of other cursors. -/
inductive Drains (number : Nat) : Session → List Row → Session → Prop
  | last {x : Session} (h : (x.respond (.next number)).1 = .row (.ok none)) :
    Drains number x [] (x.respond (.next number)).2
  | row {x y : Session} {row : Row} {rows : List Row}
    (h : (x.respond (.next number)).1 = .row (.ok (some row)))
    (hrest : Drains number (x.respond (.next number)).2 rows y) : Drains number x (row :: rows) y
  | more {x y : Session} {found : Bool} {rows : List Row}
    (h : (x.respond (.hasNext number)).1 = .more (.ok found))
    (hrest : Drains number (x.respond (.hasNext number)).2 rows y) : Drains number x rows y
  | other {x y : Session} {rows : List Row} (action : Action) (hcalm : action.isCalm = true)
    (hother : action.uses number = false) (hrest : Drains number (x.act action) rows y) :
    Drains number x rows y

theorem respond_next (h : x.cursors[number]? = some cursor) :
    x.respond (.next number) = (.row (cursor.pull x.store).1,
      { store := (cursor.pull x.store).2.2,
        cursors := x.cursors.set number (cursor.pull x.store).2.1 }) := by
  simp only [respond, askCursor, h]

theorem respond_hasNext (h : x.cursors[number]? = some cursor) :
    x.respond (.hasNext number) = (.more (cursor.hasNext x.store).1,
      { store := (cursor.hasNext x.store).2.2,
        cursors := x.cursors.set number (cursor.hasNext x.store).2.1 }) := by
  simp only [respond, askCursor, h]

theorem cursor_next (h : x.cursors[number]? = some cursor) :
    (x.respond (.next number)).2.cursors[number]? = some (cursor.pull x.store).2.1 := by
  rw [respond_next h]
  exact List.getElem?_set_self (List.getElem?_eq_some_iff.mp h).1

theorem cursor_hasNext (h : x.cursors[number]? = some cursor) :
    (x.respond (.hasNext number)).2.cursors[number]? = some (cursor.hasNext x.store).2.1 := by
  rw [respond_hasNext h]
  exact List.getElem?_set_self (List.getElem?_eq_some_iff.mp h).1

theorem cursors_askCursor_of_ne {α : Type} {asked : Nat}
    {ask : Cursor → Store → Except TableError α × Cursor × Store}
    {answer : Except TableError α → Response} (hne : asked ≠ number) :
    (x.askCursor asked ask answer).2.cursors[number]? = x.cursors[number]? := by
  unfold askCursor
  cases x.cursors[asked]? with
  | none => rfl
  | some cursor => exact List.getElem?_set_ne hne

theorem cursors_moveCursor_of_ne {moved : Nat} {move : Cursor → Cursor} (hne : moved ≠ number) :
    (x.moveCursor moved move).2.cursors[number]? = x.cursors[number]? := by
  simp [moveCursor, hne]

/-- An action that does not use a cursor leaves it as it is. -/
theorem cursor_act (h : x.cursors[number]? = some cursor) (hother : action.uses number = false) :
    (x.act action).cursors[number]? = some cursor := by
  rcases action with request | page | handle
  · cases request with
    | addCursor table =>
      exact (List.getElem?_append_left (List.getElem?_eq_some_iff.mp h).1).trans h
    | start moved => exact (cursors_moveCursor_of_ne (beq_eq_false_iff_ne.mp hother)).trans h
    | hasNext asked => exact (cursors_askCursor_of_ne (beq_eq_false_iff_ne.mp hother)).trans h
    | next asked => exact (cursors_askCursor_of_ne (beq_eq_false_iff_ne.mp hother)).trans h
    | close moved => exact (cursors_moveCursor_of_ne (beq_eq_false_iff_ne.mp hother)).trans h
    | _ => exact h
  · exact h
  · exact h

/-- A cursor that is drained hands out all it had left, and a reader could tell no difference
afterwards. -/
theorem Drains.spec (h : Drains number x rows y) (hx : x.store.Intact)
    (hcursor : x.cursors[number]? = some cursor) (hopen : cursor.isOpen = true) :
    x.store.view.rest cursor = .ok rows ∧ x.ReadsAs y := by
  -- by induction on the steps: what is left after a step, behind the row it handed out if any, is
  -- what was left before, because no step changes what the pages show
  induction h generalizing cursor with
  | @last x h =>
    have hreads := readsAs_act hx (show (Action.ask (.next number)).isCalm = true from rfl)
    rw [respond_next hcursor, Response.row.injEq] at h
    exact ⟨Store.rest_of_pull_none hx.toCoherent hopen h, hreads⟩
  | @row x y row rows h _ ih =>
    have hreads := readsAs_act hx (show (Action.ask (.next number)).isCalm = true from rfl)
    have hmoved := cursor_next hcursor
    rw [respond_next hcursor, Response.row.injEq] at h
    obtain ⟨hrest, hopen'⟩ := Store.rest_of_pull_some hx.toCoherent hopen h
    obtain ⟨hrows, hlater⟩ := ih hreads.intact hmoved hopen'
    refine ⟨?_, hreads.trans hlater⟩
    rw [hrest, ← hreads.view.rest]
    exact congrArg (Except.map (row :: ·)) hrows
  | @more x y found rows h _ ih =>
    have hreads := readsAs_act hx (show (Action.ask (.hasNext number)).isCalm = true from rfl)
    have hmoved := cursor_hasNext hcursor
    rw [respond_hasNext hcursor, Response.more.injEq] at h
    obtain ⟨hopen', hrest⟩ := Store.rest_of_hasNext hx.toCoherent hopen h
    obtain ⟨hrows, hlater⟩ := ih hreads.intact hmoved hopen'
    refine ⟨?_, hreads.trans hlater⟩
    rw [← hrest, ← hreads.view.rest]
    exact hrows
  | @other x y rows action hcalm hother _ ih =>
    have hreads := readsAs_act hx hcalm
    obtain ⟨hrows, hlater⟩ := ih hreads.intact (cursor_act hcursor hother) hopen
    exact ⟨(hreads.view.rest cursor).symm.trans hrows, hreads.trans hlater⟩

/-- A cursor on a registered table that is opened and drained lists the entries of the table. -/
theorem lists_of_drains (hx : x.store.Intact) (hcursor : x.cursors[number]? = some cursor)
    (ht : x.store.catalog.table cursor.table.id = .ok cursor.table)
    (h : Drains number (x.respond (.start number)).2 rows y) :
    x.entries.Lists (fun record => record.page.table = cursor.table.id) rows ∧ x.ReadsAs y := by
  have hstarted : ((x.respond (.start number)).2).cursors[number]? = some cursor.start := by
    simp [respond, moveCursor, hcursor]
  have hstart := readsAs_act hx (show (Action.ask (.start number)).isCalm = true from rfl)
  obtain ⟨hrest, hlater⟩ := h.spec hstart.intact hstarted rfl
  refine ⟨?_, hstart.trans hlater⟩
  have hscan : x.store.view.scan cursor.table = .ok rows := by
    rw [← View.rest_start]
    exact hrest
  exact View.lists_scan hx.keyed_view hscan (hx.pages_lt ht)

/-! ## Sessions as maps -/

/-- The session answers as a map from records to rows of the tables of a catalog. -/
structure Maps (catalog : Catalog) (x : Session) : Prop where
  /-- A successful insert adds one entry, at a record of the table that had none: the row with each
  text cut to what its column can hold. -/
  insert : ∀ tid id row record, row.WellTyped →
    (x.respond (.insert tid id row)).1 = .record (.ok record) →
      ∃ table, catalog.table id = .ok table ∧ record.page.table = id ∧
        x.entries record = none ∧
        (x.respond (.insert tid id row)).2.entries =
          Function.update x.entries record (some (row.keptAt table.schema record))
  /-- A successful delete removes the entry at the record of its row. -/
  delete : ∀ tid row page, (x.respond (.delete tid row)).1 = .changed (.ok page) →
    ∃ record, row.record = some record ∧ record.page = page ∧
      (x.entries record).isSome = true ∧
      (x.respond (.delete tid row)).2.entries = Function.update x.entries record none
  /-- A request that fails changes no entry. -/
  failed : ∀ request, (Action.ask request).Plain → (x.respond request).1.isOk = false →
    (x.respond request).2.entries = x.entries
  /-- Nothing but inserts and deletes changes an entry. -/
  calm : ∀ action : Action, action.isCalm = true → (x.act action).entries = x.entries
  /-- A page that is fetched has the entries in its slots. -/
  fetch : ∀ page content, (x.respond (.fetch page)).1 = .page (.ok content) →
    ∀ slot, x.entries ⟨page, slot⟩ = content.read? slot
  /-- A cursor on a registered table that is opened and drained lists the entries of the table. -/
  drain : ∀ number cursor rows y, x.cursors[number]? = some cursor →
    catalog.table cursor.table.id = .ok cursor.table →
    Drains number (x.respond (.start number)).2 rows y →
      x.entries.Lists (fun record => record.page.table = cursor.table.id) rows
  /-- A second cursor on the table hands out the same rows in the same order, when it is opened
  and drained before another row is inserted or deleted. -/
  again : ∀ number cursor rows y (later : List Action) second (other : Cursor) rows' z,
    x.cursors[number]? = some cursor → catalog.table cursor.table.id = .ok cursor.table →
    Drains number (x.respond (.start number)).2 rows y →
    (∀ action ∈ later, action.isCalm = true) →
    (later.foldl act y).cursors[second]? = some other → other.table = cursor.table →
    Drains second ((later.foldl act y).respond (.start second)).2 rows' z → rows' = rows

theorem maps_of_intact (hx : x.store.Intact) : x.Maps x.store.catalog where
  insert tid id row record hrow h := by
    have heq : (x.store.insertRow tid id row).1 = .ok record := Response.record.inj h
    obtain ⟨-, ⟨hfailed, -⟩ | ⟨told, table, htold, ht, hid, hfree, hentries⟩⟩ :=
      hx.insertRow hrow (Prod.eta (x.store.insertRow tid id row)).symm
    · exact absurd heq (hfailed record)
    · obtain rfl : record = told := Except.ok.inj (heq.symm.trans htold)
      exact ⟨table, ht, hid, hfree, hentries⟩
  delete tid row page h := by
    have heq : (x.store.deleteRow tid row).1 = .ok page := Response.changed.inj h
    obtain ⟨-, ⟨hfailed, -⟩ | ⟨record, htold, hrecord, hsome, hentries⟩⟩ :=
      hx.deleteRow (Prod.eta (x.store.deleteRow tid row)).symm
    · exact absurd heq (hfailed page)
    · exact ⟨record, hrecord, Except.ok.inj (htold.symm.trans heq), hsome, hentries⟩
  failed request hplain h := by
    by_cases hcalm : (Action.ask request).isCalm = true
    · exact (readsAs_act hx hcalm).entries
    · cases request with
      | insert tid id row =>
        obtain ⟨-, ⟨-, hentries⟩ | ⟨record, table, htold, -⟩⟩ :=
          hx.insertRow hplain (Prod.eta (x.store.insertRow tid id row)).symm
        · exact hentries
        · have hresult : (x.respond (.insert tid id row)).1 = .record (.ok record) :=
            congrArg Response.record htold
          rw [hresult] at h
          cases h
      | delete tid row =>
        obtain ⟨-, ⟨-, hentries⟩ | ⟨record, htold, -⟩⟩ :=
          hx.deleteRow (Prod.eta (x.store.deleteRow tid row)).symm
        · exact hentries
        · have hresult : (x.respond (.delete tid row)).1 = .changed (.ok record.page) :=
            congrArg Response.changed htold
          rw [hresult] at h
          cases h
      | _ => exact absurd hplain hcalm
  calm _ h := (readsAs_act hx h).entries
  fetch page content h slot := by
    have heq : (x.store.fetch page).1 = .ok content := Response.page.inj h
    obtain ⟨-, hshown | ⟨capacity, hrefused⟩⟩ :=
      Store.fetch_refines hx.toCoherent (Prod.eta (x.store.fetch page)).symm
    · exact View.entries_of_page (hshown.symm.trans heq)
    · rw [hrefused] at heq
      cases heq
  drain _ _ _ _ hcursor ht h := (lists_of_drains hx hcursor ht h).1
  again number cursor rows y later second other rows' z hcursor ht h hlater hother htable h' := by
    obtain ⟨hlists, hy⟩ := lists_of_drains hx hcursor ht h
    have hreads := hy.trans (readsAs_foldl hy.intact hlater)
    have ht' : (later.foldl act y).store.catalog.table other.table.id = .ok other.table := by
      rw [hreads.catalog, htable]
      exact ht
    have hlists' := (lists_of_drains hreads.intact hother ht' h').1
    rw [hreads.entries, htable] at hlists'
    exact hlists'.unique hlists

/-- While nothing is aborted, flushed or discarded, a session over files whose pages can be read
answers as a map from records to rows, whatever its cache has room for. -/
theorem maps_records_to_rows {x : Session} (hfresh : x.store.Fresh)
    (hsound : x.store.catalog.Sound) (haddressable : x.store.catalog.Addressable)
    (hreadable : ∀ page content, x.store.stored page = .ok content → content.Readable)
    {run : List Action} (hrun : ∀ action ∈ run, action.Plain) :
    (run.foldl act x).Maps x.store.catalog := by
  obtain ⟨hintact, hcatalog⟩ :=
    intact_foldl (hfresh.intact hsound hreadable haddressable) hrun
  exact hcatalog ▸ maps_of_intact hintact

end Session

/-! ## A table of text -/

namespace Sample

/-- Text of at most three bytes, and an integer. -/
def labels : Schema := ⟨[⟨.varchar 3, none⟩, ⟨.int, none⟩], by decide⟩

/-- A table with one row to a page. -/
def labelled : Table where
  id := Location.tableId ["l"]
  schema := labels
  file := ["l"]
  pageSize := 12

def label (text : String) (value : Int32) : Row := ⟨labels, [.text text, .int value], none⟩

/-- A fresh store with the one table, whose file is empty, and room for one page. -/
def labelStore : Store where
  disk := ({} : Disk).create ["l"]
  catalog := Catalog.empty.add labelled "l"
  cache := ⟨12, 1, Nat.one_pos, [], .empty, [], [], 0⟩

/-- The third insert is refused, because the page of the second has to stay. -/
def labelRun : List Action :=
  [.ask (.insert ⟨1⟩ labelled.id (label "añb" 1)), .ask (.commit ⟨1⟩),
    .ask (.insert ⟨2⟩ labelled.id (label "c" 2)), .ask (.insert ⟨3⟩ labelled.id (label "d" 3)),
    .ask (.commit ⟨2⟩), .ask (.addCursor labelled)]

end Sample

/-- Of two rows on two pages, read through a cache for one, each is handed out once, the first with
its text cut before the character that does not fit. -/
theorem Session.maps_labelled :
    let x := Sample.labelRun.foldl act { store := Sample.labelStore }
    let first := (Sample.label "añ" 1).withRecord (some ⟨⟨Sample.labelled.id, 0⟩, 0⟩)
    let second := (Sample.label "c" 2).withRecord (some ⟨⟨Sample.labelled.id, 1⟩, 0⟩)
    (∃ y, Drains 0 (x.respond (.start 0)).2 [first, second] y) ∧
      x.entries.Lists (fun record => record.page.table = Sample.labelled.id) [first, second] := by
  intro x first second
  have hsound : Sample.labelStore.catalog.Sound :=
    Catalog.sound_empty.add ⟨rfl, by decide⟩ "l"
  have haddressable : Sample.labelStore.catalog.Addressable := by
    unfold Catalog.Addressable
    decide +kernel
  have hreadable : ∀ page content, Sample.labelStore.stored page = .ok content →
      content.Readable := by
    intro page content hstored
    obtain ⟨table, ht, -⟩ := Catalog.table_of_stored hstored
    have hlt := Catalog.number_lt_pageCount hsound ht hstored
    obtain ⟨-, entry, hentry, rfl⟩ := Catalog.mem_of_table ht
    have hempty : ∀ entry ∈ Sample.labelStore.catalog.entries,
        entry.table.pageCount Sample.labelStore.disk = 0 := by
      decide +kernel
    rw [hempty entry hentry] at hlt
    cases hlt
  have hrun : ∀ action ∈ Sample.labelRun, action.Plain := by
    have hrow : ∀ text value, (Sample.label text value).WellTyped := fun text value =>
      ⟨rfl, by simp [Sample.label, Sample.labels, Schema.types, ColumnType.accepts]⟩
    simp [Sample.labelRun, Action.Plain, Action.isCalm, Request.isRead, hrow]
  have hmaps := @maps_records_to_rows { store := Sample.labelStore }
    ⟨12, 1, rfl⟩ hsound haddressable hreadable Sample.labelRun hrun
  have hdrains : Drains 0 (x.respond (.start 0)).2 [first, second] _ :=
    .row (by decide +kernel) (.row (by decide +kernel) (.last (by decide +kernel)))
  exact ⟨⟨_, hdrains⟩, hmaps.drain 0 { table := Sample.labelled } _ _ (by decide +kernel)
    (by decide +kernel) hdrains⟩

end RowStore
