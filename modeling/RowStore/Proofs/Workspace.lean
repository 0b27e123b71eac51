import RowStore.Database
import RowStore.Proofs.Operator.Sources
import RowStore.Proofs.Served

/-!
# RowStore.Proofs.Workspace: a database and its users

A `Workspace` is a database with the cursors, opened files and scans of its users, and `Task`s are
what they do with it.  It `Conforms` when the pages it hands out and the scans that are open have
the schema of the table that is registered for them, and the pages its size.

Registering a table does not touch the cache, so what conforms depends on what is registered over
what.  `Steady` is the invariant that every task keeps as long as each table it registers `Fits` the
pages cached under its identity and the scans open on it.  Only tables that were opened can be
registered, so the catalog of a database is sound whatever is done with it (`sound_after`).
-/

namespace RowStore

/-- What is asked of a scan. -/
inductive ScanCall where
  | start
  | hasNext
  | next
  | rewind
  | close
  deriving DecidableEq, Repr

/-- The scan and the store after a call. -/
def TableScan.call (scan : TableScan) (s : Store) : ScanCall → TableScan × Store
  | .start => ((scan.start s).2, s)
  | .hasNext => (scan.hasNext s).2
  | .next => (scan.next s).2
  | .rewind => (scan.rewind.2, s)
  | .close => (scan.close, s)

/-- A call of a scan loads pages and does nothing else with the store. -/
theorem TableScan.moves_call (scan : TableScan) (s : Store) (call : ScanCall) :
    Store.Moves s (scan.call s call).2 := by
  cases call with
  | hasNext =>
    rw [call, hasNext]
    cases scan.cursor with
    | none => exact .refl
    | some cursor => exact Store.moves_hasNext cursor s
  | next =>
    cases hcursor : scan.cursor with
    | none =>
      simp only [call, next, hcursor]
      exact .refl
    | some cursor =>
      rw [call, snd_next hcursor]
      exact Store.moves_pull cursor s
  | start | rewind | close => exact .refl

/-- A scan that is made is closed. -/
theorem TableScan.cursor_of_ofTable {catalog : Catalog} {table : TableId} {label : String}
    {scan : TableScan} (h : ofTable catalog table label = .ok scan) : scan.cursor = none := by
  unfold ofTable at h
  cases hentry : catalog.entry table with
  | error e => simp [hentry] at h
  | ok entry =>
    rw [hentry] at h
    rw [← Except.ok.inj h]

/-- What is done with a database. -/
inductive Task where
  /-- Opens the table in a file without registering it. -/
  | openFile (folder : Location) (path : String) (schema : Schema) (pageSize : Nat)
  /-- Opens the table in a file and registers it. -/
  | openTable (folder : Location) (path : String) (schema : Schema) (name : String)
  /-- Registers a table that was opened. -/
  | addTable (file : Nat) (name : String)
  /-- Reads or changes pages. -/
  | act (action : Action)
  /-- Makes a scan of a registered table, which is closed. -/
  | addScan (table : TableId) (label : String)
  /-- Calls a scan. -/
  | callScan (scan : Nat) (call : ScanCall)
  deriving Repr

/-- A database with the cursors, the opened files and the scans of its users. -/
structure Workspace where
  database : Database
  cursors : List Cursor := []
  files : List Table := []
  scans : List TableScan := []

namespace Workspace

/-- The store of the database. -/
abbrev store (x : Workspace) : Store :=
  x.database.store

/-- The workspace with another store. -/
def withStore (x : Workspace) (store : Store) : Workspace :=
  { x with database := { x.database with store } }

/-- The workspace after a task. -/
def perform (x : Workspace) : Task → Workspace
  | .openFile folder path schema pageSize =>
    match x.database.openFile folder path schema pageSize with
    | .error _ => x
    | .ok (table, database) => { x with database, files := x.files ++ [table] }
  | .openTable folder path schema name =>
    match x.database.openTable folder path schema name with
    | .error _ => x
    | .ok (table, database) => { x with database, files := x.files ++ [table] }
  | .addTable file name =>
    match x.files[file]? with
    | none => x
    | some table => { x with database := x.database.addTable table name }
  | .act action =>
    let session := Session.act ⟨x.store, x.cursors⟩ action
    { x.withStore session.store with cursors := session.cursors }
  | .addScan table label =>
    match TableScan.ofTable x.store.catalog table label with
    | .error _ => x
    | .ok scan => { x with scans := x.scans ++ [scan] }
  | .callScan number call =>
    match x.scans[number]? with
    | none => x
    | some scan =>
      let (scan, store) := scan.call x.store call
      { x.withStore store with scans := x.scans.set number scan }

/-- The workspace after a list of tasks. -/
def after (x : Workspace) (tasks : List Task) : Workspace :=
  tasks.foldl perform x

/-- The table that a task registers. -/
def registers? (x : Workspace) : Task → Option Table
  | .openTable folder path schema name =>
    match x.database.openTable folder path schema name with
    | .error _ => none
    | .ok (table, _) => some table
  | .addTable file _ => x.files[file]?
  | _ => none

/-- The pages that are handed out and the scans that are open have the schema of the table that is
registered for them, and the pages have its size. -/
structure Conforms (x : Workspace) : Prop where
  pages : ∀ page content s, x.store.fetch page = (.ok content, s) →
    ∀ table, x.store.catalog.table page.table = .ok table →
      content.schema.Agrees table.schema ∧ content.data.length = table.pageSize
  scans : ∀ scan ∈ x.scans, scan.cursor.isSome →
    ∀ table, x.store.catalog.table scan.table = .ok table → table.schema.Agrees scan.schema

/-- A table has the schema and the size of the pages that are cached under its identity, and the
schema of the scans that are open on it. -/
structure Fits (x : Workspace) (table : Table) : Prop where
  pages : ∀ page frame, x.store.cache.find? page = some frame → page.table = table.id →
    frame.page.schema.Agrees table.schema ∧ frame.page.data.length = table.pageSize
  scans : ∀ scan ∈ x.scans, scan.cursor.isSome → scan.table = table.id →
    table.schema.Agrees scan.schema

/-! ## The invariant -/

/-- A page has the schema and the size of the table that is registered for it, if there is one. -/
def Matches (catalog : Catalog) (page : PageId) (schema : Schema) (size : Nat) : Prop :=
  ∀ table, catalog.table page.table = .ok table →
    schema.Agrees table.schema ∧ size = table.pageSize

/-- A page of the table with this identity has this schema. -/
def Suits (id : TableId) (schema : Schema) (page : PageId) (found : Schema) (_size : Nat) : Prop :=
  page.table = id → schema.Agrees found

/-- Every page the cursor of a scan can come across and every row in its buffer has the schema of
the scan. -/
structure Attuned (s : Store) (id : TableId) (schema : Schema) (cursor : Cursor) : Prop where
  table : cursor.table.id = id
  loaded : s.AllLoaded (Suits id schema)
  cached : s.AllCached (Suits id schema)
  buffered : ∀ row ∈ cursor.buffer, schema.Agrees row.schema

/-- What holds as long as everything that is registered fits. -/
structure Steady (x : Workspace) : Prop where
  valid : x.store.cache.Valid
  distinct : x.store.catalog.ids.Nodup
  cached : x.store.AllCached (Matches x.store.catalog)
  scans : ∀ scan ∈ x.scans, ∀ cursor, scan.cursor = some cursor →
    Attuned x.store scan.table scan.schema cursor

variable {x : Workspace} {s s' : Store} {scan : TableScan} {cursor : Cursor} {id : TableId}
  {schema : Schema}

theorem allLoaded_matches (s : Store) : s.AllLoaded (Matches s.catalog) := by
  intro page table ht found hfound
  rw [ht, Except.ok.injEq] at hfound
  rw [← hfound]
  exact ⟨rfl, rfl⟩

/-- Pages and scans conform as long as the invariant holds. -/
theorem Steady.conforms (hx : x.Steady) : x.Conforms where
  pages page content s hfetch table ht :=
    Store.fits_of_fetch (allLoaded_matches x.store) hx.cached hfetch table ht
  scans scan hscan hopen table ht := by
    obtain ⟨cursor, hcursor⟩ := Option.isSome_iff_exists.mp hopen
    exact Eq.symm ((hx.scans scan hscan cursor hcursor).loaded ⟨scan.table, 0⟩ table ht rfl)

/-- No scan fails over a schema as long as the invariant holds. -/
theorem Steady.next_ne_schema (hx : x.Steady) (hscan : scan ∈ x.scans) (e : SchemaError) :
    (scan.next x.store).1 ≠ .error (.schema e) := by
  unfold TableScan.next
  cases hcursor : scan.cursor with
  | none => simp
  | some cursor =>
    have hattuned := hx.scans scan hscan cursor hcursor
    obtain ⟨-, -, hrow⟩ := cursor.pull_eq x.store
    dsimp only
    rcases hpull : cursor.pull x.store with ⟨e | _ | row, cursor', s'⟩
    · simp
    · simp
    · rw [hpull] at hrow
      have hagree : scan.schema.Agrees row.schema := by
        rcases Cursor.fits_of_hasNext cursor hx.valid hattuned.loaded hattuned.cached row
          (hrow row rfl) with hold | ⟨page, size, htable, hfits⟩
        · exact hattuned.buffered row hold
        · exact hfits (htable.trans hattuned.table)
      simp [Row.withSchema, hagree]

/-! ## What a task does -/

/-- A database that was just made has an empty catalog and an empty cache. -/
theorem store_of_ofConfig {config : Config} {disk : Disk} {db : Database}
    (h : Database.ofConfig config disk = .ok db) :
    ∃ cache, Cache.ofCapacity config.pageSize config.cachePages = .ok cache ∧
      db.store = { disk, catalog := .empty, cache } := by
  unfold Database.ofConfig at h
  cases hcache : Cache.ofCapacity config.pageSize config.cachePages with
  | error e => simp [hcache] at h
  | ok cache =>
    simp only [hcache, Except.ok.injEq] at h
    exact ⟨cache, rfl, h ▸ rfl⟩

/-- Opening a file touches neither the catalog nor the cache. -/
theorem openFile_spec {db db' : Database} {folder : Location} {path : String} {pageSize : Nat}
    {table : Table} (h : db.openFile folder path schema pageSize = .ok (table, db')) :
    db'.store.catalog = db.store.catalog ∧ db'.store.cache = db.store.cache ∧
      table.WellFormed := by
  unfold Database.openFile at h
  cases hopen : Table.openAt db.store.disk folder path schema pageSize with
  | error e => simp [hopen] at h
  | ok opened =>
    obtain ⟨opened, disk⟩ := opened
    simp only [hopen, Except.ok.injEq, Prod.mk.injEq] at h
    obtain ⟨rfl, rfl⟩ := h
    exact ⟨rfl, rfl, Table.wellFormed_of_openAt hopen⟩

/-- Opening a table registers it and does not touch the cache. -/
theorem openTable_spec {db db' : Database} {folder : Location} {path name : String}
    {table : Table} (h : db.openTable folder path schema name = .ok (table, db')) :
    db'.store.catalog = db.store.catalog.add table name ∧ db'.store.cache = db.store.cache ∧
      table.WellFormed := by
  unfold Database.openTable at h
  cases hopen : db.openFile folder path schema db.config.pageSize with
  | error e => simp [hopen] at h
  | ok opened =>
    obtain ⟨opened, between⟩ := opened
    obtain ⟨hcatalog, hcache, ht⟩ := openFile_spec hopen
    simp only [hopen, Except.ok.injEq, Prod.mk.injEq] at h
    obtain ⟨rfl, rfl⟩ := h
    exact ⟨congrArg (Catalog.add · opened name) hcatalog, hcache, ht⟩

/-- What becomes of a workspace by a task, which may register a table. -/
inductive Performed (x : Workspace) : (registered : Option Table) → Workspace → Prop
  /-- Nothing. -/
  | refused : Performed x none x
  /-- A file is opened. -/
  | opened {y : Workspace} {table : Table} (hcatalog : y.store.catalog = x.store.catalog)
    (hcache : y.store.cache = x.store.cache) (hscans : y.scans = x.scans)
    (hfiles : y.files = x.files ++ [table]) (ht : table.WellFormed) : Performed x none y
  /-- A table is registered that was just opened, or was before. -/
  | registered {y : Workspace} {table : Table} {name : String}
    (hcatalog : y.store.catalog = x.store.catalog.add table name)
    (hcache : y.store.cache = x.store.cache) (hscans : y.scans = x.scans)
    (hfiles : ∀ other ∈ y.files, other ∈ x.files ∨ other = table)
    (ht : table.WellFormed ∨ table ∈ x.files) : Performed x (some table) y
  /-- Pages are read or changed. -/
  | acted (action : Action) : Performed x none (x.perform (.act action))
  /-- A scan is made. -/
  | scanned {scan : TableScan} (hclosed : scan.cursor = none) :
    Performed x none { x with scans := x.scans ++ [scan] }
  /-- A scan is called. -/
  | called {scan : TableScan} {number : Nat} (hscan : x.scans[number]? = some scan)
    (call : ScanCall) : Performed x none
      { x.withStore (scan.call x.store call).2 with
        scans := x.scans.set number (scan.call x.store call).1 }

theorem performed (x : Workspace) (task : Task) :
    x.Performed (x.registers? task) (x.perform task) := by
  cases task with
  | openFile folder path schema pageSize =>
    cases hopen : x.database.openFile folder path schema pageSize with
    | error e =>
      simp only [registers?, perform, hopen]
      exact .refused
    | ok opened =>
      obtain ⟨hcatalog, hcache, ht⟩ := openFile_spec hopen
      simp only [registers?, perform, hopen]
      exact .opened hcatalog hcache rfl rfl ht
  | openTable folder path schema name =>
    cases hopen : x.database.openTable folder path schema name with
    | error e =>
      simp only [registers?, perform, hopen]
      exact .refused
    | ok opened =>
      obtain ⟨hcatalog, hcache, ht⟩ := openTable_spec hopen
      simp only [registers?, perform, hopen]
      refine .registered hcatalog hcache rfl (fun other hother => ?_) (Or.inl ht)
      exact (List.mem_append.mp hother).imp_right List.mem_singleton.mp
  | addTable file name =>
    cases hfile : x.files[file]? with
    | none =>
      simp only [registers?, perform, hfile]
      exact .refused
    | some table =>
      simp only [registers?, perform, hfile]
      exact .registered rfl rfl rfl (fun _ => Or.inl) (Or.inr (List.mem_of_getElem? hfile))
  | act action => exact .acted action
  | addScan table label =>
    cases hmake : TableScan.ofTable x.store.catalog table label with
    | error e =>
      simp only [registers?, perform, hmake]
      exact .refused
    | ok scan =>
      simp only [registers?, perform, hmake]
      exact .scanned (TableScan.cursor_of_ofTable hmake)
  | callScan number call =>
    cases hscan : x.scans[number]? with
    | none =>
      simp only [registers?, perform, hscan]
      exact .refused
    | some scan =>
      simp only [registers?, perform, hscan]
      exact .called hscan call

/-- A task that registers a table changes the catalog and not the cache. -/
theorem perform_of_registers {task : Task} {table : Table} (h : x.registers? task = some table) :
    ∃ name, (x.perform task).store.catalog = x.store.catalog.add table name ∧
      (x.perform task).store.cache = x.store.cache ∧ (x.perform task).scans = x.scans := by
  have hperformed := x.performed task
  rw [h] at hperformed
  generalize x.perform task = y at hperformed ⊢
  cases hperformed with
  | registered hcatalog hcache hscans _ _ => exact ⟨_, hcatalog, hcache, hscans⟩

/-! ## What the tasks keep -/

theorem Attuned.of_moves (h : Store.Moves s s') (hs : s.cache.Valid)
    (ha : Attuned s id schema cursor) : Attuned s' id schema cursor :=
  ⟨ha.table, ha.loaded.of_catalog (Store.Moves.catalog h),
    Store.Moves.allCached h hs ha.loaded ha.cached, ha.buffered⟩

/-- A cursor that is put before the first row is attuned as before. -/
theorem Attuned.start (ha : Attuned s id schema cursor) : Attuned s id schema cursor.start :=
  ⟨ha.table, ha.loaded, ha.cached, nofun⟩

/-- A cursor that was asked for rows is attuned as before. -/
theorem Attuned.hasNext (ha : Attuned s id schema cursor) (hs : s.cache.Valid) :
    Attuned (cursor.hasNext s).2.2 id schema (cursor.hasNext s).2.1 := by
  have hmoved := ha.of_moves (Store.moves_hasNext cursor s) hs
  refine ⟨(congrArg Table.id (cursor.table_hasNext s)).trans ha.table, hmoved.loaded,
    hmoved.cached, fun row hrow => ?_⟩
  rcases Cursor.fits_of_hasNext cursor hs ha.loaded ha.cached row hrow with
    hold | ⟨page, size, htable, hfits⟩
  · exact ha.buffered row hold
  · exact hfits (htable.trans ha.table)

theorem Attuned.pull (ha : Attuned s id schema cursor) (hs : s.cache.Valid) :
    Attuned (cursor.pull s).2.2 id schema (cursor.pull s).2.1 := by
  have hmoved := ha.of_moves (Store.moves_pull cursor s) hs
  obtain ⟨htable, hbuffer, -⟩ := cursor.pull_eq s
  exact ⟨(congrArg Table.id htable).trans ha.table, hmoved.loaded, hmoved.cached,
    fun row hrow => (ha.hasNext hs).buffered row (hbuffer row hrow)⟩

/-- A scan that is opened is attuned to the pages of the table that is registered. -/
theorem Steady.attuned_start (hx : x.Steady) {table : Table}
    (ht : x.store.catalog.table id = .ok table) (hagree : table.schema.Agrees schema) :
    Attuned x.store id schema (Cursor.start { table }) where
  table := (Catalog.mem_of_table ht).1
  loaded page found hfound hpage := by
    rw [hpage, ht, Except.ok.injEq] at hfound
    rw [← hfound]
    exact Eq.symm hagree
  cached page frame hf := by
    obtain ⟨hfits, hbefore⟩ := hx.cached page frame hf
    refine ⟨fun hpage => ?_, hbefore⟩
    have hschema := (hfits table (hpage ▸ ht)).1
    exact (Eq.trans hschema hagree).symm
  buffered := nofun

/-- A call leaves the scan attuned. -/
theorem Steady.attuned_call (hx : x.Steady) (hscan : scan ∈ x.scans) (call : ScanCall) :
    ∀ cursor, (scan.call x.store call).1.cursor = some cursor →
      Attuned (scan.call x.store call).2 (scan.call x.store call).1.table
        (scan.call x.store call).1.schema cursor := by
  have hold := hx.scans scan hscan
  cases call with
  | start =>
    simp only [TableScan.call, TableScan.start]
    split_ifs with hopen
    · exact hold
    · cases ht : x.store.catalog.table scan.table with
      | error e => exact hold
      | ok table =>
        dsimp only
        split_ifs with hagree
        · intro cursor hcursor
          rw [← Option.some.inj hcursor]
          exact hx.attuned_start ht hagree
        · exact hold
  | hasNext =>
    simp only [TableScan.call, TableScan.hasNext]
    cases hcursor : scan.cursor with
    | none => simp [hcursor]
    | some cursor =>
      intro cursor' hcursor'
      rw [← Option.some.inj hcursor']
      exact (hold cursor hcursor).hasNext hx.valid
  | next =>
    simp only [TableScan.call]
    cases hcursor : scan.cursor with
    | none =>
      rw [TableScan.next, hcursor]
      simp [hcursor]
    | some cursor =>
      rw [TableScan.snd_next hcursor]
      intro cursor' hcursor'
      rw [← Option.some.inj hcursor']
      exact (hold cursor hcursor).pull hx.valid
  | rewind =>
    simp only [TableScan.call, TableScan.rewind]
    cases hcursor : scan.cursor with
    | none => simp [hcursor]
    | some cursor =>
      intro cursor' hcursor'
      rw [← Option.some.inj hcursor']
      exact (hold cursor hcursor).start
  | close => exact fun cursor hcursor => by cases hcursor

/-- The invariant only looks at the catalog, the cache and the scans. -/
theorem Steady.of_store (hx : x.Steady) {y : Workspace}
    (hcatalog : y.store.catalog = x.store.catalog) (hcache : y.store.cache = x.store.cache)
    (hscans : y.scans = x.scans) : y.Steady := by
  have hfind : ∀ page, y.store.cache.find? page = x.store.cache.find? page := by
    intro page
    rw [hcache]
  refine ⟨hcache ▸ hx.valid, hcatalog ▸ hx.distinct, ?_, ?_⟩
  · rw [hcatalog]
    exact hx.cached.of_find? hfind
  · intro scan hscan cursor hcursor
    have hold := hx.scans scan (hscans ▸ hscan) cursor hcursor
    exact ⟨hold.table, hold.loaded.of_catalog hcatalog, hold.cached.of_find? hfind, hold.buffered⟩

/-- Moves keep the invariant, and so does calling scans in between. -/
theorem Steady.of_moves (hx : x.Steady) {y : Workspace} (h : Store.Moves x.store y.store)
    (hscans : ∀ scan ∈ y.scans, scan ∈ x.scans ∨ ∀ cursor, scan.cursor = some cursor →
      Attuned y.store scan.table scan.schema cursor) : y.Steady := by
  have hcatalog := Store.Moves.catalog h
  refine ⟨Store.Moves.valid h hx.valid, hcatalog ▸ hx.distinct, ?_, ?_⟩
  · rw [hcatalog]
    exact Store.Moves.allCached h hx.valid (allLoaded_matches x.store) hx.cached
  · intro scan hscan cursor hcursor
    rcases hscans scan hscan with hold | hnew
    · exact (hx.scans scan hold cursor hcursor).of_moves h hx.valid
    · exact hnew cursor hcursor

/-- Registering a table that fits keeps the invariant. -/
theorem Steady.register (hx : x.Steady) {table : Table} (hfits : x.Fits table) {y : Workspace}
    {name : String} (hcatalog : y.store.catalog = x.store.catalog.add table name)
    (hcache : y.store.cache = x.store.cache) (hscans : y.scans = x.scans) : y.Steady := by
  have hfind : ∀ page, y.store.cache.find? page = x.store.cache.find? page := by
    intro page
    rw [hcache]
  refine ⟨hcache ▸ hx.valid, hcatalog ▸ Catalog.nodup_add hx.distinct table name, ?_, ?_⟩
  · intro page frame hf
    rw [hfind] at hf
    obtain ⟨hmatches, hbefore⟩ := hx.cached page frame hf
    refine ⟨fun found hfound => ?_, hbefore⟩
    rw [hcatalog] at hfound
    rcases Catalog.table_of_add hx.distinct hfound with ⟨hpage, rfl⟩ | hold
    · exact hfits.pages page frame hf hpage
    · exact hmatches found hold
  · intro scan hscan cursor hcursor
    rw [hscans] at hscan
    have hattuned := hx.scans scan hscan cursor hcursor
    refine ⟨hattuned.table, ?_, hattuned.cached.of_find? hfind, hattuned.buffered⟩
    intro page found hfound hpage
    rw [hcatalog] at hfound
    rcases Catalog.table_of_add hx.distinct hfound with ⟨htable, rfl⟩ | hold
    · have hopen : scan.cursor.isSome := by rw [hcursor]; rfl
      exact Eq.symm (hfits.scans scan hscan hopen (hpage.symm.trans htable))
    · exact hattuned.loaded page found hold hpage

/-- Reading and changing pages keeps the invariant. -/
theorem Steady.act (hx : x.Steady) (action : Action) : (x.perform (.act action)).Steady := by
  obtain ⟨hvalid, hcatalog, hcached⟩ := Session.allCached_act (x := ⟨x.store, x.cursors⟩)
    hx.valid (allLoaded_matches x.store) hx.cached action
  refine ⟨hvalid, ?_, ?_, ?_⟩
  · exact (congrArg (fun catalog => catalog.ids.Nodup) hcatalog).mpr hx.distinct
  · exact (congrArg (fun catalog => Store.AllCached (Matches catalog) _) hcatalog).mpr hcached
  · intro scan hscan cursor hcursor
    have hold := hx.scans scan hscan cursor hcursor
    exact ⟨hold.table, hold.loaded.of_catalog hcatalog,
      (Session.allCached_act (x := ⟨x.store, x.cursors⟩) hx.valid hold.loaded hold.cached
        action).2.2, hold.buffered⟩

/-- Every task keeps the invariant as long as what it registers fits. -/
theorem Steady.perform (hx : x.Steady) (task : Task)
    (hfits : ∀ table, x.registers? task = some table → x.Fits table) :
    (x.perform task).Steady := by
  have hperformed := x.performed task
  generalize x.registers? task = registered, x.perform task = y at hfits hperformed ⊢
  cases hperformed with
  | refused => exact hx
  | opened hcatalog hcache hscans _ _ => exact hx.of_store hcatalog hcache hscans
  | registered hcatalog hcache hscans _ _ =>
    exact hx.register (hfits _ rfl) hcatalog hcache hscans
  | acted action => exact hx.act action
  | scanned hclosed =>
    refine hx.of_moves .refl fun other hother => ?_
    rcases List.mem_append.mp hother with hold | hnew
    · exact Or.inl hold
    · right
      intro cursor hcursor
      rw [List.mem_singleton.mp hnew, hclosed] at hcursor
      cases hcursor
  | @called scan number hscan call =>
    refine hx.of_moves (scan.moves_call x.store call) fun other hother => ?_
    rcases List.mem_or_eq_of_mem_set hother with hold | rfl
    · exact Or.inl hold
    · exact Or.inr (hx.attuned_call (List.mem_of_getElem? hscan) call)

/-! ## Sound catalogs -/

/-- Every table of a workspace was opened, whether it is registered or not. -/
structure Sound (x : Workspace) : Prop where
  valid : x.store.cache.Valid
  catalog : x.store.catalog.Sound
  files : ∀ table ∈ x.files, table.WellFormed

theorem Sound.perform (hx : x.Sound) (task : Task) : (x.perform task).Sound := by
  have hperformed := x.performed task
  generalize x.registers? task = registered, x.perform task = y at hperformed ⊢
  cases hperformed with
  | refused => exact hx
  | opened hcatalog hcache _ hfiles ht =>
    refine ⟨hcache ▸ hx.valid, hcatalog ▸ hx.catalog, fun other hother => ?_⟩
    rw [hfiles] at hother
    rcases List.mem_append.mp hother with hold | hnew
    · exact hx.files other hold
    · exact List.mem_singleton.mp hnew ▸ ht
  | @registered _ table name hcatalog hcache _ hfiles ht =>
    have ht := ht.elim id (hx.files table)
    refine ⟨hcache ▸ hx.valid, hcatalog ▸ hx.catalog.add ht name, fun other hother => ?_⟩
    rcases hfiles other hother with hold | rfl
    · exact hx.files other hold
    · exact ht
  | acted action =>
    have hcatalog := Session.catalog_act (x := ⟨x.store, x.cursors⟩) hx.valid action
    have hbounded := Session.bounded_act (x := ⟨x.store, x.cursors⟩) ⟨hx.valid, rfl⟩ action
    exact ⟨hbounded.valid, hcatalog ▸ hx.catalog, hx.files⟩
  | scanned _ => exact ⟨hx.valid, hx.catalog, hx.files⟩
  | @called scan _ _ call =>
    have hmoves := scan.moves_call x.store call
    exact ⟨Store.Moves.valid hmoves hx.valid, Store.Moves.catalog hmoves ▸ hx.catalog, hx.files⟩

theorem Sound.after (hx : x.Sound) (tasks : List Task) : (x.after tasks).Sound := by
  induction tasks generalizing x with
  | nil => exact hx
  | cons task tasks ih => exact ih (hx.perform task)

/-- Whatever is done with a database, every table that is registered in it was opened. -/
theorem sound_after {config : Config} {disk : Disk} {db : Database}
    (h : Database.ofConfig config disk = .ok db) (tasks : List Task) :
    (after { database := db } tasks).store.catalog.Sound := by
  obtain ⟨cache, hcache, hstore⟩ := store_of_ofConfig h
  have hfirst : Sound { database := db } := by
    refine ⟨?_, ?_, nofun⟩
    · rw [store, hstore]
      exact Cache.valid_of_ofCapacity hcache
    · rw [store, hstore]
      exact Catalog.sound_empty
  exact (hfirst.after tasks).catalog

end Workspace

end RowStore
