import Mathlib
import RowStore.Proofs.Workspace

/-!
# RowStore.Proofs.Registration: files that are registered again

A table takes its identity from its file alone, so a file that is opened again with another schema
or another page size is registered under the identity it had, while its cached pages keep the schema
they were loaded with.  `conforms_iff_fits` says that a database conforms throughout a history
exactly when every table that is registered in it fits, and that no scan stumbles over a page of
another schema then; `not_conforms_reopened_narrow` is a history in which one does.
-/

namespace RowStore

namespace Workspace

variable {x : Workspace}

/-! ## Histories -/

theorem after_append (x : Workspace) (first second : List Task) :
    x.after (first ++ second) = (x.after first).after second :=
  List.foldl_append

theorem after_take_succ (x : Workspace) (tasks : List Task) (count : Nat) :
    x.after (tasks.take (count + 1)) =
      match tasks[count]? with
      | none => x.after (tasks.take count)
      | some task => (x.after (tasks.take count)).perform task := by
  rw [List.take_add_one, after_append]
  cases tasks[count]? <;> rfl

/-- A database that was just made, in which nothing was opened. -/
theorem steady_of_ofConfig {config : Config} {disk : Disk} {db : Database}
    (h : Database.ofConfig config disk = .ok db) : Steady { database := db } := by
  obtain ⟨cache, hcache, hstore⟩ := store_of_ofConfig h
  have hsteady : Steady { database := { db with store := { disk, catalog := .empty, cache } } } := by
    refine ⟨Cache.valid_of_ofCapacity hcache, List.nodup_nil, ?_, nofun⟩
    intro page frame hf
    have hnone := Cache.find?_of_ofCapacity hcache page
    cases hnone.symm.trans hf
  rwa [← hstore] at hsteady

/-- What conforms after a table is registered shows that the table fits. -/
theorem fits_of_conforms {task : Task} {table : Table} (hd : x.store.catalog.ids.Nodup)
    (hregisters : x.registers? task = some table) (h : (x.perform task).Conforms) :
    x.Fits table := by
  obtain ⟨name, hcatalog, hcache, hscans⟩ := perform_of_registers hregisters
  have hfound : (x.perform task).store.catalog.table table.id = .ok table := by
    rw [hcatalog, Catalog.table_add_self hd]
  refine ⟨fun page frame hf hpage => ?_, fun scan hscan hopen hid => ?_⟩
  · have hshown : ((x.perform task).store.fetch page).1 = .ok frame.page := by
      rw [Store.fetch_eq, hcache, hf]
    exact h.pages page frame.page _ (Prod.ext hshown rfl) table (hpage ▸ hfound)
  · exact h.scans scan (hscans ▸ hscan) hopen table (hid ▸ hfound)

/-- The invariant holds throughout when everything that is registered fits. -/
theorem steady_of_fits (hx : x.Steady) {tasks : List Task}
    (hfits : ∀ count task table, tasks[count]? = some task →
      (x.after (tasks.take count)).registers? task = some table →
      (x.after (tasks.take count)).Fits table) :
    ∀ count, (x.after (tasks.take count)).Steady
  | 0 => hx
  | count + 1 => by
    have hbefore := steady_of_fits hx hfits count
    rw [after_take_succ]
    cases htask : tasks[count]? with
    | none => exact hbefore
    | some task => exact hbefore.perform task fun table h => hfits count task table htask h

/-- It holds throughout when everything conforms throughout. -/
theorem steady_of_conforms (hx : x.Steady) {tasks : List Task}
    (hconforms : ∀ count, (x.after (tasks.take count)).Conforms) :
    ∀ count, (x.after (tasks.take count)).Steady
  | 0 => hx
  | count + 1 => by
    have hbefore := steady_of_conforms hx hconforms count
    have hnext := hconforms (count + 1)
    rw [after_take_succ] at hnext ⊢
    cases htask : tasks[count]? with
    | none => exact hbefore
    | some task =>
      rw [htask] at hnext
      exact hbefore.perform task fun table h => fits_of_conforms hbefore.distinct h hnext

/-- In a database that was just made, pages and scans conform throughout exactly when every table,
at the time it is registered, fits the pages cached under its identity and the scans open on it.
Then no scan ever fails because a row has another schema than the scan. -/
theorem conforms_iff_fits {config : Config} {disk : Disk} {db : Database}
    (h : Database.ofConfig config disk = .ok db) (tasks : List Task) :
    ((∀ count, (after { database := db } (tasks.take count)).Conforms) ↔
      ∀ count task table, tasks[count]? = some task →
        (after { database := db } (tasks.take count)).registers? task = some table →
        (after { database := db } (tasks.take count)).Fits table) ∧
    ((∀ count, (after { database := db } (tasks.take count)).Conforms) →
      ∀ count, ∀ scan ∈ (after { database := db } (tasks.take count)).scans, ∀ e,
        (scan.next (after { database := db } (tasks.take count)).store).1 ≠
          .error (.schema e)) := by
  have hstart := steady_of_ofConfig h
  refine ⟨⟨fun hconforms count task table htask hregisters => ?_, fun hfits count => ?_⟩,
    fun hconforms count scan hscan e => ?_⟩
  · have hnext := hconforms (count + 1)
    rw [after_take_succ, htask] at hnext
    exact fits_of_conforms (steady_of_conforms hstart hconforms count).distinct hregisters hnext
  · exact (steady_of_fits hstart hfits count).conforms
  · exact (steady_of_conforms hstart hconforms count).next_ne_schema hscan e

end Workspace

/-! ## A file opened twice -/

namespace Sample

/-- One page with the row `(1, 10)`. -/
def disk : Disk :=
  ({} : Disk).write ["t"] ([1, 0, 0, 0, 1, 0, 0, 0, 10] ++ Bytes.zeros 11)

/-- A database with room for one page of 20 bytes. -/
def database : Database where
  config := { pageSize := 20, cachePages := 1 }
  store := ⟨disk, .empty, ⟨20, 1, Nat.one_pos, [], .empty, [], [], 0⟩⟩
  nextTransaction := 1

/-- The file is opened with a schema, its page is fetched, and it is opened again with another and
scanned. -/
def reopened (first second : Schema) : List Task :=
  [.openTable [] "t" first "t", .act (.ask (.fetch ⟨table.id, 0⟩)), .openTable [] "t" second "u",
    .addScan table.id "s", .callScan 0 .start]

/-- One integer. -/
def narrow : Schema := .oneInt

/-- Two integers under names. -/
def named : Schema := ⟨[⟨.int, some "key"⟩, ⟨.int, some "value"⟩], by decide⟩

theorem resolve_eq (disk : Disk) (h : disk.folders = []) : disk.resolve [] "t" = some ["t"] := by
  obtain ⟨folders, files⟩ := disk
  subst h
  cbv

/-- The workspace after the file is opened with a schema. -/
def opened (x : Workspace) (schema : Schema) (name : String) : Workspace :=
  { x with
    database := Database.addTable
      { x.database with store := { x.store with disk := x.store.disk.create ["t"] } }
      { table with schema } name
    files := x.files ++ [{ table with schema }] }

theorem openTable_eq {x : Workspace} (schema : Schema) (name : String)
    (hfolders : x.store.disk.folders = []) (hsize : x.database.config.pageSize = 20)
    (hslots : (PageGeometry.mk 20 schema.width).slots ≠ 0) :
    x.database.openTable [] "t" schema name =
      .ok ({ table with schema }, (opened x schema name).database) := by
  have hopen : Table.openAt x.store.disk [] "t" schema 20 =
      .ok ({ table with schema }, x.store.disk.create ["t"]) := by
    rw [Table.openAt, if_neg hslots, resolve_eq x.store.disk hfolders]
    rfl
  simp only [Database.openTable, Database.openFile, hsize, hopen]
  rfl

/-- The workspace after the file is opened and its page fetched. -/
def fetched (schema : Schema) : Workspace :=
  (opened { database } schema "t").perform (.act (.ask (.fetch ⟨table.id, 0⟩)))

theorem folders_fetched (schema : Schema) : (fetched schema).store.disk.folders = [] :=
  congrArg Disk.folders (Store.disk_fetch (opened { database } schema "t").store ⟨table.id, 0⟩)

theorem after_take_two (first second : Schema)
    (hfirst : (PageGeometry.mk 20 first.width).slots ≠ 0) :
    Workspace.after { database } ((reopened first second).take 2) = fetched first := by
  have hopen := openTable_eq (x := { database }) first "t" rfl rfl hfirst
  simp only [reopened, List.take_succ_cons, List.take_zero, Workspace.after, List.foldl_cons,
    List.foldl_nil, Workspace.perform, hopen]
  rfl

/-- The workspace after `reopened`. -/
def reached (first second : Schema) : Workspace :=
  Workspace.after (opened (fetched first) second "u") [.addScan table.id "s", .callScan 0 .start]

theorem after_reopened {first second : Schema}
    (hfirst : (PageGeometry.mk 20 first.width).slots ≠ 0)
    (hsecond : (PageGeometry.mk 20 second.width).slots ≠ 0) :
    Workspace.after { database } (reopened first second) = reached first second := by
  have hopen := openTable_eq (x := fetched first) second "u" (folders_fetched first) rfl hsecond
  have hperform : (fetched first).perform (.openTable [] "t" second "u") =
      opened (fetched first) second "u" := by
    simp only [Workspace.perform, hopen]
    rfl
  have hsplit : reopened first second = (reopened first second).take 2 ++
      [.openTable [] "t" second "u", .addScan table.id "s", .callScan 0 .start] := rfl
  rw [hsplit, Workspace.after_append, after_take_two first second hfirst]
  simp only [Workspace.after, List.foldl_cons, hperform]
  rfl

end Sample

namespace Workspace

/-- A page that is still cached when its file is opened again with other columns is handed out with
the columns it had, and a scan that was opened fails over it. -/
theorem not_conforms_reopened_narrow :
    let reached := after { database := Sample.database }
      (Sample.reopened Sample.schema Sample.narrow)
    ¬ reached.Conforms ∧ ∃ scan ∈ reached.scans, scan.cursor.isSome ∧
      (scan.next reached.store).1 = .error (.schema (.arityMismatch 1 2)) := by
  dsimp only
  rw [Sample.after_reopened (by decide) (by decide)]
  have hshown : ((Sample.reached Sample.schema Sample.narrow).store.fetch
      ⟨Sample.table.id, 0⟩).1 =
        .ok (Page.ofBytes ⟨Sample.table.id, 0⟩ Sample.schema (Sample.disk.contents ["t"])) := by
    decide +kernel
  have htable : (Sample.reached Sample.schema Sample.narrow).store.catalog.table Sample.table.id =
      .ok { Sample.table with schema := Sample.narrow } := by decide +kernel
  refine ⟨fun h => ?_, by decide +kernel⟩
  obtain ⟨hschema, -⟩ := h.pages ⟨Sample.table.id, 0⟩ _ _ (Prod.ext hshown rfl) _ htable
  exact absurd hschema (by decide)

theorem fits_of_frames {x : Workspace} {table : Table}
    (hframes : ∀ entry ∈ x.store.cache.frames, entry.2.page.schema.Agrees table.schema ∧
      entry.2.page.data.length = table.pageSize) (hscans : x.scans = []) : x.Fits table where
  pages page frame hf _ := hframes (page, frame) (Lookup.mem_of_lookup hf)
  scans scan hscan := by
    rw [hscans] at hscan
    cases hscan

/-- Names do not matter: a file that is opened again with other names conforms. -/
theorem conforms_reopened_named :
    Database.ofConfig Sample.database.config Sample.disk = .ok Sample.database ∧
      ∀ count, (after { database := Sample.database }
        ((Sample.reopened Sample.schema Sample.named).take count)).Conforms := by
  have hmade : Database.ofConfig Sample.database.config Sample.disk = .ok Sample.database := rfl
  refine ⟨hmade, (conforms_iff_fits hmade _).1.mpr ?_⟩
  intro count task table htask hregisters
  rcases count with _ | _ | _ | _ | _ | count
  · exact fits_of_frames (by simp [after, Sample.database]) rfl
  · cases htask
    cases hregisters
  · rw [Sample.after_take_two Sample.schema Sample.named (by decide)] at hregisters ⊢
    cases htask
    have hopen := Sample.openTable_eq (x := Sample.fetched Sample.schema) Sample.named "u"
      (Sample.folders_fetched Sample.schema) rfl (by decide)
    rw [registers?, hopen] at hregisters
    cases hregisters
    exact fits_of_frames (by decide +kernel) rfl
  · cases htask
    cases hregisters
  · cases htask
    cases hregisters
  · cases htask

end Workspace

end RowStore
