import RowStore.Operator
import RowStore.Statistics.Index

/-!
# RowStore.Database: a store with a configuration

A database is a store whose tables are opened with one page size, together with the settings for
statistics and the number of the next transaction.
-/

namespace RowStore

/-- Settings that hold for the life of a database. -/
structure Config where
  /-- Bytes of each page. -/
  pageSize : Nat := 4096
  /-- Pages the cache can hold. -/
  cachePages : Nat := 50
  /-- The cost of reading one page in a scan. -/
  costPerPage : Float := 1000.0
  /-- Buckets of each histogram. -/
  histogramBuckets : Nat := 100
  deriving Repr

/-- A store and its settings. -/
structure Database where
  config : Config
  store : Store
  nextTransaction : Nat
  deriving Repr

namespace Database

/-- A database on a disk, with no tables. -/
def ofConfig (config : Config) (disk : Disk) : Except CacheSetupError Database :=
  match Cache.ofCapacity config.pageSize config.cachePages with
  | .error e => .error e
  | .ok cache => .ok { config, store := { disk, catalog := .empty, cache }, nextTransaction := 1 }

/-- A transaction that no other was or will be. -/
def beginTransaction (db : Database) : TransactionId × Database :=
  (⟨db.nextTransaction⟩, { db with nextTransaction := db.nextTransaction + 1 })

/-- Registers a table under a name. -/
def addTable (db : Database) (table : Table) (name : String) : Database :=
  { db with store := { db.store with catalog := db.store.catalog.add table name } }

/-- Forgets every table. -/
def clearTables (db : Database) : Database :=
  { db with store := { db.store with catalog := .empty } }

/-- Opens the table in a file without registering it. -/
def openFile (db : Database) (folder : Location) (path : String) (schema : Schema)
    (pageSize : Nat) : Except TableError (Table × Database) :=
  match Table.openAt db.store.disk folder path schema pageSize with
  | .error e => .error e
  | .ok (table, disk) => .ok (table, { db with store := { db.store with disk } })

/-- Opens the table in a file with the configured page size and registers it. -/
def openTable (db : Database) (folder : Location) (path : String) (schema : Schema)
    (name : String) : Except TableError (Table × Database) :=
  match db.openFile folder path schema db.config.pageSize with
  | .error e => .error e
  | .ok (table, db) => .ok (table, db.addTable table name)

/-- Computes the statistics of a registered table, as a transaction of its own. -/
def tableStatistics (db : Database) (table : TableId) (costPerPage : Float) (buckets : Nat) :
    Except StatisticsError (Statistics Float) × Database :=
  let (tid, db) := db.beginTransaction
  match Statistics.compute db.store tid table costPerPage buckets with
  | (result, store) => (result, { db with store })

/-- Computes the statistics of the given tables and puts them into an index under the tables'
names, up to the first that fails. -/
def collectStatistics : List TableId → Database → StatisticsIndex Float →
    Except StatisticsError Unit × Database × StatisticsIndex Float
  | [], db, index => (.ok (), db, index)
  | table :: tables, db, index =>
    match db.store.catalog.nameOf table with
    | .error e => (.error (.catalog e), db, index)
    | .ok name =>
      match db.tableStatistics table db.config.costPerPage db.config.histogramBuckets with
      | (.error e, db) => (.error e, db, index)
      | (.ok stats, db) => collectStatistics tables db (index.set name stats)

/-- Computes the statistics of every registered table, the oldest registration first. -/
def collectAllStatistics (db : Database) (index : StatisticsIndex Float) :
    Except StatisticsError Unit × Database × StatisticsIndex Float :=
  collectStatistics db.store.catalog.ids db index

end Database

end RowStore
