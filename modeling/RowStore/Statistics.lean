import RowStore.Cursor
import RowStore.Statistics.Column

/-!
# RowStore.Statistics: what is known of a table

Statistics are computed in two passes over the table: the first finds how many rows there are and
the range of every integer column, the second fills a histogram per column.  They are never
updated, only computed anew.
-/

namespace RowStore

/-! ## Passes over a table -/

/-- Folds a function over the rows a cursor has left, up to the first that fails. -/
def Cursor.foldWithin {β : Type} (f : β → Row → Except StatisticsError β) :
    (limit : Nat) → β → Cursor → Store → Except StatisticsError β × Store
  | 0, _, _, s => (.error (.table .rowLimit), s)
  | limit + 1, acc, cursor, s =>
    match cursor.pull s with
    | (.error e, _, s) => (.error (.table e), s)
    | (.ok none, _, s) => (.ok acc, s)
    | (.ok (some row), cursor, s) =>
      match f acc row with
      | .error e => (.error e, s)
      | .ok acc => foldWithin f limit acc cursor s

/-- Folds a function over all rows of a table. -/
def Table.fold {β : Type} (table : Table) (f : β → Row → Except StatisticsError β) (acc : β)
    (s : Store) : Except StatisticsError β × Store :=
  let cursor := Cursor.start { table }
  cursor.foldWithin f (cursor.rowLimit s + 1) acc s

/-- The bounds of the columns from `index` on after one more row. -/
def extendBounds (row : Row) : (index : Nat) → List Bounds → Except StatisticsError (List Bounds)
  | _, [] => .ok []
  | index, bounds :: rest =>
    match row.value index with
    | .error e => .error (.schema e)
    | .ok value =>
      match extendBounds row (index + 1) rest with
      | .error e => .error e
      | .ok rest => .ok (bounds.extend value :: rest)

/-- The histograms of the columns from `index` on after one more row. -/
def extendHistograms {α : Type} [Arithmetic α] (row : Row) :
    (index : Nat) → List (ColumnHistogram α) → Except StatisticsError (List (ColumnHistogram α))
  | _, [] => .ok []
  | index, histogram :: rest =>
    match row.value index with
    | .error e => .error (.schema e)
    | .ok value =>
      match histogram.add index value with
      | .error e => .error e
      | .ok histogram =>
        match extendHistograms row (index + 1) rest with
        | .error e => .error e
        | .ok rest => .ok (histogram :: rest)

/-- An empty histogram per column. -/
def emptyHistograms {α : Type} [Arithmetic α] (requested : Nat) :
    List ColumnType → List Bounds → Except HistogramError (List (ColumnHistogram α))
  | type :: types, bounds :: rest =>
    match ColumnHistogram.ofColumn requested type bounds with
    | .error e => .error e
    | .ok histogram =>
      match emptyHistograms requested types rest with
      | .error e => .error e
      | .ok histograms => .ok (histogram :: histograms)
  | _, _ => .ok []

/-- Statistics of a table. -/
structure Statistics (α : Type) where
  table : TableId
  /-- The cost of reading one page. -/
  costPerPage : α
  pages : Nat
  rows : Nat
  /-- A histogram per column. -/
  histograms : List (ColumnHistogram α)
  deriving Repr

namespace Statistics

variable {α : Type} [Arithmetic α]

/-- The number of rows and the bounds of every column. -/
def survey (table : Table) (s : Store) : Except StatisticsError (Nat × List Bounds) × Store :=
  let step (seen : Nat × List Bounds) (row : Row) : Except StatisticsError (Nat × List Bounds) :=
    match extendBounds row 0 seen.2 with
    | .error e => .error e
    | .ok bounds => .ok (seen.1 + 1, bounds)
  table.fold step (0, List.replicate table.schema.size none) s

/-- Computes the statistics of a registered table on behalf of `tid`, which changes nothing. -/
def compute (s : Store) (tid : TransactionId) (table : TableId) (costPerPage : α)
    (requested : Nat) : Except StatisticsError (Statistics α) × Store :=
  match s.catalog.table table with
  | .error e => (.error (.catalog e), s)
  | .ok source =>
    match survey source s with
    | (.error e, s) => (.error e, s)
    | (.ok (rows, bounds), s) =>
      let pages := source.pageCount s.disk
      match emptyHistograms requested source.schema.types bounds with
      | .error e => (.error (.histogram e), s)
      | .ok histograms =>
        let extend histograms row := extendHistograms row 0 histograms
        match source.fold extend histograms s with
        | (.error e, s) => (.error e, s)
        | (.ok histograms, s) =>
          match s.commit tid with
          | (.error e, s) => (.error (.cache e), s)
          | (.ok (), s) => (.ok { table, costPerPage, pages, rows, histograms }, s)

/-- The cost of reading the whole table. -/
def scanCost (stats : Statistics α) : α :=
  stats.costPerPage * ofInt stats.pages

/-- The number of rows that pass a predicate of the given selectivity. -/
def cardinality (stats : Statistics α) (selectivity : α) : Nat :=
  Arithmetic.round (selectivity * ofInt stats.rows)

/-- The histogram of a column. -/
def histogram (stats : Statistics α) (column : Nat) : Except StatisticsError (ColumnHistogram α) :=
  match stats.histograms[column]? with
  | some histogram => .ok histogram
  | none => .error (.unknownColumn column)

/-- The estimated fraction of rows with `column op value`. -/
def selectivity (stats : Statistics α) (column : Nat) (op : Comparison) (value : Value) :
    Except StatisticsError α :=
  match stats.histogram column with
  | .error e => .error e
  | .ok histogram => histogram.selectivity column op value

/-- The average selectivity of `op` on a column. -/
def averageSelectivity (stats : Statistics α) (column : Nat) (op : Comparison) :
    Except StatisticsError α :=
  match stats.histogram column with
  | .error e => .error e
  | .ok histogram => .ok (histogram.averageSelectivity op)

end Statistics

end RowStore
