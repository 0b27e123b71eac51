import RowStore.Error
import RowStore.Statistics.Histogram

/-!
# RowStore.Statistics.Column: what is known of a column

A column has a histogram of its own kind, over integers or over texts.  The range of an integer
histogram is that of the values seen before (`Bounds`); a value outside it is counted at the
nearer end.
-/

namespace RowStore

/-- Why statistics could not be computed or asked. -/
inductive StatisticsError where
  /-- There is no such column. -/
  | unknownColumn (index : Nat)
  /-- A value is compared with a column of another kind. -/
  | typeMismatch (index : Nat) (expected : String) (found : Value)
  | histogram (cause : HistogramError)
  | schema (cause : SchemaError)
  | table (cause : TableError)
  | catalog (cause : CatalogError)
  | cache (cause : CacheError)
  deriving DecidableEq, Repr

/-- The text of a statistics error. -/
def StatisticsError.message : StatisticsError → String
  | .unknownColumn index => s!"no statistics for column {index}"
  | .typeMismatch index expected found =>
    s!"cannot compare column {index} of type " ++ expected ++ " with " ++ found.display
  | .histogram cause => cause.message
  | .schema cause => cause.message
  | .table cause => cause.message
  | .catalog cause => cause.message
  | .cache cause => cause.message

/-- The histogram of a column, by the column's kind. -/
inductive ColumnHistogram (α : Type) where
  | int (histogram : Histogram α)
  | text (histogram : TextHistogram α)
  deriving Repr

/-- The least and the greatest integer seen in a column, if any was. -/
abbrev Bounds := Option (Int × Int)

/-- The bounds after one more value.  Text does not count. -/
def Bounds.extend (bounds : Bounds) (value : Value) : Bounds :=
  match value, bounds with
  | .text _, bounds => bounds
  | .int n, none => some (n.toInt, n.toInt)
  | .int n, some (low, high) => some (min low n.toInt, max high n.toInt)

namespace ColumnHistogram

variable {α : Type} [Arithmetic α]

/-- The name of the kind of column the histogram is for. -/
def kind : ColumnHistogram α → String
  | .int _ => "INT"
  | .text _ => "VARCHAR"

/-- An empty histogram for a column.  Integers get the range that was seen, or else the single
integer zero. -/
def ofColumn (requested : Nat) (type : ColumnType) (bounds : Bounds) :
    Except HistogramError (ColumnHistogram α) :=
  match type with
  | .int =>
    let (low, high) := bounds.getD (0, 0)
    (Histogram.ofRange requested low high).map .int
  | .varchar _ => (TextHistogram.ofBuckets requested).map .text

/-- The histogram of column `index` with one more value.  An integer outside the range is counted
at the nearer end. -/
def add (h : ColumnHistogram α) (index : Nat) (value : Value) :
    Except StatisticsError (ColumnHistogram α) :=
  match h, value with
  | .int h, .int n => ((h.add (max h.min (min n.toInt h.max))).map .int).mapError .histogram
  | .text h, .text s => ((h.add s).map .text).mapError .histogram
  | h, value => .error (.typeMismatch index h.kind value)

/-- The estimated fraction of values `x` of column `index` with `x op value`. -/
def selectivity (h : ColumnHistogram α) (index : Nat) (op : Comparison) (value : Value) :
    Except StatisticsError α :=
  match h, value with
  | .int h, .int n => .ok (h.selectivity op n.toInt)
  | .text h, .text s => .ok (h.selectivity op s)
  | h, value => .error (.typeMismatch index h.kind value)

/-- The average of the estimates for `op`. -/
def averageSelectivity (h : ColumnHistogram α) (op : Comparison) : α :=
  match h with
  | .int h => h.averageSelectivity op
  | .text h => h.averageSelectivity op

end ColumnHistogram

end RowStore
