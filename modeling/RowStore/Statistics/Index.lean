import RowStore.Statistics

/-!
# RowStore.Statistics.Index: statistics by table name

The index holds the latest statistics of each table under the table's name.  They are replaced
as a whole.
-/

namespace RowStore

/-- Statistics under the names of their tables. -/
structure StatisticsIndex (α : Type) where
  tables : List (String × Statistics α)
  deriving Repr

namespace StatisticsIndex

variable {α : Type}

/-- The index of no tables. -/
def empty : StatisticsIndex α := ⟨[]⟩

/-- The statistics under a name. -/
def get? (index : StatisticsIndex α) (name : String) : Option (Statistics α) :=
  index.tables.lookup name

/-- The index with the statistics under a name replaced. -/
def set (index : StatisticsIndex α) (name : String) (stats : Statistics α) : StatisticsIndex α :=
  ⟨(name, stats) :: index.tables.filter fun entry => entry.1 ≠ name⟩

/-- The names with statistics, in the order of their bytes. -/
def names (index : StatisticsIndex α) : List String :=
  let order (a b : String) : Bool :=
    (compare (Utf8.encode a.toList) (Utf8.encode b.toList)).isLE
  (index.tables.map Prod.fst).mergeSort order

end StatisticsIndex

end RowStore
