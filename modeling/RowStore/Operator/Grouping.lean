import RowStore.Operator.Error

/-!
# RowStore.Operator.Grouping: rows by group, reduced on demand

A grouping collects the values of one column under the value of another, or all together when
there is no other.  `merge` only collects; `results` reduces every group to one row, keeps the
rows, and hands them out until more is merged.  Groups come in the order in which their keys
first appeared, so nothing merged means no rows, even without a column to group by.
-/

namespace RowStore

namespace Aggregate

/-- The integer, when it fits in 32 bits. -/
def toInt32? (n : Int) : Except OperatorError Int32 :=
  if -2147483648 ≤ n ∧ n ≤ 2147483647 then .ok (Int32.ofInt n) else .error .integerOverflow

/-- The integers among the values, all of which have to be integers. -/
def integers : List Value → Except OperatorError (List Int)
  | [] => .ok []
  | value :: values =>
    match value.int? with
    | none => .error (.notAnInteger value)
    | some n =>
      match integers values with
      | .error e => .error e
      | .ok rest => .ok (n.toInt :: rest)

/-- The sum, taken from the left.  Every partial sum has to fit in 32 bits. -/
def sumFrom (total : Int32) : List Value → Except OperatorError Int32
  | [] => .ok total
  | value :: values =>
    match value.int? with
    | none => .error (.notAnInteger value)
    | some n =>
      match toInt32? (total.toInt + n.toInt) with
      | .error e => .error e
      | .ok total => sumFrom total values

/-- The integer a non-empty list of values reduces to. -/
def reduce (aggregate : Aggregate) (values : List Value) : Except OperatorError Int32 :=
  match aggregate with
  | .count => toInt32? values.length
  | .sum => sumFrom 0 values
  | .average =>
    match integers values with
    | .error e => .error e
    | .ok ns => .ok (Int32.ofInt ((ns.foldr (· + ·) 0).tdiv ns.length))
  | .least =>
    match integers values with
    | .error e => .error e
    | .ok [] => .error .integerOverflow
    | .ok (n :: ns) => .ok (Int32.ofInt (ns.foldl min n))
  | .greatest =>
    match integers values with
    | .error e => .error e
    | .ok [] => .error .integerOverflow
    | .ok (n :: ns) => .ok (Int32.ofInt (ns.foldl max n))

end Aggregate

/-- The values collected under one key; there is one key, `none`, when nothing is grouped by. -/
structure Group where
  key : Option Value
  values : List Value
  deriving DecidableEq, Repr

/-- The values of a column by group, and their reductions once they are known. -/
structure Grouping where
  groupBy : Option Nat
  column : Nat
  aggregate : Aggregate
  /-- The schema of the results. -/
  schema : Schema
  /-- The groups in the order in which their keys first appeared. -/
  groups : List Group
  /-- The results, unless something was merged since they were computed. -/
  computed : Option (List Row)
  deriving DecidableEq, Repr

namespace Grouping

/-- The groups after one more value under a key. -/
def addTo (key : Option Value) (value : Value) : List Group → List Group
  | [] => [⟨key, [value]⟩]
  | group :: groups =>
    if group.key = key then { group with values := group.values ++ [value] } :: groups
    else group :: addTo key value groups

/-- The column of the results that holds the reductions. -/
def resultColumn (aggregate : Aggregate) (column : Column) : Column :=
  ⟨.int, some (aggregate.text ++ "(" ++ column.name.getD "null" ++ ")")⟩

/-- A grouping of rows of a schema.  Results are the key, if something is grouped by, and the
reduction. -/
def ofSchema (input : Schema) (groupBy : Option Nat) (column : Nat) (aggregate : Aggregate) :
    Except OperatorError Grouping :=
  match input.column column with
  | .error e => .error (.schema e)
  | .ok source =>
    if aggregate.supports source.type then
      let result := resultColumn aggregate source
      match groupBy with
      | none =>
        .ok {
          groupBy, column, aggregate
          schema := ⟨[result], by simp⟩
          groups := []
          computed := none }
      | some index =>
        match input.column index with
        | .error e => .error (.schema e)
        | .ok key =>
          .ok {
            groupBy, column, aggregate
            schema := ⟨[key, result], by simp⟩
            groups := []
            computed := none }
    else
      .error (.unsupportedAggregate aggregate source.type)

/-- The key of a row. -/
def keyOf (grouping : Grouping) (row : Row) : Except SchemaError (Option Value) :=
  match grouping.groupBy with
  | none => .ok none
  | some index => (row.value index).map some

/-- The grouping with a row's value under the row's key. -/
def merge (grouping : Grouping) (row : Row) : Except OperatorError Grouping :=
  match grouping.keyOf row with
  | .error e => .error (.schema e)
  | .ok key =>
    match row.value grouping.column with
    | .error e => .error (.schema e)
    | .ok value =>
      .ok { grouping with groups := addTo key value grouping.groups, computed := none }

/-- The grouping with nothing merged. -/
def clear (grouping : Grouping) : Grouping :=
  { grouping with groups := [], computed := none }

/-- The result of one group. -/
def resultOf (grouping : Grouping) (group : Group) : Except OperatorError Row :=
  match grouping.aggregate.reduce group.values with
  | .error e => .error e
  | .ok n =>
    match Row.ofValues grouping.schema (group.key.toList ++ [.int n]) with
    | .error e => .error (.schema e)
    | .ok row => .ok row

/-- The results of groups in their order, up to the first that fails. -/
def resultsOf (grouping : Grouping) : List Group → Except OperatorError (List Row)
  | [] => .ok []
  | group :: groups =>
    match grouping.resultOf group with
    | .error e => .error e
    | .ok row =>
      match grouping.resultsOf groups with
      | .error e => .error e
      | .ok rows => .ok (row :: rows)

/-- One row per group.  Rows that were computed before are handed out again. -/
def results (grouping : Grouping) : Except OperatorError (List Row) × Grouping :=
  match grouping.computed with
  | some rows => (.ok rows, grouping)
  | none =>
    match grouping.resultsOf grouping.groups with
    | .error e => (.error e, grouping)
    | .ok rows => (.ok rows, { grouping with computed := some rows })

end Grouping

end RowStore
