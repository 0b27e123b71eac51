import RowStore.Error

/-!
# RowStore.Operator.Error: why an operator refuses
-/

namespace RowStore

/-- What an operator does. -/
inductive OperatorKind where
  | values
  | scan
  | insert
  | delete
  | aggregate
  deriving DecidableEq, Repr

/-- The name of a kind of operator. -/
def OperatorKind.text : OperatorKind → String
  | .values => "ValuesScan"
  | .scan => "SeqScan"
  | .insert => "Insert"
  | .delete => "Delete"
  | .aggregate => "Aggregate"

/-- A function that reduces the values of a group to one integer. -/
inductive Aggregate where
  | count
  | sum
  /-- The mean, truncated toward zero. -/
  | average
  | least
  | greatest
  deriving DecidableEq, Repr

namespace Aggregate

/-- Every aggregate, in the order in which they are listed. -/
def all : List Aggregate :=
  [.count, .sum, .average, .least, .greatest]

/-- The name of an aggregate. -/
def text : Aggregate → String
  | .count => "count"
  | .sum => "sum"
  | .average => "avg"
  | .least => "min"
  | .greatest => "max"

/-- Whether the aggregate is defined on columns of a type.  Text can only be counted. -/
def supports : Aggregate → ColumnType → Bool
  | _, .int => true
  | aggregate, .varchar _ => aggregate == .count

end Aggregate

/-- Why an operator could not be built or did not answer. -/
inductive OperatorError where
  /-- Rows are asked of an operator that is closed. -/
  | notOpen (operator : OperatorKind)
  /-- An operator is opened that is open. -/
  | alreadyOpen (operator : OperatorKind)
  /-- Rows of one schema are offered where rows of another are expected. -/
  | schemaMismatch (expected found : Schema)
  /-- A value is offered where an integer is expected. -/
  | notAnInteger (found : Value)
  /-- The aggregate is not defined on the column. -/
  | unsupportedAggregate (aggregate : Aggregate) (type : ColumnType)
  /-- A result does not fit in 32 bits. -/
  | integerOverflow
  | schema (cause : SchemaError)
  | table (cause : TableError)
  | catalog (cause : CatalogError)
  deriving DecidableEq, Repr

/-- The text of an operator error. -/
def OperatorError.message : OperatorError → String
  | .notOpen operator => operator.text ++ " is not open"
  | .alreadyOpen operator => operator.text ++ " is already open"
  | .schemaMismatch expected found =>
    "schema mismatch: expected (" ++ expected.text ++ "), found (" ++ found.text ++ ")"
  | .notAnInteger found =>
    "schema mismatch: expected (" ++ ColumnType.int.text ++ "), found (" ++ found.display ++ ")"
  | .unsupportedAggregate aggregate type =>
    aggregate.text ++ " is not supported on " ++ type.text ++ " columns"
  | .integerOverflow => "integer out of range"
  | .schema cause => cause.message
  | .table cause => cause.message
  | .catalog cause => cause.message

end RowStore
