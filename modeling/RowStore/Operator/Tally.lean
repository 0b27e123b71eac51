import RowStore.Operator.Error

/-!
# RowStore.Operator.Tally: a count as the only row

Operators that change tables answer with one row that counts the rows they changed.  The tally is
open while it has that row.
-/

namespace RowStore

/-- The row that counts, once it is known, and whether it was handed out. -/
structure Tally where
  row : Option Row := none
  isSpent : Bool := false
  deriving DecidableEq, Repr

namespace Tally

/-- Whether the tally has its row. -/
def isOpen (tally : Tally) : Bool :=
  tally.row.isSome

/-- The row that says how many rows were changed. -/
def rowOf (count : Nat) : Except OperatorError Row :=
  if count ≤ 2147483647 then
    .ok { schema := .oneInt, values := [.int (Int32.ofNat count)] }
  else
    .error .integerOverflow

/-- Whether the row is still to be handed out. -/
def hasNext (tally : Tally) (operator : OperatorKind) : Except OperatorError Bool :=
  if tally.isOpen then .ok (!tally.isSpent) else .error (.notOpen operator)

/-- The row, once. -/
def next (tally : Tally) (operator : OperatorKind) : Except OperatorError (Option Row) × Tally :=
  if tally.isOpen then
    if tally.isSpent then (.ok none, tally) else (.ok tally.row, { tally with isSpent := true })
  else
    (.error (.notOpen operator), tally)

/-- Makes the row available again. -/
def rewind (tally : Tally) (operator : OperatorKind) : Except OperatorError Unit × Tally :=
  if tally.isOpen then (.ok (), { tally with isSpent := false })
  else (.error (.notOpen operator), tally)

/-- Forgets the row. -/
def close (tally : Tally) : Tally :=
  { tally with row := none }

end Tally

end RowStore
