import RowStore.Operator.Grouping

/-!
# RowStore.Operator.Aggregation: a grouping fed by another operator

The first time it is opened, an aggregation pulls every row of its child into a grouping and
reduces it.  Later it replays the same results, whatever has become of the child's rows.  When
feeding fails nothing stays collected, so the next attempt starts afresh.  The child is anything
that hands out rows while it works on a shared state: `κ` is the child, `σ` the state.
-/

namespace RowStore

/-- A grouping, whether it was fed, and how many of its results were handed out. -/
structure Aggregation where
  grouping : Grouping
  isFed : Bool := false
  position : Nat := 0
  isOpen : Bool := false
  deriving DecidableEq, Repr

namespace Aggregation

variable {κ σ : Type}

/-- Pulls rows into a grouping until there are no more, at most `limit` of them, and reduces. -/
def feed (next : κ → σ → Except OperatorError (Option Row) × κ × σ) :
    (limit : Nat) → Grouping → κ → σ → Except OperatorError Unit × Grouping × κ × σ
  | 0, grouping, child, s => (.error (.table .rowLimit), grouping, child, s)
  | limit + 1, grouping, child, s =>
    match next child s with
    | (.error e, child, s) => (.error e, grouping, child, s)
    | (.ok none, child, s) =>
      match grouping.results with
      | (.error e, grouping) => (.error e, grouping, child, s)
      | (.ok _, grouping) => (.ok (), grouping, child, s)
    | (.ok (some row), child, s) =>
      match grouping.merge row with
      | .error e => (.error e, grouping, child, s)
      | .ok grouping => feed next limit grouping child s

/-- Opens the aggregation.  `startChild` opens the child, `limit` bounds how many rows it can hand
out, and `closeChild` closes it again when feeding fails. -/
def start (startChild : κ → σ → Except OperatorError Unit × κ × σ)
    (next : κ → σ → Except OperatorError (Option Row) × κ × σ) (closeChild : κ → κ)
    (limit : κ → σ → Nat) (a : Aggregation) (child : κ) (s : σ) :
    Except OperatorError Unit × Aggregation × κ × σ :=
  if a.isOpen then (.error (.alreadyOpen .aggregate), a, child, s)
  else
    match startChild child s with
    | (.error e, child, s) => (.error e, a, child, s)
    | (.ok (), child, s) =>
      if a.isFed then (.ok (), { a with position := 0, isOpen := true }, child, s)
      else
        match feed next (limit child s) a.grouping child s with
        | (.error e, grouping, child, s) =>
          (.error e, { a with grouping := grouping.clear }, closeChild child, s)
        | (.ok (), grouping, child, s) =>
          (.ok (), { grouping, isFed := true, position := 0, isOpen := true }, child, s)

/-- Whether there is another result. -/
def hasNext (a : Aggregation) : Except OperatorError Bool × Aggregation :=
  if a.isOpen then
    match a.grouping.results with
    | (.error e, grouping) => (.error e, { a with grouping })
    | (.ok rows, grouping) => (.ok (a.position < rows.length), { a with grouping })
  else
    (.error (.notOpen .aggregate), a)

/-- The next result, or `none` behind the last. -/
def next (a : Aggregation) : Except OperatorError (Option Row) × Aggregation :=
  if a.isOpen then
    match a.grouping.results with
    | (.error e, grouping) => (.error e, { a with grouping })
    | (.ok rows, grouping) =>
      match rows[a.position]? with
      | some row => (.ok (some row), { a with grouping, position := a.position + 1 })
      | none => (.ok none, { a with grouping })
  else
    (.error (.notOpen .aggregate), a)

/-- Goes back before the first result. -/
def rewind (a : Aggregation) : Except OperatorError Unit × Aggregation :=
  if a.isOpen then (.ok (), { a with position := 0 })
  else (.error (.notOpen .aggregate), a)

/-- Closes the aggregation.  Its results stay known. -/
def close (a : Aggregation) : Aggregation :=
  { a with isOpen := false }

end Aggregation

end RowStore
