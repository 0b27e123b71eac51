import RowStore.Text.Utf8

/-!
# RowStore.Value: column types, values and comparisons

A column holds 32-bit integers or text of bounded length; either way a stored value has a fixed
width.  Values of one kind are ordered, integers by size and text by its bytes; values of
different kinds are not comparable, so no comparison between them holds, not even `<>`.
-/

namespace RowStore

/-- The declared type of a column. -/
inductive ColumnType where
  /-- A 32-bit signed integer. -/
  | int
  /-- Text of at most `limit` bytes. -/
  | varchar (limit : Nat)
  deriving DecidableEq, Repr, Inhabited

/-- Text of the length used when none is asked for. -/
def ColumnType.string : ColumnType := .varchar 128

/-- Bytes a stored value of this type occupies, fewer than 2^64.  Text is kept behind a four-byte
length. -/
def ColumnType.width : ColumnType → Nat
  | .int => 4
  | .varchar limit => 4 + limit

/-- The name of a type. -/
def ColumnType.text : ColumnType → String
  | .int => "INT"
  | .varchar limit => s!"VARCHAR({limit})"

/-- A value of a column. -/
inductive Value where
  | int (n : Int32)
  | text (s : String)
  deriving DecidableEq, Repr, Inhabited

namespace Value

/-- The integer, if the value is one. -/
def int? : Value → Option Int32
  | .int n => some n
  | .text _ => none

/-- The text, if the value is some. -/
def text? : Value → Option String
  | .int _ => none
  | .text s => some s

/-- A value as shown to a reader: the number in decimal, the text itself. -/
def display : Value → String
  | .int n => toString n.toInt
  | .text s => s

/-- The order of two values of one kind.  Text is ordered by its bytes. -/
def compare? : Value → Value → Option Ordering
  | .int a, .int b => some (compare a.toInt b.toInt)
  | .text a, .text b => some (compare (Utf8.encode a.toList) (Utf8.encode b.toList))
  | _, _ => none

end Value

/-- Whether a column of this type can hold the value. -/
def ColumnType.accepts : ColumnType → Value → Bool
  | .int, .int _ => true
  | .varchar _, .text _ => true
  | _, _ => false

/-- A comparison in a predicate. -/
inductive Comparison where
  | equal
  | greater
  | less
  | lessOrEqual
  | greaterOrEqual
  | notEqual
  deriving DecidableEq, Repr, Inhabited

namespace Comparison

/-- Every comparison, in the order in which they are listed. -/
def all : List Comparison :=
  [.equal, .greater, .less, .lessOrEqual, .greaterOrEqual, .notEqual]

/-- The sign of a comparison. -/
def text : Comparison → String
  | .equal => "="
  | .greater => ">"
  | .less => "<"
  | .lessOrEqual => "<="
  | .greaterOrEqual => ">="
  | .notEqual => "<>"

/-- Whether the comparison holds of operands in the given order. -/
def holds : Comparison → Ordering → Bool
  | .equal, order => order == .eq
  | .greater, order => order == .gt
  | .less, order => order == .lt
  | .lessOrEqual, order => order != .gt
  | .greaterOrEqual, order => order != .lt
  | .notEqual, order => order != .eq

end Comparison

/-- Whether `a op b` holds.  Values of different kinds satisfy no comparison. -/
def Value.satisfies (a : Value) (op : Comparison) (b : Value) : Bool :=
  (a.compare? b).any op.holds

end RowStore
