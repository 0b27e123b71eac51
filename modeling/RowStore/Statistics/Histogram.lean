import RowStore.Statistics.Arithmetic
import RowStore.Value

/-!
# RowStore.Statistics.Histogram: how the integers of a column are spread

A histogram divides a closed range of integers into buckets of equal width and counts the recorded
values in each.  Bucket `b` begins at the least integer not below `min + b * width`; when the
range has fewer integers than the buckets that were asked for, each integer has a bucket of its
own.  Within a bucket every integer is taken to be equally frequent (`density`), and from that
follow the estimates of how many recorded values satisfy a comparison.
-/

namespace RowStore

/-- Why a histogram refuses. -/
inductive HistogramError where
  /-- No bucket is asked for. -/
  | noBuckets
  /-- The range holds no integer. -/
  | emptyRange (min max : Int)
  /-- The value lies outside the range. -/
  | outOfRange (value min max : Int)
  deriving DecidableEq, Repr

/-- The text of a histogram error. -/
def HistogramError.message : HistogramError → String
  | .noBuckets => "histogram needs at least one bucket"
  | .emptyRange min max => s!"histogram range [{min}, {max}] is empty"
  | .outOfRange value min max => s!"histogram value {value} out of range [{min}, {max}]"

/-- Counts of integers in buckets of equal width. -/
structure Histogram (α : Type) where
  min : Int
  max : Int
  /-- The width of each bucket. -/
  width : α
  /-- The number of buckets that was asked for. -/
  requested : Nat
  /-- The least integer of each bucket. -/
  starts : List Int
  /-- The number of values in each bucket. -/
  counts : List Nat
  /-- The number of values. -/
  total : Nat
  deriving Repr

namespace Histogram

variable {α : Type} [Arithmetic α]

/-- A histogram of no values over the range from `min` to `max`. -/
def ofRange (requested : Nat) (min max : Int) : Except HistogramError (Histogram α) :=
  if requested = 0 then .error .noBuckets
  else if max < min then .error (.emptyRange min max)
  else
    let buckets := Nat.min requested (max - min + 1).toNat
    let width : α := ofInt (max - min) / ofInt buckets
    .ok {
      min, max, width, requested
      starts := (List.range buckets).map fun (b : Nat) =>
        Arithmetic.ceil (ofInt min + ofInt b * width)
      counts := List.replicate buckets 0
      total := 0 }

/-- The number of buckets in use. -/
def buckets (h : Histogram α) : Nat :=
  h.counts.length

/-- The index of the last bucket. -/
def last (h : Histogram α) : Nat :=
  h.buckets - 1

/-! ## Buckets -/

/-- The least integer of a bucket. -/
def bucketMin (h : Histogram α) (b : Nat) : Int :=
  h.starts.getD b h.max

/-- The greatest integer of a bucket. -/
def bucketMax (h : Histogram α) (b : Nat) : Int :=
  match h.starts[b + 1]? with
  | some next => next - 1
  | none => h.max

/-- The number of values in a bucket. -/
def count (h : Histogram α) (b : Nat) : Nat :=
  h.counts.getD b 0

/-- The number of integers of a bucket. -/
def distinct (h : Histogram α) (b : Nat) : Int :=
  h.bucketMax b - h.bucketMin b + 1

/-- The last bucket up to the given one that does not begin behind `v`. -/
def descend (h : Histogram α) (v : Int) : Nat → Nat
  | 0 => 0
  | b + 1 => if v < h.bucketMin (b + 1) then h.descend v b else b + 1

/-- The first bucket from the given one on that does not end before `v`, at most `remaining`
further. -/
def climb (h : Histogram α) (v : Int) : (remaining : Nat) → Nat → Nat
  | 0, b => b
  | remaining + 1, b => if h.bucketMax b < v then h.climb v remaining (b + 1) else b

/-- The bucket of `v`, found from a guess that may be wrong. -/
def bucketFrom (h : Histogram α) (v : Int) (guess : Nat) : Nat :=
  let b := h.descend v guess
  h.climb v (h.last - b) b

/-- The bucket of an integer in range.  Dividing by the width gives a guess, which rounding can
put next to the right bucket. -/
def bucket (h : Histogram α) (v : Int) : Nat :=
  h.bucketFrom v (Nat.min (Arithmetic.truncate (ofInt (v - h.min) / h.width : α)) h.last)

/-! ## Recording -/

/-- The histogram with one more value. -/
def add (h : Histogram α) (v : Int) : Except HistogramError (Histogram α) :=
  if h.min ≤ v ∧ v ≤ h.max then
    .ok { h with counts := h.counts.modify (h.bucket v) (· + 1), total := h.total + 1 }
  else
    .error (.outOfRange v h.min h.max)

/-! ## Estimates -/

/-- The fraction of the values that is put down to each integer of a bucket. -/
def density (h : Histogram α) (b : Nat) : α :=
  ofInt (h.count b) / ofInt (h.distinct b) / ofInt h.total

/-- The estimated fraction of values equal to `v`. -/
def equal (h : Histogram α) (v : Int) : α :=
  if v < h.min ∨ h.max < v ∨ h.total = 0 then ofInt 0
  else h.density (h.bucket v)

/-- The estimated fraction of values greater than `v`. -/
def greater (h : Histogram α) (v : Int) : α :=
  if v < h.min then ofInt 1
  else if h.max ≤ v ∨ h.total = 0 then ofInt 0
  else
    let b := h.bucket v
    let above : Nat := (h.counts.drop (b + 1)).foldr (· + ·) 0
    h.density b * ofInt (h.bucketMax b - v) + ofInt above / ofInt h.total

/-- The estimated fraction of values less than `v`. -/
def less (h : Histogram α) (v : Int) : α :=
  if v ≤ h.min ∨ h.total = 0 then ofInt 0
  else if h.max < v then ofInt 1
  else
    let b := h.bucket v
    let below : Nat := (h.counts.take b).foldr (· + ·) 0
    h.density b * ofInt (v - h.bucketMin b) + ofInt below / ofInt h.total

/-- The estimated fraction of values `x` with `x op v`. -/
def selectivity (h : Histogram α) (op : Comparison) (v : Int) : α :=
  match op with
  | .equal => h.equal v
  | .notEqual => ofInt 1 - h.equal v
  | .greater => h.greater v
  | .greaterOrEqual => h.equal v + h.greater v
  | .less => h.less v
  | .lessOrEqual => h.equal v + h.less v

/-! ## Averages -/

/-- Sums of estimates over every integer of the range. -/
structure RangeSums (α : Type) where
  equal : α
  greater : α
  less : α
  deriving Repr

/-- Adds the contributions of buckets to `sums`, given the least integers and the counts of the
buckets that are left.  Within a bucket the estimates form an arithmetic series; `below` and
`above` are the numbers of values in the buckets before these and in these. -/
def sumBuckets (h : Histogram α) :
    (starts : List Int) → (counts : List Nat) → (below above : Nat) → RangeSums α → RangeSums α
  | start :: starts, count :: counts, below, above, sums =>
    let total : α := ofInt h.total
    let above := above - count
    let d : α := ofInt (starts.headD (h.max + 1) - start)
    let series := ofInt count * (d - ofInt 1) / ofInt 2 / total
    h.sumBuckets starts counts (below + count) above {
      equal := sums.equal + ofInt count / total
      greater := sums.greater + (series + d * ofInt above / total)
      less := sums.less + (series + d * ofInt below / total) }
  | _, _, _, _, sums => sums

/-- The sums of the estimates for `=`, `>` and `<` over every integer of the range. -/
def rangeSums (h : Histogram α) : RangeSums α :=
  let zero : RangeSums α := ⟨ofInt 0, ofInt 0, ofInt 0⟩
  if h.total = 0 then zero else h.sumBuckets h.starts h.counts 0 h.total zero

/-- The sum of the estimates for `op` over every integer of the range, divided by the number of
buckets that was asked for. -/
def averageSelectivity (h : Histogram α) (op : Comparison) : α :=
  let values : α := ofInt (h.max - h.min + 1)
  let sums := h.rangeSums
  let sum :=
    match op with
    | .equal => sums.equal
    | .notEqual => values - sums.equal
    | .greater => sums.greater
    | .greaterOrEqual => sums.equal + sums.greater
    | .less => sums.less
    | .lessOrEqual => sums.equal + sums.less
  sum / ofInt h.requested

/-- The total, and the start and count of each bucket. -/
def text (h : Histogram α) : String :=
  let bucket (entry : Int × Nat) : String := toString entry.1 ++ ":" ++ toString entry.2
  s!"IntHistogram total={h.total} buckets=" ++ ",".intercalate ((h.starts.zip h.counts).map bucket)

end Histogram

/-- Counts of texts, each counted at the integer its first bytes spell. -/
structure TextHistogram (α : Type) where
  keys : Histogram α
  deriving Repr

namespace TextHistogram

variable {α : Type} [Arithmetic α]

/-- The integer a text is counted at: its first four bytes, padded with zeros, without the last
bit.  A text that comes first in byte order has no greater key. -/
def key (s : String) : Int :=
  (Bytes.toNat ((Utf8.encode s.toList ++ Bytes.zeros 4).take 4) / 2 : Nat)

/-- A histogram of no texts. -/
def ofBuckets (requested : Nat) : Except HistogramError (TextHistogram α) :=
  (Histogram.ofRange requested 0 2147483647).map TextHistogram.mk

/-- The number of texts. -/
def total (h : TextHistogram α) : Nat :=
  h.keys.total

/-- The histogram with one more text. -/
def add (h : TextHistogram α) (s : String) : Except HistogramError (TextHistogram α) :=
  (h.keys.add (key s)).map TextHistogram.mk

/-- The estimated fraction of texts `x` with `x op s`. -/
def selectivity (h : TextHistogram α) (op : Comparison) (s : String) : α :=
  h.keys.selectivity op (key s)

/-- The average of the estimates for `op`. -/
def averageSelectivity (h : TextHistogram α) (op : Comparison) : α :=
  h.keys.averageSelectivity op

end TextHistogram

end RowStore
