/-!
# RowStore.Statistics.Arithmetic: numbers to estimate with

Estimates are computed in double precision, and their laws are laws of exact fractions.  Both are
numbers in the sense of this class, so one definition serves both.
-/

namespace RowStore

/-- Numbers with the four operations and with roundings to whole numbers. -/
class Arithmetic (α : Type) extends Add α, Sub α, Mul α, Div α where
  /-- The number equal to an integer, or the nearest to it. -/
  ofInt : Int → α
  /-- The least integer that is not less. -/
  ceil : α → Int
  /-- The number without its fractional part, and zero when it is negative or no number. -/
  truncate : α → Nat
  /-- The nearest whole number, a half going away from zero, and zero when it is negative or no
  number. -/
  round : α → Nat

export Arithmetic (ofInt)

/-- Double precision.  Whole numbers saturate at the ends of 64-bit words. -/
instance : Arithmetic Float where
  ofInt := Float.ofInt
  ceil x := x.ceil.toInt64.toInt
  truncate x := x.toUInt64.toNat
  round x := x.round.toUInt64.toNat

end RowStore
