import RowStore.Proofs.Operator.Reduction
import Mathlib.Data.Rat.Floor

/-!
# RowStore.Proofs.Operator.Averaging: a mean taken in words of 64 bits

`reduce` takes a mean in integers of any size.  Here it is taken in machine words: the total in 64
bits, and of the quotient the low 32 (`Aggregate.averageInWords`).  Words wrap around, and nothing
shows it.  But with each integer that is added, the total keeps within what so many integers of 32
bits can come to (`Aggregate.toInt_add_of_within`), which is less than 64 bits hold for fewer than
2³² of them; and the quotient lies between the integers (`Aggregate.mean_between`).  So in words the
mean is what it is without them (`Aggregate.averageInWords_eq`).
-/

namespace RowStore

namespace Aggregate

variable {values : List Value} {total : Int64} {n : Int32} {size : Nat} {sum : Int}

/-! ## Totals -/

/-- The total of values, in a word of 64 bits. -/
def totalFrom (total : Int64) : List Value → Except OperatorError Int64
  | [] => .ok total
  | value :: values =>
    match value.int? with
    | none => .error (.notAnInteger value)
    | some n => totalFrom (total + n.toInt64) values

/-- A sum that so many integers of 32 bits can come to. -/
def Within (size : Nat) (sum : Int) : Prop :=
  -2147483648 * (size : Int) ≤ sum ∧ sum ≤ 2147483647 * (size : Int)

theorem within_zero : Within 0 (Int64.toInt 0) :=
  ⟨by decide, by decide⟩

theorem Within.add (h : Within size sum) (n : Int32) : Within (size + 1) (sum + n.toInt) := by
  have hlow := n.le_toInt
  have hhigh := n.toInt_lt
  unfold Within at h ⊢
  omega

/-- An integer is added without wrapping around while there are fewer than 2³². -/
theorem toInt_add_of_within (h : Within size total.toInt) (hsize : size + 1 < 4294967296)
    (n : Int32) : (total + n.toInt64).toInt = total.toInt + n.toInt := by
  have hsum := h.add n
  unfold Within at hsum
  rw [Int64.toInt_add, Int32.toInt_toInt64]
  exact Int.bmod_eq_of_le (by omega) (by omega)

/-- Integers are added one by one to a total of `size` others, and it comes to the exact sum. -/
theorem exists_totalFrom : ∀ {values : List Value} {total : Int64} {size : Nat}, AllInts values →
    Within size total.toInt → size + values.length < 4294967296 →
      ∃ word, totalFrom total values = .ok word ∧ word.toInt = total.toInt + (ints values).sum
  | [], total, _, _, _, _ => ⟨total, rfl, (Int.add_zero _).symm⟩
  | value :: values, total, size, hints, hwithin, hlength => by
    obtain ⟨⟨n, rfl⟩, hrest⟩ := allInts_cons.mp hints
    rw [List.length_cons] at hlength
    have hadd := toInt_add_of_within hwithin (by omega) n
    have hnext : Within (size + 1) (total + n.toInt64).toInt := by
      rw [hadd]
      exact hwithin.add n
    obtain ⟨word, hword, hsum⟩ := exists_totalFrom hrest hnext (by omega)
    refine ⟨word, hword, ?_⟩
    rw [hsum, hadd, ints_cons, List.sum_cons, Int.add_assoc]

/-- Only a value that is no integer keeps a total from being taken. -/
theorem totalFrom_eq_error_iff {e : OperatorError} : ∀ {values : List Value} {total : Int64},
    totalFrom total values = .error e ↔ integers values = .error e
  | [], _ => by simp [totalFrom, integers]
  | .text s :: values, _ => by simp [totalFrom, integers, Value.int?]
  | .int n :: values, total => by
    show totalFrom (total + n.toInt64) values = _ ↔ _
    rw [totalFrom_eq_error_iff, integers_cons]
    cases integers values <;> simp [Except.map]

/-! ## Means -/

/-- The mean of values in words: the quotient has 64 bits, and the low 32 are kept. -/
def averageInWords (values : List Value) : Except OperatorError Int32 :=
  (totalFrom 0 values).map fun total => (total / Int64.ofNat values.length).toInt32

/-- The quotient is exact but for its fraction, and nothing is lost with its high bits. -/
theorem toInt_quotient {ns : List Int} (hne : ns ≠ []) (hfits : ∀ n ∈ ns, FitsInt32 n)
    (hlength : ns.length < 4294967296) (htotal : total.toInt = ns.sum) :
    (total / Int64.ofNat ns.length).toInt = ns.sum.tdiv ns.length ∧
      (total / Int64.ofNat ns.length).toInt32.toInt = ns.sum.tdiv ns.length := by
  have hdivisor : (Int64.ofNat ns.length).toInt = ns.length := Int64.toInt_ofNat_of_lt (by omega)
  have hminus : Int64.ofNat ns.length ≠ -1 := by
    intro h
    rw [h, show (-1 : Int64).toInt = -1 from rfl] at hdivisor
    omega
  have hquotient : (total / Int64.ofNat ns.length).toInt = ns.sum.tdiv ns.length := by
    rw [Int64.toInt_div_of_ne_right _ _ hminus, hdivisor, htotal]
  have hmean := fits_mean hne hfits
  unfold FitsInt32 at hmean
  refine ⟨hquotient, ?_⟩
  rw [Int64.toInt_toInt32, hquotient]
  exact Int.bmod_eq_of_le (by omega) (by omega)

/-- Words make no difference to a mean, nor to the error when a value is no integer. -/
theorem averageInWords_eq (hne : values ≠ []) (hlength : values.length < 4294967296) :
    averageInWords values = reduce .average values := by
  unfold averageInWords reduce
  dsimp only
  cases hns : integers values with
  | error e =>
    rw [totalFrom_eq_error_iff.mpr hns]
    rfl
  | ok ns =>
    have hints := allInts_of_integers hns
    have hfits : ∀ m ∈ ints values, FitsInt32 m := fun _ => fits_of_mem_ints
    have hne' := ints_ne_nil hints hne
    obtain rfl : ints values = ns := Except.ok.inj ((integers_eq hints).symm.trans hns)
    obtain ⟨total, htotal, hsum⟩ := exists_totalFrom hints within_zero (by omega)
    rw [Int64.toInt_zero, Int.zero_add] at hsum
    rw [htotal, ← length_ints hints]
    have hquotient := (toInt_quotient hne' hfits (by rwa [length_ints hints]) hsum).2
    exact congrArg Except.ok ((ofInt_eq_iff (fits_mean hne' hfits)).mpr hquotient).symm

/-- A rational number without its fraction. -/
def truncate (q : ℚ) : Int :=
  if 0 ≤ q then ⌊q⌋ else ⌈q⌉

theorem truncate_div (m : Int) (hsize : 0 < size) : truncate (m / size) = m.tdiv size := by
  have hpos : (0 : ℚ) < size := by exact_mod_cast hsize
  unfold truncate
  by_cases hm : 0 ≤ m
  · have hq : (0 : ℚ) ≤ m / size := div_nonneg (by exact_mod_cast hm) hpos.le
    rw [if_pos hq, Rat.floor_intCast_div_natCast, Int.tdiv_eq_ediv_of_nonneg hm]
  · have hq : (m : ℚ) / size < 0 := div_neg_of_neg_of_pos (by exact_mod_cast not_le.mp hm) hpos
    rw [if_neg (not_le.mpr hq), Rat.ceil_intCast_div_natCast,
      ← Int.tdiv_eq_ediv_of_nonneg (by omega), Int.neg_tdiv, Int.neg_neg]

/-! ## Lists of integers -/

section Ints

variable {ns : List Int32}

theorem ints_map_int (ns : List Int32) : ints (ns.map .int) = ns.map Int32.toInt := by
  induction ns with
  | nil => rfl
  | cons n ns ih => rw [List.map_cons, ints_cons, ih, List.map_cons]

theorem allInts_map_int (ns : List Int32) : AllInts (ns.map .int) := by
  intro value hvalue
  obtain ⟨n, -, rfl⟩ := List.mem_map.mp hvalue
  exact ⟨n, rfl⟩

theorem reduces_average_iff :
    Reduces .average (ns.map .int) n.toInt ↔ n.toInt = (ns.map Int32.toInt).sum.tdiv ns.length := by
  unfold Reduces
  rw [ints_map_int, List.length_map]

theorem reduces_least_iff : Reduces .least (ns.map .int) n.toInt ↔ IsLeast {m | m ∈ ns} n := by
  unfold Reduces
  simp [ints_map_int, IsLeast, lowerBounds, Int32.le_iff_toInt_le, Int32.toInt_inj]

theorem reduces_greatest_iff :
    Reduces .greatest (ns.map .int) n.toInt ↔ IsGreatest {m | m ∈ ns} n := by
  unfold Reduces
  simp [ints_map_int, IsGreatest, upperBounds, Int32.le_iff_toInt_le, Int32.toInt_inj]

/-- The total of integers is their exact sum. -/
theorem exists_total (hlength : ns.length < 4294967296) :
    ∃ total, totalFrom 0 (ns.map .int) = .ok total ∧
      total.toInt = (ns.map Int32.toInt).sum := by
  obtain ⟨total, htotal, hsum⟩ := exists_totalFrom (allInts_map_int ns) within_zero
    (by rwa [List.length_map, Nat.zero_add])
  rw [Int64.toInt_zero, Int.zero_add, ints_map_int] at hsum
  exact ⟨total, htotal, hsum⟩

/-- The mean of integers lies between the least of them and the greatest. -/
theorem le_mean_le {low high : Int32} (hne : ns ≠ []) (hlow : IsLeast {m | m ∈ ns} low)
    (hhigh : IsGreatest {m | m ∈ ns} high)
    (hn : n.toInt = (ns.map Int32.toInt).sum.tdiv ns.length) : low ≤ n ∧ n ≤ high := by
  have hmem : ∀ m ∈ ns.map Int32.toInt, low.toInt ≤ m ∧ m ≤ high.toInt := by
    intro m hm
    obtain ⟨k, hk, rfl⟩ := List.mem_map.mp hm
    exact ⟨Int32.le_iff_toInt_le.mp (hlow.2 hk), Int32.le_iff_toInt_le.mp (hhigh.2 hk)⟩
  have hmean := mean_between (mt List.map_eq_nil_iff.mp hne) hmem
  rw [List.length_map, ← hn] at hmean
  exact ⟨Int32.le_iff_toInt_le.mpr hmean.1, Int32.le_iff_toInt_le.mpr hmean.2⟩

/-- For any integers, at least one and fewer than 2³²: each total on the way is the exact sum, so no
word wraps around; what is left of the quotient is the quotient, and it is the exact
mean without its fraction; that is the mean that is reduced, and it lies between the least integer
and the greatest. -/
theorem average_exact (hne : ns ≠ []) (hlength : ns.length < 4294967296) :
    (∀ front, front <+: ns → ∃ total, totalFrom 0 (front.map .int) = .ok total ∧
      total.toInt = (front.map Int32.toInt).sum) ∧
    ∃ total n, totalFrom 0 (ns.map .int) = .ok total ∧
      averageInWords (ns.map .int) = .ok n ∧ reduce .average (ns.map .int) = .ok n ∧
      n.toInt = (total / Int64.ofNat ns.length).toInt ∧
      n.toInt = truncate (((ns.map Int32.toInt).sum : Int) / ns.length) ∧
      ∃ low high, reduce .least (ns.map .int) = .ok low ∧ IsLeast {m | m ∈ ns} low ∧
        reduce .greatest (ns.map .int) = .ok high ∧ IsGreatest {m | m ∈ ns} high ∧
        low ≤ n ∧ n ≤ high := by
  have hints := allInts_map_int ns
  have hsome : ns.map Value.int ≠ [] := mt List.map_eq_nil_iff.mp hne
  have hfew : (ns.map Value.int).length < 4294967296 := by rwa [List.length_map]
  have hreducible : ∀ aggregate : Aggregate, aggregate.Reducible (ns.map .int) :=
    fun _ => ⟨hsome, fun _ => hints⟩
  obtain ⟨total, htotal, hsum⟩ := exists_total hlength
  obtain ⟨n, hn⟩ := exists_reduce (hreducible .average) (by decide) (by decide)
  obtain ⟨low, hlow⟩ := exists_reduce (hreducible .least) (by decide) (by decide)
  obtain ⟨high, hhigh⟩ := exists_reduce (hreducible .greatest) (by decide) (by decide)
  have hmean := reduces_average_iff.mp (reduces_of_reduce hsome hn)
  have hleast := reduces_least_iff.mp (reduces_of_reduce hsome hlow)
  have hgreatest := reduces_greatest_iff.mp (reduces_of_reduce hsome hhigh)
  have hquotient : (total / Int64.ofNat ns.length).toInt = n.toInt := by
    have hfits : ∀ m ∈ ns.map Int32.toInt, FitsInt32 m := by
      rw [← ints_map_int]
      exact fun _ => fits_of_mem_ints
    have := (toInt_quotient (mt List.map_eq_nil_iff.mp hne) hfits (by rwa [List.length_map]) hsum).1
    rwa [List.length_map, ← hmean] at this
  obtain ⟨hbelow, habove⟩ := le_mean_le hne hleast hgreatest hmean
  refine ⟨fun front hfront => exists_total (Nat.lt_of_le_of_lt hfront.length_le hlength),
    total, n, htotal, ?_, hn, hquotient.symm, ?_, low, high, hlow, hleast, hhigh, hgreatest,
    hbelow, habove⟩
  · rw [averageInWords_eq hsome hfew, hn]
  · rw [hmean, truncate_div _ (List.length_pos_iff.mpr hne)]

/-- A total that 32 bits do not hold, and a mean below zero, which is cut toward zero. -/
theorem average_exact_negative :
    let ns : List Int32 := [-2147483648, -2147483648, -3]
    ns ≠ [] ∧ ns.length < 4294967296 ∧ totalFrom 0 (ns.map .int) = .ok (-4294967299) ∧
      averageInWords (ns.map .int) = .ok (-1431655766) ∧
      truncate (((ns.map Int32.toInt).sum : Int) / ns.length) = -1431655766 ∧
      (-2147483648 : Int32) ≤ -1431655766 ∧ (-1431655766 : Int32) ≤ -3 := by
  intro ns
  obtain ⟨-, total, n, htotal, hwords, -, -, hmean, low, high, hlow, -, hhigh, -, hbelow, habove⟩ :=
    average_exact (show ns ≠ [] by decide) (by decide)
  obtain rfl : n = -1431655766 := Except.ok.inj (hwords.symm.trans (by decide +kernel))
  obtain rfl : low = -2147483648 := Except.ok.inj (hlow.symm.trans (by decide +kernel))
  obtain rfl : high = -3 := Except.ok.inj (hhigh.symm.trans (by decide +kernel))
  exact ⟨by decide, by decide, by decide +kernel, hwords, hmean.symm, hbelow, habove⟩

end Ints

end Aggregate

end RowStore
