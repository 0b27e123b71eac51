import RowStore.Proofs.Histogram.Estimates

/-!
# RowStore.Proofs.Histogram.Averages: averages without a loop over the range

Within a bucket the estimates are an arithmetic series, so their sum is known from the bucket alone
(`Partitioned.sum_less_of_bucket`).  `Histogram.sumBuckets` adds these sums bucket by bucket, and as
the buckets divide the range it ends with the sums over every integer of it
(`Tallied.rangeSums_eq`), also at the ends of the range, where the estimates are given separately.
The counts it subtracts on the way are parts of the total (`Tallied.rangeSums?_eq`).
-/

namespace RowStore.Histogram

variable {α : Type} {h : Histogram ℚ} {b : Nat}

/-! ## Sums over intervals -/

theorem sum_Ico_append {low mid high : Int} (hlow : low ≤ mid) (hhigh : mid ≤ high) (f : Int → ℚ) :
    ∑ u ∈ Finset.Ico low mid, f u + ∑ u ∈ Finset.Ico mid high, f u =
      ∑ u ∈ Finset.Ico low high, f u := by
  rw [← Finset.Ico_union_Ico_eq_Ico hlow hhigh,
    Finset.sum_union (Finset.Ico_disjoint_Ico_consecutive low mid high)]

/-- The sum of an arithmetic series. -/
theorem sum_series {low high : Int} (hle : low ≤ high) (step first : ℚ) :
    ∑ u ∈ Finset.Ico low high, (step * (u - low) + first) =
      step * (high - low) * (high - low - 1) / 2 + (high - low) * first := by
  induction high, hle using Int.leInduction with
  | base => simp
  | succ high hle ih =>
    rw [← Finset.sum_Ico_add_eq_sum_Ico_add_one hle, ih]
    push_cast
    ring

/-! ## Sums over a bucket -/

namespace Partitioned

theorem owns_of_mem (hb : b < h.buckets) {u : Int}
    (hu : u ∈ Finset.Ico (h.border b) (h.border (b + 1))) : h.Owns b u :=
  ⟨hb, Finset.mem_Ico.mp hu⟩

theorem sum_equal_of_bucket (hp : h.Partitioned) (hb : b < h.buckets) :
    ∑ u ∈ Finset.Ico (h.border b) (h.border (b + 1)), h.equal u = h.count b / h.total := by
  have hcard : ((h.border (b + 1) - h.border b).toNat : ℚ) = h.border (b + 1) - h.border b := by
    have hlt := hp.ascending b hb
    exact_mod_cast Int.toNat_of_nonneg (by omega)
  rw [Finset.sum_congr rfl fun u hu => hp.equal_eq (owns_of_mem hb hu), Finset.sum_const,
    Int.card_Ico, nsmul_eq_mul, hcard, mul_comm, hp.density_mul hb]

theorem sum_less_of_bucket (hp : h.Partitioned) (hb : b < h.buckets) :
    ∑ u ∈ Finset.Ico (h.border b) (h.border (b + 1)), h.less u =
      h.count b * (h.border (b + 1) - h.border b - 1) / 2 / h.total +
        (h.border (b + 1) - h.border b) * h.below b / h.total := by
  rw [Finset.sum_congr rfl fun u hu => hp.less_eq_of_owns (owns_of_mem hb hu),
    sum_series (Int.le_of_lt (hp.ascending b hb)), hp.density_mul hb]
  ring

theorem sum_greater_of_bucket (hp : h.Partitioned) (hb : b < h.buckets) :
    ∑ u ∈ Finset.Ico (h.border b) (h.border (b + 1)), h.greater u =
      h.count b * (h.border (b + 1) - h.border b - 1) / 2 / h.total +
        (h.border (b + 1) - h.border b) * h.above (b + 1) / h.total := by
  -- the series falls by the density
  have hstep : ∀ u ∈ Finset.Ico (h.border b) (h.border (b + 1)), h.greater u =
      -h.density b * (u - h.border b) +
        (h.density b * (h.border (b + 1) - h.border b - 1) + h.above (b + 1) / h.total) := by
    intro u hu
    rw [hp.greater_eq_of_owns (owns_of_mem hb hu)]
    ring
  rw [Finset.sum_congr rfl hstep, sum_series (Int.le_of_lt (hp.ascending b hb))]
  calc _ = h.density b * (h.border (b + 1) - h.border b) * (h.border (b + 1) - h.border b - 1) / 2 +
        (h.border (b + 1) - h.border b) * h.above (b + 1) / h.total := by ring
    _ = _ := by
      rw [hp.density_mul hb]
      ring

end Partitioned

/-! ## Bucket by bucket -/

/-- The sums with those of the estimates from a border to the end of the range. -/
noncomputable def RangeSums.addFrom (sums : RangeSums ℚ) (h : Histogram ℚ) (b : Nat) :
    RangeSums ℚ where
  equal := sums.equal + ∑ u ∈ Finset.Ico (h.border b) (h.max + 1), h.equal u
  greater := sums.greater + ∑ u ∈ Finset.Ico (h.border b) (h.max + 1), h.greater u
  less := sums.less + ∑ u ∈ Finset.Ico (h.border b) (h.max + 1), h.less u

@[simp] theorem sumBuckets_nil [Arithmetic α] (h : Histogram α) (counts : List Nat)
    (below above : Nat) (sums : RangeSums α) : h.sumBuckets [] counts below above sums = sums := by
  cases counts <;> rfl

theorem drop_starts (hp : h.Partitioned) (hb : b < h.buckets) :
    h.starts.drop b = h.border b :: h.starts.drop (b + 1) := by
  have hstart : b < h.starts.length := hp.length ▸ hb
  rw [List.drop_eq_getElem_cons hstart, border_eq_getElem hstart]

theorem drop_counts (hb : b < h.buckets) :
    h.counts.drop b = h.count b :: h.counts.drop (b + 1) := by
  have hcount : b < h.counts.length := hb
  rw [List.drop_eq_getElem_cons hcount, count, List.getD_eq_getElem?_getD,
    List.getElem?_eq_getElem hcount]
  rfl

theorem above_eq (hb : b < h.buckets) : h.above b = h.count b + h.above (b + 1) := by
  rw [above, drop_counts hb, List.sum_cons, ← above]

theorem headD_drop_starts (h : Histogram ℚ) (b : Nat) :
    (h.starts.drop b).headD (h.max + 1) = h.border b := by
  rw [List.headD_eq_head?_getD, List.head?_drop, border, List.getD_eq_getElem?_getD]

/-- The buckets from one on add the sums from its border on. -/
theorem Tallied.sumBuckets_drop (ht : h.Tallied) (hb : b ≤ h.buckets) (sums : RangeSums ℚ) :
    h.sumBuckets (h.starts.drop b) (h.counts.drop b) (h.below b) (h.above b) sums =
      sums.addFrom h b := by
  induction hb using Nat.decreasingInduction generalizing sums with
  | self =>
    rw [List.drop_of_length_le ht.length.le, sumBuckets_nil, RangeSums.addFrom, ht.border_buckets,
      Finset.Ico_self]
    simp
  | of_succ b hb ih =>
    have hnext : h.border b ≤ h.border (b + 1) := Int.le_of_lt (ht.ascending b hb)
    have hend : h.border (b + 1) ≤ h.max + 1 := ht.border_le_max hb
    rw [drop_starts ht.toPartitioned hb, drop_counts hb, sumBuckets, headD_drop_starts,
      ← below_succ hb, above_eq hb, Nat.add_sub_cancel_left, ih]
    simp only [RangeSums.addFrom, ← sum_Ico_append hnext hend, ht.sum_equal_of_bucket hb,
      ht.sum_greater_of_bucket hb, ht.sum_less_of_bucket hb, ofInt_rat, RangeSums.mk.injEq]
    push_cast
    refine ⟨?_, ?_, ?_⟩ <;> ring

/-- Of no values, none is estimated to be equal to an integer, and none to be on either side of an
integer of the range. -/
theorem estimates_of_total_eq_zero (htotal : h.total = 0) (u : Int) :
    h.equal u = 0 ∧ (h.min ≤ u → h.greater u = 0) ∧ h.less u = 0 := by
  refine ⟨?_, fun hlow => ?_, ?_⟩
  · rw [equal, if_pos (by tauto)]
    rfl
  · rw [greater, if_neg (by omega), if_pos (by tauto)]
    rfl
  · rw [less, if_pos (by tauto)]
    rfl

/-- The sums are those of the estimates for the integers of the range. -/
theorem Tallied.rangeSums_eq (ht : h.Tallied) :
    h.rangeSums = ⟨∑ u ∈ Finset.Icc h.min h.max, h.equal u,
      ∑ u ∈ Finset.Icc h.min h.max, h.greater u, ∑ u ∈ Finset.Icc h.min h.max, h.less u⟩ := by
  have hrange : Finset.Icc h.min h.max = Finset.Ico (h.border 0) (h.max + 1) := by
    rw [ht.first, Finset.Ico_add_one_right_eq_Icc]
  have habove : h.above 0 = h.total := by
    have hsum := h.below_add_above 0
    rw [below_zero, ht.below_buckets] at hsum
    omega
  unfold rangeSums
  split_ifs with hnone
  · have hzero := estimates_of_total_eq_zero hnone
    rw [Finset.sum_eq_zero fun u _ => (hzero u).1,
      Finset.sum_eq_zero fun u hu => (hzero u).2.1 (Finset.mem_Icc.mp hu).1,
      Finset.sum_eq_zero fun u _ => (hzero u).2.2]
    rfl
  · have hsums := ht.sumBuckets_drop (Nat.zero_le h.buckets) ⟨ofInt 0, ofInt 0, ofInt 0⟩
    rw [List.drop_zero, List.drop_zero, below_zero, habove] at hsums
    rw [hsums, RangeSums.addFrom, hrange]
    simp

/-- The average is the sum of the estimates for the integers of the range, divided by the number of
buckets that was asked for. -/
theorem Tallied.averageSelectivity_eq (ht : h.Tallied) (op : Comparison) :
    h.averageSelectivity op =
      (∑ v ∈ Finset.Icc h.min h.max, h.selectivity op v) / h.requested := by
  have hcard : ((Finset.Icc h.min h.max).card : ℚ) = h.max - h.min + 1 := by
    have hrange := ht.min_le_max
    rw [Int.card_Icc]
    exact_mod_cast (by omega : ((h.max + 1 - h.min).toNat : Int) = h.max - h.min + 1)
  have hrequested : (ofInt h.requested : ℚ) = h.requested := Int.cast_natCast _
  simp only [averageSelectivity, ht.rangeSums_eq, hrequested]
  congr 1
  cases op with
  | equal | greater | less => rfl
  | greaterOrEqual | lessOrEqual => simp only [selectivity, Finset.sum_add_distrib]
  | notEqual =>
    simp only [selectivity, Finset.sum_sub_distrib, Finset.sum_const, hcard, nsmul_eq_mul,
      ofInt_rat]
    push_cast
    ring

/-! ## Subtracting the counts -/

section

variable [Arithmetic α]

/-- The sums as `sumBuckets` adds them, but none once a count is greater than what is left to
subtract it from. -/
def sumBuckets? (h : Histogram α) :
    (starts : List Int) → (counts : List Nat) → (below above : Nat) → RangeSums α →
      Option (RangeSums α)
  | start :: starts, count :: counts, below, above, sums =>
    if above < count then none
    else
      h.sumBuckets? starts counts (below + count) (above - count)
        (h.sumBuckets (start :: starts) [count] below above sums)
  | _, _, _, _, sums => some sums

/-- `rangeSums` with checked subtraction. -/
def rangeSums? (h : Histogram α) : Option (RangeSums α) :=
  let zero : RangeSums α := ⟨ofInt 0, ofInt 0, ofInt 0⟩
  if h.total = 0 then some zero else h.sumBuckets? h.starts h.counts 0 h.total zero

theorem sumBuckets_cons (h : Histogram α) (start : Int) (starts : List Int) (count : Nat)
    (counts : List Nat) (below above : Nat) (sums : RangeSums α) :
    h.sumBuckets (start :: starts) (count :: counts) below above sums =
      h.sumBuckets starts counts (below + count) (above - count)
        (h.sumBuckets (start :: starts) [count] below above sums) := by
  cases starts <;> rfl

/-- Nothing is missing while the counts come to no more than what is left. -/
theorem sumBuckets?_eq (h : Histogram α) (starts : List Int) (counts : List Nat) (below above : Nat)
    (sums : RangeSums α) (hcounts : counts.sum ≤ above) :
    h.sumBuckets? starts counts below above sums =
      some (h.sumBuckets starts counts below above sums) := by
  induction counts generalizing starts below above sums with
  | nil => cases starts <;> rfl
  | cons count counts ih =>
    rw [List.sum_cons] at hcounts
    cases starts with
    | nil => rfl
    | cons start starts =>
      rw [sumBuckets?, if_neg (by omega), ih _ _ _ _ (by omega),
        h.sumBuckets_cons start starts count counts]

end

theorem Tallied.rangeSums?_eq (ht : h.Tallied) : h.rangeSums? = some h.rangeSums := by
  have hcounts : h.counts.sum = h.total := by
    rw [← ht.below_buckets, below, buckets, List.take_length]
  unfold rangeSums? rangeSums
  split_ifs
  · rfl
  · exact h.sumBuckets?_eq _ _ _ _ _ hcounts.le

/-- However a histogram was asked for and whatever was recorded in it, its averages are those of a
loop over all integers of its range, and the sums they are computed from never subtract more than is
left. -/
theorem ofValues_averageSelectivity {requested : Nat} {min max : Int} {values : List Int}
    (hrequested : 0 < requested) (hrange : min ≤ max) (hin : ∀ v ∈ values, min ≤ v ∧ v ≤ max) :
    ∃ h : Histogram ℚ, ofValues requested min max values = .ok h ∧
      (∀ op, h.averageSelectivity op =
        (∑ v ∈ Finset.Icc min max, h.selectivity op v) / requested) ∧
      h.rangeSums? = some h.rangeSums := by
  obtain ⟨h, hfilled, hr, rfl, rfl, rfl, -⟩ := exists_ofValues hrequested hrange hin
  have ht := hr.tallied
  exact ⟨h, hfilled, ht.averageSelectivity_eq, ht.rangeSums?_eq⟩

/-- Ten buckets are asked for, and the range has room for five. -/
theorem ofValues_averageSelectivity_five :
    ∃ h : Histogram ℚ, ofValues 10 (-2) 2 [-2, 0, 0, 2] = .ok h ∧
      h.averageSelectivity .less = (∑ v ∈ Finset.Icc (-2) 2, h.selectivity .less v) / (10 : Nat) ∧
      h.rangeSums? = some h.rangeSums := by
  obtain ⟨h, hfilled, haverage, hsums⟩ :=
    ofValues_averageSelectivity (by decide : 0 < 10) (by decide : (-2 : Int) ≤ 2)
      (by decide : ∀ v ∈ [(-2 : Int), 0, 0, 2], -2 ≤ v ∧ v ≤ 2)
  exact ⟨h, hfilled, haverage .less, hsums⟩

end RowStore.Histogram
