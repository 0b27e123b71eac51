import RowStore.Proofs.Histogram.Recording
import Mathlib

/-!
# RowStore.Proofs.Histogram.Estimates: estimates as a probability

In exact fractions `Histogram.less` is the sum of `Histogram.equal` over the integers that are less:
both grow by the same from one integer to the next (`Tallied.less_add_one`), also from one bucket to
the next and at the ends of the range.  The other estimates follow, so all six are those of one
probability over the integers of the range (`Distributes`).
-/

namespace RowStore

/-- Which integers satisfy a comparison. -/
theorem Comparison.holds_compare (op : Comparison) (u v : Int) :
    op.holds (compare u v) = match op with
      | .equal => decide (u = v)
      | .greater => decide (v < u)
      | .less => decide (u < v)
      | .lessOrEqual => decide (u ≤ v)
      | .greaterOrEqual => decide (v ≤ u)
      | .notEqual => decide (u ≠ v) := by
  rcases lt_trichotomy u v with hlt | rfl | hgt
  · rw [compare_lt_iff_lt.mpr hlt]
    cases op <;> simp [holds, hlt.le, hlt.ne, hlt, hlt.not_gt, hlt.not_ge]
  · rw [compare_eq_iff_eq.mpr rfl]
    cases op <;> simp [holds]
  · rw [compare_gt_iff_gt.mpr hgt]
    cases op <;> simp [holds, hgt.le, hgt.ne', hgt, hgt.not_gt, hgt.not_ge]

/-- The estimates are those of a probability that is spread over the integers from `least` to
`greatest`: what is estimated for a comparison is the sum over the integers that satisfy it. -/
structure Distributes (least greatest : Int) (estimate : Comparison → Int → ℚ) : Prop where
  nonneg : ∀ u, 0 ≤ estimate .equal u
  outside : ∀ u, u < least ∨ greatest < u → estimate .equal u = 0
  whole : ∑ u ∈ Finset.Icc least greatest, estimate .equal u = 1
  adds : ∀ op v, estimate op v =
    ∑ u ∈ Finset.Icc least greatest with op.holds (compare u v) = true, estimate .equal u

namespace Distributes

variable {least greatest u v : Int} {estimate : Comparison → Int → ℚ} {op op' : Comparison}

/-- A comparison that fewer integers satisfy is not estimated higher. -/
theorem estimate_le_estimate (hd : Distributes least greatest estimate)
    (hfewer : ∀ x : Int, op.holds (compare x u) = true → op'.holds (compare x v) = true) :
    estimate op u ≤ estimate op' v := by
  rw [hd.adds op, hd.adds op']
  refine Finset.sum_le_sum_of_subset_of_nonneg ?_ fun x _ _ => hd.nonneg x
  intro x hx
  obtain ⟨hrange, hholds⟩ := Finset.mem_filter.mp hx
  exact Finset.mem_filter.mpr ⟨hrange, hfewer x hholds⟩

theorem estimate_nonneg (hd : Distributes least greatest estimate) (op : Comparison) (v : Int) :
    0 ≤ estimate op v := by
  rw [hd.adds]
  exact Finset.sum_nonneg fun u _ => hd.nonneg u

theorem estimate_le_one (hd : Distributes least greatest estimate) (op : Comparison) (v : Int) :
    estimate op v ≤ 1 := by
  rw [hd.adds, ← hd.whole]
  exact Finset.sum_le_sum_of_subset_of_nonneg (Finset.filter_subset _ _) fun u _ _ => hd.nonneg u

theorem less_add_equal_add_greater (hd : Distributes least greatest estimate) (v : Int) :
    estimate .less v + estimate .equal v + estimate .greater v = 1 := by
  have hone : ∀ u : Int, ((if u < v then estimate .equal u else 0) +
      if u = v then estimate .equal u else 0) + (if v < u then estimate .equal u else 0) =
        estimate .equal u := by
    intro u
    rcases lt_trichotomy u v with hlt | rfl | hgt
    · simp [hlt, hlt.ne, hlt.not_gt]
    · simp
    · simp [hgt, hgt.ne', hgt.not_gt]
  rw [hd.adds .less, hd.adds .equal, hd.adds .greater]
  simp only [Comparison.holds_compare, decide_eq_true_eq, Finset.sum_filter]
  rw [← Finset.sum_add_distrib, ← Finset.sum_add_distrib, Finset.sum_congr rfl fun u _ => hone u,
    hd.whole]

theorem monotone_less (hd : Distributes least greatest estimate) : Monotone (estimate .less) := by
  intro u v huv
  refine hd.estimate_le_estimate fun x => ?_
  simp only [Comparison.holds_compare, decide_eq_true_eq]
  omega

theorem monotone_lessOrEqual (hd : Distributes least greatest estimate) :
    Monotone (estimate .lessOrEqual) := by
  intro u v huv
  refine hd.estimate_le_estimate fun x => ?_
  simp only [Comparison.holds_compare, decide_eq_true_eq]
  omega

theorem antitone_greater (hd : Distributes least greatest estimate) :
    Antitone (estimate .greater) := by
  intro u v huv
  refine hd.estimate_le_estimate fun x => ?_
  simp only [Comparison.holds_compare, decide_eq_true_eq]
  omega

theorem antitone_greaterOrEqual (hd : Distributes least greatest estimate) :
    Antitone (estimate .greaterOrEqual) := by
  intro u v huv
  refine hd.estimate_le_estimate fun x => ?_
  simp only [Comparison.holds_compare, decide_eq_true_eq]
  omega

end Distributes

namespace Histogram

variable {h : Histogram ℚ} {b : Nat} {v : Int}

/-! ## Estimates outside the range -/

theorem equal_of_outside (hv : v < h.min ∨ h.max < v) : h.equal v = 0 := by
  unfold equal
  rw [if_pos (by tauto)]
  rfl

theorem less_of_le_min (hv : v ≤ h.min) : h.less v = 0 := by
  unfold less
  rw [if_pos (by tauto)]
  rfl

theorem greater_of_lt_min (hv : v < h.min) : h.greater v = 1 := by
  unfold greater
  rw [if_pos hv]
  rfl

namespace Partitioned

theorem min_le_max (hp : h.Partitioned) : h.min ≤ h.max := by
  have hfirst : h.border 0 < h.border 1 := hp.ascending 0 hp.pos
  have hlast : h.border 1 ≤ h.max + 1 := hp.border_le_max hp.pos
  rw [hp.first] at hfirst
  omega

theorem less_of_max_lt (hp : h.Partitioned) (htotal : 0 < h.total) (hv : h.max < v) :
    h.less v = 1 := by
  have hrange := hp.min_le_max
  unfold less
  rw [if_neg (by omega), if_pos hv]
  rfl

theorem greater_of_max_lt (hp : h.Partitioned) (hv : h.max < v) : h.greater v = 0 := by
  have hrange := hp.min_le_max
  unfold greater
  rw [if_neg (by omega), if_pos (by omega)]
  rfl

end Partitioned

/-! ## Estimates within a bucket -/

theorem density_eq (h : Histogram ℚ) (b : Nat) :
    h.density b = h.count b / h.distinct b / h.total := by
  show ((h.count b : Int) : ℚ) / (h.distinct b : ℚ) / ((h.total : Int) : ℚ) = _
  simp

theorem density_of_total_eq_zero (htotal : h.total = 0) (b : Nat) : h.density b = 0 := by
  simp [density_eq, htotal]

namespace Partitioned

theorem distinct_pos (hp : h.Partitioned) (hb : b < h.buckets) :
    (0 : ℚ) < h.border (b + 1) - h.border b := by
  have hlt := hp.ascending b hb
  exact_mod_cast Int.sub_pos.mpr hlt

/-- The integers of a bucket share what is counted in it. -/
theorem density_mul (hp : h.Partitioned) (hb : b < h.buckets) :
    h.density b * (h.border (b + 1) - h.border b) = h.count b / h.total := by
  have hne := (hp.distinct_pos hb).ne'
  rw [density_eq, hp.distinct_eq hb]
  push_cast
  rw [div_right_comm, div_mul_cancel₀ _ hne]

theorem density_nonneg (hp : h.Partitioned) (hb : b < h.buckets) : 0 ≤ h.density b := by
  rw [density_eq, hp.distinct_eq hb]
  have hpos := hp.distinct_pos hb
  push_cast
  positivity

theorem equal_eq (hp : h.Partitioned) (ho : h.Owns b v) : h.equal v = h.density b := by
  obtain ⟨hlow, hhigh⟩ := hp.inRange ho
  unfold equal
  split_ifs with hnone
  · have htotal : h.total = 0 := by omega
    rw [density_of_total_eq_zero htotal]
    rfl
  · rw [(hp.bucket_eq_iff hlow hhigh).mpr ho]

theorem less_eq_of_owns (hp : h.Partitioned) (ho : h.Owns b v) :
    h.less v = h.density b * (v - h.border b) + h.below b / h.total := by
  obtain ⟨hlow, hhigh⟩ := hp.inRange ho
  unfold less
  split_ifs with hnone hbehind
  · rcases hnone with hfirst | htotal
    · -- the least integer is the first of the first bucket
      obtain rfl : v = h.min := by omega
      have hfirst : h.Owns 0 h.min := ⟨hp.pos, hp.first.le, hp.first ▸ hp.ascending 0 hp.pos⟩
      obtain rfl := hp.owner_unique ho hfirst
      rw [hp.first, below_zero]
      simp
    · simp [density_of_total_eq_zero htotal, htotal]
  · omega
  · have hbucket := (hp.bucket_eq_iff hlow hhigh).mpr ho
    simp only [hbucket, hp.bucketMin_eq ho.1, ← List.sum_eq_foldr, ofInt_rat, Int.cast_sub,
      Int.cast_natCast]
    rfl

theorem greater_eq_of_owns (hp : h.Partitioned) (ho : h.Owns b v) :
    h.greater v = h.density b * (h.border (b + 1) - 1 - v) + h.above (b + 1) / h.total := by
  obtain ⟨hlow, hhigh⟩ := hp.inRange ho
  unfold greater
  split_ifs with hbefore hnone
  · omega
  · rcases hnone with hlast | htotal
    · -- the greatest integer is the last of the last bucket
      obtain rfl : v = h.max := by omega
      have hlast : b + 1 = h.buckets := by
        by_contra hne
        have hb := ho.1
        have hnext : h.border (b + 1) < h.border (b + 2) := hp.ascending (b + 1) (by omega)
        have hend : h.border (b + 2) ≤ h.max + 1 := hp.border_le_max (by omega)
        have hhigh := ho.2.2
        omega
      rw [hlast, hp.border_buckets, above, buckets, List.drop_length]
      simp
    · simp [density_of_total_eq_zero htotal, htotal]
  · have hbucket := (hp.bucket_eq_iff hlow hhigh).mpr ho
    simp only [hbucket, bucketMax_eq, ← List.sum_eq_foldr, ofInt_rat, Int.cast_sub, Int.cast_one,
      Int.cast_natCast]
    rfl

end Partitioned

/-! ## From one integer to the next -/

namespace Tallied

/-- At a border nothing is estimated: what is less are the values in the buckets before it. -/
theorem less_border (ht : h.Tallied) (htotal : 0 < h.total) (hb : b ≤ h.buckets) :
    h.less (h.border b) = h.below b / h.total := by
  rcases Nat.lt_or_eq_of_le hb with hinside | rfl
  · have hown : h.Owns b (h.border b) := ⟨hinside, Int.le_refl _, ht.ascending b hinside⟩
    rw [ht.less_eq_of_owns hown, sub_self, mul_zero, zero_add]
  · have hne : (h.total : ℚ) ≠ 0 := by exact_mod_cast htotal.ne'
    rw [ht.border_buckets, ht.below_buckets, div_self hne, ht.less_of_max_lt htotal (Int.lt_succ _)]

/-- What is estimated to be less than an integer of a bucket, or than the first behind it. -/
theorem less_eq (ht : h.Tallied) (htotal : 0 < h.total) (hb : b < h.buckets)
    (hlow : h.border b ≤ v) (hhigh : v ≤ h.border (b + 1)) :
    h.less v = h.density b * (v - h.border b) + h.below b / h.total := by
  rcases Int.lt_or_eq_of_le hhigh with hinside | rfl
  · exact ht.less_eq_of_owns ⟨hb, hlow, hinside⟩
  · rw [ht.less_border htotal hb, ht.density_mul hb, below_succ hb, ← add_div, Nat.cast_add,
      add_comm]

/-- From one integer to the next `less` grows by the estimate for that integer. -/
theorem less_add_one (ht : h.Tallied) (htotal : 0 < h.total) (v : Int) :
    h.less (v + 1) = h.less v + h.equal v := by
  rcases lt_or_ge v h.min with hbefore | hlow
  · rw [less_of_le_min (by omega), less_of_le_min (by omega), equal_of_outside (.inl hbefore),
      add_zero]
  rcases lt_or_ge h.max v with hbehind | hhigh
  · rw [ht.less_of_max_lt htotal (by omega), ht.less_of_max_lt htotal hbehind,
      equal_of_outside (.inr hbehind), add_zero]
  obtain ⟨hb, hborder, hnext⟩ := ht.owns_bucket hlow hhigh
  rw [ht.less_eq htotal hb (by omega) (by omega), ht.less_eq htotal hb hborder (by omega),
    ht.equal_eq ⟨hb, hborder, hnext⟩]
  push_cast
  ring

/-- What is not less and not equal is greater. -/
theorem greater_eq (ht : h.Tallied) (htotal : 0 < h.total) (v : Int) :
    h.greater v = 1 - h.less (v + 1) := by
  rcases lt_or_ge v h.min with hbefore | hlow
  · rw [greater_of_lt_min hbefore, less_of_le_min (by omega), sub_zero]
  rcases lt_or_ge h.max v with hbehind | hhigh
  · rw [ht.greater_of_max_lt hbehind, ht.less_of_max_lt htotal (by omega), sub_self]
  obtain ⟨b, hown⟩ : ∃ b, h.Owns b v := ⟨_, ht.owns_bucket hlow hhigh⟩
  have ⟨hb, hborder, hnext⟩ := hown
  have hne : (h.total : ℚ) ≠ 0 := by exact_mod_cast htotal.ne'
  have hshare := ht.density_mul hb
  have hcounts : (h.below b + h.count b + h.above (b + 1) : ℚ) = h.total := by
    exact_mod_cast below_succ hb ▸ ht.below_buckets ▸ h.below_add_above (b + 1)
  rw [ht.greater_eq_of_owns hown, ht.less_eq htotal hb (by omega) (by omega)]
  push_cast
  calc h.density b * (h.border (b + 1) - 1 - v) + h.above (b + 1) / h.total
      = h.density b * (h.border (b + 1) - h.border b) -
          h.density b * (v + 1 - h.border b) + h.above (b + 1) / h.total := by ring
    _ = (h.below b + h.count b + h.above (b + 1)) / h.total -
          (h.density b * (v + 1 - h.border b) + h.below b / h.total) := by rw [hshare]; ring
    _ = 1 - (h.density b * (v + 1 - h.border b) + h.below b / h.total) := by
        rw [hcounts, div_self hne]

/-! ## The sums over the range -/

theorem sum_equal (ht : h.Tallied) (htotal : 0 < h.total) {low high : Int} (hle : low ≤ high) :
    ∑ u ∈ Finset.Ico low high, h.equal u = h.less high - h.less low := by
  induction high, hle using Int.leInduction with
  | base => simp
  | succ high hle ih =>
    rw [← Finset.sum_Ico_add_eq_sum_Ico_add_one hle, ih, ht.less_add_one htotal]
    ring

theorem sum_of_lt (ht : h.Tallied) (htotal : 0 < h.total) (v : Int) :
    ∑ u ∈ Finset.Icc h.min h.max with u < v, h.equal u = h.less v := by
  rcases lt_or_ge v h.min with hbefore | hlow
  · rw [less_of_le_min (by omega), Finset.filter_false_of_mem, Finset.sum_empty]
    intro u hu
    have hmin := (Finset.mem_Icc.mp hu).1
    omega
  rw [← sub_zero (h.less v), ← less_of_le_min (Int.le_refl h.min), ← ht.sum_equal htotal hlow]
  -- the integers behind the range add nothing
  refine Finset.sum_subset (fun u hu => ?_) fun u hu hrange => ?_
  · simp only [Finset.mem_filter, Finset.mem_Icc] at hu
    exact Finset.mem_Ico.mpr ⟨hu.1.1, hu.2⟩
  · simp only [Finset.mem_filter, Finset.mem_Icc, Finset.mem_Ico] at hu hrange
    exact equal_of_outside (.inr (by omega))

theorem sum_whole (ht : h.Tallied) (htotal : 0 < h.total) :
    ∑ u ∈ Finset.Icc h.min h.max, h.equal u = 1 := by
  rw [← ht.less_of_max_lt htotal (Int.lt_succ h.max), ← ht.sum_of_lt htotal,
    Finset.filter_true_of_mem]
  intro u hu
  exact Int.lt_add_one_of_le (Finset.mem_Icc.mp hu).2

theorem sum_of_ge (ht : h.Tallied) (htotal : 0 < h.total) (v : Int) :
    ∑ u ∈ Finset.Icc h.min h.max with v ≤ u, h.equal u = 1 - h.less v := by
  rw [← ht.sum_whole htotal, ← ht.sum_of_lt htotal,
    ← Finset.sum_filter_add_sum_filter_not (Finset.Icc h.min h.max) (· < v)]
  simp only [Int.not_lt]
  ring

theorem sum_of_eq (h : Histogram ℚ) (v : Int) :
    ∑ u ∈ Finset.Icc h.min h.max with u = v, h.equal u = h.equal v := by
  rw [Finset.filter_eq']
  split_ifs with hv
  · rw [Finset.sum_singleton]
  · rw [Finset.sum_empty, equal_of_outside (by rw [Finset.mem_Icc] at hv; omega)]

/-- The estimates are those of one probability. -/
theorem distributes (ht : h.Tallied) (htotal : 0 < h.total) :
    Distributes h.min h.max h.selectivity where
  nonneg u := by
    show 0 ≤ h.equal u
    rcases lt_or_ge u h.min with hbefore | hlow
    · exact (equal_of_outside (.inl hbefore)).ge
    rcases lt_or_ge h.max u with hbehind | hhigh
    · exact (equal_of_outside (.inr hbehind)).ge
    have hown := ht.owns_bucket hlow hhigh
    rw [ht.equal_eq hown]
    exact ht.density_nonneg hown.1
  outside _ := equal_of_outside
  whole := ht.sum_whole htotal
  adds op v := by
    show _ = ∑ u ∈ Finset.Icc h.min h.max with op.holds (compare u v) = true, h.equal u
    simp only [Comparison.holds_compare]
    cases op <;> simp only [selectivity, decide_eq_true_eq, ofInt_rat, Int.cast_one]
    case equal => exact (sum_of_eq h v).symm
    case notEqual =>
      rw [← ht.sum_whole htotal, ← sum_of_eq h v,
        ← Finset.sum_filter_add_sum_filter_not (Finset.Icc h.min h.max) (· = v)]
      ring
    case greater =>
      simp only [ht.greater_eq htotal, ← ht.sum_of_ge htotal, Int.add_one_le_iff]
    case greaterOrEqual =>
      rw [ht.sum_of_ge htotal, ht.greater_eq htotal, ht.less_add_one htotal]
      ring
    case less => exact (ht.sum_of_lt htotal v).symm
    case lessOrEqual =>
      rw [add_comm, ← ht.less_add_one htotal, ← ht.sum_of_lt htotal]
      simp only [Int.lt_add_one_iff]

end Tallied

/-- The estimates of a histogram that was filled with values of its range are those of one
probability over the range.  So none is below zero or above one, the three comparisons that exclude
each other come to one, and a comparison with a greater integer is estimated higher or lower the way
it is satisfied by more integers or by fewer. -/
theorem ofValues_distributes {requested : Nat} {min max : Int} {values : List Int}
    (hrequested : 0 < requested) (hrange : min ≤ max) (hvalues : values ≠ [])
    (hin : ∀ v ∈ values, min ≤ v ∧ v ≤ max) :
    ∃ h : Histogram ℚ, ofValues requested min max values = .ok h ∧
      Distributes min max h.selectivity ∧
      (∀ op v, 0 ≤ h.selectivity op v ∧ h.selectivity op v ≤ 1) ∧
      (∀ v, h.selectivity .less v + h.selectivity .equal v + h.selectivity .greater v = 1) ∧
      Monotone (h.selectivity .less) ∧ Monotone (h.selectivity .lessOrEqual) ∧
      Antitone (h.selectivity .greater) ∧ Antitone (h.selectivity .greaterOrEqual) := by
  obtain ⟨h, hfilled, hr, rfl, rfl, -, -⟩ := exists_ofValues hrequested hrange hin
  have htotal : 0 < h.total := by
    rw [hr.total]
    exact List.length_pos_iff.mpr hvalues
  have hd := hr.tallied.distributes htotal
  exact ⟨h, hfilled, hd, fun op v => ⟨hd.estimate_nonneg op v, hd.estimate_le_one op v⟩,
    hd.less_add_equal_add_greater, hd.monotone_less, hd.monotone_lessOrEqual, hd.antitone_greater,
    hd.antitone_greaterOrEqual⟩

/-- Six buckets for the integers from -10 to 30: the last is closed at 30, which is recorded. -/
theorem ofValues_distributes_six :
    ∃ h : Histogram ℚ, ofValues 6 (-10) 30 [-10, 3, 3, 4, 12, 30] = .ok h ∧
      Distributes (-10) 30 h.selectivity ∧
      h.selectivity .less 30 + h.selectivity .equal 30 + h.selectivity .greater 30 = 1 := by
  obtain ⟨h, hfilled, hd, -, hparts, -⟩ :=
    ofValues_distributes (by decide : 0 < 6) (by decide : (-10 : Int) ≤ 30)
      (by decide : [(-10 : Int), 3, 3, 4, 12, 30] ≠ []) (by decide)
  exact ⟨h, hfilled, hd, hparts 30⟩

end Histogram

end RowStore
