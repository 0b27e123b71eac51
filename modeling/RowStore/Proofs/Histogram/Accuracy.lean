import RowStore.Proofs.Histogram.Estimates

/-!
# RowStore.Proofs.Histogram.Accuracy: estimates and the values that were recorded

A histogram does not keep the values it counts, but at a border of its buckets the estimate for `<`
is exact (`Records.less_border_eq`).  Between two borders the estimate and the true fraction both
rise from the one to the other, so they differ by no more than the fraction of the bucket
(`Records.abs_selectivity_sub_le`).  All six comparisons with an integer follow from `<` with it and
`<` with the next (`Comparison.share`), so the bound holds for each of them, and where the bucket has
a single integer all are exact.
-/

namespace RowStore

/-- The fraction that satisfies a comparison with an integer, from the fraction that is less and the
fraction that is less than the next integer. -/
def Comparison.share (op : Comparison) (less lessNext : ℚ) : ℚ :=
  match op with
  | .equal => lessNext - less
  | .notEqual => 1 - (lessNext - less)
  | .greater => 1 - lessNext
  | .greaterOrEqual => 1 - less
  | .less => less
  | .lessOrEqual => lessNext

/-- Two such fractions differ by at most the width of an interval that all they come from lies in. -/
theorem Comparison.abs_share_sub_share_le {low high less lessNext less' lessNext' : ℚ}
    (op : Comparison) (hlow : low ≤ less) (hmid : less ≤ lessNext) (hhigh : lessNext ≤ high)
    (hlow' : low ≤ less') (hmid' : less' ≤ lessNext') (hhigh' : lessNext' ≤ high) :
    |op.share less lessNext - op.share less' lessNext'| ≤ high - low := by
  rw [abs_le]
  cases op <;> simp only [share] <;> constructor <;> linarith

namespace Histogram

variable {h : Histogram ℚ} {b : Nat} {u v : Int} {values : List Int}

/-- The fraction of the values that satisfy a comparison. -/
def fraction (values : List Int) (op : Comparison) (v : Int) : ℚ :=
  values.countP (fun x => op.holds (compare x v)) / values.length

/-! ## What follows from `<` -/

theorem Tallied.selectivity_eq (ht : h.Tallied) (htotal : 0 < h.total) (op : Comparison) (v : Int) :
    h.selectivity op v = op.share (h.less v) (h.less (v + 1)) := by
  have hequal := ht.less_add_one htotal v
  have hgreater := ht.greater_eq htotal v
  have hone : (ofInt 1 : ℚ) = 1 := rfl
  cases op <;> simp only [selectivity, Comparison.share, hone] <;> linarith

theorem fraction_less (values : List Int) (v : Int) :
    fraction values .less v = values.countP (· < v) / values.length := by
  simp only [fraction, Comparison.holds_compare]

/-- The values that are less than the next integer are those that are less and those that are
equal. -/
theorem countP_lt_add_one (values : List Int) (v : Int) :
    values.countP (· < v + 1) = values.countP (· < v) + values.countP (· = v) := by
  rw [← countP_lt_add (by omega : v ≤ v + 1) values]
  congr 2
  ext x
  simp only [decide_eq_decide]
  omega

theorem countP_not (p : Int → Prop) [DecidablePred p] (values : List Int) :
    (values.countP (fun x => ¬p x) : ℚ) = values.length - values.countP (fun x => p x) := by
  rw [List.length_eq_countP_add_countP (fun x => decide (p x))]
  simp

theorem fraction_eq (hvalues : values ≠ []) (op : Comparison) (v : Int) :
    fraction values op v = op.share (fraction values .less v) (fraction values .less (v + 1)) := by
  have hlength : (values.length : ℚ) ≠ 0 := by
    exact_mod_cast (List.length_pos_iff.mpr hvalues).ne'
  have hnext : (values.countP (· < v + 1) : ℚ) =
      values.countP (· < v) + values.countP (· = v) := by
    exact_mod_cast countP_lt_add_one values v
  have hnotEqual := countP_not (· = v) values
  have hnotLess := countP_not (· < v) values
  have hnotLessNext := countP_not (· < v + 1) values
  simp only [Int.not_lt, Int.add_one_le_iff] at hnotLess hnotLessNext
  rw [fraction_less, fraction_less]
  simp only [fraction, Comparison.holds_compare]
  cases op <;> simp only [Comparison.share]
  case equal => rw [hnext]; ring
  case notEqual => rw [hnotEqual, hnext, sub_div, div_self hlength]; ring
  case greater => rw [hnotLessNext, sub_div, div_self hlength]
  case greaterOrEqual => rw [hnotLess, sub_div, div_self hlength]
  case lessOrEqual => simp only [Int.lt_add_one_iff]

theorem fraction_less_mono (values : List Int) : Monotone (fraction values .less) := by
  intro u v huv
  rw [fraction_less, fraction_less]
  have hcount : values.countP (· < u) ≤ values.countP (· < v) :=
    List.countP_mono_left fun x _ => by
      simp only [decide_eq_true_eq]
      omega
  gcongr

/-! ## At the borders and outside the range -/

namespace Records

/-- At a border the estimate for `<` is the true fraction. -/
theorem less_border_eq (hr : h.Records values) (hvalues : values ≠ []) (hb : b ≤ h.buckets) :
    h.less (h.border b) = fraction values .less (h.border b) := by
  have htotal : 0 < h.total := hr.total ▸ List.length_pos_iff.mpr hvalues
  rw [hr.tallied.less_border htotal hb, hr.below_eq hb, hr.total, fraction_less]

/-- The two fractions at the borders of a bucket differ by the fraction of the bucket. -/
theorem fraction_bucket (hr : h.Records values) (hb : b < h.buckets) :
    fraction values .less (h.border (b + 1)) - fraction values .less (h.border b) =
      h.count b / values.length := by
  rw [fraction_less, fraction_less, ← hr.below_eq hb, ← hr.below_eq (Nat.le_of_lt hb),
    below_succ hb]
  push_cast
  ring

/-- A bucket counts the values whose bucket it is. -/
theorem count_bucket (hr : h.Records values) (hlow : h.min ≤ v) (hhigh : v ≤ h.max) :
    values.countP (fun x => h.bucket x = h.bucket v) = h.count (h.bucket v) := by
  have hb := (hr.owns_bucket hlow hhigh).1
  rw [hr.count _ hb]
  refine List.countP_congr fun x hx => ?_
  obtain ⟨hxlow, hxhigh⟩ := hr.mem_range x hx
  simp only [decide_eq_true_eq]
  rw [hr.bucket_eq_iff hxlow hxhigh, Owns]
  exact and_iff_right hb

/-- Outside the range and one behind it the estimate for `<` is the true fraction. -/
theorem less_outside_eq (hr : h.Records values) (hvalues : values ≠ [])
    (hv : v ≤ h.min ∨ h.max < v) : h.less v = fraction values .less v := by
  have hpos : 0 < values.length := List.length_pos_iff.mpr hvalues
  rw [fraction_less]
  rcases hv with hbefore | hbehind
  · have hnone : values.countP (· < v) = 0 := by
      rw [List.countP_eq_zero]
      intro x hx
      have hmin := (hr.mem_range x hx).1
      simp only [decide_eq_true_eq]
      omega
    rw [less_of_le_min hbefore, hnone, Nat.cast_zero, zero_div]
  · have hall : values.countP (· < v) = values.length := by
      rw [List.countP_eq_length]
      intro x hx
      have hmax := (hr.mem_range x hx).2
      simp only [decide_eq_true_eq]
      omega
    have hlength : (values.length : ℚ) ≠ 0 := by exact_mod_cast hpos.ne'
    rw [hr.less_of_max_lt (hr.total ▸ hpos) hbehind, hall, div_self hlength]

/-! ## Estimates and true fractions -/

/-- The estimates are exact where those for `<` are, with the integer and with the next. -/
theorem selectivity_eq_fraction (hr : h.Records values) (hvalues : values ≠ [])
    (hless : h.less v = fraction values .less v)
    (hlessNext : h.less (v + 1) = fraction values .less (v + 1)) (op : Comparison) :
    h.selectivity op v = fraction values op v := by
  have htotal : 0 < h.total := hr.total ▸ List.length_pos_iff.mpr hvalues
  rw [hr.tallied.selectivity_eq htotal, fraction_eq hvalues, hless, hlessNext]

theorem selectivity_of_outside (hr : h.Records values) (hvalues : values ≠ [])
    (hv : v < h.min ∨ h.max < v) (op : Comparison) :
    h.selectivity op v = fraction values op v :=
  hr.selectivity_eq_fraction hvalues (hr.less_outside_eq hvalues (by omega))
    (hr.less_outside_eq hvalues (by omega)) op

theorem selectivity_of_distinct_eq_one (hr : h.Records values) (hvalues : values ≠ [])
    (ho : h.Owns b v) (hdistinct : h.distinct b = 1) (op : Comparison) :
    h.selectivity op v = fraction values op v := by
  obtain ⟨hb, hlow, hhigh⟩ := ho
  rw [hr.distinct_eq hb] at hdistinct
  obtain rfl : v = h.border b := by omega
  have hnext : h.border b + 1 = h.border (b + 1) := by omega
  refine hr.selectivity_eq_fraction hvalues (hr.less_border_eq hvalues (Nat.le_of_lt hb)) ?_ op
  rw [hnext]
  exact hr.less_border_eq hvalues hb

/-- Both fractions lie between those at the borders of the bucket. -/
theorem abs_selectivity_sub_le (hr : h.Records values) (hvalues : values ≠ []) (ho : h.Owns b v)
    (op : Comparison) :
    |h.selectivity op v - fraction values op v| ≤ h.count b / values.length := by
  obtain ⟨hb, hlow, hhigh⟩ := ho
  have htotal : 0 < h.total := hr.total ▸ List.length_pos_iff.mpr hvalues
  have hestimate := (hr.tallied.distributes htotal).monotone_less
  have hfraction := fraction_less_mono values
  have hfirst := hr.less_border_eq hvalues (Nat.le_of_lt hb)
  have hlast := hr.less_border_eq hvalues (b := b + 1) hb
  rw [hr.tallied.selectivity_eq htotal, fraction_eq hvalues, ← hr.fraction_bucket hb]
  apply op.abs_share_sub_share_le
  · exact hfirst ▸ hestimate hlow
  · exact hestimate (by omega)
  · exact hlast ▸ hestimate (by omega : v + 1 ≤ h.border (b + 1))
  · exact hfraction hlow
  · exact hfraction (by omega)
  · exact hfraction (by omega)

end Records

/-- The estimates of a histogram that was filled with values of its range are off by at most the
fraction of the values in the bucket of the integer that is compared with.  Outside the range and
where that bucket has a single integer they are exact, so all are when there are as many buckets as
integers. -/
theorem ofValues_accurate {requested : Nat} {min max : Int} {values : List Int}
    (hrequested : 0 < requested) (hrange : min ≤ max) (hvalues : values ≠ [])
    (hin : ∀ v ∈ values, min ≤ v ∧ v ≤ max) :
    ∃ h : Histogram ℚ, ofValues requested min max values = .ok h ∧
      (∀ op v, |h.selectivity op v - fraction values op v| ≤
        values.countP (fun x => h.bucket x = h.bucket v) / values.length) ∧
      (∀ op v, v < min ∨ max < v → h.selectivity op v = fraction values op v) ∧
      (∀ op v, min ≤ v → v ≤ max → h.distinct (h.bucket v) = 1 →
        h.selectivity op v = fraction values op v) ∧
      (max - min + 1 ≤ requested → ∀ op v, h.selectivity op v = fraction values op v) := by
  obtain ⟨h, hfilled, hr, rfl, rfl, -, hbuckets⟩ := exists_ofValues hrequested hrange hin
  refine ⟨h, hfilled, fun op v => ?_, fun op v hv => hr.selectivity_of_outside hvalues hv op,
    fun op v hlow hhigh hone => hr.selectivity_of_distinct_eq_one hvalues
      (hr.owns_bucket hlow hhigh) hone op, fun hnarrow op v => ?_⟩
  · by_cases hv : h.min ≤ v ∧ v ≤ h.max
    · rw [hr.count_bucket hv.1 hv.2]
      exact hr.abs_selectivity_sub_le hvalues (hr.owns_bucket hv.1 hv.2) op
    · rw [hr.selectivity_of_outside hvalues (by omega), sub_self, abs_zero]
      positivity
  · by_cases hv : h.min ≤ v ∧ v ≤ h.max
    · -- each integer of the range has a bucket of its own
      have hown := hr.owns_bucket hv.1 hv.2
      have hmin : Nat.min requested (h.max - h.min + 1).toNat = (h.max - h.min + 1).toNat :=
        Nat.min_eq_right (by omega)
      have hcount : h.max - h.min + 1 = h.buckets := by omega
      refine hr.selectivity_of_distinct_eq_one hvalues hown ?_ op
      rw [hr.distinct_eq hown.1, hr.border_of_narrow hcount hown.1,
        hr.border_of_narrow hcount (Nat.le_of_lt hown.1)]
      push_cast
      omega
    · exact hr.selectivity_of_outside hvalues (by omega) op

/-- In a bucket for three integers the estimate for `=` is off, but by less than its fraction. -/
theorem ofValues_accurate_three :
    ∃ h : Histogram ℚ, ofValues 3 0 8 [0, 0, 1, 4, 8] = .ok h ∧
      |h.selectivity .equal 0 - fraction [0, 0, 1, 4, 8] .equal 0| ≤
        [0, 0, 1, 4, 8].countP (fun x => h.bucket x = h.bucket 0) / 5 ∧
      h.selectivity .greater 9 = fraction [0, 0, 1, 4, 8] .greater 9 := by
  obtain ⟨h, hfilled, hbound, houtside, -⟩ :=
    ofValues_accurate (by decide : 0 < 3) (by decide : (0 : Int) ≤ 8)
      (by decide : [(0 : Int), 0, 1, 4, 8] ≠ []) (by decide)
  exact ⟨h, hfilled, hbound .equal 0, houtside .greater 9 (by decide)⟩

end Histogram

end RowStore
