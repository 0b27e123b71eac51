import RowStore.Proofs.Histogram.Buckets
import Mathlib.Algebra.BigOperators.Group.List.Basic

/-!
# RowStore.Proofs.Histogram.Recording: what the buckets count

A value is recorded exactly when it is in range (`Histogram.add_eq_ok_iff`).  A histogram that was
filled with values (`Histogram.ofValues`) counts each of them in the bucket that owns it
(`Histogram.Records`), so `Histogram.below` and `Histogram.above` are the numbers of values on either
side of a border, and the counts come to the total (`Histogram.Tallied`).
-/

namespace RowStore.Histogram

variable {α : Type} {h h' h'' : Histogram α} {b requested : Nat} {v min max : Int}
  {values more : List Int}

/-! ## The same buckets -/

/-- The second histogram has the buckets of the first. -/
structure SameBuckets (h h' : Histogram α) : Prop where
  min : h'.min = h.min
  max : h'.max = h.max
  requested : h'.requested = h.requested
  starts : h'.starts = h.starts
  buckets : h'.buckets = h.buckets

theorem SameBuckets.refl (h : Histogram α) : h.SameBuckets h :=
  ⟨rfl, rfl, rfl, rfl, rfl⟩

theorem SameBuckets.trans (hsame : h.SameBuckets h') (hsame' : h'.SameBuckets h'') :
    h.SameBuckets h'' :=
  ⟨hsame'.min.trans hsame.min, hsame'.max.trans hsame.max,
    hsame'.requested.trans hsame.requested, hsame'.starts.trans hsame.starts,
    hsame'.buckets.trans hsame.buckets⟩

theorem SameBuckets.border (hsame : h.SameBuckets h') (b : Nat) : h'.border b = h.border b := by
  rw [Histogram.border, Histogram.border, hsame.starts, hsame.max]

theorem SameBuckets.partitioned (hsame : h.SameBuckets h') (hp : h.Partitioned) :
    h'.Partitioned := by
  refine ⟨?_, hsame.buckets ▸ hp.pos, ?_, fun b hb => ?_⟩
  · rw [hsame.starts, hsame.buckets, hp.length]
  · rw [hsame.border, hsame.min, hp.first]
  · rw [hsame.border, hsame.border]
    exact hp.ascending b (hsame.buckets ▸ hb)

/-! ## Adding values -/

section

variable [Arithmetic α]

/-- A histogram over a range in which these values are recorded. -/
def ofValues (requested : Nat) (min max : Int) (values : List Int) :
    Except HistogramError (Histogram α) :=
  (ofRange requested min max).bind fun h => values.foldlM add h

theorem add_eq_ok_iff :
    h.add v = .ok h' ↔ (h.min ≤ v ∧ v ≤ h.max) ∧
      h' = { h with counts := h.counts.modify (h.bucket v) (· + 1), total := h.total + 1 } := by
  unfold add
  split_ifs with hrange
  · simp [hrange, eq_comm]
  · simp [hrange]

theorem sameBuckets_of_add (hadd : h.add v = .ok h') :
    h.SameBuckets h' ∧ h'.total = h.total + 1 := by
  obtain ⟨-, rfl⟩ := add_eq_ok_iff.mp hadd
  exact ⟨⟨rfl, rfl, rfl, rfl, List.length_modify ..⟩, rfl⟩

/-- Values in range are added one after the other. -/
theorem exists_foldlM_add (hvalues : ∀ v ∈ values, h.min ≤ v ∧ v ≤ h.max) :
    ∃ h', values.foldlM add h = .ok h' ∧ h.SameBuckets h' ∧ h'.total = h.total + values.length := by
  induction values generalizing h with
  | nil => exact ⟨h, rfl, .refl h, rfl⟩
  | cons v values ih =>
    obtain ⟨h₁, hadd⟩ : ∃ h₁, h.add v = .ok h₁ :=
      ⟨_, add_eq_ok_iff.mpr ⟨hvalues v List.mem_cons_self, rfl⟩⟩
    obtain ⟨hsame, htotal⟩ := sameBuckets_of_add hadd
    obtain ⟨h', hfold, hsame', htotal'⟩ := ih fun other hother => by
      rw [hsame.min, hsame.max]
      exact hvalues other (List.mem_cons_of_mem _ hother)
    refine ⟨h', ?_, hsame.trans hsame', ?_⟩
    · rw [List.foldlM_cons, hadd]
      exact hfold
    · rw [htotal', htotal, List.length_cons]
      omega

theorem ofRange_eq_ok {h : Histogram α} (hempty : ofRange requested min max = .ok h) :
    h.min = min ∧ h.max = max ∧ h.total = 0 := by
  unfold ofRange at hempty
  split_ifs at hempty
  rw [← Except.ok.inj hempty]
  exact ⟨rfl, rfl, rfl⟩

/-- A range has a bucket, and each bucket begins somewhere. -/
theorem buckets_of_ofRange {h : Histogram α} (hempty : ofRange requested min max = .ok h) :
    0 < h.buckets ∧ h.starts.length = h.buckets := by
  unfold ofRange at hempty
  split_ifs at hempty with hnone hrange
  rw [← Except.ok.inj hempty]
  simp only [buckets, List.length_replicate, List.length_map, List.length_range, and_true]
  exact Nat.lt_min.mpr ⟨Nat.pos_of_ne_zero hnone, by omega⟩

end

/-! ## Counting -/

/-- These values were recorded, each in the bucket that owns it. -/
structure Records (h : Histogram α) (values : List Int) : Prop extends h.Partitioned where
  mem_range : ∀ v ∈ values, h.min ≤ v ∧ v ≤ h.max
  count : ∀ b < h.buckets,
    h.count b = values.countP fun v => h.border b ≤ v ∧ v < h.border (b + 1)
  total : h.total = values.length

/-- A value in range is recorded. -/
theorem Records.add [Arithmetic α] (hr : h.Records values) (hlow : h.min ≤ v) (hhigh : v ≤ h.max) :
    ∃ h', h.add v = .ok h' ∧ h'.Records (values ++ [v]) ∧ h.SameBuckets h' := by
  obtain ⟨h', hadd⟩ : ∃ h', h.add v = .ok h' := ⟨_, add_eq_ok_iff.mpr ⟨⟨hlow, hhigh⟩, rfl⟩⟩
  obtain ⟨hsame, htotal⟩ := sameBuckets_of_add hadd
  refine ⟨h', hadd, ⟨hsame.partitioned hr.toPartitioned, fun other hother => ?_, fun b hb => ?_, ?_⟩,
    hsame⟩
  · rw [hsame.min, hsame.max]
    rcases List.mem_append.mp hother with hold | hnew
    · exact hr.mem_range other hold
    · obtain rfl := List.mem_singleton.mp hnew
      exact ⟨hlow, hhigh⟩
  · rw [hsame.buckets] at hb
    have hcount : h'.count b = h.count b + if h.bucket v = b then 1 else 0 := by
      obtain ⟨-, rfl⟩ := add_eq_ok_iff.mp hadd
      have hcounts : b < h.counts.length := hb
      simp only [Histogram.count, List.getD_eq_getElem?_getD, List.getElem?_modify,
        List.getElem?_eq_getElem hcounts]
      split_ifs <;> simp
    have howner : h.bucket v = b ↔ h.border b ≤ v ∧ v < h.border (b + 1) := by
      rw [hr.bucket_eq_iff hlow hhigh, Owns]
      exact and_iff_right hb
    rw [hcount, hr.count b hb, List.countP_append, List.countP_singleton, hsame.border, hsame.border]
    simp only [howner, decide_eq_true_eq]
  · rw [htotal, hr.total, List.length_append, List.length_singleton]

/-- Values in range are recorded one after the other. -/
theorem Records.foldlM_add [Arithmetic α] (hr : h.Records values)
    (hmore : ∀ v ∈ more, h.min ≤ v ∧ v ≤ h.max) :
    ∃ h', more.foldlM Histogram.add h = .ok h' ∧ h'.Records (values ++ more) ∧
      h.SameBuckets h' := by
  induction more generalizing h values with
  | nil => exact ⟨h, rfl, by simpa using hr, .refl h⟩
  | cons v more ih =>
    obtain ⟨hlow, hhigh⟩ := hmore v List.mem_cons_self
    obtain ⟨h', hadd, hrecords, hsame⟩ := hr.add hlow hhigh
    obtain ⟨h'', hfold, hrecords', hsame'⟩ := ih hrecords fun other hother => by
      rw [hsame.min, hsame.max]
      exact hmore other (List.mem_cons_of_mem _ hother)
    refine ⟨h'', ?_, by simpa using hrecords', hsame.trans hsame'⟩
    rw [List.foldlM_cons, hadd]
    exact hfold

/-- A range can be filled with any values in it. -/
theorem exists_ofValues (hrequested : 0 < requested) (hrange : min ≤ max)
    (hvalues : ∀ v ∈ values, min ≤ v ∧ v ≤ max) :
    ∃ h : Histogram ℚ, ofValues requested min max values = .ok h ∧ h.Records values ∧
      h.min = min ∧ h.max = max ∧ h.requested = requested ∧
      h.buckets = Nat.min requested (max - min + 1).toNat := by
  obtain ⟨h, hempty, hp, rfl, rfl, rfl, hcounts, htotal⟩ := exists_ofRange hrequested hrange
  have hnone : h.Records [] := by
    refine ⟨hp, by simp, fun b _ => ?_, htotal⟩
    rw [Histogram.count, hcounts, List.getD_eq_getElem?_getD, List.getElem?_replicate]
    split_ifs <;> rfl
  obtain ⟨h', hfold, hrecords, hsame⟩ := hnone.foldlM_add hvalues
  refine ⟨h', ?_, hrecords, hsame.min, hsame.max, hsame.requested, ?_⟩
  · rw [ofValues, hempty]
    exact hfold
  · rw [hsame.buckets, Histogram.buckets, hcounts, List.length_replicate]

/-! ## Counts on either side of a border -/

/-- The number of values in the buckets before this one. -/
def below (h : Histogram α) (b : Nat) : Nat :=
  (h.counts.take b).sum

/-- The number of values in this bucket and those behind it. -/
def above (h : Histogram α) (b : Nat) : Nat :=
  (h.counts.drop b).sum

@[simp] theorem below_zero (h : Histogram α) : h.below 0 = 0 := rfl

theorem below_succ (hb : b < h.buckets) : h.below (b + 1) = h.below b + h.count b := by
  have hcounts : b < h.counts.length := hb
  rw [below, List.sum_take_succ _ _ hcounts, ← below, count, List.getD_eq_getElem?_getD,
    List.getElem?_eq_getElem hcounts]
  rfl

theorem below_add_above (h : Histogram α) (b : Nat) : h.below b + h.above b = h.below h.buckets := by
  rw [below, above, List.sum_take_add_sum_drop, below, buckets, List.take_length]

/-- The buckets divide the range, and each value is counted in one of them. -/
structure Tallied (h : Histogram α) : Prop extends h.Partitioned where
  below_buckets : h.below h.buckets = h.total

theorem countP_lt_add {low high : Int} (hle : low ≤ high) (values : List Int) :
    (values.countP (· < low)) + (values.countP fun v => low ≤ v ∧ v < high) =
      values.countP (· < high) := by
  induction values with
  | nil => rfl
  | cons v values ih =>
    simp only [List.countP_cons, decide_eq_true_eq]
    split_ifs <;> omega

/-- The values in the buckets before a border are those that are less. -/
theorem Records.below_eq (hr : h.Records values) (hb : b ≤ h.buckets) :
    h.below b = values.countP (· < h.border b) := by
  induction b with
  | zero =>
    rw [below_zero, hr.first, eq_comm, List.countP_eq_zero]
    simpa using fun v hv => (hr.mem_range v hv).1
  | succ b ih =>
    rw [below_succ hb, ih (Nat.le_of_lt hb), hr.count b hb,
      countP_lt_add (Int.le_of_lt (hr.ascending b hb))]

theorem Records.tallied (hr : h.Records values) : h.Tallied := by
  refine ⟨hr.toPartitioned, ?_⟩
  rw [hr.below_eq (Nat.le_refl _), hr.border_buckets, hr.total, List.countP_eq_length]
  simpa [Int.lt_add_one_iff] using fun v hv => (hr.mem_range v hv).2

end RowStore.Histogram
