import RowStore.Statistics.Histogram
import Mathlib.Data.Rat.Floor
import Mathlib.Tactic.FieldSimp
import Mathlib.Tactic.Linarith
import Mathlib.Tactic.Ring

/-!
# RowStore.Proofs.Histogram.Buckets: the buckets of a range and what they count

`Histogram.border` lists the least integers of the buckets, and behind them the first integer behind
the range.  In exact fractions the borders ascend (`Histogram.exists_ofRange`), so each integer of
the range is owned by one bucket (`Histogram.Partitioned`), and the search finds that bucket from
whatever guess it begins with (`Partitioned.owns_bucketFrom`).  Recording values in range succeeds,
and each is counted in the bucket that owns it (`Histogram.Records`).
-/

namespace RowStore

/-- Exact fractions. -/
instance : Arithmetic ℚ where
  ofInt n := n
  ceil x := ⌈x⌉
  truncate x := ⌊x⌋₊
  round x := ⌊x + 1 / 2⌋₊

@[simp] theorem ofInt_rat (n : Int) : (ofInt n : ℚ) = n := rfl

namespace Histogram

variable {α : Type} {h h' : Histogram α} {b c guess requested : Nat} {v min max : Int}
  {values : List Int}

/-! ## Every search ends at a bucket -/

theorem descend_le (h : Histogram α) (v : Int) : ∀ guess, h.descend v guess ≤ guess
  | 0 => Nat.le_refl _
  | guess + 1 => by
    rw [descend]
    split_ifs
    · exact Nat.le_succ_of_le (h.descend_le v guess)
    · exact Nat.le_refl _

theorem climb_le (h : Histogram α) (v : Int) : ∀ remaining b, h.climb v remaining b ≤ b + remaining
  | 0, _ => Nat.le_refl _
  | remaining + 1, b => by
    rw [climb]
    split_ifs
    · exact Nat.le_trans (h.climb_le v remaining (b + 1)) (by omega)
    · exact Nat.le_add_right _ _

/-- However the fractions are rounded, the bucket that is found is one of the buckets. -/
theorem bucket_lt_buckets [Arithmetic α] (hpos : 0 < h.buckets) (v : Int) :
    h.bucket v < h.buckets := by
  unfold bucket
  generalize hguess : Nat.min (Arithmetic.truncate (ofInt (v - h.min) / h.width : α)) h.last = guess
  have hlast : guess ≤ h.last := hguess ▸ Nat.min_le_right _ _
  have hdown := h.descend_le v guess
  have hup := h.climb_le v (h.last - h.descend v guess) (h.descend v guess)
  rw [bucketFrom]
  unfold last at hlast hup ⊢
  omega

/-! ## Borders -/

/-- The least integer of a bucket, and the first integer behind the range for all that follow. -/
def border (h : Histogram α) (b : Nat) : Int :=
  h.starts.getD b (h.max + 1)

theorem border_eq_getElem (hb : b < h.starts.length) : h.border b = h.starts[b] := by
  rw [border, List.getD_eq_getElem?_getD, List.getElem?_eq_getElem hb, Option.getD_some]

theorem border_of_length_le (hb : h.starts.length ≤ b) : h.border b = h.max + 1 := by
  rw [border, List.getD_eq_getElem?_getD, List.getElem?_eq_none hb, Option.getD_none]

theorem bucketMin_eq_getElem (hb : b < h.starts.length) : h.bucketMin b = h.starts[b] := by
  rw [bucketMin, List.getD_eq_getElem?_getD, List.getElem?_eq_getElem hb, Option.getD_some]

theorem bucketMax_eq (h : Histogram α) (b : Nat) : h.bucketMax b = h.border (b + 1) - 1 := by
  unfold bucketMax border
  rw [List.getD_eq_getElem?_getD]
  cases h.starts[b + 1]? <;> simp

/-- Each bucket has an integer, and the buckets follow one another from the least integer of the
range to the greatest. -/
structure Partitioned (h : Histogram α) : Prop where
  length : h.starts.length = h.buckets
  pos : 0 < h.buckets
  first : h.border 0 = h.min
  ascending : ∀ b < h.buckets, h.border b < h.border (b + 1)

/-- A bucket owns the integers from its least to its greatest. -/
def Owns (h : Histogram α) (b : Nat) (v : Int) : Prop :=
  b < h.buckets ∧ h.border b ≤ v ∧ v < h.border (b + 1)

namespace Partitioned

theorem border_buckets (hp : h.Partitioned) : h.border h.buckets = h.max + 1 :=
  border_of_length_le (Nat.le_of_eq hp.length)

theorem bucketMin_eq (hp : h.Partitioned) (hb : b < h.buckets) : h.bucketMin b = h.border b := by
  rw [← hp.length] at hb
  rw [bucketMin_eq_getElem hb, border_eq_getElem hb]

theorem distinct_eq (hp : h.Partitioned) (hb : b < h.buckets) :
    h.distinct b = h.border (b + 1) - h.border b := by
  rw [distinct, bucketMax_eq, hp.bucketMin_eq hb]
  omega

theorem border_le (hp : h.Partitioned) (hbc : b ≤ c) (hc : c ≤ h.buckets) :
    h.border b ≤ h.border c := by
  induction c, hbc using Nat.le_induction with
  | base => exact Int.le_refl _
  | succ c hbc ih => exact Int.le_trans (ih (by omega)) (Int.le_of_lt (hp.ascending c (by omega)))

theorem min_le_border (hp : h.Partitioned) (hb : b ≤ h.buckets) : h.min ≤ h.border b :=
  hp.first ▸ hp.border_le (Nat.zero_le b) hb

theorem border_le_max (hp : h.Partitioned) (hb : b ≤ h.buckets) : h.border b ≤ h.max + 1 :=
  hp.border_buckets ▸ hp.border_le hb (Nat.le_refl _)

/-- A bucket owns only integers of the range. -/
theorem inRange (hp : h.Partitioned) (ho : h.Owns b v) : h.min ≤ v ∧ v ≤ h.max := by
  obtain ⟨hb, hlow, hhigh⟩ := ho
  have hfirst := hp.min_le_border (Nat.le_of_lt hb)
  have hlast : h.border (b + 1) ≤ h.max + 1 := hp.border_le_max hb
  omega

/-- No two buckets own the same integer. -/
theorem owner_unique (hp : h.Partitioned) (hb : h.Owns b v) (hc : h.Owns c v) : b = c := by
  have hle : ∀ {first second : Nat}, h.Owns first v → h.Owns second v → first ≤ second := by
    rintro first second ⟨hfirst, hlow, -⟩ ⟨-, -, hhigh⟩
    by_contra hlt
    have hborder : h.border (second + 1) ≤ h.border first :=
      hp.border_le (Nat.not_le.mp hlt) (Nat.le_of_lt hfirst)
    omega
  exact Nat.le_antisymm (hle hb hc) (hle hc hb)

/-! ## Searching -/

/-- Going down ends at a bucket that does not begin behind the integer. -/
theorem border_descend_le (hp : h.Partitioned) (hv : h.min ≤ v) :
    ∀ guess < h.buckets, h.border (h.descend v guess) ≤ v
  | 0, _ => by
    rw [descend, hp.first]
    exact hv
  | guess + 1, hguess => by
    rw [descend, hp.bucketMin_eq hguess]
    split_ifs with hbehind
    · exact border_descend_le hp hv guess (by omega)
    · exact Int.not_lt.mp hbehind

/-- Going up from such a bucket ends at the one that owns the integer. -/
theorem owns_climb (hp : h.Partitioned) (hv : v ≤ h.max) :
    ∀ (remaining b : Nat), b + remaining = h.last → h.border b ≤ v →
      h.Owns (h.climb v remaining b) v
  | 0, b, hlast, hborder => by
    have hpos := hp.pos
    have hend : b + 1 = h.buckets := by
      rw [last] at hlast
      omega
    refine ⟨by rw [climb]; omega, hborder, ?_⟩
    rw [climb, hend, hp.border_buckets]
    omega
  | remaining + 1, b, hlast, hborder => by
    have hb : b < h.buckets := by
      rw [last] at hlast
      omega
    rw [climb, bucketMax_eq]
    split_ifs with hbefore
    · exact owns_climb hp hv remaining (b + 1) (by omega) (by omega)
    · exact ⟨hb, hborder, by omega⟩

/-- Whatever the guess, the bucket that is found owns the integer. -/
theorem owns_bucketFrom (hp : h.Partitioned) (hlow : h.min ≤ v) (hhigh : v ≤ h.max)
    (hguess : guess ≤ h.last) : h.Owns (h.bucketFrom v guess) v := by
  have hpos := hp.pos
  have hlast : h.last = h.buckets - 1 := rfl
  have hle := h.descend_le v guess
  have hborder := hp.border_descend_le hlow guess (by omega)
  exact hp.owns_climb hhigh _ _ (by omega) hborder

theorem owns_bucket [Arithmetic α] (hp : h.Partitioned) (hlow : h.min ≤ v) (hhigh : v ≤ h.max) :
    h.Owns (h.bucket v) v :=
  hp.owns_bucketFrom hlow hhigh (Nat.min_le_right _ _)

theorem bucket_eq_iff [Arithmetic α] (hp : h.Partitioned) (hlow : h.min ≤ v) (hhigh : v ≤ h.max) :
    h.bucket v = b ↔ h.Owns b v :=
  ⟨fun heq => heq ▸ hp.owns_bucket hlow hhigh, fun ho =>
    hp.owner_unique (hp.owns_bucket hlow hhigh) ho⟩

/-- When there is a bucket for each integer of the range, each has the one integer. -/
theorem border_of_narrow (hp : h.Partitioned) (hcount : h.max - h.min + 1 = h.buckets)
    (hb : b ≤ h.buckets) : h.border b = h.min + b := by
  have hgap : ∀ {first second : Nat}, first ≤ second → second ≤ h.buckets →
      h.border first + (second - first : Nat) ≤ h.border second := by
    intro first second hle hsecond
    induction second, hle using Nat.le_induction with
    | base => simp
    | succ second hle ih =>
      have hstep := hp.ascending second (by omega)
      have hrest := ih (by omega)
      omega
  have hfirst := hgap (Nat.zero_le b) hb
  have hlast := hgap hb (Nat.le_refl _)
  rw [hp.first] at hfirst
  rw [hp.border_buckets] at hlast
  omega

end Partitioned

/-! ## The borders of a range -/

/-- A range of `range + 1` integers is divided into at most as many buckets, so each begins behind
the one before it. -/
theorem ceil_mul_div_lt {buckets range : Nat} (hle : buckets ≤ range + 1) (hb : b + 1 < buckets) :
    ⌈(b : ℚ) * (range / buckets)⌉ < ⌈((b + 1 : Nat) : ℚ) * (range / buckets)⌉ := by
  have hpos : (0 : ℚ) < buckets := by
    exact_mod_cast (by omega : 0 < buckets)
  rcases Nat.lt_or_ge range buckets with hnarrow | hwide
  · -- one bucket for each integer: the fractions are less than one below the whole numbers
    have hceil : ∀ c < buckets, ⌈(c : ℚ) * (range / buckets)⌉ = c := by
      intro c hc
      have hrange : (range : ℚ) = buckets - 1 := by
        have hsum : range + 1 = buckets := by omega
        rw [← hsum]
        push_cast
        ring
      have hc' : (c : ℚ) < buckets := by exact_mod_cast hc
      have hc₀ : (0 : ℚ) ≤ c := by exact_mod_cast Nat.zero_le c
      have heq : (c : ℚ) * (range / buckets) = c - c / buckets := by
        rw [hrange]
        field_simp
      have hless : (c : ℚ) / buckets < 1 := (div_lt_one hpos).mpr hc'
      have hnonneg : (0 : ℚ) ≤ c / buckets := div_nonneg hc₀ hpos.le
      rw [heq, Int.ceil_eq_iff]
      push_cast
      constructor <;> linarith
    rw [hceil b (by omega), hceil (b + 1) hb]
    push_cast
    omega
  · have hwidth : (1 : ℚ) ≤ range / buckets := by
      rw [le_div_iff₀ hpos, one_mul]
      exact_mod_cast hwide
    have hstep : (b : ℚ) * (range / buckets) + 1 ≤ ((b + 1 : Nat) : ℚ) * (range / buckets) := by
      push_cast
      linarith
    calc ⌈(b : ℚ) * (range / buckets)⌉ < ⌈(b : ℚ) * (range / buckets)⌉ + 1 := Int.lt_succ _
      _ = ⌈(b : ℚ) * (range / buckets) + 1⌉ := (Int.ceil_add_one _).symm
      _ ≤ ⌈((b + 1 : Nat) : ℚ) * (range / buckets)⌉ := Int.ceil_le_ceil hstep

/-- No bucket begins behind the range. -/
theorem ceil_mul_div_le {buckets range : Nat} (hb : b < buckets) :
    ⌈(b : ℚ) * (range / buckets)⌉ ≤ range := by
  have hpos : (0 : ℚ) < buckets := by
    exact_mod_cast (by omega : 0 < buckets)
  have hb' : (b : ℚ) ≤ buckets := by exact_mod_cast Nat.le_of_lt hb
  have hrange : (0 : ℚ) ≤ range := by exact_mod_cast Nat.zero_le range
  rw [Int.ceil_le]
  push_cast
  rw [mul_div_assoc', div_le_iff₀ hpos, mul_comm]
  exact mul_le_mul_of_nonneg_left hb' hrange

theorem border_of_starts {buckets : Nat} {start : Nat → Int}
    (hstarts : h.starts = (List.range buckets).map start) (b : Nat) :
    h.border b = if b < buckets then start b else h.max + 1 := by
  rw [border, hstarts, List.getD_eq_getElem?_getD, List.getElem?_map]
  split_ifs with hb
  · rw [List.getElem?_range hb]
    rfl
  · rw [List.getElem?_eq_none (by simpa using hb)]
    rfl

/-- A histogram of no values divides its range into as many buckets as were asked for, or into one
for each integer if those are fewer. -/
theorem exists_ofRange (hrequested : 0 < requested) (hrange : min ≤ max) :
    ∃ h : Histogram ℚ, ofRange requested min max = .ok h ∧ h.Partitioned ∧ h.min = min ∧
      h.max = max ∧ h.requested = requested ∧
      h.counts = List.replicate (Nat.min requested (max - min + 1).toNat) 0 ∧ h.total = 0 := by
  obtain ⟨range, rfl⟩ : ∃ range : Nat, max = min + range := ⟨(max - min).toNat, by omega⟩
  refine ⟨_, by rw [ofRange, if_neg (by omega), if_neg (by omega)], ?_, rfl, rfl, rfl, rfl, rfl⟩
  generalize hbuckets : Nat.min requested (min + range - min + 1).toNat = buckets
  have hpos : 0 < buckets := by
    rw [← hbuckets]
    exact Nat.lt_min.mpr ⟨hrequested, by omega⟩
  have hle : buckets ≤ range + 1 := by
    rw [← hbuckets]
    exact Nat.le_trans (Nat.min_le_right _ _) (by omega)
  generalize hh : Histogram.mk min (min + range) _ requested _ (List.replicate buckets 0) 0 = h
  have hcounts : h.buckets = buckets := by
    rw [← hh]
    exact List.length_replicate
  -- the borders are those of a range that begins at zero, moved to the least integer
  have hborder : ∀ b, h.border b =
      if b < buckets then min + ⌈(b : ℚ) * (range / buckets)⌉ else min + range + 1 := by
    intro b
    rw [← hh, border_of_starts rfl]
    congr 1
    show ⌈(min : ℚ) + ((b : Int) : ℚ) * (((min + range - min : Int) : ℚ) / ((buckets : Int) : ℚ))⌉ = _
    rw [Int.ceil_intCast_add]
    simp
  refine ⟨?_, hcounts ▸ hpos, ?_, fun b hb => ?_⟩
  · rw [hcounts, ← hh]
    simp
  · rw [hborder, if_pos hpos, ← hh]
    simp
  · rw [hcounts] at hb
    rw [hborder, hborder, if_pos hb]
    split_ifs with hnext
    · have hlt := ceil_mul_div_lt hle hnext
      omega
    · have hlast := @ceil_mul_div_le b buckets range hb
      omega

end Histogram

end RowStore
