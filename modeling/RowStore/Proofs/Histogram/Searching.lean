import RowStore.Proofs.Histogram.Recording

/-!
# RowStore.Proofs.Histogram.Searching: the search for a bucket, round by round

The search for the bucket of an integer goes down from a guess and then up.  `Histogram.Search` is
where it stands and `Histogram.searchStep?` is one round of it, in which a bucket is looked up only
where there is one.  From any of the buckets every round leads to one of the buckets
(`Histogram.exists_search`), and after two rounds for each bucket the search has come to its end,
which is where `bucketFrom` says (`Histogram.search_down`).  Buckets whose starts ascend divide the
range (`Histogram.Ascends.partitioned`), and there that is the bucket that owns the integer, so the
guess does not matter, and what is recorded is counted once.
-/

namespace RowStore.Histogram

variable {α : Type} {h h' : Histogram α} {b guess requested : Nat} {v min max : Int}
  {values : List Int}

/-! ## Ascending buckets -/

/-- The first bucket begins at the least integer of the range, each other bucket begins behind the
one before it, and none begins behind the range. -/
structure Ascends (h : Histogram α) : Prop where
  length : h.starts.length = h.buckets
  first : h.starts.head? = some h.min
  ascending : h.starts.Pairwise (· < ·)
  le_max : ∀ start ∈ h.starts, start ≤ h.max

theorem Ascends.partitioned (ha : h.Ascends) : h.Partitioned := by
  have hpos : 0 < h.starts.length := by
    rw [List.length_pos_iff]
    intro hnil
    have hfirst := ha.first
    rw [hnil] at hfirst
    cases hfirst
  refine ⟨ha.length, ha.length ▸ hpos, ?_, ?_⟩
  · have hfirst := ha.first
    rw [List.head?_eq_getElem?, List.getElem?_eq_getElem hpos, Option.some.injEq] at hfirst
    rw [border_eq_getElem hpos, hfirst]
  · intro b hb
    rw [← ha.length] at hb
    rw [border_eq_getElem hb]
    by_cases hnext : b + 1 < h.starts.length
    · rw [border_eq_getElem hnext]
      exact List.pairwise_iff_getElem.mp ha.ascending b (b + 1) hb hnext (by omega)
    · have hle := ha.le_max _ (List.getElem_mem hb)
      rw [border_of_length_le (by omega)]
      omega

theorem Partitioned.ascends (hp : h.Partitioned) : h.Ascends := by
  have hlength := hp.length
  have hpos := hp.pos
  refine ⟨hlength, ?_, ?_, ?_⟩
  · rw [List.head?_eq_getElem?, List.getElem?_eq_getElem (by omega), ← hp.first,
      border_eq_getElem (by omega)]
  · rw [List.pairwise_iff_getElem]
    intro i j hi hj hij
    have hnext := hp.ascending i (by omega)
    have hrest : h.border (i + 1) ≤ h.border j := hp.border_le (by omega) (by omega)
    rw [border_eq_getElem hi] at hnext
    rw [border_eq_getElem hj] at hrest
    omega
  · intro start hstart
    obtain ⟨i, hi, rfl⟩ := List.getElem_of_mem hstart
    have hnext := hp.ascending i (by omega)
    have hend : h.border (i + 1) ≤ h.max + 1 := hp.border_le_max (by omega)
    rw [border_eq_getElem hi] at hnext
    omega

/-- A bucket owns the integers within its bounds. -/
theorem Partitioned.owns_iff (hp : h.Partitioned) :
    h.Owns b v ↔ b < h.buckets ∧ h.bucketMin b ≤ v ∧ v ≤ h.bucketMax b := by
  unfold Owns
  refine and_congr_right fun hb => ?_
  rw [hp.bucketMin_eq hb, bucketMax_eq]
  omega

/-! ## Rounds -/

/-- Where a search stands: at a bucket on its way down or on its way up, or at the one it found. -/
inductive Search where
  | down (b : Nat)
  | up (b : Nat)
  | found (b : Nat)
  deriving DecidableEq, Repr

/-- The bucket at which a search stands. -/
def Search.bucket : Search → Nat
  | .down b => b
  | .up b => b
  | .found b => b

/-- The search one round later.  There is none when it looks up a bucket that there is not. -/
def searchStep? (h : Histogram α) (v : Int) : Search → Option Search
  | .down 0 => some (.up 0)
  | .down (b + 1) =>
    h.starts[b + 1]?.map fun start => if v < start then .down b else .up (b + 1)
  | .up b => if b < h.last ∧ h.bucketMax b < v then some (.up (b + 1)) else some (.found b)
  | .found b => some (.found b)

/-- The search some rounds later. -/
def search? (h : Histogram α) (v : Int) : (rounds : Nat) → Search → Option Search
  | 0, search => some search
  | rounds + 1, search => (h.searchStep? v search).bind (h.search? v rounds)

/-- A round that begins at one of the buckets ends at one of the buckets. -/
theorem exists_searchStep (hlength : h.starts.length = h.buckets) (v : Int) {search : Search}
    (hsearch : search.bucket < h.buckets) :
    ∃ next, h.searchStep? v search = some next ∧ next.bucket < h.buckets := by
  match search with
  | .down 0 => exact ⟨.up 0, rfl, hsearch⟩
  | .down (b + 1) =>
    have hb : b + 1 < h.buckets := hsearch
    have hget : h.starts[b + 1]? = some h.starts[b + 1] := List.getElem?_eq_getElem (by omega)
    rw [searchStep?, hget, Option.map_some]
    by_cases hbehind : v < h.starts[b + 1]
    · exact ⟨.down b, by rw [if_pos hbehind], Nat.lt_of_succ_lt hb⟩
    · exact ⟨.up (b + 1), by rw [if_neg hbehind], hb⟩
  | .up b =>
    rw [searchStep?]
    by_cases hbefore : b < h.last ∧ h.bucketMax b < v
    · have hlast : h.last = h.buckets - 1 := rfl
      exact ⟨.up (b + 1), by rw [if_pos hbefore], by rw [Search.bucket]; omega⟩
    · exact ⟨.found b, by rw [if_neg hbefore], hsearch⟩
  | .found b => exact ⟨.found b, rfl, hsearch⟩

/-- However many rounds there are, the search stands at one of the buckets. -/
theorem exists_search (hlength : h.starts.length = h.buckets) (v : Int) (rounds : Nat)
    {search : Search} (hsearch : search.bucket < h.buckets) :
    ∃ later, h.search? v rounds search = some later ∧ later.bucket < h.buckets := by
  induction rounds generalizing search with
  | zero => exact ⟨search, rfl, hsearch⟩
  | succ rounds ih =>
    obtain ⟨next, hstep, hnext⟩ := exists_searchStep hlength v hsearch
    obtain ⟨later, hlater, hbucket⟩ := ih hnext
    exact ⟨later, by rw [search?, hstep, Option.bind_some, hlater], hbucket⟩

theorem search_found (h : Histogram α) (v : Int) (b rounds : Nat) :
    h.search? v rounds (.found b) = some (.found b) := by
  induction rounds with
  | zero => rfl
  | succ rounds ih => rw [search?, searchStep?, Option.bind_some, ih]

/-- On its way up the search ends where `climb` does, in a round for each bucket that is left. -/
theorem search_up (h : Histogram α) (v : Int) : ∀ {remaining b rounds : Nat},
    b + remaining = h.last → remaining < rounds →
      h.search? v rounds (.up b) = some (.found (h.climb v remaining b))
  | _, _, 0, _, hrounds => absurd hrounds (Nat.not_lt_zero _)
  | 0, b, rounds + 1, hlast, _ => by
    rw [search?, searchStep?, if_neg (by omega), Option.bind_some, search_found, climb]
  | remaining + 1, b, rounds + 1, hlast, hrounds => by
    rw [search?, searchStep?, climb]
    by_cases hbefore : h.bucketMax b < v
    · rw [if_pos ⟨by omega, hbefore⟩, if_pos hbefore, Option.bind_some]
      exact search_up h v (by omega) (by omega)
    · rw [if_neg fun hboth => hbefore hboth.2, if_neg hbefore, Option.bind_some, search_found]

/-- From a guess the search ends where `bucketFrom` says. -/
theorem search_down (hlength : h.starts.length = h.buckets) (v : Int) : ∀ {guess rounds : Nat},
    guess < h.buckets → guess + h.last + 1 < rounds →
      h.search? v rounds (.down guess) = some (.found (h.bucketFrom v guess))
  | _, 0, _, hrounds => absurd hrounds (Nat.not_lt_zero _)
  | 0, rounds + 1, _, hrounds => by
    rw [search?, searchStep?, Option.bind_some]
    exact search_up h v (Nat.zero_add _) (by omega)
  | guess + 1, rounds + 1, hguess, hrounds => by
    have hget : h.starts[guess + 1]? = some h.starts[guess + 1] :=
      List.getElem?_eq_getElem (by omega)
    rw [search?, searchStep?, hget, Option.map_some, Option.bind_some, bucketFrom, descend,
      bucketMin_eq_getElem (by omega)]
    by_cases hbehind : v < h.starts[guess + 1]
    · rw [if_pos hbehind, if_pos hbehind]
      exact search_down hlength v (by omega) (by omega)
    · have hlast : h.last = h.buckets - 1 := rfl
      rw [if_neg hbehind, if_neg hbehind]
      exact search_up h v (by omega) (by omega)

/-- What the search for an integer comes to, from every guess: it stands at one of the buckets all
the time, and it ends at the one within whose bounds the integer lies. -/
structure Finds (h : Histogram α) (v : Int) (b : Nat) : Prop where
  owner : ∀ c, (c < h.buckets ∧ h.bucketMin c ≤ v ∧ v ≤ h.bucketMax c) ↔ c = b
  within : ∀ guess ≤ h.last, ∀ rounds, ∃ search,
    h.search? v rounds (.down guess) = some search ∧ search.bucket ≤ h.last
  ends : ∀ guess ≤ h.last, ∀ rounds, 2 * h.buckets ≤ rounds →
    h.search? v rounds (.down guess) = some (.found b)
  bucketFrom : ∀ guess ≤ h.last, h.bucketFrom v guess = b

theorem Partitioned.finds (hp : h.Partitioned) (ho : h.Owns b v) : h.Finds v b := by
  obtain ⟨hlow, hhigh⟩ := hp.inRange ho
  have hpos := hp.pos
  have hlast : h.last = h.buckets - 1 := rfl
  have hfrom : ∀ guess ≤ h.last, h.bucketFrom v guess = b := fun guess hguess =>
    hp.owner_unique (hp.owns_bucketFrom hlow hhigh hguess) ho
  refine ⟨fun c => ?_, fun guess hguess rounds => ?_, fun guess hguess rounds hrounds => ?_, hfrom⟩
  · rw [← hp.owns_iff]
    constructor
    · intro hc
      exact hp.owner_unique hc ho
    · rintro rfl
      exact ho
  · obtain ⟨search, hsearch, hbucket⟩ := exists_search hp.length v rounds
      (show (Search.down guess).bucket < h.buckets by rw [Search.bucket]; omega)
    exact ⟨search, hsearch, by omega⟩
  · rw [search_down hp.length v (by omega) (by omega), hfrom guess hguess]

/-! ## The sum of the counts -/

theorem sum_modify_succ {counts : List Nat} (hb : b < counts.length) :
    (counts.modify b (· + 1)).sum = counts.sum + 1 := by
  induction counts generalizing b with
  | nil => exact absurd hb (Nat.not_lt_zero b)
  | cons count counts ih =>
    cases b with
    | zero =>
      simp only [List.modify_zero_cons, List.sum_cons]
      omega
    | succ b =>
      simp only [List.modify_succ_cons, List.sum_cons, ih (Nat.lt_of_succ_lt_succ hb)]
      omega

/-- A value is counted in one bucket and in the total. -/
theorem sum_counts_of_add [Arithmetic α] (hpos : 0 < h.buckets) (hsum : h.counts.sum = h.total)
    (hadd : h.add v = .ok h') : h'.counts.sum = h'.total := by
  obtain ⟨-, rfl⟩ := add_eq_ok_iff.mp hadd
  show (h.counts.modify (h.bucket v) (· + 1)).sum = h.total + 1
  rw [sum_modify_succ (bucket_lt_buckets hpos v), hsum]

theorem sum_counts_of_foldlM [Arithmetic α] (hpos : 0 < h.buckets)
    (hsum : h.counts.sum = h.total) (hfold : values.foldlM add h = .ok h') :
    h'.counts.sum = h'.total := by
  induction values generalizing h with
  | nil =>
    obtain rfl : h = h' := Except.ok.inj hfold
    exact hsum
  | cons v values ih =>
    rw [List.foldlM_cons] at hfold
    cases hadd : h.add v with
    | error e =>
      rw [hadd] at hfold
      cases hfold
    | ok next =>
      rw [hadd] at hfold
      have hsame := (sameBuckets_of_add hadd).1
      exact ih (hsame.buckets ▸ hpos) (sum_counts_of_add hpos hsum hadd) hfold

/-- Whatever range is divided into whatever number of buckets, in exact fractions the buckets
ascend.  Where they ascend, however they were computed, each bucket has an integer of the range, the
search for an integer ends at the one bucket that has it from every guess, and the counts come to
the total after any values of the range. -/
theorem buckets_partition (hrequested : 0 < requested) (hrange : min ≤ max) :
    (∃ h : Histogram ℚ, ofRange requested min max = .ok h ∧ h.min = min ∧ h.max = max ∧
      h.Ascends ∧ h.counts.sum = h.total) ∧
    ∀ {α : Type} [Arithmetic α] (h : Histogram α), h.Ascends →
      (∀ b < h.buckets, ∃ v, h.min ≤ v ∧ v ≤ h.max ∧ h.bucket v = b) ∧
      (∀ v, h.min ≤ v → v ≤ h.max → ∃ b, h.Finds v b ∧ h.bucket v = b) ∧
      (h.counts.sum = h.total → ∀ values : List Int, (∀ v ∈ values, h.min ≤ v ∧ v ≤ h.max) →
        ∃ h', values.foldlM add h = .ok h' ∧ h'.counts.sum = h'.total ∧
          h'.total = h.total + values.length) := by
  constructor
  · obtain ⟨h, hempty, hp, hmin, hmax, -, hcounts, htotal⟩ := exists_ofRange hrequested hrange
    refine ⟨h, hempty, hmin, hmax, hp.ascends, ?_⟩
    rw [hcounts, htotal]
    simp
  · intro α _ h ha
    have hp := ha.partitioned
    refine ⟨fun b hb => ?_, fun v hlow hhigh => ?_, fun hsum values hvalues => ?_⟩
    · have ho : h.Owns b (h.border b) := ⟨hb, Int.le_refl _, hp.ascending b hb⟩
      obtain ⟨hlow, hhigh⟩ := hp.inRange ho
      exact ⟨h.border b, hlow, hhigh, (hp.bucket_eq_iff hlow hhigh).mpr ho⟩
    · exact ⟨h.bucket v, hp.finds (hp.owns_bucket hlow hhigh), rfl⟩
    · obtain ⟨h', hfold, -, htotal⟩ := exists_foldlM_add hvalues
      exact ⟨h', hfold, sum_counts_of_foldlM hp.pos hsum hfold, htotal⟩

/-- Three buckets for the integers from -2 to 5, and the same buckets with a width that sends every
guess to the first of them: 5 is found in the last. -/
theorem buckets_partition_misled :
    let misled : Histogram ℚ := ⟨-2, 5, 0, 3, [-2, 1, 3], [0, 0, 0], 0⟩
    (∃ h : Histogram ℚ, ofRange 3 (-2) 5 = .ok h ∧ h.Ascends) ∧ misled.Ascends ∧
      misled.bucket 5 = 2 ∧ misled.search? 5 6 (.down 0) = some (.found 2) ∧
      ∃ h', [5, -2, 5, 2].foldlM add misled = .ok h' ∧ h'.counts.sum = h'.total := by
  intro misled
  obtain ⟨⟨h, hempty, -, -, hexact, -⟩, hall⟩ :=
    buckets_partition (by decide : 0 < 3) (by decide : (-2 : Int) ≤ 5)
  have hascends : misled.Ascends := ⟨rfl, rfl, by decide, by decide⟩
  obtain ⟨-, hsearch, hadds⟩ := hall misled hascends
  obtain ⟨b, hfinds, hbucket⟩ := hsearch 5 (by decide) (by decide)
  have hb : b = 2 := ((hfinds.owner 2).mp ⟨by decide, by decide, by decide⟩).symm
  obtain ⟨h', hfold, hsum, -⟩ := hadds rfl [5, -2, 5, 2] (by decide)
  refine ⟨⟨h, hempty, hexact⟩, hascends, hb ▸ hbucket, ?_, h', hfold, hsum⟩
  rw [← hb]
  exact hfinds.ends 0 (by decide) 6 (by decide)

end RowStore.Histogram
