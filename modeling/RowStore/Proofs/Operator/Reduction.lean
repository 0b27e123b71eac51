import RowStore.Operator.Grouping
import Mathlib.Algebra.Order.BigOperators.Group.List
import Mathlib.Algebra.Order.Ring.Int

/-!
# RowStore.Proofs.Operator.Reduction: what the values of a group reduce to

`Aggregate.Reduces` says what a reduction is without saying how it is computed: a count, a sum, a
truncated mean, a least or a greatest value.  `Aggregate.reduce_eq_ok_iff` says that this is what
`reduce` computes, and `Aggregate.reduce_eq_error` that it fails in one way only, when there is no
such integer of 32 bits.  A sum is taken from the left, and then not only the sum but every initial
sum has to fit.
-/

namespace RowStore

/-- An integer that fits in 32 bits. -/
def FitsInt32 (n : Int) : Prop :=
  -2147483648 ≤ n ∧ n ≤ 2147483647

instance (n : Int) : Decidable (FitsInt32 n) :=
  inferInstanceAs (Decidable (_ ∧ _))

theorem fitsInt32_toInt (n : Int32) : FitsInt32 n.toInt := by
  have hlow := n.le_toInt
  have hhigh := n.toInt_lt
  unfold FitsInt32
  omega

theorem toInt_ofInt_of_fits {n : Int} (h : FitsInt32 n) : (Int32.ofInt n).toInt = n := by
  unfold FitsInt32 at h
  exact Int32.toInt_ofInt_of_le (by omega) (by omega)

/-- An integer that fits is the one of its 32 bits. -/
theorem ofInt_eq_iff {n : Int} {m : Int32} (h : FitsInt32 n) : Int32.ofInt n = m ↔ m.toInt = n := by
  constructor
  · rintro rfl
    exact toInt_ofInt_of_fits h
  · rintro rfl
    exact Int32.ofInt_toInt m

/-- A list of integers of which every initial sum fits in 32 bits. -/
def InitialSumsFit (ns : List Int) : Prop :=
  ∀ front, front <+: ns → FitsInt32 front.sum

theorem initialSumsFit_nil : InitialSumsFit [] := by
  intro front hfront
  rw [List.prefix_nil] at hfront
  subst hfront
  decide

theorem initialSumsFit_concat_iff {ns : List Int} {n : Int} :
    InitialSumsFit (ns ++ [n]) ↔ InitialSumsFit ns ∧ FitsInt32 (ns ++ [n]).sum := by
  constructor
  · intro h
    exact ⟨fun front hfront => h front (hfront.trans (List.prefix_append ns [n])),
      h _ (List.prefix_refl _)⟩
  · rintro ⟨hns, hall⟩ front hfront
    rcases List.prefix_concat_iff.mp hfront with rfl | hfront
    · exact hall
    · exact hns front hfront

namespace Aggregate

variable {aggregate : Aggregate} {values : List Value} {n : Int32}

/-! ## Integers -/

/-- The integers among the values. -/
def ints (values : List Value) : List Int :=
  values.filterMap fun value => value.int?.map Int32.toInt

/-- All values are integers. -/
def AllInts (values : List Value) : Prop :=
  ∀ value ∈ values, ∃ n, value = .int n

theorem ints_cons (n : Int32) (values : List Value) :
    ints (.int n :: values) = n.toInt :: ints values := rfl

theorem allInts_cons {value : Value} :
    AllInts (value :: values) ↔ (∃ n, value = .int n) ∧ AllInts values :=
  List.forall_mem_cons

theorem length_ints : ∀ {values : List Value}, AllInts values → (ints values).length = values.length
  | [], _ => rfl
  | value :: values, h => by
    obtain ⟨⟨n, rfl⟩, hrest⟩ := allInts_cons.mp h
    rw [ints_cons, List.length_cons, List.length_cons, length_ints hrest]

theorem ints_ne_nil (hints : AllInts values) (hne : values ≠ []) : ints values ≠ [] := by
  rwa [← List.length_pos_iff, length_ints hints, List.length_pos_iff]

theorem fits_of_mem_ints {m : Int} (h : m ∈ ints values) : FitsInt32 m := by
  obtain ⟨value, -, hvalue⟩ := List.mem_filterMap.mp h
  obtain ⟨n, -, rfl⟩ := Option.map_eq_some_iff.mp hvalue
  exact fitsInt32_toInt n

theorem integers_cons (n : Int32) (values : List Value) :
    integers (.int n :: values) = (integers values).map (n.toInt :: ·) := by
  rw [integers]
  cases integers values <;> rfl

theorem sumFrom_cons (total n : Int32) (values : List Value) :
    sumFrom total (.int n :: values) =
      (toInt32? (total.toInt + n.toInt)).bind (sumFrom · values) := by
  rw [sumFrom]
  cases hnext : toInt32? (total.toInt + n.toInt) <;> simp [Value.int?, hnext, Except.bind]

theorem integers_eq : ∀ {values : List Value}, AllInts values → integers values = .ok (ints values)
  | [], _ => rfl
  | value :: values, h => by
    obtain ⟨⟨n, rfl⟩, hrest⟩ := allInts_cons.mp h
    rw [integers_cons, integers_eq hrest, ints_cons]
    rfl

/-! ## Reductions -/

/-- The integer `n` is what the values reduce to. -/
def Reduces (aggregate : Aggregate) (values : List Value) (n : Int) : Prop :=
  match aggregate with
  | .count => n = values.length ∧ FitsInt32 n
  | .sum => n = (ints values).sum ∧ InitialSumsFit (ints values)
  | .average => n = (ints values).sum.tdiv values.length
  | .least => n ∈ ints values ∧ ∀ m ∈ ints values, n ≤ m
  | .greatest => n ∈ ints values ∧ ∀ m ∈ ints values, m ≤ n

/-- Values reduce to one integer at most. -/
theorem Reduces.unique {a b : Int} (ha : aggregate.Reduces values a)
    (hb : aggregate.Reduces values b) : a = b := by
  cases aggregate with
  | count | sum => exact ha.1.trans hb.1.symm
  | average => exact ha.trans hb.symm
  | least => exact Int.le_antisymm (ha.2 b hb.1) (hb.2 a ha.1)
  | greatest => exact Int.le_antisymm (hb.2 a ha.1) (ha.2 b hb.1)

/-! ### Counts and sums -/

theorem toInt32?_eq (m : Int) :
    toInt32? m = if FitsInt32 m then .ok (Int32.ofInt m) else .error .integerOverflow := rfl

theorem toInt32?_eq_ok_iff {m : Int} : toInt32? m = .ok n ↔ FitsInt32 m ∧ n.toInt = m := by
  rw [toInt32?_eq]
  by_cases h : FitsInt32 m
  · rw [if_pos h, Except.ok.injEq, ofInt_eq_iff h]
    simp [h]
  · rw [if_neg h]
    simp [h]

theorem toInt32?_eq_error {m : Int} {e : OperatorError} (h : toInt32? m = .error e) :
    e = .integerOverflow := by
  unfold toInt32? at h
  split_ifs at h
  exact (Except.error.inj h).symm

/-- A sum that starts from a total is told when every total on the way fits. -/
theorem sumFrom_eq_ok_iff : ∀ {values : List Value} {total : Int32}, AllInts values →
    (sumFrom total values = .ok n ↔ n.toInt = total.toInt + (ints values).sum ∧
      ∀ front, front <+: ints values → FitsInt32 (total.toInt + front.sum))
  | [], total, _ => by
    rw [sumFrom, Except.ok.injEq]
    constructor
    · rintro rfl
      refine ⟨by simp [ints], fun front hfront => ?_⟩
      rw [show front = [] from List.prefix_nil.mp hfront, List.sum_nil, Int.add_zero]
      exact fitsInt32_toInt total
    · rintro ⟨hsum, -⟩
      have hsame : n.toInt = total.toInt := by simpa [ints] using hsum
      exact (Int32.toInt_inj.mp hsame).symm
  | value :: values, total, h => by
    obtain ⟨⟨k, rfl⟩, hrest⟩ := allInts_cons.mp h
    have hstart : FitsInt32 (total.toInt + List.sum []) := by simpa using fitsInt32_toInt total
    rw [ints_cons, sumFrom_cons]
    cases hnext : toInt32? (total.toInt + k.toInt) with
    | error e =>
      -- the total already fails to fit after one value
      have hout : ¬ FitsInt32 (total.toInt + k.toInt) := by
        intro hfits
        rw [toInt32?_eq, if_pos hfits] at hnext
        cases hnext
      refine iff_of_false (by simp [Except.bind]) ?_
      rintro ⟨-, hall⟩
      have := hall [k.toInt] ⟨ints values, rfl⟩
      simp only [List.sum_cons, List.sum_nil, Int.add_zero] at this
      exact hout this
    | ok next =>
      obtain ⟨hfits, hvalue⟩ := toInt32?_eq_ok_iff.mp hnext
      show sumFrom next values = _ ↔ _
      rw [sumFrom_eq_ok_iff hrest, hvalue, List.sum_cons, Int.add_assoc]
      refine and_congr_right fun _ => ?_
      constructor
      · intro hall front hfront
        rcases List.prefix_cons_iff.mp hfront with rfl | ⟨rest, rfl, hrest⟩
        · exact hstart
        · rw [List.sum_cons, ← Int.add_assoc]
          exact hall rest hrest
      · intro hall front hfront
        have := hall (k.toInt :: front) (List.cons_prefix_cons.mpr ⟨rfl, hfront⟩)
        rwa [List.sum_cons, ← Int.add_assoc] at this

theorem sumFrom_eq_error : ∀ {values : List Value} {total : Int32} {e : OperatorError},
    AllInts values → sumFrom total values = .error e → e = .integerOverflow
  | [], _, _, _, h => by cases h
  | value :: values, total, e, hints, h => by
    obtain ⟨⟨k, rfl⟩, hrest⟩ := allInts_cons.mp hints
    rw [sumFrom_cons] at h
    cases hnext : toInt32? (total.toInt + k.toInt) with
    | error cause =>
      rw [hnext] at h
      exact Except.error.inj h ▸ toInt32?_eq_error hnext
    | ok next =>
      rw [hnext] at h
      exact sumFrom_eq_error hrest h

/-! ### Means -/

/-- The truncated mean of integers lies between them. -/
theorem mean_between {ns : List Int} {low high : Int} (hne : ns ≠ [])
    (h : ∀ n ∈ ns, low ≤ n ∧ n ≤ high) :
    low ≤ ns.sum.tdiv ns.length ∧ ns.sum.tdiv ns.length ≤ high := by
  have hpos : 0 < (ns.length : Int) := by
    have := List.length_pos_iff.mpr hne
    omega
  have hlow := List.card_nsmul_le_sum ns low fun n hn => (h n hn).1
  have hhigh := List.sum_le_card_nsmul ns high fun n hn => (h n hn).2
  rw [nsmul_eq_mul, Int.mul_comm] at hlow hhigh
  constructor
  · exact Int.le_tdiv_of_mul_le hpos hlow
  · -- a quotient is cut toward zero, so the bound from above is one from below for its negation
    have hneg : -high * ns.length ≤ -ns.sum := by
      rw [Int.neg_mul]
      exact Int.neg_le_neg hhigh
    have := Int.le_tdiv_of_mul_le hpos hneg
    rw [Int.neg_tdiv] at this
    omega

/-- The truncated mean of integers that fit fits. -/
theorem fits_mean {ns : List Int} (hne : ns ≠ []) (h : ∀ n ∈ ns, FitsInt32 n) :
    FitsInt32 (ns.sum.tdiv ns.length) :=
  mean_between hne h

/-! ### Least and greatest values -/

section Extreme

variable {pick : Int → Int → Int} (better : Int → Int → Prop)
  (hpick : ∀ a b, pick a b = a ∨ pick a b = b)
  (hbetter : ∀ a b, better (pick a b) a ∧ better (pick a b) b)
  (htrans : ∀ {a b c}, better a b → better b c → better a c)
include hpick hbetter htrans

/-- Picking the better of two integers again and again leaves one that is better than all. -/
theorem foldl_pick (ns : List Int) (n : Int) :
    ns.foldl pick n ∈ n :: ns ∧ ∀ m ∈ n :: ns, better (ns.foldl pick n) m := by
  induction ns generalizing n with
  | nil =>
    refine ⟨List.mem_cons_self, fun m hm => ?_⟩
    obtain rfl : m = n := by simpa using hm
    have hself := (hbetter m m).1
    rcases hpick m m with heq | heq <;> rwa [heq] at hself
  | cons k ns ih =>
    obtain ⟨hmem, hbest⟩ := ih (pick n k)
    have hpicked := hbest _ List.mem_cons_self
    rw [List.foldl_cons]
    constructor
    · rcases List.mem_cons.mp hmem with heq | hrest
      · rw [heq]
        rcases hpick n k with h | h
        · simp [h]
        · simp [h]
      · exact List.mem_cons_of_mem _ (List.mem_cons_of_mem _ hrest)
    · intro m hm
      rcases List.mem_cons.mp hm with rfl | hm
      · exact htrans hpicked (hbetter m k).1
      · rcases List.mem_cons.mp hm with rfl | hm
        · exact htrans hpicked (hbetter n m).2
        · exact hbest m (List.mem_cons_of_mem _ hm)

/-- The integer that is picked is the one among them that is better than all. -/
theorem ofInt_foldl_pick_iff (hantisymm : ∀ {a b}, better a b → better b a → a = b)
    {ns : List Int} {m : Int} (hfits : ∀ k ∈ m :: ns, FitsInt32 k) :
    Int32.ofInt (ns.foldl pick m) = n ↔
      n.toInt ∈ m :: ns ∧ ∀ k ∈ m :: ns, better n.toInt k := by
  obtain ⟨hmem, hbest⟩ := foldl_pick better hpick hbetter htrans ns m
  rw [ofInt_eq_iff (hfits _ hmem)]
  constructor
  · intro hn
    rw [hn]
    exact ⟨hmem, hbest⟩
  · rintro ⟨hmem', hbest'⟩
    exact hantisymm (hbest' _ hmem) (hbest _ hmem')

end Extreme

/-! ### All reductions -/

/-- The values an aggregate is asked to reduce: some, and integers unless they are only counted. -/
structure Reducible (aggregate : Aggregate) (values : List Value) : Prop where
  nonempty : values ≠ []
  ints : aggregate ≠ .count → AllInts values

/-- What is computed is the reduction. -/
theorem reduce_eq_ok_iff (h : aggregate.Reducible values) :
    aggregate.reduce values = .ok n ↔ aggregate.Reduces values n.toInt := by
  by_cases hcount : aggregate = .count
  · subst hcount
    show toInt32? values.length = .ok n ↔ n.toInt = values.length ∧ FitsInt32 n.toInt
    rw [toInt32?_eq_ok_iff, and_comm]
    refine and_congr_right fun hn => ?_
    rw [hn]
  have hints := h.ints hcount
  obtain ⟨m, ns, hns⟩ := List.exists_cons_of_ne_nil (ints_ne_nil hints h.nonempty)
  have hfits : ∀ k ∈ m :: ns, FitsInt32 k := fun k hk => fits_of_mem_ints (hns ▸ hk)
  cases aggregate with
  | count => exact absurd rfl hcount
  | sum =>
    show sumFrom 0 values = .ok n ↔ _ ∧ _
    rw [sumFrom_eq_ok_iff hints]
    simp only [Int32.toInt_zero, Int.zero_add, InitialSumsFit]
  | average =>
    unfold reduce Reduces
    dsimp only
    rw [integers_eq hints, ← length_ints hints, hns]
    show Except.ok (Int32.ofInt ((m :: ns).sum.tdiv _)) = _ ↔ _
    rw [Except.ok.injEq, ofInt_eq_iff (fits_mean (List.cons_ne_nil m ns) hfits)]
  | least =>
    unfold reduce Reduces
    rw [integers_eq hints, hns]
    show Except.ok (Int32.ofInt (ns.foldl min m)) = _ ↔ _
    rw [Except.ok.injEq]
    exact ofInt_foldl_pick_iff (· ≤ ·) (fun a b => by omega) (fun a b => by omega) Int.le_trans
      Int.le_antisymm hfits
  | greatest =>
    unfold reduce Reduces
    rw [integers_eq hints, hns]
    show Except.ok (Int32.ofInt (ns.foldl max m)) = _ ↔ _
    rw [Except.ok.injEq]
    exact ofInt_foldl_pick_iff (· ≥ ·) (fun a b => by omega) (fun a b => by omega)
      (fun h h' => Int.le_trans h' h) (fun h h' => Int.le_antisymm h' h) hfits

/-- A reduction that fails does so because the integer does not fit. -/
theorem reduce_eq_error {e : OperatorError} (h : aggregate.Reducible values)
    (herror : aggregate.reduce values = .error e) : e = .integerOverflow := by
  by_cases hcount : aggregate = .count
  · subst hcount
    exact toInt32?_eq_error herror
  have hints := h.ints hcount
  cases aggregate with
  | count => exact absurd rfl hcount
  | sum => exact sumFrom_eq_error hints herror
  | average =>
    unfold reduce at herror
    simp [integers_eq hints] at herror
  | least | greatest =>
    unfold reduce at herror
    dsimp only at herror
    rw [integers_eq hints] at herror
    cases hns : Aggregate.ints values with
    | nil =>
      rw [hns] at herror
      exact (Except.error.inj herror).symm
    | cons m ns =>
      rw [hns] at herror
      cases herror

/-- Only a count or a sum can be too large. -/
theorem exists_reduce (h : aggregate.Reducible values) (hcount : aggregate ≠ .count)
    (hsum : aggregate ≠ .sum) : ∃ n, aggregate.reduce values = .ok n := by
  have hints := h.ints hcount
  obtain ⟨m, ns, hns⟩ := List.exists_cons_of_ne_nil (ints_ne_nil hints h.nonempty)
  unfold reduce
  rw [integers_eq hints, hns]
  cases aggregate with
  | count => exact absurd rfl hcount
  | sum => exact absurd rfl hsum
  | average | least | greatest => exact ⟨_, rfl⟩

theorem allInts_of_integers : ∀ {values : List Value} {ns : List Int},
    integers values = .ok ns → AllInts values
  | [], _, _ => fun value hvalue => absurd hvalue List.not_mem_nil
  | .text s :: values, _, h => by cases h
  | .int n :: values, ns, h => by
    rw [integers_cons] at h
    cases hrest : integers values with
    | error e =>
      rw [hrest] at h
      cases h
    | ok rest => exact allInts_cons.mpr ⟨⟨n, rfl⟩, allInts_of_integers hrest⟩

theorem allInts_of_sumFrom : ∀ {values : List Value} {total n : Int32},
    sumFrom total values = .ok n → AllInts values
  | [], _, _, _ => fun value hvalue => absurd hvalue List.not_mem_nil
  | .text s :: values, _, _, h => by cases h
  | .int k :: values, total, n, h => by
    rw [sumFrom_cons] at h
    cases hnext : toInt32? (total.toInt + k.toInt) with
    | error e =>
      rw [hnext] at h
      cases h
    | ok next =>
      rw [hnext] at h
      exact allInts_cons.mpr ⟨⟨k, rfl⟩, allInts_of_sumFrom h⟩

/-- Whatever is reduced is what the aggregate is defined on. -/
theorem reduces_of_reduce {n : Int32} (hne : values ≠ []) (h : aggregate.reduce values = .ok n) :
    aggregate.Reduces values n.toInt := by
  refine (reduce_eq_ok_iff ⟨hne, fun hcount => ?_⟩).mp h
  cases aggregate with
  | count => exact absurd rfl hcount
  | sum => exact allInts_of_sumFrom h
  | average | least | greatest =>
    unfold reduce at h
    cases hints : integers values with
    | error e => simp [hints] at h
    | ok ns => exact allInts_of_integers hints

end Aggregate

end RowStore
