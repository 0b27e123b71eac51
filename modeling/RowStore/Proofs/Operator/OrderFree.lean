import RowStore.Proofs.Operator.GroupBy
import Mathlib.Algebra.BigOperators.Group.List.Basic

/-!
# RowStore.Proofs.Operator.OrderFree: results against the order of the rows

Counts, means, least and greatest values are the same in whatever order rows come.  A sum is taken
from the left in 32 bits, so an order can fail although the sum fits: `exists_perm_overflows` puts
the values of one side of zero first.  When sums fit there is always an order that does not fail
(`exists_perm_fits`), and no order fails when each side of zero fits by itself
(`SidesFit.initialSumsFit`).  `Grouping.order_free_iff` puts the three together.
-/

namespace RowStore

/-! ## Integers on both sides of zero -/

/-- The sum of the positive integers. -/
def gains (ns : List Int) : Int :=
  (ns.filter (0 < ·)).sum

/-- The sum of the negative integers. -/
def losses (ns : List Int) : Int :=
  (ns.filter (· < 0)).sum

/-- The positive integers and the negative ones each have a sum that fits in 32 bits. -/
def SidesFit (ns : List Int) : Prop :=
  FitsInt32 (gains ns) ∧ FitsInt32 (losses ns)

instance (ns : List Int) : Decidable (SidesFit ns) :=
  inferInstanceAs (Decidable (_ ∧ _))

theorem gains_cons (n : Int) (ns : List Int) : gains (n :: ns) = max n 0 + gains ns := by
  unfold gains
  by_cases h : 0 < n
  · rw [List.filter_cons_of_pos (by simpa using h), List.sum_cons]
    omega
  · rw [List.filter_cons_of_neg (by simpa using h)]
    omega

theorem losses_cons (n : Int) (ns : List Int) : losses (n :: ns) = min n 0 + losses ns := by
  unfold losses
  by_cases h : n < 0
  · rw [List.filter_cons_of_pos (by simpa using h), List.sum_cons]
    omega
  · rw [List.filter_cons_of_neg (by simpa using h)]
    omega

/-- Some of the integers sum to no less than the losses and to no more than the gains. -/
theorem sum_between {some ns : List Int} (h : some.Sublist ns) :
    losses ns ≤ some.sum ∧ some.sum ≤ gains ns := by
  induction h with
  | slnil => exact ⟨le_refl _, le_refl _⟩
  | cons n h ih =>
    rw [gains_cons, losses_cons]
    omega
  | cons_cons n h ih =>
    rw [gains_cons, losses_cons, List.sum_cons]
    omega

theorem SidesFit.initialSumsFit {ns : List Int} (h : SidesFit ns) : InitialSumsFit ns := by
  intro front hfront
  obtain ⟨hlow, hhigh⟩ := sum_between hfront.sublist
  exact ⟨h.2.1.trans hlow, hhigh.trans h.1.2⟩

theorem SidesFit.perm {ns ms : List Int} (hperm : ns.Perm ms) (h : SidesFit ns) : SidesFit ms := by
  unfold SidesFit gains losses at *
  rwa [← (hperm.filter _).sum_eq, ← (hperm.filter _).sum_eq]

theorem InitialSumsFit.sum {ns : List Int} (h : InitialSumsFit ns) : FitsInt32 ns.sum :=
  h ns (List.prefix_refl ns)

/-- One of the integers can be left out of a sum that fits. -/
theorem exists_fits_without {ns : List Int} (hne : ns ≠ []) (h : FitsInt32 ns.sum)
    (hns : ∀ n ∈ ns, FitsInt32 n) : ∃ n ∈ ns, FitsInt32 (ns.sum - n) := by
  -- one on the side of the sum: what is left lies between the sum and its opposite
  have hside : ∃ n ∈ ns, 0 ≤ ns.sum ∧ 0 ≤ n ∨ ns.sum < 0 ∧ n < 0 := by
    by_contra hnone
    push Not at hnone
    by_cases hsum : 0 ≤ ns.sum
    · have hneg := List.sum_lt_sum_of_ne_nil hne id (fun _ => 0) fun n hn => (hnone n hn).1 hsum
      simp at hneg
      omega
    · have hpos := List.sum_nonneg fun n hn => (hnone n hn).2 (by omega)
      omega
  obtain ⟨n, hn, hside⟩ := hside
  refine ⟨n, hn, ?_⟩
  have hfits := hns n hn
  unfold FitsInt32 at *
  omega

namespace Aggregate

/-- The reduction of values does not depend on their order, but for a sum, which has to fit on the
way as well. -/
theorem reduces_congr {aggregate : Aggregate} {values more : List Value} {n : Int}
    (hperm : values.Perm more)
    (hsum : aggregate = .sum → (InitialSumsFit (ints values) ↔ InitialSumsFit (ints more))) :
    aggregate.Reduces values n ↔ aggregate.Reduces more n := by
  have hints : (ints values).Perm (ints more) := hperm.filterMap _
  unfold Reduces
  cases aggregate with
  | count => simp only [hperm.length_eq]
  | sum => simp only [hints.sum_eq, hsum rfl]
  | average => simp only [hints.sum_eq, hperm.length_eq]
  | least | greatest => simp only [hints.mem_iff]

end Aggregate

namespace Grouping

open Aggregate

variable {g : Grouping} {row : Row} {rows rows' : List Row} {key : Option Value}

/-! ## The integers under a key -/

/-- The integers that are collected under a key. -/
def intsOf (g : Grouping) (rows : List Row) (key : Option Value) : List Int :=
  ints (g.valuesOf rows key)

/-- The integer that is collected from a row. -/
def int? (g : Grouping) (row : Row) : Option Int :=
  row.values[g.column]?.bind fun value => value.int?.map Int32.toInt

theorem intsOf_eq : g.intsOf rows key =
    (rows.filter fun row => g.keyIn row = key).filterMap g.int? := by
  rw [intsOf, valuesOf, ints, List.filterMap_filterMap]
  rfl

theorem intsOf_append : g.intsOf (rows ++ rows') key = g.intsOf rows key ++ g.intsOf rows' key := by
  simp only [intsOf_eq, List.filter_append, List.filterMap_append]

theorem intsOf_singleton {n : Int} (hn : g.int? row = some n) :
    g.intsOf [row] key = if g.keyIn row = key then [n] else [] := by
  rw [intsOf_eq]
  by_cases hkey : g.keyIn row = key <;> simp [hkey, hn]

theorem intsOf_eq_nil (h : key ∉ g.keysOf rows) : g.intsOf rows key = [] := by
  rw [intsOf, valuesOf_eq_nil h]
  rfl

theorem mem_intsOf {n : Int} :
    n ∈ g.intsOf rows key ↔ ∃ row ∈ rows, g.keyIn row = key ∧ g.int? row = some n := by
  rw [intsOf_eq, List.mem_filterMap]
  simp only [List.mem_filter, decide_eq_true_eq, and_assoc]

theorem keysOf_perm (hperm : rows.Perm rows') : (g.keysOf rows).Perm (g.keysOf rows') := by
  rw [List.perm_ext_iff_of_nodup nodup_keysOf nodup_keysOf]
  intro key
  simp only [mem_keysOf, hperm.mem_iff]

theorem valuesOf_perm (hperm : rows.Perm rows') :
    (g.valuesOf rows key).Perm (g.valuesOf rows' key) :=
  (hperm.filter _).filterMap _

theorem intsOf_perm (hperm : rows.Perm rows') : (g.intsOf rows key).Perm (g.intsOf rows' key) :=
  (valuesOf_perm hperm).filterMap _

theorem takes_perm (hperm : rows'.Perm rows) (h : ∀ row ∈ rows, g.Takes row) :
    ∀ row ∈ rows', g.Takes row := by
  intro row hrow
  exact h row (hperm.mem_iff.mp hrow)

theorem Takes.int? (h : g.Takes row) (hcount : g.aggregate ≠ .count) :
    ∃ n, g.int? row = some n := by
  obtain ⟨value, hvalue, hint⟩ := h.value
  obtain ⟨n, rfl⟩ := hint hcount
  refine ⟨n.toInt, ?_⟩
  rw [Grouping.int?, hvalue]
  rfl

/-! ## Orders that fail and orders that do not -/

/-- When one side of zero does not fit, the sum under the key fails once the rows of that side come
first. -/
theorem exists_perm_overflows (h : ¬ SidesFit (g.intsOf rows key)) :
    ∃ rows', rows'.Perm rows ∧ ¬ InitialSumsFit (g.intsOf rows' key) := by
  have hside : ∃ side : Int → Bool, ¬ FitsInt32 ((g.intsOf rows key).filter side).sum := by
    by_contra hnone
    push Not at hnone
    exact h ⟨hnone _, hnone _⟩
  obtain ⟨side, hside⟩ := hside
  let first (row : Row) : Bool := (g.int? row).any side
  refine ⟨rows.filter first ++ rows.filter (!first ·), List.filter_append_perm _ _, fun hfits => ?_⟩
  have hfront : g.intsOf (rows.filter first) key = (g.intsOf rows key).filter side := by
    rw [intsOf_eq, intsOf_eq, List.filter_comm, List.filter_filterMap, List.filterMap_filter]
    refine List.filterMap_congr fun row _ => ?_
    cases hn : g.int? row <;> simp [first, hn, Option.filter]
  rw [intsOf_append, hfront] at hfits
  exact hside (hfits _ (List.prefix_append _ _))

/-- When the sums fit, some row can be left to the end: the sums of the others fit as well. -/
theorem exists_last (hcount : g.aggregate ≠ .count) (hrows : ∀ row ∈ rows, g.Takes row)
    (hne : rows ≠ []) (h : ∀ key, FitsInt32 (g.intsOf rows key).sum) :
    ∃ rest last n, rows.Perm (rest ++ [last]) ∧ g.int? last = some n ∧
      ∀ key, FitsInt32 (g.intsOf rest key).sum := by
  obtain ⟨first, hfirst⟩ := List.exists_mem_of_ne_nil rows hne
  obtain ⟨m, hm⟩ := (hrows first hfirst).int? hcount
  have hcollected : g.intsOf rows (g.keyIn first) ≠ [] :=
    List.ne_nil_of_mem (mem_intsOf.mpr ⟨first, hfirst, rfl, hm⟩)
  obtain ⟨n, hn, hwithout⟩ := exists_fits_without hcollected (h _) fun n => fits_of_mem_ints
  obtain ⟨last, hlast, hkey, hlastInt⟩ := mem_intsOf.mp hn
  have hperm : rows.Perm (rows.erase last ++ [last]) :=
    (List.perm_cons_erase hlast).trans (List.perm_append_singleton _ _).symm
  refine ⟨rows.erase last, last, n, hperm, hlastInt, fun key => ?_⟩
  have hsum : (g.intsOf rows key).sum =
      (g.intsOf (rows.erase last) key).sum + (g.intsOf [last] key).sum := by
    rw [(intsOf_perm hperm).sum_eq, intsOf_append, List.sum_append]
  rw [intsOf_singleton hlastInt] at hsum
  by_cases heq : g.keyIn last = key
  · rw [if_pos heq, List.sum_singleton] at hsum
    rw [← hkey, heq] at hwithout
    rwa [← Int.sub_eq_iff_eq_add.mpr hsum]
  · rw [if_neg heq, List.sum_nil, Int.add_zero] at hsum
    rw [← hsum]
    exact h key

/-- When the sums fit there is an order in which they are told. -/
theorem exists_perm_fits (hcount : g.aggregate ≠ .count) (hrows : ∀ row ∈ rows, g.Takes row)
    (h : ∀ key, FitsInt32 (g.intsOf rows key).sum) :
    ∃ rows', rows'.Perm rows ∧ ∀ key, InitialSumsFit (g.intsOf rows' key) := by
  -- by induction on how many rows there are, since a row that is left out can come from anywhere
  induction hlength : rows.length generalizing rows with
  | zero =>
    obtain rfl := List.length_eq_zero_iff.mp hlength
    exact ⟨[], .refl _, fun _ => initialSumsFit_nil⟩
  | succ length ih =>
    have hne : rows ≠ [] := List.ne_nil_of_length_eq_add_one hlength
    obtain ⟨rest, last, n, hperm, hn, hrest⟩ := exists_last hcount hrows hne h
    have hrestRows : ∀ row ∈ rest, g.Takes row := fun row hrow =>
      hrows row (hperm.mem_iff.mpr (List.mem_append_left _ hrow))
    have hrestLength : rest.length = length := by
      simpa [hlength] using hperm.length_eq.symm
    obtain ⟨rest', hrest', hfits⟩ := ih hrestRows hrest hrestLength
    have hall : (rest' ++ [last]).Perm rows := (hrest'.append_right _).trans hperm.symm
    refine ⟨rest' ++ [last], hall, fun key => ?_⟩
    have htotal : FitsInt32 (g.intsOf (rest' ++ [last]) key).sum := by
      rw [(intsOf_perm hall).sum_eq]
      exact h key
    rw [intsOf_append, intsOf_singleton hn] at htotal ⊢
    by_cases heq : g.keyIn last = key
    · rw [if_pos heq] at htotal ⊢
      exact initialSumsFit_concat_iff.mpr ⟨hfits key, htotal⟩
    · rw [if_neg heq, List.append_nil]
      exact hfits key

/-! ## Results -/

/-- Results that are the same rows in some order, or fail alike. -/
def SameRows : Except OperatorError (List Row) → Except OperatorError (List Row) → Prop
  | .ok rows, .ok rows' => rows.Perm rows'
  | .error e, .error e' => e = e'
  | _, _ => False

theorem SameRows.error_iff {out out' : Except OperatorError (List Row)} {e : OperatorError}
    (h : SameRows out out') : out = .error e ↔ out' = .error e := by
  cases out with
  | error => cases out' with
    | error => rw [show _ = _ from h]
    | ok => exact h.elim
  | ok => cases out' with
    | error => exact h.elim
    | ok => simp

section Fed

variable {input : Schema} {groupBy : Option Nat} {column : Nat} {aggregate : Aggregate}
  (hg : ofSchema input groupBy column aggregate = .ok g)
include hg

/-- Rows in another order have the same results when every key has. -/
theorem sameRows_fed (hperm : rows'.Perm rows) (hrows : ∀ row ∈ rows, g.Takes row)
    (hresult : ∀ key row, g.IsResult rows' key row ↔ g.IsResult rows key row) :
    SameRows (g.fed rows') (g.fed rows) := by
  have hrows' := takes_perm hperm hrows
  obtain ⟨hok', herror'⟩ := resultsOf_groupsOf hrows'
  obtain ⟨hok, herror⟩ := resultsOf_groupsOf hrows
  rw [fed_eq hg hrows', fed_eq hg hrows]
  cases hout : g.resultsOf (g.groupsOf rows') with
  | error e =>
    have hsame : g.resultsOf (g.groupsOf rows) = .error e := by
      rw [herror]
      have hfails := (herror' e).mp hout
      simpa only [(keysOf_perm hperm).mem_iff, hresult] using hfails
    rw [hsame]
    rfl
  | ok out =>
    have hresults : List.Forall₂ (g.IsResult rows) (g.keysOf rows') out :=
      ((hok' out).mp hout).imp fun key row => (hresult key row).mp
    obtain ⟨out', hout', hout'Perm⟩ := List.perm_comp_forall₂ (keysOf_perm hperm).symm hresults
    rw [(hok out').mpr hout']
    exact hout'Perm.symm

/-- A sum fails when some initial sum under some key does not fit. -/
theorem fed_eq_error_iff (hsum : g.aggregate = .sum) (hrows : ∀ row ∈ rows, g.Takes row) :
    g.fed rows = .error .integerOverflow ↔
      ∃ key ∈ g.keysOf rows, ¬ InitialSumsFit (g.intsOf rows key) := by
  rw [fed_eq hg hrows, (resultsOf_groupsOf hrows).2]
  have hresult : ∀ key, (∀ row, ¬ g.IsResult rows key row) ↔
      ¬ InitialSumsFit (g.intsOf rows key) := by
    intro key
    simp only [IsResult, hsum, Reduces]
    constructor
    · intro hnone hfits
      exact hnone _ ⟨_, ⟨toInt_ofInt_of_fits hfits.sum, hfits⟩, rfl⟩
    · rintro hnot row ⟨n, ⟨-, hfits⟩, -⟩
      exact hnot hfits
  simp only [hresult, true_and]

end Fed

/-- The exact sum under a key. -/
def total (g : Grouping) (rows : List Row) (key : Option Value) : Int :=
  (g.intsOf rows key).sum

/-- The rows have the same results in every order: no sums are taken, or some sum does not fit in
any order, or under every key each side of zero fits by itself. -/
def OrderFree (g : Grouping) (rows : List Row) : Prop :=
  g.aggregate = .sum → (∃ key ∈ g.keysOf rows, ¬ FitsInt32 (g.total rows key)) ∨
    ∀ key ∈ g.keysOf rows, SidesFit (g.intsOf rows key)

instance (g : Grouping) (rows : List Row) : Decidable (g.OrderFree rows) :=
  inferInstanceAs (Decidable (_ → _))

/-- Under a key that no row has nothing is collected, and the sum is zero. -/
theorem fits_total (h : ∀ key ∈ g.keysOf rows, FitsInt32 (g.total rows key)) (key : Option Value) :
    FitsInt32 (g.total rows key) := by
  by_cases hkey : key ∈ g.keysOf rows
  · exact h key hkey
  · rw [total, intsOf_eq_nil hkey]
    decide

section Fed

variable {input : Schema} {groupBy : Option Nat} {column : Nat} {aggregate : Aggregate}
  (hg : ofSchema input groupBy column aggregate = .ok g) (hrows : ∀ row ∈ rows, g.Takes row)
include hg hrows

/-- Otherwise a sum fails in some order and is told in another, though all exact sums fit. -/
theorem perms_of_not_orderFree (h : ¬ g.OrderFree rows) :
    g.aggregate = .sum ∧ (¬ ∃ key ∈ g.keysOf rows, ¬ FitsInt32 (g.total rows key)) ∧
      (∃ rows', rows'.Perm rows ∧ g.fed rows' = .error .integerOverflow) ∧
      ∃ rows', rows'.Perm rows ∧ g.fed rows' ≠ .error .integerOverflow := by
  unfold OrderFree at h
  push Not at h
  obtain ⟨hsum, hfits, key, hkey, hsides⟩ := h
  refine ⟨hsum, by push Not; exact hfits, ?_, ?_⟩
  · obtain ⟨rows', hperm, hover⟩ := exists_perm_overflows hsides
    refine ⟨rows', hperm, (fed_eq_error_iff hg hsum (takes_perm hperm hrows)).mpr ⟨key, ?_, hover⟩⟩
    exact (keysOf_perm hperm).mem_iff.mpr hkey
  · have hcount : g.aggregate ≠ .count := by rw [hsum]; decide
    obtain ⟨rows', hperm, hall⟩ := exists_perm_fits hcount hrows (fits_total hfits)
    refine ⟨rows', hperm, fun herror => ?_⟩
    obtain ⟨key, -, hnot⟩ := (fed_eq_error_iff hg hsum (takes_perm hperm hrows)).mp herror
    exact hnot (hall key)

/-- In every order a sum then fails when some exact sum does not fit. -/
theorem OrderFree.fed_eq_error_iff (h : g.OrderFree rows) (hsum : g.aggregate = .sum)
    (hperm : rows'.Perm rows) : g.fed rows' = .error .integerOverflow ↔
      ∃ key ∈ g.keysOf rows, ¬ FitsInt32 (g.total rows key) := by
  rw [Grouping.fed_eq_error_iff hg hsum (takes_perm hperm hrows)]
  constructor
  · rintro ⟨key, hkey, hnot⟩
    rcases h hsum with hover | hsides
    · exact hover
    · have hkeyIn := (keysOf_perm hperm).mem_iff.mp hkey
      exact absurd ((hsides key hkeyIn).perm (intsOf_perm hperm).symm).initialSumsFit hnot
  · rintro ⟨key, hkey, hover⟩
    refine ⟨key, (keysOf_perm hperm).mem_iff.mpr hkey, fun hfits => hover ?_⟩
    rw [total, ← (intsOf_perm hperm).sum_eq]
    exact hfits.sum

/-- And the results are then the same. -/
theorem OrderFree.sameRows (h : g.OrderFree rows) (hperm : rows'.Perm rows) :
    SameRows (g.fed rows') (g.fed rows) := by
  by_cases hover : g.aggregate = .sum ∧ ∃ key ∈ g.keysOf rows, ¬ FitsInt32 (g.total rows key)
  · obtain ⟨hsum, hover⟩ := hover
    rw [(h.fed_eq_error_iff hg hrows hsum hperm).mpr hover,
      (h.fed_eq_error_iff hg hrows hsum (.refl rows)).mpr hover]
    rfl
  · -- every key has the same reduction in both orders
    refine sameRows_fed hg hperm hrows fun key row => ?_
    have hfits : g.aggregate = .sum →
        (InitialSumsFit (g.intsOf rows' key) ↔ InitialSumsFit (g.intsOf rows key)) := by
      intro hsum
      have hsides : SidesFit (g.intsOf rows key) := by
        by_cases hkey : key ∈ g.keysOf rows
        · exact (h hsum).resolve_left (fun h => hover ⟨hsum, h⟩) key hkey
        · rw [intsOf_eq_nil hkey]
          decide
      have hsides' := hsides.perm (intsOf_perm hperm).symm
      exact iff_of_true hsides'.initialSumsFit hsides.initialSumsFit
    unfold IsResult
    simp only [reduces_congr (valuesOf_perm hperm) hfits]

end Fed

/-- A grouping that is fed rows of its schema in any order fails alike and has the same results up
to their order, exactly when it takes no sums, or some exact sum does not fit, or under every key
the positive integers and the negative ones fit by themselves; and this is also exactly when a sum,
in whatever order, fails because some exact sum does not fit and for no other reason. -/
theorem order_free_iff {input : Schema} {groupBy : Option Nat} {column : Nat}
    {aggregate : Aggregate}
    (hg : ofSchema input groupBy column aggregate = .ok g)
    (hrows : ∀ row ∈ rows, row.WellTyped ∧ row.schema.Agrees input) :
    ((∀ rows', rows'.Perm rows → SameRows (g.fed rows') (g.fed rows)) ↔ g.OrderFree rows) ∧
    (aggregate = .sum →
      ((∀ rows', rows'.Perm rows → (g.fed rows' = .error .integerOverflow ↔
        ∃ key ∈ g.keysOf rows, ¬ FitsInt32 (g.total rows key))) ↔ g.OrderFree rows)) := by
  have htakes : ∀ row ∈ rows, g.Takes row := fun row hrow =>
    takes_of_wellTyped hg (hrows row hrow).1 (hrows row hrow).2
  refine ⟨⟨fun hsame => ?_, fun h rows' hperm => h.sameRows hg htakes hperm⟩,
    fun haggregate => ⟨fun hfails => ?_, fun h rows' hperm => ?_⟩⟩
  · by_contra hnot
    obtain ⟨-, -, ⟨bad, hbad, herror⟩, good, hgood, hok⟩ := perms_of_not_orderFree hg htakes hnot
    have hfails := (hsame bad hbad).error_iff.mp herror
    exact hok ((hsame good hgood).error_iff.mpr hfails)
  · by_contra hnot
    obtain ⟨-, hfits, ⟨bad, hbad, herror⟩, -⟩ := perms_of_not_orderFree hg htakes hnot
    exact hfits ((hfails bad hbad).mp herror)
  · exact h.fed_eq_error_iff hg htakes ((ofSchema_eq_ok hg).1.2.2.trans haggregate) hperm

/-- Sales of which neither the prices nor what was given back come near the bounds have the same
sums in every order. -/
theorem order_free_revenue :
    let rows := [Sample.sale "pen" 10, Sample.sale "ink" 20, Sample.sale "pen" (-4)]
    (∀ rows', rows'.Perm rows →
      SameRows (Sample.revenue.fed rows') (Sample.revenue.fed rows)) ∧
    ∀ rows', rows'.Perm rows → (Sample.revenue.fed rows' = .error .integerOverflow ↔
      ∃ key ∈ Sample.revenue.keysOf rows, ¬ FitsInt32 (Sample.revenue.total rows key)) := by
  intro rows
  have hrows : ∀ row ∈ rows, row.WellTyped ∧ row.schema.Agrees Sample.sales := by
    intro row hrow
    simp only [rows, List.mem_cons, List.not_mem_nil, or_false] at hrow
    rcases hrow with rfl | rfl | rfl <;> exact Sample.sale_fits _ _
  have hfree : Sample.revenue.OrderFree rows := by decide +kernel
  obtain ⟨hsame, hfails⟩ := order_free_iff Sample.revenue_eq hrows
  exact ⟨hsame.mpr hfree, (hfails rfl).mpr hfree⟩

end Grouping

namespace Sample

/-- One integer in every row. -/
def numbers : Schema := ⟨[⟨.int, none⟩], by decide⟩

def number (n : Int32) : Row := ⟨numbers, [.int n], none⟩

/-- Their sum. -/
def sum : Grouping where
  groupBy := none
  column := 0
  aggregate := .sum
  schema := ⟨[⟨.int, some "sum(null)"⟩], by decide⟩
  groups := []
  computed := none

end Sample

namespace Grouping

/-- The same three integers, of which the sum is the greatest that fits, have no sum when the
positive ones come first. -/
theorem sum_depends_on_order :
    let rows := [2147483647, 1, -1].map Sample.number
    let rows' := [2147483647, -1, 1].map Sample.number
    ofSchema Sample.numbers none 0 .sum = .ok Sample.sum ∧
    (∀ row ∈ rows, row.WellTyped ∧ row.schema.Agrees Sample.numbers) ∧ rows'.Perm rows ∧
    Sample.sum.fed rows = .error .integerOverflow ∧
    Sample.sum.fed rows' = .ok [⟨Sample.sum.schema, [.int 2147483647], none⟩] ∧
    ¬ SameRows (Sample.sum.fed rows') (Sample.sum.fed rows) ∧
    ∀ key ∈ Sample.sum.keysOf rows, FitsInt32 (Sample.sum.total rows key) := by
  intro rows rows'
  have hrows : ∀ row ∈ rows, row.WellTyped ∧ row.schema.Agrees Sample.numbers := by
    intro row hrow
    obtain ⟨n, -, rfl⟩ := List.mem_map.mp hrow
    exact ⟨⟨rfl, by simp [Sample.number, Sample.numbers, Schema.types, ColumnType.accepts]⟩, rfl⟩
  have hfails : Sample.sum.fed rows = .error .integerOverflow := by decide +kernel
  have htold : Sample.sum.fed rows' = .ok [⟨Sample.sum.schema, [.int 2147483647], none⟩] := by
    decide +kernel
  refine ⟨by decide +kernel, hrows, by decide +kernel, hfails, htold, ?_, by decide +kernel⟩
  rw [hfails, htold]
  exact id

end Grouping

end RowStore
