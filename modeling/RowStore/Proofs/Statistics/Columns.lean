import RowStore.Statistics
import RowStore.Proofs.Histogram.Recording
import RowStore.Proofs.Row

/-!
# RowStore.Proofs.Statistics.Columns: rows one by one, columns one by one

Both passes over a table go through its rows and do something with each column of a row
(`extendColumns`).  What becomes of a column depends on the values of that column alone
(`foldlM_extendColumns_cons`).  So the bounds of an integer column are its least and its greatest
value, and as its histogram is made for these bounds, none of the values is moved to an end of the
range (`ColumnHistogram.Summarizes`).
-/

namespace RowStore

variable {α β : Type} {rows : List Row} {index requested : Nat} {type : ColumnType}
  {values : List Value}

/-! ## One column of many -/

/-- What becomes of the columns from `index` on with one more row, when `step` says what becomes of
a single column. -/
def extendColumns (step : Nat → β → Value → Except StatisticsError β) (row : Row) :
    (index : Nat) → List β → Except StatisticsError (List β)
  | _, [] => .ok []
  | index, acc :: rest =>
    match row.value index with
    | .error e => .error (.schema e)
    | .ok value =>
      match step index acc value with
      | .error e => .error e
      | .ok acc =>
        match extendColumns step row (index + 1) rest with
        | .error e => .error e
        | .ok rest => .ok (acc :: rest)

theorem extendBounds_eq (row : Row) (index : Nat) (bounds : List Bounds) :
    extendBounds row index bounds =
      extendColumns (fun _ bounds value => .ok (bounds.extend value)) row index bounds := by
  induction bounds generalizing index with
  | nil => rfl
  | cons first rest ih =>
    rw [extendBounds, extendColumns, ih]
    cases row.value index with
    | error e => rfl
    | ok value =>
      dsimp only
      generalize extendColumns _ row (index + 1) rest = others
      cases others <;> rfl

theorem extendHistograms_eq [Arithmetic α] (row : Row) (index : Nat)
    (histograms : List (ColumnHistogram α)) :
    extendHistograms row index histograms =
      extendColumns (fun index h value => h.add index value) row index histograms := by
  induction histograms generalizing index with
  | nil => rfl
  | cons first rest ih =>
    rw [extendHistograms, extendColumns, ih]
    cases row.value index with
    | error e => rfl
    | ok value =>
      dsimp only
      generalize extendColumns _ row (index + 1) rest = others
      cases first.add index value with
      | error e => rfl
      | ok histogram => cases others <;> rfl

/-- These are the values of a column of the rows, row for row. -/
def ColumnOf (rows : List Row) (index : Nat) (values : List Value) : Prop :=
  rows.map (fun row => row.value index) = values.map Except.ok

theorem foldlM_extendColumns_nil (step : Nat → β → Value → Except StatisticsError β)
    (rows : List Row) (index : Nat) :
    rows.foldlM (fun accs row => extendColumns step row index accs) [] = .ok [] := by
  induction rows with
  | nil => rfl
  | cons row rows ih => exact ih

/-- The first column goes through its values, and the others go their own way. -/
theorem foldlM_extendColumns_cons {step : Nat → β → Value → Except StatisticsError β}
    {acc acc' : β} {rest rest' : List β} (hcolumn : ColumnOf rows index values)
    (hfirst : values.foldlM (step index) acc = .ok acc')
    (hrest : rows.foldlM (fun accs row => extendColumns step row (index + 1) accs) rest =
      .ok rest') :
    rows.foldlM (fun accs row => extendColumns step row index accs) (acc :: rest) =
      .ok (acc' :: rest') := by
  induction rows generalizing acc rest values with
  | nil =>
    obtain rfl : values = [] := List.map_eq_nil_iff.mp hcolumn.symm
    cases hfirst
    cases hrest
    rfl
  | cons row rows ih =>
    cases values with
    | nil => cases hcolumn
    | cons value values =>
      obtain ⟨hvalue, hvalues⟩ := List.cons.inj hcolumn
      dsimp only at hvalue
      rw [List.foldlM_cons] at hfirst hrest ⊢
      rw [extendColumns, hvalue]
      cases hnext : step index acc value with
      | error e =>
        rw [hnext] at hfirst
        cases hfirst
      | ok acc₁ =>
        cases hothers : extendColumns step row (index + 1) rest with
        | error e =>
          rw [hothers] at hrest
          cases hrest
        | ok rest₁ =>
          rw [hnext] at hfirst
          rw [hothers] at hrest
          dsimp only
          rw [hnext]
          exact ih hvalues hfirst hrest

/-! ## Bounds -/

/-- The integer a value is counted at. -/
def Value.key : Value → Int
  | .int n => n.toInt
  | .text s => TextHistogram.key s

theorem TextHistogram.key_mem (s : String) : 0 ≤ key s ∧ key s ≤ 2147483647 := by
  have hlength : ((Utf8.encode s.toList ++ Bytes.zeros 4).take 4).length = 4 := by simp
  have hlt := Bytes.toNat_lt ((Utf8.encode s.toList ++ Bytes.zeros 4).take 4)
  rw [hlength] at hlt
  unfold key
  omega

/-- The range of the histogram of a column that has these values. -/
def ColumnType.range (type : ColumnType) (values : List Value) : Int × Int :=
  match type with
  | .int => ((values.map Value.key).min?.getD 0, (values.map Value.key).max?.getD 0)
  | .varchar _ => (0, 2147483647)

theorem foldl_extend_some {low high : Int}
    (haccepts : ∀ v ∈ values, ColumnType.int.accepts v = true) :
    values.foldl Bounds.extend (some (low, high)) =
      some ((values.map Value.key).foldl min low, (values.map Value.key).foldl max high) := by
  induction values generalizing low high with
  | nil => rfl
  | cons value values ih =>
    have hrest := fun v hv => haccepts v (List.mem_cons_of_mem _ hv)
    cases value with
    | text s => cases haccepts _ List.mem_cons_self
    | int n => exact ih hrest

/-- The bounds of an integer column are its least and its greatest value, and zero if it has
none. -/
theorem getD_foldl_extend (haccepts : ∀ v ∈ values, ColumnType.int.accepts v = true) :
    (values.foldl Bounds.extend none).getD (0, 0) = ColumnType.int.range values := by
  cases values with
  | nil => rfl
  | cons value values =>
    have hrest := fun v hv => haccepts v (List.mem_cons_of_mem _ hv)
    cases value with
    | text s => cases haccepts _ List.mem_cons_self
    | int n =>
      rw [List.foldl_cons, show Bounds.extend none (.int n) = some (n.toInt, n.toInt) from rfl,
        foldl_extend_some hrest, ColumnType.range, List.map_cons, List.min?_cons', List.max?_cons']
      rfl

/-- All values of a column are counted in the range. -/
theorem ColumnType.mem_range {v : Value} (haccepts : ∀ v ∈ values, type.accepts v = true)
    (hv : v ∈ values) : (type.range values).1 ≤ v.key ∧ v.key ≤ (type.range values).2 := by
  cases type with
  | varchar limit =>
    cases v with
    | int n => cases haccepts _ hv
    | text s => exact TextHistogram.key_mem s
  | int =>
    have hkey : v.key ∈ values.map Value.key := List.mem_map_of_mem hv
    rw [range]
    constructor
    · cases hmin : (values.map Value.key).min? with
      | none =>
        rw [List.min?_eq_none_iff.mp hmin] at hkey
        cases hkey
      | some low => exact (List.min?_eq_some_iff.mp hmin).2 _ hkey
    · cases hmax : (values.map Value.key).max? with
      | none =>
        rw [List.max?_eq_none_iff.mp hmax] at hkey
        cases hkey
      | some high => exact (List.max?_eq_some_iff.mp hmax).2 _ hkey

theorem ColumnType.range_le (haccepts : ∀ v ∈ values, type.accepts v = true) :
    (type.range values).1 ≤ (type.range values).2 := by
  cases values with
  | nil => cases type <;> simp [range]
  | cons value values =>
    obtain ⟨hlow, hhigh⟩ := mem_range haccepts List.mem_cons_self
    exact Int.le_trans hlow hhigh

/-! ## The histogram of a column -/

namespace ColumnHistogram

variable [Arithmetic α] {h h' : ColumnHistogram α} {v : Value}

/-- The counts, of the integers or of the integers that texts are counted at. -/
def keys : ColumnHistogram α → Histogram α
  | .int h => h
  | .text h => h.keys

/-- The histogram is for a column of this type. -/
def IsFor : ColumnHistogram α → ColumnType → Prop
  | .int _, .int => True
  | .text _, .varchar _ => True
  | _, _ => False

/-- A value in range is counted as it is. -/
theorem add_eq_ok (hkind : h.IsFor type) (haccepts : type.accepts v = true) {counts : Histogram α}
    (hadd : h.keys.add v.key = .ok counts) (index : Nat) :
    ∃ h', h.add index v = .ok h' ∧ h'.IsFor type ∧ h'.keys = counts := by
  cases type with
  | int =>
    cases h with
    | text h => exact hkind.elim
    | int h =>
      cases v with
      | text s => cases haccepts
      | int n =>
        change h.add n.toInt = .ok counts at hadd
        obtain ⟨⟨hlow, hhigh⟩, -⟩ := Histogram.add_eq_ok_iff.mp hadd
        refine ⟨.int counts, ?_, trivial, rfl⟩
        rw [add, min_eq_left hhigh, max_eq_right hlow, hadd]
        rfl
  | varchar limit =>
    cases h with
    | int h => exact hkind.elim
    | text h =>
      cases v with
      | int n => cases haccepts
      | text s =>
        change h.keys.add (TextHistogram.key s) = .ok counts at hadd
        refine ⟨.text ⟨counts⟩, ?_, trivial, rfl⟩
        rw [add, TextHistogram.add, hadd]
        rfl

/-- Values in range are counted one after the other. -/
theorem exists_foldlM_add (hkind : h.IsFor type) (haccepts : ∀ v ∈ values, type.accepts v = true)
    (hin : ∀ v ∈ values, h.keys.min ≤ v.key ∧ v.key ≤ h.keys.max) (index : Nat) :
    ∃ h', values.foldlM (fun h v => h.add index v) h = .ok h' ∧ h'.IsFor type ∧
      (values.map Value.key).foldlM Histogram.add h.keys = .ok h'.keys ∧
      h.keys.SameBuckets h'.keys ∧ h'.keys.total = h.keys.total + values.length := by
  induction values generalizing h with
  | nil => exact ⟨h, rfl, hkind, rfl, .refl _, rfl⟩
  | cons v values ih =>
    obtain ⟨counts, hcounts⟩ : ∃ counts, h.keys.add v.key = .ok counts :=
      ⟨_, Histogram.add_eq_ok_iff.mpr ⟨hin v List.mem_cons_self, rfl⟩⟩
    obtain ⟨h₁, hadd, hkind₁, rfl⟩ := add_eq_ok hkind (haccepts v List.mem_cons_self) hcounts index
    obtain ⟨hsame, htotal⟩ := Histogram.sameBuckets_of_add hcounts
    obtain ⟨h', hfold, hkind', hkeys, hsame', htotal'⟩ := ih hkind₁
      (fun other hother => haccepts other (List.mem_cons_of_mem _ hother)) fun other hother => by
        rw [hsame.min, hsame.max]
        exact hin other (List.mem_cons_of_mem _ hother)
    refine ⟨h', ?_, hkind', ?_, hsame.trans hsame', ?_⟩
    · rw [List.foldlM_cons, hadd]
      exact hfold
    · rw [List.map_cons, List.foldlM_cons, hcounts]
      exact hkeys
    · rw [htotal', htotal, List.length_cons]
      omega

/-- The histogram was made for the range of these values of a column, and they were recorded in it,
each as it is. -/
structure Summarizes (requested : Nat) (type : ColumnType) (values : List Value)
    (h : ColumnHistogram α) : Prop where
  kind : h.IsFor type
  min : h.keys.min = (type.range values).1
  max : h.keys.max = (type.range values).2
  total : h.keys.total = values.length
  filled : Histogram.ofValues requested (type.range values).1 (type.range values).2
    (values.map Value.key) = .ok h.keys

theorem exists_ofColumn (hrequested : 0 < requested)
    (haccepts : ∀ v ∈ values, type.accepts v = true) :
    ∃ h : ColumnHistogram α, ofColumn requested type (values.foldl Bounds.extend none) = .ok h ∧
      h.IsFor type ∧
      Histogram.ofRange requested (type.range values).1 (type.range values).2 = .ok h.keys := by
  have hrange := ColumnType.range_le haccepts
  obtain ⟨counts, hcounts⟩ : ∃ counts : Histogram α,
      Histogram.ofRange requested (type.range values).1 (type.range values).2 = .ok counts :=
    ⟨_, by rw [Histogram.ofRange, if_neg (by omega), if_neg (by omega)]⟩
  cases type with
  | int =>
    refine ⟨.int counts, ?_, trivial, hcounts⟩
    rw [ofColumn, getD_foldl_extend haccepts]
    dsimp only
    rw [hcounts]
    rfl
  | varchar limit =>
    refine ⟨.text ⟨counts⟩, ?_, trivial, hcounts⟩
    change Histogram.ofRange requested 0 2147483647 = .ok counts at hcounts
    rw [ofColumn, TextHistogram.ofBuckets, hcounts]
    rfl

/-- Both passes over the values of a column end with a histogram of them. -/
theorem exists_summarizes (hrequested : 0 < requested)
    (haccepts : ∀ v ∈ values, type.accepts v = true) (index : Nat) :
    ∃ empty h : ColumnHistogram α,
      ofColumn requested type (values.foldl Bounds.extend none) = .ok empty ∧
      values.foldlM (fun h v => h.add index v) empty = .ok h ∧
      h.Summarizes requested type values := by
  obtain ⟨empty, hempty, hkind, hrange⟩ :=
    @exists_ofColumn α requested type values _ hrequested haccepts
  obtain ⟨hmin, hmax, htotal⟩ := Histogram.ofRange_eq_ok hrange
  obtain ⟨h, hfold, hkind', hkeys, hsame, htotal'⟩ := exists_foldlM_add hkind haccepts
    (fun v hv => by
      rw [hmin, hmax]
      exact ColumnType.mem_range haccepts hv) index
  refine ⟨empty, h, hempty, hfold, hkind', hsame.min.trans hmin, hsame.max.trans hmax, ?_, ?_⟩
  · rw [htotal', htotal, Nat.zero_add]
  · rw [Histogram.ofValues, hrange]
    exact hkeys

end ColumnHistogram

/-! ## All columns -/

/-- Rows of a schema have a value of the column's kind in each column. -/
theorem exists_columnOf {schema : Schema}
    (hrows : ∀ row ∈ rows, row.schema = schema ∧ row.WellTyped)
    (htype : schema.types[index]? = some type) :
    ∃ values, ColumnOf rows index values ∧ ∀ v ∈ values, type.accepts v = true := by
  induction rows with
  | nil => exact ⟨[], rfl, by simp⟩
  | cons row rows ih =>
    obtain ⟨values, hvalues, haccepts⟩ := ih fun other hother =>
      hrows other (List.mem_cons_of_mem _ hother)
    obtain ⟨rfl, hrow⟩ := hrows row List.mem_cons_self
    have hlt : index < row.values.length :=
      hrow.length_values ▸ (List.getElem?_eq_some_iff.mp htype).1
    have hvalue : row.values[index]? = some row.values[index] := List.getElem?_eq_getElem hlt
    have hpair : (type, row.values[index]) ∈ row.schema.types.zip row.values :=
      List.mem_of_getElem? (List.getElem?_zip_eq_some.mpr ⟨htype, hvalue⟩)
    refine ⟨row.values[index] :: values, ?_, ?_⟩
    · rw [ColumnOf, List.map_cons, List.map_cons, hvalues, Row.value, hvalue]
    · rintro v (_ | ⟨_, hv⟩)
      · exact hrow.2 _ hpair
      · exact haccepts v hv

/-- Both passes over the columns from `index` on end with a histogram of each. -/
theorem exists_histograms [Arithmetic α] (hrequested : 0 < requested) {types : List ColumnType}
    (hcolumns : ∀ i type, types[i]? = some type → ∃ values, ColumnOf rows (index + i) values ∧
      ∀ v ∈ values, type.accepts v = true) :
    ∃ (bounds : List Bounds) (empties histograms : List (ColumnHistogram α)),
      rows.foldlM (fun bounds row => extendBounds row index bounds)
        (List.replicate types.length none) = .ok bounds ∧
      emptyHistograms requested types bounds = .ok empties ∧
      rows.foldlM (fun histograms row => extendHistograms row index histograms) empties =
        .ok histograms ∧
      histograms.length = types.length ∧
      ∀ i type, types[i]? = some type → ∃ h values, histograms[i]? = some h ∧
        ColumnOf rows (index + i) values ∧ (∀ v ∈ values, type.accepts v = true) ∧
        h.Summarizes requested type values := by
  simp only [extendBounds_eq, extendHistograms_eq]
  induction types generalizing index with
  | nil =>
    exact ⟨[], [], [], foldlM_extendColumns_nil _ rows index, rfl,
      foldlM_extendColumns_nil _ rows index, rfl, by simp⟩
  | cons type types ih =>
    obtain ⟨values, hcolumn, haccepts⟩ := hcolumns 0 type rfl
    obtain ⟨empty, h, hempty, hfold, hsummarizes⟩ :=
      @ColumnHistogram.exists_summarizes α requested type values _ hrequested haccepts index
    obtain ⟨bounds, empties, histograms, hbounds, hempties, hfolds, hlength, hrest⟩ :=
      @ih (index + 1) fun i other hother => by
        rw [Nat.add_right_comm, Nat.add_assoc]
        exact hcolumns (i + 1) other hother
    have hfirst : values.foldlM
        (fun bounds value => (.ok (bounds.extend value) : Except StatisticsError Bounds)) none =
          .ok (values.foldl Bounds.extend none) := List.foldlM_pure
    refine ⟨_, empty :: empties, h :: histograms,
      foldlM_extendColumns_cons hcolumn hfirst hbounds, ?_,
      foldlM_extendColumns_cons hcolumn hfold hfolds, congrArg Nat.succ hlength, ?_⟩
    · rw [emptyHistograms, hempty]
      dsimp only
      rw [hempties]
    · rintro (_ | i) other hother
      · obtain rfl : type = other := Option.some.inj hother
        exact ⟨h, values, rfl, hcolumn, haccepts, hsummarizes⟩
      · rw [show index + (i + 1) = index + 1 + i by omega]
        exact hrest i other hother

/-- The number of rows and the bounds of the columns after one more row. -/
def surveyRow (seen : Nat × List Bounds) (row : Row) : Except StatisticsError (Nat × List Bounds) :=
  match extendBounds row 0 seen.2 with
  | .error e => .error e
  | .ok bounds => .ok (seen.1 + 1, bounds)

theorem survey_eq (table : Table) (s : Store) :
    Statistics.survey table s = table.fold surveyRow (0, List.replicate table.schema.size none) s :=
  rfl

theorem foldlM_surveyRow {bounds bounds' : List Bounds} {count : Nat}
    (h : rows.foldlM (fun bounds row => extendBounds row 0 bounds) bounds = .ok bounds') :
    rows.foldlM surveyRow (count, bounds) = .ok (count + rows.length, bounds') := by
  induction rows generalizing count bounds with
  | nil =>
    cases h
    rfl
  | cons row rows ih =>
    rw [List.foldlM_cons] at h ⊢
    rw [surveyRow]
    cases hnext : extendBounds row 0 bounds with
    | error e =>
      rw [hnext] at h
      cases h
    | ok next =>
      rw [hnext] at h
      rw [List.length_cons, ← Nat.add_assoc, Nat.add_right_comm]
      exact ih h

end RowStore
