import RowStore.Proofs.Operator.Reduction
import RowStore.Proofs.Operator.Sources
import Mathlib.Data.List.Forall2
import Mathlib.Data.List.Induction

/-!
# RowStore.Proofs.Operator.GroupBy: a grouping against the rows that were merged

`keysOf` and `valuesOf` tell the groups of rows without any bookkeeping: the keys, each where it
first appears, and under each key the values of the rows that have it.  A grouping that is fed one row
after the other has these groups (`Grouping.addTo_groupsOf`), and whatever is remembered of earlier
results is what would be computed again (`Grouping.Tracks`), so its results are those of the rows
that were merged, however often and whenever they were asked for before (`Grouping.group_by`).
-/

namespace RowStore

/-! ## First appearances -/

section FirstSeen

variable {α : Type} [BEq α] [LawfulBEq α] {a : α} {as : List α}

theorem eraseDups_concat :
    (as ++ [a]).eraseDups = if a ∈ as then as.eraseDups else as.eraseDups ++ [a] := by
  rw [List.eraseDups_append]
  by_cases h : a ∈ as
  · simp [h, List.removeAll]
  · simp [h, List.removeAll, List.eraseDups_cons]

/-- What is left once duplicates are erased comes in the order of first appearance. -/
theorem pairwise_eraseDups (as : List α) :
    as.eraseDups.Pairwise fun a b => as.idxOf a < as.idxOf b := by
  induction as using List.reverseRecOn with
  | nil => exact .nil
  | append_singleton as a ih =>
    have hold : as.eraseDups.Pairwise fun b c => (as ++ [a]).idxOf b < (as ++ [a]).idxOf c := by
      refine ih.imp_of_mem fun {b c} hb hc hlt => ?_
      rw [List.idxOf_append_of_mem (List.mem_eraseDups.mp hb),
        List.idxOf_append_of_mem (List.mem_eraseDups.mp hc)]
      exact hlt
    rw [eraseDups_concat]
    by_cases h : a ∈ as
    · rwa [if_pos h]
    · rw [if_neg h, List.pairwise_append]
      refine ⟨hold, List.pairwise_singleton _ _, fun b hb c hc => ?_⟩
      obtain rfl := List.mem_singleton.mp hc
      have hin := List.mem_eraseDups.mp hb
      rw [List.idxOf_append_of_mem hin, List.idxOf_append_of_notMem h]
      have := List.idxOf_lt_length_iff.mpr hin
      omega

end FirstSeen

namespace Grouping

variable {g h : Grouping} {row : Row} {rows : List Row} {key : Option Value} {value : Value}

/-! ## The groups of rows -/

/-- The key a row is grouped under; there is one for all rows when nothing is grouped by. -/
def keyIn (g : Grouping) (row : Row) : Option Value :=
  g.groupBy.bind fun index => row.values[index]?

/-- The keys of rows, each where it first appears. -/
def keysOf (g : Grouping) (rows : List Row) : List (Option Value) :=
  (rows.map g.keyIn).eraseDups

/-- `keys` are the keys of rows in the order in which they first appear. -/
structure FirstSeen (g : Grouping) (rows : List Row) (keys : List (Option Value)) : Prop where
  mem : ∀ key, key ∈ keys ↔ ∃ row ∈ rows, g.keyIn row = key
  ordered : keys.Pairwise fun a b => (rows.map g.keyIn).idxOf a < (rows.map g.keyIn).idxOf b

/-- The values of the rows that have a key. -/
def valuesOf (g : Grouping) (rows : List Row) (key : Option Value) : List Value :=
  (rows.filter fun row => g.keyIn row = key).filterMap fun row => row.values[g.column]?

/-- The groups of rows. -/
def groupsOf (g : Grouping) (rows : List Row) : List Group :=
  (g.keysOf rows).map fun key => ⟨key, g.valuesOf rows key⟩

theorem mem_keysOf : key ∈ g.keysOf rows ↔ ∃ row ∈ rows, g.keyIn row = key := by
  rw [keysOf, List.mem_eraseDups, List.mem_map]

theorem firstSeen_keysOf : g.FirstSeen rows (g.keysOf rows) :=
  ⟨fun _ => mem_keysOf, pairwise_eraseDups _⟩

theorem nodup_keysOf : (g.keysOf rows).Nodup :=
  firstSeen_keysOf.ordered.imp fun hlt heq => by
    subst heq
    exact Nat.lt_irrefl _ hlt

theorem keysOf_concat : g.keysOf (rows ++ [row]) =
    if g.keyIn row ∈ g.keysOf rows then g.keysOf rows else g.keysOf rows ++ [g.keyIn row] := by
  unfold keysOf
  rw [List.map_append, List.map_singleton, eraseDups_concat]
  simp only [List.mem_eraseDups]

theorem valuesOf_concat (hvalue : row.values[g.column]? = some value) :
    g.valuesOf (rows ++ [row]) key =
      if g.keyIn row = key then g.valuesOf rows key ++ [value] else g.valuesOf rows key := by
  unfold valuesOf
  rw [List.filter_append, List.filterMap_append]
  by_cases hkey : g.keyIn row = key
  · simp [hkey, hvalue]
  · simp [hkey]

theorem valuesOf_eq_nil (h : key ∉ g.keysOf rows) : g.valuesOf rows key = [] := by
  have hnone : rows.filter (fun row => g.keyIn row = key) = [] := by
    rw [List.filter_eq_nil_iff]
    intro row hrow hkey
    exact h (mem_keysOf.mpr ⟨row, hrow, of_decide_eq_true hkey⟩)
  rw [valuesOf, hnone]
  rfl

/-! ## Collecting -/

/-- A value goes to the group of its key. -/
theorem addTo_of_mem (values : Option Value → List Value) : ∀ {keys : List (Option Value)},
    keys.Nodup → key ∈ keys →
      addTo key value (keys.map fun k => ⟨k, values k⟩) =
        keys.map fun k => ⟨k, if k = key then values k ++ [value] else values k⟩
  | first :: keys, hnodup, hmem => by
    obtain ⟨hfirst, hnodup⟩ := List.nodup_cons.mp hnodup
    rw [List.map_cons, List.map_cons, addTo]
    by_cases heq : first = key
    · -- the key does not come again
      subst heq
      rw [if_pos rfl, if_pos rfl]
      refine congrArg _ (List.map_congr_left fun k hk => ?_)
      rw [if_neg]
      rintro rfl
      exact hfirst hk
    · rw [if_neg heq, if_neg heq]
      have hrest := (List.mem_cons.mp hmem).resolve_left (Ne.symm heq)
      rw [addTo_of_mem values hnodup hrest]

/-- A value under a new key makes a group behind the others. -/
theorem addTo_of_not_mem (values : Option Value → List Value) : ∀ {keys : List (Option Value)},
    key ∉ keys →
      addTo key value (keys.map fun k => ⟨k, values k⟩) =
        (keys.map fun k => ⟨k, values k⟩) ++ [⟨key, [value]⟩]
  | [], _ => rfl
  | first :: keys, hnot => by
    obtain ⟨hfirst, hrest⟩ := not_or.mp (mt List.mem_cons.mpr hnot)
    rw [List.map_cons, addTo, if_neg (Ne.symm hfirst), addTo_of_not_mem values hrest]
    rfl

/-- One more row makes the groups of the rows with that row behind them. -/
theorem addTo_groupsOf (hvalue : row.values[g.column]? = some value) :
    addTo (g.keyIn row) value (g.groupsOf rows) = g.groupsOf (rows ++ [row]) := by
  unfold groupsOf
  rw [keysOf_concat]
  by_cases hmem : g.keyIn row ∈ g.keysOf rows
  · rw [if_pos hmem, addTo_of_mem (g.valuesOf rows) nodup_keysOf hmem]
    refine List.map_congr_left fun key _ => ?_
    rw [valuesOf_concat hvalue]
    by_cases hkey : g.keyIn row = key
    · rw [if_pos hkey, if_pos hkey.symm]
    · rw [if_neg hkey, if_neg (Ne.symm hkey)]
  · rw [if_neg hmem, addTo_of_not_mem (g.valuesOf rows) hmem, List.map_append, List.map_singleton]
    congr 1
    · refine List.map_congr_left fun key hkey => ?_
      rw [valuesOf_concat hvalue, if_neg]
      rintro rfl
      exact hmem hkey
    · rw [valuesOf_concat hvalue, if_pos rfl, valuesOf_eq_nil hmem]
      rfl

/-! ## Rows of the input -/

/-- A row has a value to collect, an integer unless values are only counted, and a key that fits the
schema of the results. -/
structure Takes (g : Grouping) (row : Row) : Prop where
  key : g.keyOf row = .ok (g.keyIn row)
  value : ∃ value, row.values[g.column]? = some value ∧
    (g.aggregate ≠ .count → ∃ n, value = .int n)
  fits : ∀ n, Row.ofValues g.schema ((g.keyIn row).toList ++ [.int n]) =
    .ok ⟨g.schema, (g.keyIn row).toList ++ [.int n], none⟩

/-- A well-typed row of a schema has a value in every column, which the column accepts. -/
theorem exists_value {input : Schema} {index : Nat} {column : Column} (hrow : row.WellTyped)
    (hagree : row.schema.Agrees input) (h : input.column index = .ok column) :
    ∃ value, row.values[index]? = some value ∧ column.type.accepts value = true := by
  have hcolumn : input.columns[index]? = some column := by
    unfold Schema.column at h
    cases hfound : input.columns[index]? with
    | none => simp [hfound] at h
    | some found =>
      rw [hfound] at h
      exact congrArg some (Except.ok.inj h)
  have htype : row.schema.types[index]? = some column.type := by
    rw [show row.schema.types = input.types from hagree, Schema.types, List.getElem?_map, hcolumn]
    rfl
  have hlt : index < row.values.length := by
    have hbound := (List.getElem?_eq_some_iff.mp htype).1
    rw [hrow.1]
    simpa [Schema.types, Schema.size] using hbound
  have hvalue : row.values[index]? = some row.values[index] := List.getElem?_eq_getElem hlt
  refine ⟨_, hvalue, hrow.2 (column.type, row.values[index]) ?_⟩
  refine List.mem_of_getElem? (i := index) ?_
  rw [List.getElem?_zip_eq_some]
  exact ⟨htype, hvalue⟩

/-- What a grouping over a schema is built of. -/
theorem ofSchema_eq_ok {input : Schema} {groupBy : Option Nat} {column : Nat}
    {aggregate : Aggregate} (hg : ofSchema input groupBy column aggregate = .ok g) :
    (g.groupBy = groupBy ∧ g.column = column ∧ g.aggregate = aggregate) ∧
    (g.groups = [] ∧ g.computed = none) ∧
    ∃ source, input.column column = .ok source ∧ aggregate.supports source.type = true ∧
      ((groupBy = none ∧ g.schema.columns = [resultColumn aggregate source]) ∨
        ∃ index key, groupBy = some index ∧ input.column index = .ok key ∧
          g.schema.columns = [key, resultColumn aggregate source]) := by
  unfold ofSchema at hg
  cases hsource : input.column column with
  | error e => simp [hsource] at hg
  | ok source =>
    rw [hsource] at hg
    dsimp only at hg
    split_ifs at hg with hsupports
    cases groupBy with
    | none =>
      obtain rfl := Except.ok.inj hg
      exact ⟨⟨rfl, rfl, rfl⟩, ⟨rfl, rfl⟩, source, rfl, hsupports, Or.inl ⟨rfl, rfl⟩⟩
    | some index =>
      dsimp only at hg
      cases hkey : input.column index with
      | error e => simp [hkey] at hg
      | ok key =>
        rw [hkey] at hg
        obtain rfl := Except.ok.inj hg
        exact ⟨⟨rfl, rfl, rfl⟩, ⟨rfl, rfl⟩, source, rfl, hsupports,
          Or.inr ⟨index, key, rfl, hkey, rfl⟩⟩

/-- Only integers come from a column that an aggregate supports, unless values are only counted. -/
theorem int_of_supports {aggregate : Aggregate} {type : ColumnType}
    (hsupports : aggregate.supports type = true) (haccepts : type.accepts value = true)
    (hcount : aggregate ≠ .count) : ∃ n, value = .int n := by
  cases type with
  | int =>
    cases value with
    | int n => exact ⟨n, rfl⟩
    | text s => cases haccepts
  | varchar limit => exact absurd (beq_iff_eq.mp hsupports) hcount

/-- A grouping that was built over a schema takes the rows of that schema. -/
theorem takes_of_wellTyped {input : Schema} {groupBy : Option Nat} {column : Nat}
    {aggregate : Aggregate} (hg : ofSchema input groupBy column aggregate = .ok g)
    (hrow : row.WellTyped) (hagree : row.schema.Agrees input) : g.Takes row := by
  obtain ⟨⟨hgroupBy, hcolumn, haggregate⟩, -, source, hsource, hsupports, hkeyed⟩ :=
    ofSchema_eq_ok hg
  obtain ⟨value, hvalue, haccepts⟩ := exists_value hrow hagree hsource
  have hcollects : ∃ value, row.values[g.column]? = some value ∧
      (g.aggregate ≠ .count → ∃ n, value = .int n) := by
    rw [hcolumn, haggregate]
    exact ⟨value, hvalue, int_of_supports hsupports haccepts⟩
  have haccepted : ∀ n, ColumnType.int.accepts (.int n) = true := fun _ => rfl
  rcases hkeyed with ⟨hnone, hschema⟩ | ⟨index, keyColumn, hsome, hkey, hschema⟩
  · have hkeyIn : g.keyIn row = none := by rw [keyIn, hgroupBy, hnone]; rfl
    refine ⟨?_, hcollects, fun n => ?_⟩
    · rw [hkeyIn, keyOf, hgroupBy, hnone]
    · rw [hkeyIn]
      simp [Row.ofValues, Schema.size, Schema.types, hschema, resultColumn, firstMismatch,
        haccepted n]
  · obtain ⟨key, hfound, hfits⟩ := exists_value hrow hagree hkey
    have hkeyIn : g.keyIn row = some key := by
      rw [keyIn, hgroupBy, hsome]
      exact hfound
    refine ⟨?_, hcollects, fun n => ?_⟩
    · rw [hkeyIn, keyOf, hgroupBy, hsome]
      dsimp only
      rw [Row.value, hfound]
      rfl
    · rw [hkeyIn]
      simp [Row.ofValues, Schema.size, Schema.types, hschema, resultColumn, firstMismatch, hfits,
        haccepted n]

/-! ## Merging and asking for results -/

/-- What is asked of a grouping. -/
inductive Call where
  | merge (row : Row)
  | results

/-- The row that a call merges. -/
def Call.row? : Call → Option Row
  | .merge row => some row
  | .results => none

/-- The grouping after a call.  A row that cannot be merged changes nothing. -/
def perform (g : Grouping) : Call → Grouping
  | .merge row =>
    match g.merge row with
    | .ok g => g
    | .error _ => g
  | .results => g.results.2

/-- The grouping after calls. -/
def after (g : Grouping) (calls : List Call) : Grouping :=
  calls.foldl perform g

/-- The grouping once rows are merged one after the other, up to the first that cannot be. -/
def mergeAll (g : Grouping) : List Row → Except OperatorError Grouping
  | [] => .ok g
  | row :: rows =>
    match g.merge row with
    | .error e => .error e
    | .ok next => next.mergeAll rows

/-- The results of a grouping that is fed rows. -/
def fed (g : Grouping) (rows : List Row) : Except OperatorError (List Row) :=
  match g.mergeAll rows with
  | .error e => .error e
  | .ok next => next.results.1

/-- The rows that calls merge. -/
def merged (calls : List Call) : List Row :=
  calls.filterMap Call.row?

theorem resultsOf_with (groups : List Group) (computed : Option (List Row)) :
    ∀ some : List Group, resultsOf { g with groups, computed } some = g.resultsOf some
  | [] => rfl
  | group :: rest => by
    rw [resultsOf, resultsOf, resultsOf_with groups computed rest]
    rfl

/-- `h` is `g` with the groups of some rows, and remembers at most what would be computed again. -/
structure Tracks (g : Grouping) (rows : List Row) (h : Grouping) : Prop where
  fixed : h = { g with groups := g.groupsOf rows, computed := h.computed }
  known : ∀ out, h.computed = some out → g.resultsOf (g.groupsOf rows) = .ok out

theorem Tracks.start {input : Schema} {groupBy : Option Nat} {column : Nat} {aggregate : Aggregate}
    (hg : ofSchema input groupBy column aggregate = .ok g) : g.Tracks [] g := by
  obtain ⟨-, ⟨hgroups, hcomputed⟩, -⟩ := ofSchema_eq_ok hg
  refine ⟨?_, fun out hout => ?_⟩
  · rw [show g.groupsOf [] = g.groups from hgroups.symm]
  · rw [hcomputed] at hout
    cases hout

/-- Results are those of the rows that were merged, remembered or not. -/
theorem Tracks.results (h' : g.Tracks rows h) :
    h.results.1 = g.resultsOf (g.groupsOf rows) ∧ g.Tracks rows h.results.2 := by
  have hcompute : h.resultsOf h.groups = g.resultsOf (g.groupsOf rows) := by
    rw [h'.fixed]
    exact resultsOf_with _ _ _
  unfold Grouping.results
  cases hknown : h.computed with
  | some out => exact ⟨(h'.known out hknown).symm, h'⟩
  | none =>
    dsimp only
    rw [hcompute]
    cases hout : g.resultsOf (g.groupsOf rows) with
    | error e => exact ⟨rfl, h'⟩
    | ok out =>
      refine ⟨rfl, ⟨?_, fun found hfound => ?_⟩⟩
      · dsimp only
        rw [h'.fixed]
      · rw [hout, ← Option.some.inj hfound]

/-- A row that is merged is one of the rows from then on. -/
theorem Tracks.merge (h' : g.Tracks rows h) (hrow : g.Takes row) :
    ∃ next, h.merge row = .ok next ∧ g.Tracks (rows ++ [row]) next := by
  obtain ⟨value, hvalue, -⟩ := hrow.value
  have hkey : h.keyOf row = .ok (g.keyIn row) := by
    rw [h'.fixed]
    exact hrow.key
  have hcollected : row.value h.column = .ok value := by
    rw [h'.fixed, Row.value]
    dsimp only
    rw [hvalue]
  unfold Grouping.merge
  rw [hkey]
  dsimp only
  rw [hcollected]
  refine ⟨_, rfl, ?_, fun out hout => by cases hout⟩
  rw [← addTo_groupsOf hvalue, h'.fixed]

/-- Whatever calls are made, what was merged is tracked. -/
theorem Tracks.after (h' : g.Tracks rows h) {calls : List Call}
    (hcalls : ∀ row ∈ merged calls, g.Takes row) :
    g.Tracks (rows ++ merged calls) (h.after calls) := by
  induction calls generalizing rows h with
  | nil => simpa [merged, Grouping.after] using h'
  | cons call calls ih =>
    cases call with
    | results =>
      exact ih h'.results.2 hcalls
    | merge row =>
      obtain ⟨next, hnext, htracks⟩ := h'.merge (hcalls row List.mem_cons_self)
      have hrest := ih htracks fun other hmem => hcalls other (List.mem_cons_of_mem _ hmem)
      have hperform : h.perform (.merge row) = next := by rw [perform, hnext]
      have hmerged : merged (.merge row :: calls) = row :: merged calls := rfl
      rw [hmerged, List.append_cons]
      show g.Tracks _ ((h.perform (.merge row)).after calls)
      rwa [hperform]

/-- All rows that are taken can be merged. -/
theorem Tracks.mergeAll (h' : g.Tracks rows h) {more : List Row}
    (hmore : ∀ row ∈ more, g.Takes row) :
    ∃ next, h.mergeAll more = .ok next ∧ g.Tracks (rows ++ more) next := by
  induction more generalizing rows h with
  | nil => exact ⟨h, rfl, by rwa [List.append_nil]⟩
  | cons row more ih =>
    obtain ⟨next, hnext, htracks⟩ := h'.merge (hmore row List.mem_cons_self)
    obtain ⟨last, hlast, hall⟩ :=
      ih htracks fun other hmem => hmore other (List.mem_cons_of_mem _ hmem)
    refine ⟨last, ?_, ?_⟩
    · rw [Grouping.mergeAll, hnext]
      exact hlast
    · rwa [List.append_cons]

/-! ## Results -/

/-- A list is related to some list when each of its members is related to something. -/
theorem exists_forall₂_iff {α β : Type} {R : α → β → Prop} {as : List α} :
    (∃ bs, List.Forall₂ R as bs) ↔ ∀ a ∈ as, ∃ b, R a b := by
  induction as with
  | nil => simp
  | cons a as ih =>
    rw [List.forall_mem_cons, ← ih]
    constructor
    · rintro ⟨bs, hbs⟩
      obtain ⟨b, rest, hb, hrest, -⟩ := List.forall₂_cons_left_iff.mp hbs
      exact ⟨⟨b, hb⟩, rest, hrest⟩
    · rintro ⟨⟨b, hb⟩, rest, hrest⟩
      exact ⟨b :: rest, .cons hb hrest⟩

/-- The row that tells what the values under a key reduce to. -/
def IsResult (g : Grouping) (rows : List Row) (key : Option Value) (row : Row) : Prop :=
  ∃ n : Int32, g.aggregate.Reduces (g.valuesOf rows key) n.toInt ∧
    row = ⟨g.schema, key.toList ++ [.int n], none⟩

/-- The values under a key of rows that are taken can be reduced. -/
theorem reducible_valuesOf (hrows : ∀ row ∈ rows, g.Takes row) (hkey : key ∈ g.keysOf rows) :
    g.aggregate.Reducible (g.valuesOf rows key) := by
  constructor
  · obtain ⟨row, hrow, hkeyIn⟩ := mem_keysOf.mp hkey
    obtain ⟨value, hvalue, -⟩ := (hrows row hrow).value
    have hmem : value ∈ g.valuesOf rows key := by
      refine List.mem_filterMap.mpr ⟨row, ?_, hvalue⟩
      exact List.mem_filter.mpr ⟨hrow, decide_eq_true hkeyIn⟩
    exact List.ne_nil_of_mem hmem
  · intro hcount value hvalue
    obtain ⟨row, hrow, hfound⟩ := List.mem_filterMap.mp hvalue
    obtain ⟨value', hvalue', hint⟩ := (hrows row (List.mem_filter.mp hrow).1).value
    rw [hfound, Option.some.injEq] at hvalue'
    exact hvalue' ▸ hint hcount

/-- The result of a group is that of its key, or there is none and it does not fit. -/
theorem resultOf_group (hrows : ∀ row ∈ rows, g.Takes row) (hkey : key ∈ g.keysOf rows) :
    (∀ row, g.resultOf ⟨key, g.valuesOf rows key⟩ = .ok row ↔ g.IsResult rows key row) ∧
      ∀ e, g.resultOf ⟨key, g.valuesOf rows key⟩ = .error e → e = .integerOverflow := by
  have hreducible := reducible_valuesOf hrows hkey
  obtain ⟨source, hsource, rfl⟩ := mem_keysOf.mp hkey
  have hfits := (hrows source hsource).fits
  unfold resultOf
  dsimp only
  cases hn : g.aggregate.reduce (g.valuesOf rows (g.keyIn source)) with
  | error e =>
    have hoverflow := Aggregate.reduce_eq_error hreducible hn
    refine ⟨fun row => iff_of_false (by simp) ?_, fun e' he => Except.error.inj he ▸ hoverflow⟩
    rintro ⟨n, hreduces, -⟩
    rw [(Aggregate.reduce_eq_ok_iff hreducible).mpr hreduces] at hn
    cases hn
  | ok n =>
    have hreduces := (Aggregate.reduce_eq_ok_iff hreducible).mp hn
    dsimp only
    rw [hfits n]
    refine ⟨fun row => ⟨?_, ?_⟩, fun e he => by cases he⟩
    · intro hrow
      exact ⟨n, hreduces, (Except.ok.inj hrow).symm⟩
    · rintro ⟨m, hm, rfl⟩
      rw [Int32.toInt_inj.mp (hm.unique hreduces)]

theorem resultsOf_keys (hrows : ∀ row ∈ rows, g.Takes row) : ∀ {keys : List (Option Value)},
    (∀ key ∈ keys, key ∈ g.keysOf rows) →
      (∀ out, g.resultsOf (keys.map fun key => ⟨key, g.valuesOf rows key⟩) = .ok out ↔
        List.Forall₂ (g.IsResult rows) keys out) ∧
      ∀ e, g.resultsOf (keys.map fun key => ⟨key, g.valuesOf rows key⟩) = .error e →
        e = .integerOverflow
  | [], _ => by
    refine ⟨fun out => ?_, fun e he => by cases he⟩
    rw [List.forall₂_nil_left_iff]
    show Except.ok [] = _ ↔ _
    rw [Except.ok.injEq, eq_comm]
  | key :: keys, hkeys => by
    obtain ⟨hfirst, hfirstError⟩ := resultOf_group hrows (hkeys key List.mem_cons_self)
    obtain ⟨hrest, hrestError⟩ :=
      resultsOf_keys hrows fun other hmem => hkeys other (List.mem_cons_of_mem _ hmem)
    rw [List.map_cons, resultsOf]
    cases hrow : g.resultOf ⟨key, g.valuesOf rows key⟩ with
    | error e =>
      refine ⟨fun out => iff_of_false (by simp) ?_, fun e' he => ?_⟩
      · rw [List.forall₂_cons_left_iff]
        rintro ⟨row, rest, hresult, -, -⟩
        rw [(hfirst row).mpr hresult] at hrow
        cases hrow
      · exact Except.error.inj he ▸ hfirstError e hrow
    | ok row =>
      dsimp only
      cases hothers : g.resultsOf (keys.map fun key => ⟨key, g.valuesOf rows key⟩) with
      | error e =>
        refine ⟨fun out => iff_of_false (by simp) ?_, fun e' he => ?_⟩
        · rw [List.forall₂_cons_left_iff]
          rintro ⟨row, rest, -, hresults, -⟩
          rw [(hrest rest).mpr hresults] at hothers
          cases hothers
        · exact Except.error.inj he ▸ hrestError e hothers
      | ok others =>
        refine ⟨fun out => ?_, fun e he => by cases he⟩
        rw [Except.ok.injEq, List.forall₂_cons_left_iff]
        constructor
        · rintro rfl
          exact ⟨row, others, (hfirst row).mp hrow, (hrest others).mp hothers, rfl⟩
        · rintro ⟨row', others', hresult, hresults, rfl⟩
          rw [(hfirst row').mpr hresult, Except.ok.injEq] at hrow
          rw [(hrest others').mpr hresults, Except.ok.injEq] at hothers
          rw [hrow, hothers]

theorem resultsOf_groupsOf (hrows : ∀ row ∈ rows, g.Takes row) :
    (∀ out, g.resultsOf (g.groupsOf rows) = .ok out ↔
      List.Forall₂ (g.IsResult rows) (g.keysOf rows) out) ∧
    ∀ e, g.resultsOf (g.groupsOf rows) = .error e ↔
      e = .integerOverflow ∧ ∃ key ∈ g.keysOf rows, ∀ row, ¬ g.IsResult rows key row := by
  obtain ⟨hok, herror⟩ := resultsOf_keys hrows fun key (hkey : key ∈ g.keysOf rows) => hkey
  refine ⟨hok, fun e => ⟨fun he => ⟨herror e he, ?_⟩, ?_⟩⟩
  · -- were there a result for every key, they would make the results
    by_contra hall
    have hresult : ∀ key ∈ g.keysOf rows, ∃ row, g.IsResult rows key row := by
      intro key hkey
      by_contra hnone
      exact hall ⟨key, hkey, not_exists.mp hnone⟩
    obtain ⟨out, hout⟩ := exists_forall₂_iff.mpr hresult
    cases he.symm.trans ((hok out).mpr hout)
  · rintro ⟨rfl, key, hkey, hnone⟩
    cases hout : g.resultsOf (g.groupsOf rows) with
    | error e => rw [herror e hout]
    | ok out =>
      obtain ⟨row, hrow⟩ := exists_forall₂_iff.mp ⟨out, (hok out).mp hout⟩ key hkey
      exact absurd hrow (hnone row)

/-- There is one key when nothing is grouped by, and none when there are no rows. -/
theorem keysOf_of_groupBy_none (hnone : g.groupBy = none) :
    g.keysOf rows = if rows = [] then [] else [none] := by
  have hkey : ∀ row, g.keyIn row = none := fun row => by rw [keyIn, hnone]; rfl
  by_cases hrows : rows = []
  · rw [if_pos hrows, hrows]
    rfl
  · rw [if_neg hrows, ← List.perm_singleton, List.perm_ext_iff_of_nodup nodup_keysOf (by simp)]
    obtain ⟨row, hrow⟩ := List.exists_mem_of_ne_nil rows hrows
    intro key
    rw [mem_keysOf, List.mem_singleton]
    constructor
    · rintro ⟨other, -, rfl⟩
      exact hkey other
    · rintro rfl
      exact ⟨row, hrow, hkey row⟩

/-- The results of a grouping that is fed rows are those of their groups. -/
theorem fed_eq {input : Schema} {groupBy : Option Nat} {column : Nat} {aggregate : Aggregate}
    (hg : ofSchema input groupBy column aggregate = .ok g) (hrows : ∀ row ∈ rows, g.Takes row) :
    g.fed rows = g.resultsOf (g.groupsOf rows) := by
  obtain ⟨next, hnext, htracks⟩ := (Tracks.start hg).mergeAll hrows
  unfold fed
  rw [hnext]
  exact htracks.results.1

/-- A grouping of rows of a schema is a group-by of the rows that were merged so far: asked for
results it tells one row for every key, in the order in which the keys first appeared, with the key
and what the values of exactly its rows reduce to, or that an integer is out of range exactly when
the values under some key do not reduce.  That earlier results were asked for, or failed, makes no
difference. -/
theorem group_by {input : Schema} {groupBy : Option Nat} {column : Nat} {aggregate : Aggregate}
    (hg : ofSchema input groupBy column aggregate = .ok g) {calls : List Call}
    (hcalls : ∀ row ∈ merged calls, row.WellTyped ∧ row.schema.Agrees input) :
    (g.groupBy = groupBy ∧ g.column = column ∧ g.aggregate = aggregate) ∧
    (∀ row, row.WellTyped → row.schema.Agrees input →
      ∃ next, (g.after calls).merge row = .ok next) ∧
    g.FirstSeen (merged calls) (g.keysOf (merged calls)) ∧
    (∀ out, (g.after calls).results.1 = .ok out ↔
      List.Forall₂ (g.IsResult (merged calls)) (g.keysOf (merged calls)) out) ∧
    (∀ e, (g.after calls).results.1 = .error e ↔ e = .integerOverflow ∧
      ∃ key ∈ g.keysOf (merged calls), ∀ row, ¬ g.IsResult (merged calls) key row) ∧
    (groupBy = none → g.keysOf (merged calls) = if merged calls = [] then [] else [none]) ∧
    (g.after calls).results.1 = g.fed (merged calls) := by
  have htakes : ∀ row ∈ merged calls, g.Takes row := fun row hmem =>
    takes_of_wellTyped hg (hcalls row hmem).1 (hcalls row hmem).2
  have hstart := Tracks.start hg
  have htracks : g.Tracks (merged calls) (g.after calls) := hstart.after htakes
  obtain ⟨hok, herror⟩ := resultsOf_groupsOf htakes
  refine ⟨(ofSchema_eq_ok hg).1, fun row hrow hagree => ?_, firstSeen_keysOf, fun out => ?_,
    fun e => ?_, ?_, ?_⟩
  · obtain ⟨next, hnext, -⟩ := htracks.merge (takes_of_wellTyped hg hrow hagree)
    exact ⟨next, hnext⟩
  · rw [htracks.results.1]
    exact hok out
  · rw [htracks.results.1]
    exact herror e
  · intro hnone
    exact keysOf_of_groupBy_none ((ofSchema_eq_ok hg).1.1.trans hnone)
  · rw [htracks.results.1, fed_eq hg htakes]

end Grouping

namespace Sample

/-- What was sold, and for how much. -/
def sales : Schema := ⟨[⟨.varchar 8, some "item"⟩, ⟨.int, some "price"⟩], by decide⟩

def sale (item : String) (price : Int32) : Row := ⟨sales, [.text item, .int price], none⟩

/-- The sums of the prices by item. -/
def revenue : Grouping where
  groupBy := some 0
  column := 1
  aggregate := .sum
  schema := ⟨[⟨.varchar 8, some "item"⟩, ⟨.int, some "sum(price)"⟩], by decide⟩
  groups := []
  computed := none

theorem revenue_eq : Grouping.ofSchema sales (some 0) 1 .sum = .ok revenue := by decide +kernel

theorem sale_fits (item : String) (price : Int32) :
    (sale item price).WellTyped ∧ (sale item price).schema.Agrees sales :=
  ⟨⟨rfl, by simp [sale, sales, Schema.types, ColumnType.accepts]⟩, rfl⟩

end Sample

namespace Grouping

/-- Of three sales of two items, with the results asked for in between, each item has one sum. -/
theorem group_by_revenue :
    let calls := [.merge (Sample.sale "pen" 10), .results, .merge (Sample.sale "ink" 20),
      .merge (Sample.sale "pen" (-4)), .results]
    let rows : List Row := [⟨Sample.revenue.schema, [.text "pen", .int 6], none⟩,
      ⟨Sample.revenue.schema, [.text "ink", .int 20], none⟩]
    (Sample.revenue.after calls).results.1 = .ok rows ∧
      List.Forall₂ (Sample.revenue.IsResult (merged calls))
        [some (.text "pen"), some (.text "ink")] rows := by
  intro calls rows
  have hcalls : ∀ row ∈ merged calls, row.WellTyped ∧ row.schema.Agrees Sample.sales := by
    intro row hmem
    have hsold : row ∈ [Sample.sale "pen" 10, Sample.sale "ink" 20, Sample.sale "pen" (-4)] := hmem
    simp only [List.mem_cons, List.not_mem_nil, or_false] at hsold
    rcases hsold with rfl | rfl | rfl <;> exact Sample.sale_fits _ _
  have hrows : (Sample.revenue.after calls).results.1 = .ok rows := by decide +kernel
  have hkeys : Sample.revenue.keysOf (merged calls) =
      [some (.text "pen"), some (.text "ink")] := by decide +kernel
  obtain ⟨-, -, -, hresults, -⟩ := group_by Sample.revenue_eq hcalls
  exact ⟨hrows, hkeys ▸ (hresults rows).mp hrows⟩

end Grouping

end RowStore
