import RowStore.Proofs.Operator.GroupBy

/-!
# RowStore.Proofs.Operator.Merging: a grouping that was fed any rows

`Grouping.group_by` is about rows of the schema a grouping was built over.  Rows that come from
elsewhere need not fit it; then merging them or reducing their values fails.  When it does not fail
the results are a group-by of the rows all the same (`Grouping.groupedBy_of_fed`).  And however far
it went, clearing the grouping takes it back to where it was.
-/

namespace RowStore

namespace Grouping

variable {g g' h next : Grouping} {row : Row} {rows more out : List Row}

/-! ## Results -/

/-- `out` is a group-by of rows: one row for every key, in the order in which the keys first appear,
that tells what the values under the key reduce to. -/
def GroupedBy (g : Grouping) (rows out : List Row) : Prop :=
  ∃ keys, g.FirstSeen rows keys ∧ List.Forall₂ (g.IsResult rows) keys out

/-- All that merging a row does. -/
theorem merge_eq_ok (hmerge : g.merge row = .ok g') :
    ∃ value, row.values[g.column]? = some value ∧
      g' = { g with groups := addTo (g.keyIn row) value g.groups, computed := none } := by
  unfold merge at hmerge
  cases hkey : g.keyOf row with
  | error e => simp [hkey] at hmerge
  | ok key =>
    have hsame : key = g.keyIn row := by
      unfold keyOf at hkey
      unfold keyIn
      cases hgroup : g.groupBy with
      | none => simpa [hgroup, eq_comm] using hkey
      | some index =>
        cases hfound : row.values[index]? with
        | none => simp [hgroup, Row.value, hfound, Except.map] at hkey
        | some found => simpa [hgroup, Row.value, hfound, Except.map, eq_comm] using hkey
    subst hsame
    rw [hkey] at hmerge
    dsimp only at hmerge
    cases hvalue : row.values[g.column]? with
    | none => simp [Row.value, hvalue] at hmerge
    | some value =>
      simp only [Row.value, hvalue, Except.ok.injEq] at hmerge
      exact ⟨value, rfl, hmerge.symm⟩

theorem Tracks.of_merge (h' : g.Tracks rows h) (hmerge : h.merge row = .ok next) :
    g.Tracks (rows ++ [row]) next ∧ ∃ value, row.values[g.column]? = some value := by
  obtain ⟨value, hvalue, rfl⟩ := merge_eq_ok hmerge
  have hvalue' : row.values[g.column]? = some value := by
    rwa [h'.fixed] at hvalue
  refine ⟨⟨?_, fun out hout => by cases hout⟩, value, hvalue'⟩
  rw [← addTo_groupsOf hvalue', h'.fixed]
  rfl

/-- Rows that were merged are tracked, and each has a value in the column that is collected. -/
theorem Tracks.of_mergeAll (h' : g.Tracks rows h) (hmerge : h.mergeAll more = .ok next) :
    g.Tracks (rows ++ more) next ∧ ∀ row ∈ more, ∃ value, row.values[g.column]? = some value := by
  induction more generalizing rows h with
  | nil =>
    obtain rfl := Except.ok.inj hmerge
    exact ⟨by rwa [List.append_nil], fun row hrow => absurd hrow List.not_mem_nil⟩
  | cons row more ih =>
    rw [Grouping.mergeAll] at hmerge
    cases hnext : h.merge row with
    | error e => simp [hnext] at hmerge
    | ok merged =>
      rw [hnext] at hmerge
      obtain ⟨htracks, hvalue⟩ := h'.of_merge hnext
      obtain ⟨hall, hvalues⟩ := ih htracks hmerge
      exact ⟨List.append_cons rows row more ▸ hall, List.forall_mem_cons.mpr ⟨hvalue, hvalues⟩⟩

theorem forall₂_of_resultsOf : ∀ {groups : List Group} {out : List Row},
    g.resultsOf groups = .ok out →
      List.Forall₂ (fun group row => g.resultOf group = .ok row) groups out
  | [], out, hout => by
    obtain rfl := Except.ok.inj hout
    exact .nil
  | group :: groups, out, hout => by
    rw [resultsOf] at hout
    cases hrow : g.resultOf group with
    | error e => simp [hrow] at hout
    | ok row =>
      cases hrest : g.resultsOf groups with
      | error e => simp [hrow, hrest] at hout
      | ok rest =>
        simp only [hrow, hrest, Except.ok.injEq] at hout
        exact hout ▸ .cons hrow (forall₂_of_resultsOf hrest)

theorem isResult_of_resultOf {key : Option Value}
    (hvalues : ∀ row ∈ rows, ∃ value, row.values[g.column]? = some value)
    (hkey : key ∈ g.keysOf rows) (hrow : g.resultOf ⟨key, g.valuesOf rows key⟩ = .ok row) :
    g.IsResult rows key row := by
  have hne : g.valuesOf rows key ≠ [] := by
    obtain ⟨source, hsource, hkeyIn⟩ := mem_keysOf.mp hkey
    obtain ⟨value, hvalue⟩ := hvalues source hsource
    refine List.ne_nil_of_mem (List.mem_filterMap.mpr ⟨source, ?_, hvalue⟩)
    exact List.mem_filter.mpr ⟨hsource, decide_eq_true hkeyIn⟩
  unfold resultOf at hrow
  dsimp only at hrow
  cases hn : g.aggregate.reduce (g.valuesOf rows key) with
  | error e => simp [hn] at hrow
  | ok n =>
    refine ⟨n, Aggregate.reduces_of_reduce hne hn, ?_⟩
    rw [hn] at hrow
    dsimp only at hrow
    unfold Row.ofValues at hrow
    split_ifs at hrow
    cases hfits : firstMismatch 0 g.schema.types (key.toList ++ [.int n]) with
    | some mismatch => simp [hfits] at hrow
    | none =>
      rw [hfits] at hrow
      exact (Except.ok.inj hrow).symm

theorem fed_eq_ok_iff :
    g.fed rows = .ok out ↔
      ∃ merged known, g.mergeAll rows = .ok merged ∧ merged.results = (.ok out, known) := by
  unfold fed
  cases g.mergeAll rows with
  | error e => simp
  | ok merged => simp [Prod.ext_iff]

/-- A grouping that is fed rows, whatever they are, has a group-by of them or no results. -/
theorem groupedBy_of_fed {input : Schema} {groupBy : Option Nat} {column : Nat}
    {aggregate : Aggregate} (hg : ofSchema input groupBy column aggregate = .ok g)
    (hfed : g.fed rows = .ok out) : g.GroupedBy rows out := by
  obtain ⟨merged, known, hmerged, hknown⟩ := fed_eq_ok_iff.mp hfed
  obtain ⟨htracks, hvalues⟩ := (Tracks.start hg).of_mergeAll hmerged
  have hresults : g.resultsOf (g.groupsOf rows) = .ok out :=
    htracks.results.1.symm.trans (congrArg Prod.fst hknown)
  have hgroups := forall₂_of_resultsOf hresults
  rw [groupsOf, List.forall₂_map_left_iff] at hgroups
  refine ⟨g.keysOf rows, firstSeen_keysOf, ?_⟩
  refine ((List.forall₂_and_left _ _).mpr ⟨fun _ h => h, hgroups⟩).imp ?_
  rintro key row ⟨hkey, hrow⟩
  exact isResult_of_resultOf hvalues hkey hrow

/-! ## Nothing merged -/

theorem clear_of_merge (hmerge : g.merge row = .ok g') : g'.clear = g.clear := by
  obtain ⟨value, -, rfl⟩ := merge_eq_ok hmerge
  rfl

theorem clear_results (g : Grouping) : g.results.2.clear = g.clear := by
  unfold results
  cases g.computed with
  | some rows => rfl
  | none => cases g.resultsOf g.groups <;> rfl

theorem clear_of_ofSchema {input : Schema} {groupBy : Option Nat} {column : Nat}
    {aggregate : Aggregate} (hg : ofSchema input groupBy column aggregate = .ok g) :
    g.clear = g := by
  obtain ⟨-, ⟨hgroups, hcomputed⟩, -⟩ := ofSchema_eq_ok hg
  rw [clear, ← hgroups, ← hcomputed]

end Grouping

end RowStore
