import RowStore.Proofs.Entries
import RowStore.Proofs.FailedInsert
import RowStore.Proofs.Operator.Bystanders
import RowStore.Proofs.Statistics.Columns
import RowStore.Proofs.Statistics.Passes
import Mathlib.Data.Set.List

/-!
# RowStore.Proofs.Statistics.Computing: the statistics of a table

Computing the statistics of a table goes through its rows twice.  Both passes see the rows a scan
hands out, so what is computed describes these rows (`Statistics.Describes`), and nothing goes wrong
that would not go wrong for the scan.  As the transaction it is done for changed nothing, its commit
writes nothing, and the store is left with other pages cached at most
(`Statistics.compute_describes`).
-/

namespace RowStore

/-! ## A pass over a table -/

section

open Store (Fetches)

variable {β : Type} {f : β → Row → Except StatisticsError β} {acc acc' : β} {s s' t : Store}
  {table : Table} {rows : List Row} {result : Except TableError Unit}

/-- A cursor that was just opened on the table hands out these rows. -/
def Table.Pass (table : Table) (s : Store) (rows : List Row) (result : Except TableError Unit)
    (s' : Store) : Prop :=
  (Cursor.start { table }).Run s rows result s'

theorem Table.exists_pass (hs : s.Coherent) (table : Table) :
    ∃ rows result s', table.Pass s rows result s' :=
  Cursor.exists_run hs rfl

namespace Table.Pass

theorem scan_eq (h : table.Pass s rows result s') (hs : s.Coherent) :
    s.scan table = result.map fun _ => rows :=
  Cursor.Run.drainWithin h (Cursor.Run.length_lt h hs)

theorem fold_eq (h : table.Pass s rows result s') (hs : s.Coherent)
    (hfold : rows.foldlM f acc = .ok acc') :
    table.fold f acc s = ((result.map fun _ => acc').mapError .table, s') :=
  Cursor.Run.foldWithin h (Cursor.Run.length_lt h hs) hfold

/-- After pages were fetched there is another pass over the same rows. -/
theorem again (h : table.Pass s rows (.ok ()) s') (hs : s.Coherent) (hissued : s.Issued)
    (hfetches : Fetches s t) : ∃ t', table.Pass t rows (.ok ()) t' :=
  Cursor.Run.of_follows h (hfetches.follows hs hissued)

theorem wellTyped (h : table.Pass s rows result s') (hs : s.Coherent)
    (ht : s.catalog.table table.id = .ok table) :
    ∀ row ∈ rows, row.schema = table.schema ∧ row.WellTyped := by
  intro row hrow
  obtain ⟨record, hentry, htable⟩ := Cursor.Run.stored h (.start ht) hs hs row hrow
  exact hs.wellTyped_of_entry ht hentry htable

end Table.Pass

end

namespace Statistics

variable {α : Type} [Arithmetic α] {first s s' s'' : Store} {tid : TransactionId} {id : TableId}
  {table : Table} {requested index : Nat} {rows : List Row} {values : List Value} {cost : α}

/-- The statistics are those of these rows of the table.  The range of the histogram of an integer
column is from the least value of the column to the greatest, so no value is outside it, and the
values were recorded in it as they are. -/
structure Describes (stats : Statistics α) (table : Table) (s : Store) (requested : Nat)
    (rows : List Row) : Prop where
  table_eq : stats.table = table.id
  pages_eq : stats.pages = table.pageCount s.disk
  rows_eq : stats.rows = rows.length
  columns : stats.histograms.length = table.schema.types.length
  total : ∀ h ∈ stats.histograms, h.keys.total = rows.length
  int : ∀ index, table.schema.types[index]? = some .int → ∃ (h : Histogram α) (ints : List Int32),
    stats.histogram index = .ok (.int h) ∧
    rows.map (fun row => row.value index) = ints.map (fun n => .ok (.int n)) ∧
    h.min = (ints.map Int32.toInt).min?.getD 0 ∧ h.max = (ints.map Int32.toInt).max?.getD 0 ∧
    (∀ n ∈ ints, h.min ≤ n.toInt ∧ n.toInt ≤ h.max) ∧
    Histogram.ofValues requested h.min h.max (ints.map Int32.toInt) = .ok h
  text : ∀ index limit, table.schema.types[index]? = some (.varchar limit) →
    ∃ (h : TextHistogram α) (texts : List String),
      stats.histogram index = .ok (.text h) ∧
      rows.map (fun row => row.value index) = texts.map (fun t => .ok (.text t)) ∧
      Histogram.ofValues requested 0 2147483647 (texts.map TextHistogram.key) = .ok h.keys

/-! ## Columns by their kind -/

/-- The values a column accepts are all of its kind. -/
theorem exists_of_accepts {type : ColumnType} {β : Type} {make : β → Value}
    (hmake : ∀ v, type.accepts v = true → ∃ a, make a = v)
    (haccepts : ∀ v ∈ values, type.accepts v = true) :
    ∃ kept : List β, values = kept.map make := by
  have hrange : values ∈ Set.range (List.map make) := by
    rw [Set.range_list_map]
    exact fun v hv => hmake v (haccepts v hv)
  obtain ⟨kept, hkept⟩ := hrange
  exact ⟨kept, hkept.symm⟩

/-- What is known of an integer column. -/
theorem int_of_summarizes {h : ColumnHistogram α} (hsummarizes : h.Summarizes requested .int values)
    (hcolumn : ColumnOf rows index values)
    (haccepts : ∀ v ∈ values, ColumnType.int.accepts v = true) :
    ∃ (counts : Histogram α) (ints : List Int32), h = .int counts ∧
      rows.map (fun row => row.value index) = ints.map (fun n => .ok (.int n)) ∧
      counts.min = (ints.map Int32.toInt).min?.getD 0 ∧
      counts.max = (ints.map Int32.toInt).max?.getD 0 ∧
      (∀ n ∈ ints, counts.min ≤ n.toInt ∧ n.toInt ≤ counts.max) ∧
      Histogram.ofValues requested counts.min counts.max (ints.map Int32.toInt) = .ok counts := by
  obtain ⟨ints, rfl⟩ := @exists_of_accepts values .int _ Value.int
    (fun v hv => by cases v with
      | int n => exact ⟨n, rfl⟩
      | text t => cases hv) haccepts
  have hmap : (ints.map Value.int).map Value.key = ints.map Int32.toInt := List.map_map
  obtain ⟨hkind, hmin, hmax, -, hfilled⟩ := hsummarizes
  cases h with
  | text h => exact hkind.elim
  | int counts =>
    have hwithin : ∀ n ∈ ints, counts.min ≤ n.toInt ∧ n.toInt ≤ counts.max := by
      intro n hn
      obtain ⟨hlow, hhigh⟩ := ColumnType.mem_range haccepts (List.mem_map_of_mem hn)
      exact ⟨hmin.trans_le hlow, hhigh.trans_eq hmax.symm⟩
    rw [ColumnType.range, hmap] at hmin hmax hfilled
    refine ⟨counts, ints, rfl, ?_, hmin, hmax, hwithin, ?_⟩
    · rw [hcolumn, List.map_map]
      rfl
    · rw [← hmin, ← hmax] at hfilled
      exact hfilled

/-- What is known of a column of text. -/
theorem text_of_summarizes {h : ColumnHistogram α} {limit : Nat}
    (hsummarizes : h.Summarizes requested (.varchar limit) values)
    (hcolumn : ColumnOf rows index values)
    (haccepts : ∀ v ∈ values, (ColumnType.varchar limit).accepts v = true) :
    ∃ (counts : TextHistogram α) (texts : List String), h = .text counts ∧
      rows.map (fun row => row.value index) = texts.map (fun t => .ok (.text t)) ∧
      Histogram.ofValues requested 0 2147483647 (texts.map TextHistogram.key) = .ok counts.keys := by
  obtain ⟨texts, rfl⟩ := @exists_of_accepts values (.varchar limit) _ Value.text
    (fun v hv => by cases v with
      | int n => cases hv
      | text t => exact ⟨t, rfl⟩) haccepts
  have hmap : (texts.map Value.text).map Value.key = texts.map TextHistogram.key := List.map_map
  obtain ⟨hkind, -, -, -, hfilled⟩ := hsummarizes
  cases h with
  | int h => exact hkind.elim
  | text counts =>
    rw [hmap] at hfilled
    refine ⟨counts, texts, rfl, ?_, hfilled⟩
    rw [hcolumn, List.map_map]
    rfl

/-- What both passes come to, column by column. -/
theorem describes_of_summarizes {pages : Nat} {histograms : List (ColumnHistogram α)}
    (hpages : pages = table.pageCount s.disk)
    (hlength : histograms.length = table.schema.types.length)
    (hcolumns : ∀ i type, table.schema.types[i]? = some type → ∃ h values,
      histograms[i]? = some h ∧ ColumnOf rows i values ∧ (∀ v ∈ values, type.accepts v = true) ∧
        h.Summarizes requested type values) :
    Describes ⟨table.id, cost, pages, rows.length, histograms⟩ table s requested rows where
  table_eq := rfl
  pages_eq := hpages
  rows_eq := rfl
  columns := hlength
  total h hmem := by
    obtain ⟨i, hi⟩ := List.getElem?_of_mem hmem
    have hlt : i < table.schema.types.length := hlength ▸ (List.getElem?_eq_some_iff.mp hi).1
    obtain ⟨h', values, hh', hcolumn, -, hsummarizes⟩ :=
      hcolumns i _ (List.getElem?_eq_getElem hlt)
    obtain rfl : h = h' := Option.some.inj (hi.symm.trans hh')
    have hvalues := congrArg List.length hcolumn
    rw [List.length_map, List.length_map] at hvalues
    rw [hsummarizes.total, hvalues]
  int index htype := by
    obtain ⟨h, values, hh, hcolumn, haccepts, hsummarizes⟩ := hcolumns index .int htype
    obtain ⟨counts, ints, rfl, hints⟩ := int_of_summarizes hsummarizes hcolumn haccepts
    exact ⟨counts, ints, by rw [histogram, hh], hints⟩
  text index limit htype := by
    obtain ⟨h, values, hh, hcolumn, haccepts, hsummarizes⟩ := hcolumns index _ htype
    obtain ⟨counts, texts, rfl, htexts⟩ := text_of_summarizes hsummarizes hcolumn haccepts
    exact ⟨counts, texts, by rw [histogram, hh], htexts⟩

/-! ## Both passes -/

/-- An error of the first pass is what computing the statistics comes to. -/
theorem compute_of_survey_error {e : StatisticsError} (ht : s.catalog.table id = .ok table)
    (hsurvey : survey table s = (.error e, s')) : compute s tid id cost requested = (.error e, s') := by
  rw [compute, ht]
  dsimp only
  rw [hsurvey]

/-- When all steps succeed the statistics are what they found. -/
theorem compute_of_passes {count : Nat} {bounds : List Bounds}
    {empties histograms : List (ColumnHistogram α)} (ht : s.catalog.table id = .ok table)
    (hsurvey : survey table s = (.ok (count, bounds), s'))
    (hempties : emptyHistograms requested table.schema.types bounds = .ok empties)
    (hfold : table.fold (fun histograms row => extendHistograms row 0 histograms) empties s' =
      (.ok histograms, s''))
    (hcommit : s''.commit tid = (.ok (), s'')) :
    compute s tid id cost requested =
      (.ok ⟨id, cost, table.pageCount s'.disk, count, histograms⟩, s'') := by
  rw [compute, ht]
  dsimp only
  rw [hsurvey]
  dsimp only
  rw [hempties]
  dsimp only
  rw [hfold]
  dsimp only
  rw [hcommit]

/-- How computing the statistics comes out, from the first pass over the table. -/
theorem compute_of_pass {result : Except TableError Unit} (hs : s.Coherent) (hissued : s.Issued)
    (hunmarked : s.Unmarked tid) (ht : s.catalog.table id = .ok table) (hrequested : 0 < requested)
    (hpass : table.Pass s rows result s') :
    Store.Fetches s (compute s tid id cost requested).2 ∧
      (result = .ok () ∧ (∃ stats, (compute s tid id cost requested).1 = .ok stats ∧
          stats.Describes table s requested rows) ∨
        ∃ e, result = .error e ∧ (compute s tid id cost requested).1 = .error (.table e)) := by
  obtain ⟨rfl, -⟩ := Catalog.mem_of_table ht
  have hrows := hpass.wellTyped hs ht
  obtain ⟨bounds, empties, histograms, hbounds, hempties, hfold, hlength, hcolumns⟩ :=
    @exists_histograms α rows 0 requested _ hrequested table.schema.types fun i type htype => by
      rw [Nat.zero_add]
      exact exists_columnOf hrows htype
  simp only [Nat.zero_add] at hcolumns
  have hsize : table.schema.types.length = table.schema.size := by
    rw [Schema.types, List.length_map, Schema.size]
  rw [hsize] at hbounds
  have hsurvey : survey table s =
      ((result.map fun _ => (rows.length, bounds)).mapError .table, s') := by
    rw [survey_eq, hpass.fold_eq hs (foldlM_surveyRow hbounds), Nat.zero_add]
  have hfetches := Cursor.Run.fetches hpass
  cases result with
  | error e =>
    have hcompute := @compute_of_survey_error α _ s s' tid _ table requested cost _ ht hsurvey
    rw [hcompute]
    exact ⟨hfetches, Or.inr ⟨e, rfl, rfl⟩⟩
  | ok =>
    obtain ⟨s'', hpass'⟩ := hpass.again hs hissued hfetches
    have hfetches' : Store.Fetches s s'' := hfetches.trans (Cursor.Run.fetches hpass')
    have hsecond := hpass'.fold_eq ((Store.Fetches.moves hfetches).coherent hs) hfold
    have hcommit := (hunmarked.fetches hs hfetches').commit_eq
    have hcompute := @compute_of_passes α _ s s' s'' tid _ table requested cost _ _ _ _ ht hsurvey
      hempties hsecond hcommit
    have hdisk : s'.disk = s.disk := congrArg View.disk (Store.Fetches.view hfetches hs)
    rw [hcompute]
    exact ⟨hfetches', Or.inl ⟨rfl, _, rfl,
      describes_of_summarizes (congrArg table.pageCount hdisk) hlength hcolumns⟩⟩

/-- What is computed on behalf of a transaction that changed nothing describes the rows of a scan,
before and after, and is an error only where the scan is one.  No page shows other bytes or is
marked otherwise, and the files stay as they are. -/
theorem compute_describes (hfresh : first.Fresh) (hsound : first.catalog.Sound)
    (h : first.ReachedWithout tid s) (ht : s.catalog.table id = .ok table)
    (hrequested : 0 < requested) (cost : α) :
    s.Untouched (compute s tid id cost requested).2 ∧
      (∀ stats, (compute s tid id cost requested).1 = .ok stats → ∃ rows,
        s.scan table = .ok rows ∧ (compute s tid id cost requested).2.scan table = .ok rows ∧
          stats.Describes table s requested rows) ∧
      ∀ e, (compute s tid id cost requested).1 = .error e →
        ∃ cause, s.scan table = .error cause ∧ e = .table cause := by
  obtain ⟨hs, htagged, -⟩ := h.reached.invariant hfresh hsound
  obtain ⟨rows, result, s', hpass⟩ := Table.exists_pass hs table
  obtain ⟨hfetches, hanswer⟩ :=
    @compute_of_pass α _ s s' tid id table requested rows cost result hs htagged.issued
      (h.unmarked hfresh hsound) ht hrequested hpass
  have hs' := (Store.Fetches.moves hfetches).coherent hs
  have hscan := hpass.scan_eq hs
  refine ⟨hfetches.untouched hs, fun stats hok => ?_, fun e herror => ?_⟩
  · rcases hanswer with ⟨rfl, stats', hok', hdescribes⟩ | ⟨e, -, herror⟩
    · obtain rfl : stats = stats' := Except.ok.inj (hok.symm.trans hok')
      obtain ⟨t, hagain⟩ := hpass.again hs htagged.issued hfetches
      exact ⟨rows, hscan, hagain.scan_eq hs', hdescribes⟩
    · cases hok.symm.trans herror
  · rcases hanswer with ⟨-, stats, hok, -⟩ | ⟨cause, rfl, herror'⟩
    · cases herror.symm.trans hok
    · exact ⟨cause, hscan, Except.error.inj (herror.symm.trans herror')⟩

end Statistics

namespace Sample

/-- Two rows on two pages on the disk, and room for two pages. -/
def labelPair : Store where
  disk := ({} : Disk).write ["l"]
    [1, 0, 0, 0, 1, 97, 0, 0, 0, 0, 0, 5, 1, 0, 0, 0, 1, 98, 0, 0, 255, 255, 255, 254]
  catalog := Catalog.empty.add labelled "l"
  cache := ⟨12, 2, Nat.two_pos, [], .empty, [], [], 0⟩

/-- A third row on a third page, which is dirty. -/
def unfinished : Session :=
  (Session.mk labelPair []).after [.insert ⟨1⟩ labelled.id (label "añ" 9)]

end Sample

/-- The uncommitted row is counted, and the dirty page stays as it is. -/
theorem Statistics.compute_describes_unfinished :
    let s := Sample.unfinished.store
    let outcome := compute s ⟨2⟩ Sample.labelled.id (1 : ℚ) 4
    let rows := [(Sample.label "a" 5).withRecord (some ⟨⟨Sample.labelled.id, 0⟩, 0⟩),
      (Sample.label "b" (-2)).withRecord (some ⟨⟨Sample.labelled.id, 1⟩, 0⟩),
      (Sample.label "añ" 9).withRecord (some ⟨⟨Sample.labelled.id, 2⟩, 0⟩)]
    (∃ stats, outcome.1 = .ok stats ∧ stats.Describes Sample.labelled s 4 rows) ∧
      s.Untouched outcome.2 ∧ s.cache.capacity = 2 ∧
      (s.view.changed ⟨Sample.labelled.id, 2⟩).map (·.dirtier) = some (some ⟨1⟩) := by
  intro s outcome rows
  have hsound : Sample.labelPair.catalog.Sound := Catalog.sound_empty.add ⟨rfl, by decide⟩ "l"
  have hwithout : Sample.labelPair.ReachedWithout ⟨2⟩ s :=
    @Store.ReachedWithout.after _ _ ⟨Sample.labelPair, []⟩ .first _ (by decide) (by decide)
  have hscan : s.scan Sample.labelled = .ok rows := by decide +kernel
  obtain ⟨huntouched, hok, herror⟩ :=
    @compute_describes ℚ _ Sample.labelPair s ⟨2⟩ Sample.labelled.id Sample.labelled 4
      ⟨12, 2, rfl⟩ hsound hwithout (by decide +kernel) (by decide) 1
  refine ⟨?_, huntouched, by decide +kernel, by decide +kernel⟩
  cases hcompute : outcome.1 with
  | error e =>
    obtain ⟨cause, hcause, -⟩ := herror e hcompute
    cases hscan.symm.trans hcause
  | ok stats =>
    obtain ⟨rows', hrows', -, hdescribes⟩ := hok stats hcompute
    cases hscan.symm.trans hrows'
    exact ⟨stats, rfl, hdescribes⟩

end RowStore
