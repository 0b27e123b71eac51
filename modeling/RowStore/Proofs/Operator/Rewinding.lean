import RowStore.Proofs.Operator.Lifecycle

/-!
# RowStore.Proofs.Operator.Rewinding: back before the first row

An operator that was opened and then only asked for rows can be put back exactly as it was when it
was opened: a list and an aggregation forget how far they came, a count is there to be handed out
again, and a scan has no other state than its cursor.  For an aggregation this takes that it was
`Prepared`: what it was fed was reduced when it was opened, and requests for rows do not reduce it
again.
-/

namespace RowStore

/-! ## Known results -/

namespace Grouping

variable {grouping grouping' : Grouping} {rows : List Row}

/-- The results that are known are one for each group. -/
def Counted (grouping : Grouping) : Prop :=
  ∀ rows, grouping.computed = some rows → rows.length = grouping.groups.length

theorem length_resultsOf (grouping : Grouping) : ∀ {groups : List Group} {rows : List Row},
    grouping.resultsOf groups = .ok rows → rows.length = groups.length
  | [], _, h => by
    cases h
    rfl
  | group :: groups, rows, h => by
    unfold resultsOf at h
    cases hrow : grouping.resultOf group with
    | error e => simp [hrow] at h
    | ok row =>
      cases hrest : grouping.resultsOf groups with
      | error e => simp [hrow, hrest] at h
      | ok rest =>
        simp only [hrow, hrest, Except.ok.injEq] at h
        rw [← h, List.length_cons, List.length_cons, grouping.length_resultsOf hrest]

theorem Counted.length_results (hg : grouping.Counted) (h : grouping.results = (.ok rows, grouping')) :
    rows.length = grouping.groups.length :=
  (results_eq_ok h).2.elim (hg rows) grouping.length_resultsOf

theorem snd_results_of_error {e : OperatorError} (h : grouping.results = (.error e, grouping')) :
    grouping' = grouping := by
  unfold results at h
  cases hcomputed : grouping.computed with
  | some known => simp [hcomputed] at h
  | none =>
    cases hrows : grouping.resultsOf grouping.groups with
    | error e => exact (by simpa [hcomputed, hrows] using h : _ ∧ grouping = grouping').2.symm
    | ok known => simp [hcomputed, hrows] at h

theorem Counted.results (hg : grouping.Counted) : grouping.results.2.Counted := by
  rcases h : grouping.results with ⟨e | rows, grouping'⟩
  · rwa [snd_results_of_error h]
  · rw [(results_eq_ok h).1]
    intro known hknown
    exact Option.some.inj hknown ▸ hg.length_results h

theorem counted_of_merge {row : Row} (h : grouping.merge row = .ok grouping') : grouping'.Counted := by
  unfold merge at h
  cases hkey : grouping.keyOf row with
  | error e => simp [hkey] at h
  | ok key =>
    cases hvalue : row.value grouping.column with
    | error e => simp [hkey, hvalue] at h
    | ok value =>
      simp only [hkey, hvalue, Except.ok.injEq] at h
      subst h
      intro rows hrows
      cases hrows

theorem counted_clear (grouping : Grouping) : grouping.clear.Counted := by
  intro rows hrows
  cases hrows

end Grouping

namespace Aggregation

variable {a : Aggregation} {κ σ : Type} {pull : κ → σ → Except OperatorError (Option Row) × κ × σ}

/-- An aggregation that was fed knows its results, one for each group, and only one that was fed is
open. -/
structure Prepared (a : Aggregation) : Prop where
  counted : a.grouping.Counted
  known : a.isFed = true → a.grouping.computed.isSome = true
  fed : a.isOpen = true → a.isFed = true

theorem counted_feed : ∀ (limit : Nat) {grouping : Grouping} (child : κ) (s : σ),
    grouping.Counted → (feed pull limit grouping child s).2.1.Counted
  | 0, _, _, _, hg => hg
  | limit + 1, grouping, child, s, hg => by
    have hresults := hg.results
    unfold feed
    rcases pull child s with ⟨e | _ | row, child', s'⟩
    · exact hg
    · dsimp only
      rcases hrows : grouping.results with ⟨e | rows, grouping'⟩ <;>
        (rw [hrows] at hresults; exact hresults)
    · dsimp only
      cases hmerge : grouping.merge row with
      | error e => exact hg
      | ok grouping' => exact counted_feed limit child' s' (Grouping.counted_of_merge hmerge)

/-- Feeding ends with the results. -/
theorem computed_feed : ∀ (limit : Nat) (grouping : Grouping) (child : κ) (s : σ),
    (feed pull limit grouping child s).1 = .ok () →
      (feed pull limit grouping child s).2.1.computed.isSome = true
  | 0, _, _, _, h => by cases h
  | limit + 1, grouping, child, s, h => by
    unfold feed at h ⊢
    rcases hrow : pull child s with ⟨e | _ | row, child', s'⟩
    · simp [hrow] at h
    · rw [hrow] at h
      dsimp only at h ⊢
      rcases hrows : grouping.results with ⟨e | rows, grouping'⟩
      · simp [hrows] at h
      · rw [(Grouping.results_eq_ok hrows).1]
        rfl
    · rw [hrow] at h
      dsimp only at h ⊢
      cases hmerge : grouping.merge row with
      | error e => simp [hmerge] at h
      | ok grouping' =>
        rw [hmerge] at h
        exact computed_feed limit grouping' child' s' h

/-- An open aggregation hands out results it knows. -/
theorem Prepared.results (ha : a.Prepared) (hopen : a.isOpen = true) :
    ∃ rows, a.grouping.results = (.ok rows, a.grouping) ∧
      rows.length = a.grouping.groups.length := by
  obtain ⟨rows, hrows⟩ := Option.isSome_iff_exists.mp (ha.known (ha.fed hopen))
  exact ⟨rows, by rw [Grouping.results, hrows], ha.counted rows hrows⟩

theorem Prepared.hasNext (ha : a.Prepared) : a.hasNext.2 = a := by
  unfold Aggregation.hasNext
  split_ifs with hopen
  · obtain ⟨rows, hrows, -⟩ := ha.results hopen
    rw [hrows]
  · rfl

/-- Asking for a result moves the position at most. -/
theorem Prepared.next (ha : a.Prepared) : ∃ position, a.next.2 = { a with position } := by
  unfold Aggregation.next
  split_ifs with hopen
  · obtain ⟨rows, hrows, -⟩ := ha.results hopen
    rw [hrows]
    dsimp only
    cases rows[a.position]? with
    | none => exact ⟨a.position, rfl⟩
    | some row => exact ⟨a.position + 1, rfl⟩
  · exact ⟨a.position, rfl⟩

end Aggregation

namespace Operator

variable {op opened child : Operator} {s t : Store}

/-- An aggregation is prepared. -/
def Prepared : Operator → Prop
  | .aggregate _ aggregation => aggregation.Prepared
  | _ => True

theorem Prepared.hasNext (h : op.Prepared) (s : Store) : (op.hasNext s).2.1.Prepared := by
  cases op with
  | aggregate child aggregation =>
    change aggregation.hasNext.2.Prepared
    rw [Aggregation.Prepared.hasNext h]
    exact h
  | _ => trivial

theorem Prepared.next (h : op.Prepared) (s : Store) : (op.next s).2.1.Prepared := by
  cases op with
  | aggregate child aggregation =>
    obtain ⟨position, hnext⟩ := Aggregation.Prepared.next h
    change aggregation.next.2.Prepared
    rw [hnext]
    exact ⟨h.counted, h.known, h.fed⟩
  | _ => trivial

theorem Prepared.rewind (h : op.Prepared) : op.rewind.2.Prepared := by
  cases op with
  | aggregate child aggregation =>
    change aggregation.rewind.2.Prepared
    unfold Aggregation.rewind
    split_ifs
    · exact ⟨h.counted, h.known, h.fed⟩
    · exact h
  | _ => trivial

theorem Prepared.close (h : op.Prepared) : op.close.Prepared := by
  cases op with
  | aggregate child aggregation => exact ⟨h.counted, h.known, Bool.noConfusion⟩
  | _ => trivial

theorem Prepared.start (h : op.Prepared) (s : Store) : (op.start s).2.1.Prepared := by
  cases op with
  | values list => trivial
  | scan source => trivial
  | insert child tid table tally =>
    rw [Operator.start]
    split_ifs
    · trivial
    · rcases child.start s with ⟨e | done, child', s'⟩ <;> trivial
  | delete child tid tally =>
    rw [Operator.start]
    split_ifs
    · trivial
    · rcases child.start s with ⟨e | done, child', s'⟩ <;> trivial
  | aggregate child aggregation =>
    rw [Operator.start, Aggregation.start]
    by_cases hopen : aggregation.isOpen = true
    · rw [if_pos hopen]
      exact h
    rw [if_neg hopen]
    rcases child.start s with ⟨e | done, child', s'⟩
    · exact h
    · dsimp only
      by_cases hfed : aggregation.isFed = true
      · rw [if_pos hfed]
        exact ⟨h.counted, h.known, fun _ => hfed⟩
      · rw [if_neg hfed]
        rcases hfeed : Aggregation.feed Operator.next (child'.drainLimit s') aggregation.grouping
          child' s' with ⟨e | fed, grouping, rest⟩
        · exact ⟨grouping.counted_clear, fun hfed' => absurd hfed' hfed,
            fun hopen' => absurd hopen' hopen⟩
        · have hcounted : (Aggregation.feed Operator.next (child'.drainLimit s')
              aggregation.grouping child' s').2.1.Counted :=
            Aggregation.counted_feed _ child' s' h.counted
          have hcomputed := Aggregation.computed_feed (child'.drainLimit s') aggregation.grouping
            child' s' (congrArg Prod.fst hfeed)
          rw [hfeed] at hcounted hcomputed
          exact ⟨hcounted, fun _ => hcomputed, fun _ => rfl⟩

theorem Reachable.prepared (h : Reachable op) : op.Prepared := by
  induction h with
  | values h => trivial
  | scan h => trivial
  | insertInto hchild hclosed h =>
    unfold Operator.insertInto at h
    split at h
    · cases h
    · split_ifs at h
      cases h
      trivial
  | deleting tid hchild hclosed => trivial
  | aggregating hchild hclosed h =>
    unfold Operator.aggregating at h
    split at h
    · cases h
    · rename_i grouping hgrouping
      cases h
      have hnone : grouping.computed = none := by
        unfold Grouping.ofSchema at hgrouping
        split at hgrouping
        · cases hgrouping
        · split_ifs at hgrouping
          dsimp only at hgrouping
          split at hgrouping
          · cases hgrouping
            rfl
          · split at hgrouping <;> cases hgrouping
            rfl
      refine ⟨fun rows hrows => ?_, Bool.noConfusion, Bool.noConfusion⟩
      rw [hnone] at hrows
      cases hrows
  | start _ s ih => exact ih.start s
  | hasNext _ s ih => exact ih.hasNext s
  | next _ s ih => exact ih.next s
  | rewind _ ih => exact ih.rewind
  | close _ ih => exact ih.close

/-! ## Rewinding -/

/-- Changing all rows of a child ends with a count that was not handed out. -/
theorem isSpent_changeAll {change : Store → Row → Except TableError Unit × Store} {tally tally' : Tally}
    {rest : Operator × Store} (h : changeAll change tally child s = (.ok (), tally', rest)) :
    tally'.isOpen = true ∧ tally'.isSpent = false := by
  unfold changeAll at h
  rcases hcount : changeEach change (child.drainLimit s) 0 child s with ⟨e | count, child', s'⟩
  · simp [hcount] at h
  · rw [hcount] at h
    dsimp only at h
    cases hrow : Tally.rowOf count with
    | error e => simp [hrow] at h
    | ok row =>
      rw [hrow] at h
      obtain ⟨-, rfl, -⟩ := h
      exact ⟨rfl, rfl⟩

theorem rewind_tally {tally : Tally} (kind : OperatorKind) (hopen : tally.isOpen = true)
    (hspent : tally.isSpent = false) : tally.rewind kind = (.ok (), tally) := by
  rw [Tally.rewind, if_pos hopen, ← hspent]

/-- An operator that was opened is before its first row. -/
theorem rewind_of_start (h : op.start s = (.ok (), opened, t)) : opened.rewind = (.ok (), opened) := by
  cases op with
  | values list =>
    simp only [Operator.start, ValueList.start] at h
    split_ifs at h
    · cases (Prod.mk.inj h).1
    · obtain ⟨-, rfl, -⟩ := h
      rfl
  | scan source =>
    simp only [Operator.start, TableScan.start] at h
    split_ifs at h
    · cases (Prod.mk.inj h).1
    · cases htable : s.catalog.table source.table with
      | error e => simp [htable] at h
      | ok table =>
        rw [htable] at h
        dsimp only at h
        split_ifs at h
        · obtain ⟨-, rfl, -⟩ := h
          rfl
        · cases (Prod.mk.inj h).1
  | insert child tid table tally =>
    rw [Operator.start] at h
    split_ifs at h
    · cases (Prod.mk.inj h).1
    · rcases hstart : child.start s with ⟨e | done, child', s'⟩
      · simp [hstart] at h
      · rw [hstart] at h
        dsimp only at h
        rcases hchanged : changeAll (insertChange tid table) tally child' s' with
          ⟨result, tally', child'', s''⟩
        rw [hchanged] at h
        obtain ⟨rfl, rfl, -⟩ := h
        obtain ⟨hopen, hspent⟩ := isSpent_changeAll hchanged
        rw [Operator.rewind, rewind_tally .insert hopen hspent]
  | delete child tid tally =>
    rw [Operator.start] at h
    split_ifs at h
    · cases (Prod.mk.inj h).1
    · rcases hstart : child.start s with ⟨e | done, child', s'⟩
      · simp [hstart] at h
      · rw [hstart] at h
        dsimp only at h
        rcases hchanged : changeAll (deleteChange tid) tally child' s' with
          ⟨result, tally', child'', s''⟩
        rw [hchanged] at h
        obtain ⟨rfl, rfl, -⟩ := h
        obtain ⟨hopen, hspent⟩ := isSpent_changeAll hchanged
        rw [Operator.rewind, rewind_tally .delete hopen hspent]
  | aggregate child aggregation =>
    rw [Operator.start, Aggregation.start] at h
    by_cases hopen : aggregation.isOpen = true
    · rw [if_pos hopen] at h
      cases (Prod.mk.inj h).1
    rw [if_neg hopen] at h
    rcases hstart : child.start s with ⟨e | done, child', s'⟩
    · simp [hstart] at h
    · rw [hstart] at h
      dsimp only at h
      by_cases hfed : aggregation.isFed = true
      · rw [if_pos hfed] at h
        obtain ⟨-, rfl, -⟩ := h
        rfl
      · rw [if_neg hfed] at h
        rcases hfeed : Aggregation.feed Operator.next (child'.drainLimit s') aggregation.grouping
          child' s' with ⟨e | fed, grouping, rest⟩
        · simp [hfeed] at h
        · rw [hfeed] at h
          obtain ⟨-, rfl, -⟩ := h
          rfl

/-- Asking for rows changes nothing about where an operator is put back to. -/
theorem Prepared.rewind_hasNext (hop : op.Prepared) (s : Store) :
    (op.hasNext s).2.1.rewind = op.rewind := by
  cases op with
  | scan source =>
    simp only [Operator.hasNext, Operator.rewind, TableScan.hasNext]
    cases hcursor : source.cursor with
    | none => rfl
    | some cursor =>
      simp only [TableScan.rewind, hcursor, Cursor.start, Cursor.table_hasNext]
  | aggregate child aggregation =>
    rw [Operator.hasNext]
    dsimp only
    rw [Aggregation.Prepared.hasNext hop]
  | _ => rfl

theorem Prepared.rewind_next (hop : op.Prepared) (s : Store) :
    (op.next s).2.1.rewind = op.rewind := by
  by_cases hopen : op.isOpen = true
  · cases op with
    | values list =>
      have hlist : list.isOpen = true := hopen
      simp only [Operator.next, ValueList.next, if_pos hlist]
      cases list.rows[list.position]? with
      | none => rfl
      | some row => simp only [Operator.rewind, ValueList.rewind, if_pos hlist]
    | scan source =>
      obtain ⟨cursor, hcursor⟩ := Option.isSome_iff_exists.mp hopen
      simp only [Operator.next, TableScan.snd_next hcursor, Operator.rewind, TableScan.rewind,
        hcursor, Cursor.start, Cursor.table_pull]
    | insert child tid table tally | delete child tid tally =>
      have htally : tally.isOpen = true := hopen
      simp only [Operator.next, Tally.next, if_pos htally]
      split_ifs
      · rfl
      · have hspent : Tally.isOpen { tally with isSpent := true } = true := htally
        simp only [Operator.rewind, Tally.rewind, if_pos htally, if_pos hspent]
    | aggregate child aggregation =>
      have hagg : aggregation.isOpen = true := hopen
      obtain ⟨position, hnext⟩ := Aggregation.Prepared.next hop
      simp only [Operator.next, hnext, Operator.rewind, Aggregation.rewind, if_pos hagg]
  · rw [next_of_closed (by simpa using hopen) s]

end Operator

end RowStore
