import RowStore.Operator
import RowStore.Proofs.Cursor

/-!
# RowStore.Proofs.Operator.Sources: aggregations and scans as sources of rows

What the parts of an operator answer to requests for rows.  Asking whether there is another row
computes the results of an aggregation or fills the buffer of a scan, and does so once: asked again
it answers the same, and the row that follows is the one that would have followed without asking.
None of the parts ever complains that something is open, an open one never that it is closed, and
none opens or closes when it is asked for rows.
-/

namespace RowStore

/-- Whether an operator refuses because of its being open or closed. -/
def OperatorError.isProtocol : OperatorError → Bool
  | .notOpen _ | .alreadyOpen _ => true
  | _ => false

variable {s s' : Store} {more : Bool} {e : OperatorError} (kind : OperatorKind)

/-! ## Reductions -/

namespace Aggregate

theorem isProtocol_of_toInt32? {n : Int} (h : toInt32? n = .error e) : e.isProtocol = false := by
  unfold toInt32? at h
  split_ifs at h
  cases h
  rfl

theorem isProtocol_of_integers : ∀ {values : List Value}, integers values = .error e →
    e.isProtocol = false
  | [], h => by cases h
  | value :: values, h => by
    unfold integers at h
    cases hint : value.int? with
    | none =>
      rw [hint] at h
      cases h
      rfl
    | some n =>
      rw [hint] at h
      cases hints : integers values with
      | error e' =>
        simp only [hints, Except.error.injEq] at h
        rw [h] at hints
        exact isProtocol_of_integers hints
      | ok rest => simp [hints] at h

theorem isProtocol_of_sumFrom : ∀ {values : List Value} {total : Int32},
    sumFrom total values = .error e → e.isProtocol = false
  | [], _, h => by cases h
  | value :: values, total, h => by
    unfold sumFrom at h
    cases hint : value.int? with
    | none =>
      rw [hint] at h
      cases h
      rfl
    | some n =>
      rw [hint] at h
      dsimp only at h
      cases htotal : toInt32? (total.toInt + n.toInt) with
      | error e' =>
        simp only [htotal, Except.error.injEq] at h
        exact h ▸ isProtocol_of_toInt32? htotal
      | ok total =>
        rw [htotal] at h
        exact isProtocol_of_sumFrom h

theorem isProtocol_of_reduce {aggregate : Aggregate} {values : List Value}
    (h : aggregate.reduce values = .error e) : e.isProtocol = false := by
  cases aggregate with
  | count => exact isProtocol_of_toInt32? h
  | sum => exact isProtocol_of_sumFrom h
  | average | least | greatest =>
    unfold reduce at h
    cases hvalues : integers values with
    | error e' =>
      simp only [hvalues, Except.error.injEq] at h
      exact h ▸ isProtocol_of_integers hvalues
    | ok ns =>
      -- only the least and the greatest of no integers are refused
      cases ns <;> simp only [hvalues, reduceCtorEq, Except.error.injEq] at h
      all_goals exact h ▸ rfl

end Aggregate

namespace Grouping

variable {grouping grouping' : Grouping} {rows : List Row}

theorem isProtocol_of_resultOf {group : Group} (h : grouping.resultOf group = .error e) :
    e.isProtocol = false := by
  unfold resultOf at h
  cases hn : grouping.aggregate.reduce group.values with
  | error e' =>
    simp only [hn, Except.error.injEq] at h
    exact h ▸ Aggregate.isProtocol_of_reduce hn
  | ok n =>
    rw [hn] at h
    dsimp only at h
    cases hrow : Row.ofValues grouping.schema (group.key.toList ++ [.int n]) with
    | error cause =>
      simp only [hrow, Except.error.injEq] at h
      exact h ▸ rfl
    | ok row => simp [hrow] at h

theorem isProtocol_of_resultsOf : ∀ {groups : List Group}, grouping.resultsOf groups = .error e →
    e.isProtocol = false
  | [], h => by cases h
  | group :: groups, h => by
    unfold resultsOf at h
    cases hrow : grouping.resultOf group with
    | error e' =>
      simp only [hrow, Except.error.injEq] at h
      exact h ▸ isProtocol_of_resultOf hrow
    | ok row =>
      rw [hrow] at h
      cases hrows : grouping.resultsOf groups with
      | error e' =>
        simp only [hrows, Except.error.injEq] at h
        rw [h] at hrows
        exact isProtocol_of_resultsOf hrows
      | ok rows => simp [hrows] at h

/-- Results are not refused for a grouping's being open or closed. -/
theorem isProtocol_of_results (h : grouping.results = (.error e, grouping')) :
    e.isProtocol = false := by
  unfold results at h
  cases hcomputed : grouping.computed with
  | some rows => simp [hcomputed] at h
  | none =>
    rw [hcomputed] at h
    dsimp only at h
    cases hrows : grouping.resultsOf grouping.groups with
    | error e' =>
      simp only [hrows, Prod.mk.injEq, Except.error.injEq] at h
      exact h.1 ▸ isProtocol_of_resultsOf hrows
    | ok rows => simp [hrows] at h

/-- Results that are handed out are known from then on, if they were not before. -/
theorem results_eq_ok (h : grouping.results = (.ok rows, grouping')) :
    grouping' = { grouping with computed := some rows } ∧
      (grouping.computed = some rows ∨ grouping.resultsOf grouping.groups = .ok rows) := by
  unfold results at h
  cases hcomputed : grouping.computed with
  | some known =>
    simp only [hcomputed, Prod.mk.injEq, Except.ok.injEq] at h
    obtain ⟨rfl, rfl⟩ := h
    exact ⟨by rw [← hcomputed], Or.inl rfl⟩
  | none =>
    cases hrows : grouping.resultsOf grouping.groups with
    | error e => simp [hcomputed, hrows] at h
    | ok known =>
      simp only [hcomputed, hrows, Prod.mk.injEq, Except.ok.injEq] at h
      obtain ⟨rfl, rfl⟩ := h
      exact ⟨rfl, Or.inr rfl⟩

/-- Results that are known are handed out again. -/
theorem results_again (h : grouping.results = (.ok rows, grouping')) :
    grouping'.results = (.ok rows, grouping') := by
  rw [(results_eq_ok h).1]
  rfl

end Grouping

/-! ## Aggregations -/

namespace Aggregation

variable {a a' : Aggregation} {κ σ : Type}
  {pull : κ → σ → Except OperatorError (Option Row) × κ × σ}

/-- Feeding keeps what every request for a row keeps of the child. -/
theorem feed_keeps (keeps : κ → Prop) (hpull : ∀ child s, keeps child → keeps (pull child s).2.1) :
    ∀ (limit : Nat) (grouping : Grouping) (child : κ) (s : σ), keeps child →
      keeps (feed pull limit grouping child s).2.2.1
  | 0, _, _, _, h => h
  | limit + 1, grouping, child, s, h => by
    have hnext := hpull child s h
    unfold feed
    cases hrow : pull child s with
    | mk result rest =>
      obtain ⟨child', s'⟩ := rest
      rw [hrow] at hnext
      rcases result with e | _ | row
      · exact hnext
      · dsimp only
        rcases grouping.results with ⟨e | rows, grouping'⟩ <;> exact hnext
      · dsimp only
        cases grouping.merge row with
        | error e => exact hnext
        | ok grouping' => exact feed_keeps keeps hpull limit grouping' child' s' hnext

theorem feed_ne_alreadyOpen
    (hpull : ∀ child s, (pull child s).1 ≠ .error (.alreadyOpen kind)) :
    ∀ (limit : Nat) (grouping : Grouping) (child : κ) (s : σ),
      (feed pull limit grouping child s).1 ≠ .error (.alreadyOpen kind)
  | 0, _, _, _ => by simp [feed]
  | limit + 1, grouping, child, s => by
    have hnext := hpull child s
    unfold feed
    cases hrow : pull child s with
    | mk result rest =>
      obtain ⟨child', s'⟩ := rest
      rw [hrow] at hnext
      rcases result with e | _ | row
      · simpa using hnext
      · dsimp only
        rcases hknown : grouping.results with ⟨e | rows, grouping'⟩
        · rintro ⟨⟩
          cases Grouping.isProtocol_of_results hknown
        · simp
      · dsimp only
        cases hmerge : grouping.merge row with
        | error e =>
          unfold Grouping.merge at hmerge
          split at hmerge
          · cases hmerge
            simp
          · split at hmerge <;> cases hmerge
            simp
        | ok grouping' => exact feed_ne_alreadyOpen hpull limit grouping' child' s'

@[simp] theorem isOpen_hasNext (a : Aggregation) : a.hasNext.2.isOpen = a.isOpen := by
  unfold hasNext
  split_ifs
  · rcases a.grouping.results with ⟨e | rows, grouping⟩ <;> rfl
  · rfl

@[simp] theorem isOpen_next (a : Aggregation) : a.next.2.isOpen = a.isOpen := by
  unfold next
  split_ifs
  · rcases a.grouping.results with ⟨e | rows, grouping⟩
    · rfl
    · dsimp only
      cases rows[a.position]? <;> rfl
  · rfl

@[simp] theorem isOpen_rewind (a : Aggregation) : a.rewind.2.isOpen = a.isOpen := by
  unfold rewind
  split_ifs <;> rfl

theorem next_ne_alreadyOpen (a : Aggregation) : a.next.1 ≠ .error (.alreadyOpen kind) := by
  unfold next
  split_ifs
  · rcases hknown : a.grouping.results with ⟨e | rows, grouping⟩
    · rintro ⟨⟩
      cases Grouping.isProtocol_of_results hknown
    · dsimp only
      cases rows[a.position]? <;> simp
  · simp

/-- An open aggregation does not refuse for its being open or closed. -/
theorem isProtocol_of_hasNext (hopen : a.isOpen = true) (h : a.hasNext.1 = .error e) :
    e.isProtocol = false := by
  unfold hasNext at h
  rw [if_pos hopen] at h
  rcases hknown : a.grouping.results with ⟨e' | rows, grouping⟩
  · simp only [hknown, Except.error.injEq] at h
    exact h ▸ Grouping.isProtocol_of_results hknown
  · simp [hknown] at h

/-- What an aggregation knows once it was asked whether there is another result. -/
theorem hasNext_eq_ok (h : a.hasNext = (.ok more, a')) :
    ∃ rows grouping, a.isOpen = true ∧ a.grouping.results = (.ok rows, grouping) ∧
      more = decide (a.position < rows.length) ∧ a' = { a with grouping } := by
  unfold hasNext at h
  split_ifs at h with hopen
  · rcases hknown : a.grouping.results with ⟨e | rows, grouping⟩
    · simp [hknown] at h
    · simp only [hknown, Prod.mk.injEq, Except.ok.injEq] at h
      exact ⟨rows, grouping, hopen, rfl, h.1.symm, h.2.symm⟩
  · simp at h

theorem hasNext_again (h : a.hasNext = (.ok more, a')) : a'.hasNext = (.ok more, a') := by
  obtain ⟨rows, grouping, hopen, hknown, rfl, rfl⟩ := hasNext_eq_ok h
  simp [hasNext, hopen, Grouping.results_again hknown]

theorem next_of_hasNext (h : a.hasNext = (.ok more, a')) : a'.next = a.next := by
  obtain ⟨rows, grouping, hopen, hknown, -, rfl⟩ := hasNext_eq_ok h
  simp [next, hopen, hknown, Grouping.results_again hknown]

theorem isSome_of_next {found : Option Row} (h : a.hasNext = (.ok more, a'))
    (hnext : a.next.1 = .ok found) : more = found.isSome := by
  obtain ⟨rows, grouping, hopen, hknown, rfl, -⟩ := hasNext_eq_ok h
  simp only [next, hopen, if_true, hknown] at hnext
  cases hrow : rows[a.position]? with
  | none =>
    rw [hrow] at hnext
    rw [← Except.ok.inj hnext]
    simpa using hrow
  | some row =>
    rw [hrow] at hnext
    rw [← Except.ok.inj hnext]
    exact decide_eq_true (List.getElem?_eq_some_iff.mp hrow).1

end Aggregation

/-! ## Scans -/

namespace TableScan

variable {scan scan' : TableScan}

/-- Whatever comes of the row, asking for the next one moves the cursor. -/
theorem snd_next {cursor : Cursor} (h : scan.cursor = some cursor)
    (s : Store) :
    (scan.next s).2 =
      ({ scan with cursor := some (cursor.pull s).2.1 }, (cursor.pull s).2.2) := by
  unfold next
  rw [h]
  dsimp only
  rcases cursor.pull s with ⟨e | _ | row, cursor', s'⟩
  · rfl
  · rfl
  · dsimp only
    cases row.withSchema scan.schema <;> rfl

theorem next_of_pull_none {cursor : Cursor} (h : scan.cursor = some cursor)
    (hpull : (cursor.pull s).1 = .ok none) :
    scan.next s =
      (.ok none, { scan with cursor := some (cursor.pull s).2.1 }, (cursor.pull s).2.2) := by
  refine Prod.ext ?_ (snd_next h s)
  unfold next
  rw [h]
  dsimp only
  rcases hmoved : cursor.pull s with ⟨result, moved⟩
  rw [hmoved] at hpull
  obtain rfl : result = .ok none := hpull
  rfl

theorem next_of_pull_some {cursor : Cursor} {row : Row} (h : scan.cursor = some cursor)
    (hpull : (cursor.pull s).1 = .ok (some row)) (hagree : scan.schema.Agrees row.schema) :
    scan.next s = (.ok (some { row with schema := scan.schema }),
      { scan with cursor := some (cursor.pull s).2.1 }, (cursor.pull s).2.2) := by
  refine Prod.ext ?_ (snd_next h s)
  unfold next
  rw [h]
  dsimp only
  rcases hmoved : cursor.pull s with ⟨result, moved⟩
  rw [hmoved] at hpull
  obtain rfl : result = .ok (some row) := hpull
  dsimp only
  rw [Row.withSchema, if_pos hagree]

/-- A scan hands out a row when its cursor does, and fails when that fails or the row has another
schema. -/
theorem next_cases {cursor : Cursor} (h : scan.cursor = some cursor) (s : Store) :
    (∃ e, scan.next s =
      (.error e, { scan with cursor := some (cursor.pull s).2.1 }, (cursor.pull s).2.2)) ∨
    ((cursor.pull s).1 = .ok none ∧ scan.next s =
      (.ok none, { scan with cursor := some (cursor.pull s).2.1 }, (cursor.pull s).2.2)) ∨
    ∃ row found, (cursor.pull s).1 = .ok (some row) ∧ scan.next s =
      (.ok (some found), { scan with cursor := some (cursor.pull s).2.1 }, (cursor.pull s).2.2) := by
  unfold next
  rw [h]
  dsimp only
  rcases cursor.pull s with ⟨e | _ | row, cursor', s'⟩
  · exact Or.inl ⟨_, rfl⟩
  · exact Or.inr (Or.inl ⟨rfl, rfl⟩)
  · dsimp only
    cases row.withSchema scan.schema with
    | error e => exact Or.inl ⟨_, rfl⟩
    | ok found => exact Or.inr (Or.inr ⟨row, found, rfl, rfl⟩)

/-- An open scan does not refuse for its being open or closed. -/
theorem isProtocol_of_hasNext (hopen : scan.cursor.isSome = true)
    (h : (scan.hasNext s).1 = .error e) : e.isProtocol = false := by
  obtain ⟨cursor, hcursor⟩ := Option.isSome_iff_exists.mp hopen
  unfold hasNext at h
  rw [hcursor] at h
  dsimp only at h
  cases hnext : (cursor.hasNext s).1 with
  | error cause =>
    simp only [hnext, Except.mapError, Except.error.injEq] at h
    exact h ▸ rfl
  | ok more => simp [hnext, Except.mapError] at h

theorem next_ne_alreadyOpen (scan : TableScan) (s : Store) :
    (scan.next s).1 ≠ .error (.alreadyOpen kind) := by
  unfold next
  cases scan.cursor with
  | none => simp
  | some cursor =>
    dsimp only
    rcases cursor.pull s with ⟨e | _ | row, cursor', s'⟩
    · simp
    · simp
    · dsimp only
      cases row.withSchema scan.schema <;> simp

theorem hasNext_eq_ok (h : scan.hasNext s = (.ok more, scan', s')) :
    ∃ cursor cursor', scan.cursor = some cursor ∧
      cursor.hasNext s = (.ok more, cursor', s') ∧
      scan' = { scan with cursor := some cursor' } := by
  unfold hasNext at h
  cases hcursor : scan.cursor with
  | none => simp [hcursor] at h
  | some cursor =>
    rw [hcursor] at h
    dsimp only at h
    rcases hnext : cursor.hasNext s with ⟨e | found, cursor', s₁⟩
    · simp [hnext, Except.mapError] at h
    · simp only [hnext, Except.mapError, Prod.mk.injEq, Except.ok.injEq] at h
      obtain ⟨rfl, rfl, rfl⟩ := h
      exact ⟨cursor, cursor', rfl, hnext, rfl⟩

theorem hasNext_again (h : scan.hasNext s = (.ok more, scan', s')) :
    scan'.hasNext s' = (.ok more, scan', s') := by
  obtain ⟨cursor, cursor', -, hnext, rfl⟩ := hasNext_eq_ok h
  simp [hasNext, Cursor.hasNext_again hnext, Except.mapError]

theorem next_of_hasNext (h : scan.hasNext s = (.ok more, scan', s')) :
    scan'.next s' = scan.next s := by
  obtain ⟨cursor, cursor', hcursor, hnext, rfl⟩ := hasNext_eq_ok h
  simp only [next, hcursor, Cursor.pull_of_hasNext hnext]

theorem isSome_of_next {found : Option Row} (h : scan.hasNext s = (.ok more, scan', s'))
    (hrow : (scan.next s).1 = .ok found) : more = found.isSome := by
  obtain ⟨cursor, cursor', hcursor, hnext, -⟩ := hasNext_eq_ok h
  have hpull := @Cursor.isSome_of_pull cursor cursor' s s' more
  unfold next at hrow
  rw [hcursor] at hrow
  dsimp only at hrow
  rcases hres : cursor.pull s with ⟨e | _ | row, cursor'', s''⟩
  · simp [hres] at hrow
  · rw [hres] at hrow
    rw [← Except.ok.inj hrow]
    exact hpull hnext (congrArg Prod.fst hres)
  · have hmore : more = true := hpull hnext (congrArg Prod.fst hres)
    rw [hres] at hrow
    dsimp only at hrow
    cases hschema : row.withSchema scan.schema with
    | error e => simp [hschema] at hrow
    | ok renamed =>
      rw [hschema] at hrow
      rw [← Except.ok.inj hrow]
      exact hmore

end TableScan

end RowStore
