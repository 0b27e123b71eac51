import RowStore.Proofs.Store.Moves

/-!
# RowStore.Proofs.Cursor: asking a cursor ahead

`Cursor.hasNext` may read pages and fill the buffer, but it does so once: asked again it answers
the same and changes nothing more, and the row that follows is the one that would have followed
without asking.  This holds of every store, whatever became of its pages.
-/

namespace RowStore.Cursor

variable {cursor cursor' : Cursor} {s s' : Store} {more : Bool} {found : Option Row}

/-! ## Filling the buffer -/

/-- Filling the buffer writes nothing. -/
theorem disk_fill : ∀ (remaining : Nat) (cursor : Cursor) (s : Store),
    (cursor.fill remaining s).2.2.disk = s.disk
  | 0, _, _ => rfl
  | remaining + 1, cursor, s => by
    have hdisk := Store.disk_fetch s ⟨cursor.table.id, cursor.next⟩
    unfold fill
    cases hfetch : s.fetch ⟨cursor.table.id, cursor.next⟩ with
    | mk result s₁ =>
      rw [hfetch] at hdisk
      cases result with
      | error e => exact hdisk
      | ok page =>
        dsimp only
        cases page.rows with
        | error e => exact hdisk
        | ok rows =>
          cases rows with
          | nil => exact (disk_fill remaining _ s₁).trans hdisk
          | cons first rest => exact hdisk

theorem table_fill : ∀ (remaining : Nat) (cursor : Cursor) (s : Store),
    (cursor.fill remaining s).2.1.table = cursor.table
  | 0, _, _ => rfl
  | remaining + 1, cursor, s => by
    unfold fill
    rcases s.fetch ⟨cursor.table.id, cursor.next⟩ with ⟨e | content, s₁⟩
    · rfl
    · dsimp only
      rcases content.rows with e | _ | ⟨first, rest⟩
      · rfl
      · exact table_fill remaining { cursor with next := cursor.next + 1 } s₁
      · rfl

theorem table_hasNext (cursor : Cursor) (s : Store) :
    (cursor.hasNext s).2.1.table = cursor.table := by
  unfold hasNext
  split_ifs
  · rfl
  · exact table_fill _ cursor s
  · rfl

theorem table_pull (cursor : Cursor) (s : Store) :
    (cursor.pull s).2.1.table = cursor.table := by
  have htable := cursor.table_hasNext s
  unfold pull
  rcases hnext : cursor.hasNext s with ⟨e | _ | _, moved⟩ <;> (rw [hnext] at htable; exact htable)

/-- A cursor that found no row has gone through all the pages that were left; one that found a row
has it in its buffer. -/
theorem fill_eq_ok : ∀ (remaining : Nat) {cursor : Cursor} {s : Store},
    cursor.fill remaining s = (.ok more, cursor', s') →
      cursor'.table = cursor.table ∧ cursor'.isOpen = cursor.isOpen ∧
        (more = true ∧ cursor'.buffer ≠ [] ∨
          more = false ∧ cursor'.buffer = cursor.buffer ∧ cursor'.next = cursor.next + remaining)
  | 0, cursor, s, h => by
    simp only [fill, Prod.mk.injEq, Except.ok.injEq] at h
    obtain ⟨rfl, rfl, -⟩ := h
    exact ⟨rfl, rfl, Or.inr ⟨rfl, rfl, rfl⟩⟩
  | remaining + 1, cursor, s, h => by
    unfold fill at h
    cases hfetch : s.fetch ⟨cursor.table.id, cursor.next⟩ with
    | mk result s₁ =>
      rw [hfetch] at h
      cases result with
      | error e => simp at h
      | ok page =>
        dsimp only at h
        cases hrows : page.rows with
        | error e => simp [hrows] at h
        | ok rows =>
          cases rows with
          | nil =>
            rw [hrows] at h
            obtain ⟨htable, hopen, hfound⟩ := fill_eq_ok remaining h
            refine ⟨htable, hopen, hfound.imp id ?_⟩
            rintro ⟨hmore, hbuffer, hnext⟩
            have hcount : cursor'.next = cursor.next + (remaining + 1) := by
              rw [hnext]
              dsimp only
              omega
            exact ⟨hmore, hbuffer, hcount⟩
          | cons first rest =>
            simp only [hrows, Prod.mk.injEq, Except.ok.injEq] at h
            obtain ⟨rfl, rfl, -⟩ := h
            exact ⟨rfl, rfl, Or.inl ⟨rfl, List.cons_ne_nil _ _⟩⟩

/-! ## Asking ahead -/

/-- A cursor says that there is another row exactly when it has one in its buffer afterwards. -/
theorem buffer_of_hasNext (h : cursor.hasNext s = (.ok true, cursor', s')) :
    cursor'.buffer ≠ [] := by
  unfold hasNext at h
  split_ifs at h with hopen hempty
  · simp at h
  · obtain ⟨-, -, ⟨-, hbuffer⟩ | ⟨hmore, -⟩⟩ := fill_eq_ok _ h
    · exact hbuffer
    · cases hmore
  · simp only [Prod.mk.injEq, true_and] at h
    obtain ⟨rfl, -⟩ := h
    simpa using hempty

/-- Asked again, a cursor gives the same answer and stays as it is. -/
theorem hasNext_again (h : cursor.hasNext s = (.ok more, cursor', s')) :
    cursor'.hasNext s' = (.ok more, cursor', s') := by
  have hdisk := disk_fill (cursor.table.pageCount s.disk - cursor.next) cursor s
  unfold hasNext at h
  split_ifs at h with hclosed hempty
  · simp only [Prod.mk.injEq, Except.ok.injEq] at h
    obtain ⟨rfl, rfl, rfl⟩ := h
    rw [hasNext, if_pos hclosed]
  · rw [h] at hdisk
    dsimp only at hdisk
    obtain ⟨htable, hopen, ⟨rfl, hbuffer⟩ | ⟨rfl, hbuffer, hnext⟩⟩ := fill_eq_ok _ h
    · rw [hasNext, hopen, if_neg hclosed, if_neg (by simpa using hbuffer)]
    · have hdone : cursor'.table.pageCount s'.disk - cursor'.next = 0 := by
        rw [htable, hdisk, hnext]
        omega
      rw [hasNext, hopen, if_neg hclosed, if_pos (hbuffer ▸ hempty), hdone]
      rfl
  · simp only [Prod.mk.injEq, Except.ok.injEq] at h
    obtain ⟨rfl, rfl, rfl⟩ := h
    rw [hasNext, if_neg hclosed, if_neg hempty]

/-- Asking ahead does not change which row comes next. -/
theorem pull_of_hasNext (h : cursor.hasNext s = (.ok more, cursor', s')) :
    cursor'.pull s' = cursor.pull s := by
  rw [pull, pull, hasNext_again h, h]

/-- There is a next row exactly when the cursor says so. -/
theorem isSome_of_pull (h : cursor.hasNext s = (.ok more, cursor', s'))
    (hpull : (cursor.pull s).1 = .ok found) : more = found.isSome := by
  rw [pull, h] at hpull
  cases more with
  | false =>
    rw [← Except.ok.inj hpull]
    rfl
  | true =>
    have hbuffer := buffer_of_hasNext h
    rw [← Except.ok.inj hpull]
    cases hrows : cursor'.buffer with
    | nil => exact absurd hrows hbuffer
    | cons first rest => rfl

end RowStore.Cursor
