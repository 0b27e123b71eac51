import Mathlib.Data.List.Nodup

/-!
# RowStore.Proofs.Lookup: look-ups in association lists

The files of a disk and the frames of a cache are association lists, and the entries of a catalog
are found by keys of their own.  What a look-up finds after an entry was dropped or values were
changed in place, and that it finds every entry when no key is listed twice.
-/

namespace RowStore.Lookup

variable {κ β : Type} [BEq κ] [LawfulBEq κ]

/-- Dropping the entries of one key hides that key and no other. -/
theorem lookup_filter_ne [DecidableEq κ] (entries : List (κ × β)) (gone key : κ) :
    (entries.filter fun entry => entry.1 ≠ gone).lookup key =
      if key = gone then none else entries.lookup key := by
  split_ifs with h
  · rw [List.lookup_eq_none_iff]
    intro entry he
    have hne : entry.1 ≠ gone := by simpa using (List.mem_filter.mp he).2
    simpa [h] using hne.symm
  · induction entries with
    | nil => rfl
    | cons entry entries ih =>
      by_cases hk : entry.1 = gone
      · have hkey : (key == entry.1) = false := by simpa [hk] using h
        rw [List.filter_cons_of_neg (by simpa using hk), ih, ← Prod.eta entry, List.lookup_cons, hkey]
      · rw [List.filter_cons_of_pos (by simpa using hk), ← Prod.eta entry, List.lookup_cons,
          List.lookup_cons, ih]

/-- Changing values in place changes what a look-up finds, not whether it finds something. -/
theorem lookup_map (entries : List (κ × β)) (change : κ → β → β) (key : κ) :
    (entries.map fun entry => (entry.1, change entry.1 entry.2)).lookup key =
      (entries.lookup key).map (change key) := by
  induction entries with
  | nil => rfl
  | cons entry entries ih =>
    obtain ⟨k, v⟩ := entry
    simp only [List.map_cons, List.lookup_cons, ih]
    by_cases hkey : key = k
    · subst hkey
      simp
    · rw [beq_eq_false_iff_ne.mpr hkey]

/-- When no key is listed twice, every entry is found. -/
theorem lookup_eq_some_iff_mem {entries : List (κ × β)} (hd : (entries.map Prod.fst).Nodup)
    {key : κ} {value : β} : entries.lookup key = some value ↔ (key, value) ∈ entries := by
  induction entries with
  | nil => simp
  | cons entry entries ih =>
    obtain ⟨k, v⟩ := entry
    simp only [List.map_cons, List.nodup_cons, List.mem_map, not_exists, not_and] at hd
    rw [List.lookup_cons, List.mem_cons]
    by_cases hkey : key = k
    · subst hkey
      have hnot : (key, value) ∉ entries := fun hm => hd.1 (key, value) hm rfl
      simp [hnot, eq_comm]
    · rw [beq_eq_false_iff_ne.mpr hkey]
      simp [ih hd.2, hkey]

theorem mem_of_lookup {entries : List (κ × β)} {key : κ} {value : β}
    (h : entries.lookup key = some value) : (key, value) ∈ entries := by
  obtain ⟨before, behind, rfl, -⟩ := List.lookup_eq_some_iff.mp h
  simp

/-- A key is found when it is listed. -/
theorem lookup_isSome_iff_mem {entries : List (κ × β)} {key : κ} :
    (entries.lookup key).isSome ↔ key ∈ entries.map Prod.fst := by
  rw [List.lookup_isSome_iff, List.mem_map]
  constructor
  · rintro ⟨entry, he, hkey⟩
    exact ⟨entry, he, (eq_of_beq hkey).symm⟩
  · rintro ⟨entry, he, rfl⟩
    exact ⟨entry, he, beq_self_eq_true _⟩

/-- When no two elements have one key, the element with a key is found by it. -/
theorem find?_eq_some_iff_mem {α γ : Type} [DecidableEq γ] {elements : List α} {keyOf : α → γ}
    (hd : (elements.map keyOf).Nodup) {key : γ} {element : α} :
    elements.find? (fun other => keyOf other = key) = some element ↔
      element ∈ elements ∧ keyOf element = key := by
  constructor
  · intro h
    exact ⟨List.mem_of_find?_eq_some h, by simpa using List.find?_some h⟩
  · rintro ⟨hmem, rfl⟩
    cases hfind : elements.find? fun other => keyOf other = keyOf element with
    | none => simpa using List.find?_eq_none.mp hfind element hmem
    | some other =>
      have hkey : keyOf other = keyOf element := by simpa using List.find?_some hfind
      rw [List.inj_on_of_nodup_map hd (List.mem_of_find?_eq_some hfind) hmem hkey]

end RowStore.Lookup
