import RowStore.Proofs.Catalog
import Mathlib.Data.List.Dedup
import Mathlib.Logic.Function.Basic

/-!
# RowStore.Proofs.Catalog.History: what a catalog lists after many registrations

A registration stands until a later one takes its name or its identity, or all tables are forgotten.
After any history a catalog lists the registrations that stand, in the order they were made
(`entries_foldl`); names and identities are inverse to each other, and an identity has the table it
was registered with last (`Catalog.Follows`).

The same can be kept in three parts, one for the identities, one for the names and one for the
order, of which a registration changes each by itself (`Catalog.Index.add`).  They stay in step with
the catalog (`index_apply`).
-/

namespace RowStore.Catalog

variable {catalog : Catalog} {entry : CatalogEntry} {table : Table} {id : TableId} {name : String}

/-! ## Histories -/

/-- A change to the registered tables. -/
inductive Change where
  | add (table : Table) (name : String)
  | clear
  deriving DecidableEq, Repr

namespace Change

/-- Whether a registration that was made before ends with this change. -/
def displaces (change : Change) (entry : CatalogEntry) : Bool :=
  match change with
  | .add table name => name = entry.name || table.id = entry.table.id
  | .clear => true

/-- The registration that is made. -/
def entry? : Change → Option CatalogEntry
  | .add table name => some ⟨table, name⟩
  | .clear => none

end Change

/-- The catalog after a change. -/
def apply (catalog : Catalog) : Change → Catalog
  | .add table name => catalog.add table name
  | .clear => .empty

/-- The catalog after a history of changes. -/
def after (changes : List Change) : Catalog :=
  changes.foldl apply .empty

/-- The registrations of a history, in the order they were made. -/
def registrations (changes : List Change) : List CatalogEntry :=
  changes.filterMap Change.entry?

/-- The registrations of a history that no later change ends, in the order they were made. -/
def standing : List Change → List CatalogEntry
  | [] => []
  | .add table name :: later =>
    if later.any fun change => change.displaces ⟨table, name⟩ then standing later
    else ⟨table, name⟩ :: standing later
  | .clear :: later => standing later

/-- A registration is made in the history, and no later change ends it. -/
def Stands (changes : List Change) (entry : CatalogEntry) : Prop :=
  ∃ before later, changes = before ++ .add entry.table entry.name :: later ∧
    ∀ change ∈ later, change.displaces entry = false

/-! ## What is listed -/

/-- A change drops the entries it ends, and appends the one that is registered. -/
theorem entries_apply (catalog : Catalog) (change : Change) :
    (catalog.apply change).entries =
      (catalog.entries.filter fun entry => !change.displaces entry) ++ change.entry?.toList := by
  cases change with
  | clear => simp [apply, empty, Change.displaces, Change.entry?]
  | add table name =>
    simp only [apply, add, Change.displaces, Change.entry?, Option.toList_some]
    congr 1
    refine List.filter_congr fun entry _ => ?_
    simp [eq_comm]

theorem standing_cons (change : Change) (later : List Change) :
    standing (change :: later) =
      (change.entry?.toList.filter fun entry => !later.any fun next => next.displaces entry) ++
        standing later := by
  cases change with
  | clear => rfl
  | add table name =>
    rw [standing, Change.entry?, Option.toList_some, List.filter_singleton]
    cases later.any fun next => next.displaces ⟨table, name⟩ <;> rfl

/-- After a history a catalog lists what it listed and no change has ended, and then the
registrations that stand. -/
theorem entries_foldl (changes : List Change) (catalog : Catalog) :
    (changes.foldl apply catalog).entries =
      (catalog.entries.filter fun entry => !changes.any fun change => change.displaces entry) ++
        standing changes := by
  induction changes generalizing catalog with
  | nil => simp [standing]
  | cons change later ih =>
    rw [List.foldl_cons, ih, entries_apply, List.filter_append, List.filter_filter, standing_cons,
      List.append_assoc]
    simp only [List.any_cons, Bool.not_or, Bool.and_comm]

theorem entries_after (changes : List Change) : (after changes).entries = standing changes := by
  rw [after, entries_foldl]
  rfl

theorem mem_standing {changes : List Change} : entry ∈ standing changes ↔ Stands changes entry := by
  induction changes with
  | nil => simp [standing, Stands]
  | cons change later ih =>
    rw [standing_cons, List.mem_append, List.mem_filter, Option.mem_toList, ih]
    constructor
    · rintro (⟨hentry, hlater⟩ | ⟨before, behind, rfl, hnone⟩)
      · cases change with
        | clear => cases hentry
        | add table name =>
          obtain rfl := Option.some.inj hentry
          exact ⟨[], later, rfl, by simpa using hlater⟩
      · exact ⟨change :: before, behind, rfl, hnone⟩
    · rintro ⟨before, behind, hchanges, hnone⟩
      cases before with
      | nil =>
        obtain ⟨rfl, rfl⟩ := List.cons.inj hchanges
        exact .inl ⟨rfl, by simpa using hnone⟩
      | cons first before =>
        obtain ⟨rfl, rfl⟩ := List.cons.inj hchanges
        exact .inr ⟨before, behind, rfl, hnone⟩

/-! ## Distinct names and identities -/

/-- No identity and no name is listed twice. -/
structure Distinct (catalog : Catalog) : Prop where
  ids : catalog.ids.Nodup
  names : (catalog.entries.map CatalogEntry.name).Nodup

theorem distinct_empty : Catalog.empty.Distinct :=
  ⟨List.nodup_nil, List.nodup_nil⟩

theorem Distinct.add (hd : catalog.Distinct) (table : Table) (name : String) :
    (catalog.add table name).Distinct :=
  ⟨nodup_add hd.ids table name, nodup_map_add hd.names table name fun _ hkept => hkept.1⟩

theorem Distinct.apply (hd : catalog.Distinct) (change : Change) :
    (catalog.apply change).Distinct := by
  cases change with
  | add table name => exact hd.add table name
  | clear => exact distinct_empty

theorem distinct_foldl (hd : catalog.Distinct) (changes : List Change) :
    (changes.foldl Catalog.apply catalog).Distinct := by
  induction changes generalizing catalog with
  | nil => exact hd
  | cons change later ih => exact ih (hd.apply change)

namespace Distinct

variable (hd : catalog.Distinct)
include hd

theorem entry_eq_ok_iff :
    catalog.entry id = .ok entry ↔ entry ∈ catalog.entries ∧ entry.table.id = id := by
  have hids : (catalog.entries.map fun entry => entry.table.id).Nodup := hd.ids
  rw [← Lookup.find?_eq_some_iff_mem hids, Catalog.entry]
  cases catalog.entries.find? fun entry => entry.table.id = id <;> simp

/-- What is read off the entry of an identity is read off an entry that is listed. -/
theorem map_entry_eq_ok_iff {β : Type} {read : CatalogEntry → β} {found : β} :
    (catalog.entry id).map read = .ok found ↔
      ∃ entry ∈ catalog.entries, entry.table.id = id ∧ read entry = found := by
  constructor
  · intro h
    cases hentry : catalog.entry id with
    | error e =>
      rw [hentry] at h
      cases h
    | ok entry =>
      rw [hentry] at h
      obtain ⟨hmem, hid⟩ := hd.entry_eq_ok_iff.mp hentry
      exact ⟨entry, hmem, hid, Except.ok.inj h⟩
  · rintro ⟨entry, hmem, hid, rfl⟩
    rw [hd.entry_eq_ok_iff.mpr ⟨hmem, hid⟩]
    rfl

theorem nameOf_eq_ok_iff :
    catalog.nameOf id = .ok name ↔
      ∃ entry ∈ catalog.entries, entry.table.id = id ∧ entry.name = name :=
  hd.map_entry_eq_ok_iff

theorem idOf_eq_ok_iff :
    catalog.idOf name = .ok id ↔
      ∃ entry ∈ catalog.entries, entry.table.id = id ∧ entry.name = name := by
  have hfind : ∀ entry, catalog.entries.find? (fun entry => entry.name = name) = some entry ↔
      entry ∈ catalog.entries ∧ entry.name = name :=
    fun _ => Lookup.find?_eq_some_iff_mem hd.names
  unfold idOf
  constructor
  · intro h
    cases hentry : catalog.entries.find? fun entry => entry.name = name with
    | none => simp [hentry] at h
    | some entry =>
      rw [hentry] at h
      obtain ⟨hmem, hname⟩ := (hfind entry).mp hentry
      exact ⟨entry, hmem, Except.ok.inj h, hname⟩
  · rintro ⟨entry, hmem, rfl, hname⟩
    rw [(hfind entry).mpr ⟨hmem, hname⟩]

/-- The table of an identity is the one of an entry that is listed. -/
theorem table_eq_ok_iff :
    catalog.table id = .ok table ↔
      ∃ entry ∈ catalog.entries, entry.table.id = id ∧ entry.table = table :=
  hd.map_entry_eq_ok_iff

end Distinct

/-! ## The order of registration -/

theorem mem_registrations {changes : List Change} :
    entry ∈ registrations changes ↔ .add entry.table entry.name ∈ changes := by
  rw [registrations, List.mem_filterMap]
  constructor
  · rintro ⟨change, hmem, hentry⟩
    cases change with
    | clear => cases hentry
    | add table name =>
      obtain rfl := Option.some.inj hentry
      exact hmem
  · intro hmem
    exact ⟨_, hmem, rfl⟩

/-- An identity whose registration no change ends is not registered by any of them. -/
theorem not_mem_registrations {later : List Change}
    (h : ∀ change ∈ later, change.displaces entry = false) {other : CatalogEntry}
    (hother : other ∈ registrations later) : other.table.id ≠ entry.table.id := by
  intro hid
  have hdisplaces := h _ (mem_registrations.mp hother)
  rw [Change.displaces, hid, decide_eq_true rfl, Bool.or_true] at hdisplaces
  cases hdisplaces

/-- The identities that stand come in the order in which each was registered last. -/
theorem sublist_standing (changes : List Change) :
    ((standing changes).map fun entry => entry.table.id).Sublist
      ((registrations changes).map fun entry => entry.table.id).dedup := by
  induction changes with
  | nil => exact .slnil
  | cons change later ih =>
    cases change with
    | clear => exact ih
    | add table name =>
      have hcons : (registrations (.add table name :: later)).map (fun entry => entry.table.id) =
          table.id :: (registrations later).map fun entry => entry.table.id := rfl
      rw [hcons, standing]
      split_ifs with hdisplaced
      · refine ih.trans ?_
        rw [List.dedup_cons]
        split_ifs
        · exact .refl _
        · exact List.sublist_cons_self _ _
      · have hlast : ∀ change ∈ later, change.displaces ⟨table, name⟩ = false := by
          simpa using hdisplaced
        have hnew : table.id ∉ (registrations later).map fun entry => entry.table.id := by
          intro hmem
          obtain ⟨other, hother, hid⟩ := List.mem_map.mp hmem
          exact not_mem_registrations hlast hother hid
        rw [List.dedup_cons_of_notMem hnew]
        exact ih.cons_cons _

/-- A registration that stands is the last of its identity. -/
theorem Stands.latest {changes : List Change} (h : Stands changes entry) :
    ((registrations changes).filter fun other => other.table.id = entry.table.id).getLast? =
      some entry := by
  obtain ⟨before, later, rfl, hnone⟩ := h
  have hlater : (registrations later).filter (fun other => other.table.id = entry.table.id) = [] := by
    rw [List.filter_eq_nil_iff]
    intro other hother
    simpa using not_mem_registrations hnone hother
  have hsplit : registrations (before ++ .add entry.table entry.name :: later) =
      registrations before ++ entry :: registrations later :=
    List.filterMap_append ..
  rw [hsplit, List.filter_append, List.filter_cons_of_pos (by simp), hlater, List.getLast?_concat]

/-! ## What a catalog answers -/

/-- What a catalog answers after a history. -/
structure Follows (catalog : Catalog) (changes : List Change) : Prop where
  /-- An identity has a name exactly when the name has the identity. -/
  inverse : ∀ id name, catalog.nameOf id = .ok name ↔ catalog.idOf name = .ok id
  /-- An identity that is listed has a table and a name, and no other has either. -/
  listed : ∀ id, (id ∈ catalog.ids ↔ ∃ table, catalog.table id = .ok table) ∧
    (id ∈ catalog.ids ↔ ∃ name, catalog.nameOf id = .ok name)
  distinct : catalog.ids.Nodup
  /-- The identities are listed in the order in which each was registered last. -/
  order : catalog.ids.Sublist ((registrations changes).map fun entry => entry.table.id).dedup
  /-- A table is the one that was registered last under its identity. -/
  latest : ∀ id table, catalog.table id = .ok table →
    ((registrations changes).filter fun entry => entry.table.id = id).getLast?.map
      CatalogEntry.table = some table
  /-- A table is registered under a name as long as no later change ends that. -/
  stands : ∀ table name, Stands changes ⟨table, name⟩ ↔
    catalog.table table.id = .ok table ∧ catalog.nameOf table.id = .ok name

/-- What follows for the answers of a catalog that lists the registrations that stand. -/
theorem follows_of_standing {changes : List Change} (hd : catalog.Distinct)
    (hentries : catalog.entries = standing changes) : catalog.Follows changes where
  inverse id name := hd.nameOf_eq_ok_iff.trans hd.idOf_eq_ok_iff.symm
  listed id := by
    constructor
    · simp only [hd.table_eq_ok_iff, ids, List.mem_map]
      exact ⟨fun ⟨entry, hmem, hid⟩ => ⟨_, entry, hmem, hid, rfl⟩,
        fun ⟨_, entry, hmem, hid, _⟩ => ⟨entry, hmem, hid⟩⟩
    · simp only [hd.nameOf_eq_ok_iff, ids, List.mem_map]
      exact ⟨fun ⟨entry, hmem, hid⟩ => ⟨_, entry, hmem, hid, rfl⟩,
        fun ⟨_, entry, hmem, hid, _⟩ => ⟨entry, hmem, hid⟩⟩
  distinct := hd.ids
  order := by
    rw [ids, hentries]
    exact sublist_standing changes
  latest id table htable := by
    obtain ⟨entry, hmem, rfl, rfl⟩ := hd.table_eq_ok_iff.mp htable
    rw [hentries, mem_standing] at hmem
    rw [hmem.latest]
    rfl
  stands table name := by
    rw [← mem_standing, ← hentries, hd.table_eq_ok_iff, hd.nameOf_eq_ok_iff]
    constructor
    · intro hmem
      exact ⟨⟨_, hmem, rfl, rfl⟩, ⟨_, hmem, rfl, rfl⟩⟩
    · rintro ⟨⟨entry, hmem, hid, rfl⟩, ⟨other, hother, hid', rfl⟩⟩
      -- both are the one entry of the identity
      obtain rfl := List.inj_on_of_nodup_map hd.ids hmem hother hid'.symm
      exact hmem

/-! ## Kept in three parts -/

/-- The registered tables by identity, the identities by name, and the identities in the order of
their registration. -/
@[ext]
structure Index where
  tables : TableId → Option CatalogEntry
  names : String → Option TableId
  order : List TableId

namespace Index

/-- The index of no tables. -/
def empty : Index := ⟨fun _ => none, fun _ => none, []⟩

/-- The index without an identity, the name it is registered under and its place in the order. -/
def remove (index : Index) (id : TableId) : Index :=
  match index.tables id with
  | none => index
  | some entry => {
      tables := Function.update index.tables id none
      names := Function.update index.names entry.name none
      order := index.order.filter fun other => other ≠ id }

/-- The index without the identity that has a name. -/
def removeName (index : Index) (name : String) : Index :=
  match index.names name with
  | none => index
  | some id => index.remove id

/-- The index with a table that has a name and an identity no other has. -/
def insert (index : Index) (table : Table) (name : String) : Index where
  tables := Function.update index.tables table.id (some ⟨table, name⟩)
  names := Function.update index.names name (some table.id)
  order := index.order ++ [table.id]

/-- Registers a table in place of the one of this name and of the one of its identity. -/
def add (index : Index) (table : Table) (name : String) : Index :=
  ((index.removeName name).remove table.id).insert table name

/-- The index after a change. -/
def apply (index : Index) : Change → Index
  | .add table name => index.add table name
  | .clear => empty

/-- The index after a history of changes. -/
def after (changes : List Change) : Index :=
  changes.foldl apply empty

end Index

/-- The index of what a catalog lists. -/
def index (catalog : Catalog) : Index where
  tables id := (catalog.entry id).toOption
  names name := (catalog.idOf name).toOption
  order := catalog.ids

/-- The three parts of an index say what the catalog lists. -/
structure Index.Lists (index : Index) (catalog : Catalog) : Prop where
  tables : ∀ id entry, index.tables id = some entry ↔
    entry ∈ catalog.entries ∧ entry.table.id = id
  names : ∀ name id, index.names name = some id ↔
    ∃ entry ∈ catalog.entries, entry.table.id = id ∧ entry.name = name
  order : index.order = catalog.ids

/-- The catalog without the entry of an identity. -/
def without (catalog : Catalog) (id : TableId) : Catalog :=
  ⟨catalog.entries.filter fun entry => entry.table.id ≠ id⟩

@[simp] theorem mem_without :
    entry ∈ (catalog.without id).entries ↔ entry ∈ catalog.entries ∧ entry.table.id ≠ id := by
  simp [without]

theorem without_eq_self (h : ∀ entry ∈ catalog.entries, entry.table.id ≠ id) :
    catalog.without id = catalog := by
  have hall : catalog.entries.filter (fun entry => entry.table.id ≠ id) = catalog.entries :=
    List.filter_eq_self.mpr fun entry hentry => by simpa using h entry hentry
  rw [without, hall]

theorem ids_without : (catalog.without id).ids = catalog.ids.filter fun other => other ≠ id := by
  rw [ids, ids, List.filter_map]
  rfl

/-- Without some of its entries a catalog still lists no identity and no name twice. -/
theorem Distinct.filter (hd : catalog.Distinct) (keeps : CatalogEntry → Bool) :
    (Catalog.mk (catalog.entries.filter keeps)).Distinct :=
  ⟨hd.ids.sublist (List.filter_sublist.map _), hd.names.sublist (List.filter_sublist.map _)⟩

theorem toOption_eq_some_iff {ε α : Type} {result : Except ε α} {value : α} :
    result.toOption = some value ↔ result = .ok value := by
  cases result <;> simp [Except.toOption]

theorem Distinct.lists_index (hd : catalog.Distinct) : catalog.index.Lists catalog where
  tables id entry := by
    rw [← hd.entry_eq_ok_iff]
    exact toOption_eq_some_iff
  names name id := by
    rw [← hd.idOf_eq_ok_iff]
    exact toOption_eq_some_iff
  order := rfl

namespace Index.Lists

variable {index other : Index}

/-- No two indexes list the same. -/
theorem unique (h : index.Lists catalog) (h' : other.Lists catalog) : index = other := by
  ext1
  · funext id
    exact Option.ext fun entry => (h.tables id entry).trans (h'.tables id entry).symm
  · funext name
    exact Option.ext fun id => (h.names name id).trans (h'.names name id).symm
  · exact h.order.trans h'.order.symm

/-- Removing an identity from all three parts drops its entry. -/
theorem remove (h : index.Lists catalog) (hd : catalog.Distinct) (id : TableId) :
    (index.remove id).Lists (catalog.without id) := by
  unfold Index.remove
  cases hgone : index.tables id with
  | none =>
    have hnone : ∀ entry ∈ catalog.entries, entry.table.id ≠ id := by
      intro entry hmem hid
      have hsome := (h.tables id entry).mpr ⟨hmem, hid⟩
      rw [hgone] at hsome
      cases hsome
    rw [without_eq_self hnone]
    exact h
  | some gone =>
    obtain ⟨hmem, rfl⟩ := (h.tables id gone).mp hgone
    refine ⟨fun id entry => ?_, fun name id => ?_, ?_⟩
    · dsimp only
      rw [mem_without, Function.update_apply]
      split_ifs with hid
      · simp [hid]
      · rw [h.tables]
        constructor
        · rintro ⟨hentry, rfl⟩
          exact ⟨⟨hentry, hid⟩, rfl⟩
        · rintro ⟨⟨hentry, -⟩, hid⟩
          exact ⟨hentry, hid⟩
    · dsimp only
      rw [Function.update_apply]
      split_ifs with hname
      · -- the entry that goes is the only one of its name
        simp only [false_iff]
        rintro ⟨entry, hentry, -, rfl⟩
        obtain ⟨hentry, hne⟩ := mem_without.mp hentry
        exact hne (congrArg (·.table.id) (List.inj_on_of_nodup_map hd.names hentry hmem hname))
      · rw [h.names]
        constructor
        · rintro ⟨entry, hentry, hid, rfl⟩
          refine ⟨entry, mem_without.mpr ⟨hentry, fun hsame => hname ?_⟩, hid, rfl⟩
          exact congrArg (·.name) (List.inj_on_of_nodup_map hd.ids hentry hmem hsame)
        · rintro ⟨entry, hentry, hid, rfl⟩
          exact ⟨entry, (mem_without.mp hentry).1, hid, rfl⟩
    · dsimp only
      rw [h.order, ids_without]

/-- Removing the identity of a name drops the entry of the name. -/
theorem removeName (h : index.Lists catalog) (hd : catalog.Distinct) (name : String) :
    (index.removeName name).Lists ⟨catalog.entries.filter fun entry => entry.name ≠ name⟩ := by
  unfold Index.removeName
  cases hgone : index.names name with
  | none =>
    have hall : catalog.entries.filter (fun entry => entry.name ≠ name) = catalog.entries := by
      refine List.filter_eq_self.mpr fun entry hmem => ?_
      simp only [ne_eq, decide_not, Bool.not_eq_eq_eq_not, Bool.not_true, decide_eq_false_iff_not]
      intro hname
      have hsome := (h.names name entry.table.id).mpr ⟨entry, hmem, rfl, hname⟩
      rw [hgone] at hsome
      cases hsome
    rw [hall]
    exact h
  | some id =>
    obtain ⟨gone, hmem, rfl, rfl⟩ := (h.names name id).mp hgone
    have hfilter : catalog.without gone.table.id =
        ⟨catalog.entries.filter fun entry => entry.name ≠ gone.name⟩ := by
      refine congrArg Catalog.mk (List.filter_congr fun entry hentry => ?_)
      rw [decide_eq_decide, not_iff_not]
      constructor
      · intro hid
        exact congrArg (·.name) (List.inj_on_of_nodup_map hd.ids hentry hmem hid)
      · intro hname
        exact congrArg (·.table.id) (List.inj_on_of_nodup_map hd.names hentry hmem hname)
    rw [← hfilter]
    exact h.remove hd gone.table.id

/-- Adding a table to all three parts appends its entry. -/
theorem insert (h : index.Lists catalog) (hid : ∀ entry ∈ catalog.entries, entry.table.id ≠ table.id)
    (hname : ∀ entry ∈ catalog.entries, entry.name ≠ name) :
    (index.insert table name).Lists ⟨catalog.entries ++ [⟨table, name⟩]⟩ := by
  unfold Index.insert
  refine ⟨fun id entry => ?_, fun other id => ?_, ?_⟩
  · simp only [Function.update_apply, List.mem_append, List.mem_singleton]
    split_ifs with heq
    · subst heq
      constructor
      · intro hsome
        obtain rfl := Option.some.inj hsome
        exact ⟨.inr rfl, rfl⟩
      · rintro ⟨hold | rfl, hentry⟩
        · exact absurd hentry (hid entry hold)
        · rfl
    · rw [h.tables]
      constructor
      · rintro ⟨hentry, rfl⟩
        exact ⟨.inl hentry, rfl⟩
      · rintro ⟨hentry | rfl, rfl⟩
        · exact ⟨hentry, rfl⟩
        · exact absurd rfl heq
  · simp only [Function.update_apply, List.mem_append, List.mem_singleton]
    split_ifs with heq
    · subst heq
      constructor
      · intro hsome
        obtain rfl := Option.some.inj hsome
        exact ⟨⟨table, other⟩, .inr rfl, rfl, rfl⟩
      · rintro ⟨entry, hold | rfl, rfl, hentry⟩
        · exact absurd hentry (hname entry hold)
        · rfl
    · rw [h.names]
      constructor
      · rintro ⟨entry, hentry, rfl, rfl⟩
        exact ⟨entry, .inl hentry, rfl, rfl⟩
      · rintro ⟨entry, hentry | rfl, rfl, rfl⟩
        · exact ⟨entry, hentry, rfl, rfl⟩
        · exact absurd rfl heq
  · simp [h.order, ids]

/-- Registering a table in all three parts registers it in the catalog. -/
theorem add (h : index.Lists catalog) (hd : catalog.Distinct) (table : Table) (name : String) :
    (index.add table name).Lists (catalog.add table name) := by
  have hremoved := (h.removeName hd name).remove (hd.filter _) table.id
  have hadd : (index.add table name).Lists _ := hremoved.insert
    (fun entry hentry => (mem_without.mp hentry).2)
    (fun entry hentry => by simpa using (List.mem_filter.mp (mem_without.mp hentry).1).2)
  rw [without, List.filter_filter] at hadd
  have hkept : catalog.add table name =
      ⟨catalog.entries.filter (fun entry => entry.table.id ≠ table.id && entry.name ≠ name) ++
        [⟨table, name⟩]⟩ := by
    rw [Catalog.add]
    congr 2
    refine List.filter_congr fun entry _ => ?_
    rw [Bool.decide_and, Bool.and_comm]
  rw [hkept]
  exact hadd

end Index.Lists

/-- A change of all three parts is the change of the catalog. -/
theorem index_apply (hd : catalog.Distinct) (change : Change) :
    (catalog.apply change).index = catalog.index.apply change := by
  cases change with
  | add table name => exact (hd.add table name).lists_index.unique (hd.lists_index.add hd table name)
  | clear => rfl

theorem index_foldl (hd : catalog.Distinct) (changes : List Change) :
    (changes.foldl Catalog.apply catalog).index = changes.foldl Index.apply catalog.index := by
  induction changes generalizing catalog with
  | nil => rfl
  | cons change later ih =>
    rw [List.foldl_cons, List.foldl_cons, ih (hd.apply change), index_apply hd]

/-- After any history of registrations names and identities are inverse to each other, the
identities are listed once each in the order of their latest registration, an identity has the table
of its latest registration, and a registration lasts until a later one of its name or its identity;
and the index that is kept in three parts is the index of the catalog. -/
theorem after_follows (changes : List Change) :
    (after changes).Follows changes ∧ Index.after changes = (after changes).index :=
  ⟨follows_of_standing (distinct_foldl distinct_empty changes) (entries_after changes),
    (index_foldl distinct_empty changes).symm⟩

end RowStore.Catalog
