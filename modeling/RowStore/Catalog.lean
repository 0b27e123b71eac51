import RowStore.Table

/-!
# RowStore.Catalog: tables by identity and by name

The catalog lists the registered tables, the oldest registration first.  No identity and no name
is listed twice: registering a table displaces the one of the same name and the one of the same
identity.
-/

namespace RowStore

/-- A registered table and its name. -/
structure CatalogEntry where
  table : Table
  name : String
  deriving DecidableEq, Repr

/-- The registered tables, the oldest registration first. -/
structure Catalog where
  entries : List CatalogEntry
  deriving DecidableEq, Repr

namespace Catalog

/-- The catalog of no tables. -/
def empty : Catalog := ⟨[]⟩

/-- Registers a table under a name. -/
def add (catalog : Catalog) (table : Table) (name : String) : Catalog :=
  let kept := catalog.entries.filter fun entry => entry.name ≠ name ∧ entry.table.id ≠ table.id
  ⟨kept ++ [⟨table, name⟩]⟩

/-- The entry of the table with this identity. -/
def entry (catalog : Catalog) (id : TableId) : Except CatalogError CatalogEntry :=
  match catalog.entries.find? fun entry => entry.table.id = id with
  | some entry => .ok entry
  | none => .error (.unknownTable id)

/-- The table with this identity. -/
def table (catalog : Catalog) (id : TableId) : Except CatalogError Table :=
  (catalog.entry id).map CatalogEntry.table

/-- The name of the table with this identity. -/
def nameOf (catalog : Catalog) (id : TableId) : Except CatalogError String :=
  (catalog.entry id).map CatalogEntry.name

/-- The identity of the table of this name. -/
def idOf (catalog : Catalog) (name : String) : Except CatalogError TableId :=
  match catalog.entries.find? fun entry => entry.name = name with
  | some entry => .ok entry.table.id
  | none => .error (.unknownName name)

/-- The registered identities, the oldest registration first. -/
def ids (catalog : Catalog) : List TableId :=
  catalog.entries.map fun entry => entry.table.id

end Catalog

end RowStore
