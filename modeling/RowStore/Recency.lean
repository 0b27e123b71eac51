import RowStore.Address

/-!
# RowStore.Recency: pages by last use

The order in which pages were last used, the least recently used page first.  `evict` takes out
the least recently used page that qualifies.
-/

namespace RowStore

/-- Pages in the order of their last use, least recent first. -/
structure Recency where
  pages : List PageId
  deriving DecidableEq, Repr

namespace Recency

/-- No pages. -/
def empty : Recency := ⟨[]⟩

/-- The number of pages. -/
def size (recency : Recency) : Nat :=
  recency.pages.length

/-- The order after a page is gone. -/
def remove (recency : Recency) (page : PageId) : Recency :=
  ⟨recency.pages.filter fun other => other ≠ page⟩

/-- The order after a page was used. -/
def touch (recency : Recency) (page : PageId) : Recency :=
  ⟨(recency.remove page).pages ++ [page]⟩

/-- The least recently used page that qualifies, and the order without it. -/
def evict (recency : Recency) (qualifies : PageId → Bool) : Option (PageId × Recency) :=
  match recency.pages.findIdx? qualifies with
  | none => none
  | some index =>
    match recency.pages[index]? with
    | none => none
    | some page => some (page, ⟨recency.pages.eraseIdx index⟩)

/-- The pages `evict` asks about, in the order in which it does: all up to the one it takes. -/
def examined (recency : Recency) (qualifies : PageId → Bool) : List PageId :=
  match recency.pages.findIdx? qualifies with
  | none => recency.pages
  | some index => recency.pages.take (index + 1)

end Recency

end RowStore
