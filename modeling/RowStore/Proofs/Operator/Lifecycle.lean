import RowStore.Proofs.Operator.Sources
import RowStore.Proofs.Session

/-!
# RowStore.Proofs.Operator.Lifecycle: trees of operators, opened and closed

An operator that was built over closed children and then only driven through its root is
`Reachable`.  The invariant that carries its lifecycle is `Settled`: whoever has drained a child
has closed it again, so an open operator can only have an open child when it is an aggregation.
`Operator.started` says, by induction over the tree, how an attempt to open ends: the operator is
open and settled, or it is closed with everything below it and the reason is not that something
below was open.

The rest of the lifecycle holds of every tree: a closed operator refuses and changes nothing, and
asking for another row any number of times does not change which row comes next.
-/

namespace RowStore

namespace Operator

variable {op op' child : Operator} {s s' : Store} {more : Bool}

/-! ## Open and closed -/

/-- What the operator does. -/
def kind : Operator → OperatorKind
  | .values _ => .values
  | .scan _ => .scan
  | .insert .. => .insert
  | .delete .. => .delete
  | .aggregate .. => .aggregate

/-- Whether the operator is open. -/
def isOpen : Operator → Bool
  | .values list => list.isOpen
  | .scan source => source.cursor.isSome
  | .insert _ _ _ tally => tally.isOpen
  | .delete _ _ tally => tally.isOpen
  | .aggregate _ aggregation => aggregation.isOpen

/-- The operator and everything below it is closed. -/
def AllClosed : Operator → Prop
  | .values list => list.isOpen = false
  | .scan source => source.cursor.isSome = false
  | .insert child _ _ tally => tally.isOpen = false ∧ child.AllClosed
  | .delete child _ tally => tally.isOpen = false ∧ child.AllClosed
  | .aggregate child aggregation => aggregation.isOpen = false ∧ child.AllClosed

/-- Whoever has drained a child has closed it: what is below an operator that changes tables is
closed, and so is what is below a closed aggregation. -/
def Settled : Operator → Prop
  | .values _ => True
  | .scan _ => True
  | .insert child _ _ _ => child.AllClosed
  | .delete child _ _ => child.AllClosed
  | .aggregate child aggregation =>
    child.Settled ∧ (aggregation.isOpen = false → child.AllClosed)

theorem AllClosed.isOpen (h : op.AllClosed) : op.isOpen = false := by
  cases op with
  | values list => exact h
  | scan source => exact h
  | insert child tid table tally => exact h.1
  | delete child tid tally => exact h.1
  | aggregate child aggregation => exact h.1

theorem AllClosed.settled (h : op.AllClosed) : op.Settled := by
  induction op with
  | values list => trivial
  | scan source => trivial
  | insert child tid table tally => exact h.2
  | delete child tid tally => exact h.2
  | aggregate child aggregation ih => exact ⟨ih h.2, fun _ => h.2⟩

theorem Settled.allClosed (hs : op.Settled) (hclosed : op.isOpen = false) : op.AllClosed := by
  cases op with
  | values list => exact hclosed
  | scan source => exact hclosed
  | insert child tid table tally => exact ⟨hclosed, hs⟩
  | delete child tid tally => exact ⟨hclosed, hs⟩
  | aggregate child aggregation => exact ⟨hclosed, hs.2 hclosed⟩

/-! ## What a request for rows keeps -/

theorem Settled.hasNext (hs : op.Settled) (s : Store) : (op.hasNext s).2.1.Settled := by
  cases op with
  | values list => trivial
  | scan source => trivial
  | insert child tid table tally => exact hs
  | delete child tid tally => exact hs
  | aggregate child aggregation =>
    exact ⟨hs.1, fun hclosed => hs.2 (aggregation.isOpen_hasNext ▸ hclosed)⟩

theorem Settled.next (hs : op.Settled) (s : Store) : (op.next s).2.1.Settled := by
  cases op with
  | values list => trivial
  | scan source => trivial
  | insert child tid table tally => exact hs
  | delete child tid tally => exact hs
  | aggregate child aggregation =>
    exact ⟨hs.1, fun hclosed => hs.2 (aggregation.isOpen_next ▸ hclosed)⟩

theorem Settled.rewind (hs : op.Settled) : op.rewind.2.Settled := by
  cases op with
  | values list => trivial
  | scan source => trivial
  | insert child tid table tally => exact hs
  | delete child tid tally => exact hs
  | aggregate child aggregation =>
    exact ⟨hs.1, fun hclosed => hs.2 (aggregation.isOpen_rewind ▸ hclosed)⟩

/-- Closing an operator closes everything below it. -/
theorem Settled.close (hs : op.Settled) : op.close.AllClosed := by
  induction op with
  | values list => rfl
  | scan source => rfl
  | insert child tid table tally => exact ⟨rfl, hs⟩
  | delete child tid tally => exact ⟨rfl, hs⟩
  | aggregate child aggregation ih => exact ⟨rfl, ih hs.1⟩

theorem next_ne_alreadyOpen (other : OperatorKind) (op : Operator) (s : Store) :
    (op.next s).1 ≠ .error (.alreadyOpen other) := by
  cases op with
  | values list =>
    simp only [Operator.next, ValueList.next]
    split_ifs
    · cases list.rows[list.position]? <;> simp
    · simp
  | scan source => exact source.next_ne_alreadyOpen other s
  | insert child tid table tally | delete child tid tally =>
    simp only [Operator.next, Tally.next]
    split_ifs <;> simp
  | aggregate child aggregation => exact aggregation.next_ne_alreadyOpen other

/-! ## Opening -/

/-- How an attempt to open a closed operator ends. -/
inductive Started : Except OperatorError Unit → Operator → Prop
  | opened {op : Operator} (hopen : op.isOpen = true) (hs : op.Settled) : Started (.ok ()) op
  | refused {op : Operator} {e : OperatorError} (hclosed : op.AllClosed)
    (he : ∀ other, e ≠ .alreadyOpen other) : Started (.error e) op

theorem settled_changeEach (change : Store → Row → Except TableError Unit × Store) :
    ∀ (limit count : Nat) {op : Operator} (s : Store), op.Settled →
      (changeEach change limit count op s).2.1.Settled
  | 0, _, _, _, hs => hs
  | limit + 1, count, op, s, hs => by
    have hnext := hs.next s
    unfold changeEach
    rcases hrow : op.next s with ⟨e | _ | row, op', s'⟩
    · rw [hrow] at hnext
      exact hnext
    · rw [hrow] at hnext
      exact hnext
    · rw [hrow] at hnext
      dsimp only
      rcases change s' row with ⟨e | done, s''⟩
      · exact hnext
      · exact settled_changeEach change limit (count + 1) s'' hnext

theorem changeEach_ne_alreadyOpen (other : OperatorKind)
    (change : Store → Row → Except TableError Unit × Store) :
    ∀ (limit count : Nat) (op : Operator) (s : Store),
      (changeEach change limit count op s).1 ≠ .error (.alreadyOpen other)
  | 0, _, _, _ => by simp [changeEach]
  | limit + 1, count, op, s => by
    have hnext := op.next_ne_alreadyOpen other s
    unfold changeEach
    rcases hrow : op.next s with ⟨e | _ | row, op', s'⟩
    · rw [hrow] at hnext
      simpa using hnext
    · simp
    · dsimp only
      rcases change s' row with ⟨e | done, s''⟩
      · simp
      · exact changeEach_ne_alreadyOpen other change limit (count + 1) op' s''

/-- Applying a change to all rows of a child closes the child, however it ends, and only then the
tally may have its row.  `build` makes an operator of both. -/
theorem started_changeAll (build : Tally → Operator → Operator)
    (hbuild : ∀ tally child, child.AllClosed →
      (build tally child).Settled ∧ (build tally child).isOpen = tally.isOpen)
    (change : Store → Row → Except TableError Unit × Store) {tally : Tally}
    (htally : tally.isOpen = false) (hchild : child.Settled) (s : Store) :
    Started (changeAll change tally child s).1
      (build (changeAll change tally child s).2.1 (changeAll change tally child s).2.2.1) := by
  have hkept := settled_changeEach change (child.drainLimit s) 0 s hchild
  have hne := fun other =>
    changeEach_ne_alreadyOpen other change (child.drainLimit s) 0 child s
  have hrefused : ∀ {child' : Operator} {e : OperatorError}, child'.AllClosed →
      (∀ other, e ≠ .alreadyOpen other) → Started (.error e) (build tally child') := by
    intro child' e hdone he
    obtain ⟨hsettled, hopen⟩ := hbuild tally child' hdone
    exact .refused (hsettled.allClosed (hopen.trans htally)) he
  unfold changeAll
  rcases hcount : changeEach change (child.drainLimit s) 0 child s with ⟨e | count, child', s'⟩
  · rw [hcount] at hkept hne
    exact hrefused hkept.close fun other heq => hne other (by rw [heq])
  · rw [hcount] at hkept
    dsimp only
    by_cases hfits : count ≤ 2147483647
    · rw [Tally.rowOf, if_pos hfits]
      obtain ⟨hsettled, hopen⟩ := hbuild { row := some _ } _ hkept.close
      exact .opened hopen hsettled
    · rw [Tally.rowOf, if_neg hfits]
      exact hrefused hkept.close (by simp)

theorem started_values (list : ValueList) (hclosed : list.isOpen = false) (s : Store) :
    Started ((values list).start s).1 ((values list).start s).2.1 := by
  simp only [start, ValueList.start, hclosed]
  exact .opened rfl trivial

theorem started_scan (source : TableScan) (hclosed : source.cursor.isSome = false) (s : Store) :
    Started ((scan source).start s).1 ((scan source).start s).2.1 := by
  simp only [start, TableScan.start, hclosed]
  cases s.catalog.table source.table with
  | error e => exact .refused hclosed (by simp)
  | ok table =>
    by_cases hagree : table.schema.Agrees source.schema
    · simp only [hagree]
      exact .opened rfl trivial
    · simp only [hagree]
      exact .refused hclosed (by simp)

/-- An attempt to open a closed operator opens it or leaves everything closed, and it never fails
because something below was open. -/
theorem started (hs : op.Settled) (hclosed : op.isOpen = false) (s : Store) :
    Started (op.start s).1 (op.start s).2.1 := by
  induction op generalizing s with
  | values list => exact started_values list hclosed s
  | scan source => exact started_scan source hclosed s
  | insert child tid table tally ih =>
    have hbelow : child.AllClosed := hs
    have hchild := ih hbelow.settled hbelow.isOpen s
    have htally : ¬ tally.isOpen = true := by simpa [isOpen] using hclosed
    rw [start, if_neg htally]
    rcases hstart : child.start s with ⟨result, child', s'⟩
    rw [hstart] at hchild
    cases hchild with
    | refused hclosed' he => exact .refused ⟨hclosed, hclosed'⟩ he
    | opened hopen hs' =>
      exact started_changeAll (fun tally child => .insert child tid table tally)
        (fun _ _ hbelow => ⟨hbelow, rfl⟩) (insertChange tid table) hclosed hs' s'
  | delete child tid tally ih =>
    have hbelow : child.AllClosed := hs
    have hchild := ih hbelow.settled hbelow.isOpen s
    have htally : ¬ tally.isOpen = true := by simpa [isOpen] using hclosed
    rw [start, if_neg htally]
    rcases hstart : child.start s with ⟨result, child', s'⟩
    rw [hstart] at hchild
    cases hchild with
    | refused hclosed' he => exact .refused ⟨hclosed, hclosed'⟩ he
    | opened hopen hs' =>
      exact started_changeAll (fun tally child => .delete child tid tally)
        (fun _ _ hbelow => ⟨hbelow, rfl⟩) (deleteChange tid) hclosed hs' s'
  | aggregate child aggregation ih =>
    have hbelow : child.AllClosed := hs.2 hclosed
    have hchild := ih hs.1 hbelow.isOpen s
    have hnot : ¬ aggregation.isOpen = true := by simpa [isOpen] using hclosed
    rw [start, Aggregation.start, if_neg hnot]
    rcases hstart : child.start s with ⟨result, child', s'⟩
    rw [hstart] at hchild
    cases hchild with
    | refused hclosed' he => exact .refused ⟨hclosed, hclosed'⟩ he
    | opened hopen hs' =>
      dsimp only
      by_cases hfed : aggregation.isFed = true
      · rw [if_pos hfed]
        exact .opened rfl ⟨hs', by simp⟩
      · rw [if_neg hfed]
        have hkept := Aggregation.feed_keeps Settled (fun child s h => Settled.next h s)
          (child'.drainLimit s') aggregation.grouping child' s' hs'
        have hne := fun other => Aggregation.feed_ne_alreadyOpen other (next_ne_alreadyOpen other)
          (child'.drainLimit s') aggregation.grouping child' s'
        rcases hfeed : Aggregation.feed Operator.next (child'.drainLimit s') aggregation.grouping
          child' s' with ⟨e | done, grouping, child'', s''⟩
        · rw [hfeed] at hkept hne
          exact .refused ⟨hclosed, hkept.close⟩ fun other heq => hne other (by rw [heq])
        · rw [hfeed] at hkept
          exact .opened rfl ⟨hkept, by simp⟩

/-! ## Refusals -/

theorem start_of_isOpen (hopen : op.isOpen = true) (s : Store) :
    op.start s = (.error (.alreadyOpen op.kind), op, s) := by
  cases op <;> simp only [isOpen] at hopen
  case values => simp only [start, ValueList.start, hopen, if_true, kind]
  case scan => simp only [start, TableScan.start, hopen, if_true, kind]
  case insert => simp only [start, hopen, if_true, kind]
  case delete => simp only [start, hopen, if_true, kind]
  case aggregate => simp only [start, Aggregation.start, hopen, if_true, kind]

theorem hasNext_of_closed (hclosed : op.isOpen = false) (s : Store) :
    op.hasNext s = (.error (.notOpen op.kind), op, s) := by
  cases op <;> simp only [isOpen] at hclosed
  case values => simp [hasNext, ValueList.hasNext, hclosed, kind]
  case scan => simp_all [hasNext, TableScan.hasNext, kind]
  case insert => simp [hasNext, Tally.hasNext, hclosed, kind]
  case delete => simp [hasNext, Tally.hasNext, hclosed, kind]
  case aggregate => simp [hasNext, Aggregation.hasNext, hclosed, kind]

theorem next_of_closed (hclosed : op.isOpen = false) (s : Store) :
    op.next s = (.error (.notOpen op.kind), op, s) := by
  cases op <;> simp only [isOpen] at hclosed
  case values => simp [next, ValueList.next, hclosed, kind]
  case scan => simp_all [next, TableScan.next, kind]
  case insert => simp [next, Tally.next, hclosed, kind]
  case delete => simp [next, Tally.next, hclosed, kind]
  case aggregate => simp [next, Aggregation.next, hclosed, kind]

theorem rewind_of_closed (hclosed : op.isOpen = false) :
    op.rewind = (.error (.notOpen op.kind), op) := by
  cases op <;> simp only [isOpen] at hclosed
  case values => simp [rewind, ValueList.rewind, hclosed, kind]
  case scan => simp_all [rewind, TableScan.rewind, kind]
  case insert => simp [rewind, Tally.rewind, hclosed, kind]
  case delete => simp [rewind, Tally.rewind, hclosed, kind]
  case aggregate => simp [rewind, Aggregation.rewind, hclosed, kind]

/-- An open operator can be asked whether there is another row: it does not refuse for its being open
or closed. -/
theorem isProtocol_of_hasNext {e : OperatorError} (hopen : op.isOpen = true)
    (h : (op.hasNext s).1 = .error e) : e.isProtocol = false := by
  cases op <;> simp only [isOpen] at hopen
  case values => simp [hasNext, ValueList.hasNext, hopen] at h
  case scan => exact TableScan.isProtocol_of_hasNext hopen h
  case insert => simp [hasNext, Tally.hasNext, hopen] at h
  case delete => simp [hasNext, Tally.hasNext, hopen] at h
  case aggregate => exact Aggregation.isProtocol_of_hasNext hopen h

/-! ## Asking ahead -/

/-- The operator and the store after it was asked a number of times whether there is another
row. -/
def asked (op : Operator) (s : Store) : Nat → Operator × Store
  | 0 => (op, s)
  | count + 1 => (op.asked s count).1.hasNext (op.asked s count).2 |>.2

theorem hasNext_again (h : op.hasNext s = (.ok more, op', s')) :
    op'.hasNext s' = (.ok more, op', s') := by
  cases op with
  | values list | insert child tid table tally | delete child tid tally =>
    have hsame := congrArg Prod.snd h
    cases hsame
    exact h
  | scan source =>
    simp only [hasNext, Prod.mk.injEq] at h
    obtain ⟨hmore, rfl, rfl⟩ := h
    have hagain := TableScan.hasNext_again (Prod.ext hmore rfl : source.hasNext s = (.ok more, _))
    simp only [hasNext, hagain]
  | aggregate child aggregation =>
    simp only [hasNext, Prod.mk.injEq] at h
    obtain ⟨hmore, rfl, rfl⟩ := h
    have hagain := Aggregation.hasNext_again
      (Prod.ext hmore rfl : aggregation.hasNext = (.ok more, _))
    simp only [hasNext, hagain]

theorem next_of_hasNext (h : op.hasNext s = (.ok more, op', s')) : op'.next s' = op.next s := by
  cases op with
  | values list | insert child tid table tally | delete child tid tally =>
    have hsame := congrArg Prod.snd h
    cases hsame
    rfl
  | scan source =>
    simp only [hasNext, Prod.mk.injEq] at h
    obtain ⟨hmore, rfl, rfl⟩ := h
    simp only [next, TableScan.next_of_hasNext
      (Prod.ext hmore rfl : source.hasNext s = (.ok more, _))]
  | aggregate child aggregation =>
    simp only [hasNext, Prod.mk.injEq] at h
    obtain ⟨hmore, rfl, rfl⟩ := h
    simp only [next, Aggregation.next_of_hasNext
      (Prod.ext hmore rfl : aggregation.hasNext = (.ok more, _))]

/-- The answer tells whether there is a next row. -/
theorem isSome_of_next {found : Option Row} (h : op.hasNext s = (.ok more, op', s'))
    (hnext : (op.next s).1 = .ok found) : more = found.isSome := by
  cases op with
  | values list =>
    have hmore : list.hasNext = .ok more := congrArg Prod.fst h
    simp only [ValueList.hasNext] at hmore
    split_ifs at hmore with hopen
    simp only [next, ValueList.next, hopen, if_true] at hnext
    rw [← Except.ok.inj hmore]
    cases hrow : list.rows[list.position]? with
    | none =>
      rw [hrow] at hnext
      rw [← Except.ok.inj hnext]
      simpa using hrow
    | some row =>
      rw [hrow] at hnext
      rw [← Except.ok.inj hnext]
      exact decide_eq_true (List.getElem?_eq_some_iff.mp hrow).1
  | scan source =>
    simp only [hasNext, Prod.mk.injEq] at h
    exact TableScan.isSome_of_next (Prod.ext h.1 rfl : source.hasNext s = (.ok more, _)) hnext
  | insert child tid table tally | delete child tid tally =>
    have hmore := congrArg Prod.fst h
    simp only [hasNext, Tally.hasNext] at hmore
    simp only [next, Tally.next] at hnext
    split_ifs at hmore hnext with hopen hspent
    · rw [← Except.ok.inj hmore, ← Except.ok.inj hnext, hspent]
      rfl
    · rw [← Except.ok.inj hmore, ← Except.ok.inj hnext]
      simpa [hspent, Tally.isOpen] using hopen.symm
  | aggregate child aggregation =>
    simp only [hasNext, Prod.mk.injEq] at h
    exact Aggregation.isSome_of_next (Prod.ext h.1 rfl : aggregation.hasNext = (.ok more, _)) hnext

/-- Once an operator answered, asking any number of times leaves it as the first answer did. -/
theorem asked_of_hasNext (h : op.hasNext s = (.ok more, op', s')) :
    ∀ count, op.asked s (count + 1) = (op', s')
  | 0 => by rw [asked, asked, h]
  | count + 1 => by rw [asked, asked_of_hasNext h count, hasNext_again h]

theorem next_asked (h : op.hasNext s = (.ok more, op', s')) (count : Nat) :
    (op.asked s count).1.next (op.asked s count).2 = op.next s := by
  cases count with
  | zero => rfl
  | succ count => rw [asked_of_hasNext h count, next_of_hasNext h]

/-! ## The lifecycle -/

/-- Operators built over closed children and then driven through their root, while anything may
happen to the store in between. -/
inductive Reachable : Operator → Prop
  | values {schema : Schema} {rows : List Row} {list : ValueList}
    (h : ValueList.ofRows schema rows = .ok list) : Reachable (.values list)
  | scan {catalog : Catalog} {table : TableId} {label : String} {source : TableScan}
    (h : TableScan.ofTable catalog table label = .ok source) : Reachable (.scan source)
  | insertInto {catalog : Catalog} {tid : TransactionId} {child op : Operator} {table : TableId}
    (hchild : Reachable child) (hclosed : child.isOpen = false)
    (h : insertInto catalog tid child table = .ok op) : Reachable op
  | deleting {child : Operator} (tid : TransactionId) (hchild : Reachable child)
    (hclosed : child.isOpen = false) : Reachable (deleting tid child)
  | aggregating {child op : Operator} {column : Nat} {groupBy : Option Nat}
    {aggregate : Aggregate} (hchild : Reachable child) (hclosed : child.isOpen = false)
    (h : aggregating child column groupBy aggregate = .ok op) : Reachable op
  | start {op : Operator} (hop : Reachable op) (s : Store) : Reachable (op.start s).2.1
  | hasNext {op : Operator} (hop : Reachable op) (s : Store) : Reachable (op.hasNext s).2.1
  | next {op : Operator} (hop : Reachable op) (s : Store) : Reachable (op.next s).2.1
  | rewind {op : Operator} (hop : Reachable op) : Reachable op.rewind.2
  | close {op : Operator} (hop : Reachable op) : Reachable op.close

/-- Opening keeps an operator settled, whether it was open or not. -/
theorem Settled.start (hs : op.Settled) (s : Store) : (op.start s).2.1.Settled := by
  by_cases hopen : op.isOpen = true
  · rw [start_of_isOpen hopen s]
    exact hs
  · have hstarted := started hs (by simpa using hopen) s
    rcases hstart : op.start s with ⟨result, op', s'⟩
    rw [hstart] at hstarted
    cases hstarted with
    | opened _ hs' => exact hs'
    | refused hclosed _ => exact hclosed.settled

theorem Reachable.settled (h : Reachable op) : op.Settled := by
  induction h with
  | values h => trivial
  | scan h => trivial
  | insertInto hchild hclosed h ih =>
    unfold Operator.insertInto at h
    split at h
    · cases h
    · split_ifs at h
      cases h
      exact ih.allClosed hclosed
  | deleting tid hchild hclosed ih => exact ih.allClosed hclosed
  | aggregating hchild hclosed h ih =>
    unfold Operator.aggregating at h
    split at h
    · cases h
    · cases h
      exact ⟨ih, fun _ => ih.allClosed hclosed⟩
  | start _ s ih => exact ih.start s
  | hasNext _ s ih => exact ih.hasNext s
  | next _ s ih => exact ih.next s
  | rewind _ ih => exact ih.rewind
  | close _ ih => exact ih.close.settled

/-- What a caller of an operator can rely on, in every state of the store. -/
structure Lifecycle (op : Operator) : Prop where
  /-- A closed operator has no rows to hand out, and asking it changes nothing. -/
  refuses_rows : op.isOpen = false → ∀ s,
    op.hasNext s = (.error (.notOpen op.kind), op, s) ∧
      op.next s = (.error (.notOpen op.kind), op, s) ∧
      op.rewind = (.error (.notOpen op.kind), op)
  /-- An open operator that is asked whether there is another row never says that it is closed. -/
  answers : op.isOpen = true → ∀ s other, (op.hasNext s).1 ≠ .error (.notOpen other)
  /-- An open operator cannot be opened, and trying changes nothing. -/
  refuses_start : op.isOpen = true → ∀ s,
    op.start s = (.error (.alreadyOpen op.kind), op, s)
  /-- Below a closed operator everything is closed. -/
  closed_below : op.isOpen = false → op.AllClosed
  /-- An operator that was opened is open. -/
  opened : op.isOpen = false → ∀ s op' s', op.start s = (.ok (), op', s') → op'.isOpen = true
  /-- An operator that could not be opened is closed with everything below it, and the reason is
  never that something was open. -/
  not_opened : op.isOpen = false → ∀ s e op' s', op.start s = (.error e, op', s') →
    op'.isOpen = false ∧ op'.AllClosed ∧ ∀ other, e ≠ .alreadyOpen other
  /-- Closing closes everything. -/
  closed : op.close.AllClosed
  /-- An operator says that there is another row exactly when the next request returns one. -/
  announces : ∀ s more op' s', op.hasNext s = (.ok more, op', s') →
    ∀ found op'' s'', op'.next s' = (.ok found, op'', s'') → more = found.isSome
  /-- Asking any number of times whether there is another row does not change which it is. -/
  keeps_row : ∀ s more op' s', op.hasNext s = (.ok more, op', s') →
    ∀ count, (op.asked s count).1.next (op.asked s count).2 = op.next s

/-- Every operator that was built over closed children and driven through its root keeps to the
lifecycle, whichever of its operations failed. -/
theorem Reachable.lifecycle (h : Reachable op) : op.Lifecycle where
  refuses_rows hclosed s :=
    ⟨hasNext_of_closed hclosed s, next_of_closed hclosed s, rewind_of_closed hclosed⟩
  answers hopen s other hrefused := by cases isProtocol_of_hasNext hopen hrefused
  refuses_start hopen s := start_of_isOpen hopen s
  closed_below hclosed := h.settled.allClosed hclosed
  opened hclosed s op' s' hstart := by
    have hstarted := started h.settled hclosed s
    rw [hstart] at hstarted
    cases hstarted with
    | opened hopen _ => exact hopen
  not_opened hclosed s e op' s' hstart := by
    have hstarted := started h.settled hclosed s
    rw [hstart] at hstarted
    cases hstarted with
    | refused hbelow he => exact ⟨hbelow.isOpen, hbelow, he⟩
  closed := h.settled.close
  announces s more op' s' hmore found op'' s'' hnext := by
    have hsame := next_of_hasNext hmore
    rw [hnext] at hsame
    exact isSome_of_next hmore (congrArg Prod.fst hsame).symm
  keeps_row s more op' s' hmore count := next_asked hmore count

end Operator

namespace Sample

/-- A row that is stored nowhere. -/
def loose : Operator :=
  .values { schema := schema, rows := [row 1 10] }

/-- A deletion of a row that is stored nowhere. -/
def deletion : Operator :=
  .deleting ⟨1⟩ loose

end Sample

/-- A deletion that could not be opened keeps to the lifecycle, and so do the rows below it once they
are opened: asked twice, they still hand out the one that was announced. -/
theorem Operator.lifecycle_failed_deletion :
    let s := Sample.store 1 Nat.one_pos
    let opened := (Sample.loose.start s).2.1
    ((Sample.deletion.start s).1 = .error (.table .noRecord) ∧
      Lifecycle (Sample.deletion.start s).2.1) ∧
    Lifecycle opened ∧ opened.isOpen = true ∧ (opened.hasNext s).1 = .ok true ∧
      (∃ found, ((opened.hasNext s).2.1.next (opened.hasNext s).2.2).1 = .ok found ∧
        true = found.isSome) ∧
      ((opened.asked s 2).1.next (opened.asked s 2).2).1 = .ok (some (Sample.row 1 10)) := by
  intro s opened
  have hlist : ValueList.ofRows Sample.schema [Sample.row 1 10] =
      .ok { schema := Sample.schema, rows := [Sample.row 1 10] } := by decide +kernel
  have hopened : Lifecycle opened := Reachable.lifecycle (.start (.values hlist) s)
  have hmore : (opened.hasNext s).1 = .ok true := by decide +kernel
  have hnext : ((opened.hasNext s).2.1.next (opened.hasNext s).2.2).1 =
      .ok (some (Sample.row 1 10)) := by decide +kernel
  refine ⟨⟨by decide +kernel, Reachable.lifecycle ?_⟩, hopened, by decide +kernel, hmore,
    ⟨_, hnext, ?_⟩, ?_⟩
  · exact .start (.deleting ⟨1⟩ (.values hlist) rfl) s
  · exact hopened.announces s true (opened.hasNext s).2.1 (opened.hasNext s).2.2 (by rw [← hmore])
      (some (Sample.row 1 10)) ((opened.hasNext s).2.1.next (opened.hasNext s).2.2).2.1
      ((opened.hasNext s).2.1.next (opened.hasNext s).2.2).2.2 (by rw [← hnext])
  · rw [hopened.keeps_row s true (opened.hasNext s).2.1 (opened.hasNext s).2.2 (by rw [← hmore]) 2]
    decide +kernel

end RowStore
