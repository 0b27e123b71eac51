import RowStore.Proofs.Operator.Merging
import RowStore.Proofs.Operator.Replay

/-!
# RowStore.Proofs.Operator.Feeding: an aggregation drains its child once

The child of an aggregation is anything that is opened, pulled and closed (`Aggregation.Source`),
with whatever failures in between; every operator is such a child (`Operator.source_protocol`).
Until an attempt to open the aggregation succeeds nothing is kept of the attempts before
(`Source.Unfed`), so the attempt that succeeds has the results of what the child hands out in that
attempt (`Source.Feeds`).  From then on the aggregation answers as a player of these results that
opens and closes the child and never asks it for a row (`Source.Follows`).  The limit on how often an
operator is asked cuts nothing off (`Operator.Prepared.feeds_iff`).
-/

namespace RowStore

namespace Aggregation

variable {κ σ : Type}

/-! ## Sources -/

/-- What an aggregation can be fed from: it is opened, asked for rows and closed, and works on a
shared state.  `limit` bounds how often it is asked; that of an operator is never reached
(`Operator.Prepared.feeds_iff`). -/
structure Source (κ σ : Type) where
  start : κ → σ → Except OperatorError Unit × κ × σ
  next : κ → σ → Except OperatorError (Option Row) × κ × σ
  close : κ → κ
  limit : κ → σ → Nat

namespace Source

/-- A child keeps to opening and closing, whatever fails: an attempt to open it leaves it open or
closed, as it says, and a request for a row leaves it open. -/
structure Protocol (source : Source κ σ) (Closed Open : κ → Prop) : Prop where
  opened : ∀ child s child' s', Closed child → source.start child s = (.ok (), child', s') →
    Open child'
  refused : ∀ child s e child' s', Closed child → source.start child s = (.error e, child', s') →
    Closed child'
  next : ∀ child s, Open child → Open (source.next child s).2.1
  close : ∀ child, Open child ∨ Closed child → Closed (source.close child)

/-- What a child keeps whatever is asked of it, it keeps beside opening and closing. -/
theorem Protocol.and {source : Source κ σ} {Closed Open keeps : κ → Prop}
    (h : source.Protocol Closed Open)
    (hstart : ∀ child s, keeps child → keeps (source.start child s).2.1)
    (hnext : ∀ child s, keeps child → keeps (source.next child s).2.1)
    (hclose : ∀ child, keeps child → keeps (source.close child)) :
    source.Protocol (fun child => Closed child ∧ keeps child) fun child =>
      Open child ∧ keeps child where
  opened child s child' s' hchild hstarted := by
    have hkept := hstart child s hchild.2
    rw [hstarted] at hkept
    exact ⟨h.opened child s child' s' hchild.1 hstarted, hkept⟩
  refused child s e child' s' hchild hstarted := by
    have hkept := hstart child s hchild.2
    rw [hstarted] at hkept
    exact ⟨h.refused child s e child' s' hchild.1 hstarted, hkept⟩
  next child s hchild := ⟨h.next child s hchild.1, hnext child s hchild.2⟩
  close child hchild :=
    ⟨h.close child (hchild.imp And.left And.left), hclose child (hchild.elim And.right And.right)⟩

/-- The child hands out these rows one after the other and then says that there are no more. -/
inductive Drained (source : Source κ σ) : κ → σ → List Row → κ → σ → Prop where
  | done {child child' : κ} {s s' : σ} (h : source.next child s = (.ok none, child', s')) :
    Drained source child s [] child' s'
  | row {child child' last : κ} {s s' t : σ} {row : Row} {rows : List Row}
    (h : source.next child s = (.ok (some row), child', s'))
    (rest : Drained source child' s' rows last t) : Drained source child s (row :: rows) last t

/-- The child can be opened, hands out `rows` then, and `out` are the results of a grouping that is
fed exactly these. -/
def Feeds (source : Source κ σ) (g : Grouping) (child : κ) (s : σ) (rows out : List Row)
    (child' : κ) (s' : σ) : Prop :=
  ∃ opened t, source.start child s = (.ok (), opened, t) ∧ source.Drained opened t rows child' s' ∧
    rows.length < source.limit opened t ∧ g.fed rows = .ok out

end Source

/-! ## Calls -/

/-- What is asked of an aggregation, or happens to the shared state in between. -/
inductive Call (σ : Type) where
  | start
  | hasNext
  | next
  | rewind
  | close
  | meanwhile (change : σ → σ)

/-- What is answered. -/
inductive Answer where
  | started (result : Except OperatorError Unit)
  | more (result : Except OperatorError Bool)
  | row (result : Except OperatorError (Option Row))
  | rewound (result : Except OperatorError Unit)
  | silent
  deriving DecidableEq, Repr

/-- An aggregation, its child and the shared state. -/
structure Node (κ σ : Type) where
  aggregation : Aggregation
  child : κ
  state : σ

/-- Answers a call. -/
def Source.perform (source : Source κ σ) (node : Node κ σ) : Call σ → Answer × Node κ σ
  | .start =>
    match node.aggregation.start source.start source.next source.close source.limit node.child
      node.state with
    | (result, aggregation, child, state) => (.started result, { aggregation, child, state })
  | .hasNext =>
    match node.aggregation.hasNext with
    | (result, aggregation) => (.more result, { node with aggregation })
  | .next =>
    match node.aggregation.next with
    | (result, aggregation) => (.row result, { node with aggregation })
  | .rewind =>
    match node.aggregation.rewind with
    | (result, aggregation) => (.rewound result, { node with aggregation })
  | .close =>
    (.silent, { node with
      aggregation := node.aggregation.close
      child := source.close node.child })
  | .meanwhile change => (.silent, { node with state := change node.state })

/-- Answers calls one after the other. -/
def Source.run (source : Source κ σ) (node : Node κ σ) : List (Call σ) → List Answer × Node κ σ
  | [] => ([], node)
  | call :: calls =>
    match source.perform node call with
    | (answer, node) =>
      match source.run node calls with
      | (answers, node) => (answer :: answers, node)

/-- A place in a fixed list of rows, and a child that is opened and closed along. -/
structure Player (κ σ : Type) where
  isOpen : Bool
  position : Nat
  child : κ
  state : σ

/-- Answers a call from a fixed list of rows.  All that is done with the child is to open and to
close it. -/
def Player.play (start : κ → σ → Except OperatorError Unit × κ × σ) (close : κ → κ)
    (rows : List Row) (player : Player κ σ) : Call σ → Answer × Player κ σ
  | .start =>
    if player.isOpen then (.started (.error (.alreadyOpen .aggregate)), player)
    else
      match start player.child player.state with
      | (.error e, child, state) => (.started (.error e), { player with child, state })
      | (.ok (), child, state) =>
        (.started (.ok ()), { isOpen := true, position := 0, child, state })
  | .hasNext =>
    if player.isOpen then (.more (.ok (player.position < rows.length)), player)
    else (.more (.error (.notOpen .aggregate)), player)
  | .next =>
    if player.isOpen then
      match rows[player.position]? with
      | some row => (.row (.ok (some row)), { player with position := player.position + 1 })
      | none => (.row (.ok none), player)
    else (.row (.error (.notOpen .aggregate)), player)
  | .rewind =>
    if player.isOpen then (.rewound (.ok ()), { player with position := 0 })
    else (.rewound (.error (.notOpen .aggregate)), player)
  | .close => (.silent, { player with isOpen := false, child := close player.child })
  | .meanwhile change => (.silent, { player with state := change player.state })

/-- Answers calls one after the other from a fixed list of rows. -/
def Player.playAll (start : κ → σ → Except OperatorError Unit × κ × σ) (close : κ → κ)
    (rows : List Row) (player : Player κ σ) : List (Call σ) → List Answer × Player κ σ
  | [] => ([], player)
  | call :: calls =>
    match player.play start close rows call with
    | (answer, player) =>
      match player.playAll start close rows calls with
      | (answers, player) => (answer :: answers, player)

variable {source : Source κ σ} {Closed Open : κ → Prop} {g g' : Grouping} {rows out : List Row}
  {child child' : κ} {s s' : σ} {node : Node κ σ} {player : Player κ σ}

/-! ## Feeding -/

theorem Source.drained_iff :
    source.Drained child s rows child' s' ↔
      match source.next child s with
      | (.error _, _, _) => False
      | (.ok none, last, t) => rows = [] ∧ child' = last ∧ s' = t
      | (.ok (some row), next, t) => ∃ rest, rows = row :: rest ∧
        source.Drained next t rest child' s' := by
  constructor
  · intro h
    cases h with
    | done h => simp [h]
    | row h rest => simpa [h] using rest
  · intro h
    rcases hnext : source.next child s with ⟨e | _ | row, next, t⟩
    · rw [hnext] at h
      cases h
    · rw [hnext] at h
      obtain ⟨rfl, rfl, rfl⟩ := h
      exact .done hnext
    · rw [hnext] at h
      obtain ⟨rest, rfl, hrest⟩ := h
      exact .row hnext hrest

/-- Feeding succeeds exactly when the child hands out all its rows within the limit, and the
grouping that is fed them has results. -/
theorem feed_eq_ok_iff {limit : Nat} :
    feed source.next limit g child s = (.ok (), g', child', s') ↔
      ∃ rows, source.Drained child s rows child' s' ∧ rows.length < limit ∧
        ∃ merged out, g.mergeAll rows = .ok merged ∧ merged.results = (.ok out, g') := by
  induction limit generalizing g child s with
  | zero => simp [feed]
  | succ limit ih =>
    simp only [@Source.drained_iff κ σ source _ child]
    unfold feed
    rcases hnext : source.next child s with ⟨e | _ | row, next, t⟩
    · simp
    · dsimp only
      constructor
      · intro h
        cases hresults : g.results with
        | mk result known =>
          rw [hresults] at h
          cases result with
          | error e => cases h
          | ok out =>
            obtain ⟨-, rfl, rfl, rfl⟩ := h
            exact ⟨[], ⟨rfl, rfl, rfl⟩, Nat.succ_pos limit, g, out, rfl, hresults⟩
      · rintro ⟨_, ⟨rfl, rfl, rfl⟩, -, merged, out, hmerged, hresults⟩
        obtain rfl := Except.ok.inj hmerged
        rw [hresults]
    · dsimp only
      cases hmerge : g.merge row with
      | error e =>
        refine iff_of_false (by simp) ?_
        rintro ⟨_, ⟨rest, rfl, -⟩, -, merged, out, hmerged, -⟩
        rw [Grouping.mergeAll, hmerge] at hmerged
        cases hmerged
      | ok grown =>
        dsimp only
        rw [ih]
        constructor
        · rintro ⟨rest, hrest, hlt, merged, out, hmerged, hresults⟩
          exact ⟨row :: rest, ⟨rest, rfl, hrest⟩, Nat.succ_lt_succ hlt, merged, out,
            by rw [Grouping.mergeAll, hmerge]; exact hmerged, hresults⟩
        · rintro ⟨_, ⟨rest, rfl, hrest⟩, hlt, merged, out, hmerged, hresults⟩
          rw [Grouping.mergeAll, hmerge] at hmerged
          exact ⟨rest, hrest, Nat.lt_of_succ_lt_succ hlt, merged, out, hmerged, hresults⟩

/-- Once it is cleared, a grouping is as it was before it was fed, however far that went. -/
theorem clear_feed (limit : Nat) : ∀ (g : Grouping) (child : κ) (s : σ),
    (feed source.next limit g child s).2.1.clear = g.clear := by
  induction limit with
  | zero => exact fun g child s => rfl
  | succ limit ih =>
    intro g child s
    unfold feed
    rcases source.next child s with ⟨e | _ | row, next, t⟩
    · rfl
    · have hresults := g.clear_results
      dsimp only
      rcases hknown : g.results with ⟨e | out, known⟩ <;> rwa [hknown] at hresults
    · dsimp only
      cases hmerge : g.merge row with
      | error e => rfl
      | ok grown => exact (ih grown next t).trans (Grouping.clear_of_merge hmerge)

/-! ## Until the aggregation was opened -/

/-- Nothing is known of any row, and the child is closed. -/
structure Source.Unfed (g : Grouping) (Closed : κ → Prop) (node : Node κ σ) : Prop where
  aggregation : node.aggregation = { grouping := g }
  child : Closed node.child

/-- An attempt to open ends in one of two ways: the child was drained and the results are known, or
all is as before. -/
theorem Source.Unfed.start (hprotocol : source.Protocol Closed Open) (hclear : g.clear = g)
    (h : Unfed g Closed node) :
    (∃ rows out child s, source.Feeds g node.child node.state rows out child s ∧ Open child ∧
      ∃ known, known.results = (.ok out, known) ∧ source.perform node .start =
        (.started (.ok ()), ⟨{ grouping := known, isFed := true, isOpen := true }, child, s⟩)) ∨
    (¬ ∃ rows out child s, source.Feeds g node.child node.state rows out child s) ∧
      ∃ e, (source.perform node .start).1 = .started (.error e) ∧
        Unfed g Closed (source.perform node .start).2 := by
  obtain ⟨aggregation, child, s⟩ := node
  obtain ⟨rfl, hchild⟩ := h
  simp only [Source.perform, Aggregation.start, Bool.false_eq_true, if_false]
  rcases hstart : source.start child s with ⟨e | _, opened, t⟩
  · refine .inr ⟨?_, e, rfl, rfl, hprotocol.refused _ _ _ _ _ hchild hstart⟩
    rintro ⟨rows, out, last, u, opened', t', hstart', -⟩
    cases hstart.symm.trans hstart'
  · have hopen := hprotocol.opened _ _ _ _ hchild hstart
    have hlast := feed_keeps Open hprotocol.next (source.limit opened t) g opened t hopen
    have hclear' := @clear_feed κ σ source (source.limit opened t) g opened t
    dsimp only
    rcases hfeed : feed source.next (source.limit opened t) g opened t with
      ⟨e | _, known, last, u⟩
    · rw [hfeed] at hlast hclear'
      refine .inr ⟨?_, e, rfl, ?_, hprotocol.close _ (.inl hlast)⟩
      · rintro ⟨rows, out, last', u', opened', t', hstart', hdrained, hlt, hfed⟩
        obtain ⟨-, rfl, rfl⟩ := hstart.symm.trans hstart'
        obtain ⟨merged, known', hmerged, hresults⟩ := Grouping.fed_eq_ok_iff.mp hfed
        have hok := feed_eq_ok_iff.mpr ⟨rows, hdrained, hlt, merged, out, hmerged, hresults⟩
        cases hfeed.symm.trans hok
      · show ({ grouping := known.clear } : Aggregation) = { grouping := g }
        rw [hclear', hclear]
    · rw [hfeed] at hlast
      obtain ⟨rows, hdrained, hlt, merged, out, hmerged, hresults⟩ := feed_eq_ok_iff.mp hfeed
      have hfed := Grouping.fed_eq_ok_iff.mpr ⟨merged, known, hmerged, hresults⟩
      exact .inl ⟨rows, out, last, u, ⟨opened, t, hstart, hdrained, hlt, hfed⟩, hlast, known,
        Grouping.results_again hresults, rfl⟩

/-- An attempt to open succeeds exactly when the child can feed the grouping. -/
theorem Source.Unfed.started_iff (hprotocol : source.Protocol Closed Open) (hclear : g.clear = g)
    (h : Unfed g Closed node) :
    (source.perform node .start).1 = .started (.ok ()) ↔
      ∃ rows out child s, source.Feeds g node.child node.state rows out child s := by
  rcases h.start hprotocol hclear with
    ⟨rows, out, child, s, hfeeds, -, known, -, hstarted⟩ | ⟨hnone, e, hrefused, -⟩
  · exact iff_of_true (congrArg Prod.fst hstarted) ⟨rows, out, child, s, hfeeds⟩
  · exact iff_of_false (by simp [hrefused]) hnone

/-- Every call but an attempt to open that succeeds leaves all as it was. -/
theorem Source.Unfed.perform (hprotocol : source.Protocol Closed Open) (hclear : g.clear = g)
    (h : Unfed g Closed node) {call : Call σ}
    (hcall : (source.perform node call).1 ≠ .started (.ok ())) :
    Unfed g Closed (source.perform node call).2 := by
  cases call with
  | start =>
    rcases h.start hprotocol hclear with
      ⟨rows, out, child, s, -, -, known, -, hstarted⟩ | ⟨-, e, -, hunfed⟩
    · exact absurd (congrArg Prod.fst hstarted) hcall
    · exact hunfed
  | close => exact ⟨by rw [Source.perform, h.aggregation]; rfl, hprotocol.close _ (.inr h.child)⟩
  | meanwhile change => exact ⟨h.aggregation, h.child⟩
  | hasNext | next | rewind =>
    refine ⟨?_, h.child⟩
    rw [Source.perform, h.aggregation]
    rfl

theorem Source.Unfed.run (hprotocol : source.Protocol Closed Open) (hclear : g.clear = g)
    {calls : List (Call σ)} (h : Unfed g Closed node)
    (hcalls : .started (.ok ()) ∉ (source.run node calls).1) :
    Unfed g Closed (source.run node calls).2 := by
  induction calls generalizing node with
  | nil => exact h
  | cons call calls ih =>
    obtain ⟨hfirst, hothers⟩ := not_or.mp (mt List.mem_cons.mpr hcalls)
    exact ih (h.perform hprotocol hclear (Ne.symm hfirst)) hothers

/-! ## Once the aggregation was opened -/

/-- The aggregation knows its results, it and its child are in the state of a player of them, and
the child is open when they are. -/
structure Source.Follows (Closed Open : κ → Prop) (out : List Row) (player : Player κ σ)
    (node : Node κ σ) : Prop where
  known : node.aggregation.grouping.results = (.ok out, node.aggregation.grouping)
  isFed : node.aggregation.isFed = true
  isOpen : node.aggregation.isOpen = player.isOpen
  position : node.aggregation.position = player.position
  child : node.child = player.child
  state : node.state = player.state
  opened : player.isOpen = true → Open player.child
  closed : player.isOpen = false → Closed player.child

theorem Source.Follows.perform (hprotocol : source.Protocol Closed Open)
    (h : Follows Closed Open out player node) (call : Call σ) :
    (source.perform node call).1 = (player.play source.start source.close out call).1 ∧
      Follows Closed Open out (player.play source.start source.close out call).2
        (source.perform node call).2 := by
  obtain ⟨⟨grouping, isFed, position, isOpen⟩, child, s⟩ := node
  obtain ⟨isOpen', position', child', s'⟩ := player
  obtain ⟨hknown, rfl, rfl, rfl, rfl, rfl, hopened, hclosed⟩ := h
  dsimp only at hknown hopened hclosed
  cases call with
  | start =>
    simp only [Source.perform, Aggregation.start, Player.play]
    cases isOpen with
    | true => exact ⟨rfl, hknown, rfl, rfl, rfl, rfl, rfl, hopened, hclosed⟩
    | false =>
      rcases hstart : source.start child s with ⟨e | _, next, t⟩
      · have hrefused := hprotocol.refused _ _ _ _ _ (hclosed rfl) hstart
        exact ⟨rfl, hknown, rfl, rfl, rfl, rfl, rfl, Bool.noConfusion, fun _ => hrefused⟩
      · have hopen := hprotocol.opened _ _ _ _ (hclosed rfl) hstart
        exact ⟨rfl, hknown, rfl, rfl, rfl, rfl, rfl, fun _ => hopen, Bool.noConfusion⟩
  | hasNext =>
    simp only [Source.perform, Aggregation.hasNext, Player.play, hknown]
    cases isOpen <;> exact ⟨rfl, hknown, rfl, rfl, rfl, rfl, rfl, hopened, hclosed⟩
  | next =>
    simp only [Source.perform, Aggregation.next, Player.play, hknown]
    cases isOpen with
    | true => cases out[position]? <;> exact ⟨rfl, hknown, rfl, rfl, rfl, rfl, rfl, hopened, hclosed⟩
    | false => exact ⟨rfl, hknown, rfl, rfl, rfl, rfl, rfl, hopened, hclosed⟩
  | rewind =>
    simp only [Source.perform, Aggregation.rewind, Player.play]
    cases isOpen <;> exact ⟨rfl, hknown, rfl, rfl, rfl, rfl, rfl, hopened, hclosed⟩
  | close =>
    have hclose : Closed (source.close child) := by
      cases isOpen with
      | true => exact hprotocol.close _ (.inl (hopened rfl))
      | false => exact hprotocol.close _ (.inr (hclosed rfl))
    exact ⟨rfl, hknown, rfl, rfl, rfl, rfl, rfl, Bool.noConfusion, fun _ => hclose⟩
  | meanwhile change => exact ⟨rfl, hknown, rfl, rfl, rfl, rfl, rfl, hopened, hclosed⟩

theorem Source.Follows.run (hprotocol : source.Protocol Closed Open)
    (h : Follows Closed Open out player node) (calls : List (Call σ)) :
    (source.run node calls).1 = (player.playAll source.start source.close out calls).1 ∧
      Follows Closed Open out (player.playAll source.start source.close out calls).2
        (source.run node calls).2 := by
  induction calls generalizing node player with
  | nil => exact ⟨rfl, h⟩
  | cons call calls ih =>
    obtain ⟨hanswer, hnext⟩ := h.perform hprotocol call
    obtain ⟨hanswers, hlast⟩ := ih hnext
    refine ⟨?_, hlast⟩
    rw [Source.run, Player.playAll]
    dsimp only
    rw [hanswer, hanswers]

/-- The answers to requests for rows, when these rows are handed out and no more. -/
def handsOut (rows : List Row) : List Answer :=
  (rows.map fun row => .row (.ok (some row))) ++ [.row (.ok none)]

/-- What a player hands out is the rest of its list. -/
theorem Player.playAll_next (start : κ → σ → Except OperatorError Unit × κ × σ) (close : κ → κ)
    (hopen : player.isOpen = true) {front rest : List Row} (hposition : player.position = front.length) :
    (player.playAll start close (front ++ rest) (List.replicate (rest.length + 1) .next)).1 =
      handsOut rest := by
  obtain ⟨isOpen, position, child, s⟩ := player
  obtain rfl : isOpen = true := hopen
  obtain rfl : position = front.length := hposition
  induction rest generalizing front with
  | nil => simp [Player.playAll, Player.play, handsOut]
  | cons row rest ih =>
    have hrow : (front ++ row :: rest)[front.length]? = some row := by simp
    have hothers := @ih (front ++ [row])
    rw [List.length_append, List.append_assoc, List.singleton_append] at hothers
    rw [List.length_cons, List.replicate_succ, Player.playAll]
    simp only [Player.play, if_true, hrow]
    exact congrArg (_ :: ·) hothers

/-- An answer that rows are handed out from the first. -/
def Answer.IsFresh (answer : Answer) : Prop :=
  answer = .started (.ok ()) ∨ answer = .rewound (.ok ())

theorem Player.isOpen_of_isFresh {start : κ → σ → Except OperatorError Unit × κ × σ} {close : κ → κ}
    {call : Call σ} (h : (player.play start close out call).1.IsFresh) :
    (player.play start close out call).2.isOpen = true ∧
      (player.play start close out call).2.position = 0 := by
  unfold Answer.IsFresh at h
  unfold Player.play at h ⊢
  cases call with
  | start =>
    dsimp only at h ⊢
    split_ifs at h ⊢ with hopen
    · simp at h
    · rcases hstart : start player.child player.state with ⟨e | _, child, s⟩
      · simp [hstart] at h
      · exact ⟨rfl, rfl⟩
  | rewind =>
    dsimp only at h ⊢
    split_ifs at h ⊢ with hopen
    · exact ⟨hopen, rfl⟩
    · simp at h
  | hasNext =>
    dsimp only at h
    split_ifs at h <;> simp at h
  | next =>
    dsimp only at h
    split_ifs at h
    · cases hrow : out[player.position]? <;> simp [hrow] at h
    · simp at h
  | close | meanwhile change => simp at h

/-- What an aggregation that was opened can be relied on for, whatever is asked of it and becomes of
the shared state: `out` are its results, and `player` plays them. -/
structure Source.Repeats (source : Source κ σ) (Closed Open : κ → Prop) (out : List Row)
    (player : Player κ σ) (node : Node κ σ) : Prop where
  /-- It answers as the player. -/
  answers : ∀ calls, (source.run node calls).1 =
    (player.playAll source.start source.close out calls).1
  /-- It does to its child and to the shared state what the player does. -/
  leaves : ∀ calls, (source.run node calls).2.child =
      (player.playAll source.start source.close out calls).2.child ∧
    (source.run node calls).2.state = (player.playAll source.start source.close out calls).2.state
  /-- Its child is open when it is. -/
  open_below : ∀ calls,
    if (source.run node calls).2.aggregation.isOpen then Open (source.run node calls).2.child
    else Closed (source.run node calls).2.child
  /-- It hands out its results, and no more. -/
  hands_out : (source.run node (List.replicate (out.length + 1) .next)).1 = handsOut out
  /-- It hands them out again whenever it was opened again or put back. -/
  hands_out_again : ∀ calls call, (source.perform (source.run node calls).2 call).1.IsFresh →
    (source.run (source.perform (source.run node calls).2 call).2
      (List.replicate (out.length + 1) .next)).1 = handsOut out

theorem Source.Follows.hands_out (hprotocol : source.Protocol Closed Open)
    (h : Follows Closed Open out player node) (hopen : player.isOpen = true)
    (hposition : player.position = 0) :
    (source.run node (List.replicate (out.length + 1) .next)).1 = handsOut out := by
  rw [(h.run hprotocol _).1]
  exact @Player.playAll_next κ σ _ source.start source.close hopen [] out hposition

theorem Source.Follows.repeats (hprotocol : source.Protocol Closed Open)
    (h : Follows Closed Open out player node) (hopen : player.isOpen = true)
    (hposition : player.position = 0) : source.Repeats Closed Open out player node where
  answers calls := (h.run hprotocol calls).1
  leaves calls := ⟨(h.run hprotocol calls).2.child, (h.run hprotocol calls).2.state⟩
  open_below calls := by
    have hlast := (h.run hprotocol calls).2
    rw [hlast.isOpen, hlast.child]
    split_ifs with hlastOpen
    · exact hlast.opened hlastOpen
    · exact hlast.closed (by simpa using hlastOpen)
  hands_out := h.hands_out hprotocol hopen hposition
  hands_out_again calls call hfresh := by
    obtain ⟨hanswer, hnext⟩ := (h.run hprotocol calls).2.perform hprotocol call
    rw [hanswer] at hfresh
    obtain ⟨hopen', hposition'⟩ := Player.isOpen_of_isFresh hfresh
    exact hnext.hands_out hprotocol hopen' hposition'

end Aggregation

/-! ## Operators as children -/

namespace Operator

open Aggregation

variable {op op' : Operator} {s s' t : Store} {rows out : List Row} {g : Grouping}

/-- Operators as children of an aggregation. -/
def source : Source Operator Store where
  start op s := op.start s
  next := next
  close := close
  limit := drainLimit

theorem isOpen_next (op : Operator) (s : Store) : (op.next s).2.1.isOpen = op.isOpen := by
  cases op with
  | values list =>
    simp only [next, ValueList.next]
    split_ifs
    · cases list.rows[list.position]? <;> rfl
    · rfl
  | scan source =>
    cases hcursor : source.cursor with
    | none => simp [next, TableScan.next, hcursor]
    | some cursor => simp [next, isOpen, TableScan.snd_next hcursor s, hcursor]
  | insert child tid table tally | delete child tid tally =>
    simp only [next, Tally.next]
    split_ifs <;> rfl
  | aggregate child aggregation => exact aggregation.isOpen_next

/-- Every operator keeps to opening and closing. -/
theorem source_protocol :
    source.Protocol AllClosed fun op => op.isOpen = true ∧ op.Settled where
  opened op s op' s' hclosed hstart := by
    have hstarted := started hclosed.settled hclosed.isOpen s
    rw [show op.start s = _ from hstart] at hstarted
    cases hstarted with
    | opened hopen hs => exact ⟨hopen, hs⟩
  refused op s e op' s' hclosed hstart := by
    have hstarted := started hclosed.settled hclosed.isOpen s
    rw [show op.start s = _ from hstart] at hstarted
    cases hstarted with
    | refused hclosed' _ => exact hclosed'
  next op s h := ⟨(op.isOpen_next s).trans h.1, h.2.next s⟩
  close op h := (h.elim And.right AllClosed.settled).close

/-- What is asked of an operator on a store. -/
def answer (op : Operator) (s : Store) : Call Store → Answer × Operator × Store
  | .start =>
    match op.start s with
    | (result, op, s) => (.started result, op, s)
  | .hasNext =>
    match op.hasNext s with
    | (result, op, s) => (.more result, op, s)
  | .next =>
    match op.next s with
    | (result, op, s) => (.row result, op, s)
  | .rewind =>
    match op.rewind with
    | (result, op) => (.rewound result, op, s)
  | .close => (.silent, op.close, s)
  | .meanwhile change => (.silent, op, change s)

/-- What is asked of an operator, one call after the other. -/
def answers (op : Operator) (s : Store) : List (Call Store) → List Answer × Operator × Store
  | [] => ([], op, s)
  | call :: calls =>
    match op.answer s call with
    | (answer, op, s) =>
      match op.answers s calls with
      | (answers, op, s) => (answer :: answers, op, s)

/-- An aggregation over an operator is an aggregation that is fed from it. -/
theorem answer_aggregate (node : Node Operator Store) (call : Call Store) :
    (aggregate node.child node.aggregation).answer node.state call =
      match source.perform node call with
      | (answer, node) => (answer, .aggregate node.child node.aggregation, node.state) := by
  cases call <;> rfl

theorem answers_aggregate (node : Node Operator Store) (calls : List (Call Store)) :
    (aggregate node.child node.aggregation).answers node.state calls =
      match source.run node calls with
      | (answers, node) => (answers, .aggregate node.child node.aggregation, node.state) := by
  induction calls generalizing node with
  | nil => rfl
  | cons call calls ih =>
    have hothers := ih (source.perform node call).2
    rw [answers, answer_aggregate]
    dsimp only
    rw [hothers, Source.run]

theorem length_le_left {most : Nat} (hop : op.Prepared) (hs : s.Coherent)
    (hmost : ∀ page content, s.view.page page = .ok content → content.slots ≤ most)
    (h : source.Drained op s rows op' s') : rows.length ≤ op.left s.view most := by
  induction h with
  | done h => exact Nat.zero_le _
  | @row op next last s s' t row rows h rest ih =>
    have hfetches := op.fetches_next s
    have hprepared := hop.next s
    have hless := left_next_lt hop hs hmost h
    rw [show op.next s = _ from h] at hfetches hprepared
    dsimp only at hfetches hprepared
    have hview := Store.Fetches.view hfetches hs
    have hrest := ih hprepared ((Store.Fetches.moves hfetches).coherent hs) (hview ▸ hmost)
    rw [hview] at hrest
    rw [List.length_cons]
    omega

/-- The bound on how often an operator is asked for a row cuts nothing off. -/
theorem length_lt_drainLimit (hop : op.Prepared) (hs : s.Coherent)
    (h : source.Drained op s rows op' s') : rows.length < op.drainLimit s :=
  Nat.lt_of_le_of_lt
    (length_le_left hop hs (fun _ _ hpage => Store.slots_le_slotLimit hs hpage) h)
    (left_lt_drainLimit op s)

/-- An aggregation over an operator is fed all that the operator hands out, in any state that was
reached without flushing pages. -/
theorem Prepared.feeds_iff {first : Store} (hop : op.Prepared) (hfresh : first.Fresh)
    (hsound : first.catalog.Sound) (hreached : first.Reached s) :
    source.Feeds g op s rows out op' s' ↔
      ∃ opened t, op.start s = (.ok (), opened, t) ∧ source.Drained opened t rows op' s' ∧
        g.fed rows = .ok out := by
  constructor
  · rintro ⟨opened, t, hstart, hdrained, -, hfed⟩
    exact ⟨opened, t, hstart, hdrained, hfed⟩
  · rintro ⟨opened, t, hstart, hdrained, hfed⟩
    have hprepared := hop.start s
    have hcoherent := ((hreached.start op).invariant hfresh hsound).1
    rw [hstart] at hprepared hcoherent
    exact ⟨opened, t, hstart, hdrained, length_lt_drainLimit hprepared hcoherent hdrained, hfed⟩

/-- Opening and draining, with whatever is prepared to be drained. -/
theorem source_prepared :
    source.Protocol (fun op => op.AllClosed ∧ op.Prepared) fun op =>
      (op.isOpen = true ∧ op.Settled) ∧ op.Prepared :=
  source_protocol.and (fun _ s h => h.start s) (fun _ s h => h.next s) fun _ h => h.close

/-- An aggregation that was never opened can be opened exactly when its child can be opened and
drained, of however many rows, and the grouping has results for these. -/
theorem start_aggregate_iff {first : Store} {node : Node Operator Store} (hclear : g.clear = g)
    (h : Source.Unfed g (fun op => op.AllClosed ∧ op.Prepared) node) (hfresh : first.Fresh)
    (hsound : first.catalog.Sound) (hreached : first.Reached node.state) :
    ((aggregate node.child node.aggregation).answer node.state .start).1 = .started (.ok ()) ↔
      ∃ rows out opened t last u, node.child.start node.state = (.ok (), opened, t) ∧
        source.Drained opened t rows last u ∧ g.fed rows = .ok out := by
  rw [answer_aggregate]
  refine (h.started_iff source_prepared hclear).trans ?_
  simp only [h.child.2.feeds_iff hfresh hsound hreached]
  constructor
  · rintro ⟨rows, out, last, u, opened, t, hfed⟩
    exact ⟨rows, out, opened, t, last, u, hfed⟩
  · rintro ⟨rows, out, opened, t, last, u, hfed⟩
    exact ⟨rows, out, last, u, opened, t, hfed⟩

/-- An aggregation is made over an operator that is closed, and calls follow in which no attempt to
open it succeeds: it is as it was made, its child is closed, and the next attempt succeeds exactly
when the child can be opened and drained, of however many rows, and the grouping has results. -/
theorem Reachable.start_aggregating_iff {first : Store} {child : Operator} {column : Nat}
    {groupBy : Option Nat} {aggregate : Aggregate} {calls : List (Call Store)}
    {given : List Answer} (hchild : Reachable child) (hclosed : child.isOpen = false)
    (hmade : Operator.aggregating child column groupBy aggregate = .ok op)
    (hcalls : op.answers s calls = (given, op', s')) (hfailed : .started (.ok ()) ∉ given)
    (hfresh : first.Fresh) (hsound : first.catalog.Sound) (hreached : first.Reached s') :
    ∃ g child', Grouping.ofSchema child.schema groupBy column aggregate = .ok g ∧
      op' = .aggregate child' { grouping := g } ∧ child'.AllClosed ∧
      ((op'.answer s' .start).1 = .started (.ok ()) ↔
        ∃ rows out opened t last u, child'.start s' = (.ok (), opened, t) ∧
          source.Drained opened t rows last u ∧ g.fed rows = .ok out) := by
  unfold Operator.aggregating at hmade
  cases hg : Grouping.ofSchema child.schema groupBy column aggregate with
  | error e =>
    rw [hg] at hmade
    cases hmade
  | ok g =>
    rw [hg] at hmade
    obtain rfl := Except.ok.inj hmade
    have hclear := Grouping.clear_of_ofSchema hg
    have hrun := answers_aggregate ⟨{ grouping := g }, child, s⟩ calls
    rcases hnode : source.run ⟨{ grouping := g }, child, s⟩ calls with ⟨answers, node⟩
    rw [hnode, hcalls] at hrun
    obtain ⟨rfl, rfl, rfl⟩ := hrun
    have hfirst : Source.Unfed g (fun op => op.AllClosed ∧ op.Prepared)
        (⟨{ grouping := g }, child, s⟩ : Node Operator Store) :=
      ⟨rfl, hchild.settled.allClosed hclosed, hchild.prepared⟩
    have hunfed := hfirst.run source_prepared hclear (by rwa [hnode])
    rw [hnode] at hunfed
    exact ⟨g, node.child, rfl, by rw [hunfed.aggregation], hunfed.child.1,
      start_aggregate_iff hclear hunfed hfresh hsound hreached⟩

end Operator

/-! ## The aggregation -/

namespace Aggregation

variable {κ σ : Type} {source : Source κ σ} {Closed Open : κ → Prop} {g : Grouping} {child : κ} {s : σ}
  {node : Node κ σ}

/-- For every child that keeps to opening and closing, and every sequence of calls in which no
attempt to open the aggregation succeeded, with anything happening to the shared state in between:
the aggregation is as it was made and its child is closed.  The next attempt succeeds exactly when
the child can be opened and drained and the grouping has results, and these are a group-by of the
rows of that one drain.  From then on they are replayed. -/
theorem drains_once (hprotocol : source.Protocol Closed Open) {input : Schema}
    {groupBy : Option Nat} {column : Nat} {aggregate : Aggregate}
    (hg : Grouping.ofSchema input groupBy column aggregate = .ok g) (hchild : Closed child)
    {before : List (Call σ)} {answers : List Answer}
    (hbefore : source.run ⟨{ grouping := g }, child, s⟩ before = (answers, node))
    (hfailed : .started (.ok ()) ∉ answers) :
    node.aggregation = { grouping := g } ∧ Closed node.child ∧
      ((source.perform node .start).1 = .started (.ok ()) ↔
        ∃ rows out child' s', source.Feeds g node.child node.state rows out child' s') ∧
      ∀ opened, source.perform node .start = (.started (.ok ()), opened) →
        ∃ rows out, source.Feeds g node.child node.state rows out opened.child opened.state ∧
          g.GroupedBy rows out ∧
          source.Repeats Closed Open out ⟨true, 0, opened.child, opened.state⟩ opened := by
  have hclear := Grouping.clear_of_ofSchema hg
  have hfirst : Source.Unfed g Closed (⟨{ grouping := g }, child, s⟩ : Node κ σ) := ⟨rfl, hchild⟩
  have hunfed := @Source.Unfed.run _ _ _ _ _ _ _ hprotocol hclear before hfirst (by rwa [hbefore])
  rw [hbefore] at hunfed
  refine ⟨hunfed.aggregation, hunfed.child, hunfed.started_iff hprotocol hclear,
    fun opened hopened => ?_⟩
  rcases hunfed.start hprotocol hclear with
    ⟨rows, out, child', s', hfeeds, hopen, known, hknown, hstarted⟩ | ⟨-, e, hrefused, -⟩
  · obtain ⟨-, rfl⟩ := Prod.mk.inj (hstarted.symm.trans hopened)
    have hfollows : Source.Follows Closed Open out (⟨true, 0, child', s'⟩ : Player κ σ)
        ⟨{ grouping := known, isFed := true, isOpen := true }, child', s'⟩ :=
      ⟨hknown, rfl, rfl, rfl, rfl, rfl, fun _ => hopen, Bool.noConfusion⟩
    obtain ⟨-, -, -, -, -, hfed⟩ := id hfeeds
    exact ⟨rows, out, hfeeds, Grouping.groupedBy_of_fed hg hfed,
      hfollows.repeats hprotocol rfl rfl⟩
  · rw [hopened] at hrefused
    simp at hrefused

end Aggregation

namespace Sample

/-- The number of rows of the scan. -/
def counting : Grouping where
  groupBy := none
  column := 0
  aggregate := .count
  schema := ⟨[⟨.int, some "count(s.null)"⟩], by decide⟩
  groups := []
  computed := none

theorem counting_eq : Grouping.ofSchema tableScan.schema none 0 .count = .ok counting := by
  decide +kernel

/-- The store once a transaction has deleted a row of the first page. -/
def without (tid : TransactionId) (slot : Nat) (s : Store) : Store :=
  (s.deleteRow tid ((row 1 10).withRecord (some ⟨⟨table.id, 0⟩, slot⟩))).2

/-- The store once a transaction was committed. -/
def committed (tid : TransactionId) (s : Store) : Store :=
  (s.commit tid).2

/-- The count before it was asked for. -/
def counted : Aggregation.Node Operator Store :=
  ⟨{ grouping := counting }, .scan tableScan, twoPages⟩

/-- The first attempt to count comes to the second page when the first, which is dirty, is in the
only place there is. -/
def refusals : List (Aggregation.Call Store) :=
  [.meanwhile (without ⟨1⟩ 0), .start, .next, .meanwhile (committed ⟨1⟩)]

/-- The rows that were counted are deleted while the count is asked for again. -/
def repeats : List (Aggregation.Call Store) :=
  [.next, .next, .meanwhile (without ⟨2⟩ 1), .rewind, .next, .close, .meanwhile (committed ⟨2⟩),
    .start, .next]

end Sample

namespace Aggregation

/-- Of three rows one is deleted.  That is committed after an attempt to count the rows has failed
with one of them already merged; the next attempt counts two rows, and two rows they stay. -/
theorem drains_once_counting :
    let node := (Operator.source.run Sample.counted Sample.refusals).2
    let two : Row := ⟨Sample.counting.schema, [.int 2], none⟩
    (Operator.source.run Sample.counted Sample.refusals).1 =
        [.silent, .started (.error (.table (.cache (.noEvictablePage 1)))),
          .row (.error (.notOpen .aggregate)), .silent] ∧
      ∃ opened rows out, Operator.source.perform node .start = (.started (.ok ()), opened) ∧
        Sample.counting.GroupedBy rows out ∧
        (Operator.source.run opened Sample.repeats).1 =
          [.row (.ok (some two)), .row (.ok none), .silent, .rewound (.ok ()), .row (.ok (some two)),
            .silent, .silent, .started (.ok ()), .row (.ok (some two))] ∧
        (Operator.source.run opened (List.replicate (out.length + 1) .next)).1 = handsOut out := by
  intro node two
  have hrefusals : (Operator.source.run Sample.counted Sample.refusals).1 =
      [.silent, .started (.error (.table (.cache (.noEvictablePage 1)))),
        .row (.error (.notOpen .aggregate)), .silent] := by decide +kernel
  have hstart : (Operator.source.perform node .start).1 = .started (.ok ()) := by decide +kernel
  have hbefore : Operator.source.run Sample.counted Sample.refusals = (_, node) :=
    Prod.ext hrefusals rfl
  have hclosed : Operator.AllClosed (.scan Sample.tableScan) := rfl
  obtain ⟨-, -, -, hopens⟩ :=
    drains_once Operator.source_protocol Sample.counting_eq hclosed hbefore (by decide)
  obtain ⟨rows, out, -, hgrouped, hrepeats⟩ := hopens _ (Prod.ext hstart rfl)
  exact ⟨hrefusals, _, rows, out, Prod.ext hstart rfl, hgrouped, by decide +kernel,
    hrepeats.hands_out⟩

end Aggregation

end RowStore
