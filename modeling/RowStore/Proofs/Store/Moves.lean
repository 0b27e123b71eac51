import RowStore.Cursor
import RowStore.Proofs.Store.Coherence
import Mathlib.Logic.Relation

/-!
# RowStore.Proofs.Store.Moves: operations as sequences of moves

Every operation on a store but flushing and aborting is a sequence of moves, also when it fails
half way, so it keeps whatever a move keeps.  Unless pages are discarded the moves are `Step`s, which
leave every page that is held in the cache.  Flushing leaves behind pages that fall back to bytes
the disk no longer has; aborting then brings those bytes back.  `cleanMatch_abort_iff` says when
that breaks the agreement of clean pages with the disk.
-/

namespace RowStore.Store

/-- A sequence of moves. -/
abbrev Moves (s s' : Store) : Prop := Relation.ReflTransGen Move s s'

variable {s s' : Store} {page : PageId} {tid : TransactionId} {row : Row} {table : Table}

theorem Moves.valid (h : Moves s s') (hs : s.cache.Valid) : s'.cache.Valid := by
  induction h with
  | refl => exact hs
  | tail _ hmove ih => exact hmove.valid ih

theorem Moves.seated (h : Moves s s') (hs : s.Seated) : s'.Seated := by
  induction h with
  | refl => exact hs
  | tail _ hmove ih => exact hmove.seated ih

theorem Moves.cleanMatch (h : Moves s s') (hs : s.Seated) (hc : s.CleanMatch) : s'.CleanMatch := by
  induction h with
  | refl => exact hc
  | tail hmoves hmove ih => exact hmove.cleanMatch (Moves.seated hmoves hs) ih

theorem Moves.coherent (h : Moves s s') (hs : s.Coherent) : s'.Coherent := by
  induction h with
  | refl => exact hs
  | tail _ hmove ih => exact hmove.coherent ih

theorem Moves.catalog (h : Moves s s') : s'.catalog = s.catalog := by
  induction h with
  | refl => rfl
  | tail _ hmove ih => rw [catalog_of_move hmove, ih]

/-- No move takes a handle, gives one back, or changes how many pages may be cached. -/
theorem Move.fixed (h : Move s s') :
    s'.cache.handles = s.cache.handles ∧ s'.cache.capacity = s.cache.capacity := by
  cases h with
  | load hmiss hstored hroom =>
    obtain ⟨hhandles, -, -, hcapacity⟩ := Cache.fixed_of_makeRoom hroom
    exact ⟨hhandles, hcapacity⟩
  | drop gone =>
    simp only [discard, Cache.discard]
    split <;> exact ⟨rfl, rfl⟩
  | _ => exact ⟨rfl, rfl⟩

theorem Moves.fixed (h : Moves s s') :
    s'.cache.handles = s.cache.handles ∧ s'.cache.capacity = s.cache.capacity := by
  induction h with
  | refl => exact ⟨rfl, rfl⟩
  | tail _ hmove ih => exact ⟨hmove.fixed.1.trans ih.1, hmove.fixed.2.trans ih.2⟩

theorem Moves.handles (h : Moves s s') : s'.cache.handles = s.cache.handles :=
  (Moves.fixed h).1

/-! ## Steps -/

/-- A move that takes no page away from those who hold it. -/
def Step (s s' : Store) : Prop :=
  Move s s' ∧ s'.cache.detached = s.cache.detached

/-- A sequence of steps. -/
abbrev Steps (s s' : Store) : Prop := Relation.ReflTransGen Step s s'

theorem Steps.moves (h : Steps s s') : Moves s s' := by
  induction h with
  | refl => exact .refl
  | tail _ hstep ih => exact ih.tail hstep.1

/-! ## Reading -/

theorem steps_fetch (s : Store) (page : PageId) : Steps s (s.fetch page).2 := by
  have hfetched := s.fetched page
  generalize s.fetch page = out at hfetched ⊢
  cases hfetched with
  | hit hf => exact .single ⟨.use (hf ▸ rfl), rfl⟩
  | failed | full => exact .refl
  | loaded hmiss hstored hroom =>
    exact .single ⟨.load hmiss hstored hroom, (Cache.fixed_of_makeRoom hroom).2.1⟩

/-- A page that was fetched is cached. -/
theorem find?_of_fetch {content : Page} (hs : s.cache.Valid) (h : s.fetch page = (.ok content, s')) :
    ∃ frame, s'.cache.find? page = some frame ∧ frame.page = content := by
  have hfetched := s.fetched page
  rw [h] at hfetched
  cases hfetched with
  | hit hf => exact ⟨_, hf, rfl⟩
  | @loaded _ room hmiss hstored hroom =>
    refine ⟨⟨room.nextTag, content⟩, ?_, rfl⟩
    change (room.load content).find? page = _
    rw [Cache.find?_load, Cache.find?_makeRoom_eq_none hs hroom hmiss, id_of_stored hstored]
    simp

theorem disk_fetch (s : Store) (page : PageId) : (s.fetch page).2.disk = s.disk := by
  have hfetched := s.fetched page
  generalize s.fetch page = out at hfetched ⊢
  cases hfetched <;> rfl

/-- Pages were fetched, whether or not that succeeded. -/
abbrev Fetches (s s' : Store) : Prop :=
  Relation.ReflTransGen (fun s s' => ∃ page, s' = (s.fetch page).2) s s'

theorem fetches_fetch (s : Store) (page : PageId) : Fetches s (s.fetch page).2 :=
  .single ⟨page, rfl⟩

theorem Fetches.steps (h : Fetches s s') : Steps s s' := by
  induction h with
  | refl => exact .refl
  | tail _ hfetch ih =>
    obtain ⟨page, rfl⟩ := hfetch
    exact ih.trans (steps_fetch _ page)

theorem Fetches.moves (h : Fetches s s') : Moves s s' :=
  (Fetches.steps h).moves

/-- A cursor only fetches pages. -/
theorem fetches_fill : ∀ (remaining : Nat) (cursor : Cursor) (s : Store),
    Fetches s (cursor.fill remaining s).2.2
  | 0, _, _ => .refl
  | remaining + 1, cursor, s => by
    have hfetches := fetches_fetch s ⟨cursor.table.id, cursor.next⟩
    unfold Cursor.fill
    cases hfetch : s.fetch ⟨cursor.table.id, cursor.next⟩ with
    | mk result s' =>
      rw [hfetch] at hfetches
      cases result with
      | error e => exact hfetches
      | ok content =>
        dsimp only
        cases content.rows with
        | error e => exact hfetches
        | ok rows =>
          cases rows with
          | nil => exact hfetches.trans (fetches_fill remaining _ s')
          | cons first rest => exact hfetches

theorem fetches_hasNext (cursor : Cursor) (s : Store) : Fetches s (cursor.hasNext s).2.2 := by
  unfold Cursor.hasNext
  split_ifs
  · exact .refl
  · exact fetches_fill _ _ _
  · exact .refl

theorem fetches_pull (cursor : Cursor) (s : Store) : Fetches s (cursor.pull s).2.2 := by
  have hfetches := fetches_hasNext cursor s
  unfold Cursor.pull
  cases hnext : cursor.hasNext s with
  | mk result rest =>
    obtain ⟨cursor', s'⟩ := rest
    rw [hnext] at hfetches
    cases result with
    | error e => exact hfetches
    | ok more => cases more <;> exact hfetches

/-! ## Changing rows -/

theorem steps_insertInPage (hs : s.cache.Valid) (tid : TransactionId) (page : PageId) (row : Row) :
    Steps s (s.insertInPage tid page row).2 := by
  have hsteps := steps_fetch s page
  unfold insertInPage
  cases hfetch : s.fetch page with
  | mk result s' =>
    rw [hfetch] at hsteps
    cases result with
    | error e => exact hsteps
    | ok content =>
      dsimp only
      split_ifs
      · exact hsteps
      · cases hinsert : content.insert row with
        | error e => exact hsteps
        | ok out =>
          obtain ⟨frame, hf, rfl⟩ := find?_of_fetch hs hfetch
          exact hsteps.tail ⟨.rewrite tid hf (Page.rewrites_of_insert hinsert), rfl⟩

theorem disk_insertInPage (s : Store) (tid : TransactionId) (page : PageId) (row : Row) :
    (s.insertInPage tid page row).2.disk = s.disk := by
  have hdisk := disk_fetch s page
  unfold insertInPage
  cases hfetch : s.fetch page with
  | mk result s' =>
    rw [hfetch] at hdisk
    cases result with
    | error e => exact hdisk
    | ok content =>
      dsimp only
      split_ifs
      · exact hdisk
      · cases content.insert row <;> exact hdisk

theorem steps_insertInPages (tid : TransactionId) (row : Row) :
    ∀ (pages : List PageId) {s : Store}, s.cache.Valid → Steps s (insertInPages tid row pages s).2
  | [], _, _ => .refl
  | page :: pages, s, hs => by
    have hsteps := steps_insertInPage hs tid page row
    unfold insertInPages
    cases hinsert : s.insertInPage tid page row with
    | mk result s' =>
      rw [hinsert] at hsteps
      rcases result with e | _ | record
      · exact hsteps
      · exact hsteps.trans (steps_insertInPages tid row pages (Moves.valid hsteps.moves hs))
      · exact hsteps

theorem disk_insertInPages (tid : TransactionId) (row : Row) :
    ∀ (pages : List PageId) (s : Store), (insertInPages tid row pages s).2.disk = s.disk
  | [], _ => rfl
  | page :: pages, s => by
    have hdisk := disk_insertInPage s tid page row
    unfold insertInPages
    cases hinsert : s.insertInPage tid page row with
    | mk result s' =>
      rw [hinsert] at hdisk
      rcases result with e | _ | record
      · exact hdisk
      · exact (disk_insertInPages tid row pages s').trans hdisk
      · exact hdisk

theorem steps_insertGrowing (tid : TransactionId) (row : Row) :
    ∀ (attempts : Nat) {s : Store}, s.cache.Valid → s.catalog.table table.id = .ok table →
      Steps s (insertGrowing table tid row attempts s).2
  | 0, _, _, _ => .refl
  | attempts + 1, s, hs, ht => by
    have hsteps := steps_insertInPages tid row (table.firstPages (table.pageCount s.disk)) hs
    have hdisk := disk_insertInPages tid row (table.firstPages (table.pageCount s.disk)) s
    unfold insertGrowing
    dsimp only
    cases hinsert : insertInPages tid row (table.firstPages (table.pageCount s.disk)) s with
    | mk result s₁ =>
      rw [hinsert] at hsteps hdisk
      dsimp only at hsteps hdisk ⊢
      rcases result with e | _ | record
      · exact hsteps
      · dsimp only
        rw [← hdisk]
        cases hwrite : table.writeBytes s₁.disk ⟨table.id, table.pageCount s₁.disk⟩
            (Bytes.zeros table.pageSize) with
        | error e => exact hsteps
        | ok disk =>
          have ht₁ : s₁.catalog.table table.id = .ok table := by rwa [Moves.catalog hsteps.moves]
          have hgrown : Steps s { s₁ with disk } := hsteps.tail ⟨.grow ht₁ hwrite, rfl⟩
          have hlast := steps_insertInPage (Moves.valid hgrown.moves hs) tid
            ⟨table.id, table.pageCount s₁.disk⟩ row
          dsimp only
          cases hlast' : insertInPage { s₁ with disk } tid
              ⟨table.id, table.pageCount s₁.disk⟩ row with
          | mk result s₂ =>
            rw [hlast'] at hlast
            have hsteps₂ : Steps s s₂ := hgrown.trans hlast
            rcases result with e | _ | record
            · exact hsteps₂
            · have ht₂ : s₂.catalog.table table.id = .ok table := by
                rwa [Moves.catalog hsteps₂.moves]
              exact hsteps₂.trans
                (steps_insertGrowing tid row attempts (Moves.valid hsteps₂.moves hs) ht₂)
            · exact hsteps₂
      · exact hsteps

theorem steps_insertRow (hs : s.cache.Valid) (tid : TransactionId) (id : TableId) (row : Row) :
    Steps s (s.insertRow tid id row).2 := by
  unfold insertRow
  cases ht : s.catalog.table id with
  | error e => exact .refl
  | ok table =>
    dsimp only [insertInTable]
    split_ifs
    · refine steps_insertGrowing tid row _ hs ?_
      rw [(Catalog.mem_of_table ht).1, ht]
    · exact .refl

theorem steps_deleteFromTable (hs : s.cache.Valid) (table : Table) (tid : TransactionId) (row : Row) :
    Steps s (s.deleteFromTable table tid row).2 := by
  unfold deleteFromTable
  cases row.record with
  | none => exact .refl
  | some record =>
    have hsteps := steps_fetch s record.page
    dsimp only
    split_ifs
    · exact .refl
    · exact .refl
    · cases hfetch : s.fetch record.page with
      | mk result s' =>
        rw [hfetch] at hsteps
        cases result with
        | error e => exact hsteps
        | ok content =>
          dsimp only
          cases hdelete : content.delete row with
          | error e => exact hsteps
          | ok changed =>
            obtain ⟨frame, hf, rfl⟩ := find?_of_fetch hs hfetch
            exact hsteps.tail ⟨.rewrite tid hf (Page.rewrites_of_delete hdelete), rfl⟩

theorem steps_deleteRow (hs : s.cache.Valid) (tid : TransactionId) (row : Row) :
    Steps s (s.deleteRow tid row).2 := by
  unfold deleteRow
  cases row.record with
  | none => exact .refl
  | some record =>
    dsimp only
    cases s.catalog.table record.page.table with
    | error e => exact .refl
    | ok table => exact steps_deleteFromTable hs table tid row

/-! ## Committing -/

theorem steps_commitPages (tid : TransactionId) :
    ∀ (pages : List PageId) (s : Store), Steps s (commitPages tid pages s).2
  | [], _ => .refl
  | page :: pages, s => by
    unfold commitPages
    cases hf : s.cache.find? page with
    | none => exact steps_commitPages tid pages s
    | some frame =>
      dsimp only
      split_ifs
      · cases hwrite : s.writeBack frame.page with
        | error e => exact .refl
        | ok disk => exact .head ⟨.settle hf hwrite, rfl⟩ (steps_commitPages tid pages _)
      · exact steps_commitPages tid pages s

theorem steps_commit (s : Store) (tid : TransactionId) : Steps s (s.commit tid).2 :=
  steps_commitPages tid _ s

/-! ## Operations as moves -/

theorem moves_fetch (s : Store) (page : PageId) : Moves s (s.fetch page).2 :=
  (steps_fetch s page).moves

theorem moves_hasNext (cursor : Cursor) (s : Store) : Moves s (cursor.hasNext s).2.2 :=
  (fetches_hasNext cursor s).moves

theorem moves_pull (cursor : Cursor) (s : Store) : Moves s (cursor.pull s).2.2 :=
  (fetches_pull cursor s).moves

theorem moves_insertInPage (hs : s.cache.Valid) (tid : TransactionId) (page : PageId) (row : Row) :
    Moves s (s.insertInPage tid page row).2 :=
  (steps_insertInPage hs tid page row).moves

theorem moves_insertInPages (tid : TransactionId) (row : Row) (pages : List PageId) {s : Store}
    (hs : s.cache.Valid) : Moves s (insertInPages tid row pages s).2 :=
  (steps_insertInPages tid row pages hs).moves

theorem moves_insertRow (hs : s.cache.Valid) (tid : TransactionId) (id : TableId) (row : Row) :
    Moves s (s.insertRow tid id row).2 :=
  (steps_insertRow hs tid id row).moves

theorem moves_deleteRow (hs : s.cache.Valid) (tid : TransactionId) (row : Row) :
    Moves s (s.deleteRow tid row).2 :=
  (steps_deleteRow hs tid row).moves

theorem moves_commit (s : Store) (tid : TransactionId) : Moves s (s.commit tid).2 :=
  (steps_commit s tid).moves

/-! ## Flushing and aborting -/

theorem flush_eq (s : Store) (page : PageId) :
    (s.flush page).2 = s ∨ ∃ frame disk, s.cache.find? page = some frame ∧
      s.writeBack frame.page = .ok disk ∧
      (s.flush page).2 = ({ s with disk } : Store).put (frame.page.mark none) := by
  unfold flush
  cases hf : s.cache.find? page with
  | none => exact Or.inl rfl
  | some frame =>
    dsimp only
    split_ifs
    · cases hwrite : s.writeBack frame.page with
      | error e => exact Or.inl rfl
      | ok disk => exact Or.inr ⟨frame, disk, rfl, hwrite, rfl⟩
    · exact Or.inl rfl

theorem catalog_flush (s : Store) (page : PageId) : (s.flush page).2.catalog = s.catalog := by
  rcases flush_eq s page with h | ⟨frame, disk, -, -, h⟩
  · rw [h]
  · rw [h]
    rfl

theorem valid_flush (hs : s.cache.Valid) (page : PageId) : (s.flush page).2.cache.Valid := by
  rcases flush_eq s page with h | ⟨frame, disk, -, -, h⟩
  · rwa [h]
  · rw [h]
    exact hs.put _

theorem Seated.flush (hs : s.Seated) (page : PageId) : (s.flush page).2.Seated := by
  rcases flush_eq s page with h | ⟨frame, disk, hf, hw, h⟩
  · rwa [h]
  · rw [h]
    have hid : (frame.page.mark none).id = page := hs.valid.keyed hf
    refine ⟨hs.sound, h ▸ valid_flush hs.valid page, ?_⟩
    intro other frame' hf'
    rcases cached_of_writeBack hs hf hw hid hf' with
      ⟨rfl, hpage, hstored⟩ | ⟨-, hold, hsame⟩
    · obtain ⟨content, -, -, hlen, hbefore⟩ := hs.seated hf
      refine ⟨_, hstored, by rw [hpage]; rfl, by rw [hpage]; rfl, ?_⟩
      rw [hpage]
      exact hbefore.trans hlen.symm
    · obtain ⟨content, hstored, hrest⟩ := hs.seated hold
      exact ⟨content, hsame.trans hstored, hrest⟩

/-- A page that was flushed holds the bytes the disk has. -/
theorem Seated.cleanMatch_flush (hs : s.Seated) (hc : s.CleanMatch) (page : PageId) :
    (s.flush page).2.CleanMatch := by
  rcases flush_eq s page with h | ⟨frame, disk, hf, hw, h⟩
  · rwa [h]
  · rw [h]
    have hid : (frame.page.mark none).id = page := hs.valid.keyed hf
    intro other frame' hf' hclean
    rcases cached_of_writeBack hs hf hw hid hf' with
      ⟨rfl, hpage, hstored⟩ | ⟨-, hold, hsame⟩
    · rw [storedBytes, hpage]
      exact congrArg (Except.map Page.data) hstored
    · have hbytes := hc other frame' hold hclean
      rw [storedBytes, ← hsame] at hbytes
      exact hbytes

theorem flushPages_keeps (keeps : Store → Prop)
    (hkeep : ∀ s page, keeps s → keeps (s.flush page).2) :
    ∀ (pages : List PageId) (s : Store), keeps s → keeps (flushPages pages s).2
  | [], _, h => h
  | page :: pages, s, h => by
    have hnext := hkeep s page h
    unfold flushPages
    cases hflush : s.flush page with
    | mk result s' =>
      rw [hflush] at hnext
      cases result with
      | error e => exact hnext
      | ok done => exact flushPages_keeps keeps hkeep pages s' hnext

/-- An abort gives the pages of the transaction their former bytes back. -/
theorem find?_abort (s : Store) (tid : TransactionId) (page : PageId) :
    (s.abort tid).cache.find? page = (s.cache.find? page).map fun frame =>
      if frame.page.dirtier = some tid then { frame with page := frame.page.beforeImage }
      else frame := by
  unfold abort
  exact Lookup.lookup_map s.cache.frames (fun _ frame =>
    if frame.page.dirtier = some tid then { frame with page := frame.page.beforeImage } else frame)
    page

/-- A cached page after an abort. -/
theorem cached_of_abort {frame' : Frame} (hf : (s.abort tid).cache.find? page = some frame') :
    ∃ frame, s.cache.find? page = some frame ∧
      (frame.page.dirtier = some tid ∧ frame'.page = frame.page.beforeImage ∨
        frame.page.dirtier ≠ some tid ∧ frame' = frame) := by
  rw [find?_abort] at hf
  obtain ⟨frame, hframe, hchange⟩ := Option.map_eq_some_iff.mp hf
  refine ⟨frame, hframe, ?_⟩
  split_ifs at hchange with hmark
  · exact Or.inl ⟨hmark, by rw [← hchange]⟩
  · exact Or.inr ⟨hmark, hchange.symm⟩

theorem valid_abort (hs : s.cache.Valid) (tid : TransactionId) : (s.abort tid).cache.Valid := by
  refine hs.of_frames ?_ rfl rfl ?_
  · simp [Store.abort, Function.comp_def]
  · intro page frame' hf
    obtain ⟨frame, hold, ⟨-, hpage⟩ | ⟨-, rfl⟩⟩ := cached_of_abort hf
    · rw [hpage]
      exact hs.keyed hold
    · exact hs.keyed hold

theorem Seated.abort (hs : s.Seated) (tid : TransactionId) : (s.abort tid).Seated := by
  refine ⟨hs.sound, valid_abort hs.valid tid, ?_⟩
  intro page frame' hf
  obtain ⟨frame, hold, ⟨-, hpage⟩ | ⟨-, rfl⟩⟩ := cached_of_abort hf
  · obtain ⟨content, hstored, hschema, -, hbefore⟩ := hs.seated hold
    exact ⟨content, hstored, by rw [hpage]; exact hschema, by rw [hpage]; exact hbefore,
      by rw [hpage]; exact hbefore⟩
  · exact hs.seated hold

theorem BeforeMatch.abort (hb : s.BeforeMatch) (tid : TransactionId) :
    (s.abort tid).BeforeMatch := by
  intro page frame' hf
  obtain ⟨frame, hold, ⟨-, hpage⟩ | ⟨-, rfl⟩⟩ := cached_of_abort hf
  · rw [hpage]
    exact hb page frame hold
  · exact hb page frame' hold

/-- Clean pages still agree with the disk after an abort exactly when the pages of the transaction
fell back to the bytes the disk has. -/
theorem cleanMatch_abort_iff (hc : s.CleanMatch) (tid : TransactionId) :
    (s.abort tid).CleanMatch ↔ ∀ page frame, s.cache.find? page = some frame →
      frame.page.dirtier = some tid → s.storedBytes page = .ok frame.page.before := by
  constructor
  · intro h page frame hf hmark
    have hfound := find?_abort s tid page
    rw [hf, Option.map_some, if_pos hmark] at hfound
    exact h page _ hfound rfl
  · intro h page frame' hf hclean
    obtain ⟨frame, hold, ⟨hmark, hpage⟩ | ⟨-, rfl⟩⟩ := cached_of_abort hf
    · rw [hpage]
      exact h page frame hold hmark
    · exact hc page frame' hold hclean

theorem Coherent.abort (hs : s.Coherent) (tid : TransactionId) : (s.abort tid).Coherent :=
  ⟨hs.toSeated.abort tid,
    (cleanMatch_abort_iff hs.clean tid).mpr fun page frame hf _ => hs.before page frame hf,
    hs.before.abort tid⟩

end RowStore.Store
