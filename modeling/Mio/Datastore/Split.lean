import Mio.Datastore.Grow

/-! `split_tile_if_needed` writes the grown tree below the tile and hands its root back. -/
namespace Mio.Datastore

/-- The key whose file a failed set of `key` leaves behind without a value. -/
def Fault.torn (key : Key) : Fault → Option Key
  | .cannotOpen => none
  | .cannotWrite => some key

namespace Channel

variable {ch : Channel}

theorem set_ret {key : Key} {length : ℕ} {write : Kvs → Kvs} {kvs kvs' : Kvs} {u : Unit}
    (h : ch.set key length write kvs = .ret (u, kvs')) : kvs' = write kvs := by
  simp only [set] at h
  split at h
  · cases h
    rfl
  · cases h
  · split at h
    · cases h
    · cases h
      rfl

theorem set_done {key : Key} (length : ℕ) (write : Kvs → Kvs) {kvs : Kvs}
    (quiet : ch.setFault kvs key = none) : ch.set key length write kvs = .ret ((), write kvs) := by
  simp only [set, quiet]

/-- It is the set of `key` that ended the call, in the store that is left. -/
def FailedAt (ch : Channel) (key : Key) (f : Failure) : Prop :=
  ∃ fault, ch.setFault f.left key = some fault ∧ f.torn = fault.torn key

/-- A throwing set leaves every value as it was, save that of a torn file. -/
theorem set_throw {key : Key} {length : ℕ} {write : Kvs → Kvs} {kvs : Kvs} {f : Failure}
    (h : ch.set key length write kvs = .throw f) : f.left = kvs ∧ ch.FailedAt key f := by
  simp only [set] at h
  split at h
  · cases h
  · next fault =>
      cases h
      exact ⟨rfl, _, fault, rfl⟩
  · next fault =>
      split at h
      · cases h
        exact ⟨rfl, _, fault, rfl⟩
      · cases h

theorem writeTile_ret {ti : TileIndex} {tile : ExactTile} {kvs kvs' : Kvs} {u : Unit}
    (h : ch.writeTile ti tile kvs = .ret (u, kvs')) :
    kvs' = { kvs with tiles := Function.update kvs.tiles ti (some tile) } := set_ret h

/-- No set of a tile below `ti` fails. -/
def QuietBelow (ch : Channel) (ti : TileIndex) : Prop :=
  ∀ kvs i, i.Under ti → i ≠ ti → ch.setFault kvs (.tile i) = none

theorem QuietBelow.mono {i ti : TileIndex} (h : ch.QuietBelow ti) (under : i.Under ti) :
    ch.QuietBelow i := by
  intro kvs j below ne
  refine h kvs j (below.trans under) ?_
  rintro rfl
  exact ne (below.antisymm under)

/-- Nothing is stored strictly below `ti`. -/
def Free (kvs : Kvs) (ti : TileIndex) : Prop := ∀ i : TileIndex, i.Under ti → i ≠ ti → kvs.tiles i = none

theorem Free.of_only_all {kvs : Kvs} {ti : TileIndex} (regular : Regular ti)
    (only : ∀ i : TileIndex, i ≠ .nonnegativeAll → kvs.tiles i = none) : Free kvs ti := by
  intro i under _
  refine only i ?_
  rintro rfl
  exact regular.all_not_under under

/-- What `split`, given to `splitInto`, does when it returns. -/
def Splits (limit : ℕ) (split : TileIndex → ExactTile → ChannelM (TileIndex × ExactTile)) : Prop :=
  ∀ ti tile kvs root tile' kvs', ti.level < TileIndex.intMax → Free kvs ti →
    split ti tile kvs = .ret ((root, tile'), kvs') →
    root = .null ∧ ∃ s, Grown limit ti tile s ∧ s.label = tile' ∧
      kvs' = { kvs with tiles := s.placedBelow ti kvs.tiles }

theorem splitChild_ret {limit : ℕ} {split : TileIndex → ExactTile → ChannelM (TileIndex × ExactTile)}
    (spec : Splits limit split) {child : TileIndex} {tile tile' : ExactTile} {kvs kvs' : Kvs}
    (high : child.level < TileIndex.intMax)
    (free : ∀ i : TileIndex, i.Under child → i ≠ child → kvs.tiles i = none)
    (h : ch.splitChild split child tile kvs = .ret (tile', kvs')) :
    ∃ s, Grown limit child tile s ∧ s.label = tile' ∧
      kvs' = { kvs with tiles := s.placed child kvs.tiles } := by
  simp only [splitChild, Exec.bind_eq_ret, Exec.get_run, Exec.assert_eq_ret, Exec.pure_run,
    Outcome.ret.injEq, Prod.mk.injEq] at h
  obtain ⟨_, _, ⟨rfl, rfl⟩, _, _, ⟨-, rfl⟩, ⟨root, t⟩, _, run, _, _, ⟨-, rfl⟩, _, _, hw, rfl, rfl⟩ := h
  obtain ⟨-, s, grown, rfl, rfl⟩ := spec _ _ _ _ _ _ high free run
  obtain rfl := writeTile_ret hw
  refine ⟨s, grown, rfl, ?_⟩
  rw [CellTree.update_placedBelow]

theorem splitInto_ret {limit : ℕ} {split : TileIndex → ExactTile → ChannelM (TileIndex × ExactTile)}
    (spec : Splits limit split) {ti : TileIndex} {tile tile' : ExactTile} {kvs kvs' : Kvs}
    (high : ti.level < TileIndex.intMax) (free : Free kvs ti) (long : limit < tile.binaryLength)
    (h : ch.splitInto split ti tile kvs = .ret (tile', kvs')) :
    ∃ s, Grown limit ti tile s ∧ s.label = tile' ∧
      kvs' = { kvs with tiles := s.placedBelow ti kvs.tiles } := by
  have high' : ti.level - 1 < TileIndex.intMax := by omega
  have mid := TileIndex.rightChild_startTime high
  rw [TileIndex.rightChild_eq high] at mid
  simp only [splitInto, Exec.bind_eq_ret, Exec.read_eq_ret, mid, TileIndex.leftChild_eq high,
    TileIndex.rightChild_eq high] at h
  obtain ⟨⟨a, b⟩, _, ⟨halves, rfl⟩, _, _, hl, _, _, hr, hc, rfl⟩ := h
  obtain ⟨rfl, rfl⟩ := splitSamples_ret halves
  obtain ⟨l, gl, rfl, rfl⟩ := splitChild_ret spec high' (by
    intro i under ne
    refine free i (under.trans (.lo ti)) ?_
    rintro rfl
    exact Cell.not_under_lo_self _ under) hl
  obtain ⟨r, gr, rfl, rfl⟩ := splitChild_ret spec high' (by
    intro i under ne
    have out : ¬ i.Under ti.lo := fun g => Cell.not_under_lo_hi g under
    simp only [CellTree.placed, if_neg out]
    refine free i (under.trans (.hi ti)) ?_
    rintro rfl
    exact Cell.not_under_hi_self _ under) hr
  refine ⟨.node tile' l r, .node long gl gr hc, rfl, ?_⟩
  rw [CellTree.placedBelow_node]

theorem splitTileIfNeeded_ret (fuel : ℕ) : Splits ch.maxTileSize (ch.splitTileIfNeeded fuel) := by
  induction fuel with
  | zero =>
      intro ti tile kvs root tile' kvs' high free h
      cases h
  | succ fuel ih =>
      intro ti tile kvs root tile' kvs' high free h
      rw [splitTileIfNeeded] at h
      split at h
      · next fits =>
          cases h
          exact ⟨rfl, .leaf tile, .leaf fits, rfl, by rw [CellTree.placedBelow_leaf _ free]⟩
      · next long =>
          have ordinary : ¬ ti.isNonnegativeAll := fun e => high.ne e.1
          rw [if_neg ordinary] at h
          obtain ⟨t, _, hs, h⟩ := Exec.bind_eq_ret.mp h
          cases h
          exact ⟨rfl, splitInto_ret ih high free (not_le.mp long) hs⟩

/-- Splitting the all-tile chooses the root from the tile's own first and last time. -/
theorem splitAll_ret {fuel : ℕ} {tile tile' : ExactTile} {root : TileIndex} {kvs kvs' : Kvs}
    (asc : tile.samples.Ascending) (double : ∀ x ∈ tile.samples.times, IsDouble x ∧ 0 ≤ x)
    (only : ∀ i : TileIndex, i ≠ .nonnegativeAll → kvs.tiles i = none)
    (h : ch.splitTileIfNeeded fuel .nonnegativeAll tile kvs = .ret ((root, tile'), kvs')) :
    tile.binaryLength ≤ ch.maxTileSize ∧ root = .null ∧ tile' = tile ∧ kvs' = kvs ∨
      ∃ a ∈ tile.samples.times, ∃ b ∈ tile.samples.times, a < b ∧
        (∀ x ∈ tile.samples.times, a ≤ x ∧ x ≤ b) ∧ Cell.Smallest root a b ∧
        Regular root ∧ ∃ s, Grown ch.maxTileSize root tile s ∧ ch.maxTileSize < tile.binaryLength ∧
          s.label = tile' ∧ kvs' = { kvs with tiles := s.placedBelow root kvs.tiles } := by
  cases fuel with
  | zero => cases h
  | succ fuel =>
      rw [splitTileIfNeeded] at h
      split at h
      · next fits =>
          cases h
          exact .inl ⟨fits, rfl, rfl, rfl⟩
      · next long =>
          right
          rw [if_pos (TileIndex.isNonnegativeAll_iff.mpr rfl)] at h
          simp only [Exec.bind_eq_ret, Exec.read_eq_ret, Exec.pure_run, Outcome.ret.injEq,
            Prod.mk.injEq] at h
          obtain ⟨index, kvs₁, ⟨chosen, same⟩, t, _, run, ⟨rfl, rfl⟩, rfl⟩ := h
          rw [same] at run
          obtain ⟨a, ha, b, hb, lt, ends, least, high, low⟩ :=
            Tile.indexContaining_ends asc double chosen
          have regular : Regular index := ⟨low.le, high⟩
          have free : Free kvs index := .of_only_all regular only
          obtain ⟨s, grown, label, eq⟩ := splitInto_ret (splitTileIfNeeded_ret fuel)
            regular.lt_intMax free (not_le.mp long) run
          exact ⟨a, ha, b, hb, lt, ends, least, regular, s, grown, not_le.mp long, label, eq⟩

theorem splitChild_done {split : ℕ → TileIndex → ExactTile → ChannelM (TileIndex × ExactTile)}
    {child : TileIndex} {tile : ExactTile} {s : TileTree} {kvs : Kvs}
    (run : Exec.Reaches (fun fuel => split fuel child tile) kvs (.null, s.label)
      { kvs with tiles := s.placedBelow child kvs.tiles })
    (absent : kvs.tiles child = none) (quiet : ∀ kvs, ch.setFault kvs (.tile child) = none) :
    Exec.Reaches (fun fuel => ch.splitChild (split fuel) child tile) kvs s.label
      { kvs with tiles := s.placed child kvs.tiles } := by
  have free : ¬ kvs.hasTile child := by simp [Kvs.hasTile, absent]
  refine .bind (.of_ret fun _ => Exec.get_run kvs) ?_
  refine .bind (.of_ret fun _ => Exec.assert_of free _ kvs) ?_
  refine .bind run ?_
  refine .bind (.of_ret fun _ => Exec.assert_of rfl _ _) ?_
  refine .bind (.of_ret fun _ => set_done _ _ (quiet _)) ?_
  refine .of_ret fun _ => ?_
  rw [CellTree.update_placedBelow]
  rfl

theorem splitInto_done {split : ℕ → TileIndex → ExactTile → ChannelM (TileIndex × ExactTile)}
    {ti : TileIndex} {tile parent : ExactTile} {l r : TileTree} {kvs : Kvs}
    (high : ti.level < TileIndex.intMax) (asc : tile.samples.Ascending) (free : Free kvs ti)
    (quiet : ch.QuietBelow ti)
    (left : ∀ kvs, Free kvs ti.lo → Exec.Reaches
      (fun fuel => split fuel ti.lo (.ofSamples (tile.samples.before ti.hi.start))) kvs
      (.null, l.label) { kvs with tiles := l.placedBelow ti.lo kvs.tiles })
    (right : ∀ kvs, Free kvs ti.hi → Exec.Reaches
      (fun fuel => split fuel ti.hi (.ofSamples (tile.samples.since ti.hi.start))) kvs
      (.null, r.label) { kvs with tiles := r.placedBelow ti.hi kvs.tiles })
    (combined : (createParentTileFromChildren ti tile l.label r.label : Outcome Failure _) =
      .ret parent) :
    Exec.Reaches (fun fuel => ch.splitInto (split fuel) ti tile) kvs parent
      { kvs with tiles := (CellTree.node parent l r).placedBelow ti kvs.tiles } := by
  have mid := TileIndex.rightChild_startTime high
  rw [TileIndex.rightChild_eq high] at mid
  have beside : ∀ i : TileIndex, i.Under ti.hi → l.placed ti.lo kvs.tiles i = kvs.tiles i :=
    fun i under => if_neg fun g => Cell.not_under_lo_hi g under
  simp only [splitInto, TileIndex.leftChild_eq high, TileIndex.rightChild_eq high, mid]
  refine .bind (.of_ret fun _ => Exec.read_of_ret (splitSamples_done asc _)) ?_
  refine .bind (splitChild_done (left kvs ?_) (free _ (.lo ti) (Cell.lo_ne ti))
    fun kvs => quiet kvs _ (.lo ti) (Cell.lo_ne ti)) ?_
  · intro i under ne
    refine free i (under.trans (.lo ti)) ?_
    rintro rfl
    exact Cell.not_under_lo_self _ under
  refine .bind (splitChild_done (right _ ?_) ?_ fun kvs => quiet kvs _ (.hi ti) (Cell.hi_ne ti)) ?_
  · intro i under ne
    refine (beside i under).trans (free i (under.trans (.hi ti)) ?_)
    rintro rfl
    exact Cell.not_under_hi_self _ under
  · exact (beside _ (.refl _)).trans (free _ (.hi ti) (Cell.hi_ne ti))
  refine .of_ret fun _ => ?_
  rw [CellTree.placedBelow_node]
  exact Exec.read_of_ret combined

theorem splitTileIfNeeded_done {ti : TileIndex} {tile : ExactTile} {s : TileTree}
    (grown : Grown ch.maxTileSize ti tile s) (high : ti.level < TileIndex.intMax)
    (asc : tile.samples.Ascending) (quiet : ch.QuietBelow ti) (kvs : Kvs) (free : Free kvs ti) :
    Exec.Reaches (fun fuel => ch.splitTileIfNeeded fuel ti tile) kvs (.null, s.label)
      { kvs with tiles := s.placedBelow ti kvs.tiles } := by
  induction grown generalizing kvs with
  | @leaf ti tile fits =>
      refine .step (fun fuel => ?_) (.of_ret fun _ => ?_) (y := fun _ => pure (.null, tile))
      · rw [splitTileIfNeeded, if_pos fits]
      · rw [CellTree.placedBelow_leaf _ free]
        rfl
  | @node ti tile parent l r long left right combined ihl ihr =>
      have ordinary : ¬ ti.isNonnegativeAll := fun e => high.ne e.1
      have high' : ti.level - 1 < TileIndex.intMax := by omega
      refine .step (fun fuel => ?_) (.bind (splitInto_done high asc free quiet ?_ ?_ combined) ?_)
        (y := fun fuel => do
          let tile ← ch.splitInto (ch.splitTileIfNeeded fuel) ti tile
          return (.null, tile))
      · rw [splitTileIfNeeded, if_neg (not_le.mpr long), if_neg ordinary]
      · refine fun kvs => ihl high' ?_ (quiet.mono (.lo ti)) kvs
        rw [Tile.samples_ofSamples]
        exact asc.before _
      · refine fun kvs => ihr high' ?_ (quiet.mono (.hi ti)) kvs
        rw [Tile.samples_ofSamples]
        exact asc.since _
      · exact .of_ret fun _ => rfl

/-- What there is of one half of a split tile when the set of `key` fails: nothing a search finds, or
all but its own tile, which is what fails, or all of it. -/
inductive Half (limit : ℕ) (child : TileIndex) (tile : ExactTile) (left : Kvs) (key : TileIndex) : Prop
  | missing (none : left.tiles child = none) (ne : key ≠ child)
  | failing {s} (grown : Grown limit child tile s) (none : left.tiles child = none) (here : key = child)
      (below : ∀ i : TileIndex, i.Under child → i ≠ child → left.tiles i = s.get child i)
  | whole {s} (grown : Grown limit child tile s) (out : ¬ key.Under child)
      (holds : ∀ i : TileIndex, i.Under child → left.tiles i = s.get child i)

/-- The store when, in the course of a split of `ti`, the set of the tile `key` fails. The tile at
`ti` is untouched. -/
structure Halfway (limit : ℕ) (ti : TileIndex) (tile : ExactTile) (kvs left : Kvs) (key : TileIndex) :
    Prop where
  long : limit < tile.binaryLength
  metainfo : left.metainfo = kvs.metainfo
  outside : ∀ i : TileIndex, ¬ (i.Under ti ∧ i ≠ ti) → left.tiles i = kvs.tiles i
  below : key.Under ti ∧ key ≠ ti
  /-- Below a child nothing is reached before its own tile is there. -/
  bare : key.up = ti ∨ left.tiles key.up = none
  lo : Half limit ti.lo (.ofSamples (tile.samples.before ti.hi.start)) left key
  hi : Half limit ti.hi (.ofSamples (tile.samples.since ti.hi.start)) left key

def Fails (ch : Channel) (split : TileIndex → ExactTile → ChannelM (TileIndex × ExactTile)) : Prop :=
  ∀ ti tile kvs f, ti.level < TileIndex.intMax → Free kvs ti → split ti tile kvs = .throw f →
    ∃ key, ch.FailedAt (.tile key) f ∧ Halfway ch.maxTileSize ti tile kvs f.left key

/-- The same for one child, which is absent while it is being split. -/
structure ChildFails (limit : ℕ) (child : TileIndex) (tile : ExactTile) (kvs left : Kvs)
    (key : TileIndex) : Prop where
  metainfo : left.metainfo = kvs.metainfo
  outside : ∀ i : TileIndex, ¬ (i.Under child ∧ i ≠ child) → left.tiles i = kvs.tiles i
  under : key.Under child
  bare : key = child ∨ left.tiles key.up = none
  half : Half limit child tile left key

theorem splitChild_throw {split : TileIndex → ExactTile → ChannelM (TileIndex × ExactTile)}
    (spec : Splits ch.maxTileSize split) (fails : ch.Fails split) {child : TileIndex}
    {tile : ExactTile} {kvs : Kvs} {f : Failure} (high : child.level < TileIndex.intMax)
    (free : Free kvs child) (absent : kvs.tiles child = none)
    (h : ch.splitChild split child tile kvs = .throw f) :
    ∃ key, ch.FailedAt (.tile key) f ∧ ChildFails ch.maxTileSize child tile kvs f.left key := by
  simp only [splitChild, Exec.bind_eq_throw, Exec.get_run, Exec.assert_eq_ret, Exec.pure_run,
    Exec.assert_ne_throw, Outcome.ret.injEq, Prod.mk.injEq, reduceCtorEq, false_or, and_false,
    exists_false, or_false] at h
  obtain ⟨_, _, ⟨rfl, rfl⟩, _, _, ⟨-, rfl⟩, thrown | ⟨⟨root, t⟩, _, run, _, _, ⟨-, rfl⟩, thrown⟩⟩ := h
  · obtain ⟨key, failed, half⟩ := fails _ _ _ _ high free thrown
    have none : f.left.tiles child = none := by
      rw [half.outside _ fun g => g.2 rfl]
      exact absent
    refine ⟨key, failed, half.metainfo, half.outside, half.below.1, .inr ?_,
      .missing none half.below.2⟩
    rcases half.bare with eq | bare
    · rw [eq]
      exact none
    · exact bare
  · obtain ⟨-, s, grown, -, rfl⟩ := spec _ _ _ _ _ _ high free run
    obtain ⟨left, failed⟩ := set_throw thrown
    refine ⟨child, failed, ?_, ?_, .refl child, .inl rfl, ?_⟩
    · rw [left]
    · rw [left]
      exact fun i out => if_neg out
    · refine .failing grown ?_ rfl ?_
      · rw [left]
        exact (if_neg fun g => g.2 rfl).trans absent
      · rw [left]
        exact fun i under ne => if_pos ⟨under, ne⟩

theorem splitInto_throw {split : TileIndex → ExactTile → ChannelM (TileIndex × ExactTile)}
    (spec : Splits ch.maxTileSize split) (fails : ch.Fails split) {ti : TileIndex} {tile : ExactTile}
    {kvs : Kvs} {f : Failure} (high : ti.level < TileIndex.intMax) (free : Free kvs ti)
    (long : ch.maxTileSize < tile.binaryLength) (h : ch.splitInto split ti tile kvs = .throw f) :
    ∃ key, ch.FailedAt (.tile key) f ∧ Halfway ch.maxTileSize ti tile kvs f.left key := by
  have high' : ti.level - 1 < TileIndex.intMax := by omega
  have mid := TileIndex.rightChild_startTime high
  rw [TileIndex.rightChild_eq high] at mid
  simp only [splitInto, Exec.bind_eq_throw, Exec.read_eq_throw, Exec.read_eq_ret, mid,
    TileIndex.leftChild_eq high, TileIndex.rightChild_eq high] at h
  have freeLo : Free kvs ti.lo := by
    intro i under ne
    refine free i (under.trans (.lo ti)) ?_
    rintro rfl
    exact Cell.not_under_lo_self _ under
  have inside : ∀ {c i : TileIndex}, c.Under ti → c ≠ ti → i.Under c → i.Under ti ∧ i ≠ ti := by
    intro c i below ne under
    refine ⟨under.trans below, ?_⟩
    rintro rfl
    exact ne (below.antisymm under)
  have parent : ∀ {c key : TileIndex} {left : Kvs}, c.up = ti → key = c ∨ left.tiles key.up = none →
      key.up = ti ∨ left.tiles key.up = none := by
    rintro c key left up (rfl | bare)
    · exact .inl up
    · exact .inr bare
  rcases h with thrown | ⟨⟨a, b⟩, kvs₁, ⟨halves, same⟩, h⟩
  · exact (splitSamples_silent _ _ _ thrown).elim
  rw [same] at h
  obtain ⟨rfl, rfl⟩ := splitSamples_ret halves
  rcases h with thrown | ⟨_, _, hl, h⟩
  · -- the right half has not been begun
    obtain ⟨key, failed, fail⟩ :=
      splitChild_throw spec fails high' freeLo (free _ (.lo ti) (Cell.lo_ne ti)) thrown
    refine ⟨key, failed, long, fail.metainfo, fun i out => fail.outside i ?_,
      inside (.lo ti) (Cell.lo_ne ti) fail.under, parent ti.up_lo fail.bare, fail.half, .missing ?_ ?_⟩
    · exact fun g => out (inside (.lo ti) (Cell.lo_ne ti) g.1)
    · rw [fail.outside _ fun g => Cell.not_under_lo_hi g.1 (.refl _)]
      exact free _ (.hi ti) (Cell.hi_ne ti)
    · rintro rfl
      exact Cell.not_under_lo_hi fail.under (.refl _)
  obtain ⟨l, gl, rfl, rfl⟩ := splitChild_ret spec high' freeLo hl
  rcases h with thrown | ⟨_, _, hr, thrown⟩
  · -- the left half is complete
    have beside : ∀ {i : TileIndex}, i.Under ti.hi → l.placed ti.lo kvs.tiles i = kvs.tiles i :=
      fun under => if_neg fun g => Cell.not_under_lo_hi g under
    have freeHi : Free { kvs with tiles := l.placed ti.lo kvs.tiles } ti.hi := by
      intro i under ne
      refine (beside under).trans (free i (under.trans (.hi ti)) ?_)
      rintro rfl
      exact Cell.not_under_hi_self _ under
    obtain ⟨key, failed, fail⟩ := splitChild_throw spec fails high' freeHi
      ((beside (.refl _)).trans (free _ (.hi ti) (Cell.hi_ne ti))) thrown
    refine ⟨key, failed, long, fail.metainfo, ?_, inside (.hi ti) (Cell.hi_ne ti) fail.under, parent ti.up_hi fail.bare,
      .whole gl (fun g => Cell.not_under_lo_hi g fail.under) ?_, fail.half⟩
    · intro i out
      rw [fail.outside i fun g => out (inside (.hi ti) (Cell.hi_ne ti) g.1)]
      exact if_neg fun g => out (inside (.lo ti) (Cell.lo_ne ti) g)
    · intro i under
      rw [fail.outside i fun g => Cell.not_under_lo_hi under g.1]
      exact if_pos under
  · exact (createParent_silent _ _ _ _ _ thrown).elim

theorem splitTileIfNeeded_throw (fuel : ℕ) : ch.Fails (ch.splitTileIfNeeded fuel) := by
  induction fuel with
  | zero =>
      intro ti tile kvs f high free h
      cases h
  | succ fuel ih =>
      intro ti tile kvs f high free h
      rw [splitTileIfNeeded] at h
      split at h
      · cases h
      · next long =>
          have ordinary : ¬ ti.isNonnegativeAll := fun e => high.ne e.1
          rw [if_neg ordinary] at h
          rcases Exec.bind_eq_throw.mp h with thrown | ⟨_, _, -, thrown⟩
          · exact splitInto_throw (splitTileIfNeeded_ret fuel) ih high free (not_le.mp long) thrown
          · cases thrown

/-- While the all-tile is being split below the index chosen for it, it stays where it is. -/
theorem splitAll_throw {fuel : ℕ} {tile : ExactTile} {kvs : Kvs} {f : Failure}
    (asc : tile.samples.Ascending) (double : ∀ x ∈ tile.samples.times, IsDouble x ∧ 0 ≤ x)
    (only : ∀ i : TileIndex, i ≠ .nonnegativeAll → kvs.tiles i = none)
    (h : ch.splitTileIfNeeded fuel .nonnegativeAll tile kvs = .throw f) :
    ∃ a ∈ tile.samples.times, ∃ b ∈ tile.samples.times, a < b ∧
      (∀ x ∈ tile.samples.times, a ≤ x ∧ x ≤ b) ∧ ∃ root, Cell.Smallest root a b ∧ Regular root ∧
        ∃ key, ch.FailedAt (.tile key) f ∧ Halfway ch.maxTileSize root tile kvs f.left key := by
  cases fuel with
  | zero => cases h
  | succ fuel =>
      rw [splitTileIfNeeded] at h
      split at h
      · cases h
      · next long =>
          rw [if_pos (TileIndex.isNonnegativeAll_iff.mpr rfl)] at h
          simp only [Exec.bind_eq_throw, Exec.read_eq_throw, Exec.read_eq_ret, Exec.pure_run,
            reduceCtorEq, and_false, exists_false, or_false] at h
          rcases h with thrown | ⟨index, kvs₁, ⟨chosen, same⟩, thrown⟩
          · exact (TileIndex.indexContaining_silent _ _ _ thrown).elim
          · rw [same] at thrown
            obtain ⟨a, ha, b, hb, lt, ends, least, high, low⟩ :=
              Tile.indexContaining_ends asc double chosen
            have regular : Regular index := ⟨low.le, high⟩
            have free : Free kvs index := .of_only_all regular only
            obtain ⟨key, failed, half⟩ := splitInto_throw (splitTileIfNeeded_ret fuel)
              (splitTileIfNeeded_throw fuel) regular.lt_intMax free (not_le.mp long) thrown
            exact ⟨a, ha, b, hb, lt, ends, index, least, regular, key, failed, half⟩

end Channel
end Mio.Datastore
