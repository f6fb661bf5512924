import Mio.Datastore.Ranges
import Mio.Datastore.ReadTiles

/-! `read_bottommost_tiles_in_range`: a walk over the leaves. It is `read_tiles_in_range` with a desired
level below all doubles. -/
namespace Mio.Datastore

namespace Kvs

def findLowestSuccessiveTile (kvs : Kvs) (fuel : ℕ) (root ti : TileIndex) : Outcome Failure TileIndex := do
  let ti ← climbToLeftChild root fuel ti
  if ti.isNull then return .null
  else kvs.findLowestChildOverlappingTime fuel ti.sibling ti.sibling.startTime

/-- How the loop finds its next tile. -/
def nextLowest (kvs : Kvs) (root : TileIndex) (times : Range ℚ) (fuel : ℕ) (ti : TileIndex) :
    Outcome Failure TileIndex :=
  if ti.isNull then kvs.findLowestChildOverlappingTime fuel root times.min
  else kvs.findLowestSuccessiveTile fuel root ti

def readBottommostLoop (kvs : Kvs) (root : TileIndex) (times : Range ℚ)
    (callback : List (TileIndex × ExactTile) → Bool) :
    ℕ → TileIndex → List (TileIndex × ExactTile) → Outcome Failure (List (TileIndex × ExactTile)) :=
  kvs.reader.readTiles (kvs.nextLowest root times) (fun ti => ti.isNull ∨ ti.startTime ≥ times.max) callback

def readBottommostTilesInRange (kvs : Kvs) (fuel : ℕ) (times : Range ℚ)
    (callback : List (TileIndex × ExactTile) → Bool) :
    Outcome Failure (List (TileIndex × ExactTile)) := do
  match ← kvs.readInfo with
  | none => return []
  | some info =>
      if ¬ info.times.intersects times then return []
      -- the loop guard `time < times.max` never changes
      else if times.min < times.max then
        kvs.readBottommostLoop info.nonnegativeRootTileIndex times callback fuel .null []
      else return []

section
variable {kvs : Kvs} {d : ℤ}

theorem descendLowest_eq (deep : ∀ ti, kvs.hasTile ti → d < ti.level) (t : ℚ) (fuel : ℕ)
    {ti : TileIndex} (above : d < ti.level) :
    kvs.descendLowest t fuel ti = kvs.descendToLevel t d fuel ti := by
  induction fuel generalizing ti with
  | zero => rfl
  | succ fuel ih =>
      rw [descendLowest_succ, descendToLevel_succ, if_pos above]
      by_cases stop : (childTowards ti t).isNull ∨ ¬ kvs.hasTile (childTowards ti t)
      · rw [if_pos stop]
        exact (if_pos stop).symm
      · have has : kvs.hasTile (childTowards ti t) := by
          by_contra absent
          exact stop (.inr absent)
        rw [if_neg stop, ih (deep _ has)]
        exact (if_neg stop).symm

theorem findLowest_level (deep : ∀ ti, kvs.hasTile ti → d < ti.level) (t : ℚ) (fuel : ℕ)
    {ti : TileIndex} (above : d < ti.level) :
    kvs.findLowestChildOverlappingTime fuel ti t = kvs.findChildOverlappingTime fuel ti t d := by
  rw [findLowest_eq, findChild_eq, descendLowest_eq deep t fuel above]

theorem climbToLeftChild_level {ε : Type} {root ti r : TileIndex} {fuel : ℕ}
    (climb : climbToLeftChild root fuel ti = (.ret r : Outcome ε TileIndex)) : r.isNull ∨ ti.level ≤ r.level := by
  induction fuel generalizing ti with
  | zero => cases climb
  | succ fuel ih =>
      rw [climbToLeftChild] at climb
      split at climb
      · cases climb
        exact .inl (by decide)
      · next some =>
          split at climb
          · cases climb
            exact .inr le_rfl
          · split at climb
            · cases climb
              exact .inl (by decide)
            · refine (ih climb).imp_right fun le => le_trans ?_ le
              rw [TileIndex.parent] at some ⊢
              split at some
              · exact absurd (by decide) some
              · next high =>
                  rw [if_neg high]
                  exact (lt_add_one ti.level).le

theorem findLowestSuccessive_eq (deep : ∀ ti, kvs.hasTile ti → d < ti.level) (fuel : ℕ)
    (root : TileIndex) {ti : TileIndex} (above : d < ti.level) :
    kvs.findLowestSuccessiveTile fuel root ti = kvs.findSuccessiveTile fuel root ti d := by
  rw [findLowestSuccessiveTile, findSuccessiveTile]
  cases climb : climbToLeftChild (ε := Failure) root fuel ti with
  | ret r =>
      rw [Outcome.ret_bind, Outcome.ret_bind]
      by_cases null : r.isNull
      · rw [if_pos null, if_pos null]
      · have level := (climbToLeftChild_level climb).resolve_left null
        have higher : d < r.sibling.level := above.trans_le level
        rw [if_neg null, if_neg null, findLowest_level deep _ fuel higher]
  | throw e => rfl
  | abort w => rfl
  | timeout => rfl

theorem readBottommostLoop_succ (root : TileIndex) (times : Range ℚ)
    (callback : List (TileIndex × ExactTile) → Bool) (fuel : ℕ) (ti : TileIndex)
    (handed : List (TileIndex × ExactTile)) :
    kvs.readBottommostLoop root times callback (fuel + 1) ti handed =
      kvs.nextLowest root times fuel ti >>= fun next =>
        if next.isNull ∨ next.startTime ≥ times.max then return handed
        else kvs.readTile next >>= fun tile =>
          if callback (handed ++ [(next, tile)])
            then kvs.readBottommostLoop root times callback fuel next (handed ++ [(next, tile)])
            else return handed ++ [(next, tile)] :=
  kvs.readTiles_succ fuel ti _ times callback handed

theorem nextLowest_eq (deep : ∀ ti, kvs.hasTile ti → d < ti.level) {root : TileIndex}
    (top : d < root.level) (times : Range ℚ) (fuel : ℕ) {ti : TileIndex}
    (above : ti.isNull ∨ d < ti.level) :
    kvs.nextLowest root times fuel ti = kvs.nextTile root times d fuel ti := by
  rw [nextLowest, nextTile]
  by_cases null : ti.isNull
  · rw [if_pos null, if_pos null, findLowest_level deep _ fuel top]
  · rw [if_neg null, if_neg null, findLowestSuccessive_eq deep fuel root (above.resolve_left null)]

theorem readBottommostLoop_eq (deep : ∀ ti, kvs.hasTile ti → d < ti.level) {root : TileIndex}
    (top : d < root.level) (times : Range ℚ) (callback : List (TileIndex × ExactTile) → Bool)
    (fuel : ℕ) {ti : TileIndex} (above : ti.isNull ∨ d < ti.level)
    (handed : List (TileIndex × ExactTile)) :
    kvs.readBottommostLoop root times callback fuel ti handed =
      kvs.readTilesLoop root times d callback fuel ti handed := by
  induction fuel generalizing ti handed with
  | zero => rfl
  | succ fuel ih =>
      rw [readBottommostLoop_succ, readTilesLoop_succ, nextLowest_eq deep top times fuel above]
      congr 1
      funext next
      by_cases done : next.isNull ∨ next.startTime ≥ times.max
      · rw [if_pos done, if_pos done]
      · rw [if_neg done, if_neg done]
        cases stored : kvs.readTile next with
        | ret tile =>
            have has := hasTile_of_some (readTile_ret stored)
            rw [Outcome.ret_bind, Outcome.ret_bind, ih (.inr (deep next has))]
        | throw e => rfl
        | abort w => rfl
        | timeout => rfl

end

end Kvs
/-- Levels below the smallest double. -/
def noLevel : ℤ := -1075

namespace Stored

variable {kvs : Kvs} {info : ChannelInfo} {tree : TileTree}

theorem above_noLevel (h : Stored kvs info tree) {ti : TileIndex} (has : kvs.hasTile ti) :
    noLevel < ti.level := by
  by_cases all : info.nonnegativeRootTileIndex = .nonnegativeAll
  · rw [h.eq_all all has]
    decide
  · obtain ⟨tile, at_ti⟩ := Kvs.tiles_of_hasTile has
    obtain ⟨s, sub, -⟩ := h.sub at_ti
    exact lt_of_lt_of_le (by decide) (h.wf.regular_of_sub (h.regular all) sub).1

theorem prune_noLevel (h : Stored kvs info tree) :
    tree.prune noLevel info.nonnegativeRootTileIndex = tree := by
  have deep := h.wf.deep
  dsimp only at deep
  generalize info.nonnegativeRootTileIndex = i at deep
  clear h
  induction tree generalizing i with
  | leaf a => rfl
  | node a l r ihl ihr =>
      obtain ⟨here, deepL, deepR⟩ := CellTree.eachNode_node.mp deep
      have above : noLevel < i.level := lt_trans (by decide) here
      rw [CellTree.prune, if_pos above, ihl _ deepL, ihr _ deepR]

theorem front_early (h : Stored kvs info tree) (regular : Regular info.nonnegativeRootTileIndex)
    {front back : List (TileIndex × ExactTile)} {x : TileIndex × ExactTile} {t : ℚ}
    (reach : tree.reach info.nonnegativeRootTileIndex t = x)
    (leaves : tree.leaves info.nonnegativeRootTileIndex = front ++ x :: back) :
    ∀ y ∈ front, ∀ s ∈ y.2.samples.times, s < t := by
  intro y mem s hs
  have tiled := CellTree.leaves_tiled tree info.nonnegativeRootTileIndex
  have memY : y ∈ tree.leaves info.nonnegativeRootTileIndex := leaves ▸ List.mem_append_left _ mem
  have inside := h.wf.leaves_has regular y.1 y.2 memY s hs
  have first := (tiled.mem_bounds y memY).1
  have ordered := tiled.pairwise
  rw [leaves, List.pairwise_append] at ordered
  have before : y.1.stop ≤ x.1.start := ordered.2.2 y mem x List.mem_cons_self
  subst reach
  by_cases left : Cell.start info.nonnegativeRootTileIndex ≤ t
  · exact inside.2.trans_le (before.trans (CellTree.reach_start_le left))
  · rw [CellTree.reach_low (not_le.mp left)] at before
    have late := before.trans (CellTree.reach_start_le le_rfl)
    exact absurd (y.1.start_lt_stop.trans_le late) (not_lt.mpr first)

/-- The walk hands over a stretch of the leaves, from the first one that may reach into the range. -/
theorem readBottommostLoop_reaches (h : Stored kvs info tree) (times : Range ℚ) :
    ∃ front back, tree.leaves info.nonnegativeRootTileIndex = front ++ back ∧
      (∀ y ∈ front, ∀ s ∈ y.2.samples.times, s < times.min) ∧
      Outcome.Reaches (fun fuel => kvs.readBottommostLoop info.nonnegativeRootTileIndex times
        (fun _ => true) fuel .null [])
        (back.takeWhile fun y => TileIndex.startTime y.1 < times.max) := by
  have top := h.above_noLevel (Kvs.hasTile_of_some h.hasRoot)
  have same : ∀ fuel, kvs.readBottommostLoop info.nonnegativeRootTileIndex times
      (fun _ => true) fuel .null [] = kvs.readTilesLoop info.nonnegativeRootTileIndex times noLevel
        (fun _ => true) fuel .null [] := fun fuel =>
    Kvs.readBottommostLoop_eq (fun ti => h.above_noLevel) top times _ fuel (.inl (by decide)) []
  simp only [same]
  by_cases all : info.nonnegativeRootTileIndex = .nonnegativeAll
  · obtain ⟨tile, leaf⟩ := h.wf.shape_all all
    dsimp only at leaf
    have stored := h.hasRoot
    subst leaf
    rw [all] at stored ⊢
    refine ⟨[], [(TileIndex.nonnegativeAll, tile)], rfl, by simp, ?_⟩
    by_cases late : TileIndex.startTime .nonnegativeAll < times.max
    · rw [List.takeWhile_cons_of_pos (by simpa using late)]
      have going : ¬ (TileIndex.isNull .nonnegativeAll ∨
          TileIndex.startTime .nonnegativeAll ≥ times.max) :=
        not_or.mpr ⟨by decide, not_le.mpr late⟩
      refine Kvs.readTilesLoop_take Kvs.nextTile_all.1 going stored ?_
      simp only [if_true]
      exact Kvs.readTilesLoop_end Kvs.nextTile_all.2 (.inl (by decide))
    · rw [List.takeWhile_cons_of_neg (by simpa using late)]
      exact Kvs.readTilesLoop_end Kvs.nextTile_all.1 (.inr (not_lt.mp late))
  · have regular := h.regular all
    have found := h.nextTile_first regular times (d := noLevel)
    have mem := CellTree.reach_mem (tree.prune noLevel info.nonnegativeRootTileIndex)
      info.nonnegativeRootTileIndex times.min
    rw [h.prune_noLevel] at found mem
    obtain ⟨front, back, leaves⟩ := List.append_of_mem mem
    have early := h.front_early regular rfl leaves
    refine ⟨front, _, leaves, early, ?_⟩
    generalize tree.reach info.nonnegativeRootTileIndex times.min = x at found mem leaves
    have cut : x ∈ (tree.prune noLevel info.nonnegativeRootTileIndex).leaves
        info.nonnegativeRootTileIndex := h.prune_noLevel.symm ▸ mem
    have regX := h.regular_of_cut regular cut
    by_cases late : TileIndex.startTime x.1 < times.max
    · have going : ¬ (TileIndex.isNull x.1 ∨ TileIndex.startTime x.1 ≥ times.max) :=
        not_or.mpr ⟨regX.not_null, not_le.mpr late⟩
      rw [← h.prune_noLevel] at leaves
      have below : ∀ y ∈ x :: back, y.1 ≠ info.nonnegativeRootTileIndex := fun y hy =>
        ne_root_of_cut top (h.wf.shape_node all).2 (leaves ▸ List.mem_append_right _ hy)
      obtain ⟨post, -, whole, reaches⟩ :=
        h.readTilesLoop_from regular times (fun _ => true) leaves below [x]
      rw [List.takeWhile_cons_of_pos (by simpa using late), ← whole fun _ => rfl]
      refine Kvs.readTilesLoop_take found going (h.tiles_of_cut cut).1 ?_
      simp only [if_true]
      exact reaches
    · rw [List.takeWhile_cons_of_neg (by simpa using late)]
      exact Kvs.readTilesLoop_end found (.inr (not_lt.mp late))

theorem mem_leaves_iff (h : Stored kvs info tree) {ti : TileIndex} {tile : ExactTile} :
    (ti, tile) ∈ tree.leaves info.nonnegativeRootTileIndex ↔
      kvs.tiles ti = some tile ∧ ¬ kvs.hasTile ti.leftChild := by
  rw [CellTree.mem_leaves]
  constructor
  · intro leaf
    have stored := h.tiles_of_sub leaf
    refine ⟨stored, ?_⟩
    rcases h.children stored with ⟨noLeft, -⟩ | ⟨l, r, -, node, -⟩
    · exact noLeft
    · rw [leaf] at node
      cases node
  · intro both
    rcases h.children both.1 with ⟨-, -, leaf⟩ | ⟨l, r, -, -, left, -⟩
    · exact leaf
    · exact (both.2 (Kvs.hasTile_of_some left)).elim

theorem leaves_start (h : Stored kvs info tree) :
    (tree.leaves info.nonnegativeRootTileIndex).Pairwise fun x y =>
      TileIndex.startTime x.1 ≤ TileIndex.startTime y.1 := by
  by_cases all : info.nonnegativeRootTileIndex = .nonnegativeAll
  · obtain ⟨tile, leaf⟩ := h.wf.shape_all all
    dsimp only at leaf
    subst leaf
    exact List.pairwise_singleton _ _
  · have ordered := h.ordered_of_cut (h.regular all) (d := noLevel) (List.Sublist.refl _)
    rw [← h.prune_noLevel]
    refine ordered.imp_of_mem fun {x y} memX _ le => le_trans ?_ le
    have regX := h.regular_of_cut (h.regular all) memX
    rw [TileIndex.startTime_eq regX.not_null regX.lt_intMax,
      TileIndex.endTime_eq regX.not_null regX.lt_intMax]
    exact x.1.start_lt_stop.le

end Stored

instance (r : Range ℚ) (a : ℚ) : Decidable (r.includes a) := inferInstanceAs (Decidable (_ ∧ _))

/-- The samples that a callback keeps by `Range::includes`. -/
def Samples.included (u : Samples) (times : Range ℚ) : Samples :=
  ⟨u.doubles.filter fun s => times.includes s.time, u.strings.filter fun s => times.includes s.time⟩

theorem Samples.included_append (u v : Samples) (times : Range ℚ) :
    (u ++ v).included times = u.included times ++ v.included times := by
  rw [included, append_doubles, append_strings, List.filter_append, List.filter_append]
  rfl

theorem Samples.included_eq_empty {u : Samples} {times : Range ℚ} :
    u.included times = .empty ↔ ∀ t ∈ u.times, ¬ times.includes t := by
  have parts : u.included times = .empty ↔
      (u.doubles.filter fun s => times.includes s.time) = [] ∧
        (u.strings.filter fun s => times.includes s.time) = [] := by
    rw [included, Samples.empty, Samples.mk.injEq]
  rw [parts, List.filter_eq_nil_iff, List.filter_eq_nil_iff]
  simp only [decide_eq_true_eq, Samples.mem_times]
  constructor
  · rintro ⟨doubles, strings⟩ t (⟨s, mem, rfl⟩ | ⟨s, mem, rfl⟩)
    · exact doubles s mem
    · exact strings s mem
  · intro out
    exact ⟨fun s mem => out _ (.inl ⟨s, mem, rfl⟩), fun s mem => out _ (.inr ⟨s, mem, rfl⟩)⟩

/-- A stretch of the tiles has all that is kept if nothing outside is kept. -/
theorem included_middle {front middle back : List (TileIndex × ExactTile)} {times : Range ℚ}
    (early : ∀ y ∈ front, ∀ t ∈ y.2.samples.times, ¬ times.includes t) :
    (concat middle).included times = (concat (front ++ (middle ++ back))).included times ↔
      ∀ y ∈ back, ∀ t ∈ y.2.samples.times, ¬ times.includes t := by
  have none : (concat front).included times = .empty := by
    rw [Samples.included_eq_empty]
    intro t mem
    obtain ⟨y, memY, here⟩ := mem_times_concat.mp mem
    exact early y memY t here
  have last : (∀ y ∈ back, ∀ t ∈ y.2.samples.times, ¬ times.includes t) ↔
      (concat back).included times = .empty := by
    rw [Samples.included_eq_empty]
    simp only [mem_times_concat, forall_exists_index, and_imp]
    exact ⟨fun out t y mem => out y mem t, fun out y mem t => out t y mem⟩
  rw [last, concat_append, concat_append, Samples.included_append, Samples.included_append, none,
    Samples.empty_append]
  constructor
  · intro same
    have doubles := congrArg Samples.doubles same
    have strings := congrArg Samples.strings same
    rw [Samples.append_doubles, List.self_eq_append_right] at doubles
    rw [Samples.append_strings, List.self_eq_append_right] at strings
    exact Samples.ext doubles strings
  · intro empty
    rw [empty, Samples.append_empty]

def tileSamples (tiles : List ExactTile) : Samples :=
  ⟨tiles.flatMap Tile.doubleSamples, tiles.flatMap Tile.stringSamples⟩

/-- The leaves of the channel, from left to right; none if there is no channel. -/
def ChannelLeaves (kvs : Kvs) (leaves : List ExactTile) : Prop :=
  (∀ info, kvs.metainfo ≠ some (some info)) ∧ leaves = [] ∨
    ∃ info, kvs.metainfo = some (some info) ∧
      Outcome.Reaches (fun fuel => kvs.leafTiles fuel info.nonnegativeRootTileIndex) leaves

/-- The call ends, and what is kept of the tiles it hands over is what is kept of the leaves. -/
def ReadsIncluded (kvs : Kvs) (times : Range ℚ) : Prop :=
  ∃ handed leaves, Outcome.Reaches
      (fun fuel => kvs.readBottommostTilesInRange fuel times fun _ => true) handed ∧
    ChannelLeaves kvs leaves ∧
    (tileSamples (handed.map Prod.snd)).included times = (tileSamples leaves).included times ∧
    ((tileSamples (handed.map Prod.snd)).included times).Ascending

/-- A sample at the very end of the range lies in a leaf that begins before it, and the range is more
than that point. -/
def EndReached (kvs : Kvs) (times : Range ℚ) : Prop :=
  times.min ≤ times.max → ∀ ti tile, kvs.tiles ti = some tile → ¬ kvs.hasTile (TileIndex.leftChild ti) →
    times.max ∈ tile.samples.times → times.min < times.max ∧ TileIndex.startTime ti < times.max

theorem tileSamples_leaves (l : List (TileIndex × ExactTile)) :
    tileSamples (l.map Prod.snd) = concat l := by
  obtain ⟨doubles, strings⟩ := flatMap_leaves l
  rw [tileSamples, doubles, strings]

theorem Samples.Ascending.included {u : Samples} (h : u.Ascending) (times : Range ℚ) :
    (u.included times).Ascending :=
  ⟨h.1.sublist List.filter_sublist, h.2.sublist List.filter_sublist⟩

theorem min_le_of_intersects {r a : Range ℚ} (meets : r.intersects a) : a.min ≤ a.max := by
  by_contra less
  have empty : a.empty := not_le.mp less
  rw [Range.intersects, if_pos empty, ite_self] at meets
  cases meets

namespace Stored

variable {kvs : Kvs} {info : ChannelInfo} {tree : TileTree} {times : Range ℚ}

/-- The statement for a walk that hands over a stretch of the leaves. -/
theorem readsIncluded_of (h : Stored kvs info tree) {front middle back : List (TileIndex × ExactTile)}
    (leaves : tree.leaves info.nonnegativeRootTileIndex = front ++ (middle ++ back))
    (early : ∀ y ∈ front, ∀ t ∈ y.2.samples.times, ¬ times.includes t)
    (reaches : Outcome.Reaches
      (fun fuel => kvs.readBottommostTilesInRange fuel times fun _ => true) middle) :
    ReadsIncluded kvs times ↔ ∀ y ∈ back, ∀ t ∈ y.2.samples.times, ¬ times.includes t := by
  rw [← included_middle early]
  have all : tileSamples ((tree.leaves info.nonnegativeRootTileIndex).map Prod.snd) =
      concat (front ++ (middle ++ back)) := leaves ▸ tileSamples_leaves _
  constructor
  · intro reads
    obtain ⟨handed, tiles, run, channel, same, -⟩ := reads
    cases run.unique reaches
    rcases channel with ⟨none, -⟩ | ⟨info', metainfo, walk⟩
    · exact (none info h.metainfo).elim
    · rw [h.metainfo] at metainfo
      cases metainfo
      cases walk.unique h.leafTiles
      rwa [all, tileSamples_leaves] at same
  · intro same
    refine ⟨middle, _, reaches, .inr ⟨info, h.metainfo, h.leafTiles⟩, ?_, ?_⟩
    · rw [all, tileSamples_leaves, same]
    · have asc := (h.wf.contents_ascending).included times
      rw [contents_eq tree info.nonnegativeRootTileIndex, leaves, ← same] at asc
      rwa [tileSamples_leaves]

/-- What is left over on the right begins at the end of the range or later. -/
theorem late_of_dropWhile (h : Stored kvs info tree) {front back : List (TileIndex × ExactTile)}
    (leaves : tree.leaves info.nonnegativeRootTileIndex = front ++ back) :
    ∀ y ∈ back.dropWhile (fun y => TileIndex.startTime y.1 < times.max),
      times.max ≤ TileIndex.startTime y.1 := by
  have ordered := h.leaves_start
  rw [leaves] at ordered
  have tail := (List.pairwise_append.mp ordered).2.1
  clear ordered leaves
  induction back with
  | nil => simp
  | cons x back ih =>
      by_cases before : TileIndex.startTime x.1 < times.max
      · rw [List.dropWhile_cons_of_pos (by simpa using before)]
        exact ih (List.pairwise_cons.mp tail).2
      · rw [List.dropWhile_cons_of_neg (by simpa using before)]
        intro y mem
        cases mem with
        | head => exact not_lt.mp before
        | tail _ mem => exact (not_lt.mp before).trans ((List.pairwise_cons.mp tail).1 y mem)

theorem not_includes (h : Stored kvs info tree) (apart : ¬ info.times.intersects times)
    {y : TileIndex × ExactTile} (leaf : y ∈ tree.leaves info.nonnegativeRootTileIndex) {t : ℚ}
    (mem : t ∈ y.2.samples.times) : ¬ times.includes t := by
  intro inside
  have held : t ∈ (contents tree).times := by
    rw [contents_eq tree info.nonnegativeRootTileIndex]
    exact mem_times_concat.mpr ⟨y, leaf, mem⟩
  have bounds := h.spanned.bounds t held
  have proper : ¬ info.times.empty := not_lt.mpr (bounds.1.trans bounds.2)
  have proper' : ¬ times.empty := not_lt.mpr (inside.1.trans inside.2)
  apply apart
  rw [Range.intersects, if_neg proper, if_neg proper', if_neg (not_lt.mpr (bounds.1.trans inside.2)),
    if_neg (not_lt.mpr (inside.1.trans bounds.2))]

theorem readsIncluded_iff (h : Stored kvs info tree) (times : Range ℚ) :
    ReadsIncluded kvs times ↔ EndReached kvs times := by
  have read : kvs.readInfo = .ret (some info) := Channel.readInfo_stored h.metainfo h.magic
  have step : ∀ fuel, kvs.readBottommostTilesInRange fuel times (fun _ => true) =
      if ¬ info.times.intersects times then .ret []
      else if times.min < times.max then
        kvs.readBottommostLoop info.nonnegativeRootTileIndex times (fun _ => true) fuel .null []
      else .ret [] := by
    intro fuel
    rw [Kvs.readBottommostTilesInRange, read]
    rfl
  have whole : tree.leaves info.nonnegativeRootTileIndex =
      [] ++ ([] ++ tree.leaves info.nonnegativeRootTileIndex) := rfl
  by_cases meets : info.times.intersects times
  · have le := min_le_of_intersects meets
    by_cases lt : times.min < times.max
    · obtain ⟨front, back, leaves, early, reaches⟩ := h.readBottommostLoop_reaches times
      have run : Outcome.Reaches (fun fuel => kvs.readBottommostTilesInRange fuel times fun _ => true)
          (back.takeWhile fun y => TileIndex.startTime y.1 < times.max) := by
        simp only [step, if_neg (not_not.mpr meets), if_pos lt]
        exact reaches
      have late : ∀ y ∈ back.dropWhile (fun y => TileIndex.startTime y.1 < times.max),
          times.max ≤ TileIndex.startTime y.1 := h.late_of_dropWhile leaves
      have parts := leaves
      rw [← List.takeWhile_append_dropWhile (p := fun y => decide (TileIndex.startTime y.1 < times.max))
        (l := back)] at parts
      rw [h.readsIncluded_of parts (fun y mem t ht inside => absurd (early y mem t ht) (not_lt.mpr inside.1))
        run]
      constructor
      · intro out _ ti tile stored noLeft mem
        refine ⟨lt, ?_⟩
        have leaf := h.mem_leaves_iff.mpr ⟨stored, noLeft⟩
        rw [parts] at leaf
        rcases List.mem_append.mp leaf with inFront | inRest
        · exact absurd (early _ inFront _ mem) lt.not_gt
        · rcases List.mem_append.mp inRest with inMiddle | inBack
          · have early := List.mem_takeWhile_imp inMiddle
            exact of_decide_eq_true early
          · exact absurd ⟨le, le_rfl⟩ (out _ inBack _ mem)
      · intro reached y mem t ht inside
        have leaf : (y.1, y.2) ∈ tree.leaves info.nonnegativeRootTileIndex := by
          rw [parts]
          exact List.mem_append_right _ (List.mem_append_right _ mem)
        have starts := (h.wf.leaves y.1 y.2 leaf).inside t ht
        have same : t = times.max := le_antisymm inside.2 ((late y mem).trans starts.1)
        obtain ⟨stored, noLeft⟩ := h.mem_leaves_iff.mp leaf
        exact absurd (reached le y.1 y.2 stored noLeft (same ▸ ht)).2 (not_lt.mpr (late y mem))
    · have run : Outcome.Reaches
          (fun fuel => kvs.readBottommostTilesInRange fuel times fun _ => true) [] := by
        simp only [step, if_neg (not_not.mpr meets), if_neg lt]
        exact .of_ret fun _ => rfl
      rw [h.readsIncluded_of whole (by simp) run]
      have point : times.min = times.max := le.antisymm (not_lt.mp lt)
      constructor
      · intro out _ ti tile stored noLeft mem
        exact absurd ⟨le, le_rfl⟩ (out _ (h.mem_leaves_iff.mpr ⟨stored, noLeft⟩) _ mem)
      · intro reached y mem t ht inside
        have same : t = times.max := le_antisymm inside.2 (point ▸ inside.1)
        obtain ⟨stored, noLeft⟩ := h.mem_leaves_iff.mp mem
        exact lt (reached le y.1 y.2 stored noLeft (same ▸ ht)).1
  · have run : Outcome.Reaches
        (fun fuel => kvs.readBottommostTilesInRange fuel times fun _ => true) [] := by
      simp only [step, if_pos meets]
      exact .of_ret fun _ => rfl
    rw [h.readsIncluded_of whole (by simp) run]
    refine iff_of_true (fun y leaf t mem => h.not_includes meets leaf mem) ?_
    intro le ti tile stored noLeft mem
    have leaf := h.mem_leaves_iff.mpr ⟨stored, noLeft⟩
    exact absurd ⟨le, le_rfl⟩ (h.not_includes meets leaf mem)

end Stored

/-- In every state that runs of `add_data` leave. -/
theorem reads_included_iff {ch : Channel} {bs : List Batch} {kvs : Kvs} (run : Runs ch bs kvs)
    (times : Range ℚ) : ReadsIncluded kvs times ↔ EndReached kvs times := by
  rcases run.usual with absent | ⟨info, tree, stored⟩
  · subst absent
    have none : ChannelLeaves .absent [] := .inl ⟨fun info has => (by cases has), rfl⟩
    refine iff_of_true ⟨[], [], .of_ret fun _ => rfl, none, rfl, .nil, .nil⟩ ?_
    intro _ ti tile has
    cases has
  · exact stored.readsIncluded_iff times

/-- Up to the middle between a sample and the end of the root. -/
theorem reads_included_iff_pair : ∃ kvs, Runs .narrow [.pair] kvs ∧ ReadsIncluded kvs ⟨1, 3⟩ := by
  obtain ⟨kvs, info, tree, run, stored, same, -⟩ := Runs.narrow_pair
  refine ⟨kvs, run, (reads_included_iff run _).mpr fun _ ti tile at_ti noLeft mem => ?_⟩
  have held : (3 : ℚ) ∈ (contents tree).times := by
    rw [contents_eq tree info.nonnegativeRootTileIndex]
    exact mem_times_concat.mpr ⟨_, stored.mem_leaves_iff.mpr ⟨at_ti, noLeft⟩, mem⟩
  rw [same] at held
  rcases Batch.mem_times_pair.mp held with one | two
  · exact absurd one (by norm_num)
  · exact absurd two (by norm_num)

/-- The second sample is at 2, where its leaf begins. -/
theorem boundary_sample_missed : ∃ kvs, Runs .narrow [.pair] kvs ∧ ¬ ReadsIncluded kvs ⟨1, 2⟩ ∧
    ¬ ReadsIncluded kvs ⟨2, 2⟩ := by
  obtain ⟨kvs, info, tree, run, stored, same, root⟩ := Runs.narrow_pair
  have held : (2 : ℚ) ∈ (contents tree).times := by
    rw [same]
    exact Batch.mem_times_pair.mpr (.inr rfl)
  rw [contents_eq tree info.nonnegativeRootTileIndex] at held
  obtain ⟨y, leaf, mem⟩ := mem_times_concat.mp held
  obtain ⟨at_y, noLeft⟩ := stored.mem_leaves_iff.mp leaf
  refine ⟨kvs, run, fun reads => ?_, fun reads => ?_⟩
  · have early := ((stored.readsIncluded_iff _).mp reads (by norm_num) y.1 y.2 at_y noLeft mem).2
    have ne : info.nonnegativeRootTileIndex ≠ .nonnegativeAll := by
      rw [root]
      decide
    have regular := stored.regular ne
    have regY := stored.wf.regular_of_sub regular (CellTree.mem_leaves.mp leaf)
    have has := stored.wf.leaves_has regular y.1 y.2 leaf 2 mem
    rw [TileIndex.startTime_eq regY.not_null regY.lt_intMax] at early
    rcases (CellTree.under_of_sub (CellTree.mem_leaves.mp leaf)).cases with top | lo | hi
    · rw [top] at noLeft
      exact (noLeft (stored.hasLeft ne)).elim
    · have ends := has.2.trans_le lo.stop_le
      rw [root] at ends
      exact absurd ends (by decide +kernel)
    · have starts := hi.start_le.trans_lt early
      rw [root] at starts
      exact absurd starts (by decide +kernel)
  · exact absurd ((stored.readsIncluded_iff _).mp reads le_rfl y.1 y.2 at_y noLeft mem).1 (lt_irrefl _)

end Mio.Datastore
