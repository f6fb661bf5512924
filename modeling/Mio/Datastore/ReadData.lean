import Mio.Datastore.Accepts

/-! `read_data`: the descent clamps to the first and the last leaf, so the loop ends exactly if it is
not asked for anything beyond the root. -/
namespace Mio.Datastore

namespace Kvs

theorem wanted_eq {begin_ end_ : ℚ} {tile : ExactTile} (asc : Ascending DataSample.time tile.doubleSamples) :
    wanted begin_ end_ tile = tile.doubleSamples.filter fun s => begin_ ≤ s.time ∧ s.time < end_ :=
  asc.slice begin_ end_

theorem wanted_nil {begin_ end_ : ℚ} {l : List (TileIndex × ExactTile)}
    (asc : ∀ x ∈ l, Ascending DataSample.time x.2.doubleSamples)
    (out : ∀ x ∈ l, ∀ s ∈ x.2.doubleSamples, s.time < begin_ ∨ end_ ≤ s.time) :
    l.flatMap (fun x => wanted begin_ end_ x.2) = [] := by
  apply List.flatMap_eq_nil_iff.mpr
  intro x hx
  rw [wanted_eq (asc x hx), List.filter_eq_nil_iff]
  intro s hs both
  have both := of_decide_eq_true both
  exact (out x hx s hs).elim (not_lt.mpr both.1) (not_le.mpr both.2)

section
variable {kvs : Kvs} {root : TileIndex} {begin_ end_ time : ℚ} {data : List (Sample ℚ)}

theorem readDataLoop_turn {ti : TileIndex} {tile : ExactTile} {all : List (Sample ℚ)} (lt : time < end_)
    (found : Outcome.Reaches (fun fuel => kvs.findLowestChildOverlappingTime fuel root time) ti)
    (proper : ¬ ti.isNull) (stored : kvs.tiles ti = some tile)
    (rest : Outcome.Reaches (fun fuel => kvs.readDataLoop root begin_ end_ fuel ti.endTime
      (data ++ wanted begin_ end_ tile)) all) :
    Outcome.Reaches (fun fuel => kvs.readDataLoop root begin_ end_ fuel time data) all := by
  refine .step (fun fuel => ?_) (.bind found ?_) (y := fun fuel => do
    let ti ← kvs.findLowestChildOverlappingTime fuel root time
    if ti.isNull then return data
    else do
      let tile ← kvs.readTile ti
      kvs.readDataLoop root begin_ end_ fuel ti.endTime (data ++ wanted begin_ end_ tile))
  · rw [readDataLoop_succ, if_pos lt]
  · simp only [if_neg proper]
    exact .bind (.of_ret fun _ => readTile_of_some stored) rest

theorem readDataLoop_end (ge : end_ ≤ time) :
    Outcome.Reaches (fun fuel => kvs.readDataLoop root begin_ end_ fuel time data) data := by
  refine .step (y := fun _ => .ret data) (fun fuel => ?_) (.of_ret fun _ => rfl)
  rw [readDataLoop_succ, if_neg (not_lt.mpr ge)]
  rfl

end

end Kvs

namespace Stored

variable {kvs : Kvs} {info : ChannelInfo} {tree : TileTree}

/-- The search ends in a leaf, and no leaf reaches beyond the root. -/
theorem findLowest (h : Stored kvs info tree) (t : ℚ) :
    Outcome.Reaches (fun fuel => kvs.findLowestChildOverlappingTime fuel info.nonnegativeRootTileIndex t)
      (tree.reach info.nonnegativeRootTileIndex t).1 :=
  Kvs.findLowest_reaches h.wf h.holds t

theorem reach_not_null (h : Stored kvs info tree) (t : ℚ) :
    ¬ TileIndex.isNull (tree.reach info.nonnegativeRootTileIndex t).1 := by
  rcases h.wf.shape with ⟨all, tile, leaf⟩ | ⟨regular, -⟩
  · dsimp only at all leaf
    rw [leaf, all]
    exact (by decide : ¬ TileIndex.isNull .nonnegativeAll)
  · exact (h.wf.regular_of_sub regular (CellTree.reach_sub _ _ t)).not_null

theorem reach_stored (h : Stored kvs info tree) (t : ℚ) :
    kvs.tiles (tree.reach info.nonnegativeRootTileIndex t).1 =
      some (tree.reach info.nonnegativeRootTileIndex t).2 :=
  h.tiles_of_sub (CellTree.reach_sub _ _ t)

theorem reach_end (h : Stored kvs info tree) (t : ℚ) :
    TileIndex.endTime (tree.reach info.nonnegativeRootTileIndex t).1 ≤
      info.nonnegativeRootTileIndex.endTime := by
  rcases h.wf.shape with ⟨all, tile, leaf⟩ | ⟨regular, -⟩
  · dsimp only at leaf
    rw [leaf]
    exact le_rfl
  · have reg := h.wf.regular_of_sub regular (CellTree.reach_sub _ _ t)
    dsimp only at regular
    rw [TileIndex.endTime_eq reg.not_null reg.lt_intMax,
      TileIndex.endTime_eq regular.not_null regular.lt_intMax]
    exact ((CellTree.leaves_tiled tree _).mem_bounds _ (CellTree.reach_mem tree _ t)).2

theorem leaves_sorted (h : Stored kvs info tree) :
    ∀ x ∈ tree.leaves info.nonnegativeRootTileIndex, Ascending DataSample.time x.2.doubleSamples :=
  fun x hx => (h.wf.leaves x.1 x.2 hx).ascending.1

/-- Beyond the root the loop goes round for ever. -/
theorem readDataLoop_stuck (h : Stored kvs info tree) {begin_ end_ : ℚ}
    (beyond : info.nonnegativeRootTileIndex.endTime < end_) (fuel : ℕ) {time : ℚ} (lt : time < end_)
    (data all : List (Sample ℚ)) :
    kvs.readDataLoop info.nonnegativeRootTileIndex begin_ end_ fuel time data ≠ .ret all := by
  induction fuel generalizing time data with
  | zero => exact fun ret => by cases ret
  | succ fuel ih =>
      intro ret
      rw [Kvs.readDataLoop_succ, if_pos lt] at ret
      obtain ⟨ti, found, ret⟩ := Outcome.bind_eq_ret.mp ret
      obtain rfl := Kvs.findLowest_ret h.wf h.holds found
      dsimp only at ret
      rw [if_neg (h.reach_not_null time)] at ret
      obtain ⟨tile, -, ret⟩ := Outcome.bind_eq_ret.mp ret
      exact ih ((h.reach_end time).trans_lt beyond) _ ret

/-- From a leaf boundary on, the loop collects what the leaves to the right contribute. -/
theorem readDataLoop_from (h : Stored kvs info tree) (regular : Regular info.nonnegativeRootTileIndex)
    {begin_ end_ : ℚ} (within : end_ ≤ Cell.stop info.nonnegativeRootTileIndex)
    {front back : List (TileIndex × ExactTile)}
    (leaves : tree.leaves info.nonnegativeRootTileIndex = front ++ back) {time : ℚ}
    (tiled : CellTree.Tiled back time (Cell.stop info.nonnegativeRootTileIndex)) (data : List (Sample ℚ)) :
    Outcome.Reaches
      (fun fuel => kvs.readDataLoop info.nonnegativeRootTileIndex begin_ end_ fuel time data)
      (data ++ back.flatMap fun x => Kvs.wanted begin_ end_ x.2) := by
  induction back generalizing front time data with
  | nil =>
      rw [List.flatMap_nil, List.append_nil]
      exact Kvs.readDataLoop_end (within.trans_eq (show time = _ from tiled).symm)
  | cons x back ih =>
      have mem : ∀ y ∈ x :: back, y ∈ tree.leaves info.nonnegativeRootTileIndex := by
        intro y hy
        rw [leaves]
        exact List.mem_append_right _ hy
      rcases lt_or_ge time end_ with lt | ge
      · have has : x.1.Has time := ⟨tiled.1.le, tiled.1 ▸ x.1.start_lt_stop⟩
        have reach := CellTree.reach_of_has (mem x List.mem_cons_self) has
        have sub := CellTree.mem_leaves.mp (mem x List.mem_cons_self)
        have reg : Regular x.1 := h.wf.regular_of_sub regular sub
        have found := h.findLowest time
        rw [reach] at found
        refine Kvs.readDataLoop_turn lt found reg.not_null (h.tiles_of_sub sub) ?_
        rw [TileIndex.endTime_eq reg.not_null reg.lt_intMax]
        have rest : tree.leaves info.nonnegativeRootTileIndex = (front ++ [x]) ++ back := by
          simpa using leaves
        have next := ih rest tiled.2 (data ++ Kvs.wanted begin_ end_ x.2)
        rwa [List.append_assoc] at next
      · have late : (x :: back).flatMap (fun y => Kvs.wanted begin_ end_ y.2) = [] := by
          refine Kvs.wanted_nil (fun y hy => h.leaves_sorted y (mem y hy)) fun y hy s hs => .inr ?_
          have bound := (tiled.mem_bounds y hy).1
          have inside := h.wf.leaves_has regular y.1 y.2 (mem y hy) s.time
            (Samples.mem_times.mpr (.inl ⟨s, hs, rfl⟩))
          exact ge.trans (bound.trans inside.1)
        rw [late, List.append_nil]
        exact Kvs.readDataLoop_end ge

/-- The whole loop. Whatever lies in front of the first leaf it reads lies before `begin_`. -/
theorem readDataLoop_all (h : Stored kvs info tree) {begin_ end_ : ℚ} (lt : begin_ < end_)
    (within : end_ ≤ info.nonnegativeRootTileIndex.endTime) :
    Outcome.Reaches
      (fun fuel => kvs.readDataLoop info.nonnegativeRootTileIndex begin_ end_ fuel begin_ [])
      ((contents tree).doubles.filter fun s => begin_ ≤ s.time ∧ s.time < end_) := by
  have collected : (contents tree).doubles.filter (fun s => begin_ ≤ s.time ∧ s.time < end_) =
      (tree.leaves info.nonnegativeRootTileIndex).flatMap fun x => Kvs.wanted begin_ end_ x.2 := by
    rw [contents_eq tree info.nonnegativeRootTileIndex, ← (flatMap_leaves _).1, List.filter_flatMap,
      List.flatMap_map]
    refine List.flatMap_congr fun x hx => ?_
    exact (Kvs.wanted_eq (h.leaves_sorted x hx)).symm
  rw [collected]
  rcases h.wf.shape with ⟨all, tile, leaf⟩ | ⟨regular, -⟩
  · dsimp only at leaf
    subst leaf
    refine Kvs.readDataLoop_turn lt (h.findLowest begin_) (h.reach_not_null begin_)
      (h.reach_stored begin_) ?_
    simpa [CellTree.leaves, CellTree.reach] using Kvs.readDataLoop_end within
  · dsimp only at regular
    rw [TileIndex.endTime_eq regular.not_null regular.lt_intMax] at within
    have mem := CellTree.reach_mem tree info.nonnegativeRootTileIndex begin_
    have sub := CellTree.reach_sub tree info.nonnegativeRootTileIndex begin_
    have reg := h.wf.regular_of_sub regular sub
    have tiled := CellTree.leaves_tiled tree info.nonnegativeRootTileIndex
    have first : begin_ < Cell.start (tree.reach info.nonnegativeRootTileIndex begin_).1 →
        Cell.start (tree.reach info.nonnegativeRootTileIndex begin_).1 ≤
          Cell.start info.nonnegativeRootTileIndex := by
      intro early
      by_contra inner
      have has : Cell.Has info.nonnegativeRootTileIndex begin_ := by
        refine ⟨?_, lt.trans_le within⟩
        by_contra low
        have clamp := CellTree.reach_low (t := tree) (not_le.mp low)
        rw [clamp] at inner
        exact inner (CellTree.reach_has ⟨le_rfl, Cell.start_lt_stop _⟩).1
      exact absurd (CellTree.reach_has has).1 (not_le.mpr early)
    have found := h.findLowest begin_
    have stored := h.reach_stored begin_
    generalize tree.reach info.nonnegativeRootTileIndex begin_ = x at mem sub reg first found stored
    obtain ⟨front, back, leaves⟩ := List.append_of_mem mem
    rw [leaves] at tiled
    obtain ⟨m, tiledFront, tiledBack⟩ := tiled.split
    have skipped : front.flatMap (fun y => Kvs.wanted begin_ end_ y.2) = [] := by
      have part : ∀ y ∈ front, y ∈ tree.leaves info.nonnegativeRootTileIndex := by
        intro y hy
        rw [leaves]
        exact List.mem_append_left _ hy
      refine Kvs.wanted_nil (fun y hy => h.leaves_sorted y (part y hy)) fun y hy s hs => .inl ?_
      have bound := tiledFront.mem_bounds y hy
      have inside := h.wf.leaves_has regular y.1 y.2 (part y hy) s.time
        (Samples.mem_times.mpr (.inl ⟨s, hs, rfl⟩))
      have before : s.time < Cell.start x.1 := inside.2.trans_le (bound.2.trans_eq tiledBack.1.symm)
      by_contra late
      have low := first ((not_lt.mp late).trans_lt before)
      exact absurd (bound.1.trans inside.1) (not_le.mpr (before.trans_le low))
    have rest : tree.leaves info.nonnegativeRootTileIndex = (front ++ [x]) ++ back := by
      simpa using leaves
    refine Kvs.readDataLoop_turn lt found reg.not_null stored ?_
    rw [TileIndex.endTime_eq reg.not_null reg.lt_intMax, leaves, List.flatMap_append, skipped]
    exact h.readDataLoop_from regular within rest tiledBack.2 _

end Stored

/-- `read_data` returns, and what it returns is in order: the samples of the leaves, each as often as
it is stored, cut down to the range. -/
def ReadsBetween (kvs : Kvs) (begin_ end_ : ℚ) : Prop :=
  ∃ data kvs', Exec.Reaches (fun fuel => Channel.readData fuel begin_ end_) kvs data kvs' ∧
    kvs'.tiles = kvs.tiles ∧ Ascending DataSample.time data ∧
    ((kvs.metainfo = none ∧ data = []) ∨ ∃ info leaves, kvs.metainfo = some (some info) ∧
      Outcome.Reaches (fun fuel => kvs.leafTiles fuel info.nonnegativeRootTileIndex) leaves ∧
      data = (leaves.flatMap Tile.doubleSamples).filter fun s => begin_ ≤ s.time ∧ s.time < end_)

namespace Stored

variable {kvs : Kvs} {info : ChannelInfo} {tree : TileTree}

theorem readData_run (h : Stored kvs info tree) (fuel : ℕ) (begin_ end_ : ℚ) :
    Channel.readData fuel begin_ end_ kvs =
      (kvs.readDataLoop info.nonnegativeRootTileIndex begin_ end_ fuel begin_ []).bind
        fun data => .ret (data, kvs) := by
  have locked : Channel.lock kvs = .ret ((), kvs) := by
    rw [Channel.lock_run, h.locked]
  have read : Exec.read Kvs.readInfo kvs = .ret (some info, kvs) :=
    Exec.read_of_ret (Channel.readInfo_stored h.metainfo h.magic)
  rw [Channel.readData, Exec.bind_of_ret locked, Exec.bind_of_ret read]
  rfl

theorem readsBetween (h : Stored kvs info tree) {begin_ end_ : ℚ} (lt : begin_ < end_)
    (within : end_ ≤ info.nonnegativeRootTileIndex.endTime) : ReadsBetween kvs begin_ end_ := by
  have loop := h.readDataLoop_all lt within
  have ordered := h.wf.contents_ascending.1.sublist
    (List.filter_sublist (p := fun s : Sample ℚ => begin_ ≤ s.time ∧ s.time < end_))
  refine ⟨_, kvs, ?_, rfl, ordered, .inr ⟨info, _, h.metainfo, h.leafTiles, ?_⟩⟩
  · obtain ⟨n, done⟩ := loop
    refine ⟨n, fun fuel enough => ?_⟩
    exact (h.readData_run fuel begin_ end_).trans (congrArg (Outcome.bind · _) (done fuel enough))
  · rw [(flatMap_leaves _).1, ← contents_eq tree info.nonnegativeRootTileIndex]

theorem readData_stuck (h : Stored kvs info tree) {begin_ end_ : ℚ} (lt : begin_ < end_)
    (beyond : info.nonnegativeRootTileIndex.endTime < end_) : ¬ ReadsBetween kvs begin_ end_ := by
  rintro ⟨data, kvs', reaches, -⟩
  obtain ⟨fuel, ret⟩ := Outcome.Reaches.returns reaches
  have run := h.readData_run fuel begin_ end_
  obtain ⟨all, loop, -⟩ := Outcome.bind_eq_ret.mp (run.symm.trans ret)
  exact h.readDataLoop_stuck beyond fuel lt [] all loop

end Stored

namespace Runs

variable {ch : Channel} {bs : List Batch} {kvs : Kvs}

/-- `read_data` does its work exactly if it is asked for nothing beyond the end of the root. -/
theorem reads_between_iff (run : Runs ch bs kvs) {begin_ end_ : ℚ} (lt : begin_ < end_) :
    ReadsBetween kvs begin_ end_ ↔
      ∀ info, kvs.metainfo = some (some info) → end_ ≤ info.nonnegativeRootTileIndex.endTime := by
  rcases run.usual with rfl | ⟨info, tree, stored⟩
  · refine ⟨fun _ info has => (by cases has), fun _ => ?_⟩
    exact ⟨[], ⟨some none, fun _ => none⟩, .of_ret fun _ => rfl, rfl, .nil, .inl ⟨rfl, rfl⟩⟩
  · constructor
    · intro reads info' has
      rw [stored.metainfo] at has
      cases has
      by_contra beyond
      exact stored.readData_stuck lt (not_le.mp beyond) reads
    · intro within
      exact stored.readsBetween lt (within info stored.metainfo)

/-- Between the two samples of a run, and up to the root's end. -/
theorem reads_between_iff_pair : ∃ kvs, Runs .narrow [.pair] kvs ∧ ReadsBetween kvs 2 4 := by
  obtain ⟨kvs, info, tree, run, stored, -, root⟩ := narrow_pair
  refine ⟨kvs, run, (reads_between_iff run (by norm_num)).mpr fun info' has => ?_⟩
  rw [stored.metainfo] at has
  cases has
  rw [root]
  decide +kernel

/-- The same two samples; the root ends at 4. -/
theorem reads_beyond_root : ∃ kvs, Runs .narrow [.pair] kvs ∧ ¬ ReadsBetween kvs 1 5 := by
  obtain ⟨kvs, info, tree, run, stored, -, root⟩ := narrow_pair
  refine ⟨kvs, run, stored.readData_stuck (by norm_num) ?_⟩
  rw [root]
  decide +kernel

end Runs
end Mio.Datastore
