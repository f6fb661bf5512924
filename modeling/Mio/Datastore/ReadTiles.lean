import Mio.Datastore.ReadData

/-! `read_tiles_in_range`: the tiles it visits are the leaves of the tree cut off at the desired
level. Only a root that is itself low enough has a neighbour the walk can stray to. -/
namespace Mio.Datastore

namespace Kvs

section Climb
variable {ε : Type} {root x j : TileIndex}

theorem climb_turn (regular : Regular x) (fuel : ℕ) :
    climbToLeftChild (ε := ε) root (fuel + 1) x =
      if Cell.stop x.up ≠ Cell.stop x then .ret x
      else if root.level ≤ x.up.level then .ret .null
      else climbToLeftChild (ε := ε) root fuel x.up := by
  have high : x.up.level < TileIndex.intMax := by
    have top := regular.2
    simp only [Cell.up, TileIndex.intMax, TileIndex.topLevel] at top ⊢
    omega
  have low : ¬ TileIndex.isNull x.up := by
    apply TileIndex.not_isNull_of_level
    have bottom := regular.1
    simp only [Cell.up, TileIndex.intMin]
    omega
  rw [climbToLeftChild, TileIndex.parent_eq regular.lt_intMax, if_neg low, TileIndex.endTime_eq low high,
    TileIndex.endTime_eq regular.not_null regular.lt_intMax]

theorem climb_left {i : TileIndex} (regular : Regular i.lo) :
    Outcome.Reaches (fun fuel => climbToLeftChild (ε := ε) root fuel i.lo) i.lo := by
  refine .step (y := fun _ => .ret i.lo) (fun fuel => ?_) (.of_ret fun _ => rfl)
  have ends : Cell.stop i.lo.up ≠ Cell.stop i.lo := by
    rw [Cell.up_lo, Cell.lo_stop]
    exact i.mid_lt_stop.ne'
  rw [climb_turn regular, if_pos ends]

/-- Along a common end the climb goes up. -/
theorem climb_same_stop {r : TileIndex} (under : x.Under j) (low : Regular x) (high : Regular j)
    (ends : Cell.stop x = Cell.stop j) (below : j.level < root.level)
    (h : Outcome.Reaches (fun fuel => climbToLeftChild (ε := ε) root fuel j) r) :
    Outcome.Reaches (fun fuel => climbToLeftChild (ε := ε) root fuel x) r := by
  obtain ⟨k, eq⟩ := under
  induction k generalizing x with
  | zero =>
      obtain rfl : x = j := eq
      exact h
  | succ k ih =>
      have next : x.up.Under j := ⟨k, eq⟩
      have same : Cell.stop x.up = Cell.stop j := le_antisymm next.stop_le (ends.symm.le.trans x.stop_le_up)
      have level := next.level_le
      have regular : Regular x.up := ⟨low.1.trans (Cell.Under.up x).level_le, level.trans high.2⟩
      refine .step (y := fun fuel => climbToLeftChild (ε := ε) root fuel x.up) (fun fuel => ?_)
        (ih regular same eq)
      rw [climb_turn low, if_neg (not_not.mpr (same.trans ends.symm)), if_neg (by omega)]

theorem climb_last (top : Regular root) (low : Regular x) (under : x.Under root) (ne : x ≠ root)
    (ends : Cell.stop x = Cell.stop root) :
    Outcome.Reaches (fun fuel => climbToLeftChild (ε := ε) root fuel x) .null := by
  rcases under.cases with eq | lo | hi
  · exact (ne eq).elim
  · have early := lo.stop_le
    rw [ends, Cell.lo_stop] at early
    exact absurd early (not_le.mpr root.mid_lt_stop)
  · have level : root.hi.level < root.level := sub_one_lt _
    have regular : Regular root.hi := ⟨low.1.trans hi.level_le, level.le.trans top.2⟩
    refine climb_same_stop hi low regular (ends.trans root.hi_stop.symm) level ?_
    refine .step (y := fun _ => .ret .null) (fun fuel => ?_) (.of_ret fun _ => rfl)
    have same : Cell.stop root.hi.up = Cell.stop root.hi := by rw [Cell.up_hi, Cell.hi_stop]
    have out : root.level ≤ root.hi.up.level := by rw [Cell.up_hi]
    rw [climb_turn regular, if_neg (not_not.mpr same), if_pos out]

end Climb

theorem descendToLevel_stop {kvs : Kvs} {i : TileIndex} {d : ℤ} (low : i.level ≤ d) (t : ℚ) :
    Outcome.Reaches (fun fuel => kvs.descendToLevel t d fuel i) i := by
  refine .step (y := fun _ => .ret i) (fun fuel => ?_) (.of_ret fun _ => rfl)
  rw [descendToLevel_succ, if_neg (not_lt.mpr low)]

/-- The descent is a search in the tree cut off at the desired level. -/
theorem descendToLevel_reaches {kvs : Kvs} {s : TileTree} {i : TileIndex} {d : ℤ} (regular : Regular i)
    (deep : s.EachNode (fun i _ _ _ => -1074 < i.level) i) (holds : kvs.Holds s i) (t : ℚ) :
    Outcome.Reaches (fun fuel => kvs.descendToLevel t d fuel i) ((s.prune d i).reach i t).1 := by
  induction s generalizing i with
  | leaf a =>
      refine .step (y := fun _ => .ret i) (fun fuel => ?_) (.of_ret fun _ => rfl)
      rw [descendToLevel_succ]
      simp only [if_pos (stop_at_leaf regular holds t), ite_self]
  | node a l r ihl ihr =>
      by_cases above : d < i.level
      · obtain ⟨here, deepL, deepR⟩ := CellTree.eachNode_node.mp deep
        refine .step (y := fun fuel => kvs.descendToLevel t d fuel (childTowards i t))
          (fun fuel => ?_) ?_
        · rw [descendToLevel_succ, if_pos above]
          exact if_neg (go_on_at_node regular holds t)
        · rw [childTowards_eq regular, CellTree.prune, if_pos above, CellTree.reach]
          split
          · exact ihl (regular.lo here) deepL holds.lo
          · exact ihr (regular.hi here) deepR holds.hi
      · rw [CellTree.prune, if_neg above]
        exact descendToLevel_stop (not_lt.mp above) t

section Turn
variable {kvs : Kvs} {root ti next : TileIndex} {times : Range ℚ} {d : ℤ}
  {callback : List (TileIndex × ExactTile) → Bool} {handed all : List (TileIndex × ExactTile)}

theorem readTilesLoop_end (found : Outcome.Reaches (fun fuel => kvs.nextTile root times d fuel ti) next)
    (done : next.isNull ∨ next.startTime ≥ times.max) :
    Outcome.Reaches (fun fuel => kvs.readTilesLoop root times d callback fuel ti handed) handed := by
  refine .step (fun fuel => readTilesLoop_succ _ fuel _ _ _ _ _ _) (.bind found ?_)
  simp only [if_pos done]
  exact .pure handed

theorem readTilesLoop_take {tile : ExactTile}
    (found : Outcome.Reaches (fun fuel => kvs.nextTile root times d fuel ti) next)
    (going : ¬ (next.isNull ∨ next.startTime ≥ times.max)) (stored : kvs.tiles next = some tile)
    (rest : Outcome.Reaches (fun fuel => if callback (handed ++ [(next, tile)])
      then kvs.readTilesLoop root times d callback fuel next (handed ++ [(next, tile)])
      else return handed ++ [(next, tile)]) all) :
    Outcome.Reaches (fun fuel => kvs.readTilesLoop root times d callback fuel ti handed) all := by
  refine .step (fun fuel => readTilesLoop_succ _ fuel _ _ _ _ _ _) (.bind found ?_)
  simp only [if_neg going]
  exact .bind (.of_ret fun _ => readTile_of_some stored) rest

/-- After a root that is itself the only tile of the walk comes its right neighbour, if it is a left
child, and nothing otherwise. -/
theorem nextTile_root (regular : Regular root) (low : root.level ≤ d) :
    Outcome.Reaches (fun fuel => kvs.nextTile root times d fuel root)
      (if root.offset % 2 = 0 then root.twin else .null) := by
  have step : ∀ fuel, kvs.nextTile root times d fuel root = kvs.findSuccessiveTile fuel root root d :=
    fun fuel => if_neg regular.not_null
  simp only [step]
  by_cases even : root.offset % 2 = 0
  · have left := Cell.lo_up even
    have climb : Outcome.Reaches (fun fuel => climbToLeftChild (ε := Failure) root fuel root.up.lo) root.up.lo :=
      climb_left (left.symm ▸ regular)
    rw [left] at climb
    have twin : ¬ TileIndex.isNull root.twin :=
      TileIndex.not_isNull_of_level (lt_of_lt_of_le (by decide) regular.1 : TileIndex.intMin < root.level)
    rw [if_pos even]
    refine .bind climb ?_
    simp only [if_neg regular.not_null, TileIndex.sibling_eq, findChild_eq]
    refine .bind (.of_ret fun _ => Outcome.assert_of twin _) ?_
    exact descendToLevel_stop (i := root.twin) low _
  · have same : Cell.stop root.up = Cell.stop root := by
      conv_rhs => rw [← Cell.hi_up even]
      rw [Cell.hi_stop]
    have climb : Outcome.Reaches (fun fuel => climbToLeftChild (ε := Failure) root fuel root) .null := by
      refine .step (y := fun _ => .ret .null) (fun fuel => ?_) (.of_ret fun _ => rfl)
      rw [climb_turn regular, if_neg (not_not.mpr same), if_pos (Cell.Under.up root).level_le]
    rw [if_neg even]
    refine .bind climb ?_
    simp only [if_pos (by decide : TileIndex.isNull .null)]
    exact .pure _

theorem nextTile_first_low (proper : ¬ root.isNull) (low : root.level ≤ d) :
    Outcome.Reaches (fun fuel => kvs.nextTile root times d fuel .null) root := by
  have step : ∀ fuel, kvs.nextTile root times d fuel .null =
      kvs.findChildOverlappingTime fuel root times.min d := fun fuel => if_pos (by decide)
  simp only [step, findChild_eq]
  exact .bind (.of_ret fun _ => Outcome.assert_of proper _) (descendToLevel_stop low _)

theorem nextTile_all :
    Outcome.Reaches (fun fuel => kvs.nextTile .nonnegativeAll times d fuel .null) .nonnegativeAll ∧
      Outcome.Reaches (fun fuel => kvs.nextTile .nonnegativeAll times d fuel .nonnegativeAll)
        .null := by
  have proper : ¬ TileIndex.isNull .nonnegativeAll := by decide
  constructor
  · have step : ∀ fuel, kvs.nextTile .nonnegativeAll times d fuel .null =
        kvs.findChildOverlappingTime fuel .nonnegativeAll times.min d := fun fuel => if_pos (by decide)
    simp only [step, findChild_eq]
    refine .bind (.of_ret fun _ => Outcome.assert_of proper _) ?_
    refine .step (y := fun _ => .ret .nonnegativeAll) (fun fuel => ?_) (.of_ret fun _ => rfl)
    rw [descendToLevel_succ]
    simp only [if_pos (Or.inl (childTowards_all times.min)), ite_self]
  · have step : ∀ fuel, kvs.nextTile .nonnegativeAll times d fuel .nonnegativeAll =
        kvs.findSuccessiveTile fuel .nonnegativeAll .nonnegativeAll d := fun fuel => if_neg proper
    have climb : Outcome.Reaches
        (fun fuel => climbToLeftChild (ε := Failure) .nonnegativeAll fuel .nonnegativeAll) .null := by
      refine .step (y := fun _ => .ret .null) (fun fuel => ?_) (.of_ret fun _ => rfl)
      rw [climbToLeftChild, if_pos (by decide)]
    simp only [step]
    refine .bind climb ?_
    simp only [if_pos (by decide : TileIndex.isNull .null)]
    exact .pure _

theorem readTilesLoop_alone {after : TileIndex} {tile : ExactTile}
    (found : Outcome.Reaches (fun fuel => kvs.nextTile root times d fuel .null) next)
    (stored : kvs.tiles next = some tile)
    (followed : Outcome.Reaches (fun fuel => kvs.nextTile root times d fuel next) after)
    (finished : after.isNull ∨ after.startTime ≥ times.max) :
    ∃ handed : List (TileIndex × ExactTile),
      (handed.Pairwise fun x y => TileIndex.endTime x.1 ≤ TileIndex.startTime y.1) ∧
        Outcome.Reaches (fun fuel => kvs.readTilesLoop root times d callback fuel .null []) handed := by
  by_cases done : next.isNull ∨ next.startTime ≥ times.max
  · exact ⟨[], .nil, readTilesLoop_end found done⟩
  · refine ⟨[(next, tile)], List.pairwise_singleton _ _, readTilesLoop_take found done stored ?_⟩
    cases go : callback ([] ++ [(next, tile)]) with
    | false =>
        simp only [Bool.false_eq_true, if_false]
        exact .pure _
    | true =>
        simp only [if_true]
        exact readTilesLoop_end followed finished

end Turn

end Kvs

/-- What keeps the walk inside the tree, once there is something to visit. -/
def Walkable (info : ChannelInfo) (times : Range ℚ) (d : ℤ) : Prop :=
  info.nonnegativeRootTileIndex ≠ .nonnegativeAll →
    info.nonnegativeRootTileIndex.offset % 2 = 0 → info.nonnegativeRootTileIndex.level ≤ d →
      times.max ≤ info.nonnegativeRootTileIndex.endTime

namespace Stored

variable {kvs : Kvs} {info : ChannelInfo} {tree : TileTree} {d : ℤ}

theorem tiles_of_cut (h : Stored kvs info tree) {x : TileIndex × ExactTile}
    (mem : x ∈ (tree.prune d info.nonnegativeRootTileIndex).leaves info.nonnegativeRootTileIndex) :
    kvs.tiles x.1 = some x.2 ∧ ∃ s, tree.sub info.nonnegativeRootTileIndex x.1 = some s := by
  obtain ⟨s, sub, cut⟩ := CellTree.sub_prune (CellTree.mem_leaves.mp mem)
  have label := CellTree.label_prune d s x.1
  rw [cut] at label
  refine ⟨?_, s, sub⟩
  rw [h.tiles_of_sub sub, ← label]
  rfl

section
variable (h : Stored kvs info tree) (regular : Regular info.nonnegativeRootTileIndex)
include h regular

theorem regular_of_cut {x : TileIndex × ExactTile}
    (mem : x ∈ (tree.prune d info.nonnegativeRootTileIndex).leaves info.nonnegativeRootTileIndex) :
    Regular x.1 := by
  obtain ⟨-, s, sub⟩ := h.tiles_of_cut mem
  exact h.wf.regular_of_sub regular sub

/-- From a tile of the walk to the one to its right. -/
theorem findSuccessive_next {front back : List (TileIndex × ExactTile)} {x y : TileIndex × ExactTile}
    (leaves : (tree.prune d info.nonnegativeRootTileIndex).leaves info.nonnegativeRootTileIndex =
      front ++ x :: y :: back) :
    Outcome.Reaches (fun fuel => kvs.findSuccessiveTile fuel info.nonnegativeRootTileIndex x.1 d) y.1 := by
  obtain ⟨j, a, l, r, node, under, ends, reach⟩ := CellTree.leaves_adjacent leaves
  have memX : x ∈ (tree.prune d info.nonnegativeRootTileIndex).leaves info.nonnegativeRootTileIndex := by
    rw [leaves]
    exact List.mem_append_right _ List.mem_cons_self
  obtain ⟨s, sub, cut⟩ := CellTree.sub_prune node
  cases s with
  | leaf b => cases cut
  | node b l' r' =>
      rw [CellTree.prune] at cut
      split at cut
      · cases cut
        have regX := h.regular_of_cut regular memX
        have regL := h.wf.regular_of_sub regular (CellTree.sub_lo sub)
        have regR := h.wf.regular_of_sub regular (CellTree.sub_hi sub)
        have below : j.lo.level < info.nonnegativeRootTileIndex.level :=
          (sub_one_lt _).trans_le (CellTree.under_of_sub sub).level_le
        have climb := Kvs.climb_same_stop (ε := Failure) under regX regL ends below (Kvs.climb_left regL)
        refine .bind climb ?_
        have sibling : TileIndex.sibling j.lo = j.hi := Cell.twin_lo j
        have start : TileIndex.startTime j.hi = Cell.start j.hi :=
          TileIndex.startTime_eq regR.not_null regR.lt_intMax
        simp only [if_neg regL.not_null, sibling, start, Kvs.findChild_eq]
        refine .bind (.of_ret fun _ => Outcome.assert_of regR.not_null _) ?_
        have reached := Kvs.descendToLevel_reaches regR (h.wf.deep.sub (CellTree.sub_hi sub))
          (h.holds.sub (CellTree.sub_hi sub)) (Cell.start j.hi) (d := d)
        rwa [reach] at reached
      · cases cut

theorem findSuccessive_last {front : List (TileIndex × ExactTile)} {x : TileIndex × ExactTile}
    (leaves : (tree.prune d info.nonnegativeRootTileIndex).leaves info.nonnegativeRootTileIndex =
      front ++ [x]) (ne : x.1 ≠ info.nonnegativeRootTileIndex) :
    Outcome.Reaches (fun fuel => kvs.findSuccessiveTile fuel info.nonnegativeRootTileIndex x.1 d)
      .null := by
  have mem : x ∈ (tree.prune d info.nonnegativeRootTileIndex).leaves info.nonnegativeRootTileIndex := by
    rw [leaves]
    exact List.mem_append_right _ (List.mem_singleton_self x)
  have tiled := CellTree.leaves_tiled (tree.prune d info.nonnegativeRootTileIndex)
    info.nonnegativeRootTileIndex
  rw [leaves] at tiled
  obtain ⟨m, -, last⟩ := tiled.split
  have under := CellTree.under_of_sub (CellTree.mem_leaves.mp mem)
  refine .bind (Kvs.climb_last regular (h.regular_of_cut regular mem) under ne last.2) ?_
  simp only [if_pos (by decide : TileIndex.isNull .null)]
  exact .pure _

/-- From a tile below the root on, the loop hands over what follows it in the walk, until the range or
the callback ends it. -/
theorem readTilesLoop_from (times : Range ℚ) (callback : List (TileIndex × ExactTile) → Bool)
    {front back : List (TileIndex × ExactTile)} {x : TileIndex × ExactTile}
    (leaves : (tree.prune d info.nonnegativeRootTileIndex).leaves info.nonnegativeRootTileIndex =
      front ++ x :: back)
    (below : ∀ y ∈ x :: back, y.1 ≠ info.nonnegativeRootTileIndex)
    (handed : List (TileIndex × ExactTile)) :
    ∃ post, post <+: back ∧
      ((∀ l, callback l) → post = back.takeWhile fun y => TileIndex.startTime y.1 < times.max) ∧
      Outcome.Reaches (fun fuel => kvs.readTilesLoop
        info.nonnegativeRootTileIndex times d callback fuel x.1 handed) (handed ++ post) := by
  have memX : x ∈ (tree.prune d info.nonnegativeRootTileIndex).leaves info.nonnegativeRootTileIndex := by
    rw [leaves]
    exact List.mem_append_right _ List.mem_cons_self
  have regX := h.regular_of_cut regular memX
  have next : ∀ fuel, kvs.nextTile info.nonnegativeRootTileIndex times d fuel x.1 =
      kvs.findSuccessiveTile fuel info.nonnegativeRootTileIndex x.1 d :=
    fun fuel => if_neg regX.not_null
  induction back generalizing front x handed with
  | nil =>
      refine ⟨[], List.prefix_rfl, fun _ => rfl, ?_⟩
      rw [List.append_nil]
      have finished : TileIndex.isNull .null := by decide
      refine Kvs.readTilesLoop_end ?_ (.inl finished)
      simp only [next]
      exact h.findSuccessive_last regular leaves (below x List.mem_cons_self)
  | cons y back ih =>
      have found := h.findSuccessive_next regular leaves
      simp only [← next] at found
      have rest : (tree.prune d info.nonnegativeRootTileIndex).leaves info.nonnegativeRootTileIndex =
          (front ++ [x]) ++ y :: back := by
        simpa using leaves
      have memY : y ∈ (tree.prune d info.nonnegativeRootTileIndex).leaves
          info.nonnegativeRootTileIndex := by
        rw [rest]
        exact List.mem_append_right _ List.mem_cons_self
      have regY := h.regular_of_cut regular memY
      have stored := (h.tiles_of_cut memY).1
      by_cases done : TileIndex.isNull y.1 ∨ TileIndex.startTime y.1 ≥ times.max
      · refine ⟨[], List.nil_prefix, fun _ => ?_, ?_⟩
        · have late := not_lt.mpr (done.resolve_left regY.not_null)
          rw [List.takeWhile_cons_of_neg (by simpa using late)]
        · rw [List.append_nil]
          exact Kvs.readTilesLoop_end found done
      · cases go : callback (handed ++ [y]) with
        | false =>
            refine ⟨[y], List.prefix_append [y] back, fun all => ?_,
              Kvs.readTilesLoop_take found done stored ?_⟩
            · rw [all] at go
              cases go
            · simp only [Prod.mk.eta, go]
              exact .pure _
        | true =>
            obtain ⟨post, part, all, reaches⟩ := ih rest (fun z hz => below z (List.mem_cons_of_mem x hz))
              (handed ++ [y]) memY regY fun fuel => if_neg regY.not_null
            refine ⟨y :: post, List.prefix_cons_inj y |>.mpr part, fun goes => ?_, ?_⟩
            · have early := not_le.mp (not_or.mp done).2
              rw [all goes, List.takeWhile_cons_of_pos (by simpa using early)]
            refine Kvs.readTilesLoop_take found done stored ?_
            simp only [Prod.mk.eta, go]
            rwa [List.append_assoc] at reaches

theorem ordered_of_cut {l : List (TileIndex × ExactTile)} (part : l.Sublist
    ((tree.prune d info.nonnegativeRootTileIndex).leaves info.nonnegativeRootTileIndex)) :
    l.Pairwise fun x y => TileIndex.endTime x.1 ≤ TileIndex.startTime y.1 := by
  have tiled := CellTree.leaves_tiled (tree.prune d info.nonnegativeRootTileIndex)
    info.nonnegativeRootTileIndex
  refine (tiled.pairwise.sublist part).imp_of_mem ?_
  intro x y hx hy le
  have regX := h.regular_of_cut regular (part.subset hx)
  have regY := h.regular_of_cut regular (part.subset hy)
  rwa [TileIndex.endTime_eq regX.not_null regX.lt_intMax,
    TileIndex.startTime_eq regY.not_null regY.lt_intMax]

end

/-- The tile where the walk strays is not stored. -/
theorem twin_none (h : Stored kvs info tree) : kvs.tiles info.nonnegativeRootTileIndex.twin = none := by
  rw [h.tiles]
  apply CellTree.get_none
  intro under
  have same := under.eq_of_level le_rfl
  have offset := congrArg Cell.offset same
  simp only [Cell.twin] at offset
  split at offset <;> omega

theorem nextTile_first (h : Stored kvs info tree) (regular : Regular info.nonnegativeRootTileIndex)
    (times : Range ℚ) :
    Outcome.Reaches (fun fuel => kvs.nextTile info.nonnegativeRootTileIndex times d fuel .null)
      ((tree.prune d info.nonnegativeRootTileIndex).reach info.nonnegativeRootTileIndex times.min).1 := by
  have step : ∀ fuel, kvs.nextTile info.nonnegativeRootTileIndex times d fuel .null =
      kvs.findChildOverlappingTime fuel info.nonnegativeRootTileIndex times.min d :=
    fun fuel => if_pos (by decide)
  simp only [step, Kvs.findChild_eq]
  exact .bind (.of_ret fun _ => Outcome.assert_of regular.not_null _)
    (Kvs.descendToLevel_reaches regular h.wf.deep h.holds times.min)

/-- If the root lies above the level, all tiles of the walk lie below the root. -/
theorem ne_root_of_cut (high : d < info.nonnegativeRootTileIndex.level)
    (inner : ∃ a l r, tree = .node a l r) {x : TileIndex × ExactTile}
    (mem : x ∈ (tree.prune d info.nonnegativeRootTileIndex).leaves info.nonnegativeRootTileIndex) :
    x.1 ≠ info.nonnegativeRootTileIndex := by
  intro eq
  obtain ⟨a, l, r, node⟩ := inner
  have leaf := CellTree.mem_leaves.mp mem
  rw [eq, CellTree.sub_self, node, CellTree.prune, if_pos high] at leaf
  cases leaf

theorem readTilesLoop_below (h : Stored kvs info tree) {times : Range ℚ}
    (regular : Regular info.nonnegativeRootTileIndex) (high : d < info.nonnegativeRootTileIndex.level)
    (inner : ∃ a l r, tree = .node a l r) (callback : List (TileIndex × ExactTile) → Bool) :
    ∃ handed : List (TileIndex × ExactTile),
      (handed.Pairwise fun x y => TileIndex.endTime x.1 ≤ TileIndex.startTime y.1) ∧
        Outcome.Reaches (fun fuel => kvs.readTilesLoop info.nonnegativeRootTileIndex times d callback
          fuel .null []) handed := by
  have found := h.nextTile_first regular times (d := d)
  have mem := CellTree.reach_mem (tree.prune d info.nonnegativeRootTileIndex)
    info.nonnegativeRootTileIndex times.min
  generalize (tree.prune d info.nonnegativeRootTileIndex).reach
    info.nonnegativeRootTileIndex times.min = x at found mem
  have stored := (h.tiles_of_cut mem).1
  by_cases done : TileIndex.isNull x.1 ∨ TileIndex.startTime x.1 ≥ times.max
  · exact ⟨[], .nil, Kvs.readTilesLoop_end found done⟩
  cases go : callback ([] ++ [x]) with
  | false =>
      refine ⟨[x], List.pairwise_singleton _ _, Kvs.readTilesLoop_take found done stored ?_⟩
      simp only [Prod.mk.eta, go]
      exact .pure _
  | true =>
      obtain ⟨front, back, leaves⟩ := List.append_of_mem mem
      have below : ∀ y ∈ x :: back, y.1 ≠ info.nonnegativeRootTileIndex := fun y hy =>
        ne_root_of_cut high inner (leaves ▸ List.mem_append_right _ hy)
      obtain ⟨post, part, -, reaches⟩ := h.readTilesLoop_from regular times callback leaves below [x]
      refine ⟨x :: post, h.ordered_of_cut (d := d) regular ?_, ?_⟩
      · rw [leaves]
        exact (List.Sublist.cons_cons x part.sublist).trans (List.sublist_append_right _ _)
      · refine Kvs.readTilesLoop_take found done stored ?_
        simp only [Prod.mk.eta, go]
        exact reaches

theorem readTilesLoop_all (h : Stored kvs info tree) {times : Range ℚ} (walkable : Walkable info times d)
    (callback : List (TileIndex × ExactTile) → Bool) :
    ∃ handed : List (TileIndex × ExactTile),
      (handed.Pairwise fun x y => TileIndex.endTime x.1 ≤ TileIndex.startTime y.1) ∧
        Outcome.Reaches (fun fuel => kvs.readTilesLoop info.nonnegativeRootTileIndex times d callback
          fuel .null []) handed := by
  have stored : kvs.tiles info.nonnegativeRootTileIndex = some tree.label := by
    rw [h.tiles, CellTree.get_self]
  have null : TileIndex.isNull .null := by decide
  rcases h.wf.shape with ⟨all, -⟩ | ⟨regular, inner⟩
  · dsimp only at all
    refine Kvs.readTilesLoop_alone ?_ stored ?_ (.inl null)
    · rw [all]
      exact Kvs.nextTile_all.1
    · rw [all]
      exact Kvs.nextTile_all.2
  rcases le_or_gt info.nonnegativeRootTileIndex.level d with low | high
  · refine Kvs.readTilesLoop_alone (Kvs.nextTile_first_low regular.not_null low) stored
      (Kvs.nextTile_root regular low) ?_
    split
    · next even =>
        right
        have twin : Regular info.nonnegativeRootTileIndex.twin := regular
        have within := walkable regular.not_all even low
        rw [TileIndex.endTime_eq regular.not_null regular.lt_intMax, ← Cell.twin_start even] at within
        rwa [ge_iff_le, TileIndex.startTime_eq twin.not_null twin.lt_intMax]
    · exact .inl null
  · exact h.readTilesLoop_below regular high inner callback

/-- A callback that goes on is led to the root's neighbour, which is not stored. -/
theorem readTilesLoop_stray (h : Stored kvs info tree) {times : Range ℚ}
    (regular : Regular info.nonnegativeRootTileIndex)
    (even : info.nonnegativeRootTileIndex.offset % 2 = 0) (low : info.nonnegativeRootTileIndex.level ≤ d)
    (beyond : info.nonnegativeRootTileIndex.endTime < times.max) (handed : List (TileIndex × ExactTile)) :
    ¬ Outcome.Reaches (fun fuel => kvs.readTilesLoop info.nonnegativeRootTileIndex times d
      (fun _ => true) fuel .null []) handed := by
  have first : Outcome.Reaches (fun fuel => kvs.nextTile info.nonnegativeRootTileIndex times d fuel .null)
      info.nonnegativeRootTileIndex := Kvs.nextTile_first_low regular.not_null low
  have second : Outcome.Reaches (fun fuel => kvs.nextTile info.nonnegativeRootTileIndex times d fuel
      info.nonnegativeRootTileIndex) info.nonnegativeRootTileIndex.twin := by
    have next := @Kvs.nextTile_root kvs _ times _ regular low
    rwa [if_pos even] at next
  have stored : kvs.tiles info.nonnegativeRootTileIndex = some tree.label := by
    rw [h.tiles, CellTree.get_self]
  have twin : Regular info.nonnegativeRootTileIndex.twin := regular
  rw [TileIndex.endTime_eq regular.not_null regular.lt_intMax] at beyond
  have going₁ : ¬ (TileIndex.isNull info.nonnegativeRootTileIndex ∨
      TileIndex.startTime info.nonnegativeRootTileIndex ≥ times.max) := by
    rw [TileIndex.startTime_eq regular.not_null regular.lt_intMax, ge_iff_le]
    exact not_or.mpr ⟨regular.not_null, not_le.mpr ((Cell.start_lt_stop _).trans beyond)⟩
  have going₂ : ¬ (TileIndex.isNull info.nonnegativeRootTileIndex.twin ∨
      TileIndex.startTime info.nonnegativeRootTileIndex.twin ≥ times.max) := by
    rw [TileIndex.startTime_eq twin.not_null twin.lt_intMax, ge_iff_le, Cell.twin_start even]
    exact not_or.mpr ⟨twin.not_null, not_le.mpr beyond⟩
  rintro ⟨n, done⟩
  obtain ⟨n₁, done₁⟩ := first
  obtain ⟨n₂, done₂⟩ := second
  -- enough fuel for both searches and the three turns
  have ret := done (n + n₁ + n₂ + 2) (by omega)
  have found₁ := done₁ (n + n₁ + n₂ + 1) (by omega)
  have found₂ := done₂ (n + n₁ + n₂) (by omega)
  dsimp only at ret found₁ found₂
  rw [Kvs.readTilesLoop_succ, found₁, Outcome.ret_bind, if_neg going₁, Kvs.readTile_of_some stored,
    Outcome.ret_bind, if_pos rfl, Kvs.readTilesLoop_succ, found₂, Outcome.ret_bind, if_neg going₂,
    Kvs.readTile, h.twin_none] at ret
  cases ret

end Stored

/-- `read_tiles_in_range` returns whatever the callback does, so no assertion fails; and a callback that
goes on is handed disjoint tiles from left to right. -/
def WalksTiles (kvs : Kvs) (times : Range ℚ) (desiredLevel : ℤ) : Prop :=
  (∀ callback, ∃ handed, Outcome.Reaches
    (fun fuel => kvs.readTilesInRange fuel times callback desiredLevel) handed) ∧
  ∃ handed, Outcome.Reaches (fun fuel => kvs.readTilesInRange fuel times (fun _ => true) desiredLevel) handed ∧
    handed.Pairwise fun x y => TileIndex.endTime x.1 ≤ TileIndex.startTime y.1

namespace Runs

variable {ch : Channel} {bs : List Batch} {kvs : Kvs}

/-- The walk stays inside the tree unless the root is itself low enough to be handed over, is a left
child, and ends before the range does. -/
theorem walks_tiles_iff (run : Runs ch bs kvs) (times : Range ℚ) (desiredLevel : ℤ) :
    WalksTiles kvs times desiredLevel ↔ ∀ info, kvs.metainfo = some (some info) →
      info.times.intersects times → times.min < times.max → Walkable info times desiredLevel := by
  rcases run.usual with rfl | ⟨info, tree, stored⟩
  · refine ⟨fun _ info has => (by cases has), fun _ => ⟨fun callback => ⟨[], ?_⟩, [], ?_, .nil⟩⟩
    all_goals exact .of_ret fun _ => rfl
  have read : kvs.readInfo = .ret (some info) := Channel.readInfo_stored stored.metainfo stored.magic
  have step : ∀ fuel callback, kvs.readTilesInRange fuel times callback desiredLevel =
      if ¬ info.times.intersects times then .ret []
      else if times.min < times.max then
        kvs.readTilesLoop info.nonnegativeRootTileIndex times desiredLevel callback fuel .null []
      else .ret [] := by
    intro fuel callback
    rw [Kvs.readTilesInRange, read]
    rfl
  by_cases apart : ¬ info.times.intersects times
  · constructor
    · intro _ info' has meets
      rw [stored.metainfo] at has
      cases has
      exact (apart meets).elim
    · intro _
      simp only [WalksTiles, step, if_pos apart]
      exact ⟨fun callback => ⟨[], .of_ret fun _ => rfl⟩, [], .of_ret fun _ => rfl, .nil⟩
  by_cases point : times.min < times.max
  · simp only [WalksTiles, step, if_neg apart, if_pos point]
    constructor
    · rintro ⟨-, handed, reaches, -⟩ info' has - - ne even low
      rw [stored.metainfo] at has
      cases has
      by_contra beyond
      exact stored.readTilesLoop_stray (stored.regular ne) even low (not_le.mp beyond) handed reaches
    · intro inside
      have walkable := inside info stored.metainfo (not_not.mp apart) point
      refine ⟨fun callback => ?_, ?_⟩
      · obtain ⟨handed, -, reaches⟩ := stored.readTilesLoop_all walkable callback
        exact ⟨handed, reaches⟩
      · obtain ⟨handed, ordered, reaches⟩ := stored.readTilesLoop_all walkable fun _ => true
        exact ⟨handed, reaches, ordered⟩
  · constructor
    · exact fun _ info' _ _ lt => (point lt).elim
    · intro _
      simp only [WalksTiles, step, if_neg apart, if_neg point]
      exact ⟨fun callback => ⟨[], .of_ret fun _ => rfl⟩, [], .of_ret fun _ => rfl, .nil⟩

/-- Two samples below a root that ends at 4: nothing wrong up to there. -/
theorem walks_tiles_iff_pair : ∃ kvs, Runs .narrow [.pair] kvs ∧ WalksTiles kvs ⟨1, 4⟩ 5 := by
  obtain ⟨kvs, info, tree, run, stored, -, root⟩ := narrow_pair
  refine ⟨kvs, run, (walks_tiles_iff run _ _).mpr fun info' has _ _ _ _ _ => ?_⟩
  rw [stored.metainfo] at has
  cases has
  rw [root]
  decide +kernel

/-- The same store, asked up to 5 for tiles of level 2 or less. -/
theorem strays_beyond_root : ∃ kvs, Runs .narrow [.pair] kvs ∧ ¬ WalksTiles kvs ⟨1, 5⟩ 2 := by
  obtain ⟨kvs, info, tree, run, stored, same, root⟩ := narrow_pair
  refine ⟨kvs, run, ?_⟩
  rintro ⟨-, handed, reaches, -⟩
  have read : kvs.readInfo = .ret (some info) := Channel.readInfo_stored stored.metainfo stored.magic
  have first := stored.spanned.bounds 1 (by rw [same]; exact Batch.mem_times_pair.mpr (.inl rfl))
  have meets : info.times.intersects ⟨1, 5⟩ := by
    have proper : ¬ info.times.empty := not_lt.mpr (first.1.trans first.2)
    have early : ¬ (5 : ℚ) < info.times.min := not_lt.mpr (first.1.trans (by norm_num))
    rw [Range.intersects, if_neg proper, if_neg (by decide), if_neg early, if_neg (not_lt.mpr first.2)]
  have step : ∀ fuel, kvs.readTilesInRange fuel ⟨1, 5⟩ (fun _ => true) 2 =
      kvs.readTilesLoop info.nonnegativeRootTileIndex ⟨1, 5⟩ 2 (fun _ => true) fuel .null [] := by
    intro fuel
    rw [Kvs.readTilesInRange, read, Outcome.ret_bind]
    dsimp only
    rw [if_neg (not_not.mpr meets), if_pos (by norm_num)]
  simp only [step] at reaches
  have ne : info.nonnegativeRootTileIndex ≠ .nonnegativeAll := by
    rw [root]
    decide
  refine stored.readTilesLoop_stray (stored.regular ne) ?_ ?_ ?_ handed reaches
  all_goals rw [root]
  all_goals decide +kernel

end Runs
end Mio.Datastore
