import Mio.Datastore.Invariants

/-! The leaves of a channel, and what they hold after a run. -/
namespace Mio.Datastore

/-- The tiles below `ti` that have no stored children, from left to right. -/
def Kvs.leafTiles (kvs : Kvs) : ℕ → TileIndex → Outcome Failure (List ExactTile)
  | 0, _ => .timeout
  | fuel + 1, ti => do
      let tile ← kvs.readTile ti
      if kvs.hasTile ti.leftChild ∨ kvs.hasTile ti.rightChild then do
        let left ← leafTiles kvs fuel ti.leftChild
        let right ← leafTiles kvs fuel ti.rightChild
        return left ++ right
      else return [tile]

namespace Kvs

theorem leafTiles_leaf {kvs : Kvs} {ti : TileIndex} {tile : ExactTile}
    (stored : kvs.tiles ti = some tile) (left : kvs.tiles ti.leftChild = none)
    (right : kvs.tiles ti.rightChild = none) :
    Outcome.Reaches (fun fuel => kvs.leafTiles fuel ti) [tile] := by
  refine .step (y := fun _ => .ret [tile]) (fun fuel => ?_) (.of_ret fun _ => rfl)
  have bare : ¬ (kvs.hasTile ti.leftChild ∨ kvs.hasTile ti.rightChild) :=
    not_or.mpr ⟨not_hasTile left, not_hasTile right⟩
  simp only [leafTiles, readTile_of_some stored, Outcome.ret_bind, if_neg bare, Outcome.pure_eq_ret]

/-- The walk over the store finds the leaves of the tree it holds. -/
theorem leafTiles_reaches {kvs : Kvs} {s : TileTree} {i : TileIndex} (regular : Regular i)
    (deep : s.EachNode (fun i _ _ _ => -1074 < i.level) i) (holds : kvs.Holds s i) :
    Outcome.Reaches (fun fuel => kvs.leafTiles fuel i) ((s.leaves i).map Prod.snd) := by
  have here : kvs.tiles i = some s.label := by rw [holds i (.refl i), CellTree.get_self]
  induction s generalizing i with
  | leaf a =>
      refine leafTiles_leaf here ?_ ?_
      · rw [TileIndex.leftChild_eq regular.lt_intMax, holds _ (.lo i), CellTree.get,
          CellTree.sub_leaf_none]
        · rfl
        · exact Cell.lo_ne i
      · rw [TileIndex.rightChild_eq regular.lt_intMax, holds _ (.hi i), CellTree.get,
          CellTree.sub_leaf_none]
        · rfl
        · exact Cell.hi_ne i
  | node a l r ihl ihr =>
      obtain ⟨level, deepL, deepR⟩ := CellTree.eachNode_node.mp deep
      have storedL : kvs.tiles i.lo = some l.label := by
        rw [holds.lo _ (.refl _), CellTree.get_self]
      have storedR : kvs.tiles i.hi = some r.label := by
        rw [holds.hi _ (.refl _), CellTree.get_self]
      refine .step (y := fun fuel => do
        let left ← kvs.leafTiles fuel i.lo
        let right ← kvs.leafTiles fuel i.hi
        return left ++ right) (fun fuel => ?_) ?_
      · simp only [leafTiles, readTile_of_some here, Outcome.ret_bind,
          TileIndex.leftChild_eq regular.lt_intMax, TileIndex.rightChild_eq regular.lt_intMax,
          if_pos (Or.inl (hasTile_of_some storedL) : kvs.hasTile i.lo ∨ kvs.hasTile i.hi)]
      · rw [CellTree.leaves, List.map_append]
        refine .bind (ihl (regular.lo level) deepL holds.lo storedL) ?_
        exact .bind (ihr (regular.hi level) deepR holds.hi storedR) (.pure _)

end Kvs

theorem Stored.holds {kvs : Kvs} {info : ChannelInfo} {tree : TileTree} (h : Stored kvs info tree) :
    kvs.Holds tree info.nonnegativeRootTileIndex := by
  intro j _
  rw [h.tiles]

theorem Stored.leafTiles_at {kvs : Kvs} {info : ChannelInfo} {tree s : TileTree} {ti : TileIndex}
    (h : Stored kvs info tree) (at_ti : tree.sub info.nonnegativeRootTileIndex ti = some s) :
    Outcome.Reaches (fun fuel => kvs.leafTiles fuel ti) ((s.leaves ti).map Prod.snd) := by
  rcases h.wf.shape with ⟨all, tile, rfl⟩ | ⟨regular, -⟩
  · dsimp only at all
    have tiles := h.tiles
    rw [all] at tiles at_ti
    have here : ti = .nonnegativeAll := by
      by_contra ne
      rw [CellTree.sub_leaf_none ne] at at_ti
      cases at_ti
    subst here
    rw [CellTree.sub_self] at at_ti
    cases at_ti
    have none : kvs.tiles .null = none := by
      rw [tiles, CellTree.get, CellTree.sub_leaf_none TileIndex.nonnegativeAll_ne_null.symm]
      rfl
    refine Kvs.leafTiles_leaf (by rw [tiles, CellTree.get_self]; rfl) ?_ ?_
    · rw [TileIndex.isNull_leftChild_all, none]
    · rw [TileIndex.isNull_rightChild_all, none]
  · have deep : tree.EachNode (fun i _ _ _ => -1074 < i.level) info.nonnegativeRootTileIndex := h.wf.deep
    exact Kvs.leafTiles_reaches (h.wf.regular_of_sub regular at_ti) (deep.sub at_ti)
      (h.holds.sub at_ti)

theorem Stored.leafTiles {kvs : Kvs} {info : ChannelInfo} {tree : TileTree}
    (h : Stored kvs info tree) :
    Outcome.Reaches (fun fuel => kvs.leafTiles fuel info.nonnegativeRootTileIndex)
      ((tree.leaves info.nonnegativeRootTileIndex).map Prod.snd) :=
  h.leafTiles_at (CellTree.sub_self _ _)

theorem flatMap_leaves (l : List (TileIndex × ExactTile)) :
    (l.map Prod.snd).flatMap Tile.doubleSamples = (concat l).doubles ∧
      (l.map Prod.snd).flatMap Tile.stringSamples = (concat l).strings := by
  induction l with
  | nil => exact ⟨rfl, rfl⟩
  | cons x l ih =>
      simp only [List.map_cons, List.flatMap_cons, ih.1, ih.2]
      exact ⟨rfl, rfl⟩

/-- The channel keeps exactly these samples. -/
def Keeps (kvs : Kvs) (old : Samples) : Prop :=
  (kvs = .absent ∧ old = .empty) ∨ ∃ info tree, Stored kvs info tree ∧ contents tree = old

theorem Keeps.usual {kvs : Kvs} {old : Samples} (h : Keeps kvs old) :
    kvs = .absent ∨ ∃ info tree, Stored kvs info tree := by
  rcases h with ⟨none, -⟩ | ⟨info, tree, stored, -⟩
  · exact .inl none
  · exact .inr ⟨info, tree, stored⟩

namespace Runs

variable {ch : Channel} {bs : List Batch} {kvs : Kvs}

/-- The leaves hold the merged batches, whatever the tree looks like. -/
theorem contents_eq (run : Runs ch bs kvs) :
    Keeps kvs (history bs) := by
  refine run.induct (P := fun bs _ tree => contents tree = history bs) ?_ ?_ ?_
  · intro bs b info tree none h
    rw [history_add, none]
    exact h
  · intro bs b kvs' q info none finite called
    rw [called.contents_eq, history_add, none]
    rfl
  · intro bs b kvs kvs' q info old tree h finite called
    rw [called.contents_eq, history_add, ← h]
    rfl

end Runs
end Mio.Datastore
