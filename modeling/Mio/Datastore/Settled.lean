import Mio.Datastore.LeafTiles

/-! Channels at rest: what the tree of a channel looks like between two calls. -/
namespace Mio.Datastore

theorem Kvs.tiles_of_hasTile {kvs : Kvs} {ti : TileIndex} (h : kvs.hasTile ti) :
    ∃ tile, kvs.tiles ti = some tile := Option.isSome_iff_exists.mp h

namespace Stored

variable {kvs : Kvs} {info : ChannelInfo} {tree : TileTree}

theorem sub (h : Stored kvs info tree) {ti : TileIndex} {tile : ExactTile}
    (at_ti : kvs.tiles ti = some tile) :
    ∃ s, tree.sub info.nonnegativeRootTileIndex ti = some s ∧ s.label = tile := by
  rw [h.tiles] at at_ti
  exact Option.map_eq_some_iff.mp at_ti

theorem tiles_of_sub (h : Stored kvs info tree) {ti : TileIndex} {s : TileTree}
    (at_ti : tree.sub info.nonnegativeRootTileIndex ti = some s) : kvs.tiles ti = some s.label := by
  rw [h.tiles, CellTree.get, at_ti]
  rfl

theorem regular (h : Stored kvs info tree) (ne : info.nonnegativeRootTileIndex ≠ .nonnegativeAll) :
    Regular info.nonnegativeRootTileIndex := (h.wf.shape_node ne).1

theorem hasRoot (h : Stored kvs info tree) :
    kvs.tiles info.nonnegativeRootTileIndex = some tree.label := by
  rw [h.tiles, CellTree.get_self]

theorem hasLeft (h : Stored kvs info tree) (ne : info.nonnegativeRootTileIndex ≠ .nonnegativeAll) :
    kvs.hasTile info.nonnegativeRootTileIndex.leftChild := by
  obtain ⟨regular, a, l, r, node⟩ := h.wf.shape_node ne
  have sub : tree.sub info.nonnegativeRootTileIndex info.nonnegativeRootTileIndex = some (.node a l r) :=
    node ▸ CellTree.sub_self tree _
  rw [TileIndex.leftChild_eq regular.lt_intMax]
  exact Kvs.hasTile_of_some (h.tiles_of_sub (CellTree.sub_lo sub))

theorem eq_all (h : Stored kvs info tree) (all : info.nonnegativeRootTileIndex = .nonnegativeAll)
    {ti : TileIndex} (has : kvs.hasTile ti) : ti = .nonnegativeAll := by
  obtain ⟨tile, at_ti⟩ := Kvs.tiles_of_hasTile has
  obtain ⟨s, hs, -⟩ := h.sub at_ti
  obtain ⟨a, rfl⟩ := h.wf.shape_all all
  by_contra ne
  rw [all, CellTree.sub_leaf_none ne] at hs
  cases hs

theorem not_hasTile_null (h : Stored kvs info tree)
    (all : info.nonnegativeRootTileIndex = .nonnegativeAll) : ¬ kvs.hasTile .null :=
  fun has => TileIndex.nonnegativeAll_ne_null (h.eq_all all has).symm

/-- The root is the smallest cell around the first and the last time. -/
theorem smallest (h : Stored kvs info tree) (ne : info.nonnegativeRootTileIndex ≠ .nonnegativeAll) :
    info.times.min < info.times.max ∧
      Cell.Smallest info.nonnegativeRootTileIndex info.times.min info.times.max := by
  have has := contents_has (h.wf.leaves_has (h.regular ne))
  obtain ⟨a, ha, b, hb, lt, least⟩ := h.wf.tight ne
  rw [Progress.total, Samples.overwrite_empty_left] at ha hb
  have first := h.spanned.bounds a ha
  have last := h.spanned.bounds b hb
  refine ⟨first.1.trans_lt (lt.trans_le last.2), has _ h.spanned.min_mem, has _ h.spanned.max_mem, ?_⟩
  intro d hmin hmax
  refine least.least d ?_ ?_
  · exact ⟨hmin.1.trans first.1, first.2.trans_lt hmax.2⟩
  · exact ⟨hmin.1.trans last.1, last.2.trans_lt hmax.2⟩

/-- No deeper cell would hold the contents. -/
theorem around (h : Stored kvs info tree) (ne : info.nonnegativeRootTileIndex ≠ .nonnegativeAll) :
    Around info.nonnegativeRootTileIndex (contents tree) := by
  obtain ⟨lt, least⟩ := h.smallest ne
  exact .of_spanned h.spanned lt least

theorem double (h : Stored kvs info tree) : ∀ t ∈ (contents tree).times, IsDouble t ∧ 0 ≤ t := by
  intro t ht
  rw [contents_eq tree info.nonnegativeRootTileIndex] at ht
  obtain ⟨⟨i, tile⟩, mem, ht⟩ := mem_times_concat.mp ht
  exact (h.wf.leaves i tile mem).double t ht

theorem indexContaining (h : Stored kvs info tree)
    (ne : info.nonnegativeRootTileIndex ≠ .nonnegativeAll) {ε : Type} :
    Outcome.Reaches (fun fuel => (TileIndex.indexContaining fuel info.times : Outcome ε _))
      info.nonnegativeRootTileIndex := by
  obtain ⟨lt, least⟩ := h.smallest ne
  have first := h.double _ h.spanned.min_mem
  have last := h.double _ h.spanned.max_mem
  obtain ⟨r, done⟩ := TileIndex.indexContaining_done (ε := ε) first.1 last.1 (.inl first.2) lt
  have same := (TileIndex.indexContaining_ret first.1 last.1 (.inl first.2) (done 2099 le_rfl)).2.1.unique least
  rw [← same]
  exact ⟨2099, done⟩

theorem children (h : Stored kvs info tree) {ti : TileIndex} {tile : ExactTile}
    (at_ti : kvs.tiles ti = some tile) :
    (¬ kvs.hasTile ti.leftChild ∧ ¬ kvs.hasTile ti.rightChild ∧
        tree.sub info.nonnegativeRootTileIndex ti = some (.leaf tile)) ∨
      ∃ l r, Regular ti ∧ tree.sub info.nonnegativeRootTileIndex ti = some (.node tile l r) ∧
        kvs.tiles ti.leftChild = some l.label ∧ kvs.tiles ti.rightChild = some r.label := by
  obtain ⟨s, hs, rfl⟩ := h.sub at_ti
  cases s with
  | leaf a =>
      by_cases all : info.nonnegativeRootTileIndex = .nonnegativeAll
      · have alone := h.eq_all all (Kvs.hasTile_of_some at_ti)
        rw [alone, TileIndex.isNull_leftChild_all, TileIndex.isNull_rightChild_all]
        exact .inl ⟨h.not_hasTile_null all, h.not_hasTile_null all, alone ▸ hs⟩
      · have reg : Regular ti := h.wf.regular_of_sub (h.regular all) hs
        have missing : ∀ {c : TileIndex}, c.Under ti → c ≠ ti → ¬ kvs.hasTile c := by
          intro c under ne
          apply Kvs.not_hasTile
          rw [h.tiles, CellTree.get, CellTree.sub_below_leaf hs under ne]
          rfl
        rw [TileIndex.leftChild_eq reg.lt_intMax, TileIndex.rightChild_eq reg.lt_intMax]
        refine .inl ⟨missing (.lo ti) ?_, missing (.hi ti) ?_, hs⟩
        · exact Cell.lo_ne ti
        · exact Cell.hi_ne ti
  | node a l r =>
      have reg : Regular ti := h.wf.regular_of_sub (h.wf.regular_of_node hs) hs
      refine .inr ⟨l, r, reg, hs, ?_, ?_⟩
      · rw [TileIndex.leftChild_eq reg.lt_intMax]
        exact h.tiles_of_sub (CellTree.sub_lo hs)
      · rw [TileIndex.rightChild_eq reg.lt_intMax]
        exact h.tiles_of_sub (CellTree.sub_hi hs)

end Stored

namespace Runs

variable {ch : Channel} {bs : List Batch} {kvs : Kvs}

theorem covered_of_queue {p : Progress} (stale : p.stale = []) (h : Step.Covered p) :
    p.tree.EachNode (fun i a l r => Consistent i a l.label r.label) p.root := by
  intro i a l r node
  refine (h i a l r node).resolve_right ?_
  rw [stale]
  simp

/-- Every inner tile is up to date, and every leaf within the limit, between two calls. -/
theorem settled (run : Runs ch bs kvs) :
    (kvs = .absent ∧ history bs = .empty) ∨ ∃ info tree, Stored kvs info tree ∧
      tree.EachNode (fun i a l r => Consistent i a l.label r.label) info.nonnegativeRootTileIndex ∧
      tree.EachLeaf (fun _ a => a.binaryLength ≤ ch.maxTileSize) info.nonnegativeRootTileIndex := by
  have call : ∀ {batch kvs kvs' p q info}, Called ch.maxTileSize batch kvs kvs' p q info →
      p.tree.EachNode (fun i a l r => Consistent i a l.label r.label) p.root →
      p.tree.EachLeaf (fun _ a => a.binaryLength ≤ ch.maxTileSize) p.root →
      q.tree.EachNode (fun i a l r => Consistent i a l.label r.label) q.root ∧
        q.tree.EachLeaf (fun _ a => a.binaryLength ≤ ch.maxTileSize) q.root := by
    intro batch kvs kvs' p q info called nodes leaves
    constructor
    · refine covered_of_queue called.stale (Steps.keep (fun _ _ => Step.covered) called.steps called.wf ?_)
      exact fun i a l r node => .inl (nodes i a l r node)
    · exact Steps.keep (P := fun p => p.tree.EachLeaf (fun _ a => a.binaryLength ≤ ch.maxTileSize) p.root)
        (fun _ _ step _ => step.leaves_fit called.room) called.steps called.wf leaves
  refine run.induct (P := fun _ info tree =>
    tree.EachNode (fun i a l r => Consistent i a l.label r.label) info.nonnegativeRootTileIndex ∧
      tree.EachLeaf (fun _ a => a.binaryLength ≤ ch.maxTileSize) info.nonnegativeRootTileIndex) ?_ ?_ ?_
  · exact fun _ _ _ _ _ h => h
  · intro bs b kvs' q info none finite called
    exact call called CellTree.eachNode_leaf (CellTree.eachLeaf_leaf.mpr called.room)
  · intro bs b kvs kvs' q info old tree h finite called
    exact call called h.1 h.2

/-- What every fresh tile has and every insertion keeps, all leaves have between two calls. -/
theorem eachLeaf {P : ExactTile → Prop} (fresh : ∀ u, P (.ofSamples u))
    (insert : ∀ tile chunk, P tile → P (tile.insert chunk)) (run : Runs ch bs kvs) :
    (kvs = .absent ∧ history bs = .empty) ∨ ∃ info tree, Stored kvs info tree ∧
      tree.EachLeaf (fun _ a => P a) info.nonnegativeRootTileIndex := by
  have call : ∀ {batch kvs kvs' p q info}, Called ch.maxTileSize batch kvs kvs' p q info →
      p.tree.EachLeaf (fun _ a => P a) p.root → q.tree.EachLeaf (fun _ a => P a) q.root :=
    fun called h => Steps.keep (P := fun p => p.tree.EachLeaf (fun _ a => P a) p.root)
      (fun _ _ step _ => step.eachLeaf fresh insert) called.steps called.wf h
  refine run.induct (P := fun _ info tree =>
    tree.EachLeaf (fun _ a => P a) info.nonnegativeRootTileIndex) ?_ ?_ ?_
  · exact fun _ _ _ _ _ h => h
  · exact fun bs b kvs' q info none finite called =>
      call called (CellTree.eachLeaf_leaf.mpr (fresh .empty))
  · exact fun bs b kvs kvs' q info old tree h finite called => call called h

/-- With weights that are not negative, every tile is sorted and inside its interval. -/
theorem sound {W : ℚ → Prop} (up : ∀ w, 0 < w → W w) (nonneg : ∀ w, W w → 0 ≤ w)
    (run : Runs ch bs kvs) (weights : ∀ b ∈ bs, ∀ w ∈ b.samples.weights, W w) :
    (kvs = .absent ∧ history bs = .empty) ∨ ∃ info tree, Stored kvs info tree ∧
      tree.EachLabel (fun i a => Sound W i a.samples) info.nonnegativeRootTileIndex := by
  have call : ∀ {batch kvs kvs' p q info}, Called ch.maxTileSize batch kvs kvs' p q info →
      (∀ w ∈ p.pending.weights, W w) → p.tree.EachLabel (fun i a => Sound W i a.samples) p.root →
      q.tree.EachLabel (fun i a => Sound W i a.samples) q.root := by
    intro batch kvs kvs' p q info called pending labels
    exact (Steps.keep (fun _ _ => Step.weighed up nonneg) called.steps called.wf ⟨labels, pending⟩).labels
  have last : ∀ {bs : List Batch} {b : Batch}, (∀ x ∈ bs ++ [b], ∀ w ∈ x.samples.weights, W w) →
      (∀ x ∈ bs, ∀ w ∈ x.samples.weights, W w) ∧ ∀ w ∈ b.samples.weights, W w :=
    fun h => ⟨fun x hx => h x (List.mem_append_left _ hx), h _ (List.mem_append_right _ (List.mem_singleton_self _))⟩
  have all := run.induct (P := fun bs info tree => (∀ b ∈ bs, ∀ w ∈ b.samples.weights, W w) →
    tree.EachLabel (fun i a => Sound W i a.samples) info.nonnegativeRootTileIndex) ?_ ?_ ?_
  · exact all.imp_right fun ⟨info, tree, stored, h⟩ => ⟨info, tree, stored, h weights⟩
  · exact fun _ _ _ _ _ h w => h (last w).1
  · intro bs b kvs' q info none finite called w
    exact call called (last w).2 (CellTree.eachLabel_leaf.mpr (.empty W _))
  · intro bs b kvs kvs' q info old tree h finite called w
    exact call called (last w).2 (h (last w).1)

/-- A channel with more samples than fit into one tile has left the all-tile. -/
theorem beyond_all (run : Runs ch bs kvs) (long : ch.maxTileSize < (history bs).size)
    (some : history bs ≠ .empty) :
    ∃ info tree, Stored kvs info tree ∧ contents tree = history bs ∧
      info.nonnegativeRootTileIndex ≠ .nonnegativeAll := by
  rcases run.contents_eq with ⟨-, none⟩ | ⟨info, tree, stored, same⟩
  · exact (some none).elim
  have fits := (stored.kept run.settled).2
  refine ⟨info, tree, stored, same, fun all => ?_⟩
  obtain ⟨tile, rfl⟩ := stored.wf.shape_all all
  rw [← same] at long
  exact absurd (CellTree.eachLeaf_leaf.mp fits) (not_le.mpr long)

end Runs
end Mio.Datastore
