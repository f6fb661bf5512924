import Mio.Datastore.AddData

/-! What the steps of a call keep: leaves stay short, contents stay inside their intervals, and every
inner tile is up to date or queued. -/
namespace Mio.Datastore

theorem Sound.up {W : ℚ → Prop} {c : TileIndex} {u : Samples} (h : Sound W c u) (regular : Regular c)
    (above : Regular c.up) : Sound W c.up u := by
  refine ⟨h.ascending, fun t ht => ?_, h.weights⟩
  exact (above.containsTime_iff t).mpr (Cell.has_up ((regular.containsTime_iff t).mp (h.inside t ht)))

theorem Sound.empty (W : ℚ → Prop) (c : TileIndex) : Sound W c .empty :=
  ⟨Samples.ascending_empty, by simp, by simp⟩

/-- What every fresh tile has and every insertion keeps, all leaves of a grown tree have. -/
theorem Grown.eachLeaf {P : ExactTile → Prop} (fresh : ∀ u, P (.ofSamples u)) {limit : ℕ}
    {ti : TileIndex} {tile : ExactTile} {s : TileTree} (g : Grown limit ti tile s) (h : P tile) :
    s.EachLeaf (fun _ a => P a) ti := by
  induction g with
  | leaf fits => exact CellTree.eachLeaf_leaf.mpr h
  | node long left right combined ihl ihr =>
      exact CellTree.eachLeaf_node.mpr ⟨ihl (fresh _), ihr (fresh _)⟩

namespace Step

variable {limit : ℕ} {p q : Progress}

theorem eachLeaf {P : ExactTile → Prop} (fresh : ∀ u, P (.ofSamples u))
    (insert : ∀ tile chunk, P tile → P (tile.insert chunk)) (step : Step limit p q)
    (h : p.tree.EachLeaf (fun _ a => P a) p.root) : q.tree.EachLeaf (fun _ a => P a) q.root := by
  have new : P .new := fresh .empty
  cases step with
  | raise n regular tight =>
      exact CellTree.raise_induct (fun t c _ ht => ht.hoist _ new) regular.2 h
  | fill inside past fits =>
      exact CellTree.eachLeaf_leaf.mpr (insert _ _ (CellTree.eachLeaf_leaf.mp h))
  | reroot inside past regular tight has grown long =>
      exact grown.eachLeaf fresh (insert _ _ (CellTree.eachLeaf_leaf.mp h))
  | insert regular leaf inside past grown =>
      exact h.graft leaf (grown.eachLeaf fresh (insert _ _ (h _ _ (CellTree.mem_leaves.mpr leaf))))
  | regenerate node combined =>
      exact h.graft node (CellTree.eachLeaf_node.mpr (CellTree.eachLeaf_node.mp (h.sub node)))

theorem leaves_fit (room : Samples.empty.size ≤ limit) (step : Step limit p q)
    (h : p.tree.EachLeaf (fun _ a => a.binaryLength ≤ limit) p.root) :
    q.tree.EachLeaf (fun _ a => a.binaryLength ≤ limit) q.root := by
  cases step with
  | raise n regular tight =>
      refine CellTree.raise_induct (fun t c _ ht => ?_) regular.2 h
      exact ht.hoist _ room
  | fill inside past fits => exact CellTree.eachLeaf_leaf.mpr fits
  | reroot inside past regular tight has grown long => exact grown.leaves_fit
  | insert regular leaf inside past grown => exact h.graft leaf grown.leaves_fit
  | regenerate node combined =>
      exact h.graft node (CellTree.eachLeaf_node.mpr (CellTree.eachLeaf_node.mp (h.sub node)))

/-- Every inner tile is what its children combine to, unless something below it is queued. -/
def Covered (p : Progress) : Prop :=
  p.tree.EachNode (fun i a l r => Consistent i a l.label r.label ∨ ∃ w ∈ p.stale, w.Under i) p.root

theorem covered (step : Step limit p q) (wf : p.Wf) (h : Covered p) : Covered q := by
  cases step with
  | @raise root tree pending n regular tight =>
      have all := CellTree.raise_induct (e := Tile.new) (n := n + 1)
        (motive := fun t c => root.Under c ∧ t.EachNode (fun i a l r =>
          Consistent i a l.label r.label ∨ ∃ w ∈ [root.up], w.Under i) c) (by
        rintro t c - ⟨under, nodes⟩
        have above : ∃ w ∈ [root.up], w.Under c.up :=
          ⟨root.up, List.mem_singleton_self _, under.up_up⟩
        exact ⟨under.trans (.up c), nodes.hoist (.inr above) (.inr above)⟩) regular.2
        ⟨.refl root, fun i a l r node => .inl ((h i a l r node).resolve_right (by simp))⟩
      exact all.2
  | fill inside past fits => exact CellTree.eachNode_leaf
  | reroot inside past regular tight has grown long =>
      exact fun i a l r node => .inl (grown.consistent wf.headers.label i a l r node)
  | @insert root ti tree tile s stale chunk rest regular leaf inside past grown =>
      have header : (tile.insert chunk).header = Tile.new.header :=
        wf.headers ti tile (by rw [CellTree.get, leaf]; rfl)
      intro i a l r node
      rcases CellTree.sub_graft_node leaf node with
        ⟨-, new_node⟩ | ⟨-, -, old_node⟩ | ⟨above, -⟩
      · exact .inl (grown.consistent header i a l r new_node)
      · refine (h i a l r old_node).imp_right ?_
        rintro ⟨w, hw, under⟩
        exact ⟨w, Progress.subset_queued hw, under⟩
      · right
        have below : ti.up.Under i := by
          rcases above with lo | hi
          · simpa using lo.up_up
          · simpa using hi.up_up
        have ne : ti ≠ root := by
          rintro rfl
          have high := (CellTree.under_of_sub node).level_le
          dsimp only at high
          have low := below.level_le
          simp only [Cell.up] at low
          omega
        exact ⟨ti.up, Progress.up_mem_queued ne, below⟩
  | @regenerate root w tree parent a l r stale pending old combined =>
      intro i b l' r' node
      have keep : ¬ w.Under i → (Consistent i b l'.label r'.label ∨ ∃ v ∈ w :: stale, v.Under i) →
          Consistent i b l'.label r'.label ∨ ∃ v ∈ Progress.queued root w stale, v.Under i := by
        intro out
        refine Or.imp_right ?_
        rintro ⟨v, hv, under⟩
        rcases List.mem_cons.mp hv with rfl | hv
        · exact (out under).elim
        · exact ⟨v, Progress.subset_queued hv, under⟩
      rcases CellTree.sub_graft_node old node with
        ⟨under, new_node⟩ | ⟨-, out, old_node⟩ | ⟨above, -⟩
      · by_cases same : i = w
        · subst same
          rw [CellTree.sub_self] at new_node
          cases new_node
          exact .inl combined
        · have strict : ¬ w.Under i := fun g => same (under.antisymm g)
          refine keep strict (h i b l' r' ?_)
          dsimp only
          rw [CellTree.sub_sub old under, ← new_node]
          rcases under.cases with eq | lo | hi
          · exact (same eq).elim
          · rw [CellTree.sub_node_lo lo, CellTree.sub_node_lo lo]
          · rw [CellTree.sub_node_hi hi, CellTree.sub_node_hi hi]
      · exact keep out (h i b l' r' old_node)
      · right
        have below : w.up.Under i := by
          rcases above with lo | hi
          · simpa using lo.up_up
          · simpa using hi.up_up
        have ne : w ≠ root := by
          rintro rfl
          have high := (CellTree.under_of_sub node).level_le
          dsimp only at high
          have low := below.level_le
          simp only [Cell.up] at low
          omega
        exact ⟨w.up, Progress.up_mem_queued ne, below⟩

/-- Every tile is sound, and the rest of the batch has weights of the same kind. -/
structure Weighed (W : ℚ → Prop) (p : Progress) : Prop where
  labels : p.tree.EachLabel (fun i a => Sound W i a.samples) p.root
  pending : ∀ w ∈ p.pending.weights, W w

theorem weighed {W : ℚ → Prop} (up : ∀ w, 0 < w → W w) (nonneg : ∀ w, W w → 0 ≤ w)
    (step : Step limit p q) (wf : p.Wf) (h : Weighed W p) : Weighed W q := by
  have wf' := step.wf wf
  have merged : ∀ {tile : ExactTile} {chunk rest : Samples}, (∀ w ∈ tile.samples.weights, W w) →
      (∀ w ∈ (chunk ++ rest).weights, W w) → ∀ w ∈ (tile.insert chunk).samples.weights, W w := by
    intro tile chunk rest ht hp w hw
    rcases Tile.mem_weights_insert hw with hw | hw
    · exact hp w (Samples.mem_weights_append.mpr (.inl hw))
    · exact ht w hw
  have behind_weights : ∀ {chunk rest : Samples}, (∀ w ∈ (chunk ++ rest).weights, W w) →
      ∀ w ∈ rest.weights, W w :=
    fun hp w hw => hp w (Samples.mem_weights_append.mpr (.inr hw))
  cases step with
  | @raise root tree pending n regular tight =>
      have low : -1074 ≤ root.level := wf.low
      have all := CellTree.raise_induct (e := Tile.new) (n := n + 1)
        (motive := fun t c => -1074 ≤ c.level ∧ t.EachLabel (fun i a => Sound W i a.samples) c) (by
        rintro t c top ⟨low, labels⟩
        have level : c.up.level = c.level + 1 := rfl
        have reg : Regular c := ⟨low, by omega⟩
        have above : Regular c.up := ⟨by omega, top⟩
        exact ⟨by omega, labels.hoist (.empty W _) (labels.label.up reg above)⟩) regular.2
        ⟨low, h.labels⟩
      exact ⟨all.2, h.pending⟩
  | @fill tile stale chunk rest inside past fits =>
      have leafy := CellTree.eachLeaf_leaf.mp wf'.leaves
      refine ⟨CellTree.eachLabel_leaf.mpr ⟨leafy.ascending, leafy.inside, ?_⟩,
        behind_weights h.pending⟩
      exact merged h.labels.label.weights h.pending
  | @reroot root tile s stale chunk rest inside past regular tight has grown long =>
      have old := CellTree.eachLeaf_leaf.mp wf.leaves
      have fed : Fed root (tile.insert chunk).samples := by
        refine ⟨wf.ascending.of_append.1.overwrite old.ascending, has, fun t ht => ?_⟩
        rcases Tile.mem_times_insert.mp ht with ht | ht
        · exact (wf.double t (Samples.mem_times_append.mpr (.inl ht))).1
        · exact (old.double t ht).1
      exact ⟨grown.sound up nonneg regular fed (merged h.labels.label.weights h.pending),
        behind_weights h.pending⟩
  | @insert root ti tree tile s stale chunk rest regular leaf inside past grown =>
      have reg : Regular ti := wf.regular_of_sub regular leaf
      have old := wf.leaves ti tile (CellTree.mem_leaves.mpr leaf)
      have weights := (h.labels ti tile (by rw [CellTree.get, leaf]; rfl)).weights
      have fed : Fed ti (tile.insert chunk).samples := by
        refine ⟨wf.ascending.of_append.1.overwrite old.ascending, fun t ht => ?_, fun t ht => ?_⟩
        · rcases Tile.mem_times_insert.mp ht with ht | ht
          · exact inside t ht
          · exact (reg.containsTime_iff t).mp (old.inside t ht)
        · rcases Tile.mem_times_insert.mp ht with ht | ht
          · exact (wf.double t (Samples.mem_times_append.mpr (.inl ht))).1
          · exact (old.double t ht).1
      exact ⟨h.labels.graft leaf (grown.sound up nonneg reg fed (merged weights h.pending)),
        behind_weights h.pending⟩
  | @regenerate root w tree parent a l r stale pending node combined =>
      have reg : Regular w := wf.regular_of_sub (wf.regular_of_node node) node
      obtain ⟨-, hl, hr⟩ := CellTree.eachLabel_node.mp (h.labels.sub node)
      refine ⟨h.labels.graft node (CellTree.eachLabel_node.mpr ⟨?_, hl, hr⟩), h.pending⟩
      exact createParent_sound reg.spans up (fun w hw => nonneg w (hl.label.weights w hw))
        (fun w hw => nonneg w (hr.label.weights w hw)) combined

end Step
end Mio.Datastore
