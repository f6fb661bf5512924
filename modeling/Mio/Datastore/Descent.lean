import Mio.Datastore.Step

/-! `find_lowest_child_overlapping_time` on a store that holds a tree: the search ends in the leaf
that `CellTree.reach` names. -/
namespace Mio.Datastore

namespace Kvs

/-- Below `i` the store holds exactly the tree `s`. -/
def Holds (kvs : Kvs) (s : TileTree) (i : TileIndex) : Prop :=
  ∀ j : TileIndex, j.Under i → kvs.tiles j = s.get i j

theorem Holds.lo {kvs : Kvs} {a : ExactTile} {l r : TileTree} {i : TileIndex}
    (h : kvs.Holds (.node a l r) i) : kvs.Holds l i.lo := by
  intro j under
  rw [h j (under.trans (.lo i)), CellTree.get, CellTree.sub_node_lo under]
  rfl

theorem Holds.hi {kvs : Kvs} {a : ExactTile} {l r : TileTree} {i : TileIndex}
    (h : kvs.Holds (.node a l r) i) : kvs.Holds r i.hi := by
  intro j under
  rw [h j (under.trans (.hi i)), CellTree.get, CellTree.sub_node_hi under]
  rfl

theorem Holds.sub {kvs : Kvs} {t s : TileTree} {i j : TileIndex} (h : kvs.Holds t i)
    (hs : t.sub i j = some s) : kvs.Holds s j := by
  intro k under
  rw [h k (under.trans (CellTree.under_of_sub hs)), CellTree.get, CellTree.sub_sub hs under]
  rfl

theorem hasTile_of_some {kvs : Kvs} {ti : TileIndex} {tile : ExactTile}
    (h : kvs.tiles ti = some tile) : kvs.hasTile ti := by
  simp [hasTile, h]

theorem not_hasTile {kvs : Kvs} {ti : TileIndex} (h : kvs.tiles ti = none) : ¬ kvs.hasTile ti := by
  simp [hasTile, h]

theorem readTile_of_some {kvs : Kvs} {ti : TileIndex} {tile : ExactTile}
    (h : kvs.tiles ti = some tile) : kvs.readTile ti = .ret tile := by
  simp [readTile, h]

theorem readTile_ret {kvs : Kvs} {ti : TileIndex} {tile : ExactTile}
    (h : kvs.readTile ti = .ret tile) : kvs.tiles ti = some tile := by
  unfold readTile at h
  split at h
  · next eq =>
      cases h
      exact eq
  · cases h

theorem readTile_silent (kvs : Kvs) (ti : TileIndex) : Outcome.Silent (kvs.readTile ti) := by
  unfold readTile
  split
  · exact .ret _
  · exact .abort _

theorem readInfo_silent (kvs : Kvs) : Outcome.Silent kvs.readInfo := by
  unfold readInfo
  split
  · exact .bind .assert fun _ => .ret _
  · exact .ret _

/-- Room for children that are no sentinels. -/
theorem ordinary_lo {i : TileIndex} (h : Regular i) : ¬ TileIndex.isNull i.lo ∧ i.lo.level < TileIndex.intMax := by
  have low := h.1
  have high := h.lt_intMax
  refine ⟨TileIndex.not_isNull_of_level ?_, ?_⟩
  · simp only [Cell.lo, TileIndex.intMin]
    omega
  · simp only [Cell.lo]
    omega

theorem ordinary_hi {i : TileIndex} (h : Regular i) : ¬ TileIndex.isNull i.hi ∧ i.hi.level < TileIndex.intMax :=
  ⟨TileIndex.not_isNull_hi i, (ordinary_lo h).2⟩

theorem childTowards_eq {i : TileIndex} (h : Regular i) (t : ℚ) :
    childTowards i t = if t < Cell.stop i.lo then i.lo else i.hi := by
  rw [childTowards, TileIndex.leftChild_eq h.lt_intMax, TileIndex.rightChild_eq h.lt_intMax,
    TileIndex.endTime_eq (ordinary_lo h).1 (ordinary_lo h).2]

theorem childTowards_not_null {i : TileIndex} (h : Regular i) (t : ℚ) :
    ¬ (childTowards i t).isNull := by
  rw [childTowards_eq h]
  split
  · exact (ordinary_lo h).1
  · exact (ordinary_hi h).1

/-- The all-tile has no children: both are the null index. -/
theorem childTowards_all (t : ℚ) : (childTowards .nonnegativeAll t).isNull := by
  unfold childTowards
  split
  · rw [TileIndex.isNull_leftChild_all]
    exact TileIndex.isNull_iff.mpr rfl
  · rw [TileIndex.isNull_rightChild_all]
    exact TileIndex.isNull_iff.mpr rfl

section Descend
variable {kvs : Kvs} {s : TileTree} {i : TileIndex}

theorem stop_at_leaf {a : ExactTile} (regular : Regular i) (holds : kvs.Holds (.leaf a) i) (t : ℚ) :
    (childTowards i t).isNull ∨ ¬ kvs.hasTile (childTowards i t) := by
  right
  apply not_hasTile
  rw [childTowards_eq regular]
  split
  · rw [holds _ (.lo i), CellTree.get, CellTree.sub_leaf_none (Cell.lo_ne i)]
    rfl
  · rw [holds _ (.hi i), CellTree.get, CellTree.sub_leaf_none (Cell.hi_ne i)]
    rfl

theorem go_on_at_node {a : ExactTile} {l r : TileTree} (regular : Regular i)
    (holds : kvs.Holds (.node a l r) i) (t : ℚ) :
    ¬ ((childTowards i t).isNull ∨ ¬ kvs.hasTile (childTowards i t)) := by
  rintro (null | absent)
  · exact childTowards_not_null regular t null
  · refine absent ?_
    rw [childTowards_eq regular]
    split
    · refine hasTile_of_some (?_ : kvs.tiles i.lo = some l.label)
      rw [holds.lo _ (.refl _), CellTree.get_self]
    · refine hasTile_of_some (?_ : kvs.tiles i.hi = some r.label)
      rw [holds.hi _ (.refl _), CellTree.get_self]

theorem search_stops {t : ℚ} (absent : ¬ kvs.hasTile (childTowards i t)) :
    Outcome.Reaches (fun fuel => kvs.descendLowest t fuel i) i := by
  refine .step (fun fuel => ?_) (.pure i)
  rw [descendLowest_succ, if_pos (.inr absent)]
  rfl

theorem childTowards_up {j : TileIndex} {t : ℚ} (regular : Regular j.up) (has : j.Has t) :
    childTowards j.up t = j := by
  rw [childTowards_eq regular]
  rcases Cell.eq_lo_or_hi (c := j.up) rfl with lo | hi
  · rw [← lo, if_pos has.2]
  · rw [if_neg, ← hi]
    rw [Cell.lo_stop, ← hi]
    exact not_lt.mpr has.1

/-- A search for a time passes through every stored cell that has it. -/
theorem search_along {j r : TileIndex} {t : ℚ} (under : j.Under i) (has : j.Has t) (low : Regular j)
    (high : Regular i) (path : ∀ k : TileIndex, j.Under k → k.Under i → kvs.hasTile k)
    (h : Outcome.Reaches (fun fuel => kvs.descendLowest t fuel j) r) :
    Outcome.Reaches (fun fuel => kvs.descendLowest t fuel i) r := by
  obtain ⟨n, rfl⟩ := under
  induction n generalizing j with
  | zero => exact h
  | succ n ih =>
      have level := Cell.iter_up_level (n + 1) j
      have up : Regular j.up := by
        have top := high.2
        have bottom := low.1
        simp only [level] at top
        refine ⟨?_, ?_⟩ <;> simp only [Cell.up] <;> push_cast at top <;> omega
      have next := childTowards_up up has
      refine ih (Cell.has_up has) up ?_ high fun k under => path k ((Cell.Under.up j).trans under)
      refine .step (y := fun fuel => kvs.descendLowest t fuel j) (fun fuel => ?_) h
      have here : kvs.hasTile j := path j (.refl j) ⟨n + 1, rfl⟩
      have go : ¬ ((childTowards j.up t).isNull ∨ ¬ kvs.hasTile (childTowards j.up t)) := by
        rw [next]
        exact fun bad => bad.elim low.not_null fun absent => absent here
      rw [descendLowest_succ, if_neg go, next]

theorem descendLowest_cases (regular : Regular i)
    (deep : s.EachNode (fun i _ _ _ => -1074 < i.level) i) (holds : kvs.Holds s i) (t : ℚ) (fuel : ℕ) :
    kvs.descendLowest t fuel i = .timeout ∨ kvs.descendLowest t fuel i = .ret (s.reach i t).1 := by
  induction s generalizing i fuel with
  | leaf a =>
      cases fuel with
      | zero => exact .inl rfl
      | succ fuel =>
          right
          rw [descendLowest_succ, if_pos (stop_at_leaf regular holds t)]
          rfl
  | node a l r ihl ihr =>
      cases fuel with
      | zero => exact .inl rfl
      | succ fuel =>
          obtain ⟨here, deepL, deepR⟩ := CellTree.eachNode_node.mp deep
          rw [descendLowest_succ, if_neg (go_on_at_node regular holds t), childTowards_eq regular,
            CellTree.reach]
          split
          · exact ihl (regular.lo here) deepL holds.lo fuel
          · exact ihr (regular.hi here) deepR holds.hi fuel

theorem descendLowest_reaches (regular : Regular i)
    (deep : s.EachNode (fun i _ _ _ => -1074 < i.level) i) (holds : kvs.Holds s i) (t : ℚ) :
    Outcome.Reaches (fun fuel => kvs.descendLowest t fuel i) (s.reach i t).1 := by
  induction s generalizing i with
  | leaf a =>
      refine .step (fun fuel => ?_) (.pure i)
      rw [descendLowest_succ, if_pos (stop_at_leaf regular holds t)]
      rfl
  | node a l r ihl ihr =>
      obtain ⟨here, deepL, deepR⟩ := CellTree.eachNode_node.mp deep
      refine .step (y := fun fuel => kvs.descendLowest t fuel (childTowards i t)) (fun fuel => ?_) ?_
      · rw [descendLowest_succ, if_neg (go_on_at_node regular holds t)]
      · rw [childTowards_eq regular, CellTree.reach]
        split
        · exact ihl (regular.lo here) deepL holds.lo
        · exact ihr (regular.hi here) deepR holds.hi

end Descend

theorem descendLowest_silent (kvs : Kvs) (t : ℚ) (fuel : ℕ) (ti : TileIndex) :
    Outcome.Silent (kvs.descendLowest t fuel ti) := by
  induction fuel generalizing ti with
  | zero => exact .timeout
  | succ fuel ih =>
      rw [descendLowest_succ]
      split
      · exact .ret _
      · exact ih _

theorem findLowest_silent (kvs : Kvs) (fuel : ℕ) (ti : TileIndex) (t : ℚ) :
    Outcome.Silent (kvs.findLowestChildOverlappingTime fuel ti t) := by
  rw [findLowest_eq]
  exact .bind .assert fun _ => descendLowest_silent _ _ _ _

theorem findLowest_ret {kvs : Kvs} {p : Progress} {fuel : ℕ} {t : ℚ} {ti : TileIndex} (wf : p.Wf)
    (holds : kvs.Holds p.tree p.root)
    (h : kvs.findLowestChildOverlappingTime fuel p.root t = .ret ti) :
    ti = (p.tree.reach p.root t).1 := by
  rw [findLowest_eq] at h
  obtain ⟨_, -, run⟩ := Outcome.bind_eq_ret.mp h
  rcases wf.shape with ⟨all, tile, eq⟩ | ⟨regular, -⟩
  · cases fuel with
    | zero => cases run
    | succ fuel =>
        rw [descendLowest_succ, all, if_pos (.inl (childTowards_all t))] at run
        cases run
        rw [eq, all]
        rfl
  · rcases descendLowest_cases regular wf.deep holds t fuel with none | some
    · rw [none] at run
      cases run
    · rw [some] at run
      cases run
      rfl

/-- The search below the all-tile ends where it begins. -/
theorem findLowest_all (kvs : Kvs) (t : ℚ) :
    Outcome.Reaches (fun fuel => kvs.findLowestChildOverlappingTime fuel .nonnegativeAll t)
      TileIndex.nonnegativeAll := by
  have some : ¬ TileIndex.isNull .nonnegativeAll := by decide
  simp only [findLowest_eq]
  refine .bind (.of_ret fun _ => Outcome.assert_of some _) (.step (fun fuel => ?_) (.pure _))
  rw [descendLowest_succ, if_pos (.inl (childTowards_all t))]
  rfl

theorem findLowest_reaches {kvs : Kvs} {p : Progress} (wf : p.Wf) (holds : kvs.Holds p.tree p.root)
    (t : ℚ) : Outcome.Reaches (fun fuel => kvs.findLowestChildOverlappingTime fuel p.root t)
      (p.tree.reach p.root t).1 := by
  rcases wf.shape with ⟨all, tile, eq⟩ | ⟨regular, -⟩
  · rw [eq, all]
    exact findLowest_all kvs t
  · simp only [findLowest_eq]
    refine .bind (.of_ret fun _ => Outcome.assert_of regular.not_null _) ?_
    exact descendLowest_reaches regular wf.deep holds t

end Kvs
end Mio.Datastore
