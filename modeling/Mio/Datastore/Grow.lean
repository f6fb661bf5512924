import Mio.Lib.CellTree
import Mio.Datastore.Combine
import Mio.Datastore.Channel

/-! The tree that `split_tile_if_needed` makes of one tile. -/
namespace Mio.Datastore

abbrev TileTree := CellTree ExactTile

/-- An inner tile is what its two children, as they are, combine to. -/
def Consistent (ti : TileIndex) (parent left right : ExactTile) : Prop :=
  (createParentTileFromChildren ti .new left right : Outcome Failure _) = .ret parent

/-- Sorted and inside the interval of the tile, with weights of the kind `W`. -/
structure Sound (W : ℚ → Prop) (ti : TileIndex) (u : Samples) : Prop where
  ascending : u.Ascending
  inside : ∀ t ∈ u.times, ti.containsTime t
  weights : ∀ w ∈ u.weights, W w

theorem createParent_congr {ε : Type} {ti : TileIndex} {t t' left right : ExactTile}
    (h : t.header = t'.header) :
    (createParentTileFromChildren ti t left right : Outcome ε _) =
      createParentTileFromChildren ti t' left right := by
  unfold createParentTileFromChildren
  rw [h]

theorem createParent_silent {ε : Type} (ti : TileIndex) (t left right : ExactTile) :
    Outcome.Silent (createParentTileFromChildren ti t left right : Outcome ε _) := by
  refine .bind (combineSamples_silent _ _ _ _) fun _ => .bind .assert fun _ => ?_
  exact .bind (combineSamples_silent _ _ _ _) fun _ => .bind .assert fun _ => .ret _

theorem createParent_ret {ε : Type} {ti : TileIndex} {t p left right : ExactTile}
    (h : (createParentTileFromChildren ti t left right : Outcome ε _) = .ret p) :
    (combineSamples channelDoubleSamples ti left.doubleSamples right.doubleSamples : Outcome ε _) =
        .ret p.doubleSamples ∧
      (combineSamples channelStringSamples ti left.stringSamples right.stringSamples : Outcome ε _) =
        .ret p.stringSamples ∧
      p.ranges = left.ranges.add right.ranges ∧ p.header = t.header := by
  simp only [createParentTileFromChildren] at h
  obtain ⟨doubles, hd, h⟩ := Outcome.bind_eq_ret.mp h
  obtain ⟨_, -, h⟩ := Outcome.bind_eq_ret.mp h
  obtain ⟨strings, hs, h⟩ := Outcome.bind_eq_ret.mp h
  obtain ⟨_, -, h⟩ := Outcome.bind_eq_ret.mp h
  cases h
  exact ⟨hd, hs, rfl, rfl⟩

theorem createParent_sound {ε : Type} {W : ℚ → Prop} {ti : TileIndex} {t p left right : ExactTile}
    (spans : Spans ti) (up : ∀ w, 0 < w → W w)
    (hl : ∀ w ∈ left.samples.weights, 0 ≤ w) (hr : ∀ w ∈ right.samples.weights, 0 ≤ w)
    (h : (createParentTileFromChildren ti t left right : Outcome ε _) = .ret p) :
    Sound W ti p.samples := by
  obtain ⟨hd, hs, -, -⟩ := createParent_ret h
  have doubles := combineSamples_ret (by decide) spans (by
    intro s mem
    rcases List.mem_append.mp mem with mem | mem
    · exact hl _ (Samples.mem_weights.mpr (.inl ⟨s, mem, rfl⟩))
    · exact hr _ (Samples.mem_weights.mpr (.inl ⟨s, mem, rfl⟩))) hd
  have strings := combineSamples_ret (by decide) spans (by
    intro s mem
    rcases List.mem_append.mp mem with mem | mem
    · exact hl _ (Samples.mem_weights.mpr (.inr ⟨s, mem, rfl⟩))
    · exact hr _ (Samples.mem_weights.mpr (.inr ⟨s, mem, rfl⟩))) hs
  refine ⟨⟨doubles.1.imp le_of_lt, strings.1.imp le_of_lt⟩, ?_, ?_⟩
  · intro x mem
    rcases Samples.mem_times.mp mem with ⟨s, hs, rfl⟩ | ⟨s, hs, rfl⟩
    · exact (doubles.2 s hs).1
    · exact (strings.2 s hs).1
  · intro w mem
    rcases Samples.mem_weights.mp mem with ⟨s, hs, rfl⟩ | ⟨s, hs, rfl⟩
    · exact up _ (doubles.2 s hs).2
    · exact up _ (strings.2 s hs).2

theorem createParent_done {ε : Type} {ti : TileIndex} {left right : ExactTile} (t : ExactTile)
    (spans : Spans ti) (hl : Sound (0 < ·) ti left.samples) (hr : Sound (0 < ·) ti right.samples) :
    ∃ p, (createParentTileFromChildren ti t left right : Outcome ε _) = .ret p := by
  obtain ⟨doubles, hd, fd⟩ := combineSamples_done (ε := ε) (n := channelDoubleSamples)
    (l := left.doubleSamples) (r := right.doubleSamples) (by decide) spans (by
      intro s mem
      rcases List.mem_append.mp mem with mem | mem
      · exact ⟨hl.inside _ (Samples.mem_times.mpr (.inl ⟨s, mem, rfl⟩)),
          hl.weights _ (Samples.mem_weights.mpr (.inl ⟨s, mem, rfl⟩))⟩
      · exact ⟨hr.inside _ (Samples.mem_times.mpr (.inl ⟨s, mem, rfl⟩)),
          hr.weights _ (Samples.mem_weights.mpr (.inl ⟨s, mem, rfl⟩))⟩)
  obtain ⟨strings, hs, fs⟩ := combineSamples_done (ε := ε) (n := channelStringSamples)
    (l := left.stringSamples) (r := right.stringSamples) (by decide) spans (by
      intro s mem
      rcases List.mem_append.mp mem with mem | mem
      · exact ⟨hl.inside _ (Samples.mem_times.mpr (.inr ⟨s, mem, rfl⟩)),
          hl.weights _ (Samples.mem_weights.mpr (.inr ⟨s, mem, rfl⟩))⟩
      · exact ⟨hr.inside _ (Samples.mem_times.mpr (.inr ⟨s, mem, rfl⟩)),
          hr.weights _ (Samples.mem_weights.mpr (.inr ⟨s, mem, rfl⟩))⟩)
  have full : ∀ {V : Type} {l r p : List (Sample V)}, (l ++ r ≠ [] → p ≠ []) →
      l.length + r.length = 0 ∨ p ≠ [] := by
    intro V l r p f
    by_cases ne : l ++ r = []
    · left
      simpa using congrArg List.length ne
    · exact .inr (f ne)
  exact ⟨_, by
    simp only [createParentTileFromChildren, hd, hs, Outcome.ret_bind, Outcome.assert_of (full fd),
      Outcome.assert_of (full fs)]
    rfl⟩

def contents : TileTree → Samples
  | .leaf a => a.samples
  | .node _ l r => contents l ++ contents r

def concat (l : List (TileIndex × ExactTile)) : Samples :=
  l.foldr (fun x u => x.2.samples ++ u) .empty

@[simp] theorem concat_nil : concat [] = .empty := rfl

@[simp] theorem concat_cons (x : TileIndex × ExactTile) (l : List (TileIndex × ExactTile)) :
    concat (x :: l) = x.2.samples ++ concat l := rfl

theorem concat_append (k l : List (TileIndex × ExactTile)) :
    concat (k ++ l) = concat k ++ concat l := by
  induction k with
  | nil => rfl
  | cons x k ih => rw [List.cons_append, concat_cons, ih, concat_cons, Samples.append_assoc]

theorem mem_times_concat {l : List (TileIndex × ExactTile)} {t : ℚ} :
    t ∈ (concat l).times ↔ ∃ x ∈ l, t ∈ x.2.samples.times := by
  induction l with
  | nil => simp
  | cons x l ih => simp [concat_cons, Samples.mem_times_append, ih]

theorem contents_eq (t : TileTree) (c : Cell) : contents t = concat (t.leaves c) := by
  induction t generalizing c with
  | leaf a => simp [contents, CellTree.leaves]
  | node a l r ihl ihr => rw [contents, CellTree.leaves, concat_append, ← ihl, ← ihr]

theorem contents_has {t : TileTree} {c : Cell}
    (h : t.EachLeaf (fun i a => ∀ x ∈ a.samples.times, i.Has x) c) :
    ∀ x ∈ (contents t).times, c.Has x := by
  induction t generalizing c with
  | leaf a => exact CellTree.eachLeaf_leaf.mp h
  | node a l r ihl ihr =>
      obtain ⟨hl, hr⟩ := CellTree.eachLeaf_node.mp h
      intro x hx
      rw [contents, Samples.mem_times_append] at hx
      rcases hx with hx | hx
      · exact Cell.has_of_lo (ihl hl x hx)
      · exact Cell.has_of_hi (ihr hr x hx)

theorem contents_ascending {t : TileTree} {c : Cell}
    (has : t.EachLeaf (fun i a => ∀ x ∈ a.samples.times, i.Has x) c)
    (asc : t.EachLeaf (fun _ a => a.samples.Ascending) c) : (contents t).Ascending := by
  induction t generalizing c with
  | leaf a => exact CellTree.eachLeaf_leaf.mp asc
  | node a l r ihl ihr =>
      obtain ⟨hasL, hasR⟩ := CellTree.eachLeaf_node.mp has
      obtain ⟨ascL, ascR⟩ := CellTree.eachLeaf_node.mp asc
      refine (ihl hasL ascL).append (ihr hasR ascR) ?_
      intro x hx y hy
      have low := (contents_has hasL x hx).2
      have high := (contents_has hasR y hy).1
      rw [Cell.lo_stop] at low
      exact low.le.trans high

/-- A graft exchanges one contiguous piece of the contents. -/
theorem contents_graft {t s₀ : TileTree} {c j : Cell} (h : t.sub c j = some s₀)
    (has : t.EachLeaf (fun i a => ∀ x ∈ a.samples.times, i.Has x) c) :
    ∃ a b : Samples, contents t = a ++ contents s₀ ++ b ∧
      (∀ s, contents (CellTree.graft s j t c) = a ++ contents s ++ b) ∧
      (∀ x ∈ a.times, x < j.start) ∧ ∀ x ∈ b.times, j.stop ≤ x := by
  obtain ⟨a, b, old, new, front, back⟩ := CellTree.leaves_graft h
  refine ⟨concat a, concat b, ?_, fun s => ?_, ?_, ?_⟩
  · rw [contents_eq t c, old, concat_append, concat_append, ← contents_eq]
  · rw [contents_eq _ c, new, concat_append, concat_append, ← contents_eq]
  · intro x hx
    obtain ⟨⟨i, tile⟩, mem, hx⟩ := mem_times_concat.mp hx
    have in_leaf := has i tile (by rw [old]; simp [mem]) x hx
    exact in_leaf.2.trans_le (front _ mem)
  · intro x hx
    obtain ⟨⟨i, tile⟩, mem, hx⟩ := mem_times_concat.mp hx
    have in_leaf := has i tile (by rw [old]; simp [mem]) x hx
    exact (back _ mem).trans in_leaf.1

theorem contents_hoist (a : ExactTile) (t : TileTree) (c : Cell) :
    contents (CellTree.hoist Tile.new a t c) = contents t := by
  rcases CellTree.hoist_cases Tile.new a t c with ⟨-, eq⟩ | ⟨-, eq⟩
  · rw [eq, contents, contents, Tile.samples_new, Samples.append_empty]
  · rw [eq, contents, contents, Tile.samples_new, Samples.empty_append]

theorem contents_raise (n : ℕ) (t : TileTree) (c : Cell) :
    contents (CellTree.raise Tile.new n t c) = contents t := by
  induction n generalizing t c with
  | zero => rfl
  | succ n ih => rw [CellTree.raise, ih, contents_hoist]

/-- `tile`, placed at `ti`, ends up as this tree once no leaf is longer than `limit`. -/
inductive Grown (limit : ℕ) : TileIndex → ExactTile → TileTree → Prop
  | leaf {ti tile} (fits : tile.binaryLength ≤ limit) : Grown limit ti tile (.leaf tile)
  | node {ti tile parent l r} (long : limit < tile.binaryLength)
      (left : Grown limit ti.lo (.ofSamples (tile.samples.before ti.hi.start)) l)
      (right : Grown limit ti.hi (.ofSamples (tile.samples.since ti.hi.start)) r)
      (combined : (createParentTileFromChildren ti tile l.label r.label : Outcome Failure _) =
        .ret parent) :
      Grown limit ti tile (.node parent l r)

namespace Grown

variable {limit : ℕ} {ti : TileIndex} {tile : ExactTile} {s : TileTree}

/-- Splitting moves samples and drops none. -/
theorem contents_eq (g : Grown limit ti tile s) : contents s = tile.samples := by
  induction g with
  | leaf fits => rfl
  | node long left right combined ihl ihr =>
      rw [contents, ihl, ihr, Tile.samples_ofSamples, Tile.samples_ofSamples,
        Samples.before_append_since]

/-- Every group of samples of one time ends up in one leaf. -/
theorem group_fits (g : Grown limit ti tile s) (asc : tile.samples.Ascending) (k : ℚ) :
    (tile.samples.at_ k).size ≤ limit := by
  induction g with
  | leaf fits => exact (Samples.size_at_le _ k).trans fits
  | @node ti tile parent l r long left right combined ihl ihr =>
      simp only [Tile.samples_ofSamples] at ihl ihr
      rcases lt_or_ge k ti.hi.start with lt | ge
      · rw [← Samples.at_before asc lt]
        exact ihl (asc.before _)
      · rw [← Samples.at_since ge]
        exact ihr (asc.since _)

theorem empty_fits (g : Grown limit ti tile s) (asc : tile.samples.Ascending) :
    Samples.empty.size ≤ limit :=
  (Samples.empty_size_le _).trans (g.group_fits asc 0)

theorem two_times {parent : ExactTile} {l r : TileTree}
    (g : Grown limit ti tile (.node parent l r)) (asc : tile.samples.Ascending) :
    ∃ a ∈ tile.samples.times, ∃ b ∈ tile.samples.times, a ≠ b := by
  by_contra one
  push Not at one
  obtain ⟨k, same⟩ := Samples.at_of_one_time one
  have fits := g.group_fits asc k
  rw [same] at fits
  cases g with
  | node long => exact absurd fits (not_le.mpr long)

theorem leaves_fit (g : Grown limit ti tile s) :
    s.EachLeaf (fun _ a => a.binaryLength ≤ limit) ti := by
  induction g with
  | leaf fits => exact CellTree.eachLeaf_leaf.mpr fits
  | node long left right combined ihl ihr => exact CellTree.eachLeaf_node.mpr ⟨ihl, ihr⟩

theorem nodes_long (g : Grown limit ti tile s) :
    s.EachNode (fun _ _ l r => limit < (contents l ++ contents r).size) ti := by
  induction g with
  | leaf fits => exact CellTree.eachNode_leaf
  | node long left right combined ihl ihr =>
      refine CellTree.eachNode_node.mpr ⟨?_, ihl, ihr⟩
      rw [left.contents_eq, right.contents_eq, Tile.samples_ofSamples, Tile.samples_ofSamples,
        Samples.before_append_since]
      exact long

theorem headers (g : Grown limit ti tile s) (header : tile.header = Tile.new.header) :
    s.EachLabel (fun _ a => a.header = Tile.new.header) ti := by
  induction g with
  | leaf fits => exact CellTree.eachLabel_leaf.mpr header
  | node long left right combined ihl ihr =>
      refine CellTree.eachLabel_node.mpr ⟨?_, ihl rfl, ihr rfl⟩
      rw [(createParent_ret combined).2.2.2, header]

theorem consistent (g : Grown limit ti tile s) (header : tile.header = Tile.new.header) :
    s.EachNode (fun i a l r => Consistent i a l.label r.label) ti := by
  induction g with
  | leaf fits => exact CellTree.eachNode_leaf
  | node long left right combined ihl ihr =>
      refine CellTree.eachNode_node.mpr ⟨?_, ihl rfl, ihr rfl⟩
      rw [createParent_congr header] at combined
      exact combined

end Grown

/-- A level at which cells behave as intervals between finite doubles. -/
def Regular (ti : TileIndex) : Prop := -1074 ≤ ti.level ∧ ti.level ≤ TileIndex.topLevel

namespace Regular

variable {ti : TileIndex}

theorem not_null (h : Regular ti) : ¬ ti.isNull :=
  TileIndex.not_isNull_of_level (lt_of_lt_of_le (by decide) h.1)

theorem lt_intMax (h : Regular ti) : ti.level < TileIndex.intMax :=
  lt_of_le_of_lt h.2 (by decide)

theorem all_not_under (h : Regular ti) : ¬ TileIndex.nonnegativeAll.Under ti :=
  fun under => absurd under.level_le (not_le.mpr h.lt_intMax)

theorem not_all (h : Regular ti) : ti ≠ .nonnegativeAll := by
  rintro rfl
  exact h.all_not_under (.refl _)

theorem not_all_below {n : ℕ} (h : Regular (Cell.up^[n] ti)) : ti ≠ .nonnegativeAll := by
  rintro rfl
  exact h.all_not_under ⟨n, rfl⟩

theorem containsTime_iff (h : Regular ti) (t : ℚ) : ti.containsTime t ↔ ti.Has t :=
  TileIndex.containsTime_iff h.not_null h.lt_intMax t

theorem spans (h : Regular ti) : Spans ti := spans_of h.not_null h.lt_intMax

theorem lo (h : Regular ti) (deep : -1074 < ti.level) : Regular ti.lo :=
  ⟨show -1074 ≤ ti.level - 1 by omega, show ti.level - 1 ≤ _ from (sub_le_self _ (by decide)).trans h.2⟩

theorem hi (h : Regular ti) (deep : -1074 < ti.level) : Regular ti.hi := h.lo deep

end Regular

structure Fed (ti : TileIndex) (u : Samples) : Prop where
  ascending : u.Ascending
  has : ∀ t ∈ u.times, ti.Has t
  double : ∀ t ∈ u.times, IsDouble t

namespace Fed

variable {ti : TileIndex} {u : Samples}

theorem before (h : Fed ti u) : Fed ti.lo (u.before ti.hi.start) := by
  refine ⟨h.ascending.before _, ?_, ?_⟩
  · intro t ht
    exact Cell.has_lo (h.has t ((Samples.mem_times_split _).mpr (.inl ht)))
      (Samples.lt_of_mem_before ht)
  · exact fun t ht => h.double t ((Samples.mem_times_split _).mpr (.inl ht))

theorem since (h : Fed ti u) : Fed ti.hi (u.since ti.hi.start) := by
  refine ⟨h.ascending.since _, ?_, ?_⟩
  · intro t ht
    exact Cell.has_hi (h.has t ((Samples.mem_times_split _).mpr (.inr ht)))
      (h.ascending.le_of_mem_since ht)
  · exact fun t ht => h.double t ((Samples.mem_times_split _).mpr (.inr ht))

/-- Two finite doubles fit into a cell only above the finest level. -/
theorem deep (h : Fed ti u) {a b : ℚ} (ha : a ∈ u.times) (hb : b ∈ u.times) (ne : a ≠ b) :
    -1074 < ti.level := by
  wlog lt : a < b generalizing a b
  · exact this hb ha ne.symm (lt_of_le_of_ne (not_lt.mp lt) ne.symm)
  have gap := (h.double a ha).gap (h.double b hb) lt
  have room := Cell.Has.abs_sub_lt (h.has a ha) (h.has b hb)
  exact (zpow_lt_zpow_iff_right₀ (by norm_num : (1 : ℚ) < 2)).mp (gap.trans_lt room)

end Fed

namespace Grown

variable {limit : ℕ} {ti : TileIndex} {tile : ExactTile} {s : TileTree}

theorem leaves_fed (g : Grown limit ti tile s) (fed : Fed ti tile.samples) :
    s.EachLeaf (fun i a => Fed i a.samples) ti := by
  induction g with
  | leaf fits => exact CellTree.eachLeaf_leaf.mpr fed
  | node long left right combined ihl ihr =>
      refine CellTree.eachLeaf_node.mpr ⟨ihl ?_, ihr ?_⟩
      · rw [Tile.samples_ofSamples]
        exact fed.before
      · rw [Tile.samples_ofSamples]
        exact fed.since

theorem nodes_deep (g : Grown limit ti tile s) (fed : Fed ti tile.samples) :
    s.EachNode (fun i _ _ _ => -1074 < i.level) ti := by
  induction g with
  | leaf fits => exact CellTree.eachNode_leaf
  | node long left right combined ihl ihr =>
      obtain ⟨a, ha, b, hb, ne⟩ := two_times (.node long left right combined) fed.ascending
      refine CellTree.eachNode_node.mpr ⟨fed.deep ha hb ne, ihl ?_, ihr ?_⟩
      · rw [Tile.samples_ofSamples]
        exact fed.before
      · rw [Tile.samples_ofSamples]
        exact fed.since

theorem sound {W : ℚ → Prop} (up : ∀ w, 0 < w → W w) (nonneg : ∀ w, W w → 0 ≤ w)
    (g : Grown limit ti tile s) (regular : Regular ti) (fed : Fed ti tile.samples)
    (weights : ∀ w ∈ tile.samples.weights, W w) :
    s.EachLabel (fun i a => Sound W i a.samples) ti := by
  induction g with
  | leaf fits =>
      refine CellTree.eachLabel_leaf.mpr ⟨fed.ascending, ?_, weights⟩
      exact fun t ht => (regular.containsTime_iff t).mpr (fed.has t ht)
  | @node ti tile parent l r long left right combined ihl ihr =>
      obtain ⟨a, ha, b, hb, ne⟩ := two_times (.node long left right combined) fed.ascending
      have deep := fed.deep ha hb ne
      simp only [Tile.samples_ofSamples] at ihl ihr
      have hl := ihl (regular.lo deep) fed.before
        fun w hw => weights w ((Samples.mem_weights_split _).mpr (.inl hw))
      have hr := ihr (regular.hi deep) fed.since
        fun w hw => weights w ((Samples.mem_weights_split _).mpr (.inr hw))
      refine CellTree.eachLabel_node.mpr ⟨?_, hl, hr⟩
      exact createParent_sound regular.spans up (fun w hw => nonneg w (hl.label.weights w hw))
        (fun w hw => nonneg w (hr.label.weights w hw)) combined

/-- Growth ends as soon as the samples of each time fit into a leaf. -/
theorem total {ti : TileIndex} {tile : ExactTile} (regular : Regular ti)
    (fed : Fed ti tile.samples) (weights : ∀ w ∈ tile.samples.weights, 0 < w)
    (groups : ∀ k, (tile.samples.at_ k).size ≤ limit) : ∃ s, Grown limit ti tile s := by
  obtain ⟨n, hn⟩ : ∃ n : ℕ, ti.level = n - 1074 := ⟨(ti.level + 1074).toNat, by have := regular.1; omega⟩
  induction n generalizing ti tile with
  | zero =>
      -- at the finest level at most one time is left
      refine ⟨_, .leaf ?_⟩
      by_contra long
      have one : ∀ a ∈ tile.samples.times, ∀ b ∈ tile.samples.times, a = b := by
        intro a ha b hb
        by_contra ne
        have := fed.deep ha hb ne
        omega
      obtain ⟨k, same⟩ := Samples.at_of_one_time one
      have fits := groups k
      rw [same] at fits
      exact long fits
  | succ n ih =>
      by_cases fits : tile.binaryLength ≤ limit
      · exact ⟨_, .leaf fits⟩
      · have deep : -1074 < ti.level := by omega
        have before : (tile.samples.before ti.hi.start).weights ⊆ tile.samples.weights :=
          fun w hw => (Samples.mem_weights_split _).mpr (.inl hw)
        have since : (tile.samples.since ti.hi.start).weights ⊆ tile.samples.weights :=
          fun w hw => (Samples.mem_weights_split _).mpr (.inr hw)
        have down : ti.level - 1 = n - 1074 := by
          push_cast at hn
          omega
        obtain ⟨l, gl⟩ := @ih ti.lo (.ofSamples (tile.samples.before ti.hi.start))
          (regular.lo deep) (by rw [Tile.samples_ofSamples]; exact fed.before)
          (by rw [Tile.samples_ofSamples]; exact fun w hw => weights w (before hw))
          (by
            intro k
            rw [Tile.samples_ofSamples]
            refine le_trans (Samples.size_mono ?_ ?_) (groups k)
            · exact (List.takeWhile_sublist _).filter _
            · exact (List.takeWhile_sublist _).filter _) down
        obtain ⟨r, gr⟩ := @ih ti.hi (.ofSamples (tile.samples.since ti.hi.start))
          (regular.hi deep) (by rw [Tile.samples_ofSamples]; exact fed.since)
          (by rw [Tile.samples_ofSamples]; exact fun w hw => weights w (since hw))
          (by
            intro k
            rw [Tile.samples_ofSamples]
            refine le_trans (Samples.size_mono ?_ ?_) (groups k)
            · exact (List.dropWhile_sublist _).filter _
            · exact (List.dropWhile_sublist _).filter _) down
        have pos : ∀ w : ℚ, 0 < w → 0 < w := fun _ h => h
        have sl := gl.sound (W := (0 < ·)) pos (fun _ h => h.le) (regular.lo deep)
          (by rw [Tile.samples_ofSamples]; exact fed.before)
          (by rw [Tile.samples_ofSamples]; exact fun w hw => weights w (before hw))
        have sr := gr.sound (W := (0 < ·)) pos (fun _ h => h.le) (regular.hi deep)
          (by rw [Tile.samples_ofSamples]; exact fed.since)
          (by rw [Tile.samples_ofSamples]; exact fun w hw => weights w (since hw))
        have inside : ∀ {i : TileIndex} {u : Samples}, Regular i → i.Under ti → Sound (0 < ·) i u →
            Sound (0 < ·) ti u := by
          intro i u reg under h
          refine ⟨h.ascending, fun t ht => ?_, h.weights⟩
          exact (regular.containsTime_iff t).mpr (under.has ((reg.containsTime_iff t).mp (h.inside t ht)))
        obtain ⟨p, hp⟩ := createParent_done (ε := Failure) tile regular.spans
          (inside (regular.lo deep) (.lo ti) sl.label) (inside (regular.hi deep) (.hi ti) sr.label)
        exact ⟨_, .node (not_le.mp fits) gl gr hp⟩

end Grown

end Mio.Datastore
