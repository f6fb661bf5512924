import Mio.Datastore.TimeBounds

/-! The value range of the root tile. Ranges only widen while a tile takes samples, and a split
builds them anew from the samples that are left: the root is exact when no bound of an unsplit leaf
outlives the values behind it. -/
namespace Mio.Datastore

/-- The samples of a batch that a tile's interval contains. -/
def Samples.inside (u : Samples) (ti : TileIndex) : Samples :=
  ⟨u.doubles.filter fun s => ti.containsTime s.time, u.strings.filter fun s => ti.containsTime s.time⟩

/-- The tile with its part of the batch still fits, so that it is not split. -/
def Whole (limit : ℕ) (batch : Samples) (ti : TileIndex) (tile : ExactTile) : Prop :=
  (Samples.overwrite (batch.inside ti) tile.samples).size ≤ limit

namespace Samples

variable {u v : Samples} {ti : TileIndex}

theorem inside_append (u v : Samples) (ti : TileIndex) :
    (u ++ v).inside ti = u.inside ti ++ v.inside ti := by
  ext1
  · exact List.filter_append _ _
  · exact List.filter_append _ _

theorem inside_of_forall (h : ∀ t ∈ u.times, ti.containsTime t) : u.inside ti = u := by
  ext1
  · apply List.filter_eq_self.mpr
    intro s hs
    exact decide_eq_true (h _ (mem_times.mpr (.inl ⟨s, hs, rfl⟩)))
  · apply List.filter_eq_self.mpr
    intro s hs
    exact decide_eq_true (h _ (mem_times.mpr (.inr ⟨s, hs, rfl⟩)))

theorem inside_of_none (h : ∀ t ∈ u.times, ¬ ti.containsTime t) : u.inside ti = .empty := by
  ext1
  · apply List.filter_eq_nil_iff.mpr
    intro s hs inside
    exact h _ (mem_times.mpr (.inl ⟨s, hs, rfl⟩)) (of_decide_eq_true inside)
  · apply List.filter_eq_nil_iff.mpr
    intro s hs inside
    exact h _ (mem_times.mpr (.inr ⟨s, hs, rfl⟩)) (of_decide_eq_true inside)

/-- A chunk of a batch that is all inside, with a rest that is all outside. -/
theorem inside_chunk (chunk : ∀ t ∈ u.times, ti.containsTime t)
    (rest : ∀ t ∈ v.times, ¬ ti.containsTime t) :
    v.inside ti = .empty ∧ (u ++ v).inside ti = u := by
  have none := inside_of_none rest
  refine ⟨none, ?_⟩
  rw [inside_append, none, append_empty, inside_of_forall chunk]

theorem mem_values {x : ℚ} : x ∈ u.values ↔ ∃ s ∈ u.doubles, s.value = x := List.mem_map

theorem mem_values_append {x : ℚ} : x ∈ (u ++ v).values ↔ x ∈ u.values ∨ x ∈ v.values := by
  simp only [values, append_doubles, List.map_append, List.mem_append]

theorem mem_values_overwrite {x : ℚ} (h : x ∈ (overwrite u v).values) : x ∈ u.values ∨ x ∈ v.values := by
  obtain ⟨s, hs, rfl⟩ := mem_values.mp h
  exact (mem_overwrite hs).imp (fun mem => mem_values.mpr ⟨s, mem, rfl⟩)
    fun mem => mem_values.mpr ⟨s, mem, rfl⟩

theorem values_new {x : ℚ} (h : x ∈ u.values) : x ∈ (overwrite u v).values := by
  obtain ⟨s, hs, rfl⟩ := mem_values.mp h
  exact mem_values.mpr ⟨s, mem_overwrite_new hs, rfl⟩

theorem value_stays {s : Sample ℚ} (h : s ∈ v.doubles) (late : ∀ t ∈ u.times, s.time < t) :
    s.value ∈ (overwrite u v).values := by
  have kept : s ∈ Mio.overwrite DataSample.time u.doubles v.doubles ∨
      ∃ y ∈ u.doubles, y.time = s.time := mem_overwrite_old h
  cases kept with
  | inl kept => exact mem_values.mpr ⟨s, kept, rfl⟩
  | inr replaced =>
      obtain ⟨y, hy, eq⟩ := replaced
      exact ((late y.time (mem_times.mpr (.inl ⟨y, hy, rfl⟩))).ne eq.symm).elim

end Samples

theorem mem_values_concat {l : List (TileIndex × ExactTile)} {x : ℚ} :
    x ∈ (concat l).values ↔ ∃ leaf ∈ l, x ∈ leaf.2.samples.values := by
  induction l with
  | nil => simp [concat, Samples.empty, Samples.values]
  | cons y l ih =>
      rw [concat_cons, Samples.mem_values_append, ih]
      simp

/-- The value range of a tile reaches around its values, and to finite doubles only. -/
structure Ranged (a : ExactTile) : Prop where
  values : ∀ v ∈ a.samples.values, a.ranges.doubleSamples.includes v
  hull : a.ranges.doubleSamples.Hull {x | a.ranges.doubleSamples.includes x}
  bounded : ∀ x, a.ranges.doubleSamples.includes x → Bounded x

namespace Ranged

variable {a : ExactTile} {u : Samples}

theorem of_hull {s : Set ℚ} (h : a.ranges.doubleSamples.Hull s) (bounded : ∀ x ∈ s, Bounded x)
    (values : ∀ v ∈ a.samples.values, v ∈ s) : Ranged a := by
  refine ⟨fun v hv => h.bounds v (values v hv), h.self, fun x hx => ?_⟩
  exact (h.includes_iff.mp hx).bounded bounded

theorem hull_ofSamples (bounded : ∀ v ∈ u.values, Bounded v) :
    (Tile.ofSamples u).ranges.doubleSamples.Hull {v | v ∈ u.values} := by
  have start : (Tile.new : ExactTile).ranges.doubleSamples.Hull ∅ := .clear
  have whole := DataRanges.cover_values (u := u) start fun t ht => bounded t (ht.resolve_left id)
  rwa [Set.empty_union] at whole

theorem ofSamples (bounded : ∀ v ∈ u.values, Bounded v) : Ranged (.ofSamples u) := by
  refine of_hull (hull_ofSamples bounded) bounded fun v hv => ?_
  rwa [Tile.samples_ofSamples] at hv

theorem hull_insert (h : Ranged a) (bounded : ∀ v ∈ u.values, Bounded v) :
    (a.insert u).ranges.doubleSamples.Hull
      ({x | a.ranges.doubleSamples.includes x} ∪ {v | v ∈ u.values}) := by
  refine DataRanges.cover_values h.hull ?_
  rintro x (old | new)
  · exact h.bounded x old
  · exact bounded x new

theorem insert (h : Ranged a) (bounded : ∀ v ∈ u.values, Bounded v) : Ranged (a.insert u) := by
  refine of_hull (h.hull_insert bounded) ?_ ?_
  · rintro x (old | new)
    · exact h.bounded x old
    · exact bounded x new
  · intro v hv
    rw [Tile.samples_insert] at hv
    cases Samples.mem_values_overwrite hv with
    | inl new => exact .inr new
    | inr old => exact .inl (h.values v old)

theorem finite (h : Ranged a) : ∀ v ∈ a.samples.values, Bounded v :=
  fun v hv => h.bounded v (h.values v hv)

end Ranged

/-- What fresh tiles of finite values have, all leaves of a grown tree have. -/
theorem Grown.eachLeaf_finite {P : ExactTile → Prop}
    (fresh : ∀ u : Samples, (∀ v ∈ u.values, Bounded v) → P (.ofSamples u)) {limit : ℕ}
    {ti : TileIndex} {tile : ExactTile} {s : TileTree} (g : Grown limit ti tile s)
    (finite : ∀ v ∈ tile.samples.values, Bounded v) (h : tile.binaryLength ≤ limit → P tile) :
    s.EachLeaf (fun _ a => P a) ti := by
  induction g with
  | leaf fits => exact CellTree.eachLeaf_leaf.mpr (h fits)
  | @node ti tile parent l r long left right combined ihl ihr =>
      have parts : ∀ v, v ∈ (tile.samples.before ti.hi.start).values ∨
          v ∈ (tile.samples.since ti.hi.start).values → Bounded v := by
        intro v hv
        apply finite
        rw [← Samples.before_append_since tile.samples ti.hi.start]
        exact Samples.mem_values_append.mpr hv
      have low : ∀ v ∈ (tile.samples.before ti.hi.start).values, Bounded v := fun v hv => parts v (.inl hv)
      have high : ∀ v ∈ (tile.samples.since ti.hi.start).values, Bounded v := fun v hv => parts v (.inr hv)
      rw [Tile.samples_ofSamples] at ihl ihr
      exact CellTree.eachLeaf_node.mpr ⟨ihl low fun _ => fresh _ low, ihr high fun _ => fresh _ high⟩

theorem Grown.ranged {limit : ℕ} {ti : TileIndex} {tile : ExactTile} {s : TileTree}
    (g : Grown limit ti tile s) (h : Ranged tile) : s.EachLeaf (fun _ a => Ranged a) ti :=
  g.eachLeaf_finite (fun _ finite => .ofSamples finite) h.finite fun _ => h

theorem Grown.sharp {limit : ℕ} {ti : TileIndex} {tile : ExactTile} {s : TileTree}
    (g : Grown limit ti tile s) (long : limit < tile.binaryLength)
    (finite : ∀ v ∈ tile.samples.values, Bounded v) :
    s.EachLeaf (fun _ a => a.ranges.doubleSamples.Hull {v | v ∈ a.samples.values}) ti := by
  refine g.eachLeaf_finite (P := fun a => a.ranges.doubleSamples.Hull {v | v ∈ a.samples.values})
    (fun u finite => ?_) finite fun fits => absurd fits (not_le.mpr long)
  rw [Tile.samples_ofSamples]
  exact Ranged.hull_ofSamples finite

/-- If the tile is not split, its range ends inside the values `V` that stay. -/
def Truthful (limit : ℕ) (V : Set ℚ) (batch : Samples) (ti : TileIndex) (tile : ExactTile) : Prop :=
  Whole limit batch ti tile → ∀ x, tile.ranges.doubleSamples.includes x → Between V x

namespace Truthful

variable {limit : ℕ} {V : Set ℚ} {ti : TileIndex} {tile : ExactTile} {chunk rest : Samples}

theorem new (batch : Samples) (ti : TileIndex) : Truthful limit V batch ti .new :=
  fun _ x inside => (Range.Hull.not_includes_clear x inside).elim

/-- A tile that takes samples and stays whole goes on remembering what it did. -/
theorem insert_iff (ranged : Ranged tile) (finite : ∀ v ∈ chunk.values, Bounded v)
    (fits : (tile.insert chunk).binaryLength ≤ limit) (here : (chunk ++ rest).inside ti = chunk)
    (none : rest.inside ti = .empty) (new : ∀ v ∈ chunk.values, v ∈ V) :
    Truthful limit V rest ti (tile.insert chunk) ↔ Truthful limit V (chunk ++ rest) ti tile := by
  have whole : Whole limit rest ti (tile.insert chunk) := by
    rw [Whole, none, Samples.overwrite_empty_left]
    exact fits
  have before : Whole limit (chunk ++ rest) ti tile := by
    rw [Whole, here]
    exact fits
  have hull := ranged.hull_insert finite
  constructor
  · intro h _ x inside
    exact h whole x (hull.includes_iff.mpr (.of_mem (.inl inside)))
  · intro h _ x inside
    apply (hull.includes_iff.mp inside).trans
    rintro y (old | mem)
    · exact h before y old
    · exact .of_mem (new y mem)

/-- A tile that is split is forgotten, and its parts start afresh. -/
theorem split {s : TileTree} {i : TileIndex} (grown : Grown limit ti (tile.insert chunk) s)
    (long : limit < (tile.insert chunk).binaryLength) (here : (chunk ++ rest).inside i = chunk)
    (finite : ∀ v ∈ (tile.insert chunk).samples.values, Bounded v)
    (stay : ∀ v ∈ (tile.insert chunk).samples.values, v ∈ V) :
    s.EachLeaf (Truthful limit V rest) ti ∧ Truthful limit V (chunk ++ rest) i tile := by
  constructor
  · intro j a mem _ x inside
    have sharp := grown.sharp long finite j a mem
    apply (sharp.includes_iff.mp inside).trans
    intro v hv
    apply Between.of_mem
    apply stay
    rw [← grown.contents_eq, contents_eq s ti]
    exact mem_values_concat.mpr ⟨(j, a), mem, hv⟩
  · intro whole
    rw [Whole, here] at whole
    exact absurd whole (not_le.mpr long)

end Truthful

/-- All values, stored and still to come, are finite. -/
structure Progress.Finite (p : Progress) : Prop where
  leaves : p.tree.EachLeaf (fun _ a => Ranged a) p.root
  pending : ∀ v ∈ p.pending.values, Bounded v

/-- No leaf that stays whole remembers more than what the call leaves. -/
def Progress.Truthful (limit : ℕ) (p : Progress) : Prop :=
  p.tree.EachLeaf (Datastore.Truthful limit {v | v ∈ p.total.values} p.pending) p.root

namespace Step

variable {limit : ℕ} {p q : Progress}

theorem finite (step : Step limit p q) (h : p.Finite) : q.Finite := by
  have advance : ∀ {chunk rest : Samples}, (∀ v ∈ (chunk ++ rest).values, Bounded v) →
      (∀ v ∈ chunk.values, Bounded v) ∧ ∀ v ∈ rest.values, Bounded v :=
    fun all => ⟨fun v hv => all v (Samples.mem_values_append.mpr (.inl hv)),
      fun v hv => all v (Samples.mem_values_append.mpr (.inr hv))⟩
  have fresh : Ranged .new := .ofSamples (u := .empty) fun v hv => (List.not_mem_nil hv).elim
  cases step with
  | raise n regular tight =>
      exact ⟨CellTree.raise_induct (fun t c _ ht => ht.hoist _ fresh) regular.2 h.leaves, h.pending⟩
  | fill inside past fits =>
      have parts := advance h.pending
      exact ⟨CellTree.eachLeaf_leaf.mpr ((CellTree.eachLeaf_leaf.mp h.leaves).insert parts.1), parts.2⟩
  | reroot inside past regular tight has grown long =>
      have parts := advance h.pending
      exact ⟨grown.ranged ((CellTree.eachLeaf_leaf.mp h.leaves).insert parts.1), parts.2⟩
  | insert regular leaf inside past grown =>
      have parts := advance h.pending
      have old := h.leaves _ _ (CellTree.mem_leaves.mpr leaf)
      exact ⟨h.leaves.graft leaf (grown.ranged (old.insert parts.1)), parts.2⟩
  | regenerate node combined =>
      refine ⟨h.leaves.graft node ?_, h.pending⟩
      exact CellTree.eachLeaf_node.mpr (CellTree.eachLeaf_node.mp (h.leaves.sub node))

/-- Everything in a tile that just took samples is still there in the end. -/
theorem values_stay {root ti : TileIndex} {tree s : TileTree} {tile : ExactTile} {chunk rest : Samples}
    (leaf : tree.sub root ti = some (.leaf tile))
    (has : tree.EachLeaf (fun i a => ∀ t ∈ a.samples.times, i.Has t) root)
    (inside : ∀ t ∈ chunk.times, ti.Has t) (past : ∀ t ∈ rest.times, ti.stop ≤ t)
    (grown : Grown limit ti (tile.insert chunk) s) :
    ∀ v ∈ (tile.insert chunk).samples.values,
      v ∈ (Samples.overwrite rest (contents (CellTree.graft s ti tree root))).values := by
  intro v hv
  obtain ⟨x, hx, rfl⟩ := Samples.mem_values.mp hv
  obtain ⟨a, b, -, new, -, -⟩ := contents_graft leaf has
  have here : ti.Has x.time := by
    have mem : x.time ∈ (tile.insert chunk).samples.times := Samples.mem_times.mpr (.inl ⟨x, hx, rfl⟩)
    cases Tile.mem_times_insert.mp mem with
    | inl mem => exact inside _ mem
    | inr mem => exact has ti tile (CellTree.mem_leaves.mpr leaf) _ mem
  refine Samples.value_stays ?_ fun t ht => here.2.trans_le (past t ht)
  rw [new, grown.contents_eq]
  simp only [Samples.append_doubles, List.mem_append]
  exact .inl (.inr hx)

/-- A step on one of the leaves leaves the others as truthful as they were. -/
theorem truthful_insert {V : Set ℚ} {root ti : TileIndex} {tree s : TileTree} {tile : ExactTile}
    {chunk rest : Samples} (leaf : tree.sub root ti = some (.leaf tile))
    (regular : tree.EachLeaf (fun i _ => Regular i) root) (inside : ∀ t ∈ chunk.times, ti.Has t)
    (here : s.EachLeaf (Truthful limit V rest) ti ↔ Truthful limit V (chunk ++ rest) ti tile) :
    (CellTree.graft s ti tree root).EachLeaf (Truthful limit V rest) root ↔
      tree.EachLeaf (Truthful limit V (chunk ++ rest)) root := by
  have beside_same : ∀ i a, Regular i → i.stop ≤ ti.start ∨ ti.stop ≤ i.start →
      (Truthful limit V (chunk ++ rest) i a ↔ Truthful limit V rest i a) := by
    intro i a reg apart
    have none : chunk.inside i = .empty := by
      refine Samples.inside_of_none fun t ht has => ?_
      have first := (reg.containsTime_iff t).mp has
      have second := inside t ht
      cases apart with
      | inl le => exact absurd (first.2.trans_le (le.trans second.1)) (lt_irrefl t)
      | inr le => exact absurd (second.2.trans_le (le.trans first.1)) (lt_irrefl t)
    rw [Truthful, Truthful, Whole, Whole, Samples.inside_append, none, Samples.empty_append]
  obtain ⟨beside, mem, apart, parts⟩ := CellTree.eachLeaf_graft leaf
  rw [(parts _).2, (parts _).1, CellTree.eachLeaf_leaf, here]
  refine and_congr_right fun _ => forall₂_congr fun x hx => ?_
  exact (beside_same x.1 x.2 (regular x.1 x.2 (mem x hx)) (apart x hx)).symm

/-- No step changes how truthful the leaves are going to be. -/
theorem truthful_iff (step : Step limit p q) (wf : p.Wf) (finite : p.Finite)
    (short : p.tree.EachLeaf (fun _ a => a.binaryLength ≤ limit) p.root) :
    q.Truthful limit ↔ p.Truthful limit := by
  have total := step.total_eq wf
  rw [Progress.Truthful, Progress.Truthful, total]
  have pending_values : ∀ v ∈ p.pending.values, v ∈ {v | v ∈ p.total.values} :=
    fun v hv => Samples.values_new hv
  cases step with
  | @raise root tree pending n regular tight =>
      constructor
      · exact fun h => h.sub (CellTree.sub_raise _ _ _ _)
      · exact fun h => CellTree.raise_induct (fun t c _ ht => ht.hoist _ (Truthful.new _ _)) regular.2 h
  | @fill tile stale chunk rest inside past fits =>
      obtain ⟨none, here⟩ := Samples.inside_chunk inside fun t ht has =>
        absurd has.2 (not_lt.mpr (past t ht))
      rw [CellTree.eachLeaf_leaf, CellTree.eachLeaf_leaf]
      refine Truthful.insert_iff (CellTree.eachLeaf_leaf.mp finite.leaves) ?_ fits here none ?_
      · exact fun v hv => finite.pending v (Samples.mem_values_append.mpr (.inl hv))
      · exact fun v hv => pending_values v (Samples.mem_values_append.mpr (.inl hv))
  | @reroot root tile s stale chunk rest inside past regular tight has grown long =>
      obtain ⟨none, here⟩ := Samples.inside_chunk inside fun t ht has =>
        absurd has.2 (not_lt.mpr (past t ht))
      have ranged : Ranged (tile.insert chunk) := (CellTree.eachLeaf_leaf.mp finite.leaves).insert
        fun v hv => finite.pending v (Samples.mem_values_append.mpr (.inl hv))
      have front : ∀ t ∈ (tile.insert chunk).samples.times, TileIndex.nonnegativeAll.containsTime t := by
        intro t ht
        cases Tile.mem_times_insert.mp ht with
        | inl new => exact inside t new
        | inr old => exact (CellTree.eachLeaf_leaf.mp wf.leaves).inside t old
      have parts := Truthful.split (V := {v | v ∈ (Progress.total ⟨.nonnegativeAll, .leaf tile, stale,
        chunk ++ rest⟩).values}) grown long here ranged.finite fun v hv => by
          obtain ⟨x, hx, rfl⟩ := Samples.mem_values.mp hv
          rw [← total, Progress.total, grown.contents_eq]
          refine Samples.value_stays hx fun t ht => ?_
          exact (front _ (Samples.mem_times.mpr (.inl ⟨x, hx, rfl⟩))).2.trans_le (past t ht)
      rw [CellTree.eachLeaf_leaf]
      exact iff_of_true parts.1 parts.2
  | @insert root ti tree tile s stale chunk rest regular leaf inside past grown =>
      have mem := CellTree.mem_leaves.mpr leaf
      have old : Ranged tile := finite.leaves ti tile mem
      have new : ∀ v ∈ chunk.values, Bounded v :=
        fun v hv => finite.pending v (Samples.mem_values_append.mpr (.inl hv))
      have reg : Regular ti := wf.regular_of_sub regular leaf
      refine truthful_insert leaf (fun i a hi => wf.regular_of_sub regular (CellTree.mem_leaves.mp hi))
        inside ?_
      cases past with
      | inl empty =>
          subst empty
          have same : tile.insert .empty = tile := rfl
          rw [same] at grown
          cases grown with
          | leaf fits => rw [CellTree.eachLeaf_leaf, Samples.empty_append]
          | node long => exact absurd (short ti tile mem) (not_le.mpr long)
      | inr past =>
          obtain ⟨none, here⟩ := Samples.inside_chunk
            (fun t ht => (reg.containsTime_iff t).mpr (inside t ht))
            fun t ht has => absurd ((reg.containsTime_iff t).mp has).2 (not_lt.mpr (past t ht))
          by_cases fits : (tile.insert chunk).binaryLength ≤ limit
          · cases grown with
            | node long => exact absurd fits (not_le.mpr long)
            | leaf =>
                rw [CellTree.eachLeaf_leaf]
                refine Truthful.insert_iff old new fits here none ?_
                exact fun v hv => pending_values v (Samples.mem_values_append.mpr (.inl hv))
          · have stay := values_stay leaf (wf.leaves_has regular) inside past grown
            have parts := Truthful.split (V := {v | v ∈ (Progress.total ⟨root, tree, stale,
              chunk ++ rest⟩).values}) grown (not_le.mp fits) here (old.insert new).finite
              fun v hv => by
                rw [← total]
                exact stay v hv
            exact iff_of_true parts.1 parts.2
  | @regenerate root w tree parent a l r stale pending node combined =>
      obtain ⟨beside, -, -, parts⟩ := CellTree.eachLeaf_graft node
      rw [(parts _).2, (parts _).1, CellTree.eachLeaf_node, CellTree.eachLeaf_node]

end Step

theorem Steps.truthful_iff {limit : ℕ} {p q : Progress} (steps : Relation.ReflTransGen (Step limit) p q)
    (wf : p.Wf) (room : Samples.empty.size ≤ limit) (finite : p.Finite)
    (short : p.tree.EachLeaf (fun _ a => a.binaryLength ≤ limit) p.root) :
    q.Finite ∧ q.tree.EachLeaf (fun _ a => a.binaryLength ≤ limit) q.root ∧
      (q.Truthful limit ↔ p.Truthful limit) := by
  induction steps with
  | refl => exact ⟨finite, short, Iff.rfl⟩
  | tail steps step ih =>
      obtain ⟨finite, short, same⟩ := ih
      exact ⟨step.finite finite, step.leaves_fit room short,
        (step.truthful_iff (Steps.wf steps wf) finite short).trans same⟩

theorem mem_values_contents {t : TileTree} {c : TileIndex} {u : Samples} (asc : u.Ascending)
    (has : t.EachLeaf (fun i a => ∀ x ∈ a.samples.times, i.Has x) c) {v : ℚ} :
    v ∈ (Samples.overwrite u (contents t)).values ↔
      ∃ leaf ∈ t.leaves c, v ∈ (Samples.overwrite u leaf.2.samples).values := by
  induction t generalizing c with
  | leaf a => simp [CellTree.leaves, contents]
  | node a l r ihl ihr =>
      obtain ⟨hasL, hasR⟩ := CellTree.eachLeaf_node.mp has
      have low : ∀ t ∈ (contents l).times, t < c.hi.start :=
        fun t ht => (contents_has hasL t ht).2.trans_eq (Cell.lo_stop c)
      have high : ∀ t ∈ (contents r).times, c.hi.start ≤ t := fun t ht => (contents_has hasR t ht).1
      have first := Samples.overwrite_front asc low
      have second := Samples.overwrite_back asc high
      have whole : Samples.overwrite u (contents l ++ contents r) =
          .overwrite (u.before c.hi.start) (contents l) ++ .overwrite (u.since c.hi.start) (contents r) := by
        conv_lhs => rw [← Samples.before_append_since u c.hi.start]
        refine Samples.overwrite_append fun s hs t ht => ?_
        have before : s < c.hi.start := (Samples.mem_times_append.mp hs).elim Samples.lt_of_mem_before (low s)
        exact before.trans_le ((Samples.mem_times_append.mp ht).elim asc.le_of_mem_since (high t))
      rw [contents, whole, Samples.mem_values_append]
      have split : (∃ leaf ∈ (CellTree.node a l r).leaves c,
            v ∈ (Samples.overwrite u leaf.2.samples).values) ↔
          v ∈ (Samples.overwrite u (contents l)).values ∨ v ∈ (Samples.overwrite u (contents r)).values := by
        rw [ihl hasL, ihr hasR]
        simp only [CellTree.leaves, List.mem_append, or_and_right, exists_or]
      rw [split, first, second, Samples.mem_values_append, Samples.mem_values_append]
      constructor
      · exact Or.imp .inl .inr
      · rintro ((mem | mem) | (mem | mem))
        · exact .inl mem
        · exact .inr (Samples.values_new mem)
        · exact .inl (Samples.values_new mem)
        · exact .inr mem

def Kvs.IsLeaf (kvs : Kvs) (ti : TileIndex) (tile : ExactTile) : Prop :=
  kvs.tiles ti = some tile ∧ ¬ kvs.hasTile ti.leftChild ∧ ¬ kvs.hasTile ti.rightChild

/-- Every leaf that takes its part of the batch without being split has its range between values
that the leaves will hold. -/
def Kvs.KeepsBounds (limit : ℕ) (kvs : Kvs) (batch : Samples) : Prop :=
  ∀ ti tile, kvs.IsLeaf ti tile →
    (Samples.overwrite (batch.inside ti) tile.samples).size ≤ limit →
    ∀ x, tile.ranges.doubleSamples.includes x →
      Between {v | ∃ i a, kvs.IsLeaf i a ∧ v ∈ (Samples.overwrite batch a.samples).values} x

namespace Stored

variable {kvs : Kvs} {info : ChannelInfo} {tree : TileTree}

theorem isLeaf_iff (h : Stored kvs info tree) {ti : TileIndex} {tile : ExactTile} :
    kvs.IsLeaf ti tile ↔ (ti, tile) ∈ tree.leaves info.nonnegativeRootTileIndex := by
  constructor
  · rintro ⟨stored, left, -⟩
    rcases h.children stored with ⟨-, -, leaf⟩ | ⟨l, r, -, -, hasL, -⟩
    · exact CellTree.mem_leaves.mpr leaf
    · exact (left (Kvs.hasTile_of_some hasL)).elim
  · intro mem
    have leaf := CellTree.mem_leaves.mp mem
    have stored := h.tiles_of_sub leaf
    rcases h.children stored with ⟨left, right, -⟩ | ⟨l, r, -, node, -⟩
    · exact ⟨stored, left, right⟩
    · rw [leaf] at node
      cases node

theorem mem_values (h : Stored kvs info tree) {batch : Samples} (asc : batch.Ascending) {v : ℚ} :
    v ∈ (Samples.overwrite batch (contents tree)).values ↔
      ∃ leaf ∈ tree.leaves info.nonnegativeRootTileIndex,
        v ∈ (Samples.overwrite batch leaf.2.samples).values := by
  rcases h.wf.shape with ⟨-, tile, leaf⟩ | ⟨regular, -⟩
  · dsimp only at leaf
    subst leaf
    simp [CellTree.leaves, contents]
  · exact mem_values_contents asc (h.wf.leaves_has regular)

theorem keepsBounds_iff (h : Stored kvs info tree) {limit : ℕ} {batch : Samples}
    (asc : batch.Ascending) :
    kvs.KeepsBounds limit batch ↔
      Progress.Truthful limit ⟨info.nonnegativeRootTileIndex, tree, [], batch⟩ := by
  have values : {v | ∃ i a, kvs.IsLeaf i a ∧ v ∈ (Samples.overwrite batch a.samples).values} =
      {v | v ∈ (Samples.overwrite batch (contents tree)).values} := by
    ext v
    constructor
    · rintro ⟨i, a, leaf, mem⟩
      exact (h.mem_values asc).mpr ⟨(i, a), h.isLeaf_iff.mp leaf, mem⟩
    · intro mem
      obtain ⟨⟨i, a⟩, leaf, mem⟩ := (h.mem_values asc).mp mem
      exact ⟨i, a, h.isLeaf_iff.mpr leaf, mem⟩
  rw [Kvs.KeepsBounds, values]
  exact forall₂_congr fun ti tile => by rw [h.isLeaf_iff]; exact Iff.rfl

end Stored

/-- The root tile's range is that of all values exactly when no leaf remembers more. -/
theorem values_hull_iff {root : TileIndex} {tree : TileTree} {limit : ℕ}
    (nodes : tree.EachNode (fun i a l r => Consistent i a l.label r.label) root)
    (ranged : tree.EachLeaf (fun _ a => Ranged a) root)
    (short : tree.EachLeaf (fun _ a => a.binaryLength ≤ limit) root) :
    tree.label.ranges.doubleSamples.Hull {v | v ∈ (contents tree).values} ↔
      Progress.Truthful limit ⟨root, tree, [], .empty⟩ := by
  have whole := (ranges_hull DataRanges.doubleSamples
    (S := fun a => {x | a.ranges.doubleSamples.includes x}) (fun _ _ => rfl) nodes
    fun i a mem => ⟨(ranged i a mem).hull, (ranged i a mem).bounded⟩).1
  have sub : ∀ x ∈ {v | v ∈ (contents tree).values},
      x ∈ {x | ∃ leaf ∈ tree.leaves root,
        x ∈ {x | leaf.2.ranges.doubleSamples.includes x}} := by
    intro x hx
    have mem : x ∈ (concat (tree.leaves root)).values := by
      rw [← contents_eq]
      exact hx
    obtain ⟨leaf, here, value⟩ := mem_values_concat.mp mem
    exact ⟨leaf, here, (ranged leaf.1 leaf.2 here).values x value⟩
  rw [whole.iff_between sub]
  constructor
  · intro all i a mem _ x inside
    exact all x ⟨(i, a), mem, inside⟩
  · rintro truthful x ⟨leaf, mem, inside⟩
    exact truthful leaf.1 leaf.2 mem (short leaf.1 leaf.2 mem) x inside

/-- The values are finite doubles, as their type says. -/
def Batch.FiniteValues (b : Batch) : Prop := ∀ v ∈ b.samples.values, IsDouble v

/-- A call of `add_data` that returned, with what it stored through `channel_ranges`. -/
structure Call where
  before : Kvs
  batch : Batch
  reported : Option (DataRanges ℚ)
  after : Kvs

/-- Runs of returning calls from an absent channel, with every call on record. -/
inductive Log (ch : Channel) : List Call → Kvs → Prop
  | absent : Log ch [] .absent
  | add {calls kvs b fuel r kvs'} (log : Log ch calls kvs) (finite : b.FiniteTimes)
      (values : b.FiniteValues) (call : ch.addData fuel b kvs = .ret (r, kvs')) :
      Log ch (calls ++ [⟨kvs, b, r, kvs'⟩]) kvs'

/-- In the store after the call the value range of the root tile, and the one reported, is the
smallest around the values of the double samples in the leaves. -/
def Call.ExactBounds (c : Call) : Prop :=
  ∀ info, c.after.metainfo = some (some info) →
    ∃ root leaves, c.after.tiles info.nonnegativeRootTileIndex = some root ∧
      Outcome.Reaches (fun fuel => c.after.leafTiles fuel info.nonnegativeRootTileIndex) leaves ∧
      root.ranges.doubleSamples.Hull {v | ∃ s ∈ leaves.flatMap Tile.doubleSamples, s.value = v} ∧
      ∀ ranges, c.reported = some ranges → ranges.doubleSamples = root.ranges.doubleSamples

theorem IsDouble.finite {x : ℚ} (h : IsDouble x) : Bounded x := by
  refine ⟨?_, h.le_doubleMax⟩
  obtain ⟨m, e, small, low, high, rfl⟩ := h
  have mirror : IsDouble (-(m * 2 ^ e)) := by
    refine ⟨-m, e, ?_, low, high, ?_⟩
    · rwa [abs_neg]
    · rw [Int.cast_neg, neg_mul]
  linarith only [mirror.le_doubleMax]

theorem Stored.exactBounds_iff {kvs kvs' : Kvs} {b : Batch} {r : Option (DataRanges ℚ)}
    {info : ChannelInfo} {tree : TileTree} (h : Stored kvs' info tree)
    (reported : ∀ ranges, r = some ranges → ranges = tree.label.ranges) :
    Call.ExactBounds ⟨kvs, b, r, kvs'⟩ ↔
      tree.label.ranges.doubleSamples.Hull {v | v ∈ (contents tree).values} := by
  have root := h.tiles_of_sub (CellTree.sub_self tree info.nonnegativeRootTileIndex)
  have flat := (flatMap_leaves (tree.leaves info.nonnegativeRootTileIndex)).1
  rw [← contents_eq] at flat
  have values : {v | ∃ s ∈ ((tree.leaves info.nonnegativeRootTileIndex).map Prod.snd).flatMap
      Tile.doubleSamples, s.value = v} = {v | v ∈ (contents tree).values} := by
    ext v
    rw [flat]
    exact Samples.mem_values.symm
  constructor
  · intro exact
    obtain ⟨tile, leaves, stored, reaches, hull, -⟩ := exact info h.metainfo
    obtain rfl := reaches.unique h.leafTiles
    have same : tile = tree.label := Option.some_inj.mp (stored.symm.trans root)
    rwa [values, same] at hull
  · intro hull info' has
    have same : info = info' := Option.some_inj.mp (Option.some_inj.mp (h.metainfo.symm.trans has))
    subst same
    refine ⟨tree.label, _, root, h.leafTiles, ?_, fun ranges eq => ?_⟩
    · rwa [values]
    · rw [reported ranges eq]

theorem Opens.finite {kvs : Kvs} {batch : Samples} {p : Progress} {info : ChannelInfo}
    (opens : Opens batch kvs p info) (values : ∀ v ∈ batch.values, Bounded v)
    (ranged : kvs = .absent ∨ ∃ info tree, Stored kvs info tree ∧
      tree.EachLeaf (fun _ a => Ranged a) info.nonnegativeRootTileIndex) : p.Finite := by
  cases opens with
  | new spanned =>
      refine ⟨CellTree.eachLeaf_leaf.mpr ?_, values⟩
      exact .ofSamples (u := .empty) fun v hv => (List.not_mem_nil hv).elim
  | old stored spanned =>
      rcases ranged with rfl | ⟨info', tree', stored', ranged⟩
      · exact stored.not_absent.elim
      · obtain ⟨rfl, rfl⟩ := stored.unique stored'
        exact ⟨ranged, values⟩

namespace Log

variable {ch : Channel} {calls : List Call} {kvs : Kvs}

theorem runs (log : Log ch calls kvs) : Runs ch (calls.map Call.batch) kvs := by
  induction log with
  | absent => exact .absent
  | add log finite values call ih =>
      rw [List.map_append]
      exact .add ih finite call

theorem ranged (log : Log ch calls kvs) :
    kvs = .absent ∨ ∃ info tree, Stored kvs info tree ∧
      tree.EachLeaf (fun _ a => Ranged a) info.nonnegativeRootTileIndex := by
  induction log with
  | absent => exact .inl rfl
  | add log finite values call ih =>
      rcases Channel.addData_ret log.runs.usual finite call with ⟨-, rfl⟩ | ⟨p, q, info, called⟩
      · exact ih
      · right
        have start := called.opens.finite (fun v hv => (values v hv).finite) ih
        have kept := Steps.keep (P := Progress.Finite) (fun _ _ step _ => step.finite) called.steps
          called.wf start
        exact ⟨_, _, called.stored, kept.leaves⟩

/-- A call that took samples leaves exact bounds if no leaf it found was to remember too much. -/
theorem called_iff {b : Batch} {kvs' : Kvs} {p q : Progress} {info : ChannelInfo}
    (log : Log ch calls kvs) (values : b.FiniteValues)
    (called : Called ch.maxTileSize b.samples kvs kvs' p q info) :
    Progress.Truthful ch.maxTileSize ⟨q.root, q.tree, [], .empty⟩ ↔
      kvs.KeepsBounds ch.maxTileSize b.samples := by
  have same : (⟨q.root, q.tree, [], .empty⟩ : Progress) = q := by
    rw [← called.stale, ← called.pending]
  have start := called.opens.finite (fun v hv => (values v hv).finite) log.ranged
  have asc : b.samples.Ascending := by
    rw [← called.opens.pending]
    exact called.wf.ascending
  rw [same]
  cases called.opens with
  | new spanned =>
      have short : (CellTree.leaf Tile.new).EachLeaf (fun _ a => a.binaryLength ≤ ch.maxTileSize)
          TileIndex.nonnegativeAll := CellTree.eachLeaf_leaf.mpr called.room
      rw [(Steps.truthful_iff called.steps called.wf called.room start short).2.2]
      refine iff_of_true (CellTree.eachLeaf_leaf.mpr (Truthful.new _ _)) ?_
      rintro ti tile ⟨stored, -⟩
      cases stored
  | old stored spanned =>
      rcases log.runs.resting with rfl | ⟨info', tree', resting⟩
      · exact stored.not_absent.elim
      obtain ⟨rfl, rfl⟩ := stored.unique resting.stored
      rw [(Steps.truthful_iff called.steps called.wf called.room start resting.fits).2.2,
        stored.keepsBounds_iff asc]

/-- The bounds are exact after a call exactly when in the store before it no leaf that stays whole
has a range that the values to be stored do not reach. -/
theorem exact_after_iff {b : Batch} {fuel : ℕ} {kvs' : Kvs} {r : Option (DataRanges ℚ)}
    (log : Log ch calls kvs) (finite : b.FiniteTimes) (values : b.FiniteValues)
    (call : ch.addData fuel b kvs = .ret (r, kvs')) :
    Call.ExactBounds ⟨kvs, b, r, kvs'⟩ ↔ kvs.KeepsBounds ch.maxTileSize b.samples := by
  have next := Log.add log finite values call
  rcases next.runs.resting with rfl | ⟨info, tree, resting⟩
  · rcases Channel.addData_ret log.runs.usual finite call with ⟨-, rfl⟩ | ⟨p, q, info, called⟩
    · refine iff_of_true (fun info has => ?_) ?_
      · cases has
      · rintro ti tile ⟨stored, -⟩
        cases stored
    · exact called.stored.not_absent.elim
  have stored := resting.stored
  have reported : ∀ ranges, r = some ranges → ranges = tree.label.ranges := by
    rintro ranges rfl
    rcases Channel.addData_reports call with ⟨none, -⟩ | ⟨info', tile, has, root, eq⟩
    · cases none
    · cases has.symm.trans stored.metainfo
      cases root.symm.trans (stored.tiles_of_sub (CellTree.sub_self _ _))
      exact Option.some_inj.mp eq
  rcases next.ranged with rfl | ⟨info', tree', stored', ranged⟩
  · exact stored.not_absent.elim
  obtain ⟨rfl, rfl⟩ := stored.unique stored'
  rw [stored.exactBounds_iff reported, values_hull_iff resting.nodes ranged resting.fits]
  rcases Channel.addData_ret log.runs.usual finite call with ⟨void, rfl⟩ | ⟨p, q, info', called⟩
  · rw [void, stored.keepsBounds_iff Samples.ascending_empty]
  · obtain ⟨rfl, rfl⟩ := stored.unique called.stored
    exact log.called_iff values called

end Log

def Batch.one (v : ℚ) : Batch := .doubles [⟨1, v, 1, 0⟩]

namespace Batch

theorem mem_times_one {v t : ℚ} : t ∈ (one v).samples.times ↔ t = 1 := by
  simp [one, samples, times_only]

theorem finite_one (v : ℚ) : (one v).FiniteTimes := by
  intro t ht
  rw [mem_times_one.mp ht]
  exact_mod_cast IsDouble.of_nat (n := 1) (by norm_num)

theorem values_one {n : ℕ} (small : n < 2 ^ 53) : (one n).FiniteValues := by
  intro v hv
  obtain rfl : v = n := by simpa [one, samples, Samples.values, only] using hv
  exact IsDouble.of_nat small

theorem sorted_one (v : ℚ) : (one v).samples.Ascending := ⟨List.pairwise_singleton _ _, .nil⟩

theorem weights_one (v : ℚ) : ∀ w ∈ (one v).samples.weights, 0 < w := by
  simp [one, samples, weights_only]

end Batch

namespace Log

/-- What a channel keeps whose samples are all of one time stays in the all-tile. -/
theorem all_of_one_time {ch : Channel} {bs : List Batch} {kvs : Kvs} {info : ChannelInfo}
    (run : Runs ch bs kvs) (one : ∀ t ∈ (history bs).times, t = 1)
    (has : kvs.metainfo = some (some info)) :
    info.nonnegativeRootTileIndex = .nonnegativeAll := by
  rcases run.contents_eq with ⟨rfl, -⟩ | ⟨info', tree, stored, same⟩
  · cases has
  cases has.symm.trans stored.metainfo
  by_contra ne
  obtain ⟨a, ha, b, hb, lt, -⟩ := stored.wf.tight ne
  rw [Progress.total, Samples.overwrite_empty_left, same] at ha hb
  rw [one a ha, one b hb] at lt
  exact lt_irrefl _ lt

/-- What fits into one tile with samples that are all of one time can be added behind them. -/
theorem add_behind_one {bs : List Batch} {kvs : Kvs} (run : Runs {} bs kvs)
    (one : ∀ t ∈ (history bs).times, t = 1) {b : Batch}
    (weights : ∀ x ∈ bs ++ [b], ∀ w ∈ x.samples.weights, 0 < w) (finite : b.FiniteTimes)
    (sorted : b.samples.Ascending) (within : ∀ t ∈ b.samples.times, 0 ≤ t ∧ t < doubleMax)
    (fits : (Samples.overwrite b.samples (history bs)).size ≤ channelMaxTileSize) :
    ∃ r kvs', Exec.Reaches (fun fuel => ({} : Channel).addData fuel b) kvs r kvs' := by
  refine run.completes (fun _ _ => rfl) weights finite sorted (fun t ht => (within t ht).1)
    ⟨fun k => (Samples.size_at_le _ k).trans fits, fun _ => .inl fun t ht => (within t ht).2, ?_⟩
  exact fun info has ne => (ne (all_of_one_time run one has)).elim

/-- A sample of the same time can always be added. -/
theorem add_one {bs : List Batch} {kvs : Kvs} (run : Runs {} bs kvs) {v : ℚ}
    (weights : ∀ b ∈ bs, ∀ w ∈ b.samples.weights, 0 < w) (one : ∀ t ∈ (history bs).times, t = 1)
    (fits : (Samples.overwrite (Batch.one v).samples (history bs)).size ≤ channelMaxTileSize) :
    ∃ r kvs', Exec.Reaches (fun fuel => ({} : Channel).addData fuel (.one v)) kvs r kvs' := by
  refine add_behind_one run one (fun x hx => ?_) (Batch.finite_one v) (Batch.sorted_one v) (fun t ht => ?_) fits
  · cases List.mem_append.mp hx with
    | inl mem => exact weights x mem
    | inr mem =>
        rw [List.mem_singleton.mp mem]
        exact Batch.weights_one v
  · rw [Batch.mem_times_one.mp ht]
    exact ⟨zero_le_one, by exact_mod_cast nat_lt_doubleMax (n := 1) (by norm_num)⟩

/-- The root tile's value range is exact in all stores of a run exactly when every call of the run
keeps the bounds. -/
theorem bounds_exact_iff {ch : Channel} {calls : List Call} {kvs : Kvs} (log : Log ch calls kvs) :
    (∀ c ∈ calls, c.ExactBounds) ↔
      ∀ c ∈ calls, c.before.KeepsBounds ch.maxTileSize c.batch.samples := by
  induction log with
  | absent => simp
  | add log finite values call ih =>
      simp only [List.forall_mem_append, List.forall_mem_singleton, ih,
        log.exact_after_iff finite values call]

theorem bounds_exact_iff_pair : ∃ r kvs, Log .narrow [⟨.absent, .pair, r, kvs⟩] kvs ∧
    Call.ExactBounds ⟨.absent, .pair, r, kvs⟩ := by
  have start : Runs .narrow [] .absent := .absent
  obtain ⟨r, kvs, reaches⟩ := start.completes (fun _ _ => rfl) Batch.weights_pair
    Batch.finite_pair Batch.sorted_pair Batch.nonneg_pair (Batch.accepts_pair (by decide))
  obtain ⟨fuel, ret⟩ := Outcome.Reaches.returns reaches
  have values : Batch.pair.FiniteValues := by
    intro v hv
    obtain rfl : v = 1 := by simpa [Batch.pair, Batch.samples, Samples.values, only] using hv
    exact_mod_cast IsDouble.of_nat (n := 1) (by norm_num)
  have log := Log.add .absent Batch.finite_pair values ret
  refine ⟨r, kvs, log, (bounds_exact_iff log).mpr (fun c mem => ?_) _ (List.mem_singleton_self _)⟩
  rw [List.mem_singleton.mp mem]
  rintro ti tile ⟨stored, -⟩
  cases stored

/-- The value 5 is overwritten by 1, and the root tile's range still reaches to 5. -/
theorem outlived_bound : ∃ r kvs r' kvs',
    Log {} [⟨.absent, .one 5, r, kvs⟩, ⟨kvs, .one 1, r', kvs'⟩] kvs' ∧
      ¬ Call.ExactBounds ⟨kvs, .one 1, r', kvs'⟩ := by
  obtain ⟨r, kvs, reaches⟩ := add_one (v := 5) .absent (fun _ h => (List.not_mem_nil h).elim)
    (fun _ h => (List.not_mem_nil h).elim) (by decide)
  obtain ⟨fuel, ret⟩ := Outcome.Reaches.returns reaches
  have log : Log {} [⟨.absent, .one 5, r, kvs⟩] kvs :=
    .add .absent (Batch.finite_one 5) (Batch.values_one (n := 5) (by norm_num)) ret
  have run := log.runs
  have one : ∀ t ∈ (history [Batch.one 5]).times, t = 1 := fun t ht => Batch.mem_times_one.mp ht
  have fits : (Samples.overwrite (Batch.one 1).samples (history [.one 5])).size ≤ channelMaxTileSize := by
    decide
  obtain ⟨r', kvs', reaches'⟩ := add_one (v := 1) run
    (fun b hb => List.mem_singleton.mp hb ▸ Batch.weights_one 5) one fits
  obtain ⟨fuel', ret'⟩ := Outcome.Reaches.returns reaches'
  have finite := Batch.finite_one 1
  have values : (Batch.one 1).FiniteValues := by exact_mod_cast Batch.values_one (n := 1) (by norm_num)
  refine ⟨r, kvs, r', kvs', .add log finite values ret', ?_⟩
  rw [log.exact_after_iff finite values ret']
  intro keeps
  rcases run.contents_eq with ⟨-, none⟩ | ⟨info, tree, stored, same⟩
  · exact List.cons_ne_nil _ _ (congrArg Samples.doubles none)
  have all := all_of_one_time run one stored.metainfo
  obtain ⟨tile, rfl⟩ := stored.wf.shape_all all
  have samples : tile.samples = (Batch.one 5).samples := same
  have leaf : kvs.IsLeaf .nonnegativeAll tile := by
    rw [stored.isLeaf_iff, all]
    exact List.mem_singleton_self _
  have here : (Batch.one 1).samples.inside .nonnegativeAll = (Batch.one 1).samples := by
    refine Samples.inside_of_forall fun t ht => ?_
    rw [Batch.mem_times_one.mp ht, TileIndex.containsTime, TileIndex.nonnegativeAll_startTime,
      TileIndex.nonnegativeAll_endTime]
    exact ⟨zero_le_one, by exact_mod_cast nat_lt_doubleMax (n := 1) (by norm_num)⟩
  have whole : (Samples.overwrite ((Batch.one 1).samples.inside .nonnegativeAll) tile.samples).size ≤
      channelMaxTileSize := by
    rw [here, samples]
    exact fits
  have remembered : tile.ranges.doubleSamples.includes 5 := by
    rcases log.ranged with rfl | ⟨info', tree', stored', ranged⟩
    · exact stored.not_absent.elim
    obtain ⟨rfl, rfl⟩ := stored.unique stored'
    refine (CellTree.eachLeaf_leaf.mp ranged).values 5 ?_
    rw [samples]
    exact List.mem_singleton_self _
  obtain ⟨-, -, b, ⟨i, a, other, mem⟩, -, le⟩ := keeps _ tile leaf whole 5 remembered
  have same_leaf := List.mem_singleton.mp (stored.isLeaf_iff.mp other)
  cases same_leaf
  rw [samples] at mem
  have one_value : b = 1 := List.mem_singleton.mp mem
  rw [one_value] at le
  norm_num at le

end Log

end Mio.Datastore
