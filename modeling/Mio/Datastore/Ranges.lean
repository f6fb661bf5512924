import Mathlib.Data.Set.Insert
import Mio.Datastore.Settled

/-! Ranges as the smallest ones around a set, and the ranges kept in tiles. -/
namespace Mio.Datastore

/-- Between the cleared range's ends, where every finite double lies. -/
def Bounded (x : ℚ) : Prop := -doubleMax ≤ x ∧ x ≤ doubleMax

theorem IsDouble.bounded {x : ℚ} (h : IsDouble x) (nonneg : 0 ≤ x) : Bounded x :=
  ⟨(neg_nonpos.mpr doubleMax_pos.le).trans nonneg, h.le_doubleMax⟩

/-- The smallest range that contains `s`; the cleared one if `s` is empty. -/
structure Range.Hull (r : Range ℚ) (s : Set ℚ) : Prop where
  bounds : ∀ x ∈ s, r.min ≤ x ∧ x ≤ r.max
  ends : r.min ∈ s ∧ r.max ∈ s ∨ s = ∅ ∧ r = .clear

namespace Range.Hull

variable {r x : Range ℚ} {s t : Set ℚ}

theorem unique {r' : Range ℚ} (h : r.Hull s) (g : r'.Hull s) : r = r' := by
  cases h.ends with
  | inl attained =>
      cases g.ends with
      | inl attained' =>
          have low := le_antisymm (h.bounds _ attained'.1).1 (g.bounds _ attained.1).1
          have high := le_antisymm (g.bounds _ attained.2).2 (h.bounds _ attained'.2).2
          cases r
          cases r'
          cases low
          cases high
          rfl
      | inr void =>
          have mem := attained.1
          rw [void.1] at mem
          exact mem.elim
  | inr void =>
      cases g.ends with
      | inl attained' =>
          have mem := attained'.1
          rw [void.1] at mem
          exact mem.elim
      | inr void' => exact void.2.trans void'.2.symm

theorem clear : (Range.clear).Hull ∅ := ⟨fun _ h => h.elim, .inr ⟨rfl, rfl⟩⟩

theorem point (x : ℚ) : (⟨x, x⟩ : Range ℚ).Hull {x} := by
  refine ⟨?_, .inl ⟨rfl, rfl⟩⟩
  intro y hy
  rw [Set.mem_singleton_iff.mp hy]
  exact ⟨le_rfl, le_rfl⟩

theorem clear_add (h : x.Hull t) (bounded : ∀ y ∈ t, Bounded y) : Range.clear.add x = x := by
  cases h.ends with
  | inl attained =>
      have low : Min.min doubleMax x.min = x.min := min_eq_right (bounded _ attained.1).2
      have high : Max.max (-doubleMax) x.max = x.max := max_eq_right (bounded _ attained.2).1
      rw [Range.add, Range.clear, low, high]
  | inr void =>
      rw [void.2, Range.add, min_self, max_self]

theorem add_clear (h : r.Hull s) (bounded : ∀ y ∈ s, Bounded y) : r.add .clear = r := by
  have swap : r.add .clear = Range.clear.add r := by
    rw [Range.add, Range.add, min_comm, max_comm]
  rw [swap, h.clear_add bounded]

theorem add (h : r.Hull s) (g : x.Hull t) (bounded : ∀ y ∈ s ∪ t, Bounded y) :
    (r.add x).Hull (s ∪ t) := by
  cases h.ends with
  | inr void =>
      rw [void.1, Set.empty_union] at bounded ⊢
      rw [void.2, g.clear_add bounded]
      exact g
  | inl attained =>
      cases g.ends with
      | inr void =>
          rw [void.1, Set.union_empty] at bounded ⊢
          rw [void.2, h.add_clear bounded]
          exact h
      | inl attained' =>
          refine ⟨?_, .inl ⟨?_, ?_⟩⟩
          · intro y hy
            cases hy with
            | inl hy =>
                exact ⟨(min_le_left _ _).trans (h.bounds y hy).1, (h.bounds y hy).2.trans (le_max_left _ _)⟩
            | inr hy =>
                exact ⟨(min_le_right _ _).trans (g.bounds y hy).1,
                  (g.bounds y hy).2.trans (le_max_right _ _)⟩
          · cases min_choice r.min x.min with
            | inl eq => exact .inl (by simpa only [Range.add, eq] using attained.1)
            | inr eq => exact .inr (by simpa only [Range.add, eq] using attained'.1)
          · cases max_choice r.max x.max with
            | inl eq => exact .inl (by simpa only [Range.add, eq] using attained.2)
            | inr eq => exact .inr (by simpa only [Range.add, eq] using attained'.2)

theorem foldl {α : Type} {f : α → ℚ} {l : List α} (h : r.Hull s)
    (bounded : ∀ y ∈ s ∪ {y | y ∈ l.map f}, Bounded y) :
    (l.foldl (fun r a => r.addPoint (f a)) r).Hull (s ∪ {y | y ∈ l.map f}) := by
  induction l generalizing r s with
  | nil => simpa using h
  | cons a l ih =>
      have split : s ∪ {y | y ∈ (a :: l).map f} = s ∪ {f a} ∪ {y | y ∈ l.map f} := by
        ext y
        simp only [List.map_cons, List.mem_cons, Set.mem_union, Set.mem_singleton_iff, or_assoc]
        exact Iff.rfl
      rw [split] at bounded ⊢
      exact ih (h.add (.point (f a)) fun y hy => bounded y (.inl hy)) bounded

end Range.Hull

namespace Range

def includes (r : Range ℚ) (a : ℚ) : Prop := r.min ≤ a ∧ a ≤ r.max

end Range

def Between (s : Set ℚ) (x : ℚ) : Prop := ∃ a ∈ s, ∃ b ∈ s, a ≤ x ∧ x ≤ b

namespace Between

variable {s t : Set ℚ} {x : ℚ}

theorem of_mem (h : x ∈ s) : Between s x := ⟨x, h, x, h, le_rfl, le_rfl⟩

theorem trans (h : Between s x) (sub : ∀ y ∈ s, Between t y) : Between t x := by
  obtain ⟨a, ha, b, hb, low, high⟩ := h
  obtain ⟨a', ha', -, -, low', -⟩ := sub a ha
  obtain ⟨-, -, b', hb', -, high'⟩ := sub b hb
  exact ⟨a', ha', b', hb', low'.trans low, high.trans high'⟩

theorem bounded (h : Between s x) (all : ∀ y ∈ s, Bounded y) : Bounded x := by
  obtain ⟨a, ha, b, hb, low, high⟩ := h
  exact ⟨(all a ha).1.trans low, high.trans (all b hb).2⟩

end Between

namespace Range.Hull

variable {r : Range ℚ} {s t : Set ℚ} {x : ℚ}

theorem not_includes_clear (x : ℚ) : ¬ Range.clear.includes x := by
  intro inside
  have whole : doubleMax ≤ -doubleMax := inside.1.trans inside.2
  linarith only [whole, doubleMax_pos]

theorem includes_iff (h : r.Hull s) : r.includes x ↔ Between s x := by
  constructor
  · intro inside
    cases h.ends with
    | inl attained => exact ⟨_, attained.1, _, attained.2, inside⟩
    | inr void =>
        rw [void.2] at inside
        exact (not_includes_clear x inside).elim
  · rintro ⟨a, ha, b, hb, low, high⟩
    exact ⟨(h.bounds a ha).1.trans low, high.trans (h.bounds b hb).2⟩

/-- A smaller set has the same hull exactly when it reaches as far. -/
theorem iff_between (h : r.Hull s) (sub : ∀ x ∈ t, x ∈ s) :
    r.Hull t ↔ ∀ x ∈ s, Between t x := by
  constructor
  · exact fun g x hx => g.includes_iff.mp (h.bounds x hx)
  · intro reach
    refine ⟨fun x hx => h.bounds x (sub x hx), ?_⟩
    cases h.ends with
    | inl attained =>
        left
        obtain ⟨a, ha, -, -, low, -⟩ := reach _ attained.1
        obtain ⟨-, -, b, hb, -, high⟩ := reach _ attained.2
        have first : a = r.min := le_antisymm low (h.bounds a (sub a ha)).1
        have last : b = r.max := le_antisymm (h.bounds b (sub b hb)).2 high
        exact ⟨first ▸ ha, last ▸ hb⟩
    | inr void =>
        right
        refine ⟨?_, void.2⟩
        ext x
        constructor
        · intro hx
          have mem := sub x hx
          rwa [void.1] at mem
        · exact fun hx => hx.elim

theorem self (h : r.Hull s) : r.Hull {x | r.includes x} := by
  refine ⟨fun x hx => hx, ?_⟩
  cases h.ends with
  | inl attained =>
      have le : r.min ≤ r.max := (h.bounds _ attained.1).2
      exact .inl ⟨⟨le_rfl, le⟩, le, le_rfl⟩
  | inr void =>
      right
      refine ⟨?_, void.2⟩
      ext x
      rw [void.2]
      exact ⟨fun hx => (not_includes_clear x hx).elim, fun hx => hx.elim⟩

end Range.Hull

def Samples.values (u : Samples) : List ℚ := u.doubles.map DataSample.value

theorem DataRanges.cover_times {r : DataRanges ℚ} {s : Set ℚ} {u : Samples} (h : r.times.Hull s)
    (bounded : ∀ t ∈ s ∪ {t | t ∈ u.times}, Bounded t) :
    (r.cover u).times.Hull (s ∪ {t | t ∈ u.times}) := by
  have split : s ∪ {t | t ∈ u.times} =
      s ∪ {t | t ∈ u.doubles.map DataSample.time} ∪ {t | t ∈ u.strings.map DataSample.time} := by
    ext t
    simp only [Samples.times, List.mem_append, Set.mem_union, or_assoc]
    exact Iff.rfl
  rw [split] at bounded ⊢
  exact (h.foldl fun y hy => bounded y (.inl hy)).foldl bounded

theorem DataRanges.cover_values {r : DataRanges ℚ} {s : Set ℚ} {u : Samples}
    (h : r.doubleSamples.Hull s) (bounded : ∀ t ∈ s ∪ {t | t ∈ u.values}, Bounded t) :
    (r.cover u).doubleSamples.Hull (s ∪ {t | t ∈ u.values}) := h.foldl bounded

/-- The range of the times is the smallest one, for finite times. -/
def TimesExact (a : ExactTile) : Prop :=
  (∀ t ∈ a.samples.times, Bounded t) → a.ranges.times.Hull {t | t ∈ a.samples.times}

theorem TimesExact.insert {a : ExactTile} (h : TimesExact a) (chunk : Samples) :
    TimesExact (a.insert chunk) := by
  intro bounded
  have all : {t | t ∈ (a.insert chunk).samples.times} =
      {t | t ∈ a.samples.times} ∪ {t | t ∈ chunk.times} := by
    ext t
    exact Tile.mem_times_insert.trans or_comm
  rw [all]
  have old : ∀ t ∈ a.samples.times, Bounded t :=
    fun t ht => bounded t (Tile.mem_times_insert.mpr (.inr ht))
  refine DataRanges.cover_times (h old) ?_
  intro t ht
  exact bounded t (Tile.mem_times_insert.mpr (Or.symm ht))

theorem TimesExact.ofSamples (u : Samples) : TimesExact (.ofSamples u) := by
  have new : TimesExact Tile.new := by
    intro _
    have void : {t | t ∈ Tile.new.samples.times} = ∅ := by simp
    rw [void]
    exact .clear
  exact new.insert u

/-- By induction on the height: the ranges of an inner tile are those of its children together. -/
theorem ranges_hull (field : DataRanges ℚ → Range ℚ) {S : ExactTile → Set ℚ} {t : TileTree}
    {c : TileIndex} (add : ∀ x y : DataRanges ℚ, field (x.add y) = (field x).add (field y))
    (nodes : t.EachNode (fun i a l r => Consistent i a l.label r.label) c)
    (leaves : t.EachLeaf (fun _ a => (field a.ranges).Hull (S a) ∧ ∀ x ∈ S a, Bounded x) c) :
    (field t.label.ranges).Hull {x | ∃ leaf ∈ t.leaves c, x ∈ S leaf.2} ∧
      ∀ leaf ∈ t.leaves c, ∀ x ∈ S leaf.2, Bounded x := by
  induction t generalizing c with
  | leaf a =>
      obtain ⟨hull, bounded⟩ := CellTree.eachLeaf_leaf.mp leaves
      have one : {x | ∃ leaf ∈ (CellTree.leaf a).leaves c, x ∈ S leaf.2} = S a := by
        ext x
        simp [CellTree.leaves]
      rw [one]
      refine ⟨hull, fun leaf mem => ?_⟩
      rw [List.mem_singleton.mp mem]
      exact bounded
  | node a l r ihl ihr =>
      obtain ⟨combined, nodesL, nodesR⟩ := CellTree.eachNode_node.mp nodes
      obtain ⟨leavesL, leavesR⟩ := CellTree.eachLeaf_node.mp leaves
      obtain ⟨left, boundedL⟩ := ihl nodesL leavesL
      obtain ⟨right, boundedR⟩ := ihr nodesR leavesR
      have both : {x | ∃ leaf ∈ (CellTree.node a l r).leaves c, x ∈ S leaf.2} =
          {x | ∃ leaf ∈ l.leaves c.lo, x ∈ S leaf.2} ∪ {x | ∃ leaf ∈ r.leaves c.hi, x ∈ S leaf.2} := by
        ext x
        simp only [CellTree.leaves, List.mem_append, or_and_right, exists_or]
        exact Iff.rfl
      have ranges : field a.ranges = (field l.label.ranges).add (field r.label.ranges) := by
        rw [(createParent_ret combined).2.2.1]
        exact add _ _
      rw [CellTree.label, ranges, both]
      constructor
      · refine left.add right fun x hx => ?_
        rcases hx with ⟨leaf, mem, hx⟩ | ⟨leaf, mem, hx⟩
        · exact boundedL leaf mem x hx
        · exact boundedR leaf mem x hx
      · intro leaf mem
        exact (List.mem_append.mp mem).elim (boundedL leaf) (boundedR leaf)

namespace Range

variable {r : Range ℚ} {a x : ℚ}

theorem includes.addPoint (h : r.includes a) (x : ℚ) : (r.addPoint x).includes a :=
  ⟨(min_le_left _ _).trans h.1, h.2.trans (le_max_left _ _)⟩

theorem includes_addPoint (r : Range ℚ) (x : ℚ) : (r.addPoint x).includes x :=
  ⟨min_le_right _ _, le_max_right _ _⟩

theorem addPoint_of_includes (h : r.includes x) : r.addPoint x = r := by
  cases r
  rw [Range.addPoint, min_eq_left h.1, max_eq_left h.2]

section
variable {α : Type} {f : α → ℚ} {l : List α}

theorem includes.foldl (h : r.includes a) (l : List α) :
    (l.foldl (fun r s => r.addPoint (f s)) r).includes a := by
  induction l generalizing r with
  | nil => exact h
  | cons s l ih => exact ih (h.addPoint _)

theorem includes_foldl (r : Range ℚ) {s : α} (mem : s ∈ l) :
    (l.foldl (fun r s => r.addPoint (f s)) r).includes (f s) := by
  induction l generalizing r with
  | nil => cases mem
  | cons b l ih =>
      cases mem with
      | head => exact (includes_addPoint r (f s)).foldl l
      | tail _ mem => exact ih _ mem

theorem foldl_of_includes (h : ∀ s ∈ l, r.includes (f s)) :
    l.foldl (fun r s => r.addPoint (f s)) r = r := by
  induction l with
  | nil => rfl
  | cons s l ih =>
      rw [List.foldl_cons, addPoint_of_includes (h s List.mem_cons_self)]
      exact ih fun x hx => h x (List.mem_cons_of_mem _ hx)

end

end Range

/-- The ranges of a tile include all its samples. -/
structure Covers (a : ExactTile) : Prop where
  times : ∀ t ∈ a.samples.times, a.ranges.times.includes t
  values : ∀ v ∈ a.samples.values, a.ranges.doubleSamples.includes v

namespace Covers

variable {a : ExactTile}

theorem insert (h : Covers a) (chunk : Samples) : Covers (a.insert chunk) := by
  constructor
  · intro t ht
    cases Tile.mem_times_insert.mp ht with
    | inr old => exact ((h.times t old).foldl _).foldl _
    | inl new =>
        cases Samples.mem_times.mp new with
        | inl double =>
            obtain ⟨s, hs, rfl⟩ := double
            exact (Range.includes_foldl _ hs).foldl _
        | inr string =>
            obtain ⟨s, hs, rfl⟩ := string
            exact Range.includes_foldl _ hs
  · intro v hv
    obtain ⟨s, hs, rfl⟩ := List.mem_map.mp hv
    have split : s ∈ chunk.doubles ∨ s ∈ a.doubleSamples := mem_overwrite hs
    cases split with
    | inl new => exact Range.includes_foldl _ new
    | inr old => exact (h.values _ (List.mem_map_of_mem old)).foldl _

theorem ofSamples (u : Samples) : Covers (.ofSamples u) := by
  have new : Covers Tile.new := ⟨fun _ h => (List.not_mem_nil h).elim, fun _ h => (List.not_mem_nil h).elim⟩
  exact new.insert u

/-- Samples that a tile has already leave it as it is. -/
theorem insert_of_absorbed (h : Covers a) {chunk : Samples}
    (same : .overwrite chunk a.samples = a.samples) : a.insert chunk = a := by
  have doubles : overwrite DataSample.time chunk.doubles a.doubleSamples = a.doubleSamples :=
    congrArg Samples.doubles same
  have strings : overwrite DataSample.time chunk.strings a.stringSamples = a.stringSamples :=
    congrArg Samples.strings same
  have mem_doubles : ∀ s ∈ chunk.doubles, s ∈ a.samples.doubles := by
    intro s hs
    have mem : s ∈ overwrite DataSample.time chunk.doubles a.doubleSamples := mem_overwrite_new hs
    rwa [doubles] at mem
  have mem_strings : ∀ s ∈ chunk.strings, s ∈ a.samples.strings := by
    intro s hs
    have mem : s ∈ overwrite DataSample.time chunk.strings a.stringSamples := mem_overwrite_new hs
    rwa [strings] at mem
  have first : chunk.doubles.foldl (fun r s => r.addPoint s.time) a.ranges.times = a.ranges.times :=
    Range.foldl_of_includes fun s hs =>
      h.times _ (Samples.mem_times.mpr (.inl ⟨s, mem_doubles s hs, rfl⟩))
  have second : chunk.strings.foldl (fun r s => r.addPoint s.time) a.ranges.times = a.ranges.times :=
    Range.foldl_of_includes fun s hs =>
      h.times _ (Samples.mem_times.mpr (.inr ⟨s, mem_strings s hs, rfl⟩))
  have third : chunk.doubles.foldl (fun r s => r.addPoint s.value) a.ranges.doubleSamples =
      a.ranges.doubleSamples :=
    Range.foldl_of_includes fun s hs => h.values _ (List.mem_map_of_mem (mem_doubles s hs))
  rw [Tile.insert, DataRanges.cover, first, second, third, doubles, strings]

end Covers

/-- A channel between two calls, with all that is known of its tiles. -/
structure Resting (limit : ℕ) (kvs : Kvs) (info : ChannelInfo) (tree : TileTree) : Prop where
  stored : Stored kvs info tree
  nodes : tree.EachNode (fun i a l r => Consistent i a l.label r.label) info.nonnegativeRootTileIndex
  fits : tree.EachLeaf (fun _ a => a.binaryLength ≤ limit) info.nonnegativeRootTileIndex
  covers : tree.EachLeaf (fun _ a => Covers a) info.nonnegativeRootTileIndex

theorem Runs.resting {ch : Channel} {bs : List Batch} {kvs : Kvs} (run : Runs ch bs kvs) :
    kvs = .absent ∨ ∃ info tree, Resting ch.maxTileSize kvs info tree := by
  rcases run.settled with ⟨none, -⟩ | ⟨info, tree, stored, nodes, fits⟩
  · exact .inl none
  have covers := stored.kept (run.eachLeaf Covers.ofSamples fun _ chunk h => h.insert chunk)
  exact .inr ⟨info, tree, stored, nodes, fits, covers⟩

end Mio.Datastore
