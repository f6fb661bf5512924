import Mio.Datastore.Accepts

/-! The shape of a channel at rest, and how each inner tile follows from its children. -/
namespace Mio.Datastore

/-- The stored tiles of a channel form a full binary tree below the root of its info record. -/
structure FullTree (maxTileSize : ℕ) (kvs : Kvs) (info : ChannelInfo) : Prop where
  root : kvs.hasTile info.nonnegativeRootTileIndex
  below : ∀ ti, kvs.hasTile ti → ti ≠ info.nonnegativeRootTileIndex →
    (∃ k, TileIndex.parent^[k] ti = info.nonnegativeRootTileIndex) ∧
      kvs.hasTile ti.parent ∧ kvs.hasTile ti.sibling
  place : info.nonnegativeRootTileIndex = .nonnegativeAll ∧
      (∀ ti, kvs.hasTile ti → ti = .nonnegativeAll) ∨
    Outcome.Reaches (fun fuel => (TileIndex.indexContaining fuel info.times : Outcome Failure _))
      info.nonnegativeRootTileIndex
  sorted : ∀ ti tile, kvs.tiles ti = some tile →
    Ascending DataSample.time tile.doubleSamples ∧ Ascending DataSample.time tile.stringSamples
  doubles : ∀ ti tile, kvs.tiles ti = some tile → ∀ s ∈ tile.doubleSamples, ti.containsTime s.time
  strings : ∀ ti tile, kvs.tiles ti = some tile → ∀ s ∈ tile.stringSamples, ti.containsTime s.time
  small : ∀ ti tile, kvs.tiles ti = some tile → ¬ kvs.hasTile ti.leftChild →
    ¬ kvs.hasTile ti.rightChild → tile.binaryLength ≤ maxTileSize

theorem parent_iterate {ti root : TileIndex} (under : ti.Under root)
    (high : root.level < TileIndex.intMax) : ∃ k, TileIndex.parent^[k] ti = root := by
  obtain ⟨k, rfl⟩ := under
  refine ⟨k, ?_⟩
  induction k generalizing ti with
  | zero => rfl
  | succ k ih =>
      have low : ti.level < TileIndex.intMax := by
        rw [Cell.iter_up_level] at high
        omega
      rw [Function.iterate_succ_apply, TileIndex.parent_eq low, Function.iterate_succ_apply]
      exact ih high

namespace Runs

variable {ch : Channel} {bs : List Batch} {kvs : Kvs}

/-- Between two calls a channel is a full binary tree, as long as no weight is negative. -/
theorem full_tree (run : Runs ch bs kvs) (weights : ∀ b ∈ bs, ∀ w ∈ b.samples.weights, 0 ≤ w) :
    kvs = .absent ∨ ∃ info, kvs.metainfo = some (some info) ∧ FullTree ch.maxTileSize kvs info := by
  rcases run.sound (W := (0 ≤ ·)) (fun _ h => h.le) (fun _ h => h) weights with ⟨none, -⟩ | ⟨info, tree, stored, labels⟩
  · exact .inl none
  have leaves := (stored.kept run.settled).2
  have sound : ∀ ti tile, kvs.tiles ti = some tile → Sound (0 ≤ ·) ti tile.samples := by
    intro ti tile h
    rw [stored.tiles] at h
    exact labels ti tile h
  refine .inr ⟨info, stored.metainfo, ?_, ?_, ?_, fun ti tile h => (sound ti tile h).ascending,
    ?_, ?_, ?_⟩
  · exact Kvs.hasTile_of_some (stored.tiles_of_sub (CellTree.sub_self _ _))
  · intro ti has ne
    obtain ⟨tile, at_ti⟩ := Kvs.tiles_of_hasTile has
    obtain ⟨s, hs, -⟩ := stored.sub at_ti
    obtain ⟨a, l, r, node⟩ := CellTree.sub_up hs ne
    have regular := stored.wf.regular_of_node node
    have reg : Regular ti := stored.wf.regular_of_sub regular hs
    obtain ⟨s', twin⟩ := CellTree.sub_twin hs ne
    refine ⟨parent_iterate (CellTree.under_of_sub hs) regular.lt_intMax, ?_, ?_⟩
    · rw [TileIndex.parent_eq reg.lt_intMax]
      exact Kvs.hasTile_of_some (stored.tiles_of_sub node)
    · exact Kvs.hasTile_of_some (stored.tiles_of_sub twin)
  · by_cases all : info.nonnegativeRootTileIndex = .nonnegativeAll
    · exact .inl ⟨all, fun ti has => stored.eq_all all has⟩
    · exact .inr (stored.indexContaining all)
  · intro ti tile h s hs
    exact (sound ti tile h).inside _ (Samples.mem_times.mpr (.inl ⟨s, hs, rfl⟩))
  · intro ti tile h s hs
    exact (sound ti tile h).inside _ (Samples.mem_times.mpr (.inr ⟨s, hs, rfl⟩))
  · intro ti tile h noLeft noRight
    rcases stored.children h with ⟨-, -, leaf⟩ | ⟨l, r, -, -, left, -⟩
    · exact leaves ti tile (CellTree.mem_leaves.mpr leaf)
    · exact (noLeft (Kvs.hasTile_of_some left)).elim

theorem full_tree_pair : ∃ kvs info, Runs .narrow [.pair] kvs ∧ kvs.metainfo = some (some info) ∧
    info.nonnegativeRootTileIndex = ⟨2, 0⟩ ∧ FullTree 80 kvs info := by
  obtain ⟨kvs, info, tree, run, stored, -, root⟩ := narrow_pair
  have weights : ∀ b ∈ [Batch.pair], ∀ w ∈ b.samples.weights, 0 ≤ w :=
    fun b hb w hw => (Batch.weights_pair b hb w hw).le
  rcases full_tree run weights with rfl | ⟨info', has, full⟩
  · exact stored.not_absent.elim
  rw [stored.metainfo] at has
  cases has
  exact ⟨kvs, info, run, stored.metainfo, root, full⟩

end Runs

/-- Two samples close to each other, the second with a negative weight, and one far behind. -/
def Batch.tilted : Batch := .doubles [⟨0, 1, 3, 0⟩, ⟨1, 1, -2, 0⟩, ⟨40000, 1, 1, 0⟩]

namespace Batch

theorem mem_times_tilted {t : ℚ} : t ∈ tilted.samples.times ↔ t = 0 ∨ t = 1 ∨ t = 40000 := by
  simp [tilted, samples, times_only]

theorem has_tilted {t : ℚ} (mem : t ∈ tilted.samples.times) : Cell.Has ⟨16, 0⟩ t := by
  rcases mem_times_tilted.mp mem with rfl | rfl | rfl <;>
    norm_num [Cell.Has, Cell.start, Cell.stop, Cell.width]

theorem double_tilted {t : ℚ} (mem : t ∈ tilted.samples.times) : IsDouble t ∧ 0 ≤ t := by
  rcases mem_times_tilted.mp mem with rfl | rfl | rfl
  · exact ⟨by exact_mod_cast IsDouble.of_nat (n := 0) (by norm_num), le_rfl⟩
  · exact ⟨by exact_mod_cast IsDouble.of_nat (n := 1) (by norm_num), by norm_num⟩
  · exact ⟨by exact_mod_cast IsDouble.of_nat (n := 40000) (by norm_num), by norm_num⟩

theorem sorted_tilted : tilted.samples.Ascending := by
  refine ⟨?_, .nil⟩
  decide

theorem around_tilted : Around ⟨16, 0⟩ tilted.samples := by
  refine ⟨⟨0, mem_times_tilted.mpr (.inl rfl), 40000, mem_times_tilted.mpr (.inr (.inr rfl)), by norm_num,
    has_tilted (mem_times_tilted.mpr (.inl rfl)), has_tilted (mem_times_tilted.mpr (.inr (.inr rfl))),
    fun d first last => ?_⟩, fun t => has_tilted⟩
  by_contra low
  have half : Cell.Has ⟨15, 0⟩ 0 := by norm_num [Cell.Has, Cell.start, Cell.stop, Cell.width]
  have under : d.Under ⟨15, 0⟩ := Cell.under_of_has first half (Int.lt_add_one_iff.mp (not_le.mp low))
  have beyond := (under.has last).2
  norm_num [Cell.stop, Cell.width] at beyond

end Batch

theorem regular_tilted : Regular ⟨16, 0⟩ := ⟨by decide, by decide⟩

theorem start_tilted : TileIndex.startTime ⟨16, 0⟩ = 0 := by
  rw [TileIndex.startTime_eq (by decide) (by decide)]
  norm_num [Cell.start]

/-- The first two samples share a bin, whose mean lies in front of the tile. -/
theorem combine_tilted (ε : Type) : ∃ doubles, (combineSamples channelDoubleSamples ⟨16, 0⟩
      [⟨0, 1, 3, 0⟩, ⟨1, 1, -2, 0⟩] [⟨40000, 1, 1, 0⟩] : Outcome ε (List (Sample ℚ))) = .ret doubles ∧
    ∃ s ∈ doubles, s.time = -2 := by
  have inside : ∀ t ∈ Batch.tilted.samples.times, TileIndex.containsTime ⟨16, 0⟩ t := fun t mem =>
    (regular_tilted.containsTime_iff t).mpr (Batch.has_tilted mem)
  have bin : ∀ (t : ℚ) (i : ℕ), (i : ℚ) ≤ t / 2 → t / 2 < i + 1 →
      ⌊TileIndex.position ⟨16, 0⟩ t * channelDoubleSamples⌋.toNat = i := by
    intro t i low high
    have scaled : TileIndex.position ⟨16, 0⟩ t * channelDoubleSamples = t / 2 := by
      rw [TileIndex.position, start_tilted, TileIndex.duration, TileIndex.levelToDuration, channelDoubleSamples]
      norm_num
      ring
    have floor : ⌊t / 2⌋ = (i : ℤ) := Int.floor_eq_iff.mpr ⟨by exact_mod_cast low, by exact_mod_cast high⟩
    rw [scaled, floor, Int.toNat_natCast]
  let bins : ℕ → DataAccumulator ℚ := fun _ => .zero ℚ
  let bins₁ := Function.update bins 0 (SampleValue.plusEquals (bins 0) ⟨0, 1, 3, 0⟩)
  let bins₂ := Function.update bins₁ 0 (SampleValue.plusEquals (bins₁ 0) ⟨1, 1, -2, 0⟩)
  let bins₃ := Function.update bins₂ 20000 (SampleValue.plusEquals (bins₂ 20000) ⟨40000, 1, 1, 0⟩)
  have weight₁ : (bins₁ 0).weight = 3 := by
    simp [bins₁, bins, weight_plusEquals, DataAccumulator.zero]
  have weight₂ : (bins₂ 0).weight = 1 := by
    rw [show bins₂ 0 = SampleValue.plusEquals (bins₁ 0) ⟨1, 1, -2, 0⟩ from Function.update_self ..,
      weight_plusEquals, weight₁]
    norm_num
  have timesum₂ : (bins₂ 0).timesum = -2 := by
    have timesum₁ : (bins₁ 0).timesum = 0 := by
      simp [bins₁, bins, timesum_plusEquals, DataAccumulator.zero]
    rw [show bins₂ 0 = SampleValue.plusEquals (bins₁ 0) ⟨1, 1, -2, 0⟩ from Function.update_self ..,
      timesum_plusEquals, timesum₁]
    norm_num
  have beyond : (bins₂ 20000).weight = 0 := rfl
  have kept : bins₃ 0 = bins₂ 0 := Function.update_of_ne (by decide) ..
  have first : (binSample channelDoubleSamples ⟨16, 0⟩ bins ⟨0, 1, 3, 0⟩ : Outcome ε _) = .ret bins₁ :=
    binSample_done (inside 0 (by simp [Batch.mem_times_tilted])) (bin 0 0 (by norm_num) (by norm_num))
      (by decide) (by simp [bins, DataAccumulator.zero])
  have second : (binSample channelDoubleSamples ⟨16, 0⟩ bins₁ ⟨1, 1, -2, 0⟩ : Outcome ε _) = .ret bins₂ :=
    binSample_done (inside 1 (by simp [Batch.mem_times_tilted])) (bin 1 0 (by norm_num) (by norm_num))
      (by decide) (by norm_num [weight₁])
  have third : (binSample channelDoubleSamples ⟨16, 0⟩ bins₂ ⟨40000, 1, 1, 0⟩ : Outcome ε _) = .ret bins₃ :=
    binSample_done (inside 40000 (by simp [Batch.mem_times_tilted]))
      (bin 40000 20000 (by norm_num) (by norm_num)) (by decide) (by norm_num [beyond])
  have mem : SampleValue.get (bins₃ 0) ∈ collectBins channelDoubleSamples bins₃ := by
    refine List.mem_filterMap.mpr ⟨0, List.mem_range.mpr (by decide), if_pos ?_⟩
    rw [kept, weight₂]
    exact one_pos
  refine ⟨collectBins channelDoubleSamples bins₃, ?_, _, mem, ?_⟩
  · have some : collectBins channelDoubleSamples bins₃ ≠ [] := List.ne_nil_of_mem mem
    have fold : ([⟨0, 1, 3, 0⟩, ⟨1, 1, -2, 0⟩] ++ [⟨40000, 1, 1, 0⟩] : List (Sample ℚ)).foldlM
        (binSample channelDoubleSamples ⟨16, 0⟩) bins = (.ret bins₃ : Outcome ε _) :=
      (Outcome.bind_of_ret first).trans ((Outcome.bind_of_ret second).trans (Outcome.bind_of_ret third))
    exact (Outcome.bind_of_ret fold).trans (Outcome.bind_of_ret (Outcome.assert_of (.inr some) _))
  · rw [kept, time_get, timesum₂, weight₂]
    norm_num

/-- The two samples close to each other make one tile, and the third makes another. -/
theorem grown_tilted {tile : ExactTile} (held : tile.samples = Batch.tilted.samples) :
    ∃ parent l r, Grown 104 ⟨16, 0⟩ tile (.node parent l r) ∧ ∃ s ∈ parent.doubleSamples, s.time = -2 := by
  have middle : (Cell.hi ⟨16, 0⟩).start = 32768 := by norm_num [Cell.hi, Cell.start, Cell.width]
  have left : tile.samples.before 32768 = ⟨[⟨0, 1, 3, 0⟩, ⟨1, 1, -2, 0⟩], []⟩ := by
    rw [held]
    rfl
  have right : tile.samples.since 32768 = ⟨[⟨40000, 1, 1, 0⟩], []⟩ := by
    rw [held]
    rfl
  obtain ⟨doubles, combined, s, mem, time⟩ := combine_tilted Failure
  obtain ⟨strings, none, -⟩ := combineSamples_done (ε := Failure) (n := channelStringSamples)
    (l := ([] : List (Sample Text))) (r := []) (by decide) regular_tilted.spans (by simp)
  have both : (createParentTileFromChildren ⟨16, 0⟩ tile
      (.ofSamples ⟨[⟨0, 1, 3, 0⟩, ⟨1, 1, -2, 0⟩], []⟩) (.ofSamples ⟨[⟨40000, 1, 1, 0⟩], []⟩) :
        Outcome Failure _) = .ret _ :=
    (Outcome.bind_of_ret combined).trans <|
      (Outcome.bind_of_ret (Outcome.assert_of (.inr (List.ne_nil_of_mem mem)) _)).trans <|
        (Outcome.bind_of_ret none).trans (Outcome.bind_of_ret (Outcome.assert_of (.inl rfl) _))
  refine ⟨_, .leaf _, .leaf _, .node ?_ ?_ ?_ both, s, mem, time⟩
  · rw [Tile.binaryLength_eq, held]
    decide
  · rw [middle, left]
    exact .leaf (by decide)
  · rw [middle, right]
    exact .leaf (by decide)

namespace Runs

variable {ch : Channel} {bs : List Batch} {kvs : Kvs}

/-- With a negative weight the mean of a bin leaves the interval of the tile. -/
theorem negative_weight_leaves_tile : ∃ kvs, Runs { maxTileSize := 104 } [.tilted] kvs ∧
    ¬ (kvs = .absent ∨ ∃ info, kvs.metainfo = some (some info) ∧ FullTree 104 kvs info) := by
  have held : (Tile.new.insert Batch.tilted.samples).samples = Batch.tilted.samples := by
    rw [Tile.samples_insert, Tile.samples_new, Samples.overwrite_empty_right]
  obtain ⟨parent, l, r, grown, s, mem, time⟩ := grown_tilted held
  have low : ∀ t ∈ Batch.tilted.samples.times, TileIndex.nonnegativeAll.containsTime t := by
    intro t ht
    rw [TileIndex.containsTime, TileIndex.nonnegativeAll_startTime, TileIndex.nonnegativeAll_endTime]
    refine ⟨(Batch.double_tilted ht).2, ?_⟩
    rcases Batch.mem_times_tilted.mp ht with rfl | rfl | rfl
    · exact doubleMax_pos
    · exact_mod_cast nat_lt_doubleMax (n := 1) (by norm_num)
    · exact_mod_cast nat_lt_doubleMax (n := 40000) (by norm_num)
  have long : 104 < (Tile.new.insert Batch.tilted.samples).binaryLength := by
    rw [Tile.binaryLength_eq, held]
    decide
  obtain ⟨ranges, info, kvs, reaches, has, root, stored⟩ := Channel.addDataInternal_splits
    (fun _ _ => rfl : ({ maxTileSize := 104 } : Channel).Quiet) Batch.sorted_tilted (fun t => Batch.double_tilted)
    (fun x hx => low x.time (Samples.mem_times.mpr (.inl ⟨x, hx, rfl⟩))) long Batch.around_tilted
    regular_tilted grown
  obtain ⟨fuel, ret⟩ := Outcome.Reaches.returns reaches
  refine ⟨kvs, .add .absent (fun t ht => (Batch.double_tilted ht).1) (b := .tilted) ret, ?_⟩
  rintro (rfl | ⟨info', has', full⟩)
  · cases has
  · have inside := (full.doubles ⟨16, 0⟩ parent stored s mem).1
    rw [time, start_tilted] at inside
    norm_num at inside

/-- Between two calls every inner tile is what its two children combine to. -/
theorem inner_tiles_current (run : Runs ch bs kvs) {ti : TileIndex} {parent : ExactTile}
    (stored : kvs.tiles ti = some parent) (inner : kvs.hasTile ti.leftChild ∨ kvs.hasTile ti.rightChild) :
    ∃ left right, kvs.tiles ti.leftChild = some left ∧ kvs.tiles ti.rightChild = some right ∧
      (combineSamples channelDoubleSamples ti left.doubleSamples right.doubleSamples :
        Outcome Failure _) = .ret parent.doubleSamples ∧
      (combineSamples channelStringSamples ti left.stringSamples right.stringSamples :
        Outcome Failure _) = .ret parent.stringSamples ∧
      parent.ranges = left.ranges.add right.ranges := by
  rcases run.settled with ⟨rfl, -⟩ | ⟨info, tree, channel, nodes, -⟩
  · cases stored
  rcases channel.children stored with ⟨noLeft, noRight, -⟩ | ⟨l, r, -, node, left, right⟩
  · exact (inner.elim noLeft noRight).elim
  · obtain ⟨doubles, strings, ranges, -⟩ := createParent_ret (nodes ti parent l r node)
    exact ⟨l.label, r.label, left, right, doubles, strings, ranges⟩

theorem inner_tiles_current_pair : ∃ kvs parent left right, Runs .narrow [.pair] kvs ∧
    kvs.tiles ⟨2, 0⟩ = some parent ∧ kvs.tiles ⟨1, 0⟩ = some left ∧ kvs.tiles ⟨1, 1⟩ = some right ∧
      (combineSamples channelDoubleSamples ⟨2, 0⟩ left.doubleSamples right.doubleSamples :
        Outcome Failure _) = .ret parent.doubleSamples := by
  obtain ⟨kvs, info, tree, run, stored, same, root⟩ := narrow_pair
  have ne : info.nonnegativeRootTileIndex ≠ .nonnegativeAll := by
    rw [root]
    decide
  obtain ⟨regular, parent, l, r, node⟩ := stored.wf.shape_node ne
  dsimp only at node
  have top : tree.sub info.nonnegativeRootTileIndex ⟨2, 0⟩ = some (.node parent l r) := by
    rw [root, node, CellTree.sub_self]
  have at_top := stored.tiles_of_sub top
  have at_left : kvs.tiles (TileIndex.leftChild ⟨2, 0⟩) = some l.label :=
    stored.tiles_of_sub (CellTree.sub_lo top)
  obtain ⟨left, right, hl, hr, doubles, -⟩ :=
    inner_tiles_current run at_top (.inl (Kvs.hasTile_of_some at_left))
  exact ⟨kvs, parent, left, right, run, at_top, hl, hr, doubles⟩

end Runs
end Mio.Datastore
