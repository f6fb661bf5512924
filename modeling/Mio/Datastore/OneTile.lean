import Mio.Datastore.Accepts

/-! The leaves of a channel against one unbounded tile. -/
namespace Mio.Datastore

/-- `insert_samples` on whichever kind of samples the batch has. -/
def Tile.insertBatch {ε : Type} (tile : ExactTile) : Batch → Outcome ε ExactTile
  | .doubles data => tile.insertDoubleSamples data
  | .strings data => tile.insertStringSamples data

theorem Tile.insertBatch_done {ε : Type} (tile : ExactTile) {b : Batch} (asc : b.samples.Ascending) :
    (tile.insertBatch b : Outcome ε ExactTile) = .ret (tile.insert b.samples) := by
  cases b with
  | doubles data => exact insertSamples_done (V := ℚ) tile asc.1
  | strings data => exact insertSamples_done (V := Text) tile asc.2

namespace Runs

variable {ch : Channel} {bs : List Batch} {kvs : Kvs}

theorem ascending (run : Runs ch bs kvs) : ∀ b ∈ bs, b.samples.Ascending := by
  induction run with
  | absent => simp
  | add run finite call ih =>
      intro b hb
      rcases List.mem_append.mp hb with hb | hb
      · exact ih b hb
      · rw [List.mem_singleton.mp hb]
        rcases Channel.addData_ret run.usual finite call with ⟨none, -⟩ | ⟨p, q, info, called⟩
        · rw [none]
          exact Samples.ascending_empty
        · rw [← called.opens.pending]
          exact called.wf.ascending

theorem insertBatches {ε : Type} {bs : List Batch} (asc : ∀ b ∈ bs, b.samples.Ascending) :
    ∃ tile, (bs.foldlM Tile.insertBatch Tile.new : Outcome ε ExactTile) = .ret tile ∧
      tile.samples = history bs := by
  have from_tile : ∀ (bs : List Batch) (tile : ExactTile), (∀ b ∈ bs, b.samples.Ascending) →
      ∃ tile', (bs.foldlM Tile.insertBatch tile : Outcome ε ExactTile) = .ret tile' ∧
        tile'.samples = bs.foldl (fun u b => .overwrite b.samples u) tile.samples := by
    intro bs
    induction bs with
    | nil => exact fun tile _ => ⟨tile, rfl, rfl⟩
    | cons b bs ih =>
        intro tile asc
        obtain ⟨tile', run, samples⟩ := ih (tile.insert b.samples)
          fun x hx => asc x (List.mem_cons_of_mem _ hx)
        refine ⟨tile', ?_, samples⟩
        rw [List.foldlM_cons, Tile.insertBatch_done tile (asc b List.mem_cons_self)]
        exact run
  exact from_tile bs Tile.new asc

/-- Read from left to right, the leaves of a channel hold exactly what one tile without a size limit
would hold after the same batches. -/
theorem leaves_hold_one_tile (run : Runs ch bs kvs) :
    ∃ tile, (bs.foldlM Tile.insertBatch Tile.new : Outcome Failure ExactTile) = .ret tile ∧
      (kvs.metainfo = none ∧ tile.doubleSamples = [] ∧ tile.stringSamples = [] ∨
        ∃ info leaves, kvs.metainfo = some (some info) ∧
          Outcome.Reaches (fun fuel => kvs.leafTiles fuel info.nonnegativeRootTileIndex) leaves ∧
          leaves.flatMap Tile.doubleSamples = tile.doubleSamples ∧
          leaves.flatMap Tile.stringSamples = tile.stringSamples) := by
  obtain ⟨tile, inserted, samples⟩ := insertBatches (ε := Failure) run.ascending
  refine ⟨tile, inserted, ?_⟩
  rcases run.contents_eq with ⟨rfl, none⟩ | ⟨info, tree, stored, eq⟩
  · rw [none] at samples
    exact .inl ⟨rfl, congrArg Samples.doubles samples, congrArg Samples.strings samples⟩
  · right
    have flat := flatMap_leaves (tree.leaves info.nonnegativeRootTileIndex)
    rw [← Datastore.contents_eq, eq, ← samples] at flat
    exact ⟨info, _, stored.metainfo, stored.leafTiles, flat.1, flat.2⟩

theorem leaves_hold_one_tile_pair : ∃ kvs, Runs .narrow [.pair] kvs ∧ ∃ tile,
    ([Batch.pair].foldlM Tile.insertBatch Tile.new : Outcome Failure ExactTile) = .ret tile ∧
      (kvs.metainfo = none ∧ tile.doubleSamples = [] ∧ tile.stringSamples = [] ∨
        ∃ info leaves, kvs.metainfo = some (some info) ∧
          Outcome.Reaches (fun fuel => kvs.leafTiles fuel info.nonnegativeRootTileIndex) leaves ∧
          leaves.flatMap Tile.doubleSamples = tile.doubleSamples ∧
          leaves.flatMap Tile.stringSamples = tile.stringSamples) := by
  obtain ⟨kvs, info, tree, run, -⟩ := narrow_pair
  exact ⟨kvs, run, leaves_hold_one_tile run⟩

end Runs
end Mio.Datastore
