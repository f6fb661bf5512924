import Mio.Datastore.Samples

/-! `Tile::insert_samples` as an update of a map from times to samples. -/
namespace Mio.Datastore

section
variable {V : Type}

/-- One sample a time, and for each time the batch's last one before the old one. -/
structure UpdatesMap (old batch new : List (Sample V)) : Prop where
  strict : StrictlyAscending DataSample.time new
  latest : ∀ t, lastOf DataSample.time t new =
    (lastOf DataSample.time t batch).or (lastOf DataSample.time t old)

/-- The merge keeps the last sample of each time, and all the others of the batch too. -/
theorem updatesMap_overwrite_iff {old batch : List (Sample V)}
    (strict : StrictlyAscending DataSample.time old) (sorted : Ascending DataSample.time batch) :
    UpdatesMap old batch (overwrite DataSample.time batch old) ↔
      StrictlyAscending DataSample.time batch := by
  constructor
  · intro updated
    exact (strictlyAscending_overwrite_iff strict).mp updated.strict
  · intro apart
    exact ⟨apart.overwrite strict, lastOf_overwrite sorted strict⟩

end

section
variable {V : Type} [SampleKind V]

/-- `insert_samples` returns a tile whose samples are the updated map. -/
def InsertsSamples (t : ExactTile) (batch : List (Sample V)) : Prop :=
  ∃ t', (∀ ε : Type, SampleKind.insertSamples t batch = (.ret t' : Outcome ε ExactTile)) ∧
    UpdatesMap (SampleKind.getSamples t) batch (SampleKind.getSamples t')

theorem insertsSamples_iff [LawfulSampleKind V] {t : ExactTile} {batch : List (Sample V)}
    (merged : SampleKind.getSamples (t.insert (only batch)) =
      overwrite DataSample.time batch (SampleKind.getSamples t))
    (strict : StrictlyAscending DataSample.time (SampleKind.getSamples (V := V) t))
    (sorted : Ascending DataSample.time batch) :
    InsertsSamples t batch ↔ StrictlyAscending DataSample.time batch := by
  rw [← updatesMap_overwrite_iff strict sorted, ← merged]
  constructor
  · intro inserts
    obtain ⟨t', returned, updated⟩ := inserts
    have run := returned Empty
    rw [insertSamples_done t sorted] at run
    cases run
    exact updated
  · intro updated
    exact ⟨t.insert (only batch), fun ε => insertSamples_done t sorted, updated⟩

end

/-- Both overloads: no two samples of the batch may share a time. -/
theorem inserts_samples_iff {t : ExactTile}
    (strictDoubles : StrictlyAscending DataSample.time t.doubleSamples)
    (strictStrings : StrictlyAscending DataSample.time t.stringSamples)
    {doubles : List (Sample ℚ)} (sortedDoubles : Ascending DataSample.time doubles)
    {strings : List (Sample Text)} (sortedStrings : Ascending DataSample.time strings) :
    (InsertsSamples t doubles ↔ StrictlyAscending DataSample.time doubles) ∧
      (InsertsSamples t strings ↔ StrictlyAscending DataSample.time strings) := by
  constructor
  · exact insertsSamples_iff rfl strictDoubles sortedDoubles
  · exact insertsSamples_iff rfl strictStrings sortedStrings

/-- A tile with one sample, and a batch that replaces it and adds one. -/
theorem inserts_samples_iff_two :
    (InsertsSamples { Tile.new with doubleSamples := [⟨1, 5, 1, 0⟩] }
        ([⟨1, 6, 1, 0⟩, ⟨2, 7, 1, 0⟩] : List (Sample ℚ)) ↔
      StrictlyAscending DataSample.time ([⟨1, 6, 1, 0⟩, ⟨2, 7, 1, 0⟩] : List (Sample ℚ))) ∧
    (InsertsSamples { Tile.new with doubleSamples := [⟨1, 5, 1, 0⟩] } ([] : List (Sample Text)) ↔
      StrictlyAscending DataSample.time ([] : List (Sample Text))) :=
  inserts_samples_iff (by decide +kernel) (by decide +kernel) (by decide +kernel) .nil

/-- Two samples at one time both stay. -/
theorem equal_times_stay :
    ¬ InsertsSamples Tile.new ([⟨1, 5, 1, 0⟩, ⟨1, 6, 1, 0⟩] : List (Sample ℚ)) := by
  intro inserts
  have apart := (insertsSamples_iff rfl (by decide +kernel) (by decide +kernel)).mp inserts
  exact absurd apart (by decide +kernel)

end Mio.Datastore
