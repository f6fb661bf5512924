import Mio.Lib.Overwrite
import Mio.Datastore.TileIndex

/-! `Tile.h` and `Tile.cpp`. -/
namespace Mio.Datastore

structure Header where
  magic : BitVec 32
  version : BitVec 32
  deriving DecidableEq, Repr

structure Tile (D F : Type) where
  header : Header
  ranges : DataRanges D
  doubleSamples : List (DataSample D F D)
  stringSamples : List (DataSample D F Text)
  deriving DecidableEq, Repr

namespace Tile

def magic : BitVec 32 := 0x69547442

/-- `write_string_length`: a length word and the text padded to four bytes. -/
def writeStringLength (len : ℕ) : ℕ := 4 + (len + 3) / 4 * 4

/-- All text of the string samples, in the order in which it is written. -/
def text {D F : Type} (samples : List (DataSample D F Text)) : Text :=
  samples.flatMap DataSample.value

/-- The encoded length: header, two counted vectors of 24-byte entries, the text and the ranges. -/
def binaryLength {D F : Type} (t : Tile D F) : ℕ :=
  8 + (4 + 24 * t.doubleSamples.length)
    + ((4 + 24 * t.stringSamples.length) + writeStringLength (text t.stringSamples).length) + 32

end Tile

abbrev ExactTile := Tile ℚ ℚ

/-- `insert_samples_helper`: asserts that the batch is sorted, then merges it over the old
samples. -/
def insertSamplesHelper {ε V : Type} (batch dest : List (Sample V)) :
    Outcome ε (List (Sample V)) := do
  Outcome.assert (Ascending DataSample.time batch) "begin[i-1].time <= begin[i].time"
  return overwrite DataSample.time batch dest

namespace Tile

def new : ExactTile := ⟨⟨magic, 0x00010000⟩, .clear, [], []⟩

def insertDoubleSamples {ε : Type} (t : ExactTile) (batch : List (Sample ℚ)) :
    Outcome ε ExactTile := do
  let samples ← insertSamplesHelper batch t.doubleSamples
  return { t with
    doubleSamples := samples
    ranges :=
      { times := batch.foldl (fun r s => r.addPoint s.time) t.ranges.times
        doubleSamples := batch.foldl (fun r s => r.addPoint s.value) t.ranges.doubleSamples } }

def insertStringSamples {ε : Type} (t : ExactTile) (batch : List (Sample Text)) :
    Outcome ε ExactTile := do
  let samples ← insertSamplesHelper batch t.stringSamples
  return { t with
    stringSamples := samples
    ranges := { t.ranges with times := batch.foldl (fun r s => r.addPoint s.time) t.ranges.times } }

def firstSampleTime (t : ExactTile) : ℚ :=
  let ret := match t.doubleSamples.head? with
    | some s => min doubleMax s.time
    | none => doubleMax
  match t.stringSamples.head? with
  | some s => min ret s.time
  | none => ret

def lastSampleTime (t : ExactTile) : ℚ :=
  let ret := match t.doubleSamples.getLast? with
    | some s => max (-doubleMax) s.time
    | none => -doubleMax
  match t.stringSamples.getLast? with
  | some s => max ret s.time
  | none => ret

end Tile

/-- The template parameter of `add_data_internal`: the value type with its overload of
`insert_samples` and the vector it goes to. -/
class SampleKind (V : Type) extends SampleValue V where
  getSamples : ExactTile → List (Sample V)
  insertSamples {ε : Type} : ExactTile → List (Sample V) → Outcome ε ExactTile

instance : SampleKind ℚ where
  getSamples := Tile.doubleSamples
  insertSamples := Tile.insertDoubleSamples

instance : SampleKind Text where
  getSamples := Tile.stringSamples
  insertSamples := Tile.insertStringSamples

section
variable {ε V : Type} [SampleValue V]

/-- The inner loop of `combine_samples`: one sample goes into its bin. -/
def binSample (nSamples : ℕ) (parentIndex : TileIndex) (bins : ℕ → DataAccumulator V)
    (sample : Sample V) : Outcome ε (ℕ → DataAccumulator V) := do
  Outcome.assert (parentIndex.containsTime sample.time) "parent_index.contains_time(sample.time)"
  let bin := ⌊parentIndex.position sample.time * nSamples⌋.toNat
  Outcome.assert (bin < nSamples) "bin < n_samples"
  let bins := Function.update bins bin (SampleValue.plusEquals (bins bin) sample)
  Outcome.assert (0 < (bins bin).weight) "bins[bin].weight>0"
  return bins

/-- The bins that received any weight, in order, each as one sample. -/
def collectBins (nSamples : ℕ) (bins : ℕ → DataAccumulator V) : List (Sample V) :=
  (List.range nSamples).filterMap fun i =>
    if 0 < (bins i).weight then some (SampleValue.get (bins i)) else none

def combineSamples (nSamples : ℕ) (parentIndex : TileIndex) (leftChild rightChild : List (Sample V)) :
    Outcome ε (List (Sample V)) := do
  let bins ← (leftChild ++ rightChild).foldlM (binSample nSamples parentIndex)
    fun _ => DataAccumulator.zero V
  let parent := collectBins nSamples bins
  Outcome.assert (leftChild = [] ∧ rightChild = [] ∨ parent ≠ []) "parent.size()"
  return parent

end

def channelDoubleSamples : ℕ := 32768

def channelStringSamples : ℕ := 8192

def channelMaxTileSize : ℕ := 1024 * 1024

/-- `create_parent_tile_from_children` fills all of `parent` but its header. -/
def createParentTileFromChildren {ε : Type} (parentIndex : TileIndex) (parent left right : ExactTile) :
    Outcome ε ExactTile := do
  let doubles ← combineSamples channelDoubleSamples parentIndex left.doubleSamples
    right.doubleSamples
  Outcome.assert (left.doubleSamples.length + right.doubleSamples.length = 0 ∨ doubles ≠ [])
    "parent.double_samples.size()"
  let strings ← combineSamples channelStringSamples parentIndex left.stringSamples
    right.stringSamples
  Outcome.assert (left.stringSamples.length + right.stringSamples.length = 0 ∨ strings ≠ [])
    "parent.string_samples.size()"
  return { parent with
    doubleSamples := doubles
    stringSamples := strings
    ranges := left.ranges.add right.ranges }

/-- `split_samples` on both vectors of a tile: the samples before `splitTime` go to the first of
two new tiles, the others to the second. -/
def splitSamples {ε : Type} (tile : ExactTile) (splitTime : ℚ) : Outcome ε (ExactTile × ExactTile) := do
  let a ← Tile.new.insertDoubleSamples (tile.doubleSamples.takeWhile (·.time < splitTime))
  let b ← Tile.new.insertDoubleSamples (tile.doubleSamples.dropWhile (·.time < splitTime))
  let a ← a.insertStringSamples (tile.stringSamples.takeWhile (·.time < splitTime))
  let b ← b.insertStringSamples (tile.stringSamples.dropWhile (·.time < splitTime))
  return (a, b)

end Mio.Datastore
