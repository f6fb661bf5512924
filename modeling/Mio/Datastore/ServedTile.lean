import Mio.Datastore.ClosestAncestor
import Mio.Datastore.Subsampling

/-! `read_tile_samples` of the tile server: the samples of one stored tile that lie in the tile of a
client, in at most 512 bins. -/
namespace Mio.Datastore

namespace TileIndex

/-- `gettile` asks for the fifth ancestor of the tile of its client. -/
def requestedIndex (clientTileIndex : TileIndex) : TileIndex :=
  clientTileIndex.parent.parent.parent.parent.parent

/-- The tiles of clients for which one tile is asked for. -/
def clientTiles (requestedIndex : TileIndex) : List TileIndex := Cell.below 5 requestedIndex

theorem level_parent (ti : TileIndex) :
    ti.parent.level = if ti.level = intMax then intMin else ti.level + 1 := by
  by_cases all : ti.level = intMax
  · have top : ti.isAll := all
    rw [parent, if_pos top, if_pos all]
    rfl
  · rw [parent, if_neg (show ¬ ti.isAll from all), if_neg all]

theorem requestedIndex_eq {c : TileIndex} (high : c.level + 5 ≤ intMax) :
    c.requestedIndex = Cell.up^[5] c := by
  have step : ∀ k : ℕ, k < 5 → parent (Cell.up^[k] c) = Cell.up^[k + 1] c := by
    intro k lt
    have level : (Cell.up^[k] c).level < intMax := by
      rw [Cell.iter_up_level]
      omega
    rw [parent_eq level, Function.iterate_succ_apply']
  have first : c.parent = Cell.up^[1] c := step 0 (by decide)
  rw [requestedIndex, first, step 1 (by decide), step 2 (by decide), step 3 (by decide),
    step 4 (by decide)]

/-- The parents that pass the all-tiles lie at the lowest levels. -/
theorem requestedIndex_low {c : TileIndex} (low : intMax < c.level + 5) (high : c.level ≤ intMax) :
    c.requestedIndex.level < intMin + 5 := by
  simp only [requestedIndex, level_parent, intMax, intMin] at *
  split_ifs <;> omega

theorem mem_clientTiles {c ti : TileIndex} (low : intMin + 5 ≤ ti.level) (high : ti.level ≤ intMax)
    (int : c.level ≤ intMax) : c ∈ ti.clientTiles ↔ c.requestedIndex = ti := by
  rw [clientTiles, Cell.mem_below]
  by_cases ordinary : c.level + 5 ≤ intMax
  · rw [requestedIndex_eq ordinary]
  · apply iff_of_false
    · intro above
      have level := Cell.iter_up_level 5 c
      rw [above] at level
      push_cast at level
      omega
    · intro same
      have level := requestedIndex_low (not_le.mp ordinary) int
      rw [same] at level
      exact absurd low (not_le.mpr level)

end TileIndex

/-- The bin of a time: `duration` in the code is 512 by the duration of the tile. -/
def binOf (clientTileIndex : TileIndex) (time : ℚ) : ℤ :=
  ⌊(time - clientTileIndex.startTime) * (512 / clientTileIndex.duration)⌋

section
variable {V : Type}

/-- `bins[..] += sample`, which aborts at an index that none of the 512 bins has. -/
def addToBin [SampleValue V] (clientTileIndex : TileIndex) (bins : ℕ → DataAccumulator V) (sample : Sample V) :
    Outcome Failure (ℕ → DataAccumulator V) := do
  let bin := binOf clientTileIndex sample.time
  Outcome.assert (0 ≤ bin ∧ bin < 512) "bins"
  return Function.update bins bin.toNat (SampleValue.plusEquals (bins bin.toNat) sample)

/-- `tile.get_samples<T>()` of the tile that is found, if any. -/
def foundSamples [SampleKind V] : Option (TileIndex × ExactTile) → List (Sample V)
  | none => []
  | some (_, tile) => SampleKind.getSamples tile

def samplesWithin (clientTileIndex : TileIndex) (samples : List (Sample V)) : List (Sample V) :=
  samples.filter fun s => clientTileIndex.startTime ≤ s.time ∧ s.time < clientTileIndex.endTime

/-- Returns `samples` and `binned`. `start` is what becomes of the start of the requested tile. -/
def readTileSamples [SampleKind V] (start : TileIndex → ℚ) (wide : ℤ → ℤ → ℤ) (fuel : ℕ)
    (requestedIndex clientTileIndex : TileIndex) : ChannelM (List (Sample V) × Bool) := do
  let found ← Channel.readClosest start wide fuel requestedIndex
  let samples := samplesWithin clientTileIndex (foundSamples found)
  if samples.length ≤ 512 then return (samples, false)
  else do
    let bins ← Exec.read fun _ =>
      samples.foldlM (addToBin clientTileIndex) fun _ => DataAccumulator.zero V
    return (collectBins 512 bins, true)

end

theorem binOf_eq (c : TileIndex) (t : ℚ) : binOf c t = ⌊c.position t * (512 : ℕ)⌋ := by
  rw [binOf, TileIndex.position]
  congr 1
  push_cast
  ring

/-- The interval of the tile is that of the bins. -/
theorem binOf_bounds {c : TileIndex} {t : ℚ} (spans : Spans c) (has : c.containsTime t) :
    0 ≤ binOf c t ∧ binOf c t < 512 := by
  have nonneg : 0 ≤ binOf c t := by
    apply Int.floor_nonneg.mpr
    exact mul_nonneg (sub_nonneg.mpr has.1) (div_nonneg (by norm_num) (duration_pos c).le)
  have lt := bin_lt (n := 512) (by decide) spans has
  rw [← binOf_eq] at lt
  omega

/-- Inside the tile the bins are filled as when tiles are combined. -/
theorem addToBin_of_binSample {c : TileIndex} {bins bins' : ℕ → DataAccumulator ℚ} {s : Sample ℚ}
    (spans : Spans c) (has : c.containsTime s.time)
    (run : (binSample 512 c bins s : Outcome Failure _) = .ret bins') :
    addToBin c bins s = .ret bins' := by
  obtain ⟨-, rfl⟩ := binSample_cases run
  rw [addToBin, Outcome.assert_of (binOf_bounds spans has), Outcome.ret_bind, ← binOf_eq]
  rfl

theorem addToBins_of_binSamples {c : TileIndex} (spans : Spans c) {l : List (Sample ℚ)}
    (has : ∀ s ∈ l, c.containsTime s.time) {bins bins' : ℕ → DataAccumulator ℚ}
    (run : (l.foldlM (binSample 512 c) bins : Outcome Failure _) = .ret bins') :
    l.foldlM (addToBin c) bins = .ret bins' := by
  induction l generalizing bins with
  | nil => exact run
  | cons s l ih =>
      rw [List.foldlM_cons] at run ⊢
      obtain ⟨mid, step, run⟩ := Outcome.bind_eq_ret.mp run
      obtain ⟨here, rest⟩ := List.forall_mem_cons.mp has
      rw [addToBin_of_binSample spans here step, Outcome.ret_bind]
      exact ih rest run

/-- What a client gets: at most 512 samples of its interval in order, from bins within bounds. -/
structure Served (clientTileIndex : TileIndex) (samples : List (Sample ℚ)) : Prop where
  indexed : ∀ t, clientTileIndex.containsTime t → 0 ≤ binOf clientTileIndex t ∧ binOf clientTileIndex t < 512
  few : samples.length ≤ 512
  ascending : Ascending DataSample.time samples
  inside : ∀ s ∈ samples, clientTileIndex.containsTime s.time

/-- The means of the bins have the sums of what went into them. -/
theorem serves_bins {c : TileIndex} (spans : Spans c) {l : List (Sample ℚ)}
    (within : ∀ s ∈ l, c.containsTime s.time ∧ 0 < s.weight) : ∃ bins,
      l.foldlM (addToBin c) (fun _ => DataAccumulator.zero ℚ) = .ret bins ∧
        Served c (collectBins 512 bins) ∧ moments (collectBins 512 bins) = moments l := by
  have start : ∀ i : ℕ, 0 ≤ ((fun _ => DataAccumulator.zero ℚ : ℕ → DataAccumulator ℚ) i).weight :=
    fun _ => le_rfl
  obtain ⟨bins, fold, -⟩ := binSamples_done (ε := Failure) (n := 512) (by decide) spans within start
  have binned : Binned 512 c bins :=
    binSamples_ret (by decide) (fun s hs => (within s hs).2.le) (.zero 512 c) fold
  have solid : ∀ i, (bins i).Solid :=
    binSamples_keep (fun _ => .zero) (fun s hs _ ha => ha.plusEquals (within s hs).2) fold
  obtain ⟨apart, inside⟩ := binned.collect spans (by decide)
  refine ⟨bins, addToBins_of_binSamples spans (fun s hs => (within s hs).1) fold, ?_, ?_⟩
  · refine ⟨fun t => binOf_bounds spans, collectBins_length 512 bins, ?_, fun s hs => (inside s hs).1⟩
    exact apart.imp le_of_lt
  · rw [collectBins_moments solid, binSamples_moments fold, binMoments_zero, zero_add]

/-- Every client is served, and together they get the sums of what the tile that is found has in an
interval. -/
def ServesClients (kvs : Kvs) (start : TileIndex → ℚ) (requestedIndex : TileIndex) (interval : ℚ → Prop)
    [DecidablePred interval] : Prop :=
  ∃ found kvs', ∃ served : TileIndex → List (Sample ℚ),
    Exec.Reaches (fun fuel => Channel.readClosest start TileIndex.exactShift fuel requestedIndex) kvs
      found kvs' ∧
    (∀ c ∈ requestedIndex.clientTiles, Served c (served c) ∧ ∃ binned,
      Exec.Reaches (fun fuel => readTileSamples start TileIndex.exactShift fuel requestedIndex c) kvs
        (served c, binned) kvs') ∧
    (requestedIndex.clientTiles.map fun c => moments (served c)).sum =
      moments ((foundSamples found).filter fun s => interval s.time)

section
variable {kvs kvs' : Kvs} {start : TileIndex → ℚ} {wide : ℤ → ℤ → ℤ} {ti c : TileIndex}
  {found : Option (TileIndex × ExactTile)}

theorem mem_samplesWithin {l : List (Sample ℚ)} {s : Sample ℚ} :
    s ∈ samplesWithin c l ↔ s ∈ l ∧ c.containsTime s.time := by
  rw [samplesWithin, List.mem_filter, decide_eq_true_iff]
  rfl

theorem reads_few {V : Type} [SampleKind V]
    (reads : Exec.Reaches (fun fuel => Channel.readClosest start wide fuel ti) kvs found kvs')
    (few : (samplesWithin c (foundSamples found : List (Sample V))).length ≤ 512) :
    Exec.Reaches (fun fuel => readTileSamples start wide fuel ti c) kvs
      (samplesWithin c (foundSamples found : List (Sample V)), false) kvs' := by
  apply Exec.Reaches.bind reads
  apply Exec.Reaches.of_ret
  intro fuel
  exact congrFun (if_pos few) kvs'

theorem reads_many {V : Type} [SampleKind V] {bins : ℕ → DataAccumulator V}
    (reads : Exec.Reaches (fun fuel => Channel.readClosest start wide fuel ti) kvs found kvs')
    (many : ¬ (samplesWithin c (foundSamples found : List (Sample V))).length ≤ 512)
    (fold : (samplesWithin c (foundSamples found : List (Sample V))).foldlM (addToBin c)
      (fun _ => DataAccumulator.zero V) = .ret bins) :
    Exec.Reaches (fun fuel => readTileSamples start wide fuel ti c) kvs
      (collectBins 512 bins, true) kvs' := by
  apply Exec.Reaches.bind reads
  apply Exec.Reaches.of_ret
  intro fuel
  refine (congrFun (if_neg many) kvs').trans ?_
  exact Exec.bind_of_ret (Exec.read_of_ret fold)

theorem served_one
    (reads : Exec.Reaches (fun fuel => Channel.readClosest start wide fuel ti) kvs found kvs')
    (ascending : Ascending DataSample.time (foundSamples found : List (Sample ℚ)))
    (weights : ∀ s ∈ (foundSamples found : List (Sample ℚ)), 0 < s.weight) (spans : Spans c) :
    ∃ samples, Served c samples ∧ moments samples = moments (samplesWithin c (foundSamples found)) ∧
      ∃ binned, Exec.Reaches (fun fuel => readTileSamples start wide fuel ti c) kvs (samples, binned) kvs' := by
  have within : ∀ s ∈ samplesWithin c (foundSamples found : List (Sample ℚ)),
      c.containsTime s.time ∧ 0 < s.weight := by
    intro s hs
    obtain ⟨mem, has⟩ := mem_samplesWithin.mp hs
    exact ⟨has, weights s mem⟩
  by_cases few : (samplesWithin c (foundSamples found : List (Sample ℚ))).length ≤ 512
  · refine ⟨_, ⟨fun t => binOf_bounds spans, few, ?_, fun s hs => (within s hs).1⟩, rfl, false,
      reads_few reads few⟩
    exact List.Pairwise.filter _ ascending
  · obtain ⟨bins, fold, served, sums⟩ := serves_bins spans within
    exact ⟨_, served, sums, true, reads_many reads few fold⟩

end

theorem ServesClients.congr {kvs : Kvs} {start : TileIndex → ℚ} {ti : TileIndex} {p q : ℚ → Prop}
    [DecidablePred p] [DecidablePred q] (h : ServesClients kvs start ti p) (same : ∀ t, p t ↔ q t) :
    ServesClients kvs start ti q := by
  obtain ⟨found, kvs', served, reads, each, sums⟩ := h
  refine ⟨found, kvs', served, reads, each, sums.trans ?_⟩
  congr 1
  apply List.filter_congr
  intro s _
  exact decide_eq_decide.mpr (same s.time)

/-- What the clients get does not depend on the interval. -/
theorem ServesClients.sums_eq {kvs kvs' : Kvs} {start : TileIndex → ℚ} {ti : TileIndex}
    {found : Option (TileIndex × ExactTile)} {p q : ℚ → Prop} [DecidablePred p] [DecidablePred q]
    (h : ServesClients kvs start ti p) (g : ServesClients kvs start ti q)
    (reads : Exec.Reaches (fun fuel => Channel.readClosest start TileIndex.exactShift fuel ti) kvs found kvs') :
    moments ((foundSamples found).filter fun s => p s.time) =
      moments ((foundSamples found).filter fun s => q s.time) := by
  obtain ⟨f, t, served, readsF, eachF, sumsF⟩ := h
  obtain ⟨g, u, served', readsG, eachG, sumsG⟩ := g
  cases Outcome.Reaches.unique reads readsF
  cases Outcome.Reaches.unique reads readsG
  rw [← sumsF, ← sumsG]
  congr 1
  apply List.map_congr_left
  intro c client
  obtain ⟨-, binned, got⟩ := eachF c client
  obtain ⟨-, binned', got'⟩ := eachG c client
  have same : served c = served' c := congrArg (fun end_ => end_.1.1) (Outcome.Reaches.unique got got')
  exact congrArg moments same

theorem not_serves_of_void {kvs kvs' : Kvs} {start : TileIndex → ℚ} {ti : TileIndex}
    {found : Option (TileIndex × ExactTile)} {interval : ℚ → Prop} [DecidablePred interval]
    (reads : Exec.Reaches (fun fuel => Channel.readClosest start TileIndex.exactShift fuel ti) kvs found kvs')
    (void : ∀ c ∈ ti.clientTiles, samplesWithin c (foundSamples found : List (Sample ℚ)) = [])
    (some : moments ((foundSamples found).filter fun s => interval s.time) ≠ 0) :
    ¬ ServesClients kvs start ti interval := by
  rintro ⟨found', kvs', served, reads', each, sums⟩
  cases Outcome.Reaches.unique reads reads'
  have nothing : ∀ c ∈ ti.clientTiles, moments (served c) = 0 := by
    intro c client
    obtain ⟨-, binned, got⟩ := each c client
    have few := reads_few (V := ℚ) (c := c) reads (by rw [void c client]; exact Nat.zero_le _)
    have same : served c = samplesWithin c (foundSamples found) :=
      congrArg (fun end_ => end_.1.1) (Outcome.Reaches.unique got few)
    rw [same, void c client]
    rfl
  rw [List.map_congr_left nothing] at sums
  apply some
  rw [← sums]
  simp

/-- The clients of a tile are no sentinels, unless one of them is the null index. -/
theorem client_ordinary {ti c : TileIndex} (high : ti.level ≤ TileIndex.intMax)
    (proper : ti ≠ ⟨TileIndex.intMin + 5, 0⟩) (client : c ∈ ti.clientTiles) :
    ¬ c.isNull ∧ c.level < TileIndex.intMax := by
  have above := Cell.mem_below.mp client
  have level := Cell.iter_up_level 5 c
  rw [above] at level
  push_cast at level
  refine ⟨fun null => proper ?_, by omega⟩
  rw [TileIndex.isNull_iff.mp null] at above
  rw [← above]
  rfl

theorem serves_of_reads {kvs kvs' : Kvs} {start : TileIndex → ℚ} {ti : TileIndex}
    {found : Option (TileIndex × ExactTile)}
    (reads : Exec.Reaches (fun fuel => Channel.readClosest start TileIndex.exactShift fuel ti) kvs found kvs')
    (ascending : Ascending DataSample.time (foundSamples found : List (Sample ℚ)))
    (weights : ∀ s ∈ (foundSamples found : List (Sample ℚ)), 0 < s.weight)
    (high : ti.level ≤ TileIndex.intMax) (proper : ti ≠ ⟨TileIndex.intMin + 5, 0⟩) :
    ServesClients kvs start ti ti.Has := by
  have each : ∀ c ∈ ti.clientTiles, ∃ samples, Served c samples ∧
      moments samples = moments ((foundSamples found).filter fun s => c.Has s.time) ∧ ∃ binned,
        Exec.Reaches (fun fuel => readTileSamples start TileIndex.exactShift fuel ti c) kvs
          (samples, binned) kvs' := by
    intro c client
    obtain ⟨null, top⟩ := client_ordinary high proper client
    have same : samplesWithin c (foundSamples found : List (Sample ℚ)) =
        (foundSamples found).filter fun s => c.Has s.time := by
      apply List.filter_congr
      intro s _
      exact decide_eq_decide.mpr (TileIndex.containsTime_iff null top s.time)
    rw [← same]
    exact served_one reads ascending weights (spans_of null top)
  choose! served good sums binned using each
  refine ⟨found, kvs', served, reads, fun c client => ⟨good c client, binned c client⟩, ?_⟩
  rw [List.map_congr_left sums]
  exact Cell.sum_below DataSample.time _ 5 ti (foundSamples found)

namespace Runs

variable {ch : Channel} {bs : List Batch} {kvs : Kvs}

theorem serves_has (run : Runs ch bs kvs) (weights : ∀ b ∈ bs, ∀ w ∈ b.samples.weights, 0 < w)
    (start : TileIndex → ℚ) {ti : TileIndex} (high : ti.level ≤ TileIndex.intMax)
    (proper : ti ≠ ⟨TileIndex.intMin + 5, 0⟩) : ServesClients kvs start ti ti.Has := by
  rcases run.sound (W := (0 < ·)) (fun _ w => w) (fun _ w => le_of_lt w) weights with
    ⟨rfl, -⟩ | ⟨info, tree, stored, labels⟩
  · obtain ⟨kvs', reads⟩ := readClosest_absent start TileIndex.exactShift ti
    apply serves_of_reads reads .nil _ high proper
    exact fun _ hs => (List.not_mem_nil hs).elim
  · obtain ⟨found, reads, from_store⟩ := stored.readClosest_ends start TileIndex.exactShift ti
    cases found with
    | none =>
        apply serves_of_reads reads .nil _ high proper
        exact fun _ hs => (List.not_mem_nil hs).elim
    | some a =>
        obtain ⟨a, tile⟩ := a
        have held := from_store a tile rfl
        rw [stored.tiles] at held
        have sound := labels a tile held
        apply serves_of_reads reads sound.ascending.1 _ high proper
        exact fun s hs => sound.weights _ (Samples.mem_weights.mpr (.inl ⟨s, hs, rfl⟩))

/-- In every state that runs of `add_data` leave, what the tile that is found has in the interval of
the tile asked for reaches its 32 clients, and nothing twice. Below the all-tile the interval is that
of `contains_time`. -/
theorem serves_tile (run : Runs ch bs kvs) (weights : ∀ b ∈ bs, ∀ w ∈ b.samples.weights, 0 < w)
    (start : TileIndex → ℚ) {ti : TileIndex} (low : TileIndex.intMin + 5 ≤ ti.level)
    (high : ti.level ≤ TileIndex.intMax) (proper : ti ≠ ⟨TileIndex.intMin + 5, 0⟩) :
    (ti.clientTiles.length = 32 ∧ ti.clientTiles.Nodup ∧
      ∀ c : TileIndex, c.level ≤ TileIndex.intMax → (c ∈ ti.clientTiles ↔ c.requestedIndex = ti)) ∧
    ServesClients kvs start ti ti.Has ∧
    (ti.level < TileIndex.intMax → ServesClients kvs start ti ti.containsTime) := by
  have has := run.serves_has weights start high proper
  refine ⟨⟨Cell.below_length 5 ti, Cell.below_nodup 5 ti, fun c => TileIndex.mem_clientTiles low high⟩,
    has, fun below => has.congr fun t => ?_⟩
  exact (TileIndex.containsTime_iff (TileIndex.not_isNull_of_level (by omega)) below t).symm

/-- The tile of the first four seconds. -/
theorem serves_tile_pair : ∃ kvs, Runs .narrow [.pair] kvs ∧
    ServesClients kvs TileIndex.startTime ⟨2, 0⟩ (TileIndex.containsTime ⟨2, 0⟩) := by
  obtain ⟨kvs, info, tree, run, -⟩ := narrow_pair
  have weights : ∀ b ∈ [Batch.pair], ∀ w ∈ b.samples.weights, 0 < w := Batch.weights_pair
  have low : TileIndex.intMin + 5 ≤ (⟨2, 0⟩ : TileIndex).level := by decide
  exact ⟨kvs, run, (run.serves_tile weights TileIndex.startTime low (by decide) (by decide)).2.2
    (by decide)⟩

end Runs

def Batch.single (t : ℚ) : Batch := .doubles [⟨t, 1, 1, 0⟩]

namespace Batch

theorem mem_times_single {t x : ℚ} : x ∈ (single t).samples.times ↔ x = t := by
  simp [single, samples, times_only]

theorem finite_single {t : ℚ} (double : IsDouble t) : (single t).FiniteTimes := by
  intro x hx
  rw [mem_times_single.mp hx]
  exact double

theorem measured_single (t : ℚ) : (single t).Measured := by
  constructor
  · simp [single, samples, weights_only]
  · simp [single, samples, only]

theorem sorted_single (t : ℚ) : (single t).samples.Ascending := ⟨List.pairwise_singleton _ _, .nil⟩

end Batch

open TileIndex in
/-- The first client of this tile has the null index, in which no time lies. -/
theorem not_client_has_zero {c : TileIndex} (client : c ∈ clientTiles ⟨intMin + 5, 0⟩) :
    ¬ c.containsTime 0 := by
  have level := Cell.iter_up_level 5 c
  rw [Cell.mem_below.mp client] at level
  have lowest : c.level = intMin := by
    push_cast at level
    exact (add_right_cancel level).symm
  by_cases null : c.isNull
  · intro has
    have start := has.1
    rw [startTime, if_pos null] at start
    exact absurd doubleMax_pos (not_lt.mpr start)
  · rw [containsTime_iff null (by rw [lowest]; decide), Cell.has_iff, lowest]
    intro same
    apply null
    rw [same]
    exact ⟨rfl, by simp [Cell.around]⟩

open TileIndex in
theorem null_client_left_out : ∃ kvs, Runs {} [.single 0] kvs ∧ (Batch.single 0).Measured ∧
    ¬ ServesClients kvs startTime ⟨intMin + 5, 0⟩ (containsTime ⟨intMin + 5, 0⟩) := by
  have double : IsDouble 0 := by exact_mod_cast IsDouble.of_nat (n := 0) (by norm_num)
  have measured := Batch.measured_single 0
  have nonneg : ∀ t ∈ (Batch.single 0).samples.times, 0 ≤ t :=
    fun t ht => (Batch.mem_times_single.mp ht).ge
  have accepts : Accepts {} .absent (history []) (Batch.single 0).samples := by
    refine ⟨fun k => ?_, fun _ => .inl fun t ht => ?_, fun info has => by cases has⟩
    · apply (Samples.size_at_of_apart rfl (List.pairwise_singleton _ _) k).trans
      decide
    · rw [Batch.mem_times_single.mp ht]
      exact doubleMax_pos
  obtain ⟨r, kvs, reaches⟩ := Runs.absent.completes (fun _ _ => rfl)
    (fun b hb => List.mem_singleton.mp hb ▸ measured.weights) (Batch.finite_single double)
    (Batch.sorted_single 0) nonneg accepts
  obtain ⟨fuel, ret⟩ := Outcome.Reaches.returns reaches
  have run := Runs.add .absent (Batch.finite_single double) ret
  refine ⟨kvs, run, measured, ?_⟩
  rcases run.contents_eq with ⟨-, none⟩ | ⟨info, tree, stored, same⟩
  · exact (List.cons_ne_nil _ _ (congrArg Samples.doubles none)).elim
  have all : info.nonnegativeRootTileIndex = .nonnegativeAll := by
    by_contra ne
    obtain ⟨a, ha, b, hb, lt, -⟩ := stored.wf.tight ne
    rw [Progress.total, Samples.overwrite_empty_left, same] at ha hb
    rw [Batch.mem_times_single.mp ha, Batch.mem_times_single.mp hb] at lt
    exact lt_irrefl _ lt
  obtain ⟨tile, rfl⟩ := stored.wf.shape_all all
  have samples : tile.doubleSamples = [⟨0, 1, 1, 0⟩] := congrArg Samples.doubles same
  have under : Cell.Under ⟨intMin + 5, 0⟩ nonnegativeAll :=
    Cell.under_of_has (Cell.first_has_zero _) (Cell.first_has_zero _) (by decide)
  have above : ¬ isAncestorOf exactShift ⟨intMin + 5, 0⟩ info.nonnegativeRootTileIndex := by
    rw [all, isAncestorOf_exact]
    exact fun above => absurd above.1 (by decide)
  have below : isAncestorOf exactShift info.nonnegativeRootTileIndex ⟨intMin + 5, 0⟩ := by
    rw [all, isAncestorOf_exact]
    exact ⟨by decide, under⟩
  obtain ⟨a, found, reads, at_a⟩ :=
    stored.readClosest_below startTime above fun beside => beside.2 below
  cases stored.eq_all all (Kvs.hasTile_of_some at_a)
  cases at_a.symm.trans (all ▸ stored.hasRoot)
  have held : (foundSamples (some (nonnegativeAll, (CellTree.leaf tile).label)) : List (Sample ℚ)) =
      [⟨0, 1, 1, 0⟩] := samples
  apply not_serves_of_void reads
  · intro c client
    rw [held, samplesWithin, List.filter_eq_nil_iff]
    intro s hs
    rw [List.mem_singleton.mp hs, decide_eq_true_iff]
    exact not_client_has_zero client
  · have inside : containsTime ⟨intMin + 5, 0⟩ 0 :=
      (containsTime_iff (by decide) (by decide) 0).mpr (Cell.first_has_zero _)
    rw [held]
    simp [inside, moments]

namespace Batch

theorem whole_last : Samples.overwrite (single doubleMax).samples pair.samples =
    pair.samples ++ (single doubleMax).samples := by
  have apart : ∀ s ∈ (Samples.empty ++ pair.samples).times,
      ∀ t ∈ ((single doubleMax).samples ++ Samples.empty).times, s < t := by
    intro s hs t ht
    rw [Samples.append_empty] at ht
    rw [Samples.empty_append] at hs
    rw [mem_times_single.mp ht]
    rcases mem_times_pair.mp hs with rfl | rfl
    · exact_mod_cast nat_lt_doubleMax (n := 1) (by norm_num)
    · exact_mod_cast nat_lt_doubleMax (n := 2) (by norm_num)
  have parts := Samples.overwrite_append apart
  rwa [Samples.empty_append, Samples.append_empty, Samples.overwrite_empty_left,
    Samples.overwrite_empty_right] at parts

theorem mem_times_last {t : ℚ} : t ∈ (pair.samples ++ (single doubleMax).samples).times ↔
    (t = 1 ∨ t = 2) ∨ t = doubleMax := by
  rw [Samples.mem_times_append, mem_times_pair, mem_times_single]

theorem around_last : Around ⟨1024, 0⟩ (pair.samples ++ (single doubleMax).samples) := by
  have has : ∀ t ∈ (pair.samples ++ (single doubleMax).samples).times, Cell.Has ⟨1024, 0⟩ t := by
    intro t ht
    have small : ∀ n : ℕ, n < 2 ^ 53 - 1 → Cell.Has ⟨1024, 0⟩ n := fun n lt =>
      TileIndex.top_has (Nat.cast_nonneg n) (nat_lt_doubleMax lt).le
    rcases mem_times_last.mp ht with (rfl | rfl) | rfl
    · exact_mod_cast small 1 (by norm_num)
    · exact_mod_cast small 2 (by norm_num)
    · exact TileIndex.top_has doubleMax_pos.le le_rfl
  have one := mem_times_last.mpr (.inl (.inl rfl))
  have last := mem_times_last.mpr (.inr rfl)
  refine ⟨⟨1, one, doubleMax, last, ?_, has 1 one, has _ last, fun d d1 dm => ?_⟩, has⟩
  · exact_mod_cast nat_lt_doubleMax (n := 1) (by norm_num)
  · by_contra low
    have first : Cell.Has ⟨1023, 0⟩ 1 := Cell.first_has.mpr ⟨zero_le_one, one_lt_zpow₀ (by norm_num) (by norm_num)⟩
    have under : d.Under ⟨1023, 0⟩ := Cell.under_of_has d1 first (Int.lt_add_one_iff.mp (not_le.mp low))
    exact absurd (Cell.first_has.mp (under.has dm)).2 (not_lt.mpr TileIndex.le_doubleMax)

theorem apart_last : (pair.samples ++ (single doubleMax).samples).doubles.Pairwise
    fun x y => x.time < y.time := by
  have two : (2 : ℚ) < doubleMax := by exact_mod_cast nat_lt_doubleMax (n := 2) (by norm_num)
  have one : (1 : ℚ) < doubleMax := by exact_mod_cast nat_lt_doubleMax (n := 1) (by norm_num)
  simp [pair, single, samples, only, one, two]

end Batch

open TileIndex in
theorem narrow_last : ∃ kvs info tree, Runs .narrow [.pair, .single doubleMax] kvs ∧
    Stored kvs info tree ∧ contents tree = Batch.pair.samples ++ (Batch.single doubleMax).samples ∧
      info.nonnegativeRootTileIndex = ⟨1024, 0⟩ := by
  obtain ⟨kvs₁, info₁, tree₁, run₁, stored₁, same₁, root₁⟩ := Runs.narrow_pair
  have weights : ∀ x ∈ [Batch.pair] ++ [.single doubleMax], ∀ w ∈ x.samples.weights, 0 < w := by
    intro x hx
    cases List.mem_append.mp hx with
    | inl mem => exact Batch.weights_pair x mem
    | inr mem =>
        rw [List.mem_singleton.mp mem]
        exact (Batch.measured_single _).weights
  have nonneg : ∀ t ∈ (Batch.single doubleMax).samples.times, 0 ≤ t := by
    intro t ht
    rw [Batch.mem_times_single.mp ht]
    exact doubleMax_pos.le
  have kept : Samples.overwrite (Batch.single doubleMax).samples (history [Batch.pair]) =
      Batch.pair.samples ++ (Batch.single doubleMax).samples := Batch.whole_last
  have accepts : Accepts .narrow kvs₁ (history [Batch.pair]) (Batch.single doubleMax).samples := by
    refine ⟨fun k => ?_, fun first => ?_, fun info has ne c around lower => ?_⟩
    · rw [kept]
      exact Samples.size_at_of_apart rfl Batch.apart_last k
    · have all := first info₁ stored₁.metainfo
      rw [root₁] at all
      exact absurd all (by decide)
    · rw [stored₁.metainfo] at has
      cases has
      rw [kept] at around
      rw [around.unique Batch.around_last, root₁]
      decide
  obtain ⟨r, kvs, reaches⟩ := run₁.completes (fun _ _ => rfl) weights
    (Batch.finite_single .last) (Batch.sorted_single _) nonneg accepts
  obtain ⟨fuel, ret⟩ := Outcome.Reaches.returns reaches
  have run := Runs.add run₁ (Batch.finite_single .last) ret
  have whole : history ([Batch.pair] ++ [.single doubleMax]) =
      Batch.pair.samples ++ (Batch.single doubleMax).samples := by rw [history_add, kept]
  obtain ⟨info, tree, stored, same, ne⟩ := run.beyond_all (by rw [whole]; decide) (by
    rw [whole]
    exact fun none => List.cons_ne_nil _ _ (congrArg Samples.doubles none))
  rw [whole] at same
  refine ⟨kvs, info, tree, run, stored, same, ?_⟩
  have around := stored.around ne
  rw [same] at around
  exact around.unique Batch.around_last

/-- The right half of the tree holds the last double alone. -/
theorem contents_last {l r : TileTree} {a : ExactTile}
    (leaves : (CellTree.node a l r).EachLeaf (fun i a => ∀ x ∈ a.samples.times, i.Has x) ⟨1024, 0⟩)
    (same : contents (.node a l r) = Batch.pair.samples ++ (Batch.single doubleMax).samples) :
    contents r = (Batch.single doubleMax).samples := by
  have middle : Cell.start (Cell.hi ⟨1024, 0⟩) = 2 ^ (1023 : ℤ) := by
    simp [Cell.start, Cell.hi, Cell.width]
  have one : (1 : ℚ) < 2 ^ (1023 : ℤ) := one_lt_zpow₀ (by norm_num) (by norm_num)
  have two : (2 : ℚ) < 2 ^ (1023 : ℤ) := by
    have step := zpow_lt_zpow_right₀ (by norm_num : (1 : ℚ) < 2) (show (1 : ℤ) < 1023 by norm_num)
    rwa [zpow_one] at step
  obtain ⟨left, right⟩ := CellTree.eachLeaf_node.mp leaves
  have tree : (contents l ++ contents r).since (2 ^ (1023 : ℤ)) = contents r := by
    apply Samples.since_append
    · intro t ht
      have has := (contents_has left t ht).2
      rwa [Cell.lo_stop, middle] at has
    · intro t ht
      have has := (contents_has right t ht).1
      rwa [middle] at has
  have batches : (Batch.pair.samples ++ (Batch.single doubleMax).samples).since (2 ^ (1023 : ℤ)) =
      (Batch.single doubleMax).samples := by
    apply Samples.since_append
    · intro t ht
      rcases Batch.mem_times_pair.mp ht with rfl | rfl
      · exact one
      · exact two
    · intro t ht
      rw [Batch.mem_times_single.mp ht]
      exact TileIndex.le_doubleMax
  rw [contents] at same
  rw [← tree, same, batches]

theorem measured_last : ∀ b ∈ [Batch.pair, .single doubleMax], b.Measured := by
  intro b hb
  rcases List.mem_pair.mp hb with rfl | rfl
  · exact Batch.measured_pair
  · exact Batch.measured_single _

theorem moments_ne_last {samples : List (Sample ℚ)}
    (below : ∀ s ∈ samples, 0 < s.weight ∧ s.time < doubleMax) :
    moments samples ≠ (1, 1 * doubleMax, 1 * 1, 1 * (0 + 1 * 1)) := by
  intro last
  have some : samples ≠ [] := by
    rintro rfl
    exact one_ne_zero (congrArg Prod.fst last).symm
  have lt := timesum_lt below some
  rw [last] at lt
  dsimp only at lt
  linarith

/-- The samples of the root, and among them those of the half that holds the last double. -/
theorem last_root : ∃ kvs info tree front back, Runs .narrow [.pair, .single doubleMax] kvs ∧
    Stored kvs info tree ∧ info.nonnegativeRootTileIndex = ⟨1024, 0⟩ ∧
      tree.label.doubleSamples = front ++ back ∧
        (∀ s ∈ front ++ back, 0 < s.weight ∧ TileIndex.containsTime ⟨1024, 0⟩ s.time) ∧
          moments back = (1, 1 * doubleMax, 1 * 1, 1 * (0 + 1 * 1)) := by
  obtain ⟨kvs, info, tree, run, stored, same, root⟩ := narrow_last
  have measured := measured_last
  have weights : ∀ b ∈ [Batch.pair, .single doubleMax], ∀ w ∈ b.samples.weights, 0 < w :=
    fun b hb => (measured b hb).weights
  have labels := stored.kept (run.sound (W := (0 < ·)) (fun _ w => w) (fun _ w => le_of_lt w) weights)
  have nodes := (stored.kept run.settled).1
  have ne : info.nonnegativeRootTileIndex ≠ .nonnegativeAll := by
    rw [root]
    decide
  obtain ⟨regular, a, l, r, node⟩ := stored.wf.shape_node ne
  dsimp only at node regular
  subst node
  have current := nodes _ a l r (CellTree.sub_self _ _)
  obtain ⟨-, -, belowR⟩ := CellTree.eachNode_node.mp nodes
  obtain ⟨soundRoot, soundL, soundR⟩ := CellTree.eachLabel_node.mp labels
  have all : (CellTree.node a l r).EachLabel (fun _ a => ∀ s ∈ a.doubleSamples, Measured s)
      info.nonnegativeRootTileIndex := by
    intro i b has
    apply run.each_measured measured i b
    rw [stored.tiles]
    exact has
  obtain ⟨measuredRoot, -, measuredR⟩ := CellTree.eachLabel_node.mp all
  obtain ⟨front, back, split, -, sums⟩ := current.apart regular soundL.label soundR.label
  have leaves := stored.wf.leaves_has regular
  dsimp only at leaves
  rw [root] at leaves
  rw [moments_label belowR measuredR, contents_last leaves same] at sums
  refine ⟨kvs, info, .node a l r, front, back, run, stored, root, split, ?_, sums.trans (moments_single _)⟩
  intro s hs
  rw [← split] at hs
  have inside := soundRoot.inside _ (Samples.mem_times.mpr (.inl ⟨s, hs, rfl⟩))
  rw [root] at inside
  exact ⟨(measuredRoot s hs).weight, inside⟩

open TileIndex in
theorem last_double_added : ∃ kvs, Runs .narrow [.pair, .single doubleMax] kvs ∧
    (∀ b ∈ [Batch.pair, .single doubleMax], b.Measured) ∧
      ¬ ServesClients kvs startTime nonnegativeAll (containsTime nonnegativeAll) := by
  obtain ⟨kvs, info, tree, front, back, run, stored, root, split, inside, last⟩ := last_root
  have weights : ∀ b ∈ [Batch.pair, .single doubleMax], ∀ w ∈ b.samples.weights, 0 < w :=
    fun b hb => (measured_last b hb).weights
  refine ⟨kvs, run, measured_last, fun serves => ?_⟩
  -- the root is found, and all its samples lie in the all-tile
  have under : Cell.Under ⟨1024, 0⟩ nonnegativeAll :=
    Cell.under_of_has (Cell.first_has_zero _) (Cell.first_has_zero _) (by decide)
  have above : nonnegativeAll.isAncestorOf exactShift info.nonnegativeRootTileIndex := by
    rw [root, isAncestorOf_exact]
    exact ⟨by decide, under⟩
  have reads := stored.readClosest_above startTime above
  have given : ServesClients kvs startTime nonnegativeAll nonnegativeAll.Has :=
    run.serves_has weights startTime (by decide) (by decide)
  have same_sums := given.sums_eq serves reads
  have whole : (foundSamples (some (info.nonnegativeRootTileIndex, tree.label)) :
      List (Sample ℚ)) = front ++ back := split
  have kept : (front ++ back).filter (fun s => nonnegativeAll.Has s.time) = front ++ back := by
    apply List.filter_eq_self.mpr
    intro s hs
    have has := (containsTime_iff (by decide) (by decide) s.time).mp (inside s hs).2
    exact decide_eq_true (under.has has)
  rw [whole, kept] at same_sums
  -- so all lie in its first client too, which ends before the last double
  have early := all_of_weight (fun s hs => (inside s hs).1) (congrArg Prod.fst same_sums).symm
  apply moments_ne_last _ last
  intro s hs
  have mem := List.mem_append_right front hs
  have has := of_decide_eq_true (early s mem)
  rw [containsTime, nonnegativeAll_endTime] at has
  exact ⟨(inside s mem).1, has.2⟩

/-- What the sentinels do: the all-tile ends at the last double, where its first client does not, and
nothing lies in the null index. -/
theorem sentinels_served_otherwise :
    (∃ kvs, Runs .narrow [.pair, .single doubleMax] kvs ∧
      (∀ b ∈ [Batch.pair, .single doubleMax], b.Measured) ∧
        ¬ ServesClients kvs TileIndex.startTime .nonnegativeAll
          (TileIndex.containsTime .nonnegativeAll)) ∧
    ∃ kvs, Runs {} [.single 0] kvs ∧ (Batch.single 0).Measured ∧
      ¬ ServesClients kvs TileIndex.startTime ⟨TileIndex.intMin + 5, 0⟩
        (TileIndex.containsTime ⟨TileIndex.intMin + 5, 0⟩) :=
  ⟨last_double_added, null_client_left_out⟩

end Mio.Datastore
