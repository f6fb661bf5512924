import Mio.Datastore.Ranges
import Mio.Datastore.Accepts

/-! The time bounds a channel reports: in its info record, in its root tile, and through the out
parameter of `add_data`. -/
namespace Mio.Datastore

namespace Channel

variable {ch : Channel}

/-- The root tile as stored has been reported, or something above it is still queued. -/
def Reported (st : AddState) (kvs : Kvs) : Prop :=
  st.toRegenerate ≠ [] ∨
    ∃ tile, kvs.tiles st.root = some tile ∧ st.channelRanges = some tile.ranges

theorem setInsert_ne_nil (ti : TileIndex) (l : List TileIndex) : setInsert ti l ≠ [] := by
  intro none
  have mem : ti ∈ setInsert ti l := mem_setInsert.mpr (.inl rfl)
  rw [none] at mem
  cases mem

theorem changed_reported (st : AddState) {ti : TileIndex} {tile : ExactTile} {kvs : Kvs}
    (stored : kvs.tiles ti = some tile) : Reported (st.changed ti tile) kvs := by
  unfold AddState.changed
  split
  · next eq =>
      right
      exact ⟨tile, eq ▸ stored, rfl⟩
  · exact .inl (setInsert_ne_nil _ _)

theorem writeTile_stored {ti : TileIndex} {tile : ExactTile} {kvs kvs' : Kvs} {u : Unit}
    (h : ch.writeTile ti tile kvs = .ret (u, kvs')) : kvs'.tiles ti = some tile := by
  rw [writeTile_ret h]
  exact Function.update_self _ _ _

section
variable {V : Type} [SampleKind V] {fuel : ℕ} {st st' : AddState} {data rest : List (Sample V)}
  {kvs kvs' : Kvs}

theorem insertStep_reported {first : Sample V}
    (h : ch.insertStep fuel st first data kvs = .ret ((st', rest), kvs')) : Reported st' kvs' := by
  simp only [insertStep, Exec.read_bind_eq_ret, Exec.assert_bind_eq_ret] at h
  obtain ⟨ti, -, -, tile, -, merged, -, h⟩ := h
  obtain ⟨⟨newRoot, tile'⟩, kvs₁, -, h⟩ := Exec.bind_eq_ret.mp h
  split at h
  · obtain ⟨-, h⟩ := Exec.assert_bind_eq_ret.mp h
    obtain ⟨_, kvs₂, write, h⟩ := Exec.bind_eq_ret.mp (Exec.modify_bind_eq_ret.mp h)
    cases h
    exact changed_reported _ (writeTile_stored write)
  · obtain ⟨_, kvs₂, write, h⟩ := Exec.bind_eq_ret.mp h
    cases h
    exact changed_reported _ (writeTile_stored write)

theorem insertLoop_reported (some : data ≠ [])
    (h : ch.insertLoop fuel st data kvs = .ret (st', kvs')) : Reported st' kvs' := by
  induction fuel generalizing st data kvs with
  | zero => cases h
  | succ fuel ih =>
      cases data with
      | nil => exact (some rfl).elim
      | cons first data =>
          obtain ⟨⟨st₁, rest⟩, kvs₁, run, h⟩ := Exec.bind_eq_ret.mp h
          have here := insertStep_reported run
          cases rest with
          | nil =>
              cases fuel with
              | zero => cases h
              | succ fuel =>
                  cases h
                  exact here
          | cons next rest => exact ih (List.cons_ne_nil _ _) h

theorem regenerateStep_reported {ti : TileIndex}
    (h : ch.regenerateStep st ti kvs = .ret (st', kvs')) : Reported st' kvs' := by
  simp only [regenerateStep, Exec.read_bind_eq_ret] at h
  obtain ⟨left, -, right, -, regenerated, -, h⟩ := h
  obtain ⟨_, kvs₁, write, h⟩ := Exec.bind_eq_ret.mp h
  cases h
  exact changed_reported _ (writeTile_stored write)

theorem regenerateLoop_reported (before : Reported st kvs)
    (h : ch.regenerateLoop fuel st kvs = .ret (st', kvs')) :
    ∃ tile, kvs'.tiles st'.root = some tile ∧ st'.channelRanges = some tile.ranges := by
  induction fuel generalizing st kvs with
  | zero => cases h
  | succ fuel ih =>
      cases queue : st.toRegenerate with
      | nil =>
          simp only [regenerateLoop, queue] at h
          cases h
          exact before.resolve_left (not_not.mpr queue)
      | cons w rest =>
          simp only [regenerateLoop, queue] at h
          obtain ⟨st₁, kvs₁, run, h⟩ := Exec.bind_eq_ret.mp h
          exact ih (regenerateStep_reported run) h

/-- A call on a vector with samples reports the ranges of the root tile that it leaves. -/
theorem addDataInternal_reports {r : Option (DataRanges ℚ)} (some : data ≠ [])
    (h : ch.addDataInternal fuel data kvs = .ret (r, kvs')) :
    ∃ info tile, kvs'.metainfo = Option.some (Option.some info) ∧
      kvs'.tiles info.nonnegativeRootTileIndex = Option.some tile ∧ r = Option.some tile.ranges := by
  cases data with
  | nil => exact (some rfl).elim
  | cons first rest =>
      by_cases negative : first.time < 0
      · rw [addDataInternal, if_pos negative] at h
        cases h
      by_cases sorted : Ascending DataSample.time (first :: rest)
      · rw [addDataInternal, if_neg negative, if_neg (not_not.mpr sorted)] at h
        obtain ⟨_, kvs₁, -, h⟩ := Exec.bind_eq_ret.mp h
        obtain ⟨⟨info, list⟩, kvs₂, -, h⟩ := Exec.bind_eq_ret.mp h
        obtain ⟨st₂, kvs₃, inserted, h⟩ := Exec.bind_eq_ret.mp h
        obtain ⟨st₃, kvs₄, regenerated, h⟩ := Exec.bind_eq_ret.mp h
        obtain ⟨_, kvs₅, written, h⟩ := Exec.bind_eq_ret.mp h
        obtain ⟨-, written⟩ := Exec.assert_bind_eq_ret.mp written
        obtain rfl := set_ret written
        cases h
        obtain ⟨tile, stored, reported⟩ :=
          regenerateLoop_reported (insertLoop_reported some inserted) regenerated
        exact ⟨_, tile, rfl, stored, reported⟩
      · rw [addDataInternal, if_neg negative, if_pos sorted] at h
        cases h

end

end Channel

theorem Batch.samples_empty {b : Batch} (h : b.samples = .empty) :
    b = .doubles [] ∨ b = .strings [] := by
  cases b with
  | doubles data => exact .inl (congrArg Batch.doubles (congrArg Samples.doubles h))
  | strings data => exact .inr (congrArg Batch.strings (congrArg Samples.strings h))

theorem Channel.addData_reports {ch : Channel} {fuel : ℕ} {b : Batch} {kvs kvs' : Kvs}
    {r : Option (DataRanges ℚ)} (h : ch.addData fuel b kvs = .ret (r, kvs')) :
    (r = none ∧ kvs' = kvs ∧ b.samples = .empty) ∨ ∃ info tile, kvs'.metainfo = some (some info) ∧
      kvs'.tiles info.nonnegativeRootTileIndex = some tile ∧ r = some tile.ranges := by
  by_cases void : b.samples = .empty
  · cases Batch.samples_empty void with
    | inl eq =>
        rw [eq] at h
        cases h
        exact .inl ⟨rfl, rfl, void⟩
    | inr eq =>
        rw [eq] at h
        cases h
        exact .inl ⟨rfl, rfl, void⟩
  · right
    cases b with
    | doubles data =>
        refine addDataInternal_reports ?_ h
        rintro rfl
        exact void rfl
    | strings data =>
        refine addDataInternal_reports ?_ h
        rintro rfl
        exact void rfl

/-- Runs in which every call is given the same variable for `channel_ranges`; `out` is what the
variable holds in the end. A call on an empty vector leaves it alone. -/
inductive Reports (ch : Channel) : List Batch → Kvs → Option (DataRanges ℚ) → Prop
  | absent : Reports ch [] .absent none
  | add {bs kvs out b fuel r kvs'} (run : Reports ch bs kvs out) (finite : b.FiniteTimes)
      (call : ch.addData fuel b kvs = .ret (r, kvs')) : Reports ch (bs ++ [b]) kvs' (r <|> out)

theorem Reports.runs {ch : Channel} {bs : List Batch} {kvs : Kvs} {out : Option (DataRanges ℚ)}
    (h : Reports ch bs kvs out) : Runs ch bs kvs := by
  induction h with
  | absent => exact .absent
  | add run finite call ih => exact .add ih finite call

theorem times_hull {t : TileTree} {c : TileIndex}
    (nodes : t.EachNode (fun i a l r => Consistent i a l.label r.label) c)
    (leaves : t.EachLeaf (fun _ a => TimesExact a) c) (bounded : ∀ x ∈ (contents t).times, Bounded x) :
    t.label.ranges.times.Hull {x | x ∈ (contents t).times} := by
  have all : {x | x ∈ (contents t).times} =
      {x | ∃ leaf ∈ t.leaves c, x ∈ {x | x ∈ leaf.2.samples.times}} := by
    ext x
    rw [contents_eq t c]
    exact mem_times_concat
  have inside : t.EachLeaf (fun _ a => ∀ x ∈ a.samples.times, Bounded x) c := by
    intro i a mem x hx
    refine bounded x ?_
    rw [contents_eq t c]
    exact mem_times_concat.mpr ⟨(i, a), mem, hx⟩
  rw [all]
  exact (ranges_hull DataRanges.times (fun _ _ => rfl) nodes
    fun i a mem => ⟨leaves i a mem (inside i a mem), inside i a mem⟩).1

theorem Spanned.hull {r : Range ℚ} {u : Samples} (h : Spanned r u) : r.Hull {x | x ∈ u.times} :=
  ⟨h.bounds, .inl ⟨h.min_mem, h.max_mem⟩⟩

namespace Reports

variable {ch : Channel} {bs : List Batch} {kvs : Kvs} {out : Option (DataRanges ℚ)}

theorem root_ranges (run : Reports ch bs kvs out) :
    (kvs = .absent ∧ out = none) ∨ ∃ info tile, kvs.metainfo = some (some info) ∧
      kvs.tiles info.nonnegativeRootTileIndex = some tile ∧ out = some tile.ranges := by
  induction run with
  | absent => exact .inl ⟨rfl, rfl⟩
  | add run finite call ih =>
      cases Channel.addData_reports call with
      | inl void =>
          obtain ⟨rfl, rfl, -⟩ := void
          exact ih
      | inr some =>
          obtain ⟨info, tile, has, stored, rfl⟩ := some
          exact .inr ⟨info, tile, has, stored, rfl⟩

/-- The info record, the root tile and the out parameter have the same time bounds, those of all
samples in the leaves. -/
theorem time_bounds_agree (run : Reports ch bs kvs out) :
    (kvs = .absent ∧ out = none) ∨ ∃ info root ranges leaves, kvs.metainfo = some (some info) ∧
      kvs.tiles info.nonnegativeRootTileIndex = some root ∧ out = some ranges ∧
      Outcome.Reaches (fun fuel => kvs.leafTiles fuel info.nonnegativeRootTileIndex) leaves ∧
      info.times = root.ranges.times ∧ ranges.times = root.ranges.times ∧
      root.ranges.times.Hull {t | (∃ s ∈ leaves.flatMap Tile.doubleSamples, s.time = t) ∨
        ∃ s ∈ leaves.flatMap Tile.stringSamples, s.time = t} := by
  rcases run.root_ranges with void | ⟨info, root, has, stored, rfl⟩
  · exact .inl void
  right
  have runs := run.runs
  rcases runs.settled with ⟨rfl, -⟩ | ⟨info', tree, channel, nodes, -⟩
  · cases has
  rcases runs.eachLeaf TimesExact.ofSamples (fun _ chunk h => h.insert chunk) with
    ⟨rfl, -⟩ | ⟨info'', tree', channel', exact'⟩
  · cases has
  obtain ⟨rfl, rfl⟩ := channel.unique channel'
  have same := has.symm.trans channel.metainfo
  cases same
  have label : tree.label = root := by
    rw [channel.tiles, CellTree.get_self] at stored
    cases stored
    rfl
  have whole := times_hull nodes exact' fun t ht =>
    (channel.double t ht).1.bounded (channel.double t ht).2
  rw [label] at whole
  have flat := flatMap_leaves (tree.leaves info.nonnegativeRootTileIndex)
  rw [← Datastore.contents_eq] at flat
  refine ⟨info, root, root.ranges, _, has, stored, rfl, channel.leafTiles, ?_, rfl, ?_⟩
  · exact channel.spanned.hull.unique whole
  · have all : {t | (∃ s ∈ (contents tree).doubles, s.time = t) ∨
        ∃ s ∈ (contents tree).strings, s.time = t} = {t | t ∈ (contents tree).times} := by
      ext t
      exact Samples.mem_times.symm
    rw [flat.1, flat.2, all]
    exact whole

theorem time_bounds_agree_pair : ∃ kvs out, Reports .narrow [.pair] kvs out ∧
    ∃ info root ranges leaves, kvs.metainfo = some (some info) ∧
      kvs.tiles info.nonnegativeRootTileIndex = some root ∧ out = some ranges ∧
      Outcome.Reaches (fun fuel => kvs.leafTiles fuel info.nonnegativeRootTileIndex) leaves ∧
      info.times = root.ranges.times ∧ ranges.times = root.ranges.times ∧
      root.ranges.times.Hull {t | (∃ s ∈ leaves.flatMap Tile.doubleSamples, s.time = t) ∨
        ∃ s ∈ leaves.flatMap Tile.stringSamples, s.time = t} := by
  have accepts : Accepts .narrow .absent (history []) Batch.pair.samples :=
    Batch.accepts_pair (by decide)
  obtain ⟨r, kvs, reaches⟩ := Runs.absent.completes (fun _ _ => rfl) Batch.weights_pair
    Batch.finite_pair Batch.sorted_pair Batch.nonneg_pair accepts
  obtain ⟨fuel, ret⟩ := Outcome.Reaches.returns reaches
  have run := Reports.add .absent Batch.finite_pair ret
  refine ⟨kvs, _, run, ?_⟩
  rcases time_bounds_agree run with ⟨rfl, -⟩ | agree
  · rcases Channel.addData_reports ret with ⟨-, -, void⟩ | ⟨info, tile, has, -⟩
    · exact (List.cons_ne_nil _ _ (congrArg Samples.doubles void)).elim
    · cases has
  · exact agree

end Reports
end Mio.Datastore
