import Mio.Datastore.Failures
import Mio.Datastore.ValueBounds

/-! Which failing sets leave a channel usable. -/
namespace Mio.Datastore

namespace Stored

variable {kvs : Kvs} {info : ChannelInfo} {tree : TileTree} {t : ℚ} {ti : TileIndex}

theorem readInfo (h : Stored kvs info tree) : kvs.readInfo = .ret (some info) :=
  Channel.readInfo_stored h.metainfo h.magic

theorem finds (h : Stored kvs info tree) :
    kvs.Finds t ti ↔ ti = (tree.reach info.nonnegativeRootTileIndex t).1 := by
  have found := Kvs.findLowest_reaches h.wf h.holds t
  constructor
  · rintro ⟨info', read, reaches⟩
    rw [h.readInfo] at read
    cases read
    exact reaches.unique found
  · rintro rfl
    exact ⟨info, h.readInfo, found⟩

theorem reached (h : Stored kvs info tree) (has : info.nonnegativeRootTileIndex ≠ .nonnegativeAll →
    info.nonnegativeRootTileIndex.Has t) :
    Serves .empty (contents tree) (tree.reach info.nonnegativeRootTileIndex t).2.samples t := by
  by_cases all : info.nonnegativeRootTileIndex = .nonnegativeAll
  · obtain ⟨tile, rfl⟩ := h.wf.shape_all all
    exact Serves.refl _ _ t
  · exact Serves.leaf (Serves.refl _ _ t) (CellTree.reach_sub _ _ t) (h.wf.leaves_has (h.regular all))
      (CellTree.reach_has (has all))

theorem has (h : Stored kvs info tree) (mem : t ∈ (contents tree).times)
    (ne : info.nonnegativeRootTileIndex ≠ .nonnegativeAll) : info.nonnegativeRootTileIndex.Has t :=
  contents_has (h.wf.leaves_has (h.regular ne)) t mem

theorem at_reach (h : Stored kvs info tree) (t : ℚ) :
    kvs.tiles (tree.reach info.nonnegativeRootTileIndex t).1 =
      some (tree.reach info.nonnegativeRootTileIndex t).2 :=
  h.tiles_of_sub (CellTree.reach_sub _ _ t)

theorem of_picked (h : Stored kvs info tree) {V : Type} {pick : Samples → List (Sample V)}
    (picks : Picks pick) {x : Sample V} {tile : ExactTile} (found : kvs.Finds t ti)
    (stored : kvs.tiles ti = some tile) (mem : x ∈ pick tile.samples) : x ∈ pick (contents tree) := by
  obtain rfl := h.finds.mp found
  rw [h.at_reach t] at stored
  cases stored
  by_cases all : info.nonnegativeRootTileIndex = .nonnegativeAll
  · obtain ⟨tile, rfl⟩ := h.wf.shape_all all
    exact mem
  · obtain ⟨a, b, split, -⟩ := contents_graft (CellTree.reach_sub tree info.nonnegativeRootTileIndex t)
      (h.wf.leaves_has (h.regular all))
    rw [split, picks.append, picks.append]
    exact List.mem_append_left _ (List.mem_append_right _ mem)

theorem picked (h : Stored kvs info tree) {V : Type} {pick : Samples → List (Sample V)}
    (picks : Picks pick) {x : Sample V} (mem : x ∈ pick (contents tree)) :
    ∃ ti tile, kvs.Finds x.time ti ∧ kvs.tiles ti = some tile ∧ x ∈ pick tile.samples := by
  have time := picks.times _ x mem
  obtain ⟨y, hy, -, from_⟩ := h.reached (h.has time) pick picks x mem rfl
  refine ⟨_, _, h.finds.mpr rfl, h.at_reach x.time, ?_⟩
  rcases from_ with rfl | none
  · exact hy
  · have none := picks.times _ y none
    simp at none

theorem some_time (h : Stored kvs info tree) : ∃ t, t ∈ (contents tree).times :=
  ⟨_, h.spanned.min_mem⟩

end Stored

section Usable
variable {kvs : Kvs} {info : ChannelInfo} {tree : TileTree} {f : Failure} {batch : Samples} {t : ℚ}
  {ti : TileIndex}

theorem usable_absent {d : Disk} (empty : d.files.metainfo = some none) : Usable .absent batch d := by
  have none : ∀ t ti, ¬ Kvs.absent.Finds t ti := by
    rintro t ti ⟨info, read, -⟩
    cases read
  refine ⟨fun info read => ?_, fun x ti tile found => (none _ _ found).elim,
    fun x ti tile found => (none _ _ found).elim⟩
  rw [Kvs.readInfo, empty] at read
  cases read

theorem lose_empty {lost : Key → Bool} (left : f.left.metainfo = some none) :
    (f.disk.lose lost).files.metainfo = some none := by
  have empty : f.files.metainfo = some none := by
    unfold Failure.files
    split
    · exact left
    · rfl
    · exact left
  unfold Disk.lose
  dsimp only [Failure.disk]
  split
  · rw [empty]
    rfl
  · exact empty

/-- A search in what is left starts at the old root, and needs the record. -/
theorem Failure.finds_iff (stored : Stored kvs info tree) (left : f.left.metainfo = kvs.metainfo) :
    f.files.Finds t ti ↔ f.torn ≠ some .metainfo ∧ Outcome.Reaches
      (fun fuel => f.files.descendLowest t fuel info.nonnegativeRootTileIndex) ti := by
  have proper : ¬ info.nonnegativeRootTileIndex.isNull := by
    rcases stored.wf.shape with ⟨all, -⟩ | ⟨regular, -⟩
    · rw [show info.nonnegativeRootTileIndex = .nonnegativeAll from all]
      decide
    · exact regular.not_null
  constructor
  · rintro ⟨info', read, reaches⟩
    have whole : f.torn ≠ some .metainfo := by
      intro torn
      have empty : f.files.metainfo = some none := by
        unfold Failure.files
        rw [torn]
      rw [Kvs.readInfo, empty] at read
      cases read
    rw [Channel.readInfo_stored ((f.files_metainfo whole).trans (left.trans stored.metainfo)) stored.magic] at read
    cases read
    refine ⟨whole, ?_⟩
    simp only [Kvs.findLowest_eq] at reaches
    obtain ⟨n, done⟩ := reaches
    refine ⟨n, fun fuel le => ?_⟩
    obtain ⟨_, -, run⟩ := Outcome.bind_eq_ret.mp (done fuel le)
    exact run
  · rintro ⟨whole, reaches⟩
    refine ⟨info, ?_, ?_⟩
    · exact Channel.readInfo_stored ((f.files_metainfo whole).trans (left.trans stored.metainfo)) stored.magic
    · simp only [Kvs.findLowest_eq]
      exact .bind (.of_ret fun _ => Outcome.assert_of proper _) reaches

/-- Every time of the old contents leads to a tile that can be read. -/
theorem Usable.readable {d : Disk} (usable : Usable kvs batch d) (stored : Stored kvs info tree)
    (mem : t ∈ (contents tree).times) : ∃ ti tile, d.files.Finds t ti ∧ d.readTile ti = some tile := by
  rcases Samples.mem_times.mp mem with ⟨x, hx, rfl⟩ | ⟨x, hx, rfl⟩
  · obtain ⟨ti, tile, found, at_ti, mem⟩ := stored.picked picks_doubles hx
    obtain ⟨ti', tile', found', read, -⟩ := usable.doubles x ti tile found at_ti mem
    exact ⟨ti', tile', found', read⟩
  · obtain ⟨ti, tile, found, at_ti, mem⟩ := stored.picked picks_strings hx
    obtain ⟨ti', tile', found', read, -⟩ := usable.strings x ti tile found at_ti mem
    exact ⟨ti', tile', found', read⟩

theorem Usable.record (usable : Usable kvs batch f.disk) (stored : Stored kvs info tree)
    (left : f.left.metainfo = kvs.metainfo) : f.torn ≠ some .metainfo := by
  obtain ⟨t, mem⟩ := stored.some_time
  obtain ⟨ti, tile, found, -⟩ := usable.readable stored mem
  exact ((Failure.finds_iff stored left).mp found).1

theorem Usable.readRoot (usable : Usable kvs batch f.disk) (stored : Stored kvs info tree)
    (left : f.left.metainfo = kvs.metainfo) :
    ∃ tile, f.readTile info.nonnegativeRootTileIndex = some tile := by
  refine usable.root info (Channel.readInfo_stored ?_ stored.magic)
  exact (f.files_metainfo (usable.record stored left)).trans (left.trans stored.metainfo)

theorem usable_of (stored : Stored kvs info tree) (left : f.left.metainfo = kvs.metainfo)
    (whole : f.torn ≠ some .metainfo)
    (root : ∃ tile, f.readTile info.nonnegativeRootTileIndex = some tile)
    (served : ∀ t ∈ (contents tree).times, ∃ ti tile, Outcome.Reaches
      (fun fuel => f.files.descendLowest t fuel info.nonnegativeRootTileIndex) ti ∧
        f.readTile ti = some tile ∧ Serves batch (contents tree) tile.samples t) :
    Usable kvs batch f.disk := by
  have kept : ∀ {V : Type} {pick : Samples → List (Sample V)}, Picks pick → Kept pick kvs batch f.disk := by
    intro V pick picks x ti tile found at_ti mem
    have old := stored.of_picked picks found at_ti mem
    obtain ⟨ti', tile', reaches, read, serves⟩ := served x.time (picks.times _ x old)
    obtain ⟨y, hy, time, from_⟩ := serves pick picks x old rfl
    exact ⟨ti', tile', (Failure.finds_iff stored left).mpr ⟨whole, reaches⟩, read, y, hy, time, from_⟩
  refine ⟨fun info' (read : f.files.readInfo = _) => ?_, kept picks_doubles, kept picks_strings⟩
  rw [Channel.readInfo_stored ((f.files_metainfo whole).trans (left.trans stored.metainfo)) stored.magic] at read
  cases read
  exact root

/-- Below a regular root only a torn file makes a difference. -/
theorem usable_regular (stored : Stored kvs info tree) (left : f.left.metainfo = kvs.metainfo)
    (kept : f.left.hasTile info.nonnegativeRootTileIndex)
    (searched : ∀ t ∈ (contents tree).times,
      Searched f info.nonnegativeRootTileIndex batch (contents tree) t) :
    Usable kvs batch f.disk ↔ f.torn ≠ some .metainfo ∧
      f.torn ≠ some (.tile info.nonnegativeRootTileIndex) ∧
        ∀ t ∈ (contents tree).times, ¬ f.Lost t := by
  constructor
  · intro usable
    refine ⟨usable.record stored left, fun torn => ?_, fun t mem lost => ?_⟩
    · obtain ⟨tile, read⟩ := usable.readRoot stored left
      rw [f.readTile_torn torn] at read
      cases read
    · obtain ⟨ti, tile, found, read⟩ := usable.readable stored mem
      rcases searched t mem with ⟨safe, -⟩ | ⟨-, ti', reaches, none⟩
      · exact safe lost
      · obtain rfl := ((Failure.finds_iff stored left).mp found).2.unique reaches
        cases none.symm.trans read
  · rintro ⟨record, root, safe⟩
    refine usable_of stored left record ?_ fun t mem => ?_
    · rw [f.readTile_whole root]
      exact Kvs.tiles_of_hasTile kept
    · rcases searched t mem with ⟨-, found⟩ | ⟨lost, -⟩
      · exact found
      · exact (safe t mem lost).elim

/-- What the values lost at `fclose` leave alone: the record, the root's tile, and the tiles in which a
search for an old time ends. -/
structure Spared (d : Disk) (old : Samples) (lost : Key → Bool) : Prop where
  record : ¬ lost .metainfo
  root : ∀ info, d.files.readInfo = .ret (some info) → ¬ lost (.tile info.nonnegativeRootTileIndex)
  leaf : ∀ t ∈ old.times, ∀ ti, d.files.Finds t ti → ¬ lost (.tile ti)

section Lose
variable {d : Disk} {lost : Key → Bool}

theorem Disk.lose_files (kept : ¬ lost .metainfo) : (d.lose lost).files = d.files := if_neg kept

theorem Disk.lose_readTile (kept : ¬ lost (.tile ti)) : (d.lose lost).readTile ti = d.readTile ti :=
  if_neg kept

theorem Disk.kept_of_readTile {tile : ExactTile} (read : (d.lose lost).readTile ti = some tile) :
    ¬ lost (.tile ti) := by
  intro gone
  have none : (d.lose lost).readTile ti = none := if_pos gone
  rw [none] at read
  cases read

theorem Disk.kept_of_readInfo (read : (d.lose lost).files.readInfo = .ret (some info)) :
    ¬ lost .metainfo := by
  intro gone
  have files : (d.lose lost).files = { d.files with metainfo := d.files.metainfo.map fun _ => none } :=
    if_pos gone
  have empty : (d.lose lost).files.metainfo = d.files.metainfo.map fun _ => none := by rw [files]
  rw [Kvs.readInfo, empty] at read
  cases has : d.files.metainfo with
  | none =>
      rw [has] at read
      cases read
  | some info =>
      rw [has] at read
      cases read

/-- A channel stays usable unless a lost value is one that is looked at. -/
theorem usable_lose_iff (stored : Stored kvs info tree) :
    Usable kvs batch (d.lose lost) ↔ Usable kvs batch d ∧ Spared d (contents tree) lost := by
  constructor
  · intro usable
    obtain ⟨t, mem⟩ := stored.some_time
    obtain ⟨ti, tile, ⟨info', read, -⟩, -⟩ := usable.readable stored mem
    have record := Disk.kept_of_readInfo read
    have files : (d.lose lost).files = d.files := Disk.lose_files record
    have kept : ∀ {V : Type} {pick : Samples → List (Sample V)}, Kept pick kvs batch (d.lose lost) →
        Kept pick kvs batch d := by
      intro V pick kept x ti tile found at_ti mem
      obtain ⟨ti', tile', found', read, rest⟩ := kept x ti tile found at_ti mem
      rw [files] at found'
      rw [Disk.lose_readTile (Disk.kept_of_readTile read)] at read
      exact ⟨ti', tile', found', read, rest⟩
    have root : ∀ info, d.files.readInfo = .ret (some info) →
        ∃ tile, (d.lose lost).readTile info.nonnegativeRootTileIndex = some tile := by
      intro info read
      refine usable.root info ?_
      rw [files, read]
    refine ⟨⟨fun info read => ?_, kept usable.doubles, kept usable.strings⟩, record, fun info read => ?_,
      fun t mem ti found => ?_⟩
    · obtain ⟨tile, read⟩ := root info read
      rw [Disk.lose_readTile (Disk.kept_of_readTile read)] at read
      exact ⟨tile, read⟩
    · obtain ⟨tile, read⟩ := root info read
      exact Disk.kept_of_readTile read
    · obtain ⟨ti', tile, found', read⟩ := usable.readable stored mem
      rw [files] at found'
      obtain rfl := found.unique found'
      exact Disk.kept_of_readTile read
  · rintro ⟨usable, spared⟩
    have files : (d.lose lost).files = d.files := Disk.lose_files spared.record
    have kept : ∀ {V : Type} {pick : Samples → List (Sample V)}, Picks pick → Kept pick kvs batch d →
        Kept pick kvs batch (d.lose lost) := by
      intro V pick picks kept x ti tile found at_ti mem
      obtain ⟨ti', tile', found', rest⟩ := kept x ti tile found at_ti mem
      have old := picks.times _ x (stored.of_picked picks found at_ti mem)
      refine ⟨ti', tile', ?_, ?_⟩
      · rwa [files]
      · rwa [Disk.lose_readTile (spared.leaf x.time old ti' found')]
    refine ⟨fun info read => ?_, kept picks_doubles usable.doubles, kept picks_strings usable.strings⟩
    rw [files] at read
    rw [Disk.lose_readTile (spared.root info read)]
    exact usable.root info read

end Lose

/-- While the record names the all-tile, everything depends on that tile. -/
theorem usable_all (stored : Stored kvs info tree) (all : info.nonnegativeRootTileIndex = .nonnegativeAll)
    (left : f.left.metainfo = kvs.metainfo) {tile : ExactTile}
    (kept : f.left.tiles .nonnegativeAll = some tile)
    (serves : ∀ t, Serves batch (contents tree) tile.samples t) :
    Usable kvs batch f.disk ↔ f.torn ≠ some .metainfo ∧
      f.torn ≠ some (.tile info.nonnegativeRootTileIndex) := by
  constructor
  · intro usable
    refine ⟨usable.record stored left, fun torn => ?_⟩
    obtain ⟨tile, read⟩ := usable.readRoot stored left
    rw [f.readTile_torn torn] at read
    cases read
  · rintro ⟨record, root⟩
    have read : f.readTile info.nonnegativeRootTileIndex = some tile := by
      rw [f.readTile_whole root, all, kept]
    refine usable_of stored left record ⟨tile, read⟩ fun t mem => ⟨_, tile, ?_, read, serves t⟩
    obtain ⟨n, found⟩ := f.files.findLowest_all t
    rw [all]
    exact ⟨n, fun fuel le => (Outcome.bind_eq_ret.mp (found fuel le)).choose_spec.2⟩

theorem unusable_all (stored : Stored kvs info tree)
    (all : info.nonnegativeRootTileIndex = .nonnegativeAll) (left : f.left.metainfo = kvs.metainfo)
    (gone : f.left.tiles .nonnegativeAll = none) : ¬ Usable kvs batch f.disk := by
  intro usable
  obtain ⟨tile, read⟩ := usable.readRoot stored left
  rw [Failure.readTile, all, gone] at read
  split at read <;> cases read

end Usable

open Classical in
/-- A channel on which the set of one key throws, when it finds the store as given. -/
noncomputable def Channel.failing (ch : Channel) (key : Key) (at_ : Kvs) (fault : Fault) : Channel :=
  { ch with setFault := fun kvs k => if kvs = at_ ∧ k = key then some fault else none }

/-- The sets whose failure costs a sample or the root of a channel with the given root and contents:
those that find the all-tile deleted, or come to it with the new root, those that tear the record or
the root, and those that tear a leaf over an old sample. -/
inductive Spoils (root : TileIndex) (old batch : Samples) : Key → Fault → Kvs → Prop
  | rerooted {c key fault at_} (all : root = .nonnegativeAll)
      (around : Around c (.overwrite (batch.before doubleMax) old))
      (late : key = .tile c ∨ at_.hasTile c) : Spoils root old batch key fault at_
  | record {at_} : Spoils root old batch .metainfo .cannotWrite at_
  | top {at_} : Spoils root old batch (.tile root) .cannotWrite at_
  | leaf {i t at_} (held : t ∈ old.times) (inside : i.containsTime t) (parent : at_.hasTile i.parent)
      (childless : ¬ at_.hasTile i.leftChild) : Spoils root old batch (.tile i) .cannotWrite at_

section Spoils
variable {ch : Channel} {key : Key} {at_ : Kvs} {fault : Fault} {f : Failure} {root : TileIndex}
  {old batch : Samples}

theorem Channel.failing_failedAt {k : Key} (h : (ch.failing key at_ fault).FailedAt k f) :
    k = key ∧ f.left = at_ ∧ f.torn = fault.torn key := by
  obtain ⟨fault', failed, torn⟩ := h
  simp only [Channel.failing] at failed
  split at failed
  · next same =>
      obtain ⟨left, rfl⟩ := same
      cases failed
      exact ⟨rfl, left, torn⟩
  · cases failed

theorem Fault.torn_eq {k : Key} : fault.torn key = some k ↔ fault = .cannotWrite ∧ key = k := by
  cases fault <;> simp [Fault.torn]

theorem spoils_iff (left : f.left = at_) (torn : f.torn = fault.torn key) :
    Spoils root old batch key fault at_ ↔
      (root = .nonnegativeAll ∧ ∃ c, Around c (.overwrite (batch.before doubleMax) old) ∧
        (key = .tile c ∨ f.left.hasTile c)) ∨
      f.torn = some .metainfo ∨ f.torn = some (.tile root) ∨ ∃ t ∈ old.times, f.Lost t := by
  subst left
  constructor
  · intro h
    cases h with
    | rerooted all around late => exact .inl ⟨all, _, around, late⟩
    | record => exact .inr (.inl torn)
    | top => exact .inr (.inr (.inl torn))
    | leaf held inside parent childless =>
        exact .inr (.inr (.inr ⟨_, held, _, torn, inside, parent, childless⟩))
  · rw [torn]
    rintro (⟨all, c, around, late⟩ | record | top | ⟨t, held, i, leaf, inside, parent, childless⟩)
    · exact .rerooted all around late
    · obtain ⟨rfl, rfl⟩ := Fault.torn_eq.mp record
      exact .record
    · obtain ⟨rfl, rfl⟩ := Fault.torn_eq.mp top
      exact .top
    · rw [torn] at leaf
      obtain ⟨rfl, rfl⟩ := Fault.torn_eq.mp leaf
      exact .leaf held inside parent childless

variable {limit : ℕ} {p q : Progress}

theorem around_ne_all {c : TileIndex} {u : Samples} (around : Around c u)
    (double : ∀ t ∈ u.times, IsDouble t ∧ 0 ≤ t) : c ≠ .nonnegativeAll := by
  obtain ⟨⟨a, ha, b, hb, -, least⟩, -⟩ := around
  have small := least.least ⟨TileIndex.topLevel, 0⟩
    (TileIndex.top_has (double a ha).2 (double a ha).1.le_doubleMax)
    (TileIndex.top_has (double b hb).2 (double b hb).1.le_doubleMax)
  rintro rfl
  exact absurd small (by decide)

theorem Interrupted.keeps (stage : Interrupted limit p f.left key) (regular : Regular p.root)
    {j : TileIndex} (node : ∃ a l r, p.tree.sub p.root j = some (.node a l r)) : f.left.hasTile j := by
  obtain ⟨a₀, l₀, r₀, node⟩ := node
  have stored : p.tree.get p.root j = some a₀ := by
    rw [CellTree.get, node]
    rfl
  have above : ∀ {ti : TileIndex} {tile : ExactTile}, p.tree.sub p.root ti = some (.leaf tile) →
      ¬ (j.Under ti ∧ j ≠ ti) := by
    rintro ti tile leaf ⟨under, ne⟩
    rw [CellTree.sub_below_leaf leaf under ne] at node
    cases node
  refine @Kvs.hasTile_of_some _ _ a₀ ?_
  cases stage with
  | record tiles => rw [tiles, stored]
  | refill all => exact (regular.not_all all).elim
  | splitAll all => exact (regular.not_all all).elim
  | newRoot all => exact (regular.not_all all).elim
  | leaf _ pass tiles => rw [tiles, stored]
  | halfway _ pass tiles half => rw [half.outside j (above pass.leaf), tiles, stored]
  | top _ pass grown tiles =>
      rw [tiles, ← stored]
      exact if_neg (above pass.leaf)
  | inner _ tiles => rw [tiles, stored]

/-- Only what lies in the tree is written to, and nothing is stored outside of it. -/
theorem Interrupted.outside (stage : Interrupted limit p f.left key) (regular : Regular p.root)
    {j : TileIndex} (out : ¬ j.Under p.root) : f.left.tiles j = none := by
  have absent : p.tree.get p.root j = none := CellTree.get_none out
  have apart : ∀ {ti : TileIndex} {tile : ExactTile}, p.tree.sub p.root ti = some (.leaf tile) →
      ¬ (j.Under ti ∧ j ≠ ti) := fun leaf g => out (g.1.trans (CellTree.under_of_sub leaf))
  cases stage with
  | record tiles => rw [tiles, absent]
  | refill all => exact (regular.not_all all).elim
  | splitAll all => exact (regular.not_all all).elim
  | newRoot all => exact (regular.not_all all).elim
  | leaf _ pass tiles => rw [tiles, absent]
  | halfway _ pass tiles half => rw [half.outside j (apart pass.leaf), tiles, absent]
  | top _ pass grown tiles =>
      rw [tiles, ← absent]
      exact if_neg (apart pass.leaf)
  | inner _ tiles => rw [tiles, absent]

/-- Whichever pass over the all-tile it is, the tile it writes is the old one with the samples of the
batch in its interval. -/
theorem Pass.merged_all {tile : ExactTile} {chunk rest : Samples} (wf : q.Wf)
    (all : q.root = .nonnegativeAll) (pass : Pass q .nonnegativeAll tile chunk rest)
    (asc : batch.Ascending)
    (state : (contents q.tree = old ∧ q.pending = batch) ∨ Filled limit old batch q) :
    (tile.insert chunk).samples = .overwrite (batch.before doubleMax) old := by
  have ends : TileIndex.nonnegativeAll.endTime = doubleMax := TileIndex.nonnegativeAll_endTime
  have front : ∀ t ∈ chunk.times, t < doubleMax := fun t ht => ends ▸ (pass.inside t ht).2
  have back : ∀ t ∈ rest.times, doubleMax ≤ t := fun t ht => ends ▸ pass.beyond rfl t ht
  have cut : chunk = q.pending.before doubleMax := by
    rw [pass.pending, Samples.before_append front back]
  have held : contents q.tree = tile.samples := by
    rw [(pass.at_all wf all).2]
    rfl
  have merged : (tile.insert chunk).samples = .overwrite chunk tile.samples := rfl
  rw [merged, ← held, cut]
  rcases state with ⟨same, pending⟩ | ⟨-, same, pending, -⟩ | ⟨regular, -⟩
  · rw [same, pending]
  · have late : ∀ t ∈ (batch.since doubleMax).times, doubleMax ≤ t :=
      fun t ht => asc.le_of_mem_since ht
    have nothing := Samples.before_append (u := .empty) (by simp) late
    rw [Samples.empty_append] at nothing
    rw [pending, nothing, Samples.overwrite_empty_left, same]
  · exact (regular.not_all all).elim

/-- A failure after which the all-tile is gone, or is about to be replaced. -/
theorem Interrupted.unusable {kvs : Kvs} {info : ChannelInfo} {tree : TileTree} {c : TileIndex}
    (stored : Stored kvs info tree) (all : info.nonnegativeRootTileIndex = .nonnegativeAll)
    (left : f.left.metainfo = kvs.metainfo)
    (around : Around c (.overwrite (batch.before doubleMax) (contents tree)))
    (gone : f.left.tiles .nonnegativeAll = none) (late : key = .tile c ∨ f.left.hasTile c) :
    Usable kvs batch f.disk ↔ ¬ Spoils info.nonnegativeRootTileIndex (contents tree) batch key fault f.left :=
  iff_of_false (unusable_all stored all left gone) (not_not.mpr (.rerooted all around late))

/-- A failure while the all-tile is there and its successor is not. -/
theorem Interrupted.usable {kvs : Kvs} {info : ChannelInfo} {tree : TileTree} {tile : ExactTile}
    (stored : Stored kvs info tree) (all : info.nonnegativeRootTileIndex = .nonnegativeAll)
    (left : f.left.metainfo = kvs.metainfo) (torn : f.torn = fault.torn key)
    (kept : f.left.tiles .nonnegativeAll = some tile)
    (serves : ∀ t, Serves batch (contents tree) tile.samples t)
    (early : ∀ c, Around c (.overwrite (batch.before doubleMax) (contents tree)) →
      key ≠ .tile c ∧ f.left.tiles c = none)
    (safe : ∀ t, ¬ f.Lost t) :
    Usable kvs batch f.disk ↔
      ¬ Spoils info.nonnegativeRootTileIndex (contents tree) batch key fault f.left := by
  rw [usable_all stored all left kept serves, spoils_iff rfl torn]
  constructor
  · rintro ⟨record, top⟩ (⟨-, c, around, here | there⟩ | torn | torn | ⟨t, -, lost⟩)
    · exact (early c around).1 here
    · exact Kvs.not_hasTile (early c around).2 there
    · exact record torn
    · exact top torn
    · exact safe t lost
  · intro fine
    exact ⟨fun torn => fine (.inr (.inl torn)), fun torn => fine (.inr (.inr (.inl torn)))⟩

/-- On a channel that consists of the all-tile. -/
theorem Interrupted.usable_iff_all {kvs : Kvs} {info : ChannelInfo} {tree : TileTree}
    (stored : Stored kvs info tree) (all : info.nonnegativeRootTileIndex = .nonnegativeAll)
    (left : f.left.metainfo = kvs.metainfo) (torn : f.torn = fault.torn key)
    (asc : batch.Ascending) (double : ∀ t ∈ batch.times, IsDouble t ∧ 0 ≤ t)
    (serving : Serving batch (contents tree) q) (wf : q.Wf)
    (state : (q.root = .nonnegativeAll ∧ contents q.tree = contents tree ∧ q.pending = batch) ∨
      Filled limit (contents tree) batch q)
    (stage : Interrupted limit q f.left key) :
    Usable kvs batch f.disk ↔
      ¬ Spoils info.nonnegativeRootTileIndex (contents tree) batch key fault f.left := by
  have before : ∀ t ∈ (Samples.overwrite (batch.before doubleMax) (contents tree)).times,
      IsDouble t ∧ 0 ≤ t := by
    intro t ht
    rcases Samples.mem_times_overwrite.mp ht with new | old
    · refine double t ?_
      rw [← Samples.before_append_since batch doubleMax]
      exact Samples.mem_times_append.mpr (.inl new)
    · exact stored.double t old
  by_cases top : q.root = .nonnegativeAll
  swap
  · -- the channel has left the all-tile, and its record does not say so yet
    obtain ⟨regular, node⟩ := wf.shape_node top
    have around : Around q.root (.overwrite (batch.before doubleMax) (contents tree)) := by
      rcases state with ⟨root, -⟩ | ⟨root, -⟩ | ⟨-, -, around⟩
      · exact (top root).elim
      · exact (top root).elim
      · exact around
    obtain ⟨a, l, r, node⟩ := node
    exact unusable stored all left around (stage.outside regular regular.all_not_under)
      (.inr (stage.keeps regular ⟨a, l, r, by rw [node, CellTree.sub_self]⟩))
  obtain ⟨tile, leaf⟩ := wf.shape_all top
  have state' := state.imp_left And.right
  have here : q.tree.get q.root TileIndex.nonnegativeAll = some tile := by
    rw [leaf, top, CellTree.get_self]
    rfl
  have only : ∀ {i : TileIndex}, i ≠ TileIndex.nonnegativeAll → q.tree.get q.root i = none := by
    intro i ne
    rw [leaf, top, CellTree.get, CellTree.sub_leaf_none ne]
    rfl
  have serves : ∀ t, Serves batch (contents tree) tile.samples t := by
    intro t
    have served : Serves batch (contents tree) (contents q.tree) t := serving.serves t
    rwa [leaf] at served
  have unlost : ∀ {k : Key}, (∀ i, k = .tile i → ¬ f.left.hasTile i.parent) →
      f.torn = fault.torn k → ∀ t, ¬ f.Lost t := by
    rintro k bare torn t ⟨i, torn', -, parent, -⟩
    rw [torn] at torn'
    exact bare i (Fault.torn_eq.mp torn').2 parent
  cases stage with
  | record tiles =>
      refine usable stored all left torn (by rw [tiles, here]) serves (fun c around => ⟨by simp, ?_⟩)
        (unlost (by simp) torn)
      rw [tiles, only (around_ne_all around before)]
  | refill _ tiles =>
      refine usable stored all left torn (by rw [tiles, here]) serves (fun c around => ⟨?_, ?_⟩)
        (unlost (fun i eq => ?_) torn)
      · simpa using (around_ne_all around before).symm
      · rw [tiles, only (around_ne_all around before)]
      · cases eq
        refine Kvs.not_hasTile ?_
        rw [tiles, only]
        decide
  | @splitAll old_tile chunk rest c key kvs' _ pass tiles around regular half =>
      have merged := pass.merged_all wf top asc state'
      rw [merged] at around
      have outside : ∀ {i : TileIndex}, ¬ (i.Under c ∧ i ≠ c) → f.left.tiles i = q.tree.get q.root i :=
        fun out => (half.outside _ out).trans (congrFun tiles _)
      refine usable stored all left torn ?_ serves (fun d around' => ?_) (unlost (fun i eq => ?_) torn)
      · rw [outside fun g => regular.all_not_under g.1, here]
      · obtain rfl := around.unique around'
        refine ⟨fun eq => half.below.2 (Key.tile.inj eq), ?_⟩
        rw [outside fun g => g.2 rfl, only regular.not_all]
      · cases eq
        have level := half.below.1.level_le
        rw [TileIndex.parent_eq (lt_of_le_of_lt level regular.lt_intMax)]
        refine Kvs.not_hasTile (half.bare.elim (fun up => ?_) id)
        rw [up, outside fun g => g.2 rfl, only regular.not_all]
  | @newRoot old_tile chunk rest c _ pass around gone =>
      rw [pass.merged_all wf top asc state'] at around
      exact unusable stored all left around gone (.inl rfl)
  | leaf regular => exact (regular.not_all top).elim
  | halfway regular => exact (regular.not_all top).elim
  | top regular => exact (regular.not_all top).elim
  | inner node => exact ((wf.regular_of_node node).not_all top).elim

theorem Fault.torn_cases (torn : f.torn = fault.torn key) : f.torn = none ∨ f.torn = some key := by
  rw [torn]
  cases fault
  · exact .inl rfl
  · exact .inr rfl

theorem usable_iff_regular {kvs : Kvs} {info : ChannelInfo} {tree : TileTree}
    (stored : Stored kvs info tree) (left : f.left.metainfo = kvs.metainfo)
    (torn : f.torn = fault.torn key) (regular : Regular info.nonnegativeRootTileIndex)
    (kept : f.left.hasTile info.nonnegativeRootTileIndex)
    (searched : ∀ t ∈ (contents tree).times,
      Searched f info.nonnegativeRootTileIndex batch (contents tree) t) :
    Usable kvs batch f.disk ↔
      ¬ Spoils info.nonnegativeRootTileIndex (contents tree) batch key fault f.left := by
  rw [usable_regular stored left kept searched, spoils_iff rfl torn]
  have proper := regular.not_all
  simp only [proper, false_and, false_or, not_or, not_exists, not_and]

/-- While the root is raised, the old tree stays as it was, and nothing new is reached from it. -/
theorem raising_searched {kvs : Kvs} {info : ChannelInfo} {tree : TileTree} {key : TileIndex} {t : ℚ}
    (stored : Stored kvs info tree) (regular : Regular info.nonnegativeRootTileIndex)
    (torn : f.torn = none ∨ f.torn = some (.tile key))
    (above : ¬ key.Under info.nonnegativeRootTileIndex) (bare : f.left.tiles key.parent = none)
    (below : ∀ i : TileIndex, i.Under info.nonnegativeRootTileIndex → f.left.tiles i = kvs.tiles i)
    (mem : t ∈ (contents tree).times) :
    Searched f info.nonnegativeRootTileIndex batch (contents tree) t := by
  have leaf := CellTree.reach_sub tree info.nonnegativeRootTileIndex t
  have leaves := stored.wf.leaves_has regular
  have here : (tree.reach info.nonnegativeRootTileIndex t).1.Has t :=
    CellTree.reach_has (stored.has mem regular.not_all)
  have under := CellTree.under_of_sub leaf
  have whole : ∀ k : TileIndex, k.Under info.nonnegativeRootTileIndex → f.torn ≠ some (.tile k) := by
    intro k g
    refine f.whole_of_ne torn ?_
    rintro rfl
    exact above g
  have found := steady regular stored.wf.deep leaf here under (.refl _) regular
    (fun k g _ => by rw [below k g, stored.tiles]) fun k g _ => whole k (g.trans under)
  refine .inl ⟨?_, _, _, found, ?_, Serves.leaf (Serves.refl _ _ t) leaf leaves here⟩
  · rintro ⟨i, eq, -, parent, -⟩
    obtain rfl := f.eq_of_torn torn eq
    exact Kvs.not_hasTile bare parent
  · rw [f.readTile_whole (whole _ under), below _ under, stored.at_reach t]

/-- A call in which a set failed leaves the channel usable, unless it is one of the sets that spoil
it. -/
theorem usable_of_stops {kvs : Kvs} {info : ChannelInfo} {tree : TileTree} (stored : Stored kvs info tree)
    (left : f.left.metainfo = kvs.metainfo) (torn : f.torn = fault.torn key) (asc : batch.Ascending)
    (double : ∀ t ∈ batch.times, IsDouble t ∧ 0 ≤ t) (stops : Stops limit batch kvs f.left key) :
    Usable kvs batch f.disk ↔
      ¬ Spoils info.nonnegativeRootTileIndex (contents tree) batch key fault f.left := by
  have maybe := Fault.torn_cases torn
  cases stops with
  | creating new => exact (new ▸ stored).not_absent.elim
  | raising stored' regular above bare below =>
      obtain ⟨rfl, rfl⟩ := stored.unique stored'
      refine usable_iff_regular stored left torn regular ?_ fun t mem =>
        raising_searched stored regular maybe above bare below mem
      refine @Kvs.hasTile_of_some _ _ tree.label ?_
      rw [below _ (.refl _), stored.tiles, CellTree.get_self]
  | working opens wf steps filled stage =>
      cases opens with
      | new spanned => exact stored.not_absent.elim
      | old stored' spanned =>
          obtain ⟨rfl, rfl⟩ := stored.unique stored'
          have start : Serving batch (contents tree) ⟨info.nonnegativeRootTileIndex, tree, [], batch⟩ :=
            ⟨⟨.empty, rfl⟩, fun t => Serves.refl _ _ t⟩
          have serving := start.steps steps wf
          have wf' := Steps.wf steps wf
          by_cases all : info.nonnegativeRootTileIndex = .nonnegativeAll
          · refine stage.usable_iff_all stored all left torn asc double serving wf' ?_
            refine (filled all).imp_left ?_
            rintro rfl
            exact ⟨all, rfl, rfl⟩
          · obtain ⟨regular, a, l, r, eq⟩ := stored.wf.shape_node all
            have high := Steps.regular_root steps regular
            have node := Steps.keep (P := fun p => ∃ a l r,
              p.tree.sub p.root info.nonnegativeRootTileIndex = some (.node a l r))
              (fun _ _ step _ => step.keeps_node) steps wf ⟨a, l, r, by
                dsimp only at eq ⊢
                rw [eq, CellTree.sub_self]⟩
            exact usable_iff_regular stored left torn regular (stage.keeps high node) fun t mem =>
              Interrupted.searched wf' high node (stored.has mem all) serving mem stage maybe

end Spoils

def Batch.second : Batch := .doubles [⟨2, 1, 1, 0⟩]

namespace Batch

theorem mem_times_second {t : ℚ} : t ∈ second.samples.times ↔ t = 2 := by
  simp [second, samples, times_only]

theorem finite_second : second.FiniteTimes := by
  intro t ht
  rw [mem_times_second.mp ht]
  exact_mod_cast IsDouble.of_nat (n := 2) (by norm_num)

theorem nonneg_second : ∀ t ∈ second.samples.times, 0 ≤ t := by
  intro t ht
  rw [mem_times_second.mp ht]
  norm_num

theorem sorted_second : second.samples.Ascending := ⟨List.pairwise_singleton _ _, .nil⟩

end Batch

theorem Channel.failing_writeTile (ch : Channel) (ti : TileIndex) (kvs : Kvs) (tile : ExactTile) :
    (ch.failing (.tile ti) kvs .cannotOpen).writeTile ti tile kvs = .throw ⟨"fopen", kvs, none⟩ := by
  have fails : (ch.failing (.tile ti) kvs .cannotOpen).setFault kvs (.tile ti) = some .cannotOpen :=
    if_pos ⟨rfl, rfl⟩
  simp only [writeTile, set, fails]

/-- What the set of a new root finds: its children are there, and the all-tile is not. -/
def Kvs.rerooted (kvs : Kvs) (root : TileIndex) (s : TileTree) : Kvs :=
  { kvs with tiles := Function.update (s.placedBelow root kvs.tiles) TileIndex.nonnegativeAll none }

open Channel in
/-- The file of the new root cannot be opened when the all-tile splits. -/
theorem new_root_fails {ch : Channel} {kvs : Kvs} {info : ChannelInfo} {tile : ExactTile} {first : Sample ℚ}
    {rest : List (Sample ℚ)} {root : TileIndex} {s : TileTree} (stored : Stored kvs info (.leaf tile))
    (all : info.nonnegativeRootTileIndex = .nonnegativeAll) (start : 0 ≤ first.time)
    (sorted : Ascending DataSample.time (first :: rest))
    (inside : ∀ x ∈ first :: rest, TileIndex.nonnegativeAll.containsTime x.time)
    (long : ch.maxTileSize < (tile.insert (only (first :: rest))).binaryLength)
    (asc : (tile.insert (only (first :: rest))).samples.Ascending)
    (chosen : Outcome.Reaches (fun fuel => (TileIndex.indexContaining fuel
      ⟨(tile.insert (only (first :: rest))).firstSampleTime,
        (tile.insert (only (first :: rest))).lastSampleTime⟩ : Outcome Failure _)) root)
    (regular : Regular root) (grown : Grown ch.maxTileSize root (tile.insert (only (first :: rest))) s) :
    ∃ fuel, (ch.failing (.tile root) (kvs.rerooted root s) .cannotOpen).addData fuel
      (.doubles (first :: rest)) kvs = .throw ⟨"fopen", kvs.rerooted root s, none⟩ := by
  have at_all : kvs.tiles .nonnegativeAll = some tile := by
    rw [stored.tiles, all, CellTree.get_self]
    rfl
  have free : Free kvs root := by
    refine .of_only_all regular fun i ne => ?_
    rw [stored.tiles, all, CellTree.get, CellTree.sub_leaf_none ne]
    rfl
  have quiet : (ch.failing (.tile root) (kvs.rerooted root s) .cannotOpen).QuietBelow root := by
    intro kvs' i _ ne
    exact if_neg fun same => ne (Key.tile.inj same.2)
  have proper : root ≠ .null := fun null => regular.not_null (TileIndex.isNull_iff.mpr null)
  obtain ⟨n, split⟩ : Exec.Reaches (fun fuel => (ch.failing (.tile root) (kvs.rerooted root s)
      .cannotOpen).splitTileIfNeeded fuel .nonnegativeAll _) kvs _ _ :=
    splitAll_done long asc chosen regular grown quiet free
  obtain ⟨m, found⟩ := kvs.findLowest_all first.time
  have whole : (first :: rest).takeWhile (fun x => TileIndex.nonnegativeAll.containsTime x.time) =
      first :: rest := List.takeWhile_eq_self_iff.mpr fun x mem => decide_eq_true (inside x mem)
  -- the pass over the all-tile comes to the set of the new root
  have step : ∀ st : AddState, st.root = info.nonnegativeRootTileIndex →
      (ch.failing (.tile root) (kvs.rerooted root s) .cannotOpen).insertStep (max n m) st first
        (first :: rest) kvs = .throw ⟨"fopen", kvs.rerooted root s, none⟩ := by
    intro st top
    have search : (Exec.read fun kvs : Kvs =>
        kvs.findLowestChildOverlappingTime (max n m) st.root first.time) kvs = .ret (.nonnegativeAll, kvs) := by
      refine Exec.read_of_ret ?_
      rw [top, all]
      exact found _ (le_max_right n m)
    refine (Exec.bind_of_ret search).trans ?_
    refine (Exec.bind_of_ret (Exec.assert_of (by decide) _ _)).trans ?_
    have read : (Exec.read fun kvs : Kvs => kvs.readTile .nonnegativeAll) kvs = .ret (tile, kvs) :=
      Exec.read_of_ret (Kvs.readTile_of_some at_all)
    refine (Exec.bind_of_ret read).trans ?_
    have insert : (Exec.read fun _ : Kvs => SampleKind.insertSamples tile
        ((first :: rest).takeWhile fun x => TileIndex.nonnegativeAll.containsTime x.time)) kvs =
        (.ret (tile.insert (only (first :: rest)), kvs) : Outcome Failure _) := by
      rw [whole]
      exact Exec.read_of_ret (insertSamples_done tile sorted)
    refine (Exec.bind_of_ret insert).trans ?_
    refine (Exec.bind_of_ret (split _ (le_max_left n m))).trans ?_
    dsimp only
    rw [if_pos proper]
    refine (Exec.bind_of_ret (Exec.assert_of rfl _ _)).trans ?_
    refine (Exec.bind_of_ret (Exec.modify_run _ _)).trans ?_
    exact Exec.bind_eq_throw.mpr (.inl (failing_writeTile ch root (kvs.rerooted root s) s.label))
  have opened : ∀ fuel times,
      (ch.failing (.tile root) (kvs.rerooted root s) .cannotOpen).prepareRoot fuel times kvs =
        .ret (({ info with times := info.times.add times }, []), kvs) := by
    intro fuel times
    rw [prepareRoot, Exec.bind_of_ret (Exec.read_of_ret stored.readInfo)]
    dsimp only
    rw [if_neg (not_not.mpr all)]
    rfl
  refine ⟨max n m + 1, (congrFun (addDataInternal_sorted _ start sorted) kvs).trans ?_⟩
  refine (Exec.bind_of_ret (lock_run kvs)).trans ?_
  rw [stored.locked]
  refine (Exec.bind_of_ret (opened _ _)).trans (Exec.bind_eq_throw.mpr (.inl ?_))
  exact Exec.bind_eq_throw.mpr (.inl (step _ rfl))

/-- The files after the failed set of `key`. -/
def Kvs.afterFault (kvs : Kvs) (key : Key) (fault : Fault) : Disk :=
  Failure.disk ⟨"", kvs, fault.torn key⟩

namespace Runs

variable {ch : Channel} {bs : List Batch} {kvs : Kvs} {b : Batch}

/-- A call that a failing set ends leaves the channel usable exactly when the set is none of those
that spoil it, and no value that is looked at was lost at `fclose`. -/
theorem usable_iff {fuel : ℕ} {key : Key} {at_ : Kvs} {fault : Fault} {f : Failure}
    (run : Runs ch bs kvs) (finite : b.FiniteTimes) (sorted : b.samples.Ascending)
    (nonneg : ∀ t ∈ b.samples.times, 0 ≤ t)
    (thrown : (ch.failing key at_ fault).addData fuel b kvs = .throw f) (lost : Key → Bool) :
    Usable kvs b.samples (f.disk.lose lost) ↔ ∀ info, kvs.metainfo = some (some info) →
      ¬ Spoils info.nonnegativeRootTileIndex (history bs) b.samples key fault at_ ∧
        Spared (at_.afterFault key fault) (history bs) lost := by
  have double : ∀ t ∈ b.samples.times, IsDouble t ∧ 0 ≤ t := fun t ht => ⟨finite t ht, nonneg t ht⟩
  obtain ⟨k, failed, stops, left⟩ := Channel.addData_throw run.usual sorted double thrown
  obtain ⟨rfl, rfl, torn⟩ := Channel.failing_failedAt failed
  rcases run.contents_eq with ⟨rfl, -⟩ | ⟨info, tree, stored, same⟩
  · exact iff_of_true (usable_absent (lose_empty left)) fun info has => nomatch has
  · have after : f.left.afterFault k fault = f.disk := by
      rw [Kvs.afterFault, ← torn]
      rfl
    rw [after, usable_lose_iff stored, ← same, usable_of_stops stored ?_ torn sorted double stops]
    · constructor
      · intro fine info' has
        cases stored.metainfo.symm.trans has
        exact fine
      · intro fine
        exact fine info stored.metainfo
    · rw [left, stored.metainfo]
      rfl

/-- One sample a tile: the second splits the all-tile, and the file of the new root cannot be opened. -/
theorem second_sample_fails : ∃ kvs info tile s fuel, Runs .narrow [.one 5] kvs ∧
    Stored kvs info (.leaf tile) ∧ info.nonnegativeRootTileIndex = .nonnegativeAll ∧
    (Channel.narrow.failing (.tile ⟨2, 0⟩) (kvs.rerooted ⟨2, 0⟩ s) .cannotOpen).addData fuel .second kvs =
      .throw ⟨"fopen", kvs.rerooted ⟨2, 0⟩ s, none⟩ := by
  have one : ∀ t ∈ (Batch.one 5).samples.times, t = 1 := fun t => Batch.mem_times_one.mp
  have accepts : Accepts Channel.narrow .absent (history []) (Batch.one 5).samples := by
    refine ⟨fun k => ?_, fun _ => .inl fun t ht => ?_, fun info has => by cases has⟩
    · have whole : Samples.overwrite (Batch.one 5).samples (history []) = (Batch.one 5).samples :=
        Samples.overwrite_empty_right _
      rw [whole]
      exact Samples.size_at_of_apart rfl (List.pairwise_singleton _ _) k
    · rw [one t ht]
      exact_mod_cast nat_lt_doubleMax (n := 1) (by norm_num)
  have start : Runs Channel.narrow [] .absent := .absent
  obtain ⟨r, kvs, reaches⟩ := start.completes (fun _ _ => rfl)
    (fun x mem => List.mem_singleton.mp mem ▸ Batch.weights_one 5) (Batch.finite_one 5)
    (Batch.sorted_one 5) (fun t ht => one t ht ▸ zero_le_one) accepts
  obtain ⟨fuel, ret⟩ := Outcome.Reaches.returns reaches
  have run : Runs .narrow [.one 5] kvs := .add .absent (Batch.finite_one 5) ret
  rcases run.contents_eq with ⟨-, none⟩ | ⟨info, tree, stored, same⟩
  · exact (List.cons_ne_nil _ _ (congrArg Samples.doubles none)).elim
  have all := Log.all_of_one_time run one stored.metainfo
  obtain ⟨tile, rfl⟩ := stored.wf.shape_all all
  have held : tile.samples = (Batch.one 5).samples := same
  have merged : (tile.insert Batch.second.samples).samples =
      .overwrite Batch.second.samples (Batch.one 5).samples := by
    rw [← held]
    rfl
  have times : ∀ t, t ∈ (tile.insert Batch.second.samples).samples.times ↔ t ∈ Batch.pair.samples.times := by
    intro t
    rw [merged, Samples.mem_times_overwrite, Batch.mem_times_second, Batch.mem_times_one, Batch.mem_times_pair]
    exact or_comm
  have around : Around ⟨2, 0⟩ (tile.insert Batch.second.samples).samples :=
    Batch.around_pair.congr times
  have double : ∀ t ∈ (tile.insert Batch.second.samples).samples.times, IsDouble t ∧ 0 ≤ t :=
    fun t ht => ⟨Batch.finite_pair t ((times t).mp ht), Batch.nonneg_pair t ((times t).mp ht)⟩
  have asc : (tile.insert Batch.second.samples).samples.Ascending := by
    rw [merged]
    exact Batch.sorted_second.overwrite (Batch.sorted_one 5)
  have weights : ∀ w ∈ (tile.insert Batch.second.samples).samples.weights, 0 < w := by
    rw [merged]
    decide
  have groups : ∀ k, ((tile.insert Batch.second.samples).samples.at_ k).size ≤ Channel.narrow.maxTileSize := by
    intro k
    rw [merged]
    exact Samples.size_at_of_apart rfl (by decide) k
  have long : Channel.narrow.maxTileSize < (tile.insert Batch.second.samples).binaryLength := by
    rw [Tile.binaryLength_eq, merged]
    decide
  have chosen := Tile.indexContaining_around (ε := Failure) asc double around
  have regular : Regular ⟨2, 0⟩ := ⟨by decide, by decide⟩
  obtain ⟨s, grown⟩ := Grown.total regular ⟨asc, around.2, fun t ht => (double t ht).1⟩ weights groups
  have inside : ∀ x ∈ [(⟨2, 1, 1, 0⟩ : Sample ℚ)], TileIndex.nonnegativeAll.containsTime x.time := by
    intro x mem
    rw [List.mem_singleton.mp mem, TileIndex.containsTime, TileIndex.nonnegativeAll_startTime,
      TileIndex.nonnegativeAll_endTime]
    exact ⟨by norm_num, by exact_mod_cast nat_lt_doubleMax (n := 2) (by norm_num)⟩
  obtain ⟨fuel, thrown⟩ := new_root_fails stored all (by norm_num) (List.pairwise_singleton _ _) inside long
    asc chosen regular grown
  exact ⟨kvs, info, tile, s, fuel, run, stored, all, thrown⟩

/-- No value was lost. -/
theorem usable_iff_second : ∃ kvs info tile s, ∃ f : Failure, Runs .narrow [.one 5] kvs ∧
    Stored kvs info (.leaf tile) ∧ (Usable kvs Batch.second.samples (f.disk.lose fun _ => false) ↔
      ∀ info, kvs.metainfo = some (some info) →
        ¬ Spoils info.nonnegativeRootTileIndex (history [.one 5]) Batch.second.samples (.tile ⟨2, 0⟩)
            .cannotOpen (kvs.rerooted ⟨2, 0⟩ s) ∧
          Spared ((kvs.rerooted ⟨2, 0⟩ s).afterFault (.tile ⟨2, 0⟩) .cannotOpen) (history [.one 5])
            fun _ => false) := by
  obtain ⟨kvs, info, tile, s, fuel, run, stored, -, thrown⟩ := second_sample_fails
  exact ⟨kvs, info, tile, s, _, run, stored, run.usable_iff Batch.finite_second Batch.sorted_second
    Batch.nonneg_second thrown fun _ => false⟩

/-- The all-tile is gone, and the record still names it. -/
theorem unopened_root : ∃ kvs at_ fuel, ∃ f : Failure, Runs .narrow [.one 5] kvs ∧ Batch.second.samples.Ascending ∧
    (Channel.narrow.failing (.tile ⟨2, 0⟩) at_ .cannotOpen).addData fuel .second kvs = .throw f ∧
      ¬ Usable kvs Batch.second.samples f.disk := by
  obtain ⟨kvs, info, tile, s, fuel, run, stored, all, thrown⟩ := second_sample_fails
  have gone : (kvs.rerooted ⟨2, 0⟩ s).tiles .nonnegativeAll = none := by
    rw [Kvs.rerooted]
    simp
  exact ⟨kvs, _, fuel, _, run, Batch.sorted_second, thrown, unusable_all stored all rfl gone⟩

end Runs
end Mio.Datastore
