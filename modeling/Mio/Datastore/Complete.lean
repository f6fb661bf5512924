import Mio.Datastore.Settled

/-! When a call completes: every time's samples fit into one tile, and no sample of the last double
is left beside the tree. -/
namespace Mio.Datastore

/-- Merging into one part of the contents leaves the groups elsewhere alone. -/
theorem groups_part {limit : ℕ} {u rest a v b : Samples} {P : ℚ → Prop}
    (ascNew : (u ++ rest).Ascending) (ascOld : (a ++ v ++ b).Ascending)
    (here : ∀ t ∈ (u ++ v).times, P t) (there : ∀ t ∈ (rest ++ (a ++ b)).times, ¬ P t)
    (room : Samples.empty.size ≤ limit)
    (groups : ∀ k, ((Samples.overwrite (u ++ rest) (a ++ v ++ b)).at_ k).size ≤ limit) (k : ℚ) :
    ((Samples.overwrite u v).at_ k).size ≤ limit := by
  by_cases inside : P k
  · have none : ∀ {w : Samples}, (∀ t ∈ w.times, ¬ P t) → w.at_ k = .empty :=
      fun h => Samples.at_of_not_mem fun mem => h k mem inside
    have restNone := none fun t ht => there t (Samples.mem_times_append.mpr (.inl ht))
    have sides : ∀ t, t ∈ a.times ∨ t ∈ b.times → ¬ P t := fun t ht =>
      there t (Samples.mem_times_append.mpr (.inr (Samples.mem_times_append.mpr ht)))
    have frontNone := none fun t ht => sides t (.inl ht)
    have backNone := none fun t ht => sides t (.inr ht)
    have whole := groups k
    rw [Samples.at_overwrite ascNew ascOld, Samples.at_append, Samples.at_append, Samples.at_append,
      restNone, frontNone, backNone, Samples.append_empty, Samples.empty_append,
      Samples.append_empty] at whole
    rwa [Samples.at_overwrite ascNew.of_append.1 ascOld.of_append.1.of_append.2]
  · rw [Samples.at_of_not_mem]
    · exact room
    · intro mem
      refine inside (here k ?_)
      rw [Samples.mem_times_append]
      exact Samples.mem_times_overwrite.mp mem

/-- The index chosen for a tile is the smallest cell around its times. -/
theorem Tile.indexContaining_around {ε : Type} {t : ExactTile} {root : TileIndex} (asc : t.samples.Ascending)
    (double : ∀ x ∈ t.samples.times, IsDouble x ∧ 0 ≤ x) (around : Around root t.samples) :
    Outcome.Reaches (fun fuel => (TileIndex.indexContaining fuel
      ⟨t.firstSampleTime, t.lastSampleTime⟩ : Outcome ε TileIndex)) root := by
  obtain ⟨⟨x, hx, y, hy, lt, -⟩, -⟩ := id around
  obtain ⟨r, chosen⟩ := Tile.indexContaining_ends_done (ε := ε) asc double hx hy lt.ne
  obtain ⟨fuel, ret⟩ := chosen.returns
  obtain ⟨a, ha, b, hb, lt, bounds, least, -⟩ := Tile.indexContaining_ends asc double ret
  have tight : Around r t.samples := by
    refine ⟨⟨a, ha, b, hb, lt, least⟩, fun t ht => ?_⟩
    exact ⟨least.left.1.trans (bounds t ht).1, (bounds t ht).2.trans_lt least.right.2⟩
  rwa [around.unique tight]

namespace Channel

variable {ch : Channel}

def Quiet (ch : Channel) : Prop := ∀ kvs key, ch.setFault kvs key = none

theorem Quiet.below (h : ch.Quiet) (ti : TileIndex) : ch.QuietBelow ti :=
  fun kvs _ _ _ => h kvs _

/-- A too long all-tile splits below the index chosen for it. -/
theorem splitAll_done {tile : ExactTile} {root : TileIndex} {s : TileTree} {kvs : Kvs}
    (long : ch.maxTileSize < tile.binaryLength) (asc : tile.samples.Ascending)
    (chosen : Outcome.Reaches (fun fuel => (TileIndex.indexContaining fuel
      ⟨tile.firstSampleTime, tile.lastSampleTime⟩ : Outcome Failure _)) root)
    (regular : Regular root) (grown : Grown ch.maxTileSize root tile s) (quiet : ch.QuietBelow root)
    (free : Free kvs root) :
    Exec.Reaches (fun fuel => ch.splitTileIfNeeded fuel .nonnegativeAll tile) kvs (root, s.label)
      { kvs with tiles := s.placedBelow root kvs.tiles } := by
  cases grown with
  | leaf fits => exact absurd fits (not_le.mpr long)
  | @node _ _ parent l r _ left right combined =>
      have high : root.level - 1 < TileIndex.intMax := by
        have := regular.lt_intMax
        omega
      refine .step (y := fun fuel => do
        let index ← Exec.read fun _ =>
          TileIndex.indexContaining fuel ⟨tile.firstSampleTime, tile.lastSampleTime⟩
        let tile ← ch.splitInto (ch.splitTileIfNeeded fuel) index tile
        return (index, tile)) (fun fuel => ?_) ?_
      · rw [splitTileIfNeeded, if_neg (not_le.mpr long),
          if_pos (TileIndex.isNonnegativeAll_iff.mpr rfl)]
      · refine .bind (.read chosen) ?_
        refine .bind (splitInto_done regular.lt_intMax asc free quiet ?_ ?_ combined) ?_
        · refine fun kvs => splitTileIfNeeded_done left high ?_ (quiet.mono (.lo root)) kvs
          rw [Tile.samples_ofSamples]
          exact asc.before _
        · refine fun kvs => splitTileIfNeeded_done right high ?_ (quiet.mono (.hi root)) kvs
          rw [Tile.samples_ofSamples]
          exact asc.since _
        · exact .of_ret fun _ => rfl

section
variable {V : Type} [SampleKind V] [LawfulSampleKind V] {st : AddState} {first : Sample V}
  {data : List (Sample V)} {kvs kvs₁ : Kvs} {ti root : TileIndex} {tile tile' : ExactTile}

/-- A pass up to the split of the tile that is found. -/
theorem insertStep_done {r : AddState × List (Sample V)}
    (found : Outcome.Reaches (fun fuel => kvs.findLowestChildOverlappingTime fuel st.root first.time) ti)
    (proper : ¬ ti.isNull) (stored : kvs.tiles ti = some tile) (asc : Ascending DataSample.time data)
    (rest : Exec.Reaches (fun fuel => ch.splitTileIfNeeded fuel ti
        (tile.insert (only (data.takeWhile fun s => ti.containsTime s.time))) >>=
      ch.insertRest st ti (data.dropWhile fun s => ti.containsTime s.time)) kvs r kvs₁) :
    Exec.Reaches (fun fuel => ch.insertStep fuel st first data) kvs r kvs₁ := by
  refine .bind (.read found) ?_
  refine .bind (.of_ret fun _ => Exec.assert_of proper _ _) ?_
  refine .bind (.of_ret fun _ => Exec.read_of_ret (Kvs.readTile_of_some stored)) ?_
  refine .bind (.of_ret fun _ => Exec.read_of_ret (insertSamples_done tile (asc.takeWhile _))) ?_
  exact rest

theorem insertStep_keep (quiet : ch.Quiet)
    (found : Outcome.Reaches (fun fuel => kvs.findLowestChildOverlappingTime fuel st.root first.time) ti)
    (proper : ¬ ti.isNull) (stored : kvs.tiles ti = some tile) (asc : Ascending DataSample.time data)
    (split : Exec.Reaches (fun fuel => ch.splitTileIfNeeded fuel ti
      (tile.insert (only (data.takeWhile fun s => ti.containsTime s.time)))) kvs (.null, tile') kvs₁) :
    Exec.Reaches (fun fuel => ch.insertStep fuel st first data) kvs
      (st.changed ti tile', data.dropWhile fun s => ti.containsTime s.time)
      { kvs₁ with tiles := Function.update kvs₁.tiles ti (some tile') } := by
  refine insertStep_done found proper stored asc (.bind split (.of_ret fun _ => ?_))
  rw [insertRest, if_neg (by simp)]
  exact Exec.bind_of_ret (set_done _ _ (quiet _ _))

variable (st) in
theorem insertStep_move (quiet : ch.Quiet)
    (found : Outcome.Reaches (fun fuel => kvs.findLowestChildOverlappingTime fuel st.root first.time)
      .nonnegativeAll)
    (stored : kvs.tiles .nonnegativeAll = some tile) (asc : Ascending DataSample.time data)
    (split : Exec.Reaches (fun fuel => ch.splitTileIfNeeded fuel .nonnegativeAll
      (tile.insert (only (data.takeWhile fun s => TileIndex.nonnegativeAll.containsTime s.time)))) kvs
      (root, tile') kvs₁) (proper : root ≠ .null) :
    Exec.Reaches (fun fuel => ch.insertStep fuel st first data) kvs
      (AddState.changed { st with root := root } root tile',
        data.dropWhile fun s => TileIndex.nonnegativeAll.containsTime s.time)
      { kvs₁ with
        tiles := Function.update (Function.update kvs₁.tiles TileIndex.nonnegativeAll none) root
          (some tile') } := by
  have real : ¬ TileIndex.isNull .nonnegativeAll := by decide
  refine insertStep_done found real stored asc (.bind split (.of_ret fun _ => ?_))
  rw [insertRest, if_pos proper]
  refine Exec.bind_of_ret (Exec.assert_of rfl _ _) |>.trans ?_
  exact (Exec.bind_of_ret (Exec.modify_run _ _)).trans (Exec.bind_of_ret (set_done _ _ (quiet _ _)))

end

end Channel

/-- A state whose samples, the pending ones included, fit into tiles and can be averaged. -/
structure Ready (limit : ℕ) (p : Progress) : Prop where
  wf : p.Wf
  weighed : Step.Weighed (0 < ·) p
  groups : ∀ k, (p.total.at_ k).size ≤ limit

namespace Ready

variable {limit : ℕ} {p q : Progress}

theorem room (h : Ready limit p) : Samples.empty.size ≤ limit :=
  (Samples.empty_size_le _).trans (h.groups 0)

theorem step (step : Step limit p q) (h : Ready limit p) : Ready limit q := by
  refine ⟨step.wf h.wf, step.weighed (fun _ w => w) (fun _ w => le_of_lt w) h.wf h.weighed, ?_⟩
  rw [step.total_eq h.wf]
  exact h.groups

theorem merged_weights {i : TileIndex} {tile : ExactTile} {chunk rest : Samples} (h : Ready limit p)
    (stored : p.tree.get p.root i = some tile) (pending : p.pending = chunk ++ rest) :
    ∀ w ∈ (tile.insert chunk).samples.weights, 0 < w := by
  intro w hw
  rcases Tile.mem_weights_insert hw with hw | hw
  · refine h.weighed.pending w ?_
    rw [pending]
    exact Samples.mem_weights_append.mpr (.inl hw)
  · exact (h.weighed.labels i tile stored).weights w hw

end Ready

namespace Channel

variable {ch : Channel} {V : Type} [SampleKind V] [LawfulSampleKind V] {p : Progress} {st : AddState}
  {first : Sample V} {data : List (Sample V)} {kvs : Kvs}

/-- Below a regular root every pass takes at least the first sample. -/
theorem insertStep_regular_done (quiet : ch.Quiet) (ready : Ready ch.maxTileSize p)
    (tracks : Tracks p st kvs) (pending : p.pending = only (first :: data))
    (regular : Regular p.root) (has : p.root.Has first.time) :
    ∃ st' rest kvs', Exec.Reaches (fun fuel => ch.insertStep fuel st first (first :: data)) kvs
      (st', rest) kvs' ∧ rest.length ≤ data.length ∧ rest ⊆ first :: data := by
  have leaf := CellTree.reach_sub p.tree p.root first.time
  have found := Kvs.findLowest_reaches ready.wf tracks.holds first.time
  have here : (p.tree.reach p.root first.time).1.Has first.time := CellTree.reach_has has
  generalize p.tree.reach p.root first.time = place at leaf found here
  obtain ⟨(ti : TileIndex), tile⟩ := place
  dsimp only at leaf found here
  have reg : Regular ti := ready.wf.regular_of_sub regular leaf
  have contains : ti.containsTime first.time := (reg.containsTime_iff _).mpr here
  have label : p.tree.get p.root ti = some tile := by
    rw [CellTree.get, leaf]
    rfl
  have pass := pass_of_leaf ready.wf leaf pending
  have stored := pass.stored tracks
  have asc : (only (first :: data)).Ascending := pending ▸ ready.wf.ascending
  have sorted := (ascending_only (first :: data)).mp asc
  have past := only_past_of_first asc contains
  have inside := pass.inside
  have cut := only_chunk (first :: data) ti
  generalize hchunk : (first :: data).takeWhile (fun s => ti.containsTime s.time) = chunk at cut inside
  generalize hrest : (first :: data).dropWhile (fun s => ti.containsTime s.time) = rest at cut past
  have leafy := ready.wf.leaves ti tile (CellTree.mem_leaves.mpr leaf)
  obtain ⟨a, b, old, -, front, back⟩ := contents_graft leaf (ready.wf.leaves_has regular)
  rw [contents] at old
  have fed : Fed ti (tile.insert (only chunk)).samples := by
    refine ⟨?_, fun t ht => ?_, fun t ht => ?_⟩
    · rw [cut] at asc
      exact asc.of_append.1.overwrite leafy.ascending
    · rcases Tile.mem_times_insert.mp ht with ht | ht
      · exact (reg.containsTime_iff t).mp (inside t ht)
      · exact (reg.containsTime_iff t).mp (leafy.inside t ht)
    · rcases Tile.mem_times_insert.mp ht with ht | ht
      · refine (ready.wf.double t ?_).1
        rw [pending, cut]
        exact Samples.mem_times_append.mpr (.inl ht)
      · exact (leafy.double t ht).1
  have groups : ∀ k, ((tile.insert (only chunk)).samples.at_ k).size ≤ ch.maxTileSize := by
    have whole := ready.groups
    have oldAsc := ready.wf.contents_ascending
    rw [Progress.total, pending, cut, old] at whole
    rw [old] at oldAsc
    rw [cut] at asc
    intro k
    rw [Tile.samples_insert]
    refine groups_part (P := ti.Has) asc oldAsc ?_ ?_ ready.room whole k
    · intro t ht
      rcases Samples.mem_times_append.mp ht with ht | ht
      · exact (reg.containsTime_iff t).mp (inside t ht)
      · exact (reg.containsTime_iff t).mp (leafy.inside t ht)
    · intro t ht g
      have stop := TileIndex.endTime_eq reg.not_null reg.lt_intMax
      rcases Samples.mem_times_append.mp ht with ht | ht
      · exact not_le.mpr g.2 (stop ▸ past t ht)
      · rcases Samples.mem_times_append.mp ht with ht | ht
        · exact not_lt.mpr g.1 (front t ht)
        · exact not_le.mpr g.2 (back t ht)
  obtain ⟨s, grown⟩ := Grown.total reg fed (ready.merged_weights label (pending.trans cut)) groups
  have free : Free kvs ti := fun i => pass.free tracks
  have split := splitTileIfNeeded_done grown reg.lt_intMax fed.ascending (quiet.below ti) kvs free
  rw [← hchunk] at split
  rw [← tracks.root] at found
  have run := insertStep_keep quiet found reg.not_null stored sorted split
  refine ⟨_, _, _, run, ?_, ?_⟩
  · rw [List.dropWhile_cons_of_pos (by simpa using contains)]
    exact (List.dropWhile_sublist _).length_le
  · exact (List.dropWhile_sublist _).subset

variable (first) in
/-- A pass over the all-tile keeps it or splits it. -/
theorem insertStep_all_done (quiet : ch.Quiet) (ready : Ready ch.maxTileSize p)
    (tracks : Tracks p st kvs) (pending : p.pending = only data) (all : p.root = .nonnegativeAll) :
    ∃ st' kvs', Exec.Reaches (fun fuel => ch.insertStep fuel st first data) kvs
      (st', data.dropWhile fun s => TileIndex.nonnegativeAll.containsTime s.time) kvs' := by
  obtain ⟨tile, leaf⟩ := ready.wf.shape_all all
  have found : Outcome.Reaches (fun fuel => kvs.findLowestChildOverlappingTime fuel st.root first.time)
      TileIndex.nonnegativeAll := by
    have search := Kvs.findLowest_reaches ready.wf tracks.holds first.time
    rw [tracks.root]
    simpa only [leaf, CellTree.reach, all] using search
  have alone : p.tree.sub p.root TileIndex.nonnegativeAll = some (.leaf tile) := by
    rw [leaf, all, CellTree.sub_self]
  have pass := pass_of_leaf ready.wf alone pending
  have label : p.tree.get p.root TileIndex.nonnegativeAll = some tile := by
    rw [CellTree.get, alone]
    rfl
  have stored := pass.stored tracks
  have asc : (only data).Ascending := pending ▸ ready.wf.ascending
  have sorted := (ascending_only data).mp asc
  have inside := pass.inside
  have past := pass.beyond rfl
  have cut := only_chunk data .nonnegativeAll
  generalize hchunk : data.takeWhile (fun s => TileIndex.nonnegativeAll.containsTime s.time) = chunk
    at cut inside
  have leafy : Leafy .nonnegativeAll tile.samples :=
    ready.wf.leaves _ tile (CellTree.mem_leaves.mpr alone)
  have ends : TileIndex.nonnegativeAll.endTime = doubleMax := TileIndex.nonnegativeAll_endTime
  rw [cut] at asc
  have merged : (tile.insert (only chunk)).samples.Ascending :=
    asc.of_append.1.overwrite leafy.ascending
  have double : ∀ t ∈ (tile.insert (only chunk)).samples.times, IsDouble t ∧ 0 ≤ t := by
    intro t ht
    rcases Tile.mem_times_insert.mp ht with ht | ht
    · refine ready.wf.double t ?_
      rw [pending, cut]
      exact Samples.mem_times_append.mpr (.inl ht)
    · exact leafy.double t ht
  by_cases fits : (tile.insert (only chunk)).binaryLength ≤ ch.maxTileSize
  · have split : Exec.Reaches (fun fuel => ch.splitTileIfNeeded fuel .nonnegativeAll
        (tile.insert (only chunk))) kvs (.null, tile.insert (only chunk)) kvs := by
      refine .step (y := fun _ => pure (.null, tile.insert (only chunk))) (fun fuel => ?_)
        (.of_ret fun _ => rfl)
      rw [splitTileIfNeeded, if_pos fits]
    rw [← hchunk] at split
    have run := insertStep_keep quiet found (by decide) stored sorted split
    exact ⟨_, _, run⟩
  · have groups : ∀ k, ((tile.insert (only chunk)).samples.at_ k).size ≤ ch.maxTileSize := by
      have whole := ready.groups
      rw [Progress.total, pending, cut, leaf, contents, ← Samples.empty_append tile.samples,
        ← Samples.append_empty (Samples.empty ++ tile.samples)] at whole
      have old : (Samples.empty ++ tile.samples ++ Samples.empty).Ascending := by
        simpa using leafy.ascending
      intro k
      rw [Tile.samples_insert]
      refine groups_part (P := TileIndex.nonnegativeAll.containsTime) asc old ?_ ?_ ready.room whole k
      · intro t ht
        rcases Samples.mem_times_append.mp ht with ht | ht
        · exact inside t ht
        · exact leafy.inside t ht
      · intro t ht g
        rw [Samples.append_empty, Samples.append_empty] at ht
        exact not_le.mpr g.2 (past t ht)
    obtain ⟨x, hx, y, hy, ne⟩ : ∃ x ∈ (tile.insert (only chunk)).samples.times,
        ∃ y ∈ (tile.insert (only chunk)).samples.times, x ≠ y := by
      by_contra one
      push Not at one
      obtain ⟨k, same⟩ := Samples.at_of_one_time one
      have fit := groups k
      rw [same] at fit
      exact fits fit
    obtain ⟨root, chosen⟩ := Tile.indexContaining_ends_done (ε := Failure) merged double hx hy ne
    obtain ⟨fuel, ret⟩ := chosen.returns
    obtain ⟨a, ha, b, hb, lt, bounds, least, high, low⟩ := Tile.indexContaining_ends merged double ret
    have regular : Regular root := ⟨low.le, high⟩
    have fed : Fed root (tile.insert (only chunk)).samples := by
      refine ⟨merged, fun t ht => ?_, fun t ht => (double t ht).1⟩
      exact ⟨least.left.1.trans (bounds t ht).1, (bounds t ht).2.trans_lt least.right.2⟩
    obtain ⟨s, grown⟩ := Grown.total regular fed (ready.merged_weights label (pending.trans cut)) groups
    have free : Free kvs root := by
      refine .of_only_all regular fun i ne => ?_
      rw [tracks.tiles, leaf, all, CellTree.get, CellTree.sub_leaf_none ne]
      rfl
    have split := splitAll_done (not_le.mp fits) merged chosen regular grown (quiet.below root) free
    have proper : root ≠ .null := fun null => regular.not_null (TileIndex.isNull_iff.mpr null)
    rw [← hchunk] at split
    have run := insertStep_move _ quiet found stored sorted split proper
    exact ⟨_, _, run⟩

end Channel

theorem Step.regular_root {limit : ℕ} {p q : Progress} (step : Step limit p q)
    (regular : Regular p.root) : Regular q.root ∧ p.root.Under q.root := by
  cases step with
  | raise n high tight => exact ⟨high, n + 1, rfl⟩
  | fill inside past fits => exact (regular.not_all rfl).elim
  | reroot inside past high tight has grown long => exact (regular.not_all rfl).elim
  | insert high leaf inside past grown => exact ⟨regular, .refl _⟩
  | regenerate node combined => exact ⟨regular, .refl _⟩

theorem Steps.regular_root {limit : ℕ} {p q : Progress}
    (steps : Relation.ReflTransGen (Step limit) p q) (regular : Regular p.root) : Regular q.root := by
  induction steps with
  | refl => exact regular
  | tail _ step ih => exact (step.regular_root ih).1

theorem Ready.steps {limit : ℕ} {p q : Progress} (steps : Relation.ReflTransGen (Step limit) p q)
    (h : Ready limit p) : Ready limit q := by
  induction steps with
  | refl => exact h
  | tail _ step ih => exact ih.step step

namespace Channel

variable {ch : Channel}

theorem insertLoop_nil_done {V : Type} [SampleKind V] (st : AddState) (kvs : Kvs) :
    Exec.Reaches (fun fuel => ch.insertLoop fuel st ([] : List (Sample V))) kvs st kvs :=
  .step (y := fun _ => pure st) (fun _ => rfl) (.of_ret fun _ => rfl)

theorem insertLoop_cons_done {V : Type} [SampleKind V] {st st₁ st' : AddState} {first : Sample V}
    {data rest : List (Sample V)} {kvs kvs₁ kvs' : Kvs}
    (run : Exec.Reaches (fun fuel => ch.insertStep fuel st first (first :: data)) kvs (st₁, rest) kvs₁)
    (loop : Exec.Reaches (fun fuel => ch.insertLoop fuel st₁ rest) kvs₁ st' kvs') :
    Exec.Reaches (fun fuel => ch.insertLoop fuel st (first :: data)) kvs st' kvs' := by
  refine .step (y := fun fuel => ch.insertStep fuel st first (first :: data) >>= fun p =>
    ch.insertLoop fuel p.1 p.2) (fun _ => rfl) ?_
  exact .bind run loop

theorem insertLoop_regular_done {V : Type} [SampleKind V] [LawfulSampleKind V] {p : Progress}
    {st : AddState} {data : List (Sample V)} {kvs : Kvs} (quiet : ch.Quiet)
    (ready : Ready ch.maxTileSize p) (tracks : Tracks p st kvs) (pending : p.pending = only data)
    (regular : Regular p.root) (has : ∀ s ∈ data, p.root.Has s.time) :
    ∃ st' kvs', Exec.Reaches (fun fuel => ch.insertLoop fuel st data) kvs st' kvs' := by
  obtain ⟨n, hn⟩ : ∃ n, data.length ≤ n := ⟨_, le_rfl⟩
  induction n generalizing p st data kvs with
  | zero =>
      obtain rfl := List.length_eq_zero_iff.mp (Nat.le_zero.mp hn)
      exact ⟨st, kvs, insertLoop_nil_done st kvs⟩
  | succ n ih =>
      cases data with
      | nil => exact ⟨st, kvs, insertLoop_nil_done st kvs⟩
      | cons first data =>
          obtain ⟨st₁, rest, kvs₁, run, shorter, part⟩ := insertStep_regular_done quiet ready tracks
            pending regular (has first List.mem_cons_self)
          obtain ⟨fuel, ret⟩ := Outcome.Reaches.returns run
          obtain ⟨q, step, tracks₁, pending₁, -⟩ := insertStep_ret ready.wf tracks pending ret
          obtain ⟨regular₁, above⟩ := step.regular_root regular
          obtain ⟨st', kvs', loop⟩ := ih (ready.step step) tracks₁ pending₁ regular₁
            (fun s hs => above.has (has s (part hs)))
            (shorter.trans (Nat.le_of_succ_le_succ hn))
          exact ⟨st', kvs', insertLoop_cons_done run loop⟩

/-- How many tiles the queued ones and those above them are, at most. -/
def queueMeasure (root : TileIndex) (stale : List TileIndex) : ℕ :=
  (stale.map fun w => (root.level - w.level).toNat + 1).sum

theorem queueMeasure_setInsert (root ti : TileIndex) (stale : List TileIndex) :
    queueMeasure root (setInsert ti stale) ≤ (root.level - ti.level).toNat + 1 + queueMeasure root stale := by
  induction stale with
  | nil => simp [setInsert, queueMeasure]
  | cons x stale ih =>
      simp only [setInsert]
      split
      · exact Nat.le_add_left _ _
      · split
        · simp [queueMeasure]
        · simp only [queueMeasure, List.map_cons, List.sum_cons] at ih ⊢
          omega

/-- A regenerated tile leaves the queue, and only its parent can come in. -/
theorem queueMeasure_lt {root w : TileIndex} (stale : List TileIndex) (under : w.Under root) :
    queueMeasure root (Progress.queued root w stale) < queueMeasure root (w :: stale) := by
  unfold Progress.queued
  split
  · simp [queueMeasure]
  · next ne =>
      have lower := under.level_lt ne
      have inserted := queueMeasure_setInsert root w.up stale
      have level : w.up.level = w.level + 1 := rfl
      simp only [queueMeasure, List.map_cons, List.sum_cons] at inserted ⊢
      omega

theorem regenerateStep_done {p : Progress} {st : AddState} {w : TileIndex} {rest : List TileIndex}
    {kvs : Kvs} (quiet : ch.Quiet) (ready : Ready ch.maxTileSize p) (tracks : Tracks p st kvs)
    (queue : st.toRegenerate = w :: rest) :
    w.Under p.root ∧ Regular w ∧ ∃ tile kvs',
      Exec.Reaches (fun _ => ch.regenerateStep { st with toRegenerate := rest } w) kvs
        (AddState.changed { st with toRegenerate := rest } w tile) kvs' := by
  obtain ⟨a, l, r, node⟩ := ready.wf.stale w (by rw [← tracks.stale, queue]; exact List.mem_cons_self)
  have reg : Regular w := ready.wf.regular_of_sub (ready.wf.regular_of_node node) node
  have level := ready.wf.deep w a l r node
  obtain ⟨-, soundL, soundR⟩ := CellTree.eachLabel_node.mp (ready.weighed.labels.sub node)
  have left : Sound (0 < ·) w l.label.samples := by
    have := soundL.label.up (reg.lo level) (by rwa [Cell.up_lo])
    rwa [Cell.up_lo] at this
  have right : Sound (0 < ·) w r.label.samples := by
    have := soundR.label.up (reg.hi level) (by rwa [Cell.up_hi])
    rwa [Cell.up_hi] at this
  obtain ⟨parent, combined⟩ := createParent_done (ε := Failure) Tile.new reg.spans left right
  have storedL : kvs.tiles w.leftChild = some l.label := by
    rw [TileIndex.leftChild_eq reg.lt_intMax, tracks.tiles, CellTree.get, CellTree.sub_lo node]
    rfl
  have storedR : kvs.tiles w.rightChild = some r.label := by
    rw [TileIndex.rightChild_eq reg.lt_intMax, tracks.tiles, CellTree.get, CellTree.sub_hi node]
    rfl
  refine ⟨CellTree.under_of_sub node, reg, parent,
    { kvs with tiles := Function.update kvs.tiles w (some parent) }, ?_⟩
  refine .bind (.of_ret fun _ => Exec.read_of_ret (Kvs.readTile_of_some storedL)) ?_
  refine .bind (.of_ret fun _ => Exec.read_of_ret (Kvs.readTile_of_some storedR)) ?_
  refine .bind (.of_ret fun _ => Exec.read_of_ret combined) ?_
  refine .bind (.of_ret fun _ => set_done _ _ (quiet _ _)) ?_
  exact .of_ret fun _ => rfl

theorem regenerateLoop_done {p : Progress} {st : AddState} {kvs : Kvs} (quiet : ch.Quiet)
    (ready : Ready ch.maxTileSize p) (tracks : Tracks p st kvs) :
    ∃ st' kvs', Exec.Reaches (fun fuel => ch.regenerateLoop fuel st) kvs st' kvs' := by
  obtain ⟨n, hn⟩ : ∃ n, queueMeasure p.root p.stale ≤ n := ⟨_, le_rfl⟩
  induction n generalizing p st kvs with
  | zero =>
      have empty : p.stale = [] := by
        cases h : p.stale with
        | nil => rfl
        | cons w rest => simp [h, queueMeasure] at hn
      refine ⟨st, kvs, .step (y := fun _ => pure st) (fun fuel => ?_) (.of_ret fun _ => rfl)⟩
      simp only [regenerateLoop, tracks.stale, empty]
  | succ n ih =>
      cases queue : st.toRegenerate with
      | nil =>
          refine ⟨st, kvs, .step (y := fun _ => pure st) (fun fuel => ?_) (.of_ret fun _ => rfl)⟩
          simp only [regenerateLoop, queue]
      | cons w rest =>
          obtain ⟨under, reg, tile, kvs₁, run⟩ := regenerateStep_done quiet ready tracks queue
          obtain ⟨fuel, ret⟩ := Outcome.Reaches.returns run
          obtain ⟨q, step, tracks₁, -⟩ := regenerateStep_ret ready.wf tracks queue ret
          have root : q.root = p.root := by rw [← tracks₁.root, changed_root, tracks.root]
          have stale : q.stale = Progress.queued p.root w rest := by
            rw [← tracks₁.stale, changed_toRegenerate _ _ (.inl reg.lt_intMax), ← tracks.root]
          have less := queueMeasure_lt rest under
          rw [← tracks.stale, queue] at hn
          obtain ⟨st', kvs', loop⟩ := ih (ready.step step) tracks₁ (by rw [root, stale]; omega)
          refine ⟨st', kvs', .step (y := fun fuel => do
            let st ← ch.regenerateStep { st with toRegenerate := rest } w
            ch.regenerateLoop fuel st) (fun fuel => ?_) (.bind run loop)⟩
          simp only [regenerateLoop, queue]

end Channel
end Mio.Datastore
