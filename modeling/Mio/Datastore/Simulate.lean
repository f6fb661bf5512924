import Mio.Datastore.Descent

/-! `add_data_internal` refines the machine on trees: what each of its parts does when it returns. -/
namespace Mio.Datastore

/-- The locals of a running call and the store agree with a state of the machine. -/
structure Tracks (p : Progress) (st : Channel.AddState) (kvs : Kvs) : Prop where
  root : st.root = p.root
  stale : st.toRegenerate = p.stale
  tiles : kvs.tiles = p.tree.get p.root

/-- The steps of the two loops: they move the root at most away from the all-tile. -/
def LoopStep (limit : ℕ) (p q : Progress) : Prop :=
  Step limit p q ∧ (p.root = .nonnegativeAll ∨ q.root = p.root)

theorem LoopSteps.steps {limit : ℕ} {p q : Progress}
    (steps : Relation.ReflTransGen (LoopStep limit) p q) : Relation.ReflTransGen (Step limit) p q :=
  Relation.ReflTransGen.mono (fun _ _ step => step.1) _ _ steps

theorem Tracks.holds {p : Progress} {st : Channel.AddState} {kvs : Kvs} (h : Tracks p st kvs) :
    kvs.Holds p.tree p.root := by
  intro j _
  rw [h.tiles]

/-- What a pass of the insertion loop finds: the leaf at `ti`, the samples that go there and those
behind them. -/
structure Pass (p : Progress) (ti : TileIndex) (tile : ExactTile) (chunk rest : Samples) : Prop where
  leaf : p.tree.sub p.root ti = some (.leaf tile)
  pending : p.pending = chunk ++ rest
  inside : ∀ t ∈ chunk.times, ti.containsTime t
  past : chunk = .empty ∨ ∀ t ∈ rest.times, ti.endTime ≤ t
  beyond : ti = .nonnegativeAll → ∀ t ∈ rest.times, ti.endTime ≤ t

namespace Pass

variable {p : Progress} {ti : TileIndex} {tile : ExactTile} {chunk rest : Samples}

theorem stored (h : Pass p ti tile chunk rest) {st : Channel.AddState} {kvs : Kvs}
    (tracks : Tracks p st kvs) : kvs.tiles ti = some tile := by
  rw [tracks.tiles, CellTree.get, h.leaf]
  rfl

theorem free (h : Pass p ti tile chunk rest) {st : Channel.AddState} {kvs : Kvs}
    (tracks : Tracks p st kvs) {i : TileIndex} (under : i.Under ti) (ne : i ≠ ti) :
    kvs.tiles i = none := by
  rw [tracks.tiles, CellTree.get, CellTree.sub_below_leaf h.leaf under ne]
  rfl

theorem leafy (h : Pass p ti tile chunk rest) (wf : p.Wf) : Leafy ti tile.samples :=
  wf.leaves ti tile (CellTree.mem_leaves.mpr h.leaf)

theorem pending_double (h : Pass p ti tile chunk rest) (wf : p.Wf) :
    ∀ t ∈ chunk.times, IsDouble t ∧ 0 ≤ t := by
  intro t ht
  refine wf.double t ?_
  rw [h.pending]
  exact Samples.mem_times_append.mpr (.inl ht)

theorem merged (h : Pass p ti tile chunk rest) (wf : p.Wf) : Leafy ti (tile.insert chunk).samples := by
  have asc := wf.ascending
  rw [h.pending] at asc
  exact Leafy.overwrite ⟨asc.of_append.1, h.inside, h.pending_double wf⟩ (h.leafy wf)

theorem regular (h : Pass p ti tile chunk rest) (wf : p.Wf) (regular : Regular p.root) :
    Regular ti := wf.regular_of_sub regular h.leaf

theorem at_all (h : Pass p ti tile chunk rest) (wf : p.Wf) (all : p.root = .nonnegativeAll) :
    ti = .nonnegativeAll ∧ p.tree = .leaf tile := by
  obtain ⟨old, eq⟩ := wf.shape_all all
  have leaf := h.leaf
  by_cases here : ti = p.root
  · rw [eq, here, CellTree.sub_self] at leaf
    cases leaf
    exact ⟨here.trans all, eq⟩
  · rw [eq, CellTree.sub_leaf_none here] at leaf
    cases leaf

end Pass

namespace Channel

variable {ch : Channel}

theorem changed_root (st : AddState) (ti : TileIndex) (tile : ExactTile) :
    (st.changed ti tile).root = st.root := by
  unfold AddState.changed
  split <;> rfl

theorem changed_toRegenerate (st : AddState) {ti : TileIndex} (tile : ExactTile)
    (high : ti.level < TileIndex.intMax ∨ ti = st.root) :
    (st.changed ti tile).toRegenerate = Progress.queued st.root ti st.toRegenerate := by
  unfold AddState.changed Progress.queued
  split
  · rfl
  · next ne => rw [TileIndex.parent_eq (high.resolve_right ne)]

/-- Deleting the all-tile and writing the new root leaves exactly the grown tree. -/
theorem reroot_store {root : TileIndex} {s : TileTree} {tile : ExactTile} (regular : Regular root) :
    Function.update (Function.update
      (s.placedBelow root ((CellTree.leaf tile).get TileIndex.nonnegativeAll))
        TileIndex.nonnegativeAll none) root
        (some s.label) = s.get root := by
  funext i
  by_cases here : i = root
  · rw [here, Function.update_self, CellTree.get_self]
  · rw [Function.update_of_ne here]
    by_cases all : i = TileIndex.nonnegativeAll
    · subst all
      rw [Function.update_self, CellTree.get_none regular.all_not_under]
    · rw [Function.update_of_ne all, CellTree.placedBelow]
      split
      · rfl
      · next out =>
          have outside : ¬ i.Under root := fun under => out ⟨under, here⟩
          rw [CellTree.get_none outside, CellTree.get, CellTree.sub_leaf_none all]
          rfl

section
variable {V : Type} [SampleKind V] [LawfulSampleKind V]

theorem only_chunk (data : List (Sample V)) (ti : TileIndex) :
    only data = only (data.takeWhile fun s => ti.containsTime s.time) ++
      only (data.dropWhile fun s => ti.containsTime s.time) := by
  rw [← only_append, List.takeWhile_append_dropWhile]

theorem only_inside (data : List (Sample V)) (ti : TileIndex) :
    ∀ t ∈ (only (data.takeWhile fun s => ti.containsTime s.time)).times, ti.containsTime t := by
  intro t ht
  rw [times_only] at ht
  obtain ⟨x, hx, rfl⟩ := List.mem_map.mp ht
  simpa using List.mem_takeWhile_imp hx

/-- What is left behind a tile that starts before the batch lies behind the tile. -/
theorem only_past {data : List (Sample V)} {ti : TileIndex} (asc : (only data).Ascending)
    (low : ∀ t ∈ (only data).times, ti.startTime ≤ t) :
    ∀ t ∈ (only (data.dropWhile fun s => ti.containsTime s.time)).times, ti.endTime ≤ t := by
  intro t ht
  rw [times_only] at ht low
  obtain ⟨y, hy, rfl⟩ := List.mem_map.mp ht
  have rest : Ascending DataSample.time (data.dropWhile fun s => ti.containsTime s.time) :=
    ((ascending_only data).mp asc).dropWhile _
  cases eq : data.dropWhile fun s => ti.containsTime s.time with
  | nil =>
      rw [eq] at hy
      cases hy
  | cons r l =>
      have out : ¬ ti.containsTime r.time := by
        have := List.head?_dropWhile_not (fun s : Sample V => decide (ti.containsTime s.time)) data
        rw [eq] at this
        simpa using this
      have mem : r ∈ data := (List.dropWhile_sublist _).subset (by rw [eq]; exact List.mem_cons_self)
      have stop : ti.endTime ≤ r.time :=
        not_lt.mp fun lt => out ⟨low _ (List.mem_map_of_mem mem), lt⟩
      rw [eq] at hy rest
      rcases List.mem_cons.mp hy with rfl | hy
      · exact stop
      · exact stop.trans ((List.pairwise_cons.mp rest).1 y hy)

/-- So it is behind the tile in which a batch begins. -/
theorem only_past_of_first {first : Sample V} {data : List (Sample V)} {ti : TileIndex}
    (asc : (only (first :: data)).Ascending) (contains : ti.containsTime first.time) :
    ∀ t ∈ (only ((first :: data).dropWhile fun s => ti.containsTime s.time)).times, ti.endTime ≤ t := by
  have sorted := (ascending_only (first :: data)).mp asc
  apply only_past asc
  intro t ht
  rw [times_only] at ht
  obtain ⟨x, hx, eq⟩ := List.mem_map.mp ht
  subst eq
  cases hx with
  | head => exact contains.1
  | tail _ hx => exact contains.1.trans ((List.pairwise_cons.mp sorted).1 x hx)

/-- A tile that does not take the first of the samples takes none. -/
theorem only_empty_or_past {data : List (Sample V)} (ti : TileIndex) (asc : (only data).Ascending) :
    only (data.takeWhile fun s => ti.containsTime s.time) = .empty ∨
      ∀ t ∈ (only (data.dropWhile fun s => ti.containsTime s.time)).times, ti.endTime ≤ t := by
  cases data with
  | nil => exact .inl only_nil
  | cons x l =>
      by_cases inside : ti.containsTime x.time
      · right
        refine only_past asc fun t ht => ?_
        rw [times_only] at ht
        obtain ⟨y, hy, rfl⟩ := List.mem_map.mp ht
        cases List.mem_cons.mp hy with
        | inl eq => exact eq ▸ inside.1
        | inr mem => exact inside.1.trans ((List.pairwise_cons.mp ((ascending_only _).mp asc)).1 y mem)
      · left
        rw [List.takeWhile_cons_of_neg (by simpa using inside)]
        exact only_nil

theorem pass_of_leaf {p : Progress} {ti : TileIndex} {tile : ExactTile} {data : List (Sample V)}
    (wf : p.Wf) (leaf : p.tree.sub p.root ti = some (.leaf tile)) (pending : p.pending = only data) :
    Pass p ti tile (only (data.takeWhile fun s => ti.containsTime s.time))
      (only (data.dropWhile fun s => ti.containsTime s.time)) := by
  have asc : (only data).Ascending := pending ▸ wf.ascending
  refine ⟨leaf, pending.trans (only_chunk data ti), only_inside data ti, only_empty_or_past ti asc, ?_⟩
  rintro rfl
  refine only_past asc fun t ht => ?_
  rw [TileIndex.nonnegativeAll_startTime]
  exact (wf.double t (pending ▸ ht)).2

/-- The end of a pass: the tile is stored as the split left it, below a new root if there is one. -/
def insertRest (ch : Channel) (st : AddState) (ti : TileIndex) (rest : List (Sample V))
    (r : TileIndex × ExactTile) : ChannelM (AddState × List (Sample V)) :=
  if r.1 ≠ .null then do
    Exec.assert (ti = .nonnegativeAll) "ti == TileIndex::nonnegative_all()"
    let st := { st with root := r.1 }
    deleteTile ti
    ch.writeTile r.1 r.2
    return (st.changed r.1 r.2, rest)
  else do
    ch.writeTile ti r.2
    return (st.changed ti r.2, rest)

/-- A pass that ends has found a leaf and merged the samples that belong there. -/
theorem insertStep_pass {fuel : ℕ} {p : Progress} {st : AddState} {first : Sample V}
    {data : List (Sample V)} {kvs : Kvs} {x : Outcome Failure ((AddState × List (Sample V)) × Kvs)}
    (wf : p.Wf) (tracks : Tracks p st kvs) (pending : p.pending = only data) (ends : x.Ends)
    (h : ch.insertStep fuel st first data kvs = x) :
    ∃ ti tile, Pass p ti tile (only (data.takeWhile fun s => ti.containsTime s.time))
        (only (data.dropWhile fun s => ti.containsTime s.time)) ∧
      (ch.splitTileIfNeeded fuel ti
          (tile.insert (only (data.takeWhile fun s => ti.containsTime s.time))) >>=
        ch.insertRest st ti (data.dropWhile fun s => ti.containsTime s.time)) kvs = x := by
  rw [insertStep] at h
  obtain ⟨ti, found, h⟩ := Exec.read_bind_ends h ends (Kvs.findLowest_silent _ _ _ _)
  obtain ⟨-, h⟩ := Exec.assert_bind_ends h ends
  obtain ⟨tile, got, h⟩ := Exec.read_bind_ends h ends (Kvs.readTile_silent _ _)
  obtain ⟨merged, ins, h⟩ := Exec.read_bind_ends h ends (insertSamples_silent _ _)
  obtain rfl := insertSamples_ret ins
  rw [tracks.root] at found
  have here := Kvs.findLowest_ret wf tracks.holds found
  have leaf : p.tree.sub p.root ti = some (.leaf (p.tree.reach p.root first.time).2) := by
    rw [here]
    exact CellTree.reach_sub p.tree p.root first.time
  have stored := Kvs.readTile_ret got
  rw [tracks.tiles, CellTree.get, leaf] at stored
  cases stored
  exact ⟨ti, _, pass_of_leaf wf leaf pending, h⟩

theorem insertStep_all_ret {fuel : ℕ} {p : Progress} {st st' : AddState} {tile : ExactTile}
    {rest left : List (Sample V)} {chunk : Samples} {kvs kvs' : Kvs} (wf : p.Wf)
    (tracks : Tracks p st kvs) (all : p.root = .nonnegativeAll)
    (pass : Pass p .nonnegativeAll tile chunk (only rest))
    (run : (ch.splitTileIfNeeded fuel .nonnegativeAll (tile.insert chunk) >>=
      ch.insertRest st .nonnegativeAll rest) kvs = .ret ((st', left), kvs')) :
    ∃ q, Step ch.maxTileSize p q ∧ Tracks q st' kvs' ∧ q.pending = only rest ∧ left = rest ∧
      kvs'.metainfo = kvs.metainfo ∧ Samples.empty.size ≤ ch.maxTileSize := by
  obtain ⟨root, tree, stale, pend⟩ := p
  obtain ⟨-, leaf⟩ := pass.at_all wf all
  have pending := pass.pending
  have merged := pass.merged wf
  have past := pass.beyond rfl
  obtain ⟨hroot, hstale, htiles⟩ := tracks
  dsimp only at all leaf pending hroot hstale htiles
  subst all leaf pending
  obtain ⟨⟨newRoot, tile'⟩, kvs₁, split, h⟩ := Exec.bind_eq_ret.mp run
  have only : ∀ i : TileIndex, i ≠ .nonnegativeAll → kvs.tiles i = none := by
    intro i ne
    rw [htiles, CellTree.get, CellTree.sub_leaf_none ne]
    rfl
  rcases splitAll_ret merged.ascending merged.double only split with
    ⟨fits, rfl, rfl, rfl⟩ | ⟨a, ha, b, hb, lt, ends, least, regular, s, grown, long, rfl, rfl⟩
  · rw [insertRest, if_neg (by simp)] at h
    obtain ⟨_, kvs₂, write, h⟩ := Exec.bind_eq_ret.mp h
    obtain rfl := writeTile_ret write
    cases h
    refine ⟨_, .fill pass.inside past fits, ⟨?_, ?_, ?_⟩, rfl, rfl, rfl, ?_⟩
    · rw [changed_root, hroot]
    · rw [changed_toRegenerate _ _ (.inr hroot.symm), hroot, hstale, Progress.queued, if_pos rfl]
    · dsimp only
      rw [htiles]
      exact CellTree.update_get_leaf _ _ _
    · rw [Tile.binaryLength_eq] at fits
      exact (Samples.empty_size_le _).trans fits
  · have proper : newRoot ≠ .null := fun null => regular.not_null (TileIndex.isNull_iff.mpr null)
    rw [insertRest, if_pos proper] at h
    obtain ⟨-, h⟩ := Exec.assert_bind_eq_ret.mp h
    obtain ⟨_, kvs₂, write, h⟩ := Exec.bind_eq_ret.mp (Exec.modify_bind_eq_ret.mp h)
    obtain rfl := writeTile_ret write
    cases h
    have has : ∀ t ∈ (tile.insert chunk).samples.times, newRoot.Has t :=
      fun t ht => ⟨least.left.1.trans (ends t ht).1, (ends t ht).2.trans_lt least.right.2⟩
    refine ⟨_, .reroot pass.inside past regular ⟨a, ha, b, hb, lt, least⟩ has grown long, ⟨?_, ?_, ?_⟩,
      rfl, rfl, rfl, grown.empty_fits merged.ascending⟩
    · rw [changed_root]
    · rw [changed_toRegenerate _ _ (.inr rfl), hstale, Progress.queued, if_pos rfl]
    · dsimp only
      rw [htiles]
      exact reroot_store regular

theorem insertStep_regular_ret {fuel : ℕ} {p : Progress} {st st' : AddState} {ti : TileIndex}
    {tile : ExactTile} {rest left : List (Sample V)} {chunk : Samples} {kvs kvs' : Kvs} (wf : p.Wf)
    (tracks : Tracks p st kvs) (regular : Regular p.root) (pass : Pass p ti tile chunk (only rest))
    (run : (ch.splitTileIfNeeded fuel ti (tile.insert chunk) >>= ch.insertRest st ti rest) kvs =
      .ret ((st', left), kvs')) :
    ∃ q, Step ch.maxTileSize p q ∧ Tracks q st' kvs' ∧ q.pending = only rest ∧ left = rest ∧
      q.root = p.root ∧ kvs'.metainfo = kvs.metainfo ∧ Samples.empty.size ≤ ch.maxTileSize := by
  have reg := pass.regular wf regular
  have free : Free kvs ti := fun i under ne => pass.free tracks under ne
  have merged := pass.merged wf
  have leaf := pass.leaf
  have past := pass.past
  have inside : ∀ t ∈ chunk.times, ti.Has t :=
    fun t ht => (reg.containsTime_iff t).mp (pass.inside t ht)
  rw [TileIndex.endTime_eq reg.not_null reg.lt_intMax] at past
  have pending := pass.pending
  obtain ⟨root, tree, stale, pend⟩ := p
  obtain ⟨hroot, hstale, htiles⟩ := tracks
  dsimp only at regular leaf pending hroot hstale htiles
  subst pending
  obtain ⟨⟨newRoot, tile'⟩, kvs₁, split, h⟩ := Exec.bind_eq_ret.mp run
  obtain ⟨rfl, s, grown, rfl, rfl⟩ := splitTileIfNeeded_ret fuel _ _ _ _ _ _ reg.lt_intMax free split
  rw [insertRest, if_neg (by simp)] at h
  obtain ⟨_, kvs₂, write, h⟩ := Exec.bind_eq_ret.mp h
  obtain rfl := writeTile_ret write
  cases h
  refine ⟨_, .insert regular leaf inside past grown, ⟨?_, ?_, ?_⟩, rfl, rfl, rfl, rfl,
    grown.empty_fits merged.ascending⟩
  · rw [changed_root, hroot]
  · rw [changed_toRegenerate _ _ (.inl reg.lt_intMax), hroot, hstale]
  · dsimp only
    rw [CellTree.update_placedBelow, htiles, CellTree.placed_get leaf]

/-- One pass of the insertion loop is one step of the machine. -/
theorem insertStep_ret {fuel : ℕ} {p : Progress} {st st' : AddState} {first : Sample V}
    {data rest : List (Sample V)} {kvs kvs' : Kvs} (wf : p.Wf) (tracks : Tracks p st kvs)
    (pending : p.pending = only data)
    (h : ch.insertStep fuel st first data kvs = .ret ((st', rest), kvs')) :
    ∃ q, Step ch.maxTileSize p q ∧ Tracks q st' kvs' ∧ q.pending = only rest ∧
      (p.root = .nonnegativeAll ∨ q.root = p.root) ∧
      kvs'.metainfo = kvs.metainfo ∧ Samples.empty.size ≤ ch.maxTileSize := by
  obtain ⟨ti, tile, pass, run⟩ := insertStep_pass wf tracks pending (.ret _) h
  by_cases all : p.root = .nonnegativeAll
  · obtain ⟨rfl, -⟩ := pass.at_all wf all
    obtain ⟨q, step, tracks', pending', rfl, same, room⟩ := insertStep_all_ret wf tracks all pass run
    exact ⟨q, step, tracks', pending', .inl all, same, room⟩
  · obtain ⟨q, step, tracks', pending', rfl, root, same, room⟩ :=
      insertStep_regular_ret wf tracks (wf.shape_node all).1 pass run
    exact ⟨q, step, tracks', pending', .inr root, same, room⟩

/-- The insertion loop is a run of the machine that uses the batch up. -/
theorem insertLoop_ret {fuel : ℕ} {p : Progress} {st st' : AddState} {data : List (Sample V)}
    {kvs kvs' : Kvs} (wf : p.Wf) (tracks : Tracks p st kvs) (pending : p.pending = only data)
    (h : ch.insertLoop fuel st data kvs = .ret (st', kvs')) :
    ∃ q, Relation.ReflTransGen (LoopStep ch.maxTileSize) p q ∧ Tracks q st' kvs' ∧
      q.pending = .empty ∧ kvs'.metainfo = kvs.metainfo ∧
      (data ≠ [] → Samples.empty.size ≤ ch.maxTileSize) := by
  induction fuel generalizing p st data kvs with
  | zero => cases h
  | succ fuel ih =>
      cases data with
      | nil =>
          cases h
          exact ⟨p, .refl, tracks, pending.trans only_nil, rfl, fun ne => (ne rfl).elim⟩
      | cons first data =>
          obtain ⟨⟨st₁, rest⟩, kvs₁, run, h⟩ := Exec.bind_eq_ret.mp h
          obtain ⟨q, step, tracks₁, pending₁, root, meta₁, room⟩ := insertStep_ret wf tracks pending run
          obtain ⟨q', steps, tracks', pending', meta', -⟩ := ih (step.wf wf) tracks₁ pending₁ h
          exact ⟨q', .head ⟨step, root⟩ steps, tracks', pending', meta'.trans meta₁, fun _ => room⟩

end

/-- One pass of the regeneration loop is one step of the machine. -/
theorem regenerateStep_ret {p : Progress} {st st' : AddState} {w : TileIndex}
    {rest : List TileIndex} {kvs kvs' : Kvs} (wf : p.Wf) (tracks : Tracks p st kvs)
    (queue : st.toRegenerate = w :: rest)
    (h : ch.regenerateStep { st with toRegenerate := rest } w kvs = .ret (st', kvs')) :
    ∃ q, Step ch.maxTileSize p q ∧ Tracks q st' kvs' ∧ q.pending = p.pending ∧
      q.root = p.root ∧ kvs'.metainfo = kvs.metainfo := by
  obtain ⟨root, tree, stale, pending⟩ := p
  obtain ⟨hroot, hstale, htiles⟩ := tracks
  dsimp only at hroot hstale htiles
  obtain rfl : stale = w :: rest := hstale.symm.trans queue
  obtain ⟨a, l, r, node⟩ := wf.stale w List.mem_cons_self
  have regular := wf.regular_of_node node
  have reg : Regular w := wf.regular_of_sub regular node
  simp only [regenerateStep, Exec.read_bind_eq_ret, TileIndex.leftChild_eq reg.lt_intMax,
    TileIndex.rightChild_eq reg.lt_intMax] at h
  obtain ⟨left, gotL, right, gotR, regenerated, combined, h⟩ := h
  have storedL := Kvs.readTile_ret gotL
  have storedR := Kvs.readTile_ret gotR
  rw [htiles, CellTree.get, CellTree.sub_lo node] at storedL
  rw [htiles, CellTree.get, CellTree.sub_hi node] at storedR
  cases storedL
  cases storedR
  obtain ⟨_, kvs₁, write, h⟩ := Exec.bind_eq_ret.mp h
  obtain rfl := writeTile_ret write
  cases h
  refine ⟨_, .regenerate node combined, ⟨?_, ?_, ?_⟩, rfl, rfl, rfl⟩
  · rw [changed_root, hroot]
  · rw [changed_toRegenerate _ _ (.inl reg.lt_intMax), hroot]
  · dsimp only
    rw [htiles, CellTree.update_get_node node]

theorem regenerateLoop_ret {fuel : ℕ} {p : Progress} {st st' : AddState} {kvs kvs' : Kvs}
    (wf : p.Wf) (tracks : Tracks p st kvs) (h : ch.regenerateLoop fuel st kvs = .ret (st', kvs')) :
    ∃ q, Relation.ReflTransGen (LoopStep ch.maxTileSize) p q ∧ Tracks q st' kvs' ∧
      q.pending = p.pending ∧ q.stale = [] ∧ kvs'.metainfo = kvs.metainfo := by
  induction fuel generalizing p st kvs with
  | zero => cases h
  | succ fuel ih =>
      cases queue : st.toRegenerate with
      | nil =>
          simp only [regenerateLoop, queue] at h
          cases h
          exact ⟨p, .refl, tracks, rfl, tracks.stale.symm.trans queue, rfl⟩
      | cons w rest =>
          simp only [regenerateLoop, queue] at h
          obtain ⟨st₁, kvs₁, run, h⟩ := Exec.bind_eq_ret.mp h
          obtain ⟨q, step, tracks₁, pending₁, root, meta₁⟩ := regenerateStep_ret wf tracks queue run
          obtain ⟨q', steps, tracks', pending', stale', meta'⟩ := ih (step.wf wf) tracks₁ h
          exact ⟨q', .head ⟨step, .inr root⟩ steps, tracks', pending'.trans pending₁, stale', meta'.trans meta₁⟩

/-- Moving the root up writes the raised tree. -/
theorem moveRootLoop_ret {fuel : ℕ} {tree : TileTree} {ti newRoot : TileIndex} {kvs kvs' : Kvs}
    {u : Unit} (above : ti.Under newRoot) (high : newRoot.level < TileIndex.intMax)
    (tiles : kvs.tiles = tree.get ti)
    (h : ch.moveRootLoop tree.label newRoot fuel ti kvs = .ret (u, kvs')) :
    ∃ n, newRoot = Cell.up^[n] ti ∧ kvs'.tiles = (tree.raise .new n ti).get newRoot ∧
      kvs'.metainfo = kvs.metainfo := by
  induction fuel generalizing tree ti kvs with
  | zero => cases h
  | succ fuel ih =>
      rw [moveRootLoop] at h
      split at h
      · next ne =>
          have level := above.level_le
          rw [TileIndex.sibling_eq, TileIndex.parent_eq (lt_of_le_of_lt level high)] at h
          obtain ⟨_, kvs₁, write₁, h⟩ := Exec.bind_eq_ret.mp h
          obtain rfl := writeTile_ret write₁
          obtain ⟨_, kvs₂, write₂, h⟩ := Exec.bind_eq_ret.mp h
          obtain rfl := writeTile_ret write₂
          rw [← CellTree.label_hoist Tile.new tree.label tree ti] at h
          obtain ⟨n, eq, tiles', meta'⟩ := ih (above.up_of_ne ne) (by
            dsimp only
            rw [tiles, CellTree.label_hoist, CellTree.update_hoist]) h
          exact ⟨n + 1, eq, tiles', meta'⟩
      · next same =>
          cases h
          obtain rfl := not_not.mp same
          exact ⟨0, rfl, tiles, rfl⟩

end Channel
end Mio.Datastore
