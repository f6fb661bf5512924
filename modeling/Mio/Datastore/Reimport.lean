import Mio.Datastore.Ranges
import Mio.Datastore.Accepts

/-! A second `add_data` with the same batch goes through other branches than the first and leaves the
store as it is. -/
namespace Mio.Datastore

/-- The channel has these samples already. -/
def Absorbed (u : Samples) (tree : TileTree) : Prop := .overwrite u (contents tree) = contents tree

theorem Absorbed.times {u : Samples} {tree : TileTree} (h : Absorbed u tree) :
    ∀ t ∈ u.times, t ∈ (contents tree).times := by
  intro t ht
  rw [← h]
  exact Samples.mem_times_overwrite.mpr (.inl ht)

/-- The leaf a search for a stored time ends in, with what lies on both sides of it. -/
theorem Stored.reach_contains {kvs : Kvs} {info : ChannelInfo} {tree : TileTree}
    (h : Stored kvs info tree) {t : ℚ} (mem : t ∈ (contents tree).times) :
    ∃ (ti : TileIndex) (tile : ExactTile),
      tree.reach info.nonnegativeRootTileIndex t = (ti, tile) ∧
      tree.sub info.nonnegativeRootTileIndex ti = some (.leaf tile) ∧ ti.containsTime t ∧
      ¬ ti.isNull ∧ (ti.level < TileIndex.intMax ∨ ti = info.nonnegativeRootTileIndex) ∧
      ∃ a b, contents tree = a ++ tile.samples ++ b ∧ (∀ x ∈ a.times, x < ti.startTime) ∧
        ∀ x ∈ b.times, ti.endTime ≤ x := by
  rcases h.wf.shape with ⟨all, tile, leaf⟩ | ⟨regular, -⟩
  · dsimp only at all leaf
    subst leaf
    have leafy := CellTree.eachLeaf_leaf.mp h.wf.leaves
    refine ⟨_, tile, rfl, CellTree.sub_self _ _, leafy.inside t mem, ?_, .inr rfl, .empty, .empty, ?_,
      by simp, by simp⟩
    · rw [all]
      decide
    · rw [contents, Samples.empty_append, Samples.append_empty]
  · have has := h.wf.leaves_has regular
    have leaf := CellTree.reach_sub tree info.nonnegativeRootTileIndex t
    have here := CellTree.reach_has (t := tree) (contents_has has t mem)
    generalize tree.reach info.nonnegativeRootTileIndex t = place at leaf here
    obtain ⟨(ti : TileIndex), tile⟩ := place
    have reg : Regular ti := h.wf.regular_of_sub regular leaf
    obtain ⟨a, b, old, -, front, back⟩ := contents_graft leaf has
    refine ⟨ti, tile, rfl, leaf, (reg.containsTime_iff t).mpr here, reg.not_null, .inl reg.lt_intMax,
      a, b, old, ?_, ?_⟩
    · rw [TileIndex.startTime_eq reg.not_null reg.lt_intMax]
      exact front
    · rw [TileIndex.endTime_eq reg.not_null reg.lt_intMax]
      exact back

namespace Channel

variable {ch : Channel} {kvs : Kvs} {info : ChannelInfo} {tree : TileTree}

/-- The queue holds inner tiles only. -/
def QueuesNodes (info : ChannelInfo) (tree : TileTree) (st : AddState) : Prop :=
  st.root = info.nonnegativeRootTileIndex ∧
    ∀ w ∈ st.toRegenerate, ∃ a l r, tree.sub info.nonnegativeRootTileIndex w = some (.node a l r)

theorem QueuesNodes.changed {st : AddState} {ti : TileIndex} {s : TileTree}
    (h : QueuesNodes info tree st) (at_ti : tree.sub info.nonnegativeRootTileIndex ti = some s)
    (high : ti.level < TileIndex.intMax ∨ ti = st.root) (tile : ExactTile) :
    QueuesNodes info tree (st.changed ti tile) := by
  refine ⟨(changed_root st ti tile).trans h.1, ?_⟩
  intro w hw
  rw [changed_toRegenerate st tile high] at hw
  cases Progress.mem_queued hw with
  | inl old => exact h.2 w old
  | inr new =>
      obtain ⟨ne, rfl⟩ := new
      rw [h.1] at ne
      exact CellTree.sub_up at_ti ne

section
variable {V : Type} [SampleKind V] [LawfulSampleKind V] {st : AddState} {data : List (Sample V)}

/-- A pass over samples that the channel has writes a leaf back. -/
theorem insertStep_same {first : Sample V} (quiet : ch.Quiet)
    (resting : Resting ch.maxTileSize kvs info tree) (queue : QueuesNodes info tree st)
    (asc : (only (first :: data)).Ascending) (absorbed : Absorbed (only (first :: data)) tree) :
    ∃ st' rest, Exec.Reaches (fun fuel => ch.insertStep fuel st first (first :: data)) kvs
      (st', rest) kvs ∧ QueuesNodes info tree st' ∧ rest.length ≤ data.length ∧
      (only rest).Ascending ∧ Absorbed (only rest) tree := by
  have stored := resting.stored
  have mem : first.time ∈ (contents tree).times := by
    refine absorbed.times _ ?_
    rw [times_only]
    exact List.mem_cons_self
  have found := Kvs.findLowest_reaches stored.wf stored.holds first.time
  obtain ⟨ti, tile, reach, leaf, contains, proper, high, a, b, old, front, back⟩ :=
    stored.reach_contains mem
  dsimp only at found
  rw [reach, ← queue.1] at found
  have at_ti : kvs.tiles ti = some tile := stored.tiles_of_sub leaf
  have in_leaf := CellTree.mem_leaves.mpr leaf
  have leafy : Leafy ti tile.samples := stored.wf.leaves ti tile in_leaf
  have sorted := (ascending_only (first :: data)).mp asc
  have past := only_past_of_first asc contains
  have inside := only_inside (first :: data) ti
  have cut := only_chunk (first :: data) ti
  have shorter : ((first :: data).dropWhile fun s => ti.containsTime s.time).length ≤ data.length := by
    rw [List.dropWhile_cons_of_pos (by simpa using contains)]
    exact (List.dropWhile_sublist _).length_le
  generalize hchunk : (first :: data).takeWhile (fun s => ti.containsTime s.time) = chunk
    at cut inside
  generalize hrest : (first :: data).dropWhile (fun s => ti.containsTime s.time) = rest
    at cut past shorter
  rw [cut] at asc
  rw [Absorbed, cut, old] at absorbed
  obtain ⟨here, later⟩ := Samples.absorbed_middle front (fun t ht => by
      rcases Samples.mem_times_append.mp ht with ht | ht
      · exact inside t ht
      · exact leafy.inside t ht) (fun t ht => by
      rcases Samples.mem_times_append.mp ht with ht | ht
      · exact past t ht
      · exact back t ht) (contains.1.trans contains.2.le) absorbed
  have same : tile.insert (only chunk) = tile := (resting.covers ti tile in_leaf).insert_of_absorbed here
  have split : Exec.Reaches (fun fuel => ch.splitTileIfNeeded fuel ti (tile.insert (only chunk))) kvs
      (.null, tile) kvs := by
    refine .step (y := fun _ => pure (.null, tile)) (fun fuel => ?_) (.of_ret fun _ => rfl)
    rw [splitTileIfNeeded, same, if_pos (resting.fits ti tile in_leaf)]
  rw [← hchunk] at split
  have run := insertStep_keep quiet found proper at_ti sorted split
  rw [Function.update_eq_self_iff.mpr at_ti.symm, hrest] at run
  have high' : ti.level < TileIndex.intMax ∨ ti = st.root := queue.1 ▸ high
  refine ⟨_, rest, run, queue.changed leaf high' tile, shorter, asc.of_append.2, ?_⟩
  rw [Absorbed, old]
  exact later

theorem insertLoop_same (quiet : ch.Quiet) (resting : Resting ch.maxTileSize kvs info tree)
    (queue : QueuesNodes info tree st) (asc : (only data).Ascending)
    (absorbed : Absorbed (only data) tree) :
    ∃ st', Exec.Reaches (fun fuel => ch.insertLoop fuel st data) kvs st' kvs ∧
      QueuesNodes info tree st' := by
  obtain ⟨n, hn⟩ : ∃ n, data.length ≤ n := ⟨_, le_rfl⟩
  induction n generalizing st data with
  | zero =>
      obtain rfl := List.length_eq_zero_iff.mp (Nat.le_zero.mp hn)
      exact ⟨st, insertLoop_nil_done st kvs, queue⟩
  | succ n ih =>
      cases data with
      | nil => exact ⟨st, insertLoop_nil_done st kvs, queue⟩
      | cons first data =>
          obtain ⟨st₁, rest, run, queue₁, shorter, asc₁, absorbed₁⟩ :=
            insertStep_same quiet resting queue asc absorbed
          obtain ⟨st', loop, queue'⟩ := ih queue₁ asc₁ absorbed₁
            (shorter.trans (Nat.le_of_succ_le_succ hn))
          exact ⟨st', insertLoop_cons_done run loop, queue'⟩

end

theorem regenerateStep_same (st : AddState) {w : TileIndex} (quiet : ch.Quiet)
    (resting : Resting ch.maxTileSize kvs info tree) {parent : ExactTile} {l r : TileTree}
    (node : tree.sub info.nonnegativeRootTileIndex w = some (.node parent l r)) :
    Exec.Reaches (fun _ => ch.regenerateStep st w) kvs (st.changed w parent) kvs := by
  have stored := resting.stored
  have reg : Regular w := stored.wf.regular_of_sub (stored.wf.regular_of_node node) node
  have combined : (createParentTileFromChildren w .new l.label r.label : Outcome Failure _) =
      .ret parent := resting.nodes w parent l r node
  have left : kvs.tiles w.leftChild = some l.label := by
    rw [TileIndex.leftChild_eq reg.lt_intMax]
    exact stored.tiles_of_sub (CellTree.sub_lo node)
  have right : kvs.tiles w.rightChild = some r.label := by
    rw [TileIndex.rightChild_eq reg.lt_intMax]
    exact stored.tiles_of_sub (CellTree.sub_hi node)
  have at_w : kvs.tiles w = some parent := stored.tiles_of_sub node
  have write : ch.writeTile w parent kvs = .ret ((), kvs) := by
    have done := set_done parent.binaryLength (fun kvs => { kvs with tiles := Function.update kvs.tiles w (some parent) })
      (quiet kvs (.tile w))
    rw [Function.update_eq_self_iff.mpr at_w.symm] at done
    exact done
  refine .bind (.of_ret fun _ => Exec.read_of_ret (Kvs.readTile_of_some left)) ?_
  refine .bind (.of_ret fun _ => Exec.read_of_ret (Kvs.readTile_of_some right)) ?_
  refine .bind (.of_ret fun _ => Exec.read_of_ret combined) ?_
  exact .bind (.of_ret fun _ => write) (.of_ret fun _ => rfl)

theorem regenerateLoop_same {st : AddState} (quiet : ch.Quiet)
    (resting : Resting ch.maxTileSize kvs info tree) (queue : QueuesNodes info tree st) :
    ∃ st', Exec.Reaches (fun fuel => ch.regenerateLoop fuel st) kvs st' kvs ∧
      st'.root = info.nonnegativeRootTileIndex := by
  obtain ⟨n, hn⟩ : ∃ n, queueMeasure info.nonnegativeRootTileIndex st.toRegenerate ≤ n := ⟨_, le_rfl⟩
  induction n generalizing st with
  | zero =>
      have empty : st.toRegenerate = [] := by
        cases h : st.toRegenerate with
        | nil => rfl
        | cons w rest => simp [h, queueMeasure] at hn
      refine ⟨st, .step (y := fun _ => pure st) (fun fuel => ?_) (.of_ret fun _ => rfl), queue.1⟩
      simp only [regenerateLoop, empty]
  | succ n ih =>
      cases todo : st.toRegenerate with
      | nil =>
          refine ⟨st, .step (y := fun _ => pure st) (fun fuel => ?_) (.of_ret fun _ => rfl), queue.1⟩
          simp only [regenerateLoop, todo]
      | cons w rest =>
          obtain ⟨parent, l, r, node⟩ := queue.2 w (by rw [todo]; exact List.mem_cons_self)
          have stored := resting.stored
          have reg : Regular w := stored.wf.regular_of_sub (stored.wf.regular_of_node node) node
          have popped : QueuesNodes info tree { st with toRegenerate := rest } :=
            ⟨queue.1, fun v hv => queue.2 v (by rw [todo]; exact List.mem_cons_of_mem _ hv)⟩
          have run := regenerateStep_same { st with toRegenerate := rest } quiet resting node
          have next := popped.changed node (.inl reg.lt_intMax) parent
          have less := queueMeasure_lt rest (CellTree.under_of_sub node)
          rw [todo] at hn
          obtain ⟨st', loop, root⟩ := ih next (by
            rw [changed_toRegenerate _ _ (.inl reg.lt_intMax)]
            dsimp only
            rw [queue.1]
            omega)
          refine ⟨st', .step (y := fun fuel => do
            let st ← ch.regenerateStep { st with toRegenerate := rest } w
            ch.regenerateLoop fuel st) (fun fuel => ?_) (.bind run loop), root⟩
          simp only [regenerateLoop, todo]

theorem lock_same (stored : Stored kvs info tree) : lock kvs = .ret ((), kvs) := by
  rw [lock_run, stored.locked]

/-- Times within those of the channel leave the info record and the root alone. -/
theorem prepareRoot_same {times : Range ℚ} (stored : Stored kvs info tree)
    (within : info.times.add times = info.times) :
    Exec.Reaches (fun fuel => ch.prepareRoot fuel times) kvs (info, []) kvs := by
  have read : Outcome.Reaches (fun _ => kvs.readInfo) (some info) :=
    .of_ret fun _ => readInfo_stored stored.metainfo stored.magic
  refine .bind (.read read) ?_
  dsimp only
  rw [within]
  by_cases ordinary : info.nonnegativeRootTileIndex ≠ .nonnegativeAll
  · simp only [if_pos ordinary]
    refine .bind (.read (stored.indexContaining ordinary)) ?_
    have stays : ¬ info.nonnegativeRootTileIndex.level > info.nonnegativeRootTileIndex.level :=
      lt_irrefl _
    simp only [if_neg stays]
    exact .of_ret fun _ => rfl
  · simp only [if_neg ordinary]
    exact .of_ret fun _ => rfl

section
variable {V : Type} [SampleKind V] [LawfulSampleKind V]

theorem addDataInternal_same {data : List (Sample V)} (quiet : ch.Quiet)
    (resting : Resting ch.maxTileSize kvs info tree) (asc : (only data).Ascending)
    (absorbed : Absorbed (only data) tree) :
    ∃ r, Exec.Reaches (fun fuel => ch.addDataInternal fuel data) kvs r kvs := by
  have stored := resting.stored
  cases data with
  | nil => exact ⟨none, .of_ret fun _ => rfl⟩
  | cons first rest =>
      have sorted := (ascending_only _).mp asc
      have spanned := Spanned.of_vector sorted
      have bounds : ∀ t ∈ (only (first :: rest)).times, info.times.min ≤ t ∧ t ≤ info.times.max :=
        fun t ht => stored.spanned.bounds t (absorbed.times t ht)
      have low := bounds _ spanned.min_mem
      have high := bounds _ spanned.max_mem
      have start : 0 ≤ first.time := (stored.double _ (absorbed.times _ spanned.min_mem)).2
      have within : info.times.add ⟨first.time, ((first :: rest).getLast (by simp)).time⟩ =
          info.times := by
        rw [Range.add, min_eq_left low.1, max_eq_left high.2]
      have opening : QueuesNodes info tree ⟨info.nonnegativeRootTileIndex, [], none⟩ :=
        ⟨rfl, fun w hw => (List.not_mem_nil hw).elim⟩
      obtain ⟨st₁, inserted, queue₁⟩ := insertLoop_same quiet resting opening asc absorbed
      obtain ⟨st₂, regenerated, root⟩ := regenerateLoop_same quiet resting queue₁
      have proper : ¬ info.nonnegativeRootTileIndex.isNull := by
        rcases stored.wf.shape with ⟨all, -⟩ | ⟨regular, -⟩
        · dsimp only at all
          rw [all]
          decide
        · exact regular.not_null
      have write : ch.writeInfo { info with nonnegativeRootTileIndex := st₂.root } kvs =
          .ret ((), kvs) := by
        rw [root]
        refine (Exec.bind_of_ret (Exec.assert_of proper _ _)).trans ?_
        rw [set_done _ _ (quiet _ _)]
        cases kvs
        have has := stored.metainfo
        dsimp only at has
        rw [has]
      refine ⟨st₂.channelRanges, ?_⟩
      simp only [addDataInternal_sorted _ start sorted]
      refine .bind (.of_ret fun _ => lock_same stored) ?_
      refine .bind (prepareRoot_same stored within) ?_
      refine .bind inserted (.bind regenerated ?_)
      exact .bind (.of_ret fun _ => write) (.of_ret fun _ => rfl)

end

end Channel

namespace Runs

variable {ch : Channel} {bs : List Batch} {kvs kvs' : Kvs} {b : Batch} {fuel : ℕ}
  {r : Option (DataRanges ℚ)}

theorem absorbed {info : ChannelInfo} {tree : TileTree} (run : Runs ch (bs ++ [b]) kvs)
    (stored : Stored kvs info tree) : Absorbed b.samples tree := by
  have same := stored.kept run.contents_eq
  rw [Absorbed, same, history_add]
  exact Samples.overwrite_again _ _

/-- A call that returned can be repeated where no set of the store fails: it returns again, and the store is
the same. -/
theorem reimport (run : Runs ch bs kvs) (quiet : ch.Quiet) (finite : b.FiniteTimes)
    (call : ch.addData fuel b kvs = .ret (r, kvs')) :
    ∃ r', Exec.Reaches (fun fuel => ch.addData fuel b) kvs' r' kvs' := by
  have next := Runs.add run finite call
  rcases Channel.addData_ret run.usual finite call with ⟨void, rfl⟩ | ⟨p, q, info, called⟩
  · refine ⟨none, .of_ret fun fuel => ?_⟩
    cases b with
    | doubles data =>
        obtain rfl : data = [] := congrArg Samples.doubles void
        rfl
    | strings data =>
        obtain rfl : data = [] := congrArg Samples.strings void
        rfl
  · rcases next.resting with rfl | ⟨info', tree, resting⟩
    · exact called.stored.not_absent.elim
    have asc : b.samples.Ascending := by
      rw [← called.opens.pending]
      exact called.wf.ascending
    have absorbed := next.absorbed resting.stored
    cases b with
    | doubles data => exact Channel.addDataInternal_same quiet resting asc absorbed
    | strings data => exact Channel.addDataInternal_same quiet resting asc absorbed

theorem reimport_pair : ∃ kvs r, Runs .narrow [.pair] kvs ∧
    Exec.Reaches (fun fuel => Channel.narrow.addData fuel .pair) kvs r kvs := by
  have quiet : Channel.narrow.Quiet := fun _ _ => rfl
  obtain ⟨r, kvs, reaches⟩ := Runs.absent.completes quiet Batch.weights_pair Batch.finite_pair
    Batch.sorted_pair Batch.nonneg_pair (Batch.accepts_pair (by decide))
  obtain ⟨fuel, ret⟩ := Outcome.Reaches.returns reaches
  obtain ⟨r', again⟩ := reimport .absent quiet Batch.finite_pair ret
  exact ⟨kvs, r', .add .absent Batch.finite_pair ret, again⟩

end Runs
end Mio.Datastore
