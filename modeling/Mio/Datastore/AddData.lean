import Mio.Datastore.Simulate

/-! Whole `add_data` calls, and runs of them from an absent channel. -/
namespace Mio.Datastore

namespace Batch

def samples : Batch → Samples
  | doubles data => only data
  | strings data => only data

/-- The times are finite doubles, as their type says. -/
def FiniteTimes (b : Batch) : Prop := ∀ t ∈ b.samples.times, IsDouble t

end Batch

/-- `r` reaches from the first to the last time of `u`. -/
structure Spanned (r : Range ℚ) (u : Samples) : Prop where
  min_mem : r.min ∈ u.times
  max_mem : r.max ∈ u.times
  bounds : ∀ t ∈ u.times, r.min ≤ t ∧ t ≤ r.max

theorem Spanned.add {r x : Range ℚ} {old new : Samples} (h : Spanned r old) (g : Spanned x new) :
    Spanned (r.add x) (.overwrite new old) := by
  refine ⟨?_, ?_, ?_⟩
  · rw [Samples.mem_times_overwrite]
    rcases min_choice r.min x.min with eq | eq
    · exact .inr (by simpa only [Range.add, eq] using h.min_mem)
    · exact .inl (by simpa only [Range.add, eq] using g.min_mem)
  · rw [Samples.mem_times_overwrite]
    rcases max_choice r.max x.max with eq | eq
    · exact .inr (by simpa only [Range.add, eq] using h.max_mem)
    · exact .inl (by simpa only [Range.add, eq] using g.max_mem)
  · intro t ht
    rcases Samples.mem_times_overwrite.mp ht with ht | ht
    · exact ⟨(min_le_right _ _).trans (g.bounds t ht).1, (g.bounds t ht).2.trans (le_max_right _ _)⟩
    · exact ⟨(min_le_left _ _).trans (h.bounds t ht).1, (h.bounds t ht).2.trans (le_max_left _ _)⟩

theorem Spanned.of_vector {V : Type} [SampleKind V] [LawfulSampleKind V] {first : Sample V}
    {rest : List (Sample V)} (asc : Ascending DataSample.time (first :: rest)) :
    Spanned ⟨first.time, ((first :: rest).getLast (by simp)).time⟩ (only (first :: rest)) := by
  rw [Ascending, List.pairwise_cons] at asc
  have last : ∀ s ∈ first :: rest, s.time ≤ ((first :: rest).getLast (by simp)).time := by
    have full : Ascending DataSample.time (first :: rest) := List.pairwise_cons.mpr asc
    rw [← List.dropLast_append_getLast (List.cons_ne_nil first rest)] at full
    intro s hs
    rw [← List.dropLast_append_getLast (List.cons_ne_nil first rest)] at hs
    rcases List.mem_append.mp hs with hs | hs
    · exact (List.pairwise_append.mp full).2.2 s hs _ (List.mem_singleton_self _)
    · rw [List.mem_singleton.mp hs]
  refine ⟨?_, ?_, ?_⟩
  · rw [times_only]
    exact List.mem_map_of_mem List.mem_cons_self
  · rw [times_only]
    exact List.mem_map_of_mem (List.getLast_mem _)
  · intro t ht
    rw [times_only] at ht
    obtain ⟨s, hs, rfl⟩ := List.mem_map.mp ht
    refine ⟨?_, last s hs⟩
    rcases List.mem_cons.mp hs with rfl | hs
    · exact le_rfl
    · exact asc.1 s hs

/-- A channel at rest: the store holds a well-formed tree and nothing else. -/
structure Stored (kvs : Kvs) (info : ChannelInfo) (tree : TileTree) : Prop where
  metainfo : kvs.metainfo = some (some info)
  tiles : kvs.tiles = tree.get info.nonnegativeRootTileIndex
  magic : info.magic = ChannelInfo.magicNumber
  wf : Progress.Wf ⟨info.nonnegativeRootTileIndex, tree, [], .empty⟩
  spanned : Spanned info.times (contents tree)

theorem Stored.unique {kvs : Kvs} {info info' : ChannelInfo} {tree tree' : TileTree}
    (h : Stored kvs info tree) (g : Stored kvs info' tree') : info = info' ∧ tree = tree' := by
  have same := h.metainfo.symm.trans g.metainfo
  cases same
  exact ⟨rfl, CellTree.get_injective (h.tiles.symm.trans g.tiles)⟩

theorem Stored.locked {kvs : Kvs} {info : ChannelInfo} {tree : TileTree} (h : Stored kvs info tree) :
    { kvs with metainfo := some (kvs.metainfo.getD none) } = kvs := by
  obtain ⟨record, tiles⟩ := kvs
  have present := h.metainfo
  dsimp only at present
  subst present
  rfl

theorem Stored.not_absent {info : ChannelInfo} {tree : TileTree} (h : Stored .absent info tree) :
    False := by
  have none := h.metainfo
  cases none

/-- What a channel keeps at all times holds of the tree that is stored. -/
theorem Stored.kept {kvs : Kvs} {info : ChannelInfo} {tree : TileTree} {Q : Prop}
    {P : ChannelInfo → TileTree → Prop} (h : Stored kvs info tree)
    (keeps : (kvs = .absent ∧ Q) ∨ ∃ info tree, Stored kvs info tree ∧ P info tree) : P info tree := by
  rcases keeps with ⟨rfl, -⟩ | ⟨info', tree', stored, kept⟩
  · exact h.not_absent.elim
  · obtain ⟨rfl, rfl⟩ := h.unique stored
    exact kept

/-- The state of the machine, and the info record, with which a call begins. -/
inductive Opens (batch : Samples) : Kvs → Progress → ChannelInfo → Prop
  | new {times} (spanned : Spanned times batch) :
      Opens batch .absent ⟨.nonnegativeAll, .leaf .new, [], batch⟩
        ⟨ChannelInfo.magicNumber, 0x00010000, times, .nonnegativeAll, .null⟩
  | old {kvs info tree times} (stored : Stored kvs info tree) (spanned : Spanned times batch) :
      Opens batch kvs ⟨info.nonnegativeRootTileIndex, tree, [], batch⟩
        { info with times := info.times.add times }

namespace Opens

variable {batch : Samples} {kvs : Kvs} {p : Progress} {info : ChannelInfo}

theorem pending (h : Opens batch kvs p info) : p.pending = batch := by
  cases h <;> rfl

theorem magic (h : Opens batch kvs p info) : info.magic = ChannelInfo.magicNumber := by
  cases h with
  | new => rfl
  | old stored => exact stored.magic

theorem spanned (h : Opens batch kvs p info) : Spanned info.times p.total := by
  cases h with
  | new spanned =>
      simp only [Progress.total, contents, Tile.samples_new, Samples.overwrite_empty_right]
      exact spanned
  | old stored spanned => exact stored.spanned.add spanned

theorem wf (h : Opens batch kvs p info) (asc : batch.Ascending)
    (double : ∀ t ∈ batch.times, IsDouble t ∧ 0 ≤ t) : p.Wf := by
  cases h with
  | new spanned =>
      refine ⟨.inl ⟨rfl, _, rfl⟩, CellTree.eachNode_leaf, CellTree.eachLeaf_leaf.mpr ?_,
        CellTree.eachLabel_leaf.mpr rfl, by simp, asc, double, fun ne => (ne rfl).elim⟩
      rw [Tile.samples_new]
      exact .empty _
  | @old _ info tree times stored spanned =>
      have wf := stored.wf
      refine ⟨wf.shape, wf.deep, wf.leaves, wf.headers, by simp, asc, double, fun ne => ?_⟩
      refine (wf.tight ne).mono fun t ht => ?_
      rw [Progress.total, Samples.mem_times_overwrite]
      simp only [Progress.total, Samples.overwrite_empty_left] at ht
      exact .inr ht

end Opens

/-- A root that holds the first and the last of all times lies above the root so far. -/
theorem Tight.under {root newRoot : TileIndex} {u : Samples} {r : Range ℚ} (h : Tight root u)
    (spanned : Spanned r u) (least : Cell.Smallest newRoot r.min r.max) : root.Under newRoot := by
  obtain ⟨a, ha, b, hb, lt, small⟩ := h
  exact small.mono least (spanned.bounds a ha).1 lt.le (spanned.bounds b hb).2

theorem Tight.of_spanned {root : TileIndex} {u : Samples} {r : Range ℚ} (spanned : Spanned r u)
    (lt : r.min < r.max) (least : Cell.Smallest root r.min r.max) : Tight root u :=
  ⟨_, spanned.min_mem, _, spanned.max_mem, lt, least⟩

theorem Around.of_spanned {root : TileIndex} {u : Samples} {r : Range ℚ} (spanned : Spanned r u)
    (lt : r.min < r.max) (least : Cell.Smallest root r.min r.max) : Around root u := by
  refine ⟨.of_spanned spanned lt least, fun t ht => ?_⟩
  have := spanned.bounds t ht
  exact ⟨least.left.1.trans this.1, this.2.trans_lt least.right.2⟩

/-- A non-empty call that returned: the machine ran from the opening state until nothing was left
to do, and the store holds its tree and the new info record. -/
structure Called (limit : ℕ) (batch : Samples) (kvs kvs' : Kvs) (p q : Progress) (info : ChannelInfo) :
    Prop where
  opens : Opens batch kvs p info
  wf : p.Wf
  steps : Relation.ReflTransGen (Step limit) p q
  stale : q.stale = []
  pending : q.pending = .empty
  left : kvs' = ⟨some (some { info with nonnegativeRootTileIndex := q.root }), q.tree.get q.root⟩
  room : Samples.empty.size ≤ limit

theorem Steps.wf {limit : ℕ} {p q : Progress} (steps : Relation.ReflTransGen (Step limit) p q)
    (wf : p.Wf) : q.Wf := by
  induction steps with
  | refl => exact wf
  | tail _ step ih => exact step.wf ih

theorem Steps.total_eq {limit : ℕ} {p q : Progress} (steps : Relation.ReflTransGen (Step limit) p q)
    (wf : p.Wf) : q.total = p.total := by
  induction steps with
  | refl => rfl
  | tail steps step ih => exact (step.total_eq (Steps.wf steps wf)).trans ih

/-- A property of states that every step keeps holds at the end of a call. -/
theorem Steps.keep {limit : ℕ} {P : Progress → Prop}
    (step : ∀ p q, Step limit p q → p.Wf → P p → P q) {p q : Progress}
    (steps : Relation.ReflTransGen (Step limit) p q) (wf : p.Wf) (h : P p) : P q := by
  induction steps with
  | refl => exact h
  | tail steps last ih => exact step _ _ last (Steps.wf steps wf) ih

namespace Called

variable {limit : ℕ} {batch : Samples} {kvs kvs' : Kvs} {p q : Progress} {info : ChannelInfo}

theorem contents_eq (h : Called limit batch kvs kvs' p q info) : contents q.tree = p.total := by
  have total := Steps.total_eq h.steps h.wf
  rwa [Progress.total, h.pending, Samples.overwrite_empty_left] at total

theorem stored (h : Called limit batch kvs kvs' p q info) :
    Stored kvs' { info with nonnegativeRootTileIndex := q.root } q.tree := by
  have wf := Steps.wf h.steps h.wf
  have same : (⟨q.root, q.tree, [], .empty⟩ : Progress) = q := by
    rw [← h.stale, ← h.pending]
  refine ⟨by rw [h.left], by rw [h.left], h.opens.magic, ?_, ?_⟩
  · dsimp only
    rwa [same]
  · dsimp only
    rw [h.contents_eq]
    exact h.opens.spanned

end Called

namespace Channel

variable {ch : Channel}

theorem lock_run (kvs : Kvs) :
    lock kvs = .ret ((), { kvs with metainfo := some (kvs.metainfo.getD none) }) := rfl

theorem readInfo_stored {kvs : Kvs} {info : ChannelInfo} (h : kvs.metainfo = some (some info))
    (magic : info.magic = ChannelInfo.magicNumber) : kvs.readInfo = .ret (some info) := by
  simp only [Kvs.readInfo, h, Outcome.assert_of magic]
  rfl

/-- `prepare_root` creates the all-tile, or moves the root in one step, or does nothing. -/
theorem prepareRoot_ret {fuel : ℕ} {batch : Samples} {times : Range ℚ} {kvs kvs' : Kvs}
    {info' : ChannelInfo} {list : List TileIndex} (usual : kvs = .absent ∨ ∃ info tree, Stored kvs info tree)
    (asc : batch.Ascending) (double : ∀ t ∈ batch.times, IsDouble t ∧ 0 ≤ t)
    (spanned : Spanned times batch)
    (h : ch.prepareRoot fuel times { kvs with metainfo := some (kvs.metainfo.getD none) } =
      .ret ((info', list), kvs')) :
    ∃ p info q, Opens batch kvs p info ∧ Relation.ReflTransGen (Step ch.maxTileSize) p q ∧
      q.pending = batch ∧ q.stale = list ∧ kvs'.tiles = q.tree.get q.root ∧
      info' = { info with nonnegativeRootTileIndex := q.root } ∧
      (p.root = .nonnegativeAll ∧ q = p ∨ p.root ≠ .nonnegativeAll ∧ Around q.root p.total ∧
        (p.root.level < q.root.level → q.root.isAncestorOf ch.wideShift p.root)) ∧
      kvs'.metainfo = some (kvs.metainfo.getD none) := by
  obtain ⟨found, read, h⟩ := Exec.read_bind_eq_ret.mp h
  rcases usual with rfl | ⟨info, tree, stored⟩
  · cases read
    obtain ⟨_, kvs₁, write, h⟩ := Exec.bind_eq_ret.mp h
    obtain rfl := writeTile_ret write
    cases h
    refine ⟨_, _, _, .new spanned, .refl, rfl, rfl, ?_, rfl, .inl ⟨rfl, rfl⟩, rfl⟩
    funext i
    dsimp only
    by_cases eq : i = TileIndex.nonnegativeAll
    · rw [eq, Function.update_self, CellTree.get_self]
      rfl
    · rw [Function.update_of_ne eq, CellTree.get, CellTree.sub_leaf_none eq]
      rfl
  · have present : kvs.metainfo = some (kvs.metainfo.getD none) := by
      rw [stored.metainfo]
      rfl
    rw [stored.locked] at read h
    rw [readInfo_stored stored.metainfo stored.magic] at read
    cases read
    have opens := Opens.old stored spanned
    have wf := opens.wf asc double
    have total := opens.spanned
    dsimp only at h
    split at h
    · next ordinary =>
        obtain ⟨regular, a, l, r, rfl⟩ := wf.shape_node ordinary
        obtain ⟨newRoot, chosen, h⟩ := Exec.read_bind_eq_ret.mp h
        have first := wf.total_double _ total.min_mem
        have last := (wf.total_double _ total.max_mem).1
        obtain ⟨lt, least, high, low⟩ := TileIndex.indexContaining_ret first.1 last (.inl first.2) chosen
        have under := (wf.tight ordinary).under total least
        have around := Around.of_spanned total lt least
        split at h
        · next moved =>
            obtain ⟨ancestor, h⟩ := Exec.assert_bind_eq_ret.mp h
            obtain ⟨_, kvs₁, run, h⟩ := Exec.bind_eq_ret.mp h
            cases h
            obtain ⟨oldTile, got, run⟩ := Exec.read_bind_eq_ret.mp run
            have label := Kvs.readTile_ret got
            rw [stored.tiles, CellTree.get_self] at label
            cases label
            obtain ⟨n, eq, tiles, same⟩ := moveRootLoop_ret under
              (lt_of_le_of_lt high (by decide)) stored.tiles run
            cases n with
            | zero =>
                rw [eq] at moved
                exact (lt_irrefl _ moved).elim
            | succ n =>
                subst eq
                refine ⟨_, _, _, opens, .single (.raise n ⟨low.le, high⟩ (.of_spanned total lt least)),
                  rfl, ?_, tiles, rfl, .inr ⟨ordinary, around, fun _ => ancestor⟩, same.trans present⟩
                rw [TileIndex.parent_eq regular.lt_intMax]
        · next stays =>
            cases h
            obtain rfl := under.eq_of_level (not_lt.mp stays)
            exact ⟨_, _, _, opens, .refl, rfl, rfl, stored.tiles, rfl,
              .inr ⟨ordinary, around, fun lt => (lt_irrefl _ lt).elim⟩, present⟩
    · next all =>
        cases h
        exact ⟨_, _, _, opens, .refl, rfl, rfl, stored.tiles, rfl, .inl ⟨not_not.mp all, rfl⟩, present⟩

theorem addSorted_ret {V : Type} [SampleKind V] [LawfulSampleKind V] {fuel : ℕ} {times : Range ℚ}
    {data : List (Sample V)} {kvs kvs' : Kvs} {r : Option (DataRanges ℚ)}
    (usual : kvs = .absent ∨ ∃ info tree, Stored kvs info tree) (asc : (only data).Ascending)
    (double : ∀ t ∈ (only data).times, IsDouble t ∧ 0 ≤ t) (spanned : Spanned times (only data))
    (some : data ≠ []) (h : ch.addSorted fuel times data kvs = .ret (r, kvs')) :
    ∃ p q info, Called ch.maxTileSize (only data) kvs kvs' p q info := by
  obtain ⟨_, kvs₁, locked, h⟩ := Exec.bind_eq_ret.mp h
  rw [lock_run] at locked
  cases locked
  obtain ⟨⟨info', list⟩, kvs₂, prepared, h⟩ := Exec.bind_eq_ret.mp h
  obtain ⟨p, info, q₁, opens, steps₁, pending₁, stale₁, tiles₁, rfl, -⟩ :=
    prepareRoot_ret usual asc double spanned prepared
  have wf := opens.wf asc double
  have wf₁ := Steps.wf steps₁ wf
  obtain ⟨st₂, kvs₃, inserted, h⟩ := Exec.bind_eq_ret.mp h
  obtain ⟨q₂, loop₂, tracks₂, pending₂, -, room⟩ :=
    insertLoop_ret wf₁ ⟨rfl, stale₁.symm, tiles₁⟩ pending₁ inserted
  have steps₂ := LoopSteps.steps loop₂
  obtain ⟨st₃, kvs₄, regenerated, h⟩ := Exec.bind_eq_ret.mp h
  obtain ⟨q₃, loop₃, tracks₃, pending₃, stale₃, -⟩ :=
    regenerateLoop_ret (Steps.wf steps₂ wf₁) tracks₂ regenerated
  have steps₃ := LoopSteps.steps loop₃
  obtain ⟨_, kvs₅, written, h⟩ := Exec.bind_eq_ret.mp h
  obtain ⟨-, written⟩ := Exec.assert_bind_eq_ret.mp written
  obtain rfl := set_ret written
  cases h
  refine ⟨p, q₃, info, opens, wf, (steps₁.trans steps₂).trans steps₃, stale₃,
    pending₃.trans pending₂, ?_, room some⟩
  rw [tracks₃.root, ← tracks₃.tiles]

theorem addDataInternal_ret {V : Type} [SampleKind V] [LawfulSampleKind V] {fuel : ℕ}
    {data : List (Sample V)} {kvs kvs' : Kvs} {r : Option (DataRanges ℚ)}
    (usual : kvs = .absent ∨ ∃ info tree, Stored kvs info tree)
    (finite : ∀ t ∈ (only data).times, IsDouble t)
    (h : ch.addDataInternal fuel data kvs = .ret (r, kvs')) :
    (only data = .empty ∧ kvs' = kvs) ∨
      ∃ p q info, Called ch.maxTileSize (only data) kvs kvs' p q info := by
  cases data with
  | nil =>
      cases h
      exact .inl ⟨only_nil, rfl⟩
  | cons first rest =>
      right
      by_cases negative : first.time < 0
      · rw [addDataInternal, if_pos negative] at h
        cases h
      · by_cases sorted : Ascending DataSample.time (first :: rest)
        · rw [addDataInternal, if_neg negative, if_neg (not_not.mpr sorted)] at h
          have spanned := Spanned.of_vector sorted
          refine addSorted_ret usual ((ascending_only _).mpr sorted) (fun t ht => ⟨finite t ht, ?_⟩)
            spanned (List.cons_ne_nil _ _) h
          exact (not_lt.mp negative).trans (spanned.bounds t ht).1
        · rw [addDataInternal, if_neg negative, if_pos sorted] at h
          cases h

theorem addData_ret {fuel : ℕ} {b : Batch} {kvs kvs' : Kvs} {r : Option (DataRanges ℚ)}
    (usual : kvs = .absent ∨ ∃ info tree, Stored kvs info tree) (finite : b.FiniteTimes)
    (h : ch.addData fuel b kvs = .ret (r, kvs')) :
    (b.samples = .empty ∧ kvs' = kvs) ∨
      ∃ p q info, Called ch.maxTileSize b.samples kvs kvs' p q info := by
  cases b with
  | doubles data => exact addDataInternal_ret usual finite h
  | strings data => exact addDataInternal_ret usual finite h

end Channel

/-- The stores that sequences of returning `add_data` calls lead to from an absent channel. -/
inductive Runs (ch : Channel) : List Batch → Kvs → Prop
  | absent : Runs ch [] .absent
  | add {bs kvs b fuel r kvs'} (run : Runs ch bs kvs) (finite : b.FiniteTimes)
      (call : ch.addData fuel b kvs = .ret (r, kvs')) : Runs ch (bs ++ [b]) kvs'

def history (bs : List Batch) : Samples :=
  bs.foldl (fun u b => .overwrite b.samples u) .empty

theorem history_add (bs : List Batch) (b : Batch) :
    history (bs ++ [b]) = .overwrite b.samples (history bs) := by
  simp [history]

namespace Runs

variable {ch : Channel}

theorem usual {bs : List Batch} {kvs : Kvs} (run : Runs ch bs kvs) :
    kvs = .absent ∨ ∃ info tree, Stored kvs info tree := by
  induction run with
  | absent => exact .inl rfl
  | add run finite call ih =>
      rcases Channel.addData_ret ih finite call with ⟨-, rfl⟩ | ⟨p, q, info, called⟩
      · exact ih
      · exact .inr ⟨_, _, called.stored⟩

/-- What holds of a new channel and is kept by every call holds of every channel a run leads to. -/
theorem induct {P : List Batch → ChannelInfo → TileTree → Prop}
    (skip : ∀ bs b info tree, b.samples = .empty → P bs info tree → P (bs ++ [b]) info tree)
    (first : ∀ bs b kvs' q info, history bs = .empty → b.FiniteTimes →
      Called ch.maxTileSize b.samples .absent kvs' ⟨.nonnegativeAll, .leaf .new, [], b.samples⟩ q info →
      P (bs ++ [b]) { info with nonnegativeRootTileIndex := q.root } q.tree)
    (again : ∀ bs b kvs kvs' q info old tree, P bs old tree → b.FiniteTimes →
      Called ch.maxTileSize b.samples kvs kvs' ⟨old.nonnegativeRootTileIndex, tree, [], b.samples⟩ q info →
      P (bs ++ [b]) { info with nonnegativeRootTileIndex := q.root } q.tree)
    {bs : List Batch} {kvs : Kvs} (run : Runs ch bs kvs) :
    (kvs = .absent ∧ history bs = .empty) ∨ ∃ info tree, Stored kvs info tree ∧ P bs info tree := by
  induction run with
  | absent => exact .inl ⟨rfl, rfl⟩
  | @add bs kvs b fuel r kvs' run finite call ih =>
      rcases Channel.addData_ret run.usual finite call with ⟨none, rfl⟩ | ⟨p, q, info, called⟩
      · rcases ih with ⟨rfl, empty⟩ | ⟨old, tree, stored, h⟩
        · refine .inl ⟨rfl, ?_⟩
          rw [history_add, none, empty]
          rfl
        · exact .inr ⟨old, tree, stored, skip _ _ _ _ none h⟩
      · right
        refine ⟨_, _, called.stored, ?_⟩
        rcases ih with ⟨rfl, empty⟩ | ⟨old, tree, stored, h⟩
        · cases called.opens with
          | new spanned => exact first _ _ _ _ _ empty finite called
          | old stored => exact stored.not_absent.elim
        · cases called.opens with
          | new spanned => exact stored.not_absent.elim
          | old stored' spanned =>
              obtain ⟨rfl, rfl⟩ := stored.unique stored'
              exact again _ _ _ _ _ _ _ _ h finite called

end Runs
end Mio.Datastore
