import Mio.Datastore.Accepts

/-! Where a failing set leaves a call: between two steps of the machine, or inside of one. -/
namespace Mio.Datastore

/-- The store when the set of a key fails in a step from `p`. -/
inductive Interrupted (limit : ℕ) (p : Progress) (left : Kvs) : Key → Prop
  | record (tiles : left.tiles = p.tree.get p.root) : Interrupted limit p left .metainfo
  | refill (all : p.root = .nonnegativeAll) (tiles : left.tiles = p.tree.get p.root) :
      Interrupted limit p left (.tile .nonnegativeAll)
  | splitAll {tile chunk rest c key} {kvs : Kvs} (all : p.root = .nonnegativeAll)
      (pass : Pass p .nonnegativeAll tile chunk rest) (tiles : kvs.tiles = p.tree.get p.root)
      (around : Around c (tile.insert chunk).samples) (regular : Regular c)
      (half : Channel.Halfway limit c (tile.insert chunk) kvs left key) : Interrupted limit p left (.tile key)
  | newRoot {tile chunk rest c} (all : p.root = .nonnegativeAll)
      (pass : Pass p .nonnegativeAll tile chunk rest) (around : Around c (tile.insert chunk).samples)
      (gone : left.tiles .nonnegativeAll = none) : Interrupted limit p left (.tile c)
  | leaf {ti tile chunk rest} (regular : Regular p.root) (pass : Pass p ti tile chunk rest)
      (tiles : left.tiles = p.tree.get p.root) : Interrupted limit p left (.tile ti)
  | halfway {ti tile chunk rest key} {kvs : Kvs} (regular : Regular p.root) (pass : Pass p ti tile chunk rest)
      (tiles : kvs.tiles = p.tree.get p.root)
      (half : Channel.Halfway limit ti (tile.insert chunk) kvs left key) : Interrupted limit p left (.tile key)
  | top {ti tile chunk rest a l r} (regular : Regular p.root) (pass : Pass p ti tile chunk rest)
      (grown : Grown limit ti (tile.insert chunk) (.node a l r))
      (tiles : left.tiles = (CellTree.node a l r).placedBelow ti (p.tree.get p.root)) :
      Interrupted limit p left (.tile ti)
  | inner {w a l r} (node : p.tree.sub p.root w = some (.node a l r))
      (tiles : left.tiles = p.tree.get p.root) : Interrupted limit p left (.tile w)

/-- From an all-tile the loops come to states of the kind `Filled` describes. -/
theorem LoopSteps.filled {limit : ℕ} {p q : Progress} (wf : p.Wf) (all : p.root = .nonnegativeAll)
    (steps : Relation.ReflTransGen (LoopStep limit) p q) :
    q.Wf ∧ (q = p ∨ Filled limit (contents p.tree) p.pending q) := by
  induction steps with
  | refl => exact ⟨wf, .inl rfl⟩
  | @tail q q' _ step ih =>
      obtain ⟨wf', ih⟩ := ih
      refine ⟨step.1.wf wf', .inr ?_⟩
      cases ih with
      | inl start =>
          subst start
          obtain ⟨tile, leaf⟩ := wf.shape_all all
          obtain ⟨_, _, stale, _⟩ := q
          dsimp only at all leaf
          subst all leaf
          exact step.1.filled_first
      | inr filled => exact filled.step wf' wf.ascending step.1 step.2

/-- Where in a call on `kvs` the set of a key failed. -/
inductive Stops (limit : ℕ) (batch : Samples) (kvs left : Kvs) : Key → Prop
  | creating (new : kvs = .absent) : Stops limit batch kvs left (.tile .nonnegativeAll)
  | raising {info tree key} (stored : Stored kvs info tree)
      (regular : Regular info.nonnegativeRootTileIndex)
      (above : ¬ Cell.Under key info.nonnegativeRootTileIndex) (bare : left.tiles (TileIndex.parent key) = none)
      (below : ∀ i : TileIndex, i.Under info.nonnegativeRootTileIndex → left.tiles i = kvs.tiles i) :
      Stops limit batch kvs left (.tile key)
  | working {p q info key} (opens : Opens batch kvs p info) (wf : p.Wf)
      (steps : Relation.ReflTransGen (Step limit) p q)
      (filled : p.root = .nonnegativeAll → q = p ∨ Filled limit (contents p.tree) batch q)
      (stage : Interrupted limit q left key) : Stops limit batch kvs left key

namespace Channel

variable {ch : Channel}

section
variable {V : Type} [SampleKind V] [LawfulSampleKind V]

theorem writeTile_throw {ti : TileIndex} {tile : ExactTile} {kvs : Kvs} {f : Failure}
    (h : ch.writeTile ti tile kvs = .throw f) : f.left = kvs ∧ ch.FailedAt (.tile ti) f := set_throw h

theorem insertStep_all_throw {fuel : ℕ} {p : Progress} {st : AddState} {tile : ExactTile}
    {rest : List (Sample V)} {chunk : Samples} {kvs : Kvs} {f : Failure} (wf : p.Wf)
    (tracks : Tracks p st kvs) (all : p.root = .nonnegativeAll)
    (pass : Pass p .nonnegativeAll tile chunk (only rest))
    (run : (ch.splitTileIfNeeded fuel .nonnegativeAll (tile.insert chunk) >>=
      ch.insertRest st .nonnegativeAll rest) kvs = .throw f) :
    ∃ key, ch.FailedAt key f ∧ Interrupted ch.maxTileSize p f.left key ∧
      f.left.metainfo = kvs.metainfo := by
  have merged := pass.merged wf
  obtain ⟨-, leaf⟩ := pass.at_all wf all
  have only : ∀ i : TileIndex, i ≠ .nonnegativeAll → kvs.tiles i = none := by
    intro i ne
    rw [tracks.tiles, leaf, all, CellTree.get, CellTree.sub_leaf_none ne]
    rfl
  rcases Exec.bind_eq_throw.mp run with thrown | ⟨⟨newRoot, tile'⟩, kvs₁, split, h⟩
  · obtain ⟨a, ha, b, hb, lt, ends, c, least, regular, key, failed, half⟩ :=
      splitAll_throw merged.ascending merged.double only thrown
    have around : Around c (tile.insert chunk).samples := by
      refine ⟨⟨a, ha, b, hb, lt, least⟩, fun t ht => ?_⟩
      exact ⟨least.left.1.trans (ends t ht).1, (ends t ht).2.trans_lt least.right.2⟩
    exact ⟨_, failed, .splitAll all pass tracks.tiles around regular half, half.metainfo⟩
  · rcases splitAll_ret merged.ascending merged.double only split with
      ⟨-, rfl, rfl, rfl⟩ | ⟨a, ha, b, hb, lt, ends, least, regular, s, grown, -, rfl, rfl⟩
    · rw [insertRest, if_neg (by simp)] at h
      rcases Exec.bind_eq_throw.mp h with thrown | ⟨_, _, -, done⟩
      · obtain ⟨same, failed⟩ := writeTile_throw thrown
        refine ⟨_, failed, .refill all ?_, by rw [same]⟩
        rw [same, tracks.tiles]
      · cases done
    · have proper : newRoot ≠ .null := fun null => regular.not_null (TileIndex.isNull_iff.mpr null)
      rw [insertRest, if_pos proper] at h
      obtain ⟨-, h⟩ := Exec.assert_bind_eq_throw.mp h
      rcases Exec.bind_eq_throw.mp (Exec.modify_bind_eq_throw.mp h) with thrown | ⟨_, _, -, done⟩
      · obtain ⟨same, failed⟩ := writeTile_throw thrown
        have around : Around newRoot (tile.insert chunk).samples := by
          refine ⟨⟨a, ha, b, hb, lt, least⟩, fun t ht => ?_⟩
          exact ⟨least.left.1.trans (ends t ht).1, (ends t ht).2.trans_lt least.right.2⟩
        refine ⟨_, failed, .newRoot all pass around ?_, by rw [same]⟩
        rw [same]
        dsimp only
        rw [Function.update_self]
      · cases done

theorem insertStep_regular_throw {fuel : ℕ} {p : Progress} {st : AddState} {ti : TileIndex}
    {tile : ExactTile} {rest : List (Sample V)} {chunk : Samples} {kvs : Kvs} {f : Failure} (wf : p.Wf)
    (tracks : Tracks p st kvs) (regular : Regular p.root) (pass : Pass p ti tile chunk (only rest))
    (run : (ch.splitTileIfNeeded fuel ti (tile.insert chunk) >>= ch.insertRest st ti rest) kvs =
      .throw f) :
    ∃ key, ch.FailedAt key f ∧ Interrupted ch.maxTileSize p f.left key ∧
      f.left.metainfo = kvs.metainfo := by
  have reg := pass.regular wf regular
  have free : Free kvs ti := fun i under ne => pass.free tracks under ne
  rcases Exec.bind_eq_throw.mp run with thrown | ⟨⟨newRoot, tile'⟩, kvs₁, split, h⟩
  · obtain ⟨key, failed, half⟩ := splitTileIfNeeded_throw fuel _ _ _ _ reg.lt_intMax free thrown
    exact ⟨_, failed, .halfway regular pass tracks.tiles half, half.metainfo⟩
  · obtain ⟨rfl, s, grown, rfl, rfl⟩ := splitTileIfNeeded_ret fuel _ _ _ _ _ _ reg.lt_intMax free split
    rw [insertRest, if_neg (by simp)] at h
    rcases Exec.bind_eq_throw.mp h with thrown | ⟨_, _, -, done⟩
    · obtain ⟨same, failed⟩ := writeTile_throw thrown
      refine ⟨_, failed, ?_, by rw [same]⟩
      cases s with
      | leaf a =>
          refine .leaf regular pass ?_
          rw [same, ← tracks.tiles]
          exact CellTree.placedBelow_leaf a free
      | node a l r =>
          refine .top regular pass grown ?_
          rw [same, ← tracks.tiles]
    · cases done

/-- A pass that throws leaves one of its stages behind. -/
theorem insertStep_throw {fuel : ℕ} {p : Progress} {st : AddState} {first : Sample V}
    {data : List (Sample V)} {kvs : Kvs} {f : Failure} (wf : p.Wf) (tracks : Tracks p st kvs)
    (pending : p.pending = only data) (h : ch.insertStep fuel st first data kvs = .throw f) :
    ∃ key, ch.FailedAt key f ∧ Interrupted ch.maxTileSize p f.left key ∧
      f.left.metainfo = kvs.metainfo := by
  obtain ⟨ti, tile, pass, run⟩ := insertStep_pass wf tracks pending (.throw _) h
  by_cases all : p.root = .nonnegativeAll
  · obtain ⟨rfl, -⟩ := pass.at_all wf all
    exact insertStep_all_throw wf tracks all pass run
  · exact insertStep_regular_throw wf tracks (wf.shape_node all).1 pass run

theorem insertLoop_throw {fuel : ℕ} {p : Progress} {st : AddState} {data : List (Sample V)}
    {kvs : Kvs} {f : Failure} (wf : p.Wf) (tracks : Tracks p st kvs) (pending : p.pending = only data)
    (h : ch.insertLoop fuel st data kvs = .throw f) :
    ∃ q key, Relation.ReflTransGen (LoopStep ch.maxTileSize) p q ∧ ch.FailedAt key f ∧
      Interrupted ch.maxTileSize q f.left key ∧ f.left.metainfo = kvs.metainfo := by
  induction fuel generalizing p st data kvs with
  | zero => cases h
  | succ fuel ih =>
      cases data with
      | nil => cases h
      | cons first data =>
          rcases Exec.bind_eq_throw.mp h with thrown | ⟨⟨st₁, rest⟩, kvs₁, run, h⟩
          · obtain ⟨key, failed, stage, same⟩ := insertStep_throw wf tracks pending thrown
            exact ⟨p, key, .refl, failed, stage, same⟩
          · obtain ⟨q, step, tracks₁, pending₁, root, meta₁, -⟩ := insertStep_ret wf tracks pending run
            obtain ⟨q', key, steps, failed, stage, same⟩ := ih (step.wf wf) tracks₁ pending₁ h
            exact ⟨q', key, .head ⟨step, root⟩ steps, failed, stage, same.trans meta₁⟩

end

theorem regenerateStep_throw {p : Progress} {st : AddState} {w : TileIndex} {rest : List TileIndex}
    {kvs : Kvs} {f : Failure} (wf : p.Wf) (tracks : Tracks p st kvs) (queue : st.toRegenerate = w :: rest)
    (h : ch.regenerateStep { st with toRegenerate := rest } w kvs = .throw f) :
    ch.FailedAt (.tile w) f ∧ Interrupted ch.maxTileSize p f.left (.tile w) ∧
      f.left.metainfo = kvs.metainfo := by
  have queued : w ∈ p.stale := by
    rw [← tracks.stale, queue]
    exact List.mem_cons_self
  obtain ⟨a, l, r, node⟩ := wf.stale w queued
  rw [regenerateStep] at h
  obtain ⟨left, -, h⟩ := Exec.read_bind_ends h (.throw f) (Kvs.readTile_silent _ _)
  obtain ⟨right, -, h⟩ := Exec.read_bind_ends h (.throw f) (Kvs.readTile_silent _ _)
  obtain ⟨parent, -, h⟩ := Exec.read_bind_ends h (.throw f) (createParent_silent _ _ _ _)
  rcases Exec.bind_eq_throw.mp h with thrown | ⟨_, _, -, done⟩
  · obtain ⟨same, failed⟩ := writeTile_throw thrown
    refine ⟨failed, .inner node ?_, by rw [same]⟩
    rw [same, tracks.tiles]
  · cases done

theorem regenerateLoop_throw {fuel : ℕ} {p : Progress} {st : AddState} {kvs : Kvs} {f : Failure}
    (wf : p.Wf) (tracks : Tracks p st kvs) (h : ch.regenerateLoop fuel st kvs = .throw f) :
    ∃ q key, Relation.ReflTransGen (LoopStep ch.maxTileSize) p q ∧ ch.FailedAt key f ∧
      Interrupted ch.maxTileSize q f.left key ∧ f.left.metainfo = kvs.metainfo := by
  induction fuel generalizing p st kvs with
  | zero => cases h
  | succ fuel ih =>
      cases queue : st.toRegenerate with
      | nil =>
          simp only [regenerateLoop, queue] at h
          cases h
      | cons w rest =>
          simp only [regenerateLoop, queue] at h
          rcases Exec.bind_eq_throw.mp h with thrown | ⟨st₁, kvs₁, run, h⟩
          · obtain ⟨failed, stage, same⟩ := regenerateStep_throw wf tracks queue thrown
            exact ⟨p, _, .refl, failed, stage, same⟩
          · obtain ⟨q, step, tracks₁, -, root, meta₁⟩ := regenerateStep_ret wf tracks queue run
            obtain ⟨q', key, steps, failed, stage, same⟩ := ih (step.wf wf) tracks₁ h
            exact ⟨q', key, .head ⟨step, .inr root⟩ steps, failed, stage, same.trans meta₁⟩

/-- Moving the root up touches nothing below it, and no parent of what it writes is there yet. -/
theorem moveRootLoop_throw {fuel : ℕ} {tree : TileTree} {ti newRoot root : TileIndex} {kvs : Kvs}
    {f : Failure} (above : ti.Under newRoot) (high : newRoot.level < TileIndex.intMax)
    (tiles : kvs.tiles = tree.get ti) (covers : root.Under ti)
    (h : ch.moveRootLoop tree.label newRoot fuel ti kvs = .throw f) :
    ∃ key : TileIndex, ch.FailedAt (.tile key) f ∧ ¬ key.Under root ∧ f.left.tiles key.parent = none ∧
      (∀ i : TileIndex, i.Under root → f.left.tiles i = kvs.tiles i) ∧
      f.left.metainfo = kvs.metainfo := by
  induction fuel generalizing tree ti kvs with
  | zero => cases h
  | succ fuel ih =>
      rw [moveRootLoop] at h
      split at h
      · next ne =>
          have level := above.level_le
          rw [TileIndex.sibling_eq, TileIndex.parent_eq (lt_of_le_of_lt level high)] at h
          have outside : ∀ i : TileIndex, i.Under root → i ≠ ti.twin ∧ i ≠ ti.up := by
            intro i under
            constructor
            · rintro rfl
              exact Cell.not_twin_under covers under
            · rintro rfl
              have up := (under.trans covers).level_le
              simp [Cell.up] at up
          have bare : ∀ i : TileIndex, ti.level < i.level → tree.get ti i = none := fun i lt =>
            CellTree.get_none fun under => not_le.mpr lt under.level_le
          have climb : ∀ i : TileIndex, i.up.level = i.level + 1 := fun _ => rfl
          have side : ti.twin.level = ti.level := rfl
          rcases Exec.bind_eq_throw.mp h with thrown | ⟨_, kvs₁, write₁, h⟩
          · obtain ⟨same, failed⟩ := writeTile_throw thrown
            refine ⟨ti.twin, failed, Cell.not_twin_under covers, ?_, ?_, by rw [same]⟩
            · rw [TileIndex.parent_eq (by rw [side]; exact lt_of_le_of_lt level high), same, tiles]
              exact bare _ (by rw [climb, side]; omega)
            · intro i _
              rw [same]
          obtain rfl := writeTile_ret write₁
          rcases Exec.bind_eq_throw.mp h with thrown | ⟨_, kvs₂, write₂, h⟩
          · obtain ⟨same, failed⟩ := writeTile_throw thrown
            refine ⟨ti.up, failed, fun under => (outside _ under).2 rfl, ?_, ?_, by rw [same]⟩
            · have apart : ti.up.up ≠ ti.twin := by
                intro eq
                have levels := congrArg Cell.level eq
                rw [climb, climb, side] at levels
                omega
              rw [TileIndex.parent_eq (lt_of_le_of_lt (above.up_of_ne ne).level_le high), same]
              dsimp only
              rw [Function.update_of_ne apart, tiles]
              exact bare _ (by rw [climb, climb]; omega)
            · intro i under
              rw [same]
              dsimp only
              rw [Function.update_of_ne (outside i under).1]
          obtain rfl := writeTile_ret write₂
          rw [← CellTree.label_hoist Tile.new tree.label tree ti] at h
          obtain ⟨key, failed, out, none, below, meta'⟩ := ih (above.up_of_ne ne) (by
            dsimp only
            rw [tiles, CellTree.label_hoist, CellTree.update_hoist]) (covers.trans (.up ti)) h
          refine ⟨key, failed, out, none, fun i under => ?_, meta'⟩
          rw [below i under]
          dsimp only
          rw [Function.update_of_ne (outside i under).2, Function.update_of_ne (outside i under).1]
      · cases h

theorem prepareRoot_throw {fuel : ℕ} {batch : Samples} {times : Range ℚ} {kvs : Kvs} {f : Failure}
    (usual : kvs = .absent ∨ ∃ info tree, Stored kvs info tree)
    (asc : batch.Ascending) (double : ∀ t ∈ batch.times, IsDouble t ∧ 0 ≤ t)
    (spanned : Spanned times batch)
    (h : ch.prepareRoot fuel times { kvs with metainfo := some (kvs.metainfo.getD none) } = .throw f) :
    ∃ key, ch.FailedAt key f ∧ Stops ch.maxTileSize batch kvs f.left key ∧
      f.left.metainfo = some (kvs.metainfo.getD none) := by
  obtain ⟨found, read, h⟩ := Exec.read_bind_ends h (.throw f) (Kvs.readInfo_silent _)
  rcases usual with rfl | ⟨info, tree, stored⟩
  · cases read
    rcases Exec.bind_eq_throw.mp h with thrown | ⟨_, _, -, done⟩
    · obtain ⟨same, failed⟩ := writeTile_throw thrown
      exact ⟨_, failed, .creating rfl, by rw [same]⟩
    · cases done
  · have present : some (kvs.metainfo.getD none) = kvs.metainfo := by
      rw [stored.metainfo]
      rfl
    rw [stored.locked] at read h
    rw [readInfo_stored stored.metainfo stored.magic] at read
    cases read
    have opens := Opens.old stored spanned
    have wf := opens.wf asc double
    have total := opens.spanned
    dsimp only at h
    split at h
    · next ordinary =>
        have regular := (wf.shape_node ordinary).1
        obtain ⟨newRoot, chosen, h⟩ :=
          Exec.read_bind_ends h (.throw f) (TileIndex.indexContaining_silent _ _)
        have first := wf.total_double _ total.min_mem
        have last := (wf.total_double _ total.max_mem).1
        obtain ⟨lt, least, high, -⟩ := TileIndex.indexContaining_ret first.1 last (.inl first.2) chosen
        have under := (wf.tight ordinary).under total least
        split at h
        · obtain ⟨-, h⟩ := Exec.assert_bind_ends h (.throw f)
          rcases Exec.bind_eq_throw.mp h with thrown | ⟨_, _, -, done⟩
          · obtain ⟨oldTile, got, thrown⟩ :=
              Exec.read_bind_ends thrown (.throw f) (Kvs.readTile_silent _ _)
            have label := Kvs.readTile_ret got
            rw [stored.tiles, CellTree.get_self] at label
            cases label
            obtain ⟨key, failed, out, bare, below, same⟩ := moveRootLoop_throw under
              (lt_of_le_of_lt high (by decide)) stored.tiles (.refl _) thrown
            exact ⟨_, failed, .raising stored regular out bare below, same.trans present.symm⟩
          · cases done
        · cases h
    · cases h

theorem writeInfo_throw {info : ChannelInfo} {kvs : Kvs} {f : Failure}
    (h : ch.writeInfo info kvs = .throw f) : f.left = kvs ∧ ch.FailedAt .metainfo f := by
  obtain ⟨-, h⟩ := Exec.assert_bind_ends h (.throw f)
  exact set_throw h

section
variable {V : Type} [SampleKind V] [LawfulSampleKind V]

theorem addSorted_throw {fuel : ℕ} {times : Range ℚ} {data : List (Sample V)} {kvs : Kvs} {f : Failure}
    (usual : kvs = .absent ∨ ∃ info tree, Stored kvs info tree) (asc : (only data).Ascending)
    (double : ∀ t ∈ (only data).times, IsDouble t ∧ 0 ≤ t) (spanned : Spanned times (only data))
    (h : ch.addSorted fuel times data kvs = .throw f) :
    ∃ key, ch.FailedAt key f ∧ Stops ch.maxTileSize (only data) kvs f.left key ∧
      f.left.metainfo = some (kvs.metainfo.getD none) := by
  rcases Exec.bind_eq_throw.mp h with thrown | ⟨_, kvs₁, locked, h⟩
  · cases thrown
  rw [lock_run] at locked
  cases locked
  rcases Exec.bind_eq_throw.mp h with thrown | ⟨⟨info', list⟩, kvs₂, prepared, h⟩
  · exact prepareRoot_throw usual asc double spanned thrown
  obtain ⟨p, info, q₁, opens, steps₁, pending₁, stale₁, tiles₁, rfl, how, meta₁⟩ :=
    prepareRoot_ret usual asc double spanned prepared
  have wf := opens.wf asc double
  have wf₁ := Steps.wf steps₁ wf
  have tracks₁ : Tracks q₁ ⟨q₁.root, list, none⟩ kvs₂ := ⟨rfl, stale₁.symm, tiles₁⟩
  -- whatever the loops do later, they do from `q₁` on, which is `p` if that is an all-tile
  have stops : ∀ {q key left}, Relation.ReflTransGen (LoopStep ch.maxTileSize) q₁ q →
      Interrupted ch.maxTileSize q left key → Stops ch.maxTileSize (only data) kvs left key := by
    intro q key left steps stage
    refine .working opens wf (steps₁.trans (LoopSteps.steps steps)) (fun all => ?_) stage
    rcases how with ⟨-, rfl⟩ | ⟨ne, -⟩
    · rw [← opens.pending]
      exact (LoopSteps.filled wf all steps).2
    · exact (ne all).elim
  rcases Exec.bind_eq_throw.mp h with thrown | ⟨st₂, kvs₃, inserted, h⟩
  · obtain ⟨q, key, steps, failed, stage, same⟩ := insertLoop_throw wf₁ tracks₁ pending₁ thrown
    exact ⟨key, failed, stops steps stage, same.trans meta₁⟩
  obtain ⟨q₂, steps₂, tracks₂, -, meta₂, -⟩ := insertLoop_ret wf₁ tracks₁ pending₁ inserted
  have wf₂ := Steps.wf (LoopSteps.steps steps₂) wf₁
  rcases Exec.bind_eq_throw.mp h with thrown | ⟨st₃, kvs₄, regenerated, h⟩
  · obtain ⟨q, key, steps, failed, stage, same⟩ := regenerateLoop_throw wf₂ tracks₂ thrown
    exact ⟨key, failed, stops (steps₂.trans steps) stage, same.trans (meta₂.trans meta₁)⟩
  obtain ⟨q₃, steps₃, tracks₃, -, -, meta₃⟩ := regenerateLoop_ret wf₂ tracks₂ regenerated
  rcases Exec.bind_eq_throw.mp h with thrown | ⟨_, _, -, done⟩
  · obtain ⟨same, failed⟩ := writeInfo_throw thrown
    refine ⟨_, failed, stops (steps₂.trans steps₃) (.record ?_), ?_⟩
    · rw [same, tracks₃.tiles]
    · rw [same]
      exact meta₃.trans (meta₂.trans meta₁)
  · cases done

theorem addDataInternal_throw {fuel : ℕ} {data : List (Sample V)} {kvs : Kvs} {f : Failure}
    (usual : kvs = .absent ∨ ∃ info tree, Stored kvs info tree) (asc : (only data).Ascending)
    (double : ∀ t ∈ (only data).times, IsDouble t ∧ 0 ≤ t)
    (h : ch.addDataInternal fuel data kvs = .throw f) :
    ∃ key, ch.FailedAt key f ∧ Stops ch.maxTileSize (only data) kvs f.left key ∧
      f.left.metainfo = some (kvs.metainfo.getD none) := by
  cases data with
  | nil => cases h
  | cons first rest =>
      have sorted := (ascending_only _).mp asc
      have negative : ¬ first.time < 0 := by
        refine not_lt.mpr (double _ ?_).2
        rw [times_only]
        exact List.mem_map_of_mem List.mem_cons_self
      rw [addDataInternal, if_neg negative, if_neg (not_not.mpr sorted)] at h
      exact addSorted_throw usual asc double (.of_vector sorted) h

end

theorem addData_throw {fuel : ℕ} {b : Batch} {kvs : Kvs} {f : Failure}
    (usual : kvs = .absent ∨ ∃ info tree, Stored kvs info tree) (asc : b.samples.Ascending)
    (double : ∀ t ∈ b.samples.times, IsDouble t ∧ 0 ≤ t) (h : ch.addData fuel b kvs = .throw f) :
    ∃ key, ch.FailedAt key f ∧ Stops ch.maxTileSize b.samples kvs f.left key ∧
      f.left.metainfo = some (kvs.metainfo.getD none) := by
  cases b with
  | doubles data => exact addDataInternal_throw usual asc double h
  | strings data => exact addDataInternal_throw usual asc double h

end Channel
end Mio.Datastore
