import Mio.Datastore.Complete

/-! Which batches `add_data` completes on. -/
namespace Mio.Datastore

/-- After a pass over an all-tile that held `old`: it took what lies in its interval, or it was split
around exactly that. -/
def Filled (limit : ℕ) (old batch : Samples) (p : Progress) : Prop :=
  p.root = .nonnegativeAll ∧ contents p.tree = .overwrite (batch.before doubleMax) old ∧
      p.pending = batch.since doubleMax ∧
      (Samples.overwrite (batch.before doubleMax) old).size ≤ limit ∨
    Regular p.root ∧ limit < (Samples.overwrite (batch.before doubleMax) old).size ∧
      Around p.root (.overwrite (batch.before doubleMax) old)

theorem Step.filled_first {limit : ℕ} {tile : ExactTile} {stale : List TileIndex} {batch : Samples}
    {q : Progress} (step : Step limit ⟨.nonnegativeAll, .leaf tile, stale, batch⟩ q) :
    Filled limit tile.samples batch q := by
  have ends : TileIndex.nonnegativeAll.endTime = doubleMax := TileIndex.nonnegativeAll_endTime
  cases step with
  | raise n regular tight => exact ((regular.not_all_below (n := n + 1)) rfl).elim
  | @fill _ _ chunk rest inside past fits =>
      have front : ∀ t ∈ chunk.times, t < doubleMax := fun t ht => ends ▸ (inside t ht).2
      have back : ∀ t ∈ rest.times, doubleMax ≤ t := fun t ht => ends ▸ past t ht
      refine .inl ⟨rfl, ?_, ?_, ?_⟩
      · rw [Samples.before_append front back]
        rfl
      · rw [Samples.since_append front back]
      · rw [Samples.before_append front back]
        exact fits
  | @reroot root _ s _ chunk rest inside past regular tight has grown long =>
      have front : ∀ t ∈ chunk.times, t < doubleMax := fun t ht => ends ▸ (inside t ht).2
      have back : ∀ t ∈ rest.times, doubleMax ≤ t := fun t ht => ends ▸ past t ht
      rw [Filled, Samples.before_append front back]
      exact .inr ⟨regular, long, tight, has⟩
  | insert regular leaf inside past grown => exact (regular.not_all rfl).elim
  | regenerate node combined =>
      simp only [CellTree.sub] at node
      split at node <;> cases node

theorem Filled.step {limit : ℕ} {old batch : Samples} {p q : Progress} (h : Filled limit old batch p)
    (wf : p.Wf) (asc : batch.Ascending) (step : Step limit p q)
    (root : p.root = .nonnegativeAll ∨ q.root = p.root) : Filled limit old batch q := by
  rcases h with ⟨all, held, pending, -⟩ | ⟨regular, long, around⟩
  · obtain ⟨tile, leaf⟩ := wf.shape_all all
    obtain ⟨_, _, stale, _⟩ := p
    dsimp only at all held pending leaf
    subst all leaf pending
    have first := step.filled_first
    have late : ∀ t ∈ (batch.since doubleMax).times, doubleMax ≤ t :=
      fun t ht => asc.le_of_mem_since ht
    have nothing := Samples.before_append (u := .empty) (by simp) late
    have everything := Samples.since_append (u := .empty) (by simp) late
    rw [Samples.empty_append] at nothing everything
    rw [Filled, nothing, everything, Samples.overwrite_empty_left] at first
    rw [contents] at held
    rw [held] at first
    exact first
  · have same : q.root = p.root := root.resolve_left regular.not_all
    rw [Filled, same]
    exact .inr ⟨regular, long, around⟩

namespace Channel

variable {ch : Channel}

section
variable {V : Type} [SampleKind V] [LawfulSampleKind V] {p : Progress} {st : AddState}
  {data : List (Sample V)} {kvs : Kvs}

/-- The insertion loop over an all-tile, unless it is left with samples that nothing contains. -/
theorem insertLoop_all_done (quiet : ch.Quiet) (ready : Ready ch.maxTileSize p)
    (tracks : Tracks p st kvs) (pending : p.pending = only data) (all : p.root = .nonnegativeAll)
    (last : (∀ t ∈ p.pending.times, t < doubleMax) ∨
      ch.maxTileSize < (Samples.overwrite (p.pending.before doubleMax) (contents p.tree)).size ∧
        ∃ c, Around c (.overwrite (p.pending.before doubleMax) (contents p.tree)) ∧ c.Has doubleMax) :
    ∃ st' kvs', Exec.Reaches (fun fuel => ch.insertLoop fuel st data) kvs st' kvs' := by
  cases data with
  | nil => exact ⟨st, kvs, insertLoop_nil_done st kvs⟩
  | cons first data =>
      obtain ⟨st₁, kvs₁, run⟩ := insertStep_all_done first quiet ready tracks pending all
      obtain ⟨fuel, ret⟩ := Outcome.Reaches.returns run
      obtain ⟨q, step, tracks₁, pending₁, -⟩ := insertStep_ret ready.wf tracks pending ret
      have double := ready.wf.double
      have ready₁ := ready.step step
      have back := ready₁.wf.double
      rw [pending₁] at back
      have past : ∀ t ∈ (only ((first :: data).dropWhile
          fun s => TileIndex.nonnegativeAll.containsTime s.time)).times, doubleMax ≤ t := by
        rw [← TileIndex.nonnegativeAll_endTime]
        refine only_past (pending ▸ ready.wf.ascending) fun t ht => ?_
        rw [TileIndex.nonnegativeAll_startTime]
        exact (double t (pending ▸ ht)).2
      have cut := only_chunk (first :: data) TileIndex.nonnegativeAll
      generalize (first :: data).dropWhile (fun s => TileIndex.nonnegativeAll.containsTime s.time) = rest
        at run pending₁ past back cut
      suffices ∃ st' kvs', Exec.Reaches (fun fuel => ch.insertLoop fuel st₁ rest) kvs₁ st' kvs' by
        obtain ⟨st', kvs', loop⟩ := this
        exact ⟨st', kvs', insertLoop_cons_done run loop⟩
      rcases last with before | ⟨long, c, around, has⟩
      · cases rest with
        | nil => exact ⟨st₁, kvs₁, insertLoop_nil_done st₁ kvs₁⟩
        | cons x rest =>
            have mem : x.time ∈ (only (x :: rest)).times := by
              rw [times_only]
              exact List.mem_map_of_mem List.mem_cons_self
            have low := before x.time (by rw [pending, cut]; exact Samples.mem_times_append.mpr (.inr mem))
            exact absurd low (not_lt.mpr (past x.time mem))
      · obtain ⟨tile, leaf⟩ := ready.wf.shape_all all
        obtain ⟨root, tree, stale, batch⟩ := p
        dsimp only at all leaf long around
        subst all leaf
        rcases step.filled_first with ⟨-, -, -, fits⟩ | ⟨regular, -, around'⟩
        · exact absurd fits (not_le.mpr long)
        · obtain rfl := around.unique around'
          refine insertLoop_regular_done quiet ready₁ tracks₁ pending₁ regular fun s hs => ?_
          have mem : s.time ∈ (only rest).times := by
            rw [times_only]
            exact List.mem_map_of_mem hs
          have top := le_antisymm (back s.time mem).1.le_doubleMax (past s.time mem)
          rwa [top]

end

theorem moveRootLoop_done (quiet : ch.Quiet) (tile : ExactTile) {n : ℕ} {ti : TileIndex}
    (high : (Cell.up^[n] ti).level < TileIndex.intMax) (kvs : Kvs) :
    ∃ kvs', Exec.Reaches (fun fuel => ch.moveRootLoop tile (Cell.up^[n] ti) fuel ti) kvs () kvs' := by
  induction n generalizing ti kvs with
  | zero =>
      refine ⟨kvs, .step (y := fun _ => pure ()) (fun fuel => ?_) (.of_ret fun _ => rfl)⟩
      rw [moveRootLoop, if_neg]
      exact not_not.mpr rfl
  | succ n ih =>
      have level := Cell.iter_up_level (n + 1) ti
      have ne : ti ≠ Cell.up^[n + 1] ti := by
        intro eq
        rw [← eq] at level
        omega
      have parent : ti.parent = ti.up := TileIndex.parent_eq (by rw [level] at high; omega)
      obtain ⟨kvs', loop⟩ := @ih ti.up high ⟨kvs.metainfo,
        Function.update (Function.update kvs.tiles ti.sibling (some .new)) ti.parent (some tile)⟩
      refine ⟨kvs', .step (y := fun fuel => do
        ch.writeTile ti.sibling .new
        ch.writeTile ti.parent tile
        ch.moveRootLoop tile (Cell.up^[n + 1] ti) fuel ti.parent) (fun fuel => ?_) ?_⟩
      · rw [moveRootLoop, if_pos ne]
      · refine .bind (.of_ret fun _ => set_done _ _ (quiet _ _)) ?_
        refine .bind (.of_ret fun _ => set_done _ _ (quiet _ _)) ?_
        rw [parent] at loop ⊢
        exact loop

def newKvs : Kvs := ⟨some none, Function.update Kvs.absent.tiles TileIndex.nonnegativeAll (some .new)⟩

theorem prepareRoot_new (quiet : ch.Quiet) (times : Range ℚ) :
    Exec.Reaches (fun fuel => ch.prepareRoot fuel times) { Kvs.absent with metainfo := some none }
      (⟨ChannelInfo.magicNumber, 0x00010000, times, .nonnegativeAll, .null⟩, []) newKvs := by
  refine .bind (.of_ret fun _ => Exec.read_of_ret rfl) ?_
  have created : ch.createTile .nonnegativeAll { Kvs.absent with metainfo := some none } =
      .ret ((), newKvs) := by
    rw [createTile, writeTile]
    exact set_done _ _ (quiet _ _)
  refine .bind (.of_ret fun _ => created) ?_
  exact .of_ret fun _ => rfl

theorem prepareRoot_done {kvs : Kvs} {batch : Samples} {times : Range ℚ} (quiet : ch.Quiet)
    (usual : kvs = .absent ∨ ∃ info tree, Stored kvs info tree ∧
      (info.nonnegativeRootTileIndex ≠ .nonnegativeAll → ∀ c, Around c (.overwrite batch (contents tree)) →
        info.nonnegativeRootTileIndex.level < c.level →
        c.isAncestorOf ch.wideShift info.nonnegativeRootTileIndex))
    (double : ∀ t ∈ batch.times, IsDouble t ∧ 0 ≤ t) (spanned : Spanned times batch) :
    ∃ r kvs', Exec.Reaches (fun fuel => ch.prepareRoot fuel times)
      { kvs with metainfo := some (kvs.metainfo.getD none) } r kvs' := by
  rcases usual with rfl | ⟨info, tree, stored, ancestor⟩
  · exact ⟨_, _, prepareRoot_new quiet times⟩
  · rw [stored.locked]
    have read : Outcome.Reaches (fun _ => kvs.readInfo) (some info) :=
      .of_ret fun _ => readInfo_stored stored.metainfo stored.magic
    by_cases all : info.nonnegativeRootTileIndex = .nonnegativeAll
    · refine ⟨({ info with times := info.times.add times }, []), kvs,
        .bind (.read read) (.of_ret fun _ => ?_)⟩
      dsimp only
      rw [if_neg (not_not.mpr all)]
      rfl
    · have total := stored.spanned.add spanned
      have old := stored.double
      have all_double : ∀ t ∈ (Samples.overwrite batch (contents tree)).times, IsDouble t ∧ 0 ≤ t :=
        fun t ht => (Samples.mem_times_overwrite.mp ht).elim (double t) (old t)
      have first := all_double _ total.min_mem
      have last := all_double _ total.max_mem
      have lt : (info.times.add times).min < (info.times.add times).max := by
        have := (stored.smallest all).1
        exact (min_le_left _ _).trans_lt (this.trans_le (le_max_left _ _))
      obtain ⟨newRoot, chosen⟩ := TileIndex.indexContaining_done (ε := Failure) first.1 last.1 (.inl first.2) lt
      obtain ⟨-, least, high, -⟩ := TileIndex.indexContaining_ret first.1 last.1 (.inl first.2) (chosen 2099 le_rfl)
      have around := Around.of_spanned total lt least
      by_cases moved : newRoot.level > info.nonnegativeRootTileIndex.level
      · obtain ⟨n, up⟩ : info.nonnegativeRootTileIndex.Under newRoot := by
          obtain ⟨_, small⟩ := stored.smallest all
          exact small.mono least (min_le_left _ _) (stored.smallest all).1.le (le_max_left _ _)
        have top : (Cell.up^[n] info.nonnegativeRootTileIndex).level < TileIndex.intMax := by
          rw [up]
          exact lt_of_le_of_lt high (by decide)
        obtain ⟨kvs', loop⟩ := moveRootLoop_done quiet tree.label top kvs
        rw [up] at loop
        have label : kvs.readTile info.nonnegativeRootTileIndex = .ret tree.label :=
          Kvs.readTile_of_some (by rw [stored.tiles, CellTree.get_self])
        refine ⟨(⟨info.magic, info.version, info.times.add times, newRoot, info.negativeRootTileIndex⟩,
          [info.nonnegativeRootTileIndex.parent]), kvs', .bind (.read read) ?_⟩
        simp only [ne_eq, all, not_false_eq_true, if_true]
        refine .bind (.read ⟨2099, chosen⟩) ?_
        simp only [if_pos moved]
        refine .bind (.of_ret fun _ => Exec.assert_of (ancestor all newRoot around moved) _ _) ?_
        refine .bind (.bind (.read (.of_ret fun _ => label)) loop) ?_
        exact .of_ret fun _ => rfl
      · refine ⟨({ info with times := info.times.add times }, []), kvs, .bind (.read read) ?_⟩
        simp only [ne_eq, all, not_false_eq_true, if_true]
        refine .bind (.read ⟨2099, chosen⟩) ?_
        simp only [if_neg moved]
        exact .of_ret fun _ => rfl

end Channel

theorem Opens.held {batch old : Samples} {kvs : Kvs} {p : Progress} {info : ChannelInfo}
    (h : Opens batch kvs p info) (keeps : Keeps kvs old) : contents p.tree = old := by
  cases h with
  | new spanned =>
      rcases keeps with ⟨-, rfl⟩ | ⟨info, tree, stored, -⟩
      · rfl
      · exact stored.not_absent.elim
  | old stored spanned =>
      rcases keeps with ⟨rfl, -⟩ | ⟨info, tree, stored', rfl⟩
      · exact stored.not_absent.elim
      · obtain ⟨-, rfl⟩ := stored.unique stored'
        rfl

theorem Opens.total_eq {batch old : Samples} {kvs : Kvs} {p : Progress} {info : ChannelInfo}
    (h : Opens batch kvs p info) (keeps : Keeps kvs old) : p.total = .overwrite batch old := by
  rw [Progress.total, h.pending, h.held keeps]

theorem Opens.root_eq {batch : Samples} {kvs : Kvs} {p : Progress} {info old : ChannelInfo}
    (h : Opens batch kvs p info) (has : kvs.metainfo = some (some old)) :
    p.root = old.nonnegativeRootTileIndex := by
  cases h with
  | new spanned => cases has
  | old stored spanned =>
      rw [stored.metainfo] at has
      cases has
      rfl

/-- What `add_data` needs to complete on a batch, beside the samples the channel already keeps. -/
structure Accepts (ch : Channel) (kvs : Kvs) (old batch : Samples) : Prop where
  /-- All samples of one time fit into one tile. -/
  groups : ∀ k, ((Samples.overwrite batch old).at_ k).size ≤ ch.maxTileSize
  /-- A sample at the last double lies outside the all-tile, so that a new root has to take it. -/
  last : (∀ info, kvs.metainfo = some (some info) → info.nonnegativeRootTileIndex = .nonnegativeAll) →
    (∀ t ∈ batch.times, t < doubleMax) ∨
      ch.maxTileSize < (Samples.overwrite (batch.before doubleMax) old).size ∧
        ∃ c, Around c (.overwrite (batch.before doubleMax) old) ∧ c.Has doubleMax
  /-- The shift in `is_ancestor_of` yields the old root's ancestor. -/
  ancestor : ∀ info, kvs.metainfo = some (some info) →
    info.nonnegativeRootTileIndex ≠ .nonnegativeAll → ∀ c, Around c (.overwrite batch old) →
      info.nonnegativeRootTileIndex.level < c.level →
      c.isAncestorOf ch.wideShift info.nonnegativeRootTileIndex

/-- Shifts by less than 64 do. -/
theorem ancestor_of_near {wide : ℤ → ℤ → ℤ} {root c : TileIndex} (under : root.Under c)
    (above : root.level < c.level) (near : c.level - root.level < 64) : c.isAncestorOf wide root := by
  refine ⟨above, ?_⟩
  have shift := (Cell.under_iff.mp under).2
  rw [TileIndex.shiftRight, if_pos near, Int.shiftRight_eq_div_pow, ← shift]
  norm_cast

namespace Channel

variable {ch : Channel} {V : Type} [SampleKind V] [LawfulSampleKind V]

theorem insertLoop_filled {fuel : ℕ} {p : Progress} {st st' : AddState} {data : List (Sample V)}
    {kvs kvs' : Kvs} {old batch : Samples} (wf : p.Wf) (tracks : Tracks p st kvs)
    (pending : p.pending = only data) (asc : batch.Ascending)
    (filled : Filled ch.maxTileSize old batch p)
    (h : ch.insertLoop fuel st data kvs = .ret (st', kvs')) :
    ∃ q, q.Wf ∧ q.total = p.total ∧ q.pending = .empty ∧ Filled ch.maxTileSize old batch q := by
  induction fuel generalizing p st data kvs with
  | zero => cases h
  | succ fuel ih =>
      cases data with
      | nil =>
          cases h
          exact ⟨p, wf, rfl, pending.trans only_nil, filled⟩
      | cons first data =>
          obtain ⟨⟨st₁, rest⟩, kvs₁, run, h⟩ := Exec.bind_eq_ret.mp h
          obtain ⟨q, step, tracks₁, pending₁, root, -⟩ := insertStep_ret wf tracks pending run
          obtain ⟨q', wf', total, done, filled'⟩ := ih (step.wf wf) tracks₁ pending₁
            (filled.step wf asc step root) h
          exact ⟨q', wf', total.trans (step.total_eq wf), done, filled'⟩

/-- The insertion loop got past a sample at the last double only below a new root. -/
theorem insertLoop_last {fuel : ℕ} {p : Progress} {st st' : AddState} {data : List (Sample V)}
    {kvs kvs' : Kvs} (wf : p.Wf) (tracks : Tracks p st kvs) (pending : p.pending = only data)
    (all : p.root = .nonnegativeAll) (some : data ≠ [])
    (h : ch.insertLoop fuel st data kvs = .ret (st', kvs')) :
    (∀ t ∈ p.pending.times, t < doubleMax) ∨
      ch.maxTileSize < (Samples.overwrite (p.pending.before doubleMax) (contents p.tree)).size ∧
        ∃ c, Around c (.overwrite (p.pending.before doubleMax) (contents p.tree)) ∧ c.Has doubleMax := by
  obtain ⟨tile, leaf⟩ := wf.shape_all all
  obtain ⟨root, tree, stale, batch⟩ := p
  dsimp only at all leaf
  subst all leaf
  obtain ⟨s, rest, rfl⟩ := List.exists_cons_of_ne_nil some
  cases fuel with
  | zero => cases h
  | succ fuel =>
      obtain ⟨⟨st₁, rest⟩, kvs₁, run, loop⟩ := Exec.bind_eq_ret.mp h
      obtain ⟨q, step, tracks₁, pending₁, -⟩ := insertStep_ret wf tracks pending run
      obtain ⟨q', wf', total, done, filled⟩ :=
        insertLoop_filled (step.wf wf) tracks₁ pending₁ wf.ascending step.filled_first loop
      by_cases before : ∀ t ∈ batch.times, t < doubleMax
      · exact .inl before
      · right
        push Not at before
        obtain ⟨t, mem, late⟩ := before
        have top : t = doubleMax := le_antisymm (wf.double t mem).1.le_doubleMax late
        rcases filled with ⟨-, -, none, -⟩ | ⟨regular, long, around⟩
        · rw [done] at none
          have early := (Samples.mem_times_split doubleMax).mp mem
          rw [← none, Samples.times_empty] at early
          exact absurd late (not_le.mpr (Samples.lt_of_mem_before (early.resolve_right (by simp))))
        · refine ⟨long, q'.root, around, ?_⟩
          rw [step.total_eq wf, Progress.total, done, Samples.overwrite_empty_left] at total
          rw [← top]
          refine contents_has (wf'.leaves_has regular) t ?_
          rw [total, Progress.total, Samples.mem_times_overwrite]
          exact .inl mem

/-- What a returning call has asserted, or would not have got past. -/
theorem addSorted_accepts {fuel : ℕ} {times : Range ℚ} {data : List (Sample V)} {kvs kvs' : Kvs}
    {old : Samples} {r : Option (DataRanges ℚ)} (keeps : Keeps kvs old) (asc : (only data).Ascending)
    (double : ∀ t ∈ (only data).times, IsDouble t ∧ 0 ≤ t) (spanned : Spanned times (only data))
    (some : data ≠ []) (groups : ∀ k, ((Samples.overwrite (only data) old).at_ k).size ≤ ch.maxTileSize)
    (h : ch.addSorted fuel times data kvs = .ret (r, kvs')) : Accepts ch kvs old (only data) := by
  obtain ⟨_, kvs₁, locked, h⟩ := Exec.bind_eq_ret.mp h
  rw [lock_run] at locked
  cases locked
  obtain ⟨⟨info', list⟩, kvs₂, prepared, h⟩ := Exec.bind_eq_ret.mp h
  obtain ⟨p, info, q, opens, steps, pending, stale, tiles, rfl, root, -⟩ :=
    prepareRoot_ret keeps.usual asc double spanned prepared
  obtain ⟨st, kvs₃, inserted, -⟩ := Exec.bind_eq_ret.mp h
  have wf := opens.wf asc double
  refine ⟨groups, fun first => ?_, fun info has ne c around lower => ?_⟩
  · have all : p.root = .nonnegativeAll := by
      cases opens with
      | new spanned => rfl
      | old stored spanned => exact first _ stored.metainfo
    rcases root with ⟨-, same⟩ | ⟨ne, -⟩
    · have tracks : Tracks q ⟨q.root, list, none⟩ kvs₂ := ⟨rfl, stale.symm, tiles⟩
      rw [same] at tracks inserted
      have last := insertLoop_last wf tracks opens.pending all some inserted
      rwa [opens.pending, opens.held keeps] at last
    · exact (ne all).elim
  · have same := opens.root_eq has
    rcases root with ⟨all, -⟩ | ⟨-, around', ancestor⟩
    · exact (ne (same ▸ all)).elim
    · rw [opens.total_eq keeps] at around'
      obtain rfl := around.unique around'
      rw [← same] at lower ⊢
      exact ancestor lower

theorem addSorted_done {times : Range ℚ} {data : List (Sample V)} {kvs : Kvs} {old : Samples}
    (quiet : ch.Quiet) (keeps : (kvs = .absent ∧ old = .empty) ∨ ∃ info tree, Stored kvs info tree ∧
      contents tree = old ∧ tree.EachLabel (fun i a => Sound (0 < ·) i a.samples) info.nonnegativeRootTileIndex)
    (asc : (only data).Ascending) (double : ∀ t ∈ (only data).times, IsDouble t ∧ 0 ≤ t)
    (spanned : Spanned times (only data)) (weights : ∀ w ∈ (only data).weights, 0 < w)
    (accepts : Accepts ch kvs old (only data)) :
    ∃ r kvs', Exec.Reaches (fun fuel => ch.addSorted fuel times data) kvs r kvs' := by
  have kept : Keeps kvs old := keeps.imp_right fun ⟨info, tree, stored, same, _⟩ => ⟨info, tree, stored, same⟩
  have roots : kvs = .absent ∨ ∃ info tree, Stored kvs info tree ∧
      (info.nonnegativeRootTileIndex ≠ .nonnegativeAll → ∀ c,
        Around c (.overwrite (only data) (contents tree)) →
        info.nonnegativeRootTileIndex.level < c.level →
        c.isAncestorOf ch.wideShift info.nonnegativeRootTileIndex) := by
    rcases kept with ⟨none, -⟩ | ⟨info, tree, stored, rfl⟩
    · exact .inl none
    · exact .inr ⟨info, tree, stored, fun ne => accepts.ancestor info stored.metainfo ne⟩
  obtain ⟨⟨info', list⟩, kvs₁, prepared⟩ := prepareRoot_done quiet roots double spanned
  obtain ⟨fuel, ret⟩ := Outcome.Reaches.returns prepared
  obtain ⟨p, info, q, opens, steps, pending, stale, tiles, rfl, root, -⟩ :=
    prepareRoot_ret kept.usual asc double spanned ret
  have ready : Ready ch.maxTileSize p := by
    refine ⟨opens.wf asc double, ⟨?_, by rw [opens.pending]; exact weights⟩, ?_⟩
    · cases opens with
      | new spanned => exact CellTree.eachLabel_leaf.mpr (.empty _ _)
      | old stored spanned =>
          rcases keeps with ⟨rfl, -⟩ | ⟨info, tree, stored', -, labels⟩
          · exact stored.not_absent.elim
          · obtain ⟨rfl, rfl⟩ := stored.unique stored'
            exact labels
    · rw [opens.total_eq kept]
      exact accepts.groups
  have ready₁ := Ready.steps steps ready
  have tracks : Tracks q ⟨q.root, list, none⟩ kvs₁ := ⟨rfl, stale.symm, tiles⟩
  obtain ⟨st₂, kvs₂, inserted⟩ :
      ∃ st kvs', Exec.Reaches (fun fuel => ch.insertLoop fuel ⟨q.root, list, none⟩ data) kvs₁ st kvs' := by
    rcases root with ⟨all, rfl⟩ | ⟨ne, around, -⟩
    · refine insertLoop_all_done quiet ready₁ tracks pending all ?_
      rw [opens.pending, opens.held kept]
      refine accepts.last fun info has => ?_
      rw [← opens.root_eq has, all]
    · have regular : Regular q.root := Steps.regular_root steps (ready.wf.shape_node ne).1
      refine insertLoop_regular_done quiet ready₁ tracks pending regular fun s hs => around.2 _ ?_
      rw [opens.total_eq kept, Samples.mem_times_overwrite, times_only]
      exact .inl (List.mem_map_of_mem hs)
  obtain ⟨fuel₂, ret₂⟩ := Outcome.Reaches.returns inserted
  obtain ⟨q₂, loop₂, tracks₂, -⟩ := insertLoop_ret ready₁.wf tracks pending ret₂
  have steps₂ := LoopSteps.steps loop₂
  have ready₂ := Ready.steps steps₂ ready₁
  obtain ⟨st₃, kvs₃, regenerated⟩ := regenerateLoop_done quiet ready₂ tracks₂
  obtain ⟨fuel₃, ret₃⟩ := Outcome.Reaches.returns regenerated
  obtain ⟨q₃, loop₃, tracks₃, -⟩ := regenerateLoop_ret ready₂.wf tracks₂ ret₃
  have steps₃ := LoopSteps.steps loop₃
  have proper : ¬ st₃.root.isNull := by
    rw [tracks₃.root]
    rcases (Steps.wf steps₃ ready₂.wf).shape with ⟨all, -⟩ | ⟨regular, -⟩
    · rw [all]
      decide
    · exact regular.not_null
  refine ⟨st₃.channelRanges, ⟨some (some ⟨info.magic, info.version, info.times, st₃.root,
    info.negativeRootTileIndex⟩), kvs₃.tiles⟩, .bind (.of_ret fun _ => lock_run kvs) ?_⟩
  refine .bind prepared (.bind inserted (.bind regenerated ?_))
  refine .bind (.bind (.of_ret fun _ => Exec.assert_of proper _ _) (.of_ret fun _ => set_done _ _ (quiet _ _))) ?_
  exact .of_ret fun _ => rfl

omit [LawfulSampleKind V] in
theorem addDataInternal_sorted (fuel : ℕ) {first : Sample V} {rest : List (Sample V)}
    (nonneg : 0 ≤ first.time) (sorted : Ascending DataSample.time (first :: rest)) :
    ch.addDataInternal fuel (first :: rest) =
      ch.addSorted fuel ⟨first.time, ((first :: rest).getLast (by simp)).time⟩ (first :: rest) := by
  rw [addDataInternal, if_neg (not_lt.mpr nonneg), if_neg (not_not.mpr sorted)]

theorem addDataInternal_done {data : List (Sample V)} {kvs : Kvs} {old : Samples} (quiet : ch.Quiet)
    (keeps : (kvs = .absent ∧ old = .empty) ∨ ∃ info tree, Stored kvs info tree ∧ contents tree = old ∧
      tree.EachLabel (fun i a => Sound (0 < ·) i a.samples) info.nonnegativeRootTileIndex)
    (asc : (only data).Ascending) (double : ∀ t ∈ (only data).times, IsDouble t ∧ 0 ≤ t)
    (weights : ∀ w ∈ (only data).weights, 0 < w) (accepts : Accepts ch kvs old (only data)) :
    ∃ r kvs', Exec.Reaches (fun fuel => ch.addDataInternal fuel data) kvs r kvs' := by
  cases data with
  | nil => exact ⟨none, kvs, .of_ret fun _ => rfl⟩
  | cons first rest =>
      have ascending := (ascending_only _).mp asc
      have start : 0 ≤ first.time := (double _ (by rw [times_only]; exact List.mem_cons_self)).2
      simp only [addDataInternal_sorted _ start ascending]
      exact addSorted_done quiet keeps asc double (Spanned.of_vector ascending) weights accepts

theorem addDataInternal_accepts {fuel : ℕ} {data : List (Sample V)} {kvs kvs' : Kvs} {old : Samples}
    {r : Option (DataRanges ℚ)} (keeps : Keeps kvs old) (empty : Accepts ch kvs old .empty)
    (asc : (only data).Ascending) (double : ∀ t ∈ (only data).times, IsDouble t ∧ 0 ≤ t)
    (groups : ∀ k, ((Samples.overwrite (only data) old).at_ k).size ≤ ch.maxTileSize)
    (h : ch.addDataInternal fuel data kvs = .ret (r, kvs')) : Accepts ch kvs old (only data) := by
  cases data with
  | nil => rwa [only_nil]
  | cons first rest =>
      have ascending := (ascending_only _).mp asc
      have start : 0 ≤ first.time := (double _ (by rw [times_only]; exact List.mem_cons_self)).2
      rw [addDataInternal_sorted fuel start ascending] at h
      exact addSorted_accepts keeps asc double (Spanned.of_vector ascending) (List.cons_ne_nil _ _) groups h

/-- The first call on a channel, when its batch splits the all-tile: whatever the weights are, it
completes once the tree it makes exists. -/
theorem addDataInternal_splits {first : Sample V} {rest : List (Sample V)} {root : TileIndex}
    {s : TileTree} (quiet : ch.Quiet) (asc : (only (first :: rest)).Ascending)
    (double : ∀ t ∈ (only (first :: rest)).times, IsDouble t ∧ 0 ≤ t)
    (inside : ∀ x ∈ first :: rest, TileIndex.nonnegativeAll.containsTime x.time)
    (long : ch.maxTileSize < (Tile.new.insert (only (first :: rest))).binaryLength)
    (around : Around root (only (first :: rest))) (regular : Regular root)
    (grown : Grown ch.maxTileSize root (Tile.new.insert (only (first :: rest))) s) :
    ∃ r info kvs, Exec.Reaches (fun fuel => ch.addDataInternal fuel (first :: rest)) .absent r kvs ∧
      kvs.metainfo = some (some info) ∧ info.nonnegativeRootTileIndex = root ∧
      kvs.tiles root = some s.label := by
  have sorted := (ascending_only _).mp asc
  have start : 0 ≤ first.time := (double _ (by rw [times_only]; exact List.mem_cons_self)).2
  have held : (Tile.new.insert (only (first :: rest))).samples = only (first :: rest) := by
    rw [Tile.samples_insert, Tile.samples_new, Samples.overwrite_empty_right]
  have merged : (Tile.new.insert (only (first :: rest))).samples.Ascending := by rwa [held]
  have chosen := Tile.indexContaining_around (ε := Failure) merged (by rwa [held]) (by rwa [held])
  have free : Free newKvs root := by
    refine .of_only_all regular fun i ne => ?_
    exact Function.update_of_ne ne _ _
  have whole : (first :: rest).takeWhile (fun x => TileIndex.nonnegativeAll.containsTime x.time) =
      first :: rest := List.takeWhile_eq_self_iff.mpr fun x mem => decide_eq_true (inside x mem)
  have none_left : (first :: rest).dropWhile (fun x => TileIndex.nonnegativeAll.containsTime x.time) = [] :=
    List.dropWhile_eq_nil_iff.mpr fun x mem => decide_eq_true (inside x mem)
  have split := splitAll_done long merged chosen regular grown (quiet.below root) free
  rw [← whole] at split
  have stored : newKvs.tiles .nonnegativeAll = some Tile.new := by simp [newKvs]
  have proper : root ≠ .null := fun null => regular.not_null (TileIndex.isNull_iff.mpr null)
  have step := insertStep_move ⟨.nonnegativeAll, [], none⟩ quiet
    (newKvs.findLowest_all first.time) stored sorted split proper
  rw [none_left, AddState.changed, if_pos rfl] at step
  have named : ¬ TileIndex.isNull root := regular.not_null
  simp only [addDataInternal_sorted _ start sorted]
  let times : Range ℚ := ⟨first.time, ((first :: rest).getLast (by simp)).time⟩
  refine ⟨some s.label.ranges, ⟨ChannelInfo.magicNumber, 0x00010000, times, root, .null⟩, ⟨some (some _), Function.update
    (Function.update (s.placedBelow root newKvs.tiles) TileIndex.nonnegativeAll none) root (some s.label)⟩,
    ?_, rfl, rfl, Function.update_self ..⟩
  refine .bind (.of_ret fun _ => lock_run _) (.bind (prepareRoot_new quiet _) ?_)
  refine .bind (insertLoop_cons_done step (insertLoop_nil_done _ _)) ?_
  refine .bind (.step (y := fun _ => pure _) (fun _ => rfl) (.of_ret fun _ => rfl)) ?_
  refine .bind (.bind (.of_ret fun _ => Exec.assert_of named _ _) (.of_ret fun _ => set_done _ _ (quiet _ _))) ?_
  exact .of_ret fun _ => rfl

end Channel

/-- With one sample a time, no time needs more room than one sample. -/
theorem Samples.size_at_of_apart {u : Samples} (strings : u.strings = [])
    (apart : u.doubles.Pairwise fun x y => x.time < y.time) (k : ℚ) : (u.at_ k).size ≤ 80 := by
  have one : (u.doubles.filter (·.time = k)).length ≤ 1 := by
    have pairs := apart.filter fun s => decide (s.time = k)
    have all : ∀ s ∈ u.doubles.filter (·.time = k), s.time = k := fun s hs => by
      simpa using (List.mem_filter.mp hs).2
    generalize u.doubles.filter (·.time = k) = l at pairs all
    match l with
    | [] => exact Nat.zero_le 1
    | [_] => exact le_rfl
    | x :: y :: l =>
        have lt := (List.pairwise_cons.mp pairs).1 y List.mem_cons_self
        rw [all x List.mem_cons_self, all y (List.mem_cons_of_mem _ List.mem_cons_self)] at lt
        exact (lt_irrefl _ lt).elim
  have none : (u.strings.filter (·.time = k)) = [] := by rw [strings]; rfl
  have empty : Tile.writeStringLength (Tile.text ([] : List (Sample Text))).length = 4 := rfl
  rw [at_, size, none]
  simp only [empty, List.length_nil]
  omega

def Batch.pair : Batch := .doubles [⟨1, 1, 1, 0⟩, ⟨2, 1, 1, 0⟩]

def Channel.narrow : Channel := { maxTileSize := 80 }

namespace Batch

theorem mem_times_pair {t : ℚ} : t ∈ pair.samples.times ↔ t = 1 ∨ t = 2 := by
  simp [pair, samples, times_only]

theorem finite_pair : pair.FiniteTimes := by
  intro t ht
  rcases mem_times_pair.mp ht with rfl | rfl
  · exact_mod_cast IsDouble.of_nat (n := 1) (by norm_num)
  · exact_mod_cast IsDouble.of_nat (n := 2) (by norm_num)

theorem sorted_pair : pair.samples.Ascending := by
  refine ⟨?_, .nil⟩
  decide

theorem nonneg_pair : ∀ t ∈ pair.samples.times, 0 ≤ t := by
  intro t ht
  rcases mem_times_pair.mp ht with rfl | rfl <;> norm_num

theorem weights_pair : ∀ x ∈ [] ++ [pair], ∀ w ∈ x.samples.weights, 0 < w := by
  simp [pair, samples, weights_only]

theorem around_pair : Around ⟨2, 0⟩ pair.samples := by
  have one : Cell.Has ⟨2, 0⟩ 1 := by norm_num [Cell.Has, Cell.start, Cell.stop, Cell.width]
  have two : Cell.Has ⟨2, 0⟩ 2 := by norm_num [Cell.Has, Cell.start, Cell.stop, Cell.width]
  refine ⟨⟨1, mem_times_pair.mpr (.inl rfl), 2, mem_times_pair.mpr (.inr rfl), by norm_num,
    one, two, fun d d1 d2 => ?_⟩, fun t ht => ?_⟩
  · by_contra low
    have first : Cell.Has ⟨1, 0⟩ 1 := by norm_num [Cell.Has, Cell.start, Cell.stop, Cell.width]
    have under : d.Under ⟨1, 0⟩ := Cell.under_of_has d1 first (Int.lt_add_one_iff.mp (not_le.mp low))
    have second := (under.has d2).2
    norm_num [Cell.stop, Cell.width] at second
  · rcases mem_times_pair.mp ht with rfl | rfl
    · exact one
    · exact two

theorem accepts_pair {ch : Channel} (room : 80 ≤ ch.maxTileSize) :
    Accepts ch .absent (history []) pair.samples := by
  refine ⟨fun k => ?_, fun _ => .inl fun t ht => ?_, fun info has => by cases has⟩
  · refine le_trans ?_ room
    have whole : Samples.overwrite pair.samples (history []) = pair.samples :=
      Samples.overwrite_empty_right _
    rw [whole]
    exact Samples.size_at_of_apart rfl (by decide) k
  · rcases mem_times_pair.mp ht with rfl | rfl
    · exact_mod_cast nat_lt_doubleMax (n := 1) (by norm_num)
    · exact_mod_cast nat_lt_doubleMax (n := 2) (by norm_num)

end Batch

theorem groups_of_leaves {limit : ℕ} {t : TileTree} {c : Cell}
    (has : t.EachLeaf (fun i a => ∀ x ∈ a.samples.times, i.Has x) c)
    (fits : t.EachLeaf (fun _ a => a.binaryLength ≤ limit) c) (k : ℚ) :
    ((contents t).at_ k).size ≤ limit := by
  induction t generalizing c with
  | leaf a => exact (Samples.size_at_le _ k).trans (CellTree.eachLeaf_leaf.mp fits)
  | node a l r ihl ihr =>
      obtain ⟨hasL, hasR⟩ := CellTree.eachLeaf_node.mp has
      obtain ⟨fitsL, fitsR⟩ := CellTree.eachLeaf_node.mp fits
      rw [contents, Samples.at_append]
      rcases lt_or_ge k c.hi.start with lt | ge
      · have none : (contents r).at_ k = .empty :=
          Samples.at_of_not_mem fun mem => not_le.mpr lt (contents_has hasR k mem).1
        rw [none, Samples.append_empty]
        exact ihl hasL fitsL
      · have none : (contents l).at_ k = .empty := by
          refine Samples.at_of_not_mem fun mem => not_lt.mpr ge ?_
          rw [← Cell.lo_stop]
          exact (contents_has hasL k mem).2
        rw [none, Samples.empty_append]
        exact ihr hasR fitsR

namespace Runs

variable {ch : Channel} {bs : List Batch} {kvs : Kvs} {b : Batch}

theorem groups (run : Runs ch bs kvs) (room : Samples.empty.size ≤ ch.maxTileSize) (k : ℚ) :
    ((history bs).at_ k).size ≤ ch.maxTileSize := by
  rcases run.settled with ⟨-, none⟩ | ⟨info, tree, stored, -, fits⟩
  · rw [none]
    exact room
  have same := stored.kept run.contents_eq
  rw [← same]
  rcases stored.wf.shape with ⟨all, tile, leaf⟩ | ⟨regular, -⟩
  · dsimp only at leaf
    subst leaf
    exact (Samples.size_at_le _ k).trans (CellTree.eachLeaf_leaf.mp fits)
  · exact groups_of_leaves (stored.wf.leaves_has regular) fits k

theorem accepts_empty (run : Runs ch bs kvs) (room : Samples.empty.size ≤ ch.maxTileSize) :
    Accepts ch kvs (history bs) .empty := by
  refine ⟨run.groups room, fun _ => .inl (by simp), fun info has ne c around lower => ?_⟩
  rcases run.contents_eq with ⟨rfl, -⟩ | ⟨info', tree, stored, same⟩
  · cases has
  rw [stored.metainfo] at has
  cases has
  rw [Samples.overwrite_empty_left, ← same] at around
  rw [around.unique (stored.around ne)] at lower
  exact (lt_irrefl _ lower).elim

/-- With positive weights every tile is sound, so that all combinations succeed. -/
theorem keeps_sound (run : Runs ch bs kvs) (weights : ∀ b ∈ bs, ∀ w ∈ b.samples.weights, 0 < w) :
    (kvs = .absent ∧ history bs = .empty) ∨ ∃ info tree, Stored kvs info tree ∧
      contents tree = history bs ∧
      tree.EachLabel (fun i a => Sound (0 < ·) i a.samples) info.nonnegativeRootTileIndex := by
  rcases run.contents_eq with none | ⟨info, tree, stored, same⟩
  · exact .inl none
  have labels := stored.kept (run.sound (W := (0 < ·)) (fun _ w => w) (fun _ w => le_of_lt w) weights)
  exact .inr ⟨info, tree, stored, same, labels⟩

theorem completes (run : Runs ch bs kvs) (quiet : ch.Quiet)
    (weights : ∀ x ∈ bs ++ [b], ∀ w ∈ x.samples.weights, 0 < w) (finite : b.FiniteTimes)
    (sorted : b.samples.Ascending) (nonneg : ∀ t ∈ b.samples.times, 0 ≤ t)
    (accepts : Accepts ch kvs (history bs) b.samples) :
    ∃ r kvs', Exec.Reaches (fun fuel => ch.addData fuel b) kvs r kvs' := by
  have keeps := run.keeps_sound fun x hx => weights x (List.mem_append_left _ hx)
  have new := weights b (List.mem_append_right _ (List.mem_singleton_self b))
  have double : ∀ t ∈ b.samples.times, IsDouble t ∧ 0 ≤ t := fun t ht => ⟨finite t ht, nonneg t ht⟩
  cases b with
  | doubles data => exact Channel.addDataInternal_done quiet keeps sorted double new accepts
  | strings data => exact Channel.addDataInternal_done quiet keeps sorted double new accepts

theorem accepts_of_ret {fuel : ℕ} {kvs' : Kvs} {r : Option (DataRanges ℚ)} (run : Runs ch bs kvs)
    (room : Samples.empty.size ≤ ch.maxTileSize) (finite : b.FiniteTimes) (sorted : b.samples.Ascending)
    (nonneg : ∀ t ∈ b.samples.times, 0 ≤ t) (h : ch.addData fuel b kvs = .ret (r, kvs')) :
    Accepts ch kvs (history bs) b.samples := by
  have groups := (Runs.add run finite h).groups room
  rw [history_add] at groups
  have double : ∀ t ∈ b.samples.times, IsDouble t ∧ 0 ≤ t := fun t ht => ⟨finite t ht, nonneg t ht⟩
  cases b with
  | doubles data =>
      exact Channel.addDataInternal_accepts run.contents_eq (run.accepts_empty room) sorted double groups h
  | strings data =>
      exact Channel.addDataInternal_accepts run.contents_eq (run.accepts_empty room) sorted double groups h

/-- `add_data` completes on a sorted batch when all weights are positive, the samples of every time fit
into one tile, the last double is not left outside the all-tile, and the root's ancestor is recognised.
But for the weights this is needed too: a weight that is not positive only matters to a combination. -/
theorem completes_when_accepts (run : Runs ch bs kvs) (quiet : ch.Quiet)
    (room : Samples.empty.size ≤ ch.maxTileSize) (finite : b.FiniteTimes)
    (sorted : b.samples.Ascending) (nonneg : ∀ t ∈ b.samples.times, 0 ≤ t) :
    ((∀ x ∈ bs ++ [b], ∀ w ∈ x.samples.weights, 0 < w) ∧ Accepts ch kvs (history bs) b.samples →
        ∃ r kvs', Exec.Reaches (fun fuel => ch.addData fuel b) kvs r kvs') ∧
      ((∃ r kvs', Exec.Reaches (fun fuel => ch.addData fuel b) kvs r kvs') →
        Accepts ch kvs (history bs) b.samples) := by
  constructor
  · rintro ⟨weights, accepts⟩
    exact run.completes quiet weights finite sorted nonneg accepts
  · rintro ⟨r, kvs', reaches⟩
    obtain ⟨fuel, ret⟩ := Outcome.Reaches.returns reaches
    exact run.accepts_of_ret room finite sorted nonneg ret

/-- The default tile size has room for two samples, so that they go in. -/
theorem completes_when_accepts_pair :
    (∃ r kvs', Exec.Reaches (fun fuel => ({} : Channel).addData fuel .pair) .absent r kvs') ∧
      Accepts {} .absent (history []) Batch.pair.samples := by
  have accepts : Accepts {} .absent (history []) Batch.pair.samples := Batch.accepts_pair (by decide)
  refine ⟨?_, accepts⟩
  exact (completes_when_accepts .absent (fun _ _ => rfl) (by decide) Batch.finite_pair
    Batch.sorted_pair Batch.nonneg_pair).1 ⟨Batch.weights_pair, accepts⟩

/-- A text as long as a tile may be is too long for a tile, and no split makes it shorter. -/
theorem long_text {text : Text} (long : channelMaxTileSize ≤ text.length) :
    Runs {} [] .absent ∧ (Batch.strings [⟨0, text, 1, 0⟩]).samples.Ascending ∧
      ¬ ∃ r kvs', Exec.Reaches (fun fuel => ({} : Channel).addData fuel (.strings [⟨0, text, 1, 0⟩]))
        .absent r kvs' := by
  refine ⟨.absent, ⟨.nil, List.pairwise_singleton _ _⟩, ?_⟩
  rintro ⟨r, kvs', reaches⟩
  obtain ⟨fuel, ret⟩ := Outcome.Reaches.returns reaches
  have finite : (Batch.strings [⟨0, text, 1, 0⟩]).FiniteTimes := by
    intro t ht
    obtain rfl : t = 0 := by simpa [Batch.samples, times_only] using ht
    exact_mod_cast IsDouble.of_nat (n := 0) (by norm_num)
  have short := (Runs.add .absent finite ret).groups (by decide) 0
  have held : ((history ([] ++ [.strings [⟨0, text, 1, 0⟩]])).at_ 0).strings = [⟨0, text, 1, 0⟩] := rfl
  have whole : text.length ≤ (Tile.text [(⟨0, text, 1, 0⟩ : Sample Text)]).length := by
    simp [Tile.text]
  have limit : ({} : Channel).maxTileSize = channelMaxTileSize := rfl
  rw [Samples.size, held, Tile.writeStringLength, limit] at short
  omega

/-- A single string of a mebibyte. -/
theorem mebibyte_never_completes :
    Runs {} [] .absent ∧
      (Batch.strings [⟨0, List.replicate 1048576 65, 1, 0⟩]).samples.Ascending ∧
      ¬ ∃ r kvs', Exec.Reaches (fun fuel => ({} : Channel).addData fuel
        (.strings [⟨0, List.replicate 1048576 65, 1, 0⟩])) .absent r kvs' :=
  long_text (le_of_eq List.length_replicate.symm)

/-- Two samples that do not fit into one tile end up below their smallest common cell. -/
theorem narrow_pair : ∃ kvs info tree, Runs .narrow [.pair] kvs ∧ Stored kvs info tree ∧
    contents tree = Batch.pair.samples ∧ info.nonnegativeRootTileIndex = ⟨2, 0⟩ := by
  have start : Runs .narrow [] .absent := .absent
  obtain ⟨r, kvs, reaches⟩ := start.completes (fun _ _ => rfl) Batch.weights_pair
    Batch.finite_pair Batch.sorted_pair Batch.nonneg_pair (Batch.accepts_pair (by decide))
  obtain ⟨fuel, ret⟩ := Outcome.Reaches.returns reaches
  have run := Runs.add .absent Batch.finite_pair ret
  obtain ⟨info, tree, stored, same, ne⟩ := run.beyond_all (by decide)
    fun none => List.cons_ne_nil _ _ (congrArg Samples.doubles none)
  refine ⟨kvs, info, tree, run, stored, same, ?_⟩
  have around := stored.around ne
  rw [same] at around
  exact around.unique Batch.around_pair

end Runs

end Mio.Datastore
