import Mio.Lib.Triple
import Mio.Datastore.Moments
import Mio.Datastore.Accepts

/-! What subsampling keeps of the samples below a tile. -/
namespace Mio.Datastore

/-- The double samples of all stored tiles have the property. -/
def Kvs.Each (G : Sample ℚ → Prop) (kvs : Kvs) : Prop :=
  ∀ ti tile, kvs.tiles ti = some tile → ∀ s ∈ tile.doubleSamples, G s

/-- Averages of such samples are such samples. -/
def Averages (G : Sample ℚ → Prop) : Prop :=
  ∀ {n : ℕ} {ti : TileIndex} {l r p : List (Sample ℚ)}, (∀ s ∈ l ++ r, G s) →
    (combineSamples n ti l r : Outcome Failure _) = .ret p → ∀ s ∈ p, G s

/-- Code that keeps the property, also in the stores that its exceptions leave behind. -/
def KeepsEach (G : Sample ℚ → Prop) {α : Type} (x : ChannelM α) (Q : α → Prop) : Prop :=
  Exec.Triple (Kvs.Each G) x (fun a kvs => kvs.Each G ∧ Q a) fun f => f.left.Each G

namespace KeepsEach

variable {G : Sample ℚ → Prop} {α β : Type} {x : ChannelM α} {Q : α → Prop}

theorem pure (a : α) (h : Q a) : KeepsEach G (Pure.pure a) Q :=
  Exec.Triple.pure a fun _ hs => ⟨hs, h⟩

theorem timeout : KeepsEach G (Exec.timeout : ChannelM α) Q := Exec.Triple.timeout

theorem modify {f : Kvs → Kvs} (h : ∀ kvs, kvs.Each G → (f kvs).Each G) :
    KeepsEach G (Exec.modify f) fun _ => True :=
  Exec.Triple.modify fun kvs hs => ⟨h kvs hs, trivial⟩

theorem get : KeepsEach G Exec.get fun _ => True :=
  Exec.Triple.get.weaken fun _ _ hs => ⟨hs, trivial⟩

theorem throw {e : Kvs → Failure} (h : ∀ kvs, kvs.Each G → (e kvs).left.Each G) :
    KeepsEach G (Exec.throw e : ChannelM α) Q := Exec.Triple.throw h

theorem ite {p : Prop} [Decidable p] {y : ChannelM α} (yes : p → KeepsEach G x Q)
    (no : ¬ p → KeepsEach G y Q) : KeepsEach G (if p then x else y) Q := Exec.Triple.ite yes no

theorem bind {f : α → ChannelM β} {R : β → Prop} (h : KeepsEach G x Q)
    (next : ∀ a, Q a → KeepsEach G (f a) R) : KeepsEach G (x >>= f) R :=
  Exec.Triple.bind h fun a kvs hs => next a hs.2 kvs hs.1

theorem read {f : Kvs → Outcome Failure α} (silent : ∀ kvs, Outcome.Silent (f kvs))
    (h : ∀ kvs a, kvs.Each G → f kvs = .ret a → Q a) : KeepsEach G (Exec.read f) Q :=
  Exec.Triple.read silent fun kvs a hs ret => ⟨hs, h kvs a hs ret⟩

theorem assert {p : Prop} [Decidable p] (what : String) :
    KeepsEach G (Exec.assert p what) fun _ => True :=
  read (fun _ => .assert) fun _ _ _ _ => trivial

theorem readTile (ti : TileIndex) :
    KeepsEach G (Exec.read fun kvs => kvs.readTile ti) fun tile => ∀ s ∈ tile.doubleSamples, G s :=
  read (fun kvs => kvs.readTile_silent ti) fun _ _ hs ret => hs ti _ (Kvs.readTile_ret ret)

end KeepsEach

namespace Channel

variable {ch : Channel} {G : Sample ℚ → Prop}

theorem lock_each : KeepsEach G lock fun _ => True := .modify fun _ hs => hs

theorem set_each {key : Key} {length : ℕ} {write : Kvs → Kvs}
    (h : ∀ kvs, kvs.Each G → (write kvs).Each G) : KeepsEach G (ch.set key length write) fun _ => True := by
  intro kvs hs
  constructor
  · intro a t ret
    rw [set_ret ret]
    exact ⟨h kvs hs, trivial⟩
  · intro f thrown
    rw [(set_throw thrown).1]
    exact hs

theorem writeInfo_each (info : ChannelInfo) : KeepsEach G (ch.writeInfo info) fun _ => True :=
  .bind (.assert _) fun _ _ => set_each fun _ hs => hs

theorem writeTile_each (ti : TileIndex) {tile : ExactTile} (h : ∀ s ∈ tile.doubleSamples, G s) :
    KeepsEach G (ch.writeTile ti tile) fun _ => True := by
  apply set_each
  intro kvs hs i t stored
  dsimp only at stored
  by_cases eq : i = ti
  · rw [eq, Function.update_self] at stored
    cases stored
    exact h
  · rw [Function.update_of_ne eq] at stored
    exact hs i t stored

theorem deleteTile_each (ti : TileIndex) : KeepsEach G (deleteTile ti) fun _ => True := by
  apply KeepsEach.modify
  intro kvs hs i t stored
  dsimp only at stored
  by_cases eq : i = ti
  · rw [eq, Function.update_self] at stored
    cases stored
  · rw [Function.update_of_ne eq] at stored
    exact hs i t stored

theorem createParent_each (combines : Averages G) {ti : TileIndex} {t left right p : ExactTile}
    (hl : ∀ s ∈ left.doubleSamples, G s) (hr : ∀ s ∈ right.doubleSamples, G s)
    (h : (createParentTileFromChildren ti t left right : Outcome Failure _) = .ret p) :
    ∀ s ∈ p.doubleSamples, G s :=
  combines (fun s hs => (List.mem_append.mp hs).elim (hl s) (hr s)) (createParent_ret h).1

theorem splitChild_each {split : TileIndex → ExactTile → ChannelM (TileIndex × ExactTile)}
    (splits : ∀ ti tile, (∀ s ∈ tile.doubleSamples, G s) →
      KeepsEach G (split ti tile) fun r => ∀ s ∈ r.2.doubleSamples, G s)
    (child : TileIndex) {tile : ExactTile} (h : ∀ s ∈ tile.doubleSamples, G s) :
    KeepsEach G (ch.splitChild split child tile) fun t => ∀ s ∈ t.doubleSamples, G s := by
  refine .bind .get fun kvs _ => ?_
  refine .bind (.assert _) fun _ _ => .bind (splits child tile h) ?_
  intro r hr
  refine .bind (.assert _) fun _ _ => .bind (writeTile_each child hr) ?_
  exact fun _ _ => .pure _ hr

theorem splitInto_each (combines : Averages G)
    {split : TileIndex → ExactTile → ChannelM (TileIndex × ExactTile)}
    (splits : ∀ ti tile, (∀ s ∈ tile.doubleSamples, G s) →
      KeepsEach G (split ti tile) fun r => ∀ s ∈ r.2.doubleSamples, G s)
    (index : TileIndex) {tile : ExactTile} (h : ∀ s ∈ tile.doubleSamples, G s) :
    KeepsEach G (ch.splitInto split index tile) fun t => ∀ s ∈ t.doubleSamples, G s := by
  refine .bind (Q := fun r => (∀ s ∈ r.1.doubleSamples, G s) ∧ ∀ s ∈ r.2.doubleSamples, G s)
    (.read (fun _ => splitSamples_silent _ _) ?_) ?_
  · intro kvs r _ ret
    obtain ⟨left, right⟩ := splitSamples_ret ret
    rw [left, right]
    constructor
    · intro s hs
      have mem : s ∈ (Tile.ofSamples (tile.samples.before _)).samples.doubles := hs
      rw [Tile.samples_ofSamples] at mem
      exact h s ((List.takeWhile_sublist _).subset mem)
    · intro s hs
      have mem : s ∈ (Tile.ofSamples (tile.samples.since _)).samples.doubles := hs
      rw [Tile.samples_ofSamples] at mem
      exact h s ((List.dropWhile_sublist _).subset mem)
  · intro r hr
    refine .bind (splitChild_each splits _ hr.1) fun left hl => ?_
    refine .bind (splitChild_each splits _ hr.2) fun right hright => ?_
    exact .read (fun _ => createParent_silent _ _ _ _) fun _ _ _ ret =>
      createParent_each combines hl hright ret

theorem splitTileIfNeeded_each (combines : Averages G) (fuel : ℕ) :
    ∀ ti tile, (∀ s ∈ tile.doubleSamples, G s) →
      KeepsEach G (ch.splitTileIfNeeded fuel ti tile) fun r => ∀ s ∈ r.2.doubleSamples, G s := by
  induction fuel with
  | zero => exact fun _ _ _ => .timeout
  | succ fuel ih =>
      intro ti tile h
      refine .ite (fun _ => .pure _ h) fun _ => .ite (fun _ => ?_) fun _ => ?_
      · refine .bind (Q := fun _ => True)
          (.read (fun _ => TileIndex.indexContaining_silent _ _) fun _ _ _ _ => trivial) ?_
        intro index _
        exact .bind (splitInto_each combines ih index h) fun _ ht => .pure _ ht
      · exact .bind (splitInto_each combines ih ti h) fun _ ht => .pure _ ht

theorem new_each : ∀ s ∈ Tile.new.doubleSamples, G s := fun _ hs => (List.not_mem_nil hs).elim

theorem moveRootLoop_each {tile : ExactTile} (h : ∀ s ∈ tile.doubleSamples, G s)
    (newRoot : TileIndex) (fuel : ℕ) (ti : TileIndex) :
    KeepsEach G (ch.moveRootLoop tile newRoot fuel ti) fun _ => True := by
  induction fuel generalizing ti with
  | zero => exact .timeout
  | succ fuel ih =>
      refine .ite (fun _ => ?_) fun _ => .pure _ trivial
      refine .bind (writeTile_each _ new_each) fun _ _ => ?_
      exact .bind (writeTile_each _ h) fun _ _ => ih _

theorem prepareRoot_each (fuel : ℕ) (times : Range ℚ) :
    KeepsEach G (ch.prepareRoot fuel times) fun _ => True := by
  refine .bind (Q := fun _ => True) (.read Kvs.readInfo_silent fun _ _ _ _ => trivial) ?_
  intro found _
  cases found with
  | none => exact .bind (writeTile_each _ new_each) fun _ _ => .pure _ trivial
  | some info =>
      refine .ite (fun _ => ?_) fun _ => .pure _ trivial
      refine .bind (Q := fun _ => True)
        (.read (fun _ => TileIndex.indexContaining_silent _ _) fun _ _ _ _ => trivial) ?_
      intro newRoot _
      refine .ite (fun _ => ?_) fun _ => .pure _ trivial
      refine .bind (.assert _) fun _ _ => .bind (Q := fun _ => True) ?_ fun _ _ => .pure _ trivial
      exact .bind (.readTile _) fun _ h => moveRootLoop_each h _ _ _

section
variable {V : Type} [SampleKind V] [LawfulSampleKind V]

theorem insertStep_each (combines : Averages G) (fuel : ℕ) (st : AddState) (first : Sample V)
    {data : List (Sample V)} (h : ∀ s ∈ (only data).doubles, G s) :
    KeepsEach G (ch.insertStep fuel st first data) fun r => ∀ s ∈ (only r.2).doubles, G s := by
  refine .bind (Q := fun _ => True) (.read (fun kvs => kvs.findLowest_silent _ _ _)
    fun _ _ _ _ => trivial) ?_
  intro ti _
  have cut := congrArg Samples.doubles (only_chunk data ti)
  rw [Samples.append_doubles] at cut
  rw [cut] at h
  have rest : ∀ s ∈ (only (data.dropWhile fun s => ti.containsTime s.time)).doubles, G s :=
    fun s hs => h s (List.mem_append_right _ hs)
  refine .bind (.assert _) fun _ _ => .bind (.readTile ti) ?_
  intro tile old
  refine .bind (Q := fun t => ∀ s ∈ t.doubleSamples, G s)
    (.read (fun _ => insertSamples_silent _ _) ?_) ?_
  · intro kvs t _ ret s hs
    rw [insertSamples_ret ret] at hs
    exact (mem_overwrite hs).elim (fun new => h s (List.mem_append_left _ new)) (old s)
  · intro merged hm
    refine .bind (splitTileIfNeeded_each combines fuel ti merged hm) fun r hr => ?_
    refine .ite (fun _ => ?_) fun _ => ?_
    · refine .bind (.assert _) fun _ _ => .bind (deleteTile_each ti) fun _ _ => ?_
      exact .bind (writeTile_each _ hr) fun _ _ => .pure _ rest
    · exact .bind (writeTile_each _ hr) fun _ _ => .pure _ rest

theorem insertLoop_each (combines : Averages G) (fuel : ℕ) (st : AddState) {data : List (Sample V)}
    (h : ∀ s ∈ (only data).doubles, G s) :
    KeepsEach G (ch.insertLoop fuel st data) fun _ => True := by
  induction fuel generalizing st data with
  | zero => exact .timeout
  | succ fuel ih =>
      cases data with
      | nil => exact .pure _ trivial
      | cons first data => exact .bind (insertStep_each combines fuel st first h) fun r hr => ih r.1 hr

theorem regenerateStep_each (combines : Averages G) (st : AddState) (ti : TileIndex) :
    KeepsEach G (ch.regenerateStep st ti) fun _ => True := by
  refine .bind (.readTile _) fun left hl => .bind (.readTile _) fun right hr => ?_
  refine .bind (Q := fun t => ∀ s ∈ t.doubleSamples, G s)
    (.read (fun _ => createParent_silent _ _ _ _) fun _ _ _ ret =>
      createParent_each combines hl hr ret) ?_
  exact fun t ht => .bind (writeTile_each ti ht) fun _ _ => .pure _ trivial

theorem regenerateLoop_each (combines : Averages G) (fuel : ℕ) (st : AddState) :
    KeepsEach G (ch.regenerateLoop fuel st) fun _ => True := by
  induction fuel generalizing st with
  | zero => exact .timeout
  | succ fuel ih =>
      unfold regenerateLoop
      split
      · exact .pure _ trivial
      · exact .bind (regenerateStep_each combines _ _) fun st _ => ih st

theorem addDataInternal_each (combines : Averages G) (fuel : ℕ) {data : List (Sample V)}
    (h : ∀ s ∈ (only data).doubles, G s) :
    KeepsEach G (ch.addDataInternal fuel data) fun _ => True := by
  cases data with
  | nil => exact .pure _ trivial
  | cons first rest =>
      refine .ite (fun _ => .throw fun _ hs => hs) fun _ => ?_
      refine .ite (fun _ => .throw fun _ hs => hs) fun _ => ?_
      refine .bind lock_each fun _ _ => .bind (prepareRoot_each fuel _) fun r _ => ?_
      refine .bind (insertLoop_each combines fuel _ h) fun st _ => ?_
      refine .bind (regenerateLoop_each combines fuel st) fun st _ => ?_
      exact .bind (writeInfo_each _) fun _ _ => .pure _ trivial

end

/-- What holds of the samples of a batch and survives averaging holds of all samples of the stores
that `add_data` leaves, also when it throws. -/
theorem addData_each (combines : Averages G) (fuel : ℕ) {b : Batch}
    (h : ∀ s ∈ b.samples.doubles, G s) : KeepsEach G (ch.addData fuel b) fun _ => True := by
  cases b with
  | doubles data => exact addDataInternal_each combines fuel h
  | strings data => exact addDataInternal_each combines fuel h

end Channel

/-- The middle of a tile is an edge between two of its bins. -/
theorem binEdge_middle {m : ℕ} {ti : TileIndex} (pos : 0 < m) (regular : Regular ti) :
    binEdge (2 * m) ti m = Cell.start ti.hi := by
  have some : (m : ℚ) ≠ 0 := by exact_mod_cast pos.ne'
  have half : (m : ℚ) / (2 * m : ℕ) = 1 / 2 := by
    push_cast
    field_simp
  have width : ti.duration = 2 * ti.lo.width := Cell.width_lo ti
  have step := Cell.stop_sub_start ti.lo
  rw [Cell.lo_stop, Cell.lo_start] at step
  rw [binEdge, half, width, TileIndex.startTime_eq regular.not_null regular.lt_intMax]
  linarith

theorem Consistent.apart {ti : TileIndex} {a l r : ExactTile} (h : Consistent ti a l r)
    (regular : Regular ti) (left : Sound (0 < ·) ti.lo l.samples) (right : Sound (0 < ·) ti.hi r.samples) :
    ∃ front back, a.doubleSamples = front ++ back ∧ moments front = moments l.doubleSamples ∧
      moments back = moments r.doubleSamples := by
  have lo := Kvs.ordinary_lo regular
  have hi := Kvs.ordinary_hi regular
  have before : ∀ s ∈ l.doubleSamples, ti.lo.Has s.time := fun s hs =>
    (TileIndex.containsTime_iff lo.1 lo.2 _).mp
      (left.inside _ (Samples.mem_times.mpr (.inl ⟨s, hs, rfl⟩)))
  have after : ∀ s ∈ r.doubleSamples, ti.hi.Has s.time := fun s hs =>
    (TileIndex.containsTime_iff hi.1 hi.2 _).mp
      (right.inside _ (Samples.mem_times.mpr (.inl ⟨s, hs, rfl⟩)))
  have middle : binEdge channelDoubleSamples ti 16384 = Cell.start ti.hi :=
    binEdge_middle (m := 16384) (by decide) regular
  apply combineSamples_apart (k := 16384) (by decide) (by decide) _ _ _ _ (createParent_ret h).1
  · intro s hs
    cases List.mem_append.mp hs with
    | inl mem => exact left.weights _ (Samples.mem_weights.mpr (.inl ⟨s, mem, rfl⟩))
    | inr mem => exact right.weights _ (Samples.mem_weights.mpr (.inl ⟨s, mem, rfl⟩))
  · intro s hs
    rw [TileIndex.startTime_eq regular.not_null regular.lt_intMax]
    cases List.mem_append.mp hs with
    | inl mem => exact (Cell.has_of_lo (before s mem)).1
    | inr mem => exact (Cell.has_of_hi (after s mem)).1
  · intro s hs
    rw [middle, ← Cell.lo_stop]
    exact (before s hs).2
  · intro s hs
    rw [middle]
    exact (after s hs).1

/-- By induction on the height: each level averages what the level below has. -/
theorem moments_label {t : TileTree} {c : TileIndex}
    (nodes : t.EachNode (fun i a l r => Consistent i a l.label r.label) c)
    (measured : t.EachLabel (fun _ a => ∀ s ∈ a.doubleSamples, Measured s) c) :
    moments t.label.doubleSamples = moments (contents t).doubles := by
  induction t generalizing c with
  | leaf a => rfl
  | node a l r ihl ihr =>
      obtain ⟨combined, nodesL, nodesR⟩ := CellTree.eachNode_node.mp nodes
      obtain ⟨-, measuredL, measuredR⟩ := CellTree.eachLabel_node.mp measured
      have below : ∀ s ∈ l.label.doubleSamples ++ r.label.doubleSamples, Measured s :=
        fun s hs => (List.mem_append.mp hs).elim (measuredL.label s) (measuredR.label s)
      have sums := (combineSamples_moments below (createParent_ret combined).1).1
      rw [CellTree.label, contents, Samples.append_doubles, sums, moments_append, moments_append,
        ihl nodesL measuredL, ihr nodesR measuredR]

theorem measured_averages : Averages Measured :=
  fun below run => (combineSamples_moments below run).2.1

/-- Positive weights, and no negative variance. -/
structure Batch.Measured (b : Batch) : Prop where
  weights : ∀ w ∈ b.samples.weights, 0 < w
  variances : ∀ s ∈ b.samples.doubles, 0 ≤ s.stddev

theorem Batch.Measured.doubles {b : Batch} (h : b.Measured) :
    ∀ s ∈ b.samples.doubles, Datastore.Measured s :=
  fun s hs => ⟨h.weights _ (Samples.mem_weights.mpr (.inl ⟨s, hs, rfl⟩)), h.variances s hs⟩

theorem Batch.measured_pair : Batch.pair.Measured := by
  refine ⟨Batch.weights_pair _ (List.mem_singleton_self _), ?_⟩
  decide

theorem Kvs.Each.imp {G H : Sample ℚ → Prop} {kvs : Kvs} (h : kvs.Each G) (imp : ∀ s, G s → H s) :
    kvs.Each H :=
  fun ti tile stored s hs => imp s (h ti tile stored s hs)

namespace Runs

variable {ch : Channel} {bs : List Batch} {kvs : Kvs}

theorem each_measured (run : Runs ch bs kvs) (measured : ∀ b ∈ bs, b.Measured) :
    kvs.Each Measured := by
  induction run with
  | absent =>
      intro ti tile stored
      cases stored
  | @add bs kvs b fuel r kvs' run finite call ih =>
      have old := ih fun x hx => measured x (List.mem_append_left _ hx)
      have new := measured b (List.mem_append_right _ (List.mem_singleton_self b))
      exact ((Channel.addData_each measured_averages fuel new.doubles kvs old).1 r kvs' call).1

/-- Between two calls every tile has the sums of the leaves below it, and an inner tile has few
samples at different times. No variance is negative in any store that a call leaves, even when it
throws at one of its writes. -/
theorem subsampling_exact (run : Runs ch bs kvs) (measured : ∀ b ∈ bs, b.Measured) :
    (∀ ti tile, kvs.tiles ti = some tile →
      (∃ leaves, Outcome.Reaches (fun fuel => kvs.leafTiles fuel ti) leaves ∧
        moments tile.doubleSamples = moments (leaves.flatMap Tile.doubleSamples)) ∧
      (kvs.hasTile ti.leftChild ∨ kvs.hasTile ti.rightChild →
        tile.doubleSamples.length ≤ channelDoubleSamples ∧
          tile.doubleSamples.Pairwise fun x y => x.time < y.time)) ∧
    kvs.Each (fun s => 0 ≤ s.stddev) ∧
    ∀ (b : Batch) (fuel : ℕ), b.Measured →
      (∀ r kvs', ch.addData fuel b kvs = .ret (r, kvs') → kvs'.Each fun s => 0 ≤ s.stddev) ∧
        ∀ f, ch.addData fuel b kvs = .throw f → f.left.Each fun s => 0 ≤ s.stddev := by
  have each := run.each_measured measured
  refine ⟨?_, each.imp fun _ h => h.variance, ?_⟩
  · intro ti tile stored
    rcases run.settled with ⟨rfl, -⟩ | ⟨info, tree, channel, nodes, -⟩
    · cases stored
    obtain ⟨s, at_ti, rfl⟩ := channel.sub stored
    constructor
    · refine ⟨_, channel.leafTiles_at at_ti, ?_⟩
      rw [(flatMap_leaves _).1, ← Datastore.contents_eq]
      refine moments_label (nodes.sub at_ti) fun i a has => ?_
      obtain ⟨u, sub, label⟩ := Option.map_eq_some_iff.mp has
      refine each i a ?_
      rw [channel.tiles, CellTree.get, CellTree.sub_sub at_ti (CellTree.under_of_sub sub), sub, ← label]
      rfl
    · intro inner
      rcases channel.children stored with ⟨noLeft, noRight, -⟩ | ⟨l, r, reg, node, left, right⟩
      · exact (inner.elim noLeft noRight).elim
      · have combined := (createParent_ret (nodes ti _ l r node)).1
        have below : ∀ x ∈ l.label.doubleSamples ++ r.label.doubleSamples, Measured x :=
          fun x hx => (List.mem_append.mp hx).elim (each _ _ left x) (each _ _ right x)
        refine ⟨(combineSamples_moments below combined).2.2, ?_⟩
        exact (combineSamples_ret (by decide) reg.spans (fun x hx => (below x hx).weight.le) combined).1
  · intro b fuel new
    have whole : KeepsEach Measured (ch.addData fuel b) fun _ => True :=
      Channel.addData_each measured_averages fuel new.doubles
    have kept := whole kvs each
    refine ⟨fun r kvs' ret => ?_, fun f thrown => ?_⟩
    · exact (kept.1 r kvs' ret).1.imp fun _ h => h.variance
    · exact (kept.2 f thrown).imp fun _ h => h.variance

theorem subsampling_exact_pair : ∃ kvs parent leaves, Runs .narrow [.pair] kvs ∧
    kvs.tiles ⟨2, 0⟩ = some parent ∧ Outcome.Reaches (fun fuel => kvs.leafTiles fuel ⟨2, 0⟩) leaves ∧
      moments parent.doubleSamples = moments (leaves.flatMap Tile.doubleSamples) := by
  obtain ⟨kvs, info, tree, run, stored, -, root⟩ := narrow_pair
  have measured : ∀ b ∈ [Batch.pair], b.Measured := fun b hb =>
    List.mem_singleton.mp hb ▸ Batch.measured_pair
  have at_root : kvs.tiles ⟨2, 0⟩ = some tree.label := by
    rw [stored.tiles, root, CellTree.get_self]
  obtain ⟨leaves, found, sums⟩ := ((subsampling_exact run measured).1 _ _ at_root).1
  exact ⟨kvs, tree.label, leaves, run, at_root, found, sums⟩

end Runs
end Mio.Datastore
