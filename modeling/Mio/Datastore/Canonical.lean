import Mio.Datastore.ValueBounds

/-! The canonical form of a channel. As long as no sample replaces another, the tiles of a channel at
rest are a function of the samples it keeps: an interval is divided exactly when the samples in it are
too long for a tile, and the root is the all-tile or the smallest cell around all times. -/
namespace Mio.Datastore

theorem Grown.unique {limit : ℕ} {ti : TileIndex} {tile : ExactTile} {s s' : TileTree}
    (g : Grown limit ti tile s) (h : Grown limit ti tile s') : s = s' := by
  induction g generalizing s' with
  | leaf fits =>
      cases h with
      | leaf => rfl
      | node long => exact absurd fits (not_le.mpr long)
  | node long left right combined ihl ihr =>
      cases h with
      | leaf fits => exact absurd fits (not_le.mpr long)
      | node _ left' right' combined' =>
          obtain rfl := ihl left'
          obtain rfl := ihr right'
          cases combined.symm.trans combined'
          rfl

/-- A tile with nothing in it but what its samples say. -/
def Plain (a : ExactTile) : Prop := a = .ofSamples a.samples

def ValuesExact (a : ExactTile) : Prop := a.ranges.doubleSamples.Hull {v | v ∈ a.samples.values}

theorem ValuesExact.ofSamples {u : Samples} (finite : ∀ v ∈ u.values, Bounded v) :
    ValuesExact (.ofSamples u) := by
  rw [ValuesExact, Tile.samples_ofSamples]
  exact Ranged.hull_ofSamples finite

/-- Samples at new times join the old ones. -/
theorem ValuesExact.insert {a : ExactTile} {chunk : Samples} (h : ValuesExact a)
    (finite : ∀ v ∈ (a.insert chunk).samples.values, Bounded v)
    (apart : ∀ t ∈ chunk.times, t ∉ a.samples.times) : ValuesExact (a.insert chunk) := by
  have all : {v | v ∈ (a.insert chunk).samples.values} =
      {v | v ∈ a.samples.values} ∪ {v | v ∈ chunk.values} := by
    ext v
    constructor
    · exact fun hv => (Samples.mem_values_overwrite hv).symm
    · rintro (old | new)
      · obtain ⟨s, hs, rfl⟩ := Samples.mem_values.mp old
        have kept : s ∈ overwrite DataSample.time chunk.doubles a.samples.doubles ∨
            ∃ y ∈ chunk.doubles, y.time = s.time := mem_overwrite_old hs
        rcases kept with kept | ⟨y, hy, eq⟩
        · exact Samples.mem_values.mpr ⟨s, kept, rfl⟩
        · refine (apart y.time (Samples.mem_times.mpr (.inl ⟨y, hy, rfl⟩)) ?_).elim
          rw [eq]
          exact Samples.mem_times.mpr (.inl ⟨s, hs, rfl⟩)
      · exact Samples.values_new (v := a.samples) new
  rw [ValuesExact, all]
  refine DataRanges.cover_values h fun v hv => finite v ?_
  have mem : v ∈ {v | v ∈ (a.insert chunk).samples.values} := by
    rw [all]
    exact hv
  exact mem

theorem Tile.eq_of_parts {a b : ExactTile} (header : a.header = b.header)
    (times : a.ranges.times = b.ranges.times)
    (values : a.ranges.doubleSamples = b.ranges.doubleSamples)
    (doubles : a.doubleSamples = b.doubleSamples) (strings : a.stringSamples = b.stringSamples) :
    a = b := by
  obtain ⟨_, ⟨_, _⟩, _, _⟩ := a
  obtain ⟨_, ⟨_, _⟩, _, _⟩ := b
  cases header
  cases times
  cases values
  cases doubles
  cases strings
  rfl

theorem Plain.of_exact {a : ExactTile} (header : a.header = Tile.new.header) (times : TimesExact a)
    (values : ValuesExact a) (finite : ∀ t ∈ a.samples.times, Bounded t)
    (finite_values : ∀ v ∈ a.samples.values, Bounded v) : Plain a := by
  have same : (Tile.ofSamples a.samples).samples = a.samples := Tile.samples_ofSamples _
  have fresh_times := TimesExact.ofSamples a.samples
  have fresh_values := ValuesExact.ofSamples finite_values
  rw [TimesExact, same] at fresh_times
  rw [ValuesExact, same] at fresh_values
  have first : a.ranges.times = (Tile.ofSamples a.samples).ranges.times :=
    (times finite).unique (fresh_times finite)
  have second : a.ranges.doubleSamples = (Tile.ofSamples a.samples).ranges.doubleSamples :=
    values.unique fresh_values
  have doubles : a.doubleSamples = (Tile.ofSamples a.samples).doubleSamples :=
    (congrArg Samples.doubles same).symm
  have strings : a.stringSamples = (Tile.ofSamples a.samples).stringSamples :=
    (congrArg Samples.strings same).symm
  exact Tile.eq_of_parts header first second doubles strings

/-- A tree of plain leaves that are short below inner tiles that are long, everything combined, is
what its contents grow into. -/
theorem Grown.of_contents {limit : ℕ} {t : TileTree} {c : TileIndex}
    (nodes : t.EachNode (fun i a l r => Consistent i a l.label r.label) c)
    (long : t.EachNode (fun _ _ l r => limit < (contents l ++ contents r).size) c)
    (has : t.EachLeaf (fun i a => ∀ x ∈ a.samples.times, i.Has x) c)
    (plain : t.EachLeaf (fun _ a => Plain a) c)
    (fits : t.EachLeaf (fun _ a => a.binaryLength ≤ limit) c) :
    Grown limit c (.ofSamples (contents t)) t := by
  induction t generalizing c with
  | leaf a =>
      have same : Tile.ofSamples (contents (.leaf a)) = a := (CellTree.eachLeaf_leaf.mp plain).symm
      rw [same]
      exact .leaf (CellTree.eachLeaf_leaf.mp fits)
  | node a l r ihl ihr =>
      obtain ⟨combined, nodesL, nodesR⟩ := CellTree.eachNode_node.mp nodes
      obtain ⟨here, longL, longR⟩ := CellTree.eachNode_node.mp long
      obtain ⟨hasL, hasR⟩ := CellTree.eachLeaf_node.mp has
      obtain ⟨plainL, plainR⟩ := CellTree.eachLeaf_node.mp plain
      obtain ⟨fitsL, fitsR⟩ := CellTree.eachLeaf_node.mp fits
      have low : ∀ x ∈ (contents l).times, x < c.hi.start :=
        fun x hx => (contents_has hasL x hx).2.trans_eq (Cell.lo_stop c)
      have high : ∀ x ∈ (contents r).times, c.hi.start ≤ x := fun x hx => (contents_has hasR x hx).1
      refine .node ?_ ?_ ?_ ?_
      · rw [Tile.binaryLength_eq, Tile.samples_ofSamples]
        exact here
      · rw [Tile.samples_ofSamples, contents, Samples.before_append low high]
        exact ihl nodesL longL hasL plainL fitsL
      · rw [Tile.samples_ofSamples, contents, Samples.since_append low high]
        exact ihr nodesR longR hasR plainR fitsR
      · rw [createParent_congr (Tile.header_ofSamples _)]
        exact combined

/-- The batch brings new times only, and the leaves have exact ranges of values. -/
structure Progress.Fresh (p : Progress) : Prop where
  apart : ∀ t ∈ p.pending.times, t ∉ (contents p.tree).times
  values : p.tree.EachLeaf (fun _ a => ValuesExact a) p.root

def Long (limit : ℕ) (t : TileTree) (c : TileIndex) : Prop :=
  t.EachNode (fun _ _ l r => limit < (contents l ++ contents r).size) c

/-- Doubles do not get shorter by an update. -/
theorem Samples.size_le_overwrite {u v : Samples} (hu : u.strings = []) (hv : v.strings = []) :
    v.size ≤ (overwrite u v).size := by
  have none : (overwrite u v).strings = [] := by rw [overwrite, hu, hv]; rfl
  have longer : v.doubles.length ≤ (overwrite u v).doubles.length := length_le_overwrite _ _
  rw [size, size, none, hv]
  omega

theorem Long.graft {limit : ℕ} {t s s₀ : TileTree} {c j : TileIndex} (h : t.sub c j = some s₀)
    (ht : Long limit t c) (hs : Long limit s j)
    (grows : ∀ i a l r, t.sub c i = some (.node a l r) → j.Under i →
      (contents l ++ contents r).size ≤
        (contents (CellTree.graft s j l i.lo) ++ contents (CellTree.graft s j r i.hi)).size) :
    Long limit (CellTree.graft s j t c) c := by
  intro i a l r node
  rcases CellTree.sub_graft_node h node with ⟨-, new⟩ | ⟨-, -, old⟩ | ⟨above, l₀, r₀, old, rfl, rfl⟩
  · exact hs i a l r new
  · exact ht i a l r old
  · have under : j.Under i := above.elim (fun lo => lo.trans (.lo i)) fun hi => hi.trans (.hi i)
    exact (ht i a l₀ r₀ old).trans_le (grows i a l₀ r₀ old under)

theorem Samples.strings_of_overwrite {u v : Samples} (h : (overwrite u v).strings = []) :
    u.strings = [] ∧ v.strings = [] := by
  have nothing : ∀ s, s ∉ (overwrite u v).strings := by
    intro s
    rw [h]
    exact List.not_mem_nil
  have first : u.strings = [] := by
    apply List.eq_nil_iff_forall_not_mem.mpr
    exact fun s hs => nothing s (mem_overwrite_new hs)
  refine ⟨first, ?_⟩
  rw [overwrite, first] at h
  exact h

theorem contents_sub_strings {t s : TileTree} {c j : TileIndex} (h : t.sub c j = some s)
    (has : t.EachLeaf (fun i a => ∀ x ∈ a.samples.times, i.Has x) c) (none : (contents t).strings = []) :
    (contents s).strings = [] := by
  obtain ⟨a, b, old, -⟩ := contents_graft h has
  rw [old, Samples.append_strings, Samples.append_strings, List.append_eq_nil_iff,
    List.append_eq_nil_iff] at none
  exact none.1.2

namespace Step

variable {limit : ℕ} {p q : Progress}

theorem long (step : Step limit p q) (wf : p.Wf) (plain : p.total.strings = [])
    (h : Long limit p.tree p.root) : Long limit q.tree q.root := by
  obtain ⟨pendingPlain, treePlain⟩ := Samples.strings_of_overwrite plain
  cases step with
  | @raise root tree pending n regular tight =>
      obtain ⟨-, a, l, r, node⟩ := wf.shape_node (regular.not_all_below (n := n + 1))
      dsimp only at node h
      have whole : limit < (contents tree).size := by
        rw [node] at h ⊢
        exact h root a l r (CellTree.sub_self _ _)
      have up := CellTree.raise_induct (e := Tile.new) (n := n + 1)
        (motive := fun t c => Long limit t c ∧ limit < (contents t).size) (by
        rintro t c - ⟨long, size⟩
        refine ⟨long.hoist ?_ ?_, ?_⟩
        · rwa [contents, Tile.samples_new, Samples.append_empty]
        · rwa [contents, Tile.samples_new, Samples.empty_append]
        · rwa [contents_hoist]) regular.2 ⟨h, whole⟩
      exact up.1
  | fill inside past fits => exact CellTree.eachNode_leaf
  | reroot inside past regular tight has grown long => exact grown.nodes_long
  | @insert root ti tree tile s stale chunk rest regular leaf inside past grown =>
      have has := wf.leaves_has regular
      refine h.graft leaf grown.nodes_long fun i a l r node under => ?_
      have ne : ti ≠ i := by
        rintro rfl
        cases leaf.symm.trans node
      have below : (CellTree.node a l r).sub i ti = some (.leaf tile) := by
        rw [← CellTree.sub_sub node under]
        exact leaf
      have merged := Step.contents_insert below (has.sub node) inside grown
      rw [CellTree.graft, if_neg ne, contents] at merged
      rw [merged]
      have none : chunk.strings = [] := (List.append_eq_nil_iff.mp pendingPlain).1
      exact Samples.size_le_overwrite none (contents_sub_strings node has treePlain)
  | @regenerate root w tree parent a l r stale pending node combined =>
      have has := wf.leaves_has (wf.regular_of_node node)
      have below : Long limit (.node parent l r) w := by
        have old := CellTree.eachNode_node.mp (h.sub node)
        exact CellTree.eachNode_node.mpr old
      refine h.graft node below fun i b l' r' above under => le_of_eq ?_
      -- the new label at `w` is not part of the contents on either side of `i`
      have same : ∀ {t : TileTree} {c : TileIndex}, tree.sub root c = some t →
          contents (CellTree.graft (.node parent l r) w t c) = contents t := by
        intro t c at_c
        by_cases inside : w.Under c
        · exact Step.contents_regenerate (by rw [← CellTree.sub_sub at_c inside, node]) (has.sub at_c)
        · rw [CellTree.graft_of_not_under inside]
      rw [same (CellTree.sub_lo above), same (CellTree.sub_hi above)]

/-- What has been taken is not among what is left. -/
theorem apart_rest {chunk rest held : Samples} (behind : ∀ s ∈ chunk.times, ∀ t ∈ rest.times, s < t)
    (apart : ∀ t ∈ (chunk ++ rest).times, t ∉ held.times) :
    ∀ t ∈ rest.times, t ∉ (Samples.overwrite chunk held).times := by
  intro t ht mem
  cases Samples.mem_times_overwrite.mp mem with
  | inl taken => exact lt_irrefl t (behind t taken t ht)
  | inr old => exact apart t (Samples.mem_times_append.mpr (.inr ht)) old

theorem grown_exact {ti : TileIndex} {tile : ExactTile} {chunk rest : Samples} {s : TileTree}
    (grown : Grown limit ti (tile.insert chunk) s) (ranged : Ranged tile)
    (finite : ∀ v ∈ (chunk ++ rest).values, Bounded v) (old : ValuesExact tile)
    (apart : ∀ t ∈ (chunk ++ rest).times, t ∉ tile.samples.times) :
    s.EachLeaf (fun _ a => ValuesExact a) ti := by
  have merged : Ranged (tile.insert chunk) :=
    ranged.insert fun v hv => finite v (Samples.mem_values_append.mpr (.inl hv))
  refine grown.eachLeaf_finite (fun _ => ValuesExact.ofSamples) merged.finite fun _ => ?_
  exact old.insert merged.finite fun t ht => apart t (Samples.mem_times_append.mpr (.inl ht))

theorem fresh (step : Step limit p q) (wf : p.Wf) (finite : p.Finite) (h : p.Fresh) : q.Fresh := by
  cases step with
  | @raise root tree pending n regular tight =>
      have new : ValuesExact .new := .ofSamples (u := .empty) fun v hv => (List.not_mem_nil hv).elim
      refine ⟨?_, CellTree.raise_induct (fun t c _ ht => ht.hoist _ new) regular.2 h.values⟩
      dsimp only
      rw [contents_raise]
      exact h.apart
  | @fill tile stale chunk rest inside past fits =>
      refine ⟨apart_rest (behind_of_past inside past) h.apart, ?_⟩
      exact grown_exact (.leaf fits) (CellTree.eachLeaf_leaf.mp finite.leaves) finite.pending
        (CellTree.eachLeaf_leaf.mp h.values) h.apart
  | @reroot root tile s stale chunk rest inside past regular tight has grown long =>
      refine ⟨?_, ?_⟩
      · dsimp only
        rw [grown.contents_eq]
        exact apart_rest (behind_of_past inside past) h.apart
      · exact grown_exact grown (CellTree.eachLeaf_leaf.mp finite.leaves) finite.pending
          (CellTree.eachLeaf_leaf.mp h.values) h.apart
  | @insert root ti tree tile s stale chunk rest regular leaf inside past grown =>
      have mem := CellTree.mem_leaves.mpr leaf
      have within : ∀ t ∈ tile.samples.times, t ∈ (contents tree).times := by
        intro t ht
        rw [contents_eq tree root]
        exact mem_times_concat.mpr ⟨_, mem, ht⟩
      refine ⟨?_, h.values.graft leaf ?_⟩
      · dsimp only
        rw [Step.contents_insert leaf (wf.leaves_has regular) inside grown]
        exact apart_rest (Step.behind inside past) h.apart
      · exact grown_exact grown (finite.leaves ti tile mem) finite.pending (h.values ti tile mem)
          fun t ht old => h.apart t ht (within t old)
  | @regenerate root w tree parent a l r stale pending node combined =>
      refine ⟨?_, h.values.graft node ?_⟩
      · dsimp only
        rw [Step.contents_regenerate node (wf.leaves_has (wf.regular_of_node node))]
        exact h.apart
      · exact CellTree.eachLeaf_node.mpr (CellTree.eachLeaf_node.mp (h.values.sub node))

end Step

/-- Batches of double samples, no two with a time in common. -/
structure Separate (bs : List Batch) : Prop where
  doubles : ∀ b ∈ bs, b.samples.strings = []
  finite : ∀ b ∈ bs, b.FiniteValues
  apart : bs.Pairwise fun b c => ∀ t ∈ c.samples.times, t ∉ b.samples.times

theorem mem_times_history {bs : List Batch} {t : ℚ} :
    t ∈ (history bs).times ↔ ∃ b ∈ bs, t ∈ b.samples.times := by
  induction bs using List.reverseRecOn with
  | nil => simp [history]
  | append_singleton bs b ih =>
      rw [history_add, Samples.mem_times_overwrite, ih]
      simp only [List.mem_append, List.mem_singleton, or_and_right, exists_or, exists_eq_left]
      exact or_comm

namespace Separate

variable {bs : List Batch} {b : Batch}

theorem init (h : Separate (bs ++ [b])) : Separate bs :=
  ⟨fun x hx => h.doubles x (List.mem_append_left _ hx),
    fun x hx => h.finite x (List.mem_append_left _ hx), (List.pairwise_append.mp h.apart).1⟩

theorem new_times (h : Separate (bs ++ [b])) : ∀ t ∈ b.samples.times, t ∉ (history bs).times := by
  intro t ht old
  obtain ⟨x, hx, mem⟩ := mem_times_history.mp old
  exact (List.pairwise_append.mp h.apart).2.2 x hx b (List.mem_singleton_self b) t ht mem

theorem history_strings (h : Separate bs) : (history bs).strings = [] := by
  induction bs using List.reverseRecOn with
  | nil => rfl
  | append_singleton bs b ih =>
      have last := h.doubles b (List.mem_append_right _ (List.mem_singleton_self b))
      rw [history_add, Samples.overwrite, last, ih h.init]
      rfl

end Separate

/-- A channel between two calls that never replaced a sample. -/
structure Formed (limit : ℕ) (bs : List Batch) (info : ChannelInfo) (tree : TileTree) : Prop where
  same : contents tree = history bs
  ranged : tree.EachLeaf (fun _ a => Ranged a) info.nonnegativeRootTileIndex
  values : tree.EachLeaf (fun _ a => ValuesExact a) info.nonnegativeRootTileIndex
  long : Long limit tree info.nonnegativeRootTileIndex

/-- What a call needs to lead from one such channel to the next. -/
structure Progress.Forms (limit : ℕ) (p : Progress) : Prop where
  finite : p.Finite
  fresh : p.Fresh
  long : Long limit p.tree p.root
  plain : p.total.strings = []

theorem Step.forms {limit : ℕ} {p q : Progress} (step : Step limit p q) (wf : p.Wf)
    (h : p.Forms limit) : q.Forms limit := by
  refine ⟨step.finite h.finite, step.fresh wf h.finite h.fresh, step.long wf h.plain h.long, ?_⟩
  rw [step.total_eq wf]
  exact h.plain

theorem Called.formed {limit : ℕ} {bs : List Batch} {b : Batch} {kvs kvs' : Kvs} {p q : Progress}
    {info : ChannelInfo} (called : Called limit b.samples kvs kvs' p q info)
    (separate : Separate (bs ++ [b])) (same : contents p.tree = history bs)
    (ranged : p.tree.EachLeaf (fun _ a => Ranged a) p.root)
    (values : p.tree.EachLeaf (fun _ a => ValuesExact a) p.root) (long : Long limit p.tree p.root) :
    Formed limit (bs ++ [b]) { info with nonnegativeRootTileIndex := q.root } q.tree := by
  have pending := called.opens.pending
  have total : p.total = history (bs ++ [b]) := by
    rw [Progress.total, pending, same, history_add]
  have start : p.Forms limit := by
    refine ⟨⟨ranged, ?_⟩, ⟨?_, values⟩, long, ?_⟩
    · intro v hv
      rw [pending] at hv
      exact (separate.finite b (List.mem_append_right _ (List.mem_singleton_self b)) v hv).finite
    · intro t ht
      rw [pending] at ht
      rw [same]
      exact separate.new_times t ht
    · rw [total]
      exact separate.history_strings
  have kept := Steps.keep (P := Progress.Forms limit) (fun _ _ step wf => step.forms wf) called.steps
    called.wf start
  refine ⟨?_, kept.finite.leaves, kept.fresh.values, kept.long⟩
  rw [called.contents_eq, total]

theorem ChannelInfo.eq_of_parts {a b : ChannelInfo} (magic : a.magic = b.magic)
    (version : a.version = b.version) (times : a.times = b.times)
    (root : a.nonnegativeRootTileIndex = b.nonnegativeRootTileIndex)
    (negative : a.negativeRootTileIndex = b.negativeRootTileIndex) : a = b := by
  cases a
  cases b
  cases magic
  cases version
  cases times
  cases root
  cases negative
  rfl

/-- The samples alone determine the root and what lies below it. -/
structure Canonical (limit : ℕ) (u : Samples) (info : ChannelInfo) (tree : TileTree) : Prop where
  contents : contents tree = u
  root : info.nonnegativeRootTileIndex = .nonnegativeAll ∧ u.size ≤ limit ∨
    info.nonnegativeRootTileIndex ≠ .nonnegativeAll ∧ limit < u.size ∧
      Around info.nonnegativeRootTileIndex u
  grown : Grown limit info.nonnegativeRootTileIndex (.ofSamples u) tree

theorem Canonical.root_eq {limit : ℕ} {u : Samples} {info info' : ChannelInfo} {tree tree' : TileTree}
    (h : Canonical limit u info tree) (g : Canonical limit u info' tree') :
    info.nonnegativeRootTileIndex = info'.nonnegativeRootTileIndex := by
  rcases h.root with ⟨all, short⟩ | ⟨-, long, around⟩
  · rcases g.root with ⟨all', -⟩ | ⟨-, long', -⟩
    · exact all.trans all'.symm
    · exact absurd short (not_le.mpr long')
  · rcases g.root with ⟨-, short'⟩ | ⟨-, -, around'⟩
    · exact absurd short' (not_le.mpr long)
    · exact around.unique around'

namespace Runs

variable {ch : Channel} {bs : List Batch} {kvs : Kvs}

theorem formed (run : Runs ch bs kvs) (separate : Separate bs) :
    (kvs = .absent ∧ history bs = .empty) ∨
      ∃ info tree, Stored kvs info tree ∧ Formed ch.maxTileSize bs info tree := by
  have all := run.induct (P := fun bs info tree => Separate bs → Formed ch.maxTileSize bs info tree)
    ?_ ?_ ?_
  · exact all.imp_right fun ⟨info, tree, stored, h⟩ => ⟨info, tree, stored, h separate⟩
  · intro bs b info tree none h separate
    have old := h separate.init
    refine ⟨?_, old.ranged, old.values, old.long⟩
    rw [old.same, history_add, none]
    rfl
  · intro bs b kvs' q info none finite called separate
    have fresh : ∀ v ∈ Samples.empty.values, Bounded v := fun v hv => (List.not_mem_nil hv).elim
    refine called.formed separate none.symm (CellTree.eachLeaf_leaf.mpr (.ofSamples fresh))
      (CellTree.eachLeaf_leaf.mpr (.ofSamples fresh)) CellTree.eachNode_leaf
  · intro bs b kvs kvs' q info old tree h finite called separate
    have before := h separate.init
    exact called.formed separate before.same before.ranged before.values before.long

/-- The fields of the info record that no call changes. -/
theorem info_constants (run : Runs ch bs kvs) : ∀ info, kvs.metainfo = some (some info) →
    info.version = 0x00010000 ∧ info.negativeRootTileIndex = .null := by
  induction run with
  | absent =>
      intro info has
      cases has
  | add run finite call ih =>
      rcases Channel.addData_ret run.usual finite call with ⟨-, rfl⟩ | ⟨p, q, info, called⟩
      · exact ih
      · intro info' has
        rw [called.left] at has
        cases has
        cases called.opens with
        | new spanned => exact ⟨rfl, rfl⟩
        | old stored spanned =>
            have kept := ih _ stored.metainfo
            exact kept

theorem canonical (run : Runs ch bs kvs) (separate : Separate bs) :
    (kvs = .absent ∧ history bs = .empty) ∨
      ∃ info tree, Stored kvs info tree ∧ Canonical ch.maxTileSize (history bs) info tree := by
  rcases run.formed separate with none | ⟨info, tree, stored, formed⟩
  · exact .inl none
  obtain ⟨nodes, fits⟩ := stored.kept run.settled
  have times := stored.kept (run.eachLeaf TimesExact.ofSamples fun _ chunk h => h.insert chunk)
  have plain : tree.EachLeaf (fun _ a => Plain a) info.nonnegativeRootTileIndex := by
    intro i a mem
    have leaf := CellTree.mem_leaves.mp mem
    have header : a.header = Tile.new.header :=
      stored.wf.headers i a (by rw [CellTree.get, leaf]; rfl)
    refine .of_exact header (times i a mem) (formed.values i a mem) (fun t ht => ?_)
      (formed.ranged i a mem).finite
    have double := (stored.wf.leaves i a mem).double t ht
    exact double.1.bounded double.2
  refine .inr ⟨info, tree, stored, formed.same, ?_, ?_⟩
  · by_cases all : info.nonnegativeRootTileIndex = .nonnegativeAll
    · obtain ⟨tile, leaf⟩ := stored.wf.shape_all all
      dsimp only at leaf
      subst leaf
      refine .inl ⟨all, ?_⟩
      rw [← formed.same]
      exact CellTree.eachLeaf_leaf.mp fits
    · obtain ⟨regular, a, l, r, node⟩ := stored.wf.shape_node all
      dsimp only at node
      subst node
      refine .inr ⟨all, ?_, ?_⟩
      · rw [← formed.same]
        exact formed.long _ a l r (CellTree.sub_self _ _)
      · rw [← formed.same]
        exact stored.around all
  · rw [← formed.same]
    by_cases all : info.nonnegativeRootTileIndex = .nonnegativeAll
    · obtain ⟨tile, leaf⟩ := stored.wf.shape_all all
      dsimp only at leaf
      subst leaf
      have same : Tile.ofSamples (contents (.leaf tile)) = tile := (CellTree.eachLeaf_leaf.mp plain).symm
      rw [same]
      exact .leaf (CellTree.eachLeaf_leaf.mp fits)
    · exact .of_contents nodes formed.long (stored.wf.leaves_has (stored.regular all)) plain fits

/-- Two runs that keep the same samples keep the same tiles and the same info record. -/
theorem same_of_history {bs' : List Batch} {kvs' : Kvs} (run : Runs ch bs kvs) (run' : Runs ch bs' kvs')
    (separate : Separate bs) (separate' : Separate bs') (same : history bs = history bs') :
    kvs = kvs' := by
  rcases run.canonical separate with ⟨rfl, none⟩ | ⟨info, tree, stored, canonical⟩
  · rcases run'.canonical separate' with ⟨rfl, -⟩ | ⟨info, tree, stored, canonical⟩
    · rfl
    · rw [← same, none] at canonical
      have mem := stored.spanned.min_mem
      rw [canonical.contents] at mem
      cases mem
  · rcases run'.canonical separate' with ⟨rfl, none⟩ | ⟨info', tree', stored', canonical'⟩
    · rw [same, none] at canonical
      have mem := stored.spanned.min_mem
      rw [canonical.contents] at mem
      cases mem
    · rw [← same] at canonical'
      have root := canonical.root_eq canonical'
      have grown := canonical'.grown
      rw [← root] at grown
      obtain rfl := canonical.grown.unique grown
      have times : info.times = info'.times := stored.spanned.hull.unique stored'.spanned.hull
      have constants := run.info_constants info stored.metainfo
      have constants' := run'.info_constants info' stored'.metainfo
      have infos : info = info' := ChannelInfo.eq_of_parts (stored.magic.trans stored'.magic.symm)
        (constants.1.trans constants'.1.symm) times root (constants.2.trans constants'.2.symm)
      have tiles := stored.tiles
      rw [infos, ← stored'.tiles] at tiles
      have metainfo := stored.metainfo
      rw [infos, ← stored'.metainfo] at metainfo
      cases kvs
      cases kvs'
      cases tiles
      cases metainfo
      rfl

end Runs

end Mio.Datastore
