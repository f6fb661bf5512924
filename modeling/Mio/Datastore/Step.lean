import Mathlib.Logic.Relation
import Mio.Datastore.Split

/-! One `add_data` call as a machine on trees: the root moves up, the batch is merged leaf by leaf,
and queued inner tiles are combined anew. What holds in every state follows from its five steps. -/
namespace Mio.Datastore

/-- A channel in the course of a call: its root, the tree of its tiles, the inner tiles queued for
regeneration and the part of the batch still to come. -/
structure Progress where
  root : TileIndex
  tree : TileTree
  stale : List TileIndex
  pending : Samples

namespace Progress

def total (p : Progress) : Samples := .overwrite p.pending (contents p.tree)

def queued (root ti : TileIndex) (stale : List TileIndex) : List TileIndex :=
  if ti = root then stale else Channel.setInsert ti.up stale

end Progress

/-- Two times of `u` that no smaller cell holds together. -/
def Tight (root : TileIndex) (u : Samples) : Prop :=
  ∃ a ∈ u.times, ∃ b ∈ u.times, a < b ∧ Cell.Smallest root a b

/-- The smallest cell around all times of `u`, of which there are at least two. -/
def Around (c : TileIndex) (u : Samples) : Prop := Tight c u ∧ ∀ t ∈ u.times, c.Has t

theorem Around.congr {c : TileIndex} {u v : Samples} (h : Around c u)
    (same : ∀ t, t ∈ v.times ↔ t ∈ u.times) : Around c v := by
  obtain ⟨⟨a, ha, b, hb, rest⟩, has⟩ := h
  exact ⟨⟨a, (same a).mpr ha, b, (same b).mpr hb, rest⟩, fun t ht => has t ((same t).mp ht)⟩

theorem Around.unique {c d : TileIndex} {u : Samples} (h : Around c u) (g : Around d u) : c = d := by
  obtain ⟨⟨a, ha, b, hb, -, least⟩, has⟩ := h
  obtain ⟨⟨a', ha', b', hb', -, least'⟩, has'⟩ := g
  refine Cell.eq_of_has (has a ha) (has' a ha) (le_antisymm ?_ ?_)
  · exact least.least d (has' a ha) (has' b hb)
  · exact least'.least c (has a' ha') (has b' hb')

inductive Step (limit : ℕ) : Progress → Progress → Prop
  | raise {root tree pending} (n : ℕ) (regular : Regular (Cell.up^[n + 1] root))
      (tight : Tight (Cell.up^[n + 1] root) (.overwrite pending (contents tree))) :
      Step limit ⟨root, tree, [], pending⟩
        ⟨Cell.up^[n + 1] root, tree.raise .new (n + 1) root, [root.up], pending⟩
  | fill {tile stale chunk rest} (inside : ∀ t ∈ chunk.times, TileIndex.nonnegativeAll.containsTime t)
      (past : ∀ t ∈ rest.times, TileIndex.nonnegativeAll.endTime ≤ t)
      (fits : (tile.insert chunk).binaryLength ≤ limit) :
      Step limit ⟨.nonnegativeAll, .leaf tile, stale, chunk ++ rest⟩
        ⟨.nonnegativeAll, .leaf (tile.insert chunk), stale, rest⟩
  | reroot {root tile s stale chunk rest}
      (inside : ∀ t ∈ chunk.times, TileIndex.nonnegativeAll.containsTime t)
      (past : ∀ t ∈ rest.times, TileIndex.nonnegativeAll.endTime ≤ t)
      (regular : Regular root) (tight : Tight root (tile.insert chunk).samples)
      (has : ∀ t ∈ (tile.insert chunk).samples.times, root.Has t)
      (grown : Grown limit root (tile.insert chunk) s) (long : limit < (tile.insert chunk).binaryLength) :
      Step limit ⟨.nonnegativeAll, .leaf tile, stale, chunk ++ rest⟩ ⟨root, s, stale, rest⟩
  | insert {root ti tree tile s stale chunk rest} (regular : Regular root)
      (leaf : tree.sub root ti = some (.leaf tile)) (inside : ∀ t ∈ chunk.times, ti.Has t)
      (past : chunk = .empty ∨ ∀ t ∈ rest.times, ti.stop ≤ t)
      (grown : Grown limit ti (tile.insert chunk) s) :
      Step limit ⟨root, tree, stale, chunk ++ rest⟩
        ⟨root, CellTree.graft s ti tree root, Progress.queued root ti stale, rest⟩
  | regenerate {root w tree parent a l r stale pending}
      (node : tree.sub root w = some (.node a l r)) (combined : Consistent w parent l.label r.label) :
      Step limit ⟨root, tree, w :: stale, pending⟩
        ⟨root, CellTree.graft (.node parent l r) w tree root, Progress.queued root w stale, pending⟩

/-- What a leaf holds: non-negative finite doubles, sorted, inside its interval. -/
structure Leafy (i : TileIndex) (u : Samples) : Prop where
  ascending : u.Ascending
  inside : ∀ t ∈ u.times, i.containsTime t
  double : ∀ t ∈ u.times, IsDouble t ∧ 0 ≤ t

/-- One all-tile, or a full tree below a regular root. -/
def Shaped (root : TileIndex) (tree : TileTree) : Prop :=
  root = .nonnegativeAll ∧ (∃ tile, tree = .leaf tile) ∨
    Regular root ∧ ∃ a l r, tree = .node a l r

structure Progress.Wf (p : Progress) : Prop where
  shape : Shaped p.root p.tree
  deep : p.tree.EachNode (fun i _ _ _ => -1074 < i.level) p.root
  leaves : p.tree.EachLeaf (fun i a => Leafy i a.samples) p.root
  headers : p.tree.EachLabel (fun _ a => a.header = Tile.new.header) p.root
  stale : ∀ w ∈ p.stale, ∃ a l r, p.tree.sub p.root w = some (.node a l r)
  ascending : p.pending.Ascending
  double : ∀ t ∈ p.pending.times, IsDouble t ∧ 0 ≤ t
  tight : p.root ≠ .nonnegativeAll → Tight p.root p.total

theorem Progress.Wf.low {p : Progress} (wf : p.Wf) : -1074 ≤ p.root.level := by
  rcases wf.shape with ⟨all, -⟩ | ⟨regular, -⟩
  · rw [all]
    exact (by decide : (-1074 : ℤ) ≤ TileIndex.intMax)
  · exact regular.1

theorem Channel.mem_setInsert {x ti : TileIndex} {l : List TileIndex} :
    x ∈ setInsert ti l ↔ x = ti ∨ x ∈ l := by
  induction l with
  | nil => simp [setInsert]
  | cons y l ih =>
      simp only [setInsert]
      split
      · next eq => simp [eq]
      · split
        · simp
        · simp only [List.mem_cons, ih]
          tauto

theorem Progress.mem_queued {x root ti : TileIndex} {stale : List TileIndex}
    (h : x ∈ queued root ti stale) : x ∈ stale ∨ ti ≠ root ∧ x = ti.up := by
  unfold queued at h
  split at h
  · exact .inl h
  · next ne => exact (Channel.mem_setInsert.mp h).symm.imp_right fun eq => ⟨ne, eq⟩

theorem Progress.subset_queued {x root ti : TileIndex} {stale : List TileIndex} (h : x ∈ stale) :
    x ∈ queued root ti stale := by
  unfold queued
  split
  · exact h
  · exact Channel.mem_setInsert.mpr (.inr h)

theorem regular_of_deep {root i : TileIndex} {tree s : TileTree} (regular : Regular root)
    (deep : tree.EachNode (fun i _ _ _ => -1074 < i.level) root) (h : tree.sub root i = some s) :
    Regular i := by
  by_cases eq : i = root
  · exact eq ▸ regular
  · obtain ⟨a, l, r, node⟩ := CellTree.sub_up h eq
    have below := deep _ a l r node
    have level := (CellTree.under_of_sub h).level_le
    exact ⟨by simp only [Cell.up] at below; omega, level.trans regular.2⟩

theorem Leafy.fed {i : TileIndex} {u : Samples} (h : Leafy i u) (regular : Regular i) : Fed i u :=
  ⟨h.ascending, fun t ht => (regular.containsTime_iff t).mp (h.inside t ht),
    fun t ht => (h.double t ht).1⟩

theorem Leafy.of_fed {i : TileIndex} {u : Samples} (h : Fed i u) (regular : Regular i)
    (nonneg : ∀ t ∈ u.times, 0 ≤ t) : Leafy i u :=
  ⟨h.ascending, fun t ht => (regular.containsTime_iff t).mpr (h.has t ht),
    fun t ht => ⟨h.double t ht, nonneg t ht⟩⟩

theorem Leafy.empty (i : TileIndex) : Leafy i .empty :=
  ⟨Samples.ascending_empty, by simp, by simp⟩

theorem Leafy.overwrite {i : TileIndex} {u v : Samples} (hu : Leafy i u) (hv : Leafy i v) :
    Leafy i (.overwrite u v) := by
  refine ⟨hu.ascending.overwrite hv.ascending, fun t ht => ?_, fun t ht => ?_⟩
  · exact (Samples.mem_times_overwrite.mp ht).elim (hu.inside t) (hv.inside t)
  · exact (Samples.mem_times_overwrite.mp ht).elim (hu.double t) (hv.double t)

theorem Grown.leaves_leafy {limit : ℕ} {ti : TileIndex} {tile : ExactTile} {s : TileTree}
    (g : Grown limit ti tile s) (regular : Regular ti) (h : Leafy ti tile.samples) :
    s.EachLeaf (fun i a => Leafy i a.samples) ti := by
  intro i a mem
  have fed := g.leaves_fed (h.fed regular) i a mem
  have reg := regular_of_deep regular (g.nodes_deep (h.fed regular)) (CellTree.mem_leaves.mp mem)
  refine .of_fed fed reg fun t ht => (h.double t ?_).2
  rw [← g.contents_eq, Datastore.contents_eq s ti]
  exact mem_times_concat.mpr ⟨(i, a), mem, ht⟩

theorem Grown.node_of_long {limit : ℕ} {ti : TileIndex} {tile : ExactTile} {s : TileTree}
    (g : Grown limit ti tile s) (long : limit < tile.binaryLength) : ∃ a l r, s = .node a l r := by
  cases g with
  | leaf fits => exact absurd fits (not_le.mpr long)
  | node => exact ⟨_, _, _, rfl⟩

theorem Tight.mono {root : TileIndex} {u v : Samples} (h : Tight root u)
    (sub : ∀ t ∈ u.times, t ∈ v.times) : Tight root v := by
  obtain ⟨a, ha, b, hb, lt, least⟩ := h
  exact ⟨a, sub a ha, b, sub b hb, lt, least⟩

theorem Progress.up_mem_queued {root ti : TileIndex} {stale : List TileIndex} (ne : ti ≠ root) :
    ti.up ∈ queued root ti stale := by
  rw [queued, if_neg ne]
  exact Channel.mem_setInsert.mpr (.inl rfl)

namespace Progress.Wf

variable {p : Progress}

theorem shape_all (wf : p.Wf) (all : p.root = .nonnegativeAll) : ∃ tile, p.tree = .leaf tile := by
  rcases wf.shape with ⟨-, leaf⟩ | ⟨regular, -⟩
  · exact leaf
  · exact (regular.not_all all).elim

theorem shape_node (wf : p.Wf) (ne : p.root ≠ .nonnegativeAll) :
    Regular p.root ∧ ∃ a l r, p.tree = .node a l r := by
  rcases wf.shape with ⟨all, -⟩ | node
  · exact (ne all).elim
  · exact node

theorem regular_of_sub (wf : p.Wf) (regular : Regular p.root) {i : TileIndex} {s : TileTree}
    (h : p.tree.sub p.root i = some s) : Regular i := regular_of_deep regular wf.deep h

theorem regular_of_node (wf : p.Wf) {i : TileIndex} {a : ExactTile} {l r : TileTree}
    (h : p.tree.sub p.root i = some (.node a l r)) : Regular p.root := by
  rcases wf.shape with ⟨all, tile, eq⟩ | ⟨regular, -⟩
  · rw [eq] at h
    simp only [CellTree.sub] at h
    split at h <;> cases h
  · exact regular

theorem leaves_has (wf : p.Wf) (regular : Regular p.root) :
    p.tree.EachLeaf (fun i a => ∀ t ∈ a.samples.times, i.Has t) p.root := by
  intro i a mem t ht
  have reg := wf.regular_of_sub regular (CellTree.mem_leaves.mp mem)
  exact (reg.containsTime_iff t).mp ((wf.leaves i a mem).inside t ht)

theorem contents_ascending (wf : p.Wf) : (contents p.tree).Ascending := by
  rcases wf.shape with ⟨all, tile, eq⟩ | ⟨regular, -⟩
  · have leaf := wf.leaves
    rw [eq] at leaf ⊢
    exact (CellTree.eachLeaf_leaf.mp leaf).ascending
  · exact Datastore.contents_ascending (wf.leaves_has regular) fun i a mem => (wf.leaves i a mem).ascending

theorem total_double (wf : p.Wf) : ∀ t ∈ p.total.times, IsDouble t ∧ 0 ≤ t := by
  intro t ht
  rcases Samples.mem_times_overwrite.mp ht with ht | ht
  · exact wf.double t ht
  · rw [Datastore.contents_eq p.tree p.root] at ht
    obtain ⟨⟨i, tile⟩, mem, ht⟩ := mem_times_concat.mp ht
    exact (wf.leaves i tile mem).double t ht

end Progress.Wf

/-- A batch merged piece by piece is merged as a whole. -/
theorem total_advance {old chunk rest : Samples} (hold : old.Ascending)
    (pending : (chunk ++ rest).Ascending) (behind : ∀ s ∈ chunk.times, ∀ t ∈ rest.times, s < t) :
    Samples.overwrite rest (.overwrite chunk old) = .overwrite (chunk ++ rest) old :=
  Samples.overwrite_overwrite hold pending.of_append.2 behind

/-- What fits into a tile lies in front of what starts behind it. -/
theorem behind_of_past {ti : TileIndex} {chunk rest : Samples} (inside : ∀ t ∈ chunk.times, ti.containsTime t)
    (past : ∀ t ∈ rest.times, ti.endTime ≤ t) : ∀ s ∈ chunk.times, ∀ t ∈ rest.times, s < t :=
  fun s hs t ht => (inside s hs).2.trans_le (past t ht)

theorem Step.behind {ti : TileIndex} {chunk rest : Samples} (inside : ∀ t ∈ chunk.times, ti.Has t)
    (past : chunk = .empty ∨ ∀ t ∈ rest.times, ti.stop ≤ t) :
    ∀ s ∈ chunk.times, ∀ t ∈ rest.times, s < t := by
  intro s hs t ht
  cases past with
  | inl empty =>
      rw [empty] at hs
      cases hs
  | inr past => exact (inside s hs).2.trans_le (past t ht)

theorem Step.contents_insert {limit : ℕ} {root ti : TileIndex} {tree s : TileTree} {tile : ExactTile}
    {chunk : Samples} (leaf : tree.sub root ti = some (.leaf tile))
    (has : tree.EachLeaf (fun i a => ∀ t ∈ a.samples.times, i.Has t) root)
    (inside : ∀ t ∈ chunk.times, ti.Has t) (grown : Grown limit ti (tile.insert chunk) s) :
    contents (CellTree.graft s ti tree root) = .overwrite chunk (contents tree) := by
  obtain ⟨a, b, old, new, front, back⟩ := contents_graft leaf has
  have here : ∀ t ∈ (chunk ++ tile.samples).times, ti.Has t := by
    intro t ht
    rcases Samples.mem_times_append.mp ht with ht | ht
    · exact inside t ht
    · exact has ti tile (CellTree.mem_leaves.mpr leaf) t ht
  rw [new, old, grown.contents_eq, Tile.samples_insert, contents]
  refine (Samples.overwrite_middle ?_ ?_ ?_).symm
  · exact fun x hx y hy => (front x hx).trans_le (here y hy).1
  · exact fun x hx y hy => (here x hx).2.trans_le (back y hy)
  · exact fun x hx y hy => (front x hx).trans (ti.start_lt_stop.trans_le (back y hy))

theorem Step.contents_regenerate {root w : TileIndex} {tree l r : TileTree} {a parent : ExactTile}
    (node : tree.sub root w = some (.node a l r))
    (has : tree.EachLeaf (fun i a => ∀ t ∈ a.samples.times, i.Has t) root) :
    contents (CellTree.graft (.node parent l r) w tree root) = contents tree := by
  obtain ⟨a, b, old, new, -, -⟩ := contents_graft node has
  rw [new, old]
  rfl

/-- No step changes what the leaves will hold in the end. -/
theorem Step.total_eq {limit : ℕ} {p q : Progress} (step : Step limit p q) (wf : p.Wf) :
    q.total = p.total := by
  cases step with
  | raise n regular tight =>
      simp only [Progress.total, contents_raise]
  | @fill tile stale chunk rest inside past fits =>
      exact total_advance (CellTree.eachLeaf_leaf.mp wf.leaves).ascending wf.ascending
        (behind_of_past inside past)
  | @reroot root tile s stale chunk rest inside past regular tight has grown long =>
      simp only [Progress.total, grown.contents_eq]
      exact total_advance (CellTree.eachLeaf_leaf.mp wf.leaves).ascending wf.ascending
        (behind_of_past inside past)
  | @insert root ti tree tile s stale chunk rest regular leaf inside past grown =>
      simp only [Progress.total, Step.contents_insert leaf (wf.leaves_has regular) inside grown]
      exact total_advance wf.contents_ascending wf.ascending (Step.behind inside past)
  | @regenerate root w tree parent a l r stale pending node combined =>
      have regular : Regular root := wf.regular_of_node node
      simp only [Progress.total, Step.contents_regenerate node (wf.leaves_has regular)]

/-- The inner nodes stay where they are when a tree is put in the place of a leaf, or a node in the
place of a node. -/
theorem Step.node_survives {root ti w : TileIndex} {tree s s₀ l r : TileTree} {a : ExactTile}
    (old : tree.sub root ti = some s₀) (node : tree.sub root w = some (.node a l r))
    (same : w.Under ti → ∃ b l' r', s.sub ti w = some (.node b l' r')) :
    ∃ b l' r', (CellTree.graft s ti tree root).sub root w = some (.node b l' r') := by
  by_cases under : w.Under ti
  · rw [CellTree.sub_graft_under old under]
    exact same under
  · by_cases above : ti.Under w
    · rw [CellTree.sub_graft_above node above, CellTree.graft, if_neg]
      · exact ⟨_, _, _, rfl⟩
      · rintro rfl
        exact under (.refl _)
    · rw [CellTree.sub_graft_beside under above]
      exact ⟨_, _, _, node⟩

/-- The parent of a changed tile is an inner node. -/
theorem Step.parent_survives {root ti : TileIndex} {tree s s₀ : TileTree}
    (old : tree.sub root ti = some s₀) (ne : ti ≠ root) :
    ∃ b l' r', (CellTree.graft s ti tree root).sub root ti.up = some (.node b l' r') := by
  obtain ⟨a, l, r, node⟩ := CellTree.sub_up old ne
  refine Step.node_survives old node fun under => ?_
  have := under.level_le
  simp [Cell.up] at this

theorem Step.keeps_node {limit : ℕ} {p q : Progress} (step : Step limit p q) {w : TileIndex}
    (h : ∃ a l r, p.tree.sub p.root w = some (.node a l r)) :
    ∃ a l r, q.tree.sub q.root w = some (.node a l r) := by
  obtain ⟨b, l₀, r₀, node⟩ := h
  have no_leaf : ∀ {i : TileIndex} {tile : ExactTile},
      (CellTree.leaf tile).sub i w = some (.node b l₀ r₀) → False :=
    fun bad => CellTree.eachNode_leaf (P := fun _ _ _ _ => False) w b l₀ r₀ bad
  cases step with
  | @raise root tree pending n regular tight =>
      refine ⟨b, l₀, r₀, ?_⟩
      rw [CellTree.sub_sub (CellTree.sub_raise Tile.new (n + 1) tree root) (CellTree.under_of_sub node)]
      exact node
  | fill inside past fits => exact (no_leaf node).elim
  | reroot inside past regular tight has grown long => exact (no_leaf node).elim
  | insert regular leaf inside past grown =>
      refine Step.node_survives leaf node fun under => ?_
      rw [CellTree.sub_sub leaf under] at node
      exact (no_leaf node).elim
  | regenerate old combined =>
      refine Step.node_survives old node fun under => ?_
      rw [CellTree.sub_sub old under] at node
      rcases under.cases with rfl | lo | hi
      · exact ⟨_, _, _, CellTree.sub_self _ _⟩
      · rw [CellTree.sub_node_lo lo] at node ⊢
        exact ⟨b, l₀, r₀, node⟩
      · rw [CellTree.sub_node_hi hi] at node ⊢
        exact ⟨b, l₀, r₀, node⟩

theorem Step.shape_graft {root ti : TileIndex} {tree s : TileTree} (shape : Shaped root tree)
    (regular : Regular root) (node : ti = root → ∃ a l r, s = .node a l r) :
    Shaped root (CellTree.graft s ti tree root) := by
  rcases shape with ⟨all, -⟩ | ⟨-, a, l, r, rfl⟩
  · exact (regular.not_all all).elim
  · refine .inr ⟨regular, ?_⟩
    by_cases eq : ti = root
    · rw [eq, CellTree.graft_self]
      exact node eq
    · rw [CellTree.graft, if_neg eq]
      exact ⟨_, _, _, rfl⟩

theorem Step.raise_wf {root : TileIndex} {tree : TileTree} {n : ℕ}
    (regular : Regular (Cell.up^[n] root))
    (deep : tree.EachNode (fun i _ _ _ => -1074 < i.level) root) (low : -1074 ≤ root.level)
    (leaves : tree.EachLeaf (fun i a => Leafy i a.samples) root)
    (headers : tree.EachLabel (fun _ a => a.header = Tile.new.header) root) :
    (tree.raise .new n root).EachNode (fun i _ _ _ => -1074 < i.level) (Cell.up^[n] root) ∧
      (tree.raise .new n root).EachLeaf (fun i a => Leafy i a.samples) (Cell.up^[n] root) ∧
      (tree.raise .new n root).EachLabel (fun _ a => a.header = Tile.new.header) (Cell.up^[n] root) := by
  have all := CellTree.raise_induct (e := Tile.new)
    (motive := fun t c => -1074 ≤ c.level ∧ t.EachNode (fun i _ _ _ => -1074 < i.level) c ∧
      t.EachLeaf (fun i a => Leafy i a.samples) c ∧
      t.EachLabel (fun _ a => a.header = Tile.new.header) c) (by
    rintro t c - ⟨low, deep, leaves, headers⟩
    have up : -1074 < c.up.level := by
      simp only [Cell.up]
      omega
    refine ⟨up.le, deep.hoist up up, ?_, headers.hoist rfl headers.label⟩
    refine leaves.hoist _ ?_
    rw [Tile.samples_new]
    exact .empty _) regular.2 ⟨low, deep, leaves, headers⟩
  exact all.2

/-- Every step leads from a well-formed state to a well-formed state. -/
theorem Step.wf {limit : ℕ} {p q : Progress} (step : Step limit p q) (wf : p.Wf) : q.Wf := by
  have total := step.total_eq wf
  have keep : ∀ w ∈ p.stale, ∃ a l r, q.tree.sub q.root w = some (.node a l r) :=
    fun w hw => step.keeps_node (wf.stale w hw)
  cases step with
  | @raise root tree pending n regular tight =>
      have low : -1074 ≤ root.level := wf.low
      obtain ⟨deep, leaves, headers⟩ := Step.raise_wf regular wf.deep low wf.leaves wf.headers
      have up := CellTree.sub_raise Tile.new n (tree.hoist .new tree.label root) root.up
      obtain ⟨a, l, r, node⟩ : ∃ a l r, CellTree.hoist Tile.new tree.label tree root = .node a l r := by
        rcases CellTree.hoist_cases Tile.new tree.label tree root with ⟨-, eq⟩ | ⟨-, eq⟩ <;>
          exact ⟨_, _, _, eq⟩
      rw [node] at up
      have top : ∃ a l r, tree.raise .new (n + 1) root = .node a l r := by
        cases h : tree.raise .new (n + 1) root with
        | node a l r => exact ⟨a, l, r, rfl⟩
        | leaf b =>
            rw [CellTree.raise, node] at h
            rw [h] at up
            simp only [CellTree.sub] at up
            split at up <;> cases up
      refine ⟨.inr ⟨regular, top⟩, deep, leaves, headers, ?_, wf.ascending, wf.double, ?_⟩
      · intro w hw
        cases List.mem_singleton.mp hw
        refine ⟨a, l, r, ?_⟩
        rw [← up, ← node]
        rfl
      · intro _
        rw [total]
        exact tight
  | @fill tile stale chunk rest inside past fits =>
      have old := CellTree.eachLeaf_leaf.mp wf.leaves
      have new : Leafy .nonnegativeAll (tile.insert chunk).samples := by
        refine Leafy.overwrite ⟨wf.ascending.of_append.1, inside, ?_⟩ old
        exact fun t ht => wf.double t (Samples.mem_times_append.mpr (.inl ht))
      refine ⟨.inl ⟨rfl, _, rfl⟩, CellTree.eachNode_leaf, CellTree.eachLeaf_leaf.mpr new,
        CellTree.eachLabel_leaf.mpr wf.headers.label, ?_, wf.ascending.of_append.2, ?_, ?_⟩
      · exact keep
      · exact fun t ht => wf.double t (Samples.mem_times_append.mpr (.inr ht))
      · exact fun ne => (ne rfl).elim
  | @reroot root tile s stale chunk rest inside past regular tight has grown long =>
      have old := CellTree.eachLeaf_leaf.mp wf.leaves
      have double : ∀ t ∈ (tile.insert chunk).samples.times, IsDouble t ∧ 0 ≤ t := by
        intro t ht
        rcases Tile.mem_times_insert.mp ht with ht | ht
        · exact wf.double t (Samples.mem_times_append.mpr (.inl ht))
        · exact old.double t ht
      have new : Leafy root (tile.insert chunk).samples :=
        ⟨wf.ascending.of_append.1.overwrite old.ascending,
          fun t ht => (regular.containsTime_iff t).mpr (has t ht), double⟩
      refine ⟨.inr ⟨regular, grown.node_of_long long⟩, grown.nodes_deep (new.fed regular),
        grown.leaves_leafy regular new, grown.headers wf.headers.label, ?_,
        wf.ascending.of_append.2, ?_, ?_⟩
      · exact keep
      · exact fun t ht => wf.double t (Samples.mem_times_append.mpr (.inr ht))
      · intro _
        refine tight.mono fun t ht => ?_
        rw [total]
        simp only [Progress.total, Samples.mem_times_overwrite, Samples.mem_times_append, contents]
        rcases Tile.mem_times_insert.mp ht with ht | ht
        · exact .inl (.inl ht)
        · exact .inr ht
  | @insert root ti tree tile s stale chunk rest regular leaf inside past grown =>
      have reg : Regular ti := wf.regular_of_sub regular leaf
      have old := wf.leaves ti tile (CellTree.mem_leaves.mpr leaf)
      have new : Leafy ti (tile.insert chunk).samples := by
        refine Leafy.overwrite ⟨wf.ascending.of_append.1, ?_, ?_⟩ old
        · exact fun t ht => (reg.containsTime_iff t).mpr (inside t ht)
        · exact fun t ht => wf.double t (Samples.mem_times_append.mpr (.inl ht))
      have header : (tile.insert chunk).header = Tile.new.header :=
        wf.headers ti tile (by rw [CellTree.get, leaf]; rfl)
      have proper : ti ≠ root := by
        rintro rfl
        obtain ⟨a, l, r, eq⟩ := (wf.shape_node regular.not_all).2
        dsimp only at eq
        rw [eq, CellTree.sub_self] at leaf
        cases leaf
      refine ⟨Step.shape_graft wf.shape regular fun eq => (proper eq).elim, ?_,
        wf.leaves.graft leaf (grown.leaves_leafy reg new),
        wf.headers.graft leaf (grown.headers header), ?_, wf.ascending.of_append.2, ?_, ?_⟩
      · intro i a l r node
        rcases CellTree.sub_graft_node leaf node with ⟨-, new_node⟩ | ⟨-, -, old_node⟩ | ⟨-, l₀, r₀, old_node, -⟩
        · exact grown.nodes_deep (new.fed reg) i a l r new_node
        · exact wf.deep i a l r old_node
        · exact wf.deep i a l₀ r₀ old_node
      · intro w hw
        rcases Progress.mem_queued hw with hw | ⟨-, rfl⟩
        · exact keep w hw
        · exact Step.parent_survives leaf proper
      · exact fun t ht => wf.double t (Samples.mem_times_append.mpr (.inr ht))
      · intro ne
        rw [total]
        exact wf.tight ne
  | @regenerate root w tree parent a l r stale pending node combined =>
      have regular : Regular root := wf.regular_of_node node
      have node_at : ∀ {i : TileIndex} {b : ExactTile} {l' r' : TileTree},
          (CellTree.graft (.node parent l r) w tree root).sub root i = some (.node b l' r') →
          ∃ b₀ l₀ r₀, tree.sub root i = some (.node b₀ l₀ r₀) := by
        intro i b l' r' h
        rcases CellTree.sub_graft_node node h with ⟨under, new_node⟩ | ⟨-, -, old_node⟩ | ⟨-, l₀, r₀, old_node, -⟩
        · rcases under.cases with rfl | lo | hi
          · exact ⟨a, l, r, node⟩
          · rw [CellTree.sub_node_lo lo] at new_node
            exact ⟨b, l', r', by rw [CellTree.sub_sub node under, CellTree.sub_node_lo lo, new_node]⟩
          · rw [CellTree.sub_node_hi hi] at new_node
            exact ⟨b, l', r', by rw [CellTree.sub_sub node under, CellTree.sub_node_hi hi, new_node]⟩
        · exact ⟨b, l', r', old_node⟩
        · exact ⟨b, l₀, r₀, old_node⟩
      have header : parent.header = Tile.new.header := (createParent_ret combined).2.2.2
      have leaves := CellTree.eachLeaf_node.mp (wf.leaves.sub node)
      have headers := CellTree.eachLabel_node.mp (wf.headers.sub node)
      refine ⟨Step.shape_graft wf.shape regular fun _ => ⟨_, _, _, rfl⟩, ?_,
        wf.leaves.graft node (CellTree.eachLeaf_node.mpr leaves),
        wf.headers.graft node (CellTree.eachLabel_node.mpr ⟨header, headers.2⟩), ?_,
        wf.ascending, wf.double, ?_⟩
      · intro i b l' r' h
        obtain ⟨b₀, l₀, r₀, old_node⟩ := node_at h
        exact wf.deep i b₀ l₀ r₀ old_node
      · intro v hv
        rcases Progress.mem_queued hv with hv | ⟨ne, rfl⟩
        · exact keep v (List.mem_cons_of_mem _ hv)
        · exact Step.parent_survives node ne
      · intro ne
        rw [total]
        exact wf.tight ne

end Mio.Datastore
