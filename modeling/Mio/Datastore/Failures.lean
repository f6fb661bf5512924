import Mio.Datastore.Interrupted
import Mio.Datastore.Settled

/-! What can still be read after a call in which a set failed. -/
namespace Mio.Datastore

/-- The store as a search sees it: the file of a torn key is there, though nothing can be read from
it. -/
def Failure.files (f : Failure) : Kvs :=
  match f.torn with
  | none => f.left
  | some .metainfo => { f.left with metainfo := some none }
  | some (.tile ti) => { f.left with tiles := Function.update f.left.tiles ti (some .new) }

def Failure.readTile (f : Failure) (ti : TileIndex) : Option ExactTile :=
  if f.torn = some (.tile ti) then none else f.left.tiles ti

def Kvs.Finds (kvs : Kvs) (t : ℚ) (ti : TileIndex) : Prop :=
  ∃ info, kvs.readInfo = .ret (some info) ∧ Outcome.Reaches
    (fun fuel => kvs.findLowestChildOverlappingTime fuel info.nonnegativeRootTileIndex t) ti

theorem Kvs.Finds.unique {kvs : Kvs} {t : ℚ} {ti ti' : TileIndex} (h : kvs.Finds t ti)
    (g : kvs.Finds t ti') : ti = ti' := by
  obtain ⟨info, read, reaches⟩ := h
  obtain ⟨info', read', reaches'⟩ := g
  rw [read] at read'
  cases read'
  exact reaches.unique reaches'

/-- What is there after a call: the files, for a search, and the tiles that can be read from them. -/
structure Disk where
  files : Kvs
  readTile : TileIndex → Option ExactTile

def Failure.disk (f : Failure) : Disk := ⟨f.files, f.readTile⟩

/-- The files of `lost` keys are empty, since `fclose` could not write their values. The call that set
them did not notice; had it read such a tile again, `from_binary` would have aborted. -/
def Disk.lose (d : Disk) (lost : Key → Bool) : Disk where
  files := if lost .metainfo then { d.files with metainfo := d.files.metainfo.map fun _ => none } else d.files
  readTile ti := if lost (.tile ti) then none else d.readTile ti

/-- Where a sample could be read, it still can, unless the batch has put one of its own at its time. -/
def Kept {V : Type} (pick : Samples → List (Sample V)) (kvs : Kvs) (batch : Samples) (d : Disk) : Prop :=
  ∀ x ti tile, kvs.Finds x.time ti → kvs.tiles ti = some tile → x ∈ pick tile.samples →
    ∃ ti' tile', d.files.Finds x.time ti' ∧ d.readTile ti' = some tile' ∧
      ∃ y ∈ pick tile'.samples, y.time = x.time ∧ (y = x ∨ y ∈ pick batch)

structure Usable (kvs : Kvs) (batch : Samples) (d : Disk) : Prop where
  root : ∀ info, d.files.readInfo = .ret (some info) →
    ∃ tile, d.readTile info.nonnegativeRootTileIndex = some tile
  doubles : Kept Samples.doubles kvs batch d
  strings : Kept Samples.strings kvs batch d

namespace Failure

variable {f : Failure}

theorem files_metainfo (whole : f.torn ≠ some .metainfo) : f.files.metainfo = f.left.metainfo := by
  unfold files
  split
  · rfl
  · next torn => exact (whole torn).elim
  · rfl

theorem files_tiles {ti : TileIndex} (whole : f.torn ≠ some (.tile ti)) :
    f.files.tiles ti = f.left.tiles ti := by
  unfold files
  split
  · rfl
  · rfl
  · next i torn =>
      refine Function.update_of_ne ?_ _ _
      rintro rfl
      exact whole torn

theorem files_torn {ti : TileIndex} (torn : f.torn = some (.tile ti)) :
    f.files.tiles ti = some .new := by
  unfold files
  rw [torn]
  exact Function.update_self ti _ _

theorem files_hasTile {ti : TileIndex} (h : f.left.hasTile ti) : f.files.hasTile ti := by
  by_cases torn : f.torn = some (.tile ti)
  · exact Kvs.hasTile_of_some (files_torn torn)
  · rwa [Kvs.hasTile, files_tiles torn]

theorem files_absent {ti : TileIndex} (none : f.left.tiles ti = none)
    (whole : f.torn ≠ some (.tile ti)) : ¬ f.files.hasTile ti :=
  Kvs.not_hasTile ((files_tiles whole).trans none)

theorem readTile_whole {ti : TileIndex} (whole : f.torn ≠ some (.tile ti)) :
    f.readTile ti = f.left.tiles ti := if_neg whole

theorem readTile_torn {ti : TileIndex} (torn : f.torn = some (.tile ti)) : f.readTile ti = none :=
  if_pos torn

theorem whole_of_ne {key i : TileIndex} (torn : f.torn = none ∨ f.torn = some (.tile key))
    (apart : i ≠ key) : f.torn ≠ some (.tile i) := by
  intro eq
  rcases torn with whole | torn
  · rw [whole] at eq
    cases eq
  · rw [torn] at eq
    cases eq
    exact apart rfl

theorem eq_of_torn {key i : TileIndex} (torn : f.torn = none ∨ f.torn = some (.tile key))
    (h : f.torn = some (.tile i)) : i = key := by
  by_contra apart
  exact whole_of_ne torn apart h

end Failure

structure Picks {V : Type} (pick : Samples → List (Sample V)) : Prop where
  overwrite : ∀ u v, pick (.overwrite u v) = Mio.overwrite DataSample.time (pick u) (pick v)
  append : ∀ u v, pick (u ++ v) = pick u ++ pick v
  times : ∀ u, ∀ x ∈ pick u, x.time ∈ u.times

theorem picks_doubles : Picks Samples.doubles :=
  ⟨fun _ _ => rfl, fun _ _ => rfl, fun _ x hx => Samples.mem_times.mpr (.inl ⟨x, hx, rfl⟩)⟩

theorem picks_strings : Picks Samples.strings :=
  ⟨fun _ _ => rfl, fun _ _ => rfl, fun _ x hx => Samples.mem_times.mpr (.inr ⟨x, hx, rfl⟩)⟩

/-- At `t`, `new` has what `old` had, save what the batch replaced. -/
def Serves (batch old new : Samples) (t : ℚ) : Prop :=
  ∀ {V : Type} (pick : Samples → List (Sample V)), Picks pick → ∀ x ∈ pick old, x.time = t →
    ∃ y ∈ pick new, y.time = t ∧ (y = x ∨ y ∈ pick batch)

namespace Serves

variable {batch old new : Samples} {t : ℚ}

theorem refl (batch old : Samples) (t : ℚ) : Serves batch old old t :=
  fun _ _ x hx ht => ⟨x, hx, ht, .inl rfl⟩

theorem overwrite {done chunk rest : Samples} (part : batch = done ++ (chunk ++ rest))
    (h : Serves batch old new t) : Serves batch old (.overwrite chunk new) t := by
  intro V pick picks x hx ht
  obtain ⟨y, hy, time, from_⟩ := h pick picks x hx ht
  rw [picks.overwrite]
  have survives : y ∈ Mio.overwrite DataSample.time (pick chunk) (pick new) ∨
      ∃ z ∈ pick chunk, z.time = y.time := mem_overwrite_old hy
  rcases survives with kept | ⟨z, hz, same⟩
  · exact ⟨y, kept, time, from_⟩
  · refine ⟨z, mem_overwrite_new hz, same.trans time, .inr ?_⟩
    rw [part, picks.append, picks.append]
    exact List.mem_append_right _ (List.mem_append_left _ hz)

theorem middle {a u b : Samples} (h : Serves batch old (a ++ u ++ b) t) (front : t ∉ a.times)
    (back : t ∉ b.times) : Serves batch old u t := by
  intro V pick picks x hx ht
  obtain ⟨y, hy, time, from_⟩ := h pick picks x hx ht
  rw [picks.append, picks.append] at hy
  rcases List.mem_append.mp hy with hy | hy
  · rcases List.mem_append.mp hy with hy | hy
    · exact (front (time ▸ picks.times _ y hy)).elim
    · exact ⟨y, hy, time, from_⟩
  · exact (back (time ▸ picks.times _ y hy)).elim

theorem before {m : ℚ} (h : Serves batch old new t) (asc : new.Ascending) (lt : t < m) :
    Serves batch old (new.before m) t := by
  rw [← Samples.before_append_since new m] at h
  refine middle (a := .empty) h (by simp) fun late => ?_
  exact not_lt.mpr (asc.le_of_mem_since late) lt

theorem since {m : ℚ} (h : Serves batch old new t) (le : m ≤ t) : Serves batch old (new.since m) t := by
  rw [← Samples.before_append_since new m, ← Samples.append_empty (_ ++ _)] at h
  exact middle h (fun early => not_lt.mpr le (Samples.lt_of_mem_before early)) (by simp)

theorem mem_times (h : Serves batch old new t) (mem : t ∈ old.times) : t ∈ new.times := by
  rcases Samples.mem_times.mp mem with ⟨x, hx, time⟩ | ⟨x, hx, time⟩
  · obtain ⟨y, hy, rfl, -⟩ := h _ picks_doubles x hx time
    exact picks_doubles.times _ y hy
  · obtain ⟨y, hy, rfl, -⟩ := h _ picks_strings x hx time
    exact picks_strings.times _ y hy

theorem leaf {tree : TileTree} {c i : TileIndex} {tile : ExactTile} (h : Serves batch old (contents tree) t)
    (leaf : tree.sub c i = some (.leaf tile))
    (has : tree.EachLeaf (fun i a => ∀ t ∈ a.samples.times, i.Has t) c) (here : i.Has t) :
    Serves batch old tile.samples t := by
  obtain ⟨a, b, split, -, front, back⟩ := contents_graft leaf has
  rw [split] at h
  exact middle h (fun mem => not_lt.mpr here.1 (front t mem))
    fun mem => not_le.mpr here.2 (back t mem)

end Serves

/-- A step takes some of the batch and merges it into the contents. -/
theorem Step.advance {limit : ℕ} {p q : Progress} (step : Step limit p q) (wf : p.Wf) :
    ∃ chunk, p.pending = chunk ++ q.pending ∧
      contents q.tree = .overwrite chunk (contents p.tree) := by
  cases step with
  | raise n regular tight => exact ⟨.empty, rfl, contents_raise _ _ _⟩
  | fill inside past fits => exact ⟨_, rfl, rfl⟩
  | reroot inside past regular tight has grown long => exact ⟨_, rfl, grown.contents_eq⟩
  | insert regular leaf inside past grown =>
      exact ⟨_, rfl, Step.contents_insert leaf (wf.leaves_has regular) inside grown⟩
  | regenerate node combined =>
      exact ⟨.empty, rfl,
        Step.contents_regenerate node (wf.leaves_has (wf.regular_of_node node))⟩

/-- What a state owes to those who read before the call: the rest of the batch is its end, and what
was there is served. -/
structure Serving (batch old : Samples) (p : Progress) : Prop where
  part : ∃ done, batch = done ++ p.pending
  serves : ∀ t, Serves batch old (contents p.tree) t

theorem Serving.step {limit : ℕ} {batch old : Samples} {p q : Progress} (h : Serving batch old p)
    (step : Step limit p q) (wf : p.Wf) : Serving batch old q := by
  obtain ⟨chunk, pending, contents⟩ := step.advance wf
  obtain ⟨done, part⟩ := h.part
  rw [pending] at part
  refine ⟨⟨done ++ chunk, ?_⟩, fun t => ?_⟩
  · rw [part, Samples.append_assoc]
  · rw [contents]
    exact Serves.overwrite part (h.serves t)

theorem Serving.steps {limit : ℕ} {batch old : Samples} {p q : Progress} (h : Serving batch old p)
    (steps : Relation.ReflTransGen (Step limit) p q) (wf : p.Wf) : Serving batch old q :=
  Steps.keep (fun _ _ step wf h => h.step step wf) steps wf h

theorem Serving.merged {batch old chunk rest : Samples} {p : Progress} {ti : TileIndex}
    {tile : ExactTile} {t : ℚ} (h : Serving batch old p) (pass : Pass p ti tile chunk rest)
    (serves : Serves batch old tile.samples t) : Serves batch old (tile.insert chunk).samples t := by
  obtain ⟨done, part⟩ := h.part
  rw [pass.pending] at part
  exact Serves.overwrite part serves

/-- The torn file is that of a leaf with `t` in its interval. -/
def Failure.Lost (f : Failure) (t : ℚ) : Prop :=
  ∃ i : TileIndex, f.torn = some (.tile i) ∧ i.containsTime t ∧ f.left.hasTile i.parent ∧
    ¬ f.left.hasTile i.leftChild

/-- A search for `t` from `root` finds what there was, unless what it comes to is torn. -/
def Searched (f : Failure) (root : TileIndex) (batch old : Samples) (t : ℚ) : Prop :=
  (¬ f.Lost t ∧ ∃ ti tile, Outcome.Reaches (fun fuel => f.files.descendLowest t fuel root) ti ∧
    f.readTile ti = some tile ∧ Serves batch old tile.samples t) ∨
  (f.Lost t ∧ ∃ ti, Outcome.Reaches (fun fuel => f.files.descendLowest t fuel root) ti ∧
    f.readTile ti = none)

section Search
variable {f : Failure} {batch old : Samples} {t : ℚ} {ti c root : TileIndex}

theorem Searched.along (h : Searched f ti batch old t) (under : ti.Under root) (has : ti.Has t)
    (low : Regular ti) (high : Regular root)
    (path : ∀ k : TileIndex, ti.Under k → k.Under root → f.files.hasTile k) :
    Searched f root batch old t := by
  rcases h with ⟨safe, i, tile, found, rest⟩ | ⟨lost, i, found, rest⟩
  · exact .inl ⟨safe, i, tile, Kvs.search_along under has low high path found, rest⟩
  · exact .inr ⟨lost, i, Kvs.search_along under has low high path found, rest⟩

theorem steady {s : TileTree} {i : TileIndex} {tile : ExactTile} (regular : Regular c)
    (deep : s.EachNode (fun i _ _ _ => -1074 < i.level) c) (leaf : s.sub c i = some (.leaf tile))
    (has : i.Has t) (under : i.Under root) (above : root.Under c) (high : Regular root)
    (agree : ∀ k : TileIndex, k.Under c → k.Under i ∨ i.Under k → f.left.tiles k = s.get c k)
    (whole : ∀ k : TileIndex, k.Under i → k ≠ i → f.torn ≠ some (.tile k)) :
    Outcome.Reaches (fun fuel => f.files.descendLowest t fuel root) i := by
  have low := regular_of_deep regular deep leaf
  refine Kvs.search_along under has low high (fun k covers below => ?_) (Kvs.search_stops ?_)
  · obtain ⟨s', stored⟩ := CellTree.sub_between leaf covers (below.trans above)
    refine f.files_hasTile (@Kvs.hasTile_of_some _ _ s'.label ?_)
    rw [agree k (below.trans above) (.inr covers), CellTree.get, stored]
    rfl
  · have bare : ∀ k : TileIndex, k.Under i → k ≠ i → ¬ f.files.hasTile k := by
      intro k below ne
      refine f.files_absent ?_ (whole k below ne)
      rw [agree k (below.trans (under.trans above)) (.inl below), CellTree.get,
        CellTree.sub_below_leaf leaf below ne]
      rfl
    rw [Kvs.childTowards_eq low]
    split
    · exact bare _ (.lo i) (Cell.lo_ne i)
    · exact bare _ (.hi i) (Cell.hi_ne i)

/-- A child that is all there is searched to its leaves. -/
theorem Searched.of_holds {s : TileTree} (up : c.up = ti) (regular : Regular ti) (has : c.Has t)
    (stored : f.files.hasTile ti) (low : Regular c)
    (deep : s.EachNode (fun i _ _ _ => -1074 < i.level) c) (holds : f.files.Holds s c)
    (value : ∀ i tile, s.sub c i = some (.leaf tile) → f.readTile i = some tile)
    (leaves : s.EachLeaf (fun i a => ∀ t ∈ a.samples.times, i.Has t) c)
    (serves : Serves batch old (contents s) t) (safe : ¬ f.Lost t) : Searched f ti batch old t := by
  have leaf := CellTree.reach_sub s c t
  have here : (s.reach c t).1.Has t := CellTree.reach_has has
  have below := Kvs.descendLowest_reaches low deep holds t
  have child : f.files.hasTile c :=
    Kvs.hasTile_of_some ((holds c (.refl c)).trans (CellTree.get_self s c))
  refine .inl ⟨safe, _, _, ?_, value _ _ leaf, Serves.leaf serves leaf leaves here⟩
  subst up
  refine Kvs.search_along (.up c) has low regular (fun k covers under => ?_) below
  by_cases same : k = c.up
  · rw [same]
    exact stored
  · have level := under.level_lt same
    obtain rfl : k = c := by
      refine (covers.eq_of_level ?_).symm
      simp only [Cell.up] at level
      omega
    exact child

theorem regular_of_up (up : c.up = ti) (regular : Regular ti) (deep : -1074 < ti.level) : Regular c := by
  have level : c.level + 1 = ti.level := congrArg Cell.level up
  have top := regular.2
  exact ⟨by omega, by omega⟩

/-- The search for a time of one half of a leaf that was being split. -/
theorem half_searched {limit : ℕ} {u : Samples} {tile : ExactTile} {key : TileIndex}
    (half : Channel.Half limit c (.ofSamples u) f.left key) (up : c.up = ti) (regular : Regular ti)
    (has : c.Has t) (fed : Fed c u) (deep : ∀ s, Grown limit c (.ofSamples u) s → -1074 < ti.level)
    (stored : f.left.tiles ti = some tile) (ne : key ≠ ti) (before : Serves batch old tile.samples t)
    (after : Serves batch old u t) (torn : f.torn = none ∨ f.torn = some (.tile key))
    (lost : f.Lost t → key = c) : Searched f ti batch old t := by
  have other : ∀ {i : TileIndex}, i ≠ key → f.torn ≠ some (.tile i) := f.whole_of_ne torn
  have there : f.files.hasTile ti := f.files_hasTile (Kvs.hasTile_of_some stored)
  have next : Kvs.childTowards ti t = c := by
    subst up
    exact Kvs.childTowards_up regular has
  have ends : ∀ {s}, Grown limit c (.ofSamples u) s → contents s = u := by
    intro s grown
    rw [grown.contents_eq, Tile.samples_ofSamples]
  have fed' : Fed c (Tile.ofSamples u).samples := by rwa [Tile.samples_ofSamples]
  -- while the child cannot be seen, the search ends in the old leaf
  have stops : f.left.tiles c = none → f.torn ≠ some (.tile c) → ¬ f.Lost t →
      Searched f ti batch old t := by
    intro none whole safe
    refine .inl ⟨safe, ti, tile, Kvs.search_stops ?_, ?_, before⟩
    · rw [next]
      exact f.files_absent none whole
    · rw [f.readTile_whole (other ne.symm), stored]
  cases half with
  | missing none apart => exact stops none (other apart.symm) fun l => apart (lost l)
  | @failing s grown none here below =>
      subst here
      have low := regular_of_up up regular (deep s grown)
      rcases torn with whole | torn
      · refine stops none (by simp [whole]) ?_
        rintro ⟨i, bad, -⟩
        rw [whole] at bad
        cases bad
      cases s with
      | leaf a =>
          have bare : f.left.tiles key.lo = Option.none := by
            have ne : key.lo ≠ key := Cell.lo_ne key
            rw [below _ (.lo key) ne, CellTree.get, CellTree.sub_leaf_none ne]
            rfl
          have bare' : f.left.tiles key.hi = Option.none := by
            have ne : key.hi ≠ key := Cell.hi_ne key
            rw [below _ (.hi key) ne, CellTree.get, CellTree.sub_leaf_none ne]
            rfl
          have apart : ∀ {i : TileIndex}, i.level < key.level → i ≠ key := by
            rintro i lt rfl
            exact lt_irrefl _ lt
          refine .inr ⟨⟨key, torn, (low.containsTime_iff t).mpr has, ?_, ?_⟩, key, ?_, ?_⟩
          · rw [TileIndex.parent_eq low.lt_intMax, up]
            exact Kvs.hasTile_of_some stored
          · rw [TileIndex.leftChild_eq low.lt_intMax]
            exact Kvs.not_hasTile bare
          · subst up
            refine Kvs.search_along (.up key) has low regular (fun k covers under => ?_)
              (Kvs.search_stops ?_)
            · rcases eq_or_ne k key.up with rfl | same
              · exact there
              · obtain rfl : k = key := by
                  refine (covers.eq_of_level ?_).symm
                  have level := under.level_lt same
                  simp only [Cell.up] at level
                  omega
                exact Kvs.hasTile_of_some (f.files_torn torn)
            · rw [Kvs.childTowards_eq low]
              split
              · exact f.files_absent bare (other (apart (by simp [Cell.lo])))
              · exact f.files_absent bare' (other (apart (by simp [Cell.hi])))
          · exact f.readTile_torn torn
      | node a l r =>
          have child : f.left.tiles key.lo = some l.label := by
            have ne : key.lo ≠ key := Cell.lo_ne key
            rw [below _ (.lo key) ne, CellTree.get_node, if_neg ne, if_pos (.refl _), CellTree.get_self]
          have safe : ¬ f.Lost t := by
            rintro ⟨i, same, -, -, childless⟩
            rw [torn] at same
            cases same
            rw [TileIndex.leftChild_eq low.lt_intMax] at childless
            exact childless (Kvs.hasTile_of_some child)
          have holds : f.files.Holds (.node .new l r) key := by
            intro j under
            by_cases eq : j = key
            · rw [eq, f.files_torn torn, CellTree.get_self]
              rfl
            · rw [f.files_tiles (other eq), below j under eq, CellTree.get_node, CellTree.get_node,
                if_neg eq, if_neg eq]
          have nodes := CellTree.eachNode_node.mp (grown.nodes_deep fed')
          refine .of_holds up regular has there low (s := .node .new l r)
            (CellTree.eachNode_node.mpr nodes) holds (fun i tile leaf => ?_) ?_ ?_ safe
          · have eq : i ≠ key := by
              rintro rfl
              rw [CellTree.sub_self] at leaf
              cases leaf
            rw [f.readTile_whole (other eq), below i (CellTree.under_of_sub leaf) eq,
              CellTree.get_node, if_neg eq]
            have old := congrArg (Option.map CellTree.label) leaf
            rw [← CellTree.get, CellTree.get_node, if_neg eq] at old
            exact old
          · exact fun i a mem => (grown.leaves_fed fed' i a mem).has
          · rw [← ends grown] at after
            exact after
  | @whole s grown out holds =>
      have low := regular_of_up up regular (deep s grown)
      have apart : ∀ {i : TileIndex}, i.Under c → i ≠ key := by
        rintro i under rfl
        exact out under
      refine .of_holds up regular has there low (grown.nodes_deep fed') (fun j under => ?_)
        (fun i tile leaf => ?_) ?_ ?_ fun l => ?_
      · rw [f.files_tiles (other (apart under)), holds j under]
      · have under := CellTree.under_of_sub leaf
        rw [f.readTile_whole (other (apart under)), holds i under, CellTree.get, leaf]
        rfl
      · exact fun i a mem => (grown.leaves_fed fed' i a mem).has
      · rw [← ends grown] at after
        exact after
      · exact apart (.refl c) (lost l).symm

/-- The half that has a time of a tile too long for a leaf is no leaf of the finest level. -/
theorem Channel.Halfway.deep {limit : ℕ} {tile : ExactTile} {u : Samples} {kvs left : Kvs}
    {key : TileIndex} {s : TileTree} (half : Channel.Halfway limit ti tile kvs left key)
    (fed : Fed ti tile.samples) (mem : t ∈ tile.samples.times) (same : u.at_ t = tile.samples.at_ t)
    (asc : u.Ascending) (grown : Grown limit c (.ofSamples u) s) : -1074 < ti.level := by
  by_contra shallow
  have one : ∀ a ∈ tile.samples.times, a = t := by
    intro a ha
    by_contra ne
    exact shallow (fed.deep ha mem ne)
  have fits := grown.group_fits (by rwa [Tile.samples_ofSamples]) t
  rw [Tile.samples_ofSamples, same, Samples.at_of_forall one] at fits
  exact absurd fits (not_le.mpr half.long)

/-- Only the tile of one of the two children can be a torn leaf. -/
theorem Channel.Halfway.lost {limit : ℕ} {tile : ExactTile} {kvs : Kvs} {key : TileIndex}
    (half : Channel.Halfway limit ti tile kvs f.left key) (regular : Regular ti)
    (torn : f.torn = none ∨ f.torn = some (.tile key)) (lost : f.Lost t) :
    key.up = ti ∧ key.Has t := by
  obtain ⟨i, same, inside, parent, -⟩ := lost
  obtain rfl := f.eq_of_torn torn same
  have level := half.below.1.level_le
  rw [TileIndex.parent_eq (lt_of_le_of_lt level regular.lt_intMax)] at parent
  have up : i.up = ti := half.bare.resolve_right fun none => Kvs.not_hasTile none parent
  refine ⟨up, ?_⟩
  rcases Cell.eq_lo_or_hi up with rfl | rfl
  · obtain ⟨proper, high⟩ := Kvs.ordinary_lo regular
    exact (TileIndex.containsTime_iff proper high t).mp inside
  · obtain ⟨proper, high⟩ := Kvs.ordinary_hi regular
    exact (TileIndex.containsTime_iff proper high t).mp inside

/-- The search in a leaf in the course of whose split a set failed. -/
theorem halfway_searched {limit : ℕ} {tile old_tile : ExactTile} {kvs : Kvs} {key : TileIndex}
    (half : Channel.Halfway limit ti tile kvs f.left key) (regular : Regular ti)
    (fed : Fed ti tile.samples) (stored : f.left.tiles ti = some old_tile) (has : ti.Has t)
    (mem : t ∈ tile.samples.times) (before : Serves batch old old_tile.samples t)
    (after : Serves batch old tile.samples t) (torn : f.torn = none ∨ f.torn = some (.tile key)) :
    Searched f ti batch old t := by
  have at_child : ∀ {c : TileIndex}, c.up = ti → c.Has t → f.Lost t → key = c := by
    intro c up here l
    obtain ⟨up', there⟩ := half.lost regular torn l
    refine Cell.eq_of_has there here ?_
    have := congrArg Cell.level (up'.trans up.symm)
    simpa [Cell.up] using this
  rcases lt_or_ge t ti.hi.start with lt | ge
  · have here := Cell.has_lo has lt
    refine half_searched half.lo ti.up_lo regular here fed.before (fun s grown => ?_) stored half.below.2
      before (Serves.before after fed.ascending lt) torn (at_child ti.up_lo here)
    exact half.deep fed mem (Samples.at_before fed.ascending lt) (fed.ascending.before _) grown
  · have here := Cell.has_hi has ge
    refine half_searched half.hi ti.up_hi regular here fed.since (fun s grown => ?_) stored half.below.2
      before (Serves.since after ge) torn (at_child ti.up_hi here)
    exact half.deep fed mem (Samples.at_since ge) (fed.ascending.since _) grown

/-- The search in a leaf that was split when the set of its own tile failed. -/
theorem top_searched {limit : ℕ} {tile a : ExactTile} {l r : TileTree}
    (grown : Grown limit ti tile (.node a l r)) (regular : Regular ti) (fed : Fed ti tile.samples)
    (stored : f.files.hasTile ti) (has : ti.Has t)
    (below : ∀ i : TileIndex, i.Under ti → i ≠ ti → f.left.tiles i = (CellTree.node a l r).get ti i)
    (after : Serves batch old tile.samples t) (torn : f.torn = none ∨ f.torn = some (.tile ti)) :
    Searched f ti batch old t := by
  have other : ∀ {i : TileIndex}, i ≠ ti → f.torn ≠ some (.tile i) := f.whole_of_ne torn
  have safe : ¬ f.Lost t := by
    rintro ⟨i, same, -, -, childless⟩
    obtain rfl := f.eq_of_torn torn same
    rw [TileIndex.leftChild_eq regular.lt_intMax] at childless
    refine childless (@Kvs.hasTile_of_some _ _ l.label ?_)
    rw [below _ (.lo _) (Cell.lo_ne _), CellTree.get_node, if_neg (Cell.lo_ne _), if_pos (.refl _),
      CellTree.get_self]
  obtain ⟨deep, deepL, deepR⟩ := CellTree.eachNode_node.mp (grown.nodes_deep fed)
  obtain ⟨leavesL, leavesR⟩ := CellTree.eachLeaf_node.mp (grown.leaves_fed fed)
  have all := grown.contents_eq
  have within : ∀ {c : TileIndex} {s : TileTree}, c.up = ti → c.Has t → c.Under ti → c ≠ ti →
      (∀ i : TileIndex, i.Under c → (CellTree.node a l r).get ti i = s.get c i) →
      s.EachNode (fun i _ _ _ => -1074 < i.level) c → s.EachLeaf (fun i a => Fed i a.samples) c →
      Serves batch old (contents s) t → Searched f ti batch old t := by
    intro c s up here under ne same deepC leaves serves
    have apart : ∀ {i : TileIndex}, i.Under c → i ≠ ti := by
      rintro i g rfl
      exact ne (under.antisymm g)
    refine .of_holds up regular here stored (regular_of_up up regular deep) deepC (fun j g => ?_)
      (fun i tile leaf => ?_) (fun i a mem => (leaves i a mem).has) serves safe
    · rw [f.files_tiles (other (apart g)), below j (g.trans under) (apart g), same j g]
    · have g := CellTree.under_of_sub leaf
      rw [f.readTile_whole (other (apart g)), below i (g.trans under) (apart g), same i g, CellTree.get,
        leaf]
      rfl
  have hasL := contents_has fun i a mem => (leavesL i a mem).has
  have hasR := contents_has fun i a mem => (leavesR i a mem).has
  rw [← all, contents] at after
  rcases lt_or_ge t ti.hi.start with lt | ge
  · refine within ti.up_lo (Cell.has_lo has lt) (.lo ti) (Cell.lo_ne ti) (fun i g => ?_) deepL leavesL ?_
    · have ne : i ≠ ti := by
        rintro rfl
        exact Cell.not_under_lo_self _ g
      rw [CellTree.get_node, if_neg ne, if_pos g]
    · refine Serves.middle (a := .empty) after (by simp) fun late => ?_
      exact not_le.mpr lt (hasR t late).1
  · refine within ti.up_hi (Cell.has_hi has ge) (.hi ti) (Cell.hi_ne ti) (fun i g => ?_) deepR leavesR ?_
    · have ne : i ≠ ti := by
        rintro rfl
        exact Cell.not_under_hi_self _ g
      rw [CellTree.get_node, if_neg ne, if_neg fun g' => Cell.not_under_lo_hi g' g]
    · rw [← Samples.append_empty (_ ++ _)] at after
      refine Serves.middle after (fun early => ?_) (by simp)
      have stop := (hasL t early).2
      rw [Cell.lo_stop] at stop
      exact not_lt.mpr ge stop

/-- Two leaves of one tree that have a time in common. -/
theorem leaf_unique {s : TileTree} {i j : TileIndex} {a b : ExactTile}
    (hi : s.sub c i = some (.leaf a)) (hj : s.sub c j = some (.leaf b)) (below : i.Under j) : i = j := by
  by_contra ne
  rw [CellTree.sub_below_leaf hj below ne] at hi
  cases hi

/-- Whatever set failed below a regular root, a search from an inner tile finds what there was, unless
it comes to a torn leaf. -/
theorem Interrupted.searched {limit : ℕ} {p : Progress} {key : Key} (wf : p.Wf)
    (regular : Regular p.root) (node : ∃ a l r, p.tree.sub p.root root = some (.node a l r))
    (has : root.Has t) (serving : Serving batch old p) (mem : t ∈ old.times)
    (stage : Interrupted limit p f.left key) (torn : f.torn = none ∨ f.torn = some key) :
    Searched f root batch old t := by
  obtain ⟨a₀, l₀, r₀, node⟩ := node
  have above := CellTree.under_of_sub node
  have high := wf.regular_of_sub regular node
  have leaves := wf.leaves_has regular
  have leaf := CellTree.reach_sub p.tree p.root t
  have here : (p.tree.reach p.root t).1.Has t := CellTree.reach_has (above.has has)
  generalize p.tree.reach p.root t = place at leaf here
  obtain ⟨(i : TileIndex), tile⟩ := place
  dsimp only at leaf here
  have low := wf.regular_of_sub regular leaf
  have under : i.Under root := by
    rcases le_total i.level root.level with le | le
    · exact Cell.under_of_has here has le
    · rw [CellTree.sub_below_leaf leaf (Cell.under_of_has has here le)] at node
      · cases node
      · rintro rfl
        rw [leaf] at node
        cases node
  have serves : Serves batch old tile.samples t := Serves.leaf (serving.serves t) leaf leaves here
  have quiet : (∀ k : TileIndex, k.Under i ∨ i.Under k → f.left.tiles k = p.tree.get p.root k) →
      (∀ k : TileIndex, k.Under i → f.torn ≠ some (.tile k)) → ¬ f.Lost t →
      Searched f root batch old t := by
    intro agree whole safe
    have found := steady regular wf.deep leaf here under above high (fun k _ => agree k)
      fun k g _ => whole k g
    refine .inl ⟨safe, i, tile, found, ?_, serves⟩
    rw [f.readTile_whole (whole i (.refl i)), agree i (.inl (.refl i)), CellTree.get, leaf]
    rfl
  -- a pass over another leaf is out of the way
  have elsewhere : ∀ {ti key : TileIndex} {old_tile : ExactTile},
      p.tree.sub p.root ti = some (.leaf old_tile) → ti ≠ i →
      (∀ k : TileIndex, ¬ (k.Under ti ∧ k ≠ ti) → f.left.tiles k = p.tree.get p.root k) →
      key.Under ti → (f.torn = none ∨ f.torn = some (.tile key)) → (f.Lost t → key.Has t) →
      Searched f root batch old t := by
    intro ti key old_tile old_leaf apart outside below torn lost
    have disjoint : ∀ k : TileIndex, k.Under i → ¬ k.Under ti := by
      intro k hk g
      rcases le_total i.level ti.level with le | le
      · exact apart (leaf_unique leaf old_leaf (hk.of_levels g le)).symm
      · exact apart (leaf_unique old_leaf leaf (g.of_levels hk le))
    refine quiet (fun k near => outside k ?_) (fun k hk => ?_) fun l => ?_
    · rintro ⟨g, -⟩
      rcases near with hk | hk
      · exact disjoint k hk g
      · exact disjoint i (.refl i) (hk.trans g)
    · refine f.whole_of_ne torn ?_
      rintro rfl
      exact disjoint k hk below
    · have there : ti.Has t := below.has (lost l)
      rcases le_total i.level ti.level with le | le
      · exact disjoint i (.refl i) (Cell.under_of_has here there le)
      · exact disjoint ti (Cell.under_of_has there here le) (.refl ti)
  -- a pass over the leaf itself is searched from there
  have climb : (∀ k : TileIndex, ¬ (k.Under i ∧ k ≠ i) → f.left.tiles k = p.tree.get p.root k) →
      Searched f i batch old t → Searched f root batch old t := by
    intro outside searched
    refine searched.along under here low high fun k covers below => ?_
    obtain ⟨s', stored⟩ := CellTree.sub_between leaf covers (below.trans above)
    refine f.files_hasTile (@Kvs.hasTile_of_some _ _ s'.label ?_)
    rw [outside k fun g => g.2 (g.1.antisymm covers), CellTree.get, stored]
    rfl
  have same_leaf : ∀ {tile' chunk rest}, Pass p i tile' chunk rest → tile' = tile := by
    intro tile' chunk rest pass
    have eq := pass.leaf
    rw [leaf] at eq
    cases eq
    rfl
  have in_leaf := Serves.mem_times serves mem
  cases stage with
  | record tiles =>
      have none : ∀ k : TileIndex, f.torn ≠ some (.tile k) := by
        intro k eq
        rcases torn with torn | torn <;> rw [torn] at eq <;> cases eq
      refine quiet (fun k _ => by rw [tiles]) (fun k _ => none k) ?_
      rintro ⟨k, eq, -⟩
      exact none k eq
  | refill all => exact (regular.not_all all).elim
  | splitAll all => exact (regular.not_all all).elim
  | newRoot all => exact (regular.not_all all).elim
  | @leaf ti old_tile chunk rest _ pass tiles =>
      have inside := pass.regular wf regular
      rcases ne_or_eq ti i with apart | rfl
      · refine elsewhere pass.leaf apart (fun k _ => by rw [tiles]) (.refl ti) torn ?_
        rintro ⟨k, eq, has, -⟩
        obtain rfl := f.eq_of_torn torn eq
        exact (inside.containsTime_iff t).mp has
      rcases torn with whole | torn
      · refine quiet (fun k _ => by rw [tiles]) (fun k _ => by simp [whole]) ?_
        rintro ⟨k, eq, -⟩
        rw [whole] at eq
        cases eq
      · right
        have ne : ti ≠ root := by
          rintro rfl
          rw [leaf] at node
          cases node
        obtain ⟨b, l, r, parent⟩ := CellTree.sub_up leaf fun eq => ne (under.antisymm (eq ▸ above))
        refine ⟨⟨ti, torn, (low.containsTime_iff t).mpr here, ?_, ?_⟩, ti, ?_, f.readTile_torn torn⟩
        · rw [TileIndex.parent_eq low.lt_intMax]
          refine @Kvs.hasTile_of_some _ _ b ?_
          rw [tiles, CellTree.get, parent]
          rfl
        · rw [TileIndex.leftChild_eq low.lt_intMax]
          refine Kvs.not_hasTile ?_
          rw [tiles, CellTree.get, CellTree.sub_below_leaf leaf (.lo ti)]
          · rfl
          · exact Cell.lo_ne ti
        · refine steady regular wf.deep leaf here under above high (fun k _ _ => by rw [tiles]) ?_
          exact fun k _ apart => f.whole_of_ne (.inr torn) apart
  | @halfway ti old_tile chunk rest key kvs _ pass tiles half =>
      have inside := pass.regular wf regular
      have outside : ∀ k : TileIndex, ¬ (k.Under ti ∧ k ≠ ti) → f.left.tiles k = p.tree.get p.root k :=
        fun k out => (half.outside k out).trans (congrFun tiles k)
      rcases ne_or_eq ti i with apart | rfl
      · exact elsewhere pass.leaf apart outside half.below.1 torn fun l => (half.lost inside torn l).2
      · obtain rfl := same_leaf pass
        refine climb outside (halfway_searched half low ((pass.merged wf).fed low) ?_ here ?_ serves
          (serving.merged pass serves) torn)
        · rw [outside ti fun g => g.2 rfl, CellTree.get, leaf]
          rfl
        · exact Tile.mem_times_insert.mpr (.inr in_leaf)
  | @top ti old_tile chunk rest a l r _ pass grown tiles =>
      have inside := pass.regular wf regular
      have outside : ∀ k : TileIndex, ¬ (k.Under ti ∧ k ≠ ti) →
          f.left.tiles k = p.tree.get p.root k := by
        intro k out
        rw [tiles]
        exact if_neg out
      rcases ne_or_eq ti i with apart | rfl
      · refine elsewhere pass.leaf apart outside (.refl ti) torn ?_
        rintro ⟨k, eq, has, -⟩
        obtain rfl := f.eq_of_torn torn eq
        exact (inside.containsTime_iff t).mp has
      · obtain rfl := same_leaf pass
        refine climb outside (top_searched grown low ((pass.merged wf).fed low) ?_ here ?_
          (serving.merged pass serves) torn)
        · refine f.files_hasTile (@Kvs.hasTile_of_some _ _ old_tile ?_)
          rw [outside ti fun g => g.2 rfl, CellTree.get, leaf]
          rfl
        · intro k below ne
          rw [tiles]
          exact if_pos ⟨below, ne⟩
  | @inner w a l r inner tiles =>
      have proper := wf.regular_of_sub regular inner
      refine quiet (fun k _ => by rw [tiles]) (fun k below eq => ?_) ?_
      · obtain rfl := f.eq_of_torn torn eq
        by_cases same : k = i
        · rw [same, leaf] at inner
          cases inner
        · rw [CellTree.sub_below_leaf leaf below same] at inner
          cases inner
      · rintro ⟨k, eq, -, -, childless⟩
        obtain rfl := f.eq_of_torn torn eq
        rw [TileIndex.leftChild_eq proper.lt_intMax] at childless
        refine childless (@Kvs.hasTile_of_some _ _ l.label ?_)
        rw [tiles, CellTree.get, CellTree.sub_lo inner]
        rfl

end Search
end Mio.Datastore
