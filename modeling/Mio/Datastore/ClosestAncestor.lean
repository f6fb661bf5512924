import Mio.Datastore.Accepts
import Mio.Lib.Scan

/-! `Channel::read_tile_or_closest_ancestor`. The bounds of stored tiles are doubles; the start of the
tile that is asked for is what the machine makes of it. -/
namespace Mio.Datastore

namespace TileIndex

/-- A 64-bit integer as a `double`: 53 bits, and of two that are as near the even one. -/
def toDouble (n : ℤ) : ℚ :=
  roundEven ((n : ℚ) / 2 ^ (n.natAbs.log2 - 52)) * 2 ^ (n.natAbs.log2 - 52)

/-- `start_time`, where the offset is rounded and `pow` gives 0 below the smallest double. -/
def doubleStart (ti : TileIndex) : ℚ :=
  if isNull ti then doubleMax
  else if isNegativeAll ti then -doubleMax
  else if isNonnegativeAll ti then 0
  else (if ti.level < -1074 then 0 else levelToDuration ti.level) * toDouble ti.offset

end TileIndex

namespace Kvs

/-- `while (ret_index != ti)`, for any reading of the start of `ti`. -/
def descendTo (kvs : Kvs) (ti : TileIndex) (start : ℚ) : ℕ → TileIndex → Outcome Failure TileIndex :=
  kvs.reader.descend (· ≠ ti) (fun _ => false) (childTowards · start)

def descendTowards (kvs : Kvs) (ti : TileIndex) : ℕ → TileIndex → Outcome Failure TileIndex :=
  kvs.descendTo ti ti.doubleStart

/-- What follows once the root is known, for any reading of `start_time`. -/
def closestTo (kvs : Kvs) (start : TileIndex → ℚ) (wide : ℤ → ℤ → ℤ) (fuel : ℕ) (root ti : TileIndex) :
    Outcome Failure (Option (TileIndex × ExactTile)) :=
  kvs.reader.closest (fun a b => a.isAncestorOf wide b) (kvs.descendTo ti (start ti) fuel) root ti

def closestAncestor (kvs : Kvs) : (ℤ → ℤ → ℤ) → ℕ → TileIndex → TileIndex →
    Outcome Failure (Option (TileIndex × ExactTile)) :=
  kvs.closestTo TileIndex.doubleStart

end Kvs

/-- None for false. -/
def Channel.readClosest (start : TileIndex → ℚ) (wide : ℤ → ℤ → ℤ) (fuel : ℕ) (ti : TileIndex) :
    ChannelM (Option (TileIndex × ExactTile)) := do
  Channel.lock
  match ← Exec.read Kvs.readInfo with
  | none => return none
  | some info => Exec.read fun kvs => kvs.closestTo start wide fuel info.nonnegativeRootTileIndex ti

def Channel.readTileOrClosestAncestor : (ℤ → ℤ → ℤ) → ℕ → TileIndex →
    ChannelM (Option (TileIndex × ExactTile)) :=
  Channel.readClosest TileIndex.doubleStart

/-- The comment on `read_tile_or_closest_ancestor`. -/
inductive Answers (kvs : Kvs) (ti : TileIndex) : Option (TileIndex × ExactTile) → Prop
  | here {tile} (stored : kvs.tiles ti = some tile) : Answers kvs ti (some (ti, tile))
  | closest {a tile} (missing : ¬ kvs.hasTile ti) (above : a.isAncestorOf TileIndex.exactShift ti)
      (stored : kvs.tiles a = some tile)
      (lowest : ∀ b, TileIndex.isAncestorOf TileIndex.exactShift b ti → kvs.hasTile b → a.level ≤ b.level) :
      Answers kvs ti (some (a, tile))
  | root {info tile} (missing : ¬ kvs.hasTile ti)
      (alone : ∀ b, TileIndex.isAncestorOf TileIndex.exactShift b ti → ¬ kvs.hasTile b)
      (metainfo : kvs.metainfo = some (some info))
      (below : ti.isAncestorOf TileIndex.exactShift info.nonnegativeRootTileIndex)
      (stored : kvs.tiles info.nonnegativeRootTileIndex = some tile) :
      Answers kvs ti (some (info.nonnegativeRootTileIndex, tile))
  | nothing (missing : ¬ kvs.hasTile ti)
      (alone : ∀ b, TileIndex.isAncestorOf TileIndex.exactShift b ti → ¬ kvs.hasTile b)
      (beside : ∀ info, kvs.metainfo = some (some info) →
        ¬ ti.isAncestorOf TileIndex.exactShift info.nonnegativeRootTileIndex) : Answers kvs ti none

/-- The call ends and gives what its comment says. -/
def ReadsClosest (kvs : Kvs) (ti : TileIndex) : Prop :=
  ∃ answer kvs', Exec.Reaches (fun fuel =>
    Channel.readTileOrClosestAncestor TileIndex.exactShift fuel ti) kvs answer kvs' ∧
    Answers kvs ti answer

/-- At every stored tile with children above `ti`, the start of `ti` is in the half in which `ti`
is. -/
def StartsInHalf (kvs : Kvs) (ti : TileIndex) : Prop :=
  ∀ a : TileIndex, kvs.hasTile a → kvs.hasTile a.leftChild → a.isAncestorOf TileIndex.exactShift ti →
    (ti.doubleStart < a.leftChild.endTime ↔ ti.Under a.leftChild)

namespace Kvs

/-- The stored cell of the lowest level around `ti`, which may be `ti`. -/
structure Lowest (kvs : Kvs) (i ti r : TileIndex) : Prop where
  around : ti.Under r
  least : ∀ b : TileIndex, b.Under i → ti.Under b → kvs.hasTile b → r.level ≤ b.level

/-- `StartsInHalf` below one tile. -/
def HalvesBelow (kvs : Kvs) (i ti : TileIndex) (t : ℚ) : Prop :=
  ∀ a : TileIndex, a.Under i → kvs.hasTile a → kvs.hasTile a.leftChild → ti.level < a.level →
    ti.Under a → (t < a.leftChild.endTime ↔ ti.Under a.leftChild)

section
variable {kvs : Kvs} {s : TileTree} {i ti : TileIndex}

theorem descendTo_succ (kvs : Kvs) (ti : TileIndex) (start : ℚ) (fuel : ℕ) (ret : TileIndex) :
    kvs.descendTo ti start (fuel + 1) ret =
      if ret ≠ ti then
        if ¬ kvs.hasTile (childTowards ret start) then .ret ret
        else kvs.descendTo ti start fuel (childTowards ret start)
      else .ret ret := by
  rw [descendTo, Reader.descend_succ fun _ => rfl]
  simp only [decide_eq_true_eq, Bool.false_eq_true, false_or]

theorem reaches_self (kvs : Kvs) (ti : TileIndex) (start : ℚ) :
    Outcome.Reaches (fun fuel => kvs.descendTo ti start fuel ti) ti := by
  refine .step (fun fuel => ?_) (.pure ti)
  rw [descendTo_succ]
  exact if_neg (not_not.mpr rfl)

theorem reaches_stop {start : ℚ} (stop : ¬ kvs.hasTile (childTowards i start)) :
    Outcome.Reaches (fun fuel => kvs.descendTo ti start fuel i) i := by
  refine .step (fun fuel => ?_) (.pure i)
  rw [descendTo_succ]
  by_cases same : i ≠ ti
  · exact (if_pos same).trans (if_pos stop)
  · exact if_neg same

theorem reaches_child {start : ℚ} {r : TileIndex} (ne : i ≠ ti)
    (has : kvs.hasTile (childTowards i start))
    (reaches : Outcome.Reaches (fun fuel => kvs.descendTo ti start fuel (childTowards i start)) r) :
    Outcome.Reaches (fun fuel => kvs.descendTo ti start fuel i) r := by
  refine .step (fun fuel => ?_) reaches
  rw [descendTo_succ]
  exact (if_pos ne).trans (if_neg (not_not.mpr has))

/-- Whatever is asked for, the descent ends at a stored tile. -/
theorem descendTo_ends (regular : Regular i)
    (deep : s.EachNode (fun i _ _ _ => -1074 < i.level) i) (holds : kvs.Holds s i) (ti : TileIndex)
    (start : ℚ) :
    ∃ r, Outcome.Reaches (fun fuel => kvs.descendTo ti start fuel i) r ∧ r.Under i ∧ kvs.hasTile r := by
  have here : kvs.hasTile i := hasTile_of_some ((holds i (.refl i)).trans (CellTree.get_self s i))
  induction s generalizing i with
  | leaf a =>
      have stop := (stop_at_leaf regular holds start).resolve_left (childTowards_not_null regular _)
      exact ⟨i, reaches_stop stop, .refl i, here⟩
  | node a l r ihl ihr =>
      by_cases same : i = ti
      · subst same
        exact ⟨i, reaches_self kvs i start, .refl i, here⟩
      · obtain ⟨low, deepL, deepR⟩ := CellTree.eachNode_node.mp deep
        have go := go_on_at_node regular holds start
        have some : kvs.hasTile (childTowards i start) := by
          by_contra absent
          exact go (.inr absent)
        have child : ∃ r, Outcome.Reaches
            (fun fuel => kvs.descendTo ti start fuel (childTowards i start)) r ∧
              r.Under i ∧ kvs.hasTile r := by
          rw [childTowards_eq regular] at some ⊢
          split at some
          · next left =>
              obtain ⟨r, reaches, under, has⟩ := ihl (regular.lo low) deepL holds.lo some
              exact ⟨r, by rwa [if_pos left], under.trans (.lo i), has⟩
          · next right =>
              obtain ⟨r, reaches, under, has⟩ := ihr (regular.hi low) deepR holds.hi some
              exact ⟨r, by rwa [if_neg right], under.trans (.hi i), has⟩
        obtain ⟨r, reaches, under, has⟩ := child
        exact ⟨r, reaches_child same some reaches, under, has⟩

theorem descendTowards_ends (regular : Regular i)
    (deep : s.EachNode (fun i _ _ _ => -1074 < i.level) i) (holds : kvs.Holds s i) (ti : TileIndex) :
    ∃ r, Outcome.Reaches (fun fuel => kvs.descendTowards ti fuel i) r ∧ r.Under i ∧ kvs.hasTile r :=
  descendTo_ends regular deep holds ti ti.doubleStart

theorem Lowest.child_iff {c r : TileIndex} (child : c.Under i) (inside : ti.Under c)
    (under : r.Under c) : Lowest kvs i ti r ↔ Lowest kvs c ti r := by
  constructor
  · exact fun low => ⟨low.around, fun b below => low.least b (below.trans child)⟩
  · intro low
    refine ⟨low.around, fun b below around has => ?_⟩
    by_cases high : b.level ≤ c.level
    · exact low.least b (around.of_levels inside high) around has
    · exact under.level_le.trans (not_le.mp high).le

/-- The condition on a node and on the child in which `ti` is. -/
theorem halvesBelow_node {c : TileIndex} {t : ℚ} (level : c.level + 1 = i.level) (child : c.Under i)
    (inside : ti.Under c) (here : kvs.hasTile i) (left : kvs.hasTile i.leftChild) :
    HalvesBelow kvs i ti t ↔
      (t < i.leftChild.endTime ↔ ti.Under i.leftChild) ∧ HalvesBelow kvs c ti t := by
  have below : ti.level < i.level := by
    have le := inside.level_le
    omega
  constructor
  · intro halves
    exact ⟨halves i (.refl i) here left below (inside.trans child),
      fun a under => halves a (under.trans child)⟩
  · intro both a under has hasLeft low around
    by_cases high : a.level ≤ c.level
    · exact both.2 a (around.of_levels inside high) has hasLeft low around
    · cases under.eq_of_level (by omega)
      exact both.1

/-- Where the descent from a tile around `ti` ends, and when that is the right tile. -/
def EndsRight (kvs : Kvs) (i ti : TileIndex) : Prop :=
  ∃ r, Outcome.Reaches (fun fuel => kvs.descendTowards ti fuel i) r ∧ r.Under i ∧ kvs.hasTile r ∧
    (Lowest kvs i ti r ↔ HalvesBelow kvs i ti ti.doubleStart)

theorem right_turn {c : TileIndex} (ne : i ≠ ti) (towards : childTowards i ti.doubleStart = c)
    (level : c.level + 1 = i.level) (child : c.Under i) (inside : ti.Under c) (here : kvs.hasTile i)
    (left : kvs.hasTile i.leftChild) (has : kvs.hasTile c)
    (agree : ti.doubleStart < i.leftChild.endTime ↔ ti.Under i.leftChild) (next : EndsRight kvs c ti) :
    EndsRight kvs i ti := by
  subst towards
  obtain ⟨r, reaches, under, hasR, right⟩ := next
  refine ⟨r, reaches_child ne has reaches, under.trans child, hasR, ?_⟩
  rw [Lowest.child_iff child inside under, right, halvesBelow_node level child inside here left]
  exact (and_iff_right agree).symm

theorem wrong_turn {c r : TileIndex} (ne : i ≠ ti) (towards : childTowards i ti.doubleStart = c)
    (child : c.Under i) (inside : ti.Under i) (outside : ¬ ti.Under c) (here : kvs.hasTile i)
    (left : kvs.hasTile i.leftChild) (has : kvs.hasTile c)
    (differ : ¬ (ti.doubleStart < i.leftChild.endTime ↔ ti.Under i.leftChild))
    (reaches : Outcome.Reaches (fun fuel => kvs.descendTowards ti fuel c) r) (under : r.Under c)
    (hasR : kvs.hasTile r) : EndsRight kvs i ti := by
  subst towards
  refine ⟨r, reaches_child ne has reaches, under.trans child, hasR, ?_⟩
  constructor
  · exact fun low => (outside (low.around.trans under)).elim
  · exact fun halves => (differ (halves i (.refl i) here left (inside.level_lt ne.symm) inside)).elim

/-- From a tile around `ti` the descent ends at the lowest one just if it never turns off. -/
theorem descendTowards_lowest (regular : Regular i)
    (deep : s.EachNode (fun i _ _ _ => -1074 < i.level) i) (holds : kvs.Holds s i)
    (inside : ti.Under i) : EndsRight kvs i ti := by
  have here : kvs.hasTile i := hasTile_of_some ((holds i (.refl i)).trans (CellTree.get_self s i))
  induction s generalizing i with
  | leaf a =>
      obtain ⟨r, reaches, under, has⟩ := descendTowards_ends regular deep holds ti
      have only : ∀ b : TileIndex, b.Under i → kvs.hasTile b → b = i := by
        intro b below has
        by_contra ne
        rw [hasTile, holds b below, CellTree.get, CellTree.sub_leaf_none ne] at has
        cases has
      cases only r under has
      refine ⟨i, reaches, under, has, ?_⟩
      constructor
      · intro _ a below has hasLeft
        cases only a below has
        rw [TileIndex.leftChild_eq regular.lt_intMax] at hasLeft
        have self := only i.lo (.lo i) hasLeft
        exact (Cell.lo_ne i self).elim
      · intro _
        refine ⟨inside, fun b below _ has => ?_⟩
        rw [only b below has]
  | node a l r ihl ihr =>
      by_cases same : i = ti
      · subst same
        obtain ⟨r, reaches, under, has⟩ := descendTowards_ends regular deep holds i
        cases reaches.unique (reaches_self kvs i i.doubleStart)
        refine ⟨i, reaches, under, has, ?_⟩
        constructor
        · intro _ a below _ _ low
          exact absurd below.level_le (not_le.mpr low)
        · exact fun _ => ⟨.refl i, fun b _ around _ => around.level_le⟩
      · obtain ⟨low, deepL, deepR⟩ := CellTree.eachNode_node.mp deep
        have hasLo : kvs.hasTile i.lo :=
          hasTile_of_some ((holds.lo _ (.refl _)).trans (CellTree.get_self l i.lo))
        have hasHi : kvs.hasTile i.hi :=
          hasTile_of_some ((holds.hi _ (.refl _)).trans (CellTree.get_self r i.hi))
        have left := TileIndex.leftChild_eq regular.lt_intMax
        have middle : i.leftChild.endTime = Cell.stop i.lo := by
          rw [left, TileIndex.endTime_eq (ordinary_lo regular).1 (ordinary_lo regular).2]
        have hasLeft : kvs.hasTile i.leftChild := left ▸ hasLo
        have levelLo : i.lo.level + 1 = i.level := sub_add_cancel i.level 1
        have levelHi : i.hi.level + 1 = i.level := sub_add_cancel i.level 1
        have towards := childTowards_eq regular ti.doubleStart
        rcases inside.cases with eq | insideLo | insideHi
        · exact absurd eq.symm same
        · by_cases lt : ti.doubleStart < Cell.stop i.lo
          · rw [if_pos lt] at towards
            exact right_turn same towards levelLo (.lo i) insideLo here hasLeft hasLo
              (by rw [middle, left]; exact iff_of_true lt insideLo)
              (ihl (regular.lo low) deepL holds.lo insideLo hasLo)
          · rw [if_neg lt] at towards
            obtain ⟨r, reaches, under, has⟩ := descendTowards_ends (regular.hi low) deepR holds.hi ti
            exact wrong_turn same towards (.hi i) inside (Cell.not_under_lo_hi insideLo) here hasLeft hasHi
              (by rw [middle, left]; exact fun agree => lt (agree.mpr insideLo)) reaches under has
        · have notLo : ¬ ti.Under i.lo := fun insideLo => Cell.not_under_lo_hi insideLo insideHi
          by_cases lt : ti.doubleStart < Cell.stop i.lo
          · rw [if_pos lt] at towards
            obtain ⟨r, reaches, under, has⟩ := descendTowards_ends (regular.lo low) deepL holds.lo ti
            exact wrong_turn same towards (.lo i) inside notLo here hasLeft hasLo
              (by rw [middle, left]; exact fun agree => notLo (agree.mp lt)) reaches under has
          · rw [if_neg lt] at towards
            exact right_turn same towards levelHi (.hi i) insideHi here hasLeft hasHi
              (by rw [middle, left]; exact iff_of_false lt notLo)
              (ihr (regular.hi low) deepR holds.hi insideHi hasHi)

end

end Kvs
namespace Stored

variable {kvs : Kvs} {info : ChannelInfo} {tree : TileTree} {ti : TileIndex}

theorem under_root (h : Stored kvs info tree) {b : TileIndex} (has : kvs.hasTile b) :
    b.Under info.nonnegativeRootTileIndex := by
  obtain ⟨tile, at_b⟩ := Kvs.tiles_of_hasTile has
  obtain ⟨s, sub, -⟩ := h.sub at_b
  exact CellTree.under_of_sub sub

theorem endsRight (h : Stored kvs info tree) (inside : ti.Under info.nonnegativeRootTileIndex) :
    Kvs.EndsRight kvs info.nonnegativeRootTileIndex ti := by
  by_cases all : info.nonnegativeRootTileIndex = .nonnegativeAll
  · have only : ∀ b : TileIndex, kvs.hasTile b → b = info.nonnegativeRootTileIndex :=
      fun b has => (h.eq_all all has).trans all.symm
    have noNull := h.not_hasTile_null all
    have stop : ¬ kvs.hasTile (Kvs.childTowards info.nonnegativeRootTileIndex ti.doubleStart) := by
      rw [all, TileIndex.isNull_iff.mp (Kvs.childTowards_all ti.doubleStart)]
      exact noNull
    refine ⟨_, Kvs.reaches_stop stop, .refl _, Kvs.hasTile_of_some h.hasRoot, ?_⟩
    constructor
    · intro _ a _ has hasLeft
      rw [only a has, all, TileIndex.isNull_leftChild_all] at hasLeft
      exact (noNull hasLeft).elim
    · intro _
      exact ⟨inside, fun b _ _ has => by rw [only b has]⟩
  · exact Kvs.descendTowards_lowest (h.regular all) h.wf.deep (fun j _ => congrFun h.tiles j) inside

theorem halves_iff (h : Stored kvs info tree) :
    Kvs.HalvesBelow kvs info.nonnegativeRootTileIndex ti ti.doubleStart ↔ StartsInHalf kvs ti := by
  constructor
  · intro halves a has left above
    obtain ⟨low, under⟩ := (TileIndex.isAncestorOf_exact a ti).mp above
    exact halves a (h.under_root has) has left low under
  · intro halves a _ has left low under
    exact halves a has left ((TileIndex.isAncestorOf_exact a ti).mpr ⟨low, under⟩)

/-- Under the root the comment asks for the lowest stored tile around `ti`. -/
theorem answers_iff (h : Stored kvs info tree) (inside : ti.Under info.nonnegativeRootTileIndex)
    {r : TileIndex} {tile : ExactTile} (stored : kvs.tiles r = some tile) :
    Answers kvs ti (some (r, tile)) ↔ Kvs.Lowest kvs info.nonnegativeRootTileIndex ti r := by
  constructor
  · intro answers
    cases answers with
    | here => exact ⟨.refl ti, fun b _ around _ => around.level_le⟩
    | closest missing above stored lowest =>
        refine ⟨((TileIndex.isAncestorOf_exact r ti).mp above).2, fun b _ around has => ?_⟩
        refine lowest b ((TileIndex.isAncestorOf_exact b ti).mpr ⟨around.level_lt ?_, around⟩) has
        exact fun same => missing (same ▸ has)
    | root missing alone metainfo below =>
        rw [h.metainfo] at metainfo
        cases metainfo
        have above := ((TileIndex.isAncestorOf_exact ti _).mp below).1
        exact absurd inside.level_le (not_le.mpr above)
  · intro low
    by_cases has : kvs.hasTile ti
    · have same : ti = r := low.around.eq_of_level (low.least ti inside (.refl ti) has)
      subst same
      exact .here stored
    · have ne : ti ≠ r := fun same => has (Kvs.hasTile_of_some (same ▸ stored))
      refine .closest has ((TileIndex.isAncestorOf_exact r ti).mpr ⟨low.around.level_lt ne, low.around⟩)
        stored fun b above has => ?_
      obtain ⟨-, around⟩ := (TileIndex.isAncestorOf_exact b ti).mp above
      exact low.least b (h.under_root has) around has

/-- What the call gives once the info record is there. -/
theorem reaches_readClosest (h : Stored kvs info tree) {start : TileIndex → ℚ} {wide : ℤ → ℤ → ℤ}
    {answer : Option (TileIndex × ExactTile)} (reaches : Outcome.Reaches (fun fuel =>
      kvs.closestTo start wide fuel info.nonnegativeRootTileIndex ti) answer) :
    Exec.Reaches (fun fuel => Channel.readClosest start wide fuel ti) kvs answer kvs := by
  have locked : Channel.lock kvs = .ret ((), kvs) := by
    rw [Channel.lock_run, h.locked]
  have found : Exec.read Kvs.readInfo kvs = .ret (some info, kvs) :=
    Exec.read_of_ret (Channel.readInfo_stored h.metainfo h.magic)
  refine .bind (.of_ret fun _ => locked) (.bind (.of_ret fun _ => found) ?_)
  exact .read reaches

theorem reaches_closest (h : Stored kvs info tree) {answer : Option (TileIndex × ExactTile)}
    (reaches : Outcome.Reaches (fun fuel => kvs.closestAncestor TileIndex.exactShift fuel
      info.nonnegativeRootTileIndex ti) answer) :
    Exec.Reaches (fun fuel => Channel.readTileOrClosestAncestor TileIndex.exactShift fuel ti) kvs
      answer kvs :=
  h.reaches_readClosest reaches

/-- Whatever is asked for and however its start is read, the descent from the root ends. -/
theorem descendTo_ends (h : Stored kvs info tree) (ti : TileIndex) (start : ℚ) : ∃ r tile,
    Outcome.Reaches (fun fuel => kvs.descendTo ti start fuel info.nonnegativeRootTileIndex) r ∧
      kvs.tiles r = some tile := by
  by_cases all : info.nonnegativeRootTileIndex = .nonnegativeAll
  · have stop : ¬ kvs.hasTile (Kvs.childTowards info.nonnegativeRootTileIndex start) := by
      rw [all, TileIndex.isNull_iff.mp (Kvs.childTowards_all start)]
      exact h.not_hasTile_null all
    exact ⟨_, _, Kvs.reaches_stop stop, h.hasRoot⟩
  · obtain ⟨r, reaches, -, has⟩ :=
      Kvs.descendTo_ends (h.regular all) h.wf.deep (fun j _ => congrFun h.tiles j) ti start
    obtain ⟨tile, stored⟩ := Kvs.tiles_of_hasTile has
    exact ⟨r, tile, reaches, stored⟩

section
variable (start : TileIndex → ℚ) {wide : ℤ → ℤ → ℤ}

theorem closestTo_above (h : Stored kvs info tree)
    (above : ti.isAncestorOf wide info.nonnegativeRootTileIndex) :
    Outcome.Reaches (fun fuel => kvs.closestTo start wide fuel info.nonnegativeRootTileIndex ti)
      (some (info.nonnegativeRootTileIndex, tree.label)) := by
  simp only [Kvs.closestTo, Reader.closest, decide_eq_true_eq, if_pos above]
  exact .bind (.of_ret fun _ => Kvs.readTile_of_some h.hasRoot) (.pure _)

theorem closestTo_below (h : Stored kvs info tree) {r : TileIndex} {tile : ExactTile}
    (above : ¬ ti.isAncestorOf wide info.nonnegativeRootTileIndex)
    (beside : ¬ (ti ≠ info.nonnegativeRootTileIndex ∧
      ¬ TileIndex.isAncestorOf wide info.nonnegativeRootTileIndex ti))
    (reaches : Outcome.Reaches (fun fuel => kvs.descendTo ti (start ti) fuel info.nonnegativeRootTileIndex) r)
    (stored : kvs.tiles r = some tile) :
    Outcome.Reaches (fun fuel => kvs.closestTo start wide fuel info.nonnegativeRootTileIndex ti)
      (some (r, tile)) := by
  have there := Outcome.assert_of (ε := Failure) (Kvs.hasTile_of_some h.hasRoot) "tile_exists(root)"
  simp only [Kvs.closestTo, Reader.closest, decide_eq_true_eq, if_neg above, if_neg beside]
  exact .bind (.of_ret fun _ => rfl) (.bind (.of_ret fun _ => there) (.bind reaches
    (.bind (.of_ret fun _ => Kvs.readTile_of_some stored) (.pure _))))

theorem closestTo_beside (kvs : Kvs) (above : ¬ ti.isAncestorOf wide info.nonnegativeRootTileIndex)
    (beside : ti ≠ info.nonnegativeRootTileIndex ∧
      ¬ TileIndex.isAncestorOf wide info.nonnegativeRootTileIndex ti) :
    Outcome.Reaches (fun fuel => kvs.closestTo start wide fuel info.nonnegativeRootTileIndex ti) none := by
  simp only [Kvs.closestTo, Reader.closest, decide_eq_true_eq, if_neg above, if_pos beside]
  exact .pure none

end

theorem readClosest_above (h : Stored kvs info tree) (start : TileIndex → ℚ) {wide : ℤ → ℤ → ℤ}
    (above : ti.isAncestorOf wide info.nonnegativeRootTileIndex) :
    Exec.Reaches (fun fuel => Channel.readClosest start wide fuel ti) kvs
      (some (info.nonnegativeRootTileIndex, tree.label)) kvs :=
  h.reaches_readClosest (h.closestTo_above start above)

theorem readClosest_below (h : Stored kvs info tree) (start : TileIndex → ℚ) {wide : ℤ → ℤ → ℤ}
    (above : ¬ ti.isAncestorOf wide info.nonnegativeRootTileIndex)
    (beside : ¬ (ti ≠ info.nonnegativeRootTileIndex ∧
      ¬ TileIndex.isAncestorOf wide info.nonnegativeRootTileIndex ti)) :
    ∃ a tile, Exec.Reaches (fun fuel => Channel.readClosest start wide fuel ti) kvs
      (some (a, tile)) kvs ∧ kvs.tiles a = some tile := by
  obtain ⟨r, tile, reaches, stored⟩ := h.descendTo_ends ti (start ti)
  exact ⟨r, tile, h.reaches_readClosest (h.closestTo_below start above beside reaches stored), stored⟩

theorem readClosest_beside (h : Stored kvs info tree) (start : TileIndex → ℚ) {wide : ℤ → ℤ → ℤ}
    (above : ¬ ti.isAncestorOf wide info.nonnegativeRootTileIndex)
    (beside : ti ≠ info.nonnegativeRootTileIndex ∧
      ¬ TileIndex.isAncestorOf wide info.nonnegativeRootTileIndex ti) :
    Exec.Reaches (fun fuel => Channel.readClosest start wide fuel ti) kvs none kvs :=
  h.reaches_readClosest (closestTo_beside start kvs above beside)

theorem readClosest_ends (h : Stored kvs info tree) (start : TileIndex → ℚ) (wide : ℤ → ℤ → ℤ)
    (ti : TileIndex) : ∃ found,
      Exec.Reaches (fun fuel => Channel.readClosest start wide fuel ti) kvs found kvs ∧
        ∀ a tile, found = some (a, tile) → kvs.tiles a = some tile := by
  by_cases above : ti.isAncestorOf wide info.nonnegativeRootTileIndex
  · refine ⟨_, h.readClosest_above start above, ?_⟩
    rintro a tile ⟨⟩
    exact h.hasRoot
  · by_cases beside : ti ≠ info.nonnegativeRootTileIndex ∧
        ¬ TileIndex.isAncestorOf wide info.nonnegativeRootTileIndex ti
    · refine ⟨none, h.readClosest_beside start above beside, ?_⟩
      rintro a tile ⟨⟩
    · obtain ⟨a, tile, reaches, stored⟩ := h.readClosest_below start above beside
      refine ⟨some (a, tile), reaches, ?_⟩
      rintro a tile ⟨⟩
      exact stored

theorem readsClosest_of (h : Stored kvs info tree) {answer : Option (TileIndex × ExactTile)}
    (reaches : Outcome.Reaches (fun fuel => kvs.closestAncestor TileIndex.exactShift fuel
      info.nonnegativeRootTileIndex ti) answer) : ReadsClosest kvs ti ↔ Answers kvs ti answer := by
  have run := h.reaches_closest reaches
  constructor
  · intro reads
    obtain ⟨answer', kvs', run', answers⟩ := reads
    cases Outcome.Reaches.unique run run'
    exact answers
  · exact fun answers => ⟨answer, kvs, run, answers⟩

theorem readsClosest_iff (h : Stored kvs info tree) (ti : TileIndex) :
    ReadsClosest kvs ti ↔ StartsInHalf kvs ti := by
  by_cases above : ti.isAncestorOf TileIndex.exactShift info.nonnegativeRootTileIndex
  · obtain ⟨low, around⟩ := (TileIndex.isAncestorOf_exact ti _).mp above
    -- nothing is stored as high as `ti`
    have short : ∀ b, kvs.hasTile b → b.level < ti.level := fun b has =>
      (h.under_root has).level_le.trans_lt low
    have alone : ∀ b, TileIndex.isAncestorOf TileIndex.exactShift b ti → ¬ kvs.hasTile b :=
      fun b up has => absurd ((TileIndex.isAncestorOf_exact b ti).mp up).1 (short b has).not_gt
    rw [h.readsClosest_of (h.closestTo_above TileIndex.doubleStart above)]
    refine iff_of_true ?_ fun a has _ up => (alone a up has).elim
    exact .root (fun has => (short ti has).ne rfl) alone h.metainfo above h.hasRoot
  · by_cases inside : ti.Under info.nonnegativeRootTileIndex
    · obtain ⟨r, reaches, under, has, right⟩ := h.endsRight inside
      obtain ⟨tile, stored⟩ := Kvs.tiles_of_hasTile has
      have stay : ¬ (ti ≠ info.nonnegativeRootTileIndex ∧
          ¬ TileIndex.isAncestorOf TileIndex.exactShift info.nonnegativeRootTileIndex ti) := by
        intro both
        exact both.2 ((TileIndex.isAncestorOf_exact _ ti).mpr ⟨inside.level_lt both.1, inside⟩)
      have run := h.closestTo_below TileIndex.doubleStart above stay reaches stored
      rw [h.readsClosest_of run, h.answers_iff inside stored, right, h.halves_iff]
    · have alone : ∀ b, TileIndex.isAncestorOf TileIndex.exactShift b ti → ¬ kvs.hasTile b := by
        intro b up has
        exact inside (((TileIndex.isAncestorOf_exact b ti).mp up).2.trans (h.under_root has))
      have leave : ti ≠ info.nonnegativeRootTileIndex ∧
          ¬ TileIndex.isAncestorOf TileIndex.exactShift info.nonnegativeRootTileIndex ti := by
        refine ⟨fun same => inside (same ▸ .refl _), fun up => ?_⟩
        exact inside ((TileIndex.isAncestorOf_exact _ ti).mp up).2
      rw [h.readsClosest_of (closestTo_beside TileIndex.doubleStart kvs above leave)]
      refine iff_of_true ?_ fun a has _ up => (alone a up has).elim
      refine .nothing (fun has => inside (h.under_root has)) alone fun info' metainfo => ?_
      rw [h.metainfo] at metainfo
      cases metainfo
      exact above

/-- A start that is not rounded is in the right half. -/
theorem startsInHalf_of_start (h : Stored kvs info tree) (exact_ : ti.doubleStart = Cell.start ti) :
    StartsInHalf kvs ti := by
  intro a has hasLeft above
  obtain ⟨low, under⟩ := (TileIndex.isAncestorOf_exact a ti).mp above
  obtain ⟨tile, at_a⟩ := Kvs.tiles_of_hasTile has
  have regular : Regular a := by
    rcases h.children at_a with ⟨noLeft, -⟩ | ⟨l, r, regular, -⟩
    · exact (noLeft hasLeft).elim
    · exact regular
  have low' := Kvs.ordinary_lo regular
  rw [exact_, TileIndex.leftChild_eq regular.lt_intMax, TileIndex.endTime_eq low'.1 low'.2]
  rcases Cell.Under.cases under with same | lo | hi
  · exact absurd (same ▸ low) (lt_irrefl _)
  · exact iff_of_true ((Cell.start_lt_stop ti).trans_le lo.stop_le) lo
  · refine iff_of_false ?_ fun lo => Cell.not_under_lo_hi lo hi
    rw [Cell.lo_stop]
    exact not_lt.mpr hi.start_le

end Stored

theorem TileIndex.toDouble_small {n : ℤ} (small : n.natAbs < 2 ^ 53) : toDouble n = n := by
  have bits : n.natAbs.log2 - 52 = 0 := by
    by_cases zero : n.natAbs = 0
    · rw [zero]
      rfl
    · have log := (Nat.log2_lt zero).mpr small
      omega
  rw [toDouble, bits, pow_zero, div_one, mul_one, roundEven_intCast]

theorem TileIndex.doubleStart_small {ti : TileIndex} (small : ti.offset.natAbs < 2 ^ 53)
    (low : -1074 ≤ ti.level) (high : ti.level < intMax) : ti.doubleStart = Cell.start ti := by
  have some : ¬ isNull ti := not_isNull_of_level (lt_of_lt_of_le (by decide) low)
  have noNegative : ¬ isNegativeAll ti := fun all => high.ne all.1
  have noNonnegative : ¬ isNonnegativeAll ti := fun all => high.ne all.1
  rw [doubleStart, if_neg some, if_neg noNegative, if_neg noNonnegative, if_neg (not_lt.mpr low),
    toDouble_small small]
  rfl

theorem readClosest_absent (start : TileIndex → ℚ) (wide : ℤ → ℤ → ℤ) (ti : TileIndex) : ∃ kvs,
    Exec.Reaches (fun fuel => Channel.readClosest start wide fuel ti) .absent none kvs :=
  ⟨_, .of_ret fun _ => rfl⟩

theorem readsClosest_absent (ti : TileIndex) : ReadsClosest .absent ti := by
  refine ⟨.none, _, .of_ret fun _ => rfl, .nothing (fun has => by cases has) (fun b _ has => by cases has) ?_⟩
  intro info metainfo
  cases metainfo

/-- Offsets of up to 53 bits, at the levels of the doubles. -/
theorem reads_closest_small {ch : Channel} {bs : List Batch} {kvs : Kvs} (run : Runs ch bs kvs)
    {ti : TileIndex} (small : ti.offset.natAbs < 2 ^ 53) (low : -1074 ≤ ti.level)
    (high : ti.level < TileIndex.intMax) : ReadsClosest kvs ti := by
  rcases run.usual with absent | ⟨info, tree, stored⟩
  · exact absent ▸ readsClosest_absent ti
  · exact (stored.readsClosest_iff ti).mpr
      (stored.startsInHalf_of_start (TileIndex.doubleStart_small small low high))

/-- In every state that runs of `add_data` leave. -/
theorem closest_ancestor_iff {ch : Channel} {bs : List Batch} {kvs : Kvs} (run : Runs ch bs kvs)
    (ti : TileIndex) : ReadsClosest kvs ti ↔ StartsInHalf kvs ti := by
  rcases run.usual with absent | ⟨info, tree, stored⟩
  · subst absent
    exact iff_of_true (readsClosest_absent ti) fun a has => by cases has
  · exact stored.readsClosest_iff ti

/-- The tile of an eighth of a second from 1/8 on. -/
theorem closest_ancestor_iff_eighth :
    ∃ kvs, Runs .narrow [.pair] kvs ∧ ReadsClosest kvs ⟨-3, 1⟩ := by
  obtain ⟨kvs, info, tree, run, stored, -⟩ := Runs.narrow_pair
  refine ⟨kvs, run, (closest_ancestor_iff run _).mpr (stored.startsInHalf_of_start ?_)⟩
  decide +kernel

/-- The tile ends at 2, where the left half of the root does, and its start is rounded up to 2. -/
theorem rounded_start_turns_off :
    ∃ kvs, Runs .narrow [.pair] kvs ∧ ¬ ReadsClosest kvs ⟨-56, 2 ^ 57 - 1⟩ := by
  obtain ⟨kvs, info, tree, run, stored, -, root⟩ := Runs.narrow_pair
  refine ⟨kvs, run, fun reads => ?_⟩
  have halves := (stored.readsClosest_iff _).mp reads
  have has := Kvs.hasTile_of_some stored.hasRoot
  have left := stored.hasLeft (by rw [root]; decide)
  rw [root] at has left
  exact absurd (halves _ has left (by decide +kernel)) (by decide +kernel)

end Mio.Datastore
