import Mio.Datastore.TileIndex

/-! `TileIndex::is_ancestor_of` on the machine types. An undefined operation aborts. -/
namespace Mio.Datastore

/-- `TileIndex` with its 32-bit level and 64-bit offset. -/
structure MachineIndex where
  level : BitVec 32
  offset : BitVec 64
  deriving DecidableEq

namespace MachineIndex

def nonnegativeAll : MachineIndex := ⟨0x7fffffff#32, 0#64⟩

def negativeAll : MachineIndex := ⟨0x7fffffff#32, 0xffffffffffffffff#64⟩

def index (ti : MachineIndex) : TileIndex := ⟨ti.level.toInt, ti.offset.toInt⟩

/-- `level-child.level` -/
def levelDifference {ε : Type} (ti child : MachineIndex) : Outcome ε ℤ := do
  let difference := ti.level.toInt - child.level.toInt
  Outcome.assert (-2 ^ 31 ≤ difference ∧ difference < 2 ^ 31) "int"
  return difference

/-- `offset >> count`, a shift of a signed value. -/
def shiftOffset {ε : Type} (offset : BitVec 64) (count : ℕ) : Outcome ε (BitVec 64) := do
  Outcome.assert (count < 64) "shift"
  return offset.sshiftRight count

def isAncestorOf {ε : Type} (ti child : MachineIndex) : Outcome ε Bool :=
  if child.level.toInt < ti.level.toInt then do
    let difference ← ti.levelDifference child
    let shifted ← shiftOffset child.offset difference.toNat
    return ti.offset == shifted
  else return false

section
variable {a b : MachineIndex} {ε : Type}

theorem isAncestorOf_not_above (low : a.level.toInt ≤ b.level.toInt) :
    (a.isAncestorOf b : Outcome ε Bool) = .ret false := if_neg (not_lt.mpr low)

/-- The shift is an exact one as long as it is defined. -/
theorem isAncestorOf_near (above : b.level.toInt < a.level.toInt)
    (near : a.level.toInt - b.level.toInt < 64) :
    (a.isAncestorOf b : Outcome ε Bool) = .ret (decide (b.index.Under a.index)) := by
  have range : -2 ^ 31 ≤ a.level.toInt - b.level.toInt ∧ a.level.toInt - b.level.toInt < 2 ^ 31 := by
    omega
  have count : (a.level.toInt - b.level.toInt).toNat < 64 := by omega
  have same : (a.offset == b.offset.sshiftRight (a.level.toInt - b.level.toInt).toNat) =
      decide (b.index.Under a.index) := by
    rw [Bool.eq_iff_iff, beq_iff_eq, decide_eq_true_iff, Cell.under_iff, ← BitVec.toInt_inj,
      BitVec.toInt_sshiftRight, Int.shiftRight_eq_div_pow]
    constructor
    · intro eq
      exact ⟨above.le, eq.symm⟩
    · intro under
      exact under.2.symm
  rw [isAncestorOf, if_pos above, levelDifference, Outcome.assert_of range, Outcome.ret_bind,
    Outcome.pure_eq_ret, Outcome.ret_bind, shiftOffset, Outcome.assert_of count, ← same]
  rfl

theorem isAncestorOf_far (far : 64 ≤ a.level.toInt - b.level.toInt) (r : Bool) :
    (a.isAncestorOf b : Outcome ε Bool) ≠ .ret r := by
  have above : b.level.toInt < a.level.toInt := by omega
  intro ret
  rw [isAncestorOf, if_pos above] at ret
  obtain ⟨difference, first, ret⟩ := Outcome.bind_eq_ret.mp ret
  obtain ⟨_, -, first⟩ := Outcome.bind_eq_ret.mp first
  obtain ⟨shifted, shift, -⟩ := Outcome.bind_eq_ret.mp ret
  obtain ⟨_, count, -⟩ := Outcome.bind_eq_ret.mp shift
  have count := Outcome.assert_eq_ret.mp count
  cases first
  omega

end

/-- The interval of `j` lies within that of `i`. -/
def Within (j i : TileIndex) : Prop := ∀ t, TileIndex.containsTime j t → TileIndex.containsTime i t

theorem containsTime_plain {i : TileIndex} (proper : ¬ TileIndex.isNull i)
    (notNegative : ¬ TileIndex.isNegativeAll i) (notNonnegative : ¬ TileIndex.isNonnegativeAll i) (t : ℚ) :
    TileIndex.containsTime i t ↔ i.Has t := by
  rw [TileIndex.containsTime, TileIndex.startTime, TileIndex.endTime, if_neg proper, if_neg notNegative,
    if_neg notNonnegative, if_neg proper, if_neg notNegative, if_neg notNonnegative]
  rfl

theorem within_plain {j i : TileIndex} (below : j.level < i.level) (low : ¬ TileIndex.isNull j)
    (high : j.level < TileIndex.intMax) (proper : ¬ TileIndex.isNull i)
    (notNegative : ¬ TileIndex.isNegativeAll i) (notNonnegative : ¬ TileIndex.isNonnegativeAll i) :
    Within j i ↔ j.Under i := by
  have plain := containsTime_plain proper notNegative notNonnegative
  have plainJ := TileIndex.containsTime_iff low high
  constructor
  · intro within
    have first : j.Has (Cell.start j) := ⟨le_rfl, j.start_lt_stop⟩
    have inside := (plain _).mp (within _ ((plainJ _).mpr first))
    exact Cell.under_of_has first inside below.le
  · intro under t has
    exact (plain t).mpr (under.has ((plainJ t).mp has))

theorem mid_sub_start (j : TileIndex) (high : TileIndex.topLevel < j.level) :
    doubleMax < Cell.start j.hi - Cell.start j := by
  have width : Cell.start j.hi - Cell.start j = (2 : ℚ) ^ (j.level - 1) := by
    rw [← j.lo_stop, ← j.lo_start, j.lo.stop_sub_start]
    rfl
  rw [width]
  refine TileIndex.doubleMax_lt.trans_le ?_
  exact zpow_le_zpow_right₀ (by norm_num) (by omega)

theorem not_within_all {j i : TileIndex} (low : ¬ TileIndex.isNull j) (wide : TileIndex.topLevel < j.level)
    (high : j.level < TileIndex.intMax) (all : TileIndex.isNonnegativeAll i ∨ TileIndex.isNegativeAll i) :
    ¬ Within j i := by
  intro within
  have gap := mid_sub_start j wide
  have plain := TileIndex.containsTime_iff low high
  have first := within _ ((plain (Cell.start j)).mpr ⟨le_rfl, j.start_lt_stop⟩)
  have mid := within _ ((plain (Cell.start j.hi)).mpr ⟨j.start_lt_mid.le, j.mid_lt_stop⟩)
  have positive : ¬ TileIndex.isNull i := by
    intro null
    cases all with
    | inl all => exact absurd (null.1.symm.trans all.1) (by decide)
    | inr all => exact absurd (null.1.symm.trans all.1) (by decide)
  rw [TileIndex.containsTime, TileIndex.startTime, TileIndex.endTime, if_neg positive, if_neg positive]
    at first mid
  by_cases negative : TileIndex.isNegativeAll i
  · rw [if_pos negative, if_pos negative] at first mid
    linarith [first.1, mid.2]
  · have nonnegative := all.resolve_right negative
    rw [if_neg negative, if_neg negative, if_pos nonnegative, if_pos nonnegative] at first mid
    linarith [first.1, mid.2]

/-- `is_ancestor_of` does nothing undefined and is true of the tiles properly around the other one; in
particular the all-tile is above every tile that is not negative. -/
def AncestorExact (a b : MachineIndex) : Prop :=
  ∃ r, (∀ ε : Type, a.isAncestorOf b = (.ret r : Outcome ε Bool)) ∧
    (r = true ↔ b.level.toInt < a.level.toInt ∧ Within b.index a.index) ∧
    (a = nonnegativeAll → b.level.toInt < TileIndex.intMax → 0 ≤ b.offset.toInt → r = true)

/-- What goes wrong at the all-tiles even where the shift is defined. -/
def AllAround (a b : MachineIndex) : Prop :=
  (a = nonnegativeAll ∧ 0 ≤ b.offset.toInt) ∨
    (a = negativeAll ∧ b.offset.toInt < 0 ∧
      -2 ^ (a.level.toInt - b.level.toInt).toNat ≤ b.offset.toInt)

instance (a b : MachineIndex) : Decidable (AllAround a b) := inferInstanceAs (Decidable (_ ∨ _))

theorem eq_of_index {a b : MachineIndex} (h : a.index = b.index) : a = b := by
  have level : a.level = b.level := BitVec.toInt_inj.mp (congrArg Cell.level h)
  have offset : a.offset = b.offset := BitVec.toInt_inj.mp (congrArg Cell.offset h)
  cases a
  cases b
  rw [MachineIndex.mk.injEq]
  exact ⟨level, offset⟩

theorem isNonnegativeAll_index {a : MachineIndex} : TileIndex.isNonnegativeAll a.index ↔ a = nonnegativeAll := by
  rw [TileIndex.isNonnegativeAll_iff]
  exact ⟨fun h => eq_of_index h, fun h => h ▸ rfl⟩

theorem isNegativeAll_index {a : MachineIndex} : TileIndex.isNegativeAll a.index ↔ a = negativeAll := by
  constructor
  · intro h
    apply eq_of_index
    exact congrArg₂ Cell.mk h.1 h.2
  · intro h
    subst h
    exact ⟨rfl, rfl⟩

theorem level_le (a : MachineIndex) : a.level.toInt ≤ TileIndex.intMax := by
  have bound := a.level.toInt_lt
  simp only [TileIndex.intMax]
  omega

section
variable {a b : MachineIndex}

theorem ancestorExact_low (low : a.level.toInt ≤ b.level.toInt) : AncestorExact a b := by
  refine ⟨false, fun ε => isAncestorOf_not_above low, ?_, ?_⟩
  · constructor
    · intro impossible
      cases impossible
    · intro around
      exact absurd around.1 (not_lt.mpr low)
  · intro all below
    have top : a.level.toInt = TileIndex.intMax := congrArg (fun i => i.level.toInt) all
    omega

theorem not_ancestorExact_far (far : 64 ≤ a.level.toInt - b.level.toInt) : ¬ AncestorExact a b := by
  intro exact_
  obtain ⟨r, returned, -⟩ := exact_
  exact isAncestorOf_far far r (returned Empty)

theorem ancestorExact_near (above : b.level.toInt < a.level.toInt)
    (near : a.level.toInt - b.level.toInt < 64) :
    AncestorExact a b ↔
      (b.index.Under a.index ↔ Within b.index a.index) ∧
        (a = nonnegativeAll → 0 ≤ b.offset.toInt → b.index.Under a.index) := by
  have below : b.level.toInt < TileIndex.intMax := above.trans_le (level_le a)
  have run : ∀ ε : Type, (a.isAncestorOf b : Outcome ε Bool) = .ret (decide (b.index.Under a.index)) :=
    fun ε => isAncestorOf_near above near
  constructor
  · intro exact_
    obtain ⟨r, returned, around, all⟩ := exact_
    have same := (run Empty).symm.trans (returned Empty)
    cases same
    rw [decide_eq_true_iff] at around
    refine ⟨around.trans (and_iff_right above), fun eq nonneg => ?_⟩
    exact of_decide_eq_true (all eq below nonneg)
  · intro both
    obtain ⟨around, all⟩ := both
    refine ⟨_, run, ?_, fun eq _ nonneg => decide_eq_true (all eq nonneg)⟩
    rw [decide_eq_true_iff]
    exact around.trans (and_iff_right above).symm

theorem under_iff_offset (above : b.level.toInt < a.level.toInt) :
    b.index.Under a.index ↔
      b.offset.toInt / 2 ^ (a.level.toInt - b.level.toInt).toNat = a.offset.toInt := by
  rw [Cell.under_iff]
  exact and_iff_right above.le

theorem ancestorExact_nonnegative (all : a = nonnegativeAll) (above : b.level.toInt < a.level.toInt)
    (near : a.level.toInt - b.level.toInt < 64) (apart : ¬ Within b.index a.index) :
    AncestorExact a b ↔ b.offset.toInt < 0 := by
  have width : (0 : ℤ) < 2 ^ (a.level.toInt - b.level.toInt).toNat := by positivity
  have zero : a.offset.toInt = 0 := congrArg (fun i => i.offset.toInt) all
  rw [ancestorExact_near above near, under_iff_offset above, zero]
  constructor
  · intro both
    by_contra nonneg
    exact apart (both.1.mp (both.2 all (not_lt.mp nonneg)))
  · intro negative
    have quotient := mt (Int.ediv_nonneg_iff_of_pos width).mp (not_le.mpr negative)
    refine ⟨⟨fun eq => ?_, fun within => (apart within).elim⟩, fun _ nonneg => ?_⟩
    · exact absurd eq.ge quotient
    · exact absurd nonneg (not_le.mpr negative)

theorem ancestorExact_negative (all : a = negativeAll) (above : b.level.toInt < a.level.toInt)
    (near : a.level.toInt - b.level.toInt < 64) (apart : ¬ Within b.index a.index) :
    AncestorExact a b ↔ ¬ (b.offset.toInt < 0 ∧
      -2 ^ (a.level.toInt - b.level.toInt).toNat ≤ b.offset.toInt) := by
  have width : (0 : ℤ) < 2 ^ (a.level.toInt - b.level.toInt).toNat := by positivity
  have last : a.offset.toInt = -1 := congrArg (fun i => i.offset.toInt) all
  have other : a ≠ nonnegativeAll := by
    rw [all]
    decide
  rw [ancestorExact_near above near, under_iff_offset above, last]
  generalize (2 : ℤ) ^ (a.level.toInt - b.level.toInt).toNat = w at width
  have span : b.offset.toInt / w = -1 ↔ b.offset.toInt < 0 ∧ -w ≤ b.offset.toInt := by
    have low : -1 ≤ b.offset.toInt / w ↔ -1 * w ≤ b.offset.toInt := Int.le_ediv_iff_mul_le width
    have high : b.offset.toInt / w < 0 ↔ b.offset.toInt < 0 * w := Int.ediv_lt_iff_lt_mul width
    omega
  rw [span]
  constructor
  · intro both below
    exact apart (both.1.mp below)
  · intro beside
    exact ⟨⟨fun below => (beside below).elim, fun within => (apart within).elim⟩,
      fun eq => (other eq).elim⟩

theorem ancestorExact_plain (above : b.level.toInt < a.level.toInt)
    (near : a.level.toInt - b.level.toInt < 64) (proper : ¬ TileIndex.isNull b.index)
    (nonnegative : a ≠ nonnegativeAll) (negative : a ≠ negativeAll) : AncestorExact a b := by
  rw [ancestorExact_near above near]
  refine ⟨?_, fun eq => (nonnegative eq).elim⟩
  have notNull : ¬ TileIndex.isNull a.index := by
    intro null
    have bottom := b.level.le_toInt
    have level : a.level.toInt = TileIndex.intMin := null.1
    simp only [TileIndex.intMin] at level
    omega
  exact (within_plain above proper (above.trans_le (level_le a)) notNull
    (fun all => negative (isNegativeAll_index.mp all))
    fun all => nonnegative (isNonnegativeAll_index.mp all)).symm

end

/-- Defined up to 63 levels apart, and then right of every tile that is no all-tile. -/
theorem ancestor_exact_iff (a : MachineIndex) {b : MachineIndex} (proper : ¬ TileIndex.isNull b.index) :
    AncestorExact a b ↔
      a.level.toInt ≤ b.level.toInt ∨
        (a.level.toInt - b.level.toInt < 64 ∧ ¬ AllAround a b) := by
  rcases le_or_gt a.level.toInt b.level.toInt with low | above
  · exact ⟨fun _ => .inl low, fun _ => ancestorExact_low low⟩
  rw [or_iff_right (not_le.mpr above)]
  rcases le_or_gt 64 (a.level.toInt - b.level.toInt) with far | near
  · constructor
    · intro exact_
      exact (not_ancestorExact_far far exact_).elim
    · intro both
      exact absurd both.1 (not_lt.mpr far)
  rw [and_iff_right near]
  have below : b.level.toInt < TileIndex.intMax := above.trans_le (level_le a)
  have apart : TileIndex.isNonnegativeAll a.index ∨ TileIndex.isNegativeAll a.index →
      ¬ Within b.index a.index := by
    intro all
    have top : a.level.toInt = TileIndex.intMax := by
      cases all with
      | inl all => exact all.1
      | inr all => exact all.1
    refine not_within_all proper ?_ below all
    change TileIndex.topLevel < b.level.toInt
    simp only [TileIndex.topLevel, TileIndex.intMax] at top ⊢
    omega
  by_cases nonnegative : a = nonnegativeAll
  · have other : a ≠ negativeAll := by
      rw [nonnegative]
      decide
    have around : AllAround a b ↔ 0 ≤ b.offset.toInt := by
      rw [AllAround, and_iff_right nonnegative]
      exact or_iff_left fun both => other both.1
    rw [around, not_le]
    exact ancestorExact_nonnegative nonnegative above near
      (apart (.inl (isNonnegativeAll_index.mpr nonnegative)))
  by_cases negative : a = negativeAll
  · have around : AllAround a b ↔ b.offset.toInt < 0 ∧
        -2 ^ (a.level.toInt - b.level.toInt).toNat ≤ b.offset.toInt := by
      rw [AllAround, and_iff_right negative]
      exact or_iff_right fun both => nonnegative both.1
    rw [around]
    exact ancestorExact_negative negative above near (apart (.inr (isNegativeAll_index.mpr negative)))
  · have none : ¬ AllAround a b := by
      intro around
      cases around with
      | inl around => exact nonnegative around.1
      | inr around => exact negative around.1
    exact ⟨fun _ => none, fun _ => ancestorExact_plain above near proper nonnegative negative⟩

/-- A tile and the one two levels above it. -/
theorem ancestor_exact_iff_near : AncestorExact ⟨3#32, 1#64⟩ ⟨1#32, 6#64⟩ :=
  (ancestor_exact_iff ⟨3#32, 1#64⟩ (by decide)).mpr (by decide)

/-- What a channel with a single tile asks for: the count is beyond any shift. -/
theorem all_tile_shift_undefined : ¬ AncestorExact nonnegativeAll ⟨0#32, 0#64⟩ :=
  not_ancestorExact_far (by decide)

end MachineIndex
end Mio.Datastore
