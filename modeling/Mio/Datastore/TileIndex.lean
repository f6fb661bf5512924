import Mio.Lib.Dyadic
import Mio.Datastore.Sample

/-! `TileIndex.h`. A tile index is a dyadic cell; the largest and the smallest level mark the
all-tiles and the null index. -/
namespace Mio.Datastore

abbrev TileIndex := Cell

namespace TileIndex

def intMax : ℤ := 2147483647

def intMin : ℤ := -2147483648

def nonnegativeAll : TileIndex := ⟨intMax, 0⟩

def negativeAll : TileIndex := ⟨intMax, -1⟩

def null : TileIndex := ⟨intMin, 0⟩

def isNonnegativeAll (ti : TileIndex) : Prop := ti.level = intMax ∧ ti.offset = 0

def isNegativeAll (ti : TileIndex) : Prop := ti.level = intMax ∧ ti.offset = -1

def isAll (ti : TileIndex) : Prop := ti.level = intMax

def isNull (ti : TileIndex) : Prop := ti.level = intMin ∧ ti.offset = 0

instance (ti : TileIndex) : Decidable (isNonnegativeAll ti) := inferInstanceAs (Decidable (_ ∧ _))

instance (ti : TileIndex) : Decidable (isNegativeAll ti) := inferInstanceAs (Decidable (_ ∧ _))

instance (ti : TileIndex) : Decidable (isAll ti) := inferInstanceAs (Decidable (_ = _))

instance (ti : TileIndex) : Decidable (isNull ti) := inferInstanceAs (Decidable (_ ∧ _))

def levelToDuration (level : ℤ) : ℚ := 2 ^ level

def duration (ti : TileIndex) : ℚ := levelToDuration ti.level

def startTime (ti : TileIndex) : ℚ :=
  if isNull ti then doubleMax
  else if isNegativeAll ti then -doubleMax
  else if isNonnegativeAll ti then 0
  else duration ti * ti.offset

def endTime (ti : TileIndex) : ℚ :=
  if isNull ti then -doubleMax
  else if isNegativeAll ti then 0
  else if isNonnegativeAll ti then doubleMax
  else duration ti * (ti.offset + 1)

def containsTime (ti : TileIndex) (time : ℚ) : Prop := startTime ti ≤ time ∧ time < endTime ti

instance (ti : TileIndex) (time : ℚ) : Decidable (containsTime ti time) :=
  inferInstanceAs (Decidable (_ ∧ _))

def position (ti : TileIndex) (time : ℚ) : ℚ := (time - startTime ti) / duration ti

def parent (ti : TileIndex) : TileIndex :=
  if isAll ti then null else ⟨ti.level + 1, ti.offset >>> (1 : ℕ)⟩

def leftChild (ti : TileIndex) : TileIndex :=
  if isAll ti then null else ⟨ti.level - 1, ti.offset * 2⟩

def rightChild (ti : TileIndex) : TileIndex :=
  if isAll ti then null else ⟨ti.level - 1, ti.offset * 2 + 1⟩

/-- `offset ^ 1` flips the lowest bit. -/
def sibling (ti : TileIndex) : TileIndex :=
  ⟨ti.level, if ti.offset % 2 = 0 then ti.offset + 1 else ti.offset - 1⟩

/-- The order of `std::set<TileIndex>`: by level, then by offset. -/
def lt (a b : TileIndex) : Prop :=
  if a.level = b.level then a.offset < b.offset else a.level < b.level

instance (a b : TileIndex) : Decidable (lt a b) := by unfold lt; infer_instance

/-- A right shift of a 64-bit offset. Shifting by 64 or more is undefined; `wide` stands for
whatever the machine makes of it. -/
def shiftRight (wide : ℤ → ℤ → ℤ) (offset count : ℤ) : ℤ :=
  if count < 64 then offset >>> count.toNat else wide offset count

def isAncestorOf (wide : ℤ → ℤ → ℤ) (ti child : TileIndex) : Prop :=
  child.level < ti.level ∧ ti.offset = shiftRight wide child.offset (ti.level - child.level)

instance (wide : ℤ → ℤ → ℤ) (a b : TileIndex) : Decidable (isAncestorOf wide a b) :=
  inferInstanceAs (Decidable (_ ∧ _))

def indexAtLevelContaining (level : ℤ) (time : ℚ) : TileIndex :=
  ⟨level, ⌊time / levelToDuration level⌋⟩

/-- `while (!ret.contains_time(times.max)) ret = ret.parent();` -/
def climbToContain {ε : Type} (time : ℚ) : ℕ → TileIndex → Outcome ε TileIndex
  | 0, _ => .timeout
  | fuel + 1, ret =>
      if containsTime ret time then .ret ret else climbToContain time fuel (parent ret)

def indexContaining {ε : Type} (fuel : ℕ) (times : Range ℚ) : Outcome ε TileIndex := do
  Outcome.assert (times.min < times.max) "times.min < times.max"
  Outcome.assert (times.min ≥ 0 ∨ times.max < 0) "times.min >= 0 || times.max < 0"
  let level := Int.log 2 (times.max - times.min)
  climbToContain times.max fuel (indexAtLevelContaining level times.min)

theorem climbToContain_silent {ε : Type} (time : ℚ) (fuel : ℕ) (ti : TileIndex) :
    Outcome.Silent (climbToContain time fuel ti : Outcome ε TileIndex) := by
  induction fuel generalizing ti with
  | zero => exact .timeout
  | succ fuel ih =>
      rw [climbToContain]
      split
      · exact .ret _
      · exact ih _

theorem indexContaining_silent {ε : Type} (fuel : ℕ) (times : Range ℚ) :
    Outcome.Silent (indexContaining fuel times : Outcome ε TileIndex) :=
  .bind .assert fun _ => .bind .assert fun _ => climbToContain_silent _ _ _

theorem not_isNull_of_level {ti : TileIndex} (h : intMin < ti.level) : ¬ isNull ti :=
  fun e => h.ne' e.1

theorem not_isAll {ti : TileIndex} (h : ti.level < intMax) : ¬ isAll ti := h.ne

theorem startTime_eq {ti : TileIndex} (low : ¬ isNull ti) (high : ti.level < intMax) :
    startTime ti = Cell.start ti := by
  have h₁ : ¬ isNegativeAll ti := fun e => high.ne e.1
  have h₂ : ¬ isNonnegativeAll ti := fun e => high.ne e.1
  rw [startTime, if_neg low, if_neg h₁, if_neg h₂]
  rfl

theorem endTime_eq {ti : TileIndex} (low : ¬ isNull ti) (high : ti.level < intMax) :
    endTime ti = Cell.stop ti := by
  have h₁ : ¬ isNegativeAll ti := fun e => high.ne e.1
  have h₂ : ¬ isNonnegativeAll ti := fun e => high.ne e.1
  rw [endTime, if_neg low, if_neg h₁, if_neg h₂]
  rfl

theorem containsTime_iff {ti : TileIndex} (low : ¬ isNull ti) (high : ti.level < intMax) (t : ℚ) :
    containsTime ti t ↔ ti.Has t := by
  rw [containsTime, startTime_eq low high, endTime_eq low high]
  rfl

theorem parent_eq {ti : TileIndex} (high : ti.level < intMax) : parent ti = ti.up := by
  rw [parent, if_neg (not_isAll high), Int.shiftRight_eq_div_pow]
  rfl

theorem leftChild_eq {ti : TileIndex} (high : ti.level < intMax) : leftChild ti = ti.lo :=
  if_neg (not_isAll high)

theorem rightChild_eq {ti : TileIndex} (high : ti.level < intMax) : rightChild ti = ti.hi :=
  if_neg (not_isAll high)

theorem sibling_eq (ti : TileIndex) : sibling ti = ti.twin := rfl

theorem indexAtLevelContaining_eq (level : ℤ) (t : ℚ) :
    indexAtLevelContaining level t = Cell.around level t := rfl

/-- A right child has an odd offset, so it is not the null index whatever its level. -/
theorem not_isNull_hi (ti : TileIndex) : ¬ isNull ti.hi := by
  intro e
  have : ti.offset * 2 + 1 = 0 := e.2
  omega

theorem rightChild_startTime {ti : TileIndex} (high : ti.level < intMax) :
    startTime (rightChild ti) = Cell.start ti.hi := by
  rw [rightChild_eq high, startTime_eq (not_isNull_hi ti)]
  have : ti.hi.level = ti.level - 1 := rfl
  omega

theorem nonnegativeAll_startTime : startTime nonnegativeAll = 0 := by
  simp [startTime, isNull, isNegativeAll, isNonnegativeAll, nonnegativeAll, intMax, intMin]

theorem nonnegativeAll_endTime : endTime nonnegativeAll = doubleMax := by
  simp [endTime, isNull, isNegativeAll, isNonnegativeAll, nonnegativeAll, intMax, intMin]

theorem isNonnegativeAll_iff {ti : TileIndex} : isNonnegativeAll ti ↔ ti = nonnegativeAll := by
  cases ti
  simp [isNonnegativeAll, nonnegativeAll]

theorem isNull_iff {ti : TileIndex} : isNull ti ↔ ti = null := by
  cases ti
  simp [isNull, null]

theorem isNull_leftChild_all : leftChild nonnegativeAll = null := if_pos rfl

theorem isNull_rightChild_all : rightChild nonnegativeAll = null := if_pos rfl

theorem nonnegativeAll_ne_null : nonnegativeAll ≠ null := by
  simp [nonnegativeAll, null, intMax, intMin]

/-- The levels a root can take: every finite double lies below `2 ^ 1024`. -/
def topLevel : ℤ := 1024

theorem doubleMax_lt : doubleMax < 2 ^ topLevel := by
  have split : (2 : ℚ) ^ topLevel = 2 ^ 53 * 2 ^ 971 := by
    rw [← pow_add, topLevel, ← zpow_natCast]
    rfl
  rw [split, doubleMax]
  exact mul_lt_mul_of_pos_right (by norm_num) (by positivity)

theorem le_doubleMax : (2 : ℚ) ^ (1023 : ℤ) ≤ doubleMax := by
  have split : (2 : ℚ) ^ (1023 : ℤ) = 2 ^ 52 * 2 ^ 971 := by
    rw [← pow_add, ← zpow_natCast]
    rfl
  rw [split, doubleMax]
  exact mul_le_mul_of_nonneg_right (by norm_num) (by positivity)

theorem climbToContain_ret {ε : Type} {time : ℚ} {fuel : ℕ} {ti r : TileIndex}
    (low : intMin < ti.level) (h : climbToContain time fuel ti = (.ret r : Outcome ε TileIndex))
    (top : ∃ k : ℕ, (Cell.up^[k] ti).Has time ∧ (Cell.up^[k] ti).level < intMax) :
    ∃ k : ℕ, r = Cell.up^[k] ti ∧ r.Has time ∧ ∀ i < k, ¬ (Cell.up^[i] ti).Has time := by
  induction fuel generalizing ti with
  | zero => cases h
  | succ fuel ih =>
      obtain ⟨n, hn, level⟩ := top
      have high : ti.level < intMax := by
        rw [Cell.iter_up_level] at level
        omega
      simp only [climbToContain, containsTime_iff (not_isNull_of_level low) high] at h
      split at h
      · next has =>
          cases h
          exact ⟨0, rfl, has, by simp⟩
      · next out =>
          rw [parent_eq high] at h
          cases n with
          | zero => exact (out hn).elim
          | succ n =>
              obtain ⟨k, eq, has, first⟩ := ih (by simp only [Cell.up]; omega) h ⟨n, hn, level⟩
              refine ⟨k + 1, eq, has, ?_⟩
              intro i hi
              cases i with
              | zero => exact out
              | succ i => exact first i (by omega)

theorem climbToContain_done {ε : Type} {time : ℚ} {ti : TileIndex} (k : ℕ)
    (low : intMin < ti.level) (has : (Cell.up^[k] ti).Has time)
    (high : (Cell.up^[k] ti).level < intMax) {fuel : ℕ} (enough : k < fuel) :
    ∃ r, climbToContain time fuel ti = (.ret r : Outcome ε TileIndex) := by
  induction k generalizing ti fuel with
  | zero =>
      obtain ⟨fuel, rfl⟩ : ∃ n, fuel = n + 1 := ⟨fuel - 1, by omega⟩
      refine ⟨ti, ?_⟩
      rw [climbToContain, if_pos]
      exact (containsTime_iff (not_isNull_of_level low) high time).mpr has
  | succ k ih =>
      obtain ⟨fuel, rfl⟩ : ∃ n, fuel = n + 1 := ⟨fuel - 1, by omega⟩
      have level : ti.level < intMax := by
        rw [Cell.iter_up_level] at high
        omega
      by_cases now : containsTime ti time
      · exact ⟨ti, by rw [climbToContain, if_pos now]⟩
      · have level' : intMin < ti.up.level := by
          simp only [Cell.up]
          omega
        obtain ⟨r, hr⟩ := ih level' has high (Nat.lt_of_succ_lt_succ enough)
        exact ⟨r, by rw [climbToContain, if_neg now, parent_eq level, hr]⟩

/-- The non-negative finite doubles all lie in one cell far below the sentinel level. -/
theorem top_has {t : ℚ} (h : 0 ≤ t) (le : t ≤ doubleMax) : Cell.Has ⟨topLevel, 0⟩ t := by
  refine ⟨by simpa [Cell.start] using h, ?_⟩
  simpa [Cell.stop, Cell.width] using le.trans_lt doubleMax_lt

theorem top_has_neg {t : ℚ} (h : t < 0) (le : -doubleMax ≤ t) : Cell.Has ⟨topLevel, -1⟩ t := by
  refine ⟨?_, by simpa [Cell.stop] using h⟩
  have bound := doubleMax_lt
  simp only [Cell.start, Cell.width, Int.cast_neg, Int.cast_one, mul_neg, mul_one]
  linarith

theorem exists_top {a b : ℚ} (ha : IsDouble a) (hb : IsDouble b) (lt : a < b) (side : 0 ≤ a ∨ b < 0) :
    b - a ≤ doubleMax ∧ ∃ top : TileIndex, top.level = topLevel ∧ top.Has a ∧ top.Has b := by
  have high := hb.le_doubleMax
  have low := ha.neg.le_doubleMax
  cases side with
  | inl pos =>
      exact ⟨by linarith, ⟨topLevel, 0⟩, rfl, top_has pos (lt.le.trans high), top_has (pos.trans lt.le) high⟩
  | inr neg =>
      refine ⟨by linarith, ⟨topLevel, -1⟩, rfl, top_has_neg (lt.trans neg) ?_, top_has_neg neg ?_⟩
      · linarith
      · linarith

theorem climb_bounds {a b : ℚ} (ha : IsDouble a) (hb : IsDouble b) (lt : a < b)
    (side : 0 ≤ a ∨ b < 0) :
    -1074 ≤ Int.log 2 (b - a) ∧ Int.log 2 (b - a) ≤ topLevel ∧
      (2 : ℚ) ^ Int.log 2 (b - a) ≤ b - a ∧
      ∃ k : ℕ, Int.log 2 (b - a) + k = topLevel ∧
        (Cell.up^[k] (Cell.around (Int.log 2 (b - a)) a)).Has b := by
  obtain ⟨span, top, level, hasA, hasB⟩ := exists_top ha hb lt side
  have width : 0 < b - a := sub_pos.mpr lt
  have below : (2 : ℚ) ^ Int.log 2 (b - a) ≤ b - a := by
    exact_mod_cast Int.zpow_log_le_self (b := 2) (by norm_num) width
  have above : b - a < (2 : ℚ) ^ (Int.log 2 (b - a) + 1) := by
    exact_mod_cast Int.lt_zpow_succ_log_self (b := 2) (by norm_num) (b - a)
  generalize Int.log 2 (b - a) = start at *
  have two : (1 : ℚ) < 2 := by norm_num
  have low : (-1074 : ℤ) ≤ start := by
    have := (zpow_lt_zpow_iff_right₀ two).mp ((ha.gap hb lt).trans_lt above)
    omega
  have high : start < topLevel :=
    (zpow_lt_zpow_iff_right₀ two).mp ((below.trans span).trans_lt doubleMax_lt)
  refine ⟨low, high.le, below, (topLevel - start).toNat, by omega, ?_⟩
  rw [Cell.around_iter]
  have same : start + ((topLevel - start).toNat : ℤ) = top.level := by omega
  rw [same, ← Cell.has_iff.mp hasA]
  exact hasB

/-- On finite doubles `index_containing` returns the smallest cell around both times. -/
theorem indexContaining_ret {ε : Type} {fuel : ℕ} {a b : ℚ} {r : TileIndex} (ha : IsDouble a)
    (hb : IsDouble b) (side : 0 ≤ a ∨ b < 0)
    (h : indexContaining fuel ⟨a, b⟩ = (.ret r : Outcome ε TileIndex)) :
    a < b ∧ Cell.Smallest r a b ∧ r.level ≤ topLevel ∧ -1074 < r.level := by
  simp only [indexContaining] at h
  obtain ⟨_, h₁, h⟩ := Outcome.bind_eq_ret.mp h
  obtain ⟨_, _, h⟩ := Outcome.bind_eq_ret.mp h
  have lt : a < b := Outcome.assert_eq_ret.mp h₁
  obtain ⟨low, high, below, n, level, top⟩ := climb_bounds ha hb lt side
  rw [indexAtLevelContaining_eq] at h
  have start : (Cell.around (Int.log 2 (b - a)) a).level = Int.log 2 (b - a) := rfl
  obtain ⟨k, rfl, has, first⟩ := climbToContain_ret (by rw [start, intMin]; omega) h
    ⟨n, top, by rw [Cell.iter_up_level, start, level]; norm_num [topLevel, intMax]⟩
  have le : k ≤ n := by
    by_contra gt
    exact first n (by omega) top
  have moved : 0 < k := by
    rcases Nat.eq_zero_or_pos k with rfl | pos
    · have := Cell.Has.abs_sub_lt (Cell.around_has (Int.log 2 (b - a)) a) has
      exact absurd below (not_le.mpr this)
    · exact pos
  refine ⟨lt, Cell.smallest_of_climb below has first, ?_, ?_⟩
  · rw [Cell.iter_up_level, start]
    omega
  · rw [Cell.iter_up_level, start]
    omega

theorem indexContaining_done {ε : Type} {a b : ℚ} (ha : IsDouble a) (hb : IsDouble b)
    (side : 0 ≤ a ∨ b < 0) (lt : a < b) :
    ∃ r, ∀ fuel, 2099 ≤ fuel → indexContaining fuel ⟨a, b⟩ = (.ret r : Outcome ε TileIndex) := by
  obtain ⟨low, high, -, n, level, top⟩ := climb_bounds ha hb lt side
  have start : (Cell.around (Int.log 2 (b - a)) a).level = Int.log 2 (b - a) := rfl
  have done : ∀ fuel, 2099 ≤ fuel →
      ∃ r, indexContaining fuel ⟨a, b⟩ = (.ret r : Outcome ε TileIndex) := by
    intro fuel enough
    obtain ⟨r, hr⟩ := climbToContain_done (ε := ε) n (by rw [start, intMin]; omega) top
      (by rw [Cell.iter_up_level, start, level]; norm_num [topLevel, intMax])
      (show n < fuel by unfold topLevel at level; omega)
    refine ⟨r, ?_⟩
    simp only [indexContaining, Outcome.assert_of lt, Outcome.assert_of side,
      Outcome.ret_bind, ge_iff_le, indexAtLevelContaining_eq, hr]
  obtain ⟨r, hr⟩ := done 2099 le_rfl
  refine ⟨r, fun fuel enough => ?_⟩
  obtain ⟨r', hr'⟩ := done fuel enough
  have same := (indexContaining_ret ha hb side hr).2.1.unique (indexContaining_ret ha hb side hr').2.1
  rw [hr', same]

def exactShift (offset count : ℤ) : ℤ := offset >>> count.toNat

theorem isAncestorOf_exact (ti child : TileIndex) :
    isAncestorOf exactShift ti child ↔ child.level < ti.level ∧ child.Under ti := by
  have shift : shiftRight exactShift child.offset (ti.level - child.level) =
      child.offset / 2 ^ (ti.level - child.level).toNat := by
    rw [shiftRight, exactShift, ite_self, Int.shiftRight_eq_div_pow]
    norm_cast
  rw [isAncestorOf, shift, Cell.under_iff]
  constructor
  · intro both
    exact ⟨both.1, both.1.le, both.2.symm⟩
  · intro both
    exact ⟨both.1, both.2.2.symm⟩

/-- The tile has both times, and no tile below it has. -/
structure SmallestTile (times : Range ℚ) (ti : TileIndex) : Prop where
  min : containsTime ti times.min
  max : containsTime ti times.max
  least : ∀ d, isAncestorOf exactShift ti d → ¬ (containsTime d times.min ∧ containsTime d times.max)

def ReturnsIndex (times : Range ℚ) (ti : TileIndex) : Prop :=
  ∀ ε : Type, Outcome.Reaches (fun fuel => (indexContaining fuel times : Outcome ε TileIndex)) ti

theorem smallestTile_of_cell {a b : ℚ} {ti : TileIndex} (h : Cell.Smallest ti a b)
    (low : intMin < ti.level) (high : ti.level < intMax) : SmallestTile ⟨a, b⟩ ti := by
  have plain := containsTime_iff (not_isNull_of_level low) high
  refine ⟨(plain a).mpr h.left, (plain b).mpr h.right, ?_⟩
  intro d above both
  have below := ((isAncestorOf_exact ti d).mp above).1
  by_cases null : isNull d
  · have hasA := both.1
    rw [containsTime, startTime, endTime, if_pos null, if_pos null] at hasA
    exact absurd (hasA.1.trans_lt hasA.2) (not_lt.mpr (by linarith [doubleMax_pos]))
  · have has := containsTime_iff null (below.trans high)
    exact absurd (h.least d ((has a).mp both.1) ((has b).mp both.2)) (not_le.mpr below)

theorem indexContaining_reaches {a b : ℚ} (ha : IsDouble a) (hb : IsDouble b) (lt : a < b)
    (side : 0 ≤ a ∨ b < 0) :
    ∃ r, ReturnsIndex ⟨a, b⟩ r ∧ Cell.Smallest r a b ∧ r.level ≤ topLevel ∧ -1074 < r.level := by
  obtain ⟨r, done⟩ := indexContaining_done (ε := Empty) ha hb side lt
  obtain ⟨-, least, levels⟩ := indexContaining_ret ha hb side (done 2099 le_rfl)
  refine ⟨r, fun ε => ?_, least, levels⟩
  obtain ⟨r', done'⟩ := indexContaining_done (ε := ε) ha hb side lt
  have same := (indexContaining_ret ha hb side (done' 2099 le_rfl)).2.1.unique least
  exact ⟨2099, same ▸ done'⟩

/-- `index_containing` returns the smallest tile around both times, and for a wider range of that kind the
same tile or one above it. -/
theorem index_containing_smallest {a b : ℚ} (ha : IsDouble a) (hb : IsDouble b) (lt : a < b)
    (side : 0 ≤ a ∨ b < 0) :
    ∃ r, ReturnsIndex ⟨a, b⟩ r ∧ SmallestTile ⟨a, b⟩ r ∧
      ∀ a' b' : ℚ, IsDouble a' → IsDouble b' → a' ≤ a → b ≤ b' → (0 ≤ a' ∨ b' < 0) →
        ∃ r', ReturnsIndex ⟨a', b'⟩ r' ∧ (r' = r ∨ isAncestorOf exactShift r' r) := by
  obtain ⟨r, returned, least, high, low⟩ := indexContaining_reaches ha hb lt side
  have range : intMin < r.level ∧ r.level < intMax := by
    simp only [topLevel, intMin, intMax] at high ⊢
    omega
  refine ⟨r, returned, smallestTile_of_cell least range.1 range.2, ?_⟩
  intro a' b' ha' hb' left right side'
  obtain ⟨r', returned', least', -⟩ :=
    indexContaining_reaches ha' hb' (left.trans_lt (lt.trans_le right)) side'
  refine ⟨r', returned', ?_⟩
  have under : r.Under r' := least.mono least' left lt.le right
  by_cases same : r = r'
  · exact .inl same.symm
  · exact .inr ((isAncestorOf_exact r' r).mpr ⟨under.level_lt same, under⟩)

/-- Two times around a power of two. -/
theorem index_containing_smallest_one :
    ∃ r, ReturnsIndex ⟨1, 2⟩ r ∧ SmallestTile ⟨1, 2⟩ r ∧
      ∀ a' b' : ℚ, IsDouble a' → IsDouble b' → a' ≤ 1 → 2 ≤ b' → (0 ≤ a' ∨ b' < 0) →
        ∃ r', ReturnsIndex ⟨a', b'⟩ r' ∧ (r' = r ∨ isAncestorOf exactShift r' r) :=
  index_containing_smallest (by exact_mod_cast IsDouble.of_nat (n := 1) (by norm_num))
    (by exact_mod_cast IsDouble.of_nat (n := 2) (by norm_num)) (by norm_num) (.inl (by norm_num))

end TileIndex
end Mio.Datastore
