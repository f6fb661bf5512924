import Mathlib.Data.Rat.Floor
import Mathlib.Algebra.Order.Floor.Ring
import Mathlib.Logic.Function.Basic
import Mathlib.Tactic.Linarith
import Mio.Lib.Outcome

/-! Samples, their ranges and their accumulators. The records are generic in the type `D` of a
`double` and the type `F` of a `float`: exact rationals in the channel, machine words in the
binary format. -/
namespace Mio.Datastore

/-- A `std::string`: any bytes, NULs included. -/
abbrev Text := List UInt8

def doubleMax : ℚ := (2 ^ 53 - 1) * 2 ^ 971

/-- The rationals that are finite doubles. -/
def IsDouble (q : ℚ) : Prop :=
  ∃ m e : ℤ, |m| < 2 ^ 53 ∧ -1074 ≤ e ∧ e ≤ 971 ∧ q = m * 2 ^ e

structure DataSample (D F V : Type) where
  time : D
  value : V
  weight : F
  stddev : F
  deriving DecidableEq, Repr

structure Range (D : Type) where
  min : D
  max : D
  deriving DecidableEq, Repr

structure DataRanges (D : Type) where
  times : Range D
  doubleSamples : Range D
  deriving DecidableEq, Repr

namespace Range

def clear : Range ℚ := ⟨doubleMax, -doubleMax⟩

def empty (r : Range ℚ) : Prop := r.max < r.min

instance (r : Range ℚ) : Decidable r.empty := inferInstanceAs (Decidable (_ < _))

def addPoint (r : Range ℚ) (x : ℚ) : Range ℚ := ⟨Min.min r.min x, Max.max r.max x⟩

def add (r x : Range ℚ) : Range ℚ := ⟨Min.min r.min x.min, Max.max r.max x.max⟩

def intersects (r a : Range ℚ) : Bool :=
  if r.empty then false
  else if a.empty then false
  else if a.max < r.min then false
  else if r.max < a.min then false
  else true

end Range

namespace DataRanges

def clear : DataRanges ℚ := ⟨.clear, .clear⟩

def add (r x : DataRanges ℚ) : DataRanges ℚ :=
  ⟨r.times.add x.times, r.doubleSamples.add x.doubleSamples⟩

end DataRanges

/-- A sample in exact arithmetic. Its `stddev` is carried as its square, which is what
`sqrt` on the way out and the square on the way in leave of it. -/
abbrev Sample (V : Type) := DataSample ℚ ℚ V

structure DataAccumulator (V : Type) where
  timesum : ℚ
  sum : V
  sumsq : V
  weight : ℚ

/-- The overloads on the value type: a zero value, `plus_equals` and `get`. -/
class SampleValue (V : Type) where
  zero : V
  plusEquals : DataAccumulator V → Sample V → DataAccumulator V
  get : DataAccumulator V → Sample V

def DataAccumulator.zero (V : Type) [SampleValue V] : DataAccumulator V :=
  ⟨0, SampleValue.zero, SampleValue.zero, 0⟩

instance : SampleValue ℚ where
  zero := 0
  plusEquals lhs rhs :=
    if rhs.weight = 0 then lhs
    else
      { timesum := lhs.timesum + rhs.time * rhs.weight
        sum := lhs.sum + rhs.value * rhs.weight
        sumsq := lhs.sumsq + rhs.weight * (rhs.stddev + rhs.value * rhs.value)
        weight := lhs.weight + rhs.weight }
  get a :=
    let mean := a.sum / a.weight
    let variance := a.sumsq / a.weight - mean * mean
    ⟨a.timesum / a.weight, mean, a.weight, variance⟩

def multiple : Text := [60, 109, 117, 108, 116, 105, 112, 108, 101, 62]

instance : SampleValue Text where
  zero := []
  plusEquals lhs rhs :=
    { timesum := lhs.timesum + rhs.time * rhs.weight
      sum := if lhs.weight = 0 then rhs.value
        else if lhs.sum ≠ rhs.value then multiple
        else lhs.sum
      sumsq := lhs.sumsq
      weight := lhs.weight + rhs.weight }
  get a := ⟨a.timesum / a.weight, a.sum, a.weight, 0⟩

/-- What both instances share: weights and weighted times add up, and a sample is read back at the
weighted mean of the times. -/
class LawfulSampleValue (V : Type) [SampleValue V] : Prop where
  timesum_plusEquals : ∀ (a : DataAccumulator V) (s : Sample V),
    (SampleValue.plusEquals a s).timesum = a.timesum + s.time * s.weight
  weight_plusEquals : ∀ (a : DataAccumulator V) (s : Sample V),
    (SampleValue.plusEquals a s).weight = a.weight + s.weight
  time_get : ∀ a : DataAccumulator V, (SampleValue.get a).time = a.timesum / a.weight
  weight_get : ∀ a : DataAccumulator V, (SampleValue.get a).weight = a.weight

export LawfulSampleValue (timesum_plusEquals weight_plusEquals time_get weight_get)

instance : LawfulSampleValue ℚ where
  timesum_plusEquals a s := by
    simp only [SampleValue.plusEquals]
    split
    · next h => simp [h]
    · rfl
  weight_plusEquals a s := by
    simp only [SampleValue.plusEquals]
    split
    · next h => simp [h]
    · rfl
  time_get _ := rfl
  weight_get _ := rfl

instance : LawfulSampleValue Text where
  timesum_plusEquals _ _ := rfl
  weight_plusEquals _ _ := rfl
  time_get _ := rfl
  weight_get _ := rfl

theorem doubleMax_pos : 0 < doubleMax := by
  norm_num [doubleMax]

theorem nat_lt_doubleMax {n : ℕ} (h : n < 2 ^ 53 - 1) : (n : ℚ) < doubleMax := by
  have small : (n : ℚ) < 2 ^ 53 - 1 := by exact_mod_cast (by omega : (n : ℤ) < 2 ^ 53 - 1)
  have wide : (1 : ℚ) ≤ 2 ^ 971 := one_le_pow₀ (by norm_num)
  exact small.trans_le (le_mul_of_one_le_right (by norm_num) wide)

theorem IsDouble.of_nat {n : ℕ} (h : n < 2 ^ 53) : IsDouble n := by
  refine ⟨n, 0, ?_, by norm_num, by norm_num, by simp⟩
  rw [Nat.abs_cast]
  exact_mod_cast h

theorem IsDouble.last : IsDouble doubleMax := by
  refine ⟨2 ^ 53 - 1, 971, by decide, by decide, by decide, ?_⟩
  norm_num [doubleMax]

theorem IsDouble.neg {q : ℚ} (h : IsDouble q) : IsDouble (-q) := by
  obtain ⟨m, e, small, low, high, rfl⟩ := h
  exact ⟨-m, e, by rwa [abs_neg], low, high, by push_cast; ring⟩

theorem IsDouble.grid {q : ℚ} (h : IsDouble q) : ∃ n : ℤ, q = n * 2 ^ (-1074 : ℤ) := by
  obtain ⟨m, e, -, low, -, rfl⟩ := h
  have shift : e = ((e + 1074).toNat : ℤ) + -1074 := by omega
  refine ⟨m * 2 ^ (e + 1074).toNat, ?_⟩
  conv_lhs => rw [shift, zpow_add₀ (by norm_num : (2 : ℚ) ≠ 0), zpow_natCast]
  rw [Int.cast_mul, Int.cast_pow, Int.cast_ofNat, mul_assoc]

theorem IsDouble.le_doubleMax {q : ℚ} (h : IsDouble q) : q ≤ doubleMax := by
  obtain ⟨m, e, bound, -, high, rfl⟩ := h
  have hm : (m : ℚ) ≤ 2 ^ 53 - 1 := by
    have : m ≤ 2 ^ 53 - 1 := by
      have := (abs_lt.mp bound).2
      omega
    exact_mod_cast this
  have he : (2 : ℚ) ^ e ≤ 2 ^ (971 : ℤ) := zpow_le_zpow_right₀ (by norm_num) high
  have pos : (0 : ℚ) < 2 ^ e := zpow_pos (by norm_num) _
  calc (m : ℚ) * 2 ^ e ≤ (2 ^ 53 - 1) * 2 ^ e := mul_le_mul_of_nonneg_right hm pos.le
    _ ≤ (2 ^ 53 - 1) * 2 ^ (971 : ℤ) := mul_le_mul_of_nonneg_left he (by norm_num)
    _ = doubleMax := by norm_num [doubleMax]

/-- Distinct finite doubles are at least one grid step apart. -/
theorem IsDouble.gap {a b : ℚ} (ha : IsDouble a) (hb : IsDouble b) (lt : a < b) :
    (2 : ℚ) ^ (-1074 : ℤ) ≤ b - a := by
  obtain ⟨m, rfl⟩ := ha.grid
  obtain ⟨n, rfl⟩ := hb.grid
  have pos : (0 : ℚ) < 2 ^ (-1074 : ℤ) := zpow_pos (by norm_num) _
  have : (m : ℚ) < n := lt_of_mul_lt_mul_right lt pos.le
  have step : (m : ℚ) + 1 ≤ n := by exact_mod_cast this
  rw [← sub_mul]
  exact le_mul_of_one_le_left pos.le (by linarith)

end Mio.Datastore
