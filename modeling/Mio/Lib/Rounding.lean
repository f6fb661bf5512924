import Mathlib.Data.Rat.Floor
import Mathlib.Tactic.Linarith

/-! Rounding to the nearest integer. -/
namespace Mio

/-- To the nearest integer, and to the even one of two. -/
def roundEven (q : ℚ) : ℤ :=
  if q - ⌊q⌋ < 1 / 2 then ⌊q⌋
  else if 1 / 2 < q - ⌊q⌋ then ⌊q⌋ + 1
  else if 2 ∣ ⌊q⌋ then ⌊q⌋ else ⌊q⌋ + 1

@[simp] theorem roundEven_intCast (n : ℤ) : roundEven n = n := by
  rw [roundEven, Int.floor_intCast, sub_self, if_pos (by norm_num)]

theorem roundEven_le {q : ℚ} {n : ℤ} (le : q ≤ n) : roundEven q ≤ n := by
  have floor : ⌊q⌋ ≤ n := Int.floor_le_iff.mpr (by linarith)
  unfold roundEven
  rcases floor.lt_or_eq with below | rfl
  · split
    · exact floor
    · split
      · exact below
      · split
        · exact floor
        · exact below
  · have same : q - ⌊q⌋ ≤ 0 := by linarith
    rw [if_pos (by linarith)]

theorem le_roundEven {q : ℚ} {n : ℤ} (le : n ≤ q) : n ≤ roundEven q := by
  have floor : n ≤ ⌊q⌋ := Int.le_floor.mpr le
  unfold roundEven
  split
  · exact floor
  · split
    · omega
    · split
      · exact floor
      · omega

/-- To an even integer from below. -/
theorem roundEven_eq_iff {q : ℚ} {n : ℤ} (even : 2 ∣ n) (below : q < n) :
    roundEven q = n ↔ n - 1 / 2 ≤ q := by
  have floor : ⌊q⌋ < n := Int.floor_lt.mpr below
  have fract := Int.lt_floor_add_one q
  constructor
  · intro eq
    by_contra far
    unfold roundEven at eq
    split at eq
    · omega
    · next half =>
        have last : ⌊q⌋ + 1 = n := by
          split at eq
          · exact eq
          · split at eq
            · omega
            · exact eq
        have cast : ((⌊q⌋ : ℤ) : ℚ) + 1 = n := by exact_mod_cast last
        apply far
        linarith
  · intro near
    have last : ⌊q⌋ + 1 = n := by
      refine le_antisymm floor (Int.lt_add_one_iff.mp ?_)
      have : (n : ℚ) < ⌊q⌋ + 1 + 1 := by linarith
      exact_mod_cast this
    have cast : ((⌊q⌋ : ℤ) : ℚ) + 1 = n := by exact_mod_cast last
    unfold roundEven
    rw [if_neg (by linarith)]
    split
    · exact last
    · rw [if_neg (by omega)]
      exact last

end Mio
