import Mathlib.Data.List.Basic
import Mathlib.Data.List.Induction
import Mathlib.Tactic.Ring

/-! Unwrapping of 32-bit tick counts in `Binrec.cpp`. -/
namespace Mio.Datastore

structure TickToTime where
  currentTick : BitVec 64

namespace TickToTime

def new : TickToTime := ⟨0#64⟩

def shortTicksToLongTicks (ttt : TickToTime) (shortTicks : BitVec 32) : BitVec 64 :=
  let ret := (ttt.currentTick &&& 0xffffffff00000000#64) ||| shortTicks.setWidth 64
  -- the sum is unsigned, and so is its division
  let err := ((ttt.currentTick - ret) + 0x80000000#64) / 0x100000000#64
  ret + err * 0x100000000#64

def receiveShortTicks (ttt : TickToTime) (shortTicks : BitVec 32) : TickToTime :=
  if ttt.currentTick = 0#64 then
    ⟨shortTicks.setWidth 64 + 0x100000000#64⟩
  else
    ⟨ttt.shortTicksToLongTicks shortTicks⟩

def receiveAll (ticks : List (BitVec 32)) : TickToTime :=
  ticks.foldl receiveShortTicks new

theorem receiveAll_concat (ticks : List (BitVec 32)) (t : BitVec 32) :
    receiveAll (ticks ++ [t]) = (receiveAll ticks).receiveShortTicks t :=
  List.foldl_concat ..

theorem highMask_bit : ∀ i < 64, (0xffffffff00000000#64).getLsbD i = decide (32 ≤ i) := by
  decide

theorem and_highMask_toNat (x : BitVec 64) :
    (x &&& 0xffffffff00000000#64).toNat = 2 ^ 32 * (x.toNat / 2 ^ 32) := by
  have shifted : x &&& 0xffffffff00000000#64 = x >>> 32 <<< 32 := by
    apply BitVec.eq_of_getLsbD_eq
    intro i hi
    rw [BitVec.getLsbD_and, highMask_bit i hi, BitVec.getLsbD_shiftLeft,
      BitVec.getLsbD_ushiftRight]
    by_cases low : i < 32
    · simp [low, hi]
    · have back : 32 + (i - 32) = i := by omega
      simp [low, hi, back]
      omega
  have small := x.isLt
  rw [shifted, BitVec.toNat_shiftLeft, BitVec.toNat_ushiftRight, Nat.shiftRight_eq_div_pow,
    Nat.shiftLeft_eq]
  omega

theorem or_short (x : BitVec 64) (t : BitVec 32) :
    (x &&& 0xffffffff00000000#64) ||| t.setWidth 64 =
      x - (x.setWidth 32).setWidth 64 + t.setWidth 64 := by
  apply BitVec.eq_of_toNat_eq
  have merged : ((x &&& 0xffffffff00000000#64) ||| t.setWidth 64).toNat =
      2 ^ 32 * (x.toNat / 2 ^ 32) + t.toNat := by
    rw [BitVec.toNat_or, and_highMask_toNat, BitVec.toNat_setWidth_of_le (by decide)]
    exact (Nat.two_pow_add_eq_or_of_lt t.isLt _).symm
  have boundT := t.isLt
  have boundX := x.isLt
  rw [merged, BitVec.toNat_add, BitVec.toNat_sub, BitVec.toNat_setWidth, BitVec.toNat_setWidth,
    BitVec.toNat_setWidth]
  omega

/-- The representative of a class modulo `2 ^ 32` in `(-2 ^ 31, 2 ^ 31]`. -/
def nearest (d : BitVec 32) : ℤ :=
  if d.toNat ≤ 2 ^ 31 then d.toNat else d.toNat - 2 ^ 32

theorem nearest_range (d : BitVec 32) : -2 ^ 31 < nearest d ∧ nearest d ≤ 2 ^ 31 := by
  have small := d.isLt
  unfold nearest
  split <;> omega

theorem nearest_class (d : BitVec 32) : BitVec.ofInt 32 (nearest d) = d := by
  apply BitVec.eq_of_toNat_eq
  have small := d.isLt
  rw [BitVec.toNat_ofInt]
  unfold nearest
  split <;> omega

theorem toInt_ofInt_nearest (d : BitVec 32) : (BitVec.ofInt 64 (nearest d)).toInt = nearest d := by
  have range := nearest_range d
  rw [BitVec.toInt_ofInt, Int.bmod_eq_of_le] <;> omega

/-- The truncating unsigned division rounds to the nearest representative. -/
theorem round_eq (t l : BitVec 32) :
    t.setWidth 64 - l.setWidth 64 +
        (l.setWidth 64 - t.setWidth 64 + 0x80000000#64) / 0x100000000#64 * 0x100000000#64 =
      BitVec.ofInt 64 (nearest (t - l)) := by
  apply BitVec.eq_of_toNat_eq
  have boundT := t.isLt
  have boundL := l.isLt
  have wideT : (t.setWidth 64).toNat = t.toNat := BitVec.toNat_setWidth_of_le (by decide)
  have wideL : (l.setWidth 64).toNat = l.toNat := BitVec.toNat_setWidth_of_le (by decide)
  rw [BitVec.toNat_ofInt, nearest, BitVec.toNat_add, BitVec.toNat_mul, BitVec.toNat_udiv,
    BitVec.toNat_add, BitVec.toNat_sub, BitVec.toNat_sub, BitVec.toNat_sub, BitVec.toNat_ofNat,
    BitVec.toNat_ofNat, wideT, wideL]
  clear wideT wideL
  generalize t.toNat = u at *
  generalize l.toNat = v at *
  simp only [Nat.reducePow, Nat.reduceMod]
  by_cases below : v + 2 ^ 31 < u
  · -- the numerator is negative, and its wrapped quotient is `-1` modulo `2 ^ 32`
    have wrapped : (18446744073709551616 - u + v) % 18446744073709551616 =
        18446744073709551616 - u + v := by omega
    have err : (18446744073709551616 - u + v + 2147483648) % 18446744073709551616 / 4294967296 =
        4294967295 := by omega
    rw [wrapped, err]
    split <;> omega
  · by_cases above : u + 2 ^ 31 ≤ v
    · have err : ((18446744073709551616 - u + v) % 18446744073709551616 + 2147483648) %
          18446744073709551616 / 4294967296 = 1 := by omega
      rw [err]
      split <;> omega
    · have err : ((18446744073709551616 - u + v) % 18446744073709551616 + 2147483648) %
          18446744073709551616 / 4294967296 = 0 := by omega
      rw [err]
      split <;> omega

theorem shortTicksToLongTicks_eq (ttt : TickToTime) (t : BitVec 32) :
    ttt.shortTicksToLongTicks t =
      ttt.currentTick + BitVec.ofInt 64 (nearest (t - ttt.currentTick.setWidth 32)) := by
  rw [← round_eq, shortTicksToLongTicks, or_short]
  generalize (ttt.currentTick.setWidth 32).setWidth 64 = l
  have cancel : ttt.currentTick - (ttt.currentTick - l + t.setWidth 64) = l - t.setWidth 64 := by
    grind
  simp only [cancel]
  grind

theorem setWidth_ofInt (i : ℤ) : (BitVec.ofInt 64 i).setWidth 32 = BitVec.ofInt 32 i := by
  apply BitVec.eq_of_toNat_eq
  rw [BitVec.toNat_setWidth, BitVec.toNat_ofInt, BitVec.toNat_ofInt]
  omega

theorem ofInt_eq_zero_iff (i : ℤ) : BitVec.ofInt 64 i = 0#64 ↔ (2 ^ 64 : ℤ) ∣ i := by
  rw [← BitVec.toNat_inj, BitVec.toNat_ofInt, BitVec.toNat_ofNat]
  omega

theorem receiveShortTicks_class (ttt : TickToTime) (t : BitVec 32) :
    (ttt.receiveShortTicks t).currentTick.setWidth 32 = t := by
  unfold receiveShortTicks
  split
  · apply BitVec.eq_of_toNat_eq
    have bound := t.isLt
    rw [BitVec.toNat_setWidth, BitVec.toNat_add, BitVec.toNat_setWidth, BitVec.toNat_ofNat]
    omega
  · change (ttt.shortTicksToLongTicks t).setWidth 32 = t
    rw [shortTicksToLongTicks_eq, BitVec.setWidth_add _ _ (by decide), setWidth_ofInt,
      nearest_class, BitVec.add_comm]
    exact BitVec.sub_add_cancel ..

/-- A signed 64-bit difference in `(-2 ^ 31, 2 ^ 31]`. -/
def WithinHalf (d : BitVec 64) : Prop := -2 ^ 31 < d.toInt ∧ d.toInt ≤ 2 ^ 31

/-- A step from any count but zero follows; one from zero starts anew. -/
theorem withinHalf_iff (ttt : TickToTime) (t : BitVec 32) :
    WithinHalf ((ttt.receiveShortTicks t).currentTick - ttt.currentTick) ↔
      ttt.currentTick ≠ 0#64 := by
  unfold receiveShortTicks
  split
  · next zero =>
      have bound := t.isLt
      have far : (t.setWidth 64 + 0x100000000#64).toInt = t.toNat + 2 ^ 32 := by
        have value : (t.setWidth 64 + 0x100000000#64).toNat = t.toNat + 2 ^ 32 := by
          rw [BitVec.toNat_add, BitVec.toNat_setWidth, BitVec.toNat_ofNat]
          omega
        rw [BitVec.toInt_eq_toNat_of_lt (by omega), value]
        rfl
      constructor
      · intro within
        unfold WithinHalf at within
        rw [zero, BitVec.sub_zero, far] at within
        omega
      · intro started
        exact absurd zero started
  · next started =>
      constructor
      · intro _
        exact started
      · intro _
        change WithinHalf (ttt.shortTicksToLongTicks t - ttt.currentTick)
        rw [shortTicksToLongTicks_eq, BitVec.add_comm, BitVec.add_sub_cancel, WithinHalf,
          toInt_ofInt_nearest]
        exact nearest_range _

/-- The count moved to the representative of a tick nearest to it. -/
def follow (count : ℤ) (t : BitVec 32) : ℤ := count + nearest (t - BitVec.ofInt 32 count)

theorem receiveShortTicks_follows {ttt : TickToTime} {count : ℤ}
    (tracks : ttt.currentTick = BitVec.ofInt 64 count) (started : ttt.currentTick ≠ 0#64)
    (t : BitVec 32) :
    (ttt.receiveShortTicks t).currentTick = BitVec.ofInt 64 (follow count t) := by
  rw [receiveShortTicks, if_neg started]
  change ttt.shortTicksToLongTicks t = _
  rw [shortTicksToLongTicks_eq, tracks, setWidth_ofInt, follow, BitVec.ofInt_add]

theorem eq_ofInt_toNat (x : BitVec 64) : x = BitVec.ofInt 64 x.toNat := by
  apply BitVec.eq_of_toNat_eq
  have small := x.isLt
  rw [BitVec.toNat_ofInt]
  omega

theorem receiveShortTicks_toNat (ttt : TickToTime) (t : BitVec 32) :
    ((ttt.receiveShortTicks t).currentTick.toNat : ℤ) =
      if ttt.currentTick = 0#64 then 2 ^ 32 + (t.toNat : ℤ)
      else follow ttt.currentTick.toNat t % 2 ^ 64 := by
  split
  · next zero =>
      have small := t.isLt
      rw [receiveShortTicks, if_pos zero, BitVec.toNat_add, BitVec.toNat_setWidth,
        BitVec.toNat_ofNat]
      omega
  · next begun =>
      rw [receiveShortTicks_follows (eq_ofInt_toNat _) begun, BitVec.toNat_ofInt]
      omega

/-- The ticks unwrapped from `2 ^ 32` on, without limit. -/
def unwrapped : List (BitVec 32) → ℤ
  | [] => 0
  | first :: ticks => ticks.foldl follow (2 ^ 32 + first.toNat)

theorem unwrapped_concat {ticks : List (BitVec 32)} (begun : ticks ≠ []) (t : BitVec 32) :
    unwrapped (ticks ++ [t]) = follow (unwrapped ticks) t := by
  cases ticks with
  | nil => exact absurd rfl begun
  | cons first ticks => exact List.foldl_concat ..

theorem receiveAll_single (t : BitVec 32) :
    (receiveAll [t]).currentTick = BitVec.ofInt 64 (unwrapped [t]) := by
  change t.setWidth 64 + 0x100000000#64 = BitVec.ofInt 64 (2 ^ 32 + t.toNat)
  apply BitVec.eq_of_toNat_eq
  have bound := t.isLt
  rw [BitVec.toNat_add, BitVec.toNat_setWidth, BitVec.toNat_ofNat, BitVec.toNat_ofInt]
  omega

/-- As long as no count that a step starts from is zero, in the code or without limit, the two
agree. -/
theorem receiveAll_eq {ticks : List (BitVec 32)} (begun : ticks ≠ [])
    (nonzero : ∀ earlier t, earlier ++ [t] <+: ticks → earlier ≠ [] →
      (receiveAll earlier).currentTick ≠ 0#64 ∨ ¬ (2 ^ 64 : ℤ) ∣ unwrapped earlier) :
    (receiveAll ticks).currentTick = BitVec.ofInt 64 (unwrapped ticks) := by
  induction ticks using List.reverseRecOn with
  | nil => exact absurd rfl begun
  | append_singleton earlier t ih =>
      by_cases first : earlier = []
      · subst first
        exact receiveAll_single t
      · have tracks := ih first fun before u shorter =>
          nonzero before u (shorter.trans (List.prefix_append ..))
        have started : (receiveAll earlier).currentTick ≠ 0#64 := by
          intro zero
          cases nonzero earlier t (List.prefix_refl _) first with
          | inl nonzero => exact nonzero zero
          | inr nonzero =>
              apply nonzero
              rw [← ofInt_eq_zero_iff, ← tracks]
              exact zero
        rw [receiveAll_concat, unwrapped_concat first]
        exact receiveShortTicks_follows tracks started t

/-- Every step takes the received class, and every step but the first the value of that class
nearest to the previous one. -/
def Unwraps (ticks : List (BitVec 32)) : Prop :=
  ∀ earlier t, earlier ++ [t] <+: ticks →
    (receiveAll (earlier ++ [t])).currentTick.setWidth 32 = t ∧
      (earlier ≠ [] →
        WithinHalf ((receiveAll (earlier ++ [t])).currentTick - (receiveAll earlier).currentTick))

theorem unwraps_iff_nonzero (ticks : List (BitVec 32)) :
    Unwraps ticks ↔
      ∀ earlier t, earlier ++ [t] <+: ticks → earlier ≠ [] →
        (receiveAll earlier).currentTick ≠ 0#64 := by
  constructor
  · intro unwraps earlier t shorter begun
    have within := (unwraps earlier t shorter).2 begun
    rw [receiveAll_concat] at within
    exact (withinHalf_iff _ t).mp within
  · intro nonzero earlier t shorter
    rw [receiveAll_concat]
    exact ⟨receiveShortTicks_class _ t,
      fun begun => (withinHalf_iff _ t).mpr (nonzero earlier t shorter begun)⟩

theorem unwraps_iff (ticks : List (BitVec 32)) :
    Unwraps ticks ↔
      ∀ earlier t, earlier ++ [t] <+: ticks → earlier ≠ [] →
        ¬ (2 ^ 64 : ℤ) ∣ unwrapped earlier := by
  rw [unwraps_iff_nonzero]
  constructor
  · intro nonzero earlier t shorter begun divides
    apply nonzero earlier t shorter begun
    rw [receiveAll_eq begun fun before u more first =>
      .inl (nonzero before u ((more.trans (List.prefix_append ..)).trans shorter) first)]
    exact (ofInt_eq_zero_iff _).mpr divides
  · intro indivisible earlier t shorter begun zero
    apply indivisible earlier t shorter begun
    rw [← ofInt_eq_zero_iff, ← receiveAll_eq begun fun before u more first =>
      .inr (indivisible before u ((more.trans (List.prefix_append ..)).trans shorter) first)]
    exact zero

/-- The count comes back to zero, and the next tick restarts it. -/
theorem restarts_at_zero : ¬ Unwraps [0#32, 0x80000001#32, 2#32, 0#32, 0#32] := by
  rw [unwraps_iff_nonzero]
  intro nonzero
  exact nonzero [0#32, 0x80000001#32, 2#32, 0#32] 0#32 (List.prefix_refl _) (by decide) (by decide)

end TickToTime
end Mio.Datastore
