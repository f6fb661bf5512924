import Mathlib.Algebra.BigOperators.Group.List.Basic
import Mathlib.Algebra.Order.Floor.Ring
import Mathlib.Algebra.Order.Floor.Semifield
import Mathlib.Algebra.Order.Archimedean.Basic
import Mathlib.Data.Int.Log
import Mathlib.Data.Rat.Floor
import Mathlib.Tactic.Linarith
import Mathlib.Tactic.Ring
import Mathlib.Tactic.FieldSimp
import Mathlib.Tactic.Positivity

/-! Dyadic intervals of the line and their binary hierarchy. -/
namespace Mio

/-- The interval `[offset * 2 ^ level, (offset + 1) * 2 ^ level)`. -/
structure Cell where
  level : ℤ
  offset : ℤ
  deriving DecidableEq, Repr

namespace Cell

def width (c : Cell) : ℚ := 2 ^ c.level

def start (c : Cell) : ℚ := c.width * c.offset

def stop (c : Cell) : ℚ := c.width * (c.offset + 1)

def Has (c : Cell) (t : ℚ) : Prop := c.start ≤ t ∧ t < c.stop

instance (c : Cell) (t : ℚ) : Decidable (c.Has t) := inferInstanceAs (Decidable (_ ∧ _))

def up (c : Cell) : Cell := ⟨c.level + 1, c.offset / 2⟩

def lo (c : Cell) : Cell := ⟨c.level - 1, c.offset * 2⟩

def hi (c : Cell) : Cell := ⟨c.level - 1, c.offset * 2 + 1⟩

def twin (c : Cell) : Cell := ⟨c.level, if c.offset % 2 = 0 then c.offset + 1 else c.offset - 1⟩

theorem width_pos (c : Cell) : 0 < c.width := zpow_pos (by norm_num) _

theorem width_up (c : Cell) : c.up.width = 2 * c.width := by
  simp only [width, up]
  rw [zpow_add_one₀ (by norm_num : (2 : ℚ) ≠ 0), mul_comm]

@[simp] theorem up_lo (c : Cell) : c.lo.up = c := by
  cases c
  simp only [up, lo, sub_add_cancel, mk.injEq, true_and]
  omega

@[simp] theorem up_hi (c : Cell) : c.hi.up = c := by
  cases c
  simp only [up, hi, sub_add_cancel, mk.injEq, true_and]
  omega

theorem width_lo (c : Cell) : c.width = 2 * c.lo.width := by
  rw [← width_up, up_lo]

theorem width_hi (c : Cell) : c.width = 2 * c.hi.width := by
  rw [← width_up, up_hi]

theorem eq_lo_or_hi {c d : Cell} (h : d.up = c) : d = c.lo ∨ d = c.hi := by
  subst h
  rcases d with ⟨l, o⟩
  simp only [lo, hi, up, mk.injEq, add_sub_cancel_right, true_and]
  omega

theorem lo_up {c : Cell} (even : c.offset % 2 = 0) : c.up.lo = c := by
  rcases c with ⟨l, o⟩
  simp only [up, lo, add_sub_cancel_right, mk.injEq, true_and]
  exact Int.ediv_mul_cancel (Int.dvd_of_emod_eq_zero even)

theorem hi_up {c : Cell} (odd : c.offset % 2 ≠ 0) : c.up.hi = c := by
  rcases c with ⟨l, o⟩
  simp only [up, hi, add_sub_cancel_right, mk.injEq, true_and]
  dsimp only at odd
  omega

theorem twin_lo (c : Cell) : c.lo.twin = c.hi := by
  simp [twin, lo, hi]

theorem twin_hi (c : Cell) : c.hi.twin = c.lo := by
  simp [twin, lo, hi]

theorem twin_ne (c : Cell) : c.twin ≠ c := by
  rcases c with ⟨l, o⟩
  simp only [twin, ne_eq, mk.injEq, true_and]
  split <;> omega

theorem lo_ne_hi (c : Cell) : c.lo ≠ c.hi := by
  simp [lo, hi]

theorem lo_start (c : Cell) : c.lo.start = c.start := by
  have w := c.width_lo
  simp only [start]
  rw [w]
  simp only [lo, Int.cast_mul, Int.cast_ofNat]
  ring

theorem hi_stop (c : Cell) : c.hi.stop = c.stop := by
  have w := c.width_hi
  simp only [stop]
  rw [w]
  simp only [hi, Int.cast_add, Int.cast_mul, Int.cast_ofNat, Int.cast_one]
  ring

theorem lo_stop (c : Cell) : c.lo.stop = c.hi.start := by
  simp only [start, stop, width, lo, hi, Int.cast_add, Int.cast_mul, Int.cast_ofNat, Int.cast_one]

theorem twin_start {c : Cell} (even : c.offset % 2 = 0) : c.twin.start = c.stop := by
  rw [← lo_up even, twin_lo, lo_stop]

theorem start_lt_stop (c : Cell) : c.start < c.stop := by
  have := c.width_pos
  simp only [start, stop]
  linarith

theorem stop_sub_start (c : Cell) : c.stop - c.start = c.width := by
  simp only [start, stop]
  ring

theorem start_lt_mid (c : Cell) : c.start < c.hi.start := by
  rw [← lo_stop, ← lo_start]
  exact c.lo.start_lt_stop

theorem mid_lt_stop (c : Cell) : c.hi.start < c.stop := by
  rw [← hi_stop]
  exact c.hi.start_lt_stop

theorem has_lo {c : Cell} {t : ℚ} (h : c.Has t) (lt : t < c.hi.start) : c.lo.Has t :=
  ⟨by rw [lo_start]; exact h.1, by rw [lo_stop]; exact lt⟩

theorem has_hi {c : Cell} {t : ℚ} (h : c.Has t) (le : c.hi.start ≤ t) : c.hi.Has t :=
  ⟨le, by rw [hi_stop]; exact h.2⟩

theorem has_of_lo {c : Cell} {t : ℚ} (h : c.lo.Has t) : c.Has t := by
  have := c.mid_lt_stop
  exact ⟨by rw [← lo_start]; exact h.1, by rw [← lo_stop] at this; linarith [h.2]⟩

theorem has_of_hi {c : Cell} {t : ℚ} (h : c.hi.Has t) : c.Has t := by
  have := c.start_lt_mid
  exact ⟨by linarith [h.1], by rw [← hi_stop]; exact h.2⟩

theorem up_start_le (c : Cell) : c.up.start ≤ c.start := by
  rcases eq_lo_or_hi (rfl : c.up = c.up) with h | h
  · rw [← lo_start c.up, ← h]
  · exact le_of_lt (lt_of_lt_of_eq c.up.start_lt_mid (by rw [← h]))

theorem stop_le_up (c : Cell) : c.stop ≤ c.up.stop := by
  rcases eq_lo_or_hi (rfl : c.up = c.up) with h | h
  · have := c.up.mid_lt_stop
    rw [← lo_stop, ← h] at this
    exact this.le
  · rw [← hi_stop c.up, ← h]

/-- The cell of a level around a point. -/
def around (level : ℤ) (t : ℚ) : Cell := ⟨level, ⌊t / 2 ^ level⌋⟩

theorem has_iff {c : Cell} {t : ℚ} : c.Has t ↔ c = around c.level t := by
  have w : (0 : ℚ) < 2 ^ c.level := c.width_pos
  have floor : c.Has t ↔ ⌊t / 2 ^ c.level⌋ = c.offset := by
    rw [Int.floor_eq_iff, le_div_iff₀ w, div_lt_iff₀ w]
    simp only [Has, start, stop, width, mul_comm]
  rw [floor]
  cases c
  simp [around, eq_comm]

theorem around_has (level : ℤ) (t : ℚ) : (around level t).Has t := has_iff.mpr rfl

theorem has_up {c : Cell} {t : ℚ} (h : c.Has t) : c.up.Has t :=
  ⟨c.up_start_le.trans h.1, h.2.trans_le c.stop_le_up⟩

theorem around_up (level : ℤ) (t : ℚ) : (around level t).up = around (level + 1) t :=
  has_iff.mp (has_up (around_has level t))

theorem first_has {level : ℤ} {t : ℚ} : Has ⟨level, 0⟩ t ↔ 0 ≤ t ∧ t < 2 ^ level := by
  simp [Has, start, stop, width]

theorem first_has_zero (level : ℤ) : Has ⟨level, 0⟩ 0 :=
  first_has.mpr ⟨le_rfl, zpow_pos (by norm_num) _⟩

/-- `j` is `c` or lies below it. -/
def Under (j c : Cell) : Prop := ∃ k : ℕ, up^[k] j = c

theorem iter_up_level (k : ℕ) (j : Cell) : (up^[k] j).level = j.level + k := by
  induction k generalizing j with
  | zero => simp
  | succ k ih =>
      rw [Function.iterate_succ_apply, ih]
      simp only [up, Nat.cast_add, Nat.cast_one]
      ring

theorem Under.refl (c : Cell) : Under c c := ⟨0, rfl⟩

theorem Under.up (c : Cell) : Under c c.up := ⟨1, rfl⟩

theorem Under.trans {a b c : Cell} (h : Under a b) (g : Under b c) : Under a c := by
  obtain ⟨m, rfl⟩ := h
  obtain ⟨n, rfl⟩ := g
  exact ⟨n + m, by rw [Function.iterate_add_apply]⟩

theorem Under.lo (c : Cell) : Under c.lo c := ⟨1, c.up_lo⟩

theorem Under.hi (c : Cell) : Under c.hi c := ⟨1, c.up_hi⟩

theorem Under.level_le {j c : Cell} (h : Under j c) : j.level ≤ c.level := by
  obtain ⟨k, rfl⟩ := h
  rw [iter_up_level]
  omega

theorem Under.eq_of_level {j c : Cell} (h : Under j c) (le : c.level ≤ j.level) : j = c := by
  obtain ⟨k, rfl⟩ := h
  rw [iter_up_level] at le
  obtain rfl : k = 0 := by omega
  rfl

theorem Under.level_lt {j c : Cell} (h : Under j c) (ne : j ≠ c) : j.level < c.level :=
  lt_of_not_ge fun le => ne (h.eq_of_level le)

theorem Under.antisymm {j c : Cell} (h : Under j c) (g : Under c j) : j = c :=
  h.eq_of_level g.level_le

theorem Under.up_of_ne {j c : Cell} (h : Under j c) (ne : j ≠ c) : Under j.up c := by
  obtain ⟨k, rfl⟩ := h
  cases k with
  | zero => exact (ne rfl).elim
  | succ k => exact ⟨k, rfl⟩

theorem Under.up_up {i c : Cell} (h : Under i c) : Under i.up c.up := by
  obtain ⟨k, rfl⟩ := h
  exact ⟨k, by rw [← Function.iterate_succ_apply, Function.iterate_succ_apply']⟩

theorem Under.of_levels {j a b : Cell} (ha : Under j a) (hb : Under j b)
    (le : a.level ≤ b.level) : Under a b := by
  obtain ⟨m, rfl⟩ := ha
  obtain ⟨n, rfl⟩ := hb
  rw [iter_up_level, iter_up_level] at le
  refine ⟨n - m, ?_⟩
  rw [← Function.iterate_add_apply]
  congr 1
  omega

theorem Under.cases {j c : Cell} (h : Under j c) : j = c ∨ Under j c.lo ∨ Under j c.hi := by
  obtain ⟨k, rfl⟩ := h
  cases k with
  | zero => exact .inl rfl
  | succ k =>
      right
      rw [Function.iterate_succ_apply']
      exact (eq_lo_or_hi rfl).imp (⟨k, ·⟩) (⟨k, ·⟩)

theorem not_under_lo_hi {j c : Cell} (h : Under j c.lo) : ¬ Under j c.hi := by
  intro g
  exact c.lo_ne_hi ((h.of_levels g le_rfl).eq_of_level le_rfl)

theorem not_under_lo_self (c : Cell) : ¬ Under c c.lo := by
  intro h
  have := h.level_le
  simp [Cell.lo] at this

theorem not_under_hi_self (c : Cell) : ¬ Under c c.hi := by
  intro h
  have := h.level_le
  simp [Cell.hi] at this

theorem lo_ne (c : Cell) : c.lo ≠ c := by
  intro same
  exact c.not_under_lo_self (by rw [same]; exact .refl c)

theorem hi_ne (c : Cell) : c.hi ≠ c := by
  intro same
  exact c.not_under_hi_self (by rw [same]; exact .refl c)

/-- Nothing over the twin of a cell lies below that cell. -/
theorem not_twin_under {j c : Cell} (h : Under j c) : ¬ Under c.twin j := by
  intro g
  exact c.twin_ne ((g.trans h).eq_of_level le_rfl)

theorem Under.start_le {j c : Cell} (h : Under j c) : c.start ≤ j.start := by
  obtain ⟨k, rfl⟩ := h
  induction k with
  | zero => exact le_rfl
  | succ k ih =>
      rw [Function.iterate_succ_apply']
      exact (up_start_le _).trans ih

theorem Under.stop_le {j c : Cell} (h : Under j c) : j.stop ≤ c.stop := by
  obtain ⟨k, rfl⟩ := h
  induction k with
  | zero => exact le_rfl
  | succ k ih =>
      rw [Function.iterate_succ_apply']
      exact ih.trans (stop_le_up _)

theorem Under.has {j c : Cell} {t : ℚ} (h : Under j c) (ht : j.Has t) : c.Has t :=
  ⟨h.start_le.trans ht.1, ht.2.trans_le h.stop_le⟩

theorem around_iter (k : ℕ) (level : ℤ) (t : ℚ) :
    up^[k] (around level t) = around (level + k) t := by
  induction k generalizing level with
  | zero => simp
  | succ k ih =>
      rw [Function.iterate_succ_apply, around_up, ih]
      congr 1
      push_cast
      ring

theorem under_of_has {a b : Cell} {t : ℚ} (ha : a.Has t) (hb : b.Has t)
    (le : a.level ≤ b.level) : Under a b := by
  rw [has_iff] at ha hb
  refine ⟨(b.level - a.level).toNat, ?_⟩
  rw [ha, hb, around_iter]
  congr 1
  simp only [around]
  omega

theorem eq_of_has {a b : Cell} {t : ℚ} (ha : a.Has t) (hb : b.Has t)
    (le : a.level = b.level) : a = b :=
  (under_of_has ha hb le.le).eq_of_level le.ge

/-- Descent by one shift of the offset, the decidable form of `Under`. -/
theorem under_iff {j c : Cell} :
    Under j c ↔ j.level ≤ c.level ∧ j.offset / 2 ^ (c.level - j.level).toNat = c.offset := by
  have iter : ∀ (k : ℕ) (i : Cell), (up^[k] i).offset = i.offset / 2 ^ k := by
    intro k
    induction k with
    | zero => simp
    | succ k ih =>
        intro i
        rw [Function.iterate_succ_apply, ih, pow_succ', ← Int.ediv_ediv_of_nonneg (by norm_num)]
        rfl
  constructor
  · rintro ⟨k, rfl⟩
    rw [iter_up_level, iter]
    refine ⟨by omega, ?_⟩
    congr 2
    omega
  · rintro ⟨le, eq⟩
    refine ⟨(c.level - j.level).toNat, ?_⟩
    have level := iter_up_level (c.level - j.level).toNat j
    have offset := iter (c.level - j.level).toNat j
    rw [eq] at offset
    have : (up^[(c.level - j.level).toNat] j).level = c.level := by omega
    cases c
    cases h : up^[_] j
    simp_all

instance (j c : Cell) : Decidable (Under j c) := decidable_of_iff _ under_iff.symm

def below : ℕ → Cell → List Cell
  | 0, c => [c]
  | n + 1, c => below n c.lo ++ below n c.hi

theorem mem_below {n : ℕ} {c d : Cell} : d ∈ below n c ↔ up^[n] d = c := by
  induction n generalizing c with
  | zero => exact List.mem_singleton
  | succ n ih =>
      rw [below, List.mem_append, ih, ih, Function.iterate_succ_apply']
      constructor
      · intro half
        cases half with
        | inl lo => rw [lo, up_lo]
        | inr hi => rw [hi, up_hi]
      · exact eq_lo_or_hi

theorem below_length (n : ℕ) (c : Cell) : (below n c).length = 2 ^ n := by
  induction n generalizing c with
  | zero => rfl
  | succ n ih =>
      rw [below, List.length_append, ih, ih, pow_succ]
      omega

theorem below_nodup (n : ℕ) (c : Cell) : (below n c).Nodup := by
  induction n generalizing c with
  | zero => exact List.nodup_singleton c
  | succ n ih =>
      apply List.Nodup.append (ih c.lo) (ih c.hi)
      intro d lo hi
      exact c.lo_ne_hi ((mem_below.mp lo).symm.trans (mem_below.mp hi))

theorem has_iff_lo_or_hi {c : Cell} {t : ℚ} : c.Has t ↔ c.lo.Has t ∨ c.hi.Has t := by
  constructor
  · intro has
    cases lt_or_ge t c.hi.start with
    | inl lt => exact .inl (has_lo has lt)
    | inr ge => exact .inr (has_hi has ge)
  · exact fun half => half.elim has_of_lo has_of_hi

theorem not_has_lo_hi {c : Cell} {t : ℚ} (lo : c.lo.Has t) : ¬ c.hi.Has t := by
  intro hi
  have stop := lo.2
  rw [lo_stop] at stop
  exact absurd hi.1 (not_le.mpr stop)

section
variable {α M : Type} [AddCommMonoid M] (time : α → ℚ) (f : α → M)

theorem sum_halves (c : Cell) (l : List α) :
    ((l.filter fun a => c.lo.Has (time a)).map f).sum + ((l.filter fun a => c.hi.Has (time a)).map f).sum =
      ((l.filter fun a => c.Has (time a)).map f).sum := by
  induction l with
  | nil => exact add_zero 0
  | cons a l ih =>
      by_cases lo : c.lo.Has (time a)
      · simp only [List.filter_cons, lo, not_has_lo_hi lo, has_of_lo lo, decide_true, decide_false,
          if_true, Bool.false_eq_true, if_false, List.map_cons, List.sum_cons]
        rw [add_assoc, ih]
      · by_cases hi : c.hi.Has (time a)
        · simp only [List.filter_cons, lo, hi, has_of_hi hi, decide_true, decide_false,
            if_true, Bool.false_eq_true, if_false, List.map_cons, List.sum_cons]
          rw [add_left_comm, ih]
        · have out : ¬ c.Has (time a) := fun has => (has_iff_lo_or_hi.mp has).elim lo hi
          simp only [List.filter_cons, lo, hi, out, decide_false, Bool.false_eq_true, if_false]
          exact ih

/-- The cells below partition a cell, so that sums over them add up. -/
theorem sum_below (n : ℕ) (c : Cell) (l : List α) :
    ((below n c).map fun d => ((l.filter fun a => d.Has (time a)).map f).sum).sum =
      ((l.filter fun a => c.Has (time a)).map f).sum := by
  induction n generalizing c with
  | zero => exact add_zero _
  | succ n ih =>
      rw [below, List.map_append, List.sum_append, ih, ih]
      exact sum_halves time f c l

end

/-- `c` holds both points and nothing lower does. -/
structure Smallest (c : Cell) (a b : ℚ) : Prop where
  left : c.Has a
  right : c.Has b
  least : ∀ d : Cell, d.Has a → d.Has b → c.level ≤ d.level

theorem Smallest.unique {c d : Cell} {a b : ℚ} (h : Smallest c a b) (g : Smallest d a b) :
    c = d :=
  eq_of_has h.left g.left (le_antisymm (h.least d g.left g.right) (g.least c h.left h.right))

theorem Has.abs_sub_lt {c : Cell} {a b : ℚ} (ha : c.Has a) (hb : c.Has b) : b - a < c.width := by
  have := c.stop_sub_start
  linarith [ha.1, hb.2]

/-- Climbing from a level no higher than the gap reaches the smallest cell. -/
theorem smallest_of_climb {level : ℤ} {a b : ℚ} {k : ℕ} (gap : (2 : ℚ) ^ level ≤ b - a)
    (has : (up^[k] (around level a)).Has b) (first : ∀ i < k, ¬ (up^[i] (around level a)).Has b) :
    Smallest (up^[k] (around level a)) a b := by
  rw [around_iter] at has ⊢
  refine ⟨around_has _ _, has, ?_⟩
  intro d da db
  by_contra low
  have wide : (2 : ℚ) ^ level < 2 ^ d.level := gap.trans_lt (da.abs_sub_lt db)
  have above : level < d.level := (zpow_lt_zpow_iff_right₀ (by norm_num : (1 : ℚ) < 2)).mp wide
  simp only [around] at low
  have hd := has_iff.mp da
  refine first (d.level - level).toNat (by omega) ?_
  rw [around_iter]
  have same : level + ((d.level - level).toNat : ℤ) = d.level := by omega
  rw [same, ← hd]
  exact db

theorem Smallest.mono {c d : Cell} {a b a' b' : ℚ} (h : Smallest c a b) (g : Smallest d a' b')
    (ha : a' ≤ a) (hab : a ≤ b) (hb : b ≤ b') : Under c d := by
  have da : d.Has a := ⟨g.left.1.trans ha, (hab.trans hb).trans_lt g.right.2⟩
  have db : d.Has b := ⟨g.left.1.trans (ha.trans hab), hb.trans_lt g.right.2⟩
  exact under_of_has h.left da (h.least d da db)

end Cell
end Mio
