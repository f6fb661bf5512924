import Mathlib.Algebra.BigOperators.Group.Finset.Basic
import Mathlib.Tactic.FieldSimp
import Mio.Datastore.Combine

/-! What averaging keeps: the weighted sums up to the second power of the value. -/
namespace Mio.Datastore

def moments (l : List (Sample ℚ)) : ℚ × ℚ × ℚ × ℚ :=
  (l.map fun s =>
    (s.weight, s.weight * s.time, s.weight * s.value, s.weight * (s.stddev + s.value * s.value))).sum

@[simp] theorem moments_nil : moments [] = 0 := rfl

theorem moments_cons (s : Sample ℚ) (l : List (Sample ℚ)) :
    moments (s :: l) = moments [s] + moments l := by
  simp [moments]

theorem moments_append (k l : List (Sample ℚ)) : moments (k ++ l) = moments k + moments l := by
  simp [moments]

theorem moments_single (s : Sample ℚ) : moments [s] =
    (s.weight, s.weight * s.time, s.weight * s.value, s.weight * (s.stddev + s.value * s.value)) := by
  simp [moments]

theorem timesum_le {l : List (Sample ℚ)} {m : ℚ} (below : ∀ s ∈ l, 0 < s.weight ∧ s.time < m) :
    (moments l).2.1 ≤ m * (moments l).1 := by
  induction l with
  | nil => simp
  | cons s l ih =>
      obtain ⟨⟨pos, lt⟩, rest⟩ := List.forall_mem_cons.mp below
      have first := mul_le_mul_of_nonneg_left lt.le pos.le
      have later := ih rest
      rw [moments_cons, moments_single, Prod.snd_add, Prod.fst_add, Prod.fst_add]
      linarith

theorem timesum_lt {l : List (Sample ℚ)} {m : ℚ} (below : ∀ s ∈ l, 0 < s.weight ∧ s.time < m)
    (some : l ≠ []) : (moments l).2.1 < m * (moments l).1 := by
  obtain ⟨s, l, rfl⟩ := List.exists_cons_of_ne_nil some
  obtain ⟨⟨pos, lt⟩, rest⟩ := List.forall_mem_cons.mp below
  have first := mul_lt_mul_of_pos_left lt pos
  have later := timesum_le rest
  rw [moments_cons, moments_single, Prod.snd_add, Prod.fst_add, Prod.fst_add]
  linarith

theorem weight_filter_le {l : List (Sample ℚ)} (weights : ∀ s ∈ l, 0 < s.weight) (p : Sample ℚ → Bool) :
    (moments (l.filter p)).1 ≤ (moments l).1 := by
  induction l with
  | nil => exact le_rfl
  | cons s l ih =>
      obtain ⟨pos, rest⟩ := List.forall_mem_cons.mp weights
      have later := ih rest
      rw [List.filter_cons]
      split
      · rw [moments_cons, moments_cons s l, Prod.fst_add, Prod.fst_add]
        exact add_le_add_right later _
      · rw [moments_cons s l, moments_single, Prod.fst_add]
        linarith

theorem all_of_weight {l : List (Sample ℚ)} {p : Sample ℚ → Bool} (weights : ∀ s ∈ l, 0 < s.weight)
    (same : (moments (l.filter p)).1 = (moments l).1) : ∀ s ∈ l, p s := by
  induction l with
  | nil => exact fun _ hs => (List.not_mem_nil hs).elim
  | cons s l ih =>
      obtain ⟨pos, rest⟩ := List.forall_mem_cons.mp weights
      have le := weight_filter_le rest p
      rw [List.filter_cons] at same
      split at same
      · next yes =>
          rw [moments_cons, moments_cons s l, Prod.fst_add, Prod.fst_add] at same
          exact List.forall_mem_cons.mpr ⟨yes, ih rest (add_left_cancel same)⟩
      · rw [moments_cons s l, moments_single, Prod.fst_add] at same
        dsimp only at same
        linarith

/-- A sample that can have been measured. -/
structure Measured (s : Sample ℚ) : Prop where
  weight : 0 < s.weight
  variance : 0 ≤ s.stddev

namespace DataAccumulator

def moments (a : DataAccumulator ℚ) : ℚ × ℚ × ℚ × ℚ := (a.weight, a.timesum, a.sum, a.sumsq)

theorem moments_zero : (DataAccumulator.zero ℚ).moments = 0 := rfl

theorem moments_plusEquals (a : DataAccumulator ℚ) (s : Sample ℚ) :
    (SampleValue.plusEquals a s).moments = a.moments + Datastore.moments [s] := by
  simp only [SampleValue.plusEquals]
  split
  · next none => simp [Datastore.moments, none]
  · simp [moments, Datastore.moments, mul_comm]

theorem moments_get {a : DataAccumulator ℚ} (some : 0 < a.weight) :
    Datastore.moments [SampleValue.get a] = a.moments := by
  have ne := some.ne'
  simp only [SampleValue.get, Datastore.moments, moments, List.map_cons, List.map_nil,
    List.sum_cons, List.sum_nil, add_zero, sub_add_cancel, Prod.mk.injEq, true_and]
  exact ⟨mul_div_cancel₀ _ ne, mul_div_cancel₀ _ ne, mul_div_cancel₀ _ ne⟩

/-- What a bin of samples with positive weights can hold. -/
structure Solid (a : DataAccumulator ℚ) : Prop where
  weight : 0 ≤ a.weight
  void : a.weight = 0 → a.moments = 0

theorem Solid.zero : Solid (DataAccumulator.zero ℚ) := ⟨le_refl 0, fun _ => rfl⟩

theorem Solid.plusEquals {a : DataAccumulator ℚ} {s : Sample ℚ} (h : Solid a) (pos : 0 < s.weight) :
    Solid (SampleValue.plusEquals a s) := by
  have some : 0 < (SampleValue.plusEquals a s).weight := by
    rw [weight_plusEquals]
    exact add_pos_of_nonneg_of_pos h.weight pos
  exact ⟨some.le, fun none => absurd none some.ne'⟩

/-- What a bin of measured samples can hold: the mean of squares is no less than the square of the
mean. -/
structure Spread (a : DataAccumulator ℚ) : Prop where
  weight : 0 ≤ a.weight
  sumsq : 0 ≤ a.sumsq
  cauchy : a.sum * a.sum ≤ a.weight * a.sumsq
  void : a.weight = 0 → a.moments = 0

theorem Spread.zero : Spread (DataAccumulator.zero ℚ) :=
  ⟨le_refl 0, le_refl 0, le_refl _, fun _ => rfl⟩

theorem Spread.plusEquals {a : DataAccumulator ℚ} {s : Sample ℚ} (h : Spread a) (m : Measured s) :
    Spread (SampleValue.plusEquals a s) := by
  have pos := m.weight
  have square := mul_self_nonneg s.value
  have added := mul_nonneg pos.le (add_nonneg m.variance square)
  simp only [SampleValue.plusEquals, if_neg pos.ne']
  refine ⟨add_nonneg h.weight pos.le, add_nonneg h.sumsq added, ?_, ?_⟩
  · -- the mixed terms are what Cauchy-Schwarz is about
    have mixed : 2 * (a.sum * s.value) ≤ a.weight * (s.value * s.value) + a.sumsq := by
      cases h.weight.eq_or_lt with
      | inl none =>
          have void := h.cauchy
          rw [← none, zero_mul] at void
          have sum : a.sum = 0 := mul_self_eq_zero.mp (le_antisymm void (mul_self_nonneg _))
          rw [sum, ← none, zero_mul, zero_mul, mul_zero, zero_add]
          exact h.sumsq
      | inr some =>
          have whole : 0 ≤ (a.weight * s.value - a.sum) * (a.weight * s.value - a.sum) :=
            mul_self_nonneg _
          have expand : (a.weight * s.value - a.sum) * (a.weight * s.value - a.sum) =
              a.weight * (a.weight * (s.value * s.value) - 2 * (a.sum * s.value)) +
                a.sum * a.sum := by ring
          have bound : 0 ≤ a.weight *
              (a.weight * (s.value * s.value) + a.sumsq - 2 * (a.sum * s.value)) := by
            have step := h.cauchy
            rw [expand] at whole
            linarith
          have fact := nonneg_of_mul_nonneg_right bound some
          linarith
    have mixed' := mul_le_mul_of_nonneg_left mixed pos.le
    have own : 0 ≤ s.weight * (s.weight * s.stddev) :=
      mul_nonneg pos.le (mul_nonneg pos.le m.variance)
    have cross : 0 ≤ a.weight * (s.weight * s.stddev) :=
      mul_nonneg h.weight (mul_nonneg pos.le m.variance)
    calc (a.sum + s.value * s.weight) * (a.sum + s.value * s.weight)
        = a.sum * a.sum + s.weight * (2 * (a.sum * s.value)) +
            s.weight * (s.weight * (s.value * s.value)) := by ring
      _ ≤ a.weight * a.sumsq + s.weight * (a.weight * (s.value * s.value) + a.sumsq) +
            s.weight * (s.weight * (s.value * s.value)) := by linarith [h.cauchy]
      _ ≤ a.weight * a.sumsq + s.weight * (a.weight * (s.value * s.value) + a.sumsq) +
            s.weight * (s.weight * (s.value * s.value)) +
            (s.weight * (s.weight * s.stddev) + a.weight * (s.weight * s.stddev)) := by linarith
      _ = (a.weight + s.weight) *
            (a.sumsq + s.weight * (s.stddev + s.value * s.value)) := by ring
  · intro none
    exact absurd none (add_pos_of_nonneg_of_pos h.weight pos).ne'

theorem Spread.solid {a : DataAccumulator ℚ} (h : Spread a) : Solid a := ⟨h.weight, h.void⟩

/-- What `get` hands to `sqrt`. -/
theorem Spread.measured {a : DataAccumulator ℚ} (h : Spread a) (some : 0 < a.weight) :
    Measured (SampleValue.get a) := by
  refine ⟨some, ?_⟩
  have split : a.sumsq / a.weight - a.sum / a.weight * (a.sum / a.weight) =
      (a.weight * a.sumsq - a.sum * a.sum) / (a.weight * a.weight) := by
    field_simp
  show 0 ≤ a.sumsq / a.weight - a.sum / a.weight * (a.sum / a.weight)
  rw [split]
  exact div_nonneg (sub_nonneg.mpr h.cauchy) (mul_self_nonneg _)

end DataAccumulator

section
variable {ε : Type} {n : ℕ} {ti : TileIndex}

def binMoments (n : ℕ) (bins : ℕ → DataAccumulator ℚ) : ℚ × ℚ × ℚ × ℚ :=
  ∑ i ∈ Finset.range n, (bins i).moments

theorem binMoments_zero (n : ℕ) : binMoments n (fun _ => DataAccumulator.zero ℚ) = 0 :=
  Finset.sum_eq_zero fun _ _ => DataAccumulator.moments_zero

theorem binMoments_update {bins : ℕ → DataAccumulator ℚ} {i : ℕ} (lt : i < n) (s : Sample ℚ) :
    binMoments n (Function.update bins i (SampleValue.plusEquals (bins i) s)) =
      binMoments n bins + moments [s] := by
  have mem : i ∈ Finset.range n := Finset.mem_range.mpr lt
  rw [binMoments, binMoments, ← Finset.add_sum_erase _ _ mem, ← Finset.add_sum_erase _ _ mem,
    Function.update_self, DataAccumulator.moments_plusEquals, add_right_comm]
  congr 2
  apply Finset.sum_congr rfl
  intro j hj
  rw [Function.update_of_ne (Finset.ne_of_mem_erase hj)]

theorem binMoments_update_above {bins : ℕ → DataAccumulator ℚ} {i : ℕ} (le : n ≤ i)
    (a : DataAccumulator ℚ) : binMoments n (Function.update bins i a) = binMoments n bins := by
  apply Finset.sum_congr rfl
  intro j hj
  rw [Function.update_of_ne]
  exact ((Finset.mem_range.mp hj).trans_le le).ne

theorem binSample_cases {bins bins' : ℕ → DataAccumulator ℚ} {s : Sample ℚ}
    (run : (binSample n ti bins s : Outcome ε _) = .ret bins') :
    ⌊ti.position s.time * n⌋.toNat < n ∧
      bins' = Function.update bins ⌊ti.position s.time * n⌋.toNat
        (SampleValue.plusEquals (bins ⌊ti.position s.time * n⌋.toNat) s) := by
  simp only [binSample] at run
  obtain ⟨_, -, run⟩ := Outcome.bind_eq_ret.mp run
  obtain ⟨_, lt, run⟩ := Outcome.bind_eq_ret.mp run
  obtain ⟨_, -, run⟩ := Outcome.bind_eq_ret.mp run
  cases run
  exact ⟨Outcome.assert_eq_ret.mp lt, rfl⟩

/-- What adding a sample keeps of one bin, binning keeps of all. -/
theorem binSamples_keep {P : DataAccumulator ℚ → Prop} {l : List (Sample ℚ)}
    {bins bins' : ℕ → DataAccumulator ℚ} (all : ∀ i, P (bins i))
    (keeps : ∀ s ∈ l, ∀ a, P a → P (SampleValue.plusEquals a s))
    (run : (l.foldlM (binSample n ti) bins : Outcome ε _) = .ret bins') : ∀ i, P (bins' i) := by
  induction l generalizing bins with
  | nil =>
      cases run
      exact all
  | cons s l ih =>
      rw [List.foldlM_cons] at run
      obtain ⟨mid, step, run⟩ := Outcome.bind_eq_ret.mp run
      obtain ⟨-, rfl⟩ := binSample_cases step
      obtain ⟨here, rest⟩ := List.forall_mem_cons.mp keeps
      refine ih (fun j => ?_) rest run
      by_cases eq : j = ⌊ti.position s.time * n⌋.toNat
      · rw [eq, Function.update_self]
        exact here _ (all _)
      · rw [Function.update_of_ne eq]
        exact all j

/-- Every sample goes into one bin: into the first `k` bins those go that have such an index. -/
theorem binSamples_below (k : ℕ) {l : List (Sample ℚ)} {bins bins' : ℕ → DataAccumulator ℚ}
    (run : (l.foldlM (binSample n ti) bins : Outcome ε _) = .ret bins') :
    binMoments k bins' = binMoments k bins +
      moments (l.filter fun s => decide (⌊ti.position s.time * n⌋.toNat < k)) := by
  induction l generalizing bins with
  | nil =>
      cases run
      exact (add_zero _).symm
  | cons s l ih =>
      rw [List.foldlM_cons] at run
      obtain ⟨mid, step, run⟩ := Outcome.bind_eq_ret.mp run
      obtain ⟨-, rfl⟩ := binSample_cases step
      rw [ih run, List.filter_cons]
      by_cases lt : ⌊ti.position s.time * n⌋.toNat < k
      · rw [if_pos (decide_eq_true lt), binMoments_update lt, add_assoc, ← moments_cons]
      · rw [if_neg (by simpa using lt), binMoments_update_above (not_lt.mp lt)]

theorem binSamples_index {l : List (Sample ℚ)} {bins bins' : ℕ → DataAccumulator ℚ}
    (run : (l.foldlM (binSample n ti) bins : Outcome ε _) = .ret bins') :
    ∀ s ∈ l, ⌊ti.position s.time * n⌋.toNat < n := by
  induction l generalizing bins with
  | nil => exact fun _ hs => (List.not_mem_nil hs).elim
  | cons s l ih =>
      rw [List.foldlM_cons] at run
      obtain ⟨mid, step, run⟩ := Outcome.bind_eq_ret.mp run
      exact List.forall_mem_cons.mpr ⟨(binSample_cases step).1, ih run⟩

theorem binSamples_moments {l : List (Sample ℚ)} {bins bins' : ℕ → DataAccumulator ℚ}
    (run : (l.foldlM (binSample n ti) bins : Outcome ε _) = .ret bins') :
    binMoments n bins' = binMoments n bins + moments l := by
  rw [binSamples_below n run, List.filter_eq_self.mpr]
  exact fun s hs => decide_eq_true (binSamples_index run s hs)

theorem collectBins_moments {bins : ℕ → DataAccumulator ℚ} (solid : ∀ i, (bins i).Solid) (n : ℕ) :
    moments (collectBins n bins) = binMoments n bins := by
  induction n with
  | zero => rfl
  | succ n ih =>
      have last : collectBins (n + 1) bins = collectBins n bins ++
          if 0 < (bins n).weight then [SampleValue.get (bins n)] else [] := by
        rw [collectBins, collectBins, List.range_succ, List.filterMap_append]
        congr 1
        by_cases some : 0 < (bins n).weight <;> simp [some]
      rw [last, moments_append, ih, binMoments, binMoments, Finset.sum_range_succ]
      congr 1
      by_cases some : 0 < (bins n).weight
      · rw [if_pos some]
        exact DataAccumulator.moments_get some
      · rw [if_neg some]
        exact ((solid n).void (le_antisymm (not_lt.mp some) (solid n).weight)).symm

theorem collectBins_length {V : Type} [SampleValue V] (n : ℕ) (bins : ℕ → DataAccumulator V) :
    (collectBins n bins).length ≤ n := by
  have filtered := List.length_filterMap_le (fun i =>
    if 0 < (bins i).weight then some (SampleValue.get (bins i)) else none) (List.range n)
  rw [List.length_range] at filtered
  exact filtered

theorem combineSamples_moments {l r p : List (Sample ℚ)} (measured : ∀ s ∈ l ++ r, Measured s)
    (run : (combineSamples n ti l r : Outcome ε _) = .ret p) :
    moments p = moments (l ++ r) ∧ (∀ s ∈ p, Measured s) ∧ p.length ≤ n := by
  simp only [combineSamples] at run
  obtain ⟨bins, fold, run⟩ := Outcome.bind_eq_ret.mp run
  obtain ⟨_, -, run⟩ := Outcome.bind_eq_ret.mp run
  cases run
  have spread : ∀ i, (bins i).Spread :=
    binSamples_keep (fun _ => .zero) (fun s hs _ ha => ha.plusEquals (measured s hs)) fold
  refine ⟨?_, ?_, collectBins_length n bins⟩
  · rw [collectBins_moments fun i => (spread i).solid, binSamples_moments fold, binMoments_zero, zero_add]
  · intro s hs
    obtain ⟨i, -, got⟩ := List.mem_filterMap.mp hs
    split at got
    · next some =>
        cases got
        exact (spread i).measured some
    · cases got

theorem collectBins_split {V : Type} [SampleValue V] {k : ℕ} (le : k ≤ n) (bins : ℕ → DataAccumulator V) :
    ∃ back, collectBins n bins = collectBins k bins ++ back := by
  have range : List.range n = List.range k ++ (List.range (n - k)).map (k + ·) := by
    rw [← List.range_add, Nat.add_sub_cancel' le]
  refine ⟨((List.range (n - k)).map (k + ·)).filterMap fun i =>
    if 0 < (bins i).weight then some (SampleValue.get (bins i)) else none, ?_⟩
  rw [collectBins, range, List.filterMap_append]
  rfl

/-- What lies before an edge between two bins and what lies after it are averaged apart. -/
theorem combineSamples_apart {k : ℕ} (le : k ≤ n) (pos : 0 < n) {l r p : List (Sample ℚ)}
    (weights : ∀ s ∈ l ++ r, 0 < s.weight) (low : ∀ s ∈ l ++ r, ti.startTime ≤ s.time)
    (before : ∀ s ∈ l, s.time < binEdge n ti k) (after : ∀ s ∈ r, binEdge n ti k ≤ s.time)
    (run : (combineSamples n ti l r : Outcome ε _) = .ret p) :
    ∃ front back, p = front ++ back ∧ moments front = moments l ∧ moments back = moments r := by
  simp only [combineSamples] at run
  obtain ⟨bins, fold, run⟩ := Outcome.bind_eq_ret.mp run
  obtain ⟨_, -, run⟩ := Outcome.bind_eq_ret.mp run
  cases run
  have solid : ∀ i, (bins i).Solid :=
    binSamples_keep (fun _ => .zero) (fun s hs _ ha => ha.plusEquals (weights s hs)) fold
  have first : moments (collectBins k bins) = moments l := by
    rw [collectBins_moments solid, binSamples_below k fold, binMoments_zero, zero_add,
      List.filter_append, List.filter_eq_self.mpr, List.filter_eq_nil_iff.mpr, List.append_nil]
    · intro s hs lt
      have edge := (bin_lt_iff pos (low s (List.mem_append_right _ hs))).mp (of_decide_eq_true lt)
      exact absurd edge (not_lt.mpr (after s hs))
    · intro s hs
      apply decide_eq_true
      exact (bin_lt_iff pos (low s (List.mem_append_left _ hs))).mpr (before s hs)
  obtain ⟨back, split⟩ := collectBins_split le bins
  refine ⟨collectBins k bins, back, split, first, ?_⟩
  have whole : moments (collectBins n bins) = moments (l ++ r) := by
    rw [collectBins_moments solid, binSamples_moments fold, binMoments_zero, zero_add]
  rw [split, moments_append, moments_append, first] at whole
  exact add_left_cancel whole

end

end Mio.Datastore
