import Mio.Datastore.Samples

/-! `combine_samples`: every bin of the parent averages the samples of one slice of its interval,
so the parent's samples ascend and stay inside the interval. -/
namespace Mio.Datastore

section
variable {V : Type} [SampleValue V]

/-- A sum of weighted times from the slice `[a, b)`. -/
structure Weighs (a b : ℚ) (acc : DataAccumulator V) : Prop where
  nonneg : 0 ≤ acc.weight
  low : a * acc.weight ≤ acc.timesum
  high : acc.timesum ≤ b * acc.weight
  strict : 0 < acc.weight → acc.timesum < b * acc.weight

theorem Weighs.zero (a b : ℚ) : Weighs a b (DataAccumulator.zero V) := by
  constructor <;> simp [DataAccumulator.zero]

variable [LawfulSampleValue V]

theorem Weighs.plusEquals {a b : ℚ} {acc : DataAccumulator V} {s : Sample V} (h : Weighs a b acc)
    (low : a ≤ s.time) (high : s.time < b) (weight : 0 ≤ s.weight) :
    Weighs a b (SampleValue.plusEquals acc s) := by
  have up := mul_le_mul_of_nonneg_right low weight
  have down := mul_le_mul_of_nonneg_right high.le weight
  refine ⟨?_, ?_, ?_, ?_⟩
  · rw [weight_plusEquals]
    exact add_nonneg h.nonneg weight
  · rw [weight_plusEquals, timesum_plusEquals, mul_add]
    exact add_le_add h.low up
  · rw [weight_plusEquals, timesum_plusEquals, mul_add]
    exact add_le_add h.high down
  · rw [weight_plusEquals, timesum_plusEquals, mul_add]
    intro pos
    rcases weight.eq_or_lt with zero | some
    · rw [← zero, add_zero] at pos
      exact add_lt_add_of_lt_of_le (h.strict pos) down
    · exact add_lt_add_of_le_of_lt h.high (mul_lt_mul_of_pos_right high some)

theorem Weighs.mean {a b : ℚ} {acc : DataAccumulator V} (h : Weighs a b acc)
    (pos : 0 < acc.weight) :
    a ≤ (SampleValue.get acc).time ∧ (SampleValue.get acc).time < b := by
  rw [time_get, le_div_iff₀ pos, div_lt_iff₀ pos]
  exact ⟨h.low, h.strict pos⟩

end

def binEdge (n : ℕ) (ti : TileIndex) (i : ℕ) : ℚ := ti.startTime + ti.duration * (i / n)

theorem duration_pos (ti : TileIndex) : 0 < ti.duration := zpow_pos (by norm_num) _

theorem binEdge_mono (n : ℕ) (ti : TileIndex) {i j : ℕ} (le : i ≤ j) :
    binEdge n ti i ≤ binEdge n ti j := by
  have cast : (i : ℚ) ≤ j := by exact_mod_cast le
  have ratio : (i : ℚ) / n ≤ j / n := div_le_div_of_nonneg_right cast (Nat.cast_nonneg n)
  have := mul_le_mul_of_nonneg_left ratio (duration_pos ti).le
  simpa [binEdge] using this

/-- A time lies between the edges of the bin chosen for it. -/
theorem bin_slice {n : ℕ} {ti : TileIndex} {t : ℚ} (pos : 0 < n) (low : ti.startTime ≤ t) :
    binEdge n ti ⌊ti.position t * n⌋.toNat ≤ t ∧
      t < binEdge n ti (⌊ti.position t * n⌋.toNat + 1) := by
  have dur := duration_pos ti
  have hn : (0 : ℚ) < n := by exact_mod_cast pos
  have nonneg : 0 ≤ ti.position t * n :=
    mul_nonneg (div_nonneg (sub_nonneg.mpr low) dur.le) hn.le
  have bin : ((⌊ti.position t * n⌋.toNat : ℕ) : ℚ) = ⌊ti.position t * n⌋ := by
    exact_mod_cast Int.toNat_of_nonneg (Int.floor_nonneg.mpr nonneg)
  have place : t = ti.startTime + ti.duration * (ti.position t * n / n) := by
    rw [mul_div_cancel_right₀ _ hn.ne', TileIndex.position, mul_div_cancel₀ _ dur.ne']
    ring
  constructor
  · conv_rhs => rw [place]
    rw [binEdge, bin]
    have := div_le_div_of_nonneg_right (Int.floor_le (ti.position t * n)) hn.le
    have := mul_le_mul_of_nonneg_left this dur.le
    linarith
  · conv_lhs => rw [place]
    rw [binEdge, Nat.cast_add, bin, Nat.cast_one]
    have := div_lt_div_of_pos_right (Int.lt_floor_add_one (ti.position t * n)) hn
    have := mul_lt_mul_of_pos_left this dur
    linarith

/-- The interval is as long as the level says: every index but the sentinels. -/
def Spans (ti : TileIndex) : Prop := ti.endTime = ti.startTime + ti.duration

theorem spans_of {ti : TileIndex} (low : ¬ ti.isNull) (high : ti.level < TileIndex.intMax) :
    Spans ti := by
  rw [Spans, TileIndex.endTime_eq low high, TileIndex.startTime_eq low high]
  have := Cell.stop_sub_start ti
  have width : ti.duration = ti.width := rfl
  rw [width]
  linarith

theorem binEdge_last {n : ℕ} {ti : TileIndex} (pos : 0 < n) (spans : Spans ti) :
    binEdge n ti n = ti.endTime := by
  have hn : (n : ℚ) ≠ 0 := by exact_mod_cast pos.ne'
  rw [binEdge, div_self hn, mul_one, spans]

theorem bin_lt_iff {n k : ℕ} {ti : TileIndex} {t : ℚ} (pos : 0 < n) (low : ti.startTime ≤ t) :
    ⌊ti.position t * n⌋.toNat < k ↔ t < binEdge n ti k := by
  obtain ⟨left, right⟩ := bin_slice pos low
  constructor
  · exact fun lt => right.trans_le (binEdge_mono n ti lt)
  · intro lt
    by_contra ge
    exact absurd (lt.trans_le (binEdge_mono n ti (not_lt.mp ge))) (not_lt.mpr left)

theorem bin_lt {n : ℕ} {ti : TileIndex} {t : ℚ} (pos : 0 < n) (spans : Spans ti)
    (has : ti.containsTime t) : ⌊ti.position t * n⌋.toNat < n := by
  rw [bin_lt_iff pos has.1, binEdge_last pos spans]
  exact has.2

section
variable {ε V : Type} [SampleValue V]

/-- Every bin weighs times of its own slice. -/
def Binned (n : ℕ) (ti : TileIndex) (bins : ℕ → DataAccumulator V) : Prop :=
  ∀ i, Weighs (binEdge n ti i) (binEdge n ti (i + 1)) (bins i)

theorem Binned.zero (n : ℕ) (ti : TileIndex) : Binned n ti fun _ => DataAccumulator.zero V :=
  fun _ => .zero _ _

variable [LawfulSampleValue V]

theorem Binned.update {n : ℕ} {ti : TileIndex} {bins : ℕ → DataAccumulator V} {s : Sample V}
    (h : Binned n ti bins) (pos : 0 < n) (low : ti.startTime ≤ s.time) (weight : 0 ≤ s.weight) :
    Binned n ti (Function.update bins ⌊ti.position s.time * n⌋.toNat
      (SampleValue.plusEquals (bins ⌊ti.position s.time * n⌋.toNat) s)) := by
  intro i
  by_cases eq : i = ⌊ti.position s.time * n⌋.toNat
  · subst eq
    rw [Function.update_self]
    exact (h _).plusEquals (bin_slice pos low).1 (bin_slice pos low).2 weight
  · rw [Function.update_of_ne eq]
    exact h i

theorem binSample_ret {n : ℕ} {ti : TileIndex} {bins bins' : ℕ → DataAccumulator V} {s : Sample V}
    (pos : 0 < n) (h : Binned n ti bins) (weight : 0 ≤ s.weight)
    (run : (binSample n ti bins s : Outcome ε _) = .ret bins') : Binned n ti bins' := by
  simp only [binSample] at run
  obtain ⟨_, has, run⟩ := Outcome.bind_eq_ret.mp run
  obtain ⟨_, -, run⟩ := Outcome.bind_eq_ret.mp run
  obtain ⟨_, -, run⟩ := Outcome.bind_eq_ret.mp run
  cases run
  exact h.update pos (Outcome.assert_eq_ret.mp has).1 weight

theorem binSamples_ret {n : ℕ} {ti : TileIndex} (pos : 0 < n) {l : List (Sample V)}
    (weight : ∀ s ∈ l, 0 ≤ s.weight) {bins bins' : ℕ → DataAccumulator V} (h : Binned n ti bins)
    (run : (l.foldlM (binSample n ti) bins : Outcome ε _) = .ret bins') : Binned n ti bins' := by
  induction l generalizing bins with
  | nil =>
      cases run
      exact h
  | cons s l ih =>
      rw [List.foldlM_cons] at run
      obtain ⟨mid, step, run⟩ := Outcome.bind_eq_ret.mp run
      have next := binSample_ret pos h (weight s List.mem_cons_self) step
      exact ih (fun x hx => weight x (List.mem_cons_of_mem _ hx)) next run

theorem Binned.place {n : ℕ} {ti : TileIndex} {bins : ℕ → DataAccumulator V} (h : Binned n ti bins)
    {i : ℕ} {s : Sample V}
    (got : (if 0 < (bins i).weight then some (SampleValue.get (bins i)) else none) = some s) :
    binEdge n ti i ≤ s.time ∧ s.time < binEdge n ti (i + 1) ∧ 0 < s.weight := by
  split at got
  · next some =>
      cases got
      rw [weight_get]
      exact ⟨((h i).mean some).1, ((h i).mean some).2, some⟩
  · cases got

theorem Binned.collect_apart {n : ℕ} {ti : TileIndex} {bins : ℕ → DataAccumulator V}
    (h : Binned n ti bins) : (collectBins n bins).Pairwise fun x y => x.time < y.time := by
  refine List.Pairwise.filterMap _ ?_ (List.pairwise_lt_range (n := n))
  intro i j lt s hs t ht
  exact (h.place hs).2.1.trans_le ((binEdge_mono n ti lt).trans (h.place ht).1)

/-- What the bins yield is ordered and stays in the interval. -/
theorem Binned.collect {n : ℕ} {ti : TileIndex} {bins : ℕ → DataAccumulator V}
    (h : Binned n ti bins) (spans : Spans ti) (pos : 0 < n) :
    (collectBins n bins).Pairwise (fun x y => x.time < y.time) ∧
      ∀ s ∈ collectBins n bins, ti.containsTime s.time ∧ 0 < s.weight := by
  refine ⟨h.collect_apart, ?_⟩
  intro s hs
  obtain ⟨i, hi, got⟩ := List.mem_filterMap.mp hs
  obtain ⟨low, high, weight⟩ := h.place got
  have first : binEdge n ti 0 = ti.startTime := by simp [binEdge]
  have last := binEdge_mono n ti (show i + 1 ≤ n from List.mem_range.mp hi)
  rw [binEdge_last pos spans] at last
  refine ⟨⟨?_, high.trans_le last⟩, weight⟩
  rw [← first]
  exact (binEdge_mono n ti (Nat.zero_le i)).trans low

theorem combineSamples_ret {n : ℕ} {ti : TileIndex} {l r p : List (Sample V)} (pos : 0 < n)
    (spans : Spans ti) (weight : ∀ s ∈ l ++ r, 0 ≤ s.weight)
    (run : (combineSamples n ti l r : Outcome ε _) = .ret p) :
    p.Pairwise (fun x y => x.time < y.time) ∧ ∀ s ∈ p, ti.containsTime s.time ∧ 0 < s.weight := by
  simp only [combineSamples] at run
  obtain ⟨bins, fold, run⟩ := Outcome.bind_eq_ret.mp run
  obtain ⟨_, -, run⟩ := Outcome.bind_eq_ret.mp run
  cases run
  exact (binSamples_ret pos weight (.zero n ti) fold).collect spans pos

omit [LawfulSampleValue V] in
theorem combineSamples_silent (n : ℕ) (ti : TileIndex) (l r : List (Sample V)) :
    Outcome.Silent (combineSamples n ti l r : Outcome ε _) := by
  have fold : ∀ (l : List (Sample V)) (bins : ℕ → DataAccumulator V),
      Outcome.Silent (l.foldlM (binSample n ti) bins : Outcome ε _) := by
    intro l
    induction l with
    | nil => exact fun bins => .ret _
    | cons s l ih =>
        intro bins
        rw [List.foldlM_cons]
        refine .bind ?_ fun _ => ih _
        exact .bind .assert fun _ => .bind .assert fun _ => .bind .assert fun _ => .ret _
  exact .bind (fold _ _) fun _ => .bind .assert fun _ => .ret _

theorem binSample_done {n i : ℕ} {ti : TileIndex} {bins : ℕ → DataAccumulator V} {s : Sample V}
    (has : ti.containsTime s.time) (bin : ⌊ti.position s.time * n⌋.toNat = i) (lt : i < n)
    (weight : 0 < (bins i).weight + s.weight) :
    (binSample n ti bins s : Outcome ε _) =
      .ret (Function.update bins i (SampleValue.plusEquals (bins i) s)) := by
  subst bin
  have grew : 0 < (Function.update bins ⌊ti.position s.time * n⌋.toNat
      (SampleValue.plusEquals (bins ⌊ti.position s.time * n⌋.toNat) s)
        ⌊ti.position s.time * n⌋.toNat).weight := by
    rw [Function.update_self, weight_plusEquals]
    exact weight
  simp only [binSample, Outcome.assert_of has, Outcome.assert_of lt, Outcome.ret_bind]
  exact Outcome.bind_of_ret (Outcome.assert_of grew _)

theorem binSamples_done {n : ℕ} {ti : TileIndex} (pos : 0 < n) (spans : Spans ti)
    {l : List (Sample V)} (ok : ∀ s ∈ l, ti.containsTime s.time ∧ 0 < s.weight)
    {bins : ℕ → DataAccumulator V} (h : ∀ i, 0 ≤ (bins i).weight) :
    ∃ bins', (l.foldlM (binSample n ti) bins : Outcome ε _) = .ret bins' ∧
      (∀ i, (bins i).weight ≤ (bins' i).weight) ∧
      ∀ s ∈ l, 0 < (bins' ⌊ti.position s.time * n⌋.toNat).weight := by
  induction l generalizing bins with
  | nil => exact ⟨bins, rfl, fun _ => le_rfl, by simp⟩
  | cons s l ih =>
      obtain ⟨has, weight⟩ := ok s List.mem_cons_self
      have lt := bin_lt pos spans has
      let i := ⌊ti.position s.time * n⌋.toNat
      let next := Function.update bins i (SampleValue.plusEquals (bins i) s)
      have here : (next i).weight = (bins i).weight + s.weight := by
        simp only [next, Function.update_self, weight_plusEquals]
      have grew : 0 < (next i).weight := by
        rw [here]
        exact add_pos_of_nonneg_of_pos (h i) weight
      have step : (binSample n ti bins s : Outcome ε _) = .ret next :=
        binSample_done has rfl lt (add_pos_of_nonneg_of_pos (h i) weight)
      have more : ∀ j, (bins j).weight ≤ (next j).weight := by
        intro j
        by_cases eq : j = i
        · subst eq
          rw [here]
          exact le_add_of_nonneg_right weight.le
        · simp only [next, Function.update_of_ne eq, le_refl]
      obtain ⟨bins', fold, le, some⟩ := ih (fun x hx => ok x (List.mem_cons_of_mem _ hx))
        (fun j => (h j).trans (more j))
      refine ⟨bins', ?_, fun j => (more j).trans (le j), ?_⟩
      · rw [List.foldlM_cons, step]
        exact fold
      · intro x hx
        rcases List.mem_cons.mp hx with rfl | hx
        · exact grew.trans_le (le i)
        · exact some x hx

theorem combineSamples_done {n : ℕ} {ti : TileIndex} {l r : List (Sample V)} (pos : 0 < n)
    (spans : Spans ti) (ok : ∀ s ∈ l ++ r, ti.containsTime s.time ∧ 0 < s.weight) :
    ∃ p, (combineSamples n ti l r : Outcome ε _) = .ret p ∧ (l ++ r ≠ [] → p ≠ []) := by
  have start : ∀ i : ℕ, 0 ≤ ((fun _ => DataAccumulator.zero V : ℕ → DataAccumulator V) i).weight :=
    fun _ => le_rfl
  obtain ⟨bins, fold, -, some⟩ := binSamples_done (ε := ε) pos spans ok start
  have full : l ++ r ≠ [] → collectBins n bins ≠ [] := by
    intro ne none
    obtain ⟨s, hs⟩ := List.exists_mem_of_ne_nil _ ne
    have mem : SampleValue.get (bins ⌊ti.position s.time * n⌋.toNat) ∈ collectBins n bins := by
      refine List.mem_filterMap.mpr ⟨⌊ti.position s.time * n⌋.toNat, ?_, if_pos (some s hs)⟩
      exact List.mem_range.mpr (bin_lt pos spans (ok s hs).1)
    rw [none] at mem
    cases mem
  refine ⟨collectBins n bins, ?_, full⟩
  have last : l = [] ∧ r = [] ∨ collectBins n bins ≠ [] := by
    by_cases ne : l ++ r = []
    · exact .inl (List.append_eq_nil_iff.mp ne)
    · exact .inr (full ne)
  simp only [combineSamples, fold, Outcome.ret_bind, Outcome.assert_of last, Outcome.pure_eq_ret]

end

end Mio.Datastore
