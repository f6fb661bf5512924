import Mathlib.Data.Int.Log
import Mathlib.Data.Rat.Floor
import Mathlib.Tactic.IntervalCases
import Mio.Lib.JsonText
import Mio.Lib.Rounding

/-! `%#.16g`: a number with 16 significant digits and a point. -/
namespace Mio.Printf

/-- The 16 digits of a positive number and the power of ten of the first one. -/
def scientific (q : ℚ) : ℕ × ℤ :=
  let n := (roundEven (q * 10 ^ (15 - Int.log 10 q))).toNat
  if n = 10 ^ 16 then (10 ^ 15, Int.log 10 q + 1) else (n, Int.log 10 q)

/-- At least two digits. -/
def exponentDigits (n : ℕ) : List Char :=
  if n < 10 then '0' :: Nat.toDigits 10 n else Nat.toDigits 10 n

/-- A positive number, given its digits. -/
def body (digits : List Char) (x : ℤ) : List Char :=
  if 0 ≤ x ∧ x < 16 then digits.take (x.toNat + 1) ++ '.' :: digits.drop (x.toNat + 1)
  else if -4 ≤ x ∧ x < 0 then '0' :: '.' :: (List.replicate (-x - 1).toNat '0' ++ digits)
  else
    digits.take 1 ++ '.' :: (digits.drop 1 ++
      'e' :: (if 0 ≤ x then '+' else '-') :: exponentDigits x.natAbs)

def printG (q : ℚ) : List Char :=
  if q = 0 then '0' :: '.' :: List.replicate 15 '0'
  else (if q < 0 then ['-'] else []) ++ body (Nat.toDigits 10 (scientific |q|).1) (scientific |q|).2

/-- Its last printed digit is the one before the point. -/
def Dotless (q : ℚ) : Prop := q ≠ 0 ∧ (scientific |q|).2 = 15

theorem scaled_bounds {q : ℚ} (pos : 0 < q) :
    10 ^ 15 ≤ q * 10 ^ (15 - Int.log 10 q) ∧ q * 10 ^ (15 - Int.log 10 q) < 10 ^ 16 := by
  have ten : (10 : ℚ) ≠ 0 := by norm_num
  have low := Int.zpow_log_le_self (b := 10) (by norm_num) pos
  have high := Int.lt_zpow_succ_log_self (b := 10) (by norm_num) q
  have scale : (0 : ℚ) < 10 ^ (15 - Int.log 10 q) := zpow_pos (by norm_num) _
  constructor
  · calc (10 : ℚ) ^ 15 = 10 ^ (Int.log 10 q) * 10 ^ (15 - Int.log 10 q) := by
          rw [← zpow_add₀ ten, add_sub_cancel]
          rfl
      _ ≤ q * 10 ^ (15 - Int.log 10 q) := by
          apply mul_le_mul_of_nonneg_right _ scale.le
          exact_mod_cast low
  · calc q * 10 ^ (15 - Int.log 10 q) < 10 ^ (Int.log 10 q + 1) * 10 ^ (15 - Int.log 10 q) := by
          apply mul_lt_mul_of_pos_right _ scale
          exact_mod_cast high
      _ = 10 ^ 16 := by
          have sum : Int.log 10 q + 1 + (15 - Int.log 10 q) = 16 := by omega
          rw [← zpow_add₀ ten, sum]
          rfl

theorem scientific_bounds {q : ℚ} (pos : 0 < q) :
    10 ^ 15 ≤ (scientific q).1 ∧ (scientific q).1 < 10 ^ 16 := by
  obtain ⟨low, high⟩ := scaled_bounds pos
  have lower : (10 ^ 15 : ℤ) ≤ roundEven (q * 10 ^ (15 - Int.log 10 q)) :=
    le_roundEven (by exact_mod_cast low)
  have upper : roundEven (q * 10 ^ (15 - Int.log 10 q)) ≤ (10 ^ 16 : ℤ) :=
    roundEven_le (by exact_mod_cast high.le)
  unfold scientific
  simp only
  split
  · norm_num
  · next other =>
      simp only
      omega

/-- Sixteen digits, and the first one counts. -/
structure Significant (digits : List Char) : Prop where
  length : digits.length = 16
  all : ∀ c ∈ digits, c.isDigit
  head : ∃ d ds, digits = d :: ds ∧ d ≠ '0'

theorem toDigits_head {n : ℕ} (pos : 0 < n) : ∃ d ds, Nat.toDigits 10 n = d :: ds ∧ d ≠ '0' := by
  induction n using Nat.strong_induction_on with
  | _ n ih =>
      by_cases small : n < 10
      · rw [Nat.toDigits_of_lt_base small]
        refine ⟨_, _, rfl, ?_⟩
        interval_cases n <;> decide
      · obtain ⟨d, ds, eq, ne⟩ := ih (n / 10) (by omega) (by omega)
        rw [Nat.toDigits_of_base_le (by decide) (by omega), eq]
        exact ⟨d, _, rfl, ne⟩

theorem significant_toDigits {n : ℕ} (low : 10 ^ 15 ≤ n) (high : n < 10 ^ 16) :
    Significant (Nat.toDigits 10 n) where
  length := by
    have upper := (Nat.length_toDigits_le_iff (b := 10) (k := 16) (by decide) (by decide)).mpr high
    have lower := mt (Nat.length_toDigits_le_iff (b := 10) (k := 15) (by decide) (by decide)).mp
      (not_lt.mpr low)
    omega
  all c mem := Nat.isDigit_of_mem_toDigits (by decide) (by decide) mem
  head := toDigits_head (lt_of_lt_of_le (by decide) low)

open JsonText

variable {digits : List Char} {x : ℤ}

theorem Significant.whole (significant : Significant digits) (k : ℕ) : Whole (digits.take (k + 1)) := by
  obtain ⟨d, ds, rfl, ne⟩ := significant.head
  refine .inr ⟨d, ds.take k, rfl, ne, List.cons_ne_nil _ _, fun c mem => ?_⟩
  exact significant.all c (List.mem_of_mem_take mem)

theorem Significant.rest (significant : Significant digits) {k : ℕ} (some : k < 16) :
    Digits (digits.drop k) := by
  refine ⟨fun none => ?_, fun c mem => significant.all c (List.mem_of_mem_drop mem)⟩
  have short := List.drop_eq_nil_iff.mp none
  rw [significant.length] at short
  omega

theorem digits_zeros {n : ℕ} (some : n ≠ 0) : Digits (List.replicate n '0') := by
  refine ⟨mt (List.replicate_eq_nil_iff _).mp some, fun c mem => ?_⟩
  rw [List.eq_of_mem_replicate mem]
  rfl

theorem exponentDigits_digits (n : ℕ) : Digits (exponentDigits n) := by
  have all : ∀ c ∈ Nat.toDigits 10 n, c.isDigit := fun c mem =>
    Nat.isDigit_of_mem_toDigits (by decide) (by decide) mem
  unfold exponentDigits
  split
  · refine ⟨List.cons_ne_nil _ _, fun c mem => ?_⟩
    rcases List.mem_cons.mp mem with rfl | mem
    · rfl
    · exact all c mem
  · exact ⟨Nat.toDigits_ne_nil, all⟩

theorem body_number (significant : Significant digits) (other : x ≠ 15) {sign : List Char}
    (isSign : sign = [] ∨ sign = ['-']) : Number (sign ++ body digits x) := by
  unfold body
  split
  · next range =>
      have some : x.toNat + 1 < 16 := by omega
      refine ⟨sign, _, '.' :: digits.drop (x.toNat + 1), [], ?_, isSign, significant.whole x.toNat,
        .inr ⟨_, rfl, significant.rest some⟩, .inl rfl⟩
      rw [List.append_nil]
  · split
    · refine ⟨sign, ['0'], '.' :: (List.replicate (-x - 1).toNat '0' ++ digits), [], ?_, isSign, .inl rfl,
        .inr ⟨_, rfl, ?_, ?_⟩, .inl rfl⟩
      · rw [List.append_nil]
        rfl
      · intro none
        have length := significant.length
        rw [(List.append_eq_nil_iff.mp none).2] at length
        cases length
      · intro c mem
        rcases List.mem_append.mp mem with mem | mem
        · rw [List.eq_of_mem_replicate mem]
          rfl
        · exact significant.all c mem
    · refine ⟨sign, digits.take 1, '.' :: digits.drop 1,
        'e' :: ([if 0 ≤ x then '+' else '-'] ++ exponentDigits x.natAbs), rfl, isSign, significant.whole 0,
        .inr ⟨_, rfl, significant.rest (by decide)⟩,
        .inr ⟨'e', _, _, rfl, .inl rfl, ?_, exponentDigits_digits _⟩⟩
      split
      · exact .inr (.inl rfl)
      · exact .inr (.inr rfl)

theorem body_dotless (significant : Significant digits) : body digits 15 = digits ++ ['.'] := by
  have all : digits.take 16 = digits := List.take_of_length_le significant.length.le
  have none : digits.drop 16 = [] := List.drop_eq_nil_of_le significant.length.le
  change digits.take 16 ++ '.' :: digits.drop 16 = _
  rw [all, none]

theorem significant_scientific {q : ℚ} (some : q ≠ 0) :
    Significant (Nat.toDigits 10 (scientific |q|).1) :=
  significant_toDigits (scientific_bounds (abs_pos.mpr some)).1 (scientific_bounds (abs_pos.mpr some)).2

theorem sign_cases (q : ℚ) :
    (if q < 0 then ['-'] else []) = ([] : List Char) ∨ (if q < 0 then ['-'] else []) = ['-'] := by
  split
  · exact .inr rfl
  · exact .inl rfl

theorem number_printG {q : ℚ} (dot : ¬ Dotless q) : Number (printG q) := by
  unfold printG
  split
  · exact ⟨[], ['0'], '.' :: List.replicate 15 '0', [], rfl, .inl rfl, .inl rfl,
      .inr ⟨_, rfl, digits_zeros (by decide)⟩, .inl rfl⟩
  · next some => exact body_number (significant_scientific some) (fun no => dot ⟨some, no⟩) (sign_cases q)

theorem quote_notMem_body {digits : List Char} (all : ∀ c ∈ digits, c.isDigit) (x : ℤ) :
    '"' ∉ body digits x := by
  have plain : '"' ∉ digits := fun mem => absurd (all _ mem) (by decide)
  have front : ∀ k, '"' ∉ digits.take k := fun k mem => plain (List.mem_of_mem_take mem)
  have back : ∀ k, '"' ∉ digits.drop k := fun k mem => plain (List.mem_of_mem_drop mem)
  have exponent : '"' ∉ exponentDigits x.natAbs := fun mem =>
    absurd ((exponentDigits_digits x.natAbs).2 _ mem) (by decide)
  unfold body
  split
  · simp [front, back]
  · split
    · simp [plain]
    · have tail : '"' ∉ digits.tail := fun mem => plain (List.mem_of_mem_tail mem)
      split <;> simp [front, tail, exponent]

theorem quote_notMem_printG (q : ℚ) : '"' ∉ printG q := by
  have digits := fun c mem =>
    Nat.isDigit_of_mem_toDigits (b := 10) (n := (scientific |q|).1) (c := c) (by decide) (by decide) mem
  have number := quote_notMem_body digits (scientific |q|).2
  unfold printG
  split
  · decide
  · split <;> simp [number]

theorem printG_dotless {q : ℚ} (dotless : Dotless q) : ∃ t, printG q = t ++ ['.'] := by
  unfold printG
  rw [if_neg dotless.1, dotless.2, body_dotless (significant_scientific dotless.1), ← List.append_assoc]
  exact ⟨_, rfl⟩

theorem scientific_snd (q : ℚ) :
    (scientific q).2 = if (roundEven (q * 10 ^ (15 - Int.log 10 q))).toNat = 10 ^ 16
      then Int.log 10 q + 1 else Int.log 10 q := by
  unfold scientific
  simp only
  split <;> rfl

theorem log_eq_iff {q : ℚ} (pos : 0 < q) (k : ℤ) :
    Int.log 10 q = k ↔ (10 : ℚ) ^ k ≤ q ∧ q < (10 : ℚ) ^ (k + 1) := by
  have low := Int.zpow_le_iff_le_log (b := 10) (x := k) (by norm_num) pos
  have high := Int.lt_zpow_iff_log_lt (b := 10) (x := k + 1) (by norm_num) pos
  norm_cast at low high ⊢
  rw [low, high]
  omega

/-- A carry is the only way into the next power of ten. -/
theorem carry_iff {q : ℚ} (pos : 0 < q) :
    (roundEven (q * 10 ^ (15 - Int.log 10 q))).toNat = 10 ^ 16
      ↔ 10 ^ 16 - 1 / 2 ≤ q * 10 ^ (15 - Int.log 10 q) := by
  obtain ⟨low, high⟩ := scaled_bounds pos
  have lower : (10 ^ 15 : ℤ) ≤ roundEven (q * 10 ^ (15 - Int.log 10 q)) :=
    le_roundEven (by exact_mod_cast low)
  have even := roundEven_eq_iff (n := 10 ^ 16) (q := q * 10 ^ (15 - Int.log 10 q)) (by norm_num)
    (by exact_mod_cast high)
  rw [Int.cast_pow, Int.cast_ofNat] at even
  rw [← even]
  omega

/-- The numbers that are printed without digits behind the point. -/
theorem dotless_iff (q : ℚ) : Dotless q ↔ 10 ^ 15 - 1 / 20 ≤ |q| ∧ |q| < 10 ^ 16 - 1 / 2 := by
  rcases (abs_nonneg q).eq_or_lt with none | pos
  · have zero : q = 0 := abs_eq_zero.mp none.symm
    subst zero
    refine iff_of_false (fun dotless => dotless.1 rfl) (fun range => ?_)
    have low := range.1
    norm_num at low
  · have some : q ≠ 0 := abs_pos.mp pos
    have carry := carry_iff pos
    have low := log_eq_iff pos 14
    have high := log_eq_iff pos 15
    unfold Dotless
    rw [scientific_snd, and_iff_right some]
    generalize Int.log 10 |q| = k at carry low high ⊢
    by_cases fifteen : k = 15
    · -- the first digit already stands there, unless a carry moves it on
      have range := high.mp fifteen
      subst fifteen
      norm_num at carry range ⊢
      rw [carry]
      constructor
      · exact fun under => ⟨by linarith, by linarith⟩
      · exact fun under => by linarith
    · by_cases fourteen : k = 14
      · -- only a carry brings it there
        have range := low.mp fourteen
        subst fourteen
        norm_num at carry range ⊢
        rw [carry]
        constructor
        · exact fun over10 => ⟨by linarith, by linarith⟩
        · exact fun over10 => by linarith
      · have outside := mt high.mpr fifteen
        have outside' := mt low.mpr fourteen
        norm_num at outside outside' ⊢
        refine iff_of_false (fun no => ?_) (fun range => ?_)
        · split at no <;> omega
        · have below : |q| < 1000000000000000 := by
            by_contra above
            linarith [outside (not_lt.mp above)]
          have above := outside' (by linarith)
          linarith

end Mio.Printf
