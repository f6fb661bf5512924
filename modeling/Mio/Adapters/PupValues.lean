import Mathlib.Tactic.IntervalCases
import Mio.Adapters.PupFrame
import Mio.Lib.CString
import Mio.Lib.Scan

/-! The values of the attributes as text: `data_string` of `libpup.c`, which `update_device` of
`pup_adapter.c` publishes. -/
namespace Mio.Adapters

@[match_pattern] abbrev signedTenDigit : UInt8 := 0xFF
@[match_pattern] abbrev unsignedTenDigit : UInt8 := 0xFE
@[match_pattern] abbrev signedNineOneDigit : UInt8 := 0xFD
@[match_pattern] abbrev unsignedNineOneDigit : UInt8 := 0xFC
@[match_pattern] abbrev signedEightTwoDigit : UInt8 := 0xFB
@[match_pattern] abbrev unsignedEightTwoDigit : UInt8 := 0xFA
@[match_pattern] abbrev signedSevenThreeDigit : UInt8 := 0xF9
@[match_pattern] abbrev unsignedSevenThreeDigit : UInt8 := 0xF8
@[match_pattern] abbrev signedSixFourDigit : UInt8 := 0xF7
@[match_pattern] abbrev unsignedSixFourDigit : UInt8 := 0xF6
@[match_pattern] abbrev signedFiveFiveDigit : UInt8 := 0xF5
@[match_pattern] abbrev unsignedFiveFiveDigit : UInt8 := 0xF4
@[match_pattern] abbrev signedFourSixDigit : UInt8 := 0xF3
@[match_pattern] abbrev unsignedFourSixDigit : UInt8 := 0xF2
@[match_pattern] abbrev signedThreeSevenDigit : UInt8 := 0xF1
@[match_pattern] abbrev unsignedThreeSevenDigit : UInt8 := 0xF0
@[match_pattern] abbrev signedTwoEightDigit : UInt8 := 0xEF
@[match_pattern] abbrev unsignedTwoEightDigit : UInt8 := 0xEE
@[match_pattern] abbrev signedOneNineDigit : UInt8 := 0xED
@[match_pattern] abbrev unsignedOneNineDigit : UInt8 := 0xEC
@[match_pattern] abbrev signedZeroTenDigit : UInt8 := 0xEB
@[match_pattern] abbrev unsignedZeroTenDigit : UInt8 := 0xEA
@[match_pattern] abbrev bitmap : UInt8 := 0xE9
@[match_pattern] abbrev ubitmap : UInt8 := 0xE8
@[match_pattern] abbrev bcdLongTime : UInt8 := 0xE7
@[match_pattern] abbrev bcdShortTime : UInt8 := 0xE6
@[match_pattern] abbrev bcdPacked : UInt8 := 0xE5
@[match_pattern] abbrev bcdDate : UInt8 := 0xE4
@[match_pattern] abbrev binaryDate : UInt8 := 0xE3
@[match_pattern] abbrev floatingPointThirtyTwo : UInt8 := 0xE0

/-- `(int32_t) data`, and what `%d` makes of an unsigned argument. -/
def asInt (data : UInt32) : ℤ := data.toInt32.toInt

/-- `(float) data`: the nearest number of 24 bits. -/
def asFloat (data : UInt32) : ℚ :=
  let unit := 2 ^ (data.toNat.log2 - 23)
  roundEven (data.toNat / unit) * unit

def pointText (whole part : ℤ) : List Char := Scan.printD whole ++ '.' :: Scan.printD part

def signedText (scale : ℕ) (data : UInt32) : List Char :=
  pointText ((asInt data).tdiv scale) ((asInt data).tmod scale)

def unsignedText (scale : UInt32) (data : UInt32) : List Char :=
  pointText (asInt (data / scale)) (asInt (data % scale))

/-- Bytes or digits of the word, each as a number. -/
def partsText (separator : Char) (mask : UInt32) (shifts : List UInt32) (data : UInt32) : List Char :=
  [separator].intercalate (shifts.map fun shift => Scan.printD (asInt (mask &&& data >>> shift)))

abbrev nul : Char := '\x00'

def sprintf (str : CString Char) (text : List Char) : Outcome Undefined (Option (CString Char)) :=
  match str.sprintf nul text with
  | none => .throw .outOfBounds
  | some str => .ret (some str)

def dataString (type : UInt8) (data : UInt32) : Outcome Undefined (Option (CString Char)) :=
  let str := CString.malloc 15
  match type with
  | signedTenDigit => sprintf str (Scan.printD (asInt data))
  | unsignedTenDigit => sprintf str (Scan.printD (asInt data))
  | signedNineOneDigit => sprintf str (signedText 10 data)
  | unsignedNineOneDigit => sprintf str (unsignedText 10 data ++ ['\n'])
  | signedEightTwoDigit => sprintf str (signedText 100 data ++ ['\n'])
  | unsignedEightTwoDigit => sprintf str (unsignedText 100 data ++ ['\n'])
  | signedSevenThreeDigit => sprintf str (signedText 1000 data ++ ['\n'])
  | unsignedSevenThreeDigit => sprintf str (unsignedText 1000 data ++ ['\n'])
  | signedSixFourDigit => sprintf str (signedText 10000 data ++ ['\n'])
  | unsignedSixFourDigit => sprintf str (unsignedText 10000 data ++ ['\n'])
  | signedFiveFiveDigit => sprintf str (signedText 100000 data ++ ['\n'])
  | unsignedFiveFiveDigit => sprintf str (unsignedText 100000 data ++ ['\n'])
  | signedFourSixDigit => sprintf str (signedText 1000000 data ++ ['\n'])
  | unsignedFourSixDigit => sprintf str (unsignedText 1000000 data ++ ['\n'])
  | signedThreeSevenDigit => sprintf str (signedText 10000000 data ++ ['\n'])
  | unsignedThreeSevenDigit => sprintf str (unsignedText 10000000 data ++ ['\n'])
  | signedTwoEightDigit => sprintf str (signedText 100000000 data ++ ['\n'])
  | unsignedTwoEightDigit => sprintf str (unsignedText 100000000 data ++ ['\n'])
  | signedOneNineDigit => sprintf str (signedText 1000000000 data ++ ['\n'])
  | unsignedOneNineDigit => sprintf str (unsignedText 1000000000 data ++ ['\n'])
  | signedZeroTenDigit => sprintf str ('.' :: Scan.printD (asInt data) ++ ['\n'])
  | unsignedZeroTenDigit => sprintf str ('.' :: Scan.printD (asInt data) ++ ['\n'])
  | bitmap | ubitmap | bcdLongTime => sprintf str (partsText ':' 0xFF [0, 8, 16] data ++ ['\n'])
  | bcdShortTime => sprintf str (partsText ':' 0xFF [0, 8] data ++ ['\n'])
  -- The third digit comes twice, and the fourth not at all.
  | bcdPacked => sprintf str (partsText ' ' 0xF [0, 4, 8, 8, 16, 20, 24, 28] data ++ ['\n'])
  -- The dates are not written.
  | bcdDate | binaryDate => .ret (some str)
  | floatingPointThirtyTwo => sprintf str (Scan.printLf (asFloat data) ++ ['\n'])
  | _ => .ret none

/-- The string that comes back. -/
def dataText (type : UInt8) (data : UInt32) : Option (List Char) :=
  match dataString type data with
  | .ret (some str) => str.contents nul
  | _ => none

/-- The types with a point: from 0xFF down, each number of digits after the point once with and once
without a sign. -/
structure FixedPoint where
  signed : Bool
  digits : ℕ
  digits_le : digits ≤ 10

namespace FixedPoint

def code (t : FixedPoint) : UInt8 := UInt8.ofNat (0xFF - 2 * t.digits - if t.signed then 0 else 1)

/-- The word: a two's complement with a sign, an unsigned number without. -/
def word (t : FixedPoint) (data : UInt32) : ℤ := if t.signed then asInt data else data.toNat

def value (t : FixedPoint) (data : UInt32) : ℚ := t.word data / 10 ^ t.digits

def reading (t : FixedPoint) (data : UInt32) : Option ℚ := (dataText t.code data).bind Scan.decimal

/-- The words that come out right. Without a point: no unsigned number from 2^31 on. With a point: the
remainder has neither a sign nor a zero in front, unless it is zero; where it is the whole word, it is
below 2^31. -/
def Exact (t : FixedPoint) (data : UInt32) : Prop :=
  match t.digits with
  | 0 => t.signed ∨ data.toNat < 2 ^ 31
  | k + 1 =>
      let part := (t.word data).tmod (10 ^ (k + 1))
      part = 0 ∨ 10 ^ k ≤ part ∧ (k = 9 → part < 2 ^ 31)

def text (t : FixedPoint) (data : UInt32) : List Char :=
  match t.digits with
  | 0 => Scan.printD (asInt data)
  | 10 => '.' :: Scan.printD (asInt data)
  | k => if t.signed then signedText (10 ^ k) data else unsignedText (UInt32.ofNat (10 ^ k)) data

end FixedPoint

theorem asInt_eq (data : UInt32) :
    asInt data = if data.toNat < 2 ^ 31 then (data.toNat : ℤ) else data.toNat - 2 ^ 32 := by
  have bits : asInt data = data.toBitVec.toInt := rfl
  rw [bits, BitVec.toInt_eq_toNat_cond]
  have same : data.toBitVec.toNat = data.toNat := rfl
  rw [same]
  split <;> split <;> omega

theorem asInt_of_lt {data : UInt32} (low : data.toNat < 2 ^ 31) : asInt data = data.toNat := by
  rw [asInt_eq, if_pos low]

theorem asInt_bounds (data : UInt32) : -2 ^ 31 ≤ asInt data ∧ asInt data < 2 ^ 31 := by
  have size := data.toNat_lt
  rw [asInt_eq]
  split <;> omega

theorem asInt_inj {data data' : UInt32} (h : asInt data = asInt data') : data = data' := by
  have size := data.toNat_lt
  have size' := data'.toNat_lt
  rw [asInt_eq, asInt_eq] at h
  apply UInt32.toNat_inj.mp
  split at h <;> split at h <;> omega

theorem newline_isSpace : ∀ c ∈ ['\n'], Scan.isSpace c := by
  intro c mem
  rw [List.mem_singleton.mp mem]
  decide

theorem printD_length {x : ℤ} {k : ℕ} (pos : 0 < k) (lt : x.natAbs < 10 ^ k) :
    (Scan.printD x).length ≤ k + 1 := by
  have digits : (Nat.toDigits 10 x.natAbs).length ≤ k :=
    (Nat.length_toDigits_le_iff (by decide) pos).mpr lt
  unfold Scan.printD
  rw [List.length_append]
  split
  · rw [List.length_singleton]
    omega
  · rw [List.length_nil]
    omega

theorem nul_notMem_printD (x : ℤ) : nul ∉ Scan.printD x := by
  intro mem
  rcases List.mem_append.mp mem with sign | digit
  · split at sign
    · exact absurd (List.mem_singleton.mp sign) (by decide)
    · cases sign
  · exact absurd (Scan.toDigits_isDigit _ _ digit) (by decide)

theorem nul_notMem_pointText (whole part : ℤ) : nul ∉ pointText whole part := by
  rw [pointText, List.mem_append, List.mem_cons, not_or, not_or]
  exact ⟨nul_notMem_printD _, by decide, nul_notMem_printD _⟩

theorem pointText_length {w : ℤ} {k : ℕ} (ten : w.natAbs < 10 ^ 10) (pos : 0 < k) (small : k < 10) :
    (pointText (w.tdiv (10 ^ k)) (w.tmod (10 ^ k))).length ≤ 13 := by
  have whole : (w.tdiv (10 ^ k)).natAbs < 10 ^ (10 - k) := by
    rw [Int.natAbs_tdiv, Int.natAbs_pow]
    apply Nat.div_lt_of_lt_mul
    have power : 10 ^ k * 10 ^ (10 - k) = 10 ^ 10 := by
      rw [← pow_add, Nat.add_sub_cancel' small.le]
    exact ten.trans_eq power.symm
  have part : (w.tmod (10 ^ k)).natAbs < 10 ^ k := by
    rw [Int.natAbs_tmod, Int.natAbs_pow]
    exact Nat.mod_lt _ (by positivity)
  have left := printD_length (by omega) whole
  have right := printD_length pos part
  rw [pointText, List.length_append, List.length_cons]
  omega

theorem tmod_of_natAbs_lt {w scale : ℤ} (lt : w.natAbs < scale) : w.tmod scale = w := by
  rcases le_total 0 w with high | low
  · exact Int.tmod_eq_of_lt high (by omega)
  · have mirrored := Int.tmod_eq_of_lt (a := -w) (b := scale) (by omega) (by omega)
    rw [Int.neg_tmod] at mirrored
    omega

/-- A quotient and its remainder give the number back if the remainder has neither a sign nor fewer
digits than the scale. -/
theorem decimal_pointText (w : ℤ) (k : ℕ) {tail : List Char} (spaces : ∀ c ∈ tail, Scan.isSpace c) :
    Scan.decimal (pointText (w.tdiv (10 ^ (k + 1))) (w.tmod (10 ^ (k + 1))) ++ tail) =
        some ((w : ℚ) / 10 ^ (k + 1)) ↔
      w.tmod (10 ^ (k + 1)) = 0 ∨ 10 ^ k ≤ w.tmod (10 ^ (k + 1)) := by
  have scale : (0 : ℤ) < 10 ^ (k + 1) := by positivity
  have whole : (w : ℚ) / 10 ^ (k + 1) = w.tdiv (10 ^ (k + 1)) + (w.tmod (10 ^ (k + 1)) : ℚ) / 10 ^ (k + 1) := by
    have split : (w : ℚ) = (10 ^ (k + 1) * w.tdiv (10 ^ (k + 1)) + w.tmod (10 ^ (k + 1)) : ℤ) := by
      rw [Int.mul_tdiv_add_tmod]
    rw [split]
    push_cast
    field_simp
  rw [pointText, List.append_assoc, List.cons_append]
  rcases lt_or_ge (w.tmod (10 ^ (k + 1))) 0 with negative | high
  · -- a second sign
    rw [Scan.decimal_printD_minus _ negative]
    have power : (0 : ℤ) < 10 ^ k := by positivity
    constructor
    · rintro ⟨⟩
    · rintro (zero | le) <;> omega
  obtain ⟨f, part⟩ := Int.eq_ofNat_of_zero_le high
  have small : f < 10 ^ (k + 1) := by
    have lt := Int.tmod_lt_of_pos w scale
    rw [part] at lt
    exact_mod_cast lt
  have digits := Scan.fraction_eq_iff small
  rw [whole, part, Scan.decimal_printD_point _ f spaces, Option.some_inj]
  rcases f.eq_zero_or_pos with rfl | pos
  · rw [Nat.cast_zero, zero_div, add_zero, Scan.sign_mul_natAbs]
    simp
  · -- the fraction is positive, so the whole number is not negative
    have nonneg : 0 ≤ w := by
      by_contra low
      have mirrored := Int.tmod_nonneg (10 ^ (k + 1)) (a := -w) (by omega)
      rw [Int.neg_tmod, part] at mirrored
      omega
    have sign : ¬ w.tdiv (10 ^ (k + 1)) < 0 := (Int.tdiv_nonneg nonneg scale.le).not_gt
    have natAbs : ((w.tdiv (10 ^ (k + 1))).natAbs : ℚ) = w.tdiv (10 ^ (k + 1)) := by
      have := Scan.sign_mul_natAbs (w.tdiv (10 ^ (k + 1)))
      rwa [if_neg sign, one_mul] at this
    rw [if_neg sign, one_mul, natAbs]
    have apart : ((w.tdiv (10 ^ (k + 1)) : ℚ) + (f : ℚ) / 10 ^ (Nat.toDigits 10 f).length =
        w.tdiv (10 ^ (k + 1)) + ((f : ℤ) : ℚ) / 10 ^ (k + 1)) ↔
        (f : ℚ) / 10 ^ (Nat.toDigits 10 f).length = f / 10 ^ (k + 1) := by
      rw [add_right_inj, Int.cast_natCast]
    rw [apart, digits]
    constructor <;> rintro (h | h)
    · exact Or.inl (by omega)
    · exact Or.inr (by exact_mod_cast h)
    · exact Or.inl (by omega)
    · exact Or.inr (by exact_mod_cast h)

theorem decimal_point_printD (f : ℤ) (k : ℕ) (small : f < 10 ^ (k + 1)) {tail : List Char}
    (spaces : ∀ c ∈ tail, Scan.isSpace c) :
    Scan.decimal ('.' :: (Scan.printD f ++ tail)) = some ((f : ℚ) / 10 ^ (k + 1)) ↔
      f = 0 ∨ 10 ^ k ≤ f := by
  rcases lt_or_ge f 0 with negative | high
  · rw [Scan.decimal_point_minus negative]
    have power : (0 : ℤ) < 10 ^ k := by positivity
    constructor
    · rintro ⟨⟩
    · rintro (zero | le) <;> omega
  · obtain ⟨f, rfl⟩ := Int.eq_ofNat_of_zero_le high
    have digits := Scan.fraction_eq_iff (f := f) (k := k) (by exact_mod_cast small)
    rw [Scan.decimal_point_printD f spaces, Option.some_inj, Int.cast_natCast, digits]
    norm_cast

namespace FixedPoint

theorem dataString_code (t : FixedPoint) (data : UInt32) :
    ∃ tail, (tail = [] ∨ tail = ['\n']) ∧ (t.digits = 0 → tail = []) ∧
      dataString t.code data = sprintf (CString.malloc 15) (t.text data ++ tail) := by
  -- no newline ends the whole numbers and the signed ones with a single digit
  refine ⟨if t.digits = 0 ∨ t.digits = 1 ∧ t.signed then [] else ['\n'], ?_, ?_, ?_⟩
  · split
    · exact Or.inl rfl
    · exact Or.inr rfl
  · exact fun none => if_pos (Or.inl none)
  · obtain ⟨signed, k, le⟩ := t
    interval_cases k <;> cases signed
    all_goals
      simp only [Nat.reduceEqDiff, reduceCtorEq, and_self, and_false, false_and, or_self, or_false, or_true,
        if_true, if_false, List.append_nil]
      rfl

theorem text_whole {t : FixedPoint} (none : t.digits = 0) (data : UInt32) :
    t.text data = Scan.printD (asInt data) := by
  rw [text, none]
  rfl

theorem text_all {t : FixedPoint} (all : t.digits = 10) (data : UInt32) :
    t.text data = '.' :: Scan.printD (asInt data) := by
  rw [text, all]
  rfl

/-- Between the first type and the last the text is made of the quotient and the remainder. -/
theorem text_point (t : FixedPoint) (data : UInt32) (pos : 0 < t.digits) (small : t.digits < 10) :
    t.text data = pointText ((t.word data).tdiv (10 ^ t.digits)) ((t.word data).tmod (10 ^ t.digits)) := by
  have text : t.text data =
      if t.signed then signedText (10 ^ t.digits) data
      else unsignedText (UInt32.ofNat (10 ^ t.digits)) data := by
    unfold FixedPoint.text
    split
    · omega
    · omega
    · rfl
  rw [text]
  unfold word
  by_cases signed : t.signed
  · rw [if_pos signed, if_pos signed, signedText]
    push_cast
    rfl
  · rw [if_neg signed, if_neg signed]
    have low : 10 ≤ 10 ^ t.digits := Nat.le_self_pow pos.ne' 10
    have high : 10 ^ t.digits ≤ 10 ^ 9 := Nat.pow_le_pow_right (by decide) (by omega)
    have scale : (UInt32.ofNat (10 ^ t.digits)).toNat = 10 ^ t.digits :=
      UInt32.toNat_ofNat_of_lt' (by rw [UInt32.size]; omega)
    have size := data.toNat_lt
    have quotient : asInt (data / UInt32.ofNat (10 ^ t.digits)) = (data.toNat / 10 ^ t.digits : ℕ) := by
      rw [asInt_of_lt, UInt32.toNat_div, scale]
      rw [UInt32.toNat_div, scale]
      exact (Nat.div_le_div_left low (by decide)).trans_lt (by omega)
    have remainder : asInt (data % UInt32.ofNat (10 ^ t.digits)) = (data.toNat % 10 ^ t.digits : ℕ) := by
      rw [asInt_of_lt, UInt32.toNat_mod, scale]
      rw [UInt32.toNat_mod, scale]
      exact (Nat.mod_lt _ (by omega)).trans_le (by omega)
    rw [unsignedText, quotient, remainder]
    norm_cast

theorem word_natAbs (t : FixedPoint) (data : UInt32) : (t.word data).natAbs < 10 ^ 10 := by
  have size := data.toNat_lt
  have bounds := asInt_bounds data
  unfold word
  split <;> omega

theorem word_of_nonneg (t : FixedPoint) {data : UInt32} (high : 0 ≤ asInt data) :
    t.word data = asInt data := by
  have size := data.toNat_lt
  have int := asInt_eq data
  unfold word
  split
  · rfl
  · split at int <;> omega

theorem text_length (t : FixedPoint) (data : UInt32) : (t.text data).length ≤ 13 := by
  have ten : (asInt data).natAbs < 10 ^ 10 := by
    have bounds := asInt_bounds data
    omega
  have plain := printD_length (by decide) ten
  rcases Nat.eq_zero_or_pos t.digits with zero | pos
  · rw [text_whole zero]
    exact plain.trans (by decide)
  rcases eq_or_lt_of_le t.digits_le with all | small
  · rw [text_all all]
    exact Nat.succ_le_succ (plain.trans (by decide))
  · rw [t.text_point data pos small]
    exact pointText_length (t.word_natAbs data) pos small

theorem nul_notMem_text (t : FixedPoint) (data : UInt32) : nul ∉ t.text data := by
  rcases Nat.eq_zero_or_pos t.digits with zero | pos
  · rw [text_whole zero]
    exact nul_notMem_printD _
  rcases eq_or_lt_of_le t.digits_le with all | small
  · rw [text_all all]
    exact List.not_mem_cons_of_ne_of_not_mem (by decide) (nul_notMem_printD _)
  · rw [t.text_point data pos small]
    exact nul_notMem_pointText _ _

/-- The text fits, and comes back whole. -/
theorem dataString_ret (t : FixedPoint) (data : UInt32) :
    ∃ tail, (∀ c ∈ tail, Scan.isSpace c) ∧ (t.digits = 0 → tail = []) ∧
      ∃ str, dataString t.code data = .ret (some str) ∧ str.length = 15 ∧
        str.contents nul = some (t.text data ++ tail) := by
  obtain ⟨tail, shape, whole, call⟩ := t.dataString_code data
  have fits := t.text_length data
  have short : tail.length ≤ 1 := by rcases shape with rfl | rfl <;> decide
  have spaces : ∀ c ∈ tail, Scan.isSpace c := by
    rcases shape with rfl | rfl
    · intro c mem
      cases mem
    · exact newline_isSpace
  have plain : nul ∉ t.text data ++ tail := by
    rw [List.mem_append, not_or]
    refine ⟨t.nul_notMem_text data, fun mem => absurd (spaces _ mem) (by decide)⟩
  have room : (t.text data ++ tail).length < (CString.malloc 15 : CString Char).length := by
    rw [List.length_append, CString.malloc, List.length_replicate]
    omega
  have written := CString.sprintf_of_lt nul room
  refine ⟨tail, spaces, whole, _, by rw [call, sprintf, written], ?_, CString.contents_append plain _⟩
  exact CString.length_write written

theorem reading_eq (t : FixedPoint) (data : UInt32) :
    ∃ tail, (∀ c ∈ tail, Scan.isSpace c) ∧ (t.digits = 0 → tail = []) ∧
      t.reading data = Scan.decimal (t.text data ++ tail) := by
  obtain ⟨tail, spaces, whole, str, call, -, contents⟩ := t.dataString_ret data
  refine ⟨tail, spaces, whole, ?_⟩
  rw [reading, dataText, call]
  dsimp only
  rw [contents, Option.bind_some]

theorem reading_eq_value (t : FixedPoint) (data : UInt32) :
    t.reading data = some (t.value data) ↔ t.Exact data := by
  have size := data.toNat_lt
  have int := asInt_eq data
  obtain ⟨tail, spaces, whole, read⟩ := t.reading_eq data
  rw [read]
  unfold value Exact
  cases eq : t.digits with
  | zero =>
      rw [whole eq, List.append_nil, text_whole eq]
      rw [Scan.decimal_printD, Option.some_inj, pow_zero, div_one, Int.cast_inj]
      unfold word
      split
      · next signed => simp [signed]
      · next unsigned =>
          rw [or_iff_right unsigned]
          split at int <;> omega
  | succ k =>
      have pos : 0 < t.digits := by omega
      dsimp only
      rcases eq_or_lt_of_le t.digits_le with all | small
      · -- all digits are behind the point
        have nine : k = 9 := by omega
        subst nine
        have bounds := asInt_bounds data
        have part : (t.word data).tmod (10 ^ (9 + 1)) = t.word data :=
          tmod_of_natAbs_lt (by exact_mod_cast t.word_natAbs data)
        have digits := decimal_point_printD (asInt data) 9 (by omega) spaces
        rw [text_all all, part, List.cons_append]
        rcases lt_or_ge (asInt data) 0 with negative | high
        · rw [Scan.decimal_point_minus negative]
          have far : t.word data < 0 ∨ 2 ^ 31 ≤ t.word data := by
            unfold word
            split at int <;> split <;> omega
          apply iff_of_false (Option.some_ne_none _).symm
          omega
        · rw [t.word_of_nonneg high, digits]
          omega
      · rw [t.text_point data pos small, eq, decimal_pointText (t.word data) k spaces]
        have below : k ≠ 9 := by omega
        simp only [below, false_implies, and_true]

theorem value_inj (t : FixedPoint) {data data' : UInt32} (h : t.value data = t.value data') :
    data = data' := by
  have scale : (10 : ℚ) ^ t.digits ≠ 0 := by positivity
  have word : t.word data = t.word data' := by exact_mod_cast (div_left_inj' scale).mp h
  unfold FixedPoint.word at word
  split at word
  · exact asInt_inj word
  · exact UInt32.toNat_inj.mp (by omega)

end FixedPoint

/-- No text is longer than its block; which ones are the number, and that these are all different. -/
theorem fixed_point_text (t : FixedPoint) (data : UInt32) :
    (∃ str text, dataString t.code data = .ret (some str) ∧ str.length = 15 ∧
      str.contents nul = some text) ∧
    (t.reading data = some (t.value data) ↔ t.Exact data) ∧
    ∀ data' : UInt32, t.Exact data → t.Exact data' → t.reading data = t.reading data' → data = data' := by
  refine ⟨?_, t.reading_eq_value data, fun data' exact exact' same => ?_⟩
  · obtain ⟨tail, -, -, str, call, size, contents⟩ := t.dataString_ret data
    exact ⟨str, _, call, size, contents⟩
  · rw [(t.reading_eq_value data).mpr exact, (t.reading_eq_value data').mpr exact'] at same
    exact t.value_inj (Option.some_inj.mp same)

theorem fixed_point_text_three_halves :
    (⟨false, 2, by decide⟩ : FixedPoint).reading 150 = some (3 / 2) ∧
      ∀ data, (⟨false, 2, by decide⟩ : FixedPoint).Exact data →
        (⟨false, 2, by decide⟩ : FixedPoint).reading 150 =
          (⟨false, 2, by decide⟩ : FixedPoint).reading data → 150 = data :=
  have exact : (⟨false, 2, by decide⟩ : FixedPoint).Exact 150 := Or.inr (by decide)
  ⟨((fixed_point_text ⟨false, 2, by decide⟩ 150).2.1.mpr exact).trans (by decide +kernel),
    fun data other => (fixed_point_text ⟨false, 2, by decide⟩ 150).2.2 data exact other⟩

/-- Hundredths: 105 is written 1.5. -/
theorem fixed_point_text_hundredths :
    ¬ ∀ (t : FixedPoint) (data : UInt32), t.reading data = some (t.value data) :=
  fun all => absurd (all ⟨false, 2, by decide⟩ 105) (by decide +kernel)

end Mio.Adapters
