import Mathlib.Data.List.Induction
import Mathlib.Data.Rat.Floor
import Mathlib.Tactic.Common
import Mio.Lib.Rounding

/-! Numbers as text in the C library: what `%lf` reads and how much it prints, in exact arithmetic. -/
namespace Mio.Scan

def isSpace (c : Char) : Bool := c = ' ' || 9 ≤ c.toNat && c.toNat ≤ 13

/-- The bytes of a text in UTF-8: its `strlen`. -/
def strlen (text : List Char) : ℕ := (text.map Char.utf8Size).sum

def sign : List Char → ℤ × List Char
  | '-' :: text => (-1, text)
  | '+' :: text => (1, text)
  | text => (1, text)

def digit (base : ℕ) (c : Char) : Option ℕ :=
  let value :=
    if '0' ≤ c ∧ c ≤ '9' then c.toNat - '0'.toNat
    else if 'a' ≤ c ∧ c ≤ 'f' then c.toNat - 'a'.toNat + 10
    else if 'A' ≤ c ∧ c ≤ 'F' then c.toNat - 'A'.toNat + 10
    else 16
  if value < base then some value else none

/-- The digits at the start of a text, and the rest. -/
def digits (base : ℕ) : List Char → List ℕ × List Char
  | [] => ([], [])
  | c :: text =>
      match digit base c with
      | none => ([], c :: text)
      | some d => (d :: (digits base text).1, (digits base text).2)

def value (base : ℕ) (ds : List ℕ) : ℕ := ds.foldl (fun n d => base * n + d) 0

/-- Digits with a point somewhere, or none. -/
def mantissa (base : ℕ) (text : List Char) : Option (ℚ × List Char) :=
  let (whole, rest) := digits base text
  let (part, rest) :=
    match rest with
    | '.' :: rest => digits base rest
    | rest => ([], rest)
  if whole ++ part = [] then none
  else some (value base (whole ++ part) / base ^ part.length, rest)

/-- The exponent behind its letter; without the letter it is zero. -/
def exponent (letter : Char) : List Char → Option ℤ
  | [] => some 0
  | c :: text =>
      if c.toLower = letter then
        let (s, rest) := sign text
        match digits 10 rest with
        | ([], _) => none
        | (ds, _) => some (s * value 10 ds)
      else some 0

/-- A decimal or a hexadecimal number without its sign. -/
def unsigned (text : List Char) : Option ℚ :=
  let (base, letter, scale, text) : ℕ × Char × ℚ × List Char :=
    match text with
    | '0' :: 'x' :: text => (16, 'p', 2, text)
    | '0' :: 'X' :: text => (16, 'p', 2, text)
    | text => (10, 'e', 10, text)
  (mantissa base text).bind fun (m, rest) => (exponent letter rest).map fun e => m * scale ^ e

/-- `sscanf` with `%lf`; an infinity or a NaN is not a number here. -/
def sscanf (text : List Char) : Option ℚ :=
  let (s, rest) := sign (text.dropWhile isSpace)
  (unsigned rest).map (s * ·)

/-- `atoll`: the nearest 64-bit value. -/
def atoll (text : List Char) : ℤ :=
  let (s, rest) := sign (text.dropWhile isSpace)
  max (-2 ^ 63) (min (2 ^ 63 - 1) (s * value 10 (digits 10 rest).1))

/-- `atoi`: what `strtol` gives, cut to an `int`. -/
def atoi (text : List Char) : ℤ := Int.bmod (atoll text) (2 ^ 32)

/-- A whole text as a decimal number; white space may follow. -/
def decimal (text : List Char) : Option ℚ :=
  let (s, rest) := sign text
  (mantissa 10 rest).bind fun (m, rest) => if rest.all isSpace then some (s * m) else none

def printD (x : ℤ) : List Char := (if x < 0 then ['-'] else []) ++ Nat.toDigits 10 x.natAbs

/-- What `sprintf` with `%lf` writes, without the null byte. -/
def sprintfLength (x : ℚ) : ℕ :=
  let whole := (roundEven (|x| * 10 ^ 6)).toNat / 10 ^ 6
  (if x < 0 then 1 else 0) + (Nat.toDigits 10 whole).length + 7

/-- As many digits as there are decimals. -/
def decimals (n : ℕ) : List Char :=
  List.replicate (6 - (Nat.toDigits 10 n).length) '0' ++ Nat.toDigits 10 n

/-- The millionths of a number, without its sign. -/
def millionths (x : ℚ) : ℕ := (roundEven (|x| * 10 ^ 6)).toNat

def printLf (x : ℚ) : List Char :=
  (if x < 0 then ['-'] else []) ++
    (Nat.toDigits 10 (millionths x / 10 ^ 6) ++ '.' :: decimals (millionths x % 10 ^ 6))

/-- A number to the six decimals that are written. -/
def rounded (x : ℚ) : ℚ := (if x < 0 then -1 else 1) * (millionths x / 10 ^ 6)

/-- The number that the first `n` characters with six decimals stand for. -/
def cut (n : ℕ) (x : ℚ) : Option ℚ :=
  let minus := if x < 0 then 1 else 0
  let whole := millionths x / 10 ^ 6
  let point := minus + (Nat.toDigits 10 whole).length
  let s : ℚ := if x < 0 then -1 else 1
  if n ≤ minus then none
  else if n ≤ point then some (s * (whole / 10 ^ (point - n) : ℕ))
  else
    let kept := min 6 (n - point - 1)
    some (s * ((millionths x / 10 ^ (6 - kept) : ℕ) / 10 ^ kept))

example : printLf (-12.5) = "-12.500000".toList := by decide +kernel

example : sscanf " -12.50e-1 ".toList = some (-5 / 4) := by decide +kernel

example : atoi " -404 not found".toList = -404 := by decide +kernel

example : sprintfLength (-12.5) = 10 := by decide +kernel

theorem digit_of_isDigit {c : Char} (h : c.isDigit) : digit 10 c = some (c.toNat - '0'.toNat) := by
  have bounds := Char.isDigit_iff_toNat.mp h
  have nine : '9'.toNat = '0'.toNat + 9 := by decide
  have range : '0' ≤ c ∧ c ≤ '9' := ⟨bounds.1, bounds.2⟩
  unfold digit
  rw [if_pos range]
  exact if_pos (by omega)

theorem digits_append {text : List Char} (all : ∀ c ∈ text, c.isDigit) {rest : List Char}
    (stops : ∀ c ∈ rest.head?, digit 10 c = none) :
    digits 10 (text ++ rest) = (text.map fun c => c.toNat - '0'.toNat, rest) := by
  induction text with
  | nil =>
      cases rest with
      | nil => rfl
      | cons c rest =>
          rw [List.nil_append, digits, stops c rfl]
          rfl
  | cons c text ih =>
      obtain ⟨first, others⟩ := List.forall_mem_cons.mp all
      rw [List.cons_append, digits, digit_of_isDigit first, ih others]
      rfl

theorem value_digits (text : List Char) :
    value 10 (text.map fun c => c.toNat - '0'.toNat) = Nat.ofDigitChars 10 text 0 := by
  rw [value, List.foldl_map]
  rfl

theorem value_append (ds es : List ℕ) :
    value 10 (ds ++ es) = value 10 ds * 10 ^ es.length + value 10 es := by
  induction es using List.reverseRecOn with
  | nil => simp [value]
  | append_singleton es e ih =>
      unfold value at ih ⊢
      rw [← List.append_assoc, List.foldl_append, ih, List.foldl_append, List.length_append,
        List.length_singleton, pow_succ]
      simp only [List.foldl_cons, List.foldl_nil]
      ring

theorem decimals_isDigit (n : ℕ) : ∀ c ∈ decimals n, c.isDigit := by
  intro c mem
  rcases List.mem_append.mp mem with zero | mem
  · rw [List.eq_of_mem_replicate zero]
    decide
  · exact Nat.isDigit_of_mem_toDigits (by decide) (by decide) mem

theorem decimals_length {n : ℕ} (small : n < 10 ^ 6) : (decimals n).length = 6 := by
  have fits : (Nat.toDigits 10 n).length ≤ 6 :=
    (Nat.length_toDigits_le_iff (by decide) (by decide)).mpr small
  rw [decimals, List.length_append, List.length_replicate]
  omega

theorem value_decimals (n : ℕ) : Nat.ofDigitChars 10 (decimals n) 0 = n := by
  have zeros : ∀ k, Nat.ofDigitChars 10 (List.replicate k '0' ++ Nat.toDigits 10 n) 0 = n := by
    intro k
    induction k with
    | zero => exact Nat.ofDigitChars_ten_toDigits
    | succ k ih =>
        rw [List.replicate_succ, List.cons_append, Nat.ofDigitChars_cons]
        exact ih
  exact zeros _

theorem ofDigitChars_lt {digits : List Char} (all : ∀ c ∈ digits, c.isDigit) :
    Nat.ofDigitChars 10 digits 0 < 10 ^ digits.length := by
  induction digits with
  | nil => simp
  | cons c digits ih =>
      have rest := ih fun d mem => all d (List.mem_cons_of_mem _ mem)
      have digit : c.toNat - '0'.toNat ≤ 9 := by
        have bounds := Char.isDigit_iff_toNat.mp (all c (List.mem_cons_self ..))
        have nine : '9'.toNat = '0'.toNat + 9 := by decide
        omega
      rw [Nat.ofDigitChars_cons, Nat.ofDigitChars_eq_ofDigitChars_zero, List.length_cons]
      calc 10 ^ digits.length * (10 * 0 + (c.toNat - '0'.toNat)) + Nat.ofDigitChars 10 digits 0
          < 10 ^ digits.length * (c.toNat - '0'.toNat) + 10 ^ digits.length := by
            simpa using rest
        _ = 10 ^ digits.length * (c.toNat - '0'.toNat + 1) := by rw [Nat.mul_succ]
        _ ≤ 10 ^ digits.length * 10 := Nat.mul_le_mul_left _ (by omega)
        _ = 10 ^ (digits.length + 1) := (Nat.pow_succ ..).symm

theorem mantissa_point {whole part rest : List Char} (left : ∀ c ∈ whole, c.isDigit)
    (right : ∀ c ∈ part, c.isDigit) (filled : whole ++ part ≠ [])
    (stops : ∀ c ∈ rest.head?, digit 10 c = none) :
    mantissa 10 (whole ++ '.' :: (part ++ rest)) =
      some (((Nat.ofDigitChars 10 whole 0 * 10 ^ part.length + Nat.ofDigitChars 10 part 0 : ℕ) : ℚ) /
        10 ^ part.length, rest) := by
  have point : ∀ c ∈ ('.' :: (part ++ rest)).head?, digit 10 c = none := by
    rintro c ⟨⟩
    decide
  have some : whole.map (fun c => c.toNat - '0'.toNat) ++ part.map (fun c => c.toNat - '0'.toNat) ≠ [] := by
    rw [← List.map_append]
    exact fun none => filled (List.map_eq_nil_iff.mp none)
  have number : value 10 (whole.map (fun c => c.toNat - '0'.toNat) ++
      part.map (fun c => c.toNat - '0'.toNat)) =
      Nat.ofDigitChars 10 whole 0 * 10 ^ part.length + Nat.ofDigitChars 10 part 0 := by
    rw [value_append, value_digits, value_digits, List.length_map]
  unfold mantissa
  rw [digits_append left point]
  simp only [digits_append right stops]
  rw [if_neg some, number, List.length_map]
  norm_num

theorem mantissa_whole {whole rest : List Char} (all : ∀ c ∈ whole, c.isDigit) (filled : whole ≠ [])
    (stops : ∀ c ∈ rest.head?, digit 10 c = none ∧ c ≠ '.') :
    mantissa 10 (whole ++ rest) = some ((Nat.ofDigitChars 10 whole 0 : ℚ), rest) := by
  have some : whole.map (fun c => c.toNat - '0'.toNat) ++ [] ≠ [] := by
    rw [List.append_nil]
    exact fun none => filled (List.map_eq_nil_iff.mp none)
  have plain : (match rest with
      | '.' :: rest => digits 10 rest
      | rest => ([], rest)) = ([], rest) := by
    split
    · exact ((stops '.' rfl).2 rfl).elim
    · rfl
  unfold mantissa
  rw [digits_append all fun c mem => (stops c mem).1]
  simp only [plain]
  rw [if_neg some, List.append_nil, value_digits]
  norm_num

theorem digit_of_lt {c : Char} (low : c.toNat < 48) : digit 10 c = none := by
  have no : ∀ d : Char, 48 ≤ d.toNat → ∀ e, ¬ (d ≤ c ∧ c ≤ e) := fun d high e range => by
    have le : d.toNat ≤ c.toNat := range.1
    omega
  unfold digit
  simp only [if_neg (no '0' (by decide) '9'), if_neg (no 'a' (by decide) 'f'),
    if_neg (no 'A' (by decide) 'F')]
  rfl

theorem toNat_of_isSpace {c : Char} (space : isSpace c) : c.toNat < 48 := by
  unfold isSpace at space
  rcases Bool.or_eq_true_iff.mp space with blank | control
  · rw [of_decide_eq_true blank]
    decide
  · have high := of_decide_eq_true (Bool.and_eq_true_iff.mp control).2
    omega

theorem sign_append {minus : Prop} [Decidable minus] {text : List Char}
    (plain : ∀ c ∈ text.head?, c ≠ '-' ∧ c ≠ '+') :
    sign ((if minus then ['-'] else []) ++ text) = (if minus then -1 else 1, text) := by
  by_cases h : minus
  · rw [if_pos h, if_pos h]
    rfl
  · rw [if_neg h, if_neg h, List.nil_append]
    unfold sign
    split
    · exact absurd rfl (plain '-' rfl).1
    · exact absurd rfl (plain '+' rfl).2
    · rfl

theorem head_plain {whole rest : List Char} (all : ∀ c ∈ whole, c.isDigit)
    (stops : ∀ c ∈ rest.head?, c ≠ '-' ∧ c ≠ '+') : ∀ c ∈ (whole ++ rest).head?, c ≠ '-' ∧ c ≠ '+' := by
  cases whole with
  | nil => exact stops
  | cons d whole =>
      rintro c ⟨⟩
      have digit := all d List.mem_cons_self
      constructor
      · rintro rfl
        exact absurd digit (by decide)
      · rintro rfl
        exact absurd digit (by decide)

theorem head_nil {stops : Char → Prop} : ∀ c ∈ ([] : List Char).head?, stops c := by
  rintro c ⟨⟩

theorem isDigit_nil : ∀ c ∈ ([] : List Char), c.isDigit := fun _ mem => by
  cases mem

section Decimal

variable (minus : Prop) [Decidable minus] {whole part : List Char} (left : ∀ c ∈ whole, c.isDigit)

include left

theorem decimal_point {tail : List Char} (right : ∀ c ∈ part, c.isDigit) (filled : part ≠ [])
    (spaces : ∀ c ∈ tail, isSpace c) :
    decimal ((if minus then ['-'] else []) ++ (whole ++ '.' :: (part ++ tail))) =
      some ((if minus then -1 else 1) * (((Nat.ofDigitChars 10 whole 0 * 10 ^ part.length +
        Nat.ofDigitChars 10 part 0 : ℕ) : ℚ) / 10 ^ part.length)) := by
  have stops : ∀ c ∈ tail.head?, digit 10 c = none := fun c mem =>
    digit_of_lt (toNat_of_isSpace (spaces c (List.mem_of_mem_head? mem)))
  have filled : whole ++ part ≠ [] := fun none => filled (List.append_eq_nil_iff.mp none).2
  unfold decimal
  rw [sign_append (head_plain left (by rintro c ⟨⟩; decide))]
  dsimp only
  rw [mantissa_point left right filled stops]
  dsimp only [Option.bind_some]
  rw [if_pos (List.all_eq_true.mpr spaces)]
  split <;> norm_num

/-- A second sign ends the number. -/
theorem decimal_minus (rest : List Char) :
    decimal ((if minus then ['-'] else []) ++ (whole ++ '.' :: '-' :: rest)) = none := by
  have stops : ∀ c ∈ ('-' :: rest).head?, digit 10 c = none := by
    rintro c ⟨⟩
    decide
  unfold decimal
  rw [sign_append (head_plain left (by rintro c ⟨⟩; decide))]
  dsimp only
  cases whole with
  | nil => rfl
  | cons c whole =>
      have read := mantissa_point left isDigit_nil (by simp) stops
      rw [List.nil_append] at read
      rw [read]
      rfl

theorem decimal_whole (filled : whole ≠ []) :
    decimal ((if minus then ['-'] else []) ++ whole) =
      some ((if minus then -1 else 1) * (Nat.ofDigitChars 10 whole 0 : ℚ)) := by
  have plain := head_plain left head_nil
  have read := mantissa_whole left filled head_nil
  rw [List.append_nil] at plain read
  unfold decimal
  rw [sign_append plain]
  dsimp only
  rw [read]
  dsimp only [Option.bind_some]
  rw [if_pos List.all_nil]
  split <;> norm_num

end Decimal

theorem toDigits_isDigit (n : ℕ) : ∀ c ∈ Nat.toDigits 10 n, c.isDigit := fun _ mem =>
  Nat.isDigit_of_mem_toDigits (by decide) (by decide) mem

theorem printD_natCast (n : ℕ) : printD n = Nat.toDigits 10 n := by
  rw [printD, if_neg (by omega), List.nil_append, Int.natAbs_natCast]

theorem sign_mul_natAbs (x : ℤ) : (if x < 0 then -1 else 1) * (x.natAbs : ℚ) = x := by
  have abs : ((x.natAbs : ℤ) : ℚ) = (|x| : ℤ) := by rw [Int.natCast_natAbs]
  rw [← Int.cast_natCast, abs]
  split
  · next negative => rw [abs_of_neg negative]; push_cast; ring
  · next high => rw [abs_of_nonneg (by omega), one_mul]

/-- Two numbers with a point between them: the fraction is out of its own number of digits. -/
theorem decimal_printD_point (x : ℤ) (f : ℕ) {tail : List Char} (spaces : ∀ c ∈ tail, isSpace c) :
    decimal (printD x ++ '.' :: (printD f ++ tail)) =
      some ((if x < 0 then -1 else 1) * (x.natAbs + (f : ℚ) / 10 ^ (Nat.toDigits 10 f).length)) := by
  have read := decimal_point (x < 0) (toDigits_isDigit x.natAbs) (toDigits_isDigit f)
    Nat.toDigits_ne_nil spaces
  rw [printD_natCast, printD, List.append_assoc, read, Nat.ofDigitChars_ten_toDigits,
    Nat.ofDigitChars_ten_toDigits]
  congr 2
  push_cast
  field_simp

theorem decimal_printD_minus (x : ℤ) {f : ℤ} (negative : f < 0) (tail : List Char) :
    decimal (printD x ++ '.' :: (printD f ++ tail)) = none := by
  have minus := decimal_minus (x < 0) (toDigits_isDigit x.natAbs)
    (Nat.toDigits 10 f.natAbs ++ tail)
  rw [printD, printD, if_pos negative, List.append_assoc]
  exact minus

theorem decimal_point_printD (f : ℕ) {tail : List Char} (spaces : ∀ c ∈ tail, isSpace c) :
    decimal ('.' :: (printD f ++ tail)) = some ((f : ℚ) / 10 ^ (Nat.toDigits 10 f).length) := by
  have read := decimal_point False isDigit_nil
    (toDigits_isDigit f) Nat.toDigits_ne_nil spaces
  rw [printD_natCast]
  refine read.trans ?_
  rw [if_neg not_false, one_mul, Nat.ofDigitChars_ten_toDigits]
  congr 2
  push_cast
  change ((0 : ℕ) : ℚ) * _ + _ = _
  norm_num

theorem decimal_point_minus {f : ℤ} (negative : f < 0) (tail : List Char) :
    decimal ('.' :: (printD f ++ tail)) = none := by
  have minus := decimal_minus False isDigit_nil
    (Nat.toDigits 10 f.natAbs ++ tail)
  rw [printD, if_pos negative]
  exact minus

theorem decimal_printD (x : ℤ) : decimal (printD x) = some (x : ℚ) := by
  have read := decimal_whole (x < 0) (toDigits_isDigit x.natAbs) Nat.toDigits_ne_nil
  rw [printD, read, Nat.ofDigitChars_ten_toDigits, sign_mul_natAbs]

/-- The fraction has all its digits, or none that count. -/
theorem fraction_eq_iff {f k : ℕ} (lt : f < 10 ^ (k + 1)) :
    (f : ℚ) / 10 ^ (Nat.toDigits 10 f).length = f / 10 ^ (k + 1) ↔ f = 0 ∨ 10 ^ k ≤ f := by
  have short : (Nat.toDigits 10 f).length ≤ k + 1 :=
    (Nat.length_toDigits_le_iff (by decide) k.succ_pos).mpr lt
  have pos : 0 < (Nat.toDigits 10 f).length := Nat.length_toDigits_pos
  rcases f.eq_zero_or_pos with rfl | filled
  · simp
  have same : (f : ℚ) / 10 ^ (Nat.toDigits 10 f).length = f / 10 ^ (k + 1) ↔
      (Nat.toDigits 10 f).length = k + 1 := by
    rw [div_eq_mul_inv, div_eq_mul_inv, mul_right_inj' (by exact_mod_cast filled.ne'), inv_inj]
    exact pow_right_inj₀ (by norm_num) (by norm_num)
  rw [same, or_iff_right filled.ne']
  cases k with
  | zero => exact ⟨fun _ => filled, fun _ => by omega⟩
  | succ k =>
      have digits := Nat.length_toDigits_le_iff (b := 10) (n := f) (k := k + 1) (by decide) k.succ_pos
      omega

theorem unsigned_decimal {text : List Char} (plain : ∀ d ∈ text.tail.head?, d ≠ 'x' ∧ d ≠ 'X') :
    unsigned text =
      (mantissa 10 text).bind fun p => (exponent 'e' p.2).map fun e => p.1 * 10 ^ e := by
  unfold unsigned
  split
  next base letter scale text eq =>
    split at eq
    · exact absurd rfl (plain 'x' rfl).1
    · exact absurd rfl (plain 'X' rfl).2
    · cases eq
      rfl

theorem second_plain {text rest : List Char} (all : ∀ c ∈ text, c.isDigit) (filled : text ≠ [])
    (stops : ∀ c ∈ rest.head?, c ≠ 'x' ∧ c ≠ 'X') :
    ∀ d ∈ (text ++ rest).tail.head?, d ≠ 'x' ∧ d ≠ 'X' := by
  match text, filled with
  | [c], _ => exact stops
  | c :: d :: text, _ =>
      rintro e ⟨⟩
      have isDigit := all d (by simp)
      constructor
      · rintro rfl
        exact absurd isDigit (by decide)
      · rintro rfl
        exact absurd isDigit (by decide)

theorem unsigned_of_mantissa {text rest : List Char} {x : ℚ} (all : ∀ c ∈ text, c.isDigit)
    (filled : text ≠ []) (stops : ∀ c ∈ rest.head?, c ≠ 'x' ∧ c ≠ 'X')
    (read : mantissa 10 (text ++ rest) = some (x, [])) : unsigned (text ++ rest) = some x := by
  rw [unsigned_decimal (second_plain all filled stops), read]
  change some (x * 10 ^ (0 : ℤ)) = _
  rw [zpow_zero, mul_one]

theorem sscanf_of_sign {text rest : List Char} {s : ℤ}
    (signed : sign (text.dropWhile isSpace) = (s, rest)) :
    sscanf text = (unsigned rest).map ((s : ℚ) * ·) := by
  unfold sscanf
  rw [signed]

theorem sign_digit {c : Char} (isDigit : c.isDigit) (text : List Char) :
    sign ((c :: text).dropWhile isSpace) = (1, c :: text) := by
  have space : isSpace c = false := by
    have bounds := Char.isDigit_iff_toNat.mp isDigit
    have zero : '0'.toNat = 48 := by decide
    have blank : c ≠ ' ' := by
      rintro rfl
      exact absurd isDigit (by decide)
    simp [isSpace, blank]
    omega
  rw [List.dropWhile_cons_of_neg (by simp [space])]
  unfold sign
  split
  · next shape =>
      rw [(List.cons.inj shape).1] at isDigit
      exact absurd isDigit (by decide)
  · next shape =>
      rw [(List.cons.inj shape).1] at isDigit
      exact absurd isDigit (by decide)
  · rfl

theorem sign_printD (x : ℤ) : sign ((printD x).dropWhile isSpace) =
    (if x < 0 then -1 else 1, Nat.toDigits 10 x.natAbs) := by
  rw [printD]
  split
  · rfl
  · cases shape : Nat.toDigits 10 x.natAbs with
    | nil => exact absurd shape Nat.toDigits_ne_nil
    | cons c text =>
        have all := toDigits_isDigit x.natAbs
        rw [shape] at all
        exact sign_digit (all c List.mem_cons_self) text

/-- An `int` is read as it is printed. -/
theorem atoi_printD {x : ℤ} (low : -2 ^ 31 ≤ x) (high : x < 2 ^ 31) : atoi (printD x) = x := by
  have read := digits_append (toDigits_isDigit x.natAbs) head_nil
  rw [List.append_nil] at read
  have number : (if x < 0 then -1 else 1) * (x.natAbs : ℤ) = x := by
    split <;> omega
  have fits : max (-2 ^ 63) (min (2 ^ 63 - 1) x) = x := by omega
  rw [atoi, atoll, sign_printD]
  dsimp only
  rw [read, value_digits, Nat.ofDigitChars_ten_toDigits, number, fits]
  refine Int.bmod_eq_of_le ?_ ?_ <;> omega

theorem sscanf_of_mantissa (minus : Prop) [Decidable minus] {text rest : List Char} {x : ℚ}
    (all : ∀ c ∈ text, c.isDigit) (filled : text ≠ []) (stops : ∀ c ∈ rest.head?, c ≠ 'x' ∧ c ≠ 'X')
    (read : mantissa 10 (text ++ rest) = some (x, [])) :
    sscanf ((if minus then ['-'] else []) ++ (text ++ rest)) = some ((if minus then -1 else 1) * x) := by
  have number := unsigned_of_mantissa all filled stops read
  cases text with
  | nil => exact absurd rfl filled
  | cons c text =>
      have plain := sign_digit (all c List.mem_cons_self) (text ++ rest)
      rw [List.cons_append] at number ⊢
      by_cases h : minus
      · have signed : sign ((['-'] ++ c :: (text ++ rest)).dropWhile isSpace) = (-1, c :: (text ++ rest)) :=
          rfl
        rw [if_pos h, if_pos h, sscanf_of_sign signed, number]
        simp
      · rw [if_neg h, if_neg h, List.nil_append, sscanf_of_sign plain, number]
        simp

theorem sscanf_printD (n : ℕ) : sscanf (printD n) = some (n : ℚ) := by
  have read := mantissa_whole (toDigits_isDigit n) Nat.toDigits_ne_nil head_nil
  have number := sscanf_of_mantissa False (toDigits_isDigit n) Nat.toDigits_ne_nil head_nil read
  rwa [if_neg not_false, if_neg not_false, one_mul, List.nil_append, List.append_nil,
    Nat.ofDigitChars_ten_toDigits, ← printD_natCast] at number

theorem sscanf_printD_point (n f : ℕ) :
    sscanf (printD n ++ '.' :: printD f) = some (n + (f : ℚ) / 10 ^ (Nat.toDigits 10 f).length) := by
  have filled : Nat.toDigits 10 n ++ Nat.toDigits 10 f ≠ [] := fun none =>
    Nat.toDigits_ne_nil (List.append_eq_nil_iff.mp none).1
  have read := mantissa_point (toDigits_isDigit n) (toDigits_isDigit f) filled head_nil
  have number := sscanf_of_mantissa False (toDigits_isDigit n) Nat.toDigits_ne_nil
    (by rintro c ⟨⟩; decide) read
  rw [if_neg not_false, if_neg not_false, one_mul, List.nil_append, List.append_nil,
    Nat.ofDigitChars_ten_toDigits, Nat.ofDigitChars_ten_toDigits] at number
  rw [printD_natCast, printD_natCast, number]
  congr 1
  push_cast
  field_simp

/-- The digits cut off a number divide it. -/
theorem ofDigitChars_take {ds : List Char} (all : ∀ c ∈ ds, c.isDigit) (k : ℕ) :
    Nat.ofDigitChars 10 (ds.take k) 0 = Nat.ofDigitChars 10 ds 0 / 10 ^ (ds.length - k) := by
  have rest := ofDigitChars_lt fun c mem => all c (List.mem_of_mem_drop (i := k) mem)
  rw [List.length_drop] at rest
  have split : Nat.ofDigitChars 10 ds 0 = 10 ^ (ds.length - k) * Nat.ofDigitChars 10 (ds.take k) 0 +
      Nat.ofDigitChars 10 (ds.drop k) 0 := by
    rw [← List.length_drop, ← Nat.ofDigitChars_eq_ofDigitChars_zero, ← Nat.ofDigitChars_append,
      List.take_append_drop]
  rw [split, Nat.mul_add_div (by positivity), Nat.div_eq_of_lt rest, Nat.add_zero]

section Cut

variable (minus : Prop) [Decidable minus] {whole part : List Char} (left : ∀ c ∈ whole, c.isDigit)

include left

theorem sscanf_take_whole {m : ℕ} (some : 0 < m) (inside : m ≤ whole.length) (rest : List Char) :
    sscanf ((if minus then ['-'] else []) ++ (whole ++ rest).take m) = .some ((if minus then -1 else 1) *
      (Nat.ofDigitChars 10 whole 0 / 10 ^ (whole.length - m) : ℕ)) := by
  have digits : ∀ c ∈ whole.take m, c.isDigit := fun c mem => left c (List.mem_of_mem_take mem)
  have filled : whole.take m ≠ [] := by
    rw [ne_eq, List.take_eq_nil_iff, ← List.length_eq_zero_iff]
    omega
  have read := sscanf_of_mantissa minus digits filled head_nil (mantissa_whole digits filled head_nil)
  rw [List.append_nil, ofDigitChars_take left] at read
  rw [List.take_append_of_le_length inside, read]

/-- A number that is cut behind its point. -/
theorem sscanf_take_point (filled : whole ≠ []) (right : ∀ c ∈ part, c.isDigit) (k : ℕ) :
    sscanf ((if minus then ['-'] else []) ++ (whole ++ '.' :: part).take (whole.length + (k + 1))) =
      some ((if minus then -1 else 1) * (((Nat.ofDigitChars 10 whole 0 * 10 ^ min k part.length +
        Nat.ofDigitChars 10 part 0 / 10 ^ (part.length - k) : ℕ) : ℚ) / 10 ^ min k part.length)) := by
  have digits : ∀ c ∈ part.take k, c.isDigit := fun c mem => right c (List.mem_of_mem_take mem)
  have some : whole ++ part.take k ≠ [] := fun none => filled (List.append_eq_nil_iff.mp none).1
  have stops : ∀ c ∈ ('.' :: (part.take k ++ [])).head?, c ≠ 'x' ∧ c ≠ 'X' := by
    rintro c ⟨⟩
    decide
  have read := sscanf_of_mantissa minus left filled stops (mantissa_point left digits some head_nil)
  rw [List.append_nil, ofDigitChars_take right, List.length_take] at read
  rw [List.take_length_add_append, List.take_succ_cons, read]

end Cut

/-- What is read of a number that is written with six decimals and cut. -/
theorem sscanf_take_printLf (n : ℕ) (x : ℚ) : sscanf ((printLf x).take n) = cut n x := by
  have small : millionths x % 10 ^ 6 < 10 ^ 6 := Nat.mod_lt _ (by decide)
  have left := toDigits_isDigit (millionths x / 10 ^ 6)
  have right := decimals_isDigit (millionths x % 10 ^ 6)
  have minus : (if x < 0 then ['-'] else []).length = if x < 0 then 1 else 0 := by
    split <;> rfl
  unfold printLf cut
  dsimp only
  by_cases none : n ≤ if x < 0 then 1 else 0
  · rw [if_pos none, List.take_append_of_le_length (by rwa [minus])]
    split
    · rw [if_pos ‹_›] at none
      rcases Nat.le_one_iff_eq_zero_or_eq_one.mp none with rfl | rfl <;> rfl
    · rw [List.take_nil]
      rfl
  rw [if_neg none, List.take_append, List.take_of_length_le (by omega), minus]
  by_cases inside : n ≤ (if x < 0 then 1 else 0) + (Nat.toDigits 10 (millionths x / 10 ^ 6)).length
  · have cut : (Nat.toDigits 10 (millionths x / 10 ^ 6)).length - (n - if x < 0 then 1 else 0) =
        (if x < 0 then 1 else 0) + (Nat.toDigits 10 (millionths x / 10 ^ 6)).length - n := by omega
    rw [if_pos inside, sscanf_take_whole _ left (by omega) (by omega), Nat.ofDigitChars_ten_toDigits, cut]
  · obtain ⟨k, rfl⟩ : ∃ k, n = (if x < 0 then 1 else 0) +
        ((Nat.toDigits 10 (millionths x / 10 ^ 6)).length + (k + 1)) :=
      ⟨n - (if x < 0 then 1 else 0) - (Nat.toDigits 10 (millionths x / 10 ^ 6)).length - 1, by omega⟩
    rw [if_neg inside, Nat.add_sub_cancel_left, sscanf_take_point _ left Nat.toDigits_ne_nil right,
      Nat.ofDigitChars_ten_toDigits, value_decimals, decimals_length small]
    have kept : (if x < 0 then 1 else 0) + ((Nat.toDigits 10 (millionths x / 10 ^ 6)).length + (k + 1)) -
        ((if x < 0 then 1 else 0) + (Nat.toDigits 10 (millionths x / 10 ^ 6)).length) - 1 = k := by omega
    have digits : millionths x / 10 ^ 6 * 10 ^ min k 6 + millionths x % 10 ^ 6 / 10 ^ (6 - k) =
        millionths x / 10 ^ (6 - min k 6) := by
      have split : 10 ^ 6 = 10 ^ (6 - min k 6) * 10 ^ min k 6 := by
        rw [← pow_add, Nat.sub_add_cancel (min_le_right k 6)]
      have behind : 6 - k = 6 - min k 6 := by omega
      rw [behind]
      conv_rhs =>
        rw [← Nat.div_add_mod (millionths x) (10 ^ 6)]
      rw [split, Nat.mul_assoc, Nat.mul_add_div (by positivity), Nat.mul_comm (10 ^ min k 6)]
    rw [kept, min_comm 6 k, digits]

/-- All characters stand for the number to six decimals. -/
theorem cut_of_length_le {n : ℕ} {x : ℚ} (whole : (printLf x).length ≤ n) : cut n x = some (rounded x) := by
  have small : millionths x % 10 ^ 6 < 10 ^ 6 := Nat.mod_lt _ (by decide)
  have length : (printLf x).length =
      (if x < 0 then 1 else 0) + ((Nat.toDigits 10 (millionths x / 10 ^ 6)).length + 7) := by
    rw [printLf, List.length_append, List.length_append, List.length_cons, decimals_length small]
    split <;> rfl
  have all : min 6 (n - ((if x < 0 then 1 else 0) + (Nat.toDigits 10 (millionths x / 10 ^ 6)).length) - 1) =
      6 := by omega
  unfold cut rounded
  dsimp only
  rw [if_neg (by omega), if_neg (by omega), all]
  norm_num

end Mio.Scan
