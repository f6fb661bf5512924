import Mathlib.Algebra.Group.Nat.Defs
import Mathlib.Data.List.GetD
import Mathlib.Logic.Function.Iterate
import Mathlib.Tactic.Common

/-! Cyclic redundancy checks with the lowest bit first, for registers of any width: the register is a
linear function of its start and of the bits, so what a change of the bits does to it does not depend
on them. -/
namespace Mio.Crc

section
variable {w : ℕ} (p : BitVec w)

/-- One step of the division by the polynomial `p`. -/
def shift (r : BitVec w) : BitVec w := (r >>> 1) ^^^ if r.getLsbD 0 then p else 0#w

def bit (b : Bool) : BitVec w := (BitVec.ofBool b).setWidth w

def feed (r : BitVec w) (b : Bool) : BitVec w := shift p (r ^^^ bit b)

def run (r : BitVec w) (bits : List Bool) : BitVec w := bits.foldl (feed p) r

/-- Bits from the lowest on. -/
def word : List Bool → BitVec w
  | [] => 0#w
  | b :: bits => bit b ^^^ (word bits <<< 1)

theorem getLsbD_shift (r : BitVec w) (i : ℕ) :
    (shift p r).getLsbD i = (r.getLsbD (1 + i) ^^ (r.getLsbD 0 && p.getLsbD i)) := by
  rw [shift, BitVec.getLsbD_xor, BitVec.getLsbD_ushiftRight]
  cases r.getLsbD 0 <;> simp

theorem getLsbD_bit (b : Bool) (i : ℕ) : (bit b : BitVec w).getLsbD i = (decide (i < w) && decide (i = 0) && b) := by
  rw [bit, BitVec.getLsbD_setWidth, BitVec.getLsbD_ofBool]
  cases decide (i < w) <;> cases decide (i = 0) <;> simp

theorem shift_xor (x y : BitVec w) : shift p (x ^^^ y) = shift p x ^^^ shift p y := by
  apply BitVec.eq_of_getLsbD_eq
  intro i _
  simp only [getLsbD_shift, BitVec.getLsbD_xor]
  cases x.getLsbD (1 + i) <;> cases y.getLsbD (1 + i) <;> cases x.getLsbD 0 <;> cases y.getLsbD 0 <;>
    cases p.getLsbD i <;> rfl

theorem bit_xor (a b : Bool) : (bit (a ^^ b) : BitVec w) = bit a ^^^ bit b := by
  apply BitVec.eq_of_getLsbD_eq
  intro i _
  simp only [getLsbD_bit, BitVec.getLsbD_xor]
  cases decide (i < w) <;> cases decide (i = 0) <;> cases a <;> cases b <;> rfl

theorem bit_false : (bit false : BitVec w) = 0#w := by
  apply BitVec.eq_of_getLsbD_eq
  intro i _
  simp [getLsbD_bit]

theorem xor_exchange (a b c d : BitVec w) : (a ^^^ b) ^^^ (c ^^^ d) = (a ^^^ c) ^^^ (b ^^^ d) := by
  rw [BitVec.xor_assoc, ← BitVec.xor_assoc b, BitVec.xor_comm b c, BitVec.xor_assoc c, ← BitVec.xor_assoc]

theorem run_xor (r s : BitVec w) {a b : List Bool} (same : a.length = b.length) :
    run p (r ^^^ s) (List.zipWith (· ^^ ·) a b) = run p r a ^^^ run p s b := by
  induction a generalizing r s b with
  | nil =>
      cases b with
      | nil => rfl
      | cons c b => cases same
  | cons x a ih =>
      cases b with
      | nil => cases same
      | cons y b =>
          have next := ih (feed p r x) (feed p s y) (Nat.succ.inj same)
          have step : feed p (r ^^^ s) (x ^^ y) = feed p r x ^^^ feed p s y := by
            rw [feed, feed, feed, bit_xor, xor_exchange, shift_xor]
          rw [List.zipWith_cons_cons, run, List.foldl_cons, step]
          exact next

theorem run_append (r : BitVec w) (a b : List Bool) : run p r (a ++ b) = run p (run p r a) b :=
  List.foldl_append

theorem run_zeros (r : BitVec w) (n : ℕ) : run p r (List.replicate n false) = (shift p)^[n] r := by
  induction n generalizing r with
  | zero => rfl
  | succ n ih =>
      have step : feed p r false = shift p r := by rw [feed, bit_false, BitVec.xor_zero]
      rw [List.replicate_succ, run, List.foldl_cons, step]
      exact ih _

theorem shifts_xor (n : ℕ) (x y : BitVec w) :
    (shift p)^[n] (x ^^^ y) = (shift p)^[n] x ^^^ (shift p)^[n] y := by
  induction n generalizing x y with
  | zero => rfl
  | succ n ih => rw [Function.iterate_succ_apply, Function.iterate_succ_apply, Function.iterate_succ_apply,
      shift_xor, ih]

theorem shifts_zero (n : ℕ) : (shift p)^[n] 0#w = 0#w := by
  have same := shifts_xor p n 0#w 0#w
  rwa [BitVec.xor_self, BitVec.xor_self] at same

theorem eq_zero_of_shift (top : p.getLsbD (w - 1) = true) {r : BitVec w} (zero : shift p r = 0#w) : r = 0#w := by
  have bits : ∀ i, (r.getLsbD (1 + i) ^^ (r.getLsbD 0 && p.getLsbD i)) = false := by
    intro i
    rw [← getLsbD_shift, zero, BitVec.getLsbD_zero]
  have lowest : r.getLsbD 0 = false := by
    have last := bits (w - 1)
    rw [BitVec.getLsbD_of_ge r _ (by omega), top] at last
    simpa using last
  apply BitVec.eq_of_getLsbD_eq
  intro i _
  rw [BitVec.getLsbD_zero]
  cases i with
  | zero => exact lowest
  | succ i =>
      have here := bits i
      rw [lowest, Nat.add_comm] at here
      simpa using here

theorem eq_zero_of_shifts (top : p.getLsbD (w - 1) = true) (n : ℕ) {r : BitVec w}
    (zero : (shift p)^[n] r = 0#w) : r = 0#w := by
  induction n with
  | zero => exact zero
  | succ n ih =>
      rw [Function.iterate_succ_apply'] at zero
      exact ih (eq_zero_of_shift p top zero)

theorem getLsbD_word (bits : List Bool) {i : ℕ} (h : i < w) :
    (word bits : BitVec w).getLsbD i = bits.getD i false := by
  induction bits generalizing i with
  | nil => simp [word]
  | cons b bits ih =>
      rw [word, BitVec.getLsbD_xor, BitVec.getLsbD_shiftLeft, getLsbD_bit]
      cases i with
      | zero => simp [h]
      | succ i => simp [h, ih (Nat.lt_of_succ_lt h)]

theorem word_ne_zero {bits : List Bool} (short : bits.length ≤ w) (some : true ∈ bits) :
    (word bits : BitVec w) ≠ 0#w := by
  intro zero
  obtain ⟨i, h, eq⟩ := List.mem_iff_getElem.mp some
  have here := getLsbD_word bits (w := w) (i := i) (by omega)
  rw [zero, BitVec.getLsbD_zero, List.getD_eq_getElem _ _ h, eq] at here
  cases here

/-- A bit that is fed later might as well be there from the start. -/
theorem shift_up (x y : BitVec w) (clear : y.getLsbD (w - 1) = false) :
    shift p (x ^^^ (y <<< 1)) = shift p x ^^^ y := by
  apply BitVec.eq_of_getLsbD_eq
  intro i h
  simp only [getLsbD_shift, BitVec.getLsbD_xor, BitVec.getLsbD_shiftLeft]
  have low : (decide (0 < w) && !decide (0 < 1) && y.getLsbD (0 - 1)) = false := by simp
  rw [low, Bool.xor_false]
  by_cases inside : 1 + i < w
  · have here : (decide (1 + i < w) && !decide (1 + i < 1) && y.getLsbD (1 + i - 1)) = y.getLsbD i := by
      simp [inside]
    rw [here]
    cases x.getLsbD (1 + i) <;> cases y.getLsbD i <;> cases x.getLsbD 0 <;> cases p.getLsbD i <;> rfl
  · have last : i = w - 1 := by omega
    have here : (decide (1 + i < w) && !decide (1 + i < 1) && y.getLsbD (1 + i - 1)) = false := by
      simp [inside]
    rw [here, last, clear, Bool.xor_false, Bool.xor_false]

theorem run_eq_shifts (r : BitVec w) {bits : List Bool} (short : bits.length ≤ w) :
    run p r bits = (shift p)^[bits.length] (r ^^^ word bits) := by
  induction bits generalizing r with
  | nil =>
      change r = r ^^^ 0#w
      rw [BitVec.xor_zero]
  | cons b bits ih =>
      have few : bits.length < w := short
      have clear : (word bits : BitVec w).getLsbD (w - 1) = false := by
        rw [getLsbD_word bits (by omega), List.getD_eq_default]
        omega
      rw [run, List.foldl_cons]
      refine (ih (feed p r b) (Nat.le_of_lt few)).trans ?_
      rw [List.length_cons, Function.iterate_succ_apply, word, ← BitVec.xor_assoc, shift_up p _ _ clear]
      rfl

/-- Some bits are set, and all of them lie within `n` places. -/
def Burst (n : ℕ) (e : List Bool) : Prop :=
  ∃ a b c, e = List.replicate a false ++ (b ++ List.replicate c false) ∧ b.length ≤ n ∧ true ∈ b

/-- No burst within the width of the register leaves it as it was. -/
theorem run_burst (top : p.getLsbD (w - 1) = true) {e : List Bool} (burst : Burst w e) : run p 0#w e ≠ 0#w := by
  obtain ⟨a, b, c, rfl, short, some⟩ := burst
  intro zero
  rw [run_append, run_append, run_zeros, run_zeros, shifts_zero, run_eq_shifts p 0#w short, BitVec.zero_xor] at zero
  have word := eq_zero_of_shifts p top _ (eq_zero_of_shifts p top _ zero)
  exact word_ne_zero short some word

/-- A register without low bits moves down. -/
theorem shifts_high (n : ℕ) {x : BitVec w} (clear : ∀ i < n, x.getLsbD i = false) :
    (shift p)^[n] x = x >>> n := by
  induction n with
  | zero => exact (BitVec.ushiftRight_zero x).symm
  | succ n ih =>
      rw [Function.iterate_succ_apply', ih fun i h => clear i (Nat.lt_succ_of_lt h), shift,
        BitVec.getLsbD_ushiftRight, Nat.add_zero, clear _ (Nat.lt_succ_self n)]
      simp [BitVec.shiftRight_add]

theorem shifts_eq (n : ℕ) (x : BitVec w) :
    (shift p)^[n] x = (x >>> n) ^^^ (shift p)^[n] (x &&& BitVec.ofNat w (2 ^ n - 1)) := by
  have mask : ∀ i, (BitVec.ofNat w (2 ^ n - 1)).getLsbD i = (decide (i < w) && decide (i < n)) := by
    intro i
    rw [BitVec.getLsbD_ofNat, Nat.testBit_two_pow_sub_one]
  have parts : x = (x &&& ~~~BitVec.ofNat w (2 ^ n - 1)) ^^^ (x &&& BitVec.ofNat w (2 ^ n - 1)) := by
    apply BitVec.eq_of_getLsbD_eq
    intro i h
    simp only [BitVec.getLsbD_xor, BitVec.getLsbD_and, BitVec.getLsbD_not, mask, h, decide_true, Bool.true_and]
    cases x.getLsbD i <;> cases decide (i < n) <;> rfl
  have clear : ∀ i < n, (x &&& ~~~BitVec.ofNat w (2 ^ n - 1)).getLsbD i = false := by
    intro i h
    simp only [BitVec.getLsbD_and, BitVec.getLsbD_not, mask, h, decide_true, Bool.and_true]
    cases decide (i < w) <;> simp
  have moved : (x &&& ~~~BitVec.ofNat w (2 ^ n - 1)) >>> n = x >>> n := by
    apply BitVec.eq_of_getLsbD_eq
    intro i h
    have behind : decide (n + i < n) = false := decide_eq_false (by omega)
    simp only [BitVec.getLsbD_ushiftRight, BitVec.getLsbD_and, BitVec.getLsbD_not, mask, behind, Bool.and_false,
      Bool.not_false, Bool.and_true]
    by_cases inside : n + i < w
    · simp [inside]
    · rw [BitVec.getLsbD_of_ge x _ (by omega), Bool.false_and]
  have sum := congrArg (shift p)^[n] parts
  rwa [shifts_xor, shifts_high p n clear, moved] at sum

end
end Mio.Crc
