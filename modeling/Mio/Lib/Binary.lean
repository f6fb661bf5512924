import Mathlib.Algebra.Group.Nat.Defs
import Mathlib.Data.List.Basic
import Mio.Lib.Outcome

/-! Binary formats: little-endian words, writers into a buffer of fixed size, and readers that take
a value off the front of the bytes. -/
namespace Mio

def leBytes : ℕ → ℕ → List UInt8
  | 0, _ => []
  | n + 1, v => UInt8.ofNat v :: leBytes n (v / 256)

def leValue : List UInt8 → ℕ
  | [] => 0
  | b :: bytes => b.toNat + 256 * leValue bytes

@[simp] theorem leBytes_length (n v : ℕ) : (leBytes n v).length = n := by
  induction n generalizing v with
  | zero => rfl
  | succ n ih => exact congrArg Nat.succ (ih _)

theorem leValue_leBytes (n v : ℕ) : leValue (leBytes n v) = v % 256 ^ n := by
  induction n generalizing v with
  | zero => exact (Nat.mod_one v).symm
  | succ n ih =>
      have digit : (UInt8.ofNat v).toNat = v % 256 := UInt8.toNat_ofNat'
      rw [leBytes, leValue, ih, digit, Nat.pow_succ', Nat.mod_mul]

def wordBytes (n : ℕ) {w : ℕ} (x : BitVec w) : List UInt8 := leBytes n x.toNat

@[simp] theorem wordBytes_length (n : ℕ) {w : ℕ} (x : BitVec w) : (wordBytes n x).length = n :=
  leBytes_length ..

theorem ofNat_leValue_wordBytes {n w : ℕ} (wide : w ≤ 8 * n) (x : BitVec w) :
    BitVec.ofNat w (leValue (wordBytes n x)) = x := by
  have power : 256 ^ n = 2 ^ (8 * n) := (Nat.pow_mul 2 8 n).symm
  have small : x.toNat < 256 ^ n :=
    power ▸ Nat.lt_of_lt_of_le x.isLt (Nat.pow_le_pow_right (by decide) wide)
  rw [wordBytes, leValue_leBytes, Nat.mod_eq_of_lt small]
  exact BitVec.ofNat_toNat ..|>.trans (BitVec.setWidth_eq x)

theorem leBytes_leValue (bytes : List UInt8) : leBytes bytes.length (leValue bytes) = bytes := by
  induction bytes with
  | nil => rfl
  | cons b bytes ih =>
      have small : b.toNat < 256 := b.toNat_lt
      have low : UInt8.ofNat (b.toNat + 256 * leValue bytes) = b := by
        refine UInt8.toNat.inj (UInt8.toNat_ofNat'.trans ?_)
        omega
      have high : (b.toNat + 256 * leValue bytes) / 256 = leValue bytes := by omega
      rw [leValue, List.length_cons, leBytes, low, high, ih]

theorem leValue_lt (bytes : List UInt8) : leValue bytes < 256 ^ bytes.length := by
  have whole := leValue_leBytes bytes.length (leValue bytes)
  rw [leBytes_leValue] at whole
  rw [whole]
  exact Nat.mod_lt _ (Nat.pow_pos (by decide))

theorem leValue_append_zeros (bytes : List UInt8) (n : ℕ) :
    leValue (bytes ++ List.replicate n 0) = leValue bytes := by
  induction bytes with
  | nil =>
      induction n with
      | zero => rfl
      | succ n ih => exact congrArg (256 * ·) ih |>.trans (Nat.mul_zero 256) |> Eq.trans (Nat.zero_add _)
  | cons b bytes ih => exact congrArg (b.toNat + 256 * ·) ih

/-- The lower `n` bytes of a word, the highest first. -/
def netBytes (n : ℕ) {w : ℕ} (x : BitVec w) : List UInt8 := (wordBytes n x).reverse

@[simp] theorem netBytes_length (n : ℕ) {w : ℕ} (x : BitVec w) : (netBytes n x).length = n := by
  rw [netBytes, List.length_reverse, wordBytes_length]

def netValue (bytes : List UInt8) : ℕ := leValue bytes.reverse

theorem netValue_eq_iff {bytes : List UInt8} {w : ℕ} {x : BitVec w} (wide : w ≤ 8 * bytes.length) :
    netValue bytes = x.toNat ↔ bytes = netBytes bytes.length x := by
  constructor
  · intro same
    rw [netBytes, wordBytes, ← same, netValue]
    rw [← List.length_reverse, leBytes_leValue, List.reverse_reverse]
  · intro same
    have power : 256 ^ bytes.length = 2 ^ (8 * bytes.length) := (Nat.pow_mul 2 8 bytes.length).symm
    have small : x.toNat < 256 ^ bytes.length :=
      power ▸ Nat.lt_of_lt_of_le x.isLt (Nat.pow_le_pow_right (by decide) wide)
    rw [same, netValue, netBytes, List.reverse_reverse, wordBytes, leValue_leBytes]
    exact Nat.mod_eq_of_lt small

def slice (bytes : List UInt8) (i n : ℕ) : List UInt8 := (bytes.drop i).take n

theorem slice_length {bytes : List UInt8} {i n : ℕ} (within : i + n ≤ bytes.length) :
    (slice bytes i n).length = n := by
  rw [slice, List.length_take, List.length_drop]
  omega

theorem slice_at (a b c : List UInt8) : slice (a ++ (b ++ c)) a.length b.length = b := by
  rw [slice, List.drop_left, List.take_left]

theorem slice_append (bytes : List UInt8) (i m n : ℕ) :
    slice bytes i (m + n) = slice bytes i m ++ slice bytes (i + m) n := by
  rw [slice, List.take_add, List.drop_drop]
  rfl

theorem slice_drop (bytes : List UInt8) (d i n : ℕ) : slice (bytes.drop d) i n = slice bytes (d + i) n := by
  rw [slice, slice, List.drop_drop]

theorem slice_getElem? {bytes : List UInt8} {i n k : ℕ} (h : k < n) : (slice bytes i n)[k]? = bytes[i + k]? := by
  rw [slice, List.getElem?_take_of_lt h, List.getElem?_drop]

theorem slice_eq_slice {bytes : List UInt8} {i j n : ℕ} :
    slice bytes i n = slice bytes j n ↔ ∀ k < n, bytes[i + k]? = bytes[j + k]? := by
  constructor
  · intro same k h
    rw [← slice_getElem? h, same, slice_getElem? h]
  · intro each
    refine List.ext_getElem? fun k => ?_
    by_cases h : k < n
    · rw [slice_getElem? h, slice_getElem? h, each k h]
    · rw [slice, slice, List.getElem?_take_eq_none (Nat.not_lt.mp h),
        List.getElem?_take_eq_none (Nat.not_lt.mp h)]

theorem slice_flatMap {α : Type} {f : α → List UInt8} {n : ℕ} (size : ∀ a, (f a).length = n) {as : List α} {i : ℕ}
    {a : α} (h : as[i]? = some a) : slice (as.flatMap f) (n * i) n = f a := by
  induction as generalizing i with
  | nil => cases h
  | cons first as ih =>
      cases i with
      | zero =>
          cases Option.some.inj h
          rw [Nat.mul_zero, slice, List.drop_zero, List.flatMap_cons, List.take_left' (size _)]
      | succ i =>
          rw [Nat.mul_succ, Nat.add_comm, ← slice_drop, List.flatMap_cons, List.drop_left' (size first)]
          exact ih h

/-- A buffer with a cursor: what lies before it and what behind. -/
structure Buffer where
  written : List UInt8
  rest : List UInt8

variable {ε α β : Type}

/-- The writer leaves exactly these bytes behind, given the room for them. -/
def Puts (write : Buffer → Outcome ε Buffer) (bytes : List UInt8) : Prop :=
  ∀ buf, bytes.length ≤ buf.rest.length →
    write buf = .ret ⟨buf.written ++ bytes, buf.rest.drop bytes.length⟩

namespace Puts

theorem nothing : Puts (.ret : Buffer → Outcome ε Buffer) [] := by
  intro buf _
  rw [List.append_nil]
  rfl

theorem andThen {write next : Buffer → Outcome ε Buffer} {a b : List UInt8} (first : Puts write a)
    (second : Puts next b) : Puts (fun buf => write buf >>= next) (a ++ b) := by
  intro buf room
  rw [List.length_append] at room
  have left : b.length ≤ (buf.rest.drop a.length).length := by
    rw [List.length_drop]
    omega
  change write buf >>= next = _
  rw [first buf (by omega), Outcome.ret_bind, second _ left, List.append_assoc, List.drop_drop,
    List.length_append]

/-- A loop over the elements of a vector. -/
theorem each {write : α → Buffer → Outcome ε Buffer} {bytes : α → List UInt8}
    (one : ∀ a, Puts (write a) (bytes a)) (as : List α) :
    Puts (fun buf => as.foldlM (fun buf a => write a buf) buf) (as.flatMap bytes) := by
  induction as with
  | nil => exact nothing
  | cons a as ih =>
      have both := (one a).andThen ih
      intro buf room
      rw [List.flatMap_cons] at room ⊢
      exact both buf room

/-- A buffer of the exact size ends up full. -/
theorem fills {write : Buffer → Outcome ε Buffer} {bytes old : List UInt8} (puts : Puts write bytes)
    (size : old.length = bytes.length) : write ⟨[], old⟩ = .ret ⟨bytes, []⟩ := by
  rw [puts ⟨[], old⟩ (Nat.le_of_eq size.symm), List.nil_append, List.drop_of_length_le (Nat.le_of_eq size)]

end Puts

/-- The reader takes these bytes for this value and leaves what follows. -/
def Takes (read : List UInt8 → Outcome ε (α × List UInt8)) (bytes : List UInt8) (a : α) : Prop :=
  ∀ rest, read (bytes ++ rest) = .ret (a, rest)

namespace Takes

variable {read : List UInt8 → Outcome ε (α × List UInt8)} {a : α} {bytes : List UInt8}

theorem map (taken : Takes read bytes a) (f : α → β) :
    Takes (fun src => read src >>= fun got => .ret (f got.1, got.2)) bytes (f a) := by
  intro rest
  change read _ >>= _ = _
  rw [taken, Outcome.ret_bind]

theorem last (taken : Takes read bytes a) : read bytes = .ret (a, []) := by
  have whole := taken []
  rwa [List.append_nil] at whole

end Takes

def readTimes (read : List UInt8 → Outcome ε (α × List UInt8)) :
    ℕ → List UInt8 → Outcome ε (List α × List UInt8)
  | 0, src => .ret ([], src)
  | n + 1, src => do
      let (a, src) ← read src
      let (as, src) ← readTimes read n src
      .ret (a :: as, src)

theorem Takes.times {read : List UInt8 → Outcome ε (α × List UInt8)} {bytes : β → List UInt8}
    {value : β → α} (one : ∀ b, Takes read (bytes b) (value b)) (bs : List β) :
    Takes (readTimes read bs.length) (bs.flatMap bytes) (bs.map value) := by
  induction bs with
  | nil => exact fun rest => rfl
  | cons b bs ih =>
      intro rest
      rw [List.flatMap_cons, List.append_assoc, List.length_cons, readTimes, one b, Outcome.ret_bind]
      change readTimes read bs.length (bs.flatMap bytes ++ rest) >>= _ = _
      rw [ih rest]
      rfl

end Mio
