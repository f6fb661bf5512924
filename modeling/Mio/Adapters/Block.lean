import Mathlib.Algebra.Order.Ring.Int
import Mathlib.Data.List.GetD
import Mathlib.Data.List.Induction
import Mio.Lib.Binary
import Mio.Lib.Undefined

/-! The memory that the adapters write their frames to. -/
namespace Mio.Adapters

/-- A block from `malloc`: a byte that was never written has no value. -/
abbrev Block := List (Option UInt8)

namespace Block

/-- A negative size is a huge one after the conversion, so that there is no block. -/
def malloc (size : ℤ) : Option Block :=
  if size < 0 then none else some (List.replicate size.toNat none)

def load (block : Block) (i : ℕ) : Outcome Undefined UInt8 :=
  match block[i]? with
  | none => .throw .outOfBounds
  | some none => .throw .uninitialised
  | some (some byte) => .ret byte

def store (block : Block) (i : ℕ) (byte : UInt8) : Outcome Undefined Block :=
  if i < block.length then .ret (block.set i (some byte)) else .throw .outOfBounds

/-- `memcpy(&block[i], source, size)`. -/
def memcpy (block : Block) (i : ℕ) (source : Option Block) (size : ℤ) : Outcome Undefined Block :=
  match source with
  | none => if size = 0 then .ret block else .throw .outOfBounds
  | some source =>
      if 0 ≤ size ∧ size.toNat ≤ source.length ∧ i + size.toNat ≤ block.length then
        .ret (block.take i ++ source.take size.toNat ++ block.drop (i + size.toNat))
      else .throw .outOfBounds

/-- `memset(block, 0, size)`. -/
def clear (block : Block) (size : ℤ) : Outcome Undefined Block :=
  if 0 ≤ size ∧ size.toNat ≤ block.length then
    .ret (List.replicate size.toNat (some 0) ++ block.drop size.toNat)
  else .throw .outOfBounds

def loads (block : Block) (i : ℕ) : ℕ → Outcome Undefined (List UInt8)
  | 0 => .ret []
  | n + 1 => do
      let byte ← block.load i
      let bytes ← block.loads (i + 1) n
      return byte :: bytes

/-- One byte after the other, from position `i` on. -/
def stores (block : Block) (i : ℕ) : List UInt8 → Outcome Undefined Block
  | [] => .ret block
  | byte :: bytes => do
      let block ← block.store i byte
      stores block (i + 1) bytes

/-- The loop that copies `n` bytes from position `j` of the source. -/
def copy (source block : Block) (i j : ℕ) : ℕ → Outcome Undefined Block
  | 0 => .ret block
  | n + 1 => do
      let byte ← source.load j
      let block ← block.store i byte
      copy source block (i + 1) (j + 1) n

theorem load_of {block : Block} {i : ℕ} {byte : UInt8} (h : block[i]? = some (some byte)) :
    block.load i = .ret byte := by
  rw [load, h]

theorem store_of {block : Block} {i : ℕ} (h : i < block.length) (byte : UInt8) :
    block.store i byte = .ret (block.set i (some byte)) := if_pos h

theorem store_at (front back : Block) (old : Option UInt8) (byte : UInt8) :
    store (front ++ old :: back) front.length byte = .ret (front ++ some byte :: back) := by
  rw [store_of (by simp), List.set_append_right _ _ (Nat.le_refl _), Nat.sub_self]
  rfl

theorem load_last (bytes : List UInt8) (byte : UInt8) :
    load ((bytes ++ [byte]).map some) bytes.length = .ret byte := load_of (by simp)

theorem memcpy_at (front : Block) {middle source : Block} (back : Block) (same : middle.length = source.length) :
    memcpy (front ++ (middle ++ back)) front.length (some source) source.length =
      .ret (front ++ (source ++ back)) := by
  rw [memcpy, if_pos ⟨Int.natCast_nonneg _, le_rfl, by simp [same]⟩, Int.toNat_natCast,
    List.take_length, List.take_left, List.drop_append, List.drop_eq_nil_of_le (by simp), ← same]
  simp

theorem clear_at (n : ℕ) (back : Block) {front : Block} (size : front.length = n) :
    clear (front ++ back) n = .ret (List.replicate n (some 0) ++ back) := by
  have room : 0 ≤ (n : ℤ) ∧ (n : ℤ).toNat ≤ (front ++ back).length := by
    rw [Int.toNat_natCast, List.length_append]
    omega
  rw [clear, if_pos room, Int.toNat_natCast, ← size, List.drop_left]

theorem stores_at (front back : Block) {old : Block} {bytes : List UInt8} (size : old.length = bytes.length) :
    stores (front ++ (old ++ back)) front.length bytes = .ret (front ++ (bytes.map some ++ back)) := by
  induction bytes generalizing front old with
  | nil =>
      rw [List.length_eq_zero_iff.mp size]
      rfl
  | cons byte bytes ih =>
      obtain ⟨first, old, rfl⟩ := List.exists_cons_of_length_eq_add_one size
      have rest := ih (front ++ [some byte]) (Nat.succ.inj size)
      rw [List.length_append, List.length_singleton, List.append_assoc, List.append_assoc] at rest
      rw [stores, List.cons_append, store_at, Outcome.ret_bind]
      exact rest

theorem stores_append (block : Block) (i : ℕ) (a b : List UInt8) :
    block.stores i (a ++ b) = block.stores i a >>= fun block => block.stores (i + a.length) b := by
  induction a generalizing block i with
  | nil => rfl
  | cons byte a ih =>
      have shift : i + (byte :: a).length = i + 1 + a.length := by
        rw [List.length_cons]
        omega
      rw [List.cons_append, stores, stores, bind_assoc, shift]
      exact congrArg _ (funext fun block => ih block (i + 1))

/-- Within the target, only the source matters. -/
theorem copy_at (source front back : Block) (j : ℕ) (old : Block) :
    copy source (front ++ (old ++ back)) front.length j old.length =
      source.loads j old.length >>= fun bytes => .ret (front ++ (bytes.map some ++ back)) := by
  induction old generalizing front j with
  | nil => rfl
  | cons first old ih =>
      rw [List.length_cons, copy, loads, bind_assoc]
      refine congrArg _ (funext fun byte => ?_)
      have rest := ih (front ++ [some byte]) (j + 1)
      rw [List.length_append, List.length_singleton, List.append_assoc] at rest
      rw [List.cons_append, store_at, Outcome.ret_bind, bind_assoc]
      refine rest.trans (congrArg _ (funext fun bytes => ?_))
      rw [List.append_assoc]
      rfl

/-- What was received, and behind it bytes without a value. -/
def received (bytes : List UInt8) (n : ℕ) : Block := bytes.map some ++ List.replicate n none

theorem load_eq_ret {block : Block} {i : ℕ} {byte : UInt8} :
    block.load i = .ret byte ↔ block[i]? = some (some byte) := by
  refine ⟨fun h => ?_, load_of⟩
  rw [load] at h
  split at h
  · cases h
  · cases h
  · rename_i there
    rw [there, Outcome.ret.inj h]

theorem load_received {bytes : List UInt8} {n i : ℕ} {byte : UInt8} :
    (received bytes n).load i = .ret byte ↔ bytes[i]? = some byte := by
  rw [load_eq_ret, received]
  by_cases inside : i < bytes.length
  · rw [List.getElem?_append_left (by rwa [List.length_map]), List.getElem?_map,
      List.getElem?_eq_getElem inside]
    exact (Option.some.injEq ..).to_iff
  · rw [List.getElem?_append_right (by rw [List.length_map]; omega), List.getElem?_replicate,
      List.getElem?_eq_none (by omega)]
    simp

theorem loads_received {bytes got : List UInt8} {n i m : ℕ} :
    (received bytes n).loads i m = .ret got ↔ slice bytes i m = got ∧ got.length = m := by
  induction m generalizing i got with
  | zero =>
      rw [loads, slice, List.take_zero]
      exact ⟨fun h => ⟨Outcome.ret.inj h, by rw [← Outcome.ret.inj h]; rfl⟩,
        fun h => congrArg Outcome.ret h.1⟩
  | succ m ih =>
      rw [loads, Outcome.bind_eq_ret]
      constructor
      · rintro ⟨byte, first, rest⟩
        obtain ⟨later, second, eq⟩ := Outcome.bind_eq_ret.mp rest
        obtain ⟨inside, rfl⟩ := List.getElem?_eq_some_iff.mp (load_received.mp first)
        obtain ⟨same, size⟩ := ih.mp second
        cases Outcome.ret.inj eq
        refine ⟨?_, congrArg Nat.succ size⟩
        rw [slice, List.drop_eq_getElem_cons inside, List.take_succ_cons, ← same, slice]
      · rintro ⟨same, size⟩
        obtain ⟨byte, later, rfl⟩ := List.exists_cons_of_length_eq_add_one size
        have inside : i < bytes.length := by
          by_contra outside
          rw [slice, List.drop_eq_nil_of_le (by omega), List.take_nil] at same
          cases same
        rw [slice, List.drop_eq_getElem_cons inside, List.take_succ_cons] at same
        obtain ⟨rfl, behind⟩ := List.cons.inj same
        have rest := ih.mpr ⟨behind, Nat.succ.inj size⟩
        exact ⟨_, load_received.mpr (List.getElem?_eq_getElem inside), by rw [rest]; rfl⟩

theorem loads_inside {bytes : List UInt8} {n i m : ℕ} (within : i + m ≤ bytes.length) :
    (received bytes n).loads i m = .ret (slice bytes i m) :=
  loads_received.mpr ⟨rfl, slice_length within⟩

end Block

end Mio.Adapters
