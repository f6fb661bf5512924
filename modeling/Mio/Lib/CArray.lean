import Mio.Lib.Outcome

/-! Arrays of C as they lie in memory: an entry takes several bytes, and memory is allocated and copied by
the byte. -/
namespace Mio.CArray

/-- Which byte of which entry lies there. -/
abbrev Cells (α : Type) := List (Option (α × ℕ))

/-- A pointer that was never set is wild. -/
inductive Pointer (α : Type) where
  | null
  | wild
  | block (cells : Cells α)

section

variable {ε α : Type}

def malloc (size : ℕ) : Cells α := List.replicate size none

def free (bad : ε) : Pointer α → Outcome ε Unit
  | .wild => .throw bad
  | _ => .ret ()

/-- `memcpy(cells, source, size)`. -/
def memcpy (bad : ε) (cells : Cells α) (source : Pointer α) (size : ℕ) : Outcome ε (Cells α) :=
  if size = 0 then .ret cells
  else
    match source with
    | .block old =>
        if size ≤ old.length ∧ size ≤ cells.length then .ret (old.take size ++ cells.drop size)
        else .throw bad
    | _ => .throw bad

def entry (width : ℕ) (value : α) : Cells α := (List.range width).map fun k => some (value, k)

def store (bad : ε) (width : ℕ) (cells : Cells α) (i : ℕ) (value : α) : Outcome ε (Cells α) :=
  if width * (i + 1) ≤ cells.length then
    .ret (cells.take (width * i) ++ (entry width value ++ cells.drop (width * (i + 1))))
  else .throw bad

/-- A new block of `n` units, into which so many bytes are copied and whose last entry is set, takes the
place of the old one. -/
def grow (bad : ε) (width unit n copied : ℕ) (old : Pointer α) (value : α) : Outcome ε (Pointer α) := do
  let cells ← memcpy bad (malloc (n * unit)) old copied
  let cells ← store bad width cells (n - 1) value
  free bad old
  return .block cells

/-- The entries that lie there first, in order. -/
def Holds (width : ℕ) (values : List α) : Pointer α → Prop
  | .block cells => cells.take (width * values.length) = values.flatMap (entry width)
  | _ => values = []

/-- There is memory for so many units. -/
def Sized (unit n : ℕ) : Pointer α → Prop
  | .block cells => unit * n ≤ cells.length
  | .null => n = 0
  | .wild => False

variable {bad : ε} {width unit n : ℕ} {old : Pointer α} {values : List α} {cells : Cells α}

@[simp] theorem entry_length (value : α) : (entry width value).length = width := by
  rw [entry, List.length_map, List.length_range]

theorem entries_length (values : List α) : (values.flatMap (entry width)).length = width * values.length := by
  induction values with
  | nil => rfl
  | cons value values ih =>
      rw [List.flatMap_cons, List.length_append, entry_length, ih, List.length_cons, Nat.mul_succ, Nat.add_comm]

theorem free_sized (sized : Sized unit n old) : free bad old = .ret () := by
  cases old with
  | wild => exact sized.elim
  | null => rfl
  | block cells => rfl

/-- A copy of all units is a copy of the entries. -/
theorem memcpy_holds (holds : Holds width values old) (sized : Sized unit values.length old)
    (fits : width ≤ unit) (room : unit * values.length ≤ n) : ∃ cells : Cells α,
      memcpy bad (malloc n) old (unit * values.length) = .ret cells ∧ cells.length = n ∧
        Holds width values (.block cells) := by
  by_cases none : unit * values.length = 0
  · refine ⟨malloc n, if_pos none, List.length_replicate, ?_⟩
    have empty : width * values.length = 0 :=
      Nat.le_zero.mp (none ▸ Nat.mul_le_mul_right values.length fits)
    have entries : values.flatMap (entry width) = [] :=
      List.length_eq_zero_iff.mp ((entries_length values).trans empty)
    rw [Holds, empty, entries, List.take_zero]
  · cases old with
    | wild => exact sized.elim
    | null =>
        have empty : values = [] := holds
        rw [empty] at none
        exact absurd (Nat.mul_zero unit) none
    | block old =>
        have enough : unit * values.length ≤ old.length ∧ unit * values.length ≤ (malloc n : Cells α).length :=
          ⟨sized, Nat.le_trans room (Nat.le_of_eq List.length_replicate.symm)⟩
        refine ⟨old.take (unit * values.length) ++ (malloc n).drop (unit * values.length), ?_, ?_, ?_⟩
        · rw [memcpy, if_neg none]
          exact if_pos enough
        · rw [List.length_append, List.length_take, List.length_drop]
          have : (malloc n : Cells α).length = n := List.length_replicate
          omega
        · have inside := Nat.mul_le_mul_right values.length fits
          rw [Holds, List.take_append_of_le_length (by rw [List.length_take]; omega), List.take_take,
            Nat.min_eq_left inside]
          exact holds

theorem store_last (holds : Holds width values (.block cells)) (count : values.length = n)
    (room : width * (n + 1) ≤ cells.length) (value : α) : ∃ cells' : Cells α,
      store bad width cells n value = .ret cells' ∧ cells'.length = cells.length ∧
        Holds width (values ++ [value]) (.block cells') := by
  have front : (cells.take (width * n)).length = width * n := by
    rw [List.length_take]
    rw [Nat.mul_succ] at room
    omega
  have size : width * n + width = width * (n + 1) := (Nat.mul_succ width n).symm
  refine ⟨_, if_pos room, ?_, ?_⟩
  · rw [List.length_append, List.length_append, entry_length, List.length_drop, front]
    omega
  · rw [Holds, count] at holds
    rw [Holds, List.length_append, List.length_singleton, count, ← List.append_assoc, ← size,
      List.take_left' (by rw [List.length_append, front, entry_length]), holds, List.flatMap_append,
      List.flatMap_singleton]

/-- An array that is grown by one entry, with a copy of all units, holds the old entries and the new one. -/
theorem grow_holds (holds : Holds width values old) (sized : Sized unit values.length old) (fits : width ≤ unit)
    (value : α) : ∃ new, grow bad width unit (values.length + 1) (unit * values.length) old value = .ret new ∧
      Holds width (values ++ [value]) new ∧ Sized unit (values.length + 1) new := by
  obtain ⟨cells, copied, length, kept⟩ := @memcpy_holds ε α bad width unit ((values.length + 1) * unit) old
    values holds sized fits (by rw [Nat.succ_mul, Nat.mul_comm]; omega)
  have room : width * (values.length + 1) ≤ cells.length := by
    rw [length, Nat.mul_comm _ unit]
    exact Nat.mul_le_mul_right _ fits
  obtain ⟨cells', stored, length', added⟩ := @store_last ε α bad width values.length values cells kept rfl room value
  refine ⟨.block cells', ?_, added, ?_⟩
  · rw [grow, copied, Outcome.ret_bind, Nat.add_sub_cancel, stored, Outcome.ret_bind, free_sized sized]
    rfl
  · have size : cells'.length = unit * (values.length + 1) := by
      rw [length', length, Nat.mul_comm]
    exact Nat.le_of_eq size.symm

end

end Mio.CArray
