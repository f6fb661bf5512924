import Mathlib.Data.List.Basic
import Mathlib.Tactic.Common

/-! Strings in memory: arrays of characters that end with a null character somewhere. -/
namespace Mio

/-- Characters in memory; one that was never written has no value. -/
abbrev CString (α : Type) := List (Option α)

namespace CString

variable {α : Type}

def malloc (size : ℕ) : CString α := List.replicate size none

def write (b : CString α) (i : ℕ) (text : List α) : Option (CString α) :=
  if i + text.length ≤ b.length then
    some (b.take i ++ (text.map some ++ b.drop (i + text.length)))
  else none

/-- `sprintf`: the text and its end, at the start of the buffer. -/
def sprintf (nul : α) (b : CString α) (text : List α) : Option (CString α) := b.write 0 (text ++ [nul])

/-- `snprintf` at a place: at most `size` characters, the last of them the end. -/
def snprintf (nul : α) (b : CString α) (i size : ℕ) (text : List α) : Option (CString α) :=
  if size = 0 then some b else b.write i (text.take (size - 1) ++ [nul])

/-- The string that starts here. -/
def contents [DecidableEq α] (nul : α) : CString α → Option (List α)
  | [] => none
  | none :: _ => none
  | some c :: rest => if c = nul then some [] else (contents nul rest).map (c :: ·)

theorem length_write {b b' : CString α} {i : ℕ} {text : List α} (h : b.write i text = some b') :
    b'.length = b.length := by
  unfold write at h
  split at h
  · next inside =>
      cases h
      rw [List.length_append, List.length_append, List.length_take, List.length_map, List.length_drop]
      omega
  · cases h

theorem length_snprintf {nul : α} {b b' : CString α} {i size : ℕ} {text : List α}
    (h : b.snprintf nul i size text = some b') : b'.length = b.length := by
  unfold snprintf at h
  split at h
  · cases h
    rfl
  · exact length_write h

theorem write_at (front : CString α) {middle : CString α} {text : List α} (same : middle.length = text.length)
    (back : CString α) :
    (front ++ (middle ++ back)).write front.length text = some (front ++ (text.map some ++ back)) := by
  have fits : front.length + text.length ≤ (front ++ (middle ++ back)).length := by
    rw [List.length_append, List.length_append, same]
    omega
  have rest : (front ++ (middle ++ back)).drop (front.length + text.length) = back := by
    rw [← List.append_assoc, List.drop_left' (by rw [List.length_append, same])]
  rw [write, if_pos fits, List.take_left, rest]

/-- A text and its end, at the end of what was written. -/
theorem snprintf_at (nul : α) (front : CString α) {back : CString α} {size : ℕ} {text : List α}
    (fits : text.length < size) (room : text.length < back.length) :
    (front ++ back).snprintf nul front.length size text =
      some (front ++ (text.map some ++ some nul :: back.drop (text.length + 1))) := by
  have whole : text.take (size - 1) = text := List.take_of_length_le (by omega)
  have length : (text ++ [nul]).length = text.length + 1 := by
    rw [List.length_append, List.length_singleton]
  have parts : back = back.take (text.length + 1) ++ back.drop (text.length + 1) :=
    (List.take_append_drop _ _).symm
  have middle : (back.take (text.length + 1)).length = (text ++ [nul]).length := by
    rw [List.length_take, length]
    omega
  rw [snprintf, if_neg (by omega), whole]
  conv_lhs => rw [parts]
  rw [write_at front middle, List.map_append, List.append_assoc]
  rfl

theorem sprintf_of_lt (nul : α) {b : CString α} {text : List α} (fits : text.length < b.length) :
    b.sprintf nul text = some (text.map some ++ some nul :: b.drop (text.length + 1)) := by
  have length : (text ++ [nul]).length = text.length + 1 := by
    rw [List.length_append, List.length_singleton]
  rw [sprintf, write, if_pos (by omega), Nat.zero_add, length, List.take_zero, List.nil_append,
    List.map_append, List.append_assoc]
  rfl

variable [DecidableEq α] {nul : α}

theorem contents_append {text : List α} (plain : nul ∉ text) (rest : CString α) :
    contents nul (text.map some ++ some nul :: rest) = some text := by
  induction text with
  | nil => exact if_pos rfl
  | cons c text ih =>
      rw [List.mem_cons, not_or] at plain
      rw [List.map_cons, List.cons_append, contents, if_neg (Ne.symm plain.1), ih plain.2]
      rfl

theorem eq_of_contents {b : CString α} {text : List α} (h : contents nul b = some text) :
    nul ∉ text ∧ ∃ rest, b = text.map some ++ some nul :: rest := by
  induction b generalizing text with
  | nil => cases h
  | cons c b ih =>
      cases c with
      | none => cases h
      | some c =>
          rw [contents] at h
          split at h
          · next same =>
              cases h
              exact ⟨List.not_mem_nil, b, by rw [same]; rfl⟩
          · next differs =>
              obtain ⟨text', found, rfl⟩ := Option.map_eq_some_iff.mp h
              obtain ⟨plain, rest, rfl⟩ := ih found
              exact ⟨List.not_mem_cons_of_ne_of_not_mem (Ne.symm differs) plain, rest, rfl⟩

theorem length_contents {b : CString α} {text : List α} (h : contents nul b = some text) :
    text.length < b.length := by
  obtain ⟨-, rest, rfl⟩ := eq_of_contents h
  rw [List.length_append, List.length_map, List.length_cons]
  omega

end CString
end Mio
