import Mio.Lib.Latest

/-! Dictionaries: a value for each key, and the keys in the order in which they were entered. -/
namespace Mio

structure Dictionary (κ α : Type) where
  keys : List κ
  get : κ → Option α
  distinct : keys.Nodup
  mem_keys : ∀ key, key ∈ keys ↔ (get key).isSome

namespace Dictionary

variable {κ α β : Type}

def empty : Dictionary κ α := ⟨[], fun _ => none, .nil, fun _ => by simp⟩

def map (f : κ → α → β) (d : Dictionary κ α) : Dictionary κ β where
  keys := d.keys
  get key := (d.get key).map (f key)
  distinct := d.distinct
  mem_keys key := by rw [d.mem_keys, Option.isSome_map]

def any (d : Dictionary κ α) (test : α → Bool) : Bool := d.keys.any fun key => (d.get key).any test

theorem any_iff {d : Dictionary κ α} {test : α → Bool} :
    d.any test ↔ ∃ key a, d.get key = some a ∧ test a := by
  rw [any, List.any_eq_true]
  constructor
  · rintro ⟨key, -, met⟩
    cases found : d.get key with
    | none =>
        rw [found] at met
        cases met
    | some a =>
        rw [found] at met
        exact ⟨key, a, found, met⟩
  · rintro ⟨key, a, found, holds⟩
    exact ⟨key, (d.mem_keys key).mpr (found ▸ rfl), by rw [found]; exact holds⟩

variable [DecidableEq κ] {d : Dictionary κ α} {key : κ} {a : α}

def set (d : Dictionary κ α) (key : κ) (a : α) : Dictionary κ α where
  keys := if key ∈ d.keys then d.keys else d.keys ++ [key]
  get := Function.update d.get key (some a)
  distinct := by
    split
    · exact d.distinct
    · next new => exact List.nodup_append.mpr ⟨d.distinct, List.nodup_singleton key, fun k mem k' last => by
        rintro rfl
        exact new (List.mem_singleton.mp last ▸ mem)⟩
  mem_keys other := by
    by_cases same : other = key
    · subst same
      rw [Function.update_self]
      split
      · next old => simpa using old
      · simp
    · rw [Function.update_of_ne same, ← d.mem_keys]
      split
      · exact Iff.rfl
      · simp [same]

@[simp] theorem get_set : (d.set key a).get = Function.update d.get key (some a) := rfl

theorem get_set_self : (d.set key a).get key = some a := Function.update_self ..

theorem mem_keys_set : key ∈ (d.set key a).keys := by
  rw [mem_keys, get_set_self]
  rfl

theorem keys_set_old (old : key ∈ d.keys) : (d.set key a).keys = d.keys := if_pos old

theorem keys_set_new (new : key ∉ d.keys) : (d.set key a).keys = d.keys ++ [key] := if_neg new

/-- The keys stand in the order of their first readings. -/
theorem keys_set_firsts {history : List (κ × β)} {b : β} (same : d.keys = firsts history) :
    (d.set key a).keys = firsts (history ++ [(key, b)]) := by
  by_cases old : key ∈ d.keys
  · rw [keys_set_old old, same, firsts_append_old (mem_firsts.mp (same ▸ old))]
  · rw [keys_set_new old, same, firsts_append_new fun mem => old (same ▸ mem_firsts.mpr mem)]

def ofHistory (history : List (κ × α)) : Dictionary κ α := history.foldl (fun d p => d.set p.1 p.2) empty

end Dictionary
end Mio
