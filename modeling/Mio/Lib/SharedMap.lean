import Mathlib.Data.List.Nodup
import Mathlib.Tactic.Common
import Mio.Lib.Lookup

/-! Maps from keys to shared vectors. A vector stays at its place as long as anything points to it, so
vectors are never moved or removed here. -/
namespace Mio

structure SharedMap (κ α : Type) where
  /-- Every vector that was ever made. -/
  heap : List (List α)
  entries : List (κ × ℕ)

namespace SharedMap

variable {κ α : Type}

def empty : SharedMap κ α := ⟨[], []⟩

def vector (m : SharedMap κ α) (p : ℕ) : List α := m.heap.getD p []

def push (m : SharedMap κ α) (p : ℕ) (a : α) : SharedMap κ α :=
  { m with heap := m.heap.modify p (· ++ [a]) }

/-- The entries of empty vectors are taken out. -/
def prune (m : SharedMap κ α) : SharedMap κ α :=
  { m with entries := m.entries.filter fun e => !(m.vector e.2).isEmpty }

section
variable [DecidableEq κ]

def find (m : SharedMap κ α) (key : κ) : Option ℕ := m.entries.lookup key

/-- What a key leads to. -/
def content (m : SharedMap κ α) (key : κ) : List α := (m.find key).elim [] m.vector

/-- The place for a key, which gets a new vector if it has none. -/
def obtain_ (m : SharedMap κ α) (key : κ) : ℕ × SharedMap κ α :=
  match m.find key with
  | some p => (p, m)
  | none => (m.heap.length, ⟨m.heap ++ [[]], m.entries ++ [(key, m.heap.length)]⟩)

end

/-- Every key stands once and has a vector of its own. -/
structure Valid (m : SharedMap κ α) : Prop where
  keys : (m.entries.map Prod.fst).Nodup
  places : (m.entries.map Prod.snd).Nodup
  inside : ∀ e ∈ m.entries, e.2 < m.heap.length

theorem valid_empty : (empty : SharedMap κ α).Valid :=
  ⟨List.nodup_nil, List.nodup_nil, fun e mem => by cases mem⟩

variable {m : SharedMap κ α} {key other : κ} {p q : ℕ} {a : α}

theorem Valid.push (valid : m.Valid) (p : ℕ) (a : α) : (m.push p a).Valid where
  keys := valid.keys
  places := valid.places
  inside e mem := lt_of_lt_of_eq (valid.inside e mem) (List.length_modify ..).symm

theorem Valid.prune (valid : m.Valid) : m.prune.Valid where
  keys := valid.keys.sublist (List.filter_sublist.map _)
  places := valid.places.sublist (List.filter_sublist.map _)
  inside e mem := valid.inside e (List.mem_of_mem_filter mem)

section
variable [DecidableEq κ]

theorem Valid.mem_of_find (valid : m.Valid) (found : m.find key = some p) : (key, p) ∈ m.entries :=
  (mem_iff_lookup valid.keys).mpr found

/-- Different keys lead to different places. -/
theorem Valid.find_inj (valid : m.Valid) (found : m.find key = some p) (also_ : m.find other = some p) :
    key = other := by
  have same := List.inj_on_of_nodup_map valid.places (valid.mem_of_find found)
    (valid.mem_of_find also_) rfl
  exact congrArg Prod.fst same

theorem obtain_old (found : m.find key = some p) : m.obtain_ key = (p, m) := by
  unfold obtain_
  rw [found]

theorem obtain_new (missing : m.find key = none) :
    m.obtain_ key = (m.heap.length, ⟨m.heap ++ [[]], m.entries ++ [(key, m.heap.length)]⟩) := by
  unfold obtain_
  rw [missing]

theorem find_obtain (m : SharedMap κ α) (key other : κ) :
    (m.obtain_ key).2.find other =
      if other = key then some (m.obtain_ key).1 else m.find other := by
  cases found : m.find key with
  | some p =>
      rw [obtain_old found]
      split
      · next same => rw [same, found]
      · rfl
  | none =>
      rw [obtain_new found]
      change (m.entries ++ [(key, m.heap.length)]).lookup other = _
      rw [List.lookup_append]
      change (m.find other).or _ = _
      by_cases same : other = key
      · rw [if_pos same, same, found, List.lookup_cons_self]
        rfl
      · rw [if_neg same, List.lookup_cons, beq_false_of_ne same, List.lookup_nil]
        exact Option.or_none

theorem find_obtain_of_some (found : m.find other = some p) : (m.obtain_ key).2.find other = some p := by
  rw [find_obtain]
  split
  · next same =>
      subst same
      rw [obtain_old found]
  · exact found

theorem Valid.obtain_ (valid : m.Valid) (key : κ) : (m.obtain_ key).2.Valid := by
  cases found : m.find key with
  | some p =>
      rw [obtain_old found]
      exact valid
  | none =>
      rw [obtain_new found]
      have new : ∀ e ∈ m.entries, e.1 ≠ key := by
        rintro ⟨k, p⟩ mem rfl
        have has : m.find k = some p := (mem_iff_lookup valid.keys).mp mem
        rw [found] at has
        cases has
      refine ⟨?_, ?_, ?_⟩
      · rw [List.map_append, List.nodup_append']
        refine ⟨valid.keys, List.nodup_singleton _, List.disjoint_singleton.mpr fun mem => ?_⟩
        obtain ⟨e, mem, same⟩ := List.mem_map.mp mem
        exact new e mem same
      · rw [List.map_append, List.nodup_append']
        refine ⟨valid.places, List.nodup_singleton _, List.disjoint_singleton.mpr fun mem => ?_⟩
        obtain ⟨e, mem, same⟩ := List.mem_map.mp mem
        exact absurd same (Nat.ne_of_lt (valid.inside e mem))
      · intro e mem
        rw [List.length_append, List.length_singleton]
        rcases List.mem_append.mp mem with mem | mem
        · exact Nat.lt_succ_of_lt (valid.inside e mem)
        · rw [List.mem_singleton.mp mem]
          exact Nat.lt_succ_self _

theorem content_obtain (valid : m.Valid) (key other : κ) :
    (m.obtain_ key).2.content other = m.content other := by
  unfold content
  rw [find_obtain]
  cases found : m.find key with
  | some p =>
      rw [obtain_old found]
      split
      · next same => rw [same, found]
      · rfl
  | none =>
      rw [obtain_new found]
      by_cases same : other = key
      · rw [if_pos same, same, found]
        simp [vector]
      · rw [if_neg same]
        cases has : m.find other with
        | none => rfl
        | some p =>
            have inside := valid.inside _ (valid.mem_of_find has)
            simp [vector, List.getD_eq_getElem?_getD, List.getElem?_append_left inside]

theorem content_push (valid : m.Valid) (found : m.find key = some p) (other : κ) :
    (m.push p a).content other = if other = key then m.content key ++ [a] else m.content other := by
  unfold content
  change ((m.find other).elim [] (m.push p a).vector) = _
  have inside := valid.inside _ (valid.mem_of_find found)
  by_cases same : other = key
  · rw [if_pos same, same, found]
    simp [vector, SharedMap.push, List.getD_eq_getElem?_getD, List.getElem?_eq_getElem inside]
  · rw [if_neg same]
    cases has : m.find other with
    | none => rfl
    | some q =>
        have apart : p ≠ q := by
          rintro rfl
          exact same (valid.find_inj has found)
        simp [vector, SharedMap.push, List.getD_eq_getElem?_getD, apart]

theorem find_prune (valid : m.Valid) (key : κ) :
    m.prune.find key = if m.content key = [] then none else m.find key := by
  unfold content
  have kept : ∀ p, m.prune.find key = some p ↔ m.find key = some p ∧ m.vector p ≠ [] := by
    intro p
    change m.prune.entries.lookup key = some p ↔ m.entries.lookup key = some p ∧ _
    rw [← mem_iff_lookup valid.prune.keys, ← mem_iff_lookup valid.keys]
    unfold SharedMap.prune
    rw [List.mem_filter]
    simp
  cases found : m.find key with
  | none =>
      rw [ite_self, Option.eq_none_iff_forall_ne_some]
      intro p some
      rw [((kept p).mp some).1] at found
      cases found
  | some p =>
      change _ = if m.vector p = [] then none else some p
      by_cases empty : m.vector p = []
      · rw [if_pos empty, Option.eq_none_iff_forall_ne_some]
        intro q some
        obtain ⟨also_, full⟩ := (kept q).mp some
        rw [found] at also_
        cases also_
        exact full empty
      · rw [if_neg empty]
        exact (kept p).mpr ⟨found, empty⟩

theorem content_prune (valid : m.Valid) (key : κ) : m.prune.content key = m.content key := by
  conv_lhs => rw [content, find_prune valid]
  by_cases empty : m.content key = []
  · rw [if_pos empty, empty]
    rfl
  · rw [if_neg empty]
    rfl

def get (m : SharedMap κ α) (key : κ) : Option (List α) := (m.find key).map m.vector

/-- Behind a pruning, the keys are those with something in their vectors. -/
theorem get_prune (valid : m.Valid) (key : κ) :
    m.prune.get key = if m.content key = [] then none else some (m.content key) := by
  rw [get, find_prune valid]
  by_cases empty : m.content key = []
  · rw [if_pos empty, if_pos empty]
    rfl
  · rw [if_neg empty, if_neg empty]
    unfold content at empty ⊢
    cases found : m.find key with
    | none =>
        rw [found] at empty
        exact (empty rfl).elim
    | some p => rfl

end

end SharedMap
end Mio
