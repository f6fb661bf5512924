import Mathlib.Data.List.Nodup
import Mathlib.Data.List.Perm.Basic
import Mathlib.Tactic.Common

/-! Association lists with distinct keys. -/
namespace Mio

variable {κ α : Type} [DecidableEq κ] {key : κ}

theorem lookup_of_notMem {a : List (κ × α)} (missing : key ∉ a.map Prod.fst) : a.lookup key = none := by
  apply List.lookup_eq_none_iff.mpr
  intro p mem
  apply bne_iff_ne.mpr
  rintro rfl
  exact missing (List.mem_map_of_mem mem)

theorem mem_iff_lookup {a : List (κ × α)} {value : α} (distinct : (a.map Prod.fst).Nodup) :
    (key, value) ∈ a ↔ a.lookup key = some value := by
  induction a with
  | nil => simp
  | cons p a ih =>
      obtain ⟨k, v⟩ := p
      rw [List.map_cons, List.nodup_cons] at distinct
      have rest := ih distinct.2
      by_cases same : key = k
      · subst same
        have out : (key, value) ∉ a := fun mem =>
          distinct.1 (List.mem_map.mpr ⟨(key, value), mem, rfl⟩)
        simp [out, eq_comm]
      · have differs : (key == k) = false := beq_false_of_ne same
        simp [same, List.lookup_cons, differs, rest]

theorem lookup_perm {a b : List (κ × α)} (order : a.Perm b) (distinct : (b.map Prod.fst).Nodup) :
    a.lookup key = b.lookup key := by
  have keys : (a.map Prod.fst).Nodup := (order.map Prod.fst).nodup_iff.mpr distinct
  ext value
  rw [← mem_iff_lookup keys, ← mem_iff_lookup distinct, order.mem_iff]

theorem lookup_filterMap (g : κ → Option α) (keys : List κ) (key : κ) :
    (keys.filterMap fun k => (g k).map (k, ·)).lookup key = if key ∈ keys then g key else none := by
  induction keys with
  | nil => rfl
  | cons h keys ih =>
      by_cases same : key = h
      · subst same
        cases present : g key with
        | none => simp [present, ih]
        | some text => simp [present]
      · cases present : g h with
        | none => simp [present, ih, same]
        | some text =>
            have other : (key == h) = false := beq_false_of_ne same
            simp [present, ih, same, List.lookup_cons, other]

omit [DecidableEq κ] in
theorem keys_filterMap (g : κ → Option α) (keys : List κ) :
    (keys.filterMap fun k => (g k).map (k, ·)).map Prod.fst = keys.filter fun k => (g k).isSome := by
  induction keys with
  | nil => rfl
  | cons k keys ih =>
      cases present : g k with
      | none => simp [present, ih]
      | some text => simp [present, ih]

omit [DecidableEq κ] in
theorem filterMap_eq_map {g : κ → Option α} {p : κ → Bool} {value : κ → α} {keys : List κ}
    (same : ∀ k ∈ keys, g k = if p k then some (value k) else none) :
    keys.filterMap g = (keys.filter p).map value := by
  induction keys with
  | nil => rfl
  | cons k keys ih =>
      obtain ⟨first, others⟩ := List.forall_mem_cons.mp same
      cases present : p k <;> simp [first, present, ih others]

/-- Lists over the same distinct keys with the same values. -/
theorem eq_of_lookup {a b : List (κ × α)} (keys : a.map Prod.fst = b.map Prod.fst)
    (distinct : (b.map Prod.fst).Nodup) (same : ∀ k, a.lookup k = b.lookup k) : a = b := by
  induction a generalizing b with
  | nil =>
      cases b with
      | nil => rfl
      | cons q b => cases keys
  | cons p a ih =>
      cases b with
      | nil => cases keys
      | cons q b =>
          obtain ⟨k, x⟩ := p
          obtain ⟨l, y⟩ := q
          simp only [List.map_cons, List.cons.injEq] at keys
          obtain ⟨rfl, keys⟩ := keys
          have head := same k
          simp only [List.lookup_cons, beq_self_eq_true, Option.some.injEq] at head
          subst head
          rw [List.map_cons, List.nodup_cons] at distinct
          rw [ih keys distinct.2]
          intro l
          by_cases eq : l = k
          · subst eq
            rw [lookup_of_notMem (keys ▸ distinct.1), lookup_of_notMem distinct.1]
          · have other : (l == k) = false := beq_false_of_ne eq
            simpa [List.lookup_cons, other] using same l

end Mio
