import Mathlib.Data.List.Basic
import Mathlib.Tactic.Common

/-! Names of several parts with a separator between them, and the same with another separator in front
of each part. -/
namespace Mio

section
variable {α : Type} [DecidableEq α] {a b : α}

theorem splitOn_cons_self (l : List α) : (a :: l).splitOn a = [] :: l.splitOn a := by
  rw [List.splitOn_cons_eq_if_modifyHead]
  exact if_pos (beq_self_eq_true a)

/-- The first part grows by an element that is no separator. -/
theorem splitOn_cons_of_ne {c : α} (differs : c ≠ a) {l part : List α} {parts : List (List α)}
    (split : l.splitOn a = part :: parts) : (c :: l).splitOn a = (c :: part) :: parts := by
  rw [List.splitOn_cons_eq_if_modifyHead, split]
  exact if_neg (by simpa using differs)

theorem exists_splitOn (a : α) (l : List α) : ∃ part parts, l.splitOn a = part :: parts :=
  List.exists_cons_of_ne_nil (List.splitOn_ne_nil a l)

theorem tail_splitOn_ne_nil_iff (l : List α) :
    (∀ part ∈ (l.splitOn a).tail, part ≠ []) ↔ l.getLast? ≠ some a ∧ ¬ [a, a] <:+: l := by
  induction l with
  | nil => simp
  | cons c l ih =>
      obtain ⟨part, parts, split⟩ := exists_splitOn a l
      by_cases same : c = a
      · subst same
        rw [splitOn_cons_self, List.tail_cons, split]
        rw [split, List.tail_cons] at ih
        cases l with
        | nil => simp [← split]
        | cons d l =>
            rw [List.infix_cons_iff, List.forall_mem_cons, ih, List.getLast?_cons_cons]
            by_cases again : d = c
            · subst again
              rw [splitOn_cons_self] at split
              cases split
              simp
            · obtain ⟨part', parts', split'⟩ := exists_splitOn c l
              rw [splitOn_cons_of_ne again split'] at split
              cases split
              simp [Ne.symm again]
      · rw [splitOn_cons_of_ne same split, List.tail_cons]
        rw [split, List.tail_cons] at ih
        rw [ih, List.infix_cons_iff]
        cases l with
        | nil => simp [same]
        | cons d l => simp [Ne.symm same]

theorem splitOn_ne_nil_iff (l : List α) :
    (∀ part ∈ l.splitOn a, part ≠ []) ↔
      l ≠ [] ∧ l.head? ≠ some a ∧ l.getLast? ≠ some a ∧ ¬ [a, a] <:+: l := by
  cases l with
  | nil => simp
  | cons c l =>
      rw [← tail_splitOn_ne_nil_iff]
      obtain ⟨part, parts, split⟩ := exists_splitOn a l
      by_cases same : c = a
      · subst same
        simp [splitOn_cons_self]
      · simp [splitOn_cons_of_ne same split, same]

theorem forall_mem_splitOn_iff (p : α → Prop) (l : List α) :
    (∀ part ∈ l.splitOn a, ∀ c ∈ part, p c) ↔ ∀ c ∈ l, c = a ∨ p c := by
  induction l with
  | nil => simp
  | cons c l ih =>
      obtain ⟨part, parts, split⟩ := exists_splitOn a l
      by_cases same : c = a
      · subst same
        rw [splitOn_cons_self, List.forall_mem_cons, List.forall_mem_cons, ih]
        simp
      · rw [splitOn_cons_of_ne same split]
        rw [split] at ih
        rw [List.forall_mem_cons, List.forall_mem_cons, List.forall_mem_cons, ← ih,
          List.forall_mem_cons, and_assoc]
        simp [same]

/-- Every separator replaced by another one, and one more in front. -/
theorem cons_map_eq_flatMap (a b : α) (l : List α) :
    b :: l.map (fun c => if c = a then b else c) = (l.splitOn a).flatMap (b :: ·) := by
  induction l with
  | nil => simp
  | cons c l ih =>
      obtain ⟨part, parts, split⟩ := exists_splitOn a l
      by_cases same : c = a
      · subst same
        rw [splitOn_cons_self, List.flatMap_cons, ← ih, List.map_cons, if_pos rfl]
        rfl
      · rw [split, List.flatMap_cons, List.cons_append, List.cons.injEq] at ih
        rw [splitOn_cons_of_ne same split, List.flatMap_cons, List.map_cons, if_neg same, ih.2]
        rfl

/-- With a separator in front of each, parts that do not contain it can be read off. -/
theorem splitOn_flatMap_cons {parts : List (List α)} (plain : ∀ part ∈ parts, b ∉ part) :
    (parts.flatMap (b :: ·)).splitOn b = [] :: parts := by
  induction parts with
  | nil => rfl
  | cons part parts ih =>
      obtain ⟨here, later⟩ := List.forall_mem_cons.mp plain
      rw [List.flatMap_cons, List.cons_append, splitOn_cons_self]
      cases parts with
      | nil =>
          rw [List.flatMap_nil, List.append_nil, List.splitOn_eq_singleton here]
      | cons next parts =>
          have rest := ih later
          rw [List.flatMap_cons, List.cons_append, splitOn_cons_self, List.cons.injEq] at rest
          rw [List.flatMap_cons, List.cons_append, List.splitOn_append_cons_self,
            List.splitOn_eq_singleton here, rest.2]
          rfl

theorem flatMap_cons_inj {parts parts' : List (List α)} (plain : ∀ part ∈ parts, b ∉ part)
    (plain' : ∀ part ∈ parts', b ∉ part) :
    parts.flatMap (b :: ·) = parts'.flatMap (b :: ·) ↔ parts = parts' := by
  constructor
  · intro same
    have split := splitOn_flatMap_cons plain
    rw [same, splitOn_flatMap_cons plain', List.cons.injEq] at split
    exact split.2.symm
  · exact fun same => congrArg _ same

end
end Mio
