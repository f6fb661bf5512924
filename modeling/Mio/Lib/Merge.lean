import Mathlib.Data.List.Sort

/-! Merging piece by piece. -/
namespace Mio

section
variable {α γ : Type} {le : α → α → Bool}

theorem merge_append_left {a a' : List α} {b : List α} (early : ∀ x ∈ a, ∀ y ∈ b, le x y) :
    List.merge (a ++ a') b le = a ++ List.merge a' b le := by
  induction a with
  | nil => rfl
  | cons x a ih =>
      have rest := ih fun z mem => early z (List.mem_cons_of_mem x mem)
      cases b with
      | nil => simp
      | cons y b =>
          have first := early x List.mem_cons_self y List.mem_cons_self
          rw [List.cons_append, List.cons_merge_cons_pos le _ _ first, rest, List.cons_append]

theorem merge_append_right {a b b' : List α} (late : ∀ x ∈ a, ∀ y ∈ b, ¬ le x y) :
    List.merge a (b ++ b') le = b ++ List.merge a b' le := by
  induction b with
  | nil => rfl
  | cons y b ih =>
      have rest := ih fun x mem z mem' => late x mem z (List.mem_cons_of_mem y mem')
      cases a with
      | nil => simp
      | cons x a =>
          have second := late x List.mem_cons_self y List.mem_cons_self
          rw [List.cons_append, List.cons_merge_cons_neg le _ _ second, rest, List.cons_append]

/-- Two pieces of each list can be merged on their own if each goes in front of the other's second one. -/
theorem merge_append {a a' b b' : List α} (early : ∀ x ∈ a, ∀ y ∈ b', le x y)
    (late : ∀ x ∈ a', ∀ y ∈ b, ¬ le x y) :
    List.merge (a ++ a') (b ++ b') le = List.merge a b le ++ List.merge a' b' le := by
  induction a generalizing b with
  | nil => rw [List.nil_append, List.nil_merge, merge_append_right late]
  | cons x a iha =>
      have tail : ∀ z ∈ a, ∀ y ∈ b', le z y := fun z mem => early z (List.mem_cons_of_mem x mem)
      induction b with
      | nil => rw [List.nil_append, List.merge_right, merge_append_left early]
      | cons y b ihb =>
          have later : ∀ z ∈ a', ∀ w ∈ b, ¬ le z w := fun z mem w mem' =>
            late z mem w (List.mem_cons_of_mem y mem')
          rw [List.cons_append, List.cons_append, List.cons_merge_cons, List.cons_merge_cons]
          split
          · have next := iha tail late
            rw [List.cons_append] at next
            rw [next, List.cons_append]
          · have next := ihb later
            rw [List.cons_append] at next
            rw [next, List.cons_append]

theorem flatMap_merge (le : α → α → Bool) {l : List γ} {f g : γ → List α}
    (ordered : l.Pairwise fun c d => (∀ x ∈ f c, ∀ y ∈ g d, le x y) ∧ ∀ x ∈ f d, ∀ y ∈ g c, ¬ le x y) :
    l.flatMap (fun c => List.merge (f c) (g c) le) = List.merge (l.flatMap f) (l.flatMap g) le := by
  induction l with
  | nil => simp
  | cons c l ih =>
      obtain ⟨first, rest⟩ := List.pairwise_cons.mp ordered
      rw [List.flatMap_cons, List.flatMap_cons, List.flatMap_cons, ih rest, merge_append]
      · intro x memX y memY
        obtain ⟨d, mem, inside⟩ := List.mem_flatMap.mp memY
        exact (first d mem).1 x memX y inside
      · intro x memX y memY
        obtain ⟨d, mem, inside⟩ := List.mem_flatMap.mp memX
        exact (first d mem).2 x inside y memY

end
end Mio
