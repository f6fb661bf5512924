import Mio.Lib.Outcome

/-! Partial correctness of code over a store that may throw: one rule for each construct. -/
namespace Mio.Exec

variable {σ ε α β : Type}

/-- Started in a store with `P`, the code returns with `Q` or throws with `E`, if it ends at all. -/
def Triple (P : σ → Prop) (x : Exec σ ε α) (Q : α → σ → Prop) (E : ε → Prop) : Prop :=
  ∀ s, P s → (∀ a t, x s = .ret (a, t) → Q a t) ∧ ∀ e, x s = .throw e → E e

namespace Triple

variable {P : σ → Prop} {x : Exec σ ε α} {Q : α → σ → Prop} {E : ε → Prop}

theorem weaken {Q' : α → σ → Prop} (h : Triple P x Q E) (post : ∀ a t, Q a t → Q' a t) :
    Triple P x Q' E :=
  fun s hs => ⟨fun a t ret => post a t ((h s hs).1 a t ret), (h s hs).2⟩

theorem pure (a : α) (h : ∀ s, P s → Q a s) : Triple P (Pure.pure a) Q E := by
  intro s hs
  constructor
  · intro b t ret
    cases ret
    exact h s hs
  · intro e thrown
    cases thrown

theorem bind {f : α → Exec σ ε β} {R : β → σ → Prop} (h : Triple P x Q E)
    (next : ∀ a, Triple (Q a) (f a) R E) : Triple P (x >>= f) R E := by
  intro s hs
  constructor
  · intro b u ret
    obtain ⟨a, t, first, rest⟩ := bind_eq_ret.mp ret
    exact (next a t ((h s hs).1 a t first)).1 b u rest
  · intro e thrown
    cases bind_eq_throw.mp thrown with
    | inl first => exact (h s hs).2 e first
    | inr later =>
        obtain ⟨a, t, first, rest⟩ := later
        exact (next a t ((h s hs).1 a t first)).2 e rest

/-- Reads that cannot throw keep the store. -/
theorem read {f : σ → Outcome ε α} (silent : ∀ s, Outcome.Silent (f s))
    (h : ∀ s a, P s → f s = .ret a → Q a s) : Triple P (Exec.read f) Q E := by
  intro s hs
  constructor
  · intro a t ret
    obtain ⟨got, same⟩ := read_eq_ret.mp ret
    rw [same]
    exact h s a hs got
  · intro e thrown
    exact (silent s e (read_eq_throw.mp thrown)).elim

theorem modify {f : σ → σ} {R : Unit → σ → Prop} (h : ∀ s, P s → R () (f s)) :
    Triple P (Exec.modify f) R E := by
  intro s hs
  constructor
  · intro a t ret
    cases ret
    exact h s hs
  · intro e thrown
    cases thrown

theorem get : Triple P (Exec.get : Exec σ ε σ) (fun _ => P) E := by
  intro s hs
  constructor
  · intro a t ret
    cases ret
    exact hs
  · intro e thrown
    cases thrown

theorem throw {e : σ → ε} (h : ∀ s, P s → E (e s)) :
    Triple P (Exec.throw e : Exec σ ε α) Q E := by
  intro s hs
  constructor
  · intro a t ret
    cases ret
  · intro e' thrown
    cases thrown
    exact h s hs

theorem timeout : Triple P (Exec.timeout : Exec σ ε α) Q E := by
  intro s hs
  constructor
  · intro a t ret
    cases ret
  · intro e thrown
    cases thrown

theorem ite {p : Prop} [Decidable p] {y : Exec σ ε α} (yes : p → Triple P x Q E)
    (no : ¬ p → Triple P y Q E) : Triple P (if p then x else y) Q E := by
  by_cases h : p
  · rw [if_pos h]
    exact yes h
  · rw [if_neg h]
    exact no h

end Triple
end Mio.Exec
