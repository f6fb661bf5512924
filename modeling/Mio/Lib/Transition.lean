import Mathlib.Data.List.Basic
import Mathlib.Logic.Relation

/-! Transition systems: the states that runs lead to, invariants, and runs whose steps all meet a
condition. -/
namespace Mio

structure System (σ ε : Type) where
  init : σ → Prop
  step : σ → ε → σ → Prop

namespace System

variable {σ ε : Type}

inductive Reachable (S : System σ ε) : σ → Prop
  | init {s} (start : S.init s) : Reachable S s
  | step {s e t} (run : Reachable S s) (step : S.step s e t) : Reachable S t

/-- Some steps lead from one state to the other. -/
def Leads (S : System σ ε) : σ → σ → Prop := Relation.ReflTransGen fun s t => ∃ e, S.step s e t

/-- Only those steps that meet a condition on the state before. -/
def restrict (S : System σ ε) (C : σ → ε → Prop) : System σ ε :=
  ⟨S.init, fun s e t => C s e ∧ S.step s e t⟩

/-- One initial state and a partial function. -/
def ofNext (start : σ) (next : σ → ε → Option σ) : System σ ε :=
  ⟨fun s => s = start, fun s e t => next s e = some t⟩

variable {S : System σ ε} {C : σ → ε → Prop} {s t : σ}

/-- What holds at first and is kept by every step holds of every state reached. -/
theorem Reachable.induct {I : σ → Prop} (init : ∀ s, S.init s → I s)
    (step : ∀ s e t, I s → S.step s e t → I t) (run : S.Reachable s) : I s := by
  induction run with
  | init start => exact init _ start
  | step _ h ih => exact step _ _ _ ih h

theorem Leads.one {e : ε} (h : S.step s e t) : S.Leads s t := .single ⟨e, h⟩

theorem Leads.trans {u : σ} (h : S.Leads s t) (g : S.Leads t u) : S.Leads s u :=
  Relation.ReflTransGen.trans h g

theorem Reachable.leads (run : S.Reachable s) (h : S.Leads s t) : S.Reachable t := by
  induction h with
  | refl => exact run
  | tail _ last ih =>
      obtain ⟨e, step⟩ := last
      exact ih.step step

theorem Reachable.stays (_ : S.Reachable s) : S.Leads s s := .refl

theorem Reachable.exec {start : σ} {next : σ → ε → Option σ} (events : List ε)
    (run : (ofNext start next).Reachable s) (h : events.foldlM next s = some t) :
    (ofNext start next).Reachable t := by
  induction events generalizing s with
  | nil =>
      cases h
      exact run
  | cons e events ih =>
      rw [List.foldlM_cons] at h
      obtain ⟨u, first, rest⟩ := Option.bind_eq_some_iff.mp h
      exact ih (.step run first) rest

/-- The same with the condition checked before every step. -/
theorem Reachable.exec_restrict {start : σ} {next : σ → ε → Option σ} [∀ s e, Decidable (C s e)]
    (events : List ε) (run : ((ofNext start next).restrict C).Reachable s)
    (h : events.foldlM (fun s e => if C s e then next s e else none) s = some t) :
    ((ofNext start next).restrict C).Reachable t := by
  induction events generalizing s with
  | nil =>
      cases h
      exact run
  | cons e events ih =>
      rw [List.foldlM_cons] at h
      obtain ⟨u, first, rest⟩ := Option.bind_eq_some_iff.mp h
      split at first
      · next holds => exact ih (.step run ⟨holds, first⟩) rest
      · cases first

end System
end Mio
