import Mio.Lib.Outcome

/-! Code over a state that outlives every ending of the code, as a disk does. -/
namespace Mio

def Persist (σ ε α : Type) : Type := σ → Outcome ε α × σ

namespace Persist

variable {σ ε α β : Type}

def bind (x : Persist σ ε α) (f : α → Persist σ ε β) : Persist σ ε β := fun s =>
  match x s with
  | (.ret a, s) => f a s
  | (.throw e, s) => (.throw e, s)
  | (.abort w, s) => (.abort w, s)
  | (.timeout, s) => (.timeout, s)

instance : Monad (Persist σ ε) where
  pure a := fun s => (.ret a, s)
  bind := bind

def look (f : σ → Outcome ε α) : Persist σ ε α := fun s => (f s, s)

def lift (x : Outcome ε α) : Persist σ ε α := look fun _ => x

def throw (e : ε) : Persist σ ε α := lift (.throw e)

def mapThrow {ε' : Type} (f : ε → ε') (x : Persist σ ε α) : Persist σ ε' α := fun s =>
  match x s with
  | (.ret a, s) => (.ret a, s)
  | (.throw e, s) => (.throw (f e), s)
  | (.abort w, s) => (.abort w, s)
  | (.timeout, s) => (.timeout, s)

@[simp] theorem pure_run (a : α) (s : σ) : (pure a : Persist σ ε α) s = (.ret a, s) := rfl

@[simp] theorem look_run (f : σ → Outcome ε α) (s : σ) : look f s = (f s, s) := rfl

@[simp] theorem lift_run (x : Outcome ε α) (s : σ) : (lift x : Persist σ ε α) s = (x, s) := rfl

@[simp] theorem throw_run (e : ε) (s : σ) : (throw e : Persist σ ε α) s = (.throw e, s) := rfl

@[simp] theorem mapThrow_snd {ε' : Type} (f : ε → ε') (x : Persist σ ε α) (s : σ) :
    (x.mapThrow f s).2 = (x s).2 := by
  rw [mapThrow]
  split
  all_goals
    next ended => rw [ended]

theorem bind_of_ret {x : Persist σ ε α} {f : α → Persist σ ε β} {s s' : σ} {a : α}
    (h : x s = (.ret a, s')) : (x >>= f) s = f a s' := by
  change bind x f s = _
  rw [bind, h]

theorem bind_of_throw {x : Persist σ ε α} {f : α → Persist σ ε β} {s s' : σ} {e : ε}
    (h : x s = (.throw e, s')) : (x >>= f) s = (.throw e, s') := by
  change bind x f s = _
  rw [bind, h]

/-- However it ends, the states before and after are related. -/
def Moves (R : σ → σ → Prop) (x : Persist σ ε α) : Prop := ∀ s, R s (x s).2

namespace Moves

variable {R : σ → σ → Prop} {x : Persist σ ε α} {f : α → Persist σ ε β}

theorem look (refl : ∀ s, R s s) (f : σ → Outcome ε α) : Moves R (look f) := refl

theorem bind (trans : ∀ {a b c}, R a b → R b c → R a c) (first : Moves R x)
    (next : ∀ a, Moves R (f a)) : Moves R (x >>= f) := by
  intro s
  change R s (Persist.bind x f s).2
  rw [Persist.bind]
  have moved := first s
  split
  · next a s' ended =>
      rw [ended] at moved
      exact trans moved (next a s')
  all_goals
    next ended =>
      rw [ended] at moved
      exact moved

theorem mapThrow {ε' : Type} (h : Moves R x) (g : ε → ε') : Moves R (x.mapThrow g) := by
  intro s
  rw [mapThrow_snd]
  exact h s

end Moves

/-- The state stays as it is, however the code ends. -/
def Still (x : Persist σ ε α) : Prop := Moves (fun s s' => s' = s) x

namespace Still

variable {x : Persist σ ε α} {f : α → Persist σ ε β}

theorem look (f : σ → Outcome ε α) : Still (look f) := Moves.look (fun _ => rfl) f

theorem lift (x : Outcome ε α) : Still (lift x : Persist σ ε α) := look _

theorem pure (a : α) : Still (pure a : Persist σ ε α) := fun _ => rfl

theorem bind (first : Still x) (next : ∀ a, Still (f a)) : Still (x >>= f) :=
  Moves.bind (fun same same' => same'.trans same) first next

theorem mapThrow {ε' : Type} (h : Still x) (g : ε → ε') : Still (x.mapThrow g) :=
  Moves.mapThrow h g

/-- Only the first part changes anything. -/
theorem after (x : Persist σ ε α) (next : ∀ a, Still (f a)) (s : σ) : ((x >>= f) s).2 = (x s).2 := by
  change (Persist.bind x f s).2 = _
  rw [Persist.bind]
  split
  · next a s' ended => rw [ended, next a s']
  all_goals
    next ended => rw [ended]

end Still

end Persist
end Mio
