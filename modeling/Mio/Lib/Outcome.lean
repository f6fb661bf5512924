import Mathlib.Tactic.Common

/-! Results of imperative code: a run returns, throws, aborts on a failed assertion, or is cut
off by its step bound. State threading, loops and recursion are built over these four endings. -/
namespace Mio

/-- `timeout` is the run that has not ended within the given number of steps. -/
inductive Outcome (ε α : Type) where
  | ret (a : α)
  | throw (e : ε)
  | abort (what : String)
  | timeout

namespace Outcome

variable {ε α β : Type}

def bind : Outcome ε α → (α → Outcome ε β) → Outcome ε β
  | .ret a, f => f a
  | .throw e, _ => .throw e
  | .abort w, _ => .abort w
  | .timeout, _ => .timeout

instance : Monad (Outcome ε) where
  pure := .ret
  bind := bind

instance : LawfulMonad (Outcome ε) :=
  LawfulMonad.mk' _ (fun x => by cases x <;> rfl) (fun _ _ => rfl) (fun x _ _ => by cases x <;> rfl)

/-- The `assert` macro. -/
def assert (p : Prop) [Decidable p] (what : String) : Outcome ε Unit :=
  if p then .ret () else .abort what

@[simp] theorem pure_eq_ret (a : α) : (pure a : Outcome ε α) = .ret a := rfl

@[simp] theorem ret_bind (a : α) (f : α → Outcome ε β) : (Outcome.ret a >>= f) = f a := rfl

@[simp] theorem throw_bind (e : ε) (f : α → Outcome ε β) :
    ((Outcome.throw e : Outcome ε α) >>= f) = .throw e := rfl

@[simp] theorem abort_bind (w : String) (f : α → Outcome ε β) :
    ((Outcome.abort w : Outcome ε α) >>= f) = .abort w := rfl

@[simp] theorem timeout_bind (f : α → Outcome ε β) :
    ((Outcome.timeout : Outcome ε α) >>= f) = .timeout := rfl

theorem bind_of_ret {x : Outcome ε α} {f : α → Outcome ε β} {a : α} (h : x = .ret a) :
    (x >>= f) = f a := by
  rw [h, ret_bind]

theorem bind_eq_ret {x : Outcome ε α} {f : α → Outcome ε β} {b : β} :
    (x >>= f) = .ret b ↔ ∃ a, x = .ret a ∧ f a = .ret b := by
  cases x <;> simp

theorem bind_eq_throw {x : Outcome ε α} {f : α → Outcome ε β} {e : ε} :
    (x >>= f) = .throw e ↔ x = .throw e ∨ ∃ a, x = .ret a ∧ f a = .throw e := by
  cases x <;> simp

theorem assert_of {p : Prop} [Decidable p] (h : p) (w : String) :
    (assert p w : Outcome ε Unit) = .ret () := if_pos h

theorem assert_eq_ret {p : Prop} [Decidable p] {w : String} {u : Unit} :
    (assert p w : Outcome ε Unit) = .ret u ↔ p := by
  unfold assert
  split <;> simp_all

theorem assert_ne_throw {p : Prop} [Decidable p] {w : String} {e : ε} :
    (assert p w : Outcome ε Unit) ≠ .throw e := by
  unfold assert
  split <;> simp

/-- Code that only asserts. -/
def Silent (x : Outcome ε α) : Prop := ∀ e, x ≠ .throw e

theorem Silent.ret (a : α) : Silent (.ret a : Outcome ε α) := fun _ h => by cases h

theorem Silent.abort (w : String) : Silent (.abort w : Outcome ε α) := fun _ h => by cases h

theorem Silent.timeout : Silent (.timeout : Outcome ε α) := fun _ h => by cases h

theorem Silent.assert {p : Prop} [Decidable p] {w : String} :
    Silent (Outcome.assert p w : Outcome ε Unit) := fun _ => assert_ne_throw

theorem Silent.bind {x : Outcome ε α} {f : α → Outcome ε β} (h : Silent x)
    (hf : ∀ a, Silent (f a)) : Silent (x >>= f) := by
  intro e thrown
  rcases bind_eq_throw.mp thrown with hx | ⟨a, -, ha⟩
  · exact h e hx
  · exact hf a e ha

/-- What is returned, if anything is, has a property. -/
def Gives (P : α → Prop) (x : Outcome ε α) : Prop := ∀ a, x = .ret a → P a

namespace Gives

variable {P : α → Prop}

theorem ret {a : α} (h : P a) : Gives P (.ret a : Outcome ε α) := by
  rintro b ⟨⟩
  exact h

theorem abort {w : String} : Gives P (.abort w : Outcome ε α) := by
  rintro b ⟨⟩

theorem bind {Q : β → Prop} {x : Outcome ε β} {f : β → Outcome ε α} (first : Gives Q x)
    (next : ∀ b, Q b → Gives P (f b)) : Gives P (x >>= f) := by
  intro a eq
  obtain ⟨b, ret, rest⟩ := bind_eq_ret.mp eq
  exact next b (first b ret) a rest

theorem any_bind {x : Outcome ε β} {f : β → Outcome ε α} (next : ∀ b, Gives P (f b)) :
    Gives P (x >>= f) := bind (Q := fun _ => True) (fun _ _ => trivial) fun b _ => next b

end Gives

theorem mapM_of_ret {f : α → Outcome ε β} {g : α → β} {l : List α} (h : ∀ a ∈ l, f a = .ret (g a)) :
    l.mapM f = .ret (l.map g) := by
  induction l with
  | nil => rfl
  | cons a l ih =>
      obtain ⟨first, rest⟩ := List.forall_mem_cons.mp h
      rw [List.mapM_cons, first, ret_bind, ih rest]
      rfl

theorem ret_of_mapM {f : α → Outcome ε β} {l : List α} {bs : List β} (h : l.mapM f = .ret bs) :
    ∀ a ∈ l, ∃ b, f a = .ret b := by
  induction l generalizing bs with
  | nil => exact fun a mem => by cases mem
  | cons first l ih =>
      rw [List.mapM_cons] at h
      obtain ⟨b, here, h⟩ := bind_eq_ret.mp h
      obtain ⟨rest, later, -⟩ := bind_eq_ret.mp h
      exact List.forall_mem_cons.mpr ⟨⟨b, here⟩, ih later⟩

theorem mapM_of_throw {f : α → Outcome ε β} {e : ε} {l : List α}
    (each : ∀ a ∈ l, (∃ b, f a = .ret b) ∨ f a = .throw e) {a : α} (mem : a ∈ l)
    (thrown : f a = .throw e) : l.mapM f = .throw e := by
  induction l with
  | nil => cases mem
  | cons first l ih =>
      obtain ⟨here, rest⟩ := List.forall_mem_cons.mp each
      rw [List.mapM_cons]
      cases here with
      | inr now => rw [now, throw_bind]
      | inl ok =>
          obtain ⟨b, ret⟩ := ok
          have later : a ∈ l := by
            cases mem with
            | head => rw [thrown] at ret; cases ret
            | tail _ later => exact later
          rw [ret, ret_bind, ih rest later, throw_bind]

theorem Silent.mapM {f : α → Outcome ε β} {l : List α} (h : ∀ a ∈ l, Silent (f a)) :
    Silent (l.mapM f) := by
  induction l with
  | nil => exact .ret []
  | cons a l ih =>
      obtain ⟨first, rest⟩ := List.forall_mem_cons.mp h
      rw [List.mapM_cons]
      exact first.bind fun _ => (ih rest).bind fun _ => .ret _

/-- The run returns or throws. -/
def Ends (x : Outcome ε α) : Prop := (∃ a, x = .ret a) ∨ ∃ e, x = .throw e

theorem Ends.ret (a : α) : Ends (.ret a : Outcome ε α) := .inl ⟨a, rfl⟩

theorem Ends.throw (e : ε) : Ends (.throw e : Outcome ε α) := .inr ⟨e, rfl⟩

theorem not_ends_abort {w : String} : ¬ Ends (.abort w : Outcome ε α) := by
  rintro (⟨a, h⟩ | ⟨e, h⟩) <;> cases h

theorem not_ends_timeout : ¬ Ends (.timeout : Outcome ε α) := by
  rintro (⟨a, h⟩ | ⟨e, h⟩) <;> cases h

/-- From some bound on, the run returns `a`. -/
def Reaches (x : ℕ → Outcome ε α) (a : α) : Prop := ∃ n, ∀ fuel, n ≤ fuel → x fuel = .ret a

namespace Reaches

variable {x : ℕ → Outcome ε α} {a : α}

theorem of_ret (h : ∀ fuel, x fuel = .ret a) : Reaches x a := ⟨0, fun fuel _ => h fuel⟩

theorem pure (a : α) : Reaches (fun _ => (Pure.pure a : Outcome ε α)) a := of_ret fun _ => rfl

theorem bind {f : ℕ → α → Outcome ε β} {b : β} (h : Reaches x a)
    (g : Reaches (fun fuel => f fuel a) b) : Reaches (fun fuel => x fuel >>= f fuel) b := by
  obtain ⟨n, hn⟩ := h
  obtain ⟨m, hm⟩ := g
  refine ⟨n + m, fun fuel le => ?_⟩
  simp only [hn fuel (by omega)]
  exact hm fuel (by omega)

/-- One turn of a bounded recursion. -/
theorem step {y : ℕ → Outcome ε α} (turn : ∀ fuel, x (fuel + 1) = y fuel) (h : Reaches y a) :
    Reaches x a := by
  obtain ⟨n, hn⟩ := h
  refine ⟨n + 1, fun fuel le => ?_⟩
  obtain ⟨fuel, rfl⟩ : ∃ k, fuel = k + 1 := ⟨fuel - 1, by omega⟩
  rw [turn]
  exact hn fuel (Nat.le_of_succ_le_succ le)

theorem unique {b : α} (h : Reaches x a) (g : Reaches x b) : a = b := by
  obtain ⟨n, hn⟩ := h
  obtain ⟨m, hm⟩ := g
  have eq := (hn (n + m) (Nat.le_add_right n m)).symm.trans (hm (n + m) (Nat.le_add_left m n))
  cases eq
  rfl

theorem returns (h : Reaches x a) : ∃ fuel, x fuel = .ret a := by
  obtain ⟨n, hn⟩ := h
  exact ⟨n, hn n (Nat.le_refl n)⟩

end Reaches

/-- What is returned within a number of steps is returned within more. -/
def Settles (x : ℕ → Outcome ε α) : Prop := ∀ n a, x n = .ret a → x (n + 1) = .ret a

namespace Settles

variable {x : ℕ → Outcome ε α}

theorem later (h : Settles x) {n : ℕ} {a : α} (ret : x n = .ret a) (k : ℕ) : x (n + k) = .ret a := by
  induction k with
  | zero => exact ret
  | succ k ih => exact h _ _ ih

theorem eq_of_ret (h : Settles x) {m n : ℕ} {a b : α} (first : x m = .ret a) (second : x n = .ret b) : a = b := by
  have both := h.later first n
  rw [Nat.add_comm, h.later second m] at both
  exact (Outcome.ret.inj both).symm

theorem reaches (h : Settles x) {n : ℕ} {a : α} (ret : x n = .ret a) : Reaches x a := by
  refine ⟨n, fun fuel le => ?_⟩
  obtain ⟨k, rfl⟩ := Nat.exists_eq_add_of_le le
  exact h.later ret k

/-- Whatever is returned is what is returned in the end. -/
theorem unique (h : Settles x) {n : ℕ} {a b : α} (ret : x n = .ret a) (reaches : Reaches x b) :
    a = b := (h.reaches ret).unique reaches

end Settles

end Outcome

/-- Code over a store `σ`; a thrown `ε` carries whatever store it leaves behind. -/
def Exec (σ ε α : Type) : Type := σ → Outcome ε (α × σ)

namespace Exec

variable {σ ε α β : Type}

instance : Monad (Exec σ ε) where
  pure a := fun s => .ret (a, s)
  bind x f := fun s => x s >>= fun p => f p.1 p.2

def get : Exec σ ε σ := fun s => .ret (s, s)

def modify (f : σ → σ) : Exec σ ε Unit := fun s => .ret ((), f s)

/-- Code that only reads the store. -/
def read (f : σ → Outcome ε α) : Exec σ ε α := fun s => f s >>= fun a => .ret (a, s)

def assert (p : Prop) [Decidable p] (what : String) : Exec σ ε Unit :=
  read fun _ => Outcome.assert p what

def timeout : Exec σ ε α := fun _ => .timeout

/-- An exception that may look at the store it leaves behind. -/
def throw (e : σ → ε) : Exec σ ε α := fun s => .throw (e s)

@[simp] theorem pure_run (a : α) (s : σ) : (pure a : Exec σ ε α) s = .ret (a, s) := rfl

@[simp] theorem get_run (s : σ) : (get : Exec σ ε σ) s = .ret (s, s) := rfl

@[simp] theorem modify_run (f : σ → σ) (s : σ) : (modify f : Exec σ ε Unit) s = .ret ((), f s) := rfl

@[simp] theorem throw_run (e : σ → ε) (s : σ) : (throw e : Exec σ ε α) s = .throw (e s) := rfl

@[simp] theorem timeout_run (s : σ) : (timeout : Exec σ ε α) s = .timeout := rfl

theorem bind_run (x : Exec σ ε α) (f : α → Exec σ ε β) (s : σ) :
    (x >>= f) s = x s >>= fun p => f p.1 p.2 := rfl

theorem bind_of_ret {x : Exec σ ε α} {f : α → Exec σ ε β} {s s' : σ} {a : α}
    (h : x s = .ret (a, s')) : (x >>= f) s = f a s' := by
  rw [bind_run, h]
  rfl

theorem bind_eq_ret {x : Exec σ ε α} {f : α → Exec σ ε β} {s s' : σ} {b : β} :
    (x >>= f) s = .ret (b, s') ↔ ∃ a t, x s = .ret (a, t) ∧ f a t = .ret (b, s') := by
  rw [bind_run, Outcome.bind_eq_ret]
  exact Prod.exists

theorem bind_eq_throw {x : Exec σ ε α} {f : α → Exec σ ε β} {s : σ} {e : ε} :
    (x >>= f) s = .throw e ↔
      x s = .throw e ∨ ∃ a t, x s = .ret (a, t) ∧ f a t = .throw e := by
  rw [bind_run, Outcome.bind_eq_throw]
  exact or_congr Iff.rfl Prod.exists

theorem read_eq_ret {f : σ → Outcome ε α} {s s' : σ} {a : α} :
    read f s = .ret (a, s') ↔ f s = .ret a ∧ s' = s := by
  unfold read
  rw [Outcome.bind_eq_ret]
  constructor
  · rintro ⟨b, hb, he⟩
    cases he
    exact ⟨hb, rfl⟩
  · rintro ⟨h, rfl⟩
    exact ⟨a, h, rfl⟩

theorem read_of_ret {f : σ → Outcome ε α} {s : σ} {a : α} (h : f s = .ret a) :
    read f s = .ret (a, s) := read_eq_ret.mpr ⟨h, rfl⟩

theorem read_eq_throw {f : σ → Outcome ε α} {s : σ} {e : ε} :
    read f s = .throw e ↔ f s = .throw e := by
  unfold read
  cases f s <;> simp

theorem assert_eq_ret {p : Prop} [Decidable p] {w : String} {s s' : σ} {u : Unit} :
    (assert p w : Exec σ ε Unit) s = .ret (u, s') ↔ p ∧ s' = s := by
  unfold assert
  rw [read_eq_ret, Outcome.assert_eq_ret]

/-- Reading first leaves the store to the rest. -/
theorem read_bind_eq_ret {f : σ → Outcome ε α} {g : α → Exec σ ε β} {s s' : σ} {b : β} :
    (read f >>= g) s = .ret (b, s') ↔ ∃ a, f s = .ret a ∧ g a s = .ret (b, s') := by
  rw [bind_eq_ret]
  constructor
  · rintro ⟨a, t, hr, hg⟩
    obtain ⟨ha, rfl⟩ := read_eq_ret.mp hr
    exact ⟨a, ha, hg⟩
  · rintro ⟨a, ha, hg⟩
    exact ⟨a, s, read_of_ret ha, hg⟩

theorem assert_bind_eq_ret {p : Prop} [Decidable p] {w : String} {g : Unit → Exec σ ε β}
    {s s' : σ} {b : β} :
    (assert p w >>= g) s = .ret (b, s') ↔ p ∧ g () s = .ret (b, s') := by
  rw [assert, read_bind_eq_ret]
  constructor
  · rintro ⟨_, hp, hg⟩
    exact ⟨Outcome.assert_eq_ret.mp hp, hg⟩
  · rintro ⟨hp, hg⟩
    exact ⟨(), Outcome.assert_of hp w, hg⟩

theorem modify_bind_eq_ret {f : σ → σ} {g : Unit → Exec σ ε β} {s s' : σ} {b : β} :
    (modify f >>= g) s = .ret (b, s') ↔ g () (f s) = .ret (b, s') := Iff.rfl

theorem read_bind_eq_throw {f : σ → Outcome ε α} {g : α → Exec σ ε β} {s : σ} {e : ε} :
    (read f >>= g) s = .throw e ↔ f s = .throw e ∨ ∃ a, f s = .ret a ∧ g a s = .throw e := by
  rw [bind_eq_throw, read_eq_throw]
  refine or_congr Iff.rfl ?_
  constructor
  · rintro ⟨a, t, hr, hg⟩
    obtain ⟨ha, rfl⟩ := read_eq_ret.mp hr
    exact ⟨a, ha, hg⟩
  · rintro ⟨a, ha, hg⟩
    exact ⟨a, s, read_of_ret ha, hg⟩

theorem assert_bind_eq_throw {p : Prop} [Decidable p] {w : String} {g : Unit → Exec σ ε β}
    {s : σ} {e : ε} : (assert p w >>= g) s = .throw e ↔ p ∧ g () s = .throw e := by
  rw [assert, read_bind_eq_throw]
  constructor
  · rintro (bad | ⟨_, hp, hg⟩)
    · exact (Outcome.assert_ne_throw bad).elim
    · exact ⟨Outcome.assert_eq_ret.mp hp, hg⟩
  · rintro ⟨hp, hg⟩
    exact .inr ⟨(), Outcome.assert_of hp w, hg⟩

theorem read_bind_ends {f : σ → Outcome ε α} {g : α → Exec σ ε β} {s : σ} {x : Outcome ε (β × σ)}
    (h : (read f >>= g) s = x) (ends : x.Ends) (silent : Outcome.Silent (f s)) :
    ∃ a, f s = .ret a ∧ g a s = x := by
  rw [bind_run, read] at h
  cases run : f s with
  | ret a =>
      rw [run] at h
      exact ⟨a, rfl, h⟩
  | throw e => exact (silent e run).elim
  | abort w =>
      rw [run] at h
      exact (Outcome.not_ends_abort (h ▸ ends)).elim
  | timeout =>
      rw [run] at h
      exact (Outcome.not_ends_timeout (h ▸ ends)).elim

theorem assert_bind_ends {p : Prop} [Decidable p] {w : String} {g : Unit → Exec σ ε β} {s : σ}
    {x : Outcome ε (β × σ)} (h : (assert p w >>= g) s = x) (ends : x.Ends) : p ∧ g () s = x := by
  obtain ⟨_, holds, rest⟩ := read_bind_ends h ends Outcome.Silent.assert
  exact ⟨Outcome.assert_eq_ret.mp holds, rest⟩

theorem modify_bind_eq_throw {f : σ → σ} {g : Unit → Exec σ ε β} {s : σ} {e : ε} :
    (modify f >>= g) s = .throw e ↔ g () (f s) = .throw e := Iff.rfl

theorem assert_of {p : Prop} [Decidable p] (h : p) (w : String) (s : σ) :
    (assert p w : Exec σ ε Unit) s = .ret ((), s) := assert_eq_ret.mpr ⟨h, rfl⟩

theorem assert_ne_throw {p : Prop} [Decidable p] {w : String} {s : σ} {e : ε} :
    (assert p w : Exec σ ε Unit) s ≠ .throw e := by
  intro h
  have he := read_eq_throw.mp h
  exact Outcome.assert_ne_throw he

/-- From some bound on, the code run in `s` returns `a` and leaves `t`. -/
def Reaches (x : ℕ → Exec σ ε α) (s : σ) (a : α) (t : σ) : Prop :=
  Outcome.Reaches (fun fuel => x fuel s) (a, t)

namespace Reaches

variable {x : ℕ → Exec σ ε α} {s t : σ} {a : α}

theorem of_ret (h : ∀ fuel, x fuel s = .ret (a, t)) : Reaches x s a t := Outcome.Reaches.of_ret h

theorem bind {f : ℕ → α → Exec σ ε β} {b : β} {u : σ} (h : Reaches x s a t)
    (g : Reaches (fun fuel => f fuel a) t b u) : Reaches (fun fuel => x fuel >>= f fuel) s b u := by
  have next : Outcome.Reaches (fun fuel => (fun (n : ℕ) (p : α × σ) => f n p.1 p.2) fuel (a, t)) (b, u) := g
  exact Outcome.Reaches.bind h next

theorem read {f : ℕ → σ → Outcome ε α} (h : Outcome.Reaches (fun fuel => f fuel s) a) :
    Reaches (fun fuel => Exec.read (f fuel)) s a s :=
  Outcome.Reaches.bind h (.of_ret fun _ => rfl)

theorem step {y : ℕ → Exec σ ε α} (turn : ∀ fuel, x (fuel + 1) = y fuel) (h : Reaches y s a t) :
    Reaches x s a t :=
  Outcome.Reaches.step (fun fuel => congrFun (turn fuel) s) h

end Reaches

end Exec
end Mio
