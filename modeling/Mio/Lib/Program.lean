import Mathlib.Logic.Function.Basic
import Mio.Lib.Persist

/-! Programs over a key-value store, written as the requests they make. Between any two requests other
programs may make theirs. -/
namespace Mio

inductive Request (κ ν : Type) where
  | hasKey (key : κ)
  | get (key : κ)
  | set (key : κ) (value : ν)
  | del (key : κ)

namespace Request

variable {κ ν : Type}

def key : Request κ ν → κ
  | .hasKey key | .get key | .set key _ | .del key => key

abbrev Answer : Request κ ν → Type
  | .hasKey _ | .del _ => Bool
  | .get _ => Option ν
  | .set _ _ => Unit

/-- The store's side: a finite map. -/
def handle [DecidableEq κ] : (r : Request κ ν) → (κ → Option ν) → r.Answer × (κ → Option ν)
  | .hasKey key, s => ((s key).isSome, s)
  | .get key, s => (s key, s)
  | .set key value, s => ((), Function.update s key (some value))
  | .del key, s => ((s key).isSome, Function.update s key none)

def Within (keys : κ → Prop) (file : κ) (r : Request κ ν) : Prop :=
  keys r.key ∧ r ≠ .del file

end Request

inductive Program (κ ν ε α : Type) where
  | done (o : Outcome ε α)
  | request (r : Request κ ν) (next : r.Answer → Program κ ν ε α)

namespace Outcome

variable {ε ε' α β : Type}

/-- The same ending without an exception. -/
inductive Alike : Outcome ε α → Outcome ε' α → Prop
  | ret (a : α) : Alike (.ret a) (.ret a)
  | abort (w : String) : Alike (.abort w) (.abort w)
  | timeout : Alike .timeout .timeout

namespace Alike

theorem assert (p : Prop) [Decidable p] (w : String) :
    Alike (Outcome.assert p w : Outcome ε Unit) (Outcome.assert p w : Outcome ε' Unit) := by
  unfold Outcome.assert
  split
  · exact .ret ()
  · exact .abort w

theorem bind {x : Outcome ε α} {y : Outcome ε' α} {f : α → Outcome ε β} {g : α → Outcome ε' β}
    (first : Alike x y) (next : ∀ a, Alike (f a) (g a)) : Alike (x >>= f) (y >>= g) := by
  cases first with
  | ret a => exact next a
  | abort w => exact .abort w
  | timeout => exact .timeout

theorem foldlM {γ : Type} {f : β → γ → Outcome ε β} {g : β → γ → Outcome ε' β}
    (each : ∀ b c, Alike (f b c) (g b c)) (l : List γ) (b : β) : Alike (l.foldlM f b) (l.foldlM g b) := by
  induction l generalizing b with
  | nil => exact .ret b
  | cons c l ih =>
      rw [List.foldlM_cons, List.foldlM_cons]
      exact (each b c).bind ih

end Alike

end Outcome

/-- Two stores that hold the same under some keys. -/
def Agree {κ ν : Type} (keys : κ → Prop) (s t : κ → Option ν) : Prop := ∀ k, keys k → s k = t k

namespace Agree

variable {κ ν : Type} {keys : κ → Prop} {s t u : κ → Option ν}

theorem symm (h : Agree keys s t) : Agree keys t s := fun k mem => (h k mem).symm

theorem trans (h : Agree keys s t) (g : Agree keys t u) : Agree keys s u :=
  fun k mem => (h k mem).trans (g k mem)

end Agree

namespace Request

variable {κ ν : Type} [DecidableEq κ] {keys : κ → Prop} {file : κ} {s t : κ → Option ν}

theorem handle_agree {r : Request κ ν} (h : Agree keys s t) (mem : keys r.key) :
    (r.handle s).1 = (r.handle t).1 ∧ Agree keys (r.handle s).2 (r.handle t).2 := by
  cases r with
  | hasKey key => exact ⟨congrArg Option.isSome (h key mem), h⟩
  | get key => exact ⟨h key mem, h⟩
  | set key value =>
      refine ⟨rfl, fun k other => ?_⟩
      change Function.update s key _ k = Function.update t key _ k
      rw [Function.update_apply, Function.update_apply, h k other]
  | del key =>
      refine ⟨congrArg Option.isSome (h key mem), fun k other => ?_⟩
      change Function.update s key _ k = Function.update t key _ k
      rw [Function.update_apply, Function.update_apply, h k other]

theorem handle_other (r : Request κ ν) (s : κ → Option ν) {k : κ} (ne : k ≠ r.key) :
    (r.handle s).2 k = s k := by
  cases r with
  | hasKey key => rfl
  | get key => rfl
  | set key value => exact Function.update_of_ne ne _ _
  | del key => exact Function.update_of_ne ne _ _

/-- Only a deletion takes a key away. -/
theorem handle_keeps {r : Request κ ν} {k : κ} (ne : r ≠ .del k) (has : s k ≠ none) :
    (r.handle s).2 k ≠ none := by
  by_cases same : k = r.key
  · subst same
    cases r with
    | hasKey key => exact has
    | get key => exact has
    | set key value =>
        change Function.update s key (some value) key ≠ none
        rw [Function.update_self]
        exact Option.some_ne_none value
    | del key => exact (ne rfl).elim
  · rw [handle_other r s same]
    exact has

end Request

namespace Program

variable {κ ν ε α β : Type}

def bind (f : α → Program κ ν ε β) : Program κ ν ε α → Program κ ν ε β
  | .done (.ret a) => f a
  | .done (.throw e) => .done (.throw e)
  | .done (.abort w) => .done (.abort w)
  | .done .timeout => .done .timeout
  | .request r next => .request r fun answer => (next answer).bind f

instance : Monad (Program κ ν ε) where
  pure a := .done (.ret a)
  bind x f := x.bind f

def assert (p : Prop) [Decidable p] (what : String) : Program κ ν ε Unit := .done (.assert p what)

def ask (r : Request κ ν) : Program κ ν ε r.Answer := .request r fun answer => .done (.ret answer)

section
variable [DecidableEq κ]

/-- All requests in one go, with no other program around. -/
def run : Program κ ν ε α → Persist (κ → Option ν) ε α
  | .done o, s => (o, s)
  | .request r next, s => (next (r.handle s).1).run (r.handle s).2

@[simp] theorem run_done (o : Outcome ε α) (s : κ → Option ν) : (done o).run s = (o, s) := rfl

@[simp] theorem run_pure (a : α) (s : κ → Option ν) :
    (pure a : Program κ ν ε α).run s = (.ret a, s) := rfl

theorem run_bind (x : Program κ ν ε α) (f : α → Program κ ν ε β) (s : κ → Option ν) :
    (x >>= f).run s = (x.run >>= fun a => (f a).run) s := by
  change (x.bind f).run s = Persist.bind x.run (fun a => (f a).run) s
  induction x generalizing s with
  | done o => cases o <;> rfl
  | request r next ih => exact ih (r.handle s).1 (r.handle s).2

theorem run_bind_ret {x : Program κ ν ε α} {f : α → Program κ ν ε β} {s t : κ → Option ν} {a : α}
    (h : x.run s = (.ret a, t)) : (x >>= f).run s = (f a).run t := by
  rw [run_bind]
  exact Persist.bind_of_ret h

end

def Within (keys : κ → Prop) (file : κ) : Program κ ν ε α → Prop
  | .done _ => True
  | .request r next => r.Within keys file ∧ ∀ answer, (next answer).Within keys file

namespace Within

variable {keys : κ → Prop} {file : κ} {x : Program κ ν ε α}

theorem done (o : Outcome ε α) : (Program.done o : Program κ ν ε α).Within keys file := trivial

theorem pure (a : α) : (Pure.pure a : Program κ ν ε α).Within keys file := trivial

theorem assert {p : Prop} [Decidable p] {w : String} :
    (Program.assert p w : Program κ ν ε Unit).Within keys file := trivial

theorem ask {r : Request κ ν} (h : r.Within keys file) :
    (Program.ask r : Program κ ν ε r.Answer).Within keys file := ⟨h, fun _ => trivial⟩

theorem bind {f : α → Program κ ν ε β} (first : x.Within keys file)
    (next : ∀ a, (f a).Within keys file) : (x >>= f).Within keys file := by
  change (x.bind f).Within keys file
  induction x with
  | done o =>
      cases o with
      | ret a => exact next a
      | throw e => trivial
      | abort w => trivial
      | timeout => trivial
  | request r rest ih => exact ⟨first.1, fun answer => ih answer (first.2 answer)⟩

section
variable [DecidableEq κ] {s t : κ → Option ν}

/-- A program sees nothing but its keys. -/
theorem run_agree (within : x.Within keys file) (h : Agree keys s t) :
    (x.run s).1 = (x.run t).1 ∧ Agree keys (x.run s).2 (x.run t).2 := by
  induction x generalizing s t with
  | done o => exact ⟨rfl, h⟩
  | request r next ih =>
      obtain ⟨answer, rest⟩ := Request.handle_agree h within.1.1
      simp only [run]
      rw [← answer]
      exact ih _ (within.2 _) rest

theorem run_outside (within : x.Within keys file) {k : κ} (out : ¬ keys k) : (x.run s).2 k = s k := by
  induction x generalizing s with
  | done o => rfl
  | request r next ih =>
      have ne : k ≠ r.key := by
        rintro rfl
        exact out within.1.1
      exact (ih _ (within.2 _)).trans (Request.handle_other r s ne)

end
end Within

/-- How a store looks from a state `σ`: what is seen of it, when that is all of it, and what becomes of
an exception. -/
structure View (κ ν σ ε ε' : Type) where
  look : (κ → Option ν) → σ
  fit : (κ → Option ν) → Prop
  fail : ε → σ → ε'

namespace View

variable {σ ε' : Type} (V : View κ ν σ ε ε')

def carry : Outcome ε α × (κ → Option ν) → Outcome ε' (α × σ)
  | (.ret a, s) => .ret (a, V.look s)
  | (.throw e, s) => .throw (V.fail e (V.look s))
  | (.abort w, _) => .abort w
  | (.timeout, _) => .timeout

variable [DecidableEq κ]

/-- The program does to the store what the code does to the state. -/
def Simulates (x : Program κ ν ε α) (y : Exec σ ε' α) : Prop :=
  ∀ s, V.fit s → V.fit (x.run s).2 ∧ y (V.look s) = V.carry (x.run s)

variable {V}

theorem Simulates.done {o : Outcome ε α} {f : σ → Outcome ε' α}
    (same : ∀ s, f (V.look s) = match o with
      | .ret a => .ret a
      | .throw e => .throw (V.fail e (V.look s))
      | .abort w => .abort w
      | .timeout => .timeout) : V.Simulates (.done o) (Exec.read f) := by
  intro s fit
  refine ⟨fit, ?_⟩
  rw [Exec.read, same]
  cases o <;> rfl

/-- Code that never throws does not depend on the exceptions there are. -/
theorem Simulates.alike {o : Outcome ε α} {o' : Outcome ε' α} (h : o.Alike o') :
    V.Simulates (.done o) (Exec.read fun _ => o') := by
  refine .done fun _ => ?_
  cases h <;> rfl

theorem Simulates.pure (a : α) : V.Simulates (Pure.pure a) (Pure.pure a) := fun _ fit => ⟨fit, rfl⟩

theorem Simulates.timeout : V.Simulates (.done .timeout : Program κ ν ε α) Exec.timeout :=
  fun _ fit => ⟨fit, rfl⟩

theorem Simulates.assert (p : Prop) [Decidable p] (w : String) :
    V.Simulates (Program.assert p w) (Exec.assert p w) := by
  refine .done fun s => ?_
  unfold Outcome.assert
  split <;> rfl

theorem Simulates.bind {x : Program κ ν ε α} {y : Exec σ ε' α} {f : α → Program κ ν ε β}
    {g : α → Exec σ ε' β} (first : V.Simulates x y) (next : ∀ a, V.Simulates (f a) (g a)) :
    V.Simulates (x >>= f) (y >>= g) := by
  intro s fit
  obtain ⟨fit', run⟩ := first s fit
  rw [Program.run_bind, Exec.bind_run, run]
  change V.fit (Persist.bind x.run (fun a => (f a).run) s).2 ∧
    _ = V.carry (Persist.bind x.run (fun a => (f a).run) s)
  rw [Persist.bind]
  rcases ended : x.run s with ⟨o, t⟩
  rw [ended] at fit'
  cases o with
  | ret a => exact next a t fit'
  | throw e => exact ⟨fit', rfl⟩
  | abort w => exact ⟨fit', rfl⟩
  | timeout => exact ⟨fit', rfl⟩

theorem Simulates.of_eq {x : Program κ ν ε α} {y y' : Exec σ ε' α} (h : V.Simulates x y)
    (eq : y' = y) : V.Simulates x y' := by
  rw [eq]
  exact h

end View

end Program

namespace Exec

variable {σ ε α β : Type}

theorem read_bind (f : σ → Outcome ε α) (g : σ → α → Outcome ε β) :
    (read fun s => f s >>= g s : Exec σ ε β) = read f >>= fun a => read fun s => g s a := by
  funext s
  change (f s >>= g s) >>= _ = (f s >>= _) >>= _
  cases f s <;> rfl

end Exec
end Mio
