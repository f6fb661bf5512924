import Mio.Lib.Outcome

/-! What C leaves undefined. -/
namespace Mio

inductive Undefined where
  | null
  | outOfBounds
  | uninitialised
  | dangling
  | overflow
deriving DecidableEq

/-- `strcmp`: whether two strings are the same, and what a null pointer leads to. -/
def strcmp {ε α : Type} [DecidableEq α] (null : Outcome ε Bool) : Option (List α) → Option (List α) → Outcome ε Bool
  | some a, some b => .ret (a = b)
  | _, _ => null

@[simp] theorem strcmp_some {ε α : Type} [DecidableEq α] (null : Outcome ε Bool) (a b : List α) :
    strcmp null (some a) (some b) = .ret (a = b) := rfl

end Mio
