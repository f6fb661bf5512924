import Mathlib.Tactic.Common
import Mio.Lib.Outcome

/-! Blocks of memory that are allocated, read and freed, each by its address. -/
namespace Mio

/-- The contents of the blocks, and whether they are still allocated. -/
abbrev Blocks (α : Type) := List (α × Bool)

namespace Blocks

variable {α ε : Type} {h h' : Blocks α} {a b : ℕ} {x : α}

def Live (h : Blocks α) (a : ℕ) (x : α) : Prop := h[a]? = some (x, true)

def Freed (h : Blocks α) (a : ℕ) : Prop := ∃ x, h[a]? = some (x, false)

def alloc (h : Blocks α) (x : α) : Blocks α × ℕ := (h ++ [(x, true)], h.length)

/-- Only what is allocated can be read. -/
def read (bad : ε) (h : Blocks α) (a : ℕ) : Outcome ε α :=
  match h[a]? with
  | some (x, true) => .ret x
  | _ => .throw bad

/-- Only what is allocated can be freed. -/
def free (bad : ε) (h : Blocks α) (a : ℕ) : Outcome ε (Blocks α) :=
  match h[a]? with
  | some (x, true) => .ret (h.set a (x, false))
  | _ => .throw bad

theorem Live.not_freed (live : h.Live a x) : ¬ h.Freed a := by
  rintro ⟨y, freed⟩
  cases live.symm.trans freed

theorem live_alloc (h : Blocks α) (x : α) : (h.alloc x).1.Live (h.alloc x).2 x := List.getElem?_concat_length

theorem Live.alloc (live : h.Live a x) (y : α) : (h.alloc y).1.Live a x :=
  List.getElem?_append_left (List.getElem?_eq_some_iff.mp live).1 |>.trans live

theorem Freed.alloc (freed : h.Freed a) (y : α) : (h.alloc y).1.Freed a := by
  obtain ⟨x, at_⟩ := freed
  exact ⟨x, (List.getElem?_append_left (List.getElem?_eq_some_iff.mp at_).1).trans at_⟩

theorem Live.read (live : h.Live a x) (bad : ε) : Blocks.read bad h a = .ret x := by
  rw [Blocks.read, live]

theorem Live.free (live : h.Live a x) (bad : ε) : Blocks.free bad h a = .ret (h.set a (x, false)) := by
  rw [Blocks.free, live]

theorem Freed.free (freed : h.Freed a) (bad : ε) : Blocks.free bad h a = .throw bad := by
  obtain ⟨x, at_⟩ := freed
  rw [Blocks.free, at_]

theorem freed_free {bad : ε} (run : Blocks.free bad h a = .ret h') :
    h'.Freed a ∧ ∀ b, h.Freed b → h'.Freed b := by
  unfold Blocks.free at run
  split at run
  · next x at_ =>
      cases run
      have lt := (List.getElem?_eq_some_iff.mp at_).1
      have self : Freed (h.set a (x, false)) a := ⟨x, List.getElem?_set_self lt⟩
      refine ⟨self, fun b freed => ?_⟩
      by_cases same : a = b
      · exact same ▸ self
      · obtain ⟨y, own⟩ := freed
        exact ⟨y, (List.getElem?_set_ne same).trans own⟩
  · cases run

end Blocks

end Mio
