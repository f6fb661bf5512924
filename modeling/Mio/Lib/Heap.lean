import Mathlib.Data.List.Nodup
import Mathlib.Logic.Function.Basic
import Mio.Lib.Outcome

/-! Singly linked lists in memory. An address is never handed out twice, so that whatever uses a
node that was freed is found out. -/
namespace Mio

/-- Nodes with a payload and a link. -/
structure Heap (α : Type) where
  nodes : ℕ → Option (α × Option ℕ)
  fresh : ℕ

namespace Heap

variable {α ε : Type}

def empty : Heap α := ⟨fun _ => none, 0⟩

def set (h : Heap α) (p : ℕ) (node : Option (α × Option ℕ)) : Heap α :=
  { h with nodes := Function.update h.nodes p node }

@[simp] theorem set_self (h : Heap α) (p : ℕ) (node : Option (α × Option ℕ)) :
    (h.set p node).nodes p = node := Function.update_self _ _ _

theorem set_of_ne (h : Heap α) {p q : ℕ} (ne : q ≠ p) (node : Option (α × Option ℕ)) :
    (h.set p node).nodes q = h.nodes q := Function.update_of_ne ne _ _

/-- The access fails with `bad` where there is no node. -/
def load (bad : ε) (p : ℕ) : Exec (Heap α) ε (α × Option ℕ) := fun h =>
  match h.nodes p with
  | some node => .ret (node, h)
  | none => .throw bad

def store (bad : ε) (p : ℕ) (node : α × Option ℕ) : Exec (Heap α) ε Unit := fun h =>
  match h.nodes p with
  | some _ => .ret ((), h.set p (some node))
  | none => .throw bad

def free (bad : ε) (p : ℕ) : Exec (Heap α) ε Unit := fun h =>
  match h.nodes p with
  | some _ => .ret ((), h.set p none)
  | none => .throw bad

def alloc (node : α × Option ℕ) : Exec (Heap α) ε ℕ := fun h =>
  .ret (h.fresh, { h.set h.fresh (some node) with fresh := h.fresh + 1 })

/-- A node is loaded and stored again with a change. -/
def change (bad : ε) (p : ℕ) (f : α × Option ℕ → α × Option ℕ) : Exec (Heap α) ε Unit := do
  let node ← load bad p
  store bad p (f node)

section
variable {h : Heap α} {p : ℕ} {node : α × Option ℕ}

theorem load_done (bad : ε) (there : h.nodes p = some node) : load bad p h = .ret (node, h) := by
  rw [load, there]

theorem store_done (bad : ε) (there : h.nodes p = some node) (new : α × Option ℕ) :
    store bad p new h = .ret ((), h.set p (some new)) := by
  rw [store, there]

theorem change_done (bad : ε) (there : h.nodes p = some node) (f : α × Option ℕ → α × Option ℕ) :
    change bad p f h = .ret ((), h.set p (some (f node))) :=
  (Exec.bind_of_ret (load_done bad there)).trans (store_done bad there (f node))

theorem free_done (bad : ε) (there : h.nodes p = some node) : free bad p h = .ret ((), h.set p none) := by
  rw [free, there]

end

/-- Where a segment begins that ends in `tail`. -/
def first : List (ℕ × α) → Option ℕ → Option ℕ
  | [], tail => tail
  | (p, _) :: _, _ => some p

/-- The nodes of `l` are linked in order, the last one to `tail`. -/
def Segment (h : Heap α) : List (ℕ × α) → Option ℕ → Prop
  | [], _ => True
  | (p, x) :: l, tail => h.nodes p = some (x, first l tail) ∧ Segment h l tail

variable {h h' : Heap α} {a b l : List (ℕ × α)} {tail : Option ℕ}

theorem first_append (a b : List (ℕ × α)) (tail : Option ℕ) :
    first (a ++ b) tail = first a (first b tail) := by
  cases a <;> rfl

theorem first_put (a b : List (ℕ × α)) (p : ℕ) (x y : α) (tail : Option ℕ) :
    first (a ++ (p, x) :: b) tail = first (a ++ (p, y) :: b) tail := by
  rw [first_append, first_append a]
  rfl

theorem first_ne {p : ℕ} (some : a ≠ []) (out : p ∉ a.map Prod.fst) : first (a ++ b) tail ≠ .some p := by
  cases a with
  | nil => exact (some rfl).elim
  | cons c a =>
      intro eq
      exact out (Option.some.inj eq ▸ List.mem_cons_self)

theorem segment_append :
    Segment h (a ++ b) tail ↔ Segment h a (first b tail) ∧ Segment h b tail := by
  induction a with
  | nil => simp [Segment]
  | cons x a ih =>
      obtain ⟨p, y⟩ := x
      rw [List.cons_append, Segment, Segment, ih, first_append, and_assoc]

/-- A segment only depends on its own nodes. -/
theorem Segment.of_agree (s : Segment h l tail)
    (agree : ∀ p ∈ l.map Prod.fst, h'.nodes p = h.nodes p) : Segment h' l tail := by
  induction l with
  | nil => trivial
  | cons x l ih =>
      obtain ⟨p, y⟩ := x
      refine ⟨(agree p List.mem_cons_self).trans s.1, ih s.2 fun q mem => ?_⟩
      exact agree q (List.mem_cons_of_mem _ mem)

theorem Segment.set (s : Segment h l tail) {p : ℕ} (out : p ∉ l.map Prod.fst)
    (node : Option (α × Option ℕ)) : Segment (h.set p node) l tail := by
  refine s.of_agree fun q mem => set_of_ne h ?_ node
  rintro rfl
  exact out mem

/-- A list at `first l none` whose nodes are all different and not fresh. -/
structure Linked (h : Heap α) (l : List (ℕ × α)) : Prop where
  segment : Segment h l none
  nodup : (l.map Prod.fst).Nodup
  old : ∀ p ∈ l.map Prod.fst, p < h.fresh

namespace Linked

theorem nil (h : Heap α) : Linked h [] := ⟨trivial, List.nodup_nil, by simp⟩

variable {p : ℕ} {x y : α}

theorem at_ (s : Linked h (a ++ (p, x) :: b)) : h.nodes p = some (x, first b none) :=
  (segment_append.mp s.segment).2.1

theorem apart (s : Linked h (a ++ (p, x) :: b)) : p ∉ a.map Prod.fst ∧ p ∉ b.map Prod.fst := by
  have nodup := s.nodup
  rw [List.map_append, List.map_cons] at nodup
  obtain ⟨-, back, disjoint⟩ := List.nodup_append.mp nodup
  exact ⟨fun mem => disjoint p mem p List.mem_cons_self rfl, (List.nodup_cons.mp back).1⟩

theorem put (s : Linked h (a ++ (p, x) :: b)) (y : α) :
    Linked (h.set p (some (y, first b none))) (a ++ (p, y) :: b) := by
  obtain ⟨left, right⟩ := s.apart
  obtain ⟨front, -, back⟩ := segment_append.mp s.segment
  have same : (a ++ (p, y) :: b).map Prod.fst = (a ++ (p, x) :: b).map Prod.fst := by simp
  refine ⟨segment_append.mpr ⟨front.set left _, set_self _ _ _, back.set right _⟩, ?_, ?_⟩
  · rw [same]
    exact s.nodup
  · rw [same]
    exact s.old

theorem push (s : Linked h l) (x : α) :
    Linked { h.set h.fresh (some (x, first l none)) with fresh := h.fresh + 1 }
      ((h.fresh, x) :: l) := by
  have new : h.fresh ∉ l.map Prod.fst := fun mem => Nat.lt_irrefl _ (s.old _ mem)
  refine ⟨⟨set_self _ _ _, ?_⟩, List.nodup_cons.mpr ⟨new, s.nodup⟩, ?_⟩
  · refine s.segment.of_agree fun q mem => set_of_ne h ?_ _
    rintro rfl
    exact new mem
  · intro q mem
    rcases List.mem_cons.mp mem with rfl | mem
    · exact Nat.lt_succ_self _
    · exact Nat.lt_succ_of_lt (s.old q mem)

theorem behind (s : Linked h ((p, x) :: b)) : Linked h b :=
  ⟨s.segment.2, (List.nodup_cons.mp s.nodup).2, fun q mem => s.old q (List.mem_cons_of_mem _ mem)⟩

theorem pop (s : Linked h ((p, x) :: b)) (new : Option (α × Option ℕ)) : Linked (h.set p new) b := by
  obtain ⟨-, right⟩ := @Linked.apart _ h [] b p x s
  refine ⟨s.segment.2.set right _, (List.nodup_cons.mp s.nodup).2, fun q mem => ?_⟩
  exact s.old q (List.mem_cons_of_mem _ mem)

/-- Linking a node past the one behind it. -/
theorem skip {q : ℕ} (s : Linked h (a ++ (q, y) :: (p, x) :: b)) (new : Option (α × Option ℕ)) :
    Linked ((h.set q (some (y, first b none))).set p new) (a ++ (q, y) :: b) := by
  obtain ⟨left, right⟩ := s.apart
  have split : a ++ (q, y) :: (p, x) :: b = (a ++ [(q, y)]) ++ (p, x) :: b := by simp
  have last : p ∉ (a ++ [(q, y)]).map Prod.fst ∧ p ∉ b.map Prod.fst := by
    rw [split] at s
    exact s.apart
  rw [List.map_append, List.mem_append, not_or] at last
  obtain ⟨⟨far, near⟩, behind⟩ := last
  obtain ⟨front, -, -, back⟩ := segment_append.mp s.segment
  have ne : q ≠ p := fun eq => near (by simp [eq])
  have out : q ∉ b.map Prod.fst := fun mem => right (List.mem_cons_of_mem _ mem)
  have sub : ((a ++ (q, y) :: b).map Prod.fst).Sublist ((a ++ (q, y) :: (p, x) :: b).map Prod.fst) := by
    refine List.Sublist.map _ (List.Sublist.append_left ?_ a)
    exact List.Sublist.cons_cons _ (List.sublist_cons_self _ _)
  refine ⟨segment_append.mpr ⟨(front.set left _).set far _, ?_, (back.set out _).set behind _⟩, ?_, ?_⟩
  · rw [set_of_ne _ ne, set_self]
  · exact s.nodup.sublist sub
  · exact fun r mem => s.old r (sub.subset mem)

end Linked

end Heap
end Mio
