import Mio.Lib.Dyadic

/-! Full binary trees laid out over the dyadic cells below a root cell. -/
namespace Mio

inductive CellTree (α : Type) where
  | leaf (a : α)
  | node (a : α) (l r : CellTree α)

namespace CellTree

variable {α : Type}

def label : CellTree α → α
  | leaf a => a
  | node a _ _ => a

/-- The subtree whose root lies at cell `j` when the whole tree is rooted at `c`. -/
def sub : CellTree α → Cell → Cell → Option (CellTree α)
  | leaf a, c, j => if j = c then some (leaf a) else none
  | node a l r, c, j =>
      if j = c then some (node a l r)
      else match sub l c.lo j with
        | some s => some s
        | none => sub r c.hi j

def get (t : CellTree α) (c j : Cell) : Option α := (sub t c j).map label

def leaves : CellTree α → Cell → List (Cell × α)
  | leaf a, c => [(c, a)]
  | node _ l r, c => leaves l c.lo ++ leaves r c.hi

/-- The leaf a search for `x` ends in; outside the root cell the search clamps. -/
def reach : CellTree α → Cell → ℚ → Cell × α
  | leaf a, c, _ => (c, a)
  | node _ l r, c, x => if x < c.lo.stop then reach l c.lo x else reach r c.hi x

/-- Replaces the subtree at `j` by `s`. -/
def graft (s : CellTree α) (j : Cell) : CellTree α → Cell → CellTree α
  | leaf a, c => if j = c then s else leaf a
  | node a l r, c => if j = c then s else node a (graft s j l c.lo) (graft s j r c.hi)

/-- The tree one level further up: `t` becomes one child of a new root, beside the leaf `e`. -/
def hoist (e a : α) (t : CellTree α) (c : Cell) : CellTree α :=
  if c.offset % 2 = 0 then node a t (leaf e) else node a (leaf e) t

@[simp] theorem sub_self (t : CellTree α) (c : Cell) : sub t c c = some t := by
  cases t <;> simp [sub]

@[simp] theorem get_self (t : CellTree α) (c : Cell) : get t c c = some t.label := by
  simp [get]

theorem under_of_sub {t s : CellTree α} {c j : Cell} (h : sub t c j = some s) : j.Under c := by
  induction t generalizing c with
  | leaf a =>
      simp only [sub] at h
      split at h
      · next eq => exact eq ▸ .refl _
      · cases h
  | node a l r ihl ihr =>
      simp only [sub] at h
      split at h
      · next eq => exact eq ▸ .refl _
      · split at h
        · next eq =>
            cases h
            exact (ihl eq).trans (.lo c)
        · exact (ihr h).trans (.hi c)

theorem sub_none {t : CellTree α} {c j : Cell} (h : ¬ j.Under c) : sub t c j = none := by
  cases eq : sub t c j with
  | none => rfl
  | some s => exact (h (under_of_sub eq)).elim

theorem sub_leaf_none {a : α} {c j : Cell} (h : j ≠ c) : sub (leaf a) c j = none := if_neg h

theorem sub_node_lo {a : α} {l r : CellTree α} {c j : Cell} (h : j.Under c.lo) :
    sub (node a l r) c j = sub l c.lo j := by
  have ne : j ≠ c := by
    rintro rfl
    exact Cell.not_under_lo_self _ h
  simp only [sub, if_neg ne]
  split
  · next eq => exact eq.symm
  · next eq => rw [eq, sub_none (Cell.not_under_lo_hi h)]

theorem sub_node_hi {a : α} {l r : CellTree α} {c j : Cell} (h : j.Under c.hi) :
    sub (node a l r) c j = sub r c.hi j := by
  have ne : j ≠ c := by
    rintro rfl
    exact Cell.not_under_hi_self _ h
  simp only [sub, if_neg ne, sub_none fun g => Cell.not_under_lo_hi g h]

theorem sub_sub {t s : CellTree α} {c i j : Cell} (h : sub t c j = some s) (under : i.Under j) :
    sub t c i = sub s j i := by
  induction t generalizing c with
  | leaf a =>
      simp only [sub] at h
      split at h
      · next eq =>
          subst eq
          cases h
          rfl
      · cases h
  | node a l r ihl ihr =>
      rcases (under_of_sub h).cases with rfl | lo | hi
      · rw [sub_self] at h
        cases h
        rfl
      · rw [sub_node_lo lo] at h
        rw [sub_node_lo (under.trans lo)]
        exact ihl h
      · rw [sub_node_hi hi] at h
        rw [sub_node_hi (under.trans hi)]
        exact ihr h

theorem sub_lo {t l r : CellTree α} {a : α} {c j : Cell} (h : sub t c j = some (node a l r)) :
    sub t c j.lo = some l := by
  rw [sub_sub h (.lo j), sub_node_lo (.refl _), sub_self]

theorem sub_hi {t l r : CellTree α} {a : α} {c j : Cell} (h : sub t c j = some (node a l r)) :
    sub t c j.hi = some r := by
  rw [sub_sub h (.hi j), sub_node_hi (.refl _), sub_self]

theorem sub_below_leaf {t : CellTree α} {a : α} {c i j : Cell} (h : sub t c j = some (leaf a))
    (under : i.Under j) (ne : i ≠ j) : sub t c i = none := by
  rw [sub_sub h under, sub_leaf_none ne]

/-- Every stored cell but the root has an inner node above it. -/
theorem sub_up {t s : CellTree α} {c j : Cell} (h : sub t c j = some s) (ne : j ≠ c) :
    ∃ a l r, sub t c j.up = some (node a l r) := by
  induction t generalizing c with
  | leaf a => rw [sub_leaf_none ne] at h; cases h
  | node a l r ihl ihr =>
      rcases (under_of_sub h).cases with rfl | lo | hi
      · exact (ne rfl).elim
      · rw [sub_node_lo lo] at h
        by_cases eq : j = c.lo
        · subst eq
          exact ⟨a, l, r, by rw [Cell.up_lo, sub_self]⟩
        · rw [sub_node_lo (lo.up_of_ne eq)]
          exact ihl h eq
      · rw [sub_node_hi hi] at h
        by_cases eq : j = c.hi
        · subst eq
          exact ⟨a, l, r, by rw [Cell.up_hi, sub_self]⟩
        · rw [sub_node_hi (hi.up_of_ne eq)]
          exact ihr h eq

theorem sub_twin {t s : CellTree α} {c j : Cell} (h : sub t c j = some s) (ne : j ≠ c) :
    ∃ s', sub t c j.twin = some s' := by
  obtain ⟨a, l, r, eq⟩ := sub_up h ne
  rcases Cell.eq_lo_or_hi (rfl : j.up = j.up) with e | e
  · exact ⟨r, by rw [e, Cell.twin_lo]; exact sub_hi eq⟩
  · exact ⟨l, by rw [e, Cell.twin_hi]; exact sub_lo eq⟩

theorem mem_leaves {t : CellTree α} {c j : Cell} {a : α} :
    (j, a) ∈ leaves t c ↔ sub t c j = some (leaf a) := by
  induction t generalizing c with
  | leaf b =>
      by_cases eq : j = c
      · subst eq
        simp [leaves, sub, eq_comm]
      · simp [leaves, sub, eq]
  | node b l r ihl ihr =>
      simp only [leaves, List.mem_append, ihl, ihr]
      constructor
      · rintro (h | h)
        · rwa [sub_node_lo (under_of_sub h)]
        · rwa [sub_node_hi (under_of_sub h)]
      · intro h
        rcases (under_of_sub h).cases with rfl | lo | hi
        · rw [sub_self] at h; cases h
        · rw [sub_node_lo lo] at h; exact .inl h
        · rw [sub_node_hi hi] at h; exact .inr h

/-- Consecutive cells that cover `[a, b)` without gap. -/
def Tiled : List (Cell × α) → ℚ → ℚ → Prop
  | [], a, b => a = b
  | x :: l, a, b => x.1.start = a ∧ Tiled l x.1.stop b

theorem Tiled.append {l₁ l₂ : List (Cell × α)} {a b c : ℚ} (h₁ : Tiled l₁ a b)
    (h₂ : Tiled l₂ b c) : Tiled (l₁ ++ l₂) a c := by
  induction l₁ generalizing a with
  | nil => rw [show a = b from h₁]; exact h₂
  | cons x l ih => exact ⟨h₁.1, ih h₁.2⟩

theorem Tiled.le {l : List (Cell × α)} {a b : ℚ} (h : Tiled l a b) : a ≤ b := by
  induction l generalizing a with
  | nil => exact le_of_eq h
  | cons x l ih => exact h.1.symm.le.trans (x.1.start_lt_stop.le.trans (ih h.2))

theorem Tiled.split {l₁ l₂ : List (Cell × α)} {a c : ℚ} (h : Tiled (l₁ ++ l₂) a c) :
    ∃ b, Tiled l₁ a b ∧ Tiled l₂ b c := by
  induction l₁ generalizing a with
  | nil => exact ⟨a, rfl, h⟩
  | cons x l ih =>
      obtain ⟨b, h₁, h₂⟩ := ih h.2
      exact ⟨b, ⟨h.1, h₁⟩, h₂⟩

theorem Tiled.mem_bounds {l : List (Cell × α)} {a b : ℚ} (h : Tiled l a b) :
    ∀ x ∈ l, a ≤ x.1.start ∧ x.1.stop ≤ b := by
  intro x hx
  obtain ⟨l₁, l₂, rfl⟩ := List.append_of_mem hx
  obtain ⟨m, h₁, h₂⟩ := h.split
  exact ⟨h₁.le.trans_eq h₂.1.symm, h₂.2.le⟩

theorem leaves_tiled (t : CellTree α) (c : Cell) : Tiled (leaves t c) c.start c.stop := by
  induction t generalizing c with
  | leaf a => exact ⟨rfl, rfl⟩
  | node a l r ihl ihr =>
      have hl := ihl c.lo
      have hr := ihr c.hi
      rw [Cell.lo_start, Cell.lo_stop] at hl
      rw [Cell.hi_stop] at hr
      exact hl.append hr

theorem reach_sub (t : CellTree α) (c : Cell) (x : ℚ) :
    sub t c (reach t c x).1 = some (leaf (reach t c x).2) := by
  induction t generalizing c with
  | leaf a => simp [reach]
  | node a l r ihl ihr =>
      simp only [reach]
      split
      · rw [sub_node_lo (under_of_sub (ihl c.lo))]
        exact ihl c.lo
      · rw [sub_node_hi (under_of_sub (ihr c.hi))]
        exact ihr c.hi

theorem reach_mem (t : CellTree α) (c : Cell) (x : ℚ) : reach t c x ∈ leaves t c :=
  mem_leaves.mpr (reach_sub t c x)

theorem reach_has {t : CellTree α} {c : Cell} {x : ℚ} (h : c.Has x) : (reach t c x).1.Has x := by
  induction t generalizing c with
  | leaf a => exact h
  | node a l r ihl ihr =>
      simp only [reach]
      split
      · next lt => exact ihl (Cell.has_lo h (by rwa [← Cell.lo_stop]))
      · next ge => exact ihr (Cell.has_hi h (by rw [← Cell.lo_stop]; exact not_lt.mp ge))

theorem reach_of_has {t : CellTree α} {c : Cell} {x : ℚ} {p : Cell × α} (mem : p ∈ leaves t c)
    (has : p.1.Has x) : reach t c x = p := by
  induction t generalizing c with
  | leaf a => exact (List.mem_singleton.mp mem).symm
  | node a l r ihl ihr =>
      simp only [reach]
      rcases List.mem_append.mp mem with h | h
      · have bound := ((leaves_tiled l c.lo).mem_bounds p h).2
        rw [if_pos (has.2.trans_le bound)]
        exact ihl h
      · have bound := ((leaves_tiled r c.hi).mem_bounds p h).1
        rw [← Cell.lo_stop] at bound
        rw [if_neg (not_lt.mpr (bound.trans has.1))]
        exact ihr h

theorem reach_low {t : CellTree α} {c : Cell} {x : ℚ} (h : x < c.start) :
    reach t c x = reach t c c.start := by
  have aux : ∀ (t : CellTree α) (c : Cell), x ≤ c.start → reach t c x = reach t c c.start := by
    intro t
    induction t with
    | leaf a => intros; rfl
    | node a l r ihl ihr =>
        intro c le
        have mid : c.start < c.lo.stop := by
          rw [Cell.lo_stop]
          exact c.start_lt_mid
        simp only [reach, if_pos (le.trans_lt mid), if_pos mid]
        rw [ihl c.lo (le.trans_eq c.lo_start.symm), Cell.lo_start]
  exact aux t c h.le

/-- The search never ends to the right of where it looks. -/
theorem reach_start_le {t : CellTree α} {c : Cell} {x : ℚ} (h : c.start ≤ x) :
    (reach t c x).1.start ≤ x := by
  induction t generalizing c with
  | leaf a => exact h
  | node a l r ihl ihr =>
      simp only [reach]
      split
      · exact ihl (c.lo_start.le.trans h)
      · next right =>
          rw [Cell.lo_stop] at right
          exact ihr (not_lt.mp right)

theorem graft_self (s t : CellTree α) (c : Cell) : graft s c t c = s := by
  cases t <;> simp [graft]

theorem graft_of_not_under {s t : CellTree α} {j c : Cell} (h : ¬ j.Under c) :
    graft s j t c = t := by
  have ne : j ≠ c := by
    rintro rfl
    exact h (.refl _)
  induction t generalizing c with
  | leaf a => simp only [graft, if_neg ne]
  | node a l r ihl ihr =>
      have lo : ¬ j.Under c.lo := fun g => h (g.trans (.lo c))
      have hi : ¬ j.Under c.hi := fun g => h (g.trans (.hi c))
      simp only [graft, if_neg ne]
      rw [ihl lo (by rintro rfl; exact lo (.refl _)), ihr hi (by rintro rfl; exact hi (.refl _))]

theorem graft_node_lo {s l r : CellTree α} {a : α} {j c : Cell} (h : j.Under c.lo) :
    graft s j (node a l r) c = node a (graft s j l c.lo) r := by
  have ne : j ≠ c := by
    rintro rfl
    exact Cell.not_under_lo_self _ h
  simp only [graft, if_neg ne, graft_of_not_under (Cell.not_under_lo_hi h)]

theorem graft_node_hi {s l r : CellTree α} {a : α} {j c : Cell} (h : j.Under c.hi) :
    graft s j (node a l r) c = node a l (graft s j r c.hi) := by
  have ne : j ≠ c := by
    rintro rfl
    exact Cell.not_under_hi_self _ h
  simp only [graft, if_neg ne, graft_of_not_under fun g => Cell.not_under_lo_hi g h]

theorem sub_graft_under {s t s₀ : CellTree α} {c i j : Cell} (h : sub t c j = some s₀)
    (under : i.Under j) : sub (graft s j t c) c i = sub s j i := by
  induction t generalizing c with
  | leaf a =>
      obtain rfl : j = c := by
        by_contra ne
        rw [sub_leaf_none ne] at h
        cases h
      rw [graft_self]
  | node a l r ihl ihr =>
      rcases (under_of_sub h).cases with rfl | lo | hi
      · rw [graft_self]
      · rw [sub_node_lo lo] at h
        rw [graft_node_lo lo, sub_node_lo (under.trans lo)]
        exact ihl h
      · rw [sub_node_hi hi] at h
        rw [graft_node_hi hi, sub_node_hi (under.trans hi)]
        exact ihr h

/-- Strictly above or beside a graft, the node at a cell keeps its place: a node stays a node with
the same label, and whatever does not contain the graft stays as it was. -/
theorem sub_graft_beside {s t : CellTree α} {c i j : Cell} (h : ¬ i.Under j) (g : ¬ j.Under i) :
    sub (graft s j t c) c i = sub t c i := by
  induction t generalizing c with
  | leaf a =>
      by_cases eq : j = c
      · subst eq
        rw [graft_self, sub_none h, sub_none h]
      · simp only [graft, if_neg eq]
  | node a l r ihl ihr =>
      by_cases eq : j = c
      · subst eq
        rw [graft_self, sub_none h, sub_none h]
      · have ne : i ≠ c ∨ ¬ j.Under c := by
          by_cases e : i = c
          · exact .inr (e ▸ g)
          · exact .inl e
        rcases ne with ne | out
        · simp only [graft, if_neg eq, sub, if_neg ne, ihl, ihr]
        · rw [graft_of_not_under out]

theorem sub_graft_above {s t s' : CellTree α} {c i j : Cell} (h : sub t c i = some s')
    (under : j.Under i) : sub (graft s j t c) c i = some (graft s j s' i) := by
  induction t generalizing c with
  | leaf a =>
      obtain rfl : i = c := by
        by_contra ne
        rw [sub_leaf_none ne] at h
        cases h
      rw [sub_self] at h ⊢
      cases h
      rfl
  | node a l r ihl ihr =>
      rcases (under_of_sub h).cases with rfl | lo | hi
      · rw [sub_self] at h ⊢
        cases h
        rfl
      · rw [sub_node_lo lo] at h
        rw [graft_node_lo (under.trans lo), sub_node_lo lo]
        exact ihl h
      · rw [sub_node_hi hi] at h
        rw [graft_node_hi (under.trans hi), sub_node_hi hi]
        exact ihr h

theorem label_graft {s t : CellTree α} {j c : Cell} (ne : j ≠ c) :
    (graft s j t c).label = t.label := by
  cases t <;> simp [graft, ne, label]

theorem sub_between {t s₀ : CellTree α} {c i j : Cell} (h : sub t c j = some s₀)
    (above : j.Under i) (under : i.Under c) : ∃ s, sub t c i = some s := by
  induction t generalizing c with
  | leaf a =>
      obtain rfl : j = c := by
        by_contra ne
        rw [sub_leaf_none ne] at h
        cases h
      exact ⟨s₀, by rwa [under.antisymm above]⟩
  | node a l r ihl ihr =>
      rcases under.cases with rfl | lo | hi
      · exact ⟨_, sub_self _ _⟩
      · rw [sub_node_lo (above.trans lo)] at h
        rw [sub_node_lo lo]
        exact ihl h lo
      · rw [sub_node_hi (above.trans hi)] at h
        rw [sub_node_hi hi]
        exact ihr h hi

/-- The layout after a graft: the graft's own cells below `j`, the old ones elsewhere. -/
theorem get_graft {s t s₀ : CellTree α} {c j : Cell} (h : sub t c j = some s₀) (i : Cell) :
    get (graft s j t c) c i = if i.Under j then get s j i else get t c i := by
  unfold get
  split
  · next under => rw [sub_graft_under h under]
  · next out =>
      by_cases above : j.Under i
      · cases eq : sub t c i with
        | none =>
            have outside : ¬ i.Under c := by
              intro under
              obtain ⟨s', h'⟩ := sub_between h above under
              rw [eq] at h'
              cases h'
            rw [sub_none outside]
        | some s' =>
            have ne : j ≠ i := by
              rintro rfl
              exact out (.refl _)
            rw [sub_graft_above eq above]
            simp only [Option.map_some, label_graft ne]
      · rw [sub_graft_beside out above]

theorem leaves_graft {t s₀ : CellTree α} {c j : Cell} (h : sub t c j = some s₀) :
    ∃ a b, leaves t c = a ++ leaves s₀ j ++ b ∧
      (∀ s, leaves (graft s j t c) c = a ++ leaves s j ++ b) ∧
      (∀ x ∈ a, x.1.stop ≤ j.start) ∧ ∀ x ∈ b, j.stop ≤ x.1.start := by
  induction t generalizing c with
  | leaf x =>
      obtain rfl : j = c := by
        by_contra ne
        rw [sub_leaf_none ne] at h
        cases h
      rw [sub_self] at h
      cases h
      exact ⟨[], [], by simp, fun s => by simp [graft_self], by simp, by simp⟩
  | node x l r ihl ihr =>
      rcases (under_of_sub h).cases with rfl | lo | hi
      · rw [sub_self] at h
        cases h
        exact ⟨[], [], by simp, fun s => by simp [graft_self], by simp, by simp⟩
      · rw [sub_node_lo lo] at h
        obtain ⟨a, b, eq, graft, ha, hb⟩ := ihl h
        refine ⟨a, b ++ leaves r c.hi, by simp [leaves, eq], ?_, ha, ?_⟩
        · intro s
          rw [graft_node_lo lo, leaves, graft]
          simp
        · intro y hy
          rcases List.mem_append.mp hy with hy | hy
          · exact hb y hy
          · have le := ((leaves_tiled r c.hi).mem_bounds y hy).1
            rw [← Cell.lo_stop] at le
            exact lo.stop_le.trans le
      · rw [sub_node_hi hi] at h
        obtain ⟨a, b, eq, graft, ha, hb⟩ := ihr h
        refine ⟨leaves l c.lo ++ a, b, by simp [leaves, eq], ?_, ?_, hb⟩
        · intro s
          rw [graft_node_hi hi, leaves, graft]
          simp
        · intro y hy
          rcases List.mem_append.mp hy with hy | hy
          · have le := ((leaves_tiled l c.lo).mem_bounds y hy).2
            rw [Cell.lo_stop] at le
            exact le.trans hi.start_le
          · exact ha y hy

theorem hoist_cases (e a : α) (t : CellTree α) (c : Cell) :
    (c = c.up.lo ∧ hoist e a t c = node a t (leaf e)) ∨
      (c = c.up.hi ∧ hoist e a t c = node a (leaf e) t) := by
  unfold hoist
  rcases Cell.eq_lo_or_hi (rfl : c.up = c.up) with eq | eq
  · left
    refine ⟨eq, if_pos ?_⟩
    rw [eq]
    simp [Cell.lo]
  · right
    refine ⟨eq, if_neg ?_⟩
    rw [eq]
    simp [Cell.hi]

theorem label_hoist (e a : α) (t : CellTree α) (c : Cell) : (hoist e a t c).label = a := by
  rcases hoist_cases e a t c with ⟨-, eq⟩ | ⟨-, eq⟩ <;> rw [eq] <;> rfl

theorem sub_hoist {e a : α} {t : CellTree α} {c : Cell} :
    sub (hoist e a t c) c.up c = some t := by
  rcases hoist_cases e a t c with ⟨side, eq⟩ | ⟨side, eq⟩
  · rw [eq]
    nth_rewrite 2 [side]
    rw [sub_node_lo (.refl _), sub_self]
  · rw [eq]
    nth_rewrite 2 [side]
    rw [sub_node_hi (.refl _), sub_self]

/-- The layout one level up adds the new root and the empty twin. -/
theorem get_hoist (e a : α) (t : CellTree α) (c i : Cell) :
    get (hoist e a t c) c.up i =
      if i = c.up then some a else if i = c.twin then some e else get t c i := by
  unfold get
  split
  · next eq => rw [eq, sub_self, Option.map_some, label_hoist]
  · next ne =>
      rcases hoist_cases e a t c with ⟨side, eq⟩ | ⟨side, eq⟩
      · rw [eq]
        have twin : c.twin = c.up.hi := by
          conv_lhs => rw [side, Cell.twin_lo]
        simp only [sub, if_neg ne, ← side, ← twin]
        cases h : sub t c i with
        | some s =>
            have : i ≠ c.twin := by
              rintro rfl
              have lo := under_of_sub h
              rw [side, Cell.twin_lo] at lo
              exact Cell.not_under_lo_hi lo (.refl _)
            simp [this]
        | none => by_cases e' : i = c.twin <;> simp [e', label]
      · rw [eq]
        have twin : c.twin = c.up.lo := by
          conv_lhs => rw [side, Cell.twin_hi]
        simp only [sub, if_neg ne, ← side, ← twin]
        by_cases e' : i = c.twin
        · simp [e', label]
        · simp [e']

theorem leaves_hoist (e a : α) (t : CellTree α) (c : Cell) :
    leaves (hoist e a t c) c.up = leaves t c ++ [(c.twin, e)] ∨
      leaves (hoist e a t c) c.up = (c.twin, e) :: leaves t c := by
  rcases hoist_cases e a t c with ⟨side, eq⟩ | ⟨side, eq⟩
  · left
    have twin : c.twin = c.up.hi := by
      conv_lhs => rw [side, Cell.twin_lo]
    rw [eq]
    simp only [leaves, ← side, ← twin]
  · right
    have twin : c.twin = c.up.lo := by
      conv_lhs => rw [side, Cell.twin_hi]
    rw [eq]
    simp only [leaves, ← side, ← twin, List.cons_append, List.nil_append]

/-- `n` levels up, each new root taking over the label of the old one. -/
def raise (e : α) : ℕ → CellTree α → Cell → CellTree α
  | 0, t, _ => t
  | n + 1, t, c => raise e n (hoist e t.label t c) c.up

/-- What one level up preserves, `n` levels preserve, here below a bound on levels. -/
theorem raise_induct {motive : CellTree α → Cell → Prop} {e : α} {top : ℤ}
    (step : ∀ t c, c.up.level ≤ top → motive t c → motive (hoist e t.label t c) c.up) {n : ℕ}
    {t : CellTree α} {c : Cell} (bound : (Cell.up^[n] c).level ≤ top) (h : motive t c) :
    motive (raise e n t c) (Cell.up^[n] c) := by
  induction n generalizing t c with
  | zero => exact h
  | succ n ih =>
      refine ih bound (step t c ?_ h)
      rw [Function.iterate_succ_apply, Cell.iter_up_level] at bound
      omega

theorem sub_raise (e : α) (n : ℕ) (t : CellTree α) (c : Cell) :
    sub (raise e n t c) (Cell.up^[n] c) c = some t := by
  induction n generalizing t c with
  | zero => exact sub_self t c
  | succ n ih =>
      rw [raise, Function.iterate_succ_apply, sub_sub (ih _ _) (.up c), sub_hoist]

def EachLeaf (P : Cell → α → Prop) (t : CellTree α) (c : Cell) : Prop :=
  ∀ i a, (i, a) ∈ leaves t c → P i a

def EachLabel (P : Cell → α → Prop) (t : CellTree α) (c : Cell) : Prop :=
  ∀ i a, get t c i = some a → P i a

def EachNode (P : Cell → α → CellTree α → CellTree α → Prop) (t : CellTree α) (c : Cell) : Prop :=
  ∀ i a l r, sub t c i = some (node a l r) → P i a l r

theorem eachLeaf_leaf {P : Cell → α → Prop} {a : α} {c : Cell} :
    EachLeaf P (leaf a) c ↔ P c a := by
  simp [EachLeaf, leaves]

theorem eachLeaf_node {P : Cell → α → Prop} {a : α} {l r : CellTree α} {c : Cell} :
    EachLeaf P (node a l r) c ↔ EachLeaf P l c.lo ∧ EachLeaf P r c.hi := by
  simp only [EachLeaf, leaves, List.mem_append]
  constructor
  · exact fun h => ⟨fun i b hb => h i b (.inl hb), fun i b hb => h i b (.inr hb)⟩
  · rintro ⟨hl, hr⟩ i b (hb | hb)
    · exact hl i b hb
    · exact hr i b hb

theorem EachLeaf.graft {P : Cell → α → Prop} {t s s₀ : CellTree α} {c j : Cell}
    (h : sub t c j = some s₀) (ht : EachLeaf P t c) (hs : EachLeaf P s j) :
    EachLeaf P (graft s j t c) c := by
  obtain ⟨a, b, old, new, -, -⟩ := leaves_graft h
  intro i x hx
  rw [new] at hx
  simp only [List.mem_append] at hx
  have keep : (i, x) ∈ a ∨ (i, x) ∈ b → P i x := by
    intro mem
    refine ht i x ?_
    rw [old]
    simp only [List.mem_append]
    tauto
  rcases hx with (hx | hx) | hx
  · exact keep (.inl hx)
  · exact hs i x hx
  · exact keep (.inr hx)

/-- Leaves beside a cell are not touched by what happens below it. -/
theorem eachLeaf_graft {t s₀ : CellTree α} {c j : Cell} (h : sub t c j = some s₀) :
    ∃ beside : List (Cell × α), (∀ x ∈ beside, x ∈ leaves t c) ∧
      (∀ x ∈ beside, x.1.stop ≤ j.start ∨ j.stop ≤ x.1.start) ∧
      ∀ P : Cell → α → Prop, (EachLeaf P t c ↔ EachLeaf P s₀ j ∧ ∀ x ∈ beside, P x.1 x.2) ∧
        ∀ s, EachLeaf P (graft s j t c) c ↔ EachLeaf P s j ∧ ∀ x ∈ beside, P x.1 x.2 := by
  obtain ⟨a, b, old, new, front, back⟩ := leaves_graft h
  have parts : ∀ (P : Cell → α → Prop) (l : List (Cell × α)), (∀ i x, (i, x) ∈ a ++ l ++ b → P i x) ↔
      (∀ i x, (i, x) ∈ l → P i x) ∧ ∀ x ∈ a ++ b, P x.1 x.2 := by
    intro P l
    simp only [List.mem_append]
    constructor
    · intro all
      refine ⟨fun i x mem => all i x (.inl (.inr mem)), fun x mem => all x.1 x.2 ?_⟩
      cases mem with
      | inl mem => exact .inl (.inl mem)
      | inr mem => exact .inr mem
    · rintro ⟨inner, outer⟩ i x ((mem | mem) | mem)
      · exact outer (i, x) (.inl mem)
      · exact inner i x mem
      · exact outer (i, x) (.inr mem)
  refine ⟨a ++ b, ?_, ?_, fun P => ⟨?_, fun s => ?_⟩⟩
  · intro x mem
    rw [old]
    simp only [List.mem_append] at mem ⊢
    tauto
  · intro x mem
    exact (List.mem_append.mp mem).imp (front x) (back x)
  · rw [EachLeaf, old]
    exact parts P _
  · rw [EachLeaf, new]
    exact parts P _

theorem EachLeaf.hoist {P : Cell → α → Prop} {t : CellTree α} {c : Cell} {e : α} (a : α)
    (ht : EachLeaf P t c) (he : P c.twin e) : EachLeaf P (hoist e a t c) c.up := by
  intro i x hx
  rcases leaves_hoist e a t c with eq | eq
  · rw [eq] at hx
    rcases List.mem_append.mp hx with hx | hx
    · exact ht i x hx
    · cases List.mem_singleton.mp hx
      exact he
  · rw [eq] at hx
    rcases List.mem_cons.mp hx with hx | hx
    · cases hx
      exact he
    · exact ht i x hx

theorem EachLeaf.sub {P : Cell → α → Prop} {t s : CellTree α} {c j : Cell} (h : EachLeaf P t c)
    (hs : CellTree.sub t c j = some s) : EachLeaf P s j := by
  intro i a mem
  have at_i := mem_leaves.mp mem
  exact h i a (mem_leaves.mpr (by rw [sub_sub hs (under_of_sub at_i), at_i]))

theorem eachLabel_leaf {P : Cell → α → Prop} {a : α} {c : Cell} :
    EachLabel P (leaf a) c ↔ P c a := by
  constructor
  · exact fun h => h c a (get_self _ _)
  · intro h i b hb
    by_cases eq : i = c
    · subst eq
      rw [get_self] at hb
      cases hb
      exact h
    · rw [get, sub_leaf_none eq] at hb
      cases hb

theorem eachLabel_node {P : Cell → α → Prop} {a : α} {l r : CellTree α} {c : Cell} :
    EachLabel P (node a l r) c ↔ P c a ∧ EachLabel P l c.lo ∧ EachLabel P r c.hi := by
  constructor
  · refine fun h => ⟨h c a (get_self _ _), fun i b hb => h i b ?_, fun i b hb => h i b ?_⟩
    · obtain ⟨s, hs, rfl⟩ := Option.map_eq_some_iff.mp hb
      rw [get, sub_node_lo (under_of_sub hs), hs]
      rfl
    · obtain ⟨s, hs, rfl⟩ := Option.map_eq_some_iff.mp hb
      rw [get, sub_node_hi (under_of_sub hs), hs]
      rfl
  · rintro ⟨hc, hl, hr⟩ i b hb
    obtain ⟨s, hs, rfl⟩ := Option.map_eq_some_iff.mp hb
    rcases (under_of_sub hs).cases with rfl | lo | hi
    · rw [sub_self] at hs
      cases hs
      exact hc
    · rw [sub_node_lo lo] at hs
      exact hl i _ (by rw [get, hs]; rfl)
    · rw [sub_node_hi hi] at hs
      exact hr i _ (by rw [get, hs]; rfl)

theorem EachLabel.label {P : Cell → α → Prop} {t : CellTree α} {c : Cell} (h : EachLabel P t c) :
    P c t.label := h c _ (get_self t c)

theorem EachLabel.sub {P : Cell → α → Prop} {t s : CellTree α} {c j : Cell} (h : EachLabel P t c)
    (hs : CellTree.sub t c j = some s) : EachLabel P s j := by
  intro i a hi
  refine h i a ?_
  obtain ⟨s', h', rfl⟩ := Option.map_eq_some_iff.mp hi
  rw [get, sub_sub hs (under_of_sub h'), h']
  rfl

theorem EachLabel.graft {P : Cell → α → Prop} {t s s₀ : CellTree α} {c j : Cell}
    (h : CellTree.sub t c j = some s₀) (ht : EachLabel P t c) (hs : EachLabel P s j) :
    EachLabel P (graft s j t c) c := by
  intro i a hi
  rw [get_graft h] at hi
  split at hi
  · exact hs i a hi
  · exact ht i a hi

theorem EachLabel.hoist {P : Cell → α → Prop} {t : CellTree α} {c : Cell} {e a : α}
    (ht : EachLabel P t c) (he : P c.twin e) (ha : P c.up a) : EachLabel P (hoist e a t c) c.up := by
  intro i b hi
  rw [get_hoist] at hi
  split at hi
  · next eq =>
      cases hi
      exact eq ▸ ha
  · split at hi
    · next eq =>
        cases hi
        exact eq ▸ he
    · exact ht i b hi

theorem eachNode_leaf {P : Cell → α → CellTree α → CellTree α → Prop} {a : α} {c : Cell} :
    EachNode P (leaf a) c := by
  intro i b l r h
  simp only [sub] at h
  split at h <;> cases h

theorem eachNode_node {P : Cell → α → CellTree α → CellTree α → Prop} {a : α} {l r : CellTree α}
    {c : Cell} :
    EachNode P (node a l r) c ↔ P c a l r ∧ EachNode P l c.lo ∧ EachNode P r c.hi := by
  constructor
  · refine fun h => ⟨h c a l r (sub_self _ _), fun i b l' r' hs => h i b l' r' ?_,
      fun i b l' r' hs => h i b l' r' ?_⟩
    · rw [sub_node_lo (under_of_sub hs), hs]
    · rw [sub_node_hi (under_of_sub hs), hs]
  · rintro ⟨hc, hl, hr⟩ i b l' r' hs
    rcases (under_of_sub hs).cases with rfl | lo | hi
    · rw [sub_self] at hs
      cases hs
      exact hc
    · exact hl i b l' r' (by rwa [sub_node_lo lo] at hs)
    · exact hr i b l' r' (by rwa [sub_node_hi hi] at hs)

theorem EachNode.sub {P : Cell → α → CellTree α → CellTree α → Prop} {t s : CellTree α}
    {c j : Cell} (h : EachNode P t c) (hs : CellTree.sub t c j = some s) : EachNode P s j := by
  intro i a l r node_at
  exact h i a l r (by rw [sub_sub hs (under_of_sub node_at), node_at])

/-- The inner nodes after a graft: the graft's own, those beside it as they were, and those above
it, which keep their label over a changed child. -/
theorem sub_graft_node {t s s₀ : CellTree α} {c i j : Cell} {a : α} {l r : CellTree α}
    (h : CellTree.sub t c j = some s₀)
    (node_at : CellTree.sub (CellTree.graft s j t c) c i = some (node a l r)) :
    i.Under j ∧ CellTree.sub s j i = some (node a l r) ∨
      ¬ i.Under j ∧ ¬ j.Under i ∧ CellTree.sub t c i = some (node a l r) ∨
      (j.Under i.lo ∨ j.Under i.hi) ∧ ∃ l₀ r₀, CellTree.sub t c i = some (node a l₀ r₀) ∧
        l = CellTree.graft s j l₀ i.lo ∧ r = CellTree.graft s j r₀ i.hi := by
  by_cases under : i.Under j
  · rw [sub_graft_under h under] at node_at
    exact .inl ⟨under, node_at⟩
  · right
    by_cases above : j.Under i
    · right
      have region : i.Under c := under_of_sub node_at
      obtain ⟨s', h'⟩ := sub_between h above region
      have ne : j ≠ i := by
        rintro rfl
        exact under (.refl _)
      rw [sub_graft_above h' above] at node_at
      cases s' with
      | leaf b =>
          rw [CellTree.graft, if_neg ne] at node_at
          cases node_at
      | node b l₀ r₀ =>
          rw [CellTree.graft, if_neg ne] at node_at
          cases node_at
          exact ⟨above.cases.resolve_left ne, l₀, r₀, h', rfl, rfl⟩
    · rw [sub_graft_beside under above] at node_at
      exact .inl ⟨under, above, node_at⟩

theorem EachNode.hoist {P : Cell → α → CellTree α → CellTree α → Prop} {t : CellTree α} {c : Cell}
    {e a : α} (ht : EachNode P t c) (lo : P c.up a t (leaf e)) (hi : P c.up a (leaf e) t) :
    EachNode P (hoist e a t c) c.up := by
  rcases hoist_cases e a t c with ⟨side, eq⟩ | ⟨side, eq⟩
  · rw [eq, eachNode_node]
    exact ⟨lo, side ▸ ht, eachNode_leaf⟩
  · rw [eq, eachNode_node]
    exact ⟨hi, eachNode_leaf, side ▸ ht⟩

/-- The store after the tiles of `s`, rooted at `j`, replaced whatever lay there. -/
def placed (s : CellTree α) (j : Cell) (f : Cell → Option α) (i : Cell) : Option α :=
  if i.Under j then get s j i else f i

/-- The same without the root of `s`. -/
def placedBelow (s : CellTree α) (j : Cell) (f : Cell → Option α) (i : Cell) : Option α :=
  if i.Under j ∧ i ≠ j then get s j i else f i

theorem get_node {a : α} {l r : CellTree α} {c i : Cell} :
    get (node a l r) c i =
      if i = c then some a else if i.Under c.lo then get l c.lo i else get r c.hi i := by
  unfold get
  split
  · next eq => rw [eq, sub_self]; rfl
  · next ne =>
      split
      · next lo => rw [sub_node_lo lo]
      · next out => simp only [sub, if_neg ne, sub_none out]

theorem get_none {t : CellTree α} {c j : Cell} (h : ¬ j.Under c) : get t c j = none := by
  rw [get, sub_none h]
  rfl

/-- The layout determines the tree. -/
theorem get_injective {t s : CellTree α} {c : Cell} (h : get t c = get s c) : t = s := by
  have at_lo : ∀ {a : α} {l r : CellTree α} {c : Cell} (i : Cell), i.Under c.lo →
      get (node a l r) c i = get l c.lo i := by
    intro a l r c i under
    rw [get, sub_node_lo under]
    rfl
  have at_hi : ∀ {a : α} {l r : CellTree α} {c : Cell} (i : Cell), i.Under c.hi →
      get (node a l r) c i = get r c.hi i := by
    intro a l r c i under
    rw [get, sub_node_hi under]
    rfl
  have bare : ∀ {a : α} {c : Cell}, get (leaf a) c c.lo = none := by
    intro a c
    rw [get, sub_leaf_none]
    · rfl
    · exact Cell.lo_ne c
  induction t generalizing s c with
  | leaf a =>
      cases s with
      | leaf b =>
          have top := congrFun h c
          rw [get_self, get_self] at top
          cases top
          rfl
      | node b l r =>
          have below := congrFun h c.lo
          rw [bare, at_lo _ (.refl _), get_self] at below
          cases below
  | node a l r ihl ihr =>
      cases s with
      | leaf b =>
          have below := congrFun h c.lo
          rw [bare, at_lo _ (.refl _), get_self] at below
          cases below
      | node b l' r' =>
          have top := congrFun h c
          rw [get_self, get_self] at top
          cases top
          have left : l = l' := by
            refine ihl (c := c.lo) (funext fun i => ?_)
            by_cases under : i.Under c.lo
            · rw [← at_lo i under, ← at_lo i under, h]
            · rw [get_none under, get_none under]
          have right : r = r' := by
            refine ihr (c := c.hi) (funext fun i => ?_)
            by_cases under : i.Under c.hi
            · rw [← at_hi i under, ← at_hi i under, h]
            · rw [get_none under, get_none under]
          rw [left, right]

theorem placed_get {t s₀ : CellTree α} {c j : Cell} (h : sub t c j = some s₀) (s : CellTree α) :
    placed s j (get t c) = get (graft s j t c) c := by
  funext i
  rw [get_graft h]
  rfl

theorem update_placedBelow (s : CellTree α) (j : Cell) (f : Cell → Option α) :
    Function.update (placedBelow s j f) j (some s.label) = placed s j f := by
  funext i
  by_cases eq : i = j
  · subst eq
    rw [Function.update_self, placed, if_pos (.refl i), get_self]
  · rw [Function.update_of_ne eq]
    simp only [placedBelow, placed, eq, ne_eq, not_false_eq_true, and_true]

theorem placedBelow_leaf (a : α) {j : Cell} {f : Cell → Option α}
    (free : ∀ i : Cell, i.Under j → i ≠ j → f i = none) : placedBelow (leaf a) j f = f := by
  funext i
  unfold placedBelow
  split
  · next below => rw [free i below.1 below.2, get, sub_leaf_none below.2]; rfl
  · rfl

theorem placedBelow_node (a : α) (l r : CellTree α) (j : Cell) (f : Cell → Option α) :
    placedBelow (node a l r) j f = placed r j.hi (placed l j.lo f) := by
  funext i
  simp only [placedBelow, placed, get_node]
  by_cases hi : i.Under j.hi
  · have ne : i ≠ j := by
      rintro rfl
      exact Cell.not_under_hi_self _ hi
    have lo : ¬ i.Under j.lo := fun g => Cell.not_under_lo_hi g hi
    rw [if_pos ⟨hi.trans (.hi j), ne⟩, if_neg ne, if_neg lo, if_pos hi]
  · rw [if_neg hi]
    by_cases lo : i.Under j.lo
    · have ne : i ≠ j := by
        rintro rfl
        exact Cell.not_under_lo_self _ lo
      rw [if_pos ⟨lo.trans (.lo j), ne⟩, if_neg ne, if_pos lo, if_pos lo]
    · have out : ¬ (i.Under j ∧ i ≠ j) := by
        rintro ⟨under, ne⟩
        rcases under.cases with eq | g | g
        · exact ne eq
        · exact lo g
        · exact hi g
      rw [if_neg out, if_neg lo]

theorem update_get_leaf (a b : α) (c : Cell) :
    Function.update (get (leaf a) c) c (some b) = get (leaf b) c := by
  funext i
  by_cases eq : i = c
  · rw [eq, Function.update_self, get_self]
    rfl
  · rw [Function.update_of_ne eq, get, get, sub_leaf_none eq, sub_leaf_none eq]

theorem update_get_node {t l r : CellTree α} {a : α} {c j : Cell}
    (h : sub t c j = some (node a l r)) (b : α) :
    Function.update (get t c) j (some b) = get (graft (node b l r) j t c) c := by
  funext i
  rw [get_graft h]
  by_cases eq : i = j
  · subst eq
    rw [Function.update_self, if_pos (.refl i), get_self]
    rfl
  · rw [Function.update_of_ne eq]
    split
    · next under =>
        have same : get t c i = get (node a l r) j i := by rw [get, sub_sub h under]; rfl
        rw [same, get_node, get_node, if_neg eq, if_neg eq]
    · rfl

/-- Writing an empty twin and a new root above a stored tree. -/
theorem update_hoist (e a : α) (t : CellTree α) (c : Cell) :
    Function.update (Function.update (get t c) c.twin (some e)) c.up (some a) =
      get (hoist e a t c) c.up := by
  funext i
  rw [get_hoist]
  by_cases top : i = c.up
  · rw [if_pos top, top, Function.update_self]
  · rw [if_neg top, Function.update_of_ne top]
    by_cases side : i = c.twin
    · rw [if_pos side, side, Function.update_self]
    · rw [if_neg side, Function.update_of_ne side]

/-- The tree as a search sees it that does not go below level `d`. -/
def prune (d : ℤ) : CellTree α → Cell → CellTree α
  | leaf a, _ => leaf a
  | node a l r, c => if d < c.level then node a (prune d l c.lo) (prune d r c.hi) else leaf a

theorem label_prune (d : ℤ) (t : CellTree α) (c : Cell) : (prune d t c).label = t.label := by
  cases t with
  | leaf a => rfl
  | node a l r =>
      rw [prune]
      split <;> rfl

theorem sub_prune {d : ℤ} {t s : CellTree α} {c j : Cell} (h : sub (prune d t c) c j = some s) :
    ∃ s', sub t c j = some s' ∧ prune d s' j = s := by
  by_cases eq : j = c
  · subst eq
    rw [sub_self] at h
    cases h
    exact ⟨t, sub_self t j, rfl⟩
  induction t generalizing c with
  | leaf a =>
      rw [prune, sub_leaf_none eq] at h
      cases h
  | node a l r ihl ihr =>
      rw [prune] at h
      split at h
      · rcases (under_of_sub h).cases with same | lo | hi
        · exact (eq same).elim
        · rw [sub_node_lo lo] at h ⊢
          by_cases top : j = c.lo
          · subst top
            rw [sub_self] at h
            cases h
            exact ⟨l, sub_self _ _, rfl⟩
          · exact ihl h top
        · rw [sub_node_hi hi] at h ⊢
          by_cases top : j = c.hi
          · subst top
            rw [sub_self] at h
            cases h
            exact ⟨r, sub_self _ _, rfl⟩
          · exact ihr h top
      · rw [sub_leaf_none eq] at h
        cases h

/-- Neighbouring leaves meet in the middle of the cell above both. -/
theorem leaves_adjacent {t : CellTree α} {c : Cell} {front back : List (Cell × α)} {x y : Cell × α}
    (h : leaves t c = front ++ x :: y :: back) :
    ∃ j a l r, sub t c j = some (node a l r) ∧ x.1.Under j.lo ∧ x.1.stop = j.lo.stop ∧
      reach r j.hi j.hi.start = y := by
  induction t generalizing c front back with
  | leaf a =>
      have short := congrArg List.length h
      simp only [leaves, List.length_append, List.length_cons, List.length_nil] at short
      omega
  | node a l r ihl ihr =>
      rw [leaves] at h
      have inLeft : ∀ j b l' r', sub l c.lo j = some (node b l' r') →
          sub (node a l r) c j = some (node b l' r') := by
        intro j b l' r' mem
        rw [sub_node_lo (under_of_sub mem), mem]
      have inRight : ∀ j b l' r', sub r c.hi j = some (node b l' r') →
          sub (node a l r) c j = some (node b l' r') := by
        intro j b l' r' mem
        rw [sub_node_hi (under_of_sub mem), mem]
      rcases List.append_eq_append_iff.mp h with ⟨mid, eqFront, eqRight⟩ | ⟨mid, eqLeft, eqBack⟩
      · obtain ⟨j, b, l', r', mem, rest⟩ := ihr eqRight
        exact ⟨j, b, l', r', inRight j b l' r' mem, rest⟩
      · match mid with
        | [] =>
            rw [List.nil_append] at eqBack
            obtain ⟨j, b, l', r', mem, rest⟩ := @ihr _ [] _ eqBack.symm
            exact ⟨j, b, l', r', inRight j b l' r' mem, rest⟩
        | [z] =>
            -- the last leaf on the left and the first one on the right
            obtain ⟨rfl, (eqRight : y :: back = leaves r c.hi)⟩ := List.cons.inj eqBack
            have tiledLeft := leaves_tiled l c.lo
            rw [eqLeft] at tiledLeft
            obtain ⟨m, -, last⟩ := tiledLeft.split
            have tiledRight := leaves_tiled r c.hi
            have memLeft : x ∈ leaves l c.lo := by
              rw [eqLeft]
              exact List.mem_append_right _ (List.mem_singleton_self x)
            have memRight : y ∈ leaves r c.hi := by
              rw [← eqRight]
              exact List.mem_cons_self
            rw [← eqRight] at tiledRight
            refine ⟨c, a, l, r, sub_self _ _, under_of_sub (mem_leaves.mp memLeft), last.2, ?_⟩
            refine reach_of_has memRight ⟨tiledRight.1.le, ?_⟩
            rw [← tiledRight.1]
            exact y.1.start_lt_stop
        | z :: w :: mid =>
            obtain ⟨rfl, tails⟩ := List.cons.inj eqBack
            obtain ⟨rfl, -⟩ := List.cons.inj tails
            obtain ⟨j, b, l', r', mem, rest⟩ := ihl eqLeft
            exact ⟨j, b, l', r', inLeft j b l' r' mem, rest⟩

theorem Tiled.pairwise {l : List (Cell × α)} {a b : ℚ} (h : Tiled l a b) :
    l.Pairwise fun x y => x.1.stop ≤ y.1.start := by
  induction l generalizing a with
  | nil => exact .nil
  | cons x l ih => exact .cons (fun y hy => (h.2.mem_bounds y hy).1) (ih h.2)

end CellTree
end Mio
