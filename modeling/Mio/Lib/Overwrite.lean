import Mathlib.Order.Basic
import Mathlib.Data.List.Perm.Basic
import Mathlib.Data.List.Sort
import Mathlib.Tactic.Common

/-! Merging an update into an ordered list: at equal keys the update's element replaces one old
element. Neither list need have distinct keys. -/
namespace Mio

variable {α κ : Type} [LinearOrder κ] (key : α → κ)

/-- Places `a` into the old list and hands what lies behind it to `rest`. -/
def overwriteHead (a : α) (rest : List α → List α) : List α → List α
  | [] => a :: rest []
  | b :: old =>
      if key a < key b then a :: rest (b :: old)
      else if key b < key a then b :: overwriteHead a rest old
      else a :: rest old

/-- Merges `new` over `old`. -/
def overwrite : List α → List α → List α
  | [], old => old
  | a :: new, old => overwriteHead key a (overwrite new) old

@[simp] theorem overwrite_nil (old : List α) : overwrite key [] old = old := rfl

theorem overwrite_nil_right (new : List α) : overwrite key new [] = new := by
  induction new with
  | nil => rfl
  | cons a new ih => simp [overwrite, overwriteHead, ih]

/-- The two-cursor loop: one comparison of the heads decides which cursors advance. -/
theorem overwrite_cons_cons (a b : α) (new old : List α) :
    overwrite key (a :: new) (b :: old) =
      if key a < key b then a :: overwrite key new (b :: old)
      else if key b < key a then b :: overwrite key (a :: new) old
      else a :: overwrite key new old := rfl

theorem overwrite_induct {motive : List α → List α → Prop}
    (nil : ∀ old, motive [] old) (nilRight : ∀ a new, motive (a :: new) [])
    (fresh : ∀ a new b old, key a < key b → motive new (b :: old) → motive (a :: new) (b :: old))
    (keep : ∀ a new b old, key b < key a → motive (a :: new) old → motive (a :: new) (b :: old))
    (replace : ∀ a new b old, key a = key b → motive new old → motive (a :: new) (b :: old)) :
    ∀ new old, motive new old := by
  intro new
  induction new with
  | nil => exact nil
  | cons a new ihn =>
      intro old
      induction old with
      | nil => exact nilRight a new
      | cons b old iho =>
          rcases lt_trichotomy (key a) (key b) with lt | eq | gt
          · exact fresh a new b old lt (ihn _)
          · exact replace a new b old eq (ihn _)
          · exact keep a new b old gt iho

variable {key}

theorem overwrite_fresh {a b : α} (h : key a < key b) (new old : List α) :
    overwrite key (a :: new) (b :: old) = a :: overwrite key new (b :: old) := by
  rw [overwrite_cons_cons, if_pos h]

theorem overwrite_keep {a b : α} (h : key b < key a) (new old : List α) :
    overwrite key (a :: new) (b :: old) = b :: overwrite key (a :: new) old := by
  rw [overwrite_cons_cons, if_neg (lt_asymm h), if_pos h]

theorem overwrite_replace {a b : α} (h : key a = key b) (new old : List α) :
    overwrite key (a :: new) (b :: old) = a :: overwrite key new old := by
  rw [overwrite_cons_cons, if_neg h.not_lt, if_neg h.symm.not_lt]

theorem mem_overwrite {new old : List α} {x : α} (h : x ∈ overwrite key new old) :
    x ∈ new ∨ x ∈ old := by
  induction new, old using overwrite_induct key with
  | nil old => exact .inr h
  | nilRight a new => exact .inl (by simpa only [overwrite_nil_right] using h)
  | fresh a new b old lt ih =>
      rw [overwrite_fresh lt] at h
      rcases List.mem_cons.mp h with rfl | h
      · exact .inl List.mem_cons_self
      · exact (ih h).imp_left (List.mem_cons_of_mem _)
  | keep a new b old lt ih =>
      rw [overwrite_keep lt] at h
      rcases List.mem_cons.mp h with rfl | h
      · exact .inr List.mem_cons_self
      · exact (ih h).imp_right (List.mem_cons_of_mem _)
  | replace a new b old eq ih =>
      rw [overwrite_replace eq] at h
      rcases List.mem_cons.mp h with rfl | h
      · exact .inl List.mem_cons_self
      · exact (ih h).imp (List.mem_cons_of_mem _) (List.mem_cons_of_mem _)

theorem mem_overwrite_new {new old : List α} {x : α} (h : x ∈ new) :
    x ∈ overwrite key new old := by
  induction new, old using overwrite_induct key with
  | nil old => cases h
  | nilRight a new => simpa only [overwrite_nil_right] using h
  | fresh a new b old lt ih =>
      rw [overwrite_fresh lt]
      rcases List.mem_cons.mp h with rfl | h
      · exact List.mem_cons_self
      · exact List.mem_cons_of_mem _ (ih h)
  | keep a new b old lt ih =>
      rw [overwrite_keep lt]
      exact List.mem_cons_of_mem _ (ih h)
  | replace a new b old eq ih =>
      rw [overwrite_replace eq]
      rcases List.mem_cons.mp h with rfl | h
      · exact List.mem_cons_self
      · exact List.mem_cons_of_mem _ (ih h)

theorem mem_overwrite_old {new old : List α} {x : α} (h : x ∈ old) :
    x ∈ overwrite key new old ∨ ∃ y ∈ new, key y = key x := by
  induction new, old using overwrite_induct key with
  | nil old => exact .inl h
  | nilRight a new => cases h
  | fresh a new b old lt ih =>
      rw [overwrite_fresh lt]
      rcases ih h with h | ⟨y, hy, eq⟩
      · exact .inl (List.mem_cons_of_mem _ h)
      · exact .inr ⟨y, List.mem_cons_of_mem _ hy, eq⟩
  | keep a new b old lt ih =>
      rw [overwrite_keep lt]
      rcases List.mem_cons.mp h with rfl | h
      · exact .inl List.mem_cons_self
      · exact (ih h).imp_left (List.mem_cons_of_mem _)
  | replace a new b old eq ih =>
      rw [overwrite_replace eq]
      rcases List.mem_cons.mp h with rfl | h
      · exact .inr ⟨a, List.mem_cons_self, eq⟩
      · rcases ih h with h | ⟨y, hy, eq⟩
        · exact .inl (List.mem_cons_of_mem _ h)
        · exact .inr ⟨y, List.mem_cons_of_mem _ hy, eq⟩

theorem mem_keys_overwrite {new old : List α} {k : κ} :
    k ∈ (overwrite key new old).map key ↔ k ∈ new.map key ∨ k ∈ old.map key := by
  simp only [List.mem_map]
  constructor
  · rintro ⟨x, hx, eq⟩
    exact (mem_overwrite hx).imp (⟨x, ·, eq⟩) (⟨x, ·, eq⟩)
  · rintro (⟨x, hx, eq⟩ | ⟨x, hx, eq⟩)
    · exact ⟨x, mem_overwrite_new hx, eq⟩
    · have kept : x ∈ overwrite key new old ∨ ∃ y ∈ new, key y = key x := mem_overwrite_old hx
      rcases kept with h | ⟨y, hy, same⟩
      · exact ⟨x, h, eq⟩
      · exact ⟨y, mem_overwrite_new hy, same.trans eq⟩

theorem length_le_overwrite (new old : List α) : old.length ≤ (overwrite key new old).length := by
  induction new, old using overwrite_induct key with
  | nil old => exact le_rfl
  | nilRight a new => exact Nat.zero_le _
  | fresh a new b old lt ih =>
      rw [overwrite_fresh lt]
      exact ih.trans (Nat.le_succ _)
  | keep a new b old lt ih =>
      rw [overwrite_keep lt]
      exact Nat.succ_le_succ ih
  | replace a new b old eq ih =>
      rw [overwrite_replace eq]
      exact Nat.succ_le_succ ih

/-- When nothing is replaced, an update only shuffles the two lists together. -/
theorem overwrite_perm {new old : List α} (apart : ∀ x ∈ new, ∀ y ∈ old, key x ≠ key y) :
    (overwrite key new old).Perm (new ++ old) := by
  induction new, old using overwrite_induct key with
  | nil old => exact .refl _
  | nilRight a new =>
      rw [overwrite_nil_right, List.append_nil]
  | fresh a new b old lt ih =>
      rw [overwrite_fresh lt]
      exact .cons a (ih fun x hx => apart x (List.mem_cons_of_mem _ hx))
  | keep a new b old lt ih =>
      rw [overwrite_keep lt]
      have rest := ih fun x hx y hy => apart x hx y (List.mem_cons_of_mem _ hy)
      exact (rest.cons b).trans List.perm_middle.symm
  | replace a new b old eq ih =>
      exact (apart a List.mem_cons_self b List.mem_cons_self eq).elim

/-- Updating commutes with cutting both lists at a common place between keys. -/
theorem overwrite_append {n₁ n₂ o₁ o₂ : List α}
    (h : ∀ x ∈ n₁ ++ o₁, ∀ y ∈ n₂ ++ o₂, key x < key y) :
    overwrite key (n₁ ++ n₂) (o₁ ++ o₂) = overwrite key n₁ o₁ ++ overwrite key n₂ o₂ := by
  have tail : ∀ o₁ : List α, (∀ x ∈ o₁, ∀ y ∈ n₂, key x < key y) →
      overwrite key n₂ (o₁ ++ o₂) = o₁ ++ overwrite key n₂ o₂ := by
    intro o₁ h
    induction o₁ with
    | nil => rfl
    | cons b o₁ ih =>
        cases n₂ with
        | nil => rfl
        | cons a n₂ =>
            have lt := h b List.mem_cons_self a List.mem_cons_self
            rw [List.cons_append, overwrite_keep lt,
              ih fun x hx => h x (List.mem_cons_of_mem _ hx), List.cons_append]
  induction n₁, o₁ using overwrite_induct key with
  | nil o₁ =>
      exact tail o₁ fun x hx y hy => h x (by simpa using hx) y (List.mem_append_left _ hy)
  | nilRight a n₁ =>
      rw [overwrite_nil_right]
      -- nothing of the update's first part has an old partner
      have front : ∀ n₁ : List α, (∀ x ∈ n₁, ∀ y ∈ o₂, key x < key y) →
          overwrite key (n₁ ++ n₂) o₂ = n₁ ++ overwrite key n₂ o₂ := by
        intro n₁ h
        induction n₁ with
        | nil => rfl
        | cons a n₁ ih =>
            have ih := ih fun x hx => h x (List.mem_cons_of_mem _ hx)
            cases o₂ with
            | nil => simp only [overwrite_nil_right]
            | cons b o₂ =>
                have lt := h a List.mem_cons_self b List.mem_cons_self
                rw [List.cons_append, overwrite_fresh lt, ih, List.cons_append]
      exact front _ fun x hx y hy => h x (by simpa using hx) y (List.mem_append_right _ hy)
  | fresh a n₁ b o₁ lt ih =>
      rw [List.cons_append, List.cons_append, overwrite_fresh lt, overwrite_fresh lt,
        ← List.cons_append, ih fun x hx => h x (List.mem_cons_of_mem _ hx), List.cons_append]
  | keep a n₁ b o₁ lt ih =>
      rw [List.cons_append, List.cons_append, overwrite_keep lt, overwrite_keep lt,
        ← List.cons_append, ih, List.cons_append]
      intro x hx
      refine h x ?_
      simp only [List.mem_append, List.mem_cons] at hx ⊢
      tauto
  | replace a n₁ b o₁ eq ih =>
      rw [List.cons_append, List.cons_append, overwrite_replace eq, overwrite_replace eq, ih,
        List.cons_append]
      intro x hx
      refine h x ?_
      simp only [List.mem_append, List.mem_cons] at hx ⊢
      tauto

theorem overwrite_again (new old : List α) :
    overwrite key new (overwrite key new old) = overwrite key new old := by
  induction new, old using overwrite_induct key with
  | nil old => rfl
  | nilRight a new =>
      rw [overwrite_nil_right]
      induction a :: new with
      | nil => rfl
      | cons b l ih => rw [overwrite_replace rfl, ih]
  | fresh a new b old lt ih => rw [overwrite_fresh lt, overwrite_replace rfl, ih]
  | keep a new b old lt ih => rw [overwrite_keep lt, overwrite_keep lt, ih]
  | replace a new b old eq ih => rw [overwrite_replace eq, overwrite_replace rfl, ih]

variable (key)

def Ascending (l : List α) : Prop := l.Pairwise fun x y => key x ≤ key y

instance (l : List α) : Decidable (Ascending key l) := inferInstanceAs (Decidable (List.Pairwise _ l))

variable {key}

theorem Ascending.append {l₁ l₂ : List α} (h₁ : Ascending key l₁) (h₂ : Ascending key l₂)
    (h : ∀ x ∈ l₁, ∀ y ∈ l₂, key x ≤ key y) : Ascending key (l₁ ++ l₂) :=
  List.pairwise_append.mpr ⟨h₁, h₂, h⟩

theorem Ascending.overwrite {new old : List α} (hn : Ascending key new) (ho : Ascending key old) :
    Ascending key (overwrite key new old) := by
  induction new, old using overwrite_induct key with
  | nil old => exact ho
  | nilRight a new => rwa [overwrite_nil_right]
  | fresh a new b old lt ih =>
      rw [overwrite_fresh lt]
      refine List.pairwise_cons.mpr ⟨?_, ih (List.pairwise_cons.mp hn).2 ho⟩
      intro x hx
      rcases mem_overwrite hx with hx | hx
      · exact (List.pairwise_cons.mp hn).1 x hx
      · rcases List.mem_cons.mp hx with rfl | hx
        · exact lt.le
        · exact lt.le.trans ((List.pairwise_cons.mp ho).1 x hx)
  | keep a new b old lt ih =>
      rw [overwrite_keep lt]
      refine List.pairwise_cons.mpr ⟨?_, ih hn (List.pairwise_cons.mp ho).2⟩
      intro x hx
      rcases mem_overwrite hx with hx | hx
      · rcases List.mem_cons.mp hx with rfl | hx
        · exact lt.le
        · exact lt.le.trans ((List.pairwise_cons.mp hn).1 x hx)
      · exact (List.pairwise_cons.mp ho).1 x hx
  | replace a new b old eq ih =>
      rw [overwrite_replace eq]
      refine List.pairwise_cons.mpr
        ⟨?_, ih (List.pairwise_cons.mp hn).2 (List.pairwise_cons.mp ho).2⟩
      intro x hx
      rcases mem_overwrite hx with hx | hx
      · exact (List.pairwise_cons.mp hn).1 x hx
      · exact eq.le.trans ((List.pairwise_cons.mp ho).1 x hx)

/-- A non-descending list is cut in two by any downward closed property of keys. -/
theorem Ascending.cut {l : List α} (h : Ascending key l) (p : κ → Prop)
    (down : ∀ x y, x ≤ y → p y → p x) :
    ∃ a b, l = a ++ b ∧ (∀ x ∈ a, p (key x)) ∧ ∀ y ∈ b, ¬ p (key y) := by
  classical
  induction l with
  | nil => exact ⟨[], [], rfl, by simp, by simp⟩
  | cons x l ih =>
      obtain ⟨hx, hl⟩ := List.pairwise_cons.mp h
      by_cases px : p (key x)
      · obtain ⟨a, b, rfl, ha, hb⟩ := ih hl
        refine ⟨x :: a, b, rfl, ?_, hb⟩
        intro y hy
        rcases List.mem_cons.mp hy with rfl | hy
        · exact px
        · exact ha y hy
      · refine ⟨[], x :: l, rfl, by simp, ?_⟩
        intro y hy
        rcases List.mem_cons.mp hy with rfl | hy
        · exact px
        · exact fun py => px (down _ _ (hx y hy) py)

theorem Ascending.cutAt {l : List α} (h : Ascending key l) (m : κ) :
    ∃ a b, l = a ++ b ∧ (∀ x ∈ a, key x < m) ∧ ∀ y ∈ b, m ≤ key y := by
  obtain ⟨a, b, eq, ha, hb⟩ := h.cut (· < m) fun _ _ le lt => le.trans_lt lt
  exact ⟨a, b, eq, ha, fun y hy => not_lt.mp (hb y hy)⟩

theorem Ascending.takeWhile {l : List α} (h : Ascending key l) (p : α → Bool) :
    Ascending key (l.takeWhile p) := h.sublist (List.takeWhile_sublist p)

theorem Ascending.dropWhile {l : List α} (h : Ascending key l) (p : α → Bool) :
    Ascending key (l.dropWhile p) := h.sublist (List.dropWhile_sublist p)

theorem Ascending.le_of_mem_dropWhile {l : List α} (h : Ascending key l) {m : κ} :
    ∀ x ∈ l.dropWhile (decide <| key · < m), m ≤ key x := by
  obtain ⟨a, b, rfl, ha, hb⟩ := h.cutAt m
  have front : (a ++ b).dropWhile (decide <| key · < m) = b.dropWhile (decide <| key · < m) :=
    List.dropWhile_append_of_pos fun x hx => decide_eq_true (ha x hx)
  intro x hx
  rw [front] at hx
  exact hb x ((List.dropWhile_sublist _).subset hx)

/-- Skipping what is too small and stopping at what is too large is a filter. -/
theorem Ascending.slice {l : List α} (h : Ascending key l) (lo hi : κ) :
    (l.dropWhile (decide <| key · < lo)).takeWhile (decide <| key · < hi) =
      l.filter fun x => lo ≤ key x ∧ key x < hi := by
  obtain ⟨a, r, rfl, ha, hr⟩ := h.cutAt lo
  have tail : Ascending key r := (List.pairwise_append.mp h).2.1
  obtain ⟨m, z, rfl, hm, hz⟩ := tail.cutAt hi
  have skip : (a ++ (m ++ z)).dropWhile (decide <| key · < lo) = m ++ z := by
    rw [List.dropWhile_append_of_pos fun x hx => decide_eq_true (ha x hx)]
    cases rest : m ++ z with
    | nil => rfl
    | cons x l =>
        rw [List.dropWhile_cons_of_neg]
        simpa using hr x (by rw [rest]; exact List.mem_cons_self)
  have stop : (m ++ z).takeWhile (decide <| key · < hi) = m := by
    rw [List.takeWhile_append_of_pos fun x hx => decide_eq_true (hm x hx)]
    cases z with
    | nil => simp
    | cons x l =>
        rw [List.takeWhile_cons_of_neg]
        · simp
        · simpa using hz x List.mem_cons_self
  rw [skip, stop, List.filter_append, List.filter_append]
  have front : a.filter (fun x => lo ≤ key x ∧ key x < hi) = [] := by
    rw [List.filter_eq_nil_iff]
    intro x hx both
    exact not_lt.mpr (of_decide_eq_true both).1 (ha x hx)
  have middle : m.filter (fun x => lo ≤ key x ∧ key x < hi) = m := by
    rw [List.filter_eq_self]
    exact fun x hx => decide_eq_true ⟨hr x (List.mem_append_left _ hx), hm x hx⟩
  have back : z.filter (fun x => lo ≤ key x ∧ key x < hi) = [] := by
    rw [List.filter_eq_nil_iff]
    intro x hx both
    exact not_lt.mpr (hz x hx) (of_decide_eq_true both).2
  rw [front, middle, back, List.nil_append, List.append_nil]

theorem Ascending.group {l : List α} (h : Ascending key l) (k : κ) :
    ∃ a g b, l = a ++ (g ++ b) ∧
      (∀ x ∈ a, key x < k) ∧ (∀ x ∈ g, key x = k) ∧ ∀ x ∈ b, k < key x := by
  obtain ⟨a, r, rfl, ha, hr⟩ := h.cutAt k
  have tail : Ascending key r := (List.pairwise_append.mp h).2.1
  obtain ⟨g, b, rfl, hg, hb⟩ := tail.cut (· ≤ k) fun _ _ le le' => le.trans le'
  refine ⟨a, g, b, rfl, ha, ?_, fun x hx => not_le.mp (hb x hx)⟩
  exact fun x hx => le_antisymm (hg x hx) (hr x (List.mem_append_left _ hx))

/-- Two updates of which the second lies behind the first act as one. -/
theorem overwrite_overwrite {c₁ c₂ l : List α} (hl : Ascending key l)
    (h₂ : Ascending key c₂) (h : ∀ x ∈ c₁, ∀ y ∈ c₂, key x < key y) :
    overwrite key c₂ (overwrite key c₁ l) = overwrite key (c₁ ++ c₂) l := by
  cases c₂ with
  | nil => simp
  | cons y c₂ =>
      obtain ⟨a, b, rfl, ha, hb⟩ := hl.cutAt (key y)
      have hy : ∀ z ∈ y :: c₂, key y ≤ key z := by
        intro z hz
        rcases List.mem_cons.mp hz with rfl | hz
        · exact le_rfl
        · exact (List.pairwise_cons.mp h₂).1 z hz
      have low : ∀ x ∈ c₁ ++ a, key x < key y := by
        intro x hx
        rcases List.mem_append.mp hx with hx | hx
        · exact h x hx y List.mem_cons_self
        · exact ha x hx
      have high : ∀ z ∈ (y :: c₂) ++ b, key y ≤ key z := by
        intro z hz
        rcases List.mem_append.mp hz with hz | hz
        · exact hy z hz
        · exact hb z hz
      have first : overwrite key (c₁ ++ []) (a ++ b) = overwrite key c₁ a ++ overwrite key [] b :=
        overwrite_append fun x hx z hz => (low x hx).trans_le (hb z (by simpa using hz))
      have second : overwrite key ([] ++ y :: c₂) (overwrite key c₁ a ++ b) =
          overwrite key [] (overwrite key c₁ a) ++ overwrite key (y :: c₂) b := by
        apply overwrite_append
        intro x hx z hz
        have hx := mem_overwrite (by simpa using hx)
        exact (low x (List.mem_append.mpr hx)).trans_le (high z hz)
      rw [List.append_nil] at first
      rw [List.nil_append] at second
      rw [first, overwrite_nil, second, overwrite_nil]
      exact (overwrite_append fun x hx z hz => (low x hx).trans_le (high z hz)).symm

theorem filter_overwrite {new old : List α} (hn : Ascending key new) (ho : Ascending key old)
    (k : κ) : (overwrite key new old).filter (key · = k) =
      overwrite key (new.filter (key · = k)) (old.filter (key · = k)) := by
  have none : ∀ l : List α, (∀ x ∈ l, key x ≠ k) → l.filter (key · = k) = [] := by
    intro l h
    simpa [List.filter_eq_nil_iff] using h
  have all : ∀ l : List α, (∀ x ∈ l, key x = k) → l.filter (key · = k) = l := by
    intro l h
    simpa [List.filter_eq_self] using h
  obtain ⟨a, g, b, rfl, ha, hg, hb⟩ := hn.group k
  obtain ⟨a', g', b', rfl, ha', hg', hb'⟩ := ho.group k
  have outer : overwrite key (a ++ (g ++ b)) (a' ++ (g' ++ b')) =
      overwrite key a a' ++ overwrite key (g ++ b) (g' ++ b') := by
    apply overwrite_append
    intro x hx y hy
    simp only [List.mem_append] at hx hy
    have : key x < k := hx.elim (ha x) (ha' x)
    rcases hy with (hy | hy) | (hy | hy)
    · exact this.trans_eq (hg y hy).symm
    · exact this.trans (hb y hy)
    · exact this.trans_eq (hg' y hy).symm
    · exact this.trans (hb' y hy)
  have inner : overwrite key (g ++ b) (g' ++ b') = overwrite key g g' ++ overwrite key b b' := by
    apply overwrite_append
    intro x hx y hy
    simp only [List.mem_append] at hx hy
    have : key x = k := hx.elim (hg x) (hg' x)
    exact this.trans_lt (hy.elim (hb y) (hb' y))
  rw [outer, inner]
  simp only [List.filter_append]
  have low : (overwrite key a a').filter (key · = k) = [] :=
    none _ fun x hx => ((mem_overwrite hx).elim (ha x) (ha' x)).ne
  have mid : (overwrite key g g').filter (key · = k) = overwrite key g g' :=
    all _ fun x hx => (mem_overwrite hx).elim (hg x) (hg' x)
  have high : (overwrite key b b').filter (key · = k) = [] :=
    none _ fun x hx => ((mem_overwrite hx).elim (hb x) (hb' x)).ne'
  rw [low, mid, high, none a fun x hx => (ha x hx).ne, none a' fun x hx => (ha' x hx).ne,
    none b fun x hx => (hb x hx).ne', none b' fun x hx => (hb' x hx).ne', all g hg, all g' hg']
  simp

variable (key)

/-- Ascending in the key, and no key twice. -/
def StrictlyAscending (l : List α) : Prop := l.Pairwise fun x y => key x < key y

instance (l : List α) : Decidable (StrictlyAscending key l) :=
  inferInstanceAs (Decidable (List.Pairwise _ l))

def lastOf (k : κ) (l : List α) : Option α := (l.filter (key · = k)).getLast?

variable {key}

theorem sublist_overwrite (new old : List α) : new.Sublist (overwrite key new old) := by
  induction new, old using overwrite_induct key with
  | nil old => exact List.nil_sublist _
  | nilRight a new =>
      rw [overwrite_nil_right]
  | fresh a new b old lt ih =>
      rw [overwrite_fresh lt]
      exact ih.cons_cons a
  | keep a new b old lt ih =>
      rw [overwrite_keep lt]
      exact ih.cons b
  | replace a new b old eq ih =>
      rw [overwrite_replace eq]
      exact ih.cons_cons a

theorem StrictlyAscending.overwrite {new old : List α} (hn : StrictlyAscending key new)
    (ho : StrictlyAscending key old) : StrictlyAscending key (overwrite key new old) := by
  induction new, old using overwrite_induct key with
  | nil old => exact ho
  | nilRight a new => rwa [overwrite_nil_right]
  | fresh a new b old lt ih =>
      obtain ⟨first, rest⟩ := List.pairwise_cons.mp hn
      rw [overwrite_fresh lt]
      refine List.pairwise_cons.mpr ⟨fun x hx => ?_, ih rest ho⟩
      cases mem_overwrite hx with
      | inl hx => exact first x hx
      | inr hx =>
          cases List.mem_cons.mp hx with
          | inl eq => exact eq ▸ lt
          | inr hx => exact lt.trans ((List.pairwise_cons.mp ho).1 x hx)
  | keep a new b old lt ih =>
      obtain ⟨first, rest⟩ := List.pairwise_cons.mp ho
      rw [overwrite_keep lt]
      refine List.pairwise_cons.mpr ⟨fun x hx => ?_, ih hn rest⟩
      cases mem_overwrite hx with
      | inl hx =>
          cases List.mem_cons.mp hx with
          | inl eq => exact eq ▸ lt
          | inr hx => exact lt.trans ((List.pairwise_cons.mp hn).1 x hx)
      | inr hx => exact first x hx
  | replace a new b old eq ih =>
      obtain ⟨firstNew, restNew⟩ := List.pairwise_cons.mp hn
      obtain ⟨firstOld, restOld⟩ := List.pairwise_cons.mp ho
      rw [overwrite_replace eq]
      refine List.pairwise_cons.mpr ⟨fun x hx => ?_, ih restNew restOld⟩
      cases mem_overwrite hx with
      | inl hx => exact firstNew x hx
      | inr hx => exact eq.trans_lt (firstOld x hx)

/-- Nothing but the update can bring a key in twice. -/
theorem strictlyAscending_overwrite_iff {new old : List α} (ho : StrictlyAscending key old) :
    StrictlyAscending key (overwrite key new old) ↔ StrictlyAscending key new :=
  ⟨fun h => h.sublist (sublist_overwrite new old), fun h => h.overwrite ho⟩

theorem StrictlyAscending.filter_key {l : List α} (h : StrictlyAscending key l) (k : κ) :
    l.filter (key · = k) = [] ∨ ∃ x, l.filter (key · = k) = [x] := by
  have group : (l.filter (key · = k)).Pairwise fun x y => key x < key y := h.sublist List.filter_sublist
  have same : ∀ x ∈ l.filter (key · = k), key x = k :=
    fun x hx => of_decide_eq_true (List.mem_filter.mp hx).2
  match cut : l.filter (key · = k) with
  | [] => exact .inl rfl
  | [x] => exact .inr ⟨x, rfl⟩
  | x :: y :: rest =>
      rw [cut] at group same
      have lt := (List.pairwise_cons.mp group).1 y List.mem_cons_self
      rw [same x List.mem_cons_self, same y (List.mem_cons_of_mem _ List.mem_cons_self)] at lt
      exact (lt_irrefl k lt).elim

/-- For each key the update's last element wins. -/
theorem lastOf_overwrite {new old : List α} (hn : Ascending key new) (ho : StrictlyAscending key old)
    (k : κ) : lastOf key k (overwrite key new old) = (lastOf key k new).or (lastOf key k old) := by
  have group : Ascending key old := ho.imp fun lt => lt.le
  have same : ∀ l : List α, ∀ x ∈ l.filter (key · = k), key x = k :=
    fun l x hx => of_decide_eq_true (List.mem_filter.mp hx).2
  unfold lastOf
  rw [filter_overwrite hn group]
  cases ho.filter_key k with
  | inl none =>
      rw [none, overwrite_nil_right, List.getLast?_nil, Option.or_none]
  | inr one =>
      obtain ⟨y, one⟩ := one
      have keyY := same old y (one ▸ List.mem_singleton_self y)
      rw [one]
      cases cut : new.filter (key · = k) with
      | nil => rfl
      | cons x rest =>
          have keyX := same new x (cut ▸ List.mem_cons_self)
          rw [overwrite_replace (keyX.trans keyY.symm), overwrite_nil_right]
          simp [List.getLast?_cons]
end Mio
