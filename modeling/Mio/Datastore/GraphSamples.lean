import Mathlib.Data.List.Count
import Mathlib.Tactic.NormNum
import Mio.Datastore.Tile

/-! The merge of numeric, string and comment samples in `gettile4server.cpp` and `gettile.cpp`. -/
namespace Mio

/-- `std::sort` by a key: in order, elements of one key in whatever order. -/
structure Sorting {α κ : Type} [LinearOrder κ] (key : α → κ) where
  sort : List α → List α
  ascending : ∀ l, Ascending key (sort l)
  perm : ∀ l, (sort l).Perm l

def Sorting.insertion {α κ : Type} [LinearOrder κ] (key : α → κ) : Sorting key where
  sort := List.insertionSort fun x y => key x ≤ key y
  ascending l := by
    have total : Std.Total fun x y : α => key x ≤ key y := ⟨fun x y => le_total (key x) (key y)⟩
    have trans : IsTrans α fun x y => key x ≤ key y := ⟨fun _ _ _ => le_trans⟩
    exact List.pairwise_insertionSort _ l
  perm := List.perm_insertionSort _

/-- The elements of a key, if any, are all alike and as many as `n`. -/
theorem last_repeated_iff {α β : Type} [DecidableEq β] (f : α → β) (n : ℕ) (l : List α) :
    (∀ v, (if l.getLast?.map f = some v then n else 0) = l.countP fun x => f x = v) ↔
      l = [] ∨ l.length = n ∧ ∀ x ∈ l, ∀ y ∈ l, f x = f y := by
  cases last : l.getLast? with
  | none =>
      have empty : l = [] := List.getLast?_eq_none_iff.mp last
      simp [empty]
  | some x =>
      have mem : x ∈ l := List.mem_of_getLast? last
      rw [or_iff_right (List.ne_nil_of_mem mem)]
      simp only [Option.map_some, Option.some.injEq]
      constructor
      · intro counts
        have alike : ∀ y ∈ l, f y = f x := by
          intro y hy
          by_contra ne
          have none := counts (f y)
          rw [if_neg (Ne.symm ne)] at none
          exact absurd (List.countP_eq_zero.mp none.symm y hy) (by simp)
        have all := counts (f x)
        rw [if_pos rfl, List.countP_eq_length.mpr fun y hy => decide_eq_true (alike y hy)] at all
        exact ⟨all.symm, fun y hy z hz => (alike y hy).trans (alike z hz).symm⟩
      · intro both
        obtain ⟨length, alike⟩ := both
        intro v
        by_cases eq : f x = v
        · rw [if_pos eq, ← length, eq_comm, List.countP_eq_length]
          exact fun y hy => decide_eq_true ((alike y hy x mem).trans eq)
        · rw [if_neg eq, eq_comm, List.countP_eq_zero]
          intro y hy same
          exact eq ((alike x mem y hy).trans (of_decide_eq_true same))

end Mio

namespace Mio.Datastore

structure GraphSample where
  time : ℚ
  hasValue : Bool
  value : ℚ
  stddev : ℚ
  weight : ℚ
  hasComment : Bool
  comment : Text

namespace GraphSample

/-- `GraphSample(DataSample<double> &x)` -/
def ofDouble (x : Sample ℚ) : GraphSample := ⟨x.time, true, x.value, x.stddev, x.weight, false, []⟩

/-- `GraphSample(DataSample<std::string> &x)` -/
def ofString (x : Sample Text) : GraphSample := ⟨x.time, false, 0, x.stddev, x.weight, true, x.value⟩

/-- The value that a row shows, with its time. -/
def valueOf (gs : GraphSample) : Option (ℚ × ℚ) := if gs.hasValue then some (gs.time, gs.value) else none

/-- The text that a row shows, with its time. -/
def textOf (gs : GraphSample) : Option (ℚ × Text) :=
  if gs.hasComment then some (gs.time, gs.comment) else none

end GraphSample

open GraphSample

def doubleSampleMap (doubleSamples : List (Sample ℚ)) : ℚ → Option (Sample ℚ) :=
  doubleSamples.foldl (fun m x => Function.update m x.time (some x)) fun _ => none

def hasString (stringSamples : List (Sample Text)) : List ℚ := stringSamples.map DataSample.time

/-- One turn of the loop over the strings. -/
def stringRow (m : ℚ → Option (Sample ℚ)) (s : Sample Text) : GraphSample :=
  match m s.time with
  | some x => { ofDouble x with hasComment := true, comment := s.value }
  | none => ofString s

/-- `graph_samples` after both loops. -/
def graphRows (doubleSamples : List (Sample ℚ)) (stringSamples : List (Sample Text)) : List GraphSample :=
  stringSamples.map (stringRow (doubleSampleMap doubleSamples)) ++
    (doubleSamples.filter (·.time ∉ hasString stringSamples)).map ofDouble

def graphSamples (timeLessthan : Sorting (DataSample.time : Sample Text → ℚ))
    (rowOrder : Sorting GraphSample.time) (doubleSamples : List (Sample ℚ))
    (stringSamples comments : List (Sample Text)) : List GraphSample :=
  rowOrder.sort (graphRows doubleSamples (timeLessthan.sort (stringSamples ++ comments)))

theorem doubleSampleMap_eq (doubles : List (Sample ℚ)) (t : ℚ) :
    doubleSampleMap doubles t = lastOf DataSample.time t doubles := by
  induction doubles using List.reverseRecOn with
  | nil => rfl
  | append_singleton doubles x ih =>
      rw [doubleSampleMap, List.foldl_concat, lastOf, List.filter_append]
      by_cases here : x.time = t
      · subst here
        simp [Function.update_self]
      · rw [Function.update_of_ne (Ne.symm here)]
        simp only [List.filter_cons, here, decide_false, List.filter_nil]
        rw [if_neg (by decide), List.append_nil]
        exact ih

theorem doubleSampleMap_time {doubles : List (Sample ℚ)} {t : ℚ} {x : Sample ℚ}
    (found : doubleSampleMap doubles t = some x) : x.time = t := by
  rw [doubleSampleMap_eq] at found
  exact of_decide_eq_true (List.mem_filter.mp (List.mem_of_getLast? found)).2

theorem doubleSampleMap_some {doubles : List (Sample ℚ)} {x : Sample ℚ} (mem : x ∈ doubles) :
    ∃ y, doubleSampleMap doubles x.time = some y := by
  rw [← Option.ne_none_iff_exists', doubleSampleMap_eq]
  intro none
  have empty := List.getLast?_eq_none_iff.mp none
  have group : x ∈ doubles.filter (·.time = x.time) := List.mem_filter.mpr ⟨mem, by simp⟩
  rw [empty] at group
  cases group

section
variable (doubles : List (Sample ℚ)) (strings : List (Sample Text))

theorem textOf_stringRow (s : Sample Text) :
    textOf (stringRow (doubleSampleMap doubles) s) = some (s.time, s.value) := by
  unfold stringRow
  cases found : doubleSampleMap doubles s.time with
  | none => rfl
  | some x =>
      have same := doubleSampleMap_time found
      simp [textOf, ofDouble, same]

theorem valueOf_stringRow (s : Sample Text) :
    valueOf (stringRow (doubleSampleMap doubles) s) =
      (lastOf DataSample.time s.time doubles).map fun x => (s.time, x.value) := by
  unfold stringRow
  rw [← doubleSampleMap_eq]
  cases found : doubleSampleMap doubles s.time with
  | none => rfl
  | some x =>
      have same := doubleSampleMap_time found
      simp [valueOf, ofDouble, same]

theorem texts_graphRows :
    (graphRows doubles strings).filterMap textOf = strings.map fun s => (s.time, s.value) := by
  have first : ∀ s : Sample Text, (textOf ∘ stringRow (doubleSampleMap doubles)) s =
      some (s.time, s.value) := textOf_stringRow doubles
  have second : ∀ x : Sample ℚ, (textOf ∘ ofDouble) x = none := fun _ => rfl
  rw [graphRows, List.filterMap_append, List.filterMap_map, List.filterMap_map, funext first,
    funext second, List.filterMap_eq_map', List.filterMap_none]
  exact List.append_nil _

theorem count_valueOf (t v : ℚ) :
    ((graphRows doubles strings).filterMap valueOf).count (t, v) =
      (if (lastOf DataSample.time t doubles).map DataSample.value = some v
        then strings.countP (·.time = t) else 0) +
      if t ∈ hasString strings then 0 else doubles.countP fun x => x.time = t ∧ x.value = v := by
  have first : ∀ s : Sample Text, (valueOf ∘ stringRow (doubleSampleMap doubles)) s =
      (lastOf DataSample.time s.time doubles).map fun x => (s.time, x.value) := valueOf_stringRow doubles
  have second : ∀ x : Sample ℚ, (valueOf ∘ ofDouble) x = some (x.time, x.value) := fun _ => rfl
  rw [graphRows, List.filterMap_append, List.filterMap_map, List.filterMap_map, funext first,
    funext second, List.count_append, List.filterMap_eq_map']
  congr 1
  · rw [List.count, List.countP_filterMap]
    by_cases shown : (lastOf DataSample.time t doubles).map DataSample.value = some v
    · rw [if_pos shown]
      apply List.countP_congr
      intro s _
      obtain ⟨x, last, value⟩ := Option.map_eq_some_iff.mp shown
      by_cases here : s.time = t
      · simp [here, last, value]
      · cases lastOf DataSample.time s.time doubles <;> simp [here]
    · rw [if_neg shown, List.countP_eq_zero]
      intro s _ same
      apply shown
      cases last : lastOf DataSample.time s.time doubles with
      | none => simp [last] at same
      | some x =>
          simp only [last, Option.map_some, Option.getD_some, beq_iff_eq, Prod.mk.injEq] at same
          rw [← same.1, last, Option.map_some, same.2]
  · rw [List.count, List.countP_map, List.countP_filter]
    by_cases taken : t ∈ hasString strings
    · rw [if_pos taken, List.countP_eq_zero]
      intro x _ both
      simp only [Function.comp_apply, Bool.and_eq_true, beq_iff_eq, Prod.mk.injEq, decide_eq_true_eq]
        at both
      exact both.2 (both.1.1 ▸ taken)
    · rw [if_neg taken]
      apply List.countP_congr
      intro x _
      simp only [Function.comp_apply, Bool.and_eq_true, beq_iff_eq, Prod.mk.injEq, decide_eq_true_eq]
      constructor
      · exact fun both => both.1
      · intro here
        exact ⟨here, here.1 ▸ taken⟩

/-- At a time with doubles and texts there are as many of the ones as of the others, and the doubles have
one value. -/
def Balanced (t : ℚ) : Prop :=
  strings.filter (·.time = t) = [] ∨ doubles.filter (·.time = t) = [] ∨
    (doubles.filter (·.time = t)).length = (strings.filter (·.time = t)).length ∧
      ∀ x ∈ doubles.filter (·.time = t), ∀ y ∈ doubles.filter (·.time = t), x.value = y.value

theorem values_perm_iff :
    ((graphRows doubles strings).filterMap valueOf).Perm (doubles.map fun x => (x.time, x.value)) ↔
      ∀ t, Balanced doubles strings t := by
  have target : ∀ t v : ℚ, (doubles.map fun x => (x.time, x.value)).count (t, v) =
      (doubles.filter (·.time = t)).countP fun x => x.value = v := by
    intro t v
    rw [List.count, List.countP_map, List.countP_filter]
    apply List.countP_congr
    intro x _
    simp [and_comm]
  have each : ∀ t : ℚ, (∀ v, ((graphRows doubles strings).filterMap valueOf).count (t, v) =
      (doubles.map fun x => (x.time, x.value)).count (t, v)) ↔ Balanced doubles strings t := by
    intro t
    by_cases texts : strings.filter (·.time = t) = []
    · refine ⟨fun _ => .inl texts, fun _ v => ?_⟩
      have none : strings.countP (·.time = t) = 0 := by
        rw [List.countP_eq_length_filter, texts, List.length_nil]
      have free : t ∉ hasString strings := by
        intro taken
        obtain ⟨s, mem, here⟩ := List.mem_map.mp taken
        exact absurd (decide_eq_true here) (List.filter_eq_nil_iff.mp texts s mem)
      rw [count_valueOf, none, ite_self, if_neg free, target, List.countP_filter, Nat.zero_add]
      apply List.countP_congr
      intro x _
      simp [and_comm]
    · have taken : t ∈ hasString strings := by
        obtain ⟨s, mem⟩ := List.exists_mem_of_ne_nil _ texts
        obtain ⟨mem, here⟩ := List.mem_filter.mp mem
        exact List.mem_map.mpr ⟨s, mem, of_decide_eq_true here⟩
      rw [Balanced, or_iff_right texts, ← last_repeated_iff]
      apply forall_congr'
      intro v
      rw [count_valueOf, if_pos taken, target, Nat.add_zero, List.countP_eq_length_filter]
      rfl
  rw [List.perm_iff_count]
  constructor
  · intro same t
    exact (each t).mp fun v => same (t, v)
  · intro balanced p
    exact (each p.1).mpr (balanced p.1) p.2

end

/-- All rows in order, every text and every value once, and a row for both where both are. -/
structure MergesSamples (doubles : List (Sample ℚ)) (strings : List (Sample Text))
    (rows : List GraphSample) : Prop where
  ordered : Ascending GraphSample.time rows
  texts : (rows.filterMap textOf).Perm (strings.map fun s => (s.time, s.value))
  values : (rows.filterMap valueOf).Perm (doubles.map fun x => (x.time, x.value))
  shared : ∀ x ∈ doubles, ∀ s ∈ strings, x.time = s.time →
    ∃ gs ∈ rows, gs.time = s.time ∧ gs.hasValue ∧ gs.hasComment

theorem balanced_perm {doubles : List (Sample ℚ)} {strings texts : List (Sample Text)}
    (perm : strings.Perm texts) (t : ℚ) : Balanced doubles strings t ↔ Balanced doubles texts t := by
  have group := perm.filter (·.time = t)
  rw [Balanced, Balanced, group.length_eq]
  refine or_congr_left ?_
  constructor
  · intro empty
    rw [empty] at group
    exact group.nil_eq.symm
  · intro empty
    rw [empty] at group
    exact group.eq_nil

section
variable (timeLessthan : Sorting (DataSample.time : Sample Text → ℚ)) (rowOrder : Sorting GraphSample.time)
  (doubles : List (Sample ℚ)) (strings comments : List (Sample Text))

theorem shared_graphRows {texts : List (Sample Text)} {x : Sample ℚ} (hx : x ∈ doubles) {s : Sample Text}
    (hs : s ∈ texts) (same : x.time = s.time) :
    ∃ gs ∈ graphRows doubles texts, gs.time = s.time ∧ gs.hasValue ∧ gs.hasComment := by
  obtain ⟨y, found⟩ := doubleSampleMap_some hx
  rw [same] at found
  refine ⟨stringRow (doubleSampleMap doubles) s, List.mem_append_left _ (List.mem_map.mpr ⟨s, hs, rfl⟩), ?_⟩
  rw [stringRow, found]
  exact ⟨doubleSampleMap_time found, rfl, rfl⟩

/-- Texts are never lost; values are neither lost nor repeated if and only if they are balanced with the
texts of their time. -/
theorem merges_samples_iff :
    MergesSamples doubles (strings ++ comments)
        (graphSamples timeLessthan rowOrder doubles strings comments) ↔
      ∀ t, Balanced doubles (strings ++ comments) t := by
  have sorted := timeLessthan.perm (strings ++ comments)
  have rows := rowOrder.perm (graphRows doubles (timeLessthan.sort (strings ++ comments)))
  have values := values_perm_iff doubles (timeLessthan.sort (strings ++ comments))
  simp only [balanced_perm sorted] at values
  rw [← values]
  constructor
  · intro merges
    exact (rows.filterMap valueOf).symm.trans merges.values
  · intro perm
    refine ⟨rowOrder.ascending _, ?_, (rows.filterMap valueOf).trans perm, ?_⟩
    · refine (rows.filterMap textOf).trans ?_
      rw [texts_graphRows]
      exact sorted.map _
    · intro x hx s hs same
      obtain ⟨gs, mem, both⟩ := shared_graphRows doubles hx (sorted.mem_iff.mpr hs) same
      exact ⟨gs, rows.mem_iff.mpr mem, both⟩

end

/-- One measurement with a note and a comment: its value is shown twice. -/
theorem commented_value_repeated :
    ¬ MergesSamples [⟨1, 5, 1, 0⟩] ([⟨1, [65], 1, 0⟩] ++ [⟨1, [66], 1, 0⟩])
      (graphSamples (.insertion _) (.insertion _) [⟨1, 5, 1, 0⟩] [⟨1, [65], 1, 0⟩] [⟨1, [66], 1, 0⟩]) := by
  intro merges
  have shown := merges.values.length_eq
  exact absurd shown (by decide +kernel)

end Mio.Datastore
