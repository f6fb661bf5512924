import Mathlib.Data.List.TakeWhile
import Mio.Datastore.Tile

/-! The contents of a tile or of a batch: both sample vectors together. What happens to the two
vectors happens independently, so every operation here is one on lists, twice. -/
namespace Mio.Datastore

@[ext]
structure Samples where
  doubles : List (Sample ℚ)
  strings : List (Sample Text)

namespace Samples

def empty : Samples := ⟨[], []⟩

instance : Append Samples := ⟨fun u v => ⟨u.doubles ++ v.doubles, u.strings ++ v.strings⟩⟩

def times (u : Samples) : List ℚ := u.doubles.map DataSample.time ++ u.strings.map DataSample.time

def weights (u : Samples) : List ℚ :=
  u.doubles.map DataSample.weight ++ u.strings.map DataSample.weight

def Ascending (u : Samples) : Prop :=
  Mio.Ascending DataSample.time u.doubles ∧ Mio.Ascending DataSample.time u.strings

def overwrite (new old : Samples) : Samples :=
  ⟨Mio.overwrite DataSample.time new.doubles old.doubles,
    Mio.overwrite DataSample.time new.strings old.strings⟩

def before (u : Samples) (m : ℚ) : Samples :=
  ⟨u.doubles.takeWhile (·.time < m), u.strings.takeWhile (·.time < m)⟩

def since (u : Samples) (m : ℚ) : Samples :=
  ⟨u.doubles.dropWhile (·.time < m), u.strings.dropWhile (·.time < m)⟩

def at_ (u : Samples) (k : ℚ) : Samples :=
  ⟨u.doubles.filter (·.time = k), u.strings.filter (·.time = k)⟩

/-- The length of an encoded tile with these samples. -/
def size (u : Samples) : ℕ :=
  8 + (4 + 24 * u.doubles.length)
    + ((4 + 24 * u.strings.length) + Tile.writeStringLength (Tile.text u.strings).length) + 32

@[simp] theorem append_doubles (u v : Samples) : (u ++ v).doubles = u.doubles ++ v.doubles := rfl

@[simp] theorem append_strings (u v : Samples) : (u ++ v).strings = u.strings ++ v.strings := rfl

@[simp] theorem empty_append (u : Samples) : empty ++ u = u := rfl

@[simp] theorem append_empty (u : Samples) : u ++ empty = u := by
  ext1 <;> simp [empty]

theorem append_assoc (u v w : Samples) : u ++ v ++ w = u ++ (v ++ w) := by
  ext1 <;> simp

theorem mem_times {u : Samples} {t : ℚ} :
    t ∈ u.times ↔ (∃ s ∈ u.doubles, s.time = t) ∨ ∃ s ∈ u.strings, s.time = t := by
  simp [times]

theorem mem_weights {u : Samples} {w : ℚ} :
    w ∈ u.weights ↔ (∃ s ∈ u.doubles, s.weight = w) ∨ ∃ s ∈ u.strings, s.weight = w := by
  simp [weights]

@[simp] theorem times_empty : empty.times = [] := rfl

@[simp] theorem weights_empty : empty.weights = [] := rfl

theorem mem_times_append {u v : Samples} {t : ℚ} : t ∈ (u ++ v).times ↔ t ∈ u.times ∨ t ∈ v.times := by
  simp only [times, append_doubles, append_strings, List.map_append, List.mem_append]
  tauto

theorem mem_weights_append {u v : Samples} {w : ℚ} :
    w ∈ (u ++ v).weights ↔ w ∈ u.weights ∨ w ∈ v.weights := by
  simp only [weights, append_doubles, append_strings, List.map_append, List.mem_append]
  tauto

theorem mem_times_overwrite {u v : Samples} {t : ℚ} :
    t ∈ (overwrite u v).times ↔ t ∈ u.times ∨ t ∈ v.times := by
  simp only [times, overwrite, List.mem_append, mem_keys_overwrite]
  tauto

theorem mem_weights_overwrite {u v : Samples} {w : ℚ} (h : w ∈ (overwrite u v).weights) :
    w ∈ u.weights ∨ w ∈ v.weights := by
  rw [mem_weights] at h ⊢
  rw [mem_weights]
  rcases h with ⟨s, hs, eq⟩ | ⟨s, hs, eq⟩
  · exact (mem_overwrite hs).imp (fun m => .inl ⟨s, m, eq⟩) fun m => .inl ⟨s, m, eq⟩
  · exact (mem_overwrite hs).imp (fun m => .inr ⟨s, m, eq⟩) fun m => .inr ⟨s, m, eq⟩

theorem ascending_empty : empty.Ascending := ⟨.nil, .nil⟩

theorem Ascending.append {u v : Samples} (hu : u.Ascending) (hv : v.Ascending)
    (h : ∀ s ∈ u.times, ∀ t ∈ v.times, s ≤ t) : (u ++ v).Ascending := by
  constructor
  · exact hu.1.append hv.1 fun x hx y hy =>
      h _ (mem_times.mpr (.inl ⟨x, hx, rfl⟩)) _ (mem_times.mpr (.inl ⟨y, hy, rfl⟩))
  · exact hu.2.append hv.2 fun x hx y hy =>
      h _ (mem_times.mpr (.inr ⟨x, hx, rfl⟩)) _ (mem_times.mpr (.inr ⟨y, hy, rfl⟩))

theorem Ascending.of_append {u v : Samples} (h : (u ++ v).Ascending) : u.Ascending ∧ v.Ascending :=
  ⟨⟨(List.pairwise_append.mp h.1).1, (List.pairwise_append.mp h.2).1⟩,
    (List.pairwise_append.mp h.1).2.1, (List.pairwise_append.mp h.2).2.1⟩

theorem Ascending.overwrite {u v : Samples} (hu : u.Ascending) (hv : v.Ascending) :
    (overwrite u v).Ascending := ⟨hu.1.overwrite hv.1, hu.2.overwrite hv.2⟩

theorem Ascending.before {u : Samples} (h : u.Ascending) (m : ℚ) : (u.before m).Ascending :=
  ⟨h.1.takeWhile _, h.2.takeWhile _⟩

theorem Ascending.since {u : Samples} (h : u.Ascending) (m : ℚ) : (u.since m).Ascending :=
  ⟨h.1.dropWhile _, h.2.dropWhile _⟩

theorem before_append_since (u : Samples) (m : ℚ) : u.before m ++ u.since m = u := by
  ext1 <;> exact List.takeWhile_append_dropWhile

theorem lt_of_mem_before {u : Samples} {m t : ℚ} (h : t ∈ (u.before m).times) : t < m := by
  rcases mem_times.mp h with ⟨s, hs, rfl⟩ | ⟨s, hs, rfl⟩
  · simpa using List.mem_takeWhile_imp hs
  · simpa using List.mem_takeWhile_imp hs

theorem Ascending.le_of_mem_since {u : Samples} (h : u.Ascending) {m t : ℚ}
    (mem : t ∈ (u.since m).times) : m ≤ t := by
  rcases mem_times.mp mem with ⟨s, hs, rfl⟩ | ⟨s, hs, rfl⟩
  · exact h.1.le_of_mem_dropWhile s hs
  · exact h.2.le_of_mem_dropWhile s hs

theorem before_append {u v : Samples} {m : ℚ} (hu : ∀ t ∈ u.times, t < m) (hv : ∀ t ∈ v.times, m ≤ t) :
    (u ++ v).before m = u := by
  have cut : ∀ {V : Type} {a b : List (Sample V)}, (∀ s ∈ a, s.time < m) → (∀ s ∈ b, m ≤ s.time) →
      (a ++ b).takeWhile (·.time < m) = a := by
    intro V a b ha hb
    rw [List.takeWhile_append_of_pos fun s hs => decide_eq_true (ha s hs)]
    cases b with
    | nil => simp
    | cons s b =>
        rw [List.takeWhile_cons_of_neg]
        · simp
        · simpa using hb s List.mem_cons_self
  ext1
  · exact cut (fun s hs => hu _ (mem_times.mpr (.inl ⟨s, hs, rfl⟩)))
      fun s hs => hv _ (mem_times.mpr (.inl ⟨s, hs, rfl⟩))
  · exact cut (fun s hs => hu _ (mem_times.mpr (.inr ⟨s, hs, rfl⟩)))
      fun s hs => hv _ (mem_times.mpr (.inr ⟨s, hs, rfl⟩))

theorem since_append {u v : Samples} {m : ℚ} (hu : ∀ t ∈ u.times, t < m) (hv : ∀ t ∈ v.times, m ≤ t) :
    (u ++ v).since m = v := by
  have whole := before_append_since (u ++ v) m
  rw [before_append hu hv] at whole
  ext1
  · exact List.append_cancel_left (congrArg doubles whole)
  · exact List.append_cancel_left (congrArg strings whole)

theorem mem_times_split {u : Samples} {t : ℚ} (m : ℚ) :
    t ∈ u.times ↔ t ∈ (u.before m).times ∨ t ∈ (u.since m).times := by
  rw [← mem_times_append, before_append_since]

theorem mem_weights_split {u : Samples} {w : ℚ} (m : ℚ) :
    w ∈ u.weights ↔ w ∈ (u.before m).weights ∨ w ∈ (u.since m).weights := by
  rw [← mem_weights_append, before_append_since]

@[simp] theorem overwrite_empty_left (v : Samples) : overwrite empty v = v := rfl

@[simp] theorem overwrite_empty_right (u : Samples) : overwrite u empty = u := by
  ext1 <;> exact overwrite_nil_right _ _

theorem overwrite_append {u₁ u₂ v₁ v₂ : Samples}
    (h : ∀ s ∈ (u₁ ++ v₁).times, ∀ t ∈ (u₂ ++ v₂).times, s < t) :
    overwrite (u₁ ++ u₂) (v₁ ++ v₂) = overwrite u₁ v₁ ++ overwrite u₂ v₂ := by
  ext1
  · exact Mio.overwrite_append fun x hx y hy =>
      h _ (mem_times.mpr (.inl ⟨x, hx, rfl⟩)) _ (mem_times.mpr (.inl ⟨y, hy, rfl⟩))
  · exact Mio.overwrite_append fun x hx y hy =>
      h _ (mem_times.mpr (.inr ⟨x, hx, rfl⟩)) _ (mem_times.mpr (.inr ⟨y, hy, rfl⟩))

theorem overwrite_overwrite {u₁ u₂ v : Samples} (hv : v.Ascending) (h₂ : u₂.Ascending)
    (h : ∀ s ∈ u₁.times, ∀ t ∈ u₂.times, s < t) :
    overwrite u₂ (overwrite u₁ v) = overwrite (u₁ ++ u₂) v := by
  ext1
  · exact Mio.overwrite_overwrite hv.1 h₂.1 fun x hx y hy =>
      h _ (mem_times.mpr (.inl ⟨x, hx, rfl⟩)) _ (mem_times.mpr (.inl ⟨y, hy, rfl⟩))
  · exact Mio.overwrite_overwrite hv.2 h₂.2 fun x hx y hy =>
      h _ (mem_times.mpr (.inr ⟨x, hx, rfl⟩)) _ (mem_times.mpr (.inr ⟨y, hy, rfl⟩))

/-- An update between a front and a back part reaches the middle only. -/
theorem overwrite_middle {u a v b : Samples} (ha : ∀ s ∈ a.times, ∀ t ∈ (u ++ v).times, s < t)
    (hb : ∀ s ∈ (u ++ v).times, ∀ t ∈ b.times, s < t) (hab : ∀ s ∈ a.times, ∀ t ∈ b.times, s < t) :
    overwrite u (a ++ v ++ b) = a ++ overwrite u v ++ b := by
  have back : overwrite (u ++ empty) (v ++ b) = overwrite u v ++ overwrite empty b :=
    overwrite_append fun s hs t ht => hb s hs t (by simpa using ht)
  have front : overwrite (empty ++ u) (a ++ (v ++ b)) = overwrite empty a ++ overwrite u (v ++ b) := by
    apply overwrite_append
    intro s hs t ht
    rw [empty_append] at hs
    rw [← append_assoc, mem_times_append] at ht
    rcases ht with ht | ht
    · exact ha s hs t ht
    · exact hab s hs t ht
  rw [append_empty, overwrite_empty_left] at back
  rw [empty_append, overwrite_empty_left, back] at front
  rw [append_assoc, front, append_assoc]

/-- What lies in front of a time is not touched by the part of an update from there on. -/
theorem overwrite_front {u v : Samples} {m : ℚ} (asc : u.Ascending) (hv : ∀ t ∈ v.times, t < m) :
    overwrite u v = overwrite (u.before m) v ++ u.since m := by
  have apart : ∀ s ∈ (u.before m ++ v).times, ∀ t ∈ (u.since m ++ empty).times, s < t := by
    intro s hs t ht
    rw [append_empty] at ht
    have low : s < m := (mem_times_append.mp hs).elim lt_of_mem_before (hv s)
    exact low.trans_le (asc.le_of_mem_since ht)
  have parts := overwrite_append apart
  rwa [before_append_since, append_empty, overwrite_empty_right] at parts

theorem overwrite_back {u v : Samples} {m : ℚ} (asc : u.Ascending) (hv : ∀ t ∈ v.times, m ≤ t) :
    overwrite u v = u.before m ++ overwrite (u.since m) v := by
  have apart : ∀ s ∈ (u.before m ++ empty).times, ∀ t ∈ (u.since m ++ v).times, s < t := by
    intro s hs t ht
    rw [append_empty] at hs
    have high : m ≤ t := (mem_times_append.mp ht).elim asc.le_of_mem_since (hv t)
    exact (lt_of_mem_before hs).trans_le high
  have parts := overwrite_append apart
  rwa [before_append_since, empty_append, overwrite_empty_right] at parts

theorem overwrite_again (u v : Samples) : overwrite u (overwrite u v) = overwrite u v := by
  ext1 <;> exact Mio.overwrite_again _ _

theorem absorbed_middle {u rest a v b : Samples} {m n : ℚ} (ha : ∀ t ∈ a.times, t < m)
    (mid : ∀ t ∈ (u ++ v).times, m ≤ t ∧ t < n) (hb : ∀ t ∈ (rest ++ b).times, n ≤ t)
    (le : m ≤ n) (same : overwrite (u ++ rest) (a ++ v ++ b) = a ++ v ++ b) :
    overwrite u v = v ∧ overwrite rest (a ++ v ++ b) = a ++ v ++ b := by
  have low : ∀ t ∈ (u ++ (a ++ v)).times, t < n := by
    intro t ht
    simp only [mem_times_append] at ht mid
    rcases ht with ht | ht | ht
    · exact (mid t (.inl ht)).2
    · exact (ha t ht).trans_le le
    · exact (mid t (.inr ht)).2
  have whole : overwrite (u ++ rest) (a ++ v ++ b) = overwrite u (a ++ v) ++ overwrite rest b :=
    overwrite_append fun s hs t ht => (low s hs).trans_le (hb t ht)
  have front : overwrite (empty ++ u) (a ++ v) = overwrite empty a ++ overwrite u v :=
    overwrite_append fun s hs t ht => (ha s (by simpa using hs)).trans_le (mid t ht).1
  rw [empty_append, overwrite_empty_left] at front
  rw [whole, front] at same
  have first : ∀ t ∈ (a ++ overwrite u v).times, t < n := by
    intro t ht
    rw [mem_times_append, mem_times_overwrite] at ht
    refine low t ?_
    simp only [mem_times_append]
    tauto
  have second : ∀ t ∈ (overwrite rest b).times, n ≤ t :=
    fun t ht => hb t (mem_times_append.mpr (mem_times_overwrite.mp ht))
  have old : ∀ t ∈ (a ++ v).times, t < n := fun t ht => low t (mem_times_append.mpr (.inr ht))
  have behind : ∀ t ∈ b.times, n ≤ t := fun t ht => hb t (mem_times_append.mpr (.inr ht))
  have left := congrArg (fun w => w.before n) same
  have right := congrArg (fun w => w.since n) same
  simp only [before_append first second, before_append old behind] at left
  simp only [since_append first second, since_append old behind] at right
  constructor
  · have here := congrArg (fun w => w.since m) left
    have new : ∀ t ∈ (overwrite u v).times, m ≤ t :=
      fun t ht => (mid t (mem_times_append.mpr (mem_times_overwrite.mp ht))).1
    have kept : ∀ t ∈ v.times, m ≤ t := fun t ht => (mid t (mem_times_append.mpr (.inr ht))).1
    simpa only [since_append ha new, since_append ha kept] using here
  · have past : overwrite (empty ++ rest) (a ++ v ++ b) =
        overwrite empty (a ++ v) ++ overwrite rest b :=
      overwrite_append fun s hs t ht => (old s (by simpa using hs)).trans_le (hb t ht)
    rw [empty_append, overwrite_empty_left, right] at past
    exact past

theorem at_overwrite {u v : Samples} (hu : u.Ascending) (hv : v.Ascending) (k : ℚ) :
    (overwrite u v).at_ k = overwrite (u.at_ k) (v.at_ k) := by
  ext1
  · exact filter_overwrite hu.1 hv.1 k
  · exact filter_overwrite hu.2 hv.2 k

theorem at_append (u v : Samples) (k : ℚ) : (u ++ v).at_ k = u.at_ k ++ v.at_ k := by
  ext1 <;> simp [at_]

theorem at_of_forall {u : Samples} {k : ℚ} (h : ∀ t ∈ u.times, t = k) : u.at_ k = u := by
  ext1
  · refine List.filter_eq_self.mpr fun s hs => decide_eq_true ?_
    exact h _ (mem_times.mpr (.inl ⟨s, hs, rfl⟩))
  · refine List.filter_eq_self.mpr fun s hs => decide_eq_true ?_
    exact h _ (mem_times.mpr (.inr ⟨s, hs, rfl⟩))

theorem at_of_not_mem {u : Samples} {k : ℚ} (h : k ∉ u.times) : u.at_ k = empty := by
  ext1
  · refine List.filter_eq_nil_iff.mpr fun s hs => ?_
    simpa using fun eq => h (mem_times.mpr (.inl ⟨s, hs, eq⟩))
  · refine List.filter_eq_nil_iff.mpr fun s hs => ?_
    simpa using fun eq => h (mem_times.mpr (.inr ⟨s, hs, eq⟩))

theorem at_of_one_time {u : Samples} (one : ∀ a ∈ u.times, ∀ b ∈ u.times, a = b) :
    ∃ k, u.at_ k = u := by
  cases h : u.times with
  | nil => exact ⟨0, at_of_forall (by simp [h])⟩
  | cons k rest =>
      refine ⟨k, at_of_forall fun t ht => one t ht k ?_⟩
      rw [h]
      exact List.mem_cons_self

theorem at_before {u : Samples} (h : u.Ascending) {k m : ℚ} (lt : k < m) :
    (u.before m).at_ k = u.at_ k := by
  have none : (u.since m).at_ k = empty :=
    at_of_not_mem fun mem => not_le.mpr lt (h.le_of_mem_since mem)
  conv_rhs => rw [← before_append_since u m, at_append, none, append_empty]

theorem at_since {u : Samples} {k m : ℚ} (le : m ≤ k) : (u.since m).at_ k = u.at_ k := by
  have none : (u.before m).at_ k = empty :=
    at_of_not_mem fun mem => not_lt.mpr le (lt_of_mem_before mem)
  conv_rhs => rw [← before_append_since u m, at_append, none, empty_append]

theorem size_mono {u v : Samples} (doubles : u.doubles.Sublist v.doubles)
    (strings : u.strings.Sublist v.strings) : u.size ≤ v.size := by
  have hd := doubles.length_le
  have hs := strings.length_le
  have ht : (Tile.text u.strings).length ≤ (Tile.text v.strings).length :=
    (strings.flatMap DataSample.value).length_le
  simp only [size, Tile.writeStringLength]
  omega

theorem size_at_le (u : Samples) (k : ℚ) : (u.at_ k).size ≤ u.size :=
  size_mono List.filter_sublist List.filter_sublist

theorem empty_size_le (u : Samples) : empty.size ≤ u.size :=
  size_mono (List.nil_sublist _) (List.nil_sublist _)

end Samples

namespace Tile

def samples (t : ExactTile) : Samples := ⟨t.doubleSamples, t.stringSamples⟩

theorem binaryLength_eq (t : ExactTile) : t.binaryLength = t.samples.size := rfl

end Tile

/-- The ranges after every sample of `u` has been added. -/
def DataRanges.cover (r : DataRanges ℚ) (u : Samples) : DataRanges ℚ :=
  { times := u.strings.foldl (fun r s => r.addPoint s.time)
      (u.doubles.foldl (fun r s => r.addPoint s.time) r.times)
    doubleSamples := u.doubles.foldl (fun r s => r.addPoint s.value) r.doubleSamples }

namespace Tile

/-- What the two overloads of `insert_samples` do to a tile. -/
def insert (t : ExactTile) (u : Samples) : ExactTile :=
  { header := t.header
    ranges := t.ranges.cover u
    doubleSamples := overwrite DataSample.time u.doubles t.doubleSamples
    stringSamples := overwrite DataSample.time u.strings t.stringSamples }

@[simp] theorem samples_new : Tile.new.samples = .empty := rfl

@[simp] theorem samples_insert (t : ExactTile) (u : Samples) :
    (t.insert u).samples = .overwrite u t.samples := rfl

@[simp] theorem header_insert (t : ExactTile) (u : Samples) : (t.insert u).header = t.header := rfl

theorem mem_times_insert {t : ExactTile} {u : Samples} {x : ℚ} :
    x ∈ (t.insert u).samples.times ↔ x ∈ u.times ∨ x ∈ t.samples.times := by
  rw [samples_insert, Samples.mem_times_overwrite]

theorem mem_weights_insert {t : ExactTile} {u : Samples} {w : ℚ}
    (h : w ∈ (t.insert u).samples.weights) : w ∈ u.weights ∨ w ∈ t.samples.weights :=
  Samples.mem_weights_overwrite h

def ofSamples (u : Samples) : ExactTile := Tile.new.insert u

@[simp] theorem samples_ofSamples (u : Samples) : (ofSamples u).samples = u := by
  rw [ofSamples, samples_insert, samples_new, Samples.overwrite_empty_right]

@[simp] theorem header_ofSamples (u : Samples) : (ofSamples u).header = Tile.new.header := rfl

end Tile

namespace Tile

theorem firstSampleTime_spec {t : ExactTile} (asc : t.samples.Ascending)
    (bound : ∀ x ∈ t.samples.times, x ≤ doubleMax) (some : t.samples.times ≠ []) :
    t.firstSampleTime ∈ t.samples.times ∧ ∀ x ∈ t.samples.times, t.firstSampleTime ≤ x := by
  obtain ⟨header, ranges, doubles, strings⟩ := t
  obtain ⟨ascD, ascS⟩ := asc
  cases doubles with
  | nil =>
      cases strings with
      | nil => exact (some rfl).elim
      | cons s strings =>
          have first := (List.pairwise_cons.mp ascS).1
          have top : s.time ≤ doubleMax := bound _ (by simp [samples, Samples.times])
          simp only [firstSampleTime, List.head?_nil, List.head?_cons, min_eq_right top]
          simpa [samples, Samples.times] using first
  | cons d doubles =>
      have firstD := (List.pairwise_cons.mp ascD).1
      have top : d.time ≤ doubleMax := bound _ (by simp [samples, Samples.times])
      cases strings with
      | nil =>
          simp only [firstSampleTime, List.head?_nil, List.head?_cons, min_eq_right top]
          simpa [samples, Samples.times] using firstD
      | cons s strings =>
          have firstS := (List.pairwise_cons.mp ascS).1
          simp only [firstSampleTime, List.head?_cons, min_eq_right top]
          constructor
          · rcases min_choice d.time s.time with eq | eq <;> rw [eq] <;> simp [samples, Samples.times]
          · intro x hx
            simp only [samples, Samples.times, List.map_cons, List.mem_append, List.mem_cons,
              List.mem_map] at hx
            rcases hx with (rfl | ⟨y, hy, rfl⟩) | (rfl | ⟨y, hy, rfl⟩)
            · exact min_le_left _ _
            · exact (min_le_left _ _).trans (firstD y hy)
            · exact min_le_right _ _
            · exact (min_le_right _ _).trans (firstS y hy)

theorem lastSampleTime_spec {t : ExactTile} (asc : t.samples.Ascending)
    (bound : ∀ x ∈ t.samples.times, -doubleMax ≤ x) (some : t.samples.times ≠ []) :
    t.lastSampleTime ∈ t.samples.times ∧ ∀ x ∈ t.samples.times, x ≤ t.lastSampleTime := by
  obtain ⟨header, ranges, doubles, strings⟩ := t
  obtain ⟨ascD, ascS⟩ := asc
  have last : ∀ {V : Type} {l : List (Sample V)} {z : Sample V},
      Mio.Ascending DataSample.time (l ++ [z]) → ∀ y ∈ l, y.time ≤ z.time :=
    fun h y hy => (List.pairwise_append.mp h).2.2 y hy _ (List.mem_singleton_self _)
  rcases List.eq_nil_or_concat doubles with rfl | ⟨initD, d, rfl⟩
  · rcases List.eq_nil_or_concat strings with rfl | ⟨initS, s, rfl⟩
    · exact (some rfl).elim
    · simp only [samples, List.concat_eq_append] at ascS bound ⊢
      have low : -doubleMax ≤ s.time := bound _ (by simp [Samples.times])
      simp only [lastSampleTime, List.getLast?_nil, List.getLast?_append, List.getLast?_singleton,
        Option.some_or, max_eq_right low]
      refine ⟨by simp [Samples.times], ?_⟩
      simpa [Samples.times, or_imp, forall_and] using last ascS
  · simp only [samples, List.concat_eq_append] at ascD ascS bound ⊢
    have low : -doubleMax ≤ d.time := bound _ (by simp [Samples.times])
    rcases List.eq_nil_or_concat strings with rfl | ⟨initS, s, rfl⟩
    · simp only [lastSampleTime, List.getLast?_nil, List.getLast?_append, List.getLast?_singleton,
        Option.some_or, max_eq_right low]
      refine ⟨by simp [Samples.times], ?_⟩
      simpa [Samples.times, or_imp, forall_and] using last ascD
    · simp only [List.concat_eq_append] at ascS ⊢
      simp only [lastSampleTime, List.getLast?_append, List.getLast?_singleton, Option.some_or,
        max_eq_right low]
      constructor
      · rcases max_choice d.time s.time with eq | eq <;> rw [eq] <;> simp [Samples.times]
      · intro x hx
        simp only [Samples.times, List.map_append, List.map_cons, List.map_nil, List.mem_append,
          List.mem_singleton, List.mem_map] at hx
        rcases hx with (⟨y, hy, rfl⟩ | rfl) | (⟨y, hy, rfl⟩ | rfl)
        · exact (last ascD y hy).trans (le_max_left _ _)
        · exact le_max_left _ _
        · exact (last ascS y hy).trans (le_max_right _ _)
        · exact le_max_right _ _

/-- The index chosen for the contents of an all-tile is the smallest cell around them. -/
theorem indexContaining_ends {ε : Type} {fuel : ℕ} {t : ExactTile} {r : TileIndex}
    (asc : t.samples.Ascending) (double : ∀ x ∈ t.samples.times, IsDouble x ∧ 0 ≤ x)
    (h : TileIndex.indexContaining fuel ⟨t.firstSampleTime, t.lastSampleTime⟩ =
      (.ret r : Outcome ε TileIndex)) :
    ∃ a ∈ t.samples.times, ∃ b ∈ t.samples.times, a < b ∧ (∀ x ∈ t.samples.times, a ≤ x ∧ x ≤ b) ∧
      Cell.Smallest r a b ∧ r.level ≤ TileIndex.topLevel ∧ -1074 < r.level := by
  have some : t.samples.times ≠ [] := by
    intro none
    have hd : t.doubleSamples = [] := by simpa [Samples.times, samples] using (List.append_eq_nil_iff.mp none).1
    have hs : t.stringSamples = [] := by simpa [Samples.times, samples] using (List.append_eq_nil_iff.mp none).2
    simp only [TileIndex.indexContaining, firstSampleTime, lastSampleTime, hd, hs, List.head?_nil,
      List.getLast?_nil] at h
    obtain ⟨_, lt, -⟩ := Outcome.bind_eq_ret.mp h
    have lt : doubleMax < -doubleMax := Outcome.assert_eq_ret.mp lt
    exact absurd (lt.trans (neg_lt_zero.mpr doubleMax_pos)) (not_lt.mpr doubleMax_pos.le)
  have nonneg := doubleMax_pos.le
  have first := firstSampleTime_spec asc (fun x hx => (double x hx).1.le_doubleMax) some
  have last := lastSampleTime_spec asc
    (fun x hx => (neg_nonpos.mpr nonneg).trans (double x hx).2) some
  obtain ⟨lt, least, high, low⟩ := TileIndex.indexContaining_ret (double _ first.1).1
    (double _ last.1).1 (.inl (double _ first.1).2) h
  exact ⟨_, first.1, _, last.1, lt, fun x hx => ⟨first.2 x hx, last.2 x hx⟩, least, high, low⟩

/-- Two different times give the index a first and a last one to look between. -/
theorem indexContaining_ends_done {ε : Type} {t : ExactTile} {x y : ℚ} (asc : t.samples.Ascending)
    (double : ∀ x ∈ t.samples.times, IsDouble x ∧ 0 ≤ x) (hx : x ∈ t.samples.times)
    (hy : y ∈ t.samples.times) (ne : x ≠ y) :
    ∃ r, Outcome.Reaches (fun fuel => (TileIndex.indexContaining fuel
      ⟨t.firstSampleTime, t.lastSampleTime⟩ : Outcome ε TileIndex)) r := by
  have some : t.samples.times ≠ [] := List.ne_nil_of_mem hx
  have first := firstSampleTime_spec asc (fun x hx => (double x hx).1.le_doubleMax) some
  have last := lastSampleTime_spec asc
    (fun x hx => (neg_nonpos.mpr doubleMax_pos.le).trans (double x hx).2) some
  have lt : t.firstSampleTime < t.lastSampleTime := by
    rcases lt_or_gt_of_ne ne with lt | gt
    · exact (first.2 x hx).trans_lt (lt.trans_le (last.2 y hy))
    · exact (first.2 y hy).trans_lt (gt.trans_le (last.2 x hx))
  obtain ⟨r, done⟩ := TileIndex.indexContaining_done (ε := ε) (double _ first.1).1
    (double _ last.1).1 (.inl (double _ first.1).2) lt
  exact ⟨r, 2099, done⟩

end Tile

/-- The template's value types: inserting is merging the vector as one of the two kinds. -/
class LawfulSampleKind (V : Type) [SampleKind V] extends LawfulSampleValue V where
  only : List (Sample V) → Samples
  insertSamples_eq : ∀ {ε : Type} (t : ExactTile) (batch : List (Sample V)),
    (SampleKind.insertSamples t batch : Outcome ε ExactTile) =
      Outcome.assert (Ascending DataSample.time batch) "begin[i-1].time <= begin[i].time" >>= fun _ =>
        .ret (t.insert (only batch))
  only_nil : only [] = .empty
  only_append : ∀ a b : List (Sample V), only (a ++ b) = only a ++ only b
  times_only : ∀ a : List (Sample V), (only a).times = a.map DataSample.time
  weights_only : ∀ a : List (Sample V), (only a).weights = a.map DataSample.weight
  ascending_only : ∀ a : List (Sample V), (only a).Ascending ↔ Ascending DataSample.time a

export LawfulSampleKind (only insertSamples_eq only_nil only_append times_only weights_only ascending_only)

instance : LawfulSampleKind ℚ where
  only data := ⟨data, []⟩
  insertSamples_eq t batch := by
    simp only [SampleKind.insertSamples, Tile.insertDoubleSamples, insertSamplesHelper,
      Outcome.assert]
    split <;> rfl
  only_nil := rfl
  only_append a b := rfl
  times_only a := by simp [Samples.times]
  weights_only a := by simp [Samples.weights]
  ascending_only a := ⟨fun h => h.1, fun h => ⟨h, .nil⟩⟩

instance : LawfulSampleKind Text where
  only data := ⟨[], data⟩
  insertSamples_eq t batch := by
    simp only [SampleKind.insertSamples, Tile.insertStringSamples, insertSamplesHelper,
      Outcome.assert]
    split <;> rfl
  only_nil := rfl
  only_append a b := rfl
  times_only a := by simp [Samples.times]
  weights_only a := by simp [Samples.weights]
  ascending_only a := ⟨fun h => h.2, fun h => ⟨.nil, h⟩⟩

theorem insertSamples_ret {ε V : Type} [SampleKind V] [LawfulSampleKind V] {t t' : ExactTile}
    {batch : List (Sample V)}
    (h : (SampleKind.insertSamples t batch : Outcome ε ExactTile) = .ret t') :
    t' = t.insert (only batch) := by
  rw [insertSamples_eq] at h
  obtain ⟨_, -, h⟩ := Outcome.bind_eq_ret.mp h
  cases h
  rfl

theorem insertSamples_done {ε V : Type} [SampleKind V] [LawfulSampleKind V] (t : ExactTile)
    {batch : List (Sample V)} (h : Ascending DataSample.time batch) :
    (SampleKind.insertSamples t batch : Outcome ε ExactTile) = .ret (t.insert (only batch)) := by
  rw [insertSamples_eq, Outcome.assert_of h]
  rfl

theorem insertSamples_silent {ε V : Type} [SampleKind V] [LawfulSampleKind V] (t : ExactTile)
    (batch : List (Sample V)) :
    Outcome.Silent (SampleKind.insertSamples t batch : Outcome ε ExactTile) := by
  rw [insertSamples_eq]
  exact .bind .assert fun _ => .ret _

theorem splitSamples_silent {ε : Type} (tile : ExactTile) (m : ℚ) :
    Outcome.Silent (splitSamples tile m : Outcome ε _) := by
  refine .bind (insertSamples_silent (V := ℚ) _ _) fun _ => ?_
  refine .bind (insertSamples_silent (V := ℚ) _ _) fun _ => ?_
  refine .bind (insertSamples_silent (V := Text) _ _) fun _ => ?_
  exact .bind (insertSamples_silent (V := Text) _ _) fun _ => .ret _

/-- `split_samples` cuts the contents at the split time into two fresh tiles. -/
theorem splitSamples_ret {ε : Type} {tile a b : ExactTile} {m : ℚ}
    (h : (splitSamples tile m : Outcome ε _) = .ret (a, b)) :
    a = .ofSamples (tile.samples.before m) ∧ b = .ofSamples (tile.samples.since m) := by
  obtain ⟨a₁, h₁, h⟩ := Outcome.bind_eq_ret.mp h
  obtain ⟨b₁, h₂, h⟩ := Outcome.bind_eq_ret.mp h
  obtain ⟨a₂, h₃, h⟩ := Outcome.bind_eq_ret.mp h
  obtain ⟨b₂, h₄, h⟩ := Outcome.bind_eq_ret.mp h
  cases h
  obtain rfl := insertSamples_ret (V := ℚ) h₁
  obtain rfl := insertSamples_ret (V := ℚ) h₂
  obtain rfl := insertSamples_ret (V := Text) h₃
  obtain rfl := insertSamples_ret (V := Text) h₄
  exact ⟨rfl, rfl⟩

theorem splitSamples_done {ε : Type} {tile : ExactTile} (h : tile.samples.Ascending) (m : ℚ) :
    (splitSamples tile m : Outcome ε _) =
      .ret (.ofSamples (tile.samples.before m), .ofSamples (tile.samples.since m)) := by
  have h₁ := (h.before m).1
  have h₂ := (h.since m).1
  have h₃ := (h.before m).2
  have h₄ := (h.since m).2
  simp only [Samples.before, Samples.since, Tile.samples] at h₁ h₂ h₃ h₄
  simp only [splitSamples, Tile.insertDoubleSamples, Tile.insertStringSamples,
    insertSamplesHelper, Outcome.assert_of h₁, Outcome.assert_of h₂, Outcome.assert_of h₃,
    Outcome.assert_of h₄]
  rfl

end Mio.Datastore
