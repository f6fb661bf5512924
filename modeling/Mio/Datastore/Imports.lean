import Mio.Datastore.Canonical

/-! A data set imported in pieces: whether `add_data` takes all of them, and that the store then does
not tell how the set was cut. -/
namespace Mio.Datastore

def Channel.addBatches (ch : Channel) (fuel : ℕ) : List Batch → ChannelM Unit
  | [] => return ()
  | b :: bs => do
      let _ ← ch.addData fuel b
      addBatches ch fuel bs

/-- What `add_data` needs to complete on a batch of new times, in terms of the samples alone. -/
structure Admits (ch : Channel) (old batch : Samples) : Prop where
  /-- While everything fits into one tile, that tile ends at the last double: a sample there needs
  that the samples in front of it make the all-tile split, around a cell with the last double in it. -/
  last : old.size ≤ ch.maxTileSize → (∀ t ∈ batch.times, t < doubleMax) ∨
    ch.maxTileSize < (Samples.overwrite (batch.before doubleMax) old).size ∧
      ∃ c, Around c (.overwrite (batch.before doubleMax) old) ∧ c.Has doubleMax
  /-- A root that has to move up is recognised below the new one. -/
  ancestor : ch.maxTileSize < old.size → ∀ root c, Around root old → Around c (.overwrite batch old) →
    root.level < c.level → c.isAncestorOf ch.wideShift root

/-- Each batch finds what the batches in front of it leave. -/
def AdmitsAll (ch : Channel) (bs : List Batch) : Prop :=
  ∀ front b back, bs = front ++ b :: back → Admits ch (history front) b.samples

theorem Admits.of_short {ch : Channel} {old batch : Samples} (short : old.size ≤ ch.maxTileSize)
    (low : ∀ t ∈ batch.times, t < doubleMax) : Admits ch old batch :=
  ⟨fun _ => .inl low, fun long => absurd short (not_le.mpr long)⟩

theorem admitsAll_nil (ch : Channel) : AdmitsAll ch [] := by
  intro front b back eq
  simp at eq

theorem admitsAll_append {ch : Channel} {bs : List Batch} {b : Batch} :
    AdmitsAll ch (bs ++ [b]) ↔ AdmitsAll ch bs ∧ Admits ch (history bs) b.samples := by
  constructor
  · intro h
    refine ⟨fun front x back eq => h front x (back ++ [b]) ?_, h bs b [] rfl⟩
    rw [eq, List.append_assoc, List.cons_append]
  · rintro ⟨admits, last⟩ front x back eq
    induction back using List.reverseRecOn with
    | nil =>
        obtain ⟨rfl, same⟩ := List.append_inj' eq rfl
        cases same
        exact last
    | append_singleton back y _ =>
        rw [← List.cons_append, ← List.append_assoc] at eq
        exact admits front x back (List.append_inj' eq rfl).1

theorem AdmitsAll.pair {ch : Channel} {b c : Batch} (first : Admits ch .empty b.samples)
    (second : Admits ch (history [b]) c.samples) : AdmitsAll ch [b, c] := by
  have one : AdmitsAll ch ([] ++ [b]) := admitsAll_append.mpr ⟨admitsAll_nil ch, first⟩
  exact admitsAll_append.mpr ⟨one, second⟩

namespace Runs

variable {ch : Channel} {bs : List Batch} {kvs : Kvs} {b : Batch}

/-- While no sample is replaced, it does not matter what the store looks like. -/
theorem accepts_iff (run : Runs ch bs kvs) (separate : Separate bs)
    (room : Samples.empty.size ≤ ch.maxTileSize)
    (groups : ∀ k, ((Samples.overwrite b.samples (history bs)).at_ k).size ≤ ch.maxTileSize) :
    Accepts ch kvs (history bs) b.samples ↔ Admits ch (history bs) b.samples := by
  have all_iff : (∀ info, kvs.metainfo = some (some info) → info.nonnegativeRootTileIndex = .nonnegativeAll) ↔
      (history bs).size ≤ ch.maxTileSize := by
    rcases run.canonical separate with ⟨rfl, none⟩ | ⟨info, tree, stored, canonical⟩
    · rw [none]
      refine iff_of_true (fun info has => ?_) room
      cases has
    · constructor
      · intro all
        rcases canonical.root with ⟨-, short⟩ | ⟨ne, -, -⟩
        · exact short
        · exact (ne (all info stored.metainfo)).elim
      · intro short info' has
        cases has.symm.trans stored.metainfo
        rcases canonical.root with ⟨all, -⟩ | ⟨-, long, -⟩
        · exact all
        · exact absurd short (not_le.mpr long)
  constructor
  · intro accepts
    refine ⟨fun short => accepts.last (all_iff.mpr short), fun long root c around around' lower => ?_⟩
    rcases run.canonical separate with ⟨rfl, none⟩ | ⟨info, tree, stored, canonical⟩
    · rw [none] at long
      exact absurd room (not_le.mpr long)
    rcases canonical.root with ⟨-, short⟩ | ⟨ne, -, here⟩
    · exact absurd short (not_le.mpr long)
    · obtain rfl := here.unique around
      exact accepts.ancestor info stored.metainfo ne c around' lower
  · intro admits
    refine ⟨groups, fun all => admits.last (all_iff.mp all), fun info has ne c around lower => ?_⟩
    rcases run.canonical separate with ⟨rfl, -⟩ | ⟨info', tree, stored, canonical⟩
    · cases has
    cases has.symm.trans stored.metainfo
    rcases canonical.root with ⟨all, -⟩ | ⟨-, long, here⟩
    · exact (ne all).elim
    · exact admits.ancestor long _ c here around lower

end Runs

namespace Separate

variable {bs : List Batch} {b : Batch}

theorem history_perm (h : Separate bs) :
    (history bs).doubles.Perm (bs.flatMap fun b => b.samples.doubles) := by
  induction bs using List.reverseRecOn with
  | nil => exact .refl _
  | append_singleton bs b ih =>
      have apart : ∀ x ∈ b.samples.doubles, ∀ y ∈ (history bs).doubles, x.time ≠ y.time := by
        intro x hx y hy eq
        refine h.new_times x.time (Samples.mem_times.mpr (.inl ⟨x, hx, rfl⟩)) ?_
        rw [eq]
        exact Samples.mem_times.mpr (.inl ⟨y, hy, rfl⟩)
      have merged : (history (bs ++ [b])).doubles =
          overwrite DataSample.time b.samples.doubles (history bs).doubles := by
        rw [history_add]
        rfl
      rw [merged, List.flatMap_append, List.flatMap_singleton]
      exact (overwrite_perm apart).trans ((List.perm_append_comm).trans ((ih h.init).append_right _))

end Separate

theorem history_ascending {bs : List Batch} (asc : ∀ b ∈ bs, b.samples.Ascending) :
    (history bs).Ascending := by
  induction bs using List.reverseRecOn with
  | nil => exact Samples.ascending_empty
  | append_singleton bs b ih =>
      rw [history_add]
      refine (asc b (List.mem_append_right _ (List.mem_singleton_self b))).overwrite ?_
      exact ih fun x hx => asc x (List.mem_append_left _ hx)

/-- Sorted lists with the same elements at distinct keys are the same list. -/
theorem Ascending.eq_of_perm {α κ : Type} [LinearOrder κ] {key : α → κ} {l l' : List α}
    (h : Ascending key l) (h' : Ascending key l') (perm : l.Perm l') (distinct : (l.map key).Nodup) :
    l = l' := by
  refine List.Perm.eq_of_pairwise ?_ h h' perm
  intro a b ha hb ab ba
  exact List.inj_on_of_nodup_map distinct ha (perm.mem_iff.mpr hb) (le_antisymm ab ba)

/-- Sorted batches of double samples, all at different finite times that are not negative. -/
structure Importable (bs : List Batch) : Prop where
  doubles : ∀ b ∈ bs, b.samples.strings = []
  values : ∀ b ∈ bs, b.FiniteValues
  finite : ∀ b ∈ bs, b.FiniteTimes
  sorted : ∀ b ∈ bs, b.samples.Ascending
  nonneg : ∀ b ∈ bs, ∀ t ∈ b.samples.times, 0 ≤ t
  distinct : ((bs.flatMap fun b => b.samples.doubles).map DataSample.time).Nodup

namespace Importable

variable {bs cs : List Batch} {b : Batch}

theorem front (h : Importable (bs ++ cs)) : Importable bs := by
  have distinct := h.distinct
  rw [List.flatMap_append, List.map_append] at distinct
  exact ⟨fun x hx => h.doubles x (List.mem_append_left _ hx),
    fun x hx => h.values x (List.mem_append_left _ hx),
    fun x hx => h.finite x (List.mem_append_left _ hx),
    fun x hx => h.sorted x (List.mem_append_left _ hx),
    fun x hx => h.nonneg x (List.mem_append_left _ hx), (List.nodup_append.mp distinct).1⟩

theorem mem_times {b : Batch} (plain : b.samples.strings = []) {t : ℚ} :
    t ∈ b.samples.times ↔ ∃ s ∈ b.samples.doubles, s.time = t := by
  rw [Samples.mem_times, plain]
  simp

theorem separate (h : Importable bs) : Separate bs := by
  refine ⟨h.doubles, h.values, ?_⟩
  have doubles := h.doubles
  have distinct := h.distinct
  clear h
  induction bs with
  | nil => exact .nil
  | cons b bs ih =>
      rw [List.flatMap_cons, List.map_append, List.nodup_append] at distinct
      obtain ⟨-, rest, apart⟩ := distinct
      refine List.pairwise_cons.mpr ⟨fun c hc t ht mem => ?_,
        ih (fun x hx => doubles x (List.mem_cons_of_mem _ hx)) rest⟩
      obtain ⟨x, hx, rfl⟩ := (mem_times (doubles c (List.mem_cons_of_mem _ hc))).mp ht
      obtain ⟨y, hy, eq⟩ := (mem_times (doubles b List.mem_cons_self)).mp mem
      refine apart y.time (List.mem_map_of_mem hy) x.time (List.mem_map_of_mem ?_) eq
      exact List.mem_flatMap.mpr ⟨c, hc, hx⟩

theorem groups (h : Importable bs) {limit : ℕ} (room : ∀ s, (Samples.mk [s] []).size ≤ limit) (k : ℚ) :
    ((history bs).at_ k).size ≤ limit := by
  have distinct : ((history bs).doubles.map DataSample.time).Nodup :=
    (h.separate.history_perm.map _).nodup_iff.mpr h.distinct
  have one : ((history bs).doubles.filter (·.time = k)).length ≤ 1 := by
    have part : (((history bs).doubles.filter (·.time = k)).map DataSample.time).Nodup :=
      distinct.sublist (List.filter_sublist.map _)
    have same : ((history bs).doubles.filter (·.time = k)).map DataSample.time =
        List.replicate ((history bs).doubles.filter (·.time = k)).length k := by
      apply List.eq_replicate_iff.mpr
      refine ⟨List.length_map _, fun t ht => ?_⟩
      obtain ⟨s, hs, rfl⟩ := List.mem_map.mp ht
      simpa using (List.mem_filter.mp hs).2
    rw [same] at part
    exact List.nodup_replicate.mp part
  have none : ((history bs).at_ k).strings = [] := by
    rw [Samples.at_, h.separate.history_strings]
    rfl
  have fits := room ⟨0, 0, 0, 0⟩
  simp only [Samples.size, none, List.length_cons, List.length_nil] at fits ⊢
  simp only [Samples.at_]
  omega

end Importable

namespace Runs

variable {ch : Channel} {bs cs : List Batch} {kvs kvs' : Kvs} {b : Batch}

theorem of_addBatches {fuel : ℕ} (run : Runs ch bs kvs) (importable : Importable (bs ++ cs))
    (room : ∀ s, (Samples.mk [s] []).size ≤ ch.maxTileSize) (admits : AdmitsAll ch bs)
    (h : ch.addBatches fuel cs kvs = .ret ((), kvs')) :
    Runs ch (bs ++ cs) kvs' ∧ AdmitsAll ch (bs ++ cs) := by
  induction cs generalizing bs kvs with
  | nil =>
      cases h
      rw [List.append_nil]
      exact ⟨run, admits⟩
  | cons b cs ih =>
      obtain ⟨r, kvs₁, call, h⟩ := Exec.bind_eq_ret.mp h
      rw [List.append_cons] at importable ⊢
      have next := importable.front
      have mem : b ∈ bs ++ [b] := List.mem_append_right _ (List.mem_singleton_self b)
      have accepts := run.accepts_of_ret (Samples.empty_size_le _ |>.trans (room ⟨0, 0, 0, 0⟩))
        (next.finite b mem) (next.sorted b mem) (next.nonneg b mem) call
      have here := (run.accepts_iff next.front.separate (Samples.empty_size_le _ |>.trans
        (room ⟨0, 0, 0, 0⟩)) accepts.groups).mp accepts
      exact ih (.add run (next.finite b mem) call) importable (admitsAll_append.mpr ⟨admits, here⟩) h

theorem addBatches_reaches (run : Runs ch bs kvs) (quiet : ch.Quiet)
    (importable : Importable (bs ++ cs)) (room : ∀ s, (Samples.mk [s] []).size ≤ ch.maxTileSize)
    (weights : ∀ x ∈ bs ++ cs, ∀ w ∈ x.samples.weights, 0 < w) (admits : AdmitsAll ch (bs ++ cs)) :
    ∃ kvs', Exec.Reaches (fun fuel => ch.addBatches fuel cs) kvs () kvs' := by
  induction cs generalizing bs kvs with
  | nil => exact ⟨kvs, .of_ret fun _ => rfl⟩
  | cons b cs ih =>
      rw [List.append_cons] at importable weights admits
      have next := importable.front
      have mem : b ∈ bs ++ [b] := List.mem_append_right _ (List.mem_singleton_self b)
      have here : Admits ch (history bs) b.samples := admits bs b cs (List.append_cons bs b cs).symm
      have groups := next.groups room
      rw [history_add] at groups
      have accepts := (run.accepts_iff next.front.separate (Samples.empty_size_le _ |>.trans
        (room ⟨0, 0, 0, 0⟩)) groups).mpr here
      obtain ⟨r, kvs₁, first⟩ := run.completes quiet
        (fun x hx => weights x (List.mem_append_left _ hx)) (next.finite b mem)
        (next.sorted b mem) (next.nonneg b mem) accepts
      obtain ⟨fuel, ret⟩ := Outcome.Reaches.returns first
      obtain ⟨kvs', others⟩ := ih (.add run (next.finite b mem) ret) importable weights admits
      exact ⟨kvs', .bind first others⟩

end Runs

theorem Samples.size_single (s : Sample ℚ) : (Samples.mk [s] []).size = 76 := by
  simp [Samples.size, Tile.text, Tile.writeStringLength]

/-- Finite double samples at different times that are not negative. -/
structure DataSet (data : List (Sample ℚ)) : Prop where
  times : ∀ s ∈ data, IsDouble s.time ∧ 0 ≤ s.time
  values : ∀ s ∈ data, IsDouble s.value
  distinct : (data.map DataSample.time).Nodup

theorem DataSet.perm {data data' : List (Sample ℚ)} (h : DataSet data) (same : data.Perm data') : DataSet data' :=
  ⟨fun s hs => h.times s (same.mem_iff.mpr hs), fun s hs => h.values s (same.mem_iff.mpr hs),
    (same.map _).nodup_iff.mp h.distinct⟩

theorem flatMap_doubles (cut : List (List (Sample ℚ))) :
    (cut.map Batch.doubles).flatMap (fun b => b.samples.doubles) = cut.flatten := by
  rw [List.flatMap_map]
  exact List.flatMap_id

theorem DataSet.importable {cut : List (List (Sample ℚ))} (h : DataSet cut.flatten)
    (sorted : ∀ b ∈ cut, Ascending DataSample.time b) : Importable (cut.map Batch.doubles) := by
  have each : ∀ {P : Batch → Prop}, (∀ d ∈ cut, P (.doubles d)) → ∀ b ∈ cut.map Batch.doubles, P b := by
    intro P all b hb
    obtain ⟨d, hd, rfl⟩ := List.mem_map.mp hb
    exact all d hd
  refine ⟨each fun d _ => rfl, each fun d hd v hv => ?_, each fun d hd t ht => ?_,
    each fun d hd => ⟨sorted d hd, .nil⟩, each fun d hd t ht => ?_, ?_⟩
  · obtain ⟨s, hs, rfl⟩ := Samples.mem_values.mp hv
    exact h.values s (List.mem_flatten.mpr ⟨d, hd, hs⟩)
  · obtain ⟨s, hs, rfl⟩ := (Importable.mem_times rfl).mp ht
    exact (h.times s (List.mem_flatten.mpr ⟨d, hd, hs⟩)).1
  · obtain ⟨s, hs, rfl⟩ := (Importable.mem_times rfl).mp ht
    exact (h.times s (List.mem_flatten.mpr ⟨d, hd, hs⟩)).2
  · rw [flatMap_doubles]
    exact h.distinct

theorem DataSet.history_eq {cut cut' : List (List (Sample ℚ))} (h : DataSet cut.flatten)
    (same : cut.flatten.Perm cut'.flatten) (sorted : ∀ b ∈ cut, Ascending DataSample.time b)
    (sorted' : ∀ b ∈ cut', Ascending DataSample.time b) :
    history (cut.map .doubles) = history (cut'.map .doubles) := by
  have left := h.importable sorted
  have right := (h.perm same).importable sorted'
  have perm : (history (cut.map .doubles)).doubles.Perm (history (cut'.map .doubles)).doubles := by
    refine left.separate.history_perm.trans (.trans ?_ right.separate.history_perm.symm)
    rw [flatMap_doubles, flatMap_doubles]
    exact same
  have distinct := (left.separate.history_perm.map DataSample.time).nodup_iff.mpr left.distinct
  ext1
  · exact Ascending.eq_of_perm (history_ascending left.sorted).1 (history_ascending right.sorted).1
      perm distinct
  · rw [left.separate.history_strings, right.separate.history_strings]

namespace Channel

variable {ch : Channel} {cut cut' : List (List (Sample ℚ))}

theorem weights_of_cut (weights : ∀ s ∈ cut.flatten, 0 < s.weight) :
    ∀ b ∈ cut.map Batch.doubles, ∀ w ∈ b.samples.weights, 0 < w := by
  intro b hb w hw
  obtain ⟨d, hd, rfl⟩ := List.mem_map.mp hb
  rcases Samples.mem_weights.mp hw with ⟨s, hs, rfl⟩ | ⟨s, hs, rfl⟩
  · exact weights s (List.mem_flatten.mpr ⟨d, hd, hs⟩)
  · cases hs

/-- Both ways of importing the data end with the same store when all weights are positive and every
batch of either finds a channel that takes it. But for the weights this is needed too: a weight that is
not positive only matters to a combination. -/
theorem imports_agree_when (quiet : ch.Quiet) (room : ∀ s, (Samples.mk [s] []).size ≤ ch.maxTileSize)
    (same : cut.flatten.Perm cut'.flatten) (data : DataSet cut.flatten)
    (sorted : ∀ b ∈ cut, Ascending DataSample.time b) (sorted' : ∀ b ∈ cut', Ascending DataSample.time b) :
    ((∀ s ∈ cut.flatten, 0 < s.weight) ∧ AdmitsAll ch (cut.map .doubles) ∧
          AdmitsAll ch (cut'.map .doubles) →
        ∃ kvs, Exec.Reaches (fun fuel => ch.addBatches fuel (cut.map .doubles)) .absent () kvs ∧
          Exec.Reaches (fun fuel => ch.addBatches fuel (cut'.map .doubles)) .absent () kvs) ∧
      ((∃ kvs, Exec.Reaches (fun fuel => ch.addBatches fuel (cut.map .doubles)) .absent () kvs ∧
          Exec.Reaches (fun fuel => ch.addBatches fuel (cut'.map .doubles)) .absent () kvs) →
        AdmitsAll ch (cut.map .doubles) ∧ AdmitsAll ch (cut'.map .doubles)) := by
  have left := data.importable sorted
  have right := (data.perm same).importable sorted'
  have start : Runs ch [] .absent := .absent
  have none := admitsAll_nil ch
  constructor
  · rintro ⟨weights, admits, admits'⟩
    have weights' : ∀ s ∈ cut'.flatten, 0 < s.weight := fun s hs => weights s (same.mem_iff.mpr hs)
    obtain ⟨kvs, ends⟩ := start.addBatches_reaches quiet left room (weights_of_cut weights) admits
    obtain ⟨kvs', ends'⟩ := start.addBatches_reaches quiet right room (weights_of_cut weights') admits'
    obtain ⟨fuel, ret⟩ := Outcome.Reaches.returns ends
    obtain ⟨fuel', ret'⟩ := Outcome.Reaches.returns ends'
    have run := (start.of_addBatches left room none ret).1
    have run' := (start.of_addBatches right room none ret').1
    obtain rfl := run.same_of_history run' left.separate right.separate (data.history_eq same sorted sorted')
    exact ⟨kvs, ends, ends'⟩
  · rintro ⟨kvs, ends, ends'⟩
    obtain ⟨fuel, ret⟩ := Outcome.Reaches.returns ends
    obtain ⟨fuel', ret'⟩ := Outcome.Reaches.returns ends'
    exact ⟨(start.of_addBatches left room none ret).2, (start.of_addBatches right room none ret').2⟩

/-- Two samples go in either way round, and the tile that held the first is split for the second. -/
theorem imports_agree_when_pair :
    ∃ kvs, Exec.Reaches (fun fuel => Channel.narrow.addBatches fuel
        ([[⟨1, 1, 1, 0⟩], [⟨2, 1, 1, 0⟩]].map .doubles)) .absent () kvs ∧
      Exec.Reaches (fun fuel => Channel.narrow.addBatches fuel
        ([[⟨2, 1, 1, 0⟩], [⟨1, 1, 1, 0⟩]].map .doubles)) .absent () kvs := by
  have one : IsDouble 1 := by exact_mod_cast IsDouble.of_nat (n := 1) (by norm_num)
  have two : IsDouble 2 := by exact_mod_cast IsDouble.of_nat (n := 2) (by norm_num)
  have data : DataSet [⟨1, 1, 1, 0⟩, ⟨2, 1, 1, 0⟩] := by
    refine ⟨?_, ?_, by decide⟩
    · simp [one, two]
    · simp [one]
  have low : ∀ n : ℕ, n < 2 ^ 53 - 1 →
      ∀ t ∈ (Batch.doubles [⟨n, 1, 1, 0⟩]).samples.times, t < doubleMax := by
    intro n small t ht
    obtain ⟨s, hs, rfl⟩ := (Importable.mem_times rfl).mp ht
    rw [List.mem_singleton.mp hs]
    exact nat_lt_doubleMax small
  have first := low 1 (by norm_num)
  have second := low 2 (by norm_num)
  norm_num at first second
  have room : ∀ s, (Samples.mk [s] []).size ≤ Channel.narrow.maxTileSize :=
    fun s => (Samples.size_single s).trans_le (by decide)
  have sorted : ∀ n m : ℚ, ∀ b ∈ [[(⟨n, 1, 1, 0⟩ : Sample ℚ)], [⟨m, 1, 1, 0⟩]],
      Ascending DataSample.time b := by
    intro n m b hb
    simp only [List.mem_cons, List.not_mem_nil, or_false] at hb
    rcases hb with rfl | rfl <;> exact List.pairwise_singleton _ _
  have same : ([[⟨1, 1, 1, 0⟩], [⟨2, 1, 1, 0⟩]] : List (List (Sample ℚ))).flatten.Perm
      [[⟨2, 1, 1, 0⟩], [⟨1, 1, 1, 0⟩]].flatten := List.Perm.swap _ _ _
  refine (imports_agree_when (fun _ _ => rfl) room same data (sorted 1 2) (sorted 2 1)).1
    ⟨by simp, ?_, ?_⟩
  · exact .pair (.of_short (by decide) first) (.of_short (by decide) second)
  · exact .pair (.of_short (by decide) second) (.of_short (by decide) first)

/-- A sample at the last double goes into no all-tile, so that the first call does not end. -/
theorem last_double_never_imported :
    DataSet [⟨doubleMax, 0, 1, 0⟩] ∧ (∀ s, (Samples.mk [s] []).size ≤ ({} : Channel).maxTileSize) ∧
      ¬ ∃ kvs, Exec.Reaches (fun fuel => ({} : Channel).addBatches fuel
        ([[⟨doubleMax, 0, 1, 0⟩]].map .doubles)) .absent () kvs := by
  have zero : IsDouble 0 := by exact_mod_cast IsDouble.of_nat (n := 0) (by norm_num)
  have data : DataSet [⟨doubleMax, 0, 1, 0⟩] := by
    refine ⟨?_, ?_, List.nodup_singleton _⟩
    · simp [IsDouble.last, doubleMax_pos.le]
    · simp [zero]
  have room : ∀ s, (Samples.mk [s] []).size ≤ ({} : Channel).maxTileSize :=
    fun s => (Samples.size_single s).trans_le (by decide)
  refine ⟨data, room, ?_⟩
  rintro ⟨kvs, ends⟩
  obtain ⟨fuel, ret⟩ := Outcome.Reaches.returns ends
  have start : Runs {} [] .absent := .absent
  have importable : Importable ([[⟨doubleMax, 0, 1, 0⟩]].map .doubles) :=
    DataSet.importable data (by simp [Ascending])
  have admits := (start.of_addBatches importable room (admitsAll_nil _) ret).2
  have mem : doubleMax ∈ (Batch.doubles [⟨doubleMax, 0, 1, 0⟩]).samples.times :=
    (Importable.mem_times rfl).mpr ⟨_, List.mem_singleton_self _, rfl⟩
  have only : ∀ t ∈ (Batch.doubles [⟨doubleMax, 0, 1, 0⟩]).samples.times, doubleMax ≤ t := by
    intro t ht
    obtain ⟨s, hs, rfl⟩ := (Importable.mem_times rfl).mp ht
    rw [List.mem_singleton.mp hs]
  rcases (admits [] _ [] rfl).last (by decide) with low | ⟨long, -⟩
  · exact lt_irrefl _ (low doubleMax mem)
  · have nothing := Samples.before_append (u := .empty) (by simp) only
    rw [Samples.empty_append] at nothing
    rw [nothing] at long
    exact absurd long (by decide)

end Channel

end Mio.Datastore
