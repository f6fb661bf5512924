import Mathlib.Data.List.Nodup
import Mathlib.Tactic.Common

/-! Lists of entries with keys, updated entry by entry. -/
namespace Mio

variable {α β κ : Type} [DecidableEq κ]

/-- The first entry of a key changed, if there is one. -/
def modifyFirst (key : α → κ) (k : κ) (f : α → α) : List α → Option (List α)
  | [] => none
  | a :: as => if key a = k then some (f a :: as) else (modifyFirst key k f as).map (a :: ·)

/-- Every entry takes the updates of its key, in order. -/
def absorb (key : α → κ) (keyOf : β → κ) (f : α → β → α) (as : List α) (updates : List β) : List α :=
  as.map fun a => (updates.filter fun b => keyOf b = key a).foldl f a

section
variable {key : α → κ} {k : κ} {f : α → α}

theorem modifyFirst_of_notMem {as : List α} (missing : k ∉ as.map key) : modifyFirst key k f as = none := by
  induction as with
  | nil => rfl
  | cons a as ih =>
      rw [List.map_cons, List.mem_cons, not_or] at missing
      rw [modifyFirst, if_neg (Ne.symm missing.1), ih missing.2]
      rfl

theorem modifyFirst_isSome {as : List α} (mem : k ∈ as.map key) :
    ∃ bs, modifyFirst key k f as = some bs := by
  induction as with
  | nil => cases mem
  | cons a as ih =>
      rw [modifyFirst]
      by_cases here : key a = k
      · exact ⟨_, if_pos here⟩
      · rw [List.map_cons] at mem
        obtain ⟨bs, rest⟩ := ih ((List.mem_cons.mp mem).resolve_left (Ne.symm here))
        rw [if_neg here, rest]
        exact ⟨_, rfl⟩

theorem modifyFirst_length {as bs : List α} (changed : modifyFirst key k f as = some bs) :
    bs.length = as.length := by
  induction as generalizing bs with
  | nil => cases changed
  | cons a as ih =>
      rw [modifyFirst] at changed
      split at changed
      · cases changed
        rfl
      · obtain ⟨cs, rest, rfl⟩ := Option.map_eq_some_iff.mp changed
        exact congrArg (· + 1) (ih rest)

theorem modifyFirst_keys (keeps : ∀ a, key a = k → key (f a) = k) {as bs : List α}
    (changed : modifyFirst key k f as = some bs) : bs.map key = as.map key := by
  induction as generalizing bs with
  | nil => cases changed
  | cons a as ih =>
      rw [modifyFirst] at changed
      split at changed
      · next here =>
          cases changed
          rw [List.map_cons, List.map_cons, keeps a here, here]
      · obtain ⟨cs, rest, rfl⟩ := Option.map_eq_some_iff.mp changed
        rw [List.map_cons, List.map_cons, ih rest]

theorem modifyFirst_append_of_notMem {as bs : List α} (missing : k ∉ as.map key) :
    modifyFirst key k f (as ++ bs) = (modifyFirst key k f bs).map (as ++ ·) := by
  induction as with
  | nil => exact (congrFun Option.map_id _).symm
  | cons a as ih =>
      rw [List.map_cons, List.mem_cons, not_or] at missing
      rw [List.cons_append, modifyFirst, if_neg (Ne.symm missing.1), ih missing.2, Option.map_map]
      rfl

/-- Where keys are distinct, all entries of a key are the first one. -/
theorem modifyFirst_append {as bs : List α} (distinct : (as.map key).Nodup) (mem : k ∈ as.map key) :
    modifyFirst key k f (as ++ bs) = some (as.map (fun a => if key a = k then f a else a) ++ bs) := by
  induction as with
  | nil => cases mem
  | cons a as ih =>
      rw [List.map_cons, List.nodup_cons] at distinct
      rw [List.cons_append, modifyFirst, List.map_cons, List.cons_append]
      by_cases here : key a = k
      · have rest : (as.map fun a => if key a = k then f a else a) = as.map id :=
          List.map_congr_left fun b mem => if_neg fun same : key b = k =>
            distinct.1 (here.trans same.symm ▸ List.mem_map_of_mem mem)
        rw [if_pos here, if_pos here, rest, List.map_id]
      · rw [List.map_cons] at mem
        rw [if_neg here, if_neg here,
          ih distinct.2 ((List.mem_cons.mp mem).resolve_left (Ne.symm here))]
        rfl

end

section
variable {key : α → κ} {keyOf : β → κ} {f : α → β → α}

@[simp] theorem absorb_nil (as : List α) : absorb key keyOf f as [] = as := List.map_id as

theorem absorb_singleton (as : List α) (b : β) :
    absorb key keyOf f as [b] = as.map fun a => if key a = keyOf b then f a b else a := by
  refine List.map_congr_left fun a _ => ?_
  by_cases same : key a = keyOf b
  · simp [same]
  · simp [same, Ne.symm same]

omit [DecidableEq κ] in
theorem key_foldl (keeps : ∀ a b, keyOf b = key a → key (f a b) = key a) {a : α} {updates : List β}
    (same : ∀ b ∈ updates, keyOf b = key a) : key (updates.foldl f a) = key a := by
  induction updates generalizing a with
  | nil => rfl
  | cons b bs ih =>
      obtain ⟨first, rest⟩ := List.forall_mem_cons.mp same
      have kept := keeps a b first
      rw [List.foldl_cons, ih (fun c mem => (rest c mem).trans kept.symm), kept]

theorem key_foldl_filter (keeps : ∀ a b, keyOf b = key a → key (f a b) = key a) (a : α)
    (updates : List β) : key ((updates.filter fun b => keyOf b = key a).foldl f a) = key a :=
  key_foldl keeps fun _ mem => of_decide_eq_true (List.mem_filter.mp mem).2

theorem absorb_keys (keeps : ∀ a b, keyOf b = key a → key (f a b) = key a) (as : List α)
    (updates : List β) : (absorb key keyOf f as updates).map key = as.map key := by
  rw [absorb, List.map_map]
  exact List.map_congr_left fun a _ => key_foldl_filter keeps a updates

theorem absorb_cons (keeps : ∀ a b, keyOf b = key a → key (f a b) = key a) (as : List α) (b : β)
    (updates : List β) :
    absorb key keyOf f as (b :: updates) = absorb key keyOf f (absorb key keyOf f as [b]) updates := by
  rw [absorb_singleton, absorb, absorb, List.map_map]
  refine List.map_congr_left fun a _ => ?_
  by_cases same : keyOf b = key a
  · simp [same, keeps a b same]
  · simp [same, Ne.symm same]

theorem absorb_of_notMem {as : List α} {b : β} (missing : keyOf b ∉ as.map key) :
    absorb key keyOf f as [b] = as := by
  have still : (as.map fun a => if key a = keyOf b then f a b else a) = as.map id :=
    List.map_congr_left fun a mem => if_neg fun same : key a = keyOf b =>
      missing (same ▸ List.mem_map_of_mem mem)
  rw [absorb_singleton, still, List.map_id]

end

/-- The keys that are not known, each once, in the order in which they come up. -/
def fresh (known : List κ) : List κ → List κ
  | [] => []
  | k :: ks => if k ∈ known then fresh known ks else k :: fresh (k :: known) ks

/-- An entry updated, or a new one behind the others. -/
def upsert (key : α → κ) (keyOf : β → κ) (f : α → β → α) (blank : α) (as : List α) (b : β) : List α :=
  (modifyFirst key (keyOf b) (f · b) as).getD (as ++ [f blank b])

/-- All entries with the updates of their keys, and then an entry for each new key. -/
def upserts (key : α → κ) (keyOf : β → κ) (f : α → β → α) (blank : α) (as : List α)
    (updates : List β) : List α :=
  absorb key keyOf f as updates ++
    (fresh (as.map key) (updates.map keyOf)).map fun k =>
      (updates.filter fun b => keyOf b = k).foldl f blank

section
variable {known : List κ}

theorem fresh_congr {other : List κ} (same : ∀ k, k ∈ known ↔ k ∈ other) (ks : List κ) :
    fresh known ks = fresh other ks := by
  induction ks generalizing known other with
  | nil => rfl
  | cons k ks ih =>
      have more : ∀ k', k' ∈ k :: known ↔ k' ∈ k :: other := fun k' => by
        rw [List.mem_cons, List.mem_cons, same]
      rw [fresh, fresh, ih same, ih more]
      exact if_congr (same k) rfl rfl

theorem mem_fresh {k : κ} {ks : List κ} : k ∈ fresh known ks ↔ k ∈ ks ∧ k ∉ known := by
  induction ks generalizing known with
  | nil => simp [fresh]
  | cons k' ks ih =>
      rw [fresh]
      by_cases old : k' ∈ known
      · rw [if_pos old, ih, List.mem_cons]
        constructor
        · exact fun new => ⟨.inr new.1, new.2⟩
        · rintro ⟨rfl | mem, new⟩
          · exact (new old).elim
          · exact ⟨mem, new⟩
      · rw [if_neg old, List.mem_cons, ih, List.mem_cons, List.mem_cons, not_or]
        constructor
        · rintro (rfl | ⟨mem, -, new⟩)
          · exact ⟨.inl rfl, old⟩
          · exact ⟨.inr mem, new⟩
        · rintro ⟨rfl | mem, new⟩
          · exact .inl rfl
          · by_cases here : k = k'
            · exact .inl here
            · exact .inr ⟨mem, here, new⟩

theorem nodup_fresh (known ks : List κ) : (fresh known ks).Nodup := by
  induction ks generalizing known with
  | nil => exact List.nodup_nil
  | cons k ks ih =>
      rw [fresh]
      split
      · exact ih known
      · exact List.nodup_cons.mpr ⟨fun mem => (mem_fresh.mp mem).2 List.mem_cons_self, ih _⟩

theorem fresh_append (ks more : List κ) :
    fresh known (ks ++ more) = fresh known ks ++ fresh (ks ++ known) more := by
  induction ks generalizing known with
  | nil => rfl
  | cons k ks ih =>
      rw [List.cons_append, fresh, fresh]
      by_cases old : k ∈ known
      · rw [if_pos old, if_pos old, ih]
        refine congrArg _ (fresh_congr (fun k' => ?_) more)
        by_cases here : k' = k
        · simp [here, old]
        · simp [here]
      · rw [if_neg old, if_neg old, ih, List.cons_append]
        refine congrArg _ (congrArg _ (fresh_congr (fun k' => ?_) more))
        simp [or_left_comm]

theorem fresh_more (more ks : List κ) :
    fresh (more ++ known) ks = (fresh known ks).filter fun k => k ∉ more := by
  induction ks generalizing known with
  | nil => rfl
  | cons k ks ih =>
      rw [fresh, fresh]
      by_cases old : k ∈ known
      · rw [if_pos (List.mem_append_right _ old), if_pos old, ih]
      · have moved : ∀ k', k' ∈ more ++ k :: known ↔ k' ∈ k :: (more ++ known) := fun k' => by
          simp [or_left_comm]
        rw [if_neg old]
        by_cases inside : k ∈ more
        · have same : ∀ k', k' ∈ more ++ known ↔ k' ∈ more ++ k :: known := fun k' => by
            by_cases here : k' = k
            · simp [here, inside]
            · simp [here]
          rw [if_pos (List.mem_append_left _ inside), List.filter_cons_of_neg (by simpa using inside), ← ih,
            fresh_congr same]
        · rw [if_neg (by simp [old, inside]), List.filter_cons_of_pos (by simpa using inside), ← ih,
            fresh_congr moved]

/-- Keys in front change nothing exactly if they are the first new ones anyway. -/
theorem fresh_append_eq_iff (ks more : List κ) :
    fresh known (ks ++ more) = fresh known more ↔ fresh known ks <+: fresh known more := by
  rw [fresh_append]
  constructor
  · exact fun same => ⟨_, same⟩
  · rintro ⟨rest, same⟩
    have distinct := nodup_fresh known more
    rw [← same, List.nodup_append] at distinct
    rw [fresh_more, ← same, List.filter_append]
    have none : (fresh known ks).filter (fun k => k ∉ ks) = [] :=
      List.filter_eq_nil_iff.mpr fun k mem => by simpa using (mem_fresh.mp mem).1
    have all : rest.filter (fun k => k ∉ ks) = rest := by
      refine List.filter_eq_self.mpr fun k mem => decide_eq_true fun inside => ?_
      have new : k ∉ known := (mem_fresh.mp (same ▸ List.mem_append_right _ mem : k ∈ fresh known more)).2
      exact distinct.2.2 k (mem_fresh.mpr ⟨inside, new⟩) k mem rfl
    rw [none, all, List.nil_append]

theorem fresh_of_known {ks : List κ} (old : ∀ k ∈ ks, k ∈ known) : fresh known ks = [] :=
  List.eq_nil_iff_forall_not_mem.mpr fun k mem => (mem_fresh.mp mem).2 (old k (mem_fresh.mp mem).1)

end

section
variable {key : α → κ} {keyOf : β → κ} {f : α → β → α} {blank : α}

theorem upsert_of_mem {as : List α} {b : β} (distinct : (as.map key).Nodup) (mem : keyOf b ∈ as.map key) :
    upsert key keyOf f blank as b = absorb key keyOf f as [b] := by
  have changed : modifyFirst key (keyOf b) (f · b) (as ++ []) =
      some (as.map (fun a => if key a = keyOf b then f a b else a) ++ []) :=
    modifyFirst_append distinct mem
  rw [List.append_nil, List.append_nil] at changed
  rw [upsert, changed, absorb_singleton]
  rfl

theorem upsert_of_notMem {as : List α} {b : β} (missing : keyOf b ∉ as.map key) :
    upsert key keyOf f blank as b = as ++ [f blank b] := by
  rw [upsert, modifyFirst_of_notMem missing]
  rfl

theorem upsert_keys (keeps : ∀ a b, keyOf b = key a → key (f a b) = key a)
    (new : ∀ b, key (f blank b) = keyOf b) (as : List α) (b : β) :
    (upsert key keyOf f blank as b).map key = as.map key ∨
      (upsert key keyOf f blank as b).map key = as.map key ++ [keyOf b] := by
  unfold upsert
  cases changed : modifyFirst key (keyOf b) (f · b) as with
  | some bs =>
      exact .inl (modifyFirst_keys (fun a here => (keeps a b here.symm).trans here) changed)
  | none =>
      right
      rw [Option.getD_none, List.map_append, List.map_singleton, new]

theorem absorb_append (as bs : List α) (updates : List β) :
    absorb key keyOf f (as ++ bs) updates = absorb key keyOf f as updates ++ absorb key keyOf f bs updates :=
  List.map_append

variable (keeps : ∀ a b, keyOf b = key a → key (f a b) = key a) (new : ∀ b, key (f blank b) = keyOf b)
include keeps new

theorem key_foldl_blank {k : κ} {updates : List β} (mem : k ∈ updates.map keyOf) :
    key ((updates.filter fun b => keyOf b = k).foldl f blank) = k := by
  obtain ⟨b, member, rfl⟩ := List.mem_map.mp mem
  have inside : b ∈ updates.filter fun c => keyOf c = keyOf b := by simpa using member
  have same : ∀ d ∈ updates.filter fun c => keyOf c = keyOf b, keyOf d = keyOf b := fun d mem =>
    of_decide_eq_true (List.mem_filter.mp mem).2
  cases filtered : updates.filter fun c => keyOf c = keyOf b with
  | nil =>
      rw [filtered] at inside
      cases inside
  | cons c cs =>
      rw [filtered] at same
      obtain ⟨first, rest⟩ := List.forall_mem_cons.mp same
      rw [List.foldl_cons, key_foldl keeps fun d inside => ?_, new, first]
      rw [new, first, rest d inside]

theorem upserts_keys (as : List α) (updates : List β) :
    (upserts key keyOf f blank as updates).map key =
      as.map key ++ fresh (as.map key) (updates.map keyOf) := by
  rw [upserts, List.map_append, absorb_keys keeps, List.map_map]
  refine congrArg _ ((List.map_congr_left fun k mem => ?_).trans (List.map_id _))
  exact key_foldl_blank keeps new (mem_fresh.mp mem).1

theorem nodup_upserts {as : List α} (distinct : (as.map key).Nodup) (updates : List β) :
    ((upserts key keyOf f blank as updates).map key).Nodup := by
  rw [upserts_keys keeps new, List.nodup_append]
  refine ⟨distinct, nodup_fresh _ _, fun k mem k' mem' => ?_⟩
  rintro rfl
  exact (mem_fresh.mp mem').2 mem

/-- Updates one after another are the same as for each entry on its own. -/
theorem foldl_upsert {as : List α} (distinct : (as.map key).Nodup) (updates : List β) :
    updates.foldl (upsert key keyOf f blank) as = upserts key keyOf f blank as updates := by
  induction updates generalizing as with
  | nil => simp [upserts, fresh]
  | cons b updates ih =>
      have others : ∀ k, k ∈ fresh (keyOf b :: as.map key) (updates.map keyOf) →
          (updates.filter fun c => keyOf c = k).foldl f blank =
            ((b :: updates).filter fun c => keyOf c = k).foldl f blank := by
        intro k mem
        have differs : keyOf b ≠ k := fun same => (mem_fresh.mp mem).2 (same ▸ List.mem_cons_self)
        rw [List.filter_cons_of_neg (by simpa using differs)]
      rw [List.foldl_cons, upserts, List.map_cons, fresh, absorb_cons keeps]
      by_cases mem : keyOf b ∈ as.map key
      · have known : ∀ k, k ∈ as.map key ↔ k ∈ keyOf b :: as.map key := fun k => by
          rw [List.mem_cons]
          exact ⟨.inr, fun cases => cases.elim (fun same => same ▸ mem) id⟩
        rw [if_pos mem, upsert_of_mem distinct mem, ih (by rwa [absorb_keys keeps]), upserts,
          absorb_keys keeps, fresh_congr known]
        exact congrArg _ (List.map_congr_left others)
      · have appended : (as ++ [f blank b]).map key = as.map key ++ [keyOf b] := by
          rw [List.map_append, List.map_singleton, new]
        have known : ∀ k, k ∈ as.map key ++ [keyOf b] ↔ k ∈ keyOf b :: as.map key := fun k => by
          rw [List.mem_append, List.mem_singleton, List.mem_cons, or_comm]
        have last : absorb key keyOf f [f blank b] updates =
            [((b :: updates).filter fun c => keyOf c = keyOf b).foldl f blank] := by
          rw [List.filter_cons_of_pos (by simp), List.foldl_cons, absorb, List.map_singleton, new]
        rw [if_neg mem, upsert_of_notMem mem, ih ?_, upserts, absorb_append, last, appended,
          fresh_congr known, absorb_of_notMem mem, List.map_cons, List.append_assoc]
        · exact congrArg _ (congrArg _ (List.map_congr_left others))
        · rw [appended, List.nodup_append]
          refine ⟨distinct, List.nodup_singleton _, fun k old k' last => ?_⟩
          rintro rfl
          exact mem (List.mem_singleton.mp last ▸ old)

omit new in
theorem absorb_absorb (as : List α) (us more : List β) :
    absorb key keyOf f (absorb key keyOf f as us) more = absorb key keyOf f as (us ++ more) := by
  rw [absorb, absorb, absorb, List.map_map]
  refine List.map_congr_left fun a _ => ?_
  rw [Function.comp_apply, key_foldl_filter keeps, List.filter_append, List.foldl_append]

theorem upserts_upserts (as : List α) (us more : List β) :
    upserts key keyOf f blank (upserts key keyOf f blank as us) more =
      upserts key keyOf f blank as (us ++ more) := by
  have keys := upserts_keys keeps new as us
  have known : ∀ k, k ∈ (upserts key keyOf f blank as us).map key ↔ k ∈ us.map keyOf ++ as.map key := by
    intro k
    rw [keys, List.mem_append, List.mem_append, mem_fresh]
    by_cases old : k ∈ as.map key
    · simp [old]
    · simp [old]
  conv_lhs => rw [upserts]
  rw [fresh_congr known, upserts, absorb_append, absorb_absorb keeps, upserts, List.append_assoc]
  refine congrArg _ ?_
  rw [List.map_append, fresh_append, List.map_append]
  congr 1
  · rw [absorb, List.map_map]
    refine List.map_congr_left fun k mem => ?_
    rw [Function.comp_apply, key_foldl_blank keeps new (mem_fresh.mp mem).1, List.filter_append,
      List.foldl_append]
  · refine List.map_congr_left fun k mem => ?_
    have none : (us.filter fun b => keyOf b = k) = [] := by
      refine List.filter_eq_nil_iff.mpr fun b inside same => (mem_fresh.mp mem).2 ?_
      exact List.mem_append_left _ (List.mem_map.mpr ⟨b, inside, of_decide_eq_true same⟩)
    rw [List.filter_append, none, List.nil_append]

theorem upserts_again (again : ∀ (us : List β) a, us.foldl f (us.foldl f a) = us.foldl f a)
    (as : List α) (updates : List β) :
    upserts key keyOf f blank (upserts key keyOf f blank as updates) updates =
      upserts key keyOf f blank as updates := by
  have keys := upserts_keys keeps new as updates
  have known : fresh ((upserts key keyOf f blank as updates).map key) (updates.map keyOf) = [] := by
    refine fresh_of_known fun k mem => ?_
    rw [keys, List.mem_append, mem_fresh]
    by_cases old : k ∈ as.map key
    · exact .inl old
    · exact .inr ⟨mem, old⟩
  conv_lhs => rw [upserts]
  rw [known, List.map_nil, List.append_nil, upserts, absorb_append, absorb, absorb, absorb,
    List.map_map, List.map_map]
  congr 1
  · refine List.map_congr_left fun a _ => ?_
    rw [Function.comp_apply, key_foldl_filter keeps, again]
  · refine List.map_congr_left fun k mem => ?_
    rw [Function.comp_apply, key_foldl_blank keeps new (mem_fresh.mp mem).1, again]

end

section
variable {γ : Type} (op : γ → γ → γ) (assoc : ∀ a b c, op (op a b) c = op a (op b c))
include assoc

theorem foldl_eq_op (g : β → γ) (us : List β) :
    us = [] ∨ ∃ w, ∀ v, us.foldl (fun v u => op v (g u)) v = op v w := by
  cases us with
  | nil => exact .inl rfl
  | cons u us =>
      refine .inr ?_
      induction us generalizing u with
      | nil => exact ⟨g u, fun v => rfl⟩
      | cons u' us ih =>
          obtain ⟨w, eq⟩ := ih u'
          exact ⟨op (g u) w, fun v => by rw [List.foldl_cons, eq, assoc]⟩

theorem foldl_again (idem : ∀ a, op a a = a) (g : β → γ) (us : List β) (v : γ) :
    us.foldl (fun v u => op v (g u)) (us.foldl (fun v u => op v (g u)) v) =
      us.foldl (fun v u => op v (g u)) v := by
  rcases foldl_eq_op op assoc g us with rfl | ⟨w, eq⟩
  · rfl
  · rw [eq, eq, assoc, idem]

theorem foldl_field_again (idem : ∀ a, op a a = a) {f : α → β → α} {field : α → γ} {g : β → γ}
    (hom : ∀ a b, field (f a b) = op (field a) (g b)) (us : List β) (a : α) :
    field (us.foldl f (us.foldl f a)) = field (us.foldl f a) := by
  have fold : ∀ a, field (us.foldl f a) = us.foldl (fun v u => op v (g u)) (field a) := fun a =>
    (List.foldl_hom field fun a b => (hom a b).symm).symm
  rw [fold, fold, foldl_again op assoc idem]

end

end Mio
