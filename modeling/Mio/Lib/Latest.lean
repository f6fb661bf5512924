import Mathlib.Algebra.BigOperators.Group.Finset.Basic
import Mathlib.Data.List.Dedup
import Mathlib.Tactic.Abel

/-! Histories of readings under keys: the last reading of a key, the keys in the order in which they
came, and the sum of the last readings. -/
namespace Mio

variable {κ α : Type} [DecidableEq κ] {history : List (κ × α)} {key other : κ} {a : α}

def latest (history : List (κ × α)) (key : κ) : Option α := history.reverse.lookup key

def earliest (history : List (κ × α)) (key : κ) : Option α := history.lookup key

/-- The keys in the order of their first readings. -/
def firsts (history : List (κ × α)) : List κ := (history.map Prod.fst).reverse.dedup.reverse

@[simp] theorem latest_nil : latest ([] : List (κ × α)) key = none := rfl

theorem latest_append_self : latest (history ++ [(key, a)]) key = some a := by
  rw [latest, List.reverse_append]
  exact List.lookup_cons_self

theorem latest_append_of_ne (ne : other ≠ key) :
    latest (history ++ [(key, a)]) other = latest history other := by
  rw [latest, List.reverse_append]
  exact (List.lookup_cons ..).trans (by rw [beq_false_of_ne ne]; rfl)

theorem latest_concat (history : List (κ × α)) (key : κ) (a : α) :
    latest (history ++ [(key, a)]) = Function.update (latest history) key (some a) := by
  funext other
  by_cases same : other = key
  · rw [same, latest_append_self, Function.update_self]
  · rw [latest_append_of_ne same, Function.update_of_ne same]

theorem earliest_isSome : (earliest history key).isSome ↔ key ∈ history.map Prod.fst := by
  rw [earliest, List.lookup_isSome_iff]
  simp

theorem earliest_append {more : List (κ × α)} :
    earliest (history ++ more) key = (earliest history key).or (earliest more key) :=
  List.lookup_append

theorem mem_of_latest (found : latest history key = some a) : (key, a) ∈ history := by
  obtain ⟨before, after, eq, -⟩ := List.lookup_eq_some_iff.mp found
  apply List.mem_reverse.mp
  rw [eq]
  exact List.mem_append_right _ List.mem_cons_self

theorem earliest_map {β : Type} (f : κ → α → β) (history : List (κ × α)) (key : κ) :
    earliest (history.map fun p => (p.1, f p.1 p.2)) key = (earliest history key).map (f key) := by
  induction history with
  | nil => rfl
  | cons p history ih =>
      unfold earliest at ih ⊢
      rw [List.map_cons, List.lookup_cons, List.lookup_cons]
      split
      · next same => rw [eq_of_beq same]; rfl
      · exact ih

theorem latest_map {β : Type} (f : κ → α → β) (history : List (κ × α)) (key : κ) :
    latest (history.map fun p => (p.1, f p.1 p.2)) key = (latest history key).map (f key) := by
  rw [latest, ← List.map_reverse]
  exact earliest_map f history.reverse key

theorem latest_isSome : (latest history key).isSome ↔ key ∈ history.map Prod.fst := by
  rw [latest, List.lookup_isSome_iff]
  simp

theorem latest_eq_none (new : key ∉ history.map Prod.fst) : latest history key = none := by
  rw [← Option.not_isSome_iff_eq_none, latest_isSome]
  exact new

@[simp] theorem firsts_nil : firsts ([] : List (κ × α)) = [] := rfl

theorem mem_firsts : key ∈ firsts history ↔ key ∈ history.map Prod.fst := by
  rw [firsts, List.mem_reverse, List.mem_dedup, List.mem_reverse]

theorem firsts_nodup : (firsts history).Nodup := List.nodup_reverse.mpr (List.nodup_dedup _)

theorem firsts_append_old (old : key ∈ history.map Prod.fst) :
    firsts (history ++ [(key, a)]) = firsts history := by
  rw [firsts, List.map_append, List.reverse_append]
  exact congrArg List.reverse (List.dedup_cons_of_mem (List.mem_reverse.mpr old))

theorem firsts_append_new (new : key ∉ history.map Prod.fst) :
    firsts (history ++ [(key, a)]) = firsts history ++ [key] := by
  rw [firsts, List.map_append, List.reverse_append]
  refine (congrArg List.reverse (List.dedup_cons_of_notMem (fun mem => ?_))).trans List.reverse_cons
  exact new (List.mem_reverse.mp mem)

section Table
variable {table : List (κ × α × α)} {keys : List κ} {entry : κ → Option (κ × α × α)}

/-- A table keeps for each key its first and its last reading. -/
def enter (key : κ) (a : α) : List (κ × α × α) → List (κ × α × α)
  | [] => [(key, a, a)]
  | (k, first, last) :: rest =>
      if k = key then (k, first, a) :: rest else (k, first, last) :: enter key a rest

def tabulate (history : List (κ × α)) : List (κ × α × α) :=
  history.foldl (fun table p => enter p.1 p.2 table) []

/-- What the history says of a key. -/
def ends (history : List (κ × α)) (key : κ) : Option (κ × α × α) :=
  (earliest history key).bind fun first => (latest history key).map fun last => (key, first, last)

theorem enter_new (same : table.map some = keys.map entry)
    (named : ∀ k e, entry k = some e → e.1 = k) (new : key ∉ keys) :
    enter key a table = table ++ [(key, a, a)] := by
  induction table generalizing keys with
  | nil => rfl
  | cons e table ih =>
      obtain ⟨k, first, last⟩ := e
      cases keys with
      | nil => cases same
      | cons k' keys =>
          rw [List.map_cons, List.map_cons, List.cons.injEq] at same
          rw [List.mem_cons, not_or] at new
          have eq : k = k' := named k' _ same.1.symm
          rw [enter, if_neg (eq ▸ Ne.symm new.1), ih same.2 new.2]
          rfl

theorem enter_old (same : table.map some = keys.map entry)
    (named : ∀ k e, entry k = some e → e.1 = k) (distinct : keys.Nodup) (old : key ∈ keys) :
    (enter key a table).map some =
      keys.map fun k => if k = key then (entry k).map fun e => (e.1, e.2.1, a) else entry k := by
  induction table generalizing keys with
  | nil =>
      cases keys with
      | nil => cases old
      | cons k keys => cases same
  | cons e table ih =>
      obtain ⟨k, first, last⟩ := e
      cases keys with
      | nil => cases same
      | cons k' keys =>
          rw [List.map_cons, List.map_cons, List.cons.injEq] at same
          rw [List.nodup_cons] at distinct
          have eq : k = k' := named k' _ same.1.symm
          subst eq
          by_cases this : k = key
          · subst this
            rw [enter, if_pos rfl, List.map_cons, List.map_cons, if_pos rfl, ← same.1, same.2]
            apply congrArg (_ :: ·)
            apply List.map_congr_left
            intro k' mem
            have ne : k' ≠ k := fun eq => distinct.1 (eq ▸ mem)
            exact (if_neg ne).symm
          · have later : key ∈ keys := (List.mem_cons.mp old).resolve_left (Ne.symm this)
            rw [enter, if_neg this, List.map_cons, List.map_cons, if_neg this, ← same.1,
              ih same.2 distinct.2 later]

theorem ends_named {k : κ} {e : κ × α × α} (found : ends history k = some e) : e.1 = k := by
  obtain ⟨first, -, found⟩ := Option.bind_eq_some_iff.mp found
  obtain ⟨last, -, rfl⟩ := Option.map_eq_some_iff.mp found
  rfl

theorem ends_append_of_ne (ne : other ≠ key) :
    ends (history ++ [(key, a)]) other = ends history other := by
  have differs : (other == key) = false := beq_false_of_ne ne
  have skipped : earliest [(key, a)] other = none := by
    rw [earliest, List.lookup_cons, differs]
    rfl
  rw [ends, ends, latest_append_of_ne ne, earliest_append, skipped, Option.or_none]

/-- The table that grows reading by reading says what the whole history says, in the order of the
first readings. -/
theorem tabulate_eq (history : List (κ × α)) :
    (tabulate history).map some = (firsts history).map (ends history) := by
  induction history using List.reverseRecOn with
  | nil => rfl
  | append_singleton history p ih =>
      obtain ⟨key, a⟩ := p
      have grown : tabulate (history ++ [(key, a)]) = enter key a (tabulate history) := by
        rw [tabulate, List.foldl_append]
        rfl
      rw [grown]
      by_cases old : key ∈ history.map Prod.fst
      · rw [enter_old ih (fun k e => ends_named) firsts_nodup (mem_firsts.mpr old),
          firsts_append_old old]
        apply List.map_congr_left
        intro k mem
        split
        · next same =>
            subst same
            obtain ⟨first, found⟩ := Option.isSome_iff_exists.mp
              (earliest_isSome.mpr (mem_firsts.mp mem))
            obtain ⟨last, read⟩ := Option.isSome_iff_exists.mp
              (latest_isSome.mpr (mem_firsts.mp mem))
            rw [ends, ends, latest_append_self, earliest_append, found, read]
            rfl
        · next differs => exact (ends_append_of_ne differs).symm
      · have out : key ∉ firsts history := fun mem => old (mem_firsts.mp mem)
        have first : earliest history key = none := by
          rw [← Option.not_isSome_iff_eq_none, earliest_isSome]
          exact old
        rw [enter_new ih (fun k e => ends_named) out, firsts_append_new old, List.map_append,
          List.map_append, ih]
        congr 1
        · apply List.map_congr_left
          intro k mem
          have ne : k ≠ key := fun same => out (same ▸ mem)
          exact (ends_append_of_ne ne).symm
        · rw [List.map_singleton, List.map_singleton, ends, latest_append_self, earliest_append,
            first, Option.none_or, earliest, List.lookup_cons_self]
          rfl

theorem find_of_named {key : κ} (same : table.map some = keys.map entry)
    (named : ∀ k e, entry k = some e → e.1 = k) :
    table.find? (fun e => e.1 = key) = if key ∈ keys then entry key else none := by
  induction table generalizing keys with
  | nil =>
      cases keys with
      | nil => rfl
      | cons k keys => cases same
  | cons e table ih =>
      cases keys with
      | nil => cases same
      | cons k keys =>
          rw [List.map_cons, List.map_cons, List.cons.injEq] at same
          have eq : e.1 = k := named k e same.1.symm
          by_cases this : k = key
          · subst this
            rw [List.find?_cons_of_pos (by simp [eq]), if_pos List.mem_cons_self, same.1]
          · have others : key ∈ k :: keys ↔ key ∈ keys :=
              List.mem_cons.trans (or_iff_right (Ne.symm this))
            rw [List.find?_cons_of_neg (by simp [eq, this]), ih same.2]
            simp only [others]

theorem find_tabulate (history : List (κ × α)) (key : κ) :
    (tabulate history).find? (fun e => e.1 = key) = ends history key := by
  rw [find_of_named (tabulate_eq history) (fun k e => ends_named)]
  split
  · rfl
  · next out =>
      have first : earliest history key = none := by
        rw [← Option.not_isSome_iff_eq_none, earliest_isSome, ← mem_firsts]
        exact out
      rw [ends, first]
      rfl

theorem map_ends (history : List (κ × α)) (key : κ) :
    (ends history key).map (·.2.2) = latest history key := by
  unfold ends
  cases first : earliest history key with
  | none =>
      have new : key ∉ history.map Prod.fst := fun mem => by
        have := earliest_isSome.mpr mem
        rw [first] at this
        cases this
      rw [latest_eq_none new]
      rfl
  | some a =>
      rw [Option.bind_some, Option.map_map]
      exact Option.map_id'

end Table

section Groups
variable {τ : Type} [DecidableEq τ] {wanted : τ → Bool} {groups : List (Option τ × List (κ × α))} {t : τ}

/-- The readings of the groups that are wanted. -/
def gather (wanted : τ → Bool) (groups : List (Option τ × List (κ × α))) : List (κ × α) :=
  groups.flatMap fun g => if g.1.any wanted then g.2 else []

theorem latest_append {more : List (κ × α)} :
    latest (history ++ more) key = (latest more key).or (latest history key) := by
  rw [latest, List.reverse_append]
  exact List.lookup_append

/-- What no wanted group has, none of them has alone. -/
theorem latest_gather_none (missing : latest (gather wanted groups) key = none) (want : wanted t) :
    latest (gather (· = t) groups) key = none := by
  induction groups with
  | nil => rfl
  | cons g groups ih =>
      rw [gather, List.flatMap_cons, latest_append, Option.or_eq_none_iff] at missing ⊢
      refine ⟨ih missing.1, ?_⟩
      by_cases own : g.1 = some t
      · rw [own, Option.any_some, if_pos want] at missing
        rw [own, Option.any_some, if_pos (decide_eq_true rfl)]
        exact missing.2
      · have skipped : g.1.any (fun s => decide (s = t)) = false := by
          cases from_ : g.1 with
          | none => rfl
          | some s => exact decide_eq_false fun same => own (from_.trans (congrArg some same))
        rw [skipped]
        rfl

/-- The last reading of all wanted groups is the last one of some of them. -/
theorem exists_latest_gather (found : latest (gather wanted groups) key = some a) :
    ∃ t, wanted t ∧ latest (gather (· = t) groups) key = some a := by
  induction groups with
  | nil => cases found
  | cons g groups ih =>
      rw [gather, List.flatMap_cons, latest_append, Option.or_eq_some_iff] at found
      rcases found with later | ⟨none_, here⟩
      · obtain ⟨t, want, last⟩ := ih later
        refine ⟨t, want, ?_⟩
        rw [gather, List.flatMap_cons, latest_append]
        exact Option.or_eq_some_iff.mpr (.inl last)
      · cases from_ : g.1 with
        | none =>
            rw [from_] at here
            cases here
        | some t =>
            by_cases want : wanted t
            · rw [from_, Option.any_some, if_pos want] at here
              refine ⟨t, want, ?_⟩
              rw [gather, List.flatMap_cons, latest_append, from_, Option.any_some, if_pos (decide_eq_true rfl)]
              exact Option.or_eq_some_iff.mpr (.inr ⟨latest_gather_none none_ want, here⟩)
            · rw [from_, Option.any_some, if_neg want] at here
              cases here

end Groups

section Total
variable {β : Type} [AddCommGroup β] {readings : List (κ × β)} {value : β}

/-- The last readings of all keys, added up. -/
def total (readings : List (κ × β)) : β :=
  ∑ key ∈ (firsts readings).toFinset, (latest readings key).getD 0

@[simp] theorem total_nil : total ([] : List (κ × β)) = 0 := rfl

/-- A reading changes the sum by its difference to the last one. -/
theorem total_append :
    total (readings ++ [(key, value)]) =
      total readings + (value - (latest readings key).getD 0) := by
  have others : ∀ s : Finset κ, ∑ k ∈ s.erase key, (latest (readings ++ [(key, value)]) k).getD 0 =
      ∑ k ∈ s.erase key, (latest readings k).getD 0 := fun s =>
    Finset.sum_congr rfl fun k mem => by rw [latest_append_of_ne (Finset.ne_of_mem_erase mem)]
  by_cases old : key ∈ readings.map Prod.fst
  · have mem : key ∈ (firsts readings).toFinset := List.mem_toFinset.mpr (mem_firsts.mpr old)
    rw [total, total, firsts_append_old old, ← Finset.add_sum_erase _ _ mem, others, latest_append_self,
      ← Finset.add_sum_erase (firsts readings).toFinset _ mem, Option.getD_some]
    abel
  · have out : key ∉ (firsts readings).toFinset := fun mem => old (mem_firsts.mp (List.mem_toFinset.mp mem))
    have keys : (firsts (readings ++ [(key, value)])).toFinset = insert key (firsts readings).toFinset := by
      rw [firsts_append_new old]
      ext k
      simp
    have rest := others (insert key (firsts readings).toFinset)
    rw [Finset.erase_insert out] at rest
    rw [total, keys, Finset.sum_insert out, rest, latest_append_self, latest_eq_none old, Option.getD_some,
      Option.getD_none, sub_zero, add_comm]
    rfl

end Total
end Mio
