import Mathlib.Data.List.Induction
import Mio.Lib.Program
import Mio.Lib.Transition

/-! Processes that share a key-value store and lock a part of it around each of their calls. A lock is
a key of its own part: opening it makes an empty value there. Whatever way the requests interleave,
the calls have the outcomes they have one after another. -/
namespace Mio

/-- The part of the store that belongs to each lock. -/
structure Locks (ι κ ν : Type) where
  file : ι → κ
  blank : ν
  keys : ι → κ → Prop
  own : ∀ i, keys i (file i)
  apart : ∀ {i j k}, keys i k → keys j k → i = j

/-- The calls that processes may make: the lock of each, and what is done between taking and releasing
it. -/
structure Calls {ι κ ν : Type} (L : Locks ι κ ν) (τ ε α : Type) where
  lock : τ → ι
  body : τ → Program κ ν ε α
  within : ∀ c, (body c).Within (L.keys (lock c)) (L.file (lock c))

structure Completed (P τ ε α : Type) where
  process : P
  call : τ
  outcome : Outcome ε α

inductive Phase (κ ν τ ε α : Type) where
  | idle
  /-- The lock's file is open, and the lock not yet taken. -/
  | waiting (call : τ)
  | inside (call : τ) (rest : Program κ ν ε α)
  /-- Aborted. -/
  | gone

/-- All processes and the store; the log lists the calls in the order in which they released their
locks. -/
structure Shared (P κ ν τ ε α : Type) where
  store : κ → Option ν
  phase : P → Phase κ ν τ ε α
  log : List (Completed P τ ε α)

namespace Locks

variable {ι κ ν : Type} [DecidableEq κ] (L : Locks ι κ ν)

/-- Opening a lock's file for appending. -/
def touch (i : ι) (s : κ → Option ν) : κ → Option ν :=
  Function.update s (L.file i) (some ((s (L.file i)).getD L.blank))

variable {L} {i : ι} {s t : κ → Option ν}

theorem touch_of_ne {k : κ} (ne : k ≠ L.file i) : L.touch i s k = s k := Function.update_of_ne ne _ _

theorem touch_file : L.touch i s (L.file i) = some ((s (L.file i)).getD L.blank) :=
  Function.update_self ..

theorem touch_of_has (has : s (L.file i) ≠ none) : L.touch i s = s := by
  obtain ⟨v, eq⟩ := Option.ne_none_iff_exists'.mp has
  unfold touch
  rw [eq]
  exact Function.update_eq_self_iff.mpr eq.symm

theorem touch_has {k : κ} (has : s k ≠ none) : L.touch i s k ≠ none := by
  by_cases same : k = L.file i
  · rw [same, touch_file]
    exact Option.some_ne_none _
  · rwa [touch_of_ne same]

theorem touch_agree {keys : κ → Prop} (h : Agree keys s t) (mem : keys (L.file i)) :
    Agree keys (L.touch i s) (L.touch i t) := by
  intro k other
  unfold touch
  rw [Function.update_apply, Function.update_apply, h k other, h _ mem]

end Locks

namespace Calls

variable {ι κ ν τ ε α : Type} [DecidableEq κ] {L : Locks ι κ ν} (T : Calls L τ ε α)

def run (c : τ) : Persist (κ → Option ν) ε α := fun s => (T.body c).run (L.touch (T.lock c) s)

def replay (s : κ → Option ν) (calls : List τ) : κ → Option ν :=
  calls.foldl (fun s c => (T.run c s).2) s

theorem replay_concat (s : κ → Option ν) (calls : List τ) (c : τ) :
    T.replay s (calls ++ [c]) = (T.run c (T.replay s calls)).2 := by
  simp [replay]

/-- Whole calls one after another, on a store that nothing else uses. -/
inductive Serially {P : Type} (start : κ → Option ν) : List (Completed P τ ε α) → (κ → Option ν) → Prop
  | start : Serially start [] start
  | call {log s t e} (before : Serially start log s) (run : T.run e.call s = (e.outcome, t)) :
      Serially start (log ++ [e]) t

variable {T} {c : τ} {s t : κ → Option ν}

/-- Calls with the outcomes that they have behind one another. -/
theorem serially_replay {P : Type} {log : List (Completed P τ ε α)}
    (outcomes : ∀ before e later, log = before ++ e :: later →
      (T.run e.call (T.replay s (before.map Completed.call))).1 = e.outcome) :
    T.Serially s log (T.replay s (log.map Completed.call)) := by
  induction log using List.reverseRecOn with
  | nil => exact .start
  | append_singleton log e ih =>
      have before := ih fun front d later eq => outcomes front d (later ++ [e]) (by rw [eq]; simp)
      rw [List.map_append]
      refine .call before (Prod.ext (outcomes log e [] rfl) ?_)
      exact (T.replay_concat s (log.map Completed.call) e.call).symm

theorem run_agree (h : Agree (L.keys (T.lock c)) s t) :
    (T.run c s).1 = (T.run c t).1 ∧ Agree (L.keys (T.lock c)) (T.run c s).2 (T.run c t).2 :=
  (T.within c).run_agree (Locks.touch_agree h (L.own _))

theorem run_outside {k : κ} (out : ¬ L.keys (T.lock c) k) : (T.run c s).2 k = s k := by
  have ne : k ≠ L.file (T.lock c) := by
    rintro rfl
    exact out (L.own _)
  exact ((T.within c).run_outside out).trans (Locks.touch_of_ne ne)

theorem run_other {i : ι} (ne : i ≠ (T.lock c)) : Agree (L.keys i) (T.run c s).2 s := by
  intro k mem
  refine run_outside fun also_ => ne ?_
  exact L.apart mem also_

end Calls

namespace Shared

variable {P ι κ ν τ ε α : Type} [DecidableEq P] [DecidableEq κ] {L : Locks ι κ ν}

/-- What a process has got out of its calls so far. -/
def answers (s : Shared P κ ν τ ε α) (p : P) : List (Outcome ε α) :=
  s.log.filterMap fun e => if e.process = p then some e.outcome else none

variable (T : Calls L τ ε α)

def Free (s : Shared P κ ν τ ε α) (i : ι) : Prop := ∀ p c rest, s.phase p = .inside c rest → T.lock c ≠ i

def calls (s : Shared P κ ν τ ε α) : List τ := s.log.map Completed.call

/-- A process is over with an abort. -/
def after : Outcome ε α → Phase κ ν τ ε α
  | .abort _ => .gone
  | _ => .idle

/-- One step of the process `p`. What a process calls next depends on its answers alone. -/
inductive Step (client : P → List (Outcome ε α) → Option τ) :
    Shared P κ ν τ ε α → P → Shared P κ ν τ ε α → Prop
  | open_ {s p c} (idle : s.phase p = .idle) (wants : client p (s.answers p) = some c) :
      Step client s p ⟨L.touch (T.lock c) s.store, Function.update s.phase p (.waiting c), s.log⟩
  | enter {s p c} (waiting : s.phase p = .waiting c) (free : s.Free T (T.lock c)) :
      Step client s p ⟨s.store, Function.update s.phase p (.inside c (T.body c)), s.log⟩
  | request {s p c r next} (inside : s.phase p = .inside c (.request r next)) :
      Step client s p ⟨(r.handle s.store).2,
        Function.update s.phase p (.inside c (next (r.handle s.store).1)), s.log⟩
  | leave {s p c o} (inside : s.phase p = .inside c (.done o)) (ended : o ≠ .timeout) :
      Step client s p ⟨s.store, Function.update s.phase p (after o), s.log ++ [⟨p, c, o⟩]⟩

/-- Any number of processes, all idle, over a given store. -/
def system (client : P → List (Outcome ε α) → Option τ) (start : κ → Option ν) :
    System (Shared P κ ν τ ε α) P :=
  ⟨fun s => s = ⟨start, fun _ => .idle, []⟩, Step T client⟩

/-- The state of the processes beside the state in which the calls of the log, one after another,
leave the store. -/
structure Serial (start : κ → Option ν) (s : Shared P κ ν τ ε α) : Prop where
  /-- Every call had the outcome that it has behind the calls before it. -/
  outcomes : ∀ before e later, s.log = before ++ e :: later →
    (T.run e.call (T.replay start (before.map Completed.call))).1 = e.outcome
  ended : ∀ e ∈ s.log, e.outcome ≠ .timeout
  /-- Two processes never hold one lock. -/
  alone : ∀ p q c d x y, s.phase p = .inside c x → s.phase q = .inside d y → T.lock c = T.lock d → p = q
  /-- Under a free lock the store is as the calls leave it, but for the file of a lock that somebody
  waits for. -/
  free : ∀ i, s.Free T i → ∀ k, L.keys i k → s.store k = T.replay start s.calls k ∨
    (k = L.file i ∧ T.replay start s.calls k = none ∧ s.store k = some L.blank ∧
      ∃ p c, s.phase p = .waiting c ∧ T.lock c = i)
  /-- What is left of a call does what the whole call does behind the log. -/
  inside : ∀ p c x, s.phase p = .inside c x →
    (T.run c (T.replay start s.calls)).1 = (x.run s.store).1 ∧
      Agree (L.keys (T.lock c)) (T.run c (T.replay start s.calls)).2 (x.run s.store).2
  within : ∀ p c x, s.phase p = .inside c x → x.Within (L.keys (T.lock c)) (L.file (T.lock c))
  /-- The file of a lock that is held or waited for exists. -/
  file : ∀ p c, (s.phase p = .waiting c ∨ ∃ x, s.phase p = .inside c x) →
    s.store (L.file (T.lock c)) ≠ none
  /-- What belongs to no lock stays. -/
  others : ∀ k, (∀ i, ¬ L.keys i k) → s.store k = start k

section
omit [DecidableEq κ]

/-- The phases after a step of `p`. -/
theorem phase_cases {phase : P → Phase κ ν τ ε α} {p q : P} {new found : Phase κ ν τ ε α}
    (h : Function.update phase p new q = found) : q = p ∧ new = found ∨ q ≠ p ∧ phase q = found := by
  by_cases same : q = p
  · subst same
    rw [Function.update_self] at h
    exact .inl ⟨rfl, h⟩
  · rw [Function.update_of_ne same] at h
    exact .inr ⟨same, h⟩

theorem phase_stays {phase : P → Phase κ ν τ ε α} {p q : P} {old new found : Phase κ ν τ ε α}
    (was : phase p = old) (other : old ≠ found) (h : phase q = found) :
    Function.update phase p new q = found := by
  have ne : q ≠ p := by
    rintro rfl
    exact other (was.symm.trans h)
  rw [Function.update_of_ne ne, h]

end

namespace Serial

variable {T} {client : P → List (Outcome ε α) → Option τ} {start : κ → Option ν}
  {s t : Shared P κ ν τ ε α} {p q : P} {c d : τ} {x : Program κ ν ε α}

omit [DecidableEq P] in
theorem init (start : κ → Option ν) :
    Serial T start (⟨start, fun _ => .idle, []⟩ : Shared P κ ν τ ε α) where
  outcomes before e later eq := by
    exact absurd eq.symm (List.append_ne_nil_of_right_ne_nil _ (List.cons_ne_nil _ _))
  ended e mem := by cases mem
  alone p q c d x y h := by cases h
  free i _ k _ := .inl rfl
  inside p c x h := by cases h
  within p c x h := by cases h
  file p c h := by rcases h with h | ⟨x, h⟩ <;> cases h
  others k _ := rfl

omit [DecidableEq P] in
/-- Opening a lock's file disturbs nobody inside. -/
theorem touch_quiet (h : Serial T start s) (inside : s.phase q = .inside d x) (i : ι) :
    Agree (L.keys (T.lock d)) (L.touch i s.store) s.store := by
  intro k mem
  by_cases same : k = L.file i
  · subst same
    obtain rfl : T.lock d = i := L.apart mem (L.own i)
    rw [Locks.touch_of_has (h.file q d (.inr ⟨x, inside⟩))]
  · exact Locks.touch_of_ne same

theorem open_ (h : Serial T start s) (idle : s.phase p = .idle) (c : τ) :
    Serial T start ⟨L.touch (T.lock c) s.store, Function.update s.phase p (.waiting c), s.log⟩ where
  outcomes := h.outcomes
  ended := h.ended
  alone q r d e x y hq hr same := by
    rcases phase_cases hq with ⟨-, eq⟩ | ⟨-, hq⟩
    · cases eq
    rcases phase_cases hr with ⟨-, eq⟩ | ⟨-, hr⟩
    · cases eq
    exact h.alone q r d e x y hq hr same
  free i free k mem := by
    have before : s.Free T i := fun q d x hq =>
      free q d x (phase_stays idle (by rintro ⟨⟩) hq)
    by_cases opened : k = L.file (T.lock c)
    · subst opened
      obtain rfl : i = T.lock c := L.apart mem (L.own (T.lock c))
      rcases h.free _ before _ mem with eq | ⟨-, none, blank, -⟩
      · by_cases has : s.store (L.file (T.lock c)) = none
        · refine .inr ⟨rfl, eq.symm.trans has, ?_, p, c, Function.update_self .., rfl⟩
          refine Locks.touch_file.trans ?_
          rw [has]
          rfl
        · exact .inl ((congrFun (Locks.touch_of_has has) _).trans eq)
      · refine .inr ⟨rfl, none, ?_, p, c, Function.update_self .., rfl⟩
        refine Locks.touch_file.trans ?_
        rw [blank]
        rfl
    · have still : L.touch (T.lock c) s.store k = s.store k := Locks.touch_of_ne opened
      rcases h.free i before k mem with eq | ⟨file, none, blank, q, d, hq, same⟩
      · exact .inl (still.trans eq)
      · exact .inr ⟨file, none, still.trans blank, q, d, phase_stays idle (by rintro ⟨⟩) hq, same⟩
  inside q d x hq := by
    rcases phase_cases hq with ⟨-, eq⟩ | ⟨-, hq⟩
    · cases eq
    obtain ⟨answer, agree⟩ := h.inside q d x hq
    obtain ⟨answer', agree'⟩ := (h.within q d x hq).run_agree (h.touch_quiet hq (T.lock c))
    exact ⟨answer.trans answer'.symm, agree.trans agree'.symm⟩
  within q d x hq := by
    rcases phase_cases hq with ⟨-, eq⟩ | ⟨-, hq⟩
    · cases eq
    exact h.within q d x hq
  file q d hq := by
    rcases hq with hq | ⟨x, hq⟩
    · rcases phase_cases hq with ⟨-, eq⟩ | ⟨-, hq⟩
      · cases eq
        exact ne_of_eq_of_ne Locks.touch_file (Option.some_ne_none _)
      · exact Locks.touch_has (h.file q d (.inl hq))
    · rcases phase_cases hq with ⟨-, eq⟩ | ⟨-, hq⟩
      · cases eq
      · exact Locks.touch_has (h.file q d (.inr ⟨x, hq⟩))
  others k out := by
    have ne : k ≠ L.file (T.lock c) := by
      rintro rfl
      exact out _ (L.own (T.lock c))
    exact (Locks.touch_of_ne ne).trans (h.others k out)

theorem enter (h : Serial T start s) (waiting : s.phase p = .waiting c) (free : s.Free T (T.lock c)) :
    Serial T start ⟨s.store, Function.update s.phase p (.inside c (T.body c)), s.log⟩ where
  outcomes := h.outcomes
  ended := h.ended
  alone q r d e x y hq hr same := by
    rcases phase_cases hq with ⟨rfl, eq⟩ | ⟨-, hq'⟩
    · cases eq
      rcases phase_cases hr with ⟨eq', -⟩ | ⟨-, hr⟩
      · exact eq'.symm
      · exact (free r e y hr same.symm).elim
    · rcases phase_cases hr with ⟨rfl, eq⟩ | ⟨-, hr⟩
      · cases eq
        exact (free q d x hq' same).elim
      · exact h.alone q r d e x y hq' hr same
  free i left k mem := by
    have before : s.Free T i := fun q d x hq =>
      left q d x (phase_stays waiting (by rintro ⟨⟩) hq)
    have ne : T.lock c ≠ i := left p c (T.body c) (Function.update_self ..)
    rcases h.free i before k mem with eq | ⟨file, none, blank, q, d, hq, same⟩
    · exact .inl eq
    · refine .inr ⟨file, none, blank, q, d, phase_stays waiting ?_ hq, same⟩
      rintro ⟨⟩
      exact ne same
  inside q d x hq := by
    rcases phase_cases hq with ⟨rfl, eq⟩ | ⟨-, hq⟩
    · cases eq
      -- the file exists by now, on both sides
      refine (T.within c).run_agree fun k mem => ?_
      have has := h.file q c (.inl waiting)
      by_cases same : k = L.file (T.lock c)
      · subst same
        refine Locks.touch_file.trans ?_
        rcases h.free _ free _ mem with eq | ⟨-, none, blank, -⟩
        · obtain ⟨v, found⟩ := Option.ne_none_iff_exists'.mp has
          have replayed := eq.symm.trans found
          exact (congrArg (fun o : Option ν => some (o.getD L.blank)) replayed).trans found.symm
        · exact (congrArg (fun o : Option ν => some (o.getD L.blank)) none).trans blank.symm
      · rw [Locks.touch_of_ne same]
        rcases h.free _ free k mem with eq | ⟨file, -⟩
        · exact eq.symm
        · exact (same file).elim
    · exact h.inside q d x hq
  within q d x hq := by
    rcases phase_cases hq with ⟨rfl, eq⟩ | ⟨-, hq⟩
    · cases eq
      exact T.within c
    · exact h.within q d x hq
  file q d hq := by
    rcases hq with hq | ⟨x, hq⟩
    · rcases phase_cases hq with ⟨-, eq⟩ | ⟨-, hq⟩
      · cases eq
      · exact h.file q d (.inl hq)
    · rcases phase_cases hq with ⟨rfl, eq⟩ | ⟨-, hq⟩
      · cases eq
        exact h.file q c (.inl waiting)
      · exact h.file q d (.inr ⟨x, hq⟩)
  others := h.others

theorem request (h : Serial T start s) {r : Request κ ν} {next : r.Answer → Program κ ν ε α}
    (inside : s.phase p = .inside c (.request r next)) :
    Serial T start ⟨(r.handle s.store).2,
      Function.update s.phase p (.inside c (next (r.handle s.store).1)), s.log⟩ := by
  have within := h.within p c _ inside
  have outside : ∀ k, ¬ L.keys (T.lock c) k → (r.handle s.store).2 k = s.store k := by
    intro k out
    refine Request.handle_other r s.store ?_
    rintro rfl
    exact out within.1.1
  have other : ∀ i, i ≠ T.lock c → Agree (L.keys i) (r.handle s.store).2 s.store :=
    fun i ne k mem => outside k fun also_ => ne (L.apart mem also_)
  refine ⟨h.outcomes, h.ended, ?_, ?_, ?_, ?_, ?_, ?_⟩
  · intro q r' d e x y hq hr same
    rcases phase_cases hq with ⟨rfl, eq⟩ | ⟨-, hq'⟩
    · cases eq
      rcases phase_cases hr with ⟨eq', -⟩ | ⟨-, hr⟩
      · exact eq'.symm
      · exact h.alone q r' c e _ y inside hr same
    · rcases phase_cases hr with ⟨rfl, eq⟩ | ⟨-, hr⟩
      · cases eq
        exact h.alone q r' d c x _ hq' inside same
      · exact h.alone q r' d e x y hq' hr same
  · intro i left k mem
    have ne : i ≠ T.lock c := (left p c _ (Function.update_self ..)).symm
    have before : s.Free T i := by
      intro q d x hq
      by_cases same : q = p
      · subst same
        rw [inside] at hq
        cases hq
        exact ne.symm
      · exact left q d x (by dsimp only; rw [Function.update_of_ne same, hq])
    change (r.handle s.store).2 k = _ ∨ _ ∧ _ ∧ (r.handle s.store).2 k = _ ∧ _
    rw [other i ne k mem]
    rcases h.free i before k mem with eq | ⟨file, none, blank, q, d, hq, same⟩
    · exact .inl eq
    · exact .inr ⟨file, none, blank, q, d, phase_stays inside (by rintro ⟨⟩) hq, same⟩
  · intro q d x hq
    rcases phase_cases hq with ⟨rfl, eq⟩ | ⟨ne, hq⟩
    · cases eq
      exact h.inside q c _ inside
    · have apart : T.lock d ≠ T.lock c := fun same => ne (h.alone q p d c x _ hq inside same)
      obtain ⟨answer, agree⟩ := h.inside q d x hq
      obtain ⟨answer', agree'⟩ := (h.within q d x hq).run_agree (other _ apart)
      exact ⟨answer.trans answer'.symm, agree.trans agree'.symm⟩
  · intro q d x hq
    rcases phase_cases hq with ⟨rfl, eq⟩ | ⟨-, hq⟩
    · cases eq
      exact within.2 _
    · exact h.within q d x hq
  · intro q d hq
    have before : s.store (L.file (T.lock d)) ≠ none := by
      rcases hq with hq | ⟨x, hq⟩
      · rcases phase_cases hq with ⟨-, eq⟩ | ⟨-, hq⟩
        · cases eq
        · exact h.file q d (.inl hq)
      · rcases phase_cases hq with ⟨rfl, eq⟩ | ⟨-, hq⟩
        · cases eq
          exact h.file q c (.inr ⟨_, inside⟩)
        · exact h.file q d (.inr ⟨x, hq⟩)
    by_cases same : T.lock d = T.lock c
    · refine Request.handle_keeps ?_ before
      rw [same]
      exact within.1.2
    · change (r.handle s.store).2 _ ≠ none
      rwa [other (T.lock d) same _ (L.own (T.lock d))]
  · intro k out
    exact (outside k (out (T.lock c))).trans (h.others k out)

theorem leave (h : Serial T start s) {o : Outcome ε α} (inside : s.phase p = .inside c (.done o))
    (ended : o ≠ .timeout) :
    Serial T start ⟨s.store, Function.update s.phase p (after o), s.log ++ [⟨p, c, o⟩]⟩ := by
  have replayed : T.replay start ((s.log ++ [(⟨p, c, o⟩ : Completed P τ ε α)]).map Completed.call) =
      (T.run c (T.replay start s.calls)).2 := by
    rw [List.map_append]
    exact T.replay_concat start s.calls c
  obtain ⟨answer, agree⟩ := h.inside p c _ inside
  change (T.run c (T.replay start s.calls)).1 = o at answer
  have gone_ : ∀ q (d : τ) x, Function.update s.phase p (after o) q = .inside d x →
      q ≠ p ∧ s.phase q = .inside d x := by
    intro q d x hq
    rcases phase_cases hq with ⟨-, eq⟩ | still
    · cases o <;> cases eq
    · exact still
  refine ⟨?_, ?_, ?_, ?_, ?_, ?_, ?_, h.others⟩
  · intro before e later eq
    cases later using List.reverseRecOn with
    | nil =>
        obtain ⟨rfl, last⟩ := List.append_inj' eq rfl
        cases last
        exact answer
    | append_singleton rest last =>
        rw [← List.cons_append, ← List.append_assoc] at eq
        obtain ⟨same, -⟩ := List.append_inj' eq rfl
        exact h.outcomes before e rest same
  · intro e mem
    rcases List.mem_append.mp mem with old | new
    · exact h.ended e old
    · rw [List.mem_singleton.mp new]
      exact ended
  · intro q r d e x y hq hr same
    exact h.alone q r d e x y (gone_ q d x hq).2 (gone_ r e y hr).2 same
  · intro i left k mem
    change s.store k = T.replay start ((s.log ++ [(⟨p, c, o⟩ : Completed P τ ε α)]).map Completed.call) k ∨ _
    by_cases mine : i = T.lock c
    · subst mine
      rw [replayed]
      exact .inl (agree k mem).symm
    · have before : s.Free T i := by
        intro q d x hq
        by_cases same : q = p
        · subst same
          rw [inside] at hq
          cases hq
          exact fun eq => mine eq.symm
        · exact left q d x (by dsimp only; rw [Function.update_of_ne same, hq])
      have still : T.replay start ((s.log ++ [(⟨p, c, o⟩ : Completed P τ ε α)]).map Completed.call) k =
          T.replay start s.calls k := by
        rw [replayed]
        exact Calls.run_other mine k mem
      rcases h.free i before k mem with eq | ⟨file, none, blank, q, d, hq, same⟩
      · exact .inl (eq.trans still.symm)
      · exact .inr ⟨file, still.trans none, blank, q, d, phase_stays inside (by rintro ⟨⟩) hq, same⟩
  · intro q d x hq
    obtain ⟨ne, hq⟩ := gone_ q d x hq
    have apart : T.lock d ≠ T.lock c := fun same => ne (h.alone q p d c x _ hq inside same)
    change (T.run d (T.replay start ((s.log ++ [(⟨p, c, o⟩ : Completed P τ ε α)]).map Completed.call))).1 = _ ∧
      Agree _ (T.run d (T.replay start ((s.log ++ [(⟨p, c, o⟩ : Completed P τ ε α)]).map Completed.call))).2 _
    rw [replayed]
    obtain ⟨answer, agree⟩ := h.inside q d x hq
    have quiet : Agree (L.keys (T.lock d)) (T.run c (T.replay start s.calls)).2 (T.replay start s.calls) :=
      Calls.run_other apart
    obtain ⟨answer', agree'⟩ := Calls.run_agree quiet
    exact ⟨answer'.trans answer, agree'.trans agree⟩
  · intro q d x hq
    exact h.within q d x (gone_ q d x hq).2
  · intro q d hq
    rcases hq with hq | ⟨x, hq⟩
    · rcases phase_cases hq with ⟨-, eq⟩ | ⟨-, hq⟩
      · cases o <;> cases eq
      · exact h.file q d (.inl hq)
    · exact h.file q d (.inr ⟨x, (gone_ q d x hq).2⟩)

theorem step (h : Serial T start s) (step : Step T client s p t) : Serial T start t := by
  cases step with
  | open_ idle wants => exact h.open_ idle _
  | enter waiting free => exact h.enter waiting free
  | request inside => exact h.request inside
  | leave inside ended => exact h.leave inside ended

end Serial

/-- Every interleaving is serial. -/
theorem serial_of_reachable {T : Calls L τ ε α} {client : P → List (Outcome ε α) → Option τ}
    {start : κ → Option ν} {s : Shared P κ ν τ ε α} (run : (system T client start).Reachable s) :
    Serial T start s := by
  refine run.induct ?_ fun s p t h step => h.step step
  rintro s rfl
  exact .init start

/-- What a process got out of its calls in a log. -/
def given (log : List (Completed P τ ε α)) (p : P) : List (Outcome ε α) :=
  log.filterMap fun e => if e.process = p then some e.outcome else none

section
variable {log : List (Completed P τ ε α)} {e : Completed P τ ε α} {p : P}

theorem given_own (own : e.process = p) : given (log ++ [e]) p = given log p ++ [e.outcome] := by
  simp [given, own]

theorem given_other (other : e.process ≠ p) : given (log ++ [e]) p = given log p := by
  simp [given, other]

end

/-- Every call is the one that its process wanted by its answers. -/
structure Follows (client : P → List (Outcome ε α) → Option τ) (s : Shared P κ ν τ ε α) : Prop where
  logged : ∀ before e later, s.log = before ++ e :: later →
    client e.process (given before e.process) = some e.call
  waiting : ∀ p c, s.phase p = .waiting c → client p (given s.log p) = some c
  inside : ∀ p c x, s.phase p = .inside c x → client p (given s.log p) = some c

section
variable {T : Calls L τ ε α} {client : P → List (Outcome ε α) → Option τ} {start : κ → Option ν}
  {s t : Shared P κ ν τ ε α} {p : P}

theorem Follows.step (h : Follows client s) (step : Step T client s p t) : Follows client t := by
  cases step with
  | @open_ c idle wants =>
      refine ⟨h.logged, fun q d hq => ?_, fun q d x hq => ?_⟩
      · rcases phase_cases hq with ⟨rfl, eq⟩ | ⟨-, hq⟩
        · cases eq
          exact wants
        · exact h.waiting q d hq
      · rcases phase_cases hq with ⟨-, eq⟩ | ⟨-, hq⟩
        · cases eq
        · exact h.inside q d x hq
  | @enter c waiting free =>
      refine ⟨h.logged, fun q d hq => ?_, fun q d x hq => ?_⟩
      · rcases phase_cases hq with ⟨-, eq⟩ | ⟨-, hq⟩
        · cases eq
        · exact h.waiting q d hq
      · rcases phase_cases hq with ⟨rfl, eq⟩ | ⟨-, hq⟩
        · cases eq
          exact h.waiting q c waiting
        · exact h.inside q d x hq
  | @request c r next inside =>
      refine ⟨h.logged, fun q d hq => ?_, fun q d x hq => ?_⟩
      · rcases phase_cases hq with ⟨-, eq⟩ | ⟨-, hq⟩
        · cases eq
        · exact h.waiting q d hq
      · rcases phase_cases hq with ⟨rfl, eq⟩ | ⟨-, hq⟩
        · cases eq
          exact h.inside q c _ inside
        · exact h.inside q d x hq
  | @leave c o inside ended =>
      have moved : ∀ d x, after o ≠ (.waiting d : Phase κ ν τ ε α) ∧ after o ≠ (.inside d x : Phase κ ν τ ε α) := by
        intro d x
        cases o <;> exact ⟨by rintro ⟨⟩, by rintro ⟨⟩⟩
      refine ⟨fun before e later eq => ?_, fun q d hq => ?_, fun q d x hq => ?_⟩
      · rcases List.eq_nil_or_concat' later with rfl | ⟨rest, last, rfl⟩
        · obtain ⟨rfl, last⟩ := List.append_inj' eq rfl
          cases last
          exact h.inside p c _ inside
        · have parts : s.log ++ [⟨p, c, o⟩] = (before ++ e :: rest) ++ [last] := by
            rw [List.append_assoc]
            exact eq
          exact h.logged before e rest (List.append_inj' parts rfl).1
      · rcases phase_cases hq with ⟨-, eq⟩ | ⟨ne, hq⟩
        · exact ((moved d (.done o)).1 eq).elim
        · rw [given_other (Ne.symm ne)]
          exact h.waiting q d hq
      · rcases phase_cases hq with ⟨-, eq⟩ | ⟨ne, hq⟩
        · exact ((moved d x).2 eq).elim
        · rw [given_other (Ne.symm ne)]
          exact h.inside q d x hq

theorem follows_of_reachable (run : (system T client start).Reachable s) : Follows client s := by
  refine run.induct ?_ fun s p t h step => h.step step
  rintro s rfl
  refine ⟨fun before e later eq => ?_, fun p c h => ?_, fun p c x h => ?_⟩
  · exact absurd eq.symm (List.append_ne_nil_of_right_ne_nil _ (List.cons_ne_nil _ _))
  · cases h
  · cases h

end

section
variable {T : Calls L τ ε α} {client : P → List (Outcome ε α) → Option τ} {start : κ → Option ν}
  {s : Shared P κ ν τ ε α} {p : P} {c : τ} {o : Outcome ε α} {t : κ → Option ν}

theorem opens (idle : s.phase p = .idle) (wants : client p (s.answers p) = some c)
    (has : s.store (L.file (T.lock c)) ≠ none) :
    Step T client s p ⟨s.store, Function.update s.phase p (.waiting c), s.log⟩ := by
  have step := Step.open_ (T := T) idle wants
  rwa [Locks.touch_of_has has] at step

theorem leads_done {x : Program κ ν ε α} (inside : s.phase p = .inside c x) :
    (system T client start).Leads s ⟨(x.run s.store).2,
      Function.update s.phase p (.inside c (.done (x.run s.store).1)), s.log⟩ := by
  induction x generalizing s with
  | done o =>
      have same : Function.update s.phase p (.inside c (.done o)) = s.phase :=
        Function.update_eq_self_iff.mpr inside.symm
      change (system T client start).Leads s ⟨s.store, Function.update s.phase p (.inside c (.done o)), s.log⟩
      rw [same]
      exact .refl
  | request r next ih =>
      have turn := ih (r.handle s.store).1 (s := ⟨(r.handle s.store).2,
        Function.update s.phase p (.inside c (next (r.handle s.store).1)), s.log⟩) (Function.update_self ..)
      rw [Function.update_idem] at turn
      exact .trans (.one (.request inside)) turn

/-- A process inside its lock goes through with the rest of its call. -/
theorem leads_rest {x : Program κ ν ε α} (inside : s.phase p = .inside c x)
    (alone : x.run s.store = (o, t)) (ended : o ≠ .timeout) :
    (system T client start).Leads s ⟨t, Function.update s.phase p (after o), s.log ++ [⟨p, c, o⟩]⟩ := by
  have done : (system T client start).Leads s _ := leads_done inside
  rw [alone] at done
  refine done.trans (.one (e := p) ?_)
  have left : Step T client ⟨t, Function.update s.phase p (.inside c (.done o)), s.log⟩ p _ :=
    .leave (Function.update_self ..) ended
  rwa [Function.update_idem] at left

/-- A process that waits for its lock goes on when it is free. -/
theorem leads_waiting (run : (system T client start).Reachable s) (waiting : s.phase p = .waiting c)
    (free : s.Free T (T.lock c)) (alone : T.run c s.store = (o, t)) (ended : o ≠ .timeout) :
    (system T client start).Leads s ⟨t, Function.update s.phase p (after o), s.log ++ [⟨p, c, o⟩]⟩ := by
  have here : (T.body c).run s.store = (o, t) := by
    rw [← alone, Calls.run, Locks.touch_of_has ((serial_of_reachable run).file p c (.inl waiting))]
  have rest : (system T client start).Leads
      ⟨s.store, Function.update s.phase p (.inside c (T.body c)), s.log⟩ _ :=
    leads_rest (Function.update_self ..) here ended
  rw [Function.update_idem] at rest
  exact .trans (.one (.enter waiting free)) rest

/-- A process that finds the lock free can go through with its call alone. -/
theorem leads_call (run : (system T client start).Reachable s) (idle : s.phase p = .idle)
    (wants : client p (s.answers p) = some c) (free : s.Free T (T.lock c)) (alone : T.run c s.store = (o, t))
    (ended : o ≠ .timeout) :
    (system T client start).Leads s ⟨t, Function.update s.phase p (after o), s.log ++ [⟨p, c, o⟩]⟩ := by
  have opened : (system T client start).step s p
      ⟨L.touch (T.lock c) s.store, Function.update s.phase p (.waiting c), s.log⟩ := .open_ idle wants
  have still : Shared.Free T ⟨L.touch (T.lock c) s.store, Function.update s.phase p (.waiting c), s.log⟩
      (T.lock c) := by
    intro q d x hq
    rcases phase_cases hq with ⟨-, eq⟩ | ⟨-, hq⟩
    · cases eq
    · exact free q d x hq
  have here : T.run c (L.touch (T.lock c) s.store) = (o, t) := by
    have has : L.touch (T.lock c) s.store (L.file (T.lock c)) ≠ none :=
      ne_of_eq_of_ne Locks.touch_file (Option.some_ne_none _)
    rw [← alone, Calls.run, Calls.run, Locks.touch_of_has has]
  have rest := leads_waiting (run.step opened) (Function.update_self ..) still here ended
  rw [Function.update_idem] at rest
  exact .trans (.one opened) rest

end

end Shared
end Mio
