import Mathlib.Data.List.Infix
import Mio.Lib.Heap
import Mio.Adapters.PupFrame

/-! `read_frame`: every 0x02 on the bus may start a frame, and all candidates are fed at once. -/
namespace Mio.Adapters

/-- A `pup_frame_t` in the list: how far it has been read is its `index`. -/
structure Candidate where
  frame : PupFrame
  index : ℕ

abbrev Bus := Exec (Heap Candidate) Undefined

/-- The loop that frees all frames of the list but one. -/
def freeOthers (frame : ℕ) : ℕ → Option ℕ → Bus Unit
  | 0, _ => Exec.timeout
  | _ + 1, none => return ()
  | fuel + 1, some tmp => do
      let (_, next) ← Heap.load .dangling tmp
      if tmp ≠ frame then do
        Heap.free .dangling tmp
        freeOthers frame fuel next
      else freeOthers frame fuel next

/-- The loop that takes a frame out of the list and frees it. Returns the list, and the frame behind
the one that was taken out. -/
def remove (frame : ℕ) (list : Option ℕ) : ℕ → Option ℕ → Option ℕ → Bus (Option ℕ × Option ℕ)
  | 0, _, _ => Exec.timeout
  | _ + 1, _, none => return (list, some frame)
  | fuel + 1, prev, some tmp => do
      let (_, next) ← Heap.load .dangling tmp
      if tmp = frame then
        if some tmp = list then do
          Heap.free .dangling tmp
          return (next, next)
        else
          match prev with
          | none => Exec.throw fun _ => .uninitialised
          | some prev => do
              let (candidate, _) ← Heap.load .dangling prev
              Heap.store .dangling prev (candidate, next)
              Heap.free .dangling tmp
              return (list, next)
      else remove frame list fuel (some tmp) next

/-- The loop over the candidates. Returns the completed frame, if there is one, the list, and the
counts for which `append_read_byte` was called. -/
def scan (nbyte : UInt8) : ℕ → Option ℕ → Option ℕ → Bus (Option ℕ × Option ℕ × List ℕ)
  | 0, _, _ => Exec.timeout
  | _ + 1, list, none => return (none, list, [])
  | fuel + 1, list, some frame => do
      let (candidate, next) ← Heap.load .dangling frame
      let (err, read) ← Exec.read fun _ => appendReadByte candidate.frame nbyte candidate.index
      Heap.store .dangling frame (⟨read, candidate.index + 1⟩, next)
      if err = 1 then do
        freeOthers frame fuel list
        return (some frame, list, [candidate.index])
      else if err = -1 then do
        let (list, frame) ← remove frame list fuel none list
        match frame with
        | none => return (none, list, [candidate.index])
        | some frame => do
            -- the loop goes on from the frame behind this one
            let (_, next) ← Heap.load .dangling frame
            let (found, list, seen) ← scan nbyte fuel list next
            return (found, list, candidate.index :: seen)
      else do
        let (found, list, seen) ← scan nbyte fuel list next
        return (found, list, candidate.index :: seen)

def readByte (fuel : ℕ) (nbyte : UInt8) (list : Option ℕ) : Bus (Option ℕ × Option ℕ × List ℕ) := do
  if nbyte = 0x02 then do
    let frame ← Heap.alloc (⟨newPupFrame 0 0 0, 0⟩, list)
    scan nbyte fuel (some frame) (some frame)
  else scan nbyte fuel list list

/-- `read_frame` on the bytes that `read` delivers until the end of the file, and for each byte the
counts for which `append_read_byte` was called. -/
def readFrame (fuel : ℕ) : List UInt8 → Option ℕ → Bus (Option PupFrame × List (List ℕ))
  | [], _ => return (none, [])
  | nbyte :: bytes, list => do
      let (found, list, seen) ← readByte fuel nbyte list
      match found with
      | some frame => do
          let (candidate, _) ← Heap.load .dangling frame
          return (some candidate.frame, [seen])
      | none => do
          let (found, log) ← readFrame fuel bytes list
          return (found, seen :: log)

/-- What became of the candidates at a byte. -/
structure Pass (κ : Type) where
  found : Option (κ × List UInt8)
  left : List (κ × List UInt8)
  seen : List ℕ

def Pass.after {κ : Type} (count : ℕ) (c : κ × List UInt8) (on : Pass κ) : Pass κ :=
  ⟨on.found, c :: on.left, count :: on.seen⟩

/-- The loop over the candidates, newest first: behind one that is discarded the next one is left
out. -/
def pass {κ : Type} (nbyte : UInt8) : List (κ × List UInt8) → Pass κ
  | [] => ⟨none, [], []⟩
  | (p, bytes) :: rest =>
      if verdict bytes nbyte = 1 then ⟨some (p, bytes), rest, [bytes.length]⟩
      else if verdict bytes nbyte = -1 then
        match rest with
        | [] => ⟨none, [], [bytes.length]⟩
        | skipped :: rest => (pass nbyte rest).after bytes.length skipped
      else (pass nbyte rest).after bytes.length (p, bytes ++ [nbyte])

section Pass
variable {κ : Type} {nbyte : UInt8} {p : κ} {bytes : List UInt8} {rest : List (κ × List UInt8)}

theorem pass_complete (complete : verdict bytes nbyte = 1) :
    pass nbyte ((p, bytes) :: rest) = ⟨some (p, bytes), rest, [bytes.length]⟩ := by
  cases rest <;> exact if_pos complete

theorem pass_last (bad : verdict bytes nbyte = -1) :
    pass nbyte [(p, bytes)] = ⟨none, [], [bytes.length]⟩ := by
  rw [pass, bad]
  rfl

theorem pass_discard (bad : verdict bytes nbyte = -1) (skipped : κ × List UInt8) :
    pass nbyte ((p, bytes) :: skipped :: rest) = (pass nbyte rest).after bytes.length skipped := by
  rw [pass, bad]
  rfl

theorem pass_open (zero : verdict bytes nbyte = 0) :
    pass nbyte ((p, bytes) :: rest) = (pass nbyte rest).after bytes.length (p, bytes ++ [nbyte]) := by
  have complete : ¬ verdict bytes nbyte = 1 := by
    rw [zero]
    decide
  have bad : ¬ verdict bytes nbyte = -1 := by
    rw [zero]
    decide
  cases rest <;> exact (if_neg complete).trans (if_neg bad)

end Pass

open Heap

/-- The node of a candidate that was fed these bytes. -/
def node (c : ℕ × List UInt8) : ℕ × Candidate := (c.1, ⟨frameOf c.2, c.2.length⟩)

section Loops
variable {h : Heap Candidate} {l a b : List (ℕ × Candidate)} {p : ℕ} {x : Candidate}

/-- Every frame but one is freed, each of them once. -/
theorem freeOthers_done (linked : Linked h l) :
    ∃ h', Exec.Reaches (fun fuel => freeOthers p fuel (first l none)) h () h' ∧
      h'.nodes p = h.nodes p := by
  induction l generalizing h with
  | nil => exact ⟨h, .step (fun _ => rfl) (.of_ret fun _ => rfl), rfl⟩
  | cons c l ih =>
      obtain ⟨q, y⟩ := c
      have here : h.nodes q = some (y, first l none) := linked.segment.1
      by_cases same : q = p
      · obtain ⟨h', loop, kept⟩ := ih linked.behind
        refine ⟨h', .step (fun _ => rfl) (.bind (.of_ret fun _ => load_done _ here) ?_), kept⟩
        simpa only [ne_eq, same, not_true_eq_false, if_false] using loop
      · obtain ⟨h', loop, kept⟩ := ih (linked.pop none)
        refine ⟨h', .step (fun _ => rfl) (.bind (.of_ret fun _ => load_done _ here) ?_),
          kept.trans (set_of_ne h (Ne.symm same) _)⟩
        simp only [ne_eq, same, not_false_eq_true, if_true]
        exact .bind (.of_ret fun _ => free_done _ here) loop

theorem remove_done {list : Option ℕ} (front : List (ℕ × Candidate))
    (linked : Linked h (front ++ (a ++ (p, x) :: b)))
    (start : list = first (front ++ (a ++ (p, x) :: b)) none) :
    ∃ h', Exec.Reaches (fun fuel => remove p list fuel (front.getLast?.map Prod.fst)
        (first (a ++ (p, x) :: b) none)) h (first (front ++ (a ++ b)) none, first b none) h' ∧
      Linked h' (front ++ (a ++ b)) := by
  induction a generalizing front with
  | nil =>
      have here : h.nodes p = some (x, first b none) := linked.at_
      rcases List.eq_nil_or_concat front with rfl | ⟨front, ⟨q, y⟩, rfl⟩
      · refine ⟨h.set p none, .step (fun _ => rfl) (.bind (.of_ret fun _ => load_done _ here) ?_),
          linked.pop none⟩
        have head : some p = list := start.symm
        simp only [if_true, head]
        exact .bind (.of_ret fun _ => free_done _ here) (.of_ret fun _ => rfl)
      · rw [List.concat_eq_append] at linked start ⊢
        have before : h.nodes q = some (y, some p) := by
          rw [List.append_assoc] at linked
          exact linked.at_
        obtain ⟨out, -⟩ := linked.apart
        have head : ¬ some p = list := by
          rw [start]
          exact fun eq => first_ne (by simp) out eq.symm
        have ne : p ≠ q := by
          rintro rfl
          exact out (by simp)
        refine ⟨(h.set q (some (y, first b none))).set p none,
          .step (fun _ => rfl) (.bind (.of_ret fun _ => load_done _ here) ?_), ?_⟩
        · simp only [if_true, head, if_false, List.getLast?_append, List.getLast?_singleton]
          refine .bind (.of_ret fun _ => load_done _ before) ?_
          refine .bind (.of_ret fun _ => store_done _ before _) ?_
          refine .bind (.of_ret fun _ => free_done _ ((set_of_ne h ne _).trans here)) ?_
          refine .of_ret fun _ => ?_
          rw [start, List.append_assoc, List.append_assoc, first_append, first_append front]
          rfl
        · rw [List.append_assoc] at linked ⊢
          exact linked.skip none
  | cons c a ih =>
      obtain ⟨q, y⟩ := c
      have here : h.nodes q = some (y, first (a ++ (p, x) :: b) none) := linked.at_
      have ne : q ≠ p := by
        rintro rfl
        exact linked.apart.2 (by simp)
      have next := ih (front ++ [(q, y)]) (by simpa using linked) (by simpa using start)
      obtain ⟨h', loop, rest⟩ := next
      refine ⟨h', .step (fun _ => rfl) (.bind (.of_ret fun _ => load_done _ here) ?_), by simpa using rest⟩
      simp only [ne, if_false]
      simpa using loop

theorem verdict_cases (bytes : List UInt8) (nbyte : UInt8) :
    verdict bytes nbyte = 1 ∨ verdict bytes nbyte = -1 ∨ verdict bytes nbyte = 0 := by
  unfold verdict
  split
  · exact .inr (.inl rfl)
  · split
    · split
      · exact .inl rfl
      · exact .inr (.inl rfl)
    · exact .inr (.inr rfl)

/-- The loop over the candidates does to the list in memory what `pass` does to the candidates. -/
theorem scan_done {nbyte : UInt8} {todo done : List (ℕ × List UInt8)}
    (linked : Linked h ((done ++ todo).map node)) (begins : ∀ c ∈ todo, Begins c.2) :
    ∃ list h', Exec.Reaches (fun fuel => scan nbyte fuel (first ((done ++ todo).map node) none)
        (first (todo.map node) none)) h
        ((pass nbyte todo).found.map Prod.fst, list, (pass nbyte todo).seen) h' ∧
      ((pass nbyte todo).found = none → list = first ((done ++ (pass nbyte todo).left).map node) none ∧
        Linked h' ((done ++ (pass nbyte todo).left).map node)) ∧
      ∀ c, (pass nbyte todo).found = some c →
        ∃ index next, h'.nodes c.1 = some (⟨frameOf c.2, index⟩, next) := by
  fun_induction pass nbyte todo generalizing done h with
  | case1 =>
      refine ⟨_, h, .step (fun _ => rfl) (.of_ret fun _ => rfl), fun _ => ⟨rfl, linked⟩, ?_⟩
      rintro c ⟨⟩
  | case2 p bytes rest complete =>
      obtain ⟨frame, read, -, same⟩ := appendReadByte_frameOf (begins _ List.mem_cons_self) nbyte
      rw [complete] at read
      obtain rfl := same complete
      rw [List.map_append, List.map_cons] at linked ⊢
      have here : h.nodes p = some (⟨frameOf bytes, bytes.length⟩, first (rest.map node) none) := linked.at_
      have put := linked.put ⟨frameOf bytes, bytes.length + 1⟩
      obtain ⟨h', freed, kept⟩ := @freeOthers_done _ _ p put
      refine ⟨first (done.map node ++ node (p, bytes) :: rest.map node) none, h', .step (fun _ => rfl)
        (.bind (.of_ret fun _ => load_done _ here) <| .bind (.of_ret fun _ => Exec.read_of_ret read) <|
        .bind (.of_ret fun _ => store_done _ here _) ?_), fun none => (nomatch none), ?_⟩
      · rw [node, first_put _ _ _ _ ⟨frameOf bytes, bytes.length + 1⟩]
        exact .bind freed (.of_ret fun _ => rfl)
      · rintro c ⟨⟩
        exact ⟨_, _, kept.trans (set_self _ _ _)⟩
  | case3 p bytes _ bad =>
      obtain ⟨frame, read, -⟩ := appendReadByte_frameOf (begins _ List.mem_cons_self) nbyte
      rw [bad] at read
      rw [List.map_append, List.map_cons] at linked ⊢
      have here : h.nodes p = some (⟨frameOf bytes, bytes.length⟩, first ([].map node) none) := linked.at_
      have put := linked.put ⟨frame, bytes.length + 1⟩
      obtain ⟨h', removed, linked'⟩ := remove_done [] put rfl
      refine ⟨first ((done ++ []).map node) none, h', .step (fun _ => rfl)
        (.bind (.of_ret fun _ => load_done _ here) <| .bind (.of_ret fun _ => Exec.read_of_ret read) <|
        .bind (.of_ret fun _ => store_done _ here _) ?_), fun _ => ⟨rfl, ?_⟩,
        fun c found => (nomatch found)⟩
      · rw [node, first_put _ _ _ _ ⟨frame, bytes.length + 1⟩, List.map_append]
        exact .bind removed (.of_ret fun _ => rfl)
      · rw [List.map_append]
        exact linked'
  | case4 p bytes _ bad skipped rest ih =>
      obtain ⟨frame, read, -⟩ := appendReadByte_frameOf (begins _ List.mem_cons_self) nbyte
      rw [bad] at read
      rw [List.map_append, List.map_cons] at linked ⊢
      have here : h.nodes p = some (⟨frameOf bytes, bytes.length⟩,
        first ((skipped :: rest).map node) none) := linked.at_
      have put := linked.put ⟨frame, bytes.length + 1⟩
      obtain ⟨h₁, removed, linked₁⟩ := remove_done [] put rfl
      have behind : h₁.nodes skipped.1 = some ((node skipped).2, first (rest.map node) none) :=
        linked₁.at_
      have split : done.map node ++ (skipped :: rest).map node =
          (done ++ [skipped] ++ rest).map node := by simp
      rw [List.nil_append, split] at linked₁ removed
      obtain ⟨list, h', loop, open_, found⟩ := ih linked₁ fun c mem =>
        begins c (List.mem_cons_of_mem _ (List.mem_cons_of_mem _ mem))
      refine ⟨list, h', .step (fun _ => rfl)
        (.bind (.of_ret fun _ => load_done _ here) <| .bind (.of_ret fun _ => Exec.read_of_ret read) <|
        .bind (.of_ret fun _ => store_done _ here _) ?_), fun none => ?_, found⟩
      · rw [node, first_put _ _ _ _ ⟨frame, bytes.length + 1⟩]
        refine .bind removed (.bind (.of_ret fun _ => load_done _ behind) ?_)
        exact .bind loop (.of_ret fun _ => rfl)
      · have rest := open_ none
        rwa [List.append_assoc] at rest
  | case5 p bytes rest open_ open' ih =>
      have zero := ((verdict_cases bytes nbyte).resolve_left open_).resolve_left open'
      obtain ⟨frame, read, same, -⟩ := appendReadByte_frameOf (begins _ List.mem_cons_self) nbyte
      rw [zero] at read
      obtain rfl := same zero
      rw [List.map_append, List.map_cons] at linked ⊢
      have here : h.nodes p = some (⟨frameOf bytes, bytes.length⟩, first (rest.map node) none) := linked.at_
      have put := linked.put ⟨frameOf (bytes ++ [nbyte]), bytes.length + 1⟩
      have split : done.map node ++ (p, ⟨frameOf (bytes ++ [nbyte]), bytes.length + 1⟩) :: rest.map node =
          (done ++ [(p, bytes ++ [nbyte])] ++ rest).map node := by simp [node]
      rw [split] at put
      obtain ⟨list, h', loop, open_, found⟩ := ih put fun c mem => begins c (List.mem_cons_of_mem _ mem)
      refine ⟨list, h', .step (fun _ => rfl)
        (.bind (.of_ret fun _ => load_done _ here) <| .bind (.of_ret fun _ => Exec.read_of_ret read) <|
        .bind (.of_ret fun _ => store_done _ here _) ?_), fun none => ?_, found⟩
      · rw [node, first_put _ _ _ _ ⟨frameOf (bytes ++ [nbyte]), bytes.length + 1⟩, split]
        exact .bind loop (.of_ret fun _ => rfl)
      · have rest := open_ none
        rwa [List.append_assoc] at rest

end Loops

/-- The candidates at a byte: a 0x02 adds one. -/
def enter (nbyte : UInt8) (open_ : List (List UInt8)) : List (List UInt8) :=
  if nbyte = 0x02 then [] :: open_ else open_

def unkeyed (open_ : List (List UInt8)) : List (Unit × List UInt8) := open_.map fun bytes => ((), bytes)

/-- What `read_frame` comes to: the bytes before the checkbyte of the frame it returns, and the
counts. -/
def follow : List UInt8 → List (List UInt8) → Option (List UInt8) × List (List ℕ)
  | [], _ => (none, [])
  | nbyte :: bytes, open_ =>
      let now := pass nbyte (unkeyed (enter nbyte open_))
      match now.found with
      | some c => (some c.2, [now.seen])
      | none =>
          let on := follow bytes (now.left.map Prod.snd)
          (on.1, now.seen :: on.2)

structure Kept (bytes : List UInt8) : Prop where
  begins : Begins bytes
  some_ : bytes ≠ []

theorem Begins.append {bytes : List UInt8} {nbyte : UInt8} (h : Begins bytes)
    (zero : verdict bytes nbyte = 0) (first : bytes = [] → nbyte = 0x02) : Kept (bytes ++ [nbyte]) := by
  refine ⟨⟨?_, fun late => ?_⟩, by simp⟩
  · cases bytes with
    | nil => exact first rfl
    | cons start bytes => exact h.start
  · rw [List.length_append, List.length_singleton] at late ⊢
    rcases Nat.lt_or_ge lengthAt bytes.length with later | here
    · have same : announced (bytes ++ [nbyte]) = announced bytes := by
        rw [announced, announced, List.getD_append _ _ _ _ later]
      obtain ⟨long, le⟩ := h.open_ later
      refine ⟨by rw [same]; exact long, ?_⟩
      rcases Nat.eq_or_lt_of_le le with last | more
      · rw [verdict_last later last] at zero
        split at zero <;> cases zero
      · rw [same]
        exact more
    · have size : bytes.length = lengthAt := le_antisymm here (Nat.le_of_lt_succ late)
      have read : announced (bytes ++ [nbyte]) = nbyte.toNat := by
        rw [announced, ← size, List.getD_append_right _ _ _ _ le_rfl, Nat.sub_self]
        rfl
      rw [verdict_length size] at zero
      have good : headerLength ≤ nbyte.toNat := by
        by_contra bad
        rw [if_pos (not_le.mp bad)] at zero
        cases zero
      rw [read, size]
      exact ⟨good, good.trans' (by decide)⟩

section Keys
variable {κ κ' : Type} {nbyte : UInt8}

theorem pass_map (g : κ → κ') (cs : List (κ × List UInt8)) :
    pass nbyte (cs.map (Prod.map g id)) = ⟨(pass nbyte cs).found.map (Prod.map g id),
      (pass nbyte cs).left.map (Prod.map g id), (pass nbyte cs).seen⟩ := by
  fun_induction pass nbyte cs with
  | case1 => rfl
  | case2 p bytes rest complete => exact pass_complete complete
  | case3 p bytes _ bad => exact pass_last bad
  | case4 p bytes _ bad skipped rest ih =>
      rw [List.map_cons, List.map_cons]
      exact (pass_discard bad _).trans (congrArg (Pass.after bytes.length (Prod.map g id skipped)) ih)
  | case5 p bytes rest complete bad ih =>
      have zero := ((verdict_cases bytes nbyte).resolve_left complete).resolve_left bad
      exact (pass_open zero).trans (congrArg (Pass.after bytes.length (g p, bytes ++ [nbyte])) ih)

theorem pass_kept {cs : List (κ × List UInt8)} (h : ∀ c ∈ cs, Kept c.2) :
    ∀ c ∈ (pass nbyte cs).left, Kept c.2 := by
  fun_induction pass nbyte cs with
  | case1 => simp
  | case2 p bytes rest complete => exact fun c mem => h c (List.mem_cons_of_mem _ mem)
  | case3 p bytes complete bad => simp
  | case4 p bytes complete bad skipped rest ih =>
      intro c mem
      rcases List.mem_cons.mp mem with rfl | mem
      · exact h c (List.mem_cons_of_mem _ List.mem_cons_self)
      · exact ih (fun c mem => h c (List.mem_cons_of_mem _ (List.mem_cons_of_mem _ mem))) c mem
  | case5 p bytes rest complete bad ih =>
      intro c mem
      rcases List.mem_cons.mp mem with rfl | mem
      · have kept := h _ List.mem_cons_self
        have zero := ((verdict_cases bytes nbyte).resolve_left complete).resolve_left bad
        exact kept.begins.append zero fun none => (kept.some_ none).elim
      · exact ih (fun c mem => h c (List.mem_cons_of_mem _ mem)) c mem

end Keys

section Refinement
variable {nbyte : UInt8} {h : Heap Candidate} {cs : List (ℕ × List UInt8)}

/-- The candidates at a byte, with the address the new one gets. -/
def entered (nbyte : UInt8) (fresh : ℕ) (cs : List (ℕ × List UInt8)) : List (ℕ × List UInt8) :=
  if nbyte = 0x02 then (fresh, []) :: cs else cs

theorem unkeyed_entered (nbyte : UInt8) (fresh : ℕ) (cs : List (ℕ × List UInt8)) :
    unkeyed (enter nbyte (cs.map Prod.snd)) =
      (entered nbyte fresh cs).map (Prod.map (fun _ => ()) id) := by
  unfold unkeyed enter entered
  split <;> simp [Function.comp_def]

theorem entered_kept (fresh : ℕ) (kept : ∀ c ∈ cs, Kept c.2) :
    (∀ c ∈ entered nbyte fresh cs, Begins c.2) ∧
      ∀ c ∈ (pass nbyte (entered nbyte fresh cs)).left, Kept c.2 := by
  by_cases start : nbyte = 0x02
  · have early : verdict [] nbyte = 0 := verdict_early (by decide)
    rw [entered, if_pos start, pass_open early]
    constructor
    · intro c mem
      rcases List.mem_cons.mp mem with rfl | mem
      · exact begins_nil
      · exact (kept c mem).begins
    · intro c mem
      rcases List.mem_cons.mp mem with rfl | mem
      · exact begins_nil.append early fun _ => start
      · exact pass_kept kept c mem
  · rw [entered, if_neg start]
    exact ⟨fun c mem => (kept c mem).begins, pass_kept kept⟩

theorem readByte_done (linked : Linked h (cs.map node)) (kept : ∀ c ∈ cs, Kept c.2) :
    ∃ list h', Exec.Reaches (fun fuel => readByte fuel nbyte (first (cs.map node) none)) h
        ((pass nbyte (entered nbyte h.fresh cs)).found.map Prod.fst, list,
          (pass nbyte (entered nbyte h.fresh cs)).seen) h' ∧
      ((pass nbyte (entered nbyte h.fresh cs)).found = none →
        list = first ((pass nbyte (entered nbyte h.fresh cs)).left.map node) none ∧
        Linked h' ((pass nbyte (entered nbyte h.fresh cs)).left.map node)) ∧
      ∀ c, (pass nbyte (entered nbyte h.fresh cs)).found = some c →
        ∃ index next, h'.nodes c.1 = some (⟨frameOf c.2, index⟩, next) := by
  have begins := (@entered_kept nbyte cs h.fresh kept).1
  by_cases start : nbyte = 0x02
  · have pushed := linked.push ⟨frameOf [], 0⟩
    have same : (entered nbyte h.fresh cs).map node =
        (h.fresh, ⟨frameOf [], 0⟩) :: cs.map node := by
      rw [entered, if_pos start]
      rfl
    rw [← same] at pushed
    obtain ⟨list, h', loop, open_, found⟩ := @scan_done _ nbyte (entered nbyte h.fresh cs) [] pushed begins
    refine ⟨list, h', ?_, open_, found⟩
    rw [List.nil_append, same] at loop
    simp only [readByte, start, if_true]
    rw [start] at loop
    exact .bind (.of_ret fun _ => rfl) loop
  · have same : entered nbyte h.fresh cs = cs := if_neg start
    rw [same] at begins ⊢
    obtain ⟨list, h', loop, open_, found⟩ := @scan_done _ nbyte cs [] linked begins
    refine ⟨list, h', ?_, open_, found⟩
    simp only [readByte, start, if_false]
    exact loop

/-- The reader in memory does what the reader without memory does, and never touches a frame that
was freed. -/
theorem readFrame_done {bytes : List UInt8} (linked : Linked h (cs.map node))
    (kept : ∀ c ∈ cs, Kept c.2) :
    ∃ h', Exec.Reaches (fun fuel => readFrame fuel bytes (first (cs.map node) none)) h
      ((follow bytes (cs.map Prod.snd)).1.map frameOf, (follow bytes (cs.map Prod.snd)).2) h' := by
  induction bytes generalizing cs h with
  | nil => exact ⟨h, .of_ret fun _ => rfl⟩
  | cons nbyte bytes ih =>
      obtain ⟨list, h₁, now, open_, complete⟩ := @readByte_done nbyte h cs linked kept
      have left := (@entered_kept nbyte cs h.fresh kept).2
      have erased := @pass_map _ _ nbyte (fun _ => ()) (entered nbyte h.fresh cs)
      rw [← unkeyed_entered] at erased
      rw [follow]
      simp only [erased]
      generalize pass nbyte (entered nbyte h.fresh cs) = result at now open_ complete left
      obtain ⟨found, rest, seen⟩ := result
      cases found with
      | some c =>
          obtain ⟨index, next, here⟩ := complete c rfl
          refine ⟨h₁, .bind now (.bind (.of_ret fun _ => load_done _ here) (.of_ret fun _ => rfl))⟩
      | none =>
          obtain ⟨rfl, linked₁⟩ := open_ rfl
          obtain ⟨h', on⟩ := ih linked₁ left
          refine ⟨h', .bind now (.bind on (.of_ret fun _ => ?_))⟩
          simp [Function.comp_def]

end Refinement

def Complete (bytes : List UInt8) : Prop := ∃ body, Ordinary body ∧ body ++ [checkbyte body] <:+ bytes

theorem begins_iff {bytes : List UInt8} : Begins bytes ↔ bytes.headD 0x02 = 0x02 ∧
    (lengthAt < bytes.length → headerLength ≤ announced bytes ∧ bytes.length ≤ announced bytes) :=
  ⟨fun h => ⟨h.start, h.open_⟩, fun h => ⟨h.1, h.2⟩⟩

instance : DecidablePred Begins := fun _ => decidable_of_iff' _ begins_iff

instance : DecidablePred Kept := fun bytes =>
  decidable_of_iff (Begins bytes ∧ bytes ≠ []) ⟨fun h => ⟨h.1, h.2⟩, fun h => ⟨h.begins, h.some_⟩⟩

/-- The ends of these bytes that begin an ordinary frame and do not end it, the shortest first. -/
def candidates (bytes : List UInt8) : List (List UInt8) := bytes.tails.reverse.filter fun v => Kept v

/-- The counts with which the candidates see a byte: each of them once, up to one that it completes. -/
def due (nbyte : UInt8) : List (List UInt8) → List ℕ
  | [] => []
  | bytes :: open_ =>
      if verdict bytes nbyte = 1 then [bytes.length] else bytes.length :: due nbyte open_

/-- The byte discards no candidate in front of an older one, unless it completes a newer one. -/
def Undisturbed (nbyte : UInt8) (open_ : List (List UInt8)) : Prop :=
  ∀ newer bytes older, open_ = newer ++ bytes :: older → verdict bytes nbyte = -1 → older ≠ [] →
    ∃ first ∈ newer, verdict first nbyte = 1

/-- Behind the bytes `before` the reader is to deal with `bytes` like this: each byte goes once to each
candidate there is, and the first frame that is complete is returned. -/
structure Proper (before bytes : List UInt8) (found : Option PupFrame) (log : List (List ℕ)) : Prop where
  calls : ∀ k seen, log[k]? = some seen → ∃ nbyte, bytes[k]? = some nbyte ∧
    seen = due nbyte (enter nbyte (candidates (before ++ bytes.take k)))
  first : ∀ k < log.length, ¬ Complete (before ++ bytes.take k)
  result : (∃ body, found = some (frameOf body) ∧ Ordinary body ∧
      body ++ [checkbyte body] <:+ before ++ bytes.take log.length ∧ log.length ≤ bytes.length) ∨
    found = none ∧ log.length = bytes.length ∧ ¬ Complete (before ++ bytes)

/-- `read_frame` synchronises on these bytes, and uses no frame after it was freed. -/
def Resyncs (bytes : List UInt8) : Prop :=
  ∃ found log h, Exec.Reaches (fun fuel => readFrame fuel bytes none) Heap.empty (found, log) h ∧
    Proper [] bytes found log

/-- As long as no frame is complete, no byte of `bytes` disturbs the candidates. -/
def Orderly (before bytes : List UInt8) : Prop :=
  ∀ k nbyte, bytes[k]? = some nbyte → (∀ j ≤ k, ¬ Complete (before ++ bytes.take j)) →
    Undisturbed nbyte (enter nbyte (candidates (before ++ bytes.take k)))

section Candidates
variable {bytes before : List UInt8} {nbyte : UInt8}

theorem mem_candidates {v : List UInt8} : v ∈ candidates bytes ↔ v <:+ bytes ∧ Kept v := by
  simp [candidates]

theorem kept_append {v : List UInt8} :
    Kept (v ++ [nbyte]) ↔ Begins v ∧ verdict v nbyte = 0 ∧ (v = [] → nbyte = 0x02) := by
  constructor
  · intro h
    have late : lengthAt < v.length → announced (v ++ [nbyte]) = announced v := fun later => by
      rw [announced, announced, List.getD_append _ _ _ _ later]
    have size : (v ++ [nbyte]).length = v.length + 1 := by simp
    refine ⟨⟨?_, fun later => ?_⟩, ?_, ?_⟩
    · cases v with
      | nil => rfl
      | cons start v => exact h.begins.start
    · obtain ⟨long, le⟩ := h.begins.open_ (by rw [size]; exact Nat.lt_succ_of_lt later)
      rw [late later] at long le
      rw [size] at le
      exact ⟨long, (Nat.le_succ _).trans le⟩
    · rcases lt_trichotomy v.length lengthAt with early | here | later
      · exact verdict_early early
      · have read : announced (v ++ [nbyte]) = nbyte.toNat := by
          rw [announced, ← here, List.getD_append_right _ _ _ _ le_rfl, Nat.sub_self]
          rfl
        have long := (h.begins.open_ (by rw [size, here]; exact Nat.lt_succ_self _)).1
        rw [read] at long
        rw [verdict_length here, if_neg (not_lt.mpr long)]
      · have le := (h.begins.open_ (by rw [size]; exact Nat.lt_succ_of_lt later)).2
        rw [late later, size] at le
        exact verdict_open later (Nat.ne_of_lt le)
    · rintro rfl
      exact h.begins.start
  · rintro ⟨begins, zero, first⟩
    exact begins.append zero first

theorem tails_eq (bytes : List UInt8) :
    ∃ longer, bytes.tails.reverse = [] :: longer ∧ ∀ v ∈ longer, v ≠ [] := by
  induction bytes with
  | nil => exact ⟨[], rfl, by simp⟩
  | cons a bytes ih =>
      obtain ⟨longer, eq, some⟩ := ih
      refine ⟨longer ++ [a :: bytes], by simp [eq], fun v mem => ?_⟩
      rcases List.mem_append.mp mem with mem | mem
      · exact some v mem
      · rw [List.mem_singleton.mp mem]
        exact List.cons_ne_nil _ _

theorem candidates_append (bytes : List UInt8) (nbyte : UInt8) :
    candidates (bytes ++ [nbyte]) =
      ((enter nbyte (candidates bytes)).filter fun v => verdict v nbyte = 0).map (· ++ [nbyte]) := by
  obtain ⟨longer, eq, some⟩ := tails_eq bytes
  have none : ¬ Kept [] := fun kept => kept.some_ rfl
  have old : candidates bytes = longer.filter fun v => Kept v := by
    rw [candidates, eq, List.filter_cons_of_neg (by simpa using none)]
  have new : candidates (bytes ++ [nbyte]) =
      (([] :: longer).filter fun v => Kept (v ++ [nbyte])).map (· ++ [nbyte]) := by
    rw [candidates, List.tails_append, List.reverse_append, ← List.map_reverse, eq]
    simp only [List.tails, List.tail_cons, List.reverse_singleton, List.singleton_append]
    rw [List.filter_cons_of_neg (by simpa using none), List.filter_map]
    rfl
  have rest : (longer.filter fun v => Kept (v ++ [nbyte])) =
      (longer.filter fun v => Kept v).filter fun v => verdict v nbyte = 0 := by
    rw [List.filter_filter]
    refine List.filter_congr fun v mem => ?_
    have proper := some v mem
    rw [← Bool.decide_and, decide_eq_decide, kept_append]
    constructor
    · rintro ⟨begins, zero, -⟩
      exact ⟨zero, begins, proper⟩
    · rintro ⟨zero, kept⟩
      exact ⟨kept.begins, zero, fun eq => (proper eq).elim⟩
  have early : verdict [] nbyte = 0 := verdict_early (by decide)
  rw [new, old]
  by_cases start : nbyte = 0x02
  · have one : Kept ([] ++ [nbyte]) := kept_append.mpr ⟨begins_nil, early, fun _ => start⟩
    rw [enter, if_pos start, List.filter_cons_of_pos (by simpa using one), rest,
      List.filter_cons_of_pos (by simpa using early)]
  · have no : ¬ Kept ([] ++ [nbyte]) := fun kept => start ((kept_append.mp kept).2.2 rfl)
    rw [enter, if_neg start, List.filter_cons_of_neg (by simpa using no), rest]

end Candidates

section Undisturbed
variable {κ : Type} {nbyte : UInt8}

theorem undisturbed_cons {bytes : List UInt8} {open_ : List (List UInt8)} :
    Undisturbed nbyte (bytes :: open_) ↔ verdict bytes nbyte = 1 ∨
      (verdict bytes nbyte = -1 → open_ = []) ∧ Undisturbed nbyte open_ := by
  constructor
  · intro h
    by_cases complete : verdict bytes nbyte = 1
    · exact .inl complete
    · refine .inr ⟨fun bad => ?_, fun newer v older eq bad some => ?_⟩
      · by_contra some
        obtain ⟨_, none, -⟩ := h [] bytes open_ rfl bad some
        cases none
      · obtain ⟨first, mem, done⟩ := h (bytes :: newer) v older (by rw [eq]; rfl) bad some
        rcases List.mem_cons.mp mem with rfl | mem
        · exact (complete done).elim
        · exact ⟨first, mem, done⟩
  · intro h newer v older eq bad some
    cases newer with
    | nil =>
        cases eq
        rcases h with complete | ⟨last, -⟩
        · rw [bad] at complete
          cases complete
        · exact (some (last bad)).elim
    | cons first newer =>
        cases eq
        rcases h with complete | ⟨-, rest⟩
        · exact ⟨_, List.mem_cons_self, complete⟩
        · obtain ⟨x, mem, done⟩ := rest newer v older rfl bad some
          exact ⟨x, List.mem_cons_of_mem _ mem, done⟩

theorem seen_mem {cs : List (κ × List UInt8)} {count : ℕ} (mem : count ∈ (pass nbyte cs).seen) :
    ∃ c ∈ cs, c.2.length = count := by
  fun_induction pass nbyte cs with
  | case1 => cases mem
  | case2 p bytes rest complete => exact ⟨_, List.mem_cons_self, (List.mem_singleton.mp mem).symm⟩
  | case3 p bytes complete bad => exact ⟨_, List.mem_cons_self, (List.mem_singleton.mp mem).symm⟩
  | case4 p bytes complete bad skipped rest ih =>
      rcases List.mem_cons.mp mem with rfl | mem
      · exact ⟨_, List.mem_cons_self, rfl⟩
      · obtain ⟨c, mem, eq⟩ := ih mem
        exact ⟨c, List.mem_cons_of_mem _ (List.mem_cons_of_mem _ mem), eq⟩
  | case5 p bytes rest complete bad ih =>
      rcases List.mem_cons.mp mem with rfl | mem
      · exact ⟨_, List.mem_cons_self, rfl⟩
      · obtain ⟨c, mem, eq⟩ := ih mem
        exact ⟨c, List.mem_cons_of_mem _ mem, eq⟩

theorem undisturbed_of_seen {cs : List (κ × List UInt8)}
    (sorted : (cs.map Prod.snd).Pairwise fun a b => a.length < b.length)
    (all : (pass nbyte cs).seen = due nbyte (cs.map Prod.snd)) :
    Undisturbed nbyte (cs.map Prod.snd) := by
  fun_induction pass nbyte cs with
  | case1 =>
      intro newer v older eq
      cases newer <;> cases eq
  | case2 p bytes rest complete => exact undisturbed_cons.mpr (.inl complete)
  | case3 p bytes complete bad =>
      refine undisturbed_cons.mpr (.inr ⟨fun _ => rfl, fun newer v older eq => ?_⟩)
      cases newer <;> cases eq
  | case4 p bytes complete bad skipped rest ih =>
      exfalso
      rw [List.map_cons, due, if_neg complete, List.map_cons, due] at all
      have mem : skipped.2.length ∈ (pass nbyte rest).seen := by
        rw [(List.cons.inj all).2]
        split
        · exact List.mem_singleton.mpr rfl
        · exact List.mem_cons_self
      obtain ⟨c, inside, eq⟩ := seen_mem mem
      have later := (List.pairwise_cons.mp (List.pairwise_cons.mp sorted).2).1 c.2
        (List.mem_map_of_mem inside)
      exact later.ne eq.symm
  | case5 p bytes rest complete bad ih =>
      rw [List.map_cons, due, if_neg complete] at all
      refine undisturbed_cons.mpr (.inr ⟨fun bad' => (bad bad').elim, ?_⟩)
      exact ih (List.pairwise_cons.mp sorted).2 (List.cons.inj all).2

/-- No candidate is left out: all that are valid stay, or one is complete. -/
theorem pass_of_undisturbed {cs : List (κ × List UInt8)}
    (calm : Undisturbed nbyte (cs.map Prod.snd)) :
    (pass nbyte cs).seen = due nbyte (cs.map Prod.snd) ∧
      ((pass nbyte cs).found = none ∧ (∀ c ∈ cs, verdict c.2 nbyte ≠ 1) ∧
        (pass nbyte cs).left.map Prod.snd =
          ((cs.map Prod.snd).filter fun v => verdict v nbyte = 0).map (· ++ [nbyte]) ∨
      ∃ c ∈ cs, (pass nbyte cs).found = some c ∧ verdict c.2 nbyte = 1) := by
  fun_induction pass nbyte cs with
  | case1 => exact ⟨rfl, .inl ⟨rfl, by simp, rfl⟩⟩
  | case2 p bytes rest complete =>
      refine ⟨?_, .inr ⟨_, List.mem_cons_self, rfl, complete⟩⟩
      rw [List.map_cons, due, if_pos complete]
  | case3 p bytes complete bad =>
      refine ⟨?_, .inl ⟨rfl, by simpa using complete, ?_⟩⟩
      · rw [List.map_cons, due, if_neg complete]
        rfl
      · rw [List.map_cons, List.filter_cons_of_neg (by simp [bad])]
        rfl
  | case4 p bytes complete bad skipped rest ih =>
      rcases undisturbed_cons.mp calm with done | ⟨last, -⟩
      · exact (complete done).elim
      · cases last bad
  | case5 p bytes rest complete bad ih =>
      have zero := ((verdict_cases bytes nbyte).resolve_left complete).resolve_left bad
      rcases undisturbed_cons.mp calm with done | ⟨-, calm⟩
      · exact (complete done).elim
      · obtain ⟨all, on⟩ := ih calm
        refine ⟨?_, ?_⟩
        · rw [List.map_cons, due, if_neg complete, ← all]
          rfl
        · rcases on with ⟨none, others, left⟩ | ⟨c, mem, found, done⟩
          · refine .inl ⟨none, List.forall_mem_cons.mpr ⟨complete, others⟩, ?_⟩
            rw [List.map_cons, List.filter_cons_of_pos (by simpa using zero), List.map_cons, ← left]
            rfl
          · exact .inr ⟨c, List.mem_cons_of_mem _ mem, found, done⟩

end Undisturbed

section Sorted
variable {bytes : List UInt8} {nbyte : UInt8}

theorem tails_sorted (bytes : List UInt8) :
    bytes.tails.reverse.Pairwise fun a b => a.length < b.length := by
  induction bytes with
  | nil => simp
  | cons a bytes ih =>
      rw [List.tails_cons, List.reverse_cons, List.pairwise_append]
      refine ⟨ih, List.pairwise_singleton _ _, fun v mem w here => ?_⟩
      rw [List.mem_singleton.mp here]
      have le := ((List.mem_tails _ _).mp (List.mem_reverse.mp mem)).length_le
      exact Nat.lt_succ_of_le le

theorem enter_sorted : (enter nbyte (candidates bytes)).Pairwise fun a b => a.length < b.length := by
  have sorted := (tails_sorted bytes).filter fun v => Kept v
  unfold enter
  split
  · refine List.pairwise_cons.mpr ⟨fun v mem => ?_, sorted⟩
    exact List.length_pos_of_ne_nil (mem_candidates.mp mem).2.some_
  · exact sorted

end Sorted

section Complete
variable {body bytes before : List UInt8} {nbyte : UInt8}

theorem Ordinary.kept (h : Ordinary body) : Kept body := by
  refine ⟨h.begins (List.append_nil body), ?_⟩
  rintro rfl
  exact absurd h.long (by decide)

theorem ordinary_of_verdict (begins : Begins body) (complete : verdict body nbyte = 1) :
    Ordinary body ∧ nbyte = checkbyte body := by
  unfold verdict at complete
  split at complete
  · cases complete
  · split at complete
    · rename_i whole
      split at complete
      · rename_i check
        refine ⟨⟨begins.start, whole.2.symm, ?_⟩, check.symm⟩
        exact (begins.open_ whole.1).1.trans whole.2.ge
      · cases complete
    · cases complete

theorem ends_of_verdict (mem : body ∈ enter nbyte (candidates bytes)) (complete : verdict body nbyte = 1) :
    Ordinary body ∧ body ++ [checkbyte body] <:+ bytes ++ [nbyte] := by
  have old : body ∈ candidates bytes := by
    unfold enter at mem
    split at mem
    · rcases List.mem_cons.mp mem with rfl | mem
      · rw [verdict_early (by decide)] at complete
        cases complete
      · exact mem
    · exact mem
  obtain ⟨⟨front, split⟩, kept⟩ := mem_candidates.mp old
  obtain ⟨ordinary, rfl⟩ := ordinary_of_verdict kept.begins complete
  exact ⟨ordinary, front, by rw [← split, List.append_assoc]⟩

/-- A frame is complete when it is for one of the candidates. -/
theorem complete_append :
    Complete (bytes ++ [nbyte]) ↔ ∃ v ∈ enter nbyte (candidates bytes), verdict v nbyte = 1 := by
  constructor
  · rintro ⟨body, ordinary, suffix⟩
    obtain ⟨front, eq⟩ := suffix
    rw [← List.append_assoc] at eq
    obtain ⟨split, last⟩ := List.append_inj' eq rfl
    obtain rfl := (List.cons.inj last).1
    have mem : body ∈ candidates bytes := mem_candidates.mpr ⟨⟨front, split⟩, ordinary.kept⟩
    refine ⟨body, ?_, ?_⟩
    · unfold enter
      split
      · exact List.mem_cons_of_mem _ mem
      · exact mem
    · exact (ordinary.verdict_body).trans (if_pos rfl)
  · rintro ⟨v, mem, complete⟩
    exact ⟨v, ends_of_verdict mem complete⟩

theorem unkeyed_snd (open_ : List (List UInt8)) : (unkeyed open_).map Prod.snd = open_ := by
  simp [unkeyed, Function.comp_def]

theorem take_cons (k : ℕ) :
    before ++ (nbyte :: bytes).take (k + 1) = before ++ [nbyte] ++ bytes.take k := by
  simp

theorem proper_cons {found : Option PupFrame} {log : List (List ℕ)} (clean : ¬ Complete before) :
    Proper before (nbyte :: bytes) found (due nbyte (enter nbyte (candidates before)) :: log) ↔
      Proper (before ++ [nbyte]) bytes found log := by
  constructor
  · intro h
    refine ⟨fun k seen at_ => ?_, fun k lt => ?_, ?_⟩
    · obtain ⟨b, here, eq⟩ := h.calls (k + 1) seen at_
      rw [take_cons] at eq
      exact ⟨b, here, eq⟩
    · rw [← take_cons]
      exact h.first (k + 1) (Nat.succ_lt_succ lt)
    · rcases h.result with ⟨body, eq, ordinary, suffix, le⟩ | ⟨none, size, incomplete⟩
      · rw [List.length_cons, take_cons] at suffix
        exact .inl ⟨body, eq, ordinary, suffix, Nat.le_of_succ_le_succ le⟩
      · rw [List.append_cons] at incomplete
        exact .inr ⟨none, Nat.succ.inj size, incomplete⟩
  · intro h
    refine ⟨fun k seen at_ => ?_, fun k lt => ?_, ?_⟩
    · cases k with
      | zero =>
          cases at_
          exact ⟨nbyte, rfl, by rw [List.take_zero, List.append_nil]⟩
      | succ k =>
          obtain ⟨b, here, eq⟩ := h.calls k seen at_
          rw [take_cons]
          exact ⟨b, here, eq⟩
    · cases k with
      | zero =>
          rw [List.take_zero, List.append_nil]
          exact clean
      | succ k =>
          rw [take_cons]
          exact h.first k (Nat.lt_of_succ_lt_succ lt)
    · rcases h.result with ⟨body, eq, ordinary, suffix, le⟩ | ⟨none, size, incomplete⟩
      · rw [← take_cons] at suffix
        exact .inl ⟨body, eq, ordinary, suffix, Nat.succ_le_succ le⟩
      · rw [← List.append_cons] at incomplete
        exact .inr ⟨none, congrArg Nat.succ size, incomplete⟩

theorem orderly_cons (clean : ¬ Complete before)
    (calm : Undisturbed nbyte (enter nbyte (candidates before))) :
    Orderly before (nbyte :: bytes) ↔ ¬ Complete (before ++ [nbyte]) → Orderly (before ++ [nbyte]) bytes := by
  constructor
  · intro h _ k b at_ open_
    rw [← take_cons]
    refine h (k + 1) b at_ fun j le => ?_
    cases j with
    | zero =>
        rw [List.take_zero, List.append_nil]
        exact clean
    | succ j =>
        rw [take_cons]
        exact open_ j (Nat.le_of_succ_le_succ le)
  · intro h k b at_ open_
    cases k with
    | zero =>
        cases at_
        rw [List.take_zero, List.append_nil]
        exact calm
    | succ k =>
        have next := open_ 1 (Nat.succ_le_succ (Nat.zero_le k))
        rw [take_cons] at next ⊢
        refine h (by simpa using next) k b at_ fun j le => ?_
        rw [← take_cons]
        exact open_ (j + 1) (Nat.succ_le_succ le)

/-- Behind these bytes and with these candidates the reader does what it is to do as long as no
candidate is left out. -/
theorem proper_iff (clean : ¬ Complete before) :
    Proper before bytes ((follow bytes (candidates before)).1.map frameOf)
      (follow bytes (candidates before)).2 ↔ Orderly before bytes := by
  induction bytes generalizing before with
  | nil =>
      constructor
      · intro _ k b at_
        cases at_
      · intro _
        refine ⟨fun k seen at_ => (nomatch at_), fun k lt => (nomatch lt), .inr ⟨rfl, rfl, ?_⟩⟩
        rw [List.append_nil]
        exact clean
  | cons nbyte bytes ih =>
      have all := unkeyed_snd (enter nbyte (candidates before))
      rw [follow]
      by_cases calm : Undisturbed nbyte (enter nbyte (candidates before))
      · rw [orderly_cons clean calm]
        rw [← all] at calm
        obtain ⟨seen, none | found⟩ := pass_of_undisturbed calm
        · obtain ⟨none, others, left⟩ := none
          rw [all] at seen left
          have next : ¬ Complete (before ++ [nbyte]) := fun complete => by
            obtain ⟨v, mem, done⟩ := complete_append.mp complete
            exact others _ (List.mem_map_of_mem mem) done
          simp only [none, seen, left, ← candidates_append]
          rw [proper_cons clean, ih next]
          exact ⟨fun h _ => h, fun h => h next⟩
        · obtain ⟨c, mem, found, done⟩ := found
          have old : c.2 ∈ enter nbyte (candidates before) := by
            rw [← all]
            exact List.mem_map_of_mem mem
          have complete : Complete (before ++ [nbyte]) := complete_append.mpr ⟨c.2, old, done⟩
          rw [all] at seen
          simp only [found, seen, complete, not_true_eq_false, false_implies, iff_true]
          refine ⟨fun k count at_ => ?_, fun k lt => ?_, .inl ?_⟩
          · cases k with
            | zero =>
                cases at_
                exact ⟨nbyte, rfl, by rw [List.take_zero, List.append_nil]⟩
            | succ k => cases at_
          · obtain rfl := Nat.lt_one_iff.mp lt
            rw [List.take_zero, List.append_nil]
            exact clean
          · obtain ⟨ordinary, suffix⟩ := ends_of_verdict old done
            exact ⟨c.2, rfl, ordinary, by simpa using suffix, by simp⟩
      · refine iff_of_false (fun proper => calm ?_) fun orderly => calm ?_
        · have sorted := @enter_sorted before nbyte
          rw [← all] at sorted ⊢
          refine undisturbed_of_seen sorted ?_
          rw [all]
          have log : ∃ found later, Proper before (nbyte :: bytes) found
              ((pass nbyte (unkeyed (enter nbyte (candidates before)))).seen :: later) := by
            split at proper <;> exact ⟨_, _, proper⟩
          obtain ⟨found, later, proper⟩ := log
          obtain ⟨b, here, eq⟩ := proper.calls 0 _ rfl
          cases here
          rw [eq, List.take_zero, List.append_nil]
        · have now := orderly 0 nbyte rfl fun j le => by
            obtain rfl := Nat.le_zero.mp le
            rw [List.take_zero, List.append_nil]
            exact clean
          rw [List.take_zero, List.append_nil] at now
          exact now

end Complete

theorem not_complete_nil : ¬ Complete [] := by
  rintro ⟨body, -, suffix⟩
  simp at suffix

theorem resyncs_follow {bytes : List UInt8} :
    Resyncs bytes ↔ Proper [] bytes ((follow bytes []).1.map frameOf) (follow bytes []).2 := by
  obtain ⟨h', read⟩ := @readFrame_done Heap.empty [] bytes (.nil _) (by simp)
  constructor
  · rintro ⟨found, log, h, reaches, proper⟩
    obtain ⟨⟨⟩, -⟩ := reaches.unique read
    exact proper
  · intro proper
    exact ⟨_, _, h', read, proper⟩

/-- `read_frame` synchronises exactly if no discarded frame stands in front of an older one that is
still open. -/
theorem resyncs_iff (bytes : List UInt8) : Resyncs bytes ↔ Orderly [] bytes :=
  resyncs_follow.trans (proper_iff not_complete_nil)

/-- The frame that starts at the second byte is discarded at the fifth, and the one that starts at the
first misses this byte. -/
theorem frame_missed : ¬ Resyncs [2, 2, 0, 5, 1, checkbyte [2, 2, 0, 5, 1]] := by
  rw [resyncs_follow]
  intro proper
  have none : (follow [2, 2, 0, 5, 1, checkbyte [2, 2, 0, 5, 1]] []).1 = none := by decide
  rcases proper.result with ⟨body, found, -⟩ | ⟨-, -, incomplete⟩
  · rw [none] at found
    cases found
  · exact incomplete ⟨[2, 2, 0, 5, 1], ⟨rfl, rfl, by decide⟩, List.suffix_rfl⟩

end Mio.Adapters
