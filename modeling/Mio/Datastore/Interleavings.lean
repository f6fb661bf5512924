import Mio.Datastore.Processes
import Mio.Datastore.ValueBounds

/-! What comes of calls that interleave: each channel goes through the states that its additions, one
after another, lead to, and nothing that was added is missing when it is read. -/
namespace Mio.Datastore

namespace Kvs

variable {kvs : Kvs}

theorem findLowest_settles (ti : TileIndex) (t : ℚ) :
    Outcome.Settles fun fuel => kvs.findLowestChildOverlappingTime fuel ti t :=
  Reader.find_settles rfl _ _ _ ti

theorem readDataLoop_settles (root : TileIndex) (begin_ end_ time : ℚ) (data : List (Sample ℚ)) :
    Outcome.Settles fun fuel => kvs.readDataLoop root begin_ end_ fuel time data :=
  Reader.readData_settles rfl (findLowest_settles root) _ _ _ _ time data

end Kvs

/-- The channel with its lock's file made. -/
def Kvs.locked (kvs : Kvs) : Kvs := { kvs with metainfo := some (kvs.metainfo.getD none) }

theorem Kvs.locked_locked (kvs : Kvs) : kvs.locked.locked = kvs.locked := rfl

def batches {P : Type} (log : List (Completed P Work String Result)) (keyPrefix : Text) : List Batch :=
  log.filterMap fun e => if e.call.keyPrefix = keyPrefix then e.call.job.batch else none

section
variable {P : Type} {log : List (Completed P Work String Result)} {e : Completed P Work String Result}
  {keyPrefix : Text}

theorem batches_other (other : e.call.keyPrefix ≠ keyPrefix) :
    batches (log ++ [e]) keyPrefix = batches log keyPrefix := by
  rw [batches, List.filterMap_append]
  simp [batches, other]

theorem batches_reading (none : e.call.job.batch = none) :
    batches (log ++ [e]) keyPrefix = batches log keyPrefix := by
  rw [batches, List.filterMap_append]
  simp [batches, none]

theorem batches_adding {b : Batch} (same : e.call.keyPrefix = keyPrefix) (adds : e.call.job.batch = some b) :
    batches (log ++ [e]) keyPrefix = batches log keyPrefix ++ [b] := by
  rw [batches, List.filterMap_append]
  simp [batches, same, adds]

end

theorem perform_reading {ch : Channel} {job : Job} {kvs kvs' : Kvs} {r : Result}
    (none : job.batch = none) (run : ch.perform job kvs = .ret (r, kvs')) : kvs' = kvs.locked := by
  have reads : ∀ {α : Type} {f : Kvs → Outcome Failure α} {g : α → Result},
      (do return g (← Exec.read f) : ChannelM Result) kvs.locked = .ret (r, kvs') → kvs' = kvs.locked := by
    intro α f g ret
    obtain ⟨a, -, done⟩ := Exec.read_bind_eq_ret.mp ret
    cases done
    rfl
  cases job with
  | addData fuel batch => cases none
  | readData fuel begin_ end_ =>
      obtain ⟨data, t, read, done⟩ := Exec.bind_eq_ret.mp run
      cases done
      obtain ⟨info, -, rest⟩ := Exec.read_bind_eq_ret.mp (Exec.modify_bind_eq_ret.mp read)
      cases info with
      | none =>
          cases rest
          rfl
      | some info => exact (Exec.read_eq_ret.mp rest).2
  | readTileOrClosestAncestor fuel ti =>
      obtain ⟨data, t, read, done⟩ := Exec.bind_eq_ret.mp run
      cases done
      obtain ⟨info, -, rest⟩ := Exec.read_bind_eq_ret.mp (Exec.modify_bind_eq_ret.mp read)
      cases info with
      | none =>
          cases rest
          rfl
      | some info => exact (Exec.read_eq_ret.mp rest).2
  | readTilesInRange fuel times callback desiredLevel => exact reads run

section
variable {limit : ℕ} {wide : ℤ → ℤ → ℤ}

/-- Every job locks first. -/
theorem perform_locked (w : Work) (kvs : Kvs) :
    (settings limit wide).perform w.job kvs.locked = (settings limit wide).perform w.job kvs := by
  obtain ⟨rest, eq, -⟩ := (w.channel limit wide).does_perform w.passes
  exact (congrFun eq kvs.locked).trans (congrFun eq kvs).symm

variable {P : Type} {log before later : List (Completed P Work String Result)}
  {e : Completed P Work String Result} {w w' : World} {keyPrefix : Text}

/-- A channel goes through the states that its additions lead to, if none of its calls fails. -/
theorem Sequential.runs (h : Sequential (settings limit wide) w log w') (keyPrefix : Text)
    (absent : w keyPrefix = .absent)
    (returned : ∀ d ∈ log, d.call.keyPrefix = keyPrefix → ∃ r, d.outcome = .ret r) :
    ∃ kvs, Runs (settings limit wide) (batches log keyPrefix) kvs ∧
      (w' keyPrefix = kvs ∨ w' keyPrefix = kvs.locked) := by
  have untouched : ∀ {log : List (Completed P Work String Result)} {w' : World} {e kvs},
      (∃ kvs, Runs (settings limit wide) (batches log keyPrefix) kvs ∧
        (w' keyPrefix = kvs ∨ w' keyPrefix = kvs.locked)) → e.call.keyPrefix ≠ keyPrefix →
      ∃ k, Runs (settings limit wide) (batches (log ++ [e]) keyPrefix) k ∧
        (Function.update w' e.call.keyPrefix kvs keyPrefix = k ∨
          Function.update w' e.call.keyPrefix kvs keyPrefix = k.locked) := by
    intro log w' e kvs h other
    rw [batches_other other, Function.update_of_ne (Ne.symm other)]
    exact h
  induction h with
  | start => exact ⟨.absent, .absent, .inl absent⟩
  | @ret log w' p work r kvs before run ih =>
      have earlier := ih fun d mem => returned d (List.mem_append_left _ mem)
      by_cases mine : work.keyPrefix = keyPrefix
      · subst mine
        obtain ⟨old, runs, state⟩ := earlier
        have run' : (settings limit wide).perform work.job old = .ret (r, kvs) := by
          rcases state with eq | eq
          · rwa [eq] at run
          · rwa [eq, perform_locked] at run
        rw [Function.update_self]
        cases adds : work.job.batch with
        | none =>
            rw [batches_reading adds]
            exact ⟨old, runs, .inr (perform_reading adds run')⟩
        | some b =>
            obtain ⟨fuel, job⟩ : ∃ fuel, work.job = .addData fuel b := by
              cases job : work.job <;> rw [job] at adds <;> cases adds
              exact ⟨_, rfl⟩
            rw [job] at run'
            obtain ⟨ranges, t, added, done⟩ := Exec.bind_eq_ret.mp run'
            cases done
            rw [batches_adding rfl adds]
            exact ⟨kvs, .add runs (work.finite b adds) added, .inl rfl⟩
      · exact untouched earlier mine
  | @throw log w' p work what kvs before run ih =>
      have earlier := ih fun d mem => returned d (List.mem_append_left _ mem)
      refine untouched earlier fun mine => ?_
      obtain ⟨r, ret⟩ := returned _ (List.mem_append_right _ List.mem_cons_self) mine
      cases ret
  | @abort log w' p work what kvs before run ih =>
      have earlier := ih fun d mem => returned d (List.mem_append_left _ mem)
      refine untouched earlier fun mine => ?_
      obtain ⟨r, ret⟩ := returned _ (List.mem_append_right _ List.mem_cons_self) mine
      cases ret

theorem Sequential.last {ch : Channel} (h : Sequential ch w (log ++ [e]) w') :
    ∃ v, Sequential ch w log v ∧ ∀ r, e.outcome = .ret r →
      ∃ kvs, ch.perform e.call.job (v e.call.keyPrefix) = .ret (r, kvs) := by
  generalize eq : log ++ [e] = all at h
  cases h with
  | start => exact (List.append_ne_nil_of_right_ne_nil _ (List.cons_ne_nil _ _) eq).elim
  | ret before run =>
      obtain ⟨rfl, last⟩ := List.append_inj' eq rfl
      cases last
      exact ⟨_, before, fun r eq => ⟨_, by cases eq; exact run⟩⟩
  | throw before run =>
      obtain ⟨rfl, last⟩ := List.append_inj' eq rfl
      cases last
      exact ⟨_, before, fun r eq => by cases eq⟩
  | abort before run =>
      obtain ⟨rfl, last⟩ := List.append_inj' eq rfl
      cases last
      exact ⟨_, before, fun r eq => by cases eq⟩

theorem Sequential.front {ch : Channel} (h : Sequential ch w (before ++ later) w') :
    ∃ v, Sequential ch w before v := by
  induction later using List.reverseRecOn generalizing w' with
  | nil => exact ⟨w', by rwa [List.append_nil] at h⟩
  | append_singleton rest d ih =>
      rw [← List.append_assoc] at h
      obtain ⟨v, front, -⟩ := h.last
      exact ih front

/-- A call of the log did what it does behind the calls before it. -/
theorem Sequential.at_call {ch : Channel} {r : Result} (h : Sequential ch w (before ++ e :: later) w')
    (ret : e.outcome = .ret r) : ∃ v kvs, Sequential ch w before v ∧
      ch.perform e.call.job (v e.call.keyPrefix) = .ret (r, kvs) := by
  rw [List.append_cons] at h
  obtain ⟨u, front⟩ := h.front
  obtain ⟨v, earlier, run⟩ := front.last
  obtain ⟨kvs, done⟩ := run r ret
  exact ⟨v, kvs, earlier, done⟩

end

/-- What `read_data` returns of a channel that a run has left is all of its last written samples in the
range. -/
theorem Runs.readData_ret {ch : Channel} {bs : List Batch} {kvs kvs' : Kvs} {fuel : ℕ} {begin_ end_ : ℚ}
    {data : List (Sample ℚ)} (run : Runs ch bs kvs) (lt : begin_ < end_)
    (ret : Channel.readData fuel begin_ end_ kvs = .ret (data, kvs')) :
    data = (history bs).doubles.filter fun s => begin_ ≤ s.time ∧ s.time < end_ := by
  rcases run.contents_eq with ⟨rfl, none⟩ | ⟨info, tree, stored, same⟩
  · rw [none]
    cases ret
    rfl
  · rw [stored.readData_run] at ret
    obtain ⟨all, loop, done⟩ := Outcome.bind_eq_ret.mp ret
    cases done
    have within : end_ ≤ info.nonnegativeRootTileIndex.endTime := by
      by_contra beyond
      exact stored.readDataLoop_stuck (not_le.mp beyond) fuel lt [] data loop
    rw [← same]
    exact (Kvs.readDataLoop_settles _ begin_ end_ begin_ []).unique loop
      (stored.readDataLoop_all lt within)

section
variable {limit : ℕ} {wide : ℤ → ℤ → ℤ} {P : Type} [DecidableEq P]
  {plan : P → List (Outcome String Result) → Option Work} {start : Store}
  {s : Shared P Text Record Work String Result}

/-- While its lock is free, a channel is as the completed calls leave it, except that a process that
waits for the lock of a channel that does not exist has made its file. -/
def Shared.Channels (limit : ℕ) (wide : ℤ → ℤ → ℤ) (s : Shared P Text Record Work String Result)
    (w : World) : Prop :=
  ∀ keyPrefix, s.Free (jobs limit wide) keyPrefix → world s.store keyPrefix = w keyPrefix ∨
    world s.store keyPrefix = (w keyPrefix).locked ∧
      ∃ p work, s.phase p = .waiting work ∧ work.keyPrefix = keyPrefix

/-- The calls of the log, made one after another, and what they leave. -/
theorem Shared.sequential_of_reachable (sorted : SortedStore start)
    (run : (processes limit wide plan start).Reachable s) :
    ∃ left, (jobs limit wide).Serially start s.log left ∧
      Sequential (settings limit wide) (world start) s.log (world left) ∧
      Shared.Channels limit wide s (world left) := by
  have serial := Shared.serial_of_reachable run
  have serially := Calls.serially_replay serial.outcomes
  have sequential := (Sequential.of_serially serially sorted serial.ended).2
  refine ⟨_, serially, sequential, fun keyPrefix free => ?_⟩
  have under := serial.free keyPrefix free
  have tile : ∀ ti, s.store (KvsChannel.tileKey { keyPrefix } ti) =
      (jobs limit wide).replay start s.calls (KvsChannel.tileKey { keyPrefix } ti) := by
    intro ti
    rcases under _ (KvsChannel.owns_tileKey _ ti) with eq | ⟨file, -⟩
    · exact eq
    · exact (KvsChannel.tileKey_ne_metainfoKey file).elim
  rcases under _ (.inl rfl) with eq | ⟨-, missing, blank, waiting⟩
  · refine .inl (KvsChannel.part_agree ?_)
    rintro key (rfl | ⟨ti, rfl⟩)
    · exact eq
    · exact tile ti
  · refine .inr ⟨?_, waiting⟩
    have tiles : (world s.store keyPrefix).tiles =
        (world ((jobs limit wide).replay start (s.log.map Completed.call)) keyPrefix).tiles :=
      funext fun ti => congrArg (Option.bind · Record.asTile) (tile ti)
    have info : (world s.store keyPrefix).metainfo = some none := congrArg (Option.map Record.asInfo) blank
    have left : (world ((jobs limit wide).replay start (s.log.map Completed.call)) keyPrefix).metainfo =
        none :=
      congrArg (Option.map Record.asInfo) missing
    rw [Kvs.locked, left, ← tiles]
    exact congrArg (fun record => (⟨record, _⟩ : Kvs)) info

/-- However the requests of the processes interleave, every completed call had the outcome that it has
when the calls are made one after another, in the order in which they let their locks go, and a channel
whose lock is free is as these calls leave it; no lock is held twice, and keys of no channel are left
alone. -/
theorem interleavings_sequential (sorted : SortedStore start)
    (run : (processes limit wide plan start).Reachable s) :
    (∃ left, (jobs limit wide).Serially start s.log left ∧
        Sequential (settings limit wide) (world start) s.log (world left) ∧
        Shared.Channels limit wide s (world left)) ∧
      (∀ p q c d x y, s.phase p = .inside c x → s.phase q = .inside d y →
        c.keyPrefix = d.keyPrefix → p = q) ∧
      ∀ key, (∀ keyPrefix, ¬ KvsChannel.Owns { keyPrefix } key) → s.store key = start key := by
  have serial := Shared.serial_of_reachable run
  exact ⟨Shared.sequential_of_reachable sorted run, serial.alone, serial.others⟩

/-- Over a store that was empty, a channel whose lock is free and none of whose calls failed is in a
state that its additions lead to one after another, so everything known of such states holds of it. -/
theorem channel_between_calls (run : (processes limit wide plan fun _ => none).Reachable s)
    {keyPrefix : Text} (free : s.Free (jobs limit wide) keyPrefix)
    (returned : ∀ d ∈ s.log, d.call.keyPrefix = keyPrefix → ∃ r, d.outcome = .ret r) :
    ∃ kvs, Runs (settings limit wide) (batches s.log keyPrefix) kvs ∧
      (world s.store keyPrefix = kvs ∨ world s.store keyPrefix = kvs.locked) := by
  obtain ⟨left, -, sequential, channels⟩ := Shared.sequential_of_reachable sortedStore_empty run
  obtain ⟨kvs, runs, state⟩ := sequential.runs keyPrefix rfl returned
  refine ⟨kvs, runs, ?_⟩
  rcases channels keyPrefix free with eq | ⟨eq, -⟩
  · rwa [eq]
  · rw [eq]
    rcases state with same | same
    · exact .inr (by rw [same])
    · exact .inr (by rw [same, Kvs.locked_locked])

/-- No update is lost: whatever else goes on, `read_data` returns the last written samples of all
additions to its channel that were completed before it. -/
theorem reads_all_updates (run : (processes limit wide plan fun _ => none).Reachable s)
    {before later : List (Completed P Work String Result)} {e : Completed P Work String Result}
    (logged : s.log = before ++ e :: later) {fuel : ℕ} {begin_ end_ : ℚ} {data : List (Sample ℚ)}
    (job : e.call.job = .readData fuel begin_ end_) (lt : begin_ < end_)
    (ret : e.outcome = .ret (.samples data))
    (returned : ∀ d ∈ before, d.call.keyPrefix = e.call.keyPrefix → ∃ r, d.outcome = .ret r) :
    data = (history (batches before e.call.keyPrefix)).doubles.filter
      fun s => begin_ ≤ s.time ∧ s.time < end_ := by
  obtain ⟨left, -, sequential, -⟩ := Shared.sequential_of_reachable sortedStore_empty run
  rw [logged] at sequential
  obtain ⟨v, kvs', earlier, done⟩ := sequential.at_call ret
  obtain ⟨kvs, runs, state⟩ := earlier.runs e.call.keyPrefix rfl returned
  have here : (settings limit wide).perform e.call.job kvs = .ret (.samples data, kvs') := by
    rcases state with eq | eq
    · rwa [eq] at done
    · rwa [eq, perform_locked] at done
  rw [job] at here
  obtain ⟨found, t, read, same⟩ := Exec.bind_eq_ret.mp here
  cases same
  exact runs.readData_ret lt read

end

theorem call_of_perform (limit : ℕ) (wide : ℤ → ℤ → ℤ) (w : Work) {s : Store} (sorted : SortedStore s)
    {r : Result} {old kvs : Kvs} (before : world s w.keyPrefix = old)
    (done : (settings limit wide).perform w.job old = .ret (r, kvs)) :
    ∃ t, (jobs limit wide).run w s = (.ret r, t) ∧ SortedStore t ∧
      world t = Function.update (world s) w.keyPrefix kvs := by
  obtain ⟨sorted', others, own⟩ := jobs_run limit wide w sorted
  generalize (jobs limit wide).run w s = x at sorted' others own ⊢
  obtain ⟨o, t⟩ := x
  rw [before, done] at own
  cases o with
  | ret a =>
      cases own
      refine ⟨t, rfl, sorted', funext fun p => ?_⟩
      by_cases mine : p = w.keyPrefix
      · rw [mine, Function.update_self]
        rfl
      · rw [Function.update_of_ne mine, others p mine]
  | throw e => cases own
  | abort what => cases own
  | timeout => cases own

def someChannel : Text := [49, 46, 97]

def otherChannel : Text := [49, 46, 98]

/-- The text "hi" at time 2. -/
def Batch.word : Batch := .strings [⟨2, [104, 105], 1, 0⟩]

namespace Batch

theorem mem_times_word {t : ℚ} : t ∈ word.samples.times ↔ t = 2 := by
  simp [word, samples, times_only]

theorem finite_word : word.FiniteTimes := by
  intro t ht
  rw [mem_times_word.mp ht]
  exact_mod_cast IsDouble.of_nat (n := 2) (by norm_num)

theorem sorted_word : word.samples.Ascending := ⟨.nil, List.pairwise_singleton _ _⟩

end Batch

def addsOne (fuel : ℕ) (keyPrefix : Text) : Work where
  keyPrefix := keyPrefix
  job := .addData fuel (.one 5)
  passes := .addData ⟨_, _, rfl, zero_le_one, (Batch.sorted_one 5).1⟩
  finite := by
    rintro batch ⟨⟩
    exact Batch.finite_one 5

def addsWord (fuel : ℕ) : Work where
  keyPrefix := someChannel
  job := .addData fuel .word
  passes := .addData ⟨_, _, rfl, zero_le_two, Batch.sorted_word.2⟩
  finite := by
    rintro batch ⟨⟩
    exact Batch.finite_word

def readsSamples (fuel : ℕ) : Work where
  keyPrefix := someChannel
  job := .readData fuel 0 2
  passes := .readData
  finite := by rintro batch ⟨⟩

inductive Party where
  | doubles
  | strings
  | reader
  deriving DecidableEq

/-- One process adds to two channels and one to the first of them, which a third one wants to read. -/
def parties (fuel : ℕ) (reader : List (Outcome String Result) → Option Work) :
    Party → List (Outcome String Result) → Option Work
  | .doubles, [] => some (addsOne fuel someChannel)
  | .doubles, [_] => some (addsOne fuel otherChannel)
  | .strings, [] => some (addsWord fuel)
  | .reader, answers => reader answers
  | _, _ => none

/-- The default settings; no shift by 64 or more occurs. -/
abbrev partySystem (fuel : ℕ) (reader : List (Outcome String Result) → Option Work) :
    System (Shared Party Text Record Work String Result) Party :=
  processes channelMaxTileSize (fun _ _ => 0) (parties fuel reader) fun _ => none

/-- At one time, in the state `m`, two processes are inside their locks and the third waits. -/
structure Overlap (fuel : ℕ) (reader : List (Outcome String Result) → Option Work) (w : Work) (r : Result)
    (m s : Shared Party Text Record Work String Result) : Prop where
  run : (partySystem fuel reader).Reachable m
  doubles : ∃ x, m.phase .doubles = .inside (addsOne fuel otherChannel) x
  strings : ∃ x, m.phase .strings = .inside (addsWord fuel) x
  waits : m.phase .reader = .waiting w
  leads : (partySystem fuel reader).Leads m s
  log : ∃ q₁ q₂ q₃, s.log = [⟨.doubles, addsOne fuel someChannel, .ret q₁⟩,
    ⟨.doubles, addsOne fuel otherChannel, .ret q₂⟩, ⟨.strings, addsWord fuel, .ret q₃⟩, ⟨.reader, w, .ret r⟩]
  idle : ∀ p, s.phase p = .idle

theorem Overlap.reached {fuel : ℕ} {reader : List (Outcome String Result) → Option Work} {w : Work}
    {r : Result} {m s : Shared Party Text Record Work String Result} (h : Overlap fuel reader w r m s) :
    (partySystem fuel reader).Reachable s :=
  h.run.leads h.leads

section
variable {α : Type} {x y z v : α}

def Party.table (x y z : α) : Party → α
  | .doubles => x
  | .strings => y
  | .reader => z

theorem Party.update_doubles : Function.update (Party.table x y z) .doubles v = Party.table v y z := by
  funext p
  cases p <;> rfl

theorem Party.update_strings : Function.update (Party.table x y z) .strings v = Party.table x v z := by
  funext p
  cases p <;> rfl

theorem Party.update_reader : Function.update (Party.table x y z) .reader v = Party.table x y v := by
  funext p
  cases p <;> rfl

end

/-- All three processes get on their way before the first has made its second call. -/
theorem overlap_of_runs {fuel : ℕ} {reader : List (Outcome String Result) → Option Work} {w : Work}
    (wants : reader [] = some w) (here : w.keyPrefix = someChannel) {q₁ q₂ q₃ r : Result}
    {t₁ t₂ t₃ t₄ : Store}
    (first : (jobs channelMaxTileSize fun _ _ => 0).run (addsOne fuel someChannel) (fun _ => none) = (.ret q₁, t₁))
    (second : (jobs channelMaxTileSize fun _ _ => 0).run (addsOne fuel otherChannel) t₁ = (.ret q₂, t₂))
    (third : (jobs channelMaxTileSize fun _ _ => 0).run (addsWord fuel) t₂ = (.ret q₃, t₃))
    (last : (jobs channelMaxTileSize fun _ _ => 0).run w t₃ = (.ret r, t₄)) :
    ∃ m s, Overlap fuel reader w r m s ∧ s.store = t₄ := by
  have start : (partySystem fuel reader).Reachable ⟨fun _ => none, Party.table .idle .idle .idle, []⟩ :=
    .init (congrArg (fun phase => (⟨_, phase, _⟩ : Shared Party Text Record Work String Result))
      (funext fun p => by cases p <;> rfl))
  have opened := start.step (.open_ (p := .doubles) (c := addsOne fuel someChannel) rfl rfl)
  rw [Party.update_doubles] at opened
  have entered := opened.step (.enter (p := .doubles) rfl (by rintro (_ | _ | _) c x ⟨⟩))
  rw [Party.update_doubles] at entered
  -- the second process opens the file that the first one has locked
  have file := (Shared.serial_of_reachable entered).file .doubles (addsOne fuel someChannel) (.inr ⟨_, rfl⟩)
  have waits := entered.step (Shared.opens (p := .strings) (c := addsWord fuel) rfl rfl file)
  rw [Party.update_strings] at waits
  have added := waits.leads (Shared.leads_rest (p := .doubles) (o := .ret q₁) (t := t₁) rfl first (by rintro ⟨⟩))
  rw [Party.update_doubles] at added
  have has := (Shared.serial_of_reachable added).file .strings (addsWord fuel) (.inl rfl)
  have entered' := added.step (.enter (p := .strings) rfl (by rintro (_ | _ | _) c x ⟨⟩))
  rw [Party.update_strings] at entered'
  have same : (jobs channelMaxTileSize fun _ _ => 0).lock w = (jobs channelMaxTileSize fun _ _ => 0).lock
    (addsWord fuel) := here
  have waits' := entered'.step (Shared.opens (p := .reader) (c := w) rfl (by exact wants) (by
    rw [same]
    exact has))
  rw [Party.update_reader] at waits'
  have opened' := waits'.step (.open_ (p := .doubles) (c := addsOne fuel otherChannel) rfl rfl)
  rw [Party.update_doubles] at opened'
  have both := opened'.step (.enter (p := .doubles) rfl (by
    rintro (_ | _ | _) c x ⟨⟩
    exact show someChannel ≠ otherChannel by decide))
  rw [Party.update_doubles] at both
  have ended := both.stays.trans (Shared.leads_rest (p := .doubles) (o := .ret q₂) (t := t₂) rfl second (by rintro ⟨⟩))
  rw [Party.update_doubles] at ended
  have there := (Shared.serial_of_reachable (both.leads ended)).file .strings (addsWord fuel) (.inr ⟨_, rfl⟩)
  have word : ((jobs channelMaxTileSize fun _ _ => 0).body (addsWord fuel)).run t₂ = (.ret q₃, t₃) := by
    rw [← third, Calls.run, Locks.touch_of_has there]
  have ended' := ended.trans (Shared.leads_rest (p := .strings) (o := .ret q₃) (t := t₃) rfl word (by rintro ⟨⟩))
  rw [Party.update_strings] at ended'
  have ended'' := ended'.trans (Shared.leads_waiting (p := .reader) (c := w) (both.leads ended') rfl
    (by rintro (_ | _ | _) c x ⟨⟩) last (by rintro ⟨⟩))
  rw [Party.update_reader] at ended''
  exact ⟨_, _, ⟨both, ⟨_, rfl⟩, ⟨_, rfl⟩, rfl, ended'', ⟨q₁, q₂, q₃, rfl⟩, by rintro (_ | _ | _) <;> rfl⟩, rfl⟩

theorem one_before_word : ∃ r kvs r' kvs', Exec.Reaches (fun fuel => ({} : Channel).addData fuel (.one 5)) .absent r kvs ∧
    Exec.Reaches (fun fuel => ({} : Channel).addData fuel .word) kvs r' kvs' ∧
    Runs {} [.one 5] kvs ∧ Runs {} [.one 5, .word] kvs' := by
  obtain ⟨r, kvs, added⟩ := Log.add_one (v := 5) .absent (fun _ h => (List.not_mem_nil h).elim)
    (fun _ h => (List.not_mem_nil h).elim) (by decide)
  obtain ⟨fuel, ret⟩ := Outcome.Reaches.returns added
  have run : Runs {} [.one 5] kvs := .add .absent (Batch.finite_one 5) ret
  have weights : ∀ x ∈ [Batch.one 5] ++ [.word], ∀ w ∈ x.samples.weights, 0 < w := by
    intro x mem
    rcases List.mem_pair.mp mem with rfl | rfl
    · exact Batch.weights_one 5
    · simp [Batch.word, Batch.samples, weights_only]
  obtain ⟨r', kvs', word⟩ := Log.add_behind_one run (fun t mem => Batch.mem_times_one.mp mem) weights
    Batch.finite_word Batch.sorted_word (fun t mem => by
      rw [Batch.mem_times_word.mp mem]
      exact ⟨zero_le_two, by exact_mod_cast nat_lt_doubleMax (n := 2) (by norm_num)⟩) (by decide)
  obtain ⟨fuel', ret'⟩ := Outcome.Reaches.returns word
  exact ⟨r, kvs, r', kvs', added, word, run, .add run Batch.finite_word ret'⟩

theorem overlaps (reader : ℕ → List (Outcome String Result) → Option Work) (w : ℕ → Work) {Q : Result → Prop}
    (wants : ∀ fuel, reader fuel [] = some (w fuel)) (here : ∀ fuel, (w fuel).keyPrefix = someChannel)
    (returns : ∀ kvs, Runs {} [.one 5, .word] kvs → ∃ r kvs', Q r ∧
      Exec.Reaches (fun fuel => (settings channelMaxTileSize fun _ _ => 0).perform (w fuel).job) kvs r kvs') :
    ∃ kvs n, Runs {} [.one 5] kvs ∧ ∀ fuel, n ≤ fuel → ∃ r m s, Q r ∧
      Overlap fuel (reader fuel) (w fuel) r m s ∧ SortedStore s.store ∧ world s.store otherChannel = kvs := by
  obtain ⟨r, kvs, r', kvs', ⟨n₁, added⟩, ⟨n₂, word⟩, run, run'⟩ := one_before_word
  obtain ⟨r'', kvs'', fine, n₃, read⟩ := returns kvs' run'
  refine ⟨kvs, max n₁ (max n₂ n₃), run, fun fuel enough => ?_⟩
  have adds : (settings channelMaxTileSize fun _ _ => 0).perform (.addData fuel (.one 5)) .absent =
      .ret (.ranges r, kvs) :=
    Exec.bind_of_ret (f := fun r => pure (Result.ranges r)) (added fuel ((le_max_left _ _).trans enough))
  have texts : (settings channelMaxTileSize fun _ _ => 0).perform (.addData fuel .word) kvs =
      .ret (.ranges r', kvs') :=
    Exec.bind_of_ret (f := fun r => pure (Result.ranges r))
      (word fuel ((le_max_left _ _).trans ((le_max_right _ _).trans enough)))
  have reads := read fuel ((le_max_right _ _).trans ((le_max_right _ _).trans enough))
  have apart : otherChannel ≠ someChannel := by decide
  obtain ⟨t₁, first, sorted₁, w₁⟩ := call_of_perform channelMaxTileSize (fun _ _ => 0)
    (addsOne fuel someChannel) sortedStore_empty rfl adds
  obtain ⟨t₂, second, sorted₂, w₂⟩ := call_of_perform channelMaxTileSize (fun _ _ => 0)
    (addsOne fuel otherChannel) sorted₁ (by rw [w₁]; exact Function.update_of_ne apart _ _) adds
  obtain ⟨t₃, third, sorted₃, w₃⟩ := call_of_perform channelMaxTileSize (fun _ _ => 0) (addsWord fuel) sorted₂
    (by rw [w₂, w₁]; exact (Function.update_of_ne apart.symm _ _).trans (Function.update_self ..)) texts
  obtain ⟨t₄, last, sorted₄, w₄⟩ := call_of_perform channelMaxTileSize (fun _ _ => 0) (w fuel) sorted₃
    (by rw [w₃, here]; exact Function.update_self ..) reads
  obtain ⟨m, s, overlap, rfl⟩ := overlap_of_runs (wants fuel) (here fuel) first second third last
  refine ⟨r'', m, s, fine, overlap, sorted₄, ?_⟩
  rw [w₄, here, Function.update_of_ne apart, w₃, w₂]
  exact (Function.update_of_ne apart _ _).trans (Function.update_self ..)

def readsLater (fuel : ℕ) : List (Outcome String Result) → Option Work
  | [] => some (readsSamples fuel)
  | _ => none

/-- Up to the text's time there is a channel to read. -/
theorem Runs.reads_to_word {kvs : Kvs} (run : Runs {} [.one 5, .word] kvs) : ReadsBetween kvs 0 2 := by
  rcases run.contents_eq with ⟨-, none⟩ | ⟨info, tree, stored, same⟩
  · exact absurd (congrArg Samples.doubles none) (List.cons_ne_nil _ _)
  · refine stored.readsBetween (by norm_num) ?_
    by_cases all : info.nonnegativeRootTileIndex = .nonnegativeAll
    · rw [all, TileIndex.nonnegativeAll_endTime]
      exact_mod_cast (nat_lt_doubleMax (n := 2) (by norm_num)).le
    · have mem : (2 : ℚ) ∈ (contents tree).times := by
        rw [same]
        exact List.mem_append_right _ List.mem_cons_self
      exact ((stored.regular all).containsTime_iff _ |>.mpr
        (contents_has (stored.wf.leaves_has (stored.regular all)) 2 mem)).2.le

theorem overlap_reads : ∃ fuel data m s,
    Overlap fuel (readsLater fuel) (readsSamples fuel) (.samples data) m s := by
  obtain ⟨kvs, n, -, overlap⟩ := overlaps readsLater readsSamples
    (Q := fun r => ∃ data, r = .samples data) (fun _ => rfl) (fun _ => rfl) fun kvs run => by
      obtain ⟨data, kvs', ⟨n, reads⟩, -⟩ := run.reads_to_word
      exact ⟨_, kvs', ⟨data, rfl⟩, n, fun fuel enough =>
        Exec.bind_of_ret (f := fun r => pure (Result.samples r)) (reads fuel enough)⟩
  obtain ⟨r, m, s, ⟨data, rfl⟩, overlap, -⟩ := overlap n le_rfl
  exact ⟨n, data, m, s, overlap⟩

/-- Three calls under way at the same time, with the outcomes that they have one after the other. -/
theorem interleavings_sequential_overlap : ∃ fuel data m s left,
    Overlap fuel (readsLater fuel) (readsSamples fuel) (.samples data) m s ∧
      (jobs channelMaxTileSize fun _ _ => 0).Serially (fun _ => none) s.log left ∧
      ∀ keyPrefix, world s.store keyPrefix = world left keyPrefix := by
  obtain ⟨fuel, data, m, s, overlap⟩ := overlap_reads
  obtain ⟨⟨left, serially, -, channels⟩, -⟩ := interleavings_sequential sortedStore_empty overlap.reached
  refine ⟨fuel, data, m, s, left, overlap, serially, fun keyPrefix => ?_⟩
  have idle : s.Free (jobs channelMaxTileSize fun _ _ => 0) keyPrefix := fun p c x inside => by
    rw [overlap.idle p] at inside
    cases inside
  rcases channels keyPrefix idle with eq | ⟨-, p, work, waiting, -⟩
  · exact eq
  · rw [overlap.idle p] at waiting
    cases waiting

/-- What they leave of the channel that two of them added to. -/
theorem channel_between_calls_overlap : ∃ kvs, Runs {} [.one 5, .word] kvs ∧ ∃ fuel data m s,
    Overlap fuel (readsLater fuel) (readsSamples fuel) (.samples data) m s ∧
      (world s.store someChannel = kvs ∨ world s.store someChannel = kvs.locked) := by
  obtain ⟨fuel, data, m, s, overlap⟩ := overlap_reads
  obtain ⟨q₁, q₂, q₃, log⟩ := overlap.log
  have idle : s.Free (jobs channelMaxTileSize fun _ _ => 0) someChannel := fun p c x inside => by
    rw [overlap.idle p] at inside
    cases inside
  obtain ⟨kvs, runs, state⟩ := channel_between_calls overlap.reached idle (by simp [log])
  rw [log] at runs
  exact ⟨kvs, runs, fuel, data, m, s, overlap, state⟩

/-- The third process began before the second had added, and reads what the first one added. -/
theorem reads_all_updates_overlap : ∃ fuel m s,
    Overlap fuel (readsLater fuel) (readsSamples fuel) (.samples [⟨1, 5, 1, 0⟩]) m s := by
  obtain ⟨fuel, data, m, s, overlap⟩ := overlap_reads
  obtain ⟨q₁, q₂, q₃, log⟩ := overlap.log
  have logged : s.log = [⟨.doubles, addsOne fuel someChannel, .ret q₁⟩,
      ⟨.doubles, addsOne fuel otherChannel, .ret q₂⟩, ⟨.strings, addsWord fuel, .ret q₃⟩] ++
      ⟨.reader, readsSamples fuel, .ret (.samples data)⟩ :: [] := log
  have read := reads_all_updates overlap.reached logged rfl (by norm_num) rfl (by simp)
  have one : (history [.one 5, .word]).doubles.filter (fun s => 0 ≤ s.time ∧ s.time < 2) = [⟨1, 5, 1, 0⟩] := by
    decide
  obtain rfl : data = [⟨1, 5, 1, 0⟩] := read.trans one
  exact ⟨fuel, m, s, overlap⟩

end Mio.Datastore
