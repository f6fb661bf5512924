import Mio.Lib.Keyed
import Mio.LibMio.Schedule

/-! Updating a schedule: `mio_schedule_event_merge` and `mio_schedule_event_remove`. -/
namespace Mio.LibMio

/-- `_mio_recurrence_merge`. -/
def Recurrence.merge (recToUpdate r : Recurrence) : Recurrence where
  freq := r.freq.or recToUpdate.freq
  interval := r.interval.or recToUpdate.interval
  count := r.count.or recToUpdate.count
  until_ := r.until_.or recToUpdate.until_
  bymonth := r.bymonth.or recToUpdate.bymonth
  byday := r.byday.or recToUpdate.byday
  exdate := r.exdate.or recToUpdate.exdate

/-- The given fields of `event` copied into `curr`; a given recurrence goes into a new one. -/
def Event.overwrite (curr event : Event) : Event :=
  { curr with
    info := event.info.or curr.info
    recurrence := (event.recurrence.map (Recurrence.merge {})).or curr.recurrence
    time := event.time.or curr.time
    transducerName := event.transducerName.or curr.transducerName
    transducerValue := event.transducerValue.or curr.transducerValue }

/-- `_mio_event_renumber`. -/
def renumber (events : List Event) : List Event := events.mapIdx fun i e => { e with id := i }

/-- One round of `mio_schedule_event_merge`; an empty list has no tail. -/
def mergeEvent (eventToUpdate : List Event) (event : Event) : Outcome Empty (List Event) :=
  match modifyFirst Event.id event.id (Event.overwrite · event) eventToUpdate, eventToUpdate with
  | some events, _ => .ret events
  | none, [] => .abort "mio_event_tail_get"
  | none, events => .ret (events ++ [Event.overwrite {} event])

def mergeEvents (eventToUpdate : List Event) : List Event → Outcome Empty (List Event)
  | [] => .ret eventToUpdate
  | event :: rest => do
      let eventToUpdate ← mergeEvent eventToUpdate event
      mergeEvents eventToUpdate rest

/-- `mio_schedule_event_merge`. -/
def eventMerge (eventToUpdate event : List Event) : Outcome Empty (List Event) := do
  let events ← mergeEvents eventToUpdate event
  .ret (renumber events)

/-- `mio_schedule_event_remove`. -/
def eventRemove (events : List Event) (id : ℤ) : List Event :=
  renumber (events.eraseP fun e => e.id = id)

/-- The updates that are not about an event of the schedule. -/
def added (schedule updates : List Event) : List Event :=
  updates.filter fun e => e.id ∉ schedule.map Event.id

/-- Every event with the updates of its id, and then the new events. -/
def updated (schedule updates : List Event) : List Event :=
  renumber (absorb Event.id Event.id Event.overwrite schedule updates ++ added schedule updates)

/-- No update of id -1 follows one that is not about an event of the schedule. -/
def Told (schedule updates : List Event) : Prop :=
  updates.Pairwise fun earlier e => earlier.id ∈ schedule.map Event.id ∨ e.id ≠ -1

inductive Update where
  | merge (event : List Event)
  | remove (id : ℤ)

def Update.run (events : List Event) : Update → Outcome Empty (List Event)
  | .merge event => eventMerge events event
  | .remove id => .ret (eventRemove events id)

def runUpdates (events : List Event) : List Update → Outcome Empty (List Event)
  | [] => .ret events
  | update :: rest => do
      let events ← update.run events
      runUpdates events rest

/-- An update with new or changed events needs one to look at. -/
def Update.Finds (events : List Event) : Update → Prop
  | .merge event => event ≠ [] → events ≠ []
  | .remove _ => True

/-- No merge of events meets an empty schedule. -/
def Lasts (events : List Event) : List Update → Prop
  | [] => True
  | update :: rest => update.Finds events ∧ ∀ next, update.run events = .ret next → Lasts next rest

/-- New events have the id -1 until all are renumbered. -/
def asNew (events : List Event) : List Event := events.map fun e => { e with id := -1 }

@[simp] theorem Recurrence.merge_new (r : Recurrence) : Recurrence.merge {} r = r := by
  simp [Recurrence.merge]

theorem overwrite_keeps (curr event : Event) (_ : event.id = curr.id) :
    (curr.overwrite event).id = curr.id := rfl

/-- A new event gets exactly the fields of the update. -/
theorem Event.overwrite_new (event : Event) : Event.overwrite {} event = { event with id := -1 } := by
  have same : (Recurrence.merge {} : Recurrence → Recurrence) = fun r => r :=
    funext Recurrence.merge_new
  simp [Event.overwrite, same]

@[simp] theorem renumber_length (events : List Event) : (renumber events).length = events.length :=
  List.length_mapIdx

theorem renumber_numbered (events : List Event) : Numbered (renumber events) := by
  apply List.ext_getElem
  · simp
  · intro i _ _
    simp [renumber]

/-- The ids of new events come to nothing in the renumbering. -/
theorem renumber_asNew (schedule events : List Event) :
    renumber (schedule ++ asNew events) = renumber (schedule ++ events) := by
  rw [renumber, renumber, List.mapIdx_append, List.mapIdx_append]
  congr 1
  apply List.ext_getElem
  · simp [asNew]
  · intro i _ _
    simp [asNew]

section
variable {schedule : List Event} (numbered : Numbered schedule)
include numbered

theorem Numbered.nodup : (schedule.map Event.id).Nodup := by
  rw [numbered]
  exact List.nodup_range.map fun _ _ => Int.ofNat.inj

theorem Numbered.not_new : -1 ∉ schedule.map Event.id := by
  rw [numbered]
  intro mem
  obtain ⟨i, -, negative⟩ := List.mem_map.mp mem
  omega

end

section
variable {schedule appended : List Event} {event : Event}

theorem mergeEvent_known (distinct : (schedule.map Event.id).Nodup)
    (known : event.id ∈ schedule.map Event.id) :
    mergeEvent (schedule ++ appended) event =
      .ret (absorb Event.id Event.id Event.overwrite schedule [event] ++ appended) := by
  unfold mergeEvent
  rw [modifyFirst_append distinct known, absorb_singleton]

theorem mergeEvent_appends (some : schedule ++ appended ≠ [])
    (unknown : event.id ∉ schedule.map Event.id) (other : event.id ∉ appended.map Event.id) :
    mergeEvent (schedule ++ appended) event =
      .ret (schedule ++ (appended ++ [{ event with id := -1 }])) := by
  have missing : event.id ∉ (schedule ++ appended).map Event.id := by
    rw [List.map_append, List.mem_append]
    exact not_or.mpr ⟨unknown, other⟩
  unfold mergeEvent
  rw [modifyFirst_of_notMem missing, ← List.append_assoc, ← Event.overwrite_new]
  split
  · contradiction
  · contradiction
  · rfl

/-- An update that is not about the schedule adds at most one event, and none where it finds its id
among those that were appended. -/
theorem mergeEvent_unknown (unknown : event.id ∉ schedule.map Event.id) :
    Outcome.Gives (fun events => ∃ more, events = schedule ++ more ∧
        more.length ≤ appended.length + 1 ∧
        (event.id ∈ appended.map Event.id → more.length = appended.length))
      (mergeEvent (schedule ++ appended) event) := by
  intro events ret
  unfold mergeEvent at ret
  rw [modifyFirst_append_of_notMem unknown] at ret
  by_cases taken : event.id ∈ appended.map Event.id
  · obtain ⟨more, changed⟩ := modifyFirst_isSome (f := (Event.overwrite · event)) taken
    rw [changed] at ret
    cases ret
    have length := modifyFirst_length changed
    exact ⟨more, rfl, length.le.trans (Nat.le_succ _), fun _ => length⟩
  · rw [modifyFirst_of_notMem taken, Option.map_none] at ret
    split at ret
    · contradiction
    · cases ret
    · cases ret
      exact ⟨appended ++ [_], List.append_assoc .., (List.length_append ..).le, fun mem => (taken mem).elim⟩

end

section
variable {schedule appended updates : List Event}

theorem added_congr {other : List Event} (same : other.map Event.id = schedule.map Event.id) :
    added other updates = added schedule updates := by
  rw [added, same, added]

theorem added_cons_known {event : Event} (known : event.id ∈ schedule.map Event.id) :
    added schedule (event :: updates) = added schedule updates :=
  List.filter_cons_of_neg (by simpa using known)

theorem added_cons_unknown {event : Event} (unknown : event.id ∉ schedule.map Event.id) :
    added schedule (event :: updates) = event :: added schedule updates :=
  List.filter_cons_of_pos (by simpa using unknown)

theorem told_congr {other : List Event} (same : other.map Event.id = schedule.map Event.id) :
    Told other updates ↔ Told schedule updates := by
  rw [Told, same, Told]

theorem absorb_ids (event : List Event) :
    (absorb Event.id Event.id Event.overwrite schedule event).map Event.id = schedule.map Event.id :=
  absorb_keys overwrite_keeps _ _

/-- By induction on the updates; what was appended so far has the id -1. -/
theorem mergeEvents_told (some : schedule ++ appended ≠ []) (distinct : (schedule.map Event.id).Nodup)
    (notNew : -1 ∉ schedule.map Event.id) (new : ∀ e ∈ appended, e.id = -1)
    (rest : appended ≠ [] → ∀ e ∈ updates, e.id ≠ -1) (told : Told schedule updates) :
    mergeEvents (schedule ++ appended) updates =
      .ret (absorb Event.id Event.id Event.overwrite schedule updates ++ appended ++
        asNew (added schedule updates)) := by
  induction updates generalizing schedule appended with
  | nil => simp [mergeEvents, added, asNew]
  | cons event updates ih =>
      obtain ⟨first, told⟩ := List.pairwise_cons.mp told
      rw [mergeEvents]
      by_cases known : event.id ∈ schedule.map Event.id
      · rw [mergeEvent_known distinct known, Outcome.ret_bind, absorb_cons overwrite_keeps schedule event updates,
          added_cons_known known, ← added_congr (absorb_ids [event])]
        refine ih ?_ ?_ ?_ new (fun some e mem => rest some e (List.mem_cons_of_mem _ mem)) ?_
        · intro none
          have length := congrArg List.length none
          rw [List.length_append, absorb, List.length_map, ← List.length_append] at length
          exact some (List.length_eq_zero_iff.mp length)
        · rwa [absorb_ids]
        · rwa [absorb_ids]
        · exact (told_congr (absorb_ids _)).mpr told
      · have other : event.id ∉ appended.map Event.id := by
          intro mem
          obtain ⟨e, mem, same⟩ := List.mem_map.mp mem
          exact rest (List.ne_nil_of_mem mem) event List.mem_cons_self (same.symm.trans (new e mem))
        rw [mergeEvent_appends some known other, Outcome.ret_bind, absorb_cons overwrite_keeps schedule event updates,
          absorb_of_notMem known, added_cons_unknown known]
        rw [ih (by simp) distinct notNew ?_ (fun _ e mem => (first e mem).resolve_left known) told]
        · simp [asNew]
        · intro e mem
          rcases List.mem_append.mp mem with mem | mem
          · exact new e mem
          · rw [List.mem_singleton.mp mem]

theorem mergeEvents_length (distinct : (schedule.map Event.id).Nodup) :
    Outcome.Gives (fun events =>
        events.length ≤ schedule.length + appended.length + (added schedule updates).length)
      (mergeEvents (schedule ++ appended) updates) := by
  induction updates generalizing schedule appended with
  | nil => exact .ret (by simp)
  | cons event updates ih =>
      by_cases known : event.id ∈ schedule.map Event.id
      · rw [mergeEvents, mergeEvent_known distinct known, Outcome.ret_bind, added_cons_known known,
          ← added_congr (absorb_ids [event])]
        have length : (absorb Event.id Event.id Event.overwrite schedule [event]).length =
            schedule.length := List.length_map _
        rw [← length]
        exact ih (by rwa [absorb_ids])
      · refine (mergeEvent_unknown known).bind ?_
        rintro - ⟨more, rfl, length, -⟩ events ret
        have bound := ih distinct events ret
        rw [added_cons_unknown known, List.length_cons]
        omega

/-- An update of id -1 that finds an appended event is lost in it. -/
theorem mergeEvents_short (distinct : (schedule.map Event.id).Nodup)
    (notNew : -1 ∉ schedule.map Event.id) (new : ∀ e ∈ appended, e.id = -1)
    (bad : ¬ ((appended ≠ [] → ∀ e ∈ updates, e.id ≠ -1) ∧ Told schedule updates)) :
    Outcome.Gives (fun events =>
        events.length < schedule.length + appended.length + (added schedule updates).length)
      (mergeEvents (schedule ++ appended) updates) := by
  induction updates generalizing schedule appended with
  | nil => exact (bad ⟨fun _ e mem => (by cases mem), .nil⟩).elim
  | cons event updates ih =>
      by_cases known : event.id ∈ schedule.map Event.id
      · have length : (absorb Event.id Event.id Event.overwrite schedule [event]).length =
            schedule.length := List.length_map _
        rw [mergeEvents, mergeEvent_known distinct known, Outcome.ret_bind, added_cons_known known,
          ← added_congr (absorb_ids [event]), ← length]
        refine ih (by rwa [absorb_ids]) (by rwa [absorb_ids]) new fun good => bad ⟨?_, ?_⟩
        · intro some e mem
          rcases List.mem_cons.mp mem with rfl | mem
          · exact fun same => notNew (same ▸ known)
          · exact good.1 some e mem
        · exact .cons (fun _ _ => .inl known) ((told_congr (absorb_ids _)).mp good.2)
      · rw [mergeEvents, added_cons_unknown known, List.length_cons]
        by_cases taken : event.id ∈ appended.map Event.id
        · refine (mergeEvent_unknown known).bind ?_
          rintro - ⟨more, rfl, -, same⟩ events ret
          have bound := mergeEvents_length distinct events ret
          rw [same taken] at bound
          omega
        · by_cases some : schedule ++ appended = []
          · rw [some]
            exact .bind (Q := fun _ => False) .abort fun _ no => no.elim
          · rw [mergeEvent_appends some known taken, Outcome.ret_bind]
            have shorter := @ih schedule (appended ++ [{ event with id := -1 }]) distinct notNew ?_ ?_
            · refine fun events ret => (shorter events ret).trans_eq ?_
              rw [List.length_append, List.length_singleton]
              omega
            · intro e mem
              rcases List.mem_append.mp mem with mem | mem
              · exact new e mem
              · rw [List.mem_singleton.mp mem]
            · rintro ⟨later, told⟩
              have later := later (by simp)
              refine bad ⟨fun some e mem => ?_, .cons (fun e mem => .inr (later e mem)) told⟩
              rcases List.mem_cons.mp mem with rfl | mem
              · intro id
                obtain ⟨first, mem⟩ := List.exists_mem_of_ne_nil _ some
                exact taken (id ▸ new first mem ▸ List.mem_map_of_mem mem)
              · exact later e mem

end

section
variable {schedule : List Event} (numbered : Numbered schedule)
include numbered

theorem eventMerge_iff {updates : List Event} (some : schedule ≠ []) :
    eventMerge schedule updates = .ret (updated schedule updates) ↔ Told schedule updates := by
  have new : ∀ e ∈ ([] : List Event), e.id = -1 := fun e mem => by cases mem
  constructor
  · intro ret
    by_contra bad
    obtain ⟨events, merged, ret⟩ := Outcome.bind_eq_ret.mp ret
    injection ret with ret
    have length := congrArg List.length ret
    rw [updated, renumber_length, renumber_length, List.length_append, absorb, List.length_map] at length
    have short : events.length < schedule.length + 0 + (added schedule updates).length :=
      mergeEvents_short numbered.nodup numbered.not_new new (fun good => bad good.2) events
        (by rwa [List.append_nil])
    omega
  · intro told
    have merged := mergeEvents_told (by rwa [List.append_nil]) numbered.nodup numbered.not_new new
      (fun no => (no rfl).elim) told
    rw [List.append_nil, List.append_nil] at merged
    rw [eventMerge, merged, Outcome.ret_bind, renumber_asNew, updated]

theorem eventRemove_eq (id : ℤ) :
    eventRemove schedule id = renumber (schedule.filter fun e => e.id ≠ id) := by
  have distinct := numbered.nodup
  clear numbered
  refine congrArg renumber ?_
  induction schedule with
  | nil => rfl
  | cons e es ih =>
      rw [List.map_cons, List.nodup_cons] at distinct
      by_cases here : e.id = id
      · rw [List.eraseP_cons_of_pos (by simpa using here), List.filter_cons_of_neg (by simpa using here)]
        refine (List.filter_eq_self.mpr fun other mem => ?_).symm
        have differs : other.id ≠ id := fun same =>
          distinct.1 (here.trans same.symm ▸ List.mem_map_of_mem mem)
        simpa using differs
      · rw [List.eraseP_cons_of_neg (by simpa using here), List.filter_cons_of_pos (by simpa using here),
          ih distinct.2]

end

theorem mergeEvent_ret {events : List Event} (some : events ≠ []) (event : Event) :
    ∃ next, next ≠ [] ∧ mergeEvent events event = .ret next := by
  unfold mergeEvent
  cases changed : modifyFirst Event.id event.id (Event.overwrite · event) events with
  | none =>
      cases events with
      | nil => exact absurd rfl some
      | cons e es => exact ⟨_, List.cons_ne_nil _ _, rfl⟩
  | some next =>
      refine ⟨next, ?_, rfl⟩
      rintro rfl
      exact some (List.length_eq_zero_iff.mp (modifyFirst_length changed).symm)

theorem mergeEvents_ret_iff {events updates : List Event} :
    (∃ next, mergeEvents events updates = .ret next) ↔ (updates ≠ [] → events ≠ []) := by
  constructor
  · rintro ⟨next, ret⟩ filled rfl
    cases updates with
    | nil => exact filled rfl
    | cons event updates => cases ret
  · intro finds
    induction updates generalizing events with
    | nil => exact ⟨events, rfl⟩
    | cons event updates ih =>
        obtain ⟨next, filled, merged⟩ := mergeEvent_ret (finds (List.cons_ne_nil _ _)) event
        rw [mergeEvents, merged]
        exact ih fun _ => filled

theorem Update.run_ret {events next : List Event} {update : Update} (ret : update.run events = .ret next) :
    Numbered next := by
  cases update with
  | merge event =>
      obtain ⟨merged, -, eq⟩ := Outcome.bind_eq_ret.mp ret
      injection eq with eq
      exact eq ▸ renumber_numbered merged
  | remove id =>
      injection ret with eq
      exact eq ▸ renumber_numbered _

theorem Update.run_ret_iff {events : List Event} {update : Update} :
    (∃ next, update.run events = .ret next) ↔ update.Finds events := by
  cases update with
  | merge event =>
      rw [Finds, ← mergeEvents_ret_iff]
      constructor
      · rintro ⟨next, ret⟩
        obtain ⟨merged, first, -⟩ := Outcome.bind_eq_ret.mp ret
        exact ⟨merged, first⟩
      · rintro ⟨merged, first⟩
        exact ⟨_, Outcome.bind_eq_ret.mpr ⟨merged, first, rfl⟩⟩
  | remove id => exact ⟨fun _ => trivial, fun _ => ⟨_, rfl⟩⟩

/-- A run ends with a numbered schedule exactly if no merge of events meets an empty one. -/
theorem runUpdates_iff {events : List Event} (numbered : Numbered events) (history : List Update) :
    (∃ last, runUpdates events history = .ret last ∧ Numbered last) ↔ Lasts events history := by
  induction history generalizing events with
  | nil => exact ⟨fun _ => trivial, fun _ => ⟨events, rfl, numbered⟩⟩
  | cons update history ih =>
      rw [runUpdates, Lasts]
      constructor
      · rintro ⟨last, ret, whole⟩
        obtain ⟨next, first, rest⟩ := Outcome.bind_eq_ret.mp ret
        refine ⟨Update.run_ret_iff.mp ⟨next, first⟩, fun other again => ?_⟩
        obtain rfl := Outcome.ret.inj (first.symm.trans again)
        exact (ih (Update.run_ret first)).mp ⟨last, rest, whole⟩
      · rintro ⟨finds, lasts⟩
        obtain ⟨next, first⟩ := Update.run_ret_iff.mpr finds
        rw [first]
        exact (ih (Update.run_ret first)).mpr (lasts next first)

/-- A merge does what it is for exactly if no update of id -1 follows one that is not about an event of
the schedule; removals are right; a run ends with a numbered schedule exactly if no merge of events meets
an empty one. -/
theorem merge_iff_told {schedule : List Event} (numbered : Numbered schedule) :
    (∀ updates, schedule ≠ [] →
        (eventMerge schedule updates = .ret (updated schedule updates) ↔ Told schedule updates)) ∧
      (∀ id, eventRemove schedule id = renumber (schedule.filter fun e => e.id ≠ id)) ∧
      ∀ history, (∃ last, runUpdates schedule history = .ret last ∧ Numbered last) ↔
        Lasts schedule history :=
  ⟨fun _ => eventMerge_iff numbered, eventRemove_eq numbered, runUpdates_iff numbered⟩

theorem merge_iff_told_one :
    eventMerge [{ id := 0 }] [{ id := 0, info := some ['a'] }, {}] =
        .ret [{ id := 0, info := some ['a'] }, { id := 1 }] ∧
      eventRemove [{ id := 0 }] 0 = [] ∧
      ∃ last, runUpdates [{ id := 0 }] [.merge [{}], .remove 0] = .ret last ∧ Numbered last := by
  have numbered : Numbered [{ id := 0 }] := rfl
  have told : Told [{ id := 0 }] [{ id := 0, info := some ['a'] }, {}] := by simp [Told]
  have lasts : Lasts [{ id := 0 }] [.merge [{}], .remove 0] :=
    ⟨fun _ => List.cons_ne_nil _ _, fun _ _ => ⟨trivial, fun _ _ => trivial⟩⟩
  exact ⟨((merge_iff_told numbered).1 _ (by decide)).mpr told, (merge_iff_told numbered).2.1 0,
    ((merge_iff_told numbered).2.2 _).mpr lasts⟩

/-- Two new events become one. -/
theorem two_new_events :
    Numbered [{ id := 0 }] ∧
      eventMerge [{ id := 0 }] [{ info := some ['a'] }, { info := some ['b'] }] =
        .ret [{ id := 0 }, { id := 1, info := some ['b'] }] ∧
      updated [{ id := 0 }] [{ info := some ['a'] }, { info := some ['b'] }] =
        [{ id := 0 }, { id := 1, info := some ['a'] }, { id := 2, info := some ['b'] }] :=
  ⟨rfl, rfl, rfl⟩

example : runUpdates [{ id := 0 }] [.remove 0, .merge [{}]] = .abort "mio_event_tail_get" := rfl

end Mio.LibMio
