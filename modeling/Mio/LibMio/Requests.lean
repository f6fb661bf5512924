import Mathlib.Logic.Function.Basic
import Mathlib.Tactic.Common
import Mathlib.Order.Defs.LinearOrder
import Mio.Lib.Transition

/-! `_mio_send_blocking` and the event loop that answers it, for any number of calls on one
connection. A step is a mutex-protected section, a test of `request->predicate` or a system call. -/
namespace Mio.LibMio

/-- `MIO_MAX_OPEN_REQUESTS`. -/
def maxOpenRequests : ℕ := 100

/-- `MIO_SEND_RETRIES`. -/
def sendRetries : ℕ := 3

/-- What `_mio_send_blocking` returns. -/
inductive Result where
  | ok
  | errorConnection
  | errorTimeout
  | errorCondWait
  | errorPredicate
  deriving DecidableEq

/-- Where a call of `_mio_send_blocking` stands. -/
inductive Phase where
  /-- In `sem_wait`. -/
  | opening
  /-- Before `sem_getvalue` in `_mio_request_add`. -/
  | counting
  /-- Before the locked section of `_mio_request_add`. -/
  | inserting
  /-- Before `xmpp_id_handler_add`. -/
  | registering
  | sending (attempts : ℕ)
  | reconnecting (attempts : ℕ)
  /-- Before `while (!request->predicate)`. -/
  | testing
  /-- The predicate was still 0. -/
  | tested
  /-- In `pthread_cond_timedwait` on the request's condition. -/
  | waiting
  | woken
  | returned (result : Result)
  deriving DecidableEq

/-- The permit has been taken and the call has not returned. -/
def Phase.inProgress : Phase → Bool
  | .opening | .returned _ => false
  | _ => true

/-- The request has been added, if nothing was in the way. -/
def Phase.added : Phase → Bool
  | .opening | .counting | .inserting | .returned _ => false
  | _ => true

/-- The stanza is out and its sender has not returned. -/
def Phase.sent : Phase → Bool
  | .testing | .tested | .waiting | .woken => true
  | _ => false

variable {Id : Type}

structure Call (Id : Type) where
  id : Id
  phase : Phase
  /-- `request->predicate`. -/
  predicate : Bool

def Call.inProgress (c : Call Id) : Bool := c.phase.inProgress

/-- A connection with the calls on it. A request is named by the number of its call. -/
structure Connection (Id : Type) where
  /-- `mio_open_requests`, the free permits. -/
  openRequests : ℕ
  requestTable : Id → Option ℕ
  idHandlers : Id → Option ℕ
  calls : List (Call Id)

section
variable {calls : List (Call Id)} {i j : ℕ} {c c' : Call Id}

theorem getElem_set_self (at_i : calls[i]? = some c) : (calls.set i c')[i]? = some c' := by
  obtain ⟨lt, -⟩ := List.getElem?_eq_some_iff.mp at_i
  exact List.getElem?_set_self lt

theorem getElem_set_ne (ne : j ≠ i) : (calls.set i c')[j]? = calls[j]? :=
  List.getElem?_set_ne ne.symm

theorem countP_set (p : Call Id → Bool) (c' : Call Id) (at_i : calls[i]? = some c) :
    (calls.set i c').countP p + (if p c then 1 else 0) = calls.countP p + (if p c' then 1 else 0) := by
  obtain ⟨lt, rfl⟩ := List.getElem?_eq_some_iff.mp at_i
  have count := List.countP_set (p := p) (a := c') lt
  have counted : (if p calls[i] then 1 else 0) ≤ calls.countP p := by
    split
    · next holds => exact List.countP_pos_iff.mpr ⟨_, List.getElem_mem lt, holds⟩
    · exact Nat.zero_le _
  omega

end

variable [DecidableEq Id]

namespace Connection

def new : Connection Id := ⟨maxOpenRequests, fun _ => none, fun _ => none, []⟩

/-- How a system call within a call ends: a send, or a wait on a condition. -/
inductive Answer where
  | ok
  | timedOut
  | failed

inductive Event (Id : Type) where
  | start (id : Id)
  /-- The next step of a call. -/
  | run (i : ℕ) (answer : Answer)
  /-- The event loop handles the reply to the stanza of a call. -/
  | reply (i : ℕ)

def put (conn : Connection Id) (i : ℕ) (c : Call Id) : Connection Id :=
  { conn with calls := conn.calls.set i c }

/-- The locked section of `_mio_request_add`. -/
def requestAdd (conn : Connection Id) (id : Id) (i : ℕ) : Connection Id :=
  match conn.requestTable id with
  | none => { conn with requestTable := Function.update conn.requestTable id (some i) }
  | some _ => conn

/-- `_mio_request_delete`. -/
def requestDelete (conn : Connection Id) (id : Id) : Connection Id :=
  match conn.requestTable id with
  | some _ => { conn with
      requestTable := Function.update conn.requestTable id none
      openRequests := conn.openRequests + 1 }
  | none => conn

/-- `xmpp_id_handler_add` keeps a handler that is there already. -/
def idHandlerAdd (conn : Connection Id) (id : Id) (i : ℕ) : Connection Id :=
  match conn.idHandlers id with
  | none => { conn with idHandlers := Function.update conn.idHandlers id (some i) }
  | some _ => conn

def idHandlerDelete (conn : Connection Id) (id : Id) : Connection Id :=
  { conn with idHandlers := Function.update conn.idHandlers id none }

/-- The exits that delete handler and request. -/
def giveUp (conn : Connection Id) (i : ℕ) (c : Call Id) (result : Result) : Connection Id :=
  ((conn.idHandlerDelete c.id).requestDelete c.id).put i { c with phase := .returned result }

/-- The next step of call `i`. -/
def runCall (conn : Connection Id) (i : ℕ) (c : Call Id) (answer : Answer) : Option (Connection Id) :=
  match c.phase with
  | .opening =>
      if conn.openRequests = 0 then none
      else some ({ conn with openRequests := conn.openRequests - 1 }.put i { c with phase := .counting })
  | .counting =>
      -- an error of `_mio_request_add` is not passed on
      if conn.openRequests = 0 then some (conn.put i { c with phase := .sending 0 })
      else some (conn.put i { c with phase := .inserting })
  | .inserting => some ((conn.requestAdd c.id i).put i { c with phase := .registering })
  | .registering => some ((conn.idHandlerAdd c.id i).put i { c with phase := .sending 0 })
  | .sending attempts =>
      match answer with
      | .ok => some (conn.put i { c with phase := .testing })
      | _ =>
          if attempts + 1 ≥ sendRetries then some (conn.giveUp i c .errorConnection)
          else some (conn.put i { c with phase := .reconnecting (attempts + 1) })
  | .reconnecting attempts =>
      match answer with
      | .ok => some (conn.put i { c with phase := .sending attempts })
      | .timedOut => some (conn.giveUp i c .errorTimeout)
      | .failed => some (conn.giveUp i c .errorCondWait)
  | .testing =>
      if c.predicate then some (conn.put i { c with phase := .returned .errorPredicate })
      else some (conn.put i { c with phase := .tested })
  | .tested => some (conn.put i { c with phase := .waiting })
  | .waiting =>
      match answer with
      -- a wait may also end by itself
      | .ok => some (conn.put i { c with phase := .woken })
      | .timedOut => some (conn.giveUp i c .errorTimeout)
      | .failed => some (conn.giveUp i c .errorCondWait)
  | .woken => some ((conn.requestDelete c.id).put i { c with phase := .returned .ok })
  | .returned _ => none

/-- `_mio_cond_signal`: sets the predicate, and wakes the sender if it is waiting. -/
def condSignal (conn : Connection Id) (r : ℕ) : Connection Id :=
  match conn.calls[r]? with
  | some c => conn.put r { c with
      predicate := true
      phase := if c.phase = .waiting then .woken else c.phase }
  | none => conn

/-- The id handler of call `i`: it looks the request up and signals it; a handler that succeeds is
removed. -/
def handleReply (conn : Connection Id) (i : ℕ) : Option (Connection Id) :=
  match conn.calls[i]? with
  | none => none
  | some c =>
      if c.phase.sent ∧ conn.idHandlers c.id = some i then
        match conn.requestTable c.id with
        | none => some conn
        | some r => some ((conn.condSignal r).idHandlerDelete c.id)
      else none

def next (conn : Connection Id) : Event Id → Option (Connection Id)
  | .start id => some { conn with calls := conn.calls ++ [⟨id, .opening, false⟩] }
  | .run i answer =>
      match conn.calls[i]? with
      | some c => conn.runCall i c answer
      | none => none
  | .reply i => conn.handleReply i

def system (Id : Type) [DecidableEq Id] : System (Connection Id) (Event Id) := .ofNext new next

/-- No permit is lost: the free ones and the calls in progress add up, and calls that have returned
leave nothing behind. -/
structure Conserved (conn : Connection Id) : Prop where
  permits : conn.openRequests + conn.calls.countP Call.inProgress = maxOpenRequests
  returned : (∀ c ∈ conn.calls, ∃ result, c.phase = .returned result) →
    conn.openRequests = maxOpenRequests ∧ ∀ c ∈ conn.calls, conn.requestTable c.id = none

/-- A call does not take the last permit, no two calls in progress have one id, and no reply is
handled before its sender has tested the predicate. -/
def Lawful (conn : Connection Id) : Event Id → Prop
  | .run i _ => ∀ c, conn.calls[i]? = some c →
      (c.phase = .counting → 0 < conn.openRequests) ∧
      (c.phase = .inserting → conn.requestTable c.id = none) ∧
      (c.phase = .testing → c.predicate = false)
  | _ => True

/-- The request table holds the requests of the calls that have added theirs, and nothing else. -/
structure Accounted (conn : Connection Id) : Prop where
  permits : conn.openRequests + conn.calls.countP Call.inProgress = maxOpenRequests
  listed : ∀ i c, conn.calls[i]? = some c → c.phase.added → conn.requestTable c.id = some i
  owned : ∀ id i, conn.requestTable id = some i →
    ∃ c, conn.calls[i]? = some c ∧ c.id = id ∧ c.phase.added

omit [DecidableEq Id] in
theorem Accounted.conserved {conn : Connection Id} (h : Accounted conn) : Conserved conn := by
  refine ⟨h.permits, fun returned => ⟨?_, fun c mem => ?_⟩⟩
  · have none : conn.calls.countP Call.inProgress = 0 := by
      apply List.countP_eq_zero.mpr
      intro c mem progress
      obtain ⟨result, eq⟩ := returned c mem
      rw [Call.inProgress, eq] at progress
      cases progress
    have permits := h.permits
    rwa [none, Nat.add_zero] at permits
  · cases entry : conn.requestTable c.id with
    | none => rfl
    | some i =>
        obtain ⟨d, at_i, -, added⟩ := h.owned c.id i entry
        obtain ⟨result, eq⟩ := returned d (List.mem_of_getElem? at_i)
        rw [eq] at added
        cases added

omit [DecidableEq Id] in
theorem accounted_new : Accounted (new : Connection Id) :=
  ⟨rfl, fun i c at_i => by simp [new] at at_i, fun id i entry => by simp [new] at entry⟩

namespace Accounted

variable {conn : Connection Id} {i : ℕ} {c c' : Call Id}

omit [DecidableEq Id] in
theorem start (h : Accounted conn) (id : Id) :
    Accounted { conn with calls := conn.calls ++ [⟨id, .opening, false⟩] } := by
  have old : ∀ (j : ℕ) d, conn.calls[j]? = some d →
      (conn.calls ++ [⟨id, .opening, false⟩])[j]? = some d := by
    intro j d at_j
    obtain ⟨lt, -⟩ := List.getElem?_eq_some_iff.mp at_j
    rw [List.getElem?_append_left lt]
    exact at_j
  refine ⟨?_, fun j d at_j added => ?_, fun id' j entry => ?_⟩
  · have same : (conn.calls ++ [Call.mk id .opening false]).countP Call.inProgress =
        conn.calls.countP Call.inProgress := by
      rw [List.countP_append]
      rfl
    exact (congrArg (conn.openRequests + ·) same).trans h.permits
  · rcases Nat.lt_or_ge j conn.calls.length with lt | ge
    · rw [List.getElem?_append_left lt] at at_j
      exact h.listed j d at_j added
    · rw [List.getElem?_append_right ge, List.getElem?_singleton] at at_j
      split at at_j
      · cases at_j
        cases added
      · cases at_j
  · obtain ⟨d, at_j, same, added⟩ := h.owned id' j entry
    exact ⟨d, old j d at_j, same, added⟩

omit [DecidableEq Id] in
theorem others (h : Accounted conn) (at_i : conn.calls[i]? = some c)
    (unlisted : ¬ c.phase.added) {id : Id} {j : ℕ} (entry : conn.requestTable id = some j) :
    ∃ d, (conn.calls.set i c')[j]? = some d ∧ d.id = id ∧ d.phase.added := by
  obtain ⟨d, at_j, same, added⟩ := h.owned id j entry
  refine ⟨d, (getElem_set_ne ?_).trans at_j, same, added⟩
  rintro rfl
  rw [at_i] at at_j
  cases at_j
  exact unlisted added

omit [DecidableEq Id] in
theorem put (h : Accounted conn) (at_i : conn.calls[i]? = some c) (id : c'.id = c.id)
    (progress : c'.inProgress = c.inProgress) (added : c'.phase.added = c.phase.added) :
    Accounted (conn.put i c') := by
  refine ⟨?_, fun j d at_j listed => ?_, fun id' j entry => ?_⟩
  · have count := countP_set Call.inProgress c' at_i
    rw [progress] at count
    exact (congrArg (conn.openRequests + ·) (Nat.add_right_cancel count)).trans h.permits
  · have at_j : (conn.calls.set i c')[j]? = some d := at_j
    by_cases eq : j = i
    · subst eq
      rw [getElem_set_self at_i] at at_j
      cases at_j
      rw [id]
      exact h.listed j c at_i (added ▸ listed)
    · rw [getElem_set_ne eq] at at_j
      exact h.listed j d at_j listed
  · obtain ⟨d, at_j, same, listed⟩ := h.owned id' j entry
    by_cases eq : j = i
    · subst eq
      rw [at_i] at at_j
      cases at_j
      exact ⟨c', getElem_set_self at_i, id.trans same, added ▸ listed⟩
    · exact ⟨d, (getElem_set_ne eq).trans at_j, same, listed⟩

omit [DecidableEq Id] in
theorem take (h : Accounted conn) (at_i : conn.calls[i]? = some c) (opening : c.phase = .opening)
    (free : conn.openRequests ≠ 0) : Accounted
      ({ conn with openRequests := conn.openRequests - 1 }.put i { c with phase := .counting }) := by
  have out : ¬ c.phase.added := by
    rw [opening]
    decide
  refine ⟨?_, fun j d at_j added => ?_, fun id j entry => h.others at_i out entry⟩
  · have count := countP_set Call.inProgress { c with phase := .counting } at_i
    have before : c.inProgress = false := by
      rw [Call.inProgress, opening]
      rfl
    have after : Call.inProgress { c with phase := .counting } = true := rfl
    rw [before, after] at count
    have permits := h.permits
    have total : conn.openRequests - 1 +
        (conn.calls.set i { c with phase := .counting }).countP Call.inProgress = maxOpenRequests := by
      simp only [Bool.false_eq_true, if_false, if_true] at count
      omega
    exact total
  · have at_j : (conn.calls.set i { c with phase := .counting })[j]? = some d := at_j
    by_cases eq : j = i
    · subst eq
      rw [getElem_set_self at_i] at at_j
      cases at_j
      cases added
    · rw [getElem_set_ne eq] at at_j
      exact h.listed j d at_j added

/-- `_mio_request_add` with an id that is not in use. -/
theorem add (h : Accounted conn) (at_i : conn.calls[i]? = some c) (inserting : c.phase = .inserting)
    (fresh : conn.requestTable c.id = none) :
    Accounted ((conn.requestAdd c.id i).put i { c with phase := .registering }) := by
  have out : ¬ c.phase.added := by
    rw [inserting]
    decide
  rw [requestAdd, fresh]
  refine ⟨?_, fun j d at_j added => ?_, fun id j entry => ?_⟩
  · have count := countP_set Call.inProgress { c with phase := .registering } at_i
    have before : c.inProgress = Call.inProgress { c with phase := .registering } := by
      rw [Call.inProgress, inserting]
      rfl
    rw [before] at count
    exact (congrArg (conn.openRequests + ·) (Nat.add_right_cancel count)).trans h.permits
  · have at_j : (conn.calls.set i { c with phase := .registering })[j]? = some d := at_j
    by_cases eq : j = i
    · subst eq
      rw [getElem_set_self at_i] at at_j
      cases at_j
      exact Function.update_self _ _ _
    · rw [getElem_set_ne eq] at at_j
      have listed := h.listed j d at_j added
      have ne : d.id ≠ c.id := by
        intro same
        rw [same, fresh] at listed
        cases listed
      exact (Function.update_of_ne ne _ _).trans listed
  · have entry : Function.update conn.requestTable c.id (some i) id = some j := entry
    by_cases same : id = c.id
    · subst same
      rw [Function.update_self] at entry
      cases entry
      exact ⟨_, getElem_set_self at_i, rfl, rfl⟩
    · rw [Function.update_of_ne same] at entry
      exact h.others at_i out entry

/-- `_mio_request_delete` finds the request of the call and gives its permit back. -/
theorem delete (h : Accounted conn) (at_i : conn.calls[i]? = some c) (added : c.phase.added)
    (result : Result) :
    Accounted ((conn.requestDelete c.id).put i { c with phase := .returned result }) := by
  have listed := h.listed i c at_i added
  rw [requestDelete, listed]
  refine ⟨?_, fun j d at_j addedJ => ?_, fun id j entry => ?_⟩
  · have before : c.inProgress = true := by
      unfold Call.inProgress
      cases phase : c.phase <;> rw [phase] at added <;> first | rfl | cases added
    have after : Call.inProgress { c with phase := .returned result } = false := rfl
    have count := countP_set Call.inProgress { c with phase := .returned result } at_i
    rw [before, after] at count
    have permits := h.permits
    have total : conn.openRequests + 1 +
        (conn.calls.set i { c with phase := .returned result }).countP Call.inProgress =
          maxOpenRequests := by
      simp only [Bool.false_eq_true, if_false, if_true] at count
      omega
    exact total
  · have at_j : (conn.calls.set i { c with phase := .returned result })[j]? = some d := at_j
    by_cases eq : j = i
    · subst eq
      rw [getElem_set_self at_i] at at_j
      cases at_j
      cases addedJ
    · rw [getElem_set_ne eq] at at_j
      have listedJ := h.listed j d at_j addedJ
      have ne : d.id ≠ c.id := by
        intro same
        rw [same, listed] at listedJ
        exact eq (Option.some.inj listedJ).symm
      exact (Function.update_of_ne ne _ _).trans listedJ
  · have entry : Function.update conn.requestTable c.id none id = some j := entry
    by_cases same : id = c.id
    · subst same
      rw [Function.update_self] at entry
      cases entry
    · rw [Function.update_of_ne same] at entry
      obtain ⟨d, at_j, eq, addedJ⟩ := h.owned id j entry
      refine ⟨d, (getElem_set_ne ?_).trans at_j, eq, addedJ⟩
      rintro rfl
      rw [at_i] at at_j
      cases at_j
      exact same eq.symm

theorem giveUp (h : Accounted conn) (at_i : conn.calls[i]? = some c) (added : c.phase.added)
    (result : Result) : Accounted (conn.giveUp i c result) := by
  have unhandled : Accounted (conn.idHandlerDelete c.id) := ⟨h.permits, h.listed, h.owned⟩
  exact unhandled.delete at_i added result

theorem idHandlerAdd (h : Accounted conn) (id : Id) (j : ℕ) : Accounted (conn.idHandlerAdd id j) := by
  unfold Connection.idHandlerAdd
  split
  · exact ⟨h.permits, h.listed, h.owned⟩
  · exact h

omit [DecidableEq Id] in
/-- A signal changes no more than the phase of a sender that waits. -/
theorem condSignal (h : Accounted conn) (r : ℕ) : Accounted (conn.condSignal r) := by
  unfold Connection.condSignal
  split
  · next c at_r =>
      refine h.put at_r rfl ?_ ?_
      · by_cases waiting : c.phase = .waiting <;> simp [Call.inProgress, waiting, Phase.inProgress]
      · by_cases waiting : c.phase = .waiting <;> simp [waiting, Phase.added]
  · exact h

theorem handleReply (h : Accounted conn) {conn' : Connection Id}
    (step : conn.handleReply i = some conn') : Accounted conn' := by
  unfold Connection.handleReply at step
  split at step
  · cases step
  · next c at_i =>
      split at step
      · split at step
        · cases step
          exact h
        · next r found =>
            cases step
            have signalled := h.condSignal r
            exact ⟨signalled.permits, signalled.listed, signalled.owned⟩
      · cases step

theorem runCall (h : Accounted conn) (at_i : conn.calls[i]? = some c)
    (lawful : (c.phase = .counting → 0 < conn.openRequests) ∧
      (c.phase = .inserting → conn.requestTable c.id = none) ∧
      (c.phase = .testing → c.predicate = false)) {answer : Answer} {conn' : Connection Id}
    (step : conn.runCall i c answer = some conn') : Accounted conn' := by
  obtain ⟨counts, inserts, tests⟩ := lawful
  unfold Connection.runCall at step
  have goTo : ∀ phase : Phase, phase.inProgress = c.phase.inProgress → phase.added = c.phase.added →
      Accounted (conn.put i { c with phase := phase }) :=
    fun _ progress added => h.put at_i rfl progress added
  cases phase : c.phase with
  | opening =>
      simp only [phase] at step
      split at step
      · cases step
      · next free =>
          cases step
          exact h.take at_i phase free
  | counting =>
      simp only [phase, if_neg (Nat.pos_iff_ne_zero.mp (counts phase)), Option.some.injEq] at step
      subst step
      exact goTo .inserting (by rw [phase]; rfl) (by rw [phase]; rfl)
  | inserting =>
      simp only [phase] at step
      cases step
      exact h.add at_i phase (inserts phase)
  | registering =>
      simp only [phase] at step
      cases step
      exact (h.idHandlerAdd c.id i).put (c := c) (by unfold Connection.idHandlerAdd; split <;> exact at_i) rfl
        (by rw [Call.inProgress, Call.inProgress, phase]; rfl) (by rw [phase]; rfl)
  | sending attempts =>
      have added : c.phase.added := by rw [phase]; rfl
      simp only [phase] at step
      split at step
      · cases step
        exact goTo .testing (by rw [phase]; rfl) (by rw [phase]; rfl)
      · split at step
        · cases step
          exact h.giveUp at_i added .errorConnection
        · cases step
          exact goTo (.reconnecting (attempts + 1)) (by rw [phase]; rfl) (by rw [phase]; rfl)
  | reconnecting attempts =>
      have added : c.phase.added := by rw [phase]; rfl
      simp only [phase] at step
      cases answer with
      | ok =>
          cases step
          exact goTo (.sending attempts) (by rw [phase]; rfl) (by rw [phase]; rfl)
      | timedOut =>
          cases step
          exact h.giveUp at_i added .errorTimeout
      | failed =>
          cases step
          exact h.giveUp at_i added .errorCondWait
  | testing =>
      have quiet : ¬ c.predicate = true := by
        rw [tests phase]
        decide
      simp only [phase, if_neg quiet, Option.some.injEq] at step
      subst step
      exact goTo .tested (by rw [phase]; rfl) (by rw [phase]; rfl)
  | tested =>
      simp only [phase] at step
      cases step
      exact goTo .waiting (by rw [phase]; rfl) (by rw [phase]; rfl)
  | waiting =>
      have added : c.phase.added := by rw [phase]; rfl
      simp only [phase] at step
      cases answer with
      | ok =>
          cases step
          exact goTo .woken (by rw [phase]; rfl) (by rw [phase]; rfl)
      | timedOut =>
          cases step
          exact h.giveUp at_i added .errorTimeout
      | failed =>
          cases step
          exact h.giveUp at_i added .errorCondWait
  | woken =>
      have added : c.phase.added := by rw [phase]; rfl
      simp only [phase] at step
      cases step
      exact h.delete at_i added .ok
  | returned result =>
      simp only [phase] at step
      cases step

theorem step {e : Event Id} {conn' : Connection Id} (h : Accounted conn) (lawful : Lawful conn e)
    (step : conn.next e = some conn') : Accounted conn' := by
  cases e with
  | start id =>
      cases step
      exact h.start id
  | run i answer =>
      simp only [Connection.next] at step
      split at step
      · next c at_i => exact h.runCall at_i (lawful c at_i) step
      · cases step
  | reply i => exact h.handleReply step

end Accounted

/-- As long as no call takes the last permit or an id in use and no reply outruns the test of the
predicate, permits are conserved. -/
theorem permits_conserved {conn : Connection Id} (run : ((system Id).restrict Lawful).Reachable conn) :
    Conserved conn := by
  refine (System.Reachable.induct (I := Accounted) ?_ ?_ run).conserved
  · rintro s rfl
    exact accounted_new
  · rintro s e t h ⟨lawful, step⟩
    exact h.step lawful step

instance (conn : Connection Id) (e : Event Id) : Decidable (Lawful conn e) :=
  match e with
  | .run i _ => inferInstanceAs (Decidable (∀ c ∈ conn.calls[i]?, _))
  | .start _ | .reply _ => isTrue trivial

/-- A call whose reply comes while it waits. -/
theorem permits_conserved_one : ∃ conn : Connection ℕ, conn.calls.map Call.phase = [.returned .ok] ∧
    Conserved conn := by
  refine ⟨_, ?_, permits_conserved (.exec_restrict [.start 7, .run 0 .ok, .run 0 .ok, .run 0 .ok,
    .run 0 .ok, .run 0 .ok, .run 0 .ok, .run 0 .ok, .reply 0, .run 0 .ok] (.init rfl) rfl)⟩
  rfl

/-- The reply outruns the test of the predicate: the call returns and its permit is gone. -/
theorem permit_lost : ∃ conn : Connection ℕ, (system ℕ).Reachable conn ∧ ¬ Conserved conn := by
  refine ⟨_, .exec [.start 7, .run 0 .ok, .run 0 .ok, .run 0 .ok, .run 0 .ok, .run 0 .ok, .reply 0,
    .run 0 .ok] (.init rfl) rfl, fun conserved => ?_⟩
  exact absurd conserved.permits (by decide)

/-- What becomes of call `i` once its reply has been handled: it returns `MIO_OK` with its next step,
or has done so, and its request is out of the table. -/
def ReplyArrives (i : ℕ) (conn : Connection Id) : Prop :=
  ∀ c, conn.calls[i]? = some c → c.predicate →
    (c.phase = .woken ∧ ∀ answer, ∃ conn', conn.next (.run i answer) = some conn' ∧
      conn'.calls[i]? = some { c with phase := .returned .ok } ∧
      ∀ id, conn'.requestTable id ≠ some i) ∨
    (c.phase = .returned .ok ∧ ∀ id, conn.requestTable id ≠ some i)

/-- The handler that finds the request of call `i` runs while call `i` waits for it. -/
def HandledWaiting (i : ℕ) (conn : Connection Id) : Event Id → Prop
  | .reply j => ∀ c, conn.calls[j]? = some c → conn.requestTable c.id = some i →
      ∃ d, conn.calls[i]? = some d ∧ (d.phase = .waiting ∨ d.phase = .woken)
  | _ => True

/-- What a step of call `i` can do to the calls and to the request table. -/
theorem runCall_spec {conn conn' : Connection Id} {i : ℕ} {c : Call Id} {answer : Answer}
    (step : conn.runCall i c answer = some conn') :
    (∃ phase, conn'.calls = conn.calls.set i { c with phase := phase }) ∧
      ∀ id k, conn'.requestTable id = some k → conn.requestTable id = some k ∨ k = i ∧ id = c.id := by
  have deleted : ∀ (conn : Connection Id) id k, (conn.requestDelete c.id).requestTable id = some k →
      conn.requestTable id = some k := by
    intro conn id k entry
    unfold requestDelete at entry
    split at entry
    · have entry : Function.update conn.requestTable c.id none id = some k := entry
      by_cases same : id = c.id
      · rw [same, Function.update_self] at entry
        cases entry
      · rwa [Function.update_of_ne same] at entry
    · exact entry
  have delete_calls : ∀ conn : Connection Id, (conn.requestDelete c.id).calls = conn.calls := by
    intro conn
    unfold requestDelete
    split <;> rfl
  have gaveUp : ∀ result, conn.giveUp i c result = conn' → (∃ phase, conn'.calls =
      conn.calls.set i { c with phase := phase }) ∧
      ∀ id k, conn'.requestTable id = some k → conn.requestTable id = some k ∨ k = i ∧ id = c.id := by
    rintro result rfl
    refine ⟨⟨.returned result, ?_⟩, fun id k entry => .inl (deleted (conn.idHandlerDelete c.id) id k entry)⟩
    exact congrArg (List.set · i _) (delete_calls _)
  unfold runCall at step
  split at step
  · split at step
    · cases step
    · cases step
      exact ⟨⟨_, rfl⟩, fun _ _ => .inl⟩
  · split at step
    all_goals
      cases step
      exact ⟨⟨_, rfl⟩, fun _ _ => .inl⟩
  · cases step
    have calls : (conn.requestAdd c.id i).calls = conn.calls := by
      unfold requestAdd
      split <;> rfl
    refine ⟨⟨_, congrArg (List.set · i _) calls⟩, fun id k entry => ?_⟩
    have entry : (conn.requestAdd c.id i).requestTable id = some k := entry
    unfold requestAdd at entry
    split at entry
    · have entry : Function.update conn.requestTable c.id (some i) id = some k := entry
      by_cases same : id = c.id
      · rw [same, Function.update_self] at entry
        cases entry
        exact .inr ⟨rfl, same⟩
      · rw [Function.update_of_ne same] at entry
        exact .inl entry
    · exact .inl entry
  · cases step
    unfold idHandlerAdd
    split <;> exact ⟨⟨_, rfl⟩, fun _ _ => .inl⟩
  · split at step
    · cases step
      exact ⟨⟨_, rfl⟩, fun _ _ => .inl⟩
    · split at step
      · exact gaveUp _ (Option.some.inj step)
      · cases step
        exact ⟨⟨_, rfl⟩, fun _ _ => .inl⟩
  · split at step
    · cases step
      exact ⟨⟨_, rfl⟩, fun _ _ => .inl⟩
    · exact gaveUp _ (Option.some.inj step)
    · exact gaveUp _ (Option.some.inj step)
  · split at step
    all_goals
      cases step
      exact ⟨⟨_, rfl⟩, fun _ _ => .inl⟩
  · cases step
    exact ⟨⟨_, rfl⟩, fun _ _ => .inl⟩
  · split at step
    · cases step
      exact ⟨⟨_, rfl⟩, fun _ _ => .inl⟩
    · exact gaveUp _ (Option.some.inj step)
    · exact gaveUp _ (Option.some.inj step)
  · cases step
    exact ⟨⟨_, congrArg (List.set · i _) (delete_calls conn)⟩, fun id k entry => .inl (deleted _ id k entry)⟩
  · cases step

/-- A request is listed under its own id, and a call whose reply has been handled has been woken. -/
structure Settling (i : ℕ) (conn : Connection Id) : Prop where
  own : ∀ id, conn.requestTable id = some i → ∃ c, conn.calls[i]? = some c ∧ c.id = id
  handled : ∀ c, conn.calls[i]? = some c → c.predicate →
    c.phase = .woken ∨ (c.phase = .returned .ok ∧ ∀ id, conn.requestTable id ≠ some i)

namespace Settling

variable {i : ℕ} {conn conn' : Connection Id}

omit [DecidableEq Id] in
theorem frame (h : Settling i conn) (calls : conn'.calls[i]? = conn.calls[i]?)
    (table : ∀ id, conn'.requestTable id = some i → conn.requestTable id = some i) :
    Settling i conn' := by
  refine ⟨fun id entry => ?_, fun c at_i predicate => ?_⟩
  · obtain ⟨c, at_i, same⟩ := h.own id (table id entry)
    exact ⟨c, calls.trans at_i, same⟩
  · refine (h.handled c (calls ▸ at_i) predicate).imp_right ?_
    exact And.imp_right fun out id entry => out id (table id entry)

/-- The sender deletes its request when it has been woken. -/
theorem wake (h : Settling i conn) {c : Call Id} (at_i : conn.calls[i]? = some c) :
    ((conn.requestDelete c.id).put i { c with phase := .returned .ok }).calls[i]? =
        some { c with phase := .returned .ok } ∧
      ∀ id, ((conn.requestDelete c.id).put i { c with phase := .returned .ok }).requestTable id ≠
        some i := by
  have calls : (conn.requestDelete c.id).calls = conn.calls := by
    unfold requestDelete
    split <;> rfl
  refine ⟨?_, fun id entry => ?_⟩
  · have at_i' : (conn.requestDelete c.id).calls[i]? = some c := by rw [calls, at_i]
    exact getElem_set_self at_i'
  · have entry : (conn.requestDelete c.id).requestTable id = some i := entry
    have listed : ∀ id, conn.requestTable id = some i → id = c.id := by
      intro id entry
      obtain ⟨d, at_d, same⟩ := h.own id entry
      rw [at_i] at at_d
      cases at_d
      exact same.symm
    unfold requestDelete at entry
    split at entry
    · have entry : Function.update conn.requestTable c.id none id = some i := entry
      by_cases same : id = c.id
      · rw [same, Function.update_self] at entry
        cases entry
      · rw [Function.update_of_ne same] at entry
        exact same (listed id entry)
    · next none =>
        have same := listed id entry
        rw [same, none] at entry
        cases entry

theorem run (h : Settling i conn) {c : Call Id} (at_i : conn.calls[i]? = some c) {answer : Answer}
    (step : conn.runCall i c answer = some conn') : Settling i conn' := by
  obtain ⟨⟨phase, calls⟩, table⟩ := runCall_spec step
  have now : conn'.calls[i]? = some { c with phase := phase } := by
    rw [calls]
    exact getElem_set_self at_i
  refine ⟨fun id entry => ⟨_, now, ?_⟩, fun d at_d predicate => ?_⟩
  · rcases table id i entry with old | ⟨-, same⟩
    · obtain ⟨d, at_d, same⟩ := h.own id old
      rw [at_i] at at_d
      cases at_d
      exact same
    · exact same.symm
  · rw [now] at at_d
    cases at_d
    rcases h.handled c at_i predicate with woken | ⟨done, -⟩
    · unfold runCall at step
      simp only [woken, Option.some.injEq] at step
      subst step
      obtain ⟨put, out⟩ := h.wake at_i
      rw [now] at put
      exact .inr ⟨congrArg Call.phase (Option.some.inj put), out⟩
    · unfold runCall at step
      simp only [done] at step
      cases step

theorem reply (h : Settling i conn) {j : ℕ} (waiting : HandledWaiting i conn (.reply j))
    (step : conn.handleReply j = some conn') : Settling i conn' := by
  unfold handleReply at step
  split at step
  · cases step
  next c at_j =>
  split at step
  · split at step
    · cases step
      exact h
    · next r found =>
        cases step
        unfold condSignal
        split
        · next d at_r =>
            by_cases same : r = i
            · subst same
              obtain ⟨e, at_e, phase⟩ := waiting c at_j found
              rw [at_r] at at_e
              cases at_e
              refine ⟨fun id entry => ?_, fun e at_e _ => .inl ?_⟩
              · obtain ⟨e, at_e, own⟩ := h.own id entry
                rw [at_r] at at_e
                cases at_e
                exact ⟨_, getElem_set_self at_r, own⟩
              · have at_e : (conn.calls.set r _)[r]? = some e := at_e
                rw [getElem_set_self at_r] at at_e
                cases at_e
                rcases phase with phase | phase <;> simp [phase]
            · exact h.frame (getElem_set_ne (Ne.symm same)) fun _ => id
        · exact h.frame rfl fun _ => id
  · cases step

theorem step {e : Event Id} (h : Settling i conn) (waiting : HandledWaiting i conn e)
    (step : conn.next e = some conn') : Settling i conn' := by
  cases e with
  | start id =>
      cases step
      refine ⟨fun id' entry => ?_, fun c at_i predicate => ?_⟩
      · obtain ⟨c, at_i, same⟩ := h.own id' entry
        obtain ⟨lt, -⟩ := List.getElem?_eq_some_iff.mp at_i
        exact ⟨c, (List.getElem?_append_left lt).trans at_i, same⟩
      · have at_i : (conn.calls ++ [Call.mk id .opening false])[i]? = some c := at_i
        rcases Nat.lt_or_ge i conn.calls.length with lt | ge
        · rw [List.getElem?_append_left lt] at at_i
          exact h.handled c at_i predicate
        · rw [List.getElem?_append_right ge, List.getElem?_singleton] at at_i
          split at at_i
          · cases at_i
            cases predicate
          · cases at_i
  | run j answer =>
      simp only [next] at step
      split at step
      · next c at_j =>
          by_cases same : j = i
          · subst same
            exact h.run at_j step
          · obtain ⟨⟨phase, calls⟩, table⟩ := runCall_spec step
            refine h.frame ?_ fun id entry => ?_
            · rw [calls]
              exact getElem_set_ne (Ne.symm same)
            · exact (table id i entry).resolve_right fun own => same own.1.symm
      · cases step
  | reply j => exact h.reply waiting step

end Settling

/-- A call whose reply is handled while it waits returns `MIO_OK`, whatever the other calls do. -/
theorem reply_arrives {i : ℕ} {conn : Connection Id}
    (run : ((system Id).restrict (HandledWaiting i)).Reachable conn) : ReplyArrives i conn := by
  have settling : Settling i conn := by
    refine System.Reachable.induct ?_ ?_ run
    · rintro s rfl
      exact ⟨fun id entry => by simp [new] at entry, fun c at_i => by simp [new] at at_i⟩
    · rintro s e t h ⟨waiting, step⟩
      exact h.step waiting step
  intro c at_i predicate
  refine (settling.handled c at_i predicate).imp_left fun woken => ⟨woken, fun answer => ?_⟩
  refine ⟨_, ?_, settling.wake at_i⟩
  simp only [next, at_i, runCall, woken]

instance (i : ℕ) (conn : Connection Id) (e : Event Id) : Decidable (HandledWaiting i conn e) :=
  match e with
  | .reply j => inferInstanceAs (Decidable (∀ c ∈ conn.calls[j]?, conn.requestTable c.id = some i →
      ∃ d ∈ conn.calls[i]?, d.phase = .waiting ∨ d.phase = .woken))
  | .start _ | .run _ _ => isTrue trivial

/-- The call waits, the reply comes, the call returns. -/
theorem reply_arrives_one : ∃ conn : Connection ℕ, conn.calls.map Call.phase = [.returned .ok] ∧
    ReplyArrives 0 conn := by
  refine ⟨_, ?_, reply_arrives (.exec_restrict [.start 7, .run 0 .ok, .run 0 .ok, .run 0 .ok,
    .run 0 .ok, .run 0 .ok, .run 0 .ok, .run 0 .ok, .reply 0, .run 0 .ok] (.init rfl) rfl)⟩
  rfl

/-- The reply is handled before the first test of the predicate: the call returns
`MIO_ERROR_PREDICATE`. -/
theorem reply_lost : ∃ conn : Connection ℕ, (system ℕ).Reachable conn ∧
    conn.calls.map Call.phase = [.returned .errorPredicate] ∧ ¬ ReplyArrives 0 conn := by
  refine ⟨_, .exec [.start 7, .run 0 .ok, .run 0 .ok, .run 0 .ok, .run 0 .ok, .run 0 .ok, .reply 0,
    .run 0 .ok] (.init rfl) rfl, rfl, fun arrives => ?_⟩
  rcases arrives _ rfl rfl with ⟨woken, -⟩ | ⟨ok, -⟩
  · cases woken
  · cases ok

end Connection
end Mio.LibMio
