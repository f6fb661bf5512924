import Mathlib.Data.List.Count
import Mathlib.Data.List.Nodup
import Mio.LibMio.RxQueue

/-! Who owns the responses of the pubsub receive queue, call by call. -/
namespace Mio.LibMio

variable {α : Type}

/-- The queue with what has become of the responses. -/
structure OwnedQueue (α : Type) extends RxQueue α where
  /-- By `mio_pubsub_data_receive`. -/
  handed : List α
  /-- By `mio_response_free`. -/
  released : List α
  freedNull : Bool
  /-- Whether the last call was `mio_pubsub_data_rx_queue_clear`. -/
  cleared : Bool

namespace OwnedQueue

def new : OwnedQueue α := ⟨.new, [], [], false, false⟩

inductive Call (α : Type) where
  | enqueue (response : α)
  /-- With or without a connection. -/
  | receive (authenticated : Bool)
  | clear

/-- `_mio_pubsub_rx_queue_enqueue`; the oldest response of a full queue is in no other hand. -/
def enqueue (q : OwnedQueue α) (response : α) : OwnedQueue α :=
  { q with
    toRxQueue := if q.pubsubRxQueueLen ≥ pubsubRxQueueMaxLen then q.replaceOldest response
      else q.append response
    cleared := false }

/-- `_mio_pubsub_rx_queue_dequeue` with what it returns. -/
def pop (q : OwnedQueue α) : Option α × OwnedQueue α :=
  (if 0 < q.pubsubRxQueueLen then q.pubsubRxQueue.head? else none,
    { q with toRxQueue := q.toRxQueue.dequeue })

/-- `mio_response_free`. -/
def free (q : OwnedQueue α) : Option α → OwnedQueue α
  | some response => { q with released := q.released ++ [response] }
  | none => { q with freedNull := true }

/-- Nobody enqueues while `mio_pubsub_data_receive` waits, so it leaves an empty queue as it is. -/
def receive (q : OwnedQueue α) (authenticated : Bool) : OwnedQueue α :=
  if authenticated then
    match q.pop with
    | (some response, q) => { q with handed := q.handed ++ [response], cleared := false }
    | (none, q) => { q with cleared := false }
  else { q with cleared := false }

@[simp] theorem free_len (q : OwnedQueue α) (response : Option α) :
    (q.free response).pubsubRxQueueLen = q.pubsubRxQueueLen := by
  cases response <;> rfl

theorem pop_len (q : OwnedQueue α) : q.pop.2.pubsubRxQueueLen =
    if 0 < q.pubsubRxQueueLen then q.pubsubRxQueueLen - 1 else q.pubsubRxQueueLen := by
  change q.toRxQueue.dequeue.pubsubRxQueueLen = _
  unfold RxQueue.dequeue
  split <;> rfl

theorem pop_none {q : OwnedQueue α} (empty : ¬ 0 < q.pubsubRxQueueLen) : q.pop = (none, q) := by
  unfold pop RxQueue.dequeue
  rw [if_neg empty, if_neg empty]

/-- `while (response != NULL)`. -/
def clearLoop (response : Option α) (q : OwnedQueue α) : OwnedQueue α :=
  if response.isSome then clearLoop q.pop.1 (q.pop.2.free q.pop.1) else q
termination_by q.pubsubRxQueueLen.toNat + if response.isSome then 1 else 0
decreasing_by
  rename_i some
  rw [if_pos some, free_len, pop_len]
  by_cases more : 0 < q.pubsubRxQueueLen
  · rw [if_pos more]
    have last : (if q.pop.1.isSome = true then 1 else 0) ≤ 1 := by split <;> decide
    omega
  · rw [if_neg more, pop_none more]
    exact Nat.lt_succ_self _

/-- `mio_pubsub_data_rx_queue_clear`. -/
def clear (q : OwnedQueue α) : OwnedQueue α :=
  { clearLoop q.pop.1 q.pop.2 with cleared := true }

section
variable [DecidableEq α]

/-- Every response is enqueued once, and nothing follows a call of `mio_response_free` with `NULL`. -/
def next (q : OwnedQueue α) (call : Call α) : Option (OwnedQueue α) :=
  if q.freedNull then none
  else
    match call with
    | .enqueue response => if response ∈ q.entered then none else some (q.enqueue response)
    | .receive authenticated => some (q.receive authenticated)
    | .clear => some q.clear

def system (α : Type) [DecidableEq α] : System (OwnedQueue α) (Call α) := .ofNext new next

/-- Every response is in the queue, or was handed over, or was released, and only one of these and once. -/
structure Owned (q : OwnedQueue α) : Prop where
  once : ∀ response ∈ q.entered, (q.pubsubRxQueue ++ q.handed ++ q.released).count response = 1
  freed : q.freedNull = false
  cleared : q.cleared → q.pubsubRxQueue = [] ∧ q.pubsubRxQueueLen = 0

end

/-- A response is enqueued only where there is room, and the queue is cleared only when it is empty. -/
def Kind (q : OwnedQueue α) : Call α → Prop
  | .enqueue _ => q.pubsubRxQueueLen < pubsubRxQueueMaxLen
  | .receive _ => True
  | .clear => q.pubsubRxQueueLen = 0

/-- The queue is in order between calls, and every response is accounted for. -/
structure Kept (q : OwnedQueue α) : Prop where
  steady : RxQueue.Steady q.toRxQueue
  idle : q.enqueueing = none
  distinct : q.entered.Nodup
  all : q.entered.Perm (q.pubsubRxQueue ++ q.handed ++ q.released)
  freed : q.freedNull = false
  cleared : q.cleared → q.pubsubRxQueue = [] ∧ q.pubsubRxQueueLen = 0

theorem Kept.owned [DecidableEq α] {q : OwnedQueue α} (h : Kept q) : Owned q := by
  refine ⟨fun response mem => ?_, h.freed, h.cleared⟩
  rw [← h.all.count_eq]
  exact List.count_eq_one_of_mem h.distinct mem

theorem kept_new : Kept (new : OwnedQueue α) :=
  ⟨RxQueue.steady_new, rfl, List.nodup_nil, .refl _, rfl, fun no => by cases no⟩

section
variable {q : OwnedQueue α} {response : α}

theorem Kept.enqueue (h : Kept q) (fresh : response ∉ q.entered)
    (room : q.pubsubRxQueueLen < pubsubRxQueueMaxLen) : Kept (q.enqueue response) := by
  have tested : RxQueue.Steady { q.toRxQueue with
      enqueueing := some (response, decide (q.pubsubRxQueueLen ≥ pubsubRxQueueMaxLen)) } :=
    RxQueue.steady_test h.steady
  have appended : RxQueue.Steady (q.append response) := by
    rw [decide_eq_false (not_le.mpr room)] at tested
    have steady := RxQueue.steady_append tested rfl
    have same : { RxQueue.append { q.toRxQueue with enqueueing := some (response, false) } response with
        enqueueing := none } = q.append response := by
      simp only [RxQueue.append, RxQueue.insertTail, h.idle]
    rwa [same] at steady
  have eq : q.enqueue response = { q with toRxQueue := q.append response, cleared := false } := by
    rw [OwnedQueue.enqueue, if_neg (not_le.mpr room)]
  rw [eq]
  refine ⟨appended, h.idle, ?_, ?_, h.freed, fun no => by cases no⟩
  · exact List.nodup_append.mpr ⟨h.distinct, List.nodup_singleton _, fun a ha b hb => by
      rw [List.mem_singleton.mp hb]
      rintro rfl
      exact fresh ha⟩
  · change (q.entered ++ [response]).Perm (q.pubsubRxQueue ++ [response] ++ q.handed ++ q.released)
    refine (h.all.append_right _).trans ?_
    rw [List.append_assoc, List.append_assoc, List.append_assoc, List.append_assoc]
    refine List.Perm.append_left _ ?_
    rw [← List.append_assoc]
    exact List.perm_append_comm

theorem Kept.pop_some (h : Kept q) {rest : List α} (queue : q.pubsubRxQueue = response :: rest) :
    0 < q.pubsubRxQueueLen ∧ q.pop.1 = some response ∧ q.pop.2.pubsubRxQueue = rest := by
  have positive : 0 < q.pubsubRxQueueLen := by
    rw [h.steady.length, queue]
    exact Int.natCast_pos.mpr (Nat.succ_pos _)
  refine ⟨positive, ?_, ?_⟩
  · rw [pop, if_pos positive, queue]
    rfl
  · change q.toRxQueue.dequeue.pubsubRxQueue = rest
    simp only [RxQueue.dequeue, if_pos positive, RxQueue.removeFirst, queue]

theorem Kept.pop_empty (h : Kept q) (queue : q.pubsubRxQueue = []) : q.pop = (none, q) := by
  apply pop_none
  rw [h.steady.length, queue]
  exact lt_irrefl _

theorem Kept.receive (h : Kept q) (authenticated : Bool) : Kept (q.receive authenticated) := by
  unfold OwnedQueue.receive
  cases authenticated with
  | false => exact ⟨h.steady, h.idle, h.distinct, h.all, h.freed, fun no => by cases no⟩
  | true =>
      rw [if_pos rfl]
      cases queue : q.pubsubRxQueue with
      | nil =>
          rw [h.pop_empty queue]
          exact ⟨h.steady, h.idle, h.distinct, h.all, h.freed, fun no => by cases no⟩
      | cons first rest =>
          obtain ⟨positive, popped, left⟩ := h.pop_some queue
          have steady := RxQueue.steady_dequeue h.steady fun r busy => by
            rw [h.idle] at busy
            cases busy
          have kept : q.pop.2.entered = q.entered ∧ q.pop.2.enqueueing = q.enqueueing := by
            change q.toRxQueue.dequeue.entered = _ ∧ q.toRxQueue.dequeue.enqueueing = _
            simp only [RxQueue.dequeue, if_pos positive, RxQueue.removeFirst, queue, and_self]
          have eq : q.pop = (some first, q.pop.2) := by rw [← popped]
          rw [eq]
          refine ⟨steady, kept.2.trans h.idle, kept.1 ▸ h.distinct, ?_, h.freed, fun no => by cases no⟩
          change q.pop.2.entered.Perm (q.pop.2.pubsubRxQueue ++ (q.handed ++ [first]) ++ q.released)
          rw [kept.1, left]
          refine h.all.trans ?_
          have front : (first :: (rest ++ q.handed ++ q.released)).Perm
              (rest ++ q.handed ++ first :: q.released) :=
            List.perm_middle.symm
          rw [queue]
          simpa using front

theorem clear_empty (empty : q.pubsubRxQueueLen = 0) : q.clear = { q with cleared := true } := by
  have none : q.pop = (none, q) := pop_none (empty ▸ lt_irrefl _)
  rw [clear, none, clearLoop, if_neg (by simp)]

theorem Kept.clear (h : Kept q) (empty : q.pubsubRxQueueLen = 0) : Kept q.clear := by
  rw [clear_empty empty]
  refine ⟨h.steady, h.idle, h.distinct, h.all, h.freed, fun _ => ⟨?_, empty⟩⟩
  have length := h.steady.length
  rw [empty] at length
  exact List.length_eq_zero_iff.mp (Int.natCast_eq_zero.mp length.symm)

theorem kept_next [DecidableEq α] {q' : OwnedQueue α} {call : Call α} (h : Kept q) (kind : Kind q call)
    (step : next q call = some q') : Kept q' := by
  simp only [next, h.freed, Bool.false_eq_true, if_false] at step
  cases call with
  | enqueue response =>
      simp only at step
      split at step
      · cases step
      · next fresh =>
          cases step
          exact h.enqueue fresh kind
  | receive authenticated =>
      cases step
      exact h.receive authenticated
  | clear =>
      cases step
      exact h.clear kind

/-- Once the loop runs, its last round frees `NULL`. -/
theorem clearLoop_freedNull (q : OwnedQueue α) (response : α) :
    (clearLoop (some response) q).freedNull = true := by
  obtain ⟨n, len⟩ : ∃ n, q.pubsubRxQueueLen.toNat = n := ⟨_, rfl⟩
  induction n generalizing q response with
  | zero =>
      rw [clearLoop, if_pos Option.isSome_some, pop_none (by omega), clearLoop, if_neg (by simp)]
      rfl
  | succ n ih =>
      rw [clearLoop, if_pos Option.isSome_some]
      cases popped : q.pop.1 with
      | none =>
          rw [clearLoop, if_neg (by simp)]
          rfl
      | some more =>
          apply ih
          rw [free_len, pop_len]
          split <;> omega

/-- So the condition leaves out only what goes wrong. -/
theorem owned_next_iff [DecidableEq α] {q' : OwnedQueue α} {call : Call α} (h : Kept q)
    (step : next q call = some q') : Owned q' ↔ Kind q call := by
  refine ⟨fun owned => ?_, fun kind => (kept_next h kind step).owned⟩
  by_contra other
  simp only [next, h.freed, Bool.false_eq_true, if_false] at step
  cases call with
  | receive authenticated => exact other trivial
  | clear =>
      cases step
      cases queue : q.pubsubRxQueue with
      | nil => exact other (by rw [Kind, h.steady.length, queue]; rfl)
      | cons first rest =>
          have freed : q.clear.freedNull = true := by
            change (clearLoop q.pop.1 q.pop.2).freedNull = true
            rw [(h.pop_some queue).2.1]
            exact clearLoop_freedNull _ _
          rw [owned.freed] at freed
          cases freed
  | enqueue response =>
      simp only at step
      split at step
      · cases step
      · next fresh =>
          cases step
          have full : q.pubsubRxQueueLen ≥ pubsubRxQueueMaxLen := not_lt.mp other
          cases queue : q.pubsubRxQueue with
          | nil =>
              rw [h.steady.length, queue] at full
              cases full
          | cons first rest =>
              have here : first ∈ q.entered := h.all.mem_iff.mpr (by simp [queue])
              have old := h.owned.once first here
              have new := owned.once first (by
                simp only [OwnedQueue.enqueue, if_pos full, RxQueue.replaceOldest, RxQueue.removeFirst, queue,
                  RxQueue.insertTail]
                exact List.mem_append_left _ here)
              have ne : response ≠ first := by
                rintro rfl
                exact fresh here
              simp only [OwnedQueue.enqueue, if_pos full, RxQueue.replaceOldest, RxQueue.removeFirst, queue,
                RxQueue.insertTail] at new
              simp only [queue, List.count_append, List.count_cons_self, List.count_cons_of_ne ne,
                List.count_nil] at old new
              omega

end

/-- While nothing is enqueued into a full queue and only the empty queue is cleared, every response has one
owner. -/
theorem owned_of_kind [DecidableEq α] {q : OwnedQueue α} (run : ((system α).restrict Kind).Reachable q) : Owned q := by
  refine (System.Reachable.induct (I := Kept) ?_ ?_ run).owned
  · rintro s rfl
    exact kept_new
  · rintro s e t h ⟨kind, step⟩
    exact kept_next h kind step

/-- One response comes and goes, and the empty queue is cleared. -/
theorem owned_of_kind_one :
    Owned (⟨⟨[], 0, none, false, [7], [(7, .delivered)]⟩, [7], [], false, true⟩ : OwnedQueue ℕ) := by
  have start : ((system ℕ).restrict Kind).Reachable new := .init rfl
  have entered : ((system ℕ).restrict Kind).Reachable
      ⟨⟨[7], 1, none, false, [7], []⟩, [], [], false, false⟩ :=
    .step (e := Call.enqueue 7) start ⟨(by decide : (0 : ℤ) < pubsubRxQueueMaxLen), rfl⟩
  have received : ((system ℕ).restrict Kind).Reachable
      ⟨⟨[], 0, none, false, [7], [(7, .delivered)]⟩, [7], [], false, false⟩ :=
    .step (e := Call.receive true) entered ⟨trivial, rfl⟩
  refine owned_of_kind (.step (e := Call.clear) received ⟨rfl, ?_⟩)
  exact congrArg some (clear_empty rfl)

/-- A queue of one response is cleared: the response is not released, and `NULL` is. -/
theorem cleared_not_owned : ∃ q, (system ℕ).Reachable q ∧ ¬ Owned q := by
  have start : (system ℕ).Reachable new := .init rfl
  have entered : (system ℕ).Reachable ⟨⟨[7], 1, none, false, [7], []⟩, [], [], false, false⟩ :=
    .step (e := Call.enqueue 7) start rfl
  refine ⟨_, .step (e := Call.clear) entered rfl, fun owned => ?_⟩
  have freed := clearLoop_freedNull (α := ℕ) ⟨⟨[], 0, none, false, [7], [(7, .delivered)]⟩, [], [], false, false⟩ 7
  have same := owned.freed
  change (clearLoop (some 7) _).freedNull = false at same
  exact absurd (same.symm.trans freed) (by decide)

end OwnedQueue
end Mio.LibMio
