import Mathlib.Tactic.Ring
import Mio.Lib.Transition

/-! The queue of received pubsub responses in `mio.c`: the event loop enqueues, clients dequeue. The
event loop tests the length before it takes the lock. -/
namespace Mio.LibMio

/-- `MIO_PUBSUB_RX_QUEUE_MAX_LEN`. -/
def pubsubRxQueueMaxLen : ℤ := 100

variable {α : Type}

/-- How a response leaves the queue; a dropped one notes how many the queue held. -/
inductive Departure where
  | delivered
  | dropped (held : ℕ)

/-- The fields of the connection, what the event loop has in hand, and what has happened so far. -/
structure RxQueue (α : Type) where
  pubsubRxQueue : List α
  pubsubRxQueueLen : ℤ
  /-- The response being enqueued and how its length test came out. -/
  enqueueing : Option (α × Bool)
  /-- `TAILQ_REMOVE` was given a null element. -/
  removedNull : Bool
  entered : List α
  left : List (α × Departure)

namespace RxQueue

def new : RxQueue α := ⟨[], 0, none, false, [], []⟩

inductive Event (α : Type) where
  /-- The event loop's unlocked test. -/
  | test (response : α)
  /-- The locked section of `_mio_pubsub_rx_queue_enqueue`. -/
  | enqueue
  /-- `_mio_pubsub_rx_queue_dequeue`. -/
  | dequeue

def removeFirst (q : RxQueue α) (how : Departure) : RxQueue α :=
  match q.pubsubRxQueue with
  | [] => { q with removedNull := true }
  | first :: rest => { q with pubsubRxQueue := rest, left := q.left ++ [(first, how)] }

/-- `TAILQ_INSERT_TAIL`. -/
def insertTail (q : RxQueue α) (response : α) : RxQueue α :=
  { q with pubsubRxQueue := q.pubsubRxQueue ++ [response], entered := q.entered ++ [response] }

/-- The section entered when the queue was full. -/
def replaceOldest (q : RxQueue α) (response : α) : RxQueue α :=
  (q.removeFirst (.dropped q.pubsubRxQueue.length)).insertTail response

/-- The section entered when there was room. -/
def append (q : RxQueue α) (response : α) : RxQueue α :=
  { q.insertTail response with pubsubRxQueueLen := q.pubsubRxQueueLen + 1 }

def dequeue (q : RxQueue α) : RxQueue α :=
  if 0 < q.pubsubRxQueueLen then
    { q.removeFirst .delivered with pubsubRxQueueLen := q.pubsubRxQueueLen - 1 }
  else q

def next (q : RxQueue α) : Event α → Option (RxQueue α)
  | .test response =>
      match q.enqueueing with
      | some _ => none
      | none => some { q with
          enqueueing := some (response, decide (q.pubsubRxQueueLen ≥ pubsubRxQueueMaxLen)) }
  | .enqueue =>
      match q.enqueueing with
      | none => none
      | some (response, true) => some { q.replaceOldest response with enqueueing := none }
      | some (response, false) => some { q.append response with enqueueing := none }
  | .dequeue => some q.dequeue

def system (α : Type) : System (RxQueue α) (Event α) := .ofNext new next

/-- What is to hold at every moment. -/
structure Safe (q : RxQueue α) : Prop where
  length : q.pubsubRxQueueLen = q.pubsubRxQueue.length
  bounded : q.pubsubRxQueueLen ≤ pubsubRxQueueMaxLen
  removed : q.removedNull = false
  fifo : q.left.map Prod.fst ++ q.pubsubRxQueue = q.entered
  dropped : ∀ r held, (r, Departure.dropped held) ∈ q.left → (held : ℤ) = pubsubRxQueueMaxLen

/-- No client dequeues once the event loop has found the queue full, until it has dropped the oldest
response. -/
def Undisturbed (q : RxQueue α) : Event α → Prop
  | .dequeue => ∀ response, q.enqueueing ≠ some (response, true)
  | _ => True

/-- What the outcome of a length test still means when the lock is taken. -/
structure Steady (q : RxQueue α) : Prop extends Safe q where
  full : ∀ response, q.enqueueing = some (response, true) → q.pubsubRxQueueLen = pubsubRxQueueMaxLen
  room : ∀ response, q.enqueueing = some (response, false) → q.pubsubRxQueueLen < pubsubRxQueueMaxLen

theorem steady_new : Steady (new : RxQueue α) := by
  refine ⟨⟨rfl, ?_, rfl, rfl, ?_⟩, ?_, ?_⟩
  all_goals simp [new, pubsubRxQueueMaxLen]

section
variable {q : RxQueue α} {response : α}

theorem steady_test (h : Steady q) : Steady { q with
    enqueueing := some (response, decide (q.pubsubRxQueueLen ≥ pubsubRxQueueMaxLen)) } := by
  refine ⟨⟨h.length, h.bounded, h.removed, h.fifo, h.dropped⟩, ?_, ?_⟩
  · intro r tested
    simp only [Option.some.injEq, Prod.mk.injEq, decide_eq_true_eq] at tested
    exact le_antisymm h.bounded tested.2
  · intro r tested
    simp only [Option.some.injEq, Prod.mk.injEq, decide_eq_false_iff_not] at tested
    exact not_le.mp tested.2

theorem steady_replaceOldest (h : Steady q) (tested : q.enqueueing = some (response, true)) :
    Steady { q.replaceOldest response with enqueueing := none } := by
  have full := h.full response tested
  cases queue : q.pubsubRxQueue with
  | nil =>
      have length := h.length
      rw [full, queue] at length
      cases length
  | cons first rest =>
      have length := h.length
      have fifo := h.fifo
      simp only [replaceOldest, removeFirst, insertTail, queue]
      rw [queue] at length fifo
      refine ⟨⟨?_, h.bounded, h.removed, ?_, ?_⟩, fun _ done => (by cases done), fun _ done => (by cases done)⟩
      · simpa using length
      · simp [← fifo]
      · intro r held mem
        rcases List.mem_append.mp mem with old | new
        · exact h.dropped r held old
        · simp only [List.mem_singleton, Prod.mk.injEq, Departure.dropped.injEq] at new
          rw [new.2, ← length, full]

theorem steady_append (h : Steady q) (tested : q.enqueueing = some (response, false)) :
    Steady { q.append response with enqueueing := none } := by
  have room := h.room response tested
  refine ⟨⟨?_, room, h.removed, ?_, h.dropped⟩, fun _ done => (by cases done), fun _ done => (by cases done)⟩
  · simp [append, insertTail, h.length]
  · simp [append, insertTail, ← h.fifo]

theorem steady_dequeue (h : Steady q) (undisturbed : ∀ response, q.enqueueing ≠ some (response, true)) :
    Steady q.dequeue := by
  rw [dequeue]
  split
  · next positive =>
      have length := h.length
      have fifo := h.fifo
      cases queue : q.pubsubRxQueue with
      | nil =>
          rw [queue] at length
          rw [length] at positive
          exact absurd positive (by simp)
      | cons first rest =>
          rw [queue] at length fifo
          simp only [removeFirst, queue]
          refine ⟨⟨?_, ?_, h.removed, ?_, ?_⟩, ?_, ?_⟩
          · simp [length]
          · exact (sub_one_lt _).le.trans h.bounded
          · simp [← fifo]
          · intro r held mem
            rcases List.mem_append.mp mem with old | new
            · exact h.dropped r held old
            · simp at new
          · exact fun r tested => (undisturbed r tested).elim
          · exact fun r tested => (sub_one_lt _).trans (h.room r tested)
  · exact h

end

theorem steady_step {q q' : RxQueue α} {e : Event α} (h : Steady q) (undisturbed : Undisturbed q e)
    (step : next q e = some q') : Steady q' := by
  cases e with
  | test response =>
      cases idle : q.enqueueing with
      | some _ => simp [next, idle] at step
      | none =>
          simp only [next, idle, Option.some.injEq] at step
          exact step ▸ steady_test h
  | enqueue =>
      rcases tested : q.enqueueing with _ | ⟨response, full | full⟩
      · simp [next, tested] at step
      · simp only [next, tested, Option.some.injEq] at step
        exact step ▸ steady_append h tested
      · simp only [next, tested, Option.some.injEq] at step
        exact step ▸ steady_replaceOldest h tested
  | dequeue =>
      cases step
      exact steady_dequeue h undisturbed

/-- The queue is in order at every moment as long as nothing is dequeued between a length test that
finds it full and the section that drops the oldest response. -/
theorem safe_of_undisturbed {q : RxQueue α} (run : ((system α).restrict Undisturbed).Reachable q) :
    Safe q := by
  refine (System.Reachable.induct (I := Steady) ?_ ?_ run).toSafe
  · rintro s rfl
    exact steady_new
  · rintro s e t h ⟨undisturbed, step⟩
    exact steady_step h undisturbed step

/-- One response comes in and goes out. -/
theorem safe_of_undisturbed_one : Safe (⟨[], 0, none, false, [7], [(7, .delivered)]⟩ : RxQueue ℕ) := by
  have start : ((system ℕ).restrict Undisturbed).Reachable new := .init rfl
  have tested : ((system ℕ).restrict Undisturbed).Reachable ⟨[], 0, some (7, false), false, [], []⟩ :=
    .step (e := Event.test 7) start ⟨trivial, rfl⟩
  have entered : ((system ℕ).restrict Undisturbed).Reachable ⟨[7], 1, none, false, [7], []⟩ :=
    .step (e := Event.enqueue) tested ⟨trivial, rfl⟩
  exact safe_of_undisturbed (.step (e := Event.dequeue) entered ⟨fun _ full => (by cases full), rfl⟩)

theorem fill (n : ℕ) (room : (n : ℤ) ≤ pubsubRxQueueMaxLen) : (system ℕ).Reachable
    ⟨List.replicate n 0, n, none, false, List.replicate n 0, []⟩ := by
  induction n with
  | zero => exact .init rfl
  | succ n ih =>
      have lt : (n : ℤ) < pubsubRxQueueMaxLen := by
        rw [Nat.cast_succ] at room
        exact room
      have run := ih lt.le
      have tested : decide ((n : ℤ) ≥ pubsubRxQueueMaxLen) = false := decide_eq_false (not_le.mpr lt)
      refine run.exec [.test 0, .enqueue] ?_
      simp [next, tested, append, insertTail, List.replicate_succ']

/-- A response is dropped from a queue of 99: a client has dequeued since the test. -/
theorem drops_with_room : ∃ q, (system ℕ).Reachable q ∧ ¬ Safe q := by
  have run : (system ℕ).Reachable ⟨List.replicate 98 0 ++ [0], 99, none, false,
      List.replicate 100 0 ++ [0], [(0, .delivered), (0, .dropped 99)]⟩ :=
    (fill 100 le_rfl).exec [.test 0, .dequeue, .enqueue] rfl
  refine ⟨_, run, fun safe => ?_⟩
  have held := safe.dropped 0 99 (by simp)
  exact absurd held (by decide)

end RxQueue
end Mio.LibMio
