import Mathlib.Algebra.Order.Ring.Int
import Mio.Lib.CArray

/-! The IPC multiplexer of `multiplexer.c`: clients register for a route, and what they write to it is passed
on. Output to the console is left out. -/
namespace Mio.Services.Multiplexer

open CArray

/-- What ends a thread, or keeps it waiting for ever. -/
inductive Fault where
  | outOfBounds
  | wildPointer
  | blocked

/-- `multiplex_register_t` and the list of `multiplexer_t`. Addresses, threads and mutexes are known by
their pointers. -/
structure Register where
  nRegisteredSockets : ℕ
  registeredSockets : Pointer ℤ
  sockAddresses : Pointer ℕ
  routeThreads : Pointer ℕ
  socketMutex : Pointer ℕ
  /-- `register_mutex` is held. -/
  locked : Bool
  allList : List ℤ

/-- `new_multiplex_register` clears as many bytes as a `multiplexer_t` has, and so not `socket_mutex`. -/
def newMultiplexRegister (stale : Pointer ℕ) : Register where
  nRegisteredSockets := 0
  registeredSockets := .null
  sockAddresses := .null
  routeThreads := .null
  socketMutex := stale
  locked := false
  allList := []

/-- A client that registers, as far as the system decides: the socket for it, the pointers from `malloc`,
and its second connection, if it is accepted. -/
structure Client where
  handlerfd : ℤ
  handlerAddr : ℕ
  clientfd : Option ℤ
  thread : ℕ
  mutex : ℕ

abbrev sizeofInt : ℕ := 4
abbrev sizeofPointer : ℕ := 8
abbrev sizeofMutex : ℕ := 40

/-- `_add_multiplexer_route`. -/
def addMultiplexerRoute (r : Register) (client : Client) : Outcome Fault Register :=
  if r.locked then .throw .blocked
  else do
    let newN := r.nRegisteredSockets + 1
    let sockAddresses ← grow Fault.wildPointer sizeofPointer sizeofPointer newN r.nRegisteredSockets
      r.sockAddresses client.handlerAddr
    match client.clientfd with
    | none => return { r with locked := true, sockAddresses }
    | some _ => do
        let registeredSockets ← grow Fault.wildPointer sizeofInt sizeofInt newN (sizeofInt * (newN - 1))
          r.registeredSockets client.handlerfd
        let routeThreads ← grow Fault.wildPointer sizeofPointer sizeofPointer newN r.nRegisteredSockets
          r.routeThreads client.thread
        let socketMutex ← grow Fault.wildPointer sizeofPointer sizeofMutex newN (sizeofMutex * (newN - 1))
          r.socketMutex client.mutex
        return { r with
          registeredSockets, sockAddresses, routeThreads, socketMutex
          allList := client.handlerfd :: r.allList }

/-- `_register_thread`, for each client that it accepts. -/
def registerThread (r : Register) (clients : List Client) : Outcome Fault Register :=
  clients.foldlM addMultiplexerRoute r

structure Table (clients : List Client) (r : Register) : Prop where
  count : r.nRegisteredSockets = clients.length
  addresses : Holds sizeofPointer (clients.map (·.handlerAddr)) r.sockAddresses
  sockets : Holds sizeofInt (clients.map (·.handlerfd)) r.registeredSockets
  threads : Holds sizeofPointer (clients.map (·.thread)) r.routeThreads
  mutexes : Holds sizeofPointer (clients.map (·.mutex)) r.socketMutex
  free : r.locked = false

def completed (clients : List Client) : List Client := clients.filter (·.clientfd.isSome)

/-- After each call, the table is the one of the registrations so far. -/
def Keeps (stale : Pointer ℕ) (clients : List Client) : Prop :=
  ∀ k ≤ clients.length, ∃ r,
    registerThread (newMultiplexRegister stale) (clients.take k) = .ret r ∧ Table (completed (clients.take k)) r

variable {r r' : Register} {client : Client} {clients : List Client} {fd : ℤ}

/-- The number is never counted up. -/
theorem addMultiplexerRoute_count (ret : addMultiplexerRoute r client = .ret r') :
    r'.nRegisteredSockets = r.nRegisteredSockets := by
  rw [addMultiplexerRoute] at ret
  split at ret
  · cases ret
  · obtain ⟨addresses, -, rest⟩ := Outcome.bind_eq_ret.mp ret
    split at rest
    · cases Outcome.ret.inj rest
      rfl
    · obtain ⟨sockets, -, rest⟩ := Outcome.bind_eq_ret.mp rest
      obtain ⟨threads, -, rest⟩ := Outcome.bind_eq_ret.mp rest
      obtain ⟨mutexes, -, rest⟩ := Outcome.bind_eq_ret.mp rest
      cases Outcome.ret.inj rest
      rfl

/-- A second connection that fails leaves the mutex held. -/
theorem addMultiplexerRoute_refused (refused : client.clientfd = none)
    (ret : addMultiplexerRoute r client = .ret r') : r'.locked = true := by
  rw [addMultiplexerRoute, refused] at ret
  split at ret
  · cases ret
  · obtain ⟨addresses, -, rest⟩ := Outcome.bind_eq_ret.mp ret
    cases Outcome.ret.inj rest
    rfl

theorem registerThread_blocked (held : r.locked = true) (client : Client) (clients : List Client) :
    registerThread r (client :: clients) = .throw .blocked := by
  have step : addMultiplexerRoute r client = .throw .blocked := if_pos held
  rw [registerThread, List.foldlM_cons, step]
  rfl

/-- The arrays can be freed, and the table counts no one. -/
structure Uncounted (r : Register) : Prop where
  count : r.nRegisteredSockets = 0
  sockets : Sized sizeofInt 0 r.registeredSockets
  addresses : Sized sizeofPointer 0 r.sockAddresses
  threads : Sized sizeofPointer 0 r.routeThreads
  mutexes : Sized sizeofMutex 0 r.socketMutex
  free : r.locked = false

/-- Each array holds the entry of this client alone. -/
structure Only (client : Client) (r : Register) : Prop where
  addresses : Holds sizeofPointer [client.handlerAddr] r.sockAddresses
  sockets : Holds sizeofInt [client.handlerfd] r.registeredSockets
  threads : Holds sizeofPointer [client.thread] r.routeThreads
  mutexes : Holds sizeofPointer [client.mutex] r.socketMutex

theorem grow_first {α : Type} {width unit : ℕ} {old : Pointer α} (sized : Sized unit 0 old) (fits : width ≤ unit)
    (value : α) : ∃ new, grow Fault.wildPointer width unit 1 0 old value = .ret new ∧
      Holds width [value] new ∧ Sized unit 0 new := by
  have nothing : Holds width [] old := by
    cases old with
    | block cells => exact List.take_zero
    | null => rfl
    | wild => exact sized.elim
  obtain ⟨new, grown, holds, -⟩ := @grow_holds Fault α .wildPointer width unit old [] nothing sized fits value
  refine ⟨new, grown, holds, ?_⟩
  cases new with
  | block cells => exact Nat.zero_le _
  | null => rfl
  | wild => cases holds

theorem addMultiplexerRoute_accepted (usable : Uncounted r) (accepted : client.clientfd = some fd) :
    ∃ r', addMultiplexerRoute r client = .ret r' ∧ Uncounted r' ∧ Only client r' ∧
      r'.allList = client.handlerfd :: r.allList := by
  obtain ⟨addresses, grown₁, holds₁, sized₁⟩ := grow_first usable.addresses le_rfl client.handlerAddr
  obtain ⟨sockets, grown₂, holds₂, sized₂⟩ := grow_first usable.sockets le_rfl client.handlerfd
  obtain ⟨threads, grown₃, holds₃, sized₃⟩ := grow_first usable.threads le_rfl client.thread
  obtain ⟨mutexes, grown₄, holds₄, sized₄⟩ :=
    grow_first usable.mutexes (by decide : sizeofPointer ≤ sizeofMutex) client.mutex
  refine ⟨{ r with
    registeredSockets := sockets, sockAddresses := addresses, routeThreads := threads, socketMutex := mutexes
    allList := client.handlerfd :: r.allList }, ?_,
    ⟨usable.count, sized₂, sized₁, sized₃, sized₄, usable.free⟩, ⟨holds₁, holds₂, holds₃, holds₄⟩, rfl⟩
  have open_ : ¬ r.locked = true := by
    rw [usable.free]
    decide
  rw [addMultiplexerRoute, if_neg open_, usable.count, accepted]
  exact (Outcome.bind_of_ret grown₁).trans ((Outcome.bind_of_ret grown₂).trans
    ((Outcome.bind_of_ret grown₃).trans (Outcome.bind_of_ret grown₄)))

/-- However many clients have registered, the arrays show the last one; only the list has them all. -/
theorem registerThread_accepted (usable : Uncounted r) (accepted : ∀ c ∈ clients ++ [client], c.clientfd ≠ none) :
    ∃ r', registerThread r (clients ++ [client]) = .ret r' ∧ Uncounted r' ∧ Only client r' ∧
      r'.allList = ((clients ++ [client]).map (·.handlerfd)).reverse ++ r.allList := by
  induction clients generalizing r with
  | nil =>
      obtain ⟨fd, second⟩ := Option.ne_none_iff_exists'.mp (accepted client List.mem_cons_self)
      obtain ⟨r', step, usable', only, list⟩ := addMultiplexerRoute_accepted usable second
      exact ⟨r', Outcome.bind_of_ret step, usable', only, list⟩
  | cons first clients ih =>
      obtain ⟨here, later⟩ := List.forall_mem_cons.mp accepted
      obtain ⟨fd, second⟩ := Option.ne_none_iff_exists'.mp here
      obtain ⟨r₁, step, usable₁, -, list₁⟩ := addMultiplexerRoute_accepted usable second
      obtain ⟨r', run, usable', only, list⟩ := ih usable₁ later
      refine ⟨r', (Outcome.bind_of_ret step).trans run, usable', only, ?_⟩
      rw [list, list₁, List.cons_append, List.map_cons, List.reverse_cons, List.append_assoc]
      rfl

theorem table_new (stale : Pointer ℕ) : Table [] (newMultiplexRegister stale) := by
  refine ⟨rfl, rfl, rfl, rfl, ?_, rfl⟩
  cases stale with
  | block cells => exact List.take_zero
  | null => rfl
  | wild => rfl

/-- The first registration already is not counted, or else keeps the mutex. -/
theorem not_table_one {stale : Pointer ℕ} (ret : addMultiplexerRoute (newMultiplexRegister stale) client = .ret r) :
    ¬ Table (completed [client]) r := by
  intro table
  cases second : client.clientfd with
  | none =>
      have held := addMultiplexerRoute_refused second ret
      rw [table.free] at held
      cases held
  | some fd =>
      have one : completed [client] = [client] := List.filter_cons_of_pos (by rw [second]; rfl)
      have count := addMultiplexerRoute_count ret
      rw [table.count, one] at count
      cases count

/-- Whatever lay in the memory of the structure: no client may register. -/
theorem keeps_iff (stale : Pointer ℕ) (clients : List Client) : Keeps stale clients ↔ clients = [] := by
  constructor
  · intro keeps
    cases clients with
    | nil => rfl
    | cons client clients =>
        obtain ⟨r, run, table⟩ := keeps 1 (Nat.succ_le_succ (Nat.zero_le _))
        rw [List.take_succ_cons, List.take_zero] at run table
        obtain ⟨r', step, last⟩ := Outcome.bind_eq_ret.mp run
        cases Outcome.ret.inj last
        exact absurd table (not_table_one step)
  · rintro rfl k small
    cases Nat.le_zero.mp small
    exact ⟨_, rfl, table_new stale⟩

/-- A single client that registers is not counted. -/
theorem first_client_not_counted : ¬ Keeps .null [⟨5, 4096, some 6, 8192, 8200⟩] := by
  intro keeps
  obtain ⟨r, run, table⟩ := keeps 1 le_rfl
  obtain ⟨r', step, last⟩ := Outcome.bind_eq_ret.mp run
  cases Outcome.ret.inj last
  exact not_table_one step table

abbrev bufferSize : ℕ := 1024

/-- The second connection of a client: the pieces that `read` returns one after the other until the client has
closed it, as long as the descriptor is open on this side. -/
structure Socket where
  pieces : List (List UInt8)
  isOpen : Bool

/-- `read`, where `none` is -1 and no bytes are the end. -/
def Socket.read (s : Socket) : Option (List UInt8) × Socket :=
  if s.isOpen then
    match s.pieces with
    | [] => (some [], s)
    | bytes :: rest => (some bytes, { s with pieces := rest })
  else (none, s)

def Socket.close (s : Socket) : Socket := { s with isOpen := false }

/-- The loop of `_buffered_read`; a null pointer is the buffer that has no bytes yet. -/
def bufferedRead (readBuffer : List UInt8) (s : Socket) :
    ℕ → Outcome Fault (Option (List UInt8) × Socket)
  | 0 => .timeout
  | fuel + 1 =>
      match s.read with
      | (none, s) => .ret (none, s)
      | (some bytes, s) =>
          if bytes.length < bufferSize then .ret (some (readBuffer ++ bytes), s)
          else bufferedRead (readBuffer ++ bytes) s fuel

/-- `_distribute_message`, with the bytes that it writes to the MIO side: as many as a pointer has, and not as
many as the message. -/
def distributeMessage (stanza : List UInt8) (mio : Bool) : Outcome Fault (List UInt8) :=
  if mio then if sizeofPointer ≤ stanza.length then .ret (stanza.take sizeofPointer) else .throw .outOfBounds
  else .ret []

/-- So many turns of `_route_thread`, with the bytes that are written. -/
def routeThread (fuel : ℕ) (s : Socket) : ℕ → Outcome Fault (List UInt8 × Socket)
  | 0 => .ret ([], s)
  | turns + 1 => do
      let (message, s) ← bufferedRead [] s fuel
      match message with
      | none => routeThread fuel s turns
      | some message => do
          let written ← distributeMessage message true
          let (later, s) ← routeThread fuel s.close turns
          return (written ++ later, s)

/-- A message in the pieces in which it is read. -/
structure Delivery where
  pieces : List (List UInt8)
  sizes : ∀ bytes ∈ pieces, 0 < bytes.length ∧ bytes.length ≤ bufferSize

/-- From the first turn on, the message has been written, and nothing else is. -/
def PassesOn (d : Delivery) : Prop :=
  ∃ enough, ∀ fuel, enough ≤ fuel → ∀ turns, 0 < turns →
    ∃ s, routeThread fuel ⟨d.pieces, true⟩ turns = .ret (d.pieces.flatten, s)

/-- The bytes up to the first short piece, and the pieces behind it. -/
def upToShort : List (List UInt8) → List UInt8 × List (List UInt8)
  | [] => ([], [])
  | bytes :: rest =>
      if bytes.length < bufferSize then (bytes, rest)
      else (bytes ++ (upToShort rest).1, (upToShort rest).2)

variable {pieces : List (List UInt8)} {fuel turns : ℕ}

/-- The loop ends at a short piece, or when the client has closed. -/
theorem bufferedRead_open (enough : pieces.length < fuel) (readBuffer : List UInt8) :
    bufferedRead readBuffer ⟨pieces, true⟩ fuel =
      .ret (some (readBuffer ++ (upToShort pieces).1), ⟨(upToShort pieces).2, true⟩) := by
  induction pieces generalizing fuel readBuffer with
  | nil =>
      cases fuel with
      | zero => exact absurd enough (Nat.not_lt_zero _)
      | succ fuel => rfl
  | cons bytes pieces ih =>
      cases fuel with
      | zero => exact absurd enough (Nat.not_lt_zero _)
      | succ fuel =>
          have next := ih (Nat.lt_of_succ_lt_succ enough) (readBuffer ++ bytes)
          by_cases short : bytes.length < bufferSize
          · rw [upToShort, if_pos short]
            exact if_pos short
          · rw [upToShort, if_neg short, ← List.append_assoc, ← next]
            exact if_neg short

theorem routeThread_closed (enough : 0 < fuel) :
    routeThread fuel ⟨pieces, false⟩ turns = .ret ([], ⟨pieces, false⟩) := by
  obtain ⟨fuel, rfl⟩ := Nat.exists_eq_succ_of_ne_zero (Nat.pos_iff_ne_zero.mp enough)
  induction turns with
  | zero => rfl
  | succ turns ih =>
      have nothing : bufferedRead [] ⟨pieces, false⟩ (fuel + 1) = .ret (none, ⟨pieces, false⟩) := rfl
      exact (Outcome.bind_of_ret nothing).trans ih

theorem routeThread_open (enough : pieces.length < fuel) (some_turn : 0 < turns) :
    routeThread fuel ⟨pieces, true⟩ turns = distributeMessage (upToShort pieces).1 true >>=
      fun written => .ret (written, ⟨(upToShort pieces).2, false⟩) := by
  obtain ⟨turns, rfl⟩ := Nat.exists_eq_succ_of_ne_zero (Nat.pos_iff_ne_zero.mp some_turn)
  have closed := @routeThread_closed (upToShort pieces).2 fuel turns (Nat.zero_lt_of_lt enough)
  refine (Outcome.bind_of_ret (bufferedRead_open enough [])).trans ?_
  dsimp only [List.nil_append]
  refine congrArg _ (funext fun written => ?_)
  refine (Outcome.bind_of_ret closed).trans ?_
  rw [List.append_nil]
  rfl

/-- What is read is the whole message where only its last piece is short. -/
theorem upToShort_flatten (full : ∀ bytes ∈ pieces.dropLast, bytes.length = bufferSize) :
    (upToShort pieces).1 = pieces.flatten := by
  induction pieces with
  | nil => rfl
  | cons bytes pieces ih =>
      rw [upToShort, List.flatten_cons]
      split
      · rename_i short
        cases pieces with
        | nil => exact (List.append_nil bytes).symm
        | cons next pieces =>
            have long := full bytes List.mem_cons_self
            omega
      · cases pieces with
        | nil => rfl
        | cons next pieces => rw [ih fun b mem => full b (List.mem_cons_of_mem _ mem)]

theorem distributeMessage_eq_ret {message written : List UInt8} : distributeMessage message true = .ret written ↔
    sizeofPointer ≤ message.length ∧ written = message.take sizeofPointer := by
  rw [distributeMessage, if_pos rfl]
  split
  · rename_i long
    exact ⟨fun h => ⟨long, (Outcome.ret.inj h).symm⟩, fun h => congrArg _ h.2.symm⟩
  · rename_i short
    exact ⟨fun h => (by cases h), fun h => absurd h.1 short⟩

theorem passesOn_iff_written (d : Delivery) :
    PassesOn d ↔ distributeMessage (upToShort d.pieces).1 true = .ret d.pieces.flatten := by
  constructor
  · rintro ⟨enough, passes⟩
    obtain ⟨s, run⟩ := passes (enough + d.pieces.length + 1) (by omega) 1 Nat.one_pos
    rw [routeThread_open (by omega) Nat.one_pos] at run
    obtain ⟨written, distributed, eq⟩ := Outcome.bind_eq_ret.mp run
    cases Outcome.ret.inj eq
    exact distributed
  · intro distributed
    refine ⟨d.pieces.length + 1, fun fuel enough turns some_turn => ⟨⟨(upToShort d.pieces).2, false⟩, ?_⟩⟩
    rw [routeThread_open enough some_turn, distributed]
    rfl

theorem upToShort_eight (rest : ∀ bytes ∈ pieces, 0 < bytes.length) :
    distributeMessage (upToShort pieces).1 true = .ret pieces.flatten ↔
      ∃ message : List UInt8, message.length = sizeofPointer ∧ pieces = [message] := by
  rw [distributeMessage_eq_ret]
  constructor
  · rintro ⟨long, same⟩
    have size := congrArg List.length same
    rw [List.length_take, Nat.min_eq_left long] at size
    cases pieces with
    | nil => cases size
    | cons bytes pieces =>
        rw [List.flatten_cons, List.length_append] at size
        change bytes.length + pieces.flatten.length = 8 at size
        have short : bytes.length < bufferSize := by
          change bytes.length < 1024
          omega
        rw [upToShort, if_pos short] at long
        change 8 ≤ bytes.length at long
        have exact : bytes.length = 8 := by omega
        refine ⟨bytes, exact, ?_⟩
        cases pieces with
        | nil => rfl
        | cons next pieces =>
            have some := rest next (List.mem_cons_of_mem _ List.mem_cons_self)
            rw [List.flatten_cons, List.length_append] at size
            omega
  · rintro ⟨message, size, rfl⟩
    have short : message.length < bufferSize := by
      rw [size]
      decide
    rw [upToShort, if_pos short, List.flatten_singleton, ← size, List.take_length]
    exact ⟨le_rfl, rfl⟩

/-- Only a message that is as long as a pointer, and is read in one piece, is passed on. -/
theorem passesOn_iff (d : Delivery) :
    PassesOn d ↔ ∃ message : List UInt8, message.length = sizeofPointer ∧ d.pieces = [message] := by
  rw [passesOn_iff_written]
  exact upToShort_eight fun bytes mem => (d.sizes bytes mem).1

/-- Of `<publish/>`, two bytes are not written. -/
theorem message_cut_off :
    ¬ PassesOn ⟨[[60, 112, 117, 98, 108, 105, 115, 104, 47, 62]], by decide⟩ := by
  rw [passesOn_iff_written, distributeMessage_eq_ret]
  decide

end Mio.Services.Multiplexer
