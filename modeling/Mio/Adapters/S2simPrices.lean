import Mio.Adapters.S2sim

/-! What `s2sim_receiver` does with a message: the connection response and the prices. -/
namespace Mio.Adapters.S2sim

/-- The variables that a message may set; `senders` counts the threads that have been started. -/
structure Globals where
  sysTime : BitVec 32
  timeStep : BitVec 32
  clientId : BitVec 32
  priceBeginTime : BitVec 32
  pricePoints : BitVec 32
  price : Vector (BitVec 32) 128
  numClients : BitVec 32
  senders : ℕ

/-- The loop over the price points that are left: `i` counts them, `j` is the position in the data. -/
def readPrices (data : Block) (price : Vector (BitVec 32) 128) (i j : ℕ) :
    ℕ → Outcome Undefined (Vector (BitVec 32) 128)
  | 0 => .ret price
  | n + 1 => do
      let value ← reverseCpy 0 data j 4
      if h : i < 128 then readPrices data (price.set i value) (i + 1) (j + 1) n else .throw .outOfBounds

def connResponse (g : Globals) (msg : Message) : Outcome Undefined Globals := do
  let refused ← msg.data.load 3
  if refused = 1 then return g
  else do
    let sysTime ← reverseCpy g.sysTime msg.data 4 4
    let numClients ← reverseCpy g.numClients msg.data 8 2
    let timeStep ← reverseCpy g.timeStep msg.data 12 4
    return { g with clientId := msg.receiverId, sysTime, numClients, timeStep, senders := g.senders + 1 }

def setCurrentPrice (g : Globals) (msg : Message) : Outcome Undefined Globals := do
  let priceBeginTime ← reverseCpy g.priceBeginTime msg.data 0 4
  let pricePoints ← reverseCpy g.pricePoints msg.data 4 4
  let price ← readPrices msg.data g.price 0 8 pricePoints.toInt.toNat
  return { g with priceBeginTime, pricePoints, price }

/-- One turn of the loop of `s2sim_receiver`. A message of another kind is only reported. -/
def handle (g : Globals) (msg : Message) : Outcome Undefined Globals :=
  if msg.messageType = 0x0001 then
    if msg.messageId = 0x0005 then connResponse g msg else .ret g
  else if msg.messageType = 0x0003 then
    if msg.messageId = 0x0002 then setCurrentPrice g msg else .ret g
  else .ret g

/-- A message that sets the current prices. -/
structure PriceMessage where
  senderId : BitVec 32
  receiverId : BitVec 32
  seq : BitVec 32
  beginTime : BitVec 32
  prices : List (BitVec 32)
  fits : 8 + 4 * prices.length < 2 ^ 31

namespace PriceMessage

def priceBytes (m : PriceMessage) : List UInt8 := m.prices.flatMap (netBytes 4)

def points (m : PriceMessage) : BitVec 32 := BitVec.ofNat 32 m.prices.length

def bytes (m : PriceMessage) : List UInt8 := netBytes 4 m.beginTime ++ (netBytes 4 m.points ++ m.priceBytes)

def toMessage (m : PriceMessage) : Message where
  senderId := m.senderId
  receiverId := m.receiverId
  seq := m.seq
  messageType := 0x0003
  messageId := 0x0002
  messageLength := BitVec.ofNat 32 (8 + 4 * m.prices.length)
  messageData := some (m.bytes.map some)

structure SetBy (m : PriceMessage) (g : Globals) : Prop where
  beginTime : g.priceBeginTime = m.beginTime
  points : g.pricePoints = m.points
  price : ∀ (i : ℕ) (value : BitVec 32), m.prices[i]? = some value → g.price[i]? = some value

structure Rejected (g g' : Globals) : Prop where
  beginTime : g'.priceBeginTime = g.priceBeginTime
  points : g'.pricePoints = g.pricePoints
  price : g'.price = g.price

/-- Whatever was there before, the message is taken over, or nothing of it. -/
def Handled (m : PriceMessage) : Prop :=
  ∀ g, ∃ g', handle g m.toMessage = .ret g' ∧ (m.SetBy g' ∨ Rejected g g')

end PriceMessage

variable {bytes : List UInt8} {n i j k : ℕ} {price price' : Vector (BitVec 32) 128}

theorem reverseCpy_four (dst : BitVec 32) (within : i + 4 ≤ bytes.length) :
    reverseCpy dst (.received bytes k) i 4 = .ret (field bytes i 4) := by
  have replaced : (wordBytes 4 dst).drop 4 = [] := List.drop_eq_nil_of_le (by rw [wordBytes_length])
  rw [reverseCpy, Block.loads_inside within, Outcome.ret_bind, replaced, List.append_nil]
  rfl

/-- The position moves on by one byte, not by four. -/
theorem readPrices_ret (room : i + n ≤ 128) (within : ∀ k < n, j + k + 4 ≤ bytes.length) :
    ∃ price', readPrices (.received bytes 0) price i j n = .ret price' ∧
      (∀ k < i, price'[k]? = price[k]?) ∧ ∀ k < n, price'[i + k]? = some (field bytes (j + k) 4) := by
  induction n generalizing i j price with
  | zero => exact ⟨price, rfl, fun k _ => rfl, fun k h => absurd h (Nat.not_lt_zero k)⟩
  | succ n ih =>
      have here : i < 128 := by omega
      obtain ⟨price', run, before, after⟩ := @ih (i + 1) (j + 1) (price.set i (field bytes j 4)) (by omega)
        fun k h => by
          have := within (k + 1) (by omega)
          omega
      refine ⟨price', ?_, ?_, ?_⟩
      · rw [readPrices, reverseCpy_four 0 (within 0 (by omega)), Outcome.ret_bind, dif_pos here]
        exact run
      · intro k h
        rw [before k (by omega), Vector.getElem?_set_ne _ (by omega)]
      · intro k h
        cases k with
        | zero => rw [Nat.add_zero, before i (by omega), Vector.getElem?_set_self, Nat.add_zero]
        | succ k =>
            have rest := after k (by omega)
            rwa [Nat.add_assoc, Nat.add_assoc, Nat.add_comm 1 k] at rest

theorem readPrices_room {data : Block} (start : i ≤ 128) (ret : readPrices data price i j n = .ret price') :
    i + n ≤ 128 := by
  induction n generalizing i j price with
  | zero => exact start
  | succ n ih =>
      obtain ⟨value, -, rest⟩ := Outcome.bind_eq_ret.mp ret
      split at rest
      · rename_i here
        have := ih here rest
        omega
      · cases rest

namespace PriceMessage

variable {m : PriceMessage} {g g' : Globals}

theorem points_toNat : m.points.toInt.toNat = m.prices.length := by
  have small := m.fits
  have whole : m.points.toNat = m.prices.length := Nat.mod_eq_of_lt (by omega)
  rw [BitVec.toInt_eq_toNat_of_lt (by omega), Int.toNat_natCast, whole]

theorem priceBytes_length : m.priceBytes.length = 4 * m.prices.length := by
  rw [priceBytes, List.length_flatMap]
  simp [Nat.mul_comm]

theorem bytes_length : m.bytes.length = 8 + 4 * m.prices.length := by
  rw [bytes, List.length_append, List.length_append, netBytes_length, netBytes_length, priceBytes_length]
  omega

theorem handle_eq : handle g m.toMessage = readPrices (.received m.bytes 0) g.price 0 8 m.prices.length >>=
    fun price => .ret { g with priceBeginTime := m.beginTime, pricePoints := m.points, price } := by
  have data : m.toMessage.data = .received m.bytes 0 := (List.append_nil _).symm
  have time : field m.bytes 0 4 = m.beginTime := by
    have there := slice_at [] (netBytes 4 m.beginTime) (netBytes 4 m.points ++ m.priceBytes)
    exact (field_eq_word (by rw [bytes_length]; omega)).mpr there
  have points : field m.bytes 4 4 = m.points := by
    have there := slice_at (netBytes 4 m.beginTime) (netBytes 4 m.points) m.priceBytes
    rw [netBytes_length, netBytes_length] at there
    exact (field_eq_word (by rw [bytes_length]; omega)).mpr there
  change setCurrentPrice g m.toMessage = _
  rw [setCurrentPrice, data, reverseCpy_four _ (by rw [bytes_length]; omega), Outcome.ret_bind,
    reverseCpy_four _ (by rw [bytes_length]; omega), Outcome.ret_bind, time, points, points_toNat]
  rfl

theorem field_eq_price {value : BitVec 32} (h : m.prices[i]? = some value) :
    field m.bytes (8 + i) 4 = value ↔ slice m.priceBytes i 4 = slice m.priceBytes (4 * i) 4 := by
  obtain ⟨inside, -⟩ := List.getElem?_eq_some_iff.mp h
  have behind : m.bytes.drop 8 = m.priceBytes := by
    rw [bytes, ← List.append_assoc]
    exact List.drop_left' (by rw [List.length_append, netBytes_length, netBytes_length])
  rw [field_eq_word (by rw [bytes_length]; omega), ← slice_drop, behind, priceBytes,
    slice_flatMap (netBytes_length 4) h]

end PriceMessage

/-- After the first byte, each one stands again three places on. -/
def Repeating (bytes : List UInt8) : Prop := ∀ j, 0 < j → j + 3 < bytes.length → bytes[j + 3]? = bytes[j]?

theorem Repeating.far (h : Repeating bytes) (start : 0 < j) (inside : j + 3 * k < bytes.length) :
    bytes[j + 3 * k]? = bytes[j]? := by
  induction k with
  | zero => rfl
  | succ k ih =>
      have last := h (j + 3 * k) (by omega) (by omega)
      rw [← ih (by omega), ← last]
      rfl

/-- Reading one byte further each time gives the same as reading four further. -/
theorem repeating_iff (size : bytes.length = 4 * n) :
    (∀ i < n, slice bytes i 4 = slice bytes (4 * i) 4) ↔ Repeating bytes := by
  constructor
  · intro same j
    have each : ∀ i k, i < n → k < 4 → bytes[i + k]? = bytes[4 * i + k]? :=
      fun i k h => slice_eq_slice.mp (same i h) k
    induction j using Nat.strong_induction_on with
    | _ j ih =>
      intro start inside
      -- The price that both bytes are in, or the two prices that they are in.
      obtain ⟨a, r, small, rfl⟩ : ∃ a r, r < 4 ∧ j = 4 * a + r := ⟨j / 4, j % 4, by omega, by omega⟩
      cases r with
      | zero =>
          have first := each a 0 (by omega) (by omega)
          have last := each a 3 (by omega) (by omega)
          rw [Nat.add_zero, ← last, ← first]
          exact ih a (by omega) (by omega) (by omega)
      | succ r =>
          have here := each a (r + 1) (by omega) small
          have next := each (a + 1) r (by omega) (by omega)
          have there : 4 * (a + 1) + r = 4 * a + (r + 1) + 3 := by omega
          rw [← there, ← next, ← here, Nat.add_assoc, Nat.add_comm 1 r]
  · intro repeats i h
    refine slice_eq_slice.mpr fun k small => ?_
    cases i with
    | zero => rfl
    | succ i =>
        have far := @Repeating.far bytes (i + 1 + k) (i + 1) repeats (by omega) (by omega)
        have there : i + 1 + k + 3 * (i + 1) = 4 * (i + 1) + k := by omega
        rw [← far, there]

variable {m : PriceMessage}

/-- Other values before the message show that it was taken over. -/
theorem PriceMessage.Handled.set (handled : m.Handled) : ∃ price price',
    readPrices (.received m.bytes 0) price 0 8 m.prices.length = .ret price' ∧
      ∀ (i : ℕ) (value : BitVec 32), m.prices[i]? = some value → price'[i]? = some value := by
  obtain ⟨g', run, fine⟩ := handled ⟨0, 0, 0, m.beginTime + 1, 0, .replicate 128 0, 0, 0⟩
  rw [PriceMessage.handle_eq] at run
  obtain ⟨price', read, eq⟩ := Outcome.bind_eq_ret.mp run
  cases Outcome.ret.inj eq
  cases fine with
  | inl set => exact ⟨_, price', read, set.price⟩
  | inr rejected => exact absurd (BitVec.self_eq_add_right.mp rejected.beginTime) (by decide)

theorem PriceMessage.Handled.room (handled : m.Handled) : m.prices.length ≤ 128 := by
  obtain ⟨price, price', read, -⟩ := handled.set
  have inside := readPrices_room (Nat.zero_le 128) read
  rwa [Nat.zero_add] at inside

theorem readPrices_all (room : m.prices.length ≤ 128) :
    ∃ price', readPrices (.received m.bytes 0) price 0 8 m.prices.length = .ret price' ∧
      ∀ i < m.prices.length, price'[i]? = some (field m.bytes (8 + i) 4) := by
  obtain ⟨price', read, -, each⟩ := @readPrices_ret m.bytes m.prices.length 0 8 price
    (by omega) (fun k h => by rw [PriceMessage.bytes_length]; omega)
  simp only [Nat.zero_add] at each
  exact ⟨price', read, each⟩

theorem PriceMessage.Handled.same (handled : m.Handled) :
    ∀ i < m.prices.length, slice m.priceBytes i 4 = slice m.priceBytes (4 * i) 4 := by
  intro i h
  obtain ⟨price, price', read, set⟩ := handled.set
  obtain ⟨price'', again, each⟩ := @readPrices_all price m handled.room
  cases Outcome.ret.inj (again.symm.trans read)
  have there := List.getElem?_eq_getElem h
  exact (field_eq_price there).mp (Option.some.inj ((each i h).symm.trans (set i _ there)))

theorem handled_of_same (room : m.prices.length ≤ 128)
    (same : ∀ i < m.prices.length, slice m.priceBytes i 4 = slice m.priceBytes (4 * i) 4) : m.Handled := by
  intro g
  obtain ⟨price', read, each⟩ := @readPrices_all g.price m room
  refine ⟨_, by rw [PriceMessage.handle_eq, read, Outcome.ret_bind], .inl ⟨rfl, rfl, ?_⟩⟩
  intro i value there
  obtain ⟨inside, -⟩ := List.getElem?_eq_some_iff.mp there
  rw [each i inside, (PriceMessage.field_eq_price there).mpr (same i inside)]

/-- The prices are read right if there is room for them and the bytes repeat, so that it does not matter that
they are read one byte apart; so it is for a single price. -/
theorem handled_iff (m : PriceMessage) :
    m.Handled ↔ m.prices.length ≤ 128 ∧ Repeating m.priceBytes := by
  rw [← repeating_iff PriceMessage.priceBytes_length]
  exact ⟨fun handled => ⟨handled.room, handled.same⟩, fun h => handled_of_same h.1 h.2⟩

/-- The second of the prices 1 and 2 is read as 256. -/
theorem second_price_wrong : ¬ PriceMessage.Handled ⟨0, 1, 0, 1412000000, [1, 2], by decide⟩ := by
  intro handled
  have second := handled.same 1 (by decide)
  revert second
  decide

end Mio.Adapters.S2sim
