import Mathlib.Algebra.Group.Int.Defs
import Mathlib.Data.List.Forall2
import Mio.Adapters.Block

/-! The messages of `s2sim.c`: `s2sim_message_to_buf` writes one out, `s2sim_receive_message` takes one
result of `recv` for one message. -/
namespace Mio.Adapters.S2sim

abbrev messageStart : BitVec 32 := 0x12345678
abbrev messageEnd : BitVec 32 := 0xFEDCBA98
abbrev rcvBufSize : ℕ := 128

/-- `s2sim_message_t`. -/
structure Message where
  senderId : BitVec 32
  receiverId : BitVec 32
  seq : BitVec 32
  messageType : BitVec 32
  messageId : BitVec 32
  messageLength : BitVec 32
  messageData : Option Block

/-- A null pointer has no byte to read. -/
def Message.data (msg : Message) : Block := msg.messageData.getD []

/-- `reverse_cpy` into an `int`, whose first byte is the lowest. -/
def reverseCpy (dst : BitVec 32) (src : Block) (i n : ℕ) : Outcome Undefined (BitVec 32) := do
  let bytes ← src.loads i n
  return BitVec.ofNat 32 (leValue (bytes.reverse ++ (wordBytes 4 dst).drop n))

/-- `seq++`. -/
def nextSeq (seq : BitVec 32) : Outcome Undefined (BitVec 32) :=
  if seq.toInt + 1 < 2 ^ 31 then .ret (seq + 1) else .abort "signed overflow"

def putHeader (seq : BitVec 32) (msg : Message) (buf : Block) : Outcome Undefined Block := do
  let buf ← buf.stores 0 (netBytes 4 messageStart)
  let buf ← buf.stores 4 (netBytes 2 msg.senderId)
  let buf ← buf.stores 6 (netBytes 2 msg.receiverId)
  let buf ← buf.stores 8 (netBytes 4 seq)
  let buf ← buf.stores 12 (netBytes 2 msg.messageType)
  buf.stores 14 (netBytes 2 msg.messageId)

/-- `s2sim_message_to_buf`; the length of the block is the one that it reports. -/
def messageToBuf (seq : BitVec 32) (msg : Message) : Outcome Undefined Block :=
  let length := msg.messageLength.toInt
  if 2 ^ 31 ≤ 24 + length + length.tmod 4 then .abort "signed overflow"
  else
    match Block.malloc (24 + length + length.tmod 4) with
    | none => .throw .outOfBounds
    | some buf => do
        let buf ← buf.clear (24 + length)
        let buf ← putHeader seq msg buf
        let buf ← msg.data.copy buf 20 0 length.toNat
        let buf ← buf.stores 16 (netBytes 4 msg.messageLength)
        buf.stores (20 + length.toNat + length.tmod 4).toNat (netBytes 4 messageEnd)

/-- `s2sim_send`, with the bytes that it sends. -/
def send (seq : BitVec 32) (msg : Message) : Outcome Undefined (BitVec 32 × List UInt8) := do
  let buf ← messageToBuf seq msg
  let seq ← nextSeq seq
  let bytes ← buf.loads 0 buf.length
  return (seq, bytes)

def sendAll (seq : BitVec 32) : List Message → Outcome Undefined (List UInt8)
  | [] => .ret []
  | msg :: rest => do
      let (seq, bytes) ← send seq msg
      let later ← sendAll seq rest
      return bytes ++ later

/-- The data of a received message. A negative length asks for more memory than there is, and then the
loop does not turn. -/
def receiveData (buf : Block) (length : ℤ) : Outcome Undefined (Option Block) :=
  match Block.malloc length with
  | none => .ret none
  | some data => do
      let data ← buf.copy data 0 20 length.toNat
      return some data

/-- `s2sim_receive_message`, where `recv` has written these bytes to the buffer. -/
def receiveMessage (seq : BitVec 32) (bytes : List UInt8) :
    Outcome Undefined (BitVec 32 × Option Message) :=
  let buf := Block.received bytes (rcvBufSize - bytes.length)
  if bytes.length < 20 then .ret (seq, none)
  else do
    let senderId ← reverseCpy 0 buf 4 2
    let receiverId ← reverseCpy 0 buf 6 2
    let _ ← reverseCpy 0 buf 8 4
    -- The number that was sent is overwritten with the receiver's own one.
    let next ← nextSeq seq
    let messageType ← reverseCpy 0 buf 12 2
    let messageId ← reverseCpy 0 buf 14 2
    let messageLength ← reverseCpy 0 buf 16 4
    let messageData ← receiveData buf messageLength.toInt
    return (next, some ⟨senderId, receiverId, seq, messageType, messageId, messageLength, messageData⟩)

def receiveAll (seq : BitVec 32) : List (List UInt8) → Outcome Undefined (List (Option Message))
  | [] => .ret []
  | bytes :: rest => do
      let (seq, msg) ← receiveMessage seq bytes
      let later ← receiveAll seq rest
      return msg :: later

/-- A message with fields of 16 bits, and as much data as its length can say. -/
structure Packet where
  sender : BitVec 16
  receiver : BitVec 16
  seq : BitVec 32
  type : BitVec 16
  id : BitVec 16
  data : List UInt8
  fits : data.length < 2 ^ 31

namespace Packet

def length (m : Packet) : BitVec 32 := BitVec.ofNat 32 m.data.length

def toMessage (m : Packet) : Message where
  senderId := m.sender.setWidth 32
  receiverId := m.receiver.setWidth 32
  seq := m.seq
  messageType := m.type.setWidth 32
  messageId := m.id.setWidth 32
  messageLength := m.length
  messageData := some (m.data.map some)

def addresses (m : Packet) : List UInt8 := netBytes 2 m.sender ++ netBytes 2 m.receiver

def content (m : Packet) : List UInt8 :=
  netBytes 2 m.type ++ (netBytes 2 m.id ++ (netBytes 4 m.length ++ m.data))

def bytes (seq : BitVec 32) (m : Packet) : List UInt8 :=
  netBytes 4 messageStart ++ (m.addresses ++ (netBytes 4 seq ++ (m.content ++
    (List.replicate (m.data.length % 4) 0 ++ netBytes 4 messageEnd))))

/-- The size of the buffer is an `int`. -/
def Short (m : Packet) : Prop := 24 + m.data.length + m.data.length % 4 < 2 ^ 31

/-- What was received holds the message where it is looked for. -/
def In (m : Packet) (bytes : List UInt8) : Prop :=
  slice bytes 4 4 = m.addresses ∧ slice bytes 12 (8 + m.data.length) = m.content

end Packet

/-- The fields before the length. -/
def Packet.head (seq : BitVec 32) (m : Packet) : List UInt8 :=
  netBytes 4 messageStart ++ (netBytes 2 m.sender ++ (netBytes 2 m.receiver ++ (netBytes 4 seq ++
    (netBytes 2 m.type ++ netBytes 2 m.id))))

variable {m : Packet} {seq : BitVec 32}

theorem head_length : (m.head seq).length = 16 := by
  simp [Packet.head]

theorem bytes_eq : m.bytes seq = m.head seq ++ (netBytes 4 m.length ++ (m.data ++
    (List.replicate (m.data.length % 4) 0 ++ netBytes 4 messageEnd))) := by
  simp only [Packet.bytes, Packet.addresses, Packet.content, Packet.head, List.append_assoc]

theorem length_toNat : m.length.toNat = m.data.length := by
  have := m.fits
  exact Nat.mod_eq_of_lt (by omega)

theorem length_toInt : m.length.toInt = m.data.length := by
  have small := m.fits
  rw [BitVec.toInt_eq_toNat_of_lt (by rw [length_toNat]; omega), length_toNat]

theorem length_tmod : m.length.toInt.tmod 4 = (m.data.length % 4 : ℕ) := by
  rw [length_toInt]
  rfl

theorem netBytes_setWidth (x : BitVec 16) : netBytes 2 (x.setWidth 32) = netBytes 2 x := by
  rw [netBytes, netBytes, wordBytes, wordBytes, BitVec.toNat_setWidth_of_le (by decide)]

theorem putHeader_stores (buf : Block) : putHeader seq m.toMessage buf = buf.stores 0 (m.head seq) := by
  simp only [putHeader, Packet.head, Packet.toMessage, Block.stores_append, netBytes_setWidth,
    netBytes_length]

theorem putHeader_done (back : Block) :
    putHeader seq m.toMessage (List.replicate 16 (some 0) ++ back) = .ret ((m.head seq).map some ++ back) := by
  have size : (List.replicate 16 (some 0) : Block).length = (m.head seq).length := by
    rw [List.length_replicate, head_length]
  have done := Block.stores_at [] back size
  rw [List.nil_append, List.nil_append, List.length_nil] at done
  rw [putHeader_stores, done]

theorem loads_all (bytes : List UInt8) : Block.loads (bytes.map some) 0 bytes.length = .ret bytes := by
  have inside := @Block.loads_inside bytes 0 0 bytes.length (by omega)
  rwa [Block.received, List.replicate_zero, List.append_nil, slice, List.drop_zero, List.take_length]
    at inside

theorem toMessage_data : m.toMessage.data = m.data.map some := rfl

theorem copyData_done (n : ℕ) (back : Block) (size : n = m.data.length) :
    m.toMessage.data.copy ((m.head seq).map some ++ (List.replicate 4 (some 0) ++
      (List.replicate n (some 0) ++ back))) 20 0 n =
      .ret ((m.head seq).map some ++ (List.replicate 4 (some 0) ++ (m.data.map some ++ back))) := by
  have front : ((m.head seq).map some ++ List.replicate 4 (some 0)).length = 20 := by
    rw [List.length_append, List.length_map, head_length, List.length_replicate]
  have copied := Block.copy_at (m.data.map some) ((m.head seq).map some ++ List.replicate 4 (some 0)) back 0
    (List.replicate n (some 0))
  rw [front, List.length_replicate, size, loads_all, Outcome.ret_bind] at copied
  simp only [List.append_assoc] at copied
  rw [toMessage_data, size]
  exact copied

theorem putLength_done (back : Block) :
    Block.stores ((m.head seq).map some ++ (List.replicate 4 (some 0) ++ back)) 16 (netBytes 4 m.length) =
      .ret ((m.head seq).map some ++ ((netBytes 4 m.length).map some ++ back)) := by
  have size : (List.replicate 4 (some 0) : Block).length = (netBytes 4 m.length).length := by
    rw [List.length_replicate, netBytes_length]
  have done := Block.stores_at ((m.head seq).map some) back size
  rwa [List.length_map, head_length] at done

theorem putEnd_done {old : Block} (size : old.length = 4) :
    Block.stores ((m.head seq).map some ++ ((netBytes 4 m.length).map some ++ (m.data.map some ++
      (List.replicate (m.data.length % 4) (some 0) ++ old)))) (20 + m.data.length + m.data.length % 4)
      (netBytes 4 messageEnd) = .ret ((m.bytes seq).map some) := by
  have front : ((m.head seq).map some ++ ((netBytes 4 m.length).map some ++ (m.data.map some ++
      List.replicate (m.data.length % 4) (some 0)))).length = 20 + m.data.length + m.data.length % 4 := by
    simp only [List.length_append, List.length_map, List.length_replicate, netBytes_length, head_length]
    omega
  have done := Block.stores_at ((m.head seq).map some ++ ((netBytes 4 m.length).map some ++ (m.data.map some ++
    List.replicate (m.data.length % 4) (some 0)))) [] (size.trans (netBytes_length 4 messageEnd).symm)
  rw [front] at done
  simp only [List.append_assoc, List.append_nil] at done
  rw [done, bytes_eq]
  simp only [List.map_append, List.map_replicate]

/-- The buffer once it is cleared, part by part. -/
theorem cleared (n : ℕ) : (List.replicate (24 + n) (some 0) ++ List.replicate (n % 4) none : Block) =
    List.replicate 16 (some 0) ++ (List.replicate 4 (some 0) ++ (List.replicate n (some 0) ++
      (List.replicate (n % 4) (some 0) ++ (List.replicate (4 - n % 4) (some 0) ++ List.replicate (n % 4) none)))) := by
  have parts : 24 + n = 16 + (4 + (n + (n % 4 + (4 - n % 4)))) := by omega
  rw [parts]
  simp only [List.replicate_add, List.append_assoc]

theorem malloc_clear (n : ℕ) : ∃ buf, Block.malloc (24 + n + n % 4 : ℕ) = some buf ∧
    buf.clear (24 + n : ℕ) = .ret (List.replicate (24 + n) (some 0) ++ List.replicate (n % 4) none) := by
  refine ⟨List.replicate (24 + n + n % 4) none, if_neg (by omega), ?_⟩
  rw [List.replicate_add]
  exact Block.clear_at (24 + n) _ List.length_replicate

theorem messageToBuf_ret (short : m.Short) : messageToBuf seq m.toMessage = .ret ((m.bytes seq).map some) := by
  have whole : (24 : ℤ) + m.length.toInt + m.length.toInt.tmod 4 =
      (24 + m.data.length + m.data.length % 4 : ℕ) := by
    rw [length_tmod, length_toInt]
    push_cast
    rfl
  have front : (24 : ℤ) + m.length.toInt = (24 + m.data.length : ℕ) := by
    rw [length_toInt]
    push_cast
    rfl
  have last : ((20 : ℤ) + m.data.length + m.length.toInt.tmod 4).toNat =
      20 + m.data.length + m.data.length % 4 := by
    rw [length_tmod]
    omega
  have bound : ¬ (2 : ℤ) ^ 31 ≤ (24 + m.data.length + m.data.length % 4 : ℕ) := by
    rw [Packet.Short] at short
    omega
  obtain ⟨buf, there, zeros⟩ := malloc_clear m.data.length
  have tail : (List.replicate (4 - m.data.length % 4) (some 0) ++ List.replicate (m.data.length % 4) none :
      Block).length = 4 := by
    rw [List.length_append, List.length_replicate, List.length_replicate]
    omega
  have toNat : m.length.toInt.toNat = m.data.length := by
    rw [length_toInt, Int.toNat_natCast]
  have field : m.toMessage.messageLength = m.length := rfl
  rw [messageToBuf, field, whole, if_neg bound, there]
  dsimp only
  rw [front, zeros, Outcome.ret_bind, cleared, putHeader_done, Outcome.ret_bind, toNat,
    copyData_done _ _ rfl, Outcome.ret_bind, putLength_done, Outcome.ret_bind, last, putEnd_done tail]

theorem messageToBuf_long (long : ¬ m.Short) : messageToBuf seq m.toMessage = .abort "signed overflow" := by
  refine if_pos ?_
  change (2 : ℤ) ^ 31 ≤ 24 + m.length.toInt + m.length.toInt.tmod 4
  rw [length_tmod, length_toInt]
  rw [Packet.Short] at long
  omega

def packets (seq : BitVec 32) : List Packet → List (List UInt8)
  | [] => []
  | m :: rest => m.bytes seq :: packets (seq + 1) rest

def stream (seq : BitVec 32) (messages : List Packet) : List UInt8 := (packets seq messages).flatten

/-- Neither a length nor the sequence number overflows. -/
structure Sendable (seq : BitVec 32) (messages : List Packet) : Prop where
  short : ∀ m ∈ messages, m.Short
  room : seq.toInt + messages.length < 2 ^ 31

theorem nextSeq_eq_ret {next : BitVec 32} :
    nextSeq seq = .ret next ↔ seq.toInt + 1 < 2 ^ 31 ∧ next = seq + 1 := by
  rw [nextSeq]
  split
  · rename_i room
    exact ⟨fun h => ⟨room, (Outcome.ret.inj h).symm⟩, fun h => congrArg _ h.2.symm⟩
  · rename_i full
    exact ⟨fun h => (by cases h), fun h => absurd h.1 full⟩

theorem toInt_succ (room : seq.toInt + 1 < 2 ^ 31) : (seq + 1).toInt = seq.toInt + 1 := by
  have low := BitVec.le_toInt seq
  have one : (1 : BitVec 32).toInt = 1 := rfl
  rw [BitVec.toInt_add, one]
  refine Int.bmod_eq_of_le ?_ ?_ <;> omega

theorem send_eq_ret {sent : BitVec 32 × List UInt8} : send seq m.toMessage = .ret sent ↔
    m.Short ∧ seq.toInt + 1 < 2 ^ 31 ∧ sent = (seq + 1, m.bytes seq) := by
  rw [send]
  by_cases short : m.Short
  · rw [messageToBuf_ret short, Outcome.ret_bind, Outcome.bind_eq_ret, List.length_map, loads_all]
    constructor
    · rintro ⟨next, count, eq⟩
      obtain ⟨room, rfl⟩ := nextSeq_eq_ret.mp count
      exact ⟨short, room, (Outcome.ret.inj eq).symm⟩
    · rintro ⟨-, room, rfl⟩
      exact ⟨seq + 1, nextSeq_eq_ret.mpr ⟨room, rfl⟩, rfl⟩
  · rw [messageToBuf_long short, Outcome.abort_bind]
    exact ⟨fun h => (by cases h), fun h => absurd h.1 short⟩

theorem sendable_cons {rest : List Packet} : Sendable seq (m :: rest) ↔
    m.Short ∧ seq.toInt + 1 < 2 ^ 31 ∧ Sendable (seq + 1) rest := by
  constructor
  · rintro ⟨short, room⟩
    obtain ⟨first, later⟩ := List.forall_mem_cons.mp short
    rw [List.length_cons] at room
    have here : seq.toInt + 1 < 2 ^ 31 := by omega
    refine ⟨first, here, later, ?_⟩
    rw [toInt_succ here]
    omega
  · rintro ⟨first, here, later, room⟩
    rw [toInt_succ here] at room
    refine ⟨List.forall_mem_cons.mpr ⟨first, later⟩, ?_⟩
    rw [List.length_cons]
    omega

theorem sendAll_eq_ret {messages : List Packet} {bytes : List UInt8} :
    sendAll seq (messages.map Packet.toMessage) = .ret bytes ↔
      Sendable seq messages ∧ bytes = stream seq messages := by
  induction messages generalizing seq bytes with
  | nil =>
      have room : seq.toInt + ([] : List Packet).length < 2 ^ 31 := by
        have := @BitVec.toInt_lt 32 seq
        rw [List.length_nil]
        omega
      exact ⟨fun h => ⟨⟨fun m mem => (by cases mem), room⟩, (Outcome.ret.inj h).symm⟩,
        fun h => congrArg _ h.2.symm⟩
  | cons m rest ih =>
      rw [List.map_cons, sendAll, Outcome.bind_eq_ret, sendable_cons]
      constructor
      · rintro ⟨sent, first, later⟩
        obtain ⟨short, room, rfl⟩ := send_eq_ret.mp first
        obtain ⟨tail, run, eq⟩ := Outcome.bind_eq_ret.mp later
        obtain ⟨fine, rfl⟩ := ih.mp run
        refine ⟨⟨short, room, fine⟩, (Outcome.ret.inj eq).symm.trans ?_⟩
        rw [stream, stream, packets, List.flatten_cons]
      · rintro ⟨⟨short, room, fine⟩, rfl⟩
        refine ⟨_, send_eq_ret.mpr ⟨short, room, rfl⟩, ?_⟩
        rw [stream, packets, List.flatten_cons]
        exact Outcome.bind_of_ret (ih.mpr ⟨fine, rfl⟩)

variable {bytes : List UInt8} {n : ℕ}

/-- A field in network order. -/
def field (bytes : List UInt8) (i n : ℕ) : BitVec 32 := BitVec.ofNat 32 (netValue (slice bytes i n))

theorem reverseCpy_inside {i k : ℕ} (within : i + n ≤ bytes.length) :
    reverseCpy 0 (.received bytes k) i n = .ret (field bytes i n) := by
  have zeros : wordBytes 4 (0 : BitVec 32) = List.replicate 4 0 := rfl
  rw [reverseCpy, Block.loads_inside within, Outcome.ret_bind, zeros, List.drop_replicate,
    leValue_append_zeros]
  rfl

theorem field_eq_iff {i w : ℕ} {x : BitVec w} (size : w = 8 * n) (small : n ≤ 4)
    (within : i + n ≤ bytes.length) :
    field bytes i n = x.setWidth 32 ↔ slice bytes i n = netBytes n x := by
  have length := slice_length within
  have bound : netValue (slice bytes i n) < 2 ^ 32 := by
    have below := leValue_lt (slice bytes i n).reverse
    rw [List.length_reverse, length] at below
    exact below.trans_le (Nat.pow_le_pow_right (n := 256) (by decide) small)
  have exact := @netValue_eq_iff (slice bytes i n) w x (by rw [length, size])
  rw [length] at exact
  rw [← exact, ← BitVec.toNat_inj, field, BitVec.toNat_ofNat, Nat.mod_eq_of_lt bound,
    BitVec.toNat_setWidth_of_le (by omega)]

theorem field_eq_word {i : ℕ} {x : BitVec 32} (within : i + 4 ≤ bytes.length) :
    field bytes i 4 = x ↔ slice bytes i 4 = netBytes 4 x := by
  have whole := @field_eq_iff bytes 4 i 32 x rfl (by decide) within
  rwa [BitVec.setWidth_eq] at whole

theorem receiveData_eq_ret {k : ℕ} {data : Option Block} : receiveData (.received bytes k) n = .ret data ↔
    (slice bytes 20 n).length = n ∧ data = some ((slice bytes 20 n).map some) := by
  have there : Block.malloc (n : ℤ) = some (List.replicate n none) := if_neg (by omega)
  have copied := Block.copy_at (.received bytes k) [] [] 20 (List.replicate n none)
  simp only [List.nil_append, List.append_nil, List.length_nil, List.length_replicate] at copied
  rw [receiveData, there]
  dsimp only
  rw [Int.toNat_natCast, copied, bind_assoc, Outcome.bind_eq_ret]
  constructor
  · rintro ⟨got, load, eq⟩
    obtain ⟨rfl, size⟩ := Block.loads_received.mp load
    exact ⟨size, (Outcome.ret.inj eq).symm⟩
  · rintro ⟨size, rfl⟩
    exact ⟨_, Block.loads_received.mpr ⟨rfl, size⟩, rfl⟩

theorem receiveMessage_short (short : bytes.length < 20) : receiveMessage seq bytes = .ret (seq, none) :=
  if_pos short

theorem receiveMessage_of_long (long : 20 ≤ bytes.length) : receiveMessage seq bytes =
    nextSeq seq >>= fun next =>
      receiveData (.received bytes (rcvBufSize - bytes.length)) (field bytes 16 4).toInt >>= fun data =>
        .ret (next, some ⟨field bytes 4 2, field bytes 6 2, seq, field bytes 12 2, field bytes 14 2,
          field bytes 16 4, data⟩) := by
  have at_ : ∀ {i n : ℕ}, i + n ≤ 20 →
      reverseCpy 0 (.received bytes (rcvBufSize - bytes.length)) i n = .ret (field bytes i n) :=
    fun within => reverseCpy_inside (within.trans long)
  rw [receiveMessage, if_neg (not_lt.mpr long), at_ (by decide), Outcome.ret_bind, at_ (by decide),
    Outcome.ret_bind, at_ (by decide), Outcome.ret_bind]
  refine congrArg _ (funext fun next => ?_)
  rw [at_ (by decide), Outcome.ret_bind, at_ (by decide), Outcome.ret_bind,
    at_ (by decide), Outcome.ret_bind]
  rfl

theorem receiveMessage_some (long : 20 ≤ bytes.length) {next : BitVec 32} {msg : Option Message}
    (ret : receiveMessage seq bytes = .ret (next, msg)) : ∃ found, msg = some found := by
  rw [receiveMessage_of_long long] at ret
  obtain ⟨next', -, rest⟩ := Outcome.bind_eq_ret.mp ret
  obtain ⟨data, -, eq⟩ := Outcome.bind_eq_ret.mp rest
  exact ⟨_, (Prod.mk.inj (Outcome.ret.inj eq)).2.symm⟩

theorem in_iff (long : 20 ≤ bytes.length) : m.In bytes ↔
    slice bytes 4 2 = netBytes 2 m.sender ∧ slice bytes 6 2 = netBytes 2 m.receiver ∧
      slice bytes 12 2 = netBytes 2 m.type ∧ slice bytes 14 2 = netBytes 2 m.id ∧
        slice bytes 16 4 = netBytes 4 m.length ∧ slice bytes 20 m.data.length = m.data := by
  have size : ∀ {i n : ℕ}, i + n ≤ 20 → (slice bytes i n).length = n :=
    fun within => slice_length (within.trans long)
  have split : 8 + m.data.length = 2 + (2 + (4 + m.data.length)) := by omega
  rw [Packet.In, Packet.addresses, Packet.content, split, slice_append bytes 4 2 2,
    slice_append bytes 12 2, slice_append bytes 14 2, slice_append bytes 16 4]
  have pair {a a' b b' : List UInt8} (same : a.length = a'.length) : a ++ b = a' ++ b' ↔ a = a' ∧ b = b' :=
    ⟨fun h => List.append_inj h same, fun h => by rw [h.1, h.2]⟩
  rw [pair (by rw [size (by decide), netBytes_length]), pair (by rw [size (by decide), netBytes_length]),
    pair (by rw [size (by decide), netBytes_length]), pair (by rw [size (by decide), netBytes_length]),
    and_assoc]

theorem receiveMessage_eq_ret (long : 20 ≤ bytes.length) {next : BitVec 32} :
    receiveMessage seq bytes = .ret (next, some m.toMessage) ↔
      m.In bytes ∧ m.seq = seq ∧ seq.toInt + 1 < 2 ^ 31 ∧ next = seq + 1 := by
  have word {i : ℕ} {x : BitVec 16} (within : i + 2 ≤ 20) :
      field bytes i 2 = x.setWidth 32 ↔ slice bytes i 2 = netBytes 2 x :=
    field_eq_iff rfl (by decide) (within.trans long)
  have size : field bytes 16 4 = m.length ↔ slice bytes 16 4 = netBytes 4 m.length := field_eq_word long
  rw [receiveMessage_of_long long, in_iff long, Outcome.bind_eq_ret]
  constructor
  · rintro ⟨next', count, rest⟩
    obtain ⟨room, rfl⟩ := nextSeq_eq_ret.mp count
    obtain ⟨data, run, eq⟩ := Outcome.bind_eq_ret.mp rest
    obtain ⟨rfl, same⟩ := Prod.mk.inj (Outcome.ret.inj eq)
    obtain ⟨sender, receiver, number, type, id, length, rfl⟩ := Message.mk.inj (Option.some.inj same)
    rw [length, length_toInt, receiveData_eq_ret] at run
    have content : slice bytes 20 m.data.length = m.data :=
      (List.map_injective_iff.mpr (Option.some_injective _) (Option.some.inj run.2)).symm
    exact ⟨⟨(word (by decide)).mp sender, (word (by decide)).mp receiver, (word (by decide)).mp type,
      (word (by decide)).mp id, size.mp length, content⟩, number.symm, room, rfl⟩
  · rintro ⟨⟨sender, receiver, type, id, length, content⟩, number, room, rfl⟩
    have run : receiveData (.received bytes (rcvBufSize - bytes.length)) (field bytes 16 4).toInt =
        .ret (some (m.data.map some)) := by
      rw [size.mpr length, length_toInt, receiveData_eq_ret, content]
      exact ⟨rfl, rfl⟩
    refine ⟨seq + 1, nextSeq_eq_ret.mpr ⟨room, rfl⟩, ?_⟩
    rw [run, Outcome.ret_bind, (word (by decide)).mpr sender, (word (by decide)).mpr receiver,
      (word (by decide)).mpr type, (word (by decide)).mpr id, size.mpr length, ← number]
    rfl

/-- What `recv` returns, call by call: all bytes of the stream in order, and never more of them than it was
asked for. -/
structure Cut where
  pieces : List UInt8 → List (List UInt8)
  whole : ∀ bytes, (pieces bytes).flatten = bytes
  sizes : ∀ bytes, ∀ piece ∈ pieces bytes, 0 < piece.length ∧ piece.length < rcvBufSize

def RoundTrips (sent received : BitVec 32) (messages : List Packet) (cut : Cut) : Prop :=
  ∃ bytes, sendAll sent (messages.map Packet.toMessage) = .ret bytes ∧
    ∃ results, receiveAll received (cut.pieces bytes) = .ret results ∧
      results.filterMap id = messages.map Packet.toMessage

/-- The sequence numbers are the ones that the receiver counts. -/
def Counted (seq : BitVec 32) : List Packet → Prop
  | [] => True
  | m :: rest => m.seq = seq ∧ seq.toInt + 1 < 2 ^ 31 ∧ Counted (seq + 1) rest

/-- The pieces that are long enough for a header hold the messages, one each. -/
def Carried (messages : List Packet) (pieces : List (List UInt8)) : Prop :=
  List.Forall₂ Packet.In messages (pieces.filter (20 ≤ ·.length))

theorem carried_short {messages : List Packet} {pieces : List (List UInt8)} (short : bytes.length < 20) :
    Carried messages (bytes :: pieces) ↔ Carried messages pieces := by
  rw [Carried, Carried, List.filter_cons_of_neg (by simpa using short)]

theorem carried_long {messages : List Packet} {pieces : List (List UInt8)} (long : 20 ≤ bytes.length) :
    Carried messages (bytes :: pieces) ↔
      ∃ m rest, messages = m :: rest ∧ m.In bytes ∧ Carried rest pieces := by
  rw [Carried, List.filter_cons_of_pos (by simpa using long), List.forall₂_cons_right_iff]
  constructor
  · rintro ⟨m, rest, holds, later, rfl⟩
    exact ⟨m, rest, rfl, holds, later⟩
  · rintro ⟨m, rest, rfl, holds, later⟩
    exact ⟨m, rest, holds, later, rfl⟩

/-- A piece of the stream gives a message of the list, or is passed over. -/
theorem receiveAll_iff {messages : List Packet} {pieces : List (List UInt8)} :
    (∃ results, receiveAll seq pieces = .ret results ∧
      results.filterMap id = messages.map Packet.toMessage) ↔ Counted seq messages ∧ Carried messages pieces := by
  induction pieces generalizing seq messages with
  | nil =>
      constructor
      · rintro ⟨results, run, same⟩
        cases Outcome.ret.inj run
        rw [List.map_eq_nil_iff.mp same.symm]
        exact ⟨trivial, .nil⟩
      · rintro ⟨-, carried⟩
        rw [Carried, List.filter_nil, List.forall₂_nil_right_iff] at carried
        exact ⟨[], rfl, by rw [carried]; rfl⟩
  | cons bytes pieces ih =>
      by_cases long : 20 ≤ bytes.length
      · rw [carried_long long]
        constructor
        · rintro ⟨results, run, same⟩
          obtain ⟨⟨next, msg⟩, first, behind⟩ := Outcome.bind_eq_ret.mp run
          obtain ⟨later, run, eq⟩ := Outcome.bind_eq_ret.mp behind
          obtain ⟨found, rfl⟩ := receiveMessage_some long first
          cases Outcome.ret.inj eq
          obtain ⟨m, rest, rfl, rfl, tail⟩ := List.map_eq_cons_iff.mp same.symm
          obtain ⟨holds, number, room, rfl⟩ := (receiveMessage_eq_ret long).mp first
          obtain ⟨counted, carried⟩ := ih.mp ⟨later, run, tail.symm⟩
          exact ⟨⟨number, room, counted⟩, m, rest, rfl, holds, carried⟩
        · rintro ⟨counted, m, rest, rfl, holds, carried⟩
          obtain ⟨number, room, counted⟩ := counted
          obtain ⟨results, run, same⟩ := ih.mpr ⟨counted, carried⟩
          have first := (receiveMessage_eq_ret long).mpr ⟨holds, number, room, rfl⟩
          refine ⟨some m.toMessage :: results, ?_, congrArg (m.toMessage :: ·) same⟩
          exact (Outcome.bind_of_ret first).trans (Outcome.bind_of_ret run)
      · have short := not_le.mp long
        rw [carried_short short, ← ih, receiveAll, receiveMessage_short short, Outcome.ret_bind]
        constructor
        · rintro ⟨results, run, same⟩
          obtain ⟨later, behind, eq⟩ := Outcome.bind_eq_ret.mp run
          cases Outcome.ret.inj eq
          exact ⟨later, behind, same⟩
        · rintro ⟨results, run, same⟩
          exact ⟨none :: results, Outcome.bind_of_ret run, same⟩

theorem addresses_length : m.addresses.length = 4 := by
  simp [Packet.addresses]

theorem content_length : m.content.length = 8 + m.data.length := by
  simp only [Packet.content, List.length_append, netBytes_length]
  omega

theorem in_bytes : m.In (m.bytes seq) := by
  constructor
  · have there := slice_at (netBytes 4 messageStart) m.addresses (netBytes 4 seq ++ (m.content ++
      (List.replicate (m.data.length % 4) 0 ++ netBytes 4 messageEnd)))
    rwa [netBytes_length, addresses_length] at there
  · have there := slice_at (netBytes 4 messageStart ++ (m.addresses ++ netBytes 4 seq)) m.content
      (List.replicate (m.data.length % 4) 0 ++ netBytes 4 messageEnd)
    simp only [List.length_append, netBytes_length, addresses_length, content_length,
      List.append_assoc] at there
    exact there

/-- So messages come through when each piece is one of them. -/
theorem carried_packets (messages : List Packet) : Carried messages (packets seq messages) := by
  induction messages generalizing seq with
  | nil => exact .nil
  | cons m rest ih =>
      have long : 20 ≤ (m.bytes seq).length := by
        simp only [Packet.bytes, List.length_append, netBytes_length, addresses_length, content_length]
        omega
      exact (carried_long long).mpr ⟨m, rest, rfl, in_bytes, ih⟩

theorem Packet.In.small (holds : m.In bytes) (size : bytes.length < rcvBufSize) : m.data.length ≤ 107 := by
  have length := congrArg List.length holds.2
  rw [content_length, slice, List.length_take, List.length_drop] at length
  change bytes.length < 128 at size
  omega

/-- No message with more than 107 bytes of data comes through. -/
theorem Carried.small {messages : List Packet} {pieces : List (List UInt8)} (carried : Carried messages pieces)
    (sizes : ∀ piece ∈ pieces, piece.length < rcvBufSize) : ∀ m ∈ messages, m.data.length ≤ 107 := by
  induction pieces generalizing messages with
  | nil =>
      rw [Carried, List.filter_nil, List.forall₂_nil_right_iff] at carried
      exact fun m mem => by rw [carried] at mem; cases mem
  | cons bytes pieces ih =>
      obtain ⟨size, rest⟩ := List.forall_mem_cons.mp sizes
      by_cases long : 20 ≤ bytes.length
      · obtain ⟨m, later, rfl, holds, carried⟩ := (carried_long long).mp carried
        exact List.forall_mem_cons.mpr ⟨holds.small size, ih carried rest⟩
      · exact ih ((carried_short (not_le.mp long)).mp carried) rest

/-- Whether messages come through is decided by the pieces: a piece that `recv` returns is one message, and
one of less than 20 bytes is none. -/
theorem roundTrips_iff (sent received : BitVec 32) (messages : List Packet) (cut : Cut) :
    RoundTrips sent received messages cut ↔ Sendable sent messages ∧ Counted received messages ∧
      Carried messages (cut.pieces (stream sent messages)) := by
  constructor
  · rintro ⟨bytes, sending, receiving⟩
    obtain ⟨sendable, rfl⟩ := sendAll_eq_ret.mp sending
    exact ⟨sendable, receiveAll_iff.mp receiving⟩
  · rintro ⟨sendable, counted⟩
    exact ⟨_, sendAll_eq_ret.mpr ⟨sendable, rfl⟩, receiveAll_iff.mpr counted⟩

def fullPieces : ℕ → List UInt8 → List (List UInt8)
  | 0, _ => []
  | n + 1, bytes =>
      if bytes = [] then [] else bytes.take (rcvBufSize - 1) :: fullPieces n (bytes.drop (rcvBufSize - 1))

theorem fullPieces_whole (enough : bytes.length ≤ n) : (fullPieces n bytes).flatten = bytes := by
  induction n generalizing bytes with
  | zero => exact (List.length_eq_zero_iff.mp (Nat.le_zero.mp enough)).symm
  | succ n ih =>
      rw [fullPieces]
      split
      · rename_i none
        exact none.symm
      · have less : (bytes.drop (rcvBufSize - 1)).length ≤ n := by
          change (bytes.drop 127).length ≤ n
          rw [List.length_drop]
          omega
        rw [List.flatten_cons, ih less, List.take_append_drop]

theorem fullPieces_sizes {piece : List UInt8} (mem : piece ∈ fullPieces n bytes) :
    0 < piece.length ∧ piece.length < rcvBufSize := by
  induction n generalizing bytes with
  | zero => cases mem
  | succ n ih =>
      rw [fullPieces] at mem
      split at mem
      · cases mem
      · rename_i some
        cases mem with
        | head =>
            have := List.length_pos_iff.mpr some
            change 0 < (bytes.take 127).length ∧ (bytes.take 127).length < 128
            rw [List.length_take]
            omega
        | tail _ later => exact ih later

def Cut.full : Cut where
  pieces bytes := fullPieces bytes.length bytes
  whole _ := fullPieces_whole le_rfl
  sizes _ _ mem := fullPieces_sizes mem

/-- Two messages without data arrive together, and the second is lost. -/
theorem second_message_lost : ¬ RoundTrips 0 0
    [⟨0xFFFF, 0, 0, 1, 4, [], by decide⟩, ⟨1, 0, 1, 3, 1, [], by decide⟩] .full := by
  rintro ⟨bytes, sending, receiving⟩
  obtain ⟨-, rfl⟩ := sendAll_eq_ret.mp sending
  have both := (receiveAll_iff.mp receiving).2.length_eq
  revert both
  decide

end Mio.Adapters.S2sim
