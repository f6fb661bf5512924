import Mathlib.Algebra.Order.Field.Rat
import Mathlib.Tactic.FieldSimp
import Mathlib.Tactic.Linarith
import Mathlib.Tactic.NormNum
import Mio.Datastore.PeriodicData

/-! `TickToTime` with its period and its zeroth tick, over the records of a `.bt` file. Doubles are
exact; the product of a count and the period is the machine's. -/
namespace Mio.Datastore

def readU48 (ptr : List UInt8) : BitVec 64 := BitVec.ofNat 64 (leValue (ptr.take 6))

structure StartOfFileRecord where
  /-- In picoseconds. -/
  tickPeriod : BitVec 64
  carried : tickPeriod.toNat < 2 ^ 48

structure RtcRecord where
  tickCount : BitVec 32
  nanosecondsSince1970 : BitVec 64

def RtcRecord.secondsSince1970 (rtcr : RtcRecord) : ℚ := rtcr.nanosecondsSince1970.toInt / 10 ^ 9

inductive BtRecord where
  | startOfFile (sofr : StartOfFileRecord)
  | rtc (rtcr : RtcRecord)
  | periodicData (pdr : PeriodicDataRecord)

theorem leValue_lt (bytes : List UInt8) : leValue bytes < 256 ^ bytes.length := by
  induction bytes with
  | nil => exact Nat.one_pos
  | cons b bytes ih =>
      have digit : b.toNat < 256 := b.toNat_lt
      rw [leValue, List.length_cons, Nat.pow_succ]
      omega

theorem readU48_lt (ptr : List UInt8) : (readU48 ptr).toNat < 2 ^ 48 := by
  have short : (ptr.take 6).length ≤ 6 := List.length_take_le ..
  have bound : leValue (ptr.take 6) < 256 ^ 6 :=
    (leValue_lt _).trans_le (Nat.pow_le_pow_right (by decide) short)
  rw [readU48, BitVec.toNat_ofNat]
  exact (Nat.mod_le ..).trans_lt bound

/-- The part of the constructor that fills the period, from the place where it stands. -/
def StartOfFileRecord.ofTickPeriod (ptr : List UInt8) : StartOfFileRecord := ⟨readU48 ptr, readU48_lt ptr⟩

/-- `TickToTime` with all its members. -/
structure TickClock extends TickToTime where
  tickPeriod : BitVec 64
  zeroTickTime : ℚ

namespace TickClock

def new : TickClock := ⟨.new, 0#64, 0⟩

def longTicksToTime (clock : TickClock) (longTicks : BitVec 64) : ℚ :=
  clock.zeroTickTime + ((longTicks * clock.tickPeriod).toNat : ℚ) / 10 ^ 12

def receiveStartOfFile (clock : TickClock) (sofr : StartOfFileRecord) : TickClock :=
  { clock with tickPeriod := sofr.tickPeriod }

def receiveRtc (clock : TickClock) (rtcr : RtcRecord) : TickClock :=
  let clock := { clock with toTickToTime := clock.receiveShortTicks rtcr.tickCount }
  let newZeroTickTime :=
    rtcr.secondsSince1970 - ((clock.currentTick * clock.tickPeriod).toNat : ℚ) / 10 ^ 12
  if clock.zeroTickTime = 0 then { clock with zeroTickTime := newZeroTickTime } else clock

def receivePeriodicData (clock : TickClock) (pdr : PeriodicDataRecord) : TickClock :=
  { clock with toTickToTime := pdr.receiveBinrec clock.toTickToTime }

/-- The overloads of `receive_binrec`. -/
def receiveBinrec (clock : TickClock) : BtRecord → TickClock
  | .startOfFile sofr => clock.receiveStartOfFile sofr
  | .rtc rtcr => clock.receiveRtc rtcr
  | .periodicData pdr => clock.receivePeriodicData pdr

/-- The clock in `parse_bt_file`. -/
def receiveRecords (records : List BtRecord) : TickClock := records.foldl receiveBinrec new

@[simp] theorem receiveRtc_tickPeriod (clock : TickClock) (rtcr : RtcRecord) :
    (clock.receiveRtc rtcr).tickPeriod = clock.tickPeriod := by
  unfold receiveRtc
  dsimp only
  split <;> rfl

@[simp] theorem receiveRtc_toTickToTime (clock : TickClock) (rtcr : RtcRecord) :
    (clock.receiveRtc rtcr).toTickToTime = clock.receiveShortTicks rtcr.tickCount := by
  unfold receiveRtc
  dsimp only
  split <;> rfl

/-- The period is none yet, or one that a record carries. -/
theorem tickPeriod_lt (records : List BtRecord) : (receiveRecords records).tickPeriod.toNat < 2 ^ 48 := by
  induction records using List.reverseRecOn with
  | nil => decide
  | append_singleton records r ih =>
      rw [receiveRecords, List.foldl_concat]
      cases r with
      | startOfFile sofr => exact sofr.carried
      | rtc rtcr =>
          change ((receiveRecords records).receiveRtc rtcr).tickPeriod.toNat < _
          rw [receiveRtc_tickPeriod]
          exact ih
      | periodicData pdr => exact ih

/-- The product of 64 bits is the product. -/
def Unwrapped (x y : BitVec 64) : Prop := (x * y).toNat = x.toNat * y.toNat

theorem unwrapped_iff {x y : BitVec 64} : Unwrapped x y ↔ x.toNat * y.toNat < 2 ^ 64 := by
  rw [Unwrapped, BitVec.toNat_mul]
  constructor
  · intro same
    exact same ▸ Nat.mod_lt _ (by decide)
  · exact Nat.mod_eq_of_lt

theorem longTicksToTime_lt (clock : TickClock) (a b : BitVec 64) :
    clock.longTicksToTime a < clock.longTicksToTime b ↔
      (a * clock.tickPeriod).toNat < (b * clock.tickPeriod).toNat := by
  have pico : (0 : ℚ) < 10 ^ 12 := by norm_num
  rw [longTicksToTime, longTicksToTime, add_lt_add_iff_left, div_lt_div_iff_of_pos_right pico,
    Nat.cast_lt]

theorem longTicksToTime_sub (clock : TickClock) (a b : BitVec 64) :
    clock.longTicksToTime b - clock.longTicksToTime a =
      (((b * clock.tickPeriod).toNat : ℚ) - (a * clock.tickPeriod).toNat) / 10 ^ 12 := by
  rw [longTicksToTime, longTicksToTime]
  ring

/-- The clock after the record converts the two ticks as it should. -/
structure ConvertsExactly (clock : TickClock) (rtcr : RtcRecord) (a b : BitVec 64) : Prop where
  increasing : (clock.receiveRtc rtcr).longTicksToTime a < (clock.receiveRtc rtcr).longTicksToTime b
  affine : (clock.receiveRtc rtcr).longTicksToTime b - (clock.receiveRtc rtcr).longTicksToTime a =
    ((b.toNat : ℚ) - a.toNat) * clock.tickPeriod.toNat / 10 ^ 12
  first : Unwrapped a clock.tickPeriod
  second : Unwrapped b clock.tickPeriod
  /-- The product in `receive_binrec`. -/
  now : Unwrapped (clock.receiveRtc rtcr).currentTick clock.tickPeriod

/-- The count that a received one is unwrapped to: the nearest one of its class, and the second of its
class at the start. -/
def tickAfter (count : ℕ) (shortTicks : BitVec 32) : ℤ :=
  if count = 0 then 2 ^ 32 + (shortTicks.toNat : ℤ)
  else TickToTime.follow count shortTicks % 2 ^ 64

theorem currentTick_receiveRtc (clock : TickClock) (rtcr : RtcRecord) :
    ((clock.receiveRtc rtcr).currentTick.toNat : ℤ) =
      tickAfter clock.currentTick.toNat rtcr.tickCount := by
  have zero : clock.currentTick.toNat = 0 ↔ clock.currentTick = 0#64 :=
    BitVec.toNat_inj (y := 0#64)
  rw [receiveRtc_toTickToTime, TickToTime.receiveShortTicks_toNat, tickAfter]
  exact if_congr zero.symm rfl rfl

/-- Both products fit into 64 bits: that of the later tick, and that of the tick of the record. -/
theorem converts_exactly_iff (records : List BtRecord) (rtcr : RtcRecord) {a b : BitVec 64}
    (running : 0 < (receiveRecords records).tickPeriod.toNat) (lt : a.toNat < b.toNat) :
    ConvertsExactly (receiveRecords records) rtcr a b ↔
      b.toNat * (receiveRecords records).tickPeriod.toNat < 2 ^ 64 ∧
        tickAfter (receiveRecords records).currentTick.toNat rtcr.tickCount *
          (receiveRecords records).tickPeriod.toNat < 2 ^ 64 := by
  generalize receiveRecords records = clock at running
  rw [← currentTick_receiveRtc]
  have period := clock.receiveRtc_tickPeriod rtcr
  constructor
  · intro exact_
    have now := unwrapped_iff.mp exact_.now
    exact ⟨unwrapped_iff.mp exact_.second, by exact_mod_cast now⟩
  · rintro ⟨second, now⟩
    have below : a.toNat * clock.tickPeriod.toNat < b.toNat * clock.tickPeriod.toNat :=
      Nat.mul_lt_mul_of_pos_right lt running
    have wrapA : Unwrapped a clock.tickPeriod := unwrapped_iff.mpr (below.trans second)
    have wrapB : Unwrapped b clock.tickPeriod := unwrapped_iff.mpr second
    refine ⟨?_, ?_, wrapA, wrapB, unwrapped_iff.mpr (by exact_mod_cast now)⟩
    · rw [longTicksToTime_lt, period, wrapA, wrapB]
      exact below
    · rw [longTicksToTime_sub, period, wrapA, wrapB]
      push_cast
      ring

/-- A period of a microsecond, right at the start. -/
theorem converts_exactly_iff_microsecond :
    ConvertsExactly (receiveRecords [.startOfFile (.ofTickPeriod [0x40, 0x42, 0x0f, 0, 0, 0])])
      ⟨0#32, 0#64⟩ 4294967296#64 4294967297#64 :=
  (converts_exactly_iff [.startOfFile (.ofTickPeriod [0x40, 0x42, 0x0f, 0, 0, 0])] ⟨0#32, 0#64⟩
    (by decide) (by decide)).mpr (by decide)

/-- A period of ten milliseconds: the product wraps between two neighbouring ticks, and time goes
back. -/
theorem slow_clock_goes_back :
    (TickToTime.receiveAll [0#32, 1239055926#32]).currentTick = 5534023222#64 ∧
      (TickToTime.receiveAll [0#32, 1239055927#32]).currentTick = 5534023223#64 ∧
      ¬ ConvertsExactly (receiveRecords [.startOfFile (.ofTickPeriod [0, 0xe4, 0x0b, 0x54, 2, 0])])
        ⟨0#32, 0#64⟩ 5534023222#64 5534023223#64 := by
  refine ⟨by decide, by decide, ?_⟩
  intro exact_
  have forward := exact_.increasing
  rw [longTicksToTime_lt, receiveRtc_tickPeriod] at forward
  exact absurd forward (by decide)

end TickClock
end Mio.Datastore
