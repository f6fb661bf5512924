import Mathlib.Data.List.Find
import Mio.Lib.Scan
import Mio.LibMio.DataItem

/-! Modbus registers as transducers: `modbus_adapter.c` publishes what a register holds and writes what
it is set to. -/
namespace Mio.Adapters.Modbus

open LibMio

/-- `modbus_device_type_t`. -/
inductive DeviceType where
  | enum
  | fe2
  | sfe2
  | splitByte
  | pe2
  | ge2
  | int
  | bm
deriving DecidableEq

/-- `modbus_register_t`; a register without a second name holds an empty one. -/
structure Register where
  name : List Char
  name2 : List Char := []
  mbStartRegister : UInt16
  responseType : DeviceType
  responseType2 : DeviceType := .enum
  value : UInt16

/-- `modbus_device_t`. -/
structure Device where
  eventNodeId : List Char
  slaveId : UInt16
  registers : List Register

inductive Fault where
  | uninitialised
  | outOfRange
deriving DecidableEq

/-- The conversion of a floating number to `uint16_t`. -/
def toUInt16 (x : ℚ) : Outcome Fault UInt16 :=
  if -1 < x ∧ x < 2 ^ 16 then .ret (UInt16.ofNat ⌊x⌋.toNat) else .throw .outOfRange

/-- The conversion to `int` of a positive number, and a product of it. -/
def toIntTimes (x : ℚ) (factor : ℤ) : Outcome Fault ℤ :=
  if ⌊x⌋ < 2 ^ 31 ∧ ⌊x⌋ * factor < 2 ^ 31 then .ret (⌊x⌋ * factor) else .throw .outOfRange

/-- `get_value`, with numbers that are read exactly. -/
def getValue (dataType : DeviceType) (value : List Char) : Outcome Fault UInt16 :=
  match Scan.sscanf value with
  -- At the end of the text `sscanf` gives EOF, which is not zero.
  | none => if value.all Scan.isSpace then .throw .uninitialised else .ret 0
  | some valHold =>
      match dataType with
      | .int | .enum => toUInt16 valHold
      | .fe2 => toUInt16 (valHold * 10)
      | .sfe2 => do
          let _ret ←
            if valHold < 0 then do
              let magnitude ← toIntTimes (-valHold) 10
              pure (UInt16.ofNat magnitude.toNat ||| 0x8000)
            else toUInt16 (valHold * 10)
          -- no break
          toUInt16 valHold
      | _ => toUInt16 valHold

/-- `%3.1f` of a tenth of the number. -/
def tenthsText (val : ℕ) : List Char := Scan.printD (val / 10 : ℕ) ++ '.' :: Scan.printD (val % 10 : ℕ)

def valueText (regType : DeviceType) (val : ℕ) : List Char :=
  match regType with
  | .int => Scan.printD val
  | .enum => Scan.printD val
  | .fe2 => tenthsText val
  | _ => tenthsText val

def getMioString (reg : Register) (split : ℕ) : List Char :=
  let val := if split ≠ 0 then 0xFF &&& (reg.value >>> UInt16.ofNat (split - 1)) else reg.value
  let regType := if split = 2 then reg.responseType2 else reg.responseType
  valueText regType val.toNat

/-- One value of `publish_all_registers`; it is the raw one as well. -/
def valueCall (name value timeStr : List Char) : DataItem.Call :=
  { deviceID := none, id := name, typedValue := value, rawValue := value, timestamp := timeStr
    actuate := false }

/-- The values of a register: its second name is an array, so that it is never a null pointer. -/
def registerCalls (timeStr : List Char) (reg : Register) : List DataItem.Call :=
  [valueCall reg.name (getMioString reg 1) timeStr, valueCall reg.name2 (getMioString reg 2) timeStr]

/-- The item of a device. -/
def deviceItem (timeStr : List Char) (device : Device) : Outcome Empty (Option DataItem.Node) :=
  DataItem.addAll (some DataItem.itemDataNew) (device.registers.flatMap (registerCalls timeStr))

/-- `publish_all_registers`: the items for the event nodes. -/
def publishAllRegisters (timeStr : List Char) : List Device → Outcome Empty (List (List Char × Option DataItem.Node))
  | [] => .ret []
  | device :: devices => do
      let item ← deviceItem timeStr device
      return (device.eventNodeId, item) :: (← publishAllRegisters timeStr devices)

def shownUnder (name : List Char) (item : DataItem.Node) : Option (List Char) :=
  match DataItem.getChildren item with
  | data :: _ =>
      ((DataItem.getChildren data).find? fun v => DataItem.getAttribute .id v = some name).bind
        (DataItem.getAttribute .typedValue)
  | [] => none

/-- What goes out to a device. -/
structure Write where
  slaveId : UInt16
  address : UInt16
  value : UInt16
deriving DecidableEq

def writeRegister (device : Device) (reg : Register) : Write :=
  ⟨device.slaveId, reg.mbStartRegister, reg.value &&& 0xFFFF⟩

/-- The first register of the name takes the value. -/
def setRegister (name typedValue : List Char) : List Register → Outcome Fault (Option (Register × List Register))
  | [] => .ret none
  | reg :: rest =>
      if reg.name = name then do
        let value ← getValue reg.responseType typedValue
        return some ({ reg with value }, { reg with value } :: rest)
      else do
        match ← setRegister name typedValue rest with
        | none => return none
        | some (found, rest) => return some (found, reg :: rest)

/-- One set value in `modbus_actuate`: every device of the event. -/
def modbusActuate (event name typedValue : List Char) : List Device → Outcome Fault (List Device × List Write)
  | [] => .ret ([], [])
  | device :: devices => do
      if device.eventNodeId ≠ event then
        let (devices, writes) ← modbusActuate event name typedValue devices
        return (device :: devices, writes)
      else
        match ← setRegister name typedValue device.registers with
        | none =>
            let (devices, writes) ← modbusActuate event name typedValue devices
            return (device :: devices, writes)
        | some (reg, registers) =>
            let (devices, writes) ← modbusActuate event name typedValue devices
            return ({ device with registers } :: devices, writeRegister device reg :: writes)

/-- The types that are written without a point. -/
def DeviceType.isWhole : DeviceType → Bool
  | .int | .enum => true
  | _ => false

/-- A byte under the type it is written in. -/
abbrev Half := DeviceType × ℕ

def Half.text (h : Half) : List Char := valueText h.1 h.2

/-- The number that is read for a register of a type. -/
def Half.meant (h : Half) (dataType : DeviceType) : ℕ :=
  match dataType with
  | .fe2 => if h.1.isWhole then 10 * h.2 else h.2
  | _ => if h.1.isWhole then h.2 else h.2 / 10

theorem valueText_eq (regType : DeviceType) (val : ℕ) :
    valueText regType val = if regType.isWhole then Scan.printD val else tenthsText val := by
  cases regType <;> rfl

theorem sscanf_text (h : Half) :
    Scan.sscanf h.text = some (if h.1.isWhole then (h.2 : ℚ) else h.2 / 10) := by
  rw [Half.text, valueText_eq]
  split
  · exact Scan.sscanf_printD h.2
  · have one : (Nat.toDigits 10 (h.2 % 10)).length = 1 := by
      have le := (Nat.length_toDigits_le_iff (b := 10) (n := h.2 % 10) (k := 1) (by decide)
        Nat.one_pos).mpr (Nat.mod_lt _ (by decide))
      have pos : 0 < (Nat.toDigits 10 (h.2 % 10)).length := Nat.length_toDigits_pos
      omega
    have parts : (h.2 : ℚ) = 10 * (h.2 / 10 : ℕ) + (h.2 % 10 : ℕ) := by
      exact_mod_cast (Nat.div_add_mod h.2 10).symm
    rw [tenthsText, Scan.sscanf_printD_point, one, parts]
    congr 1
    ring

theorem toUInt16_div {n d : ℕ} (small : n < 2 ^ 16) :
    toUInt16 ((n : ℚ) / d) = .ret (UInt16.ofNat (n / d)) := by
  have low : (0 : ℚ) ≤ n / d := by positivity
  have high : (n : ℚ) / d < 2 ^ 16 := by
    have le : (n : ℚ) / d ≤ n := by
      rcases d.eq_zero_or_pos with rfl | pos
      · simp
      · exact div_le_self (by positivity) (by exact_mod_cast pos)
    have lt : (n : ℚ) < 2 ^ 16 := by exact_mod_cast small
    exact le.trans_lt lt
  rw [toUInt16, if_pos ⟨by linarith, high⟩, Rat.floor_natCast_div_natCast]
  rfl

/-- A byte that is shown is read for every type; the fall-through takes the number for the tenths. -/
theorem getValue_text {h : Half} (byte : h.2 < 256) (dataType : DeviceType) :
    getValue dataType h.text = .ret (UInt16.ofNat (h.meant dataType)) := by
  have number : ∀ d : ℕ, toUInt16 ((h.2 : ℚ) / d) = .ret (UInt16.ofNat (h.2 / d)) := fun d =>
    toUInt16_div (by omega)
  have whole : toUInt16 (h.2 : ℚ) = .ret (UInt16.ofNat h.2) := by
    have := number 1
    rwa [Nat.cast_one, div_one, Nat.div_one] at this
  have tens : toUInt16 ((h.2 : ℚ) * 10) = .ret (UInt16.ofNat (10 * h.2)) := by
    have := toUInt16_div (n := 10 * h.2) (d := 1) (by omega)
    rw [Nat.cast_one, div_one, Nat.div_one] at this
    rw [← this, Nat.cast_mul, mul_comm]
    rfl
  have tenth : toUInt16 ((h.2 : ℚ) / 10) = .ret (UInt16.ofNat (h.2 / 10)) := by exact_mod_cast number 10
  have back : (h.2 : ℚ) / 10 * 10 = h.2 := by ring
  have high : ¬ (h.2 : ℚ) < 0 := not_lt.mpr (by positivity)
  have high' : ¬ (h.2 : ℚ) / 10 < 0 := not_lt.mpr (by positivity)
  unfold getValue
  rw [sscanf_text]
  unfold Half.meant
  cases shape : h.1.isWhole <;> cases dataType <;>
    simp [whole, tens, tenth, back, high, high']

/-- What each register publishes, and under which name: the low byte, and the bits 1 to 8. -/
def halves (registers : List Register) : List (List Char × Half) :=
  registers.flatMap fun reg =>
    [(reg.name, reg.responseType, reg.value.toNat % 256),
      (reg.name2, reg.responseType2, reg.value.toNat / 2 % 256)]

theorem low_byte (value : UInt16) (shift : ℕ) (small : shift < 16) :
    (0xFF &&& (value >>> UInt16.ofNat shift)).toNat = value.toNat / 2 ^ shift % 256 := by
  have mask : (0xFF : UInt16).toNat = 2 ^ 8 - 1 := rfl
  have count : (UInt16.ofNat shift).toNat % 16 = shift := by
    rw [UInt16.toNat_ofNat_of_lt' (by rw [UInt16.size]; omega), Nat.mod_eq_of_lt small]
  rw [UInt16.toNat_and, UInt16.toNat_shiftRight, count, mask, Nat.and_comm,
    Nat.and_two_pow_sub_one_eq_mod, Nat.shiftRight_eq_div_pow]

theorem getMioString_one (reg : Register) :
    getMioString reg 1 = valueText reg.responseType (reg.value.toNat % 256) := by
  have byte := low_byte reg.value 0 (by decide)
  rw [pow_zero, Nat.div_one] at byte
  unfold getMioString
  rw [if_pos one_ne_zero, if_neg (by decide)]
  exact congrArg (valueText reg.responseType) byte

theorem getMioString_two (reg : Register) :
    getMioString reg 2 = valueText reg.responseType2 (reg.value.toNat / 2 % 256) := by
  have byte := low_byte reg.value 1 (by decide)
  rw [pow_one] at byte
  unfold getMioString
  rw [if_pos two_ne_zero, if_pos rfl]
  exact congrArg (valueText reg.responseType2) byte

def halfCall (timeStr : List Char) (p : List Char × Half) : DataItem.Call := valueCall p.1 p.2.text timeStr

theorem registerCalls_eq (timeStr : List Char) (registers : List Register) :
    registers.flatMap (registerCalls timeStr) = (halves registers).map (halfCall timeStr) := by
  rw [halves, List.map_flatMap]
  congr 1
  funext reg
  rw [registerCalls, getMioString_one, getMioString_two]
  rfl

theorem latest_history (timeStr name : List Char) (entries : List (List Char × Half)) :
    (latest (DataItem.history (entries.map (halfCall timeStr))) name).map (·.typedValue) =
      (latest entries name).map Half.text := by
  have calls : DataItem.history (entries.map (halfCall timeStr)) =
      entries.map fun p => (p.1, valueCall p.1 p.2.text timeStr) := List.map_map
  rw [calls, latest_map fun id h => valueCall id (Half.text h) timeStr, Option.map_map]
  rfl

/-- Under a name stands what the last call for it has written. -/
theorem shownUnder_itemOf (name : List Char) (calls : List DataItem.Call) :
    shownUnder name (DataItem.itemOf (tabulate (DataItem.history calls))) =
      (latest (DataItem.history calls) name).map (·.typedValue) := by
  have own := DataItem.own_tabulate calls
  have named : ((tabulate (DataItem.history calls)).find? fun e =>
        DataItem.getAttribute .id (DataItem.valueOf e) = some name) =
      (tabulate (DataItem.history calls)).find? fun e => e.1 = name := by
    apply List.find?_congr
    intro e mem
    have id : DataItem.getAttribute .id (DataItem.valueOf e) = some e.2.2.id := rfl
    rw [id, own e mem]
    simp
  change (((tabulate (DataItem.history calls)).map DataItem.valueOf).find? _).bind _ = _
  rw [List.find?_map]
  refine (congrArg (fun o => (Option.map DataItem.valueOf o).bind _) named).trans ?_
  rw [find_tabulate, ← map_ends]
  cases ends (DataItem.history calls) name with
  | none => rfl
  | some e => rfl

theorem deviceItem_eq (timeStr : List Char) (device : Device) :
    ∃ item, deviceItem timeStr device = .ret (some item) ∧
      ∀ name, shownUnder name item = (latest (halves device.registers) name).map Half.text := by
  refine ⟨_, DataItem.addAll_eq _, fun name => ?_⟩
  rw [shownUnder_itemOf, registerCalls_eq, latest_history]

theorem publishAllRegisters_ret (timeStr : List Char) (devices : List Device) :
    ∃ items, publishAllRegisters timeStr devices = .ret items ∧
      List.Forall₂ (fun device p => p.1 = device.eventNodeId ∧ deviceItem timeStr device = .ret p.2)
        devices items := by
  induction devices with
  | nil => exact ⟨[], rfl, .nil⟩
  | cons device devices ih =>
      obtain ⟨items, run, each⟩ := ih
      obtain ⟨item, made, -⟩ := deviceItem_eq timeStr device
      refine ⟨(device.eventNodeId, some item) :: items, ?_, .cons ⟨rfl, made⟩ each⟩
      rw [publishAllRegisters, made, Outcome.ret_bind, run]
      rfl

theorem Half.text_inj {h h' : Half} : h.text = h'.text ↔ h.1.isWhole = h'.1.isWhole ∧ h.2 = h'.2 := by
  have point : ∀ n : ℕ, '.' ∉ Scan.printD n := fun n mem => by
    rw [Scan.printD_natCast] at mem
    exact absurd (Scan.toDigits_isDigit n _ mem) (by decide)
  have inside : ∀ n : ℕ, '.' ∈ tenthsText n := fun n =>
    List.mem_append_right _ List.mem_cons_self
  constructor
  · intro same
    have number := congrArg Scan.sscanf same
    rw [sscanf_text, sscanf_text] at number
    rw [Half.text, Half.text, valueText_eq, valueText_eq] at same
    split at same <;> split at same
    · next left right =>
        rw [if_pos left, if_pos right] at number
        exact ⟨left.trans right.symm, by exact_mod_cast Option.some_inj.mp number⟩
    · exact absurd (same ▸ inside h'.2) (point h.2)
    · exact absurd (same ▸ inside h.2) (point h'.2)
    · next left right =>
        rw [if_neg left, if_neg right, Option.some_inj, div_left_inj' (by norm_num)] at number
        rw [Bool.not_eq_true] at left right
        exact ⟨left.trans right.symm, by exact_mod_cast number⟩
  · rintro ⟨shape, byte⟩
    rw [Half.text, Half.text, valueText_eq, valueText_eq, shape, byte]

/-- The text under the name gives the content. -/
def ReadsBack (item : DataItem.Node) (reg : Register) : Prop :=
  ∃ v, shownUnder reg.name item = some v ∧ getValue reg.responseType v = .ret reg.value

/-- A set value with the text under the name writes the content. -/
def Restores (item : DataItem.Node) (device : Device) (reg : Register) : Prop :=
  ∃ v devices, shownUnder reg.name item = some v ∧
    modbusActuate device.eventNodeId reg.name v [device] =
      .ret (devices, [⟨device.slaveId, reg.mbStartRegister, reg.value⟩])

/-- The bytes stand under the two names. -/
def ShowsBytes (item : DataItem.Node) (reg : Register) : Prop :=
  shownUnder reg.name item = some (valueText reg.responseType (reg.value.toNat % 256)) ∧
    shownUnder reg.name2 item = some (valueText reg.responseType2 (reg.value.toNat / 256))

/-- What the last register of the name has written means the content. -/
def Recovers (device : Device) (reg : Register) : Prop :=
  ∃ h, latest (halves device.registers) reg.name = some h ∧ h.meant reg.responseType = reg.value.toNat

/-- What the last registers of the names have written are the two bytes, with or without a point as
for this register. -/
def Halved (device : Device) (reg : Register) : Prop :=
  (∃ h, latest (halves device.registers) reg.name = some h ∧
    h.1.isWhole = reg.responseType.isWhole ∧ h.2 = reg.value.toNat % 256) ∧
  ∃ h, latest (halves device.registers) reg.name2 = some h ∧
    h.1.isWhole = reg.responseType2.isWhole ∧ h.2 = reg.value.toNat / 256

theorem mem_halves {registers : List Register} {p : List Char × Half} (mem : p ∈ halves registers) :
    p.2.2 < 256 := by
  obtain ⟨reg, -, mem⟩ := List.mem_flatMap.mp mem
  rcases List.mem_pair.mp mem with rfl | rfl
  · exact Nat.mod_lt _ (by decide)
  · exact Nat.mod_lt _ (by decide)

theorem latest_halves {registers : List Register} {name : List Char} {h : Half}
    (last : latest (halves registers) name = some h) : h.2 < 256 := mem_halves (mem_of_latest last)

theorem exists_latest {device : Device} {reg : Register} (mem : reg ∈ device.registers) :
    ∃ h, latest (halves device.registers) reg.name = some h := by
  apply Option.isSome_iff_exists.mp
  apply latest_isSome.mpr
  exact List.mem_map.mpr ⟨_, List.mem_flatMap.mpr ⟨reg, mem, List.mem_cons_self⟩, rfl⟩

theorem meant_lt {h : Half} (byte : h.2 < 256) (dataType : DeviceType) : h.meant dataType < 2 ^ 16 := by
  unfold Half.meant
  cases dataType <;> dsimp only <;> split <;> omega

theorem ofNat_eq_iff {n : ℕ} (small : n < 2 ^ 16) (x : UInt16) : UInt16.ofNat n = x ↔ n = x.toNat := by
  rw [← UInt16.toNat_inj, UInt16.toNat_ofNat_of_lt' (by rw [UInt16.size]; omega)]

theorem getValue_shown {device : Device} {reg : Register} {h : Half}
    (last : latest (halves device.registers) reg.name = some h) :
    getValue reg.responseType h.text = .ret reg.value ↔ h.meant reg.responseType = reg.value.toNat := by
  have byte := latest_halves last
  rw [getValue_text byte, Outcome.ret.injEq, ofNat_eq_iff (meant_lt byte _)]

theorem setRegister_first {name text : List Char} {registers : List Register} {reg : Register}
    {value : UInt16} (first : registers.find? (·.name = name) = some reg)
    (read : getValue reg.responseType text = .ret value) :
    ∃ after, setRegister name text registers = .ret (some ({ reg with value }, after)) := by
  induction registers with
  | nil => cases first
  | cons r registers ih =>
      by_cases this : r.name = name
      · rw [List.find?_cons_of_pos (by simp [this])] at first
        cases first
        refine ⟨{ reg with value } :: registers, ?_⟩
        rw [setRegister, if_pos this, read]
        rfl
      · rw [List.find?_cons_of_neg (by simp [this])] at first
        obtain ⟨after, found⟩ := ih first
        refine ⟨r :: after, ?_⟩
        rw [setRegister, if_neg this, found]
        rfl

/-- The register of the name is written with the value that is read. -/
theorem modbusActuate_first {device : Device} {reg : Register} {text : List Char} {value : UInt16}
    (first : device.registers.find? (·.name = reg.name) = some reg)
    (read : getValue reg.responseType text = .ret value) :
    ∃ devices, modbusActuate device.eventNodeId reg.name text [device] =
      .ret (devices, [⟨device.slaveId, reg.mbStartRegister, value⟩]) := by
  obtain ⟨after, found⟩ := setRegister_first first read
  have all : value &&& 0xFFFF = value := by
    apply UInt16.toNat_inj.mp
    have mask : (0xFFFF : UInt16).toNat = 2 ^ 16 - 1 := rfl
    rw [UInt16.toNat_and, mask, Nat.and_two_pow_sub_one_eq_mod, Nat.mod_eq_of_lt value.toNat_lt]
  refine ⟨[{ device with registers := after }], ?_⟩
  have write : writeRegister device { reg with value } = ⟨device.slaveId, reg.mbStartRegister, value⟩ := by
    rw [writeRegister, all]
  rw [← write, modbusActuate, if_neg (not_not.mpr rfl), found]
  rfl

section Item

variable {device : Device} {item : DataItem.Node}
  (shows : ∀ name, shownUnder name item = (latest (halves device.registers) name).map Half.text)
  {reg : Register}
include shows

theorem readsBack_iff (mem : reg ∈ device.registers) : ReadsBack item reg ↔ Recovers device reg := by
  obtain ⟨h, last⟩ := exists_latest mem
  unfold ReadsBack Recovers
  simp only [shows, last, Option.map_some, Option.some.injEq, exists_eq_left']
  exact getValue_shown last

theorem restores_iff (mem : reg ∈ device.registers)
    (first : device.registers.find? (·.name = reg.name) = some reg) :
    Restores item device reg ↔ Recovers device reg := by
  obtain ⟨h, last⟩ := exists_latest mem
  have byte := latest_halves last
  obtain ⟨devices, run⟩ := modbusActuate_first first (getValue_text byte reg.responseType)
  unfold Restores Recovers
  simp only [shows, last, Option.map_some, Option.some.injEq, exists_and_left, exists_eq_left', run,
    Outcome.ret.injEq, Prod.mk.injEq, List.cons.injEq, and_true, Write.mk.injEq,
    true_and, ofNat_eq_iff (meant_lt byte _)]

theorem showsBytes_iff : ShowsBytes item reg ↔ Halved device reg := by
  have under : ∀ name ty n, shownUnder name item = some (valueText ty n) ↔
      ∃ h, latest (halves device.registers) name = some h ∧ h.1.isWhole = ty.isWhole ∧ h.2 = n := by
    intro name ty n
    rw [shows, Option.map_eq_some_iff]
    apply exists_congr
    intro h
    exact and_congr_right' (@Half.text_inj h (ty, n))
  unfold ShowsBytes Halved
  rw [under, under]

end Item

theorem meant_own (dataType : DeviceType) (value : UInt16) :
    Half.meant (dataType, value.toNat % 256) dataType = value.toNat ↔
      value.toNat < 256 ∧ (dataType ∉ [.int, .enum, .fe2] → value = 0) := by
  have zero : value = 0 ↔ value.toNat = 0 := by
    rw [← UInt16.toNat_inj]
    rfl
  have le := Nat.mod_le value.toNat 256
  cases dataType <;> simp [Half.meant, DeviceType.isWhole, zero] <;> omega

theorem recovers_of_own {device : Device} {reg : Register}
    (own : latest (halves device.registers) reg.name =
      some (reg.responseType, reg.value.toNat % 256)) :
    Recovers device reg ↔
      reg.value.toNat < 256 ∧ (reg.responseType ∉ [.int, .enum, .fe2] → reg.value = 0) := by
  unfold Recovers
  simp only [own, Option.some.injEq, exists_eq_left']
  exact meant_own reg.responseType reg.value

/-- Under which contents the texts that are published are the registers' contents. -/
theorem register_texts (timeStr : List Char) (devices : List Device) :
    ∃ items, publishAllRegisters timeStr devices = .ret items ∧
      List.Forall₂ (fun device p => p.1 = device.eventNodeId ∧ ∃ item, p.2 = some item ∧
          ∀ reg ∈ device.registers,
            (reg.name2 = [] → (ReadsBack item reg ↔ Recovers device reg) ∧
              (device.registers.find? (·.name = reg.name) = some reg →
                (Restores item device reg ↔ Recovers device reg))) ∧
            (reg.name2 ≠ [] → (ShowsBytes item reg ↔ Halved device reg)))
        devices items := by
  obtain ⟨items, run, each⟩ := publishAllRegisters_ret timeStr devices
  refine ⟨items, run, each.imp fun device p made => ⟨made.1, ?_⟩⟩
  obtain ⟨item, called, shows⟩ := deviceItem_eq timeStr device
  rw [called, Outcome.ret.injEq] at made
  refine ⟨item, made.2.symm, fun reg mem => ⟨fun _ => ⟨readsBack_iff shows mem, ?_⟩, fun _ => ?_⟩⟩
  · exact restores_iff shows mem
  · exact showsBytes_iff shows

def plainRegister (responseType : DeviceType) (value : UInt16) : Register :=
  { name := "t".toList, mbStartRegister := 7, responseType, value }

def oneRegister (responseType : DeviceType) (value : UInt16) : Device :=
  ⟨"outlet".toList, 1, [plainRegister responseType value]⟩

theorem register_texts_tenths :
    ∃ items, publishAllRegisters "now".toList [oneRegister .fe2 215] = .ret items ∧
      ∃ p ∈ items, ∃ item, p.2 = some item ∧ ∀ reg ∈ (oneRegister .fe2 215).registers,
        ReadsBack item reg ∧ Restores item (oneRegister .fe2 215) reg := by
  obtain ⟨items, run, each⟩ := register_texts "now".toList [oneRegister .fe2 215]
  cases each with
  | @cons _ p _ items made rest =>
      obtain ⟨item, shown, all⟩ := made.2
      refine ⟨_, run, p, List.mem_cons_self, item, shown, fun reg mem => ?_⟩
      have back := (all reg mem).1
      cases List.mem_singleton.mp mem
      have low : Recovers (oneRegister .fe2 215) (plainRegister .fe2 215) := ⟨(.fe2, 215), rfl, rfl⟩
      exact ⟨(back rfl).1.mpr low, ((back rfl).2 rfl).mpr low⟩

/-- 300 is published as 44. -/
theorem word_not_published :
    ¬ ∀ (timeStr : List Char) (devices : List Device),
      ∃ items, publishAllRegisters timeStr devices = .ret items ∧
        List.Forall₂ (fun device p => ∃ item, p.2 = some item ∧ ∀ reg ∈ device.registers,
          reg.name2 = [] → reg.responseType ∈ [.int, .enum, .fe2, .sfe2] → ReadsBack item reg)
          devices items := by
  intro all
  obtain ⟨items, run, each⟩ := all "now".toList [oneRegister .int 300]
  obtain ⟨item, called, shows⟩ := deviceItem_eq "now".toList (oneRegister .int 300)
  rw [publishAllRegisters, called] at run
  cases run
  cases each with
  | cons made rest =>
      obtain ⟨item, shown, back⟩ := made
      cases shown
      have read := (readsBack_iff shows List.mem_cons_self).mp (back _ List.mem_cons_self rfl (by decide))
      exact absurd ((recovers_of_own rfl).mp read).1 (by decide)

end Mio.Adapters.Modbus
