import Mathlib.Algebra.Order.Ring.Int
import Mio.Lib.Dictionary
import Mio.Lib.Outcome

/-! `BACParser` of `mio2bac/bacsox.py`: the devices and transducers of three files become BACnet objects. -/
namespace Mio.Tools.Bacsox

abbrev Name := List Char

inductive Fault where
  | attributeError
  | nameError
  | keyError
  | indexError
  | runtimeError (text : Name)

/-- The order in which a dictionary is walked depends on its keys. -/
abbrev Walk := { walk : List Name → List Name // ∀ keys, (walk keys).Perm keys }

/-- The attributes of a `device` element. -/
structure DeviceElement where
  eventNodeId : Option Name
  bacnetId : Option ℤ
  deviceType : Option Name
  bacnetName : Option Name
  vendorId : Option ℤ

structure TransducerElement where
  name : Option Name
  id : Option ℤ

structure ObjectElement where
  tranName : Option Name
  bacType : Option Name
  bacName : Option Name

structure RegMap where
  node : Option Name
  transducers : List TransducerElement

structure DeviceType where
  device : Option Name
  objects : List ObjectElement

structure Config where
  segmentationType : Option Name
  maxApduLen : Option ℤ
  devices : List DeviceElement
  regMaps : List RegMap
  types : List DeviceType

/-- The elements that start in the files. -/
inductive BacElement where
  | bacnet (segmentationType : Option Name) (maxApduLen : Option ℤ)
  | device (e : DeviceElement)

inductive RegElement where
  | network
  | regMap (node : Option Name)
  | transducer (e : TransducerElement)

inductive DevElement where
  | devices
  | device (device : Option Name)
  | object (e : ObjectElement)

def RegMap.elements (m : RegMap) : List RegElement := .regMap m.node :: m.transducers.map .transducer

def DeviceType.elements (t : DeviceType) : List DevElement := .device t.device :: t.objects.map .object

def Config.bacFile (config : Config) : List BacElement :=
  .bacnet config.segmentationType config.maxApduLen :: config.devices.map .device

def Config.regFile (config : Config) : List RegElement := .network :: config.regMaps.flatMap RegMap.elements

def Config.devFile (config : Config) : List DevElement := .devices :: config.types.flatMap DeviceType.elements

structure Device where
  eventNodeId : Name
  deviceType : Name
  bacnetName : Name
  bacnetId : ℤ
  vendorId : ℤ

/-- What the files say of a transducer. -/
structure Settings where
  tranName : Name
  bacType : Name := []
  bacName : Name := []
  regId : ℤ := 0

structure Transducer extends Settings where
  objectId : ℤ := 0
  value : ℤ := 0
  /-- Set by `transducerToObject` only. -/
  objId : Option ℤ := none

structure Parser where
  segType : Name := []
  maxApduLen : ℤ := 0
  devices : Dictionary Name Device := .empty
  /-- `Device.transducers`, an attribute of the class: all devices have the same dictionary. -/
  transducers : Dictionary Name Transducer := .empty
  device : Option Device := none
  /-- `dev_type`, which is not there before the first `DEVICE`. -/
  devType : Option (Option Name) := none

/-- The device of an element with the attributes that one needs. -/
def DeviceElement.declared (e : DeviceElement) : Option (Name × Device) :=
  match e.eventNodeId, e.bacnetId, e.deviceType with
  | some nodeId, some bacnetId, some deviceType =>
      some (nodeId, ⟨nodeId, deviceType, e.bacnetName.getD deviceType, bacnetId, e.vendorId.getD 0⟩)
  | _, _, _ => none

/-- The transducer's name and `regid`. -/
def TransducerElement.reading (e : TransducerElement) : Option (Name × ℤ) :=
  e.name.map (·, e.id.getD 0)

/-- The transducer's name with `bac_type` and `bac_name`. -/
def ObjectElement.description (e : ObjectElement) : Option (Name × Name × Name) :=
  match e.tranName, e.bacType with
  | some tranName, some bacType => some (tranName, bacType, e.bacName.getD tranName)
  | _, _ => none

namespace Parser

def bacStartElementHandler (p : Parser) : BacElement → Parser
  | .bacnet segmentationType maxApduLen =>
      { p with segType := segmentationType.getD "segmented-both".toList, maxApduLen := maxApduLen.getD 1024 }
  | .device e =>
      match e.declared with
      | none => p
      | some (nodeId, node) => { p with devices := p.devices.set nodeId node }

/-- `reg_id` of an old or a new transducer. -/
def register (p : Parser) (reading : Name × ℤ) : Parser :=
  let tran : Transducer := (p.transducers.get reading.1).getD { tranName := reading.1 }
  let registered : Transducer := { tran with regId := reading.2 }
  { p with transducers := p.transducers.set reading.1 registered }

/-- `bac_type` and `bac_name` of an old or a new transducer. -/
def describe (p : Parser) (description : Name × Name × Name) : Parser :=
  let tran : Transducer := (p.transducers.get description.1).getD { tranName := description.1 }
  let described : Transducer := { tran with bacType := description.2.1, bacName := description.2.2 }
  { p with transducers := p.transducers.set description.1 described }

def regStartElementHandler (p : Parser) : RegElement → Parser
  | .network => p
  | .regMap node => { p with device := node.bind p.devices.get }
  | .transducer e =>
      match p.device, e.reading with
      | some _, some reading => p.register reading
      | _, _ => p

/-- The loop over the devices ends at the first one of the type, and what it writes does not depend on which
one that is: `self.device` is the device of the last `regMap`. -/
def devStartElementHandler (p : Parser) : DevElement → Outcome Fault Parser
  | .devices => .ret p
  | .device device => .ret { p with devType := some device }
  | .object e =>
      match p.devType with
      | none => .throw .attributeError
      | some none => .ret p
      | some (some devType) =>
          match e.description with
          | none => .ret p
          | some description =>
              if p.devices.any (·.deviceType = devType) then
                match p.device with
                | none => .throw .attributeError
                | some _ => .ret (p.describe description)
              else .ret p

end Parser

/-- The three calls of `performParse`. -/
def Config.parse (config : Config) : Outcome Fault Parser :=
  let p := config.bacFile.foldl Parser.bacStartElementHandler {}
  let p := config.regFile.foldl Parser.regStartElementHandler p
  config.devFile.foldlM Parser.devStartElementHandler p

inductive ObjectType where
  | device
  | analogValue

structure AnalogValue where
  objectIdentifier : ObjectType × ℤ
  presentValue : ℤ
  objectName : Name

structure LocalDevice where
  objectIdentifier : ObjectType × ℤ
  objectName : Name
  maxApduLengthAccepted : ℤ
  segmentationSupported : Name
  vendorIdentifier : ℤ
  objectList : List (ObjectType × ℤ)

/-- An object or the local device with an id. -/
inductive Entry where
  | device (id : ℤ)
  | object (obj : AnalogValue)

/-- `localDevices` and `devices` have the same keys. -/
structure Hosted where
  device : LocalDevice
  objectNames : Dictionary Name Entry

/-- `MultiDeviceApplication`. -/
structure Repeater where
  devices : Dictionary ℤ Hosted
  objectIdentifiers : Dictionary ℤ Entry

namespace Repeater

/-- The application needs a first device. -/
def new (localDevices : Dictionary ℤ LocalDevice) : Outcome Fault Repeater :=
  if localDevices.keys = [] then .throw .indexError
  else .ret {
    devices := localDevices.map fun id device => ⟨device, Dictionary.empty.set device.objectName (.device id)⟩
    objectIdentifiers := localDevices.map fun id _ => .device id }

/-- The identifier of an object is a pair, which is never among the keys of `objectIdentifiers`: these are
numbers. -/
def addObject (r : Repeater) (devId : ℤ) (obj : AnalogValue) : Outcome Fault Repeater :=
  match r.devices.get devId with
  | none => .throw .keyError
  | some dev =>
      if obj.objectName = [] then .throw (.runtimeError "object name required".toList)
      else if (dev.objectNames.get obj.objectName).isSome then
        .throw (.runtimeError ("already an object with name ".toList ++ '\'' :: obj.objectName ++ ['\'']))
      else .ret {
        devices := r.devices.set devId {
          device := { dev.device with objectList := dev.device.objectList ++ [obj.objectIdentifier] }
          objectNames := dev.objectNames.set obj.objectName (.object obj) }
        objectIdentifiers := r.objectIdentifiers.set obj.objectIdentifier.2 (.object obj) }

end Repeater

abbrev analogInput : Name := "Analog Input".toList

abbrev multiStateInput : Name := "Multi-State Input".toList

/-- `MultiStateValueObject` is not imported. -/
def transducerToObject (ind : ℤ) (tran : Transducer) : Outcome Fault (Transducer × Option AnalogValue) :=
  if tran.bacType = analogInput then
    .ret ({ tran with objId := some ind }, some ⟨(.analogValue, ind), tran.value, tran.bacName⟩)
  else if tran.bacType = multiStateInput then .throw .nameError
  else .ret (tran, none)

/-- `while i in localKeys: i += 1`, which takes no more turns than there are keys. -/
def skipKeys (localKeys : List ℤ) : ℕ → ℤ → ℤ
  | 0, i => i
  | n + 1, i => if i ∈ localKeys then skipKeys localKeys n (i + 1) else i

structure Numbering where
  i : ℤ
  transducers : Dictionary Name Transducer
  repeater : Repeater
  /-- The objects that were added, each with the name of its transducer. -/
  added : List (Name × AnalogValue)

def offer (r : Repeater) (devId : ℤ) : Option AnalogValue → Outcome Fault Repeater
  | none => .ret r
  | some obj => r.addObject devId obj

def numberTransducer (localKeys : List ℤ) (devId : ℤ) (s : Numbering) (transducer : Name) :
    Outcome Fault Numbering :=
  match s.transducers.get transducer with
  | none => .throw .keyError
  | some tran => do
      let (tran, obj) ← transducerToObject s.i tran
      let objectId := skipKeys localKeys localKeys.length s.i
      let repeater ← offer s.repeater devId obj
      return {
        i := objectId + 1
        transducers := s.transducers.set transducer { tran with objectId }
        repeater
        added := s.added ++ obj.toList.map (transducer, ·) }

def numberDevice (walk : Walk) (localKeys : List ℤ) (devices : Dictionary Name Device) (s : Numbering)
    (devName : Name) : Outcome Fault Numbering :=
  match devices.get devName with
  | none => .throw .keyError
  | some device => (walk.1 s.transducers.keys).foldlM (numberTransducer localKeys device.bacnetId) s

namespace Parser

def addLocalDevice (p : Parser) (localDevices : Dictionary ℤ LocalDevice) (devName : Name) :
    Dictionary ℤ LocalDevice :=
  match p.devices.get devName with
  | none => localDevices
  | some dev => localDevices.set dev.bacnetId {
      objectIdentifier := (.device, dev.bacnetId)
      objectName := devName
      maxApduLengthAccepted := p.maxApduLen
      segmentationSupported := p.segType
      vendorIdentifier := dev.vendorId
      objectList := [(.device, dev.bacnetId)] }

/-- What `__init__` does once the files have been read. -/
def number (p : Parser) (walk : Walk) : Outcome Fault Numbering := do
  let nodes := walk.1 p.devices.keys
  let localDevices := nodes.foldl p.addLocalDevice .empty
  let repeater ← Repeater.new localDevices
  nodes.foldlM (numberDevice walk localDevices.keys p.devices) ⟨0, p.transducers, repeater, []⟩

end Parser

/-- `BACParser.__init__`, where the address can be bound. -/
def init (walk : Walk) (config : Config) : Outcome Fault Numbering := do
  let p ← config.parse
  p.number walk

/-- The loop ends because the keys run out. -/
theorem skipKeys_notMem (localKeys : List ℤ) (i : ℤ) : skipKeys localKeys localKeys.length i ∉ localKeys := by
  have enough : ∀ n i, (localKeys.filter (i ≤ ·)).length ≤ n → skipKeys localKeys n i ∉ localKeys := by
    intro n
    induction n with
    | zero =>
        intro i none mem
        have above : i ∈ localKeys.filter (i ≤ ·) := List.mem_filter.mpr ⟨mem, decide_eq_true le_rfl⟩
        rw [List.length_eq_zero_iff.mp (Nat.le_zero.mp none)] at above
        cases above
    | succ n ih =>
        intro i few
        rw [skipKeys]
        split
        · next mem =>
            refine ih (i + 1) (Nat.le_of_lt_succ (lt_of_lt_of_le ?_ few))
            have fewer : localKeys.filter (i + 1 ≤ ·) = (localKeys.filter (i ≤ ·)).filter (i + 1 ≤ ·) := by
              rw [List.filter_filter]
              refine List.filter_congr fun j _ => ?_
              simp only [Bool.and_eq_decide, decide_eq_true_eq]
              exact decide_eq_decide.mpr ⟨fun le => ⟨le, by omega⟩, fun both => both.1⟩
            rw [fewer, List.length_filter_lt_length_iff_exists]
            exact ⟨i, List.mem_filter.mpr ⟨mem, decide_eq_true le_rfl⟩, by simp⟩
        · next free => exact free
  exact enough _ i (List.length_filter_le ..)

end Mio.Tools.Bacsox
