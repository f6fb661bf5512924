import Mathlib.Data.List.Forall2
import Mio.Lib.Scan
import Mio.Lib.Xml

/-! The device table of `bacnet_adapter.c`: it is built by `parse_bacnet_context_node` from the meta data of
nodes, or by the callbacks for `device.xml` and `bacnet.xml`. -/
namespace Mio.Adapters.Bacnet

/-- What ends the process, or goes wrong unnoticed. -/
inductive Fault where
  | null
  | outOfBounds
  | uninitialised
  /-- An element that stands in a table is added to it again. -/
  | addedAgain

/-- An array from `malloc`: an entry that was never set has no value. -/
abbrev Entries (α : Type) := List (Option α)

namespace Entries

variable {α : Type}

def malloc (n : ℕ) : Entries α := List.replicate n none

def load (array : Option (Entries α)) (i : ℕ) : Outcome Fault α :=
  match (array.getD [])[i]? with
  | none => .throw .outOfBounds
  | some none => .throw .uninitialised
  | some (some a) => .ret a

/-- `array[i] = a`. -/
def store (array : Option (Entries α)) (i : ℕ) (a : α) : Outcome Fault (Option (Entries α)) :=
  match array with
  | none => .throw .null
  | some array => if i < array.length then .ret (some (array.set i (some a))) else .throw .outOfBounds

/-- A new array of `n` entries, to which all but the last are copied. -/
def grow (old : Option (Entries α)) (n : ℕ) (a : α) : Outcome Fault (Option (Entries α)) := do
  let array ←
    if n ≠ 1 then
      if n - 1 ≤ (old.getD []).length then
        .ret ((old.getD []).take (n - 1) ++ (malloc n).drop (n - 1))
      else .throw .outOfBounds
    else .ret (malloc n)
  store (some array) (n - 1) a

end Entries

abbrev objectAnalogValue : BitVec 32 := 2
abbrev objectBinaryValue : BitVec 32 := 5

/-- `bacnet_device_t`; a pointer that was never set is none. -/
structure Stored where
  nodeId : Option (List Char) := none
  instanceNumber : BitVec 32 := 0
  type : Option (List Char) := none
  nObjects : ℕ := 0
  objIds : Option (Entries (BitVec 32)) := none
  objTypes : Option (Entries (BitVec 32)) := none
  objNames : Option (Entries (Option (List Char))) := none

/-- The tables of `bacnet_context_t`, in the order in which the elements were added. -/
structure Context where
  nodeDevices : List Stored := []
  instanceDevices : List Stored := []

/-- The bytes from `instance` to the end of a `bacnet_device_t`, which are the key of a node. -/
abbrev keyRoom : ℕ := 160

/-- Both calls of `HASH_ADD`. -/
def addDevice (context : Context) (device : Stored) : Outcome Fault Context :=
  match device.nodeId with
  | none => .throw .null
  | some nodeId =>
      if Scan.strlen nodeId ≤ keyRoom then
        .ret ⟨context.nodeDevices ++ [device], context.instanceDevices ++ [device]⟩
      else .throw .outOfBounds

def atoi (text : List Char) : BitVec 32 := BitVec.ofInt 32 (Scan.atoi text)

/-- `mio_property_meta_t`, its name and its value. -/
abbrev Property := List Char × List Char

structure Meta where
  properties : List Property
  /-- The properties of each transducer. -/
  transducers : List (List Property)

/-- A reference of the configuration node, with what `mio_meta_query` gives for it. -/
structure Reference where
  isChild : Bool
  node : List Char
  metaQuery : Option Meta

def readDeviceProperty (device : Stored) (property : Property) : Stored :=
  if property.1 = "BACnet Type".toList then { device with type := some property.2 }
  else if property.1 = "BACnet Instance".toList then { device with instanceNumber := atoi property.2 }
  else device

/-- The turn of the loop over the properties of a transducer; `count` counts them. -/
def readObjectProperty (device : Stored) (count : ℕ) (property : Property) : Outcome Fault Stored :=
  if property.1 = "BACnet Type".toList then
    if property.2 = "AV".toList then do
      let objTypes ← Entries.store device.objTypes count objectAnalogValue
      return { device with objTypes }
    else if property.2 = "BV".toList then do
      let objTypes ← Entries.store device.objTypes count objectBinaryValue
      return { device with objTypes }
    else return device
  else if property.1 = "BACnet Name".toList then do
    let objNames ← Entries.store device.objNames count (some property.2)
    return { device with objNames }
  else if property.1 = "BACnet ID".toList then do
    let objIds ← Entries.store device.objIds count (atoi property.2)
    return { device with objIds }
  else return device

def readObjectProperties (device : Stored) (count : ℕ) : List Property → Outcome Fault Stored
  | [] => .ret device
  | property :: properties => do
      let device ← readObjectProperty device count property
      readObjectProperties device (count + 1) properties

/-- The loop over the transducers, which adds the device each time. -/
def readTransducers (context : Context) (device : Stored) (added : Bool) :
    List (List Property) → Outcome Fault Context
  | [] => .ret context
  | properties :: transducers => do
      let device ← readObjectProperties device 0 properties
      if added then .throw .addedAgain
      else do
        let context ← addDevice context device
        readTransducers context device true transducers

/-- A child of the configuration node. -/
def readChild (parserNodeId : Option (List Char)) (context : Context) (m : Meta) : Outcome Fault Context :=
  let device : Stored := m.properties.foldl readDeviceProperty { nodeId := parserNodeId }
  let count := m.transducers.length
  readTransducers context { device with
    objIds := some (Entries.malloc count)
    objTypes := some (Entries.malloc count)
    objNames := some (Entries.malloc count) } false m.transducers

/-- `parse_bacnet_context_node`, where the query for the references has succeeded. -/
def parseBacnetContextNode (parserNodeId : Option (List Char)) (context : Context) :
    List Reference → Outcome Fault Context
  | [] => .ret context
  | reference :: references =>
      if reference.isChild then
        match reference.metaQuery with
        | none => parseBacnetContextNode parserNodeId context references
        | some m => do
            let context ← readChild parserNodeId context m
            parseBacnetContextNode parserNodeId context references
      else parseBacnetContextNode parserNodeId context references

/-- The static variables of the parser. -/
structure Parser where
  context : Context := {}
  device : Option Stored := none
  depth : ℤ := 0
  deviceInstance : BitVec 32 := 0
  deviceType : Option (List Char) := none
  objectInstance : BitVec 32 := 0
  objectType : BitVec 32 := 0
  objectName : Option (List Char) := none
  nodeId : Option (List Char) := none

/-- An attribute that `device_start` knows at this depth, with what becomes of the value behind it. -/
def deviceAttribute (depth : ℤ) (key : List Char) : Option (Parser → List Char → Parser) :=
  if depth = 2 then
    if key = "type".toList then some fun p value => { p with deviceType := some value } else none
  else if depth = 3 then
    if key = "bacnet_type".toList then
      some fun p value =>
        if value = "AV".toList then { p with objectType := objectAnalogValue }
        else if value = "BV".toList then { p with objectType := objectBinaryValue }
        else p
    else if key = "bacnet_name".toList then some fun p value => { p with objectName := some value }
    else if key = "bacnet_id".toList then some fun p value => { p with objectInstance := atoi value }
    else none
  else none

/-- The loop over the array of names and values: behind a name that is not known the value is looked at as a
name. -/
def scanAttributes (known : List Char → Option (Parser → List Char → Parser)) (p : Parser) :
    List (List Char) → Outcome Fault Parser
  | [] => .ret p
  | [key] =>
      match known key with
      | none => .ret p
      | some _ => .throw .null
  | key :: value :: rest =>
      match known key with
      | none => scanAttributes known p (value :: rest)
      | some set => scanAttributes known (set p value) rest

def flat (attributes : List (List Char × List Char)) : List (List Char) :=
  attributes.flatMap fun a => [a.1, a.2]

def deviceStart (p : Parser) (attributes : List (List Char × List Char)) : Outcome Fault Parser :=
  let p := { p with depth := p.depth + 1 }
  scanAttributes (deviceAttribute p.depth) p (flat attributes)

/-- The object that has been read is added to the device. -/
def addObject (p : Parser) (device : Stored) : Outcome Fault Stored := do
  let n := device.nObjects + 1
  let objIds ← Entries.grow device.objIds n p.objectInstance
  let objTypes ← Entries.grow device.objTypes n p.objectType
  let objNames ← Entries.grow device.objNames n p.objectName
  return { device with nObjects := n, objIds, objTypes, objNames }

def deviceEnd (p : Parser) : Outcome Fault Parser :=
  let device := p.device.getD {}
  if p.depth = 2 then
    .ret { p with device := some { device with type := p.deviceType }, depth := p.depth - 1 }
  else if p.depth = 3 then do
    let device ← addObject p device
    return { p with device := some device, depth := p.depth - 1 }
  else .ret { p with device := some device, depth := p.depth - 1 }

/-- An attribute of `bacnet_start`, which skips the values of all others. -/
def setBacnetAttribute (p : Parser) (attr : List Char × List Char) : Parser :=
  if attr.1 = "type".toList then { p with deviceType := some attr.2 }
  else if attr.1 = "instance".toList then { p with deviceInstance := atoi attr.2 }
  else if attr.1 = "node_id".toList then { p with nodeId := some attr.2 }
  else p

def bacnetStart (p : Parser) (attributes : List (List Char × List Char)) : Parser :=
  let p := { p with depth := p.depth + 1 }
  if p.depth = 2 then attributes.foldl setBacnetAttribute p else p

/-- The first entries of an array, one by one. -/
def copyEntries {α β : Type} (array : Option (Entries α)) (n : ℕ) (copy : α → Outcome Fault β) :
    Outcome Fault (Option (Entries β)) := do
  let copied ← (List.range n).mapM fun i => Entries.load array i >>= copy
  return some (copied.map some)

def stringCopy (text : Option (List Char)) : Outcome Fault (Option (List Char)) :=
  match text with
  | none => .throw .null
  | some text => .ret (some text)

def bacnetEnd (p : Parser) : Outcome Fault Parser :=
  if p.depth = 2 then
    match p.device with
    | none => .throw .null
    | some device => do
        let objIds ← copyEntries device.objIds device.nObjects .ret
        let objTypes ← copyEntries device.objTypes device.nObjects .ret
        let objNames ← copyEntries device.objNames device.nObjects stringCopy
        let context ← addDevice p.context
          ⟨p.nodeId, p.deviceInstance, p.deviceType, device.nObjects, objIds, objTypes, objNames⟩
        return { p with context, nodeId := none, deviceType := none, deviceInstance := 0, depth := p.depth - 1 }
  else .ret { p with depth := p.depth - 1 }

abbrev Callback := Xml.Callback (List Char) (List Char)

/-- `parse_xml`, where the callbacks stand for those that it gives to the library. -/
def parseXml (start : Parser → List (List Char × List Char) → Outcome Fault Parser)
    (end_ : Parser → Outcome Fault Parser) (p : Parser) : List Callback → Outcome Fault Parser
  | [] => .ret p
  | .startElement _ attributes :: calls => do
      let p ← start p attributes
      parseXml start end_ p calls
  | .characterData _ :: calls => parseXml start end_ p calls
  | .endElement _ :: calls => do
      let p ← end_ p
      parseXml start end_ p calls

def parseDevices : Parser → List Callback → Outcome Fault Parser := parseXml deviceStart deviceEnd

def parseBacnet : Parser → List Callback → Outcome Fault Parser :=
  parseXml (fun p attributes => .ret (bacnetStart p attributes)) bacnetEnd

/-- `bacnet_parser`, where the directory can be opened. -/
def bacnetParser (deviceFile bacnetFile : List Callback) : Outcome Fault Context := do
  let p ← parseDevices {} deviceFile
  let p ← parseBacnet p bacnetFile
  return p.context

inductive Kind where
  | av
  | bv

def Kind.text : Kind → List Char
  | .av => "AV".toList
  | .bv => "BV".toList

def Kind.number : Kind → BitVec 32
  | .av => objectAnalogValue
  | .bv => objectBinaryValue

structure Object where
  kind : Kind
  id : BitVec 32
  name : List Char

structure Device where
  nodeId : List Char
  type : List Char
  instanceNumber : BitVec 32
  objects : List Object

def number (x : BitVec 32) : List Char := Scan.printD x.toInt

/-- The arrays hold the objects in order. -/
structure Stored.Lists (s : Stored) (objects : List Object) : Prop where
  nObjects : s.nObjects = objects.length
  objIds : s.objIds.getD [] = (objects.map (·.id)).map some
  objTypes : s.objTypes.getD [] = (objects.map (·.kind.number)).map some
  objNames : s.objNames.getD [] = (objects.map (some ·.name)).map some

/-- The element of the table is the one for the device. -/
structure Stored.Is (s : Stored) (d : Device) : Prop extends s.Lists d.objects where
  nodeId : s.nodeId = some d.nodeId
  type : s.type = some d.type
  instanceNumber : s.instanceNumber = d.instanceNumber

def Context.Shows (context : Context) (devices : List Device) : Prop :=
  List.Forall₂ Stored.Is context.nodeDevices devices ∧ List.Forall₂ Stored.Is context.instanceDevices devices

def Object.CarriedBy (o : Object) (properties : List Property) : Prop :=
  (properties.map Prod.fst).Nodup ∧ properties.lookup "BACnet Type".toList = some o.kind.text ∧
    properties.lookup "BACnet Name".toList = some o.name ∧
      properties.lookup "BACnet ID".toList = some (number o.id)

def Device.CarriedBy (d : Device) (m : Meta) : Prop :=
  (m.properties.map Prod.fst).Nodup ∧ m.properties.lookup "BACnet Type".toList = some d.type ∧
    m.properties.lookup "BACnet Instance".toList = some (number d.instanceNumber) ∧
      List.Forall₂ Object.CarriedBy d.objects m.transducers

/-- A configuration node with the devices as its children, among other references. -/
structure Published (devices : List Device) where
  references : List Reference
  carried : List.Forall₂ (fun (d : Device) r => r.node = d.nodeId ∧ ∃ m, r.metaQuery = some m ∧ d.CarriedBy m)
    devices (references.filter (·.isChild))

abbrev Stanza := Xml.Stanza (List Char) (List Char)

def Object.tag (o : Object) : Stanza :=
  .tag "object".toList ⟨[("bacnet_type".toList, o.kind.text), ("bacnet_name".toList, o.name),
    ("bacnet_id".toList, number o.id)],
    (by decide : ["bacnet_type".toList, "bacnet_name".toList, "bacnet_id".toList].Nodup)⟩ []

/-- `device.xml` for one type of device. -/
def deviceFile (type : List Char) (objects : List Object) : Stanza :=
  .tag "devices".toList .empty [.tag "device".toList ⟨[("type".toList, type)], List.nodup_singleton _⟩
    (objects.map Object.tag)]

def Device.tag (d : Device) : Stanza :=
  .tag "device".toList ⟨[("type".toList, d.type), ("instance".toList, number d.instanceNumber),
    ("node_id".toList, d.nodeId)],
    (by decide : ["type".toList, "instance".toList, "node_id".toList].Nodup)⟩ []

/-- `bacnet.xml`. -/
def bacnetFile (devices : List Device) : Stanza := .tag "bacnet".toList .empty (devices.map Device.tag)

/-- The devices are of one type. -/
def OneType (type : List Char) (objects : List Object) (devices : List Device) : Prop :=
  ∀ d ∈ devices, d.type = type ∧ d.objects = objects

/-- The nodes give the table of the configuration, and so do the files where there is one type of device. -/
def SameTable (devices : List Device) (published : Published devices) : Prop :=
  (∃ context, parseBacnetContextNode none {} published.references = .ret context ∧ context.Shows devices) ∧
    ∀ type objects, OneType type objects devices → ∀ deviceCalls bacnetCalls,
      Xml.Reports [deviceFile type objects] deviceCalls → Xml.Reports [bacnetFile devices] bacnetCalls →
        ∃ context, bacnetParser deviceCalls bacnetCalls = .ret context ∧ context.Shows devices

variable {device device' : Stored} {context context' : Context} {references : List Reference} {m : Meta}

/-- Of the device only the arrays are written. -/
theorem readObjectProperty_nodeId (device : Stored) (count : ℕ) (property : Property) :
    Outcome.Gives (·.nodeId = device.nodeId) (readObjectProperty device count property) := by
  unfold readObjectProperty
  split
  · split
    · exact .any_bind fun _ => .ret rfl
    · split
      · exact .any_bind fun _ => .ret rfl
      · exact .ret rfl
  · split
    · exact .any_bind fun _ => .ret rfl
    · split
      · exact .any_bind fun _ => .ret rfl
      · exact .ret rfl

theorem readObjectProperties_nodeId (properties : List Property) (device : Stored) (count : ℕ) :
    Outcome.Gives (·.nodeId = device.nodeId) (readObjectProperties device count properties) := by
  induction properties generalizing device count with
  | nil => exact .ret rfl
  | cons property properties ih =>
      refine (readObjectProperty_nodeId device count property).bind fun next same => ?_
      have rest := ih next (count + 1)
      rwa [same] at rest

theorem readDeviceProperty_nodeId (device : Stored) (property : Property) :
    (readDeviceProperty device property).nodeId = device.nodeId := by
  unfold readDeviceProperty
  split
  · rfl
  · split
    · rfl
    · rfl

/-- A device without a node id cannot be added, so that only one without transducers is passed over. -/
theorem readTransducers_null (null : device.nodeId = none) (transducers : List (List Property)) :
    Outcome.Gives (· = context) (readTransducers context device false transducers) := by
  cases transducers with
  | nil => exact .ret rfl
  | cons properties transducers =>
      refine (readObjectProperties_nodeId properties device 0).bind fun next same => ?_
      have fails : addDevice context next = .throw .null := by
        rw [addDevice, same, null]
      rw [if_neg Bool.false_ne_true, fails]
      rintro - ⟨⟩

theorem readChild_null (context : Context) (m : Meta) : Outcome.Gives (· = context) (readChild none context m) := by
  refine readTransducers_null ?_ m.transducers
  exact Xml.Attributes.foldl_kept Stored.nodeId readDeviceProperty_nodeId m.properties _

theorem parseBacnetContextNode_null (context : Context) (references : List Reference) :
    Outcome.Gives (· = context) (parseBacnetContextNode none context references) := by
  induction references with
  | nil => exact .ret rfl
  | cons reference references ih =>
      rw [parseBacnetContextNode]
      split
      · split
        · exact ih
        · refine (readChild_null context _).bind fun next same => ?_
          rw [same]
          exact ih
      · exact ih

theorem parseBacnetContextNode_childless (none_child : references.filter (·.isChild) = [])
    (parserNodeId : Option (List Char)) (context : Context) :
    parseBacnetContextNode parserNodeId context references = .ret context := by
  induction references with
  | nil => rfl
  | cons reference references ih =>
      obtain ⟨first, rest⟩ := List.forall_mem_cons.mp (List.filter_eq_nil_iff.mp none_child)
      exact (if_neg first).trans (ih (List.filter_eq_nil_iff.mpr rest))

variable {p : Parser} {objects before : List Object} {calls more : List Callback} {devices : List Device}

theorem parseXml_append (start : Parser → List (List Char × List Char) → Outcome Fault Parser)
    (end_ : Parser → Outcome Fault Parser) (p : Parser) (calls more : List Callback) :
    parseXml start end_ p (calls ++ more) = parseXml start end_ p calls >>= (parseXml start end_ · more) := by
  induction calls generalizing p with
  | nil => rfl
  | cons call calls ih =>
      cases call with
      | characterData chunk => exact ih p
      | startElement name attributes =>
          rw [List.cons_append, parseXml, parseXml, bind_assoc]
          exact congrArg _ (funext ih)
      | endElement name =>
          rw [List.cons_append, parseXml, parseXml, bind_assoc]
          exact congrArg _ (funext ih)

theorem scanAttributes_known {known : List Char → Option (Parser → List Char → Parser)}
    {attributes : List (List Char × List Char)} (all : ∀ a ∈ attributes, (known a.1).isSome) (p : Parser) :
    scanAttributes known p (flat attributes) =
      .ret (attributes.foldl (fun p a => (known a.1).elim p (· p a.2)) p) := by
  induction attributes generalizing p with
  | nil => rfl
  | cons a attributes ih =>
      obtain ⟨first, rest⟩ := List.forall_mem_cons.mp all
      obtain ⟨set, here⟩ := Option.isSome_iff_exists.mp first
      have next := ih rest (set p a.2)
      rw [List.foldl_cons, here]
      change scanAttributes known p (a.1 :: a.2 :: flat attributes) = _
      rw [scanAttributes, here]
      exact next

theorem foldl_three {σ α : Type} {f : σ → α → σ} {a b c : α} {l : List α} (order : l.Perm [a, b, c])
    (ab : ∀ s, f (f s a) b = f (f s b) a) (ac : ∀ s, f (f s a) c = f (f s c) a)
    (bc : ∀ s, f (f s b) c = f (f s c) b) (s : σ) : l.foldl f s = f (f (f s a) b) c := by
  refine (order.symm.foldl_eq' ?_ s).symm
  simp only [List.forall_mem_cons, List.not_mem_nil, false_implies, implies_true, and_true, true_and]
  exact ⟨⟨ab, ac⟩, ⟨fun s => (ab s).symm, bc⟩, fun s => (ac s).symm, fun s => (bc s).symm⟩

section

variable {α β : Type} {array : Option (Entries α)} {values : List α} {a : α} {n : ℕ}

theorem grow_done (holds : array.getD [] = values.map some) (count : n = values.length) (a : α) :
    Entries.grow array (n + 1) a = .ret (some ((values ++ [a]).map some)) := by
  have last : Entries.store (some (values.map some ++ [none])) n a = .ret (some ((values ++ [a]).map some)) := by
    rw [Entries.store, if_pos (by rw [List.length_append, List.length_map, count]; exact Nat.lt_succ_self _),
      List.set_append_right _ _ (by rw [List.length_map, count]), List.length_map, count, Nat.sub_self,
      List.map_append]
    rfl
  have new : (Entries.malloc (n + 1) : Entries α).drop n = [none] := by
    rw [Entries.malloc, List.drop_replicate, Nat.add_sub_cancel_left]
    rfl
  by_cases first : n = 0
  · rw [Entries.grow, if_neg (not_not.mpr (congrArg Nat.succ first)), Outcome.ret_bind, Nat.add_sub_cancel, ← last]
    rw [first] at count
    rw [List.length_eq_zero_iff.mp count.symm, first]
    rfl
  · have more : n + 1 ≠ 1 := fun one => first (Nat.succ.inj one)
    have room : n ≤ (values.map some).length := by rw [List.length_map, count]
    rw [Entries.grow, if_pos more, Nat.add_sub_cancel, holds, if_pos room, Outcome.ret_bind, new,
      List.take_of_length_le (by rw [List.length_map, count])]
    exact last

theorem load_done (holds : array.getD [] = values.map some) {i : ℕ} (there : values[i]? = some a) :
    Entries.load array i = .ret a := by
  rw [Entries.load, holds, List.getElem?_map, there]
  rfl

theorem copyEntries_done (holds : array.getD [] = values.map some) (count : n = values.length)
    {copy : α → Outcome Fault β} {g : α → β} (copied : ∀ a ∈ values, copy a = .ret (g a)) :
    copyEntries array n copy = .ret (some ((values.map g).map some)) := by
  have each : ∀ k ≤ values.length, (List.range k).mapM (fun i => Entries.load array i >>= copy) =
      .ret ((values.take k).map g) := by
    intro k
    induction k with
    | zero => exact fun _ => rfl
    | succ k ih =>
        intro inside
        have there := List.getElem?_eq_getElem inside
        have here : Entries.load array k >>= copy = .ret (g values[k]) := by
          rw [load_done holds there, Outcome.ret_bind]
          exact copied _ (List.getElem_mem _)
        rw [List.range_succ, List.mapM_append, ih (Nat.le_of_succ_le inside), Outcome.ret_bind, List.mapM_cons, here,
          List.take_add_one, there, List.map_append]
        rfl
  rw [copyEntries, count, each _ le_rfl, Outcome.ret_bind, List.take_length]
  rfl

end

theorem deviceAttribute_known {a : List Char × List Char} {o : Object}
    (mem : a ∈ [("bacnet_type".toList, o.kind.text), ("bacnet_name".toList, o.name),
      ("bacnet_id".toList, number o.id)]) : (deviceAttribute 3 a.1).isSome := by
  simp only [List.mem_cons, List.not_mem_nil, or_false] at mem
  obtain rfl | rfl | rfl := mem <;> rfl

theorem atoi_number (x : BitVec 32) : atoi (number x) = x := by
  rw [atoi, number, Scan.atoi_printD (BitVec.le_toInt x) BitVec.toInt_lt, BitVec.ofInt_toInt]

def takeAttribute (depth : ℤ) (p : Parser) (a : List Char × List Char) : Parser :=
  (deviceAttribute depth a.1).elim p (· p a.2)

theorem take_type (p : Parser) (kind : Kind) :
    takeAttribute 3 p ("bacnet_type".toList, kind.text) = { p with objectType := kind.number } := by
  cases kind <;> rfl

theorem take_name (p : Parser) (name : List Char) :
    takeAttribute 3 p ("bacnet_name".toList, name) = { p with objectName := some name } := rfl

theorem take_id (p : Parser) (id : BitVec 32) :
    takeAttribute 3 p ("bacnet_id".toList, number id) = { p with objectInstance := id } := by
  have taken : takeAttribute 3 p ("bacnet_id".toList, number id) = { p with objectInstance := atoi (number id) } := rfl
  rw [taken, atoi_number]

theorem deviceStart_object {o : Object} {reported : List (List Char × List Char)} (depth : p.depth = 2)
    (order : reported.Perm [("bacnet_type".toList, o.kind.text), ("bacnet_name".toList, o.name),
      ("bacnet_id".toList, number o.id)]) :
    deviceStart p reported = .ret { p with
      depth := 3, objectType := o.kind.number, objectName := some o.name, objectInstance := o.id } := by
  have three : p.depth + 1 = 3 := by rw [depth]; rfl
  have scanned := scanAttributes_known
    (fun a mem => deviceAttribute_known (order.mem_iff.mp mem)) { p with depth := 3 }
  have folded : reported.foldl (takeAttribute 3) { p with depth := 3 } = { p with
      depth := 3, objectType := o.kind.number, objectName := some o.name, objectInstance := o.id } := by
    rw [foldl_three order, take_type, take_name, take_id]
    · intro s
      rw [take_type, take_name, take_name, take_type]
    · intro s
      rw [take_type, take_id, take_id, take_type]
    · intro s
      rw [take_name, take_id, take_id, take_name]
  rw [deviceStart, three, ← folded]
  exact scanned

theorem addObject_done {o : Object} (lists : device.Lists before) (p : Parser) :
    ∃ device', addObject { p with
        objectType := o.kind.number, objectName := some o.name, objectInstance := o.id } device = .ret device' ∧
      device'.Lists (before ++ [o]) := by
  have count {α : Type} (f : Object → α) : device.nObjects = (before.map f).length := by
    rw [List.length_map, lists.nObjects]
  have snoc {α : Type} (f : Object → α) : before.map f ++ [f o] = (before ++ [o]).map f := by
    rw [List.map_append]
    rfl
  have ids := grow_done lists.objIds (count _) o.id
  have types := grow_done lists.objTypes (count _) o.kind.number
  have names := grow_done lists.objNames (count _) (some o.name)
  refine ⟨_, (Outcome.bind_of_ret ids).trans ((Outcome.bind_of_ret types).trans (Outcome.bind_of_ret names)), ?_⟩
  constructor
  · rw [List.length_append, List.length_singleton, lists.nObjects]
  · exact congrArg (List.map some) (snoc _)
  · exact congrArg (List.map some) (snoc _)
  · exact congrArg (List.map some) (snoc _)

theorem deviceEnd_object (depth : p.depth = 3) (added : addObject p (p.device.getD {}) = .ret device) :
    deviceEnd p = .ret { p with device := some device, depth := 2 } := by
  have two : p.depth - 1 = 2 := by rw [depth]; rfl
  have other : ¬ p.depth = 2 := by rw [depth]; decide
  rw [deviceEnd, if_neg other, if_pos depth, added, Outcome.ret_bind, two]
  rfl

theorem parseDevices_objects (reports : Xml.Reports (objects.map Object.tag) calls) (depth : p.depth = 2)
    (lists : (p.device.getD {}).Lists before) : ∃ p', parseDevices p calls = .ret p' ∧ p'.depth = 2 ∧
      (p'.device.getD {}).Lists (before ++ objects) ∧ p'.context = p.context := by
  induction objects generalizing p before calls with
  | nil =>
      cases reports
      exact ⟨p, rfl, depth, by rwa [List.append_nil], rfl⟩
  | cons o objects ih =>
      obtain ⟨left, right, rfl, first, rest⟩ := Xml.Reports.uncons reports
      obtain ⟨reported, inside, order, nothing, rfl⟩ := Xml.Reports.of_tag first
      cases nothing
      have start := deviceStart_object depth order
      obtain ⟨device, added, lists'⟩ := addObject_done lists { p with depth := 3 }
      obtain ⟨p', run, depth', all, same⟩ := @ih { p with
        depth := 2, objectType := o.kind.number, objectName := some o.name, objectInstance := o.id
        device := some device } (before ++ [o]) right rest rfl lists'
      rw [List.append_assoc] at all
      refine ⟨p', ?_, depth', all, same⟩
      have stop := @deviceEnd_object device { p with
        depth := 3, objectType := o.kind.number, objectName := some o.name, objectInstance := o.id } rfl added
      exact (Outcome.bind_of_ret start).trans ((Outcome.bind_of_ret stop).trans run)

theorem deviceStart_type {reported : List (List Char × List Char)} {type : List Char} (depth : p.depth = 1)
    (order : reported.Perm [("type".toList, type)]) :
    deviceStart p reported = .ret { p with depth := 2, deviceType := some type } := by
  have two : p.depth + 1 = 2 := by rw [depth]; rfl
  rw [deviceStart, two, List.perm_singleton.mp order]
  rfl

/-- At the end the device has the objects, and the table is as before. -/
theorem parseDevices_file {type : List Char} (reports : Xml.Reports [deviceFile type objects] calls) :
    ∃ p device, parseDevices {} calls = .ret p ∧ p.depth = 0 ∧ p.device = some device ∧ device.Lists objects ∧
      p.context = {} := by
  obtain ⟨none, outer, order, content, rfl⟩ := Xml.Reports.of_tag reports
  cases List.perm_nil.mp order
  obtain ⟨reported, inner, order', objects', rfl⟩ := Xml.Reports.of_tag content
  have start := @deviceStart_type { depth := 1 } reported type rfl order'
  have nothing : ({} : Stored).Lists [] := ⟨rfl, rfl, rfl, rfl⟩
  obtain ⟨p, run, depth, lists, context⟩ := @parseDevices_objects { depth := 2, deviceType := some type }
    objects [] inner objects' rfl nothing
  -- The ends of the device and of the root.
  have stop : deviceEnd p = .ret { p with
      device := some { (p.device.getD {}) with type := p.deviceType }, depth := p.depth - 1 } := if_pos depth
  have one : p.depth - 1 = 1 := by rw [depth]; rfl
  rw [one] at stop
  have closing : parseDevices p [.endElement "device".toList, .endElement "devices".toList] = .ret { p with
      device := some { (p.device.getD {}) with type := p.deviceType }, depth := 0 } :=
    Outcome.bind_of_ret stop
  refine ⟨{ p with device := some { (p.device.getD {}) with type := p.deviceType }, depth := 0 },
    { (p.device.getD {}) with type := p.deviceType }, ?_, rfl, rfl,
    ⟨lists.nObjects, lists.objIds, lists.objTypes, lists.objNames⟩, context⟩
  change parseDevices { depth := 1 } (.startElement "device".toList reported ::
    (inner ++ [.endElement "device".toList]) ++ [.endElement "devices".toList]) = _
  rw [List.cons_append, List.append_assoc]
  refine (Outcome.bind_of_ret start).trans ?_
  rw [parseXml_append]
  exact (Outcome.bind_of_ret run).trans closing

theorem set_type (p : Parser) (type : List Char) :
    setBacnetAttribute p ("type".toList, type) = { p with deviceType := some type } := rfl

theorem set_instance (p : Parser) (x : BitVec 32) :
    setBacnetAttribute p ("instance".toList, number x) = { p with deviceInstance := x } := by
  have taken : setBacnetAttribute p ("instance".toList, number x) = { p with deviceInstance := atoi (number x) } := rfl
  rw [taken, atoi_number]

theorem set_nodeId (p : Parser) (nodeId : List Char) :
    setBacnetAttribute p ("node_id".toList, nodeId) = { p with nodeId := some nodeId } := rfl

theorem bacnetStart_device {d : Device} {reported : List (List Char × List Char)} (depth : p.depth = 1)
    (order : reported.Perm [("type".toList, d.type), ("instance".toList, number d.instanceNumber),
      ("node_id".toList, d.nodeId)]) :
    bacnetStart p reported = { p with
      depth := 2, deviceType := some d.type, deviceInstance := d.instanceNumber, nodeId := some d.nodeId } := by
  have two : p.depth + 1 = 2 := by rw [depth]; rfl
  rw [bacnetStart, two, if_pos rfl, foldl_three order, set_type, set_instance, set_nodeId]
  · intro s
    rw [set_type, set_instance, set_instance, set_type]
  · intro s
    rw [set_type, set_nodeId, set_nodeId, set_type]
  · intro s
    rw [set_instance, set_nodeId, set_nodeId, set_instance]

/-- The objects are copied for each device. -/
theorem bacnetEnd_device {d : Device} (parsed : p.device = some device) (lists : device.Lists d.objects)
    (short : Scan.strlen d.nodeId ≤ keyRoom) (depth : p.depth = 2) (nodeId : p.nodeId = some d.nodeId)
    (type : p.deviceType = some d.type) (number : p.deviceInstance = d.instanceNumber) :
    ∃ s : Stored, s.Is d ∧ bacnetEnd p = .ret { p with
      context := ⟨p.context.nodeDevices ++ [s], p.context.instanceDevices ++ [s]⟩
      nodeId := none, deviceType := none, deviceInstance := 0, depth := 1 } := by
  have count {α : Type} (f : Object → α) : device.nObjects = (d.objects.map f).length := by
    rw [List.length_map, lists.nObjects]
  have ids := copyEntries_done (g := id) lists.objIds (count _) fun a _ => (rfl : Outcome.ret a = _)
  have types := copyEntries_done (g := id) lists.objTypes (count _) fun a _ => (rfl : Outcome.ret a = _)
  have names : copyEntries device.objNames device.nObjects stringCopy =
      .ret (some (((d.objects.map (some ·.name)).map id).map some)) := by
    refine copyEntries_done lists.objNames (count _) fun a mem => ?_
    obtain ⟨o, -, rfl⟩ := List.mem_map.mp mem
    rfl
  rw [List.map_id] at ids types names
  have one : p.depth - 1 = 1 := by rw [depth]; rfl
  obtain ⟨s, is⟩ : ∃ s : Stored, s = ⟨p.nodeId, p.deviceInstance, p.deviceType, device.nObjects,
      some ((d.objects.map (·.id)).map some), some ((d.objects.map (·.kind.number)).map some),
      some ((d.objects.map (some ·.name)).map some)⟩ := ⟨_, rfl⟩
  have added : addDevice p.context s = .ret ⟨p.context.nodeDevices ++ [s], p.context.instanceDevices ++ [s]⟩ := by
    rw [addDevice, is, nodeId]
    exact if_pos short
  refine ⟨s, ?_, ?_⟩
  · rw [is]
    exact { nObjects := lists.nObjects, objIds := rfl, objTypes := rfl, objNames := rfl, nodeId, type
            instanceNumber := number }
  · rw [bacnetEnd, if_pos depth, parsed]
    dsimp only
    rw [ids, Outcome.ret_bind, types, Outcome.ret_bind, names, Outcome.ret_bind, ← is, added, Outcome.ret_bind, one]
    rfl

theorem Context.Shows.add {d : Device} {s : Stored} (shows : context.Shows devices) (is : s.Is d) :
    Context.Shows ⟨context.nodeDevices ++ [s], context.instanceDevices ++ [s]⟩ (devices ++ [d]) :=
  ⟨List.rel_append shows.1 (.cons is .nil), List.rel_append shows.2 (.cons is .nil)⟩

theorem parseBacnet_devices {added : List Device} {type : List Char} (oneType : OneType type objects devices)
    (short : ∀ d ∈ devices, Scan.strlen d.nodeId ≤ keyRoom)
    (reports : Xml.Reports (devices.map Device.tag) calls) (depth : p.depth = 1) (parsed : p.device = some device)
    (lists : device.Lists objects) (shows : p.context.Shows added) :
    ∃ p', parseBacnet p calls = .ret p' ∧ p'.context.Shows (added ++ devices) ∧ p'.depth = 1 := by
  induction devices generalizing p added calls with
  | nil =>
      cases reports
      exact ⟨p, rfl, by rwa [List.append_nil], depth⟩
  | cons d devices ih =>
      obtain ⟨⟨-, same⟩, others⟩ := List.forall_mem_cons.mp oneType
      obtain ⟨fits, rest_short⟩ := List.forall_mem_cons.mp short
      obtain ⟨left, right, rfl, first, rest⟩ := Xml.Reports.uncons reports
      obtain ⟨reported, inside, order, nothing, rfl⟩ := Xml.Reports.of_tag first
      cases nothing
      have start := bacnetStart_device depth order
      rw [← same] at lists
      obtain ⟨s, is, stop⟩ := @bacnetEnd_device device { p with
        depth := 2, deviceType := some d.type, deviceInstance := d.instanceNumber, nodeId := some d.nodeId }
        d parsed lists fits rfl rfl rfl rfl
      rw [same] at lists
      obtain ⟨p', run, shows', depth'⟩ := @ih { p with
        context := ⟨p.context.nodeDevices ++ [s], p.context.instanceDevices ++ [s]⟩
        nodeId := none, deviceType := none, deviceInstance := 0, depth := 1 } right (added ++ [d])
        others rest_short rest rfl parsed (shows.add is)
      rw [List.append_assoc] at shows'
      refine ⟨p', ?_, shows', depth'⟩
      change parseBacnet (bacnetStart p reported) (.endElement "device".toList :: right) = _
      rw [start]
      exact (Outcome.bind_of_ret stop).trans run

/-- The files give the table of each configuration with one type of device. -/
theorem bacnetParser_shows {type : List Char} {deviceCalls bacnetCalls : List Callback}
    (oneType : OneType type objects devices) (short : ∀ d ∈ devices, Scan.strlen d.nodeId ≤ keyRoom)
    (first : Xml.Reports [deviceFile type objects] deviceCalls)
    (second : Xml.Reports [bacnetFile devices] bacnetCalls) :
    ∃ context, bacnetParser deviceCalls bacnetCalls = .ret context ∧ context.Shows devices := by
  obtain ⟨p, device, parsed, depth, there, lists, context⟩ := parseDevices_file first
  obtain ⟨none, inner, order, content, rfl⟩ := Xml.Reports.of_tag second
  cases List.perm_nil.mp order
  have empty : p.context.Shows [] := by
    rw [context]
    exact ⟨.nil, .nil⟩
  have start : bacnetStart p [] = { p with depth := 1 } := by
    rw [bacnetStart, depth]
    rfl
  obtain ⟨p', run, shows, depth'⟩ := @parseBacnet_devices device { p with depth := 1 } objects inner devices []
    type oneType short content rfl there lists empty
  have outside : ¬ p'.depth = 2 := by
    rw [depth']
    decide
  have stop : bacnetEnd p' = .ret { p' with depth := p'.depth - 1 } := if_neg outside
  refine ⟨p'.context, ?_, shows⟩
  rw [bacnetParser, parsed, Outcome.ret_bind]
  refine Outcome.bind_of_ret (a := { p' with depth := p'.depth - 1 }) ?_
  change parseBacnet (bacnetStart p []) (inner ++ [.endElement "bacnet".toList]) = _
  rw [start, parseBacnet, parseXml_append]
  exact (Outcome.bind_of_ret run).trans (Outcome.bind_of_ret stop)

theorem not_shows_empty {d : Device} : ¬ ({} : Context).Shows (d :: devices) := by
  rintro ⟨⟨⟩, -⟩

/-- The nodes give the table only where there is nothing to show: a device with an object ends in a null pointer,
and one without is left out. -/
theorem sameTable_iff (devices : List Device) (published : Published devices) :
    SameTable devices published ↔ devices = [] := by
  constructor
  · rintro ⟨⟨context, parsed, shows⟩, -⟩
    have same := parseBacnetContextNode_null {} published.references context parsed
    cases devices with
    | nil => rfl
    | cons d devices => exact absurd (same ▸ shows) not_shows_empty
  · rintro rfl
    have childless := List.forall₂_nil_left_iff.mp published.carried
    refine ⟨⟨{}, parseBacnetContextNode_childless childless _ _, .nil, .nil⟩, ?_⟩
    intro type objects oneType deviceCalls bacnetCalls first second
    exact bacnetParser_shows oneType (fun d mem => by cases mem) first second

def thermostat : Device := ⟨"thermostat_data".toList, "wistat".toList, 599, [⟨.av, 1, "Temperature".toList⟩]⟩

def thermostatMeta : Meta where
  properties := [("BACnet Type".toList, "wistat".toList), ("BACnet Instance".toList, number 599)]
  transducers := [[("BACnet Type".toList, "AV".toList), ("BACnet Name".toList, "Temperature".toList),
    ("BACnet ID".toList, number 1)]]

def publishedThermostat : Published [thermostat] where
  references := [⟨true, "thermostat_data".toList, some thermostatMeta⟩]
  carried := .cons ⟨rfl, thermostatMeta, rfl,
    (by decide : ["BACnet Type".toList, "BACnet Instance".toList].Nodup), rfl, rfl,
    .cons ⟨(by decide : ["BACnet Type".toList, "BACnet Name".toList, "BACnet ID".toList].Nodup), rfl, rfl, rfl⟩
      .nil⟩ .nil

theorem thermostat_missing : ¬ SameTable [thermostat] publishedThermostat := by
  rintro ⟨⟨context, parsed, shows⟩, -⟩
  have same := parseBacnetContextNode_null {} publishedThermostat.references context parsed
  exact not_shows_empty (same ▸ shows)

end Mio.Adapters.Bacnet
