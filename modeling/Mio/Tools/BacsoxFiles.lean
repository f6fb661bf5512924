import Mio.Tools.Bacsox

/-! What the three files of `mio2bac` configure, and what the parser makes of them. -/
namespace Mio.Tools.Bacsox

/-- The settings from the last `transducer` and the last `OBJECT` for a name. -/
def settings (name : Name) : Option ℤ → Option (Name × Name) → Option Settings
  | none, none => none
  | reading, description => some {
      tranName := name
      bacType := (description.map Prod.fst).getD []
      bacName := (description.map Prod.snd).getD []
      regId := reading.getD 0 }

/-- The name of the object that a transducer gets. -/
def Settings.analog (s : Settings) : Option Name := if s.bacType = analogInput then some s.bacName else none

/-- The names from both files, in order. -/
def mentions (readings : List (Name × ℤ)) (descriptions : List (Name × Name × Name)) : List (Name × Unit) :=
  readings.map (fun r => (r.1, ())) ++ descriptions.map fun d => (d.1, ())

namespace Config

def known (config : Config) : Dictionary Name Device :=
  .ofHistory (config.devices.filterMap DeviceElement.declared)

def hasType (config : Config) (type : Name) : Bool := config.known.any (·.deviceType = type)

def readings (config : Config) (wanted : Name → Bool) : List (Name × ℤ) :=
  gather wanted (config.regMaps.map fun m => (m.node, m.transducers.filterMap TransducerElement.reading))

def descriptions (config : Config) (wanted : Name → Bool) : List (Name × Name × Name) :=
  gather wanted (config.types.map fun t => (t.device, t.objects.filterMap ObjectElement.description))

/-- The transducers configured for a device. -/
def transducer (config : Config) (node : Name) (device : Device) (name : Name) : Option Settings :=
  settings name (latest (config.readings (· = node)) name)
    (latest (config.descriptions (· = device.deviceType)) name)

def names (config : Config) (node : Name) (device : Device) : List Name :=
  firsts (mentions (config.readings (· = node)) (config.descriptions (· = device.deviceType)))

/-- The name of the object that a device has for a transducer. -/
def analog (config : Config) (node : Name) (device : Device) (name : Name) : Option Name :=
  (config.transducer node device name).bind Settings.analog

end Config

/-- The dictionary of transducers holds what has been read so far. -/
structure Parser.Shows (p : Parser) (readings : List (Name × ℤ)) (descriptions : List (Name × Name × Name)) :
    Prop where
  get : ∀ name, p.transducers.get name =
    (settings name (latest readings name) (latest descriptions name)).map fun s => { toSettings := s }
  keys : p.transducers.keys = firsts (mentions readings descriptions)

variable {p : Parser} {readings : List (Name × ℤ)} {descriptions : List (Name × Name × Name)}
  {before : List (Name × ℤ)} {before' : List (Name × Name × Name)}

theorem device_elements (elements : List DeviceElement) (p : Parser) :
    let p' := (elements.map BacElement.device).foldl Parser.bacStartElementHandler p
    p'.devices = (elements.filterMap DeviceElement.declared).foldl (fun d e => d.set e.1 e.2) p.devices ∧
      p'.transducers = p.transducers ∧ p'.device = p.device := by
  induction elements generalizing p with
  | nil => exact ⟨rfl, rfl, rfl⟩
  | cons e elements ih =>
      obtain ⟨devices, transducers, device⟩ := ih (p.bacStartElementHandler (.device e))
      refine ⟨devices.trans ?_, transducers.trans ?_, device.trans ?_⟩
      · rw [List.filterMap_cons, Parser.bacStartElementHandler]
        cases e.declared with
        | none => rfl
        | some d => rfl
      · rw [Parser.bacStartElementHandler]
        cases e.declared with
        | none => rfl
        | some d => rfl
      · rw [Parser.bacStartElementHandler]
        cases e.declared with
        | none => rfl
        | some d => rfl

theorem Parser.Shows.register (shows_ : p.Shows readings []) (reading : Name × ℤ) :
    (p.register reading).Shows (readings ++ [reading]) [] where
  get name := by
    obtain ⟨key, regId⟩ := reading
    rw [Parser.register, Dictionary.get_set, latest_concat]
    by_cases same : name = key
    · subst same
      rw [Function.update_self, Function.update_self, shows_.get]
      cases latest readings name with
      | none => rfl
      | some r => rfl
    · rw [Function.update_of_ne same, Function.update_of_ne same, shows_.get]
  keys := by
    have more : mentions (readings ++ [reading]) [] = mentions readings [] ++ [(reading.1, ())] := by
      simp [mentions]
    rw [more]
    exact Dictionary.keys_set_firsts shows_.keys

theorem Parser.Shows.describe (shows_ : p.Shows readings descriptions) (description : Name × Name × Name) :
    (p.describe description).Shows readings (descriptions ++ [description]) where
  get name := by
    obtain ⟨key, bacType, bacName⟩ := description
    rw [Parser.describe, Dictionary.get_set, latest_concat]
    by_cases same : name = key
    · subst same
      rw [Function.update_self, Function.update_self, shows_.get]
      cases latest readings name with
      | none =>
          cases latest descriptions name with
          | none => rfl
          | some d => rfl
      | some r => rfl
    · rw [Function.update_of_ne same, Function.update_of_ne same, shows_.get]
  keys := by
    have more : mentions readings (descriptions ++ [description]) =
        mentions readings descriptions ++ [(description.1, ())] := by
      simp [mentions]
    rw [more]
    exact Dictionary.keys_set_firsts shows_.keys

theorem registers (readings : List (Name × ℤ)) (shows_ : p.Shows before []) :
    (readings.foldl Parser.register p).Shows (before ++ readings) [] ∧
      (readings.foldl Parser.register p).devices = p.devices ∧
        (readings.foldl Parser.register p).device = p.device := by
  induction readings generalizing p before with
  | nil => exact ⟨by rwa [List.append_nil], rfl, rfl⟩
  | cons reading readings ih =>
      have rest := ih (shows_.register reading)
      rw [List.append_assoc] at rest
      exact rest

theorem describes (descriptions : List (Name × Name × Name)) (shows_ : p.Shows readings before') :
    (descriptions.foldl Parser.describe p).Shows readings (before' ++ descriptions) ∧
      (descriptions.foldl Parser.describe p).devices = p.devices ∧
        (descriptions.foldl Parser.describe p).device = p.device := by
  induction descriptions generalizing p before' with
  | nil => exact ⟨by rwa [List.append_nil], rfl, rfl⟩
  | cons description descriptions ih =>
      have rest := ih (shows_.describe description)
      rw [List.append_assoc] at rest
      exact rest

/-- The transducers of a node that is not known are left out. -/
theorem transducer_elements (elements : List TransducerElement) (p : Parser) :
    (elements.map RegElement.transducer).foldl Parser.regStartElementHandler p =
      (if p.device.isSome then elements.filterMap TransducerElement.reading else []).foldl Parser.register p := by
  induction elements generalizing p with
  | nil => rw [List.filterMap_nil, ite_self]; rfl
  | cons e elements ih =>
      rw [List.map_cons, List.foldl_cons, ih, List.filterMap_cons, Parser.regStartElementHandler]
      cases own : p.device with
      | none => rw [own]; rfl
      | some device =>
          cases e.reading with
          | none => simp [own]
          | some reading =>
              have still : (p.register reading).device = some device := own
              simp [still]

theorem regMap_elements (m : RegMap) (shows_ : p.Shows before []) :
    let p' := m.elements.foldl Parser.regStartElementHandler p
    p'.Shows (before ++ if m.node.any (fun node => (p.devices.get node).isSome) then
      m.transducers.filterMap TransducerElement.reading else []) [] ∧
        p'.devices = p.devices ∧ p'.device = m.node.bind p.devices.get := by
  intro p'
  have opened : ({ p with device := m.node.bind p.devices.get } : Parser).Shows before [] :=
    ⟨shows_.get, shows_.keys⟩
  have wanted : m.node.any (fun node => (p.devices.get node).isSome) = (m.node.bind p.devices.get).isSome := by
    cases m.node with
    | none => rfl
    | some node => rfl
  have run : p' = _ := transducer_elements m.transducers { p with device := m.node.bind p.devices.get }
  rw [run, wanted]
  exact registers _ opened

/-- `self.device` is left as the last `regMap` has set it. -/
theorem regMaps_elements (regMaps : List RegMap) (shows_ : p.Shows before []) :
    let p' := (regMaps.flatMap RegMap.elements).foldl Parser.regStartElementHandler p
    p'.Shows (before ++ gather (fun node => (p.devices.get node).isSome)
      (regMaps.map fun m => (m.node, m.transducers.filterMap TransducerElement.reading))) [] ∧
        p'.devices = p.devices ∧
          p'.device = regMaps.getLast?.elim p.device fun m => m.node.bind p.devices.get := by
  induction regMaps generalizing p before with
  | nil => exact ⟨by simpa [gather] using shows_, rfl, rfl⟩
  | cons m regMaps ih =>
      obtain ⟨here, devices, device⟩ := regMap_elements m shows_
      obtain ⟨rest, devices', device'⟩ := ih here
      rw [List.flatMap_cons, List.foldl_append]
      refine ⟨?_, devices'.trans devices, ?_⟩
      · rw [devices, List.append_assoc] at rest
        exact rest
      · rw [device', devices, device, List.getLast?_cons]
        cases regMaps.getLast? with
        | none => rfl
        | some last => rfl

def Parser.taken (p : Parser) (type : Option Name) (elements : List ObjectElement) : List (Name × Name × Name) :=
  if type.any fun t => p.devices.any (·.deviceType = t) then elements.filterMap ObjectElement.description else []

theorem taken_cons (p : Parser) (type : Option Name) (e : ObjectElement) (elements : List ObjectElement) :
    p.taken type (e :: elements) = p.taken type [e] ++ p.taken type elements := by
  unfold Parser.taken
  split
  · exact List.filterMap_append (l := [e])
  · rfl

theorem taken_congr {p' : Parser} {type : Option Name} {elements : List ObjectElement}
    (same : p'.devices = p.devices) : p'.taken type elements = p.taken type elements := by
  rw [Parser.taken, same]
  rfl

theorem object_element {type : Option Name} (own : p.devType = some type) (e : ObjectElement) :
    p.devStartElementHandler (.object e) =
      if p.taken type [e] ≠ [] ∧ p.device.isNone then .throw .attributeError
      else .ret ((p.taken type [e]).foldl Parser.describe p) := by
  rw [Parser.devStartElementHandler, own, Parser.taken]
  cases type with
  | none => rfl
  | some type =>
      rw [Option.any_some, List.filterMap_cons]
      by_cases used : p.devices.any (·.deviceType = type)
      · cases e.description with
        | none => simp
        | some description =>
            cases node : p.device with
            | none => simp [used]
            | some device => simp [used]
      · cases e.description with
        | none => simp
        | some description => simp [used]

theorem describes_fixed (descriptions : List (Name × Name × Name)) (p : Parser) :
    (descriptions.foldl Parser.describe p).devType = p.devType ∧
      (descriptions.foldl Parser.describe p).devices = p.devices ∧
        (descriptions.foldl Parser.describe p).device = p.device := by
  induction descriptions generalizing p with
  | nil => exact ⟨rfl, rfl, rfl⟩
  | cons description descriptions ih => exact ih (p.describe description)

/-- The objects of one type: they need the device of the last `regMap`. -/
theorem object_elements {type : Option Name} (elements : List ObjectElement) (own : p.devType = some type) :
    (elements.map DevElement.object).foldlM Parser.devStartElementHandler p =
      if p.taken type elements ≠ [] ∧ p.device.isNone then .throw .attributeError
      else .ret ((p.taken type elements).foldl Parser.describe p) := by
  induction elements generalizing p with
  | nil =>
      have nothing : p.taken type [] = [] := ite_self _
      rw [nothing, if_neg fun both => both.1 rfl]
      rfl
  | cons e elements ih =>
      rw [List.map_cons, List.foldlM_cons, object_element own, taken_cons p type e elements]
      by_cases missing : p.taken type [e] ≠ [] ∧ p.device.isNone
      · rw [if_pos missing, if_pos ⟨fun none => missing.1 (List.append_eq_nil_iff.mp none).1, missing.2⟩]
        rfl
      · obtain ⟨devType, devices, device⟩ := describes_fixed (p.taken type [e]) p
        have later : ((p.taken type [e]).foldl Parser.describe p).taken type elements = p.taken type elements :=
          taken_congr devices
        rw [if_neg missing, Outcome.ret_bind, ih (devType.trans own), later, device, List.foldl_append]
        by_cases rest : p.taken type elements ≠ [] ∧ p.device.isNone
        · rw [if_pos rest, if_pos ⟨fun none => rest.1 (List.append_eq_nil_iff.mp none).2, rest.2⟩]
        · rw [if_neg rest, if_neg]
          rintro ⟨some_, none⟩
          apply some_
          rw [List.append_eq_nil_iff]
          exact ⟨not_not.mp fun one => missing ⟨one, none⟩, not_not.mp fun one => rest ⟨one, none⟩⟩

def Parser.takenAll (p : Parser) (types : List DeviceType) : List (Name × Name × Name) :=
  gather (fun type => p.devices.any (·.deviceType = type))
    (types.map fun t => (t.device, t.objects.filterMap ObjectElement.description))

theorem type_elements (t : DeviceType) (p : Parser) :
    t.elements.foldlM Parser.devStartElementHandler p =
      if p.taken t.device t.objects ≠ [] ∧ p.device.isNone then .throw .attributeError
      else .ret ((p.taken t.device t.objects).foldl Parser.describe { p with devType := some t.device }) := by
  rw [DeviceType.elements, List.foldlM_cons]
  exact object_elements t.objects rfl

theorem types_ret (types : List DeviceType) (shows_ : p.Shows readings before')
    (ready : p.takenAll types ≠ [] → p.device.isSome) :
    ∃ p', (types.flatMap DeviceType.elements).foldlM Parser.devStartElementHandler p = .ret p' ∧
      p'.Shows readings (before' ++ p.takenAll types) ∧ p'.devices = p.devices := by
  induction types generalizing p before' with
  | nil => exact ⟨p, rfl, by rwa [Parser.takenAll, List.map_nil, gather, List.flatMap_nil, List.append_nil], rfl⟩
  | cons t types ih =>
      have split : p.takenAll (t :: types) = p.taken t.device t.objects ++ p.takenAll types := by
        rw [Parser.takenAll, List.map_cons, gather, List.flatMap_cons]
        rfl
      have here : ¬ (p.taken t.device t.objects ≠ [] ∧ p.device.isNone) := by
        rintro ⟨some_, none⟩
        have there := ready (split ▸ fun nil => some_ (List.append_eq_nil_iff.mp nil).1)
        rw [Option.isNone_iff_eq_none] at none
        rw [none] at there
        cases there
      have opened : ({ p with devType := some t.device } : Parser).Shows readings before' :=
        ⟨shows_.get, shows_.keys⟩
      obtain ⟨described, devices, device⟩ := describes (p.taken t.device t.objects) opened
      obtain ⟨p', run, rest, devices'⟩ := ih described (by
        rw [Parser.takenAll, devices, device]
        exact fun some_ => ready (split ▸ fun nil => some_ (List.append_eq_nil_iff.mp nil).2))
      refine ⟨p', ?_, ?_, devices'.trans devices⟩
      · rw [List.flatMap_cons, List.foldlM_append, type_elements, if_neg here]
        exact run
      · rw [List.append_assoc, Parser.takenAll, devices] at rest
        rw [split]
        exact rest

theorem types_throw (types : List DeviceType) (some_ : p.takenAll types ≠ []) (none_ : p.device = none) :
    (types.flatMap DeviceType.elements).foldlM Parser.devStartElementHandler p = .throw .attributeError := by
  induction types generalizing p with
  | nil => exact (some_ rfl).elim
  | cons t types ih =>
      rw [List.flatMap_cons, List.foldlM_append, type_elements]
      by_cases here : p.taken t.device t.objects = []
      · rw [here, if_neg fun both => both.1 rfl]
        refine ih (p := { p with devType := some t.device }) (fun nil => some_ ?_) none_
        rw [Parser.takenAll, List.map_cons, gather, List.flatMap_cons]
        exact List.append_eq_nil_iff.mpr ⟨here, nil⟩
      · rw [if_pos ⟨here, by rw [none_]; rfl⟩]
        rfl

variable {config : Config}

theorem parse_eq (config : Config) :
    ∃ p : Parser, p.Shows (config.readings fun node => (config.known.get node).isSome) [] ∧
      p.devices = config.known ∧
        p.device = (config.regMaps.getLast?.bind (·.node)).bind config.known.get ∧
          config.parse = (config.types.flatMap DeviceType.elements).foldlM Parser.devStartElementHandler p := by
  obtain ⟨devices, transducers, device⟩ := device_elements config.devices
    (({} : Parser).bacStartElementHandler (.bacnet config.segmentationType config.maxApduLen))
  have known : (config.bacFile.foldl Parser.bacStartElementHandler {}).devices = config.known := devices
  have start : (config.bacFile.foldl Parser.bacStartElementHandler {}).Shows [] [] := by
    have none : (config.bacFile.foldl Parser.bacStartElementHandler {}).transducers = .empty := transducers
    exact ⟨fun name => by rw [none]; rfl, by rw [none]; rfl⟩
  obtain ⟨shows_, devices', device'⟩ := regMaps_elements config.regMaps start
  rw [known] at shows_ device'
  refine ⟨_, shows_, devices'.trans known, device'.trans ?_, rfl⟩
  cases config.regMaps.getLast? with
  | none => exact device
  | some m => rfl

/-- The files are read if objects are described only where the last `regMap` is for a device. -/
theorem parse_ret (last : config.descriptions config.hasType ≠ [] →
    ((config.regMaps.getLast?.bind (·.node)).bind config.known.get).isSome) :
    ∃ p : Parser, config.parse = .ret p ∧ p.devices = config.known ∧
      p.Shows (config.readings fun node => (config.known.get node).isSome)
        (config.descriptions config.hasType) := by
  obtain ⟨p, shows_, devices, device, run⟩ := parse_eq config
  have taken : p.takenAll config.types = config.descriptions config.hasType := by
    rw [Parser.takenAll, devices]
    rfl
  obtain ⟨p', types, read, devices'⟩ := types_ret config.types shows_ (by rw [taken, device]; exact last)
  rw [taken] at read
  exact ⟨p', run.trans types, devices'.trans devices, read⟩

theorem last_of_parse (run : config.parse = .ret p) (some_ : config.descriptions config.hasType ≠ []) :
    ((config.regMaps.getLast?.bind (·.node)).bind config.known.get).isSome := by
  obtain ⟨p', shows_, devices, device, eq⟩ := parse_eq config
  have taken : p'.takenAll config.types = config.descriptions config.hasType := by
    rw [Parser.takenAll, devices]
    rfl
  rw [← device, Option.isSome_iff_ne_none]
  intro none_
  rw [eq, types_throw config.types (taken ▸ some_) none_] at run
  cases run

/-- What the dictionary of all devices says of a transducer. -/
def Config.shared (config : Config) (name : Name) : Option Settings :=
  settings name (latest (config.readings fun node => (config.known.get node).isSome) name)
    (latest (config.descriptions config.hasType) name)

variable {node : Name} {device : Device} {name : Name}

theorem Parser.Shows.shared (shows_ : p.Shows (config.readings fun node => (config.known.get node).isSome)
    (config.descriptions config.hasType)) (name : Name) :
    (p.transducers.get name).map (·.toSettings) = config.shared name := by
  rw [shows_.get, Option.map_map]
  exact Option.map_id'

theorem hasType_iff {type : Name} :
    config.hasType type ↔ ∃ node device, config.known.get node = some device ∧ device.deviceType = type := by
  rw [Config.hasType, Dictionary.any_iff]
  simp only [decide_eq_true_eq]

theorem settings_join {r : ℤ} {d : Name × Name} {reading : Option ℤ} {description : Option (Name × Name)}
    (same : settings name (some r) description = settings name reading (some d)) :
    settings name (some r) description = settings name (some r) (some d) := by
  have eq : settings name reading (some d) = some ⟨name, d.1, d.2, reading.getD 0⟩ := by
    cases reading with
    | none => rfl
    | some reading => rfl
  rw [eq] at same
  injection same with fields
  injection fields with _ bacType bacName regId
  change some _ = some _
  rw [bacType, bacName]
  rfl

/-- Devices that are configured alike have what all of them are configured with together. -/
theorem transducer_eq_shared (same : ∀ node other device device', config.known.get node = some device →
    config.known.get other = some device' → config.transducer node device = config.transducer other device')
    (own : config.known.get node = some device) : config.transducer node device = config.shared := by
  funext name
  rw [Config.shared]
  cases reading : latest (config.readings fun node => (config.known.get node).isSome) name with
  | none =>
      cases description : latest (config.descriptions config.hasType) name with
      | none =>
          have type : config.hasType device.deviceType := hasType_iff.mpr ⟨node, device, own, rfl⟩
          rw [Config.transducer, Config.readings, Config.descriptions,
            latest_gather_none reading (by rw [own]; rfl), latest_gather_none description type]
      | some d =>
          obtain ⟨type, want, found⟩ := exists_latest_gather description
          obtain ⟨other, device', own', rfl⟩ := hasType_iff.mp want
          rw [same node other device device' own own', Config.transducer, Config.readings, Config.descriptions,
            latest_gather_none reading (by rw [own']; rfl), found]
  | some r =>
      obtain ⟨other, want, found⟩ := exists_latest_gather reading
      obtain ⟨device', own'⟩ := Option.isSome_iff_exists.mp want
      have first : config.transducer node device name =
          settings name (some r) (latest (config.descriptions (· = device'.deviceType)) name) := by
        rw [same node other device device' own own', Config.transducer, Config.readings, found]
      rw [first]
      cases description : latest (config.descriptions config.hasType) name with
      | none =>
          have type : config.hasType device'.deviceType := hasType_iff.mpr ⟨other, device', own', rfl⟩
          rw [Config.descriptions, latest_gather_none description type]
      | some d =>
          obtain ⟨type, want', found'⟩ := exists_latest_gather description
          obtain ⟨third, device'', own'', rfl⟩ := hasType_iff.mp want'
          apply settings_join
          rw [← first, same node third device device'' own own'', Config.transducer, Config.descriptions, found']

theorem only_key (only : ∀ other, (config.known.get other).isSome → other = node)
    (own : config.known.get node = some device) : config.known.keys = [node] := by
  apply List.perm_singleton.mp
  apply (List.perm_ext_iff_of_nodup config.known.distinct (List.nodup_singleton node)).mpr
  intro other
  rw [config.known.mem_keys, List.mem_singleton]
  constructor
  · exact only other
  · rintro rfl
    rw [own]
    rfl

/-- The dictionary of all devices is the one of the only device. -/
theorem Parser.Shows.keys_alone (shows_ : p.Shows (config.readings fun node => (config.known.get node).isSome)
    (config.descriptions config.hasType)) (only : ∀ other, (config.known.get other).isSome → other = node)
    (own : config.known.get node = some device) : p.transducers.keys = config.names node device := by
  have nodes : (fun other => (config.known.get other).isSome) = fun other => decide (other = node) := by
    funext other
    rw [Bool.eq_iff_iff, decide_eq_true_iff]
    constructor
    · exact only other
    · rintro rfl
      rw [own]
      rfl
  have types : config.hasType = fun type => decide (type = device.deviceType) := by
    funext type
    rw [Bool.eq_iff_iff, decide_eq_true_iff, hasType_iff]
    constructor
    · rintro ⟨other, device', own', rfl⟩
      cases only other (own' ▸ rfl)
      rw [own] at own'
      cases own'
      rfl
    · rintro rfl
      exact ⟨node, device, own, rfl⟩
  rw [shows_.keys, nodes, types]
  rfl

end Mio.Tools.Bacsox
