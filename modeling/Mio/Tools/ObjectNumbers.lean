import Mio.Tools.BacsoxFiles

/-! When the BACnet objects of `mio2bac` carry the numbers that are recorded for them. -/
namespace Mio.Tools.Bacsox

/-- Every object that was added has the number recorded in its transducer, the numbers differ from one another
and from the ids of the devices, and each device has the transducers configured for it. -/
structure Numbered (config : Config) (s : Numbering) : Prop where
  recorded : ∀ a ∈ s.added, ∃ tran, s.transducers.get a.1 = some tran ∧ a.2.objectIdentifier.2 = tran.objectId
  distinct : (s.added.map (·.2.objectIdentifier.2)).Nodup
  apart : ∀ a ∈ s.added, ∀ node device, config.known.get node = some device →
    a.2.objectIdentifier.2 ≠ device.bacnetId
  transducers : ∀ node device, config.known.get node = some device → ∀ name,
    (s.transducers.get name).map (·.toSettings) = config.transducer node device name

/-- A device with objects is the only one. The names of its objects are proper ones, and the transducer that is
walked when the counter stands at the device's id has no object. -/
structure Alone (walk : Walk) (config : Config) (node : Name) (device : Device) : Prop where
  only : ∀ other, (config.known.get other).isSome → other = node
  proper : ∀ name object, config.analog node device name = some object → object ≠ [] ∧ object ≠ node
  distinct : ∀ name other object, config.analog node device name = some object →
    config.analog node device other = some object → name = other
  position : ∀ (k : ℕ) name, (k : ℤ) = device.bacnetId → (walk.1 (config.names node device))[k]? = some name →
    config.analog node device name = none

structure Fits (walk : Walk) (config : Config) : Prop where
  device : ∃ node device, config.known.get node = some device
  /-- Where there are objects, the last `regMap` is for a device. -/
  last : config.descriptions config.hasType ≠ [] →
    ((config.regMaps.getLast?.bind (·.node)).bind config.known.get).isSome
  same : ∀ node other device device', config.known.get node = some device →
    config.known.get other = some device' → config.transducer node device = config.transducer other device'
  single : ∀ node device name s, config.known.get node = some device →
    config.transducer node device name = some s → s.bacType ≠ multiStateInput
  alone : ∀ node device name object, config.known.get node = some device →
    config.analog node device name = some object → Alone walk config node device

variable {config : Config} {walk : Walk} {s s' : Numbering} {localKeys : List ℤ} {devId : ℤ} {key : Name}
  {tran : Transducer}

/-- The name of the object for the transducer of a table. -/
def analogAt (table : Dictionary Name Transducer) (name : Name) : Option Name :=
  ((table.get name).map (·.toSettings)).bind Settings.analog

/-- The objects that a walk adds, each with the name of its transducer. -/
def offered (table : Dictionary Name Transducer) (walked : List Name) : List (Name × Name) :=
  walked.filterMap fun name => (analogAt table name).map (name, ·)

def Transducer.object (tran : Transducer) (i : ℤ) : Option AnalogValue :=
  tran.analog.map fun name => ⟨(.analogValue, i), tran.value, name⟩

def Numbering.turn (s : Numbering) (key : Name) (tran tran' : Transducer) (repeater : Repeater) : Numbering where
  i := tran'.objectId + 1
  transducers := s.transducers.set key tran'
  repeater := repeater
  added := s.added ++ (tran.object s.i).toList.map (key, ·)

theorem mem_turn {tran' : Transducer} {repeater : Repeater} {a : Name × AnalogValue} :
    a ∈ (s.turn key tran tran' repeater).added ↔
      a ∈ s.added ∨ ∃ name, tran.analog = some name ∧ a = (key, ⟨(.analogValue, s.i), tran.value, name⟩) := by
  rw [Numbering.turn, List.mem_append, Transducer.object]
  apply or_congr_right
  cases tran.analog with
  | none => simp
  | some name => simp

theorem transducerToObject_ret (i : ℤ) (single : tran.bacType ≠ multiStateInput) :
    ∃ tran' : Transducer, tran'.toSettings = tran.toSettings ∧
      transducerToObject i tran = .ret (tran', tran.object i) := by
  unfold transducerToObject Transducer.object Settings.analog
  by_cases analog : tran.bacType = analogInput
  · rw [if_pos analog, if_pos analog]
    exact ⟨{ tran with objId := some i }, rfl, rfl⟩
  · rw [if_neg analog, if_neg single, if_neg analog]
    exact ⟨tran, rfl, rfl⟩

theorem single_of_ret {i : ℤ} {made : Transducer × Option AnalogValue} (run : transducerToObject i tran = .ret made) :
    tran.bacType ≠ multiStateInput := by
  intro multi
  rw [transducerToObject, if_neg (multi ▸ by decide), if_pos multi] at run
  cases run

theorem numberTransducer_eq (localKeys : List ℤ) (devId : ℤ) (found : s.transducers.get key = some tran)
    (single : tran.bacType ≠ multiStateInput) :
    ∃ tran' : Transducer, tran'.toSettings = tran.toSettings ∧
      tran'.objectId = skipKeys localKeys localKeys.length s.i ∧
      numberTransducer localKeys devId s key =
        offer s.repeater devId (tran.object s.i) >>= fun repeater => .ret (s.turn key tran tran' repeater) := by
  obtain ⟨tran', same, made⟩ := transducerToObject_ret s.i single
  refine ⟨{ tran' with objectId := skipKeys localKeys localKeys.length s.i }, same, rfl, ?_⟩
  rw [numberTransducer, found]
  change transducerToObject s.i tran >>= _ = _
  rw [made]
  rfl

/-- A turn that returns: the object has the number from before the keys are skipped. -/
theorem numberTransducer_eq_ret (run : numberTransducer localKeys devId s key = .ret s') :
    ∃ tran tran' : Transducer, s.transducers.get key = some tran ∧ tran.bacType ≠ multiStateInput ∧
      tran'.toSettings = tran.toSettings ∧ tran'.objectId = skipKeys localKeys localKeys.length s.i ∧
      ∃ repeater, offer s.repeater devId (tran.object s.i) = .ret repeater ∧
        s' = s.turn key tran tran' repeater := by
  cases found : s.transducers.get key with
  | none =>
      rw [numberTransducer, found] at run
      cases run
  | some tran =>
      have single : tran.bacType ≠ multiStateInput := by
        rw [numberTransducer, found] at run
        obtain ⟨made, here, -⟩ := Outcome.bind_eq_ret.mp run
        exact single_of_ret here
      obtain ⟨tran', same, number, eq⟩ := numberTransducer_eq localKeys devId found single
      rw [eq] at run
      obtain ⟨repeater, taken, ret⟩ := Outcome.bind_eq_ret.mp run
      cases ret
      exact ⟨tran, tran', rfl, single, same, number, repeater, taken, rfl⟩

theorem le_skipKeys (localKeys : List ℤ) (n : ℕ) (i : ℤ) : i ≤ skipKeys localKeys n i := by
  induction n generalizing i with
  | zero => exact le_rfl
  | succ n ih =>
      rw [skipKeys]
      split
      · exact (Int.le_of_lt (Int.lt_succ i)).trans (ih (i + 1))
      · exact le_rfl

/-- What has been done once the transducers in `walked` have been walked, some of them for several devices. -/
structure Walked (table : Dictionary Name Transducer) (walked : List Name) (s : Numbering) : Prop where
  keys : s.transducers.keys = table.keys
  settings : ∀ name, (s.transducers.get name).map (·.toSettings) = (table.get name).map (·.toSettings)
  objects : s.added.map (fun a => (a.1, a.2.objectName)) = offered table walked
  below : ∀ a ∈ s.added, a.2.objectIdentifier.2 < s.i
  increasing : s.added.Pairwise fun a b => a.2.objectIdentifier.2 < b.2.objectIdentifier.2
  single : ∀ name ∈ walked, ∀ tran, table.get name = some tran → tran.bacType ≠ multiStateInput

variable {table : Dictionary Name Transducer} {walked : List Name}

theorem offered_append (table : Dictionary Name Transducer) (walked more : List Name) :
    offered table (walked ++ more) = offered table walked ++ offered table more := List.filterMap_append

theorem Walked.analogAt (walk_ : Walked table walked s) (name : Name) :
    analogAt s.transducers name = analogAt table name := by
  rw [Bacsox.analogAt, walk_.settings]
  rfl

theorem Walked.transducer (walk_ : Walked table walked s)
    (run : numberTransducer localKeys devId s key = .ret s') :
    Walked table (walked ++ [key]) s' := by
  obtain ⟨tran, tran', found, single, same, number, repeater, -, rfl⟩ := numberTransducer_eq_ret run
  have there : key ∈ s.transducers.keys := (s.transducers.mem_keys _).mpr (found ▸ rfl)
  have own : (table.get key).map (·.toSettings) = some tran.toSettings := by
    rw [← walk_.settings, found]
    rfl
  have offers : offered table [key] = (tran.analog.map (key, ·)).toList := by
    have at_ : Bacsox.analogAt table key = tran.analog := congrArg (Option.bind · Settings.analog) own
    rw [offered, List.filterMap_cons, at_]
    cases tran.analog with
    | none => rfl
    | some name => rfl
  have next : s.i < tran'.objectId + 1 := Int.lt_add_one_of_le (number ▸ le_skipKeys ..)
  refine ⟨(Dictionary.keys_set_old there).trans walk_.keys, fun name => ?_, ?_, ?_, ?_, ?_⟩
  · rw [Numbering.turn, Dictionary.get_set]
    by_cases here : name = key
    · subst here
      rw [Function.update_self, own, ← same]
      rfl
    · rw [Function.update_of_ne here, walk_.settings]
  · rw [Numbering.turn, List.map_append, walk_.objects, offered_append, offers, Transducer.object]
    cases tran.analog with
    | none => rfl
    | some name => rfl
  · intro a mem
    rcases mem_turn.mp mem with old | ⟨name, -, rfl⟩
    · exact (walk_.below a old).trans next
    · exact next
  · apply List.pairwise_append.mpr
    refine ⟨walk_.increasing, ?_, fun a old b new => ?_⟩
    · rw [Transducer.object]
      cases tran.analog with
      | none => exact .nil
      | some name => exact List.pairwise_singleton ..
    · obtain ⟨obj, made, rfl⟩ := List.mem_map.mp new
      obtain ⟨name, -, rfl⟩ := Option.map_eq_some_iff.mp (Option.mem_toList.mp made)
      exact walk_.below a old
  · intro name mem t at_
    rcases List.mem_append.mp mem with old | new
    · exact walk_.single name old t at_
    · cases List.mem_singleton.mp new
      rw [at_] at own
      injection own with own
      have type : t.bacType = tran.bacType := congrArg Settings.bacType own
      rw [type]
      exact single

theorem Walked.transducers {names : List Name} (walk_ : Walked table walked s)
    (run : names.foldlM (numberTransducer localKeys devId) s = .ret s') : Walked table (walked ++ names) s' := by
  induction names generalizing s walked with
  | nil =>
      cases run
      rwa [List.append_nil]
  | cons name names ih =>
      rw [List.foldlM_cons] at run
      obtain ⟨next, here, rest⟩ := Outcome.bind_eq_ret.mp run
      have done := ih (walk_.transducer here) rest
      rwa [List.append_assoc] at done

theorem Walked.devices {devices : Dictionary Name Device} {nodes : List Name} (walk_ : Walked table walked s)
    (run : nodes.foldlM (numberDevice walk localKeys devices) s = .ret s') :
    Walked table (walked ++ nodes.flatMap fun _ => walk.1 table.keys) s' := by
  induction nodes generalizing s walked with
  | nil =>
      cases run
      rwa [List.flatMap_nil, List.append_nil]
  | cons node nodes ih =>
      rw [List.foldlM_cons] at run
      obtain ⟨next, here, rest⟩ := Outcome.bind_eq_ret.mp run
      rw [numberDevice] at here
      cases found : devices.get node with
      | none =>
          rw [found] at here
          cases here
      | some device =>
          rw [found, walk_.keys] at here
          have done := ih (walk_.transducers here) rest
          rw [List.append_assoc] at done
          exact done

variable {r r' : Repeater} {hosted : Hosted} {obj : AnalogValue} {names : List Name}

theorem names_of_addObject (there : r.devices.get devId = some hosted) (run : r.addObject devId obj = .ret r') :
    obj.objectName ≠ [] ∧ ∃ hosted', r'.devices.get devId = some hosted' ∧
      hosted'.objectNames.keys = hosted.objectNames.keys ++ [obj.objectName] := by
  simp only [Repeater.addObject, there] at run
  by_cases proper : obj.objectName = []
  · rw [if_pos proper] at run
    cases run
  · by_cases old : (hosted.objectNames.get obj.objectName).isSome
    · rw [if_neg proper, if_pos old] at run
      cases run
    · rw [if_neg proper, if_neg old] at run
      cases run
      rw [← hosted.objectNames.mem_keys] at old
      exact ⟨proper, _, Function.update_self .., Dictionary.keys_set_new old⟩

theorem addObject_ret (there : r.devices.get devId = some hosted) (proper : obj.objectName ≠ [])
    (new : obj.objectName ∉ hosted.objectNames.keys) : ∃ r', r.addObject devId obj = .ret r' := by
  rw [hosted.objectNames.mem_keys] at new
  simp only [Repeater.addObject, there, if_neg proper, if_neg new]
  exact ⟨_, rfl⟩

/-- The device is there for the names, and all are new. -/
def Repeater.Takes (r : Repeater) (devId : ℤ) (names : List Name) : Prop :=
  names ≠ [] → ∃ hosted, r.devices.get devId = some hosted ∧ (hosted.objectNames.keys ++ names).Nodup ∧ [] ∉ names

theorem Repeater.Takes.offer {name : Name} (takes : r.Takes devId (name :: names)) (objectName : obj.objectName = name) :
    ∃ r', offer r devId (some obj) = .ret r' ∧ r'.Takes devId names := by
  subst objectName
  obtain ⟨hosted, there, distinct, proper⟩ := takes (List.cons_ne_nil _ _)
  have own : obj.objectName ≠ [] := fun nil => proper (nil ▸ List.mem_cons_self)
  have new : obj.objectName ∉ hosted.objectNames.keys := fun old =>
    (List.nodup_append.mp distinct).2.2 _ old _ List.mem_cons_self rfl
  obtain ⟨r', run⟩ := addObject_ret there own new
  obtain ⟨-, hosted', there', keys⟩ := names_of_addObject there run
  refine ⟨r', run, fun _ => ⟨hosted', there', ?_, fun nil => proper (List.mem_cons_of_mem _ nil)⟩⟩
  rwa [keys, List.append_assoc]

theorem numberTransducers_ret (localKeys : List ℤ) (devId : ℤ) (walk_ : Walked table walked s)
    (present : ∀ name ∈ names, name ∈ table.keys)
    (single : ∀ name ∈ names, ∀ tran, table.get name = some tran → tran.bacType ≠ multiStateInput)
    (takes : s.repeater.Takes devId ((offered table names).map Prod.snd)) :
    ∃ s', names.foldlM (numberTransducer localKeys devId) s = .ret s' := by
  induction names generalizing s walked with
  | nil => exact ⟨s, rfl⟩
  | cons name names ih =>
      obtain ⟨here, present⟩ := List.forall_mem_cons.mp present
      obtain ⟨singleHere, single⟩ := List.forall_mem_cons.mp single
      rw [← walk_.keys, s.transducers.mem_keys] at here
      obtain ⟨tran, found⟩ := Option.isSome_iff_exists.mp here
      have own : (table.get name).map (·.toSettings) = some tran.toSettings := by
        rw [← walk_.settings, found]
        rfl
      have type : tran.bacType ≠ multiStateInput := by
        obtain ⟨t, at_, same⟩ := Option.map_eq_some_iff.mp own
        have eq : t.bacType = tran.bacType := congrArg Settings.bacType same
        exact eq ▸ singleHere t at_
      have at_ : Bacsox.analogAt table name = tran.analog := congrArg (Option.bind · Settings.analog) own
      obtain ⟨tran', -, -, eq⟩ := numberTransducer_eq localKeys devId found type
      obtain ⟨repeater, offered_, rest⟩ : ∃ repeater, offer s.repeater devId (tran.object s.i) = .ret repeater ∧
          repeater.Takes devId ((offered table names).map Prod.snd) := by
        rw [offered, List.filterMap_cons, at_] at takes
        rw [Transducer.object]
        cases analog : tran.analog with
        | none =>
            rw [analog] at takes
            exact ⟨s.repeater, rfl, takes⟩
        | some object =>
            rw [analog] at takes
            exact takes.offer rfl
      rw [offered_, Outcome.ret_bind] at eq
      rw [List.foldlM_cons, eq, Outcome.ret_bind]
      exact ih (walk_.transducer eq) present single rest

/-- The number that the counter has at a transducer of the only device. -/
def skip (id : ℤ) (k : ℕ) : ℤ := if 0 ≤ id ∧ id < k then k + 1 else k

theorem skipKeys_skip (id : ℤ) (k : ℕ) : skipKeys [id] 1 (skip id k) + 1 = skip id (k + 1) := by
  simp only [skipKeys, skip, List.mem_singleton]
  split_ifs <;> omega

/-- What has been done once the only device has walked some of its transducers. -/
structure Placed (node : Name) (id : ℤ) (walked : List Name) (s : Numbering) : Prop where
  next : s.i = skip id walked.length
  recorded : ∀ (j : ℕ) name, walked[j]? = some name →
    ∃ tran, s.transducers.get name = some tran ∧ tran.objectId + 1 = skip id (j + 1)
  placed : ∀ a ∈ s.added, ∃ j : ℕ, walked[j]? = some a.1 ∧ a.2.objectIdentifier.2 = skip id j
  named : ∃ hosted, s.repeater.devices.get id = some hosted ∧
    hosted.objectNames.keys = node :: s.added.map (·.2.objectName)
  proper : ∀ a ∈ s.added, a.2.objectName ≠ []

variable {node : Name} {id : ℤ}

theorem Placed.transducer (placed_ : Placed node id walked s) (new : key ∉ walked)
    (run : numberTransducer [id] id s key = .ret s') : Placed node id (walked ++ [key]) s' := by
  obtain ⟨tran, tran', found, -, -, number, repeater, taken, rfl⟩ := numberTransducer_eq_ret run
  have last : tran'.objectId + 1 = skip id (walked.length + 1) := by
    rw [number, placed_.next]
    exact skipKeys_skip id walked.length
  have behind : ∀ {j : ℕ} {name : Name}, walked[j]? = some name → (walked ++ [key])[j]? = some name :=
    fun at_ => (List.getElem?_append_left (List.getElem?_eq_some_iff.mp at_).1).trans at_
  obtain ⟨hosted, there, names⟩ := placed_.named
  refine ⟨?_, ?_, ?_, ?_, ?_⟩
  · rw [List.length_append, List.length_singleton]
    exact last
  · intro j name at_
    rw [Numbering.turn, Dictionary.get_set]
    by_cases here : name = key
    · subst here
      refine ⟨tran', Function.update_self .., ?_⟩
      rw [List.getElem?_append] at at_
      split at at_
      · exact (new (List.mem_of_getElem? at_)).elim
      · next le =>
          have zero : j - walked.length = 0 := by
            have lt := (List.getElem?_eq_some_iff.mp at_).1
            rw [List.length_singleton] at lt
            omega
          have eq : j = walked.length := by omega
          rw [eq]
          exact last
    · rw [Function.update_of_ne here]
      rw [List.getElem?_append] at at_
      split at at_
      · exact placed_.recorded j name at_
      · exact (here (List.mem_singleton.mp (List.mem_of_getElem? at_))).elim
  · intro a mem
    rcases mem_turn.mp mem with old | ⟨name, -, rfl⟩
    · obtain ⟨j, at_, number'⟩ := placed_.placed a old
      exact ⟨j, behind at_, number'⟩
    · exact ⟨walked.length, List.getElem?_concat_length, placed_.next⟩
  · rw [Transducer.object] at taken
    cases analog : tran.analog with
    | none =>
        rw [analog] at taken
        cases taken
        exact ⟨hosted, there, by simpa [Numbering.turn, Transducer.object, analog] using names⟩
    | some name =>
        rw [analog] at taken
        obtain ⟨-, hosted', there', names'⟩ := names_of_addObject there taken
        refine ⟨hosted', there', ?_⟩
        rw [names', names, Numbering.turn, Transducer.object, analog, List.map_append]
        rfl
  · intro a mem
    rcases mem_turn.mp mem with old | ⟨name, analog, rfl⟩
    · exact placed_.proper a old
    · rw [Transducer.object, analog] at taken
      exact (names_of_addObject there taken).1

theorem Placed.transducers (placed_ : Placed node id walked s) (distinct : (walked ++ names).Nodup)
    (run : names.foldlM (numberTransducer [id] id) s = .ret s') : Placed node id (walked ++ names) s' := by
  induction names generalizing s walked with
  | nil =>
      cases run
      rwa [List.append_nil]
  | cons name names ih =>
      rw [List.foldlM_cons] at run
      obtain ⟨next, here, rest⟩ := Outcome.bind_eq_ret.mp run
      have new : name ∉ walked := fun old =>
        (List.nodup_append.mp distinct).2.2 name old name List.mem_cons_self rfl
      have done := ih (placed_.transducer new here) (by rwa [List.append_assoc]) rest
      rwa [List.append_assoc] at done

variable {p : Parser} {device : Device} {object : Name}

theorem walked_start (table : Dictionary Name Transducer) (r : Repeater) : Walked table [] ⟨0, table, r, []⟩ where
  keys := rfl
  settings _ := rfl
  objects := rfl
  below _ mem := by cases mem
  increasing := .nil
  single _ mem := by cases mem

theorem placed_start {table : Dictionary Name Transducer} (there : r.devices.get id = some hosted)
    (names : hosted.objectNames.keys = [node]) : Placed node id [] ⟨0, table, r, []⟩ where
  next := by simp [skip]
  recorded j name at_ := by cases at_
  placed a mem := by cases mem
  named := ⟨hosted, there, names⟩
  proper a mem := by cases mem

theorem number_alone (devices : p.devices.get node = some device) (nodes : walk.1 p.devices.keys = [node]) :
    ∃ r hosted, r.devices.get device.bacnetId = some hosted ∧ hosted.objectNames.keys = [node] ∧
      p.number walk = (walk.1 p.transducers.keys).foldlM
        (numberTransducer [device.bacnetId] device.bacnetId) ⟨0, p.transducers, r, []⟩ := by
  let entry : LocalDevice := ⟨(.device, device.bacnetId), node, p.maxApduLen, p.segType, device.vendorId,
    [(.device, device.bacnetId)]⟩
  let localDevices : Dictionary ℤ LocalDevice := Dictionary.empty.set device.bacnetId entry
  have locals : [node].foldl p.addLocalDevice .empty = localDevices := by
    simp only [List.foldl_cons, List.foldl_nil, Parser.addLocalDevice, devices]
    rfl
  have found : localDevices.get device.bacnetId = some entry := Function.update_self ..
  refine ⟨⟨localDevices.map fun i device => ⟨device, Dictionary.empty.set device.objectName (.device i)⟩,
    localDevices.map fun i _ => .device i⟩, ⟨entry, Dictionary.empty.set node (.device device.bacnetId)⟩, ?_, rfl, ?_⟩
  · change (localDevices.get device.bacnetId).map _ = _
    rw [found]
    rfl
  · rw [Parser.number, nodes, locals]
    change numberDevice walk [device.bacnetId] p.devices _ node >>= Outcome.ret = _
    simp only [numberDevice, devices]
    exact bind_pure _

theorem addLocalDevices (nodes : List Name) (localDevices : Dictionary ℤ LocalDevice)
    (none_ : (nodes.foldl p.addLocalDevice localDevices).keys = []) :
    localDevices.keys = [] ∧ ∀ node ∈ nodes, p.devices.get node = none := by
  induction nodes generalizing localDevices with
  | nil => exact ⟨none_, fun node mem => by cases mem⟩
  | cons node nodes ih =>
      obtain ⟨here, rest⟩ := ih (p.addLocalDevice localDevices node) none_
      rw [Parser.addLocalDevice] at here
      cases found : p.devices.get node with
      | none =>
          rw [found] at here
          exact ⟨here, List.forall_mem_cons.mpr ⟨found, rest⟩⟩
      | some device =>
          rw [found] at here
          have mem : device.bacnetId ∈ ([] : List ℤ) := here ▸ Dictionary.mem_keys_set
          cases mem

/-- A run that returns has walked the table for each device. -/
theorem walked_of_number (run : p.number walk = .ret s) :
    (∃ node, node ∈ p.devices.keys) ∧
      Walked p.transducers ((walk.1 p.devices.keys).flatMap fun _ => walk.1 p.transducers.keys) s := by
  obtain ⟨r, made, run⟩ := Outcome.bind_eq_ret.mp run
  refine ⟨?_, (walked_start p.transducers r).devices run⟩
  by_contra none_
  have empty : p.devices.keys = [] := List.eq_nil_iff_forall_not_mem.mpr fun node mem => none_ ⟨node, mem⟩
  rw [empty, List.perm_nil.mp (walk.2 [])] at made
  cases made

/-- Where no transducer has an object, the walks go through. -/
theorem numberDevices_ret {devices : Dictionary Name Device} {nodes : List Name} (walk_ : Walked table walked s)
    (known : ∀ node ∈ nodes, (devices.get node).isSome)
    (single : ∀ name tran, table.get name = some tran → tran.bacType ≠ multiStateInput)
    (none_ : ∀ name, analogAt table name = none) :
    ∃ s', nodes.foldlM (numberDevice walk localKeys devices) s = .ret s' := by
  induction nodes generalizing s walked with
  | nil => exact ⟨s, rfl⟩
  | cons node nodes ih =>
      obtain ⟨here, known⟩ := List.forall_mem_cons.mp known
      obtain ⟨device, found⟩ := Option.isSome_iff_exists.mp here
      have nothing : offered table (walk.1 table.keys) = [] := by
        apply List.filterMap_eq_nil_iff.mpr
        intro name mem
        rw [none_]
        rfl
      obtain ⟨next, run⟩ := numberTransducers_ret localKeys device.bacnetId walk_
        (fun name mem => (walk.2 table.keys).mem_iff.mp mem) (fun name mem tran => single name tran)
        (fun some_ => (some_ (by rw [nothing]; rfl)).elim)
      have step : numberDevice walk localKeys devices s node = .ret next := by
        simp only [numberDevice, found, walk_.keys]
        exact run
      rw [List.foldlM_cons, step]
      exact ih (walk_.transducers run) known

theorem mem_offered {name : Name} :
    (name, object) ∈ offered table walked ↔ name ∈ walked ∧ analogAt table name = some object := by
  rw [offered, List.mem_filterMap]
  constructor
  · rintro ⟨other, mem, found⟩
    obtain ⟨object', at_, eq⟩ := Option.map_eq_some_iff.mp found
    cases eq
    exact ⟨mem, at_⟩
  · rintro ⟨mem, at_⟩
    exact ⟨name, mem, by rw [at_]; rfl⟩

/-- An object that the walk offers has been added. -/
theorem Walked.exists_added {name : Name} (walk_ : Walked table walked s) (mem : name ∈ walked)
    (at_ : Bacsox.analogAt table name = some object) : ∃ a ∈ s.added, a.1 = name ∧ a.2.objectName = object := by
  have offers : (name, object) ∈ s.added.map fun a => (a.1, a.2.objectName) :=
    walk_.objects ▸ mem_offered.mpr ⟨mem, at_⟩
  obtain ⟨a, member, eq⟩ := List.mem_map.mp offers
  cases eq
  exact ⟨a, member, rfl, rfl⟩

theorem Walked.analog_of_added {a : Name × AnalogValue} (walk_ : Walked table walked s) (mem : a ∈ s.added) :
    a.1 ∈ walked ∧ Bacsox.analogAt table a.1 = some a.2.objectName := by
  apply mem_offered.mp
  rw [← walk_.objects]
  exact List.mem_map_of_mem mem

/-- A transducer with an object keeps one number only, so there is one device. -/
theorem Walked.one_device {nodes names : List Name} {name : Name}
    (walk_ : Walked table (nodes.flatMap fun _ => names) s)
    (recorded : ∀ a ∈ s.added, ∃ tran, s.transducers.get a.1 = some tran ∧ a.2.objectIdentifier.2 = tran.objectId)
    (mem : name ∈ names) (at_ : Bacsox.analogAt table name = some object) : nodes.length ≤ 1 := by
  match nodes, walk_ with
  | [], _ => exact Nat.zero_le 1
  | [_], _ => exact le_rfl
  | _ :: _ :: rest, walk_ =>
      have objects := walk_.objects
      rw [List.flatMap_cons, List.flatMap_cons, offered_append, offered_append] at objects
      obtain ⟨early, late, split, first, second⟩ := List.map_eq_append_iff.mp objects
      have offers : (name, object) ∈ offered table names := mem_offered.mpr ⟨mem, at_⟩
      obtain ⟨a, inEarly, eqA⟩ := List.mem_map.mp (first ▸ offers)
      obtain ⟨b, inLate, eqB⟩ := List.mem_map.mp (second ▸ List.mem_append_left _ offers)
      have increasing := walk_.increasing
      rw [split] at increasing
      have lt := (List.pairwise_append.mp increasing).2.2 a inEarly b inLate
      obtain ⟨tranA, foundA, numberA⟩ := recorded a (split ▸ List.mem_append_left _ inEarly)
      obtain ⟨tranB, foundB, numberB⟩ := recorded b (split ▸ List.mem_append_right _ inLate)
      have same : a.1 = b.1 := (congrArg Prod.fst eqA).trans (congrArg Prod.fst eqB).symm
      rw [same, foundB] at foundA
      cases foundA
      rw [numberA, numberB] at lt
      exact (lt_irrefl _ lt).elim

/-- The numbers of the only device, where no object has its id. -/
theorem Placed.numbered {device : Device} (placed_ : Placed node device.bacnetId walked s) (walk_ : Walked table walked s)
    (position : ∀ (k : ℕ) name, (k : ℤ) = device.bacnetId → walked[k]? = some name →
      Bacsox.analogAt table name = none) :
    ∀ a ∈ s.added, a.2.objectIdentifier.2 ≠ device.bacnetId ∧
      ∃ tran, s.transducers.get a.1 = some tran ∧ a.2.objectIdentifier.2 = tran.objectId := by
  intro a mem
  obtain ⟨j, at_, number⟩ := placed_.placed a mem
  obtain ⟨tran, found, recorded⟩ := placed_.recorded j a.1 at_
  have elsewhere : (j : ℤ) ≠ device.bacnetId := by
    intro here
    have none_ := position j a.1 here at_
    rw [(walk_.analog_of_added mem).2] at none_
    cases none_
  refine ⟨?_, tran, found, ?_⟩
  · rw [number, skip]
    split_ifs <;> omega
  · have both : skip device.bacnetId j + 1 = skip device.bacnetId (j + 1) := by
      simp only [skip]
      split_ifs <;> omega
    omega

theorem Parser.Shows.analogAt (shows_ : p.Shows (config.readings fun node => (config.known.get node).isSome)
    (config.descriptions config.hasType)) (alike : config.transducer node device = config.shared) (name : Name) :
    Bacsox.analogAt p.transducers name = config.analog node device name := by
  rw [Bacsox.analogAt, shows_.shared, Config.analog, alike]

/-- The device of a configured object is alone. -/
theorem alone_of_numbered (devices : p.devices = config.known)
    (shows_ : p.Shows (config.readings fun node => (config.known.get node).isSome)
      (config.descriptions config.hasType))
    (alike : config.transducer node device = config.shared) (run : p.number walk = .ret s)
    (numbered : Numbered config s) (own : config.known.get node = some device) {name : Name}
    (analog : config.analog node device name = some object) : Alone walk config node device := by
  obtain ⟨-, walk_⟩ := walked_of_number run
  have walks : ∀ {name object}, config.analog node device name = some object →
      name ∈ walk.1 p.transducers.keys := by
    intro name object analog
    rw [← shows_.analogAt alike, Bacsox.analogAt, Option.bind_eq_some_iff] at analog
    obtain ⟨s', found, -⟩ := analog
    obtain ⟨tran, there, -⟩ := Option.map_eq_some_iff.mp found
    rw [(walk.2 _).mem_iff, p.transducers.mem_keys, there]
    rfl
  have few : (walk.1 p.devices.keys).length ≤ 1 :=
    walk_.one_device numbered.recorded (walks analog) ((shows_.analogAt alike name).trans analog)
  have only : ∀ other, (config.known.get other).isSome → other = node := by
    intro other there
    rw [devices, (walk.2 _).length_eq] at few
    have mem : node ∈ config.known.keys := (config.known.mem_keys node).mpr (own ▸ rfl)
    match keys : config.known.keys, few with
    | [], _ =>
        rw [keys] at mem
        cases mem
    | [first], _ =>
        have mem' := (config.known.mem_keys other).mpr there
        rw [keys] at mem mem'
        rw [List.mem_singleton.mp mem, List.mem_singleton.mp mem']
    | _ :: _ :: _, few => exact absurd few (by simp)
  have nodes : walk.1 p.devices.keys = [node] := by
    rw [devices, only_key only own]
    exact List.perm_singleton.mp (walk.2 [node])
  obtain ⟨r, hosted, there, names, eq⟩ := number_alone (devices ▸ own) nodes
  rw [eq] at run
  have distinct : (walk.1 p.transducers.keys).Nodup := (walk.2 _).nodup_iff.mpr p.transducers.distinct
  have placed_ := (placed_start there names).transducers distinct run
  have walk_' := (walked_start p.transducers r).transducers run
  rw [List.nil_append] at placed_ walk_'
  obtain ⟨hosted', -, names'⟩ := placed_.named
  have unlike := hosted'.objectNames.distinct
  rw [names', List.nodup_cons] at unlike
  refine ⟨only, ?_, ?_, ?_⟩
  · intro name object analog
    obtain ⟨a, mem, -, rfl⟩ := walk_'.exists_added (walks analog) ((shows_.analogAt alike name).trans analog)
    exact ⟨placed_.proper a mem, fun same => unlike.1 (same ▸ List.mem_map_of_mem mem)⟩
  · intro name other object analog analog'
    obtain ⟨a, mem, rfl, rfl⟩ := walk_'.exists_added (walks analog) ((shows_.analogAt alike name).trans analog)
    obtain ⟨b, mem', rfl, same⟩ := walk_'.exists_added (walks analog') ((shows_.analogAt alike other).trans analog')
    exact congrArg Prod.fst (List.inj_on_of_nodup_map unlike.2 mem mem' same.symm)
  · intro k name here at_
    rw [← shows_.keys_alone only own] at at_
    by_contra some_
    obtain ⟨object, analog⟩ := Option.ne_none_iff_exists'.mp some_
    obtain ⟨a, mem, rfl, -⟩ := walk_'.exists_added (walks analog) ((shows_.analogAt alike _).trans analog)
    obtain ⟨j, at', number⟩ := placed_.placed a mem
    have same : j = k :=
      (List.getElem?_inj (List.getElem?_eq_some_iff.mp at').1 distinct).mp (at'.trans at_.symm)
    refine numbered.apart a mem node device own ?_
    rw [number, same, skip]
    split_ifs <;> omega

theorem fits_of_numbered (run : init walk config = .ret s) (numbered : Numbered config s) : Fits walk config := by
  obtain ⟨p, parsed, run⟩ := Outcome.bind_eq_ret.mp run
  have last := fun some_ => last_of_parse parsed some_
  obtain ⟨p', parsed', devices, shows_⟩ := parse_ret last
  rw [parsed] at parsed'
  cases parsed'
  obtain ⟨⟨first, firstMem⟩, walk_⟩ := walked_of_number run
  have same : ∀ node other device device', config.known.get node = some device →
      config.known.get other = some device' → config.transducer node device = config.transducer other device' := by
    intro node other device device' own own'
    funext name
    rw [← numbered.transducers node device own, ← numbered.transducers other device' own']
  refine ⟨?_, last, same, ?_, ?_⟩
  · rw [devices, config.known.mem_keys] at firstMem
    exact ⟨first, Option.isSome_iff_exists.mp firstMem⟩
  · intro node device name settings own found
    rw [transducer_eq_shared same own, ← shows_.shared] at found
    obtain ⟨tran, there, rfl⟩ := Option.map_eq_some_iff.mp found
    refine walk_.single name ?_ tran there
    apply List.mem_flatMap.mpr
    refine ⟨first, (walk.2 _).mem_iff.mpr firstMem, (walk.2 _).mem_iff.mpr ?_⟩
    rw [p.transducers.mem_keys, there]
    rfl
  · intro node device name object own analog
    exact alone_of_numbered devices shows_ (transducer_eq_shared same own) run numbered own analog

theorem numbered_of_alone (devices : p.devices = config.known)
    (shows_ : p.Shows (config.readings fun node => (config.known.get node).isSome)
      (config.descriptions config.hasType)) (fits : Fits walk config) (own : config.known.get node = some device)
    (alone : Alone walk config node device) : ∃ s, p.number walk = .ret s ∧ Numbered config s := by
  have alike := transducer_eq_shared fits.same own
  have analogs := fun name => shows_.analogAt alike name
  have nodes : walk.1 p.devices.keys = [node] := by
    rw [devices, only_key alone.only own]
    exact List.perm_singleton.mp (walk.2 [node])
  obtain ⟨r, hosted, there, names, eq⟩ := number_alone (devices ▸ own) nodes
  have distinct : (walk.1 p.transducers.keys).Nodup := (walk.2 _).nodup_iff.mpr p.transducers.distinct
  have proper : ∀ object, object ∈ (offered p.transducers (walk.1 p.transducers.keys)).map Prod.snd →
      object ≠ [] ∧ object ≠ node := by
    intro object mem
    obtain ⟨⟨name, object⟩, offers, rfl⟩ := List.mem_map.mp mem
    exact alone.proper name object ((analogs name).symm.trans (mem_offered.mp offers).2)
  have objectNames : ((offered p.transducers (walk.1 p.transducers.keys)).map Prod.snd).Nodup := by
    rw [offered, List.map_filterMap]
    refine distinct.filterMap fun name other object mem mem' => ?_
    rw [Option.mem_def, Option.map_map, Option.map_eq_some_iff] at mem mem'
    obtain ⟨_, at_, rfl⟩ := mem
    obtain ⟨_, at', same⟩ := mem'
    rw [analogs] at at_ at'
    exact alone.distinct name other _ at_ (at'.trans (congrArg some same))
  obtain ⟨s, run⟩ := numberTransducers_ret [device.bacnetId] device.bacnetId (walked_start p.transducers r)
    (fun name mem => (walk.2 _).mem_iff.mp mem)
    (fun name mem tran at_ => fits.single node device name _ own (by rw [alike, ← shows_.shared, at_]; rfl))
    (fun _ => ⟨hosted, there, by
      rw [names]
      exact List.nodup_cons.mpr ⟨fun mem => (proper node mem).2 rfl, objectNames⟩,
      fun mem => (proper [] mem).1 rfl⟩)
  have placed_ := (placed_start there names).transducers distinct run
  have walk_ := (walked_start p.transducers r).transducers run
  rw [List.nil_append] at placed_ walk_
  have numbers := placed_.numbered walk_ fun k name here at_ => by
    rw [shows_.keys_alone alone.only own] at at_
    exact (analogs name).trans (alone.position k name here at_)
  refine ⟨s, eq.trans run, fun a mem => (numbers a mem).2, ?_, ?_, ?_⟩
  · apply List.pairwise_map.mpr
    exact walk_.increasing.imp fun lt => ne_of_lt lt
  · intro a mem other device' own'
    cases alone.only other (own' ▸ rfl)
    rw [own] at own'
    cases own'
    exact (numbers a mem).1
  · intro other device' own' name
    rw [walk_.settings, shows_.shared, transducer_eq_shared fits.same own']

theorem numbered_of_none (devices : p.devices = config.known)
    (shows_ : p.Shows (config.readings fun node => (config.known.get node).isSome)
      (config.descriptions config.hasType)) (fits : Fits walk config) (own : config.known.get node = some device)
    (none_ : ∀ name, config.analog node device name = none) :
    ∃ s, p.number walk = .ret s ∧ Numbered config s := by
  have alike := transducer_eq_shared fits.same own
  have analogs := fun name => (shows_.analogAt alike name).trans (none_ name)
  have nodes : ∀ other ∈ walk.1 p.devices.keys, (p.devices.get other).isSome := fun other mem =>
    (p.devices.mem_keys other).mp ((walk.2 _).mem_iff.mp mem)
  obtain ⟨r, made⟩ : ∃ r, Repeater.new ((walk.1 p.devices.keys).foldl p.addLocalDevice .empty) = .ret r := by
    rw [Repeater.new, if_neg]
    · exact ⟨_, rfl⟩
    · intro nothing
      have mem : node ∈ walk.1 p.devices.keys := by
        rw [(walk.2 _).mem_iff, p.devices.mem_keys, devices, own]
        rfl
      have missing := (addLocalDevices _ _ nothing).2 node mem
      rw [devices, own] at missing
      cases missing
  obtain ⟨s, run⟩ := numberDevices_ret (walked_start p.transducers r) nodes
    (fun name tran at_ => fits.single node device name _ own (by rw [alike, ← shows_.shared, at_]; rfl)) analogs
  have walk_ := (walked_start p.transducers r).devices run
  have nothing : s.added = [] := by
    apply List.eq_nil_iff_forall_not_mem.mpr
    intro a mem
    have analog := (walk_.analog_of_added mem).2
    rw [analogs] at analog
    cases analog
  refine ⟨s, (Outcome.bind_of_ret made).trans run, ?_, ?_, ?_, ?_⟩
  · rw [nothing]
    exact fun a mem => by cases mem
  · rw [nothing]
    exact List.nodup_nil
  · rw [nothing]
    exact fun a mem => by cases mem
  · intro other device' own' name
    rw [walk_.settings, shows_.shared, transducer_eq_shared fits.same own']

/-- The parser ends with all objects numbered as recorded exactly if it fits the configuration. -/
theorem numbered_iff (walk : Walk) (config : Config) :
    (∃ s, init walk config = .ret s ∧ Numbered config s) ↔ Fits walk config := by
  constructor
  · rintro ⟨s, run, numbered⟩
    exact fits_of_numbered run numbered
  · intro fits
    obtain ⟨p, parsed, devices, shows_⟩ := parse_ret fits.last
    obtain ⟨node, device, own⟩ := fits.device
    rw [init, parsed]
    by_cases objects : ∃ name object, config.analog node device name = some object
    · obtain ⟨name, object, analog⟩ := objects
      exact numbered_of_alone devices shows_ fits own (fits.alone node device name object own analog)
    · refine numbered_of_none devices shows_ fits own fun name => ?_
      by_contra some_
      obtain ⟨object, analog⟩ := Option.ne_none_iff_exists'.mp some_
      exact objects ⟨name, object, analog⟩

def idZero : Config where
  segmentationType := none
  maxApduLen := none
  devices := [⟨some ['n'], some 0, some ['d'], none, none⟩]
  regMaps := [⟨some ['n'], [⟨some ['t'], some 1⟩]⟩]
  types := [⟨some ['d'], [⟨some ['t'], some analogInput, none⟩]⟩]

theorem id_zero_taken : ¬ ∃ s, init ⟨fun keys => keys, .refl⟩ idZero = .ret s ∧ Numbered idZero s := by
  rintro ⟨s, run, numbered⟩
  have own : idZero.known.get ['n'] = some ⟨['n'], ['d'], ['d'], 0, 0⟩ := rfl
  have analog : idZero.analog ['n'] ⟨['n'], ['d'], ['d'], 0, 0⟩ ['t'] = some ['t'] := rfl
  have alone := (fits_of_numbered run numbered).alone _ _ _ _ own analog
  have none_ := alone.position 0 ['t'] rfl rfl
  rw [analog] at none_
  cases none_

end Mio.Tools.Bacsox
