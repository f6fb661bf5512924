import Mio.Lib.Keyed
import Mio.LibMio.DataItem

/-! Merging values into a data item: `mio_transducer_value_merge_publish`. -/
namespace Mio.LibMio.DataItem

/-- The texts of `curr` copied into `currRec`; none of them is tested for null. -/
def overwrite (currRec curr : TransducerValue) : Outcome Empty TransducerValue :=
  match curr.rawValue, curr.typedValue, curr.timestamp with
  | some rawValue, some typedValue, some timestamp =>
      .ret { currRec with
        rawValue := some rawValue
        typedValue := some typedValue
        timestamp := some timestamp
        type := curr.type }
  | _, _, _ => .abort "strdup"

/-- One turn of the inner loop. -/
def mergeValue (currRec curr : TransducerValue) : Outcome Empty TransducerValue :=
  match curr.name, currRec.name with
  | some given, some name => if given = name then overwrite currRec curr else .ret currRec
  | _, _ => .ret currRec

def mergeValues (stored transducers : List TransducerValue) : Outcome Empty (List TransducerValue) :=
  stored.mapM fun currRec => transducers.foldlM mergeValue currRec

def addValues (item : Option Node) : List TransducerValue → Outcome Empty (Option Node)
  | [] => .ret item
  | curr :: rest => do
      let (_, item) ←
        transducerValueAdd item none curr.name curr.typedValue curr.rawValue curr.timestamp false
      addValues item rest

/-- `mio_transducer_value_merge_publish` behind the query for the stored item: its result and the item
that it publishes. -/
def transducerValueMergePublish (query : Response Data) (transducers : List TransducerValue) :
    Outcome Empty (ℤ × Option Node) :=
  -- MIO_ERROR_UNEXPECTED_RESPONSE and MIO_ERROR_UNEXPECTED_PAYLOAD
  if query.responseType ≠ .packet then .ret (-26, none)
  else do
    let packet ← query.packet
    if packet.type ≠ .data then return (-27, none)
    else
      let merged ← mergeValues packet.payload.transducers transducers
      let item ← addValues (some itemDataNew) merged
      return (mioOk, item)

structure Named where
  type : TransducerValueType
  name : List Char
  typedValue : Option (List Char)
  rawValue : Option (List Char)
  timestamp : Option (List Char)

/-- An entry of an update, with all of its texts. -/
structure Given where
  type : TransducerValueType
  name : List Char
  typedValue : List Char
  rawValue : List Char
  timestamp : List Char

def Named.value (v : Named) : TransducerValue where
  type := v.type
  name := some v.name
  typedValue := v.typedValue
  rawValue := v.rawValue
  timestamp := v.timestamp

def Given.named (u : Given) : Named where
  type := u.type
  name := u.name
  typedValue := some u.typedValue
  rawValue := some u.rawValue
  timestamp := some u.timestamp

/-- The query has found these values. -/
def Found (stored : List Named) (query : Response Data) : Prop :=
  query.responseType = .packet ∧ ∃ packet, query.response = .packet packet ∧ packet.type = .data ∧
    packet.payload.transducers = stored.map Named.value

/-- The last update of the name, or what is stored. -/
def current (updates : List Given) (v : Named) : Named :=
  (latest (updates.map fun u => (u.name, u)) v.name).elim v Given.named

/-- An item is published from which every reader gets these values. -/
def Publishes (result : Outcome Empty (ℤ × Option Node)) (values : List TransducerValue) : Prop :=
  ∃ item, result = .ret (mioOk, some item) ∧ ∀ report, Xml.Reports [item] report →
    ∃ data, decode report = .ret data ∧ data.transducers = values

theorem current_append (updates : List Given) (u : Given) (v : Named) :
    current (updates ++ [u]) v = if u.name = v.name then u.named else current updates v := by
  unfold current
  rw [List.map_append, List.map_singleton]
  split
  · next same =>
      rw [← same, latest_append_self]
      rfl
  · next other => rw [latest_append_of_ne (Ne.symm other)]

@[simp] theorem current_name (updates : List Given) (v : Named) : (current updates v).name = v.name := by
  induction updates using List.reverseRecOn with
  | nil => rfl
  | append_singleton updates u ih =>
      rw [current_append]
      split
      · assumption
      · exact ih

theorem mergeValue_eq (v : Named) (u : Given) :
    mergeValue v.value u.named.value =
      .ret (if u.name = v.name then u.named.value else v.value) := by
  change (if u.name = v.name then _ else _) = _
  split
  · next same =>
      obtain ⟨type, name, typedValue, rawValue, timestamp⟩ := v
      obtain rfl : u.name = name := same
      rfl
  · rfl

theorem foldlM_mergeValue (updates : List Given) (v : Named) :
    (updates.map fun u => u.named.value).foldlM mergeValue v.value = .ret (current updates v).value := by
  induction updates using List.reverseRecOn with
  | nil => rfl
  | append_singleton updates u ih =>
      rw [List.map_append, List.foldlM_append, ih, Outcome.ret_bind, List.map_singleton,
        List.foldlM_cons, mergeValue_eq, current_append, current_name]
      split <;> rfl

theorem mergeValues_eq (stored : List Named) (updates : List Given) :
    mergeValues (stored.map Named.value) (updates.map fun u => u.named.value) =
      .ret ((stored.map (current updates)).map Named.value) := by
  rw [mergeValues, List.map_map]
  induction stored with
  | nil => rfl
  | cons v stored ih =>
      rw [List.map_cons, List.mapM_cons, foldlM_mergeValue, Outcome.ret_bind, ih]
      rfl

def Named.attributes (v : Named) : Xml.Attributes Attr :=
  ((Xml.Attributes.empty.set .id v.name).set .typedValue (v.typedValue.getD [])).setIfAny
    .rawValue v.rawValue |>.setIfAny .timestamp v.timestamp

/-- The element of a value that has a typed value. -/
def plainNode (v : Named) : Node := .tag .transducerValue v.attributes []

def plainItem (values : List Named) : Node :=
  .tag .item (Xml.Attributes.empty.set .id "data".toList)
    [.tag .data .empty (values.map plainNode)]

theorem plainItem_append (values : List Named) (v : Named) : plainItem (values ++ [v]) =
    .tag .item (Xml.Attributes.empty.set .id "data".toList)
      [.tag .data .empty (values.map plainNode ++ [plainNode v])] := by
  rw [plainItem, List.map_append]
  rfl

theorem getAttribute_plainNode (v : Named) : getAttribute .id (plainNode v) = some v.name := by
  change v.attributes.get .id = _
  rw [Named.attributes, Xml.Attributes.get_setIfAny, if_neg (by decide), Xml.Attributes.get_setIfAny, if_neg (by decide),
    Xml.Attributes.get_set_of_ne (by decide)]
  exact Xml.Attributes.get_set_self

theorem isValue_plainNode (name : List Char) (v : Named) :
    isValue name (plainNode v) = .ret (decide (v.name = name)) := by
  unfold isValue
  rw [getAttribute_plainNode]
  rfl

theorem search_plainNode {values : List Named} {name : List Char}
    (new : name ∉ values.map Named.name) : search (isValue name) (values.map plainNode) = .ret none := by
  induction values with
  | nil => rfl
  | cons v values ih =>
      rw [List.map_cons, List.mem_cons, not_or] at new
      have test : isValue name (plainNode v) = .ret false := by
        rw [isValue_plainNode, decide_eq_false (Ne.symm new.1)]
      rw [List.map_cons, search, test, Outcome.ret_bind, ih new.2]
      rfl

/-- A value with a name that is not there yet becomes an element of its own, and a plain one. -/
theorem transducerValueAdd_plain {values : List Named} {v : Named}
    (new : v.name ∉ values.map Named.name) :
    transducerValueAdd (some (plainItem values)) none (some v.name) v.typedValue v.rawValue v.timestamp
        false =
      if v.typedValue.isSome then .ret (mioOk, some (plainItem (values ++ [v])))
      else .abort "xmpp_strdup" := by
  have place : valuePlace (values.map plainNode) (some v.name) false =
      .ret (values.map plainNode, valueNew false, []) := by
    change search (isValue v.name) (values.map plainNode) >>= _ = _
    rw [search_plainNode new]
    rfl
  change (addToData (values.map plainNode) (some v.name) v.typedValue v.rawValue v.timestamp false >>=
    _) = _
  rw [addToData, place, Outcome.ret_bind]
  obtain ⟨type, name, typedValue, rawValue, timestamp⟩ := v
  cases typedValue with
  | none => rfl
  | some typedValue =>
      refine Eq.trans ?_ (if_pos rfl).symm
      rw [plainItem_append]
      rfl

theorem addValues_plain {values more : List Named} (distinct : ((values ++ more).map Named.name).Nodup) :
    addValues (some (plainItem values)) (more.map Named.value) =
      if ∀ v ∈ more, v.typedValue.isSome then .ret (some (plainItem (values ++ more)))
      else .abort "xmpp_strdup" := by
  induction more generalizing values with
  | nil => rw [if_pos (fun v mem => by cases mem), List.append_nil, List.map_nil, addValues]
  | cons v more ih =>
      have new : v.name ∉ values.map Named.name := by
        rw [List.map_append, List.nodup_append'] at distinct
        exact fun mem => distinct.2.2 mem (List.mem_map_of_mem List.mem_cons_self)
      rw [List.map_cons, addValues]
      change transducerValueAdd _ none (some v.name) v.typedValue v.rawValue v.timestamp false >>= _ = _
      rw [transducerValueAdd_plain new]
      by_cases typed : v.typedValue.isSome
      · rw [if_pos typed, Outcome.ret_bind]
        change addValues (some (plainItem (values ++ [v]))) _ = _
        rw [ih (by rwa [← List.append_cons]), ← List.append_cons]
        congr 1
        rw [List.forall_mem_cons, eq_iff_iff]
        exact (and_iff_right typed).symm
      · rw [if_neg typed, if_neg fun all => typed (all v List.mem_cons_self)]
        rfl

theorem receive_plain {v : Named} (typed : v.typedValue.isSome) (packet : Packet Data)
    (type : ResponseType) :
    receive ⟨type, .packet packet⟩ ⟨.transducerValue, v.attributes⟩ =
      .ret (added packet .packet [{ v.value with type := .value }]) := by
  change Outcome.ret (readValue .value v.attributes.entries packet) = _
  have read : v.attributes.entries.foldl valueAttribute { type := .value } =
      { v.value with type := .value } := by
    rw [foldl_valueAttribute (.refl v.attributes.entries)]
    obtain ⟨typedValue, is⟩ := Option.isSome_iff_exists.mp typed
    simp [Named.attributes, Named.value, Xml.Attributes.get_setIfAny, Xml.Attributes.get_set, is]
  rw [readValue, read]
  rfl

theorem elements_plain (values : List Named) : Xml.elements (values.map plainNode) =
    values.map fun v => ⟨.transducerValue, v.attributes⟩ := by
  induction values with
  | nil => rfl
  | cons v values ih => exact congrArg (_ :: ·) ih

theorem decode_plainItem {values : List Named} (typed : ∀ v ∈ values, v.typedValue.isSome)
    {report : List (Xml.Callback Tag Attr)} (reports : Xml.Reports [plainItem values] report) :
    decode report = .ret
      { numTransducers := values.length
        transducers := values.map fun v => { v.value with type := .value } } :=
  decode_item (elements_plain values) (fun v mem => receive_plain (typed v mem)) reports

theorem mergePublish_eq {stored : List Named} {query : Response Data} (found : Found stored query)
    (distinct : (stored.map Named.name).Nodup) (updates : List Given) :
    transducerValueMergePublish query (updates.map fun u => u.named.value) =
      if ∀ v ∈ stored.map (current updates), v.typedValue.isSome then
        .ret (mioOk, some (plainItem (stored.map (current updates))))
      else .abort "xmpp_strdup" := by
  obtain ⟨type, packet, holds, data, values⟩ := found
  have names : (stored.map (current updates)).map Named.name = stored.map Named.name := by
    rw [List.map_map]
    exact List.map_congr_left fun v _ => current_name updates v
  have added := @addValues_plain [] (stored.map (current updates)) (by rwa [List.nil_append, names])
  rw [List.nil_append] at added
  rw [transducerValueMergePublish, if_neg (not_not.mpr type), Response.packet, holds, Outcome.ret_bind,
    if_neg (not_not.mpr data), values, mergeValues_eq, Outcome.ret_bind]
  change addValues (some (plainItem [])) _ >>= _ = _
  rw [added]
  split <;> rfl

/-- Merged values are read back exactly if all of them are plain and have a typed value. -/
theorem merge_publish_iff {stored : List Named} (distinct : (stored.map Named.name).Nodup)
    {query : Response Data} (found : Found stored query) (updates : List Given) :
    Publishes (transducerValueMergePublish query (updates.map fun u => u.named.value))
        (stored.map fun v => (current updates v).value) ↔
      ∀ v ∈ stored, (current updates v).type = .value ∧ (current updates v).typedValue.isSome := by
  rw [mergePublish_eq found distinct, Publishes]
  simp only [List.forall_mem_map]
  constructor
  · rintro ⟨item, published, read⟩
    split at published
    · next typed =>
        injection published with same
        obtain ⟨-, rfl⟩ := Prod.mk.inj same |>.imp_right Option.some.inj
        obtain ⟨data, decoded, values⟩ := read _ (Xml.reports_report _)
        rw [decode_plainItem (List.forall_mem_map.mpr typed) (Xml.reports_report _)] at decoded
        injection decoded with is
        rw [← is, List.map_map, List.map_inj_left] at values
        exact fun v mem => ⟨(congrArg TransducerValue.type (values v mem)).symm, typed v mem⟩
    · cases published
  · intro plain
    have typed := fun v mem => (plain v mem).2
    rw [if_pos typed]
    refine ⟨_, rfl, fun report reports => ⟨_, decode_plainItem (List.forall_mem_map.mpr typed) reports, ?_⟩⟩
    rw [List.map_map]
    refine List.map_congr_left fun v mem => ?_
    have kind : (current updates v).value.type = .value := (plain v mem).1
    change { (current updates v).value with type := .value } = (current updates v).value
    rw [← kind]

def foundNew (stored : List Named) : Response Data :=
  ⟨.packet, .packet { type := .data, payload := { transducers := stored.map Named.value } }⟩

theorem found_new (stored : List Named) : Found stored (foundNew stored) := ⟨rfl, _, rfl, rfl, rfl⟩

def light (type : TransducerValueType) (typedValue : List Char) : Given :=
  ⟨type, "light".toList, typedValue, typedValue, "now".toList⟩

theorem merge_publish_light :
    Publishes
      (transducerValueMergePublish (foundNew [(light .value ['0']).named])
        [(light .value ['1']).named.value])
      [(light .value ['1']).named.value] := by
  have distinct : ([(light .value ['0']).named].map Named.name).Nodup := List.nodup_singleton _
  refine (merge_publish_iff distinct (found_new _) [light .value ['1']]).mpr ?_
  intro v mem
  obtain rfl := List.mem_singleton.mp mem
  exact ⟨rfl, rfl⟩

/-- A set value is published as a plain one. -/
theorem set_value_published_plain :
    Found [(light .setValue ['0']).named] (foundNew [(light .setValue ['0']).named]) ∧
      ¬ Publishes (transducerValueMergePublish (foundNew [(light .setValue ['0']).named]) [])
        [(light .setValue ['0']).named.value] := by
  refine ⟨found_new _, ?_⟩
  rintro ⟨item, published, read⟩
  obtain rfl : plainItem [(light .setValue ['0']).named] = item := by
    injection published with same
    injection same with _ same
    injection same
  obtain ⟨data, decoded, values⟩ := read _ (Xml.reports_report _)
  rw [decode_plainItem (fun v mem => by rw [List.mem_singleton.mp mem]; rfl)
    (Xml.reports_report _)] at decoded
  cases decoded
  exact absurd values (by decide)

end Mio.LibMio.DataItem
