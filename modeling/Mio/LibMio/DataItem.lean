import Mio.Lib.Latest
import Mio.Lib.Undefined
import Mio.LibMio.Data
import Mio.LibMio.Response

/-! Data items: `mio_item_transducer_value_add` and `mio_item_transducer_value_actuate_add` of `mio.c`
fill them, `mio_XMLstart_pubsub_data_receive` of `mio_handlers.c` reads them. -/
namespace Mio.LibMio.DataItem

abbrev Node := Xml.Stanza Tag Attr

/-- `mio_pubsub_item_data_new`. -/
def itemDataNew : Node :=
  .tag .item (Xml.Attributes.empty.set .id "data".toList) [.tag .data .empty []]

/-- `xmpp_stanza_get_name` in a `strcmp`. -/
def getName : Node → Outcome Empty Tag
  | .tag name _ _ => .ret name
  | .text _ => .abort "strcmp"

def getAttribute (key : Attr) : Node → Option (List Char)
  | .tag _ attributes _ => attributes.get key
  | .text _ => none

def getChildren : Node → List Node
  | .tag _ _ children => children
  | .text _ => []

def setChildren (children : List Node) : Node → Node
  | .tag name attributes _ => .tag name attributes children
  | .text text => .text text

def strcmp : Option (List Char) → Option (List Char) → Outcome Empty Bool := Mio.strcmp (.abort "strcmp")

/-- A loop over siblings: the first one that the test accepts, between those before and after it. -/
def search (test : Node → Outcome Empty Bool) :
    List Node → Outcome Empty (Option (List Node × Node × List Node))
  | [] => .ret none
  | s :: rest => do
      if ← test s then return some ([], s, rest)
      else
        match ← search test rest with
        | none => return none
        | some (before, found, after) => return some (s :: before, found, after)

def hasId (name : Tag) (id : Option (List Char)) (s : Node) : Outcome Empty Bool := do
  if (← getName s) = name then strcmp (getAttribute .id s) id else return false

/-- A value with the id, of either kind. -/
def isValue (id : List Char) (s : Node) : Outcome Empty Bool := do
  let name ← getName s
  if name = .transducerValue ∨ name = .transducerSetValue then
    match getAttribute .id s with
    | some found => return found = id
    | none => return false
  else return false

/-- The new element; only here the operation matters. -/
def valueNew (actuate : Bool) : Node :=
  .tag (if actuate then .transducerSetValue else .transducerValue) .empty []

/-- The end of `_mio_item_transducer_value_add`; the typed value is not tested for null. -/
def setValue (id typedVal rawVal timestamp : Option (List Char)) : Node → Outcome Empty Node
  | .tag name attributes children =>
      match typedVal with
      | none => .abort "xmpp_strdup"
      | some typedVal =>
          let attributes := (attributes.setIfAny .id id).set .typedValue typedVal
          .ret (.tag name ((attributes.setIfAny .rawValue rawVal).setIfAny .timestamp timestamp)
            children)
  | .text text => .ret (.text text)

/-- The branch of `_mio_item_transducer_value_add` for an item without `data`: a new value in a
transducer of a device, if these are there. -/
def addToDevice (children : List Node) (deviceID id typedVal rawVal timestamp : Option (List Char))
    (actuate : Bool) : Outcome Empty (ℤ × List Node) := do
  match ← search (hasId .device deviceID) children with
  | none => return (-1, children)
  | some (before, device, after) =>
      match ← search (hasId .transducer id) (getChildren device) with
      | none => return (-1, children)
      | some (left, transducer, right) => do
          let value ← setValue id typedVal rawVal timestamp (valueNew actuate)
          let transducer := setChildren (getChildren transducer ++ [value]) transducer
          return (mioOk, before ++ setChildren (left ++ transducer :: right) device :: after)

/-- The value with the id between its siblings, or a new one behind them all. -/
def valuePlace (children : List Node) (id : Option (List Char)) (actuate : Bool) :
    Outcome Empty (List Node × Node × List Node) :=
  match id with
  | none => .ret (children, valueNew actuate, [])
  | some id => do
      match ← search (isValue id) children with
      | none => return (children, valueNew actuate, [])
      | some place => return place

/-- The branch for `data`: the value with the id is overwritten. -/
def addToData (children : List Node) (id typedVal rawVal timestamp : Option (List Char))
    (actuate : Bool) : Outcome Empty (List Node) := do
  let (before, value, after) ← valuePlace children id actuate
  let value ← setValue id typedVal rawVal timestamp value
  return before ++ value :: after

/-- `_mio_item_transducer_value_add`: its result and the item. -/
def transducerValueAdd (item : Option Node) (deviceID id typedVal rawVal timestamp : Option (List Char))
    (actuate : Bool) : Outcome Empty (ℤ × Option Node) :=
  match item with
  | none => .ret (-1, none)
  | some item =>
      match getChildren item with
      | [] => .ret (-1, some item)
      | child :: rest => do
          let name ← getName child
          if name ≠ .data then
            let (result, children) ←
              addToDevice (child :: rest) deviceID id typedVal rawVal timestamp actuate
            return (result, some (setChildren children item))
          else
            let values ← addToData (getChildren child) id typedVal rawVal timestamp actuate
            return (mioOk, some (setChildren (setChildren values child :: rest) item))

/-- A call of one of the two wrappers, `mio_item_transducer_value_actuate_add` if `actuate`. -/
structure Call where
  deviceID : Option (List Char)
  id : List Char
  typedValue : List Char
  rawValue : List Char
  timestamp : List Char
  actuate : Bool

def Call.run (c : Call) (item : Option Node) : Outcome Empty (ℤ × Option Node) :=
  transducerValueAdd item c.deviceID (some c.id) (some c.typedValue) (some c.rawValue)
    (some c.timestamp) c.actuate

def addAll (item : Option Node) : List Call → Outcome Empty (Option Node)
  | [] => .ret item
  | c :: calls => do
      let (_, item) ← c.run item
      addAll item calls

/-- `mio_data_transducer_value_add`. -/
def valueAdd (data : Data) (type : TransducerValueType) (id : ℤ)
    (name typedValue rawValue timestamp : Option (List Char)) : Data :=
  { data with
    transducers := data.transducers ++ [{ type, id, name, typedValue, rawValue, timestamp }]
    numTransducers := data.numTransducers + 1 }

/-- An attribute of `items`. -/
def itemsAttribute (packet : Packet Data) : Attr × List Char → Packet Data
  | (.node, text) =>
      { packet with
        payload := { packet.payload with event := some text }
        numPayloads := packet.numPayloads + 1 }
  | _ => packet

/-- An attribute of a value. -/
def valueAttribute (t : TransducerValue) : Attr × List Char → TransducerValue
  | (.typedValue, text) => { t with typedValue := some text }
  | (.rawValue, text) => { t with rawValue := some text }
  | (.id, text) => { t with name := some text }
  | (.timestamp, text) => { t with timestamp := some text }
  | _ => t

def readValue (type : TransducerValueType) (attributes : List (Attr × List Char)) (packet : Packet Data) :
    Response Data :=
  let t := attributes.foldl valueAttribute { type }
  ⟨.packet, .packet
    { packet with
      payload := valueAdd packet.payload t.type t.id t.name t.typedValue t.rawValue t.timestamp }⟩

/-- `mio_XMLstart_pubsub_data_receive`. -/
def pubsubDataReceive (response : Response Data) (name : Tag) (attributes : List (Attr × List Char)) :
    Outcome Empty (Response Data) := do
  let packet ← response.packet
  match name with
  | .items => return { response with response := .packet (attributes.foldl itemsAttribute packet) }
  | .transducerValue => return readValue .value attributes packet
  | .transducerSetValue => return readValue .setValue attributes packet
  | _ => return response

def handler : Xml.Handler Tag Attr (Response Data) where
  startElement := pubsubDataReceive

/-- A packet for data, without any. -/
def dataNew : Response Data := { response := .packet { type := .data, payload := {} } }

def decode (calls : List (Xml.Callback Tag Attr)) : Outcome Empty Data := do
  let response ← handler.run dataNew calls
  let packet ← response.packet
  return packet.payload

def tagOf (actuate : Bool) : Tag := if actuate then .transducerSetValue else .transducerValue

def Call.attributes (c : Call) : Xml.Attributes Attr :=
  (((Xml.Attributes.empty.set .id c.id).set .typedValue c.typedValue).set .rawValue c.rawValue).set
    .timestamp c.timestamp

abbrev Table := List (List Char × Call × Call)

/-- The element of an id: named by the first call, filled by the last. -/
def valueOf (e : List Char × Call × Call) : Node := .tag (tagOf e.2.1.actuate) e.2.2.attributes []

def itemOf (table : Table) : Node :=
  .tag .item (Xml.Attributes.empty.set .id "data".toList) [.tag .data .empty (table.map valueOf)]

/-- The last call of an entry is one for its id. -/
def Own (table : Table) : Prop := ∀ e ∈ table, e.2.2.id = e.1

theorem Own.enter {table : Table} (own : Own table) (c : Call) : Own (enter c.id c table) := by
  induction table with
  | nil =>
      intro e mem
      rw [List.mem_singleton.mp mem]
  | cons first rest ih =>
      obtain ⟨named, others⟩ := List.forall_mem_cons.mp own
      obtain ⟨key, a, b⟩ := first
      rw [Mio.enter]
      split
      · next same => exact List.forall_mem_cons.mpr ⟨same.symm, others⟩
      · exact List.forall_mem_cons.mpr ⟨named, ih others⟩

theorem isValue_valueOf (id : List Char) (e : List Char × Call × Call) :
    isValue id (valueOf e) = .ret (e.2.2.id = id) := by
  obtain ⟨key, first, last⟩ := e
  cases eq : first.actuate <;> simp [isValue, valueOf, getName, getAttribute, tagOf, eq] <;> rfl

theorem search_value {table : Table} (own : Own table) (c : Call) :
    (∃ before e after, search (isValue c.id) (table.map valueOf) =
        .ret (some (before.map valueOf, valueOf e, after.map valueOf)) ∧
      enter c.id c table = before ++ (e.1, e.2.1, c) :: after) ∨
    search (isValue c.id) (table.map valueOf) = .ret none ∧
      enter c.id c table = table ++ [(c.id, c, c)] := by
  induction table with
  | nil => exact .inr ⟨rfl, rfl⟩
  | cons first rest ih =>
      obtain ⟨named, others⟩ := List.forall_mem_cons.mp own
      have test := isValue_valueOf c.id first
      rw [named] at test
      obtain ⟨key, a, b⟩ := first
      rw [List.map_cons, search, test, Outcome.ret_bind, enter]
      by_cases same : key = c.id
      · rw [if_pos same]
        exact .inl ⟨[], (key, a, b), rest, by simp [same], rfl⟩
      · rw [if_neg same]
        rcases ih others with ⟨before, e, after, found, entered⟩ | ⟨missing, entered⟩
        · refine .inl ⟨(key, a, b) :: before, e, after, ?_, by rw [entered]; rfl⟩
          simp [same, found]
        · refine .inr ⟨?_, by rw [entered]; rfl⟩
          simp [same, missing]

theorem run_itemOf {table : Table} (own : Own table) (c : Call) :
    c.run (some (itemOf table)) = .ret (mioOk, some (itemOf (enter c.id c table))) := by
  have added : addToData (table.map valueOf) (some c.id) (some c.typedValue) (some c.rawValue)
      (some c.timestamp) c.actuate = .ret ((enter c.id c table).map valueOf) := by
    rcases search_value own c with ⟨before, e, after, found, entered⟩ | ⟨missing, entered⟩
    · have place : valuePlace (table.map valueOf) (some c.id) c.actuate =
          .ret (before.map valueOf, valueOf e, after.map valueOf) := by
        change search (isValue c.id) (table.map valueOf) >>= _ = _
        rw [found]
        rfl
      rw [addToData, place, entered, List.map_append]
      rfl
    · have place : valuePlace (table.map valueOf) (some c.id) c.actuate =
          .ret (table.map valueOf, valueNew c.actuate, []) := by
        change search (isValue c.id) (table.map valueOf) >>= _ = _
        rw [missing]
        rfl
      rw [addToData, place, entered, List.map_append]
      rfl
  unfold Call.run
  change (addToData (table.map valueOf) (some c.id) (some c.typedValue) (some c.rawValue)
      (some c.timestamp) c.actuate >>= _) = _
  rw [added]
  rfl

def history (calls : List Call) : List (List Char × Call) := calls.map fun c => (c.id, c)

theorem addAll_itemOf {table : Table} (own : Own table) (calls : List Call) :
    addAll (some (itemOf table)) calls =
      .ret (some (itemOf ((history calls).foldl (fun t p => enter p.1 p.2 t) table))) := by
  induction calls generalizing table with
  | nil => rfl
  | cons c calls ih =>
      rw [addAll, run_itemOf own, Outcome.ret_bind]
      exact ih (own.enter c)

theorem own_tabulate (calls : List Call) : Own (tabulate (history calls)) := by
  have grows : ∀ table, Own table → Own ((history calls).foldl (fun t p => Mio.enter p.1 p.2 t) table) := by
    induction calls with
    | nil => exact fun _ own => own
    | cons c calls ih => exact fun _ own => ih _ (own.enter c)
  exact grows [] fun e mem => by cases mem

theorem addAll_eq (calls : List Call) :
    addAll (some itemDataNew) calls = .ret (some (itemOf (tabulate (history calls)))) :=
  @addAll_itemOf [] (fun e mem => by cases mem) calls

def kindOf (actuate : Bool) : TransducerValueType := if actuate then .setValue else .value

def Call.value (c : Call) : TransducerValue :=
  { type := kindOf c.actuate
    name := some c.id
    typedValue := some c.typedValue
    rawValue := some c.rawValue
    timestamp := some c.timestamp }

/-- The value that is read for an entry. -/
def valueRead (e : List Char × Call × Call) : TransducerValue :=
  { e.2.2.value with type := kindOf e.2.1.actuate }

section
variable {a : Xml.Attributes Attr} {reported : List (Attr × List Char)}
variable (order : reported.Perm a.entries)
include order

theorem foldl_valueAttribute (type : TransducerValueType) :
    reported.foldl valueAttribute { type } =
      { type
        name := a.get .id
        typedValue := a.get .typedValue
        rawValue := a.get .rawValue
        timestamp := a.get .timestamp } := by
  have field (get : TransducerValue → Option (List Char)) (key : Attr)
      (own : ∀ t text, get (valueAttribute t (key, text)) = some text)
      (others : ∀ t p, p.1 ≠ key → get (valueAttribute t p) = get t) (none : get { type } = none) :
      get (reported.foldl valueAttribute { type }) = a.get key := by
    have read := Xml.Attributes.foldl_field get key (g := id) own others order { type }
    rw [none, Option.or_none, Option.map_id] at read
    exact read
  apply TransducerValue.ext
  · exact Xml.Attributes.foldl_kept TransducerValue.type
      (fun t p => by rcases p with ⟨_ | _, text⟩ <;> rfl) reported { type }
  · exact Xml.Attributes.foldl_kept TransducerValue.id
      (fun t p => by rcases p with ⟨_ | _, text⟩ <;> rfl) reported { type }
  · exact field TransducerValue.name .id (fun t text => rfl)
      (fun t p ne => by rcases p with ⟨_ | _, text⟩ <;> first | rfl | exact absurd rfl ne) rfl
  · exact field TransducerValue.typedValue .typedValue (fun t text => rfl)
      (fun t p ne => by rcases p with ⟨_ | _, text⟩ <;> first | rfl | exact absurd rfl ne) rfl
  · exact field TransducerValue.rawValue .rawValue (fun t text => rfl)
      (fun t p ne => by rcases p with ⟨_ | _, text⟩ <;> first | rfl | exact absurd rfl ne) rfl
  · exact field TransducerValue.timestamp .timestamp (fun t text => rfl)
      (fun t p ne => by rcases p with ⟨_ | _, text⟩ <;> first | rfl | exact absurd rfl ne) rfl

theorem pubsubDataReceive_eq (response : Response Data) (name : Tag) :
    pubsubDataReceive response name reported = pubsubDataReceive response name a.entries := by
  have items (packet : Packet Data) :
      reported.foldl itemsAttribute packet = a.entries.foldl itemsAttribute packet := by
    have others : ∀ (packet : Packet Data) (p : Attr × List Char), p.1 ≠ .node →
        itemsAttribute packet p = packet := fun packet p ne => by
      rcases p with ⟨_ | _, text⟩ <;> first | rfl | exact absurd rfl ne
    rw [Xml.Attributes.foldl_only others order, Xml.Attributes.foldl_only others (.refl _)]
  have values (type : TransducerValueType) (packet : Packet Data) :
      readValue type reported packet = readValue type a.entries packet := by
    rw [readValue, readValue, foldl_valueAttribute order, foldl_valueAttribute (.refl a.entries)]
  unfold pubsubDataReceive
  simp only [items, values]

end

/-- One element with its attributes as they stand. -/
def receive (response : Response Data) (e : Xml.Element Tag Attr) : Outcome Empty (Response Data) :=
  pubsubDataReceive response e.name e.attributes.entries

/-- All that counts is the sequence of the elements. -/
theorem handler_run {ss : List Node} {report : List (Xml.Callback Tag Attr)}
    (reports : Xml.Reports ss report) (response : Response Data) :
    Xml.Alike Eq (handler.run response report) (Xml.walk receive response (Xml.elements ss)) := by
  apply Xml.Handler.follows _ _ _ reports rfl
  · rintro s _ rfl e reported order
    change Xml.Alike Eq (pubsubDataReceive s e.name reported) _
    rw [pubsubDataReceive_eq order]
    exact .refl _
  · rintro s _ rfl chunk
    exact .refl _
  · rintro s _ rfl name
    exact .refl _

/-- The response behind elements that add values. -/
def added (packet : Packet Data) (type : ResponseType) (values : List TransducerValue) : Response Data :=
  ⟨type, .packet { packet with
    payload := { packet.payload with
      transducers := packet.payload.transducers ++ values
      numTransducers := packet.payload.numTransducers + values.length } }⟩

/-- Elements that add one value each. -/
theorem receive_all {ι : Type} {element : ι → Xml.Element Tag Attr} {value : ι → TransducerValue}
    {is : List ι} (each : ∀ i ∈ is, ∀ packet type,
      receive ⟨type, .packet packet⟩ (element i) = .ret (added packet .packet [value i]))
    (packet : Packet Data) (type : ResponseType) :
    ∃ type', Xml.walk receive ⟨type, .packet packet⟩ (is.map element) =
      .ret (added packet type' (is.map value)) := by
  induction is generalizing packet type with
  | nil =>
      refine ⟨type, ?_⟩
      rw [added, List.map_nil, List.map_nil, List.append_nil, List.length_nil, Int.ofNat_zero, add_zero]
      rfl
  | cons i is ih =>
      obtain ⟨here, later⟩ := List.forall_mem_cons.mp each
      obtain ⟨type', walked⟩ := ih later { packet with
        payload := { packet.payload with
          transducers := packet.payload.transducers ++ [value i]
          numTransducers := packet.payload.numTransducers + 1 } } .packet
      refine ⟨type', ?_⟩
      rw [List.map_cons, Xml.walk, here packet type, Outcome.ret_bind]
      refine walked.trans ?_
      rw [added, added, List.append_assoc, List.singleton_append, List.map_cons, List.length_cons,
        Nat.cast_succ, add_comm ((is.map value).length : ℤ), add_assoc]

theorem receive_value (packet : Packet Data) (type : ResponseType) (e : List Char × Call × Call) :
    receive ⟨type, .packet packet⟩ ⟨tagOf e.2.1.actuate, e.2.2.attributes⟩ =
      .ret (added packet .packet [valueRead e]) := by
  obtain ⟨key, first, last⟩ := e
  cases eq : first.actuate <;> simp only [valueRead, tagOf, kindOf, eq] <;> rfl

theorem elements_values (table : Table) :
    Xml.elements (table.map valueOf) = table.map fun e => ⟨tagOf e.2.1.actuate, e.2.2.attributes⟩ := by
  induction table with
  | nil => rfl
  | cons e table ih => exact congrArg (_ :: ·) ih

/-- What is read of an item whose elements add one value each. -/
theorem decode_item {ι : Type} {node : ι → Node} {element : ι → Xml.Element Tag Attr}
    {value : ι → TransducerValue} {is : List ι}
    (elements : Xml.elements (is.map node) = is.map element)
    (each : ∀ i ∈ is, ∀ packet type,
      receive ⟨type, .packet packet⟩ (element i) = .ret (added packet .packet [value i]))
    {report : List (Xml.Callback Tag Attr)}
    (reports : Xml.Reports [.tag .item (Xml.Attributes.empty.set .id "data".toList)
      [.tag .data .empty (is.map node)]] report) :
    decode report = .ret { numTransducers := is.length, transducers := is.map value } := by
  have run := handler_run reports dataNew
  obtain ⟨type', walked⟩ := receive_all each { type := .data, payload := {} } .unknown
  have outer : Xml.walk receive dataNew (Xml.elements [.tag .item
        (Xml.Attributes.empty.set .id "data".toList) [.tag .data .empty (is.map node)]]) =
      Xml.walk receive dataNew (Xml.elements (is.map node) ++ [] ++ []) := rfl
  rw [List.append_nil, List.append_nil, elements] at outer
  obtain ⟨response, ran, rfl⟩ := run.ret_right (outer.trans walked)
  rw [decode, ran, Outcome.ret_bind]
  change Outcome.ret _ = _
  rw [List.nil_append, zero_add, List.length_map]

/-- An item is read back entry by entry. -/
theorem decode_itemOf {table : Table} {report : List (Xml.Callback Tag Attr)}
    (reports : Xml.Reports [itemOf table] report) :
    decode report =
      .ret { numTransducers := table.length, transducers := table.map valueRead } :=
  decode_item (elements_values table) (fun e _ packet type => receive_value packet type e) reports

/-- One value for each id, in the order of the first calls, as the last call gives it. -/
def Mirrors (calls : List Call) (data : Data) : Prop :=
  data.transducers.map some =
    (firsts (history calls)).map fun id => (latest (history calls) id).map Call.value

/-- For each id the first and the last call are of one kind. -/
def SameKind (calls : List Call) : Prop :=
  ∀ id first last, earliest (history calls) id = some first →
    latest (history calls) id = some last → first.actuate = last.actuate

theorem kindOf_inj {a b : Bool} : kindOf a = kindOf b ↔ a = b := by
  cases a <;> cases b <;> decide

theorem mirrors_iff (calls : List Call) :
    Mirrors calls
        { numTransducers := (tabulate (history calls)).length
          transducers := (tabulate (history calls)).map valueRead } ↔
      SameKind calls := by
  have got : (((tabulate (history calls)).map valueRead).map some) =
      (firsts (history calls)).map fun id => (ends (history calls) id).map valueRead := by
    have entries := congrArg (List.map (Option.map valueRead)) (tabulate_eq (history calls))
    rw [List.map_map, List.map_map] at entries
    rw [List.map_map]
    exact entries
  rw [Mirrors, got, List.map_inj_left]
  constructor
  · intro same id first last found read
    have mem : id ∈ firsts (history calls) :=
      mem_firsts.mpr (earliest_isSome.mp (Option.isSome_iff_exists.mpr ⟨first, found⟩))
    have eq := same id mem
    rw [ends, found, read] at eq
    have kinds := congrArg TransducerValue.type (Option.some.inj eq)
    exact kindOf_inj.mp kinds
  · intro same id mem
    obtain ⟨first, found⟩ := Option.isSome_iff_exists.mp (earliest_isSome.mpr (mem_firsts.mp mem))
    obtain ⟨last, read⟩ := Option.isSome_iff_exists.mp (latest_isSome.mpr (mem_firsts.mp mem))
    have kinds := same id first last found read
    rw [ends, found, read]
    change some _ = some _
    rw [valueRead, kinds]
    rfl

/-- Typed value, raw value and timestamp are always those of the last call. The kind is that of the
first one, as the element keeps its name. -/
theorem last_write_iff (calls : List Call) :
    ∃ item, addAll (some itemDataNew) calls = .ret (some item) ∧
      ∀ report, Xml.Reports [item] report →
        ∃ data, decode report = .ret data ∧ (Mirrors calls data ↔ SameKind calls) :=
  ⟨_, addAll_eq calls, fun _ reports => ⟨_, decode_itemOf reports, mirrors_iff calls⟩⟩

def valueThenSet : List Call :=
  [⟨none, "t".toList, "1".toList, "1".toList, "now".toList, false⟩,
    ⟨none, "t".toList, "2".toList, "2".toList, "later".toList, true⟩]

theorem set_value_read_as_value :
    ∃ item report data, addAll (some itemDataNew) valueThenSet = .ret (some item) ∧
      Xml.Reports [item] report ∧ decode report = .ret data ∧ ¬ Mirrors valueThenSet data := by
  have reports := Xml.reports_report [itemOf (tabulate (history valueThenSet))]
  refine ⟨_, _, _, addAll_eq valueThenSet, reports, decode_itemOf reports, ?_⟩
  rw [mirrors_iff]
  intro same
  exact absurd (same "t".toList _ _ rfl rfl) (by decide)

end Mio.LibMio.DataItem
