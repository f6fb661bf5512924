import Mio.LibMio.DataItem
import Mio.LibMio.MetaReader
import Mio.LibMio.Schedule

/-! Replies to blocking requests: what each handler of `mio_handlers.c` leaves in the response. -/
namespace Mio.LibMio.Replies

abbrev Attributes := List (Attr × List Char)

/-- `mio_subscription_t`. -/
structure Subscription where
  subscription : List Char
  subId : List Char
deriving DecidableEq

/-- `mio_affiliation_type_t`. -/
inductive AffiliationType where
  | none_
  | owner
  | member
  | publisher
  | publishOnly
  | outcast
  | unknown
deriving DecidableEq

/-- `mio_affiliation_t`. -/
structure Affiliation where
  affiliation : List Char
  type : AffiliationType
deriving DecidableEq

/-- `mio_collection_t`. -/
structure Collection where
  node : Option (List Char)
  name : Option (List Char)
deriving DecidableEq

/-- `mio_node_type_t`. -/
inductive NodeType where
  | unknown
  | leaf
  | collection
  | event
deriving DecidableEq

/-- A list behind a packet gets one more entry; `mio_packet_payload_add` puts a first one there. -/
def payloadAdd {β : Type} (packet : Packet (List β)) (type : PacketType) (x : β) :
    Packet (List β) where
  type := match packet.payload with
    | [] => type
    | _ => packet.type
  numPayloads := packet.numPayloads + 1
  payload := packet.payload ++ [x]

/-- `_mio_subscription_add`. -/
def subscriptionAdd (packet : Packet (List Subscription)) (subscription subId : Option (List Char)) :
    Outcome Empty (Packet (List Subscription)) :=
  match subscription with
  | none => .abort "strlen"
  | some subscription => .ret (payloadAdd packet .subscriptions ⟨subscription, subId.getD []⟩)

/-- `_mio_affiliation_add`. -/
def affiliationAdd (packet : Packet (List Affiliation)) (affiliation : Option (List Char))
    (type : AffiliationType) : Outcome Empty (Packet (List Affiliation)) :=
  match affiliation with
  | none => .abort "strlen"
  | some affiliation => .ret (payloadAdd packet .affiliations ⟨affiliation, type⟩)

/-- `_mio_collection_add`. -/
def collectionAdd (packet : Packet (List Collection)) (node name : Option (List Char)) :
    Packet (List Collection) := payloadAdd packet .collections ⟨node, name⟩

def subscribeAttribute {α : Type} (r : Response α) : Attr × List Char → Response α
  | (.subscription, text) =>
      if text = "subscribed".toList then { r with responseType := .ok } else r
  | _ => r

/-- `mio_XMLstart_subscribe`. -/
def startSubscribe (r : Response Unit) (name : Tag) (attributes : Attributes) :
    Outcome Empty (Response Unit) :=
  match name with
  | .subscription => .ret (attributes.foldl subscribeAttribute r)
  | .error => .ret (errorHandler r attributes)
  | _ => .ret r

/-- What is no error is `MIO_RESPONSE_OK`. -/
def okUnlessError (r : Response Unit) : Response Unit :=
  if r.responseType ≠ .error then { r with responseType := .ok } else r

/-- `mio_XMLstart_error`. -/
def startError (r : Response Unit) (name : Tag) (attributes : Attributes) :
    Outcome Empty (Response Unit) :=
  .ret (okUnlessError (if name = .error then errorHandler r attributes else r))

/-- `curr_jid_node`. -/
def jidNodeAttribute (curr : Option (List Char)) : Attr × List Char → Option (List Char)
  | (.jid, text) => some text
  | (.node, text) => some text
  | _ => curr

/-- `curr_sub_id`. -/
def subIdAttribute (curr : Option (List Char)) : Attr × List Char → Option (List Char)
  | (.subid, text) => some text
  | _ => curr

/-- `mio_XMLstart_subscriptions_query`. -/
def startSubscriptions (r : Response (List Subscription)) (name : Tag) (attributes : Attributes) :
    Outcome Empty (Response (List Subscription)) :=
  match name with
  | .subscriptions => do
      let packet ← r.packet
      return ⟨.packet, .packet { packet with type := .subscriptions }⟩
  | .subscription => do
      let packet ← r.packet
      let packet ← subscriptionAdd packet (attributes.foldl jidNodeAttribute none)
        (attributes.foldl subIdAttribute none)
      return { r with response := .packet packet }
  | .error => .ret (errorHandler r attributes)
  | _ => .ret r

/-- `curr_aff`. -/
def affiliationAttribute (curr : AffiliationType) : Attr × List Char → AffiliationType
  | (.affiliation, text) =>
      if text = "none".toList then .none_
      else if text = "owner".toList then .owner
      else if text = "member".toList then .member
      else if text = "publisher".toList then .publisher
      else if text = "publish-only".toList then .publishOnly
      else if text = "outcast".toList then .outcast
      else curr
  | _ => curr

/-- `mio_XMLstart_acl_affiliations_query`. -/
def startAffiliations (r : Response (List Affiliation)) (name : Tag) (attributes : Attributes) :
    Outcome Empty (Response (List Affiliation)) :=
  match name with
  | .affiliations => do
      let packet ← r.packet
      return ⟨.packet, .packet { packet with type := .affiliations }⟩
  | .affiliation => do
      let packet ← r.packet
      let packet ← affiliationAdd packet (attributes.foldl jidNodeAttribute none)
        (attributes.foldl affiliationAttribute .unknown)
      return { r with response := .packet packet }
  | .error => .ret (errorHandler r attributes)
  | _ => .ret r

/-- `curr_node` and `curr_name`. -/
def collectionAttribute (curr : Collection) : Attr × List Char → Collection
  | (.node, text) => { curr with node := some text }
  | (.name, text) => { curr with name := some text }
  | _ => curr

/-- `mio_XMLstart_collection_children_query`. -/
def startCollectionChildren (r : Response (List Collection)) (name : Tag) (attributes : Attributes) :
    Outcome Empty (Response (List Collection)) :=
  match name with
  | .item => do
      let curr := attributes.foldl collectionAttribute ⟨none, none⟩
      let packet ← r.packet
      return { r with response := .packet (collectionAdd packet curr.node curr.name) }
  | .error => .ret (errorHandler r attributes)
  | _ => .ret r

/-- The response and what the character data handler of the collection parents makes use of. -/
structure ParentsReader where
  response : Response (List Collection)
  currElementName : Option Tag := none
  /-- What `payload` points to: null, the packet, or an error in its place. -/
  payload : Body Unit := .null
  /-- `mio_XMLString_collection_query` is the character data handler. -/
  listening : Bool := false

namespace ParentsReader

/-- An attribute of `field`; any but `var` takes the character data handler away. -/
def fieldAttribute (x : ParentsReader) : Attr × List Char → ParentsReader
  | (.var, text) =>
      if text = "pubsub#collection".toList then
        { x with
          payload := match x.response.response with
            | .null => .null
            | .error err => .error err
            | .packet packet => .packet { packet with payload := () }
          listening := true }
      else x
  | _ => { x with listening := false }

/-- `mio_XMLstart_collection_parents_query`. -/
def startElement (x : ParentsReader) (name : Tag) (attributes : Attributes) :
    Outcome Empty ParentsReader :=
  let x := { x with currElementName := some name }
  match name with
  | .field => .ret (attributes.foldl fieldAttribute x)
  | .error => .ret { x with response := errorHandler x.response attributes }
  | _ => .ret x

/-- `mio_XMLString_collection_query`, if it is installed. What it adds to a packet that the response
does not point to any more is seen by nobody. -/
def characterData (x : ParentsReader) (chunk : List Char) : Outcome Empty ParentsReader :=
  if x.listening then
    match x.currElementName, x.payload, x.response.response with
    | none, _, _ => .abort "strcmp"
    | some .value, .packet _, .packet packet =>
        .ret { x with response :=
          { x.response with response := .packet (collectionAdd packet (some chunk) none) } }
    | some .value, .packet _, _ => .ret x
    | some .value, _, _ => .abort "packet"
    | _, _, _ => .ret x
  else .ret x

end ParentsReader

def nodeTypeOf (text : List Char) : NodeType :=
  if text = "collection".toList then .collection
  else if text = "leaf".toList then .leaf
  else .unknown

/-- An attribute of `identity`. -/
def identityAttribute (r : Response (Option NodeType)) :
    Attr × List Char → Outcome Empty (Response (Option NodeType))
  | (.type, text) => do
      let _ ← r.packet
      return ⟨.packet, .packet ⟨.nodeType, 1, some (nodeTypeOf text)⟩⟩
  | _ => .ret r

/-- `mio_XMLstart_node_type_query`. -/
def startNodeType (r : Response (Option NodeType)) (name : Tag) (attributes : Attributes) :
    Outcome Empty (Response (Option NodeType)) :=
  match name with
  | .identity => attributes.foldlM identityAttribute r
  | .error => .ret (errorHandler r attributes)
  | _ => .ret r

/-- The response and the events that its packet holds. -/
structure ScheduleReader where
  response : Response Unit
  reader : Reader := {}

namespace ScheduleReader

/-- What `mio_XMLstart_schedule_query` does to the response and its packet. -/
def answered (r : Response Unit) (name : Tag) (attributes : Attributes) :
    Outcome Empty (Response Unit) :=
  match name with
  | .items => do
      let packet ← r.packet
      return ⟨.packet, .packet { packet with type := .schedule }⟩
  | .event => do
      let packet ← r.packet
      return { r with response := .packet { packet with numPayloads := packet.numPayloads + 1 } }
  | .error => .ret (errorHandler r attributes)
  | _ => .ret r

/-- `mio_XMLstart_schedule_query`. -/
def startElement (x : ScheduleReader) (name : Tag) (attributes : Attributes) :
    Outcome Empty ScheduleReader := do
  let response ← answered x.response name attributes
  let reader ← x.reader.startElement name attributes
  return ⟨response, reader⟩

def characterData (x : ScheduleReader) (chunk : List Char) : Outcome Empty ScheduleReader := do
  let reader ← x.reader.characterData chunk
  return { x with reader }

def answer (x : ScheduleReader) : Response (List Event) where
  responseType := x.response.responseType
  response := match x.response.response with
    | .null => .null
    | .error err => .error err
    | .packet packet => .packet { packet with payload := x.reader.events }

end ScheduleReader

def referenceKey : Attr → Option References.Key
  | .type => some .type
  | .metaType => some .metaType
  | .node => some .node
  | .name => some .name
  | _ => none

/-- `mio_XMLstart_references_query`. -/
def startReferences (r : Response (List References.Reference)) (name : Tag)
    (attributes : Attributes) : Outcome Empty (Response (List References.Reference)) :=
  match name with
  | .items => do
      let packet ← r.packet
      return ⟨.packet, .packet { packet with type := .references }⟩
  | .reference => do
      let packet ← r.packet
      let read := attributes.filterMap fun p => (referenceKey p.1).map (·, p.2)
      let ref := read.foldl References.readAttribute {}
      return { r with response := .packet { packet with
        numPayloads := packet.numPayloads + 1
        payload := packet.payload ++ [ref] } }
  | .error => .ret (errorHandler r attributes)
  | _ => .ret r

/-- The handlers that complete a blocking request. -/
inductive ReplyHandler where
  | error
  | subscribe
  | subscriptions
  | affiliations
  | collectionChildren
  | collectionParents
  | itemRecent
  | meta_
  | nodeType
  | schedule
  | references
deriving DecidableEq

/-- What the packet of a response holds; two handlers have no packet. -/
def ReplyHandler.Payload : ReplyHandler → Type
  | .error => Unit
  | .subscribe => Unit
  | .subscriptions => List Subscription
  | .affiliations => List Affiliation
  | .collectionChildren => List Collection
  | .collectionParents => List Collection
  | .itemRecent => Data
  | .meta_ => Option Meta
  | .nodeType => Option NodeType
  | .schedule => List Event
  | .references => List References.Reference

/-- `_mio_xml_parse`: beside what a handler does, its functions keep the parser's data. -/
def xmlParse {σ : Type} (keep : ParserData → Tag → ParserData) (h : Xml.Handler Tag Attr σ) (s : σ)
    (calls : List (Xml.Callback Tag Attr)) : Outcome Empty σ := do
  let both ← ((ParserData.handler keep).beside h).run ({}, s) calls
  return both.2

/-- A new packet in a response. -/
def packetNew {α : Type} (type : ResponseType) (payload : α) : Response α where
  responseType := type
  response := .packet { payload }

/-- What is done behind `_mio_xml_parse` by three handlers; the packet is the one from the start, which
the response may not point to any more. -/
def retype {α : Type} (type : PacketType) (r : Response α) : Response α where
  responseType := .packet
  response := match r.response with
    | .packet packet => .packet { packet with type }
    | body => body

/-- What the caller that waits gets from a report of the reply, given the type of the response before.
Where it gets nothing, the handler has not come back. -/
def ReplyHandler.answer (h : ReplyHandler) (type : ResponseType)
    (calls : List (Xml.Callback Tag Attr)) : Outcome Empty (Response h.Payload) :=
  match h with
  | .error => xmlParse ParserData.startElement { startElement := startError } ⟨type, .null⟩ calls
  | .subscribe => xmlParse ParserData.startElement { startElement := startSubscribe } ⟨type, .null⟩ calls
  | .subscriptions =>
      xmlParse ParserData.startElement { startElement := startSubscriptions } (packetNew type []) calls
  | .affiliations =>
      xmlParse ParserData.startElement { startElement := startAffiliations } (packetNew type []) calls
  | .collectionChildren => do
      let r ← xmlParse ParserData.startElement { startElement := startCollectionChildren }
        (packetNew type []) calls
      return retype .collections r
  | .collectionParents => do
      let x ← xmlParse ParserData.startShift
        { startElement := ParentsReader.startElement, characterData := ParentsReader.characterData }
        { response := packetNew type [] } calls
      return retype .collections x.response
  | .itemRecent => do
      let r ← xmlParse ParserData.startElement DataItem.handler
        { DataItem.dataNew with responseType := type } calls
      return { r with responseType := .packet }
  | .meta_ => do
      let x ← MetaReader.handler.run (MetaReader.start type) calls
      return x.response
  | .nodeType =>
      xmlParse ParserData.startElement { startElement := startNodeType } (packetNew type none) calls
  | .schedule => do
      let x ← xmlParse ParserData.shiftStart
        { startElement := ScheduleReader.startElement, characterData := ScheduleReader.characterData }
        { response := packetNew type () } calls
      return x.answer
  | .references =>
      xmlParse ParserData.startElement { startElement := startReferences } (packetNew type []) calls

end Mio.LibMio.Replies
