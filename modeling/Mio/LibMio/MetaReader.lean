import Mio.LibMio.Meta
import Mio.LibMio.ParserData
import Mio.LibMio.Response

/-! Meta information read back: `mio_XMLstart_pubsub_meta_receive` and `mio_XMLString_geoloc` of
`mio_handlers.c`. -/
namespace Mio.LibMio

/-- The object `payload` points to: one that the packet's meta reaches, or a stray one. -/
inductive Target where
  | null
  | meta_
  /-- The last transducer of the meta. -/
  | transducer
  | geoloc
  | transducerGeoloc
  | strayMeta
  | strayTransducer
  | strayGeoloc
deriving DecidableEq

/-- A pointer after another meta is put in the packet. -/
def Target.stray : Target → Target
  | .meta_ => .strayMeta
  | .transducer => .strayTransducer
  | .geoloc => .strayGeoloc
  | .transducerGeoloc => .strayGeoloc
  | target => target

/-- The response with its packet and the parser's data. -/
structure MetaReader where
  response : Response (Option Meta)
  parser : ParserData
  payload : Target
  /-- `mio_XMLString_geoloc` is the character data handler. -/
  listening : Bool

def updateLast (f : TransducerMeta → TransducerMeta) : List TransducerMeta → List TransducerMeta
  | [] => []
  | [t] => [f t]
  | t :: ts => t :: updateLast f ts

/-- An attribute of `meta`. -/
def readMeta (m : Meta) : Attr × List Char → Meta
  | (.name, text) => { m with name := some text }
  | (.timestamp, text) => { m with timestamp := some text }
  | (.info, text) => { m with info := some text }
  | (.type, text) =>
      { m with
        metaType :=
          if text = "location".toList then .location
          else if text = "device".toList then .device
          else m.metaType }
  | _ => m

/-- Whether an attribute of `meta` makes use of the meta. -/
def usesMeta : Attr × List Char → Bool
  | (.name, _) => true
  | (.timestamp, _) => true
  | (.info, _) => true
  | (.type, text) => text = "location".toList ∨ text = "device".toList
  | _ => false

def readTransducer (t : TransducerMeta) : Attr × List Char → TransducerMeta
  | (.name, text) => { t with name := some text }
  | (.type, text) => { t with type := some text }
  | (.interface, text) => { t with interface := some text }
  | (.unit, text) => { t with unit := some text }
  | (.manufacturer, text) => { t with manufacturer := some text }
  | (.serial, text) => { t with serial := some text }
  | (.info, text) => { t with info := some text }
  | (.minValue, text) => { t with minValue := some text }
  | (.maxValue, text) => { t with maxValue := some text }
  | (.resolution, text) => { t with resolution := some text }
  | (.precision, text) => { t with precision := some text }
  | (.accuracy, text) => { t with accuracy := some text }
  | _ => t

def readMap (e : EnumMapMeta) : Attr × List Char → EnumMapMeta
  | (.name, text) => { e with name := some text }
  | (.value, text) => { e with value := some text }
  | _ => e

def readProperty (p : PropertyMeta) : Attr × List Char → PropertyMeta
  | (.name, text) => { p with name := some text }
  | (.value, text) => { p with value := some text }
  | _ => p

/-- `mio_meta` where it is dereferenced. -/
def Packet.meta (packet : Packet (Option Meta)) : Outcome Empty Meta :=
  match packet.payload with
  | some m => .ret m
  | none => .abort "mio_meta"

namespace MetaReader

variable (x : MetaReader) (packet : Packet (Option Meta)) (attributes : List (Attr × List Char))

def setMeta (m : Meta) : MetaReader :=
  { x with response := { x.response with response := .packet { packet with payload := some m } } }

def itemsStart : MetaReader where
  response := ⟨.packet, .packet ⟨.meta_, packet.numPayloads + 1, some {}⟩⟩
  parser := x.parser
  payload := x.payload.stray
  listening := x.listening

def metaStart : Outcome Empty MetaReader :=
  match packet.payload with
  | some m =>
      .ret { x.setMeta packet (attributes.foldl readMeta m) with payload := .meta_, listening := false }
  | none =>
      if attributes.any usesMeta then .abort "mio_meta"
      else .ret { x with payload := .null, listening := false }

def transducerStart : Outcome Empty MetaReader := do
  let m ← packet.meta
  let t := attributes.foldl readTransducer {}
  if m.metaType ≠ .unknown then
    return { x.setMeta packet { m with transducers := m.transducers ++ [t] } with
      payload := .transducer, listening := false }
  else return { x with payload := .strayTransducer, listening := false }

def mapStart : Outcome Empty MetaReader := do
  let m ← packet.meta
  if m.transducers = [] then .abort "t_meta"
  else
    let e := attributes.foldl readMap {}
    let transducers :=
      updateLast (fun t => { t with enumeration := t.enumeration ++ [e] }) m.transducers
    return { x.setMeta packet { m with transducers } with listening := false }

/-- The property goes to what the parent's name and the pointer in hand say. -/
def propertyStart : Outcome Empty MetaReader :=
  let p := attributes.foldl readProperty {}
  match x.parser.parents with
  | [] => .ret { x with listening := false }
  | none :: _ => .abort "strcmp"
  | some .transducer :: _ =>
      match x.payload with
      | .transducer => do
          let m ← packet.meta
          let transducers :=
            updateLast (fun t => { t with properties := t.properties ++ [p] }) m.transducers
          return { x.setMeta packet { m with transducers } with listening := false }
      | .strayTransducer => .ret { x with listening := false }
      -- null, or an object of another type
      | _ => .abort "t_meta"
  | some _ :: _ => do
      let m ← packet.meta
      return { x.setMeta packet { m with properties := m.properties ++ [p] } with listening := false }

/-- The geoloc goes to what the previous name and the pointer in hand say. -/
def geolocStart : Outcome Empty MetaReader :=
  match x.parser.prevElementName with
  | none => .ret { x with payload := .strayGeoloc, listening := true }
  | some .transducer =>
      match x.payload with
      | .transducer => do
          let m ← packet.meta
          let transducers := updateLast (fun t => { t with geoloc := some {} }) m.transducers
          return { x.setMeta packet { m with transducers } with
            payload := .transducerGeoloc, listening := true }
      | .strayTransducer => .ret { x with payload := .strayGeoloc, listening := true }
      | _ => .abort "t_meta"
  | some _ =>
      match x.payload with
      | .meta_ => do
          let m ← packet.meta
          return { x.setMeta packet { m with geoloc := some {} } with
            payload := .geoloc, listening := true }
      | .strayMeta => .ret { x with payload := .strayGeoloc, listening := true }
      | _ => .abort "mio_meta"

/-- `mio_XMLstart_pubsub_meta_receive`. -/
def startElement (name : Tag) : Outcome Empty MetaReader := do
  let packet ← x.response.packet
  let x := { x with parser := x.parser.startElement name }
  match name with
  | .items => return x.itemsStart packet
  | .meta_ => x.metaStart packet attributes
  | .transducer => x.transducerStart packet attributes
  | .map => x.mapStart packet attributes
  | .property => x.propertyStart packet attributes
  | .geoloc => x.geolocStart packet
  | _ => return x

/-- What a chunk says of a field; a number that cannot be read stays as `malloc` gave it. -/
def readField : GeolocField → List Char → Option GeolocValue
  | .number _, chunk => (Scan.sscanf chunk).map .number
  | .text _, chunk => some (.text chunk)

def setField (g : Geoloc) : GeolocField → GeolocValue → Geoloc
  | .number n, .number x => { g with number := Function.update g.number n (some x) }
  | .text t, .text text => { g with text := Function.update g.text t (some text) }
  | _, _ => g

/-- One of the comparisons of `mio_XMLString_geoloc`, the one that applies. -/
def store (g : Geoloc) (f : GeolocField) (chunk : List Char) : Outcome Empty Geoloc :=
  match g.get f with
  | some _ => .ret g
  | none =>
      match readField f chunk with
      | some value => .ret (setField g f value)
      | none => .abort "sscanf"

def geoloc (m : Meta) : Target → Option Geoloc
  | .geoloc => m.geoloc
  | .transducerGeoloc => m.transducers.getLast?.bind TransducerMeta.geoloc
  | _ => none

def setGeoloc (m : Meta) (g : Geoloc) : Target → Meta
  | .geoloc => { m with geoloc := some g }
  | .transducerGeoloc =>
      { m with transducers := updateLast (fun t => { t with geoloc := some g }) m.transducers }
  | _ => m

/-- `mio_XMLString_geoloc`, if it is installed. -/
def characterData (chunk : List Char) : Outcome Empty MetaReader :=
  if x.listening then
    match x.parser.currElementName with
    | none => .abort "strcmp"
    | some (.geolocField f) =>
        if x.payload = .strayGeoloc then .ret x
        else do
          let packet ← x.response.packet
          let m ← packet.meta
          match geoloc m x.payload with
          | none => .abort "geoloc"
          | some g =>
              let g ← store g f chunk
              return x.setMeta packet (setGeoloc m g x.payload)
    | some _ => .ret x
  else .ret x

def endElement : Outcome Empty MetaReader := do
  let parser ← x.parser.endElement
  return { x with parser }

/-- As `mio_handler_meta_query` parses. -/
def handler : Xml.Handler Tag Attr MetaReader where
  startElement x name attributes := x.startElement attributes name
  characterData := characterData
  endElement x _ := x.endElement

/-- As `mio_handler_meta_query` starts, with a new packet in the response. -/
def start (responseType : ResponseType) : MetaReader where
  response := ⟨responseType, .packet { payload := none }⟩
  parser := {}
  payload := .null
  listening := true

end MetaReader

def decodeMeta (calls : List (Xml.Callback Tag Attr)) : Outcome Empty (Option Meta) := do
  let x ← MetaReader.handler.run (MetaReader.start .unknown) calls
  let packet ← x.response.packet
  return packet.payload

end Mio.LibMio
