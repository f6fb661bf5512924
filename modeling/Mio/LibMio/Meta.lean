import Mathlib.Logic.Function.Basic
import Mio.Lib.Scan
import Mio.LibMio.Elements
import Mio.LibMio.References

/-! Meta information as XML: `mio_meta_to_item` and `mio_geoloc_to_stanza` of `mio.c`. Numbers are read
and written as exact ones. -/
namespace Mio.LibMio

/-- `mio_geoloc_t`; a field that is absent is null. -/
@[ext] structure Geoloc where
  number : GeolocNumber → Option ℚ := fun _ => none
  text : GeolocText → Option (List Char) := fun _ => none

/-- `mio_enum_map_meta_t`. -/
structure EnumMapMeta where
  name : Option (List Char) := none
  value : Option (List Char) := none
deriving DecidableEq

/-- `mio_property_meta_t`. -/
structure PropertyMeta where
  name : Option (List Char) := none
  value : Option (List Char) := none
deriving DecidableEq

/-- `mio_transducer_meta_t`, as `mio_transducer_meta_new` makes it. -/
@[ext] structure TransducerMeta where
  name : Option (List Char) := none
  type : Option (List Char) := none
  interface : Option (List Char) := none
  manufacturer : Option (List Char) := none
  serial : Option (List Char) := none
  info : Option (List Char) := none
  unit : Option (List Char) := none
  minValue : Option (List Char) := none
  maxValue : Option (List Char) := none
  resolution : Option (List Char) := none
  precision : Option (List Char) := none
  accuracy : Option (List Char) := none
  enumeration : List EnumMapMeta := []
  geoloc : Option Geoloc := none
  properties : List PropertyMeta := []

/-- `mio_meta_t`, as `mio_meta_new` makes it. -/
@[ext] structure Meta where
  name : Option (List Char) := none
  timestamp : Option (List Char) := none
  info : Option (List Char) := none
  metaType : References.MetaType := .unknown
  geoloc : Option Geoloc := none
  transducers : List TransducerMeta := []
  properties : List PropertyMeta := []

inductive GeolocValue where
  | number (x : ℚ)
  | text (text : List Char)
deriving DecidableEq

namespace Geoloc

def get (g : Geoloc) : GeolocField → Option GeolocValue
  | .number n => (g.number n).map .number
  | .text t => (g.text t).map .text

def order : List GeolocField :=
  [.number .accuracy, .number .alt, .text .area, .number .bearing, .text .building, .text .country,
    .text .countrycode, .text .datum, .text .description, .text .floor, .number .lat,
    .text .locality, .number .lon, .text .postalcode, .text .region, .text .room, .number .speed,
    .text .street, .text .text, .text .timestamp, .text .tzo, .text .uri]

end Geoloc

/-- `_mio_geoloc_element_add_double` formats into 128 bytes. -/
def printValue : GeolocValue → List Char
  | .number x => (Scan.printLf x).take 127
  | .text text => text

/-- `_mio_geoloc_element_add_double` or `_mio_geoloc_element_add_string`. -/
def geolocElement (f : GeolocField) (value : GeolocValue) : MioStanza :=
  .tag (.geolocField f) .empty [.text (printValue value)]

/-- The field whose value is written for a field. -/
def Geoloc.written : GeolocField → GeolocField
  -- sic
  | .number .alt => .number .accuracy
  | f => f

def geolocElements (g : Geoloc) : List GeolocField → Outcome Empty (List MioStanza)
  | [] => .ret []
  | f :: fs =>
      match g.get f, g.get (Geoloc.written f) with
      | none, _ => geolocElements g fs
      | some _, some value => do
          let rest ← geolocElements g fs
          return geolocElement f value :: rest
      | some _, none => .abort "element_value"

/-- `mio_geoloc_to_stanza`. -/
def geolocToStanza (g : Geoloc) : Outcome Empty MioStanza := do
  let elements ← geolocElements g Geoloc.order
  return .tag .geoloc
    ((Xml.Attributes.empty.set .xmlns "http://jabber.org/protocol/geoloc".toList).set .lang "en".toList)
    elements

/-- The child for a `geoloc` that is not null. -/
def geolocChild : Option Geoloc → Outcome Empty (List MioStanza)
  | none => .ret []
  | some g => do
      let stanza ← geolocToStanza g
      return [stanza]

def mapToStanza (e : EnumMapMeta) : MioStanza :=
  .tag .map ((Xml.Attributes.empty.setIfAny .name e.name).setIfAny .value e.value) []

def propertyToStanza (p : PropertyMeta) : MioStanza :=
  .tag .property ((Xml.Attributes.empty.setIfAny .name p.name).setIfAny .value p.value) []

/-- The attributes of a transducer, which leave out `info`. -/
def TransducerMeta.attributes (t : TransducerMeta) : Xml.Attributes Attr :=
  let a := (Xml.Attributes.empty.setIfAny .accuracy t.accuracy).setIfAny .interface t.interface
  -- sic: under the test of the manufacturer, the interface is set first
  let a := if t.manufacturer.isSome then a.setIfAny .manufacturer t.interface else a
  let a := (a.setIfAny .manufacturer t.manufacturer).setIfAny .maxValue t.maxValue
  let a := (a.setIfAny .minValue t.minValue).setIfAny .name t.name
  let a := (a.setIfAny .precision t.precision).setIfAny .resolution t.resolution
  ((a.setIfAny .serial t.serial).setIfAny .type t.type).setIfAny .unit t.unit

/-- The interface that is set as the manufacturer is dereferenced. -/
def transducerAttributes (t : TransducerMeta) : Outcome Empty (Xml.Attributes Attr) :=
  if t.manufacturer.isSome ∧ t.interface = none then .abort "xmpp_strdup" else .ret t.attributes

def transducerToStanza (t : TransducerMeta) : Outcome Empty MioStanza := do
  let attributes ← transducerAttributes t
  let geoloc ← geolocChild t.geoloc
  return .tag .transducer attributes
    (geoloc ++ t.enumeration.map mapToStanza ++ t.properties.map propertyToStanza)

def transducersToStanzas : List TransducerMeta → Outcome Empty (List MioStanza)
  | [] => .ret []
  | t :: ts => do
      let first ← transducerToStanza t
      let rest ← transducersToStanzas ts
      return first :: rest

/-- A property of the meta is written only with a name and a value. -/
def PropertyMeta.whole (p : PropertyMeta) : Bool := p.name.isSome && p.value.isSome

/-- The `switch` on the type. -/
def typeAttribute : References.MetaType → Option (List Char)
  | .device => some "device".toList
  | .location => some "location".toList
  | .unknown => none

def metaAttributes (m : Meta) (type : List Char) : Xml.Attributes Attr :=
  let a := (Xml.Attributes.empty.set .xmlns "http://jabber.org/protocol/mio".toList).set .type type
  ((a.setIfAny .timestamp m.timestamp).setIfAny .info m.info).setIfAny .name m.name

/-- `mio_meta_to_item`; of an unknown type it gives null. -/
def metaToItem (m : Meta) : Outcome Empty (Option MioStanza) :=
  match typeAttribute m.metaType with
  | none => .ret none
  | some type => do
      let geoloc ← geolocChild m.geoloc
      let transducers ← transducersToStanzas m.transducers
      let properties := (m.properties.filter PropertyMeta.whole).map propertyToStanza
      return some (.tag .item (Xml.Attributes.empty.set .id "meta".toList)
        [.tag .meta_ (metaAttributes m type) (geoloc ++ transducers ++ properties)])

end Mio.LibMio
