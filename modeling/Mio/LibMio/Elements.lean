import Mio.Lib.Xml

/-! The names of elements and attributes that `mio.c` writes and `mio_handlers.c` compares with. -/
namespace Mio.LibMio

/-- The elements of a recurrence, in the order in which they are written. -/
inductive Field where
  | freq
  | interval
  | count
  | until_
  | bymonth
  | byday
  | exdate
deriving DecidableEq

/-- The elements of a `geoloc` that hold numbers. -/
inductive GeolocNumber where
  | accuracy
  | alt
  | bearing
  | lat
  | lon
  | speed
deriving DecidableEq

/-- The elements of a `geoloc` that hold texts. -/
inductive GeolocText where
  | area
  | building
  | country
  | countrycode
  | datum
  | description
  | floor
  | locality
  | postalcode
  | region
  | room
  | street
  | text
  | timestamp
  | tzo
  | uri
deriving DecidableEq

inductive GeolocField where
  | number (n : GeolocNumber)
  | text (t : GeolocText)
deriving DecidableEq

inductive Tag where
  | error
  | items
  | item
  | data
  | device
  | transducerValue
  | transducerSetValue
  | meta_
  | transducer
  | map
  | property
  | geoloc
  | geolocField (f : GeolocField)
  | subscriptions
  | subscription
  | affiliations
  | affiliation
  | field
  | value
  | identity
  | schedule
  | event
  | recurrence
  | recurrenceField (f : Field)
  | reference
  | other (name : List Char)
deriving DecidableEq

/-- The field of a `geoloc` that an element is for. -/
def Tag.geolocField? : Tag → Option GeolocField
  | .geolocField f => some f
  | _ => none

/-- The field of a recurrence that an element is for. -/
def Tag.recurrenceField? : Tag → Option Field
  | .recurrenceField f => some f
  | _ => none

inductive Attr where
  | id
  | type
  | code
  | name
  | node
  | jid
  | subid
  | subscription
  | affiliation
  | var
  | value
  | info
  | time
  | timestamp
  | typedValue
  | rawValue
  | transducerName
  | transducerValue
  | metaType
  | interface
  | unit
  | manufacturer
  | serial
  | minValue
  | maxValue
  | resolution
  | precision
  | accuracy
  | xmlns
  | lang
  | other (name : List Char)
deriving DecidableEq

/-- `mio_stanza_t`. -/
abbrev MioStanza := Xml.Stanza Tag Attr

end Mio.LibMio
