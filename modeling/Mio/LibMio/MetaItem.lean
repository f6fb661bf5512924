import Mio.LibMio.Meta

/-! The item of a meta: when there is one, and what it holds. -/
namespace Mio.LibMio

namespace Geoloc

/-- An altitude is written only beside an accuracy. -/
def Writable (g : Geoloc) : Prop := (g.number .alt).isSome → (g.number .accuracy).isSome

/-- The elements that are written, with the values they get. -/
def writes (g : Geoloc) (fs : List GeolocField) : List (GeolocField × GeolocValue) :=
  fs.filterMap fun f => if (g.get f).isSome then (g.get (written f)).map (f, ·) else none

/-- The fields that are present. -/
def values (g : Geoloc) : List (GeolocField × GeolocValue) :=
  order.filterMap fun f => (g.get f).map (f, ·)

def stanza (g : Geoloc) : MioStanza :=
  .tag .geoloc
    ((Xml.Attributes.empty.set .xmlns "http://jabber.org/protocol/geoloc".toList).set .lang "en".toList)
    ((g.writes order).map fun p => geolocElement p.1 p.2)

theorem mem_order (f : GeolocField) : f ∈ order := by
  rcases f with n | t
  · cases n <;> decide
  · cases t <;> decide

theorem writable_iff {g : Geoloc} :
    g.Writable ↔ ∀ f ∈ order, (g.get f).isSome → (g.get (written f)).isSome := by
  constructor
  · intro writable f mem present
    by_cases alt : f = .number .alt
    · subst alt
      rw [get, Option.isSome_map] at present
      have accuracy := writable present
      rwa [written, get, Option.isSome_map]
    · have same : written f = f := by
        rcases f with n | t
        · cases n <;> first | rfl | exact absurd rfl alt
        · rfl
      rwa [same]
  · intro all present
    have accuracy := all (.number .alt) (mem_order _) (by rwa [get, Option.isSome_map])
    rwa [written, get, Option.isSome_map] at accuracy

end Geoloc

theorem geolocElements_eq_ret {g : Geoloc} {fs : List GeolocField} {ss : List MioStanza} :
    geolocElements g fs = .ret ss ↔
      (∀ f ∈ fs, (g.get f).isSome → (g.get (Geoloc.written f)).isSome) ∧
        ss = (g.writes fs).map fun p => geolocElement p.1 p.2 := by
  induction fs generalizing ss with
  | nil =>
      constructor
      · intro eq
        injection eq with eq
        exact ⟨fun f mem => (by cases mem), eq.symm⟩
      · rintro ⟨-, rfl⟩
        rfl
  | cons f fs ih =>
      rw [geolocElements, List.forall_mem_cons, Geoloc.writes, List.filterMap_cons]
      cases present : g.get f with
      | none => simpa [Geoloc.writes] using ih
      | some old =>
          cases source : g.get (Geoloc.written f) with
          | none => simp
          | some value =>
              simp only [Outcome.bind_eq_ret, ih, Option.isSome_some, if_true, Option.map_some,
                forall_const, true_and, List.map_cons]
              constructor
              · rintro ⟨rest, ⟨all, rfl⟩, eq⟩
                injection eq with eq
                exact ⟨all, eq.symm⟩
              · rintro ⟨all, rfl⟩
                exact ⟨_, ⟨all, rfl⟩, rfl⟩

theorem geolocToStanza_eq_ret {g : Geoloc} {s : MioStanza} :
    geolocToStanza g = .ret s ↔ g.Writable ∧ s = g.stanza := by
  rw [geolocToStanza, Outcome.bind_eq_ret, Geoloc.writable_iff]
  constructor
  · rintro ⟨ss, elements, eq⟩
    obtain ⟨all, rfl⟩ := geolocElements_eq_ret.mp elements
    injection eq with eq
    exact ⟨all, eq.symm⟩
  · rintro ⟨all, rfl⟩
    exact ⟨_, geolocElements_eq_ret.mpr ⟨all, rfl⟩, rfl⟩

theorem geolocChild_eq_ret {g : Option Geoloc} {ss : List MioStanza} :
    geolocChild g = .ret ss ↔ (∀ h ∈ g, h.Writable) ∧ ss = (g.map Geoloc.stanza).toList := by
  cases g with
  | none =>
      constructor
      · intro eq
        injection eq with eq
        exact ⟨fun h mem => (by cases mem), eq.symm⟩
      · rintro ⟨-, rfl⟩
        rfl
  | some g =>
      rw [geolocChild, Outcome.bind_eq_ret]
      constructor
      · rintro ⟨s, stanza, eq⟩
        obtain ⟨writable, rfl⟩ := geolocToStanza_eq_ret.mp stanza
        injection eq with eq
        exact ⟨fun h mem => Option.some.inj mem ▸ writable, eq.symm⟩
      · rintro ⟨all, rfl⟩
        exact ⟨_, geolocToStanza_eq_ret.mpr ⟨all g rfl, rfl⟩, rfl⟩

namespace TransducerMeta

/-- A manufacturer is written only beside an interface. -/
def Writable (t : TransducerMeta) : Prop :=
  (t.manufacturer.isSome → t.interface.isSome) ∧ ∀ g ∈ t.geoloc, g.Writable

def children (t : TransducerMeta) : List MioStanza :=
  (t.geoloc.map Geoloc.stanza).toList ++ t.enumeration.map mapToStanza ++
    t.properties.map propertyToStanza

def stanza (t : TransducerMeta) : MioStanza := .tag .transducer t.attributes t.children

end TransducerMeta

theorem transducerAttributes_eq_ret {t : TransducerMeta} {a : Xml.Attributes Attr} :
    transducerAttributes t = .ret a ↔
      (t.manufacturer.isSome → t.interface.isSome) ∧ a = t.attributes := by
  unfold transducerAttributes
  by_cases null : t.manufacturer.isSome ∧ t.interface = none
  · rw [if_pos null]
    simp [null]
  · have writable : t.manufacturer.isSome → t.interface.isSome := fun present =>
      Option.isSome_iff_ne_none.mpr fun none => null ⟨present, none⟩
    rw [if_neg null]
    constructor
    · intro eq
      injection eq with eq
      exact ⟨writable, eq.symm⟩
    · rintro ⟨-, rfl⟩
      rfl

theorem transducerToStanza_eq_ret {t : TransducerMeta} {s : MioStanza} :
    transducerToStanza t = .ret s ↔ t.Writable ∧ s = t.stanza := by
  rw [transducerToStanza, Outcome.bind_eq_ret]
  constructor
  · rintro ⟨a, attributes, eq⟩
    obtain ⟨ss, geoloc, eq⟩ := Outcome.bind_eq_ret.mp eq
    obtain ⟨named, rfl⟩ := transducerAttributes_eq_ret.mp attributes
    obtain ⟨writable, rfl⟩ := geolocChild_eq_ret.mp geoloc
    injection eq with eq
    exact ⟨⟨named, writable⟩, eq.symm⟩
  · rintro ⟨⟨named, writable⟩, rfl⟩
    refine ⟨_, transducerAttributes_eq_ret.mpr ⟨named, rfl⟩, ?_⟩
    exact Outcome.bind_eq_ret.mpr ⟨_, geolocChild_eq_ret.mpr ⟨writable, rfl⟩, rfl⟩

theorem transducersToStanzas_eq_ret {ts : List TransducerMeta} {ss : List MioStanza} :
    transducersToStanzas ts = .ret ss ↔
      (∀ t ∈ ts, t.Writable) ∧ ss = ts.map TransducerMeta.stanza := by
  induction ts generalizing ss with
  | nil =>
      constructor
      · intro eq
        injection eq with eq
        exact ⟨fun t mem => (by cases mem), eq.symm⟩
      · rintro ⟨-, rfl⟩
        rfl
  | cons t ts ih =>
      rw [transducersToStanzas, Outcome.bind_eq_ret, List.forall_mem_cons]
      constructor
      · rintro ⟨s, first, eq⟩
        obtain ⟨rest, others, eq⟩ := Outcome.bind_eq_ret.mp eq
        obtain ⟨writable, rfl⟩ := transducerToStanza_eq_ret.mp first
        obtain ⟨all, rfl⟩ := ih.mp others
        injection eq with eq
        exact ⟨⟨writable, all⟩, eq.symm⟩
      · rintro ⟨⟨writable, all⟩, rfl⟩
        refine ⟨_, transducerToStanza_eq_ret.mpr ⟨writable, rfl⟩, ?_⟩
        exact Outcome.bind_eq_ret.mpr ⟨_, ih.mpr ⟨all, rfl⟩, rfl⟩

namespace Meta

def Writable (m : Meta) : Prop :=
  (∀ g ∈ m.geoloc, g.Writable) ∧ ∀ t ∈ m.transducers, t.Writable

def children (m : Meta) : List MioStanza :=
  (m.geoloc.map Geoloc.stanza).toList ++ m.transducers.map TransducerMeta.stanza ++
    (m.properties.filter PropertyMeta.whole).map propertyToStanza

def item (m : Meta) (type : List Char) : MioStanza :=
  .tag .item (Xml.Attributes.empty.set .id "meta".toList)
    [.tag .meta_ (metaAttributes m type) m.children]

end Meta

theorem metaToItem_eq_ret {m : Meta} {type : List Char} (known : typeAttribute m.metaType = some type)
    {s : MioStanza} : metaToItem m = .ret (some s) ↔ m.Writable ∧ s = m.item type := by
  rw [metaToItem, known]
  change (geolocChild m.geoloc >>= _) = _ ↔ _
  rw [Outcome.bind_eq_ret]
  constructor
  · rintro ⟨geoloc, first, eq⟩
    obtain ⟨transducers, others, eq⟩ := Outcome.bind_eq_ret.mp eq
    obtain ⟨writable, rfl⟩ := geolocChild_eq_ret.mp first
    obtain ⟨all, rfl⟩ := transducersToStanzas_eq_ret.mp others
    injection eq with eq
    exact ⟨⟨writable, all⟩, (Option.some.inj eq).symm⟩
  · rintro ⟨⟨writable, all⟩, rfl⟩
    refine ⟨_, geolocChild_eq_ret.mpr ⟨writable, rfl⟩, ?_⟩
    exact Outcome.bind_eq_ret.mpr ⟨_, transducersToStanzas_eq_ret.mpr ⟨all, rfl⟩, rfl⟩

end Mio.LibMio
