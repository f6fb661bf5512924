import Mio.LibMio.MetaItem
import Mio.LibMio.MetaReader

/-! What is read of the fields of a geoloc and of the attributes of an element. -/
namespace Mio.LibMio

def GeolocField.Fits : GeolocField → GeolocValue → Prop
  | .number _, .number _ => True
  | .text _, .text _ => True
  | _, _ => False

namespace Geoloc

variable {g h : Geoloc} {f : GeolocField} {value : GeolocValue}

theorem ext_get (same : ∀ f, g.get f = h.get f) : g = h := by
  have numbers : Function.Injective GeolocValue.number := fun _ _ eq => GeolocValue.number.inj eq
  have texts : Function.Injective GeolocValue.text := fun _ _ eq => GeolocValue.text.inj eq
  ext1
  · funext n
    exact Option.map_injective numbers (same (.number n))
  · funext t
    exact Option.map_injective texts (same (.text t))

theorem get_fits (present : g.get f = some value) : f.Fits value := by
  rcases f with n | t
  · obtain ⟨x, -, rfl⟩ := Option.map_eq_some_iff.mp present
    trivial
  · obtain ⟨text, -, rfl⟩ := Option.map_eq_some_iff.mp present
    trivial

theorem values_keys (g : Geoloc) :
    g.values.map Prod.fst = order.filter fun f => (g.get f).isSome :=
  keys_filterMap g.get order

theorem values_distinct (g : Geoloc) : (g.values.map Prod.fst).Nodup := by
  rw [values_keys]
  exact List.Nodup.filter _ (by decide)

theorem lookup_values (g : Geoloc) (f : GeolocField) : g.values.lookup f = g.get f := by
  rw [values, lookup_filterMap, if_pos (mem_order f)]

end Geoloc

namespace MetaReader

variable {g h : Geoloc} {f : GeolocField} {value : GeolocValue} {chunk : List Char}

theorem readField_fits (read : readField f chunk = some value) : f.Fits value := by
  rcases f with n | t
  · obtain ⟨x, -, rfl⟩ := Option.map_eq_some_iff.mp read
    trivial
  · cases read
    trivial

theorem get_setField (fits : f.Fits value) (other : GeolocField) :
    (setField g f value).get other = if other = f then some value else g.get other := by
  rcases f with n | t <;> rcases value with x | text <;> first | exact fits.elim | skip
  · rcases other with m | t
    · by_cases same : m = n
      · subst same
        simp [setField, Geoloc.get]
      · simp [setField, Geoloc.get, same]
    · rfl
  · rcases other with n | s
    · rfl
    · by_cases same : s = t
      · subst same
        simp [setField, Geoloc.get]
      · simp [setField, Geoloc.get, same]

/-- A geoloc after fields with their first chunks. -/
def storeAll (g : Geoloc) : List (GeolocField × List Char) → Outcome Empty Geoloc
  | [] => .ret g
  | (f, chunk) :: rest => do
      let g ← store g f chunk
      storeAll g rest

def readings (firsts : List (GeolocField × List Char)) :
    List (GeolocField × Option GeolocValue) :=
  firsts.map fun p => (p.1, readField p.1 p.2)

def known (vs : List (GeolocField × GeolocValue)) : List (GeolocField × Option GeolocValue) :=
  vs.map fun p => (p.1, some p.2)

def setAll (g : Geoloc) (vs : List (GeolocField × GeolocValue)) : Geoloc :=
  vs.foldl (fun g p => setField g p.1 p.2) g

theorem storeAll_eq_ret {firsts : List (GeolocField × List Char)}
    (distinct : (firsts.map Prod.fst).Nodup) (new : ∀ f ∈ firsts.map Prod.fst, g.get f = none) :
    storeAll g firsts = .ret h ↔ ∃ vs, readings firsts = known vs ∧ h = setAll g vs := by
  induction firsts generalizing g with
  | nil =>
      constructor
      · intro eq
        injection eq with eq
        exact ⟨[], rfl, eq.symm⟩
      · rintro ⟨vs, none, rfl⟩
        rw [List.map_eq_nil_iff.mp none.symm]
        rfl
  | cons p firsts ih =>
      obtain ⟨f, chunk⟩ := p
      rw [List.map_cons, List.nodup_cons] at distinct
      rw [List.map_cons, List.forall_mem_cons] at new
      rw [storeAll, store, new.1]
      cases read : readField f chunk with
      | none =>
          constructor
          · rintro ⟨⟩
          · rintro ⟨vs, eq, -⟩
            cases vs with
            | nil => cases eq
            | cons v vs =>
                have head : readField f chunk = some v.2 :=
                  congrArg Prod.snd (List.cons.inj eq).1
                rw [read] at head
                cases head
      | some value =>
          have fits := readField_fits read
          have later : ∀ f' ∈ firsts.map Prod.fst, (setField g f value).get f' = none := by
            intro f' mem
            have other : f' ≠ f := fun same => distinct.1 (same ▸ mem)
            rw [get_setField fits, if_neg other]
            exact new.2 f' mem
          change storeAll (setField g f value) firsts = _ ↔ _
          rw [ih distinct.2 later]
          constructor
          · rintro ⟨vs, rest, rfl⟩
            refine ⟨(f, value) :: vs, ?_, rfl⟩
            rw [readings, List.map_cons, read]
            exact congrArg (_ :: ·) rest
          · rintro ⟨vs, eq, rfl⟩
            cases vs with
            | nil => cases eq
            | cons v vs =>
                obtain ⟨k, value'⟩ := v
                have head : (f, readField f chunk) = (k, some value') := (List.cons.inj eq).1
                rw [read] at head
                cases head
                exact ⟨vs, (List.cons.inj eq).2, rfl⟩

theorem get_setAll {vs : List (GeolocField × GeolocValue)} (distinct : (vs.map Prod.fst).Nodup)
    (fits : ∀ p ∈ vs, p.1.Fits p.2) (f : GeolocField) :
    (setAll g vs).get f = (vs.lookup f).or (g.get f) := by
  induction vs generalizing g with
  | nil => rfl
  | cons p vs ih =>
      obtain ⟨k, value⟩ := p
      obtain ⟨first, others⟩ := List.forall_mem_cons.mp fits
      rw [List.map_cons, List.nodup_cons] at distinct
      change (setAll (setField g k value) vs).get f = _
      rw [ih distinct.2 others, get_setField first, List.lookup_cons]
      by_cases same : f = k
      · subst same
        rw [lookup_of_notMem distinct.1, if_pos rfl, beq_self_eq_true]
        rfl
      · rw [if_neg same, beq_false_of_ne same]

/-- The fields of a geoloc come back exactly if the first chunk of each one says what it is. -/
theorem storeAll_values {firsts : List (GeolocField × List Char)}
    (keys : firsts.map Prod.fst = g.values.map Prod.fst) :
    storeAll {} firsts = .ret g ↔ readings firsts = known g.values := by
  have distinct : (firsts.map Prod.fst).Nodup := keys ▸ g.values_distinct
  have empty : ∀ f, ({} : Geoloc).get f = none := fun f => by
    rcases f with n | t <;> rfl
  rw [storeAll_eq_ret distinct fun f _ => empty f]
  constructor
  · rintro ⟨vs, eq, all⟩
    have same : firsts.map Prod.fst = vs.map Prod.fst := by
      have fields := congrArg (List.map Prod.fst) eq
      rw [readings, known, List.map_map, List.map_map] at fields
      exact fields
    have fits : ∀ p ∈ vs, p.1.Fits p.2 := by
      intro p mem
      have known : (p.1, some p.2) ∈ readings firsts := eq ▸ List.mem_map_of_mem mem
      obtain ⟨q, -, pair⟩ := List.mem_map.mp known
      injection pair with field read
      rw [field] at read
      exact readField_fits read
    rw [eq]
    apply congrArg known
    apply eq_of_lookup (same.symm.trans keys) g.values_distinct
    intro f
    have got := get_setAll (same ▸ distinct) fits f (g := {})
    rw [← all, empty, Option.or_none] at got
    rw [Geoloc.lookup_values, got]
  · intro eq
    refine ⟨g.values, eq, ?_⟩
    apply Geoloc.ext_get
    intro f
    have fits : ∀ p ∈ g.values, p.1.Fits p.2 := by
      intro p mem
      obtain ⟨f, -, found⟩ := List.mem_filterMap.mp mem
      obtain ⟨value, present, rfl⟩ := Option.map_eq_some_iff.mp found
      exact Geoloc.get_fits present
    rw [get_setAll g.values_distinct fits, empty, Option.or_none, Geoloc.lookup_values]

end MetaReader

section
variable {a : Xml.Attributes Attr} {reported : List (Attr × List Char)}
variable (order : reported.Perm a.entries)
include order

theorem foldl_readMap :
    reported.foldl readMap {} = { name := a.get .name, value := a.get .value } := by
  have name := Xml.Attributes.foldl_field EnumMapMeta.name .name (f := readMap) (g := id)
    (fun e text => rfl)
    (fun e p ne => by rcases p with ⟨_ | _, text⟩ <;> first | rfl | exact absurd rfl ne) order {}
  have value := Xml.Attributes.foldl_field EnumMapMeta.value .value (f := readMap) (g := id)
    (fun e text => rfl)
    (fun e p ne => by rcases p with ⟨_ | _, text⟩ <;> first | rfl | exact absurd rfl ne) order {}
  rw [Option.map_id, id, Option.or_none] at name value
  rw [← name, ← value]

theorem foldl_readProperty :
    reported.foldl readProperty {} = { name := a.get .name, value := a.get .value } := by
  have name := Xml.Attributes.foldl_field PropertyMeta.name .name (f := readProperty) (g := id)
    (fun e text => rfl)
    (fun e p ne => by rcases p with ⟨_ | _, text⟩ <;> first | rfl | exact absurd rfl ne) order {}
  have value := Xml.Attributes.foldl_field PropertyMeta.value .value (f := readProperty) (g := id)
    (fun e text => rfl)
    (fun e p ne => by rcases p with ⟨_ | _, text⟩ <;> first | rfl | exact absurd rfl ne) order {}
  rw [Option.map_id, id, Option.or_none] at name value
  rw [← name, ← value]

theorem foldl_readTransducer :
    reported.foldl readTransducer {} =
      { name := a.get .name
        type := a.get .type
        interface := a.get .interface
        manufacturer := a.get .manufacturer
        serial := a.get .serial
        info := a.get .info
        unit := a.get .unit
        minValue := a.get .minValue
        maxValue := a.get .maxValue
        resolution := a.get .resolution
        precision := a.get .precision
        accuracy := a.get .accuracy } := by
  have field (get : TransducerMeta → Option (List Char)) (key : Attr)
      (own : ∀ t text, get (readTransducer t (key, text)) = some text)
      (others : ∀ t p, p.1 ≠ key → get (readTransducer t p) = get t) (none : get {} = none) :
      get (reported.foldl readTransducer {}) = a.get key := by
    have read := Xml.Attributes.foldl_field get key (g := id) own others order {}
    rw [none, Option.or_none, Option.map_id] at read
    exact read
  apply TransducerMeta.ext
  · exact field TransducerMeta.name .name (fun t text => rfl)
      (fun t p ne => by rcases p with ⟨_ | _, text⟩ <;> first | rfl | exact absurd rfl ne) rfl
  · exact field TransducerMeta.type .type (fun t text => rfl)
      (fun t p ne => by rcases p with ⟨_ | _, text⟩ <;> first | rfl | exact absurd rfl ne) rfl
  · exact field TransducerMeta.interface .interface (fun t text => rfl)
      (fun t p ne => by rcases p with ⟨_ | _, text⟩ <;> first | rfl | exact absurd rfl ne) rfl
  · exact field TransducerMeta.manufacturer .manufacturer (fun t text => rfl)
      (fun t p ne => by rcases p with ⟨_ | _, text⟩ <;> first | rfl | exact absurd rfl ne) rfl
  · exact field TransducerMeta.serial .serial (fun t text => rfl)
      (fun t p ne => by rcases p with ⟨_ | _, text⟩ <;> first | rfl | exact absurd rfl ne) rfl
  · exact field TransducerMeta.info .info (fun t text => rfl)
      (fun t p ne => by rcases p with ⟨_ | _, text⟩ <;> first | rfl | exact absurd rfl ne) rfl
  · exact field TransducerMeta.unit .unit (fun t text => rfl)
      (fun t p ne => by rcases p with ⟨_ | _, text⟩ <;> first | rfl | exact absurd rfl ne) rfl
  · exact field TransducerMeta.minValue .minValue (fun t text => rfl)
      (fun t p ne => by rcases p with ⟨_ | _, text⟩ <;> first | rfl | exact absurd rfl ne) rfl
  · exact field TransducerMeta.maxValue .maxValue (fun t text => rfl)
      (fun t p ne => by rcases p with ⟨_ | _, text⟩ <;> first | rfl | exact absurd rfl ne) rfl
  · exact field TransducerMeta.resolution .resolution (fun t text => rfl)
      (fun t p ne => by rcases p with ⟨_ | _, text⟩ <;> first | rfl | exact absurd rfl ne) rfl
  · exact field TransducerMeta.precision .precision (fun t text => rfl)
      (fun t p ne => by rcases p with ⟨_ | _, text⟩ <;> first | rfl | exact absurd rfl ne) rfl
  · exact field TransducerMeta.accuracy .accuracy (fun t text => rfl)
      (fun t p ne => by rcases p with ⟨_ | _, text⟩ <;> first | rfl | exact absurd rfl ne) rfl
  · exact Xml.Attributes.foldl_kept TransducerMeta.enumeration
      (fun t p => by rcases p with ⟨_ | _, text⟩ <;> rfl) reported {}
  · exact Xml.Attributes.foldl_kept TransducerMeta.geoloc
      (fun t p => by rcases p with ⟨_ | _, text⟩ <;> rfl) reported {}
  · exact Xml.Attributes.foldl_kept TransducerMeta.properties
      (fun t p => by rcases p with ⟨_ | _, text⟩ <;> rfl) reported {}

theorem foldl_readMeta (type : References.MetaType) (typed : a.get .type = typeAttribute type) :
    reported.foldl readMeta {} =
      { name := a.get .name
        timestamp := a.get .timestamp
        info := a.get .info
        metaType := type } := by
  have field (get : Meta → Option (List Char)) (key : Attr)
      (own : ∀ t text, get (readMeta t (key, text)) = some text)
      (others : ∀ t p, p.1 ≠ key → get (readMeta t p) = get t) (none : get {} = none) :
      get (reported.foldl readMeta {}) = a.get key := by
    have read := Xml.Attributes.foldl_field get key (g := id) own others order {}
    rw [none, Option.or_none, Option.map_id] at read
    exact read
  have kept {β : Type} (get : Meta → β) (same : ∀ t p, get (readMeta t p) = get t) :
      get (reported.foldl readMeta {}) = get {} :=
    Xml.Attributes.foldl_kept get same reported {}
  -- the type is read of its own attribute alone
  have types : (reported.foldl readMeta {}).metaType =
      reported.foldl (fun type p => (readMeta { metaType := type } p).metaType)
        (Meta.metaType {}) := by
    symm
    apply List.foldl_hom Meta.metaType
    intro m p
    rcases p with ⟨_ | _, text⟩ <;> rfl
  apply Meta.ext
  · exact field Meta.name .name (fun t text => rfl)
      (fun t p ne => by rcases p with ⟨_ | _, text⟩ <;> first | rfl | exact absurd rfl ne) rfl
  · exact field Meta.timestamp .timestamp (fun t text => rfl)
      (fun t p ne => by rcases p with ⟨_ | _, text⟩ <;> first | rfl | exact absurd rfl ne) rfl
  · exact field Meta.info .info (fun t text => rfl)
      (fun t p ne => by rcases p with ⟨_ | _, text⟩ <;> first | rfl | exact absurd rfl ne) rfl
  · rw [types, @Xml.Attributes.foldl_only _ _ _ _ .type _ ?_ _ order, typed]
    · cases type <;> rfl
    · intro type p ne
      rcases p with ⟨_ | _, text⟩ <;> first | rfl | exact absurd rfl ne
  · exact kept Meta.geoloc (fun t p => by rcases p with ⟨_ | _, text⟩ <;> rfl)
  · exact kept Meta.transducers (fun t p => by rcases p with ⟨_ | _, text⟩ <;> rfl)
  · exact kept Meta.properties (fun t p => by rcases p with ⟨_ | _, text⟩ <;> rfl)

end

/-- The table of a transducer has each attribute, but not `info`. -/
theorem TransducerMeta.read_attributes (t : TransducerMeta) {reported : List (Attr × List Char)}
    (order : reported.Perm t.attributes.entries) :
    reported.foldl readTransducer {} =
      { t with info := none, enumeration := [], geoloc := none, properties := [] } := by
  rw [foldl_readTransducer order]
  cases manufacturer : t.manufacturer <;>
    simp [attributes, Xml.Attributes.get_setIfAny, manufacturer]

theorem Meta.read_attributes (m : Meta) {type : List Char} (known : typeAttribute m.metaType = some type)
    {reported : List (Attr × List Char)} (order : reported.Perm (metaAttributes m type).entries) :
    reported.foldl readMeta {} = { m with geoloc := none, transducers := [], properties := [] } := by
  have typed : (metaAttributes m type).get .type = typeAttribute m.metaType := by
    rw [known]
    simp [metaAttributes, Xml.Attributes.get_setIfAny]
  rw [foldl_readMeta order m.metaType typed]
  simp [metaAttributes, Xml.Attributes.get_setIfAny, Xml.Attributes.get_set]

end Mio.LibMio
