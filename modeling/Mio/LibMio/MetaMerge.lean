import Mio.Lib.Keyed
import Mio.LibMio.Meta

/-! Updating the meta information of a node: what `mio_meta_merge_publish` computes before it
publishes. -/
namespace Mio.LibMio
open References (MetaType)

/-- `mio_meta_property_merge`. -/
def PropertyMeta.merge (propertyToUpdate property : PropertyMeta) : PropertyMeta where
  name := property.name.or propertyToUpdate.name
  value := property.value.or propertyToUpdate.value

/-- `mio_geoloc_merge`. -/
def Geoloc.merge (geolocToUpdate geoloc : Geoloc) : Geoloc where
  number n := (geoloc.number n).or (geolocToUpdate.number n)
  text t := (geoloc.text t).or (geolocToUpdate.text t)

/-- A given `geoloc` merged into the one that is there, or into a new one. -/
def mergeGeoloc (geolocToUpdate : Option Geoloc) : Option Geoloc → Option Geoloc
  | none => geolocToUpdate
  | some geoloc => some ((geolocToUpdate.getD {}).merge geoloc)

def EnumMapMeta.whole (e : EnumMapMeta) : Bool := e.name.isSome && e.value.isSome

/-- `mio_enum_map_meta_clone`. -/
def enumMapMetaClone : List EnumMapMeta → List EnumMapMeta
  | [] => [{}]
  | e :: es => if (e :: es).all EnumMapMeta.whole then e :: es else []

/-- A property merged into all those of its name, and whether there is one. -/
def mergeSameName (property : PropertyMeta) :
    List PropertyMeta → Outcome Undefined (List PropertyMeta × Bool)
  | [] => .ret ([], false)
  | propertyToUpdate :: rest => do
      let same ← References.strcmp propertyToUpdate.name property.name
      let (rest, updatedFlag) ← mergeSameName property rest
      return if same then (propertyToUpdate.merge property :: rest, true)
        else (propertyToUpdate :: rest, updatedFlag)

/-- The properties of a transducer. -/
def mergeProperties (properties : List PropertyMeta) :
    List PropertyMeta → Outcome Undefined (List PropertyMeta)
  | [] => .ret properties
  | property :: more => do
      let (merged, updatedFlag) ← mergeSameName property properties
      mergeProperties (if updatedFlag then merged else properties ++ [PropertyMeta.merge {} property]) more

/-- The given fields of a transducer but for the properties; `clone` makes a new enumeration. -/
def TransducerMeta.overwrite (clone : List EnumMapMeta → List EnumMapMeta)
    (transducerToUpdate transducer : TransducerMeta) : TransducerMeta where
  name := transducer.name.or transducerToUpdate.name
  type := transducer.type.or transducerToUpdate.type
  interface := transducer.interface.or transducerToUpdate.interface
  manufacturer := transducer.manufacturer.or transducerToUpdate.manufacturer
  serial := transducer.serial.or transducerToUpdate.serial
  info := transducer.info.or transducerToUpdate.info
  unit := transducer.unit.or transducerToUpdate.unit
  minValue := transducer.minValue.or transducerToUpdate.minValue
  maxValue := transducer.maxValue.or transducerToUpdate.maxValue
  resolution := transducer.resolution.or transducerToUpdate.resolution
  precision := transducer.precision.or transducerToUpdate.precision
  accuracy := transducer.accuracy.or transducerToUpdate.accuracy
  enumeration :=
    if transducer.enumeration = [] then transducerToUpdate.enumeration else clone transducer.enumeration
  geoloc := mergeGeoloc transducerToUpdate.geoloc transducer.geoloc
  properties := transducerToUpdate.properties

/-- `mio_meta_transducer_merge`. -/
def transducerMerge (transducerToUpdate transducer : TransducerMeta) :
    Outcome Undefined TransducerMeta := do
  let properties ← mergeProperties transducerToUpdate.properties transducer.properties
  return { transducerToUpdate.overwrite enumMapMetaClone transducer with properties }

/-- The properties of the given meta: the first is merged into the first one of the node, or into a new
one. -/
def givenFirst : List PropertyMeta → List PropertyMeta → List PropertyMeta
  | [], properties => properties
  | first :: _, [] => [PropertyMeta.merge {} first]
  | first :: _, properties => properties.modifyHead fun property => property.merge first

/-- `mio_meta_merge`. -/
def metaMerge (metaToUpdate given : Meta) : Outcome Undefined Meta :=
  match given.timestamp with
  | none => .throw .null
  | some timestamp => .ret
      { metaToUpdate with
        metaType := if given.metaType = .unknown then metaToUpdate.metaType else given.metaType
        name := given.name.or metaToUpdate.name
        info := given.info.or metaToUpdate.info
        geoloc := mergeGeoloc metaToUpdate.geoloc given.geoloc
        properties := givenFirst given.properties metaToUpdate.properties
        timestamp := some timestamp }

section
variable {α : Type} (name : α → Option (List Char)) (merge : α → α → Outcome Undefined α) (new : α)

/-- The first entry that has the name of the update, which is merged into it; entries without a name are
passed. -/
def mergeFound (update : α) : List α → Outcome Undefined (Option (List α))
  | [] => .ret none
  | a :: as =>
      if name a = none then do
        let found ← mergeFound update as
        return found.map (a :: ·)
      else do
        if ← References.strcmp (name a) (name update) then
          let a ← merge a update
          return some (a :: as)
        else
          let found ← mergeFound update as
          return found.map (a :: ·)

/-- Without such an entry, a new one goes behind the last, or the last is filled in if it has no name. -/
def mergeAtTail (update : α) (as : List α) : Outcome Undefined (List α) :=
  match as.getLast? with
  | none => .throw .null
  | some tail => do
      if name tail ≠ none then
        let a ← merge new update
        return as ++ [a]
      else
        let a ← merge tail update
        return as.dropLast ++ [a]

def mergeNamed (update : α) (as : List α) : Outcome Undefined (List α) := do
  match ← mergeFound name merge update as with
  | some as => return as
  | none => mergeAtTail name merge new update as

def mergeEach (as : List α) : List α → Outcome Undefined (List α)
  | [] => .ret as
  | update :: rest => do
      let as ← mergeNamed name merge new update as
      mergeEach as rest

/-- The loop over the given transducers, and over the given properties. -/
def mergeList (as updates : List α) : Outcome Undefined (List α) :=
  mergeEach name merge new (if updates ≠ [] ∧ as = [] then [new] else as) updates

end

/-- The arguments `meta`, `transducers` and `properties`. -/
structure MetaUpdate where
  meta_ : Option Meta := none
  transducers : List TransducerMeta := []
  properties : List PropertyMeta := []

/-- The meta that is given, if one is. -/
def mergeGiven (queryMeta : Meta) : Option Meta → Outcome Undefined Meta
  | none => .ret queryMeta
  | some given => metaMerge queryMeta given

/-- `mio_meta_merge_publish` from the meta of the query to the one that is published. The handler of the
query makes a meta wherever the packet is of its type. -/
def mergeUpdate (queryMeta : Meta) (update : MetaUpdate) : Outcome Undefined Meta := do
  let queryMeta ← mergeGiven queryMeta update.meta_
  let transducers ←
    mergeList TransducerMeta.name transducerMerge {} queryMeta.transducers update.transducers
  let properties ← mergeList PropertyMeta.name (fun p q => .ret (p.merge q)) {} queryMeta.properties
    update.properties
  return { queryMeta with transducers, properties }

def propertiesUpdated (properties updates : List PropertyMeta) : List PropertyMeta :=
  upserts PropertyMeta.name PropertyMeta.name PropertyMeta.merge {} properties updates

/-- The given fields replaced; properties are merged by name. -/
def TransducerMeta.updated (clone : List EnumMapMeta → List EnumMapMeta) (t update : TransducerMeta) :
    TransducerMeta :=
  { t.overwrite clone update with properties := propertiesUpdated t.properties update.properties }

/-- Transducers with updates by name. -/
def transducersUpdated (clone : List EnumMapMeta → List EnumMapMeta)
    (transducers updates : List TransducerMeta) : List TransducerMeta :=
  upserts TransducerMeta.name TransducerMeta.name (TransducerMeta.updated clone) {} transducers updates

/-- The given fields of the meta are replaced; transducers and properties keep their order, take the
updates of their names, and new ones follow. -/
def Meta.updated (current : Meta) (update : MetaUpdate) : Meta where
  metaType :=
    ((update.meta_.map Meta.metaType).filter (· ≠ .unknown)).getD current.metaType
  name := (update.meta_.bind Meta.name).or current.name
  info := (update.meta_.bind Meta.info).or current.info
  timestamp := (update.meta_.bind Meta.timestamp).or current.timestamp
  geoloc := mergeGeoloc current.geoloc (update.meta_.bind Meta.geoloc)
  transducers := transducersUpdated id current.transducers update.transducers
  properties := propertiesUpdated current.properties
    ((update.meta_.map Meta.properties).getD [] ++ update.properties)

/-- The update is applied, and the same once more changes nothing. -/
def Merges (current : Meta) (update : MetaUpdate) : Prop :=
  mergeUpdate current update = .ret (current.updated update) ∧
    mergeUpdate (current.updated update) update = .ret (current.updated update)

/-- Every entry has a name, and no two the same one. -/
def UniquelyNamed (names : List (Option (List Char))) : Prop := none ∉ names ∧ names.Nodup

structure Meta.Named (m : Meta) : Prop where
  transducers : UniquelyNamed (m.transducers.map TransducerMeta.name)
  inner : ∀ t ∈ m.transducers, UniquelyNamed (t.properties.map PropertyMeta.name)
  properties : UniquelyNamed (m.properties.map PropertyMeta.name)

structure MetaUpdate.Named (update : MetaUpdate) : Prop where
  given : ∀ m, update.meta_ = some m → none ∉ m.properties.map PropertyMeta.name
  transducers : none ∉ update.transducers.map TransducerMeta.name
  inner : ∀ t ∈ update.transducers, none ∉ t.properties.map PropertyMeta.name
  properties : none ∉ update.properties.map PropertyMeta.name

theorem strcmp_named {a b : Option (List Char)} (left : a ≠ none) (right : b ≠ none) :
    References.strcmp a b = .ret (a = b) := by
  obtain ⟨a, rfl⟩ := Option.ne_none_iff_exists'.mp left
  obtain ⟨b, rfl⟩ := Option.ne_none_iff_exists'.mp right
  simp [References.strcmp]

section
variable {α : Type} {name : α → Option (List Char)}

theorem named_iff {as : List α} : none ∉ as.map name ↔ ∀ a ∈ as, name a ≠ none := by
  rw [List.mem_map]
  exact ⟨fun none a mem no => none ⟨a, mem, no⟩, fun all ⟨a, mem, no⟩ => all a mem no⟩

variable {f : α → α → α} {new : α}

theorem keeps_of_names (names : ∀ a b, name (f a b) = (name b).or (name a)) (a b : α)
    (same : name b = name a) : name (f a b) = name a := by
  rw [names, same, Option.or_self]

theorem new_of_names (names : ∀ a b, name (f a b) = (name b).or (name a)) (blank : name new = none)
    (b : α) : name (f new b) = name b := by
  rw [names, blank, Option.or_none]

theorem UniquelyNamed.upserts (names : ∀ a b, name (f a b) = (name b).or (name a))
    (blank : name new = none) {as updates : List α} (unique : UniquelyNamed (as.map name))
    (named : none ∉ updates.map name) :
    UniquelyNamed ((upserts name name f new as updates).map name) := by
  have keeps := keeps_of_names names
  have blanks := new_of_names names blank
  refine ⟨?_, nodup_upserts keeps blanks unique.2 updates⟩
  rw [upserts_keys keeps blanks, List.mem_append, mem_fresh]
  rintro (no | no)
  · exact unique.1 no
  · exact named no.1

theorem UniquelyNamed.upsert (names : ∀ a b, name (f a b) = (name b).or (name a))
    (blank : name new = none) {as : List α} (unique : UniquelyNamed (as.map name)) {update : α}
    (named : name update ≠ none) :
    UniquelyNamed ((upsert name name f new as update).map name) := by
  have one := foldl_upsert (keeps_of_names names) (new_of_names names blank) unique.2 [update]
  rw [List.foldl_cons, List.foldl_nil] at one
  rw [one]
  exact unique.upserts names blank (by simpa using named.symm)

variable {merge : α → α → Outcome Undefined α} {P ok : α → Prop}

/-- A merge of entries that keep an invariant. -/
structure MergesBy (name : α → Option (List Char)) (merge : α → α → Outcome Undefined α) (f : α → α → α)
    (new : α) (P ok : α → Prop) : Prop where
  names : ∀ a b, name (f a b) = (name b).or (name a)
  blank : name new = none
  start : P new
  ret : ∀ a b, P a → ok b → merge a b = .ret (f a b)
  kept : ∀ a b, P a → ok b → P (f a b)

variable (m : MergesBy name merge f new P ok)
include m

theorem MergesBy.found {update : α} (isOk : ok update) (known : name update ≠ none) {as : List α}
    (named : ∀ a ∈ as, name a ≠ none) (each : ∀ a ∈ as, P a) :
    mergeFound name merge update as = .ret (modifyFirst name (name update) (f · update) as) := by
  induction as with
  | nil => rfl
  | cons a as ih =>
      obtain ⟨first, named⟩ := List.forall_mem_cons.mp named
      obtain ⟨holds, each⟩ := List.forall_mem_cons.mp each
      rw [mergeFound, if_neg first, strcmp_named first known, Outcome.ret_bind, modifyFirst, ih named each]
      by_cases same : name a = name update
      · simp [same, m.ret a update holds isOk]
      · simp [same]

theorem MergesBy.named {update : α} (isOk : ok update) (known : name update ≠ none) {as : List α}
    (some : as ≠ []) (named : ∀ a ∈ as, name a ≠ none) (each : ∀ a ∈ as, P a) :
    mergeNamed name merge new update as = .ret (upsert name name f new as update) := by
  rw [mergeNamed, m.found isOk known named each, Outcome.ret_bind, Mio.upsert]
  cases modifyFirst name (name update) (f · update) as with
  | some bs => rfl
  | none =>
      have last := List.getLast?_eq_some_getLast some
      simp [mergeAtTail, last, named _ (List.getLast_mem some), m.ret new update m.start isOk]

theorem MergesBy.filled {update : α} (isOk : ok update) :
    mergeNamed name merge new update [new] = .ret [f new update] := by
  simp [mergeNamed, mergeFound, mergeAtTail, m.blank, m.ret new update m.start isOk]

theorem MergesBy.upsert_each {update : α} (isOk : ok update) {as : List α} (each : ∀ a ∈ as, P a)
    (distinct : (as.map name).Nodup) : ∀ a ∈ upsert name name f new as update, P a := by
  intro a mem
  by_cases known : name update ∈ as.map name
  · rw [upsert_of_mem distinct known, absorb_singleton] at mem
    obtain ⟨b, before, rfl⟩ := List.mem_map.mp mem
    split
    · exact m.kept b update (each b before) isOk
    · exact each b before
  · rw [upsert_of_notMem known] at mem
    rcases List.mem_append.mp mem with mem | mem
    · exact each a mem
    · rw [List.mem_singleton.mp mem]
      exact m.kept new update m.start isOk

theorem MergesBy.each {as updates : List α} (some : as ≠ []) (unique : UniquelyNamed (as.map name))
    (each : ∀ a ∈ as, P a) (oks : ∀ u ∈ updates, ok u) (named : ∀ u ∈ updates, name u ≠ none) :
    mergeEach name merge new as updates = .ret (updates.foldl (upsert name name f new) as) := by
  induction updates generalizing as with
  | nil => rfl
  | cons update updates ih =>
      obtain ⟨isOk, oks⟩ := List.forall_mem_cons.mp oks
      obtain ⟨known, named⟩ := List.forall_mem_cons.mp named
      rw [mergeEach, m.named isOk known some (named_iff.mp unique.1) each, Outcome.ret_bind,
        List.foldl_cons]
      have unique' := unique.upsert m.names m.blank known
      refine ih (fun none => ?_) unique' (m.upsert_each isOk each unique.2) oks named
      have keys := upserts_keys (keeps_of_names m.names) (new_of_names m.names m.blank) as [update]
      rw [← foldl_upsert (keeps_of_names m.names) (new_of_names m.names m.blank) unique.2,
        List.foldl_cons, List.foldl_nil, none] at keys
      exact some (List.map_eq_nil_iff.mp (List.append_eq_nil_iff.mp keys.symm).1)

theorem MergesBy.list {as updates : List α} (unique : UniquelyNamed (as.map name))
    (each : ∀ a ∈ as, P a) (oks : ∀ u ∈ updates, ok u) (named : none ∉ updates.map name) :
    mergeList name merge new as updates = .ret (Mio.upserts name name f new as updates) := by
  rw [← foldl_upsert (keeps_of_names m.names) (new_of_names m.names m.blank) unique.2, mergeList]
  have named := named_iff.mp named
  by_cases some : as = []
  · subst some
    cases updates with
    | nil => rfl
    | cons update updates =>
        obtain ⟨isOk, oks⟩ := List.forall_mem_cons.mp oks
        obtain ⟨known, named⟩ := List.forall_mem_cons.mp named
        have unique' := unique.upsert m.names m.blank known
        rw [if_pos ⟨List.cons_ne_nil _ _, rfl⟩, mergeEach, m.filled isOk, Outcome.ret_bind, List.foldl_cons]
        exact m.each (List.cons_ne_nil _ _) unique' (m.upsert_each isOk each unique.2) oks named
  · rw [if_neg fun no => some no.2]
    exact m.each some unique each oks named

end

section
variable {properties updates : List PropertyMeta}

theorem PropertyMeta.merge_name (p q : PropertyMeta) : (p.merge q).name = q.name.or p.name := rfl

theorem PropertyMeta.merge_keeps : ∀ p q : PropertyMeta, q.name = p.name → (p.merge q).name = p.name :=
  keeps_of_names PropertyMeta.merge_name

theorem PropertyMeta.merge_new : ∀ p : PropertyMeta, (PropertyMeta.merge {} p).name = p.name :=
  new_of_names PropertyMeta.merge_name rfl

theorem mergeSameName_eq {property : PropertyMeta} (known : property.name ≠ none)
    (named : ∀ p ∈ properties, p.name ≠ none) :
    mergeSameName property properties =
      .ret (properties.map fun p => if p.name = property.name then p.merge property else p,
        decide (property.name ∈ properties.map PropertyMeta.name)) := by
  induction properties with
  | nil => rfl
  | cons p properties ih =>
      obtain ⟨first, named⟩ := List.forall_mem_cons.mp named
      rw [mergeSameName, strcmp_named first known, Outcome.ret_bind, ih named, Outcome.ret_bind]
      by_cases same : p.name = property.name
      · simp [same]
      · simp [same, Ne.symm same]

theorem mergeProperties_eq (unique : UniquelyNamed (properties.map PropertyMeta.name))
    (named : none ∉ updates.map PropertyMeta.name) :
    mergeProperties properties updates = .ret (propertiesUpdated properties updates) := by
  rw [propertiesUpdated, ← foldl_upsert PropertyMeta.merge_keeps PropertyMeta.merge_new unique.2]
  induction updates generalizing properties with
  | nil => rfl
  | cons property more ih =>
      rw [List.map_cons, List.mem_cons, not_or] at named
      have known : property.name ≠ none := Ne.symm named.1
      have one : (if decide (property.name ∈ properties.map PropertyMeta.name) = true
          then properties.map fun p => if p.name = property.name then p.merge property else p
          else properties ++ [PropertyMeta.merge {} property]) =
            upsert PropertyMeta.name PropertyMeta.name PropertyMeta.merge {} properties property := by
        by_cases mem : property.name ∈ properties.map PropertyMeta.name
        · rw [if_pos (decide_eq_true mem), upsert_of_mem unique.2 mem, absorb_singleton]
        · rw [if_neg (by simpa using mem), upsert_of_notMem mem]
      rw [mergeProperties, mergeSameName_eq known (named_iff.mp unique.1), Outcome.ret_bind,
        List.foldl_cons]
      have unique' : UniquelyNamed ((upsert PropertyMeta.name PropertyMeta.name PropertyMeta.merge {}
          properties property).map PropertyMeta.name) := unique.upsert PropertyMeta.merge_name rfl known
      simp only [one]
      exact ih unique' named.2

theorem propertiesUpdated_unique (unique : UniquelyNamed (properties.map PropertyMeta.name))
    (named : none ∉ updates.map PropertyMeta.name) :
    UniquelyNamed ((propertiesUpdated properties updates).map PropertyMeta.name) :=
  unique.upserts PropertyMeta.merge_name rfl named

theorem mergesBy_property :
    MergesBy PropertyMeta.name (fun p q => .ret (p.merge q)) PropertyMeta.merge {} (fun _ => True)
      fun _ => True where
  names := PropertyMeta.merge_name
  blank := rfl
  start := trivial
  ret _ _ _ _ := rfl
  kept _ _ _ _ := trivial

theorem mergeList_properties (unique : UniquelyNamed (properties.map PropertyMeta.name))
    (named : none ∉ updates.map PropertyMeta.name) :
    mergeList PropertyMeta.name (fun p q => .ret (p.merge q)) {} properties updates =
      .ret (propertiesUpdated properties updates) :=
  mergesBy_property.list unique (fun _ _ => trivial) (fun _ _ => trivial) named

end

theorem TransducerMeta.updated_name (clone : List EnumMapMeta → List EnumMapMeta)
    (t update : TransducerMeta) : (t.updated clone update).name = update.name.or t.name := rfl

theorem mergesBy_transducer :
    MergesBy TransducerMeta.name transducerMerge (TransducerMeta.updated enumMapMetaClone) {}
      (fun t => UniquelyNamed (t.properties.map PropertyMeta.name))
      fun t => none ∉ t.properties.map PropertyMeta.name where
  names := TransducerMeta.updated_name _
  blank := rfl
  start := ⟨List.not_mem_nil, List.nodup_nil⟩
  ret t update unique named := by
    rw [transducerMerge, mergeProperties_eq unique named]
    rfl
  kept t update unique named := propertiesUpdated_unique unique named

theorem mergeList_transducers {transducers updates : List TransducerMeta}
    (unique : UniquelyNamed (transducers.map TransducerMeta.name))
    (inner : ∀ t ∈ transducers, UniquelyNamed (t.properties.map PropertyMeta.name))
    (named : none ∉ updates.map TransducerMeta.name)
    (innerNamed : ∀ t ∈ updates, none ∉ t.properties.map PropertyMeta.name) :
    mergeList TransducerMeta.name transducerMerge {} transducers updates =
      .ret (transducersUpdated enumMapMetaClone transducers updates) :=
  mergesBy_transducer.list unique inner innerNamed named

section
variable {clone : List EnumMapMeta → List EnumMapMeta}

theorem PropertyMeta.merge_again (us : List PropertyMeta) (p : PropertyMeta) :
    us.foldl PropertyMeta.merge (us.foldl PropertyMeta.merge p) = us.foldl PropertyMeta.merge p := by
  have field : ∀ {g : PropertyMeta → Option (List Char)},
      (∀ a b, g (PropertyMeta.merge a b) = (g b).or (g a)) →
      g (us.foldl PropertyMeta.merge (us.foldl PropertyMeta.merge p)) = g (us.foldl PropertyMeta.merge p) :=
    fun hom => foldl_field_again (fun v w => w.or v) (fun a b c => Option.or_assoc.symm)
      (fun a => Option.or_self) hom us p
  have name := field (g := PropertyMeta.name) fun _ _ => rfl
  have value := field (g := PropertyMeta.value) fun _ _ => rfl
  cases first : us.foldl PropertyMeta.merge p
  rw [first] at name value
  generalize us.foldl PropertyMeta.merge _ = q at name value ⊢
  cases q
  exact congr (congrArg PropertyMeta.mk name) value

theorem propertiesUpdated_append (properties us more : List PropertyMeta) :
    propertiesUpdated (propertiesUpdated properties us) more = propertiesUpdated properties (us ++ more) :=
  upserts_upserts PropertyMeta.merge_keeps PropertyMeta.merge_new ..

theorem propertiesUpdated_again (properties us : List PropertyMeta) :
    propertiesUpdated (propertiesUpdated properties us) us = propertiesUpdated properties us :=
  upserts_again PropertyMeta.merge_keeps PropertyMeta.merge_new
    PropertyMeta.merge_again ..

theorem propertiesUpdated_nil (properties : List PropertyMeta) :
    propertiesUpdated properties [] = properties := by
  simp [propertiesUpdated, upserts, fresh]

theorem Geoloc.merge_assoc (a b c : Geoloc) : (a.merge b).merge c = a.merge (b.merge c) := by
  ext <;> simp [Geoloc.merge, Option.or_assoc]

theorem Geoloc.merge_self (a : Geoloc) : a.merge a = a := by
  ext <;> simp [Geoloc.merge]

theorem Geoloc.new_merge (a : Geoloc) : Geoloc.merge {} a = a := by
  ext <;> simp [Geoloc.merge]

theorem mergeGeoloc_assoc (a b c : Option Geoloc) :
    mergeGeoloc (mergeGeoloc a b) c = mergeGeoloc a (mergeGeoloc b c) := by
  cases c with
  | none => rfl
  | some c =>
      cases b with
      | none => simp [mergeGeoloc, Geoloc.new_merge]
      | some b => simp [mergeGeoloc, Geoloc.merge_assoc]

theorem mergeGeoloc_self (a : Option Geoloc) : mergeGeoloc a a = a := by
  cases a with
  | none => rfl
  | some a => simp [mergeGeoloc, Geoloc.merge_self]

theorem foldl_updated_properties (us : List TransducerMeta) (t : TransducerMeta) :
    (us.foldl (TransducerMeta.updated clone) t).properties =
      propertiesUpdated t.properties (us.flatMap TransducerMeta.properties) := by
  induction us generalizing t with
  | nil => exact (propertiesUpdated_nil _).symm
  | cons u us ih =>
      rw [List.foldl_cons, ih, List.flatMap_cons, ← propertiesUpdated_append]
      rfl

theorem TransducerMeta.updated_again (us : List TransducerMeta) (t : TransducerMeta) :
    us.foldl (TransducerMeta.updated id) (us.foldl (TransducerMeta.updated id) t) =
      us.foldl (TransducerMeta.updated id) t := by
  have field : ∀ {g : TransducerMeta → Option (List Char)},
      (∀ a b, g (TransducerMeta.updated id a b) = (g b).or (g a)) →
      g (us.foldl (TransducerMeta.updated id) (us.foldl (TransducerMeta.updated id) t)) =
        g (us.foldl (TransducerMeta.updated id) t) :=
    fun hom => foldl_field_again (fun v w => w.or v) (fun a b c => Option.or_assoc.symm)
      (fun a => Option.or_self) hom us t
  ext1
  case enumeration =>
    refine foldl_field_again (fun v w => if w = [] then v else w) (fun a b c => ?_) (fun a => ?_)
      (g := TransducerMeta.enumeration) (fun a b => rfl) us t
    · by_cases none : c = [] <;> simp [none]
    · by_cases none : a = [] <;> simp [none]
  case geoloc =>
    exact foldl_field_again mergeGeoloc mergeGeoloc_assoc mergeGeoloc_self (fun a b => rfl) us t
  case properties =>
    rw [foldl_updated_properties, foldl_updated_properties, propertiesUpdated_again]
  all_goals exact field fun a b => rfl

def enumerationAfter (clone : List EnumMapMeta → List EnumMapMeta) (enumeration : List EnumMapMeta)
    (updates : List TransducerMeta) : List EnumMapMeta :=
  updates.foldl (fun e t => if t.enumeration = [] then e else clone t.enumeration) enumeration

def lastEnumeration (name : Option (List Char)) (updates : List TransducerMeta) : List EnumMapMeta :=
  enumerationAfter id [] (updates.filter fun t => t.name = name)

theorem enumerationAfter_eq (enumeration : List EnumMapMeta) (updates : List TransducerMeta) :
    enumerationAfter clone enumeration updates =
      if enumerationAfter id [] updates = [] then enumeration
        else clone (enumerationAfter id [] updates) := by
  unfold enumerationAfter
  induction updates using List.reverseRecOn with
  | nil => rfl
  | append_singleton updates t ih =>
      rw [List.foldl_append, List.foldl_append, ih]
      by_cases none : t.enumeration = [] <;> simp [none]

/-- `clone` makes no difference but for the enumeration. -/
theorem foldl_updated_clone (clone : List EnumMapMeta → List EnumMapMeta) (us : List TransducerMeta)
    (t : TransducerMeta) (e : List EnumMapMeta) :
    us.foldl (TransducerMeta.updated clone) { t with enumeration := e } =
      { us.foldl (TransducerMeta.updated id) t with enumeration := enumerationAfter clone e us } := by
  induction us generalizing t e with
  | nil => rfl
  | cons u us ih => exact ih (t.updated id u) (if u.enumeration = [] then e else clone u.enumeration)

theorem foldl_clone_iff (us : List TransducerMeta) (t : TransducerMeta) :
    us.foldl (TransducerMeta.updated clone) t = us.foldl (TransducerMeta.updated id) t ↔
      (enumerationAfter id [] us ≠ [] →
        clone (enumerationAfter id [] us) = enumerationAfter id [] us) := by
  have cloned := foldl_updated_clone clone us t t.enumeration
  have kept := foldl_updated_clone id us t t.enumeration
  change us.foldl (TransducerMeta.updated clone) t = _ at cloned
  change us.foldl (TransducerMeta.updated id) t = _ at kept
  rw [enumerationAfter_eq] at cloned kept
  by_cases none : enumerationAfter id [] us = []
  · rw [if_pos none] at cloned kept
    exact iff_of_true (cloned.trans kept.symm) fun some => (some none).elim
  · rw [if_neg none] at cloned kept
    rw [cloned]
    constructor
    · intro same _
      rw [kept] at same
      exact congrArg TransducerMeta.enumeration same
    · intro same
      rw [same none]
      exact kept.symm

theorem enumMapMetaClone_eq_iff {es : List EnumMapMeta} (some : es ≠ []) :
    enumMapMetaClone es = es ↔ ∀ e ∈ es, e.whole := by
  cases es with
  | nil => exact (some rfl).elim
  | cons e es =>
      rw [enumMapMetaClone]
      by_cases whole : (e :: es).all EnumMapMeta.whole
      · rw [if_pos whole]
        exact iff_of_true rfl (List.all_eq_true.mp whole)
      · rw [if_neg whole]
        refine iff_of_false (fun no => by cases no) fun all => whole (List.all_eq_true.mpr all)

theorem foldl_clone_enumeration_iff (name : Option (List Char)) (updates : List TransducerMeta)
    (t : TransducerMeta) :
    (updates.filter fun u => u.name = name).foldl (TransducerMeta.updated enumMapMetaClone) t =
        (updates.filter fun u => u.name = name).foldl (TransducerMeta.updated id) t ↔
      ∀ e ∈ lastEnumeration name updates, e.whole := by
  rw [foldl_clone_iff, lastEnumeration]
  by_cases none : enumerationAfter id [] (updates.filter fun u => u.name = name) = []
  · rw [none]
    exact iff_of_true (fun no => (no rfl).elim) fun e mem => by cases mem
  · rw [← enumMapMetaClone_eq_iff none]
    exact ⟨fun same => same none, fun same _ => same⟩

/-- All enumerations arrive exactly if the last one for each name is whole. -/
theorem transducersUpdated_clone_iff (transducers updates : List TransducerMeta) :
    transducersUpdated enumMapMetaClone transducers updates = transducersUpdated id transducers updates ↔
      ∀ t ∈ updates, ∀ e ∈ lastEnumeration t.name updates, e.whole := by
  have length : (absorb TransducerMeta.name TransducerMeta.name (TransducerMeta.updated enumMapMetaClone)
      transducers updates).length = (absorb TransducerMeta.name TransducerMeta.name
        (TransducerMeta.updated id) transducers updates).length := by
    rw [absorb, absorb, List.length_map, List.length_map]
  rw [transducersUpdated, transducersUpdated, upserts, upserts]
  constructor
  · intro same t mem
    obtain ⟨old, new⟩ := List.append_inj same length
    by_cases known : t.name ∈ transducers.map TransducerMeta.name
    · obtain ⟨t', member, named⟩ := List.mem_map.mp known
      rw [← named]
      exact (foldl_clone_enumeration_iff t'.name updates t').mp (List.map_inj_left.mp old t' member)
    · have named : t.name ∈ fresh (transducers.map TransducerMeta.name)
          (updates.map TransducerMeta.name) := mem_fresh.mpr ⟨List.mem_map_of_mem mem, known⟩
      exact (foldl_clone_enumeration_iff t.name updates {}).mp (List.map_inj_left.mp new t.name named)
  · intro whole
    have any : ∀ name t, (updates.filter fun u => u.name = name).foldl
        (TransducerMeta.updated enumMapMetaClone) t =
          (updates.filter fun u => u.name = name).foldl (TransducerMeta.updated id) t := by
      intro name t
      by_cases given : name ∈ updates.map TransducerMeta.name
      · obtain ⟨u, mem, rfl⟩ := List.mem_map.mp given
        exact (foldl_clone_enumeration_iff u.name updates t).mpr (whole u mem)
      · have none : (updates.filter fun u => u.name = name) = [] :=
          List.filter_eq_nil_iff.mpr fun u mem same =>
            given (List.mem_map.mpr ⟨u, mem, of_decide_eq_true same⟩)
        rw [none]
        rfl
    congr 1
    · exact List.map_congr_left fun t _ => any t.name t
    · exact List.map_congr_left fun name _ => any name {}

end

theorem transducersUpdated_inner {clone : List EnumMapMeta → List EnumMapMeta}
    {transducers updates : List TransducerMeta}
    (inner : ∀ t ∈ transducers, UniquelyNamed (t.properties.map PropertyMeta.name))
    (named : ∀ t ∈ updates, none ∉ t.properties.map PropertyMeta.name) :
    ∀ t ∈ transducersUpdated clone transducers updates, UniquelyNamed (t.properties.map PropertyMeta.name) := by
  have folded : ∀ (name : Option (List Char)) (t : TransducerMeta),
      UniquelyNamed (t.properties.map PropertyMeta.name) →
        UniquelyNamed ((((updates.filter fun u => u.name = name).foldl (TransducerMeta.updated clone)
          t).properties).map PropertyMeta.name) := by
    intro name t unique
    rw [foldl_updated_properties]
    refine propertiesUpdated_unique unique fun mem => ?_
    obtain ⟨p, inside, unnamed⟩ := List.mem_map.mp mem
    obtain ⟨u, filtered, inside⟩ := List.mem_flatMap.mp inside
    exact named u (List.mem_filter.mp filtered).1 (List.mem_map.mpr ⟨p, inside, unnamed⟩)
  intro t mem
  rcases List.mem_append.mp mem with mem | mem
  · obtain ⟨t', before, rfl⟩ := List.mem_map.mp mem
    exact folded t'.name t' (inner t' before)
  · obtain ⟨name, -, rfl⟩ := List.mem_map.mp mem
    exact folded name {} ⟨List.not_mem_nil, List.nodup_nil⟩

def givenValue (name : Option (List Char)) (properties : List PropertyMeta) : Option (List Char) :=
  (properties.filter fun p => p.name = name).foldl (fun v p => p.value.or v) none

/-- What is given for the names in `rest` is known already, or comes from `properties` as well. -/
structure Overruled (known rest properties : List PropertyMeta) : Prop where
  names : fresh (known.map PropertyMeta.name) (rest.map PropertyMeta.name) <+:
    fresh (known.map PropertyMeta.name) (properties.map PropertyMeta.name)
  values : ∀ name, givenValue name properties ≠ none ∨ givenValue name rest = none ∨
    givenValue name rest = givenValue name known

/-- The first property of the meta that is given is for the first property of the node. -/
def SameFirst (current given : List PropertyMeta) : Prop :=
  ∀ p ∈ current.head?, ∀ q ∈ given.head?, p.name = q.name

section
variable {current given properties front rest us us' : List PropertyMeta}

theorem foldl_or (us : List PropertyMeta) (v : Option (List Char)) :
    us.foldl (fun v p => p.value.or v) v = (us.foldl (fun v p => p.value.or v) none).or v := by
  induction us generalizing v with
  | nil => rfl
  | cons u us ih => rw [List.foldl_cons, ih, List.foldl_cons, ih (u.value.or none), Option.or_none, Option.or_assoc]

theorem givenValue_append (name : Option (List Char)) (us more : List PropertyMeta) :
    givenValue name (us ++ more) = (givenValue name more).or (givenValue name us) := by
  rw [givenValue, List.filter_append, List.foldl_append, foldl_or]
  rfl

theorem givenValue_of_notMem {name : Option (List Char)} (missing : name ∉ us.map PropertyMeta.name) :
    givenValue name us = none := by
  have none : (us.filter fun p => p.name = name) = [] :=
    List.filter_eq_nil_iff.mpr fun p mem same =>
      missing (List.mem_map.mpr ⟨p, mem, of_decide_eq_true same⟩)
  rw [givenValue, none]
  rfl

theorem givenValue_of_mem (distinct : (current.map PropertyMeta.name).Nodup) {p : PropertyMeta}
    (mem : p ∈ current) : givenValue p.name current = p.value := by
  obtain ⟨before, after, rfl⟩ := List.append_of_mem mem
  rw [List.map_append, List.map_cons, List.nodup_append, List.nodup_cons] at distinct
  have here : givenValue p.name [p] = p.value := by simp [givenValue]
  rw [← List.singleton_append, givenValue_append, givenValue_append, here,
    givenValue_of_notMem distinct.2.1.1, Option.none_or,
    givenValue_of_notMem fun mem => distinct.2.2 _ mem _ List.mem_cons_self rfl, Option.or_none]

theorem foldl_merge_value (us : List PropertyMeta) (p : PropertyMeta) :
    (us.foldl PropertyMeta.merge p).value = (us.foldl (fun v p => p.value.or v) none).or p.value := by
  rw [← foldl_or]
  exact (List.foldl_hom PropertyMeta.value fun _ _ => rfl).symm

theorem propertiesUpdated_eq (current us : List PropertyMeta) :
    propertiesUpdated current us =
      (current.map fun p => ⟨p.name, (givenValue p.name us).or p.value⟩) ++
        (fresh (current.map PropertyMeta.name) (us.map PropertyMeta.name)).map fun name =>
          ⟨name, givenValue name us⟩ := by
  have eta : ∀ p : PropertyMeta, p = ⟨p.name, p.value⟩ := fun p => rfl
  rw [propertiesUpdated, upserts, absorb]
  congr 1
  · refine List.map_congr_left fun p _ => ?_
    rw [eta (List.foldl _ _ _), key_foldl_filter PropertyMeta.merge_keeps,
      foldl_merge_value]
    rfl
  · refine List.map_congr_left fun name mem => ?_
    rw [eta (List.foldl _ _ _),
      key_foldl_blank PropertyMeta.merge_keeps PropertyMeta.merge_new (mem_fresh.mp mem).1, foldl_merge_value,
      Option.or_none]
    rfl

theorem propertiesUpdated_eq_iff (distinct : (current.map PropertyMeta.name).Nodup) :
    propertiesUpdated current us = propertiesUpdated current us' ↔
      fresh (current.map PropertyMeta.name) (us.map PropertyMeta.name) =
          fresh (current.map PropertyMeta.name) (us'.map PropertyMeta.name) ∧
        ∀ name, givenValue name (current ++ us) = givenValue name (current ++ us') := by
  rw [propertiesUpdated_eq, propertiesUpdated_eq]
  constructor
  · intro same
    obtain ⟨old, new⟩ := List.append_inj same (by rw [List.length_map, List.length_map])
    have names := congrArg (List.map PropertyMeta.name) new
    rw [List.map_map, List.map_map] at names
    replace names : fresh (current.map PropertyMeta.name) (us.map PropertyMeta.name) =
        fresh (current.map PropertyMeta.name) (us'.map PropertyMeta.name) := by
      simpa [Function.comp_def] using names
    refine ⟨names, fun name => ?_⟩
    rw [givenValue_append, givenValue_append]
    by_cases known : name ∈ current.map PropertyMeta.name
    · obtain ⟨p, mem, rfl⟩ := List.mem_map.mp known
      rw [givenValue_of_mem distinct mem]
      exact congrArg PropertyMeta.value (List.map_inj_left.mp old p mem)
    · by_cases named : name ∈ us.map PropertyMeta.name
      · rw [names] at new
        have here := mem_fresh.mpr ⟨named, known⟩
        rw [names] at here
        rw [show givenValue name us = givenValue name us' from
          congrArg PropertyMeta.value (List.map_inj_left.mp new name here)]
      · have other : name ∉ us'.map PropertyMeta.name := fun mem => by
          have here := mem_fresh.mpr ⟨mem, known⟩
          rw [← names] at here
          exact named (mem_fresh.mp here).1
        rw [givenValue_of_notMem named, givenValue_of_notMem other]
  · rintro ⟨names, values⟩
    rw [names]
    congr 1
    · refine List.map_congr_left fun p mem => ?_
      have value := values p.name
      rw [givenValue_append, givenValue_append, givenValue_of_mem distinct mem] at value
      rw [value]
    · refine List.map_congr_left fun name mem => ?_
      have value := values name
      rw [givenValue_append, givenValue_append, givenValue_of_notMem (mem_fresh.mp mem).2, Option.or_none,
        Option.or_none] at value
      rw [value]

theorem overruled_iff (distinct : (current.map PropertyMeta.name).Nodup) :
    propertiesUpdated current (front ++ properties) =
        propertiesUpdated current (front ++ (rest ++ properties)) ↔
      Overruled (current ++ front) rest properties := by
  have known : ∀ name, name ∈ front.map PropertyMeta.name ++ current.map PropertyMeta.name ↔
      name ∈ (current ++ front).map PropertyMeta.name := fun name => by
    rw [List.map_append, List.mem_append, List.mem_append, or_comm]
  rw [propertiesUpdated_eq_iff distinct, List.map_append, List.map_append, List.map_append, fresh_append,
    fresh_append, List.append_cancel_left_eq, fresh_congr known, fresh_congr known, eq_comm,
    fresh_append_eq_iff]
  have values : ∀ name, givenValue name (current ++ (front ++ properties)) =
      givenValue name (current ++ (front ++ (rest ++ properties))) ↔
        givenValue name properties ≠ none ∨ givenValue name rest = none ∨
          givenValue name rest = givenValue name (current ++ front) := by
    intro name
    rw [← List.append_assoc, ← List.append_assoc, givenValue_append, givenValue_append name (current ++ front),
      givenValue_append name rest]
    generalize givenValue name (current ++ front) = before
    cases givenValue name properties <;> cases givenValue name rest <;> simp [eq_comm]
  simp only [values]
  exact ⟨fun both => ⟨both.1, both.2⟩, fun both => ⟨both.names, both.values⟩⟩

theorem givenFirst_eq (unique : UniquelyNamed (current.map PropertyMeta.name))
    (same : SameFirst current given) : givenFirst given current = propertiesUpdated current (given.take 1) := by
  rw [propertiesUpdated, ← foldl_upsert PropertyMeta.merge_keeps PropertyMeta.merge_new unique.2]
  cases given with
  | nil => rfl
  | cons first rest =>
      cases current with
      | nil => rfl
      | cons p ps =>
          have named : p.name = first.name := same p rfl first rfl
          simp [givenFirst, upsert, modifyFirst, named]

theorem givenFirst_names (named : none ∉ given.map PropertyMeta.name)
    (currentNamed : none ∉ current.map PropertyMeta.name) :
    none ∉ (givenFirst given current).map PropertyMeta.name := by
  cases given with
  | nil => exact currentNamed
  | cons first rest =>
      rw [List.map_cons, List.mem_cons, not_or] at named
      cases current with
      | nil => simpa [givenFirst, PropertyMeta.merge] using named.1
      | cons p ps =>
          rw [List.map_cons, List.mem_cons, not_or] at currentNamed
          have first : none ≠ (p.merge first).name := fun no => by
            rw [PropertyMeta.merge_name] at no
            exact named.1 (Option.or_eq_none_iff.mp no.symm).1.symm
          simpa [givenFirst, first] using currentNamed.2

theorem mergeEach_head (some : current ≠ []) (named : none ∉ current.map PropertyMeta.name)
    (known : none ∉ us.map PropertyMeta.name) {merged : List PropertyMeta}
    (ret : mergeEach PropertyMeta.name (fun p q => .ret (p.merge q)) {} current us = .ret merged) :
    (merged.map PropertyMeta.name).head? = (current.map PropertyMeta.name).head? := by
  induction us generalizing current with
  | nil =>
      cases ret
      rfl
  | cons u us ih =>
      rw [List.map_cons, List.mem_cons, not_or] at known
      rw [mergeEach, mergesBy_property.named trivial (Ne.symm known.1) some (named_iff.mp named)
        (fun _ _ => trivial), Outcome.ret_bind] at ret
      obtain ⟨p, ps, rfl⟩ := List.exists_cons_of_ne_nil some
      rcases upsert_keys PropertyMeta.merge_keeps PropertyMeta.merge_new (p :: ps) u with keys | keys
      · rw [ih (fun no => by rw [no] at keys; cases keys) (by rwa [keys]) known.2 ret, keys]
      · rw [ih (fun no => by rw [no] at keys; cases keys) ?_ known.2 ret, keys]
        · rfl
        · rw [keys, List.mem_append, List.mem_singleton, not_or]
          exact ⟨named, known.1⟩

theorem propertiesUpdated_head (some : current ≠ []) :
    ((propertiesUpdated current us).map PropertyMeta.name).head? =
      (current.map PropertyMeta.name).head? := by
  obtain ⟨p, ps, rfl⟩ := List.exists_cons_of_ne_nil some
  rw [propertiesUpdated, upserts_keys PropertyMeta.merge_keeps PropertyMeta.merge_new]
  rfl

/-- The loop over the properties behind the merge of the given meta, where that is for the first
property. -/
theorem mergeList_given (unique : UniquelyNamed (current.map PropertyMeta.name))
    (named : none ∉ given.map PropertyMeta.name) (known : none ∉ properties.map PropertyMeta.name)
    (same : SameFirst current given) :
    mergeList PropertyMeta.name (fun p q => .ret (p.merge q)) {} (givenFirst given current) properties =
      .ret (propertiesUpdated current (given.take 1 ++ properties)) := by
  have first : none ∉ (given.take 1).map PropertyMeta.name := fun mem => by
    rw [List.map_take] at mem
    exact named (List.mem_of_mem_take mem)
  rw [givenFirst_eq unique same, mergeList_properties (propertiesUpdated_unique unique first) known,
    propertiesUpdated_append]

theorem sameFirst_of_mergeList (currentNamed : none ∉ current.map PropertyMeta.name)
    (named : none ∉ given.map PropertyMeta.name) (known : none ∉ properties.map PropertyMeta.name)
    (ret : mergeList PropertyMeta.name (fun p q => .ret (p.merge q)) {} (givenFirst given current)
      properties = .ret (propertiesUpdated current us)) : SameFirst current given := by
  intro p pFirst q qFirst
  cases current with
  | nil => cases pFirst
  | cons p' ps =>
      cases given with
      | nil => cases qFirst
      | cons q' qs =>
          cases pFirst
          cases qFirst
          rw [mergeList, if_neg fun no => List.cons_ne_nil _ _ no.2] at ret
          have head := mergeEach_head (List.cons_ne_nil _ _) (givenFirst_names named currentNamed) known ret
          rw [propertiesUpdated_head (List.cons_ne_nil _ _)] at head
          rw [List.map_cons, List.mem_cons, not_or] at named
          obtain ⟨name, isSome⟩ := Option.ne_none_iff_exists'.mp (Ne.symm named.1)
          simpa [givenFirst, PropertyMeta.merge, isSome] using head

end

def MetaUpdate.given (update : MetaUpdate) : List PropertyMeta :=
  (update.meta_.map Meta.properties).getD []

/-- A meta that is given has a timestamp, its first property is for the first property of the node, and
the others make no difference; and the last enumeration for each transducer has only whole entries. -/
structure MetaUpdate.Works (update : MetaUpdate) (current : Meta) : Prop where
  timestamp : ∀ m, update.meta_ = some m → m.timestamp ≠ none
  first : SameFirst current.properties update.given
  rest : Overruled (current.properties ++ update.given.take 1) update.given.tail update.properties
  enumerations : ∀ t ∈ update.transducers, ∀ e ∈ lastEnumeration t.name update.transducers, e.whole

section
variable {current : Meta} {update : MetaUpdate}

theorem MetaUpdate.Named.given_named (named : update.Named) :
    none ∉ update.given.map PropertyMeta.name := by
  unfold MetaUpdate.given
  cases given : update.meta_ with
  | none => exact List.not_mem_nil
  | some m => exact named.given m given

variable (named : current.Named) (updateNamed : update.Named)
include named updateNamed

omit named updateNamed in
theorem bind_meta_iff (start : Meta) {result : Meta} {transducers : List TransducerMeta}
    {x : Outcome Undefined (List PropertyMeta)}
    (rest : { start with transducers := result.transducers, properties := result.properties } = result) :
    (x >>= fun properties => .ret { start with transducers, properties }) = .ret result ↔
      transducers = result.transducers ∧ x = .ret result.properties := by
  rw [Outcome.bind_eq_ret]
  constructor
  · rintro ⟨properties, ret, same⟩
    have same := Outcome.ret.inj same
    subst same
    exact ⟨rfl, ret⟩
  · rintro ⟨rfl, ret⟩
    exact ⟨_, ret, by rw [rest]⟩

/-- The one run, field by field. -/
theorem mergeUpdate_eq_iff :
    mergeUpdate current update = .ret (current.updated update) ↔
      (∀ m, update.meta_ = some m → m.timestamp ≠ none) ∧
        transducersUpdated enumMapMetaClone current.transducers update.transducers =
          transducersUpdated id current.transducers update.transducers ∧
        mergeList PropertyMeta.name (fun p q => .ret (p.merge q)) {}
            (givenFirst update.given current.properties) update.properties =
          .ret (propertiesUpdated current.properties (update.given ++ update.properties)) := by
  have loop := mergeList_transducers named.transducers named.inner updateNamed.transducers
    updateNamed.inner
  obtain ⟨given, transducers, properties⟩ := update
  cases given with
  | none =>
      rw [and_iff_right fun m no => by cases no]
      rw [mergeUpdate]
      simp only [mergeGiven, Outcome.ret_bind, loop]
      exact bind_meta_iff current rfl
  | some m =>
      rw [mergeUpdate]
      cases timestamp : m.timestamp with
      | none =>
          simp only [mergeGiven, metaMerge, timestamp, Outcome.throw_bind]
          exact iff_of_false (fun no => by cases no) fun all => all.1 m rfl timestamp
      | some time =>
          have given : ∀ m', some m = some m' → m'.timestamp ≠ none := by
            rintro m' ⟨⟩
            rw [timestamp]
            exact Option.some_ne_none time
          rw [and_iff_right given]
          simp only [mergeGiven, metaMerge, timestamp, Outcome.ret_bind, loop]
          refine bind_meta_iff { current with
            metaType := if m.metaType = .unknown then current.metaType else m.metaType
            name := m.name.or current.name
            info := m.info.or current.info
            geoloc := mergeGeoloc current.geoloc m.geoloc
            timestamp := some time } ?_
          ext1
          case metaType => cases type : m.metaType <;> simp [Meta.updated, type, Option.filter]
          case timestamp => simp [Meta.updated, timestamp]
          all_goals rfl

theorem Meta.Named.updated : (current.updated update).Named where
  transducers := named.transducers.upserts (TransducerMeta.updated_name id) rfl updateNamed.transducers
  inner := transducersUpdated_inner named.inner updateNamed.inner
  properties := by
    refine propertiesUpdated_unique named.properties ?_
    rw [List.map_append, List.mem_append, not_or]
    exact ⟨updateNamed.given_named, updateNamed.properties⟩

omit named updateNamed in
theorem Meta.updated_again : (current.updated update).updated update = current.updated update := by
  ext1
  case transducers =>
    exact upserts_again (keeps_of_names (TransducerMeta.updated_name id))
      (new_of_names (TransducerMeta.updated_name id) rfl) TransducerMeta.updated_again ..
  case properties => exact propertiesUpdated_again ..
  case geoloc =>
    change mergeGeoloc (mergeGeoloc _ _) _ = mergeGeoloc _ _
    rw [mergeGeoloc_assoc, mergeGeoloc_self]
  case metaType =>
    simp only [Meta.updated]
    cases (update.meta_.map Meta.metaType).filter (· ≠ .unknown) <;> rfl
  all_goals simp [Meta.updated, ← Option.or_assoc]

omit named updateNamed in
theorem Meta.updated_properties : (current.updated update).properties =
    propertiesUpdated current.properties (update.given ++ update.properties) := rfl

omit named updateNamed in
/-- After the update, its first property is for the first property of the node. -/
theorem MetaUpdate.Works.first_updated (works : update.Works current) :
    SameFirst (current.updated update).properties update.given := by
  intro p pFirst q qFirst
  have first : ((current.updated update).properties.map PropertyMeta.name).head? = some p.name := by
    rw [List.head?_map, Option.mem_def.mp pFirst]
    rfl
  rw [Meta.updated_properties] at first
  cases properties : current.properties with
  | nil =>
      obtain ⟨qs, given⟩ := List.head?_eq_some_iff.mp qFirst
      rw [properties, propertiesUpdated, upserts_keys PropertyMeta.merge_keeps PropertyMeta.merge_new,
        given] at first
      exact (Option.some.inj first).symm
  | cons p' ps =>
      rw [properties, propertiesUpdated_head (List.cons_ne_nil _ _)] at first
      have same := works.first p' (by rw [properties]; rfl) q qFirst
      exact (Option.some.inj first).symm.trans same

/-- An update is applied as it is meant, and once, exactly if it works. -/
theorem merges_iff : Merges current update ↔ update.Works current := by
  have once := mergeUpdate_eq_iff named updateNamed
  have given := updateNamed.given_named
  have split : update.given ++ update.properties =
      update.given.take 1 ++ (update.given.tail ++ update.properties) := by
    cases update.given <;> rfl
  constructor
  · rintro ⟨first, -⟩
    obtain ⟨timestamp, enumerations, loop⟩ := once.mp first
    have same := sameFirst_of_mergeList named.properties.1 given updateNamed.properties loop
    rw [mergeList_given named.properties given updateNamed.properties same, split] at loop
    exact ⟨timestamp, same, (overruled_iff named.properties.2).mp (Outcome.ret.inj loop),
      (transducersUpdated_clone_iff _ _).mp enumerations⟩
  · intro works
    have rest := (overruled_iff named.properties.2).mpr works.rest
    rw [← split] at rest
    have enumerations := fun transducers =>
      (transducersUpdated_clone_iff transducers update.transducers).mpr works.enumerations
    refine ⟨once.mpr ⟨works.timestamp, enumerations _, ?_⟩, ?_⟩
    · rw [mergeList_given named.properties given updateNamed.properties works.first, rest]
    · have again := (mergeUpdate_eq_iff (named.updated updateNamed) updateNamed).mpr
        ⟨works.timestamp, enumerations _, ?_⟩
      · rwa [Meta.updated_again] at again
      · rw [mergeList_given (named.updated updateNamed).properties given updateNamed.properties
          works.first_updated, Meta.updated_properties, propertiesUpdated_again, ← rest,
          propertiesUpdated_again]

end

def nodeMeta : Meta where
  metaType := .device
  transducers := [{ name := some ['t'] }]
  properties := [⟨some ['a'], some ['1']⟩, ⟨some ['b'], some ['2']⟩]

theorem nodeMeta_named : nodeMeta.Named := by
  constructor <;> simp [UniquelyNamed, nodeMeta]

def unitUpdate (property : PropertyMeta) : MetaUpdate where
  meta_ := some { timestamp := some ['0'], properties := [property] }
  transducers := [{ name := some ['t'], unit := some ['V'] }]

theorem unitUpdate_named (name : List Char) (value : Option (List Char)) :
    (unitUpdate ⟨some name, value⟩).Named := by
  constructor <;> simp [unitUpdate]

theorem merges_iff_unit : Merges nodeMeta (unitUpdate ⟨some ['a'], some ['3']⟩) := by
  refine (merges_iff nodeMeta_named (unitUpdate_named _ _)).mpr ⟨?_, ?_, ⟨?_, ?_⟩, ?_⟩
  · rintro m ⟨⟩
    exact Option.some_ne_none _
  · rintro p ⟨⟩ q ⟨⟩
    rfl
  · exact List.nil_prefix
  · exact fun name => .inr (.inl rfl)
  · intro t mem e inside
    rw [List.mem_singleton.mp mem] at inside
    cases inside

/-- The second property of the node replaces the first. -/
theorem first_property_replaced :
    nodeMeta.Named ∧ (unitUpdate ⟨some ['b'], some ['3']⟩).Named ∧
      ¬ Merges nodeMeta (unitUpdate ⟨some ['b'], some ['3']⟩) := by
  refine ⟨nodeMeta_named, unitUpdate_named _ _, fun merges => ?_⟩
  have same := congrArg Meta.properties (Outcome.ret.inj merges.1)
  revert same
  decide

end Mio.LibMio
