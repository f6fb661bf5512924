import Mio.LibMio.MetaRun

/-! A meta that is written and read back. -/
namespace Mio.LibMio

open Xml (firstChunks)

/-- A geoloc up to what six decimals say of its numbers. -/
def Geoloc.rounded (g : Geoloc) : Geoloc := { g with number := fun n => (g.number n).map Scan.rounded }

def TransducerMeta.rounded (t : TransducerMeta) : TransducerMeta :=
  { t with geoloc := t.geoloc.map Geoloc.rounded }

def Meta.rounded (m : Meta) : Meta :=
  { m with
    geoloc := m.geoloc.map Geoloc.rounded
    transducers := m.transducers.map TransducerMeta.rounded }

theorem Geoloc.get_rounded (g : Geoloc) (f : GeolocField) :
    (g.rounded.get f).isSome = (g.get f).isSome := by
  rcases f with n | t
  · simp only [get, rounded, Option.isSome_map]
  · rfl

def fieldValues (geoloc : Option Geoloc) : List (GeolocField × GeolocValue) :=
  geoloc.elim [] Geoloc.values

/-- The fields of all geolocs, in order. -/
def Meta.fieldValues (m : Meta) : List (GeolocField × GeolocValue) :=
  LibMio.fieldValues m.geoloc ++ (m.transducers.map fun t => LibMio.fieldValues t.geoloc).flatten

def Geoloc.fields (g : Geoloc) : List (Geoloc × GeolocField) :=
  (Geoloc.order.filter fun f => (g.get f).isSome).map (g, ·)

def Meta.fields (m : Meta) : List (Geoloc × GeolocField) :=
  (m.geoloc.toList ++ m.transducers.flatMap fun t => t.geoloc.toList).flatMap Geoloc.fields

/-- The text that is written for a field. -/
def Geoloc.source (g : Geoloc) (f : GeolocField) : List Char :=
  (g.get (Geoloc.written f)).elim [] printValue

/-- What comes of a field whose first chunk has `n` characters: all of its text, or its number as far as
the chunk goes, of at most 127 characters; the altitude is that of the accuracy. -/
def Geoloc.Comes (g : Geoloc) (n : ℕ) : GeolocField → Prop
  | .number .alt =>
      (g.number .accuracy).bind (Scan.cut (min n 127)) = (g.number .alt).map Scan.rounded
  | .number k => (g.number k).bind (Scan.cut (min n 127)) = (g.number k).map Scan.rounded
  | .text t => ∀ text ∈ g.text t, text.length ≤ n

/-- Of a transducer all comes back. -/
def TransducerMeta.Kept (t : TransducerMeta) : Prop :=
  t.info = none ∧ (t.geoloc.isSome → t.properties = [])

namespace MetaReader

variable {g : Geoloc} {firsts : List (GeolocField × List Char)}

theorem writes_keys {geoloc : Option Geoloc} (writable : ∀ g ∈ geoloc, g.Writable) :
    (writes geoloc).map Prod.fst = (fieldValues (geoloc.map Geoloc.rounded)).map Prod.fst := by
  cases geoloc with
  | none => rfl
  | some g =>
      have sources := Geoloc.writable_iff.mp (writable g rfl)
      have written : g.writes Geoloc.order =
          Geoloc.order.filterMap fun f =>
            (if (g.get f).isSome then g.get (Geoloc.written f) else none).map (f, ·) := by
        apply List.filterMap_congr
        intro f mem
        split <;> rfl
      change (g.writes Geoloc.order).map Prod.fst = g.rounded.values.map Prod.fst
      rw [written, keys_filterMap, Geoloc.values_keys]
      apply List.filter_congr
      intro f mem
      rw [Geoloc.get_rounded]
      by_cases present : (g.get f).isSome
      · rw [if_pos present, present, sources f mem present]
      · rw [if_neg present, Option.isSome_none, eq_comm]
        exact Bool.eq_false_iff.mpr present

theorem gotGeoloc_eq_iff {geoloc : Option Geoloc}
    (keys : firsts.map Prod.fst = (fieldValues (geoloc.map Geoloc.rounded)).map Prod.fst) :
    gotGeoloc geoloc firsts = .ret (geoloc.map Geoloc.rounded) ↔
      readings firsts = known (fieldValues (geoloc.map Geoloc.rounded)) := by
  cases geoloc with
  | none =>
      have empty : firsts = [] := List.map_eq_nil_iff.mp keys
      subst empty
      exact ⟨fun _ => rfl, fun _ => rfl⟩
  | some g =>
      change _ ↔ readings firsts = known g.rounded.values
      rw [← storeAll_values keys, gotGeoloc, Outcome.bind_eq_ret]
      constructor
      · rintro ⟨h, stored, eq⟩
        injection eq with eq
        rw [stored, Option.some.inj eq]
      · intro stored
        exact ⟨_, stored, rfl⟩

theorem got_eq_iff {t : TransducerMeta}
    (keys : firsts.map Prod.fst = (fieldValues t.rounded.geoloc).map Prod.fst) :
    got t firsts = .ret t.rounded ↔
      t.Kept ∧ readings firsts = known (fieldValues t.rounded.geoloc) := by
  rw [TransducerMeta.rounded] at keys
  rw [TransducerMeta.Kept, TransducerMeta.rounded, ← gotGeoloc_eq_iff keys]
  cases has : t.geoloc with
  | none =>
      rw [got, has]
      constructor
      · intro eq
        injection eq with eq
        exact ⟨⟨(congrArg TransducerMeta.info eq).symm, fun present => by cases present⟩, rfl⟩
      · rintro ⟨⟨info, -⟩, -⟩
        rw [info]
        rfl
  | some g =>
      rw [got, has, gotGeoloc, Outcome.bind_eq_ret, Outcome.bind_eq_ret]
      constructor
      · rintro ⟨h, stored, eq⟩
        split at eq
        · next none =>
            injection eq with eq
            refine ⟨⟨(congrArg TransducerMeta.info eq).symm, fun _ => none⟩, h, stored, ?_⟩
            exact congrArg Outcome.ret (congrArg TransducerMeta.geoloc eq)
        · cases eq
      · rintro ⟨⟨info, properties⟩, h, stored, eq⟩
        injection eq with eq
        refine ⟨h, stored, ?_⟩
        rw [if_pos (properties rfl), eq, ← info]
        rfl

theorem readings_append_iff {vs : List (GeolocField × GeolocValue)}
    (keys : firsts.map Prod.fst = vs.map Prod.fst) (rest : List (GeolocField × List Char))
    (others : List (GeolocField × GeolocValue)) :
    readings (firsts ++ rest) = known (vs ++ others) ↔
      readings firsts = known vs ∧ readings rest = known others := by
  have same : (readings firsts).length = (known vs).length := by
    have length := congrArg List.length keys
    rw [List.length_map, List.length_map] at length
    rw [readings, known, List.length_map, List.length_map, length]
  simp only [readings, known, List.map_append] at same ⊢
  constructor
  · intro eq
    exact List.append_inj eq same
  · rintro ⟨first, second⟩
    rw [first, second]

theorem gotAll_eq_iff {ts : List TransducerMeta} {fs : List (List (GeolocField × List Char))}
    (keys : List.Forall₂ (fun t firsts =>
      firsts.map Prod.fst = (fieldValues t.rounded.geoloc).map Prod.fst) ts fs) :
    gotAll ts fs = .ret (ts.map TransducerMeta.rounded) ↔
      (∀ t ∈ ts, t.Kept) ∧ readings fs.flatten =
        known (ts.map fun t => fieldValues t.rounded.geoloc).flatten := by
  induction keys with
  | nil => simp [gotAll, readings, known]
  | @cons t firsts ts fs key keys ih =>
      rw [gotAll, List.flatten_cons, List.map_cons, List.map_cons, List.flatten_cons,
        readings_append_iff key, List.forall_mem_cons, and_and_and_comm, ← ih, ← got_eq_iff key,
        Outcome.bind_eq_ret]
      constructor
      · rintro ⟨t', first, eq⟩
        obtain ⟨ts', others, eq⟩ := Outcome.bind_eq_ret.mp eq
        injection eq with eq
        obtain ⟨rfl, rfl⟩ := List.cons.inj eq
        exact ⟨first, others⟩
      · rintro ⟨first, others⟩
        refine ⟨_, first, ?_⟩
        rw [others]
        rfl

theorem gotMeta_eq_iff {m : Meta} {fs : List (List (GeolocField × List Char))}
    (key : firsts.map Prod.fst = (fieldValues m.rounded.geoloc).map Prod.fst)
    (keys : List.Forall₂ (fun t firsts =>
      firsts.map Prod.fst = (fieldValues t.rounded.geoloc).map Prod.fst) m.transducers fs)
    (whole : ∀ p ∈ m.properties, p.whole) :
    gotMeta m firsts fs = .ret m.rounded ↔
      (∀ t ∈ m.transducers, t.Kept) ∧
        readings (firsts ++ fs.flatten) = known m.rounded.fieldValues := by
  have all : m.properties.filter PropertyMeta.whole = m.properties := List.filter_eq_self.mpr whole
  have values : m.rounded.fieldValues = fieldValues m.rounded.geoloc ++
      (m.transducers.map fun t => fieldValues t.rounded.geoloc).flatten := by
    rw [Meta.fieldValues, Meta.rounded, List.map_map]
    rfl
  rw [values, readings_append_iff key, gotMeta, all, Outcome.bind_eq_ret, and_left_comm,
    ← gotAll_eq_iff keys]
  constructor
  · rintro ⟨geoloc, first, eq⟩
    obtain ⟨transducers, others, eq⟩ := Outcome.bind_eq_ret.mp eq
    injection eq with eq
    have same : geoloc = m.geoloc.map Geoloc.rounded := congrArg Meta.geoloc eq
    have same' : transducers = m.transducers.map TransducerMeta.rounded :=
      congrArg Meta.transducers eq
    rw [same] at first
    rw [same'] at others
    exact ⟨(gotGeoloc_eq_iff key).mp first, others⟩
  · rintro ⟨first, others⟩
    refine ⟨_, (gotGeoloc_eq_iff key).mpr first, ?_⟩
    rw [others]
    rfl

/-- A reply to a query for the meta: an item inside `items`, inside `pubsub`, inside `iq`. -/
def reply (iq pubsub items : Xml.Attributes Attr) (item : MioStanza) : MioStanza :=
  .tag (.other "iq".toList) iq [.tag (.other "pubsub".toList) pubsub [.tag .items items [item]]]

/-- Behind the starts of a reply. -/
def atItem : ParserData :=
  (((({} : ParserData).startElement (.other "iq".toList)).startElement
    (.other "pubsub".toList)).startElement .items).startElement .item

/-- What is read of a faithful report of a reply. -/
theorem decodeMeta_eq {m : Meta} {type : List Char} (typed : typeAttribute m.metaType = some type)
    (filled : AllFilled m) {iq pubsub items : Xml.Attributes Attr}
    {calls : List (Xml.Callback Tag Attr)}
    (reports : Xml.Reports [reply iq pubsub items (m.item type)] calls) :
    ∃ firsts fs, firstChunks Tag.geolocField? calls = firsts ++ fs.flatten ∧
      firsts.map Prod.fst = (writes m.geoloc).map Prod.fst ∧
      List.Forall₂ (fun t firsts => firsts.map Prod.fst = (writes t.geoloc).map Prod.fst)
        m.transducers fs ∧
      decodeMeta calls = gotMeta m firsts fs >>= fun m' => .ret (some m') := by
  obtain ⟨r₁, _, _, pubsub, rfl⟩ := reports.of_tag
  obtain ⟨r₂, _, _, items, rfl⟩ := pubsub.of_tag
  obtain ⟨r₃, _, _, item, rfl⟩ := items.of_tag
  obtain ⟨r₄, inner, _, element, rfl⟩ := item.of_tag
  rw [Xml.firstChunks_around rfl r₁ pubsub, Xml.firstChunks_around rfl r₂ items,
    Xml.firstChunks_around rfl r₃ item, Xml.firstChunks_around rfl r₄ element]
  have inside := (((ParserData.inside_root (.other "iq".toList)).start
    (.other "pubsub".toList)).start .items).start .item
  obtain ⟨firsts, fs, flat, key, keys, _, back, run⟩ :=
    run_metaElement inside typed filled element
  refine ⟨firsts, fs, flat, key, keys, ?_⟩
  obtain ⟨payload, listening, read⟩ := run .null true
  obtain ⟨_, ended₄, back⟩ := back.stop
  obtain ⟨_, ended₃, back⟩ := back.stop
  obtain ⟨_, ended₂, back⟩ := back.stop
  obtain ⟨_, ended₁⟩ := back.finish
  rw [decodeMeta]
  simp only [List.cons_append, List.append_assoc, List.nil_append]
  change (handler.run (reading atItem {} .null true) (inner ++ _) >>= _) = _
  rw [Xml.Handler.run_append, atItem, read]
  simp only [bind_assoc]
  apply congrArg
  funext m'
  simp only [Outcome.ret_bind, Xml.Handler.run, handle_end ended₄, handle_end ended₃,
    handle_end ended₂, handle_end ended₁]
  rfl

theorem known_values (g : Geoloc) :
    known g.rounded.values = g.fields.map fun p => (p.2, p.1.rounded.get p.2) := by
  rw [known, Geoloc.values, Geoloc.fields, List.map_filterMap, List.map_map]
  apply filterMap_eq_map
  intro f _
  rw [← Geoloc.get_rounded]
  cases present : g.rounded.get f with
  | none => rfl
  | some value => exact congrArg (fun v => some (f, v)) present.symm

theorem known_fieldValues (m : Meta) :
    known m.rounded.fieldValues = m.fields.map fun p => (p.2, p.1.rounded.get p.2) := by
  have one (geoloc : Option Geoloc) : known (LibMio.fieldValues (geoloc.map Geoloc.rounded)) =
      (geoloc.toList.flatMap Geoloc.fields).map fun p => (p.2, p.1.rounded.get p.2) := by
    cases geoloc with
    | none => rfl
    | some g =>
        rw [Option.toList_some, List.flatMap_singleton]
        exact known_values g
  have all (ts : List TransducerMeta) :
      known ((ts.map TransducerMeta.rounded).map fun t => LibMio.fieldValues t.geoloc).flatten =
        ((ts.flatMap fun t => t.geoloc.toList).flatMap Geoloc.fields).map fun p =>
          (p.2, p.1.rounded.get p.2) := by
    induction ts with
    | nil => rfl
    | cons t ts ih =>
        rw [List.flatMap_cons, List.flatMap_append, List.map_append, ← ih, ← one t.geoloc, known, known,
          known, ← List.map_append]
        rfl
  rw [Meta.fieldValues, Meta.fields, List.flatMap_append, List.map_append, ← one, ← all, known, known, known,
    ← List.map_append]
  rfl

theorem texts_geoloc {g : Geoloc} (writable : g.Writable) (filled : Filled g) :
    g.stanza.texts Tag.geolocField? = g.fields.map fun p => (p.2, p.1.source p.2) := by
  have elements {ps : List (GeolocField × GeolocValue)} (some : ∀ p ∈ ps, printValue p.2 ≠ []) :
      Xml.texts Tag.geolocField? (ps.map fun p => geolocElement p.1 p.2) =
        ps.map fun p => (p.1, printValue p.2) := by
    induction ps with
    | nil => rfl
    | cons p ps ih =>
        obtain ⟨first, others⟩ := List.forall_mem_cons.mp some
        rw [List.map_cons, Xml.texts, ih others, List.map_cons]
        cases text : printValue p.2 with
        | nil => exact absurd text first
        | cons c cs =>
            simp [geolocElement, Xml.Stanza.texts, Tag.geolocField?, Xml.lead, Xml.texts, text]
  have written : (g.writes Geoloc.order).map (fun p => (p.1, printValue p.2)) =
      g.fields.map fun p => (p.2, p.1.source p.2) := by
    rw [Geoloc.writes, Geoloc.fields, List.map_filterMap, List.map_map]
    apply filterMap_eq_map
    intro f mem
    by_cases present : (g.get f).isSome
    · obtain ⟨value, source⟩ := Option.isSome_iff_exists.mp (Geoloc.writable_iff.mp writable f mem present)
      simp [present, source, Geoloc.source]
    · simp [present]
  rw [Geoloc.stanza, Xml.Stanza.texts, elements (writes_filled filled), written]
  rfl

theorem texts_reply {m : Meta} (writable : m.Writable) (filled : AllFilled m)
    (iq pubsub items : Xml.Attributes Attr) (type : List Char) :
    Xml.texts Tag.geolocField? [reply iq pubsub items (m.item type)] =
      m.fields.map fun p => (p.2, p.1.source p.2) := by
  have one {geoloc : Option Geoloc} (writable : ∀ g ∈ geoloc, g.Writable) (filled : ∀ g ∈ geoloc, Filled g) :
      Xml.texts Tag.geolocField? (geoloc.map Geoloc.stanza).toList =
        (geoloc.toList.flatMap Geoloc.fields).map fun p => (p.2, p.1.source p.2) := by
    cases geoloc with
    | none => rfl
    | some g =>
        have texts := texts_geoloc (writable g rfl) (filled g rfl)
        simp [Xml.texts, texts]
  have empty {ι : Type} {element : ι → MioStanza} (plain : ∀ i, (element i).texts Tag.geolocField? = [])
      (is : List ι) : Xml.texts Tag.geolocField? (is.map element) = [] := by
    induction is with
    | nil => rfl
    | cons i is ih => rw [List.map_cons, Xml.texts, plain, ih, List.nil_append]
  have all {ts : List TransducerMeta} (writable : ∀ t ∈ ts, t.Writable)
      (filled : ∀ t ∈ ts, ∀ g ∈ t.geoloc, Filled g) :
      Xml.texts Tag.geolocField? (ts.map TransducerMeta.stanza) =
        ((ts.flatMap fun t => t.geoloc.toList).flatMap Geoloc.fields).map fun p =>
          (p.2, p.1.source p.2) := by
    induction ts with
    | nil => rfl
    | cons t ts ih =>
        obtain ⟨first, others⟩ := List.forall_mem_cons.mp writable
        obtain ⟨first', others'⟩ := List.forall_mem_cons.mp filled
        have own : t.stanza.texts Tag.geolocField? = Xml.texts Tag.geolocField? t.children := rfl
        rw [List.map_cons, Xml.texts, ih others others', own, TransducerMeta.children, Xml.texts_append,
          Xml.texts_append, one first.2 first', empty fun _ => rfl, empty fun _ => rfl, List.append_nil,
          List.append_nil, List.flatMap_cons, List.flatMap_append, List.map_append]
  have whole : Xml.texts Tag.geolocField? [reply iq pubsub items (m.item type)] =
      Xml.texts Tag.geolocField? m.children ++ [] ++ [] ++ [] ++ [] ++ [] := rfl
  rw [whole, Meta.children, Xml.texts_append, Xml.texts_append, one writable.1 filled.1,
    all writable.2 filled.2, empty fun _ => rfl, ← List.map_append, ← List.flatMap_append]
  simp only [List.append_nil]
  rfl

theorem readField_number_iff {g : Geoloc} {k : GeolocNumber} {x y : ℚ} (own : g.number k = some x)
    (source : g.source (.number k) = printValue (.number y)) (n : ℕ) :
    readField (.number k) ((g.source (.number k)).take n) = g.rounded.get (.number k) ↔
      Scan.cut (min n 127) y = some (Scan.rounded x) := by
  have numbers : Function.Injective GeolocValue.number := fun _ _ eq => GeolocValue.number.inj eq
  have value : g.rounded.get (.number k) = (some (Scan.rounded x)).map GeolocValue.number := by
    simp [Geoloc.get, Geoloc.rounded, own]
  rw [source, printValue, List.take_take, readField, Scan.sscanf_take_printLf, value,
    (Option.map_injective numbers).eq_iff]

/-- A field comes back exactly if all of it comes in the first chunk. -/
theorem readField_iff_comes {g : Geoloc} (writable : g.Writable) {f : GeolocField}
    (present : (g.get f).isSome) (n : ℕ) :
    readField f ((g.source f).take n) = g.rounded.get f ↔ g.Comes n f := by
  rcases f with k | t
  · obtain ⟨x, own⟩ : ∃ x, g.number k = some x := by
      rwa [Geoloc.get, Option.isSome_map, Option.isSome_iff_exists] at present
    by_cases alt : k = .alt
    · subst alt
      obtain ⟨y, accuracy⟩ := Option.isSome_iff_exists.mp (writable (own ▸ rfl))
      have source : g.source (.number .alt) = printValue (.number y) := by
        simp [Geoloc.source, Geoloc.written, Geoloc.get, accuracy]
      rw [readField_number_iff own source, Geoloc.Comes, accuracy, own]
      rfl
    · have source : g.source (.number k) = printValue (.number x) := by
        cases k <;> first | exact absurd rfl alt | simp [Geoloc.source, Geoloc.written, Geoloc.get, own]
      have whole : g.Comes n (.number k) ↔
          (g.number k).bind (Scan.cut (min n 127)) = (g.number k).map Scan.rounded := by
        cases k <;> first | exact absurd rfl alt | rfl
      rw [readField_number_iff own source, whole, own]
      rfl
  · obtain ⟨text, own⟩ : ∃ text, g.text t = some text := by
      rwa [Geoloc.get, Option.isSome_map, Option.isSome_iff_exists] at present
    have source : g.source (.text t) = text := by
      simp [Geoloc.source, Geoloc.written, Geoloc.get, own, printValue]
    have value : g.rounded.get (.text t) = some (.text text) := by
      rw [Geoloc.get, Geoloc.rounded, own]
      rfl
    rw [source, value, readField, Geoloc.Comes, own]
    simp

/-- Fields are of geolocs that can be written. -/
theorem mem_fields {m : Meta} (writable : m.Writable) {p : Geoloc × GeolocField} (mem : p ∈ m.fields) :
    p.1.Writable ∧ (p.1.get p.2).isSome := by
  obtain ⟨g, own, field⟩ := List.mem_flatMap.mp mem
  obtain ⟨f, present, rfl⟩ := List.mem_map.mp field
  refine ⟨?_, (List.mem_filter.mp present).2⟩
  rcases List.mem_append.mp own with own | own
  · exact writable.1 g (Option.mem_toList.mp own)
  · obtain ⟨t, mem, own⟩ := List.mem_flatMap.mp own
    exact (writable.2 t mem).2 g (Option.mem_toList.mp own)

/-- A meta of a known type comes back exactly if no altitude stands without an accuracy and no
manufacturer without an interface, no transducer has an info or a geoloc and properties at once, and
each field of a geoloc comes in the first chunk of its text. -/
theorem meta_read_back_iff {m : Meta} {type : List Char} (typed : typeAttribute m.metaType = some type)
    (whole : ∀ p ∈ m.properties, p.whole) (filled : AllFilled m) {iq pubsub items : Xml.Attributes Attr}
    {calls : List (Xml.Callback Tag Attr)}
    (reports : Xml.Reports [reply iq pubsub items (m.item type)] calls) :
    metaToItem m = .ret (some (m.item type)) ∧ decodeMeta calls = .ret (some m.rounded) ↔
      m.Writable ∧ (∀ t ∈ m.transducers, t.Kept) ∧
        List.Forall₂ (fun p n => p.1.Comes n p.2) m.fields (Xml.firstLengths Tag.geolocField? calls) := by
  rw [metaToItem_eq_ret typed, and_iff_left rfl]
  apply and_congr_right
  intro writable
  obtain ⟨firsts, fs, flat, key, keys, eq⟩ := decodeMeta_eq typed filled reports
  rw [writes_keys writable.1] at key
  have all : List.Forall₂ (fun t firsts =>
      firsts.map Prod.fst = (fieldValues t.rounded.geoloc).map Prod.fst) m.transducers fs := by
    rw [List.forall₂_iff_get] at keys ⊢
    refine ⟨keys.1, fun i h₁ h₂ => ?_⟩
    rw [keys.2 i h₁ h₂]
    exact writes_keys (writable.2 _ (List.get_mem ..)).2
  have got : decodeMeta calls = .ret (some m.rounded) ↔ gotMeta m firsts fs = .ret m.rounded := by
    rw [eq, Outcome.bind_eq_ret]
    constructor
    · rintro ⟨m', got, same⟩
      injection same with same
      rw [got, Option.some.inj same]
    · intro got
      exact ⟨_, got, rfl⟩
  rw [got, gotMeta_eq_iff key all whole, ← flat]
  apply and_congr_right'
  have begin := reports.firstChunks_begin Tag.geolocField?
  rw [texts_reply writable filled] at begin
  rw [known_fieldValues]
  refine Xml.readings_iff _ _ (fun p mem n => ?_) begin
  obtain ⟨writable, present⟩ := mem_fields writable mem
  exact readField_iff_comes writable present n

def room : Meta where
  name := some ['n']
  metaType := .device
  geoloc := some
    { number := Function.update (fun _ => none) .lat (some 1)
      text := Function.update (fun _ => none) .room (some ['r']) }
  transducers := [{ name := some ['t'], properties := [⟨some ['a'], some ['b']⟩] }]
  properties := [⟨some ['p'], some ['v']⟩]

def deviceReply (m : Meta) : MioStanza := reply .empty .empty .empty (m.item "device".toList)

theorem room_read_back :
    metaToItem room = .ret (some (room.item "device".toList)) ∧
      decodeMeta (Xml.report [deviceReply room]) = .ret (some room.rounded) := by
  have typed : typeAttribute room.metaType = some "device".toList := rfl
  have filled : AllFilled room := by
    constructor
    · rintro g ⟨rfl⟩ t text present rfl
      cases t <;> cases present
    · intro t mem g has
      obtain rfl := List.mem_singleton.mp mem
      cases has
  have reports : Xml.Reports [reply .empty .empty .empty (room.item "device".toList)]
      (Xml.report [deviceReply room]) := Xml.reports_report _
  refine (meta_read_back_iff typed (by decide) filled reports).mpr ⟨⟨?_, ?_⟩, ?_, ?_⟩
  · rintro g ⟨rfl⟩ present
    cases present
  · intro t mem
    obtain rfl := List.mem_singleton.mp mem
    exact ⟨fun present => (by cases present), fun g has => (by cases has)⟩
  · intro t mem
    obtain rfl := List.mem_singleton.mp mem
    exact ⟨rfl, fun present => (by cases present)⟩
  · have fields : room.fields = (room.geoloc.toList.flatMap fun g =>
        [(g, .number .lat), (g, .text .room)]) := rfl
    have lengths : Xml.firstLengths Tag.geolocField? (Xml.report [deviceReply room]) = [8, 1] := by
      decide +kernel
    rw [fields, lengths]
    refine .cons ?_ (.cons ?_ .nil)
    · have whole : (Scan.printLf 1).length ≤ 8 := by decide +kernel
      exact Scan.cut_of_length_le whole
    · rintro text ⟨rfl⟩
      decide

def informed : Meta where
  metaType := .device
  transducers := [{ info := some ['i'] }]

/-- A transducer's info is read but not written. -/
theorem transducer_info_lost :
    ∃ item calls m', metaToItem informed = .ret (some item) ∧
      Xml.Reports [reply .empty .empty .empty item] calls ∧
      decodeMeta calls = .ret (some m') ∧ m' ≠ informed.rounded := by
  have typed : typeAttribute informed.metaType = some "device".toList := rfl
  refine ⟨_, Xml.report [deviceReply informed], { metaType := .device, transducers := [{}] },
    (metaToItem_eq_ret typed).mpr ⟨⟨?_, ?_⟩, rfl⟩, Xml.reports_report _, rfl, ?_⟩
  · rintro g ⟨⟩
  · intro t mem
    obtain rfl := List.mem_singleton.mp mem
    exact ⟨fun present => (by cases present), fun g has => (by cases has)⟩
  · intro same
    have infos := congrArg (fun m : Meta => m.transducers.map TransducerMeta.info) same
    cases infos

end MetaReader
end Mio.LibMio
