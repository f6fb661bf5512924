import Mio.LibMio.MetaFields

/-! A meta that is written, reported and read. -/
namespace Mio.LibMio.MetaReader

open Xml (firstChunks)

section
variable {f g : TransducerMeta → TransducerMeta}

theorem updateLast_concat (ts : List TransducerMeta) (t : TransducerMeta) :
    updateLast f (ts ++ [t]) = ts ++ [f t] := by
  induction ts with
  | nil => rfl
  | cons s ts ih =>
      cases ts with
      | nil => rfl
      | cons r ts => exact congrArg (s :: ·) ih

theorem updateLast_updateLast (ts : List TransducerMeta) :
    updateLast f (updateLast g ts) = updateLast (f ∘ g) ts := by
  rcases List.eq_nil_or_concat ts with rfl | ⟨ts, t, rfl⟩
  · rfl
  · rw [List.concat_eq_append, updateLast_concat, updateLast_concat, updateLast_concat]
    rfl

theorem getLast?_updateLast (ts : List TransducerMeta) :
    (updateLast f ts).getLast? = ts.getLast?.map f := by
  rcases List.eq_nil_or_concat ts with rfl | ⟨ts, t, rfl⟩
  · rfl
  · rw [List.concat_eq_append, updateLast_concat, List.getLast?_concat, List.getLast?_concat]
    rfl

end

variable {m : Meta} {g h : Geoloc} {place : Target} {parser : ParserData}
variable {depth : ℤ} {above : List (Option Tag)} {f : GeolocField}

def reading (parser : ParserData) (m : Meta) (payload : Target) (listening : Bool) : MetaReader :=
  ⟨⟨.packet, .packet ⟨.meta_, 1, some m⟩⟩, parser, payload, listening⟩

theorem geoloc_setGeoloc (held : geoloc m place = some g) :
    geoloc (setGeoloc m h place) place = some h := by
  cases place with
  | geoloc => rfl
  | transducerGeoloc =>
      obtain ⟨t, last, -⟩ := Option.bind_eq_some_iff.mp held
      rw [geoloc, setGeoloc, getLast?_updateLast, last]
      rfl
  | _ => cases held

theorem setGeoloc_setGeoloc (m : Meta) (g h : Geoloc) (place : Target) :
    setGeoloc (setGeoloc m g place) h place = setGeoloc m h place := by
  cases place with
  | transducerGeoloc =>
      rw [setGeoloc, setGeoloc, setGeoloc, updateLast_updateLast]
      rfl
  | _ => rfl

theorem setGeoloc_self (held : geoloc m place = some g) : setGeoloc m g place = m := by
  cases place with
  | geoloc =>
      have same : m.geoloc = some g := held
      rw [setGeoloc, ← same]
  | transducerGeoloc =>
      obtain ⟨t, last, same⟩ := Option.bind_eq_some_iff.mp held
      obtain ⟨ts, split⟩ := List.getLast?_eq_some_iff.mp last
      rw [setGeoloc, split, updateLast_concat, ← same, ← split]
  | _ => cases held

theorem get_store {chunk : List Char} (stored : store g f chunk = .ret h) : (h.get f).isSome := by
  unfold store at stored
  cases present : g.get f with
  | some value =>
      rw [present] at stored
      cases stored
      rw [present]
      rfl
  | none =>
      rw [present] at stored
      cases read : readField f chunk with
      | some value =>
          rw [read] at stored
          cases stored
          rw [get_setField (readField_fits read), if_pos rfl]
          rfl
      | none =>
          rw [read] at stored
          cases stored

theorem store_again (present : (g.get f).isSome) (chunk : List Char) : store g f chunk = .ret g := by
  obtain ⟨value, eq⟩ := Option.isSome_iff_exists.mp present
  rw [store, eq]

theorem handle_chunk (name : parser.currElementName = some (.geolocField f))
    (held : geoloc m place = some g) (chunk : List Char) :
    handler.handle (reading parser m place true) (.characterData chunk) =
      store g f chunk >>= fun h => .ret (reading parser (setGeoloc m h place) place true) := by
  have real : place ≠ .strayGeoloc := by
    rintro rfl
    cases held
  change characterData (reading parser m place true) chunk = _
  simp only [characterData, reading, if_true, name, if_neg real, Response.packet, Outcome.ret_bind,
    Packet.meta, held]
  rfl

theorem run_chunks (name : parser.currElementName = some (.geolocField f))
    (held : geoloc m place = some g) (present : (g.get f).isSome) (chunks : List (List Char)) :
    handler.run (reading parser m place true) (chunks.map .characterData) =
      .ret (reading parser m place true) := by
  induction chunks with
  | nil => rfl
  | cons c chunks ih =>
      rw [List.map_cons, Xml.Handler.run, handle_chunk name held, store_again present]
      change handler.run (reading parser (setGeoloc m g place) place true) _ = _
      rw [setGeoloc_self held]
      exact ih

theorem handle_end {after : ParserData} (ended : parser.endElement = .ret after) (payload : Target)
    (listening : Bool) (name : Tag) :
    handler.handle (reading parser m payload listening) (.endElement name) =
      .ret (reading after m payload listening) := by
  change (parser.endElement >>= _) = _
  rw [ended]
  rfl

/-- A field is stored with its first chunk. -/
theorem run_field (inside : parser.Inside depth .geoloc above) {text : List Char} (filled : text ≠ [])
    {calls : List (Xml.Callback Tag Attr)}
    (reports : Xml.Reports [.tag (.geolocField f) .empty [.text text]] calls) :
    ∃ chunk after, firstChunks Tag.geolocField? calls = [(f, chunk)] ∧ after.Inside depth .geoloc above ∧
      ∀ m place g, geoloc m place = some g →
        handler.run (reading parser m place true) calls =
          store g f chunk >>= fun h => .ret (reading after (setGeoloc m h place) place true) := by
  obtain ⟨reported, inner, -, report, rfl⟩ := reports.of_tag
  obtain ⟨chunks, -, whole, rfl⟩ := report.of_text
  obtain ⟨after, ended, back⟩ := (inside.start (.geolocField f)).stop
  cases chunks with
  | nil => exact absurd whole.symm filled
  | cons first chunks =>
      refine ⟨first, after, ?_, back, ?_⟩
      · change (f, first) :: firstChunks Tag.geolocField? (chunks.map .characterData ++ [.endElement _]) = _
        rw [Xml.firstChunks_data]
        rfl
      · intro m place g held
        have name : (parser.startElement (.geolocField f)).currElementName =
            some (.geolocField f) := rfl
        rw [List.map_cons, List.cons_append]
        change handler.run (reading (parser.startElement (.geolocField f)) m place true)
          (.characterData first :: (chunks.map .characterData ++ [.endElement _])) = _
        rw [Xml.Handler.run, handle_chunk name held]
        cases stored : store g f first with
        | ret h =>
            simp only [Outcome.ret_bind]
            rw [Xml.Handler.run_append,
              run_chunks name (geoloc_setGeoloc held) (get_store stored), Outcome.ret_bind,
              Xml.Handler.run, handle_end ended]
            rfl
        | _ => rfl

theorem run_fields (inside : parser.Inside depth .geoloc above)
    {ws : List (GeolocField × GeolocValue)} (filled : ∀ p ∈ ws, printValue p.2 ≠ [])
    {calls : List (Xml.Callback Tag Attr)}
    (reports : Xml.Reports (ws.map fun p => geolocElement p.1 p.2) calls) :
    (firstChunks Tag.geolocField? calls).map Prod.fst = ws.map Prod.fst ∧
      ∃ after : ParserData, after.Inside depth .geoloc above ∧
        ∀ m place g, geoloc m place = some g →
          handler.run (reading parser m place true) calls =
            storeAll g (firstChunks Tag.geolocField? calls) >>= fun h =>
              .ret (reading after (setGeoloc m h place) place true) := by
  induction ws generalizing parser calls with
  | nil =>
      cases reports
      refine ⟨rfl, parser, inside, fun m place g held => ?_⟩
      change _ = Outcome.ret (reading parser (setGeoloc m g place) place true)
      rw [setGeoloc_self held]
      rfl
  | cons w ws ih =>
      obtain ⟨f, value⟩ := w
      obtain ⟨first, others⟩ := List.forall_mem_cons.mp filled
      obtain ⟨left, right, rfl, field, rest⟩ := reports.uncons
      obtain ⟨chunk, between, found, back, run⟩ := run_field inside first field
      obtain ⟨keys, after, last, runs⟩ := ih back others rest
      rw [Xml.firstChunks_append field, found]
      refine ⟨congrArg (f :: ·) keys, after, last, fun m place g held => ?_⟩
      rw [Xml.Handler.run_append, run m place g held, List.singleton_append, storeAll, bind_assoc,
        bind_assoc]
      apply congrArg
      funext h
      rw [Outcome.ret_bind, runs _ _ h (geoloc_setGeoloc held)]
      simp only [setGeoloc_setGeoloc]

/-- No text of a geoloc is empty. -/
def Filled (g : Geoloc) : Prop := ∀ t, ∀ text ∈ g.text t, text ≠ []

theorem printValue_ne_nil (filled : Filled g) {f : GeolocField} {value : GeolocValue}
    (present : g.get f = some value) : printValue value ≠ [] := by
  rcases f with n | t
  · obtain ⟨x, -, rfl⟩ := Option.map_eq_some_iff.mp present
    intro empty
    rcases List.take_eq_nil_iff.mp empty with zero | empty
    · cases zero
    · rw [Scan.printLf, List.append_eq_nil_iff, List.append_eq_nil_iff] at empty
      cases empty.2.2
  · obtain ⟨text, found, rfl⟩ := Option.map_eq_some_iff.mp present
    exact filled t text found

theorem writes_filled (filled : Filled g) : ∀ p ∈ g.writes Geoloc.order, printValue p.2 ≠ [] := by
  intro p mem
  obtain ⟨f, -, found⟩ := List.mem_filterMap.mp mem
  split at found
  · obtain ⟨value, source, rfl⟩ := Option.map_eq_some_iff.mp found
    exact printValue_ne_nil filled source
  · cases found

theorem run_geoloc {owner : Tag} (inside : parser.Inside depth owner above) (filled : Filled g)
    {calls : List (Xml.Callback Tag Attr)} (reports : Xml.Reports [g.stanza] calls) :
    (firstChunks Tag.geolocField? calls).map Prod.fst = (g.writes Geoloc.order).map Prod.fst ∧
      ∃ after : ParserData, after.Inside depth owner above ∧
        ∀ m place payload listening,
          (∀ reported, handler.handle (reading parser m payload listening)
              (.startElement .geoloc reported) =
            .ret (reading (parser.startElement .geoloc) (setGeoloc m {} place) place true)) →
          geoloc (setGeoloc m {} place) place = some {} →
          handler.run (reading parser m payload listening) calls =
            storeAll {} (firstChunks Tag.geolocField? calls) >>= fun h =>
              .ret (reading after (setGeoloc m h place) place true) := by
  obtain ⟨reported, inner, -, fields, rfl⟩ := reports.of_tag
  obtain ⟨keys, last, within, runs⟩ := run_fields (inside.start .geoloc) (writes_filled filled) fields
  obtain ⟨after, ended, back⟩ := within.stop
  rw [Xml.firstChunks_around rfl reported fields]
  refine ⟨keys, after, back, fun m place payload listening start held => ?_⟩
  rw [Xml.Handler.run, start, Outcome.ret_bind, Xml.Handler.run_append, runs _ _ _ held, bind_assoc]
  apply congrArg
  funext h
  rw [Outcome.ret_bind, Xml.Handler.run, handle_end ended, setGeoloc_setGeoloc]
  rfl

theorem handle_geoloc_of_meta (name : parser.currElementName = some .meta_) (m : Meta)
    (listening : Bool) (reported : List (Attr × List Char)) :
    handler.handle (reading parser m .meta_ listening) (.startElement .geoloc reported) =
      .ret (reading (parser.startElement .geoloc) (setGeoloc m {} .geoloc) .geoloc true) := by
  have prev : (parser.startElement .geoloc).prevElementName = some .meta_ := name
  change geolocStart _ _ = _
  simp only [geolocStart, reading, prev, Packet.meta]
  rfl

theorem handle_geoloc_of_transducer (name : parser.currElementName = some .transducer) (m : Meta)
    (listening : Bool) (reported : List (Attr × List Char)) :
    handler.handle (reading parser m .transducer listening) (.startElement .geoloc reported) =
      .ret (reading (parser.startElement .geoloc) (setGeoloc m {} .transducerGeoloc)
        .transducerGeoloc true) := by
  have prev : (parser.startElement .geoloc).prevElementName = some .transducer := name
  change geolocStart _ _ = _
  simp only [geolocStart, reading, prev, Packet.meta]
  rfl

/-- An element without children opens and closes. -/
theorem run_empty {owner name : Tag} (inside : parser.Inside depth owner above)
    {a : Xml.Attributes Attr} {calls : List (Xml.Callback Tag Attr)}
    (reports : Xml.Reports [.tag name a []] calls) :
    firstChunks Tag.geolocField? calls = [] ∧ ∃ reported, reported.Perm a.entries ∧
      ∃ after : ParserData, after.Inside depth owner above ∧
        ∀ x : MetaReader, ∀ m payload listening,
          handler.handle x (.startElement name reported) =
            .ret (reading (parser.startElement name) m payload listening) →
          handler.run x calls = .ret (reading after m payload listening) := by
  obtain ⟨reported, inner, order, none, rfl⟩ := reports.of_tag
  cases none
  obtain ⟨after, ended, back⟩ := (inside.start name).stop
  refine ⟨rfl, reported, order, after, back, fun x m payload listening start => ?_⟩
  rw [Xml.Handler.run, start, Outcome.ret_bind, List.nil_append, Xml.Handler.run, handle_end ended]
  rfl

theorem run_children {ι σ : Type} {owner : Tag} {element : ι → MioStanza}
    (hold : σ → ParserData → Bool → MetaReader) (put : σ → List ι → σ) (put_nil : ∀ s, put s [] = s)
    (put_cons : ∀ s i is, put (put s [i]) is = put s (i :: is))
    (run_child : ∀ {parser : ParserData} {i : ι} {calls : List (Xml.Callback Tag Attr)},
      parser.Inside depth owner above → Xml.Reports [element i] calls →
        firstChunks Tag.geolocField? calls = [] ∧ ∃ after : ParserData, after.Inside depth owner above ∧
          ∀ s listening,
            handler.run (hold s parser listening) calls = .ret (hold (put s [i]) after false))
    (inside : parser.Inside depth owner above) {is : List ι} {calls : List (Xml.Callback Tag Attr)}
    (reports : Xml.Reports (is.map element) calls) :
    firstChunks Tag.geolocField? calls = [] ∧ ∃ after : ParserData, after.Inside depth owner above ∧
      ∀ listening, ∃ listening', ∀ s,
        handler.run (hold s parser listening) calls = .ret (hold (put s is) after listening') := by
  induction is generalizing parser calls with
  | nil =>
      cases reports
      refine ⟨rfl, parser, inside, fun listening => ⟨listening, fun s => ?_⟩⟩
      rw [put_nil]
      rfl
  | cons i is ih =>
      obtain ⟨left, right, rfl, first, rest⟩ := reports.uncons
      obtain ⟨none, between, back, run⟩ := run_child inside first
      obtain ⟨empty, after, last, runs⟩ := ih back rest
      rw [Xml.firstChunks_append first, none, empty]
      refine ⟨rfl, after, last, fun listening => ?_⟩
      obtain ⟨listening', onward⟩ := runs false
      refine ⟨listening', fun s => ?_⟩
      rw [Xml.Handler.run_append, run, Outcome.ret_bind, onward, put_cons]

def holding (m : Meta) (ts : List TransducerMeta) (t : TransducerMeta) : Meta :=
  { m with transducers := ts ++ [t] }

theorem setGeoloc_holding (m : Meta) (ts : List TransducerMeta) (t : TransducerMeta) (h : Geoloc) :
    setGeoloc (holding m ts t) h .transducerGeoloc = holding m ts { t with geoloc := some h } := by
  rw [setGeoloc, holding, updateLast_concat]
  rfl

theorem geoloc_holding (m : Meta) (ts : List TransducerMeta) (t : TransducerMeta) (h : Geoloc) :
    geoloc (holding m ts { t with geoloc := some h }) .transducerGeoloc = some h := by
  rw [geoloc, holding, List.getLast?_concat]
  rfl

theorem run_map (inside : parser.Inside depth .transducer above) {e : EnumMapMeta}
    {calls : List (Xml.Callback Tag Attr)} (reports : Xml.Reports [mapToStanza e] calls) :
    firstChunks Tag.geolocField? calls = [] ∧ ∃ after : ParserData, after.Inside depth .transducer above ∧
      ∀ m ts t payload listening,
        handler.run (reading parser (holding m ts t) payload listening) calls =
          .ret (reading after
            (holding m ts { t with enumeration := t.enumeration ++ [e] }) payload false) := by
  obtain ⟨none, reported, order, after, back, run⟩ := run_empty inside reports
  refine ⟨none, after, back, fun m ts t payload listening => run _ _ _ _ ?_⟩
  have read : reported.foldl readMap {} = e := by
    rw [foldl_readMap order]
    simp [Xml.Attributes.get_setIfAny]
  have nonempty : (holding m ts t).transducers ≠ [] := by simp [holding]
  change mapStart (reading (parser.startElement .map) (holding m ts t) payload listening)
    ⟨.meta_, 1, some (holding m ts t)⟩ reported = _
  simp only [mapStart, reading, Packet.meta, Outcome.ret_bind, nonempty, if_false, read]
  rw [holding, updateLast_concat]
  rfl

theorem run_maps (inside : parser.Inside depth .transducer above) {es : List EnumMapMeta}
    {calls : List (Xml.Callback Tag Attr)} (reports : Xml.Reports (es.map mapToStanza) calls) :
    firstChunks Tag.geolocField? calls = [] ∧ ∃ after : ParserData, after.Inside depth .transducer above ∧
      ∀ payload listening, ∃ listening', ∀ m ts t,
        handler.run (reading parser (holding m ts t) payload listening) calls =
          .ret (reading after
            (holding m ts { t with enumeration := t.enumeration ++ es }) payload listening') := by
  obtain ⟨none, after, back, runs⟩ := run_children
    (fun (s : Target × Meta × List TransducerMeta × TransducerMeta) parser listening =>
      reading parser (holding s.2.1 s.2.2.1 s.2.2.2) s.1 listening)
    (fun s es => (s.1, s.2.1, s.2.2.1, { s.2.2.2 with enumeration := s.2.2.2.enumeration ++ es }))
    (fun s => by simp) (fun s e es => by simp) (fun inside reports => by
      obtain ⟨none, after, back, run⟩ := run_map inside reports
      exact ⟨none, after, back, fun s listening => run _ _ _ _ _⟩) inside reports
  refine ⟨none, after, back, fun payload listening => ?_⟩
  obtain ⟨listening', onward⟩ := runs listening
  exact ⟨listening', fun m ts t => onward (payload, m, ts, t)⟩

theorem read_property {p : PropertyMeta} {reported : List (Attr × List Char)}
    (order : reported.Perm
      ((Xml.Attributes.empty.setIfAny .name p.name).setIfAny .value p.value).entries) :
    reported.foldl readProperty {} = p := by
  rw [foldl_readProperty order]
  simp [Xml.Attributes.get_setIfAny]

theorem run_property (inside : parser.Inside depth .transducer above) {p : PropertyMeta}
    {calls : List (Xml.Callback Tag Attr)} (reports : Xml.Reports [propertyToStanza p] calls) :
    firstChunks Tag.geolocField? calls = [] ∧ ∃ after : ParserData, after.Inside depth .transducer above ∧
      ∀ m ts t listening,
        handler.run (reading parser (holding m ts t) .transducer listening) calls =
          .ret (reading after
            (holding m ts { t with properties := t.properties ++ [p] }) .transducer false) := by
  obtain ⟨none, reported, order, after, back, run⟩ := run_empty inside reports
  refine ⟨none, after, back, fun m ts t listening => run _ _ _ _ ?_⟩
  have parents : (parser.startElement .property).parents = some .transducer :: above :=
    inside.parents
  change propertyStart _ _ _ = _
  simp only [propertyStart, reading, parents, Packet.meta, Outcome.ret_bind, read_property order]
  rw [holding, updateLast_concat]
  rfl

theorem run_properties (inside : parser.Inside depth .transducer above) {ps : List PropertyMeta}
    {calls : List (Xml.Callback Tag Attr)} (reports : Xml.Reports (ps.map propertyToStanza) calls) :
    firstChunks Tag.geolocField? calls = [] ∧ ∃ after : ParserData, after.Inside depth .transducer above ∧
      ∀ listening, ∃ listening', ∀ m ts t,
        handler.run (reading parser (holding m ts t) .transducer listening) calls =
          .ret (reading after
            (holding m ts { t with properties := t.properties ++ ps }) .transducer listening') := by
  obtain ⟨none, after, back, runs⟩ := run_children
    (fun (s : Meta × List TransducerMeta × TransducerMeta) parser listening =>
      reading parser (holding s.1 s.2.1 s.2.2) .transducer listening)
    (fun s ps => (s.1, s.2.1, { s.2.2 with properties := s.2.2.properties ++ ps }))
    (fun s => by simp) (fun s p ps => by simp) (fun inside reports => by
      obtain ⟨none, after, back, run⟩ := run_property inside reports
      exact ⟨none, after, back, fun s listening => run _ _ _ _⟩) inside reports
  refine ⟨none, after, back, fun listening => ?_⟩
  obtain ⟨listening', onward⟩ := runs listening
  exact ⟨listening', fun m ts t => onward (m, ts, t)⟩

/-- Behind a geoloc, a property takes the geoloc for its transducer. -/
theorem run_properties_of_geoloc (inside : parser.Inside depth .transducer above)
    {p : PropertyMeta} {ps : List PropertyMeta} {calls : List (Xml.Callback Tag Attr)}
    (reports : Xml.Reports ((p :: ps).map propertyToStanza) calls) (m : Meta) (listening : Bool) :
    handler.run (reading parser m .transducerGeoloc listening) calls = .abort "t_meta" := by
  obtain ⟨left, right, rfl, first, -⟩ := reports.uncons
  obtain ⟨reported, inner, -, -, rfl⟩ := first.of_tag
  have parents : (parser.startElement .property).parents = some .transducer :: above :=
    inside.parents
  have stuck : handler.handle (reading parser m .transducerGeoloc listening)
      (.startElement .property reported) = .abort "t_meta" := by
    change propertyStart _ _ _ = _
    simp only [propertyStart, reading, parents]
  rw [List.cons_append, Xml.Handler.run, stuck]
  rfl

def writes (geoloc : Option Geoloc) : List (GeolocField × GeolocValue) :=
  geoloc.elim [] fun g => g.writes Geoloc.order

/-- What is read of a transducer, given the first chunks of the fields. -/
def got (t : TransducerMeta) (firsts : List (GeolocField × List Char)) :
    Outcome Empty TransducerMeta :=
  match t.geoloc with
  | none => .ret { t with info := none }
  | some _ => do
      let g ← storeAll {} firsts
      if t.properties = [] then return { t with info := none, geoloc := some g }
      else .abort "t_meta"

def bare (t : TransducerMeta) : TransducerMeta :=
  { t with info := none, enumeration := [], geoloc := none, properties := [] }

theorem handle_transducer {t : TransducerMeta} {reported : List (Attr × List Char)}
    (order : reported.Perm t.attributes.entries) (known : m.metaType ≠ .unknown) (payload : Target)
    (listening : Bool) :
    handler.handle (reading parser m payload listening) (.startElement .transducer reported) =
      .ret (reading (parser.startElement .transducer) (holding m m.transducers (bare t)) .transducer
        false) := by
  change transducerStart (reading (parser.startElement .transducer) m payload listening)
    ⟨.meta_, 1, some m⟩ reported = _
  simp only [transducerStart, reading, Packet.meta, Outcome.ret_bind, t.read_attributes order]
  rw [if_pos known]
  rfl

theorem run_transducer (inside : parser.Inside depth .meta_ above) {t : TransducerMeta}
    (filled : ∀ g ∈ t.geoloc, Filled g) {calls : List (Xml.Callback Tag Attr)}
    (reports : Xml.Reports [t.stanza] calls) :
    (firstChunks Tag.geolocField? calls).map Prod.fst = (writes t.geoloc).map Prod.fst ∧
      ∃ after : ParserData, after.Inside depth .meta_ above ∧
        ∀ payload listening, ∃ payload' listening', ∀ m, m.metaType ≠ .unknown →
          handler.run (reading parser m payload listening) calls =
            got t (firstChunks Tag.geolocField? calls) >>= fun t' =>
              .ret (reading after (holding m m.transducers t') payload' listening') := by
  obtain ⟨reported, inner, order, children, rfl⟩ := reports.of_tag
  rw [Xml.firstChunks_around rfl reported children]
  have within := inside.start .transducer
  obtain ⟨front, properties, rfl, first, third⟩ := children.split
  obtain ⟨geolocs, maps, rfl, first, second⟩ := first.split
  rw [Xml.firstChunks_append (first.append second), Xml.firstChunks_append first]
  cases has : t.geoloc with
  | none =>
      rw [has] at first
      cases first
      obtain ⟨empty, _, back, enumerate⟩ := run_maps within second
      obtain ⟨empty', _, back, add⟩ := run_properties back third
      obtain ⟨after, ended, out⟩ := back.stop
      rw [empty, empty']
      refine ⟨rfl, after, out, fun payload listening => ?_⟩
      obtain ⟨l, mapped⟩ := enumerate .transducer false
      obtain ⟨l', added⟩ := add l
      refine ⟨.transducer, l', fun m known => ?_⟩
      rw [Xml.Handler.run, handle_transducer order known, Outcome.ret_bind, List.nil_append,
        List.append_assoc, Xml.Handler.run_append, mapped, Outcome.ret_bind, Xml.Handler.run_append,
        added, Outcome.ret_bind, Xml.Handler.run, handle_end ended, got, has]
      change Outcome.ret _ = Outcome.ret _
      rw [bare, List.nil_append, List.nil_append, ← has]
  | some g =>
      rw [has] at first
      obtain ⟨keys, _, back, locate⟩ := run_geoloc within (filled g has) first
      obtain ⟨empty, between, back, enumerate⟩ := run_maps back second
      obtain ⟨after, ended, out⟩ := back.stop
      rw [empty, (run_properties back third).1, List.append_nil, List.append_nil]
      refine ⟨keys, after, out, fun payload listening => ?_⟩
      obtain ⟨l, mapped⟩ := enumerate .transducerGeoloc true
      refine ⟨.transducerGeoloc, l, fun m known => ?_⟩
      have held : geoloc (setGeoloc (holding m m.transducers (bare t)) {} .transducerGeoloc)
          .transducerGeoloc = some {} := by
        rw [setGeoloc_holding, geoloc_holding]
      rw [Xml.Handler.run, handle_transducer order known, Outcome.ret_bind, List.append_assoc,
        List.append_assoc, Xml.Handler.run_append,
        locate _ .transducerGeoloc _ _ (handle_geoloc_of_transducer rfl _ _) held, got, has]
      simp only [bind_assoc]
      apply congrArg
      funext h
      rw [Outcome.ret_bind, setGeoloc_holding, Xml.Handler.run_append, mapped, Outcome.ret_bind,
        Xml.Handler.run_append]
      cases stands : t.properties with
      | nil =>
          rw [stands] at third
          cases third
          rw [Xml.Handler.run, Outcome.ret_bind, Xml.Handler.run, handle_end ended, if_pos rfl]
          change Outcome.ret _ = Outcome.ret _
          rw [bare, List.nil_append]
      | cons p ps =>
          rw [stands] at third
          rw [run_properties_of_geoloc back third, if_neg (List.cons_ne_nil p ps)]
          rfl

/-- What is read of transducers, each with the first chunks of its fields. -/
def gotAll : List TransducerMeta → List (List (GeolocField × List Char)) →
    Outcome Empty (List TransducerMeta)
  | t :: ts, firsts :: rest => do
      let first ← got t firsts
      let others ← gotAll ts rest
      return first :: others
  | _, _ => .ret []

theorem run_transducers (inside : parser.Inside depth .meta_ above) {ts : List TransducerMeta}
    (filled : ∀ t ∈ ts, ∀ g ∈ t.geoloc, Filled g) {calls : List (Xml.Callback Tag Attr)}
    (reports : Xml.Reports (ts.map TransducerMeta.stanza) calls) :
    ∃ fs : List (List (GeolocField × List Char)), firstChunks Tag.geolocField? calls = fs.flatten ∧
      List.Forall₂ (fun t firsts => firsts.map Prod.fst = (writes t.geoloc).map Prod.fst) ts fs ∧
      ∃ after : ParserData, after.Inside depth .meta_ above ∧
        ∀ payload listening, ∃ payload' listening', ∀ m, m.metaType ≠ .unknown →
          handler.run (reading parser m payload listening) calls =
            gotAll ts fs >>= fun ts' =>
              .ret (reading after { m with transducers := m.transducers ++ ts' } payload'
                listening') := by
  induction ts generalizing parser calls with
  | nil =>
      cases reports
      refine ⟨[], rfl, .nil, parser, inside, fun payload listening => ⟨payload, listening, ?_⟩⟩
      intro m known
      change _ = Outcome.ret (reading parser { m with transducers := m.transducers ++ [] } _ _)
      rw [List.append_nil]
      rfl
  | cons t ts ih =>
      obtain ⟨first, others⟩ := List.forall_mem_cons.mp filled
      obtain ⟨left, right, rfl, one, rest⟩ := reports.uncons
      obtain ⟨keys, between, back, run⟩ := run_transducer inside first one
      obtain ⟨fs, flat, all, after, last, runs⟩ := ih back others rest
      refine ⟨firstChunks Tag.geolocField? left :: fs, ?_, .cons keys all, after, last,
        fun payload listening => ?_⟩
      · rw [Xml.firstChunks_append one, flat]
        rfl
      · obtain ⟨payload₁, listening₁, onward⟩ := run payload listening
        obtain ⟨payload₂, listening₂, finish⟩ := runs payload₁ listening₁
        refine ⟨payload₂, listening₂, fun m known => ?_⟩
        have finishes : ∀ t', handler.run
            (reading between (holding m m.transducers t') payload₁ listening₁) right =
              gotAll ts fs >>= fun ts' => .ret (reading after
                { m with transducers := m.transducers ++ t' :: ts' } payload₂ listening₂) := by
          intro t'
          rw [finish (holding m m.transducers t') known]
          apply congrArg
          funext ts'
          rw [holding, List.append_assoc, List.singleton_append]
        rw [Xml.Handler.run_append, onward m known, gotAll]
        simp only [bind_assoc, Outcome.ret_bind, finishes]
        rfl

/-- A property of the meta, which goes to the meta wherever the pointer points. -/
theorem run_meta_property (inside : parser.Inside depth .meta_ above) {p : PropertyMeta}
    {calls : List (Xml.Callback Tag Attr)} (reports : Xml.Reports [propertyToStanza p] calls) :
    firstChunks Tag.geolocField? calls = [] ∧ ∃ after : ParserData, after.Inside depth .meta_ above ∧
      ∀ m payload listening,
        handler.run (reading parser m payload listening) calls =
          .ret (reading after { m with properties := m.properties ++ [p] } payload false) := by
  obtain ⟨none, reported, order, after, back, run⟩ := run_empty inside reports
  refine ⟨none, after, back, fun m payload listening => run _ _ _ _ ?_⟩
  have parents : (parser.startElement .property).parents = some .meta_ :: above :=
    inside.parents
  change propertyStart (reading (parser.startElement .property) m payload listening)
    ⟨.meta_, 1, some m⟩ reported = _
  simp only [propertyStart, reading, parents, Packet.meta, Outcome.ret_bind, read_property order]
  rfl

theorem run_meta_properties (inside : parser.Inside depth .meta_ above) {ps : List PropertyMeta}
    {calls : List (Xml.Callback Tag Attr)} (reports : Xml.Reports (ps.map propertyToStanza) calls) :
    firstChunks Tag.geolocField? calls = [] ∧ ∃ after : ParserData, after.Inside depth .meta_ above ∧
      ∀ payload listening, ∃ listening', ∀ m,
        handler.run (reading parser m payload listening) calls =
          .ret (reading after { m with properties := m.properties ++ ps } payload listening') := by
  obtain ⟨none, after, back, runs⟩ := run_children
    (fun (s : Target × Meta) parser listening => reading parser s.2 s.1 listening)
    (fun s ps => (s.1, { s.2 with properties := s.2.properties ++ ps }))
    (fun s => by simp) (fun s p ps => by simp) (fun inside reports => by
      obtain ⟨none, after, back, run⟩ := run_meta_property inside reports
      exact ⟨none, after, back, fun s listening => run _ _ _⟩) inside reports
  refine ⟨none, after, back, fun payload listening => ?_⟩
  obtain ⟨listening', onward⟩ := runs listening
  exact ⟨listening', fun m => onward (payload, m)⟩

/-- The geoloc that is read, given the first chunks of its fields. -/
def gotGeoloc (geoloc : Option Geoloc) (firsts : List (GeolocField × List Char)) :
    Outcome Empty (Option Geoloc) :=
  match geoloc with
  | none => .ret none
  | some _ => do
      let g ← storeAll {} firsts
      return some g

/-- The meta that is read, given the first chunks of its geoloc and of its transducers. -/
def gotMeta (m : Meta) (firsts : List (GeolocField × List Char))
    (fs : List (List (GeolocField × List Char))) : Outcome Empty Meta := do
  let geoloc ← gotGeoloc m.geoloc firsts
  let transducers ← gotAll m.transducers fs
  return { m with geoloc, transducers, properties := m.properties.filter PropertyMeta.whole }

theorem run_geoloc_of_meta (inside : parser.Inside depth .meta_ above)
    (name : parser.currElementName = some .meta_) {geoloc : Option Geoloc}
    (filled : ∀ g ∈ geoloc, Filled g) {calls : List (Xml.Callback Tag Attr)}
    (reports : Xml.Reports (geoloc.map Geoloc.stanza).toList calls) :
    (firstChunks Tag.geolocField? calls).map Prod.fst = (writes geoloc).map Prod.fst ∧
      ∃ after : ParserData, after.Inside depth .meta_ above ∧
        ∃ payload' listening', ∀ m : Meta, m.geoloc = none →
          handler.run (reading parser m .meta_ false) calls =
            gotGeoloc geoloc (firstChunks Tag.geolocField? calls) >>= fun g =>
              .ret (reading after { m with geoloc := g } payload' listening') := by
  cases geoloc with
  | none =>
      cases reports
      refine ⟨rfl, parser, inside, .meta_, false, fun m bare => ?_⟩
      change _ = Outcome.ret (reading parser { m with geoloc := none } _ _)
      rw [← bare]
      rfl
  | some g =>
      obtain ⟨keys, after, back, run⟩ := run_geoloc inside (filled g rfl) reports
      refine ⟨keys, after, back, .geoloc, true, fun m _ => ?_⟩
      rw [run m .geoloc _ _ (handle_geoloc_of_meta name m _) rfl, gotGeoloc]
      simp only [bind_assoc]
      apply congrArg
      funext h
      rfl

theorem handle_meta {type : List Char} (known : typeAttribute m.metaType = some type)
    {reported : List (Attr × List Char)} (order : reported.Perm (metaAttributes m type).entries)
    (payload : Target) (listening : Bool) :
    handler.handle (reading parser {} payload listening) (.startElement .meta_ reported) =
      .ret (reading (parser.startElement .meta_)
        { m with geoloc := none, transducers := [], properties := [] } .meta_ false) := by
  change metaStart (reading (parser.startElement .meta_) {} payload listening)
    ⟨.meta_, 1, some {}⟩ reported = _
  simp only [metaStart, reading, m.read_attributes known order]
  rfl

/-- No text of any geoloc is empty. -/
def AllFilled (m : Meta) : Prop :=
  (∀ g ∈ m.geoloc, Filled g) ∧ ∀ t ∈ m.transducers, ∀ g ∈ t.geoloc, Filled g

theorem run_metaElement {owner : Tag} (inside : parser.Inside depth owner above) {type : List Char}
    (known : typeAttribute m.metaType = some type) (filled : AllFilled m)
    {calls : List (Xml.Callback Tag Attr)}
    (reports : Xml.Reports [.tag .meta_ (metaAttributes m type) m.children] calls) :
    ∃ firsts fs, firstChunks Tag.geolocField? calls = firsts ++ fs.flatten ∧
      firsts.map Prod.fst = (writes m.geoloc).map Prod.fst ∧
      List.Forall₂ (fun t firsts => firsts.map Prod.fst = (writes t.geoloc).map Prod.fst)
        m.transducers fs ∧
      ∃ after : ParserData, after.Inside depth owner above ∧
        ∀ payload listening, ∃ payload' listening',
          handler.run (reading parser {} payload listening) calls =
            gotMeta m firsts fs >>= fun m' => .ret (reading after m' payload' listening') := by
  obtain ⟨reported, inner, order, children, rfl⟩ := reports.of_tag
  rw [Xml.firstChunks_around rfl reported children]
  have typed : m.metaType ≠ .unknown := by
    intro unknown
    rw [unknown] at known
    cases known
  obtain ⟨front, properties, rfl, first, third⟩ := children.split
  obtain ⟨geolocs, transducers, rfl, first, second⟩ := first.split
  rw [Xml.firstChunks_append (first.append second), Xml.firstChunks_append first]
  obtain ⟨keys, early, back, payload₁, listening₁, locate⟩ :=
    run_geoloc_of_meta (inside.start .meta_) rfl filled.1 first
  obtain ⟨fs, flat, all, between, back, read⟩ := run_transducers back filled.2 second
  obtain ⟨empty, _, back, add⟩ := run_meta_properties back third
  obtain ⟨after, ended, out⟩ := back.stop
  rw [flat, empty, List.append_nil]
  refine ⟨_, fs, rfl, keys, all, after, out, fun payload listening => ?_⟩
  obtain ⟨payload₂, listening₂, transduce⟩ := read payload₁ listening₁
  obtain ⟨listening₃, added⟩ := add payload₂ listening₂
  refine ⟨payload₂, listening₃, ?_⟩
  have transduced (g : Option Geoloc) : handler.run
      (reading early { m with geoloc := g, transducers := [], properties := [] } payload₁
        listening₁) transducers = gotAll m.transducers fs >>= fun ts => .ret (reading between
          { m with geoloc := g, transducers := ts, properties := [] } payload₂ listening₂) :=
    transduce _ typed
  rw [Xml.Handler.run, handle_meta known order, Outcome.ret_bind, List.append_assoc,
    List.append_assoc, Xml.Handler.run_append, locate _ rfl, gotMeta]
  simp only [bind_assoc]
  apply congrArg
  funext g
  rw [Outcome.ret_bind, Xml.Handler.run_append, transduced]
  simp only [bind_assoc]
  apply congrArg
  funext ts
  rw [Outcome.ret_bind, Xml.Handler.run_append, added, Outcome.ret_bind, Xml.Handler.run,
    handle_end ended]
  rfl

end Mio.LibMio.MetaReader
