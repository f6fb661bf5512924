import Mathlib.Algebra.Group.Int.Defs
import Mathlib.Algebra.Group.Nat.Defs
import Mathlib.Data.Int.Basic
import Mathlib.Data.List.Basic
import Mathlib.Data.List.TakeWhile
import Mathlib.Tactic.Common
import Mio.Lib.Scan
import Mio.LibMio.Elements

/-! Schedules as XML: `mio_schedule_event_to_item` of `mio.c` writes an item, and the handlers of
`mio_handlers.c` read it back from the callbacks of the XML parser. -/
namespace Mio.LibMio

/-- `mio_recurrence_t`. -/
structure Recurrence where
  freq : Option (List Char) := none
  interval : Option (List Char) := none
  count : Option (List Char) := none
  until_ : Option (List Char) := none
  bymonth : Option (List Char) := none
  byday : Option (List Char) := none
  exdate : Option (List Char) := none
deriving DecidableEq

namespace Recurrence

def get (r : Recurrence) : Field → Option (List Char)
  | .freq => r.freq
  | .interval => r.interval
  | .count => r.count
  | .until_ => r.until_
  | .bymonth => r.bymonth
  | .byday => r.byday
  | .exdate => r.exdate

def set (r : Recurrence) (text : List Char) : Field → Recurrence
  | .freq => { r with freq := some text }
  | .interval => { r with interval := some text }
  | .count => { r with count := some text }
  | .until_ => { r with until_ := some text }
  | .bymonth => { r with bymonth := some text }
  | .byday => { r with byday := some text }
  | .exdate => { r with exdate := some text }

end Recurrence

/-- `mio_event_t`; a new one has the id -1. -/
@[ext] structure Event where
  id : ℤ := -1
  transducerName : Option (List Char) := none
  transducerValue : Option (List Char) := none
  time : Option (List Char) := none
  info : Option (List Char) := none
  recurrence : Option Recurrence := none
deriving DecidableEq

/-- `snprintf(id, 8, "%u", curr->id)`. -/
def printId (id : ℤ) : List Char := (Nat.toDigits 10 (id % 2 ^ 32).toNat).take 7

def eventAttributes (e : Event) : Xml.Attributes Attr :=
  let a := (Xml.Attributes.empty.set .id (printId e.id)).setIfAny .info e.info
  ((a.setIfAny .time e.time).setIfAny .transducerName e.transducerName).setIfAny .transducerValue
    e.transducerValue

def fieldStanza (f : Field) (text : List Char) : MioStanza := .tag (.recurrenceField f) .empty [.text text]

/-- `_mio_recurrence_element_add` under its test; a null text is dereferenced. -/
def elementAdd (parent : List MioStanza) (f : Field) (tested text : Option (List Char)) :
    Outcome Empty (List MioStanza) :=
  match tested, text with
  | none, _ => .ret parent
  | some _, some text => .ret (parent ++ [fieldStanza f text])
  | some _, none => .abort "xmpp_strdup"

/-- `_mio_recurrence_to_stanza`. -/
def recurrenceToStanza (r : Recurrence) : Outcome Empty MioStanza := do
  let children ← elementAdd [] .freq r.freq r.freq
  let children ← elementAdd children .interval r.interval r.interval
  let children ← elementAdd children .count r.count r.count
  let children ← elementAdd children .until_ r.until_ r.until_
  let children ← elementAdd children .bymonth r.bymonth r.bymonth
  -- sic
  let children ← elementAdd children .byday r.byday r.bymonth
  let children ← elementAdd children .exdate r.exdate r.exdate
  .ret (.tag .recurrence .empty children)

def eventToStanza (e : Event) : Outcome Empty MioStanza :=
  match e.recurrence with
  | none => .ret (.tag .event (eventAttributes e) [])
  | some r => do
      let recurrence ← recurrenceToStanza r
      .ret (.tag .event (eventAttributes e) [recurrence])

def eventsToStanzas : List Event → Outcome Empty (List MioStanza)
  | [] => .ret []
  | e :: es => do
      let first ← eventToStanza e
      let rest ← eventsToStanzas es
      .ret (first :: rest)

/-- `mio_schedule_event_to_item`. -/
def scheduleEventToItem (es : List Event) : Outcome Empty MioStanza := do
  let events ← eventsToStanzas es
  .ret (.tag .item (Xml.Attributes.empty.set .id "schedule".toList) [.tag .schedule .empty events])

/-- The packet's list, split before the event in hand, and the parser's data. -/
structure Reader where
  earlier : List Event := []
  event : Option Event := none
  currElementName : Option Tag := none
  /-- `mio_XMLString_recurrence` is the character data handler. -/
  listening : Bool := false

namespace Reader

def events (x : Reader) : List Event := x.earlier ++ x.event.toList

/-- `sscanf(attr[i + 1], "%u", &event->id)`. -/
def scanId (text : List Char) (id : ℤ) : ℤ :=
  match text.takeWhile Char.isDigit with
  | [] => id
  | digits => Int.bmod (Nat.ofDigitChars 10 digits 0) (2 ^ 32)

def setAttribute (e : Event) : Attr × List Char → Event
  | (.time, text) => { e with time := some text }
  | (.info, text) => { e with info := some text }
  | (.transducerName, text) => { e with transducerName := some text }
  | (.transducerValue, text) => { e with transducerValue := some text }
  | (.id, text) => { e with id := scanId text e.id }
  | _ => e

/-- `mio_XMLstart_schedule_query`. -/
def startElement (x : Reader) (name : Tag) (attributes : List (Attr × List Char)) :
    Outcome Empty Reader :=
  match name, x.event with
  | .event, _ =>
      .ret ⟨x.events, some (attributes.foldl setAttribute {}), some name, false⟩
  | .recurrence, some e =>
      .ret ⟨x.earlier, some { e with recurrence := some {} }, some name, true⟩
  | .recurrence, none => .abort "event"
  | _, _ => .ret { x with currElementName := some name }

/-- One of the comparisons of `mio_XMLString_recurrence`, the one that applies. -/
def store (r : Recurrence) (f : Field) (chunk : List Char) : Recurrence :=
  if r.get f = none then r.set chunk f else r

/-- `mio_XMLString_recurrence`, if it is installed. -/
def characterData (x : Reader) (chunk : List Char) : Outcome Empty Reader :=
  if x.listening then
    match x.event with
    | some e =>
        match e.recurrence, x.currElementName with
        | some r, some (.recurrenceField f) =>
            .ret { x with event := some { e with recurrence := some (store r f chunk) } }
        | none, some (.recurrenceField _) => .abort "rec"
        | _, _ => .ret x
    | none => .abort "event"
  else .ret x

/-- The end of an element only counts depths. -/
def handler : Xml.Handler Tag Attr Reader := { startElement, characterData }

end Reader

def decode (calls : List (Xml.Callback Tag Attr)) : Outcome Empty (List Event) := do
  let x ← Reader.handler.run {} calls
  .ret x.events

namespace Reader

theorem printId_digits (id : ℤ) : ∀ c ∈ printId id, c.isDigit := by
  intro c mem
  exact Nat.isDigit_of_mem_toDigits (by decide) (by decide) (List.mem_of_mem_take mem)

theorem printId_lt (id : ℤ) : Nat.ofDigitChars 10 (printId id) 0 < 10 ^ 7 := by
  have short : (printId id).length ≤ 7 := List.length_take_le _ _
  exact Nat.lt_of_lt_of_le (Scan.ofDigitChars_lt (printId_digits id))
    (Nat.pow_le_pow_right (by decide) short)

theorem scanId_printId_eq (id old : ℤ) :
    scanId (printId id) old = Nat.ofDigitChars 10 (printId id) 0 := by
  have digits : (printId id).takeWhile Char.isDigit = printId id :=
    List.takeWhile_eq_self_iff.mpr (printId_digits id)
  have some : printId id ≠ [] := by
    intro none
    cases List.take_eq_nil_iff.mp none with
    | inl zero => cases zero
    | inr empty => exact Nat.toDigits_ne_nil empty
  have small := printId_lt id
  unfold scanId
  rw [digits]
  cases eq : printId id with
  | nil => exact absurd eq some
  | cons c rest =>
      rw [eq] at small
      exact Int.bmod_eq_of_le (by omega) (by omega)

/-- Seven digits come back. -/
theorem scanId_printId {n : ℕ} (small : n < 10 ^ 7) (old : ℤ) : scanId (printId n) old = n := by
  have unsigned : ((n : ℤ) % 2 ^ 32).toNat = n := by omega
  have fits : (Nat.toDigits 10 n).length ≤ 7 :=
    (Nat.length_toDigits_le_iff (by decide) (by decide)).mpr small
  rw [scanId_printId_eq, printId, unsigned, List.take_of_length_le fits,
    Nat.ofDigitChars_ten_toDigits]

theorem scanId_printId_lt (id old : ℤ) : scanId (printId id) old < 10 ^ 7 := by
  rw [scanId_printId_eq]
  exact_mod_cast printId_lt id

theorem setAttributes_eq {e : Event} {reported : List (Attr × List Char)}
    (order : reported.Perm (eventAttributes e).entries) :
    reported.foldl setAttribute {} = { e with id := scanId (printId e.id) (-1), recurrence := none } := by
  have field (get : Event → Option (List Char)) (key : Attr)
      (own : ∀ e text, get (setAttribute e (key, text)) = some text)
      (others : ∀ e p, p.1 ≠ key → get (setAttribute e p) = get e) (none : get {} = none) :
      get (reported.foldl setAttribute {}) = (eventAttributes e).get key := by
    have read := Xml.Attributes.foldl_field get key (g := id) own others order {}
    rw [none, Option.or_none, Option.map_id] at read
    exact read
  have stands : ∀ key, (eventAttributes e).get key = match key with
      | .id => some (printId e.id)
      | .info => e.info
      | .time => e.time
      | .transducerName => e.transducerName
      | .transducerValue => e.transducerValue
      | _ => none := by
    intro key
    cases key <;> simp [eventAttributes, Xml.Attributes.get_setIfAny, Xml.Attributes.get_set]
  apply Event.ext
  · have read := Xml.Attributes.foldl_view Event.id .id (f := setAttribute)
      (g := fun old text => scanId text old) (fun e text => rfl)
      (fun e p ne => by rcases p with ⟨_ | _, text⟩ <;> first | rfl | exact absurd rfl ne) order {}
    rw [stands] at read
    exact read
  · exact (field Event.transducerName .transducerName (fun e text => rfl)
      (fun e p ne => by rcases p with ⟨_ | _, text⟩ <;> first | rfl | exact absurd rfl ne) rfl).trans (stands _)
  · exact (field Event.transducerValue .transducerValue (fun e text => rfl)
      (fun e p ne => by rcases p with ⟨_ | _, text⟩ <;> first | rfl | exact absurd rfl ne) rfl).trans (stands _)
  · exact (field Event.time .time (fun e text => rfl)
      (fun e p ne => by rcases p with ⟨_ | _, text⟩ <;> first | rfl | exact absurd rfl ne) rfl).trans (stands _)
  · exact (field Event.info .info (fun e text => rfl)
      (fun e p ne => by rcases p with ⟨_ | _, text⟩ <;> first | rfl | exact absurd rfl ne) rfl).trans (stands _)
  · exact Xml.Attributes.foldl_kept Event.recurrence
      (fun e p => by rcases p with ⟨_ | _, text⟩ <;> rfl) reported {}

end Reader

def Field.order : List Field := [.freq, .interval, .count, .until_, .bymonth, .byday, .exdate]

theorem Field.mem_order (f : Field) : f ∈ Field.order := by
  cases f <;> decide

/-- The field whose text is written for a field. -/
def Field.written : Field → Field
  -- sic
  | .byday => .bymonth
  | f => f

def Recurrence.fields (r : Recurrence) : List Field := Field.order.filter fun f => (r.get f).isSome

def Recurrence.text (r : Recurrence) (f : Field) : List Char := (r.get f).getD []

/-- No null text is written. -/
def Recurrence.Writable (r : Recurrence) : Prop := r.byday.isSome → r.bymonth.isSome

def Recurrence.item (r : Recurrence) : MioStanza :=
  .tag .recurrence .empty (r.fields.map fun f => fieldStanza f (r.text f.written))

def Event.Writable (e : Event) : Prop := ∀ r ∈ e.recurrence, r.Writable

/-- No text is empty. -/
def Event.Filled (e : Event) : Prop := ∀ r ∈ e.recurrence, ∀ f, ∀ text ∈ r.get f, text ≠ []

def Event.item (e : Event) : MioStanza :=
  .tag .event (eventAttributes e) (e.recurrence.map Recurrence.item).toList

def Event.fields (e : Event) : List (Recurrence × Field) :=
  e.recurrence.elim [] fun r => r.fields.map (r, ·)

/-- What the item of a list is. -/
def scheduleItem (es : List Event) : MioStanza :=
  .tag .item (Xml.Attributes.empty.set .id "schedule".toList)
    [.tag .schedule .empty (es.map Event.item)]

/-- The ids are `0`, `1`, and so on. -/
def Numbered (es : List Event) : Prop :=
  es.map Event.id = (List.range es.length).map fun i : ℕ => (i : ℤ)

namespace Recurrence

variable {r q : Recurrence} {f : Field}

theorem ext_get (h : ∀ f, r.get f = q.get f) : r = q := by
  have freq := h .freq
  have interval := h .interval
  have count := h .count
  have until_ := h .until_
  have bymonth := h .bymonth
  have byday := h .byday
  have exdate := h .exdate
  cases r
  cases q
  simp only [get] at *
  subst_vars
  rfl

theorem get_set (r : Recurrence) (text : List Char) (f g : Field) :
    (r.set text f).get g = if g = f then some text else r.get g := by
  cases f <;> cases g <;> rfl

theorem get_empty (f : Field) : ({} : Recurrence).get f = none := by
  cases f <;> rfl

theorem mem_fields : f ∈ r.fields ↔ (r.get f).isSome := by
  rw [fields, List.mem_filter, and_iff_right (Field.mem_order f)]

theorem get_of_mem (mem : f ∈ r.fields) : r.get f = some (r.text f) := by
  obtain ⟨value, present⟩ := Option.isSome_iff_exists.mp (mem_fields.mp mem)
  rw [text, present]
  rfl

theorem writable_iff : r.Writable ↔ ∀ f, (r.get f).isSome → (r.get f.written).isSome := by
  constructor
  · intro writable f present
    cases f with
    | byday => exact writable present
    | _ => exact present
  · intro all
    exact all .byday

theorem text_filled (filled : ∀ f, ∀ text ∈ r.get f, text ≠ []) (writable : r.Writable)
    (mem : f ∈ r.fields) : r.text f.written ≠ [] := by
  have present := writable_iff.mp writable f (mem_fields.mp mem)
  exact filled f.written _ (get_of_mem (mem_fields.mpr present))

end Recurrence

theorem elementAdd_eq_ret {parent children : List MioStanza} {f : Field} {tested text : Option (List Char)} :
    elementAdd parent f tested text = .ret children ↔
      (tested.isSome → text.isSome) ∧
        children = parent ++ if tested.isSome then [fieldStanza f (text.getD [])] else [] := by
  rw [@eq_comm _ children]
  cases tested with
  | none => simp [elementAdd]
  | some tested => cases text <;> simp [elementAdd]

theorem foldlM_elementAdd {r : Recurrence} {fs : List Field} {parent children : List MioStanza} :
    fs.foldlM (fun parent f => elementAdd parent f (r.get f) (r.get f.written)) parent = .ret children ↔
      (∀ f ∈ fs, (r.get f).isSome → (r.get f.written).isSome) ∧
        children = parent ++ (fs.filter fun f => (r.get f).isSome).map fun f =>
          fieldStanza f (r.text f.written) := by
  induction fs generalizing parent with
  | nil =>
      rw [@eq_comm _ children]
      simp [Outcome.pure_eq_ret]
  | cons f fs ih =>
      rw [List.foldlM_cons, Outcome.bind_eq_ret, List.forall_mem_cons]
      constructor
      · rintro ⟨_, first, rest⟩
        obtain ⟨some, rfl⟩ := elementAdd_eq_ret.mp first
        obtain ⟨others, rfl⟩ := ih.mp rest
        refine ⟨⟨some, others⟩, ?_⟩
        rw [List.append_assoc, List.filter_cons]
        split <;> rfl
      · rintro ⟨⟨some, others⟩, rfl⟩
        refine ⟨_, elementAdd_eq_ret.mpr ⟨some, rfl⟩, ih.mpr ⟨others, ?_⟩⟩
        rw [List.append_assoc, List.filter_cons]
        split <;> rfl

theorem recurrenceToStanza_eq_ret {r : Recurrence} {item : MioStanza} :
    recurrenceToStanza r = .ret item ↔ r.Writable ∧ item = r.item := by
  have folded : recurrenceToStanza r =
      Field.order.foldlM (fun parent f => elementAdd parent f (r.get f) (r.get f.written)) [] >>=
        fun children => .ret (.tag .recurrence .empty children) := by
    simp only [recurrenceToStanza, Field.order, List.foldlM_cons, List.foldlM_nil, bind_assoc, pure_bind]
    rfl
  have all : (∀ f ∈ Field.order, (r.get f).isSome → (r.get f.written).isSome) ↔ r.Writable := by
    rw [Recurrence.writable_iff]
    exact ⟨fun h f => h f (Field.mem_order f), fun h f _ => h f⟩
  rw [folded, Outcome.bind_eq_ret]
  constructor
  · rintro ⟨children, added, eq⟩
    obtain ⟨some, rfl⟩ := foldlM_elementAdd.mp added
    injection eq with eq
    exact ⟨all.mp some, eq.symm⟩
  · rintro ⟨writable, rfl⟩
    exact ⟨_, foldlM_elementAdd.mpr ⟨all.mpr writable, rfl⟩, rfl⟩

theorem eventToStanza_eq_ret {e : Event} {item : MioStanza} :
    eventToStanza e = .ret item ↔ e.Writable ∧ item = e.item := by
  cases has : e.recurrence with
  | none => simp [eventToStanza, Event.Writable, Event.item, has, eq_comm]
  | some r =>
      rw [eventToStanza, Event.Writable, Event.item, has, Outcome.bind_eq_ret]
      simp only [recurrenceToStanza_eq_ret]
      constructor
      · rintro ⟨_, ⟨writable, rfl⟩, eq⟩
        injection eq with eq
        refine ⟨?_, eq.symm⟩
        rintro q ⟨rfl⟩
        exact writable
      · rintro ⟨writable, rfl⟩
        exact ⟨_, ⟨writable r rfl, rfl⟩, rfl⟩

theorem eventsToStanzas_eq_ret {es : List Event} {items : List MioStanza} :
    eventsToStanzas es = .ret items ↔ (∀ e ∈ es, e.Writable) ∧ items = es.map Event.item := by
  induction es generalizing items with
  | nil => simp [eventsToStanzas, eq_comm]
  | cons e es ih =>
      rw [eventsToStanzas, Outcome.bind_eq_ret, List.forall_mem_cons]
      simp only [Outcome.bind_eq_ret, eventToStanza_eq_ret, ih]
      constructor
      · rintro ⟨_, ⟨first, rfl⟩, _, ⟨others, rfl⟩, eq⟩
        injection eq with eq
        exact ⟨⟨first, others⟩, eq.symm⟩
      · rintro ⟨⟨first, others⟩, rfl⟩
        exact ⟨_, ⟨first, rfl⟩, _, ⟨others, rfl⟩, rfl⟩

theorem scheduleEventToItem_eq_ret {es : List Event} {item : MioStanza} :
    scheduleEventToItem es = .ret item ↔ (∀ e ∈ es, e.Writable) ∧ item = scheduleItem es := by
  rw [scheduleEventToItem, Outcome.bind_eq_ret]
  simp only [eventsToStanzas_eq_ret]
  constructor
  · rintro ⟨_, ⟨writable, rfl⟩, eq⟩
    injection eq with eq
    exact ⟨writable, eq.symm⟩
  · rintro ⟨writable, rfl⟩
    exact ⟨_, ⟨writable, rfl⟩, rfl⟩

theorem texts_scheduleItem {es : List Event} (writable : ∀ e ∈ es, e.Writable)
    (filled : ∀ e ∈ es, e.Filled) :
    Xml.texts Tag.recurrenceField? [scheduleItem es] =
      (es.flatMap Event.fields).map fun p => (p.2, p.1.text p.2.written) := by
  have fields {r : Recurrence} {fs : List Field} (filled : ∀ f ∈ fs, r.text f.written ≠ []) :
      Xml.texts Tag.recurrenceField? (fs.map fun f => fieldStanza f (r.text f.written)) =
        fs.map fun f => (f, r.text f.written) := by
    induction fs with
    | nil => rfl
    | cons f fs ih =>
        obtain ⟨first, others⟩ := List.forall_mem_cons.mp filled
        rw [List.map_cons, Xml.texts, ih others, List.map_cons]
        cases text : r.text f.written with
        | nil => exact absurd text first
        | cons c cs => simp [fieldStanza, Xml.Stanza.texts, Tag.recurrenceField?, Xml.lead, Xml.texts]
  have event {e : Event} (writable : e.Writable) (filled : e.Filled) :
      e.item.texts Tag.recurrenceField? = e.fields.map fun p => (p.2, p.1.text p.2.written) := by
    cases has : e.recurrence with
    | none => simp [Event.item, Event.fields, has, Xml.Stanza.texts, Tag.recurrenceField?, Xml.texts]
    | some r =>
        have all := @fields r r.fields fun f mem =>
          Recurrence.text_filled (filled r has) (writable r has) mem
        simp [Event.item, Event.fields, has, Xml.Stanza.texts, Tag.recurrenceField?, Xml.texts,
          Recurrence.item, all]
  have events : Xml.texts Tag.recurrenceField? (es.map Event.item) =
      (es.flatMap Event.fields).map fun p => (p.2, p.1.text p.2.written) := by
    induction es with
    | nil => rfl
    | cons e es ih =>
        obtain ⟨first, others⟩ := List.forall_mem_cons.mp writable
        obtain ⟨first', others'⟩ := List.forall_mem_cons.mp filled
        rw [List.map_cons, Xml.texts, ih others others', event first first', List.flatMap_cons,
          List.map_append]
  simp [scheduleItem, Xml.texts, Xml.Stanza.texts, Tag.recurrenceField?, events]

namespace Reader

open Xml (firstChunks)

def reading (earlier : List Event) (e : Event) (r : Recurrence) (name : Option Tag) : Reader :=
  ⟨earlier, some { e with recurrence := some r }, name, true⟩

/-- A recurrence after the fields with their first chunks. -/
def storeAll (r : Recurrence) (firsts : List (Field × List Char)) : Recurrence :=
  firsts.foldl (fun r p => store r p.1 p.2) r

variable {r : Recurrence}

theorem store_store (f : Field) (first second : List Char) :
    store (store r f first) f second = store r f first := by
  have present : (store r f first).get f ≠ none := by
    unfold store
    split
    · rw [Recurrence.get_set, if_pos rfl]
      intro h
      cases h
    · assumption
  exact if_neg present

theorem run_chunks (earlier : List Event) (e : Event) (f : Field) (first : List Char)
    (chunks : List (List Char)) :
    handler.run (reading earlier e (store r f first) (some (.recurrenceField f)))
        (chunks.map .characterData) =
      .ret (reading earlier e (store r f first) (some (.recurrenceField f))) := by
  induction chunks with
  | nil => rfl
  | cons c chunks ih =>
      have kept : handler.handle (reading earlier e (store r f first) (some (.recurrenceField f)))
          (.characterData c) =
            .ret (reading earlier e (store (store r f first) f c) (some (.recurrenceField f))) := rfl
      rw [store_store] at kept
      rw [List.map_cons, Xml.Handler.run, kept]
      exact ih

/-- A field is stored with its first chunk. -/
theorem run_field {f : Field} {text : List Char} (filled : text ≠ []) {calls : List (Xml.Callback Tag Attr)}
    (reports : Xml.Reports [fieldStanza f text] calls) :
    ∃ chunk, firstChunks Tag.recurrenceField? calls = [(f, chunk)] ∧
      ∀ earlier e r name, handler.run (reading earlier e r name) calls =
        .ret (reading earlier e (store r f chunk) (some (.recurrenceField f))) := by
  obtain ⟨reported, inner, -, report, rfl⟩ := reports.of_tag
  obtain ⟨chunks, -, whole, rfl⟩ := report.of_text
  cases chunks with
  | nil => exact absurd whole.symm filled
  | cons first chunks =>
      refine ⟨first, ?_, fun earlier e r name => ?_⟩
      · change (f, first) ::
          firstChunks Tag.recurrenceField? (chunks.map .characterData ++ [.endElement _]) = _
        rw [Xml.firstChunks_data]
        rfl
      · rw [List.map_cons, List.cons_append]
        change handler.run (reading earlier e (store r f first) (some (.recurrenceField f)))
          (chunks.map .characterData ++ [.endElement _]) = _
        rw [Xml.Handler.run_append, run_chunks, Outcome.ret_bind]
        rfl

theorem run_fields {fs : List Field} {text : Field → List Char} (filled : ∀ f ∈ fs, text f ≠ [])
    {calls : List (Xml.Callback Tag Attr)}
    (reports : Xml.Reports (fs.map fun f => fieldStanza f (text f)) calls) :
    (firstChunks Tag.recurrenceField? calls).map Prod.fst = fs ∧
      ∀ earlier e r name, ∃ name', handler.run (reading earlier e r name) calls =
        .ret (reading earlier e (storeAll r (firstChunks Tag.recurrenceField? calls)) name') := by
  induction fs generalizing calls with
  | nil =>
      cases reports
      exact ⟨rfl, fun earlier e r name => ⟨name, rfl⟩⟩
  | cons f fs ih =>
      obtain ⟨first, others⟩ := List.forall_mem_cons.mp filled
      obtain ⟨left, right, rfl, field, rest⟩ := reports.uncons
      obtain ⟨chunk, found, run⟩ := run_field first field
      obtain ⟨keys, runs⟩ := ih others rest
      rw [Xml.firstChunks_append field, found]
      refine ⟨congrArg (f :: ·) keys, fun earlier e r name => ?_⟩
      obtain ⟨name', last⟩ := runs earlier e (store r f chunk) (some (.recurrenceField f))
      refine ⟨name', ?_⟩
      rw [Xml.Handler.run_append, run, Outcome.ret_bind, last]
      rfl

/-- The first text stored for a field is the one that counts. -/
theorem get_storeAll (firsts : List (Field × List Char)) (r : Recurrence) (f : Field) :
    (storeAll r firsts).get f = (r.get f).or (firsts.lookup f) := by
  induction firsts generalizing r with
  | nil => exact (Option.or_none ..).symm
  | cons p firsts ih =>
      obtain ⟨g, chunk⟩ := p
      change (storeAll (store r g chunk) firsts).get f = _
      rw [ih, store, List.lookup_cons]
      by_cases same : f = g
      · subst same
        cases present : r.get f with
        | none => simp [Recurrence.get_set]
        | some text => simp [present]
      · have other : (f == g) = false := beq_false_of_ne same
        rw [other]
        split
        · rw [Recurrence.get_set, if_neg same]
        · rfl

/-- A recurrence comes back exactly if the first chunk of each field is its text. -/
theorem storeAll_eq_iff {firsts : List (Field × List Char)} (keys : firsts.map Prod.fst = r.fields) :
    storeAll {} firsts = r ↔ firsts = r.fields.map fun f => (f, r.text f) := by
  have own : (r.fields.map fun f => (f, r.text f)).map Prod.fst = r.fields := by
    rw [List.map_map]
    exact List.map_id _
  have distinct : r.fields.Nodup := List.Nodup.filter _ (by decide)
  have lookup (f : Field) : (r.fields.map fun f => (f, r.text f)).lookup f = r.get f := by
    by_cases present : f ∈ r.fields
    · rw [Recurrence.get_of_mem present, ← mem_iff_lookup (by rwa [own])]
      exact List.mem_map_of_mem present
    · rw [lookup_of_notMem (by rwa [own])]
      rw [Recurrence.mem_fields, Option.not_isSome_iff_eq_none] at present
      exact present.symm
  constructor
  · rintro rfl
    apply eq_of_lookup (keys.trans own.symm) (own.symm ▸ distinct)
    intro f
    rw [lookup, get_storeAll, Recurrence.get_empty, Option.none_or]
  · rintro rfl
    apply Recurrence.ext_get
    intro f
    rw [get_storeAll, Recurrence.get_empty, Option.none_or, lookup]

/-- The texts of the fields of an event. -/
def fieldTexts (e : Event) : List (Field × List Char) := e.fields.map fun p => (p.2, p.1.text p.2)

/-- An event is read; it is the one that was written exactly if its id and the first chunks say so. -/
theorem run_event {e : Event} (writable : e.Writable) (filled : e.Filled)
    {calls : List (Xml.Callback Tag Attr)} (reports : Xml.Reports [e.item] calls) :
    (firstChunks Tag.recurrenceField? calls).length = (fieldTexts e).length ∧
      ∃ read, (read = e ↔ scanId (printId e.id) (-1) = e.id ∧
          firstChunks Tag.recurrenceField? calls = fieldTexts e) ∧
        ∀ x : Reader, ∃ y : Reader, y.events = x.events ++ [read] ∧ handler.run x calls = .ret y := by
  obtain ⟨reported, inner, order, report, rfl⟩ := reports.of_tag
  rw [Xml.firstChunks_around rfl reported report]
  have attributes := setAttributes_eq order
  cases has : e.recurrence with
  | none =>
      rw [has] at report
      cases report
      have none : fieldTexts e = [] := by
        rw [fieldTexts, Event.fields, has]
        rfl
      rw [none]
      refine ⟨rfl, _, ?_, fun x => ⟨_, rfl, rfl⟩⟩
      rw [attributes, Event.ext_iff]
      simp [has, firstChunks]
  | some r =>
      rw [has] at report
      obtain ⟨reported', inside, -, fields, rfl⟩ := report.of_tag
      rw [Xml.firstChunks_around rfl reported' fields]
      obtain ⟨keys, runs⟩ := run_fields
        (fun f mem => Recurrence.text_filled (filled r has) (writable r has) mem) fields
      have texts : fieldTexts e = r.fields.map fun f => (f, r.text f) := by
        rw [fieldTexts, Event.fields, has]
        exact List.map_map
      rw [texts]
      refine ⟨?_, { reported.foldl setAttribute {} with
        recurrence := some (storeAll {} (firstChunks Tag.recurrenceField? inside)) }, ?_, fun x => ?_⟩
      · rw [List.length_map, ← keys, List.length_map]
      · rw [attributes, Event.ext_iff, ← storeAll_eq_iff keys]
        simp [has]
      · obtain ⟨name, run⟩ := runs x.events (reported.foldl setAttribute {}) {} (some .recurrence)
        refine ⟨reading x.events (reported.foldl setAttribute {})
          (storeAll {} (firstChunks Tag.recurrenceField? inside)) name, rfl, ?_⟩
        change handler.run (reading x.events (reported.foldl setAttribute {}) {} (some .recurrence))
          (inside ++ [.endElement _] ++ [.endElement _]) = _
        rw [List.append_assoc, Xml.Handler.run_append, run, Outcome.ret_bind]
        rfl

theorem run_events {es : List Event} (writable : ∀ e ∈ es, e.Writable) (filled : ∀ e ∈ es, e.Filled)
    {calls : List (Xml.Callback Tag Attr)} (reports : Xml.Reports (es.map Event.item) calls) :
    ∃ read, (read = es ↔ (∀ e ∈ es, scanId (printId e.id) (-1) = e.id) ∧
        firstChunks Tag.recurrenceField? calls = es.flatMap fieldTexts) ∧
      ∀ x : Reader, ∃ y : Reader, y.events = x.events ++ read ∧ handler.run x calls = .ret y := by
  induction es generalizing calls with
  | nil =>
      cases reports
      exact ⟨[], by simp [firstChunks], fun x => ⟨x, (List.append_nil _).symm, rfl⟩⟩
  | cons e es ih =>
      obtain ⟨first, others⟩ := List.forall_mem_cons.mp writable
      obtain ⟨first', others'⟩ := List.forall_mem_cons.mp filled
      obtain ⟨left, right, rfl, event, rest⟩ := reports.uncons
      obtain ⟨length, read, back, run⟩ := run_event first first' event
      obtain ⟨reads, backs, runs⟩ := ih others others' rest
      refine ⟨read :: reads, ?_, fun x => ?_⟩
      · rw [Xml.firstChunks_append event, List.flatMap_cons, List.cons.injEq, back, backs,
          List.forall_mem_cons, and_and_and_comm]
        apply and_congr_right'
        exact ⟨fun both => congrArg₂ _ both.1 both.2, fun eq => List.append_inj eq length⟩
      · obtain ⟨y, events, run⟩ := run x
        obtain ⟨z, events', run'⟩ := runs y
        refine ⟨z, ?_, ?_⟩
        · rw [events', events, List.append_assoc, List.singleton_append]
        · rw [Xml.Handler.run_append, run, Outcome.ret_bind, run']

end Reader

/-- Up to ten million events, ids come back. -/
theorem Numbered.ids_iff {es : List Event} (numbered : Numbered es) :
    (∀ e ∈ es, Reader.scanId (printId e.id) (-1) = e.id) ↔ es.length ≤ 10 ^ 7 := by
  have ids : (∀ e ∈ es, Reader.scanId (printId e.id) (-1) = e.id) ↔
      ∀ id ∈ es.map Event.id, Reader.scanId (printId id) (-1) = id := by
    simp
  rw [ids, numbered]
  constructor
  · intro all
    by_contra long
    have mem : ((10 ^ 7 : ℕ) : ℤ) ∈ (List.range es.length).map fun i : ℕ => (i : ℤ) :=
      List.mem_map_of_mem (List.mem_range.mpr (Nat.not_le.mp long))
    have small := Reader.scanId_printId_lt ((10 ^ 7 : ℕ) : ℤ) (-1)
    rw [all _ mem] at small
    exact absurd small (by decide)
  · intro short id mem
    obtain ⟨i, range, rfl⟩ := List.mem_map.mp mem
    exact Reader.scanId_printId ((List.mem_range.mp range).trans_le short) (-1)

/-- A list comes back exactly if its ids and the first chunks say so. -/
theorem decode_eq_iff {es : List Event} (writable : ∀ e ∈ es, e.Writable) (filled : ∀ e ∈ es, e.Filled)
    {calls : List (Xml.Callback Tag Attr)} (reports : Xml.Reports [scheduleItem es] calls) :
    decode calls = .ret es ↔ (∀ e ∈ es, Reader.scanId (printId e.id) (-1) = e.id) ∧
      Xml.firstChunks Tag.recurrenceField? calls = es.flatMap Reader.fieldTexts := by
  obtain ⟨reported, inner, -, report, rfl⟩ := reports.of_tag
  obtain ⟨reported', inside, -, events, rfl⟩ := report.of_tag
  rw [Xml.firstChunks_around rfl reported report, Xml.firstChunks_around rfl reported' events]
  obtain ⟨read, back, runs⟩ := Reader.run_events writable filled events
  obtain ⟨y, eq, run⟩ := runs { currElementName := some .schedule }
  have decoded : decode (.startElement .item reported :: (.startElement .schedule reported' ::
      (inside ++ [.endElement .schedule]) ++ [.endElement .item])) = .ret read := by
    change (Reader.handler.run { currElementName := some .schedule }
      (inside ++ [.endElement .schedule] ++ [.endElement .item]) >>= fun x => .ret x.events) = _
    rw [List.append_assoc, Xml.Handler.run_append, run, Outcome.ret_bind]
    exact congrArg Outcome.ret eq
  rw [decoded, ← back]
  exact ⟨fun eq => (by injection eq), congrArg Outcome.ret⟩

/-- What comes of a field whose first chunk has `n` characters: all of its text, and of `byday` what is
cut from the text of `bymonth`. -/
def Recurrence.Comes (r : Recurrence) (n : ℕ) : Field → Prop
  | .byday => r.bymonth.map (List.take n) = r.byday
  | f => ∀ text ∈ r.get f, text.length ≤ n

theorem Recurrence.comes_iff {r : Recurrence} (writable : r.Writable) {f : Field} (mem : f ∈ r.fields)
    (n : ℕ) : (r.text f.written).take n = r.text f ↔ r.Comes n f := by
  have present := writable_iff.mp writable f (mem_fields.mp mem)
  obtain ⟨source, written⟩ := Option.isSome_iff_exists.mp present
  obtain ⟨text, own⟩ := Option.isSome_iff_exists.mp (mem_fields.mp mem)
  rw [Recurrence.text, Recurrence.text, written, own]
  by_cases day : f = .byday
  · subst day
    have written : r.bymonth = some source := written
    have own : r.byday = some text := own
    simp [Comes, written, own]
  · have same : source = text := by
      cases f <;> first | exact absurd rfl day | exact Option.some.inj (written.symm.trans own)
    have whole : r.Comes n f ↔ ∀ text ∈ r.get f, text.length ≤ n := by
      cases f <;> first | exact absurd rfl day | rfl
    rw [whole, own, same]
    simp

/-- A list comes back exactly if it has at most ten million events, `byday` nowhere stands without
`bymonth`, and every text comes in one chunk, `byday` being the first chunk of `bymonth`. -/
theorem read_back_iff {es : List Event} {calls : List (Xml.Callback Tag Attr)} (numbered : Numbered es)
    (filled : ∀ e ∈ es, e.Filled) (reports : Xml.Reports [scheduleItem es] calls) :
    scheduleEventToItem es = .ret (scheduleItem es) ∧ decode calls = .ret es ↔
      es.length ≤ 10 ^ 7 ∧ (∀ e ∈ es, e.Writable) ∧
        List.Forall₂ (fun p n => p.1.Comes n p.2) (es.flatMap Event.fields)
          (Xml.firstLengths Tag.recurrenceField? calls) := by
  rw [scheduleEventToItem_eq_ret, and_iff_left rfl, and_left_comm]
  apply and_congr_right
  intro writable
  rw [decode_eq_iff writable filled reports, numbered.ids_iff]
  apply and_congr_right'
  have comes : ∀ p ∈ es.flatMap Event.fields, ∀ n,
      (p.1.text p.2.written).take n = p.1.text p.2 ↔ p.1.Comes n p.2 := by
    intro p mem
    obtain ⟨e, some, field⟩ := List.mem_flatMap.mp mem
    cases has : e.recurrence with
    | none =>
        rw [Event.fields, has] at field
        cases field
    | some r =>
        rw [Event.fields, has] at field
        obtain ⟨f, present, rfl⟩ := List.mem_map.mp field
        exact Recurrence.comes_iff (writable e some r has) present
  have begin := reports.firstChunks_begin Tag.recurrenceField?
  rw [texts_scheduleItem writable filled] at begin
  have cut := Xml.readings_iff (fun _ chunk => chunk) (fun p => p.1.text p.2) comes begin
  have texts : es.flatMap Reader.fieldTexts =
      (es.flatMap Event.fields).map fun p => (p.2, p.1.text p.2) := by
    rw [List.map_flatMap]
    rfl
  rw [texts, Xml.firstLengths, ← cut]
  simp only [List.map_id']

def recurring (r : Recurrence) : Event := { id := 0, recurrence := some r }

theorem read_back_weekly :
    scheduleEventToItem [recurring { freq := some ['W'] }] =
        .ret (scheduleItem [recurring { freq := some ['W'] }]) ∧
      decode (Xml.report [scheduleItem [recurring { freq := some ['W'] }]]) =
        .ret [recurring { freq := some ['W'] }] := by
  have numbered : Numbered [recurring { freq := some ['W'] }] := rfl
  refine (read_back_iff numbered ?_ (Xml.reports_report _)).mpr ⟨by decide, ?_, ?_⟩
  · intro e mem
    obtain rfl := List.mem_singleton.mp mem
    rintro r ⟨rfl⟩ f text present rfl
    cases f <;> cases present
  · intro e mem
    obtain rfl := List.mem_singleton.mp mem
    rintro r ⟨rfl⟩ ⟨⟩
  · refine .cons ?_ .nil
    rintro text ⟨rfl⟩
    exact Nat.le_refl _

/-- `byday` comes back with the text of `bymonth`. -/
theorem byday_lost :
    Numbered [recurring { bymonth := some ['1'], byday := some ['M'] }] ∧
      ∃ item calls,
        scheduleEventToItem [recurring { bymonth := some ['1'], byday := some ['M'] }] = .ret item ∧
        Xml.Reports [item] calls ∧
        decode calls = .ret [recurring { bymonth := some ['1'], byday := some ['1'] }] := by
  have writable (text : List Char) :
      ∀ e ∈ [recurring { bymonth := some ['1'], byday := some text }], e.Writable := by
    intro e mem
    obtain rfl := List.mem_singleton.mp mem
    rintro r ⟨rfl⟩ -
    rfl
  -- this list has the same item
  have item : scheduleItem [recurring { bymonth := some ['1'], byday := some ['M'] }] =
      scheduleItem [recurring { bymonth := some ['1'], byday := some ['1'] }] := rfl
  refine ⟨rfl, _, Xml.report _, scheduleEventToItem_eq_ret.mpr ⟨writable ['M'], rfl⟩,
    Xml.reports_report _, ?_⟩
  rw [item]
  refine (decode_eq_iff (writable ['1']) ?_ (Xml.reports_report _)).mpr ⟨?_, rfl⟩
  · intro e mem
    obtain rfl := List.mem_singleton.mp mem
    rintro r ⟨rfl⟩ f text present rfl
    cases f <;> cases present
  · decide

end Mio.LibMio
