import Mio.LibMio.ConfigForms

/-! What the query for the parents of a collection reads of a node configuration: the character data
handler is switched on and off while the attributes of the fields go by. -/
namespace Mio.LibMio.Replies

open Strophe (Rendered written)

/-- An attribute that switches the character data handler on or off. -/
def decisive (p : Attr × List Char) : Bool := p.1 ≠ .var ∨ p.2 = collectionVar

/-- The last attribute that switches is the one that switches on. -/
def Listens (attributes : Attributes) : Prop :=
  (attributes.filter decisive).getLast? = some (.var, collectionVar)

instance (attributes : Attributes) : Decidable (Listens attributes) := inferInstanceAs (Decidable (_ = _))

def lastStart (calls : List Call) : Option Tag := (Xml.starts calls).getLast?.map Prod.fst

/-- The texts where the element that has started last is a value. -/
def behindValue (last : Option Tag) : List Call → List (List Char)
  | [] => []
  | .startElement name _ :: calls => behindValue (some name) calls
  | .characterData chunk :: calls => (if last = some .value then [chunk] else []) ++ behindValue last calls
  | .endElement _ :: calls => behindValue last calls

/-- While the handler is on, no text but those of the values stands behind the start of a value, and
the values with a text stand in a collection field, each text in one chunk; while it is off, none does. -/
def Piece.Heard (before : List Piece) : Piece → Prop
  | .field attributes parts =>
      let on := Listens (before.flatMap Piece.reported ++ attributes.entries)
      let collection := attributes.get .var = some collectionVar
      (on → behindValue (some .field) (parts.flatMap FieldPart.bare) = []) ∧
        ∀ chunks ∈ parts.filterMap FieldPart.chunks?, chunks ≠ [] →
          (on ↔ collection) ∧ (collection → chunks.length = 1)
  | .call c =>
      Listens (before.flatMap Piece.reported) →
        behindValue (lastStart (before.flatMap Piece.calls)) [c] = []

instance (before : List Piece) : (p : Piece) → Decidable (p.Heard before)
  | .field _ _ => inferInstanceAs (Decidable (_ ∧ _))
  | .call _ => inferInstanceAs (Decidable (_ → _))

def parentsHandler : Xml.Handler Tag Attr ParentsReader where
  startElement := ParentsReader.startElement
  characterData := ParentsReader.characterData

def parentEntry (text : List Char) : Collection := ⟨some text, none⟩

/-- Behind the calls the packet has these entries. -/
def Reads (type : ResponseType) (calls : List Call) (texts : List (List Char)) : Prop :=
  ∃ x packet, parentsHandler.run { response := packetNew type [] } calls = .ret x ∧
    x.response.response = .packet packet ∧ packet.payload = texts.map parentEntry

/-- The packet for the caller has these entries. -/
def Answers (type : ResponseType) (calls : List Call) (texts : List (List Char)) : Prop :=
  ∃ answer packet, ReplyHandler.collectionParents.answer type calls = .ret answer ∧
    answer.response = .packet packet ∧ packet.payload = texts.map parentEntry

/-- The entries are right behind each piece of the report, and in the end. -/
def Decodes (type : ResponseType) (reply : MioStanza) (calls : List Call) (pieces : List Piece) : Prop :=
  (∀ k, Reads type ((pieces.take k).flatMap Piece.calls) ((pieces.take k).flatMap Piece.parents)) ∧
    Answers type calls (parentsIn [reply])

def switch (on : Bool) (p : Attr × List Char) : Bool :=
  if p.1 = .var then on || p.2 = collectionVar else false

theorem listens_iff (attributes : Attributes) : attributes.foldl switch false = true ↔ Listens attributes := by
  induction attributes using List.reverseRecOn with
  | nil => simp [Listens]
  | append_singleton attributes p ih =>
      obtain ⟨key, text⟩ := p
      rw [List.foldl_append, Listens, List.filter_append]
      by_cases var : key = .var
      · subst var
        by_cases named : text = collectionVar
        · subst named
          have last : [(Attr.var, collectionVar)].filter decisive = [(Attr.var, collectionVar)] := by decide
          rw [last, List.getLast?_concat]
          simp [switch]
        · have skipped : [(Attr.var, text)].filter decisive = [] := by simp [decisive, named]
          rw [skipped, List.append_nil, ← Listens, ← ih]
          simp [switch, named]
      · have last : [(key, text)].filter decisive = [(key, text)] := by simp [decisive, var]
        rw [last, List.getLast?_concat]
        simp [switch, var]

/-- The switch, and the name of the element that has started last. -/
structure Ear where
  on : Bool := false
  last : Option Tag := none

namespace Ear

def after (e : Ear) : Call → Ear
  | .startElement name attributes => ⟨if name = .field then attributes.foldl switch e.on else e.on, some name⟩
  | _ => e

def heard (e : Ear) : List Call → List (List Char)
  | [] => []
  | .characterData chunk :: calls => (if e.on ∧ e.last = some .value then [chunk] else []) ++ e.heard calls
  | .startElement name attributes :: calls => (e.after (.startElement name attributes)).heard calls
  | .endElement _ :: calls => e.heard calls

variable {e : Ear}

theorem heard_append (before after : List Call) :
    e.heard (before ++ after) = e.heard before ++ (before.foldl Ear.after e).heard after := by
  induction before generalizing e with
  | nil => rfl
  | cons call before ih =>
      cases call with
      | characterData chunk => exact (congrArg (_ ++ ·) ih).trans (List.append_assoc ..).symm
      | startElement name attributes => exact ih
      | endElement name => exact ih

end Ear

variable {x : ParentsReader} {e : Ear} {entries : List Collection}

/-- What the reader has come to. -/
structure At (x : ParentsReader) (e : Ear) (entries : List Collection) : Prop where
  packet : ∃ p, x.response.response = .packet p ∧ p.payload = entries
  listening : x.listening = e.on
  last : x.currElementName = e.last
  payload : e.on = true → ∃ p, x.payload = .packet p
  named : e.on = true → e.last ≠ none

theorem At.fieldAttribute (at_ : At x e entries) (named : e.last ≠ none) (p : Attr × List Char) :
    At (x.fieldAttribute p) ⟨switch e.on p, e.last⟩ entries := by
  obtain ⟨⟨packet, body, payload⟩, listening, last, installed, -⟩ := at_
  obtain ⟨key, text⟩ := p
  by_cases var : key = .var
  · subst var
    by_cases collection : text = collectionVar
    · subst collection
      have eq : x.fieldAttribute (.var, collectionVar) =
          { x with
            payload := .packet { packet with payload := () }
            listening := true } := by
        rw [ParentsReader.fieldAttribute, body]
        rfl
      rw [eq]
      exact ⟨⟨packet, body, payload⟩, by simp [switch], last, fun _ => ⟨_, rfl⟩, fun _ => named⟩
    · have eq : x.fieldAttribute (.var, text) = x := if_neg collection
      have kept : switch e.on (.var, text) = e.on := by simp [switch, collection]
      rw [eq, kept]
      exact ⟨⟨packet, body, payload⟩, listening, last, installed, fun _ => named⟩
  · have eq : x.fieldAttribute (key, text) = { x with listening := false } := by
      cases key <;> first | rfl | exact absurd rfl var
    have off : switch e.on (key, text) = false := by simp [switch, var]
    rw [eq, off]
    exact ⟨⟨packet, body, payload⟩, rfl, last, fun on => (by cases on), fun on => (by cases on)⟩

theorem At.attributes (at_ : At x e entries) (named : e.last ≠ none) (attributes : Attributes) :
    At (attributes.foldl ParentsReader.fieldAttribute x) ⟨attributes.foldl switch e.on, e.last⟩ entries := by
  induction attributes generalizing x e with
  | nil => exact at_
  | cons p attributes ih => exact ih (at_.fieldAttribute named p) named

/-- No error is left in the response. -/
def Quiet (calls : List Call) : Prop :=
  ∀ attributes, .startElement .error attributes ∈ calls → ∀ r : Response (List Collection),
    errorHandler r attributes = r

theorem At.start (at_ : At x e entries) {name : Tag} {attributes : Attributes}
    (quiet : name = .error → ∀ r : Response (List Collection), errorHandler r attributes = r) :
    ∃ y, x.startElement name attributes = .ret y ∧ At y (e.after (.startElement name attributes)) entries := by
  obtain ⟨packet, listening, last, installed, named⟩ := at_
  have here : At { x with currElementName := some name } ⟨e.on, some name⟩ entries :=
    ⟨packet, listening, rfl, installed, fun _ => Option.some_ne_none name⟩
  by_cases field : name = .field
  · subst field
    exact ⟨_, rfl, here.attributes (Option.some_ne_none _) attributes⟩
  · refine ⟨{ x with currElementName := some name }, ?_, ?_⟩
    · by_cases error : name = .error
      · subst error
        rw [ParentsReader.startElement, quiet rfl]
      · cases name <;> first | rfl | exact absurd rfl field | exact absurd rfl error
    · rw [Ear.after, if_neg field]
      exact here

theorem At.chunk (at_ : At x e entries) (chunk : List Char) :
    ∃ y, x.characterData chunk = .ret y ∧
      At y e (entries ++ (if e.on ∧ e.last = some .value then [chunk] else []).map parentEntry) := by
  obtain ⟨⟨packet, body, payload⟩, listening, last, installed, named⟩ := at_
  unfold ParentsReader.characterData
  by_cases on : e.on = true
  · obtain ⟨behind, there⟩ := installed on
    obtain ⟨name, is⟩ := Option.ne_none_iff_exists'.mp (named on)
    rw [if_pos (listening.trans on), last, is, there, body]
    by_cases value : name = .value
    · subst value
      refine ⟨_, rfl, ⟨_, rfl, ?_⟩, listening, is.symm, fun _ => ⟨behind, rfl⟩, named⟩
      rw [if_pos ⟨on, rfl⟩, ← payload]
      rfl
    · rw [if_neg fun both => value (Option.some.inj both.2), List.map_nil, List.append_nil]
      refine ⟨x, ?_, ⟨packet, body, payload⟩, listening, last, installed, named⟩
      cases name <;> first | rfl | exact absurd rfl value
  · rw [if_neg (by simpa [listening] using on), if_neg fun both => on both.1, List.map_nil, List.append_nil]
    exact ⟨x, rfl, ⟨packet, body, payload⟩, listening, last, installed, named⟩

/-- A run makes an entry of each chunk that is heard. -/
theorem At.run (at_ : At x e entries) {calls : List Call} (quiet : Quiet calls) :
    ∃ y, parentsHandler.run x calls = .ret y ∧
      At y (calls.foldl Ear.after e) (entries ++ (e.heard calls).map parentEntry) := by
  induction calls generalizing x e entries with
  | nil => exact ⟨x, rfl, (List.append_nil entries).symm ▸ at_⟩
  | cons call calls ih =>
      have later : Quiet calls := fun attributes mem => quiet attributes (List.mem_cons_of_mem _ mem)
      cases call with
      | startElement name attributes =>
          obtain ⟨y, first, next⟩ := at_.start fun is => quiet attributes (is ▸ List.mem_cons_self)
          obtain ⟨z, others, last⟩ := ih next later
          exact ⟨z, (Outcome.bind_of_ret first).trans others, last⟩
      | characterData chunk =>
          obtain ⟨y, first, next⟩ := at_.chunk chunk
          obtain ⟨z, others, last⟩ := ih next later
          refine ⟨z, (Outcome.bind_of_ret first).trans others, ?_⟩
          rw [Ear.heard, List.map_append, ← List.append_assoc]
          exact last
      | endElement name => exact ih at_ later

theorem filter_cons (values : List (List (List Char))) {chunks : List (List Char)} (filled : chunks ≠ [])
    (first : ∀ c ∈ chunks, c ≠ []) :
    ((chunks :: values).map List.flatten).filter (· ≠ []) =
      chunks.flatten :: (values.map List.flatten).filter (· ≠ []) := by
  obtain ⟨c, rest, rfl⟩ := List.exists_cons_of_ne_nil filled
  have text : (c :: rest).flatten ≠ [] := fun none =>
    first c List.mem_cons_self (List.append_eq_nil_iff.mp none).1
  have kept : decide ((c :: rest).flatten ≠ []) = true := decide_eq_true text
  rw [List.map_cons, List.filter_cons, if_pos kept]

section Chunks

variable {values : List (List (List Char))} (nonempty : ∀ chunks ∈ values, ∀ c ∈ chunks, c ≠ [])
include nonempty

theorem count_le : ((values.map List.flatten).filter (· ≠ [])).length ≤ values.flatten.length := by
  induction values with
  | nil => exact Nat.le_refl _
  | cons chunks values ih =>
      obtain ⟨first, others⟩ := List.forall_mem_cons.mp nonempty
      have le := ih others
      rw [List.flatten_cons, List.length_append]
      by_cases filled : chunks = []
      · subst filled
        exact le.trans (Nat.le_add_left ..)
      · rw [filter_cons values filled first, List.length_cons]
        have pos := List.length_pos_of_ne_nil filled
        omega

theorem flatten_eq_nil (none : (values.map List.flatten).filter (· ≠ []) = []) : values.flatten = [] := by
  induction values with
  | nil => rfl
  | cons chunks values ih =>
      obtain ⟨first, others⟩ := List.forall_mem_cons.mp nonempty
      by_cases filled : chunks = []
      · subst filled
        exact ih others none
      · rw [filter_cons values filled first] at none
        cases none

theorem flatten_eq_iff :
    values.flatten = (values.map List.flatten).filter (· ≠ []) ↔
      ∀ chunks ∈ values, chunks ≠ [] → chunks.length = 1 := by
  induction values with
  | nil => exact ⟨fun _ chunks mem => (by cases mem), fun _ => rfl⟩
  | cons chunks values ih =>
      obtain ⟨first, others⟩ := List.forall_mem_cons.mp nonempty
      have rest := ih others
      rw [List.forall_mem_cons, ← rest]
      match chunks with
      | [] => exact ⟨fun same => ⟨fun filled => absurd rfl filled, same⟩, fun all => all.2⟩
      | [c] =>
          rw [filter_cons values (List.cons_ne_nil _ _) first]
          simp
      | c :: d :: more =>
          have le := count_le others
          rw [filter_cons values (List.cons_ne_nil _ _) first]
          constructor
          · intro same
            have length := congrArg List.length same
            simp only [List.flatten_cons, List.length_append, List.length_cons] at length
            omega
          · rintro ⟨one, -⟩
            exact absurd (one (List.cons_ne_nil _ _)) (by simp)

end Chunks

section Calls

variable {calls : List Call} {last : Option Tag}

theorem lastStart_cons (call : Call) (calls : List Call) (last : Option Tag) :
    (lastStart (call :: calls)).or last = (lastStart calls).or ((lastStart [call]).or last) := by
  have split : lastStart (call :: calls) = (lastStart calls).or (lastStart [call]) := by
    unfold lastStart
    rw [← List.singleton_append, Xml.starts_append, List.getLast?_append, Option.map_or]
  rw [split, Option.or_assoc]

theorem behindValue_append (before after : List Call) :
    behindValue last (before ++ after) =
      behindValue last before ++ behindValue ((lastStart before).or last) after := by
  induction before generalizing last with
  | nil => rfl
  | cons call before ih =>
      rw [lastStart_cons]
      cases call with
      | characterData chunk => exact (congrArg (_ ++ ·) ih).trans (List.append_assoc ..).symm
      | startElement name attributes => exact ih
      | endElement name => exact ih

theorem behindValue_data (chunks : List (List Char)) (calls : List Call) :
    behindValue (some .value) (chunks.map .characterData ++ calls) =
      chunks ++ behindValue (some .value) calls := by
  induction chunks with
  | nil => rfl
  | cons chunk chunks ih => exact congrArg (chunk :: ·) ih

theorem Ear.foldl_last : (calls.foldl Ear.after e).last = (lastStart calls).or e.last := by
  induction calls generalizing e with
  | nil => rfl
  | cons call calls ih =>
      rw [List.foldl_cons, ih, lastStart_cons]
      cases call <;> rfl

variable (free : ∀ call ∈ calls, ∀ attributes, call ≠ .startElement .field attributes)
include free

theorem Ear.foldl_on : (calls.foldl Ear.after e).on = e.on := by
  induction calls generalizing e with
  | nil => rfl
  | cons call calls ih =>
      obtain ⟨first, others⟩ := List.forall_mem_cons.mp free
      rw [List.foldl_cons, ih others]
      cases call with
      | startElement name attributes => exact if_neg fun is : name = .field => first attributes (is ▸ rfl)
      | _ => rfl

/-- Without a field the switch stays as it is. -/
theorem Ear.heard_eq : e.heard calls = if e.on then behindValue e.last calls else [] := by
  induction calls generalizing e with
  | nil => exact (ite_self _).symm
  | cons call calls ih =>
      obtain ⟨first, others⟩ := List.forall_mem_cons.mp free
      cases call with
      | startElement name attributes =>
          have other : name ≠ .field := fun is => first attributes (is ▸ rfl)
          rw [Ear.heard, ih others, Ear.after, if_neg other, behindValue]
      | characterData chunk =>
          rw [Ear.heard, ih others, behindValue]
          by_cases on : e.on = true
          · simp [on]
          · simp [on]
      | endElement name => exact ih others

end Calls

section Parts

variable {parts : List FieldPart} (sound : ∀ part ∈ parts, part.Sound)

/-- The texts of the values and the others are all that stands behind the start of a value. -/
theorem length_behindValue (parts : List FieldPart) (last : Option Tag) :
    (behindValue last (parts.flatMap FieldPart.calls)).length =
      (behindValue last (parts.flatMap FieldPart.bare)).length +
        (parts.filterMap FieldPart.chunks?).flatten.length := by
  induction parts generalizing last with
  | nil => rfl
  | cons part parts ih =>
      rw [List.flatMap_cons, List.flatMap_cons]
      cases part with
      | value attributes chunks =>
          rw [FieldPart.calls, List.cons_append, behindValue, List.append_assoc, behindValue_data,
            List.length_append, List.singleton_append, behindValue, ih]
          simp only [FieldPart.bare, FieldPart.chunks?, List.filterMap_cons, List.flatten_cons,
            List.length_append, List.cons_append, List.nil_append, behindValue]
          omega
      | call c =>
          rw [FieldPart.calls, FieldPart.bare, behindValue_append, behindValue_append, List.length_append,
            List.length_append, ih, Nat.add_assoc]
          rfl

theorem sublist_behindValue (parts : List FieldPart) (last : Option Tag) :
    (parts.filterMap FieldPart.chunks?).flatten.Sublist
      (behindValue last (parts.flatMap FieldPart.calls)) := by
  induction parts generalizing last with
  | nil => exact .slnil
  | cons part parts ih =>
      rw [List.flatMap_cons]
      cases part with
      | value attributes chunks =>
          rw [FieldPart.calls, List.cons_append, behindValue, List.append_assoc, behindValue_data]
          exact (List.Sublist.refl chunks).append (ih (some .value))
      | call c =>
          rw [FieldPart.calls, behindValue_append]
          exact (ih _).trans (List.sublist_append_right _ _)

include sound

theorem free_parts : ∀ call ∈ parts.flatMap FieldPart.calls, ∀ attributes,
    call ≠ .startElement .field attributes := by
  intro call mem attributes
  obtain ⟨part, own, here⟩ := List.mem_flatMap.mp mem
  have this := sound part own
  cases part with
  | value own chunks =>
      rintro rfl
      simp [FieldPart.calls] at here
  | call c => exact List.mem_singleton.mp here ▸ this attributes

theorem chunks_nonempty : ∀ chunks ∈ parts.filterMap FieldPart.chunks?, ∀ c ∈ chunks, c ≠ [] := by
  intro chunks mem
  obtain ⟨part, own, is⟩ := List.mem_filterMap.mp mem
  have this := sound part own
  cases part with
  | value attributes own => exact Option.some.inj is ▸ this
  | call c => cases is

theorem field_eq_iff (attributes : Xml.Attributes Attr) (on : Bool) :
    (if on then behindValue (some .field) (parts.flatMap FieldPart.calls) else []) =
        (Piece.field attributes parts).parents ↔
      (on = true → behindValue (some .field) (parts.flatMap FieldPart.bare) = []) ∧
        ∀ chunks ∈ parts.filterMap FieldPart.chunks?, chunks ≠ [] →
          (on = true ↔ attributes.get .var = some collectionVar) ∧
            (attributes.get .var = some collectionVar → chunks.length = 1) := by
  have nonempty := chunks_nonempty sound
  have texts := flatten_eq_iff nonempty
  have le := count_le nonempty
  have length := length_behindValue parts (some .field)
  have sublist := sublist_behindValue parts (some .field)
  have none : (parts.filterMap FieldPart.chunks?).flatten = [] ↔
      ∀ chunks ∈ parts.filterMap FieldPart.chunks?, chunks = [] := List.flatten_eq_nil_iff
  rw [Piece.parents]
  generalize behindValue (some .field) (parts.flatMap FieldPart.calls) = all at *
  generalize behindValue (some .field) (parts.flatMap FieldPart.bare) = others at *
  generalize parts.filterMap FieldPart.chunks? = values at *
  by_cases is : attributes.get .var = some collectionVar
  · rw [if_pos is]
    cases on with
    | true =>
        rw [if_pos rfl]
        simp only [is, true_imp_iff, true_and, ← texts]
        constructor
        · intro same
          rw [← same] at le
          have nil : others = [] := List.length_eq_zero_iff.mp (by omega)
          have whole : values.flatten = all := sublist.eq_of_length (by rw [length, nil]; simp)
          exact ⟨nil, whole.trans same⟩
        · rintro ⟨nil, same⟩
          have whole : values.flatten = all := sublist.eq_of_length (by rw [length, nil]; simp)
          exact whole.symm.trans same
    | false =>
        have empty : (values.map List.flatten).filter (· ≠ []) = [] ↔ values.flatten = [] := by
          refine ⟨flatten_eq_nil nonempty, fun nil => ?_⟩
          rw [nil] at le
          exact List.length_eq_zero_iff.mp (Nat.le_zero.mp le)
        rw [if_neg (by decide), eq_comm, empty, none]
        simp [is]
  · rw [if_neg is]
    cases on with
    | true =>
        rw [if_pos rfl]
        simp only [is, true_imp_iff, iff_false, not_true_eq_false, false_and, imp_false, not_not, ← none]
        constructor
        · rintro rfl
          rw [List.length_nil] at length
          exact ⟨List.length_eq_zero_iff.mp (by omega), List.length_eq_zero_iff.mp (by omega)⟩
        · rintro ⟨nil, empty⟩
          rw [nil, empty] at length
          exact List.length_eq_zero_iff.mp length
    | false => simp [is]

end Parts

section Pieces

variable {pieces before : List Piece}

/-- The switch behind some pieces is as the attributes of their fields leave it. -/
theorem foldl_on_pieces (sound : ∀ p ∈ pieces, p.Sound) :
    ((pieces.flatMap Piece.calls).foldl Ear.after e).on =
      (pieces.flatMap Piece.reported).foldl switch e.on := by
  induction pieces generalizing e with
  | nil => rfl
  | cons p pieces ih =>
      obtain ⟨first, others⟩ := List.forall_mem_cons.mp sound
      rw [List.flatMap_cons, List.foldl_append, ih others, List.flatMap_cons, List.foldl_append]
      congr 1
      cases p with
      | field attributes parts =>
          rw [Piece.calls, List.foldl_cons, List.foldl_append, Ear.foldl_on (by simp),
            Ear.foldl_on (free_parts first)]
          rfl
      | call c => exact Ear.foldl_on fun call mem => List.mem_singleton.mp mem ▸ first

/-- A piece makes the entries that it calls for exactly if it is heard as it should be. -/
theorem Piece.heard_iff {p : Piece} (sound : p.Sound) (all : ∀ p ∈ before, p.Sound) :
    ((before.flatMap Piece.calls).foldl Ear.after {}).heard p.calls = p.parents ↔ p.Heard before := by
  have on : ((before.flatMap Piece.calls).foldl Ear.after {}).on = true ↔
      Listens (before.flatMap Piece.reported) := by
    rw [foldl_on_pieces all]
    exact listens_iff _
  cases p with
  | field attributes parts =>
      have inside : ((before.flatMap Piece.calls).foldl Ear.after {}).heard (Piece.field attributes parts).calls =
          if attributes.entries.foldl switch ((before.flatMap Piece.calls).foldl Ear.after {}).on
          then behindValue (some .field) (parts.flatMap FieldPart.calls) else [] := by
        rw [Piece.calls, Ear.heard, Ear.heard_append, Ear.heard_eq (free_parts sound)]
        exact List.append_nil _
      rw [inside, field_eq_iff sound, foldl_on_pieces all, ← List.foldl_append]
      simp only [listens_iff]
      rfl
  | call c =>
      have free : ∀ call ∈ [c], ∀ attributes, call ≠ .startElement .field attributes :=
        fun call mem => List.mem_singleton.mp mem ▸ sound
      rw [Piece.calls, Ear.heard_eq free, Ear.foldl_last, Option.or_none, Piece.parents, Piece.Heard, ← on]
      split
      · next is => simp [is]
      · next is => simp [is]

/-- The entries behind each piece are right exactly if those of each piece are. -/
theorem heard_pieces (pieces : List Piece) (e : Ear) :
    (∀ k, e.heard ((pieces.take k).flatMap Piece.calls) = (pieces.take k).flatMap Piece.parents) ↔
      ∀ before p after, pieces = before ++ p :: after →
        ((before.flatMap Piece.calls).foldl Ear.after e).heard p.calls = p.parents := by
  induction pieces generalizing e with
  | nil =>
      constructor
      · intro _ before p after eq
        exact absurd eq (List.append_ne_nil_of_right_ne_nil _ (List.cons_ne_nil _ _)).symm
      · intro _ k
        rw [List.take_nil]
        rfl
  | cons p pieces ih =>
      have later (before : List Piece) : ((p :: before).flatMap Piece.calls).foldl Ear.after e =
          (before.flatMap Piece.calls).foldl Ear.after (p.calls.foldl Ear.after e) := by
        rw [List.flatMap_cons, List.foldl_append]
      rw [Xml.forall_split_cons]
      simp only [later]
      rw [← ih]
      constructor
      · intro all
        have this := all 1
        rw [List.take_succ_cons, List.take_zero, List.flatMap_singleton, List.flatMap_singleton] at this
        refine ⟨this, fun k => ?_⟩
        have more := all (k + 1)
        rw [List.take_succ_cons, List.flatMap_cons, List.flatMap_cons, Ear.heard_append, this] at more
        exact List.append_cancel_left more
      · rintro ⟨this, others⟩ k
        cases k with
        | zero => rfl
        | succ k =>
            rw [List.take_succ_cons, List.flatMap_cons, List.flatMap_cons, Ear.heard_append, others k]
            exact congrArg (· ++ _) this

end Pieces

theorem parentEntry_inj : Function.Injective parentEntry := by
  intro text other same
  exact Option.some.inj (Collection.mk.inj same).1

theorem at_first (type : ResponseType) : At { response := packetNew type [] } {} [] :=
  ⟨⟨_, rfl, rfl⟩, rfl, rfl, fun on => (by cases on), fun on => (by cases on)⟩

theorem reads_iff {type : ResponseType} {calls : List Call} {texts : List (List Char)} (quiet : Quiet calls) :
    Reads type calls texts ↔ ({} : Ear).heard calls = texts := by
  obtain ⟨y, run, ⟨packet, body, payload⟩, -⟩ := (at_first type).run quiet
  rw [List.nil_append] at payload
  constructor
  · rintro ⟨x, packet', run', body', payload'⟩
    rw [run] at run'
    cases run'
    rw [body] at body'
    cases body'
    exact (List.map_injective_iff.mpr parentEntry_inj) (payload.symm.trans payload')
  · rintro rfl
    exact ⟨y, packet, run, body, payload⟩

theorem answers_of_reads {type : ResponseType} {calls : List Call} {texts : List (List Char)}
    {ss : List MioStanza} (reports : Xml.Reports ss calls) (reads : Reads type calls texts) :
    Answers type calls texts := by
  obtain ⟨x, packet, run, body, payload⟩ := reads
  have steps : ∀ x depth n name, ParserData.Level x depth n →
      ParserData.Level (x.startShift name) (depth + 1) (n + 1) := fun x depth n name at_ =>
    ⟨(at_.start name).level, (at_.start name).stack⟩
  refine ⟨retype .collections x.response, { packet with type := .collections }, ?_, ?_, payload⟩
  · change xmlParse ParserData.startShift parentsHandler _ _ >>= _ = _
    rw [xmlParse_eq steps parentsHandler _ reports, run]
    rfl
  · simp only [retype, body]

/-- Of every report of a configuration: the entries are right behind each piece of it, and in the end,
if and only if each piece is heard as it should be. -/
theorem collection_parents_iff (type : ResponseType) {reply : MioStanza} {calls : List Call}
    (configuration : Configuration reply) (rendered : Rendered reply calls) :
    (∃ pieces, Reported reply calls pieces) ∧
      ∀ pieces, Reported reply calls pieces →
        (Decodes type reply calls pieces ↔
          ∀ before p after, pieces = before ++ p :: after → p.Heard before) := by
  refine ⟨reported_pieces configuration rendered, fun pieces reported => ?_⟩
  obtain ⟨shape, eq⟩ := reported
  have sound := shape.sound
  have quiet : Quiet calls := by
    intro attributes mem r
    have start := Xml.mem_starts.mpr mem
    rw [rendered.starts] at start
    obtain ⟨⟨name, a⟩, here, is⟩ := List.mem_map.mp start
    cases is
    rw [errorHandler_eq r (.refl _), Strophe.errorOf_written, configuration.clear _ here]
  have prefixes (k : ℕ) : Quiet ((pieces.take k).flatMap Piece.calls) := by
    intro attributes mem
    obtain ⟨p, own, here⟩ := List.mem_flatMap.mp mem
    exact quiet attributes (eq ▸ List.mem_flatMap.mpr ⟨p, List.mem_of_mem_take own, here⟩)
  have whole : (∀ k, Reads type ((pieces.take k).flatMap Piece.calls) ((pieces.take k).flatMap Piece.parents)) →
      Answers type calls (parentsIn [reply]) := by
    intro all
    have last := all pieces.length
    rw [List.take_length, ← eq, ← shape.parentsIn] at last
    exact answers_of_reads (Strophe.rendered_iff.mp rendered).2.reports last
  rw [Decodes, and_iff_left_of_imp whole]
  simp only [reads_iff (prefixes _), heard_pieces]
  constructor
  · intro all before p after split
    have here : ∀ q ∈ before ++ p :: after, q.Sound := split ▸ sound
    rw [← Piece.heard_iff (here p (by simp)) fun q mem => here q (by simp [mem])]
    exact all before p after split
  · intro all before p after split
    have here : ∀ q ∈ before ++ p :: after, q.Sound := split ▸ sound
    rw [Piece.heard_iff (here p (by simp)) fun q mem => here q (by simp [mem])]
    exact all before p after split

def formOf (first second : Xml.Attributes Attr) (parent title : List Char) : MioStanza :=
  .tag (.other "iq".toList) .empty [.tag (.other "pubsub".toList) .empty
    [.tag (.other "configure".toList) .empty [.tag (.other "x".toList) .empty
      [.tag .field first [.tag .value .empty [.text parent]],
        .tag .field second [.tag .value .empty [.text title]]]]]]

theorem configuration_form (first second : Xml.Attributes Attr) (parent title : List Char) :
    Configuration (formOf first second parent title) := by
  refine ⟨?_, ?_⟩
  · simp [formOf, IsForm, AreForms, InField, IsText]
  · simp [formOf, Xml.elements, Xml.Stanza.elements, errorOf]

theorem written_empty : written (.empty : Xml.Attributes Attr) = .empty := by
  apply Xml.Attributes.ext
  decide +kernel

theorem rendered_form (first second : Xml.Attributes Attr) (parent title : List Char)
    (hashable : Strophe.Hashable first ∧ Strophe.Hashable second) :
    Rendered (formOf first second parent title)
      (Xml.report [formOf (written first) (written second) parent title]) := by
  have empty : Strophe.Hashable (.empty : Xml.Attributes Attr) := fun p mem => by cases mem
  refine Strophe.rendered_iff.mpr ⟨?_, ?_⟩
  · simpa [formOf, Xml.elements, Xml.Stanza.elements, empty] using hashable
  · have mapped : (formOf first second parent title).mapAttributes written =
        formOf (written first) (written second) parent title := by
      simp [formOf, Xml.Stanza.mapAttributes, Xml.mapAttributes, written_empty]
    rw [mapped]
    exact Xml.inOrder_report _

def formPieces (first second : Xml.Attributes Attr) (parent title : List Char) : List Piece :=
  [.call (.startElement (.other "iq".toList) []), .call (.startElement (.other "pubsub".toList) []),
    .call (.startElement (.other "configure".toList) []), .call (.startElement (.other "x".toList) []),
    .field first [.value [] [parent]], .field second [.value [] [title]],
    .call (.endElement (.other "x".toList)), .call (.endElement (.other "configure".toList)),
    .call (.endElement (.other "pubsub".toList)), .call (.endElement (.other "iq".toList))]

theorem pieces_form (first second : Xml.Attributes Attr) {parent title : List Char}
    (filled : parent ≠ [] ∧ title ≠ []) :
    Pieces [formOf first second parent title] (formPieces (written first) (written second) parent title) := by
  have plain (text : List Char) : ∀ s ∈ [Xml.Stanza.text text], IsText (s : MioStanza) :=
    fun s mem => List.mem_singleton.mp mem ▸ trivial
  have value {text : List Char} (filled : text ≠ []) :
      Parts [.tag .value .empty [.text text]] [.value (written .empty).entries [text]] :=
    .value (plain text) [text] (fun c mem => List.mem_singleton.mp mem ▸ filled) (by simp [textOf]) .nil
  have inside : Pieces [.tag .field first [.tag .value .empty [.text parent]],
      .tag .field second [.tag .value .empty [.text title]]] _ :=
    .field (value filled.1) (.field (value filled.2) .nil)
  have around (name : List Char) {ss : List MioStanza} {pieces : List Piece} (inner : Pieces ss pieces) :
      Pieces [.tag (.other name) .empty ss] _ := .tag (by simp) inner .nil
  have whole := around "iq".toList (around "pubsub".toList
    (around "configure".toList (around "x".toList inside)))
  rw [written_empty] at whole
  exact whole

def withVar (var : List Char) : Xml.Attributes Attr := Xml.Attributes.empty.set .var var

def withType (var type : List Char) : Xml.Attributes Attr :=
  (Xml.Attributes.empty.set .type type).set .var var

/-- Where fields have types, which libstrophe writes in front of the variables, all is read. -/
theorem collection_parents_heard : ∃ calls,
    Rendered (formOf (withType collectionVar "text-multi".toList)
      (withType "pubsub#title".toList "text-single".toList) "parent".toList "t".toList) calls ∧
        Answers .ok calls ["parent".toList] := by
  have rendered := rendered_form (withType collectionVar "text-multi".toList)
    (withType "pubsub#title".toList "text-single".toList) "parent".toList "t".toList (by decide +kernel)
  refine ⟨_, rendered, ?_⟩
  have decodes := ((collection_parents_iff .ok (configuration_form _ _ _ _) rendered).2 _
    ⟨pieces_form _ _ (by decide), by rfl⟩).mpr ?_
  · exact decodes.2
  · intro before p after split
    exact Xml.forall_split_iff (P := fun before p => p.Heard before).mpr (by decide +kernel) before p after split

/-- The handler stays on for a field that has only another variable. -/
theorem title_added : ¬ ∀ (type : ResponseType) (reply : MioStanza) (calls : List Call),
    Configuration reply → Rendered reply calls → Answers type calls (parentsIn [reply]) := by
  intro all
  have rendered := rendered_form (withVar collectionVar) (withVar "pubsub#title".toList) "parent".toList
    "t".toList (by decide +kernel)
  have first : written (withVar collectionVar) = withVar collectionVar := by
    apply Xml.Attributes.ext
    decide +kernel
  have second : written (withVar "pubsub#title".toList) = withVar "pubsub#title".toList := by
    apply Xml.Attributes.ext
    decide +kernel
  have answers := all .ok _ _ (configuration_form _ _ _ _) rendered
  rw [first, second] at answers
  obtain ⟨answer, packet, run, body, payload⟩ := answers
  cases run
  cases body
  have added : [parentEntry "parent".toList, parentEntry "t".toList] = [parentEntry "parent".toList] := payload
  cases added

end Mio.LibMio.Replies
