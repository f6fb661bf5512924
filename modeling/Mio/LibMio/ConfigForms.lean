import Mio.LibMio.ErrorReplies
import Mio.LibMio.Strophe

/-! Node configurations: the fields of a form, and the pieces in which they are reported. -/
namespace Mio.LibMio.Replies

open Strophe (Rendered hashKey written)

abbrev Call := Xml.Callback Tag Attr

def collectionVar : List Char := "pubsub#collection".toList

def textOf : List MioStanza → List Char
  | [] => []
  | .text text :: rest => text ++ textOf rest
  | .tag .. :: rest => textOf rest

/-- The whole text of each value that has one, in order. -/
def valuesIn : List MioStanza → List (List Char)
  | [] => []
  | .tag .value _ children :: rest => (if textOf children = [] then [] else [textOf children]) ++ valuesIn rest
  | _ :: rest => valuesIn rest

mutual

/-- The parents that a document names: the values of the collection fields. -/
def parentsOf : MioStanza → List (List Char)
  | .tag name attributes children =>
      (if name = .field ∧ attributes.get .var = some collectionVar then valuesIn children else []) ++
        parentsIn children
  | .text _ => []

def parentsIn : List MioStanza → List (List Char)
  | [] => []
  | s :: rest => parentsOf s ++ parentsIn rest

end

def IsText : MioStanza → Prop
  | .text _ => True
  | .tag .. => False

/-- What may stand in a field: values with texts, and anything but fields. -/
def InField : MioStanza → Prop
  | .tag name _ children =>
      if name = .value then ∀ s ∈ children, IsText s
      else name ≠ .field ∧ ∀ e ∈ Xml.elements children, e.name ≠ .field
  | .text _ => True

mutual

/-- The fields of a form are not nested. -/
def IsForm : MioStanza → Prop
  | .tag name _ children => if name = .field then ∀ s ∈ children, InField s else AreForms children
  | .text _ => True

def AreForms : List MioStanza → Prop
  | [] => True
  | s :: rest => IsForm s ∧ AreForms rest

end

/-- A node configuration, and not an error. -/
structure Configuration (reply : MioStanza) : Prop where
  form : IsForm reply
  clear : ∀ e ∈ Xml.elements [reply], errorOf e = none

/-- A part of a report inside of a field: a value with the chunks of its text, or a call. -/
inductive FieldPart where
  | value (attributes : Attributes) (chunks : List (List Char))
  | call (c : Call)

namespace FieldPart

def calls : FieldPart → List Call
  | .value attributes chunks =>
      .startElement .value attributes :: (chunks.map .characterData ++ [.endElement .value])
  | .call c => [c]

def bare : FieldPart → List Call
  | .value attributes _ => [.startElement .value attributes, .endElement .value]
  | .call c => [c]

def chunks? : FieldPart → Option (List (List Char))
  | .value _ chunks => some chunks
  | .call _ => none

end FieldPart

/-- A part of a report: a field, or a call. -/
inductive Piece where
  | field (attributes : Xml.Attributes Attr) (parts : List FieldPart)
  | call (c : Call)

namespace Piece

def calls : Piece → List Call
  | .field attributes parts =>
      .startElement .field attributes.entries :: (parts.flatMap FieldPart.calls ++ [.endElement .field])
  | .call c => [c]

def reported : Piece → Attributes
  | .field attributes _ => attributes.entries
  | .call _ => []

/-- What is called for. -/
def parents : Piece → List (List Char)
  | .field attributes parts =>
      if attributes.get .var = some collectionVar
      then ((parts.filterMap FieldPart.chunks?).map List.flatten).filter (· ≠ []) else []
  | .call _ => []

end Piece

/-- The children of a field and the parts of their report. -/
inductive Parts : List MioStanza → List FieldPart → Prop
  | nil : Parts [] []
  | value {attributes : Xml.Attributes Attr} {children rest : List MioStanza} {parts : List FieldPart}
      (plain : ∀ s ∈ children, IsText s) (chunks : List (List Char)) (nonempty : ∀ c ∈ chunks, c ≠ [])
      (whole : chunks.flatten = textOf children) (more : Parts rest parts) :
      Parts (.tag .value attributes children :: rest) (.value (written attributes).entries chunks :: parts)
  | other {s : MioStanza} {rest : List MioStanza} {calls : List Call} {parts : List FieldPart}
      (other : ∀ attributes children, s ≠ .tag .value attributes children)
      (free : ∀ e ∈ s.elements, e.name ≠ .field) (order : Xml.InOrder [s.mapAttributes written] calls)
      (more : Parts rest parts) : Parts (s :: rest) (calls.map .call ++ parts)

/-- A document and the pieces of its report. -/
inductive Pieces : List MioStanza → List Piece → Prop
  | nil : Pieces [] []
  | text {rest : List MioStanza} {pieces : List Piece} (chunks : List (List Char))
      (nonempty : ∀ c ∈ chunks, c ≠ []) (more : Pieces rest pieces) :
      Pieces (.text chunks.flatten :: rest) (chunks.map (fun c => .call (.characterData c)) ++ pieces)
  | field {attributes : Xml.Attributes Attr} {children rest : List MioStanza} {parts : List FieldPart}
      {pieces : List Piece} (content : Parts children parts) (more : Pieces rest pieces) :
      Pieces (.tag .field attributes children :: rest) (.field (written attributes) parts :: pieces)
  | tag {name : Tag} {attributes : Xml.Attributes Attr} {children rest : List MioStanza}
      {inside pieces : List Piece} (other : name ≠ .field) (inner : Pieces children inside)
      (more : Pieces rest pieces) :
      Pieces (.tag name attributes children :: rest)
        (.call (.startElement name (written attributes).entries) ::
          (inside ++ .call (.endElement name) :: pieces))

/-- The calls report the reply in these pieces. -/
structure Reported (reply : MioStanza) (calls : List Call) (pieces : List Piece) : Prop where
  shape : Pieces [reply] pieces
  eq : calls = pieces.flatMap Piece.calls

theorem texts_of_order {ss : List MioStanza} {calls : List Call} (plain : ∀ s ∈ ss, IsText s)
    (order : Xml.InOrder (Xml.mapAttributes written ss) calls) : ∃ chunks : List (List Char),
      (∀ c ∈ chunks, c ≠ []) ∧ chunks.flatten = textOf ss ∧ calls = chunks.map .characterData := by
  induction ss generalizing calls with
  | nil =>
      cases order
      exact ⟨[], fun c mem => (by cases mem), rfl, rfl⟩
  | cons s ss ih =>
      obtain ⟨first, others⟩ := List.forall_mem_cons.mp plain
      cases s with
      | tag => exact first.elim
      | text text =>
          rw [Xml.mapAttributes, Xml.Stanza.mapAttributes] at order
          cases order with
          | text chunks nonempty more =>
              obtain ⟨rest, all, whole, rfl⟩ := ih others more
              refine ⟨chunks ++ rest, fun c mem => ?_, ?_, (List.map_append ..).symm⟩
              · exact (List.mem_append.mp mem).elim (nonempty c) (all c)
              · rw [List.flatten_append, whole, textOf]

theorem InField.free {s : MioStanza} (inside : InField s)
    (other : ∀ attributes children, s ≠ .tag .value attributes children) :
    ∀ e ∈ s.elements, e.name ≠ .field := by
  cases s with
  | text text => exact fun e mem => by cases mem
  | tag name attributes children =>
      have apart : name ≠ .value := fun is => other attributes children (is ▸ rfl)
      rw [InField, if_neg apart] at inside
      rw [Xml.Stanza.elements]
      exact List.forall_mem_cons.mpr inside

theorem parts_of_order {ss : List MioStanza} {calls : List Call} (fit : ∀ s ∈ ss, InField s)
    (order : Xml.InOrder (Xml.mapAttributes written ss) calls) :
    ∃ parts, Parts ss parts ∧ calls = parts.flatMap FieldPart.calls := by
  induction ss generalizing calls with
  | nil =>
      cases order
      exact ⟨[], .nil, rfl⟩
  | cons s ss ih =>
      obtain ⟨first, others⟩ := List.forall_mem_cons.mp fit
      obtain ⟨left, right, rfl, here, later⟩ := order.uncons
      obtain ⟨parts, more, rfl⟩ := ih others later
      by_cases value : ∃ attributes children, s = .tag .value attributes children
      · obtain ⟨attributes, children, rfl⟩ := value
        obtain ⟨inside, inner, rfl⟩ := here.of_tag
        obtain ⟨chunks, nonempty, whole, rfl⟩ := texts_of_order first inner
        exact ⟨_, .value first chunks nonempty whole more, rfl⟩
      · have other : ∀ attributes children, s ≠ .tag .value attributes children :=
          fun attributes children is => value ⟨attributes, children, is⟩
        refine ⟨_, .other other (InField.free first other) here more, ?_⟩
        rw [List.flatMap_append, List.flatMap_map]
        exact congrArg (· ++ _) (List.flatMap_singleton' left).symm

theorem pieces_of_order {ss : List MioStanza} {calls : List Call} (forms : AreForms ss)
    (order : Xml.InOrder (Xml.mapAttributes written ss) calls) :
    ∃ pieces, Pieces ss pieces ∧ calls = pieces.flatMap Piece.calls := by
  generalize eq : Xml.mapAttributes written ss = rendered at order
  induction order generalizing ss with
  | nil =>
      cases ss with
      | nil => exact ⟨[], .nil, rfl⟩
      | cons s ss => cases eq
  | text chunks nonempty more ih =>
      cases ss with
      | nil => cases eq
      | cons s ss =>
          rw [Xml.mapAttributes] at eq
          obtain ⟨same, rfl⟩ := List.cons.inj eq
          cases s with
          | tag => cases same
          | text text =>
              cases same
              obtain ⟨pieces, shape, rfl⟩ := ih forms.2 rfl
              refine ⟨_, .text chunks nonempty shape, ?_⟩
              rw [List.flatMap_append, List.flatMap_map]
              exact congrArg (· ++ _) (List.map_eq_flatMap ..)
  | @tag name attributes children rest inside calls inner more inward onward =>
      cases ss with
      | nil => cases eq
      | cons s ss =>
          rw [Xml.mapAttributes] at eq
          obtain ⟨same, rfl⟩ := List.cons.inj eq
          cases s with
          | text => cases same
          | tag name attributes children =>
              injection same with named written_ inner_
              subst named written_ inner_
              obtain ⟨pieces, shape, rfl⟩ := onward forms.2 rfl
              have here := forms.1
              rw [IsForm] at here
              by_cases field : name = .field
              · subst field
                rw [if_pos rfl] at here
                obtain ⟨parts, content, rfl⟩ := parts_of_order here inner
                refine ⟨_, .field content shape, ?_⟩
                simp [Piece.calls]
              · rw [if_neg field] at here
                obtain ⟨inside, within, rfl⟩ := inward here rfl
                refine ⟨_, .tag field within shape, ?_⟩
                simp [Piece.calls]

/-- Every report of a configuration comes in pieces. -/
theorem reported_pieces {reply : MioStanza} {calls : List Call} (configuration : Configuration reply)
    (rendered : Rendered reply calls) : ∃ pieces, Reported reply calls pieces := by
  obtain ⟨pieces, shape, eq⟩ :=
    @pieces_of_order [reply] calls ⟨configuration.form, trivial⟩ (Strophe.rendered_iff.mp rendered).2
  exact ⟨pieces, shape, eq⟩

mutual

theorem parentsOf_free : ∀ {s : MioStanza}, (∀ e ∈ s.elements, e.name ≠ .field) → parentsOf s = []
  | .text _, _ => rfl
  | .tag name attributes children, free => by
      rw [Xml.Stanza.elements, List.forall_mem_cons] at free
      rw [parentsOf, if_neg fun is => free.1 is.1, parentsIn_free free.2, List.append_nil]

theorem parentsIn_free : ∀ {ss : List MioStanza}, (∀ e ∈ Xml.elements ss, e.name ≠ .field) →
    parentsIn ss = []
  | [], _ => rfl
  | s :: rest, free => by
      rw [Xml.elements, List.forall_mem_append] at free
      rw [parentsIn, parentsOf_free free.1, parentsIn_free free.2, List.append_nil]

end

theorem elements_texts {ss : List MioStanza} (plain : ∀ s ∈ ss, IsText s) : Xml.elements ss = [] := by
  induction ss with
  | nil => rfl
  | cons s ss ih =>
      obtain ⟨first, others⟩ := List.forall_mem_cons.mp plain
      cases s with
      | tag => exact first.elim
      | text text => exact ih others

section
variable {ss : List MioStanza} {parts : List FieldPart} {pieces : List Piece}

theorem Parts.parentsIn (content : Parts ss parts) : parentsIn ss = [] := by
  induction content with
  | nil => rfl
  | value plain _ _ _ _ ih =>
      rw [Replies.parentsIn, ih, List.append_nil]
      apply parentsOf_free
      rw [Xml.Stanza.elements, elements_texts plain]
      simp
  | other _ free _ _ ih => rw [Replies.parentsIn, ih, List.append_nil, parentsOf_free free]

theorem valuesIn_other {s : MioStanza} (other : ∀ attributes children, s ≠ .tag .value attributes children)
    (rest : List MioStanza) : valuesIn (s :: rest) = valuesIn rest := by
  rw [valuesIn]
  exact other

theorem Parts.valuesIn (content : Parts ss parts) :
    valuesIn ss = ((parts.filterMap FieldPart.chunks?).map List.flatten).filter (· ≠ []) := by
  induction content with
  | nil => rfl
  | value _ chunks _ whole _ ih =>
      rw [Replies.valuesIn, ih, List.filterMap_cons, FieldPart.chunks?, List.map_cons, ← whole]
      by_cases empty : chunks.flatten = []
      · simp [empty]
      · simp [empty]
  | @other s rest calls parts other _ _ _ ih =>
      have none : (calls.map FieldPart.call).filterMap FieldPart.chunks? = [] := by
        rw [List.filterMap_map]
        exact List.filterMap_eq_nil_iff.mpr fun c _ => rfl
      rw [valuesIn_other other, ih, List.filterMap_append, none, List.nil_append]

/-- The pieces call for what the document calls for. -/
theorem Pieces.parentsIn (shape : Pieces ss pieces) : parentsIn ss = pieces.flatMap Piece.parents := by
  have varAt : hashKey Attr.var.text = 6 := by decide +kernel
  induction shape with
  | nil => rfl
  | text chunks _ _ ih =>
      have none : (chunks.map fun c => Piece.call (.characterData c)).flatMap Piece.parents = [] := by
        rw [List.flatMap_map]
        exact List.flatMap_eq_nil_iff.mpr fun c _ => rfl
      rw [Replies.parentsIn, ih, List.flatMap_append, none, parentsOf]
  | field content _ ih =>
      rw [Replies.parentsIn, ih, List.flatMap_cons, parentsOf, content.parentsIn, List.append_nil, Piece.parents,
        Strophe.get_written (by omega) (by omega), content.valuesIn]
      simp only [true_and]
  | tag other _ _ inward onward =>
      rw [Replies.parentsIn, parentsOf, if_neg fun is => other is.1, List.nil_append, inward, onward,
        List.flatMap_cons, List.flatMap_append, List.flatMap_cons]
      rfl

/-- No call is the start of a field. -/
def FieldPart.Sound : FieldPart → Prop
  | .value _ chunks => ∀ c ∈ chunks, c ≠ []
  | .call c => ∀ attributes, c ≠ .startElement .field attributes

def Piece.Sound : Piece → Prop
  | .field _ parts => ∀ part ∈ parts, part.Sound
  | .call c => ∀ attributes, c ≠ .startElement .field attributes

theorem Parts.sound (content : Parts ss parts) : ∀ part ∈ parts, part.Sound := by
  induction content with
  | nil => exact fun part mem => by cases mem
  | value _ _ nonempty _ _ ih => exact List.forall_mem_cons.mpr ⟨nonempty, ih⟩
  | @other s rest calls parts _ free order _ ih =>
      refine List.forall_mem_append.mpr ⟨fun part mem => ?_, ih⟩
      obtain ⟨c, here, rfl⟩ := List.mem_map.mp mem
      rintro attributes rfl
      have start := Xml.mem_starts.mpr here
      have own : Xml.elements [s.mapAttributes written] = s.elements.map fun e => ⟨e.name, written e.attributes⟩ :=
        (List.append_nil _).trans (s.elements_mapAttributes written)
      rw [order.starts, own] at start
      simp only [List.mem_map, Prod.mk.injEq] at start
      obtain ⟨-, ⟨e, mem, rfl⟩, is, -⟩ := start
      exact free e mem is

theorem Pieces.sound (shape : Pieces ss pieces) : ∀ p ∈ pieces, p.Sound := by
  induction shape with
  | nil => exact fun p mem => by cases mem
  | text chunks _ _ ih =>
      refine List.forall_mem_append.mpr ⟨fun p mem => ?_, ih⟩
      obtain ⟨c, -, rfl⟩ := List.mem_map.mp mem
      exact fun attributes is => by cases is
  | field content _ ih => exact List.forall_mem_cons.mpr ⟨content.sound, ih⟩
  | tag other _ _ inward onward =>
      refine List.forall_mem_cons.mpr ⟨fun attributes is => ?_, List.forall_mem_append.mpr ⟨inward,
        List.forall_mem_cons.mpr ⟨fun attributes is => (by cases is), onward⟩⟩⟩
      injection is with is
      exact other is

end
end Mio.LibMio.Replies
