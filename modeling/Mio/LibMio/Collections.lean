import Mathlib.Data.List.Perm.Basic
import Mio.LibMio.Replies

/-! Membership in collections: the configurations that `mio_collection_child_add` and
`mio_collection_child_remove` of `mio.c` make out of what the server reports, and send. -/
namespace Mio.LibMio.Collections

open DataItem Replies

/-- `xmpp_stanza_get_text`. -/
def getText : Node → Option (List Char)
  | .text text => some text
  | .tag _ _ children =>
      let text := children.flatMap fun s =>
        match s with
        | .text text => text
        | .tag .. => []
      if text = [] then none else some text

/-- `xmpp_stanza_set_ns`. -/
def setNs (ns : List Char) : Node → Node
  | .tag name attributes children => .tag name (attributes.set .xmlns ns) children
  | .text text => .text text

def configValue (text : List Char) : Node := .tag .value .empty [.text text]

/-- The elements around the fields. -/
def configuration (iq : Xml.Attributes Attr) (ns node : List Char) (fields : List Node) : Node :=
  .tag (.other "iq".toList) iq
    [.tag (.other "pubsub".toList) (Xml.Attributes.empty.set .xmlns ns)
      [.tag (.other "configure".toList) (Xml.Attributes.empty.set .node node)
        [.tag (.other "x".toList)
          ((Xml.Attributes.empty.set .xmlns "jabber:x:data".toList).set .type "submit".toList) fields]]]

def pubsubNs : List Char := "http://jabber.org/protocol/pubsub".toList
def ownerNs : List Char := "http://jabber.org/protocol/pubsub#owner".toList

def formType : Node :=
  .tag .field ((Xml.Attributes.empty.set .var "FORM_TYPE".toList).set .type "hidden".toList)
    [configValue "http://jabber.org/protocol/pubsub#node_config".toList]

/-- `mio_node_config_new`; the attributes of the `iq` come from `_mio_pubsub_set_stanza_new`. -/
def nodeConfigNew (iq : Xml.Attributes Attr) (node : List Char) (type : NodeType) : Node :=
  configuration iq pubsubNs node <| formType ::
    if type = .unknown then []
    else
      [.tag .field (Xml.Attributes.empty.set .var "pubsub#node_type".toList)
        [configValue (if type = .collection then "collection".toList else "leaf".toList)]]

/-- Work on the first child. -/
def onFirst {β : Type} (f : Node → Outcome Empty (β × Node)) (s : Node) : Outcome Empty (β × Node) :=
  match getChildren s with
  | [] => .abort "children"
  | child :: rest => do
      let (b, child) ← f child
      return (b, setChildren (child :: rest) s)

def hasVar (var : List Char) (s : Node) : Outcome Empty Bool :=
  .ret (getAttribute .var s = some var)

def hasText (text : List Char) (s : Node) : Outcome Empty Bool := DataItem.strcmp (getText s) (some text)

/-- `MIO_ERROR_DUPLICATE_ENTRY`. -/
def duplicateEntry : ℤ := -24

/-- `MIO_ERROR_NOT_AFFILIATED`. -/
def notAffiliated : ℤ := -25

/-- A value in the field with the variable, which is made if it is not there. -/
def addValue (var text : List Char) (fields : List Node) : Outcome Empty (ℤ × List Node) := do
  match ← search (hasVar var) fields with
  | none => return (mioOk, fields ++ [.tag .field (Xml.Attributes.empty.set .var var) [configValue text]])
  | some (before, field, after) =>
      match ← search (hasText text) (getChildren field) with
      | some _ => return (duplicateEntry, fields)
      | none =>
          let field := setChildren (getChildren field ++ [configValue text]) field
          return (mioOk, before ++ field :: after)

/-- What `mio_collection_config_child_add` and `mio_collection_config_parent_add` have in common. -/
def configAdd (var : List Char) (id : Option (List Char)) (iq : Node) : Outcome Empty (ℤ × Node) :=
  match id with
  | none => .abort "xmpp_strdup"
  | some text =>
      onFirst (fun pubsub =>
        onFirst (onFirst fun x => do
          let (result, fields) ← addValue var text (getChildren x)
          return (result, setChildren fields x)) (setNs ownerNs pubsub)) iq

def childrenVar : List Char := "pubsub#children".toList
def parentsVar : List Char := "pubsub#collection".toList

/-- `mio_collection_config_child_add`. -/
def configChildAdd : Option (List Char) → Node → Outcome Empty (ℤ × Node) := configAdd childrenVar

/-- `mio_collection_config_parent_add`. -/
def configParentAdd : Option (List Char) → Node → Outcome Empty (ℤ × Node) := configAdd parentsVar

abbrev Reported := Response (List Collection)

/-- What the server answers, to a query for the children or the parents of a node and to a
configuration, and the address and the id of what is sent to it. -/
structure Server where
  children : List Char → Reported
  parents : List Char → Reported
  configured : Node → Reported
  iq : List Char → Xml.Attributes Attr

/-- `_mio_send_blocking` with the pointer to the response, which leads nowhere if it is null or the
response has been freed. -/
def sendBlocking (response : Option Reported) (answer : Reported) : Outcome Empty Reported :=
  match response with
  | none => .abort "strcpy"
  | some _ => .ret answer

/-- The loop over what a query has brought. -/
def addEach (add : Option (List Char) → Node → Outcome Empty (ℤ × Node)) (iq : Node) :
    List Collection → Outcome Empty Node
  | [] => .ret iq
  | coll :: rest => do
      let (_, iq) ← add coll.node iq
      addEach add iq rest

def reported (response : Reported) : Outcome Empty (List Collection) :=
  if response.responseType = .packet then do
    let packet ← response.packet
    return packet.payload
  else .ret []

/-- What is reported, if anything is, and behind it one more. -/
def collect (add : Option (List Char) → Node → Outcome Empty (ℤ × Node)) (response : Reported) (id : List Char)
    (iq : Node) : Outcome Empty Node := do
  let colls ← reported response
  let iq ← addEach add iq colls
  let (_, iq) ← add (some id) iq
  return iq

/-- `mio_collection_child_add`: its result, what it has sent and the response. -/
def mioCollectionChildAdd (server : Server) (child parent : List Char) (response : Option Reported) :
    Outcome Empty (ℤ × List Node × Reported) := do
  let temp ← sendBlocking (some {}) (server.children parent)
  let first ← collect configChildAdd temp child (nodeConfigNew (server.iq parent) parent .unknown)
  let _ ← sendBlocking (some {}) (server.configured first)
  let temp ← sendBlocking (some {}) (server.parents child)
  let second ← collect configParentAdd temp parent (nodeConfigNew (server.iq child) child .unknown)
  let response ← sendBlocking response (server.configured second)
  return (mioOk, [first, second], response)

/-- The loop that leaves one out and counts it. -/
def dropEach (add : Option (List Char) → Node → Outcome Empty (ℤ × Node)) (own : List Char) (iq : Node)
    (removeFlag : ℤ) : List Collection → Outcome Empty (Node × ℤ)
  | [] => .ret (iq, removeFlag)
  | coll :: rest => do
      if ← DataItem.strcmp coll.node (some own) then dropEach add own iq (removeFlag + 1) rest
      else
        let (_, iq) ← add coll.node iq
        dropEach add own iq removeFlag rest

/-- The packet is the one that was looked at last. -/
def dropReported (add : Option (List Char) → Node → Outcome Empty (ℤ × Node)) (own : List Char)
    (response : Reported) (packet : Option (Packet (List Collection))) (iq : Node) (removeFlag : ℤ) :
    Outcome Empty (Option (Packet (List Collection)) × Node × ℤ) :=
  if response.responseType = .packet then do
    let packet ← response.packet
    let (iq, removeFlag) ← dropEach add own iq removeFlag packet.payload
    return (some packet, iq, removeFlag)
  else .ret (packet, iq, removeFlag)

/-- A blank value for the last one that leaves. -/
def addBlank (add : Option (List Char) → Node → Outcome Empty (ℤ × Node))
    (packet : Option (Packet (List Collection))) (iq : Node) : Outcome Empty Node :=
  match packet with
  | none => .abort "packet"
  | some packet =>
      if packet.numPayloads = 1 then do
        let (_, iq) ← add (some []) iq
        return iq
      else .ret iq

/-- `mio_collection_child_remove`: its result, what it has sent and the response. The first two queries
get null pointers for their responses. -/
def mioCollectionChildRemove (server : Server) (child parent : List Char) (response : Option Reported) :
    Outcome Empty (ℤ × List Node × Option Reported) := do
  let responseParent ← sendBlocking none (server.children parent)
  let _ ← sendBlocking none (server.parents child)
  let (packet, iqParent, removeFlag) ← dropReported configChildAdd child responseParent none
    (nodeConfigNew (server.iq parent) parent .unknown) 0
  let iqParent ← if removeFlag = 0 then .ret iqParent else addBlank configChildAdd packet iqParent
  let responseChild ← sendBlocking (some {}) (server.parents child)
  let (packet, iqChild, removeFlag) ← dropReported configParentAdd parent responseChild packet
    (nodeConfigNew (server.iq child) child .unknown) removeFlag
  let result := if removeFlag ≠ 2 then notAffiliated else mioOk
  if removeFlag < 2 then return (result, [], response)
  else
    let iqChild ← addBlank configParentAdd packet iqChild
    let answer ← sendBlocking response (server.configured iqParent)
    if answer.responseType = .ok then
      -- the response has just been freed
      let answer ← sendBlocking none (server.configured iqChild)
      return (result, [iqParent, iqChild], some answer)
    else return (result, [iqParent], some answer)

/-- The node that a configuration is for, and its fields. -/
def formOf : Node → Option (List Char × List Node)
  | .tag _ _ (.tag _ _ (.tag _ attributes (.tag _ _ fields :: _) :: _) :: _) =>
      (attributes.get .node).map (·, fields)
  | _ => none

/-- The values under a variable. -/
def valuesOf (var : List Char) (fields : List Node) : List (List Char) :=
  (fields.filter fun f => getAttribute .var f = some var).flatMap fun f =>
    (getChildren f).map fun v => (getText v).getD []

/-- The configuration of the node has these values, in some order. -/
def Configures (iq : Node) (node var : List Char) (values : List (List Char)) : Prop :=
  ∃ fields, formOf iq = some (node, fields) ∧ (valuesOf var fields).Perm values

/-- The children of the parent and the parents of the child, each with one more. -/
def Adds (server : Server) (child parent : List Char) (response : Reported) (C P : List (List Char)) : Prop :=
  ∃ result first second answer,
    mioCollectionChildAdd server child parent (some response) = .ret (result, [first, second], answer) ∧
    Configures first parent childrenVar (C.insert child) ∧ Configures second child parentsVar (P.insert parent)

def orBlank (values : List (List Char)) : List (List Char) := if values = [] then [[]] else values

/-- The children of the parent without the child and the parents of the child without the parent; nothing
is sent if one of the two does not know of the other. -/
def Removes (server : Server) (child parent : List Char) (response : Reported) (C P : List (List Char)) :
    Prop :=
  (child ∈ C ∧ parent ∈ P → ∃ result first second answer,
    mioCollectionChildRemove server child parent (some response) = .ret (result, [first, second], answer) ∧
    Configures first parent childrenVar (orBlank (C.erase child)) ∧
    Configures second child parentsVar (orBlank (P.erase parent))) ∧
  (¬ (child ∈ C ∧ parent ∈ P) → ∃ answer,
    mioCollectionChildRemove server child parent (some response) = .ret (notAffiliated, [], answer))

/-- The query has brought these ids. -/
def Reports (response : Reported) (ids : List (List Char)) : Prop :=
  response.responseType = .packet ∧ ∃ packet, response.response = .packet packet ∧
    packet.payload.map Collection.node = ids.map some ∧ packet.numPayloads = ids.length

/-- No id is compared with the text of an empty value, which is null: an empty id is not there, or stands
last and the new one among those before it. -/
def Fits (ids : List (List Char)) (id : List Char) : Prop :=
  [] ∉ ids ∨ ∃ before, ids = before ++ [[]] ∧ id ∈ before

/-- The duplicate test; an empty value has no text. -/
def known (text : List Char) : List (List Char) → Outcome Empty Bool
  | [] => .ret false
  | value :: values =>
      if value = [] then .abort "strcmp" else if value = text then .ret true else known text values

def insertText (values : List (List Char)) (text : List Char) : Outcome Empty (List (List Char)) := do
  if ← known text values then return values else return values ++ [text]

def insertAll (values : List (List Char)) : List (List Char) → Outcome Empty (List (List Char))
  | [] => .ret values
  | text :: texts => do
      let values ← insertText values text
      insertAll values texts

theorem insertAll_append (values texts more : List (List Char)) :
    insertAll values (texts ++ more) = insertAll values texts >>= fun values => insertAll values more := by
  induction texts generalizing values with
  | nil => rfl
  | cons text texts ih =>
      rw [List.cons_append, insertAll, insertAll, bind_assoc]
      congr 1
      funext values
      exact ih values

section Known

variable {text : List Char} {values : List (List Char)}

theorem known_filled (filled : [] ∉ values) : known text values = .ret (text ∈ values) := by
  induction values with
  | nil => rfl
  | cons value values ih =>
      obtain ⟨first, others⟩ := not_or.mp (mt List.mem_cons.mpr filled)
      rw [known, if_neg (Ne.symm first)]
      by_cases same : value = text
      · rw [if_pos same, same, decide_eq_true List.mem_cons_self]
      · rw [if_neg same, ih others]
        simp [Ne.symm same]

theorem known_blank (filled : [] ∉ values) (rest : List (List Char)) :
    known text (values ++ [] :: rest) = if text ∈ values then .ret true else .abort "strcmp" := by
  induction values with
  | nil => rfl
  | cons value values ih =>
      obtain ⟨first, others⟩ := not_or.mp (mt List.mem_cons.mpr filled)
      rw [List.cons_append, known, if_neg (Ne.symm first)]
      by_cases same : value = text
      · rw [if_pos same, same, if_pos List.mem_cons_self]
      · rw [if_neg same, ih others]
        simp [Ne.symm same]

theorem insertText_new (filled : [] ∉ values) (new : text ∉ values) :
    insertText values text = .ret (values ++ [text]) := by
  rw [insertText, known_filled filled, decide_eq_false new]
  rfl

theorem insertText_old (filled : [] ∉ values) (old : text ∈ values) : insertText values text = .ret values := by
  rw [insertText, known_filled filled, decide_eq_true old]
  rfl

end Known

theorem insertAll_distinct {values texts : List (List Char)} (distinct : (values ++ texts).Nodup)
    (filled : [] ∉ values ++ texts) : insertAll values texts = .ret (values ++ texts) := by
  induction texts generalizing values with
  | nil => rw [insertAll, List.append_nil]
  | cons text texts ih =>
      have old : [] ∉ values := fun mem => filled (List.mem_append_left _ mem)
      have new : text ∉ values := fun mem =>
        (List.nodup_append.mp distinct).2.2 text mem text List.mem_cons_self rfl
      rw [List.append_cons] at distinct filled ⊢
      rw [insertAll, insertText_new old new, Outcome.ret_bind]
      exact ih distinct filled

theorem perm_insert (values : List (List Char)) (text : List Char) :
    (if text ∈ values then values else values ++ [text]).Perm (values.insert text) := by
  by_cases old : text ∈ values
  · rw [if_pos old, List.insert_of_mem old]
  · rw [if_neg old, List.insert_of_not_mem old]
    exact List.perm_append_comm

theorem fits_blank {before after : List (List Char)} (distinct : (before ++ [] :: after).Nodup)
    (id : List Char) : Fits (before ++ [] :: after) id ↔ after = [] ∧ id ∈ before := by
  have filled : ∀ {l rest : List (List Char)}, (l ++ [] :: rest).Nodup → [] ∉ l := fun distinct mem =>
    (List.nodup_append.mp distinct).2.2 [] mem [] List.mem_cons_self rfl
  constructor
  · rintro (none | ⟨others, eq, mem⟩)
    · exact absurd (List.mem_append_right before List.mem_cons_self) none
    · have out : [] ∉ others := filled (eq ▸ distinct)
      have place := congrArg (List.idxOf []) eq
      rw [List.idxOf_append_of_notMem (filled distinct), List.idxOf_append_of_notMem out] at place
      have length : ([] :: after).length = ([[]] : List (List Char)).length := by
        have whole := congrArg List.length eq
        simp only [List.idxOf_cons_self, List.length_append] at place whole
        omega
      obtain ⟨same, rest⟩ := List.append_inj' eq length
      exact ⟨(List.cons.inj rest).2, same ▸ mem⟩
  · rintro ⟨rfl, mem⟩
    exact .inr ⟨before, rfl, mem⟩

/-- The values are all there in the end, or an empty one has been in the way. -/
theorem insertAll_snoc {ids : List (List Char)} (distinct : ids.Nodup) (id : List Char) :
    Fits ids id ∧ (∃ values, insertAll [] (ids ++ [id]) = .ret values ∧ values.Perm (ids.insert id)) ∨
      ¬ Fits ids id ∧ insertAll [] (ids ++ [id]) = .abort "strcmp" := by
  by_cases blank : [] ∈ ids
  swap
  · refine .inl ⟨.inl blank, _, ?_, perm_insert ids id⟩
    rw [insertAll_append, @insertAll_distinct [] _ distinct blank, Outcome.ret_bind, List.nil_append, insertAll]
    by_cases old : id ∈ ids
    · rw [insertText_old blank old, if_pos old]
      rfl
    · rw [insertText_new blank old, if_neg old]
      rfl
  obtain ⟨before, after, rfl⟩ := List.append_of_mem blank
  obtain ⟨first, second, apart⟩ := List.nodup_append.mp distinct
  have filled : [] ∉ before := fun mem => apart [] mem [] List.mem_cons_self rfl
  have start : insertAll [] (before ++ [[]]) = .ret (before ++ [[]]) := by
    rw [insertAll_append, @insertAll_distinct [] _ first filled, Outcome.ret_bind, List.nil_append, insertAll,
      insertText_new filled filled]
    rfl
  have split : before ++ [] :: after ++ [id] = before ++ [[]] ++ (after ++ [id]) := by simp
  rw [fits_blank distinct id, split, insertAll_append, start, Outcome.ret_bind]
  cases after with
  | nil =>
      rw [List.nil_append, insertAll, insertText, known_blank filled]
      by_cases old : id ∈ before
      · rw [if_pos old]
        refine .inl ⟨⟨rfl, old⟩, _, rfl, ?_⟩
        rw [List.insert_of_mem (List.mem_append_left _ old)]
      · rw [if_neg old]
        exact .inr ⟨fun both => old both.2, rfl⟩
  | cons text texts =>
      have new : text ∉ before := fun mem =>
        apart text mem text (List.mem_cons_of_mem _ List.mem_cons_self) rfl
      rw [List.cons_append, insertAll, insertText, known_blank filled, if_neg new]
      exact .inr ⟨fun both => (nomatch both.1), rfl⟩

def fieldOf (var : List Char) (values : List (List Char)) : Node :=
  .tag .field (Xml.Attributes.empty.set .var var) (values.map configValue)

/-- Without values there is no field. -/
def fieldsOf (var : List Char) (values : List (List Char)) : List Node :=
  formType :: if values = [] then [] else [fieldOf var values]

theorem search_hasText (text : List Char) (values : List (List Char)) :
    (do let place ← search (hasText text) (values.map configValue); return place.isSome) = known text values := by
  induction values with
  | nil => rfl
  | cons value values ih =>
      rw [List.map_cons, search, known, ← ih]
      have own : getText (configValue value) = if value = [] then none else some value := by
        simp [configValue, getText]
      rw [hasText, own]
      by_cases empty : value = []
      · rw [if_pos empty, if_pos empty]
        rfl
      rw [if_neg empty, if_neg empty]
      by_cases same : value = text
      · rw [if_pos same]
        simp [DataItem.strcmp, strcmp_some, same]
      · rw [if_neg same]
        simp only [DataItem.strcmp, strcmp_some, same, decide_false, Outcome.ret_bind, Bool.false_eq_true, if_false,
          bind_assoc]
        congr 1
        funext place
        cases place <;> rfl

section Fields

variable {var : List Char} (other : var ≠ "FORM_TYPE".toList)
include other

theorem search_formType (rest : List Node) :
    search (hasVar var) (formType :: rest) =
      (search (hasVar var) rest).bind fun place =>
        .ret (place.map fun (before, found, after) => (formType :: before, found, after)) := by
  have own : (getAttribute .var formType = some var) = False := by
    have text : getAttribute .var formType = some "FORM_TYPE".toList := by decide
    rw [text, eq_iff_iff, iff_false, Option.some.injEq]
    exact Ne.symm other
  rw [search, hasVar, Outcome.ret_bind]
  simp only [own, decide_false, Bool.false_eq_true, if_false]
  congr 1
  funext place
  cases place <;> rfl

theorem addValue_fields (values : List (List Char)) (text : List Char) :
    ∃ result : List (List Char) → ℤ, addValue var text (fieldsOf var values) =
      insertText values text >>= fun values => .ret (result values, fieldsOf var values) := by
  unfold addValue fieldsOf
  rw [search_formType other]
  by_cases empty : values = []
  · subst empty
    exact ⟨fun _ => mioOk, rfl⟩
  have own : search (hasVar var) [fieldOf var values] = .ret (some ([], fieldOf var values, [])) := by
    rw [search, hasVar, fieldOf, getAttribute, Xml.Attributes.get_set_self]
    simp
  have children : getChildren (fieldOf var values) = values.map configValue := rfl
  rw [if_neg empty, own]
  refine ⟨fun values' => if values' = values then duplicateEntry else mioOk, ?_⟩
  dsimp only [Outcome.bind, Option.map_some, Outcome.ret_bind]
  rw [children, insertText, ← search_hasText]
  cases search (hasText text) (values.map configValue) with
  | ret place =>
      cases place with
      | some place => simp [empty]
      | none => simp [fieldOf, setChildren]
  | throw e => rfl
  | abort what => rfl
  | timeout => rfl

theorem configAdd_configuration (iq : Xml.Attributes Attr) (ns node : List Char) (values : List (List Char))
    (text : List Char) :
    ∃ result : List (List Char) → ℤ, configAdd var (some text) (configuration iq ns node (fieldsOf var values)) =
      insertText values text >>= fun values =>
        .ret (result values, configuration iq ownerNs node (fieldsOf var values)) := by
  obtain ⟨result, eq⟩ := addValue_fields other values text
  refine ⟨result, ?_⟩
  have ns : (Xml.Attributes.empty.set Attr.xmlns ns).set .xmlns ownerNs = Xml.Attributes.empty.set .xmlns ownerNs := by
    ext
    simp [Xml.Attributes.set, Xml.Attributes.empty]
  simp only [configAdd, onFirst, configuration, getChildren, setNs, setChildren, ns, eq, bind_assoc]
  rfl

theorem collect_loop {colls : List Collection} {ids : List (List Char)}
    (nodes : colls.map Collection.node = ids.map some) (id : List Char) (iq : Xml.Attributes Attr)
    (ns node : List Char) (values : List (List Char)) :
    (do
      let iq ← addEach (configAdd var) (configuration iq ns node (fieldsOf var values)) colls
      let (_, iq) ← configAdd var (some id) iq
      return iq) =
      insertAll values (ids ++ [id]) >>= fun values => .ret (configuration iq ownerNs node (fieldsOf var values)) := by
  induction colls generalizing ids ns values with
  | nil =>
      cases List.map_eq_nil_iff.mp nodes.symm
      obtain ⟨result, eq⟩ := configAdd_configuration other iq ns node values id
      rw [addEach, Outcome.ret_bind, eq]
      simp [insertAll]
  | cons coll colls ih =>
      obtain ⟨text, texts, rfl, first, others⟩ := List.map_eq_cons_iff.mp nodes.symm
      obtain ⟨result, eq⟩ := configAdd_configuration other iq ns node values text
      rw [addEach, ← first, eq, List.cons_append, insertAll, bind_assoc, bind_assoc, bind_assoc]
      congr 1
      funext values
      exact ih others.symm ownerNs values

theorem valuesOf_fields (values : List (List Char)) : valuesOf var (fieldsOf var values) = values := by
  have outside : ¬ getAttribute .var formType = some var := by
    have text : getAttribute .var formType = some "FORM_TYPE".toList := by decide
    rw [text, Option.some.injEq]
    exact Ne.symm other
  have inside : getAttribute .var (fieldOf var values) = some var := Xml.Attributes.get_set_self
  have texts : ∀ value, (getText (configValue value)).getD [] = value := by
    intro value
    by_cases empty : value = []
    · subst empty
      rfl
    · simp [configValue, getText, empty]
  unfold valuesOf fieldsOf
  rw [List.filter_cons_of_neg (by simpa using outside)]
  by_cases empty : values = []
  · rw [if_pos empty, empty]
    rfl
  · rw [if_neg empty, List.filter_cons_of_pos (by simpa using inside)]
    simp only [fieldOf, getChildren, List.flatMap_cons, List.filter_nil, List.flatMap_nil, List.append_nil, List.map_map]
    exact List.map_id'' texts values

/-- What is collected is sent, or an empty value ends the run. -/
theorem collect_ret {response : Reported} {ids : List (List Char)} (reports : Reports response ids)
    (distinct : ids.Nodup) (id : List Char) (iq : Xml.Attributes Attr) (node : List Char) :
    Fits ids id ∧ (∃ stanza, collect (configAdd var) response id (nodeConfigNew iq node .unknown) = .ret stanza ∧
      Configures stanza node var (ids.insert id)) ∨
      ¬ Fits ids id ∧
        collect (configAdd var) response id (nodeConfigNew iq node .unknown) = .abort "strcmp" := by
  obtain ⟨type, packet, body, nodes, -⟩ := reports
  have run : collect (configAdd var) response id (nodeConfigNew iq node .unknown) =
      insertAll [] (ids ++ [id]) >>= fun values =>
        .ret (configuration iq ownerNs node (fieldsOf var values)) := by
    have brought : reported response = .ret packet.payload := by
      rw [reported, if_pos type, Response.packet, body]
      rfl
    rw [collect, brought, Outcome.ret_bind]
    exact collect_loop other nodes id iq pubsubNs node []
  rw [run]
  refine (insertAll_snoc distinct id).imp ?_ ?_
  · rintro ⟨fits, values, all, perm⟩
    rw [all]
    refine ⟨fits, _, rfl, _, rfl, ?_⟩
    rwa [valuesOf_fields other]
  · rintro ⟨misfit, stuck⟩
    rw [stuck]
    exact ⟨misfit, rfl⟩

end Fields

/-- The parent and the child are told of each other unless an empty id is in the way; to take them apart
ends in a null pointer. -/
theorem collection_updates (server : Server) (child parent : List Char) (response : Reported)
    {C P : List (List Char)} (children : Reports (server.children parent) C) (distinctC : C.Nodup)
    (parents : Reports (server.parents child) P) (distinctP : P.Nodup) :
    (Adds server child parent response C P ↔ Fits C child ∧ Fits P parent) ∧
      ¬ Removes server child parent response C P := by
  constructor
  · have first := @collect_ret childrenVar (by decide) _ _ children distinctC child (server.iq parent) parent
    have second := @collect_ret parentsVar (by decide) _ _ parents distinctP parent (server.iq child) child
    rcases first with ⟨fitsC, one, ranC, configuresC⟩ | ⟨misfit, stuck⟩
    swap
    · refine iff_of_false ?_ fun both => misfit both.1
      rintro ⟨result, one, two, answer, run, -⟩
      rw [mioCollectionChildAdd, sendBlocking, Outcome.ret_bind, configChildAdd, stuck] at run
      cases run
    rcases second with ⟨fitsP, two, ranP, configuresP⟩ | ⟨misfit, stuck⟩
    · refine iff_of_true ⟨mioOk, one, two, server.configured two, ?_, configuresC, configuresP⟩ ⟨fitsC, fitsP⟩
      rw [mioCollectionChildAdd, sendBlocking, Outcome.ret_bind, configChildAdd, ranC, configParentAdd]
      simp [sendBlocking, ranP]
    · refine iff_of_false ?_ fun both => misfit both.2
      rintro ⟨result, one', two, answer, run, -⟩
      rw [mioCollectionChildAdd, sendBlocking, Outcome.ret_bind, configChildAdd, ranC, configParentAdd] at run
      simp [sendBlocking, stuck] at run
  · rintro ⟨listed, other⟩
    by_cases both : child ∈ C ∧ parent ∈ P
    · obtain ⟨result, first, second, answer, run, -⟩ := listed both
      cases run
    · obtain ⟨answer, run⟩ := other both
      cases run

def quiet : Server where
  children := fun _ => ⟨.packet, .packet ⟨.collections, 0, []⟩⟩
  parents := fun _ => ⟨.packet, .packet ⟨.collections, 0, []⟩⟩
  configured := fun _ => ⟨.ok, .null⟩
  iq := fun _ => .empty

theorem reports_quiet : Reports ⟨.packet, .packet ⟨.collections, 0, []⟩⟩ [] := ⟨rfl, _, rfl, rfl, rfl⟩

theorem collection_updates_first : Adds quiet "lamp".toList "room".toList {} [] [] :=
  (collection_updates quiet "lamp".toList "room".toList {} reports_quiet List.nodup_nil reports_quiet
    List.nodup_nil).1.mpr ⟨.inl (by decide), .inl (by decide)⟩

theorem remove_crashes :
    ¬ ∀ (server : Server) (child parent : List Char) (response : Reported) (C P : List (List Char)),
      Reports (server.children parent) C → C.Nodup → Reports (server.parents child) P → P.Nodup →
        Adds server child parent response C P ∧ Removes server child parent response C P := by
  intro all
  obtain ⟨-, -, other⟩ := all quiet "lamp".toList "room".toList {} [] [] reports_quiet List.nodup_nil
    reports_quiet List.nodup_nil
  obtain ⟨answer, run⟩ := other (by rintro ⟨⟨⟩, -⟩)
  cases run

end Mio.LibMio.Collections
