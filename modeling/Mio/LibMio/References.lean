import Mathlib.Data.List.Nodup
import Mathlib.Logic.Function.Basic
import Mathlib.Tactic.Common
import Mio.Lib.Transition
import Mio.Lib.Undefined

/-! References between nodes: each call of `mio.c` reads and publishes the lists of two nodes. -/
namespace Mio.LibMio.References

abbrev Text := List Char

inductive ReferenceType where
  | unknown
  | child
  | parent
deriving DecidableEq

inductive MetaType where
  | unknown
  | device
  | location
deriving DecidableEq

/-- `mio_reference_t`, as `mio_reference_new` makes it. A list of them is null if it is empty. -/
structure Reference where
  type : ReferenceType := .unknown
  node : Option Text := none
  name : Option Text := none
  metaType : MetaType := .unknown
deriving DecidableEq

inductive Key where
  | type
  | metaType
  | node
  | name
deriving DecidableEq

/-- The attributes of the `reference` elements of an item. -/
abbrev Item := List (List (Key × Text))

/-- `mio_references_to_item`; with an unknown type it gives null. -/
def referencesToItem : List Reference → Option Item
  | [] => some []
  | curr :: rest => do
      let type ←
        match curr.type with
        | .child => some "child".toList
        | .parent => some "parent".toList
        | .unknown => none
      let metaType :=
        match curr.metaType with
        | .device => "device".toList
        | .location => "location".toList
        | .unknown => "unknown".toList
      let attributes := (Key.type, type) :: (Key.metaType, metaType) ::
        ((curr.node.map (Key.node, ·)).toList ++ (curr.name.map (Key.name, ·)).toList)
      let rest ← referencesToItem rest
      return attributes :: rest

def readAttribute (ref : Reference) : Key × Text → Reference
  | (.type, text) =>
      if text = "child".toList then { ref with type := .child }
      else if text = "parent".toList then { ref with type := .parent }
      else ref
  | (.metaType, text) =>
      if text = "device".toList then { ref with metaType := .device }
      else if text = "location".toList then { ref with metaType := .location }
      else ref
  | (.node, text) => { ref with node := some text }
  | (.name, text) => { ref with name := some text }

/-- The payload that `mio_XMLstart_references_query` builds, one reference for each element. -/
def readItem (item : Item) : List Reference :=
  item.map fun attributes => attributes.foldl readAttribute {}

/-- The last published item of each node; an item without references answers like none. -/
abbrev Server := Text → Item

def empty : Server := fun _ => []

def query (server : Server) (node : Text) : List Reference := readItem (server node)

/-- `mio_item_publish`, which dereferences the item. -/
def publish (server : Server) (node : Text) : Option Item → Outcome Undefined Server
  | none => .throw .null
  | some item => .ret (Function.update server node item)

def strcmp : Option Text → Option Text → Outcome Undefined Bool := Mio.strcmp (.throw .null)

/-- What `mio_meta_query` answers: the type and the name. -/
abbrev Metas := Text → Option (MetaType × Option Text)

/-- `mio_reference_add` on a list that is not null: a blank first reference is filled in. -/
def referenceAdd (metas : Metas) (refs : List Reference) (type : ReferenceType) (metaType : MetaType)
    (node : Text) : Outcome Undefined (List Reference) :=
  let fill (curr : Reference) : Reference :=
    { curr with
      type
      metaType
      node := some node
      name := ((metas node).bind Prod.snd).or curr.name }
  match refs with
  | [] => .throw .null
  | first :: rest =>
      if first.type = .unknown then .ret (fill first :: rest)
      else .ret (first :: rest ++ [fill {}])

/-- `mio_reference_remove`; when nothing is found, it gives null. -/
def referenceRemove (type : ReferenceType) (node : Text) :
    List Reference → List Reference → Outcome Undefined (List Reference)
  | _, [] => .ret []
  | seen, curr :: rest =>
      if curr.type = type then do
        if ← strcmp curr.node (some node) then return seen ++ rest
        else referenceRemove type node (seen ++ [curr]) rest
      else referenceRemove type node (seen ++ [curr]) rest

inductive Error where
  | ok
  | duplicateEntry
  | referenceLoop
deriving DecidableEq

/-- The loop of `mio_reference_child_add` over a list: an entry for the node is a duplicate or a loop. -/
def check (duplicate loop : ReferenceType) (node : Text) : List Reference → Outcome Undefined Error
  | [] => .ret .ok
  | curr :: rest => do
      if ← strcmp curr.node (some node) then
        if curr.type = duplicate then return .duplicateEntry
        else if curr.type = loop then return .referenceLoop
        else check duplicate loop node rest
      else check duplicate loop node rest

/-- The list that was read, or a blank reference. -/
def orNew (refs : List Reference) : List Reference := if refs = [] then [{}] else refs

def metaTypeOf (metas : Metas) (node : Text) : MetaType := ((metas node).map Prod.fst).getD .unknown

/-- `mio_reference_child_add` with `MIO_ADD_REFERENCE_AT_CHILD`. -/
def childAdd (metas : Metas) (parent child : Text) (server : Server) :
    Outcome Undefined (Server × Error) := do
  let parentRefs := query server parent
  let err ← check .child .parent child parentRefs
  if err ≠ .ok then return (server, err)
  else do
    let childRefs := query server child
    let err ← check .parent .child parent childRefs
    if err ≠ .ok then return (server, err)
    else do
      let childRefs ← referenceAdd metas (orNew childRefs) .parent (metaTypeOf metas parent) parent
      let server ← publish server child (referencesToItem childRefs)
      -- the list of the parent is the one from before
      let parentRefs ← referenceAdd metas (orNew parentRefs) .child (metaTypeOf metas child) child
      let server ← publish server parent (referencesToItem parentRefs)
      return (server, .ok)

/-- One half of `mio_reference_child_remove`. -/
def removeAt (node : Text) (type : ReferenceType) (other : Text) (server : Server) :
    Outcome Undefined Server :=
  match query server node with
  | [] => .ret server
  | refs => do
      let refs ← referenceRemove type other [] refs
      publish server node (referencesToItem refs)

def childRemove (parent child : Text) (server : Server) : Outcome Undefined Server := do
  let server ← removeAt child .parent parent server
  removeAt parent .child child server

inductive Call where
  | add (metas : Metas) (parent child : Text)
  | remove (parent child : Text)

def Call.parent : Call → Text
  | .add _ parent _ => parent
  | .remove parent _ => parent

def Call.child : Call → Text
  | .add _ _ child => child
  | .remove _ child => child

def Call.run : Call → Server → Outcome Undefined (Server × Error)
  | .add metas parent child, server => childAdd metas parent child server
  | .remove parent child, server => do
      let server ← childRemove parent child server
      return (server, .ok)

def Lists (server : Server) (node : Text) (type : ReferenceType) (other : Text) : Prop :=
  ∃ r ∈ query server node, r.type = type ∧ r.node = some other

/-- A node lists another as child exactly if that lists it as parent, and no list has two entries for
one node. -/
structure Reciprocal (server : Server) : Prop where
  both : ∀ p c, Lists server p .child c ↔ Lists server c .parent p
  single : ∀ n, ((query server n).map Reference.node).Nodup

/-- The entries of a node that are not for the pair. -/
def others (call : Call) (server : Server) (n : Text) : List Reference :=
  (query server n).filter fun r => ¬ (n = call.parent ∧ r.node = some call.child ∨
    n = call.child ∧ r.node = some call.parent)

/-- The call finds nothing to remove. -/
def Call.Absent : Call → Server → Prop
  | .add .., _ => False
  | .remove parent child, server =>
      ¬ Lists server parent .child child ∧ ¬ Lists server child .parent parent

/-- The lists stay reciprocal, only the entries for the pair change, and none if nothing is found or the
call is refused. -/
def Behaves (server : Server) (call : Call) : Prop :=
  ∃ server' err, call.run server = .ret (server', err) ∧ Reciprocal server' ∧
    (∀ n, others call server' n = others call server n) ∧
    (call.Absent server ∨ err ≠ .ok → ∀ n, query server' n = query server n)

/-- A node is not added to itself, and what is removed is found in each of the lists that is not
empty. -/
def Allowed (server : Server) : Call → Prop
  | .add _ parent child => parent ≠ child
  | .remove parent child => (query server child ≠ [] → Lists server child .parent parent) ∧
      (query server parent ≠ [] → Lists server parent .child child)

def next (server : Server) (call : Call) : Option Server :=
  match call.run server with
  | .ret (server, _) => some server
  | _ => none

/-- Servers that start without lists, and change by calls. -/
def system : System Server Call := .ofNext empty next

section Items
variable {refs : List Reference} {server : Server} {node : Text}

theorem readItem_referencesToItem (typed : ∀ r ∈ refs, r.type ≠ .unknown) :
    ∃ item, referencesToItem refs = some item ∧ readItem item = refs := by
  induction refs with
  | nil => exact ⟨[], rfl, rfl⟩
  | cons r refs ih =>
      obtain ⟨known, others⟩ := List.forall_mem_cons.mp typed
      obtain ⟨item, written, read⟩ := ih others
      rw [referencesToItem, written]
      obtain ⟨type, node, name, metaType⟩ := r
      have one : ∀ first rest, (readItem (first :: rest)) = first.foldl readAttribute {} :: readItem rest :=
        fun _ _ => rfl
      cases type with
      | unknown => exact (known rfl).elim
      | child => exact ⟨_, rfl, by rw [one, read]; cases node <;> cases name <;> cases metaType <;> rfl⟩
      | parent => exact ⟨_, rfl, by rw [one, read]; cases node <;> cases name <;> cases metaType <;> rfl⟩

theorem publish_done (typed : ∀ r ∈ refs, r.type ≠ .unknown) :
    ∃ server', publish server node (referencesToItem refs) = .ret server' ∧
      query server' node = refs ∧ ∀ n, n ≠ node → query server' n = query server n := by
  obtain ⟨item, written, read⟩ := readItem_referencesToItem typed
  refine ⟨_, by rw [written]; rfl, ?_, fun n ne => ?_⟩
  · rw [query, Function.update_self, read]
  · rw [query, Function.update_of_ne ne]
    rfl

end Items

/-- The list holds these entries, each once. -/
structure Holds (refs : List Reference) (side : ReferenceType → Text → Prop) : Prop where
  known : ∀ m, ¬ side .unknown m
  single : (refs.map Reference.node).Nodup
  sound : ∀ r ∈ refs, ∃ m, r.node = some m ∧ side r.type m
  complete : ∀ t m, side t m → ∃ r ∈ refs, r.type = t ∧ r.node = some m

namespace Holds
variable {refs : List Reference} {side : ReferenceType → Text → Prop} {metas : Metas} {t u : ReferenceType}
  {mt : MetaType} {m : Text}

theorem typed (h : Holds refs side) : ∀ r ∈ refs, r.type ≠ .unknown := by
  intro r mem unknown
  obtain ⟨m, -, there⟩ := h.sound r mem
  rw [unknown] at there
  exact h.known m there

theorem side_iff (h : Holds refs side) : side t m ↔ ∃ r ∈ refs, r.type = t ∧ r.node = some m := by
  constructor
  · exact h.complete t m
  · rintro ⟨r, mem, rfl, named⟩
    obtain ⟨m', named', there⟩ := h.sound r mem
    cases named.symm.trans named'
    exact there

theorem unique (h : Holds refs side) (first : side t m) (second : side u m) : t = u := by
  obtain ⟨r, rMem, rfl, rNode⟩ := h.complete t m first
  obtain ⟨q, qMem, rfl, qNode⟩ := h.complete u m second
  rw [List.inj_on_of_nodup_map h.single rMem qMem (rNode.trans qNode.symm)]

theorem check_new (h : Holds refs side) (new : ∀ t, ¬ side t m) : check t u m refs = .ret .ok := by
  have apart : ∀ r ∈ refs, ∃ n, r.node = some n ∧ n ≠ m := fun r mem => by
    obtain ⟨n, named, there⟩ := h.sound r mem
    exact ⟨n, named, fun eq => new _ (eq ▸ there)⟩
  clear h
  induction refs with
  | nil => rfl
  | cons r refs ih =>
      obtain ⟨⟨n, named, ne⟩, others⟩ := List.forall_mem_cons.mp apart
      simp only [check, named, strcmp, strcmp_some, Outcome.ret_bind, ne, decide_false, Bool.false_eq_true, if_false]
      exact ih others

theorem typed_cases (h : Holds refs side) {r : Reference} (mem : r ∈ refs) :
    r.type = .child ∨ r.type = .parent := by
  have known := h.typed r mem
  cases type : r.type with
  | unknown => exact (known type).elim
  | child => exact .inl rfl
  | parent => exact .inr rfl

theorem check_old {v : ReferenceType} (h : Holds refs side) (old : side t m)
    (both : ∀ r ∈ refs, r.type = u ∨ r.type = v) : ∃ err, check u v m refs = .ret err ∧ err ≠ .ok := by
  have named : ∀ r ∈ refs, ∃ n, r.node = some n := fun r mem => by
    obtain ⟨n, named, -⟩ := h.sound r mem
    exact ⟨n, named⟩
  obtain ⟨r, mem, -, here⟩ := h.complete t m old
  clear h old
  induction refs with
  | nil => cases mem
  | cons q refs ih =>
      obtain ⟨⟨n, name⟩, othersNamed⟩ := List.forall_mem_cons.mp named
      obtain ⟨type, othersBoth⟩ := List.forall_mem_cons.mp both
      by_cases same : n = m
      · subst same
        simp only [check, name, strcmp, strcmp_some, Outcome.ret_bind, decide_true, if_true]
        by_cases duplicate : q.type = u
        · exact ⟨.duplicateEntry, by rw [if_pos duplicate]; rfl, by decide⟩
        · have loop := type.resolve_left duplicate
          exact ⟨.referenceLoop, by rw [if_neg duplicate, if_pos loop]; rfl, by decide⟩
      · simp only [check, name, strcmp, strcmp_some, Outcome.ret_bind, same, decide_false, Bool.false_eq_true, if_false]
        rcases List.mem_cons.mp mem with rfl | mem
        · exact (same (Option.some.inj (name.symm.trans here))).elim
        · exact ih othersBoth othersNamed mem

/-- An entry is added at the end. -/
theorem add_done (h : Holds refs side) (known : t ≠ .unknown) (new : ∀ t, ¬ side t m) :
    ∃ r : Reference, r.type = t ∧ r.node = some m ∧
      referenceAdd metas (orNew refs) t mt m = .ret (refs ++ [r]) ∧
      Holds (refs ++ [r]) fun t' m' => side t' m' ∨ t' = t ∧ m' = m := by
  obtain ⟨r, type, name, run⟩ : ∃ r : Reference, r.type = t ∧ r.node = some m ∧
      referenceAdd metas (orNew refs) t mt m = .ret (refs ++ [r]) := by
    cases refs with
    | nil => exact ⟨_, rfl, rfl, rfl⟩
    | cons first rest =>
        have filled : first.type ≠ .unknown := h.typed first List.mem_cons_self
        exact ⟨_, rfl, rfl, (if_neg filled).trans rfl⟩
  refine ⟨r, type, name, run, fun m' => ?_, ?_, fun q mem => ?_, fun t' m' there => ?_⟩
  · rintro (old | ⟨rfl, -⟩)
    · exact h.known m' old
    · exact known rfl
  · rw [List.map_append, List.nodup_append]
    refine ⟨h.single, List.nodup_singleton _, fun n old n' here => ?_⟩
    rw [List.map_singleton, List.mem_singleton] at here
    obtain ⟨q, mem, rfl⟩ := List.mem_map.mp old
    rintro rfl
    obtain ⟨m', named, there⟩ := h.sound q mem
    rw [here, name] at named
    cases named
    exact new _ there
  · rcases List.mem_append.mp mem with old | here
    · obtain ⟨m', named, there⟩ := h.sound q old
      exact ⟨m', named, .inl there⟩
    · rw [List.mem_singleton.mp here]
      exact ⟨m, name, .inr ⟨type, rfl⟩⟩
  · rcases there with old | ⟨rfl, rfl⟩
    · obtain ⟨q, mem, same⟩ := h.complete t' m' old
      exact ⟨q, List.mem_append_left _ mem, same⟩
    · exact ⟨r, List.mem_append_right _ List.mem_cons_self, type, name⟩

theorem referenceRemove_missing {seen : List Reference} (named : ∀ r ∈ refs, ∃ n, r.node = some n)
    (missing : ∀ r ∈ refs, r.type = t → r.node ≠ some m) : referenceRemove t m seen refs = .ret [] := by
  induction refs generalizing seen with
  | nil => rfl
  | cons r refs ih =>
      obtain ⟨⟨n, name⟩, othersNamed⟩ := List.forall_mem_cons.mp named
      obtain ⟨other, othersMissing⟩ := List.forall_mem_cons.mp missing
      by_cases same : r.type = t
      · have ne : n ≠ m := fun eq => other same (by rw [name, eq])
        simp only [referenceRemove, same, if_true, name, strcmp, strcmp_some, Outcome.ret_bind, ne, decide_false,
          Bool.false_eq_true, if_false]
        exact ih othersNamed othersMissing
      · simp only [referenceRemove, same, if_false]
        exact ih othersNamed othersMissing

theorem referenceRemove_found {seen : List Reference} (named : ∀ r ∈ refs, ∃ n, r.node = some n)
    (single : (refs.map Reference.node).Nodup) {q : Reference} (mem : q ∈ refs) (type : q.type = t)
    (here : q.node = some m) :
    referenceRemove t m seen refs = .ret (seen ++ refs.filter fun r => r.node ≠ some m) := by
  induction refs generalizing seen with
  | nil => cases mem
  | cons r refs ih =>
      obtain ⟨⟨n, name⟩, othersNamed⟩ := List.forall_mem_cons.mp named
      rw [List.map_cons, List.nodup_cons] at single
      by_cases same : r.node = some m
      · have last : r = q := by
          rcases List.mem_cons.mp mem with eq | later
          · exact eq.symm
          · refine (single.1 ?_).elim
            rw [same, ← here]
            exact List.mem_map_of_mem later
        have rest : refs.filter (fun r => r.node ≠ some m) = refs := by
          refine List.filter_eq_self.mpr fun x inside => decide_eq_true fun eq => single.1 ?_
          rw [same, ← eq]
          exact List.mem_map_of_mem inside
        rw [List.filter_cons_of_neg (by simpa using same), rest]
        rw [← last] at type
        simp [referenceRemove, type, same, strcmp]
      · have later : q ∈ refs := by
          rcases List.mem_cons.mp mem with rfl | later
          · exact (same here).elim
          · exact later
        have ne : n ≠ m := fun eq => same (by rw [name, eq])
        rw [List.filter_cons_of_pos (by simpa using same), List.append_cons]
        have go := @ih (seen ++ [r]) othersNamed single.2 later
        by_cases typed : r.type = t
        · simp only [referenceRemove, typed, if_true, name, strcmp, strcmp_some, Outcome.ret_bind, ne, decide_false,
            Bool.false_eq_true, if_false]
          exact go
        · simp only [referenceRemove, typed, if_false]
          exact go

theorem remove_done (h : Holds refs side) (there : side t m) :
    referenceRemove t m [] refs = .ret (refs.filter fun r => r.node ≠ some m) ∧
      Holds (refs.filter fun r => r.node ≠ some m) fun t' m' => side t' m' ∧ ¬ (t' = t ∧ m' = m) := by
  obtain ⟨q, mem, type, here⟩ := h.complete t m there
  have named : ∀ r ∈ refs, ∃ n, r.node = some n := fun r mem => by
    obtain ⟨n, named, -⟩ := h.sound r mem
    exact ⟨n, named⟩
  refine ⟨referenceRemove_found named h.single mem type here, fun m' old => h.known m' old.1, ?_,
    fun r inside => ?_, fun t' m' left => ?_⟩
  · exact h.single.sublist (List.filter_sublist.map _)
  · obtain ⟨inside, other⟩ := List.mem_filter.mp inside
    obtain ⟨m', named, old⟩ := h.sound r inside
    refine ⟨m', named, old, fun same => of_decide_eq_true other ?_⟩
    rw [named, same.2]
  · obtain ⟨r, inside, typed, named⟩ := h.complete t' m' left.1
    refine ⟨r, List.mem_filter.mpr ⟨inside, decide_eq_true fun same => left.2 ?_⟩, typed, named⟩
    cases named.symm.trans same
    exact ⟨h.unique left.1 there, rfl⟩

theorem remove_missing (h : Holds refs side) (missing : ¬ side t m) :
    referenceRemove t m [] refs = .ret [] := by
  refine referenceRemove_missing (fun r mem => ?_) fun r mem type here => missing ?_
  · obtain ⟨n, named, -⟩ := h.sound r mem
    exact ⟨n, named⟩
  · exact h.side_iff.mpr ⟨r, mem, type, here⟩

end Holds

/-- The entries of a node when `R` relates parents to children. -/
def sides (R : Text → Text → Prop) (n : Text) : ReferenceType → Text → Prop
  | .child, m => R n m
  | .parent, m => R m n
  | .unknown, _ => False

/-- The lists represent a relation that relates no node to itself. -/
structure Represents (server : Server) (R : Text → Text → Prop) : Prop where
  lists : ∀ n, Holds (query server n) (sides R n)
  irrefl : ∀ n, ¬ R n n

def linked (R : Text → Text → Prop) (parent child : Text) : Text → Text → Prop :=
  fun p c => R p c ∨ p = parent ∧ c = child

def unlinked (R : Text → Text → Prop) (parent child : Text) : Text → Text → Prop :=
  fun p c => R p c ∧ ¬ (p = parent ∧ c = child)

namespace Represents
variable {server : Server} {R : Text → Text → Prop} {metas : Metas} {parent child n m : Text}
  {t : ReferenceType}

theorem lists_iff (h : Represents server R) : Lists server n t m ↔ sides R n t m := (h.lists n).side_iff.symm

theorem start : Represents empty fun _ _ => False where
  lists n := by
    refine ⟨fun m no => no, List.nodup_nil, by simp [query, empty, readItem], fun t m there => ?_⟩
    cases t <;> exact there.elim
  irrefl n no := no

theorem reciprocal (h : Represents server R) : Reciprocal server where
  both p c := by
    rw [h.lists_iff, h.lists_iff]
    exact Iff.rfl
  single n := (h.lists n).single

theorem sides_new (forth : ¬ R n m) (back : ¬ R m n) (t : ReferenceType) : ¬ sides R n t m := by
  cases t with
  | unknown => exact fun no => no
  | child => exact forth
  | parent => exact back

theorem sides_old (there : R n m ∨ R m n) : ∃ t, sides R n t m := by
  rcases there with forth | back
  · exact ⟨.child, forth⟩
  · exact ⟨.parent, back⟩

theorem childAdd_refused (h : Represents server R) (there : R parent child ∨ R child parent) :
    ∃ err, childAdd metas parent child server = .ret (server, err) ∧ err ≠ .ok := by
  obtain ⟨t, old⟩ := sides_old there
  obtain ⟨err, run, refused⟩ := @Holds.check_old _ _ _ .child _ .parent (h.lists parent) old
    fun r mem => (h.lists parent).typed_cases mem
  refine ⟨err, ?_, refused⟩
  simp only [childAdd, run, Outcome.ret_bind, ne_eq, refused, not_false_eq_true, if_true]
  rfl

theorem sides_linked_parent (apart : parent ≠ child) : sides (linked R parent child) parent =
    fun t m => sides R parent t m ∨ t = .child ∧ m = child := by
  funext t m
  apply propext
  cases t <;> simp [sides, linked, apart]

theorem sides_linked_child (apart : parent ≠ child) : sides (linked R parent child) child =
    fun t m => sides R child t m ∨ t = .parent ∧ m = parent := by
  funext t m
  apply propext
  cases t <;> simp [sides, linked, apart.symm]

theorem sides_linked_of_ne (p : n ≠ parent) (c : n ≠ child) :
    sides (linked R parent child) n = sides R n := by
  funext t m
  apply propext
  cases t <;> simp [sides, linked, p, c]

theorem sides_unlinked_parent (apart : parent ≠ child) : sides (unlinked R parent child) parent =
    fun t m => sides R parent t m ∧ ¬ (t = .child ∧ m = child) := by
  funext t m
  apply propext
  cases t <;> simp [sides, unlinked, apart]

theorem sides_unlinked_child (apart : parent ≠ child) : sides (unlinked R parent child) child =
    fun t m => sides R child t m ∧ ¬ (t = .parent ∧ m = parent) := by
  funext t m
  apply propext
  cases t <;> simp [sides, unlinked, apart.symm]

theorem sides_unlinked_of_ne (p : n ≠ parent) (c : n ≠ child) :
    sides (unlinked R parent child) n = sides R n := by
  funext t m
  apply propext
  cases t <;> simp [sides, unlinked, p, c]

theorem childAdd_done (h : Represents server R) (apart : parent ≠ child) (new : ¬ R parent child)
    (back : ¬ R child parent) :
    ∃ server' : Server, ∃ forParent forChild : Reference,
      childAdd metas parent child server = .ret (server', .ok) ∧
      Represents server' (linked R parent child) ∧
      forParent.node = some child ∧ query server' parent = query server parent ++ [forParent] ∧
      forChild.node = some parent ∧ query server' child = query server child ++ [forChild] ∧
      ∀ n, n ≠ parent → n ≠ child → query server' n = query server n := by
  have checkParent := @Holds.check_new _ _ .child .parent _ (h.lists parent) (sides_new new back)
  have checkChild := @Holds.check_new _ _ .parent .child _ (h.lists child) (sides_new back new)
  obtain ⟨forChild, typeC, nodeC, addC, holdsC⟩ := @Holds.add_done _ _ metas .parent
    (metaTypeOf metas parent) _ (h.lists child) (by decide) (sides_new back new)
  obtain ⟨forParent, typeP, nodeP, addP, holdsP⟩ := @Holds.add_done _ _ metas .child
    (metaTypeOf metas child) _ (h.lists parent) (by decide) (sides_new new back)
  obtain ⟨server₁, publishC, here₁, rest₁⟩ := @publish_done _ server child holdsC.typed
  obtain ⟨server₂, publishP, here₂, rest₂⟩ := @publish_done _ server₁ parent holdsP.typed
  have atChild := (rest₂ child apart.symm).trans here₁
  have elsewhere : ∀ n, n ≠ parent → n ≠ child → query server₂ n = query server n := fun n p c =>
    (rest₂ n p).trans (rest₁ n c)
  refine ⟨server₂, forParent, forChild, ?_, ⟨fun n => ?_, fun n => ?_⟩, nodeP, here₂, nodeC, atChild,
    elsewhere⟩
  · simp only [childAdd, checkParent, checkChild, Outcome.ret_bind, ne_eq, not_true_eq_false, if_false, addC,
      addP, publishC, publishP]
    rfl
  · by_cases atP : n = parent
    · rw [atP, here₂, sides_linked_parent apart]
      exact holdsP
    · by_cases atC : n = child
      · rw [atC, atChild, sides_linked_child apart]
        exact holdsC
      · rw [elsewhere n atP atC, sides_linked_of_ne atP atC]
        exact h.lists n
  · rintro (old | ⟨rfl, same⟩)
    · exact h.irrefl n old
    · exact apart same

/-- A node that is added to itself lists itself as child only: its second publication replaces the
first. -/
theorem childAdd_self (h : Represents server R) : ∃ server' : Server,
    childAdd metas n n server = .ret (server', .ok) ∧ Lists server' n .child n ∧
      ¬ Lists server' n .parent n := by
  have new := @sides_new R n n (h.irrefl n) (h.irrefl n)
  obtain ⟨forChild, -, -, addC, holdsC⟩ := @Holds.add_done _ _ metas .parent
    (metaTypeOf metas n) _ (h.lists n) (by decide) new
  obtain ⟨forParent, type, name, addP, holdsP⟩ := @Holds.add_done _ _ metas .child
    (metaTypeOf metas n) _ (h.lists n) (by decide) new
  obtain ⟨server₁, publishC, -, -⟩ := @publish_done _ server n holdsC.typed
  obtain ⟨server₂, publishP, here, -⟩ := @publish_done _ server₁ n holdsP.typed
  rw [← here] at holdsP
  refine ⟨server₂, ?_, ?_, ?_⟩
  · simp only [childAdd, Holds.check_new (h.lists n) new, Outcome.ret_bind, ne_eq, not_true_eq_false,
      if_false, addC, addP, publishC, publishP]
    rfl
  · exact holdsP.complete .child n (.inr ⟨rfl, rfl⟩)
  · rintro there
    rcases holdsP.side_iff.mpr there with old | ⟨⟨⟩, -⟩
    exact h.irrefl n old

theorem removeAt_nil (none : query server n = []) : removeAt n t m server = .ret server := by
  rw [removeAt, none]

theorem removeAt_eq (some_ : query server n ≠ []) : removeAt n t m server =
    referenceRemove t m [] (query server n) >>= fun refs => publish server n (referencesToItem refs) := by
  rw [removeAt]
  split
  · next none => exact (some_ none).elim
  · rfl

theorem removeAt_done {side : ReferenceType → Text → Prop} (holds : Holds (query server n) side)
    (there : side t m) : ∃ server', removeAt n t m server = .ret server' ∧
      query server' n = (query server n).filter (fun r => r.node ≠ some m) ∧
      (Holds (query server' n) fun t' m' => side t' m' ∧ ¬ (t' = t ∧ m' = m)) ∧
      ∀ k, k ≠ n → query server' k = query server k := by
  obtain ⟨run, left⟩ := holds.remove_done there
  obtain ⟨server', published, here, rest⟩ := @publish_done _ server n left.typed
  have some_ : query server n ≠ [] := by
    obtain ⟨r, mem, -⟩ := holds.complete t m there
    exact List.ne_nil_of_mem mem
  refine ⟨server', ?_, here, by rw [here]; exact left, rest⟩
  rw [removeAt_eq some_, run]
  exact published

/-- The entry is not there, and the list is lost. -/
theorem removeAt_lost {side : ReferenceType → Text → Prop} (holds : Holds (query server n) side)
    (some_ : query server n ≠ []) (missing : ¬ side t m) : ∃ server',
      removeAt n t m server = .ret server' ∧ query server' n = [] ∧
      ∀ k, k ≠ n → query server' k = query server k := by
  obtain ⟨server', published, here, rest⟩ := @publish_done [] server n (by simp)
  refine ⟨server', ?_, here, rest⟩
  rw [removeAt_eq some_, holds.remove_missing missing]
  exact published

theorem childRemove_done (h : Represents server R) (there : R parent child) :
    ∃ server' : Server, childRemove parent child server = .ret server' ∧
      Represents server' (unlinked R parent child) ∧
      query server' parent = (query server parent).filter (fun r => r.node ≠ some child) ∧
      query server' child = (query server child).filter (fun r => r.node ≠ some parent) ∧
      ∀ n, n ≠ parent → n ≠ child → query server' n = query server n := by
  have apart : parent ≠ child := by
    rintro rfl
    exact h.irrefl _ there
  obtain ⟨server₁, run₁, here₁, holds₁, rest₁⟩ :=
    @removeAt_done server child parent .parent _ (h.lists child) there
  have atParent := h.lists parent
  rw [← rest₁ parent apart] at atParent
  obtain ⟨server₂, run₂, here₂, holds₂, rest₂⟩ :=
    @removeAt_done server₁ parent child .child _ atParent there
  have atChild := rest₂ child apart.symm
  have elsewhere : ∀ n, n ≠ parent → n ≠ child → query server₂ n = query server n := fun n p c =>
    (rest₂ n p).trans (rest₁ n c)
  refine ⟨server₂, ?_, ⟨fun n => ?_, fun n old => h.irrefl n old.1⟩, ?_, atChild.trans here₁, elsewhere⟩
  · rw [childRemove, run₁]
    exact run₂
  · by_cases atP : n = parent
    · rw [atP, sides_unlinked_parent apart]
      exact holds₂
    · by_cases atC : n = child
      · rw [atC, atChild, sides_unlinked_child apart]
        exact holds₁
      · rw [elsewhere n atP atC, sides_unlinked_of_ne atP atC]
        exact h.lists n
  · rw [here₂, rest₁ parent apart]

/-- A list that is not empty and lacks the entry is lost. -/
theorem childRemove_lost (h : Represents server R) (missing : ¬ R parent child)
    (some_ : query server child ≠ [] ∨ query server parent ≠ []) :
    ∃ server' : Server, childRemove parent child server = .ret server' ∧
      ∃ n, query server' n ≠ query server n := by
  by_cases atChild : query server child = []
  · have atParent := some_.resolve_left fun full => full atChild
    obtain ⟨server', run, gone, -⟩ :=
      @removeAt_lost server parent child .child _ (h.lists parent) atParent missing
    refine ⟨server', ?_, parent, by rw [gone]; exact atParent.symm⟩
    rw [childRemove, removeAt_nil atChild]
    exact run
  · obtain ⟨server₁, run₁, gone, rest₁⟩ :=
      @removeAt_lost server child parent .parent _ (h.lists child) atChild missing
    by_cases empty : query server₁ parent = []
    · refine ⟨server₁, ?_, child, by rw [gone]; exact fun eq => atChild eq.symm⟩
      rw [childRemove, run₁]
      exact removeAt_nil empty
    · have apart : parent ≠ child := fun same => empty (same ▸ gone)
      have atParent := h.lists parent
      rw [← rest₁ parent apart] at atParent
      obtain ⟨server₂, run₂, -, rest₂⟩ :=
        @removeAt_lost server₁ parent child .child _ atParent empty missing
      refine ⟨server₂, ?_, child, ?_⟩
      · rw [childRemove, run₁]
        exact run₂
      · rw [rest₂ child apart.symm, gone]
        exact fun eq => atChild eq.symm

theorem allowed_remove_iff (h : Represents server R) : Allowed server (.remove parent child) ↔
    R parent child ∨ query server child = [] ∧ query server parent = [] := by
  change (_ → Lists server child .parent parent) ∧ (_ → Lists server parent .child child) ↔ _
  rw [h.lists_iff, h.lists_iff]
  change (_ → R parent child) ∧ (_ → R parent child) ↔ _
  by_cases there : R parent child
  · simp [there]
  · simp [there]

theorem filter_others {refs : List Reference} {other : Reference → Bool}
    (apart : ∀ r, other r → r.node ≠ some m) :
    (refs.filter fun r => r.node ≠ some m).filter other = refs.filter other := by
  rw [List.filter_filter]
  refine List.filter_congr fun r _ => ?_
  by_cases keep : other r
  · simp [apart r keep]
  · simp [keep]

/-- One step: an allowed call behaves, and its result represents a relation again. -/
theorem step (h : Represents server R) {call : Call} (allowed : Allowed server call) :
    ∃ server' err R', call.run server = .ret (server', err) ∧ Represents server' R' ∧
      (∀ n, others call server' n = others call server n) ∧
      (call.Absent server ∨ err ≠ .ok → ∀ n, query server' n = query server n) := by
  cases call with
  | add metas parent child =>
      by_cases there : R parent child ∨ R child parent
      · obtain ⟨err, run, -⟩ := @childAdd_refused _ _ metas _ _ h there
        exact ⟨server, err, R, run, h, fun _ => rfl, fun _ _ => rfl⟩
      · obtain ⟨new, back⟩ := not_or.mp there
        obtain ⟨server', forParent, forChild, run, h', nodeP, atP, nodeC, atC, elsewhere⟩ :=
          @childAdd_done _ _ metas _ _ h allowed new back
        refine ⟨server', .ok, _, run, h', fun n => ?_, fun idle => ?_⟩
        · unfold others
          by_cases p : n = parent
          · subst p
            rw [atP, List.filter_append, List.filter_cons_of_neg (by simp [Call.parent, Call.child, nodeP])]
            exact List.append_nil _
          · by_cases c : n = child
            · subst c
              rw [atC, List.filter_append, List.filter_cons_of_neg (by simp [Call.parent, Call.child, nodeC])]
              exact List.append_nil _
            · rw [elsewhere n p c]
        · rcases idle with absent | refused
          · exact absent.elim
          · exact (refused rfl).elim
  | remove parent child =>
      rcases h.allowed_remove_iff.mp allowed with there | ⟨atC, atP⟩
      · obtain ⟨server', run, h', atP, atC, elsewhere⟩ := h.childRemove_done there
        refine ⟨server', .ok, _, by rw [Call.run, run]; rfl, h', fun n => ?_, fun idle => ?_⟩
        · unfold others
          by_cases p : n = parent
          · subst p
            rw [atP]
            exact filter_others fun r keep => by simp [Call.parent, Call.child] at keep; exact keep.1
          · by_cases c : n = child
            · subst c
              rw [atC]
              exact filter_others fun r keep => by simp [Call.parent, Call.child] at keep; exact keep.2
            · rw [elsewhere n p c]
        · rcases idle with absent | refused
          · exact (absent.1 (h.lists_iff.mpr there)).elim
          · exact (refused rfl).elim
      · refine ⟨server, .ok, R, ?_, h, fun _ => rfl, fun _ _ => rfl⟩
        rw [Call.run, childRemove, removeAt_nil atC, Outcome.ret_bind, removeAt_nil atP]
        rfl

/-- Behind a represented relation exactly the allowed calls behave. -/
theorem behaves_iff (h : Represents server R) (call : Call) : Behaves server call ↔ Allowed server call := by
  constructor
  · rintro ⟨server', err, run, right, -, idle⟩
    cases call with
    | add metas parent child =>
        rintro rfl
        obtain ⟨server'', run', asChild, asParent⟩ := @childAdd_self _ _ metas parent h
        rw [Call.run, run'] at run
        cases run
        exact asParent ((right.both parent parent).mp asChild)
    | remove parent child =>
        rw [h.allowed_remove_iff]
        by_contra bad
        obtain ⟨missing, full⟩ := not_or.mp bad
        obtain ⟨lost, run', n, changed⟩ := h.childRemove_lost missing (not_and_or.mp full)
        rw [Call.run, run', Outcome.ret_bind] at run
        cases run
        refine changed (idle (.inl ⟨?_, ?_⟩) n)
        · rw [h.lists_iff]
          exact missing
        · rw [h.lists_iff]
          exact missing
  · intro allowed
    obtain ⟨server', err, R', run, h', frame, idle⟩ := h.step allowed
    exact ⟨server', err, run, h'.reciprocal, frame, idle⟩

end Represents

theorem next_eq_some {server server' : Server} {call : Call} :
    next server call = some server' ↔ ∃ err, call.run server = .ret (server', err) := by
  unfold next
  split
  · next run => simp [run]
  · next other =>
      refine iff_of_false (fun no => nomatch no) ?_
      rintro ⟨err, run⟩
      exact other _ _ run

theorem represents_of_reachable {server : Server} (run : (system.restrict Allowed).Reachable server) :
    ∃ R, Represents server R := by
  refine run.induct (I := fun server => ∃ R, Represents server R) ?_ ?_
  · rintro server rfl
    exact ⟨_, .start⟩
  · rintro server call server' ⟨R, h⟩ ⟨allowed, step⟩
    obtain ⟨err, called⟩ := next_eq_some.mp step
    obtain ⟨server'', err', R', called', h', -⟩ := h.step allowed
    rw [called] at called'
    cases called'
    exact ⟨R', h'⟩

/-- As long as all calls are allowed the lists are reciprocal, and a further call keeps to the rules
exactly if it is allowed. -/
theorem reciprocal_while_allowed {server : Server}
    (run : (system.restrict Allowed).Reachable server) :
    Reciprocal server ∧ ∀ call, Behaves server call ↔ Allowed server call := by
  obtain ⟨R, h⟩ := represents_of_reachable run
  exact ⟨h.reciprocal, h.behaves_iff⟩

def added : Server := (next empty (.add (fun _ => none) ['a'] ['b'])).getD empty

theorem reciprocal_while_allowed_added :
    Reciprocal added ∧ ∀ call, Behaves added call ↔ Allowed added call :=
  reciprocal_while_allowed <| .step (.init rfl)
    (show Allowed empty (.add (fun _ => none) ['a'] ['b']) ∧ next empty _ = some added from
      ⟨(by decide : ['a'] ≠ ['b']), rfl⟩)

/-- A removal of b from c, where it is not, loses that b is in a. -/
theorem removal_loses_parent : ¬ ∀ server, system.Reachable server → Reciprocal server := by
  intro all
  have first : system.Reachable added := 
    .step (.init rfl) (show next empty (.add (fun _ => none) ['a'] ['b']) = some added from rfl)
  have reached : system.Reachable ((next added (.remove ['c'] ['b'])).getD empty) :=
    .step first (show next added (.remove ['c'] ['b']) = some _ from rfl)
  have asChild : Lists ((next added (.remove ['c'] ['b'])).getD empty) ['a'] .child ['b'] := by
    unfold Lists
    decide +kernel
  have asParent : ¬ Lists ((next added (.remove ['c'] ['b'])).getD empty) ['b'] .parent ['a'] := by
    unfold Lists
    decide +kernel
  exact asParent (((all _ reached).both ['a'] ['b']).mp asChild)

end Mio.LibMio.References
