import Mio.LibMio.MetaMerge
import Mio.LibMio.References

/-! The meta type of a node in the references that other nodes have to it: `mio_meta_merge_publish` and
`mio_meta_remove_publish`. -/
namespace Mio.LibMio.References

/-- `_mio_reference_meta_type_overwrite_publish`; null is what `mio_reference_remove` gives where it
finds nothing, and where nothing is left. -/
def overwritePublish (metas : Metas) (node refNode : Text) (refType : ReferenceType)
    (refMetaType : MetaType) (server : Server) : Outcome Undefined Server := do
  match ← referenceRemove refType refNode [] (query server node) with
  | [] => return server
  | queryRef => do
      let queryRef ← referenceAdd metas queryRef refType refMetaType refNode
      publish server node (referencesToItem queryRef)

/-- The kind of reference that the other node has. -/
def counterpart : ReferenceType → Option ReferenceType
  | .child => some .parent
  | .parent => some .child
  | .unknown => none

/-- The body of the loop over the references of a node; a null node is dereferenced. -/
def overwriteAt (metas : Metas) (node : Text) (metaType : MetaType) (currRef : Reference)
    (server : Server) : Outcome Undefined Server :=
  match counterpart currRef.type, currRef.node with
  | none, _ => .ret server
  | some _, none => .throw .null
  | some refType, some other => overwritePublish metas other node refType metaType server

def overwriteAll (metas : Metas) (node : Text) (metaType : MetaType) :
    List Reference → Server → Outcome Undefined Server
  | [], server => .ret server
  | currRef :: rest, server => do
      let server ← overwriteAt metas node metaType currRef server
      overwriteAll metas node metaType rest server

/-- `mio_item_publish` of a meta; null is dereferenced. -/
def publishMeta (m : Meta) : Outcome Undefined Unit :=
  match metaToItem m with
  | .ret (some _) => .ret ()
  | .ret none => .throw .null
  | .throw e => nomatch e
  | .abort what => .abort what
  | .timeout => .timeout

/-- What queries for metas answer, a blank meta where there is none. -/
def answers (metas : Text → Meta) : Metas := fun n => some ((metas n).metaType, (metas n).name)

/-- Where another type is given, the references that other nodes have are overwritten first. -/
def overwriteGiven (metas : Text → Meta) (node : Text) (server : Server) :
    Option Meta → Outcome Undefined Server
  | none => .ret server
  | some given =>
      if given.metaType ≠ (metas node).metaType then
        overwriteAll (answers metas) node given.metaType (query server node) server
      else .ret server

/-- `mio_meta_merge_publish`, with the meta that is published. -/
def metaMergePublish (metas : Text → Meta) (node : Text) (update : MetaUpdate) (server : Server) :
    Outcome Undefined (Server × Meta) := do
  let server ← overwriteGiven metas node server update.meta_
  let merged ← mergeUpdate (metas node) update
  publishMeta merged
  return (server, merged)

/-- `mio_meta_remove_publish` with a `meta_name`: the meta is retracted first. -/
def metaRemovePublish (metas : Text → Meta) (node : Text) (server : Server) :
    Outcome Undefined (Server × Meta) := do
  let metas := Function.update metas node {}
  let server ← overwriteAll (answers metas) node .unknown (query server node) server
  return (server, metas node)

inductive Change where
  | merge (update : MetaUpdate)
  | remove

def Change.run (metas : Text → Meta) (node : Text) (server : Server) :
    Change → Outcome Undefined (Server × Meta)
  | .merge update => metaMergePublish metas node update server
  | .remove => metaRemovePublish metas node server

/-- The kinds of references that a node is to have to the owner of the list, one for each entry. -/
def kindsAt (refs : List Reference) (other : Text) : List ReferenceType :=
  refs.filterMap fun r => if r.node = some other then counterpart r.type else none

/-- The references of a kind to a node. -/
def entries (node : Text) (kind : ReferenceType) (refs : List Reference) : List Reference :=
  refs.filter fun r => r.type = kind ∧ r.node = some node

def besides (node : Text) (kinds : List ReferenceType) (refs : List Reference) : List Reference :=
  refs.filter fun r => ¬ (r.type ∈ kinds ∧ r.node = some node)

/-- Where a list had references of the kinds, it has one of each, with the type. -/
structure Overwritten (node : Text) (type : MetaType) (kinds : List ReferenceType)
    (refs refs' : List Reference) : Prop where
  one : ∀ k ∈ kinds, entries node k refs ≠ [] →
    ∃ r, entries node k refs' = [r] ∧ r.metaType = type
  none : ∀ k ∈ kinds, entries node k refs = [] → entries node k refs' = []

/-- The referenced nodes say the type in what they had about the node, and nothing else changes. -/
structure Propagated (node : Text) (type : MetaType) (server server' : Server) : Prop where
  overwritten : ∀ n, Overwritten node type (kindsAt (query server node) n) (query server n)
    (query server' n)
  others : ∀ n, besides node (kindsAt (query server node) n) (query server' n) =
    besides node (kindsAt (query server node) n) (query server n)
  untouched : ∀ n, (∀ k ∈ kindsAt (query server node) n, entries node k (query server n) = []) →
    query server' n = query server n

/-- The type that the node publishes arrives. -/
def Propagates (metas : Text → Meta) (node : Text) (server : Server) (change : Change) : Prop :=
  ∃ server' published, change.run metas node server = .ret (server', published) ∧
    Propagated node published.metaType server server'

/-- The publish of the node's own meta succeeds. -/
def Change.Publishes (metas : Text → Meta) (node : Text) : Change → Prop
  | .merge update => ∃ merged, mergeUpdate (metas node) update = .ret merged ∧
      publishMeta merged = .ret ()
  | .remove => True

def Change.type (stored : MetaType) : Change → MetaType
  | .merge update => ((update.meta_.map Meta.metaType).filter (· ≠ .unknown)).getD stored
  | .remove => .unknown

/-- The type that is written to the referenced nodes, if any is. -/
def Change.sent (stored : MetaType) : Change → Option MetaType
  | .merge update => (update.meta_.map Meta.metaType).filter (· ≠ stored)
  | .remove => some .unknown

def nodesOf (kind : ReferenceType) (refs : List Reference) : List (Option Text) :=
  (refs.filter fun r => r.type = kind).map Reference.node

/-- One reference can be overwritten: no reference of its kind without a node is met; it is the only
reference of its kind to the node; and it has the type already if it is alone in its list, else the type
that is sent is right and the list has no reference of unknown kind. -/
structure Overwritable (node : Text) (sent type : MetaType) (kind : ReferenceType) (again : Prop)
    (refs : List Reference) : Prop where
  named : none ∉ (nodesOf kind refs).takeWhile (· ≠ some node)
  one : entries node kind refs = [] ∨ ∃ r, entries node kind refs = [r] ∧
    (refs = [r] ∧ r.metaType = type ∨
      refs ≠ [r] ∧ sent = type ∧ (∀ q ∈ refs, q.type ≠ .unknown) ∧
        (again → none ∉ nodesOf kind refs))

/-- Without an overwrite the references are right already. -/
def Settled (node : Text) (type : MetaType) (kind : ReferenceType) (refs : List Reference) : Prop :=
  entries node kind refs = [] ∨ ∃ r, entries node kind refs = [r] ∧ r.metaType = type

def Change.Works (metas : Text → Meta) (node : Text) (server : Server) (change : Change) : Prop :=
  match change.sent (metas node).metaType with
  | none => ∀ n, ∀ k ∈ kindsAt (query server node) n,
      Settled node (change.type (metas node).metaType) k (query server n)
  | some sent =>
      (∀ r ∈ query server node, r.type ≠ .unknown → r.node ≠ none) ∧
        ∀ n, ∀ k ∈ kindsAt (query server node) n,
          Overwritable node sent (change.type (metas node).metaType) k
            (1 < (kindsAt (query server node) n).count k) (query server n)

section
variable {node : Text} {kind : ReferenceType} {refs : List Reference}

theorem mem_entries {r : Reference} :
    r ∈ entries node kind refs ↔ r ∈ refs ∧ r.type = kind ∧ r.node = some node := by
  rw [entries, List.mem_filter, decide_eq_true_eq]

theorem nodesOf_cons_of_ne {r : Reference} (other : r.type ≠ kind) :
    nodesOf kind (r :: refs) = nodesOf kind refs := by
  rw [nodesOf, List.filter_cons_of_neg (by simpa using other), nodesOf]

theorem nodesOf_cons_self {r : Reference} (same : r.type = kind) :
    nodesOf kind (r :: refs) = r.node :: nodesOf kind refs := by
  rw [nodesOf, List.filter_cons_of_pos (by simpa using same), List.map_cons, nodesOf]

theorem referenceRemove_cons {curr : Reference} {rest : List Reference}
    (named : curr.type = kind → curr.node ≠ none)
    (other : ¬ (curr.type = kind ∧ curr.node = some node)) (seen : List Reference) :
    referenceRemove kind node seen (curr :: rest) = referenceRemove kind node (seen ++ [curr]) rest := by
  rw [referenceRemove]
  by_cases same : curr.type = kind
  · obtain ⟨n, is⟩ := Option.ne_none_iff_exists'.mp (named same)
    have differs : n ≠ node := fun eq => other ⟨same, by rw [is, eq]⟩
    simp only [if_pos same, is, strcmp, strcmp_some, differs, decide_false, Outcome.ret_bind, Bool.false_eq_true,
      if_false]
  · rw [if_neg same]

theorem named_cons {curr : Reference} {rest : List Reference}
    (other : ¬ (curr.type = kind ∧ curr.node = some node)) :
    none ∉ (nodesOf kind (curr :: rest)).takeWhile (· ≠ some node) ↔
      (curr.type = kind → curr.node ≠ none) ∧
        none ∉ (nodesOf kind rest).takeWhile (· ≠ some node) := by
  by_cases same : curr.type = kind
  · have passed : curr.node ≠ some node := fun here => other ⟨same, here⟩
    rw [nodesOf_cons_self same, List.takeWhile_cons_of_pos (by simpa using passed), List.mem_cons, not_or]
    exact and_congr_left' ⟨fun named _ => Ne.symm named, fun named => Ne.symm (named same)⟩
  · rw [nodesOf_cons_of_ne same, and_iff_right fun no => (same no).elim]

theorem entries_cons_of_neg {curr : Reference} {rest : List Reference}
    (other : ¬ (curr.type = kind ∧ curr.node = some node)) :
    entries node kind (curr :: rest) = entries node kind rest :=
  List.filter_cons_of_neg (by simpa using other)

theorem entries_cons_of_pos {curr : Reference} {rest : List Reference}
    (here : curr.type = kind ∧ curr.node = some node) :
    entries node kind (curr :: rest) = curr :: entries node kind rest :=
  List.filter_cons_of_pos (by simpa using here)

theorem referenceRemove_null (blank : none ∈ (nodesOf kind refs).takeWhile (· ≠ some node))
    (seen : List Reference) : referenceRemove kind node seen refs = .throw .null := by
  induction refs generalizing seen with
  | nil => cases blank
  | cons curr rest ih =>
      by_cases other : curr.type = kind ∧ curr.node = some node
      · rw [nodesOf_cons_self other.1, other.2] at blank
        simp at blank
      · by_cases named : curr.type = kind → curr.node ≠ none
        · rw [referenceRemove_cons named other]
          apply ih
          by_contra rest
          exact (named_cons other).mpr ⟨named, rest⟩ blank
        · obtain ⟨same, null⟩ := Classical.not_imp.mp named
          rw [referenceRemove, if_pos same, not_not.mp null]
          rfl

theorem referenceRemove_absent (named : none ∉ (nodesOf kind refs).takeWhile (· ≠ some node))
    (absent : entries node kind refs = []) (seen : List Reference) :
    referenceRemove kind node seen refs = .ret [] := by
  induction refs generalizing seen with
  | nil => rfl
  | cons curr rest ih =>
      have other : ¬ (curr.type = kind ∧ curr.node = some node) := fun here => by
        rw [entries_cons_of_pos here] at absent
        cases absent
      rw [entries_cons_of_neg other] at absent
      obtain ⟨first, named⟩ := (named_cons other).mp named
      rw [referenceRemove_cons first other]
      exact ih named absent _

theorem referenceRemove_first {before after : List Reference} {r : Reference}
    (named : none ∉ (nodesOf kind (before ++ r :: after)).takeWhile (· ≠ some node))
    (absent : entries node kind before = []) (here : r.type = kind ∧ r.node = some node)
    (seen : List Reference) :
    referenceRemove kind node seen (before ++ r :: after) = .ret (seen ++ (before ++ after)) := by
  induction before generalizing seen with
  | nil =>
      rw [List.nil_append, referenceRemove, if_pos here.1, here.2]
      simp only [strcmp, strcmp_some, decide_true, Outcome.ret_bind, if_true]
      rfl
  | cons curr before ih =>
      have other : ¬ (curr.type = kind ∧ curr.node = some node) := fun here => by
        rw [entries_cons_of_pos here] at absent
        cases absent
      rw [entries_cons_of_neg other] at absent
      rw [List.cons_append] at named ⊢
      obtain ⟨first, named⟩ := (named_cons other).mp named
      rw [referenceRemove_cons first other, ih named absent, List.append_assoc]
      rfl

theorem exists_first (present : entries node kind refs ≠ []) :
    ∃ before r after, refs = before ++ r :: after ∧ entries node kind before = [] ∧
      r.type = kind ∧ r.node = some node := by
  induction refs with
  | nil => exact (present rfl).elim
  | cons curr rest ih =>
      by_cases here : curr.type = kind ∧ curr.node = some node
      · exact ⟨[], curr, rest, rfl, rfl, here⟩
      · rw [entries_cons_of_neg here] at present
        obtain ⟨before, r, after, rfl, absent, found⟩ := ih present
        refine ⟨curr :: before, r, after, rfl, ?_, found⟩
        rwa [entries_cons_of_neg here]

theorem entries_append (refs more : List Reference) :
    entries node kind (refs ++ more) = entries node kind refs ++ entries node kind more :=
  List.filter_append ..

theorem nodesOf_append (refs more : List Reference) :
    nodesOf kind (refs ++ more) = nodesOf kind refs ++ nodesOf kind more := by
  rw [nodesOf, List.filter_append, List.map_append]
  rfl

theorem some_mem_nodesOf : some node ∈ nodesOf kind refs ↔ entries node kind refs ≠ [] := by
  rw [nodesOf, List.mem_map]
  constructor
  · rintro ⟨r, mem, here⟩
    obtain ⟨mem, type⟩ := List.mem_filter.mp mem
    exact List.ne_nil_of_mem (mem_entries.mpr ⟨mem, of_decide_eq_true type, here⟩)
  · intro present
    obtain ⟨r, mem⟩ := List.exists_mem_of_ne_nil _ present
    obtain ⟨mem, type, here⟩ := mem_entries.mp mem
    exact ⟨r, List.mem_filter.mpr ⟨mem, decide_eq_true type⟩, here⟩

variable {kinds : List ReferenceType}

theorem besides_append (refs more : List Reference) :
    besides node kinds (refs ++ more) = besides node kinds refs ++ besides node kinds more :=
  List.filter_append ..

theorem besides_cons_of_pos {curr : Reference} {rest : List Reference}
    (here : curr.type ∈ kinds ∧ curr.node = some node) :
    besides node kinds (curr :: rest) = besides node kinds rest :=
  List.filter_cons_of_neg (by simpa using here)

theorem besides_cons_of_neg {curr : Reference} {rest : List Reference}
    (other : ¬ (curr.type ∈ kinds ∧ curr.node = some node)) :
    besides node kinds (curr :: rest) = curr :: besides node kinds rest :=
  List.filter_cons_of_pos (decide_eq_true other)

end

/-- A list whose references are all of a known kind can be published. -/
def publishable (refs : List Reference) : Outcome Undefined (List Reference) :=
  if ∀ r ∈ refs, r.type ≠ .unknown then .ret refs else .throw .null

/-- What `overwritePublish` makes of the list of the node. -/
def overwriteList (metas : Metas) (node : Text) (sent : MetaType) (kind : ReferenceType)
    (refs : List Reference) : Outcome Undefined (List Reference) := do
  match ← referenceRemove kind node [] refs with
  | [] => return refs
  | rest => do
      let rest ← referenceAdd metas rest kind sent node
      publishable rest

def overwriteEach (metas : Metas) (node : Text) (sent : MetaType) :
    List ReferenceType → List Reference → Outcome Undefined (List Reference)
  | [], refs => .ret refs
  | kind :: kinds, refs => do
      let refs ← overwriteList metas node sent kind refs
      overwriteEach metas node sent kinds refs

section
variable {metas : Metas} {node : Text} {sent : MetaType} {kind : ReferenceType} {refs : List Reference}

def written (metas : Metas) (node : Text) (sent : MetaType) (kind : ReferenceType) (curr : Reference) :
    Reference :=
  { curr with
    type := kind
    metaType := sent
    node := some node
    name := ((metas node).bind Prod.snd).or curr.name }

theorem overwriteList_null (blank : none ∈ (nodesOf kind refs).takeWhile (· ≠ some node)) :
    overwriteList metas node sent kind refs = .throw .null := by
  rw [overwriteList, referenceRemove_null blank]
  rfl

theorem overwriteList_absent (named : none ∉ (nodesOf kind refs).takeWhile (· ≠ some node))
    (absent : entries node kind refs = []) : overwriteList metas node sent kind refs = .ret refs := by
  rw [overwriteList, referenceRemove_absent named absent]
  rfl

variable {before after : List Reference} {r : Reference}
  (named : none ∉ (nodesOf kind (before ++ r :: after)).takeWhile (· ≠ some node))
  (absent : entries node kind before = []) (here : r.type = kind ∧ r.node = some node)
include named absent here

theorem overwriteList_alone (alone : before ++ after = []) :
    overwriteList metas node sent kind (before ++ r :: after) = .ret (before ++ r :: after) := by
  rw [overwriteList, referenceRemove_first named absent here, alone]
  rfl

theorem overwriteList_filled {first : Reference} {rest : List Reference}
    (left : before ++ after = first :: rest) (unknown : first.type = .unknown) :
    overwriteList metas node sent kind (before ++ r :: after) =
      publishable (written metas node sent kind first :: rest) := by
  rw [overwriteList, referenceRemove_first named absent here, left]
  simp [referenceAdd, unknown, written]

theorem overwriteList_appended {first : Reference} {rest : List Reference}
    (left : before ++ after = first :: rest) (known : first.type ≠ .unknown) :
    overwriteList metas node sent kind (before ++ r :: after) =
      publishable (before ++ after ++ [written metas node sent kind {}]) := by
  rw [overwriteList, referenceRemove_first named absent here, left]
  simp [referenceAdd, known, written]

end

theorem publishable_eq_ret {refs refs' : List Reference} :
    publishable refs = .ret refs' ↔ (∀ r ∈ refs, r.type ≠ .unknown) ∧ refs = refs' := by
  unfold publishable
  split
  · next typed =>
      rw [and_iff_right typed]
      exact ⟨Outcome.ret.inj, congrArg _⟩
  · next bad => exact iff_of_false (fun no => by cases no) fun both => bad both.1

section
variable {metas : Metas} {node : Text} {sent type : MetaType} {kind : ReferenceType}
  {kinds : List ReferenceType} {refs refs' : List Reference}

/-- The list stays; or a reference of unknown kind in front is filled in; or the reference goes to the
end. -/
theorem overwriteList_cases (ret : overwriteList metas node sent kind refs = .ret refs') :
    refs' = refs ∨ ∃ before r after, refs = before ++ r :: after ∧ (r.type = kind ∧ r.node = some node) ∧
      ((∃ first rest, before ++ after = first :: rest ∧ first.type = .unknown ∧
          refs' = written metas node sent kind first :: rest) ∨
        refs' = before ++ after ++ [written metas node sent kind {}]) := by
  by_cases named : none ∈ (nodesOf kind refs).takeWhile (· ≠ some node)
  · rw [overwriteList_null named] at ret
    cases ret
  · by_cases absent : entries node kind refs = []
    · rw [overwriteList_absent named absent] at ret
      exact .inl (Outcome.ret.inj ret).symm
    · obtain ⟨before, r, after, rfl, absent, here⟩ := exists_first absent
      cases left : before ++ after with
      | nil =>
          rw [overwriteList_alone named absent here left] at ret
          exact .inl (Outcome.ret.inj ret).symm
      | cons first rest =>
          refine .inr ⟨before, r, after, rfl, here, ?_⟩
          by_cases unknown : first.type = .unknown
          · rw [overwriteList_filled named absent here left unknown] at ret
            exact .inl ⟨first, rest, left, unknown, (publishable_eq_ret.mp ret).2.symm⟩
          · rw [overwriteList_appended named absent here left unknown] at ret
            exact .inr (left ▸ (publishable_eq_ret.mp ret).2.symm)

/-- References of another kind stay. -/
theorem overwriteList_entries {other : ReferenceType} (differs : kind ≠ other) (known : other ≠ .unknown)
    (ret : overwriteList metas node sent kind refs = .ret refs') :
    entries node other refs' = entries node other refs := by
  rcases overwriteList_cases ret with rfl | ⟨before, r, after, rfl, here, cases⟩
  · rfl
  · have removed : entries node other (before ++ r :: after) = entries node other (before ++ after) := by
      rw [entries_append, entries_append, entries_cons_of_neg fun no => differs (here.1.symm.trans no.1)]
    rcases cases with ⟨first, rest, left, unknown, rfl⟩ | rfl
    · rw [removed, left, entries_cons_of_neg fun no => differs no.1,
        entries_cons_of_neg fun no => known (no.1.symm.trans unknown)]
    · rw [removed, entries_append, entries_cons_of_neg fun no => differs no.1]
      exact List.append_nil _

theorem overwriteEach_entries {other : ReferenceType} (differs : other ∉ kinds) (known : other ≠ .unknown)
    (ret : overwriteEach metas node sent kinds refs = .ret refs') :
    entries node other refs' = entries node other refs := by
  induction kinds generalizing refs with
  | nil =>
      cases ret
      rfl
  | cons kind kinds ih =>
      obtain ⟨next, first, rest⟩ := Outcome.bind_eq_ret.mp ret
      rw [List.mem_cons, not_or] at differs
      rw [ih differs.2 rest, overwriteList_entries (Ne.symm differs.1) known first]

/-- The other references never get more; a reference of unknown kind that is filled in is missing then. -/
theorem overwriteList_besides {all : List ReferenceType} (mem : kind ∈ all) (known : .unknown ∉ all)
    (ret : overwriteList metas node sent kind refs = .ret refs') :
    besides node all refs' = besides node all refs ∨
      (besides node all refs').length < (besides node all refs).length := by
  rcases overwriteList_cases ret with rfl | ⟨before, r, after, rfl, here, cases⟩
  · exact .inl rfl
  · have removed : besides node all (before ++ r :: after) = besides node all (before ++ after) := by
      rw [besides_append, besides_append, besides_cons_of_pos ⟨here.1 ▸ mem, here.2⟩]
    rcases cases with ⟨first, rest, left, unknown, rfl⟩ | rfl
    · right
      rw [removed, left, besides_cons_of_pos ⟨mem, rfl⟩,
        besides_cons_of_neg fun no => known (unknown ▸ no.1), List.length_cons]
      exact Nat.lt_succ_self _
    · left
      rw [removed, besides_append, besides_cons_of_pos ⟨mem, rfl⟩]
      exact List.append_nil _

theorem overwriteEach_besides {all : List ReferenceType} (inside : ∀ k ∈ kinds, k ∈ all)
    (known : .unknown ∉ all) (ret : overwriteEach metas node sent kinds refs = .ret refs') :
    (besides node all refs').length ≤ (besides node all refs).length := by
  induction kinds generalizing refs with
  | nil =>
      cases ret
      exact le_rfl
  | cons kind kinds ih =>
      obtain ⟨next, first, rest⟩ := Outcome.bind_eq_ret.mp ret
      obtain ⟨mem, inside⟩ := List.forall_mem_cons.mp inside
      apply (ih inside rest).trans
      rcases overwriteList_besides mem known first with same | less
      · rw [same]
      · exact less.le

theorem overwriteEach_absent (absent : ∀ k ∈ kinds, entries node k refs = [])
    (ret : overwriteEach metas node sent kinds refs = .ret refs') : refs' = refs := by
  induction kinds generalizing refs with
  | nil => exact (Outcome.ret.inj ret).symm
  | cons kind kinds ih =>
      obtain ⟨next, first, rest⟩ := Outcome.bind_eq_ret.mp ret
      obtain ⟨none, absent⟩ := List.forall_mem_cons.mp absent
      have same : next = refs := by
        rcases overwriteList_cases first with same | ⟨before, r, after, rfl, here, -⟩
        · exact same
        · have inside : r ∈ entries node kind (before ++ r :: after) := mem_entries.mpr ⟨by simp, here⟩
          rw [none] at inside
          cases inside
      subst same
      exact ih absent rest

end

/-- The overwrites of a list come back, with the type, and the other references are unchanged. -/
def Arrives (metas : Metas) (node : Text) (sent type : MetaType) (all kinds : List ReferenceType)
    (refs : List Reference) : Prop :=
  ∃ refs', overwriteEach metas node sent kinds refs = .ret refs' ∧ Overwritten node type kinds refs refs' ∧
    besides node all refs' = besides node all refs

section
variable {metas : Metas} {node : Text} {sent type : MetaType} {kind : ReferenceType}
  {all kinds : List ReferenceType} {refs next : List Reference}

/-- One kind, overwritten in one step. -/
def Done (node : Text) (type : MetaType) (kind : ReferenceType) (refs next : List Reference) : Prop :=
  (entries node kind refs ≠ [] → ∃ r, entries node kind next = [r] ∧ r.metaType = type) ∧
    (entries node kind refs = [] → entries node kind next = [])

theorem overwritten_iff {refs' : List Reference} :
    Overwritten node type kinds refs refs' ↔ ∀ k ∈ kinds, Done node type k refs refs' :=
  ⟨fun h k mem => ⟨h.one k mem, h.none k mem⟩, fun h => ⟨fun k mem => (h k mem).1, fun k mem => (h k mem).2⟩⟩

/-- A step that leaves the other references leads on, and the last overwrite of a kind decides. -/
theorem arrives_cons (step : overwriteList metas node sent kind refs = .ret next)
    (known : .unknown ∉ kind :: kinds) (kept : besides node all next = besides node all refs)
    (still : entries node kind next = [] ↔ entries node kind refs = []) :
    Arrives metas node sent type all (kind :: kinds) refs ↔
      (kind ∉ kinds → Done node type kind refs next) ∧ Arrives metas node sent type all kinds next := by
  rw [List.mem_cons, not_or] at known
  have same : ∀ k ∈ kinds, ∀ refs', Done node type k next refs' ↔ Done node type k refs refs' := by
    intro k mem refs'
    unfold Done
    by_cases here : kind = k
    · rw [← here, ne_eq, ne_eq, still]
    · rw [overwriteList_entries here (fun no => known.2 (no ▸ mem)) step]
  unfold Arrives
  simp only [overwriteEach, step, Outcome.ret_bind, overwritten_iff, List.forall_mem_cons, kept]
  constructor
  · rintro ⟨refs', ret, ⟨first, rest⟩, others⟩
    refine ⟨fun last => ?_, refs', ret, fun k mem => (same k mem refs').mpr (rest k mem), others⟩
    unfold Done at first ⊢
    rwa [overwriteEach_entries last (Ne.symm known.1) ret] at first
  · rintro ⟨last, refs', ret, rest, others⟩
    have rest := fun k mem => (same k mem refs').mp (rest k mem)
    refine ⟨refs', ret, ⟨?_, rest⟩, others⟩
    by_cases mem : kind ∈ kinds
    · exact rest kind mem
    · have done := last mem
      unfold Done at done ⊢
      rwa [overwriteEach_entries mem (Ne.symm known.1) ret]

theorem forall_kinds_cons {Q : ReferenceType → Prop → Prop} :
    (∀ k ∈ kind :: kinds, Q k (1 < (kind :: kinds).count k)) ↔
      Q kind (kind ∈ kinds) ∧ ∀ k ∈ kinds, k ≠ kind → Q k (1 < kinds.count k) := by
  have first : (1 < (kind :: kinds).count kind) = (kind ∈ kinds) := by
    rw [List.count_cons_self, Nat.lt_add_left_iff_pos, List.count_pos_iff]
  have rest : ∀ k, k ≠ kind → (kind :: kinds).count k = kinds.count k := fun k differs =>
    List.count_cons_of_ne (Ne.symm differs)
  rw [List.forall_mem_cons, first]
  apply and_congr_right
  intro here
  constructor
  · intro all k mem differs
    rw [← rest k differs]
    exact all k mem
  · intro others k mem
    by_cases same : k = kind
    · rw [same, first]
      exact here
    · rw [rest k same]
      exact others k mem same

/-- What remains of a step is about its own kind. -/
theorem arrives_step
    (ih : Arrives metas node sent type all kinds next ↔
      ∀ k ∈ kinds, Overwritable node sent type k (1 < kinds.count k) next)
    (step : overwriteList metas node sent kind refs = .ret next)
    (known : .unknown ∉ kind :: kinds) (kept : besides node all next = besides node all refs)
    (still : entries node kind next = [] ↔ entries node kind refs = [])
    (others : ∀ k ∈ kinds, k ≠ kind → ∀ again,
      Overwritable node sent type k again next ↔ Overwritable node sent type k again refs)
    (own : Overwritable node sent type kind (kind ∈ kinds) refs ↔
      (kind ∉ kinds → Done node type kind refs next) ∧
        (kind ∈ kinds → Overwritable node sent type kind (1 < kinds.count kind) next)) :
    Arrives metas node sent type all (kind :: kinds) refs ↔
      ∀ k ∈ kind :: kinds, Overwritable node sent type k (1 < (kind :: kinds).count k) refs := by
  have split : (∀ k ∈ kind :: kinds, Overwritable node sent type k (1 < (kind :: kinds).count k) refs) ↔
      Overwritable node sent type kind (kind ∈ kinds) refs ∧
        ∀ k ∈ kinds, k ≠ kind → Overwritable node sent type k (1 < kinds.count k) refs :=
    forall_kinds_cons (Q := fun k again => Overwritable node sent type k again refs)
  rw [arrives_cons step known kept still, ih]
  refine Iff.trans ?_ split.symm
  rw [own, and_assoc]
  apply and_congr_right
  intro _
  constructor
  · intro all
    refine ⟨fun mem => all kind mem, fun k mem differs => (others k mem differs _).mp (all k mem)⟩
  · rintro ⟨here, rest⟩ k mem
    by_cases same : k = kind
    · subst same
      exact here mem
    · exact (others k mem same _).mpr (rest k mem same)

theorem overwritable_absent {again : Prop}
    (named : none ∉ (nodesOf kind refs).takeWhile (· ≠ some node)) (absent : entries node kind refs = []) :
    Overwritable node sent type kind again refs :=
  ⟨named, .inl absent⟩

theorem overwritable_alone {again : Prop} {r : Reference} (here : r.type = kind ∧ r.node = some node) :
    Overwritable node sent type kind again [r] ↔ r.metaType = type := by
  have only : entries node kind [r] = [r] := entries_cons_of_pos here
  constructor
  · rintro ⟨-, one⟩
    rw [only] at one
    rcases one with no | ⟨q, same, ⟨-, right⟩ | ⟨other, -⟩⟩
    · cases no
    · cases same
      exact right
    · exact (other same).elim
  · intro right
    refine ⟨?_, .inr ⟨r, only, .inl ⟨rfl, right⟩⟩⟩
    rw [nodesOf_cons_self here.1, here.2]
    simp

theorem done_alone {r : Reference} (here : r.type = kind ∧ r.node = some node) :
    Done node type kind [r] [r] ↔ r.metaType = type := by
  have only : entries node kind [r] = [r] := entries_cons_of_pos here
  unfold Done
  rw [only]
  simp

section
variable {before after : List Reference} {r : Reference}

theorem two_of_left (left : before ++ after ≠ []) (q : Reference) : before ++ r :: after ≠ [q] := by
  intro no
  have length := congrArg List.length no
  rw [List.length_append, List.length_cons, List.length_singleton] at length
  apply left
  rw [← List.length_eq_zero_iff, List.length_append]
  omega

theorem mem_cases {q : Reference} (mem : q ∈ before ++ r :: after) : q = r ∨ q ∈ before ++ after := by
  rw [List.mem_append, List.mem_cons] at mem
  rw [List.mem_append]
  tauto

theorem mem_of_left {q : Reference} (mem : q ∈ before ++ after) : q ∈ before ++ r :: after := by
  rw [List.mem_append] at mem
  rw [List.mem_append, List.mem_cons]
  tauto

end

section
variable {before after : List Reference}

theorem entries_moved {w : Reference} (own : w.type = kind ∧ w.node = some node) :
    entries node kind (before ++ after ++ [w]) = entries node kind (before ++ after) ++ [w] := by
  rw [entries_append, entries_cons_of_pos own]
  rfl

theorem overwritable_moved {again : Prop} (left : before ++ after ≠ []) {w : Reference}
    (own : w.type = kind ∧ w.node = some node)
    (typed : ∀ q ∈ before ++ after ++ [w], q.type ≠ .unknown) :
    Overwritable node sent type kind again (before ++ after ++ [w]) ↔
      (entries node kind (before ++ after) = [] ∧ sent = type) ∧ none ∉ nodesOf kind (before ++ after) := by
  have nodes : nodesOf kind (before ++ after ++ [w]) = nodesOf kind (before ++ after) ++ [some node] := by
    rw [nodesOf_append, nodesOf_cons_self own.1, own.2]
    rfl
  have passed : entries node kind (before ++ after) = [] →
      (nodesOf kind (before ++ after) ++ [some node]).takeWhile (· ≠ some node) =
        nodesOf kind (before ++ after) := by
    intro only
    rw [List.takeWhile_append_of_pos]
    · simp
    · intro n mem
      refine decide_eq_true fun no => ?_
      subst no
      exact some_mem_nodesOf.mp mem only
  have more : ∀ q, before ++ after ++ [w] ≠ [q] := by
    intro q no
    have length := congrArg List.length no
    rw [List.length_append, List.length_singleton, List.length_singleton] at length
    apply left
    rw [← List.length_eq_zero_iff]
    omega
  constructor
  · rintro ⟨named, one⟩
    rw [entries_moved own] at one
    rcases one with no | ⟨q, same, ⟨no, -⟩ | ⟨-, right, -⟩⟩
    · exact (List.append_ne_nil_of_right_ne_nil _ (List.cons_ne_nil _ _) no).elim
    · exact (more q no).elim
    · have only := (List.append_eq_cons_iff.mp same).resolve_right fun ⟨_, _, no⟩ => by simp at no
      rw [nodes, passed only.1] at named
      exact ⟨⟨only.1, right⟩, named⟩
  · rintro ⟨⟨only, right⟩, named⟩
    constructor
    · rwa [nodes, passed only]
    · refine .inr ⟨w, ?_, .inr ⟨more w, right, typed, fun _ => ?_⟩⟩
      · rw [entries_moved own, only]
        rfl
      · rw [nodes]
        simp [named]

variable {r : Reference} (here : r.type = kind ∧ r.node = some node) (absent : entries node kind before = [])
include here absent

theorem entries_first : entries node kind (before ++ r :: after) = r :: entries node kind (before ++ after) := by
  rw [entries_append, entries_append, absent, entries_cons_of_pos here]
  rfl

theorem overwritable_first {again : Prop} (left : before ++ after ≠ [])
    (named : none ∉ (nodesOf kind (before ++ r :: after)).takeWhile (· ≠ some node))
    (typed : ∀ q ∈ before ++ r :: after, q.type ≠ .unknown) :
    Overwritable node sent type kind again (before ++ r :: after) ↔
      (entries node kind (before ++ after) = [] ∧ sent = type) ∧
        (again → none ∉ nodesOf kind (before ++ after)) := by
  have nodes : none ∉ nodesOf kind (before ++ r :: after) ↔ none ∉ nodesOf kind (before ++ after) := by
    rw [nodesOf_append, nodesOf_cons_self here.1, here.2, nodesOf_append]
    simp
  have more := two_of_left (r := r) left
  constructor
  · rintro ⟨-, one⟩
    rw [entries_first here absent] at one
    rcases one with no | ⟨q, same, ⟨no, -⟩ | ⟨-, right, -, later⟩⟩
    · cases no
    · exact (more q no).elim
    · exact ⟨⟨(List.cons.inj same).2, right⟩, fun again => nodes.mp (later again)⟩
  · rintro ⟨⟨only, right⟩, later⟩
    refine ⟨named, .inr ⟨r, ?_, .inr ⟨more r, right, typed, fun again => nodes.mpr (later again)⟩⟩⟩
    rw [entries_first here absent, only]

theorem done_moved {w : Reference} (own : w.type = kind ∧ w.node = some node) (carries : w.metaType = sent) :
    Done node type kind (before ++ r :: after) (before ++ after ++ [w]) ↔
      entries node kind (before ++ after) = [] ∧ sent = type := by
  unfold Done
  rw [entries_first here absent, entries_moved own]
  constructor
  · rintro ⟨one, -⟩
    obtain ⟨q, same, right⟩ := one (List.cons_ne_nil _ _)
    cases only : entries node kind (before ++ after) with
    | nil =>
        rw [only] at same
        cases same
        exact ⟨rfl, carries.symm.trans right⟩
    | cons first rest =>
        rw [only] at same
        simp at same
  · rintro ⟨only, right⟩
    rw [only]
    exact ⟨fun _ => ⟨w, rfl, carries.trans right⟩, fun no => by cases no⟩

end

theorem Overwritable.typed {again : Prop} (h : Overwritable node sent type kind again refs)
    (some : entries node kind refs ≠ []) (more : ∀ q, refs ≠ [q]) : ∀ q ∈ refs, q.type ≠ .unknown := by
  rcases h.one with none | ⟨r, -, ⟨alone, -⟩ | ⟨-, -, typed, -⟩⟩
  · exact (some none).elim
  · exact (more r alone).elim
  · exact typed

theorem overwritable_congr {again : Prop} (nodes : nodesOf kind next = nodesOf kind refs)
    (same : entries node kind next = entries node kind refs) (moreNext : ∀ q, next ≠ [q])
    (more : ∀ q, refs ≠ [q])
    (typed : (∀ q ∈ next, q.type ≠ .unknown) ↔ ∀ q ∈ refs, q.type ≠ .unknown) :
    Overwritable node sent type kind again next ↔ Overwritable node sent type kind again refs := by
  have named : ∀ refs, Overwritable node sent type kind again refs ↔
      none ∉ (nodesOf kind refs).takeWhile (· ≠ .some node) ∧ (entries node kind refs = [] ∨
        ∃ r, entries node kind refs = [r] ∧ (refs = [r] ∧ r.metaType = type ∨
          refs ≠ [r] ∧ sent = type ∧ (∀ q ∈ refs, q.type ≠ .unknown) ∧
            (again → none ∉ nodesOf kind refs))) :=
    fun refs => ⟨fun h => ⟨h.named, h.one⟩, fun h => ⟨h.1, h.2⟩⟩
  rw [named, named, nodes, same, typed]
  simp only [moreNext, more, ne_eq, not_false_eq_true, true_and, false_and, false_or]

/-- Where a step fails or fills in a reference, its own kind cannot be overwritten. -/
theorem arrives_fails (inside : ∀ k ∈ kinds, k ∈ all) (known : .unknown ∉ all)
    (bad : ∀ next, overwriteList metas node sent kind refs = .ret next →
      (besides node all next).length < (besides node all refs).length)
    (never : ∀ again, ¬ Overwritable node sent type kind again refs) :
    Arrives metas node sent type all (kind :: kinds) refs ↔
      ∀ k ∈ kind :: kinds, Overwritable node sent type k (1 < (kind :: kinds).count k) refs := by
  apply iff_of_false
  · rintro ⟨refs', ret, -, others⟩
    obtain ⟨next, step, rest⟩ := Outcome.bind_eq_ret.mp ret
    have less := bad next step
    have more := overwriteEach_besides inside known rest
    rw [others] at more
    omega
  · exact fun each => never _ (each kind List.mem_cons_self)

section
variable {before after : List Reference} {r first : Reference} {rest : List Reference}
variable (inside : ∀ k ∈ kinds, k ∈ all) (known : .unknown ∉ all) (mem : kind ∈ all)
variable (named : none ∉ (nodesOf kind (before ++ r :: after)).takeWhile (· ≠ some node))
variable (absent : entries node kind before = []) (here : r.type = kind ∧ r.node = some node)
variable (left : before ++ after = first :: rest)
include inside known mem named absent here left

theorem arrives_filled (unknown : first.type = .unknown) :
    Arrives metas node sent type all (kind :: kinds) (before ++ r :: after) ↔
      ∀ k ∈ kind :: kinds,
        Overwritable node sent type k (1 < (kind :: kinds).count k) (before ++ r :: after) := by
  have some : before ++ after ≠ [] := left ▸ List.cons_ne_nil _ _
  apply arrives_fails inside known
  · intro next step
    rw [overwriteList_filled named absent here left unknown] at step
    rw [← (publishable_eq_ret.mp step).2, besides_append,
      besides_cons_of_pos ⟨here.1 ▸ mem, here.2⟩, ← besides_append, left,
      besides_cons_of_pos ⟨mem, rfl⟩, besides_cons_of_neg fun no => known (unknown ▸ no.1)]
    exact Nat.lt_succ_self _
  · intro again no
    have held : entries node kind (before ++ r :: after) ≠ [] := by
      rw [entries_first here absent]
      exact List.cons_ne_nil _ _
    exact no.typed held (two_of_left some) first (mem_of_left (left ▸ List.mem_cons_self)) unknown

omit mem in
theorem arrives_untyped (unknown : first.type ≠ .unknown)
    (untyped : ¬ ∀ q ∈ before ++ after, q.type ≠ .unknown) :
    Arrives metas node sent type all (kind :: kinds) (before ++ r :: after) ↔
      ∀ k ∈ kind :: kinds,
        Overwritable node sent type k (1 < (kind :: kinds).count k) (before ++ r :: after) := by
  have some : before ++ after ≠ [] := left ▸ List.cons_ne_nil _ _
  apply arrives_fails inside known
  · intro next step
    rw [overwriteList_appended named absent here left unknown] at step
    have typed := (publishable_eq_ret.mp step).1
    exact (untyped fun q mem => typed q (List.mem_append_left _ mem)).elim
  · intro again no
    have held : entries node kind (before ++ r :: after) ≠ [] := by
      rw [entries_first here absent]
      exact List.cons_ne_nil _ _
    exact untyped fun q mem => no.typed held (two_of_left some) q (mem_of_left mem)

theorem arrives_appended (kindsKnown : .unknown ∉ kind :: kinds) (unknown : first.type ≠ .unknown)
    (typed : ∀ q ∈ before ++ after, q.type ≠ .unknown)
    (ih : ∀ refs, Arrives metas node sent type all kinds refs ↔
      ∀ k ∈ kinds, Overwritable node sent type k (1 < kinds.count k) refs) :
    Arrives metas node sent type all (kind :: kinds) (before ++ r :: after) ↔
      ∀ k ∈ kind :: kinds,
        Overwritable node sent type k (1 < (kind :: kinds).count k) (before ++ r :: after) := by
  have some : before ++ after ≠ [] := left ▸ List.cons_ne_nil _ _
  have kindKnown : kind ≠ .unknown := fun no => kindsKnown (no ▸ List.mem_cons_self)
  have own : (written metas node sent kind {}).type = kind ∧
      (written metas node sent kind {}).node = .some node := ⟨rfl, rfl⟩
  have typedNext : ∀ q ∈ before ++ after ++ [written metas node sent kind {}], q.type ≠ .unknown := by
    intro q mem
    rcases List.mem_append.mp mem with mem | mem
    · exact typed q mem
    · rw [List.mem_singleton.mp mem]
      exact kindKnown
  have typedAll : ∀ q ∈ before ++ r :: after, q.type ≠ .unknown := by
    intro q mem
    rcases mem_cases mem with rfl | mem
    · rw [here.1]
      exact kindKnown
    · exact typed q mem
  have step : overwriteList metas node sent kind (before ++ r :: after) =
      .ret (before ++ after ++ [written metas node sent kind {}]) := by
    rw [overwriteList_appended named absent here left unknown]
    exact publishable_eq_ret.mpr ⟨typedNext, rfl⟩
  apply arrives_step (ih _) step kindsKnown
  · rw [besides_append, besides_cons_of_pos ⟨mem, rfl⟩, besides_append, besides_append,
      besides_cons_of_pos ⟨here.1 ▸ mem, here.2⟩]
    exact List.append_nil _
  · rw [entries_moved own, entries_first here absent]
    simp
  · intro k insideK differs again
    have nodes : nodesOf k (before ++ after ++ [written metas node sent kind {}]) =
        nodesOf k (before ++ r :: after) := by
      rw [nodesOf_append, nodesOf_append, nodesOf_append,
        nodesOf_cons_of_ne (r := r) fun no => differs (no.symm.trans here.1),
        nodesOf_cons_of_ne fun no => differs no.symm]
      exact List.append_nil _
    have more : ∀ q, before ++ after ++ [written metas node sent kind {}] ≠ [q] := by
      intro q no
      have length := congrArg List.length no
      rw [left] at length
      simp at length
    exact overwritable_congr nodes (overwriteList_entries differs.symm
      (fun no => known (no ▸ inside k insideK)) step) more (two_of_left some)
      (iff_of_true typedNext typedAll)
  · rw [overwritable_first here absent some named typedAll, overwritable_moved some own typedNext,
      done_moved here absent own rfl]
    tauto

end

/-- The overwrites of a list arrive exactly if each kind of reference can be overwritten. -/
theorem arrives_iff (inside : ∀ k ∈ kinds, k ∈ all) (known : .unknown ∉ all) :
    Arrives metas node sent type all kinds refs ↔
      ∀ k ∈ kinds, Overwritable node sent type k (1 < kinds.count k) refs := by
  induction kinds generalizing refs with
  | nil =>
      exact iff_of_true ⟨refs, rfl, overwritten_iff.mpr (List.forall_mem_nil _), rfl⟩ (List.forall_mem_nil _)
  | cons kind kinds ih =>
      obtain ⟨mem, insideRest⟩ := List.forall_mem_cons.mp inside
      have kindsKnown : .unknown ∉ kind :: kinds := fun no => known (inside _ no)
      by_cases named : none ∈ (nodesOf kind refs).takeWhile (· ≠ some node)
      · refine arrives_fails insideRest known (fun next step => ?_) fun again no => no.named named
        rw [overwriteList_null named] at step
        cases step
      · by_cases absent : entries node kind refs = []
        · refine arrives_step (ih insideRest) (overwriteList_absent named absent) kindsKnown rfl Iff.rfl
            (fun _ _ _ _ => Iff.rfl) ?_
          refine iff_of_true (overwritable_absent named absent) ⟨fun _ => ?_, fun _ => overwritable_absent named absent⟩
          exact ⟨fun some => (some absent).elim, id⟩
        · obtain ⟨before, r, after, rfl, none, here⟩ := exists_first absent
          cases left : before ++ after with
          | nil =>
              obtain ⟨rfl, rfl⟩ := List.append_eq_nil_iff.mp left
              refine arrives_step (ih insideRest) (overwriteList_alone named none here left) kindsKnown rfl
                Iff.rfl (fun _ _ _ _ => Iff.rfl) ?_
              rw [List.nil_append, overwritable_alone here, overwritable_alone here, done_alone here]
              by_cases again : kind ∈ kinds <;> simp [again]
          | cons first rest =>
              by_cases unknown : first.type = .unknown
              · exact arrives_filled insideRest known mem named none here left unknown
              · by_cases typed : ∀ q ∈ before ++ after, q.type ≠ .unknown
                · exact arrives_appended insideRest known mem named none here left kindsKnown unknown typed
                    fun _ => ih insideRest
                · exact arrives_untyped insideRest known named none here left unknown typed

end

theorem referencesToItem_unknown {refs : List Reference} {r : Reference} (mem : r ∈ refs)
    (unknown : r.type = .unknown) : referencesToItem refs = none := by
  induction refs with
  | nil => cases mem
  | cons curr rest ih =>
      rw [referencesToItem]
      rcases List.mem_cons.mp mem with rfl | mem
      · rw [unknown]
        rfl
      · rw [ih mem]
        cases curr.type <;> rfl

theorem publish_eq_ret {server server' : Server} {n : Text} {refs : List Reference}
    (ret : publish server n (referencesToItem refs) = .ret server') :
    (∀ r ∈ refs, r.type ≠ .unknown) ∧ query server' n = refs ∧
      ∀ m, m ≠ n → query server' m = query server m := by
  have typed : ∀ r ∈ refs, r.type ≠ .unknown := fun r mem unknown => by
    rw [referencesToItem_unknown mem unknown] at ret
    cases ret
  obtain ⟨server'', done, own, others⟩ : ∃ server'', publish server n (referencesToItem refs) = .ret server'' ∧
      query server'' n = refs ∧ ∀ m, m ≠ n → query server'' m = query server m := publish_done typed
  rw [done] at ret
  cases ret
  exact ⟨typed, own, others⟩

section
variable {metas : Metas} {node : Text} {sent type : MetaType} {kind : ReferenceType}
  {refs : List Reference} {server server' : Server} {n : Text}

theorem overwritePublish_ret (ret : overwritePublish metas n node kind sent server = .ret server') :
    overwriteList metas node sent kind (query server n) = .ret (query server' n) ∧
      ∀ m, m ≠ n → query server' m = query server m := by
  obtain ⟨left, removed, ret⟩ := Outcome.bind_eq_ret.mp ret
  rw [overwriteList, removed, Outcome.ret_bind]
  cases left with
  | nil =>
      cases ret
      exact ⟨rfl, fun m _ => rfl⟩
  | cons first rest =>
      obtain ⟨refs', added, ret⟩ := Outcome.bind_eq_ret.mp ret
      obtain ⟨typed, own, others⟩ := publish_eq_ret ret
      refine ⟨?_, others⟩
      simp only [added, Outcome.ret_bind]
      exact publishable_eq_ret.mpr ⟨typed, own.symm⟩

theorem overwritePublish_of {refs' : List Reference}
    (ret : overwriteList metas node sent kind (query server n) = .ret refs') :
    ∃ server', overwritePublish metas n node kind sent server = .ret server' := by
  obtain ⟨left, removed, ret⟩ := Outcome.bind_eq_ret.mp ret
  rw [overwritePublish, removed, Outcome.ret_bind]
  cases left with
  | nil => exact ⟨server, rfl⟩
  | cons first rest =>
      obtain ⟨refs'', added, ret⟩ := Outcome.bind_eq_ret.mp ret
      simp only [added, Outcome.ret_bind]
      obtain ⟨server', done, -⟩ := publish_done (publishable_eq_ret.mp ret).1
      exact ⟨server', done⟩

theorem counterpart_known {t k : ReferenceType} (is : counterpart t = some k) :
    t ≠ .unknown ∧ k ≠ .unknown := by
  cases t with
  | unknown => cases is
  | child =>
      cases is
      exact ⟨by decide, by decide⟩
  | parent =>
      cases is
      exact ⟨by decide, by decide⟩

theorem counterpart_unknown {t : ReferenceType} (is : counterpart t = none) : t = .unknown := by
  cases t with
  | unknown => rfl
  | child => cases is
  | parent => cases is

theorem unknown_notMem_kindsAt : .unknown ∉ kindsAt refs n := by
  intro mem
  obtain ⟨r, -, is⟩ := List.mem_filterMap.mp mem
  split at is
  · exact (counterpart_known is).2 rfl
  · cases is

theorem kindsAt_cons_self {r : Reference} (here : r.node = some n) (is : counterpart r.type = some kind) :
    kindsAt (r :: refs) n = kind :: kindsAt refs n := by
  rw [kindsAt, List.filterMap_cons, if_pos here, is]
  rfl

theorem kindsAt_cons_of_ne {r : Reference} (other : r.node ≠ some n) :
    kindsAt (r :: refs) n = kindsAt refs n := by
  rw [kindsAt, List.filterMap_cons, if_neg other]
  rfl

theorem kindsAt_cons_unknown {r : Reference} (is : counterpart r.type = none) :
    kindsAt (r :: refs) n = kindsAt refs n := by
  rw [kindsAt, List.filterMap_cons, is, ite_self]
  rfl

/-- The loop overwrites each list on its own. -/
theorem overwriteAll_ret (ret : overwriteAll metas node sent refs server = .ret server') :
    (∀ r ∈ refs, r.type ≠ .unknown → r.node ≠ none) ∧
      ∀ n, overwriteEach metas node sent (kindsAt refs n) (query server n) = .ret (query server' n) := by
  induction refs generalizing server with
  | nil =>
      cases ret
      exact ⟨List.forall_mem_nil _, fun n => rfl⟩
  | cons currRef rest ih =>
      obtain ⟨next, first, ret⟩ := Outcome.bind_eq_ret.mp ret
      obtain ⟨named, each⟩ := ih ret
      rw [List.forall_mem_cons]
      unfold overwriteAt at first
      split at first
      · next unknown =>
          cases first
          refine ⟨⟨fun known => (known (counterpart_unknown unknown)).elim, named⟩, fun n => ?_⟩
          rw [kindsAt_cons_unknown unknown]
          exact each n
      · cases first
      · next kind other is here =>
          obtain ⟨own, others⟩ := overwritePublish_ret first
          refine ⟨⟨fun _ null => (by rw [here] at null; cases null), named⟩, fun n => ?_⟩
          by_cases same : n = other
          · subst same
            rw [kindsAt_cons_self here is, overwriteEach, own]
            exact each n
          · rw [kindsAt_cons_of_ne fun no => same (Option.some.inj (here.symm.trans no)).symm, ← others n same]
            exact each n

theorem overwriteAll_of (named : ∀ r ∈ refs, r.type ≠ .unknown → r.node ≠ none)
    (each : ∀ n, ∃ refs', overwriteEach metas node sent (kindsAt refs n) (query server n) = .ret refs') :
    ∃ server', overwriteAll metas node sent refs server = .ret server' := by
  induction refs generalizing server with
  | nil => exact ⟨server, rfl⟩
  | cons currRef rest ih =>
      obtain ⟨first, named⟩ := List.forall_mem_cons.mp named
      cases is : counterpart currRef.type with
      | none =>
          rw [overwriteAll, overwriteAt, is, Outcome.ret_bind]
          apply ih named
          intro n
          rw [← kindsAt_cons_unknown is]
          exact each n
      | some kind =>
          obtain ⟨other, here⟩ := Option.ne_none_iff_exists'.mp (first (counterpart_known is).1)
          obtain ⟨refs', ret⟩ := each other
          rw [kindsAt_cons_self here is] at ret
          obtain ⟨next, step, -⟩ := Outcome.bind_eq_ret.mp ret
          obtain ⟨server', published⟩ := overwritePublish_of step
          obtain ⟨own, others⟩ := overwritePublish_ret published
          rw [overwriteAll, overwriteAt, is, here]
          simp only [published, Outcome.ret_bind]
          apply ih named
          intro n
          by_cases same : n = other
          · subst same
            rw [overwriteEach, own] at ret
            exact ⟨refs', ret⟩
          · obtain ⟨refs', ret⟩ := each n
            rw [others n same, ← kindsAt_cons_of_ne fun no => same (Option.some.inj (here.symm.trans no)).symm]
            exact ⟨refs', ret⟩

/-- All lists get the type exactly if each reference of the kinds can be overwritten. -/
theorem overwriteAll_iff (metas : Metas) :
    (∃ server', overwriteAll metas node sent (query server node) server = .ret server' ∧
        Propagated node type server server') ↔
      (∀ r ∈ query server node, r.type ≠ .unknown → r.node ≠ none) ∧
        ∀ n, ∀ k ∈ kindsAt (query server node) n, Overwritable node sent type k
          (1 < (kindsAt (query server node) n).count k) (query server n) := by
  have arrives : ∀ n, Arrives metas node sent type (kindsAt (query server node) n)
      (kindsAt (query server node) n) (query server n) ↔ ∀ k ∈ kindsAt (query server node) n,
        Overwritable node sent type k (1 < (kindsAt (query server node) n).count k) (query server n) :=
    fun n => arrives_iff (fun k mem => mem) unknown_notMem_kindsAt
  simp only [← arrives]
  constructor
  · rintro ⟨server', ret, propagated⟩
    obtain ⟨named, each⟩ := overwriteAll_ret ret
    exact ⟨named, fun n => ⟨_, each n, propagated.overwritten n, propagated.others n⟩⟩
  · rintro ⟨named, all⟩
    obtain ⟨server', ret⟩ := overwriteAll_of named fun n => ⟨_, (all n).choose_spec.1⟩
    have each := (overwriteAll_ret ret).2
    refine ⟨server', ret, fun n => ?_, fun n => ?_, fun n absent => overwriteEach_absent absent (each n)⟩
    · obtain ⟨refs', ret', overwritten, -⟩ := all n
      rw [each n] at ret'
      cases ret'
      exact overwritten
    · obtain ⟨refs', ret', -, others⟩ := all n
      rw [each n] at ret'
      cases ret'
      exact others

end

theorem done_self {node : Text} {type : MetaType} {kind : ReferenceType} {refs : List Reference} :
    Done node type kind refs refs ↔ Settled node type kind refs := by
  unfold Done Settled
  by_cases absent : entries node kind refs = []
  · simp [absent]
  · simp [absent]

theorem propagated_self {node : Text} {type : MetaType} {server : Server} :
    Propagated node type server server ↔
      ∀ n, ∀ k ∈ kindsAt (query server node) n, Settled node type k (query server n) := by
  constructor
  · intro propagated n k mem
    exact done_self.mp (overwritten_iff.mp (propagated.overwritten n) k mem)
  · intro settled
    refine ⟨fun n => overwritten_iff.mpr fun k mem => done_self.mpr (settled n k mem), fun n => rfl, fun n _ => rfl⟩

/-- The type of a meta after the merge. -/
theorem mergeUpdate_metaType {current merged : Meta} {update : MetaUpdate}
    (ret : mergeUpdate current update = .ret merged) :
    merged.metaType = ((update.meta_.map Meta.metaType).filter (· ≠ .unknown)).getD current.metaType := by
  obtain ⟨start, first, ret⟩ := Outcome.bind_eq_ret.mp ret
  obtain ⟨transducers, -, ret⟩ := Outcome.bind_eq_ret.mp ret
  obtain ⟨properties, -, ret⟩ := Outcome.bind_eq_ret.mp ret
  cases ret
  cases given : update.meta_ with
  | none =>
      rw [given] at first
      cases first
      rfl
  | some m =>
      rw [given, mergeGiven] at first
      unfold metaMerge at first
      split at first
      · cases first
      · cases first
        cases type : m.metaType <;> simp [type, Option.filter]

section
variable {metas : Text → Meta} {node : Text} {server : Server}

theorem overwriteGiven_eq (update : MetaUpdate) :
    overwriteGiven metas node server update.meta_ =
      match (Change.merge update).sent (metas node).metaType with
      | none => .ret server
      | some sent => overwriteAll (answers metas) node sent (query server node) server := by
  obtain ⟨given, transducers, properties⟩ := update
  unfold overwriteGiven Change.sent
  cases given with
  | none => rfl
  | some given =>
      by_cases same : given.metaType = (metas node).metaType
      · simp [same, Option.filter]
      · simp [same, Option.filter]

theorem bind_pair_iff {x : Outcome Undefined Server} {server' : Server} {merged m : Meta} :
    (x >>= fun server => .ret (server, merged)) = .ret (server', m) ↔ x = .ret server' ∧ m = merged := by
  rw [Outcome.bind_eq_ret]
  constructor
  · rintro ⟨a, done, same⟩
    cases same
    exact ⟨done, rfl⟩
  · rintro ⟨done, rfl⟩
    exact ⟨_, done, rfl⟩

/-- A change that goes through has published the node's own meta. -/
theorem publishes_of_run {change : Change} {server' : Server} {published : Meta}
    (ran : change.run metas node server = .ret (server', published)) : change.Publishes metas node := by
  cases change with
  | remove => trivial
  | merge update =>
      obtain ⟨_, _, ran⟩ := Outcome.bind_eq_ret.mp ran
      obtain ⟨merged, ret, ran⟩ := Outcome.bind_eq_ret.mp ran
      obtain ⟨_, done, _⟩ := Outcome.bind_eq_ret.mp ran
      exact ⟨merged, ret, done⟩

/-- Where its own publish succeeds, a change of a meta is propagated exactly if it works. -/
theorem propagates_of_publishes {change : Change} (published : change.Publishes metas node) :
    Propagates metas node server change ↔ change.Works metas node server := by
  unfold Propagates Change.Works
  cases change with
  | remove =>
      have blank : Function.update metas node {} node = {} := Function.update_self ..
      simp only [Change.run, metaRemovePublish, Outcome.pure_eq_ret, bind_pair_iff, Change.sent, blank]
      refine Iff.trans ?_ (overwriteAll_iff (answers (Function.update metas node {})))
      constructor
      · rintro ⟨server', m, ⟨all, rfl⟩, propagated⟩
        exact ⟨server', all, propagated⟩
      · rintro ⟨server', all, propagated⟩
        exact ⟨server', _, ⟨all, rfl⟩, propagated⟩
  | merge update =>
      obtain ⟨merged, ret, published⟩ := published
      have type : merged.metaType = (Change.merge update).type (metas node).metaType :=
        mergeUpdate_metaType ret
      simp only [Change.run, metaMergePublish, overwriteGiven_eq, ret, published, Outcome.ret_bind,
        Outcome.pure_eq_ret, bind_pair_iff]
      rw [← type]
      split
      · next none =>
          rw [← propagated_self]
          constructor
          · rintro ⟨server', m, ⟨same, rfl⟩, propagated⟩
            cases same
            exact propagated
          · exact fun propagated => ⟨server, merged, ⟨rfl, rfl⟩, propagated⟩
      · next sent some =>
          refine Iff.trans ?_ (overwriteAll_iff (answers metas))
          constructor
          · rintro ⟨server', m, ⟨all, rfl⟩, propagated⟩
            exact ⟨server', all, propagated⟩
          · rintro ⟨server', all, propagated⟩
            exact ⟨server', merged, ⟨all, rfl⟩, propagated⟩

/-- A change of a meta is propagated exactly if the node's own meta is published and it works. -/
theorem propagates_iff (metas : Text → Meta) (node : Text) (server : Server) (change : Change) :
    Propagates metas node server change ↔ change.Publishes metas node ∧ change.Works metas node server := by
  constructor
  · rintro ⟨server', published, ran, propagated⟩
    have publishes := publishes_of_run ran
    exact ⟨publishes, (propagates_of_publishes publishes).mp ⟨server', published, ran, propagated⟩⟩
  · rintro ⟨publishes, works⟩
    exact (propagates_of_publishes publishes).mpr works

end

def devices : Text → Meta := fun _ => { metaType := .device }

def relocate : Change := .merge { meta_ := some { metaType := .location, timestamp := some ['0'] } }

theorem relocate_publishes : relocate.Publishes devices ['a'] := ⟨_, rfl, rfl⟩

/-- a has the child b, whose references are `back`. -/
def family (back : Item) : Server := fun n =>
  if n = ['a'] then [[(.type, "child".toList), (.node, ['b'])]] else if n = ['b'] then back else []

def toParent : List (Key × Text) :=
  [(.type, "parent".toList), (.metaType, "device".toList), (.node, ['a'])]

theorem propagates_iff_two :
    Propagates devices ['a'] (family [toParent, [(.type, "parent".toList), (.node, ['c'])]]) relocate := by
  refine (propagates_iff _ _ _ _).mpr ⟨relocate_publishes, by decide, fun n k mem => ?_⟩
  have here : n = ['b'] := by
    by_contra other
    have no : kindsAt (query (family [toParent, [(.type, "parent".toList), (.node, ['c'])]]) ['a']) n = [] :=
      kindsAt_cons_of_ne fun same => other (Option.some.inj same).symm
    rw [no] at mem
    cases mem
  subst here
  obtain rfl : k = .parent := List.mem_singleton.mp mem
  exact ⟨by decide, .inr ⟨_, rfl, .inr ⟨by decide, rfl, by decide, fun again => absurd again (by decide)⟩⟩⟩

/-- A child with the parent as its only reference goes on saying device. -/
theorem only_reference_stays :
    relocate.Publishes devices ['a'] ∧ ¬ Propagates devices ['a'] (family [toParent]) relocate := by
  refine ⟨relocate_publishes, ?_⟩
  rintro ⟨server', published, run, propagated⟩
  have ran : relocate.run devices ['a'] (family [toParent]) =
      .ret (family [toParent], { metaType := .location, timestamp := some ['0'] }) := rfl
  rw [ran] at run
  cases run
  obtain ⟨r, only, type⟩ := (propagated.overwritten ['b']).one .parent (by decide) (by decide)
  cases only
  cases type

end Mio.LibMio.References
