import Mathlib.Data.List.ReduceOption
import Mathlib.Order.Nat
import Mathlib.Tactic.IntervalCases
import Mio.Tools.MioClient

/-! Refreshing collections: what `update_children` keeps of the known nodes, and when it does with the
children and the time of a collection what it should. -/
namespace Mio.Tools.MioFS

namespace Client

/-- A node that a path can lead to. -/
def Inner (s : Client) (a : ℕ) : Prop := a ∈ s.nodesH ∨ 0 < a ∧ a < 4

def Handle (s : Client) (a : ℕ) : Prop := a ∈ s.nodesH ∨ a < 4

theorem Inner.handle {s : Client} {a : ℕ} (inner : s.Inner a) : s.Handle a := inner.imp_right And.right

/-- `nodesH` holds one object for an id, and the nodes hang together through it. -/
structure Known (s : Client) : Prop where
  fresh : 4 ≤ s.fresh
  distinct : s.nodesH.Nodup
  unique : ∀ a ∈ s.nodesH, ∀ b ∈ s.nodesH, (s.node a).id = (s.node b).id → a = b
  hash : ∀ a ∈ s.nodesH, 4 ≤ a ∧ a < s.fresh ∧ (s.node a).isMiofsArtifact = false ∧
    ∃ id, (s.node a).id = some id
  children : ∀ a ∈ s.nodesH, ∀ c ∈ (s.node a).children, c ∈ s.nodesH
  folder : ∀ a < 4, (s.node a).isMiofsArtifact = true ∧ (0 < a → ∃ id, (s.node a).id = some id)
  folderChildren : ∀ a < 4, ∀ c ∈ (s.node a).children, s.Inner c

/-- Every known node stays known, under its id. -/
structure Keeps (s s' : Client) : Prop where
  nodesH : ∀ a ∈ s.nodesH, a ∈ s'.nodesH
  id : ∀ a < s.fresh, (s'.node a).id = (s.node a).id
  fresh : s.fresh ≤ s'.fresh

theorem Keeps.refl (s : Client) : s.Keeps s := ⟨fun _ mem => mem, fun _ _ => rfl, le_rfl⟩

theorem Keeps.trans {s t u : Client} (first : s.Keeps t) (second : t.Keeps u) : s.Keeps u :=
  ⟨fun a mem => second.nodesH a (first.nodesH a mem),
    fun a lt => (second.id a (lt.trans_le first.fresh)).trans (first.id a lt),
    first.fresh.trans second.fresh⟩

section Steps

variable {s : Client} {a : ℕ} {n : MioNode}

theorem set_same {β : Type} (f : MioNode → β) (same : f n = f (s.node a)) (b : ℕ) :
    f ((s.set a n).node b) = f (s.node b) := by
  by_cases here : b = a
  · rw [here, set_node_self, same]
  · rw [set_node_of_ne s here]

theorem keeps_set (id : n.id = (s.node a).id) : s.Keeps (s.set a n) :=
  ⟨fun _ mem => mem, fun b _ => set_same MioNode.id id b, le_rfl⟩

theorem Known.set (k : s.Known) (id : n.id = (s.node a).id)
    (kind : n.isMiofsArtifact = (s.node a).isMiofsArtifact)
    (children : ∀ c ∈ n.children, c ∈ (s.node a).children ∨ c ∈ s.nodesH) : (s.set a n).Known := by
  have ids := set_same MioNode.id id
  have kinds := set_same MioNode.isMiofsArtifact kind
  have below : ∀ b, ∀ c ∈ ((s.set a n).node b).children, c ∈ (s.node b).children ∨ c ∈ s.nodesH := by
    intro b c mem
    by_cases same : b = a
    · rw [same, set_node_self] at mem
      rw [same]
      exact children c mem
    · rw [set_node_of_ne s same] at mem
      exact .inl mem
  constructor
  · exact k.fresh
  · exact k.distinct
  · intro b mem c mem' eq
    rw [ids, ids] at eq
    exact k.unique b mem c mem' eq
  · intro b mem
    rw [ids, kinds]
    exact k.hash b mem
  · intro b mem c child
    rcases below b c child with old | known
    · exact k.children b mem c old
    · exact known
  · intro b lt
    rw [ids, kinds]
    exact k.folder b lt
  · intro b lt c child
    rcases below b c child with old | known
    · exact k.folderChildren b lt c old
    · exact .inl known

theorem Known.append (k : s.Known) {c : ℕ} (known : c ∈ s.nodesH) : (s.append a c).Known := by
  apply k.set (n := { s.node a with children := (s.node a).children ++ [c] }) rfl rfl
  intro d mem
  rcases List.mem_append.mp mem with old | new
  · exact .inl old
  · exact .inr (List.mem_singleton.mp new ▸ known)

theorem hashFind_some {id : Text} (found : s.hashFind id = some a) :
    a ∈ s.nodesH ∧ (s.node a).id = some id :=
  ⟨List.mem_of_find?_eq_some found, by simpa using List.find?_some found⟩

theorem hashFind_none {id : Text} (missing : s.hashFind id = none) :
    ∀ b ∈ s.nodesH, (s.node b).id ≠ some id := by
  intro b mem
  simpa using List.find?_eq_none.mp missing b mem

theorem malloc_node_of_ne {b : ℕ} (ne : b ≠ s.fresh) : (s.malloc n).node b = s.node b :=
  set_node_of_ne s ne n

theorem malloc_node_self : (s.malloc n).node s.fresh = n := set_node_self s s.fresh n

theorem keeps_malloc : s.Keeps (s.malloc n) :=
  ⟨fun _ mem => mem, fun _ lt => by rw [malloc_node_of_ne lt.ne], Nat.le_succ _⟩

/-- Memory that nothing points to. -/
theorem Known.malloc (k : s.Known) (n : MioNode) : (s.malloc n).Known := by
  have old : ∀ b ∈ s.nodesH, (s.malloc n).node b = s.node b := fun b mem =>
    malloc_node_of_ne (k.hash b mem).2.1.ne
  have low : ∀ b < 4, (s.malloc n).node b = s.node b := fun b lt =>
    malloc_node_of_ne (lt.trans_le k.fresh).ne
  constructor
  · exact Nat.le_succ_of_le k.fresh
  · exact k.distinct
  · intro b mem c mem' eq
    rw [old b mem, old c mem'] at eq
    exact k.unique b mem c mem' eq
  · intro b mem
    obtain ⟨high, lt, rest⟩ := k.hash b mem
    rw [old b mem]
    exact ⟨high, Nat.lt_succ_of_lt lt, rest⟩
  · intro b mem
    rw [old b mem]
    exact k.children b mem
  · intro b lt
    rw [low b lt]
    exact k.folder b lt
  · intro b lt
    rw [low b lt]
    exact k.folderChildren b lt

/-- A node without children enters under a new id. -/
theorem Known.hashAdd (k : s.Known) (id : Text) (used : a < s.fresh) (high : 4 ≤ a)
    (new : ∀ b ∈ s.nodesH, (s.node b).id ≠ some id) (own : (s.node a).id = some id)
    (kind : (s.node a).isMiofsArtifact = false) (leaf : (s.node a).children = []) :
    (s.hashAdd a).Known := by
  have out : a ∉ s.nodesH := fun mem => new a mem own
  constructor
  · exact k.fresh
  · exact List.nodup_append.mpr ⟨k.distinct, List.nodup_singleton a,
      fun b mem c mem' eq => out (List.mem_singleton.mp mem' ▸ eq ▸ mem)⟩
  · intro b mem c mem' eq
    rcases List.mem_append.mp mem with mem | mem <;> rcases List.mem_append.mp mem' with mem' | mem'
    · exact k.unique b mem c mem' eq
    · cases List.mem_singleton.mp mem'
      exact absurd (eq.trans own) (new b mem)
    · cases List.mem_singleton.mp mem
      exact absurd (eq.symm.trans own) (new c mem')
    · rw [List.mem_singleton.mp mem, List.mem_singleton.mp mem']
  · intro b mem
    rcases List.mem_append.mp mem with mem | mem
    · exact k.hash b mem
    · cases List.mem_singleton.mp mem
      exact ⟨high, used, kind, id, own⟩
  · intro b mem c child
    rcases List.mem_append.mp mem with mem | mem
    · exact List.mem_append_left _ (k.children b mem c child)
    · cases List.mem_singleton.mp mem
      have none : c ∈ (s.node a).children := child
      rw [leaf] at none
      cases none
  · exact k.folder
  · intro b lt c child
    exact (k.folderChildren b lt c child).imp_left (List.mem_append_left _)

theorem keeps_hashAdd : s.Keeps (s.hashAdd a) :=
  ⟨fun _ mem => List.mem_append_left _ mem, fun _ _ => rfl, le_rfl⟩

theorem search_eq (id : Text) {l : List ℕ} (named : ∀ c ∈ l, ∃ own, (s.node c).id = some own) :
    s.search id l = .ret (l.find? fun c => (s.node c).id = some id) := by
  induction l with
  | nil => rfl
  | cons c l ih =>
      obtain ⟨⟨own, eq⟩, others⟩ := List.forall_mem_cons.mp named
      rw [search, eq]
      dsimp only
      by_cases same : own = id
      · rw [if_pos same, List.find?_cons_of_pos (by simp [eq, same])]
      · rw [if_neg same, List.find?_cons_of_neg (by simp [eq, same]), ih others]

end Steps

end Client

open Client

section Call

variable {s : Client} {a : ℕ}

/-- An item with an id leads to the object of the id: a child from before, another known node, or a
new one. -/
theorem addItems_some (typeOf : Text → NodeType) (k : s.Known) (used : a < s.fresh) {old : List ℕ}
    (known : ∀ c ∈ old, c ∈ s.nodesH) (id : Text) (items : List (Option Text)) :
    ∃ s' c old', addItems a typeOf old s (some id :: items) = addItems a typeOf old' (s'.append a c) items ∧
      s'.Known ∧ s.Keeps s' ∧ s'.node a = s.node a ∧ (∀ d ∈ old', d ∈ s'.nodesH) ∧
      c ∈ s'.nodesH ∧ (s'.node c).id = some id := by
  have search := s.search_eq id fun c mem => (k.hash c (known c mem)).2.2.2
  rw [addItems, search, Outcome.ret_bind]
  cases found : old.find? fun c => (s.node c).id = some id with
  | some c =>
      have mem := List.mem_of_find?_eq_some found
      have own : (s.node c).id = some id := by simpa using List.find?_some found
      exact ⟨s, c, old.erase c, rfl, k, .refl s, rfl, fun d left => known d (List.mem_of_mem_erase left),
        known c mem, own⟩
  | none =>
      dsimp only
      cases hashed : s.hashFind id with
      | some c =>
          obtain ⟨mem, own⟩ := hashFind_some hashed
          exact ⟨s, c, old, rfl, k, .refl s, rfl, known, mem, own⟩
      | none =>
          have missing := hashFind_none hashed
          have grown := k.malloc { id := some id, type := typeOf id }
          have self := s.malloc_node_self (n := { id := some id, type := typeOf id })
          refine ⟨_, s.fresh, old, rfl, grown.hashAdd id (Nat.lt_succ_self _) k.fresh ?_ ?_ ?_ ?_,
            keeps_malloc.trans keeps_hashAdd, malloc_node_of_ne used.ne,
            fun d mem => List.mem_append_left _ (known d mem), ?_, ?_⟩
          · intro b mem
            rw [malloc_node_of_ne (k.hash b mem).2.1.ne]
            exact missing b mem
          · rw [self]
          · rw [self]
          · rw [self]
          · exact List.mem_append_right _ (List.mem_singleton.mpr rfl)
          · exact congrArg MioNode.id self

theorem addItems_ret (typeOf : Text → NodeType) (items : List (Option Text)) (k : s.Known)
    (used : a < s.fresh) {old : List ℕ} (known : ∀ c ∈ old, c ∈ s.nodesH) :
    ∃ s' new, addItems a typeOf old s items = .ret s' ∧ s'.Known ∧ s.Keeps s' ∧
      s'.node a = { s.node a with children := (s.node a).children ++ new } ∧
      (∀ c ∈ new, c ∈ s'.nodesH) ∧ new.map (fun c => (s'.node c).id) = items.reduceOption.map some := by
  induction items generalizing s old with
  | nil =>
      refine ⟨s, [], rfl, k, .refl s, ?_, fun c mem => (by cases mem), rfl⟩
      rw [List.append_nil]
  | cons item items ih =>
      cases item with
      | none =>
          rw [List.reduceOption_cons_of_none]
          exact ih k used known
      | some id =>
          obtain ⟨s₁, c, old', step, k₁, kept, self, known', mem, own⟩ :=
            addItems_some typeOf k used known id items
          have used' : a < (s₁.append a c).fresh := used.trans_le kept.fresh
          obtain ⟨s', new, run, k', more, node, there, ids⟩ := ih (k₁.append mem) used' known'
          have appended : s₁.Keeps (s₁.append a c) := keeps_set rfl
          have whole := appended.trans more
          refine ⟨s', c :: new, step.trans run, k', kept.trans whole, ?_, ?_, ?_⟩
          · have list : (s₁.append a c).node a =
                { s.node a with children := (s.node a).children ++ [c] } := by
              rw [Client.append, set_node_self, self]
            rw [node, list, List.append_assoc]
            rfl
          · exact List.forall_mem_cons.mpr ⟨whole.nodesH c mem, there⟩
          · have kept : (s'.node c).id = (s₁.node c).id := whole.id c (k₁.hash c mem).2.1
            rw [List.map_cons, ids, kept, own, List.reduceOption_cons_of_some]
            rfl

/-- The data of the node are too old, so that the server is asked. -/
def Asks (s : Client) (a : ℕ) (reply : Reply) : Prop :=
  (s.node a).isMiofsArtifact = false ∧ (s.node a).modificationTime.sec + s.dataTimeout ≤ reply.now.sec

/-- What a call does with the node it is for. A query that fails leaves the time as it was, so that the
next call asks again. -/
structure Refreshed (s : Client) (a : ℕ) (reply : Reply) (s' : Client) (result : ℤ) : Prop where
  success : Asks s a reply → ∀ items, reply.collections = some items → result = 0 ∧
    (s'.node a).children.map (fun c => (s'.node c).id) = items.reduceOption.map some ∧
    ∀ c ∈ (s'.node a).children, c ∈ s'.nodesH
  failure : Asks s a reply → reply.collections = none → result ≠ 0 ∧
    (s'.node a).children = (s.node a).children ∧
    (s'.node a).modificationTime = (s.node a).modificationTime

/-- A query that fails does so at the time of the data. -/
def Timely (s : Client) (a : ℕ) (reply : Reply) : Prop :=
  Asks s a reply → reply.collections = none → reply.now = (s.node a).modificationTime

/-- Without a query there is nothing to do. -/
theorem refreshed_iff_of_quiet {reply : Reply} (quiet : ¬ Asks s a reply) (s' : Client) (result : ℤ) :
    Refreshed s a reply s' result ↔ Timely s a reply :=
  iff_of_true ⟨fun asks => absurd asks quiet, fun asks => absurd asks quiet⟩ fun asks => absurd asks quiet

theorem updateChildren_ret (k : s.Known) (handle : s.Handle a) (reply : Reply) :
    ∃ s' result, updateChildren s (some a) reply = .ret (s', result) ∧ s'.Known ∧ s.Keeps s' ∧
      (Refreshed s a reply s' result ↔ Timely s a reply) := by
  unfold updateChildren
  dsimp only
  by_cases own : (s.node a).isMiofsArtifact
  · have quiet : ¬ Asks s a reply := fun asks => absurd own (by rw [asks.1]; decide)
    rw [if_pos own]
    exact ⟨s, 0, rfl, k, .refl s, refreshed_iff_of_quiet quiet s 0⟩
  rw [if_neg own]
  have mem : a ∈ s.nodesH := handle.resolve_right fun lt => own (k.folder a lt).1
  by_cases current : (s.node a).modificationTime.sec + s.dataTimeout > reply.now.sec
  · have quiet : ¬ Asks s a reply := fun asks => absurd asks.2 (Int.not_le.mpr current)
    rw [if_pos current]
    exact ⟨s, 0, rfl, k, .refl s, refreshed_iff_of_quiet quiet s 0⟩
  rw [if_neg current]
  have asks : Asks s a reply := ⟨by simpa using own, Int.not_lt.mp current⟩
  have stamped : (s.set a { s.node a with modificationTime := reply.now }).Known :=
    k.set rfl rfl fun c child => .inl child
  cases answer : reply.collections with
  | none =>
      refine ⟨_, 1, rfl, stamped, keeps_set rfl, ?_⟩
      constructor
      · intro right _ _
        have time := (right.failure asks answer).2.2
        rwa [set_node_self] at time
      · intro timely
        refine ⟨fun _ items some => (by rw [answer] at some; cases some), fun _ _ => ⟨by decide, ?_⟩⟩
        rw [set_node_self]
        exact ⟨rfl, timely asks answer⟩
  | some items =>
      have emptied := stamped.set (a := a)
        (n := { (s.set a { s.node a with modificationTime := reply.now }).node a with children := [] })
        rfl rfl fun c none => by cases none
      have old : ∀ c ∈ ((s.set a { s.node a with modificationTime := reply.now }).node a).children,
          c ∈ s.nodesH := by
        rw [set_node_self]
        exact k.children a mem
      obtain ⟨s', new, run, k', kept, node, there, ids⟩ :=
        addItems_ret reply.typeOf items emptied (k.hash a mem).2.1 old
      have list : (s'.node a).children = new := by
        rw [node, set_node_self, List.nil_append]
      have whole : s.Keeps s' := by
        refine Keeps.trans (Keeps.trans (keeps_set ?_) (keeps_set ?_)) kept <;> rfl
      refine ⟨s', 0, ?_, k', whole, iff_of_true ⟨fun _ items' same => ?_, fun _ none => ?_⟩ fun _ none => ?_⟩
      · dsimp only
        rw [run]
        rfl
      · rw [answer] at same
        cases same
        rw [list]
        exact ⟨rfl, ids, there⟩
      · rw [answer] at none
        cases none
      · rw [answer] at none
        cases none

end Call

/-- What holds of every call of a run, each from the state that the one before has left. -/
def Along (P : Client → ℕ → Reply → Client → ℤ → Prop) (s : Client) : List (ℕ × Reply) → Prop
  | [] => True
  | (a, reply) :: calls =>
      ∃ s' result, updateChildren s (some a) reply = .ret (s', result) ∧ P s a reply s' result ∧
        Along P s' calls

/-- Each call is for a node that is known by then. -/
def Handles (s : Client) : List (ℕ × Reply) → Prop
  | [] => True
  | (a, reply) :: calls =>
      s.Handle a ∧ ∀ s' result, updateChildren s (some a) reply = .ret (s', result) → Handles s' calls

def OneObject (s : Client) : Prop :=
  s.nodesH.Nodup ∧ ∀ a ∈ s.nodesH, ∀ b ∈ s.nodesH, (s.node a).id = (s.node b).id → a = b

theorem along_ret {s : Client} (k : s.Known) {calls : List (ℕ × Reply)} (handles : Handles s calls) :
    Along (fun s _ _ s' _ => OneObject s' ∧ s.Keeps s') s calls ∧
      (Along Refreshed s calls ↔ Along (fun s a reply _ _ => Timely s a reply) s calls) := by
  induction calls generalizing s with
  | nil => exact ⟨trivial, Iff.rfl⟩
  | cons call calls ih =>
      obtain ⟨a, reply⟩ := call
      obtain ⟨s', result, run, k', kept, right⟩ := updateChildren_ret k handles.1 reply
      obtain ⟨objects, rest⟩ := ih k' (handles.2 s' result run)
      have next : ∀ P, Along P s ((a, reply) :: calls) ↔ P s a reply s' result ∧ Along P s' calls := by
        intro P
        constructor
        · rintro ⟨t, value, again, first, others⟩
          rw [run] at again
          cases again
          exact ⟨first, others⟩
        · exact fun both => ⟨s', result, run, both⟩
      rw [next, next, next, right, rest]
      exact ⟨⟨⟨⟨k'.distinct, k'.unique⟩, kept⟩, objects⟩, Iff.rfl⟩

theorem known_subscriptions {s : Client} (k : s.Known) (subs : List (Text × NodeType)) :
    (processSubscriptionsPacket s subs).1.Known := by
  induction subs generalizing s with
  | nil => exact k
  | cons sub subs ih =>
      obtain ⟨id, type⟩ := sub
      rw [processSubscriptionsPacket]
      cases hashed : s.hashFind id with
      | some c => exact ih k
      | none =>
          dsimp only
          have found := s.malloc_node_self (n := { id := some id, type })
          have grown := k.malloc { id := some id, type }
          by_cases failed : type = .failed
          · rw [if_pos failed]
            exact grown
          rw [if_neg failed]
          have marked := grown.set (a := s.fresh)
            (n := { (s.malloc { id := some id, type }).node s.fresh with isSubscribed := true })
            rfl rfl fun c child => .inl child
          have entered := marked.hashAdd (a := s.fresh) id (Nat.lt_succ_self _) k.fresh
            (by
              intro b mem
              have differs : b ≠ s.fresh := (k.hash b mem).2.1.ne
              rw [set_node_of_ne _ differs, malloc_node_of_ne differs]
              exact hashFind_none hashed b mem)
            (by rw [set_node_self, found]) (by rw [set_node_self, found]) (by rw [set_node_self, found])
          have mem : s.fresh ∈ (((s.malloc { id := some id, type }).set s.fresh
              { (s.malloc { id := some id, type }).node s.fresh with isSubscribed := true }).hashAdd
                s.fresh).nodesH := List.mem_append_right _ (List.mem_singleton.mpr rfl)
          have listed := entered.append (a := nSubs) mem
          split
          · exact ih (listed.append mem)
          · exact ih listed

theorem known_init (timeout : ℤ) (now : Timespec) (subscriptions : Option (List (Text × NodeType))) :
    (mioClientInit timeout now subscriptions).Known := by
  have start : Client.Known ⟨folders now, 4, [], timeout⟩ := by
    constructor
    · exact le_rfl
    · exact List.nodup_nil
    · intro a mem
      cases mem
    · intro a mem
      cases mem
    · intro a mem
      cases mem
    · intro a lt
      refine ⟨by interval_cases a <;> rfl, fun pos => ?_⟩
      interval_cases a <;> exact ⟨_, rfl⟩
    · intro a lt c child
      have first : a = 0 := by
        by_contra later
        have none : (folders now a).children = [] := by interval_cases a <;> first | rfl | exact absurd rfl later
        have child : c ∈ (folders now a).children := child
        rw [none] at child
        cases child
      subst first
      have child : c ∈ [nSubs, nSubsColRoot, nColRoot] := child
      have place : c = 1 ∨ c = 2 ∨ c = 3 := by simpa using child
      right
      constructor <;> omega
  cases subscriptions with
  | none => exact start
  | some subs => exact known_subscriptions start subs

/-- In every run `nodesH` keeps one object for an id, and each call does what it should if and only if
no query fails later than the time of the data. -/
theorem refresh_runs (timeout : ℤ) (now : Timespec) (subscriptions : Option (List (Text × NodeType)))
    {calls : List (ℕ × Reply)} (handles : Handles (mioClientInit timeout now subscriptions) calls) :
    OneObject (mioClientInit timeout now subscriptions) ∧
      Along (fun s _ _ s' _ => OneObject s' ∧ s.Keeps s') (mioClientInit timeout now subscriptions) calls ∧
      (Along Refreshed (mioClientInit timeout now subscriptions) calls ↔
        Along (fun s a reply _ _ => Timely s a reply) (mioClientInit timeout now subscriptions) calls) :=
  have k := known_init timeout now subscriptions
  ⟨⟨k.distinct, k.unique⟩, along_ret k handles⟩

def subscribed : Client :=
  mioClientInit 300 ⟨0, 0⟩ (some [(text "room" (by decide), .collection)])

def answered (collections : Option (List (Option Text))) : Reply := ⟨⟨1000, 0⟩, collections, fun _ => .leaf⟩

theorem handles_one (reply : Reply) : Handles subscribed [(4, reply)] :=
  ⟨.inl (by decide), fun _ _ _ => trivial⟩

theorem refresh_runs_twice_one_id :
    Along Refreshed subscribed
      [(4, answered (some [some (text "lamp" (by decide)), none, some (text "lamp" (by decide))]))] :=
  (refresh_runs 300 ⟨0, 0⟩ (some [(text "room" (by decide), .collection)]) (handles_one _)).2.2.mpr
    ⟨_, _, rfl, (fun _ none => by cases none), trivial⟩

/-- A query that fails leaves its own time. -/
theorem failure_stamped :
    ¬ ∀ timeout now subscriptions calls, Handles (mioClientInit timeout now subscriptions) calls →
      Along Refreshed (mioClientInit timeout now subscriptions) calls := by
  intro all
  obtain ⟨s', result, run, right, -⟩ := all 300 ⟨0, 0⟩ (some [(text "room" (by decide), .collection)])
    [(4, answered none)] (handles_one _)
  cases run
  have time := (right.failure ⟨rfl, by decide⟩ rfl).2.2
  exact absurd time (by decide)

end Mio.Tools.MioFS
