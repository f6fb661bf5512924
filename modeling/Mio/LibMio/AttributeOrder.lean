import Mio.LibMio.ErrorReplies
import Mio.LibMio.Strophe

/-! The order of attributes in the lists of subscriptions and affiliations. Before a reply is parsed,
libstrophe writes its attributes in an order of its own. -/
namespace Mio.LibMio.Replies

open Strophe (Hashable Rendered hashKey written writtenStarts)

/-- Whatever the order in which the attributes of the reply stand, the handler leaves the same. -/
def OrderFree (h : ReplyHandler) (type : ResponseType) (reply : MioStanza) : Prop :=
  ∀ reply', Xml.Reordered [reply] [reply'] → ∀ calls calls', Rendered reply calls → Rendered reply' calls' →
    ∀ r, h.answer type calls = .ret r ↔ h.answer type calls' = .ret r

/-- An attribute cannot be set, there is an error with a type or an entry without a `jid` and a `node`,
or no sub id that says something shares the last list of its table. -/
def KeepsSubIds (es : List Elem) : Prop :=
  (∃ e ∈ es, ¬ Hashable e.attributes) ∨ (∃ e ∈ es, (errorOf e).isSome) ∨
    (∃ e ∈ es, e.name = .subscription ∧ e.attributes.get .jid = none ∧ e.attributes.get .node = none) ∨
    ∀ e ∈ es, e.name = .subscription → ∀ subId ∈ e.attributes.get .subid, subId ≠ [] →
      ∀ p ∈ e.attributes.entries, hashKey p.1.text = 7 → p.1 = .subid

instance (es : List Elem) : Decidable (KeepsSubIds es) := by
  unfold KeepsSubIds
  infer_instance

theorem foldl_jidNode_kept {reported : List (Attr × List Char)} {curr : Option (List Char)}
    (others : ∀ p ∈ reported, p.1 ≠ .jid ∧ p.1 ≠ .node) : reported.foldl jidNodeAttribute curr = curr := by
  induction reported with
  | nil => rfl
  | cons p reported ih =>
      obtain ⟨⟨jid, node⟩, later⟩ := List.forall_mem_cons.mp others
      obtain ⟨key, text⟩ := p
      have kept : jidNodeAttribute curr (key, text) = curr := by
        cases key <;> first | rfl | exact absurd rfl jid | exact absurd rfl node
      rw [List.foldl_cons, kept]
      exact ih later

/-- The `node` is written behind the `jid`. -/
theorem foldl_jidNode_written (a : Xml.Attributes Attr) :
    (written a).entries.foldl jidNodeAttribute none = (a.get .node).or (a.get .jid) := by
  have jidAt : hashKey Attr.jid.text = 2 := by decide +kernel
  have nodeAt : hashKey Attr.node.text = 6 := by decide +kernel
  have jid : (written a).get .jid = a.get .jid := Strophe.get_written (by omega) (by omega)
  have node : (written a).get .node = a.get .node := Strophe.get_written (by omega) (by omega)
  have order := Strophe.pairwise_written a
  have distinct := (written a).distinct
  rw [← jid, ← node]
  cases hasNode : (written a).get .node with
  | some text =>
      obtain ⟨before, after, split⟩ := List.append_of_mem (Xml.Attributes.mem_entries.mpr hasNode)
      rw [split] at order distinct ⊢
      rw [List.map_append, List.map_cons, List.nodup_append, List.nodup_cons] at distinct
      rw [List.foldl_append, List.foldl_cons]
      refine foldl_jidNode_kept fun p mem => ⟨fun same => ?_, fun same => ?_⟩
      · have le : hashKey Attr.node.text ≤ hashKey p.1.text :=
          (List.pairwise_cons.mp (List.pairwise_append.mp order).2.1).1 p mem
        rw [same] at le
        omega
      · exact distinct.2.1.1 (List.mem_map.mpr ⟨p, mem, same⟩)
  | none =>
      have noNode := (Xml.Attributes.get_eq_none (.refl _)).mp hasNode
      cases hasJid : (written a).get .jid with
      | some text =>
          obtain ⟨before, after, split⟩ := List.append_of_mem (Xml.Attributes.mem_entries.mpr hasJid)
          rw [split] at noNode distinct ⊢
          rw [List.map_append, List.map_cons, List.nodup_append, List.nodup_cons] at distinct
          rw [List.foldl_append, List.foldl_cons]
          refine foldl_jidNode_kept fun p mem => ⟨fun same => ?_, noNode p (by simp [mem])⟩
          exact distinct.2.1.1 (List.mem_map.mpr ⟨p, mem, same⟩)
      | none =>
          have noJid := (Xml.Attributes.get_eq_none (.refl _)).mp hasJid
          exact (foldl_jidNode none).mpr ⟨rfl, noJid, noNode⟩

section
variable {β : Type} (list entry : Tag) (type : PacketType) (make : Attributes → List Char → β)

/-- What the two start functions have in common. -/
def startEntries (r : Response (List β)) (name : Tag) (attributes : Attributes) :
    Outcome Empty (Response (List β)) :=
  if name = list then do
    let packet ← r.packet
    return ⟨.packet, .packet { packet with type := type }⟩
  else if name = entry then do
    let packet ← r.packet
    match attributes.foldl jidNodeAttribute none with
    | none => .abort "strlen"
    | some text => return { r with response := .packet (payloadAdd packet type (make attributes text)) }
  else if name = .error then .ret (errorHandler r attributes)
  else .ret r

/-- The entry that is made at a start. -/
def entryMade (start : Xml.Start Tag Attr) : Option β :=
  if start.1 = entry then (start.2.foldl jidNodeAttribute none).map (make start.2) else none

end

def subscriptionMade (a : Attributes) (text : List Char) : Subscription :=
  ⟨text, (a.foldl subIdAttribute none).getD []⟩

theorem startSubscriptions_eq (r : Response (List Subscription)) (name : Tag) (attributes : Attributes) :
    startSubscriptions r name attributes =
      startEntries .subscriptions .subscription .subscriptions subscriptionMade r name attributes := by
  cases name with
  | subscription =>
      change r.packet >>= _ = r.packet >>= _
      congr 1
      funext packet
      cases attributes.foldl jidNodeAttribute none <;> rfl
  | _ => rfl

theorem startAffiliations_eq (r : Response (List Affiliation)) (name : Tag) (attributes : Attributes) :
    startAffiliations r name attributes =
      startEntries .affiliations .affiliation .affiliations
        (fun a text => ⟨text, a.foldl affiliationAttribute .unknown⟩) r name attributes := by
  cases name with
  | affiliation =>
      change r.packet >>= _ = r.packet >>= _
      congr 1
      funext packet
      cases attributes.foldl jidNodeAttribute none <;> rfl
  | _ => rfl

section
variable {β : Type} {list entry : Tag} {type : PacketType} {make : Attributes → List Char → β}

/-- Elements with their attributes in other orders are read alike, where the same entries are made. -/
theorem startEntries_order {e e' : Elem} (same : Xml.Element.Reordered e e')
    (made : e.name = entry → make (written e.attributes).entries = make (written e'.attributes).entries)
    (r : Response (List β)) :
    startEntries list entry type make r e.name (written e.attributes).entries =
      startEntries list entry type make r e'.name (written e'.attributes).entries := by
  obtain ⟨name, order⟩ := same
  have text : (written e.attributes).entries.foldl jidNodeAttribute none =
      (written e'.attributes).entries.foldl jidNodeAttribute none := by
    rw [foldl_jidNode_written, foldl_jidNode_written, Xml.Attributes.get_perm order,
      Xml.Attributes.get_perm order]
  unfold startEntries
  rw [← name, errorHandler_eq r (.refl _), errorHandler_eq r (.refl _), Strophe.errorOf_written, Strophe.errorOf_written,
    Strophe.errorOf_perm order, text]
  by_cases named : e.name = entry
  · rw [made named]
  · rw [if_neg named, if_neg named]

theorem foldlM_order {es es' : List Elem} (same : List.Forall₂ Xml.Element.Reordered es es')
    (made : ∀ e ∈ es, e.name = entry → ∀ e', Xml.Element.Reordered e e' →
      make (written e.attributes).entries = make (written e'.attributes).entries) (r : Response (List β)) :
    (writtenStarts es).foldlM (fun r p => startEntries list entry type make r p.1 p.2) r =
      (writtenStarts es').foldlM (fun r p => startEntries list entry type make r p.1 p.2) r := by
  induction same generalizing r with
  | nil => rfl
  | @cons e e' es es' first _ ih =>
      obtain ⟨here, later⟩ := List.forall_mem_cons.mp made
      rw [writtenStarts, writtenStarts, List.map_cons, List.map_cons, List.foldlM_cons, List.foldlM_cons,
        startEntries_order first fun named => here named e' first]
      congr 1
      funext r
      exact ih later r

theorem startEntries_adds (apart : list ≠ entry) {r r' : Response (List β)} {packet : Packet (List β)}
    (holds : r.response = .packet packet) {start : Xml.Start Tag Attr}
    (plain : start.1 = .error → errorHandler r start.2 = r)
    (ret : startEntries list entry type make r start.1 start.2 = .ret r') :
    ∃ packet', r'.response = .packet packet' ∧
      packet'.payload = packet.payload ++ (entryMade entry make start).toList := by
  unfold startEntries at ret
  unfold entryMade
  rw [Response.packet, holds] at ret
  split at ret
  · next named =>
      cases ret
      rw [if_neg fun same => apart (named.symm.trans same)]
      exact ⟨_, rfl, (List.append_nil _).symm⟩
  · split at ret
    · next named =>
        rw [if_pos named]
        cases read : start.2.foldl jidNodeAttribute none with
        | none =>
            rw [read] at ret
            cases ret
        | some t =>
            rw [read] at ret
            cases ret
            exact ⟨_, rfl, rfl⟩
    · next named =>
        rw [if_neg named]
        refine ⟨packet, ?_, (List.append_nil _).symm⟩
        split at ret
        · next error =>
            rw [plain error] at ret
            cases ret
            exact holds
        · cases ret
          exact holds

theorem foldlM_adds (apart : list ≠ entry) {starts : List (Xml.Start Tag Attr)}
    (plain : ∀ start ∈ starts, start.1 = .error → ∀ r : Response (List β), errorHandler r start.2 = r)
    {r r' : Response (List β)} {packet : Packet (List β)} (holds : r.response = .packet packet)
    (ret : starts.foldlM (fun r p => startEntries list entry type make r p.1 p.2) r = .ret r') :
    ∃ packet', r'.response = .packet packet' ∧
      packet'.payload = packet.payload ++ starts.filterMap (entryMade entry make) := by
  induction starts generalizing r packet with
  | nil =>
      cases ret
      exact ⟨packet, holds, (List.append_nil _).symm⟩
  | cons start starts ih =>
      obtain ⟨here, later⟩ := List.forall_mem_cons.mp plain
      rw [List.foldlM_cons] at ret
      obtain ⟨next, first, ret⟩ := Outcome.bind_eq_ret.mp ret
      obtain ⟨packet', holds', added⟩ := startEntries_adds apart holds (fun error => here error r) first
      obtain ⟨packet'', holds'', more⟩ := ih later holds' ret
      refine ⟨packet'', holds'', ?_⟩
      rw [more, added, List.append_assoc, List.filterMap_cons]
      cases entryMade entry make start <;> rfl

end

/-- Where lists drop the same entries, all kept entries are the same. -/
theorem filterMap_inj {α β : Type} {f g : α → Option β} {as : List α}
    (alike : ∀ a ∈ as, (f a = none ↔ g a = none)) (same : as.filterMap f = as.filterMap g) :
    ∀ a ∈ as, f a = g a := by
  induction as with
  | nil => exact fun a mem => by cases mem
  | cons a as ih =>
      obtain ⟨here, later⟩ := List.forall_mem_cons.mp alike
      rw [List.filterMap_cons, List.filterMap_cons] at same
      cases left : f a with
      | none =>
          rw [left, here.mp left] at same
          exact List.forall_mem_cons.mpr ⟨left.trans (here.mp left).symm, ih later same⟩
      | some b =>
          cases right : g a with
          | none =>
              rw [here.mpr right] at left
              cases left
          | some c =>
              rw [left, right] at same
              obtain ⟨rfl, rest⟩ := List.cons.inj same
              exact List.forall_mem_cons.mpr ⟨left.trans right.symm, ih later rest⟩

section
variable {β : Type} {list entry : Tag} {type : PacketType} {make : Attributes → List Char → β}
variable {start : Response (List β) → Tag → Attributes → Outcome Empty (Response (List β))}
variable (is : ∀ r name a, start r name a = startEntries list entry type make r name a)
variable (follows : ∀ {s : Status} {e : Elem} {reported : List (Attr × List Char)},
  reported.Perm e.attributes.entries → ∀ {r : Response (List β)}, Shows IsPacket r s →
    Xml.Alike (Shows IsPacket) (start r e.name reported) (s.step (listProfile list entry) e))
variable {ss : List (Xml.Stanza Tag Attr)} {calls : List (Xml.Callback Tag Attr)}
  (reports : Xml.Reports ss calls) (first : ResponseType)

include reports

include is in
theorem parse_entries : xmlParse ParserData.startElement { startElement := start }
      (packetNew first []) calls =
    (Xml.starts calls).foldlM (fun r p => startEntries list entry type make r p.1 p.2)
      (packetNew first []) := by
  rw [xmlParse_eq (fun x depth n name at_ => at_.start name) _ _ reports, Xml.Handler.run_starts]
  congr 1
  funext r p
  exact is r p.1 p.2

include follows in
theorem parse_alike : Xml.Alike (Shows IsPacket)
    (xmlParse ParserData.startElement { startElement := start } (packetNew first []) calls)
    (Xml.walk (Status.step (listProfile list entry)) { type := first } (Xml.elements ss)) := by
  rw [xmlParse_eq (fun x depth n name at_ => at_.start name) _ _ reports]
  exact @Xml.Handler.follows _ _ _ _ (Shows IsPacket) { startElement := start }
    (Status.step (listProfile list entry)) (fun r s shows e reported order => follows order shows)
    (fun r s shows chunk => .ret shows) (fun r s shows name => .ret shows) _ _ reports _ _
    ⟨rfl, _, rfl⟩

include follows in
/-- Where a walk to the end has met an error, nothing but the error is left. -/
theorem parse_errors (errors : ∀ s, Xml.walk (Status.step (listProfile list entry)) { type := first }
      (Xml.elements ss) = .ret s → s.error.isSome) (r : Response (List β)) :
    xmlParse ParserData.startElement { startElement := start } (packetNew first []) calls = .ret r ↔
      ∃ s err, Xml.walk (Status.step (listProfile list entry)) { type := first } (Xml.elements ss) = .ret s ∧
        s.error = some err ∧ r = ⟨s.type, .error err⟩ := by
  have left {s : Status} {r : Response (List β)} {err : ResponseError} (shows : Shows IsPacket r s)
      (holds : s.error = some err) : r = ⟨s.type, .error err⟩ := by
    rw [← shows.type, ← shows.error_some holds]
  constructor
  · intro ret
    obtain ⟨s, walked, shows⟩ := (parse_alike follows reports first).ret_left ret
    obtain ⟨err, holds⟩ := Option.isSome_iff_exists.mp (errors s walked)
    exact ⟨s, err, walked, holds, left shows holds⟩
  · rintro ⟨s, err, walked, holds, rfl⟩
    obtain ⟨r, ret, shows⟩ := (parse_alike follows reports first).ret_right walked
    rw [ret, left shows holds]

include follows in
theorem parse_ret (plain : ∀ e ∈ Xml.elements ss, errorOf e = none)
    (named : ∀ e ∈ Xml.elements ss, e.name = entry →
      ¬ (e.attributes.get .jid = none ∧ e.attributes.get .node = none)) :
    ∃ r, xmlParse ParserData.startElement { startElement := start } (packetNew first []) calls =
      .ret r := by
  have walked : Xml.walk (Status.step (listProfile list entry)) { type := first } (Xml.elements ss) =
      .ret _ := Status.walk_eq_ret.mpr ⟨fun before e after split => ?_, rfl⟩
  · obtain ⟨r, ret, -⟩ := (parse_alike follows reports first).ret_right walked
    exact ⟨r, ret⟩
  · have mem : ∀ e' ∈ before ++ [e], e' ∈ Xml.elements ss := by
      intro e' mem
      rw [split, List.append_cons]
      exact List.mem_append_left _ mem
    rintro (choked | ⟨-, error⟩)
    · obtain ⟨is, none⟩ := (Bool.and_eq_true _ _).mp choked
      obtain ⟨jid, node⟩ := (Bool.and_eq_true _ _).mp none
      exact named e (mem e (by simp)) (of_decide_eq_true is)
        ⟨of_decide_eq_true jid, of_decide_eq_true node⟩
    · rcases Status.foldl_error.mp error with null | ⟨e', before', typed⟩
      · cases null
      · rw [plain e' (mem e' (List.mem_append_left _ before'))] at typed
        cases typed

end

/-- The walk depends on the names, the errors and on which names an entry has. -/
theorem walk_order (list entry : Tag) {es es' : List Elem} (same : List.Forall₂ Xml.Element.Reordered es es')
    (s : Status) :
    Xml.walk (Status.step (listProfile list entry)) s (es.map fun e => ⟨e.name, written e.attributes⟩) =
      Xml.walk (Status.step (listProfile list entry)) s (es'.map fun e => ⟨e.name, written e.attributes⟩) := by
  have jidAt : hashKey Attr.jid.text = 2 := by decide +kernel
  have nodeAt : hashKey Attr.node.text = 6 := by decide +kernel
  have step {e e' : Elem} (same : Xml.Element.Reordered e e') (s : Status) :
      Status.step (listProfile list entry) s ⟨e.name, written e.attributes⟩ =
        Status.step (listProfile list entry) s ⟨e'.name, written e'.attributes⟩ := by
    obtain ⟨name, a⟩ := e
    obtain ⟨name', b⟩ := e'
    obtain ⟨rfl, order⟩ : name = name' ∧ a.entries.Perm b.entries := same
    have get (key : Attr) (low : 0 ≤ hashKey key.text) (high : hashKey key.text < 7) :
        (written a).get key = (written b).get key := by
      rw [Strophe.get_written low high, Strophe.get_written low high, Xml.Attributes.get_perm order]
    have error : errorOf ⟨name, written a⟩ = errorOf ⟨name, written b⟩ := by
      rw [Strophe.errorOf_written, Strophe.errorOf_written, Strophe.errorOf_perm order]
    have next : Status.next (listProfile list entry) s ⟨name, written a⟩ =
        Status.next (listProfile list entry) s ⟨name, written b⟩ := by
      unfold Status.next
      rw [error]
      cases errorOf ⟨name, written b⟩ <;> rfl
    have blocked : s.Blocked (listProfile list entry) ⟨name, written a⟩ ↔
        s.Blocked (listProfile list entry) ⟨name, written b⟩ := by
      unfold Status.Blocked
      simp only [listProfile, get .jid (by omega) (by omega), get .node (by omega) (by omega)]
    unfold Status.step
    rw [next]
    exact if_congr blocked rfl rfl
  induction same generalizing s with
  | nil => rfl
  | @cons e e' es es' first _ ih =>
      rw [List.map_cons, List.map_cons, Xml.walk, Xml.walk, step first]
      congr 1
      funext s
      exact ih s

section
variable {β : Type} {list entry : Tag} {type : PacketType} {make : Attributes → List Char → β}
variable {start : Response (List β) → Tag → Attributes → Outcome Empty (Response (List β))}
variable (is : ∀ r name a, start r name a = startEntries list entry type make r name a)
variable {reply reply' : MioStanza} {calls calls' : List (Xml.Callback Tag Attr)}
  (same : Xml.Reordered [reply] [reply']) (rendered : Rendered reply calls) (rendered' : Rendered reply' calls')
  (first : ResponseType)

include is same rendered rendered'

/-- Where the same entries are made, all is the same. -/
theorem parse_order (made : ∀ e ∈ Xml.elements [reply], e.name = entry →
      ∀ e', Xml.Element.Reordered e e' →
        make (written e.attributes).entries = make (written e'.attributes).entries) :
    xmlParse ParserData.startElement { startElement := start } (packetNew first []) calls =
      xmlParse ParserData.startElement { startElement := start } (packetNew first []) calls' := by
  rw [parse_entries is (Strophe.rendered_iff.mp rendered).2.reports,
    parse_entries is (Strophe.rendered_iff.mp rendered').2.reports, rendered.starts,
    rendered'.starts, foldlM_order same.elements made]

end

theorem foldl_subId (a : Xml.Attributes Attr) :
    (a.entries.foldl subIdAttribute none) = a.get .subid := by
  have read := Xml.Attributes.foldl_field (f := subIdAttribute) id .subid (g := id) (fun s text => rfl)
    (fun s p ne => by
      obtain ⟨key, text⟩ := p
      cases key <;> first | rfl | exact absurd rfl ne) (.refl a.entries) none
  rwa [Option.map_id, id, id, id, Option.or_none] at read

theorem foldl_affiliation (a : Xml.Attributes Attr) :
    a.entries.foldl affiliationAttribute .unknown = (a.get .affiliation).elim AffiliationType.unknown
      fun text => affiliationAttribute AffiliationType.unknown (Attr.affiliation, text) := by
  refine Xml.Attributes.foldl_only (fun s p ne => ?_) (.refl a.entries) AffiliationType.unknown
  obtain ⟨key, text⟩ := p
  cases key <;> first | rfl | exact absurd rfl ne

theorem affiliations_free (type : ResponseType) (reply : MioStanza) : OrderFree .affiliations type reply := by
  have affiliationAt : hashKey Attr.affiliation.text = 4 := by decide +kernel
  intro reply' same calls calls' rendered rendered' r
  have eq := parse_order startAffiliations_eq same rendered rendered' type fun e _ _ e' order => by
    funext text
    rw [foldl_affiliation, foldl_affiliation, Strophe.get_written (by omega) (by omega),
      Strophe.get_written (by omega) (by omega), Xml.Attributes.get_perm order.2]
  exact Eq.congr_left eq

/-- What is left of the sub ids where none is lost. -/
theorem get_subId_written {a b : Xml.Attributes Attr} (order : a.entries.Perm b.entries)
    (keeps : ∀ subId ∈ a.get .subid, subId ≠ [] →
      ∀ p ∈ a.entries, hashKey p.1.text = 7 → p.1 = .subid) :
    ((written b).get .subid).getD [] = (a.get .subid).getD [] := by
  have last : hashKey Attr.subid.text = 7 := by decide +kernel
  cases had : a.get .subid with
  | none =>
      have none : (written b).get .subid = none := by
        rw [Option.eq_none_iff_forall_ne_some]
        intro text got
        have head := List.mem_of_head? ((Strophe.get_written_last last).mp got)
        have mem := order.mem_iff.mpr (Strophe.mem_listOf.mp head).1
        rw [Xml.Attributes.mem_entries, had] at mem
        cases mem
      rw [none]
  | some subId =>
      have mem : (Attr.subid, subId) ∈ b.entries := order.mem_iff.mp (Xml.Attributes.mem_entries.mpr had)
      by_cases empty : subId = []
      · subst empty
        cases got : (written b).get .subid with
        | none => rfl
        | some text =>
            have head := List.mem_of_head? ((Strophe.get_written_last last).mp got)
            have again := Xml.Attributes.mem_entries.mp (Strophe.mem_listOf.mp head).1
            rw [Xml.Attributes.mem_entries.mp mem] at again
            injection again with again
            rw [← again]
      · -- no other attribute is in the list
        have got : (written b).get .subid = some subId := by
          rw [Strophe.get_written_last last]
          cases list : Strophe.listOf b.entries 7 with
          | nil =>
              have here := Strophe.mem_listOf.mpr ⟨mem, last⟩
              rw [list] at here
              cases here
          | cons p rest =>
              have here : p ∈ Strophe.listOf b.entries 7 := list ▸ List.mem_cons_self
              obtain ⟨own, at_⟩ := Strophe.mem_listOf.mp here
              obtain ⟨key, text⟩ := p
              obtain rfl : key = .subid := keeps subId had empty _ (order.mem_iff.mpr own) at_
              have same := (Xml.Attributes.mem_entries.mp own).symm.trans (Xml.Attributes.mem_entries.mp mem)
              injection same with same
              rw [same]
              rfl
        rw [got]

theorem get_subId_toFront {a : Xml.Attributes Attr} {p : Attr × List Char} (mem : p ∈ a.entries)
    (last : hashKey p.1.text = 7) (other : p.1 ≠ .subid) : (written (a.toFront .subid)).get .subid = none := by
  rw [Option.eq_none_iff_forall_ne_some]
  intro text got
  have head := (Strophe.get_written_last (by decide +kernel)).mp got
  have here : p ∈ Strophe.listOf (a.entries.filter fun p => ¬ p.1 = .subid) 7 :=
    Strophe.mem_listOf.mpr ⟨List.mem_filter.mpr ⟨mem, decide_eq_true other⟩, last⟩
  rw [Xml.Attributes.toFront, Strophe.listOf_append, List.head?_append] at head
  cases list : Strophe.listOf (a.entries.filter fun p => ¬ p.1 = .subid) 7 with
  | nil =>
      rw [list] at here
      cases here
  | cons q rest =>
      rw [list] at head
      obtain rfl : q = (.subid, text) := Option.some.inj head
      have own := (Strophe.mem_listOf.mp (list ▸ List.mem_cons_self)).1
      exact of_decide_eq_true (List.mem_filter.mp own).2 rfl

theorem get_subId_toEnd {a : Xml.Attributes Attr} {subId : List Char} (had : a.get .subid = some subId) :
    (written (a.toEnd .subid)).get .subid = some subId := by
  have last : hashKey Attr.subid.text = 7 := by decide +kernel
  have mem := Xml.Attributes.mem_entries.mpr had
  have here : (Attr.subid, subId) ∈ Strophe.listOf (a.entries.filter fun p => p.1 = .subid) 7 :=
    Strophe.mem_listOf.mpr ⟨List.mem_filter.mpr ⟨mem, decide_eq_true rfl⟩, last⟩
  rw [Strophe.get_written_last last, Xml.Attributes.toEnd, Strophe.listOf_append, List.head?_append]
  cases list : Strophe.listOf (a.entries.filter fun p => p.1 = .subid) 7 with
  | nil =>
      rw [list] at here
      cases here
  | cons q rest =>
      obtain ⟨own, is⟩ := List.mem_filter.mp (Strophe.mem_listOf.mp (list ▸ List.mem_cons_self)).1
      obtain ⟨key, text⟩ := q
      obtain rfl : key = .subid := of_decide_eq_true is
      have same := (Xml.Attributes.mem_entries.mp own).symm.trans had
      injection same with same
      rw [same]
      rfl

/-- With an error with a type, or an entry without a name, a walk to the end shows an error. -/
theorem walk_errors (list : Tag) {entry : Tag} {es : List Elem} (errors : (∃ e ∈ es, (errorOf e).isSome) ∨
      ∃ e ∈ es, e.name = entry ∧ e.attributes.get .jid = none ∧ e.attributes.get .node = none)
    (type : ResponseType) (s : Status)
    (walked : Xml.walk (Status.step (listProfile list entry)) { type } es = .ret s) : s.error.isSome := by
  obtain ⟨free, rfl⟩ := Status.walk_eq_ret.mp walked
  rcases errors with typed | ⟨e, mem, named, jid, node⟩
  · exact Status.foldl_error.mpr (.inr typed)
  · obtain ⟨before, after, split⟩ := List.append_of_mem mem
    refine absurd (.inl ?_) (free before e after split)
    simp [listProfile, named, jid, node]

section
variable {type : ResponseType} {reply : MioStanza}

theorem starts_mapAttributes (f : Xml.Attributes Attr → Xml.Attributes Attr) :
    writtenStarts (Xml.elements [reply.mapAttributes f]) =
      (Xml.elements [reply]).map fun e => (e.name, (written (f e.attributes)).entries) := by
  have mapped : Xml.elements [reply.mapAttributes f] =
      (Xml.elements [reply]).map fun e => ⟨e.name, f e.attributes⟩ := Xml.elements_mapAttributes f [reply]
  rw [mapped, writtenStarts, List.map_map]
  rfl

theorem subscriptions_listed (plain : ∀ e ∈ Xml.elements [reply], errorOf e = none)
    {calls : List (Xml.Callback Tag Attr)} (rendered : Rendered reply calls) {r : Response (List Subscription)}
    (ret : ReplyHandler.subscriptions.answer type calls = .ret r) : ∃ packet, r.response = .packet packet ∧
      packet.payload = (writtenStarts (Xml.elements [reply])).filterMap
        (entryMade .subscription subscriptionMade) := by
  have folded := parse_entries startSubscriptions_eq (Strophe.rendered_iff.mp rendered).2.reports type
  rw [rendered.starts] at folded
  refine foldlM_adds (by decide) (fun start mem error r => ?_) rfl (folded.symm.trans ret)
  obtain ⟨e, here, rfl⟩ := List.mem_map.mp mem
  have none := plain e here
  obtain ⟨name, a⟩ := e
  obtain rfl : name = .error := error
  rw [errorHandler_eq r (.refl _), Strophe.errorOf_written, none]

/-- What `OrderFree` says of another order, where all subscriptions are delivered. -/
theorem subscriptions_same (free : OrderFree .subscriptions type reply)
    (hashable : ∀ e ∈ Xml.elements [reply], Hashable e.attributes)
    (plain : ∀ e ∈ Xml.elements [reply], errorOf e = none)
    (named : ∀ e ∈ Xml.elements [reply], e.name = .subscription →
      ¬ (e.attributes.get .jid = none ∧ e.attributes.get .node = none))
    {f : Xml.Attributes Attr → Xml.Attributes Attr}
    (order : ∀ a : Xml.Attributes Attr, a.entries.Perm (f a).entries) :
    (writtenStarts (Xml.elements [reply.mapAttributes f])).filterMap
        (entryMade .subscription subscriptionMade) =
      (writtenStarts (Xml.elements [reply])).filterMap (entryMade .subscription subscriptionMade) := by
  have jidAt : hashKey Attr.jid.text = 2 := by decide +kernel
  have nodeAt : hashKey Attr.node.text = 6 := by decide +kernel
  have mapped : Xml.elements [reply.mapAttributes f] =
      (Xml.elements [reply]).map fun e => ⟨e.name, f e.attributes⟩ := Xml.elements_mapAttributes f [reply]
  have own : Rendered reply (Xml.report [reply.mapAttributes written]) :=
    Strophe.rendered_iff.mpr ⟨hashable, Xml.inOrder_report _⟩
  have other : Rendered (reply.mapAttributes f)
      (Xml.report [(reply.mapAttributes f).mapAttributes written]) := by
    refine Strophe.rendered_iff.mpr ⟨fun e mem => ?_, Xml.inOrder_report _⟩
    rw [mapped] at mem
    obtain ⟨e, here, rfl⟩ := List.mem_map.mp mem
    exact (hashable e here).perm (order e.attributes)
  obtain ⟨r, ret⟩ : ∃ r, ReplyHandler.subscriptions.answer type (Xml.report [reply.mapAttributes written]) =
      .ret r := by
    refine parse_ret startSubscriptions_alike (Strophe.rendered_iff.mp own).2.reports type ?_ ?_
    · rw [Strophe.elements_written]
      intro e mem
      obtain ⟨e, here, rfl⟩ := List.mem_map.mp mem
      rw [Strophe.errorOf_written]
      exact plain e here
    · rw [Strophe.elements_written]
      intro e mem is
      obtain ⟨e, here, rfl⟩ := List.mem_map.mp mem
      rw [Strophe.get_written (by omega) (by omega), Strophe.get_written (by omega) (by omega)]
      exact named e here is
  have ret' := (free _ (Xml.Stanza.reordered_mapAttributes order reply) _ _ own other r).mp ret
  obtain ⟨packet, is, list⟩ := subscriptions_listed plain own ret
  have plain' : ∀ e ∈ Xml.elements [reply.mapAttributes f], errorOf e = none := by
    intro e mem
    rw [mapped] at mem
    obtain ⟨e, here, rfl⟩ := List.mem_map.mp mem
    rw [← Strophe.errorOf_perm (order e.attributes)]
    exact plain e here
  obtain ⟨packet', is', list'⟩ := subscriptions_listed plain' other ret'
  rw [is] at is'
  injection is' with same
  rw [← list', ← list, same]

theorem entryMade_reordered {f : Xml.Attributes Attr → Xml.Attributes Attr}
    (order : ∀ a : Xml.Attributes Attr, a.entries.Perm (f a).entries) (e : Elem) :
    entryMade .subscription subscriptionMade (e.name, (written (f e.attributes)).entries) =
      if e.name = .subscription then ((e.attributes.get .node).or (e.attributes.get .jid)).map
        (subscriptionMade (written (f e.attributes)).entries) else none := by
  unfold entryMade
  rw [foldl_jidNode_written, Xml.Attributes.get_perm (order e.attributes),
    Xml.Attributes.get_perm (order e.attributes)]

/-- Every list of subscriptions comes out the same only where no sub id is lost. -/
theorem keeps_of_free (free : OrderFree .subscriptions type reply) : KeepsSubIds (Xml.elements [reply]) := by
  by_contra bad
  obtain ⟨hashable, bad⟩ := not_or.mp bad
  obtain ⟨plain, bad⟩ := not_or.mp bad
  obtain ⟨named, lossy⟩ := not_or.mp bad
  push Not at hashable plain named lossy
  have same (f : Xml.Attributes Attr → Xml.Attributes Attr)
      (order : ∀ a : Xml.Attributes Attr, a.entries.Perm (f a).entries) :=
    subscriptions_same free hashable (fun e mem => Option.not_isSome_iff_eq_none.mp (plain e mem))
      (fun e mem is missing => named e mem is missing.1 missing.2) order
  obtain ⟨e, mem, is, subId, got, filled, p, own, last, other⟩ := lossy
  have toFront (a : Xml.Attributes Attr) : a.entries.Perm (a.toFront .subid).entries := a.perm_toFront Attr.subid
  have toEnd (a : Xml.Attributes Attr) : a.entries.Perm (a.toEnd .subid).entries := a.perm_toEnd Attr.subid
  have lists := (same _ toFront).trans (same _ toEnd).symm
  rw [starts_mapAttributes, starts_mapAttributes, List.filterMap_map, List.filterMap_map] at lists
  have entry := filterMap_inj (fun e _ => ?_) lists e mem
  · simp only [Function.comp_apply, entryMade_reordered toFront, entryMade_reordered toEnd, if_pos is] at entry
    cases text : (e.attributes.get .node).or (e.attributes.get .jid) with
    | none =>
        obtain ⟨node, jid⟩ := Option.or_eq_none_iff.mp text
        exact named e mem is jid node
    | some text' =>
        rw [text, Option.map_some, Option.map_some] at entry
        injection entry with entry
        unfold subscriptionMade at entry
        rw [foldl_subId, foldl_subId, get_subId_toFront own last other, get_subId_toEnd got] at entry
        injection entry with _ lost
        exact filled lost.symm
  · simp only [Function.comp_apply, entryMade_reordered toFront, entryMade_reordered toEnd]
    split
    · rw [Option.map_eq_none_iff, Option.map_eq_none_iff]
    · rfl

theorem errors_free (errors : (∃ e ∈ Xml.elements [reply], (errorOf e).isSome) ∨
      ∃ e ∈ Xml.elements [reply], e.name = .subscription ∧ e.attributes.get .jid = none ∧
        e.attributes.get .node = none) : OrderFree .subscriptions type reply := by
  have jidAt : hashKey Attr.jid.text = 2 := by decide +kernel
  have nodeAt : hashKey Attr.node.text = 6 := by decide +kernel
  intro reply' same calls calls' rendered rendered' r
  have walks := walk_order .subscriptions .subscription same.elements { type }
  rw [← Strophe.elements_written, ← Strophe.elements_written] at walks
  have kept : (∃ e ∈ Xml.elements [reply.mapAttributes written], (errorOf e).isSome) ∨
      ∃ e ∈ Xml.elements [reply.mapAttributes written], e.name = .subscription ∧
        e.attributes.get .jid = none ∧ e.attributes.get .node = none := by
    rw [Strophe.elements_written]
    rcases errors with ⟨e, mem, typed⟩ | ⟨e, mem, is, jid, node⟩
    · refine .inl ⟨_, List.mem_map_of_mem mem, ?_⟩
      rwa [Strophe.errorOf_written]
    · refine .inr ⟨_, List.mem_map_of_mem mem, is, ?_, ?_⟩
      · rwa [Strophe.get_written (by omega) (by omega)]
      · rwa [Strophe.get_written (by omega) (by omega)]
  have errors' := walk_errors .subscriptions kept type
  have left := parse_errors startSubscriptions_alike (Strophe.rendered_iff.mp rendered).2.reports type errors' r
  rw [walks] at left errors'
  exact left.trans
    (parse_errors startSubscriptions_alike (Strophe.rendered_iff.mp rendered').2.reports type errors' r).symm

end

theorem subscriptions_iff (type : ResponseType) (reply : MioStanza) :
    OrderFree .subscriptions type reply ↔ KeepsSubIds (Xml.elements [reply]) := by
  refine ⟨keeps_of_free, fun keeps => ?_⟩
  rcases keeps with ⟨e, mem, no⟩ | typed | missing | keeps
  · intro reply' same calls calls' rendered
    exact absurd ((Strophe.rendered_iff.mp rendered).1 e mem) no
  · exact errors_free (.inl typed)
  · exact errors_free (.inr missing)
  · intro reply' same calls calls' rendered rendered' r
    refine Eq.congr_left (parse_order startSubscriptions_eq same rendered rendered' type ?_)
    intro e mem named e' order
    funext text
    unfold subscriptionMade
    rw [foldl_subId, foldl_subId, get_subId_written (.refl _) (keeps e mem named),
      get_subId_written order.2 (keeps e mem named)]

/-- The lists of affiliations are read alike in every order of their attributes, those of subscriptions
exactly where no sub id is lost. -/
theorem order_free_iff (type : ResponseType) (reply : MioStanza) :
    (OrderFree .subscriptions type reply ↔ KeepsSubIds (Xml.elements [reply])) ∧
      OrderFree .affiliations type reply :=
  ⟨subscriptions_iff type reply, affiliations_free type reply⟩

def expiring : MioStanza :=
  .tag .subscriptions .empty
    [.tag .subscription
      ⟨[(.node, ['n']), (.jid, ['j']), (.subid, ['s']), (.other "expiry".toList, ['e'])], by decide⟩ []]

/-- Behind the expiry the sub id is kept, in front of it it is lost. -/
theorem sub_id_lost : ¬ OrderFree .subscriptions .unknown expiring := by
  rw [subscriptions_iff]
  decide +kernel

end Mio.LibMio.Replies
