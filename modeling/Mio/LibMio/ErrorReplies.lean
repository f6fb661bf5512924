import Mio.LibMio.Replies

/-! Error replies: which handlers hand them over as errors, and after which elements. -/
namespace Mio.LibMio.Replies

abbrev Elem := Xml.Element Tag Attr

/-- What an element is to a handler that looks for errors. -/
structure Profile where
  /-- The handler makes use of the packet. -/
  uses : Elem → Bool := fun _ => false
  /-- The handler does not get through; given is whether there was an event. -/
  chokes : Bool → Elem → Bool := fun _ _ => false
  /-- The type of the response behind the element, unless it is an error with a type. -/
  retype : ResponseType → Elem → ResponseType := fun type _ => type
  /-- No other element makes the response an error. -/
  lasting : ∀ type e, retype type e = .error → type = .error := by intro type e eq; exact eq

structure Status where
  event : Bool := false
  type : ResponseType
  error : Option ResponseError := none

namespace Status

variable (p : Profile) (s : Status)

/-- An error with a type takes the place of what the response points to. -/
def next (e : Elem) : Status :=
  match errorOf e with
  | some err => { s with type := .error, error := some err }
  | none => { s with event := s.event || e.name = .event, type := p.retype s.type e }

/-- An error is no packet. -/
def Blocked (e : Elem) : Prop := p.chokes s.event e ∨ p.uses e ∧ s.error.isSome

instance (e : Elem) : Decidable (s.Blocked p e) := by
  unfold Blocked
  infer_instance

def step (e : Elem) : Outcome Empty Status :=
  if s.Blocked p e then .abort "packet" else .ret (s.next p e)

end Status

/-- No element makes a handler choke, none that uses the packet comes after an error with a type, and
after one that makes the response something else there is another error. -/
def Clean (p : Profile) (es : List Elem) : Prop :=
  ∀ before e after, es = before ++ e :: after →
    p.chokes (before.any fun e => e.name = .event) e = false ∧
      (p.uses e → ∀ e' ∈ before, errorOf e' = none) ∧
      (errorOf e = none → p.retype .error e ≠ .error → ∃ e' ∈ after, (errorOf e').isSome)

section
variable {p : Profile} {s : Status} {e : Elem} {es : List Elem}

theorem Status.next_error (e : Elem) : (s.next p e).error = (errorOf e).or s.error := by
  unfold next
  cases errorOf e <;> rfl

theorem Status.next_event (e : Elem) : (s.next p e).event = (s.event || e.name = .event) := by
  unfold next
  cases typed : errorOf e with
  | none => rfl
  | some err =>
      have named : e.name = .error := by
        by_contra other
        rw [errorOf, if_neg other] at typed
        cases typed
      simp [named]

theorem Status.foldl_event : (es.foldl (Status.next p) s).event =
    (s.event || es.any fun e => e.name = .event) := by
  induction es generalizing s with
  | nil => simp
  | cons e es ih => rw [List.foldl_cons, ih, next_event, List.any_cons, Bool.or_assoc]

theorem Status.foldl_error : (es.foldl (Status.next p) s).error.isSome ↔
    s.error.isSome ∨ ∃ e ∈ es, (errorOf e).isSome := by
  induction es generalizing s with
  | nil => simp
  | cons e es ih =>
      rw [List.foldl_cons, ih, next_error, Option.isSome_or, Bool.or_eq_true, List.exists_mem_cons_iff,
        ← or_assoc, or_comm (a := (errorOf e).isSome = true)]

theorem Status.foldl_error_mem {err : ResponseError}
    (points : (es.foldl (Status.next p) s).error = some err) :
    s.error = some err ∨ ∃ e ∈ es, errorOf e = some err := by
  induction es generalizing s with
  | nil => exact .inl points
  | cons e es ih =>
      rcases ih points with here | ⟨e', mem, typed⟩
      · rw [next_error] at here
        rcases Option.or_eq_some_iff.mp here with typed | ⟨-, old⟩
        · exact .inr ⟨e, List.mem_cons_self .., typed⟩
        · exact .inl old
      · exact .inr ⟨e', List.mem_cons_of_mem _ mem, typed⟩

/-- The response is an error at the end if it was one once and has not been made anything else. -/
theorem Status.foldl_type : (es.foldl (Status.next p) s).type = .error ↔
    (s.type = .error ∨ ∃ e ∈ es, (errorOf e).isSome) ∧
      ∀ before e after, es = before ++ e :: after → errorOf e = none →
        p.retype .error e ≠ .error → ∃ e' ∈ after, (errorOf e').isSome := by
  induction es generalizing s with
  | nil => simp
  | cons e es ih =>
      rw [List.foldl_cons, ih, Xml.forall_split_cons (P := fun _ e after => errorOf e = none →
        p.retype .error e ≠ .error → ∃ e' ∈ after, (errorOf e').isSome), List.exists_mem_cons_iff]
      unfold next
      cases typed : errorOf e with
      | some err => simp
      | none =>
          by_cases later : ∃ e' ∈ es, (errorOf e').isSome
          · simp [later]
          · by_cases was : s.type = .error
            · simp [later, was]
            · have never : p.retype s.type e ≠ .error := fun eq => was (p.lasting s.type e eq)
              simp [later, was, never]

theorem Status.walk_eq_ret {s' : Status} : Xml.walk (Status.step p) s es = .ret s' ↔
    (∀ before e after, es = before ++ e :: after →
      ¬ (before.foldl (Status.next p) s).Blocked p e) ∧ s' = es.foldl (Status.next p) s :=
  Xml.walk_guarded

/-- A walk gets through with an error to show exactly if the elements are clean. -/
theorem Clean.iff_walk (type : ResponseType) (typed : ∃ e ∈ es, (errorOf e).isSome) :
    (∃ s, Xml.walk (Status.step p) { type } es = .ret s ∧ s.type = .error) ↔ Clean p es := by
  simp only [Status.walk_eq_ret, and_assoc, exists_and_left, exists_eq_left, Status.foldl_type, typed,
    or_true, true_and]
  unfold Clean Status.Blocked
  simp only [Status.foldl_event, Status.foldl_error, Bool.false_or]
  constructor
  · rintro ⟨free, later⟩ before e after split
    obtain ⟨chokes, uses⟩ := not_or.mp (free before e after split)
    refine ⟨Bool.eq_false_iff.mpr chokes, fun used e' mem => ?_, later before e after split⟩
    by_contra typed
    exact uses ⟨used, .inr ⟨e', mem, Option.isSome_iff_ne_none.mpr typed⟩⟩
  · intro clean
    refine ⟨fun before e after split => ?_, fun before e after split => (clean before e after split).2.2⟩
    obtain ⟨chokes, uses, -⟩ := clean before e after split
    rintro (choked | ⟨used, null | ⟨e', mem, typed⟩⟩)
    · rw [chokes] at choked
      cases choked
    · cases null
    · rw [uses used e' mem] at typed
      cases typed

end

section
variable {α : Type} {P : Body α → Prop} {r r' : Response α} {s : Status} {p : Profile} {e : Elem}

/-- The response points to the error, or to what it pointed to at first. -/
structure Shows (P : Body α → Prop) (r : Response α) (s : Status) : Prop where
  type : r.responseType = s.type
  response : match s.error with
    | none => P r.response
    | some err => r.response = .error err

def IsPacket (body : Body α) : Prop := ∃ packet, body = .packet packet

theorem Shows.error_some (shows : Shows P r s) {err : ResponseError} (holds : s.error = some err) :
    r.response = .error err := by
  have points := shows.response
  rwa [holds] at points

theorem Shows.error_none (shows : Shows P r s) (clear : s.error = none) : P r.response := by
  have points := shows.response
  rwa [clear] at points

theorem step_of_free (chokes : p.chokes s.event e = false) (free : p.uses e = false) :
    s.step p e = .ret (s.next p e) := by
  apply if_neg
  rintro (choked | ⟨used, -⟩)
  · rw [chokes] at choked
    cases choked
  · rw [free] at used
    cases used

theorem pass_alike (shows : Shows P r s) (plain : errorOf e = none)
    (chokes : p.chokes s.event e = false) (free : p.uses e = false)
    (type : r'.responseType = p.retype r.responseType e) (same : r'.response = r.response) :
    Xml.Alike (Shows P) (.ret r') (s.step p e) := by
  rw [step_of_free chokes free]
  apply Xml.Alike.ret
  unfold Status.next
  rw [plain]
  refine ⟨type.trans (congrArg (p.retype · e) shows.type), ?_⟩
  rw [same]
  exact shows.response

theorem error_alike (shows : Shows P r s) {a : Xml.Attributes Attr}
    {reported : List (Attr × List Char)} (order : reported.Perm a.entries)
    (chokes : p.chokes s.event ⟨.error, a⟩ = false) (free : p.uses ⟨.error, a⟩ = false)
    (kept : ∀ type, p.retype type ⟨.error, a⟩ = type) :
    Xml.Alike (Shows P) (.ret (errorHandler r reported)) (s.step p ⟨.error, a⟩) := by
  rw [errorHandler_eq r order]
  cases typed : errorOf ⟨.error, a⟩ with
  | none => exact pass_alike shows typed chokes free (kept _).symm rfl
  | some err =>
      rw [step_of_free chokes free]
      apply Xml.Alike.ret
      unfold Status.next
      rw [typed]
      exact ⟨rfl, rfl⟩

theorem use_alike (shows : Shows IsPacket r s) (plain : errorOf e = none) (used : p.uses e = true)
    {f : Packet α → Outcome Empty (Response α)}
    (after : ∀ packet, Xml.Alike
      (fun r' (_ : Unit) => r'.responseType = p.retype r.responseType e ∧ IsPacket r'.response)
      (f packet) (if p.chokes s.event e then .abort "choked" else .ret ())) :
    Xml.Alike (Shows IsPacket) (r.packet >>= f) (s.step p e) := by
  cases holds : s.error with
  | some err =>
      have blocked : s.Blocked p e := .inr ⟨used, by rw [holds]; rfl⟩
      rw [Response.packet, shows.error_some holds, Status.step, if_pos blocked]
      exact .abort
  | none =>
      obtain ⟨packet, is⟩ := shows.error_none holds
      rw [Response.packet, is, Status.step]
      change Xml.Alike _ (f packet) _
      have here := after packet
      cases chokes : p.chokes s.event e with
      | true =>
          rw [if_pos (.inl chokes)]
          rw [chokes, if_pos rfl] at here
          generalize f packet = result at here ⊢
          cases here
          exact .abort
      | false =>
          have free : ¬ s.Blocked p e := by
            rintro (choked | ⟨-, some⟩)
            · rw [chokes] at choked
              cases choked
            · rw [holds] at some
              cases some
          rw [if_neg free]
          rw [chokes] at here
          obtain ⟨r', ret, type, packet⟩ := here.ret_right rfl
          rw [ret]
          apply Xml.Alike.ret
          unfold Status.next
          rw [plain]
          refine ⟨type.trans (congrArg (p.retype · e) shows.type), ?_⟩
          rw [holds]
          exact packet

end

def errorProfile : Profile where
  retype type _ := if type = .error then .error else .ok
  lasting type e eq := by
    by_contra other
    rw [if_neg other] at eq
    cases eq

/-- `subscription` with the value `subscribed`. -/
def subscribed (e : Elem) : Bool :=
  e.name = .subscription && e.attributes.get .subscription = some "subscribed".toList

def subscribeProfile : Profile where
  retype type e := if subscribed e then .ok else type
  lasting type e eq := by
    split at eq
    · cases eq
    · exact eq

/-- A list with entries that need a `jid` or a `node`. -/
def listProfile (list entry : Tag) : Profile where
  uses e := e.name = list || e.name = entry
  chokes _ e := e.name = entry && (e.attributes.get .jid = none && e.attributes.get .node = none)
  retype type e := if e.name = list then .packet else type
  lasting type e eq := by
    split at eq
    · cases eq
    · exact eq

def identified (e : Elem) : Bool := e.name = .identity && (e.attributes.get .type).isSome

def nodeTypeProfile : Profile where
  uses := identified
  retype type e := if identified e then .packet else type
  lasting type e eq := by
    split at eq
    · cases eq
    · exact eq

/-- Items with entries; a `recurrence` needs an event. -/
def itemsProfile (entry : Tag) (recurrence : Bool) : Profile where
  uses e := e.name = .items || e.name = entry
  chokes seen e := recurrence && (e.name = .recurrence && !seen)
  retype type e := if e.name = .items then .packet else type
  lasting type e eq := by
    split at eq
    · cases eq
    · exact eq

section
variable {s : Status} {e : Elem} {reported : List (Attr × List Char)}
variable (order : reported.Perm e.attributes.entries)
include order

theorem startError_alike {r : Response Unit} (shows : Shows (fun _ => True) r s) :
    Xml.Alike (Shows fun _ => True) (startError r e.name reported) (s.step errorProfile e) := by
  obtain ⟨name, a⟩ := e
  have okType (r : Response Unit) : (okUnlessError r).responseType =
      if r.responseType = .error then .error else .ok := by
    unfold okUnlessError
    split <;> simp_all
  have okBody (r : Response Unit) : (okUnlessError r).response = r.response := by
    unfold okUnlessError
    split <;> rfl
  unfold startError
  by_cases named : name = .error
  · subst named
    rw [if_pos rfl, errorHandler_eq r order]
    cases typed : errorOf ⟨.error, a⟩ with
    | none => exact pass_alike shows typed rfl rfl (okType r) (okBody r)
    | some err =>
        rw [step_of_free rfl rfl]
        apply Xml.Alike.ret
        unfold Status.next
        rw [typed]
        exact ⟨rfl, rfl⟩
  · rw [if_neg named]
    exact pass_alike shows (if_neg named) rfl rfl (okType r) (okBody r)

theorem foldl_subscribe {r : Response Unit} (named : e.name = .subscription) :
    reported.foldl subscribeAttribute r = if subscribed e then { r with responseType := .ok } else r := by
  have others (r : Response Unit) (p : Attr × List Char) (ne : p.1 ≠ .subscription) :
      subscribeAttribute r p = r := by
    rcases p with ⟨_ | _, text⟩ <;> first | rfl | exact absurd rfl ne
  rw [Xml.Attributes.foldl_only others order]
  unfold subscribed
  rw [named]
  cases e.attributes.get .subscription with
  | none => rfl
  | some text =>
      change (if text = _ then _ else _) = _
      generalize "subscribed".toList = word
      by_cases same : text = word
      · simp [same]
      · simp [same]

theorem startSubscribe_alike {r : Response Unit} (shows : Shows (fun _ => True) r s) :
    Xml.Alike (Shows fun _ => True) (startSubscribe r e.name reported)
      (s.step subscribeProfile e) := by
  obtain ⟨name, a⟩ := e
  cases name with
  | error => exact error_alike shows order rfl rfl fun type => rfl
  | subscription =>
      change Xml.Alike _ (.ret (reported.foldl subscribeAttribute r)) _
      rw [foldl_subscribe order rfl]
      apply pass_alike shows rfl rfl rfl
      · change _ = if subscribed _ then _ else _
        split <;> rfl
      · split <;> rfl
  | _ => exact pass_alike shows rfl rfl rfl rfl rfl

omit order in
theorem foldl_jidNode (curr : Option (List Char)) : reported.foldl jidNodeAttribute curr = none ↔
    curr = none ∧ (∀ p ∈ reported, p.1 ≠ .jid) ∧ ∀ p ∈ reported, p.1 ≠ .node := by
  induction reported generalizing curr with
  | nil => simp
  | cons p reported ih =>
      obtain ⟨k, text⟩ := p
      rw [List.foldl_cons, ih, List.forall_mem_cons, List.forall_mem_cons]
      cases k <;> simp [jidNodeAttribute]

/-- An entry without a `jid` and a `node` cannot be taken. -/
theorem chokes_eq {list entry : Tag} (named : e.name = entry) (seen : Bool) :
    (listProfile list entry).chokes seen e = (reported.foldl jidNodeAttribute none).isNone := by
  change (decide (e.name = entry) && (decide (_ = none) && decide (_ = none))) = _
  rw [decide_eq_true named, Bool.true_and, Bool.eq_iff_iff, Option.isNone_iff_eq_none, foldl_jidNode,
    ← Xml.Attributes.get_eq_none order, ← Xml.Attributes.get_eq_none order, Bool.and_eq_true,
    decide_eq_true_iff, decide_eq_true_iff]
  exact (and_iff_right rfl).symm

theorem startSubscriptions_alike {r : Response (List Subscription)} (shows : Shows IsPacket r s) :
    Xml.Alike (Shows IsPacket) (startSubscriptions r e.name reported)
      (s.step (listProfile .subscriptions .subscription) e) := by
  obtain ⟨name, a⟩ := e
  cases name with
  | error => exact error_alike shows order rfl rfl fun type => rfl
  | subscriptions => exact use_alike shows rfl rfl fun packet => .ret ⟨rfl, _, rfl⟩
  | subscription =>
      apply use_alike shows rfl rfl
      intro packet
      rw [chokes_eq order rfl]
      cases reported.foldl jidNodeAttribute none with
      | none => exact .abort
      | some text => exact .ret ⟨rfl, _, rfl⟩
  | _ => exact pass_alike shows rfl rfl rfl rfl rfl

theorem startAffiliations_alike {r : Response (List Affiliation)} (shows : Shows IsPacket r s) :
    Xml.Alike (Shows IsPacket) (startAffiliations r e.name reported)
      (s.step (listProfile .affiliations .affiliation) e) := by
  obtain ⟨name, a⟩ := e
  cases name with
  | error => exact error_alike shows order rfl rfl fun type => rfl
  | affiliations => exact use_alike shows rfl rfl fun packet => .ret ⟨rfl, _, rfl⟩
  | affiliation =>
      apply use_alike shows rfl rfl
      intro packet
      rw [chokes_eq order rfl]
      cases reported.foldl jidNodeAttribute none with
      | none => exact .abort
      | some text => exact .ret ⟨rfl, _, rfl⟩
  | _ => exact pass_alike shows rfl rfl rfl rfl rfl

theorem startNodeType_alike {r : Response (Option NodeType)} (shows : Shows IsPacket r s) :
    Xml.Alike (Shows IsPacket) (startNodeType r e.name reported) (s.step nodeTypeProfile e) := by
  have others (r : Response (Option NodeType)) (p : Attr × List Char) (ne : p.1 ≠ .type) :
      identityAttribute r p = .ret r := by
    rcases p with ⟨_ | _, text⟩ <;> first | rfl | exact absurd rfl ne
  obtain ⟨name, a⟩ := e
  cases name with
  | error => exact error_alike shows order rfl rfl fun type => rfl
  | identity =>
      change Xml.Alike _ (reported.foldlM identityAttribute r) _
      rw [Xml.Attributes.foldlM_only others order]
      cases typed : a.get .type with
      | none =>
          have free : identified ⟨.identity, a⟩ = false := by
            rw [identified, typed]
            rfl
          apply pass_alike shows rfl rfl free ?_ rfl
          change _ = if identified _ then _ else _
          rw [free]
          rfl
      | some text =>
          have used : identified ⟨.identity, a⟩ = true := by
            rw [identified, typed]
            rfl
          apply use_alike shows rfl used
          intro packet
          apply Xml.Alike.ret
          refine ⟨?_, _, rfl⟩
          change _ = if identified _ then _ else _
          rw [used]
          rfl
  | _ => exact pass_alike shows rfl rfl rfl rfl rfl

theorem startReferences_alike {r : Response (List References.Reference)}
    (shows : Shows IsPacket r s) :
    Xml.Alike (Shows IsPacket) (startReferences r e.name reported)
      (s.step (itemsProfile .reference false) e) := by
  obtain ⟨name, a⟩ := e
  cases name with
  | error => exact error_alike shows order rfl rfl fun type => rfl
  | items => exact use_alike shows rfl rfl fun packet => .ret ⟨rfl, _, rfl⟩
  | reference => exact use_alike shows rfl rfl fun packet => .ret ⟨rfl, _, rfl⟩
  | _ => exact pass_alike shows rfl rfl rfl rfl rfl

end

/-- While texts are read, there is a recurrence for them. -/
def Ready (x : Reader) : Prop :=
  x.listening = true → ∃ e r, x.event = some e ∧ e.recurrence = some r

structure Scheduled (x : ScheduleReader) (s : Status) : Prop where
  shows : Shows IsPacket x.response s
  event : x.reader.event.isSome = s.event
  ready : Ready x.reader

section
variable {x : ScheduleReader} {s : Status} {e : Elem} {reported : List (Attr × List Char)}

theorem scheduled_alike {p : Profile} {y : Reader}
    (first : Xml.Alike (Shows IsPacket) (ScheduleReader.answered x.response e.name reported)
      (s.step p e))
    (read : x.reader.startElement e.name reported = .ret y)
    (event : y.event.isSome = (s.event || e.name = .event)) (ready : Ready y) :
    Xml.Alike Scheduled (x.startElement e.name reported) (s.step p e) := by
  unfold ScheduleReader.startElement
  rw [read]
  simp only [Outcome.ret_bind]
  generalize ScheduleReader.answered x.response e.name reported = answer at first ⊢
  generalize stepped : s.step p e = result at first ⊢
  cases first with
  | ret shows =>
      apply Xml.Alike.ret
      refine ⟨shows, ?_, ready⟩
      unfold Status.step at stepped
      split at stepped
      · cases stepped
      · injection stepped with same
        rw [← same, Status.next_event]
        exact event
  | abort => exact .abort
  | timeout => exact .timeout

theorem startSchedule_alike (order : reported.Perm e.attributes.entries) (scheduled : Scheduled x s) :
    Xml.Alike Scheduled (x.startElement e.name reported) (s.step (itemsProfile .event true) e) := by
  have shows := scheduled.shows
  have event := scheduled.event
  have ready := scheduled.ready
  have seen : x.reader.event.isSome = (s.event || false) := by rw [Bool.or_false, event]
  obtain ⟨name, a⟩ := e
  cases name with
  | error =>
      exact scheduled_alike (error_alike shows order rfl rfl fun type => rfl) rfl seen ready
  | items =>
      exact scheduled_alike (use_alike shows rfl rfl fun packet => .ret ⟨rfl, _, rfl⟩) rfl seen ready
  | event =>
      refine scheduled_alike (use_alike shows rfl rfl fun packet => .ret ⟨rfl, _, rfl⟩) rfl ?_ ?_
      · exact (Bool.or_true _).symm
      · rintro ⟨⟩
  | recurrence =>
      cases stands : x.reader.event with
      | none =>
          rw [stands] at event
          have blocked : s.Blocked (itemsProfile .event true) ⟨.recurrence, a⟩ := by
            apply Or.inl
            change (true && (true && !s.event)) = true
            rw [← event]
            rfl
          rw [Status.step, if_pos blocked]
          have read : x.reader.startElement .recurrence reported = .abort "event" := by
            simp only [Reader.startElement, stands]
          change Xml.Alike _ (Outcome.ret x.response >>= _) _
          rw [Outcome.ret_bind]
          change Xml.Alike _ (x.reader.startElement .recurrence _ >>= _) _
          rw [read]
          exact .abort
      | some old =>
          rw [stands] at event
          have chokes : (itemsProfile .event true).chokes s.event ⟨.recurrence, a⟩ = false := by
            change (true && (true && !s.event)) = false
            rw [← event]
            rfl
          have read : x.reader.startElement .recurrence reported =
              .ret ⟨x.reader.earlier, some { old with recurrence := some {} }, some .recurrence, true⟩ := by
            simp only [Reader.startElement, stands]
          refine scheduled_alike (pass_alike shows rfl chokes rfl rfl rfl) read ?_ ?_
          · rw [← event]
            rfl
          · intro _
            exact ⟨_, _, rfl, rfl⟩
  | _ => exact scheduled_alike (pass_alike shows rfl rfl rfl rfl rfl) rfl seen ready

theorem scheduleData_alike (scheduled : Scheduled x s) (chunk : List Char) :
    Xml.Alike Scheduled (x.characterData chunk) (.ret s) := by
  have kept (y : Reader) (event : y.event.isSome = x.reader.event.isSome) (ready : Ready y) :
      Xml.Alike Scheduled (.ret { x with reader := y }) (.ret s) :=
    .ret ⟨scheduled.shows, event.trans scheduled.event, ready⟩
  change Xml.Alike _ (x.reader.characterData chunk >>= _) _
  unfold Reader.characterData
  split
  · next listening =>
      obtain ⟨e, r, stands, has⟩ := scheduled.ready listening
      simp only [stands, has]
      split
      · exact kept _ (by rw [stands]; rfl) fun _ => ⟨_, _, rfl, rfl⟩
      · next impossible _ => cases impossible
      · exact kept _ rfl scheduled.ready
  · exact kept _ rfl scheduled.ready

end

def Carries (x : MetaReader) : Prop := IsPacket x.response.response

section
variable {x : MetaReader} {packet : Packet (Option Meta)} {attributes : List (Attr × List Char)}

theorem metaStart_carries (carries : Carries x) :
    Outcome.Gives Carries (x.metaStart packet attributes) := by
  unfold MetaReader.metaStart
  split
  · exact .ret ⟨_, rfl⟩
  · split
    · exact .abort
    · exact .ret carries

theorem transducerStart_carries (carries : Carries x) :
    Outcome.Gives Carries (x.transducerStart packet attributes) := by
  apply Outcome.Gives.any_bind
  intro m
  split
  · exact .ret ⟨_, rfl⟩
  · exact .ret carries

theorem mapStart_carries : Outcome.Gives Carries (x.mapStart packet attributes) := by
  apply Outcome.Gives.any_bind
  intro m
  split
  · exact .abort
  · exact .ret ⟨_, rfl⟩

theorem propertyStart_carries (carries : Carries x) :
    Outcome.Gives Carries (x.propertyStart packet attributes) := by
  unfold MetaReader.propertyStart
  split
  · exact .ret carries
  · exact .abort
  · split
    · exact .any_bind fun m => .ret ⟨_, rfl⟩
    · exact .ret carries
    · exact .abort
  · exact .any_bind fun m => .ret ⟨_, rfl⟩

theorem geolocStart_carries (carries : Carries x) :
    Outcome.Gives Carries (x.geolocStart packet) := by
  unfold MetaReader.geolocStart
  split
  · exact .ret carries
  · split
    · exact .any_bind fun m => .ret ⟨_, rfl⟩
    · exact .ret carries
    · exact .abort
  · split
    · exact .any_bind fun m => .ret ⟨_, rfl⟩
    · exact .ret carries
    · exact .abort

/-- The handler of a meta has no branch for errors. -/
theorem handle_carries (x : MetaReader) (call : Xml.Callback Tag Attr) (carries : Carries x) :
    Outcome.Gives Carries (MetaReader.handler.handle x call) := by
  cases call with
  | startElement name attributes =>
      apply Outcome.Gives.any_bind
      intro packet
      have started : Carries { x with parser := x.parser.startElement name } := carries
      cases name with
      | items => exact .ret ⟨_, rfl⟩
      | meta_ => exact metaStart_carries started
      | transducer => exact transducerStart_carries started
      | map => exact mapStart_carries
      | property => exact propertyStart_carries started
      | geoloc => exact geolocStart_carries started
      | _ => exact .ret started
  | characterData chunk =>
      change Outcome.Gives _ (x.characterData chunk)
      unfold MetaReader.characterData
      split
      · split
        · exact .abort
        · split
          · exact .ret carries
          · apply Outcome.Gives.any_bind
            intro packet
            apply Outcome.Gives.any_bind
            intro m
            split
            · exact .abort
            · exact .any_bind fun g => .ret ⟨_, rfl⟩
        · exact .ret carries
      · exact .ret carries
  | endElement name => exact .any_bind fun parser => .ret carries

end

/-- The response is an error, with the type and the code of one of the error elements. -/
def Delivers {α : Type} (r : Response α) (es : List Elem) : Prop :=
  r.responseType = .error ∧ ∃ e ∈ es, ∃ err, errorOf e = some err ∧ r.response = .error err

/-- The condition under which a handler hands an error reply over as an error. The children and the
parents of a collection, the recent item and the meta always come as packets. -/
def ReplyHandler.Passes (h : ReplyHandler) (es : List Elem) : Prop :=
  match h with
  | .error => True
  | .subscribe => Clean subscribeProfile es
  | .subscriptions => Clean (listProfile .subscriptions .subscription) es
  | .affiliations => Clean (listProfile .affiliations .affiliation) es
  | .nodeType => Clean nodeTypeProfile es
  | .schedule => Clean (itemsProfile .event true) es
  | .references => Clean (itemsProfile .reference false) es
  | _ => False

theorem clean_errorProfile (es : List Elem) : Clean errorProfile es :=
  fun _ _ _ _ => ⟨rfl, fun used => (by cases used), fun _ other => absurd rfl other⟩

section
variable {α σ : Type} {P : Body α → Prop} {p : Profile} {es : List Elem}

/-- What a handler that follows the walk delivers. -/
theorem delivers_iff {R : σ → Status → Prop} {x : Outcome Empty σ} {view : σ → Response α}
    (type : ResponseType) (alike : Xml.Alike R x (Xml.walk (Status.step p) { type } es))
    (shows : ∀ a s, R a s → Shows P (view a) s) (typed : ∃ e ∈ es, (errorOf e).isSome) :
    (∃ r, (x >>= fun a => .ret (view a)) = .ret r ∧ Delivers r es) ↔ Clean p es := by
  rw [← Clean.iff_walk type typed]
  constructor
  · rintro ⟨r, ret, delivers⟩
    obtain ⟨a, eq, same⟩ := Outcome.bind_eq_ret.mp ret
    injection same with same
    obtain ⟨s, walked, related⟩ := alike.ret_left eq
    refine ⟨s, walked, ?_⟩
    rw [← (shows a s related).type, same]
    exact delivers.1
  · rintro ⟨s, walked, type⟩
    obtain ⟨a, eq, related⟩ := alike.ret_right walked
    have points := shows a s related
    refine ⟨view a, by rw [eq]; rfl, points.type.trans type, ?_⟩
    have last := (Status.walk_eq_ret.mp walked).2
    have some : s.error.isSome := by
      rw [last]
      exact Status.foldl_error.mpr (.inr typed)
    obtain ⟨err, holds⟩ := Option.isSome_iff_exists.mp some
    rw [last] at holds
    rcases Status.foldl_error_mem holds with none | ⟨e, mem, is⟩
    · cases none
    · rw [← last] at holds
      exact ⟨e, mem, err, is, points.error_some holds⟩

theorem xmlParse_eq {keep : ParserData → Tag → ParserData}
    (steps : ∀ x depth n name, ParserData.Level x depth n →
      ParserData.Level (keep x name) (depth + 1) (n + 1)) (h : Xml.Handler Tag Attr σ) (s : σ)
    {ss : List (Xml.Stanza Tag Attr)} {calls : List (Xml.Callback Tag Attr)}
    (reports : Xml.Reports ss calls) : xmlParse keep h s calls = h.run s calls := by
  have root : ParserData.Level {} 0 0 := ⟨rfl, .inl ⟨rfl, rfl⟩⟩
  obtain ⟨y, through, -⟩ := ParserData.Level.run steps reports root
  rw [xmlParse, Xml.Handler.run_beside _ _ through, bind_assoc]
  exact bind_pure _

/-- A handler that has a response and reads no texts. -/
theorem answers_iff (P : Body α → Prop)
    {start : Response α → Tag → Attributes → Outcome Empty (Response α)}
    (follows : ∀ {s : Status} {e : Elem} {reported : List (Attr × List Char)},
      reported.Perm e.attributes.entries → ∀ {r : Response α}, Shows P r s →
        Xml.Alike (Shows P) (start r e.name reported) (s.step p e))
    {type : ResponseType} {body : Body α} (first : P body) {ss : List (Xml.Stanza Tag Attr)}
    {calls : List (Xml.Callback Tag Attr)} (reports : Xml.Reports ss calls)
    (typed : ∃ e ∈ Xml.elements ss, (errorOf e).isSome) :
    (∃ r, xmlParse ParserData.startElement { startElement := start } ⟨type, body⟩ calls = .ret r ∧
      Delivers r (Xml.elements ss)) ↔ Clean p (Xml.elements ss) := by
  have begins : Shows P (⟨type, body⟩ : Response α) { type } := ⟨rfl, first⟩
  have alike := @Xml.Handler.follows _ _ _ _ (Shows P) { startElement := start } (Status.step p)
    (fun r s shows e reported order => follows order shows)
    (fun r s shows chunk => .ret shows) (fun r s shows name => .ret shows) _ _ reports _ _ begins
  have delivers := @delivers_iff _ _ P p _ _ _ id type alike (fun r s shows => shows) typed
  rw [← delivers, xmlParse_eq (fun x depth n name at_ => at_.start name) _ _ reports]
  rw [show ∀ x : Outcome Empty (Response α), (x >>= fun a => .ret (id a)) = x from bind_pure]

end

/-- A handler that makes the response a packet in the end. -/
theorem never_delivers {σ α : Type} {x : Outcome Empty σ} {f : σ → Response α}
    (packet : ∀ a, (f a).responseType = .packet) (es : List Elem) :
    (∃ r, (x >>= fun a => .ret (f a)) = .ret r ∧ Delivers r es) ↔ False := by
  apply iff_false_intro
  rintro ⟨r, ret, type, -⟩
  obtain ⟨a, -, same⟩ := Outcome.bind_eq_ret.mp ret
  injection same with same
  rw [← same, packet a] at type
  cases type

theorem schedule_iff {ss : List (Xml.Stanza Tag Attr)} {calls : List (Xml.Callback Tag Attr)}
    (type : ResponseType) (reports : Xml.Reports ss calls)
    (typed : ∃ e ∈ Xml.elements ss, (errorOf e).isSome) :
    (∃ r, ReplyHandler.schedule.answer type calls = .ret r ∧ Delivers r (Xml.elements ss)) ↔
      Clean (itemsProfile .event true) (Xml.elements ss) := by
  have begins : Scheduled { response := packetNew type () } { type } :=
    ⟨⟨rfl, _, rfl⟩, rfl, fun listening => by cases listening⟩
  have alike := @Xml.Handler.follows _ _ _ _ Scheduled
    { startElement := ScheduleReader.startElement, characterData := ScheduleReader.characterData }
    (Status.step (itemsProfile .event true))
    (fun x s scheduled e reported order => startSchedule_alike order scheduled)
    (fun x s scheduled chunk => scheduleData_alike scheduled chunk)
    (fun x s scheduled name => .ret scheduled) _ _ reports _ _ begins
  have shows (x : ScheduleReader) (s : Status) (scheduled : Scheduled x s) :
      Shows IsPacket x.answer s := by
    refine ⟨scheduled.shows.type, ?_⟩
    cases holds : s.error with
    | none =>
        obtain ⟨packet, is⟩ := scheduled.shows.error_none holds
        refine ⟨{ packet with payload := x.reader.events }, ?_⟩
        simp only [ScheduleReader.answer, is]
    | some err =>
        simp only [ScheduleReader.answer, scheduled.shows.error_some holds]
  rw [← delivers_iff type alike shows typed,
    ← xmlParse_eq (fun x depth n name at_ => at_.shiftStart name) _ _ reports]
  rfl

/-- A reply with an error in it is handed over as an error, with the type as description and the code
as number, exactly under the condition of the handler. -/
theorem error_handed_over_iff (h : ReplyHandler) (type : ResponseType) {reply : Xml.Stanza Tag Attr}
    {calls : List (Xml.Callback Tag Attr)} (reports : Xml.Reports [reply] calls)
    (typed : ∃ e ∈ Xml.elements [reply], (errorOf e).isSome) :
    (∃ r, h.answer type calls = .ret r ∧ Delivers r (Xml.elements [reply])) ↔
      h.Passes (Xml.elements [reply]) := by
  cases h with
  | error =>
      exact (answers_iff (fun _ : Body Unit => True) startError_alike trivial reports typed).trans
        (iff_of_true (clean_errorProfile _) trivial)
  | subscribe =>
      exact answers_iff (fun _ : Body Unit => True) startSubscribe_alike trivial reports typed
  | subscriptions =>
      exact answers_iff (@IsPacket (List Subscription)) startSubscriptions_alike ⟨_, rfl⟩ reports typed
  | affiliations =>
      exact answers_iff (@IsPacket (List Affiliation)) startAffiliations_alike ⟨_, rfl⟩ reports typed
  | nodeType =>
      exact answers_iff (@IsPacket (Option NodeType)) startNodeType_alike ⟨_, rfl⟩ reports typed
  | references =>
      exact answers_iff (@IsPacket (List References.Reference)) startReferences_alike ⟨_, rfl⟩ reports
        typed
  | schedule => exact schedule_iff type reports typed
  | collectionChildren => exact never_delivers (fun r => rfl) _
  | collectionParents => exact never_delivers (fun x => rfl) _
  | itemRecent => exact never_delivers (fun r => rfl) _
  | meta_ =>
      apply iff_false_intro
      rintro ⟨r, ret, -, e, -, err, -, points⟩
      obtain ⟨x, ran, same⟩ := Outcome.bind_eq_ret.mp ret
      injection same with same
      have carries : Carries x :=
        Xml.Handler.run_gives handle_carries calls (⟨_, rfl⟩ : Carries (MetaReader.start type)) x ran
      obtain ⟨packet, is⟩ := carries
      rw [← same, is] at points
      cases points

def notFound : Xml.Stanza Tag Attr :=
  .tag (.other "iq".toList) .empty
    [.tag .error ((Xml.Attributes.empty.set .code "404".toList).set .type "cancel".toList) []]

theorem notFound_subscribe :
    ∃ r, ReplyHandler.subscribe.answer .unknown (Xml.report [notFound]) = .ret r ∧
      Delivers r (Xml.elements [notFound]) := by
  have typed : ∃ e ∈ Xml.elements [notFound], (errorOf e).isSome :=
    ⟨_, List.mem_cons_of_mem _ (List.mem_cons_self ..), rfl⟩
  refine (error_handed_over_iff .subscribe .unknown (Xml.reports_report _) typed).mpr ?_
  intro before e after split
  have mem : e ∈ Xml.elements [notFound] := by
    rw [split]
    exact List.mem_append_right _ (List.mem_cons_self ..)
  have other : subscribed e = false := by
    rcases List.mem_cons.mp mem with rfl | mem
    · rfl
    · obtain rfl := List.mem_singleton.mp mem
      rfl
  refine ⟨rfl, fun used => (by cases used), fun _ changed => absurd ?_ changed⟩
  change (if subscribed e then _ else _) = _
  rw [other]
  rfl

/-- The children of a collection that was not found are a packet, without any. -/
theorem notFound_collectionChildren :
    (∃ e ∈ Xml.elements [notFound], errorOf e = some ⟨some 404, some "cancel".toList⟩) ∧
      Xml.Reports [notFound] (Xml.report [notFound]) ∧
      ∃ r, ReplyHandler.collectionChildren.answer .unknown (Xml.report [notFound]) = .ret r ∧
        r.responseType = .packet := by
  refine ⟨⟨_, List.mem_cons_of_mem _ (List.mem_cons_self ..), ?_⟩, Xml.reports_report _, _, rfl, rfl⟩
  decide

end Mio.LibMio.Replies
