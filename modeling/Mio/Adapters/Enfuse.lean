import Mio.Lib.Scan
import Mio.Lib.Tokens

/-! The parsers of the Enfuse adapter (`libfuse.c`): five walks over the tokens of a reply that make a list
of records. -/
namespace Mio.Adapters.Enfuse

open Tokens

/-- What the C standard leaves undefined, and the way out of a parser in the middle. -/
inductive Halt where
  | null
  | indeterminate
  | beyond
  | returnNull
deriving DecidableEq

/-- `double`, with `atof`, the conversion of an `int` and the division by 100.0. -/
structure Doubles (D : Type) where
  zero : D
  atof : List Char → D
  ofInt : ℤ → D
  hundredth : D → D

/-- `enfuse_location_t`, as `new_enfuse_location` makes it. -/
@[ext] structure Location (D : Type) where
  id : ℤ := 0
  name : Option (List Char) := none
  address1 : Option (List Char) := none
  address2 : Option (List Char) := none
  address3 : Option (List Char) := none
  city : Option (List Char) := none
  state : Option (List Char) := none
  zipcode : Option (List Char) := none
  timezoneID : Option (List Char) := none
  latitude : D
  longitude : D

/-- `enfuse_branch_t`, without what no reply has. -/
@[ext] structure Branch where
  branchId : ℤ := 0
  panelId : ℤ := 0
  locationId : ℤ := 0
  label : Option (List Char) := none
  name : Option (List Char) := none
  ratedAmps : ℤ := 0
  breakerPosition : ℤ := 0
  nPhases : ℤ := 0

/-- `enfuse_panel_t`. -/
@[ext] structure Panel where
  panelId : ℤ := 0
  locationId : ℤ := 0
  label : Option (List Char) := none
  name : Option (List Char) := none

/-- `enfuse_status_t`. -/
@[ext] structure Status where
  version : Option (List Char) := none
  startedAt : Option (List Char) := none
  sessionId : Option (List Char) := none
  createdAt : Option (List Char) := none
  userName : Option (List Char) := none
  customer : Option (List Char) := none
  email : Option (List Char) := none
  firstName : Option (List Char) := none
  lastName : Option (List Char) := none
  isAdmin : Option (List Char) := none

/-- `enfuse_data_t`. -/
@[ext] structure Data (D : Type) where
  branchId : ℤ := 0
  phase : ℤ := 0
  locationId : ℤ := 0
  localDateStamp : Option (List Char) := none
  utcDateStamp : Option (List Char) := none
  kw : D
  va : D
  wattMinute : D
  vaMinute : D
  minCurrent : D
  maxCurrent : D
  minVoltage : D
  maxVoltage : D

inductive ParseState where
  | start
  | arrayObj
  | key
  | value
  | stop
deriving DecidableEq

/-- The variables of a parser; a key is read only after one has been set. The records are those behind
the pointer to them, the newest first, and `none` is a pointer that has not been set. -/
structure Walker (R : Type) where
  subTokens : ℤ := 0
  state : ParseState := .start
  key : List Char := []
  records : Option (List R)

/-- What the parsers do not have in common: the records at the start, the state behind the first token,
what an object at the place of a key does to the records, whether an array may stand there, the keys that
end the parser, what the first object of an array does, and the fields. -/
structure Parser (R : Type) where
  records : Option (List R)
  first : ParseState
  keyObject : Option (List R) → Outcome Halt (Option (List R))
  keyArray : Bool
  ends : List Char → Bool
  arrayObj : Option (List R) → Option (List R)
  fields : List (String × (List Char → R → R))

namespace Parser

variable {R : Type} (p : Parser R)

/-- A value under a key; only a key of a field is written through the pointer. -/
def store (key val : List Char) (records : Option (List R)) : Outcome Halt (Option (List R)) :=
  match p.fields.find? fun f => f.1.toList = key with
  | none => .ret records
  | some (_, set) =>
      match records with
      | none => .throw .indeterminate
      | some [] => .throw .null
      | some (r :: rest) => .ret (some (set val r :: rest))

def step (w : Walker R) (t : Token) : Outcome Halt (Walker R) :=
  let subTokens := w.subTokens + t.inside
  match w.state with
  | .start => .ret { w with subTokens, state := if subTokens = 0 then .stop else p.first }
  | .key =>
      let subTokens := subTokens - 1
      if t.kind = .object then do
        let records ← p.keyObject w.records
        return { w with subTokens, records }
      else if t.kind = .array ∧ p.keyArray then .ret { w with subTokens, state := .arrayObj }
      else if p.ends t.text then .throw .returnNull
      else .ret { w with subTokens, state := .value, key := t.text }
  | .arrayObj => .ret { w with subTokens := subTokens - 1, state := .key, records := p.arrayObj w.records }
  | .value => do
      let subTokens := subTokens - 1
      let records ← p.store w.key t.text w.records
      let state := if subTokens = 0 then .stop else if t.kind = .array then .arrayObj else .key
      return { w with subTokens, records, state }
  | .stop => .ret { w with subTokens }

def parse (tokens : List Token) : Outcome Halt (List R) :=
  match walk .beyond p.step 1 { records := p.records } tokens with
  | .ret w =>
      match w.records with
      | none => .throw .indeterminate
      | some records => .ret records
  | .throw .returnNull => .ret []
  | .throw halt => .throw halt
  | .abort what => .abort what
  | .timeout => .timeout

end Parser

def prepend {R : Type} (new : R) (records : Option (List R)) : Option (List R) := records.map (new :: ·)

section Fields

variable {D : Type} (c : Doubles D)

/-- The state is put into the city. -/
def locationFields : List (String × (List Char → Location D → Location D)) :=
  [("name", fun val r => { r with name := some val }),
    ("id", fun val r => { r with id := Scan.atoi val }),
    ("address1", fun val r => { r with address1 := some val }),
    ("address2", fun val r => { r with address2 := some val }),
    ("address3", fun val r => { r with address3 := some val }),
    ("city", fun val r => { r with city := some val }),
    ("state", fun val r => { r with city := some val }),
    ("zipCode", fun val r => { r with zipcode := some val }),
    ("timeZoneId", fun val r => { r with timezoneID := some val }),
    ("latitude", fun val r => { r with latitude := c.atof val }),
    ("longitude", fun val r => { r with longitude := c.atof val })]

/-- Without the location. -/
def branchFields : List (String × (List Char → Branch → Branch)) :=
  [("branchId", fun val r => { r with branchId := Scan.atoi val }),
    ("panelId", fun val r => { r with panelId := Scan.atoi val }),
    ("label", fun val r => { r with label := some val }),
    ("name", fun val r => { r with name := some val }),
    ("ratedAmps", fun val r => { r with ratedAmps := Scan.atoi val }),
    ("breakerPosition", fun val r => { r with breakerPosition := Scan.atoi val }),
    ("numPhases", fun val r => { r with nPhases := Scan.atoi val })]

def panelFields : List (String × (List Char → Panel → Panel)) :=
  [("panelId", fun val r => { r with panelId := Scan.atoi val }),
    ("locationId", fun val r => { r with locationId := Scan.atoi val }),
    ("label", fun val r => { r with label := some val }),
    ("name", fun val r => { r with name := some val })]

def statusFields : List (String × (List Char → Status → Status)) :=
  [("version", fun val r => { r with version := some val }),
    ("startedAt", fun val r => { r with startedAt := some val }),
    ("sessionId", fun val r => { r with sessionId := some val }),
    ("createdAt", fun val r => { r with createdAt := some val }),
    ("userName", fun val r => { r with userName := some val }),
    ("customer", fun val r => { r with customer := some val }),
    ("email", fun val r => { r with email := some val }),
    ("firstName", fun val r => { r with firstName := some val }),
    ("lastName", fun val r => { r with lastName := some val }),
    ("email", fun val r => { r with email := some val }),
    ("isAdmin", fun val r => { r with isAdmin := some val })]

/-- Three of the numbers are read as whole ones. -/
def dataFields : List (String × (List Char → Data D → Data D)) :=
  [("branchId", fun val r => { r with branchId := Scan.atoi val }),
    ("phase", fun val r => { r with phase := Scan.atoi val }),
    ("locationId", fun val r => { r with locationId := Scan.atoi val }),
    ("dateStampLocal", fun val r => { r with localDateStamp := some val }),
    ("dateStampUTC", fun val r => { r with utcDateStamp := some val }),
    ("kw", fun val r => { r with kw := c.atof val }),
    ("va", fun val r => { r with va := c.atof val }),
    ("wattMinute", fun val r => { r with wattMinute := c.hundredth (c.atof val) }),
    ("vaMinute", fun val r => { r with vaMinute := c.ofInt (Scan.atoi val) }),
    ("minCurrent", fun val r => { r with minCurrent := c.hundredth (c.atof val) }),
    ("maxCurrent", fun val r => { r with maxCurrent := c.hundredth (c.ofInt (Scan.atoi val)) }),
    ("minVoltage", fun val r => { r with minVoltage := c.hundredth (c.atof val) }),
    ("maxVoltage", fun val r => { r with maxVoltage := c.hundredth (c.ofInt (Scan.atoi val)) })]

def newLocation : Location D := { latitude := c.zero, longitude := c.zero }

def newData : Data D where
  kw := c.zero
  va := c.zero
  wattMinute := c.zero
  vaMinute := c.zero
  minCurrent := c.zero
  maxCurrent := c.zero
  minVoltage := c.zero
  maxVoltage := c.zero

/-- `_location_parse`; its pointer is not set at the start, and moves to the new record. -/
def locationParser : Parser (Location D) where
  records := none
  first := .key
  keyObject
    | none => .throw .indeterminate
    | some [] => .throw .null
    | some (_ :: _) => .ret (some [newLocation c])
  keyArray := true
  ends := fun _ => false
  arrayObj := fun _ => some [newLocation c]
  fields := locationFields c

/-- `_branch_parse`; in an array under a key only the newest record stays behind the pointer. -/
def branchParser : Parser Branch where
  records := some []
  first := .key
  keyObject := fun records => .ret (prepend {} records)
  keyArray := false
  ends := fun _ => false
  arrayObj := fun _ => some [{}]
  fields := branchFields

/-- `_panel_parse`. -/
def panelParser : Parser Panel where
  records := some []
  first := .key
  keyObject := fun records => .ret (prepend {} records)
  keyArray := false
  ends := fun _ => false
  arrayObj := prepend {}
  fields := panelFields

/-- `_status_parse`. -/
def statusParser : Parser Status where
  records := some []
  first := .key
  keyObject := fun records => .ret (prepend {} records)
  keyArray := false
  ends := fun _ => false
  arrayObj := prepend {}
  fields := statusFields

/-- `_data_parse`; its first record is there from the start. -/
def dataParser : Parser (Data D) where
  records := some [newData c]
  first := .arrayObj
  keyObject := fun records => .ret (prepend (newData c) records)
  keyArray := true
  ends := fun key => key = "[]".toList
  arrayObj := id
  fields := dataFields c

end Fields

section Meant

variable {D : Type} (c : Doubles D) (get : List Char → Option (List Char))

def intAt (key : String) : ℤ := ((get key.toList).map Scan.atoi).getD 0

def doubleAt (key : String) : D := ((get key.toList).map c.atof).getD c.zero

def hundredthAt (key : String) : D := ((get key.toList).map fun val => c.hundredth (c.atof val)).getD c.zero

/-- The record of an object, from the values under its keys. -/
def Branch.of : Branch where
  branchId := intAt get "branchId"
  panelId := intAt get "panelId"
  locationId := intAt get "locationId"
  label := get "label".toList
  name := get "name".toList
  ratedAmps := intAt get "ratedAmps"
  breakerPosition := intAt get "breakerPosition"
  nPhases := intAt get "numPhases"

def Panel.of : Panel where
  panelId := intAt get "panelId"
  locationId := intAt get "locationId"
  label := get "label".toList
  name := get "name".toList

def Status.of : Status where
  version := get "version".toList
  startedAt := get "startedAt".toList
  sessionId := get "sessionId".toList
  createdAt := get "createdAt".toList
  userName := get "userName".toList
  customer := get "customer".toList
  email := get "email".toList
  firstName := get "firstName".toList
  lastName := get "lastName".toList
  isAdmin := get "isAdmin".toList

def Location.of : Location D where
  id := intAt get "id"
  name := get "name".toList
  address1 := get "address1".toList
  address2 := get "address2".toList
  address3 := get "address3".toList
  city := get "city".toList
  state := get "state".toList
  zipcode := get "zipCode".toList
  timezoneID := get "timeZoneId".toList
  latitude := doubleAt c get "latitude"
  longitude := doubleAt c get "longitude"

def Data.of : Data D where
  branchId := intAt get "branchId"
  phase := intAt get "phase"
  locationId := intAt get "locationId"
  localDateStamp := get "dateStampLocal".toList
  utcDateStamp := get "dateStampUTC".toList
  kw := doubleAt c get "kw"
  va := doubleAt c get "va"
  wattMinute := hundredthAt c get "wattMinute"
  vaMinute := doubleAt c get "vaMinute"
  minCurrent := hundredthAt c get "minCurrent"
  maxCurrent := hundredthAt c get "maxCurrent"
  minVoltage := hundredthAt c get "minVoltage"
  maxVoltage := hundredthAt c get "maxVoltage"

/-- The record that `_branch_parse` makes. -/
def Branch.read : Branch := { Branch.of get with locationId := 0 }

def Doubles.whole : Doubles D := { c with atof := fun val => c.ofInt (Scan.atoi val) }

/-- The record that `_data_parse` makes. -/
def Data.read : Data D :=
  { Data.of c get with
    vaMinute := doubleAt c.whole get "vaMinute"
    maxCurrent := hundredthAt c.whole get "maxCurrent"
    maxVoltage := hundredthAt c.whole get "maxVoltage" }

end Meant

/-- A parser fills in its records field by field. -/
structure Parser.Reads {R : Type} (p : Parser R) (new : R) (of : (List Char → Option (List Char)) → R) :
    Prop where
  first : of (fun _ => none) = new
  keyObject : ∀ records, p.keyObject (some records) = .ret (some (new :: records))
  known : ∀ f ∈ p.fields, ∀ get val, f.2 val (of get) = of (Function.update get f.1.toList (some val))
  other : ∀ get key val, (∀ f ∈ p.fields, f.1.toList ≠ key) → of (Function.update get key val) = of get

section Reads

variable {D : Type} (c : Doubles D)

theorem reads_branch : branchParser.Reads {} Branch.read where
  first := rfl
  keyObject := fun _ => rfl
  known := by
    simp (disch := decide) only [branchParser, branchFields, List.forall_mem_cons, List.not_mem_nil,
      IsEmpty.forall_iff, implies_true, and_true, Branch.read, Branch.of, intAt, Function.update_self,
      Function.update_of_ne, Option.map_some, Option.getD_some]
  other := by
    intro get key val new
    simp only [branchParser, branchFields, List.forall_mem_cons] at new
    simp only [Branch.read, Branch.of, intAt, Function.update_of_ne, new, ne_eq, not_false_eq_true]

theorem reads_panel : panelParser.Reads {} Panel.of where
  first := rfl
  keyObject := fun _ => rfl
  known := by
    simp (disch := decide) only [panelParser, panelFields, List.forall_mem_cons, List.not_mem_nil,
      IsEmpty.forall_iff, implies_true, and_true, Panel.of, intAt, Function.update_self,
      Function.update_of_ne, Option.map_some, Option.getD_some]
  other := by
    intro get key val new
    simp only [panelParser, panelFields, List.forall_mem_cons] at new
    simp only [Panel.of, intAt, Function.update_of_ne, new, ne_eq, not_false_eq_true]

theorem reads_status : statusParser.Reads {} Status.of where
  first := rfl
  keyObject := fun _ => rfl
  known := by
    simp (disch := decide) only [statusParser, statusFields, List.forall_mem_cons, List.not_mem_nil,
      IsEmpty.forall_iff, implies_true, and_true, Status.of, Function.update_self, Function.update_of_ne]
  other := by
    intro get key val new
    simp only [statusParser, statusFields, List.forall_mem_cons] at new
    simp only [Status.of, Function.update_of_ne, new, ne_eq, not_false_eq_true]

theorem reads_data : (dataParser c).Reads (newData c) (Data.read c) where
  first := rfl
  keyObject := fun _ => rfl
  known := by
    simp (disch := decide) only [dataParser, dataFields, List.forall_mem_cons, List.not_mem_nil,
      IsEmpty.forall_iff, implies_true, and_true, Data.read, Data.of, intAt, doubleAt, hundredthAt,
      Doubles.whole, Function.update_self, Function.update_of_ne, Option.map_some, Option.getD_some]
  other := by
    intro get key val new
    simp only [dataParser, dataFields, List.forall_mem_cons] at new
    simp only [Data.read, Data.of, intAt, doubleAt, hundredthAt, Doubles.whole, Function.update_of_ne, new,
      ne_eq, not_false_eq_true]

end Reads

theorem exists_later {α : Type} {P : α → Prop} {x : α} {l : List α} (some : ∃ y ∈ x :: l, P y) (not : ¬ P x) :
    (∃ y ∈ l, P y) ∧ 0 < l.length := by
  obtain ⟨y, mem, own⟩ := some
  rcases List.mem_cons.mp mem with rfl | mem
  · exact absurd own not
  · exact ⟨⟨y, mem, own⟩, List.length_pos_of_mem mem⟩

namespace Parser

variable {R : Type} {p : Parser R} {new : R} {of : (List Char → Option (List Char)) → R}

section Objects

variable (reads : p.Reads new of)
include reads

theorem store_ret (get : List Char → Option (List Char)) (key val : List Char) (rest : List R) :
    p.store key val (some (of get :: rest)) = .ret (some (of (Function.update get key (some val)) :: rest)) := by
  unfold store
  cases found : p.fields.find? fun f => f.1.toList = key with
  | none =>
      have new := fun f mem => by simpa using List.find?_eq_none.mp found f mem
      rw [reads.other get key (some val) new]
  | some f =>
      have own : f.1.toList = key := by simpa using List.find?_some found
      have known := reads.known f (List.mem_of_find?_eq_some found) get val
      rw [own] at known
      dsimp only
      rw [known]

omit reads in
theorem step_key {w : Walker R} (state : w.state = .key) {t : Token} (scalar : t.Scalar)
    (goes : p.ends t.text = false) :
    p.step w t = .ret { w with subTokens := w.subTokens - 1, state := .value, key := t.text } := by
  unfold step
  rw [state, scalar.inside]
  simp [scalar.1, scalar.2, goes]

omit reads in
theorem step_value {w : Walker R} (state : w.state = .value) {t : Token} (scalar : t.Scalar) :
    p.step w t = p.store w.key t.text w.records >>= fun records => .ret
      { w with
        subTokens := w.subTokens - 1
        records
        state := if w.subTokens - 1 = 0 then .stop else .key } := by
  unfold step
  rw [state, scalar.inside]
  simp [scalar.2]

theorem field_ret (f : Field) (goes : p.ends f.key = false) {w : Walker R} (state : w.state = .key)
    {get : List Char → Option (List Char)} {rest : List R} (records : w.records = some (of get :: rest)) :
    ∃ w', f.tokens.foldlM p.step w = .ret w' ∧ w'.subTokens = w.subTokens - 2 ∧
      w'.records = some (of (Function.update get f.key (some f.value)) :: rest) ∧
      (w.subTokens ≠ 2 → w'.state = .key) := by
  have stored := store_ret reads get f.key f.value rest
  rw [Field.tokens, List.foldlM_cons, step_key state f.keyToken_scalar goes, Outcome.ret_bind,
    List.foldlM_cons, step_value rfl f.valueToken_scalar]
  dsimp only [Field.keyToken, Field.valueToken]
  rw [records, stored]
  refine ⟨_, rfl, ?_, rfl, fun more => if_neg ?_⟩
  · dsimp only
    omega
  · omega

theorem fields_ret (history : List (List Char × List Char)) (fs : List Field)
    (goes : ∀ f ∈ fs, p.ends f.key = false) {s : ℤ} (left : 0 ≤ s) {w : Walker R} (state : w.state = .key)
    (sub : w.subTokens = s + 2 * fs.length) {rest : List R}
    (records : w.records = some (of (latest history) :: rest)) :
    ∃ w', (fs.flatMap Field.tokens).foldlM p.step w = .ret w' ∧ w'.subTokens = s ∧
      w'.records = some (of (latest (history ++ fs.map fun f => (f.key, f.value))) :: rest) ∧
      (s ≠ 0 → w'.state = .key) := by
  induction fs generalizing history w with
  | nil =>
      rw [List.map_nil, List.append_nil]
      exact ⟨w, rfl, by simpa using sub, records, fun _ => state⟩
  | cons f fs ih =>
      obtain ⟨first, others⟩ := List.forall_mem_cons.mp goes
      obtain ⟨w₁, run, sub₁, records₁, state₁⟩ := field_ret reads f first state records
      rw [← latest_concat] at records₁
      rw [List.length_cons] at sub
      rw [List.flatMap_cons, List.foldlM_append, run, Outcome.ret_bind, List.map_cons, List.append_cons]
      cases fs with
      | nil =>
          rw [List.map_nil, List.append_nil]
          refine ⟨w₁, rfl, ?_, records₁, fun more => state₁ ?_⟩
          · rw [sub₁, sub]
            simp
          · rw [sub]
            simpa using more
      | cons g fs =>
          apply ih _ others (state₁ _) _ records₁
          · rw [sub, List.length_cons]
            omega
          · rw [sub₁, sub]
            push_cast
            ring

theorem step_object (o : Flat) {s : ℤ} {w : Walker R} (state : w.state = .key) (sub : w.subTokens = s + 1)
    {rs : List R} (records : w.records = some rs) :
    p.step w ⟨.object, o.text, 2 * o.fields.length⟩ = .ret
      { w with
        subTokens := s + 2 * o.fields.length
        records := some (of (latest []) :: rs) } := by
  have new : of (latest []) = new := reads.first
  unfold step
  rw [state, records, sub, new]
  simp only [Token.inside, reads.keyObject, if_true, Outcome.ret_bind, Outcome.pure_eq_ret]
  congr 2
  push_cast
  ring

theorem object_ret (o : Flat) (goes : ∀ f ∈ o.fields, p.ends f.key = false) {s : ℤ} (left : 0 ≤ s)
    {w : Walker R} (state : w.state = .key) (sub : w.subTokens = s + 1) {rs : List R}
    (records : w.records = some rs) :
    ∃ w', o.tokens.foldlM p.step w = .ret w' ∧ w'.subTokens = s ∧ w'.records = some (of o.get :: rs) ∧
      (s ≠ 0 → w'.state = .key) := by
  rw [Flat.tokens, List.foldlM_cons, step_object reads o state sub records, Outcome.ret_bind]
  exact fields_ret reads [] o.fields goes left (by exact state) rfl rfl

theorem objects_ret (os : List Flat) (goes : ∀ o ∈ os, ∀ f ∈ o.fields, p.ends f.key = false) {w : Walker R}
    (state : os ≠ [] → w.state = .key) (sub : w.subTokens = os.length) {rs : List R}
    (records : w.records = some rs) :
    ∃ w', (os.flatMap Flat.tokens).foldlM p.step w = .ret w' ∧
      w'.records = some ((os.map fun o => of o.get).reverse ++ rs) := by
  induction os generalizing w rs with
  | nil => exact ⟨w, rfl, records⟩
  | cons o os ih =>
      obtain ⟨first, others⟩ := List.forall_mem_cons.mp goes
      obtain ⟨w₁, run, sub₁, records₁, state₁⟩ := object_ret reads o first (s := os.length) (by omega)
        (state (List.cons_ne_nil _ _)) (by rw [sub, List.length_cons]; rfl) records
      rw [List.flatMap_cons, List.foldlM_append, run, Outcome.ret_bind]
      obtain ⟨w', rest, records'⟩ := ih others (fun more => state₁ (by simpa using more)) sub₁ records₁
      refine ⟨w', rest, ?_⟩
      rw [records', List.map_cons, List.reverse_cons, List.append_assoc]
      rfl

/-- Under a key that ends the parser nothing more is read. -/
theorem fields_ends (history : List (List Char × List Char)) (fs : List Field)
    (ends : ∃ f ∈ fs, p.ends f.key = true) {s : ℤ} (left : 0 ≤ s) {w : Walker R} (state : w.state = .key)
    (sub : w.subTokens = s + 2 * fs.length) {rest : List R}
    (records : w.records = some (of (latest history) :: rest)) :
    (fs.flatMap Field.tokens).foldlM p.step w = .throw .returnNull := by
  induction fs generalizing history w with
  | nil =>
      obtain ⟨f, mem, -⟩ := ends
      cases mem
  | cons f fs ih =>
      rw [List.flatMap_cons, List.foldlM_append]
      by_cases here : p.ends f.key = true
      · have out : p.step w f.keyToken = .throw .returnNull := by
          unfold step
          rw [state]
          simp [Field.keyToken, here]
        rw [Field.tokens, List.foldlM_cons, out]
        rfl
      · obtain ⟨w₁, run, sub₁, records₁, state₁⟩ := field_ret reads f (by simpa using here) state records
        rw [← latest_concat] at records₁
        rw [List.length_cons] at sub
        obtain ⟨later, more⟩ := exists_later ends here
        rw [run, Outcome.ret_bind]
        apply ih _ later (state₁ _) _ records₁
        · omega
        · omega

theorem objects_ends (os : List Flat) (ends : ∃ o ∈ os, ∃ f ∈ o.fields, p.ends f.key = true) {w : Walker R}
    (state : w.state = .key) (sub : w.subTokens = os.length) {rs : List R} (records : w.records = some rs) :
    (os.flatMap Flat.tokens).foldlM p.step w = .throw .returnNull := by
  induction os generalizing w rs with
  | nil =>
      obtain ⟨o, mem, -⟩ := ends
      cases mem
  | cons o os ih =>
      rw [List.length_cons, Nat.cast_succ] at sub
      rw [List.flatMap_cons, List.foldlM_append]
      by_cases here : ∃ f ∈ o.fields, p.ends f.key = true
      · rw [Flat.tokens, List.foldlM_cons, step_object reads o state sub records, Outcome.ret_bind,
          fields_ends reads [] o.fields here (Int.natCast_nonneg os.length) (by exact state) rfl rfl]
        rfl
      · have goes : ∀ f ∈ o.fields, p.ends f.key = false := by simpa using here
        obtain ⟨later, more⟩ := exists_later ends here
        obtain ⟨w₁, run, sub₁, records₁, state₁⟩ :=
          object_ret reads o goes (Int.natCast_nonneg os.length) state sub records
        rw [run, Outcome.ret_bind]
        exact ih later (state₁ (by omega)) sub₁ records₁

end Objects

/-- The pointer to the records leads to none. -/
def Bare (records : Option (List R)) : Prop := records = none ∨ records = some []

theorem store_bare {key val : List Char} {records after : Option (List R)} (bare : Bare records)
    (run : p.store key val records = .ret after) : after = records := by
  unfold store at run
  split at run
  · cases run
    rfl
  · rcases bare with rfl | rfl <;> cases run

theorem step_bare {w w' : Walker R} {t : Token} (scalar : t.Scalar) (bare : Bare w.records)
    (state : w.state ≠ .arrayObj) (first : p.first ≠ .arrayObj) (run : p.step w t = .ret w') :
    w'.records = w.records ∧ w'.state ≠ .arrayObj := by
  cases at_ : w.state with
  | start =>
      unfold step at run
      rw [at_] at run
      cases run
      refine ⟨rfl, ?_⟩
      dsimp only
      split
      · decide
      · exact first
  | arrayObj => exact absurd at_ state
  | key =>
      by_cases ends : p.ends t.text = true
      · unfold step at run
        rw [at_] at run
        simp [scalar.1, scalar.2, ends] at run
      · rw [step_key at_ scalar (by simpa using ends)] at run
        cases run
        exact ⟨rfl, nofun⟩
  | value =>
      rw [step_value at_ scalar] at run
      obtain ⟨records, stored, rest⟩ := Outcome.bind_eq_ret.mp run
      cases rest
      refine ⟨store_bare bare stored, ?_⟩
      dsimp only
      split <;> decide
  | stop =>
      unfold step at run
      rw [at_] at run
      cases run
      exact ⟨rfl, nofun⟩

theorem scalars_bare {ts : List Token} (scalars : ∀ t ∈ ts, t.Scalar) {w w' : Walker R} (bare : Bare w.records)
    (state : w.state ≠ .arrayObj) (first : p.first ≠ .arrayObj) (run : ts.foldlM p.step w = .ret w') :
    w'.records = w.records := by
  induction ts generalizing w with
  | nil =>
      cases run
      rfl
  | cons t ts ih =>
      obtain ⟨own, others⟩ := List.forall_mem_cons.mp scalars
      rw [List.foldlM_cons] at run
      obtain ⟨w₁, step, rest⟩ := Outcome.bind_eq_ret.mp run
      obtain ⟨same, state₁⟩ := step_bare own bare state first step
      rw [← same] at bare ⊢
      exact ih others bare state₁ rest

/-- Without a record from the start, a single object brings none. -/
theorem parse_single (bare : Bare p.records) (first : p.first ≠ .arrayObj) (o : Flat) {list : List R}
    (run : p.parse o.tokens = .ret list) : list = [] := by
  unfold parse at run
  rw [o.layout.walk_eq, Flat.tokens, List.foldlM_cons] at run
  have scalars : ∀ t ∈ o.fields.flatMap Field.tokens, t.Scalar := by
    intro t mem
    obtain ⟨f, -, own⟩ := List.mem_flatMap.mp mem
    rcases List.mem_cons.mp own with rfl | own
    · exact f.keyToken_scalar
    · cases List.mem_singleton.mp own
      exact f.valueToken_scalar
  split at run
  · next w whole =>
      obtain ⟨w₁, opened, rest⟩ := Outcome.bind_eq_ret.mp whole
      have start : w₁.records = p.records ∧ w₁.state ≠ .arrayObj := by
        cases opened
        refine ⟨rfl, ?_⟩
        dsimp only
        split
        · decide
        · exact first
      have same := (scalars_bare scalars (start.1 ▸ bare) start.2 first rest).trans start.1
      rcases bare with none | empty
      · rw [same, none] at run
        cases run
      · rw [same, empty] at run
        cases run
        rfl
  · cases run
    rfl
  · cases run
  · cases run
  · cases run

theorem parse_array (reads : p.Reads new of) (records : p.records = some []) (first : p.first = .key)
    (text : List Char) {os : List Flat} (filled : os ≠ []) (goes : ∀ key, p.ends key = false) :
    p.parse (arrayTokens text os) = .ret (os.map fun o => of o.get).reverse := by
  have opened : p.step { records := p.records } ⟨.array, text, os.length⟩ = .ret
      { records := some [], state := .key, subTokens := os.length } := by
    simp [step, Token.inside, records, first, filled]
  obtain ⟨w', run, after⟩ := objects_ret reads os (fun o _ f _ => goes f.key) (fun _ => rfl) rfl rfl
    (w := { records := some [], state := .key, subTokens := os.length })
  unfold parse
  rw [(array_layout text os).walk_eq, arrayTokens, List.foldlM_cons, opened, Outcome.ret_bind, run]
  dsimp only
  rw [after, List.append_nil]

end Parser

/-- One flat object, or an array of at least one. -/
inductive Reply where
  | single (o : Flat)
  | array (text : List Char) (first : Flat) (others : List Flat)

namespace Reply

def tokens : Reply → List Token
  | .single o => o.tokens
  | .array text first others => arrayTokens text (first :: others)

def objects : Reply → List Flat
  | .single o => [o]
  | .array _ first others => first :: others

def isArray : Reply → Bool
  | .single _ => false
  | .array .. => true

end Reply

/-- An object whose only value is an array of flat objects. -/
def dataTokens (text key arrayText : List Char) (os : List Flat) : List Token :=
  ⟨.object, text, 2⟩ :: ⟨.string, key, 0⟩ :: arrayTokens arrayText os

/-- The parser returns one record for each object, the last one in front, and each field holds what
stands under its key. -/
def Parses {R : Type} (p : Parser R) (of : (List Char → Option (List Char)) → R) (tokens : List Token)
    (os : List Flat) : Prop :=
  p.parse tokens = .ret (os.map fun o => of o.get).reverse

/-- What `atoi` makes of a text is what `atof` does. -/
def WholeNumbers {D : Type} (c : Doubles D) (o : Flat) : Prop :=
  (∀ val, o.get "vaMinute".toList = some val → c.ofInt (Scan.atoi val) = c.atof val) ∧
  ∀ key ∈ ["maxCurrent", "maxVoltage"], ∀ val, o.get key.toList = some val →
    c.hundredth (c.ofInt (Scan.atoi val)) = c.hundredth (c.atof val)

theorem getD_map_inj {D : Type} (val : Option (List Char)) (f g : List Char → D) (default : D) :
    (val.map f).getD default = (val.map g).getD default ↔ ∀ v, val = some v → f v = g v := by
  cases val with
  | none => exact iff_of_true rfl nofun
  | some v => exact ⟨fun same w eq => Option.some.inj eq ▸ same, fun all => all v rfl⟩

theorem read_eq_iff {D : Type} (c : Doubles D) (o : Flat) :
    Data.read c o.get = Data.of c o.get ↔ WholeNumbers c o := by
  have minute := getD_map_inj (o.get "vaMinute".toList) c.whole.atof c.atof c.zero
  have hundredths : ∀ key : String, hundredthAt c.whole o.get key = hundredthAt c o.get key ↔
      ∀ val, o.get key.toList = some val → c.hundredth (c.whole.atof val) = c.hundredth (c.atof val) := by
    intro key
    apply getD_map_inj
  rw [Data.ext_iff]
  simp only [Data.read, Data.of, true_and, hundredths]
  rw [doubleAt, doubleAt]
  simp only [WholeNumbers, List.forall_mem_cons, List.not_mem_nil, IsEmpty.forall_iff, implies_true, and_true]
  exact and_congr_left' minute

/-- A parser that makes its records out of objects at the place of a key does so in an array only. -/
theorem parses_iff_array {R : Type} {p : Parser R} {new : R} {read : (List Char → Option (List Char)) → R}
    (reads : p.Reads new read) (records : p.records = some []) (first : p.first = .key)
    (goes : ∀ key, p.ends key = false) (of : (List Char → Option (List Char)) → R) (reply : Reply) :
    Parses p of reply.tokens reply.objects ↔
      reply.isArray = true ∧ ∀ o ∈ reply.objects, read o.get = of o.get := by
  cases reply with
  | single o =>
      refine iff_of_false (fun parses => ?_) fun both => Bool.false_ne_true both.1
      have start : p.first ≠ .arrayObj := by
        rw [first]
        decide
      have none := Parser.parse_single (.inr records) start o parses
      cases none
  | array text o os =>
      have array := Parser.parse_array reads records first text (List.cons_ne_nil o os) goes
      rw [Reply.isArray, and_iff_right rfl, Parses, Reply.tokens, Reply.objects, array, Outcome.ret.injEq,
        List.reverse_inj, List.map_inj_left]

/-- Where the records are as they should be, it is right in arrays. -/
theorem parses_iff_isArray {R : Type} {p : Parser R} {new : R} {of : (List Char → Option (List Char)) → R}
    (reads : p.Reads new of) (records : p.records = some []) (first : p.first = .key)
    (goes : ∀ key, p.ends key = false) (reply : Reply) :
    Parses p of reply.tokens reply.objects ↔ reply.isArray = true := by
  rw [parses_iff_array reads records first goes]
  exact and_iff_left fun o _ => rfl

/-- What `atoi` makes of the location is 0, as where there is none. -/
def NoLocation (o : Flat) : Prop := intAt o.get "locationId" = 0

theorem branch_iff (reply : Reply) : Parses branchParser Branch.of reply.tokens reply.objects ↔
    reply.isArray = true ∧ ∀ o ∈ reply.objects, NoLocation o := by
  have read (o : Flat) : Branch.read o.get = Branch.of o.get ↔ NoLocation o := by
    rw [Branch.ext_iff]
    simp only [Branch.read, Branch.of, true_and, and_true, NoLocation]
    exact eq_comm
  rw [parses_iff_array reads_branch rfl rfl fun _ => rfl]
  simp only [read]

theorem location_fails {D : Type} (c : Doubles D) (reply : Reply) :
    ¬ Parses (locationParser c) (Location.of c) reply.tokens reply.objects := by
  intro parses
  cases reply with
  | single o =>
      have start : (locationParser c).first ≠ .arrayObj := by
        intro first
        cases first
      have none := Parser.parse_single (.inl rfl) start o parses
      cases none
  | array text o os =>
      unfold Parses Parser.parse at parses
      rw [Reply.tokens, (array_layout text (o :: os)).walk_eq] at parses
      cases parses

section Data

variable {D : Type} (c : Doubles D)

theorem data_layout (text key arrayText : List Char) (os : List Flat) :
    Layout 1 (dataTokens text key arrayText os) :=
  .node (.leaf rfl (array_layout arrayText os))

theorem data_opened (text key arrayText : List Char) (o : Flat) (os : List Flat) :
    (dataTokens text key arrayText (o :: os)).foldlM (dataParser c).step { records := (dataParser c).records } =
      (o.fields.flatMap Field.tokens ++ os.flatMap Flat.tokens).foldlM (dataParser c).step
        { subTokens := os.length + 2 * o.fields.length
          state := .key
          records := some [Data.read c (latest [])] } := by
  have sub : (0 : ℤ) + 2 - 1 + (os.length + 1 : ℕ) - 1 + (2 * o.fields.length : ℕ) - 1 =
      os.length + 2 * o.fields.length := by
    push_cast
    ring
  rw [← sub]
  rfl

theorem parse_data (text key arrayText : List Char) (o : Flat) (os : List Flat)
    (goes : ∀ o' ∈ o :: os, ∀ f ∈ o'.fields, (dataParser c).ends f.key = false) :
    (dataParser c).parse (dataTokens text key arrayText (o :: os)) =
      .ret ((o :: os).map fun o => Data.read c o.get).reverse := by
  obtain ⟨first, others⟩ := List.forall_mem_cons.mp goes
  obtain ⟨w₁, run, sub, records, state⟩ := Parser.fields_ret (reads_data c) [] o.fields first
    (Int.natCast_nonneg os.length) (w := ⟨os.length + 2 * o.fields.length, .key, [],
      some [Data.read c (latest [])]⟩) rfl rfl rfl
  obtain ⟨w', rest, after⟩ := Parser.objects_ret (reads_data c) os others
    (fun more => state (by simpa using more)) sub records
  unfold Parser.parse
  rw [(data_layout text key arrayText (o :: os)).walk_eq, data_opened, List.foldlM_append, run,
    Outcome.ret_bind, rest]
  dsimp only
  rw [after, List.map_cons, List.reverse_cons]
  rfl

theorem parse_data_ends (text key arrayText : List Char) (o : Flat) (os : List Flat)
    (ends : ∃ o' ∈ o :: os, ∃ f ∈ o'.fields, (dataParser c).ends f.key = true) :
    (dataParser c).parse (dataTokens text key arrayText (o :: os)) = .ret [] := by
  have out : (o.fields.flatMap Field.tokens ++ os.flatMap Flat.tokens).foldlM (dataParser c).step
      ⟨os.length + 2 * o.fields.length, .key, [], some [Data.read c (latest [])]⟩ =
        .throw .returnNull := by
    rw [List.foldlM_append]
    by_cases here : ∃ f ∈ o.fields, (dataParser c).ends f.key = true
    · rw [Parser.fields_ends (reads_data c) [] o.fields here (Int.natCast_nonneg os.length) rfl rfl rfl]
      rfl
    · have goes : ∀ f ∈ o.fields, (dataParser c).ends f.key = false := by simpa using here
      obtain ⟨later, more⟩ := exists_later ends here
      obtain ⟨w₁, run, sub, records, state⟩ := Parser.fields_ret (reads_data c) [] o.fields goes
        (Int.natCast_nonneg os.length) (w := ⟨os.length + 2 * o.fields.length, .key, [],
          some [Data.read c (latest [])]⟩) rfl rfl rfl
      rw [run, Outcome.ret_bind]
      exact Parser.objects_ends (reads_data c) os later (state (by omega)) sub records
  unfold Parser.parse
  rw [(data_layout text key arrayText (o :: os)).walk_eq, data_opened, out]

theorem data_iff (text key arrayText : List Char) (os : List Flat) :
    Parses (dataParser c) (Data.of c) (dataTokens text key arrayText os) os ↔
      os ≠ [] ∧ ∀ o ∈ os, (∀ f ∈ o.fields, f.key ≠ "[]".toList) ∧ WholeNumbers c o := by
  have ends : ∀ key, (dataParser c).ends key = true ↔ key = "[]".toList := fun key => decide_eq_true_iff
  cases os with
  | nil =>
      refine iff_of_false (fun parses => ?_) fun both => both.1 rfl
      cases parses
  | cons o os =>
      by_cases stopped : ∃ o' ∈ o :: os, ∃ f ∈ o'.fields, (dataParser c).ends f.key = true
      · refine iff_of_false (fun parses => ?_) fun both => ?_
        · unfold Parses at parses
          rw [parse_data_ends c text key arrayText o os stopped, Outcome.ret.injEq] at parses
          have length := congrArg List.length parses
          simp at length
        · obtain ⟨o', mem, f, own, end_⟩ := stopped
          exact (both.2 o' mem).1 f own ((ends f.key).mp end_)
      · have goes : ∀ o' ∈ o :: os, ∀ f ∈ o'.fields, (dataParser c).ends f.key = false := by
          simpa using stopped
        unfold Parses
        rw [parse_data c text key arrayText o os goes, Outcome.ret.injEq, List.reverse_inj, List.map_inj_left]
        have plain : ∀ o' ∈ o :: os, ∀ f ∈ o'.fields, f.key ≠ "[]".toList := by
          intro o' mem f own eq
          have stops := (ends f.key).mpr eq
          rw [goes o' mem f own] at stops
          cases stops
        simp only [read_eq_iff]
        constructor
        · exact fun whole => ⟨List.cons_ne_nil _ _, fun o' mem => ⟨plain o' mem, whole o' mem⟩⟩
        · exact fun both o' mem => (both.2 o' mem).2

end Data

/-- The location parser is never right; those of branches, panels and status are for arrays, that of
branches if they have no location; that of data is if there are any, no key is the text of an empty array,
and three numbers are whole. -/
theorem replies_parsed {D : Type} (c : Doubles D) :
    (∀ reply : Reply, ¬ Parses (locationParser c) (Location.of c) reply.tokens reply.objects) ∧
    (∀ reply : Reply, Parses branchParser Branch.of reply.tokens reply.objects ↔
      reply.isArray = true ∧ ∀ o ∈ reply.objects, NoLocation o) ∧
    (∀ reply : Reply, Parses panelParser Panel.of reply.tokens reply.objects ↔ reply.isArray = true) ∧
    (∀ reply : Reply, Parses statusParser Status.of reply.tokens reply.objects ↔ reply.isArray = true) ∧
    ∀ text key arrayText os, Parses (dataParser c) (Data.of c) (dataTokens text key arrayText os) os ↔
      os ≠ [] ∧ ∀ o ∈ os, (∀ f ∈ o.fields, f.key ≠ "[]".toList) ∧ WholeNumbers c o :=
  ⟨location_fails c, branch_iff, parses_iff_isArray reads_panel rfl rfl fun _ => rfl,
    parses_iff_isArray reads_status rfl rfl fun _ => rfl, data_iff c⟩

/-- A branch on its own is written through a null pointer. -/
theorem branch_unmade :
    ¬ ∀ reply : Reply, Parses branchParser Branch.of reply.tokens reply.objects := by
  intro all
  have parses := all (.single ⟨"\x7b\"branchId\":7\x7d".toList, [⟨"branchId".toList, false, "7".toList⟩]⟩)
  cases parses

end Mio.Adapters.Enfuse
