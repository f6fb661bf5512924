import Mathlib.Algebra.Group.Defs
import Mio.Datastore.Sample
import Mio.Lib.Json
import Mio.Lib.Outcome
import Mio.Lib.SharedMap

/-! `ImportJson.cpp`: samples of a JSON value on their way to channels. -/
namespace Mio.Datastore.ImportJson

abbrev Name := List Char

variable {ν δ φ : Type}

/-- What the libraries make of the numbers `ν` of a value and of a text. -/
structure Numbers (ν δ : Type) where
  /-- The conversion to `double` in `Value::asDouble`. -/
  double : ν → δ
  /-- `valueToString`, which `Value::asString` calls. -/
  valueToString : ν → Name
  atof : Name → δ

/-- `json[key]`; null becomes an object. Here and below `none` is an exception or a failed assertion of
`Json::Value`. -/
def member (key : Name) : Json ν → Option (Json ν)
  | .null => some .null
  | .object members => some ((members.lookup key).getD .null)
  | _ => none

/-- `json[0]`, `json[1]` and so on up to `json.size()`; what is neither an array nor an object has the
size 0. -/
def items : Json ν → Option (List (Json ν))
  | .array items => some items
  | .object (_ :: _) => none
  | _ => some []

def asDouble [Zero δ] [One δ] (numbers : Numbers ν δ) : Json ν → Option δ
  | .null => some 0
  | .bool b => some (if b then 1 else 0)
  | .number n => some (numbers.double n)
  | _ => none

def asString (numbers : Numbers ν δ) : Json ν → Option Name
  | .null => some []
  | .bool b => some (if b then "true".toList else "false".toList)
  | .number n => some (numbers.valueToString n)
  | .string s => some s
  | _ => none

/-- What `row[0]` makes of a row: null becomes an array, and an array gets an element. -/
def cells : Json ν → Option (Json ν × List (Json ν))
  | .null => some (.null, [])
  | .array [] => some (.null, [])
  | .array (first :: rest) => some (first, rest)
  | _ => none

inductive Failure where
  /-- An exception or a failed assertion of the library. -/
  | json
  /-- `ParseError` for the timestamp of a row. -/
  | timestamp (row : ℕ)

/-- `numeric_data`, `string_data` and the count in `info`. -/
structure Import (δ φ : Type) where
  numeric : SharedMap Name (DataSample δ φ δ)
  text : SharedMap Name (DataSample δ φ Name)
  goodRecords : ℕ

def orFail {α : Type} (failure : Failure) : Option α → Outcome Failure α
  | some a => .ret a
  | none => .throw failure

/-- The vectors of the channels, found or made, one after another. -/
def record (numbers : Numbers ν δ) (st : Import δ φ) :
    List (Json ν) → Outcome Failure (List (ℕ × ℕ) × Import δ φ)
  | [] => .ret ([], st)
  | name :: rest => do
      let channelName ← orFail .json (asString numbers name)
      let numeric := st.numeric.obtain_ channelName
      let text := st.text.obtain_ channelName
      let (pointers, st) ← record numbers { st with numeric := numeric.2, text := text.2 } rest
      return ((numeric.1, text.1) :: pointers, st)

section
variable [Zero δ] [One δ] [DecidableEq δ] [Zero φ] [One φ]

/-- A timestamp may be a number or a string that `atof` does not read as zero. -/
def timestampOf (numbers : Numbers ν δ) (first : Json ν) : Option δ :=
  (asDouble numbers first).or ((asString numbers first).bind fun s =>
    if numbers.atof s = 0 then none else some (numbers.atof s))

/-- A constructor of `DataSample`. -/
def sampleNew {V : Type} (time : δ) (value : V) : DataSample δ φ V := ⟨time, value, 1, 0⟩

/-- A cell and the pointers of its column on. -/
def readCell (numbers : Numbers ν δ) (st : Import δ φ) (pointers : List (ℕ × ℕ)) (timestamp : δ)
    (cell : Json ν) : Outcome Failure (Import δ φ) :=
  match cell, pointers with
  | .null, _ => .ret st
  | .string _, [] => .abort "vector_string_data"
  | .string s, p :: _ => .ret { st with text := st.text.push p.2 (sampleNew timestamp s) }
  | _, [] => .abort "vector_numeric_data"
  | cell, p :: _ => do
      let value ← orFail .json (asDouble numbers cell)
      return { st with numeric := st.numeric.push p.1 (sampleNew timestamp value) }

def readCells (numbers : Numbers ν δ) (st : Import δ φ) (pointers : List (ℕ × ℕ)) (timestamp : δ) :
    List (Json ν) → Outcome Failure (Import δ φ)
  | [] => .ret st
  | cell :: rest => do
      let st ← readCell numbers st pointers timestamp cell
      readCells numbers st pointers.tail timestamp rest

def readRows (numbers : Numbers ν δ) (pointers : List (ℕ × ℕ)) (st : Import δ φ) (i : ℕ) :
    List (Json ν) → Outcome Failure (Import δ φ)
  | [] => .ret st
  | row :: rest => do
      -- `row[0]` asserts that the row is null or an array, before the conversion that may throw.
      let (first, columns) ← orFail .json (cells row)
      let timestamp ← orFail (.timestamp i) (timestampOf numbers first)
      let st ← readCells numbers st pointers timestamp columns
      readRows numbers pointers st (i + 1) rest

/-- What `parse_json` goes through: the elements of an array, and else the value itself. -/
def objects : Json ν → List (Json ν)
  | .array objects => objects
  | json => [json]

def parseJsonSingle (numbers : Numbers ν δ) (st : Import δ φ) (json : Json ν) :
    Outcome Failure (Import δ φ) := do
  let channelNames ← orFail .json (member "channel_names".toList json)
  let _ ← orFail .json (member "numeric_ch_names".toList json)
  let names ← orFail .json (items channelNames)
  let (pointers, st) ← record numbers st names
  let datajson ← orFail .json (member "data".toList json)
  let rows ← orFail .json (items datajson)
  let st ← readRows numbers pointers st 0 rows
  return ⟨st.numeric.prune, st.text.prune, st.goodRecords + 1⟩

def parseJson (numbers : Numbers ν δ) (st : Import δ φ) (json : Json ν) :
    Outcome Failure (Import δ φ) :=
  (objects json).foldlM (parseJsonSingle numbers) st

/-- The maps of `parse_json_file`. -/
def importNew : Import δ φ := ⟨.empty, .empty, 0⟩

def channelNames (json : Json ν) : List (Json ν) :=
  ((member "channel_names".toList json).bind items).getD []

def names (numbers : Numbers ν δ) (json : Json ν) : List Name :=
  (channelNames json).filterMap (asString numbers)

def rows (json : Json ν) : List (Json ν × List (Json ν)) :=
  (((member "data".toList json).bind items).getD []).filterMap cells

/-- The sample of a cell in a column of the channel, if it is one for the map. -/
def numericCell (numbers : Numbers ν δ) : Json ν → Option δ
  | .null => none
  | .string _ => none
  | cell => asDouble numbers cell

def textCell : Json ν → Option Name
  | .string s => some s
  | _ => none

/-- The samples of cells for a channel, by the names of their columns. -/
def cellSamples {V : Type} (value : Json ν → Option V) (timestamp : δ) (columns : List Name)
    (cells : List (Json ν)) (channel : Name) : List (DataSample δ φ V) :=
  (columns.zip cells).filterMap fun p =>
    if p.1 = channel then (value p.2).map (sampleNew timestamp) else none

def rowSamples {V : Type} (numbers : Numbers ν δ) (value : Json ν → Option V) (columns : List Name)
    (channel : Name) (row : Json ν × List (Json ν)) : List (DataSample δ φ V) :=
  (timestampOf numbers row.1).elim [] fun timestamp => cellSamples value timestamp columns row.2 channel

def samples {V : Type} (numbers : Numbers ν δ) (value : Json ν → Option V) (json : Json ν) (channel : Name) :
    List (DataSample δ φ V) :=
  (objects json).flatMap fun o => (rows o).flatMap (rowSamples numbers value (names numbers o) channel)

/-- A row has more cells than there are channels. -/
def Wide (json : Json ν) : Prop :=
  ∃ o ∈ objects json, ∃ row ∈ rows o, (channelNames o).length < row.2.length

structure Routed (numbers : Numbers ν δ) (json : Json ν) (st : Import δ φ) : Prop where
  numeric : ∀ channel, st.numeric.get channel =
    if (samples numbers (numericCell numbers) json channel : List (DataSample δ φ δ)) = [] then none
    else some (samples numbers (numericCell numbers) json channel)
  text : ∀ channel, st.text.get channel =
    if (samples numbers textCell json channel : List (DataSample δ φ Name)) = [] then none
    else some (samples numbers textCell json channel)

/-- An import fails or routes all samples, and fails where a row is too wide. -/
def RoutesOrFails (numbers : Numbers ν δ) (json : Json ν) (x : Outcome Failure (Import δ φ)) : Prop :=
  (∃ failure, x = .throw failure) ∨ ∃ st, x = .ret st ∧ Routed numbers json st ∧ ¬ Wide json

inductive Check where
  | fine
  /-- Something that cannot be converted. -/
  | bad
  /-- A cell that is not null and has no channel. -/
  | beyond
deriving DecidableEq

def Check.ofSome {α : Type} : Option α → Check
  | some _ => .fine
  | none => .bad

def cellCheck (numbers : Numbers ν δ) (hasChannel : Bool) : Json ν → Check
  | .null => .fine
  | .string _ => if hasChannel then .fine else .beyond
  | cell => if hasChannel then .ofSome (asDouble numbers cell) else .beyond

/-- The number of channels from the column on. -/
def cellChecks (numbers : Numbers ν δ) (channels : ℕ) : List (Json ν) → List Check
  | [] => []
  | cell :: rest => cellCheck numbers (0 < channels) cell :: cellChecks numbers (channels - 1) rest

def rowChecks (numbers : Numbers ν δ) (channels : ℕ) (row : Json ν) : List Check :=
  .ofSome (cells row) :: (cells row).elim [] fun r =>
    .ofSome (timestampOf numbers r.1) :: cellChecks numbers channels r.2

/-- All that is tested of an object, in the order of the code. -/
def objectChecks (numbers : Numbers ν δ) (json : Json ν) : List Check :=
  .ofSome (member "channel_names".toList json) ::
    .ofSome (member "numeric_ch_names".toList json) ::
    .ofSome ((member "channel_names".toList json).bind items) ::
    (((channelNames json).map fun name => .ofSome (asString numbers name)) ++
      .ofSome (member "data".toList json) ::
      .ofSome ((member "data".toList json).bind items) ::
      (((member "data".toList json).bind items).getD []).flatMap
        (rowChecks numbers (channelNames json).length))

def checks (numbers : Numbers ν δ) (json : Json ν) : List Check :=
  (objects json).flatMap (objectChecks numbers)

/-- Something that cannot be converted comes before the first cell without a channel. -/
def StopsFirst (numbers : Numbers ν δ) (json : Json ν) : Prop :=
  (checks numbers json).find? (· ≠ .fine) = some .bad

instance (numbers : Numbers ν δ) (json : Json ν) : Decidable (StopsFirst numbers json) :=
  inferInstanceAs (Decidable ((checks numbers json).find? (· ≠ .fine) = some .bad))

end

/-- The code stops at the first test that is not fine, and else has done what it should. -/
def Follows {α : Type} (P : α → Prop) (x : Outcome Failure α) : List Check → Prop
  | [] => ∃ a, x = .ret a ∧ P a
  | .fine :: rest => Follows P x rest
  | .bad :: _ => ∃ failure, x = .throw failure
  | .beyond :: _ => ∃ what, x = .abort what

namespace Follows

variable {α β : Type} {P : α → Prop} {Q : β → Prop} {x : Outcome Failure α} {cs ds : List Check}

theorem ret {a : α} (h : P a) : Follows P (.ret a) [] := ⟨a, rfl, h⟩

theorem bind {f : α → Outcome Failure β} (first : Follows P x cs)
    (next : ∀ a, P a → Follows Q (f a) ds) : Follows Q (x >>= f) (cs ++ ds) := by
  induction cs with
  | nil =>
      obtain ⟨a, rfl, h⟩ := first
      exact next a h
  | cons c cs ih =>
      cases c with
      | fine => exact ih first
      | bad =>
          obtain ⟨failure, rfl⟩ := first
          exact ⟨failure, rfl⟩
      | beyond =>
          obtain ⟨what, rfl⟩ := first
          exact ⟨what, rfl⟩

theorem bind_ret {f : α → Outcome Failure β} (first : Follows P x cs)
    (next : ∀ a, P a → ∃ b, f a = .ret b ∧ Q b) : Follows Q (x >>= f) cs := by
  have both : Follows Q (x >>= f) (cs ++ []) := first.bind fun a h => next a h
  rwa [List.append_nil] at both

theorem mono {Q : α → Prop} (first : Follows P x cs) (weaker : ∀ a, P a → Q a) : Follows Q x cs := by
  induction cs with
  | nil =>
      obtain ⟨a, ret, h⟩ := first
      exact ⟨a, ret, weaker a h⟩
  | cons c cs ih =>
      cases c with
      | fine => exact ih first
      | bad => exact first
      | beyond => exact first

theorem orFail (failure : Failure) (o : Option α) :
    Follows (fun a => o = some a) (orFail failure o) [.ofSome o] := by
  cases o with
  | none => exact ⟨failure, rfl⟩
  | some a => exact ⟨a, rfl, rfl⟩

/-- What the first test that is not fine says of the run. -/
theorem found (follows : Follows P x cs) :
    (cs.find? (· ≠ .fine) = none ∧ ∃ a, x = .ret a ∧ P a) ∨
      (cs.find? (· ≠ .fine) = some .bad ∧ ∃ failure, x = .throw failure) ∨
      (cs.find? (· ≠ .fine) = some .beyond ∧ ∃ what, x = .abort what) := by
  induction cs with
  | nil => exact .inl ⟨rfl, follows⟩
  | cons c cs ih =>
      cases c with
      | fine => exact ih follows
      | bad => exact .inr (.inl ⟨rfl, follows⟩)
      | beyond => exact .inr (.inr ⟨rfl, follows⟩)

end Follows

structure Holds (st : Import δ φ) (numeric : Name → List (DataSample δ φ δ))
    (text : Name → List (DataSample δ φ Name)) : Prop where
  numericValid : st.numeric.Valid
  textValid : st.text.Valid
  numericContent : ∀ channel, st.numeric.content channel = numeric channel
  textContent : ∀ channel, st.text.content channel = text channel

def Points (st : Import δ φ) (channel : Name) (p : ℕ × ℕ) : Prop :=
  st.numeric.find channel = some p.1 ∧ st.text.find channel = some p.2

def Keeps (st st' : Import δ φ) : Prop := ∀ channel p, Points st channel p → Points st' channel p

variable {st st' : Import δ φ} {numeric : Name → List (DataSample δ φ δ)}
  {text : Name → List (DataSample δ φ Name)}

theorem Keeps.refl (st : Import δ φ) : Keeps st st := fun _ _ points => points

theorem Holds.obtain_ (holds : Holds st numeric text) (channel : Name) :
    Holds { st with numeric := (st.numeric.obtain_ channel).2, text := (st.text.obtain_ channel).2 }
      numeric text where
  numericValid := holds.numericValid.obtain_ channel
  textValid := holds.textValid.obtain_ channel
  numericContent other := (SharedMap.content_obtain holds.numericValid channel other).trans
    (holds.numericContent other)
  textContent other := (SharedMap.content_obtain holds.textValid channel other).trans
    (holds.textContent other)

/-- Repeated names have the same pointers. -/
theorem record_follows (numbers : Numbers ν δ) (holds : Holds st numeric text) (names : List (Json ν)) :
    Follows (fun r => Holds r.2 numeric text ∧ Keeps st r.2 ∧
        (names.filterMap (asString numbers)).length = names.length ∧
        List.Forall₂ (Points r.2) (names.filterMap (asString numbers)) r.1)
      (record numbers st names) (names.map fun name => .ofSome (asString numbers name)) := by
  induction names generalizing st with
  | nil => exact .ret ⟨holds, .refl st, rfl, .nil⟩
  | cons name names ih =>
      refine (Follows.orFail .json (asString numbers name)).bind fun channel is => ?_
      refine (ih (holds.obtain_ channel)).bind_ret ?_
      rintro ⟨pointers, st'⟩ ⟨holds, keeps, length, points⟩
      refine ⟨_, rfl, holds, ?_, ?_, ?_⟩
      · intro other p points
        exact keeps other p ⟨SharedMap.find_obtain_of_some points.1,
          SharedMap.find_obtain_of_some points.2⟩
      · rw [List.filterMap_cons, is]
        exact congrArg (· + 1) length
      · rw [List.filterMap_cons, is]
        refine .cons (keeps channel _ ⟨?_, ?_⟩) points
        · exact (SharedMap.find_obtain ..).trans (if_pos rfl)
        · exact (SharedMap.find_obtain ..).trans (if_pos rfl)

theorem Holds.pushNumeric (holds : Holds st numeric text) {channel : Name} {p : ℕ × ℕ}
    (points : Points st channel p) (sample : DataSample δ φ δ) :
    Holds { st with numeric := st.numeric.push p.1 sample }
      (fun other => numeric other ++ if channel = other then [sample] else []) text where
  numericValid := holds.numericValid.push p.1 sample
  textValid := holds.textValid
  numericContent other := by
    refine (SharedMap.content_push holds.numericValid points.1 other).trans ?_
    by_cases same : other = channel
    · rw [if_pos same, if_pos same.symm, same, holds.numericContent]
    · rw [if_neg same, if_neg (Ne.symm same), List.append_nil, holds.numericContent]
  textContent := holds.textContent

theorem Holds.pushText (holds : Holds st numeric text) {channel : Name} {p : ℕ × ℕ}
    (points : Points st channel p) (sample : DataSample δ φ Name) :
    Holds { st with text := st.text.push p.2 sample } numeric
      (fun other => text other ++ if channel = other then [sample] else []) where
  numericValid := holds.numericValid
  textValid := holds.textValid.push p.2 sample
  numericContent := holds.numericContent
  textContent other := by
    refine (SharedMap.content_push holds.textValid points.2 other).trans ?_
    by_cases same : other = channel
    · rw [if_pos same, if_pos same.symm, same, holds.textContent]
    · rw [if_neg same, if_neg (Ne.symm same), List.append_nil, holds.textContent]

section
variable [Zero φ] [One φ]

def cellSample {V : Type} (value : Json ν → Option V) (timestamp : δ) (column : Name) (cell : Json ν)
    (channel : Name) : List (DataSample δ φ V) :=
  if column = channel then ((value cell).map (sampleNew timestamp)).toList else []

theorem cellSamples_cons {V : Type} (value : Json ν → Option V) (timestamp : δ) (column : Name)
    (columns : List Name) (cell : Json ν) (cells : List (Json ν)) (channel : Name) :
    (cellSamples value timestamp (column :: columns) (cell :: cells) channel : List (DataSample δ φ V)) =
      cellSample value timestamp column cell channel ++ cellSamples value timestamp columns cells channel := by
  unfold cellSamples cellSample
  rw [List.zip_cons_cons, List.filterMap_cons]
  by_cases same : column = channel
  · rw [if_pos same, if_pos same]
    cases value cell <;> rfl
  · rw [if_neg same, if_neg same]
    rfl

variable [Zero δ] [One δ]

theorem readCell_follows (numbers : Numbers ν δ) (holds : Holds st numeric text) {channel : Name} {p : ℕ × ℕ}
    (points : Points st channel p) (pointers : List (ℕ × ℕ)) (timestamp : δ) (cell : Json ν) :
    Follows (fun st' => Holds st' (fun c => numeric c ++ cellSample (numericCell numbers) timestamp channel cell c)
        (fun c => text c ++ cellSample textCell timestamp channel cell c) ∧ Keeps st st')
      (readCell numbers st (p :: pointers) timestamp cell) [cellCheck numbers true cell] := by
  have none_ : ∀ {V : Type} (value : Json ν → Option V) (f : Name → List (DataSample δ φ V)),
      value cell = none → (fun c => f c ++ cellSample value timestamp channel cell c) = f := by
    intro V value f none
    funext c
    unfold cellSample
    rw [none, Option.map_none, Option.toList_none, ite_self, List.append_nil]
  have number : ∀ d, asDouble numbers cell = some d → numericCell numbers cell = some d → textCell cell = none →
      readCell numbers st (p :: pointers) timestamp cell =
        .ret { st with numeric := st.numeric.push p.1 (sampleNew timestamp d) } →
      ∃ st', readCell numbers st (p :: pointers) timestamp cell = .ret st' ∧
        Holds st' (fun c => numeric c ++ cellSample (numericCell numbers) timestamp channel cell c)
          (fun c => text c ++ cellSample textCell timestamp channel cell c) ∧ Keeps st st' := by
    intro d _ value none run
    refine ⟨_, run, ?_, fun _ _ points => points⟩
    rw [none_ textCell text none]
    have pushed := holds.pushNumeric points (sampleNew timestamp d)
    unfold cellSample
    rwa [value]
  cases cell with
  | null =>
      rw [none_ (numericCell numbers) numeric rfl, none_ textCell text rfl]
      exact ⟨st, rfl, holds, .refl st⟩
  | string s =>
      rw [none_ (numericCell numbers) numeric rfl]
      exact ⟨_, rfl, holds.pushText points (sampleNew timestamp s), fun _ _ points => points⟩
  | bool b => exact number _ rfl rfl rfl rfl
  | number d => exact number _ rfl rfl rfl rfl
  | array items => exact ⟨_, rfl⟩
  | object members => exact ⟨_, rfl⟩

theorem readCell_beyond (numbers : Numbers ν δ) (timestamp : δ) (cell : Json ν) :
    Follows (fun st' => st' = st) (readCell numbers st [] timestamp cell) [cellCheck numbers false cell] := by
  cases cell with
  | null => exact ⟨st, rfl, rfl⟩
  | string s => exact ⟨_, rfl⟩
  | bool b => exact ⟨_, rfl⟩
  | number d => exact ⟨_, rfl⟩
  | array items => exact ⟨_, rfl⟩
  | object members => exact ⟨_, rfl⟩

theorem readCells_follows (numbers : Numbers ν δ) (holds : Holds st numeric text) {columns : List Name}
    {pointers : List (ℕ × ℕ)} (points : List.Forall₂ (Points st) columns pointers) (timestamp : δ)
    (cells : List (Json ν)) :
    Follows (fun st' => Holds st' (fun c => numeric c ++ cellSamples (numericCell numbers) timestamp columns cells c)
        (fun c => text c ++ cellSamples textCell timestamp columns cells c) ∧ Keeps st st')
      (readCells numbers st pointers timestamp cells) (cellChecks numbers columns.length cells) := by
  induction cells generalizing st columns pointers numeric text with
  | nil =>
      refine .ret ⟨?_, .refl st⟩
      unfold cellSamples
      simpa using holds
  | cons cell cells ih =>
      cases points with
      | nil =>
          refine (readCell_beyond numbers timestamp cell).bind ?_
          rintro st' rfl
          exact ih holds .nil
      | @cons channel p columns pointers point points =>
          refine (readCell_follows numbers holds point pointers timestamp cell).bind ?_
          rintro st' ⟨holds, keeps⟩
          refine (ih holds (points.imp fun channel p => keeps channel p)).mono ?_
          rintro st'' ⟨holds, keeps'⟩
          simp only [List.append_assoc, ← cellSamples_cons] at holds
          exact ⟨holds, fun channel p points => keeps' channel p (keeps channel p points)⟩

theorem wide_of_beyond {numbers : Numbers ν δ} {channels : ℕ} {columns : List (Json ν)}
    (beyond : .beyond ∈ cellChecks numbers channels columns) : channels < columns.length := by
  induction columns generalizing channels with
  | nil => cases beyond
  | cons cell columns ih =>
      rw [List.length_cons]
      rcases List.mem_cons.mp beyond with here | later
      · by_cases has : 0 < channels
        · rw [decide_eq_true has] at here
          cases cell <;> cases here
        · omega
      · have := ih later
        omega

theorem ofSome_ne_beyond {α : Type} (o : Option α) : Check.ofSome o ≠ .beyond := by
  cases o <;> exact fun no => by cases no

variable [DecidableEq δ]

def rowsSamples {V : Type} (numbers : Numbers ν δ) (value : Json ν → Option V) (columns : List Name)
    (rows : List (Json ν)) (channel : Name) : List (DataSample δ φ V) :=
  (rows.filterMap cells).flatMap (rowSamples numbers value columns channel)

theorem rowsSamples_cons {V : Type} (numbers : Numbers ν δ) (value : Json ν → Option V) (columns : List Name)
    {row first : Json ν} {rest : List (Json ν)} (is : cells row = some (first, rest)) {timestamp : δ}
    (time : timestampOf numbers first = some timestamp) (rows : List (Json ν)) (channel : Name) :
    (rowsSamples numbers value columns (row :: rows) channel : List (DataSample δ φ V)) =
      cellSamples value timestamp columns rest channel ++ rowsSamples numbers value columns rows channel := by
  rw [rowsSamples, List.filterMap_cons, is]
  change rowSamples numbers value columns channel (first, rest) ++ _ = _
  rw [rowSamples, time]
  rfl

theorem readRows_follows (numbers : Numbers ν δ) (holds : Holds st numeric text) {columns : List Name}
    {pointers : List (ℕ × ℕ)} (points : List.Forall₂ (Points st) columns pointers) (i : ℕ)
    (rows : List (Json ν)) :
    Follows (fun st' => Holds st' (fun c => numeric c ++ rowsSamples numbers (numericCell numbers) columns rows c)
        (fun c => text c ++ rowsSamples numbers textCell columns rows c))
      (readRows numbers pointers st i rows) (rows.flatMap (rowChecks numbers columns.length)) := by
  induction rows generalizing st numeric text i with
  | nil =>
      refine .ret ?_
      unfold rowsSamples
      simpa using holds
  | cons row rows ih =>
      rw [readRows, List.flatMap_cons, rowChecks, List.cons_append]
      refine (Follows.orFail .json (cells row)).bind ?_
      rintro ⟨first, rest⟩ is
      rw [is]
      refine (Follows.orFail (.timestamp i) (timestampOf numbers first)).bind ?_
      intro timestamp time
      refine (readCells_follows numbers holds points timestamp rest).bind ?_
      rintro st' ⟨holds, keeps⟩
      refine (ih holds (points.imp fun channel p => keeps channel p) (i + 1)).mono fun st'' holds => ?_
      simp only [List.append_assoc, ← rowsSamples_cons numbers _ columns is time] at holds
      exact holds

/-- The maps have the channels that got samples. -/
def Tidy (st : Import δ φ) : Prop :=
  (∀ channel, st.numeric.get channel =
      if st.numeric.content channel = [] then none else some (st.numeric.content channel)) ∧
    ∀ channel, st.text.get channel =
      if st.text.content channel = [] then none else some (st.text.content channel)

theorem parseJsonSingle_follows (numbers : Numbers ν δ) (holds : Holds st numeric text) (json : Json ν) :
    Follows (fun st' => Tidy st' ∧
        Holds st'
          (fun c => numeric c ++
            (rows json).flatMap (rowSamples numbers (numericCell numbers) (names numbers json) c))
          fun c => text c ++ (rows json).flatMap (rowSamples numbers textCell (names numbers json) c))
      (parseJsonSingle numbers st json) (objectChecks numbers json) := by
  unfold parseJsonSingle objectChecks names rows channelNames
  refine (Follows.orFail .json (member "channel_names".toList json)).bind fun c hasNames => ?_
  refine (Follows.orFail .json (member "numeric_ch_names".toList json)).bind fun _ _ => ?_
  rw [hasNames, Option.bind_some]
  refine (Follows.orFail .json (items c)).bind fun ns isList => ?_
  rw [isList, Option.getD_some]
  refine (record_follows numbers holds ns).bind ?_
  rintro ⟨pointers, st'⟩ ⟨holds, -, length, points⟩
  refine (Follows.orFail .json (member "data".toList json)).bind fun d hasData => ?_
  rw [hasData, Option.bind_some]
  refine (Follows.orFail .json (items d)).bind fun rs isRows => ?_
  rw [isRows, Option.getD_some, ← length]
  refine (readRows_follows numbers holds points 0 rs).bind_ret fun st'' holds => ?_
  refine ⟨_, rfl, ⟨fun channel => ?_, fun channel => ?_⟩, holds.numericValid.prune, holds.textValid.prune,
    fun channel => ?_, fun channel => ?_⟩
  · rw [SharedMap.content_prune holds.numericValid]
    exact SharedMap.get_prune holds.numericValid channel
  · rw [SharedMap.content_prune holds.textValid]
    exact SharedMap.get_prune holds.textValid channel
  · exact (SharedMap.content_prune holds.numericValid channel).trans (holds.numericContent channel)
  · exact (SharedMap.content_prune holds.textValid channel).trans (holds.textContent channel)

theorem parseObjects_follows (numbers : Numbers ν δ) (tidy : Tidy st) (holds : Holds st numeric text)
    (os : List (Json ν)) :
    Follows (fun st' => Tidy st' ∧
        Holds st'
          (fun c => numeric c ++
            os.flatMap fun o => (rows o).flatMap (rowSamples numbers (numericCell numbers) (names numbers o) c))
          fun c => text c ++ os.flatMap fun o => (rows o).flatMap (rowSamples numbers textCell (names numbers o) c))
      (os.foldlM (parseJsonSingle numbers) st) (os.flatMap (objectChecks numbers)) := by
  induction os generalizing st numeric text with
  | nil =>
      refine .ret ⟨tidy, ?_⟩
      simpa using holds
  | cons o os ih =>
      rw [List.foldlM_cons, List.flatMap_cons]
      refine (parseJsonSingle_follows numbers holds o).bind ?_
      rintro st' ⟨tidy, holds⟩
      refine (ih tidy holds).mono fun st'' => ?_
      rintro ⟨tidy, holds⟩
      simp only [List.append_assoc] at holds
      exact ⟨tidy, holds⟩

/-- The code stops at the first test that is not fine, and else routes all samples. -/
theorem parseJson_follows (numbers : Numbers ν δ) (json : Json ν) :
    Follows (Routed numbers json) (parseJson numbers (importNew : Import δ φ) json) (checks numbers json) := by
  have start : Holds (importNew : Import δ φ) (fun _ => []) fun _ => [] :=
    ⟨SharedMap.valid_empty, SharedMap.valid_empty, fun _ => rfl, fun _ => rfl⟩
  refine (parseObjects_follows numbers ⟨fun _ => rfl, fun _ => rfl⟩ start (objects json)).mono fun st => ?_
  rintro ⟨tidy, holds⟩
  constructor
  · intro channel
    rw [tidy.1, holds.numericContent, List.nil_append]
    rfl
  · intro channel
    rw [tidy.2, holds.textContent, List.nil_append]
    rfl

/-- A cell without a channel stands in a row that is too wide. -/
theorem wide_of_checks {numbers : Numbers ν δ} {json : Json ν} (beyond : .beyond ∈ checks numbers json) :
    Wide json := by
  obtain ⟨o, mem, beyond⟩ := List.mem_flatMap.mp beyond
  have tail {α : Type} {x : Option α} {cs : List Check} (mem : .beyond ∈ .ofSome x :: cs) : .beyond ∈ cs :=
    (List.mem_cons.mp mem).resolve_left (ofSome_ne_beyond x).symm
  rcases List.mem_append.mp (tail (tail (tail beyond))) with none | beyond
  · obtain ⟨name, -, is⟩ := List.mem_map.mp none
    exact (ofSome_ne_beyond _ is).elim
  · obtain ⟨row, inside, beyond⟩ := List.mem_flatMap.mp (tail (tail beyond))
    have beyond := tail beyond
    cases is : cells row with
    | none =>
        rw [is] at beyond
        cases beyond
    | some r =>
        rw [is] at beyond
        exact ⟨o, mem, r, List.mem_filterMap.mpr ⟨row, inside, is⟩, wide_of_beyond (tail beyond)⟩

/-- An import routes or fails exactly if no row is too wide or something that cannot be converted comes
before the first cell without a channel. -/
theorem routes_or_fails_iff (numbers : Numbers ν δ) (json : Json ν) :
    RoutesOrFails numbers json (parseJson numbers (importNew : Import δ φ) json) ↔
      StopsFirst numbers json ∨ ¬ Wide json := by
  unfold RoutesOrFails StopsFirst
  rcases (parseJson_follows numbers json : Follows (Routed numbers json)
    (parseJson numbers (importNew : Import δ φ) json) _).found with
      ⟨found, st, run, routed⟩ | ⟨found, failure, run⟩ | ⟨found, what, run⟩
  · rw [run, found]
    constructor
    · rintro (⟨failure, thrown⟩ | ⟨st, -, -, narrow⟩)
      · cases thrown
      · exact .inr narrow
    · rintro (stops | narrow)
      · cases stops
      · exact .inr ⟨st, rfl, routed, narrow⟩
  · rw [run, found]
    exact iff_of_true (.inl ⟨failure, rfl⟩) (.inl rfl)
  · rw [run, found]
    refine iff_of_false ?_ ?_
    · rintro (⟨failure, thrown⟩ | ⟨st, ret, -⟩)
      · cases thrown
      · cases ret
    · rintro (stops | narrow)
      · cases stops
      · exact narrow (wide_of_checks (List.mem_of_find?_eq_some found))

end

/-- Numbers without a sign and a fraction; no text is one. -/
def wholeNumbers : Numbers ℕ ℚ := ⟨fun n => n, fun n => (toString n).toList, fun _ => 0⟩

/-- An object with one channel and these rows. -/
def oneChannel (channel : Json ℕ) (rows : List (Json ℕ)) : Json ℕ :=
  .object [("channel_names".toList, .array [channel]), ("data".toList, .array rows)]

/-- A second cell has no channel: the code indexes past the vectors. -/
theorem wide_row_not_rejected :
    ¬ RoutesOrFails wholeNumbers (oneChannel (.string ['c']) [.array [.number 1, .number 2, .number 3]])
      (parseJson wholeNumbers (importNew : Import ℚ ℚ)
        (oneChannel (.string ['c']) [.array [.number 1, .number 2, .number 3]])) := by
  rintro (⟨failure, thrown⟩ | ⟨st, ret, -⟩)
  · cases thrown
  · cases ret

/-- A number serves as the name of a channel and stops nothing. -/
example : ¬ StopsFirst wholeNumbers
    (oneChannel (.number 3) [.array [.number 1, .number 2, .number 3]]) := by decide

/-- Null counts as one object without channels and rows. -/
example (numbers : Numbers ℕ ℚ) :
    parseJson numbers (importNew : Import ℚ ℚ) .null = .ret { importNew with goodRecords := 1 } := rfl

end Mio.Datastore.ImportJson
