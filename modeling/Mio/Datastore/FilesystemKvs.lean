import Mio.Datastore.Sample
import Mio.Lib.Files
import Mio.Lib.Persist
import Mio.Lib.Separated
import Mathlib.Data.List.Induction
import Mathlib.Data.List.Infix

/-! `FilesystemKVS.cpp` over a disk that refuses nothing: reading, writing and deleting values as a
refinement of a map. -/
namespace Mio.Datastore

def dot : UInt8 := 46

def isalnum (c : UInt8) : Bool :=
  (48 ≤ c && c ≤ 57) || (65 ≤ c && c ≤ 90) || (97 ≤ c && c ≤ 122)

def isKeyChar (c : UInt8) : Bool := isalnum c || c == 95 || c == 45

def valSuffix : Text := [dot, 118, 97, 108]

/-- The `std::runtime_error`s, each with what its text names. -/
inductive KvsError where
  | invalidKey (key : Text)
  | fopen (path : Path)
  | fread (path : Path)
  | makeParentDirectories (path : Path)

/-- The checks of the constructor on its argument. -/
structure FilesystemKvs where
  root : Path
  nonempty : root ≠ []
  noTrailingSlash : root.getLast? ≠ some slash

abbrev DiskM := Persist Files KvsError

/-- `fopen` for writing; false if it fails. -/
def fopen (truncate : Bool) (path : Path) : DiskM Bool := fun fs =>
  match fs.fopen truncate path with
  | .ok fs => (.ret true, fs)
  | .error _ => (.ret false, fs)

def fwrite (path : Path) (value : Text) : DiskM Unit := fun fs => (.ret (), fs.fwrite path value)

def unlink (path : Path) : DiskM Bool := fun fs =>
  match fs.unlink path with
  | some fs => (.ret true, fs)
  | none => (.ret false, fs)

/-- `mkdir`, with `errno` if it fails. -/
def mkdir (path : Path) : DiskM (Option Errno) := fun fs =>
  match fs.mkdir path with
  | .ok fs => (.ret none, fs)
  | .error errno => (.ret (some errno), fs)

/-- `0 == mkdir(..) || errno == EEXIST` -/
def madeOrThere : Option Errno → Bool
  | none => true
  | some .alreadyExists => true
  | some _ => false

def makeParentDirectories (path : Path) : DiskM Unit :=
  match _cut : cutLast slash path with
  | none => .throw (.makeParentDirectories path)
  | some (subpath, _) => do
      let errno ← mkdir subpath
      if madeOrThere errno then return ()
      else match errno with
        | some .noEntry => do
            makeParentDirectories subpath
            if madeOrThere (← mkdir subpath) then return ()
            else .throw (.makeParentDirectories path)
        | _ => .throw (.makeParentDirectories path)
termination_by path.length
decreasing_by exact cutLast_length _cut

/-- How `set` and `lock` open the file of a key. -/
def openMaking (truncate : Bool) (path : Path) : DiskM Unit := do
  if ← fopen truncate path then return ()
  else
    makeParentDirectories path
    if ← fopen truncate path then return ()
    else .throw (.fopen path)

namespace FilesystemKvs

variable (kvs : FilesystemKvs)

def directoryKeyToPath (key : Text) : Outcome KvsError Path :=
  if key = [] then .ret kvs.root
  else if key.head? = some dot ∨ key.getLast? = some dot ∨ [dot, dot] <:+: key then
    .throw (.invalidKey key)
  else do
    let path ← key.mapM fun c =>
      if c = dot then .ret slash else if isKeyChar c then .ret c else .throw (.invalidKey key)
    return kvs.root ++ slash :: path

def valueKeyToPath (key : Text) : Outcome KvsError Path :=
  if key = [] then .throw (.invalidKey key)
  else do
    let path ← kvs.directoryKeyToPath key
    return path ++ valSuffix

def hasKey (key : Text) : DiskM Bool := do
  let path ← Persist.lift (kvs.valueKeyToPath key)
  Persist.look fun fs => .ret (fs.stat path)

def set (key value : Text) : DiskM Unit := do
  let path ← Persist.lift (kvs.valueKeyToPath key)
  openMaking true path
  if value ≠ [] then fwrite path value else return ()

/-- None for false. A directory can be opened, but not read. -/
def get (key : Text) : DiskM (Option Text) := do
  let path ← Persist.lift (kvs.valueKeyToPath key)
  Persist.look fun fs =>
    match fs path with
    | none => .ret none
    | some (.file value) => .ret (some value)
    | some .directory => .throw (.fread path)

def del (key : Text) : DiskM Bool := do
  let path ← Persist.lift (kvs.valueKeyToPath key)
  unlink path

/-- Without the waiting: one process at a time. -/
def lock (key : Text) : DiskM Unit := do
  let path ← Persist.lift (kvs.valueKeyToPath key)
  openMaking false path

end FilesystemKvs

/-- What may stand between two dots. -/
def IsPart (part : Text) : Prop := part ≠ [] ∧ ∀ c ∈ part, isKeyChar c

def ValidKey (key : Text) : Prop := ∀ part ∈ key.splitOn dot, IsPart part

instance (part : Text) : Decidable (IsPart part) :=
  @instDecidableAnd (part ≠ []) (∀ c ∈ part, isKeyChar c) _ (List.decidableBAll _ part)

instance (key : Text) : Decidable (ValidKey key) := List.decidableBAll _ (key.splitOn dot)

theorem IsPart.no_slash {part : Text} (h : IsPart part) : slash ∉ part :=
  fun mem => absurd (h.2 slash mem) (by decide)

theorem IsPart.no_dot {part : Text} (h : IsPart part) : dot ∉ part :=
  fun mem => absurd (h.2 dot mem) (by decide)

/-- The checks of `directory_key_to_path`, and that there is a key at all. -/
theorem validKey_iff {key : Text} : ValidKey key ↔ key ≠ [] ∧
    ¬ (key.head? = some dot ∨ key.getLast? = some dot ∨ [dot, dot] <:+: key) ∧
    ∀ c ∈ key, c = dot ∨ isKeyChar c := by
  have both : ValidKey key ↔ (∀ part ∈ key.splitOn dot, part ≠ []) ∧
      ∀ part ∈ key.splitOn dot, ∀ c ∈ part, isKeyChar c := forall₂_and
  rw [both, splitOn_ne_nil_iff, forall_mem_splitOn_iff (fun c => isKeyChar c = true), and_assoc]
  simp only [not_or, and_assoc, ne_eq]

theorem ValidKey.ne_nil {key : Text} (h : ValidKey key) : key ≠ [] := (validKey_iff.mp h).1

namespace FilesystemKvs

variable (kvs : FilesystemKvs)

def dirPath (parts : List Text) : Path := kvs.root ++ parts.flatMap (slash :: ·)

def valPath (key : Text) : Path := kvs.dirPath (key.splitOn dot) ++ valSuffix

theorem dirPath_nil : kvs.dirPath [] = kvs.root := List.append_nil _

theorem dirPath_snoc (parts : List Text) (part : Text) :
    kvs.dirPath (parts ++ [part]) = kvs.dirPath parts ++ slash :: part := by
  simp [dirPath]

theorem directoryKeyToPath_valid {key : Text} (valid : ValidKey key) :
    kvs.directoryKeyToPath key = .ret (kvs.dirPath (key.splitOn dot)) := by
  obtain ⟨nonempty, dots, chars⟩ := validKey_iff.mp valid
  have each : ∀ c ∈ key, (if c = dot then .ret slash else if isKeyChar c then .ret c
      else .throw (.invalidKey key) : Outcome KvsError UInt8) =
        .ret (if c = dot then slash else c) := by
    intro c mem
    cases chars c mem with
    | inl separator => rw [if_pos separator, if_pos separator]
    | inr char =>
        by_cases separator : c = dot
        · rw [if_pos separator, if_pos separator]
        · rw [if_neg separator, if_neg separator, if_pos char]
  rw [directoryKeyToPath, if_neg nonempty, if_neg dots, Outcome.mapM_of_ret each, Outcome.ret_bind,
    cons_map_eq_flatMap]
  rfl

theorem directoryKeyToPath_invalid {key : Text} (nonempty : key ≠ []) (invalid : ¬ ValidKey key) :
    kvs.directoryKeyToPath key = .throw (.invalidKey key) := by
  rw [directoryKeyToPath, if_neg nonempty]
  by_cases dots : key.head? = some dot ∨ key.getLast? = some dot ∨ [dot, dot] <:+: key
  · exact if_pos dots
  · have bad : ∃ c ∈ key, ¬ (c = dot ∨ isKeyChar c) := by
      by_contra none
      simp only [not_exists, not_and, not_not] at none
      exact invalid (validKey_iff.mpr ⟨nonempty, dots, none⟩)
    obtain ⟨c, mem, bad⟩ := bad
    obtain ⟨noDot, noChar⟩ := not_or.mp bad
    rw [if_neg dots, Outcome.mapM_of_throw _ mem (by rw [if_neg noDot, if_neg noChar])]
    · rfl
    · intro c _
      split
      · exact .inl ⟨_, rfl⟩
      · split
        · exact .inl ⟨_, rfl⟩
        · exact .inr rfl

theorem valueKeyToPath_valid {key : Text} (valid : ValidKey key) :
    kvs.valueKeyToPath key = .ret (kvs.valPath key) := by
  rw [valueKeyToPath, if_neg valid.ne_nil, kvs.directoryKeyToPath_valid valid]
  rfl

theorem valueKeyToPath_invalid {key : Text} (invalid : ¬ ValidKey key) :
    kvs.valueKeyToPath key = .throw (.invalidKey key) := by
  by_cases empty : key = []
  · exact if_pos empty
  · rw [valueKeyToPath, if_neg empty, kvs.directoryKeyToPath_invalid empty invalid]
    rfl

section
variable {kvs}

theorem dirPath_inj {parts parts' : List Text} (ok : ∀ part ∈ parts, IsPart part)
    (ok' : ∀ part ∈ parts', IsPart part) : kvs.dirPath parts = kvs.dirPath parts' ↔ parts = parts' := by
  rw [dirPath, dirPath, List.append_cancel_left_eq]
  exact flatMap_cons_inj (fun part mem => (ok part mem).no_slash) fun part mem => (ok' part mem).no_slash

theorem valPath_inj {key key' : Text} (valid : ValidKey key) (valid' : ValidKey key') :
    kvs.valPath key = kvs.valPath key' ↔ key = key' := by
  constructor
  · intro same
    have parts := (dirPath_inj valid valid').mp (List.append_cancel_right same)
    calc key = [dot].intercalate (key.splitOn dot) := (List.intercalate_splitOn dot).symm
      _ = [dot].intercalate (key'.splitOn dot) := by rw [parts]
      _ = key' := List.intercalate_splitOn dot
  · exact fun same => congrArg _ same

theorem valPath_ne_dirPath {key : Text} {parts : List Text} (ok : ∀ part ∈ parts, IsPart part) :
    kvs.valPath key ≠ kvs.dirPath parts := by
  intro same
  rw [valPath, dirPath, dirPath, List.append_assoc, List.append_cancel_left_eq] at same
  have mem : dot ∈ parts.flatMap (slash :: ·) := same ▸ List.mem_append_right _ (by decide)
  obtain ⟨part, inside, here⟩ := List.mem_flatMap.mp mem
  cases here with
  | tail _ here => exact (ok part inside).no_dot here

theorem exists_valPath (kvs : FilesystemKvs) {key : Text} (valid : ValidKey key) :
    ∃ parts last, key.splitOn dot = parts ++ [last] ∧ (∀ part ∈ parts, IsPart part) ∧
      slash ∉ last ++ valSuffix ∧ kvs.valPath key = kvs.dirPath parts ++ slash :: (last ++ valSuffix) := by
  obtain ⟨parts, last, split⟩ : ∃ parts last, key.splitOn dot = parts ++ [last] :=
    ⟨_, _, (List.dropLast_append_getLast (List.splitOn_ne_nil dot key)).symm⟩
  rw [ValidKey, split, List.forall_mem_append] at valid
  refine ⟨parts, last, split, valid.1, ?_, ?_⟩
  · intro mem
    cases List.mem_append.mp mem with
    | inl mem => exact (valid.2 last (List.mem_singleton_self last)).no_slash mem
    | inr mem => exact absurd mem (by decide)
  · rw [valPath, split, dirPath_snoc, List.append_assoc, List.cons_append]

end

/-- Below the root there are only directories of parts and the files of the keys that have a value. -/
structure Holds (fs : Files) (m : Text → Option Text) : Prop where
  root : fs kvs.root = some .directory
  value : ∀ key, ValidKey key → fs (kvs.valPath key) = (m key).map .file
  valid : ∀ key, m key ≠ none → ValidKey key
  dirs : ∀ parts, (∀ part ∈ parts, IsPart part) →
    fs (kvs.dirPath parts) = none ∨ fs (kvs.dirPath parts) = some .directory
  parent : ∀ parts name, (∀ part ∈ parts, IsPart part) → slash ∉ name →
    fs (kvs.dirPath parts ++ slash :: name) ≠ none → fs (kvs.dirPath parts) = some .directory
  only : ∀ rest, fs (kvs.root ++ slash :: rest) ≠ none →
    (∃ parts, (∀ part ∈ parts, IsPart part) ∧ kvs.root ++ slash :: rest = kvs.dirPath parts) ∨
      ∃ key, ValidKey key ∧ kvs.root ++ slash :: rest = kvs.valPath key

section
variable {kvs} {fs : Files} {m : Text → Option Text}

/-- The file of a key gets a new content, or is taken away. -/
theorem Holds.assign (h : Holds kvs fs m) {key : Text} (valid : ValidKey key) {parts : List Text}
    {name : Path} (plain : slash ∉ name) (path : kvs.valPath key = kvs.dirPath parts ++ slash :: name)
    (inside : fs (kvs.dirPath parts) = some .directory) (value : Option Text) :
    Holds kvs (Function.update fs (kvs.valPath key) (value.map .file)) (Function.update m key value) := by
  have dir : ∀ parts, (∀ part ∈ parts, IsPart part) →
      Function.update fs (kvs.valPath key) (value.map .file) (kvs.dirPath parts) =
        fs (kvs.dirPath parts) :=
    fun parts ok => Function.update_of_ne (valPath_ne_dirPath ok).symm _ _
  constructor
  · rw [← kvs.dirPath_nil, dir [] (by simp), kvs.dirPath_nil]
    exact h.root
  · intro key' valid'
    by_cases same : key' = key
    · subst same
      rw [Function.update_self, Function.update_self]
    · rw [Function.update_of_ne (mt (valPath_inj valid' valid).mp same), Function.update_of_ne same]
      exact h.value key' valid'
  · intro key' found
    by_cases same : key' = key
    · exact same ▸ valid
    · rw [Function.update_of_ne same] at found
      exact h.valid key' found
  · intro parts ok
    rw [dir parts ok]
    exact h.dirs parts ok
  · intro parts' name' ok' plain' found
    rw [dir parts' ok']
    by_cases same : kvs.dirPath parts' ++ slash :: name' = kvs.valPath key
    · rw [path, append_sep_inj plain' plain] at same
      rw [same.1]
      exact inside
    · rw [Function.update_of_ne same] at found
      exact h.parent parts' name' ok' plain' found
  · intro rest found
    by_cases same : kvs.root ++ slash :: rest = kvs.valPath key
    · exact .inr ⟨key, valid, same⟩
    · rw [Function.update_of_ne same] at found
      exact h.only rest found

theorem Holds.mkdir (h : Holds kvs fs m) {parts : List Text} {part : Text}
    (ok : ∀ part ∈ parts, IsPart part) (isPart : IsPart part)
    (inside : fs (kvs.dirPath parts) = some .directory) :
    Holds kvs (Function.update fs (kvs.dirPath (parts ++ [part])) (some .directory)) m := by
  have ok' : ∀ p ∈ parts ++ [part], IsPart p :=
    List.forall_mem_append.mpr ⟨ok, by simpa using isPart⟩
  have still : ∀ path, fs path = some .directory →
      Function.update fs (kvs.dirPath (parts ++ [part])) (some .directory) path = some .directory := by
    intro path dir
    by_cases same : path = kvs.dirPath (parts ++ [part])
    · rw [same, Function.update_self]
    · rw [Function.update_of_ne same, dir]
  constructor
  · exact still _ h.root
  · intro key valid
    rw [Function.update_of_ne (valPath_ne_dirPath ok')]
    exact h.value key valid
  · exact h.valid
  · intro parts' ok''
    by_cases same : kvs.dirPath parts' = kvs.dirPath (parts ++ [part])
    · exact .inr (by rw [same, Function.update_self])
    · rw [Function.update_of_ne same]
      exact h.dirs parts' ok''
  · intro parts' name okParts plain found
    by_cases same : kvs.dirPath parts' ++ slash :: name = kvs.dirPath (parts ++ [part])
    · rw [dirPath_snoc, append_sep_inj plain isPart.no_slash] at same
      rw [same.1]
      exact still _ inside
    · rw [Function.update_of_ne same] at found
      exact still _ (h.parent parts' name okParts plain found)
  · intro rest found
    by_cases same : kvs.root ++ slash :: rest = kvs.dirPath (parts ++ [part])
    · exact .inl ⟨_, ok', same⟩
    · rw [Function.update_of_ne same] at found
      exact h.only rest found

theorem makeParentDirectories_cut {path subpath name : Path}
    (cut : cutLast slash path = some (subpath, name)) :
    makeParentDirectories path = (do
      let errno ← Datastore.mkdir subpath
      if madeOrThere errno then return ()
      else match errno with
        | some .noEntry => do
            makeParentDirectories subpath
            if madeOrThere (← Datastore.mkdir subpath) then return ()
            else .throw (.makeParentDirectories path)
        | _ => .throw (.makeParentDirectories path)) := by
  rw [makeParentDirectories]
  split
  · next none =>
      rw [none] at cut
      cases cut
  · next found =>
      rw [found] at cut
      cases cut
      rfl

theorem Holds.mkdir_run (h : Holds kvs fs m) {parts : List Text} {part : Text}
    (ok : ∀ part ∈ parts, IsPart part) (isPart : IsPart part)
    (inside : fs (kvs.dirPath parts) = some .directory) :
    ∃ errno fs', Datastore.mkdir (kvs.dirPath (parts ++ [part])) fs = (.ret errno, fs') ∧
      madeOrThere errno ∧ Holds kvs fs' m ∧
      fs' (kvs.dirPath (parts ++ [part])) = some .directory := by
  have ok' : ∀ p ∈ parts ++ [part], IsPart p :=
    List.forall_mem_append.mpr ⟨ok, by simpa using isPart⟩
  cases h.dirs _ ok' with
  | inl absent =>
      have made := h.mkdir ok isPart inside
      rw [dirPath_snoc] at absent made ⊢
      refine ⟨none, _, ?_, rfl, made, Function.update_self ..⟩
      rw [Datastore.mkdir, Files.mkdir_ok isPart.no_slash absent inside]
  | inr present =>
      refine ⟨some .alreadyExists, fs, ?_, rfl, h, present⟩
      rw [Datastore.mkdir, Files.mkdir_present present]

theorem Holds.makeParentDirectories (h : Holds kvs fs m) {parts : List Text} {name : Path}
    (ok : ∀ part ∈ parts, IsPart part) (plain : slash ∉ name) :
    ∃ fs', Datastore.makeParentDirectories (kvs.dirPath parts ++ slash :: name) fs = (.ret (), fs') ∧
      Holds kvs fs' m ∧ fs' (kvs.dirPath parts) = some .directory := by
  induction parts using List.reverseRecOn generalizing name with
  | nil =>
      rw [makeParentDirectories_cut (cutLast_append _ plain), kvs.dirPath_nil]
      refine ⟨fs, ?_, h, h.root⟩
      rw [Persist.bind_of_ret (by rw [Datastore.mkdir, Files.mkdir_present h.root])]
      rfl
  | append_singleton parts part ih =>
      obtain ⟨okParts, okPart⟩ := List.forall_mem_append.mp ok
      have isPart : IsPart part := okPart part (List.mem_singleton_self part)
      rw [makeParentDirectories_cut (cutLast_append _ plain)]
      cases h.dirs parts okParts with
      | inr inside =>
          obtain ⟨errno, fs', run, made, holds, dir⟩ := h.mkdir_run okParts isPart inside
          refine ⟨fs', ?_, holds, dir⟩
          rw [Persist.bind_of_ret run, if_pos made]
          rfl
      | inl missing =>
          have absent : fs (kvs.dirPath parts ++ slash :: part) = none := by
            by_contra present
            rw [h.parent parts part okParts isPart.no_slash present] at missing
            cases missing
          obtain ⟨fs₁, above, holds₁, inside⟩ := ih okParts isPart.no_slash
          obtain ⟨errno, fs', run, made, holds, dir⟩ := holds₁.mkdir_run okParts isPart inside
          refine ⟨fs', ?_, holds, dir⟩
          rw [dirPath_snoc] at run ⊢
          have first : Datastore.mkdir (kvs.dirPath parts ++ slash :: part) fs =
              (.ret (some .noEntry), fs) := by
            rw [Datastore.mkdir, Files.mkdir_missing isPart.no_slash absent missing]
          rw [Persist.bind_of_ret first, if_neg (by decide)]
          dsimp only
          rw [Persist.bind_of_ret above, Persist.bind_of_ret run, if_pos made]
          rfl

/-- What opening a key's file for writing leaves in the map. -/
def opened (truncate : Bool) (m : Text → Option Text) (key : Text) : Text :=
  if truncate then [] else (m key).getD []

theorem Holds.fopen_run (h : Holds kvs fs m) (truncate : Bool) {key : Text} (valid : ValidKey key)
    {parts : List Text} {name : Path} (plain : slash ∉ name)
    (path : kvs.valPath key = kvs.dirPath parts ++ slash :: name)
    (inside : fs (kvs.dirPath parts) = some .directory) :
    ∃ fs', fopen truncate (kvs.valPath key) fs = (.ret true, fs') ∧
      Holds kvs fs' (Function.update m key (some (opened truncate m key))) := by
  refine ⟨_, ?_, h.assign valid plain path inside _⟩
  have now := h.value key valid
  rw [fopen, opened]
  cases value : m key with
  | some content =>
      rw [value] at now
      rw [Files.fopen_file now]
      rfl
  | none =>
      rw [value, path] at now
      rw [path, Files.fopen_new plain now inside]
      cases truncate <;> rfl

theorem Holds.openMaking (h : Holds kvs fs m) (truncate : Bool) {key : Text} (valid : ValidKey key) :
    ∃ fs', openMaking truncate (kvs.valPath key) fs = (.ret (), fs') ∧
      Holds kvs fs' (Function.update m key (some (opened truncate m key))) := by
  obtain ⟨parts, last, split, ok, plain, path⟩ := kvs.exists_valPath valid
  rw [Datastore.openMaking]
  cases h.dirs parts ok with
  | inr inside =>
      obtain ⟨fs', run, holds⟩ := h.fopen_run truncate valid plain path inside
      refine ⟨fs', ?_, holds⟩
      rw [Persist.bind_of_ret run]
      rfl
  | inl missing =>
      have absent : fs (kvs.valPath key) = none := by
        by_contra present
        rw [path] at present
        rw [h.parent parts _ ok plain present] at missing
        cases missing
      obtain ⟨fs₁, made, holds₁, inside⟩ := h.makeParentDirectories ok plain
      obtain ⟨fs', run, holds⟩ := holds₁.fopen_run truncate valid plain path inside
      refine ⟨fs', ?_, holds⟩
      have first : fopen truncate (kvs.valPath key) fs = (.ret false, fs) := by
        rw [fopen, path, Files.fopen_missing plain (path ▸ absent) missing]
      rw [Persist.bind_of_ret first, if_neg (by decide), path, Persist.bind_of_ret made, ← path,
        Persist.bind_of_ret run]
      rfl

end

inductive Request where
  | set (key value : Text)
  | get (key : Text)
  | hasKey (key : Text)
  | del (key : Text)

/-- What a call gives back: `get` its value, if any, the others their `bool`. -/
inductive Reply where
  | done
  | value (found : Option Text)
  | hasKey (found : Bool)
  | deleted (found : Bool)

def handle : Request → DiskM Reply
  | .set key value => do
      kvs.set key value
      return .done
  | .get key => do return .value (← kvs.get key)
  | .hasKey key => do return .hasKey (← kvs.hasKey key)
  | .del key => do return .deleted (← kvs.del key)

/-- Any caller, who goes on after an exception. -/
def serve : List Request → Files → List (Outcome KvsError Reply)
  | [], _ => []
  | r :: requests, fs => (kvs.handle r fs).1 :: serve requests (kvs.handle r fs).2

namespace Request

def key : Request → Text
  | .set key _ => key
  | .get key => key
  | .hasKey key => key
  | .del key => key

def answer (m : Text → Option Text) : Request → Reply × (Text → Option Text)
  | .set key value => (.done, Function.update m key (some value))
  | .get key => (.value (m key), m)
  | .hasKey key => (.hasKey (m key).isSome, m)
  | .del key => (.deleted (m key).isSome, Function.update m key none)

end Request

/-- A map whose keys are limited to the grammar. -/
def serveMap : List Request → (Text → Option Text) → List (Outcome KvsError Reply)
  | [], _ => []
  | r :: requests, m =>
      if ValidKey r.key then .ret (r.answer m).1 :: serveMap requests (r.answer m).2
      else .throw (.invalidKey r.key) :: serveMap requests m

theorem handle_invalid {r : Request} (invalid : ¬ ValidKey r.key) (fs : Files) :
    kvs.handle r fs = (.throw (.invalidKey r.key), fs) := by
  have rejected : ∀ {α : Type} (f : Path → DiskM α),
      (Persist.lift (kvs.valueKeyToPath r.key) >>= f) fs = (.throw (.invalidKey r.key), fs) := by
    intro α f
    rw [kvs.valueKeyToPath_invalid invalid]
    rfl
  cases r with
  | set key value => exact Persist.bind_of_throw (rejected _)
  | get key => exact Persist.bind_of_throw (rejected _)
  | hasKey key => exact Persist.bind_of_throw (rejected _)
  | del key => exact Persist.bind_of_throw (rejected _)

section
variable {kvs} {fs : Files} {m : Text → Option Text}

theorem Holds.set (h : Holds kvs fs m) {key : Text} (valid : ValidKey key) (value : Text) :
    ∃ fs', kvs.set key value fs = (.ret (), fs') ∧
      Holds kvs fs' (Function.update m key (some value)) := by
  obtain ⟨fs₁, opens, holds⟩ := h.openMaking true valid
  have run : kvs.set key value fs =
      (if value ≠ [] then fwrite (kvs.valPath key) value else pure () : DiskM Unit) fs₁ := by
    rw [FilesystemKvs.set, kvs.valueKeyToPath_valid valid]
    exact Persist.bind_of_ret opens
  rw [run]
  by_cases empty : value = []
  · rw [if_neg (not_not.mpr empty)]
    subst empty
    exact ⟨fs₁, rfl, holds⟩
  · rw [if_pos empty]
    obtain ⟨parts, last, split, ok, plain, path⟩ := kvs.exists_valPath valid
    have inside : fs₁ (kvs.dirPath parts) = some .directory := by
      refine holds.parent parts _ ok plain ?_
      rw [← path, holds.value key valid, Function.update_self]
      simp
    have written := holds.assign valid plain path inside (some value)
    rw [Function.update_idem] at written
    exact ⟨_, rfl, written⟩

theorem Holds.get (h : Holds kvs fs m) {key : Text} (valid : ValidKey key) :
    kvs.get key fs = (.ret (m key), fs) := by
  rw [FilesystemKvs.get, kvs.valueKeyToPath_valid valid]
  change ((match fs (kvs.valPath key) with
    | none => .ret none
    | some (.file value) => .ret (some value)
    | some .directory => .throw (.fread (kvs.valPath key)) : Outcome KvsError (Option Text)), fs) = _
  rw [h.value key valid]
  cases m key <;> rfl

theorem Holds.hasKey (h : Holds kvs fs m) {key : Text} (valid : ValidKey key) :
    kvs.hasKey key fs = (.ret (m key).isSome, fs) := by
  rw [FilesystemKvs.hasKey, kvs.valueKeyToPath_valid valid]
  change (Outcome.ret (fs (kvs.valPath key)).isSome, fs) = _
  rw [h.value key valid, Option.isSome_map]

theorem Holds.del (h : Holds kvs fs m) {key : Text} (valid : ValidKey key) :
    ∃ fs', kvs.del key fs = (.ret (m key).isSome, fs') ∧ Holds kvs fs' (Function.update m key none) := by
  have run : kvs.del key fs = unlink (kvs.valPath key) fs := by
    rw [FilesystemKvs.del, kvs.valueKeyToPath_valid valid]
    rfl
  have now := h.value key valid
  rw [run, unlink, Files.unlink]
  cases value : m key with
  | none =>
      rw [value] at now
      have same : Function.update m key none = m := Function.update_eq_self_iff.mpr value.symm
      rw [now, same]
      exact ⟨fs, rfl, h⟩
  | some content =>
      rw [value] at now
      obtain ⟨parts, last, split, ok, plain, path⟩ := kvs.exists_valPath valid
      have inside := h.parent parts _ ok plain (by rw [← path, now]; simp)
      rw [now]
      exact ⟨_, rfl, h.assign valid plain path inside none⟩

theorem Holds.handle (h : Holds kvs fs m) {r : Request} (valid : ValidKey r.key) :
    ∃ fs', kvs.handle r fs = (.ret (r.answer m).1, fs') ∧ Holds kvs fs' (r.answer m).2 := by
  cases r with
  | set key value =>
      obtain ⟨fs', run, holds⟩ := h.set valid value
      exact ⟨fs', Persist.bind_of_ret run, holds⟩
  | get key => exact ⟨fs, Persist.bind_of_ret (h.get valid), h⟩
  | hasKey key => exact ⟨fs, Persist.bind_of_ret (h.hasKey valid), h⟩
  | del key =>
      obtain ⟨fs', run, holds⟩ := h.del valid
      exact ⟨fs', Persist.bind_of_ret run, holds⟩

theorem Holds.serve (h : Holds kvs fs m) (requests : List Request) :
    kvs.serve requests fs = serveMap requests m := by
  induction requests generalizing fs m with
  | nil => rfl
  | cons r requests ih =>
      rw [FilesystemKvs.serve, serveMap]
      by_cases valid : ValidKey r.key
      · obtain ⟨fs', run, holds⟩ := h.handle valid
        rw [if_pos valid, run, ih holds]
      · rw [if_neg valid, kvs.handle_invalid valid, ih h]

def Empty (kvs : FilesystemKvs) (fs : Files) : Prop :=
  fs kvs.root = some .directory ∧ ∀ rest, fs (kvs.root ++ slash :: rest) = none

theorem Empty.below (h : Empty kvs fs) (parts : List Text) (part : Text) (suffix : Path) :
    fs (kvs.dirPath (parts ++ [part]) ++ suffix) = none := by
  cases parts with
  | nil => simpa [dirPath] using h.2 (part ++ suffix)
  | cons first parts =>
      simpa [dirPath] using h.2 (first ++ parts.flatMap (slash :: ·) ++ slash :: part ++ suffix)

theorem Empty.holds (h : Empty kvs fs) : Holds kvs fs (fun _ => none) := by
  constructor
  · exact h.1
  · intro key valid
    obtain ⟨parts, last, split, -⟩ := kvs.exists_valPath valid
    rw [valPath, split]
    exact h.below parts last _
  · exact fun key found => absurd rfl found
  · intro parts ok
    cases parts using List.reverseRecOn with
    | nil => exact .inr (kvs.dirPath_nil ▸ h.1)
    | append_singleton parts part => exact .inl (by simpa using h.below parts part [])
  · intro parts name ok plain found
    rw [← dirPath_snoc, ← List.append_nil (kvs.dirPath _), h.below] at found
    exact absurd rfl found
  · exact fun rest found => absurd (h.2 rest) found

end

/-- The store is a map, no key but those of the grammar is ever accepted, and what is stored for one key
is out of every other's way. -/
theorem refines_map {kvs : FilesystemKvs} {fs : Files} (empty : Empty kvs fs) :
    (∀ requests, kvs.serve requests fs = serveMap requests fun _ => none) ∧
    (∀ r : Request, ∀ fs, ¬ ValidKey r.key → kvs.handle r fs = (.throw (.invalidKey r.key), fs)) ∧
    (∀ key key' path, kvs.valueKeyToPath key = .ret path → kvs.valueKeyToPath key' = .ret path →
      key = key') ∧
    ∀ key key' path, kvs.valueKeyToPath key = .ret path → kvs.directoryKeyToPath key' ≠ .ret path := by
  have accepted : ∀ {key path}, kvs.valueKeyToPath key = .ret path →
      ValidKey key ∧ kvs.valPath key = path := by
    intro key path found
    by_cases valid : ValidKey key
    · rw [kvs.valueKeyToPath_valid valid] at found
      cases found
      exact ⟨valid, rfl⟩
    · rw [kvs.valueKeyToPath_invalid valid] at found
      cases found
  refine ⟨empty.holds.serve, fun r fs invalid => kvs.handle_invalid invalid fs, ?_, ?_⟩
  · intro key key' path found found'
    exact (valPath_inj (accepted found).1 (accepted found').1).mp
      ((accepted found).2.trans (accepted found').2.symm)
  · intro key key' path found found'
    rw [← (accepted found).2] at found'
    by_cases none : key' = []
    · subst none
      have same : kvs.root = kvs.valPath key := Outcome.ret.inj found'
      have apart : kvs.valPath key ≠ kvs.dirPath [] := valPath_ne_dirPath (by simp)
      rw [kvs.dirPath_nil] at apart
      exact apart same.symm
    · by_cases valid : ValidKey key'
      · rw [kvs.directoryKeyToPath_valid valid] at found'
        exact valPath_ne_dirPath valid (Outcome.ret.inj found').symm
      · rw [kvs.directoryKeyToPath_invalid none valid] at found'
        cases found'

/-- "a" is set and read in the directory "d"; the key "." is rejected. -/
theorem refines_map_letter :
    serve ⟨[100], by decide, by decide⟩ [.set [97] [98], .get [97], .del [46]]
        (fun path => if path = [100] then some .directory else none) =
      [.ret .done, .ret (.value (some [98])), .throw (.invalidKey [46])] :=
  ((@refines_map ⟨[100], by decide, by decide⟩
    (fun path => if path = [100] then some .directory else none)
    ⟨rfl, fun rest => if_neg (by simp)⟩).1 _).trans rfl

end FilesystemKvs
end Mio.Datastore
