import Mio.Datastore.FilesystemKvs
import Mathlib.Data.List.Nodup

/-! `FilesystemKVS::get_subkeys`: which of the stored keys below a key it lists. -/
namespace Mio.Datastore

/-- What follows the last dot, unless it is in a directory's name. -/
def filenameSuffix (filename : Path) : Path :=
  match cutLast dot filename with
  | none => []
  | some (_, suffix) => if slash ∈ suffix then [] else suffix

def filenameSansSuffix (filename : Path) : Path :=
  match cutLast dot filename with
  | none => filename
  | some (front, suffix) => if slash ∈ suffix then filename else front

/-- The null pointer filters nothing. -/
def passes (filter : Option (Text → Bool)) (name : Text) : Bool :=
  match filter with
  | none => true
  | some pass => pass name

namespace FilesystemKvs

variable (kvs : FilesystemKvs) (fs : Files) (dirs : fs.Listing)

/-- What the names of the entries are put behind. -/
def subkeyFront (key : Text) : Text := if key = [] then [] else key ++ [dot]

/-- One pass of the loop over the directory at `path`; `deeper` is the call for a subdirectory, made
where `wanted` allows it. -/
def subkeysAt (deeper : Text → Outcome KvsError (List Text)) (wanted : Text → Bool) (key : Text)
    (path name : Path) : Outcome KvsError (List Text) :=
  if filenameSuffix name = [118, 97, 108] then return [subkeyFront key ++ filenameSansSuffix name]
  else if wanted name then
    match fs (path ++ slash :: name) with
    | some .directory => deeper (subkeyFront key ++ name)
    | _ => return []
  else return []

def subkeysIn (deeper : Text → Outcome KvsError (List Text)) (wanted : Text → Bool) (key : Text) :
    Outcome KvsError (List Text) := do
  let path ← kvs.directoryKeyToPath key
  match fs path with
  | some .directory => do
      let keys ← (dirs.names path).mapM (subkeysAt fs deeper wanted key path)
      return keys.flatten
  | _ => return []

/-- The recursive call leaves the filter out. -/
def getSubkeys : ℕ → Option (Text → Bool) → Text → Outcome KvsError (List Text)
  | 0, _ => subkeysIn kvs fs dirs (fun _ => return []) fun _ => false
  | nlevels + 1, filter =>
      subkeysIn kvs fs dirs (getSubkeys nlevels none) fun name => 0 < nlevels && passes filter name

end FilesystemKvs

/-- The empty key stands above all others. -/
def DirKey (key : Text) : Prop := key = [] ∨ ValidKey key

instance (key : Text) : Decidable (DirKey key) := inferInstanceAs (Decidable (_ ∨ _))

def keyParts (key : Text) : List Text := if key = [] then [] else key.splitOn dot

theorem ValidKey.keyParts {key : Text} (h : ValidKey key) : keyParts key = key.splitOn dot :=
  if_neg h.ne_nil

theorem DirKey.isPart {key : Text} (h : DirKey key) : ∀ part ∈ keyParts key, IsPart part := by
  cases h with
  | inl none => simp [keyParts, none]
  | inr valid => exact valid.keyParts ▸ valid

theorem keyParts_inj {key key' : Text} (same : keyParts key = keyParts key') : key = key' := by
  have parts : ∀ key : Text, [dot].intercalate (keyParts key) = key := by
    intro key
    by_cases none : key = []
    · rw [keyParts, if_pos none, none]
      rfl
    · rw [keyParts, if_neg none, List.intercalate_splitOn]
  rw [← parts key, same, parts]

theorem keyParts_front (key : Text) {part : Text} (isPart : IsPart part) :
    keyParts (FilesystemKvs.subkeyFront key ++ part) = keyParts key ++ [part] := by
  have alone := List.splitOn_eq_singleton isPart.no_dot
  by_cases none : key = []
  · rw [FilesystemKvs.subkeyFront, if_pos none, List.nil_append, keyParts, if_neg isPart.1, alone,
      keyParts, if_pos none, List.nil_append]
  · rw [FilesystemKvs.subkeyFront, if_neg none, List.append_assoc, List.singleton_append, keyParts,
      if_neg (by simp), List.splitOn_append_cons_self, alone, keyParts, if_neg none]

theorem DirKey.front {key part : Text} (isKey : DirKey key) (isPart : IsPart part) :
    ValidKey (FilesystemKvs.subkeyFront key ++ part) := by
  have parts := keyParts_front key isPart
  have some : FilesystemKvs.subkeyFront key ++ part ≠ [] := fun none =>
    isPart.1 (List.append_eq_nil_iff.mp none).2
  rw [keyParts, if_neg some] at parts
  rw [ValidKey, parts, List.forall_mem_append]
  exact ⟨isKey.isPart, by simpa using isPart⟩

/-- The stored keys `key.s1...sm`, with the list of `s1` to `sm`. -/
structure Below (m : Text → Option Text) (key : Text) (rest : List Text) (k : Text) : Prop where
  stored : m k ≠ none
  parts : keyParts k = keyParts key ++ rest
  proper : rest ≠ []

/-- Every subkey once, down to `nlevels` and with the filter on all the directories on the way. -/
structure ListsSubkeys (m : Text → Option Text) (key : Text) (nlevels : ℕ)
    (filter : Option (Text → Bool)) (keys : List Text) : Prop where
  once : keys.Nodup
  mem_iff : ∀ k, k ∈ keys ↔ ∃ rest, Below m key rest k ∧ rest.length ≤ nlevels ∧
    ∀ name ∈ rest.dropLast, passes filter name

/-- The filter on the first directory implies it for the others. -/
structure FilteredOnce (m : Text → Option Text) (key : Text) (nlevels : ℕ)
    (filter : Option (Text → Bool)) : Prop where
  isKey : DirKey key
  shallow : nlevels = 0 → ∀ k part, ¬ Below m key [part] k
  deep : ∀ k first rest, Below m key (first :: rest) k → rest.length < nlevels → rest ≠ [] →
    passes filter first → ∀ name ∈ rest.dropLast, passes filter name

namespace Below

variable {m : Text → Option Text} {key k : Text} {rest : List Text}

theorem front {name : Text} (isPart : IsPart name) :
    Below m (FilesystemKvs.subkeyFront key ++ name) rest k ↔
      Below m key (name :: rest) k ∧ rest ≠ [] := by
  have parts := keyParts_front key isPart
  constructor
  · intro below
    refine ⟨⟨below.stored, ?_, by simp⟩, below.proper⟩
    rw [below.parts, parts, List.append_assoc, List.singleton_append]
  · intro both
    refine ⟨both.1.stored, ?_, both.2⟩
    rw [both.1.parts, parts, List.append_assoc, List.singleton_append]

theorem unique {rest' : List Text} (h : Below m key rest k) (h' : Below m key rest' k) :
    rest = rest' :=
  List.append_cancel_left (h.parts.symm.trans h'.parts)

theorem exists_iff {P Q : List Text → Prop}
    (same : ∀ first more, Below m key (first :: more) k → (P (first :: more) ↔ Q (first :: more))) :
    (∃ rest, Below m key rest k ∧ P rest) ↔ ∃ rest, Below m key rest k ∧ Q rest := by
  refine exists_congr fun rest => and_congr_right fun below => ?_
  obtain ⟨first, more, rfl⟩ := List.exists_cons_of_ne_nil below.proper
  exact same first more below

end Below

namespace FilesystemKvs

theorem suffix_part {part : Text} (isPart : IsPart part) : filenameSuffix part = [] := by
  rw [filenameSuffix, cutLast_none isPart.no_dot]

theorem suffix_value (last : Text) : filenameSuffix (last ++ valSuffix) = [118, 97, 108] := by
  have cut : cutLast dot (last ++ valSuffix) = some (last, [118, 97, 108]) :=
    cutLast_append last (by decide)
  rw [filenameSuffix, cut]
  rfl

theorem sansSuffix_value (last : Text) : filenameSansSuffix (last ++ valSuffix) = last := by
  have cut : cutLast dot (last ++ valSuffix) = some (last, [118, 97, 108]) :=
    cutLast_append last (by decide)
  rw [filenameSansSuffix, cut]
  rfl

/-- The entry of a directory under which a subkey is found. -/
def entryName : List Text → Path
  | [] => []
  | [last] => last ++ valSuffix
  | part :: _ :: _ => part

section
variable {kvs : FilesystemKvs} {fs : Files} {m : Text → Option Text}

theorem directoryKeyToPath_dirKey {key : Text} (isKey : DirKey key) :
    kvs.directoryKeyToPath key = .ret (kvs.dirPath (keyParts key)) := by
  cases isKey with
  | inl none =>
      rw [directoryKeyToPath, if_pos none, keyParts, if_pos none, dirPath, List.flatMap_nil,
        List.append_nil]
  | inr valid => rw [kvs.directoryKeyToPath_valid valid, valid.keyParts]

theorem Holds.entries (h : Holds kvs fs m) {parts : List Text} {name : Path}
    (ok : ∀ part ∈ parts, IsPart part) (plain : slash ∉ name)
    (present : fs (kvs.dirPath parts ++ slash :: name) ≠ none) :
    IsPart name ∧ fs (kvs.dirPath parts ++ slash :: name) = some .directory ∨
      ∃ last, IsPart last ∧ name = last ++ valSuffix := by
  have below : ∃ rest, kvs.dirPath parts ++ slash :: name = kvs.root ++ slash :: rest := by
    cases parts with
    | nil => exact ⟨name, by simp [dirPath]⟩
    | cons part parts =>
        exact ⟨part ++ parts.flatMap (slash :: ·) ++ slash :: name, by simp [dirPath]⟩
  obtain ⟨rest, path⟩ := below
  cases h.only rest (path ▸ present) with
  | inl dir =>
      obtain ⟨parts', ok', eq⟩ := dir
      rw [← path] at eq
      cases parts' using List.reverseRecOn with
      | nil =>
          rw [dirPath, dirPath, List.append_assoc, List.append_cancel_left_eq] at eq
          simp at eq
      | append_singleton q part =>
          obtain ⟨-, okPart⟩ := List.forall_mem_append.mp ok'
          have isPart : IsPart part := okPart part (List.mem_singleton_self part)
          have dir := h.dirs _ ok'
          rw [← eq] at dir
          rw [dirPath_snoc, append_sep_inj plain isPart.no_slash] at eq
          exact .inl ⟨eq.2 ▸ isPart, dir.resolve_left present⟩
  | inr value =>
      obtain ⟨key, valid, eq⟩ := value
      obtain ⟨q, last, split, -, plain', eq'⟩ := kvs.exists_valPath valid
      rw [← path, eq', append_sep_inj plain plain'] at eq
      exact .inr ⟨last, valid last (split ▸ by simp), eq.2⟩

theorem Holds.above (h : Holds kvs fs m) {key k : Text} {rest : List Text}
    (below : Below m key rest k) : fs (kvs.dirPath (keyParts key)) = some .directory := by
  have valid := h.valid k below.stored
  have parts := below.parts
  rw [valid.keyParts] at parts
  obtain ⟨q, last, split, okParts, plain, path⟩ := kvs.exists_valPath valid
  have inside : fs (kvs.dirPath q) = some .directory := by
    refine h.parent q _ okParts plain ?_
    rw [← path, h.value k valid]
    simpa using below.stored
  obtain ⟨r, tail⟩ : ∃ r, q = keyParts key ++ r := by
    rw [split] at parts
    obtain ⟨init, lastOf, eq⟩ : ∃ init lastOf, rest = init ++ [lastOf] :=
      ⟨_, _, (List.dropLast_append_getLast below.proper).symm⟩
    rw [eq, ← List.append_assoc] at parts
    exact ⟨init, List.append_inj_left' parts rfl⟩
  subst tail
  clear split path
  induction r using List.reverseRecOn with
  | nil => simpa using inside
  | append_singleton r part ih =>
      rw [← List.append_assoc] at okParts inside
      obtain ⟨okFront, okPart⟩ := List.forall_mem_append.mp okParts
      refine ih okFront (h.parent _ part okFront ?_ ?_)
      · exact (okPart part (List.mem_singleton_self part)).no_slash
      · rw [← dirPath_snoc, inside]
        simp

variable (dirs : fs.Listing)

theorem Holds.isPart (h : Holds kvs fs m) {key k : Text} {rest : List Text}
    (below : Below m key rest k) : ∀ part ∈ rest, IsPart part := by
  have valid := h.valid k below.stored
  exact fun part mem => valid part (valid.keyParts ▸ below.parts ▸ List.mem_append_right _ mem)

theorem Holds.entry_mem (h : Holds kvs fs m) {key k : Text} {rest : List Text}
    (below : Below m key rest k) :
    entryName rest ∈ dirs.names (kvs.dirPath (keyParts key)) := by
  have valid := h.valid k below.stored
  have parts := below.parts
  have ok := h.isPart below
  rw [valid.keyParts] at parts
  rw [dirs.mem_iff]
  cases rest with
  | nil => exact absurd rfl below.proper
  | cons first rest =>
      have isPart : IsPart first := ok first List.mem_cons_self
      cases rest with
      | nil =>
          obtain ⟨q, last, split, -, plain, path⟩ := kvs.exists_valPath valid
          obtain ⟨front, same⟩ := List.append_inj' (split.symm.trans parts) rfl
          cases same
          subst front
          refine ⟨by simp [entryName, valSuffix], plain, ?_⟩
          rw [entryName, ← path, h.value k valid, Option.isSome_map]
          exact Option.isSome_iff_ne_none.mpr below.stored
      | cons second rest =>
          have deeper : Below m (subkeyFront key ++ first) (second :: rest) k :=
            (Below.front isPart).mpr ⟨below, by simp⟩
          have dir := h.above deeper
          rw [keyParts_front key isPart, dirPath_snoc] at dir
          refine ⟨isPart.1, isPart.no_slash, ?_⟩
          rw [entryName, dir]
          rfl

/-- Which subkeys a pass of the loop lists, if `D` says which ones the call for a subdirectory
lists. -/
def Lists (m : Text → Option Text) (wanted : Text → Bool) (D : List Text → Prop) (key k : Text)
    (rest : List Text) : Prop :=
  Below m key rest k ∧ ∀ name ∈ rest.dropLast.take 1, wanted name ∧ D rest.tail

/-- Under the entry of a directory there are the subkeys with a further part. -/
theorem entryName_part {name : Text} (isPart : IsPart name) {rest : List Text} (some : rest ≠ []) :
    entryName rest = name ↔ ∃ second more, rest = name :: second :: more := by
  cases rest with
  | nil => exact absurd rfl some
  | cons first rest =>
      cases rest with
      | nil =>
          constructor
          · intro entry
            exact absurd (entry ▸ List.mem_append_right first (by decide)) isPart.no_dot
          · intro found
            obtain ⟨second, more, eq⟩ := found
            cases eq
      | cons second more =>
          constructor
          · intro entry
            exact ⟨second, more, entry ▸ rfl⟩
          · intro found
            obtain ⟨second', more', eq⟩ := found
            cases eq
            rfl

theorem entryName_value {last : Text} {rest : List Text} (ok : ∀ part ∈ rest, IsPart part) :
    entryName rest = last ++ valSuffix ↔ rest = [last] := by
  constructor
  · intro entry
    cases rest with
    | nil => exact absurd entry.symm (by simp [entryName, valSuffix])
    | cons first rest =>
        cases rest with
        | nil => rw [List.append_cancel_right entry]
        | cons second more =>
            rw [entryName] at entry
            have bad : dot ∈ first := entry ▸ List.mem_append_right last (by decide)
            exact absurd bad (ok first List.mem_cons_self).no_dot
  · intro eq
    rw [eq, entryName]

/-- The file of a subkey says that it has a value. -/
theorem Holds.below_value (h : Holds kvs fs m) {key last : Text} (isKey : DirKey key)
    (isPart : IsPart last)
    (there : fs (kvs.dirPath (keyParts key) ++ slash :: (last ++ valSuffix)) ≠ none) :
    Below m key [last] (subkeyFront key ++ last) := by
  have valid := isKey.front isPart
  have parts := keyParts_front key isPart
  refine ⟨?_, parts, by simp⟩
  intro none
  have path : kvs.valPath (subkeyFront key ++ last) =
      kvs.dirPath (keyParts key) ++ slash :: (last ++ valSuffix) := by
    rw [valPath, ← valid.keyParts, parts, dirPath_snoc, List.append_assoc, List.cons_append]
  have value := h.value _ valid
  rw [none, path] at value
  exact there value

section
variable {deeper : Text → Outcome KvsError (List Text)} {wanted : Text → Bool} {D : List Text → Prop}
  {key : Text}

theorem subkeysAt_directory {name path : Path} (isPart : IsPart name)
    (isDir : fs (path ++ slash :: name) = some .directory)
    (calls : wanted name → ∃ keys, deeper (subkeyFront key ++ name) = .ret keys ∧
      keys.Nodup ∧ ∀ k, k ∈ keys ↔ ∃ rest, Below m (subkeyFront key ++ name) rest k ∧ D rest) :
    ∃ keys, subkeysAt fs deeper wanted key path name = .ret keys ∧
      keys.Nodup ∧ ∀ k, k ∈ keys ↔ ∃ rest, Lists m wanted D key k rest ∧ entryName rest = name := by
  rw [subkeysAt, suffix_part isPart, if_neg (by decide)]
  by_cases goes : wanted name
  · obtain ⟨keys, ret, nodup, mem⟩ := calls goes
    rw [if_pos goes, isDir]
    refine ⟨keys, ret, nodup, fun k => (mem k).trans ?_⟩
    constructor
    · intro found
      obtain ⟨rest, below, fits⟩ := found
      obtain ⟨below, some⟩ := (Below.front isPart).mp below
      obtain ⟨second, more, eq⟩ := List.exists_cons_of_ne_nil some
      subst eq
      exact ⟨name :: second :: more, ⟨below, by simpa using ⟨goes, fits⟩⟩, rfl⟩
    · intro found
      obtain ⟨rest, lists, entry⟩ := found
      obtain ⟨second, more, eq⟩ := (entryName_part isPart lists.1.proper).mp entry
      subst eq
      exact ⟨second :: more, (Below.front isPart).mpr ⟨lists.1, by simp⟩, (lists.2 name (by simp)).2⟩
  · rw [if_neg goes]
    refine ⟨[], rfl, List.nodup_nil, fun k => ?_⟩
    constructor
    · intro found
      cases found
    · intro found
      obtain ⟨rest, lists, entry⟩ := found
      obtain ⟨second, more, eq⟩ := (entryName_part isPart lists.1.proper).mp entry
      subst eq
      exact absurd (lists.2 name (by simp)).1 goes

theorem Holds.subkeysAt_value (h : Holds kvs fs m) (isKey : DirKey key) {last : Text}
    (isPart : IsPart last)
    (there : fs (kvs.dirPath (keyParts key) ++ slash :: (last ++ valSuffix)) ≠ none) :
    ∃ keys, subkeysAt fs deeper wanted key (kvs.dirPath (keyParts key)) (last ++ valSuffix) = .ret keys ∧
      keys.Nodup ∧ ∀ k, k ∈ keys ↔
        ∃ rest, Lists m wanted D key k rest ∧ entryName rest = last ++ valSuffix := by
  rw [subkeysAt, suffix_value, if_pos rfl, sansSuffix_value]
  refine ⟨[subkeyFront key ++ last], rfl, List.nodup_singleton _, fun k => ?_⟩
  rw [List.mem_singleton]
  constructor
  · intro same
    subst same
    exact ⟨[last], ⟨h.below_value isKey isPart there, by simp⟩, rfl⟩
  · intro found
    obtain ⟨rest, lists, entry⟩ := found
    cases (entryName_value (h.isPart lists.1)).mp entry
    exact keyParts_inj (lists.1.parts.trans (keyParts_front key isPart).symm)

theorem Holds.subkeysIn (h : Holds kvs fs m) (isKey : DirKey key)
    (deeper : Text → Outcome KvsError (List Text)) (wanted : Text → Bool)
    (calls : ∀ name, IsPart name → wanted name → ∃ keys, deeper (subkeyFront key ++ name) = .ret keys ∧
      keys.Nodup ∧ ∀ k, k ∈ keys ↔ ∃ rest, Below m (subkeyFront key ++ name) rest k ∧ D rest) :
    ∃ keys, kvs.subkeysIn fs dirs deeper wanted key = .ret keys ∧ keys.Nodup ∧
      ∀ k, k ∈ keys ↔ ∃ rest, Lists m wanted D key k rest := by
  rw [FilesystemKvs.subkeysIn, directoryKeyToPath_dirKey isKey, Outcome.ret_bind]
  cases h.dirs _ isKey.isPart with
  | inl missing =>
      rw [missing]
      refine ⟨[], rfl, List.nodup_nil, fun k => ?_⟩
      constructor
      · intro found
        cases found
      · intro found
        obtain ⟨rest, lists⟩ := found
        rw [h.above lists.1] at missing
        cases missing
  | inr inside =>
      have each : ∀ name ∈ dirs.names (kvs.dirPath (keyParts key)), ∃ keys,
          FilesystemKvs.subkeysAt fs deeper wanted key (kvs.dirPath (keyParts key)) name = .ret keys ∧
            keys.Nodup ∧ ∀ k, k ∈ keys ↔
              ∃ rest, Lists m wanted D key k rest ∧ entryName rest = name := by
        intro name listed
        obtain ⟨-, plain, present⟩ := (dirs.mem_iff _ _).mp listed
        have there := Option.isSome_iff_ne_none.mp present
        cases h.entries isKey.isPart plain there with
        | inl dir => exact subkeysAt_directory dir.1 dir.2 (calls name dir.1)
        | inr value =>
            obtain ⟨last, isPart, eq⟩ := value
            subst eq
            exact h.subkeysAt_value isKey isPart there
      choose! keysAt ret nodup mem using each
      refine ⟨((dirs.names (kvs.dirPath (keyParts key))).map keysAt).flatten, ?_, ?_, fun k => ?_⟩
      · rw [inside]
        dsimp only
        rw [Outcome.mapM_of_ret ret, Outcome.ret_bind]
        rfl
      · rw [List.nodup_flatten, List.forall_mem_map, List.pairwise_map]
        refine ⟨nodup, (dirs.nodup _).imp_of_mem ?_⟩
        intro name name' listed listed' differ k here there
        obtain ⟨rest, lists, entry⟩ := (mem name listed k).mp here
        obtain ⟨rest', lists', entry'⟩ := (mem name' listed' k).mp there
        cases lists.1.unique lists'.1
        exact differ (entry.symm.trans entry')
      · simp only [List.mem_flatten, List.mem_map, exists_exists_and_eq_and]
        constructor
        · intro found
          obtain ⟨name, listed, here⟩ := found
          obtain ⟨rest, lists, -⟩ := (mem name listed k).mp here
          exact ⟨rest, lists⟩
        · intro found
          obtain ⟨rest, lists⟩ := found
          have listed := h.entry_mem dirs lists.1
          exact ⟨_, listed, (mem _ listed k).mpr ⟨rest, lists, rfl⟩⟩

/-- What the call lists: at least one level, and the filter on the first directory only. -/
theorem Holds.getSubkeys (h : Holds kvs fs m) (isKey : DirKey key) (nlevels : ℕ)
    (filter : Option (Text → Bool)) :
    ∃ keys, kvs.getSubkeys fs dirs nlevels filter key = .ret keys ∧ keys.Nodup ∧
      ∀ k, k ∈ keys ↔ ∃ rest, Below m key rest k ∧ rest.length ≤ max nlevels 1 ∧
        ∀ name ∈ rest.dropLast.take 1, passes filter name := by
  induction nlevels generalizing filter key with
  | zero =>
      obtain ⟨keys, ret, nodup, mem⟩ := h.subkeysIn dirs isKey (fun _ => return []) (fun _ => false)
        (D := fun _ => False) fun name isPart goes => by cases goes
      refine ⟨keys, ret, nodup, fun k => (mem k).trans (Below.exists_iff fun first more below => ?_)⟩
      cases more with
      | nil => simp
      | cons second more => simp
  | succ n ih =>
      have calls : ∀ name, IsPart name → (0 < n && passes filter name) → ∃ keys,
          kvs.getSubkeys fs dirs n none (subkeyFront key ++ name) = .ret keys ∧ keys.Nodup ∧
            ∀ k, k ∈ keys ↔
              ∃ rest, Below m (subkeyFront key ++ name) rest k ∧ rest.length ≤ max n 1 := by
        intro name isPart goes
        obtain ⟨keys, ret, nodup, mem⟩ := ih (.inr (isKey.front isPart)) none
        exact ⟨keys, ret, nodup, by simpa [passes] using mem⟩
      obtain ⟨keys, ret, nodup, mem⟩ := h.subkeysIn dirs isKey _ _ calls
      refine ⟨keys, ret, nodup, fun k => (mem k).trans (Below.exists_iff fun first more below => ?_)⟩
      cases more with
      | nil => simp
      | cons second more =>
          simp only [List.dropLast_cons_cons, List.take_succ_cons, List.take_zero, List.mem_singleton,
            forall_eq, List.tail_cons, List.length_cons, Bool.and_eq_true, decide_eq_true_eq]
          by_cases some : 0 < n
          · have one : max n 1 = n := by omega
            have more : max (n + 1) 1 = n + 1 := by omega
            rw [one, more]
            constructor
            · exact fun fits => ⟨by omega, fits.1.2⟩
            · exact fun fits => ⟨⟨some, fits.2⟩, by omega⟩
          · constructor
            · exact fun fits => absurd fits.1.1 some
            · exact fun fits => absurd fits.1 (by omega)

end

theorem getSubkeys_invalid {key : Text} (bad : ¬ DirKey key) (nlevels : ℕ)
    (filter : Option (Text → Bool)) :
    kvs.getSubkeys fs dirs nlevels filter key = .throw (.invalidKey key) := by
  obtain ⟨some, invalid⟩ := not_or.mp bad
  have thrown := kvs.directoryKeyToPath_invalid some invalid
  cases nlevels with
  | zero => rw [FilesystemKvs.getSubkeys, FilesystemKvs.subkeysIn, thrown, Outcome.throw_bind]
  | succ n => rw [FilesystemKvs.getSubkeys, FilesystemKvs.subkeysIn, thrown, Outcome.throw_bind]

end

/-- `not_all_digits_filter` of `Channel.cpp`. -/
def notAllDigits (subdir : Text) : Bool := subdir.any fun c => ! (48 ≤ c && c ≤ 57)

def aOneB : FilesystemKvs := ⟨[100], by decide, by decide⟩

def aOneBMap : Text → Option Text := Function.update (fun _ => none) [97, 46, 49, 46, 98] (some [])

def aOneBFiles : Files :=
  Function.update (Function.update (Function.update
    (fun path => if path = [100] then some .directory else none)
    (aOneB.dirPath [[97]]) (some .directory))
    (aOneB.dirPath [[97], [49]]) (some .directory))
    (aOneB.valPath [97, 46, 49, 46, 98]) (some (.file []))

theorem aOneB_holds : Holds aOneB aOneBFiles aOneBMap := by
  have empty : Empty aOneB (fun path => if path = [100] then some .directory else none) :=
    ⟨rfl, fun rest => if_neg (by simp [aOneB])⟩
  have a := empty.holds.mkdir (show ∀ part ∈ [], IsPart part by simp) (show IsPart [97] by decide)
    (show some Entry.directory = _ from rfl)
  have one := a.mkdir (show ∀ part ∈ [[97]], IsPart part by decide) (show IsPart [49] by decide) rfl
  have path : aOneB.valPath [97, 46, 49, 46, 98] =
      aOneB.dirPath [[97], [49]] ++ slash :: ([98] ++ valSuffix) := by decide
  exact one.assign (by decide) (by decide) path rfl (some [])

def aOneBDirs : aOneBFiles.Listing :=
  .ofPaths [[100], aOneB.dirPath [[97]], aOneB.dirPath [[97], [49]], aOneB.valPath [97, 46, 49, 46, 98]]
    (by decide) (by
      intro path
      simp only [aOneBFiles, Function.update_apply, List.mem_cons, List.not_mem_nil, or_false]
      split_ifs with value one a root
      · simp [value]
      · simp [one]
      · simp [a]
      · simp [root]
      · simp [value, one, a, root])

/-- Exactly when the levels below the first need no filter. -/
theorem lists_subkeys_iff {kvs : FilesystemKvs} {fs : Files} {m : Text → Option Text}
    (h : Holds kvs fs m) (dirs : fs.Listing) (key : Text) (nlevels : ℕ)
    (filter : Option (Text → Bool)) :
    (∃ keys, kvs.getSubkeys fs dirs nlevels filter key = .ret keys ∧
        ListsSubkeys m key nlevels filter keys) ↔
      FilteredOnce m key nlevels filter := by
  by_cases isKey : DirKey key
  · obtain ⟨keys, ret, nodup, mem⟩ := h.getSubkeys dirs isKey nlevels filter
    constructor
    · intro lists
      obtain ⟨keys', ret', lists⟩ := lists
      rw [ret] at ret'
      cases ret'
      -- what the code lists is wanted
      have wanted : ∀ {k rest}, Below m key rest k → rest.length ≤ max nlevels 1 →
          (∀ name ∈ rest.dropLast.take 1, passes filter name) →
            rest.length ≤ nlevels ∧ ∀ name ∈ rest.dropLast, passes filter name := by
        intro k rest below short passed
        obtain ⟨rest', below', fits⟩ := (lists.mem_iff k).mp ((mem k).mpr ⟨rest, below, short, passed⟩)
        cases below.unique below'
        exact fits
      refine ⟨isKey, ?_, ?_⟩
      · intro none k part below
        have fits := wanted below (by simp) (by simp)
        rw [none] at fits
        exact absurd fits.1 (by simp)
      · intro k first rest below short some passed name mem
        obtain ⟨second, more, eq⟩ := List.exists_cons_of_ne_nil some
        subst eq
        refine (wanted below ?_ (by simpa using passed)).2 name ?_
        · exact le_max_of_le_left short
        · rw [List.dropLast_cons_cons]
          exact List.mem_cons_of_mem _ mem
    · intro cond
      refine ⟨keys, ret, nodup, fun k => (mem k).trans (Below.exists_iff fun first more below => ?_)⟩
      constructor
      · intro listed
        cases more with
        | nil =>
            have some : nlevels ≠ 0 := fun none => cond.shallow none k first below
            exact ⟨Nat.one_le_iff_ne_zero.mpr some, by simp⟩
        | cons second more =>
            have short : (second :: more).length < nlevels := by
              have len := listed.1
              simp only [List.length_cons] at len ⊢
              omega
            have passed : passes filter first := listed.2 first (by simp)
            refine ⟨short, ?_⟩
            rw [List.dropLast_cons_cons, List.forall_mem_cons]
            exact ⟨passed, cond.deep k first _ below short (by simp) passed⟩
      · intro listed
        exact ⟨le_max_of_le_left listed.1, fun name mem => listed.2 name (List.mem_of_mem_take mem)⟩
  · constructor
    · intro lists
      obtain ⟨keys, ret, -⟩ := lists
      rw [getSubkeys_invalid dirs isKey] at ret
      cases ret
    · exact fun cond => absurd cond.isKey isKey

theorem lists_subkeys_iff_levels :
    (∃ keys, aOneB.getSubkeys aOneBFiles aOneBDirs 2 (some notAllDigits) [97] = .ret keys ∧
      ListsSubkeys aOneBMap [97] 2 (some notAllDigits) keys) ↔
      FilteredOnce aOneBMap [97] 2 (some notAllDigits) :=
  lists_subkeys_iff aOneB_holds aOneBDirs [97] 2 (some notAllDigits)

/-- The directory "1" below "a" is entered against the filter. -/
theorem filter_forgotten :
    ¬ ∃ keys, aOneB.getSubkeys aOneBFiles aOneBDirs 3 (some notAllDigits) [] = .ret keys ∧
      ListsSubkeys aOneBMap [] 3 (some notAllDigits) keys := by
  intro lists
  obtain ⟨keys, ret, lists⟩ := lists
  obtain ⟨keys', ret', -, mem⟩ := aOneB_holds.getSubkeys aOneBDirs (.inl rfl) 3 (some notAllDigits)
  rw [ret] at ret'
  cases ret'
  have below : Below aOneBMap [] [[97], [49], [98]] [97, 46, 49, 46, 98] := ⟨by decide, by decide, by simp⟩
  obtain ⟨rest, below', -, passed⟩ :=
    (lists.mem_iff _).mp ((mem _).mpr ⟨_, below, by decide, by decide⟩)
  cases below.unique below'
  exact absurd (passed [49] (by simp)) (by decide)

end FilesystemKvs
end Mio.Datastore
