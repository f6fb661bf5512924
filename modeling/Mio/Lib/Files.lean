import Mathlib.Data.List.Nodup
import Mathlib.Logic.Function.Basic
import Mathlib.Tactic.Common

/-! Files and directories, each under the one path by which it is asked for: no links, no dots and no
doubled slashes. What is left out is what the disk may refuse. -/
namespace Mio

abbrev Path := List UInt8

def slash : UInt8 := 47

inductive Entry where
  | file (content : List UInt8)
  | directory

abbrev Files := Path → Option Entry

/-- As far as the callers tell them apart. -/
inductive Errno where
  | noEntry
  | alreadyExists
  | notDirectory
  | isDirectory

/-- What lies before the last separator, and behind it. -/
def cutLast (sep : UInt8) : Path → Option (Path × Path)
  | [] => none
  | c :: path =>
      match cutLast sep path with
      | some (front, name) => some (c :: front, name)
      | none => if c = sep then some ([], path) else none

section
variable {sep : UInt8}

theorem cutLast_none {name : Path} (plain : sep ∉ name) : cutLast sep name = none := by
  induction name with
  | nil => rfl
  | cons c name ih =>
      obtain ⟨first, rest⟩ := not_or.mp fun h => plain (List.mem_cons.mpr h)
      rw [cutLast, ih rest]
      exact if_neg (Ne.symm first)

theorem not_mem_of_cutLast {name : Path} (none : cutLast sep name = none) : sep ∉ name := by
  induction name with
  | nil => simp
  | cons c name ih =>
      rw [cutLast] at none
      split at none
      · cases none
      · next rest =>
          split at none
          · cases none
          · next differs => exact List.not_mem_cons_of_ne_of_not_mem (Ne.symm differs) (ih rest)

theorem cutLast_append (front : Path) {name : Path} (plain : sep ∉ name) :
    cutLast sep (front ++ sep :: name) = some (front, name) := by
  induction front with
  | nil =>
      rw [List.nil_append, cutLast, cutLast_none plain]
      exact if_pos rfl
  | cons c front ih =>
      rw [List.cons_append, cutLast, ih]

theorem cutLast_length {path front name : Path} (cut : cutLast sep path = some (front, name)) :
    front.length < path.length := by
  induction path generalizing front with
  | nil => cases cut
  | cons c path ih =>
      rw [cutLast] at cut
      split at cut
      · next found =>
          cases cut
          exact Nat.succ_lt_succ (ih found)
      · split at cut
        · cases cut
          exact Nat.succ_pos _
        · cases cut

theorem eq_of_cutLast {path front name : Path} (cut : cutLast sep path = some (front, name)) :
    sep ∉ name ∧ path = front ++ sep :: name := by
  induction path generalizing front with
  | nil => cases cut
  | cons c path ih =>
      rw [cutLast] at cut
      split at cut
      · next found =>
          cases cut
          exact ⟨(ih found).1, congrArg (c :: ·) (ih found).2⟩
      · next rest =>
          split at cut
          · next same =>
              cases cut
              exact ⟨not_mem_of_cutLast rest, same ▸ rfl⟩
          · cases cut

/-- The last part of a path can be read off. -/
theorem append_sep_inj {front front' name name' : Path} (plain : sep ∉ name) (plain' : sep ∉ name') :
    front ++ sep :: name = front' ++ sep :: name' ↔ front = front' ∧ name = name' := by
  constructor
  · intro same
    have cut := cutLast_append front plain
    rw [same, cutLast_append front' plain'] at cut
    cases cut
    exact ⟨rfl, rfl⟩
  · intro both
    rw [both.1, both.2]

end

namespace Files

/-- The directory in which something is to be made. -/
def enter (fs : Files) (path : Path) : Except Errno Unit :=
  match cutLast slash path with
  | none => .ok ()
  | some (front, _) =>
      match fs front with
      | some .directory => .ok ()
      | some (.file _) => .error .notDirectory
      | none => .error .noEntry

def mkdir (fs : Files) (path : Path) : Except Errno Files :=
  match fs path with
  | some _ => .error .alreadyExists
  | none => do
      fs.enter path
      return Function.update fs path (some .directory)

/-- `fopen(path, "wb")`, or `fopen(path, "ab")`, which keeps what the file holds. -/
def fopen (fs : Files) (truncate : Bool) (path : Path) : Except Errno Files :=
  match fs path with
  | some .directory => .error .isDirectory
  | some (.file content) =>
      .ok (Function.update fs path (some (.file (if truncate then [] else content))))
  | none => do
      fs.enter path
      return Function.update fs path (some (.file []))

/-- Fills the file that has just been opened for writing. -/
def fwrite (fs : Files) (path : Path) (content : List UInt8) : Files :=
  Function.update fs path (some (.file content))

def unlink (fs : Files) (path : Path) : Option Files :=
  match fs path with
  | some (.file _) => some (Function.update fs path none)
  | _ => none

def stat (fs : Files) (path : Path) : Bool := (fs path).isSome

/-- What `readdir` gives of each directory, without the two entries of dots, in whatever order. -/
structure Listing (fs : Files) where
  names : Path → List Path
  nodup : ∀ dir, (names dir).Nodup
  mem_iff : ∀ dir name, name ∈ names dir ↔
    name ≠ [] ∧ slash ∉ name ∧ (fs (dir ++ slash :: name)).isSome

section
variable {fs : Files}

def nameIn (dir path : Path) : Option Path :=
  match cutLast slash path with
  | some (front, name) => if front = dir ∧ name ≠ [] then some name else none
  | none => none

theorem nameIn_eq_some {dir path name : Path} :
    nameIn dir path = some name ↔ name ≠ [] ∧ slash ∉ name ∧ path = dir ++ slash :: name := by
  constructor
  · intro found
    rw [nameIn] at found
    split at found
    · next cut =>
        split at found
        · next here =>
            cases found
            obtain ⟨plain, eq⟩ := eq_of_cutLast cut
            exact ⟨here.2, plain, here.1 ▸ eq⟩
        · cases found
    · cases found
  · intro path
    rw [nameIn, path.2.2, cutLast_append dir path.2.1]
    exact if_pos ⟨rfl, path.1⟩

/-- The directories of a disk with finitely many entries. -/
def Listing.ofPaths (paths : List Path) (nodup : paths.Nodup)
    (entries : ∀ path, (fs path).isSome ↔ path ∈ paths) : Listing fs where
  names dir := paths.filterMap (nameIn dir)
  nodup dir := by
    refine nodup.filterMap ?_
    intro path path' name found found'
    rw [(nameIn_eq_some.mp found).2.2, (nameIn_eq_some.mp found').2.2]
  mem_iff dir name := by
    simp only [List.mem_filterMap, nameIn_eq_some, entries]
    constructor
    · intro found
      obtain ⟨path, mem, some, plain, eq⟩ := found
      exact ⟨some, plain, eq ▸ mem⟩
    · intro found
      exact ⟨_, found.2.2, found.1, found.2.1, rfl⟩

end

section
variable {fs : Files} {front name : Path}

theorem enter_ok (plain : slash ∉ name) (inside : fs front = some .directory) :
    fs.enter (front ++ slash :: name) = .ok () := by
  rw [enter, cutLast_append front plain]
  simp only [inside]

theorem enter_missing (plain : slash ∉ name) (missing : fs front = none) :
    fs.enter (front ++ slash :: name) = .error .noEntry := by
  rw [enter, cutLast_append front plain]
  simp only [missing]

theorem mkdir_present {path : Path} {e : Entry} (present : fs path = some e) :
    fs.mkdir path = .error .alreadyExists := by
  rw [mkdir, present]

theorem mkdir_ok (plain : slash ∉ name) (absent : fs (front ++ slash :: name) = none)
    (inside : fs front = some .directory) :
    fs.mkdir (front ++ slash :: name) =
      .ok (Function.update fs (front ++ slash :: name) (some .directory)) := by
  rw [mkdir, absent, enter_ok plain inside]
  rfl

theorem mkdir_missing (plain : slash ∉ name) (absent : fs (front ++ slash :: name) = none)
    (missing : fs front = none) : fs.mkdir (front ++ slash :: name) = .error .noEntry := by
  rw [mkdir, absent, enter_missing plain missing]
  rfl

theorem fopen_file {path : Path} {content : List UInt8} (present : fs path = some (.file content))
    (truncate : Bool) : fs.fopen truncate path =
      .ok (Function.update fs path (some (.file (if truncate then [] else content)))) := by
  rw [fopen, present]

theorem fopen_new (plain : slash ∉ name) (absent : fs (front ++ slash :: name) = none)
    (inside : fs front = some .directory) (truncate : Bool) :
    fs.fopen truncate (front ++ slash :: name) =
      .ok (Function.update fs (front ++ slash :: name) (some (.file []))) := by
  rw [fopen, absent, enter_ok plain inside]
  rfl

theorem fopen_missing (plain : slash ∉ name) (absent : fs (front ++ slash :: name) = none)
    (missing : fs front = none) (truncate : Bool) :
    fs.fopen truncate (front ++ slash :: name) = .error .noEntry := by
  rw [fopen, absent, enter_missing plain missing]
  rfl

end

end Files
end Mio
