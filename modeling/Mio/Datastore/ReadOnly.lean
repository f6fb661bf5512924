import Mio.Datastore.BinaryIO
import Mio.Datastore.IsAncestorOf
import Mio.Datastore.Readers
import Mio.Datastore.Subkeys
import Mathlib.Data.List.TakeWhile

/-! The reading operations of `Channel.cpp` and `gettile.cpp` over the files of the store, on the
machine's own doubles, and what they leave behind there. -/
namespace Mio.Datastore

namespace MachineIndex

def null : MachineIndex := ⟨0x80000000#32, 0#64⟩

def isAll (ti : MachineIndex) : Prop := ti.level = 0x7fffffff#32

instance (ti : MachineIndex) : Decidable ti.isAll := inferInstanceAs (Decidable (_ = _))

def largestDouble : Float := Float.ofBits 0x7fefffffffffffff

def duration (ti : MachineIndex) : Float := Float.pow 2 (Int32.ofBitVec ti.level).toFloat

def startTime (ti : MachineIndex) : Float :=
  if ti = null then largestDouble
  else if ti = negativeAll then -largestDouble
  else if ti = nonnegativeAll then 0
  else ti.duration * (Int64.ofBitVec ti.offset).toFloat

def endTime (ti : MachineIndex) : Float :=
  if ti = null then -largestDouble
  else if ti = negativeAll then 0
  else if ti = nonnegativeAll then largestDouble
  else ti.duration * (Int64.ofBitVec (ti.offset + 1)).toFloat

def containsTime (ti : MachineIndex) (time : Float) : Bool := ti.startTime ≤ time && time < ti.endTime

def parent (ti : MachineIndex) : MachineIndex :=
  if ti.isAll then null else ⟨ti.level + 1, ti.offset.sshiftRight 1⟩

def leftChild (ti : MachineIndex) : MachineIndex :=
  if ti.isAll then null else ⟨ti.level - 1, ti.offset * 2⟩

def rightChild (ti : MachineIndex) : MachineIndex :=
  if ti.isAll then null else ⟨ti.level - 1, ti.offset * 2 + 1⟩

/-- `is_ancestor_of`, where `wide` is what the machine makes of a shift by 64 or more. -/
def isAncestorOfBy (wide : BitVec 64 → ℕ → BitVec 64) (ti child : MachineIndex) : Bool :=
  let count := (ti.level - child.level).toNat
  child.level.slt ti.level &&
    ti.offset == if count < 64 then child.offset.sshiftRight count else wide child.offset count

/-- Where `is_ancestor_of` is defined, it does not matter what is made of the other shifts. -/
theorem isAncestorOfBy_eq (wide : BitVec 64 → ℕ → BitVec 64) {a b : MachineIndex} {ε : Type} {r : Bool}
    (ret : (a.isAncestorOf b : Outcome ε Bool) = .ret r) : a.isAncestorOfBy wide b = r := by
  rw [isAncestorOf] at ret
  split at ret
  · next above =>
      obtain ⟨difference, first, ret⟩ := Outcome.bind_eq_ret.mp ret
      obtain ⟨_, range, eq⟩ := Outcome.bind_eq_ret.mp first
      obtain ⟨shifted, shift, ret⟩ := Outcome.bind_eq_ret.mp ret
      obtain ⟨_, small, eq'⟩ := Outcome.bind_eq_ret.mp shift
      have range := Outcome.assert_eq_ret.mp range
      have small := Outcome.assert_eq_ret.mp small
      cases eq
      cases eq'
      cases ret
      have count : (a.level - b.level).toNat = (a.level.toInt - b.level.toInt).toNat := by
        have bounds := And.intro a.level.isLt b.level.isLt
        rw [BitVec.toInt_eq_toNat_cond, BitVec.toInt_eq_toNat_cond] at above ⊢
        rw [BitVec.toNat_sub]
        omega
      rw [isAncestorOfBy, count]
      simp only [BitVec.slt_eq_decide, decide_eq_true above, Bool.true_and, if_pos small]
  · next low =>
      cases ret
      rw [isAncestorOfBy]
      simp only [BitVec.slt_eq_decide, decide_eq_false low, Bool.false_and]

end MachineIndex

def DataSample.double {V : Type} (s : MachineSample V) : Float := Float.ofBits ⟨s.time⟩

/-- `ChannelInfo` as the machine holds it. -/
structure MachineInfo where
  magic : BitVec 32
  version : BitVec 32
  times : Range (BitVec 64)
  nonnegativeRootTileIndex : MachineIndex
  negativeRootTileIndex : MachineIndex

/-- Four bytes of padding follow each level. -/
def MachineInfo.ofMemory (bytes : List UInt8) : MachineInfo :=
  ⟨wordAt 32 4 0 bytes, wordAt 32 4 4 bytes, ⟨wordAt 64 8 8 bytes, wordAt 64 8 16 bytes⟩,
    ⟨wordAt 32 4 24 bytes, wordAt 64 8 32 bytes⟩, ⟨wordAt 32 4 40 bytes, wordAt 64 8 48 bytes⟩⟩

def printDecimal (n : ℤ) : Text :=
  (if n < 0 then [45] else []) ++ (Nat.toDigits 10 n.natAbs).map fun c => c.toNat.toUInt8

/-- `c_str` up to its end. -/
def cStr (text : Text) : Text := text.takeWhile (· ≠ 0)

def infoSuffix : Text := [dot, 105, 110, 102, 111]

def commentSuffix : Text := [dot, 95, 99, 111, 109, 109, 101, 110, 116]

def keyPrefix (ownerId : BitVec 32) (name : Text) : Text :=
  printDecimal ownerId.toInt ++ dot :: cStr name

def metainfoKey (ownerId : BitVec 32) (name : Text) : Text := keyPrefix ownerId name ++ infoSuffix

def tileKey (ownerId : BitVec 32) (name : Text) (ti : MachineIndex) : Text :=
  cStr (keyPrefix ownerId name) ++
    dot :: (printDecimal ti.level.toInt ++ dot :: printDecimal ti.offset.toInt)

inductive ReadError where
  | kvs (e : KvsError)
  | outOfRange

abbrev ReadM := Persist Files ReadError

/-- A `Channel` object. -/
structure ChannelRef where
  kvs : FilesystemKvs
  ownerId : BitVec 32
  name : Text

namespace ChannelRef

variable (ch : ChannelRef)

/-- `Locker`; unlocking changes no file. -/
def lock : ReadM Unit := (ch.kvs.lock (metainfoKey ch.ownerId ch.name)).mapThrow .kvs

/-- None for false; an empty record is none. -/
def checkInfo : Option Text → Outcome ReadError (Option MachineInfo)
  | none => return none
  | some infoStr =>
      if infoStr = [] then return none
      else do
        Outcome.assert (infoStr.length = 56) "info_str.length() == sizeof(ChannelInfo)"
        let info := MachineInfo.ofMemory infoStr
        Outcome.assert (info.magic = 0x68437442) "info.magic == ChannelInfo::MAGIC"
        return some info

def readInfo : ReadM (Option MachineInfo) := do
  let found ← (ch.kvs.get (metainfoKey ch.ownerId ch.name)).mapThrow .kvs
  Persist.lift (checkInfo found)

def tileExists (ti : MachineIndex) : ReadM Bool :=
  (ch.kvs.hasKey (tileKey ch.ownerId ch.name ti)).mapThrow .kvs

/-- Into a new tile. -/
def readTile (ti : MachineIndex) : ReadM (Option MachineTile) := do
  match ← (ch.kvs.get (tileKey ch.ownerId ch.name ti)).mapThrow .kvs with
  | none => return none
  | some binary => do
      let new : MachineTile := ⟨⟨Tile.magic, 0x00010000⟩, machineClear, [], []⟩
      let tile ← (Persist.lift (new.fromBinary binary)).mapThrow fun _ => .outOfRange
      return some tile

/-- `assert(read_tile(ti, tile))`. -/
def assertTile (ti : MachineIndex) : ReadM MachineTile := do
  match ← ch.readTile ti with
  | none => Persist.lift (.abort "read_tile(ti, tile)")
  | some tile => return tile

/-- The child a descent to `t` goes to. -/
def childTowards (ti : MachineIndex) (t : Float) : MachineIndex :=
  if t < ti.leftChild.endTime then ti.leftChild else ti.rightChild

def reader : Reader ReadM MachineIndex MachineTile where
  hasTile := ch.tileExists
  readTile := ch.assertTile
  assert p _ what := Persist.lift (Outcome.assert p what)
  timeout := Persist.lift .timeout

def findLowestChildOverlappingTime (fuel : ℕ) (ti : MachineIndex) (t : Float) : ReadM MachineIndex :=
  ch.reader.find (fun _ => true) (· = .null) (childTowards · t) fuel ti

/-- `first_tile` is never reset, so every tile is searched for `begin`. -/
def readDataLoop (root : MachineIndex) (begin_ end_ : Float) :
    ℕ → Float → List (MachineSample (BitVec 64)) → ReadM (List (MachineSample (BitVec 64))) :=
  ch.reader.readData (· < end_) (fun fuel time => ch.findLowestChildOverlappingTime fuel root time) (· = .null)
    (fun tile => (tile.doubleSamples.dropWhile (·.double < begin_)).takeWhile (·.double < end_)) MachineIndex.endTime

def readData (fuel : ℕ) (begin_ end_ : Float) : ReadM (List (MachineSample (BitVec 64))) := do
  ch.lock
  match ← ch.readInfo with
  | none => return []
  | some info => ch.readDataLoop info.nonnegativeRootTileIndex begin_ end_ fuel begin_ []

def descendTowards (ti : MachineIndex) : ℕ → MachineIndex → ReadM MachineIndex :=
  ch.reader.descend (· ≠ ti) (fun _ => false) (childTowards · ti.startTime)

/-- What follows once the root is known. -/
def closestAncestor (wide : BitVec 64 → ℕ → BitVec 64) (fuel : ℕ) (root ti : MachineIndex) :
    ReadM (Option (MachineIndex × MachineTile)) :=
  ch.reader.closest (fun a b => a.isAncestorOfBy wide b) (ch.descendTowards ti fuel) root ti

/-- None for false. -/
def readTileOrClosestAncestor (wide : BitVec 64 → ℕ → BitVec 64) (fuel : ℕ) (ti : MachineIndex) :
    ReadM (Option (MachineIndex × MachineTile)) := do
  ch.lock
  match ← ch.readInfo with
  | none => return none
  | some info => ch.closestAncestor wide fuel info.nonnegativeRootTileIndex ti

/-- "%*s%d.%d: %zd samples\n"; the offset, of 64 bits, is printed as an `int`. -/
def summaryLine (level : ℕ) (ti : MachineIndex) (samples : ℕ) : Text :=
  List.replicate level 32 ++ printDecimal ti.level.toInt ++
    dot :: (printDecimal (ti.offset.setWidth 32).toInt ++ [58, 32] ++ printDecimal samples ++
      [32, 115, 97, 109, 112, 108, 101, 115, 10])

def dumpTileSummariesInternal : ℕ → MachineIndex → ℕ → ReadM Text
  | 0, _, _ => Persist.lift .timeout
  | fuel + 1, ti, level => do
      match ← ch.readTile ti with
      | none => return []
      | some tile => do
          let left ← dumpTileSummariesInternal fuel ti.leftChild (level + 1)
          let right ← dumpTileSummariesInternal fuel ti.rightChild (level + 1)
          return summaryLine level ti tile.doubleSamples.length ++ left ++ right

def dumpTileSummaries (fuel : ℕ) : ReadM Text := do
  ch.lock
  match ← ch.readInfo with
  | none => return []
  | some info => ch.dumpTileSummariesInternal fuel info.nonnegativeRootTileIndex 0

/-- `read_tile_samples` of `gettile.cpp`, up to the binning, which looks at the samples alone. -/
def readTileSamples {V : Type} (samplesOf : MachineTile → List (MachineSample V))
    (wide : BitVec 64 → ℕ → BitVec 64) (fuel : ℕ) (requested client : MachineIndex) :
    ReadM (List (MachineSample V)) := do
  match ← ch.readTileOrClosestAncestor wide fuel requested with
  | none => return []
  | some (_, tile) => return (samplesOf tile).filter fun s => client.containsTime s.double

/-- What `gettile` reads, for the channel `ch`: its doubles, its strings and its comments. -/
def gettile (wide : BitVec 64 → ℕ → BitVec 64) (fuel : ℕ) (tileLevel : BitVec 32)
    (tileOffset : BitVec 64) : ReadM (List (MachineSample (BitVec 64)) ×
      List (MachineSample Text) × List (MachineSample Text)) := do
  let client : MachineIndex := ⟨tileLevel + 9, tileOffset⟩
  let requested := client.parent.parent.parent.parent.parent
  let comments : ChannelRef := { ch with name := ch.name ++ commentSuffix }
  let doubleSamples ← ch.readTileSamples Tile.doubleSamples wide fuel requested client
  let stringSamples ← ch.readTileSamples Tile.stringSamples wide fuel requested client
  let comments ← comments.readTileSamples Tile.stringSamples wide fuel requested client
  return (doubleSamples, stringSamples, comments)

end ChannelRef

/-- `filename_suffix(keys[i]) == "info"` -/
def isInfo (key : Text) : Bool := filenameSuffix key = infoSuffix.tail

/-- `1+strchr(name_with_uid.c_str(), '.')` -/
def behindDot (nameWithUid : Text) : Text := ((cStr nameWithUid).dropWhile (· ≠ dot)).tail

def subchannelName (key : Text) : Outcome KvsError Text := do
  let nameWithUid := filenameSansSuffix key
  Outcome.assert (dot ∈ cStr nameWithUid) "strchr(name_with_uid.c_str(), '.')"
  return behindDot nameWithUid

/-- What `get_subchannel_names` adds to `names`. -/
def getSubchannelNames (kvs : FilesystemKvs) (fs : Files) (dirs : fs.Listing) (ownerId : BitVec 32)
    (channelPrefix : Text) (nlevels : ℕ) : Outcome KvsError (List Text) := do
  let kvsPrefix := printDecimal ownerId.toInt ++ if channelPrefix ≠ [] then dot :: channelPrefix else []
  let keys ← kvs.getSubkeys fs dirs nlevels (some FilesystemKvs.notAllDigits) kvsPrefix
  (keys.filter isInfo).mapM subchannelName

namespace FilesystemKvs

variable (kvs : FilesystemKvs) (key : Text)

theorem get_still : Persist.Still (kvs.get key) := .bind (.lift _) fun _ => .look _

theorem hasKey_still : Persist.Still (kvs.hasKey key) := .bind (.lift _) fun _ => .look _

end FilesystemKvs

namespace ChannelRef

variable (ch : ChannelRef)

theorem readInfo_still : Persist.Still ch.readInfo :=
  .bind ((ch.kvs.get_still _).mapThrow _) fun _ => .lift _

theorem tileExists_still (ti : MachineIndex) : Persist.Still (ch.tileExists ti) :=
  (ch.kvs.hasKey_still _).mapThrow _

theorem readTile_still (ti : MachineIndex) : Persist.Still (ch.readTile ti) := by
  refine .bind ((ch.kvs.get_still _).mapThrow _) fun found => ?_
  cases found with
  | none => exact .pure none
  | some binary => exact .bind (.mapThrow (.lift _) _) fun _ => .pure _

theorem assertTile_still (ti : MachineIndex) : Persist.Still (ch.assertTile ti) := by
  refine .bind (ch.readTile_still ti) fun found => ?_
  cases found with
  | none => exact .lift _
  | some tile => exact .pure tile

/-- What the readers ask changes no file. -/
theorem related_still : ch.reader.Related (fun _ : Unit => ch.reader) (fun x _ => Persist.Still x) where
  pure := .pure
  bind first next := .bind first next
  hasTile := ch.tileExists_still
  readTile := ch.assertTile_still
  assert _ _ _ := .lift _
  timeout := .lift _

theorem readDataLoop_still (root : MachineIndex) (begin_ end_ : Float) (fuel : ℕ) (time : Float)
    (data : List (MachineSample (BitVec 64))) :
    Persist.Still (ch.readDataLoop root begin_ end_ fuel time data) :=
  ch.related_still.readData (fun _ fuel time => ch.findLowestChildOverlappingTime fuel root time)
    (fun fuel _ => ch.related_still.find _ _ _ fuel root) _ _ _ _ fuel time data

theorem closestAncestor_still (wide : BitVec 64 → ℕ → BitVec 64) (fuel : ℕ) (root ti : MachineIndex) :
    Persist.Still (ch.closestAncestor wide fuel root ti) :=
  ch.related_still.closest (fun _ => ch.descendTowards ti fuel)
    (fun root => ch.related_still.descend _ _ _ fuel root) _ root ti

theorem dumpTileSummariesInternal_still (fuel : ℕ) (ti : MachineIndex) (level : ℕ) :
    Persist.Still (ch.dumpTileSummariesInternal fuel ti level) := by
  induction fuel generalizing ti level with
  | zero => exact .lift _
  | succ fuel ih =>
      refine .bind (ch.readTile_still ti) fun found => ?_
      cases found with
      | none => exact .pure []
      | some tile => exact .bind (ih _ _) fun _ => .bind (ih _ _) fun _ => .pure _

theorem locked_still {α : Type} {none : α} {found : MachineInfo → ReadM α}
    (still : ∀ info, Persist.Still (found info)) (fs : Files) :
    ((do
      ch.lock
      match ← ch.readInfo with
      | .none => return none
      | .some info => found info : ReadM α) fs).2 = (ch.lock fs).2 := by
  refine Persist.Still.after _ (fun _ => .bind ch.readInfo_still fun answer => ?_) fs
  cases answer with
  | none => exact .pure none
  | some info => exact still info

theorem readData_files (fuel : ℕ) (begin_ end_ : Float) (fs : Files) :
    (ch.readData fuel begin_ end_ fs).2 = (ch.lock fs).2 :=
  ch.locked_still (fun _ => ch.readDataLoop_still _ _ _ _ _ _) fs

theorem readTileOrClosestAncestor_files (wide : BitVec 64 → ℕ → BitVec 64) (fuel : ℕ)
    (ti : MachineIndex) (fs : Files) :
    (ch.readTileOrClosestAncestor wide fuel ti fs).2 = (ch.lock fs).2 :=
  ch.locked_still (fun _ => ch.closestAncestor_still _ _ _ _) fs

theorem dumpTileSummaries_files (fuel : ℕ) (fs : Files) :
    (ch.dumpTileSummaries fuel fs).2 = (ch.lock fs).2 :=
  ch.locked_still (fun _ => ch.dumpTileSummariesInternal_still _ _ _) fs

theorem readTileSamples_files {V : Type} (samplesOf : MachineTile → List (MachineSample V))
    (wide : BitVec 64 → ℕ → BitVec 64) (fuel : ℕ) (requested client : MachineIndex) (fs : Files) :
    (ch.readTileSamples samplesOf wide fuel requested client fs).2 = (ch.lock fs).2 := by
  rw [← ch.readTileOrClosestAncestor_files wide fuel requested fs]
  refine Persist.Still.after _ (fun answer => ?_) fs
  cases answer with
  | none => exact .pure []
  | some found => exact .pure _

end ChannelRef

/-- Those of the given keys that had no value may have got an empty one. -/
def OnlyLocked (keys : List Text) (m m' : Text → Option Text) : Prop :=
  ∀ key, m' key = m key ∨ (key ∈ keys ∧ ValidKey key ∧ m key = none ∧ m' key = some [])

namespace OnlyLocked

variable {keys : List Text} {m m' m'' : Text → Option Text}

theorem refl (keys : List Text) (m : Text → Option Text) : OnlyLocked keys m m := fun _ => .inl rfl

theorem trans (h : OnlyLocked keys m m') (h' : OnlyLocked keys m' m'') : OnlyLocked keys m m'' := by
  intro key
  cases h' key with
  | inl same => exact same ▸ h key
  | inr made =>
      obtain ⟨mem, valid, before, after⟩ := made
      refine .inr ⟨mem, valid, ?_, after⟩
      cases h key with
      | inl same => exact same ▸ before
      | inr made' => exact made'.2.2.1

theorem keeps (h : OnlyLocked keys m m') {key : Text} (some : m key ≠ none) : m' key ≠ none := by
  cases h key with
  | inl same => exact same ▸ some
  | inr made => exact absurd made.2.2.1 some

theorem mem_of_new (h : OnlyLocked keys m m') {key : Text} (before : m key = none)
    (after : m' key ≠ none) : key ∈ keys := by
  cases h key with
  | inl same => exact absurd (same.trans before) after
  | inr made => exact made.1

end OnlyLocked

namespace FilesystemKvs

variable {kvs : FilesystemKvs} {fs fs' : Files} {m m' : Text → Option Text}

theorem Holds.lock_run (h : Holds kvs fs m) {key : Text} (valid : ValidKey key) :
    Holds kvs (kvs.lock key fs).2 (Function.update m key (some (opened false m key))) := by
  obtain ⟨fs', run, holds⟩ := h.openMaking false valid
  have locked : kvs.lock key fs = (.ret (), fs') := by
    rw [FilesystemKvs.lock, kvs.valueKeyToPath_valid valid]
    exact run
  rw [locked]
  exact holds

theorem Holds.lock (h : Holds kvs fs m) {keys : List Text} {key : Text} (mem : key ∈ keys) :
    ∃ m', Holds kvs (kvs.lock key fs).2 m' ∧ OnlyLocked keys m m' := by
  by_cases valid : ValidKey key
  · refine ⟨_, h.lock_run valid, fun key' => ?_⟩
    by_cases same : key' = key
    · subst same
      rw [Function.update_self, opened, if_neg (by decide)]
      cases before : m key' with
      | none => exact .inr ⟨mem, valid, rfl, rfl⟩
      | some value => exact .inl rfl
    · exact .inl (Function.update_of_ne same _ _)
  · have thrown : kvs.lock key fs = (.throw (.invalidKey key), fs) := by
      rw [FilesystemKvs.lock, kvs.valueKeyToPath_invalid valid]
      rfl
    rw [thrown]
    exact ⟨m, h, .refl keys m⟩

/-- The listing of a directory gains at most the given keys. -/
theorem Holds.getSubkeys_gains (h : Holds kvs fs m) (h' : Holds kvs fs' m') {locked : List Text}
    (only : OnlyLocked locked m m') (dirs : fs.Listing) (dirs' : fs'.Listing) {nlevels : ℕ}
    {filter : Option (Text → Bool)} {key : Text} {keys : List Text}
    (ret : kvs.getSubkeys fs dirs nlevels filter key = .ret keys) :
    ∃ keys' more, kvs.getSubkeys fs' dirs' nlevels filter key = .ret keys' ∧
      keys'.Perm (keys ++ more) ∧ ∀ k ∈ more, k ∈ locked := by
  by_cases isKey : DirKey key
  · obtain ⟨found, ret', nodup, mem⟩ := h.getSubkeys dirs isKey nlevels filter
    cases ret.symm.trans ret'
    obtain ⟨keys', after, nodup', mem'⟩ := h'.getSubkeys dirs' isKey nlevels filter
    have kept : ∀ k ∈ keys, k ∈ keys' := by
      intro k listed
      obtain ⟨rest, below, fits⟩ := (mem k).mp listed
      exact (mem' k).mpr ⟨rest, { below with stored := only.keeps below.stored }, fits⟩
    refine ⟨keys', keys'.filter fun k => ! decide (k ∈ keys), after, ?_, fun k new => ?_⟩
    · have same : (keys'.filter fun k => decide (k ∈ keys)).Perm keys := by
        refine (List.perm_ext_iff_of_nodup (nodup'.filter _) nodup).mpr fun k => ?_
        rw [List.mem_filter, decide_eq_true_iff]
        exact and_iff_right_of_imp (kept k)
      exact (List.filter_append_perm (fun k => decide (k ∈ keys)) keys').symm.trans (same.append_right _)
    · obtain ⟨listed, absent⟩ := List.mem_filter.mp new
      obtain ⟨rest, below, fits⟩ := (mem' k).mp listed
      refine only.mem_of_new ?_ below.stored
      by_contra stored
      have before := (mem k).mpr ⟨rest, { below with stored }, fits⟩
      simp [before] at absent
  · rw [getSubkeys_invalid dirs isKey] at ret
    cases ret

end FilesystemKvs

theorem printDecimal_plain {n : ℤ} {c : UInt8} (mem : c ∈ printDecimal n) : c ≠ 0 ∧ c ≠ dot := by
  cases List.mem_append.mp mem with
  | inl minus =>
      split at minus
      · rw [List.mem_singleton.mp minus]
        decide
      · cases minus
  | inr digit =>
      obtain ⟨d, mem, eq⟩ := List.mem_map.mp digit
      have isDigit : d.isDigit := Nat.isDigit_of_mem_toDigits (by decide) (by decide) mem
      have bounds := Char.isDigit_iff_toNat.mp isDigit
      have value : c.toNat = d.toNat := by
        rw [← eq, Nat.toUInt8, UInt8.toNat_ofNat', Nat.mod_eq_of_lt]
        have nine : '9'.toNat = 57 := by decide
        omega
      have zero : '0'.toNat = 48 := by decide
      constructor
      · intro same
        rw [same] at value
        have : (0 : UInt8).toNat = 0 := rfl
        omega
      · intro same
        rw [same] at value
        have : dot.toNat = 46 := rfl
        omega

theorem cStr_keyPrefix (ownerId : BitVec 32) (name : Text) :
    cStr (keyPrefix ownerId name) = keyPrefix ownerId name := by
  apply List.takeWhile_eq_self_iff.mpr
  intro c mem
  cases List.mem_append.mp mem with
  | inl digit => exact decide_eq_true (printDecimal_plain digit).1
  | inr rest =>
      cases rest with
      | head => decide
      | tail _ rest => exact List.mem_takeWhile_imp (l := name) rest

theorem suffix_metainfoKey (ownerId : BitVec 32) (name : Text) :
    filenameSuffix (metainfoKey ownerId name) = infoSuffix.tail ∧
      filenameSansSuffix (metainfoKey ownerId name) = keyPrefix ownerId name := by
  have cut : cutLast dot (metainfoKey ownerId name) = some (keyPrefix ownerId name, infoSuffix.tail) :=
    cutLast_append _ (by decide)
  rw [filenameSuffix, filenameSansSuffix, cut]
  exact ⟨if_neg (by decide), if_neg (by decide)⟩

theorem subchannelName_metainfoKey (ownerId : BitVec 32) (name : Text) :
    subchannelName (metainfoKey ownerId name) = .ret (cStr name) := by
  have front : (keyPrefix ownerId name).dropWhile (· ≠ dot) = dot :: cStr name := by
    rw [keyPrefix, List.dropWhile_append_of_pos fun c mem => decide_eq_true (printDecimal_plain mem).2]
    exact List.dropWhile_cons_of_neg (by simp)
  have inside : dot ∈ keyPrefix ownerId name := List.mem_append_right _ List.mem_cons_self
  rw [subchannelName, (suffix_metainfoKey ownerId name).2, behindDot, cStr_keyPrefix,
    Outcome.assert_of inside, front]
  rfl

/-- From one store to another: no key has been touched but the info keys of the named channels, and
those have at most got an empty value. So no channel has come to be, and a listing gains at most the
names. -/
structure OnlyLocks (kvs : FilesystemKvs) (ownerId : BitVec 32) (names : List Text)
    (m : Text → Option Text) (fs fs' : Files) : Prop where
  map : ∃ m', FilesystemKvs.Holds kvs fs' m' ∧ OnlyLocked (names.map (metainfoKey ownerId)) m m'
  info : ∀ owner name,
    ((⟨kvs, owner, name⟩ : ChannelRef).readInfo fs').1 = ((⟨kvs, owner, name⟩ : ChannelRef).readInfo fs).1
  listed : ∀ (dirs : fs.Listing) (dirs' : fs'.Listing) owner channelPrefix nlevels subchannels,
    getSubchannelNames kvs fs dirs owner channelPrefix nlevels = .ret subchannels →
      ∃ subchannels' more,
        getSubchannelNames kvs fs' dirs' owner channelPrefix nlevels = .ret subchannels' ∧
        subchannels'.Perm (subchannels ++ more) ∧ ∀ name ∈ more, name ∈ names.map cStr

section
variable {kvs : FilesystemKvs} {fs fs' : Files} {m m' : Text → Option Text} {ownerId : BitVec 32}
  {names : List Text}

open FilesystemKvs

theorem ChannelRef.readInfo_run (ch : ChannelRef) (h : Holds ch.kvs fs m)
    (valid : ValidKey (metainfoKey ch.ownerId ch.name)) :
    ch.readInfo fs = (checkInfo (m (metainfoKey ch.ownerId ch.name)), fs) := by
  apply Persist.bind_of_ret
  rw [Persist.mapThrow, h.get valid]

theorem ChannelRef.readInfo_invalid (ch : ChannelRef)
    (invalid : ¬ ValidKey (metainfoKey ch.ownerId ch.name)) (fs : Files) :
    ch.readInfo fs = (.throw (.kvs (.invalidKey (metainfoKey ch.ownerId ch.name))), fs) := by
  apply Persist.bind_of_throw
  rw [Persist.mapThrow, FilesystemKvs.get, ch.kvs.valueKeyToPath_invalid invalid]
  rfl

theorem OnlyLocked.info {keys : List Text} (only : OnlyLocked keys m m') (h : Holds kvs fs m)
    (h' : Holds kvs fs' m') (owner : BitVec 32) (name : Text) :
    ((⟨kvs, owner, name⟩ : ChannelRef).readInfo fs').1 =
      ((⟨kvs, owner, name⟩ : ChannelRef).readInfo fs).1 := by
  by_cases valid : ValidKey (metainfoKey owner name)
  · rw [ChannelRef.readInfo_run ⟨kvs, owner, name⟩ h' valid,
      ChannelRef.readInfo_run ⟨kvs, owner, name⟩ h valid]
    dsimp only
    cases only (metainfoKey owner name) with
    | inl same => rw [same]
    | inr made =>
        obtain ⟨-, -, before, after⟩ := made
        rw [before, after]
        rfl
  · rw [ChannelRef.readInfo_invalid ⟨kvs, owner, name⟩ valid,
      ChannelRef.readInfo_invalid ⟨kvs, owner, name⟩ valid]

theorem behindDot_of_ret {key name : Text} (ret : subchannelName key = .ret name) :
    subchannelName key = .ret (behindDot (filenameSansSuffix key)) := by
  obtain ⟨_, -, eq⟩ := Outcome.bind_eq_ret.mp ret
  cases eq
  exact ret

theorem OnlyLocked.listed (only : OnlyLocked (names.map (metainfoKey ownerId)) m m')
    (h : Holds kvs fs m) (h' : Holds kvs fs' m') (dirs : fs.Listing) (dirs' : fs'.Listing)
    (owner : BitVec 32) (channelPrefix : Text) (nlevels : ℕ) {subchannels : List Text}
    (ret : getSubchannelNames kvs fs dirs owner channelPrefix nlevels = .ret subchannels) :
    ∃ subchannels' more,
      getSubchannelNames kvs fs' dirs' owner channelPrefix nlevels = .ret subchannels' ∧
      subchannels'.Perm (subchannels ++ more) ∧ ∀ name ∈ more, name ∈ names.map cStr := by
  obtain ⟨keys, before, ret⟩ := Outcome.bind_eq_ret.mp ret
  obtain ⟨keys', new, after, perm, known⟩ := h.getSubkeys_gains h' only dirs dirs' before
  have isName : ∀ k ∈ new, ∃ name ∈ names, subchannelName k = .ret (cStr name) := by
    intro k mem
    obtain ⟨name, among, eq⟩ := List.mem_map.mp (known k mem)
    exact ⟨name, among, eq ▸ subchannelName_metainfoKey ownerId name⟩
  have old := fun k mem => behindDot_of_ret (Outcome.ret_of_mapM ret k mem).choose_spec
  have shown := perm.filter isInfo
  rw [List.filter_append] at shown
  have all : ∀ k ∈ keys'.filter isInfo,
      subchannelName k = .ret (behindDot (filenameSansSuffix k)) := by
    intro k mem
    cases List.mem_append.mp (shown.mem_iff.mp mem) with
    | inl mem => exact old k mem
    | inr mem =>
        obtain ⟨name, -, eq⟩ := isName k (List.mem_of_mem_filter mem)
        exact behindDot_of_ret eq
  rw [Outcome.mapM_of_ret old] at ret
  cases ret
  refine ⟨(keys'.filter isInfo).map fun k => behindDot (filenameSansSuffix k),
    (new.filter isInfo).map fun k => behindDot (filenameSansSuffix k), ?_, ?_, ?_⟩
  · rw [getSubchannelNames, Outcome.bind_of_ret after, Outcome.mapM_of_ret all]
  · rw [← List.map_append]
    exact shown.map _
  · intro shownName mem
    obtain ⟨k, mem, eq⟩ := List.mem_map.mp mem
    obtain ⟨name, among, ret⟩ := isName k (List.mem_of_mem_filter mem)
    have same := Outcome.ret.inj (ret.symm.trans (behindDot_of_ret ret))
    exact List.mem_map.mpr ⟨name, among, same.trans eq⟩

/-- From one store to another at most the given keys have been locked. -/
def Locking (kvs : FilesystemKvs) (keys : List Text) (fs fs' : Files) : Prop :=
  ∀ m, Holds kvs fs m → ∃ m', Holds kvs fs' m' ∧ OnlyLocked keys m m'

theorem Locking.refl (kvs : FilesystemKvs) (keys : List Text) (fs : Files) : Locking kvs keys fs fs :=
  fun m h => ⟨m, h, .refl keys m⟩

theorem Locking.trans {keys : List Text} {fs'' : Files} (first : Locking kvs keys fs fs')
    (next : Locking kvs keys fs' fs'') : Locking kvs keys fs fs'' := by
  intro m h
  obtain ⟨m', h', only⟩ := first m h
  obtain ⟨m'', h'', only'⟩ := next m' h'
  exact ⟨m'', h'', only.trans only'⟩

theorem Locking.onlyLocks (locking : Locking kvs (names.map (metainfoKey ownerId)) fs fs')
    (h : Holds kvs fs m) : OnlyLocks kvs ownerId names m fs fs' := by
  obtain ⟨m', h', only⟩ := locking m h
  exact ⟨⟨m', h', only⟩, only.info h h', fun dirs dirs' => only.listed h h' dirs dirs'⟩

end

namespace ChannelRef

variable (ch : ChannelRef)

theorem lock_moves {keys : List Text} (mem : metainfoKey ch.ownerId ch.name ∈ keys) :
    Persist.Moves (Locking ch.kvs keys) ch.lock := by
  refine Persist.Moves.mapThrow ?_ _
  intro fs m h
  exact h.lock mem

theorem readTileSamples_moves {V : Type} (samplesOf : MachineTile → List (MachineSample V))
    (wide : BitVec 64 → ℕ → BitVec 64) (fuel : ℕ) (requested client : MachineIndex) {keys : List Text}
    (mem : metainfoKey ch.ownerId ch.name ∈ keys) :
    Persist.Moves (Locking ch.kvs keys) (ch.readTileSamples samplesOf wide fuel requested client) := by
  intro fs
  rw [readTileSamples_files]
  exact ch.lock_moves mem fs

theorem gettile_moves (wide : BitVec 64 → ℕ → BitVec 64) (fuel : ℕ) (tileLevel : BitVec 32)
    (tileOffset : BitVec 64) :
    Persist.Moves (Locking ch.kvs ([ch.name, ch.name ++ commentSuffix].map (metainfoKey ch.ownerId)))
      (ch.gettile wide fuel tileLevel tileOffset) := by
  refine .bind .trans (ch.readTileSamples_moves _ _ _ _ _ (by simp)) fun _ => ?_
  refine .bind .trans (ch.readTileSamples_moves _ _ _ _ _ (by simp)) fun _ => ?_
  refine .bind .trans (readTileSamples_moves { ch with name := ch.name ++ commentSuffix } _ _ _ _ _ ?_)
    fun _ => ?_
  · simp
  · exact Locking.refl _ _

end ChannelRef

/-- However they end, and whether or not there is such a channel. -/
theorem reads_only_lock {ch : ChannelRef} {fs : Files} {m : Text → Option Text} (h : ch.kvs.Holds fs m)
    (fuel : ℕ) (wide : BitVec 64 → ℕ → BitVec 64) :
    (∀ begin_ end_, OnlyLocks ch.kvs ch.ownerId [ch.name] m fs (ch.readData fuel begin_ end_ fs).2) ∧
    (∀ ti, OnlyLocks ch.kvs ch.ownerId [ch.name] m fs
      (ch.readTileOrClosestAncestor wide fuel ti fs).2) ∧
    (∀ tileLevel tileOffset,
      OnlyLocks ch.kvs ch.ownerId [ch.name, ch.name ++ commentSuffix] m fs
        (ch.gettile wide fuel tileLevel tileOffset fs).2) ∧
    OnlyLocks ch.kvs ch.ownerId [ch.name] m fs (ch.dumpTileSummaries fuel fs).2 := by
  have locked : OnlyLocks ch.kvs ch.ownerId [ch.name] m fs (ch.lock fs).2 :=
    Locking.onlyLocks (ch.lock_moves (List.mem_singleton_self _) fs) h
  refine ⟨?_, ?_, ?_, ?_⟩
  · intro begin_ end_
    rw [ch.readData_files]
    exact locked
  · intro ti
    rw [ch.readTileOrClosestAncestor_files]
    exact locked
  · intro tileLevel tileOffset
    exact Locking.onlyLocks (ch.gettile_moves wide fuel tileLevel tileOffset fs) h
  · rw [ch.dumpTileSummaries_files]
    exact locked

/-- A tile of the channel "b" of user 1, of whom the store has nothing. -/
theorem reads_only_lock_absent :
    OnlyLocks FilesystemKvs.aOneB 1 [[98], [98] ++ commentSuffix] FilesystemKvs.aOneBMap
      FilesystemKvs.aOneBFiles
      ((⟨FilesystemKvs.aOneB, 1, [98]⟩ : ChannelRef).gettile (fun _ _ => 0) 3 5 7
        FilesystemKvs.aOneBFiles).2 :=
  (@reads_only_lock ⟨FilesystemKvs.aOneB, 1, [98]⟩ _ _ FilesystemKvs.aOneB_holds 3 fun _ _ => 0).2.2.1 5 7

/-- Reading the channel gives the key "1.b.info" a value. -/
theorem key_made_by_reading :
    (FilesystemKvs.aOneB.hasKey (metainfoKey 1 [98]) FilesystemKvs.aOneBFiles).1 = .ret false ∧
      (FilesystemKvs.aOneB.hasKey (metainfoKey 1 [98])
        ((⟨FilesystemKvs.aOneB, 1, [98]⟩ : ChannelRef).readData 3 0 1 FilesystemKvs.aOneBFiles).2).1 =
          .ret true := by
  have valid : ValidKey (metainfoKey 1 [98]) := by decide
  constructor
  · have before : FilesystemKvs.aOneBMap (metainfoKey 1 [98]) = none := by decide
    rw [FilesystemKvs.aOneB_holds.hasKey valid, before]
    rfl
  · rw [ChannelRef.readData_files, ChannelRef.lock, Persist.mapThrow_snd,
      (FilesystemKvs.aOneB_holds.lock_run valid).hasKey valid, Function.update_self]
    rfl

end Mio.Datastore
