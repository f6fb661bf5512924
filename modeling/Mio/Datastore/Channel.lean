import Mio.Datastore.Readers
import Mio.Datastore.Tile

/-! `Channel.h` and `Channel.cpp` over the part of the key-value store that belongs to one
channel. Tiles are stored as values; their byte format is the subject of the codec. -/
namespace Mio.Datastore

structure ChannelInfo where
  magic : ℕ
  version : ℕ
  times : Range ℚ
  nonnegativeRootTileIndex : TileIndex
  negativeRootTileIndex : TileIndex

def ChannelInfo.magicNumber : ℕ := 0x68437442

def ChannelInfo.size : ℕ := 56

/-- The keys of one channel. The value of the info key is `some none` while it is the empty file
that locking creates. -/
structure Kvs where
  metainfo : Option (Option ChannelInfo)
  tiles : TileIndex → Option ExactTile

inductive Key where
  | metainfo
  | tile (ti : TileIndex)
  deriving DecidableEq

/-- What goes wrong in `FilesystemKVS::set`: `fopen` fails and the old value stays, or nothing can be
written after `fopen` has already cut the file down. -/
inductive Fault where
  | cannotOpen
  | cannotWrite

/-- An exception that leaves the channel, with the store it leaves behind. The file of a `torn` key
exists without a usable value. -/
structure Failure where
  what : String
  left : Kvs
  torn : Option Key

/-- A channel object and its surroundings. `setFault` decides in each state of the store whether
something goes wrong when a key is set, `streamBuffer` is the size of the buffer that the stream of a
file has, and `wideShift` is the machine's result of an out-of-range shift. -/
structure Channel where
  maxTileSize : ℕ := channelMaxTileSize
  wideShift : ℤ → ℤ → ℤ := fun _ _ => 0
  setFault : Kvs → Key → Option Fault := fun _ _ => none
  streamBuffer : ℕ := 4096

abbrev ChannelM := Exec Kvs Failure

namespace Kvs

def absent : Kvs := ⟨none, fun _ => none⟩

def hasTile (kvs : Kvs) (ti : TileIndex) : Bool := (kvs.tiles ti).isSome

def readInfo (kvs : Kvs) : Outcome Failure (Option ChannelInfo) :=
  match kvs.metainfo with
  | some (some info) => do
      Outcome.assert (info.magic = ChannelInfo.magicNumber) "info.magic == ChannelInfo::MAGIC"
      return some info
  | _ => return none

/-- `assert(read_tile(ti, tile))`. -/
def readTile (kvs : Kvs) (ti : TileIndex) : Outcome Failure ExactTile :=
  match kvs.tiles ti with
  | some tile => .ret tile
  | none => .abort "read_tile(ti, tile)"

/-- The child a descent to `t` goes to. -/
def childTowards (ti : TileIndex) (t : ℚ) : TileIndex :=
  if t < ti.leftChild.endTime then ti.leftChild else ti.rightChild

def reader (kvs : Kvs) : Reader (Outcome Failure) TileIndex ExactTile where
  hasTile ti := .ret (kvs.hasTile ti)
  readTile := kvs.readTile
  assert p _ what := Outcome.assert p what
  timeout := .timeout

def descendLowest (kvs : Kvs) (t : ℚ) : ℕ → TileIndex → Outcome Failure TileIndex :=
  kvs.reader.descend (fun _ => true) (·.isNull) (childTowards · t)

def findLowestChildOverlappingTime (kvs : Kvs) (fuel : ℕ) (ti : TileIndex) (t : ℚ) :
    Outcome Failure TileIndex :=
  kvs.reader.find (fun _ => true) (·.isNull) (childTowards · t) fuel ti

def descendToLevel (kvs : Kvs) (t : ℚ) (desiredLevel : ℤ) : ℕ → TileIndex → Outcome Failure TileIndex :=
  kvs.reader.descend (fun ti => desiredLevel < ti.level) (·.isNull) (childTowards · t)

def findChildOverlappingTime (kvs : Kvs) (fuel : ℕ) (ti : TileIndex) (t : ℚ) (desiredLevel : ℤ) :
    Outcome Failure TileIndex :=
  kvs.reader.find (fun ti => desiredLevel < ti.level) (·.isNull) (childTowards · t) fuel ti

/-- Moves upwards until the parent has a different end time; null once the root's level is
reached. -/
def climbToLeftChild {ε : Type} (root : TileIndex) : ℕ → TileIndex → Outcome ε TileIndex
  | 0, _ => .timeout
  | fuel + 1, ti =>
      if ti.parent.isNull then .ret .null
      else if ti.parent.endTime ≠ ti.endTime then .ret ti
      else if root.level ≤ ti.parent.level then .ret .null
      else climbToLeftChild root fuel ti.parent

def findSuccessiveTile (kvs : Kvs) (fuel : ℕ) (root ti : TileIndex) (desiredLevel : ℤ) :
    Outcome Failure TileIndex := do
  let ti ← climbToLeftChild root fuel ti
  if ti.isNull then return .null
  else kvs.findChildOverlappingTime fuel ti.sibling ti.sibling.startTime desiredLevel

/-- How the loop of `read_tiles_in_range` finds its next tile; the one visited last is null before the first. -/
def nextTile (kvs : Kvs) (root : TileIndex) (times : Range ℚ) (desiredLevel : ℤ) (fuel : ℕ) (ti : TileIndex) :
    Outcome Failure TileIndex :=
  if ti.isNull then kvs.findChildOverlappingTime fuel root times.min desiredLevel
  else kvs.findSuccessiveTile fuel root ti desiredLevel

def readTilesLoop (kvs : Kvs) (root : TileIndex) (times : Range ℚ) (desiredLevel : ℤ)
    (callback : List (TileIndex × ExactTile) → Bool) :
    ℕ → TileIndex → List (TileIndex × ExactTile) → Outcome Failure (List (TileIndex × ExactTile)) :=
  kvs.reader.readTiles (kvs.nextTile root times desiredLevel) (fun ti => ti.isNull ∨ ti.startTime ≥ times.max)
    callback

def readTilesInRange (kvs : Kvs) (fuel : ℕ) (times : Range ℚ)
    (callback : List (TileIndex × ExactTile) → Bool) (desiredLevel : ℤ) :
    Outcome Failure (List (TileIndex × ExactTile)) := do
  match ← kvs.readInfo with
  | none => return []
  | some info =>
      if ¬ info.times.intersects times then return []
      -- the loop guard `time < times.max` never changes
      else if times.min < times.max then
        kvs.readTilesLoop info.nonnegativeRootTileIndex times desiredLevel callback fuel .null []
      else return []

/-- What `read_data` takes from a tile; `first_tile` is never reset, so every tile is searched for `begin`. -/
def wanted (begin_ end_ : ℚ) (tile : ExactTile) : List (Sample ℚ) :=
  (tile.doubleSamples.dropWhile (·.time < begin_)).takeWhile (·.time < end_)

def readDataLoop (kvs : Kvs) (root : TileIndex) (begin_ end_ : ℚ) :
    ℕ → ℚ → List (Sample ℚ) → Outcome Failure (List (Sample ℚ)) :=
  kvs.reader.readData (· < end_) (fun fuel time => kvs.findLowestChildOverlappingTime fuel root time) (·.isNull)
    (wanted begin_ end_) TileIndex.endTime

section
variable (kvs : Kvs) (fuel : ℕ) (ti root : TileIndex)

theorem descendLowest_succ (t : ℚ) : kvs.descendLowest t (fuel + 1) ti =
    if (childTowards ti t).isNull ∨ ¬ kvs.hasTile (childTowards ti t) then .ret ti
    else kvs.descendLowest t fuel (childTowards ti t) := by
  rw [descendLowest, Reader.descend_succ fun _ => rfl, if_pos rfl]
  simp only [decide_eq_true_eq]

theorem findLowest_eq (t : ℚ) : kvs.findLowestChildOverlappingTime fuel ti t =
    Outcome.assert (¬ ti.isNull) "!ti.is_null()" >>= fun _ => kvs.descendLowest t fuel ti := by
  rw [findLowestChildOverlappingTime, Reader.find]
  simp only [decide_eq_true_eq]
  rfl

theorem descendToLevel_succ (t : ℚ) (desiredLevel : ℤ) : kvs.descendToLevel t desiredLevel (fuel + 1) ti =
    if desiredLevel < ti.level then
      if (childTowards ti t).isNull ∨ ¬ kvs.hasTile (childTowards ti t) then .ret ti
      else kvs.descendToLevel t desiredLevel fuel (childTowards ti t)
    else .ret ti := by
  rw [descendToLevel, Reader.descend_succ fun _ => rfl]
  simp only [decide_eq_true_eq]

theorem findChild_eq (t : ℚ) (desiredLevel : ℤ) : kvs.findChildOverlappingTime fuel ti t desiredLevel =
    Outcome.assert (¬ ti.isNull) "!ti.is_null()" >>= fun _ => kvs.descendToLevel t desiredLevel fuel ti := by
  rw [findChildOverlappingTime, Reader.find]
  simp only [decide_eq_true_eq]
  rfl

theorem readTiles_succ (next : ℕ → TileIndex → Outcome Failure TileIndex) (times : Range ℚ)
    (callback : List (TileIndex × ExactTile) → Bool) (handed : List (TileIndex × ExactTile)) :
    kvs.reader.readTiles next (fun ti => ti.isNull ∨ ti.startTime ≥ times.max) callback (fuel + 1) ti handed =
      next fuel ti >>= fun ti =>
        if ti.isNull ∨ ti.startTime ≥ times.max then return handed
        else kvs.readTile ti >>= fun tile =>
          if callback (handed ++ [(ti, tile)])
            then kvs.reader.readTiles next (fun ti => ti.isNull ∨ ti.startTime ≥ times.max) callback fuel ti
              (handed ++ [(ti, tile)])
            else return handed ++ [(ti, tile)] := by
  rw [Reader.readTiles]
  simp only [decide_eq_true_eq]
  rfl

theorem readTilesLoop_succ (times : Range ℚ) (desiredLevel : ℤ) (callback : List (TileIndex × ExactTile) → Bool)
    (handed : List (TileIndex × ExactTile)) :
    kvs.readTilesLoop root times desiredLevel callback (fuel + 1) ti handed =
      kvs.nextTile root times desiredLevel fuel ti >>= fun next =>
        if next.isNull ∨ next.startTime ≥ times.max then return handed
        else kvs.readTile next >>= fun tile =>
          if callback (handed ++ [(next, tile)])
            then kvs.readTilesLoop root times desiredLevel callback fuel next (handed ++ [(next, tile)])
            else return handed ++ [(next, tile)] :=
  kvs.readTiles_succ fuel ti _ times callback handed

theorem readDataLoop_succ (begin_ end_ time : ℚ) (data : List (Sample ℚ)) :
    kvs.readDataLoop root begin_ end_ (fuel + 1) time data =
      if time < end_ then do
        let ti ← kvs.findLowestChildOverlappingTime fuel root time
        if ti.isNull then return data
        else do
          let tile ← kvs.readTile ti
          kvs.readDataLoop root begin_ end_ fuel ti.endTime (data ++ wanted begin_ end_ tile)
      else return data := by
  rw [readDataLoop, Reader.readData]
  simp only [decide_eq_true_eq]
  rfl

end

end Kvs

namespace Channel

variable (ch : Channel)

/-- Taking the lock creates the info key when it is missing. -/
def lock : ChannelM Unit :=
  Exec.modify fun kvs => { kvs with metainfo := some (kvs.metainfo.getD none) }

/-- `KVS::set` of a value with so many bytes. A value below the size of the stream's buffer stays in the
buffer: `fwrite` succeeds, and `fclose`, which then fails to write it, is not asked. So the store has the
values as they were handed over; which of them never reached the disk is said beside it. -/
def set (key : Key) (length : ℕ) (write : Kvs → Kvs) : ChannelM Unit := fun kvs =>
  match ch.setFault kvs key with
  | none => .ret ((), write kvs)
  | some .cannotOpen => .throw ⟨"fopen", kvs, none⟩
  | some .cannotWrite =>
      if ch.streamBuffer ≤ length then .throw ⟨"fwrite", kvs, some key⟩ else .ret ((), write kvs)

def writeInfo (info : ChannelInfo) : ChannelM Unit := do
  Exec.assert (¬ info.nonnegativeRootTileIndex.isNull) "!info.nonnegative_root_tile_index.is_null()"
  ch.set .metainfo ChannelInfo.size fun kvs => { kvs with metainfo := some (some info) }

def writeTile (ti : TileIndex) (tile : ExactTile) : ChannelM Unit :=
  ch.set (.tile ti) tile.binaryLength fun kvs =>
    { kvs with tiles := Function.update kvs.tiles ti (some tile) }

def deleteTile (ti : TileIndex) : ChannelM Unit :=
  Exec.modify fun kvs => { kvs with tiles := Function.update kvs.tiles ti none }

def createTile (ti : TileIndex) : ChannelM Unit := ch.writeTile ti .new

/-- One pass of the loop over the two children in `split_tile_if_needed`. -/
def splitChild (split : TileIndex → ExactTile → ChannelM (TileIndex × ExactTile))
    (child : TileIndex) (tile : ExactTile) : ChannelM ExactTile := do
  let kvs ← Exec.get
  Exec.assert (¬ kvs.hasTile child) "!has_tile(child_indexes[i])"
  let (root, tile) ← split child tile
  Exec.assert (root = .null)
    "split_tile_if_needed(child_indexes[i], children[i]) == TileIndex::null()"
  ch.writeTile child tile
  return tile

/-- The rest of `split_tile_if_needed` once it is known that `tile` splits at `index`. -/
def splitInto (split : TileIndex → ExactTile → ChannelM (TileIndex × ExactTile))
    (index : TileIndex) (tile : ExactTile) : ChannelM ExactTile := do
  let (left, right) ← Exec.read fun _ => splitSamples tile index.rightChild.startTime
  let left ← ch.splitChild split index.leftChild left
  let right ← ch.splitChild split index.rightChild right
  Exec.read fun _ => createParentTileFromChildren index tile left right

/-- Returns the new root index, null unless an all-tile was split, and the tile as modified. -/
def splitTileIfNeeded : ℕ → TileIndex → ExactTile → ChannelM (TileIndex × ExactTile)
  | 0, _, _ => Exec.timeout
  | fuel + 1, ti, tile =>
      if tile.binaryLength ≤ ch.maxTileSize then return (.null, tile)
      else if ti.isNonnegativeAll then do
        let index ← Exec.read fun _ =>
          TileIndex.indexContaining fuel ⟨tile.firstSampleTime, tile.lastSampleTime⟩
        let tile ← ch.splitInto (splitTileIfNeeded fuel) index tile
        return (index, tile)
      else do
        let tile ← ch.splitInto (splitTileIfNeeded fuel) ti tile
        return (.null, tile)

def moveRootLoop (oldRootTile : ExactTile) (newRootIndex : TileIndex) : ℕ → TileIndex → ChannelM Unit
  | 0, _ => Exec.timeout
  | fuel + 1, ti =>
      if ti ≠ newRootIndex then do
        ch.writeTile ti.sibling .new
        ch.writeTile ti.parent oldRootTile
        moveRootLoop oldRootTile newRootIndex fuel ti.parent
      else return ()

def moveRootUpwards (fuel : ℕ) (newRootIndex oldRootIndex : TileIndex) : ChannelM Unit := do
  let oldRootTile ← Exec.read fun kvs => kvs.readTile oldRootIndex
  ch.moveRootLoop oldRootTile newRootIndex fuel oldRootIndex

/-- `std::set<TileIndex>::insert`: the list is kept in order and without repetitions. -/
def setInsert (ti : TileIndex) : List TileIndex → List TileIndex
  | [] => [ti]
  | x :: xs =>
      if ti = x then x :: xs
      else if ti.lt x then ti :: x :: xs
      else x :: setInsert ti xs

/-- The locals of `add_data_internal` that its loops change. -/
structure AddState where
  root : TileIndex
  toRegenerate : List TileIndex
  /-- What was last stored through the out parameter. -/
  channelRanges : Option (DataRanges ℚ)

/-- A changed tile is reported if it is the root, and queues its parent otherwise. -/
def AddState.changed (st : AddState) (ti : TileIndex) (tile : ExactTile) : AddState :=
  if ti = st.root then { st with channelRanges := some tile.ranges }
  else { st with toRegenerate := setInsert ti.parent st.toRegenerate }

section
variable {V : Type} [SampleKind V]

/-- One pass of `while (i < data.size())`; `data` is what is left from index `i` on. -/
def insertStep (fuel : ℕ) (st : AddState) (first : Sample V) (data : List (Sample V)) :
    ChannelM (AddState × List (Sample V)) := do
  let ti ← Exec.read fun kvs => kvs.findLowestChildOverlappingTime fuel st.root first.time
  Exec.assert (¬ ti.isNull) "!ti.is_null()"
  let tile ← Exec.read fun kvs => kvs.readTile ti
  let tile ← Exec.read fun _ =>
    SampleKind.insertSamples tile (data.takeWhile fun s => ti.containsTime s.time)
  let (newRoot, tile) ← ch.splitTileIfNeeded fuel ti tile
  let rest := data.dropWhile fun s => ti.containsTime s.time
  if newRoot ≠ .null then do
    Exec.assert (ti = .nonnegativeAll) "ti == TileIndex::nonnegative_all()"
    let st := { st with root := newRoot }
    deleteTile ti
    ch.writeTile newRoot tile
    return (st.changed newRoot tile, rest)
  else do
    ch.writeTile ti tile
    return (st.changed ti tile, rest)

def insertLoop : ℕ → AddState → List (Sample V) → ChannelM AddState
  | 0, _, _ => Exec.timeout
  | _ + 1, st, [] => return st
  | fuel + 1, st, first :: data => do
      let (st, rest) ← ch.insertStep fuel st first (first :: data)
      insertLoop fuel st rest

/-- One pass of `while (!to_regenerate.empty())`. -/
def regenerateStep (st : AddState) (ti : TileIndex) : ChannelM AddState := do
  let left ← Exec.read fun kvs => kvs.readTile ti.leftChild
  let right ← Exec.read fun kvs => kvs.readTile ti.rightChild
  let regenerated ← Exec.read fun _ => createParentTileFromChildren ti .new left right
  ch.writeTile ti regenerated
  return st.changed ti regenerated

def regenerateLoop : ℕ → AddState → ChannelM AddState
  | 0, _ => Exec.timeout
  | fuel + 1, st =>
      match st.toRegenerate with
      | [] => return st
      | ti :: rest => do
          let st ← ch.regenerateStep { st with toRegenerate := rest } ti
          regenerateLoop fuel st

/-- Reads or creates the info record and moves the root until it covers the batch's times. -/
def prepareRoot (fuel : ℕ) (times : Range ℚ) : ChannelM (ChannelInfo × List TileIndex) := do
  match ← Exec.read Kvs.readInfo with
  | none =>
      ch.createTile .nonnegativeAll
      return (⟨ChannelInfo.magicNumber, 0x00010000, times, .nonnegativeAll, .null⟩, [])
  | some info =>
      let info := { info with times := info.times.add times }
      let root := info.nonnegativeRootTileIndex
      if root ≠ .nonnegativeAll then do
        let newRoot ← Exec.read fun _ => TileIndex.indexContaining fuel info.times
        if newRoot.level > root.level then do
          Exec.assert (newRoot.isAncestorOf ch.wideShift root)
            "new_nonnegative_root_tile_index.is_ancestor_of(info.nonnegative_root_tile_index)"
          ch.moveRootUpwards fuel newRoot root
          return ({ info with nonnegativeRootTileIndex := newRoot }, [root.parent])
        else return (info, [])
      else return (info, [])

/-- `add_data_internal` on a non-empty vector that passed its checks. -/
def addSorted (fuel : ℕ) (times : Range ℚ) (data : List (Sample V)) :
    ChannelM (Option (DataRanges ℚ)) := do
  lock
  let (info, toRegenerate) ← ch.prepareRoot fuel times
  let st ← ch.insertLoop fuel ⟨info.nonnegativeRootTileIndex, toRegenerate, none⟩ data
  let st ← ch.regenerateLoop fuel st
  ch.writeInfo { info with nonnegativeRootTileIndex := st.root }
  return st.channelRanges

/-- Returns what it stores through `channel_ranges`, if anything. -/
def addDataInternal (fuel : ℕ) (data : List (Sample V)) : ChannelM (Option (DataRanges ℚ)) :=
  match data with
  | [] => return none
  | first :: rest =>
      if first.time < 0 then Exec.throw fun kvs =>
        ⟨"Unimplemented feature: adding data with negative time", kvs, none⟩
      else if ¬ Ascending DataSample.time (first :: rest) then Exec.throw fun kvs =>
        ⟨"Attempt to add data that is not sorted by ascending time", kvs, none⟩
      else
        ch.addSorted fuel ⟨first.time, ((first :: rest).getLast (by simp)).time⟩ (first :: rest)

end

def readData (fuel : ℕ) (begin_ end_ : ℚ) : ChannelM (List (Sample ℚ)) := do
  lock
  match ← Exec.read Kvs.readInfo with
  | none => return []
  | some info =>
      Exec.read fun kvs =>
        kvs.readDataLoop info.nonnegativeRootTileIndex begin_ end_ fuel begin_ []

end Channel

inductive Batch where
  | doubles (data : List (Sample ℚ))
  | strings (data : List (Sample Text))

def Channel.addData (ch : Channel) (fuel : ℕ) : Batch → ChannelM (Option (DataRanges ℚ))
  | .doubles data => ch.addDataInternal fuel data
  | .strings data => ch.addDataInternal fuel data

end Mio.Datastore
