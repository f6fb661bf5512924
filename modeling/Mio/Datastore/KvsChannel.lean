import Mio.Lib.Sections
import Mio.Datastore.ClosestAncestor
import Mio.Datastore.ReadOnly

/-! `Channel.cpp` as the requests that it makes of the store, key by key. Values are whole records, and
every set succeeds. -/
namespace Mio.Datastore

/-- The value of a key: the empty file that locking makes, an info record or a tile. -/
inductive Record where
  | blank
  | info (info : ChannelInfo)
  | tile (tile : ExactTile)

abbrev Store := Text → Option Record

/-- A thrown `std::runtime_error` carries its text. -/
abbrev StoreM := Program Text Record String

/-- A `Channel` object: the part of its keys that comes from owner and name. -/
structure KvsChannel where
  keyPrefix : Text
  maxTileSize : ℕ := channelMaxTileSize
  wideShift : ℤ → ℤ → ℤ := fun _ _ => 0

namespace KvsChannel

variable (ch : KvsChannel)

/-- `Channel(kvs, owner_id, name)`. -/
def ofName (ownerId : BitVec 32) (name : Text) : KvsChannel := { keyPrefix := Datastore.keyPrefix ownerId name }

def metainfoKey : Text := ch.keyPrefix ++ infoSuffix

/-- "%s.%d.%lld" -/
def tileKey (ti : TileIndex) : Text :=
  ch.keyPrefix ++ dot :: (printDecimal ti.level ++ dot :: printDecimal ti.offset)

def readInfo : StoreM (Option ChannelInfo) := do
  match ← .ask (.get ch.metainfoKey) with
  | some (.info info) => do
      Program.assert (info.magic = ChannelInfo.magicNumber) "info.magic == ChannelInfo::MAGIC"
      return some info
  | some (.tile _) => .done (.abort "info_str.length() == sizeof(ChannelInfo)")
  | some .blank => return none
  | none => return none

/-- `has_tile` and `tile_exists`. -/
def hasTile (ti : TileIndex) : StoreM Bool := .ask (.hasKey (ch.tileKey ti))

/-- `assert(read_tile(ti, tile))`. -/
def readTile (ti : TileIndex) : StoreM ExactTile := do
  match ← .ask (.get (ch.tileKey ti)) with
  | some (.tile tile) => return tile
  | some _ => .done (.abort "m_ptr + len <= m_end")
  | none => .done (.abort "read_tile(ti, tile)")

def reader : Reader StoreM TileIndex ExactTile where
  hasTile := ch.hasTile
  readTile := ch.readTile
  assert p _ what := Program.assert p what
  timeout := .done .timeout

def findLowestChildOverlappingTime (fuel : ℕ) (ti : TileIndex) (t : ℚ) : StoreM TileIndex :=
  ch.reader.find (fun _ => true) (·.isNull) (Kvs.childTowards · t) fuel ti

def findChildOverlappingTime (fuel : ℕ) (ti : TileIndex) (t : ℚ) (desiredLevel : ℤ) : StoreM TileIndex :=
  ch.reader.find (fun ti => desiredLevel < ti.level) (·.isNull) (Kvs.childTowards · t) fuel ti

def findSuccessiveTile (fuel : ℕ) (root ti : TileIndex) (desiredLevel : ℤ) : StoreM TileIndex := do
  let ti ← .done (Kvs.climbToLeftChild root fuel ti)
  if ti.isNull then return .null
  else ch.findChildOverlappingTime fuel ti.sibling ti.sibling.startTime desiredLevel

def nextTile (root : TileIndex) (times : Range ℚ) (desiredLevel : ℤ) (fuel : ℕ) (ti : TileIndex) :
    StoreM TileIndex :=
  if ti.isNull then ch.findChildOverlappingTime fuel root times.min desiredLevel
  else ch.findSuccessiveTile fuel root ti desiredLevel

def readTilesLoop (root : TileIndex) (times : Range ℚ) (desiredLevel : ℤ)
    (callback : List (TileIndex × ExactTile) → Bool) :
    ℕ → TileIndex → List (TileIndex × ExactTile) → StoreM (List (TileIndex × ExactTile)) :=
  ch.reader.readTiles (ch.nextTile root times desiredLevel) (fun ti => ti.isNull ∨ ti.startTime ≥ times.max) callback

def readTilesInRange (fuel : ℕ) (times : Range ℚ) (callback : List (TileIndex × ExactTile) → Bool)
    (desiredLevel : ℤ) : StoreM (List (TileIndex × ExactTile)) := do
  match ← ch.readInfo with
  | none => return []
  | some info =>
      if ¬ info.times.intersects times then return []
      else if times.min < times.max then
        ch.readTilesLoop info.nonnegativeRootTileIndex times desiredLevel callback fuel .null []
      else return []

def readDataLoop (root : TileIndex) (begin_ end_ : ℚ) :
    ℕ → ℚ → List (Sample ℚ) → StoreM (List (Sample ℚ)) :=
  ch.reader.readData (· < end_) (fun fuel time => ch.findLowestChildOverlappingTime fuel root time) (·.isNull)
    (Kvs.wanted begin_ end_) TileIndex.endTime

def readData (fuel : ℕ) (begin_ end_ : ℚ) : StoreM (List (Sample ℚ)) := do
  match ← ch.readInfo with
  | none => return []
  | some info => ch.readDataLoop info.nonnegativeRootTileIndex begin_ end_ fuel begin_ []

def descendTowards (ti : TileIndex) : ℕ → TileIndex → StoreM TileIndex :=
  ch.reader.descend (· ≠ ti) (fun _ => false) (Kvs.childTowards · ti.doubleStart)

/-- `read_tile_or_closest_ancestor` inside its lock; none for false. -/
def readTileOrClosestAncestor (fuel : ℕ) (ti : TileIndex) : StoreM (Option (TileIndex × ExactTile)) := do
  match ← ch.readInfo with
  | none => return none
  | some info =>
      ch.reader.closest (fun a b => a.isAncestorOf ch.wideShift b) (ch.descendTowards ti fuel)
        info.nonnegativeRootTileIndex ti

def writeInfo (info : ChannelInfo) : StoreM Unit := do
  Program.assert (¬ info.nonnegativeRootTileIndex.isNull) "!info.nonnegative_root_tile_index.is_null()"
  .ask (.set ch.metainfoKey (.info info))

def writeTile (ti : TileIndex) (tile : ExactTile) : StoreM Unit :=
  .ask (.set (ch.tileKey ti) (.tile tile))

def deleteTile (ti : TileIndex) : StoreM Bool := .ask (.del (ch.tileKey ti))

def createTile (ti : TileIndex) : StoreM Unit := ch.writeTile ti .new

/-- One pass of the loop over the two children in `split_tile_if_needed`. -/
def splitChild (split : TileIndex → ExactTile → StoreM (TileIndex × ExactTile)) (child : TileIndex)
    (tile : ExactTile) : StoreM ExactTile := do
  let there ← ch.hasTile child
  Program.assert (¬ there) "!has_tile(child_indexes[i])"
  let (root, tile) ← split child tile
  Program.assert (root = .null) "split_tile_if_needed(child_indexes[i], children[i]) == TileIndex::null()"
  ch.writeTile child tile
  return tile

/-- The rest of `split_tile_if_needed` once it is known that `tile` splits at `index`. -/
def splitInto (split : TileIndex → ExactTile → StoreM (TileIndex × ExactTile)) (index : TileIndex)
    (tile : ExactTile) : StoreM ExactTile := do
  let (left, right) ← .done (splitSamples tile index.rightChild.startTime)
  let left ← ch.splitChild split index.leftChild left
  let right ← ch.splitChild split index.rightChild right
  .done (createParentTileFromChildren index tile left right)

/-- Returns the new root index, null unless an all-tile was split, and the tile as modified. -/
def splitTileIfNeeded : ℕ → TileIndex → ExactTile → StoreM (TileIndex × ExactTile)
  | 0, _, _ => .done .timeout
  | fuel + 1, ti, tile =>
      if tile.binaryLength ≤ ch.maxTileSize then return (.null, tile)
      else if ti.isNonnegativeAll then do
        let index ← .done (TileIndex.indexContaining fuel ⟨tile.firstSampleTime, tile.lastSampleTime⟩)
        let tile ← ch.splitInto (splitTileIfNeeded fuel) index tile
        return (index, tile)
      else do
        let tile ← ch.splitInto (splitTileIfNeeded fuel) ti tile
        return (.null, tile)

def moveRootLoop (oldRootTile : ExactTile) (newRootIndex : TileIndex) : ℕ → TileIndex → StoreM Unit
  | 0, _ => .done .timeout
  | fuel + 1, ti =>
      if ti ≠ newRootIndex then do
        ch.writeTile ti.sibling .new
        ch.writeTile ti.parent oldRootTile
        moveRootLoop oldRootTile newRootIndex fuel ti.parent
      else return ()

def moveRootUpwards (fuel : ℕ) (newRootIndex oldRootIndex : TileIndex) : StoreM Unit := do
  let oldRootTile ← ch.readTile oldRootIndex
  ch.moveRootLoop oldRootTile newRootIndex fuel oldRootIndex

section
variable {V : Type} [SampleKind V]

def insertStep (fuel : ℕ) (st : Channel.AddState) (first : Sample V) (data : List (Sample V)) :
    StoreM (Channel.AddState × List (Sample V)) := do
  let ti ← ch.findLowestChildOverlappingTime fuel st.root first.time
  Program.assert (¬ ti.isNull) "!ti.is_null()"
  let tile ← ch.readTile ti
  let tile ← .done (SampleKind.insertSamples tile (data.takeWhile fun s => ti.containsTime s.time))
  let (newRoot, tile) ← ch.splitTileIfNeeded fuel ti tile
  let rest := data.dropWhile fun s => ti.containsTime s.time
  if newRoot ≠ .null then do
    Program.assert (ti = .nonnegativeAll) "ti == TileIndex::nonnegative_all()"
    let st := { st with root := newRoot }
    let _ ← ch.deleteTile ti
    ch.writeTile newRoot tile
    return (st.changed newRoot tile, rest)
  else do
    ch.writeTile ti tile
    return (st.changed ti tile, rest)

def insertLoop : ℕ → Channel.AddState → List (Sample V) → StoreM Channel.AddState
  | 0, _, _ => .done .timeout
  | _ + 1, st, [] => return st
  | fuel + 1, st, first :: data => do
      let (st, rest) ← ch.insertStep fuel st first (first :: data)
      insertLoop fuel st rest

end

def regenerateStep (st : Channel.AddState) (ti : TileIndex) : StoreM Channel.AddState := do
  let left ← ch.readTile ti.leftChild
  let right ← ch.readTile ti.rightChild
  let regenerated ← .done (createParentTileFromChildren ti .new left right)
  ch.writeTile ti regenerated
  return st.changed ti regenerated

def regenerateLoop : ℕ → Channel.AddState → StoreM Channel.AddState
  | 0, _ => .done .timeout
  | fuel + 1, st =>
      match st.toRegenerate with
      | [] => return st
      | ti :: rest => do
          let st ← ch.regenerateStep { st with toRegenerate := rest } ti
          regenerateLoop fuel st

/-- Reads or creates the info record and moves the root until it covers the batch's times. -/
def prepareRoot (fuel : ℕ) (times : Range ℚ) : StoreM (ChannelInfo × List TileIndex) := do
  match ← ch.readInfo with
  | none =>
      ch.createTile .nonnegativeAll
      return (⟨ChannelInfo.magicNumber, 0x00010000, times, .nonnegativeAll, .null⟩, [])
  | some info =>
      let info := { info with times := info.times.add times }
      let root := info.nonnegativeRootTileIndex
      if root ≠ .nonnegativeAll then do
        let newRoot ← .done (TileIndex.indexContaining fuel info.times)
        if newRoot.level > root.level then do
          Program.assert (newRoot.isAncestorOf ch.wideShift root)
            "new_nonnegative_root_tile_index.is_ancestor_of(info.nonnegative_root_tile_index)"
          ch.moveRootUpwards fuel newRoot root
          return ({ info with nonnegativeRootTileIndex := newRoot }, [root.parent])
        else return (info, [])
      else return (info, [])

def addSorted {V : Type} [SampleKind V] (fuel : ℕ) (times : Range ℚ) (data : List (Sample V)) :
    StoreM (Option (DataRanges ℚ)) := do
  let (info, toRegenerate) ← ch.prepareRoot fuel times
  let st ← ch.insertLoop fuel ⟨info.nonnegativeRootTileIndex, toRegenerate, none⟩ data
  let st ← ch.regenerateLoop fuel st
  ch.writeInfo { info with nonnegativeRootTileIndex := st.root }
  return st.channelRanges

end KvsChannel
end Mio.Datastore
