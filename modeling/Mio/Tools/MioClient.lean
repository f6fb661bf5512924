import Mathlib.Algebra.Group.Int.Defs
import Mathlib.Algebra.Group.Nat.Defs
import Mathlib.Data.List.Nodup
import Mathlib.Logic.Function.Basic
import Mio.Lib.CString
import Mio.Lib.Outcome
import Mio.LibMio.Data

/-! `mio_client.c` of the MIO file system: the known nodes, the children of the collections among them
and the data of the others. -/
namespace Mio.Tools.MioFS

open LibMio

inductive Fault where
  | null
  | outOfBounds
  | overflow
deriving DecidableEq

/-- A C string without its end. -/
abbrev Text := { bytes : List UInt8 // 0 ∉ bytes }

structure Timespec where
  sec : ℤ
  nsec : ℤ
deriving DecidableEq

/-- What `node_id_type` gives; `failed` is -1. -/
inductive NodeType where
  | collection
  | leaf
  | failed
deriving DecidableEq

/-- `struct mio_node`; the children are nodes by their addresses. -/
structure MioNode where
  id : Option Text := none
  type : NodeType
  isSubscribed : Bool := false
  isMiofsArtifact : Bool := false
  accessTime : Timespec := ⟨0, 0⟩
  modificationTime : Timespec := ⟨0, 0⟩
  data : Option (CString UInt8) := none
  children : List ℕ := []

/-- Memory from the address `fresh` on is free. `nodesH` is in the order of insertion. -/
structure Client where
  node : ℕ → MioNode
  fresh : ℕ
  nodesH : List ℕ
  dataTimeout : ℤ

namespace Client

def set (s : Client) (a : ℕ) (n : MioNode) : Client := { s with node := Function.update s.node a n }

@[simp] theorem set_node_self (s : Client) (a : ℕ) (n : MioNode) : (s.set a n).node a = n :=
  Function.update_self ..

theorem set_node_of_ne (s : Client) {a b : ℕ} (ne : b ≠ a) (n : MioNode) : (s.set a n).node b = s.node b :=
  Function.update_of_ne ne ..

@[simp] theorem set_fresh (s : Client) (a : ℕ) (n : MioNode) : (s.set a n).fresh = s.fresh := rfl

@[simp] theorem set_nodesH (s : Client) (a : ℕ) (n : MioNode) : (s.set a n).nodesH = s.nodesH := rfl

@[simp] theorem set_dataTimeout (s : Client) (a : ℕ) (n : MioNode) :
    (s.set a n).dataTimeout = s.dataTimeout := rfl

def malloc (s : Client) (n : MioNode) : Client := { s.set s.fresh n with fresh := s.fresh + 1 }

/-- `HASH_FIND_STR`. -/
def hashFind (s : Client) (id : Text) : Option ℕ := s.nodesH.find? fun a => (s.node a).id = some id

/-- `HASH_ADD_KEYPTR`. -/
def hashAdd (s : Client) (a : ℕ) : Client := { s with nodesH := s.nodesH ++ [a] }

/-- `LL_APPEND` to the children of a node. -/
def append (s : Client) (a child : ℕ) : Client :=
  s.set a { s.node a with children := (s.node a).children ++ [child] }

/-- `LL_SEARCH` with `cmp_node_child_str`. -/
def search (s : Client) (id : Text) : List ℕ → Outcome Fault (Option ℕ)
  | [] => .ret none
  | a :: rest =>
      match (s.node a).id with
      | none => .throw .null
      | some own => if own = id then .ret (some a) else s.search id rest

end Client

abbrev fsRoot : ℕ := 0
abbrev nSubs : ℕ := 1
abbrev nSubsColRoot : ℕ := 2
abbrev nColRoot : ℕ := 3

def text (s : String) (plain : 0 ∉ s.toUTF8.data.toList) : Text := ⟨s.toUTF8.data.toList, plain⟩

/-- A folder of the file system itself. -/
def artifact (now : Timespec) (id : Option Text) (children : List ℕ) : MioNode where
  id := id
  type := .collection
  isSubscribed := true
  isMiofsArtifact := true
  accessTime := now
  modificationTime := now
  children := children

/-- The nodes that `mio_client_init` makes. -/
def folders (now : Timespec) : ℕ → MioNode
  | 0 => artifact now none [nSubs, nSubsColRoot, nColRoot]
  | 1 => artifact now (some (text "my_subscriptions" (by decide))) []
  | 2 => artifact now (some (text "my_collections" (by decide))) []
  | _ => artifact now (some (text "collections" (by decide))) []

/-- `process_subscriptions_packet`: each subscription with what `node_id_type` says of it. Whether it
has got through. -/
def processSubscriptionsPacket (s : Client) : List (Text × NodeType) → Client × Bool
  | [] => (s, true)
  | (id, type) :: rest =>
      match s.hashFind id with
      | some _ => processSubscriptionsPacket s rest
      | none =>
          let a := s.fresh
          let s := s.malloc { id := some id, type }
          if type = .failed then (s, false)
          else
            let s := s.set a { s.node a with isSubscribed := true }
            let s := (s.hashAdd a).append nSubs a
            let s := if type = .collection then s.append nSubsColRoot a else s
            processSubscriptionsPacket s rest

/-- `mio_client_init`; without a connection, or if the query fails, there are no subscriptions. -/
def mioClientInit (timeout : ℤ) (now : Timespec) (subscriptions : Option (List (Text × NodeType))) : Client :=
  let s : Client := ⟨folders now, 4, [], timeout⟩
  match subscriptions with
  | none => s
  | some subs => (processSubscriptionsPacket s subs).1

/-- What `update_children` meets with: the clock, the packet of collections if the query gives one, and
the answers to `node_id_type`. -/
structure Reply where
  now : Timespec
  collections : Option (List (Option Text))
  typeOf : Text → NodeType

/-- The loop over the items of a reply; `old` are the children that it has not met yet. -/
def addItems (a : ℕ) (typeOf : Text → NodeType) (old : List ℕ) (s : Client) :
    List (Option Text) → Outcome Fault Client
  | [] => .ret s
  | none :: items => addItems a typeOf old s items
  | some id :: items => do
      match ← s.search id old with
      | some child => addItems a typeOf (old.erase child) (s.append a child) items
      | none =>
          match s.hashFind id with
          | some child => addItems a typeOf old (s.append a child) items
          | none =>
              let child := s.fresh
              let s := (s.malloc { id := some id, type := typeOf id }).hashAdd child
              addItems a typeOf old (s.append a child) items

/-- `update_children`, its result last. -/
def updateChildren (s : Client) (node : Option ℕ) (reply : Reply) : Outcome Fault (Client × ℤ) :=
  match node with
  | none => .throw .null
  | some a =>
      if (s.node a).isMiofsArtifact then .ret (s, 0)
      else if (s.node a).modificationTime.sec + s.dataTimeout > reply.now.sec then .ret (s, 0)
      else
        let s := s.set a { s.node a with modificationTime := reply.now }
        match reply.collections with
        | none => .ret (s, 1)
        | some items => do
            let old := (s.node a).children
            let s ← addItems a reply.typeOf old (s.set a { s.node a with children := [] }) items
            return (s, 0)

/-- A transducer value, as far as it is used here. -/
structure Value where
  type : TransducerValueType
  typedValue : Option Text

/-- The response with an event and its values, if it is a packet of data. -/
inductive DataResponse where
  | data (event : Option Text) (transducers : List Value)
  | other

/-- The first pass of `process_node_data_packet`: an `int` that each value is added to. -/
def bufferSize (size : ℤ) : List Value → Outcome Fault ℤ
  | [] => .ret size
  | value :: rest =>
      match value.typedValue with
      | none => .throw .null
      | some text => bufferSize (Int.bmod (size + text.1.length + 1) (2 ^ 32)) rest

/-- `malloc(size)` and the end of an empty string: there is no block of a negative size, which is a huge
one after the conversion, and no place in an empty block. -/
def emptyString (size : ℤ) : Outcome Fault (CString UInt8) :=
  if size < 0 then .throw .null
  else
    match (CString.malloc size.toNat).write 0 [0] with
    | none => .throw .outOfBounds
    | some block => .ret block

def newline : UInt8 := 10

/-- `snprintf(block + pos, room, "%s\n", text)` and what it returns; a negative room is a huge one. -/
def snprintfLine (block : CString UInt8) (pos room : ℤ) (text : Text) : Outcome Fault (CString UInt8 × ℤ) :=
  if pos < 0 then .throw .outOfBounds
  else
    match block.snprintf 0 pos.toNat (room % 2 ^ 64).toNat (text.1 ++ [newline]) with
    | none => .throw .outOfBounds
    | some block => .ret (block, if text.1.length + 1 < 2 ^ 31 then text.1.length + 1 else -1)

/-- The second pass: the plain values. -/
def copyData (block : CString UInt8) (size pos : ℤ) : List Value → Outcome Fault (CString UInt8)
  | [] => .ret block
  | value :: rest =>
      if value.type = .value then
        match value.typedValue with
        | none => .throw .null
        | some text => do
            let (block, n) ← snprintfLine block pos (size - pos) text
            if 2 ^ 31 ≤ pos + n then .throw .overflow else copyData block size (pos + n) rest
      else copyData block size pos rest

def processNodeDataPacket (s : Client) (node : Option ℕ) (response : DataResponse) (now : Timespec) :
    Outcome Fault Client :=
  match response with
  | .other => .ret s
  | .data event transducers =>
      match node.or (event.bind s.hashFind) with
      | none => .ret s
      | some a => do
          let size ← bufferSize 1 transducers
          let block ← emptyString size
          let block ← copyData block size 0 transducers
          return s.set a { s.node a with data := some block, modificationTime := now }

/-- What `update_node_data` meets with: the clock twice, and the answer. -/
structure DataReply where
  now : Timespec
  err : ℤ
  response : DataResponse
  later : Timespec

def updateNodeData (s : Client) (a : ℕ) (reply : DataReply) : Outcome Fault (Client × ℤ) :=
  let n := s.node a
  if n.isSubscribed ∧ n.modificationTime.sec ≠ 0 then .ret (s, 0)
  else if n.modificationTime.sec + s.dataTimeout > reply.now.sec then .ret (s, 0)
  else do
    let s := s.set a { n with modificationTime := reply.now }
    let s ← processNodeDataPacket s (some a) reply.response reply.later
    return (s, reply.err)

end Mio.Tools.MioFS
