import Mathlib.Data.List.Infix
import Mathlib.Data.List.Nodup
import Mathlib.Data.List.Perm.Basic
import Mathlib.Logic.Function.Basic
import Mathlib.Tactic.Common
import Mio.Lib.Transition

/-! `store_xmpp.py`: calls of `add_to_json` fill a dictionary, and `datastore_daemon` takes it away and
hands it to `import`. A step is what one thread does between two looks at what they share. -/
namespace Mio.Datastore.Feed

abbrev Text := List Char

/-- `replace(' ','-')`. -/
def dashed (text : Text) : Text := text.map fun c => if c = ' ' then '-' else c

/-- The arguments of `add_to_json`. -/
structure Call (T : Type) where
  dev : Text
  channel : Text
  timestamp : T
  val : Text

def Call.key {T : Type} (call : Call T) : Text := dashed call.dev ++ '.' :: dashed call.channel

/-- An entry of `import_json`, and the file it is written to. -/
structure Obj (T V : Type) where
  channelNames : List Text
  method : String := "post"
  action : String := "upload"
  devNickname : Text
  userId : String := "1"
  controller : String := "logrecs"
  data : List (T × V) := []

/-- A dictionary; the order of its entries means nothing. -/
abbrev Dict (T V : Type) := List (Text × Obj T V)

/-- Where a call of `add_to_json` is: in front of `acquire`, behind it, behind the `if`, behind the `try`,
behind `release`, or left by an exception other than `ValueError`. -/
inductive Stage where
  | start
  | locked
  | ready
  | stored
  | done
  | raised
deriving DecidableEq

/-- Where `datastore_daemon` is, with `import_json_temp` and the keys that are still to come. -/
inductive Daemon where
  | idle
  | locked
  | took (temp : ℕ)
  | reset (temp : ℕ)
  | drain (temp : ℕ) (left : List Text)
  | wrote (temp : ℕ) (key : Text) (left : List Text)
  | raised

inductive Owner where
  | call (i : ℕ)
  | daemon
deriving DecidableEq

structure State (T V : Type) where
  /-- The dictionaries by reference. -/
  dicts : ℕ → Dict T V := fun _ => []
  fresh : ℕ := 1
  importJson : ℕ := 0
  lock : Option Owner := none
  calls : List (Call T) := []
  stage : ℕ → Stage := fun _ => .start
  daemon : Daemon := .idle
  tempJson : Option (Obj T V) := none
  /-- The files that `import` was run on. -/
  handed : List (Obj T V) := []
  /-- The calls whose `try` is behind them, in this order. -/
  arrived : List ℕ := []

inductive Event (T : Type) where
  | call (c : Call T)
  | acquire (i : ℕ)
  | enter (i : ℕ)
  | append (i : ℕ)
  | release (i : ℕ)
  | daemonAcquire
  | take
  | reset
  /-- The loop takes the keys in some order. -/
  | daemonRelease (order : List Text)
  | write
  | runImport
  | finish

variable {T V : Type}

def Dict.keys (dict : Dict T V) : List Text := dict.map Prod.fst

def Dict.get (dict : Dict T V) (key : Text) : Option (Obj T V) := dict.lookup key

def Obj.append (obj : Obj T V) (sample : T × V) : Obj T V := { obj with data := obj.data ++ [sample] }

def Dict.append (dict : Dict T V) (key : Text) (sample : T × V) : Dict T V :=
  dict.map fun entry => if entry.1 = key then (entry.1, entry.2.append sample) else entry

def newObj (c : Call T) : Obj T V := { channelNames := [dashed c.channel], devNickname := dashed c.dev }

namespace State

def setDict (s : State T V) (dict : Dict T V) : State T V :=
  { s with dicts := Function.update s.dicts s.importJson dict }

def setStage (s : State T V) (i : ℕ) (stage : Stage) : State T V :=
  { s with stage := Function.update s.stage i stage }

def current (s : State T V) : Dict T V := s.dicts s.importJson

def enter (s : State T V) (c : Call T) : State T V :=
  if c.key ∈ s.current.keys then s else s.setDict (s.current ++ [(c.key, newObj c)])

def arrive (s : State T V) (i : ℕ) : State T V := { s with arrived := s.arrived ++ [i] }

def append (float : Text → Option V) (s : State T V) (i : ℕ) (c : Call T) : State T V :=
  if c.key ∈ s.current.keys then
    match float c.val with
    | some v => ((s.arrive i).setDict (s.current.append c.key (c.timestamp, v))).setStage i .stored
    | none => (s.arrive i).setStage i .stored
  else s.setStage i .raised

end State

def next (float : Text → Option V) (s : State T V) : Event T → Option (State T V)
  | .call c => some { s with calls := s.calls ++ [c] }
  | .acquire i =>
      if i < s.calls.length ∧ s.stage i = .start ∧ s.lock = none then
        some ({ s with lock := some (.call i) }.setStage i .locked)
      else none
  | .enter i =>
      if s.stage i = .locked then (s.calls[i]?).map fun c => (s.enter c).setStage i .ready
      else none
  | .append i =>
      if s.stage i = .ready then (s.calls[i]?).map fun c => s.append float i c
      else none
  | .release i =>
      if s.stage i = .stored then some ({ s with lock := none }.setStage i .done)
      else none
  | .daemonAcquire =>
      match s.daemon with
      | .idle => if s.lock = none then some { s with lock := some .daemon, daemon := .locked } else none
      | _ => none
  | .take =>
      match s.daemon with
      | .locked => some { s with daemon := .took s.importJson }
      | _ => none
  | .reset =>
      match s.daemon with
      | .took temp => some { s with
          dicts := Function.update s.dicts s.fresh []
          importJson := s.fresh
          fresh := s.fresh + 1
          daemon := .reset temp }
      | _ => none
  | .daemonRelease order =>
      match s.daemon with
      | .reset temp =>
          if order.Perm (s.dicts temp).keys then
            some { s with lock := none, daemon := .drain temp order }
          else none
      | _ => none
  | .write =>
      match s.daemon with
      | .drain temp (key :: left) =>
          match (s.dicts temp).get key with
          | some obj => some { s with tempJson := some obj, daemon := .wrote temp key left }
          | none => some { s with daemon := .raised }
      | _ => none
  | .runImport =>
      match s.daemon with
      | .wrote temp _ left =>
          some { s with handed := s.handed ++ s.tempJson.toList, daemon := .drain temp left }
      | _ => none
  | .finish =>
      match s.daemon with
      | .drain _ [] => some { s with daemon := .idle }
      | _ => none

def system (T : Type) {V : Type} (float : Text → Option V) : System (State T V) (Event T) :=
  .ofNext {} (next float)

/-- The name under which a file is imported: the nickname and the channel, joined by a dot. -/
def Obj.name (obj : Obj T V) : Text := obj.devNickname ++ '.' :: obj.channelNames.headD []

def dataUnder (dict : Dict T V) (key : Text) : List (T × V) := ((dict.get key).map Obj.data).getD []

/-- The sample of a call, if its value parses and it is under this key. -/
def sampleUnder (float : Text → Option V) (key : Text) (c : Call T) : Option (T × V) :=
  if c.key = key then (float c.val).map (c.timestamp, ·) else none

namespace State
variable (float : Text → Option V) (s : State T V) (key : Text)

/-- The samples under a key in the order of their arrival. -/
def arrivedUnder : List (T × V) :=
  s.arrived.filterMap fun i => (s.calls[i]?).bind (sampleUnder float key)

/-- The samples in the files that `import` was run on. -/
def handedUnder : List (T × V) :=
  (s.handed.filter fun obj => obj.name = key).flatMap Obj.data

/-- The dictionary that the daemon drains, and the keys that are still to be handed over. -/
def draining : Option (ℕ × List Text) :=
  match s.daemon with
  | .reset temp => some (temp, (s.dicts temp).keys)
  | .drain temp left => some (temp, left)
  | .wrote temp key left => some (temp, key :: left)
  | _ => none

def pendingUnder : List (T × V) :=
  match s.draining with
  | some (temp, left) => if key ∈ left then dataUnder (s.dicts temp) key else []
  | none => []

end State

/-- The thread is between `acquire` and `release`. -/
def Stage.Holds (stage : Stage) : Prop := stage = .locked ∨ stage = .ready ∨ stage = .stored

def Daemon.Holds : Daemon → Prop
  | .locked => True
  | .took _ => True
  | .reset _ => True
  | _ => False

/-- Each sample that arrived is in one place, the samples of one key in the order of their arrival: first
those in the files, then those the daemon has taken, then those in the buffer. The lock is held by the
thread that is between `acquire` and `release`, and no thread has died. -/
structure Accounted (float : Text → Option V) (s : State T V) : Prop where
  once : ∀ key, s.arrivedUnder float key =
    s.handedUnder key ++ s.pendingUnder key ++ dataUnder s.current key
  each : s.arrived.Nodup ∧ ∀ i, i ∈ s.arrived ↔ s.stage i = .stored ∨ s.stage i = .done
  callLock : ∀ i, s.lock = some (.call i) ↔ (s.stage i).Holds
  daemonLock : s.lock = some .daemon ↔ s.daemon.Holds
  alive : (∀ i, s.stage i ≠ .raised) ∧ s.daemon ≠ .raised

/-- In every interleaving all samples are accounted for, and what has arrived before a swap is in the files
when the daemon is done with it. -/
structure FeedsOnce (T : Type) (float : Text → Option V) : Prop where
  accounted : ∀ s, (system T float).Reachable s → Accounted float s
  handed : ∀ (s s' : State T V) (events : List (Event T)), (system T float).Reachable s →
    events.foldlM (next float) s = some s' → .reset ∈ events → s'.daemon = .idle → ∀ key, s.arrivedUnder float key <+: s'.handedUnder key

namespace Dict
variable {dict : Dict T V} {key k : Text} {obj : Obj T V} {sample : T × V}

theorem get_cons_self : Dict.get ((key, obj) :: dict) key = some obj := List.lookup_cons_self

theorem get_cons_of_ne (ne : k ≠ key) : Dict.get ((key, obj) :: dict) k = dict.get k := by
  rw [get, List.lookup_cons, beq_false_of_ne ne]
  rfl

theorem get_eq_none (missing : key ∉ dict.keys) : dict.get key = none := by
  refine Option.not_isSome_iff_eq_none.mp fun found => missing ?_
  simpa [get, keys] using found

theorem get_of_mem (unique : dict.keys.Nodup) (mem : (key, obj) ∈ dict) : dict.get key = some obj := by
  induction dict with
  | nil => cases mem
  | cons entry dict ih =>
      obtain ⟨k, o⟩ := entry
      obtain ⟨out, rest⟩ := List.nodup_cons.mp unique
      rcases List.mem_cons.mp mem with same | later
      · cases same
        exact get_cons_self
      · have ne : key ≠ k := by
          rintro rfl
          exact out (List.mem_map.mpr ⟨_, later, rfl⟩)
        rw [get_cons_of_ne ne]
        exact ih rest later

@[simp] theorem keys_append : (dict.append key sample).keys = dict.keys := by
  rw [keys, Dict.append, List.map_map]
  refine List.map_congr_left fun entry _ => ?_
  rw [Function.comp_apply]
  split <;> rfl

theorem dataUnder_append_self (unique : dict.keys.Nodup) (there : key ∈ dict.keys) :
    dataUnder (dict.append key sample) key = dataUnder dict key ++ [sample] := by
  induction dict with
  | nil => cases there
  | cons entry dict ih =>
      obtain ⟨k, o⟩ := entry
      by_cases same : k = key
      · subst same
        have first : Dict.append ((k, o) :: dict) k sample =
            (k, o.append sample) :: Dict.append dict k sample := by simp [Dict.append]
        rw [dataUnder, dataUnder, first, get_cons_self, get_cons_self]
        rfl
      · have first : Dict.append ((k, o) :: dict) key sample = (k, o) :: Dict.append dict key sample := by
          simp [Dict.append, same]
        have later : key ∈ Dict.keys dict := (List.mem_cons.mp there).resolve_left (Ne.symm same)
        rw [dataUnder, dataUnder, first, get_cons_of_ne (Ne.symm same), get_cons_of_ne (Ne.symm same)]
        exact ih (List.nodup_cons.mp unique).2 later

theorem dataUnder_append_of_ne (ne : k ≠ key) :
    dataUnder (dict.append key sample) k = dataUnder dict k := by
  induction dict with
  | nil => rfl
  | cons entry dict ih =>
      obtain ⟨k', o⟩ := entry
      have first : ∃ o', Dict.append ((k', o) :: dict) key sample = (k', o') :: Dict.append dict key sample ∧
          (k' ≠ key → o' = o) := by
        by_cases same : k' = key
        · exact ⟨o.append sample, by simp [Dict.append, same], fun other => (other same).elim⟩
        · exact ⟨o, by simp [Dict.append, same], fun _ => rfl⟩
      obtain ⟨o', split, kept⟩ := first
      by_cases here : k = k'
      · subst here
        rw [dataUnder, dataUnder, split, get_cons_self, get_cons_self, kept ne]
      · rw [dataUnder, dataUnder, split, get_cons_of_ne here, get_cons_of_ne here]
        exact ih

theorem dataUnder_new (c : Call T) (missing : c.key ∉ dict.keys) (key : Text) :
    dataUnder (dict ++ [(c.key, newObj c)]) key = dataUnder dict key := by
  induction dict with
  | nil =>
      by_cases same : key = c.key
      · subst same
        rw [List.nil_append, dataUnder, get_cons_self]
        rfl
      · rw [List.nil_append, dataUnder, get_cons_of_ne same]
        rfl
  | cons entry dict ih =>
      obtain ⟨k, o⟩ := entry
      obtain ⟨-, later⟩ := not_or.mp (fun mem => missing (List.mem_cons.mpr mem))
      rw [List.cons_append]
      by_cases same : key = k
      · subst same
        rw [dataUnder, dataUnder, get_cons_self, get_cons_self]
      · rw [dataUnder, dataUnder, get_cons_of_ne same, get_cons_of_ne same]
        exact ih later

theorem dataUnder_missing (missing : key ∉ dict.keys) : dataUnder dict key = [] := by
  rw [dataUnder, get_eq_none missing]
  rfl

/-- Its keys are distinct, and each object has the name it is under. -/
structure Proper (dict : Dict T V) : Prop where
  unique : dict.keys.Nodup
  named : ∀ entry ∈ dict, entry.2.name = entry.1

theorem Proper.nil : Proper ([] : Dict T V) := ⟨List.nodup_nil, by simp⟩

theorem Proper.new (h : Proper dict) (c : Call T) (missing : c.key ∉ dict.keys) :
    Proper (dict ++ [(c.key, newObj c)]) where
  unique := by
    rw [keys, List.map_append]
    refine List.nodup_append.mpr ⟨h.unique, List.nodup_singleton _, fun k old k' new => ?_⟩
    rw [List.mem_singleton.mp new]
    rintro rfl
    exact missing old
  named := by
    intro entry mem
    rcases List.mem_append.mp mem with old | new
    · exact h.named entry old
    · rw [List.mem_singleton.mp new]
      rfl

theorem Proper.append (h : Proper dict) : Proper (dict.append key sample) where
  unique := by
    rw [keys_append]
    exact h.unique
  named := by
    intro entry mem
    obtain ⟨old, inside, rfl⟩ := List.mem_map.mp mem
    have name := h.named old inside
    split <;> exact name

end Dict

/-- What the daemon holds: the shared dictionary between its two assignments, and after them one that
nobody else has. -/
def Daemon.Temp (s : State T V) : Daemon → Prop
  | .took temp => temp = s.importJson
  | .reset temp => temp ≠ s.importJson
  | .drain temp left => temp ≠ s.importJson ∧ left.Nodup ∧ ∀ key ∈ left, key ∈ (s.dicts temp).keys
  | .wrote temp key left => temp ≠ s.importJson ∧ (key :: left).Nodup ∧
      (∀ key ∈ left, key ∈ (s.dicts temp).keys) ∧
      ∃ obj, (key, obj) ∈ s.dicts temp ∧ s.tempJson = some obj
  | _ => True

structure Inv (float : Text → Option V) (s : State T V) : Prop extends Accounted float s where
  newer : s.importJson < s.fresh
  begun : ∀ i, s.stage i ≠ .start → i < s.calls.length
  ready : ∀ i c, s.stage i = .ready → s.calls[i]? = some c → c.key ∈ s.current.keys
  proper : ∀ id, Dict.Proper (s.dicts id)
  temp : s.daemon.Temp s

namespace Inv
variable {float : Text → Option V} {s s' : State T V} {i : ℕ} {c : Call T}

theorem start : Inv float ({} : State T V) where
  once _ := rfl
  each := ⟨List.nodup_nil, fun i => by simp⟩
  callLock i := by simp [Stage.Holds]
  daemonLock := by simp [Daemon.Holds]
  alive := ⟨fun i => by simp, by simp⟩
  newer := Nat.zero_lt_one
  begun i no := (no rfl).elim
  ready i c no := by cases no
  proper _ := .nil
  temp := trivial

theorem pending_drain {temp : ℕ} {left : List Text} (at_ : s.daemon = .drain temp left) (key : Text) :
    s.pendingUnder key = if key ∈ left then dataUnder (s.dicts temp) key else [] := by
  rw [State.pendingUnder, State.draining, at_]

theorem pending_wrote {temp : ℕ} {k : Text} {left : List Text} (at_ : s.daemon = .wrote temp k left)
    (key : Text) :
    s.pendingUnder key = if key ∈ k :: left then dataUnder (s.dicts temp) key else [] := by
  rw [State.pendingUnder, State.draining, at_]

theorem pending_reset {temp : ℕ} (at_ : s.daemon = .reset temp) (key : Text) :
    s.pendingUnder key = if key ∈ (s.dicts temp).keys then dataUnder (s.dicts temp) key else [] := by
  rw [State.pendingUnder, State.draining, at_]

/-- Two threads do not hold the lock at once. -/
theorem holds_unique (h : Inv float s) {j : ℕ} (first : (s.stage i).Holds) (second : (s.stage j).Holds) :
    i = j := by
  have eq := ((h.callLock i).mpr first).symm.trans ((h.callLock j).mpr second)
  cases eq
  rfl

theorem not_daemon (h : Inv float s) (holds : (s.stage i).Holds) : ¬ s.daemon.Holds := by
  intro daemon
  have eq := ((h.callLock i).mpr holds).symm.trans (h.daemonLock.mpr daemon)
  cases eq

theorem call (h : Inv float s) (c : Call T) : Inv float { s with calls := s.calls ++ [c] } :=
  { h with
    once := fun key => by
      refine Eq.trans ?_ (h.once key)
      refine List.filterMap_congr fun i mem => ?_
      have begun : s.stage i ≠ .start := by
        rcases (h.each.2 i).mp mem with eq | eq <;> simp [eq]
      rw [List.getElem?_append_left (h.begun i begun)]
    begun := fun i begun => by
      rw [List.length_append]
      exact (h.begun i begun).trans_le (Nat.le_add_right _ _)
    ready := fun i c (ready : s.stage i = .ready) at_ => by
      have begun : s.stage i ≠ .start := by simp [ready]
      rw [List.getElem?_append_left (h.begun i begun)] at at_
      exact h.ready i c ready at_ }

theorem each_setStage {stage : Stage} (h : Inv float s) (old : s.stage i ≠ .stored ∧ s.stage i ≠ .done)
    (new : stage ≠ .stored ∧ stage ≠ .done) :
    ∀ j, j ∈ s.arrived ↔ Function.update s.stage i stage j = .stored ∨
      Function.update s.stage i stage j = .done := by
  intro j
  rw [h.each.2 j]
  by_cases same : j = i
  · subst same
    rw [Function.update_self]
    exact iff_of_false (by simp [old]) (by simp [new])
  · rw [Function.update_of_ne same]

theorem begun_setStage {stage : Stage} (h : Inv float s) (here : i < s.calls.length) :
    ∀ j, Function.update s.stage i stage j ≠ .start → j < s.calls.length := by
  intro j begun
  by_cases same : j = i
  · rw [same]
    exact here
  · rw [Function.update_of_ne same] at begun
    exact h.begun j begun

theorem alive_setStage {stage : Stage} (h : Inv float s) (lives : stage ≠ .raised) :
    ∀ j, Function.update s.stage i stage j ≠ .raised := by
  intro j
  by_cases same : j = i
  · subst same
    rw [Function.update_self]
    exact lives
  · rw [Function.update_of_ne same]
    exact h.alive.1 j

theorem ready_setStage {stage : Stage} (h : Inv float s) (other : stage ≠ .ready) :
    ∀ j c, Function.update s.stage i stage j = .ready → s.calls[j]? = some c → c.key ∈ s.current.keys := by
  intro j c ready at_
  by_cases same : j = i
  · subst same
    rw [Function.update_self] at ready
    exact absurd ready other
  · rw [Function.update_of_ne same] at ready
    exact h.ready j c ready at_

theorem acquire (h : Inv float s) (here : i < s.calls.length) (idle : s.stage i = .start)
    (free : s.lock = none) : Inv float ({ s with lock := some (.call i) }.setStage i .locked) :=
  { h with
    each := ⟨h.each.1, h.each_setStage (by simp [idle]) (by simp)⟩
    callLock := fun j => by
      by_cases same : j = i
      · subst same
        simp [State.setStage, Stage.Holds]
      · have before := h.callLock j
        rw [free] at before
        have out : ¬ (s.stage j).Holds := fun holds => nomatch before.mpr holds
        simp [State.setStage, Function.update_of_ne same, Ne.symm same, out]
    daemonLock := by
      have before := h.daemonLock
      rw [free] at before
      refine iff_of_false (fun no => nomatch no) fun holds => nomatch before.mpr holds
    alive := ⟨h.alive_setStage (by simp), h.alive.2⟩
    begun := h.begun_setStage here
    ready := h.ready_setStage (by simp) }

theorem draining_apart (h : Inv float s) {temp : ℕ} {left : List Text}
    (drains : s.draining = some (temp, left)) : temp ≠ s.importJson := by
  have held := h.temp
  unfold State.draining at drains
  split at drains
  · next eq =>
      rw [eq] at held
      cases drains
      exact held
  · next eq =>
      rw [eq] at held
      cases drains
      exact held.1
  · next eq =>
      rw [eq] at held
      cases drains
      exact held.1
  · cases drains

theorem dicts_setDict {dict : Dict T V} {temp : ℕ} (apart : temp ≠ s.importJson) :
    (s.setDict dict).dicts temp = s.dicts temp := Function.update_of_ne apart _ _

theorem current_setDict {dict : Dict T V} : (s.setDict dict).current = dict :=
  Function.update_self ..

theorem pendingUnder_setDict (h : Inv float s) (dict : Dict T V) (key : Text) :
    (s.setDict dict).pendingUnder key = s.pendingUnder key := by
  have same : (s.setDict dict).draining = s.draining := by
    unfold State.draining
    have eq : (s.setDict dict).daemon = s.daemon := rfl
    rw [eq]
    split
    · next temp eq =>
        have apart := h.temp
        rw [eq] at apart
        rw [dicts_setDict apart]
    · rfl
    · rfl
    · rfl
  unfold State.pendingUnder
  rw [same]
  split
  · next drains => rw [dicts_setDict (h.draining_apart drains)]
  · rfl

theorem temp_setDict (h : Inv float s) (dict : Dict T V) (out : ¬ s.daemon.Holds) :
    s.daemon.Temp (s.setDict dict) := by
  have held := h.temp
  cases eq : s.daemon with
  | took temp =>
      rw [eq] at out
      exact (out trivial).elim
  | drain temp left =>
      rw [eq] at held
      exact ⟨held.1, held.2.1, by rw [dicts_setDict held.1]; exact held.2.2⟩
  | wrote temp key left =>
      rw [eq] at held
      refine ⟨held.1, held.2.1, ?_⟩
      rw [dicts_setDict held.1]
      exact held.2.2
  | reset temp =>
      rw [eq] at held
      exact held
  | idle => trivial
  | locked => trivial
  | raised => trivial

theorem proper_setDict {dict : Dict T V} (h : Inv float s) (proper : dict.Proper) (id : ℕ) :
    Dict.Proper ((s.setDict dict).dicts id) := by
  by_cases same : id = s.importJson
  · have eq : (s.setDict dict).dicts id = dict := by
      rw [same]
      exact current_setDict
    rw [eq]
    exact proper
  · rw [dicts_setDict same]
    exact h.proper id

theorem holds_locked (eq : s.stage i = .locked) : (s.stage i).Holds := .inl eq
theorem holds_ready (eq : s.stage i = .ready) : (s.stage i).Holds := .inr (.inl eq)
theorem holds_stored (eq : s.stage i = .stored) : (s.stage i).Holds := .inr (.inr eq)

theorem callLock_setStage {stage : Stage} (h : Inv float s) (holds : (s.stage i).Holds) (goes : stage.Holds) :
    ∀ j, s.lock = some (.call j) ↔ (Function.update s.stage i stage j).Holds := by
  intro j
  by_cases same : j = i
  · subst same
    rw [Function.update_self, h.callLock j]
    exact iff_of_true holds goes
  · rw [Function.update_of_ne same, h.callLock j]

/-- The entry for the key is there after the `if`, and nothing else has changed. -/
theorem enter_keeps (h : Inv float s) (holds : (s.stage i).Holds) (c : Call T) :
    c.key ∈ (s.enter c).current.keys ∧ Inv float (s.enter c) ∧ (s.enter c).stage = s.stage ∧
      (s.enter c).calls = s.calls := by
  unfold State.enter
  split
  · next there => exact ⟨there, h, rfl, rfl⟩
  · next missing =>
      refine ⟨?_, ?_, rfl, rfl⟩
      · rw [current_setDict, Dict.keys, List.map_append]
        exact List.mem_append_right _ List.mem_cons_self
      · exact { h with
          once := fun key => by
            rw [pendingUnder_setDict h, current_setDict, Dict.dataUnder_new c missing]
            exact h.once key
          ready := fun j c' ready at_ => by
            rw [current_setDict, Dict.keys, List.map_append]
            exact List.mem_append_left _ (h.ready j c' ready at_)
          proper := h.proper_setDict ((h.proper _).new c missing)
          temp := h.temp_setDict _ (h.not_daemon holds) }

theorem enter (h : Inv float s) (inside : s.stage i = .locked) (at_ : s.calls[i]? = some c) :
    Inv float ((s.enter c).setStage i .ready) := by
  obtain ⟨there, h', stage, calls⟩ := h.enter_keeps (holds_locked inside) c
  have inside' : (s.enter c).stage i = .locked := by rw [stage, inside]
  have here : i < (s.enter c).calls.length := h'.begun i (by simp [inside'])
  exact { h' with
    each := ⟨h'.each.1, h'.each_setStage (by simp [inside']) (by simp)⟩
    callLock := h'.callLock_setStage (holds_locked inside') (.inr (.inl rfl))
    alive := ⟨h'.alive_setStage (by simp), h'.alive.2⟩
    begun := h'.begun_setStage here
    ready := fun j c' ready at_' => by
      by_cases same : j = i
      · subst same
        have eq : (s.enter c).calls[j]? = some c := by rw [calls, at_]
        cases at_'.symm.trans eq
        exact there
      · simp only [State.setStage, Function.update_of_ne same] at ready
        exact h'.ready j c' ready at_' }

/-- One more sample, or none if it does not parse. -/
theorem arrivedUnder_append (at_ : s.calls[i]? = some c) (key : Text) :
    (s.arrived ++ [i]).filterMap (fun i => (s.calls[i]?).bind (sampleUnder float key)) =
      s.arrivedUnder float key ++ (sampleUnder float key c).toList := by
  rw [List.filterMap_append, State.arrivedUnder]
  congr 1
  rw [List.filterMap_cons, at_, Option.bind_some]
  cases sampleUnder float key c <;> rfl

theorem each_append (h : Inv float s) (inside : s.stage i = .ready) :
    (s.arrived ++ [i]).Nodup ∧ ∀ j, j ∈ s.arrived ++ [i] ↔
      Function.update s.stage i .stored j = .stored ∨ Function.update s.stage i .stored j = .done := by
  have new : i ∉ s.arrived := fun old => by
    rcases (h.each.2 i).mp old with eq | eq <;> rw [inside] at eq <;> cases eq
  constructor
  · refine List.nodup_append.mpr ⟨h.each.1, List.nodup_singleton _, fun j old k here => ?_⟩
    rw [List.mem_singleton.mp here]
    rintro rfl
    exact new old
  · intro j
    rw [List.mem_append, List.mem_singleton, h.each.2 j]
    by_cases same : j = i
    · subst same
      simp
    · rw [Function.update_of_ne same]
      simp [same]

theorem append_samples (h : Inv float s) (there : c.key ∈ s.current.keys) (at_ : s.calls[i]? = some c)
    (key : Text) :
    (s.append float i c).arrivedUnder float key =
      s.arrivedUnder float key ++ (sampleUnder float key c).toList ∧
    dataUnder (s.append float i c).current key =
      dataUnder s.current key ++ (sampleUnder float key c).toList ∧
    (s.append float i c).pendingUnder key = s.pendingUnder key ∧
    (s.append float i c).current.keys = s.current.keys ∧
    (s.append float i c).handed = s.handed := by
  have proper : Dict.Proper s.current := h.proper s.importJson
  rw [State.append, if_pos there]
  cases parsed : float c.val with
  | none =>
      have nothing : sampleUnder float key c = none := by simp [sampleUnder, parsed]
      refine ⟨arrivedUnder_append at_ key, ?_, rfl, rfl, rfl⟩
      rw [nothing, Option.toList_none, List.append_nil]
      rfl
  | some v =>
      have current : (((s.arrive i).setDict (s.current.append c.key (c.timestamp, v))).setStage i
          .stored).current = s.current.append c.key (c.timestamp, v) := Function.update_self ..
      refine ⟨arrivedUnder_append at_ key, ?_,
        pendingUnder_setDict h (s.current.append c.key (c.timestamp, v)) key, ?_, rfl⟩
      · rw [current]
        by_cases same : c.key = key
        · subst same
          rw [Dict.dataUnder_append_self proper.unique there]
          simp [sampleUnder, parsed]
        · rw [Dict.dataUnder_append_of_ne (Ne.symm same)]
          simp [sampleUnder, same]
      · rw [current, Dict.keys_append]

theorem append (h : Inv float s) (inside : s.stage i = .ready) (at_ : s.calls[i]? = some c) :
    Inv float (s.append float i c) := by
  have there := h.ready i c inside at_
  have here : i < s.calls.length := h.begun i (by simp [inside])
  have lock := h.callLock_setStage (holds_ready inside) (.inr (.inr rfl) : Stage.Holds .stored)
  have once : ∀ key, (s.append float i c).arrivedUnder float key = (s.append float i c).handedUnder key ++
      (s.append float i c).pendingUnder key ++ dataUnder (s.append float i c).current key := fun key => by
    obtain ⟨arrived, buffer, pending, -, handed⟩ := h.append_samples there at_ key
    rw [arrived, buffer, pending, State.handedUnder, handed, h.once key, List.append_assoc _ _ (_ ++ _),
      List.append_assoc, ← State.handedUnder]
    simp only [List.append_assoc]
  have keys := (h.append_samples there at_ c.key).2.2.2.1
  have ready : ∀ j c', Function.update s.stage i .stored j = .ready → s.calls[j]? = some c' →
      c'.key ∈ (s.append float i c).current.keys := fun j c' ready at_' => by
    by_cases same : j = i
    · subst same
      simp at ready
    · rw [Function.update_of_ne same] at ready
      rw [keys]
      exact h.ready j c' ready at_'
  rw [State.append, if_pos there] at once ready ⊢
  cases parsed : float c.val with
  | none =>
      rw [parsed] at once ready
      exact { h with
        once
        each := h.each_append inside
        callLock := lock
        alive := ⟨h.alive_setStage (by simp), h.alive.2⟩
        begun := h.begun_setStage here
        ready }
  | some v =>
      rw [parsed] at once ready
      exact { h with
        once
        each := h.each_append inside
        callLock := lock
        alive := ⟨h.alive_setStage (by simp), h.alive.2⟩
        begun := h.begun_setStage here
        ready
        proper := h.proper_setDict (h.proper s.importJson).append
        temp := h.temp_setDict _ (h.not_daemon (holds_ready inside)) }

theorem release (h : Inv float s) (inside : s.stage i = .stored) :
    Inv float ({ s with lock := none }.setStage i .done) := by
  have lock : s.lock = some (.call i) := (h.callLock i).mpr (holds_stored inside)
  have here : i < s.calls.length := h.begun i (by simp [inside])
  exact { h with
    each := ⟨h.each.1, fun j => by
      refine (h.each.2 j).trans ?_
      by_cases same : j = i
      · subst same
        simp [State.setStage, inside]
      · simp [State.setStage, Function.update_of_ne same]⟩
    callLock := fun j => by
      refine iff_of_false (fun no => nomatch no) fun holds => ?_
      by_cases same : j = i
      · subst same
        simp [State.setStage, Stage.Holds] at holds
      · simp only [State.setStage, Function.update_of_ne same] at holds
        exact same (h.holds_unique holds (holds_stored inside))
    daemonLock := iff_of_false (fun no => nomatch no) (h.not_daemon (holds_stored inside))
    alive := ⟨h.alive_setStage (by simp), h.alive.2⟩
    begun := h.begun_setStage here
    ready := h.ready_setStage (by simp) }

/-- While the daemon holds the lock no call does. -/
theorem not_call (h : Inv float s) (daemon : s.daemon.Holds) (j : ℕ) : ¬ (s.stage j).Holds :=
  fun holds => h.not_daemon holds daemon

theorem daemonAcquire (h : Inv float s) (idle : s.daemon = .idle) (free : s.lock = none) :
    Inv float { s with lock := some .daemon, daemon := .locked } :=
  { h with
    once := fun key => by
      have same := h.once key
      rw [State.pendingUnder, State.draining, idle] at same
      exact same
    callLock := fun j => by
      have before := h.callLock j
      rw [free] at before
      exact iff_of_false (fun no => nomatch no) fun holds => nomatch before.mpr holds
    daemonLock := iff_of_true rfl trivial
    alive := ⟨h.alive.1, by simp⟩
    temp := trivial }

theorem take (h : Inv float s) (at_ : s.daemon = .locked) :
    Inv float { s with daemon := .took s.importJson } :=
  { h with
    once := fun key => by
      have same := h.once key
      rw [State.pendingUnder, State.draining, at_] at same
      exact same
    daemonLock := iff_of_true (h.daemonLock.mpr (by rw [at_]; trivial)) trivial
    alive := ⟨h.alive.1, by simp⟩
    temp := rfl }

/-- The swap moves the whole dictionary from the buffer to the daemon. -/
theorem reset (h : Inv float s) {temp : ℕ} (at_ : s.daemon = .took temp) :
    Inv float { s with
      dicts := Function.update s.dicts s.fresh []
      importJson := s.fresh
      fresh := s.fresh + 1
      daemon := .reset temp } := by
  have held := h.temp
  rw [at_] at held
  obtain rfl : temp = s.importJson := held
  have daemon : s.daemon.Holds := by
    rw [at_]
    trivial
  have old : Function.update s.dicts s.fresh [] s.importJson = s.current :=
    Function.update_of_ne h.newer.ne _ _
  exact { h with
    once := fun key => by
      have same := h.once key
      rw [State.pendingUnder, State.draining, at_, List.append_nil] at same
      have pending : dataUnder s.current key = if key ∈ (Function.update s.dicts s.fresh [] s.importJson).keys
          then dataUnder (Function.update s.dicts s.fresh [] s.importJson) key else [] := by
        rw [old]
        split
        · rfl
        · next missing => exact Dict.dataUnder_missing missing
      have buffer : dataUnder (Function.update s.dicts s.fresh [] s.fresh) key = [] := by
        rw [Function.update_self]
        rfl
      rw [pending] at same
      refine same.trans ?_
      exact (List.append_nil _).symm.trans (congrArg₂ (· ++ ·) rfl buffer.symm)
    daemonLock := iff_of_true (h.daemonLock.mpr daemon) trivial
    alive := ⟨h.alive.1, by simp⟩
    newer := Nat.lt_succ_self _
    ready := fun j c ready at_ => (h.not_call daemon j (holds_ready ready)).elim
    proper := fun id => by
      by_cases new : id = s.fresh
      · simp only [new, Function.update_self]
        exact .nil
      · simp only [Function.update_of_ne new]
        exact h.proper id
    temp := h.newer.ne }

theorem daemonRelease (h : Inv float s) {temp : ℕ} {order : List Text} (at_ : s.daemon = .reset temp)
    (all : order.Perm (s.dicts temp).keys) :
    Inv float { s with lock := none, daemon := .drain temp order } := by
  have held := h.temp
  rw [at_] at held
  have daemon : s.daemon.Holds := by
    rw [at_]
    trivial
  exact { h with
    once := fun key => by
      have same := h.once key
      rw [pending_reset at_] at same
      simp only [← all.mem_iff] at same
      exact same
    callLock := fun j => iff_of_false (fun no => nomatch no) (h.not_call daemon j)
    daemonLock := iff_of_false (fun no => nomatch no) fun no => no
    alive := ⟨h.alive.1, by simp⟩
    temp := ⟨held, all.nodup_iff.mpr (h.proper temp).unique, fun key mem => all.mem_iff.mp mem⟩ }

theorem write (h : Inv float s) {temp : ℕ} {key : Text} {left : List Text}
    (at_ : s.daemon = .drain temp (key :: left)) : ∃ obj, (s.dicts temp).get key = some obj ∧
      Inv float { s with tempJson := some obj, daemon := .wrote temp key left } := by
  have held := h.temp
  rw [at_] at held
  obtain ⟨apart, unique, inside⟩ := held
  obtain ⟨first, rest⟩ := List.forall_mem_cons.mp inside
  obtain ⟨⟨k, obj⟩, mem, rfl⟩ := List.mem_map.mp first
  refine ⟨obj, Dict.get_of_mem (h.proper temp).unique mem, ?_⟩
  have out : ¬ s.lock = some .daemon := fun lock => by
    have holds := h.daemonLock.mp lock
    rw [at_] at holds
    exact holds
  exact { h with
    once := fun key => by
      have same := h.once key
      rw [pending_drain at_] at same
      exact same
    daemonLock := iff_of_false out fun no => no
    alive := ⟨h.alive.1, by simp⟩
    temp := ⟨apart, unique, rest, obj, mem, rfl⟩ }

/-- The file is handed over under its key. -/
theorem runImport (h : Inv float s) {temp : ℕ} {key : Text} {left : List Text}
    (at_ : s.daemon = .wrote temp key left) :
    Inv float { s with handed := s.handed ++ s.tempJson.toList, daemon := .drain temp left } := by
  have held := h.temp
  rw [at_] at held
  obtain ⟨apart, unique, rest, obj, mem, file⟩ := held
  obtain ⟨out, others⟩ := List.nodup_cons.mp unique
  have name : obj.name = key := (h.proper temp).named _ mem
  have data : dataUnder (s.dicts temp) key = obj.data := by
    rw [dataUnder, Dict.get_of_mem (h.proper temp).unique mem]
    rfl
  have free : ¬ s.lock = some .daemon := fun lock => by
    have holds := h.daemonLock.mp lock
    rw [at_] at holds
    exact holds
  exact { h with
    once := fun k => by
      have same := h.once k
      rw [pending_wrote at_] at same
      refine same.trans ?_
      refine congrArg (· ++ dataUnder s.current k) ?_
      have next : State.handedUnder
          { s with handed := s.handed ++ s.tempJson.toList, daemon := .drain temp left } k =
            s.handedUnder k ++ if key = k then obj.data else [] := by
        simp only [State.handedUnder, file, Option.toList_some, List.filter_append, List.flatMap_append]
        by_cases same : key = k <;> simp [name, same]
      rw [next, List.append_assoc]
      refine congrArg (s.handedUnder k ++ ·) ?_
      by_cases same : k = key
      · subst same
        have now : State.pendingUnder
            { s with handed := s.handed ++ s.tempJson.toList, daemon := .drain temp left } k = [] :=
          if_neg out
        rw [now, if_pos List.mem_cons_self, if_pos rfl, data, List.append_nil]
      · rw [if_neg (Ne.symm same), List.nil_append]
        simp only [List.mem_cons, same, false_or]
        rfl
    daemonLock := iff_of_false free fun no => no
    alive := ⟨h.alive.1, by simp⟩
    temp := ⟨apart, others, rest⟩ }

theorem finish (h : Inv float s) {temp : ℕ} (at_ : s.daemon = .drain temp []) :
    Inv float { s with daemon := .idle } := by
  have free : ¬ s.lock = some .daemon := fun lock => by
    have holds := h.daemonLock.mp lock
    rw [at_] at holds
    exact holds
  exact { h with
    once := fun k => by
      have same := h.once k
      rw [pending_drain at_] at same
      simp only [List.not_mem_nil, if_false] at same
      exact same
    daemonLock := iff_of_false free fun no => no
    alive := ⟨h.alive.1, by simp⟩
    temp := trivial }

/-- What a step does to the samples: those that arrive go to the buffer, and a swap empties it. -/
def Grows (float : Text → Option V) (s : State T V) (e : Event T) (s' : State T V) (key : Text) : Prop :=
  (e ≠ .reset ∧ ∃ more, s'.arrivedUnder float key = s.arrivedUnder float key ++ more ∧
    dataUnder s'.current key = dataUnder s.current key ++ more) ∨
  e = .reset ∧ s'.arrivedUnder float key = s.arrivedUnder float key ∧ dataUnder s'.current key = []

theorem Grows.same {e : Event T} {key : Text} (other : e ≠ .reset)
    (arrived : s'.arrivedUnder float key = s.arrivedUnder float key)
    (buffer : dataUnder s'.current key = dataUnder s.current key) : Grows float s e s' key :=
  .inl ⟨other, [], by rw [arrived, List.append_nil], by rw [buffer, List.append_nil]⟩

theorem grows_call (h : Inv float s) (c : Call T) (key : Text) :
    Grows float s (.call c) { s with calls := s.calls ++ [c] } key :=
  .same nofun (((h.call c).once key).trans (h.once key).symm) rfl

theorem grows_enter (c : Call T) (key : Text) :
    Grows float s (.enter i) ((s.enter c).setStage i .ready) key := by
  unfold State.enter
  split
  · exact .same nofun rfl rfl
  · next missing =>
      refine .same nofun rfl ?_
      have current : ((s.setDict (s.current ++ [(c.key, newObj c)])).setStage i .ready).current =
          s.current ++ [(c.key, newObj c)] := Function.update_self ..
      rw [current, Dict.dataUnder_new c missing]

theorem grows_append (h : Inv float s) (inside : s.stage i = .ready) (at_ : s.calls[i]? = some c)
    (key : Text) : Grows float s (.append i) (s.append float i c) key := by
  obtain ⟨arrived, buffer, -⟩ := h.append_samples (h.ready i c inside at_) at_ key
  exact .inl ⟨nofun, _, arrived, buffer⟩

theorem step (h : Inv float s) {e : Event T} (step : next float s e = some s') :
    Inv float s' ∧ ∀ key, Grows float s e s' key := by
  cases e with
  | call c =>
      cases step
      exact ⟨h.call c, h.grows_call c⟩
  | acquire i =>
      simp only [next] at step
      split at step
      · next ok =>
          cases step
          exact ⟨h.acquire ok.1 ok.2.1 ok.2.2, fun key => .same nofun rfl rfl⟩
      · cases step
  | enter i =>
      simp only [next] at step
      split at step
      · next inside =>
          obtain ⟨c, at_, rfl⟩ := Option.map_eq_some_iff.mp step
          exact ⟨h.enter inside at_, grows_enter c⟩
      · cases step
  | append i =>
      simp only [next] at step
      split at step
      · next inside =>
          obtain ⟨c, at_, rfl⟩ := Option.map_eq_some_iff.mp step
          exact ⟨h.append inside at_, h.grows_append inside at_⟩
      · cases step
  | release i =>
      simp only [next] at step
      split at step
      · next inside =>
          cases step
          exact ⟨h.release inside, fun key => .same nofun rfl rfl⟩
      · cases step
  | daemonAcquire =>
      simp only [next] at step
      split at step
      · next idle =>
          split at step
          · next free =>
              cases step
              exact ⟨h.daemonAcquire idle free, fun key => .same nofun rfl rfl⟩
          · cases step
      · cases step
  | take =>
      simp only [next] at step
      split at step
      · next at_ =>
          cases step
          exact ⟨h.take at_, fun key => .same nofun rfl rfl⟩
      · cases step
  | reset =>
      simp only [next] at step
      split at step
      · next temp at_ =>
          cases step
          refine ⟨h.reset at_, fun key => .inr ⟨rfl, rfl, ?_⟩⟩
          have empty : Function.update s.dicts s.fresh [] s.fresh = [] := Function.update_self ..
          exact congrArg (dataUnder · key) empty
      · cases step
  | daemonRelease order =>
      simp only [next] at step
      split at step
      · next temp at_ =>
          split at step
          · next all =>
              cases step
              exact ⟨h.daemonRelease at_ all, fun key => .same nofun rfl rfl⟩
          · cases step
      · cases step
  | write =>
      simp only [next] at step
      split at step
      · next temp key left at_ =>
          obtain ⟨obj, found, h'⟩ := h.write at_
          rw [found] at step
          cases step
          exact ⟨h', fun key => .same nofun rfl rfl⟩
      · cases step
  | runImport =>
      simp only [next] at step
      split at step
      · next temp key left at_ =>
          cases step
          exact ⟨h.runImport at_, fun key => .same nofun rfl rfl⟩
      · cases step
  | finish =>
      simp only [next] at step
      split at step
      · next temp at_ =>
          cases step
          exact ⟨h.finish at_, fun key => .same nofun rfl rfl⟩
      · cases step

/-- What has left the buffer stays in order, and a swap takes all that has arrived. -/
theorem settled_step (h : Inv float s) {e : Event T} (step : next float s e = some s') (key : Text) :
    s.arrivedUnder float key <+: s'.arrivedUnder float key ∧
      s.handedUnder key ++ s.pendingUnder key <+: s'.handedUnder key ++ s'.pendingUnder key ∧
      (e = .reset → s.arrivedUnder float key <+: s'.handedUnder key ++ s'.pendingUnder key) := by
  obtain ⟨h', grows⟩ := h.step step
  have before := h.once key
  have after := h'.once key
  rcases grows key with ⟨other, more, arrived, buffer⟩ | ⟨-, arrived, buffer⟩
  · have same : s'.handedUnder key ++ s'.pendingUnder key = s.handedUnder key ++ s.pendingUnder key := by
      rw [arrived, before, buffer, ← List.append_assoc] at after
      exact (List.append_cancel_right (List.append_cancel_right after)).symm
    refine ⟨arrived ▸ List.prefix_append _ _, same ▸ List.prefix_rfl, fun swap => (other swap).elim⟩
  · rw [buffer, List.append_nil, arrived] at after
    refine ⟨arrived ▸ List.prefix_rfl, ?_, fun _ => after ▸ List.prefix_rfl⟩
    rw [← after, before]
    exact List.prefix_append _ _

theorem settled_run (h : Inv float s) (events : List (Event T)) (run : events.foldlM (next float) s = some s')
    (key : Text) : Inv float s' ∧ s.arrivedUnder float key <+: s'.arrivedUnder float key ∧
      s.handedUnder key ++ s.pendingUnder key <+: s'.handedUnder key ++ s'.pendingUnder key := by
  induction events generalizing s with
  | nil =>
      cases run
      exact ⟨h, List.prefix_rfl, List.prefix_rfl⟩
  | cons e events ih =>
      rw [List.foldlM_cons] at run
      obtain ⟨m, first, rest⟩ := Option.bind_eq_some_iff.mp run
      obtain ⟨arrived, settled, -⟩ := h.settled_step first key
      obtain ⟨h', arrived', settled'⟩ := ih (h.step first).1 rest
      exact ⟨h', arrived.trans arrived', settled.trans settled'⟩

theorem of_reachable (run : (system T float).Reachable s) : Inv float s := by
  refine run.induct (I := Inv float) ?_ ?_
  · rintro s rfl
    exact .start
  · rintro s e s' h step
    exact (h.step step).1

end Inv

/-- In every interleaving each sample that parses gets into one file, in order and under its name. -/
theorem feeds_once (T : Type) {V : Type} (float : Text → Option V) : FeedsOnce T float where
  accounted s run := (Inv.of_reachable run).toAccounted
  handed s s' events reached run swap idle key := by
    obtain ⟨before, after, rfl⟩ := List.append_of_mem swap
    rw [List.foldlM_append] at run
    obtain ⟨m, first, rest⟩ := Option.bind_eq_some_iff.mp run
    rw [List.foldlM_cons] at rest
    obtain ⟨n, reset, rest⟩ := Option.bind_eq_some_iff.mp rest
    obtain ⟨hm, arrived, -⟩ := (Inv.of_reachable reached).settled_run before first key
    obtain ⟨-, -, taken⟩ := hm.settled_step reset key
    obtain ⟨-, -, settled⟩ := (hm.step reset).1.settled_run after rest key
    have none : s'.pendingUnder key = [] := by
      rw [State.pendingUnder, State.draining, idle]
    rw [none, List.append_nil] at settled
    exact arrived.trans ((taken rfl).trans settled)

def two : List (Event ℕ) :=
  [.call ⟨['d'], ['c', ' '], 1, ['5']⟩, .call ⟨['d'], ['c', ' '], 2, ['x']⟩, .acquire 0, .enter 0, .append 0,
    .release 0, .daemonAcquire, .take, .reset, .daemonRelease [['d', '.', 'c', '-']], .acquire 1, .enter 1, .write,
    .append 1, .runImport, .release 1, .finish]

example : (two.foldlM (next fun text => if text = ['5'] then some 5 else none) {}).map
    (fun s => (s.handed.map Obj.data, s.arrived)) = some ([[(1, 5)]], [0, 1]) := by decide

end Mio.Datastore.Feed
