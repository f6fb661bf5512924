import Mio.Datastore.KvsSimulation
import Mio.Datastore.LeafTiles
import Mio.Datastore.ReadData

/-! Processes that import into, read and export the channels of one store at the same time, each call
under the lock of its channel. -/
namespace Mio.Datastore

/-- A vector that gets past the checks of `add_data_internal`, which come before the lock. -/
def Passes {V : Type} (data : List (Sample V)) : Prop :=
  ∃ first rest, data = first :: rest ∧ 0 ≤ first.time ∧ Ascending DataSample.time data

def Batch.Passes : Batch → Prop
  | .doubles data => Datastore.Passes data
  | .strings data => Datastore.Passes data

/-- What a process does with a channel under its lock. The last is what `export` does. -/
inductive Job where
  | addData (fuel : ℕ) (batch : Batch)
  | readData (fuel : ℕ) (begin_ end_ : ℚ)
  | readTileOrClosestAncestor (fuel : ℕ) (ti : TileIndex)
  | readTilesInRange (fuel : ℕ) (times : Range ℚ) (callback : List (TileIndex × ExactTile) → Bool)
      (desiredLevel : ℤ)

inductive Job.Passes : Job → Prop
  | addData {fuel batch} (passes : batch.Passes) : Passes (.addData fuel batch)
  | readData {fuel begin_ end_} : Passes (.readData fuel begin_ end_)
  | readTileOrClosestAncestor {fuel ti} : Passes (.readTileOrClosestAncestor fuel ti)
  | readTilesInRange {fuel times callback desiredLevel} :
      Passes (.readTilesInRange fuel times callback desiredLevel)

inductive Result where
  | ranges (ranges : Option (DataRanges ℚ))
  | samples (data : List (Sample ℚ))
  | tile (found : Option (TileIndex × ExactTile))
  | tiles (handed : List (TileIndex × ExactTile))

/-- One process at a time. -/
def Channel.perform (ch : Channel) : Job → ChannelM Result
  | .addData fuel batch => do return .ranges (← ch.addData fuel batch)
  | .readData fuel begin_ end_ => do return .samples (← Channel.readData fuel begin_ end_)
  | .readTileOrClosestAncestor fuel ti => do
      return .tile (← Channel.readTileOrClosestAncestor ch.wideShift fuel ti)
  | .readTilesInRange fuel times callback desiredLevel => do
      Channel.lock
      return .tiles (← Exec.read fun kvs => kvs.readTilesInRange fuel times callback desiredLevel)

namespace KvsChannel

variable (ch : KvsChannel)

def addVector {V : Type} [SampleKind V] (fuel : ℕ) : List (Sample V) → StoreM (Option (DataRanges ℚ))
  | [] => return none
  | first :: rest =>
      ch.addSorted fuel ⟨first.time, ((first :: rest).getLast (List.cons_ne_nil first rest)).time⟩
        (first :: rest)

/-- The overloads of `add_data` inside the lock. -/
def addData (fuel : ℕ) : Batch → StoreM (Option (DataRanges ℚ))
  | .doubles data => ch.addVector fuel data
  | .strings data => ch.addVector fuel data

/-- A job inside its lock. -/
def perform : Job → StoreM Result
  | .addData fuel batch => do return .ranges (← ch.addData fuel batch)
  | .readData fuel begin_ end_ => do return .samples (← ch.readData fuel begin_ end_)
  | .readTileOrClosestAncestor fuel ti => do return .tile (← ch.readTileOrClosestAncestor fuel ti)
  | .readTilesInRange fuel times callback desiredLevel => do
      return .tiles (← ch.readTilesInRange fuel times callback desiredLevel)

/-- With the lock around it, a job that passes its checks does what `Channel::…` does. -/
theorem does_perform {job : Job} (passes : job.Passes) : ∃ rest : ChannelM Result,
    ch.toChannel.perform job = (Channel.lock >>= fun _ => rest) ∧ ch.Does (ch.perform job) rest := by
  have later : ∀ {α : Type} {x : StoreM α} {y : ChannelM α} (f : α → Result), ch.Does x y →
      ch.Does (do return f (← x)) (do return f (← y)) := fun f h => h.bind fun a => .pure (f a)
  have assoc : ∀ {α β : Type} (y : Unit → ChannelM α) (f : α → ChannelM β),
      ((Channel.lock >>= y) >>= f) = Channel.lock >>= fun u => y u >>= f := fun y f => rfl
  cases passes with
  | addData passes =>
      rename_i fuel batch
      have add : ∀ {V : Type} [SampleKind V] [NeverThrows V] {data : List (Sample V)}, Passes data →
          ∃ rest : ChannelM _, ch.toChannel.addDataInternal fuel data = (Channel.lock >>= fun _ => rest) ∧
            ch.Does (ch.addVector fuel data) rest := by
        rintro V _ _ data ⟨first, rest, rfl, nonneg, sorted⟩
        exact ⟨_, Channel.addDataInternal_sorted fuel nonneg sorted, ch.does_addSorted fuel _ _⟩
      cases batch with
      | doubles data =>
          obtain ⟨rest, eq, does⟩ := add passes
          refine ⟨_, ?_, later .ranges does⟩
          rw [Channel.perform, Channel.addData, eq]
          exact assoc _ _
      | strings data =>
          obtain ⟨rest, eq, does⟩ := add passes
          refine ⟨_, ?_, later .ranges does⟩
          rw [Channel.perform, Channel.addData, eq]
          exact assoc _ _
  | readData =>
      refine ⟨_, ?_, later .samples (ch.does_readData _ _ _)⟩
      exact assoc _ _
  | readTileOrClosestAncestor =>
      refine ⟨_, ?_, later .tile (ch.does_readClosest _ _)⟩
      exact assoc _ _
  | readTilesInRange => exact ⟨_, rfl, later .tiles (ch.does_readTilesInRange _ _ _ _)⟩

/-- The channel's own keys, as a lock guards them. -/
def locks : Locks Text Text Record where
  file keyPrefix := metainfoKey { keyPrefix }
  blank := .blank
  keys keyPrefix := Owns { keyPrefix }
  own _ := .inl rfl
  apart h g := Owns.same h g

section
variable {ch other : KvsChannel} {s t : Store}

theorem part_agree (h : Agree ch.Owns s t) : ch.part s = ch.part t := by
  unfold part
  rw [h _ (.inl rfl)]
  congr 1
  funext ti
  rw [h _ (ch.owns_tileKey ti)]

theorem Sorted.agree (sorted : ch.Sorted s) (h : Agree ch.Owns s t) : ch.Sorted t := by
  refine ⟨fun tile => ?_, fun ti r found => ?_⟩
  · rw [← h _ (.inl rfl)]
    exact sorted.1 tile
  · exact sorted.2 ti r ((h _ (ch.owns_tileKey ti)).trans found)

theorem part_touch (ch : KvsChannel) (s : Store) : ch.part (locks.touch ch.keyPrefix s) =
    { ch.part s with metainfo := some ((ch.part s).metainfo.getD none) } := by
  have touched : locks.touch ch.keyPrefix s =
      Function.update s ch.metainfoKey (some ((s ch.metainfoKey).getD .blank)) := rfl
  rw [touched, part_setInfo]
  change (⟨_, _⟩ : Kvs) = ⟨some (((s ch.metainfoKey).map Record.asInfo).getD none), _⟩
  cases s ch.metainfoKey <;> rfl

theorem touch_sorted (ch : KvsChannel) (sorted : ch.Sorted s) : ch.Sorted (locks.touch ch.keyPrefix s) := by
  have touched : locks.touch ch.keyPrefix s =
      Function.update s ch.metainfoKey (some ((s ch.metainfoKey).getD .blank)) := rfl
  rw [touched]
  refine sorted.setInfo fun tile eq => ?_
  cases found : s ch.metainfoKey with
  | none =>
      rw [found] at eq
      cases eq
  | some r =>
      rw [found] at eq
      cases eq
      exact sorted.1 tile found

end
end KvsChannel

def Job.batch : Job → Option Batch
  | .addData _ batch => some batch
  | _ => none

/-- A job for one channel, which gets past its checks. -/
structure Work where
  keyPrefix : Text
  job : Job
  passes : job.Passes
  finite : ∀ batch, job.batch = some batch → batch.FiniteTimes

section
variable (limit : ℕ) (wide : ℤ → ℤ → ℤ)

/-- The settings that all processes share; no set fails. -/
def settings : Channel := { maxTileSize := limit, wideShift := wide }

def Work.channel (w : Work) : KvsChannel := ⟨w.keyPrefix, limit, wide⟩

def jobs : Calls KvsChannel.locks Work String Result where
  lock := Work.keyPrefix
  body w := (w.channel limit wide).perform w.job
  within w := by
    obtain ⟨rest, -, does⟩ := (w.channel limit wide).does_perform w.passes
    exact does.inside

def processes {P : Type} [DecidableEq P] (plan : P → List (Outcome String Result) → Option Work)
    (start : Store) : System (Shared P Text Record Work String Result) P :=
  Shared.system (jobs limit wide) plan start

end

/-- All channels, by the part of the key in front. -/
abbrev World := Text → Kvs

/-- Jobs one after another, each on its own channel. An abort has no state: what it leaves of its channel
is open here, and is what `Calls.Serially` says. -/
inductive Sequential (ch : Channel) {P : Type} :
    World → List (Completed P Work String Result) → World → Prop
  | start {w} : Sequential ch w [] w
  | ret {w log w' p work r kvs} (before : Sequential ch w log w')
      (run : ch.perform work.job (w' work.keyPrefix) = .ret (r, kvs)) :
      Sequential ch w (log ++ [⟨p, work, .ret r⟩]) (Function.update w' work.keyPrefix kvs)
  | throw {w log w' p work what kvs} (before : Sequential ch w log w')
      (run : ch.perform work.job (w' work.keyPrefix) = .throw ⟨what, kvs, none⟩) :
      Sequential ch w (log ++ [⟨p, work, .throw what⟩]) (Function.update w' work.keyPrefix kvs)
  | abort {w log w' p work what kvs} (before : Sequential ch w log w')
      (run : ch.perform work.job (w' work.keyPrefix) = .abort what) :
      Sequential ch w (log ++ [⟨p, work, .abort what⟩]) (Function.update w' work.keyPrefix kvs)

def world (s : Store) : World := fun keyPrefix => KvsChannel.part { keyPrefix } s

/-- No key holds the other kind of record. -/
def SortedStore (s : Store) : Prop := ∀ keyPrefix, KvsChannel.Sorted { keyPrefix } s

theorem sortedStore_empty : SortedStore fun _ => none := fun p => ⟨fun tile => by rintro ⟨⟩, fun ti r => by rintro ⟨⟩⟩

section
variable {limit : ℕ} {wide : ℤ → ℤ → ℤ} {P : Type}

variable (limit wide) in
/-- A whole call keeps to its channel, and does there what the job does with no other process around. -/
theorem jobs_run (w : Work) {s : Store} (sorted : SortedStore s) :
    SortedStore ((jobs limit wide).run w s).2 ∧
      (∀ p, p ≠ w.keyPrefix → world ((jobs limit wide).run w s).2 p = world s p) ∧
      (settings limit wide).perform w.job (world s w.keyPrefix) =
        (w.channel limit wide).view.carry ((jobs limit wide).run w s) := by
  obtain ⟨rest, eq, does⟩ := (w.channel limit wide).does_perform w.passes
  have touched : (w.channel limit wide).Sorted (KvsChannel.locks.touch w.keyPrefix s) :=
    (w.channel limit wide).touch_sorted (sorted w.keyPrefix)
  obtain ⟨sorted', same⟩ := does.same _ touched
  have others : ∀ p, p ≠ w.keyPrefix →
      Agree (KvsChannel.Owns { keyPrefix := p }) s ((jobs limit wide).run w s).2 :=
    fun p ne => (Calls.run_other (T := jobs limit wide) (c := w) ne).symm
  refine ⟨fun p => ?_, fun p ne => (KvsChannel.part_agree (others p ne)).symm, ?_⟩
  · by_cases mine : p = w.keyPrefix
    · rw [mine]
      exact sorted'
    · exact (sorted p).agree (others p mine)
  · refine (congrFun eq _).trans ?_
    have part := (w.channel limit wide).part_touch s
    change rest { (w.channel limit wide).part s with
      metainfo := some (((w.channel limit wide).part s).metainfo.getD none) } = _
    rw [← part]
    exact same

/-- What whole calls on the store do to its channels. -/
theorem Sequential.of_serially {start left : Store} {log : List (Completed P Work String Result)}
    (h : (jobs limit wide).Serially start log left) (sorted : SortedStore start)
    (ended : ∀ e ∈ log, e.outcome ≠ .timeout) :
    SortedStore left ∧ Sequential (settings limit wide) (world start) log (world left) := by
  induction h with
  | start => exact ⟨sorted, .start⟩
  | @call log s t e serially run ih =>
      obtain ⟨sorted', before⟩ := ih fun d mem => ended d (List.mem_append_left _ mem)
      have last := ended e (List.mem_append_right _ List.mem_cons_self)
      obtain ⟨process, work, o⟩ := e
      obtain ⟨sorted'', others, own⟩ := jobs_run limit wide work sorted'
      dsimp only at run last
      rw [run] at sorted'' others own
      refine ⟨sorted'', ?_⟩
      have moved : world t = Function.update (world s) work.keyPrefix (world t work.keyPrefix) := by
        funext p
        by_cases mine : p = work.keyPrefix
        · rw [mine, Function.update_self]
        · rw [Function.update_of_ne mine, others p mine]
      rw [moved]
      cases o with
      | ret r => exact .ret before own
      | throw what => exact .throw before own
      | abort what => exact .abort before own
      | timeout => exact (last rfl).elim

end

end Mio.Datastore
