import Mio.Datastore.KvsChannel
import Mio.Datastore.ReadTiles

/-! The requests of a channel against the channel's own part of the store. -/
namespace Mio.Datastore

section
variable {ε ε' V : Type}

theorem climbToContain_alike (time : ℚ) (fuel : ℕ) (ti : TileIndex) :
    Outcome.Alike (TileIndex.climbToContain time fuel ti : Outcome ε TileIndex)
      (TileIndex.climbToContain time fuel ti : Outcome ε' TileIndex) := by
  induction fuel generalizing ti with
  | zero => exact .timeout
  | succ fuel ih =>
      rw [TileIndex.climbToContain, TileIndex.climbToContain]
      split
      · exact .ret _
      · exact ih _

theorem indexContaining_alike (fuel : ℕ) (times : Range ℚ) :
    Outcome.Alike (TileIndex.indexContaining fuel times : Outcome ε TileIndex)
      (TileIndex.indexContaining fuel times : Outcome ε' TileIndex) :=
  .bind (.assert _ _) fun _ => .bind (.assert _ _) fun _ => climbToContain_alike _ _ _

theorem insertSamplesHelper_alike (batch dest : List (Sample V)) :
    Outcome.Alike (insertSamplesHelper batch dest : Outcome ε (List (Sample V)))
      (insertSamplesHelper batch dest : Outcome ε' (List (Sample V))) :=
  .bind (.assert _ _) fun _ => .ret _

theorem insertDoubleSamples_alike (t : ExactTile) (batch : List (Sample ℚ)) :
    Outcome.Alike (t.insertDoubleSamples batch : Outcome ε ExactTile)
      (t.insertDoubleSamples batch : Outcome ε' ExactTile) :=
  .bind (insertSamplesHelper_alike _ _) fun _ => .ret _

theorem insertStringSamples_alike (t : ExactTile) (batch : List (Sample Text)) :
    Outcome.Alike (t.insertStringSamples batch : Outcome ε ExactTile)
      (t.insertStringSamples batch : Outcome ε' ExactTile) :=
  .bind (insertSamplesHelper_alike _ _) fun _ => .ret _

/-- The overload of `insert_samples` never throws. -/
class NeverThrows (V : Type) [SampleKind V] : Prop where
  insert_alike {ε ε' : Type} (t : ExactTile) (batch : List (Sample V)) :
    Outcome.Alike (SampleKind.insertSamples t batch : Outcome ε ExactTile)
      (SampleKind.insertSamples t batch : Outcome ε' ExactTile)

instance : NeverThrows ℚ := ⟨insertDoubleSamples_alike⟩

instance : NeverThrows Text := ⟨insertStringSamples_alike⟩

theorem splitSamples_alike (tile : ExactTile) (splitTime : ℚ) :
    Outcome.Alike (splitSamples tile splitTime : Outcome ε (ExactTile × ExactTile))
      (splitSamples tile splitTime : Outcome ε' (ExactTile × ExactTile)) :=
  .bind (insertDoubleSamples_alike _ _) fun _ => .bind (insertDoubleSamples_alike _ _) fun _ =>
    .bind (insertStringSamples_alike _ _) fun _ => .bind (insertStringSamples_alike _ _) fun _ => .ret _

theorem combineSamples_alike [SampleValue V] (n : ℕ) (index : TileIndex) (left right : List (Sample V)) :
    Outcome.Alike (combineSamples n index left right : Outcome ε (List (Sample V)))
      (combineSamples n index left right : Outcome ε' (List (Sample V))) := by
  refine .bind (.foldlM (fun bins sample => ?_) _ _) fun _ => .bind (.assert _ _) fun _ => .ret _
  exact .bind (.assert _ _) fun _ => .bind (.assert _ _) fun _ => .bind (.assert _ _) fun _ => .ret _

theorem createParent_alike (index : TileIndex) (parent left right : ExactTile) :
    Outcome.Alike (createParentTileFromChildren index parent left right : Outcome ε ExactTile)
      (createParentTileFromChildren index parent left right : Outcome ε' ExactTile) :=
  .bind (combineSamples_alike _ _ _ _) fun _ => .bind (.assert _ _) fun _ =>
    .bind (combineSamples_alike _ _ _ _) fun _ => .bind (.assert _ _) fun _ => .ret _

theorem climbToLeftChild_alike (root : TileIndex) (fuel : ℕ) (ti : TileIndex) :
    Outcome.Alike (Kvs.climbToLeftChild root fuel ti : Outcome ε TileIndex)
      (Kvs.climbToLeftChild root fuel ti : Outcome ε' TileIndex) := by
  induction fuel generalizing ti with
  | zero => exact .timeout
  | succ fuel ih =>
      rw [Kvs.climbToLeftChild, Kvs.climbToLeftChild]
      split
      · exact .ret _
      · split
        · exact .ret _
        · split
          · exact .ret _
          · exact ih _

end

def digitBytes (k : ℕ) : Text := (Nat.toDigits 10 k).map fun c => c.toNat.toUInt8

theorem digitBytes_toNat {k : ℕ} {c : Char} (mem : c ∈ Nat.toDigits 10 k) :
    c.toNat.toUInt8.toNat = c.toNat ∧ 48 ≤ c.toNat := by
  have bounds := Char.isDigit_iff_toNat.mp (Nat.isDigit_of_mem_toDigits (by decide) (by decide) mem)
  have zero : '0'.toNat = 48 := by decide
  have nine : '9'.toNat = 57 := by decide
  rw [Nat.toUInt8, UInt8.toNat_ofNat', Nat.mod_eq_of_lt] <;> omega

theorem digitBytes_inj {k l : ℕ} (h : digitBytes k = digitBytes l) : k = l := by
  have back : ∀ n, (digitBytes n).map (fun b => Char.ofNat b.toNat) = Nat.toDigits 10 n := by
    intro n
    rw [digitBytes, List.map_map]
    refine (List.map_congr_left fun c mem => ?_).trans (List.map_id _)
    rw [Function.comp_apply, (digitBytes_toNat mem).1, Char.ofNat_toNat]
    rfl
  have same : Nat.toDigits 10 k = Nat.toDigits 10 l := by rw [← back, h, back]
  rw [← Nat.ofDigitChars_ten_toDigits (n := k), same, Nat.ofDigitChars_ten_toDigits]

theorem minus_notMem_digitBytes (k : ℕ) : 45 ∉ digitBytes k := by
  intro mem
  obtain ⟨c, digit, eq⟩ := List.mem_map.mp mem
  obtain ⟨same, least⟩ := digitBytes_toNat digit
  rw [eq] at same
  have minus : (45 : UInt8).toNat = 45 := rfl
  omega

theorem printDecimal_inj {m n : ℤ} (h : printDecimal m = printDecimal n) : m = n := by
  change (if m < 0 then [45] else []) ++ digitBytes m.natAbs =
    (if n < 0 then [45] else []) ++ digitBytes n.natAbs at h
  have apart : ∀ {k l : ℕ}, 45 :: digitBytes k ≠ digitBytes l := by
    intro k l eq
    exact minus_notMem_digitBytes l (by rw [← eq]; exact List.mem_cons_self)
  split at h
  · split at h
    · have := digitBytes_inj (List.cons_inj_right 45 |>.mp h)
      omega
    · exact (apart h).elim
  · split at h
    · exact (apart h.symm).elim
    · have := digitBytes_inj h
      omega

namespace KvsChannel

variable {ch other : KvsChannel} {ti ti' : TileIndex}

theorem cut_tileKey (ch : KvsChannel) (ti : TileIndex) :
    cutLast dot (ch.tileKey ti) = some (ch.keyPrefix ++ dot :: printDecimal ti.level, printDecimal ti.offset) := by
  have plain : dot ∉ printDecimal ti.offset := fun mem => (printDecimal_plain mem).2 rfl
  rw [← cutLast_append _ plain, tileKey, List.append_assoc, List.cons_append]

theorem cut_metainfoKey (ch : KvsChannel) :
    cutLast dot ch.metainfoKey = some (ch.keyPrefix, infoSuffix.tail) :=
  cutLast_append _ (by decide)

/-- A tile's key tells the channel and the index. -/
theorem tileKey_inj (h : ch.tileKey ti = other.tileKey ti') : ch.keyPrefix = other.keyPrefix ∧ ti = ti' := by
  have cut := (ch.cut_tileKey ti).symm.trans ((congrArg (cutLast dot) h).trans (other.cut_tileKey ti'))
  obtain ⟨front, offset⟩ := Prod.mk.inj (Option.some.inj cut)
  have plain : ∀ n, dot ∉ printDecimal n := fun n mem => (printDecimal_plain mem).2 rfl
  have again := (cutLast_append ch.keyPrefix (plain ti.level)).symm.trans
    ((congrArg (cutLast dot) front).trans (cutLast_append other.keyPrefix (plain ti'.level)))
  obtain ⟨same, level⟩ := Prod.mk.inj (Option.some.inj again)
  refine ⟨same, ?_⟩
  cases ti
  cases ti'
  cases printDecimal_inj level
  cases printDecimal_inj offset
  rfl

theorem metainfoKey_inj (h : ch.metainfoKey = other.metainfoKey) : ch.keyPrefix = other.keyPrefix :=
  List.append_cancel_right h

theorem tileKey_ne_metainfoKey : ch.tileKey ti ≠ other.metainfoKey := by
  intro h
  have cut := (ch.cut_tileKey ti).symm.trans ((congrArg (cutLast dot) h).trans other.cut_metainfoKey)
  have offset : printDecimal ti.offset = infoSuffix.tail := (Prod.mk.inj (Option.some.inj cut)).2
  have letter : (111 : UInt8) ∈ printDecimal ti.offset := by
    rw [offset]
    decide
  rcases List.mem_append.mp letter with minus | digit
  · split at minus
    · exact absurd minus (by decide)
    · cases minus
  · obtain ⟨c, mem, eq⟩ := List.mem_map.mp digit
    have nine : '9'.toNat = 57 := by decide
    have bounds := Char.isDigit_iff_toNat.mp (Nat.isDigit_of_mem_toDigits (by decide) (by decide) mem)
    have same := (digitBytes_toNat mem).1
    rw [eq] at same
    have value : (111 : UInt8).toNat = 111 := rfl
    omega

def Owns (ch : KvsChannel) (key : Text) : Prop := key = ch.metainfoKey ∨ ∃ ti, key = ch.tileKey ti

theorem Owns.same {key : Text} (h : ch.Owns key) (g : other.Owns key) : ch.keyPrefix = other.keyPrefix := by
  rcases h with rfl | ⟨ti, rfl⟩ <;> rcases g with eq | ⟨ti', eq⟩
  · exact metainfoKey_inj eq
  · exact (tileKey_ne_metainfoKey eq.symm).elim
  · exact (tileKey_ne_metainfoKey eq).elim
  · exact (tileKey_inj eq).1

end KvsChannel

def Record.asInfo : Record → Option ChannelInfo
  | .info i => some i
  | _ => none

def Record.asTile : Record → Option ExactTile
  | .tile t => some t
  | _ => none

namespace KvsChannel

/-- The part of the store that belongs to the channel. -/
def part (ch : KvsChannel) (s : Store) : Kvs :=
  ⟨(s ch.metainfoKey).map Record.asInfo, fun ti => (s (ch.tileKey ti)).bind Record.asTile⟩

/-- No key holds the other kind of record. -/
def Sorted (ch : KvsChannel) (s : Store) : Prop :=
  (∀ tile, s ch.metainfoKey ≠ some (.tile tile)) ∧
    ∀ ti r, s (ch.tileKey ti) = some r → ∃ tile, r = .tile tile

def view (ch : KvsChannel) : Program.View Text Record Kvs String Failure :=
  ⟨ch.part, ch.Sorted, fun what left => ⟨what, left, none⟩⟩

def toChannel (ch : KvsChannel) : Channel := { maxTileSize := ch.maxTileSize, wideShift := ch.wideShift }

section
variable {ch : KvsChannel} {s : Store} {ti : TileIndex}

theorem hasTile_part (sorted : ch.Sorted s) (ti : TileIndex) :
    (ch.part s).hasTile ti = (s (ch.tileKey ti)).isSome := by
  change ((s (ch.tileKey ti)).bind Record.asTile).isSome = _
  cases found : s (ch.tileKey ti) with
  | none => rfl
  | some r =>
      obtain ⟨tile, rfl⟩ := sorted.2 ti r found
      rfl

theorem part_setTile (s : Store) (ti : TileIndex) (r : Option Record) :
    ch.part (Function.update s (ch.tileKey ti) r) =
      { ch.part s with tiles := Function.update (ch.part s).tiles ti (r.bind Record.asTile) } := by
  have tiles : (fun i => (Function.update s (ch.tileKey ti) r (ch.tileKey i)).bind Record.asTile) =
      Function.update (ch.part s).tiles ti (r.bind Record.asTile) := by
    funext i
    by_cases same : i = ti
    · subst same
      rw [Function.update_self, Function.update_self]
    · have ne : ch.tileKey i ≠ ch.tileKey ti := fun eq => same (tileKey_inj eq).2
      rw [Function.update_of_ne ne, Function.update_of_ne same]
      rfl
  rw [part, tiles, Function.update_of_ne (Ne.symm tileKey_ne_metainfoKey)]
  rfl

theorem part_setInfo (s : Store) (r : Option Record) :
    ch.part (Function.update s ch.metainfoKey r) = { ch.part s with metainfo := r.map Record.asInfo } := by
  have tiles : (fun i => (Function.update s ch.metainfoKey r (ch.tileKey i)).bind Record.asTile) =
      (ch.part s).tiles := by
    funext i
    rw [Function.update_of_ne tileKey_ne_metainfoKey]
    rfl
  rw [part, tiles, Function.update_self]

theorem Sorted.setTile (sorted : ch.Sorted s) (ti : TileIndex) {r : Option Record}
    (kind : ∀ record, r = some record → ∃ tile, record = .tile tile) :
    ch.Sorted (Function.update s (ch.tileKey ti) r) := by
  refine ⟨fun tile => ?_, fun i record found => ?_⟩
  · rw [Function.update_of_ne (Ne.symm tileKey_ne_metainfoKey)]
    exact sorted.1 tile
  · by_cases same : ch.tileKey i = ch.tileKey ti
    · rw [same, Function.update_self] at found
      exact kind record found
    · rw [Function.update_of_ne same] at found
      exact sorted.2 i record found

theorem Sorted.setInfo (sorted : ch.Sorted s) {r : Option Record}
    (kind : ∀ tile, r ≠ some (.tile tile)) : ch.Sorted (Function.update s ch.metainfoKey r) := by
  refine ⟨fun tile => ?_, fun i record found => ?_⟩
  · rw [Function.update_self]
    exact kind tile
  · rw [Function.update_of_ne tileKey_ne_metainfoKey] at found
    exact sorted.2 i record found

end

/-- The program works on the channel's keys alone, never deletes the info key, and does there what
`y` does. -/
structure Does (ch : KvsChannel) {α : Type} (x : StoreM α) (y : ChannelM α) : Prop where
  inside : x.Within ch.Owns ch.metainfoKey
  same : ch.view.Simulates x y

namespace Does

variable {ch : KvsChannel} {α β : Type}

theorem pure (a : α) : ch.Does (Pure.pure a) (Pure.pure a) := ⟨.pure a, .pure a⟩

theorem timeout : ch.Does (.done .timeout : StoreM α) Exec.timeout := ⟨.done _, .timeout⟩

theorem assert (p : Prop) [Decidable p] (w : String) :
    ch.Does (Program.assert p w) (Exec.assert p w) := ⟨.assert, .assert p w⟩

theorem alike {o : Outcome String α} {o' : Outcome Failure α} (h : o.Alike o') :
    ch.Does (.done o) (Exec.read fun _ => o') := ⟨.done o, .alike h⟩

theorem bind {x : StoreM α} {y : ChannelM α} {f : α → StoreM β} {g : α → ChannelM β}
    (first : ch.Does x y) (next : ∀ a, ch.Does (f a) (g a)) : ch.Does (x >>= f) (y >>= g) :=
  ⟨first.inside.bind fun a => (next a).inside, first.same.bind fun a => (next a).same⟩

theorem of_eq {x : StoreM α} {y y' : ChannelM α} (h : ch.Does x y) (eq : y' = y) : ch.Does x y' :=
  ⟨h.inside, h.same.of_eq eq⟩

end Does

section
variable (ch : KvsChannel)

theorem owns_tileKey (ti : TileIndex) : ch.Owns (ch.tileKey ti) := .inr ⟨ti, rfl⟩

theorem does_hasTile (ti : TileIndex) :
    ch.Does (ch.hasTile ti) (Exec.read fun kvs => .ret (kvs.hasTile ti)) := by
  refine ⟨.ask ⟨ch.owns_tileKey ti, by rintro ⟨⟩⟩, fun s sorted => ⟨sorted, ?_⟩⟩
  change Outcome.ret ((ch.part s).hasTile ti, ch.part s) = _
  rw [hasTile_part sorted]
  rfl

theorem does_readTile (ti : TileIndex) : ch.Does (ch.readTile ti) (Exec.read fun kvs => kvs.readTile ti) := by
  refine ⟨.bind (.ask ⟨ch.owns_tileKey ti, by rintro ⟨⟩⟩) fun found => ?_, fun s sorted => ?_⟩
  · split <;> exact .done _
  have look : (ch.part s).tiles ti = (s (ch.tileKey ti)).bind Record.asTile := rfl
  have asked : (Program.ask (.get (ch.tileKey ti)) : StoreM (Option Record)).run s =
      (.ret (s (ch.tileKey ti)), s) := rfl
  rw [readTile, Program.run_bind_ret asked]
  change _ ∧ (ch.part s).readTile ti >>= _ = _
  rw [Kvs.readTile, look]
  cases found : s (ch.tileKey ti) with
  | none => exact ⟨sorted, rfl⟩
  | some r =>
      obtain ⟨tile, rfl⟩ := sorted.2 ti r found
      exact ⟨sorted, rfl⟩

theorem does_readInfo : ch.Does ch.readInfo (Exec.read Kvs.readInfo) := by
  refine ⟨.bind (.ask ⟨.inl rfl, by rintro ⟨⟩⟩) fun found => ?_, fun s sorted => ?_⟩
  · split
    · exact .bind .assert fun _ => .pure _
    all_goals exact .done _
  have look : (ch.part s).metainfo = (s ch.metainfoKey).map Record.asInfo := rfl
  have asked : (Program.ask (.get ch.metainfoKey) : StoreM (Option Record)).run s =
      (.ret (s ch.metainfoKey), s) := rfl
  rw [readInfo, Program.run_bind_ret asked]
  change _ ∧ (ch.part s).readInfo >>= _ = _
  rw [Kvs.readInfo, look]
  cases found : s ch.metainfoKey with
  | none => exact ⟨sorted, rfl⟩
  | some r =>
      cases r with
      | blank => exact ⟨sorted, rfl⟩
      | tile tile => exact (sorted.1 tile found).elim
      | info info =>
          have checked : ch.view.Simulates (do
              Program.assert (info.magic = ChannelInfo.magicNumber) "info.magic == ChannelInfo::MAGIC"
              return some info) (Exec.read fun _ => do
              Outcome.assert (info.magic = ChannelInfo.magicNumber) "info.magic == ChannelInfo::MAGIC"
              return some info) :=
            .of_eq (.bind (.assert _ _) fun _ => .pure (some info)) (Exec.read_bind _ _)
          exact checked s sorted

theorem does_writeTile (ti : TileIndex) (tile : ExactTile) :
    ch.Does (ch.writeTile ti tile) (ch.toChannel.writeTile ti tile) := by
  refine ⟨.ask ⟨ch.owns_tileKey ti, by rintro ⟨⟩⟩, fun s sorted => ⟨sorted.setTile ti ?_, ?_⟩⟩
  · rintro record ⟨⟩
    exact ⟨tile, rfl⟩
  · change _ = Outcome.ret ((), ch.part (Function.update s (ch.tileKey ti) (some (.tile tile))))
    rw [part_setTile]
    rfl

/-- The answer of `del` is thrown away. -/
theorem does_deleteTile (ti : TileIndex) :
    ch.Does (do let _ ← ch.deleteTile ti) (Channel.deleteTile ti) := by
  have other : Request.del (ch.tileKey ti) ≠ (.del ch.metainfoKey : Request Text Record) :=
    fun eq => tileKey_ne_metainfoKey (Request.del.inj eq)
  refine ⟨.bind (.ask ⟨ch.owns_tileKey ti, other⟩) fun _ => .pure (), fun s sorted => ?_⟩
  refine ⟨sorted.setTile ti (by rintro record ⟨⟩), ?_⟩
  change _ = Outcome.ret ((), ch.part (Function.update s (ch.tileKey ti) none))
  rw [part_setTile]
  rfl

theorem does_writeInfo (info : ChannelInfo) :
    ch.Does (ch.writeInfo info) (ch.toChannel.writeInfo info) := by
  refine .bind (.assert _ _) fun _ => ⟨.ask ⟨.inl rfl, by rintro ⟨⟩⟩, fun s sorted => ?_⟩
  refine ⟨sorted.setInfo (by rintro tile ⟨⟩), ?_⟩
  change _ = Outcome.ret ((), ch.part (Function.update s ch.metainfoKey (some (.info info))))
  rw [part_setInfo]
  rfl

/-- The requests of the readers, one by one, are the looks of the readers at the part of the store. -/
theorem related : ch.reader.Related Kvs.reader (fun x y => ch.Does x (Exec.read y)) where
  pure a := .pure a
  bind first next := .of_eq (.bind first next) (Exec.read_bind _ _)
  hasTile := ch.does_hasTile
  readTile := ch.does_readTile
  assert p _ what := .assert p what
  timeout := .timeout

theorem does_findLowest (fuel : ℕ) (ti : TileIndex) (t : ℚ) :
    ch.Does (ch.findLowestChildOverlappingTime fuel ti t)
      (Exec.read fun kvs => kvs.findLowestChildOverlappingTime fuel ti t) :=
  ch.related.find _ _ _ fuel ti

theorem does_findChild (fuel : ℕ) (ti : TileIndex) (t : ℚ) (desiredLevel : ℤ) :
    ch.Does (ch.findChildOverlappingTime fuel ti t desiredLevel)
      (Exec.read fun kvs => kvs.findChildOverlappingTime fuel ti t desiredLevel) :=
  ch.related.find _ _ _ fuel ti

theorem does_findSuccessive (fuel : ℕ) (root ti : TileIndex) (desiredLevel : ℤ) :
    ch.Does (ch.findSuccessiveTile fuel root ti desiredLevel)
      (Exec.read fun kvs => kvs.findSuccessiveTile fuel root ti desiredLevel) := by
  refine .of_eq (.bind (.alike (climbToLeftChild_alike root fuel ti)) fun next => ?_)
    (Exec.read_bind (fun _ => Kvs.climbToLeftChild root fuel ti) _)
  by_cases null : next.isNull
  · simp only [if_pos null]
    exact .pure TileIndex.null
  · simp only [if_neg null]
    exact ch.does_findChild fuel _ _ desiredLevel

theorem does_nextTile (root : TileIndex) (times : Range ℚ) (desiredLevel : ℤ) (fuel : ℕ) (ti : TileIndex) :
    ch.Does (ch.nextTile root times desiredLevel fuel ti)
      (Exec.read fun kvs => kvs.nextTile root times desiredLevel fuel ti) := by
  unfold nextTile Kvs.nextTile
  by_cases null : ti.isNull
  · simp only [if_pos null]
    exact ch.does_findChild fuel root _ desiredLevel
  · simp only [if_neg null]
    exact ch.does_findSuccessive fuel root ti desiredLevel

theorem does_readTilesInRange (fuel : ℕ) (times : Range ℚ)
    (callback : List (TileIndex × ExactTile) → Bool) (desiredLevel : ℤ) :
    ch.Does (ch.readTilesInRange fuel times callback desiredLevel)
      (Exec.read fun kvs => kvs.readTilesInRange fuel times callback desiredLevel) := by
  refine .of_eq (.bind ch.does_readInfo fun found => ?_) (Exec.read_bind Kvs.readInfo _)
  cases found with
  | none => exact .pure []
  | some info =>
      by_cases apart : ¬ info.times.intersects times
      · simp only [if_pos apart]
        exact .pure []
      · by_cases point : times.min < times.max
        · simp only [if_neg apart, if_pos point]
          exact ch.related.readTiles _ (ch.does_nextTile _ times desiredLevel) _ callback fuel .null []
        · simp only [if_neg apart, if_neg point]
          exact .pure []

theorem does_readData (fuel : ℕ) (begin_ end_ : ℚ) :
    ch.Does (ch.readData fuel begin_ end_) (Exec.read Kvs.readInfo >>= fun found =>
      match found with
      | none => return []
      | some info => Exec.read fun kvs =>
          kvs.readDataLoop info.nonnegativeRootTileIndex begin_ end_ fuel begin_ []) := by
  refine .bind ch.does_readInfo fun found => ?_
  cases found with
  | none => exact .pure []
  | some info => exact ch.related.readData _ (fun fuel time => ch.does_findLowest fuel _ time) _ _ _ _ fuel begin_ []

theorem does_readClosest (fuel : ℕ) (ti : TileIndex) :
    ch.Does (ch.readTileOrClosestAncestor fuel ti) (Exec.read Kvs.readInfo >>= fun found =>
      match found with
      | none => return none
      | some info => Exec.read fun kvs =>
          kvs.closestAncestor ch.wideShift fuel info.nonnegativeRootTileIndex ti) := by
  refine .bind ch.does_readInfo fun found => ?_
  cases found with
  | none => exact .pure none
  | some info => exact ch.related.closest _ (fun root => ch.related.descend _ _ _ fuel root) _ _ ti

theorem does_splitChild {split : TileIndex → ExactTile → StoreM (TileIndex × ExactTile)}
    {split' : TileIndex → ExactTile → ChannelM (TileIndex × ExactTile)}
    (same : ∀ ti tile, ch.Does (split ti tile) (split' ti tile)) (child : TileIndex) (tile : ExactTile) :
    ch.Does (ch.splitChild split child tile) (ch.toChannel.splitChild split' child tile) := by
  refine .of_eq (.bind (ch.does_hasTile child)
    (g := fun there : Bool => Exec.assert (¬ there) "!has_tile(child_indexes[i])" >>= fun _ =>
      split' child tile >>= fun r => Exec.assert (r.1 = .null)
        "split_tile_if_needed(child_indexes[i], children[i]) == TileIndex::null()" >>= fun _ =>
          ch.toChannel.writeTile child r.2 >>= fun _ => pure r.2) fun there => ?_) rfl
  refine .bind (.assert _ _) fun _ => .bind (same _ _) fun r => ?_
  exact .bind (.assert _ _) fun _ => .bind (ch.does_writeTile child r.2) fun _ => .pure r.2

theorem does_splitInto {split : TileIndex → ExactTile → StoreM (TileIndex × ExactTile)}
    {split' : TileIndex → ExactTile → ChannelM (TileIndex × ExactTile)}
    (same : ∀ ti tile, ch.Does (split ti tile) (split' ti tile)) (index : TileIndex) (tile : ExactTile) :
    ch.Does (ch.splitInto split index tile) (ch.toChannel.splitInto split' index tile) := by
  refine .bind (.alike (splitSamples_alike tile _)) fun halves => ?_
  refine .bind (ch.does_splitChild same _ _) fun left => .bind (ch.does_splitChild same _ _) fun right => ?_
  exact .alike (createParent_alike index tile left right)

theorem does_splitTileIfNeeded (fuel : ℕ) (ti : TileIndex) (tile : ExactTile) :
    ch.Does (ch.splitTileIfNeeded fuel ti tile) (ch.toChannel.splitTileIfNeeded fuel ti tile) := by
  induction fuel generalizing ti tile with
  | zero => exact .timeout
  | succ fuel ih =>
      rw [splitTileIfNeeded, Channel.splitTileIfNeeded]
      by_cases fits : tile.binaryLength ≤ ch.maxTileSize
      · have fits' : tile.binaryLength ≤ ch.toChannel.maxTileSize := fits
        rw [if_pos fits, if_pos fits']
        exact .pure _
      · have long : ¬ tile.binaryLength ≤ ch.toChannel.maxTileSize := fits
        rw [if_neg fits, if_neg long]
        by_cases all : ti.isNonnegativeAll
        · rw [if_pos all, if_pos all]
          refine .bind (.alike (indexContaining_alike fuel _)) fun index => ?_
          exact .bind (ch.does_splitInto ih index tile) fun tile => .pure (index, tile)
        · rw [if_neg all, if_neg all]
          exact .bind (ch.does_splitInto ih ti tile) fun tile => .pure (TileIndex.null, tile)

theorem does_moveRootLoop (oldRootTile : ExactTile) (newRootIndex : TileIndex) (fuel : ℕ)
    (ti : TileIndex) :
    ch.Does (ch.moveRootLoop oldRootTile newRootIndex fuel ti)
      (ch.toChannel.moveRootLoop oldRootTile newRootIndex fuel ti) := by
  induction fuel generalizing ti with
  | zero => exact .timeout
  | succ fuel ih =>
      rw [moveRootLoop, Channel.moveRootLoop]
      by_cases ne : ti ≠ newRootIndex
      · rw [if_pos ne, if_pos ne]
        exact .bind (ch.does_writeTile _ _) fun _ => .bind (ch.does_writeTile _ _) fun _ => ih _
      · rw [if_neg ne, if_neg ne]
        exact .pure ()

section
variable {V : Type} [SampleKind V] [NeverThrows V]

theorem does_insertStep (fuel : ℕ) (st : Channel.AddState) (first : Sample V) (data : List (Sample V)) :
    ch.Does (ch.insertStep fuel st first data) (ch.toChannel.insertStep fuel st first data) := by
  refine .bind (ch.does_findLowest fuel st.root first.time) fun ti => .bind (.assert _ _) fun _ => ?_
  refine .bind (ch.does_readTile ti) fun tile => .bind (.alike (NeverThrows.insert_alike tile _)) fun tile => ?_
  refine .bind (ch.does_splitTileIfNeeded fuel ti tile) fun r => ?_
  obtain ⟨newRoot, tile⟩ := r
  dsimp only
  by_cases moved : newRoot ≠ .null
  · rw [if_pos moved, if_pos moved]
    refine .bind (.assert _ _) fun _ => ?_
    exact .bind (ch.does_deleteTile ti) fun _ => .bind (ch.does_writeTile newRoot tile) fun _ => .pure _
  · rw [if_neg moved, if_neg moved]
    exact .bind (ch.does_writeTile ti tile) fun _ => .pure _

theorem does_insertLoop (fuel : ℕ) (st : Channel.AddState) (data : List (Sample V)) :
    ch.Does (ch.insertLoop fuel st data) (ch.toChannel.insertLoop fuel st data) := by
  induction fuel generalizing st data with
  | zero => exact .timeout
  | succ fuel ih =>
      cases data with
      | nil => exact .pure st
      | cons first data => exact .bind (ch.does_insertStep fuel st first (first :: data)) fun r => ih r.1 r.2

end

theorem does_regenerateStep (st : Channel.AddState) (ti : TileIndex) :
    ch.Does (ch.regenerateStep st ti) (ch.toChannel.regenerateStep st ti) := by
  refine .bind (ch.does_readTile _) fun left => .bind (ch.does_readTile _) fun right => ?_
  refine .bind (.alike (createParent_alike ti .new left right)) fun regenerated => ?_
  exact .bind (ch.does_writeTile ti regenerated) fun _ => .pure _

theorem does_regenerateLoop (fuel : ℕ) (st : Channel.AddState) :
    ch.Does (ch.regenerateLoop fuel st) (ch.toChannel.regenerateLoop fuel st) := by
  induction fuel generalizing st with
  | zero => exact .timeout
  | succ fuel ih =>
      rw [regenerateLoop, Channel.regenerateLoop]
      cases st.toRegenerate with
      | nil => exact .pure st
      | cons ti rest => exact .bind (ch.does_regenerateStep _ ti) fun st => ih st

theorem does_prepareRoot (fuel : ℕ) (times : Range ℚ) :
    ch.Does (ch.prepareRoot fuel times) (ch.toChannel.prepareRoot fuel times) := by
  refine .bind ch.does_readInfo fun found => ?_
  cases found with
  | none => exact .bind (ch.does_writeTile .nonnegativeAll .new) fun _ => .pure _
  | some info =>
      dsimp only
      by_cases ne : info.nonnegativeRootTileIndex ≠ .nonnegativeAll
      · rw [if_pos ne, if_pos ne]
        refine .bind (.alike (indexContaining_alike fuel _)) fun newRoot => ?_
        by_cases higher : newRoot.level > info.nonnegativeRootTileIndex.level
        · rw [if_pos higher, if_pos higher]
          refine .bind (.assert _ _) fun _ => .bind ?_ fun _ => .pure _
          exact .bind (ch.does_readTile _) fun tile => ch.does_moveRootLoop tile newRoot fuel _
        · rw [if_neg higher, if_neg higher]
          exact .pure _
      · rw [if_neg ne, if_neg ne]
        exact .pure _

theorem does_addSorted {V : Type} [SampleKind V] [NeverThrows V] (fuel : ℕ) (times : Range ℚ)
    (data : List (Sample V)) :
    ch.Does (ch.addSorted fuel times data) (do
      let (info, toRegenerate) ← ch.toChannel.prepareRoot fuel times
      let st ← ch.toChannel.insertLoop fuel ⟨info.nonnegativeRootTileIndex, toRegenerate, none⟩ data
      let st ← ch.toChannel.regenerateLoop fuel st
      ch.toChannel.writeInfo { info with nonnegativeRootTileIndex := st.root }
      return st.channelRanges) := by
  refine .bind (ch.does_prepareRoot fuel times) fun r => .bind (ch.does_insertLoop fuel _ data) fun st => ?_
  refine .bind (ch.does_regenerateLoop fuel st) fun st => .bind (ch.does_writeInfo _) fun _ => ?_
  exact .pure _

end

end KvsChannel
end Mio.Datastore
