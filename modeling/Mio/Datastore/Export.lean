import Mio.Lib.Merge
import Mio.Lib.Printf
import Mio.Datastore.Canonical
import Mio.Datastore.Interleavings
import Mio.Datastore.ReadBottommost

/-! `export`: all samples of some channels as lines of text. -/
namespace Mio.Datastore

def ascii (text : List Char) : Text := text.map fun c => c.toNat.toUInt8

/-- The digits of a number behind as many zeros as there is room for. -/
def padded (width n : ℕ) : List Char :=
  List.replicate (width - (Nat.toDigits 10 n).length) '0' ++ Nat.toDigits 10 n

/-- "%.9f" -/
def printFixed (x : ℚ) : Text :=
  let n := (roundEven (|x| * 10 ^ 9)).toNat
  ascii ((if x < 0 then ['-'] else []) ++ Nat.toDigits 10 (n / 10 ^ 9) ++ '.' :: padded 9 (n % 10 ^ 9))

def sixDigits (q : ℚ) : ℕ × ℤ :=
  let n := (roundEven (q * 10 ^ (5 - Int.log 10 q))).toNat
  if n = 10 ^ 6 then (10 ^ 5, Int.log 10 q + 1) else (n, Int.log 10 q)

/-- Digits behind a point. Zeros at the end are left out, and the point if nothing else is there. -/
def fraction (digits : List Char) : List Char :=
  let kept := (digits.reverse.dropWhile (· = '0')).reverse
  if kept.isEmpty then [] else '.' :: kept

/-- "%g" -/
def printG (x : ℚ) : Text :=
  if x = 0 then ascii ['0']
  else
    let digits := Nat.toDigits 10 (sixDigits |x|).1
    let e := (sixDigits |x|).2
    ascii ((if x < 0 then ['-'] else []) ++
      if 0 ≤ e ∧ e < 6 then digits.take (e.toNat + 1) ++ fraction (digits.drop (e.toNat + 1))
      else if -4 ≤ e ∧ e < 0 then '0' :: fraction (List.replicate (-e - 1).toNat '0' ++ digits)
      else digits.take 1 ++ fraction (digits.drop 1) ++
        'e' :: (if 0 ≤ e then '+' else '-') :: Printf.exponentDigits e.natAbs)

example : printFixed (3 / 2) = ascii "1.500000000".toList := by decide +kernel
example : printG (-1234567) = ascii "-1.23457e+06".toList := by decide +kernel
example : printG (1 / 80) = ascii "0.0125".toList := by decide +kernel

def tab : UInt8 := 9

def newline : UInt8 := 10

def formFeed : UInt8 := 12

/-- "%.9f\t%g\n" -/
def doubleLine (sample : Sample ℚ) : Text :=
  printFixed sample.time ++ tab :: (printG sample.value ++ [newline])

/-- "%.9f\t%s\n" -/
def stringLine (sample : Sample Text) : Text :=
  printFixed sample.time ++ tab :: (cStr sample.value ++ [newline])

/-- What is left of the two vectors stands for the two indexes. -/
def dumpSamples (requestedTimes : Range ℚ) : List (Sample ℚ) → List (Sample Text) → Text
  | [], [] => []
  | [], s :: strings =>
      (if requestedTimes.includes s.time then stringLine s else []) ++
        dumpSamples requestedTimes [] strings
  | d :: doubles, [] =>
      (if requestedTimes.includes d.time then doubleLine d else []) ++
        dumpSamples requestedTimes doubles []
  | d :: doubles, s :: strings =>
      if d.time ≤ s.time then
        (if requestedTimes.includes d.time then doubleLine d else []) ++
          dumpSamples requestedTimes doubles (s :: strings)
      else
        (if requestedTimes.includes s.time then stringLine s else []) ++
          dumpSamples requestedTimes (d :: doubles) strings

def Range.all : Range ℚ := ⟨-doubleMax, doubleMax⟩

inductive Line where
  | double (sample : Sample ℚ)
  | string (sample : Sample Text)

namespace Line

def time : Line → ℚ
  | double sample => sample.time
  | string sample => sample.time

def text : Line → Text
  | double sample => doubleLine sample
  | string sample => stringLine sample

/-- Of two lines at the same time the first one goes first. -/
def le (x y : Line) : Bool := x.time ≤ y.time

theorem le_iff {x y : Line} : x.le y ↔ x.time ≤ y.time := decide_eq_true_iff

theorem ordered {V : Type} {f : Sample V → Line} (timed : ∀ s, (f s).time = s.time) {l : List (Sample V)}
    (asc : Mio.Ascending DataSample.time l) : (l.map f).Pairwise fun x y => x.le y := by
  refine List.pairwise_map.mpr (asc.imp fun {s t} le => Line.le_iff.mpr ?_)
  rwa [timed, timed]

end Line

namespace Samples

def lines (u : Samples) : List Line := List.merge (u.doubles.map .double) (u.strings.map .string) Line.le

variable {u : Samples}

theorem lines_perm (u : Samples) : u.lines.Perm (u.doubles.map .double ++ u.strings.map .string) :=
  List.merge_perm_append _

theorem mem_lines {x : Line} (mem : x ∈ u.lines) : x.time ∈ u.times := by
  rcases List.mem_append.mp (u.lines_perm.mem_iff.mp mem) with mem | mem
  · obtain ⟨s, held, rfl⟩ := List.mem_map.mp mem
    exact mem_times.mpr (.inl ⟨s, held, rfl⟩)
  · obtain ⟨s, held, rfl⟩ := List.mem_map.mp mem
    exact mem_times.mpr (.inr ⟨s, held, rfl⟩)

theorem Ascending.lines (h : u.Ascending) : u.lines.Pairwise fun x y => x.time ≤ y.time := by
  have total : ∀ x y : Line, x.le y || y.le x := fun x y => by
    rw [Bool.or_eq_true, Line.le_iff, Line.le_iff]
    exact le_total _ _
  have transitive : ∀ x y z : Line, x.le y → y.le z → x.le z := fun x y z h h' => by
    rw [Line.le_iff] at *
    exact h.trans h'
  have doubles := Line.ordered (f := .double) (fun _ => rfl) h.1
  have strings := Line.ordered (f := .string) (fun _ => rfl) h.2
  exact (List.pairwise_merge transitive total _ _ doubles strings).imp fun le => Line.le_iff.mp le

/-- The loop of `dump_samples` merges. -/
theorem dumpSamples_eq (u : Samples) (times : Range ℚ) : dumpSamples times u.doubles u.strings =
    u.lines.flatMap fun x => if times.includes x.time then x.text else [] := by
  obtain ⟨doubles, strings⟩ := u
  unfold lines
  dsimp only
  fun_induction dumpSamples times doubles strings with
  | case1 => simp
  | case2 s strings ih =>
      rw [List.map_nil, List.nil_merge] at ih ⊢
      rw [ih]
      rfl
  | case3 d doubles ih =>
      rw [List.map_nil, List.merge_right] at ih ⊢
      rw [ih]
      rfl
  | case4 d doubles s strings first ih =>
      have before : (Line.double d).le (.string s) := Line.le_iff.mpr first
      rw [List.map_cons, List.map_cons, List.cons_merge_cons_pos _ _ _ before, List.flatMap_cons]
      rw [List.map_cons] at ih
      rw [ih]
      rfl
  | case5 d doubles s strings second ih =>
      have behind : ¬ (Line.double d).le (.string s) := mt Line.le_iff.mp second
      rw [List.map_cons, List.map_cons, List.cons_merge_cons_neg _ _ _ behind, List.flatMap_cons]
      rw [List.map_cons] at ih
      rw [ih]
      rfl

theorem dumpSamples_empty (empty : ∀ t, t ∉ u.times) (times : Range ℚ) :
    dumpSamples times u.doubles u.strings = [] := by
  rw [dumpSamples_eq, List.flatMap_eq_nil_iff]
  exact fun x mem => (empty _ (mem_lines mem)).elim

theorem lines_empty : empty.lines = [] := by simp [lines, empty]

end Samples

theorem dump_nothing {l : List (TileIndex × ExactTile)} (none : ∀ x ∈ l, ∀ t, t ∉ x.2.samples.times)
    (times : Range ℚ) : l.flatMap (fun x => dumpSamples times x.2.doubleSamples x.2.stringSamples) = [] :=
  List.flatMap_eq_nil_iff.mpr fun x mem => Samples.dumpSamples_empty (none x mem) times

/-- Tiles one after another are dumped as if they were one. -/
theorem dumpSamples_concat {l : List (TileIndex × ExactTile)} (times : Range ℚ)
    (apart : l.Pairwise fun x y => ∀ s ∈ x.2.samples.times, ∀ t ∈ y.2.samples.times, s < t) :
    l.flatMap (fun x => dumpSamples times x.2.doubleSamples x.2.stringSamples) =
      (concat l).lines.flatMap fun x => if times.includes x.time then x.text else [] := by
  have ordered : l.Pairwise fun x y =>
      (∀ a ∈ x.2.doubleSamples.map Line.double, ∀ b ∈ y.2.stringSamples.map Line.string, a.le b) ∧
        ∀ a ∈ y.2.doubleSamples.map Line.double, ∀ b ∈ x.2.stringSamples.map Line.string, ¬ a.le b := by
    refine apart.imp fun {x y} before => ⟨?_, ?_⟩
    · intro a memA b memB
      obtain ⟨s, held, rfl⟩ := List.mem_map.mp memA
      obtain ⟨t, held', rfl⟩ := List.mem_map.mp memB
      exact Line.le_iff.mpr
        (before _ (Samples.mem_times.mpr (.inl ⟨s, held, rfl⟩)) _
          (Samples.mem_times.mpr (.inr ⟨t, held', rfl⟩))).le
    · intro a memA b memB
      obtain ⟨s, held, rfl⟩ := List.mem_map.mp memA
      obtain ⟨t, held', rfl⟩ := List.mem_map.mp memB
      refine mt Line.le_iff.mp (not_le.mpr ?_)
      exact before _ (Samples.mem_times.mpr (.inr ⟨t, held', rfl⟩)) _
        (Samples.mem_times.mpr (.inl ⟨s, held, rfl⟩))
  have merged := flatMap_merge Line.le ordered
  have doubles : l.flatMap (fun x => x.2.doubleSamples.map Line.double) = (concat l).doubles.map .double := by
    rw [← (flatMap_leaves l).1, List.map_flatMap, List.flatMap_map]
  have strings : l.flatMap (fun x => x.2.stringSamples.map Line.string) = (concat l).strings.map .string := by
    rw [← (flatMap_leaves l).2, List.map_flatMap, List.flatMap_map]
  rw [doubles, strings] at merged
  rw [Samples.lines, ← merged, List.flatMap_assoc]
  exact List.flatMap_congr fun x _ => Samples.dumpSamples_eq x.2.samples times

def TileIndex.lowestLevel : ℤ := intMin

namespace Kvs

variable {kvs : Kvs}

theorem climbToLeftChild_settles (root ti : TileIndex) :
    Outcome.Settles fun fuel => climbToLeftChild (ε := Failure) root fuel ti := by
  intro n a ret
  induction n generalizing ti with
  | zero => cases ret
  | succ n ih =>
      dsimp only at ret ⊢
      rw [climbToLeftChild] at ret ⊢
      split at ret
      · next top => rwa [if_pos top]
      · next below =>
          rw [if_neg below]
          split at ret
          · next left => rwa [if_pos left]
          · next right =>
              rw [if_neg right]
              split at ret
              · next high => rwa [if_pos high]
              · next low =>
                  rw [if_neg low]
                  exact ih _ ret

theorem findLowestSuccessive_settles (root ti : TileIndex) :
    Outcome.Settles fun fuel => kvs.findLowestSuccessiveTile fuel root ti := by
  intro n a ret
  obtain ⟨left, climbed, found⟩ := Outcome.bind_eq_ret.mp ret
  refine Outcome.bind_eq_ret.mpr ⟨left, climbToLeftChild_settles root ti n left climbed, ?_⟩
  split at found
  · next null => rwa [if_pos null]
  · next proper =>
      rw [if_neg proper]
      exact findLowest_settles left.sibling _ n a found

theorem nextLowest_settles (root : TileIndex) (times : Range ℚ) (ti : TileIndex) :
    Outcome.Settles fun fuel => kvs.nextLowest root times fuel ti := by
  intro n a ret
  dsimp only [nextLowest] at ret ⊢
  split at ret
  · next null =>
      rw [if_pos null]
      exact findLowest_settles root _ n a ret
  · next proper =>
      rw [if_neg proper]
      exact findLowestSuccessive_settles root ti n a ret

theorem readBottommostLoop_settles (root : TileIndex) (times : Range ℚ)
    (callback : List (TileIndex × ExactTile) → Bool) (ti : TileIndex)
    (handed : List (TileIndex × ExactTile)) :
    Outcome.Settles fun fuel => kvs.readBottommostLoop root times callback fuel ti handed :=
  Reader.readTiles_settles rfl (nextLowest_settles root times) _ callback ti handed

end Kvs

/-- A time that `export` cannot miss. -/
def Printable (t : ℚ) : Prop := t < doubleMax

namespace Stored

variable {kvs : Kvs} {info : ChannelInfo} {tree : TileTree}

theorem leaves_apart (h : Stored kvs info tree) : (tree.leaves info.nonnegativeRootTileIndex).Pairwise
    fun x y => ∀ s ∈ x.2.samples.times, ∀ t ∈ y.2.samples.times, s < t := by
  rcases h.wf.shape with ⟨all, tile, leaf⟩ | ⟨regular, -⟩
  · dsimp only at leaf
    subst leaf
    exact List.pairwise_singleton _ _
  · have tiled := CellTree.leaves_tiled tree info.nonnegativeRootTileIndex
    refine tiled.pairwise.imp_of_mem fun {x y} memX memY behind s inX t inY => ?_
    have before := (h.wf.leaves_has regular x.1 x.2 memX s inX).2
    have later := (h.wf.leaves_has regular y.1 y.2 memY t inY).1
    exact before.trans_le (behind.trans later)

theorem mem_contents {x : TileIndex × ExactTile}
    (leaf : x ∈ tree.leaves info.nonnegativeRootTileIndex) {t : ℚ} (mem : t ∈ x.2.samples.times) :
    t ∈ (contents tree).times := by
  rw [contents_eq tree info.nonnegativeRootTileIndex]
  exact mem_times_concat.mpr ⟨x, leaf, mem⟩

theorem includes_all (h : Stored kvs info tree) {t : ℚ} (mem : t ∈ (contents tree).times) :
    Range.all.includes t := by
  obtain ⟨double, nonneg⟩ := h.double t mem
  have low : -doubleMax ≤ 0 := by decide +kernel
  exact ⟨low.trans nonneg, double.le_doubleMax⟩

theorem dump_leaves (h : Stored kvs info tree) :
    (tree.leaves info.nonnegativeRootTileIndex).flatMap
        (fun x => dumpSamples Range.all x.2.doubleSamples x.2.stringSamples) =
      (contents tree).lines.flatMap Line.text := by
  rw [dumpSamples_concat Range.all h.leaves_apart, ← contents_eq]
  exact List.flatMap_congr fun x mem => if_pos (h.includes_all (Samples.mem_lines mem))

/-- The leaves that the walk passes by have nothing to print. -/
theorem dump_walk (h : Stored kvs info tree) (printable : ∀ t ∈ (contents tree).times, Printable t) :
    ∃ handed, Outcome.Reaches (fun fuel => kvs.readBottommostLoop info.nonnegativeRootTileIndex Range.all
        (fun _ => true) fuel .null []) handed ∧
      handed.flatMap (fun x => dumpSamples Range.all x.2.doubleSamples x.2.stringSamples) =
        (contents tree).lines.flatMap Line.text := by
  obtain ⟨front, back, leaves, early, reaches⟩ := h.readBottommostLoop_reaches Range.all
  refine ⟨_, reaches, ?_⟩
  have late : ∀ y ∈ back.dropWhile (fun y => TileIndex.startTime y.1 < Range.all.max),
      Range.all.max ≤ TileIndex.startTime y.1 := h.late_of_dropWhile leaves
  have parts := leaves
  rw [← List.takeWhile_append_dropWhile (p := fun y => decide (TileIndex.startTime y.1 < Range.all.max))
    (l := back)] at parts
  have skipped := dump_nothing (fun x mem t inside => by
    have leaf := leaves ▸ List.mem_append_left back mem
    exact absurd (early x mem t inside) (not_lt.mpr (h.includes_all (mem_contents leaf inside)).1)) Range.all
  have cut := dump_nothing (fun x mem t inside => by
    have leaf := parts ▸ List.mem_append_right front (List.mem_append_right _ mem)
    have starts := ((h.wf.leaves x.1 x.2 leaf).inside t inside).1
    exact absurd (printable t (mem_contents leaf inside)) (not_lt.mpr ((late x mem).trans starts))) Range.all
  rw [← h.dump_leaves, parts, List.flatMap_append, List.flatMap_append, skipped, cut, List.nil_append,
    List.append_nil]

/-- The walk at the lowest level is the walk over the leaves. -/
theorem readTilesInRange_all (h : Stored kvs info tree) (fuel : ℕ) :
    kvs.readTilesInRange fuel Range.all (fun _ => true) TileIndex.lowestLevel =
      if ¬ info.times.intersects Range.all then .ret []
      else kvs.readBottommostLoop info.nonnegativeRootTileIndex Range.all (fun _ => true) fuel .null [] := by
  have read : kvs.readInfo = .ret (some info) := Channel.readInfo_stored h.metainfo h.magic
  have proper : Range.all.min < Range.all.max := by decide +kernel
  have deep : ∀ ti, kvs.hasTile ti → TileIndex.lowestLevel < ti.level := fun ti has =>
    lt_trans (by decide) (h.above_noLevel has)
  rw [Kvs.readBottommostLoop_eq deep (deep _ (Kvs.hasTile_of_some h.hasRoot)) _ _ fuel (.inl (by decide)),
    Kvs.readTilesInRange, read, Outcome.ret_bind]
  dsimp only
  rw [if_pos proper]
  rfl

theorem export_reaches (h : Stored kvs info tree) (printable : ∀ t ∈ (contents tree).times, Printable t) :
    ∃ handed, Outcome.Reaches
        (fun fuel => kvs.readTilesInRange fuel Range.all (fun _ => true) TileIndex.lowestLevel) handed ∧
      handed.flatMap (fun x => dumpSamples Range.all x.2.doubleSamples x.2.stringSamples) =
        (contents tree).lines.flatMap Line.text := by
  simp only [h.readTilesInRange_all]
  by_cases meets : info.times.intersects Range.all
  · simp only [if_neg (not_not.mpr meets)]
    exact h.dump_walk printable
  · refine ⟨[], ?_, ?_⟩
    · simp only [if_pos meets]
      exact .of_ret fun _ => rfl
    · rw [← h.dump_leaves, List.flatMap_nil]
      refine (dump_nothing (fun x leaf t inside => ?_) Range.all).symm
      exact h.not_includes meets leaf inside (h.includes_all (mem_contents leaf inside))

theorem locked_eq (h : Stored kvs info tree) : kvs.locked = kvs := by
  rw [Kvs.locked, h.metainfo]
  exact congrArg (fun record => (⟨record, kvs.tiles⟩ : Kvs)) h.metainfo.symm

theorem export_settles (h : Stored kvs info tree) : Outcome.Settles fun fuel =>
    kvs.readTilesInRange fuel Range.all (fun _ => true) TileIndex.lowestLevel := by
  intro n a ret
  dsimp only at ret ⊢
  rw [h.readTilesInRange_all] at ret ⊢
  split at ret
  · next apart => rwa [if_pos apart]
  · next meets =>
      rw [if_neg meets]
      exact Kvs.readBottommostLoop_settles _ _ _ _ _ n a ret

end Stored

namespace Runs

variable {ch : Channel} {bs : List Batch} {kvs : Kvs}

/-- What `export` prints of a channel that a run has left is a line for each last written sample. -/
theorem export_lines (run : Runs ch bs kvs) (printable : ∀ t ∈ (history bs).times, Printable t) {fuel : ℕ}
    {handed : List (TileIndex × ExactTile)}
    (ret : kvs.locked.readTilesInRange fuel Range.all (fun _ => true) TileIndex.lowestLevel = .ret handed) :
    handed.flatMap (fun x => dumpSamples Range.all x.2.doubleSamples x.2.stringSamples) =
      (history bs).lines.flatMap Line.text := by
  rcases run.contents_eq with ⟨rfl, none⟩ | ⟨info, tree, stored, same⟩
  · cases ret
    rw [none, Samples.lines_empty]
    rfl
  · rw [stored.locked_eq] at ret
    rw [← same] at printable ⊢
    obtain ⟨all, reaches, dumped⟩ := stored.export_reaches printable
    rw [stored.export_settles.unique ret reaches]
    exact dumped

theorem export_reaches (run : Runs ch bs kvs) (printable : ∀ t ∈ (history bs).times, Printable t) :
    ∃ handed, Outcome.Reaches
      (fun fuel => kvs.locked.readTilesInRange fuel Range.all (fun _ => true) TileIndex.lowestLevel) handed := by
  rcases run.contents_eq with ⟨rfl, -⟩ | ⟨info, tree, stored, same⟩
  · exact ⟨[], .of_ret fun _ => rfl⟩
  · obtain ⟨all, reaches, -⟩ := stored.export_reaches (same ▸ printable)
    exact ⟨all, stored.locked_eq.symm ▸ reaches⟩

theorem history_ascending (run : Runs ch bs kvs) : (history bs).Ascending := by
  rcases run.contents_eq with ⟨-, none⟩ | ⟨info, tree, stored, same⟩
  · rw [none]
    exact Samples.ascending_empty
  · exact same ▸ stored.wf.contents_ascending

end Runs

/-- "Time\t%s\n" and what the callback prints. -/
def exportSection (name dumped : Text) : Text :=
  ascii "Time".toList ++ tab :: (cStr name ++ newline :: dumped)

def handedTiles : Outcome String Result → List (TileIndex × ExactTile)
  | .ret (.tiles handed) => handed
  | _ => []

/-- What is printed in each of some calls that returned, one to a channel. -/
def exportSections (names : List Text) (answers : List (Outcome String Result)) : List Text :=
  List.zipWith (fun name answer => exportSection name ((handedTiles answer).flatMap fun x =>
    dumpSamples Range.all x.2.doubleSamples x.2.stringSamples)) names answers

/-- The standard output: form feeds go in between. -/
def exportPrinted (names : List Text) (answers : List (Outcome String Result)) : Text :=
  [formFeed].intercalate (exportSections names answers)

def exportWork (fuel : ℕ) (keyPrefix : Text) : Work where
  keyPrefix := keyPrefix
  job := .readTilesInRange fuel Range.all (fun _ => true) TileIndex.lowestLevel
  passes := .readTilesInRange
  finite := by rintro batch ⟨⟩

def returned : Outcome String Result → Bool
  | .ret _ => true
  | _ => false

/-- The loop over the arguments. Nothing catches an exception. -/
def exports (uid : BitVec 32) (names : List Text) (fuel : ℕ) (answers : List (Outcome String Result)) :
    Option Work :=
  if answers.all returned then
    (names[answers.length]?).map fun name => exportWork fuel (keyPrefix uid name)
  else none

theorem zipWith_concat {α β γ : Type} {f : α → β → γ} {as : List α} {bs : List β} {a : α} {b : β}
    (next : as[bs.length]? = some a) :
    List.zipWith f as (bs ++ [b]) = List.zipWith f as bs ++ [f a b] := by
  induction bs generalizing as with
  | nil =>
      cases as with
      | nil => cases next
      | cons x as =>
          cases next
          simp
  | cons y bs ih =>
      cases as with
      | nil => cases next
      | cons x as =>
          rw [List.cons_append, List.zipWith_cons_cons, List.zipWith_cons_cons, ih (by simpa using next)]
          rfl

/-- The sections with all last written samples of each channel behind some part of a log. -/
def historySections {P : Type} (uid : BitVec 32) (names : List Text)
    (befores : List (List (Completed P Work String Result))) : List Text :=
  List.zipWith (fun name before => exportSection name
    ((history (batches before (keyPrefix uid name))).lines.flatMap Line.text)) names befores

/-- What an exporting process has printed by the end of a log: for each of its calls, the samples that
were added by the calls before it. -/
structure Prints {P : Type} [DecidableEq P] (uid : BitVec 32) (names : List Text) (p : P)
    (log : List (Completed P Work String Result)) (befores : List (List (Completed P Work String Result))) :
    Prop where
  length : befores.length = (Shared.given log p).length
  own : ∀ before ∈ befores, ∃ e later, log = before ++ e :: later ∧ e.process = p
  ordered : befores.Pairwise fun a b => a.length < b.length
  printed : exportSections names (Shared.given log p) = historySections uid names befores
  sorted : ∀ name ∈ names, ∀ before ∈ befores,
    (history (batches before (keyPrefix uid name))).lines.Pairwise fun x y => x.time ≤ y.time

section
variable {limit : ℕ} {wide : ℤ → ℤ → ℤ} {P : Type} [DecidableEq P]
  {plan : P → List (Outcome String Result) → Option Work} {s : Shared P Text Record Work String Result}
  {p : P} {uid : BitVec 32} {names : List Text} {fuel : ℕ}

theorem runs_before (run : (processes limit wide plan fun _ => none).Reachable s)
    (returns : ∀ d ∈ s.log, d.call.keyPrefix ∈ names.map (keyPrefix uid) → ∃ r, d.outcome = .ret r)
    {before later : List (Completed P Work String Result)} (logged : s.log = before ++ later) {name : Text}
    (mem : name ∈ names) :
    ∃ kvs, Runs (settings limit wide) (batches before (keyPrefix uid name)) kvs := by
  obtain ⟨⟨left, -, sequential, -⟩, -⟩ := interleavings_sequential sortedStore_empty run
  rw [logged] at sequential
  obtain ⟨v, front⟩ := sequential.front
  obtain ⟨kvs, runs, -⟩ := front.runs (keyPrefix uid name) rfl fun d inside same =>
    returns d (logged ▸ List.mem_append_left _ inside) (same ▸ List.mem_map_of_mem mem)
  exact ⟨kvs, runs⟩

theorem export_call (run : (processes limit wide plan fun _ => none).Reachable s)
    (exporting : plan p = exports uid names fuel)
    (returns : ∀ d ∈ s.log, d.call.keyPrefix ∈ names.map (keyPrefix uid) → ∃ r, d.outcome = .ret r)
    (printable : ∀ d ∈ s.log, ∀ b, d.call.job.batch = some b → ∀ t ∈ b.samples.times, Printable t)
    {before later : List (Completed P Work String Result)} {e : Completed P Work String Result}
    (logged : s.log = before ++ e :: later) (own : e.process = p) :
    ∃ name, names[(Shared.given before p).length]? = some name ∧
      (handedTiles e.outcome).flatMap (fun x => dumpSamples Range.all x.2.doubleSamples x.2.stringSamples) =
        (history (batches before (keyPrefix uid name))).lines.flatMap Line.text := by
  have wanted := (Shared.follows_of_reachable run).logged before e later logged
  rw [own, exporting] at wanted
  unfold exports at wanted
  split at wanted
  · obtain ⟨name, next, call⟩ := Option.map_eq_some_iff.mp wanted
    have mem : ∀ d ∈ before, d ∈ s.log := fun d inside => logged ▸ List.mem_append_left _ inside
    have channel : keyPrefix uid name ∈ names.map (keyPrefix uid) :=
      List.mem_map_of_mem (List.mem_of_getElem? next)
    obtain ⟨r, ret⟩ := returns e (logged ▸ List.mem_append_right _ List.mem_cons_self) (call ▸ channel)
    obtain ⟨⟨left, -, sequential, -⟩, -⟩ := interleavings_sequential sortedStore_empty run
    rw [logged] at sequential
    obtain ⟨v, kvs', earlier, done⟩ := sequential.at_call ret
    obtain ⟨kvs, runs, state⟩ := earlier.runs e.call.keyPrefix rfl fun d inside same =>
      returns d (mem d inside) (by rw [same, ← call]; exact channel)
    have here : (settings limit wide).perform e.call.job kvs = .ret (r, kvs') := by
      rcases state with eq | eq
      · rwa [eq] at done
      · rwa [eq, perform_locked] at done
    rw [← call] at here runs
    obtain ⟨handed, read, same⟩ := Exec.read_bind_eq_ret.mp (Exec.modify_bind_eq_ret.mp here)
    cases same
    refine ⟨name, next, ?_⟩
    rw [ret]
    refine runs.export_lines (fun t inside => ?_) read
    obtain ⟨b, added, time⟩ := mem_times_history.mp inside
    obtain ⟨d, logged', eq⟩ := List.mem_filterMap.mp added
    exact printable d (mem d logged') b ((Option.ite_none_right_eq_some.mp eq).2) t time
  · cases wanted

/-- A call of the exporting process adds a section, and no other call changes what is printed. -/
theorem Prints.step {log : List (Completed P Work String Result)}
    {befores : List (List (Completed P Work String Result))} (h : Prints uid names p log befores)
    {e : Completed P Work String Result}
    (sorted : ∀ name ∈ names,
      (history (batches log (keyPrefix uid name))).lines.Pairwise fun x y => x.time ≤ y.time)
    (call : e.process = p → ∃ name, names[(Shared.given log p).length]? = some name ∧
      (handedTiles e.outcome).flatMap (fun x => dumpSamples Range.all x.2.doubleSamples x.2.stringSamples) =
        (history (batches log (keyPrefix uid name))).lines.flatMap Line.text) :
    ∃ befores, Prints uid names p (log ++ [e]) befores := by
  have own : ∀ before ∈ befores, ∃ d later, log ++ [e] = before ++ d :: later ∧ d.process = p := by
    intro before mem
    obtain ⟨d, later, eq, mine⟩ := h.own before mem
    exact ⟨d, later ++ [e], by rw [eq, List.append_assoc]; rfl, mine⟩
  by_cases mine : e.process = p
  · obtain ⟨name, next, dumped⟩ := call mine
    have here := next
    rw [← h.length] at here
    refine ⟨befores ++ [log], ?_, ?_, ?_, ?_, ?_⟩
    · rw [Shared.given_own mine, List.length_append, List.length_append, h.length]
      rfl
    · intro before mem
      rcases List.mem_append.mp mem with old | new
      · exact own before old
      · rw [List.mem_singleton.mp new]
        exact ⟨e, [], rfl, mine⟩
    · refine List.pairwise_append.mpr ⟨h.ordered, List.pairwise_singleton _ _, fun a old b new => ?_⟩
      obtain ⟨d, later, eq, -⟩ := h.own a old
      rw [List.mem_singleton.mp new, eq, List.length_append]
      simp
    · have before := h.printed
      unfold exportSections historySections at before ⊢
      rw [Shared.given_own mine, zipWith_concat next, zipWith_concat here, before, dumped]
    · intro other mem before inside
      rcases List.mem_append.mp inside with old | new
      · exact h.sorted other mem before old
      · rw [List.mem_singleton.mp new]
        exact sorted other mem
  · refine ⟨befores, ?_, own, h.ordered, ?_, h.sorted⟩
    · rw [Shared.given_other mine, h.length]
    · rw [Shared.given_other mine, h.printed]

/-- Channel by channel, an exporting process prints one line for each last written sample of the additions
that were completed before its call, and prints them by time. -/
theorem export_prints_histories (run : (processes limit wide plan fun _ => none).Reachable s)
    (exporting : plan p = exports uid names fuel)
    (returns : ∀ d ∈ s.log, d.call.keyPrefix ∈ names.map (keyPrefix uid) → ∃ r, d.outcome = .ret r)
    (printable : ∀ d ∈ s.log, ∀ b, d.call.job.batch = some b → ∀ t ∈ b.samples.times, Printable t) :
    ∃ befores, Prints uid names p s.log befores ∧
      exportPrinted names (s.answers p) = [formFeed].intercalate (historySections uid names befores) := by
  suffices ∀ front, front <+: s.log → ∃ befores, Prints uid names p front befores by
    obtain ⟨befores, prints⟩ := this s.log (List.prefix_refl _)
    exact ⟨befores, prints, congrArg _ prints.printed⟩
  intro front
  induction front using List.reverseRecOn with
  | nil =>
      refine fun _ => ⟨[], rfl, fun before mem => (List.not_mem_nil mem).elim, .nil, ?_,
        fun name _ before mem => (List.not_mem_nil mem).elim⟩
      rw [exportSections, historySections, List.zipWith_nil_right]
      exact List.zipWith_nil_right
  | append_singleton front e ih =>
      rintro ⟨later, logged⟩
      rw [List.append_assoc] at logged
      obtain ⟨befores, prints⟩ := ih ⟨[e] ++ later, logged⟩
      refine prints.step (fun name mem => ?_) fun mine =>
        export_call run exporting returns printable logged.symm mine
      obtain ⟨kvs, runs⟩ := runs_before run returns logged.symm mem
      exact runs.history_ascending.lines

end

def exportsLater (fuel : ℕ) : List (Outcome String Result) → Option Work := exports 1 [[97], [98]] fuel

/-- An export call comes behind three or four calls of a log with two export calls at its end. -/
theorem before_of_reader {x y z u v : Completed Party Work String Result} (doubles : x.process = .doubles)
    (doubles' : y.process = .doubles) (strings : z.process = .strings)
    {before later : List (Completed Party Work String Result)} {e : Completed Party Work String Result}
    (eq : [x, y, z, u, v] = before ++ e :: later) (mine : e.process = .reader) :
    before = [x, y, z] ∨ before = [x, y, z, u] := by
  match before, eq with
  | [], eq =>
      cases eq
      rw [doubles] at mine
      cases mine
  | [_], eq =>
      cases eq
      rw [doubles'] at mine
      cases mine
  | [_, _], eq =>
      cases eq
      rw [strings] at mine
      cases mine
  | [_, _, _], eq =>
      cases eq
      exact .inl rfl
  | [_, _, _, _], eq =>
      cases eq
      exact .inr rfl
  | _ :: _ :: _ :: _ :: _ :: [], eq => cases eq
  | _ :: _ :: _ :: _ :: _ :: _ :: _, eq => cases eq

/-- What an export of two channels has printed when its calls are the last two of five. -/
theorem Prints.last_two {x y z u v : Completed Party Work String Result} {uid : BitVec 32} {names : List Text}
    {befores : List (List (Completed Party Work String Result))}
    (h : Prints uid names .reader [x, y, z, u, v] befores) (doubles : x.process = .doubles)
    (doubles' : y.process = .doubles) (strings : z.process = .strings) (reader : u.process = .reader)
    (reader' : v.process = .reader) : befores = [[x, y, z], [x, y, z, u]] := by
  have length := h.length
  simp only [Shared.given, List.filterMap_cons, doubles, doubles', strings, reader, reader', List.filterMap_nil] at length
  obtain ⟨a, b, rfl⟩ := List.length_eq_two.mp length
  have place : ∀ before ∈ [a, b], before = [x, y, z] ∨ before = [x, y, z, u] := fun before mem => by
    obtain ⟨e, later, eq, mine⟩ := h.own before mem
    exact before_of_reader doubles doubles' strings eq mine
  have ordered := List.rel_of_pairwise_cons h.ordered List.mem_cons_self
  rcases place a List.mem_cons_self with rfl | rfl <;>
    rcases place b (List.mem_cons_of_mem _ List.mem_cons_self) with rfl | rfl
  · exact absurd ordered (lt_irrefl _)
  · rfl
  · exact absurd ordered (by simp)
  · exact absurd ordered (lt_irrefl _)

theorem lines_one : (history [.one 5]).lines.flatMap Line.text = ascii "1.000000000\t5\n".toList := by
  have lines : (history [.one 5]).lines = [.double ⟨1, 5, 1, 0⟩] := List.merge_right _
  rw [lines]
  decide +kernel

theorem lines_both : (history [.one 5, .word]).lines.flatMap Line.text =
    ascii "1.000000000\t5\n2.000000000\thi\n".toList := by
  have lines : (history [.one 5, .word]).lines = [.double ⟨1, 5, 1, 0⟩, .string ⟨2, [104, 105], 1, 0⟩] := by
    have first : Line.le (.double ⟨1, 5, 1, 0⟩) (.string ⟨2, [104, 105], 1, 0⟩) := by decide
    exact (List.cons_merge_cons_pos _ _ _ first).trans (congrArg _ (List.nil_merge _))
  rw [lines]
  decide +kernel

/-- While the export waits, a text joins the channel's number, and another process is at the second
channel. -/
theorem export_prints_histories_overlap : ∃ fuel r m s t,
    Overlap fuel (exportsLater fuel) (exportWork fuel someChannel) r m s ∧
      (partySystem fuel (exportsLater fuel)).Leads s t ∧
      exportPrinted [[97], [98]] (t.answers .reader) =
        ascii "Time\ta\n1.000000000\t5\n2.000000000\thi\n\x0cTime\tb\n1.000000000\t5\n".toList := by
  have one : ∀ t ∈ (Batch.one 5).samples.times, Printable t := fun t mem => by
    rw [Batch.mem_times_one.mp mem, Printable]
    exact_mod_cast nat_lt_doubleMax (n := 1) (by norm_num)
  have word : ∀ t ∈ Batch.word.samples.times, Printable t := fun t mem => by
    rw [Batch.mem_times_word.mp mem, Printable]
    exact_mod_cast nat_lt_doubleMax (n := 2) (by norm_num)
  have handed : ∀ {bs : List Batch} {kvs : Kvs}, Runs {} bs kvs → (∀ b ∈ bs, ∀ t ∈ b.samples.times, Printable t) →
      ∃ r, Exec.Reaches (fun fuel => (settings channelMaxTileSize fun _ _ => 0).perform
        (exportWork fuel someChannel).job) kvs r kvs.locked := by
    intro bs kvs run printable
    obtain ⟨handed, n, reads⟩ := run.export_reaches fun t mem => by
      obtain ⟨b, inside, mem⟩ := mem_times_history.mp mem
      exact printable b inside t mem
    exact ⟨.tiles handed, n, fun fuel enough =>
      Exec.modify_bind_eq_ret.mpr (Exec.read_bind_eq_ret.mpr ⟨handed, reads fuel enough, rfl⟩)⟩
  obtain ⟨kvs, n, run, overlap⟩ := overlaps exportsLater (fun fuel => exportWork fuel someChannel)
    (Q := fun _ => True) (fun _ => rfl) (fun _ => rfl) fun kvs run => by
      obtain ⟨r, reaches⟩ := handed run fun b mem => by
        rcases List.mem_pair.mp mem with rfl | rfl
        · exact one
        · exact word
      exact ⟨r, _, trivial, reaches⟩
  obtain ⟨r', n', reads⟩ := handed run fun b mem => by
    rw [List.mem_singleton.mp mem]
    exact one
  obtain ⟨r, m, s, -, overlap, sorted, other⟩ := overlap (max n n') (le_max_left _ _)
  have reads := reads (max n n') (le_max_right _ _)
  generalize max n n' = fuel at overlap reads
  obtain ⟨t', last, -⟩ := call_of_perform channelMaxTileSize (fun _ _ => 0) (exportWork fuel otherChannel) sorted
    other reads
  obtain ⟨q₁, q₂, q₃, log⟩ := overlap.log
  have answers : s.answers .reader = [.ret r] := by
    rw [Shared.answers, log]
    rfl
  have leads := Shared.leads_call overlap.reached (overlap.idle .reader) (c := exportWork fuel otherChannel)
    (by rw [answers]; rfl) (fun p c x inside => by rw [overlap.idle p] at inside; cases inside) last (by rintro ⟨⟩)
  refine ⟨fuel, r, m, s, _, overlap, leads, ?_⟩
  have reached := overlap.reached.leads leads
  rw [log] at reached ⊢
  have printable : ∀ d ∈ [⟨.doubles, addsOne fuel someChannel, .ret q₁⟩,
      ⟨.doubles, addsOne fuel otherChannel, .ret q₂⟩, ⟨.strings, addsWord fuel, .ret q₃⟩,
      ⟨.reader, exportWork fuel someChannel, .ret r⟩] ++
      [(⟨.reader, exportWork fuel otherChannel, .ret r'⟩ : Completed Party Work String Result)],
      ∀ b, d.call.job.batch = some b → ∀ t ∈ b.samples.times, Printable t := by
    intro d mem b batch
    simp only [List.cons_append, List.nil_append, List.mem_cons, List.not_mem_nil, or_false] at mem
    rcases mem with rfl | rfl | rfl | rfl | rfl <;> cases batch
    · exact one
    · exact one
    · exact word
  obtain ⟨befores, prints, printed⟩ := export_prints_histories reached (p := .reader) rfl (by simp) printable
  have calls := prints.last_two rfl rfl rfl rfl rfl
  subst calls
  refine printed.trans ?_
  have first : batches [(⟨.doubles, addsOne fuel someChannel, .ret q₁⟩ : Completed Party Work String Result),
      ⟨.doubles, addsOne fuel otherChannel, .ret q₂⟩, ⟨.strings, addsWord fuel, .ret q₃⟩] (keyPrefix 1 [97]) =
      [.one 5, .word] := rfl
  have second : batches [(⟨.doubles, addsOne fuel someChannel, .ret q₁⟩ : Completed Party Work String Result),
      ⟨.doubles, addsOne fuel otherChannel, .ret q₂⟩, ⟨.strings, addsWord fuel, .ret q₃⟩,
      ⟨.reader, exportWork fuel someChannel, .ret r⟩] (keyPrefix 1 [98]) = [.one 5] := rfl
  rw [historySections, List.zipWith_cons_cons, List.zipWith_cons_cons, List.zipWith_nil_right, first, second,
    lines_one, lines_both]
  decide +kernel

end Mio.Datastore
