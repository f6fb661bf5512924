import Mathlib.Algebra.Group.Int.Defs
import Mathlib.Algebra.Group.Nat.Defs
import Mio.Lib.Printf

/-! `run_master_task` in `tile_server.cpp`: the rows of a slave's tile on their way into an import
request. -/
namespace Mio.Datastore.Migration
open Mio.Printf

structure Row where
  time : ℚ
  value : ℚ
deriving DecidableEq

/-- `-1e308` -/
def lineBreak : ℚ := -(0x11ccf385ebc8a0 * 2 ^ 971)

/-- What `asDouble` makes of null. -/
def nullRow : Row := ⟨0, 0⟩

/-- `gettile_json["data"]` once the loop has passed row 0: where row 0 is a break, `[1]` is read, and
an array without it gets it. -/
def touched : List Row → List Row
  | [row] => if row.value ≤ lineBreak then [row, nullRow] else [row]
  | data => data

/-- One `fprintf` of the loop. -/
structure Print where
  separator : Bool
  row : Row

def printRows (data : List Row) : ℕ → List Row → List Print
  | _, [] => []
  | j, row :: rest =>
      if row.value ≤ lineBreak then
        if j = 0 then ⟨false, data.getD 1 nullRow⟩ :: printRows data (j + 1) rest
        else printRows data (j + 1) rest
      else if j = 0 then ⟨false, row⟩ :: printRows data (j + 1) rest
      else ⟨true, row⟩ :: printRows data (j + 1) rest

def prints (data : List Row) : List Print := printRows (touched data) 0 (touched data)

/-- `[%#.16g, %#.16g]` -/
def Row.text (row : Row) : List Char :=
  '[' :: (printG row.time ++ ',' :: ' ' :: (printG row.value ++ [']']))

def Print.text (print : Print) : List Char :=
  (if print.separator then [',', '\n'] else []) ++ print.row.text

/-- The array behind `"data":` in the import request. -/
def importData (data : List Row) : List Char :=
  '[' :: '\n' :: ((prints data).flatMap Print.text ++ ['\n', ']'])

/-- All rows but the breaks. -/
def kept (data : List Row) : List Row := data.filter fun row => row.value ≠ lineBreak

/-- Every row that is no break is written once, in order, and the array is well-formed. -/
def Migrates (data : List Row) : Prop :=
  (prints data).map Print.row = kept data ∧ JsonText .value (importData data)

def above (data : List Row) : List Row := data.filter fun row => lineBreak < row.value

theorem printRows_later (data rows : List Row) (j : ℕ) :
    printRows data (j + 1) rows = (above rows).map fun row => ⟨true, row⟩ := by
  induction rows generalizing j with
  | nil => rfl
  | cons row rest ih =>
      unfold printRows above
      rw [List.filter_cons, ih]
      by_cases low : row.value ≤ lineBreak
      · simp [low, not_lt.mpr low, above]
      · simp [low, not_le.mp low, above]

/-- Row 0 decides which row is written first; it is the only one without a separator. -/
def first : List Row → Row
  | row :: rest => if row.value ≤ lineBreak then (rest.head?).getD nullRow else row
  | [] => nullRow

def behind : List Row → List Row
  | [row] => if row.value ≤ lineBreak then [nullRow] else []
  | data => data.tail

theorem printRows_zero (data : List Row) (row : Row) (rest : List Row) :
    printRows data 0 (row :: rest) =
      ⟨false, if row.value ≤ lineBreak then data.getD 1 nullRow else row⟩
        :: (above rest).map fun row => ⟨true, row⟩ := by
  unfold printRows
  rw [printRows_later]
  split <;> rfl

theorem prints_eq {data : List Row} (some : data ≠ []) :
    prints data = ⟨false, first data⟩ :: (above (behind data)).map fun row => ⟨true, row⟩ := by
  unfold prints
  match data with
  | [row] =>
      by_cases low : row.value ≤ lineBreak
      · simp [touched, behind, first, printRows_zero, low]
      · simp [touched, behind, first, printRows_zero, above, low]
  | row :: next :: rest =>
      by_cases low : row.value ≤ lineBreak
      · simp [touched, behind, first, printRows_zero, low]
      · simp [touched, behind, first, printRows_zero, low]

theorem map_row_prints {data : List Row} (some : data ≠ []) :
    (prints data).map Print.row = first data :: above (behind data) := by
  rw [prints_eq some, List.map_cons, List.map_map]
  exact congrArg _ (List.map_id _)

def NoneBelow (data : List Row) : Prop := ∀ row ∈ data, lineBreak ≤ row.value

theorem mem_above {data : List Row} {row : Row} :
    row ∈ above data ↔ row ∈ data ∧ lineBreak < row.value := by
  rw [above, List.mem_filter, decide_eq_true_eq]

theorem mem_kept {data : List Row} {row : Row} :
    row ∈ kept data ↔ row ∈ data ∧ row.value ≠ lineBreak := by
  rw [kept, List.mem_filter, decide_eq_true_eq]

theorem above_eq_kept_iff (data : List Row) : above data = kept data ↔ NoneBelow data := by
  constructor
  · intro same row mem
    by_contra below
    have lost : row ∈ above data := by
      rw [same]
      exact mem_kept.mpr ⟨mem, (not_le.mp below).ne⟩
    exact below (mem_above.mp lost).2.le
  · intro none
    refine List.filter_congr fun row mem => ?_
    rw [decide_eq_decide]
    exact ⟨ne_of_gt, fun ne => lt_of_le_of_ne (none row mem) ne.symm⟩

theorem kept_cons_break {row : Row} {rest : List Row} (isBreak : row.value = lineBreak) :
    kept (row :: rest) = kept rest :=
  List.filter_cons_of_neg (by simpa using isBreak)

theorem kept_cons {row : Row} {rest : List Row} (other : row.value ≠ lineBreak) :
    kept (row :: rest) = row :: kept rest :=
  List.filter_cons_of_pos (by simpa using other)

theorem above_cons {row : Row} {rest : List Row} (high : lineBreak < row.value) :
    above (row :: rest) = row :: above rest :=
  List.filter_cons_of_pos (by simpa using high)

theorem above_cons_low {row : Row} {rest : List Row} (low : row.value ≤ lineBreak) :
    above (row :: rest) = above rest :=
  List.filter_cons_of_neg (by simpa using low)

/-- Where row 0 is a break, row 1 lies below all breaks: it is written in its place. -/
def Regular : List Row → Prop
  | [] => True
  | row :: rest =>
      lineBreak < row.value ∧ NoneBelow rest ∨
        row.value = lineBreak ∧ ∃ next later, rest = next :: later ∧ next.value < lineBreak ∧ NoneBelow later

theorem lineBreak_neg : lineBreak < 0 := by
  unfold lineBreak
  norm_num

theorem written_alone {row : Row} (low : row.value ≤ lineBreak) :
    first [row] :: above (behind [row]) = [nullRow, nullRow] := by
  simp [first, behind, above, low, nullRow, lineBreak_neg]

theorem written_next {row next : Row} {later : List Row} (low : row.value ≤ lineBreak) :
    first (row :: next :: later) :: above (behind (row :: next :: later))
      = next :: above (next :: later) := by
  simp [first, behind, low]

theorem written_plain {row : Row} {rest : List Row} (high : lineBreak < row.value) :
    first (row :: rest) :: above (behind (row :: rest)) = row :: above rest := by
  cases rest <;> simp [first, behind, not_le.mpr high, above]

theorem next_written_iff {row next : Row} {later : List Row} (low : row.value ≤ lineBreak) :
    next :: above (next :: later) = kept (row :: next :: later)
      ↔ row.value = lineBreak ∧ next.value < lineBreak ∧ NoneBelow later := by
  constructor
  · intro same
    have nextKept : next ∈ kept (row :: next :: later) := same ▸ List.mem_cons_self
    have nextBreak := (mem_kept.mp nextKept).2
    rcases low.lt_or_eq with below | isBreak
    · -- row 0 is kept, and would have to be row 1
      rw [kept_cons below.ne, kept_cons nextBreak] at same
      obtain ⟨rfl, more⟩ := List.cons.inj same
      have lost : next ∈ above (next :: later) := by
        rw [more]
        exact List.mem_cons_self
      exact (not_lt.mpr below.le (mem_above.mp lost).2).elim
    · rw [kept_cons_break isBreak, kept_cons nextBreak, List.cons.injEq, and_iff_right rfl] at same
      rcases lt_or_gt_of_ne nextBreak with nextBelow | nextHigh
      · rw [above_cons_low nextBelow.le] at same
        exact ⟨isBreak, nextBelow, (above_eq_kept_iff later).mp same⟩
      · -- row 1 is written twice, so all rows behind it are above the breaks
        rw [above_cons nextHigh] at same
        have none : NoneBelow later := fun row mem => by
          by_contra below
          have lost : row ∈ next :: above later := same ▸ mem_kept.mpr ⟨mem, (not_le.mp below).ne⟩
          rcases List.mem_cons.mp lost with rfl | lost
          · exact below nextHigh.le
          · exact below (mem_above.mp lost).2.le
        rw [(above_eq_kept_iff later).mpr none] at same
        have length := congrArg List.length same
        rw [List.length_cons] at length
        omega
  · rintro ⟨isBreak, nextBelow, none⟩
    rw [kept_cons_break isBreak, kept_cons nextBelow.ne, above_cons_low nextBelow.le,
      (above_eq_kept_iff later).mpr none]

theorem written_iff (data : List Row) : (prints data).map Print.row = kept data ↔ Regular data := by
  cases data with
  | nil => exact iff_of_true rfl trivial
  | cons row rest =>
      rw [map_row_prints (List.cons_ne_nil _ _)]
      change _ ↔ _ ∨ _
      rcases le_or_gt row.value lineBreak with low | high
      · rw [or_iff_right fun no => not_lt.mpr low no.1]
        cases rest with
        | nil =>
            rw [written_alone low]
            refine iff_of_false (fun same => ?_) (fun no => ?_)
            · have length := congrArg List.length same
              have most := List.length_filter_le (fun row : Row => decide (row.value ≠ lineBreak)) [row]
              change 2 = (kept [row]).length at length
              change (kept [row]).length ≤ 1 at most
              omega
            · obtain ⟨-, next, later, no, -⟩ := no
              cases no
        | cons next later =>
            rw [written_next low, next_written_iff low]
            constructor
            · exact fun regular => ⟨regular.1, next, later, rfl, regular.2⟩
            · rintro ⟨isBreak, next', later', same, rest⟩
              cases same
              exact ⟨isBreak, rest⟩
      · rw [written_plain high, kept_cons high.ne', List.cons.injEq, and_iff_right rfl, above_eq_kept_iff]
        constructor
        · exact fun none => .inl ⟨high, none⟩
        · rintro (regular | regular)
          · exact regular.2
          · exact (high.ne' regular.1).elim

/-- Neither number has sixteen digits in front of the point. -/
def Pointed (row : Row) : Prop :=
  ∀ q ∈ [row.time, row.value], |q| < 10 ^ 15 - 1 / 20 ∨ 10 ^ 16 - 1 / 2 ≤ |q|

theorem pointed_iff (row : Row) : Pointed row ↔ ¬ Dotless row.time ∧ ¬ Dotless row.value := by
  have range (q : ℚ) : ¬ Dotless q ↔ |q| < 10 ^ 15 - 1 / 20 ∨ 10 ^ 16 - 1 / 2 ≤ |q| := by
    rw [dotless_iff, not_and_or, not_le, not_lt]
  rw [Pointed, range, range, List.forall_mem_cons, List.forall_mem_singleton]

theorem Row.jsonText {row : Row} (pointed : Pointed row) : JsonText .value row.text := by
  obtain ⟨dotTime, dotValue⟩ := (pointed_iff row).mp pointed
  have time : JsonText .elements (printG row.time) := by
    have element : JsonText .elements ([] ++ (printG row.time ++ [])) :=
      .element (by decide) (.number (number_printG dotTime)) (by decide)
    rwa [List.nil_append, List.append_nil] at element
  have value : JsonText .elements ([' '] ++ printG row.value) := by
    have element : JsonText .elements ([' '] ++ (printG row.value ++ [])) :=
      .element (by decide) (.number (number_printG dotValue)) (by decide)
    rwa [List.append_nil] at element
  have both := JsonText.array (time.elements value)
  rwa [List.append_assoc, List.cons_append, List.append_assoc, List.singleton_append] at both

def laterText (rows : List Row) : List Char :=
  rows.flatMap fun row => [',', '\n'] ++ row.text

theorem importData_eq {data : List Row} (some : data ≠ []) :
    importData data = '[' :: (('\n' :: ((first data).text ++ laterText (above (behind data)) ++ ['\n'])) ++ [']']) := by
  unfold importData laterText
  rw [prints_eq some, List.flatMap_cons, List.flatMap_map]
  simp [Print.text]

theorem jsonText_rows {row : Row} {rows : List Row} (pointed : ∀ r ∈ row :: rows, Pointed r) :
    JsonText .elements ('\n' :: (row.text ++ laterText rows ++ ['\n'])) := by
  induction rows generalizing row with
  | nil =>
      have element : JsonText .elements (['\n'] ++ (row.text ++ ['\n'])) :=
        .element (by decide) (row.jsonText (pointed row List.mem_cons_self)) (by decide)
      rw [laterText, List.flatMap_nil, List.append_nil]
      exact element
  | cons next rest ih =>
      have element : JsonText .elements (['\n'] ++ (row.text ++ [])) :=
        .element (by decide) (row.jsonText (pointed row List.mem_cons_self)) (by decide)
      have more := element.elements (ih fun r mem => pointed r (List.mem_cons_of_mem _ mem))
      have same : '\n' :: (row.text ++ laterText (next :: rest) ++ ['\n'])
          = ['\n'] ++ (row.text ++ []) ++ ',' :: '\n' :: (next.text ++ laterText rest ++ ['\n']) := by
        simp [laterText]
      rw [same]
      exact more

theorem pointed_of_dotted {row : Row} {before after : List Char}
    (dotted : JsonText.Dotted (before ++ (row.text ++ after))) : Pointed row := by
  refine (pointed_iff row).mpr ⟨?_, ?_⟩
  · intro dotless
    obtain ⟨t, eq⟩ := printG_dotless dotless
    obtain ⟨d, ds, same, digit⟩ := dotted (before ++ '[' :: t)
      (',' :: ' ' :: (printG row.value ++ ']' :: after)) (by simp [Row.text, eq])
    cases same
    exact absurd digit (by decide)
  · intro dotless
    obtain ⟨t, eq⟩ := printG_dotless dotless
    obtain ⟨d, ds, same, digit⟩ := dotted (before ++ '[' :: (printG row.time ++ ',' :: ' ' :: t))
      (']' :: after) (by simp [Row.text, eq])
    cases same
    exact absurd digit (by decide)

theorem exists_pointed_text {row : Row} {rows : List Row} (mem : row ∈ rows) :
    ∃ before after, laterText rows = before ++ (row.text ++ after) := by
  obtain ⟨front, back, rfl⟩ := List.append_of_mem mem
  refine ⟨laterText front ++ [',', '\n'], laterText back, ?_⟩
  simp [laterText]

theorem quote_notMem_text (row : Row) : '"' ∉ row.text := by
  have time := quote_notMem_printG row.time
  have value := quote_notMem_printG row.value
  simp [Row.text, time, value]

/-- The text is an array of JSON as soon as all its numbers are numbers of JSON. -/
theorem importData_iff (data : List Row) :
    JsonText .value (importData data) ↔ ∀ row ∈ (prints data).map Print.row, Pointed row := by
  by_cases none : data = []
  · subst none
    refine iff_of_true ?_ (fun row mem => (List.not_mem_nil mem).elim)
    have blank : JsonText.Blank ['\n', '\n'] := by decide
    exact JsonText.emptyArray blank
  · rw [importData_eq none, map_row_prints none]
    constructor
    · intro text row mem
      have plain : '"' ∉ laterText (above (behind data)) := by
        simp [laterText, quote_notMem_text]
      have dotted := text.dotted (by simp [quote_notMem_text, plain])
      rcases List.mem_cons.mp mem with rfl | mem
      · have around : JsonText.Dotted (['[', '\n'] ++
            ((first data).text ++ (laterText (above (behind data)) ++ ['\n', ']']))) := by
          simpa using dotted
        exact pointed_of_dotted around
      · obtain ⟨before, after, eq⟩ := exists_pointed_text mem
        rw [eq] at dotted
        have around : JsonText.Dotted ('[' :: '\n' :: ((first data).text ++ before) ++
            (row.text ++ (after ++ ['\n', ']']))) := by
          simpa using dotted
        exact pointed_of_dotted around
    · intro pointed
      exact JsonText.array (jsonText_rows pointed)

/-- Rows go through unless one lies below the breaks or the first one is a break; where row 1 lies below
the breaks, it goes into the place of a break in row 0. No number written has sixteen digits in front of
its point. -/
theorem migrates_iff (data : List Row) :
    Migrates data ↔ Regular data ∧ ∀ row ∈ kept data, Pointed row := by
  unfold Migrates
  rw [importData_iff]
  constructor
  · rintro ⟨same, pointed⟩
    rw [same] at pointed
    exact ⟨(written_iff data).mp same, pointed⟩
  · rintro ⟨regular, pointed⟩
    have same := (written_iff data).mpr regular
    rw [← same] at pointed
    exact ⟨same, pointed⟩

/-- The row behind a break in row 0 is written twice. -/
theorem second_row_twice : ¬ Migrates [⟨0, lineBreak⟩, ⟨1, 5⟩] := by
  rintro ⟨same, -⟩
  rw [map_row_prints (List.cons_ne_nil _ _), written_next le_rfl, kept_cons_break rfl] at same
  have high : lineBreak < 5 := lt_trans lineBreak_neg (by norm_num)
  rw [above_cons high, kept_cons high.ne'] at same
  cases same

end Mio.Datastore.Migration
