import Mathlib.Data.List.TakeDrop
import Mio.Datastore.TileServer

/-! What `is_tiling_request` of `tile_server.cpp` writes, with every place of a write checked, and what
it finds in the path of a request. -/
namespace Mio.Datastore.TileServer

/-- A string written into a row, with its null byte. -/
def store (s : TileServer) (i : ℕ) (arg : List Char) : Outcome Empty TileServer :=
  if i < maxHttpArgs ∧ arg.length < stdLen then .ret { s with httpArgs := s.httpArgs.set i arg }
  else .abort "http_args"

/-- `strncpy` into the row `n_http_args`. -/
def putChecked (s : TileServer) (arg : List Char) : Outcome Empty TileServer := do
  let s ← s.store s.nHttpArgs arg
  return { s with nHttpArgs := s.nHttpArgs + 1 }

def splitChecked (s : TileServer) (arg : List Char) : List Char → Outcome Empty TileServer
  | [] => if arg ≠ [] ∧ s.nHttpArgs < maxHttpArgs then s.putChecked arg else .ret s
  | c :: req =>
      if c = '+' ∨ c = '/' then do
        let s ← s.putChecked arg
        if maxHttpArgs ≤ s.nHttpArgs then .ret s else splitChecked s [] req
      else splitChecked s (arg ++ [c]) req

/-- The row before `n_http_args` is cut in place, and what follows its dot is copied. -/
def splitDotChecked (s : TileServer) : Outcome Empty TileServer :=
  match s.nHttpArgs with
  | 0 => .abort "http_args"
  | last + 1 =>
      let row := s.httpArgs.getD last []
      match row.dropWhile (· ≠ '.') with
      | [] => .ret s
      | _ :: offset => do
          let s ← s.store last (row.takeWhile (· ≠ '.'))
          let s ← s.store (last + 1) offset
          return { s with nHttpArgs := last + 2 }

/-- For `tiles` the dot of `.json` is overwritten. -/
def cutJson (s : TileServer) (fnamepnt : ℕ) (cmd : Command) : Outcome Empty TileServer :=
  let length := (cString s.filename fnamepnt).length
  if cmd ≠ .tiles then .ret s
  else if 5 ≤ length then .ret { s with filename := s.filename.set (fnamepnt + length - 5) nul }
  else .abort "req"

def isTilingRequestChecked (s : TileServer) (fnamepnt : ℕ) : Outcome Empty (Bool × TileServer) :=
  let req := cString s.filename fnamepnt
  match commandOf req with
  | none => .ret (false, { s with cmdType := none })
  | some cmd => do
      let s ← s.cutJson fnamepnt cmd
      let s ← splitChecked { s with cmdType := some cmd, nHttpArgs := 0 } [] (body cmd req)
      if cmd = .tiles ∧ s.nHttpArgs < maxHttpArgs then do
        let s ← s.splitDotChecked
        return (true, s)
      else return (true, s)

def separator (c : Char) : Bool := c = '+' || c = '/'

def components (cmd : Command) (req : List Char) : List (List Char) :=
  (body cmd req).splitOnP separator

/-- For `tiles` the last component is split once at its first dot. -/
def expected (cmd : Command) (req : List Char) : List (List Char) :=
  (if cmd = .tiles then cutDot (components cmd req) else components cmd req).take maxHttpArgs

/-- The call writes nothing but rows of `http_args` and the path itself, and the rows that it counts
are the components of the path. -/
def Meets (s : TileServer) (before req rest : List Char) : Prop :=
  ∃ found t, isTilingRequestChecked s before.length = .ret (found, t) ∧
    (∃ written, written.length = req.length ∧ t.filename = before ++ written ++ nul :: rest) ∧
    t.httpArgs.length = maxHttpArgs ∧
    (found → ∃ cmd, commandOf req = some cmd ∧
      t.httpArgs.take t.nHttpArgs = expected cmd req)

/-- No component that gets a row is longer than the row, and the last one, if it gets one, is not
empty and needs no second one. -/
def Room (cmd : Command) (req : List Char) : Prop :=
  (∀ c ∈ (components cmd req).take maxHttpArgs, c.length < stdLen) ∧
    (maxHttpArgs < (components cmd req).length ∨
      (components cmd req).getLastD [] ≠ [] ∧
        ¬ (cmd = .tiles ∧ (components cmd req).length = maxHttpArgs ∧
          '.' ∈ (components cmd req).getLastD []))

section
variable {s t : TileServer} {arg : List Char}

theorem putChecked_eq (room : s.nHttpArgs < maxHttpArgs) : s.putChecked arg = s.put arg := by
  unfold putChecked store put
  by_cases short : arg.length < stdLen
  · rw [if_pos ⟨room, short⟩, if_pos short]
    rfl
  · rw [if_neg fun both => short both.2, if_neg short]
    rfl

theorem splitChecked_eq (req : List Char) (room : s.nHttpArgs < maxHttpArgs) :
    splitChecked s arg req = split s arg req := by
  induction req generalizing s arg with
  | nil =>
      unfold splitChecked split
      rw [putChecked_eq room]
  | cons c req ih =>
      unfold splitChecked split
      rw [putChecked_eq room]
      by_cases sep : c = '+' ∨ c = '/'
      · rw [if_pos sep, if_pos sep]
        congr 1
        funext t
        by_cases full : maxHttpArgs ≤ t.nHttpArgs
        · rw [if_pos full, if_pos full]
        · rw [if_neg full, if_neg full, ih (not_le.mp full)]
      · rw [if_neg sep, if_neg sep, ih room]

/-- The parts of a row fit into rows. -/
theorem splitDotChecked_overlay {args : List (List Char)} (some : args ≠ [])
    (room : args.length < maxHttpArgs) (short : ∀ p ∈ args, p.length < stdLen) :
    (s.overlay args).splitDotChecked = .ret (s.overlay args).splitDot := by
  obtain ⟨front, last, rfl⟩ : ∃ front last, args = front ++ [last] :=
    ⟨args.dropLast, args.getLast some, (List.dropLast_append_getLast some).symm⟩
  have fits := short last (by simp)
  have count : (s.overlay (front ++ [last])).nHttpArgs = front.length + 1 := by simp [overlay]
  have row : (s.overlay (front ++ [last])).httpArgs.getD front.length [] = last := by simp [overlay]
  rw [List.length_append, List.length_singleton] at room
  rw [splitDotChecked, splitDot, count]
  simp only [Nat.add_sub_cancel, row]
  cases dots : last.dropWhile (· ≠ '.') with
  | nil => rfl
  | cons dot offset =>
      have parts := congrArg List.length (List.takeWhile_append_dropWhile (p := (· ≠ '.')) (l := last))
      rw [List.length_append, dots, List.length_cons] at parts
      have first : front.length < maxHttpArgs ∧ (last.takeWhile (· ≠ '.')).length < stdLen :=
        ⟨by omega, by omega⟩
      have second : front.length + 1 < maxHttpArgs ∧ offset.length < stdLen := ⟨room, by omega⟩
      simp only [store, if_pos first, Outcome.ret_bind, if_pos second]
      rfl

theorem commandOf_tiles {req : List Char} (cmd : commandOf req = some .tiles) : 5 ≤ req.length := by
  unfold commandOf at cmd
  split at cmd
  · cases cmd
  · split at cmd
    · cases cmd
    · split at cmd
      · next ends => exact ends.2.length_le
      · cases cmd

theorem cutJson_eq {fnamepnt : ℕ} {cmd : Command}
    (found : commandOf (cString s.filename fnamepnt) = some cmd) :
    ∃ cut, s.cutJson fnamepnt cmd = .ret cut ∧
      { cut with cmdType := some cmd, nHttpArgs := 0 } = s.beginSplit fnamepnt cmd := by
  unfold beginSplit
  by_cases tiles : cmd = .tiles
  · rw [cutJson, if_neg (not_not.mpr tiles), if_pos (commandOf_tiles (tiles ▸ found)), if_pos tiles]
    exact ⟨_, rfl, rfl⟩
  · rw [cutJson, if_pos tiles, if_neg tiles]
    exact ⟨_, rfl, rfl⟩

theorem isTilingRequestChecked_eq (rows : s.httpArgs.length = maxHttpArgs) (fnamepnt : ℕ) :
    isTilingRequestChecked s fnamepnt = isTilingRequest s fnamepnt := by
  unfold isTilingRequestChecked isTilingRequest
  simp only
  cases found : commandOf (cString s.filename fnamepnt) with
  | none => rfl
  | some cmd =>
      obtain ⟨cut, done, begins⟩ := cutJson_eq found
      simp only [done, Outcome.ret_bind, begins]
      rw [splitChecked_eq _ (Nat.succ_pos 9)]
      have start := @split_overlay (s.beginSplit fnamepnt cmd) [] [] rows
        (body cmd (cString s.filename fnamepnt)) (by decide)
      have begin_ : (s.beginSplit fnamepnt cmd).overlay [] = s.beginSplit fnamepnt cmd := rfl
      rw [begin_] at start
      rw [start]
      simp only [List.length_nil, Nat.sub_zero, List.nil_append]
      split
      · next short =>
          rw [Outcome.ret_bind, Outcome.ret_bind]
          generalize made : (pieces [] (body cmd (cString s.filename fnamepnt))).take maxHttpArgs = args at *
          by_cases dot : cmd = .tiles ∧ ((s.beginSplit fnamepnt cmd).overlay args).nHttpArgs < maxHttpArgs
          · have some : args ≠ [] := by
              rintro rfl
              rcases List.take_eq_nil_iff.mp made with none | none
              · cases none
              · obtain ⟨rfl, -⟩ := dot
                exact pieces_ne_nil (.inr (body_tiles_ne_nil found)) none
            rw [if_pos dot, if_pos dot, splitDotChecked_overlay some dot.2 short]
            rfl
          · rw [if_neg dot, if_neg dot]
            rfl
      · rfl

end

/-- An empty last component gets no row. -/
def stored (components : List (List Char)) : List (List Char) :=
  if components.getLastD [] = [] then components.dropLast else components

theorem pieces_eq (arg req : List Char) :
    pieces arg req = stored (List.splitOnPPrepend separator req arg.reverse) := by
  induction req generalizing arg with
  | nil =>
      rw [List.splitOnPPrepend_nil, List.reverse_reverse]
      rfl
  | cons c req ih =>
      rw [pieces, List.splitOnPPrepend_cons_eq_if]
      by_cases sep : c = '+' ∨ c = '/'
      · have is : separator c = true := by simpa [separator] using sep
        obtain ⟨first, rest, parts⟩ := List.exists_cons_of_ne_nil (List.splitOnP_ne_nil separator req)
        rw [if_pos sep, if_pos is, ih, List.reverse_reverse]
        change arg :: stored (List.splitOnP separator req) = _
        rw [parts]
        unfold stored
        rw [List.getLastD_cons, List.getLastD_cons, List.getLastD_cons]
        split <;> rfl
      · have no : ¬ separator c = true := by simpa [separator] using sep
        rw [if_neg sep, if_neg no, ih, List.reverse_append]
        rfl

theorem cutDot_plain {args : List (List Char)} (plain : '.' ∉ args.getLastD []) : cutDot args = args := by
  have all : (args.getLastD []).dropWhile (· ≠ '.') = [] :=
    List.dropWhile_eq_nil_iff.mpr fun c mem => decide_eq_true fun same => plain (same ▸ mem)
  rw [cutDot, all]

theorem cutDot_dot {args : List (List Char)} (dot : '.' ∈ args.getLastD []) :
    ∃ offset, cutDot args = args.dropLast ++ [(args.getLastD []).takeWhile (· ≠ '.'), offset] := by
  unfold cutDot
  split
  · next none =>
      have all := List.dropWhile_eq_nil_iff.mp none _ dot
      exact absurd rfl (of_decide_eq_true all)
  · next offset _ => exact ⟨offset, rfl⟩

theorem takeWhile_ne_self {row : List Char} (dot : '.' ∈ row) : row.takeWhile (· ≠ '.') ≠ row := by
  intro same
  rw [← same] at dot
  have other := List.mem_takeWhile_imp dot
  exact absurd rfl (of_decide_eq_true other)

section
variable {front : List (List Char)} {last : List Char}

theorem stored_concat (front : List (List Char)) (last : List Char) :
    stored (front ++ [last]) = if last = [] then front else front ++ [last] := by
  rw [stored, List.getLastD_concat, List.dropLast_concat]

theorem take_whole {cs : List (List Char)} (le : cs.length ≤ maxHttpArgs) : cs.take maxHttpArgs = cs :=
  List.take_of_length_le le

theorem finish_beyond (cmd : Command) (full : maxHttpArgs ≤ front.length) :
    finish cmd ((stored (front ++ [last])).take maxHttpArgs) =
      (if cmd = .tiles then cutDot (front ++ [last]) else front ++ [last]).take maxHttpArgs := by
  have take : ∀ rest, (front ++ rest).take maxHttpArgs = front.take maxHttpArgs := fun rest =>
    List.take_append_of_le_length full
  have left : (stored (front ++ [last])).take maxHttpArgs = front.take maxHttpArgs := by
    rw [stored_concat]
    split
    · rfl
    · exact take _
  have right : (if cmd = .tiles then cutDot (front ++ [last]) else front ++ [last]).take maxHttpArgs =
      front.take maxHttpArgs := by
    split
    · by_cases dot : '.' ∈ last
      · obtain ⟨offset, cut⟩ := @cutDot_dot (front ++ [last]) (by rwa [List.getLastD_concat])
        rw [cut, List.dropLast_concat, take]
      · rw [cutDot_plain (by rwa [List.getLastD_concat]), take]
    · exact take _
  have length : (front.take maxHttpArgs).length = maxHttpArgs := by
    rw [List.length_take]
    omega
  rw [left, right, finish, if_neg fun both => absurd both.2 (by omega)]

/-- Rows do not get longer by a dot that is cut off. -/
theorem cutDot_ne_concat (front : List (List Char)) : cutDot front ≠ front ++ [[]] := by
  intro same
  by_cases dot : '.' ∈ front.getLastD []
  · obtain ⟨offset, cut⟩ := cutDot_dot dot
    have some : front ≠ [] := by
      rintro rfl
      cases dot
    have last : front = front.dropLast ++ [front.getLastD []] := by
      rw [List.getLastD_eq_getLast?, List.getLast?_eq_some_getLast some]
      exact (List.dropLast_append_getLast some).symm
    rw [cut] at same
    conv_rhs at same => rw [last, List.append_assoc]
    have parts := List.append_cancel_left same
    exact takeWhile_ne_self dot (List.cons.inj parts).1
  · rw [cutDot_plain dot] at same
    simpa using congrArg List.length same

theorem finish_empty (cmd : Command) (room : front.length < maxHttpArgs) :
    finish cmd ((stored (front ++ [[]])).take maxHttpArgs) ≠
      (if cmd = .tiles then cutDot (front ++ [[]]) else front ++ [[]]).take maxHttpArgs := by
  have right : (if cmd = .tiles then cutDot (front ++ [[]]) else front ++ [[]]) = front ++ [[]] := by
    rw [cutDot_plain (by simp), ite_self]
  have size : (front ++ [[]]).length ≤ maxHttpArgs := by
    rw [List.length_append]
    exact room
  rw [stored_concat, if_pos rfl, right, take_whole room.le, take_whole size]
  unfold finish
  split
  · exact cutDot_ne_concat front
  · intro same
    simpa using congrArg List.length same

/-- A last component with a dot needs a row for what follows it. -/
theorem finish_dot (dot : '.' ∈ last) (fits : front.length < maxHttpArgs) :
    finish .tiles (front ++ [last]) = (cutDot (front ++ [last])).take maxHttpArgs ↔
      front.length + 1 < maxHttpArgs := by
  obtain ⟨offset, cut⟩ := @cutDot_dot (front ++ [last]) (by rwa [List.getLastD_concat])
  rw [List.getLastD_concat, List.dropLast_concat] at cut
  rw [cut, finish, List.length_append, List.length_singleton]
  by_cases room : front.length + 1 < maxHttpArgs
  · rw [if_pos ⟨rfl, room⟩, cut, take_whole (by rw [List.length_append]; exact room)]
    exact iff_of_true rfl room
  · have full : front.length + 1 = maxHttpArgs := le_antisymm fits (not_lt.mp room)
    have fit : (front ++ [last.takeWhile (· ≠ '.'), offset]).take maxHttpArgs =
        front ++ [last.takeWhile (· ≠ '.')] := by
      have size : (front ++ [last.takeWhile (· ≠ '.')]).length = maxHttpArgs := by
        rw [List.length_append, List.length_singleton, full]
      rw [List.append_cons, List.take_append_of_le_length size.ge, take_whole size.le]
    rw [if_neg fun both => room both.2, fit]
    refine iff_of_false (fun same => ?_) room
    have parts := List.append_cancel_left same
    exact takeWhile_ne_self dot (List.cons.inj parts).1.symm

theorem finish_plain {cmd : Command} (plain : cmd = .tiles → '.' ∉ last)
    (fits : front.length < maxHttpArgs) : finish cmd (front ++ [last]) =
      (if cmd = .tiles then cutDot (front ++ [last]) else front ++ [last]).take maxHttpArgs := by
  have same : ∀ tiles : cmd = .tiles, cutDot (front ++ [last]) = front ++ [last] := fun tiles =>
    cutDot_plain (by rw [List.getLastD_concat]; exact plain tiles)
  have right : (if cmd = .tiles then cutDot (front ++ [last]) else front ++ [last]) = front ++ [last] := by
    split
    · next tiles => exact same tiles
    · rfl
  have left : finish cmd (front ++ [last]) = front ++ [last] := by
    unfold finish
    split
    · next both => exact same both.1
    · rfl
  have size : (front ++ [last]).length ≤ maxHttpArgs := by
    rw [List.length_append]
    exact fits
  rw [right, left, take_whole size]

end

/-- The rows are what is expected exactly if the last component, where it gets a row, is not empty and
needs no second one. -/
theorem finish_iff (cmd : Command) {cs : List (List Char)} (some : cs ≠ []) :
    finish cmd ((stored cs).take maxHttpArgs) =
        (if cmd = .tiles then cutDot cs else cs).take maxHttpArgs ↔
      maxHttpArgs < cs.length ∨ cs.getLastD [] ≠ [] ∧
        ¬ (cmd = .tiles ∧ cs.length = maxHttpArgs ∧ '.' ∈ cs.getLastD []) := by
  obtain ⟨front, last, rfl⟩ : ∃ front last, cs = front ++ [last] :=
    ⟨cs.dropLast, cs.getLast some, (List.dropLast_append_getLast some).symm⟩
  rw [List.getLastD_concat, List.length_append, List.length_singleton]
  by_cases more : maxHttpArgs < front.length + 1
  · exact iff_of_true (finish_beyond cmd (Nat.lt_succ_iff.mp more)) (.inl more)
  · have fits : front.length < maxHttpArgs := not_lt.mp more
    rw [or_iff_right more]
    by_cases empty : last = []
    · subst empty
      exact iff_of_false (finish_empty cmd fits) fun no => no.1 rfl
    · have size : (front ++ [last]).length ≤ maxHttpArgs := by
        rw [List.length_append]
        exact fits
      rw [stored_concat, if_neg empty, take_whole size, and_iff_right empty]
      by_cases split_ : cmd = .tiles ∧ '.' ∈ last
      · obtain ⟨rfl, dot⟩ := split_
        rw [if_pos rfl, finish_dot dot fits]
        constructor
        · exact fun room full => absurd full.2.1 room.ne
        · exact fun room => lt_of_le_of_ne fits fun full => room ⟨rfl, full, dot⟩
      · refine iff_of_true (finish_plain (fun tiles dot => split_ ⟨tiles, dot⟩) fits) fun bad => ?_
        exact split_ ⟨bad.1, bad.2.2⟩

section
variable {s : TileServer} {before req rest : List Char}

theorem cString_at (clean : nul ∉ req) (buffer : s.filename = before ++ req ++ nul :: rest) :
    cString s.filename before.length = req := by
  rw [cString, buffer, List.append_assoc, List.drop_left, takeWhile_nul clean]

/-- Of the buffer only the path changes. -/
theorem beginSplit_filename {cmd : Command} (clean : nul ∉ req)
    (buffer : s.filename = before ++ req ++ nul :: rest) (found : commandOf req = some cmd) :
    ∃ written, written.length = req.length ∧
      (s.beginSplit before.length cmd).filename = before ++ written ++ nul :: rest := by
  unfold beginSplit
  by_cases tiles : cmd = .tiles
  · have long := commandOf_tiles (tiles ▸ found)
    refine ⟨req.set (req.length - 5) nul, List.length_set, ?_⟩
    simp only [if_pos tiles]
    rw [cString_at clean buffer, buffer, List.append_assoc, List.append_assoc,
      List.set_append_right _ _ (by omega), List.set_append_left _ _ (by omega)]
    congr 3
    omega
  · exact ⟨req, rfl, by simp only [if_neg tiles]; exact buffer⟩

theorem pieces_short (cmd : Command) (req : List Char) :
    (∀ p ∈ (pieces [] (body cmd req)).take maxHttpArgs, p.length < stdLen) ↔
      ∀ c ∈ (components cmd req).take maxHttpArgs, c.length < stdLen := by
  rw [pieces_eq]
  change (∀ p ∈ (stored (components cmd req)).take maxHttpArgs, _) ↔ _
  have some : components cmd req ≠ [] := List.splitOnP_ne_nil _ _
  obtain ⟨front, last, parts⟩ : ∃ front last, components cmd req = front ++ [last] :=
    ⟨_, _, (List.dropLast_append_getLast some).symm⟩
  rw [parts, stored, List.getLastD_concat, List.dropLast_concat]
  split
  · next empty =>
      rw [List.take_append, List.forall_mem_append]
      refine (and_iff_left fun c mem => ?_).symm
      rw [List.mem_singleton.mp (List.mem_of_mem_take mem), empty]
      exact Nat.succ_pos _
  · exact Iff.rfl

/-- The call does what it is for exactly if the components of a tiling request have room. -/
theorem meets_iff (rows : s.httpArgs.length = maxHttpArgs) (clean : nul ∉ req)
    (buffer : s.filename = before ++ req ++ nul :: rest) :
    s.Meets before req rest ↔ ∀ cmd, commandOf req = some cmd → Room cmd req := by
  have run := isTilingRequestChecked_eq rows before.length
  rw [isTilingRequest_eq rows, cString_at clean buffer] at run
  unfold Meets
  cases found : commandOf req with
  | none =>
      rw [found] at run
      refine iff_of_true ⟨false, _, run, ⟨req, rfl, buffer⟩, rows, fun no => by cases no⟩ ?_
      rintro cmd ⟨⟩
  | some cmd =>
      simp only [found] at run
      have some : components cmd req ≠ [] := List.splitOnP_ne_nil _ _
      have same : arguments cmd req = expected cmd req ↔
          maxHttpArgs < (components cmd req).length ∨ (components cmd req).getLastD [] ≠ [] ∧
            ¬ (cmd = .tiles ∧ (components cmd req).length = maxHttpArgs ∧
              '.' ∈ (components cmd req).getLastD []) := by
        rw [arguments, pieces_eq]
        exact finish_iff cmd some
      have short := pieces_short cmd req
      have filename := beginSplit_filename clean buffer found
      have length : (((s.beginSplit before.length cmd).overlay (arguments cmd req)).httpArgs).length =
          maxHttpArgs := by
        have few := arguments_length cmd req
        have drop : (arguments cmd req ++ s.httpArgs.drop (arguments cmd req).length).length =
            maxHttpArgs := by
          rw [List.length_append, List.length_drop, rows]
          omega
        exact drop
      have counted : ((s.beginSplit before.length cmd).overlay (arguments cmd req)).httpArgs.take
          ((s.beginSplit before.length cmd).overlay (arguments cmd req)).nHttpArgs =
            arguments cmd req := List.take_left
      constructor
      · rintro ⟨found', t, ret, -, -, args⟩ cmd' ⟨rfl⟩
        rw [run] at ret
        split at ret
        · next fits =>
            cases ret
            obtain ⟨cmd', is, args⟩ := args rfl
            cases is
            rw [counted] at args
            exact ⟨short.mp fits, same.mp args⟩
        · cases ret
      · intro room
        obtain ⟨fits, last⟩ := room cmd rfl
        rw [if_pos (short.mpr fits)] at run
        refine ⟨true, _, run, filename, length, fun _ => ⟨cmd, rfl, ?_⟩⟩
        rw [counted]
        exact same.mpr last

end

def holding (path : List Char) : TileServer where
  filename := path ++ [nul]
  httpArgs := List.replicate maxHttpArgs []
  nHttpArgs := 0
  cmdType := none

def sevenPath : List Char := "/tiles/7/7/7.7.json".toList

theorem meets_iff_sevens : (holding sevenPath).Meets [] sevenPath [] := by
  have clean : nul ∉ sevenPath := by decide
  refine (meets_iff (s := holding sevenPath) List.length_replicate clean rfl).mpr ?_
  intro cmd found
  have tiles : commandOf sevenPath = some .tiles := by decide
  obtain rfl : Command.tiles = cmd := Option.some.inj (tiles.symm.trans found)
  have parts : components .tiles sevenPath =
      ["tiles".toList, "7".toList, "7".toList, "7.7".toList] := by decide
  unfold Room
  rw [parts]
  decide

def longPath : List Char := "/gettile/".toList ++ List.replicate stdLen 'a'

/-- The name and its null byte take a row and one byte more. -/
theorem long_component_overflows : nul ∉ longPath ∧ ¬ (holding longPath).Meets [] longPath [] := by
  have clean : nul ∉ longPath := by decide +kernel
  refine ⟨clean, ?_⟩
  rintro ⟨found, t, ret, -⟩
  have run := isTilingRequestChecked_eq (s := holding longPath) List.length_replicate 0
  have gettile : commandOf longPath = some .gettile := by decide
  have long : ¬ ∀ p ∈ (pieces [] (body .gettile longPath)).take maxHttpArgs, p.length < stdLen := by
    decide +kernel
  have path : cString (holding longPath).filename 0 = longPath :=
    @cString_at (holding longPath) [] longPath [] clean rfl
  rw [isTilingRequest_eq (s := holding longPath) List.length_replicate, path, gettile] at run
  simp only [if_neg long] at run
  rw [List.length_nil, run] at ret
  cases ret

end Mio.Datastore.TileServer
