import Mathlib.Algebra.Group.Int.Defs
import Mathlib.Algebra.Group.Nat.Defs
import Mathlib.Data.Int.Basic
import Mathlib.Data.List.GetD
import Mathlib.Data.List.TakeWhile
import Mathlib.Tactic.Common
import Mio.Lib.Outcome
import Mio.Lib.Scan
import Mio.Lib.Transition

/-! The request loop of `tile_server.cpp`. A byte is the character of its code, and a row of
`http_args` is the string it holds up to its null byte. A write past a row or a buffer aborts. -/
namespace Mio.Datastore

def nul : Char := Char.ofNat 0

def cString (buf : List Char) (start : ℕ) : List Char := (buf.drop start).takeWhile (· ≠ nul)

def stdLen : ℕ := 128

/-- `N_HTTP_ARGS`. -/
def maxHttpArgs : ℕ := 10

/-- `tiling_req`. -/
inductive Command where
  | gettile
  | info
  | tiles
deriving DecidableEq

/-- The request buffer of `run_tile_server` and the globals. -/
structure TileServer where
  filename : List Char
  httpArgs : List (List Char)
  nHttpArgs : ℕ
  cmdType : Option Command

/-- What a request is answered with. -/
inductive Answer where
  | file (filepath : List Char)
  | info
  | gettile (uid : ℤ) (channelName : List Char) (tileLevel tileOffset : ℤ)

namespace TileServer

/-- Carriage returns among the first `STDLEN` bytes end a string. -/
def endLines (reqbuf : List Char) : List Char :=
  reqbuf.mapIdx fun i c => if i < stdLen ∧ c = '\r' then nul else c

/-- One `read` of at most `8 * STDLEN` bytes over the old contents. -/
def getRequest (reqbuf request : List Char) : List Char :=
  endLines (request.take (8 * stdLen) ++ reqbuf.drop request.length)

/-- The place of the file name, and the buffer with the blank after it overwritten. Both loops run
without a bound. -/
def getFile (reqbuf : List Char) : Outcome Empty (ℕ × List Char) :=
  match (reqbuf.dropWhile (· ≠ '/')).dropWhile (· ≠ ' ') with
  | [] => .abort "reqbuf"
  | _ :: rest =>
      .ret ((reqbuf.takeWhile (· ≠ '/')).length,
        reqbuf.takeWhile (· ≠ '/') ++ (reqbuf.dropWhile (· ≠ '/')).takeWhile (· ≠ ' ') ++
          nul :: rest)

def indexHtml : List Char := "index.html".toList

/-- The name of a directory gets `index.html`. -/
def addIndex (fnamepnt : ℕ) (buf : List Char) : Outcome Empty (List Char) :=
  let name := cString buf fnamepnt
  if name.getLast? = some '/' then
    let used := fnamepnt + name.length
    if used + indexHtml.length < buf.length then
      .ret (buf.take used ++ indexHtml ++ nul :: buf.drop (used + indexHtml.length + 1))
    else .abort "filename"
  else .ret buf

/-- The request from `ptr_now` on. -/
def afterSlash (req : List Char) : List Char :=
  if req.head? = some '/' then req.tail else req

/-- The first of `tiling_req` that the request starts with; `tiles` must end in `.json`. -/
def commandOf (req : List Char) : Option Command :=
  if "gettile".toList <+: afterSlash req then some .gettile
  else if "info.json".toList <+: afterSlash req then some .info
  else if "tiles".toList <+: afterSlash req ∧ ".json".toList <:+ req then some .tiles
  else none

/-- `strncpy` into the next row. -/
def put (s : TileServer) (arg : List Char) : Outcome Empty TileServer :=
  if arg.length < stdLen then
    .ret { s with httpArgs := s.httpArgs.set s.nHttpArgs arg, nHttpArgs := s.nHttpArgs + 1 }
  else .abort "http_args"

/-- The loop over the request, with the characters since `ptr_prev`. -/
def split (s : TileServer) (arg : List Char) : List Char → Outcome Empty TileServer
  | [] => if arg ≠ [] ∧ s.nHttpArgs < maxHttpArgs then s.put arg else .ret s
  | c :: req =>
      if c = '+' ∨ c = '/' then do
        let s ← s.put arg
        if maxHttpArgs ≤ s.nHttpArgs then .ret s else split s [] req
      else split s (arg ++ [c]) req

/-- The last row is cut at its first dot; `tiles` itself is a row, so there is one. -/
def splitDot (s : TileServer) : TileServer :=
  let last := s.httpArgs.getD (s.nHttpArgs - 1) []
  match last.dropWhile (· ≠ '.') with
  | [] => s
  | _ :: offset =>
      { s with
        httpArgs := (s.httpArgs.set (s.nHttpArgs - 1) (last.takeWhile (· ≠ '.'))).set s.nHttpArgs
          offset
        nHttpArgs := s.nHttpArgs + 1 }

/-- What is split: the request without the `.json` of `tiles`. -/
def body (cmd : Command) (req : List Char) : List Char :=
  afterSlash (if cmd = .tiles then req.take (req.length - 5) else req)

/-- The command is set, the `.json` of `tiles` cut off, and no row counted yet. -/
def beginSplit (s : TileServer) (fnamepnt : ℕ) (cmd : Command) : TileServer :=
  { s with
    filename := if cmd = .tiles then
        s.filename.set (fnamepnt + (cString s.filename fnamepnt).length - 5) nul
      else s.filename
    cmdType := some cmd
    nHttpArgs := 0 }

def isTilingRequest (s : TileServer) (fnamepnt : ℕ) : Outcome Empty (Bool × TileServer) :=
  let req := cString s.filename fnamepnt
  match commandOf req with
  | none => .ret (false, { s with cmdType := none })
  | some cmd => do
      let s ← split (s.beginSplit fnamepnt cmd) [] (body cmd req)
      if cmd = .tiles ∧ s.nHttpArgs < maxHttpArgs then .ret (true, s.splitDot)
      else .ret (true, s)

/-- The dispatcher reads fixed rows. -/
def dispatch (httpArgs : List (List Char)) (cmd : Command) : Answer :=
  let arg i := httpArgs.getD i []
  match cmd with
  | .gettile => .gettile (Scan.atoi ['1']) (arg 1) (Scan.atoi (arg 2)) (Scan.atoll (arg 3))
  | .info => .info
  | .tiles => .gettile (Scan.atoi (arg 1)) (arg 2) (Scan.atoi (arg 3)) (Scan.atoll (arg 4))

/-- A turn once the name is in the buffer, up to the reading of a file or the call of `gettile`. -/
def respond (docroot : List Char) (s : TileServer) (fnamepnt : ℕ) :
    Outcome Empty (Answer × TileServer) := do
  let (tiling, s) ← isTilingRequest s fnamepnt
  match tiling, s.cmdType with
  | true, some cmd => .ret (dispatch s.httpArgs cmd, s)
  | _, _ =>
      let filepath := docroot ++ cString s.filename fnamepnt
      if filepath.length < stdLen then .ret (.file filepath, s) else .abort "filepath"

/-- One turn of `run_tile_server`. -/
def serve (docroot : List Char) (s : TileServer) (request : List Char) :
    Outcome Empty (Answer × TileServer) := do
  let (fnamepnt, filename) ← getFile (getRequest s.filename request)
  let filename ← addIndex fnamepnt filename
  respond docroot { s with filename } fnamepnt

/-- The globals start as zeros, the buffer with whatever the stack holds. -/
def Fresh (s : TileServer) : Prop :=
  s.filename.length = 8 * stdLen ∧ s.httpArgs = List.replicate maxHttpArgs [] ∧
    s.nHttpArgs = 0 ∧ s.cmdType = some .gettile

def system (docroot : List Char) : System TileServer (List Char) where
  init := Fresh
  step s request t := ∃ answer, serve docroot s request = .ret (answer, t)

/-- The parts of a request between separators; an empty last one does not count. -/
def pieces (arg : List Char) : List Char → List (List Char)
  | [] => if arg = [] then [] else [arg]
  | c :: req => if c = '+' ∨ c = '/' then arg :: pieces [] req else pieces (arg ++ [c]) req

/-- Rows written over the old ones from the first on. -/
def overlay (s : TileServer) (args : List (List Char)) : TileServer :=
  { s with httpArgs := args ++ s.httpArgs.drop args.length, nHttpArgs := args.length }

variable {s t : TileServer} {args : List (List Char)} {arg : List Char}

theorem put_overlay (room : args.length < s.httpArgs.length) :
    (s.overlay args).put arg =
      if arg.length < stdLen then .ret (s.overlay (args ++ [arg])) else .abort "http_args" := by
  unfold put overlay
  split
  · congr 2
    · rw [List.set_append_right _ _ (Nat.le_refl _), Nat.sub_self,
        List.drop_eq_getElem_cons room, List.set_cons_zero, List.length_append]
      simp
    · simp
  · rfl

theorem split_overlay (rows : s.httpArgs.length = maxHttpArgs) (req : List Char)
    (room : args.length < maxHttpArgs) :
    split (s.overlay args) arg req =
      if ∀ p ∈ (pieces arg req).take (maxHttpArgs - args.length), p.length < stdLen then
        .ret (s.overlay (args ++ (pieces arg req).take (maxHttpArgs - args.length)))
      else .abort "http_args" := by
  induction req generalizing arg args with
  | nil =>
      by_cases empty : arg = []
      · simp [split, pieces, empty]
      · obtain ⟨left, eq⟩ : ∃ left, maxHttpArgs - args.length = left + 1 :=
          ⟨maxHttpArgs - args.length - 1, by omega⟩
        have more : (s.overlay args).nHttpArgs < maxHttpArgs := room
        rw [split, if_pos ⟨empty, more⟩, put_overlay (rows ▸ room), pieces, if_neg empty, eq]
        simp
  | cons c req ih =>
      by_cases sep : c = '+' ∨ c = '/'
      · obtain ⟨left, eq⟩ : ∃ left, maxHttpArgs - args.length = left + 1 :=
          ⟨maxHttpArgs - args.length - 1, by omega⟩
        rw [split, if_pos sep, put_overlay (rows ▸ room), pieces, if_pos sep, eq, List.take_succ_cons]
        by_cases short : arg.length < stdLen
        · rw [if_pos short, Outcome.ret_bind]
          have count : (s.overlay (args ++ [arg])).nHttpArgs = args.length + 1 := by
            simp [overlay]
          rw [count]
          by_cases full : maxHttpArgs ≤ args.length + 1
          · have last : left = 0 := by omega
            subst last
            simp [full, short]
          · have rest : maxHttpArgs - (args ++ [arg]).length = left := by
              rw [List.length_append]
              change maxHttpArgs - (args.length + 1) = left
              omega
            rw [if_neg full, ih (by simpa using full), rest]
            simp [short]
        · rw [if_neg short, Outcome.abort_bind, if_neg]
          intro all
          exact short (all arg (List.mem_cons_self ..))
      · rw [split, if_neg sep, pieces, if_neg sep]
        exact ih room

/-- What `splitDot` makes of the rows written so far. -/
def cutDot (args : List (List Char)) : List (List Char) :=
  match (args.getLastD []).dropWhile (· ≠ '.') with
  | [] => args
  | _ :: offset => args.dropLast ++ [(args.getLastD []).takeWhile (· ≠ '.'), offset]

theorem splitDot_overlay (some : args ≠ []) (room : args.length < s.httpArgs.length) :
    (s.overlay args).splitDot = s.overlay (cutDot args) := by
  obtain ⟨front, last, rfl⟩ : ∃ front last, args = front ++ [last] :=
    ⟨args.dropLast, args.getLast some, (List.dropLast_append_getLast some).symm⟩
  have row : (s.overlay (front ++ [last])).httpArgs.getD
      ((s.overlay (front ++ [last])).nHttpArgs - 1) [] = last := by
    simp [overlay]
  simp only [splitDot, cutDot, row, List.getLastD_concat]
  cases dots : last.dropWhile (· ≠ '.') with
  | nil => rfl
  | cons dot offset =>
      have place : front.length + 1 < s.httpArgs.length := by simpa using room
      simp only [List.dropLast_concat, overlay, List.length_append, List.length_singleton,
        Nat.add_sub_cancel, List.append_assoc, List.singleton_append]
      congr 1
      rw [List.drop_eq_getElem_cons place]
      simp [-List.getElem_cons_drop]

def finish (cmd : Command) (args : List (List Char)) : List (List Char) :=
  if cmd = .tiles ∧ args.length < maxHttpArgs then cutDot args else args

theorem finish_overlay (cmd : Command) (some : cmd = .tiles → args ≠ [])
    (rows : s.httpArgs.length = maxHttpArgs) :
    (if cmd = .tiles ∧ (s.overlay args).nHttpArgs < maxHttpArgs then
        (.ret (true, (s.overlay args).splitDot) : Outcome Empty (Bool × TileServer))
      else .ret (true, s.overlay args)) = .ret (true, s.overlay (finish cmd args)) := by
  unfold finish
  by_cases dot : cmd = .tiles ∧ args.length < maxHttpArgs
  · rw [if_pos dot, ← splitDot_overlay (some dot.1) (rows ▸ dot.2)]
    exact if_pos dot
  · rw [if_neg dot]
    exact if_neg dot

def arguments (cmd : Command) (req : List Char) : List (List Char) :=
  finish cmd ((pieces [] (body cmd req)).take maxHttpArgs)

theorem pieces_ne_nil {req : List Char} (some : arg ≠ [] ∨ req ≠ []) : pieces arg req ≠ [] := by
  induction req generalizing arg with
  | nil =>
      have some : arg ≠ [] := some.resolve_right (fun h => h rfl)
      simp [pieces, some]
  | cons c req ih =>
      unfold pieces
      split
      · intro empty
        cases empty
      · apply ih
        simp

/-- `tiles` and `.json` do not overlap. -/
theorem body_tiles_ne_nil {req : List Char} (cmd : commandOf req = some .tiles) :
    body .tiles req ≠ [] := by
  have both : "tiles".toList <+: afterSlash req ∧ ".json".toList <:+ req := by
    unfold commandOf at cmd
    split at cmd
    · cases cmd
    · split at cmd
      · cases cmd
      · split at cmd
        · assumption
        · cases cmd
  obtain ⟨⟨rest, starts⟩, ends⟩ := both
  change afterSlash (req.take (req.length - 5)) ≠ []
  have more : rest ≠ [] := by
    rintro rfl
    rw [List.append_nil] at starts
    unfold afterSlash at starts
    split at starts
    · next slash =>
        rw [← List.cons_head?_tail slash, ← starts] at ends
        revert ends
        decide
    · rw [← starts] at ends
      revert ends
      decide
  have kept : (afterSlash req).length = 5 + rest.length := by
    rw [← starts, List.length_append]
    rfl
  have longer := List.length_pos_iff.mpr more
  unfold afterSlash at kept ⊢
  cases req with
  | nil =>
      change 0 = 5 + rest.length at kept
      omega
  | cons c req =>
      by_cases slash : c = '/'
      · subst slash
        have size : req.length = 5 + rest.length := kept
        have cut : ('/' :: req).length - 5 = rest.length + 1 := by
          rw [List.length_cons]
          omega
        rw [cut, List.take_succ_cons]
        change req.take rest.length ≠ []
        intro empty
        cases List.take_eq_nil_iff.mp empty with
        | inl none => exact more (List.length_eq_zero_iff.mp none)
        | inr none =>
            rw [none, List.length_nil] at size
            omega
      · simp only [List.head?_cons, Option.some.injEq, slash, if_false] at kept
        have cut : (c :: req).length - 5 = rest.length - 1 + 1 := by omega
        rw [cut, List.take_succ_cons]
        simp [slash]

theorem isTilingRequest_eq (rows : s.httpArgs.length = maxHttpArgs) (fnamepnt : ℕ) :
    isTilingRequest s fnamepnt =
      match commandOf (cString s.filename fnamepnt) with
      | none => .ret (false, { s with cmdType := none })
      | some cmd =>
          if ∀ p ∈ (pieces [] (body cmd (cString s.filename fnamepnt))).take maxHttpArgs,
              p.length < stdLen then
            .ret (true, (s.beginSplit fnamepnt cmd).overlay
              (arguments cmd (cString s.filename fnamepnt)))
          else .abort "http_args" := by
  unfold isTilingRequest
  simp only
  cases found : commandOf (cString s.filename fnamepnt) with
  | none => rfl
  | some cmd =>
      simp only
      generalize cString s.filename fnamepnt = req at *
      have start := @split_overlay (s.beginSplit fnamepnt cmd) [] [] rows (body cmd req) (by decide)
      refine (congrArg (fun x => x >>= _) start).trans ?_
      simp only [List.length_nil, Nat.sub_zero, List.nil_append]
      split
      · rw [Outcome.ret_bind]
        apply finish_overlay cmd
        · rintro rfl empty
          cases List.take_eq_nil_iff.mp empty with
          | inl none => cases none
          | inr none => exact pieces_ne_nil (.inr (body_tiles_ne_nil found)) none
        · exact rows
      · rfl

def requestText (request : List Char) : List Char := endLines (request.take (8 * stdLen))

def offset (request : List Char) : ℕ := ((requestText request).takeWhile (· ≠ '/')).length

def fileName (request : List Char) : List Char :=
  (((requestText request).dropWhile (· ≠ '/')).takeWhile (· ≠ ' ')).takeWhile (· ≠ nul)

theorem endLines_append (a b : List Char) :
    ∃ c, endLines (a ++ b) = endLines a ++ c ∧ c.length = b.length ∧
      ((∀ x ∈ b, x = nul) → ∀ x ∈ c, x = nul) := by
  refine ⟨_, List.mapIdx_append, List.length_mapIdx, ?_⟩
  intro zero x old
  obtain ⟨i, small, rfl⟩ := List.mem_mapIdx.mp old
  have eq := zero _ (List.getElem_mem small)
  rw [eq]
  split <;> rfl

theorem takeWhile_stop {p : Char → Bool} {a : List Char} {c : Char} {b : List Char}
    (stop : p c = false) : (a ++ c :: b).takeWhile p = a.takeWhile p := by
  induction a with
  | nil => simp [stop]
  | cons d a ih =>
      simp only [List.cons_append, List.takeWhile_cons, ih]

/-- Behind the request, the buffer keeps what it held. -/
theorem getRequest_eq {reqbuf : List Char} (size : reqbuf.length = 8 * stdLen)
    (request : List Char) :
    ∃ old, getRequest reqbuf request = requestText request ++ old ∧
      (requestText request ++ old).length = 8 * stdLen ∧
      ((∀ c ∈ reqbuf, c = nul) → ∀ c ∈ old, c = nul) := by
  obtain ⟨old, eq, length, zero⟩ := endLines_append (request.take (8 * stdLen))
    (reqbuf.drop request.length)
  refine ⟨old, eq, ?_, fun all => zero fun c mem => all c (List.mem_of_mem_drop mem)⟩
  simp only [requestText, endLines, List.length_append, List.length_mapIdx, length,
    List.length_take, List.length_drop, size]
  omega

theorem dropWhile_of_mem {c : Char} {a : List Char} (mem : c ∈ a) :
    ∃ rest, a.dropWhile (· ≠ c) = c :: rest := by
  induction a with
  | nil => cases mem
  | cons d a ih =>
      by_cases stop : d = c
      · exact ⟨a, by simp [stop]⟩
      · have later : c ∈ a := (List.mem_cons.mp mem).resolve_left (fun h => stop h.symm)
        simpa [stop] using ih later

theorem takeWhile_append_of_mem {c : Char} {a : List Char} (mem : c ∈ a) (b : List Char) :
    (a ++ b).takeWhile (· ≠ c) = a.takeWhile (· ≠ c) := by
  obtain ⟨rest, found⟩ := dropWhile_of_mem mem
  refine List.takeWhile_append.trans (if_neg fun all => ?_)
  have length := congrArg List.length (List.takeWhile_append_dropWhile (p := (· ≠ c)) (l := a))
  rw [List.length_append, all, found, List.length_cons] at length
  omega

theorem dropWhile_append_of_mem {c : Char} {a : List Char} (mem : c ∈ a) (b : List Char) :
    (a ++ b).dropWhile (· ≠ c) = a.dropWhile (· ≠ c) ++ b := by
  obtain ⟨rest, found⟩ := dropWhile_of_mem mem
  rw [List.dropWhile_append, found]
  rfl

theorem dropWhile_eq_nil {c : Char} {a : List Char} (missing : c ∉ a) :
    a.dropWhile (· ≠ c) = [] := by
  apply List.dropWhile_eq_nil_iff.mpr
  intro d mem
  exact decide_eq_true fun eq => missing (eq ▸ mem)

theorem mem_of_mem_dropWhile {p : Char → Bool} {c : Char} {a : List Char}
    (mem : c ∈ a.dropWhile p) : c ∈ a :=
  (List.dropWhile_suffix p).subset mem

/-- With a blank after the slash in the request itself, the name is the request's. -/
theorem getFile_append {text : List Char} (blank : ' ' ∈ text.dropWhile (· ≠ '/'))
    (old : List Char) :
    ∃ buf, getFile (text ++ old) = .ret ((text.takeWhile (· ≠ '/')).length, buf) ∧
      cString buf (text.takeWhile (· ≠ '/')).length =
        ((text.dropWhile (· ≠ '/')).takeWhile (· ≠ ' ')).takeWhile (· ≠ nul) ∧
      buf.length = (text ++ old).length := by
  have slash : '/' ∈ text := by
    by_contra missing
    rw [dropWhile_eq_nil missing] at blank
    cases blank
  obtain ⟨rest, after⟩ := dropWhile_of_mem blank
  have pieces : text.takeWhile (· ≠ '/') ++ (text.dropWhile (· ≠ '/')).takeWhile (· ≠ ' ') ++
      ' ' :: rest = text := by
    rw [List.append_assoc, ← after, List.takeWhile_append_dropWhile,
      List.takeWhile_append_dropWhile]
  unfold getFile
  rw [takeWhile_append_of_mem slash, dropWhile_append_of_mem slash,
    takeWhile_append_of_mem blank, dropWhile_append_of_mem blank, after]
  refine ⟨_, rfl, ?_, ?_⟩
  · rw [cString, List.append_assoc, List.drop_left]
    exact takeWhile_stop (by simp)
  · have size := congrArg List.length pieces
    simp only [List.append_eq, List.length_append, List.length_cons] at size ⊢
    omega

theorem getFile_zero {text old : List Char} (zero : ∀ c ∈ old, c = nul)
    (missing : ' ' ∉ text.dropWhile (· ≠ '/')) : getFile (text ++ old) = .abort "reqbuf" := by
  have blanks : ' ' ∉ (text ++ old).dropWhile (· ≠ '/') := by
    intro blank
    by_cases slash : '/' ∈ text
    · rw [dropWhile_append_of_mem slash] at blank
      cases List.mem_append.mp blank with
      | inl mem => exact missing mem
      | inr mem => exact absurd (zero _ mem) (by decide)
    · rw [List.dropWhile_append_of_pos] at blank
      · exact absurd (zero _ (mem_of_mem_dropWhile blank)) (by decide)
      · intro d mem
        exact decide_eq_true fun eq => slash (eq ▸ mem)
  rw [getFile, dropWhile_eq_nil blanks]

theorem cString_drop (buf : List Char) (start : ℕ) :
    (buf.take (start + (cString buf start).length)).drop start = cString buf start := by
  rw [List.drop_take, Nat.add_sub_cancel_left]
  exact (List.prefix_iff_eq_take.mp (List.takeWhile_prefix _)).symm

theorem nul_notMem_cString (buf : List Char) (start : ℕ) : nul ∉ cString buf start := by
  intro mem
  have stop := List.mem_takeWhile_imp mem
  simp at stop

theorem takeWhile_nul {a b : List Char} (clean : nul ∉ a) :
    (a ++ nul :: b).takeWhile (· ≠ nul) = a := by
  rw [takeWhile_stop (by simp)]
  apply List.takeWhile_eq_self_iff.mpr
  intro c mem
  exact decide_eq_true fun eq => clean (eq ▸ mem)

def withIndex (name : List Char) : List Char :=
  if name.getLast? = some '/' then name ++ indexHtml else name

theorem addIndex_eq {buf : List Char} {start : ℕ}
    (room : (cString buf start).getLast? = some '/' →
      start + (withIndex (cString buf start)).length < buf.length) :
    ∃ new, addIndex start buf = .ret new ∧ cString new start = withIndex (cString buf start) ∧
      new.length = buf.length := by
  unfold addIndex withIndex
  by_cases slash : (cString buf start).getLast? = some '/'
  · have fits := room slash
    simp only [withIndex, slash, if_true, List.length_append] at fits
    simp only [slash, if_true]
    rw [if_pos (by omega)]
    refine ⟨_, rfl, ?_, ?_⟩
    · have clean : nul ∉ cString buf start ++ indexHtml := by
        intro mem
        cases List.mem_append.mp mem with
        | inl mem => exact nul_notMem_cString _ _ mem
        | inr mem => exact absurd mem (by decide)
      rw [cString, List.append_assoc, List.drop_append_of_le_length, cString_drop,
        ← List.append_assoc, takeWhile_nul clean]
      rw [List.length_take]
      omega
    · simp only [List.length_append, List.length_take, List.length_cons, List.length_drop]
      omega
  · simp only [slash, if_false]
    exact ⟨buf, rfl, rfl, rfl⟩

theorem addIndex_abort {buf : List Char} {start : ℕ}
    (slash : (cString buf start).getLast? = some '/')
    (full : ¬ start + (withIndex (cString buf start)).length < buf.length) :
    addIndex start buf = .abort "filename" := by
  simp only [withIndex, slash, if_true, List.length_append] at full
  simp only [addIndex, slash, if_true]
  exact if_neg (by omega)

theorem respond_eq (docroot : List Char) (rows : s.httpArgs.length = maxHttpArgs) {fnamepnt : ℕ}
    {req : List Char} (name : cString s.filename fnamepnt = req) :
    respond docroot s fnamepnt =
      match commandOf req with
      | none =>
          if (docroot ++ req).length < stdLen then
            .ret (.file (docroot ++ req), { s with cmdType := none })
          else .abort "filepath"
      | some cmd =>
          if ∀ p ∈ (pieces [] (body cmd req)).take maxHttpArgs, p.length < stdLen then
            .ret (dispatch ((s.beginSplit fnamepnt cmd).overlay (arguments cmd req)).httpArgs cmd,
              (s.beginSplit fnamepnt cmd).overlay (arguments cmd req))
          else .abort "http_args" := by
  unfold respond
  rw [isTilingRequest_eq rows, name]
  cases commandOf req with
  | none =>
      simp only [Outcome.ret_bind, name]
  | some cmd =>
      simp only
      split
      · rfl
      · rfl

/-- The length of every buffer and table is kept. -/
structure Sized (s : TileServer) : Prop where
  buffer : s.filename.length = 8 * stdLen
  rows : s.httpArgs.length = maxHttpArgs

theorem Sized.overlay (sized : s.Sized) (short : args.length ≤ maxHttpArgs) :
    (s.overlay args).Sized where
  buffer := sized.buffer
  rows := by
    simp only [TileServer.overlay, List.length_append, List.length_drop, sized.rows]
    omega

theorem Sized.beginSplit (sized : s.Sized) (fnamepnt : ℕ) (cmd : Command) :
    (s.beginSplit fnamepnt cmd).Sized where
  buffer := by
    unfold TileServer.beginSplit
    dsimp only
    split
    · rw [List.length_set]
      exact sized.buffer
    · exact sized.buffer
  rows := sized.rows

theorem arguments_length (cmd : Command) (req : List Char) :
    (arguments cmd req).length ≤ maxHttpArgs := by
  have short := List.length_take_le maxHttpArgs (pieces [] (body cmd req))
  unfold arguments finish
  split
  · next h =>
      unfold cutDot
      split
      · exact short
      · have room := h.2
        have ten : maxHttpArgs = 10 := rfl
        simp only [List.length_append, List.length_dropLast, List.length_cons, List.length_nil]
        omega
  · exact short

def path (request : List Char) : List Char := withIndex (fileName request)

/-- What a turn needs of the request to run within its buffers. -/
structure Fits (docroot request : List Char) : Prop where
  blank : ' ' ∈ (requestText request).dropWhile (· ≠ '/')
  index : (fileName request).getLast? = some '/' →
    offset request + (path request).length < 8 * stdLen
  filepath : commandOf (path request) = none → (docroot ++ path request).length < stdLen
  rows : ∀ cmd, commandOf (path request) = some cmd →
    ∀ p ∈ (pieces [] (body cmd (path request))).take maxHttpArgs, p.length < stdLen

theorem serve_eq {docroot request : List Char} (fits : Fits docroot request) (sized : s.Sized) :
    ∃ filename : List Char, filename.length = 8 * stdLen ∧
      serve docroot s request =
        match commandOf (path request) with
        | none => .ret (.file (docroot ++ path request), { s with filename, cmdType := none })
        | some cmd =>
            .ret (dispatch (arguments cmd (path request) ++
                s.httpArgs.drop (arguments cmd (path request)).length) cmd,
              ({ s with filename }.beginSplit (offset request) cmd).overlay
                (arguments cmd (path request))) := by
  obtain ⟨old, text, size, -⟩ := getRequest_eq sized.buffer request
  obtain ⟨buf, found, name, length⟩ := getFile_append fits.blank old
  change cString buf (offset request) = fileName request at name
  change getFile _ = .ret (offset request, buf) at found
  have room : (cString buf (offset request)).getLast? = some '/' →
      offset request + (withIndex (cString buf (offset request))).length < buf.length := by
    rw [name, length, size]
    exact fits.index
  obtain ⟨new, index, named, length'⟩ := addIndex_eq room
  rw [name] at named
  refine ⟨new, by rw [length', length, size], ?_⟩
  unfold serve
  rw [text, found, Outcome.ret_bind]
  change (addIndex (offset request) buf >>= _) = _
  rw [index, Outcome.ret_bind, respond_eq docroot (s := { s with filename := new }) sized.rows named]
  change (match commandOf (path request) with | none => _ | some cmd => _) = _
  cases cmd : commandOf (path request) with
  | none => exact if_pos (fits.filepath cmd)
  | some c => exact if_pos (fits.rows c cmd)

theorem getFile_length {reqbuf buf : List Char} {fnamepnt : ℕ}
    (found : getFile reqbuf = .ret (fnamepnt, buf)) : buf.length = reqbuf.length := by
  unfold getFile at found
  split at found
  · cases found
  · next blank rest after =>
      cases found
      have first := congrArg List.length
        (List.takeWhile_append_dropWhile (p := (· ≠ '/')) (l := reqbuf))
      have second := congrArg List.length
        (List.takeWhile_append_dropWhile (p := (· ≠ ' ')) (l := reqbuf.dropWhile (· ≠ '/')))
      rw [after] at second
      simp only [List.length_append, List.length_cons] at first second ⊢
      omega

theorem addIndex_length {buf new : List Char} {start : ℕ} (done : addIndex start buf = .ret new) :
    new.length = buf.length := by
  by_cases room : (cString buf start).getLast? = some '/' →
      start + (withIndex (cString buf start)).length < buf.length
  · obtain ⟨written, eq, -, length⟩ := addIndex_eq room
    cases eq.symm.trans done
    exact length
  · push Not at room
    cases (addIndex_abort room.1 (Nat.not_lt.mpr room.2)).symm.trans done

theorem respond_sized {docroot : List Char} {fnamepnt : ℕ} {answer : Answer} (sized : s.Sized)
    (done : respond docroot s fnamepnt = .ret (answer, t)) : t.Sized := by
  rw [respond_eq docroot sized.rows rfl] at done
  split at done
  · split at done
    · cases done
      exact ⟨sized.buffer, sized.rows⟩
    · cases done
  · split at done
    · cases done
      exact (sized.beginSplit _ _).overlay (arguments_length ..)
    · cases done

theorem serve_sized {docroot request : List Char} {answer : Answer} (sized : s.Sized)
    (done : serve docroot s request = .ret (answer, t)) : t.Sized := by
  obtain ⟨⟨fnamepnt, buf⟩, found, done⟩ := Outcome.bind_eq_ret.mp done
  obtain ⟨new, index, done⟩ := Outcome.bind_eq_ret.mp done
  apply respond_sized _ done
  obtain ⟨old, text, size, -⟩ := getRequest_eq sized.buffer request
  exact ⟨by rw [addIndex_length index, getFile_length found, text, size], sized.rows⟩

theorem sized_of_reachable {docroot : List Char} (run : (system docroot).Reachable s) :
    s.Sized := by
  apply run.induct (I := Sized)
  · intro s fresh
    exact ⟨fresh.1, by rw [fresh.2.1, List.length_replicate]⟩
  · intro s request t sized step
    obtain ⟨answer, done⟩ := step
    exact serve_sized sized done

/-- How many rows the dispatcher needs. -/
def needed : Command → ℕ
  | .gettile => 4
  | .info => 0
  | .tiles => 5

theorem dispatch_append {cmd : Command} (enough : needed cmd ≤ args.length)
    (old : List (List Char)) : dispatch (args ++ old) cmd = dispatch args cmd := by
  have row : ∀ i, i < needed cmd → (args ++ old).getD i [] = args.getD i [] := by
    intro i small
    rw [List.getD_append _ _ _ _ (small.trans_le enough)]
  unfold dispatch
  cases cmd with
  | gettile => simp only [row 1 (by decide), row 2 (by decide), row 3 (by decide)]
  | info => rfl
  | tiles =>
      simp only [row 1 (by decide), row 2 (by decide), row 3 (by decide), row 4 (by decide)]

def clear : TileServer := ⟨List.replicate (8 * stdLen) nul, List.replicate maxHttpArgs [], 0,
  some .gettile⟩

theorem clear_reachable (docroot : List Char) : (system docroot).Reachable clear :=
  .init ⟨List.length_replicate, rfl, rfl, rfl⟩

theorem clear_sized : clear.Sized := ⟨List.length_replicate, List.length_replicate⟩

theorem fits_of_serve_clear {docroot request : List Char} {answer : Answer}
    (done : serve docroot clear request = .ret (answer, t)) : Fits docroot request := by
  obtain ⟨old, text, size, zero⟩ := getRequest_eq clear_sized.buffer request
  obtain ⟨⟨start, buf⟩, found, rest⟩ := Outcome.bind_eq_ret.mp done
  obtain ⟨new, index, rest⟩ := Outcome.bind_eq_ret.mp rest
  change addIndex start buf = _ at index
  rw [text] at found
  have blank : ' ' ∈ (requestText request).dropWhile (· ≠ '/') := by
    by_contra missing
    have old := zero fun c mem => List.eq_of_mem_replicate mem
    cases (getFile_zero old missing).symm.trans found
  obtain ⟨buf', found', name, length⟩ := getFile_append blank old
  cases found'.symm.trans found
  change cString buf (offset request) = fileName request at name
  have room : (cString buf (offset request)).getLast? = some '/' →
      offset request + (withIndex (cString buf (offset request))).length < buf.length := by
    intro slash
    by_contra full
    cases (addIndex_abort slash full).symm.trans index
  obtain ⟨new', index', named, -⟩ := addIndex_eq room
  cases index'.symm.trans index
  rw [name] at named room
  rw [length, size] at room
  change respond docroot { clear with filename := new } (offset request) = _ at rest
  rw [respond_eq docroot (clear_sized.rows : ({ clear with filename := new }).httpArgs.length = _)
    named] at rest
  refine ⟨blank, room, ?_, ?_⟩
  · intro plain
    rw [show commandOf (withIndex (fileName request)) = none from plain] at rest
    by_contra long
    cases (if_neg long).symm.trans rest
  · intro cmd found
    rw [show commandOf (withIndex (fileName request)) = some cmd from found] at rest
    by_contra long
    cases (if_neg long).symm.trans rest

def sevens : List Char := "GET /tiles/7/7/7.7.json HTTP/1.1".toList

theorem sevens_path : path sevens = "/tiles/7/7/7.7.json".toList := by decide

theorem sevens_command : commandOf (path sevens) = some .tiles := by
  rw [sevens_path]
  decide

theorem sevens_arguments :
    arguments .tiles (path sevens) = ["tiles".toList, ['7'], ['7'], ['7'], ['7']] := by
  rw [sevens_path]
  decide

theorem sevens_fits (docroot : List Char) : Fits docroot sevens where
  blank := by decide
  index := by decide
  filepath := by
    rw [sevens_command]
    intro plain
    cases plain
  rows := by
    rw [sevens_command]
    rintro cmd ⟨rfl⟩
    rw [sevens_path]
    decide

theorem sevens_reachable (docroot : List Char) :
    ∃ s, (system docroot).Reachable s ∧
      s.httpArgs = ["tiles".toList, ['7'], ['7'], ['7'], ['7'], [], [], [], [], []] := by
  obtain ⟨filename, -, eq⟩ := serve_eq (sevens_fits docroot) clear_sized
  rw [sevens_command] at eq
  refine ⟨_, .step (e := sevens) (clear_reachable docroot) ⟨_, eq⟩, ?_⟩
  rw [sevens_arguments]
  rfl

/-- The answer is the same whatever has been asked before. -/
def Determined (docroot request : List Char) : Prop :=
  ∃ answer, ∀ s, (system docroot).Reachable s → ∃ t, serve docroot s request = .ret (answer, t)

/-- The turn fits its buffers, and the request has all the components that the dispatcher reads. -/
structure Complete (docroot request : List Char) : Prop extends Fits docroot request where
  enough : ∀ cmd, commandOf (path request) = some cmd →
    needed cmd ≤ (arguments cmd (path request)).length

theorem getD_old {i : ℕ} (past : args.length ≤ i) (old : List (List Char)) :
    (args ++ old.drop args.length).getD i [] = old.getD i [] := by
  rw [List.getD_append_right _ _ _ _ past, List.getD_eq_getElem?_getD, List.getElem?_drop,
    Nat.add_sub_cancel' past, List.getD_eq_getElem?_getD]

/-- With a row missing, empty rows and sevens are told apart. -/
theorem dispatch_differs {cmd : Command} (short : args.length < needed cmd)
    (same : dispatch (args ++ clear.httpArgs.drop args.length) cmd =
      dispatch (args ++ List.drop args.length
        ["tiles".toList, ['7'], ['7'], ['7'], ['7'], [], [], [], [], []]) cmd) : False := by
  cases cmd with
  | gettile =>
      have last : args.length ≤ 3 := Nat.le_of_lt_succ short
      injection same with _ _ _ same
      simp only [getD_old last] at same
      revert same
      decide
  | info => cases short
  | tiles =>
      have last : args.length ≤ 4 := Nat.le_of_lt_succ short
      injection same with _ _ _ same
      simp only [getD_old last] at same
      revert same
      decide

theorem complete_of_determined {docroot request : List Char}
    (determined : Determined docroot request) : Complete docroot request := by
  obtain ⟨answer, all⟩ := determined
  obtain ⟨t, done⟩ := all clear (clear_reachable docroot)
  have fits := fits_of_serve_clear done
  refine ⟨fits, ?_⟩
  intro cmd found
  obtain ⟨after, run, rows⟩ := sevens_reachable docroot
  obtain ⟨u, done'⟩ := all after run
  obtain ⟨_, -, eq⟩ := serve_eq fits clear_sized
  obtain ⟨_, -, eq'⟩ := serve_eq fits (sized_of_reachable run)
  rw [found] at eq eq'
  rw [rows] at eq'
  by_contra short
  apply dispatch_differs (Nat.not_le.mp short)
  have first := eq.symm.trans done
  have second := eq'.symm.trans done'
  injection first with first
  injection second with second
  exact (congrArg Prod.fst first).trans (congrArg Prod.fst second).symm

theorem determined_iff (docroot request : List Char) :
    Determined docroot request ↔ Complete docroot request := by
  constructor
  · exact complete_of_determined
  · intro complete
    cases found : commandOf (path request) with
    | none =>
        refine ⟨.file (docroot ++ path request), ?_⟩
        intro s run
        obtain ⟨filename, -, eq⟩ := serve_eq complete.toFits (sized_of_reachable run)
        rw [found] at eq
        exact ⟨_, eq⟩
    | some cmd =>
        refine ⟨dispatch (arguments cmd (path request)) cmd, ?_⟩
        intro s run
        obtain ⟨filename, -, eq⟩ := serve_eq complete.toFits (sized_of_reachable run)
        rw [found] at eq
        dsimp only at eq
        rw [dispatch_append (complete.enough cmd found)] at eq
        exact ⟨_, eq⟩

/-- A request with no level and offset is answered with those of an earlier one. -/
theorem short_request_leaks : ¬ Determined ['.'] "GET /gettile/1/a.b ".toList := by
  intro determined
  have enough := (complete_of_determined determined).enough .gettile (by decide)
  revert enough
  decide

end TileServer
end Mio.Datastore
