import Mathlib.Data.List.TakeWhile
import Mio.Tools.Refresh

/-! `miofs.c`: the node of a path, and the operations of the file system that start from one. -/
namespace Mio.Tools.MioFS

open Client

/-- `FOLDER_DELIMITER`. -/
def delimiter : UInt8 := 47

/-- `strtok_r`: the next component of the path, and what is left of it. -/
def strtokR (path : Text) : Option (Text × Text) :=
  match h : path.1.dropWhile (· == delimiter) with
  | [] => none
  | c :: rest =>
      have plain : 0 ∉ c :: rest := fun mem => path.2 ((List.dropWhile_suffix _).subset (h ▸ mem))
      some (⟨(c :: rest).takeWhile (· != delimiter), fun mem => plain ((List.takeWhile_sublist _).subset mem)⟩,
        ⟨((c :: rest).dropWhile (· != delimiter)).tail,
          fun mem => plain ((List.dropWhile_suffix _).subset (List.mem_of_mem_tail mem))⟩)

theorem strtokR_eq_none {path : Text} (h : strtokR path = none) : path.1.dropWhile (· == delimiter) = [] := by
  unfold strtokR at h
  split at h
  · assumption
  · cases h

theorem strtokR_eq_some {path folder aux : Text} (h : strtokR path = some (folder, aux)) :
    ∃ c rest, path.1.dropWhile (· == delimiter) = c :: rest ∧
      folder.1 = (c :: rest).takeWhile (· != delimiter) ∧
      aux.1 = ((c :: rest).dropWhile (· != delimiter)).tail := by
  unfold strtokR at h
  split at h
  · cases h
  · next c rest left =>
      cases h
      exact ⟨c, rest, left, rfl, rfl⟩

theorem strtokR_length {path folder aux : Text} (h : strtokR path = some (folder, aux)) :
    aux.1.length < path.1.length := by
  obtain ⟨c, rest, left, -, eq⟩ := strtokR_eq_some h
  have first : (path.1.dropWhile (· == delimiter)).length ≤ path.1.length :=
    (List.dropWhile_suffix _).sublist.length_le
  have second : ((c :: rest).dropWhile (· != delimiter)).length ≤ (c :: rest).length :=
    (List.dropWhile_suffix _).sublist.length_le
  rw [left] at first
  rw [eq, List.length_tail]
  rw [List.length_cons] at first second
  omega

/-- The components that the calls of `strtok_r` give one after the other. -/
def tokens (path : Text) : List Text :=
  match _ : strtokR path with
  | none => []
  | some (folder, aux) => folder :: tokens aux
termination_by path.1.length
decreasing_by exact strtokR_length ‹_›

/-- The loop of `getHandleFromPath`, with the answers that are left. -/
def walkPath (s : Client) (env : ℕ → Reply) (handle : ℕ) :
    List Text → Outcome Fault (Client × (ℕ → Reply) × Option ℕ)
  | [] => .ret (s, env, some handle)
  | folder :: rest => do
      let (s, err) ← updateChildren s (some handle) (env 0)
      let later := fun i => env (i + 1)
      if err ≠ 0 then .ret (s, later, none)
      else
        match ← s.search folder (s.node handle).children with
        | none => .ret (s, later, none)
        | some child =>
            if rest ≠ [] ∧ (s.node child).type ≠ .collection then .ret (s, later, none)
            else walkPath s later child rest

def getHandleFromPath (s : Client) (env : ℕ → Reply) (path : Text) :
    Outcome Fault (Client × (ℕ → Reply) × Option ℕ) :=
  walkPath s env fsRoot (tokens path)

def enoent : ℤ := 2

/-- `miofs_opendir`, its result and the handle of the directory last. -/
def miofsOpendir (s : Client) (env : ℕ → Reply) (path : Text) : Outcome Fault (Client × ℤ × Option ℕ) := do
  let (s, env, handle) ← getHandleFromPath s env path
  let (s, err) ← updateChildren s handle (env 0)
  if err ≠ 0 then return (s, -enoent, none)
  else
    match handle with
    | some a => return (s, 0, some a)
    | none => return (s, -enoent, none)

/-- `miofs_open`, its result and the handle of the file last. -/
def miofsOpen (s : Client) (env : ℕ → Reply) (data : DataReply) (path : Text) :
    Outcome Fault (Client × ℤ × Option ℕ) := do
  let (s, _, handle) ← getHandleFromPath s env path
  match handle with
  | some a =>
      let (s, _) ← updateNodeData s a data
      return (s, 0, some a)
  | none => return (s, -enoent, none)

structure Stat where
  mtim : Timespec := ⟨0, 0⟩
  atim : Timespec := ⟨0, 0⟩
  mode : ℕ := 0
  nlink : ℕ := 0
  size : ℕ := 0
deriving DecidableEq

def sIfdir : ℕ := 0o040000
def sIfreg : ℕ := 0o100000

/-- `strlen` of the data of a node. -/
def dataLength : Option (CString UInt8) → Outcome Fault ℕ
  | none => .ret 0
  | some block =>
      match block.contents 0 with
      | none => .throw .outOfBounds
      | some data => .ret data.length

/-- `miofs_getattr`, its result and the buffer last. -/
def miofsGetattr (s : Client) (env : ℕ → Reply) (data : DataReply) (path : Text) :
    Outcome Fault (Client × ℤ × Stat) := do
  let (s, env, handle) ← getHandleFromPath s env path
  match handle with
  | none => return (s, -enoent, {})
  | some a =>
      let st : Stat := { mtim := (s.node a).modificationTime, atim := (s.node a).accessTime }
      if (s.node a).type = .collection then
        let (s, _) ← updateChildren s (some a) (env 0)
        return (s, 0, { st with mode := sIfdir ||| 0o555, nlink := 2, size := (s.node a).children.length })
      else
        let (s, _) ← updateNodeData s a data
        let size ← dataLength (s.node a).data
        return (s, 0, { st with mode := sIfreg ||| 0o444, nlink := 1, size })

def components (path : List UInt8) : List (List UInt8) := (path.splitOn delimiter).filter (· ≠ [])

theorem components_nil : components [] = [] := rfl

theorem components_delimiter (path : List UInt8) : components (delimiter :: path) = components path := by
  unfold components
  rw [List.splitOn_eq_splitOnP, List.splitOnP_cons_eq_if_modifyHead, if_pos (by simp), List.filter_cons_of_neg (by simp)]
  rfl

theorem components_dropWhile (path : List UInt8) :
    components (path.dropWhile (· == delimiter)) = components path := by
  induction path with
  | nil => rfl
  | cons c path ih =>
      by_cases slash : c = delimiter
      · rw [slash, List.dropWhile_cons_of_pos (by simp), ih, components_delimiter]
      · rw [List.dropWhile_cons_of_neg (by simpa using slash)]

theorem components_piece {piece : List UInt8} (plain : ∀ c ∈ piece, (c == delimiter) = false)
    (some : piece ≠ []) : components piece = [piece] := by
  unfold components
  rw [List.splitOn_eq_splitOnP, List.splitOnP_eq_singleton plain, List.filter_cons_of_pos (by simpa using some),
    List.filter_nil]

theorem components_append {piece : List UInt8} (plain : ∀ c ∈ piece, (c == delimiter) = false)
    (some : piece ≠ []) (rest : List UInt8) :
    components (piece ++ delimiter :: rest) = piece :: components rest := by
  unfold components
  rw [List.splitOn_eq_splitOnP, List.splitOnP_append_cons_of_forall_mem plain delimiter (by simp),
    List.filter_cons_of_pos (by simpa using some)]
  rfl

theorem components_cons {c : UInt8} (plain : (c == delimiter) = false) (rest : List UInt8) :
    components (c :: rest) = (c :: rest).takeWhile (· != delimiter) ::
      components ((c :: rest).dropWhile (· != delimiter)).tail := by
  have inside : ∀ d ∈ (c :: rest).takeWhile (· != delimiter), (d == delimiter) = false := by
    intro d mem
    simpa using List.mem_takeWhile_imp mem
  have first : (c :: rest).takeWhile (· != delimiter) ≠ [] := by
    rw [List.takeWhile_cons_of_pos (by simpa using plain)]
    exact List.cons_ne_nil _ _
  conv_lhs => rw [← List.takeWhile_append_dropWhile (p := (· != delimiter)) (l := c :: rest)]
  cases left : (c :: rest).dropWhile (· != delimiter) with
  | nil => rw [List.append_nil, components_piece inside first, List.tail_nil, components_nil]
  | cons d others =>
      have slash : d = delimiter := by
        have stops := List.head?_dropWhile_not (· != delimiter) (c :: rest)
        rw [left] at stops
        simpa using stops
      rw [slash, components_append inside first, List.tail_cons]

theorem tokens_components (path : Text) : (tokens path).map Subtype.val = components path.1 := by
  fun_induction tokens path with
  | case1 path h =>
      rw [← components_dropWhile, strtokR_eq_none h]
      rfl
  | case2 path folder aux h ih =>
      obtain ⟨c, rest, left, first, others⟩ := strtokR_eq_some h
      have plain : (c == delimiter) = false := by
        have stops := List.head?_dropWhile_not (· == delimiter) path.1
        rw [left] at stops
        simpa using stops
      rw [List.map_cons, ih, ← components_dropWhile path.1, left, components_cons plain, first, others]

/-- The node that the components lead to: each refresh succeeds, each component is the id of a child,
and only the last node need not be a collection. -/
inductive Resolves : Client → (ℕ → Reply) → ℕ → List (List UInt8) → ℕ → Prop
  | here {s : Client} {env : ℕ → Reply} {a : ℕ} : Resolves s env a [] a
  | into {s s' : Client} {env : ℕ → Reply} {a child b : ℕ} {id : List UInt8} {rest : List (List UInt8)}
      (refreshed : updateChildren s (some a) (env 0) = .ret (s', 0))
      (found : (s'.node a).children.find? (fun c => (s'.node c).id.map Subtype.val = some id) = some child)
      (collection : rest ≠ [] → (s'.node child).type = .collection)
      (more : Resolves s' (fun i => env (i + 1)) child rest b) : Resolves s env a (id :: rest) b

/-- A lookup gives the node that the path leads to, and none if there is none; then the operations end
with `ENOENT`, and leave the nodes as the lookup has left them. -/
def LooksUp (s : Client) (env : ℕ → Reply) (data : DataReply) (path : Text) : Prop :=
  ∃ s' later handle, getHandleFromPath s env path = .ret (s', later, handle) ∧
    (∀ a, handle = some a ↔ Resolves s env fsRoot (components path.1) a) ∧
    (handle = none → miofsOpendir s env path = .ret (s', -enoent, none) ∧
      miofsOpen s env data path = .ret (s', -enoent, none) ∧
      miofsGetattr s env data path = .ret (s', -enoent, {}))

section Walk

variable {s : Client}

theorem Client.Known.child (k : s.Known) {a : ℕ} (handle : s.Handle a) :
    ∀ c ∈ (s.node a).children, s.Handle c ∧ ∃ id, (s.node c).id = some id := by
  intro c mem
  have inner : s.Inner c := handle.elim (fun known => .inl (k.children a known c mem))
    fun folder => k.folderChildren a folder c mem
  refine ⟨inner.handle, ?_⟩
  rcases inner with known | ⟨pos, lt⟩
  · exact (k.hash c known).2.2.2
  · exact (k.folder c lt).2 pos

theorem Client.Keeps.handle {s' : Client} (kept : s.Keeps s') {a : ℕ} (handle : s.Handle a) : s'.Handle a :=
  handle.imp_left (kept.nodesH a)

theorem find_id (s : Client) (id : Text) (l : List ℕ) :
    (l.find? fun c => (s.node c).id.map Subtype.val = some id.1) = l.find? fun c => (s.node c).id = some id := by
  congr 1
  funext c
  rw [decide_eq_decide, Option.map_eq_some_iff]
  constructor
  · rintro ⟨own, eq, same⟩
    rw [eq, Subtype.ext same]
  · exact fun eq => ⟨id, eq, rfl⟩

/-- No node is reached if the refresh or the search fails, or a file stands in the middle. -/
theorem resolves_cons {s' : Client} {env : ℕ → Reply} {a b : ℕ} {result : ℤ} {id : List UInt8}
    {rest : List (List UInt8)} (run : updateChildren s (some a) (env 0) = .ret (s', result)) :
    Resolves s env a (id :: rest) b ↔ result = 0 ∧ ∃ child,
      (s'.node a).children.find? (fun c => (s'.node c).id.map Subtype.val = some id) = some child ∧
      (rest ≠ [] → (s'.node child).type = .collection) ∧ Resolves s' (fun i => env (i + 1)) child rest b := by
  constructor
  · intro resolves
    cases resolves with
    | into refreshed found collection more =>
        rw [run] at refreshed
        cases refreshed
        exact ⟨rfl, _, found, collection, more⟩
  · rintro ⟨rfl, child, found, collection, more⟩
    exact .into run found collection more

theorem walkPath_ret (k : s.Known) (env : ℕ → Reply) {a : ℕ} (handle : s.Handle a) (folders : List Text) :
    ∃ s' later r, walkPath s env a folders = .ret (s', later, r) ∧ s'.Known ∧
      ∀ b, r = some b ↔ Resolves s env a (folders.map Subtype.val) b := by
  induction folders generalizing s env a with
  | nil =>
      refine ⟨s, env, some a, rfl, k, fun b => ?_⟩
      constructor
      · rintro ⟨⟩
        exact .here
      · rintro ⟨⟩
        rfl
  | cons folder rest ih =>
      obtain ⟨s₁, result, run, k₁, kept, -⟩ := updateChildren_ret k handle (env 0)
      rw [walkPath, run, Outcome.ret_bind]
      dsimp only
      simp only [List.map_cons, resolves_cons run]
      by_cases failed : result = 0
      swap
      · rw [if_pos failed]
        exact ⟨s₁, _, none, rfl, k₁, fun b => iff_of_false nofun fun resolves => failed resolves.1⟩
      have children := k₁.child (kept.handle handle)
      rw [if_neg (not_not_intro failed), s₁.search_eq folder fun c mem => (children c mem).2,
        Outcome.ret_bind, find_id]
      cases found : (s₁.node a).children.find? fun c => (s₁.node c).id = some folder with
      | none => exact ⟨s₁, _, none, rfl, k₁, fun b => iff_of_false nofun fun ⟨_, _, hit, _⟩ => nomatch hit⟩
      | some child =>
          dsimp only
          by_cases file : rest ≠ [] ∧ (s₁.node child).type ≠ .collection
          · rw [if_pos file]
            refine ⟨s₁, _, none, rfl, k₁, fun b => iff_of_false nofun ?_⟩
            rintro ⟨-, _, ⟨⟩, collection, -⟩
            exact file.2 (collection (mt List.map_eq_nil_iff.mp file.1))
          rw [if_neg file]
          have inside := (children child (List.mem_of_find?_eq_some found)).1
          obtain ⟨s', later, r, more, k', right⟩ := ih k₁ (fun i => env (i + 1)) inside
          refine ⟨s', later, r, more, k', fun b => (right b).trans ?_⟩
          constructor
          · intro resolves
            refine ⟨failed, child, rfl, fun left => ?_, resolves⟩
            by_contra other
            exact file ⟨mt List.map_eq_nil_iff.mpr left, other⟩
          · rintro ⟨-, _, ⟨⟩, -, resolves⟩
            exact resolves

/-- `opendir` refreshes the node before it looks whether there is one. -/
theorem miofsOpendir_null {s' : Client} {env later : ℕ → Reply} {path : Text}
    (missing : getHandleFromPath s env path = .ret (s', later, none)) :
    miofsOpendir s env path = .throw .null := by
  unfold miofsOpendir
  rw [missing]
  rfl

/-- The lookup gives the right node for every path, but the operations are right for those paths only
that lead to a node. -/
theorem looksUp_iff (k : s.Known) (env : ℕ → Reply) (data : DataReply) (path : Text) :
    (∃ s' later handle, getHandleFromPath s env path = .ret (s', later, handle) ∧
      ∀ a, handle = some a ↔ Resolves s env fsRoot (components path.1) a) ∧
      (LooksUp s env data path ↔ ∃ a, Resolves s env fsRoot (components path.1) a) := by
  obtain ⟨s', later, r, run, -, right⟩ := walkPath_ret k env (a := fsRoot) (.inr (by decide)) (tokens path)
  rw [tokens_components] at right
  refine ⟨⟨s', later, r, run, right⟩, ?_, ?_⟩
  · rintro ⟨t, later', handle, again, reaches, null⟩
    cases handle with
    | some a => exact ⟨a, (reaches a).mp rfl⟩
    | none =>
        have ends := (null rfl).1
        rw [miofsOpendir_null again] at ends
        cases ends
  · rintro ⟨a, resolves⟩
    have found := (right a).mpr resolves
    exact ⟨s', later, r, run, right, fun none => nomatch found.symm.trans none⟩

end Walk

def unread : DataReply := ⟨⟨0, 0⟩, 0, .other, ⟨0, 0⟩⟩

theorem looksUp_collections : LooksUp subscribed (fun _ => answered none) unread
    (text "//my_collections/room/" (by decide)) :=
  (looksUp_iff (known_init 300 ⟨0, 0⟩ (some [(text "room" (by decide), .collection)])) (fun _ => answered none)
    unread (text "//my_collections/room/" (by decide))).2.mpr
    ⟨4, .into rfl rfl (fun _ => rfl) (.into rfl rfl (fun last => absurd rfl last) .here)⟩

def listed : Reply := ⟨⟨1000, 0⟩, some [some (text "inner" (by decide))], fun _ => .collection⟩

/-- The item of an empty collection has no node. -/
def empty : Reply := ⟨⟨1000, 0⟩, some [none], fun _ => .collection⟩

def refused : Reply := ⟨⟨2000, 0⟩, none, fun _ => .collection⟩

def inner : Text := text "/my_collections/room/inner" (by decide)

theorem tokens_inner : tokens inner =
    [text "my_collections" (by decide), text "room" (by decide), text "inner" (by decide)] :=
  List.map_injective_iff.mpr Subtype.val_injective ((tokens_components inner).trans (by decide))

def after (s : Client) (a : ℕ) (reply : Reply) : Client :=
  match updateChildren s (some a) reply with
  | .ret (s', _) => s'
  | _ => s

theorem Client.Known.after {s : Client} (k : s.Known) {a : ℕ} (handle : s.Handle a) (reply : Reply) :
    (after s a reply).Known := by
  obtain ⟨s', result, run, k', -⟩ := updateChildren_ret k handle reply
  rw [MioFS.after, run]
  exact k'

/-- The children of `room` and of the directory inside are known. -/
def visited : Client := after (after subscribed 4 listed) 5 empty

theorem known_visited : visited.Known :=
  ((known_init _ _ _).after (.inl (by decide)) listed).after (.inl (by decide)) empty

theorem visited_getattr : miofsGetattr subscribed (fun i => if i < 3 then listed else empty) unread inner =
    .ret (visited, 0, { mode := sIfdir ||| 0o555, nlink := 2 }) := by
  unfold miofsGetattr getHandleFromPath
  rw [tokens_inner]
  rfl

/-- A query that fails after `getattr` has found the directory: `opendir` reads through a null pointer. -/
theorem opendir_missing : ¬ ∀ s : Client, s.Known → ∀ env data path, LooksUp s env data path := by
  intro all
  obtain ⟨s', later, handle, run, reaches, null⟩ := all visited known_visited (fun _ => refused) unread inner
  cases handle with
  | none =>
      have ends := (null rfl).1
      rw [miofsOpendir_null run] at ends
      cases ends
  | some a =>
      rw [getHandleFromPath, tokens_inner] at run
      cases run

end Mio.Tools.MioFS
