import Mio.Lib.Allocation
import Mio.Lib.Scan
import Mio.Lib.Tokens

/-! The list of lights of the Hue adapter (`libhue.c`): the walk of `parse_get_all_lights` over the tokens
of a reply, and the strings that it extracts on the way. -/
namespace Mio.Adapters.Hue

open Tokens

inductive Fault where
  | null
  | dangling
  | beyond
deriving DecidableEq

/-- `hue_bulb_t`, as far as it is filled in; the name is a string by its address. -/
structure Bulb where
  id : ℤ := 0
  name : Option ℕ := none

inductive ParseState where
  | start
  | resultObj
  | key
  | value
  | stop
deriving DecidableEq

/-- The variables of the parser. The bulbs are those from `begin_bulb` on, and `bulb` is the last one; a
key is read only after one has been extracted. -/
structure Walker where
  strings : Blocks (List Char) := []
  subTokens : ℤ := 0
  state : ParseState := .start
  key : ℕ := 0
  bulbs : List Bulb := []

/-- An assignment to a field of `bulb`. -/
def setBulb (set : Bulb → Bulb) (bulbs : List Bulb) : Outcome Fault (List Bulb) :=
  match bulbs.getLast? with
  | none => .throw .null
  | some bulb => .ret (bulbs.dropLast ++ [set bulb])

/-- What becomes of a value: a name is kept, all others are freed. -/
def store (key : List Char) (val : ℕ) (bulbs : List Bulb) (strings : Blocks (List Char)) :
    Outcome Fault (List Bulb × Blocks (List Char)) :=
  if key = "name".toList then do
    let bulbs ← setBulb (fun bulb => { bulb with name := some val }) bulbs
    return (bulbs, strings)
  else do
    let strings ← strings.free .dangling val
    return (bulbs, strings)

def step (w : Walker) (t : Token) : Outcome Fault Walker :=
  match w.state with
  | .start => .ret { w with subTokens := t.size, state := if t.size = 0 then .stop else .resultObj }
  | .resultObj => .ret { w with state := if w.subTokens = 0 then .stop else .key }
  | .key =>
      let subTokens := w.subTokens - 1
      if t.kind = .object then do
        let (strings, key) := w.strings.alloc t.text
        let text ← strings.read .dangling key
        let strings ← strings.free .dangling key
        let bulbs ← setBulb (fun bulb => { bulb with id := Scan.atoi text }) (w.bulbs ++ [{}])
        return { w with strings, subTokens, key, bulbs }
      else if t.kind = .string then
        let (strings, key) := w.strings.alloc t.text
        .ret { w with strings, subTokens, state := .value, key }
      else .ret { w with subTokens }
  | .value => do
      let subTokens := w.subTokens - 1
      let (strings, val) := w.strings.alloc t.text
      let key ← strings.read .dangling w.key
      let (bulbs, strings) ← store key val w.bulbs strings
      let strings ← strings.free .dangling val
      return { w with strings, subTokens, bulbs, state := if subTokens = 0 then .stop else .key }
  | .stop => .ret w

/-- `parse_get_all_lights`: the list behind `bulb`, and the strings. -/
def parseGetAllLights (tokens : List Token) : Outcome Fault (List Bulb × Blocks (List Char)) := do
  let w ← walk .beyond step 1 {} tokens
  return (w.bulbs.getLast?.toList, w.strings)

/-- A light under its id; the text of the object begins with a brace. -/
structure Light where
  id : List Char
  digits : id ≠ [] ∧ ∀ c ∈ id, (Scan.digit 10 c).isSome
  inside : List Char
  fields : List Field

namespace Light

def object (l : Light) : Flat := ⟨'\x7b' :: l.inside, l.fields⟩

def number (l : Light) : ℕ := Scan.value 10 (l.id.filterMap (Scan.digit 10))

def tokens (l : Light) : List Token := ⟨.string, l.id, 0⟩ :: l.object.tokens

theorem layout (l : Light) : Layout 2 l.tokens := .leaf rfl l.object.layout

end Light

def lightTokens (text : List Char) (lights : List Light) : List Token :=
  ⟨.object, text, 2 * lights.length⟩ :: lights.flatMap Light.tokens

theorem lights_layout (text : List Char) (lights : List Light) : Layout 1 (lightTokens text lights) :=
  .node (.flatMap lights Light.tokens Light.layout)

/-- The bulb has the id and keeps the name of the light. -/
def Shows (strings : Blocks (List Char)) (bulb : Bulb) (l : Light) : Prop :=
  bulb.id = l.number ∧
    match l.object.get "name".toList with
    | none => bulb.name = none
    | some text => ∃ a, bulb.name = some a ∧ strings.Live a text

/-- The bulbs are those of the reply, in order; no string has been freed twice. -/
def Lists (text : List Char) (lights : List Light) : Prop :=
  ∃ bulbs strings, parseGetAllLights (lightTokens text lights) = .ret (bulbs, strings) ∧
    List.Forall₂ (Shows strings) bulbs lights

def Nameless (w : Walker) : Prop := ∀ bulb ∈ w.bulbs, ∀ a, bulb.name = some a → w.strings.Freed a

theorem setBulb_mem {set : Bulb → Bulb} {bulbs after : List Bulb} (run : setBulb set bulbs = .ret after)
    {bulb : Bulb} (mem : bulb ∈ after) : bulb ∈ bulbs ∨ ∃ last ∈ bulbs, bulb = set last := by
  unfold setBulb at run
  split at run
  · cases run
  · next last found =>
      cases run
      rcases List.mem_append.mp mem with old | new
      · exact .inl (List.mem_of_mem_dropLast old)
      · exact .inr ⟨last, List.mem_of_getLast? found, List.mem_singleton.mp new⟩

/-- Each value is freed, that of a name too. -/
theorem step_nameless {w w' : Walker} {t : Token} (nameless : Nameless w) (run : step w t = .ret w') :
    Nameless w' := by
  unfold step at run
  split at run
  · cases run
    exact nameless
  · cases run
    exact nameless
  · dsimp only at run
    split at run
    · obtain ⟨text, -, rest⟩ := Outcome.bind_eq_ret.mp run
      obtain ⟨strings, freed, rest⟩ := Outcome.bind_eq_ret.mp rest
      obtain ⟨bulbs, set, rest⟩ := Outcome.bind_eq_ret.mp rest
      cases rest
      have known : ∀ bulb ∈ w.bulbs ++ [({} : Bulb)], ∀ a, bulb.name = some a → w.strings.Freed a := by
        intro bulb mem a name
        rcases List.mem_append.mp mem with old | new
        · exact nameless bulb old a name
        · cases List.mem_singleton.mp new
          cases name
      intro bulb mem a name
      apply (Blocks.freed_free freed).2
      apply Blocks.Freed.alloc
      rcases setBulb_mem set mem with old | ⟨last, old, rfl⟩
      · exact known bulb old a name
      · exact known last old a name
    · split at run
      · cases run
        exact fun bulb mem a name => (nameless bulb mem a name).alloc _
      · cases run
        exact nameless
  · dsimp only at run
    obtain ⟨key, -, rest⟩ := Outcome.bind_eq_ret.mp run
    obtain ⟨⟨bulbs, strings⟩, choice, rest⟩ := Outcome.bind_eq_ret.mp rest
    obtain ⟨strings', freed, rest⟩ := Outcome.bind_eq_ret.mp rest
    cases rest
    obtain ⟨own, others⟩ := Blocks.freed_free freed
    intro bulb mem a name
    unfold store at choice
    split at choice
    · obtain ⟨bulbs', set, pair⟩ := Outcome.bind_eq_ret.mp choice
      cases pair
      rcases setBulb_mem set mem with old | ⟨last, -, rfl⟩
      · exact others a ((nameless bulb old a name).alloc _)
      · cases name
        exact own
    · obtain ⟨strings'', once, pair⟩ := Outcome.bind_eq_ret.mp choice
      cases pair
      exact others a ((Blocks.freed_free once).2 a ((nameless bulb mem a name).alloc _))
  · cases run
    exact nameless

theorem run_nameless {ts : List Token} {w w' : Walker} (nameless : Nameless w)
    (run : ts.foldlM step w = .ret w') : Nameless w' := by
  induction ts generalizing w with
  | nil =>
      cases run
      exact nameless
  | cons t ts ih =>
      rw [List.foldlM_cons] at run
      obtain ⟨w₁, first, rest⟩ := Outcome.bind_eq_ret.mp run
      exact ih (step_nameless nameless first) rest

theorem parse_ret {text : List Char} {lights : List Light} {bulbs : List Bulb}
    {strings : Blocks (List Char)} (run : parseGetAllLights (lightTokens text lights) = .ret (bulbs, strings)) :
    ∃ w, (lightTokens text lights).foldlM step {} = .ret w ∧ bulbs = w.bulbs.getLast?.toList ∧
      strings = w.strings := by
  unfold parseGetAllLights at run
  rw [(lights_layout text lights).walk_eq] at run
  obtain ⟨w, whole, rest⟩ := Outcome.bind_eq_ret.mp run
  cases rest
  exact ⟨w, whole, rfl, rfl⟩

/-- The name of a light that is the only one is not kept. -/
theorem not_named {text name : List Char} {l : Light} (named : l.object.get "name".toList = some name) :
    ¬ Lists text [l] := by
  rintro ⟨bulbs, strings, run, shown⟩
  obtain ⟨w, whole, rfl, rfl⟩ := parse_ret run
  have nameless : Nameless w := run_nameless (fun bulb mem => by cases mem) whole
  cases last : w.bulbs.getLast? with
  | none =>
      rw [last] at shown
      cases shown
  | some bulb =>
      rw [last] at shown
      obtain ⟨own, -⟩ := List.forall₂_cons.mp shown
      obtain ⟨-, kept⟩ := own
      rw [named] at kept
      obtain ⟨a, at_, live⟩ := kept
      exact live.not_freed (nameless bulb (List.mem_of_getLast? last) a at_)

theorem atoi_brace (text : List Char) : Scan.atoi ('\x7b' :: text) = 0 := by
  have blank : ('\x7b' :: text).dropWhile Scan.isSpace = '\x7b' :: text := rfl
  have plain : Scan.sign ('\x7b' :: text) = (1, '\x7b' :: text) := rfl
  have none : Scan.digits 10 ('\x7b' :: text) = ([], '\x7b' :: text) := rfl
  rw [Scan.atoi, Scan.atoll, blank, plain]
  dsimp only
  rw [none]
  dsimp only
  decide

theorem opened (text : List Char) (l : Light) :
    (lightTokens text [l]).foldlM step {} = (l.fields.flatMap Field.tokens).foldlM step
      { strings := [('\x7b' :: l.inside, false)], subTokens := 1, state := .key, bulbs := [{}] } := by
  have light : step { subTokens := 2, state := .key } ⟨.object, '\x7b' :: l.inside, 2 * l.fields.length⟩ = .ret
      { strings := [('\x7b' :: l.inside, false)], subTokens := 1, state := .key, bulbs := [{}] } := by
    have live := Blocks.live_alloc [] ('\x7b' :: l.inside)
    unfold step
    dsimp only
    rw [if_pos rfl, live.read, Outcome.ret_bind, live.free, Outcome.ret_bind, atoi_brace]
    rfl
  have start : step {} ⟨.object, text, 2 * [l].length⟩ = .ret { subTokens := 2, state := .resultObj } := rfl
  have id : step { subTokens := 2, state := .resultObj } ⟨.string, l.id, 0⟩ = .ret
      { subTokens := 2, state := .key } := rfl
  rw [lightTokens, List.foldlM_cons, start, Outcome.ret_bind, List.flatMap_singleton, Light.tokens,
    List.foldlM_cons, id, Outcome.ret_bind, Flat.tokens, List.foldlM_cons]
  dsimp only [Light.object]
  rw [light, Outcome.ret_bind]

theorem field_throw {w : Walker} (state : w.state = .key) {f : Field} (other : f.key ≠ "name".toList) :
    f.tokens.foldlM step w = .throw .dangling := by
  have key := (w.strings.live_alloc f.key).alloc f.value
  have val := (w.strings.alloc f.key).1.live_alloc f.value
  have freed : Blocks.Freed ((((w.strings.alloc f.key).1.alloc f.value).1).set
      ((w.strings.alloc f.key).1.alloc f.value).2 (f.value, false)) ((w.strings.alloc f.key).1.alloc f.value).2 :=
    (Blocks.freed_free (val.free Fault.dangling)).1
  have first : step w f.keyToken = .ret
      { w with
        strings := (w.strings.alloc f.key).1
        subTokens := w.subTokens - 1
        state := .value
        key := (w.strings.alloc f.key).2 } := by
    unfold step
    rw [state]
    rfl
  rw [Field.tokens, List.foldlM_cons, first, Outcome.ret_bind, List.foldlM_cons]
  unfold step
  dsimp only [Field.valueToken]
  rw [key.read, Outcome.ret_bind, store, if_neg other, val.free, Outcome.ret_bind, Outcome.pure_eq_ret,
    Outcome.ret_bind]
  dsimp only
  rw [freed.free]
  rfl

theorem not_freed_once {text : List Char} {l : Light} {f : Field} {fs : List Field} (fields : l.fields = f :: fs)
    (other : f.key ≠ "name".toList) : ¬ Lists text [l] := by
  rintro ⟨bulbs, strings, run, -⟩
  obtain ⟨w, whole, -, -⟩ := parse_ret run
  rw [opened, fields, List.flatMap_cons, List.foldlM_append, field_throw rfl other] at whole
  cases whole

/-- More than one light cannot be shown: only the last bulb is returned. -/
theorem not_several {text : List Char} {first second : Light} {more : List Light} :
    ¬ Lists text (first :: second :: more) := by
  rintro ⟨bulbs, strings, run, shown⟩
  obtain ⟨w, -, rfl, -⟩ := parse_ret run
  have length := shown.length_eq
  cases last : w.bulbs.getLast? with
  | none =>
      rw [last] at length
      cases length
  | some bulb =>
      rw [last] at length
      cases length

theorem parse_empty (text : List Char) (l : Light) (empty : l.fields = []) :
    parseGetAllLights (lightTokens text [l]) = .ret ([{}], [('\x7b' :: l.inside, false)]) := by
  unfold parseGetAllLights
  rw [(lights_layout text [l]).walk_eq, opened, empty]
  rfl

/-- The list is right if it is empty, or has one light without fields whose id is zero. -/
theorem lights_listed_iff (text : List Char) (lights : List Light) :
    Lists text lights ↔ lights = [] ∨ ∃ l, lights = [l] ∧ l.fields = [] ∧ l.number = 0 := by
  match lights with
  | [] => exact iff_of_true ⟨[], [], rfl, .nil⟩ (.inl rfl)
  | first :: second :: more =>
      refine iff_of_false not_several ?_
      rintro (none | ⟨l, one, -⟩)
      · cases none
      · cases one
  | [l] =>
      have only : ([l] = [] ∨ ∃ l', [l] = [l'] ∧ l'.fields = [] ∧ l'.number = 0) ↔
          l.fields = [] ∧ l.number = 0 := by simp
      rw [only]
      by_cases empty : l.fields = []
      · have run := parse_empty text l empty
        have none : l.object.get "name".toList = none := by
          rw [Flat.get, Flat.history, Light.object, empty]
          rfl
        constructor
        · rintro ⟨bulbs, strings, again, shown⟩
          rw [run, Outcome.ret.injEq, Prod.mk.injEq] at again
          rw [← again.1] at shown
          have id := (List.forall₂_cons.mp shown).1.1
          exact ⟨empty, by simpa using id.symm⟩
        · rintro ⟨-, zero⟩
          refine ⟨_, _, run, .cons ⟨?_, ?_⟩ .nil⟩
          · rw [zero]
            rfl
          · rw [none]
      · refine iff_of_false ?_ fun both => empty both.1
        obtain ⟨f, fs, fields⟩ := List.exists_cons_of_ne_nil empty
        by_cases named : f.key = "name".toList
        · have some : (l.object.get "name".toList).isSome := by
            rw [Flat.get, latest_isSome, Flat.history, Light.object, fields]
            exact List.mem_map.mpr ⟨(f.key, f.value), List.mem_cons_self, named⟩
          obtain ⟨name, found⟩ := Option.isSome_iff_exists.mp some
          exact not_named found
        · exact not_freed_once fields named

def kitchen : Light where
  id := "1".toList
  digits := ⟨by decide, List.forall_mem_singleton.mpr rfl⟩
  inside := "\"name\":\"Kitchen\"\x7d".toList
  fields := [⟨"name".toList, true, "Kitchen".toList⟩]

theorem kitchen_lost : ¬ ∀ (text : List Char) (lights : List Light), Lists text lights := by
  intro all
  have named : kitchen.object.get "name".toList = some "Kitchen".toList := by decide
  exact not_named named (all [] [kitchen])

end Mio.Adapters.Hue
