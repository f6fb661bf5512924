import Mathlib.Data.Int.Basic
import Mathlib.Tactic.Common
import Mio.Lib.Outcome
import Mio.LibMio.Elements

/-! What the handlers of `mio_handlers.c` keep of where in a document they are. -/
namespace Mio.LibMio

/-- The part of `mio_xml_parser_data_t` that every handler keeps alike. -/
structure ParserData where
  prevElementName : Option Tag := none
  currElementName : Option Tag := none
  prevDepth : ℤ := 0
  currDepth : ℤ := 0
  /-- The names from `parent` on along `prev`. -/
  parents : List (Option Tag) := []

namespace ParserData

variable {x : ParserData} {name owner : Tag} {depth : ℤ} {above : List (Option Tag)}

/-- `_mio_xml_data_update_start_element`. -/
def startElement (x : ParserData) (name : Tag) : ParserData where
  prevElementName := x.currElementName
  currElementName := some name
  prevDepth := x.currDepth + 1
  currDepth := x.currDepth + 1
  parents := if x.prevDepth < x.currDepth + 1 then x.currElementName :: x.parents else x.parents

/-- `_mio_xml_data_update_end_element`. The parent of a root is freed when the root ends, and nothing
is called after that. -/
def endElement (x : ParserData) : Outcome Empty ParserData :=
  let closed : ParserData := { x with prevDepth := x.currDepth, currDepth := x.currDepth - 1 }
  if x.prevDepth > x.currDepth then
    match x.parents with
    | _ :: parent :: rest => .ret { closed with parents := parent :: rest }
    | _ => .abort "parent"
  else .ret closed

/-- Directly inside an element, before its first child or behind one. -/
structure Inside (x : ParserData) (depth : ℤ) (owner : Tag) (above : List (Option Tag)) : Prop where
  level : x.currDepth = depth
  stack : x.prevDepth = depth ∧ x.currElementName = some owner ∧ x.parents = above ∨
    x.prevDepth = depth + 1 ∧ x.parents = some owner :: above

/-- The parent of an element that starts is the element around it. -/
theorem Inside.parents (inside : x.Inside depth owner above) :
    (x.startElement name).parents = some owner :: above := by
  have level := inside.level
  rcases inside.stack with ⟨prev, curr, parents⟩ | ⟨prev, parents⟩
  · rw [startElement, if_pos (by omega), curr, parents]
  · rw [startElement, if_neg (by omega), parents]

theorem Inside.start (inside : x.Inside depth owner above) (name : Tag) :
    (x.startElement name).Inside (depth + 1) name (some owner :: above) :=
  ⟨congrArg (· + 1) inside.level,
    .inl ⟨congrArg (· + 1) inside.level, rfl, inside.parents⟩⟩

theorem Inside.stop (inside : x.Inside (depth + 1) name (some owner :: above)) :
    ∃ y, x.endElement = .ret y ∧ y.Inside depth owner above := by
  have level := inside.level
  rcases inside.stack with ⟨prev, curr, parents⟩ | ⟨prev, parents⟩
  · have kept : ¬ x.prevDepth > x.currDepth := by omega
    refine ⟨_, if_neg kept, ⟨?_, .inr ⟨level, parents⟩⟩⟩
    change x.currDepth - 1 = depth
    omega
  · have popped : x.prevDepth > x.currDepth := by omega
    refine ⟨{ x with
      prevDepth := x.currDepth
      currDepth := x.currDepth - 1
      parents := some owner :: above }, ?_, ⟨?_, .inr ⟨level, rfl⟩⟩⟩
    · rw [endElement, if_pos popped, parents]
    · change x.currDepth - 1 = depth
      omega

/-- The element around the root has no name, and nothing closes it. -/
theorem Inside.finish (inside : x.Inside depth owner [none]) : ∃ y, x.endElement = .ret y := by
  unfold endElement
  rcases inside.stack with ⟨prev, -, -⟩ | ⟨-, parents⟩
  · have level := inside.level
    have kept : ¬ x.prevDepth > x.currDepth := by omega
    exact ⟨_, if_neg kept⟩
  · rw [parents]
    split <;> exact ⟨_, rfl⟩

theorem inside_root (root : Tag) : (({} : ParserData).startElement root).Inside 1 root [none] :=
  ⟨rfl, .inl ⟨rfl, rfl, rfl⟩⟩

/-- The data alone, given what a start function does to it. -/
def handler (start : ParserData → Tag → ParserData) : Xml.Handler Tag Attr ParserData where
  startElement x name _ := .ret (start x name)
  endElement x _ := x.endElement

/-- As `mio_XMLstart_schedule_query` does it: the names are shifted once more, before. -/
def shiftStart (x : ParserData) (name : Tag) : ParserData :=
  { x with prevElementName := x.currElementName, currElementName := some name }.startElement name

/-- As `mio_XMLstart_collection_parents_query` does it: the names are shifted once more, behind. -/
def startShift (x : ParserData) (name : Tag) : ParserData :=
  { x.startElement name with prevElementName := some name }

/-- At some depth, with the parents of that many levels. -/
structure Level (x : ParserData) (depth : ℤ) (n : ℕ) : Prop where
  level : x.currDepth = depth
  stack : x.prevDepth = depth ∧ x.parents.length = n ∨
    x.prevDepth = depth + 1 ∧ x.parents.length = n + 1

variable {n : ℕ}

theorem Level.start (at_ : x.Level depth n) (name : Tag) :
    (x.startElement name).Level (depth + 1) (n + 1) := by
  have level := at_.level
  refine ⟨congrArg (· + 1) level, .inl ⟨congrArg (· + 1) level, ?_⟩⟩
  rcases at_.stack with ⟨prev, parents⟩ | ⟨prev, parents⟩
  · rw [startElement, if_pos (by omega), List.length_cons, parents]
  · rw [startElement, if_neg (by omega), parents]

theorem Level.shiftStart (at_ : x.Level depth n) (name : Tag) :
    (x.shiftStart name).Level (depth + 1) (n + 1) := by
  have shifted : Level { x with
      prevElementName := x.currElementName
      currElementName := some name } depth n := ⟨at_.level, at_.stack⟩
  exact shifted.start name

theorem Level.stop (at_ : x.Level (depth + 1) (n + 1)) :
    ∃ y, x.endElement = .ret y ∧ y.Level depth n := by
  have level := at_.level
  have back : x.currDepth - 1 = depth := by omega
  rcases at_.stack with ⟨prev, parents⟩ | ⟨prev, parents⟩
  · have kept : ¬ x.prevDepth > x.currDepth := by omega
    exact ⟨_, if_neg kept, back, .inr ⟨level, parents⟩⟩
  · have popped : x.prevDepth > x.currDepth := by omega
    rw [endElement, if_pos popped]
    match stack : x.parents with
    | [] =>
        rw [stack] at parents
        cases parents
    | [_] =>
        rw [stack] at parents
        cases parents
    | _ :: parent :: rest =>
        rw [stack] at parents
        exact ⟨_, rfl, back, .inr ⟨level, Nat.succ.inj parents⟩⟩

/-- No end finds the stack of parents too low. -/
theorem Level.run {start : ParserData → Tag → ParserData}
    (steps : ∀ x depth n name, Level x depth n → Level (start x name) (depth + 1) (n + 1))
    {ss : List (Xml.Stanza Tag Attr)} {calls : List (Xml.Callback Tag Attr)}
    (reports : Xml.Reports ss calls) (at_ : x.Level depth n) :
    ∃ y, (handler start).run x calls = .ret y ∧ y.Level depth n := by
  induction reports generalizing x depth n with
  | nil => exact ⟨x, rfl, at_⟩
  | text chunks nonempty _ ih =>
      clear nonempty
      obtain ⟨y, through, back⟩ := ih at_
      refine ⟨y, ?_, back⟩
      induction chunks with
      | nil => exact through
      | cons c chunks next => exact next
  | @tag name _ _ _ _ inside calls _ _ _ inward onward =>
      obtain ⟨y, through, back⟩ := inward (steps x depth n name at_)
      obtain ⟨z, ended, out⟩ := back.stop
      obtain ⟨w, rest, last⟩ := onward out
      refine ⟨w, ?_, last⟩
      change (handler start).run (start x name) (inside ++ .endElement name :: calls) = _
      rw [Xml.Handler.run_append, through, Outcome.ret_bind, Xml.Handler.run]
      change endElement y >>= _ = _
      rw [ended]
      exact rest

end ParserData
end Mio.LibMio
