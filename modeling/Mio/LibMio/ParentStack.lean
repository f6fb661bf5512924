import Mathlib.Order.Basic
import Mio.Lib.Heap
import Mio.LibMio.ParserData

/-! The stack of parents of `mio_handlers.c` as it lies in memory: an entry is pushed at a start tag, and
freed at an end tag. -/
namespace Mio.LibMio.ParentStack

open Heap

/-- What can be wrong with a pointer that is used. -/
inductive Dangling where
  | null
  | freed
deriving DecidableEq

/-- `mio_xml_parser_parent_data_t`; its `prev` is the link of the heap. -/
structure Entry where
  parent : Option Tag := none
  next : Option ℕ := none

abbrev Memory := Exec (Heap Entry) Dangling

/-- The names, the depths and the stack of `mio_xml_parser_data_t`. -/
structure Parser where
  prevElementName : Option Tag := none
  currElementName : Option Tag := none
  prevDepth : ℤ := 0
  currDepth : ℤ := 0
  parent : Option ℕ := none

/-- `mio_xml_parser_parent_data_new`. -/
def parentDataNew : Memory ℕ := alloc ({}, none)

/-- `mio_xml_parser_parent_data_free`; a null pointer may be freed. -/
def parentDataFree : Option ℕ → Memory Unit
  | none => pure ()
  | some p => free .freed p

def setNext (p : ℕ) (next : Option ℕ) : Memory Unit :=
  change .freed p fun e => ({ e.1 with next := next }, e.2)

def setPrev (p : ℕ) (prev : Option ℕ) : Memory Unit := change .freed p fun e => (e.1, prev)

def setParent (p : ℕ) (parent : Option Tag) : Memory Unit :=
  change .freed p fun e => ({ e.1 with parent := parent }, e.2)

/-- The entry above the one that `xml_data->parent` points to. -/
def pushParent : Option ℕ → Memory ℕ
  | none => parentDataNew
  | some top => do
      let e ← load .freed top
      parentDataFree e.1.next
      let parentData ← parentDataNew
      setNext top (some parentData)
      setPrev parentData (some top)
      return parentData

/-- `_mio_xml_data_update_start_element`. -/
def updateStartElement (x : Parser) (name : Tag) : Memory Parser :=
  if x.prevDepth < x.currDepth + 1 then do
    let parentData ← pushParent x.parent
    setParent parentData x.currElementName
    return ⟨x.currElementName, some name, x.currDepth + 1, x.currDepth + 1, some parentData⟩
  else return ⟨x.currElementName, some name, x.currDepth + 1, x.currDepth + 1, x.parent⟩

/-- The entry below is the top again; the one of the root is freed at once. -/
def popParent (parent : Option ℕ) : Memory (Option ℕ) :=
  match parent with
  | none => Exec.throw fun _ => .null
  | some top => do
      let e ← load .freed top
      match e.2 with
      | none => Exec.throw fun _ => .null
      | some below => do
          let e ← load .freed below
          parentDataFree e.1.next
          setNext below none
          let e ← load .freed below
          if e.1.parent = none then parentDataFree (some below) else pure ()
          return some below

/-- `_mio_xml_data_update_end_element`. -/
def updateEndElement (x : Parser) : Memory Parser :=
  if x.prevDepth > x.currDepth then do
    let parent ← popParent x.parent
    return { x with parent, prevDepth := x.currDepth, currDepth := x.currDepth - 1 }
  else return { x with prevDepth := x.currDepth, currDepth := x.currDepth - 1 }

/-- `xml_data->parent->parent`. -/
def parentName (x : Parser) : Memory (Option Tag) :=
  match x.parent with
  | none => Exec.throw fun _ => .null
  | some top => do
      let e ← load .freed top
      return e.1.parent

/-- The names that start, each with the name that stands in the stack then. -/
def track (x : Parser) : List (Xml.Callback Tag Attr) → Memory (Parser × List (Tag × Option Tag))
  | [] => return (x, [])
  | .characterData _ :: calls => track x calls
  | .startElement name _ :: calls => do
      let x ← updateStartElement x name
      let parent ← parentName x
      let (x, rest) ← track x calls
      return (x, (name, parent) :: rest)
  | .endElement _ :: calls => do
      let x ← updateEndElement x
      track x calls

mutual

/-- Each element of a tree with its parent, in the order in which they start. -/
def family (parent : Option Tag) : Xml.Stanza Tag Attr → List (Tag × Option Tag)
  | .tag name _ children => (name, parent) :: families (some name) children
  | .text _ => []

def families (parent : Option Tag) : List (Xml.Stanza Tag Attr) → List (Tag × Option Tag)
  | [] => []
  | s :: rest => family parent s ++ families parent rest

end

/-- Each entry points up to the one that was pushed on it. -/
def Upward (above : Option ℕ) : List (ℕ × Entry) → Prop
  | [] => True
  | (p, e) :: l => e.next = above ∧ Upward (some p) l

/-- The list of names is laid out in memory, and nothing else is different. -/
structure Stands (x : Parser) (h : Heap Entry) (y : ParserData) : Prop where
  prevName : x.prevElementName = y.prevElementName
  currName : x.currElementName = y.currElementName
  prevDepth : x.prevDepth = y.prevDepth
  currDepth : x.currDepth = y.currDepth
  stack : ∃ l, h.Linked l ∧ x.parent = first l none ∧ l.map (·.2.parent) = y.parents ∧ Upward none l

variable {h : Heap Entry} {x : Parser} {y y' : ParserData} {l rest : List (ℕ × Entry)} {top below : ℕ}
  {e e' : Entry} {name owner : Tag} {depth : ℤ} {above : List (Option Tag)}

theorem setParent_done {prev : Option ℕ} (there : h.nodes top = some (e, prev)) (parent : Option Tag) :
    setParent top parent h = .ret ((), h.set top (some ({ e with parent := parent }, prev))) :=
  change_done Dangling.freed there _

/-- An entry without a name is on top of the others, which keep theirs. -/
theorem pushParent_done (linked : h.Linked l) (up : Upward none l) :
    ∃ p h' l', pushParent (first l none) h = .ret (p, h') ∧ h'.Linked ((p, {}) :: l') ∧
      Upward none ((p, {}) :: l') ∧ l'.map (·.2.parent) = l.map (·.2.parent) := by
  cases l with
  | nil => exact ⟨_, _, [], rfl, linked.push {}, ⟨rfl, trivial⟩, rfl⟩
  | cons entry rest =>
      obtain ⟨top, e⟩ := entry
      obtain ⟨last, up⟩ := up
      have there : h.nodes top = some (e, first rest none) := linked.segment.1
      have ne : top ≠ h.fresh := (linked.old top List.mem_cons_self).ne
      have lifted : pushParent (some top) h = (do
          let parentData ← parentDataNew
          setNext top (some parentData)
          setPrev parentData (some top)
          return parentData) h := by
        refine (Exec.bind_of_ret (load_done Dangling.freed there)).trans ?_
        dsimp only
        rw [last]
        rfl
      refine ⟨h.fresh, _, (top, { e with next := some h.fresh }) :: rest, lifted.trans ?_,
        (linked.put (a := []) { e with next := some h.fresh }).push {}, ⟨rfl, rfl, up⟩, rfl⟩
      refine (Exec.bind_of_ret rfl).trans ?_
      refine (Exec.bind_of_ret (change_done Dangling.freed (?_ : _ = some (e, first rest none)) _)).trans ?_
      · exact (set_of_ne h ne _).trans there
      refine (Exec.bind_of_ret (change_done Dangling.freed (?_ : _ = some ({}, none)) _)).trans ?_
      · exact (set_of_ne _ ne.symm _).trans (set_self h _ _)
      have nodes : Function.update (Function.update (Function.update h.nodes h.fresh (some ({}, none))) top
          (some ({ e with next := some h.fresh }, first rest none))) h.fresh (some ({}, some top)) =
          Function.update (Function.update h.nodes top (some ({ e with next := some h.fresh }, first rest none)))
            h.fresh (some ({}, some top)) := by
        rw [Function.update_comm ne, Function.update_idem, Function.update_comm ne.symm]
      exact congrArg (fun nodes => Outcome.ret (h.fresh, (⟨nodes, h.fresh + 1⟩ : Heap Entry))) nodes

/-- The top is freed, and the entry below points to nothing above it; only an entry without a name is
freed as well. -/
theorem popParent_done (linked : h.Linked ((top, e) :: (below, e') :: rest))
    (up : Upward none ((top, e) :: (below, e') :: rest)) :
    ∃ h', popParent (some top) h = .ret (some below, h') ∧ (e'.parent ≠ none →
      h'.Linked ((below, { e' with next := none }) :: rest) ∧
        Upward none ((below, { e' with next := none }) :: rest)) := by
  obtain ⟨-, back, up⟩ := up
  have there : h.nodes top = some (e, some below) := linked.segment.1
  have under : h.nodes below = some (e', first rest none) := linked.segment.2.1
  have ne : below ≠ top := fun same => (@Linked.apart _ h [] _ top e linked).2 (same ▸ List.mem_cons_self)
  have popped := (linked.pop none).put (a := []) { e' with next := none }
  have there' : ((h.set top none).set below (some ({ e' with next := none }, first rest none))).nodes below =
      some ({ e' with next := none }, first rest none) := set_self _ _ _
  have front : popParent (some top) h = (do
      let e ← load Dangling.freed below
      if e.1.parent = none then parentDataFree (some below) else pure ()
      return some below : Memory (Option ℕ))
        ((h.set top none).set below (some ({ e' with next := none }, first rest none))) := by
    refine (Exec.bind_of_ret (load_done Dangling.freed there)).trans ?_
    refine (Exec.bind_of_ret (load_done Dangling.freed under)).trans ?_
    dsimp only
    rw [back]
    refine (Exec.bind_of_ret (free_done Dangling.freed there)).trans ?_
    exact Exec.bind_of_ret (change_done Dangling.freed ((set_of_ne h ne _).trans under) _)
  rw [front, Exec.bind_of_ret (load_done Dangling.freed there')]
  dsimp only
  by_cases named : e'.parent = none
  · rw [if_pos named]
    exact ⟨_, Exec.bind_of_ret (free_done Dangling.freed there'), fun some => absurd named some⟩
  · rw [if_neg named]
    exact ⟨_, rfl, fun _ => ⟨popped, rfl, up⟩⟩

theorem updateStartElement_stands (stands : Stands x h y) (name : Tag) :
    ∃ x' h', updateStartElement x name h = .ret (x', h') ∧ Stands x' h' (y.startElement name) := by
  obtain ⟨l, linked, parent, names, up⟩ := stands.stack
  unfold updateStartElement
  by_cases deeper : x.prevDepth < x.currDepth + 1
  · obtain ⟨p, h', l', run, pushed, up', kept⟩ := pushParent_done linked up
    have there : h'.nodes p = some ({}, first l' none) := pushed.segment.1
    rw [if_pos deeper, parent, Exec.bind_of_ret run,
      Exec.bind_of_ret (setParent_done there x.currElementName)]
    refine ⟨_, _, rfl, stands.currName, rfl, ?_, ?_, (p, ⟨x.currElementName, none⟩) :: l', ?_, rfl, ?_, up'⟩
    · exact congrArg (· + 1) stands.currDepth
    · exact congrArg (· + 1) stands.currDepth
    · exact pushed.put (a := []) ⟨x.currElementName, none⟩
    · rw [stands.prevDepth, stands.currDepth] at deeper
      rw [List.map_cons, kept, names, ParserData.startElement, if_pos deeper, stands.currName]
  · rw [if_neg deeper]
    refine ⟨_, _, rfl, stands.currName, rfl, ?_, ?_, l, linked, parent, ?_, up⟩
    · exact congrArg (· + 1) stands.currDepth
    · exact congrArg (· + 1) stands.currDepth
    · rw [stands.prevDepth, stands.currDepth] at deeper
      rw [names, ParserData.startElement, if_neg deeper]

theorem updateEndElement_stands (stands : Stands x h y) (inside : y.Inside (depth + 1) name (some owner :: above)) :
    ∃ x' h' y', updateEndElement x h = .ret (x', h') ∧ Stands x' h' y' ∧ y'.Inside depth owner above := by
  obtain ⟨y', ended, out⟩ := inside.stop
  obtain ⟨l, linked, parent, names, up⟩ := stands.stack
  have level := inside.level
  have depths : x.prevDepth > x.currDepth ↔ y.prevDepth > y.currDepth := by
    rw [stands.prevDepth, stands.currDepth]
  unfold ParserData.endElement at ended
  unfold updateEndElement
  rcases inside.stack with ⟨prev, -, -⟩ | ⟨prev, parents⟩
  · have kept : ¬ y.prevDepth > y.currDepth := by omega
    rw [if_neg kept] at ended
    cases ended
    rw [if_neg (mt depths.mp kept)]
    refine ⟨_, _, _, rfl, ?_, out⟩
    exact ⟨stands.prevName, stands.currName, stands.currDepth, congrArg (· - 1) stands.currDepth, l, linked,
      parent, names, up⟩
  · have popped : y.prevDepth > y.currDepth := by omega
    rw [if_pos popped, parents] at ended
    cases ended
    rw [parents] at names
    obtain ⟨⟨top, e⟩, l, rfl, -, names⟩ := List.map_eq_cons_iff.mp names
    obtain ⟨⟨below, e'⟩, rest, rfl, named, names⟩ := List.map_eq_cons_iff.mp names
    obtain ⟨h', run, left⟩ := popParent_done linked up
    obtain ⟨linked', up'⟩ := left (by rw [named]; exact Option.some_ne_none _)
    rw [if_pos (depths.mpr popped), parent]
    refine ⟨_, _, _, Exec.bind_of_ret run, ?_, out⟩
    refine ⟨stands.prevName, stands.currName, stands.currDepth, congrArg (· - 1) stands.currDepth, _, linked',
      rfl, ?_, up'⟩
    rw [List.map_cons, names]
    exact congrArg (· :: above) named

theorem updateEndElement_done (stands : Stands x h y) (inside : y.Inside depth owner [none]) :
    ∃ x' h', updateEndElement x h = .ret (x', h') := by
  obtain ⟨l, linked, parent, names, up⟩ := stands.stack
  have level := inside.level
  unfold updateEndElement
  rw [stands.prevDepth, stands.currDepth]
  rcases inside.stack with ⟨prev, -, -⟩ | ⟨prev, parents⟩
  · rw [if_neg (by omega)]
    exact ⟨_, _, rfl⟩
  · rw [parents] at names
    obtain ⟨⟨top, e⟩, l, rfl, -, names⟩ := List.map_eq_cons_iff.mp names
    obtain ⟨⟨below, e'⟩, rest, rfl, -, -⟩ := List.map_eq_cons_iff.mp names
    obtain ⟨h', run, -⟩ := popParent_done linked up
    rw [if_pos (by omega), parent]
    exact ⟨_, _, Exec.bind_of_ret run⟩

theorem parentName_stands (stands : Stands x h y) {parents : List (Option Tag)} {parent : Option Tag}
    (top : y.parents = parent :: parents) : parentName x h = .ret (parent, h) := by
  obtain ⟨l, linked, at_, names, -⟩ := stands.stack
  rw [top] at names
  obtain ⟨⟨p, e⟩, rest, rfl, rfl, -⟩ := List.map_eq_cons_iff.mp names
  rw [parentName, at_]
  exact Exec.bind_of_ret (load_done Dangling.freed linked.segment.1)

theorem track_append {calls more : List (Xml.Callback Tag Attr)} {x' x'' : Parser} {h' h'' : Heap Entry}
    {seen rest : List (Tag × Option Tag)} (first : track x calls h = .ret ((x', seen), h'))
    (second : track x' more h' = .ret ((x'', rest), h'')) :
    track x (calls ++ more) h = .ret ((x'', seen ++ rest), h'') := by
  induction calls generalizing x h seen with
  | nil =>
      cases first
      exact second
  | cons call calls ih =>
      cases call with
      | characterData => exact ih first
      | startElement name attributes =>
          obtain ⟨next, _, start, first⟩ := Exec.bind_eq_ret.mp first
          obtain ⟨parent, _, look, first⟩ := Exec.bind_eq_ret.mp first
          obtain ⟨⟨last, later⟩, _, onward, first⟩ := Exec.bind_eq_ret.mp first
          cases first
          refine (Exec.bind_of_ret start).trans ((Exec.bind_of_ret look).trans ?_)
          exact Exec.bind_of_ret (ih onward)
      | endElement name =>
          obtain ⟨next, _, stop, first⟩ := Exec.bind_eq_ret.mp first
          exact (Exec.bind_of_ret stop).trans (ih first)

theorem track_start {calls : List (Xml.Callback Tag Attr)} {x' x'' : Parser} {h' h'' : Heap Entry}
    {parent : Option Tag} {rest : List (Tag × Option Tag)} (attributes : List (Attr × List Char))
    (start : updateStartElement x name h = .ret (x', h')) (look : parentName x' h' = .ret (parent, h'))
    (onward : track x' calls h' = .ret ((x'', rest), h'')) :
    track x (.startElement name attributes :: calls) h = .ret ((x'', (name, parent) :: rest), h'') :=
  (Exec.bind_of_ret start).trans ((Exec.bind_of_ret look).trans (Exec.bind_of_ret onward))

theorem track_stop {calls : List (Xml.Callback Tag Attr)} {x' : Parser} {h' : Heap Entry}
    (stop : updateEndElement x h = .ret (x', h')) (name : Tag) :
    track x (.endElement name :: calls) h = track x' calls h' := Exec.bind_of_ret stop

theorem track_chunks (x : Parser) (chunks : List (List Char)) (calls : List (Xml.Callback Tag Attr)) :
    track x (chunks.map .characterData ++ calls) = track x calls := by
  induction chunks with
  | nil => rfl
  | cons chunk chunks ih => exact ih

/-- Between the start and the end of an element. -/
theorem track_inside {ss : List (Xml.Stanza Tag Attr)} {calls : List (Xml.Callback Tag Attr)}
    (reports : Xml.Reports ss calls) (stands : Stands x h y) (inside : y.Inside depth owner above) :
    ∃ x' h' y', track x calls h = .ret ((x', families (some owner) ss), h') ∧ Stands x' h' y' ∧
      y'.Inside depth owner above := by
  induction reports generalizing x h y depth owner above with
  | nil => exact ⟨x, h, y, rfl, stands, inside⟩
  | text chunks nonempty _ ih =>
      obtain ⟨x', h', y', run, back⟩ := ih stands inside
      exact ⟨x', h', y', (congrFun (track_chunks ..) h).trans run, back⟩
  | @tag name attributes reported _ _ _ _ order _ _ inward onward =>
      obtain ⟨x₁, h₁, start, stands₁⟩ := updateStartElement_stands stands name
      have look := parentName_stands stands₁ inside.parents
      obtain ⟨x₂, h₂, y₂, children, stands₂, inside₂⟩ := inward stands₁ (inside.start name)
      obtain ⟨x₃, h₃, y₃, stop, stands₃, inside₃⟩ := updateEndElement_stands stands₂ inside₂
      obtain ⟨x₄, h₄, y₄, siblings, stands₄, inside₄⟩ := onward stands₃ inside₃
      refine ⟨x₄, h₄, y₄, ?_, stands₄, inside₄⟩
      exact track_start reported start look (track_append children ((track_stop stop name).trans siblings))

theorem stands_empty : Stands {} Heap.empty {} :=
  ⟨rfl, rfl, rfl, rfl, [], .nil _, rfl, rfl, trivial⟩

/-- Over a whole document each element finds its parent on top of the stack, and no pointer is used that
is null or has been freed. -/
theorem parents_tracked (root : Tag) (attributes : Xml.Attributes Attr) (children : List (Xml.Stanza Tag Attr))
    {calls : List (Xml.Callback Tag Attr)} (reports : Xml.Reports [.tag root attributes children] calls) :
    ∃ x h, track {} calls Heap.empty = .ret ((x, (root, none) :: families (some root) children), h) := by
  obtain ⟨reported, inner, -, nested, rfl⟩ := Xml.Reports.of_tag reports
  obtain ⟨x₁, h₁, start, stands₁⟩ := updateStartElement_stands stands_empty root
  have look := parentName_stands stands₁ (rfl : ((({} : ParserData).startElement root)).parents = [none])
  obtain ⟨x₂, h₂, y₂, run, stands₂, inside₂⟩ := track_inside nested stands₁ (ParserData.inside_root root)
  obtain ⟨x₃, h₃, stop⟩ := updateEndElement_done stands₂ inside₂
  have last : track x₂ [.endElement root] h₂ = .ret ((x₃, []), h₃) := track_stop stop root
  have whole := track_start reported start look (track_append run last)
  rw [List.append_nil] at whole
  exact ⟨x₃, h₃, whole⟩

/-- The third element has the same parent as the second, whose child has been popped. -/
theorem parents_tracked_siblings : ∃ x h, track {}
    (Xml.Stanza.report (.tag .value .empty [.tag .field .empty [.tag .error .empty []], .tag .item .empty []]))
    Heap.empty = .ret ((x, [(.value, none), (.field, some .value), (.error, some .field), (.item, some .value)]), h) :=
  parents_tracked .value .empty [.tag .field .empty [.tag .error .empty []], .tag .item .empty []]
    (Xml.Stanza.reports_report _)

end Mio.LibMio.ParentStack
