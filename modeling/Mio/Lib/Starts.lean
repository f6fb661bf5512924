import Mathlib.Data.List.Forall2
import Mio.Lib.Xml

/-! The starts of elements in a report, for handlers that do nothing else. -/
namespace Mio.Xml

variable {ν κ σ : Type}

/-- The start of an element with its attributes as reported. -/
abbrev Start (ν κ : Type) := ν × List (κ × List Char)

def starts : List (Callback ν κ) → List (Start ν κ)
  | [] => []
  | .startElement name attributes :: calls => (name, attributes) :: starts calls
  | .characterData _ :: calls => starts calls
  | .endElement _ :: calls => starts calls

theorem starts_append (calls more : List (Callback ν κ)) :
    starts (calls ++ more) = starts calls ++ starts more := by
  induction calls with
  | nil => rfl
  | cons call calls ih =>
      cases call with
      | startElement name attributes => exact congrArg ((name, attributes) :: ·) ih
      | characterData chunk => exact ih
      | endElement name => exact ih

theorem starts_data (chunks : List (List Char)) :
    starts (chunks.map (Callback.characterData (ν := ν) (κ := κ))) = [] := by
  induction chunks with
  | nil => rfl
  | cons c chunks ih => exact ih

theorem mem_starts {name : ν} {reported : List (κ × List Char)} {calls : List (Callback ν κ)} :
    (name, reported) ∈ starts calls ↔ .startElement name reported ∈ calls := by
  induction calls with
  | nil => simp [starts]
  | cons call calls ih => cases call <;> simp [starts, ih]

/-- A handler that only looks at starts. -/
theorem Handler.run_starts {start : σ → ν → List (κ × List Char) → Outcome Empty σ} (s : σ)
    (calls : List (Callback ν κ)) :
    ({ startElement := start } : Handler ν κ σ).run s calls =
      (starts calls).foldlM (fun s p => start s p.1 p.2) s := by
  induction calls generalizing s with
  | nil => rfl
  | cons call calls ih =>
      cases call with
      | startElement name attributes =>
          rw [Handler.run, starts, List.foldlM_cons]
          exact congrArg (start s name attributes >>= ·) (funext ih)
      | characterData chunk => exact ih s
      | endElement name => exact ih s

/-- A report with the attributes in the order in which they stand. -/
inductive InOrder : List (Stanza ν κ) → List (Callback ν κ) → Prop
  | nil : InOrder [] []
  | text {rest : List (Stanza ν κ)} {calls : List (Callback ν κ)} (chunks : List (List Char))
      (nonempty : ∀ c ∈ chunks, c ≠ []) (more : InOrder rest calls) :
      InOrder (.text chunks.flatten :: rest) (chunks.map .characterData ++ calls)
  | tag {name : ν} {attributes : Attributes κ} {children rest : List (Stanza ν κ)}
      {inside calls : List (Callback ν κ)} (inner : InOrder children inside) (more : InOrder rest calls) :
      InOrder (.tag name attributes children :: rest)
        (.startElement name attributes.entries :: (inside ++ .endElement name :: calls))

namespace InOrder

variable {before after ss : List (Stanza ν κ)} {left right calls : List (Callback ν κ)}

theorem reports (order : InOrder ss calls) : Reports ss calls := by
  induction order with
  | nil => exact .nil
  | text chunks nonempty _ ih => exact .text chunks nonempty ih
  | tag _ _ inward onward => exact .tag (.refl _) inward onward

theorem starts (order : InOrder ss calls) :
    Xml.starts calls = (elements ss).map fun e => (e.name, e.attributes.entries) := by
  induction order with
  | nil => rfl
  | text chunks _ _ ih => rw [starts_append, starts_data, elements, Stanza.elements, List.nil_append, ih]; rfl
  | tag _ _ inward onward =>
      rw [Xml.starts, starts_append, Xml.starts, inward, onward, elements, Stanza.elements, List.cons_append,
        List.map_cons, List.map_append]

theorem append (first : InOrder before left) (second : InOrder after right) :
    InOrder (before ++ after) (left ++ right) := by
  induction first with
  | nil => exact second
  | text chunks nonempty _ ih =>
      rw [List.append_assoc]
      exact .text chunks nonempty ih
  | tag inner _ _ ih =>
      simp only [List.cons_append, List.append_assoc]
      exact .tag inner ih

theorem uncons {s : Stanza ν κ} {rest : List (Stanza ν κ)} (order : InOrder (s :: rest) calls) :
    ∃ left right, calls = left ++ right ∧ InOrder [s] left ∧ InOrder rest right := by
  cases order with
  | text chunks nonempty more =>
      refine ⟨chunks.map .characterData, _, rfl, ?_, more⟩
      rw [← List.append_nil (chunks.map _)]
      exact .text chunks nonempty .nil
  | @tag name attributes _ _ inside calls inner more =>
      refine ⟨_, calls, ?_, .tag inner .nil, more⟩
      rw [List.cons_append, List.append_assoc, List.singleton_append]

theorem of_tag {name : ν} {attributes : Attributes κ} {children : List (Stanza ν κ)}
    (order : InOrder [.tag name attributes children] calls) :
    ∃ inside, InOrder children inside ∧
      calls = .startElement name attributes.entries :: (inside ++ [.endElement name]) := by
  cases order with
  | tag inner more =>
      cases more
      exact ⟨_, inner, rfl⟩

end InOrder

mutual

theorem Stanza.inOrder_report : ∀ s : Stanza ν κ, InOrder [s] s.report
  | .tag _ _ children => .tag (inOrder_report children) .nil
  | .text [] => .text [] (fun _ mem => by cases mem) .nil
  | .text (c :: text) => by
      have filled : ∀ d ∈ [c :: text], d ≠ [] := fun d mem =>
        List.mem_singleton.mp mem ▸ List.cons_ne_nil c text
      have order := @InOrder.text ν κ [] [] [c :: text] filled .nil
      rwa [List.flatten_singleton] at order

theorem inOrder_report : ∀ ss : List (Stanza ν κ), InOrder ss (report ss)
  | [] => .nil
  | s :: rest => s.inOrder_report.append (inOrder_report rest)

end

section
variable (f : Attributes κ → Attributes κ)

mutual

def Stanza.mapAttributes : Stanza ν κ → Stanza ν κ
  | .tag name attributes children => .tag name (f attributes) (mapAttributes children)
  | .text text => .text text

def mapAttributes : List (Stanza ν κ) → List (Stanza ν κ)
  | [] => []
  | s :: rest => s.mapAttributes :: mapAttributes rest

end

mutual

theorem Stanza.elements_mapAttributes : ∀ s : Stanza ν κ,
    (s.mapAttributes f).elements = s.elements.map fun e => ⟨e.name, f e.attributes⟩
  | .tag _ _ children => congrArg (_ :: ·) (elements_mapAttributes children)
  | .text _ => rfl

theorem elements_mapAttributes : ∀ ss : List (Stanza ν κ),
    elements (mapAttributes f ss) = (elements ss).map fun e => ⟨e.name, f e.attributes⟩
  | [] => rfl
  | s :: rest => by
      rw [mapAttributes, elements, s.elements_mapAttributes, elements_mapAttributes rest, elements,
        List.map_append]

end

end

/-- The same document with the attributes of its elements in other orders. -/
inductive Reordered : List (Stanza ν κ) → List (Stanza ν κ) → Prop
  | nil : Reordered [] []
  | text {text : List Char} {rest rest' : List (Stanza ν κ)} (more : Reordered rest rest') :
      Reordered (.text text :: rest) (.text text :: rest')
  | tag {name : ν} {attributes attributes' : Attributes κ} {children children' rest rest' : List (Stanza ν κ)}
      (order : attributes.entries.Perm attributes'.entries) (inner : Reordered children children')
      (more : Reordered rest rest') :
      Reordered (.tag name attributes children :: rest) (.tag name attributes' children' :: rest')

/-- The same element with its attributes in another order. -/
def Element.Reordered (e e' : Element ν κ) : Prop :=
  e.name = e'.name ∧ e.attributes.entries.Perm e'.attributes.entries

theorem Attributes.get_perm [DecidableEq κ] {a b : Attributes κ} (order : a.entries.Perm b.entries) (key : κ) :
    a.get key = b.get key := by
  ext text
  rw [← mem_entries, ← mem_entries, order.mem_iff]

theorem Reordered.elements {ss ss' : List (Stanza ν κ)} (same : Reordered ss ss') :
    List.Forall₂ Element.Reordered (elements ss) (Xml.elements ss') := by
  induction same with
  | nil => exact .nil
  | text more ih => exact ih
  | tag order inner more inward onward =>
      rw [Xml.elements, Stanza.elements, Xml.elements, Stanza.elements, List.cons_append, List.cons_append]
      exact .cons ⟨rfl, order⟩ (List.rel_append inward onward)

section
variable {f : Attributes κ → Attributes κ}

mutual

theorem Stanza.reordered_mapAttributes (perm : ∀ a : Attributes κ, a.entries.Perm (f a).entries) :
    ∀ s : Stanza ν κ, Reordered [s] [s.mapAttributes f]
  | .tag _ attributes children => .tag (perm attributes) (reordered_mapAttributes perm children) .nil
  | .text _ => .text .nil

theorem reordered_mapAttributes (perm : ∀ a : Attributes κ, a.entries.Perm (f a).entries) :
    ∀ ss : List (Stanza ν κ), Reordered ss (mapAttributes f ss)
  | [] => .nil
  | .text _ :: rest => .text (reordered_mapAttributes perm rest)
  | .tag _ attributes children :: rest =>
      .tag (perm attributes) (reordered_mapAttributes perm children) (reordered_mapAttributes perm rest)

end

end

section
variable [DecidableEq κ] (key : κ) (a : Attributes κ)

theorem Attributes.perm_toFront :
    a.entries.Perm ((a.entries.filter fun p => p.1 = key) ++ a.entries.filter fun p => ¬ p.1 = key) := by
  have perm := (List.filter_append_perm (fun p : κ × List Char => decide (p.1 = key)) a.entries).symm
  simpa using perm

def Attributes.toFront : Attributes κ :=
  ⟨(a.entries.filter fun p => p.1 = key) ++ a.entries.filter fun p => ¬ p.1 = key,
    ((a.perm_toFront key).map Prod.fst).nodup_iff.mp a.distinct⟩

def Attributes.toEnd : Attributes κ :=
  ⟨(a.entries.filter fun p => ¬ p.1 = key) ++ a.entries.filter fun p => p.1 = key,
    (((a.perm_toFront key).trans List.perm_append_comm).map Prod.fst).nodup_iff.mp a.distinct⟩

theorem Attributes.perm_toEnd : a.entries.Perm (a.toEnd key).entries :=
  (a.perm_toFront key).trans List.perm_append_comm

end

end Mio.Xml
