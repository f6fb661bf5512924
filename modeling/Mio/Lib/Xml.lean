import Mathlib.Data.List.Nodup
import Mathlib.Data.List.Perm.Basic
import Mathlib.Tactic.Common
import Mio.Lib.Lookup
import Mio.Lib.Outcome

/-! XML stanzas, what a parser reports of them, and what handlers make of the report. -/
namespace Mio.Xml

variable {ν κ σ τ : Type}

/-- A table in which a key stands once. -/
@[ext] structure Attributes (κ : Type) where
  entries : List (κ × List Char)
  distinct : (entries.map Prod.fst).Nodup

namespace Attributes

def empty : Attributes κ := ⟨[], List.nodup_nil⟩

section
variable [DecidableEq κ] {a : Attributes κ} {key other : κ} {text : List Char}

def get (a : Attributes κ) (key : κ) : Option (List Char) := a.entries.lookup key

theorem distinct_set (a : Attributes κ) (key : κ) (text : List Char) :
    (((key, text) :: a.entries.filter fun p => p.1 ≠ key).map Prod.fst).Nodup := by
  rw [List.map_cons, List.nodup_cons]
  constructor
  · intro mem
    obtain ⟨p, kept, eq⟩ := List.mem_map.mp mem
    exact absurd eq (of_decide_eq_true (List.mem_filter.mp kept).2)
  · exact a.distinct.sublist (List.filter_sublist.map Prod.fst)

def set (a : Attributes κ) (key : κ) (text : List Char) : Attributes κ :=
  ⟨(key, text) :: a.entries.filter fun p => p.1 ≠ key, a.distinct_set key text⟩

/-- Nothing is set to a null text. -/
def setIfAny (a : Attributes κ) (key : κ) (text : Option (List Char)) : Attributes κ :=
  text.elim a (a.set key)

@[simp] theorem get_empty : (empty : Attributes κ).get key = none := rfl

@[simp] theorem get_set_self : (a.set key text).get key = some text := List.lookup_cons_self

theorem get_set_of_ne (ne : other ≠ key) : (a.set key text).get other = a.get other := by
  have differs : (other == key) = false := beq_false_of_ne ne
  unfold get set
  rw [List.lookup_cons, differs]
  induction a.entries with
  | nil => rfl
  | cons p entries ih =>
      obtain ⟨k, t⟩ := p
      by_cases same : k = key
      · have skipped : (other == k) = false := beq_false_of_ne (same ▸ ne)
        simpa [List.filter_cons, same, List.lookup_cons, differs] using ih
      · simp only [List.filter_cons, same, ne_eq, not_false_eq_true, decide_true, if_true,
          List.lookup_cons] at ih ⊢
        split
        · rfl
        · exact ih

theorem get_set : (a.set key text).get other = if other = key then some text else a.get other := by
  split
  · next same =>
      subst same
      exact get_set_self
  · next ne => exact get_set_of_ne ne

theorem get_setIfAny {text : Option (List Char)} :
    (a.setIfAny key text).get other = if other = key then text.or (a.get key) else a.get other := by
  cases text with
  | none =>
      split
      · next same => exact congrArg a.get same
      · rfl
  | some text => exact get_set

theorem mem_entries : (key, text) ∈ a.entries ↔ a.get key = some text := mem_iff_lookup a.distinct

/-- A function that reads attributes one by one, where only those under one key change some view
of the state, changes the view by what the table holds under that key. -/
theorem foldl_view {υ : Type} {f : σ → κ × List Char → σ} (view : σ → υ) (key : κ)
    {g : υ → List Char → υ} (own : ∀ s text, view (f s (key, text)) = g (view s) text)
    (others : ∀ s p, p.1 ≠ key → view (f s p) = view s) {reported : List (κ × List Char)}
    (order : reported.Perm a.entries) (s : σ) :
    view (reported.foldl f s) = (a.get key).elim (view s) (g (view s)) := by
  have keys : (reported.map Prod.fst).Nodup := (order.map Prod.fst).nodup_iff.mpr a.distinct
  rw [get, ← lookup_perm order a.distinct]
  clear order
  induction reported generalizing s with
  | nil => rfl
  | cons p reported ih =>
      obtain ⟨k, text⟩ := p
      rw [List.map_cons, List.nodup_cons] at keys
      rw [List.foldl_cons, ih _ keys.2, List.lookup_cons]
      by_cases eq : key = k
      · subst eq
        rw [lookup_of_notMem keys.1, own, beq_self_eq_true]
        rfl
      · rw [others s (k, text) (Ne.symm eq), beq_false_of_ne eq]

/-- One that reads them into fields leaves in a field what the table holds under its key. -/
theorem foldl_field {β : Type} {f : σ → κ × List Char → σ} (field : σ → Option β) (key : κ)
    {g : List Char → β} (own : ∀ s text, field (f s (key, text)) = some (g text))
    (others : ∀ s p, p.1 ≠ key → field (f s p) = field s) {reported : List (κ × List Char)}
    (order : reported.Perm a.entries) (s : σ) :
    field (reported.foldl f s) = ((a.get key).map g).or (field s) := by
  rw [foldl_view field key (g := fun _ text => some (g text)) own others order s]
  cases a.get key <;> rfl

theorem get_eq_none {reported : List (κ × List Char)} (order : reported.Perm a.entries) :
    a.get key = none ↔ ∀ p ∈ reported, p.1 ≠ key := by
  constructor
  · rintro none ⟨k, text⟩ mem rfl
    have found := mem_entries.mp (order.mem_iff.mp mem)
    rw [none] at found
    cases found
  · intro absent
    rw [Option.eq_none_iff_forall_ne_some]
    intro text found
    exact absent _ (order.mem_iff.mpr (mem_entries.mpr found)) rfl

theorem foldl_only {f : σ → κ × List Char → σ} (others : ∀ s p, p.1 ≠ key → f s p = s)
    {reported : List (κ × List Char)} (order : reported.Perm a.entries) (s : σ) :
    reported.foldl f s = (a.get key).elim s fun text => f s (key, text) := by
  exact foldl_view id key (g := fun s text => f s (key, text)) (fun _ _ => rfl) others order s

theorem foldlM_only {f : σ → κ × List Char → Outcome Empty σ}
    (others : ∀ s p, p.1 ≠ key → f s p = .ret s) {reported : List (κ × List Char)}
    (order : reported.Perm a.entries) (s : σ) :
    reported.foldlM f s = (a.get key).elim (.ret s) fun text => f s (key, text) := by
  have keys : (reported.map Prod.fst).Nodup := (order.map Prod.fst).nodup_iff.mpr a.distinct
  have rest : ∀ (l : List (κ × List Char)) s, (∀ p ∈ l, p.1 ≠ key) → l.foldlM f s = .ret s := by
    intro l s absent
    induction l generalizing s with
    | nil => rfl
    | cons p l ih =>
        obtain ⟨first, later⟩ := List.forall_mem_cons.mp absent
        rw [List.foldlM_cons, others s p first]
        exact ih s later
  rw [get, ← lookup_perm order a.distinct]
  clear order
  induction reported generalizing s with
  | nil => rfl
  | cons p reported ih =>
      obtain ⟨k, text⟩ := p
      rw [List.map_cons, List.nodup_cons] at keys
      rw [List.foldlM_cons, List.lookup_cons]
      by_cases eq : key = k
      · subst eq
        have absent : ∀ p ∈ reported, p.1 ≠ key := fun p mem same =>
          keys.1 (List.mem_map.mpr ⟨p, mem, same⟩)
        rw [beq_self_eq_true]
        simp only [rest reported _ absent]
        exact bind_pure _
      · rw [others s (k, text) (Ne.symm eq), beq_false_of_ne eq]
        exact ih s keys.2

end

theorem foldl_kept {β : Type} {f : σ → κ × List Char → σ} (field : σ → β)
    (kept : ∀ s p, field (f s p) = field s) (reported : List (κ × List Char)) (s : σ) :
    field (reported.foldl f s) = field s := by
  induction reported generalizing s with
  | nil => rfl
  | cons p reported ih => rw [List.foldl_cons, ih, kept]

end Attributes

inductive Stanza (ν κ : Type) where
  | tag (name : ν) (attributes : Attributes κ) (children : List (Stanza ν κ))
  | text (text : List Char)

structure Element (ν κ : Type) where
  name : ν
  attributes : Attributes κ

mutual

/-- The elements in the order in which they start. -/
def Stanza.elements : Stanza ν κ → List (Element ν κ)
  | .tag name attributes children => ⟨name, attributes⟩ :: elements children
  | .text _ => []

def elements : List (Stanza ν κ) → List (Element ν κ)
  | [] => []
  | s :: rest => s.elements ++ elements rest

end

/-- What a parser calls. -/
inductive Callback (ν κ : Type) where
  | startElement (name : ν) (attributes : List (κ × List Char))
  | characterData (chunk : List Char)
  | endElement (name : ν)

/-- A faithful report: attributes in any order, a text in any chunks. -/
inductive Reports : List (Stanza ν κ) → List (Callback ν κ) → Prop
  | nil : Reports [] []
  | text {rest : List (Stanza ν κ)} {calls : List (Callback ν κ)} (chunks : List (List Char))
      (nonempty : ∀ c ∈ chunks, c ≠ []) (more : Reports rest calls) :
      Reports (.text chunks.flatten :: rest) (chunks.map .characterData ++ calls)
  | tag {name : ν} {attributes : Attributes κ} {reported : List (κ × List Char)}
      {children rest : List (Stanza ν κ)} {inside calls : List (Callback ν κ)}
      (order : reported.Perm attributes.entries) (inner : Reports children inside)
      (more : Reports rest calls) :
      Reports (.tag name attributes children :: rest)
        (.startElement name reported :: (inside ++ .endElement name :: calls))

namespace Reports

theorem split {before after : List (Stanza ν κ)} {calls : List (Callback ν κ)}
    (reports : Reports (before ++ after) calls) :
    ∃ left right, calls = left ++ right ∧ Reports before left ∧ Reports after right := by
  induction before generalizing calls with
  | nil => exact ⟨[], calls, rfl, .nil, reports⟩
  | cons s before ih =>
      cases reports with
      | text chunks nonempty more =>
          obtain ⟨left, right, rfl, first, second⟩ := ih more
          exact ⟨_, right, (List.append_assoc ..).symm, .text chunks nonempty first, second⟩
      | @tag name _ reported _ _ inside _ order inner more =>
          obtain ⟨left, right, rfl, first, second⟩ := ih more
          refine ⟨_, right, ?_, .tag order inner first, second⟩
          rw [List.cons_append, List.append_assoc, List.cons_append]

theorem uncons {s : Stanza ν κ} {rest : List (Stanza ν κ)} {calls : List (Callback ν κ)}
    (reports : Reports (s :: rest) calls) :
    ∃ left right, calls = left ++ right ∧ Reports [s] left ∧ Reports rest right :=
  @split ν κ [s] rest calls reports

theorem append {before after : List (Stanza ν κ)} {left right : List (Callback ν κ)}
    (first : Reports before left) (second : Reports after right) :
    Reports (before ++ after) (left ++ right) := by
  induction first with
  | nil => exact second
  | text chunks nonempty _ ih =>
      rw [List.append_assoc]
      exact .text chunks nonempty ih
  | tag order inner _ _ ih =>
      simp only [List.cons_append, List.append_assoc]
      exact .tag order inner ih

theorem of_tag {name : ν} {attributes : Attributes κ} {children : List (Stanza ν κ)}
    {calls : List (Callback ν κ)} (reports : Reports [.tag name attributes children] calls) :
    ∃ reported inside, reported.Perm attributes.entries ∧ Reports children inside ∧
      calls = .startElement name reported :: (inside ++ [.endElement name]) := by
  cases reports with
  | tag order inner more =>
      cases more
      exact ⟨_, _, order, inner, rfl⟩

theorem of_text {text : List Char} {calls : List (Callback ν κ)}
    (reports : Reports [.text text] calls) :
    ∃ chunks : List (List Char), (∀ c ∈ chunks, c ≠ []) ∧ chunks.flatten = text ∧
      calls = chunks.map .characterData := by
  cases reports with
  | text chunks nonempty more =>
      cases more
      exact ⟨chunks, nonempty, rfl, List.append_nil _⟩

end Reports

mutual

/-- Attributes as they stand and a text in one piece. -/
def Stanza.report : Stanza ν κ → List (Callback ν κ)
  | .tag name attributes children =>
      .startElement name attributes.entries :: (report children ++ [.endElement name])
  | .text [] => []
  | .text text => [.characterData text]

def report : List (Stanza ν κ) → List (Callback ν κ)
  | [] => []
  | s :: rest => s.report ++ report rest

end

mutual

theorem Stanza.reports_report : ∀ s : Stanza ν κ, Reports [s] s.report
  | .tag _ _ children => .tag (.refl _) (reports_report children) .nil
  | .text [] => .text [] (fun _ mem => by cases mem) .nil
  | .text (c :: text) => by
      have filled : ∀ d ∈ [c :: text], d ≠ [] := fun d mem =>
        List.mem_singleton.mp mem ▸ List.cons_ne_nil c text
      have reports := @Reports.text ν κ [] [] [c :: text] filled .nil
      rwa [List.flatten_singleton] at reports

theorem reports_report : ∀ ss : List (Stanza ν κ), Reports ss (report ss)
  | [] => .nil
  | s :: rest => Reports.append s.reports_report (reports_report rest)

end

section
variable {φ π β : Type} (pick : ν → Option φ)

/-- The text with which the children of an element begin. -/
def lead : List (Stanza ν κ) → Option (List Char)
  | .text [] :: rest => lead rest
  | .text text :: _ => some text
  | _ => none

mutual

/-- The picked elements that begin with a text, in the order in which they start. -/
def Stanza.texts : Stanza ν κ → List (φ × List Char)
  | .tag name _ children =>
      ((pick name).bind fun f => (lead children).map (f, ·)).toList ++ texts children
  | .text _ => []

def texts : List (Stanza ν κ) → List (φ × List Char)
  | [] => []
  | s :: rest => s.texts ++ texts rest

end

/-- A picked element that starts and the chunk right behind, if there is one. -/
def opened (name : ν) : List (Callback ν κ) → List (φ × List Char)
  | .characterData chunk :: _ => ((pick name).map (·, chunk)).toList
  | _ => []

/-- Each picked element of a report with the first chunk of its text. -/
def firstChunks : List (Callback ν κ) → List (φ × List Char)
  | [] => []
  | .startElement name _ :: calls => opened pick name calls ++ firstChunks calls
  | _ :: calls => firstChunks calls

def firstLengths (calls : List (Callback ν κ)) : List ℕ := (firstChunks pick calls).map fun p => p.2.length

variable {pick}

theorem texts_append (before after : List (Stanza ν κ)) :
    texts pick (before ++ after) = texts pick before ++ texts pick after := by
  induction before with
  | nil => rfl
  | cons s before ih => rw [List.cons_append, texts, ih, texts, List.append_assoc]

theorem opened_append (name : ν) {calls : List (Callback ν κ)} (some : calls ≠ [])
    (more : List (Callback ν κ)) : opened pick name (calls ++ more) = opened pick name calls := by
  cases calls with
  | nil => exact absurd rfl some
  | cons call calls => cases call <;> rfl

theorem firstChunks_data (chunks : List (List Char)) (calls : List (Callback ν κ)) :
    firstChunks pick (chunks.map .characterData ++ calls) = firstChunks pick calls := by
  induction chunks with
  | nil => rfl
  | cons c chunks ih => exact ih

theorem firstChunks_end (name : ν) (calls : List (Callback ν κ)) :
    firstChunks pick (.endElement name :: calls) = firstChunks pick calls := rfl

theorem firstChunks_append {ss : List (Stanza ν κ)} {calls : List (Callback ν κ)}
    (reports : Reports ss calls) (more : List (Callback ν κ)) :
    firstChunks pick (calls ++ more) = firstChunks pick calls ++ firstChunks pick more := by
  induction reports generalizing more with
  | nil => rfl
  | text chunks nonempty _ ih =>
      rw [List.append_assoc, firstChunks_data, firstChunks_data, ih]
  | @tag name _ reported _ _ inside calls order inner _ inward onward =>
      have some : inside ++ .endElement name :: calls ≠ [] := by simp
      rw [List.cons_append, firstChunks, firstChunks, opened_append name some, List.append_assoc,
        List.append_assoc, inward, inward, List.cons_append, firstChunks_end, firstChunks_end,
        onward, List.append_assoc]

/-- Around elements that are not picked nothing is added. -/
theorem firstChunks_around {name : ν} (other : pick name = none) (reported : List (κ × List Char))
    {ss : List (Stanza ν κ)} {inner : List (Callback ν κ)} (reports : Reports ss inner) :
    firstChunks pick (.startElement name reported :: (inner ++ [.endElement name])) =
      firstChunks pick inner := by
  have closed : opened pick name (inner ++ [.endElement name]) = [] := by
    unfold opened
    split
    · rw [other]
      rfl
    · rfl
  rw [firstChunks, closed, List.nil_append, firstChunks_append reports]
  exact List.append_nil _

/-- The first chunk of an element is the beginning of the text that its children begin with. -/
theorem opened_lead {name : ν} {children : List (Stanza ν κ)} {inside : List (Callback ν κ)}
    (reports : Reports children inside) (calls : List (Callback ν κ)) :
    List.Forall₂ (fun (p q : φ × List Char) => q.1 = p.1 ∧ q.2 <+: p.2)
      ((pick name).bind fun f => (lead children).map (f, ·)).toList
      (opened pick name (inside ++ .endElement name :: calls)) := by
  cases picked : pick name with
  | none =>
      unfold opened
      rw [picked]
      split <;> exact .nil
  | some f =>
      induction reports with
      | nil => exact .nil
      | tag order inner more _ _ => exact .nil
      | @text rest calls' chunks nonempty more ih =>
          cases chunks with
          | nil => exact ih
          | cons c chunks =>
              have filled := nonempty c List.mem_cons_self
              cases c with
              | nil => exact absurd rfl filled
              | cons d c =>
                  unfold opened
                  rw [picked]
                  exact .cons ⟨rfl, List.prefix_append _ _⟩ .nil

/-- What is reported first of each picked element is the beginning of its text. -/
theorem Reports.firstChunks_begin (pick : ν → Option φ) {ss : List (Stanza ν κ)}
    {calls : List (Callback ν κ)} (reports : Reports ss calls) :
    List.Forall₂ (fun (p q : φ × List Char) => q.1 = p.1 ∧ q.2 <+: p.2) (texts pick ss)
      (firstChunks pick calls) := by
  induction reports with
  | nil => exact .nil
  | text chunks nonempty more ih =>
      rw [firstChunks_data]
      exact ih
  | @tag name attributes reported children rest inside calls order inner more inward onward =>
      rw [texts, Stanza.texts, firstChunks, firstChunks_append inner, List.append_assoc]
      exact List.rel_append (opened_lead inner calls) (List.rel_append inward onward)

/-- What is read of the first chunks is as it should be exactly if it is so of each text, cut to the
length of its chunk. -/
theorem readings_iff (read : φ → List Char → β) (value : π → β) {key : π → φ} {source : π → List Char}
    {Comes : π → ℕ → Prop} {ps : List π} {firsts : List (φ × List Char)}
    (comes : ∀ p ∈ ps, ∀ n, read (key p) ((source p).take n) = value p ↔ Comes p n)
    (begin : List.Forall₂ (fun (p q : φ × List Char) => q.1 = p.1 ∧ q.2 <+: p.2)
      (ps.map fun p => (key p, source p)) firsts) :
    (firsts.map fun q => (q.1, read q.1 q.2)) = (ps.map fun p => (key p, value p)) ↔
      List.Forall₂ Comes ps (firsts.map fun q => q.2.length) := by
  induction ps generalizing firsts with
  | nil =>
      cases begin
      simp
  | cons p ps ih =>
      obtain ⟨one, others⟩ := List.forall_mem_cons.mp comes
      cases begin with
      | @cons _ q _ firsts first rest =>
          obtain ⟨same, cut⟩ := first
          have taken : (source p).take q.2.length = q.2 := (List.prefix_iff_eq_take.mp cut).symm
          rw [List.map_cons, List.map_cons, List.map_cons, List.cons.injEq, List.forall₂_cons,
            ih others rest, ← one, taken, same, Prod.mk.injEq, and_iff_right rfl]

end

structure Handler (ν κ σ : Type) where
  startElement : σ → ν → List (κ × List Char) → Outcome Empty σ
  characterData : σ → List Char → Outcome Empty σ := fun s _ => .ret s
  endElement : σ → ν → Outcome Empty σ := fun s _ => .ret s

namespace Handler

def handle (h : Handler ν κ σ) (s : σ) : Callback ν κ → Outcome Empty σ
  | .startElement name attributes => h.startElement s name attributes
  | .characterData chunk => h.characterData s chunk
  | .endElement name => h.endElement s name

def run (h : Handler ν κ σ) (s : σ) : List (Callback ν κ) → Outcome Empty σ
  | [] => .ret s
  | call :: calls => do
      let s ← h.handle s call
      h.run s calls

theorem run_append (h : Handler ν κ σ) (s : σ) (calls more : List (Callback ν κ)) :
    h.run s (calls ++ more) = h.run s calls >>= (h.run · more) := by
  induction calls generalizing s with
  | nil => rfl
  | cons call calls ih =>
      rw [List.cons_append, run, run, bind_assoc]
      apply congrArg
      funext s
      exact ih s

theorem run_gives {h : Handler ν κ σ} {P : σ → Prop}
    (keeps : ∀ s call, P s → Outcome.Gives P (h.handle s call)) (calls : List (Callback ν κ)) {s : σ}
    (holds : P s) : Outcome.Gives P (h.run s calls) := by
  induction calls generalizing s with
  | nil => exact .ret holds
  | cons call calls ih => exact (keeps s call holds).bind fun _ => ih

/-- Two handlers side by side, each with a state of its own. -/
def beside (h : Handler ν κ σ) (k : Handler ν κ τ) : Handler ν κ (σ × τ) where
  startElement s name attributes := do
    let left ← h.startElement s.1 name attributes
    let right ← k.startElement s.2 name attributes
    return (left, right)
  characterData s chunk := do
    let left ← h.characterData s.1 chunk
    let right ← k.characterData s.2 chunk
    return (left, right)
  endElement s name := do
    let left ← h.endElement s.1 name
    let right ← k.endElement s.2 name
    return (left, right)

/-- Beside a handler that gets through, the other one runs as if alone. -/
theorem run_beside (h : Handler ν κ σ) (k : Handler ν κ τ) {calls : List (Callback ν κ)} {s s' : σ}
    (through : h.run s calls = .ret s') (t : τ) :
    (h.beside k).run (s, t) calls = k.run t calls >>= fun t' => .ret (s', t') := by
  induction calls generalizing s t with
  | nil =>
      injection through with same
      rw [same]
      rfl
  | cons call calls ih =>
      obtain ⟨next, first, rest⟩ := Outcome.bind_eq_ret.mp through
      have both : (h.beside k).handle (s, t) call =
          k.handle t call >>= fun t' => .ret (next, t') := by
        cases call <;> exact congrArg (· >>= _) first
      rw [run, both, run, bind_assoc, bind_assoc]
      apply congrArg
      funext t'
      exact ih rest t'

end Handler

/-- Two runs that end alike; what they return is related. -/
inductive Alike (R : σ → τ → Prop) : Outcome Empty σ → Outcome Empty τ → Prop
  | ret {s : σ} {t : τ} (related : R s t) : Alike R (.ret s) (.ret t)
  | abort {what why : String} : Alike R (.abort what) (.abort why)
  | timeout : Alike R .timeout .timeout

namespace Alike

variable {R : σ → τ → Prop} {x : Outcome Empty σ} {y : Outcome Empty τ}

theorem bind {f : σ → Outcome Empty σ} {g : τ → Outcome Empty τ} (first : Alike R x y)
    (next : ∀ s t, R s t → Alike R (f s) (g t)) : Alike R (x >>= f) (y >>= g) := by
  cases first with
  | ret related => exact next _ _ related
  | abort => exact .abort
  | timeout => exact .timeout

theorem refl : ∀ x : Outcome Empty σ, Alike Eq x x
  | .ret _ => .ret rfl
  | .abort _ => .abort
  | .timeout => .timeout
  | .throw e => nomatch e

theorem ret_right {t : τ} (alike : Alike R x y) (eq : y = .ret t) : ∃ s, x = .ret s ∧ R s t := by
  subst eq
  cases alike with
  | ret related => exact ⟨_, rfl, related⟩

theorem ret_left {s : σ} (alike : Alike R x y) (eq : x = .ret s) : ∃ t, y = .ret t ∧ R s t := by
  subst eq
  cases alike with
  | ret related => exact ⟨_, rfl, related⟩

end Alike

/-- A run over the elements alone. -/
def walk (step : τ → Element ν κ → Outcome Empty τ) (t : τ) : List (Element ν κ) → Outcome Empty τ
  | [] => .ret t
  | e :: rest => do
      let t ← step t e
      walk step t rest

theorem walk_append (step : τ → Element ν κ → Outcome Empty τ) (t : τ)
    (before after : List (Element ν κ)) :
    walk step t (before ++ after) = walk step t before >>= (walk step · after) := by
  induction before generalizing t with
  | nil => rfl
  | cons e before ih =>
      rw [List.cons_append, walk, walk, bind_assoc]
      apply congrArg
      funext t
      exact ih t

theorem forall_split_cons {α : Type} {x : α} {xs : List α} {P : List α → α → List α → Prop} :
    (∀ before e after, x :: xs = before ++ e :: after → P before e after) ↔
      P [] x xs ∧ ∀ before e after, xs = before ++ e :: after → P (x :: before) e after := by
  constructor
  · intro all
    exact ⟨all [] x xs rfl, fun before e after eq => all (x :: before) e after (by rw [eq]; rfl)⟩
  · rintro ⟨first, rest⟩ before e after eq
    cases before with
    | nil =>
        obtain ⟨rfl, rfl⟩ := List.cons.inj eq
        exact first
    | cons y before =>
        obtain ⟨rfl, tail⟩ := List.cons.inj eq
        exact rest before e after tail

theorem forall_split_iff {α : Type} {xs : List α} {P : List α → α → Prop} :
    (∀ before e after, xs = before ++ e :: after → P before e) ↔
      ∀ i (inside : i < xs.length), P (xs.take i) xs[i] := by
  constructor
  · intro all i inside
    refine all _ _ (xs.drop (i + 1)) ?_
    rw [List.getElem_cons_drop, List.take_append_drop]
  · rintro all before e after rfl
    have here := all before.length (by simp)
    simpa using here

/-- A walk that is blocked at some elements goes through if it meets none where it is blocked. -/
theorem walk_guarded {blocked : τ → Element ν κ → Prop} [∀ t e, Decidable (blocked t e)]
    {next : τ → Element ν κ → τ} {what : String} {t t' : τ} {es : List (Element ν κ)} :
    walk (fun t e => if blocked t e then .abort what else .ret (next t e)) t es = .ret t' ↔
      (∀ before e after, es = before ++ e :: after → ¬ blocked (before.foldl next t) e) ∧
        t' = es.foldl next t := by
  induction es generalizing t with
  | nil =>
      constructor
      · intro eq
        injection eq with eq
        exact ⟨fun before e after none => (by simp at none), eq.symm⟩
      · rintro ⟨-, rfl⟩
        rfl
  | cons e es ih =>
      rw [walk, forall_split_cons, List.foldl_cons, and_assoc]
      by_cases stuck : blocked t e
      · rw [if_pos stuck]
        exact ⟨fun eq => (by cases eq), fun all => absurd stuck all.1⟩
      · rw [if_neg stuck, Outcome.ret_bind, ih]
        exact ⟨fun all => ⟨stuck, all⟩, fun all => all.2⟩

section
variable {R : σ → τ → Prop} {h : Handler ν κ σ} {step : τ → Element ν κ → Outcome Empty τ}

/-- A handler that follows a step on each element, whatever the order of its attributes, and that
does nothing else, follows the walk over all elements. -/
theorem Handler.follows
    (start : ∀ s t, R s t → ∀ e : Element ν κ, ∀ reported, reported.Perm e.attributes.entries →
      Alike R (h.startElement s e.name reported) (step t e))
    (data : ∀ s t, R s t → ∀ chunk, Alike R (h.characterData s chunk) (.ret t))
    (stop : ∀ s t, R s t → ∀ name, Alike R (h.endElement s name) (.ret t))
    {ss : List (Stanza ν κ)} {calls : List (Callback ν κ)} (reports : Reports ss calls) {s : σ}
    {t : τ} (related : R s t) : Alike R (h.run s calls) (walk step t (elements ss)) := by
  induction reports generalizing s t with
  | nil => exact .ret related
  | text chunks nonempty more ih =>
      rw [elements, Stanza.elements, List.nil_append]
      clear nonempty
      induction chunks generalizing s with
      | nil => exact ih related
      | cons c chunks next =>
          cases eq : h.characterData s c with
          | ret s' =>
              have kept := data s t related c
              rw [eq] at kept
              cases kept with
              | ret related =>
                  rw [List.map_cons, List.cons_append, Handler.run, Handler.handle, eq]
                  exact next related
          | _ =>
              have kept := data s t related c
              rw [eq] at kept
              cases kept
  | @tag name attributes reported children rest inside calls order inner more inward onward =>
      rw [elements, Stanza.elements, List.cons_append, walk]
      apply (start s t related ⟨name, attributes⟩ reported order).bind
      intro s t related
      rw [walk_append, Handler.run_append]
      apply (inward related).bind
      intro s t related
      have closed := (stop s t related name).bind fun s t related => onward related
      exact closed

end
end Mio.Xml
