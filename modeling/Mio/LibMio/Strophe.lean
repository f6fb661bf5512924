import Mathlib.Data.List.Nodup
import Mathlib.Data.List.Lemmas
import Mathlib.Logic.Function.Basic
import Mio.Lib.Starts
import Mio.LibMio.Response

/-! What libstrophe makes of a reply before the XML parser reads it: the table of attributes of `hash.c`
and the text of `xmpp_stanza_to_text`. -/
namespace Mio.LibMio

def Attr.text : Attr → List Char
  | .id => "id".toList
  | .type => "type".toList
  | .code => "code".toList
  | .name => "name".toList
  | .node => "node".toList
  | .jid => "jid".toList
  | .subid => "subid".toList
  | .subscription => "subscription".toList
  | .affiliation => "affiliation".toList
  | .var => "var".toList
  | .value => "value".toList
  | .info => "info".toList
  | .time => "time".toList
  | .timestamp => "timestamp".toList
  | .typedValue => "typedValue".toList
  | .rawValue => "rawValue".toList
  | .transducerName => "transducerName".toList
  | .transducerValue => "transducerValue".toList
  | .metaType => "metaType".toList
  | .interface => "interface".toList
  | .unit => "unit".toList
  | .manufacturer => "manufacturer".toList
  | .serial => "serial".toList
  | .minValue => "minValue".toList
  | .maxValue => "maxValue".toList
  | .resolution => "resolution".toList
  | .precision => "precision".toList
  | .accuracy => "accuracy".toList
  | .xmlns => "xmlns".toList
  | .lang => "xml:lang".toList
  | .other own => own

namespace Strophe

abbrev Entry := Attr × List Char

/-- `_hash_key`; a `char` is signed and an `int` has 32 bits. -/
def hashKey (key : List Char) : ℤ :=
  let next (hash : BitVec 32 × ℕ) (c : UInt8) : BitVec 32 × ℕ :=
    (hash.1 ^^^ c.toBitVec.signExtend 32 <<< hash.2, if hash.2 + 8 > 24 then 0 else hash.2 + 8)
  ((key.flatMap String.utf8EncodeChar).foldl next (0, 0)).1.toInt.tmod 8

/-- `hash_t`, with the entries that were added last in front. -/
structure Hash where
  entries : ℕ → List Entry
  placed : ∀ i, ∀ p ∈ entries i, hashKey p.1.text = i
  distinct : ∀ i, ((entries i).map Prod.fst).Nodup

namespace Hash

def new : Hash := ⟨fun _ => [], fun _ _ mem => (by cases mem), fun _ => List.nodup_nil⟩

theorem placed_add (table : Hash) {p : Entry} (index : 0 ≤ hashKey p.1.text) (i : ℕ) :
    ∀ q ∈ Function.update table.entries (hashKey p.1.text).toNat
      (p :: (table.entries (hashKey p.1.text).toNat).eraseP fun q => q.1 = p.1) i,
        hashKey q.1.text = i := by
  intro q mem
  by_cases here : i = (hashKey p.1.text).toNat
  · subst here
    rw [Function.update_self] at mem
    rcases List.mem_cons.mp mem with rfl | mem
    · exact (Int.toNat_of_nonneg index).symm
    · exact table.placed _ q (List.mem_of_mem_eraseP mem)
  · rw [Function.update_of_ne here] at mem
    exact table.placed i q mem

theorem notMem_eraseP {key : Attr} {l : List Entry} (distinct : (l.map Prod.fst).Nodup) :
    key ∉ (l.eraseP fun q => q.1 = key).map Prod.fst := by
  induction l with
  | nil => exact List.not_mem_nil
  | cons q l ih =>
      rw [List.map_cons, List.nodup_cons] at distinct
      by_cases here : q.1 = key
      · rw [List.eraseP_cons_of_pos (by simpa using here), ← here]
        exact distinct.1
      · rw [List.eraseP_cons_of_neg (by simpa using here), List.map_cons, List.mem_cons, not_or]
        exact ⟨Ne.symm here, ih distinct.2⟩

theorem distinct_add (table : Hash) (p : Entry) (i : ℕ) :
    ((Function.update table.entries (hashKey p.1.text).toNat
      (p :: (table.entries (hashKey p.1.text).toNat).eraseP fun q => q.1 = p.1) i).map Prod.fst).Nodup := by
  by_cases here : i = (hashKey p.1.text).toNat
  · subst here
    have others := table.distinct (hashKey p.1.text).toNat
    rw [Function.update_self, List.map_cons, List.nodup_cons]
    constructor
    · exact notMem_eraseP others
    · exact others.sublist ((List.eraseP_sublist).map Prod.fst)
  · rw [Function.update_of_ne here]
    exact table.distinct i

/-- `hash_add`; a negative index is outside of the table. -/
def add (table : Hash) (p : Entry) : Outcome Empty Hash :=
  if index : 0 ≤ hashKey p.1.text then
    .ret ⟨_, table.placed_add index, table.distinct_add p⟩
  else .abort "entries"

end Hash

/-- `hash_iterator_t`. -/
structure HashIterator where
  /-- The list from `entry` on. -/
  entry : List Entry := []
  /-- `index + 1`. -/
  i : ℕ := 0

def hashIterNext (table : Hash) (iter : HashIterator) : Option HashIterator :=
  match iter.entry.tail with
  | [] =>
      let found := (List.range' iter.i (8 - iter.i)).find? fun i => table.entries i ≠ []
      found.map fun i => ⟨table.entries i, i + 1⟩
  -- sic: behind the first entry of the last list `i` is the length already
  | entry => if iter.i ≥ 8 then none else some { iter with entry }

theorem hashIterNext_lt {table : Hash} {iter next : HashIterator}
    (found : hashIterNext table iter = some next) :
    Prod.Lex (· < ·) (· < ·) (8 - next.i, next.entry.length) (8 - iter.i, iter.entry.length) := by
  unfold hashIterNext at found
  split at found
  · obtain ⟨i, first, rfl⟩ := Option.map_eq_some_iff.mp found
    have range := List.mem_range'_1.mp (List.mem_of_find?_eq_some first)
    exact .left _ _ (by simp only; omega)
  · next rest =>
      split at found
      · cases found
      · cases found
        have shorter : iter.entry.tail.length < iter.entry.length := by
          rw [List.length_tail]
          have some : iter.entry.length ≠ 0 := fun none => rest (by rw [List.length_eq_zero_iff.mp none]; rfl)
          omega
        exact .right _ shorter

/-- The attributes that the loop in `_render_stanza_recursive` writes. -/
def iterate (table : Hash) (iter : HashIterator) : List Entry :=
  match _found : hashIterNext table iter with
  | none => []
  | some next => next.entry.head?.toList ++ iterate table next
termination_by (8 - iter.i, iter.entry.length)
decreasing_by exact hashIterNext_lt _found

/-- What is written of the lists from `i` on: of the last one only its first entry. -/
def listsFrom (entries : ℕ → List Entry) (i : ℕ) : List Entry :=
  (List.range' i (8 - i)).flatMap fun i => if i = 7 then (entries i).take 1 else entries i

section
variable {entries : ℕ → List Entry}

theorem listsFrom_lt {i : ℕ} (lt : i < 8) :
    listsFrom entries i = (if i = 7 then (entries i).take 1 else entries i) ++ listsFrom entries (i + 1) := by
  obtain ⟨k, eq⟩ : ∃ k, 8 - i = k + 1 := ⟨7 - i, by omega⟩
  have rest : 8 - (i + 1) = k := by omega
  rw [listsFrom, eq, List.range'_succ, List.flatMap_cons, listsFrom, rest]

theorem listsFrom_find (entries : ℕ → List Entry) {i : ℕ} (le : i ≤ 8) :
    match (List.range' i (8 - i)).find? fun i => entries i ≠ [] with
    | none => listsFrom entries i = []
    | some j => j < 8 ∧ entries j ≠ [] ∧ listsFrom entries i = listsFrom entries j := by
  induction le using Nat.decreasingInduction with
  | self => rfl
  | of_succ i lt ih =>
      obtain ⟨k, eq⟩ : ∃ k, 8 - i = k + 1 := ⟨7 - i, by omega⟩
      have rest : 8 - (i + 1) = k := by omega
      rw [rest] at ih
      rw [eq, List.range'_succ, List.find?_cons]
      by_cases empty : entries i = []
      · have skipped : listsFrom entries i = listsFrom entries (i + 1) := by
          rw [listsFrom_lt lt, empty, List.take_nil, ite_self, List.nil_append]
        simp only [empty, ne_eq, not_true_eq_false, decide_false]
        rw [skipped]
        exact ih
      · simp only [empty, ne_eq, not_false_eq_true, decide_true]
        exact ⟨lt, trivial, trivial⟩

theorem mem_of_mem_list {i : ℕ} {p : Entry} (mem : p ∈ if i = 7 then (entries i).take 1 else entries i) :
    p ∈ entries i := by
  split at mem
  · exact List.mem_of_mem_take mem
  · exact mem

theorem mem_listsFrom {p : Entry} : p ∈ listsFrom entries 0 ↔
    ∃ i < 8, p ∈ if i = 7 then (entries i).take 1 else entries i := by
  rw [listsFrom, List.mem_flatMap]
  simp

variable (placed : ∀ i, ∀ p ∈ entries i, hashKey p.1.text = i)
include placed

theorem pairwise_listsFrom :
    (listsFrom entries 0).Pairwise fun p q => hashKey p.1.text ≤ hashKey q.1.text := by
  rw [listsFrom, List.pairwise_flatMap]
  constructor
  · intro i _
    apply List.Pairwise.imp_of_mem (R := fun _ _ => True) _ (List.pairwise_of_forall fun _ _ => trivial)
    intro p q memP memQ _
    rw [placed i p (mem_of_mem_list memP), placed i q (mem_of_mem_list memQ)]
  · apply List.Pairwise.imp _ List.pairwise_lt_range'
    intro i j lt p memP q memQ
    rw [placed i p (mem_of_mem_list memP), placed j q (mem_of_mem_list memQ)]
    omega

theorem distinct_listsFrom (distinct : ∀ i, ((entries i).map Prod.fst).Nodup) :
    ((listsFrom entries 0).map Prod.fst).Nodup := by
  rw [List.Nodup, List.pairwise_map, listsFrom, List.pairwise_flatMap]
  constructor
  · intro i _
    have own := List.pairwise_map.mp (distinct i)
    split
    · exact own.sublist (List.take_sublist _ _)
    · exact own
  · apply List.Pairwise.imp _ List.pairwise_lt_range'
    intro i j lt p memP q memQ same
    have left := placed i p (mem_of_mem_list memP)
    have right := placed j q (mem_of_mem_list memQ)
    rw [same, right] at left
    omega

end

theorem iterate_of_none {table : Hash} {iter : HashIterator} (none : hashIterNext table iter = .none) :
    iterate table iter = [] := by
  rw [iterate]
  split
  · rfl
  · next found =>
      rw [none] at found
      cases found

theorem iterate_of_some {table : Hash} {iter next : HashIterator} (some : hashIterNext table iter = .some next) :
    iterate table iter = next.entry.head?.toList ++ iterate table next := by
  rw [iterate]
  split
  · next found =>
      rw [some] at found
      cases found
  · next found =>
      rw [some] at found
      cases found
      rfl

/-- The iterator gives what is left of its list, unless that is the last one, and the lists behind. -/
theorem iterate_eq (table : Hash) (iter : HashIterator) (inside : iter.i ≤ 8) :
    iterate table iter = (if iter.i = 8 then [] else iter.entry.tail) ++ listsFrom table.entries iter.i := by
  have lists := listsFrom_find table.entries inside
  induction iter using iterate.induct table with
  | case1 iter found =>
      rw [iterate_of_none found]
      unfold hashIterNext at found
      split at found
      · next none =>
          rw [Option.map_eq_none_iff.mp found] at lists
          rw [lists, none, ite_self]
          rfl
      · split at found
        · next last =>
            have eight : iter.i = 8 := Nat.le_antisymm inside last
            rw [if_pos eight, eight]
            rfl
        · cases found
  | case2 iter next found ih =>
      rw [iterate_of_some found]
      unfold hashIterNext at found
      split at found
      · next none =>
          obtain ⟨j, first, rfl⟩ := Option.map_eq_some_iff.mp found
          rw [first] at lists
          obtain ⟨lt, filled, lists⟩ := lists
          obtain ⟨p, rest, entries⟩ := List.exists_cons_of_ne_nil filled
          rw [ih lt (listsFrom_find table.entries lt), lists, listsFrom_lt lt, none, ite_self,
            List.nil_append, entries, ← List.append_assoc]
          congr 1
          by_cases last : j = 7
          · subst last
            rfl
          · rw [if_neg (show ¬ j + 1 = 8 by omega), if_neg last]
            rfl
      · next rest =>
          split at found
          · cases found
          · next lt =>
              cases found
              obtain ⟨p, others, entries⟩ := List.exists_cons_of_ne_nil rest
              have inner : ¬ iter.i = 8 := fun eight => lt (le_of_eq eight.symm)
              rw [ih inside lists, if_neg inner, if_neg inner, entries]
              rfl

theorem iterate_new (table : Hash) : iterate table {} = listsFrom table.entries 0 :=
  (iterate_eq table {} (by decide)).trans (List.nil_append _)

/-- The attributes of an element as they are set, in the order in which they are written. -/
def writeAttributes (a : Xml.Attributes Attr) : Outcome Empty (Xml.Attributes Attr) := do
  let table ← a.entries.foldlM Hash.add Hash.new
  return ⟨iterate table {}, iterate_new table ▸ distinct_listsFrom table.placed table.distinct⟩

mutual

/-- `_render_stanza_recursive`: a stanza as the XML parser finds it. -/
def renderStanza : MioStanza → Outcome Empty MioStanza
  | .tag name attributes children => do
      let attributes ← writeAttributes attributes
      let children ← renderStanzas children
      return .tag name attributes children
  | .text text => .ret (.text text)

def renderStanzas : List MioStanza → Outcome Empty (List MioStanza)
  | [] => .ret []
  | s :: rest => do
      let first ← renderStanza s
      let rest ← renderStanzas rest
      return first :: rest

end

/-- The calls of the XML parser for a reply. -/
def Rendered (reply : MioStanza) (calls : List (Xml.Callback Tag Attr)) : Prop :=
  ∃ s, renderStanza reply = .ret s ∧ Xml.InOrder [s] calls

/-- The entries of a list, the ones set last in front. -/
def listOf (as : List Entry) (i : ℕ) : List Entry := (as.filter fun p => hashKey p.1.text = i).reverse

theorem mem_listOf {as : List Entry} {i : ℕ} {p : Entry} :
    p ∈ listOf as i ↔ p ∈ as ∧ hashKey p.1.text = i := by
  rw [listOf, List.mem_reverse, List.mem_filter, decide_eq_true_iff]

theorem listOf_append (as bs : List Entry) (i : ℕ) : listOf (as ++ bs) i = listOf bs i ++ listOf as i := by
  rw [listOf, List.filter_append, List.reverse_append, ← listOf, ← listOf]

/-- All names have a place in the table. -/
def Hashable (a : Xml.Attributes Attr) : Prop := ∀ p ∈ a.entries, 0 ≤ hashKey p.1.text

instance (a : Xml.Attributes Attr) : Decidable (Hashable a) := by
  unfold Hashable
  infer_instance

theorem Hashable.perm {a b : Xml.Attributes Attr} (hashable : Hashable a)
    (order : a.entries.Perm b.entries) : Hashable b :=
  fun p mem => hashable p (order.mem_iff.mpr mem)

def written (a : Xml.Attributes Attr) : Xml.Attributes Attr :=
  ⟨listsFrom (listOf a.entries) 0,
    distinct_listsFrom (fun _ _ mem => (mem_listOf.mp mem).2) fun i => by
      rw [listOf, List.map_reverse, List.nodup_reverse]
      exact a.distinct.sublist (List.filter_sublist.map Prod.fst)⟩

theorem foldlM_add {as : List Entry} (distinct : (as.map Prod.fst).Nodup) {start table : Hash}
    (new : ∀ p ∈ as, ∀ i, p.1 ∉ (start.entries i).map Prod.fst)
    (added : as.foldlM Hash.add start = .ret table) :
    (∀ p ∈ as, 0 ≤ hashKey p.1.text) ∧ ∀ i, table.entries i = listOf as i ++ start.entries i := by
  induction as generalizing start with
  | nil =>
      cases added
      exact ⟨fun p mem => (by cases mem), fun i => rfl⟩
  | cons p as ih =>
      rw [List.map_cons, List.nodup_cons] at distinct
      obtain ⟨own, others⟩ := List.forall_mem_cons.mp new
      rw [List.foldlM_cons, Hash.add] at added
      split at added
      · next index =>
          have whole : (start.entries (hashKey p.1.text).toNat).eraseP (fun q => q.1 = p.1) =
              start.entries (hashKey p.1.text).toNat := by
            apply List.eraseP_of_forall_not
            intro q mem same
            exact own _ (List.mem_map.mpr ⟨q, mem, of_decide_eq_true same⟩)
          have list (i : ℕ) : Function.update start.entries (hashKey p.1.text).toNat
              (p :: (start.entries (hashKey p.1.text).toNat).eraseP fun q => q.1 = p.1) i =
                listOf [p] i ++ start.entries i := by
            rw [whole]
            by_cases here : i = (hashKey p.1.text).toNat
            · have same : hashKey p.1.text = i := by omega
              rw [here, Function.update_self, ← here]
              simp [listOf, same]
            · have other : hashKey p.1.text ≠ i := by omega
              rw [Function.update_of_ne here]
              simp [listOf, other]
          have both := ih distinct.2 ?_ added
          · refine ⟨List.forall_mem_cons.mpr ⟨index, both.1⟩, fun i => ?_⟩
            rw [both.2 i]
            refine (congrArg (listOf as i ++ ·) (list i)).trans ?_
            rw [← List.append_assoc, listOf, listOf, ← List.reverse_append, ← List.filter_append]
            rfl
          · intro q mem i
            change q.1 ∉ (Function.update start.entries _ _ i).map Prod.fst
            rw [list i, List.map_append, List.mem_append, not_or]
            refine ⟨fun here => ?_, others q mem i⟩
            obtain ⟨r, there, same⟩ := List.mem_map.mp here
            obtain rfl := List.mem_singleton.mp (mem_listOf.mp there).1
            exact distinct.1 (same ▸ List.mem_map_of_mem mem)
      · cases added

theorem foldlM_add_ret {as : List Entry} (hashable : ∀ p ∈ as, 0 ≤ hashKey p.1.text) (start : Hash) :
    ∃ table, as.foldlM Hash.add start = .ret table := by
  induction as generalizing start with
  | nil => exact ⟨start, rfl⟩
  | cons p as ih =>
      obtain ⟨first, others⟩ := List.forall_mem_cons.mp hashable
      rw [List.foldlM_cons, Hash.add, dif_pos first]
      exact ih others _

theorem writeAttributes_eq_ret {a w : Xml.Attributes Attr} :
    writeAttributes a = .ret w ↔ Hashable a ∧ w = written a := by
  have eq {table : Hash} (added : a.entries.foldlM Hash.add Hash.new = .ret table) :
      Hashable a ∧ iterate table {} = (written a).entries := by
    obtain ⟨hashable, lists⟩ := foldlM_add a.distinct (fun _ _ _ => List.not_mem_nil) added
    refine ⟨hashable, ?_⟩
    rw [iterate_new, written, show table.entries = listOf a.entries from
      funext fun i => (lists i).trans (List.append_nil _)]
  rw [writeAttributes, Outcome.bind_eq_ret]
  constructor
  · rintro ⟨table, added, ret⟩
    injection ret with ret
    obtain ⟨hashable, same⟩ := eq added
    exact ⟨hashable, ret ▸ Xml.Attributes.ext same⟩
  · rintro ⟨hashable, rfl⟩
    obtain ⟨table, added⟩ := foldlM_add_ret hashable Hash.new
    exact ⟨table, added, congrArg Outcome.ret (Xml.Attributes.ext (eq added).2)⟩

mutual

theorem renderStanza_eq_ret : ∀ {s s' : MioStanza},
    renderStanza s = .ret s' ↔ (∀ e ∈ s.elements, Hashable e.attributes) ∧ s' = s.mapAttributes written
  | .text text, s' => by
      rw [renderStanza, Xml.Stanza.elements, Xml.Stanza.mapAttributes]
      simp [eq_comm]
  | .tag name attributes children, s' => by
      rw [renderStanza, Xml.Stanza.elements, Xml.Stanza.mapAttributes, List.forall_mem_cons,
        Outcome.bind_eq_ret]
      simp only [writeAttributes_eq_ret, Outcome.bind_eq_ret, renderStanzas_eq_ret]
      constructor
      · rintro ⟨_, ⟨own, rfl⟩, _, ⟨inner, rfl⟩, ret⟩
        injection ret with ret
        exact ⟨⟨own, inner⟩, ret.symm⟩
      · rintro ⟨⟨own, inner⟩, rfl⟩
        exact ⟨_, ⟨own, rfl⟩, _, ⟨inner, rfl⟩, rfl⟩

theorem renderStanzas_eq_ret : ∀ {ss ss' : List MioStanza},
    renderStanzas ss = .ret ss' ↔
      (∀ e ∈ Xml.elements ss, Hashable e.attributes) ∧ ss' = Xml.mapAttributes written ss
  | [], ss' => by
      rw [renderStanzas, Xml.elements, Xml.mapAttributes]
      simp [eq_comm]
  | s :: rest, ss' => by
      rw [renderStanzas, Xml.elements, Xml.mapAttributes, List.forall_mem_append, Outcome.bind_eq_ret]
      simp only [renderStanza_eq_ret, Outcome.bind_eq_ret, renderStanzas_eq_ret]
      constructor
      · rintro ⟨_, ⟨first, rfl⟩, _, ⟨others, rfl⟩, ret⟩
        injection ret with ret
        exact ⟨⟨first, others⟩, ret.symm⟩
      · rintro ⟨⟨first, others⟩, rfl⟩
        exact ⟨_, ⟨first, rfl⟩, _, ⟨others, rfl⟩, rfl⟩

end

theorem rendered_iff {reply : MioStanza} {calls : List (Xml.Callback Tag Attr)} :
    Rendered reply calls ↔ (∀ e ∈ Xml.elements [reply], Hashable e.attributes) ∧
      Xml.InOrder [reply.mapAttributes written] calls := by
  have own : Xml.elements [reply] = reply.elements := List.append_nil _
  rw [Rendered, own]
  simp only [renderStanza_eq_ret]
  constructor
  · rintro ⟨_, ⟨hashable, rfl⟩, order⟩
    exact ⟨hashable, order⟩
  · rintro ⟨hashable, order⟩
    exact ⟨_, ⟨hashable, rfl⟩, order⟩

section
variable {a : Xml.Attributes Attr} {key : Attr}

/-- Outside of the last list nothing is lost. -/
theorem get_written (low : 0 ≤ hashKey key.text) (high : hashKey key.text < 7) :
    (written a).get key = a.get key := by
  ext text
  rw [← Xml.Attributes.mem_entries, ← Xml.Attributes.mem_entries]
  refine mem_listsFrom.trans ⟨fun ⟨i, _, mem⟩ => (mem_listOf.mp (mem_of_mem_list mem)).1, fun mem => ?_⟩
  have inner : ¬ (hashKey key.text).toNat = 7 := by omega
  refine ⟨(hashKey key.text).toNat, by omega, ?_⟩
  rw [if_neg inner]
  exact mem_listOf.mpr ⟨mem, (Int.toNat_of_nonneg low).symm⟩

/-- Of the last list only the attribute is written that was set last. -/
theorem get_written_last (last : hashKey key.text = 7) {text : List Char} :
    (written a).get key = some text ↔ (listOf a.entries 7).head? = some (key, text) := by
  rw [← Xml.Attributes.mem_entries, List.head?_eq_some_iff]
  refine mem_listsFrom.trans ⟨fun ⟨i, _, mem⟩ => ?_, fun ⟨rest, list⟩ => ⟨7, by decide, ?_⟩⟩
  · have here : hashKey key.text = i := (mem_listOf.mp (mem_of_mem_list mem)).2
    obtain rfl : i = 7 := by omega
    rw [if_pos rfl] at mem
    cases list : listOf a.entries 7 with
    | nil =>
        rw [list] at mem
        cases mem
    | cons p rest =>
        rw [list] at mem
        rw [List.mem_singleton.mp mem]
        exact ⟨rest, rfl⟩
  · rw [if_pos rfl, list]
    exact List.mem_singleton.mpr rfl

theorem pairwise_written (a : Xml.Attributes Attr) :
    (written a).entries.Pairwise fun p q => hashKey p.1.text ≤ hashKey q.1.text :=
  pairwise_listsFrom fun _ _ mem => (mem_listOf.mp mem).2

end

theorem errorOf_written (a : Xml.Attributes Attr) (name : Tag) : errorOf ⟨name, written a⟩ = errorOf ⟨name, a⟩ := by
  have typeAt : hashKey Attr.type.text = 4 := by decide +kernel
  have codeAt : hashKey Attr.code.text = 3 := by decide +kernel
  unfold errorOf
  rw [get_written (by omega) (by omega), get_written (by omega) (by omega)]

theorem errorOf_perm {a b : Xml.Attributes Attr} (order : a.entries.Perm b.entries) (name : Tag) :
    errorOf ⟨name, a⟩ = errorOf ⟨name, b⟩ := by
  unfold errorOf
  rw [Xml.Attributes.get_perm order, Xml.Attributes.get_perm order]

/-- The elements of a reply as libstrophe writes them. -/
theorem elements_written (reply : MioStanza) :
    Xml.elements [reply.mapAttributes written] =
      (Xml.elements [reply]).map fun e => ⟨e.name, written e.attributes⟩ :=
  Xml.elements_mapAttributes written [reply]

def writtenStarts (es : List (Xml.Element Tag Attr)) : List (Xml.Start Tag Attr) :=
  es.map fun e => (e.name, (written e.attributes).entries)

theorem Rendered.starts {reply : MioStanza} {calls : List (Xml.Callback Tag Attr)}
    (rendered : Rendered reply calls) : Xml.starts calls = writtenStarts (Xml.elements [reply]) := by
  rw [(rendered_iff.mp rendered).2.starts, elements_written, List.map_map]
  rfl

example : hashKey "jid".toList = 2 ∧ hashKey "node".toList = 6 := by decide +kernel

example : hashKey "subid".toList = 7 ∧ hashKey "expiry".toList = 7 := by decide +kernel

end Strophe
end Mio.LibMio
