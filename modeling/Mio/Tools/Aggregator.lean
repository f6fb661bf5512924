import Mathlib.Data.List.Lookmap
import Mathlib.Data.List.TakeWhile
import Mathlib.Data.Rat.Defs
import Mio.Lib.Latest
import Mio.Lib.Scan
import Mio.Lib.Undefined
import Mio.LibMio.Data

/-! `tmp_agg.c`: the sum of a transducer over all event nodes, kept by differences. Its numbers are
exact here. -/
namespace Mio.Tools
open Mio.LibMio Mio.Scan

structure AggregateElement where
  id : List Char
  val : ℚ

structure AggregateInfo where
  tranId : List Char
  value : ℚ
  elements : List AggregateElement

def AggregateInfo.new (tranId : List Char) : AggregateInfo := ⟨tranId, 0, []⟩

/-- `strcpy` into a buffer of this size. -/
def strcpy (size : ℕ) : Option (List Char) → Outcome Undefined (List Char)
  | none => .throw .null
  | some text => if strlen text < size then .ret text else .throw .overflow

def containsTran (transducerId : List Char) : List TransducerValue → Outcome Undefined ℚ
  | [] => .ret (-1)
  | tran :: rest =>
      if tran.type ≠ .value then containsTran transducerId rest
      else
        match tran.name with
        | none => .throw .null
        | some name =>
            if name = transducerId then
              match tran.typedValue with
              | none => .throw .null
              | some text =>
                  match sscanf text with
                  | none => .throw .uninitialised
                  | some value => .ret value
            else containsTran transducerId rest

/-- The element of an event node and what its value was; a new one goes to the front. -/
def element (elements : List AggregateElement) (event : Option (List Char)) :
    Outcome Undefined (List AggregateElement × List Char × ℚ) :=
  match elements with
  | [] => do
      let id ← strcpy 100 event
      return ([⟨id, 0⟩], id, 0)
  | elements =>
      match event with
      | none => .throw .null
      | some event =>
          match elements.find? fun e => event = e.id with
          | none => do
              let id ← strcpy 100 (some event)
              return (⟨id, 0⟩ :: elements, id, 0)
          | some e => return (elements, e.id, e.val)

/-- `agg_tmp -> val = val`. -/
def assign (id : List Char) (val : ℚ) (elements : List AggregateElement) : List AggregateElement :=
  elements.lookmap fun e => if id = e.id then some { e with val } else none

/-- `sprintf` with `%lf` into `strval`. -/
def printValue (value : ℚ) : Outcome Undefined Unit :=
  if sprintfLength value < 100 then .ret () else .throw .overflow

/-- The loop body of `main` on a data packet, without the publishing of `strval`. -/
def receive (aggs : AggregateInfo) (data : Data) : Outcome Undefined AggregateInfo := do
  let val ← containsTran aggs.tranId data.transducers
  if val = -1 then return aggs
  else do
    let (elements, id, prevVal) ← element aggs.elements data.event
    let _ ← strcpy 100 (data.transducers.head?.bind TransducerValue.timestamp)
    let value := aggs.value + (val - prevVal)
    printValue value
    return { aggs with elements := assign id val elements, value }

def receiveAll (tranId : List Char) (packets : List Data) : Outcome Undefined AggregateInfo :=
  packets.foldlM receive (AggregateInfo.new tranId)

def isPlain (tranId : List Char) (tran : TransducerValue) : Bool :=
  tran.type = .value && tran.name = some tranId

/-- The first plain value of that name. -/
def plain (tranId : List Char) (data : Data) : Option TransducerValue :=
  data.transducers.find? (isPlain tranId)

/-- The reading of that transducer under the event node. -/
def reading (tranId : List Char) (data : Data) : Option (Option (List Char) × ℚ) :=
  (plain tranId data).bind fun tran => (tran.typedValue.bind sscanf).map (data.event, ·)

def readings (tranId : List Char) (packets : List Data) : List (Option (List Char) × ℚ) :=
  packets.filterMap (reading tranId)

/-- The aggregate is what recomputation gives, and there is one element for each event node. -/
structure Aggregates (tranId : List Char) (packets : List Data) (aggs : AggregateInfo) : Prop where
  value : aggs.value = total (readings tranId packets)
  once : (aggs.elements.map AggregateElement.id).Nodup
  all : ∀ node, node ∈ aggs.elements.map (some ∘ AggregateElement.id) ↔
    node ∈ (readings tranId packets).map Prod.fst

def AlwaysAggregates (tranId : List Char) (packets : List Data) : Prop :=
  ∀ k ≤ packets.length, ∃ aggs, receiveAll tranId (packets.take k) = .ret aggs ∧
    Aggregates tranId (packets.take k) aggs

/-- The value of that transducer parses and is not -1, the names in front of it are there, and the
texts that are copied fit. -/
structure Takes (tranId : List Char) (before : List Data) (data : Data) : Prop where
  names : ∀ tran ∈ data.transducers.takeWhile (! isPlain tranId ·), tran.type = .value → tran.name ≠ none
  value : ∀ tran, plain tranId data = some tran → ∃ text val, tran.typedValue = some text ∧
    sscanf text = some val ∧ val ≠ -1
  event : ∀ tran, plain tranId data = some tran → ∃ event, data.event = some event ∧ strlen event < 100
  timestamp : ∀ tran, plain tranId data = some tran → ∃ timestamp,
    data.transducers.head?.bind TransducerValue.timestamp = some timestamp ∧ strlen timestamp < 100
  printed : ∀ tran, plain tranId data = some tran →
    sprintfLength (total (readings tranId (before ++ [data]))) < 100

section Calls
variable {tranId id event : List Char} {val prevVal : ℚ} {elements : List AggregateElement}

theorem strcpy_eq_ret {size : ℕ} {source : Option (List Char)} {text : List Char} :
    strcpy size source = .ret text ↔ source = some text ∧ strlen text < size := by
  cases source with
  | none => simp [strcpy]
  | some source =>
      by_cases fits : strlen source < size
      · simp only [strcpy, fits, if_true, Outcome.ret.injEq, Option.some.injEq]
        exact ⟨fun eq => ⟨eq, eq ▸ fits⟩, fun h => h.1⟩
      · simp only [strcpy, fits, if_false, reduceCtorEq, Option.some.injEq, false_iff]
        exact fun h => fits (h.1 ▸ h.2)

theorem printValue_eq_ret {u : Unit} : printValue val = .ret u ↔ sprintfLength val < 100 := by
  by_cases fits : sprintfLength val < 100 <;> simp [printValue, fits]

/-- The search ends at the first plain value of that name, or behind the last one. -/
theorem containsTran_eq_ret {transducers : List TransducerValue} :
    containsTran tranId transducers = .ret val ↔
      (∀ tran ∈ transducers.takeWhile (! isPlain tranId ·), tran.type = .value → tran.name ≠ none) ∧
      match transducers.find? (isPlain tranId) with
      | none => val = -1
      | some tran => ∃ text, tran.typedValue = some text ∧ sscanf text = some val := by
  induction transducers with
  | nil => simp [containsTran, eq_comm]
  | cons tran rest ih =>
      cases chosen : isPlain tranId tran with
      | true =>
          obtain ⟨plain, named⟩ : tran.type = .value ∧ tran.name = some tranId := by
            simpa [isPlain] using chosen
          rw [List.takeWhile_cons_of_neg (by simp [chosen]), List.find?_cons_of_pos chosen]
          simp only [containsTran, plain, named, ne_eq, not_true_eq_false, if_false, if_true]
          cases tran.typedValue with
          | none => simp
          | some text =>
              cases read : sscanf text <;> simp [read]
      | false =>
          rw [List.takeWhile_cons_of_pos (by simp [chosen]), List.find?_cons_of_neg (by simp [chosen]),
            List.forall_mem_cons]
          by_cases plain : tran.type = .value
          · cases named : tran.name with
            | none => simp [containsTran, plain, named]
            | some name =>
                have other : name ≠ tranId := by simpa [isPlain, plain, named] using chosen
                simp only [containsTran, plain, named, other, ne_eq, not_true_eq_false, if_false]
                rw [ih]
                simp
          · simp only [containsTran, plain, ne_eq, not_false_eq_true, if_true]
            rw [ih]
            simp

theorem element_none : element elements none = .throw .null := by
  cases elements <;> rfl

theorem element_new (new : event ∉ elements.map AggregateElement.id) :
    element elements (some event) = strcpy 100 (some event) >>= fun id =>
      .ret (⟨id, 0⟩ :: elements, id, 0) := by
  cases elements with
  | nil => rfl
  | cons e rest =>
      have none : (e :: rest).find? (fun e => event = e.id) = none := by
        refine List.find?_eq_none.mpr fun x mem => ?_
        intro same
        exact new (List.mem_map.mpr ⟨x, mem, (of_decide_eq_true same).symm⟩)
      simp only [element, none]
      rfl

theorem find_element {e : AggregateElement} (once : (elements.map AggregateElement.id).Nodup)
    (mem : e ∈ elements) : elements.find? (fun x => e.id = x.id) = some e := by
  induction elements with
  | nil => cases mem
  | cons x rest ih =>
      rw [List.map_cons, List.nodup_cons] at once
      rcases List.mem_cons.mp mem with rfl | mem
      · exact List.find?_cons_of_pos (by simp)
      · have ne : ¬ e.id = x.id := fun same => once.1 (same ▸ List.mem_map_of_mem mem)
        rw [List.find?_cons_of_neg (by simpa using ne)]
        exact ih once.2 mem

theorem element_old {e : AggregateElement} (once : (elements.map AggregateElement.id).Nodup)
    (mem : e ∈ elements) : element elements (some e.id) = .ret (elements, e.id, e.val) := by
  have found := find_element once mem
  cases elements with
  | nil => cases mem
  | cons x rest =>
      simp only [element, found]
      rfl

@[simp] theorem assign_ids : (assign id val elements).map AggregateElement.id =
    elements.map AggregateElement.id := by
  refine List.lookmap_map_eq _ AggregateElement.id (fun a b mem => ?_) _
  split at mem
  · cases mem
    rfl
  · cases mem

theorem assign_cons_self {e : AggregateElement} (same : id = e.id) :
    assign id val (e :: elements) = ⟨e.id, val⟩ :: elements :=
  List.lookmap_cons_some _ _ (if_pos same)

theorem assign_cons_of_ne {e : AggregateElement} (ne : id ≠ e.id) :
    assign id val (e :: elements) = e :: assign id val elements :=
  List.lookmap_cons_none _ _ (if_neg ne)

theorem mem_assign {e : AggregateElement} (once : (elements.map AggregateElement.id).Nodup)
    (mem : e ∈ assign id val elements) : e = ⟨id, val⟩ ∨ e ∈ elements ∧ e.id ≠ id := by
  induction elements with
  | nil => cases mem
  | cons x rest ih =>
      rw [List.map_cons, List.nodup_cons] at once
      by_cases same : id = x.id
      · rw [assign_cons_self same] at mem
        rcases List.mem_cons.mp mem with rfl | mem
        · exact .inl (by rw [same])
        · refine .inr ⟨List.mem_cons_of_mem _ mem, fun eq => once.1 ?_⟩
          rw [← same, ← eq]
          exact List.mem_map_of_mem mem
      · rw [assign_cons_of_ne same] at mem
        rcases List.mem_cons.mp mem with rfl | mem
        · exact .inr ⟨List.mem_cons_self, fun eq => same eq.symm⟩
        · rcases ih once.2 mem with eq | ⟨mem, ne⟩
          · exact .inl eq
          · exact .inr ⟨List.mem_cons_of_mem _ mem, ne⟩

end Calls

/-- What holds after packets that were all taken. -/
structure Tracks (tranId : List Char) (packets : List Data) (aggs : AggregateInfo) : Prop
    extends Aggregates tranId packets aggs where
  tran : aggs.tranId = tranId
  vals : ∀ e ∈ aggs.elements, latest (readings tranId packets) (some e.id) = some e.val
  proper : ∀ e ∈ aggs.elements, e.val ≠ -1 ∧ strlen e.id < 100

section Step
variable {tranId : List Char} {before packets : List Data} {data : Data} {aggs aggs' : AggregateInfo}
  {tran : TransducerValue} {text event : List Char} {val : ℚ}

theorem readings_append_none (none : plain tranId data = none) :
    readings tranId (before ++ [data]) = readings tranId before := by
  rw [readings, List.filterMap_append, List.filterMap_cons_none (by simp [reading, none]),
    List.filterMap_nil, List.append_nil]
  rfl

theorem readings_append_some (some_ : plain tranId data = some tran)
    (typed : tran.typedValue = some text) (read : sscanf text = some val) :
    readings tranId (before ++ [data]) = readings tranId before ++ [(data.event, val)] := by
  have one : reading tranId data = some (data.event, val) := by simp [reading, some_, typed, read]
  rw [readings, List.filterMap_append, List.filterMap_cons_some one, List.filterMap_nil]
  rfl

theorem Tracks.start (tranId : List Char) : Tracks tranId [] (.new tranId) where
  value := rfl
  once := List.nodup_nil
  all := by simp [AggregateInfo.new, readings]
  tran := rfl
  vals := by simp [AggregateInfo.new]
  proper := by simp [AggregateInfo.new]

theorem element_done (tracks : Tracks tranId before aggs) (short : strlen event < 100) :
    ∃ elements, element aggs.elements (some event) =
        .ret (elements, event, (latest (readings tranId before) (some event)).getD 0) ∧
      (elements.map AggregateElement.id).Nodup ∧
      (∀ node, node ∈ elements.map (some ∘ AggregateElement.id) ↔
        node = some event ∨ node ∈ aggs.elements.map (some ∘ AggregateElement.id)) ∧
      ∀ e ∈ elements, e.id ≠ event → e ∈ aggs.elements := by
  by_cases old : event ∈ aggs.elements.map AggregateElement.id
  · obtain ⟨e, mem, rfl⟩ := List.mem_map.mp old
    refine ⟨aggs.elements, ?_, tracks.once, fun node => ?_, fun e mem _ => mem⟩
    · rw [element_old tracks.once mem, tracks.vals e mem, Option.getD_some]
    · constructor
      · exact .inr
      · rintro (rfl | inside)
        · exact List.mem_map_of_mem mem
        · exact inside
  · have unseen : some event ∉ (readings tranId before).map Prod.fst := fun seen => by
      rw [← tracks.all, ← List.map_map] at seen
      exact old (List.mem_map_of_injective (Option.some_injective _) |>.mp seen)
    refine ⟨⟨event, 0⟩ :: aggs.elements, ?_, List.nodup_cons.mpr ⟨old, tracks.once⟩,
      fun node => List.mem_cons, fun e mem ne => ?_⟩
    · rw [element_new old, latest_eq_none unseen,
        strcpy_eq_ret.mpr ⟨rfl, short⟩]
      rfl
    · rcases List.mem_cons.mp mem with rfl | mem
      · exact (ne rfl).elim
      · exact mem

theorem named_of_element {result : List AggregateElement × List Char × ℚ}
    (tracks : Tracks tranId before aggs) (run : element aggs.elements data.event = .ret result) :
    ∃ event, data.event = some event ∧ strlen event < 100 := by
  cases named : data.event with
  | none =>
      rw [named, element_none] at run
      cases run
  | some event =>
      refine ⟨event, rfl, ?_⟩
      by_cases old : event ∈ aggs.elements.map AggregateElement.id
      · obtain ⟨e, mem, rfl⟩ := List.mem_map.mp old
        exact (tracks.proper e mem).2
      · rw [named, element_new old] at run
        obtain ⟨id, copied, -⟩ := Outcome.bind_eq_ret.mp run
        obtain ⟨⟨⟩, short⟩ := strcpy_eq_ret.mp copied
        exact short

theorem receive_done (tracks : Tracks tranId before aggs) (takes : Takes tranId before data) :
    ∃ aggs', receive aggs data = .ret aggs' ∧ Tracks tranId (before ++ [data]) aggs' := by
  have search := fun val => @containsTran_eq_ret tranId val data.transducers
  cases found : plain tranId data with
  | none =>
      have call : containsTran aggs.tranId data.transducers = .ret (-1) := by
        rw [tracks.tran, search, ← plain, found]
        exact ⟨takes.names, rfl⟩
      have same := @readings_append_none tranId before data found
      refine ⟨aggs, by rw [receive, call]; rfl, ⟨⟨?_, tracks.once, ?_⟩, tracks.tran, ?_, tracks.proper⟩⟩
      · rw [same]
        exact tracks.value
      · rw [same]
        exact tracks.all
      · rw [same]
        exact tracks.vals
  | some tran =>
      obtain ⟨text, val, typed, read, regular⟩ := takes.value tran found
      obtain ⟨event, named, short⟩ := takes.event tran found
      obtain ⟨timestamp, stamped, fits⟩ := takes.timestamp tran found
      have printed := takes.printed tran found
      have new := @readings_append_some tranId before data tran text val found typed read
      have call : containsTran aggs.tranId data.transducers = .ret val := by
        rw [tracks.tran, search, ← plain, found]
        exact ⟨takes.names, text, typed, read⟩
      obtain ⟨elements, here, once, all, others⟩ := element_done tracks short
      have value : aggs.value + (val - (latest (readings tranId before) (some event)).getD 0) =
          total (readings tranId (before ++ [data])) := by
        rw [new, total_append, tracks.value, named]
      refine ⟨⟨aggs.tranId, total (readings tranId (before ++ [data])), assign event val elements⟩, ?_,
        ⟨⟨rfl, by rw [assign_ids]; exact once, fun node => ?_⟩, tracks.tran, fun e mem => ?_, fun e mem => ?_⟩⟩
      · simp only [receive, call, Outcome.ret_bind, regular, if_false, named, here, stamped,
          strcpy_eq_ret.mpr ⟨rfl, fits⟩, value, printValue, printed, if_true]
        rfl
      · rw [← List.map_map, assign_ids, List.map_map, all, new, named, tracks.all]
        simp [or_comm]
      · rw [new, named]
        rcases mem_assign once mem with rfl | ⟨mem, ne⟩
        · exact latest_append_self
        · rw [latest_append_of_ne fun eq => ne (Option.some.inj eq)]
          exact tracks.vals e (others e mem ne)
      · rcases mem_assign once mem with rfl | ⟨mem, ne⟩
        · exact ⟨regular, short⟩
        · exact tracks.proper e (others e mem ne)

/-- A value of -1 changes nothing, but the sum would change. -/
theorem not_aggregates_skipped (tracks : Tracks tranId before aggs) (found : plain tranId data = some tran)
    (typed : tran.typedValue = some text) (read : sscanf text = some (-1)) :
    ¬ Aggregates tranId (before ++ [data]) aggs := by
  intro right
  have new := @readings_append_some tranId before data tran text (-1) found typed read
  have seen : data.event ∈ aggs.elements.map (some ∘ AggregateElement.id) := by
    rw [right.all, new]
    simp
  obtain ⟨e, mem, named⟩ := List.mem_map.mp seen
  have sum := right.value
  rw [new, total_append, tracks.value, ← named, Function.comp_apply, tracks.vals e mem, Option.getD_some,
    left_eq_add] at sum
  exact (tracks.proper e mem).1 (sub_eq_zero.mp sum).symm

/-- A packet after which the aggregate is right was taken. -/
theorem takes_of_receive (tracks : Tracks tranId before aggs) (run : receive aggs data = .ret aggs')
    (right : Aggregates tranId (before ++ [data]) aggs') : Takes tranId before data := by
  obtain ⟨val, call, rest⟩ := Outcome.bind_eq_ret.mp run
  rw [tracks.tran] at call
  obtain ⟨names, searched⟩ := containsTran_eq_ret.mp call
  rw [← plain] at searched
  cases found : plain tranId data with
  | none => exact ⟨names, by simp [found], by simp [found], by simp [found], by simp [found]⟩
  | some tran =>
      rw [found] at searched
      obtain ⟨text, typed, read⟩ := searched
      by_cases skipped : val = -1
      · obtain rfl := skipped
        cases rest
        exact (not_aggregates_skipped tracks found typed read right).elim
      · rw [if_neg skipped] at rest
        obtain ⟨⟨elements, id, prevVal⟩, here, rest⟩ := Outcome.bind_eq_ret.mp rest
        obtain ⟨timestamp, stamped, rest⟩ := Outcome.bind_eq_ret.mp rest
        obtain ⟨_, printed, -⟩ := Outcome.bind_eq_ret.mp rest
        obtain ⟨event, named, short⟩ := named_of_element tracks here
        obtain ⟨_, here', -⟩ := element_done tracks short
        rw [named] at here
        obtain ⟨-, -, rfl⟩ : _ ∧ _ ∧ prevVal = _ := by
          simpa only [Outcome.ret.injEq, Prod.mk.injEq] using here.symm.trans here'
        have new := @readings_append_some tranId before data tran text val found typed read
        rw [← tracks.value.symm, ← named, ← total_append, ← new] at printed
        refine ⟨names, fun t eq => ?_, fun _ _ => ⟨event, named, short⟩,
          fun _ _ => ⟨timestamp, strcpy_eq_ret.mp stamped⟩, fun _ _ => printValue_eq_ret.mp printed⟩
        rw [found] at eq
        cases eq
        exact ⟨text, val, typed, read, skipped⟩

theorem receiveAll_append :
    receiveAll tranId (packets ++ [data]) = receiveAll tranId packets >>= fun aggs => receive aggs data := by
  rw [receiveAll, List.foldlM_append, ← receiveAll]
  simp only [List.foldlM_cons, List.foldlM_nil, bind_pure]

theorem alwaysAggregates_append :
    AlwaysAggregates tranId (packets ++ [data]) ↔ AlwaysAggregates tranId packets ∧
      ∃ aggs, receiveAll tranId (packets ++ [data]) = .ret aggs ∧
        Aggregates tranId (packets ++ [data]) aggs := by
  constructor
  · intro h
    constructor
    · intro k le
      have run := h k (by rw [List.length_append]; exact le.trans (Nat.le_add_right _ _))
      rwa [List.take_append_of_le_length le] at run
    · have run := h _ le_rfl
      rwa [List.take_length] at run
  · rintro ⟨h, last⟩ k le
    rw [List.length_append, List.length_singleton] at le
    rcases Nat.lt_or_eq_of_le le with lt | rfl
    · rw [List.take_append_of_le_length (Nat.le_of_lt_succ lt)]
      exact h k (Nat.le_of_lt_succ lt)
    · rw [List.take_of_length_le (by simp)]
      exact last

def AllTaken (tranId : List Char) (packets : List Data) : Prop :=
  ∀ k data, packets[k]? = some data → Takes tranId (packets.take k) data

theorem allTaken_append :
    AllTaken tranId (packets ++ [data]) ↔ AllTaken tranId packets ∧ Takes tranId packets data := by
  constructor
  · intro h
    constructor
    · intro k d at_
      have lt : k < packets.length := (List.getElem?_eq_some_iff.mp at_).1
      have taken := h k d (by rw [List.getElem?_append_left lt]; exact at_)
      rwa [List.take_append_of_le_length lt.le] at taken
    · have taken := h packets.length data (by simp)
      rwa [List.take_left] at taken
  · rintro ⟨h, last⟩ k d at_
    rcases Nat.lt_or_ge k packets.length with lt | ge
    · rw [List.getElem?_append_left lt] at at_
      rw [List.take_append_of_le_length lt.le]
      exact h k d at_
    · rw [List.getElem?_append_right ge, List.getElem?_singleton] at at_
      split at at_
      · rename_i zero
        cases at_
        obtain rfl : k = packets.length := le_antisymm (Nat.sub_eq_zero_iff_le.mp zero) ge
        rw [List.take_left]
        exact last
      · cases at_

theorem allTaken_tracks (taken : AllTaken tranId packets) :
    ∃ aggs, receiveAll tranId packets = .ret aggs ∧ Tracks tranId packets aggs := by
  induction packets using List.reverseRecOn with
  | nil => exact ⟨_, rfl, .start tranId⟩
  | append_singleton packets data ih =>
      obtain ⟨before, takes⟩ := allTaken_append.mp taken
      obtain ⟨aggs, run, tracks⟩ := ih before
      obtain ⟨aggs', step, tracks'⟩ := receive_done tracks takes
      exact ⟨aggs', by rw [receiveAll_append, run]; exact step, tracks'⟩

end Step

/-- After every packet the aggregate is the sum of the last values exactly if each packet is taken. -/
theorem always_aggregates_iff (tranId : List Char) (packets : List Data) :
    AlwaysAggregates tranId packets ↔ AllTaken tranId packets := by
  induction packets using List.reverseRecOn with
  | nil =>
      refine iff_of_true (fun k le => ?_) fun k data at_ => (nomatch at_)
      obtain rfl := Nat.le_zero.mp le
      exact ⟨_, rfl, (Tracks.start tranId).toAggregates⟩
  | append_singleton packets data ih =>
      rw [alwaysAggregates_append, allTaken_append, ih]
      refine and_congr_right fun before => ?_
      obtain ⟨aggs, run, tracks⟩ := allTaken_tracks before
      rw [receiveAll_append, run, Outcome.ret_bind]
      constructor
      · rintro ⟨aggs', step, right⟩
        exact takes_of_receive tracks step right
      · intro takes
        obtain ⟨aggs', step, tracks'⟩ := receive_done tracks takes
        exact ⟨aggs', step, tracks'.toAggregates⟩

def minusOne : Data :=
  { event := some ['n']
    transducers :=
      [{ name := some ['t'], typedValue := some ['-', '1'], timestamp := some ['0'] }] }

/-- The first value of a node is -1: the node gets no element. -/
theorem minus_one_dropped : ¬ AlwaysAggregates ['t'] [minusOne] := by
  intro h
  obtain ⟨aggs, run, right⟩ := h 1 le_rfl
  have read : sscanf ['-', '1'] = some (-1) := by decide +kernel
  have empty : receiveAll ['t'] [minusOne] = .ret (.new ['t']) := by
    simp [receiveAll, receive, containsTran, minusOne, read, AggregateInfo.new]
  obtain rfl := Outcome.ret.inj (run.symm.trans empty)
  have node := (right.all (some ['n'])).mpr (by simp [readings, reading, plain, isPlain, minusOne, read])
  cases node

end Mio.Tools
