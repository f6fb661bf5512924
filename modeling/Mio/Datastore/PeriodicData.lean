import Mathlib.Algebra.BigOperators.Group.List.Basic
import Mathlib.Data.List.TakeDrop
import Mio.Datastore.Binrec
import Mio.Datastore.TickToTime
import Mio.Lib.Scan

/-! The periodic-data record of `Binrec.cpp`: its constructor, its samples, and its place in time. -/
namespace Mio.Datastore

structure PeriodicDataRecord where
  firstSampleShortTick : BitVec 32
  samplePeriod : BitVec 32
  numberOfSamples : BitVec 32
  channelSignature : List UInt8 := []
  channelDefinitions : List (List UInt8 × ℤ) := []
  data : List UInt8 := []
  /-- Set by `set_time`. -/
  firstSampleLongTick : BitVec 64 := 0#64

namespace PeriodicDataRecord

/-- The errors with what their messages print. -/
inductive PayloadError where
  /-- "At byte %d: DEVICE_PARAMS don't end with NUL" -/
  | missingNul (pos : ℤ)
  /-- "At byte %d: DEVICE_PARAMS missing tab" -/
  | missingTab (pos : ℤ)
  /-- "At byte %d: DEVICE_PARAMS missing newline" -/
  | missingNewline (pos : ℤ)
  /-- "In RTYPE_START_OF_FILE payload starting at byte %d: %s" -/
  | inPayload (pos : ℤ) (error : PayloadError)
  /-- "Don't know how to read channel with %d bits" -/
  | channelBits (bits : ℤ)
deriving DecidableEq

/-- What is thrown. -/
inductive Exception where
  | parseError (error : PayloadError)
  /-- `std::length_error`, of a string whose end lies in front of its start. -/
  | lengthError
deriving DecidableEq

def readU32 (memory : List UInt8) (ptr : ℕ) : Outcome Exception (BitVec 32) :=
  if ptr + 4 ≤ memory.length then .ret (u32At memory ptr) else .abort "ptr"

/-- The loop that looks for the NUL. -/
def scanNul (payloadLen : ℤ) : List UInt8 → ℕ → Outcome Exception ℕ
  | memory, ptr =>
      if (ptr : ℤ) < payloadLen then
        match memory with
        | [] => .abort "ptr"
        | byte :: memory => if byte ≠ 0 then scanNul payloadLen memory (ptr + 1) else .ret ptr
      else .ret ptr

def strchr (c : UInt8) : List UInt8 → Option (List UInt8 × List UInt8)
  | [] => none
  | byte :: text =>
      if byte = c then some ([], text)
      else (strchr c text).map fun (front, rest) => (byte :: front, rest)

def atoi (text : List UInt8) : ℤ := Scan.atoi (text.map fun c => Char.ofNat c.toNat)

theorem length_of_strchr {c : UInt8} {text front rest : List UInt8}
    (found : strchr c text = some (front, rest)) : rest.length < text.length := by
  induction text generalizing front with
  | nil => cases found
  | cons byte text ih =>
      unfold strchr at found
      split at found
      · cases found
        exact Nat.lt_succ_self _
      · obtain ⟨⟨front, rest⟩, found, ⟨⟩⟩ := Option.map_eq_some_iff.mp found
        exact (ih found).trans (Nat.lt_succ_self _)

/-- The loop over the lines, from the position on. -/
def definitions (pos : ℕ) (text : List UInt8) : Outcome Exception (List (List UInt8 × ℤ)) :=
  if text = [] then .ret []
  else
    match _tab : strchr 9 text with
    | none => .throw (.parseError (.missingTab pos))
    | some (key, behind) =>
        match _newline : strchr 10 behind with
        | none => .throw (.parseError (.missingNewline (pos + (text.length - behind.length))))
        | some (value, rest) => do
            let more ← definitions (pos + (text.length - rest.length)) rest
            return (key, atoi value) :: more
termination_by text.length
decreasing_by exact (length_of_strchr _newline).trans (length_of_strchr _tab)

/-- The handler of the constructor. -/
def rethrow {α : Type} (start : ℕ) : Outcome Exception α → Outcome Exception α
  | .throw (.parseError e) => .throw (.parseError (.inPayload start e))
  | result => result

/-- The constructor on the bytes from the payload to the end of the file, the payload being at
position `start`. -/
def new (memory : List UInt8) (payloadLen : BitVec 32) (start : ℕ) :
    Outcome Exception PeriodicDataRecord :=
  rethrow start do
    let firstSampleShortTick ← readU32 memory 0
    let samplePeriod ← readU32 memory 4
    let numberOfSamples ← readU32 memory 8
    let cdefEnd ← scanNul payloadLen.toInt (memory.drop 12) 12
    if payloadLen.toInt ≤ cdefEnd then
      .throw (.parseError (.missingNul (start + payloadLen.toInt - 1)))
    else do
      let text := (memory.drop 12).take (cdefEnd - 12)
      -- the string ends one byte early
      if cdefEnd < 12 + 1 then .throw .lengthError
      else do
        let channelDefinitions ← definitions (start + 12) text
        return {
          firstSampleShortTick, samplePeriod, numberOfSamples, channelDefinitions
          channelSignature := text.dropLast
          data := (memory.take payloadLen.toInt.toNat).drop (cdefEnd + 1) }

def addInt (a b : ℤ) : Outcome Exception ℤ :=
  if -2 ^ 31 ≤ a + b ∧ a + b < 2 ^ 31 then .ret (a + b) else .abort "int"

def sumBits (definitions : List (List UInt8 × ℤ)) : Outcome Exception ℤ :=
  definitions.foldlM (fun bits definition => addInt bits definition.2) 0

/-- The bytes that `read_u8`, `read_u16` or `read_u32` read. -/
def readBytes (sampleBits : ℤ) : Outcome Exception ℕ :=
  if sampleBits = 8 then .ret 1
  else if sampleBits = 16 then .ret 2
  else if sampleBits = 32 then .ret 4
  else .throw (.parseError (.channelBits sampleBits))

/-- `(*read)(ptr)` at `&data[offset + i * stride]`, which is an unsigned sum. -/
def readSample (data : List UInt8) (offset stride : ℤ) (width i : ℕ) : Outcome Exception ℕ :=
  let index := ((offset + i * stride) % 2 ^ 32).toNat
  if index + width ≤ data.length then .ret (leValue ((data.drop index).take width))
  else .abort "data"

/-- `get_samples` before the multiplication with the scale. -/
def getSamples (pdr : PeriodicDataRecord) (ch : ℕ) : Outcome Exception (List ℕ) := do
  let totalBits ← sumBits pdr.channelDefinitions
  let sampleStartBit ← sumBits (pdr.channelDefinitions.take ch)
  match pdr.channelDefinitions[ch]? with
  | none => .abort "channel_definitions"
  | some (_, sampleBits) => do
      Outcome.assert (totalBits % 8 = 0) "total_bits % 8 == 0"
      Outcome.assert (sampleStartBit % 8 = 0) "sample_start_bit % 8 == 0"
      Outcome.assert (sampleBits % 8 = 0) "sample_bits % 8 == 0"
      let width ← readBytes sampleBits
      (List.range pdr.numberOfSamples.toNat).mapM
        (readSample pdr.data (sampleStartBit / 8) (totalBits / 8) width)

/-- The bits of these channels in one sample of all channels. -/
def bits (definitions : List (List UInt8 × ℤ)) : ℤ := (definitions.map Prod.snd).sum

/-- These are the samples of the channel, each of them read inside the data. -/
structure Inside (pdr : PeriodicDataRecord) (ch : ℕ) (samples : List ℕ) : Prop where
  size : samples.length = pdr.numberOfSamples.toNat
  read : ∀ i < pdr.numberOfSamples.toNat, ∃ index width : ℕ,
    (index : ℤ) = bits (pdr.channelDefinitions.take ch) / 8 + i * (bits pdr.channelDefinitions / 8) ∧
    pdr.channelDefinitions[ch]?.map Prod.snd = some (8 * width : ℤ) ∧
    index + width ≤ pdr.data.length ∧
    samples[i]? = some (leValue ((pdr.data.drop index).take width))

def Leaves {α : Type} (result : Outcome Exception α) (good : α → Prop) : Prop :=
  (∃ a, result = .ret a ∧ good a) ∨ ∃ e, result = .throw (.parseError e)

/-- The constructor returns or throws a `ParseError`, and then so does `get_samples` for every channel,
with the samples read inside the data. -/
def Contained (memory : List UInt8) (payloadLen : BitVec 32) (start : ℕ) : Prop :=
  Leaves (new memory payloadLen start) fun pdr =>
    ∀ ch < pdr.channelDefinitions.length, Leaves (pdr.getSamples ch) (pdr.Inside ch)

def text (lines : List (List UInt8 × List UInt8)) : List UInt8 :=
  lines.flatMap fun (key, value) => key ++ 9 :: value ++ [10]

/-- The key ends at the first tab, the value at the first newline behind it, the text at the first
NUL. -/
def Line (line : List UInt8 × List UInt8) : Prop :=
  9 ∉ line.1 ∧ 0 ∉ line.1 ∧ 10 ∉ line.2 ∧ 0 ∉ line.2

def widths (lines : List (List UInt8 × List UInt8)) : List (List UInt8 × ℤ) :=
  lines.map fun (key, value) => (key, atoi value)

/-- The sums of the widths are `int`s and whole bytes, and `size` bytes hold `count` samples of a channel
of one, two or four bytes. -/
structure Fits (count : ℕ) (definitions : List (List UInt8 × ℤ)) (size ch : ℕ) (sampleBits : ℤ) :
    Prop where
  small : ∀ k ≤ definitions.length, -2 ^ 31 ≤ bits (definitions.take k) ∧ bits (definitions.take k) < 2 ^ 31
  total : bits definitions % 8 = 0
  start : bits (definitions.take ch) % 8 = 0
  sample : sampleBits % 8 = 0
  inside : sampleBits = 8 ∨ sampleBits = 16 ∨ sampleBits = 32 → ∀ i < count,
    0 ≤ bits (definitions.take ch) / 8 + i * (bits definitions / 8) ∧
    bits (definitions.take ch) / 8 + i * (bits definitions / 8) + sampleBits / 8 ≤ size

/-- The bytes of the payload behind the three words. -/
def behindWords (memory : List UInt8) (payloadLen : BitVec 32) : List UInt8 :=
  (memory.take payloadLen.toInt.toNat).drop 12

/-- The three words can be read, the definitions are not the empty string, and if they are lines, every
channel fits into the data. -/
structure Regular (memory : List UInt8) (payloadLen : BitVec 32) : Prop where
  words : 12 ≤ memory.length
  some_ : (behindWords memory payloadLen).head? ≠ some 0
  fits : ∀ lines data, behindWords memory payloadLen = text lines ++ 0 :: data → (∀ l ∈ lines, Line l) →
    ∀ ch definition, (widths lines)[ch]? = some definition →
      Fits (u32At memory 8).toNat (widths lines) data.length ch definition.2

section Text
variable {c : UInt8} {front rest txt : List UInt8} {lines : List (List UInt8 × List UInt8)}

theorem strchr_eq_some : strchr c txt = some (front, rest) ↔ txt = front ++ c :: rest ∧ c ∉ front := by
  induction txt generalizing front with
  | nil => simp [strchr]
  | cons byte txt ih =>
      by_cases here : byte = c
      · subst here
        cases front with
        | nil => simp [strchr]
        | cons b front => simp [strchr]; grind
      · cases front with
        | nil => simp [strchr, here]
        | cons b front => simp [strchr, here, ih]; grind

theorem definitions_nil (pos : ℕ) : definitions pos [] = .ret [] := by
  rw [definitions, if_pos rfl]

theorem text_cons (key value : List UInt8) :
    text ((key, value) :: lines) = key ++ 9 :: (value ++ 10 :: text lines) := by
  simp [text]

theorem definitions_text (proper : ∀ l ∈ lines, Line l) (pos : ℕ) :
    definitions pos (text lines) = .ret (widths lines) := by
  induction lines generalizing pos with
  | nil => exact definitions_nil pos
  | cons line lines ih =>
      obtain ⟨key, value⟩ := line
      obtain ⟨⟨noTab, -, noNewline, -⟩, others⟩ := List.forall_mem_cons.mp proper
      rw [text_cons, definitions, if_neg (by simp)]
      have tab : strchr 9 (key ++ 9 :: (value ++ 10 :: text lines)) = some (key, value ++ 10 :: text lines) :=
        strchr_eq_some.mpr ⟨rfl, noTab⟩
      have newline : strchr 10 (value ++ 10 :: text lines) = some (value, text lines) :=
        strchr_eq_some.mpr ⟨rfl, noNewline⟩
      split
      · simp_all
      · next found =>
          rw [tab] at found
          cases found
          split
          · simp_all
          · next found =>
              rw [newline] at found
              cases found
              rw [ih others]
              rfl

/-- A text without NUL is lines, or an error. -/
theorem definitions_cases (noNul : 0 ∉ txt) (pos : ℕ) :
    (∃ lines, (∀ l ∈ lines, Line l) ∧ txt = text lines) ∨
      ∃ e, definitions pos txt = .throw (.parseError e) := by
  fun_induction definitions pos txt with
  | case1 => exact .inl ⟨[], by simp, rfl⟩
  | case2 => exact .inr ⟨_, rfl⟩
  | case3 => exact .inr ⟨_, rfl⟩
  | case4 pos txt some_ key behind tab value rest newline ih =>
      obtain ⟨rfl, noTab⟩ := strchr_eq_some.mp tab
      obtain ⟨rfl, noNewline⟩ := strchr_eq_some.mp newline
      simp only [List.mem_append, List.mem_cons, not_or] at noNul
      obtain ⟨keyFull, -, valueFull, -, restFull⟩ := noNul
      rcases ih restFull with ⟨lines, proper, rfl⟩ | ⟨e, failed⟩
      · refine .inl ⟨(key, value) :: lines, List.forall_mem_cons.mpr ⟨?_, proper⟩, (text_cons ..).symm⟩
        exact ⟨noTab, keyFull, noNewline, valueFull⟩
      · refine .inr ⟨e, ?_⟩
        rw [failed]
        rfl

theorem text_noNul (proper : ∀ l ∈ lines, Line l) : 0 ∉ text lines := by
  induction lines with
  | nil => simp [text]
  | cons line lines ih =>
      obtain ⟨⟨-, key, -, value⟩, others⟩ := List.forall_mem_cons.mp proper
      have more := ih others
      rw [text_cons]
      simp [key, value, more]

theorem scanNul_found {len : ℤ} (noNul : 0 ∉ txt) {ptr : ℕ} (inside : (ptr + txt.length : ℤ) < len) :
    scanNul len (txt ++ 0 :: rest) ptr = .ret (ptr + txt.length) := by
  induction txt generalizing ptr with
  | nil =>
      have more : (ptr : ℤ) < len := by simpa using inside
      rw [List.nil_append, scanNul, if_pos more]
      rfl
  | cons byte txt ih =>
      rw [List.mem_cons, not_or] at noNul
      obtain ⟨byteFull, txtFull⟩ := noNul
      rw [List.length_cons] at inside ⊢
      rw [List.cons_append, scanNul, if_pos (by omega)]
      refine (if_pos (Ne.symm byteFull)).trans ?_
      rw [ih txtFull (by push_cast at inside ⊢; omega)]
      congr 1
      omega

theorem scanNul_missing {len : ℤ} {memory : List UInt8} {ptr : ℕ} (noNul : 0 ∉ memory.take (len - ptr).toNat)
    (inside : len - ptr ≤ memory.length) : ∃ stop : ℕ, scanNul len memory ptr = .ret stop ∧ len ≤ stop := by
  induction memory generalizing ptr with
  | nil =>
      have stop : ¬ (ptr : ℤ) < len := by
        rw [List.length_nil] at inside
        omega
      exact ⟨ptr, by rw [scanNul, if_neg stop], not_lt.mp stop⟩
  | cons byte memory ih =>
      by_cases more : (ptr : ℤ) < len
      · obtain ⟨left, eq⟩ : ∃ left, (len - ptr).toNat = left + 1 := ⟨(len - ptr).toNat - 1, by omega⟩
        rw [eq, List.take_succ_cons, List.mem_cons, not_or] at noNul
        have next : (len - (ptr + 1 : ℕ)).toNat = left := by omega
        obtain ⟨stop, run, late⟩ := @ih (ptr + 1) (by rw [next]; exact noNul.2)
          (by rw [List.length_cons] at inside; push_cast at inside ⊢; omega)
        refine ⟨stop, ?_, late⟩
        rw [scanNul, if_pos more]
        exact (if_pos (Ne.symm noNul.1)).trans run
      · exact ⟨ptr, by rw [scanNul, if_neg more], not_lt.mp more⟩

end Text

section Constructor
variable {memory txt data : List UInt8} {payloadLen : BitVec 32} {start : ℕ}

theorem readU32_of_le {ptr : ℕ} (inside : ptr + 4 ≤ memory.length) :
    readU32 memory ptr = .ret (u32At memory ptr) := if_pos inside

theorem new_short (short : memory.length < 12) : ∃ w, new memory payloadLen start = .abort w := by
  by_cases first : 0 + 4 ≤ memory.length
  · by_cases second : 4 + 4 ≤ memory.length
    · have third : ¬ 8 + 4 ≤ memory.length := not_le.mpr short
      exact ⟨"ptr", by simp only [new, readU32, first, second, third, if_true, if_false]; rfl⟩
    · exact ⟨"ptr", by simp only [new, readU32, first, second, if_true, if_false]; rfl⟩
  · exact ⟨"ptr", by simp only [new, readU32, first, if_false]; rfl⟩

theorem length_behindWords (inside : payloadLen.toInt ≤ memory.length) :
    (behindWords memory payloadLen).length = payloadLen.toInt.toNat - 12 := by
  rw [behindWords, List.length_drop, List.length_take, min_eq_left (by omega)]

theorem new_missing (words : 12 ≤ memory.length) (inside : payloadLen.toInt ≤ memory.length)
    (noNul : 0 ∉ behindWords memory payloadLen) :
    ∃ e, new memory payloadLen start = .throw (.parseError e) := by
  have scanned : 0 ∉ (memory.drop 12).take (payloadLen.toInt - (12 : ℕ)).toNat := by
    rw [behindWords, List.drop_take] at noNul
    have same : (payloadLen.toInt - (12 : ℕ)).toNat = payloadLen.toInt.toNat - 12 := by omega
    rw [same]
    exact noNul
  obtain ⟨stop, scan, late⟩ := scanNul_missing scanned (by rw [List.length_drop]; omega)
  refine ⟨.inPayload start (.missingNul (start + payloadLen.toInt - 1)), ?_⟩
  simp only [new, readU32_of_le (show 0 + 4 ≤ memory.length by omega),
    readU32_of_le (show 4 + 4 ≤ memory.length by omega),
    readU32_of_le (show 8 + 4 ≤ memory.length by omega), Outcome.ret_bind, scan, late, if_true]
  rfl

theorem new_found (words : 12 ≤ memory.length) (inside : payloadLen.toInt ≤ memory.length)
    (noNul : 0 ∉ txt) (split : behindWords memory payloadLen = txt ++ 0 :: data) :
    new memory payloadLen start = if txt = [] then .throw .lengthError else
      rethrow start (definitions (start + 12) txt >>= fun channelDefinitions => .ret {
        firstSampleShortTick := u32At memory 0
        samplePeriod := u32At memory 4
        numberOfSamples := u32At memory 8
        channelDefinitions
        channelSignature := txt.dropLast
        data }) := by
  have size := length_behindWords inside
  rw [split, List.length_append, List.length_cons] at size
  have rest : memory.drop 12 = txt ++ 0 :: (data ++ memory.drop payloadLen.toInt.toNat) := by
    rw [← List.cons_append, ← List.append_assoc, ← split, behindWords]
    conv_lhs => rw [← List.take_append_drop payloadLen.toInt.toNat memory]
    exact List.drop_append_of_le_length (by rw [List.length_take]; omega)
  have scan : scanNul payloadLen.toInt (memory.drop 12) 12 = .ret (12 + txt.length) := by
    rw [rest]
    exact scanNul_found noNul (by push_cast; omega)
  have early : ¬ payloadLen.toInt ≤ ((12 + txt.length : ℕ) : ℤ) := by omega
  have front : (memory.drop 12).take (12 + txt.length - 12) = txt := by
    rw [rest, Nat.add_sub_cancel_left, List.take_left]
  have back : (memory.take payloadLen.toInt.toNat).drop (12 + txt.length + 1) = data := by
    rw [Nat.add_assoc, ← List.drop_drop, ← behindWords, split, List.append_cons,
      List.drop_left' (by simp)]
  have empty : 12 + txt.length < 12 + 1 ↔ txt = [] := by
    rw [← List.length_eq_zero_iff]
    omega
  simp only [new, readU32_of_le (show 0 + 4 ≤ memory.length by omega),
    readU32_of_le (show 4 + 4 ≤ memory.length by omega),
    readU32_of_le (show 8 + 4 ≤ memory.length by omega), Outcome.ret_bind, scan, early, if_false, front,
    back, empty]
  split <;> rfl

end Constructor

section Samples
variable {definitions : List (List UInt8 × ℤ)} {pdr : PeriodicDataRecord} {ch : ℕ}

/-- All partial sums are `int`s. -/
def Small (definitions : List (List UInt8 × ℤ)) : Prop :=
  ∀ k ≤ definitions.length, -2 ^ 31 ≤ bits (definitions.take k) ∧ bits (definitions.take k) < 2 ^ 31

theorem sumBits_eq (small : Small definitions) : sumBits definitions = .ret (bits definitions) := by
  induction definitions using List.reverseRecOn with
  | nil => rfl
  | append_singleton definitions definition ih =>
      have before : Small definitions := fun k le => by
        have part := small k (by rw [List.length_append]; omega)
        rwa [List.take_append_of_le_length le] at part
      have sum : bits (definitions ++ [definition]) = bits definitions + definition.2 := by simp [bits]
      have all := small _ le_rfl
      rw [List.take_length, sum] at all
      have last : addInt (bits definitions) definition.2 = .ret (bits definitions + definition.2) :=
        if_pos all
      have first := ih before
      rw [sumBits] at first ⊢
      rw [List.foldlM_append, first, Outcome.ret_bind, List.foldlM_cons, last, sum]
      rfl

theorem small_of_sumBits {sum : ℤ} (run : sumBits definitions = .ret sum) : Small definitions := by
  induction definitions using List.reverseRecOn generalizing sum with
  | nil =>
      intro k le
      rw [Nat.le_zero.mp le]
      decide
  | append_singleton definitions definition ih =>
      rw [sumBits, List.foldlM_append] at run
      obtain ⟨before, first, last⟩ := Outcome.bind_eq_ret.mp run
      rw [List.foldlM_cons] at last
      obtain ⟨after, last, -⟩ := Outcome.bind_eq_ret.mp last
      have small := ih first
      have sum := sumBits_eq small
      rw [sumBits, first] at sum
      cases sum
      intro k le
      rw [List.length_append, List.length_singleton] at le
      rcases Nat.lt_or_eq_of_le le with lt | rfl
      · rw [List.take_append_of_le_length (Nat.le_of_lt_succ lt)]
        exact small k (Nat.le_of_lt_succ lt)
      · have whole : bits (definitions ++ [definition]) = bits definitions + definition.2 := by simp [bits]
        rw [List.take_of_length_le (by simp), whole]
        unfold addInt at last
        split at last
        · assumption
        · cases last

theorem Small.take (small : Small definitions) (k : ℕ) : Small (definitions.take k) := by
  intro j le
  rw [List.length_take] at le
  rw [List.take_take, min_eq_left (by omega)]
  exact small j (by omega)

theorem readSample_of {data : List UInt8} {offset stride : ℤ} {width i index : ℕ}
    (short : data.length < 2 ^ 31) (at_ : (index : ℤ) = offset + i * stride)
    (inside : index + width ≤ data.length) :
    readSample data offset stride width i = .ret (leValue ((data.drop index).take width)) := by
  have same : ((offset + i * stride) % 2 ^ 32).toNat = index := by
    rw [← at_]
    omega
  rw [readSample, same]
  exact if_pos inside

theorem leaves_bind {α β : Type} {x : Outcome Exception α} {f : α → Outcome Exception β}
    {good : β → Prop} (silent : x.Silent) (leaves : Leaves (x >>= f) good) :
    ∃ a, x = .ret a ∧ Leaves (f a) good := by
  rcases leaves with ⟨b, run, ok⟩ | ⟨e, run⟩
  · obtain ⟨a, first, rest⟩ := Outcome.bind_eq_ret.mp run
    exact ⟨a, first, .inl ⟨b, rest, ok⟩⟩
  · rcases Outcome.bind_eq_throw.mp run with thrown | ⟨a, first, rest⟩
    · exact (silent _ thrown).elim
    · exact ⟨a, first, .inr ⟨e, rest⟩⟩

theorem addInt_silent (a b : ℤ) : (addInt a b).Silent := by
  unfold addInt
  split
  · exact .ret _
  · exact .abort _

theorem sumBits_silent (definitions : List (List UInt8 × ℤ)) : (sumBits definitions).Silent := by
  induction definitions using List.reverseRecOn with
  | nil => exact .ret 0
  | append_singleton definitions definition ih =>
      rw [sumBits, List.foldlM_append]
      refine ih.bind fun sum => ?_
      rw [List.foldlM_cons]
      exact (addInt_silent _ _).bind fun _ => .ret _

theorem readSample_silent (data : List UInt8) (offset stride : ℤ) (width i : ℕ) :
    (readSample data offset stride width i).Silent := by
  unfold readSample
  simp only
  split
  · exact .ret _
  · exact .abort _

theorem readBytes_cases (sampleBits : ℤ) :
    (∃ width : ℕ, sampleBits = 8 * width ∧ readBytes sampleBits = .ret width ∧
      (sampleBits = 8 ∨ sampleBits = 16 ∨ sampleBits = 32)) ∨
    ¬ (sampleBits = 8 ∨ sampleBits = 16 ∨ sampleBits = 32) ∧
      readBytes sampleBits = .throw (.parseError (.channelBits sampleBits)) := by
  by_cases eight : sampleBits = 8
  · exact .inl ⟨1, by simp [eight], by simp [readBytes, eight], .inl eight⟩
  · by_cases sixteen : sampleBits = 16
    · exact .inl ⟨2, by simp [sixteen], by simp [readBytes, sixteen], .inr (.inl sixteen)⟩
    · by_cases thirtyTwo : sampleBits = 32
      · exact .inl ⟨4, by simp [thirtyTwo], by simp [readBytes, thirtyTwo], .inr (.inr thirtyTwo)⟩
      · exact .inr ⟨by simp [eight, sixteen, thirtyTwo], by simp [readBytes, eight, sixteen, thirtyTwo]⟩

/-- A channel leaves well exactly if it fits. -/
theorem getSamples_leaves {definition : List UInt8 × ℤ} (short : pdr.data.length < 2 ^ 31)
    (at_ : pdr.channelDefinitions[ch]? = some definition) :
    Leaves (pdr.getSamples ch) (pdr.Inside ch) ↔
      Fits pdr.numberOfSamples.toNat pdr.channelDefinitions pdr.data.length ch definition.2 := by
  constructor
  · intro leaves
    obtain ⟨total, totalRun, leaves⟩ := leaves_bind (sumBits_silent _) leaves
    obtain ⟨start, startRun, leaves⟩ := leaves_bind (sumBits_silent _) leaves
    have small := small_of_sumBits totalRun
    obtain rfl := Outcome.ret.inj (totalRun.symm.trans (sumBits_eq small))
    obtain rfl := Outcome.ret.inj (startRun.symm.trans (sumBits_eq (small.take ch)))
    simp only [at_] at leaves
    obtain ⟨_, wholeTotal, leaves⟩ := leaves_bind .assert leaves
    obtain ⟨_, wholeStart, leaves⟩ := leaves_bind .assert leaves
    obtain ⟨_, wholeSample, leaves⟩ := leaves_bind .assert leaves
    refine ⟨small, Outcome.assert_eq_ret.mp wholeTotal, Outcome.assert_eq_ret.mp wholeStart,
      Outcome.assert_eq_ret.mp wholeSample, fun known i lt => ?_⟩
    rcases readBytes_cases definition.2 with ⟨width, eq, read, -⟩ | ⟨unknown, -⟩
    · rw [read, Outcome.ret_bind] at leaves
      rcases leaves with ⟨samples, -, inside⟩ | ⟨e, thrown⟩
      · obtain ⟨index, width', here, wide, le, -⟩ := inside.read i lt
        rw [at_] at wide
        have same : definition.2 = 8 * width' := Option.some.inj wide
        rw [← here]
        omega
      · exact (Outcome.Silent.mapM (fun i _ => readSample_silent _ _ _ _ i) _ thrown).elim
    · exact (unknown known).elim
  · intro fits
    have total := sumBits_eq fits.small
    have start := sumBits_eq (Small.take fits.small ch)
    have run : pdr.getSamples ch = readBytes definition.2 >>= fun width =>
        (List.range pdr.numberOfSamples.toNat).mapM (readSample pdr.data
          (bits (pdr.channelDefinitions.take ch) / 8) (bits pdr.channelDefinitions / 8) width) := by
      simp only [getSamples, total, start, Outcome.ret_bind, at_, Outcome.assert_of fits.total,
        Outcome.assert_of fits.start, Outcome.assert_of fits.sample]
    rcases readBytes_cases definition.2 with ⟨width, eq, read, known⟩ | ⟨-, thrown⟩
    · have places : ∀ i < pdr.numberOfSamples.toNat, ∃ index : ℕ,
          (index : ℤ) = bits (pdr.channelDefinitions.take ch) / 8 + i * (bits pdr.channelDefinitions / 8) ∧
          index + width ≤ pdr.data.length := fun i lt => by
        obtain ⟨low, high⟩ := fits.inside known i lt
        obtain ⟨index, same⟩ := Int.eq_ofNat_of_zero_le low
        exact ⟨index, same.symm, by omega⟩
      choose! index place le using places
      have reads : ∀ i ∈ List.range pdr.numberOfSamples.toNat, readSample pdr.data
          (bits (pdr.channelDefinitions.take ch) / 8) (bits pdr.channelDefinitions / 8) width i =
            .ret (leValue ((pdr.data.drop (index i)).take width)) := fun i mem =>
        readSample_of short (place i (List.mem_range.mp mem)) (le i (List.mem_range.mp mem))
      rw [run, read, Outcome.ret_bind, Outcome.mapM_of_ret reads]
      refine .inl ⟨_, rfl, by simp, fun i lt => ⟨index i, width, place i lt, ?_, le i lt, ?_⟩⟩
      · rw [at_, ← eq]
        rfl
      · rw [List.getElem?_map, List.getElem?_range lt]
        rfl
    · rw [run, thrown]
      exact .inr ⟨_, rfl⟩

end Samples

section Whole
variable {memory data : List UInt8} {payloadLen : BitVec 32} {start : ℕ}
  {lines : List (List UInt8 × List UInt8)}

theorem length_data (inside : payloadLen.toInt ≤ memory.length)
    (split : behindWords memory payloadLen = text lines ++ 0 :: data) : data.length < 2 ^ 31 := by
  have size := length_behindWords inside
  have small := @BitVec.toInt_lt 32 payloadLen
  rw [split, List.length_append, List.length_cons] at size
  omega

theorem new_lines (words : 12 ≤ memory.length) (inside : payloadLen.toInt ≤ memory.length)
    (split : behindWords memory payloadLen = text lines ++ 0 :: data) (proper : ∀ l ∈ lines, Line l)
    (some_ : lines ≠ []) : new memory payloadLen start = .ret {
      firstSampleShortTick := u32At memory 0
      samplePeriod := u32At memory 4
      numberOfSamples := u32At memory 8
      channelDefinitions := widths lines
      channelSignature := (text lines).dropLast
      data } := by
  have full : text lines ≠ [] := by
    cases lines with
    | nil => exact (some_ rfl).elim
    | cons line lines => simp [text]
  rw [new_found words inside (text_noNul proper) split, if_neg full, definitions_text proper]
  rfl

end Whole

/-- The reads stay inside the data exactly if the payload is regular. -/
theorem contained_iff (memory : List UInt8) (payloadLen : BitVec 32) (start : ℕ)
    (inside : payloadLen.toInt ≤ memory.length) :
    Contained memory payloadLen start ↔ Regular memory payloadLen := by
  constructor
  · intro contained
    have words : 12 ≤ memory.length := by
      by_contra short
      obtain ⟨w, aborts⟩ := @new_short memory payloadLen start (not_le.mp short)
      rw [Contained, aborts] at contained
      rcases contained with ⟨_, ⟨⟩, -⟩ | ⟨_, ⟨⟩⟩
    have some_ : (behindWords memory payloadLen).head? ≠ some 0 := by
      intro empty
      obtain ⟨data, split⟩ := List.head?_eq_some_iff.mp empty
      have thrown := @new_found memory [] data payloadLen start words inside List.not_mem_nil split
      rw [Contained, thrown, if_pos rfl] at contained
      rcases contained with ⟨_, ⟨⟩, -⟩ | ⟨_, ⟨⟩⟩
    refine ⟨words, some_, fun lines data split proper ch definition at_ => ?_⟩
    have full : lines ≠ [] := by
      rintro rfl
      cases at_
    have run := @new_lines memory data payloadLen start lines words inside split proper full
    rcases contained with ⟨pdr, run', leaves⟩ | ⟨e, thrown⟩
    · obtain rfl := Outcome.ret.inj (run.symm.trans run')
      have channel := leaves ch (List.getElem?_eq_some_iff.mp at_).1
      rw [getSamples_leaves (length_data inside split) at_] at channel
      exact channel
    · rw [run] at thrown
      cases thrown
  · intro regular
    by_cases nul : 0 ∈ behindWords memory payloadLen
    · obtain ⟨txt, data, split, noNul⟩ := List.eq_append_cons_of_mem nul
      have full : txt ≠ [] := by
        rintro rfl
        exact regular.some_ (by rw [split]; rfl)
      rcases definitions_cases noNul (start + 12) with ⟨lines, proper, rfl⟩ | ⟨e, failed⟩
      · have some_ : lines ≠ [] := by
          rintro rfl
          exact full rfl
        refine .inl ⟨_, new_lines regular.words inside split proper some_, fun ch lt => ?_⟩
        have at_ := List.getElem?_eq_getElem lt
        rw [getSamples_leaves (length_data inside split) at_]
        exact regular.fits lines data split proper ch _ at_
      · refine .inr ⟨.inPayload start e, ?_⟩
        rw [new_found regular.words inside noNul split, if_neg full, failed]
        rfl
    · exact .inr (new_missing regular.words inside nul)

/-- A record of one sample of one byte. -/
theorem contained_iff_one_sample :
    Contained [0, 0, 0, 0, 1, 0, 0, 0, 1, 0, 0, 0, 99, 9, 56, 10, 0, 7, 0, 0, 0, 0] 18#32 10 ↔
      Regular [0, 0, 0, 0, 1, 0, 0, 0, 1, 0, 0, 0, 99, 9, 56, 10, 0, 7, 0, 0, 0, 0] 18#32 :=
  contained_iff _ _ 10 (by decide)

/-- The same without the sample, whose count is still one. -/
theorem sample_read_past_data :
    ¬ Contained [0, 0, 0, 0, 1, 0, 0, 0, 1, 0, 0, 0, 99, 9, 56, 10, 0, 0, 0, 0, 0] 17#32 10 := by
  have run := @new_lines [0, 0, 0, 0, 1, 0, 0, 0, 1, 0, 0, 0, 99, 9, 56, 10, 0, 0, 0, 0, 0] [] 17#32 10
    [([99], [56])] (by decide) (by decide) (by decide) (by simp [Line]) (by simp)
  rintro (⟨pdr, run', leaves⟩ | ⟨e, thrown⟩)
  · obtain rfl := Outcome.ret.inj (run.symm.trans run')
    have channel := leaves 0 (by decide)
    rw [getSamples_leaves (by decide) rfl] at channel
    have past := (channel.inside (.inl (by decide)) 0 (by decide)).2
    exact absurd past (by decide)
  · rw [run] at thrown
    cases thrown

def lastSampleTick (pdr : PeriodicDataRecord) : BitVec 32 :=
  pdr.firstSampleShortTick + pdr.samplePeriod * pdr.numberOfSamples

/-- `TickToTime::receive_binrec`. -/
def receiveBinrec (pdr : PeriodicDataRecord) (ttt : TickToTime) : TickToTime :=
  ttt.receiveShortTicks pdr.lastSampleTick

/-- `set_time`, with the long tick whose time is that of the end of the record. -/
def setTime (pdr : PeriodicDataRecord) (ttt : TickToTime) : PeriodicDataRecord × BitVec 64 :=
  let firstSampleLongTick := ttt.shortTicksToLongTicks pdr.firstSampleShortTick
  -- the product has 32 bits
  ({ pdr with firstSampleLongTick },
    firstSampleLongTick + (pdr.numberOfSamples * pdr.samplePeriod).setWidth 64)

/-- After `receive_binrec` the record ends at the current tick, and starts no later. -/
def SpansAgree (ttt : TickToTime) (pdr : PeriodicDataRecord) : Prop :=
  (pdr.setTime (pdr.receiveBinrec ttt)).2 = (pdr.receiveBinrec ttt).currentTick ∧
    (pdr.setTime (pdr.receiveBinrec ttt)).1.firstSampleLongTick ≤ (pdr.receiveBinrec ttt).currentTick

section Span
variable {ttt : TickToTime} {pdr : PeriodicDataRecord}

/-- The ticks of a record, as far as 32 bits hold them. -/
def spanTicks (pdr : PeriodicDataRecord) : BitVec 32 := pdr.numberOfSamples * pdr.samplePeriod

theorem lastSampleTick_eq (pdr : PeriodicDataRecord) :
    pdr.lastSampleTick = pdr.firstSampleShortTick + pdr.spanTicks := by
  rw [lastSampleTick, spanTicks, BitVec.mul_comm]

theorem start_eq (ttt : TickToTime) (pdr : PeriodicDataRecord) :
    (pdr.setTime (pdr.receiveBinrec ttt)).1.firstSampleLongTick = (pdr.receiveBinrec ttt).currentTick +
      BitVec.ofInt 64 (TickToTime.nearest (-pdr.spanTicks)) := by
  have back : pdr.firstSampleShortTick - (pdr.receiveBinrec ttt).currentTick.setWidth 32 =
      -pdr.spanTicks := by
    rw [receiveBinrec, TickToTime.receiveShortTicks_class, lastSampleTick_eq]
    grind
  rw [← back]
  exact TickToTime.shortTicksToLongTicks_eq _ _

theorem nearest_neg (span : BitVec 32) : TickToTime.nearest (-span) =
    if span.toNat < 2 ^ 31 then -(span.toNat : ℤ) else 2 ^ 32 - (span.toNat : ℤ) := by
  have small := span.isLt
  rw [TickToTime.nearest, BitVec.toNat_neg]
  split <;> split <;> omega

theorem setWidth_eq_ofInt (span : BitVec 32) : span.setWidth 64 = BitVec.ofInt 64 span.toNat := by
  apply BitVec.eq_of_toNat_eq
  have small := span.isLt
  rw [BitVec.toNat_setWidth, BitVec.toNat_ofInt]
  omega

theorem end_eq_iff : (pdr.setTime (pdr.receiveBinrec ttt)).2 = (pdr.receiveBinrec ttt).currentTick ↔
    pdr.spanTicks.toNat < 2 ^ 31 := by
  have sum : (pdr.setTime (pdr.receiveBinrec ttt)).2 = (pdr.receiveBinrec ttt).currentTick +
      BitVec.ofInt 64 (TickToTime.nearest (-pdr.spanTicks) + pdr.spanTicks.toNat) := by
    rw [BitVec.ofInt_add, ← setWidth_eq_ofInt, ← BitVec.add_assoc, ← start_eq]
    rfl
  have cancel : ∀ now shift : BitVec 64, now + shift = now ↔ shift = 0#64 := by
    intro now shift
    constructor <;> intro h <;> grind
  have small := pdr.spanTicks.isLt
  rw [sum, cancel, TickToTime.ofInt_eq_zero_iff, nearest_neg]
  split <;> omega

theorem start_le_iff (short : pdr.spanTicks.toNat < 2 ^ 31) :
    (pdr.setTime (pdr.receiveBinrec ttt)).1.firstSampleLongTick ≤ (pdr.receiveBinrec ttt).currentTick ↔
      pdr.spanTicks.toNat ≤ (pdr.receiveBinrec ttt).currentTick.toNat := by
  rw [start_eq, nearest_neg, if_pos short, BitVec.le_def, BitVec.toNat_add, BitVec.toNat_ofInt]
  have small := (pdr.receiveBinrec ttt).currentTick.isLt
  omega

/-- The tick that the record brings the count to, from a count or from none. -/
theorem current_toNat : (ttt.currentTick = 0#64 → 2 ^ 32 ≤ (pdr.receiveBinrec ttt).currentTick.toNat) ∧
    (ttt.currentTick ≠ 0#64 → ((pdr.receiveBinrec ttt).currentTick.toNat : ℤ) =
      TickToTime.follow ttt.currentTick.toNat pdr.lastSampleTick % 2 ^ 64) := by
  have count := ttt.receiveShortTicks_toNat pdr.lastSampleTick
  constructor
  · intro zero
    rw [if_pos zero] at count
    rw [receiveBinrec]
    omega
  · intro begun
    rw [if_neg begun] at count
    exact count

end Span

/-- The two ways agree exactly if the record spans less than half a wrap and, where the count goes on, the
tick it goes to is not below the span. -/
theorem spans_agree_iff (ttt : TickToTime) (pdr : PeriodicDataRecord) :
    SpansAgree ttt pdr ↔ pdr.spanTicks.toNat < 2 ^ 31 ∧
      (ttt.currentTick ≠ 0#64 →
        (pdr.spanTicks.toNat : ℤ) ≤
          TickToTime.follow ttt.currentTick.toNat (pdr.firstSampleShortTick + pdr.spanTicks) % 2 ^ 64) := by
  rw [SpansAgree, end_eq_iff, ← lastSampleTick_eq]
  refine and_congr_right fun short => ?_
  rw [start_le_iff short]
  obtain ⟨fresh, on⟩ := @current_toNat ttt pdr
  by_cases zero : ttt.currentTick = 0#64
  · have far := fresh zero
    constructor
    · exact fun _ begun => (begun zero).elim
    · intro _
      omega
  · rw [← on zero]
    constructor
    · exact fun le _ => Int.ofNat_le.mpr le
    · exact fun le => Int.ofNat_le.mp (le zero)

/-- A record of half a wrap, behind a first tick. -/
theorem half_wrap_disagrees :
    ¬ SpansAgree (TickToTime.receiveAll [0#32]) ⟨0#32, 1#32, 0x80000000#32, [], [], [], 0#64⟩ :=
  fun agree => absurd agree.1 (by decide +kernel)

end PeriodicDataRecord
end Mio.Datastore
