import Mathlib.Algebra.BigOperators.Group.List.Basic
import Mathlib.Algebra.Order.Ring.Int
import Mio.Tools.MioClient

/-! The content of a file: `process_node_data_packet` of `mio_client.c` writes it, `miofs_read` of
`miofs.c` reads it. -/
namespace Mio.Tools.MioFS

open LibMio

/-- `miofs_read` with a handle: the bytes that it copies. -/
def miofsRead (s : Client) (handle : ℕ) (size offset : UInt64) (now : Timespec) :
    Outcome Fault (Client × List (Option UInt8)) :=
  let s := s.set handle { s.node handle with accessTime := now }
  match (s.node handle).data with
  | none => .ret (s, [])
  | some block =>
      match block.contents 0 with
      | none => .throw .outOfBounds
      | some text =>
          let len := UInt64.ofNat text.length
          if offset < len then
            let size := if offset + size > len then len - offset else size
            if offset.toNat + size.toNat ≤ block.length then
              .ret (s, (block.drop offset.toNat).take size.toNat)
            else .throw .outOfBounds
          else .ret (s, [])

/-- Reads one after another, each with its size and its time, where the one before has ended. -/
def readOn (s : Client) (handle : ℕ) (offset : UInt64) :
    List (UInt64 × Timespec) → Outcome Fault (List (List (Option UInt8)))
  | [] => .ret []
  | (size, now) :: reads => do
      let (s, bytes) ← miofsRead s handle size offset now
      let more ← readOn s handle (offset + UInt64.ofNat bytes.length) reads
      return bytes :: more

/-- Values that all carry a typed value. -/
abbrev Typed := List (TransducerValueType × Text)

def Typed.values (l : Typed) : List Value := l.map fun p => ⟨p.1, some p.2⟩

def Typed.plain (l : Typed) : List UInt8 :=
  (l.filter fun p => p.1 = .value).flatMap fun p => p.2.1 ++ [newline]

/-- The lines of all values, and the end of the string. -/
def Typed.total (l : Typed) : ℕ := 1 + (l.map fun p => p.2.1.length + 1).sum

/-- A text in pieces of the sizes, as long as there is something left. -/
def pieces (text : List UInt8) : List ℕ → List (List UInt8)
  | [] => []
  | size :: sizes => text.take size :: pieces (text.drop size) sizes

/-- The pieces make up the text, as far as the sizes go. -/
theorem flatten_pieces (text : List UInt8) (sizes : List ℕ) :
    (pieces text sizes).flatten = text.take sizes.sum := by
  induction sizes generalizing text with
  | nil => exact List.take_zero.symm
  | cons size sizes ih => rw [pieces, List.flatten_cons, ih, List.sum_cons, List.take_add]

/-- No read that starts inside the text goes beyond the last offset of 64 bits. -/
def Fits (length offset : ℕ) : List ℕ → Prop
  | [] => True
  | size :: sizes =>
      (offset < length → offset + size < 2 ^ 64) ∧ Fits length (min length (offset + size)) sizes

/-- The data are the lines of the plain values, and reads give them back piece by piece. -/
def FileContent (s : Client) (node : Option ℕ) (a : ℕ) (event : Option Text) (l : Typed) (now : Timespec)
    (reads : List (UInt64 × Timespec)) : Prop :=
  ∃ s' block, processNodeDataPacket s node (.data event l.values) now = .ret s' ∧
    (s'.node a).data = some block ∧ block.contents 0 = some l.plain ∧
    readOn s' a 0 reads =
      .ret ((pieces l.plain (reads.map fun r => r.1.toNat)).map (List.map some))

theorem newline_ne : (0 : UInt8) ≠ newline := by decide

theorem Typed.plain_cons (p : TransducerValueType × Text) (l : Typed) :
    Typed.plain (p :: l) = (if p.1 = .value then p.2.1 ++ [newline] else []) ++ Typed.plain l := by
  unfold Typed.plain
  by_cases kind : p.1 = .value
  · rw [List.filter_cons_of_pos (by simpa using kind), if_pos kind, List.flatMap_cons]
  · rw [List.filter_cons_of_neg (by simpa using kind), if_neg kind, List.nil_append]

theorem Typed.nul_notMem_plain (l : Typed) : 0 ∉ l.plain := by
  intro mem
  obtain ⟨p, -, mem⟩ := List.mem_flatMap.mp mem
  rcases List.mem_append.mp mem with text | line
  · exact p.2.2 text
  · exact newline_ne (List.mem_singleton.mp line)

theorem bufferSize_eq (n : ℤ) (l : Typed) :
    bufferSize (n.bmod (2 ^ 32)) l.values =
      .ret ((n + ((l.map fun p => p.2.1.length + 1).sum : ℕ)).bmod (2 ^ 32)) := by
  induction l generalizing n with
  | nil =>
      rw [List.map_nil, List.sum_nil, Nat.cast_zero, add_zero]
      rfl
  | cons p l ih =>
      have cut : (n.bmod (2 ^ 32) + p.2.1.length + 1).bmod (2 ^ 32) =
          (n + p.2.1.length + 1).bmod (2 ^ 32) := by
        rw [add_assoc, Int.bmod_add_bmod, ← add_assoc]
      change bufferSize ((n.bmod (2 ^ 32) + p.2.1.length + 1).bmod (2 ^ 32)) (Typed.values l) = _
      rw [cut, ih, List.map_cons, List.sum_cons]
      congr 2
      omega

theorem bufferSize_one (l : Typed) : bufferSize 1 l.values = .ret ((l.total : ℤ).bmod (2 ^ 32)) := by
  have sum := bufferSize_eq 1 l
  have one : (1 : ℤ).bmod (2 ^ 32) = 1 := by decide
  rw [one] at sum
  rw [sum, Typed.total, Nat.cast_add, Nat.cast_one]

theorem emptyString_ret {size : ℤ} (pos : 0 < size) :
    emptyString size = .ret (some 0 :: (CString.malloc (size.toNat - 1) : CString UInt8)) := by
  obtain ⟨n, rfl⟩ : ∃ n : ℕ, size = n + 1 := ⟨size.toNat - 1, by omega⟩
  rw [emptyString, if_neg (by omega)]
  rfl

theorem emptyString_length {size : ℤ} {block : CString UInt8} (h : emptyString size = .ret block) :
    (block.length : ℤ) = size := by
  unfold emptyString at h
  split at h
  · cases h
  · split at h
    · cases h
    · next written =>
        cases h
        rw [CString.length_write written, CString.malloc, List.length_replicate]
        omega

theorem snprintfLine_length {block block' : CString UInt8} {pos room n : ℤ} {text : Text}
    (h : snprintfLine block pos room text = .ret (block', n)) : block'.length = block.length := by
  unfold snprintfLine at h
  split at h
  · cases h
  · split at h
    · cases h
    · next written =>
        cases h
        exact CString.length_snprintf written

theorem copyData_length {values : List Value} {block block' : CString UInt8} {size pos : ℤ}
    (h : copyData block size pos values = .ret block') : block'.length = block.length := by
  induction values generalizing block pos with
  | nil =>
      cases h
      rfl
  | cons value values ih =>
      rw [copyData] at h
      split at h
      · split at h
        · cases h
        · obtain ⟨⟨b, n⟩, line, rest⟩ := Outcome.bind_eq_ret.mp h
          dsimp only at rest
          split at rest
          · cases rest
          · exact (ih rest).trans (snprintfLine_length line)
      · exact ih h

theorem snprintfLine_ret (written : List UInt8) (back : CString UInt8) (text : Text) {size : ℕ}
    (int : size < 2 ^ 31) (block : written.length + back.length = size)
    (fits : written.length + (text.1.length + 1) < size) :
    snprintfLine (written.map some ++ back) written.length (size - written.length) text =
      .ret ((written ++ (text.1 ++ [newline])).map some ++ some 0 :: back.drop (text.1.length + 2),
        (text.1.length + 1 : ℕ)) := by
  have room : (((size : ℤ) - written.length) % 2 ^ 64).toNat = size - written.length := by
    rw [Int.emod_eq_of_lt (by omega) (by omega)]
    omega
  have line : (text.1 ++ [newline]).length = text.1.length + 1 := by
    rw [List.length_append, List.length_singleton]
  have place : (written.map some).length = written.length := List.length_map ..
  have print : CString.snprintf 0 (written.map some ++ back) (written.map some).length
      (size - written.length) (text.1 ++ [newline]) = some _ :=
    CString.snprintf_at 0 (written.map some) (by omega) (by omega)
  rw [place] at print
  rw [snprintfLine, if_neg (by omega), room, Int.toNat_natCast, print]
  dsimp only
  have joined : (written ++ (text.1 ++ [newline])).map some =
      written.map some ++ (text.1 ++ [newline]).map some := List.map_append
  rw [if_pos (by omega), line, joined, List.append_assoc]
  rfl

/-- Behind what was written the plain values follow, if all of it fits. -/
theorem copyData_ret (l : Typed) (written : List UInt8) (back : CString UInt8) {size : ℕ}
    (int : size < 2 ^ 31) (block : written.length + (back.length + 1) = size)
    (fits : written.length + l.plain.length < size) :
    ∃ rest, copyData (written.map some ++ some 0 :: back) size written.length l.values =
      .ret ((written ++ l.plain).map some ++ some 0 :: rest) := by
  induction l generalizing written back with
  | nil =>
      refine ⟨back, ?_⟩
      rw [Typed.plain, List.filter_nil, List.flatMap_nil, List.append_nil]
      rfl
  | cons p l ih =>
      rw [Typed.plain_cons] at fits ⊢
      change ∃ rest, copyData _ size written.length (⟨p.1, some p.2⟩ :: Typed.values l) = _
      by_cases kind : p.1 = .value
      · rw [if_pos kind, List.length_append, List.length_append, List.length_singleton] at fits
        rw [if_pos kind]
        have line := snprintfLine_ret written (some 0 :: back) p.2 int block (by omega)
        have grown : (written ++ (p.2.1 ++ [newline])).length = written.length + (p.2.1.length + 1) := by
          rw [List.length_append, List.length_append, List.length_singleton]
        obtain ⟨rest, run⟩ := ih (written ++ (p.2.1 ++ [newline]))
          ((some 0 :: back).drop (p.2.1.length + 2))
          (by rw [grown, List.length_drop, List.length_cons]; omega) (by rw [grown]; omega)
        refine ⟨rest, ?_⟩
        rw [copyData, if_pos kind]
        dsimp only
        rw [line, Outcome.ret_bind]
        dsimp only
        have joined : written ++ (p.2.1 ++ [newline] ++ Typed.plain l) =
            written ++ (p.2.1 ++ [newline]) ++ Typed.plain l := (List.append_assoc ..).symm
        rw [if_neg (by omega), ← Nat.cast_add, ← grown, joined]
        exact run
      · rw [if_neg kind, List.nil_append] at fits ⊢
        obtain ⟨rest, run⟩ := ih written back block fits
        refine ⟨rest, ?_⟩
        rw [copyData, if_neg kind]
        exact run

theorem processNodeDataPacket_ret {s s' : Client} {node : Option ℕ} {a : ℕ} {event : Option Text}
    {l : Typed} {now : Timespec} (known : node.or (event.bind s.hashFind) = some a)
    (h : processNodeDataPacket s node (.data event l.values) now = .ret s') :
    ∃ block, (s'.node a).data = some block ∧ (block.length : ℤ) = (l.total : ℤ).bmod (2 ^ 32) := by
  unfold processNodeDataPacket at h
  dsimp only at h
  rw [known] at h
  dsimp only at h
  rw [bufferSize_one, Outcome.ret_bind] at h
  obtain ⟨empty, start, h⟩ := Outcome.bind_eq_ret.mp h
  obtain ⟨block, copied, h⟩ := Outcome.bind_eq_ret.mp h
  cases h
  refine ⟨block, ?_, ?_⟩
  · rw [Client.set_node_self]
  · rw [copyData_length copied, emptyString_length start]

theorem processNodeDataPacket_whole (s : Client) {node : Option ℕ} {a : ℕ} {event : Option Text}
    {l : Typed} (now : Timespec) (known : node.or (event.bind s.hashFind) = some a)
    (fits : (l.plain.length : ℤ) < (l.total : ℤ).bmod (2 ^ 32)) :
    ∃ s' block, processNodeDataPacket s node (.data event l.values) now = .ret s' ∧
      (s'.node a).data = some block ∧ block.contents 0 = some l.plain := by
  have int : (l.total : ℤ).bmod (2 ^ 32) < 2 ^ 31 := Int.bmod_lt (by decide)
  obtain ⟨size, eq⟩ := Int.eq_ofNat_of_zero_le (by omega : 0 ≤ (l.total : ℤ).bmod (2 ^ 32))
  rw [eq] at fits int
  have inside : l.plain.length < size := by exact_mod_cast fits
  have start := emptyString_ret (by omega : (0 : ℤ) < size)
  obtain ⟨rest, copied⟩ := copyData_ret l [] (CString.malloc (size - 1))
    (by exact_mod_cast int : size < 2 ^ 31)
    (by rw [CString.malloc, List.length_replicate, List.length_nil]; omega)
    (by rw [List.length_nil]; omega)
  let block : CString UInt8 := l.plain.map some ++ some 0 :: rest
  refine ⟨s.set a { s.node a with data := some block, modificationTime := now }, block, ?_, ?_,
    CString.contents_append l.nul_notMem_plain rest⟩
  · unfold processNodeDataPacket
    dsimp only
    rw [known]
    dsimp only
    rw [bufferSize_one, Outcome.ret_bind, eq, start, Outcome.ret_bind]
    exact congrArg (· >>= _) copied
  · rw [Client.set_node_self]

/-- A read leaves its time, and the data as they are. -/
theorem data_accessed (s : Client) (a : ℕ) (now : Timespec) :
    ((s.set a { s.node a with accessTime := now }).node a).data = (s.node a).data := by
  rw [Client.set_node_self]

theorem drop_min_length (text : List UInt8) (n : ℕ) : text.drop (min text.length n) = text.drop n := by
  rcases le_total text.length n with le | le
  · rw [min_eq_left le, List.drop_eq_nil_of_le le, List.drop_eq_nil_of_le (le_refl _)]
  · rw [min_eq_right le]

section Reads

variable {s : Client} {a : ℕ} {block : CString UInt8} {text : List UInt8}
  (data : (s.node a).data = some block) (contents : block.contents 0 = some text)
  (small : block.length < 2 ^ 31)
include data contents small

/-- One read: a sum of offset and size that wraps around makes it run out of the block. -/
theorem miofsRead_eq (size offset : UInt64) (now : Timespec) (inside : offset.toNat ≤ text.length) :
    miofsRead s a size offset now =
      if offset.toNat < text.length ∧ 2 ^ 64 ≤ offset.toNat + size.toNat then .throw .outOfBounds
      else .ret (s.set a { s.node a with accessTime := now },
        ((text.drop offset.toNat).take size.toNat).map some) := by
  obtain ⟨-, rest, stands⟩ := CString.eq_of_contents contents
  have length : block.length = text.length + (rest.length + 1) := by
    rw [stands, List.length_append, List.length_map, List.length_cons]
  have len : (UInt64.ofNat text.length).toNat = text.length :=
    UInt64.toNat_ofNat_of_lt' (by rw [UInt64.size]; omega)
  have kept := (data_accessed s a now).trans data
  have copied : ∀ n, offset.toNat + n ≤ text.length →
      (block.drop offset.toNat).take n = ((text.drop offset.toNat).take n).map some := by
    intro n le
    rw [stands, List.drop_append_of_le_length (by rw [List.length_map]; omega),
      List.take_append_of_le_length (by rw [List.length_drop, List.length_map]; omega),
      ← List.map_drop, ← List.map_take]
  have sum : (offset + size).toNat = (offset.toNat + size.toNat) % 2 ^ 64 := UInt64.toNat_add ..
  have start : offset < UInt64.ofNat text.length ↔ offset.toNat < text.length := by
    rw [UInt64.lt_iff_toNat_lt, len]
  have past : offset + size > UInt64.ofNat text.length ↔
      text.length < (offset.toNat + size.toNat) % 2 ^ 64 := by
    rw [gt_iff_lt, UInt64.lt_iff_toNat_lt, len, sum]
  have sizeBound := size.toNat_lt
  unfold miofsRead
  dsimp only
  rw [kept]
  dsimp only
  rw [contents]
  dsimp only
  by_cases before : offset.toNat < text.length
  · rw [if_pos (start.mpr before)]
    by_cases wraps : 2 ^ 64 ≤ offset.toNat + size.toNat
    · have low : ¬ offset + size > UInt64.ofNat text.length := by
        rw [past]
        omega
      rw [if_neg low, if_neg (by omega), if_pos ⟨before, wraps⟩]
    · rw [if_neg (show ¬ (_ ∧ _) from fun both => wraps both.2)]
      by_cases end_ : offset + size > UInt64.ofNat text.length
      · have cut : (UInt64.ofNat text.length - offset).toNat = text.length - offset.toNat := by
          rw [UInt64.toNat_sub_of_le _ _ (by rw [UInt64.le_iff_toNat_le, len]; omega), len]
        have far := past.mp end_
        rw [if_pos end_, cut, if_pos (by omega), copied _ (by omega)]
        congr 3
        rw [List.take_of_length_le (by rw [List.length_drop]),
          List.take_of_length_le (by rw [List.length_drop]; omega)]
      · have near := mt past.mpr end_
        rw [if_neg end_, if_pos (by omega), copied _ (by omega)]
  · rw [if_neg (mt start.mp before), if_neg (show ¬ (_ ∧ _) from fun both => before both.1),
      List.drop_eq_nil_of_le (by omega), List.take_nil]
    rfl

end Reads

/-- The reads give the pieces exactly if none of them wraps around. -/
theorem readOn_iff {a : ℕ} {block : CString UInt8} {text : List UInt8}
    (contents : block.contents 0 = some text) (small : block.length < 2 ^ 31)
    (reads : List (UInt64 × Timespec)) {s : Client} (data : (s.node a).data = some block)
    {offset : UInt64} (inside : offset.toNat ≤ text.length) :
    readOn s a offset reads =
        .ret ((pieces (text.drop offset.toNat) (reads.map fun r => r.1.toNat)).map (List.map some)) ↔
      Fits text.length offset.toNat (reads.map fun r => r.1.toNat) := by
  induction reads generalizing s offset with
  | nil => exact ⟨fun _ => trivial, fun _ => rfl⟩
  | cons r reads ih =>
      obtain ⟨size, now⟩ := r
      have one := miofsRead_eq data contents small size offset now inside
      have length := CString.length_contents contents
      rw [List.map_cons, pieces, Fits, readOn, List.map_cons]
      dsimp only
      by_cases wraps : offset.toNat < text.length ∧ 2 ^ 64 ≤ offset.toNat + size.toNat
      · rw [one, if_pos wraps]
        constructor
        · rintro ⟨⟩
        · rintro ⟨below, -⟩
          exact absurd (below wraps.1) (by omega)
      · have below : offset.toNat < text.length → offset.toNat + size.toNat < 2 ^ 64 := by omega
        rw [one, if_neg wraps, Outcome.ret_bind]
        dsimp only
        rw [List.length_map, List.length_take, List.length_drop]
        have bytes : (UInt64.ofNat (min size.toNat (text.length - offset.toNat))).toNat =
            min size.toNat (text.length - offset.toNat) :=
          UInt64.toNat_ofNat_of_lt' (by rw [UInt64.size]; omega)
        have next : (offset + UInt64.ofNat (min size.toNat (text.length - offset.toNat))).toNat =
            min text.length (offset.toNat + size.toNat) := by
          rw [UInt64.toNat_add, bytes, Nat.mod_eq_of_lt (by omega)]
          omega
        have kept := (data_accessed s a now).trans data
        have rest := @ih _ kept (offset + UInt64.ofNat (min size.toNat (text.length - offset.toNat)))
          (by rw [next]; omega)
        have dropped : text.drop (min text.length (offset.toNat + size.toNat)) =
            (text.drop offset.toNat).drop size.toNat := by
          rw [drop_min_length, List.drop_drop]
        rw [next, dropped] at rest
        rw [← rest]
        constructor
        · intro run
          obtain ⟨more, continued, run⟩ := Outcome.bind_eq_ret.mp run
          injection run with run
          rw [continued, (List.cons.inj run).2]
          exact ⟨below, rfl⟩
        · rintro ⟨-, run⟩
          rw [run]
          rfl

/-- The content of a file is right exactly if the plain text fits the size as an `int`, and no read
wraps around. -/
theorem file_content_iff (s : Client) {node : Option ℕ} {a : ℕ} {event : Option Text}
    (known : node.or (event.bind s.hashFind) = some a) (l : Typed) (now : Timespec)
    (reads : List (UInt64 × Timespec)) :
    FileContent s node a event l now reads ↔
      (l.plain.length : ℤ) < (l.total : ℤ).bmod (2 ^ 32) ∧
        Fits l.plain.length 0 (reads.map fun r => r.1.toNat) := by
  have int : (l.total : ℤ).bmod (2 ^ 32) < 2 ^ 31 := Int.bmod_lt (by decide)
  constructor
  · rintro ⟨s', block, run, data, contents, read⟩
    obtain ⟨block', data', length⟩ := processNodeDataPacket_ret known run
    rw [data, Option.some_inj] at data'
    subst data'
    have inside := CString.length_contents contents
    refine ⟨by omega, (readOn_iff contents (by omega) reads data (Nat.zero_le _)).mp read⟩
  · rintro ⟨fits, below⟩
    obtain ⟨s', block, run, data, contents⟩ := processNodeDataPacket_whole s now known fits
    obtain ⟨block', data', length⟩ := processNodeDataPacket_ret known run
    rw [data, Option.some_inj] at data'
    subst data'
    exact ⟨s', block, run, data, contents,
      (readOn_iff contents (by omega) reads data (Nat.zero_le _)).mpr below⟩

/-- A plain value and a set value, read in two pieces. -/
theorem file_content_two_reads :
    FileContent (mioClientInit 300 ⟨0, 0⟩ none) (some nSubs) nSubs none
      [(.value, text "21.5" (by decide)), (.setValue, text "off" (by decide))] ⟨1, 0⟩
      [(3, ⟨2, 0⟩), (4096, ⟨3, 0⟩)] :=
  (file_content_iff (mioClientInit 300 ⟨0, 0⟩ none) rfl _ ⟨1, 0⟩ _).mpr
    ⟨by decide, fun _ => by decide, fun _ => by decide, trivial⟩

def letters (n : ℕ) : Text := ⟨List.replicate n 97, fun mem => absurd (List.eq_of_mem_replicate mem) (by decide)⟩

theorem letters_length (n : ℕ) : (letters n).1.length = n := List.length_replicate

theorem total_letters (n : ℕ) : Typed.total [(.value, letters n)] = n + 2 := by
  rw [Typed.total, List.map_singleton, List.sum_singleton, letters_length]
  omega

/-- The size of a value of 2^31 bytes is negative. -/
theorem long_value_lost :
    ¬ ∀ (s : Client) (a : ℕ) (event : Option Text) (l : Typed) (now : Timespec)
      (reads : List (UInt64 × Timespec)), FileContent s (some a) a event l now reads := by
  intro all
  obtain ⟨s', block, run, data, -, -⟩ :=
    all (mioClientInit 300 ⟨0, 0⟩ none) nSubs none [(.value, letters (2 ^ 31))] ⟨1, 0⟩ []
  obtain ⟨block', -, length⟩ := processNodeDataPacket_ret rfl run
  rw [total_letters] at length
  have negative : ((2 ^ 31 + 2 : ℕ) : ℤ).bmod (2 ^ 32) = 2 - 2 ^ 31 := by decide
  omega

end Mio.Tools.MioFS
