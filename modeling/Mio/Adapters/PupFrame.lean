import Mio.Adapters.Block

/-! The frames of `libpup.c`: `generate_frame_stream` writes one out, `append_read_byte` reads one in
byte by byte. -/
namespace Mio.Adapters

@[match_pattern] abbrev startMessage : ℕ := 0
@[match_pattern] abbrev addressLower : ℕ := 1
@[match_pattern] abbrev addressHigher : ℕ := 2
@[match_pattern] abbrev lengthAt : ℕ := 3
@[match_pattern] abbrev commandAt : ℕ := 4
abbrev dataStart : ℕ := 5
abbrev extendedLengthLower : ℕ := 5
abbrev extendedLengthUpper : ℕ := 6
abbrev extendedDataStart : ℕ := 7

abbrev headerLength : ℕ := 5
abbrev extendedHeaderLength : ℕ := 7

/-- `pup_frame_t` without the list handle. `addr` and `command` are the bits of their `int16_t`;
`length` is never negative. -/
@[ext] structure PupFrame where
  addr : UInt16
  length : ℕ
  extended : Bool
  command : UInt16
  data : Option Block

/-- `new_pup_frame` with a `NULL` value. -/
def newPupFrame (addr command length : UInt16) : PupFrame where
  addr := addr
  length := length.toNat
  extended := 0xFF00 &&& length ≠ 0
  command := command
  data := none

def checkLoop (frame : Block) (length : ℕ) : Outcome Undefined UInt8 :=
  (List.range length).foldlM (fun check counter => do
    let byte ← frame.load counter
    return (check ^^^ byte) + 1) 0

def generateCheckbyte (frame : Block) : Outcome Undefined UInt8 := do
  let length ← frame.load lengthAt
  if length = 0 then do
    let upper ← frame.load extendedLengthUpper
    let lower ← frame.load extendedLengthLower
    checkLoop frame (upper.toNat <<< 8 + lower.toNat)
  else if length.toNat < headerLength then return 0
  else checkLoop frame length.toNat

/-- The part of the header that both layouts share. -/
def writeHeader (frame : PupFrame) (stream : Block) : Outcome Undefined Block := do
  let stream ← stream.store startMessage 0x02
  let stream ← stream.store addressLower frame.addr.toUInt8
  let stream ← stream.store addressHigher (frame.addr >>> 8).toUInt8
  stream.store commandAt frame.command.toUInt8

def writeLengthAndData (frame : PupFrame) (stream : Block) : Outcome Undefined Block :=
  if frame.extended then do
    let stream ← stream.store lengthAt 0
    let stream ← stream.store extendedLengthLower (UInt8.ofNat frame.length)
    let stream ← stream.store extendedLengthUpper (UInt8.ofNat (frame.length >>> 8))
    stream.memcpy extendedDataStart frame.data ((frame.length : ℤ) - extendedHeaderLength)
  else do
    let stream ← stream.store lengthAt (UInt8.ofNat frame.length)
    stream.memcpy dataStart frame.data ((frame.length : ℤ) - headerLength)

/-- Returns the frame as well, whose flag it may set. -/
def generateFrameStream (frame : PupFrame) : Outcome Undefined (PupFrame × Block) := do
  let stream : Block := List.replicate (frame.length + 1) none
  let frame := if frame.length > 255 then { frame with extended := true } else frame
  let stream ← writeHeader frame stream
  let stream ← writeLengthAndData frame stream
  let check ← generateCheckbyte stream
  let stream ← stream.store frame.length check
  return (frame, stream)

/-- 1 for a complete packet, -1 for an invalid one, 0 for one that is valid so far. -/
def appendReadByte (frame : PupFrame) (nbyte : UInt8) (count : ℕ) :
    Outcome Undefined (ℤ × PupFrame) :=
  match count with
  | startMessage => .ret (0, frame)
  | addressLower => .ret (0, { frame with addr := nbyte.toUInt16 })
  | addressHigher => .ret (0, { frame with addr := frame.addr + nbyte.toUInt16 <<< 8 })
  | lengthAt =>
      let frame := { frame with length := nbyte.toNat }
      let frame := if frame.length = 0 then { frame with extended := true } else frame
      if frame.length < headerLength then .ret (-1, frame)
      else .ret (0, { frame with
        extended := false
        data := Block.malloc ((frame.length : ℤ) - headerLength) })
  | commandAt => .ret (0, { frame with command := nbyte.toUInt16 })
  | count =>
      if frame.extended ∧ count ≤ extendedLengthUpper then
        if count = extendedLengthUpper then
          .ret (0, { frame with
            length := nbyte.toNat
            data := Block.malloc ((nbyte.toNat : ℤ) - extendedHeaderLength) })
        else .ret (0, { frame with length := nbyte.toNat >>> 8 })
      else if count = frame.length then do
        let (frame, stream) ← generateFrameStream frame
        let checkbyte ← stream.load frame.length
        if checkbyte = nbyte then return (1, frame) else return (-1, frame)
      else do
        let index := if frame.extended then count - extendedHeaderLength else count - headerLength
        match frame.data with
        | none => .throw .outOfBounds
        | some data => do
            let data ← data.store index nbyte
            return (0, { frame with data := some data })

def checkbyte (bytes : List UInt8) : UInt8 := bytes.foldl (fun check byte => (check ^^^ byte) + 1) 0

theorem checkbyte_append (bytes : List UInt8) (byte : UInt8) :
    checkbyte (bytes ++ [byte]) = (checkbyte bytes ^^^ byte) + 1 := List.foldl_append

theorem checkLoop_done (bytes : List UInt8) (rest : Block) :
    checkLoop (bytes.map some ++ rest) bytes.length = .ret (checkbyte bytes) := by
  induction bytes using List.reverseRecOn generalizing rest with
  | nil => rfl
  | append_singleton bytes byte ih =>
      have here : Block.load ((bytes ++ [byte]).map some ++ rest) bytes.length = .ret byte := by
        refine Block.load_of ?_
        simp
      have before := ih (some byte :: rest)
      rw [checkLoop] at before ⊢
      rw [List.length_append, List.length_singleton, List.range_succ, List.foldlM_append]
      rw [List.map_append, List.append_assoc] at here ⊢
      rw [List.map_singleton, List.singleton_append] at here ⊢
      rw [before, Outcome.ret_bind, List.foldlM_cons, here, checkbyte_append]
      rfl

/-- The length byte of a short message leads over all bytes before the checkbyte. -/
theorem generateCheckbyte_short {bytes : List UInt8} {rest : Block} {length : UInt8}
    (at_ : bytes[3]? = some length) (size : length.toNat = bytes.length) (long : 5 ≤ bytes.length) :
    generateCheckbyte (bytes.map some ++ rest) = .ret (checkbyte bytes) := by
  have here : Block.load (bytes.map some ++ rest) lengthAt = .ret length := by
    refine Block.load_of ?_
    rw [List.getElem?_append_left (by rw [List.length_map]; exact lt_of_lt_of_le (by decide) long),
      List.getElem?_map, at_]
    rfl
  have some_length : length ≠ 0 := by
    rintro rfl
    have : (0 : UInt8).toNat = 0 := rfl
    omega
  have proper : ¬ length.toNat < headerLength := by
    rw [size]
    exact not_lt.mpr long
  rw [generateCheckbyte, here, Outcome.ret_bind, if_neg some_length, if_neg proper, size]
  exact checkLoop_done bytes rest

theorem generateCheckbyte_extended {bytes : List UInt8} {rest : Block} {lower upper : UInt8}
    (at_ : bytes[3]? = some 0) (low : bytes[5]? = some lower) (high : bytes[6]? = some upper)
    (size : upper.toNat <<< 8 + lower.toNat = bytes.length) :
    generateCheckbyte (bytes.map some ++ rest) = .ret (checkbyte bytes) := by
  have load : ∀ {i : ℕ} {byte : UInt8}, bytes[i]? = some byte →
      Block.load (bytes.map some ++ rest) i = .ret byte := by
    intro i byte h
    obtain ⟨short, -⟩ := List.getElem?_eq_some_iff.mp h
    refine Block.load_of ?_
    rw [List.getElem?_append_left (by rwa [List.length_map]), List.getElem?_map, h]
    rfl
  rw [generateCheckbyte, load at_, Outcome.ret_bind, if_pos rfl, load high, Outcome.ret_bind, load low,
    Outcome.ret_bind, size]
  exact checkLoop_done bytes rest

def ordinaryBody (addr command : UInt16) (data : List UInt8) : List UInt8 :=
  [0x02, addr.toUInt8, (addr >>> 8).toUInt8, UInt8.ofNat (data.length + headerLength),
    command.toUInt8] ++ data

def extendedBody (addr command : UInt16) (data : List UInt8) : List UInt8 :=
  [0x02, addr.toUInt8, (addr >>> 8).toUInt8, 0, command.toUInt8,
    UInt8.ofNat (data.length + extendedHeaderLength),
    UInt8.ofNat ((data.length + extendedHeaderLength) >>> 8)] ++ data

theorem length_ordinaryBody (addr command : UInt16) (data : List UInt8) :
    (ordinaryBody addr command data).length = data.length + headerLength := by
  rw [ordinaryBody, List.length_append, Nat.add_comm]
  rfl

theorem length_extendedBody (addr command : UInt16) (data : List UInt8) :
    (extendedBody addr command data).length = data.length + extendedHeaderLength := by
  rw [extendedBody, List.length_append, Nat.add_comm]
  rfl

theorem writeHeader_done (frame : PupFrame) (rest : Block) :
    writeHeader frame (none :: none :: none :: none :: none :: rest) =
      .ret (some 0x02 :: some frame.addr.toUInt8 :: some (frame.addr >>> 8).toUInt8 :: none ::
        some frame.command.toUInt8 :: rest) := by
  have first := Block.store_at [] (none :: none :: none :: none :: rest) none 0x02
  have second := Block.store_at [some 0x02] (none :: none :: none :: rest) none frame.addr.toUInt8
  have third := Block.store_at [some 0x02, some frame.addr.toUInt8] (none :: none :: rest) none
    (frame.addr >>> 8).toUInt8
  have fifth := Block.store_at [some 0x02, some frame.addr.toUInt8, some (frame.addr >>> 8).toUInt8, none]
    rest none frame.command.toUInt8
  refine (Outcome.bind_of_ret first).trans ?_
  refine (Outcome.bind_of_ret second).trans ?_
  exact (Outcome.bind_of_ret third).trans fifth

/-- What is left of the block has room for the data and the checkbyte. -/
theorem writeLengthAndData_ordinary (addr command : UInt16) (data : List UInt8) :
    writeLengthAndData ⟨addr, data.length + headerLength, false, command, some (data.map some)⟩
      (some 0x02 :: some addr.toUInt8 :: some (addr >>> 8).toUInt8 :: none :: some command.toUInt8 ::
        (List.replicate data.length none ++ [none])) =
      .ret ((ordinaryBody addr command data).map some ++ [none]) := by
  have fourth := Block.store_at [some 0x02, some addr.toUInt8, some (addr >>> 8).toUInt8]
    (some command.toUInt8 :: (List.replicate data.length none ++ [none])) none
    (UInt8.ofNat (data.length + headerLength))
  have same : (List.replicate data.length none : Block).length = (data.map some).length := by simp
  have copied := Block.memcpy_at [some 0x02, some addr.toUInt8, some (addr >>> 8).toUInt8,
    some (UInt8.ofNat (data.length + headerLength)), some command.toUInt8] [none] same
  have count : ((data.length + headerLength : ℕ) : ℤ) - headerLength = (data.map some).length := by
    rw [Nat.cast_add, add_sub_cancel_right, List.length_map]
  rw [writeLengthAndData, if_neg Bool.false_ne_true]
  dsimp only
  rw [count]
  refine ((Outcome.bind_of_ret fourth).trans copied).trans ?_
  rw [ordinaryBody, List.map_append, List.append_assoc]
  rfl

theorem writeLengthAndData_extended (addr command : UInt16) (data : List UInt8) :
    writeLengthAndData ⟨addr, data.length + extendedHeaderLength, true, command, some (data.map some)⟩
      (some 0x02 :: some addr.toUInt8 :: some (addr >>> 8).toUInt8 :: none :: some command.toUInt8 ::
        none :: none :: (List.replicate data.length none ++ [none])) =
      .ret ((extendedBody addr command data).map some ++ [none]) := by
  have fourth := Block.store_at [some 0x02, some addr.toUInt8, some (addr >>> 8).toUInt8]
    (some command.toUInt8 :: none :: none :: (List.replicate data.length none ++ [none])) none 0
  have sixth := Block.store_at [some 0x02, some addr.toUInt8, some (addr >>> 8).toUInt8, some 0,
    some command.toUInt8] (none :: (List.replicate data.length none ++ [none])) none
    (UInt8.ofNat (data.length + extendedHeaderLength))
  have seventh := Block.store_at [some 0x02, some addr.toUInt8, some (addr >>> 8).toUInt8, some 0,
    some command.toUInt8, some (UInt8.ofNat (data.length + extendedHeaderLength))]
    (List.replicate data.length none ++ [none]) none
    (UInt8.ofNat ((data.length + extendedHeaderLength) >>> 8))
  have same : (List.replicate data.length none : Block).length = (data.map some).length := by simp
  have copied := Block.memcpy_at [some 0x02, some addr.toUInt8, some (addr >>> 8).toUInt8, some 0,
    some command.toUInt8, some (UInt8.ofNat (data.length + extendedHeaderLength)),
    some (UInt8.ofNat ((data.length + extendedHeaderLength) >>> 8))] [none] same
  have count : ((data.length + extendedHeaderLength : ℕ) : ℤ) - extendedHeaderLength =
      (data.map some).length := by
    rw [Nat.cast_add, add_sub_cancel_right, List.length_map]
  rw [writeLengthAndData, if_pos rfl]
  dsimp only
  rw [count]
  refine (Outcome.bind_of_ret fourth).trans ?_
  refine (Outcome.bind_of_ret sixth).trans ?_
  refine ((Outcome.bind_of_ret seventh).trans copied).trans ?_
  rw [extendedBody, List.map_append, List.append_assoc]
  rfl

/-- Once header and data are written, the checkbyte closes the message. -/
theorem generateFrameStream_done {frame : PupFrame} {body : List UInt8} {rest : Block}
    (flag : frame.length > 255 → frame.extended = true) (size : body.length = frame.length)
    (room : (List.replicate (frame.length + 1) none : Block) =
      none :: none :: none :: none :: none :: rest)
    (written : writeLengthAndData frame (some 0x02 :: some frame.addr.toUInt8 ::
      some (frame.addr >>> 8).toUInt8 :: none :: some frame.command.toUInt8 :: rest) =
      .ret (body.map some ++ [none]))
    (check : generateCheckbyte (body.map some ++ [none]) = .ret (checkbyte body)) :
    generateFrameStream frame = .ret (frame, (body ++ [checkbyte body]).map some) := by
  have same : (if frame.length > 255 then { frame with extended := true } else frame) = frame := by
    split
    · next long =>
        rw [← flag long]
    · rfl
  have last := Block.store_at (body.map some) [] none (checkbyte body)
  rw [List.length_map, size] at last
  rw [generateFrameStream, same, room, writeHeader_done, Outcome.ret_bind, written, Outcome.ret_bind,
    check, Outcome.ret_bind, last, List.map_append]
  rfl

theorem toNat_ofNat_length {length : ℕ} (short : length ≤ 255) : (UInt8.ofNat length).toNat = length :=
  UInt8.toNat_ofNat'.trans (Nat.mod_eq_of_lt (Nat.lt_succ_of_le short))

theorem generateFrameStream_ordinary (addr command : UInt16) {data : List UInt8}
    (short : data.length + headerLength ≤ 255) :
    generateFrameStream ⟨addr, data.length + headerLength, false, command, some (data.map some)⟩ =
      .ret (⟨addr, data.length + headerLength, false, command, some (data.map some)⟩,
        (ordinaryBody addr command data ++ [checkbyte (ordinaryBody addr command data)]).map some) := by
  refine generateFrameStream_done (fun long => absurd short (not_le.mpr long))
    (length_ordinaryBody addr command data) ?_ (writeLengthAndData_ordinary addr command data) ?_
  · rw [← List.replicate_succ']
    rfl
  · refine generateCheckbyte_short rfl ?_ ?_
    · rw [toNat_ofNat_length short, length_ordinaryBody]
    · rw [length_ordinaryBody]
      exact Nat.le_add_left 5 _

theorem generateFrameStream_extended (addr command : UInt16) {data : List UInt8}
    (short : data.length + extendedHeaderLength < 2 ^ 16) :
    generateFrameStream ⟨addr, data.length + extendedHeaderLength, true, command, some (data.map some)⟩ =
      .ret (⟨addr, data.length + extendedHeaderLength, true, command, some (data.map some)⟩,
        (extendedBody addr command data ++ [checkbyte (extendedBody addr command data)]).map some) := by
  refine generateFrameStream_done (fun _ => rfl)
    (length_extendedBody addr command data) ?_ (writeLengthAndData_extended addr command data) ?_
  · rw [← List.replicate_succ']
    rfl
  · refine generateCheckbyte_extended rfl rfl rfl ?_
    rw [length_extendedBody, UInt8.toNat_ofNat', UInt8.toNat_ofNat', Nat.shiftLeft_eq,
      Nat.shiftRight_eq_div_pow]
    generalize data.length + extendedHeaderLength = length at short
    omega

def announced (bytes : List UInt8) : ℕ := (bytes.getD lengthAt 0).toNat

/-- A fresh frame after these bytes. -/
def frameOf (bytes : List UInt8) : PupFrame where
  addr := (bytes.getD addressLower 0).toUInt16 + (bytes.getD addressHigher 0).toUInt16 <<< 8
  length := announced bytes
  extended := false
  command := (bytes.getD commandAt 0).toUInt16
  data :=
    if bytes.length ≤ lengthAt then none
    else some ((bytes.drop dataStart).map some ++
      List.replicate (announced bytes - headerLength - (bytes.drop dataStart).length) none)

/-- Bytes that begin an ordinary frame and do not end it. -/
structure Begins (bytes : List UInt8) : Prop where
  start : bytes.headD 0x02 = 0x02
  open_ : lengthAt < bytes.length → headerLength ≤ announced bytes ∧ bytes.length ≤ announced bytes

/-- What `append_read_byte` makes of the next byte. -/
def verdict (bytes : List UInt8) (nbyte : UInt8) : ℤ :=
  if bytes.length = lengthAt ∧ nbyte.toNat < headerLength then -1
  else if lengthAt < bytes.length ∧ bytes.length = announced bytes then
    if checkbyte bytes = nbyte then 1 else -1
  else 0

theorem begins_nil : Begins [] := ⟨rfl, fun h => absurd h (by decide)⟩

section Verdict
variable {bytes : List UInt8} {nbyte : UInt8}

theorem verdict_early (short : bytes.length < lengthAt) : verdict bytes nbyte = 0 := by
  rw [verdict, if_neg fun h => absurd h.1 (Nat.ne_of_lt short),
    if_neg fun h => absurd h.1 (Nat.lt_asymm short)]

theorem verdict_length (here : bytes.length = lengthAt) :
    verdict bytes nbyte = if nbyte.toNat < headerLength then -1 else 0 := by
  by_cases low : nbyte.toNat < headerLength
  · rw [verdict, if_pos ⟨here, low⟩, if_pos low]
  · rw [verdict, if_neg fun h => low h.2, if_neg fun h => absurd h.1 (by rw [here]; exact lt_irrefl _),
      if_neg low]

theorem verdict_open (late : lengthAt < bytes.length) (more : bytes.length ≠ announced bytes) :
    verdict bytes nbyte = 0 := by
  rw [verdict, if_neg fun h => absurd h.1 (Nat.ne_of_gt late), if_neg fun h => more h.2]

theorem verdict_last (late : lengthAt < bytes.length) (last : bytes.length = announced bytes) :
    verdict bytes nbyte = if checkbyte bytes = nbyte then 1 else -1 := by
  rw [verdict, if_neg fun h => absurd h.1 (Nat.ne_of_gt late), if_pos ⟨late, last⟩]

end Verdict

/-- The two address bytes come out of the address again. -/
theorem address_lower (low high : UInt8) : (low.toUInt16 + high.toUInt16 <<< 8).toUInt8 = low := by
  refine UInt8.toNat_inj.mp ?_
  have := low.toNat_lt
  have := high.toNat_lt
  simp only [UInt16.toNat_toUInt8, UInt16.toNat_add, UInt8.toNat_toUInt16, UInt16.toNat_shiftLeft,
    Nat.shiftLeft_eq, UInt16.reduceToNat, Nat.reduceMod, Nat.reducePow]
  omega

theorem address_higher (low high : UInt8) :
    ((low.toUInt16 + high.toUInt16 <<< 8) >>> 8).toUInt8 = high := by
  refine UInt8.toNat_inj.mp ?_
  have := low.toNat_lt
  have := high.toNat_lt
  simp only [UInt16.toNat_toUInt8, UInt16.toNat_add, UInt8.toNat_toUInt16, UInt16.toNat_shiftLeft,
    UInt16.toNat_shiftRight, Nat.shiftLeft_eq, Nat.shiftRight_eq_div_pow, UInt16.reduceToNat,
    Nat.reduceMod, Nat.reducePow]
  omega

theorem frameOf_long (start low high length command : UInt8) (data : List UInt8) :
    frameOf (start :: low :: high :: length :: command :: data) =
      ⟨low.toUInt16 + high.toUInt16 <<< 8, length.toNat, false, command.toUInt16,
        some (data.map some ++ List.replicate (length.toNat - headerLength - data.length) none)⟩ := by
  have late : ¬ (start :: low :: high :: length :: command :: data).length ≤ lengthAt := by
    simp [lengthAt]
  rw [frameOf, if_neg late]
  rfl

/-- All bytes but the checkbyte are there: writing the frame out gives them back. -/
theorem generateFrameStream_frameOf {low high length command : UInt8} {data : List UInt8}
    (last : length.toNat = data.length + headerLength) :
    generateFrameStream (frameOf (0x02 :: low :: high :: length :: command :: data)) =
      .ret (frameOf (0x02 :: low :: high :: length :: command :: data),
        (0x02 :: low :: high :: length :: command :: data ++
          [checkbyte (0x02 :: low :: high :: length :: command :: data)]).map some) := by
  have short : data.length + headerLength ≤ 255 := by
    rw [← last]
    exact Nat.le_of_lt_succ length.toNat_lt
  have full : length.toNat - headerLength - data.length = 0 := by
    rw [last, Nat.add_sub_cancel, Nat.sub_self]
  have body : ordinaryBody (low.toUInt16 + high.toUInt16 <<< 8) command.toUInt16 data =
      0x02 :: low :: high :: length :: command :: data := by
    rw [ordinaryBody, address_lower, address_higher, ← last, UInt8.ofNat_toNat, UInt8.toUInt8_toUInt16]
    rfl
  rw [frameOf_long, full, List.replicate_zero, List.append_nil, last,
    generateFrameStream_ordinary _ _ short, body]

/-- A length byte below the header's length, the zero of an extended frame among them, is refused. -/
theorem appendReadByte_bad_length (frame : PupFrame) {nbyte : UInt8} (bad : nbyte.toNat < headerLength) :
    ∃ frame', appendReadByte frame nbyte lengthAt = .ret (-1, frame') := by
  rw [appendReadByte]
  by_cases zero : nbyte.toNat = 0
  · simp only [zero, if_true]
    exact ⟨_, rfl⟩
  · simp only [zero, if_false, bad, if_true]
    exact ⟨_, rfl⟩

theorem appendReadByte_good_length (frame : PupFrame) {nbyte : UInt8}
    (good : ¬ nbyte.toNat < headerLength) :
    appendReadByte frame nbyte lengthAt = .ret (0, { frame with
      length := nbyte.toNat, extended := false,
      data := some (List.replicate (nbyte.toNat - headerLength) none) }) := by
  have le : headerLength ≤ nbyte.toNat := not_lt.mp good
  have zero : nbyte.toNat ≠ 0 := by
    intro eq
    rw [eq] at le
    exact absurd le (by decide)
  have size : ((nbyte.toNat : ℤ) - headerLength) = (nbyte.toNat - headerLength : ℕ) :=
    (Nat.cast_sub le).symm
  have block : Block.malloc ((nbyte.toNat : ℤ) - headerLength) =
      some (List.replicate (nbyte.toNat - headerLength) none) := by
    rw [Block.malloc, size, if_neg (not_lt.mpr (Int.natCast_nonneg _)), Int.toNat_natCast]
  rw [appendReadByte]
  simp only [zero, if_false, good, block]

theorem appendReadByte_late {frame : PupFrame} (nbyte : UInt8) {count : ℕ} (late : headerLength ≤ count)
    (ordinary : frame.extended = false) : appendReadByte frame nbyte count =
      if count = frame.length then do
        let (frame, stream) ← generateFrameStream frame
        let checkbyte ← stream.load frame.length
        if checkbyte = nbyte then return (1, frame) else return (-1, frame)
      else
        match frame.data with
        | none => .throw .outOfBounds
        | some data => do
            let data ← data.store (count - headerLength) nbyte
            return (0, { frame with data := some data }) := by
  obtain ⟨n, rfl⟩ := Nat.exists_eq_add_of_le' late
  rw [appendReadByte, if_neg (by rw [ordinary]; exact fun h => Bool.false_ne_true h.1), ordinary]
  · rfl
  all_goals
    simp only [headerLength]
    omega

/-- The last byte is compared with the checkbyte of the others. -/
theorem appendReadByte_last {low high length command : UInt8} {data : List UInt8} (nbyte : UInt8)
    (last : length.toNat = data.length + headerLength) :
    appendReadByte (frameOf (0x02 :: low :: high :: length :: command :: data)) nbyte
        (data.length + headerLength) =
      .ret (if checkbyte (0x02 :: low :: high :: length :: command :: data) = nbyte then 1 else -1,
        frameOf (0x02 :: low :: high :: length :: command :: data)) := by
  have size : (frameOf (0x02 :: low :: high :: length :: command :: data)).length =
      data.length + headerLength := last
  have loaded := Block.load_last (0x02 :: low :: high :: length :: command :: data)
    (checkbyte (0x02 :: low :: high :: length :: command :: data))
  rw [appendReadByte_late nbyte (Nat.le_add_left _ _) rfl, if_pos size.symm,
    generateFrameStream_frameOf last, Outcome.ret_bind]
  dsimp only
  rw [size]
  refine (Outcome.bind_of_ret loaded).trans ?_
  split <;> rfl

/-- Before that, bytes go to their places in the block. -/
theorem appendReadByte_more {start low high length command : UInt8} {data : List UInt8} (nbyte : UInt8)
    (more : data.length + headerLength < length.toNat) :
    appendReadByte (frameOf (start :: low :: high :: length :: command :: data)) nbyte
        (data.length + headerLength) =
      .ret (0, frameOf (start :: low :: high :: length :: command :: (data ++ [nbyte]))) := by
  have size : data.length + headerLength ≠
      (frameOf (start :: low :: high :: length :: command :: data)).length := Nat.ne_of_lt more
  obtain ⟨n, room⟩ := Nat.exists_eq_add_of_lt more
  have left : length.toNat - headerLength - data.length = n + 1 := by
    rw [room]
    omega
  have left' : length.toNat - headerLength - (data ++ [nbyte]).length = n := by
    rw [room, List.length_append, List.length_singleton]
    omega
  have stored := Block.store_at (data.map some) (List.replicate n none) none nbyte
  rw [List.length_map] at stored
  rw [appendReadByte_late nbyte (Nat.le_add_left _ _) rfl, if_neg size, Nat.add_sub_cancel,
    frameOf_long, frameOf_long, left, left']
  refine (Outcome.bind_of_ret stored).trans ?_
  simp

theorem appendReadByte_frameOf {bytes : List UInt8} (begins : Begins bytes) (nbyte : UInt8) :
    ∃ frame, appendReadByte (frameOf bytes) nbyte bytes.length = .ret (verdict bytes nbyte, frame) ∧
      (verdict bytes nbyte = 0 → frame = frameOf (bytes ++ [nbyte])) ∧
      (verdict bytes nbyte = 1 → frame = frameOf bytes) := by
  match bytes, begins with
  | [], _ => exact ⟨_, rfl, fun _ => rfl, fun h => nomatch h⟩
  | [_], _ =>
      refine ⟨_, rfl, fun _ => ?_, fun h => nomatch h⟩
      refine PupFrame.ext ?_ rfl rfl rfl rfl
      simp [frameOf]
  | [_, _], _ =>
      refine ⟨_, rfl, fun _ => ?_, fun h => nomatch h⟩
      refine PupFrame.ext ?_ rfl rfl rfl rfl
      simp [frameOf]
  | [_, low, high], _ =>
      rw [verdict_length rfl]
      by_cases bad : nbyte.toNat < headerLength
      · rw [if_pos bad]
        obtain ⟨frame, refused⟩ := appendReadByte_bad_length _ bad
        exact ⟨frame, refused, fun h => (nomatch h), fun h => nomatch h⟩
      · rw [if_neg bad]
        exact ⟨_, appendReadByte_good_length _ bad, fun _ => rfl, fun h => nomatch h⟩
  | [start, low, high, length], begins =>
      have late : lengthAt < [start, low, high, length].length := Nat.lt_succ_self 3
      have more : [start, low, high, length].length < length.toNat := (begins.open_ late).1
      rw [verdict_open late (Nat.ne_of_lt more)]
      exact ⟨_, rfl, fun _ => rfl, fun h => nomatch h⟩
  | start :: low :: high :: length :: command :: data, begins =>
      obtain rfl : start = 0x02 := begins.start
      have late : lengthAt < (0x02 :: low :: high :: length :: command :: data).length := by
        simp only [List.length_cons, lengthAt]
        omega
      have le : data.length + headerLength ≤ length.toNat := (begins.open_ late).2
      rcases Nat.eq_or_lt_of_le le with last | more
      · rw [verdict_last late last]
        refine ⟨_, appendReadByte_last nbyte last.symm, ?_, fun _ => rfl⟩
        split <;> intro h <;> cases h
      · rw [verdict_open late (Nat.ne_of_lt more)]
        exact ⟨_, appendReadByte_more nbyte more, fun _ => rfl, fun h => nomatch h⟩

/-- A whole ordinary message up to its checkbyte. -/
structure Ordinary (body : List UInt8) : Prop where
  start : body.headD 0x02 = 0x02
  size : announced body = body.length
  long : headerLength ≤ body.length

namespace Ordinary

variable {body front rest : List UInt8} {nbyte : UInt8}

theorem announced_front (split : front ++ rest = body) (late : lengthAt < front.length) :
    announced front = announced body := by
  rw [announced, announced, ← split, List.getD_append _ _ _ _ late]

theorem begins (h : Ordinary body) (split : front ++ rest = body) : Begins front := by
  refine ⟨?_, fun late => ?_⟩
  · cases front with
    | nil => rfl
    | cons first front =>
        rw [← h.start, ← split]
        rfl
  · rw [announced_front split late, h.size, ← split, List.length_append]
    refine ⟨?_, Nat.le_add_right _ _⟩
    rw [← List.length_append, split]
    exact h.long

theorem verdict_front (h : Ordinary body) (split : front ++ nbyte :: rest = body) :
    verdict front nbyte = 0 := by
  rcases lt_trichotomy front.length lengthAt with early | here | late
  · exact verdict_early early
  · have read : announced body = nbyte.toNat := by
      rw [announced, ← split, ← here, List.getD_append_right _ _ _ _ le_rfl, Nat.sub_self]
      rfl
    rw [verdict_length here, if_neg]
    rw [← read, h.size]
    exact not_lt.mpr h.long
  · refine verdict_open late (Nat.ne_of_lt ?_)
    rw [announced_front split late, h.size, ← split, List.length_append, List.length_cons]
    omega

theorem verdict_body (h : Ordinary body) :
    verdict body nbyte = if checkbyte body = nbyte then 1 else -1 :=
  verdict_last (lt_of_lt_of_le (by decide) h.long) h.size.symm

end Ordinary

/-- Bytes appended one at a time, with the counts from `count` on: what the calls returned, and the
frame. -/
def receive : PupFrame → ℕ → List UInt8 → Outcome Undefined (List ℤ × PupFrame)
  | frame, _, [] => .ret ([], frame)
  | frame, count, nbyte :: bytes => do
      let (code, frame) ← appendReadByte frame nbyte count
      let (codes, frame) ← receive frame (count + 1) bytes
      return (code :: codes, frame)

theorem receive_ordinary {body : List UInt8} (h : Ordinary body) {front rest : List UInt8}
    (split : front ++ rest = body) :
    receive (frameOf front) front.length (rest ++ [checkbyte body]) =
      .ret (List.replicate rest.length 0 ++ [1], frameOf body) := by
  induction rest generalizing front with
  | nil =>
      rw [List.append_nil] at split
      subst split
      obtain ⟨frame, read, -, complete⟩ :=
        appendReadByte_frameOf (h.begins (List.append_nil _)) (checkbyte front)
      rw [h.verdict_body, if_pos rfl] at read complete
      obtain rfl := complete rfl
      exact Outcome.bind_of_ret read
  | cons nbyte rest ih =>
      obtain ⟨frame, read, open_, -⟩ := appendReadByte_frameOf (h.begins split) nbyte
      rw [h.verdict_front split] at read open_
      obtain rfl := open_ rfl
      have next := @ih (front ++ [nbyte]) (by rw [List.append_assoc]; exact split)
      rw [List.length_append, List.length_singleton] at next
      refine (Outcome.bind_of_ret read).trans ?_
      exact Outcome.bind_of_ret next

def PupFrame.of (addr : UInt16) (command : UInt8) (data : List UInt8) : PupFrame :=
  if data.length + headerLength ≤ 255 then
    ⟨addr, data.length + headerLength, false, command.toUInt16, some (data.map some)⟩
  else ⟨addr, data.length + extendedHeaderLength, true, command.toUInt16, some (data.map some)⟩

/-- What `generate_frame_stream` writes is read back: every byte but the last is valid so far, the
last one completes the packet, and the frame is the same in every field. -/
def RoundTrips (addr : UInt16) (command : UInt8) (data : List UInt8) : Prop :=
  ∃ sent bytes, generateFrameStream (.of addr command data) = .ret (sent, bytes.map some) ∧
    bytes.length = (PupFrame.of addr command data).length + 1 ∧
    receive (newPupFrame 0 0 0) 0 bytes =
      .ret (List.replicate (PupFrame.of addr command data).length 0 ++ [1], .of addr command data)

section Codec
variable {addr : UInt16} {command : UInt8} {data : List UInt8}

variable (addr command) in
theorem ordinary_ordinaryBody (short : data.length + headerLength ≤ 255) :
    Ordinary (ordinaryBody addr command.toUInt16 data) := by
  refine ⟨rfl, ?_, ?_⟩
  · rw [length_ordinaryBody]
    exact toNat_ofNat_length short
  · rw [length_ordinaryBody]
    exact Nat.le_add_left _ _

theorem frameOf_ordinaryBody (short : data.length + headerLength ≤ 255) :
    frameOf (ordinaryBody addr command.toUInt16 data) =
      ⟨addr, data.length + headerLength, false, command.toUInt16, some (data.map some)⟩ := by
  have size := toNat_ofNat_length short
  have address : addr.toUInt8.toUInt16 + (addr >>> 8).toUInt8.toUInt16 <<< 8 = addr := by
    refine UInt16.toNat_inj.mp ?_
    have := addr.toNat_lt
    simp only [UInt16.toNat_toUInt8, UInt16.toNat_add, UInt8.toNat_toUInt16, UInt16.toNat_shiftLeft,
      UInt16.toNat_shiftRight, Nat.shiftLeft_eq, Nat.shiftRight_eq_div_pow, UInt16.reduceToNat,
      Nat.reduceMod, Nat.reducePow]
    omega
  refine (frameOf_long _ _ _ _ _ data).trans ?_
  rw [size, address, UInt8.toUInt8_toUInt16, Nat.add_sub_cancel, Nat.sub_self, List.replicate_zero,
    List.append_nil]

theorem receive_cons {frame received : PupFrame} {count : ℕ} {nbyte : UInt8} {bytes : List UInt8}
    {codes : List ℤ} (h : receive frame count (nbyte :: bytes) = .ret (codes, received)) :
    ∃ code frame' codes', codes = code :: codes' ∧ appendReadByte frame nbyte count = .ret (code, frame') ∧
      receive frame' (count + 1) bytes = .ret (codes', received) := by
  obtain ⟨⟨code, frame'⟩, read, h⟩ := Outcome.bind_eq_ret.mp h
  obtain ⟨⟨codes', _⟩, rest, done⟩ := Outcome.bind_eq_ret.mp h
  cases done
  exact ⟨code, frame', codes', rfl, read, rest⟩

/-- The length byte of an extended frame is refused. -/
theorem receive_extended {frame received : PupFrame} {start low high : UInt8} (bytes : List UInt8)
    {codes : List ℤ}
    (h : receive frame 0 (start :: low :: high :: 0 :: bytes) = .ret (codes, received)) :
    codes[3]? = some (-1) := by
  obtain ⟨_, _, _, rfl, -, h⟩ := receive_cons h
  obtain ⟨_, _, _, rfl, -, h⟩ := receive_cons h
  obtain ⟨_, _, _, rfl, -, h⟩ := receive_cons h
  obtain ⟨code, frame', _, rfl, read, -⟩ := receive_cons h
  obtain ⟨_, refused⟩ := appendReadByte_bad_length _ (show (0 : UInt8).toNat < headerLength by decide)
  rw [refused] at read
  cases read
  rfl

theorem not_roundTrips_extended (short : data.length + extendedHeaderLength < 2 ^ 15)
    (long : ¬ data.length + headerLength ≤ 255) : ¬ RoundTrips addr command data := by
  rintro ⟨sent, bytes, written, -, read⟩
  rw [PupFrame.of, if_neg long] at written read
  rw [generateFrameStream_extended _ _ (short.trans (by decide))] at written
  have sent_bytes := (Prod.mk.inj (Outcome.ret.inj written)).2
  obtain rfl := (List.map_inj_right fun _ _ => Option.some.inj).mp sent_bytes
  -- the fourth byte on the wire is 0
  have refused := receive_extended (command.toUInt16.toUInt8 ::
    UInt8.ofNat (data.length + extendedHeaderLength) ::
    UInt8.ofNat ((data.length + extendedHeaderLength) >>> 8) :: (data ++
      [checkbyte (extendedBody addr command.toUInt16 data)])) read
  rw [List.getElem?_append_left (by
    rw [List.length_replicate]
    exact Nat.lt_of_lt_of_le (by decide) (Nat.le_add_left _ _)), List.getElem?_replicate] at refused
  split at refused <;> cases refused

end Codec

/-- Exactly the ordinary frames make it through the codec. -/
theorem round_trips_iff {addr : UInt16} {command : UInt8} {data : List UInt8}
    (short : data.length + extendedHeaderLength < 2 ^ 15) :
    RoundTrips addr command data ↔ data.length + headerLength ≤ 255 := by
  constructor
  · intro round
    by_contra long
    exact not_roundTrips_extended short long round
  · intro fits
    have ordinary := ordinary_ordinaryBody addr command fits
    have read := receive_ordinary ordinary (List.nil_append _)
    rw [length_ordinaryBody, frameOf_ordinaryBody fits] at read
    rw [RoundTrips, PupFrame.of, if_pos fits]
    refine ⟨_, _, generateFrameStream_ordinary addr command.toUInt16 fits, ?_, read⟩
    rw [List.length_append, length_ordinaryBody]
    rfl

theorem round_trips_iff_attribute : RoundTrips 0x1234 7 [1, 0, 65, 66] ↔ 4 + headerLength ≤ 255 :=
  round_trips_iff (by decide)

/-- With 251 bytes of data the frame is extended, and refused at its fourth byte. -/
theorem extended_refused : ¬ RoundTrips 0x1234 7 (List.replicate 251 0) := by
  refine not_roundTrips_extended ?_ ?_ <;> rw [List.length_replicate] <;> decide

end Mio.Adapters
