import Mathlib.Logic.Function.Basic
import Mio.Adapters.PupFrame

/-! What the checkbyte of `libpup.c` is good for: a frame that comes in with one wrong byte is refused. -/
namespace Mio.Adapters

section
variable {α β : Type} {f : α → β → α} {l : List β} {a a' : α}

theorem foldl_ne (left : ∀ b, Function.Injective (f · b)) (ne : a ≠ a') :
    l.foldl f a ≠ l.foldl f a' := by
  induction l generalizing a a' with
  | nil => exact ne
  | cons b l ih => exact ih ((left b).ne ne)

/-- Where no step forgets anything, one other element makes another result. -/
theorem foldl_set_ne (left : ∀ b, Function.Injective (f · b)) (right : ∀ a, Function.Injective (f a))
    {i : ℕ} {b : β} (inside : i < l.length) (other : l[i]? ≠ some b) :
    (l.set i b).foldl f a ≠ l.foldl f a := by
  induction l generalizing i a with
  | nil => cases inside
  | cons first l ih =>
      cases i with
      | zero =>
          have ne : b ≠ first := by
            rintro rfl
            exact other rfl
          exact foldl_ne left ((right a).ne ne)
      | succ i => exact ih (Nat.lt_of_succ_lt_succ inside) other

end

theorem checkStep_left (byte : UInt8) : Function.Injective fun check : UInt8 => (check ^^^ byte) + 1 := by
  intro c c' same
  exact (UInt8.xor_left_inj byte).mp ((UInt8.add_left_inj 1).mp same)

theorem checkStep_right (check : UInt8) : Function.Injective fun byte : UInt8 => (check ^^^ byte) + 1 := by
  intro b b' same
  exact (UInt8.xor_right_inj check).mp ((UInt8.add_left_inj 1).mp same)

theorem checkbyte_set_ne {bytes : List UInt8} {i : ℕ} {byte : UInt8} (inside : i < bytes.length)
    (other : bytes[i]? ≠ some byte) : checkbyte (bytes.set i byte) ≠ checkbyte bytes :=
  foldl_set_ne checkStep_left checkStep_right inside other

namespace Ordinary

variable {body : List UInt8}

/-- All bytes but the last are valid so far, and the last one decides. -/
theorem receive_closed (h : Ordinary body) (nbyte : UInt8) {front rest : List UInt8}
    (split : front ++ rest = body) :
    ∃ frame, receive (frameOf front) front.length (rest ++ [nbyte]) =
      .ret (List.replicate rest.length 0 ++ [if checkbyte body = nbyte then 1 else -1], frame) := by
  induction rest generalizing front with
  | nil =>
      rw [List.append_nil] at split
      subst split
      obtain ⟨frame, read, -, -⟩ := appendReadByte_frameOf (h.begins (List.append_nil _)) nbyte
      rw [h.verdict_body] at read
      exact ⟨frame, Outcome.bind_of_ret read⟩
  | cons first rest ih =>
      obtain ⟨frame, read, open_, -⟩ := appendReadByte_frameOf (h.begins split) first
      rw [h.verdict_front split] at read open_
      obtain rfl := open_ rfl
      obtain ⟨last, next⟩ := @ih (front ++ [first]) (by rw [List.append_assoc]; exact split)
      rw [List.length_append, List.length_singleton] at next
      exact ⟨last, (Outcome.bind_of_ret read).trans (Outcome.bind_of_ret next)⟩

theorem set (h : Ordinary body) {i : ℕ} (start : i ≠ startMessage) (length : i ≠ lengthAt)
    (byte : UInt8) : Ordinary (body.set i byte) := by
  obtain ⟨i, rfl⟩ := Nat.exists_eq_succ_of_ne_zero start
  refine ⟨?_, ?_, ?_⟩
  · cases body with
    | nil => rfl
    | cons first body => exact h.start
  · have same : (body.set (i + 1) byte).getD lengthAt 0 = body.getD lengthAt 0 := by
      rw [List.getD_eq_getElem?_getD, List.getElem?_set_ne length, List.getD_eq_getElem?_getD]
    rw [announced, same, List.length_set]
    exact h.size
  · rw [List.length_set]
    exact h.long

theorem receive_corrupted (h : Ordinary body) {i : ℕ} {byte : UInt8}
    (inside : i < (body ++ [checkbyte body]).length) (start : i ≠ startMessage) (length : i ≠ lengthAt)
    (other : (body ++ [checkbyte body])[i]? ≠ some byte) :
    ∃ frame, receive (newPupFrame 0 0 0) 0 ((body ++ [checkbyte body]).set i byte) =
      .ret (List.replicate body.length 0 ++ [-1], frame) := by
  rcases Nat.lt_or_ge i body.length with front | last
  · rw [List.getElem?_append_left front] at other
    obtain ⟨frame, read⟩ := (h.set start length byte).receive_closed (checkbyte body) (List.nil_append _)
    rw [if_neg (checkbyte_set_ne front other), List.length_set] at read
    rw [List.set_append_left _ _ front]
    exact ⟨frame, read⟩
  · have here : i = body.length := by
      rw [List.length_append, List.length_singleton] at inside
      omega
    subst here
    have ne : checkbyte body ≠ byte := by
      rintro rfl
      exact other List.getElem?_concat_length
    obtain ⟨frame, read⟩ := h.receive_closed byte (List.nil_append _)
    rw [if_neg ne] at read
    rw [List.set_append_right _ _ (Nat.le_refl _), Nat.sub_self]
    exact ⟨frame, read⟩

end Ordinary

/-- The fold only gets to its end over bytes that were written. -/
theorem bytes_of_checkLoop {stream : Block} {n : ℕ} {check : UInt8}
    (done : checkLoop stream n = .ret check) :
    ∃ bytes : List UInt8, stream.take n = bytes.map some ∧ bytes.length = n := by
  induction n generalizing check with
  | zero => exact ⟨[], rfl, rfl⟩
  | succ n ih =>
      rw [checkLoop, List.range_succ, List.foldlM_append] at done
      obtain ⟨before, earlier, last⟩ := Outcome.bind_eq_ret.mp done
      obtain ⟨bytes, taken, length⟩ := ih earlier
      rw [List.foldlM_cons] at last
      obtain ⟨_, step, -⟩ := Outcome.bind_eq_ret.mp last
      obtain ⟨byte, load, -⟩ := Outcome.bind_eq_ret.mp step
      have here : stream[n]? = some (some byte) := by
        unfold Block.load at load
        split at load
        · cases load
        · cases load
        · next found =>
            cases load
            exact found
      refine ⟨bytes ++ [byte], ?_, ?_⟩
      · rw [List.take_add_one, here, taken, List.map_append]
        rfl
      · rw [List.length_append, length]
        rfl

theorem byte_at {block : Block} {bytes : List UInt8} (same : block = bytes.map some) {i : ℕ}
    {byte : UInt8} (here : block[i]? = some (some byte)) : bytes[i]? = some byte := by
  rw [same, List.getElem?_map] at here
  obtain ⟨_, found, same⟩ := Option.map_eq_some_iff.mp here
  rw [found, Option.some.inj same]

theorem memcpy_ret {front middle back block : Block} {source : Option Block}
    (copied : Block.memcpy (front ++ (middle ++ back)) front.length source middle.length = .ret block) :
    ∃ copy : Block, copy.length = middle.length ∧ block = front ++ (copy ++ back) := by
  cases source with
  | none =>
      rw [Block.memcpy] at copied
      split at copied
      · cases copied
        exact ⟨middle, rfl, rfl⟩
      · cases copied
  | some source =>
      rw [Block.memcpy] at copied
      split at copied
      · next fits =>
          rw [Int.toNat_natCast] at fits copied
          have length : (source.take middle.length).length = middle.length := by
            rw [List.length_take, Nat.min_eq_left fits.2.1]
          refine ⟨source.take middle.length, length, ?_⟩
          have rest : (front ++ (middle ++ back)).drop (front.length + middle.length) = back := by
            rw [← List.append_assoc, List.drop_left' List.length_append]
          rw [rest, List.take_left, List.append_assoc] at copied
          exact (Outcome.ret.inj copied).symm
      · cases copied

theorem writeLengthAndData_ret {frame : PupFrame} {n : ℕ} {block : Block} {lower higher command : UInt8}
    (ordinary : frame.extended = false) (size : frame.length = n + headerLength)
    (filled : writeLengthAndData frame ([some 0x02, some lower, some higher] ++
      none :: (some command :: (List.replicate n none ++ [none]))) = .ret block) :
    ∃ copy : Block, copy.length = n ∧ block =
      [some 0x02, some lower, some higher, some (UInt8.ofNat frame.length), some command] ++ (copy ++ [none]) := by
  have fourth := Block.store_at [some 0x02, some lower, some higher]
    (some command :: (List.replicate n none ++ [none])) none (UInt8.ofNat frame.length)
  have count : (frame.length : ℤ) - headerLength = (List.replicate n none : Block).length := by
    rw [size, Nat.cast_add, add_sub_cancel_right, List.length_replicate]
  rw [writeLengthAndData, ordinary, if_neg Bool.false_ne_true, count] at filled
  obtain ⟨_, stored, filled⟩ := Outcome.bind_eq_ret.mp filled
  obtain rfl := Outcome.ret.inj (fourth.symm.trans stored)
  obtain ⟨copy, length, rfl⟩ := @memcpy_ret [some 0x02, some lower, some higher,
    some (UInt8.ofNat frame.length), some command] (List.replicate n none) [none] _ _ filled
  exact ⟨copy, length.trans List.length_replicate, rfl⟩

/-- The checkbyte is taken over as many bytes as the fourth of them says, and all these were written. -/
theorem generateCheckbyte_ret {front back : Block} {check : UInt8} (long : headerLength ≤ front.length)
    (short : front.length ≤ 255)
    (fourth : Block.load (front ++ back) lengthAt = .ret (UInt8.ofNat front.length))
    (checked : generateCheckbyte (front ++ back) = .ret check) :
    ∃ body : List UInt8, front = body.map some ∧ check = checkbyte body := by
  have length8 := toNat_ofNat_length short
  have some_length : UInt8.ofNat front.length ≠ 0 := by
    intro zero
    rw [zero] at length8
    rw [← length8] at long
    exact absurd long (by decide)
  rw [generateCheckbyte, fourth, Outcome.ret_bind, if_neg some_length, length8,
    if_neg (not_lt.mpr long)] at checked
  obtain ⟨body, taken, -⟩ := bytes_of_checkLoop checked
  rw [List.take_left' rfl] at taken
  rw [taken, List.length_map, checkLoop_done] at checked
  exact ⟨body, taken, (Outcome.ret.inj checked).symm⟩

/-- A stream that is written is a whole message and its checkbyte. -/
theorem generateFrameStream_ret {frame sent : PupFrame} {stream : Block}
    (ordinary : frame.extended = false) (long : headerLength ≤ frame.length)
    (short : frame.length ≤ 255) (written : generateFrameStream frame = .ret (sent, stream)) :
    ∃ body, Ordinary body ∧ body.length = frame.length ∧
      stream = (body ++ [checkbyte body]).map some := by
  obtain ⟨n, size⟩ := Nat.exists_eq_add_of_le' long
  have room : (List.replicate (frame.length + 1) none : Block) =
      none :: none :: none :: none :: none :: (List.replicate n none ++ [none]) := by
    rw [size, ← List.replicate_succ']
    rfl
  rw [generateFrameStream, if_neg (not_lt.mpr short), room, writeHeader_done, Outcome.ret_bind] at written
  obtain ⟨block, filled, written⟩ := Outcome.bind_eq_ret.mp written
  obtain ⟨check, checked, written⟩ := Outcome.bind_eq_ret.mp written
  obtain ⟨copy, length, rfl⟩ := writeLengthAndData_ret ordinary size filled
  generalize header : [some 0x02, some frame.addr.toUInt8, some (frame.addr >>> 8).toUInt8,
    some (UInt8.ofNat frame.length), some frame.command.toUInt8] = front at *
  have total : (front ++ copy).length = frame.length := by
    rw [List.length_append, length, ← header, size, Nat.add_comm]
    rfl
  have fourth : Block.load (front ++ copy ++ [none]) lengthAt = .ret (UInt8.ofNat (front ++ copy).length) := by
    rw [total, ← header]
    rfl
  rw [← total] at long short ⊢
  rw [← List.append_assoc] at checked written
  obtain ⟨body, taken, rfl⟩ := generateCheckbyte_ret long short fourth checked
  have whole : body.length = (front ++ copy).length := by
    rw [taken, List.length_map]
  -- the checkbyte goes behind the message
  have last := Block.store_at (body.map some) [] none (checkbyte body)
  rw [List.length_map, whole, total] at last
  rw [taken, last, Outcome.ret_bind] at written
  have first : body[startMessage]? = some 0x02 := by
    rw [← header] at taken
    exact byte_at taken rfl
  have third : body[lengthAt]? = some (UInt8.ofNat (front ++ copy).length) := by
    rw [total]
    rw [← header] at taken
    exact byte_at taken rfl
  refine ⟨body, ⟨?_, ?_, whole.symm ▸ long⟩, whole, ?_⟩
  · rw [List.headD_eq_head?_getD, List.head?_eq_getElem?, first]
    rfl
  · rw [announced, List.getD_eq_getElem?_getD, third, whole]
    exact toNat_ofNat_length short
  · cases written
    rw [List.map_append]
    rfl

/-- A frame that is not extended comes in with one wrong byte, in any place but the first and that of
the length: the last byte is answered with -1, and all before it with 0. -/
theorem corrupted_byte_refused {frame sent : PupFrame} {stream : Block}
    (ordinary : frame.extended = false) (long : headerLength ≤ frame.length)
    (short : frame.length ≤ 255) (written : generateFrameStream frame = .ret (sent, stream)) :
    ∃ bytes : List UInt8, stream = bytes.map some ∧ bytes.length = frame.length + 1 ∧
      ∀ i byte, i < bytes.length → i ≠ startMessage → i ≠ lengthAt → bytes[i]? ≠ some byte →
        ∃ received, receive (newPupFrame 0 0 0) 0 (bytes.set i byte) =
          .ret (List.replicate frame.length 0 ++ [-1], received) := by
  obtain ⟨body, whole, length, rfl⟩ := generateFrameStream_ret ordinary long short written
  refine ⟨body ++ [checkbyte body], rfl, ?_, fun i byte inside start at_length other => ?_⟩
  · rw [List.length_append, length]
    rfl
  · rw [← length]
    exact whole.receive_corrupted inside start at_length other

theorem corrupted_byte_refused_attribute :
    ∃ bytes : List UInt8, (ordinaryBody 0x1234 7 [1, 0] ++ [checkbyte (ordinaryBody 0x1234 7 [1, 0])]).map some
        = bytes.map some ∧ bytes.length = 7 + 1 ∧
      ∀ i byte, i < bytes.length → i ≠ startMessage → i ≠ lengthAt → bytes[i]? ≠ some byte →
        ∃ received, receive (newPupFrame 0 0 0) 0 (bytes.set i byte) =
          .ret (List.replicate 7 0 ++ [-1], received) :=
  @corrupted_byte_refused ⟨0x1234, 7, false, 7, some ([1, 0].map some)⟩ _ _ rfl (by decide)
    (by decide) (@generateFrameStream_ordinary 0x1234 7 [1, 0] (by decide))

end Mio.Adapters
