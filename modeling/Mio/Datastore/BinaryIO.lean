import Mathlib.Tactic.Ring
import Mio.Datastore.Tile
import Mio.Lib.Binary

/-! The binary form of a tile: `BinaryIO.cpp`, and the first half of `Tile.cpp`. Doubles and floats
are their bits. -/
namespace Mio.Datastore

inductive OutOfRange where
  | outOfRange

abbrev MachineTile := Tile (BitVec 64) (BitVec 32)

abbrev MachineSample (V : Type) := DataSample (BitVec 64) (BitVec 32) V

/-- An index sample and the four bytes of padding at its end, which nothing sets. -/
abbrev IndexSample := MachineSample (BitVec 32) × BitVec 32

/-- `ranges.clear()`: the largest double and its negative. -/
def machineClear : DataRanges (BitVec 64) :=
  ⟨⟨0x7fefffffffffffff, 0xffefffffffffffff⟩, ⟨0x7fefffffffffffff, 0xffefffffffffffff⟩⟩

def wordAt (w n start : ℕ) (bytes : List UInt8) : BitVec w :=
  BitVec.ofNat w (leValue ((bytes.drop start).take n))

def Header.memory (h : Header) : List UInt8 := wordBytes 4 h.magic ++ wordBytes 4 h.version

def Header.ofMemory (bytes : List UInt8) : Header := ⟨wordAt 32 4 0 bytes, wordAt 32 4 4 bytes⟩

def doubleMemory (s : MachineSample (BitVec 64)) : List UInt8 :=
  wordBytes 8 s.time ++ (wordBytes 8 s.value ++ (wordBytes 4 s.weight ++ wordBytes 4 s.stddev))

def doubleOfMemory (bytes : List UInt8) : MachineSample (BitVec 64) :=
  ⟨wordAt 64 8 0 bytes, wordAt 64 8 8 bytes, wordAt 32 4 16 bytes, wordAt 32 4 20 bytes⟩

def indexMemory (s : IndexSample) : List UInt8 :=
  wordBytes 8 s.1.time ++ (wordBytes 4 s.1.value ++ (wordBytes 4 s.1.weight ++
    (wordBytes 4 s.1.stddev ++ wordBytes 4 s.2)))

def indexOfMemory (bytes : List UInt8) : MachineSample (BitVec 32) :=
  ⟨wordAt 64 8 0 bytes, wordAt 32 4 8 bytes, wordAt 32 4 12 bytes, wordAt 32 4 16 bytes⟩

def rangesMemory (r : DataRanges (BitVec 64)) : List UInt8 :=
  wordBytes 8 r.times.min ++ (wordBytes 8 r.times.max ++
    (wordBytes 8 r.doubleSamples.min ++ wordBytes 8 r.doubleSamples.max))

def rangesOfMemory (bytes : List UInt8) : DataRanges (BitVec 64) :=
  ⟨⟨wordAt 64 8 0 bytes, wordAt 64 8 8 bytes⟩, ⟨wordAt 64 8 16 bytes, wordAt 64 8 24 bytes⟩⟩

def decomposeIndexes (padding : ℕ → BitVec 32) :
    ℕ → BitVec 32 → List (MachineSample Text) → List IndexSample
  | _, _, [] => []
  | i, index, s :: samples =>
      (⟨s.time, index, s.weight, s.stddev⟩, padding i) ::
        decomposeIndexes padding (i + 1) (index + BitVec.ofNat 32 s.value.length) samples

def composeStringSamples (text : Text) :
    List (MachineSample (BitVec 32)) → Outcome OutOfRange (List (MachineSample Text))
  | [] => .ret []
  | s :: indexes => do
      let begin_ := s.value
      let end_ := match indexes with
        | [] => BitVec.ofNat 32 text.length
        | next :: _ => next.value
      -- `substr`
      let value ← if text.length < begin_.toNat then .throw .outOfRange
        else .ret ((text.drop begin_.toNat).take (end_ - begin_).toNat)
      let samples ← composeStringSamples text indexes
      .ret (⟨s.time, value, s.weight, s.stddev⟩ :: samples)

namespace BinaryWriter

def writeBytes (p : List UInt8) (buf : Buffer) : Outcome OutOfRange Buffer :=
  if p.length ≤ buf.rest.length then .ret ⟨buf.written ++ p, buf.rest.drop p.length⟩
  else .abort "m_ptr + len <= m_end"

def writeZeros (len : ℕ) (buf : Buffer) : Outcome OutOfRange Buffer :=
  writeBytes (List.replicate len 0) buf

/-- `write(const std::vector<T> &)` for a type of 24 bytes. -/
def writeVector {T : Type} (memory : T → List UInt8) (v : List T) (buf : Buffer) :
    Outcome OutOfRange Buffer := do
  let buf ← writeBytes (wordBytes 4 (BitVec.ofNat 32 (v.length * 24))) buf
  v.foldlM (fun buf a => writeBytes (memory a) buf) buf

def writeText (text : Text) (buf : Buffer) : Outcome OutOfRange Buffer := do
  let endptr := buf.written.length + Tile.writeStringLength text.length
  let buf ← writeBytes (wordBytes 4 (BitVec.ofNat 32 text.length)) buf
  let buf ← writeBytes text buf
  writeZeros (endptr - buf.written.length) buf

def writeStrings (padding : ℕ → BitVec 32) (samples : List (MachineSample Text)) (buf : Buffer) :
    Outcome OutOfRange Buffer := do
  let buf ← writeVector indexMemory (decomposeIndexes padding 0 0 samples) buf
  writeText (Tile.text samples) buf

end BinaryWriter

def resize (dest : List UInt8) (len : ℕ) : List UInt8 :=
  dest.take len ++ List.replicate (len - dest.length) 0

namespace Tile

def write (t : MachineTile) (padding : ℕ → BitVec 32) (buf : Buffer) :
    Outcome OutOfRange Buffer := do
  let buf ← BinaryWriter.writeBytes t.header.memory buf
  let buf ← BinaryWriter.writeVector doubleMemory t.doubleSamples buf
  let buf ← BinaryWriter.writeStrings padding t.stringSamples buf
  BinaryWriter.writeBytes (rangesMemory t.ranges) buf

/-- `to_binary`; what the writer does not reach stays as it was. -/
def toBinary (t : MachineTile) (padding : ℕ → BitVec 32) (dest : List UInt8) :
    Outcome OutOfRange (List UInt8) := do
  let buf ← t.write padding ⟨[], resize dest t.binaryLength⟩
  .ret (buf.written ++ buf.rest)

end Tile

namespace BinaryReader

def readBytes (len : ℕ) (src : List UInt8) : Outcome OutOfRange (List UInt8 × List UInt8) :=
  if len ≤ src.length then .ret (src.take len, src.drop len) else .abort "m_ptr + len <= m_end"

def skipBytes (len : ℕ) (src : List UInt8) : Outcome OutOfRange (List UInt8) :=
  if len ≤ src.length then .ret (src.drop len) else .abort "m_ptr + len <= m_end"

/-- `read(T &)`. -/
def readObject {T : Type} (size : ℕ) (ofMemory : List UInt8 → T) (src : List UInt8) :
    Outcome OutOfRange (T × List UInt8) := do
  let (bytes, src) ← readBytes size src
  .ret (ofMemory bytes, src)

def readLength : List UInt8 → Outcome OutOfRange (BitVec 32 × List UInt8) :=
  readObject 4 (wordAt 32 4 0)

/-- `read(std::vector<T> &)` for a type of 24 bytes. -/
def readVector {T : Type} (ofMemory : List UInt8 → T) (src : List UInt8) :
    Outcome OutOfRange (List T × List UInt8) := do
  let (len, src) ← readLength src
  Outcome.assert (len.toNat % 24 = 0) "len % sizeof(T) == 0"
  readTimes (readObject 24 ofMemory) (len.toNat / 24) src

def readText (start : List UInt8) : Outcome OutOfRange (Text × List UInt8) := do
  let (len, src) ← readLength start
  let (text, src) ← readBytes len.toNat src
  let src ← skipBytes (Tile.writeStringLength len.toNat - (start.length - src.length)) src
  .ret (text, src)

def readStrings (src : List UInt8) : Outcome OutOfRange (List (MachineSample Text) × List UInt8) := do
  let (indexes, src) ← readVector indexOfMemory src
  let (text, src) ← readText src
  let samples ← composeStringSamples text indexes
  .ret (samples, src)

end BinaryReader

namespace Tile

def fromBinary (into : MachineTile) (src : List UInt8) : Outcome OutOfRange MachineTile := do
  let (header, src) ← BinaryReader.readObject 8 Header.ofMemory src
  let (doubleSamples, src) ← BinaryReader.readVector doubleOfMemory src
  let (stringSamples, src) ← if src ≠ [] then BinaryReader.readStrings src else .ret ([], src)
  let (ranges, _) ← if src ≠ [] then BinaryReader.readObject 32 rangesOfMemory src
    else .ret (machineClear, src)
  .ret { into with header, doubleSamples, stringSamples, ranges }

end Tile

namespace BinaryWriter

theorem puts_writeBytes (p : List UInt8) : Puts (writeBytes p) p := fun _ room => if_pos room

def vectorBytes {T : Type} (memory : T → List UInt8) (v : List T) : List UInt8 :=
  wordBytes 4 (BitVec.ofNat 32 (v.length * 24)) ++ v.flatMap memory

theorem puts_writeVector {T : Type} (memory : T → List UInt8) (v : List T) :
    Puts (writeVector memory v) (vectorBytes memory v) :=
  (puts_writeBytes _).andThen (.each (fun a => puts_writeBytes (memory a)) v)

def pad (len : ℕ) : ℕ := Tile.writeStringLength len - (4 + len)

def textBytes (text : Text) : List UInt8 :=
  wordBytes 4 (BitVec.ofNat 32 text.length) ++ (text ++ List.replicate (pad text.length) 0)

theorem puts_writeText (text : Text) : Puts (writeText text) (textBytes text) := by
  intro buf room
  have size : (textBytes text).length = 4 + text.length + pad text.length := by
    simp [textBytes]
    omega
  have first : (wordBytes 4 (BitVec.ofNat 32 text.length)).length = 4 := wordBytes_length ..
  rw [size] at room ⊢
  unfold writeText
  dsimp only
  rw [puts_writeBytes _ buf (by omega), Outcome.ret_bind, puts_writeBytes, Outcome.ret_bind,
    writeZeros, puts_writeBytes]
  · have zeros : buf.written.length + Tile.writeStringLength text.length -
        (buf.written ++ wordBytes 4 (BitVec.ofNat 32 text.length) ++ text).length =
          pad text.length := by
      simp only [List.length_append, first, pad]
      omega
    rw [zeros, textBytes, List.length_replicate, List.drop_drop, List.drop_drop, first]
    simp only [List.append_assoc]
  · simp only [List.length_replicate, List.length_append, List.length_drop, first]
    unfold pad at room
    omega
  · rw [List.length_drop]
    omega

def stringsBytes (padding : ℕ → BitVec 32) (samples : List (MachineSample Text)) : List UInt8 :=
  vectorBytes indexMemory (decomposeIndexes padding 0 0 samples) ++ textBytes (Tile.text samples)

theorem puts_writeStrings (padding : ℕ → BitVec 32) (samples : List (MachineSample Text)) :
    Puts (writeStrings padding samples) (stringsBytes padding samples) :=
  (puts_writeVector _ _).andThen (puts_writeText _)

end BinaryWriter

open BinaryWriter

namespace Tile

/-- The bytes of a tile up to each of its parts. -/
def doublesBytes (t : MachineTile) : List UInt8 :=
  t.header.memory ++ vectorBytes doubleMemory t.doubleSamples

def bytes (t : MachineTile) (padding : ℕ → BitVec 32) : List UInt8 :=
  t.doublesBytes ++ (stringsBytes padding t.stringSamples ++ rangesMemory t.ranges)

theorem puts_write (t : MachineTile) (padding : ℕ → BitVec 32) :
    Puts (t.write padding) (t.bytes padding) := by
  have all := (puts_writeBytes t.header.memory).andThen ((puts_writeVector doubleMemory
    t.doubleSamples).andThen ((puts_writeStrings padding t.stringSamples).andThen
      (puts_writeBytes (rangesMemory t.ranges))))
  rw [← List.append_assoc] at all
  exact all

end Tile

theorem Header.memory_length (h : Header) : h.memory.length = 8 := by
  simp [memory]

theorem doubleMemory_length (s : MachineSample (BitVec 64)) : (doubleMemory s).length = 24 := by
  simp [doubleMemory]

theorem indexMemory_length (s : IndexSample) : (indexMemory s).length = 24 := by
  simp [indexMemory]

theorem rangesMemory_length (r : DataRanges (BitVec 64)) : (rangesMemory r).length = 32 := by
  simp [rangesMemory]

theorem vectorBytes_length {T : Type} {memory : T → List UInt8}
    (size : ∀ a, (memory a).length = 24) (v : List T) :
    (vectorBytes memory v).length = 4 + 24 * v.length := by
  have body : (v.flatMap memory).length = 24 * v.length := by
    induction v with
    | nil => rfl
    | cons a v ih =>
        rw [List.flatMap_cons, List.length_append, size, ih, List.length_cons]
        ring
  rw [vectorBytes, List.length_append, wordBytes_length, body]

theorem textBytes_length (text : Text) :
    (textBytes text).length = Tile.writeStringLength text.length := by
  have room : 4 + text.length ≤ Tile.writeStringLength text.length := by
    unfold Tile.writeStringLength
    omega
  simp only [textBytes, pad, List.length_append, wordBytes_length, List.length_replicate]
  omega

theorem decomposeIndexes_length (padding : ℕ → BitVec 32) (i : ℕ) (index : BitVec 32)
    (samples : List (MachineSample Text)) :
    (decomposeIndexes padding i index samples).length = samples.length := by
  induction samples generalizing i index with
  | nil => rfl
  | cons s samples ih => exact congrArg Nat.succ (ih _ _)

theorem Tile.bytes_length (t : MachineTile) (padding : ℕ → BitVec 32) :
    (t.bytes padding).length = t.binaryLength := by
  simp only [Tile.bytes, Tile.doublesBytes, stringsBytes, List.length_append,
    Header.memory_length, vectorBytes_length doubleMemory_length,
    vectorBytes_length indexMemory_length, textBytes_length, rangesMemory_length,
    decomposeIndexes_length, Tile.binaryLength]
  omega

theorem wordAt_last {w n : ℕ} (wide : w ≤ 8 * n) (x : BitVec w) :
    wordAt w n 0 (wordBytes n x) = x := by
  rw [wordAt, List.drop_zero, List.take_of_length_le (by simp), ofNat_leValue_wordBytes wide]

theorem wordAt_here {w n : ℕ} (wide : w ≤ 8 * n) (x : BitVec w) (more : List UInt8) :
    wordAt w n 0 (wordBytes n x ++ more) = x := by
  rw [wordAt, List.drop_zero, List.take_left' (wordBytes_length ..), ofNat_leValue_wordBytes wide]

theorem wordAt_skip {w n k start v : ℕ} (past : k ≤ start) (y : BitVec v) (more : List UInt8) :
    wordAt w n start (wordBytes k y ++ more) = wordAt w n (start - k) more := by
  rw [wordAt, wordAt, List.drop_append, List.drop_of_length_le (by simpa using past),
    List.nil_append, wordBytes_length]

theorem Header.ofMemory_memory (h : Header) : Header.ofMemory h.memory = h := by
  simp [ofMemory, memory, wordAt_here, wordAt_skip, wordAt_last]

theorem doubleOfMemory_memory (s : MachineSample (BitVec 64)) :
    doubleOfMemory (doubleMemory s) = s := by
  simp [doubleOfMemory, doubleMemory, wordAt_here, wordAt_skip, wordAt_last]

theorem indexOfMemory_memory (s : IndexSample) : indexOfMemory (indexMemory s) = s.1 := by
  simp [indexOfMemory, indexMemory, wordAt_here, wordAt_skip]

theorem rangesOfMemory_memory (r : DataRanges (BitVec 64)) :
    rangesOfMemory (rangesMemory r) = r := by
  simp [rangesOfMemory, rangesMemory, wordAt_here, wordAt_skip, wordAt_last]

namespace BinaryReader

theorem takes_readBytes (bytes : List UInt8) : Takes (readBytes bytes.length) bytes bytes := by
  intro rest
  rw [readBytes, if_pos (by simp), List.take_left, List.drop_left]

theorem takes_readObject {T : Type} {size : ℕ} (ofMemory : List UInt8 → T) {bytes : List UInt8}
    (length : bytes.length = size) : Takes (readObject size ofMemory) bytes (ofMemory bytes) := by
  subst length
  exact (takes_readBytes bytes).map ofMemory

theorem takes_readLength (len : BitVec 32) : Takes readLength (wordBytes 4 len) len := by
  have taken := takes_readObject (wordAt 32 4 0) (wordBytes_length 4 len)
  rwa [wordAt_last (by decide)] at taken

theorem takes_readVector {S T : Type} {memory : S → List UInt8} {ofMemory : List UInt8 → T}
    {value : S → T} (size : ∀ a, (memory a).length = 24)
    (back : ∀ a, ofMemory (memory a) = value a) {v : List S} (short : v.length * 24 < 2 ^ 32) :
    Takes (readVector ofMemory) (vectorBytes memory v) (v.map value) := by
  have one : ∀ a, Takes (readObject 24 ofMemory) (memory a) (value a) := by
    intro a
    rw [← back]
    exact takes_readObject ofMemory (size a)
  have len : (BitVec.ofNat 32 (v.length * 24)).toNat = v.length * 24 := by
    rw [BitVec.toNat_ofNat, Nat.mod_eq_of_lt short]
  intro rest
  rw [vectorBytes, List.append_assoc, readVector, takes_readLength, Outcome.ret_bind]
  dsimp only
  rw [len, Outcome.assert_of (Nat.mul_mod_left ..), Outcome.ret_bind,
    Nat.mul_div_cancel _ (by decide)]
  exact Takes.times one v rest

theorem takes_readText {text : Text} (short : text.length < 2 ^ 32) :
    Takes readText (textBytes text) text := by
  have len : (BitVec.ofNat 32 text.length).toNat = text.length := by
    rw [BitVec.toNat_ofNat, Nat.mod_eq_of_lt short]
  intro rest
  rw [readText, textBytes, List.append_assoc, takes_readLength, Outcome.ret_bind]
  dsimp only
  rw [len, List.append_assoc, takes_readBytes, Outcome.ret_bind]
  dsimp only
  have skip : Tile.writeStringLength text.length -
      ((wordBytes 4 (BitVec.ofNat 32 text.length) ++
        (text ++ (List.replicate (pad text.length) 0 ++ rest))).length -
        (List.replicate (pad text.length) 0 ++ rest).length) =
      (List.replicate (pad text.length) (0 : UInt8)).length := by
    simp only [List.length_append, wordBytes_length, List.length_replicate, pad]
    omega
  rw [skip, skipBytes, if_pos (by simp), Outcome.ret_bind, List.drop_left]

/-- Every text is cut out of the whole again; `offset` is where the rest of the samples start. -/
theorem composeStringSamples_decompose {text front : Text} (padding : ℕ → BitVec 32) (i : ℕ)
    (samples : List (MachineSample Text)) (whole : text = front ++ Tile.text samples)
    (short : text.length < 2 ^ 32) :
    composeStringSamples text ((decomposeIndexes padding i (BitVec.ofNat 32 front.length)
      samples).map Prod.fst) = .ret samples := by
  induction samples generalizing front i with
  | nil => rfl
  | cons s samples ih =>
      have next : text = (front ++ s.value) ++ Tile.text samples := by
        rw [whole, List.append_assoc]
        rfl
      have size := congrArg List.length next
      simp only [List.length_append] at size
      have here : (BitVec.ofNat 32 front.length).toNat = front.length := by
        rw [BitVec.toNat_ofNat, Nat.mod_eq_of_lt (by omega)]
      have step : BitVec.ofNat 32 front.length + BitVec.ofNat 32 s.value.length =
          BitVec.ofNat 32 (front ++ s.value).length := by
        rw [List.length_append, BitVec.ofNat_add]
      -- the index of the next sample, or the end of the text
      have stop : (match ((decomposeIndexes padding (i + 1)
            (BitVec.ofNat 32 (front ++ s.value).length) samples).map Prod.fst) with
          | [] => BitVec.ofNat 32 text.length
          | next :: _ => next.value) = BitVec.ofNat 32 (front ++ s.value).length := by
        cases samples with
        | nil =>
            rw [next]
            exact congrArg (fun t => BitVec.ofNat 32 (List.length t)) (List.append_nil _)
        | cons u samples => rfl
      have length : (BitVec.ofNat 32 (front ++ s.value).length -
          BitVec.ofNat 32 front.length).toNat = s.value.length := by
        rw [← step, BitVec.add_comm, BitVec.add_sub_cancel, BitVec.toNat_ofNat,
          Nat.mod_eq_of_lt (by omega)]
      have cut : (text.drop front.length).take s.value.length = s.value := by
        rw [next, List.append_assoc, List.drop_left, List.take_left]
      rw [decomposeIndexes, step, List.map_cons, composeStringSamples.eq_def]
      dsimp only
      rw [stop, here, if_neg (by omega), length, cut, Outcome.ret_bind, ih (i + 1) next]
      rfl

theorem takes_readStrings (padding : ℕ → BitVec 32) {samples : List (MachineSample Text)}
    (short : samples.length * 24 < 2 ^ 32) (shortText : (Tile.text samples).length < 2 ^ 32) :
    Takes readStrings (stringsBytes padding samples) samples := by
  have few : (decomposeIndexes padding 0 0 samples).length * 24 < 2 ^ 32 := by
    rwa [decomposeIndexes_length]
  have indexes := takes_readVector indexMemory_length indexOfMemory_memory few
  intro rest
  rw [readStrings, stringsBytes, List.append_assoc, indexes, Outcome.ret_bind]
  dsimp only
  rw [takes_readText shortText, Outcome.ret_bind]
  dsimp only
  have composed := composeStringSamples_decompose padding 0 samples
    (List.nil_append (Tile.text samples)).symm shortText
  change composeStringSamples _ ((decomposeIndexes padding 0 0 samples).map Prod.fst) = _ at composed
  rw [composed]
  rfl

end BinaryReader

namespace Tile

open BinaryReader

variable {t : MachineTile}

theorem fromBinary_doubles (short : t.doubleSamples.length * 24 < 2 ^ 32) (into : MachineTile)
    (rest : List UInt8) :
    into.fromBinary (t.doublesBytes ++ rest) = (do
      let (stringSamples, src) ← if rest ≠ [] then BinaryReader.readStrings rest else .ret ([], rest)
      let (ranges, _) ← if src ≠ [] then BinaryReader.readObject 32 rangesOfMemory src
        else .ret (machineClear, src)
      .ret ⟨t.header, ranges, t.doubleSamples, stringSamples⟩) := by
  have header := takes_readObject Header.ofMemory (Header.memory_length t.header)
  have doubles := takes_readVector doubleMemory_length doubleOfMemory_memory short
  rw [Header.ofMemory_memory] at header
  rw [List.map_id'] at doubles
  rw [fromBinary, doublesBytes, List.append_assoc, header, Outcome.ret_bind]
  dsimp only
  rw [doubles, Outcome.ret_bind]

/-- The writer fills exactly `binary_length` bytes; they, and their prefixes up to the end of the
double samples and of the string samples, restore into any tile what they hold. -/
def RoundTrips (t : MachineTile) (padding : ℕ → BitVec 32) (dest : List UInt8) : Prop :=
  ∃ src, t.write padding ⟨[], resize dest t.binaryLength⟩ = .ret ⟨src, []⟩ ∧
    t.toBinary padding dest = .ret src ∧ src.length = t.binaryLength ∧
    ∀ into : MachineTile, into.fromBinary src = .ret t ∧
      into.fromBinary (src.take (8 + (4 + 24 * t.doubleSamples.length))) =
        .ret { t with stringSamples := [], ranges := machineClear } ∧
      into.fromBinary (src.take (8 + (4 + 24 * t.doubleSamples.length) +
          (4 + 24 * t.stringSamples.length + writeStringLength (text t.stringSamples).length))) =
        .ret { t with ranges := machineClear }

theorem binary_round_trip (short : t.doubleSamples.length * 24 < 2 ^ 32)
    (shortStrings : t.stringSamples.length * 24 < 2 ^ 32)
    (shortText : (text t.stringSamples).length < 2 ^ 32) (padding : ℕ → BitVec 32)
    (dest : List UInt8) : t.RoundTrips padding dest := by
  have size : (t.bytes padding).length = t.binaryLength := t.bytes_length padding
  have room : (resize dest t.binaryLength).length = (t.bytes padding).length := by
    rw [size, resize, List.length_append, List.length_take, List.length_replicate]
    omega
  have written := (t.puts_write padding).fills room
  have strings := takes_readStrings padding shortStrings shortText
  have ranges := takes_readObject rangesOfMemory (rangesMemory_length t.ranges)
  rw [rangesOfMemory_memory] at ranges
  have doublesLength : t.doublesBytes.length = 8 + (4 + 24 * t.doubleSamples.length) := by
    rw [doublesBytes, List.length_append, Header.memory_length,
      vectorBytes_length doubleMemory_length]
  have stringsLength : (stringsBytes padding t.stringSamples).length =
      4 + 24 * t.stringSamples.length + writeStringLength (text t.stringSamples).length := by
    rw [stringsBytes, List.length_append, vectorBytes_length indexMemory_length,
      decomposeIndexes_length, textBytes_length]
  have some : stringsBytes padding t.stringSamples ≠ [] := by
    intro empty
    rw [empty] at stringsLength
    simp at stringsLength
    omega
  have someRanges : rangesMemory t.ranges ≠ [] := by
    intro empty
    cases (congrArg List.length empty).symm.trans (rangesMemory_length t.ranges)
  refine ⟨t.bytes padding, written, ?_, size, fun into => ⟨?_, ?_, ?_⟩⟩
  · rw [toBinary, written]
    exact congrArg Outcome.ret (List.append_nil _)
  · rw [bytes, fromBinary_doubles short, if_pos (by simp [some]), strings, Outcome.ret_bind]
    dsimp only
    rw [if_pos someRanges, ranges.last]
    rfl
  · rw [bytes, ← doublesLength, List.take_left, ← List.append_nil t.doublesBytes,
      fromBinary_doubles short]
    rfl
  · rw [bytes, ← doublesLength, ← stringsLength, ← List.append_assoc, ← List.length_append,
      List.take_left, fromBinary_doubles short, if_pos some, strings.last]
    rfl

/-- An empty text between two others, one of them with a NUL. -/
theorem binary_round_trip_one :
    RoundTrips ⟨⟨magic, 0x00010000⟩, machineClear, [⟨1, 2, 1, 0⟩],
      [⟨3, [0, 65], 1, 0⟩, ⟨4, [], 1, 0⟩, ⟨5, [66], 1, 0⟩]⟩ (fun _ => 0) [] :=
  binary_round_trip (by decide) (by decide) (by decide) _ _

end Tile

end Mio.Datastore
