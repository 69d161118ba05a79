import Tendra.Ref.Tld.Tdf

/-!
# The two halves of a byte: `tld/src/adt/tdf-write.c`, `tdf-read.c`

A writer and a reader each keep the byte that they are in, and whether they are at a new one. A
reader reads from a file, through a `bistream`, or from a string. `fread` gives as much of a file
as is there.
-/

namespace Tendra.Ref.Tld

/-- `TDFWriterT`, with what was written. -/
structure TDFWriter where
  output : NString
  byte : BitVec 8
  newByte : Bool

namespace TDFWriter

/-- `tdf_writer_open`; what the byte is at first is not written. -/
def writerOpen (garbage : BitVec 8) : TDFWriter := ⟨[], garbage, true⟩

/-- `tdf_write_nibble`. -/
def writeNibble (nibble : BitVec 32) (w : TDFWriter) : TDFWriter :=
  if w.newByte then { w with newByte := false, byte := ((nibble &&& 0x0f) <<< 4).setWidth 8 }
  else
    let byte := w.byte ||| (nibble &&& 0x0f).setWidth 8
    ⟨w.output ++ [byte], byte, true⟩

theorem shiftRight_lt {tmp : BitVec 32} (h : tmp &&& ~~~0x07 ≠ 0) :
    (tmp >>> 3).toNat < tmp.toNat := by
  have hpos : tmp.toNat ≠ 0 := fun hzero => h (by
    rw [show tmp = 0 from BitVec.eq_of_toNat_eq hzero]
    rfl)
  rw [BitVec.toNat_ushiftRight, Nat.shiftRight_eq_div_pow]
  omega

/-- The loop of `tdf_write_int` that counts the digits behind the first one. -/
def shiftOf (tmp : BitVec 32) : Nat :=
  if _h : tmp &&& ~~~0x07 ≠ 0 then shiftOf (tmp >>> 3) + 1 else 0
termination_by tmp.toNat
decreasing_by exact shiftRight_lt _h

/-- The loop of `tdf_write_int` that writes all digits but the last one. -/
def writeDigits (value : BitVec 32) : Nat → TDFWriter → TDFWriter
  | 0, w => w
  | shift + 1, w =>
      writeDigits value shift (w.writeNibble ((value >>> (3 * (shift + 1))) &&& 0x07))

/-- `tdf_write_int`. -/
def writeInt (value : BitVec 32) (w : TDFWriter) : TDFWriter :=
  (writeDigits value (shiftOf value) w).writeNibble ((value &&& 0x07) ||| 0x08)

/-- `tdf_write_align`. -/
def writeAlign (w : TDFWriter) : TDFWriter :=
  if w.newByte then w else { w with output := w.output ++ [w.byte], newByte := true }

/-- `bostream_write_chars`. -/
def writeChars (s : NString) (w : TDFWriter) : TDFWriter := { w with output := w.output ++ s }

/-- `tdf_write_bytes`. -/
def writeBytes (s : NString) (w : TDFWriter) : TDFWriter := w.writeAlign.writeChars s

/-- `tdf_write_string`. -/
def writeString (s : NString) (w : TDFWriter) : TDFWriter :=
  ((w.writeInt 8).writeInt (BitVec.ofNat 32 s.length)).writeBytes s

/-- `tdf_write_name`; the components are counted by an `unsigned`. -/
def writeName (k : NameKey) (w : TDFWriter) : TDFWriter :=
  match k with
  | .string s => ((w.writeNibble (1 <<< 2)).writeAlign).writeString s
  | .unique ss =>
      let components := BitVec.ofNat 32 ss.length
      let w := ((w.writeNibble (2 <<< 2)).writeAlign).writeInt components
      (ss.take components.toNat).foldl (fun w s => w.writeString s) w

/-- `tdf_writer_close`. -/
def writerClose (w : TDFWriter) : NString := w.writeAlign.output

end TDFWriter

/-- `ReaderTypeT` and the union `u`: what is left of the file with the count of `BIStreamT`, or a
string with the places in it, of which `current` never comes behind `limit`. -/
inductive Source
  | stream (file : NString) (bytes : Nat)
  | string (contents : NString) (current limit byte : Nat) (le : current ≤ limit)

/-- `TDFReaderT`, without the name. -/
structure TDFReader where
  source : Source
  byte : BitVec 8
  newByte : Bool

/-- What is wrong with the TDF that is read. -/
inductive TdfFault
  | unexpectedEof
  | tooLarge
  | charSize (size : BitVec 32)
  | nameType (type : BitVec 32)
  | expectedEof
deriving DecidableEq

/-- The texts of the errors. -/
def TdfFault.message : TdfFault → String
  | .unexpectedEof => "unexpected end of file"
  | .tooLarge => "TDF integer is too large for this machine"
  | .charSize size =>
      "string character size " ++ toString size.toNat ++ " is not supported on this machine"
  | .nameType type => "name type " ++ toString type.toNat ++ " is unknown"
  | .expectedEof => "expected end of file"

/-- An error, with the number of the byte. -/
structure TdfError where
  byte : BitVec 32
  fault : TdfFault
deriving DecidableEq

namespace Source

/-- `*current` of a string. -/
def char (contents : NString) (i : Nat) : BitVec 8 := contents.getD i 0

/-- What a source has left. -/
def rest : Source → NString
  | .stream file _ => file
  | .string contents current limit _ _ =>
      (List.range' current (limit - current)).map (char contents)

/-- `tdf_reader_byte`, as an `unsigned`. -/
def readerByte : Source → BitVec 32
  | .stream _ bytes => BitVec.ofNat 32 bytes
  | .string _ _ _ byte _ => BitVec.ofNat 32 byte

/-- `bistream_read_byte`, and the same for a string. -/
def readByte : Source → Option (BitVec 8 × Source)
  | .stream [] _ => none
  | .stream (b :: file) bytes => some (b, .stream file (bytes + 1))
  | .string contents current limit byte _ =>
      if h : current < limit then
        some (char contents current, .string contents (current + 1) limit (byte + 1) h)
      else none

/-- The `switch` of `tdf_read_bytes`. -/
def readBytes (length : Nat) : Source → Except TdfError (NString × Source)
  | .stream file bytes =>
      let chars := file.take length
      let source := .stream (file.drop length) (bytes + chars.length)
      if chars.length ≠ length then .error ⟨readerByte source, .unexpectedEof⟩
      else .ok (chars, source)
  | .string contents current limit byte _ =>
      if h : current + length > limit then .error ⟨BitVec.ofNat 32 byte, .unexpectedEof⟩
      else .ok ((List.range' current length).map (char contents),
        .string contents (current + length) limit (byte + length) (Nat.le_of_not_gt h))

theorem readByte_eq_none {s : Source} (h : s.readByte = none) : s.rest = [] := by
  cases s with
  | stream file bytes =>
      cases file with
      | nil => rfl
      | cons => cases h
  | string contents current limit byte le =>
      rw [readByte] at h
      split at h
      · cases h
      · next hle => rw [rest, Nat.sub_eq_zero_of_le (Nat.le_of_not_lt hle)]; rfl

theorem readByte_eq_some {s t : Source} {b : BitVec 8} (h : s.readByte = some (b, t)) :
    s.rest = b :: t.rest := by
  cases s with
  | stream file bytes =>
      cases file with
      | nil => cases h
      | cons => cases h; rfl
  | string contents current limit byte le =>
      rw [readByte] at h
      split at h
      · next hlt =>
          cases h
          rw [rest, rest, show limit - current = (limit - (current + 1)) + 1 from by omega,
            List.range'_succ]
          rfl
      · cases h

end Source

namespace TDFReader

/-- `tdf_reader_open`. -/
def readerOpen (file : NString) (garbage : BitVec 8) : TDFReader :=
  ⟨.stream file 0, garbage, true⟩

/-- `tdf_reader_open_string`. -/
def readerOpenString (bytes : NString) (garbage : BitVec 8) : TDFReader :=
  ⟨.string bytes 0 bytes.length 0 (Nat.zero_le _), garbage, true⟩

/-- The error that is thrown for a fault. -/
def error (fault : TdfFault) (r : TDFReader) : TdfError := ⟨r.source.readerByte, fault⟩

/-- `tdf_read_nibble`. -/
@[grind =] def readNibble (r : TDFReader) : Except TdfError (BitVec 32 × TDFReader) :=
  if r.newByte then
    match r.source.readByte with
    | none => .error (r.error .unexpectedEof)
    | some (byte, source) => .ok ((byte.setWidth 32 >>> 4) &&& 0x0f, ⟨source, byte, false⟩)
  else .ok (r.byte.setWidth 32 &&& 0x0f, { r with newByte := true })

/-- How many nibbles there are to read. -/
def nibblesLeft (r : TDFReader) : Nat := 2 * r.source.rest.length + if r.newByte then 0 else 1

theorem readNibble_lt {r t : TDFReader} {nibble : BitVec 32} (h : r.readNibble = .ok (nibble, t)) :
    t.nibblesLeft < r.nibblesLeft := by
  rw [readNibble] at h
  rw [nibblesLeft, nibblesLeft]
  split at h
  · next hnew =>
      split at h
      · cases h
      · next byte source hsource =>
          cases h
          rw [Source.readByte_eq_some hsource, hnew, List.length_cons]
          simp
          omega
  · next hnew =>
      cases h
      simp [hnew]

/-- The loop of `tdf_read_int`. -/
def readIntLoop (value : BitVec 32) (r : TDFReader) : Except TdfError (BitVec 32 × TDFReader) :=
  match _h : r.readNibble with
  | .error e => .error e
  | .ok (nibble, r) =>
      if 0xffffffff#32 >>> 3 < value then .error (r.error .tooLarge)
      else
        let value := (value <<< 3) ||| (nibble &&& 0x7)
        if nibble &&& 0x8 ≠ 0 then .ok (value, r) else readIntLoop value r
termination_by r.nibblesLeft
decreasing_by exact readNibble_lt _h

/-- What is read, and the reader after it. -/
abbrev ReadM := StateT TDFReader (Except TdfError)

/-- `tdf_read_int`. -/
def readInt : ReadM (BitVec 32) := readIntLoop 0

/-- `tdf_read_align`. -/
def readAlign : ReadM Unit := fun r => .ok ((), { r with newByte := true })

/-- `tdf_read_bytes`, into an `NStringT` of a length. -/
def readBytes (length : Nat) : ReadM NString := fun r =>
  (r.source.readBytes length).map fun res => (res.1, ⟨res.2, r.byte, true⟩)

/-- An error of the reader as it is then. -/
def fail {α : Type} (fault : TdfFault) : ReadM α := fun r => .error (r.error fault)

/-- `tdf_read_string`. -/
def readString : ReadM NString := do
  let size ← readInt
  if size ≠ 8 then fail (.charSize size)
  else
    let length ← readInt
    readBytes length.toNat

/-- A loop of so many turns that keeps what each of them gives. -/
def repeatM {α : Type} (m : ReadM α) : Nat → ReadM (List α)
  | 0 => pure []
  | n + 1 => do
      let a ← m
      let as ← repeatM m n
      pure (a :: as)

/-- `tdf_read_name`. -/
def readName : ReadM NameKey := do
  let nibble ← readNibble
  let type := (nibble >>> 2) &&& 0x3
  readAlign
  if type = 1 then
    let s ← readString
    pure (.string s)
  else if type = 2 then
    let components ← readInt
    let ss ← repeatM readString components.toNat
    pure (.unique ss)
  else fail (.nameType type)

/-- `tdf_read_eof`. -/
def readEof (r : TDFReader) : Except TdfError Unit :=
  match r.source with
  | .stream file bytes =>
      match (Source.stream file bytes).readByte with
      | none => .ok ()
      | some (_, source) => .error ⟨source.readerByte, .expectedEof⟩
  | .string _ current limit _ _ => if current < limit then .error (r.error .expectedEof) else .ok ()

end TDFReader

end Tendra.Ref.Tld
