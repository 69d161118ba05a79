import Mathlib.Init

/-!
# Reading and writing TDF: `tld/src/adt/tdf-read.c`, `tdf-write.c`, `name-key.c`

A file is read nibble by nibble, the high one of a byte first, and a reader that is at a new byte
has an even number of nibbles left. A writer is the nibbles that it has written. There is no
result where the source reports an error.
-/

namespace Tendra.Ref.Tld

/-- `NStringT`. -/
abbrev NString := List (BitVec 8)

/-- `NameKeyT`. -/
inductive NameKey
  | string (s : NString)
  | unique (components : List NString)
deriving DecidableEq

/-- `UINT_MAX`. -/
abbrev uintMax : Nat := 0xffffffff

/-- `TDFReaderT`: the bytes of the file, and the nibbles that are left. -/
structure Reader where
  size : Nat
  nibbles : List Nat
deriving DecidableEq

/-- The nibbles of bytes. -/
def nibblesOf (s : NString) : List Nat := s.flatMap fun b => [b.toNat / 16, b.toNat % 16]

/-- The bytes of nibbles, as many as are complete. -/
def bytesOf : List Nat → NString
  | hi :: lo :: r => BitVec.ofNat 8 (hi * 16 + lo) :: bytesOf r
  | _ => []

/-- `tdf_reader_open_string`. -/
def tdfReaderOpen (contents : NString) : Reader := ⟨contents.length, nibblesOf contents⟩

/-- What is read, and the reader after it. -/
abbrev Read := StateT Reader Option

/-- `tdf_read_nibble`. -/
def tdfReadNibble : Read Nat := fun r =>
  match r.nibbles with
  | [] => none
  | nibble :: rest => some (nibble, { r with nibbles := rest })

/-- `tdf_reader_byte`: a byte is counted when it is begun. -/
def Reader.byte (r : Reader) : Nat := r.size - r.nibbles.length / 2

/-- The loop of `tdf_read_int`. -/
def readInt : Nat → List Nat → Option (Nat × List Nat)
  | _, [] => none
  | value, nibble :: r =>
      if uintMax / 8 < value then none
      else
        let value := value * 8 + nibble % 8
        if nibble / 8 % 2 = 1 then some (value, r) else readInt value r

/-- `tdf_read_int`. -/
def tdfReadInt : Read Nat := fun r =>
  (readInt 0 r.nibbles).map fun res => (res.1, { r with nibbles := res.2 })

/-- The second nibble of a byte is left out. -/
def alignNibbles (ns : List Nat) : List Nat := if ns.length % 2 = 0 then ns else ns.tail

/-- `tdf_read_align`. -/
def tdfReadAlign : Read Unit := fun r => some ((), { r with nibbles := alignNibbles r.nibbles })

/-- `tdf_read_bytes`, of so many. -/
def tdfReadBytes (length : Nat) : Read NString := fun r =>
  let ns := alignNibbles r.nibbles
  if ns.length < 2 * length then none
  else some (bytesOf (ns.take (2 * length)), { r with nibbles := ns.drop (2 * length) })

/-- `tdf_read_string`. -/
def tdfReadString : Read NString := do
  let size ← tdfReadInt
  guard (size = 8)
  let length ← tdfReadInt
  tdfReadBytes length

/-- A loop of so many turns that keeps what each of them gives. -/
def repeatRead {α : Type} (m : Read α) : Nat → Read (List α)
  | 0 => pure []
  | n + 1 => do
      let a ← m
      let as ← repeatRead m n
      pure (a :: as)

/-- `tdf_read_name`. -/
def tdfReadName : Read NameKey := do
  let nibble ← tdfReadNibble
  tdfReadAlign
  match nibble / 4 % 4 with
  | 1 => do
      let s ← tdfReadString
      pure (.string s)
  | 2 => do
      let components ← tdfReadInt
      let ss ← repeatRead tdfReadString components
      pure (.unique ss)
  | _ => failure

/-- `tdf_read_eof`. -/
def tdfReadEof : Read Unit := fun r => if r.nibbles.length < 2 then some ((), r) else none

end Tendra.Ref.Tld
