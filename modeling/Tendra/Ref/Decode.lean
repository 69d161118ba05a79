import Tendra.Ref.Bitstream

/-!
# The bitstream reader: `libtdf/src/decode.c`, `end_bitstream`

A `BITSTREAM` that is read has one chunk, which is filled from the file when it is
used up; `size` is the number of bytes that it has been filled with. The file is what
is left of it.

The local variable `sz` of `de_bits` has no value before the first refill. The model
takes it from `junk`, for each call another one; the number of the call is kept with
the stream.
-/

namespace Tendra.Ref

/-- The fields of a `BITSTREAM` that the reader uses; `link` is set at the end of the
file. -/
structure Decoder where
  text : Text
  bytes : Nat
  bits : Nat
  size : Nat
  link : Bool
  file : List (BitVec 8)
  calls : Nat
deriving DecidableEq, Repr

namespace Decoder

/-- `start_bitstream`. -/
def start (text : Text) (f : List (BitVec 8)) : Decoder := ⟨text, 0, 0, 0, false, f, 0⟩

/-- `fill_bitstream`. What is not overwritten stays in the text. -/
def fill (bs : Decoder) : Decoder :=
  let got := bs.file.take chunkSize
  if got.length = 0 then
    { bs with text := Vector.replicate chunkSize 0xff, size := chunkSize, link := true }
  else
    { bs with
      text := Vector.ofFn fun i : Fin chunkSize => got[i.val]?.getD bs.text[i.val]
      size := got.length
      file := bs.file.drop chunkSize }

/-- The local variables of `de_bits`. -/
structure Locals where
  bs : Decoder
  bytes : Nat
  bits : Nat
  sz : Nat
  d : Nat
  m : Nat

/-- The refill at the start of a turn. -/
def Locals.refill (s : Locals) : Locals :=
  if s.bytes ≥ s.sz then
    let bs := s.bs.fill
    { s with bs := bs, sz := bs.size, bytes := 0, bits := 0 }
  else s

/-- The rest of a turn: one more byte. -/
def Locals.next (w : Nat) (s : Locals) : Locals :=
  let c := (s.bs.text[s.bytes]?.getD 0).toNat
  let d := s.d <<< byteSize % 2 ^ w ||| c
  let b := byteSize - s.bits
  let s :=
    if s.m < b then { s with d := d >>> (b - s.m), bits := s.bits + s.m, m := 0 }
    else { s with d := d, bits := s.bits + b, m := s.m - b }
  if s.bits = byteSize then { s with bits := 0, bytes := s.bytes + 1 } else s

/-- The loop of `de_bits`. A turn takes a bit at least, so `m` turns are enough. -/
def Locals.loop (w : Nat) : Nat → Locals → Locals
  | 0, s => s
  | k + 1, s => if s.m = 0 then s else loop w k (s.refill.next w)

variable (w : Nat) (junk : Nat → Nat)

/-- The local variables at the start of the loop. -/
def locals (bs : Decoder) (n : Nat) : Locals :=
  ⟨bs, bs.bytes, 0, junk bs.calls, 0, n + bs.bits⟩

/-- `de_bits`, for `n` up to 16. -/
def deBits (bs : Decoder) (n : Nat) : Decoder × Nat :=
  let s := (bs.locals junk n).loop w (n + bs.bits)
  ({ s.bs with bytes := s.bytes, bits := s.bits, calls := bs.calls + 1 }, s.d &&& 2 ^ n - 1)

/-- The loop of `de_int`, with a bound on the number of digits. -/
def deDigits : Nat → Nat → Decoder → Option (Decoder × Nat)
  | 0, _, _ => none
  | fuel + 1, n, bs =>
      let res := bs.deBits w junk 4
      if res.2 &&& 0x8 ≠ 0 then some (res.1, n <<< 3 % 2 ^ w ||| res.2 &&& 0x7)
      else deDigits fuel (n <<< 3 % 2 ^ w ||| res.2) res.1

/-- `de_int`. -/
def deInt (fuel : Nat) (bs : Decoder) : Option (Decoder × Nat) := deDigits w junk fuel 0 bs

/-- `de_boundary`. -/
def deBoundary (bs : Decoder) : Decoder :=
  if bs.bits ≠ 0 then (bs.deBits w junk (byteSize - bs.bits)).1 else bs

end Decoder

/-! ## Sequences of values -/

/-- One call of the writer, or the corresponding one of the reader: `enc_bits`, `enc_int`
and `enc_boundary`. -/
inductive Field
  | bits (n d : Nat)
  | int (n : Nat)
  | boundary
deriving DecidableEq, Repr

variable (w : Nat)

def Field.encode (junk : Nat → Text) (bs : Bitstream) : Field → Option Bitstream
  | .bits n d => bs.encBits w junk n d
  | .int n => bs.encInt w junk n
  | .boundary => bs.encBoundary w junk

/-- The value that is read, if there is one. -/
def Field.decode (junk : Nat → Nat) (fuel : Nat) (bs : Decoder) :
    Field → Option (Decoder × Option Nat)
  | .bits n _ =>
      let res := bs.deBits w junk n
      some (res.1, some res.2)
  | .int _ => (bs.deInt w junk fuel).map fun res => (res.1, some res.2)
  | .boundary => some (bs.deBoundary w junk, none)

def encodeAll (junk : Nat → Text) : List Field → Bitstream → Option Bitstream
  | [], bs => some bs
  | f :: fs, bs => do
      let bs ← f.encode w junk bs
      encodeAll junk fs bs

/-- `end_bitstream` on a stream that is written: the file that is left. -/
def Bitstream.close (junk : Nat → Text) (bs : Bitstream) : Option (List (BitVec 8)) := do
  let bs ← bs.encBoundary w junk
  let bs ← bs.dump
  bs.file

/-- A file with some values. -/
def encodeFile (junk : Nat → Text) (text : Text) (fs : List Field) : Option (List (BitVec 8)) := do
  let bs ← encodeAll w junk fs (Bitstream.start text (some []) none)
  bs.close w junk

def decodeAll (junk : Nat → Nat) (fuel : Nat) : List Field → Decoder → Option (List (Option Nat))
  | [], _ => some []
  | f :: fs, bs => do
      let res ← f.decode w junk fuel bs
      let vals ← decodeAll junk fuel fs res.1
      return res.2 :: vals

end Tendra.Ref
