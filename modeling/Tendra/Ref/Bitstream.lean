import Tendra.Lib.Bits

/-!
# The bitstream writer: `libtdf/src/encode.c`, `libtdf/src/bitstream.c`

A `BITSTREAM` is a chain of chunks of 64 bytes, newest first, of which the newest
is written to. A stream with a file has a single chunk, which is written out when
it is full; a stream without one starts a new chunk. The model keeps the file with
the chain, as the bytes that have been written to it.

`unsigned` has 32 bits; `unsigned long` has `w` bits, which the language promises
to be at least 32. The text of a new chunk is whatever the allocator returns, a
recycled text included: `junk` gives it for the chunk at a place in the chain. A
failed assertion stops the run.
-/

namespace Tendra.Ref

/-- `BYTE_SIZE`. -/
abbrev byteSize : Nat := 8

/-- `CHUNK_SIZE`. -/
abbrev chunkSize : Nat := 64

/-- `CHUNK_COPY`. -/
abbrev chunkCopy : Nat := 8

abbrev Text := Vector (BitVec 8) chunkSize

/-- The fields of one `BITSTREAM` that the writer uses. -/
structure Chunk where
  text : Text
  bytes : Nat
  bits : Nat
  link : Option Nat
deriving DecidableEq, Repr

/-- A chain of chunks: the newest, the older ones, and the file of the newest. -/
structure Bitstream where
  cur : Chunk
  prev : List Chunk
  file : Option (List (BitVec 8))
deriving DecidableEq, Repr

namespace Bitstream

variable (w : Nat) (junk : Nat → Text)

/-- `start_bitstream`. -/
def start (text : Text) (f : Option (List (BitVec 8))) (lnk : Option Nat) : Bitstream :=
  ⟨⟨text, 0, 0, lnk⟩, [], f⟩

/-- `dump_bitstream` on one chunk: the chunk that is left, and the bytes that go to
the file. -/
def dumpChunk (c : Chunk) : Option (Chunk × List (BitVec 8)) :=
  if c.bytes = 0 then some (c, [])
  else
    let out := c.text.toList.take c.bytes
    if c.bytes < chunkSize then
      some ({ c with text := c.text.setIfInBounds 0 (c.text[c.bytes]?.getD 0), bytes := 0 }, out)
    else if c.bytes = chunkSize ∧ c.bits = 0 then some ({ c with bytes := 0 }, out)
    else none

/-- `dump_bitstream`. Without a file the bytes are lost. -/
def dump (bs : Bitstream) : Option Bitstream := do
  let (cur, out) ← dumpChunk bs.cur
  return { bs with cur := cur, file := bs.file.map (· ++ out) }

/-- `extend_bitstream`. -/
def extend (bs : Bitstream) : Option Bitstream :=
  let bs := { bs with cur := { bs.cur with bytes := chunkSize, bits := 0 } }
  if bs.file.isSome then bs.dump
  else some ⟨⟨junk (bs.prev.length + 1), 0, 0, bs.cur.link⟩, bs.cur :: bs.prev, none⟩

/-- Stores a byte in the newest chunk. -/
def poke (bs : Bitstream) (i : Nat) (b : BitVec 8) : Bitstream :=
  { bs with cur := { bs.cur with text := bs.cur.text.setIfInBounds i b } }

/-- The start of a chunk if there is no room in this one; `bytes` is the local
variable of the callers, which is stored back at their end. -/
def room (bs : Bitstream) (bytes : Nat) : Option (Bitstream × Nat) :=
  if bytes ≥ chunkSize then do
    let bs ← bs.extend junk
    return (bs, 0)
  else some (bs, bytes)

/-- The loop of `enc_bits`: `k` bytes of `b` remain. -/
def putBytes (b : Nat) : Nat → Bitstream → Nat → Option (Bitstream × Nat)
  | 0, bs, bytes => some (bs, bytes)
  | k + 1, bs, bytes => do
      let (bs, bytes) ← bs.room junk bytes
      putBytes b k (bs.poke bytes (BitVec.ofNat 8 (b >>> (byteSize * k)))) (bytes + 1)

/-- `enc_bits`. -/
def encBits (bs : Bitstream) (n d : Nat) : Option Bitstream :=
  if n > 16 then none
  else if n = 0 then some bs
  else if bs.cur.bits ≠ 0 ∧ bs.cur.bytes ≥ chunkSize then none
  else do
    let b := d % 2 ^ 32
    -- move existing odd bits to `b`
    let c := (bs.cur.text[bs.cur.bytes]?.getD 0).toNat
    let b := if bs.cur.bits ≠ 0 then b ||| (c >>> (byteSize - bs.cur.bits)) <<< n else b
    let n := if bs.cur.bits ≠ 0 then n + bs.cur.bits else n
    -- zero pad to a whole number of bytes
    let bits := n % byteSize
    let b := if bits ≠ 0 then b <<< (byteSize - bits) % 2 ^ w else b
    let n := if bits ≠ 0 then n + (byteSize - bits) else n
    let (bs, bytes) ← putBytes junk b (n / byteSize) bs bs.cur.bytes
    let bytes := if bits ≠ 0 then bytes - 1 else bytes
    return { bs with cur := { bs.cur with bytes := bytes, bits := bits } }

/-- `enc_extn`. With packets of no bits the loop does not end. -/
def encExtn (bs : Bitstream) (n d : Nat) : Option Bitstream :=
  if hmore : (1 <<< n) - 1 < d then
    if hzero : (1 <<< n) - 1 = 0 then none
    else do
      let bs ← bs.encBits w junk n 0
      encExtn bs n (d - ((1 <<< n) - 1))
  else bs.encBits w junk n d
termination_by d
decreasing_by omega

/-- `enc_long_bits`. The low half is passed on without a mask. -/
def encLongBits (bs : Bitstream) (n d : Nat) : Option Bitstream :=
  if n > 16 then do
    let bs ← bs.encBits w junk (n - 16) (d >>> 16)
    bs.encBits w junk 16 d
  else bs.encBits w junk n d

/-- The loop of `enc_bytes` on an unaligned stream. -/
def encEach : List (BitVec 8) → Bitstream → Option Bitstream
  | [], bs => some bs
  | c :: s, bs => do
      let bs ← bs.encBits w junk byteSize c.toNat
      encEach s bs

/-- The loop of `enc_bytes` on an aligned stream. -/
def storeEach : List (BitVec 8) → Bitstream → Nat → Option (Bitstream × Nat)
  | [], bs, bytes => some (bs, bytes)
  | c :: s, bs, bytes => do
      let (bs, bytes) ← bs.room junk bytes
      storeEach s (bs.poke bytes c) (bytes + 1)

/-- `enc_bytes`. -/
def encBytes (bs : Bitstream) (s : List (BitVec 8)) : Option Bitstream :=
  if bs.cur.bits ≠ 0 then encEach w junk s bs
  else do
    let (bs, bytes) ← storeEach junk s bs bs.cur.bytes
    return { bs with cur := { bs.cur with bytes := bytes } }

/-- `enc_int_aux`. -/
def encIntAux (bs : Bitstream) (n : Nat) : Option Bitstream :=
  if n ≥ 8 then do
    let bs ← encIntAux bs (n >>> 3)
    bs.encBits w junk 4 (n &&& 0x7)
  else bs.encBits w junk 4 (n &&& 0x7)
termination_by n
decreasing_by
  rw [Nat.shiftRight_eq_div_pow]
  omega

/-- `enc_int`. -/
def encInt (bs : Bitstream) (n : Nat) : Option Bitstream :=
  if n ≥ 8 then do
    let bs ← encIntAux w junk bs (n >>> 3)
    bs.encBits w junk 4 (n &&& 0x7 ||| 0x8)
  else bs.encBits w junk 4 (n &&& 0x7 ||| 0x8)

/-- `length_bitstream`, an `unsigned`. -/
def length (bs : Bitstream) : Nat :=
  (bs.cur :: bs.prev).foldl (fun n c => (n + (byteSize * c.bytes + c.bits)) % 2 ^ 32) 0

/-- The first part of `copy_bitstream`: the bytes. -/
def copyBytes (fs : Bitstream) (bs : Chunk) : Option Bitstream :=
  if bs.bytes ≠ 0 then fs.encBytes w junk (bs.text.toList.take bs.bytes) else some fs

/-- The second part of `copy_bitstream`: the spare bits. -/
def copyBits (fs : Bitstream) (bs : Chunk) : Option Bitstream :=
  if bs.bits ≠ 0 then
    let c := (bs.text[bs.bytes]?.getD 0).toNat
    fs.encBits w junk bs.bits (c >>> (byteSize - bs.bits))
  else some fs

/-- `copy_bitstream`. -/
def copy (fs : Bitstream) (bs : Chunk) : Option Bitstream := do
  let fs ← copyBytes w junk fs bs
  copyBits w junk fs bs

/-- What `join_bitstreams` does with the bytes of `fs` before it dumps those of `bs`
to the same file. -/
def flush (fs : Bitstream) : Option Bitstream := if fs.cur.bytes ≠ 0 then fs.dump else some fs

/-- The case of `join_bitstreams` for one chunk and a file: whole chunks go straight
to the file if `fs` is aligned. -/
def joinChunk (fs : Bitstream) (bs : Chunk) : Option Bitstream :=
  if fs.cur.bits = 0 ∧ bs.bytes ≠ 0 then do
    let fs ← fs.flush
    let (bs, out) ← dumpChunk bs
    copy w junk { fs with file := fs.file.map (· ++ out) } bs
  else copy w junk fs bs

/-- `fs` takes the linkage of `bs` if it has none. -/
def takeLink (fs : Bitstream) (bs : Chunk) : Bitstream :=
  { fs with cur := { fs.cur with link := fs.cur.link.or bs.link } }

/-- The recursion of `join_bitstreams` along a chain, for a stream with a file. -/
def joinFile (fs : Bitstream) (bs : Chunk) : List Chunk → Option Bitstream
  | [] => joinChunk w junk (fs.takeLink bs) bs
  | ps :: prev => do
      let fs ← joinFile (fs.takeLink bs) ps prev
      joinChunk w junk fs bs

/-- `join_bitstreams` on two streams that are not null. -/
def join (fs bs : Bitstream) : Option Bitstream :=
  if fs.file.isSome then joinFile w junk fs bs.cur bs.prev
  else
    let fs := fs.takeLink bs.cur
    -- small streams are copied, larger ones linked
    if bs.prev = [] ∧ bs.cur.bytes < chunkCopy then copy w junk fs bs.cur
    else some { bs with prev := bs.prev ++ fs.cur :: fs.prev }

/-- `join_bitstreams`. -/
def joinBitstreams : Option Bitstream → Option Bitstream → Option (Option Bitstream)
  | fs, none => some fs
  | none, bs => some bs
  | some fs, some bs => (join w junk fs bs).map some

/-- `enc_boundary`. -/
def encBoundary (bs : Bitstream) : Option Bitstream :=
  let r := bs.length % byteSize
  if r ≠ 0 then bs.encBits w junk (byteSize - r) 0 else some bs

/-- `enc_bitstream`. -/
def encBitstream (bs ps : Bitstream) : Option Bitstream := do
  let bs ← bs.encInt w junk ps.length
  join w junk bs ps

end Bitstream

end Tendra.Ref
