import Tendra.Lib.Bits

/-!
# The bit reader of the installer: `trans/src/common/reader/basicread.c`

The static variables are a state that is passed on. `crt_ptr` is an offset from
`crt_line`, and `crt_line` is either `buff` or the memory of a place. Nothing is
written to that memory once it is filled, so a place has the bytes themselves. The
file is what is left of it.

`int` has 32 bits and wraps around. `unsigned long`, the type of `lsb_mask`, has `w`
bits; the result of a shift by all the bits of a type or more is anything, `wide`.
A machine is `little`-endian or big-endian. An access outside of the memory and the
call of `exit` have no result.
-/

namespace Tendra.Ref.Basicread

/-- `cppkt`: bytes per packet. -/
abbrev cppkt : Nat := 256

/-- `bppkt`: bits per packet. -/
abbrev bppkt : Nat := 8 * cppkt

/-- A value of type `int`. -/
def int (x : Int) : Int := x.bmod (2 ^ 32)

/-- `lsb_mask`. -/
def lsbMask (n : Nat) : Nat := 2 ^ n - 1

/-- `place`. -/
structure Place where
  flag : Bool
  plMem : List (BitVec 8)
  bitsOn : Int
deriving DecidableEq, Repr

/-- The static variables. There is no `crt_line` if it is `buff`. -/
structure Reader where
  crtPtr : Int
  getcodeBitposn : Nat
  crtBits : Nat
  pktIndex : Int
  tableFlag : Bool
  crtLine : Option (List (BitVec 8))
  filePkt : Int
  fpin : List (BitVec 8)
  buff : List (BitVec 8)
  currentPlace : Place
deriving DecidableEq, Repr

namespace Reader

/-- The bytes at `crt_line`. -/
def line (s : Reader) : List (BitVec 8) := s.crtLine.getD s.buff

/-- `crt_ptr == end_ptr`. -/
def atEnd (s : Reader) : Bool := s.crtLine.isNone && s.crtPtr = cppkt

/-- `read_line`. What is not overwritten stays in the buffer. -/
def readLine (complain : Bool) (s : Reader) : Option Reader :=
  let got := s.fpin.take cppkt
  if got.length = 0 ∧ complain then none
  else
    some { s with
      buff := got ++ s.buff.drop got.length
      fpin := s.fpin.drop cppkt
      pktIndex := int (s.pktIndex + 1)
      filePkt := int (s.filePkt + 1)
      crtLine := none }

/-- The test for the end of a packet in `getcode` and `new_place`. -/
def refill (s : Reader) : Option Reader :=
  if s.atEnd then (readLine true s).map fun s => { s with crtPtr := 0 } else some s

/-- `initreader`, up to `check_magic_no`. -/
def initreader (f : List (BitVec 8)) : Option Reader :=
  (readLine true {
    crtPtr := 0
    getcodeBitposn := 0
    crtBits := 0
    pktIndex := -1
    tableFlag := false
    crtLine := none
    filePkt := -1
    fpin := f
    buff := List.replicate cppkt 0
    currentPlace := ⟨false, [], 0⟩ }).map fun s => { s with crtPtr := 0 }

/-- Four bytes in memory as an `unsigned int`. -/
def word (little : Bool) (a b c d : Nat) : Nat :=
  if little then a + b <<< 8 + c <<< 16 + d <<< 24 else d + c <<< 8 + b <<< 16 + a <<< 24

/-- The assignments to `crt_bits.chars`, from the word at `crt_ptr`. -/
def fetch (little : Bool) (s : Reader) : Option Reader :=
  match s.line.drop s.crtPtr.toNat with
  | a :: b :: c :: d :: _ =>
      if s.crtPtr < 0 then none
      else
        let u := word little a.toNat b.toNat c.toNat d.toNat
        some { s with
          crtBits := word little (u >>> 24 &&& 0xff) (u >>> 16 &&& 0xff) (u >>> 8 &&& 0xff)
            (u >>> 0 &&& 0xff)
          crtPtr := s.crtPtr + 4 }
  | _ => none

variable (little : Bool) (w : Nat) (wide : Nat → Nat → Nat)

/-- The shift of an `unsigned int` to the right. -/
def shiftRight (x p : Nat) : Nat := if p < 32 then x >>> p else wide x p

/-- The shift of an `unsigned long` to the left. -/
def shiftLeft (x n : Nat) : Nat := if n < w then x <<< n % 2 ^ w else wide x n

/-- What `getcode` returns as the bits of an `int`, the counts of the shifts that it has come
to, and the state that it leaves. -/
structure Code where
  value : Nat
  counts : List Nat
  next : Reader
deriving DecidableEq, Repr

/-- `getcode`. -/
def getcode (np : Nat) (s : Reader) : Option Code :=
  if s.getcodeBitposn ≥ np then
    let p := s.getcodeBitposn - np
    some ⟨shiftRight wide s.crtBits p &&& lsbMask np, [p], { s with getcodeBitposn := p }⟩
  else do
    let p := s.getcodeBitposn
    let n := np - p
    let m := lsbMask n
    let q := shiftLeft w wide (s.crtBits &&& lsbMask p) n % 2 ^ 32
    let p := 32 - n
    let s ← s.refill
    let s ← s.fetch little
    some ⟨(q + (shiftRight wide s.crtBits p &&& m)) % 2 ^ 32, [n, 24, 16, 8, 0, p],
      { s with getcodeBitposn := p }⟩

/-- The loop of `get_big_code`, with a bound on the number of packets. -/
def bigCodes (n : Nat) : Nat → Int → Reader → Option (Int × Reader)
  | 0, _, _ => none
  | fuel + 1, res, s => do
      let t ← getcode little w wide n s
      if t.value = 0 then bigCodes n fuel (int (res + lsbMask n)) t.next
      else some (int (res + t.value), t.next)

/-- `get_big_code`. -/
def getBigCode (fuel n : Nat) (s : Reader) : Option (Int × Reader) :=
  bigCodes little w wide n fuel 0 s

/-- `keep_place`. `pl_mem` is only set with the flag. -/
def keepPlace (s : Reader) : Place :=
  let bitsOn := int (int (s.crtPtr * 8) - s.getcodeBitposn)
  if s.tableFlag then ⟨true, s.line, bitsOn⟩
  else ⟨false, [], int (bitsOn + int (s.pktIndex * bppkt))⟩

/-- Calls of `read_line`. -/
def readLines : Nat → Reader → Option Reader
  | 0, s => some s
  | k + 1, s => do
      let s ← readLine false s
      readLines k s

/-- The line and the word of `set_place`. The loop comes to `new_pi` after as many turns as it is
away. -/
def placeLine (pl : Place) (s : Reader) : Option Reader :=
  if !pl.flag then
    let newPi := pl.bitsOn.tdiv bppkt
    readLines (newPi - s.filePkt).toNat { s with
      tableFlag := pl.flag
      crtLine := none
      crtPtr := pl.bitsOn.tdiv 32 * 4 - newPi * cppkt
      pktIndex := s.filePkt }
  else
    some { s with
      tableFlag := pl.flag
      crtLine := some pl.plMem
      crtPtr := pl.bitsOn.tdiv 32 * 4
      currentPlace := pl }

/-- `set_place`. -/
def setPlace (pl : Place) (s : Reader) : Option Reader := do
  let bitposn := (32 - pl.bitsOn.tmod 32).toNat
  let s ← s.placeLine pl
  let s := { s with getcodeBitposn := if bitposn = 32 then 0 else bitposn }
  if s.getcodeBitposn > 0 then s.fetch little else some s

/-- `add_place`. -/
def addPlace (pl : Place) (n : Int) : Place := { pl with bitsOn := int (pl.bitsOn + n) }

/-- The loop of `new_place`. -/
def copyChars : Nat → Reader → Option (List (BitVec 8) × Reader)
  | 0, s => some ([], s)
  | k + 1, s => do
      let s ← s.refill
      let c ← if s.crtPtr < 0 then none else s.line[s.crtPtr.toNat]?
      let (mem, s) ← copyChars k { s with crtPtr := s.crtPtr + 1 }
      some (c :: mem, s)

/-- `new_place`. -/
def newPlace (bn : Int) (s : Reader) : Option (Place × Reader) :=
  if !s.tableFlag then do
    let bitsOn : Int := if s.getcodeBitposn = 0 then 0 else 32 - s.getcodeBitposn
    let noChars := int ((int (int (bitsOn + bn) + 31)).tdiv 32 * 4)
    let s := if s.getcodeBitposn > 0 then { s with crtPtr := s.crtPtr - 4 } else s
    let (mem, s) ← copyChars noChars.toNat s
    some (⟨true, mem, bitsOn⟩, s)
  else
    some (⟨true, s.currentPlace.plMem, int (int (s.crtPtr * 8) - s.getcodeBitposn)⟩, s)

/-- The loop of `small_dtdfint`, with a bound on the number of digits. -/
def dtdfDigits : Nat → Int → Reader → Option (Int × Reader)
  | 0, _, _ => none
  | fuel + 1, total, s => do
      let digit ← getcode little w wide 4 s
      if digit.value < 8 then dtdfDigits fuel (int (8 * total + digit.value)) digit.next
      else some (int (8 * total + (digit.value - 8)), digit.next)

/-- `small_dtdfint`. -/
def smallDtdfint (fuel : Nat) (s : Reader) : Option (Int × Reader) :=
  dtdfDigits little w wide fuel 0 s

/-- `to_boundary`. -/
def toBoundary (s : Reader) : Reader :=
  { s with getcodeBitposn := s.getcodeBitposn - s.getcodeBitposn % 8 }

/-- `d_bitstream`. -/
def dBitstream (fuel : Nat) (s : Reader) : Option (Place × Reader) := do
  let (length, s) ← smallDtdfint little w wide fuel s
  let here := keepPlace s
  let (crtBitstream, s) ← newPlace length s
  let s ← setPlace little (addPlace here length) s
  some (crtBitstream, s)

end Reader

/-! ## Sequences of calls -/

/-- A call of the reader; a place is given by its number among those delivered so far. -/
inductive Call
  | getcode (n : Nat)
  | toBoundary
  | keepPlace
  | dBitstream
  | setPlace (i : Nat)
deriving DecidableEq, Repr

/-- The reader, and the places that it has delivered. -/
structure Session where
  reader : Reader
  places : List Place
deriving DecidableEq, Repr

variable (little : Bool) (w : Nat) (wide : Nat → Nat → Nat)

/-- The code that is read, if there is one, and what the call leaves. -/
def Session.call (fuel : Nat) (s : Session) : Call → Option (Option Reader.Code × Session)
  | .getcode n => do
      let code ← s.reader.getcode little w wide n
      some (some code, { s with reader := code.next })
  | .toBoundary => some (none, { s with reader := s.reader.toBoundary })
  | .keepPlace => some (none, { s with places := s.places ++ [s.reader.keepPlace] })
  | .dBitstream => do
      let (pl, r) ← s.reader.dBitstream little w wide fuel
      some (none, ⟨r, s.places ++ [pl]⟩)
  | .setPlace i => do
      let pl ← s.places[i]?
      let r ← s.reader.setPlace little pl
      some (none, { s with reader := r })

end Tendra.Ref.Basicread
