import Mathlib.Data.BitVec

/-!
# The 64-bit runtime of `tdf/src/int64/int64a.c`

On a 32-bit target the installers call this library for every 64-bit integer
operation. A value is the union `TDF_INT64` of a signed and an unsigned pair
of 32-bit words; the model keeps the two words and lets each function choose
the view, `hi_32` being the signed reading of the high word and `hi_u32` the
unsigned one. `UINT32` is taken as exactly 32 bits, so every `+`, `-`, `*`
and `<<` below wraps at `2^32` as the C does.

The global `__TDFerror` is passed in and handed back. Functions that never
touch it (`TDFUplus`, `TDFUminus`) do not mention it, functions that only ever
set it take the incoming value, and functions that start with `CLEAR_ERRORS`
drop what they were given: which of the three a helper is decides whether an
overflow noticed before the call survives it.
-/

namespace Tendra.Ref

/-- `TDF_INT64`, the two words of either view. -/
structure TdfInt64 where
  lo32 : BitVec 32
  hi32 : BitVec 32
deriving DecidableEq, Repr

namespace TdfInt64

/-- The `UINT64` view: both words unsigned. -/
def toNat (x : TdfInt64) : Nat := x.hi32.toNat * 2 ^ 32 + x.lo32.toNat

/-- The `INT64` view: the high word signed. -/
def toInt (x : TdfInt64) : Int := x.hi32.toInt * 2 ^ 32 + x.lo32.toNat

/-- `TDFUis_positive`, which is "not negative". -/
def isPositive (x : TdfInt64) : Bool := 0 ≤ x.hi32.toInt

/-- `TDFUis_negative`. -/
def isNegative (x : TdfInt64) : Bool := x.hi32.toInt < 0

end TdfInt64

/-- `OVERFLOW_ERROR`. -/
def overflowError : Int := -1

/-- `CLEAR_ERRORS`. -/
def clearErrors : Int := 1

/-- `const_1`, least significant word first. -/
def const1 : TdfInt64 := ⟨1#32, 0#32⟩

/-- `TDFUplus`: add the low words, and read the carry off the wrapped sum. -/
def tdfUplus (a b : TdfInt64) : TdfInt64 :=
  let lo := a.lo32 + b.lo32
  if lo < a.lo32 then ⟨lo, a.hi32 + b.hi32 + 1#32⟩ else ⟨lo, a.hi32 + b.hi32⟩

/-- `__TDFUs_plus`. -/
def tdfUsPlus (a b : TdfInt64) : TdfInt64 × Int :=
  let err := clearErrors
  let sum := tdfUplus a b
  let err := if a.isPositive ∧ b.isPositive ∧ sum.isNegative then overflowError else err
  let err := if a.isNegative ∧ b.isNegative ∧ sum.isPositive then overflowError else err
  (sum, err)

/-- `__TDFUu_plus`. The overflow test compares the halves pairwise. -/
def tdfUuPlus (a b : TdfInt64) : TdfInt64 × Int :=
  let err := clearErrors
  let sum := tdfUplus a b
  let err := if sum.hi32 ≤ a.hi32 ∧ sum.lo32 < a.lo32 then overflowError else err
  (sum, err)

/-- `TDFUminus`: subtract the low words, and read the borrow off the result. -/
def tdfUminus (a b : TdfInt64) : TdfInt64 :=
  let lo := a.lo32 - b.lo32
  if lo > a.lo32 then ⟨lo, a.hi32 - b.hi32 - 1#32⟩ else ⟨lo, a.hi32 - b.hi32⟩

/-- `__TDFUs_minus`. -/
def tdfUsMinus (a b : TdfInt64) : TdfInt64 × Int :=
  let err := clearErrors
  let diff := tdfUminus a b
  let err := if a.isPositive ∧ b.isNegative ∧ diff.isNegative then overflowError else err
  let err := if a.isNegative ∧ b.isPositive ∧ diff.isPositive then overflowError else err
  (diff, err)

/-- `__TDFUu_minus`. -/
def tdfUuMinus (a b : TdfInt64) : TdfInt64 × Int :=
  let err := clearErrors
  let diff := tdfUminus a b
  let err := if diff.hi32 ≥ a.hi32 ∧ diff.lo32 > a.lo32 then overflowError else err
  (diff, err)

/-- `hi_u16`. -/
def hiU16 (x : BitVec 32) : BitVec 32 := x >>> 16

/-- `lo_u16`. -/
def loU16 (x : BitVec 32) : BitVec 32 := x &&& 0xffff#32

/-- Stages 1 and 2 of `TDFUmult`: the low word, and the part of the high word
that `a0 * b0`, `a1 * b0` and `a0 * b1` reach. -/
def multStage2 (a0 a1 b0 b1 : BitVec 32) : BitVec 32 × BitVec 32 :=
  let lo := a0 * b0
  let work1 := a1 * b0
  let work2 := work1 + a0 * b1
  -- the carry of the 32-bit sum is worth 2^48 in the product
  let hi := if work2 < work1 then 0x10000#32 else 0#32
  let work1 := loU16 work2
  let work2 := hiU16 work2
  let lo := lo + (work1 <<< 16)
  let hi := if (work1 <<< 16) > lo then hi + (work2 + 1#32) else hi + work2
  (lo, hi)

/-- Stage 3 of `TDFUmult`: the products worth `2^32`. -/
def multStage3 (err : Int) (hi a0 a1 a2 b0 b1 b2 : BitVec 32) : BitVec 32 × Int :=
  let work1 := a2 * b0
  let work2 := work1 + a1 * b1
  let err := if work1 > work2 then overflowError else err
  let work1 := work2 + a0 * b2
  let err := if work2 > work1 then overflowError else err
  let hi := hi + work1
  let err := if work1 > hi then overflowError else err
  (hi, err)

/-- Stage 4 of `TDFUmult`: the products worth `2^48`, and the test that every
product worth more is zero. -/
def multStage4 (err : Int) (hi a0 a1 a2 a3 b0 b1 b2 b3 : BitVec 32) : BitVec 32 × Int :=
  let work1 := a3 * b0
  let work2 := a2 * b1
  let err := if work1 > 0xffff#32 ∨ work2 > 0xffff#32 then overflowError else err
  let work1 := work1 + work2
  let work2 := a1 * b2
  let err := if work2 > 0xffff#32 then overflowError else err
  let work1 := work1 + work2
  let work2 := a0 * b3
  let work1 := work1 + work2
  let err := if work1 > 0xffff#32 ∨ work2 > 0xffff#32 then overflowError else err
  let work2 := work1 <<< 16
  let hi := hi + work2
  let err :=
    if work2 > hi ∨ a3 * b1 ≠ 0#32 ∨ a2 * b2 ≠ 0#32 ∨ a1 * b3 ≠ 0#32 ∨
        a3 * b2 ≠ 0#32 ∨ a2 * b3 ≠ 0#32 ∨ a3 * b3 ≠ 0#32 then overflowError else err
  (hi, err)

/-- `TDFUmult`: long multiplication on 16-bit digits. It sets `__TDFerror` and
never clears it. -/
def tdfUmult (err : Int) (a b : TdfInt64) : TdfInt64 × Int :=
  let a0 := loU16 a.lo32
  let a1 := hiU16 a.lo32
  let a2 := loU16 a.hi32
  let a3 := hiU16 a.hi32
  let b0 := loU16 b.lo32
  let b1 := hiU16 b.lo32
  let b2 := loU16 b.hi32
  let b3 := hiU16 b.hi32
  if a1 = 0#32 ∧ a2 = 0#32 ∧ a3 = 0#32 ∧ b1 = 0#32 ∧ b2 = 0#32 ∧ b3 = 0#32 then
    (⟨a0 * b0, 0#32⟩, err)
  else
    let s2 := multStage2 a0 a1 b0 b1
    let s3 := multStage3 err s2.2 a0 a1 a2 b0 b1 b2
    let s4 := multStage4 s3.2 s3.1 a0 a1 a2 a3 b0 b1 b2 b3
    (⟨s2.1, s4.1⟩, s4.2)

/-- `__TDFUneg`: flip every bit and add one, through `__TDFUs_plus`, which
clears `__TDFerror` first. -/
def tdfUneg (a : TdfInt64) : TdfInt64 × Int :=
  tdfUsPlus ⟨a.lo32 ^^^ 0xffffffff#32, a.hi32 ^^^ 0xffffffff#32⟩ const1

/-- `__TDFUabs`. -/
def tdfUabs (a : TdfInt64) : TdfInt64 × Int :=
  if a.isNegative then tdfUneg a else (a, clearErrors)

/-- `__TDFUs_mult`. The error that `abs(a)` leaves is overwritten by `abs(b)`;
`TDFUmult` starts from the one that `abs(b)` leaves; and the final negation
clears whatever the multiplication found. -/
def tdfUsMult (a b : TdfInt64) : TdfInt64 × Int :=
  let sign : Bool := (a.hi32 ^^^ b.hi32).toInt < 0
  let absA := tdfUabs a
  let absB := tdfUabs b
  let prod := tdfUmult absB.2 absA.1 absB.1
  let p := prod.1
  let err :=
    if p.hi32.toInt < 0 ∧
        (sign = false ∨ p.hi32 > 0x80000000#32 ∨ p.lo32 > 0x00000000#32) then
      overflowError
    else prod.2
  if sign = false ∨ (p.hi32 = 0x80000000#32 ∧ p.lo32 ≠ 0x00000000#32) then
    (p, err)
  else
    tdfUneg p

/-- `__TDFUu_mult`. -/
def tdfUuMult (a b : TdfInt64) : TdfInt64 × Int := tdfUmult clearErrors a b

/-! ## Division -/

namespace TdfInt64

/-- `TDFUis_zero`. -/
def isZero (x : TdfInt64) : Bool := x.hi32 = 0#32 ∧ x.lo32 = 0#32

/-- `TDFUis_nonzero`. -/
def isNonzero (x : TdfInt64) : Bool := x.hi32 ≠ 0#32 ∨ x.lo32 ≠ 0#32

end TdfInt64

/-- `const_u0`. -/
def constU0 : TdfInt64 := ⟨0#32, 0#32⟩

/-- `TDFUshl`, for a count from 1 to 64. -/
def tdfUshl (a : TdfInt64) (n : Nat) : TdfInt64 :=
  if n > 32 then ⟨0#32, a.lo32 <<< (n - 32)⟩
  else ⟨a.lo32 <<< n, a.lo32 >>> (32 - n) ||| a.hi32 <<< n⟩

/-- `__TDFUu_test`, which clears `__TDFerror`. -/
def tdfUuTest (a b : TdfInt64) : Int × Int :=
  let err := clearErrors
  if a.hi32 < b.hi32 then (-1, err)
  else if a.hi32 > b.hi32 then (1, err)
  else if a.lo32 < b.lo32 then (-1, err)
  else if a.lo32 > b.lo32 then (1, err)
  else (0, err)

/-- The flags of `TDFUdiv_rem`. -/
inductive DivFlag
  | sDiv1 | sDiv2 | uDiv2 | sRem1 | sRem2 | uRem2 | sDiv1_0_1
deriving DecidableEq, Repr

def DivFlag.code : DivFlag → Nat
  | .sDiv1 => 0
  | .sDiv2 => 2
  | .uDiv2 => 3
  | .sRem1 => 4
  | .sRem2 => 6
  | .uRem2 => 7
  | .sDiv1_0_1 => 8

/-- `is_div`. -/
def DivFlag.isDiv (f : DivFlag) : Bool := f.code &&& 4 = 0

/-- The variables of the loop of `TDFUdiv_rem`. -/
structure DivRemSt where
  newInt : TdfInt64
  aUpper : TdfInt64
  a : TdfInt64
  err : Int
deriving DecidableEq, Repr

/-- One turn of the loop: the next bit of `a` goes into `a_upper`, and `b` is
taken off if it fits. -/
def divRemStep (b : TdfInt64) (s : DivRemSt) : DivRemSt :=
  let newInt := tdfUshl s.newInt 1
  let aUpper := tdfUshl s.aUpper 1
  let carry : Bool := s.a.hi32 >>> 31 ≠ 0#32
  let a := if carry then ⟨s.a.lo32, s.a.hi32 &&& 0x7fffffff#32⟩ else s.a
  let aUpper := if carry then ⟨aUpper.lo32 ||| 1#32, aUpper.hi32⟩ else aUpper
  let a := tdfUshl a 1
  let (order, err) := tdfUuTest aUpper b
  if order ≥ 0 then
    let (aUpper, err) := tdfUuMinus aUpper b
    ⟨⟨newInt.lo32 ||| 1#32, newInt.hi32⟩, aUpper, a, err⟩
  else ⟨newInt, aUpper, a, err⟩

/-- The loop of `TDFUdiv_rem`, `i` turns of it. -/
def divRemLoop (b : TdfInt64) : Nat → DivRemSt → DivRemSt
  | 0, s => s
  | i + 1, s => divRemLoop b i (divRemStep b s)

/-- The shortcuts of `TDFUdiv_rem` when the high word of `a` is zero: quotient
and remainder. -/
def divRemFast (a b : TdfInt64) : TdfInt64 × TdfInt64 :=
  if b.hi32 = 0#32 then (⟨a.lo32 / b.lo32, 0#32⟩, ⟨a.lo32 % b.lo32, 0#32⟩)
  else (⟨0#32, 0#32⟩, a)

/-- `TDFUdiv_rem`. -/
def tdfUdivRem (err : Int) (a b : TdfInt64) (flags : DivFlag) : TdfInt64 × Int :=
  let s : DivRemSt :=
    if a.hi32 = 0#32 then ⟨(divRemFast a b).1, (divRemFast a b).2, a, err⟩
    else divRemLoop b 64 ⟨constU0, constU0, a, err⟩
  if flags.isDiv then
    if flags = .sDiv1_0_1 ∧ s.aUpper.isNonzero then tdfUsPlus s.newInt const1
    else (s.newInt, s.err)
  else (s.aUpper, s.err)

/-- A quotient negated without `__TDFUneg`, so that no error is noted. -/
def negateQuot (quot : TdfInt64) : TdfInt64 :=
  tdfUplus ⟨quot.lo32 ^^^ 0xffffffff#32, quot.hi32 ^^^ 0xffffffff#32⟩ const1

/-- `__TDFUs_div1`. Division by zero is reported as overflow. -/
def tdfUsDiv1 (a b : TdfInt64) : TdfInt64 × Int :=
  if b.isZero then (b, overflowError)
  else
    let isNeg : Bool := (a.hi32 ^^^ b.hi32).toInt < 0
    let absA := tdfUabs a
    let absB := tdfUabs b
    if isNeg then
      let quot := (tdfUdivRem absB.2 absA.1 absB.1 .sDiv1_0_1).1
      (negateQuot quot, clearErrors)
    else
      let quot := (tdfUdivRem absB.2 absA.1 absB.1 .sDiv1).1
      (quot, if quot.isNegative then overflowError else clearErrors)

/-- `__TDFUs_div2`. -/
def tdfUsDiv2 (a b : TdfInt64) : TdfInt64 × Int :=
  if b.isZero then (b, overflowError)
  else
    let isNeg : Bool := (a.hi32 ^^^ b.hi32).toInt < 0
    let absA := tdfUabs a
    let absB := tdfUabs b
    let quot := (tdfUdivRem absB.2 absA.1 absB.1 .sDiv2).1
    if isNeg then (negateQuot quot, clearErrors)
    else (quot, if quot.isNegative then overflowError else clearErrors)

/-- `__TDFUu_div2`. -/
def tdfUuDiv2 (a b : TdfInt64) : TdfInt64 × Int :=
  let err := clearErrors
  if b.isZero then (b, overflowError)
  else tdfUdivRem err a b .uDiv2

/-- `__TDFUs_rem1`. -/
def tdfUsRem1 (a b : TdfInt64) : TdfInt64 × Int :=
  if b.isZero then (b, overflowError)
  else
    let absA := tdfUabs a
    let absB := tdfUabs b
    let isNeg := b.isNegative
    let rem := (tdfUdivRem absB.2 absA.1 absB.1 .sRem1).1
    let err := clearErrors
    if a.isPositive ∧ b.isNegative ∧ rem.isNonzero then tdfUsPlus b rem
    else if a.isNegative ∧ b.isPositive ∧ rem.isNonzero then tdfUsMinus b rem
    else if isNeg then tdfUneg rem
    else (rem, err)

/-- `__TDFUs_rem2`. -/
def tdfUsRem2 (a b : TdfInt64) : TdfInt64 × Int :=
  if b.isZero then (b, overflowError)
  else
    let isNeg := a.isNegative
    let absA := tdfUabs a
    let absB := tdfUabs b
    let rem := (tdfUdivRem absB.2 absA.1 absB.1 .sRem2).1
    let err := clearErrors
    if isNeg then tdfUneg rem else (rem, err)

/-- `__TDFUu_rem2`. -/
def tdfUuRem2 (a b : TdfInt64) : TdfInt64 × Int :=
  if b.isZero then (b, overflowError)
  else
    let err := clearErrors
    tdfUdivRem err a b .uRem2

/-! ## Shifts

A shift of a word by its width or more is undefined in C; the model stops there. -/

/-- `<<` on a word. -/
def shl32 (x n : BitVec 32) : Option (BitVec 32) :=
  if n.toNat < 32 then some (x <<< n.toNat) else none

/-- `>>` on an unsigned word. -/
def shr32 (x n : BitVec 32) : Option (BitVec 32) :=
  if n.toNat < 32 then some (x >>> n.toNat) else none

/-- `_TDFUshl`, with the shifts as C has them. -/
def tdfUshlWords (a : TdfInt64) (n : BitVec 32) : Option TdfInt64 :=
  if n > 32#32 then do
    let hi ← shl32 a.lo32 (n - 32#32)
    return ⟨0#32, hi⟩
  else do
    let fromLo ← shr32 a.lo32 (32#32 - n)
    let fromHi ← shl32 a.hi32 n
    let lo ← shl32 a.lo32 n
    return ⟨lo, fromLo ||| fromHi⟩

/-- The check of `__TDFUu_shl` that the result will overflow. -/
def shlOverflows (a : TdfInt64) (n : BitVec 32) : Option Bool :=
  if n > 32#32 then do
    let lost ← shr32 a.lo32 (64#32 - n)
    return lost ≠ 0#32 ∨ a.hi32 ≠ 0#32
  else do
    let lost ← shr32 a.hi32 (32#32 - n)
    return lost ≠ 0#32

/-- `__TDFUu_shl`. -/
def tdfUuShl (a : TdfInt64) (n : BitVec 32) : Option (TdfInt64 × Int) :=
  let err := clearErrors
  if n > 63#32 then some (constU0, overflowError)
  else if n = 0#32 then some (a, err)
  else do
    let overflows ← shlOverflows a n
    let err := if overflows then overflowError else err
    let a ← tdfUshlWords a n
    return (a, err)

/-- `TDFUshr`. -/
def tdfUshr (a : TdfInt64) (n : BitVec 32) : Option (TdfInt64 × Int) :=
  let err := clearErrors
  if n ≥ 32#32 then do
    let lo ← shr32 a.hi32 (n - 32#32)
    return (⟨lo, 0#32⟩, err)
  else do
    let fromHi ← shl32 a.hi32 (32#32 - n)
    let fromLo ← shr32 a.lo32 n
    let hi ← shr32 a.hi32 n
    return (⟨fromHi ||| fromLo, hi⟩, err)

/-- `__TDFUu_shr`. -/
def tdfUuShr (a : TdfInt64) (n : BitVec 32) : Option (TdfInt64 × Int) :=
  let err := clearErrors
  if n > 63#32 then some (constU0, overflowError)
  else if n = 0#32 then some (a, err)
  else tdfUshr a n

end Tendra.Ref
