import Tendra.Ref.Flpt

/-!
# Conversion to the target's floating point: `real2longs_IEEE` of `flpt/flpt.c`

The mantissa is shifted digit by digit into four 32-bit words until the wanted
number of bits is in, shifted down again for a subnormal number, and put
together with the sign and the exponent. A C `int` has 32 bits and its
arithmetic wraps.
-/

namespace Tendra.Ref

/-- `r2l`, least significant word first. -/
structure R2l where
  i1 : BitVec 32
  i2 : BitVec 32
  i3 : BitVec 32
  i4 : BitVec 32
deriving DecidableEq, Repr

/-- The argument `sw`. -/
inductive FloatSw
  | single
  | double
  | extended
deriving DecidableEq, Repr

/-- The extended format of the target: that of `TRANS_X86`, that of `TRANS_SPARC`
and `TRANS_HPPA`, or none. -/
inductive Ldouble
  | x86
  | sparcHppa
  | none
deriving DecidableEq, Repr

/-- Arithmetic on `int`. -/
def cint (v : Int) : Int := v.bmod (2 ^ 32)

/-- The constants of a format. -/
structure IeeeFmt where
  bias : Nat
  exptSize : Nat
  precision : Nat
deriving DecidableEq, Repr

/-- The first `switch` on `sw`. -/
def ieeeFmt (ldoubleBits : Nat) : FloatSw → IeeeFmt
  | .single => ⟨127, 8, 24⟩
  | .double => ⟨1023, 11, 53⟩
  | .extended => ⟨16383, 15, ldoubleBits⟩

/-- The words `sig1` to `sig4`. -/
structure Sig where
  s1 : BitVec 32
  s2 : BitVec 32
  s3 : BitVec 32
  s4 : BitVec 32
deriving DecidableEq, Repr

/-- Shifting the four words up, with new bits at the bottom. -/
def Sig.shl (s : Sig) (i : Nat) (low : BitVec 32) : Sig where
  s4 := s.s4 <<< i + s.s3 >>> (32 - i)
  s3 := s.s3 <<< i + s.s2 >>> (32 - i)
  s2 := s.s2 <<< i + s.s1 >>> (32 - i)
  s1 := s.s1 <<< i + low

/-- Shifting the four words down. -/
def Sig.shr (s : Sig) (places : Nat) : Sig where
  s1 := s.s1 >>> places + s.s2 <<< (32 - places)
  s2 := s.s2 >>> places + s.s3 <<< (32 - places)
  s3 := s.s3 >>> places + s.s4 <<< (32 - places)
  s4 := s.s4 >>> places

/-- Moving the four words down by whole words. -/
def Sig.dropWords : Nat → Sig → Sig
  | 0, s => s
  | n + 1, s => Sig.dropWords n ⟨s.s2, s.s3, s.s4, 0⟩

/-- The loop that shifts whole digits in. -/
def packDigits (mant : List Nat) : Nat → Sig → Nat → Run (Sig × Nat)
  | 0, s, index => .ok (s, index)
  | turns + 1, s, index =>
      match mant[index]? with
      | some d => packDigits mant turns (s.shl 16 (BitVec.ofNat 32 d)) (index + 1)
      | none => .error .outside

/-- The first `precision` bits of the mantissa. -/
def packMant (mant : List Nat) (precision n : Nat) : Run Sig := do
  let (s, index) ←
    packDigits mant ((precision - n) / 16) ⟨BitVec.ofNat 32 (mant.headD 0), 0, 0, 0⟩ 1
  let i := (precision - n) % 16
  if i ≠ 0 then
    match mant[index]? with
    | some d => return s.shl i (BitVec.ofNat 32 d >>> (16 - i))
    | none => throw .outside
  else return s

/-- The words of a number that is too small for its exponent. -/
def Sig.denormalise (s : Sig) (places : Nat) : Sig :=
  let s := s.dropWords (places / 32)
  let places := places % 32
  if places > 0 then s.shr places else s

/-- The answer for a number that is too big. -/
def tooBig (ld : Ldouble) (neg : Bool) : FloatSw → R2l
  | .single => ⟨(if neg then 0x80000000#32 else 0#32) + 0x7f800000, 0, 0, 0⟩
  | .double => ⟨0, (if neg then 0x80000000#32 else 0#32) + 0x7ff00000, 0, 0⟩
  | .extended =>
      match ld with
      | .x86 => ⟨0, 0x80000000, (if neg then 0x8000#32 else 0#32) + 0x7fff, 0⟩
      | .sparcHppa => ⟨0, 0, 0, (if neg then 0x8000#32 else 0#32) + 0x7fff⟩
      | .none => ⟨0, 0, 0, 0⟩

/-- The last `switch` on `sw`. -/
def assemble (ld : Ldouble) (neg : Bool) (expt : BitVec 32) (s : Sig) : FloatSw → R2l
  | .single =>
      ⟨(if neg then 0x80000000#32 else 0#32) + expt <<< 23 + (s.s1 &&& 0x007fffff), 0, 0, 0⟩
  | .double =>
      ⟨s.s1, (if neg then 0x80000000#32 else 0#32) + expt <<< 20 + (s.s2 &&& 0xfffff), 0, 0⟩
  | .extended =>
      match ld with
      | .x86 => ⟨s.s1, s.s2, (if neg then 0x8000#32 else 0#32) + expt, 0⟩
      | .sparcHppa =>
          ⟨s.s1, s.s2, s.s3,
            (if neg then 0x80000000#32 else 0#32) + expt <<< 16 + (s.s4 &&& 0xffff)⟩
      | .none => ⟨0, 0, 0, 0⟩

/-- `real2longs_IEEE`. `chk` is the flag `CHECK_FLPT_OVERFLOW`. -/
def real2longsIEEE (chk : Bool) (ld : Ldouble) (ldoubleBits : Nat) (fp : Flt) (sw : FloatSw) :
    Run R2l := do
  if fp.sign = 0 then return ⟨0, 0, 0, 0⟩
  let fmt := ieeeFmt ldoubleBits sw
  let n := ndig0 (fp.mant.headD 0)
  let expt := cint (cint (n + cint (fp.exp * 16)) - 1)
  if expt < 1 - fmt.bias - fmt.precision then return ⟨0, 0, 0, 0⟩
  if expt > fmt.bias then
    if chk then throw .exits
    return tooBig ld (fp.sign = -1) sw
  let expt := expt + fmt.bias
  let s ← packMant fp.mant fmt.precision n
  if expt < 1 then
    return assemble ld (fp.sign = -1) 0 (s.denormalise (1 - expt).toNat) sw
  else
    return assemble ld (fp.sign = -1)
      (BitVec.ofInt 32 expt &&& BitVec.ofNat 32 (2 ^ (fmt.exptSize + 1) - 1)) s sw

end Tendra.Ref
