import Tendra.Ref.Ieee
import Tendra.Ref.Basicread
import Tendra.Ref.F64

/-!
# Literals read from TDF

## TDF integers of any size: `d_tdfint` of `reader/basicread.c`

A number that does not fit 32 bits goes on as a number of the pool, to which the
remaining digits are added one by one.
-/

namespace Tendra.Ref.Basicread

/-- `nat`: `natint` if `nat_issmall`, else `natbig`. -/
inductive TdfNat
  | natint (n : Int)
  | natbig (f : Nat)
deriving DecidableEq, Repr

/-- The local variables of `d_tdfint`, with the pool; `small` is set as long as there is no
`f`. -/
structure DigitState where
  total : Nat
  f : Option Nat
  pool : Pool

/-- What `d_tdfint` does with a digit; `fr` is the memory of a local variable. -/
def DigitState.add (fr : Flt) (v : DigitState) (digit : Nat) : DigitState :=
  match v.f with
  | none =>
      if v.total > 0x1fffffff then
        let (f, p) := v.pool.floatrepUnsigned fr (BitVec.ofNat 32 v.total)
        { v with f := some f, pool := p.set f (flptNewdig digit (p.nos f) 8) }
      else { v with total := (v.total <<< 3 + digit) % 2 ^ 32 }
  | some f => { v with pool := v.pool.set f (flptNewdig digit (v.pool.nos f) 8) }

/-- The end of `d_tdfint`. -/
def DigitState.nat (v : DigitState) : TdfNat :=
  match v.f with
  | none => .natint (int v.total)
  | some f => .natbig f

namespace Reader

variable (little : Bool) (w : Nat) (wide : Nat → Nat → Nat) (fr : Flt)

/-- The loop of `d_tdfint`, with a bound on the number of digits. -/
def tdfDigits : Nat → DigitState → Reader → Option (DigitState × Reader)
  | 0, _, _ => none
  | fuel + 1, v, s => do
      let digit ← getcode little w wide 4 s
      if digit.value ≥ 8 then some (v.add fr (digit.value - 8), digit.next)
      else tdfDigits fuel (v.add fr digit.value) digit.next

/-- `d_tdfint`. -/
def dTdfint (fuel : Nat) (p : Pool) (s : Reader) : Option (TdfNat × Pool × Reader) := do
  let (v, s) ← tdfDigits little w wide fr fuel ⟨0, none, p⟩ s
  some (v.nat, v.pool, s)

end Reader

end Tendra.Ref.Basicread

/-!
## Floating literals: `flpt_scale` of `flpt/flpt.c`, `f_make_floating` of `flpt/flpt_fns.c`

A literal is a string of digits with a point, a base and an exponent. Its digits go into
a number one by one, and the number is then scaled: for base ten by products and
quotients with powers of ten, for a power of two by a shift of the mantissa and a change
of the exponent. A C `int` has 32 bits and its arithmetic wraps.
-/

namespace Tendra.Ref

open Basicread (TdfNat)

/-- An entry of the table `powers`; what an initialiser leaves out of an array is zero. -/
def power (mant : List Nat) (exp : Int) : Flt :=
  ⟨mant ++ List.replicate (10 - mant.length) 0, 1, exp⟩

/-- The table `powers`. -/
def powers : List Flt :=
  [power [10] 0,
    power [100] 0,
    power [1000] 0,
    power [10000] 0,
    power [1, 34464] 1,
    power [15, 16960] 1,
    power [152, 38528] 1,
    power [1525, 57600] 1,
    power [15258, 51712] 1,
    power [2, 21515, 58368] 2,
    power [23, 18550, 59392] 2,
    power [232, 54437, 4096] 2,
    power [2328, 20082, 40960] 2,
    power [23283, 4218, 16384] 2,
    power [3, 36222, 42182, 32768] 3,
    power [35, 34546, 28609] 3]

/-- The table `two_powers`. -/
def twoPowers (n : Nat) : Nat := 2 ^ n

/-- `MAX_USEFUL_DECEXP`. -/
def maxUsefulDecexp : Int := 10000

/-- A product with a power of ten, and `flt_copy`. `ft` is the local variable. -/
def mulPower (i : Nat) (v : Flt × Flt) : Run (Flt × Flt) := do
  let (ft, res) := v
  let (_, ft) ← fltMul res (powers.getD i ft) ft
  return (ft, fltCopy ft res)

/-- A quotient by a power of ten, and `flt_copy`. -/
def divPower (stray : Stray) (i : Nat) (v : Flt × Flt) : Run (Flt × Flt) := do
  let (ft, res) := v
  let (_, ft) ← fltDiv stray res (powers.getD i ft) ft
  return (ft, fltCopy ft res)

/-- The loop that takes sixteen powers of ten at a time, and the step for the rest. -/
def tens (step : Nat → Flt × Flt → Run (Flt × Flt)) (expt : Nat) (v : Flt × Flt) :
    Run (Flt × Flt) :=
  if 16 < expt then do
    let v ← step 15 v
    tens step (expt - 16) v
  else step (expt - 1) v

/-- `flpt_scale`. `ft` is the memory of the local variable. -/
def flptScale (stray : Stray) (ft : Flt) (expt : Int) (res : Flt) (base : Nat) : Run Flt :=
  if base = 10 then
    if expt > 0 then
      if expt > maxUsefulDecexp then .error .exits
      else (tens mulPower expt.toNat (ft, res)).map (·.2)
    else if expt < 0 then
      if expt < -maxUsefulDecexp then .ok (fltZero res)
      else (tens (divPower stray) (-expt).toNat (ft, res)).map (·.2)
    else .ok res
  else
    let expt := if base = 4 then cint (expt + expt) else expt
    let expt := if base = 8 then cint (expt * 3) else expt
    let expt := if base = 16 then cint (expt * 4) else expt
    if expt > 0 then
      let res := { res with exp := cint (res.exp + expt / 16) }
      let expt := expt % 16
      .ok (if expt ≠ 0 then flptNewdig 0 res (twoPowers expt.toNat) else res)
    else if expt < 0 then
      -- `-INT_MIN` is `INT_MIN`, and C divides towards zero
      let temp := (cint (-expt)).tdiv 16
      let expt := (cint (-expt)).tmod 16
      if expt = 0 then .ok { res with exp := cint (res.exp - temp) }
      else
        let res := flptNewdig 0 res (twoPowers (16 - expt).toNat)
        .ok { res with exp := cint (res.exp - (temp + 1)) }
    else .ok res

/-- `signed_nat`. -/
structure SignedNat where
  val : TdfNat
  negative : Bool
deriving DecidableEq, Repr

/-- `snatint`: what the union holds, whichever member was stored. -/
def SignedNat.snatint (x : SignedNat) : Int :=
  match x.val with
  | .natint n => n
  | .natbig f => f

/-- The local variables that the loop of `f_make_floating` changes. -/
structure Literal where
  ignoreZero : Bool
  hasSigDigs : Bool
  point : Bool
  exponent : Int
  fr : Flt
deriving DecidableEq, Repr

/-- A turn of the loop of `f_make_floating`, for a signed `char`. -/
def Literal.char (base : Nat) (v : Literal) (c : BitVec 8) : Literal :=
  if c ≠ 48#8 ∨ v.ignoreZero = false then
    if c = 46#8 then { v with ignoreZero := false, point := true }
    else
      let c := c - 48#8
      { v with
        ignoreZero := false
        hasSigDigs := v.hasSigDigs || c != 0#8
        exponent := cint (v.exponent - v.point.toNat)
        fr := flptNewdig (c.signExtend 32).toNat v.fr base }
  else v

/-- `f_make_floating` up to the call of `flpt_round`. `fr` and `ft` are the memory of the
local variables of `f_make_floating` and `flpt_scale`. -/
def floatingLiteral (stray : Stray) (fr ft : Flt) (sign : Bool) (mantissa : List (BitVec 8))
    (natbase : Nat) (expo : SignedNat) : Run Flt :=
  let exponent := if expo.negative then cint (-expo.snatint) else expo.snatint
  let v := mantissa.foldl (Literal.char natbase) ⟨true, false, false, exponent, fltZero fr⟩
  if v.ignoreZero then .ok { v.fr with exp := 0, sign := 0 }
  else
    let s := if v.hasSigDigs then if sign then -1 else 1 else 0
    flptScale stray ft v.exponent { v.fr with sign := s } natbase

/-- `f_make_floating`, with the number of the expression and the pool. `bits` is
`flpt_bits`, and `chk` the flag `CHECK_FLPT_OVERFLOW`. -/
def fMakeFloating (stray : Stray) (fr ft : Flt) (bits : FloatSw → Int) (chk : Bool)
    (ld : Ldouble) (ldoubleBits : Nat) (fv : FloatSw) (rm : RoundMode) (sign : Bool)
    (mantissa : List (BitVec 8)) (natbase : Nat) (expo : SignedNat) (p : Pool) :
    Run (Nat × Pool) := do
  let (f, p) := p.new
  let fr ← floatingLiteral stray fr ft sign mantissa natbase expo
  let fr ← flptRound rm (bits fv) fr
  if chk then
    let _ ← real2longsIEEE chk ld ldoubleBits fr fv
  return (f, p.set f fr)

end Tendra.Ref
