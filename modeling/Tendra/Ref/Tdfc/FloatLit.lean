import Tendra.Ref.Tdfc.Constant
import Tendra.Ref.Tdfc.Literal

/-!
# Floating literals: `tdfc2/src/common/parse/literal.c`

The digits of a literal are kept as text, before and behind the point; the exponent is an integer
constant. Digits are evaluated by `eval_digits` with `make_nat_literal` of `constant.c`.
-/

namespace Tendra.Ref.Tdfc

/-! ## `eval_digits` -/

/-- The loop of `make_nat_literal` through the digits of a large constant. -/
@[grind =] def literalDigits (w : Word) (b : Nat) : Nat → List Nat → List Nat
  | carry, [] => if carry ≠ 0 then [carry] else []
  | carry, val :: v =>
      let lr := w.wrap (val * b + carry)
      loHalf lr :: literalDigits w b (hiHalf lr) v

/-- `make_nat_literal`. It is called with constants that are not negative. -/
def makeNatLiteral (w : Word) (b d : Nat) : NatConst → NatConst
  | .small val =>
      let lr := w.wrap (val * b + d)
      let r1 := loHalf lr
      let r2 := hiHalf lr
      if r2 = 0 then
        if r1 < smallNatSize then makeSmallNat r1 else .small r1
      else .large [r1, r2]
  | .large vals => .large (literalDigits w b d vals)
  | .neg n => .neg n

/-- The first loop of `eval_digits`, through so many digits at most: the value and the digits that
are left. -/
@[grind =] def evalFirst (w : Word) (base : Nat) : Nat → Nat → List UInt8 → Nat × List UInt8
  | 0, v, r => (v, r)
  | _, v, [] => (v, [])
  | m + 1, v, c :: r => evalFirst w base m (w.wrap (base * v + digitValues c)) r

/-- `eval_digits`. -/
def evalDigits (w : Word) (base : Nat) (s : List UInt8) : NatConst :=
  let r := evalFirst w base 8 0 s
  r.2.foldl (fun n c => makeNatLiteral w base (digitValues c) n) (makeNatValue r.1)

/-! ## `round_float_lit` -/

/-- `flt_simple`. -/
structure FloatLit where
  intPart : List UInt8
  fracPart : List UInt8
  exponent : NatConst
deriving DecidableEq, Repr

/-- `RMODE`. -/
inductive RMode
  | asState
  | toNearest
  | toLarger
  | toSmaller
  | toZero
deriving DecidableEq, Repr

/-- `char_zero`. -/
abbrev charZero : UInt8 := 48

/-- The number of digits of the result, `res_len`, and of zeros before the first digit, `pre_len`,
as the exponent asks for them, and the value of the exponent, `exp_val`. -/
def exponentLengths (w : Word) (intLen : Nat) (expon : NatConst) : Nat × Nat × Nat :=
  match expon with
  | .neg expon =>
      let expVal := getNatValue expon
      if expVal > intLen then (0, w.wrap (expVal - intLen), expVal)
      else (w.wrap (intLen - expVal), 0, expVal)
  | expon =>
      let expVal := getNatValue expon
      (w.wrap (intLen + expVal), 0, expVal)

/-- The zeros at the start of the digits behind the point count too, if there is no digit before
it: what is left of these digits, `res_len` and `pre_len`. -/
@[grind =] def skipZeros (w : Word) : List UInt8 → Nat → Nat → List UInt8 × Nat × Nat
  | [], resLen, preLen => ([], resLen, preLen)
  | c :: frac, resLen, preLen =>
      if c = charZero then
        if resLen = 0 then skipZeros w frac resLen (w.wrap (preLen + 1))
        else skipZeros w frac (resLen - 1) preLen
      else (c :: frac, resLen, preLen)

/-- Characters are put into `result` as long as there are less than `n`; it has room for 100. -/
@[grind =] def putDigits (n : Nat) : List UInt8 → List UInt8 → Option (List UInt8)
  | [], result => some result
  | c :: src, result =>
      if result.length < n then
        if result.length < 100 then putDigits n src (result ++ [c]) else none
      else putDigits n src result

/-- The last loop, which puts so many zeros. -/
@[grind =] def padDigits : Nat → List UInt8 → Option (List UInt8)
  | 0, result => some result
  | k + 1, result => if result.length < 100 then padDigits k (result ++ [charZero]) else none

/-- The construction of the integer string. -/
def integerString (resLen preLen : Nat) (int frac : List UInt8) : Option (List UInt8) := do
  let result ← putDigits resLen (List.replicate preLen charZero) []
  let result ← putDigits resLen int result
  let result ← putDigits resLen frac result
  padDigits (resLen - result.length) result

/-- `round_float_lit`. There is no result if `result` is indexed with 100 or more; the result
`some none` is `NULL_nat`. -/
def roundFloatLit (w : Word) (f : FloatLit) (_mode : RMode) : Option (Option NatConst) :=
  let int := f.intPart.dropWhile (· = charZero)
  let (resLen, preLen, expVal) := exponentLengths w int.length f.exponent
  let (frac, resLen, preLen) :=
    if int = [] then skipZeros w f.fracPart resLen preLen else (f.fracPart, resLen, preLen)
  if int = [] ∧ frac = [] then some (some (.small 0))
  else if preLen > 6 then some none
  else if resLen > 6 then some none
  else if expVal = extendedMax then some none
  else do
    let result ← integerString resLen preLen int frac
    -- the end of the string is written behind the digits
    if resLen < 100 then return some (evalDigits w 10 (result.take resLen)) else none

end Tendra.Ref.Tdfc
