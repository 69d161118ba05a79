import Mathlib.Data.Int.Bitwise

/-!
# Integer constants: `tdfc2/src/common/parse/constant.c`

A `NAT` is a small constant, a list of digits in base 2^16, least significant first,
or the negation of one of these. Calculated constants and tokens are left out, as
`binary_nat_op` is only called with simple literals. The tables of small constants
are left out as well: they only save memory.

`unsigned` has 32 bits; `unsigned long` has `w` bits, which the language promises to
be at least 32. The lengths of lists are counted without a bound.
-/

namespace Tendra.Ref.Tdfc

/-- `NAT_DIGITS`. -/
abbrev natDigits : Nat := 16

/-- `NAT_MASK`. -/
abbrev natMask : Nat := 0xffff

/-- `SMALL_NAT_SIZE`. -/
abbrev smallNatSize : Nat := 257

/-- The simple constants of the union `NAT`. -/
inductive NatConst
  | small (value : Nat)
  | large (values : List Nat)
  | neg (arg : NatConst)
deriving DecidableEq, Repr

/-- `LO_HALF`. -/
def loHalf (a : Nat) : Nat := a &&& natMask

/-- `HI_HALF`. -/
def hiHalf (a : Nat) : Nat := loHalf (a >>> natDigits)

/-- `COMBINE_VALUES`. -/
def combineValues (a b : Nat) : Nat := a + b <<< natDigits

/-- `EXTENDED_MAX`. -/
def extendedMax : Nat := combineValues natMask natMask

/-- `digit_list`. -/
def digitList (n : Nat) : List Nat := List.replicate n 0

/-- `make_small_nat`. -/
def makeSmallNat : Int → NatConst
  | .ofNat v => .small v
  | .negSucc v => .neg (.small (v + 1))

/-- `make_nat_value`. -/
def makeNatValue (v : Nat) : NatConst :=
  let lo := loHalf v
  let hi := hiHalf v
  if hi ≠ 0 then .large [lo, hi]
  else if lo < smallNatSize then makeSmallNat lo
  else .small lo

/-- `get_nat_value`. -/
def getNatValue : NatConst → Nat
  | .small val => val
  | .large [v1, v2] => combineValues v1 v2
  | _ => extendedMax

/-- The scan for the last nonzero digit in `make_large_nat`: its place, or the first place. -/
def lastNonzero : Nat → Nat → List Nat → Nat
  | _, r, [] => r
  | q, r, v :: rest => lastNonzero (q + 1) (if v ≠ 0 then q else r) rest

/-- `make_large_nat`, on a list that is not null. -/
def makeLargeNat (p : List Nat) : NatConst :=
  let r := lastNonzero 0 0 p
  if r = 0 then
    let v := p.headD 0
    if v < smallNatSize then makeSmallNat v else .small v
  else .large (p.take (r + 1))

/-- `negate_nat`. -/
def negateNat : NatConst → NatConst
  | .small val => if val < smallNatSize then makeSmallNat (-val) else .neg (.small val)
  | .neg n => n
  | n => .neg n

/-- The scan through the digits in `compare_nat`: the most significant difference counts. -/
def compareDigits : Int → List Nat → List Nat → Int
  | c, vn :: ln, vm :: lm => compareDigits (if vn ≠ vm then if vn > vm then 1 else -1 else c) ln lm
  | c, _, _ => c

/-- `compare_nat`. Two constants at the same address are equal. -/
def compareNat : NatConst → NatConst → Int
  | .neg n, .neg m => -compareNat n m
  | .neg _, _ => -1
  | _, .neg _ => 1
  | .small vn, .small vm => if vn = vm then 0 else if vn > vm then 1 else -1
  | .small _, .large _ => -1
  | .large _, .small _ => 1
  | .large ln, .large lm =>
      if ln.length = lm.length then compareDigits 0 ln lm
      else if ln.length > lm.length then 1 else -1

/-! ## Binary operations -/

/-- The permitted tags of `binary_nat_op`. -/
inductive NatOp
  | plus
  | minus
  | mult
  | div
  | rem
  | lshift
  | rshift
  | and
  | or
  | xor
deriving DecidableEq, Repr

/-- An operand without its sign: the constant, the sign, the value if it is small, and its
digits. -/
structure Operand where
  nat : NatConst
  sign : Bool
  val : Nat
  digits : List Nat
deriving DecidableEq, Repr

/-- The decomposition of an operand. -/
def decompose (a : NatConst) : Operand :=
  let s := match a with
    | .neg n => (n, true)
    | n => (n, false)
  match s.1 with
  | .small v => ⟨s.1, s.2, v, [v]⟩
  | .large p => ⟨s.1, s.2, 0, p⟩
  | .neg _ => ⟨s.1, s.2, 0, []⟩

/-- The results if `a` is zero, where it is not gone on with. -/
def zeroOp (tag : NatOp) (a b : NatConst) : Option NatConst :=
  match tag with
  | .plus | .or | .xor => some b
  | .minus => some (negateNat b)
  | .mult | .lshift | .rshift | .and => some a
  | .div | .rem => none

/-- The results if `b` is zero. -/
def opZero (tag : NatOp) (a b : NatConst) : Option NatConst :=
  match tag with
  | .plus | .minus | .lshift | .rshift | .or | .xor => some a
  | .mult | .and => some b
  | .div | .rem => none

variable (w : Nat)

/-- The loop that adds digits, over the `k` digits of the result. -/
def addDigits : Nat → Nat → List Nat → List Nat → List Nat
  | 0, _, _, _ => []
  | k + 1, carry, pn, pm =>
      let er := (pn.headD 0 + pm.headD 0 + carry) % 2 ^ w
      loHalf er :: addDigits k (hiHalf er) pn.tail pm.tail

/-- The loop that subtracts digits. -/
def subDigits : Nat → Bool → List Nat → List Nat → List Nat
  | 0, _, _, _ => []
  | k + 1, carry, pn, pm =>
      let vn := pn.headD 0
      let vm := pm.headD 0
      let step :=
        if carry then if vn ≠ 0 then (vn - 1, false) else (natMask, true)
        else (vn, carry)
      let carry := if step.1 < vm then true else step.2
      ((step.1 + 2 ^ 32 - vm) % 2 ^ 32 &&& natMask) :: subDigits k carry pn.tail pm.tail

/-- The innermost loop of the multiplication: `em` is added from the digit `ps` on. The end of
the list is not reached with something left. -/
def addInto (em : Nat) : List Nat → List Nat
  | [] => []
  | vs :: ps =>
      if em = 0 then vs :: ps
      else
        let es := (vs + em) % 2 ^ w
        loHalf es :: addInto (hiHalf es) ps

/-- The loop over the digits of the second factor, from the digit `pr` of the result on. -/
def mulInto (en : Nat) : List Nat → List Nat → List Nat
  | [], pr => pr
  | vm :: pt, pr =>
      match addInto w (en * vm % 2 ^ w) pr with
      | [] => []
      | d :: pr => d :: mulInto en pt pr

/-- The loop over the digits of the first factor. -/
def mulDigits (pm : List Nat) : List Nat → List Nat → List Nat
  | [], q => q
  | vn :: pn, q =>
      match mulInto w vn pm q with
      | [] => []
      | d :: q => d :: mulDigits pm pn q

/-- The loop that shifts digits to the left by less than a digit, and the carry. -/
def shiftLeftDigits (em : Nat) : Nat → List Nat → List Nat
  | carry, [] => [carry]
  | carry, vn :: pn =>
      if em ≠ 0 then
        let en := vn <<< em % 2 ^ w
        (loHalf en ||| carry) :: shiftLeftDigits em (hiHalf en) pn
      else vn :: shiftLeftDigits em carry pn

/-- The loop that shifts to the right by whole digits. -/
def dropDigits : Nat → List Nat → Nat × List Nat
  | em, [] => (em, [])
  | em, d :: pn => if em ≥ natDigits then dropDigits (em - natDigits) pn else (em, d :: pn)

/-- The loop that shifts digits to the right by less than a digit, most significant first. -/
def shiftRightDigits (em : Nat) : Nat → List Nat → List Nat
  | _, [] => []
  | carry, vn :: q =>
      let en := combineValues 0 vn >>> em
      (hiHalf en ||| carry) :: shiftRightDigits em (loHalf en) q

/-- The loop of the bitwise operations. -/
def bitDigits (f : Nat → Nat → Nat) : Nat → List Nat → List Nat → List Nat
  | 0, _, _ => []
  | k + 1, pn, pm => f (pn.headD 0) (pm.headD 0) :: bitDigits f k pn.tail pm.tail

/-- The result gets a sign. -/
def signed (s : Bool) (n : NatConst) : NatConst := if s then negateNat n else n

/-- The number of digits of the longer operand. -/
def longer (n m : Operand) : Nat := max n.digits.length m.digits.length

/-- Addition of operands with the same sign. -/
def addSame (n m : Operand) : NatConst :=
  let la := longer n m
  signed n.sign <|
    if la = 1 then makeNatValue ((n.val + m.val) % 2 ^ w)
    else makeLargeNat (addDigits w (la + 1) 0 n.digits m.digits)

/-- Subtraction of operands with the same sign. -/
def subSame (n m : Operand) : NatConst :=
  let la := longer n m
  let c :=
    if n.digits.length = m.digits.length then compareNat n.nat m.nat
    else if n.digits.length < m.digits.length then -1 else 1
  if c = 0 then makeSmallNat 0
  else
    -- if n < m, try (-m) - (-n)
    let s := if c < 0 then (m, n, !n.sign) else (n, m, n.sign)
    signed s.2.2 <|
      if la = 1 then makeNatValue ((s.1.val + 2 ^ w - s.2.1.val) % 2 ^ w)
      else makeLargeNat (subDigits la false s.1.digits s.2.1.digits)

/-- The case of `*`. -/
def multOp (a b : NatConst) (n m : Operand) : NatConst :=
  if n.digits.length = 1 ∧ n.val = 1 then signed n.sign b
  else if m.digits.length = 1 ∧ m.val = 1 then signed m.sign a
  else
    let res :=
      if longer n m = 1 then makeNatValue (n.val * m.val % 2 ^ w)
      else
        let p := digitList (n.digits.length + m.digits.length)
        makeLargeNat (mulDigits w m.digits n.digits p)
    signed (n.sign != m.sign) res

/-- The case of `/`. -/
def divOp (n m : Operand) : Option NatConst :=
  if longer n m ≤ 2 then
    let en := getNatValue n.nat
    let em := getNatValue m.nat
    if (n.sign || m.sign) ∧ en % em ≠ 0 then none
    else some (signed (n.sign != m.sign) (makeNatValue (en / em)))
  else none

/-- The case of `%`. -/
def remOp (n m : Operand) : Option NatConst :=
  if longer n m ≤ 2 then
    let es := getNatValue n.nat % getNatValue m.nat
    if (n.sign || m.sign) ∧ es ≠ 0 then none else some (makeNatValue es)
  else none

/-- The case of `<<`. -/
def lshiftOp (n m : Operand) : Option NatConst :=
  if n.sign || m.sign then none
  else
    let em := getNatValue m.nat
    if em > 4096 then none
    else
      let lm := em / natDigits
      some (makeLargeNat (digitList lm ++ shiftLeftDigits w (em % natDigits) 0 n.digits))

/-- The case of `>>`. -/
def rshiftOp (n m : Operand) : Option NatConst :=
  if n.sign || m.sign then none
  else
    let s := dropDigits (getNatValue m.nat) n.digits
    match s.2 with
    | [] => some (makeSmallNat 0)
    | [vn] =>
        let vn := vn >>> s.1
        some (if vn < smallNatSize then makeSmallNat vn else .small vn)
    | p =>
        some (makeLargeNat
          (if s.1 ≠ 0 then (shiftRightDigits s.1 0 p.reverse).reverse else p))

/-- The cases of `&`, `|` and `^`. -/
def bitOp (f : Nat → Nat → Nat) (n m : Operand) : Option NatConst :=
  if n.sign || m.sign then none
  else
    let la := longer n m
    if la ≤ 2 then some (makeNatValue (f (getNatValue n.nat) (getNatValue m.nat)))
    else some (makeLargeNat (bitDigits f la n.digits m.digits))

/-- The part of `binary_nat_op` after the decomposition. -/
def digitOp (tag : NatOp) (a b : NatConst) (n m : Operand) : Option NatConst :=
  match tag with
  | .plus =>
      some (if n.sign = m.sign then addSame w n m
        else subSame w n { m with sign := !m.sign })
  | .minus =>
      some (if n.sign = m.sign then subSame w n m
        else addSame w n { m with sign := !m.sign })
  | .mult => some (multOp w a b n m)
  | .div => divOp n m
  | .rem => remOp n m
  | .lshift => lshiftOp w n m
  | .rshift => rshiftOp n m
  | .and => bitOp (· &&& ·) n m
  | .or => bitOp (· ||| ·) n m
  | .xor => bitOp (· ^^^ ·) n m

/-- `binary_nat_op` on two constants that are not null; the result may be. -/
@[grind =] def binaryNatOp (tag : NatOp) (a b : NatConst) : Option NatConst :=
  let n := decompose a
  match if n.nat = .small 0 then zeroOp tag a b else none with
  | some res => some res
  | none =>
      let m := decompose b
      if m.nat = .small 0 then opZero tag a b else digitOp w tag a b n m

end Tendra.Ref.Tdfc
