import Tendra.Ref.Tdfc.Constant

/-!
# Ranges of integral types: `tdfc2/src/common/parse/constant.c`

A type is known by what `find_type_size` says of it. The greatest number of bits of any
type, `basetype_info[ntype_ellipsis].max_bits`, comes from the portability table and is a
parameter. Tokenised constants behave as calculated ones and are left out, and so are
negations of calculated constants.
-/

namespace Tendra.Ref.Tdfc

/-- `btype_signed`. -/
abbrev btypeSigned : Nat := 8

/-- `btype_unsigned`. -/
abbrev btypeUnsigned : Nat := 16

/-- `btype_long`. -/
abbrev btypeLong : Nat := 256

/-- What `find_type_size` returns: the least and the greatest number of bits, and the sign.
Both numbers are `unsigned`. -/
structure TypeSize where
  sz : Nat
  msz : Nat
  sign : Nat
  sz_lt : sz < 2 ^ 32
  msz_lt : msz < 2 ^ 32

/-- The simple and the calculated constants of the union `NAT`. -/
inductive NatValue (E : Type)
  | simple (n : NatConst)
  | calc (value : E)

/-- The expressions that are made here: `exp_int_lit` and `exp_cast`. -/
inductive Exp (T : Type)
  | intLit (t : T) (nat : NatValue (Exp T)) (etag : Nat)
  | cast (t : T) (conv : Nat) (arg : Exp T)

/-- `exp_identifier_tag`. -/
abbrev expIdentifierTag : Nat := 0

/-- `exp_cast_tag`. -/
abbrev expCastTag : Nat := 44

/-! ## Bits -/

/-- The table `small_bits`. -/
def smallBits : List Nat := [0, 1, 2, 2, 3, 3, 3, 3, 4, 4, 4, 4, 4, 4, 4, 4]

/-- `no_bits`. -/
def noBits (n : Nat) : Nat :=
  let s :=
    if n &&& 0xfff0 ≠ 0 then
      let n := n >>> 4
      if n &&& 0x0ff0 ≠ 0 then
        let n := n >>> 4
        if n &&& 0x00f0 ≠ 0 then (n >>> 4, 12) else (n, 8)
      else (n, 4)
    else (n, 0)
  s.2 + smallBits.getD s.1 0

/-- The loop through the digits in `get_nat_bits`: the last digit, the number of bits before
it and the flag. -/
def scanDigits : Nat → Bool → List Nat → Nat × Nat × Bool
  | bits, eq, [] => (0, bits, eq)
  | bits, eq, [val] => (val, bits, eq)
  | bits, eq, val :: next :: vals =>
      scanDigits ((bits + natDigits) % 2 ^ 32) (if val ≠ 0 then false else eq) (next :: vals)

/-- `get_nat_bits`, on a constant without a sign: the number of bits, and the flag. -/
def getNatBits (n : NatConst) : Nat × Bool :=
  let s := match n with
    | .small val => (val, 0, true)
    | .large vals => scanDigits 0 true vals
    | .neg _ => (0, 0, true)
  if s.1 ≠ 0 then
    ((s.2.1 + noBits s.1) % 2 ^ 32, if s.1 &&& (s.1 - 1) ≠ 0 then false else s.2.2)
  else (s.2.1, s.2.2)

/-- A constant without its sign, and whether it has one. -/
def stripNeg : NatConst → NatConst × Bool
  | .neg n => (n, true)
  | n => (n, false)

/-! ## Ranges -/

section

variable {T : Type} (w maxBits : Nat) (findTypeSize : T → TypeSize)

/-- `check_nat_range` on a simple constant. -/
def checkSimpleRange (t : T) (n : NatConst) : Nat :=
  let s := findTypeSize t
  let u := if s.sign = btypeUnsigned then 1 else 0
  let m := stripNeg n
  let neg := m.2
  let r := getNatBits m.1
  let bits := r.1
  let eq := r.2
  if bits > maxBits then 5 + u
  else if s.sign = btypeUnsigned then
    if neg then 4
    else if bits ≤ s.sz then 0
    else if bits > s.msz then 4
    else 1 + u
  else if s.sign = btypeSigned then
    if bits < s.sz then 0
    else if bits ≥ s.msz then 3
    else 1 + u
  else if s.sign = btypeSigned ||| btypeLong then
    if bits < s.sz then 0
    else if bits = s.sz ∧ neg ∧ eq then 0
    else if bits ≥ s.msz then 3
    else 1 + u
  else
    if neg then 3
    else if bits < s.sz then 0
    else if bits ≥ s.msz then 3
    else 1 + u

/-- `check_nat_range`. -/
def checkNatRange (t : T) : NatValue (Exp T) → Nat
  | .calc _ => 1 + if (findTypeSize t).sign = btypeUnsigned then 1 else 0
  | .simple n => checkSimpleRange maxBits findTypeSize t n

/-- `max_type_value`; the null type is `none`, as is the null constant. -/
def maxTypeValue (t : Option T) (neg : Bool) : Option NatConst :=
  let s := match t with
    | some t => ((findTypeSize t).sz, (findTypeSize t).sign)
    | none => (maxBits, btypeUnsigned)
  let sign := s.2
  let zero := if sign &&& btypeSigned = 0 then neg else false
  let r :=
    if sign &&& btypeUnsigned = 0 then
      (if s.1 = 0 then true else zero, (s.1 + (2 ^ 32 - 1)) % 2 ^ 32)
    else (zero, s.1)
  if r.1 then some (.small 0)
  else
    match binaryNatOp w .lshift (.small 1) (makeNatValue r.2) with
    | none => none
    | some n =>
        let n :=
          if ¬neg ∨ sign &&& btypeLong = 0 then binaryNatOp w .minus n (.small 1) else some n
        if neg then n.map negateNat else n

/-- A constant that does not fit, reduced by `make_int_exp` and `make_cast_nat`, where `m` is
the greatest value of the type. -/
def reduceNat (m : Option NatConst) (n : NatConst) : Option NatConst :=
  match n with
  | .neg _ =>
      match m with
      | none => none
      | some m =>
          match binaryNatOp w .and m (negateNat n), binaryNatOp w .plus m (makeSmallNat 1) with
          | some n, some m => binaryNatOp w .minus m n
          | _, _ => none
  | n =>
      match m with
      | none => none
      | some m => binaryNatOp w .and m n

/-- The steps that `make_int_exp` and `make_cast_nat` share: the constant that stands for `n` in
the type, or `some none` if there is none. `none` is the null constant being looked into by
`check_nat_range`. -/
def fitNat (t : T) (n : NatConst) : Option (Option NatConst) :=
  let ch := checkSimpleRange maxBits findTypeSize t n
  if ch = 0 then some (some n)
  else if ch ≤ 2 then some none
  else
    let s := findTypeSize t
    if s.sign &&& btypeUnsigned = 0 ∨ s.sz ≠ s.msz then some none
    else
      match reduceNat w (maxTypeValue w maxBits findTypeSize (some t) false) n with
      | none => none
      | some n =>
          if checkSimpleRange maxBits findTypeSize t n ≠ 0 then some none else some (some n)

/-- `make_int_exp` on a simple constant. The null expression is `some none`. -/
def makeIntExp (t : T) (tag : Nat) (n : NatConst) : Option (Option (Exp T)) :=
  (fitNat w maxBits findTypeSize t n).map fun r => r.map fun n => .intLit t (.simple n) tag

/-- `CONV_INT_INT`. -/
abbrev convIntInt : Nat := 0x30

/-- `CAST_IMPLICIT`. -/
abbrev castImplicit : Nat := 0

/-- `calc_exp_value` on the literal with the type, constant and tag. -/
def calcExpValue (t : T) (n : NatValue (Exp T)) (etag : Nat) : Exp T :=
  match n with
  | .calc e => if etag ≠ expIdentifierTag then e else .intLit t n etag
  | .simple _ => .intLit t n etag

/-- `make_cast_nat` on the literal of type `s` with the constant `n` and the tag `atag`. What is
left to be calculated is a cast of this literal. -/
def makeCastNat (t s : T) (n : NatValue (Exp T)) (atag cast : Nat) : Option (Exp T) :=
  let etag := if cast = castImplicit then atag else expCastTag
  let calculated := NatValue.calc (.cast t convIntInt (calcExpValue s n atag))
  match n with
  | .calc _ =>
      -- `check_nat_range` gives 1 or 2 here
      some (.intLit t calculated etag)
  | .simple n =>
      (fitNat w maxBits findTypeSize t n).map fun r =>
        .intLit t (match r with | none => calculated | some n => .simple n) etag

end

end Tendra.Ref.Tdfc
