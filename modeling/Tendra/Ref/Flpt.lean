import Tendra.Lib.Digits

/-!
# The floating point emulator: `flpt/flpt.c`

A `flt` is a sign, an exponent and a mantissa of base 65536 digits, most
significant first, with the point after the first digit. The array of the
record has ten entries, of which the arithmetic uses the first `MANT_SIZE`;
the other two keep whatever they held, so an operation takes the old contents
of its result as an argument.

Loops that run over two digit arrays from the last digit to the first are the
recursions of `Tendra.Digits`. A loop whose number of turns depends on the data
counts them down from a bound it cannot exceed. What the C code would do
outside an array is not modelled: such an access stops the run.
-/

namespace Tendra.Ref

open Tendra.Digits

/-- How a computation of the installer can end without a result: it calls
`exit`, it accesses an array outside its bounds, or it does not terminate. -/
inductive Stop
  | exits
  | outside
  | loops
deriving DecidableEq, Repr

abbrev Run (α : Type) := Except Stop α

/-- `FBASE`, of `local/fbase.h`. -/
abbrev fbase : Nat := 65536

/-- `MANT_SIZE`, equal to `MANT_SIZE_MAX`. -/
abbrev mantSize : Nat := 8

/-- `E_MIN`. -/
def eMin : Int := -16384

/-- `E_MAX`, for a `long` of 64 bits. -/
def eMax : Int := 2 ^ 47 - 1

/-- The function status values. -/
inductive Status
  | okay
  | exp2big
  | divby0
deriving DecidableEq, Repr

/-- The rounding types. -/
inductive RoundMode
  | r2near
  | r2ninf
  | r2pinf
  | r2zero
deriving DecidableEq, Repr

/-- `flt`. -/
structure Flt where
  mant : List Nat
  sign : Int
  exp : Int
deriving DecidableEq, Repr

/-- The digits of the mantissa that the arithmetic uses. -/
def Flt.digits (f : Flt) : List Nat := f.mant.take mantSize

/-- Stores new digits over the first ones of the mantissa. -/
def Flt.store (res : Flt) (ds : List Nat) : Flt :=
  { res with mant := ds ++ res.mant.drop ds.length }

/-- `dbl`, of which the code uses twice `MANT_SIZE` digits. -/
structure Dbl where
  mant : List Nat
  sign : Int
  exp : Int
deriving DecidableEq, Repr

/-- The current rounding rule: `round_type` is static, and nothing assigns it. -/
def roundType : RoundMode := .r2near

/-- The part that `mag_cmp` and `dbl_mag_cmp` share. -/
def magnitudeCmp (s1 s2 e1 e2 : Int) (m1 m2 : List Nat) : Ordering :=
  if s1 = 0 then if s2 = 0 then .eq else .lt
  else if s2 = 0 then .gt
  else if e1 ≠ e2 then if e1 < e2 then .lt else .gt
  else Digits.cmp m1 m2

/-- `mag_cmp`. -/
def magCmp (f1 f2 : Flt) : Ordering :=
  magnitudeCmp f1.sign f2.sign f1.exp f2.exp f1.digits f2.digits

/-- `dbl_mag_cmp`. -/
def dblMagCmp (d1 d2 : Dbl) : Ordering :=
  magnitudeCmp d1.sign d2.sign d1.exp d2.exp d1.mant d2.mant

/-- `flt_int_round`: the digit `ic` follows the last one of the mantissa. -/
def fltIntRound (f : Flt) (ic : Nat) : Flt :=
  let up :=
    match roundType with
    | .r2zero => false
    | .r2pinf => f.sign = 1 ∧ ic ≠ 0
    | .r2ninf => f.sign = -1 ∧ ic ≠ 0
    | .r2near => fbase / 2 ≤ ic
  if up then
    let r := addCarry fbase 1 f.digits
    if r.2 = 0 then f.store r.1
    else { f.store (1 :: List.replicate (mantSize - 1) 0) with exp := f.exp + 1 }
  else f

/-- `dbl2float`. -/
def dbl2float (d : Dbl) (f : Flt) : Flt :=
  fltIntRound { f.store (d.mant.take mantSize) with sign := d.sign, exp := d.exp }
    (d.mant.getD mantSize 0)

/-- `flt2double`. -/
def flt2double (f : Flt) : Dbl :=
  ⟨f.digits ++ List.replicate mantSize 0, f.sign, f.exp⟩

/-- `shift_right`. -/
def shiftRight (d : Dbl) (dist : Nat) : Dbl :=
  { d with mant := (List.replicate dist 0 ++ d.mant).take (2 * mantSize), exp := d.exp + dist }

/-- The loop that shifts zeros out at the front of a mantissa. `room` is how
often the exponent may go down before it leaves its range. -/
def normalise : Nat → List Nat → Int → Option (List Nat × Int)
  | room, mant, exp =>
      if mant.headD 0 ≠ 0 then some (mant, exp)
      else
        match room with
        | 0 => none
        | room + 1 => normalise room (mant.drop 1 ++ [0]) (exp - 1)

/-- `flt_zero`. -/
def fltZero (f : Flt) : Flt :=
  { f.store (List.replicate mantSize 0) with sign := 0, exp := 0 }

/-- `flt_copy`. -/
def fltCopy (f res : Flt) : Flt :=
  { res.store f.digits with sign := f.sign, exp := f.exp }

/-- `sub_mantissas`. -/
def subMantissas (d1 d2 : Dbl) (res : Flt) : Status × Flt :=
  let cmp := dblMagCmp d1 d2
  if cmp = .eq then (.okay, fltZero res)
  else
    let dp1 := if cmp = .lt then d2 else d1
    let dp2 := if cmp = .lt then d1 else d2
    match normalise (res.exp - eMin).toNat (sub fbase dp1.mant dp2.mant).1 res.exp with
    | none => (.exp2big, res)
    | some (mant, exp) => (.okay, dbl2float ⟨mant, dp1.sign, exp⟩ res)

/-- `add_mantissas`. -/
def addMantissas (d1 d2 : Dbl) (res : Flt) : Status × Flt :=
  if d1.sign = d2.sign then
    let r := add fbase d1.mant d2.mant
    if r.2 ≠ 0 then
      let exp := res.exp + 1
      if exp ≥ eMax ∨ exp ≤ eMin then (.exp2big, { res with sign := d1.sign })
      else (.okay, dbl2float ⟨r.2 :: r.1.take (2 * mantSize - 1), d1.sign, exp⟩ res)
    else (.okay, dbl2float ⟨r.1, d1.sign, res.exp⟩ res)
  else subMantissas d1 d2 res

/-- `flt_add`. -/
def fltAdd (f1 f2 res : Flt) : Status × Flt :=
  if f1.sign = 0 then (.okay, fltCopy f2 res)
  else if f2.sign = 0 then (.okay, fltCopy f1 res)
  else
    let d1 := flt2double f1
    let d2 := flt2double f2
    let d1' := if d1.exp < d2.exp then shiftRight d1 (d2.exp - d1.exp).toNat else d1
    let d2' := if d1.exp > d2.exp then shiftRight d2 (d1.exp - d2.exp).toNat else d2
    addMantissas d1' d2' { res with exp := d1'.exp }

/-- `flt_sub`. -/
def fltSub (f1 f2 res : Flt) : Status × Flt :=
  fltAdd f1 { f2 with sign := -f2.sign } res

/-- The innermost loop of `flt_mul`: `temp` is added at place `k - 1` of the
accumulator and carried towards the front. -/
def accumulate : List Nat → Nat → Nat → Run (List Nat)
  | acc, k, temp =>
      if temp = 0 then .ok acc
      else
        match k with
        | 0 => .error .outside
        | k + 1 =>
            let atl := acc.getD k 0 + temp % 65536
            accumulate (acc.set k (atl % 65536)) k (atl / 65536 + temp / 65536)

/-- The loop over the digits of the second factor. `k` is one more than the
place of the product of the first of them. -/
def mulRow (x : Nat) : List Nat → Nat → List Nat → Run (List Nat)
  | [], _, acc => .ok acc
  | y :: ys, k, acc => do
      let acc ← mulRow x ys (k + 1) acc
      accumulate acc k (x * y)

/-- The loop over the digits of the first factor. -/
def mulRows (ys : List Nat) : List Nat → Nat → List Nat → Run (List Nat)
  | [], _, acc => .ok acc
  | x :: xs, k, acc => do
      let acc ← mulRows ys xs (k + 1) acc
      mulRow x ys k acc

/-- `flt_mul`. -/
def fltMul (f1 f2 res : Flt) : Run (Status × Flt) :=
  if f1.sign = 0 ∨ f2.sign = 0 then .ok (.okay, fltZero res)
  else do
    let sign := if f1.sign = f2.sign then 1 else -1
    let exp := f1.exp + f2.exp + 1
    if exp ≥ eMax ∨ exp ≤ eMin then return (.exp2big, res)
    let acc ← mulRows f2.digits f1.digits 2 (List.replicate (2 * mantSize) 0)
    match normalise (exp - eMin - 1).toNat acc exp with
    | none => return (.exp2big, res)
    | some (mant, exp) => return (.okay, dbl2float ⟨mant, sign, exp⟩ res)

/-! ## Division -/

/-- Halves `x` until `stop` holds of it, and counts. -/
def halvings (stop : Nat → Bool) : Nat → Nat → Run Nat
  | fuel, x =>
      if stop x then .ok 0
      else
        match fuel with
        | 0 => .error .loops
        | fuel + 1 => (halvings stop fuel (x / 2)).map (· + 1)

/-- `bit_diff`, from the first digits of the dividend and the divisor. Sixteen
halvings make a digit zero, so a further one changes nothing. -/
def bitDiff (t s : Nat) : Run Int :=
  if t ≥ s then (halvings (· < s) 16 t).map fun n => (n : Int)
  else (halvings (· ≤ t) 16 s).map fun n => 1 - (n : Int)

/-- The loop that shifts a mantissa `n` places right. The mask keeps one bit too
many of `c`; the cast to a digit drops it. -/
def shiftDown (n : Nat) : Nat → List Nat → List Nat
  | _, [] => []
  | c, d :: ds =>
      let c := (d + c * 65536) % 2 ^ 32
      c / 2 ^ n % 65536 :: shiftDown n (c % 2 ^ (n + 1)) ds

/-- The loop that shifts the divisor one place right, and whether it was not
zero before. -/
@[grind =] def halve : Nat → List Nat → List Nat × Bool
  | _, [] => ([], false)
  | c, d :: ds =>
      let c := d + c * 65536
      let r := halve (c % 2) ds
      (c / 2 :: r.1, c ≠ 0 || r.2)

/-- The variables of the quotient loop. -/
structure DivSt where
  a1 : List Nat
  a2 : List Nat
  r : List Nat
  bit : Nat
  bitpos : Nat
  sg : Bool
deriving DecidableEq, Repr

/-- What a store past the end of an array comes to, which C leaves undefined: the
model stops there, or the store falls on memory that nothing reads. -/
inductive Stray where
  | stops | lost
deriving DecidableEq, Repr

/-- `r[bitpos] |= 1 << bit`. -/
def setBit (stray : Stray) (r : List Nat) (bitpos bit : Nat) : Run (List Nat) :=
  if bitpos < r.length then .ok (r.set bitpos (r.getD bitpos 0 ||| 1 <<< bit))
  else if stray = .lost then .ok r
  else .error .outside

/-- One turn of the quotient loop, with `keep_on`. A borrow out of the first
digit, or no carry out of it, leaves the remainder negative. -/
def divStep (stray : Stray) (s : DivSt) : Run (DivSt × Bool) := do
  let t := if s.sg then sub fbase s.a1 s.a2 else add fbase s.a1 s.a2
  let sg : Bool := if s.sg then t.2 = 0 else t.2 ≠ 0
  let r ← if sg then setBit stray s.r s.bitpos s.bit else .ok s.r
  let h := halve 0 s.a2
  let bit := if s.bit = 0 then 15 else s.bit - 1
  let bitpos := if s.bit = 0 then s.bitpos + 1 else s.bitpos
  return (⟨t.1, h.1, r, bit, bitpos, sg⟩, h.2)

/-- The quotient loop. -/
def divLoop (stray : Stray) : Nat → DivSt → Run DivSt
  | 0, _ => .error .loops
  | fuel + 1, s => do
      let (s, keepOn) ← divStep stray s
      if keepOn then divLoop stray fuel s else return s

/-- The loop that lines up the quotient: `k` comes in at the last digit. -/
def shiftUp (n k : Nat) : List Nat → List Nat × Nat
  | [] => ([], k)
  | x :: xs =>
      let r := shiftUp n k xs
      let t := x * 2 ^ n + r.2
      (t % 65536 :: r.1, t / 65536)

/-- What follows the quotient loop: the quotient is lined up, and moved one
digit to the left if its first digit is zero. -/
def lineUp (bitDiff finalExpt : Int) (r : List Nat) : List Nat × Int :=
  let finalShift := if bitDiff > 0 then bitDiff.toNat
    else if bitDiff > -16 then (16 + bitDiff).toNat else 0
  let finalExpt := if bitDiff > 0 then finalExpt else finalExpt - 1
  let last := r.getD mantSize 0
  let k := (last <<< finalShift &&& 0x8000) >>> 15 + last >>> (16 - finalShift)
  let mant := (shiftUp finalShift k (r.take mantSize)).1
  if mant.headD 0 = 0 then (mant.drop 1 ++ [0], finalExpt - 1) else (mant, finalExpt)

/-- `flt_div`. The divisor has 144 bits, so it vanishes after that many turns. -/
def fltDiv (stray : Stray) (f1 f2 res : Flt) : Run (Status × Flt) :=
  if f2.sign = 0 then .ok (.divby0, res)
  else if f1.sign = 0 then .ok (.okay, fltZero res)
  else do
    let a1 := f1.digits ++ [0]
    let a2 := f2.digits ++ [0]
    let bd ← bitDiff (a1.headD 0) (a2.headD 0)
    let a1 := if bd > 0 then shiftDown bd.toNat 0 a1 else a1
    let a2 := if bd < 0 then shiftDown (-bd).toNat 0 a2 else a2
    let s ← divLoop stray 145 ⟨a1, a2, List.replicate (mantSize + 1) 0, 0, 0, true⟩
    let q := lineUp bd (f1.exp - f2.exp) s.r
    let sign := if f1.sign = f2.sign then 1 else -1
    return (.okay, { res.store q.1 with sign := sign, exp := q.2 })

/-! ## Rounding -/

/-- The loop that counts the bits of a digit by shifting a mask past it. -/
def ndig : Nat → Nat → Nat → Nat
  | 0, _, _ => 0
  | fuel + 1, mask, c => if mask &&& c ≠ 0 then ndig fuel (mask * 2 % 2 ^ 32) c + 1 else 0

/-- `ndig0`: a mask of 32 bits has left the word after that many shifts. -/
def ndig0 (c : Nat) : Nat := ndig 32 (fbase - 1) c

/-- The loop that finds the bit and the digit to be rounded. -/
def roundPos : Nat → Int → Nat → Int × Nat
  | 0, bitpos, digpos => (bitpos, digpos)
  | fuel + 1, bitpos, digpos =>
      if bitpos < 1 then roundPos fuel (bitpos + 16) (digpos + 1) else (bitpos, digpos)

/-- The table `bitround`. -/
def bitround (n : Nat) : Nat := 2 ^ n

/-- The table `bitmask`. -/
def bitmask (n : Nat) : Nat := 65536 - 2 ^ n

/-- What the rounding modes share: one is added at bit `bitpos` of digit
`digpos`, and the bits from there on are cleared. -/
def roundUp (digpos bitpos : Nat) (f : Flt) : Run Flt :=
  let m := f.mant.set digpos (f.mant.getD digpos 0 &&& bitmask bitpos)
  let r := addCarry fbase (bitround bitpos) (m.take (digpos + 1))
  let m := r.1 ++ m.drop (digpos + 1)
  let exp := if r.2 ≠ 0 then f.exp + 1 else f.exp
  let i := if exp ≥ mantSize then mantSize - 1 else exp.toNat
  let m := if r.2 ≠ 0 then r.2 :: m.take i ++ m.drop (i + 1) else m
  if digpos + r.2 < m.length then
    .ok { f with
      mant := m.set (digpos + r.2) (m.getD (digpos + r.2) 0 &&& bitmask (bitpos + 1))
      exp := exp }
  else .error .outside

/-- `flpt_round`. -/
@[grind =] def flptRound (mode : RoundMode) (posn : Int) (f : Flt) : Run Flt :=
  if f.sign = 0 then .ok f
  else
    let start := (ndig0 (f.mant.headD 0) : Int) - posn
    let pos := roundPos (1 - start).toNat start 0
    let bitpos := (pos.1 - 1).toNat
    let digpos := pos.2
    if f.mant.length ≤ digpos then .error .outside
    else
      let low := (f.digits.drop (digpos + 1))
      let bitsDiscarded := low.any (· ≠ 0)
      let f := f.store (f.digits.take (digpos + 1) ++ low.map fun _ => 0)
      let dig := f.mant.getD digpos 0
      let cut := { f with mant := f.mant.set digpos (dig &&& bitmask (bitpos + 1)) }
      let exact := !bitsDiscarded && dig &&& bitmask (bitpos + 1) = dig
      let half := { f with mant := f.mant.set digpos (dig ||| bitround bitpos) }
      match mode with
      | .r2zero => .ok cut
      | .r2pinf => if f.sign ≠ 1 ∨ exact then .ok cut else roundUp digpos bitpos half
      | .r2ninf => if f.sign = 1 ∨ exact then .ok cut else roundUp digpos bitpos half
      | .r2near => roundUp digpos bitpos f

/-- `flpt_round_to_integer`, without the `int` it returns, which only the
callers for 32-bit shapes read. `one` is the number at `fone_no`. -/
def flptRoundToInteger (mode : RoundMode) (one f : Flt) : Run Flt :=
  if f.sign = 0 then .ok f
  else
    let intbits := (ndig0 (f.mant.headD 0) : Int) + f.exp * 16
    if intbits ≥ 0 then flptRound mode intbits f
    else
      match mode with
      | .r2zero => .ok f
      | .r2pinf => .ok (if f.sign = 1 then fltCopy one f else fltZero f)
      | .r2ninf => .ok (if f.sign = -1 then { fltCopy one f with sign := -1 } else fltZero f)
      | .r2near => .ok f

/-- The first loop of `flpt_newdig`: the digits are multiplied by `base`, from the last to the
first. -/
def timesBase (base : Nat) : List Nat → List Nat × Nat
  | [] => ([], 0)
  | x :: xs =>
      let r := timesBase base xs
      let c := x * base + r.2
      (c % fbase :: r.1, c / fbase)

/-- What `flpt_newdig` does with a carry out of the first digit. -/
def carryOut (c : Nat) (res : Flt) : Flt :=
  if c = 0 then res
  else
    let exp := res.exp + 1
    let i := if exp ≥ mantSize then mantSize - 1 else exp.toNat
    { res with mant := c % fbase :: res.mant.take i ++ res.mant.drop (i + 1), exp := exp }

/-- `flpt_newdig`. The loop that adds `dig` may stop early: without a carry the digits stay. -/
def flptNewdig (dig : Nat) (res : Flt) (base : Nat) : Flt :=
  let res := if dig ≠ 0 then { res with sign := 1 } else res
  let r := timesBase base res.digits
  let res := carryOut r.2 (res.store r.1)
  if res.exp ≥ mantSize then res
  else
    let i := (res.exp + 1).toNat
    let r := addCarry fbase dig (res.mant.take i)
    carryOut r.2 { res with mant := r.1 ++ res.mant.drop i }

end Tendra.Ref
