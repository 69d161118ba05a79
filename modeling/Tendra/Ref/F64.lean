import Mathlib.Data.BitVec
import Tendra.Ref.Exp
import Tendra.Ref.Flpt

/-!
# The pool of floating point numbers and 64-bit integers: `flpt/flpt.c`, `flpt/f64.c`

Numbers that do not fit an `int` live in the array `flptnos`, and an expression
holds an index into it. Free entries form a list that is threaded through their
exponents; the array grows when the last of them is handed out.

`flt64` is a 64-bit integer in two words, the form that constants take between
their representation in an expression and their `flt`.
-/

namespace Tendra.Ref

/-- `initial_flpts`. -/
def initialFlpts : Nat := 50

/-- `extra_flpts`. -/
def extraFlpts : Nat := 50

/-- The static data of `flpt.c`: `flptnos` up to `tot_flpts`, the head of the
free list and the number of free entries. -/
structure Pool where
  nos : Nat → Flt
  tot : Nat
  flptfree : Nat
  flptLeft : Int
  fzeroNo : Nat
  foneNo : Nat

namespace Pool

/-- `flptnos[i] = f`. -/
def set (p : Pool) (i : Nat) (f : Flt) : Pool :=
  { p with nos := fun j => if j = i then f else p.nos j }

/-- `flptnos[i].exp = e`. -/
def setExp (p : Pool) (i : Nat) (e : Int) : Pool := p.set i { p.nos i with exp := e }

/-- `more_flpts`: each new entry but the first points at the one before it. -/
def more (p : Pool) : Pool :=
  { p with
    nos := fun j =>
      if p.tot < j ∧ j < p.tot + extraFlpts then { p.nos j with exp := (j : Int) - 1 }
      else p.nos j
    tot := p.tot + extraFlpts
    flptfree := p.tot + extraFlpts - 1
    flptLeft := extraFlpts }

/-- `new_flpt`. -/
def new (p : Pool) : Nat × Pool :=
  let r := p.flptfree
  let p := { p with flptfree := (p.nos r).exp.toNat, flptLeft := p.flptLeft - 1 }
  (r, if p.flptLeft = 0 then p.more else p)

/-- `flpt_ret`. -/
def ret (p : Pool) (f : Nat) : Pool :=
  let p := p.setExp f p.flptfree
  { p with flptfree := f, flptLeft := p.flptLeft + 1 }

/-- `init_flpt`. The entries that the array starts with are cleared; `mem` is
what the memory behind it holds. -/
def init (mem : Nat → Flt) : Pool :=
  let start : Pool :=
    { nos := fun j =>
        if j < initialFlpts then
          ⟨List.replicate 10 0, 0, if j = 0 then 0 else (j : Int) - 1⟩
        else mem j
      tot := initialFlpts
      flptfree := initialFlpts - 1
      flptLeft := initialFlpts
      fzeroNo := 0
      foneNo := 0 }
  let (fzero, p) := start.new
  let (fone, p) := p.new
  let p := { p with fzeroNo := fzero, foneNo := fone }
  let p := p.set fzero (fltZero (p.nos fzero))
  p.set fone { fltZero (p.nos fone) with
    mant := 1 :: (fltZero (p.nos fone)).mant.drop 1
    sign := 1 }

/-- The number that `floatrep_aux` makes of the digits of `n`; `fr` is what the local variable of
that name held. -/
def floatrepFlt (n : BitVec 32) (sign : Int) (fr : Flt) : Flt :=
  let fr := fltZero fr
  if n = 0 then fr
  else
    let t (i : Nat) : Nat := (n >>> (i * 16) &&& 0xffff).toNat
    if t 1 ≠ 0 then { fr.store [t 1, t 0] with sign := sign, exp := 1 }
    else { fr.store [t 0] with sign := sign, exp := 0 }

/-- `floatrep_aux`. -/
def floatrepAux (p : Pool) (fr : Flt) (n : BitVec 32) (sign : Int) : Nat × Pool :=
  let (res, p) := p.new
  (res, p.set res (floatrepFlt n sign fr))

/-- `floatrep_unsigned`. -/
def floatrepUnsigned (p : Pool) (fr : Flt) (n : BitVec 32) : Nat × Pool := floatrepAux p fr n 1

end Pool

/-- `flt64`. -/
structure F64 where
  big : BitVec 32
  small : BitVec 32
deriving DecidableEq, Repr

/-- The negation that `flt_to_f64`, `f64_to_flt` and `neg_fn` write out. -/
def F64.neg (x : F64) : F64 :=
  let small := ~~~x.small
  let big := ~~~x.big
  ⟨if small = 0xffffffff then big + 1 else big, small + 1⟩

/-- The value part of `flt_to_f64` for a number with exponent `i`: the digit of
weight one and the three before it. -/
def mantToF64 (mant : List Nat) (i : Nat) : F64 :=
  let dig (k : Nat) := BitVec.ofNat 32 (mant.getD k 0)
  let small := if i > 0 then dig i + dig (i - 1) <<< 16 else dig i
  let big := if i > 1 then dig (i - 2) else 0
  let big := if i > 2 then big + dig (i - 3) <<< 16 else big
  ⟨big, small⟩

/-- `flt_to_f64`, with the flag `ov`. -/
def fltToF64 (f : Flt) (sg : Bool) : Run (F64 × Bool) :=
  if f.sign = 0 ∨ f.exp < 0 then .ok (if f.sign = -1 then F64.neg ⟨0, 0⟩ else ⟨0, 0⟩, false)
  else
    let i := f.exp.toNat
    if f.mant.length ≤ i then .error .outside
    else
      let res := mantToF64 f.mant i
      let ov := i > 3 || (sg && res.big.msb)
      .ok (if f.sign = -1 then res.neg else res, ov)

/-- The number that `f64_to_flt` stores over `res`. -/
def f64Flt (a : F64) (sg : Bool) (res : Flt) : Flt :=
  let res := fltZero res
  if a.big = 0 ∧ a.small = 0 then res
  else
    let neg := sg && a.big.msb
    let a := if neg then a.neg else a
    let w (x : BitVec 32) : Nat := (x >>> 16).toNat
    let l (x : BitVec 32) : Nat := (x &&& 0xffff).toNat
    let sign := if neg then -1 else 1
    if a.big = 0 then
      if a.small &&& 0xffff0000 = 0 then { res.store [l a.small] with sign := sign, exp := 0 }
      else { res.store [w a.small, l a.small] with sign := sign, exp := 1 }
    else if a.big &&& 0xffff0000 = 0 then
      { res.store [l a.big, w a.small, l a.small] with sign := sign, exp := 2 }
    else { res.store [w a.big, l a.big, w a.small, l a.small] with sign := sign, exp := 3 }

/-- `f64_to_flt`. -/
def f64ToFlt (p : Pool) (a : F64) (sg : Bool) : Nat × Pool :=
  let (r, p) := p.new
  (r, p.set r (f64Flt a sg (p.nos r)))

/-- Whether `f64_to_flpt` keeps a number of a shape as a plain `int`. -/
def fitsInt (a : F64) (sg : Bool) (sz : Nat) : Bool :=
  if sg then a.small.sshiftRight 31 = a.big
  else a.big = 0 && (a.small &&& 0x80000000 = 0 || sz ≤ 32)

/-- `f64_to_flpt`: the number of the constant, the flag `pr`, and the pool. -/
def f64ToFlpt (p : Pool) (a : F64) (sg : Bool) (sz : Nat) : Int × Bool × Pool :=
  if fitsInt a sg sz then (a.small.toInt, false, p)
  else
    let (r, p) := f64ToFlt p a sg
    (r, true, p)

/-- `int_to_f64`. -/
def intToF64 (i : BitVec 32) (sg : Bool) : F64 :=
  ⟨if sg && i.msb then -1 else 0, i⟩

/-- `exp_to_f64`. The number of a plain constant is cut to an `int`. -/
def expToF64 (p : Pool) (e : Node) : Run F64 :=
  if isbigval e then (fltToF64 (p.nos e.no.toNat) e.sh.isSigned).map Prod.fst
  else .ok (intToF64 (BitVec.ofInt 32 e.no) e.sh.isSigned)

end Tendra.Ref
