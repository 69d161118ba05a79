import Tendra.Ref.F64

/-!
# Folding of integer constants: `refactor/refactor.c`

The functions that `comm_ass` and the cases of `refactor` apply to two
constants. Each changes the constant it is given first, and the pool; the model
returns both. A local `flt` starts with arbitrary contents, which the model
takes from its state.
-/

namespace Tendra.Ref

/-- What the folding functions read and write outside their arguments: the pool,
the flag `CHECK_EXTRA`, the contents of a local `flt` before it is set, and what
a store past the end of a local array does. -/
structure FoldSt where
  pool : Pool
  checkExtra : Bool
  junk : Flt
  stray : Stray

/-- `f_wrap.err_code`. -/
def wrapErr : Nat := 1

/-- `lsb_mask`. -/
def lsbMask (n : Nat) : BitVec 32 := BitVec.ofNat 32 (2 ^ n - 1)

/-- The cases 8, 16 and 32 of `dochvar`. -/
def chvarTo (mask top : BitVec 32) (sg : Bool) (i : BitVec 32) : BitVec 32 :=
  if sg ∧ i &&& mask &&& top ≠ 0 then i ||| ~~~mask else i &&& mask

/-- `dochvar`. -/
def dochvar (i : BitVec 32) (t : Shape) : BitVec 32 :=
  if t.hd = .bitfhd then
    let m := lsbMask t.size
    let x := i &&& m
    if t.isSigned then x - (((m + 1).sshiftRight 1 &&& x) <<< 1) else x
  else
    match t.size with
    | 8 => chvarTo 0xff 128 t.isSigned i
    | 16 => chvarTo 0xffff 32768 t.isSigned i
    | 32 => chvarTo 0xffffffff 0x80000000 t.isSigned i
    | 64 => i
    | n => i &&& lsbMask n

/-- `dochvar_f`. -/
def dochvarF (x : F64) (t : Shape) : F64 :=
  if t.size = 64 then x else intToF64 (dochvar x.small t) t.isSigned

/-- `pset`. -/
def pset (props mask : Nat) : Nat := props ||| mask

/-- `pclr`, for the mask of `clearbigval`. -/
def clearbigval (props : Nat) : Nat := props / 2 * 2

/-- `constovf`. -/
def constovf (n : Node) : Bool := ptst n.props 0x02

/-- `bigres`. -/
def bigres (p : Pool) (a : Node) (x : F64) : Pool × Node :=
  let r := f64ToFlpt p (dochvarF x a.sh) a.sh.isSigned a.sh.size
  (r.2.2, { a with
    no := r.1
    props := if r.2.1 then pset a.props 0x01 else clearbigval a.props })

/-- `check_size`. -/
def checkSize (a : F64) (sg : Bool) (sz : Nat) : Bool :=
  let t := a.small
  if sz > 32 then false
  else if sg ∧ t.sshiftRight 31 = a.big ∧ (sz = 32 ∨ t.sshiftRight (sz - 1) = a.big) then false
  else if ¬ sg ∧ a.big = 0 ∧ (sz = 32 ∨ t.sshiftRight sz = 0) then false
  else true

/-- `setconstovf` on the first operand, as the three arithmetic functions do it. -/
def noteOverflow (ap b : Node) (et : Nat) (x : F64) (ov : Bool) : Node :=
  if et ≠ wrapErr ∧ (ov || constovf b || checkSize x ap.sh.isSigned ap.sh.size) then
    { ap with props := pset ap.props 0x02 }
  else ap

/-- The course that `plus_fn`, `minus_fn`, `mult_fn`, `dodiv1` and `dodiv2` share
up to `flt_to_f64`: both constants are put in the pool, `op` is applied, and
its result goes over the first. The two entries are still taken. -/
def viaFlt (p : Pool) (op : Pool → Flt → Flt → Run Flt) (ap b : Node) :
    Run (Nat × Nat × Pool × F64 × Bool) := do
  let sg := ap.sh.isSigned
  let xa ← expToF64 p ap
  let (fa, p) := f64ToFlt p xa sg
  let xb ← expToF64 p b
  let (fb, p) := f64ToFlt p xb sg
  let resval ← op p (p.nos fa) (p.nos fb)
  let p := p.set fa resval
  let (x, ov) ← fltToF64 (p.nos fa) sg
  return (fa, fb, p, x, ov)

/-- The end of `plus_fn`, `minus_fn`, `mult_fn`, `dodiv1` and `dodiv2`. -/
def release (st : FoldSt) (p : Pool) (fa fb : Nat) (ap : Node) (x : F64) : FoldSt × Node :=
  let r := bigres ((p.ret fa).ret fb) ap x
  ({ st with pool := r.1 }, r.2)

/-- `plus_fn`. -/
def plusFn (st : FoldSt) (ap b : Node) (et : Nat) : Run (FoldSt × Node) := do
  let (fa, fb, p, x, ov) ← viaFlt st.pool (fun _ f g => .ok (fltAdd f g st.junk).2) ap b
  return release st p fa fb (noteOverflow ap b et x ov) x

/-- `minus_fn`. -/
def minusFn (st : FoldSt) (ap b : Node) (et : Nat) : Run (FoldSt × Node) := do
  let (fa, fb, p, x, ov) ← viaFlt st.pool (fun _ f g => .ok (fltSub f g st.junk).2) ap b
  return release st p fa fb (noteOverflow ap b et x ov) x

/-- `neg_fn`. -/
def negFn (st : FoldSt) (b : Node) : Run (FoldSt × Node) := do
  let x ← expToF64 st.pool b
  let r := bigres st.pool b x.neg
  return ({ st with pool := r.1 }, r.2)

/-- `not_fn`. -/
def notFn (st : FoldSt) (b : Node) : Run (FoldSt × Node) := do
  let x ← expToF64 st.pool b
  let r := bigres st.pool b ⟨~~~x.big, ~~~x.small⟩
  return ({ st with pool := r.1 }, r.2)

/-- `mult_fn`. -/
def multFn (st : FoldSt) (ap b : Node) (et : Nat) : Run (FoldSt × Node) := do
  let (fa, fb, p, x, ov) ←
    viaFlt st.pool (fun _ f g => (fltMul f g st.junk).map Prod.snd) ap b
  if st.checkExtra then
    if ap.sh.isSigned ∧ (ov ∨ (ap.sh.size ≤ 32 ∧ checkSize x ap.sh.isSigned 32)) then
      throw .exits
  return release st p fa fb (noteOverflow ap b et x ov) x

/-- The course of `and_fn`, `or_fn` and `xor_fn`: one operation on both words. -/
def wordsFn (op : BitVec 32 → BitVec 32 → BitVec 32) (st : FoldSt) (ap b : Node) :
    Run (FoldSt × Node) := do
  let xa ← expToF64 st.pool ap
  let xb ← expToF64 st.pool b
  let r := bigres st.pool ap ⟨op xa.big xb.big, op xa.small xb.small⟩
  return ({ st with pool := r.1 }, r.2)

/-- `and_fn`. -/
def andFn (st : FoldSt) (ap b : Node) : Run (FoldSt × Node) := wordsFn (· &&& ·) st ap b

/-- `or_fn`. -/
def orFn (st : FoldSt) (ap b : Node) : Run (FoldSt × Node) := wordsFn (· ||| ·) st ap b

/-- `xor_fn`. -/
def xorFn (st : FoldSt) (ap b : Node) : Run (FoldSt × Node) := wordsFn (· ^^^ ·) st ap b

/-- The course of `dodiv1` and `dodiv2`, which round the quotient differently. -/
def divFn (mode : RoundMode) (st : FoldSt) (ap b : Node) : Run (FoldSt × Node) := do
  let (fa, fb, p, x, _) ←
    viaFlt st.pool (fun p f g => do
      let (_, q) ← fltDiv st.stray f g st.junk
      flptRoundToInteger mode (p.nos p.foneNo) q) ap b
  return release st p fa fb ap x

/-- `dodiv1`. -/
def dodiv1 (st : FoldSt) (ap b : Node) : Run (FoldSt × Node) := divFn .r2ninf st ap b

/-- `dodiv2`. -/
def dodiv2 (st : FoldSt) (ap b : Node) : Run (FoldSt × Node) := divFn .r2zero st ap b

/-- `copy`, of a constant: a number in the pool gets an entry of its own. -/
def copyConst (p : Pool) (e : Node) : Pool × Node :=
  if isbigval e then
    let (f, p) := p.new
    (p.set f (fltCopy (p.nos e.no.toNat) (p.nos f)), { e with no := f })
  else (p, e)

/-- The course of `domod` and `dorem2`: the constants `ap` and `b` are changed,
both are returned. -/
def remFn (div : FoldSt → Node → Node → Run (FoldSt × Node)) (st : FoldSt) (ap b : Node) :
    Run (FoldSt × Node × Node) := do
  let (p, top) := copyConst st.pool ap
  let (st, top) ← div { st with pool := p } top b
  let (st, b) ← multFn st b top wrapErr
  let (st, b) ← negFn st b
  let (st, ap) ← plusFn st ap b wrapErr
  return (st, ap, b)

/-- `domod`. -/
def domod (st : FoldSt) (ap b : Node) : Run (FoldSt × Node × Node) := remFn dodiv1 st ap b

/-- `dorem2`. -/
def dorem2 (st : FoldSt) (ap b : Node) : Run (FoldSt × Node × Node) := remFn dodiv2 st ap b

/-! ## Shifts of constants

A C shift by less than nothing or by 32 places and more is left undefined by the language: `wide`
is what the machine makes of it. The counts of the shifts that are made are kept. -/

section

variable (wide : BitVec 32 → Int → BitVec 32)

/-- `x << k`. -/
def cShl (x : BitVec 32) (k : Int) : BitVec 32 := if 0 ≤ k ∧ k < 32 then x <<< k.toNat else wide x k

/-- `x >> k`, of an `int` or of an `unsigned int`. -/
def cShr (sg : Bool) (x : BitVec 32) (k : Int) : BitVec 32 :=
  if 0 ≤ k ∧ k < 32 then (if sg then x.sshiftRight k.toNat else x >>> k.toNat) else wide x k

/-- The words that `doshl` makes for `shl_tag`, and the counts. -/
def shlWords (x : F64) (pl : Int) : F64 × List Int :=
  if pl ≥ 32 then (⟨cShl wide x.small (pl - 32), 0⟩, [pl - 32])
  else
    (⟨cShl wide x.big pl ||| cShr wide false x.small (32 - pl), cShl wide x.small pl⟩,
      [pl, 32 - pl, pl])

/-- The words that `doshl` makes for `shr_tag`, and the counts. -/
def shrWords (sg : Bool) (x : F64) (pl : Int) : F64 × List Int :=
  if pl ≥ 32 then
    if sg then (⟨cShr wide true x.big 31, cShr wide true x.big (pl - 32)⟩, [pl - 32, 31])
    else (⟨0, cShr wide false x.big (pl - 32)⟩, [pl - 32])
  else
    (⟨cShr wide sg x.big pl, cShr wide false x.small pl ||| cShl wide x.big (32 - pl)⟩,
      [pl, 32 - pl, pl])

/-- What `doshl` makes of its first operand where all its places are shifted out: the number is
set to 0 before its sign is looked at. -/
def shiftedOut (p : Pool) (tag : Tag) (sg : Bool) (arg1 : Node) : Node :=
  let arg1 := { arg1 with no := 0 }
  let negative := if isbigval arg1 then (p.nos arg1.no.toNat).sign = -1 else arg1.no < 0
  let arg1 := if tag ≠ .shlTag ∧ sg ∧ negative then { arg1 with no := -1 } else arg1
  { arg1 with props := clearbigval arg1.props }

/-- `doshl`: the first operand of `e` is changed. -/
def doshl (st : FoldSt) (e arg1 arg2 : Node) : Run (FoldSt × Node × List Int) := do
  let pl := (BitVec.ofInt 32 arg2.no).toInt
  let sg := e.sh.isSigned
  let arg1 := { arg1 with sh := e.sh }
  let x ← expToF64 st.pool arg1
  if isbigval arg2 ∨ pl ≥ e.sh.size then return (st, shiftedOut st.pool e.tag sg arg1, [])
  else
    let words := if e.tag = .shlTag then shlWords wide x pl else shrWords wide sg x pl
    let r := bigres st.pool arg1 words.1
    return ({ st with pool := r.1 }, r.2, words.2)

end

end Tendra.Ref
