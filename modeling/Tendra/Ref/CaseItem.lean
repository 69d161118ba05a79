import Tendra.Ref.Refactor

/-!
# The branches of a case: `construct/exp.c`, `refactor/refactor.c`, `construct/install_fns.c`

`f_case` puts its branches one by one into the list at `global_case`, in the order of the control
shape. `case_item` looks for the place with `docmp_f` and joins a branch to its neighbours when
they go to one label and the numbers of the bounds are consecutive ints. A C `int` has 32 bits here
and its arithmetic wraps.

A branch is an `exp` for its lower bound, with the upper one as its child where it is another one,
and the label it goes to. `error` prints a message and comes back.
-/

namespace Tendra.Ref

/-! ## Comparison of constants -/

/-- The number of a constant as `docmp` reads it in a shape of at most 32 bits. -/
def docmpArg (sha : Shape) (c : BitVec 32) : Int :=
  match sha.size, sha.isSigned with
  | 8, true => (if c &&& 0x80 ≠ 0 then c ||| ~~~0x7f else c &&& 0xff).toInt
  | 8, false => (c &&& 0xff).toNat
  | 16, true => (if c &&& 0x8000 ≠ 0 then c ||| ~~~0x7fff else c &&& 0xffff).toInt
  | 16, false => (c &&& 0xffff).toNat
  | _, true => c.toInt
  | _, false => c.toNat

/-- `docmp`. -/
def docmp (sha : Shape) (t : Ntest) (c1 c2 : BitVec 32) : Bool :=
  t.holds (docmpArg sha c1) (docmpArg sha c2)

/-- The comparison of two `flt64` in `docmp_f`. -/
def f64Less (sg : Bool) (x y : F64) : Bool :=
  let lt := fun a b : BitVec 32 => if sg then a.slt b else a.ult b
  if lt x.big y.big then true
  else if lt y.big x.big then false
  else x.small.ult y.small

/-- `docmp_f`. -/
def docmpF (p : Pool) (t : Ntest) (a b : Node) : Run Bool :=
  if a.sh.size ≤ 32 then .ok (docmp a.sh t (BitVec.ofInt 32 a.no) (BitVec.ofInt 32 b.no))
  else do
    let xa ← expToF64 p a
    let xb ← expToF64 p b
    let eq : Bool := xa.big = xb.big ∧ xa.small = xb.small
    let less := !eq && f64Less a.sh.isSigned xa xb
    let gr := !eq && !less
    return match t with
      | .greaterThan => gr
      | .greaterThanOrEqual => gr || eq
      | .lessThan => less
      | .lessThanOrEqual => less || eq
      | .equal => eq
      | .notEqual => !eq

/-! ## The list -/

/-- A branch. -/
structure Branch where
  low : Node
  high : Option Node
  pt : Nat
deriving DecidableEq, Repr

/-- The upper bound. -/
def Branch.highest (b : Branch) : Node := b.high.getD b.low

/-- `case_item` has to put `newhigh` over the upper bound of a branch: into the child that there is,
or into a new one. -/
def Branch.extend (t : Branch) (no : Int) : Branch :=
  match t.high with
  | some c => { t with high := some { c with no := no } }
  | none => { t with high := some ⟨.holderTag, intShape 32 true, no, 0, none, 0⟩ }

/-- A branch joined with the one behind it, over what has been between them. -/
def Branch.extendOver (t n : Branch) : Branch :=
  match n.high with
  | some h => { t with high := some h }
  | none => t.extend n.highest.no

/-- The new branch joined with the one behind it. -/
def Branch.takeOver (i n : Branch) : Branch :=
  match n.high with
  | some _ => { n with low := { n.low with no := i.low.no } }
  | none =>
      match i.high with
      | some c => { i with high := some { c with no := n.highest.no } }
      | none => { i with high := some n.low }

/-- The new branch continues `t`. -/
def Branch.follows (i t : Branch) : Bool :=
  BitVec.ofInt 32 i.low.no - 1 = BitVec.ofInt 32 t.highest.no ∧ i.pt = t.pt

/-- The new branch is continued by `n`. -/
def Branch.precedes (i n : Branch) : Bool :=
  BitVec.ofInt 32 i.highest.no + 1 = BitVec.ofInt 32 n.low.no ∧ i.pt = n.pt

/-- The end of `case_item`. The branches before the place are given backwards. -/
def caseMerge (i : Branch) : List Branch → List Branch → List Branch
  | t :: rev, n :: after =>
      if i.follows t then
        if i.precedes n then rev.reverse ++ t.extendOver n :: after
        else rev.reverse ++ t.extend i.highest.no :: n :: after
      else if i.precedes n then (t :: rev).reverse ++ i.takeOver n :: after
      else (t :: rev).reverse ++ i :: n :: after
  | t :: rev, [] =>
      if i.follows t then rev.reverse ++ [t.extend i.highest.no] else (t :: rev).reverse ++ [i]
  | [], n :: after => if i.precedes n then i.takeOver n :: after else i :: n :: after
  | [], [] => [i]

/-- The loop of `case_item`: the branches that are passed, backwards, and the others. -/
@[grind =]
def casePlace (p : Pool) (i : Branch) : List Branch → List Branch → Run (List Branch × List Branch)
  | rev, [] => .ok (rev, [])
  | rev, j :: js => do
      if ← docmpF p .greaterThan i.low j.highest then casePlace p i (j :: rev) js
      else return (rev, j :: js)

/-- The list at `global_case`, and whether an overlap has been reported. -/
structure CaseSt where
  entries : List Branch
  reported : Bool
deriving DecidableEq, Repr

/-- `case_item`. -/
def caseItem (p : Pool) (st : CaseSt) (i : Branch) : Run CaseSt := do
  let (rev, after) ← casePlace p i [] st.entries
  let below ← match rev with
    | t :: _ => docmpF p .lessThanOrEqual i.low t.highest
    | [] => .ok false
  let above ← match after with
    | n :: _ => docmpF p .greaterThanOrEqual i.highest n.low
    | [] => .ok false
  let entries :=
    if isbigval i.low ∨ isbigval i.highest then rev.reverse ++ i :: after
    else caseMerge i rev after
  return ⟨entries, st.reported || below || above⟩

/-- A branch whose upper bound is below its lower one. -/
def emptyBranch (p : Pool) (b : Branch) : Run Bool :=
  match b.high with
  | some h => docmpF p .lessThan h b.low
  | none => .ok false

/-- The loop of `f_case_transform` and `f_case_notransform`. -/
@[grind =] def collectBranches (p : Pool) : List Branch → CaseSt → Run CaseSt
  | [], st => .ok st
  | hd :: branches, st => do
      if ← emptyBranch p hd then collectBranches p branches st
      else collectBranches p branches (← caseItem p st hd)

end Tendra.Ref
