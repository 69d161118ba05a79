import Tendra.Ref.Fold
import Tendra.Lib.Word

/-!
# Integer expressions and their rewriting

## Values of integer expressions

The operators on integers that `refactor` rearranges, on the values of their
shapes. `shl_tag` discards high bits, `shr_tag` is arithmetic on signed shapes
and logical on unsigned ones, and the others are reduced to their shape. A
constant has the value that `exp_to_f64` decodes.

The value of an expression is computed over a valuation of some of its parts:
what `refactor` moves about without looking inside is a part whose value is
given.
-/

namespace Tendra.Ref

open Tendra.Word

mutual

/-- Expressions are compared as trees. -/
def Exp.decEq : (a b : Exp) → Decidable (a = b)
  | .mk n as, .mk m bs =>
      if h : n = m then
        match Exp.decEqList as bs with
        | isTrue h' => isTrue (by rw [h, h'])
        | isFalse h' => isFalse fun h => h' (Exp.mk.inj h).2
      else isFalse fun h' => h (Exp.mk.inj h').1

def Exp.decEqList : (as bs : List Exp) → Decidable (as = bs)
  | [], [] => isTrue rfl
  | [], _ :: _ => isFalse nofun
  | _ :: _, [] => isFalse nofun
  | a :: as, b :: bs =>
      match Exp.decEq a b, Exp.decEqList as bs with
      | isTrue h, isTrue h' => isTrue (by rw [h, h'])
      | isFalse h, _ => isFalse fun h' => h (List.cons.inj h').1
      | _, isFalse h => isFalse fun h' => h (List.cons.inj h').2

end

instance : DecidableEq Exp := Exp.decEq

/-- Reduction to a shape. -/
def Shape.wrap (sh : Shape) (v : Int) : Int := Word.wrap sh.isSigned sh.size v

/-- The values of an integer shape. -/
def Shape.Has (sh : Shape) (v : Int) : Prop := InRange sh.isSigned sh.size v

instance (sh : Shape) (v : Int) : Decidable (sh.Has v) := by
  unfold Shape.Has
  infer_instance

/-- The value of a constant, as `exp_to_f64` decodes it. -/
def constVal (p : Pool) (n : Node) : Int :=
  match expToF64 p n with
  | .ok x => n.sh.wrap (decode n.sh.isSigned (x.big ++ x.small))
  | .error _ => 0

/-- An operation of the language on integers. -/
def intPrim (p : Pool) (n : Node) : List Int → Int
  | [] => if n.tag = .valTag then constVal p n else 0
  | [a] =>
      match n.tag with
      | .chvarTag => n.sh.wrap a
      | .negTag => n.sh.wrap (-a)
      | .notTag => n.sh.wrap (-a - 1)
      | _ => 0
  | [a, b] =>
      match n.tag with
      | .plusTag => n.sh.wrap (a + b)
      | .minusTag => n.sh.wrap (a - b)
      | .multTag => n.sh.wrap (a * b)
      | .andTag => decode n.sh.isSigned (BitVec.ofInt n.sh.size a &&& BitVec.ofInt n.sh.size b)
      | .orTag => decode n.sh.isSigned (BitVec.ofInt n.sh.size a ||| BitVec.ofInt n.sh.size b)
      | .xorTag => decode n.sh.isSigned (BitVec.ofInt n.sh.size a ^^^ BitVec.ofInt n.sh.size b)
      | .shlTag => n.sh.wrap (a * 2 ^ b.toNat)
      | .shrTag => a / 2 ^ b.toNat
      | _ => 0
  | _ => 0

mutual

/-- The value of an integer expression over the given values of its parts. -/
def intVal (p : Pool) (part : Exp → Option Int) : Exp → Int
  | .mk n args =>
      match part (.mk n args) with
      | some v => v
      | none => intPrim p n (intVals p part args)

def intVals (p : Pool) (part : Exp → Option Int) : List Exp → List Int
  | [] => []
  | e :: es => intVal p part e :: intVals p part es

end

/-- The valuation in which only `x` has a value of its own. -/
def atValue (x : Exp) (v : Int) (e : Exp) : Option Int := if e = x then some v else none

/-- `ntest`, as far as integers are compared. -/
inductive Ntest
  | greaterThan | greaterThanOrEqual | lessThan | lessThanOrEqual | equal | notEqual
deriving DecidableEq, Repr

/-- The codes of `install_fns.c`. -/
def Ntest.code : Ntest → Nat
  | .greaterThan => 1
  | .greaterThanOrEqual => 2
  | .lessThan => 3
  | .lessThanOrEqual => 4
  | .equal => 5
  | .notEqual => 6

/-- The test with a code. Those of integers are below 7: `f_integer_test` has
converted the others. -/
def Ntest.ofCode : Nat → Option Ntest
  | 1 => some .greaterThan
  | 2 => some .greaterThanOrEqual
  | 3 => some .lessThan
  | 4 => some .lessThanOrEqual
  | 5 => some .equal
  | 6 => some .notEqual
  | _ => none

/-- The comparison that a test makes. -/
def Ntest.holds (t : Ntest) (a b : Int) : Bool :=
  match t with
  | .greaterThan => a > b
  | .greaterThanOrEqual => a ≥ b
  | .lessThan => a < b
  | .lessThanOrEqual => a ≤ b
  | .equal => a = b
  | .notEqual => a ≠ b

/-- A test of two integers holds: control does not go to the label. -/
def testHolds (p : Pool) (part : Exp → Option Int) (e : Exp) : Bool :=
  match Ntest.ofCode (testNumber e.node), e.args with
  | some t, [x, y] => t.holds (intVal p part x) (intVal p part y)
  | _, _ => false

/-!
## Rewriting of tests and shifts: `refactor/refactor.c`

`tests_to_bounds` makes one unsigned test of two tests on one expression, and
the cases of `shl_tag`, `shr_tag` and `and_tag` in `refactor` move shifts and
masks across each other. A C `int` has 32 bits here and its arithmetic wraps.

`hold_refactor` applies `refactor` again to what has just been built. The model
leaves that out: each rewriting is one step.
-/

/-- What a declaration says of the name it declares: the properties that the
rewritings read. -/
structure Dec where
  isvar : Bool
  isglob : Bool
  iscaonly : Bool
deriving DecidableEq, Repr

/-- `me_shint`. -/
def meShint (sh : Shape) (i : BitVec 32) : Exp := .mk ⟨.valTag, sh, i.toInt, 0, none, 0⟩ []

/-- `me_b3`. -/
def meB3 (sh : Shape) (arg1 arg2 : Exp) (nm : Tag) : Exp := .mk ⟨nm, sh, 0, 0, none, 0⟩ [arg1, arg2]

/-- `me_u3`. -/
def meU3 (sh : Shape) (arg1 : Exp) (nm : Tag) : Exp := .mk ⟨nm, sh, 0, 0, none, 0⟩ [arg1]

/-! ## Two tests on one expression -/

/-- The table `maxes`. -/
def maxes : ShapeHd → BitVec 32
  | .scharhd => 127
  | .ucharhd => 255
  | .swordhd => 32767
  | .uwordhd => 65535
  | .slonghd => 0x7fffffff
  | .ulonghd => 0xffffffff
  | _ => 0

/-- The table `mins`. -/
def mins : ShapeHd → BitVec 32
  | .scharhd => -128
  | .swordhd => -32768
  | .slonghd => 0xffffffff
  | _ => 0

/-- The table `us_shape`, on the integer shapes. -/
def usShape (sh : Shape) : Shape :=
  match sh.hd with
  | .scharhd | .ucharhd => intShape 8 false
  | .swordhd | .uwordhd => intShape 16 false
  | .slonghd | .ulonghd => intShape 32 false
  | _ => sh

/-- `make_test`. -/
def makeTest (nt : Ntest) (lab : Option Nat) (arg1 arg2 : Exp) (nm : Tag) : Exp :=
  .mk ⟨nm, topShape, 0, nt.code, lab, 0⟩ [arg1, arg2]

/-- `simple`. -/
def simple (decs : Nat → Dec) : Exp → Bool
  | .mk n args =>
      match n.tag, args with
      | .contTag, [.mk m margs] =>
          match m.tag, margs with
          | .nameTag, _ => true
          | .contTag, [c] => c.tag = .nameTag
          | .reffTag, [.mk k [c]] => k.tag = .contTag ∧ c.tag = .nameTag
          | _, _ => false
      | .nameTag, _ => ¬ (decs n.dec).isvar
      | _, _ => false

/-- A test and its constant, after the constant has been moved by one so that
`greater_than` becomes `greater_than_or_equal`. -/
def closeBelow (hd : ShapeHd) (nt : Ntest) (n : BitVec 32) : Option (Ntest × BitVec 32) :=
  if nt = .greaterThan then
    if n = maxes hd then none else some (.greaterThanOrEqual, n + 1)
  else some (nt, n)

/-- The upper bound as a `less_than_or_equal` test. -/
def closeAbove (hd : ShapeHd) (nt : Ntest) (n : BitVec 32) : Option (BitVec 32) :=
  if nt = .lessThan then
    if n = mins hd then none else some (n - 1)
  else if nt = .lessThanOrEqual then some n
  else none

/-- The bounds that `tests_to_bounds` finds. -/
def bounds (sh : Shape) (nta : Ntest) (na : BitVec 32) (ntb : Ntest) (nb : BitVec 32) :
    Option (BitVec 32 × BitVec 32) := do
  let (nta, na) ← closeBelow sh.hd nta na
  let (ntb, nb) ← closeBelow sh.hd ntb nb
  let (nta, na, ntb, nb) :=
    if ntb = .greaterThanOrEqual then (ntb, nb, nta, na) else (nta, na, ntb, nb)
  if nta ≠ .greaterThanOrEqual then none
  else
    let nb ← closeAbove sh.hd ntb nb
    if sh.isSigned then
      if nb.slt na then none else some (na, nb)
    else
      if nb.ult na then none else some (na, nb)

/-- `tests_to_bounds`: two tests with constants, on the expression `x`. -/
def testsToBounds (decs : Nat → Dec) (a b : Exp) : Option Exp :=
  match a.args, b.args with
  | [x, ca], [_, cb] =>
      if simple decs x then none
      else
        match Ntest.ofCode (testNumber a.node), Ntest.ofCode (testNumber b.node) with
        | some nta, some ntb =>
            match bounds x.sh nta (BitVec.ofInt 32 ca.no) ntb (BitVec.ofInt 32 cb.no) with
            | none => none
            | some (na, nb) =>
                if na = nb then some (makeTest .equal a.pt x (meShint x.sh na) .testTag)
                else
                  let us := usShape x.sh
                  let s := meB3 us x (meShint x.sh na) .minusTag
                  some (makeTest .lessThanOrEqual a.pt s (meShint us (nb - na)) .testTag)
        | _, _ => none
  | _, _ => none

/-! ## Shifts and masks -/

/-- `1 << n` in C. The language leaves a shift by the width or more undefined:
`far` is what the machine makes of it. -/
def oneShl (far : Nat → BitVec 32) (n : Nat) : BitVec 32 := if n < 32 then 1 <<< n else far n

/-- The case of `shr_tag`. -/
def refactorShr (n : Node) (e1 cr : Exp) : Option Exp :=
  match e1 with
  | .mk n1 [e11, cq] =>
      if n1.tag = .shlTag ∧ cr.tag = .valTag then
        match e11 with
        | .mk n11 [x, cp] =>
            if n11.tag = .shrTag ∧ cq.tag = .valTag then
              if cr.no ≥ cq.no ∧ cp.tag = .valTag ∧ cq.no ≥ cp.no then
                some (.mk n [meB3 n1.sh x (meShint n1.sh (BitVec.ofInt 32 (cq.no - cp.no))) .shlTag,
                  cr])
              else none
            else narrow n n1 e11 cq cr
        | _ => narrow n n1 e11 cq cr
      else none
  | _ => none
where
  /-- Shifting up and down by the same count, as a change of variety. -/
  narrow (n n1 : Node) (x cq cr : Exp) : Option Exp :=
    if cq.tag = .valTag ∧ cq.no = cr.no ∧
        (cq.no = (n.sh.size : Int) - 16 ∨ cq.no = (n.sh.size : Int) - 8) ∧ n1.sh.isSigned then
      let sc := if cq.no = (n.sh.size : Int) - 16 then intShape 16 true else intShape 8 true
      some (meU3 n.sh (meU3 sc x .chvarTag) .chvarTag)
    else none

/-- The case of `shl_tag`. -/
def refactorShl (n : Node) (e1 cl : Exp) : Option Exp :=
  match e1 with
  | .mk n1 [.mk n11 [x, cr], cm] =>
      if n1.tag = .andTag ∧ cl.tag = .valTag ∧ cm.tag = .valTag ∧ n11.tag = .shrTag ∧
          cr.tag = .valTag then
        let a := meB3 n.sh x (meShint n.sh (BitVec.ofInt 32 (cm.no <<< cr.no.toNat))) .andTag
        if cl.no ≥ cr.no then
          some (meB3 n.sh a (meShint n.sh (BitVec.ofInt 32 (cl.no - cr.no))) .shlTag)
        else some (meB3 n.sh a (meShint n.sh (BitVec.ofInt 32 (cr.no - cl.no))) .shrTag)
      else none
  | _ => none

/-- The case of `and_tag`. -/
def refactorAnd (far : Nat → BitVec 32) (n : Node) (e1 cm : Exp) : Option Exp :=
  match e1 with
  | .mk n1 [e11, c1] =>
      if n1.tag = .andTag ∧ cm.tag = .valTag ∧ c1.tag = .valTag ∧ ¬ isbigval cm.node ∧
          ¬ isbigval c1.node then
        some (meB3 n.sh e11
          (meShint n.sh (BitVec.ofInt 32 cm.no &&& BitVec.ofInt 32 c1.no)) .andTag)
      else if n1.tag = .shrTag ∧ cm.tag = .valTag ∧ ¬ isbigval cm.node ∧
          (0 : BitVec 32).slt (BitVec.ofInt 32 cm.no) ∧ c1.tag = .valTag ∧ ¬ isbigval c1.node ∧
          (BitVec.ofInt 32 cm.no).sle (oneShl far ((n1.sh.size : Int) - c1.no).toNat - 1) then
        match e11 with
        | .mk n11 [x, cl] =>
            if n11.tag = .shlTag ∧ cl.tag = .valTag ∧ ¬ isbigval cl.node ∧ cl.no ≤ c1.no then
              some (.mk n [meB3 n1.sh x (meShint n1.sh (BitVec.ofInt 32 (c1.no - cl.no))) .shrTag,
                cm])
            else none
        | _ => none
      else none
  | _ => none

/-- The rewritings of shifts and masks in `refactor`. An `and_tag` with more than
two arguments has its constant last and is not rewritten. -/
def refactorShifts (far : Nat → BitVec 32) : Exp → Option Exp
  | .mk n [e1, c] =>
      match n.tag with
      | .shrTag => refactorShr n e1 c
      | .shlTag => refactorShl n e1 c
      | .andTag => refactorAnd far n e1 c
      | _ => none
  | _ => none

/-! ## Multiplication of a sum -/

/-- The case of `mult_tag` in which the multiplication is distributed over an added constant. A sum
that went on after the constant would be cut off there. -/
def refactorMult (p : Pool) : Exp → Option (Pool × Exp)
  | .mk n [.mk n1 (a :: .mk c1 _ :: _), .mk c2 args2] =>
      if optop n ∧ n.tag = .multTag ∧ c2.tag = .valTag ∧ n1.tag = .plusTag ∧ c1.tag = .valTag then
        let k := BitVec.ofInt 32 (c2.no * c1.no)
        let (p, c2) := copyConst p c2
        let m := meB3 n.sh a (.mk c2 args2) .multTag
        some (p, meB3 n.sh m (meShint n.sh k) .plusTag)
      else none
  | _ => none

/-! ## Changes of variety -/

/-- The case of `chvar_tag`, of an operand that is neither a null pointer nor a constant, as far as
operands are dropped or given another shape. `byteRegs` says that the target is little-endian and
has byte registers. -/
def refactorChvar (byteRegs : Bool) : Exp → Option Exp
  | .mk n [.mk n1 args1] =>
      if eqShape n.sh n1.sh then some (.mk n1 args1)
      else if n1.tag = .chvarTag then
        match args1 with
        | [x] =>
            if n.sh.size = x.sh.size ∧ n1.sh.hd = .bitfhd then some (meU3 n.sh x .chvarTag)
            else if ¬ n.sh.isSigned ∧ n.sh.size = n1.sh.size then some (meU3 n.sh x .chvarTag)
            else if ¬ n.sh.isSigned ∧ n.sh.size < n1.sh.size ∧ n.sh.size = x.sh.size then
              some (meU3 n.sh x .chvarTag)
            else if byteRegs ∧ n.sh.size ≤ n1.sh.size then some (.mk { n1 with sh := n.sh } [x])
            else none
        | _ => none
      else if byteRegs ∧ n.sh.size ≤ n1.sh.size ∧ optop n ∧
          (n1.tag = .nameTag ∨ n1.tag = .contTag ∨ n1.tag = .condTag) then
        some (.mk { n1 with sh := n.sh } args1)
      else none
  | _ => none

/-! ## A mask in an or -/

/-- The case of `or_tag`, before `comm_ass`. The second operand of the mask is only asked to have a
tag. -/
def refactorOr : Exp → Option Exp
  | .mk n (.mk n1 (x :: m :: _) :: .mk c cargs :: _) =>
      if n1.tag = .andTag ∧ c.tag = .valTag ∧ ¬ isbigval c ∧ m.tag ≠ .holderTag ∧
          BitVec.ofInt 32 c.no ||| BitVec.ofInt 32 m.no = 0xffffffff then
        some (meB3 n.sh x (.mk c cargs) .orTag)
      else none
  | _ => none

/-! ## Shifts, divisions and remainders by a constant -/

/-- What becomes of an operation on account of its constants: the first operand alone, the constant
0, or the constant that one of the folding functions makes. -/
inductive ConstStep
  | operand | zero | fold
deriving DecidableEq, Repr

/-- The tests of `shl_tag` and `shr_tag`. -/
def shiftStep (a b : Exp) : Option ConstStep :=
  if b.tag = .valTag ∧ b.no = 0 then some .operand
  else if a.tag = .valTag ∧ b.tag = .valTag then some .fold
  else none

/-- The tests of `mod_tag`, `rem0_tag` and `rem2_tag`. -/
def remStep (n : Node) (a b : Exp) : Option ConstStep :=
  if a.tag = .valTag ∧ b.tag = .valTag then
    if n.sh.isSigned ∧ b.no = -1 then some .zero
    else if b.no ≠ 0 then some .fold
    else none
  else none

/-- The tests of `div0_tag`, `div1_tag` and `div2_tag`. -/
def divisionStep (n : Node) (a b : Exp) : Option ConstStep :=
  if b.tag = .valTag ∧ b.no = 1 then some .operand
  else if optop n ∧ a.tag = .valTag ∧ b.tag = .valTag ∧ b.no ≠ 0 then some .fold
  else none

/-- The tests of an operation of two operands. -/
def constStep (n : Node) (a b : Exp) : Option ConstStep :=
  match n.tag with
  | .shlTag | .shrTag => shiftStep a b
  | .modTag | .rem0Tag | .rem2Tag => remStep n a b
  | .div0Tag | .div1Tag | .div2Tag => divisionStep n a b
  | _ => none

/-- The folding function of an operation. -/
def foldFn (wide : BitVec 32 → Int → BitVec 32) (st : FoldSt) (n a b : Node) :
    Run (FoldSt × Node) := do
  match n.tag with
  | .shlTag | .shrTag =>
      let (st, a, _) ← doshl wide st n a b
      return (st, a)
  | .modTag =>
      let (st, a, _) ← domod st a b
      return (st, a)
  | .rem0Tag | .rem2Tag =>
      let (st, a, _) ← dorem2 st a b
      return (st, a)
  | .div1Tag => dodiv1 st a b
  | _ => dodiv2 st a b

/-- The cases of shifts, divisions and remainders by a constant. -/
def refactorConst (wide : BitVec 32 → Int → BitVec 32) (st : FoldSt) :
    Exp → Run (FoldSt × Option Exp)
  | .mk n [.mk a as, b] =>
      match constStep n (.mk a as) b with
      | some .operand => return (st, some (.mk { a with sh := n.sh } as))
      | some .zero => return (st, some (meShint n.sh 0))
      | some .fold => do
          let (st, a) ← foldFn wide st n a b.node
          return (st, some (.mk { a with sh := n.sh } as))
      | none => return (st, none)
  | _ => return (st, none)

end Tendra.Ref
