import Mathlib.Algebra.Group.Nat.Defs
import Tendra.Ref.Trans.Alpha

/-!
# The case on Alpha: `case_tag` in `trans/src/alpha/make_code.c`

Numbers of type `INT64` are those of `long` on a host of 64 bits, and an overflow wraps
round. The value of a shape of 32 bits is held sign-extended, in the exp of a bound as in
the register. A result of `none` is a loop of the compiler that does not end.
-/

namespace Tendra.Ref.Trans.Alpha

/-- The integer shapes of 32 and 64 bits. -/
structure IntShape where
  sgned : Bool
  is64 : Bool
deriving DecidableEq, Repr

namespace IntShape

/-- The number that a register holds. -/
def number (sh : IntShape) (x : BitVec 64) : Int := if sh.sgned then x.toInt else x.toNat

/-- The register holds a value of the shape. -/
def Holds (sh : IntShape) (x : BitVec 64) : Prop :=
  sh.is64 = false → (x.setWidth 32).signExtend 64 = x

instance (sh : IntShape) (x : BitVec 64) : Decidable (sh.Holds x) :=
  inferInstanceAs (Decidable (_ → _))

/-- `maxmin`: the largest and the smallest number, as an `INT64`. -/
def maxmin (sh : IntShape) : BitVec 64 × BitVec 64 :=
  match sh.sgned, sh.is64 with
  | true, false => (0x7fffffff, 0xffffffff80000000)
  | false, false => (0xffffffff, 0)
  | true, true => (0x7fffffffffffffff, 0x8000000000000000)
  | false, true => (0xffffffffffffffff, 0)

/-- `unsigned_rep`. -/
def unsignedRep (sh : IntShape) (val : BitVec 64) : BitVec 64 :=
  if sh.is64 then val else val &&& 0xffffffff

end IntShape

/-- The bounds of a branch: an exp, and its child where it has one. -/
structure Range where
  lower : BitVec 64
  child : Option (BitVec 64)
deriving DecidableEq, Repr

/-- The upper bound, which without a child is the lower one. -/
def Range.upper (z : Range) : BitVec 64 := z.child.getD z.lower

/-- The range contains a value. -/
def Range.Contains (sh : IntShape) (z : Range) (x : BitVec 64) : Prop :=
  sh.number z.lower ≤ sh.number x ∧ sh.number x ≤ sh.number z.upper

/-- A case: some disjoint ranges in increasing order of the shape of the control value. -/
structure Case where
  shape : IntShape
  ranges : List Range
  ne_nil : ranges ≠ []
  holds : ∀ z ∈ ranges, shape.Holds z.lower ∧ shape.Holds z.upper
  le : ∀ z ∈ ranges, shape.number z.lower ≤ shape.number z.upper
  increasing : ranges.Pairwise fun y z => shape.number y.upper < shape.number z.lower

/-- The registers of a case. -/
structure CaseRegs where
  r : Reg
  rtmp : Reg
  rtmp2 : Reg
  distinct : [r, rtmp, rtmp2, atReg, gpReg, 31].Nodup

/-- The loop that counts the parts of a case, from the values of `u` and `n`; it gives the highest
value and the count. -/
def countLoop : List Range → (u n : BitVec 64) → BitVec 64 × BitVec 64
  | [], u, n => (u, n)
  | zt :: rest, u, n =>
      let n := if u + 1 ≠ zt.lower ∧ zt.child.isSome then n + 1 else n
      if rest.isEmpty then (zt.upper, n)
      else
        let u :=
          match zt.child with
          | some upper => upper
          | none => if u + 1 = zt.lower then u + 1 else u
        countLoop rest u (n + 1)

/-- The criterion for a jump vector. -/
def useVector (sh : IntShape) (ranges : List Range) (l : BitVec 64) : Bool :=
  let (u, n) := countLoop ranges (BitVec.intMin 64) 1
  let xt :=
    if sh.sgned then u.sshiftRight 1 - l.sshiftRight 1
    else sh.unsignedRep u >>> 1 - sh.unsignedRep l >>> 1
  let yt := (n * n).sdiv 4 - 3
  xt.toInt ≤ yt.toInt

/-- A loop that writes a label to the vector for one value of `n` after another, as long as a test
holds. It passes its head at most `fuel` times. -/
@[grind =] def emitWhile (test : BitVec 64 → Bool) (lab : Nat) : (fuel : Nat) → (n : BitVec 64) →
    Option (List Nat × BitVec 64)
  | 0, _ => none
  | fuel + 1, n =>
      if test n then (emitWhile test lab fuel (n + 1)).map fun r => (lab :: r.1, r.2)
      else some ([], n)

/-- A loop over numbers of 64 bits that passes its head more often does not end. -/
def loopFuel : Nat := 2 ^ 64 + 1

/-- The loop that writes the vector, from the value of `n`, and the last values of `u` and `n`. -/
@[grind =] def vectorLoop (lab : Range → Nat) (endlab : Nat) : List Range → (u n : BitVec 64) →
    Option (List Nat × BitVec 64 × BitVec 64)
  | [], u, n => some ([], u, n)
  | z :: rest, _, n =>
      (emitWhile (fun n => n.toInt < z.lower.toInt) endlab loopFuel n).bind fun fill =>
      let u := z.child.getD fill.2
      (emitWhile (fun n => n.toInt ≤ u.toInt) (lab z) loopFuel fill.2).bind fun entries =>
      (vectorLoop lab endlab rest u entries.2).map fun r =>
      (fill.1 ++ entries.1 ++ r.1, r.2)

/-- The code that jumps by the vector, for the lowest and the highest value. -/
def vectorCode (regs : CaseRegs) (veclab endlab : Nat) (l u : BitVec 64) : List (Ins Nat) :=
  .loadStore .lda atReg ⟨.data veclab, 0⟩ ::
  ((if l ≠ 0 then
      [.operateFmtImmediate .addq regs.r (0 - l) regs.rtmp,
        .operateFmtImmediate .cmpult regs.rtmp (u - l + 1) regs.rtmp2,
        .integerBranch .beq regs.rtmp2 endlab,
        .operateFmt .s4addq regs.rtmp atReg regs.rtmp]
    else
      [.loadImmediate regs.rtmp2 (u + 1),
        .operateFmt .cmpule regs.rtmp2 regs.r regs.rtmp,
        .integerBranch .bne regs.rtmp endlab,
        .operateFmt .s4addq regs.r atReg regs.rtmp]) ++
  [.loadStore .ldl regs.rtmp ⟨.reg regs.rtmp, 0⟩,
    .operateFmt .addq regs.rtmp gpReg regs.rtmp,
    .integerJump regs.rtmp,
    .setLabel endlab])

/-- The loop that writes tests and branches, from the limits of the values still possible; `taken`
says whether it has taken its label. -/
@[grind =] def chain (regs : CaseRegs) (lab : Range → Nat) (newlab : Nat) (usw : Bool) :
    List Range → (maxi mini : BitVec 64) → (taken : Bool) → List (Ins Nat)
  | [], _, _, taken => if taken then [.setLabel newlab] else []
  | z :: rest, maxi, mini, taken =>
      let l := z.lower
      match z.child with
      | none =>
          .operateFmtImmediate .cmpeq regs.r l regs.rtmp ::
          .integerBranch .bne regs.rtmp (lab z) ::
          (if l = maxi then chain regs lab newlab usw rest (maxi - 1) mini taken
          else if l = mini then chain regs lab newlab usw rest maxi (mini + 1) taken
          else chain regs lab newlab usw rest maxi mini taken)
      | some u =>
          if mini.toInt ≤ l.toInt ∨ usw then
            if maxi.toInt ≤ u.toInt ∧ !usw then
              .operateFmtImmediate .cmplt regs.r l regs.rtmp ::
              .integerBranch .beq regs.rtmp (lab z) ::
              chain regs lab newlab usw rest (l - 1) mini taken
            else
              .operateFmtImmediate .cmplt regs.r l regs.rtmp ::
              .integerBranch .bne regs.rtmp newlab ::
              .operateFmtImmediate .cmple regs.r u regs.rtmp ::
              .integerBranch .bne regs.rtmp (lab z) ::
              chain regs lab newlab usw rest maxi (u + 1) true
          else if u.toInt < maxi.toInt then
            .operateFmtImmediate .cmple regs.r u regs.rtmp ::
            .integerBranch .bne regs.rtmp (lab z) ::
            chain regs lab newlab usw rest maxi (u + 1) taken
          else
            .integerBranch .br 31 (lab z) ::
            chain regs lab newlab usw rest maxi mini taken

/-- The lowest value. -/
def Case.low (c : Case) : BitVec 64 := (c.ranges.head c.ne_nil).lower

/-- The criterion, for a case. -/
def Case.useVector (c : Case) : Bool := Alpha.useVector c.shape c.ranges c.low

/-- `case_tag` of `make_code`: the code, and the vector that is written to the data. `newlab` is
the label that it takes for itself. -/
def caseTag (c : Case) (regs : CaseRegs) (lab : Range → Nat) (veclab newlab : Nat) :
    Option (List (Ins Nat) × List Nat) :=
  if c.useVector then
    (vectorLoop lab newlab c.ranges (BitVec.intMin 64) c.low).map fun r =>
    (vectorCode regs veclab newlab c.low r.2.1, r.1)
  else
    let lims := c.shape.maxmin
    some (chain regs lab newlab (!c.shape.sgned) c.ranges lims.1 lims.2 false, [])

end Tendra.Ref.Trans.Alpha
