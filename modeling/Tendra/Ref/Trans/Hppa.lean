import Tendra.Lib.Machine
import Tendra.Lib.WordDivision
import Tendra.Ref.Trans.Multiply

/-!
# Multiplication and division on HPPA: `trans/src/hppa/muldvrem.c`

The inline sequences of `do_div` and `do_rem` and the parts of those of `mul_const`, with
the instructions that they are made of. Bits are numbered from the left, as HPPA does. The
calls of millicode and the error treatments are left out.
-/

namespace Tendra.Ref.Trans.Hppa

open Word

abbrev gr0 : Reg := 0

abbrev gr1 : Reg := 1

/-- The instructions with three registers. -/
inductive Op
  | add
  | sub
  | or
  | sh1add
  | sh2add
  | sh3add
deriving DecidableEq, Repr

/-- The condition under which the next instruction is nullified: never, or if the result is
greater than zero. -/
inductive Cond
  | c_
  | c_g
deriving DecidableEq, Repr

inductive Ins
  | rrr (op : Op) (cond : Cond) (src1 src2 dest : Reg)
  | copy (src dest : Reg)
  | shd (src1 src2 : Reg) (count : Nat) (dest : Reg)
  | extrs (src : Reg) (pos len : Nat) (dest : Reg)
  | dep (src : Reg) (pos len : Nat) (dest : Reg)
  | zdep (src : Reg) (pos len : Nat) (dest : Reg)
deriving DecidableEq, Repr

def Op.apply (op : Op) (x y : BitVec 32) : BitVec 32 :=
  match op with
  | .add => x + y
  | .sub => x - y
  | .or => x ||| y
  | .sh1add => x <<< 1 + y
  | .sh2add => x <<< 2 + y
  | .sh3add => x <<< 3 + y

def Cond.holds : Cond → BitVec 32 → Bool
  | .c_, _ => false
  | .c_g, v => 0 < v.toInt

/-- A field of `len` bits that ends at bit `pos`. -/
def field (pos len : Nat) : Bool := pos < 32 ∧ 0 < len ∧ len ≤ pos + 1

/-- One instruction. -/
def exec (i : Ins) (s : Regs) : Option (Regs × Next Nat) :=
  match i with
  | .rrr op cond src1 src2 dest =>
      let v := op.apply (s.get src1) (s.get src2)
      some (s.set dest v, if cond.holds v then .null else .step)
  | .copy src dest => some (s.set dest (s.get src), .step)
  | .shd src1 src2 count dest =>
      if count < 32 then
        some (s.set dest (((s.get src1 ++ s.get src2) >>> count).setWidth 32), .step)
      else none
  | .extrs src pos len dest =>
      if field pos len then
        some (s.set dest (((s.get src >>> (31 - pos)).setWidth len).signExtend 32), .step)
      else none
  | .dep src pos len dest =>
      if field pos len then
        let m := mask 32 len <<< (31 - pos)
        some (s.set dest ((s.get dest &&& ~~~m) ||| (s.get src <<< (31 - pos) &&& m)), .step)
      else none
  | .zdep src pos len dest =>
      if field pos len then
        some (s.set dest ((s.get src &&& mask 32 len) <<< (31 - pos)), .step)
      else none

/-- The machine. -/
def machine : Machine Ins Regs Nat := ⟨exec, fun _ => none⟩

/-- The inline case of `do_div`. -/
def doDiv (sgned : Bool) (n : BitVec 32) (lhsReg finalReg : Reg) : List Ins :=
  let shiftConst := bitNo n
  if n = 1 then [.copy lhsReg finalReg]
  else if sgned then
    -- signed, adjust lhs before shift
    (if shiftConst - 1 ≠ 0 then
      [.extrs lhsReg (32 - shiftConst) (33 - shiftConst) gr1,
        .shd gr0 gr1 (32 - shiftConst) gr1]
    else [.shd gr0 lhsReg (32 - shiftConst) gr1]) ++
    [.rrr .add .c_ lhsReg gr1 gr1,
      .extrs gr1 (31 - shiftConst) (32 - shiftConst) finalReg]
  else [.shd gr0 lhsReg shiftConst finalReg]

/-- The loop of `do_rem` that looks for the bit of `n`, from the one after `p`. -/
def bitLoop (n : BitVec 32) : Nat → Nat → Nat
  | 0, p => p
  | k + 1, p => if (1 : BitVec 32) <<< (p + 1) &&& n = 0 then bitLoop n k (p + 1) else p + 1

/-- The inline case of `do_rem`. -/
def doRem (tag : Tag) (sgned : Bool) (n : BitVec 32) (lhsReg finalReg : Reg) : List Ins :=
  if n = 1 then [.copy gr0 finalReg]
  else
    let p := bitLoop n 31 0
    if sgned ∧ tag = .rem2 then
      -- allow for negative lhs
      if lhsReg = finalReg then
        [.rrr .or .c_g gr0 lhsReg gr1,
          .rrr .sub .c_ gr0 lhsReg lhsReg,
          .dep gr0 (31 - p) (32 - p) lhsReg,
          .rrr .or .c_g gr0 gr1 gr0,
          .rrr .sub .c_ gr0 lhsReg lhsReg]
      else
        [.rrr .or .c_g gr0 lhsReg finalReg,
          .rrr .sub .c_ gr0 finalReg finalReg,
          .dep gr0 (31 - p) (32 - p) finalReg,
          .rrr .or .c_g gr0 lhsReg gr0,
          .rrr .sub .c_ gr0 finalReg finalReg]
    -- calculate lhs % n ( = 2**p ) by anding with mask
    else if lhsReg = finalReg then [.dep gr0 (31 - p) (32 - p) finalReg]
    else [.zdep lhsReg 31 p finalReg]

/-- `do_div` and `do_rem`, where they handle the constant divisor inline. -/
def doOp (tag : Tag) (sgned : Bool) (n : BitVec 32) (lhsReg finalReg : Reg) : Option (List Ins) :=
  match tag with
  | .div0 | .div1 | .div2 =>
      if n.toInt > 0 ∧ isPow2 n then some (doDiv sgned n lhsReg finalReg) else none
  | .mod | .rem0 | .rem2 =>
      if n ≠ 0 ∧ isPow2 n then some (doRem tag sgned n lhsReg finalReg) else none

/-- A shift to the left. -/
def shl (src : Reg) (count : Nat) (dest : Reg) : List Ins := [.shd src gr0 (32 - count) dest]

/-- The loop of `mul_const_simple` that adds `src`, from `i` on. -/
def addLoop (src interReg : Reg) (n : Nat) : Nat → Nat → List Ins
  | 0, _ => []
  | k + 1, i =>
      if i < n then
        if i + 7 < n then
          .rrr .sh3add .c_ src interReg interReg :: addLoop src interReg n k (i + 8)
        else if i + 3 < n then
          .rrr .sh2add .c_ src interReg interReg :: addLoop src interReg n k (i + 4)
        else if i + 1 < n then
          .rrr .sh1add .c_ src interReg interReg :: addLoop src interReg n k (i + 2)
        else .rrr .add .c_ src interReg interReg :: addLoop src interReg n k (i + 1)
      else []

/-- The parts of a multiplication by a constant. -/
def steps : Steps Ins where
  tmp := gr1
  neg src dest := [.rrr .sub .c_ gr0 src dest]
  zero dest := [.copy gr0 dest]
  copy src dest := [.copy src dest]
  shift := shl
  add src1 src2 dest := [.rrr .add .c_ src1 src2 dest]
  sub src1 src2 dest := [.rrr .sub .c_ src1 src2 dest]
  timesOnes src bsl :=
    if bsl = 2 then [.rrr .sh1add .c_ src src gr1]
    else shl src bsl gr1 ++ [.rrr .sub .c_ gr1 src gr1]
  firstShifted := shl
  addShifted src count accum dest :=
    if count = 1 then [.rrr .sh1add .c_ src accum dest]
    else if count = 2 then [.rrr .sh2add .c_ src accum dest]
    else if count = 3 then [.rrr .sh3add .c_ src accum dest]
    else shl src count gr1 ++ [.rrr .add .c_ accum gr1 dest]
  addTimes src inter n := addLoop src inter n n 1

end Tendra.Ref.Trans.Hppa
