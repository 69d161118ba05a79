import Mathlib.Data.Nat.Size
import Tendra.Lib.Machine
import Tendra.Ref.Trans.Multiply

/-!
# Multiplication and division on SPARC: `trans/src/sparc/muldvrem.c`

The inline sequences of `do_div` and `do_rem` and the parts of those of `mul_const`, with
the instructions that they are made of. The calls of library routines are left out.
-/

namespace Tendra.Ref.Trans.Sparc

/-- `R_TMP`. -/
abbrev rTmp : Reg := 1

/-- The instructions with two operands. -/
inductive Op
  | add
  | sub
  | and
  | andn
  | sll
  | srl
  | sra
deriving DecidableEq, Repr

inductive Ins
  | rrr (op : Op) (src1 src2 dest : Reg)
  | rir (op : Op) (src : Reg) (imm : BitVec 32) (dest : Reg)
  | mov (src dest : Reg)
  | movI (imm : BitVec 32) (dest : Reg)
  | neg (src dest : Reg)
  | set (imm : BitVec 32) (dest : Reg)
deriving DecidableEq, Repr

/-- `SIMM13_SIZE`. -/
def simm13Size (n : BitVec 32) : Bool := -4096 ≤ n.toInt ∧ n.toInt ≤ 4095

/-- The result of an instruction. A count of a shift is below 32. -/
def Op.apply (op : Op) (x y : BitVec 32) : Option (BitVec 32) :=
  match op with
  | .add => some (x + y)
  | .sub => some (x - y)
  | .and => some (x &&& y)
  | .andn => some (x &&& ~~~y)
  | .sll => if y.toNat < 32 then some (x <<< y.toNat) else none
  | .srl => if y.toNat < 32 then some (x >>> y.toNat) else none
  | .sra => if y.toNat < 32 then some (x.sshiftRight y.toNat) else none

/-- One instruction. An immediate operand has 13 bits, except that of `set`. -/
def exec (i : Ins) (s : Regs) : Option (Regs × Next Nat) :=
  match i with
  | .rrr op src1 src2 dest =>
      (op.apply (s.get src1) (s.get src2)).map fun v => (s.set dest v, .step)
  | .rir op src imm dest =>
      if simm13Size imm then (op.apply (s.get src) imm).map fun v => (s.set dest v, .step) else none
  | .mov src dest => some (s.set dest (s.get src), .step)
  | .movI imm dest => if simm13Size imm then some (s.set dest imm, .step) else none
  | .neg src dest => some (s.set dest (-s.get src), .step)
  | .set imm dest => some (s.set dest imm, .step)

/-- The machine. -/
def machine : Machine Ins Regs Nat := ⟨exec, fun _ => none⟩

/-- A shift by a constant. -/
def shift (op : Op) (src : Reg) (count : Nat) (dest : Reg) : List Ins :=
  [.rir op src (.ofNat 32 count) dest]

/-- `rir_ins`, for `i_and`. -/
def andIns (src : Reg) (imm : BitVec 32) (dest : Reg) : List Ins :=
  if simm13Size imm then [.rir .and src imm dest]
  else if simm13Size (~~~imm) then [.rir .andn src (~~~imm) dest]
  else if isPow2 (imm + 1) then
    -- can be done by shift left, shift right
    let shiftConst := 32 - Nat.size imm.toNat
    shift .sll src shiftConst dest ++ shift .srl dest shiftConst dest
  else [.set imm rTmp, .rrr .and src rTmp dest]

/-- The sign-adjusted dividend, before it is shifted. -/
def adjust (lhsReg : Reg) (shiftConst : Nat) : List Ins :=
  (if shiftConst - 1 ≠ 0 then
    shift .sra lhsReg (shiftConst - 1) rTmp ++ shift .srl rTmp (32 - shiftConst) rTmp
  else shift .srl lhsReg (32 - shiftConst) rTmp) ++
  [.rrr .add lhsReg rTmp rTmp]

/-- The inline case of `do_div`. -/
def doDiv (tag : Tag) (sgned : Bool) (constval : BitVec 32) (lhsReg finalReg : Reg) : List Ins :=
  let shiftConst := bitNo constval
  if constval = 1 then [.mov lhsReg finalReg]
  else if ¬sgned then shift .srl lhsReg shiftConst finalReg
  else if tag = .div2 then adjust lhsReg shiftConst ++ shift .sra rTmp shiftConst finalReg
  -- must be signed div1, a simple shift
  else shift .sra lhsReg shiftConst finalReg

/-- The inline case of `do_rem`. -/
def doRem (tag : Tag) (sgned : Bool) (constval : BitVec 32) (lhsReg finalReg : Reg) : List Ins :=
  if constval = 1 then [.movI 0 finalReg]
  else if ¬sgned then andIns lhsReg (constval - 1) finalReg
  else if tag = .rem2 then
    let shiftConst := bitNo constval
    adjust lhsReg shiftConst ++
    shift .sra rTmp shiftConst rTmp ++
    shift .sll rTmp shiftConst rTmp ++
    [.rrr .sub lhsReg rTmp finalReg]
  else andIns lhsReg (constval - 1) finalReg

/-- `do_div_op` and `do_rem_op`, where the divisor is a constant that they handle inline: a
positive power of two, and for a division one without error treatment. -/
def doOp (tag : Tag) (sgned errorTreatment : Bool) (constval : BitVec 32)
    (lhsReg finalReg : Reg) : Option (List Ins) :=
  if isPow2 constval ∧ constval.toInt > 0 then
    match tag with
    | .div0 | .div1 | .div2 =>
        if errorTreatment then none else some (doDiv tag sgned constval lhsReg finalReg)
    | .mod | .rem0 | .rem2 => some (doRem tag sgned constval lhsReg finalReg)
  else none

/-- The parts of a multiplication by a constant. -/
def steps : Steps Ins where
  tmp := rTmp
  neg src dest := [.neg src dest]
  zero dest := [.movI 0 dest]
  copy src dest := [.mov src dest]
  shift := shift .sll
  add src1 src2 dest := [.rrr .add src1 src2 dest]
  sub src1 src2 dest := [.rrr .sub src1 src2 dest]
  timesOnes src bsl := shift .sll src bsl rTmp ++ [.rrr .sub rTmp src rTmp]
  firstShifted src count dest := shift .sll src count rTmp ++ [.mov rTmp dest]
  addShifted src count accum dest := shift .sll src count rTmp ++ [.rrr .add accum rTmp dest]
  addTimes src inter n := List.replicate (n - 1) (.rrr .add inter src inter)

end Tendra.Ref.Trans.Sparc
