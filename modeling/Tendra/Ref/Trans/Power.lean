import Mathlib.Algebra.Ring.Int.Defs
import Tendra.Lib.Machine
import Tendra.Ref.Trans.Division

/-!
# Division on Power: `trans/src/power/muldvrem.c`

The instructions are those that `do_div` and `do_rem` write, with their documented
meaning; where that is undefined the machine has no next state. An immediate form means
what the form with registers does. The error treatments are left out, and so are the
hints on branches.
-/

namespace Tendra.Ref.Trans.Power

/-- `R_TMP0`. -/
abbrev rTmp0 : Reg := 0

/-- The instructions with two operands. `divw` and `divwu` are those of PowerPC. -/
inductive Op
  | a
  | s
  | sf
  | xor
  | and
  | muls
  | sl
  | sr
  | sra
  | divs
  | div
  | divw
  | divwu
deriving DecidableEq, Repr

/-- The conditions of branches. -/
inductive Cond
  | beq
  | bgt
  | blt
deriving DecidableEq, Repr

inductive Ins
  | rrr (op : Op) (src1 src2 dest : Reg)
  | rir (op : Op) (src : Reg) (imm : BitVec 32) (dest : Reg)
  | movRr (src dest : Reg)
  | ldConst (imm : BitVec 32) (dest : Reg)
  | mtmq (src : Reg)
  | mfmq (dest : Reg)
  | cmplRr (src1 src2 : Reg) (creg : Nat)
  | cmpRi (src : Reg) (imm : BitVec 32) (creg : Nat)
  | bc (cond : Cond) (creg lab : Nat)
  | setLabel (lab : Nat)
deriving DecidableEq, Repr

/-- The general registers, the register MQ, which may hold nothing of use, and the fields of
the condition register. -/
structure State where
  regs : Reg → BitVec 32
  mq : Option (BitVec 32)
  cr : Nat → Ordering

/-- The result of an instruction and what it leaves in MQ. The count of a shift is below 32, and
`rir_ins` refuses a count of zero for `sr`. -/
def Op.apply (op : Op) (mq : Option (BitVec 32)) (x y : BitVec 32) :
    Option (BitVec 32 × Option (BitVec 32)) :=
  match op with
  | .a => some (x + y, mq)
  | .s => some (x - y, mq)
  | .sf => some (y - x, mq)
  | .xor => some (x ^^^ y, mq)
  | .and => some (x &&& y, mq)
  | .muls => some (x * y, none)
  | .sl => if y.toNat < 32 then some (x <<< y.toNat, mq) else none
  | .sr => if y.toNat < 32 ∧ y ≠ 0 then some (x >>> y.toNat, mq) else none
  | .sra => if y.toNat < 32 then some (x.sshiftRight y.toNat, mq) else none
  | .divs =>
      if y = 0 ∨ x = BitVec.intMin 32 ∧ y = -1 then none else some (x.sdiv y, some (x.srem y))
  | .div =>
      match mq with
      | none => none
      | some m =>
          let dividend := (x ++ m).toInt
          let quotient := dividend.tdiv y.toInt
          if y = 0 ∨ quotient < -2 ^ 31 ∨ 2 ^ 31 ≤ quotient then none
          else some (BitVec.ofInt 32 quotient, some (BitVec.ofInt 32 (dividend.tmod y.toInt)))
  | .divw => if y = 0 ∨ x = BitVec.intMin 32 ∧ y = -1 then none else some (x.sdiv y, mq)
  | .divwu => if y = 0 then none else some (x / y, mq)

/-- The branch is taken. -/
def Cond.holds : Cond → Ordering → Bool
  | .beq, o => o = .eq
  | .bgt, o => o = .gt
  | .blt, o => o = .lt

/-- One instruction. -/
@[grind =] def exec (i : Ins) (s : State) : Option (State × Next Nat) :=
  match i with
  | .rrr op src1 src2 dest =>
      (op.apply s.mq (s.regs src1) (s.regs src2)).map fun r =>
        ({ s with regs := Function.update s.regs dest r.1, mq := r.2 }, .step)
  | .rir op src imm dest =>
      (op.apply s.mq (s.regs src) imm).map fun r =>
        ({ s with regs := Function.update s.regs dest r.1, mq := r.2 }, .step)
  | .movRr src dest =>
      some ({ s with regs := Function.update s.regs dest (s.regs src) }, .step)
  | .ldConst imm dest => some ({ s with regs := Function.update s.regs dest imm }, .step)
  | .mtmq src => some ({ s with mq := some (s.regs src) }, .step)
  | .mfmq dest => s.mq.map fun v => ({ s with regs := Function.update s.regs dest v }, .step)
  | .cmplRr src1 src2 creg =>
      let o := compare (s.regs src1).toNat (s.regs src2).toNat
      some ({ s with cr := Function.update s.cr creg o }, .step)
  | .cmpRi src imm creg =>
      let o := compare (s.regs src).toInt imm.toInt
      some ({ s with cr := Function.update s.cr creg o }, .step)
  | .bc cond creg lab => some (s, if cond.holds (s.cr creg) then .jump lab else .step)
  | .setLabel _ => some (s, .step)

/-- The label that an instruction sets. -/
def labelOf : Ins → Option Nat
  | .setLabel lab => some lab
  | _ => none

/-- The machine. -/
def machine : Machine Ins State Nat := ⟨exec, labelOf⟩

/-- `cpu`. -/
inductive Cpu
  | common
  | powerpc
  | rs6000
deriving DecidableEq, Repr

/-- `next_creg`, after `creg`. -/
def nextCreg (creg : Nat) : Nat :=
  let creg := creg + 1
  if creg = 8 then 0 else if creg = 2 then 6 else creg

/-- `mov_rr_ins`. -/
def movRrIns (src dest : Reg) : List Ins := if src ≠ dest then [.movRr src dest] else []

/-- The sign-adjusted dividend, before it is shifted. -/
def adjust (lhsReg : Reg) (shiftConst : Nat) : List Ins :=
  (if shiftConst - 1 ≠ 0 then
    [.rir .sra lhsReg (.ofNat 32 (shiftConst - 1)) rTmp0,
      .rir .sr rTmp0 (.ofNat 32 (32 - shiftConst)) rTmp0]
  else [.rir .sr lhsReg (.ofNat 32 (32 - shiftConst)) rTmp0]) ++
  [.rrr .a lhsReg rTmp0 rTmp0]

/-- The inline case of `do_div`, for a power of two. -/
def divPow2 (tag : Tag) (sgned : Bool) (constval : BitVec 32) (lhsReg finalReg : Reg) : List Ins :=
  let shiftConst := bitNo constval
  if constval = 1 then movRrIns lhsReg finalReg
  else if sgned ∧ tag ≠ .div1 then
    adjust lhsReg shiftConst ++ [.rir .sra rTmp0 (.ofNat 32 shiftConst) finalReg]
  else if sgned then [.rir .sra lhsReg (.ofNat 32 shiftConst) finalReg]
  else [.rir .sr lhsReg (.ofNat 32 shiftConst) finalReg]

/-- The care that a signed `div1` takes, after `divide`. -/
def div1Ins (divide : Op) (lhsReg rhsReg finalReg : Reg) (creg lab : Nat) : List Ins :=
  let creg1 := nextCreg creg
  let creg2 := nextCreg creg1
  [.rrr .xor lhsReg rhsReg rTmp0,
    .rir .and rTmp0 0x80000000 rTmp0,
    .cmpRi rTmp0 0 creg1,
    .rrr divide lhsReg rhsReg finalReg,
    .bc .beq creg1 lab,
    .rrr .muls rhsReg finalReg rTmp0,
    .rrr .sf rTmp0 lhsReg rTmp0,
    .cmpRi rTmp0 0 creg2,
    .bc .beq creg2 lab,
    .rir .a finalReg (-1) finalReg,
    .setLabel lab]

/-- The copy of the divisor, if the result would overwrite it too early. -/
def safeCopy (rhsReg finalReg safeReg : Reg) : Reg × List Ins :=
  if finalReg ≠ rhsReg then (rhsReg, []) else (safeReg, movRrIns rhsReg safeReg)

/-- The general case of `do_div`, without error treatment. `safeReg` is what `getreg` gives for a
copy of the divisor, and `creg` the last condition register. -/
def divGeneral (cpu : Cpu) (tag : Tag) (sgned : Bool) (lhsReg rhsReg finalReg safeReg : Reg)
    (creg lab : Nat) : List Ins :=
  if cpu = .powerpc then
    if tag ≠ .div1 ∨ ¬sgned then
      [.rrr (if sgned then .divw else .divwu) lhsReg rhsReg finalReg]
    else div1Ins .divw lhsReg rhsReg finalReg creg lab
  else if sgned then
    if tag = .div1 then div1Ins .divs lhsReg rhsReg finalReg creg lab
    else [.rrr .divs lhsReg rhsReg finalReg]
  else
    let creg1 := nextCreg creg
    let creg2 := nextCreg creg1
    let safe := safeCopy rhsReg finalReg safeReg
    safe.2 ++
    [.cmplRr rhsReg lhsReg creg1,
      .cmpRi rhsReg 0 creg2,
      .mtmq lhsReg,
      -- if rhs > lhs then result is 0
      .ldConst 0 finalReg,
      .bc .bgt creg1 lab,
      -- otherwise if rhs has top bit set then result is 1
      .ldConst 1 finalReg,
      .bc .blt creg2 lab,
      -- do the extended div
      .ldConst 0 rTmp0,
      .rrr .div rTmp0 safe.1 finalReg,
      .setLabel lab]

/-- `do_div`. `rhs` is the divisor if it is constant. -/
def doDiv (cpu : Cpu) (tag : Tag) (sgned : Bool) (rhs : Option (BitVec 32))
    (lhsReg rhsReg finalReg safeReg : Reg) (creg lab : Nat) : List Ins :=
  match rhs with
  | some constval =>
      if isPow2 constval ∧ constval.toInt > 0 then divPow2 tag sgned constval lhsReg finalReg
      else divGeneral cpu tag sgned lhsReg rhsReg finalReg safeReg creg lab
  | none => divGeneral cpu tag sgned lhsReg rhsReg finalReg safeReg creg lab

/-- The inline case of `do_rem`, for a power of two. -/
def remPow2 (tag : Tag) (sgned : Bool) (constval : BitVec 32) (lhsReg finalReg : Reg) : List Ins :=
  if constval = 1 then [.ldConst 0 finalReg]
  else if sgned ∧ tag ≠ .mod then
    let shiftConst := bitNo constval
    adjust lhsReg shiftConst ++
    [.rir .sra rTmp0 (.ofNat 32 shiftConst) rTmp0,
      .rir .sl rTmp0 (.ofNat 32 shiftConst) rTmp0,
      .rrr .s lhsReg rTmp0 finalReg]
  else [.rir .and lhsReg (constval - 1) finalReg]

/-- The care that a signed `mod` takes, around `divide`. -/
def modIns (divide : Op) (lhsReg rhsReg finalReg : Reg) (creg lab : Nat) : List Ins :=
  let creg1 := nextCreg creg
  let creg2 := nextCreg creg1
  [.rrr .xor lhsReg rhsReg rTmp0,
    .rir .and rTmp0 0x80000000 rTmp0,
    .cmpRi rTmp0 0 creg1,
    .rrr divide lhsReg rhsReg rTmp0,
    .rrr .muls rhsReg rTmp0 finalReg,
    .rrr .sf finalReg lhsReg finalReg,
    .bc .beq creg1 lab,
    .cmpRi finalReg 0 creg2,
    .bc .beq creg2 lab,
    .rrr .a finalReg rhsReg finalReg,
    .setLabel lab]

/-- The general case of `do_rem`, without error treatment. -/
def remGeneral (cpu : Cpu) (tag : Tag) (sgned : Bool) (lhsReg rhsReg finalReg safeReg : Reg)
    (creg lab : Nat) : List Ins :=
  if cpu = .powerpc then
    if ¬sgned ∨ tag ≠ .mod then
      [.rrr (if sgned then .divw else .divwu) lhsReg rhsReg rTmp0,
        .rrr .muls rTmp0 rhsReg rTmp0,
        .rrr .sf rTmp0 lhsReg finalReg]
    else modIns .divw lhsReg rhsReg finalReg creg lab
  else if sgned then
    if tag = .mod then modIns .divs lhsReg rhsReg finalReg creg lab
    else [.rrr .divs lhsReg rhsReg rTmp0, .mfmq finalReg]
  else
    let creg1 := nextCreg creg
    let creg2 := nextCreg creg1
    let safe := safeCopy rhsReg finalReg safeReg
    safe.2 ++
    ([.cmplRr rhsReg lhsReg creg1,
      .cmpRi rhsReg 0 creg2,
      .mtmq lhsReg] ++
    -- if rhs > lhs then result is lhs
    movRrIns lhsReg finalReg ++
    [.bc .bgt creg1 lab] ++
    -- otherwise if rhs has top bit set then result is lhs - rhs; lhs is recovered from MQ
    (if lhsReg = finalReg then [.mfmq lhsReg] else []) ++
    [.rrr .s lhsReg safe.1 finalReg,
      .bc .blt creg2 lab,
      -- do the extended div
      .ldConst 0 rTmp0,
      .rrr .div rTmp0 safe.1 rTmp0,
      .mfmq finalReg,
      .setLabel lab])

/-- `do_rem`. -/
def doRem (cpu : Cpu) (tag : Tag) (sgned : Bool) (rhs : Option (BitVec 32))
    (lhsReg rhsReg finalReg safeReg : Reg) (creg lab : Nat) : List Ins :=
  match rhs with
  | some constval =>
      if isPow2 constval ∧ constval.toInt > 0 then remPow2 tag sgned constval lhsReg finalReg
      else remGeneral cpu tag sgned lhsReg rhsReg finalReg safeReg creg lab
  | none => remGeneral cpu tag sgned lhsReg rhsReg finalReg safeReg creg lab

/-- `do_div_op` and `do_rem_op`, by the tag of the exp. -/
def doOp (cpu : Cpu) (tag : Tag) : (sgned : Bool) → (rhs : Option (BitVec 32)) →
    (lhsReg rhsReg finalReg safeReg : Reg) → (creg lab : Nat) → List Ins :=
  match tag with
  | .div0 | .div1 | .div2 => doDiv cpu tag
  | .mod | .rem0 | .rem2 => doRem cpu tag

end Tendra.Ref.Trans.Power
