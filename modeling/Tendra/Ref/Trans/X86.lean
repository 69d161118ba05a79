import Tendra.Lib.Machine

/-!
# The instructions of x86

Those that the sequences for numbers of 64 bits write, in `trans/src/x86/instr.c` and
`ops_int.c`, with their documented meaning. The source comes first, as the assembler has
it. A jump goes by the last comparison. An instruction that may change the flags leaves
none to go by, and a form that the assembler does not have has no meaning.
-/

namespace Tendra.Ref.Trans.X86

/-- The registers, in the order of `reg_name_long`. -/
inductive Reg
  | eax
  | edx
  | ecx
  | ebx
  | edi
  | esi
  | ebp
  | esp
deriving DecidableEq, Repr

abbrev reg0 : Reg := .eax

abbrev reg1 : Reg := .edx

abbrev reg2 : Reg := .ecx

abbrev sp : Reg := .esp

inductive Operand
  | imm (v : BitVec 32)
  | reg (r : Reg)
  | ind (base : Reg) (disp : BitVec 32)
  | direct (a : BitVec 32)
deriving DecidableEq, Repr

inductive Ins1
  | pushl
  | popl
  | negl
  | mull
  | imull
deriving DecidableEq, Repr

inductive Ins2
  | movl
  | xchg
  | addl
  | subl
  | imull
  | shll
  | shrl
  | sarl
  | cmpl
  | testl
  | decl
deriving DecidableEq, Repr

inductive Ins3
  | shldl
  | shrdl
deriving DecidableEq, Repr

inductive Branch
  | jmp
  | je
  | jl
  | jns
deriving DecidableEq, Repr

inductive Ins
  | ins1 (i : Ins1) (a : Operand)
  | ins2 (i : Ins2) (a1 a2 : Operand)
  | ins3 (i : Ins3) (a1 a2 a3 : Operand)
  | simpleBranch (j : Branch) (lab : Nat)
  | simplestSetLab (lab : Nat)
deriving DecidableEq, Repr

/-- The contents of the memory. -/
abbrev Mem := BitVec 32 → BitVec 8

/-- The four bytes from an address on. -/
def load (m : Mem) (a : BitVec 32) : BitVec 32 := m (a + 3) ++ m (a + 2) ++ m (a + 1) ++ m a

/-- Writes the four bytes from an address on. -/
def store (m : Mem) (a v : BitVec 32) : Mem :=
  fun x => if (x - a).toNat < 4 then v.extractLsb' (8 * (x - a).toNat) 8 else m x

structure State where
  regs : Reg → BitVec 32
  mem : Mem
  /-- The two numbers that were compared. -/
  flags : Option (BitVec 32 × BitVec 32)

namespace State

def set (s : State) (r : Reg) (v : BitVec 32) : State :=
  { s with regs := Function.update s.regs r v }

def write (s : State) (a v : BitVec 32) : State := { s with mem := store s.mem a v }

def setFlags (s : State) (f : Option (BitVec 32 × BitVec 32)) : State := { s with flags := f }

/-- What an operand is. -/
def value (s : State) : Operand → BitVec 32
  | .imm v => v
  | .reg r => s.regs r
  | .ind base disp => load s.mem (s.regs base + disp)
  | .direct a => load s.mem a

/-- Writes an operand, unless it is a number. -/
def assign (s : State) (a : Operand) (v : BitVec 32) : Option State :=
  match a with
  | .imm _ => none
  | .reg r => some (s.set r v)
  | .ind base disp => some (s.write (s.regs base + disp) v)
  | .direct a => some (s.write a v)

/-- The count of a shift: the value of a number or of `%cl`, of which five bits matter. -/
def count (s : State) : Operand → Option Nat
  | .imm v => some (v.toNat % 32)
  | .reg .ecx => some ((s.regs .ecx).toNat % 32)
  | _ => none

end State

/-- The double shifts: those of the one number, filled from the other. -/
def Ins3.apply (i : Ins3) (n : Nat) (src dest : BitVec 32) : BitVec 32 :=
  match i with
  | .shldl => dest <<< n ||| src >>> (32 - n)
  | .shrdl => dest >>> n ||| src <<< (32 - n)

def Branch.holds (j : Branch) (x y : BitVec 32) : Bool :=
  match j with
  | .jmp => true
  | .je => x = y
  | .jl => x.toInt < y.toInt
  | .jns => (x - y).msb = false

def Ins1.exec (i : Ins1) (a : Operand) (s : State) : Option State :=
  match i, a with
  | .pushl, a =>
      let sp := s.regs .esp - 4
      some ((s.set .esp sp).write sp (s.value a))
  | .popl, .reg r => some ((s.set .esp (s.regs .esp + 4)).set r (load s.mem (s.regs .esp)))
  | .negl, .reg r => some ((s.set r (-s.regs r)).setFlags none)
  | .mull, .imm _ => none
  | .mull, a =>
      let p := (s.regs .eax).setWidth 64 * (s.value a).setWidth 64
      some (((s.set .eax (p.setWidth 32)).set .edx (p.extractLsb' 32 32)).setFlags none)
  | .imull, .imm _ => none
  | .imull, a =>
      let p := (s.regs .eax).signExtend 64 * (s.value a).signExtend 64
      some (((s.set .eax (p.setWidth 32)).set .edx (p.extractLsb' 32 32)).setFlags none)
  | _, _ => none

def Ins2.exec (i : Ins2) (a1 a2 : Operand) (s : State) : Option State :=
  match i, a1, a2 with
  | .movl, a1, a2 => s.assign a2 (s.value a1)
  | .xchg, .reg r1, .reg r2 => some ((s.set r1 (s.regs r2)).set r2 (s.regs r1))
  | .addl, a1, .reg r => some ((s.set r (s.regs r + s.value a1)).setFlags none)
  | .subl, a1, .reg r => some ((s.set r (s.regs r - s.value a1)).setFlags none)
  | .imull, a1, .reg r => some ((s.set r (s.regs r * s.value a1)).setFlags none)
  | .shll, a1, .reg r => (s.count a1).map fun n => (s.set r (s.regs r <<< n)).setFlags none
  | .shrl, a1, .reg r => (s.count a1).map fun n => (s.set r (s.regs r >>> n)).setFlags none
  | .sarl, a1, .reg r =>
      (s.count a1).map fun n => (s.set r ((s.regs r).sshiftRight n)).setFlags none
  | .cmpl, a1, .reg r => some (s.setFlags (some (s.regs r, s.value a1)))
  | .testl, a1, .reg r => some (s.setFlags (some (s.regs r &&& s.value a1, 0)))
  -- `decl` has one operand
  | _, _, _ => none

def Ins3.exec (i : Ins3) (a1 a2 a3 : Operand) (s : State) : Option State :=
  match a2 with
  | .reg r =>
      (s.count a1).bind fun n =>
      (s.assign a3 (i.apply n (s.regs r) (s.value a3))).map fun s => s.setFlags none
  | _ => none

/-- One instruction. -/
def exec (i : Ins) (s : State) : Option (State × Next Nat) :=
  match i with
  | .ins1 i a => (i.exec a s).map fun s => (s, .step)
  | .ins2 i a1 a2 => (i.exec a1 a2 s).map fun s => (s, .step)
  | .ins3 i a1 a2 a3 => (i.exec a1 a2 a3 s).map fun s => (s, .step)
  | .simpleBranch .jmp lab => some (s, .jump lab)
  | .simpleBranch j lab => s.flags.map fun f => (s, if j.holds f.1 f.2 then .jump lab else .step)
  | .simplestSetLab _ => some (s, .step)

/-- The label that an instruction sets. -/
def labelOf : Ins → Option Nat
  | .simplestSetLab lab => some lab
  | _ => none

/-- The machine. -/
def machine : Machine Ins State Nat := ⟨exec, labelOf⟩

/-- `ind_sp` at an offset of so many bits, where so many have been pushed. -/
def indSp (extraStack : Nat) (off : Int) : Operand :=
  .ind .esp (.ofInt 32 ((off + extraStack) / 8))

/-- The number of 64 bits in the registers 1 and 0. -/
def State.pair (s : State) : BitVec 64 := s.regs reg1 ++ s.regs reg0

/-!
## Shifts of 64 bits on x86: `rotshift64` in `trans/src/x86/instr.c`

The operation `shft` is a number, as in the source: 0 shifts left, 1 right, 2 rotates
right, and 3 left. `move` between registers is a `movl`.
-/

/-- Rotates both halves through copies on the stack. -/
def dshHalves (dsh : Ins3) (count : Operand) (extraStack : Nat) : List Ins :=
  [.ins1 .pushl (.reg reg1),
    .ins1 .pushl (.reg reg0),
    .ins3 dsh count (.reg reg1) (indSp (extraStack + 64) (-32)),
    .ins3 dsh count (.reg reg0) (indSp (extraStack + 64) (-64)),
    .ins1 .popl (.reg reg0),
    .ins1 .popl (.reg reg1)]

/-- The sequences for fewer than 32 places. -/
def fewPlaces (shft : Nat) (sig : Bool) (count : Operand) (extraStack : Nat) : List Ins :=
  match shft with
  | 0 => [.ins3 .shldl count (.reg reg0) (.reg reg1), .ins2 .shll count (.reg reg0)]
  | 1 =>
      [.ins3 .shrdl count (.reg reg1) (.reg reg0),
        .ins2 (if sig then .sarl else .shrl) count (.reg reg1)]
  | _ => dshHalves (if shft = 2 then .shrdl else .shldl) count extraStack

/-- The high half of a right shift by more than 31 places. -/
def fillHigh (sig : Bool) : Ins :=
  if sig then .ins2 .sarl (.imm 31) (.reg reg1) else .ins2 .movl (.imm 0) (.reg reg1)

/-- The number of places is constant. -/
def constantPlaces (shft : Nat) (sig : Bool) (places extraStack : Nat) : List Ins :=
  if places ≥ 32 then
    let places := places - 32
    match shft with
    | 0 =>
        (if places ≠ 0 then [.ins2 .shll (.imm (.ofNat 32 places)) (.reg reg0)] else []) ++
        [.ins2 .movl (.reg reg0) (.reg reg1), .ins2 .movl (.imm 0) (.reg reg0)]
    | 1 =>
        .ins2 .movl (.reg reg1) (.reg reg0) ::
        (if places ≠ 0 then
          [.ins2 (if sig then .sarl else .shrl) (.imm (.ofNat 32 places)) (.reg reg0)]
        else []) ++
        [fillHigh sig]
    | _ =>
        if places = 0 then [.ins2 .xchg (.reg reg0) (.reg reg1)]
        else
          -- reverse rotate
          fewPlaces (5 - shft) sig (.imm (.ofNat 32 (32 - places))) extraStack
  else if places = 0 then []
  else fewPlaces shft sig (.imm (.ofNat 32 places)) extraStack

/-- The number of places is in `reg2`. -/
def variablePlaces (shft : Nat) (sig : Bool) (extraStack lablow labend labx : Nat) : List Ins :=
  [.ins2 .cmpl (.imm 32) (.reg reg2), .simpleBranch .jl lablow] ++
  (match shft with
  | 0 =>
      [.ins2 .subl (.imm 32) (.reg reg2),
        .ins2 .shll (.reg reg2) (.reg reg0),
        .ins2 .movl (.reg reg0) (.reg reg1),
        .ins2 .movl (.imm 0) (.reg reg0)]
  | 1 =>
      [.ins2 .subl (.imm 32) (.reg reg2),
        .ins2 .movl (.reg reg1) (.reg reg0),
        .ins2 (if sig then .sarl else .shrl) (.reg reg2) (.reg reg0),
        fillHigh sig]
  | _ =>
      [.simpleBranch .je labx,
        .ins2 .subl (.imm 64) (.reg reg2),
        .ins1 .negl (.reg reg2)] ++
      -- reversed rotate
      dshHalves (if shft = 2 then .shldl else .shrdl) (.reg reg2) extraStack ++
      [.simpleBranch .jmp labend,
        .simplestSetLab labx,
        .ins2 .xchg (.reg reg0) (.reg reg1)]) ++
  [.simpleBranch .jmp labend, .simplestSetLab lablow] ++
  fewPlaces shft sig (.reg reg2) extraStack ++
  [.simplestSetLab labend]

/-- `rotshift64`, by a constant or by the number in `reg2`. `lab` is the next label. -/
def rotshift64 (shft : Nat) (sig : Bool) (wshift : Option Nat) (extraStack lab : Nat) :
    List Ins :=
  match wshift with
  | some places => constantPlaces shft sig places extraStack
  | none => variablePlaces shft sig extraStack lab (lab + 1) (lab + 2)

end Tendra.Ref.Trans.X86
