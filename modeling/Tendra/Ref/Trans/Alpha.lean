import Tendra.Lib.Machine
import Tendra.Ref.Trans.Division

/-!
# The instructions of Alpha

Those that the block moves and the case of `trans/src/alpha/make_code.c` write, with
their documented meaning. Bytes are numbered from the lower end. An access of four or
eight bytes is to an address divisible by as much; the one that is not faults, and has
no result where the system does not complete it in software.
-/

namespace Tendra.Ref.Trans.Alpha

/-- The contents of the memory. -/
abbrev Mem := BitVec 64 → BitVec 8

/-- The eight bytes from an address on. -/
def quad (m : Mem) (a : BitVec 64) : BitVec 64 :=
  m (a + 7) ++ m (a + 6) ++ m (a + 5) ++ m (a + 4) ++ m (a + 3) ++ m (a + 2) ++ m (a + 1) ++ m a

/-- The four bytes from an address on. -/
def long (m : Mem) (a : BitVec 64) : BitVec 32 := m (a + 3) ++ m (a + 2) ++ m (a + 1) ++ m a

/-- A byte of a quadword. -/
def byte (v : BitVec 64) (i : Nat) : BitVec 8 := v.extractLsb' (8 * i) 8

/-- Writes the eight bytes from an address on. -/
def store (m : Mem) (a v : BitVec 64) : Mem :=
  fun x => if (x - a).toNat < 8 then byte v (x - a).toNat else m x

/-- The address of the quadword around an address. -/
def around (a : BitVec 64) : BitVec 64 := a >>> 3 <<< 3

/-- `AT`. -/
abbrev atReg : Reg := 28

/-- `GP`. -/
abbrev gpReg : Reg := 29

inductive Op
  | addq
  | subq
  | s4addq
  | bis
  | cmpeq
  | cmplt
  | cmple
  | cmpult
  | cmpule
  | extbl
  | insbl
  | mskbl
deriving DecidableEq, Repr

inductive Test
  | br
  | beq
  | bne
deriving DecidableEq, Repr

inductive MemOp
  | lda
  | ldl
  | ldq
  | ldqU
  | stq
  | stqU
deriving DecidableEq, Repr

/-- The base of an address: a register, or a label of data. -/
inductive Base
  | reg (r : Reg)
  | data (lab : Nat)
deriving DecidableEq, Repr

/-- The type `baseoff`. -/
structure BaseOff where
  base : Base
  offset : BitVec 64
deriving DecidableEq, Repr

/-- The instructions. Those with an immediate operand do what those with registers do. -/
inductive Ins (L : Type)
  | operateFmt (op : Op) (src1 src2 dest : Reg)
  | operateFmtImmediate (op : Op) (src1 : Reg) (src2 : BitVec 64) (dest : Reg)
  | integerBranch (test : Test) (reg : Reg) (lab : L)
  | integerJump (reg : Reg)
  | loadStore (op : MemOp) (reg : Reg) (a : BaseOff)
  | loadImmediate (reg : Reg) (val : BitVec 64)
  | setLabel (lab : L)
deriving DecidableEq, Repr

/-- What the system and the linker provide. -/
structure Env (L : Type) where
  /-- The system completes the accesses that fault. -/
  fixup : Bool
  /-- The label at an address of the code. -/
  code : BitVec 64 → Option L
  /-- The addresses of the labels of data. -/
  data : Nat → BitVec 64

structure State where
  regs : Reg → BitVec 64
  mem : Mem

/-- The contents of a register. Register 31 reads as zero. -/
def State.get (s : State) (r : Reg) : BitVec 64 := if r = 31 then 0 else s.regs r

def State.set (s : State) (r : Reg) (v : BitVec 64) : State :=
  { s with regs := Function.update s.regs r v }

def ofBool (p : Prop) [Decidable p] : BitVec 64 := if p then 1 else 0

def Op.apply (op : Op) (x y : BitVec 64) : BitVec 64 :=
  match op with
  | .addq => x + y
  | .subq => x - y
  | .s4addq => 4 * x + y
  | .bis => x ||| y
  | .cmpeq => ofBool (x = y)
  | .cmplt => ofBool (x.toInt < y.toInt)
  | .cmple => ofBool (x.toInt ≤ y.toInt)
  | .cmpult => ofBool (x < y)
  | .cmpule => ofBool (x ≤ y)
  | .extbl => (byte x (y.toNat % 8)).setWidth 64
  | .insbl => (byte x 0).setWidth 64 <<< (8 * (y.toNat % 8))
  | .mskbl => x &&& ~~~(255#64 <<< (8 * (y.toNat % 8)))

def Test.holds (test : Test) (v : BitVec 64) : Bool :=
  match test with
  | .br => true
  | .beq => v = 0
  | .bne => v ≠ 0

section

variable {L : Type} (env : Env L)

def BaseOff.address (s : State) (b : BaseOff) : BitVec 64 :=
  match b.base with
  | .reg r => s.get r + b.offset
  | .data lab => env.data lab + b.offset

/-- An access of so many bytes has a result. -/
def Fits (a : BitVec 64) (bytes : Nat) : Prop := env.fixup = true ∨ a.toNat % bytes = 0

instance (a : BitVec 64) (bytes : Nat) : Decidable (Fits env a bytes) :=
  inferInstanceAs (Decidable (_ ∨ _))

/-- An access to an address. -/
def MemOp.access (op : MemOp) (reg : Reg) (a : BitVec 64) (s : State) : Option State :=
  match op with
  | .lda => some (s.set reg a)
  | .ldl => if Fits env a 4 then some (s.set reg ((long s.mem a).signExtend 64)) else none
  | .ldq => if Fits env a 8 then some (s.set reg (quad s.mem a)) else none
  | .ldqU => some (s.set reg (quad s.mem (around a)))
  | .stq => if Fits env a 8 then some { s with mem := store s.mem a (s.get reg) } else none
  | .stqU => some { s with mem := store s.mem (around a) (s.get reg) }

/-- One instruction. -/
@[grind =] def exec (i : Ins L) (s : State) : Option (State × Next L) :=
  match i with
  | .operateFmt op src1 src2 dest =>
      some (s.set dest (op.apply (s.get src1) (s.get src2)), .step)
  | .operateFmtImmediate op src1 src2 dest =>
      some (s.set dest (op.apply (s.get src1) src2), .step)
  | .integerBranch test reg lab => some (s, if test.holds (s.get reg) then .jump lab else .step)
  | .integerJump reg => (env.code (s.get reg)).map fun lab => (s, .jump lab)
  | .loadStore op reg a => (op.access env reg (a.address env s) s).map fun s => (s, .step)
  | .loadImmediate reg val => some (s.set reg val, .step)
  | .setLabel _ => some (s, .step)

/-- The label that an instruction sets. -/
def label : Ins L → Option L
  | .setLabel lab => some lab
  | _ => none

/-- The machine. -/
def machine : Machine (Ins L) State L := ⟨exec env, label⟩

end

/-!
## Block moves on Alpha: `move_dlts` and `move_dgts` of `trans/src/alpha/make_code.c`

The registers are those that `movecont_tag` and the two functions take, one after the
other, from those that are free.
-/

/-- The labels that a move takes for itself. -/
inductive MoveLabel
  | qwordLab
  | lwordLab
  | byteLab
  | endlab
deriving DecidableEq, Repr

/-- The registers of a move. -/
structure MoveRegs where
  dest : Reg
  src : Reg
  sizereg : Reg
  movereg : Reg
  rtest : Reg
  rtmp : Reg
  rtmp2 : Reg
  distinct : [dest, src, sizereg, movereg, rtest, rtmp, rtmp2, atReg, 31].Nodup

/-- What the loops for quadwords and longwords do each time round. -/
def wordBody (r : MoveRegs) (load : MemOp) (bytes offset : BitVec 64) (adjust : Op) :
    List (Ins MoveLabel) :=
  [.loadStore load r.movereg ⟨.reg r.src, offset⟩,
    .loadStore .stq r.movereg ⟨.reg r.dest, offset⟩,
    .operateFmtImmediate adjust r.src bytes r.src,
    .operateFmtImmediate adjust r.dest bytes r.dest,
    .operateFmtImmediate .subq r.sizereg bytes r.sizereg]

/-- The loop for quadwords or longwords, that leaves the rest to the one at `next`. -/
def wordLoop (r : MoveRegs) (lab next : MoveLabel) (load : MemOp) (bytes offset : BitVec 64)
    (adjust : Op) : List (Ins MoveLabel) :=
  .setLabel lab ::
  .operateFmtImmediate .cmplt r.sizereg bytes r.rtest ::
  .integerBranch .bne r.rtest next ::
  (wordBody r load bytes offset adjust ++
  [.integerBranch .beq r.sizereg .endlab,
    .integerBranch .br 31 lab])

/-- What the loop for bytes does each time round. -/
def byteBody (r : MoveRegs) (offset : BitVec 64) (adjust : Op) : List (Ins MoveLabel) :=
  [.loadStore .ldqU r.movereg ⟨.reg r.src, offset⟩,
    .loadStore .lda atReg ⟨.reg r.src, offset⟩,
    .operateFmt .extbl r.movereg atReg r.movereg,
    .loadStore .lda atReg ⟨.reg r.dest, offset⟩,
    .loadStore .ldqU r.rtmp ⟨.reg r.dest, offset⟩,
    .operateFmt .insbl r.movereg atReg r.rtmp2,
    .operateFmt .mskbl r.rtmp atReg r.rtmp,
    .operateFmt .bis r.rtmp r.rtmp2 r.rtmp,
    .loadStore .stqU r.rtmp ⟨.reg r.dest, offset⟩,
    .operateFmtImmediate adjust r.src 1 r.src,
    .operateFmtImmediate adjust r.dest 1 r.dest,
    .operateFmtImmediate .subq r.sizereg 1 r.sizereg]

/-- The loop for bytes. -/
def byteLoop (r : MoveRegs) (offset : BitVec 64) (adjust : Op) : List (Ins MoveLabel) :=
  .setLabel .byteLab ::
  .integerBranch .beq r.sizereg .endlab ::
  (byteBody r offset adjust ++
  [.integerBranch .bne r.sizereg .byteLab])

/-- `move_dlts`. -/
def moveDlts (r : MoveRegs) (bytemove : Nat) : List (Ins MoveLabel) :=
  let qwords := wordLoop r .qwordLab .lwordLab .ldq 8 0 .addq
  let lwords := wordLoop r .lwordLab .byteLab .ldl 4 0 .addq
  let bytes := byteLoop r 0 .addq
  (match bytemove with
    | 8 => qwords ++ (lwords ++ bytes)
    | 4 => lwords ++ bytes
    | 2 => bytes
    | 1 => bytes
    | _ => []) ++
  [.setLabel .endlab]

/-- `move_dgts`. -/
def moveDgts (r : MoveRegs) (bytemove : Nat) : List (Ins MoveLabel) :=
  let qwords := wordLoop r .qwordLab .lwordLab .ldq 8 (-8) .subq
  let lwords := wordLoop r .lwordLab .byteLab .ldl 4 (-4) .subq
  let bytes := byteLoop r (-1) .subq
  [.operateFmt .addq r.dest r.sizereg r.dest,
    .operateFmt .addq r.src r.sizereg r.src] ++
  ((match bytemove with
    | 8 => qwords ++ (lwords ++ bytes)
    | 4 => lwords ++ bytes
    | 2 => bytes
    | 1 => bytes
    | _ => []) ++
  [.setLabel .endlab])

end Tendra.Ref.Trans.Alpha
