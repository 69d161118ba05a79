import Tendra.Lib.Machine
import Tendra.Ref.Trans.Division

/-!
# Division by powers of two on m68k: `trans/src/m68k/ops_int.c`

The helpers `move`, `add`, `and` and `negate`, and `cmp` with its branch, are
instructions here, which do what their comments say, on 32 bits. Only the shifts that
the sequences write are modelled from `ops_logic.c`.
-/

namespace Tendra.Ref.Trans.M68k

/-- A `where` that can be assigned to. -/
inductive Where
  | dreg (n : Nat)
  | areg (n : Nat)
  | mem (n : Nat)
deriving DecidableEq, Repr

abbrev d0 : Where := .dreg 0

abbrev d1 : Where := .dreg 1

/-- `whereis (w) == Dreg`. -/
def Where.isDreg : Where → Bool
  | .dreg _ => true
  | _ => false

inductive Ins
  | move (src dest : Where)
  | moveI (imm : BitVec 32) (dest : Where)
  | addI (imm : BitVec 32) (dest : Where)
  | andI (imm : BitVec 32) (src dest : Where)
  | negate (dest : Where)
  | bge (src : Where) (lab : Nat)
  | bra (lab : Nat)
  | asr (count : Nat) (dest : Where)
  | lsr (count : Nat) (dest : Where)
  | lsrBy (count dest : Where)
  | makeLabel (lab : Nat)
deriving DecidableEq, Repr

/-- What the places hold. -/
abbrev State := Where → BitVec 32

/-- One instruction. An immediate shift has a count from 1 to 8, and one by a register takes its
count modulo 64. -/
def exec (i : Ins) (s : State) : Option (State × Next Nat) :=
  match i with
  | .move src dest => some (Function.update s dest (s src), .step)
  | .moveI imm dest => some (Function.update s dest imm, .step)
  | .addI imm dest => some (Function.update s dest (s dest + imm), .step)
  | .andI imm src dest => some (Function.update s dest (s src &&& imm), .step)
  | .negate dest => some (Function.update s dest (-s dest), .step)
  | .bge src lab => some (s, if 0 ≤ (s src).toInt then .jump lab else .step)
  | .bra lab => some (s, .jump lab)
  | .asr count dest =>
      if 1 ≤ count ∧ count ≤ 8 then
        some (Function.update s dest ((s dest).sshiftRight count), .step)
      else none
  | .lsr count dest =>
      if 1 ≤ count ∧ count ≤ 8 then some (Function.update s dest (s dest >>> count), .step) else
      none
  | .lsrBy count dest => some (Function.update s dest (s dest >>> ((s count).toNat % 64)), .step)
  | .makeLabel _ => some (s, .step)

/-- The label that an instruction sets. -/
def labelOf : Ins → Option Nat
  | .makeLabel lab => some lab
  | _ => none

/-- The machine. -/
def machine : Machine Ins State Nat := ⟨exec, labelOf⟩

/-- The loop of `bit_one`, as long as `k` bits may be left. -/
def bitOneLoop {w : Nat} : Nat → BitVec w → Nat → Option Nat
  | 0, _, _ => none
  | k + 1, m, c =>
      if m = 0 then none else if m &&& 1 ≠ 0 then some c else bitOneLoop k (m >>> 1) (c + 1)

/-- `bit_one`, which `ilog2` stands for; -1 is `none`. -/
def bitOne {w : Nat} (n : BitVec w) : Option Nat := bitOneLoop w n 0

/-- A shift by `n` as immediate shifts, at most eight at a time. -/
def shiftLoop (instr : Nat → Ins) (n : Nat) : List Ins :=
  if n = 0 then []
  else
    let m := if n > 8 then 7 else n
    instr m :: shiftLoop instr (n - m)
termination_by n
decreasing_by
  split <;> omega

/-- `shift_aux`, for an unsigned right shift by a constant without error treatment. -/
def shiftAux (d1IsSpecial : Bool) (n : Nat) (src dest : Where) : List Ins :=
  -- a shift by 0 is a move
  if n = 0 then [.move src dest]
  else
    -- reduce mod 64 to emulate instruction
    let p := n % 64
    if p ≤ 8 ∨ d1IsSpecial then
      let w := if dest.isDreg then dest else d0
      .move src w :: shiftLoop (.lsr · w) p ++ [.move w dest]
    else if dest.isDreg then
      let w := if dest = d0 then d1 else d0
      [.moveI (.ofNat 32 n) w, .move src dest, .lsrBy w dest]
    else [.moveI (.ofNat 32 n) d0, .move src d1, .lsrBy d0 d1, .move d1 dest]

/-- The register in which the signed sequences work. -/
def workReg (lastUse : Bool) (top dest : Where) : Where :=
  if dest.isDreg then dest else if top.isDreg ∧ lastUse then top else d0

/-- `div_power2`. -/
def divPower2 (sgned d1IsSpecial lastUse : Bool) (v : BitVec 32) (top dest : Where) (lab : Nat) :
    Option (List Ins) :=
  (bitOne v).map fun n =>
    if ¬sgned then shiftAux d1IsSpecial n top dest
    else
      let w := workReg lastUse top dest
      [.move top w,
        .bge w lab,
        .addI (v - 1) w,
        .makeLabel lab] ++
      shiftLoop (.asr · w) n ++
      [.move w dest]

/-- `rem_power2`. -/
def remPower2 (sgned lastUse : Bool) (v : BitVec 32) (top dest : Where) (lab end' : Nat) :
    List Ins :=
  if ¬sgned then [.andI (v - 1) top dest]
  else
    let w := workReg lastUse top dest
    [.move top w,
      .bge w lab,
      .negate w,
      .andI (v - 1) w w,
      .negate w,
      .bra end',
      .makeLabel lab,
      .andI (v - 1) w w,
      .makeLabel end',
      .move w dest]

/-- The form of a division that `div1`, `div2`, `rem1` and `rem2` ask `euclid` for. The two forms
are the same for unsigned division. -/
def form (tag : Tag) (sgned : Bool) : Nat :=
  if ¬sgned then 2
  else
    match tag with
    | .div1 | .mod => 1
    | .div0 | .div2 | .rem0 | .rem2 => 2

/-- `euclid`, where it divides by a constant of 32 bits and has a sequence for a power of two. -/
def euclid (tag : Tag) (sgned d1IsSpecial lastUse : Bool) (v : BitVec 32) (top dest : Where)
    (lab end' : Nat) : Option (List Ins) :=
  if v = 0 then none
  else if v = 1 then
    match tag with
    | .div0 | .div1 | .div2 => some [.move top dest]
    | .mod | .rem0 | .rem2 => some [.moveI 0 dest]
  else if form tag sgned ≠ 1 ∧ (¬sgned ∨ v.toInt > 0) ∧ isPow2 v then
    match tag with
    | .div0 | .div1 | .div2 => divPower2 sgned d1IsSpecial lastUse v top dest lab
    | .mod | .rem0 | .rem2 => some (remPower2 sgned lastUse v top dest lab end')
  else none

/-- Where `bop` leaves a dividend: an operand stays where it is, any other is coded into the
destination if that is a data register, and into D1 if not. -/
def bop (operand : Option Where) (dest : Where) : Where :=
  match operand with
  | some w => w
  | none => if dest.isDreg then dest else d1

end Tendra.Ref.Trans.M68k
