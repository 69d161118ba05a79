import Tendra.Ref.Trans.M68k

/-!
# Multiplications by constants and remainders on m68k: `trans/src/m68k/ops_int.c`

The helpers `move`, `negate`, `add`, `and` and `cmp` are instructions here too, on 32
bits, and the multiplications and `shift_aux` of `ops_logic.c` write others between
registers. A branch goes by the last comparison. `long` has 64 bits.
-/

namespace Tendra.Ref.Trans.M68k.Long

inductive Shift
  | asl
  | lsr
deriving DecidableEq, Repr

inductive Test
  | le (sgned : Bool)
  | ge
  | neq
deriving DecidableEq, Repr

inductive Ins
  | move (src dest : Where)
  | moveI (imm : BitVec 32) (dest : Where)
  | negate (src dest : Where)
  | add (a1 a2 dest : Where)
  | and (a1 a2 dest : Where)
  | addl (src dest : Where)
  | subl (src dest : Where)
  | lea (r : Nat) (sf : Nat)
  | shift (op : Shift) (count : Nat) (dest : Where)
  | shiftBy (op : Shift) (count dest : Where)
  | cmp (var limit : Where)
  | cmpZero (var : Where)
  | branch (test : Test) (lab : Nat)
  | bra (lab : Nat)
  | makeLabel (lab : Nat)
deriving DecidableEq, Repr

structure State where
  val : Where → BitVec 32
  /-- The two numbers that were compared. -/
  flags : Option (BitVec 32 × BitVec 32)

def State.set (s : State) (dest : Where) (v : BitVec 32) : State :=
  ⟨Function.update s.val dest v, none⟩

def Shift.apply (op : Shift) (x : BitVec 32) (n : Nat) : BitVec 32 :=
  match op with
  | .asl => x <<< n
  | .lsr => x >>> n

def Test.holds (test : Test) (x y : BitVec 32) : Bool :=
  match test with
  | .le true => x.toInt ≤ y.toInt
  | .le false => x ≤ y
  | .ge => y.toInt ≤ x.toInt
  | .neq => x ≠ y

/-- One instruction. `lea` adds a multiple of an address register to it. -/
def exec (i : Ins) (s : State) : Option (State × Next Nat) :=
  match i with
  | .move src dest => some (s.set dest (s.val src), .step)
  | .moveI imm dest => some (s.set dest imm, .step)
  | .negate src dest => some (s.set dest (-s.val src), .step)
  | .add a1 a2 dest => some (s.set dest (s.val a1 + s.val a2), .step)
  | .and a1 a2 dest => some (s.set dest (s.val a1 &&& s.val a2), .step)
  | .addl src dest => some (s.set dest (s.val dest + s.val src), .step)
  | .subl src dest => some (s.set dest (s.val dest - s.val src), .step)
  | .lea r sf =>
      if sf ∈ [1, 2, 4, 8] then
        some (s.set (.areg r) (s.val (.areg r) + .ofNat 32 sf * s.val (.areg r)), .step)
      else none
  | .shift op count dest =>
      if 1 ≤ count ∧ count ≤ 8 then some (s.set dest (op.apply (s.val dest) count), .step) else none
  | .shiftBy op count dest =>
      some (s.set dest (op.apply (s.val dest) ((s.val count).toNat % 64)), .step)
  | .cmp var limit => some (⟨s.val, some (s.val var, s.val limit)⟩, .step)
  | .cmpZero var => some (⟨s.val, some (s.val var, 0)⟩, .step)
  | .branch test lab =>
      s.flags.map fun f => (s, if test.holds f.1 f.2 then .jump lab else .step)
  | .bra lab => some (s, .jump lab)
  | .makeLabel _ => some (s, .step)

/-- The label that an instruction sets. -/
def labelOf : Ins → Option Nat
  | .makeLabel lab => some lab
  | _ => none

/-- The machine. -/
def machine : Machine Ins State Nat := ⟨exec, labelOf⟩

/-- A shift by `n` as immediate shifts, at most eight at a time. -/
def shiftLoop (op : Shift) (w : Where) (n : Nat) : List Ins :=
  if n = 0 then []
  else
    let m := if n > 8 then 7 else n
    .shift op m w :: shiftLoop op w (n - m)
termination_by n
decreasing_by
  split <;> omega

/-- `shift_aux`, for a shift by a constant without error treatment. -/
def shiftAux (op : Shift) (d1IsSpecial dontUseD1 : Bool) (n : Nat) (src dest : Where) :
    List Ins :=
  -- a shift by 0 is a move
  if n = 0 then [.move src dest]
  else
    -- reduce mod 64 to emulate instruction
    let p := n % 64
    if p ≤ 8 ∨ d1IsSpecial ∨ dontUseD1 then
      let w := if dest.isDreg then dest else d0
      .move src w :: shiftLoop op w p ++ [.move w dest]
    else if dest.isDreg then
      let w := if dest = d0 then d1 else d0
      [.moveI (.ofNat 32 n) w, .move src dest, .shiftBy op w dest]
    else [.moveI (.ofNat 32 n) d0, .move src d1, .shiftBy op d0 d1, .move d1 dest]

/-- The address register that `mult_clever` works in; `tmp` is what `next_tmp_reg` finds. -/
def cleverReg (tmp : Nat) (dest : Where) : Nat :=
  match dest with
  | .areg n => n
  | _ => tmp

/-- `mult_clever`. -/
def multClever (tmp : Nat) (a dest : Where) (sf : Nat) (d : Bool) : List Ins :=
  let r := cleverReg tmp dest
  [.move a (.areg r), .lea r sf] ++ (if d then [.addl (.areg r) (.areg r)] else []) ++
  [.move (.areg r) dest]

/-- `mult_power2`. -/
def multPower2 (d1IsSpecial : Bool) (p : Nat) (r : Where) (d1Used : Bool) : List Ins :=
  match p with
  | 0 => []
  | 1 => [.addl r r]
  | p => shiftAux .asl d1IsSpecial d1Used p r r

/-- `mult_utility`. -/
def multUtility (d1IsSpecial : Bool) (p q : Nat) (r1 r2 : Where) (d1Used firstTime : Bool) :
    List Ins :=
  if firstTime then
    match p with
    | 0 => []
    | 1 => []
    | 2 => [.addl r1 r1, .addl r2 r1]
    | p => multPower2 d1IsSpecial p r1 d1Used ++ [.subl r2 r1]
  else
    match p with
    | 0 => multPower2 d1IsSpecial q r1 d1Used
    | 1 => multPower2 d1IsSpecial (q + 1) r1 d1Used ++ [.addl r2 r1]
    | 2 =>
        multPower2 d1IsSpecial (q + 1) r1 d1Used ++ [.addl r2 r1, .addl r1 r1, .addl r2 r1]
    | p =>
        multPower2 d1IsSpecial q r1 d1Used ++ [.addl r2 r1] ++
        multPower2 d1IsSpecial p r1 d1Used ++ [.subl r2 r1]

/-- The scan of the `k` low bits of `n`, the highest first; `p` counts consecutive ones and `q`
consecutive zeros. -/
def scanLoop (d1IsSpecial : Bool) (n : BitVec 64) (r1 r2 : Where) : (k : Nat) →
    (started firstTime : Bool) → (p q : Nat) → List Ins
  | 0, _, firstTime, p, q =>
      -- deal with last batch of digits
      if p ≠ 0 ∨ q ≠ 0 then multUtility d1IsSpecial p q r1 r2 true firstTime else []
  | k + 1, started, firstTime, p, q =>
      if BitVec.twoPow 64 k &&& n ≠ 0 then scanLoop d1IsSpecial n r1 r2 k true firstTime (p + 1) q
      else if p ≠ 0 then
        multUtility d1IsSpecial p q r1 r2 true firstTime ++
        scanLoop d1IsSpecial n r1 r2 k started false 0 (if started then 1 else 0)
      else scanLoop d1IsSpecial n r1 r2 k started firstTime p (if started then q + 1 else q)

/-- A destination that the product can be formed in. -/
def canHold (dest : Where) : Bool := dest.isDreg && dest ≠ d0

/-- The register for the product. -/
def multReg1 (dest : Where) : Where := if canHold dest then dest else d0

/-- The operand may stay in its own register. -/
def dontMove (a1 dest : Where) : Bool := a1.isDreg && a1 ≠ multReg1 dest

/-- The register for the operand. -/
def multReg2 (a1 dest : Where) : Where :=
  if dontMove a1 dest then a1 else if canHold dest then d0 else d1

/-- `mult_const` on 32 bits, where `n0` is no special case. -/
def multGeneral (d1IsSpecial lastUse : Bool) (n0 : Int) (a1 dest : Where) : Option (List Ins) :=
  -- find two registers
  let reg1 := multReg1 dest
  let reg2 := multReg2 a1 dest
  let d1Used := !dontMove a1 dest && !canHold dest
  let n : BitVec 64 := .ofInt 64 (if n0 < 0 then -n0 else n0)
  let result (reg1 : Where) : Ins := if n0 < 0 then .negate reg1 dest else .move reg1 dest
  if isPow2 n then
    (bitOne n).map fun p =>
    if a1.isDreg ∧ lastUse then multPower2 d1IsSpecial p a1 false ++ [result a1]
    else .move a1 reg1 :: multPower2 d1IsSpecial p reg1 d1Used ++ [result reg1]
  else
    some (.move a1 reg1 :: (if dontMove a1 dest then [] else [.move reg1 reg2]) ++
      scanLoop d1IsSpecial n reg1 reg2 31 false true 0 0 ++ [result reg1])

/-- `mult_const` on 32 bits, with a constant that is no offset. -/
def multConst (d1IsSpecial lastUse : Bool) (tmp : Nat) (a1 : Where) (a2 : BitVec 32)
    (dest : Where) : Option (List Ins) :=
  match a2.toInt with
  | 0 => some [.moveI 0 dest]
  | 1 => some [.move a1 dest]
  | -1 => some [.negate a1 dest]
  | 2 => some [.add a1 a1 dest]
  | 5 => some (multClever tmp a1 dest 4 false)
  | 9 => some (multClever tmp a1 dest 8 false)
  | 10 => some (multClever tmp a1 dest 4 true)
  | 18 => some (multClever tmp a1 dest 8 true)
  | n => multGeneral d1IsSpecial lastUse n a1 dest

/-- The test by which `euclid` passes a constant on to `rem_power2_1`. -/
def castsOut (v : BitVec 32) : Bool := v.toInt > 7 ∧ isPow2 (v.signExtend 64 + 1)

/-- `rem_power2_1`, with its labels; without a result it is left to another sequence. -/
def remPower2_1 (sgned d1IsSpecial : Bool) (v : BitVec 32) (top dest : Where)
    (loop end' tst ntst : Nat) : Option (List Ins) :=
  if sgned ∧ (top = M68k.d0 ∨ top = M68k.d1) then none
  else
    let d1 := if dest.isDreg then dest else M68k.d1
    let d0 := if d1 = M68k.d0 then M68k.d1 else M68k.d0
    (bitOne (v.signExtend 64 + 1)).map fun k =>
    .move top d1 ::
    (if sgned then [.cmpZero d1, .branch .ge loop, .negate d1 d1] else []) ++
    [.makeLabel loop,
      .moveI v d0,
      .cmp d1 d0,
      .branch (.le sgned) end',
      .and d1 d0 d0] ++
    shiftAux .lsr d1IsSpecial false k d1 d1 ++
    [.add d0 d1 d1,
      .bra loop,
      .makeLabel end',
      .branch .neq tst,
      .moveI 0 d1,
      .makeLabel tst] ++
    (if sgned then [.cmpZero top, .branch .ge ntst, .negate d1 d1, .makeLabel ntst] else []) ++
    [.move d1 dest]

end Tendra.Ref.Trans.M68k.Long
