import Tendra.Lib.Machine
import Tendra.Ref.Trans.Division

/-!
# Multiplication by constants on x86: `longc_mult` in `trans/src/x86/ops_int.c`

The helpers `move`, `add`, `sub`, `negate`, `shiftl` and `multiply` are instructions
here, which do what their comments say, on 32 bits. On the way to a place in memory they
may use register 0. `mult_op` is from `instr.c`. Its increment, which is 0 wherever
`mult` starts, is left out.
-/

namespace Tendra.Ref.Trans.LongcMult

/-- A `where` that can be assigned to. -/
inductive Where
  | reg (n : Nat)
  | mem (n : Nat)
deriving DecidableEq, Repr

abbrev reg0 : Where := .reg 0

abbrev reg1 : Where := .reg 1

/-- `inmem`. -/
def Where.inmem : Where → Bool
  | .mem _ => true
  | .reg _ => false

inductive Ins
  | move (src dest : Where)
  | moveI (imm : BitVec 32) (dest : Where)
  | add (a1 a2 dest : Where)
  | sub (a1 a2 dest : Where)
  | negate (src dest : Where)
  | shiftl (places : Nat) (src dest : Where)
  | multiply (a1 : Where) (imm : BitVec 32) (dest : Where)
  | leal (rmain rind : Where) (sc : Nat) (dest : Where)
  | pushedx
  | popedx
deriving DecidableEq, Repr

structure State where
  val : Where → BitVec 32
  stack : List (BitVec 32)

section

variable (scratch : State → BitVec 32)

/-- Writes a place, and something to register 0 before it if the place is in memory. -/
def State.put (s : State) (dest : Where) (v : BitVec 32) : State :=
  let val := if dest.inmem then Function.update s.val reg0 (scratch s) else s.val
  { s with val := Function.update val dest v }

/-- One instruction. `sub` takes its first operand from its second. -/
def exec (i : Ins) (s : State) : Option (State × Next Nat) :=
  match i with
  | .move src dest => some (s.put scratch dest (s.val src), .step)
  | .moveI imm dest => some (s.put scratch dest imm, .step)
  | .add a1 a2 dest => some (s.put scratch dest (s.val a1 + s.val a2), .step)
  | .sub a1 a2 dest => some (s.put scratch dest (s.val a2 - s.val a1), .step)
  | .negate src dest => some (s.put scratch dest (-s.val src), .step)
  | .shiftl places src dest => some (s.put scratch dest (s.val src <<< places), .step)
  | .multiply a1 imm dest => some (s.put scratch dest (s.val a1 * imm), .step)
  | .leal rmain rind sc dest =>
      if rmain.inmem ∨ rind.inmem ∨ dest.inmem ∨ sc ∉ [1, 2, 4, 8] then none
      else some (s.put scratch dest (s.val rmain + .ofNat 32 sc * s.val rind), .step)
  | .pushedx => some ({ s with stack := s.val reg1 :: s.stack }, .step)
  | .popedx =>
      match s.stack with
      | [] => none
      | v :: stack => some ({ s with val := Function.update s.val reg1 v, stack := stack }, .step)

/-- The machine. -/
def machine : Machine Ins State Nat := ⟨exec scratch, fun _ => none⟩

end

/-- `mult_op`. -/
def multOp (rmain rind : Where) (sc : Nat) (dest : Where) : List Ins :=
  if dest.inmem then [.leal rmain rind sc reg0, .move reg0 dest] else [.leal rmain rind sc dest]

def mtab : List (BitVec 32) := [25, 15, 9, 7, 5, 3]

/-- The loop that counts the places of the lowest bit, as long as `k` bits are left. -/
def maskLoop (n : BitVec 32) : Nat → (mask : BitVec 32) → Nat → Option Nat
  | 0, _, _ => none
  | k + 1, mask, c => if mask &&& n = 0 then maskLoop n k (mask + mask) (c + 1) else some c

/-- The loops over `mtab`: the first factor in it for which the other is a power of two or in it
too. -/
def factors (n : BitVec 32) : Option (BitVec 32 × BitVec 32) :=
  mtab.findSome? fun m =>
    if n.srem m = 0 then
      let x := n.sdiv m
      if isPow2 x ∨ x ∈ mtab then some (m, x) else none
    else none

/-- The cases 3, 5 and 9: `sc` and one. -/
def once (a1 : Where) (sc : Nat) (dest : Where) : List Ins :=
  if a1.inmem then .move a1 reg0 :: multOp reg0 reg0 sc dest else multOp a1 a1 sc dest

/-- The cases 15 and 25: `sc` and one, times five. -/
def twice (a1 : Where) (sc : Nat) (dest : Where) : List Ins :=
  (if a1.inmem then .move a1 reg0 :: multOp reg0 reg0 sc reg0 else multOp a1 a1 sc reg0) ++
  multOp reg0 reg0 4 dest

/-- `longc_mult`, to a depth of calls. -/
def longcMult : (fuel : Nat) → (a1 : Where) → (n : BitVec 32) → (dest : Where) →
    Option (List Ins)
  | 0, _, _, _ => none
  | fuel + 1, a1, n, dest =>
    match n.toNat with
    | 0 => some [.moveI 0 dest]
    | 1 => some [.move a1 dest]
    | 2 =>
        if a1.inmem then
          let newdest := if dest.inmem then reg0 else dest
          some [.move a1 newdest, .add newdest newdest dest]
        else some [.add a1 a1 dest]
    | 3 => some (once a1 2 dest)
    | 5 => some (once a1 4 dest)
    | 7 =>
        if ¬a1.inmem ∧ ¬dest.inmem ∧ a1 ≠ dest then
          (longcMult fuel a1 8 dest).map (· ++ [.sub a1 dest dest])
        else if ¬a1.inmem ∧ ¬dest.inmem then
          if a1 ≠ reg0 then some (multOp a1 a1 2 reg0 ++ multOp reg0 a1 4 dest)
          else some (.pushedx :: multOp a1 a1 2 reg1 ++ multOp reg1 reg0 4 dest ++ [.popedx])
        else if a1.inmem ∧ ¬dest.inmem then
          (longcMult fuel reg0 n dest).map (.move a1 reg0 :: ·)
        else some [.multiply a1 n dest]
    | 9 => some (once a1 8 dest)
    | 15 => some (twice a1 2 dest)
    | 25 => some (twice a1 4 dest)
    | _ =>
        if isPow2 n then (maskLoop n 32 1 0).map fun c => [.shiftl c a1 dest]
        else if isPow2 (-n) then
          (maskLoop (-n) 32 1 0).map fun c => [.shiftl c a1 dest, .negate dest dest]
        else
          match factors n with
          | some (m, x) =>
              let w := if dest.inmem then reg0 else dest
              (longcMult fuel a1 m w).bind fun c1 => (longcMult fuel w x dest).map (c1 ++ ·)
          | none => some [.multiply a1 n dest]

end Tendra.Ref.Trans.LongcMult
