import Mathlib.Algebra.Group.Nat.Defs
import Tendra.Ref.Trans.Division

/-!
# Multiplication by a constant: `trans/src/{sparc,hppa}/muldvrem.c`

The two back ends cut the constant in the same way and differ in the instructions for
the parts. Numbers of type `long` have `w` bits and those of type `int` 32. A result of
`none` is an assertion that fails.
-/

namespace Tendra.Ref.Trans

/-- What a back end writes for the parts of a multiplication. -/
structure Steps (I : Type) where
  /-- The register for temporaries. -/
  tmp : Reg
  neg (src dest : Reg) : List I
  zero (dest : Reg) : List I
  copy (src dest : Reg) : List I
  shift (src : Reg) (count : Nat) (dest : Reg) : List I
  add (src1 src2 dest : Reg) : List I
  sub (src1 src2 dest : Reg) : List I
  /-- `src * (2 ** bsl - 1)` to the register for temporaries. -/
  timesOnes (src : Reg) (bsl : Nat) : List I
  /-- `src << shift`, as the first step. -/
  firstShifted (src : Reg) (shift : Nat) (dest : Reg) : List I
  /-- `accum + (src << shift)`. -/
  addShifted (src : Reg) (shift : Nat) (accum dest : Reg) : List I
  /-- All but the last of `n` additions of `src`. -/
  addTimes (src inter : Reg) (n : Nat) : List I

/-- An entry of `bs_tab`: the length of a string of ones and its shift from the right. -/
structure Run where
  bsl : Nat
  shift : Nat
deriving DecidableEq, Repr

/-- The value of the string. -/
def Run.value (r : Run) : Nat := (2 ^ r.bsl - 1) * 2 ^ r.shift

section

variable {w : Nat}

/-- The loop that sets up `bs_tab`, with `k` bits to be looked at. -/
@[grind =] def scan : (k : Nat) → (c : BitVec w) → (sby bsl : Nat) → List Run
  | 0, _, _, _ => []
  | k + 1, c, sby, bsl =>
      if c.getLsbD 0 then scan k (c >>> 1) (sby + 1) (bsl + 1)
      -- a complete all-1's bit-string
      else if bsl ≠ 0 then ⟨bsl, sby - bsl⟩ :: scan k (c >>> 1) (sby + 1) 0
      else scan k (c >>> 1) (sby + 1) 0

/-- `bs_tab`. -/
def bsTab (constval : BitVec w) : List Run := scan 33 constval 0 0

/-- `max_bsl`. -/
def maxBsl (tab : List Run) : Nat := tab.foldr (fun r n => max r.bsl n) 0

/-- The last entry with one bit, if it is shifted, which initialises the accumulator. -/
def firstRun (tab : List Run) : Option Run :=
  (tab.reverse.find? fun r => r.bsl = 1).filter fun r => r.shift ≠ 0

/-- The entries in the order of the steps: longer strings first. -/
@[grind =] def order (tab : List Run) : (bsl : Nat) → List Run
  | 0 => []
  | bsl + 1 => tab.filter (fun r => r.bsl = bsl + 1) ++ order tab bsl

/-- The steps, once the entry that initialises the accumulator is marked as done. -/
def leftSteps (tab : List Run) : List Run :=
  order ((firstRun tab).elim tab tab.erase) (maxBsl tab)

variable {I : Type} (st : Steps I)

/-- The steps that are left. `found` has the length of the strings for which the register for
temporaries was set and the shift that it has; the last step goes to `dest`. -/
def accumulate (src accum dest : Reg) :
    List Run → (accumInit : Bool) → (found : Option (Nat × Nat)) → Option (List I)
  | [], _, _ => some []
  | r :: rest, accumInit, found =>
      let stepAccumDest := if rest = [] then dest else accum
      if r.bsl = 1 then
        let step :=
          if r.shift = 0 then
            if accumInit then st.add accum src stepAccumDest else st.copy src stepAccumDest
          else if accumInit then st.addShifted src r.shift accum stepAccumDest
          else st.firstShifted src r.shift stepAccumDest
        (accumulate src accum dest rest true found).map (step ++ ·)
      else
        -- amount to accum into tmp reg, shared by strings of the same length
        let tmpShifted := found.bind fun f => if f.1 = r.bsl then some f.2 else none
        let times := if tmpShifted = none then st.timesOnes src r.bsl else []
        let extraShift : Int := r.shift - tmpShifted.getD 0
        if extraShift = 0 ∨ extraShift > 0 ∧ extraShift ≤ 31 then
          let shifted := if extraShift = 0 then [] else st.shift st.tmp extraShift.toNat st.tmp
          let step :=
            times ++ shifted ++
            if accumInit then st.add accum st.tmp stepAccumDest else st.copy st.tmp stepAccumDest
          (accumulate src accum dest rest true (some (r.bsl, r.shift))).map (step ++ ·)
        else none

/-- The register of the accumulator. `freeReg` is what `getreg` gives. -/
def accumReg (src dest freeReg : Reg) : Reg := if src ≠ dest then dest else freeReg

/-- `mul_const_complex`. -/
def mulConstComplex (src : Reg) (constval : BitVec w) (dest freeReg : Reg) : Option (List I) :=
  -- special case ~0 cannot be handled by the general algorithm
  if constval = -1 then some (st.neg src dest)
  else
    let tab := bsTab constval
    let accum := accumReg src dest freeReg
    if tab.length ≤ 16 ∧ tab ≠ [] ∧ maxBsl tab ≤ 31 ∧ src ≠ st.tmp ∧ dest ≠ st.tmp ∧
        src ≠ accum ∧ leftSteps tab ≠ [] then
      (accumulate st src accum dest (leftSteps tab) (firstRun tab).isSome none).map
        (((firstRun tab).elim [] fun r => st.shift src r.shift accum) ++ ·)
    else none

/-- `NOT_MUL_CONST_SIMPLE`. -/
abbrev notMulConstSimple : Int := 3

/-- The loop of `offset_mul_const_simple`, from `i` on. -/
def offsetLoop (constval : BitVec w) : Nat → Nat → Int
  | 0, _ => notMulConstSimple
  | k + 1, i =>
      if isPow2 (constval - .ofNat w i) then i
      -- check for sub offset of 1 only
      else if i = 1 ∧ isPow2 (constval + 1) then -1
      else offsetLoop constval k (i + 1)

/-- `offset_mul_const_simple`, with `MAX_MUL_POW2_OFFSET` 2. -/
def offsetMulConstSimple (constval : BitVec w) (sgned : Bool) : Int :=
  if constval.toInt < 0 then
    if sgned then offsetLoop (-constval) 3 0 else notMulConstSimple
  else offsetLoop constval 3 0

/-- The part of `mul_const_simple` after the sign of the constant is dealt with. -/
def mulPositive (src : Reg) (constval : BitVec w) (dest : Reg) (sgned : Bool) : Option (List I) :=
  if constval = 1 then some (if src ≠ dest then st.copy src dest else [])
  else if constval = 2 then some (st.add src src dest)
  else
    let addSub := offsetMulConstSimple constval sgned
    let shiftConst := bitNo (constval - .ofInt w addSub)
    if constval = (BitVec.twoPow 32 shiftConst + .ofInt 32 addSub).signExtend w then
      if addSub = 0 then some (st.shift src shiftConst dest)
      else
        -- must preserve src for add/sub
        let interReg := if src = dest then st.tmp else dest
        if src = interReg then none
        else if addSub > 0 then
          some (st.shift src shiftConst interReg ++ st.addTimes src interReg addSub.toNat ++
            st.add interReg src dest)
        else
          some (st.shift src shiftConst interReg ++
            (List.replicate ((-addSub).toNat - 1) (st.sub interReg src interReg)).flatten ++
            st.sub interReg src dest)
    else none

/-- `mul_const_simple`. -/
def mulConstSimple (src : Reg) (constval : BitVec w) (dest : Reg) (sgned : Bool) :
    Option (List I) :=
  if sgned ∧ constval.toInt < 0 then
    if constval = -1 then some (st.neg src dest)
    -- incorrect to modify source
    else (mulPositive st st.tmp (-constval) dest sgned).map (st.neg src st.tmp ++ ·)
  else mulPositive st src constval dest sgned

/-- `mul_const`. -/
def mulConst (src : Reg) (constval : BitVec w) (dest freeReg : Reg) (sgned : Bool) :
    Option (List I) :=
  if constval = 0 then some (st.zero dest)
  else if offsetMulConstSimple constval sgned = notMulConstSimple then
    mulConstComplex st src constval dest freeReg
  else mulConstSimple st src constval dest sgned

end

end Tendra.Ref.Trans
