import Mathlib.Logic.Function.Basic

/-!
# Division operations in the back ends of `trans`

The exps of division and remainder, and the helpers on powers of two that the back ends
share. Numbers of exps are `int`s.
-/

namespace Tendra.Ref.Trans

/-- The tags of divisions and remainders. -/
inductive Tag
  | div0
  | div1
  | div2
  | mod
  | rem0
  | rem2
deriving DecidableEq, Repr

/-- A register. -/
abbrev Reg := Nat

/-- `is_pow2` of `imath.h`, on numbers of `n` bits. -/
def isPow2 {n : Nat} (x : BitVec n) : Bool := x &&& (x - 1) = 0

/-- The loop of `bit_no`, as long as `w` bits are left; `unsigned long` has `w` bits. -/
def bitNoLoop (w : Nat) (c : BitVec w) : Nat → BitVec w → Nat → Nat
  | 0, _, shiftConst => shiftConst
  | k + 1, mask, shiftConst =>
      if mask ≠ c then bitNoLoop w c k (mask <<< 1) (shiftConst + 1) else shiftConst

/-- `bit_no`. -/
def bitNo {w : Nat} (c : BitVec w) : Nat := bitNoLoop w c w 1 0

/-!
## Registers of which the first is zero

The general registers of SPARC and HPPA. Register 0 may be written, but reads as zero.
-/

/-- The general registers. -/
structure Regs where
  val : Reg → BitVec 32

namespace Regs

def get (s : Regs) (r : Reg) : BitVec 32 := if r = 0 then 0 else s.val r

def set (s : Regs) (r : Reg) (v : BitVec 32) : Regs := ⟨Function.update s.val r v⟩

@[simp] theorem get_zero (s : Regs) : s.get 0 = 0 := rfl

@[simp] theorem get_set {d : Reg} (hd : d ≠ 0) (s : Regs) (v : BitVec 32) (r : Reg) :
    (s.set d v).get r = if r = d then v else s.get r := by
  simp only [get, set, Function.update_apply]
  by_cases h0 : r = 0
  · rw [if_pos h0, if_neg (fun h => hd (h.symm.trans h0)), if_pos h0]
  · rw [if_neg h0, if_neg h0]

theorem get_set_self {d : Reg} (hd : d ≠ 0) (s : Regs) (v : BitVec 32) : (s.set d v).get d = v := by
  rw [get_set hd, if_pos rfl]

theorem get_set_ne {d r : Reg} (h : r ≠ d) (s : Regs) (v : BitVec 32) :
    (s.set d v).get r = s.get r := by
  simp only [get, set, Function.update_of_ne h]

end Regs

end Tendra.Ref.Trans
