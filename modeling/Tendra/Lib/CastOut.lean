import Mathlib.Data.Int.ModEq
import Mathlib.Tactic.LinearCombination
import Mathlib.Tactic.Ring

/-!
# Casting out

As in casting out the nines, the last digit of a number in some base is added to the
others until one digit is left, which is the number modulo the base less one. A sequence
that adds something else in place of the digit loses the difference each time, and is
right where all that it loses is a multiple of the base less one.
-/

namespace Tendra.CastOut

/-- The digit that is left, where `low` is added in place of the last digits. -/
def castOut (b : Nat) (low : Nat → Nat) (x : Nat) : Nat :=
  if x < b ∨ x ≤ x / b + low x then x else castOut b low (x / b + low x)
termination_by x
decreasing_by omega

/-- What is lost on the way. -/
def lost (b : Nat) (low : Nat → Nat) (x : Nat) : Int :=
  if x < b ∨ x ≤ x / b + low x then 0
  else ((x % b : Nat) : Int) - low x + lost b low (x / b + low x)
termination_by x
decreasing_by omega

variable {b : Nat} {low : Nat → Nat} {x : Nat}

theorem castOut_of_lt (h : x < b) : castOut b low x = x := by
  rw [castOut, if_pos (.inl h)]

theorem castOut_of_le (h : b ≤ x) (hlow : x / b + low x < x) :
    castOut b low x = castOut b low (x / b + low x) := by
  rw [castOut, if_neg (by omega)]

theorem lost_of_lt (h : x < b) : lost b low x = 0 := by
  rw [lost, if_pos (.inl h)]

theorem lost_of_le (h : b ≤ x) (hlow : x / b + low x < x) :
    lost b low x = ((x % b : Nat) : Int) - low x + lost b low (x / b + low x) := by
  rw [lost, if_neg (by omega)]

/-- The last digit and the others go down. -/
theorem digit_lt (hb : 2 ≤ b) (h : b ≤ x) : x / b + x % b < x := by
  have hdiv := Nat.div_add_mod x b
  have hpos : 1 ≤ x / b := (Nat.one_le_div_iff (by omega)).2 h
  have hmul : 2 * (x / b) ≤ b * (x / b) := Nat.mul_le_mul_right _ hb
  omega

/-- A number that is less than the base goes down with the others. -/
theorem const_lt {c : Nat} (hc : c + 1 < b) (h : b ≤ x) : x / b + c < x := by
  have hdiv := Nat.div_add_mod x b
  obtain ⟨q, hq⟩ := Nat.exists_eq_add_of_le ((Nat.one_le_div_iff (by omega)).2 h)
  obtain ⟨d, rfl⟩ := Nat.exists_eq_add_of_le (show 2 ≤ b from by omega)
  rw [hq] at hdiv ⊢
  have hmul : (2 + d) * (1 + q) = (2 + d) + (q + q + d * q) := by ring
  rw [hmul] at hdiv
  have := Nat.zero_le (d * q)
  omega

theorem castOut_lt (hlow : ∀ y, b ≤ y → y / b + low y < y) : castOut b low x < b := by
  induction x using Nat.strong_induction_on with
  | _ x ih =>
      by_cases h : x < b
      · rwa [castOut_of_lt h]
      · have hlt := hlow x (not_lt.1 h)
        rw [castOut_of_le (not_lt.1 h) hlt]
        exact ih _ hlt

theorem castOut_modEq (hlow : ∀ y, b ≤ y → y / b + low y < y) :
    (castOut b low x : Int) ≡ x - lost b low x [ZMOD b - 1] := by
  induction x using Nat.strong_induction_on with
  | _ x ih =>
      by_cases h : x < b
      · rw [castOut_of_lt h, lost_of_lt h, sub_zero]
      · have hlt := hlow x (not_lt.1 h)
        rw [castOut_of_le (not_lt.1 h) hlt, lost_of_le (not_lt.1 h) hlt]
        refine (ih _ hlt).trans ?_
        have hdiv : (x : Int) = b * (x / b : Nat) + (x % b : Nat) := by
          exact_mod_cast (Nat.div_add_mod x b).symm
        refine Int.modEq_iff_dvd.2 ⟨(x / b : Nat), ?_⟩
        push_cast at hdiv ⊢
        linear_combination hdiv

/-- The digit that is left is right where what is lost is a multiple. -/
theorem castOut_emod_iff (hlow : ∀ y, b ≤ y → y / b + low y < y) :
    (castOut b low x : Int) % (b - 1) = x % (b - 1) ↔ (b : Int) - 1 ∣ lost b low x := by
  have hmod : (castOut b low x : Int) % (b - 1) = (x - lost b low x) % (b - 1) :=
    castOut_modEq hlow
  rw [hmod]
  refine Int.modEq_iff_dvd.trans ?_
  rw [sub_sub_cancel]

theorem lost_digit (hb : 2 ≤ b) : lost b (· % b) x = 0 := by
  induction x using Nat.strong_induction_on with
  | _ x ih =>
      by_cases h : x < b
      · exact lost_of_lt h
      · have hlt := digit_lt hb (not_lt.1 h)
        rw [lost_of_le (not_lt.1 h) hlt, ih _ hlt]
        omega

end Tendra.CastOut
