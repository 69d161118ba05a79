import Mathlib.Algebra.Order.Field.Power
import Mathlib.Algebra.Order.Floor.Semifield
import Mathlib.Data.Int.Log
import Mathlib.Data.Rat.Floor
import Mathlib.Tactic.FieldSimp
import Mathlib.Tactic.Linarith
import Mathlib.Tactic.Positivity
import Mathlib.Tactic.Ring

/-!
# Rounding to a number of significant digits

A rational number is rounded to `p` digits in base `B` by scaling it so that its
last digit has weight one, rounding that to an integer and scaling back. What
rounding to an integer means is a parameter.
-/

namespace Tendra.Rounding

/-- To the nearest integer, halves away from zero. -/
def halfAway (x : ℚ) : Int := if 0 ≤ x then ⌊x + 1 / 2⌋ else -⌊-x + 1 / 2⌋

/-- Towards zero. -/
def towardZero (x : ℚ) : Int := if 0 ≤ x then ⌊x⌋ else -⌊-x⌋

/-- The weight of the last of `p` digits of `x` in base `B`. -/
def quantum (B p : Nat) (x : ℚ) : ℚ := (B : ℚ) ^ (Int.log B |x| + 1 - p)

/-- `x` rounded to `p` digits in base `B`. -/
def roundTo (round : ℚ → Int) (B p : Nat) (x : ℚ) : ℚ :=
  round (x / quantum B p x) * quantum B p x

variable {B p : Nat} {x : ℚ}

/-- The quantum of a number between two powers of the base. -/
theorem quantum_eq {e : Int} (hB : 1 < B) (h1 : (B : ℚ) ^ e ≤ |x|) (h2 : |x| < (B : ℚ) ^ (e + 1)) :
    quantum B p x = (B : ℚ) ^ (e + 1 - p) := by
  have hpos : 0 < |x| := lt_of_lt_of_le (zpow_pos (by exact_mod_cast (by omega : 0 < B)) e) h1
  have hlo := (Int.zpow_le_iff_le_log hB hpos).1 h1
  have hhi := (Int.lt_zpow_iff_log_lt hB hpos).1 h2
  rw [quantum, show Int.log B |x| = e by omega]

/-- A rounding that treats both signs alike passes through the sign. -/
theorem roundTo_sign {round : ℚ → Int} (hr : ∀ y, round (-y) = -round y) {s : Int}
    (hs : s = -1 ∨ s = 1) : roundTo round B p (s * x) = s * roundTo round B p x := by
  rcases hs with rfl | rfl
  · have hq : quantum B p (-x) = quantum B p x := by rw [quantum, quantum, abs_neg]
    have hneg : roundTo round B p (-x) = -roundTo round B p x := by
      rw [roundTo, roundTo, hq, neg_div, hr]
      push_cast
      ring
    simpa using hneg
  · simp

/-- A number with `d` digits more than are kept. -/
theorem roundTo_scaled {round : ℚ → Int} {y : ℚ} {d : Nat} (e : Int) (hB : 1 < B)
    (h1 : (B : ℚ) ^ (p + d) ≤ y * B) (h2 : y < (B : ℚ) ^ (p + d)) :
    roundTo round B p (y * (B : ℚ) ^ e) = round (y / (B ^ d : Nat)) * (B : ℚ) ^ (e + d) := by
  have hB0 : (0 : ℚ) < B := by exact_mod_cast (by omega : 0 < B)
  have hy : 0 < y := by
    by_contra h
    have : y * B ≤ 0 := mul_nonpos_of_nonpos_of_nonneg (not_lt.1 h) hB0.le
    linarith [pow_pos hB0 (p + d)]
  have hw : (0 : ℚ) < (B : ℚ) ^ e := zpow_pos hB0 e
  have habs : |y * (B : ℚ) ^ e| = y * (B : ℚ) ^ e := abs_of_pos (mul_pos hy hw)
  have hquantum : quantum B p (y * (B : ℚ) ^ e) = (B : ℚ) ^ (e + d) := by
    rw [quantum_eq (e := e + d + p - 1) hB]
    · congr 1
      ring
    · rw [habs, zpow_sub_one₀ hB0.ne', ← div_eq_mul_inv, div_le_iff₀ hB0,
        show e + d + p = ((p + d : Nat) : Int) + e by push_cast; ring, zpow_add₀ hB0.ne',
        zpow_natCast]
      calc (B : ℚ) ^ (p + d) * (B : ℚ) ^ e ≤ y * B * (B : ℚ) ^ e := by gcongr
        _ = y * (B : ℚ) ^ e * B := by ring
    · rw [habs, show e + d + p - 1 + 1 = ((p + d : Nat) : Int) + e by push_cast; ring,
        zpow_add₀ hB0.ne', zpow_natCast]
      gcongr
  rw [roundTo, hquantum, zpow_add₀ hB0.ne', zpow_natCast, mul_comm y, mul_div_mul_left _ _ hw.ne']
  push_cast
  rfl

theorem halfAway_neg (x : ℚ) : halfAway (-x) = -halfAway x := by
  rcases lt_trichotomy x 0 with h | h | h
  · rw [halfAway, halfAway, if_pos (by linarith), if_neg (by linarith), neg_neg]
  · subst h
    norm_num [halfAway]
  · rw [halfAway, halfAway, if_neg (by linarith), if_pos h.le, neg_neg]

theorem towardZero_neg (x : ℚ) : towardZero (-x) = -towardZero x := by
  rcases lt_trichotomy x 0 with h | h | h
  · rw [towardZero, towardZero, if_pos (by linarith), if_neg (by linarith), neg_neg]
  · subst h
    norm_num [towardZero]
  · rw [towardZero, towardZero, if_neg (by linarith), if_pos h.le, neg_neg]

/-- The integer part of a quotient is the quotient of the integer part. -/
theorem floor_div {y : ℚ} {n d : Nat} (hd : 0 < d) (h1 : (n : ℚ) ≤ y) (h2 : y < n + 1) :
    ⌊y / d⌋ = (n / d : Nat) := by
  have hdq : (0 : ℚ) < d := by exact_mod_cast hd
  have hmod := Nat.div_add_mod n d
  have hlt := Nat.mod_lt n hd
  generalize n / d = q at hmod ⊢
  generalize n % d = r at hmod hlt
  have hq : (d : ℚ) * q + r = n := by exact_mod_cast hmod
  have hr : (r : ℚ) + 1 ≤ d := by exact_mod_cast hlt
  rw [Int.floor_eq_iff]
  constructor
  · rw [le_div_iff₀ hdq, Int.cast_natCast, mul_comm]
    linarith [(Nat.cast_nonneg r : (0 : ℚ) ≤ r)]
  · rw [div_lt_iff₀ hdq, Int.cast_natCast, add_mul, one_mul, mul_comm]
    linarith

/-- Only the integer part of a number decides how its quotient by an even number
is rounded. -/
theorem halfAway_div {y : ℚ} {n c : Nat} (hc : 0 < c) (h1 : (n : ℚ) ≤ y) (h2 : y < n + 1) :
    halfAway (y / (2 * c : Nat)) = ((n + c) / (2 * c) : Nat) := by
  have hcq : (0 : ℚ) < c := by exact_mod_cast hc
  have hy : 0 ≤ y := le_trans (by positivity) h1
  have hsum : y / (2 * c : Nat) + 1 / 2 = (y + c) / (2 * c : Nat) := by
    push_cast
    field_simp
  rw [halfAway, if_pos (by positivity), hsum]
  exact floor_div (by omega) (by push_cast; linarith) (by push_cast; linarith)

/-- The integer around which a number lies. -/
theorem halfAway_eq {n : Nat} (h0 : 0 ≤ x) (h1 : n ≤ x + 1 / 2) (h2 : x + 1 / 2 < n + 1) :
    halfAway x = n := by
  rw [halfAway, if_pos h0, Int.floor_eq_iff]
  exact ⟨by exact_mod_cast h1, by exact_mod_cast h2⟩

/-- Upwards, a quotient that does not come out even gains one. -/
theorem ceil_div (n : Nat) {d : Nat} (hd : 0 < d) :
    ⌈(n : ℚ) / d⌉ = ((if n % d = 0 then n / d else n / d + 1 : Nat) : Int) := by
  have hdq : (0 : ℚ) < d := by exact_mod_cast hd
  have hmod := Nat.div_add_mod n d
  have hlt := Nat.mod_lt n hd
  generalize n / d = q at hmod ⊢
  generalize n % d = r at hmod hlt ⊢
  have hq : (d : ℚ) * q + r = n := by exact_mod_cast hmod
  have hr : (r : ℚ) < d := by exact_mod_cast hlt
  rw [Int.ceil_eq_iff, Int.cast_natCast, lt_div_iff₀ hdq, div_le_iff₀ hdq, sub_mul, one_mul]
  split
  · next h0 =>
      subst h0
      rw [Nat.cast_zero, add_zero] at hq
      constructor <;> linarith
  · next h0 =>
      have hr1 : (1 : ℚ) ≤ r := by exact_mod_cast Nat.one_le_iff_ne_zero.2 h0
      push_cast
      constructor <;> linarith

theorem towardZero_div {y : ℚ} {n d : Nat} (hd : 0 < d) (h1 : (n : ℚ) ≤ y) (h2 : y < n + 1) :
    towardZero (y / d) = (n / d : Nat) := by
  have hy : 0 ≤ y := le_trans (by positivity) h1
  rw [towardZero, if_pos (by positivity), floor_div hd h1 h2]

end Tendra.Rounding
