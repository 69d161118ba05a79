import Tendra.Lib.LostBits
import Tendra.Proofs.FltArith
import Tendra.Proofs.FltDiv

/-!
# Quotients of legal numbers

The quotient array has room for the bits of 129 turns, and the loop goes on until the
divisor has vanished, which can take 145. A bit that is set after 129 turns is stored
behind the array, so the accesses stay inside if and only if the division ends before.

The digits of the result are the quotient rounded to the last place, unless the divisor
has lost bits that count by then. They are moved up by a digit if the first one is zero;
nothing is known of the digit that comes in.
-/

namespace Tendra.Ref

open Tendra.Digits Tendra.NonRestoring

variable {f2 f1 : Flt}

theorem Flt.Legal.isNormal {f : Flt} (h : f.Legal) (hs : f.sign ≠ 0) : f.Normal :=
  ⟨h.digits_length, h.digits_bounded, (h.digits_range hs).1⟩

/-- The accesses of `flt_div` to its arrays stay inside if and only if there is nothing to
divide, or the dividend is a sum of halves of the divisor and of the bits it loses. -/
theorem fltDiv_inside_iff {f1 f2 : Flt} (h1 : f1.Legal) (h2 : f2.Legal) (hs2 : f2.sign ≠ 0)
    (res : Flt) :
    fltDiv .stops f1 f2 res ≠ .error .outside ↔
      f1.sign = 0 ∨ Ends (dividend f1 f2) (divisor f1 f2) 129 := by
  by_cases hs1 : f1.sign = 0
  · rw [fltDiv, if_neg hs2, if_pos hs1]
    simp [hs1]
  · obtain ⟨hlt, hd, hge, -, -, start, hinv, hrun⟩ :=
      fltDiv_start (h1.isNormal hs1) (h2.isNormal hs2)
    rw [or_iff_right hs1, ← rem_neg_iff (dividend_pos (h1.isNormal hs1)) (by decide) hge,
      hrun .stops res hs1 hs2]
    rcases divLoop_spec hlt hd hge .stops hinv (n := 144) hd with
      ⟨hloop, -, hout⟩ | ⟨s, hloop, -⟩
    · rw [hloop]
      exact iff_of_false (fun h => h rfl) hout
    · rw [hloop]
      exact iff_of_true (fun h => by cases h)
        fun j hj => divLoop_inside hlt hd hge hinv hloop hj (Nat.zero_le j)

/-- A number of one digit. -/
def oneDigit (d : Nat) : Flt := ⟨d :: List.replicate 9 0, 1, 0⟩

theorem oneDigit_legal {d : Nat} (hd : 0 < d) (hlt : d < fbase) : (oneDigit d).Legal where
  len := rfl
  bounded := bounded_cons.2 ⟨hlt, bounded_replicate_zero fbase_pos 9⟩
  sign := .inr (.inr rfl)
  normal _ := hd.ne'
  range := by simp [oneDigit, eMin, eMax]

/-- A half of one, which ends. -/
theorem fltDiv_inside_iff_half :
    fltDiv .stops (oneDigit 1) (oneDigit 2) (oneDigit 0) ≠ .error .outside ↔
      (oneDigit 1).sign = 0 ∨
        Ends (dividend (oneDigit 1) (oneDigit 2)) (divisor (oneDigit 1) (oneDigit 2)) 129 :=
  fltDiv_inside_iff (oneDigit_legal (by decide) (by decide))
    (oneDigit_legal (by decide) (by decide)) (by decide) (oneDigit 0)

/-- A third of one is stored outside the quotient array. -/
theorem not_fltDiv_inside :
    (oneDigit 1).Legal ∧ (oneDigit 3).Legal ∧ (oneDigit 3).sign ≠ 0 ∧
      fltDiv .stops (oneDigit 1) (oneDigit 3) (oneDigit 0) = .error .outside :=
  ⟨oneDigit_legal (by decide) (by decide), oneDigit_legal (by decide) (by decide), by decide,
    by decide +kernel⟩

/-! ## The last place -/

/-- The places behind the point to which the quotient of the mantissas is made. -/
def quotPlaces (f1 f2 : Flt) : Nat :=
  112 + if bitDiffOf f1 f2 > 0 then (bitDiffOf f1 f2).toNat else (16 + bitDiffOf f1 f2).toNat

/-- The divisor loses no bits while the quotient is made, or too few to matter: it has `z`
zeros at its end. -/
def KeepsBits (f1 f2 : Flt) : Prop :=
  ∃ z, 2 ^ z ∣ divisor f1 f2 ∧ (quotPlaces f1 f2 ≤ z ∨ quotPlaces f1 f2 < 128 ∧
    (quotPlaces f1 f2 + 2 - z) * 2 ^ (quotPlaces f1 f2 + 2) < divisor f1 f2)

/-- The lined-up quotient is the bits up to the last place, rounded by the next one. -/
theorem lined_up {a d q fs : Nat} (hq : q = quot a d 129) (hfs : fs ≤ 15) :
    q / 2 ^ (16 - fs) + roundBit (q % 65536) fs =
      quot a d (112 + fs + 2) / 2 + quot a d (112 + fs + 2) % 2 := by
  have hnext : q / 2 ^ (15 - fs) = quot a d (112 + fs + 2) := by
    rw [hq, ← quot_div (112 + fs + 2) (15 - fs)]
    congr 2
    omega
  have hbit : roundBit (q % 65536) fs = quot a d (112 + fs + 2) % 2 := by
    rw [roundBit_testBit, show 65536 = 2 ^ 16 from rfl, Nat.testBit_mod_two_pow,
      decide_eq_true hfs, decide_eq_true (show 15 - fs < 16 by omega), Bool.true_and,
      Bool.true_and, Nat.toNat_testBit, hnext]
  rw [hbit, ← hnext, Nat.div_div_eq_div_mul, ← pow_succ, show 15 - fs + 1 = 16 - fs by omega]

/-- The digits of the result are off by less than one. -/
theorem lined_up_close {a d z fs q : Nat} (h : a < d) (hd : 2 ^ 128 ≤ d) (hz : 2 ^ z ∣ d)
    (hfs : fs ≤ 16) (hq : q = quot a d 129)
    (hlost : 112 + fs ≤ z ∨ 112 + fs < 128 ∧ (112 + fs + 2 - z) * 2 ^ (112 + fs + 2) < d) :
    d * (q / 2 ^ (16 - fs) + roundBit (q % 65536) fs) < a * 2 ^ (112 + fs) + d ∧
      a * 2 ^ (112 + fs) < d * (q / 2 ^ (16 - fs) + roundBit (q % 65536) fs) + d := by
  rcases Nat.lt_or_ge fs 16 with hlt | hge
  · rw [lined_up hq (by omega)]
    exact quot_rounded h hz ((Nat.pow_le_pow_right (by decide) (by omega)).trans hd)
      (hlost.imp_right And.right)
  · -- there is no bit left to round with
    obtain rfl : fs = 16 := by omega
    have hz128 : 112 + 16 ≤ z := hlost.resolve_right (by omega)
    have hquot := (quot_rem_exact h hz hz128).1
    have hdm := Nat.div_add_mod (a * 2 ^ (112 + 16)) d
    have hmod := Nat.mod_lt (a * 2 ^ (112 + 16)) (show 0 < d by omega)
    rw [hq, roundBit_sixteen, Nat.sub_self, pow_zero, Nat.div_one, Nat.add_zero]
    rw [show quot a d 129 = quot a d (112 + 16 + 1) from rfl, hquot]
    omega

/-- The dividend and the divisor are the mantissas, up to powers of two. -/
theorem exists_shifts (h1 : f1.Normal) (h2 : f2.Normal) :
    ∃ n m : Nat, bitDiffOf f1 f2 = n - m ∧ n ≤ 16 ∧ m ≤ 15 ∧ (n = 0 ∨ m = 0) ∧
      (0 < n → f2.mant.headD 0 ≤ f1.mant.headD 0) ∧
      dividend f1 f2 * 2 ^ n = val fbase f1.digits * 2 ^ 16 ∧
      divisor f1 f2 * 2 ^ m = val fbase f2.digits * 2 ^ 16 := by
  obtain ⟨-, -, -, -, -, ht1, -⟩ := h1.mantissa
  obtain ⟨-, -, -, -, hp2, ht2, -⟩ := h2.mantissa
  obtain ⟨hn, hm, hzero, -⟩ := shifts_spec hp2 ht1 ht2
  exact ⟨_, _, rfl, hn, hm, hzero, fun h => (Nat.div_pos_iff.1 (Nat.size_pos.1 h)).2,
    Nat.div_mul_cancel (Dvd.dvd.mul_left (pow_dvd_pow 2 hn) _),
    Nat.div_mul_cancel (Dvd.dvd.mul_left (pow_dvd_pow 2 (by omega)) _)⟩

/-- The exponent of the result, if its digits are not moved up. -/
def quotExp (f1 f2 : Flt) : Int :=
  if bitDiffOf f1 f2 > 0 then f1.exp - f2.exp else f1.exp - f2.exp - 1

/-- The exact quotient, on the scale of the digits of the result. -/
theorem exact_quotient (h1 : f1.Normal) (h2 : f2.Normal) :
    f1.value / f2.value = (f1.sign / f2.sign : ℚ) *
      (dividend f1 f2 * 2 ^ quotPlaces f1 f2 / divisor f1 f2 *
        (fbase : ℚ) ^ (quotExp f1 f2 - 7)) := by
  obtain ⟨n, m, hbd, hn, hm, -, -, hdiv, hdis⟩ := exists_shifts h1 h2
  have hpos2 : 0 < val fbase f2.digits := (fbase_pow_pos 7).trans_le h2.head
  have hdpos : 0 < divisor f1 f2 := by
    by_contra h0
    rw [Nat.eq_zero_of_not_pos h0, Nat.zero_mul] at hdis
    omega
  have hscale : (2 : ℚ) ^ quotPlaces f1 f2 * (fbase : ℚ) ^ (quotExp f1 f2 - 7) * 2 ^ m =
      2 ^ n * (fbase : ℚ) ^ (f1.exp - f2.exp) := by
    rw [show (fbase : ℚ) = 2 ^ (16 : Int) by norm_num, ← zpow_mul, ← zpow_mul, ← zpow_natCast,
      ← zpow_natCast, ← zpow_natCast, ← zpow_add₀ (by norm_num), ← zpow_add₀ (by norm_num),
      ← zpow_add₀ (by norm_num)]
    congr 1
    rw [quotPlaces, quotExp, hbd]
    split <;> omega
  have hdivq : (val fbase f1.digits : ℚ) * 65536 = dividend f1 f2 * 2 ^ n := by
    exact_mod_cast hdiv.symm
  have hdisq : (val fbase f2.digits : ℚ) * 65536 = divisor f1 f2 * 2 ^ m := by
    exact_mod_cast hdis.symm
  have hne2 : (val fbase f2.digits : ℚ) ≠ 0 := by exact_mod_cast hpos2.ne'
  have hned : (divisor f1 f2 : ℚ) ≠ 0 := by exact_mod_cast hdpos.ne'
  rw [value_fbase, value_fbase, mul_div_mul_comm, mul_div_mul_comm _ _ (val fbase f2.digits : ℚ),
    ← zpow_sub₀ fbase_ne_zero, show f1.exp - 7 - (f2.exp - 7) = f1.exp - f2.exp by ring]
  congr 1
  rw [div_mul_eq_mul_div, div_mul_eq_mul_div, div_eq_div_iff hne2 hned]
  linear_combination (1 / 65536) * ((fbase : ℚ) ^ (f1.exp - f2.exp) * divisor f1 f2 * hdivq -
    dividend f1 f2 * (2 ^ quotPlaces f1 f2 * (fbase : ℚ) ^ (quotExp f1 f2 - 7)) * hdisq -
    dividend f1 f2 * divisor f1 f2 * hscale)

theorem head_le (h1 : f1.Normal) (h2 : f2.Normal) (h : val fbase f1.digits ≤ val fbase f2.digits) :
    f1.mant.headD 0 ≤ f2.mant.headD 0 := by
  obtain ⟨-, -, hv1, -, -, -, hh1⟩ := h1.mantissa
  obtain ⟨-, -, hv2, -, -, -, hh2⟩ := h2.mantissa
  rw [hh1, hh2, hv1, hv2]
  exact Nat.div_le_div_right (Nat.mul_le_mul_right _ h)

/-- The exact quotient has a digit in the first place, unless the mantissas differ behind
their first digits only and that of the dividend is less. -/
theorem first_place (h1 : f1.Normal) (h2 : f2.Normal)
    (h : f1.mant.headD 0 = f2.mant.headD 0 → val fbase f2.digits ≤ val fbase f1.digits) :
    divisor f1 f2 * fbase ^ 7 ≤ dividend f1 f2 * 2 ^ quotPlaces f1 f2 := by
  obtain ⟨n, m, hbd, hn, hm, hzero, hts, hdiv, hdis⟩ := exists_shifts h1 h2
  have hlow := h1.head
  have hhigh := val_lt h2.bounded
  rw [h2.len, mantSize_eq, show fbase ^ 8 = fbase ^ 7 * 65536 from rfl] at hhigh
  rw [quotPlaces, hbd, pow_add, show fbase ^ 7 = 2 ^ 112 by decide, Nat.mul_comm,
    Nat.mul_left_comm]
  refine Nat.mul_le_mul_left _ ?_
  split
  · obtain rfl : m = 0 := by omega
    have hle : val fbase f2.digits ≤ val fbase f1.digits := by
      by_contra hlt
      exact hlt (h (le_antisymm (head_le h1 h2 (by omega)) (hts (by omega))))
    rw [show ((n : Int) - (0 : Nat)).toNat = n by omega, hdiv]
    rw [pow_zero, Nat.mul_one] at hdis
    omega
  · obtain rfl : n = 0 := by omega
    rw [pow_zero, Nat.mul_one] at hdiv
    refine Nat.le_of_mul_le_mul_right (c := 2 ^ m) ?_ (Nat.two_pow_pos m)
    rw [Nat.mul_assoc, ← pow_add, hdis, hdiv,
      show (16 + ((0 : Nat) - (m : Int))).toNat + m = 16 by omega]
    omega

/-- What a division to the last place delivers. -/
structure Accurate (f1 f2 f : Flt) : Prop where
  normal : f1.sign ≠ 0 → f.mant.headD 0 ≠ 0
  close : |f.value - f1.value / f2.value| < 2 ^ (16 * f.exp - 112)

theorem sign_quotient {s t : Int} (hs : s = -1 ∨ s = 1) (ht : t = -1 ∨ t = 1) :
    (s / t : ℚ) = ((if s = t then 1 else -1 : Int) : ℚ) := by
  rcases hs with rfl | rfl <;> rcases ht with rfl | rfl <;> norm_num

/-- Seven and five 65536ths. -/
def sevenAndFive : Flt := ⟨7 :: 5 :: List.replicate 8 0, 1, 0⟩

end Tendra.Ref
