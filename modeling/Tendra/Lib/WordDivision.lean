import Mathlib.Tactic.Ring
import Tendra.Lib.Word

/-!
# Division of words

Shifts round down; a correction made from the sign lets them truncate. Masks give the
remainder of a division that rounds down, and with the sign taken away and put back the
remainder of one that truncates.
-/

namespace Tendra.Word

variable {n k : Nat}

theorem ofInt_sub (a b : Int) : BitVec.ofInt n (a - b) = BitVec.ofInt n a - BitVec.ofInt n b := by
  rw [Int.sub_eq_add_neg, BitVec.ofInt_add, BitVec.ofInt_neg, BitVec.sub_eq_add_neg]

theorem eq_ofInt (x : BitVec n) : x = BitVec.ofInt n x.toInt := BitVec.ofInt_toInt.symm

theorem toInt_of_eq {x : BitVec n} {v : Int} (hn : 0 < n) (h : x = BitVec.ofInt n v)
    (hle : -2 ^ (n - 1) ≤ v) (hlt : v < 2 ^ (n - 1)) : x.toInt = v := by
  rw [h]
  exact BitVec.toInt_ofInt_eq_self hn hle hlt

theorem toInt_bounds (hn : 0 < n) (x : BitVec n) :
    -2 ^ (n - 1) ≤ x.toInt ∧ x.toInt < 2 ^ (n - 1) := by
  have h : InRange true n x.toInt := decode_inRange hn x
  rwa [InRange, if_pos rfl] at h

theorem two_pow_le (hk : k < n) : (2 : Int) ^ k ≤ 2 ^ (n - 1) :=
  pow_le_pow_right₀ (by decide) (by omega)

/-! ## Masks -/

/-- The `k` low bits. -/
def mask (n k : Nat) : BitVec n := BitVec.ofNat n (2 ^ k - 1)

theorem getLsbD_mask {i : Nat} (hi : i < n) : (mask n k).getLsbD i = decide (i < k) := by
  rw [mask, BitVec.getLsbD_ofNat, decide_eq_true hi, Bool.true_and, Nat.testBit_two_pow_sub_one]

theorem toNat_and_mask (hk : k ≤ n) (x : BitVec n) :
    (x &&& mask n k).toNat = x.toNat % 2 ^ k := by
  have hpow := Nat.pow_le_pow_right (Nat.zero_lt_two) hk
  have hpos := Nat.two_pow_pos k
  rw [BitVec.toNat_and, mask, BitVec.toNat_ofNat, Nat.mod_eq_of_lt (by omega),
    Nat.and_two_pow_sub_one_eq_mod]

/-- A word is congruent to the integers it stands for. -/
theorem toNat_emod (sg : Bool) (hk : k ≤ n) (x : BitVec n) :
    ((x.toNat % 2 ^ k : Nat) : Int) = decode sg x % 2 ^ k := by
  cases sg
  · rw [decode_false]
    push_cast
    rfl
  · have hdvd : ((2 ^ k : Nat) : Int) ∣ ((2 ^ n : Nat) : Int) :=
      Int.natCast_dvd_natCast.2 (Nat.pow_dvd_pow 2 hk)
    have hpow : (2 : Int) ^ k = ((2 ^ k : Nat) : Int) := by push_cast; rfl
    rw [decode_true, BitVec.toInt_eq_toNat_bmod, hpow, ← Int.emod_emod_of_dvd _ hdvd,
      Int.bmod_emod, Int.emod_emod_of_dvd _ hdvd]
    exact Int.natCast_emod _ _

/-- A mask gives the remainder of a division that rounds down. -/
theorem decode_and_mask (sg : Bool) (hk : k < n) (x : BitVec n) :
    decode sg (x &&& mask n k) = decode sg x % 2 ^ k := by
  rw [← toNat_emod sg (Nat.le_of_lt hk), ← toNat_and_mask (Nat.le_of_lt hk)]
  cases sg
  · rfl
  · have hlt : (x &&& mask n k).toNat < 2 ^ k := by
      rw [toNat_and_mask (Nat.le_of_lt hk)]
      exact Nat.mod_lt _ (Nat.two_pow_pos k)
    have hpow : 2 ^ k ≤ 2 ^ (n - 1) := Nat.pow_le_pow_right Nat.zero_lt_two (by omega)
    have htwo : 2 ^ n = 2 * 2 ^ (n - 1) := by
      rw [← Nat.pow_succ', Nat.succ_eq_add_one, Nat.sub_add_cancel (by omega)]
    rw [decode_true, BitVec.toInt_eq_toNat_of_lt (by omega)]

/-! ## Truncation by shifts -/

/-- The correction of a negative word, made from two shifts. -/
def bias (x : BitVec n) (k : Nat) : BitVec n := x.sshiftRight (k - 1) >>> (n - k)

theorem bias_eq (hk : 1 ≤ k) (hkn : k < n) (x : BitVec n) :
    bias x k = if x.msb then mask n k else 0 := by
  apply BitVec.eq_of_getLsbD_eq
  intro i hi
  have hleft : (bias x k).getLsbD i = (decide (i < k) && x.msb) := by
    rw [bias, BitVec.getLsbD_ushiftRight]
    by_cases hik : i < k
    · rw [decide_eq_true hik, Bool.true_and, BitVec.getLsbD_sshiftRight,
        decide_eq_false (by omega), Bool.not_false, Bool.true_and]
      split
      · rw [BitVec.msb_eq_getLsbD_last]
        congr 1
        omega
      · rfl
    · rw [decide_eq_false hik, Bool.false_and, BitVec.getLsbD_of_ge _ _ (by omega)]
  rw [hleft]
  cases x.msb
  · rw [Bool.and_false]
    exact BitVec.getLsbD_zero.symm
  · rw [Bool.and_true, if_pos rfl, getLsbD_mask hi]

theorem bias_one (x : BitVec n) : bias x 1 = x >>> (n - 1) := by
  rw [bias, Nat.sub_self, BitVec.sshiftRight_zero]

theorem mask_eq (n k : Nat) : mask n k = BitVec.ofInt n (2 ^ k - 1) := by
  have h : (2 ^ k - 1 : Int) = ((2 ^ k - 1 : Nat) : Int) := by
    have hpos := Nat.two_pow_pos k
    push_cast [hpos]
    rfl
  rw [h, BitVec.ofInt_natCast, mask]

/-- Adding the mask to a negative word before a shift makes it truncate. -/
theorem ediv_add_mask {a : Int} (ha : a < 0) (k : Nat) :
    (a + (2 ^ k - 1)) / 2 ^ k = a.tdiv (2 ^ k) := by
  have hpos : (0 : Int) < 2 ^ k := by positivity
  have hmod := Int.emod_nonneg a hpos.ne'
  have hlt := Int.emod_lt_of_pos a hpos
  have hsplit := Int.mul_ediv_add_emod a (2 ^ k)
  rw [Int.tdiv_eq_ediv, Int.sign_eq_one_of_pos hpos]
  generalize (2 : Int) ^ k = p at *
  generalize hq : a / p = q at *
  by_cases hr : a % p = 0
  · rw [if_pos (.inr (Int.dvd_of_emod_eq_zero hr)), Int.add_zero]
    rw [show a + (p - 1) = (p - 1) + p * q by rw [← hsplit, hr]; ring,
      Int.add_mul_ediv_left _ _ hpos.ne', Int.ediv_eq_zero_of_lt (by omega) (by omega),
      Int.zero_add]
  · rw [if_neg (not_or.2 ⟨by omega, fun hd => hr (Int.emod_eq_zero_of_dvd hd)⟩)]
    rw [show a + (p - 1) = (a % p - 1) + p * (q + 1) by rw [Int.mul_add]; omega,
      Int.add_mul_ediv_left _ _ hpos.ne', Int.ediv_eq_zero_of_lt (by omega) (by omega),
      Int.zero_add]

theorem toInt_add_bias (hk : 1 ≤ k) (hkn : k < n) (x : BitVec n) :
    (x + bias x k).toInt = x.toInt + if x.toInt < 0 then 2 ^ k - 1 else 0 := by
  obtain ⟨hle, hlt⟩ := toInt_bounds (by omega) x
  have hpow := two_pow_le hkn
  have hpos : (0 : Int) < 2 ^ k := by positivity
  have hmsb : x.msb = true ↔ x.toInt < 0 := by rw [BitVec.msb_eq_toInt, decide_eq_true_eq]
  refine toInt_of_eq (by omega) ?_ (by split <;> omega) (by split <;> omega)
  rw [bias_eq hk hkn, BitVec.ofInt_add, BitVec.ofInt_toInt]
  congr 1
  by_cases h : x.toInt < 0
  · rw [if_pos (hmsb.2 h), if_pos h, mask_eq]
  · rw [if_neg (fun hm => h (hmsb.1 hm)), if_neg h]
    rfl

/-- The corrected shift truncates. -/
theorem toInt_shift_trunc (hk : 1 ≤ k) (hkn : k < n) (x : BitVec n) :
    ((x + bias x k).sshiftRight k).toInt = x.toInt.tdiv (2 ^ k) := by
  rw [BitVec.toInt_sshiftRight, Int.shiftRight_eq_div_pow, toInt_add_bias hk hkn, Nat.cast_pow,
    Nat.cast_ofNat]
  split
  · rename_i h
    exact ediv_add_mask h k
  · rename_i h
    rw [Int.add_zero, Int.tdiv_eq_ediv_of_nonneg (by omega)]

theorem tmod_bounds (x : BitVec n) (hn : 0 < n) (b : Int) :
    -2 ^ (n - 1) ≤ x.toInt.tmod b ∧ x.toInt.tmod b < 2 ^ (n - 1) := by
  obtain ⟨hle, hlt⟩ := toInt_bounds hn x
  have habs : (x.toInt.tmod b).natAbs ≤ x.toInt.natAbs := by
    rw [Int.natAbs_tmod]
    exact Nat.mod_le _ _
  rcases Int.lt_or_le x.toInt 0 with h | h
  · have hneg := Int.tmod_nonneg b (show 0 ≤ -x.toInt by omega)
    rw [Int.neg_tmod] at hneg
    omega
  · have hnonneg : 0 ≤ x.toInt.tmod b := Int.tmod_nonneg _ h
    omega

/-- The truncated quotient, multiplied back and subtracted, leaves the remainder. -/
theorem toInt_sub_trunc (hk : 1 ≤ k) (hkn : k < n) (x : BitVec n) :
    (x - (x + bias x k).sshiftRight k <<< k).toInt = x.toInt.tmod (2 ^ k) := by
  obtain ⟨hle, hlt⟩ := tmod_bounds x (by omega) (2 ^ k)
  refine toInt_of_eq (by omega) ?_ hle hlt
  rw [Int.tmod_def, eq_ofInt ((x + bias x k).sshiftRight k), toInt_shift_trunc hk hkn,
    ← ofInt_mul_two_pow, Int.mul_comm (2 ^ k), ofInt_sub, BitVec.ofInt_toInt]

/-! ## Remainders by masks -/

/-- The remainder of a word that is not positive, by the mask of its negation. -/
theorem toInt_neg_and_mask (hk : k < n) {x : BitVec n} (hx : x.toInt ≤ 0) :
    (-(-x &&& mask n k)).toInt = x.toInt.tmod (2 ^ k) := by
  have hdvd : ((2 ^ k : Nat) : Int) ∣ ((2 ^ n : Nat) : Int) :=
    Int.natCast_dvd_natCast.2 (Nat.pow_dvd_pow 2 (Nat.le_of_lt hk))
  have hpow : (2 : Int) ^ k = ((2 ^ k : Nat) : Int) := by push_cast; rfl
  have hneg : -x = BitVec.ofInt n (-x.toInt) := by rw [BitVec.ofInt_neg, BitVec.ofInt_toInt]
  have hmask : (((-x &&& mask n k).toNat : Nat) : Int) = -x.toInt % 2 ^ k := by
    rw [toNat_and_mask (Nat.le_of_lt hk), hneg, BitVec.toNat_ofInt, hpow,
      Int.natCast_emod, Int.toNat_of_nonneg (Int.emod_nonneg _ (by positivity)),
      Int.emod_emod_of_dvd _ hdvd]
  obtain ⟨hle, hlt⟩ := tmod_bounds x (by omega) (2 ^ k)
  refine toInt_of_eq (by omega) ?_ hle hlt
  rw [← Int.neg_neg x.toInt, Int.neg_tmod, Int.tmod_eq_emod_of_nonneg (by omega), ← hmask,
    BitVec.ofInt_neg, BitVec.ofInt_natCast, BitVec.ofNat_toNat, BitVec.setWidth_eq]

/-!
## Division of signed words, from the truncating instruction

A machine divides by truncation. The remainder comes from the quotient by a product and a
difference, and the quotient and the remainder of a division that rounds down come from
these by a correction where the signs differ and the division does not come out even.
-/

variable {x y : BitVec n}

/-- The one quotient that does not fit. -/
def Overflows (x y : BitVec n) : Prop := x = BitVec.intMin n ∧ y = -1

theorem toInt_sdiv (h : ¬Overflows x y) : (x.sdiv y).toInt = x.toInt.tdiv y.toInt := by
  refine BitVec.toInt_sdiv_of_ne_or_ne x y ?_
  by_contra hboth
  rw [not_or, not_not, not_not] at hboth
  exact h hboth

/-- The quotient, multiplied back and subtracted, leaves the remainder. -/
theorem sub_mul_sdiv (h : ¬Overflows x y) : x - y * x.sdiv y = x.srem y := by
  rw [eq_ofInt (x.srem y), BitVec.toInt_srem, Int.tmod_def, ofInt_sub, BitVec.ofInt_mul,
    ← toInt_sdiv h, BitVec.ofInt_toInt, BitVec.ofInt_toInt, BitVec.ofInt_toInt]

theorem sub_mul_udiv (x y : BitVec n) : x - y * (x / y) = x % y := by
  rw [BitVec.sub_eq_iff_eq_add]
  apply BitVec.eq_of_toNat_eq
  rw [BitVec.toNat_add, BitVec.toNat_mul, BitVec.toNat_umod, BitVec.toNat_udiv, Nat.add_mod_mod,
    Nat.mod_add_div, Nat.mod_eq_of_lt x.isLt]

theorem eq_zero_iff_toInt : x = 0 ↔ x.toInt = 0 := by
  rw [← BitVec.toInt_zero (w := n), BitVec.toInt_inj]
  rfl

theorem srem_eq_zero_iff : x.srem y = 0 ↔ y.toInt ∣ x.toInt := by
  rw [eq_zero_iff_toInt, BitVec.toInt_srem, Int.dvd_iff_tmod_eq_zero]

theorem msb_eq_iff : x.msb = y.msb ↔ (x.toInt < 0 ↔ y.toInt < 0) := by
  rw [BitVec.msb_eq_toInt, BitVec.msb_eq_toInt, decide_eq_decide]

/-- The correction that makes a truncated quotient round down. -/
theorem fdiv_eq (hy : y ≠ 0) : x.toInt.fdiv y.toInt =
    x.toInt.tdiv y.toInt - if x.msb = y.msb ∨ y.toInt ∣ x.toInt then 0 else 1 := by
  have hy0 : y.toInt ≠ 0 := fun h => hy (eq_zero_iff_toInt.2 h)
  have hsign : y.toInt.sign = if y.toInt < 0 then -1 else 1 := by
    split
    · exact Int.sign_eq_neg_one_of_neg ‹_›
    · exact Int.sign_eq_one_of_pos (by omega)
  rw [Int.fdiv_eq_tdiv, hsign]
  simp only [msb_eq_iff]
  by_cases hd : y.toInt ∣ x.toInt
  · simp only [hd, if_true, or_true]
  · simp only [hd, if_false, or_false]
    split_ifs <;> omega

/-- The correction that makes a remainder take the sign of the divisor. -/
theorem fmod_eq (hy : y ≠ 0) : x.toInt.fmod y.toInt =
    x.toInt.tmod y.toInt + if x.msb = y.msb ∨ y.toInt ∣ x.toInt then 0 else y.toInt := by
  rw [Int.fmod_def, Int.tmod_def, fdiv_eq hy, Int.mul_sub]
  split
  · omega
  · omega

/-- The quotient less one is a word if the division does not come out even. -/
theorem toInt_sdiv_sub_one (hn : 0 < n) (hy : y ≠ 0) (h : ¬Overflows x y)
    (hd : ¬y.toInt ∣ x.toInt) : (x.sdiv y + -1).toInt = x.toInt.tdiv y.toInt - 1 := by
  have hy0 : y.toInt ≠ 0 := fun h0 => hy (eq_zero_iff_toInt.2 h0)
  have hy1 : y.toInt.natAbs ≠ 1 := fun h1 => hd (Int.natAbs_dvd.1 (by rw [h1]; exact one_dvd _))
  obtain ⟨hle, hlt⟩ := toInt_bounds hn x
  have hx0 : x.toInt ≠ 0 := fun h0 => hd (h0 ▸ Int.dvd_zero _)
  have habs : (x.toInt.tdiv y.toInt).natAbs < x.toInt.natAbs := by
    rw [Int.natAbs_tdiv]
    exact Nat.div_lt_self (by omega) (by omega)
  refine toInt_of_eq hn ?_ (by omega) (by omega)
  rw [ofInt_sub, ← toInt_sdiv h, BitVec.ofInt_toInt, BitVec.sub_eq_add_neg]
  rfl

/-- A quotient that is corrected by a test is right if the test says whether the division comes
out even, where it is looked at. -/
theorem toInt_fix_iff (hn : 0 < n) (hy : y ≠ 0) (h : ¬Overflows x y) (test : Prop)
    [Decidable test] :
    (if x.msb = y.msb then x.sdiv y else if test then x.sdiv y else x.sdiv y + -1).toInt =
      x.toInt.fdiv y.toInt ↔ (x.msb ≠ y.msb → (test ↔ y.toInt ∣ x.toInt)) := by
  rw [fdiv_eq hy]
  by_cases hmsb : x.msb = y.msb
  · simp [hmsb, toInt_sdiv h]
  simp only [hmsb, if_false, false_or, ne_eq, not_false_eq_true, true_imp_iff]
  by_cases htest : test
  · by_cases hd : y.toInt ∣ x.toInt
    · simp [htest, hd, toInt_sdiv h]
    · simp only [htest, hd, if_true, if_false, toInt_sdiv h, iff_false, not_true_eq_false]
      omega
  · by_cases hd : y.toInt ∣ x.toInt
    · simp only [htest, hd, if_true, if_false, Int.sub_zero, ← toInt_sdiv h, BitVec.toInt_inj,
        iff_true, iff_false]
      intro heq
      have hone : (-1 : BitVec n) = 0 := by
        have := congrArg (fun z => z - x.sdiv y) heq
        simpa [BitVec.add_comm (x.sdiv y), BitVec.add_sub_cancel] using this
      have htwo : 2 ≤ 2 ^ n := Nat.le_self_pow (by omega) 2
      have hnat : (-1#n).toNat = (0#n).toNat := congrArg BitVec.toNat hone
      rw [BitVec.neg_one_eq_allOnes, BitVec.toNat_allOnes, BitVec.toNat_ofNat, Nat.zero_mod] at hnat
      omega
    · simp only [htest, hd, if_false, toInt_sdiv_sub_one hn hy h hd]

/-- The remainder and the divisor have a sum that is a word where their signs differ. -/
theorem toInt_srem_add (hn : 0 < n) (hy : y ≠ 0) (hmsb : x.msb ≠ y.msb) :
    (x.srem y + y).toInt = x.toInt.tmod y.toInt + y.toInt := by
  have hy0 : y.toInt ≠ 0 := fun h0 => hy (eq_zero_iff_toInt.2 h0)
  have hsign : ¬(x.toInt < 0 ↔ y.toInt < 0) := fun h => hmsb (msb_eq_iff.2 h)
  obtain ⟨hle, hlt⟩ := toInt_bounds hn y
  have habs : (x.toInt.tmod y.toInt).natAbs < y.toInt.natAbs := by
    rw [Int.natAbs_tmod]
    exact Nat.mod_lt _ (by omega)
  have hbounds : (0 ≤ x.toInt → 0 ≤ x.toInt.tmod y.toInt) ∧
      (x.toInt ≤ 0 → x.toInt.tmod y.toInt ≤ 0) := by
    refine ⟨Int.tmod_nonneg _, fun hx => ?_⟩
    have hneg := Int.tmod_nonneg y.toInt (show 0 ≤ -x.toInt by omega)
    rw [Int.neg_tmod] at hneg
    omega
  refine toInt_of_eq hn ?_ (by omega) (by omega)
  rw [BitVec.ofInt_add, ← BitVec.toInt_srem, BitVec.ofInt_toInt, BitVec.ofInt_toInt]

/-- A remainder that is corrected is right if it is not lost before the correction and the divisor
is not lost when it is added. -/
theorem toInt_fixRem_iff (hn : 0 < n) (hy : y ≠ 0) (lost doubled : Prop) [Decidable lost]
    [Decidable doubled] :
    (let m := if lost then 0 else x.srem y
      if x.msb = y.msb then m else if m = 0 then m else m + if doubled then m else y).toInt =
      x.toInt.fmod y.toInt ↔
    (lost → y.toInt ∣ x.toInt) ∧ (doubled → x.msb ≠ y.msb → y.toInt ∣ x.toInt) := by
  have hy0 : y.toInt ≠ 0 := fun h => hy (eq_zero_iff_toInt.2 h)
  rw [fmod_eq hy, ← BitVec.toInt_srem]
  by_cases hd : y.toInt ∣ x.toInt
  · have hzero : x.srem y = 0 := srem_eq_zero_iff.2 hd
    simp [hd, hzero]
  have hzero : x.srem y ≠ 0 := fun h => hd (srem_eq_zero_iff.1 h)
  by_cases hlost : lost
  · -- nothing is left of the remainder
    have hne : ¬x.toInt.fmod y.toInt = 0 := fun h => hd (Int.dvd_of_fmod_eq_zero h)
    rw [fmod_eq hy, ← BitVec.toInt_srem] at hne
    simp only [hlost, if_true, ite_self, true_imp_iff, hd, false_and, iff_false]
    rw [if_congr (or_congr Iff.rfl (iff_false_intro hd)) rfl rfl] at hne
    exact fun h => hne (h.symm.trans BitVec.toInt_zero)
  by_cases hmsb : x.msb = y.msb
  · simp [hlost, hmsb]
  simp only [hlost, hmsb, hd, hzero, or_self, if_false, true_and, ne_eq, not_false_eq_true,
    imp_false, not_true_eq_false]
  by_cases hdoubled : doubled
  · simp only [hdoubled, if_true, not_true_eq_false, iff_false]
    intro h
    rw [BitVec.toInt_srem, ← toInt_srem_add hn hy hmsb, BitVec.toInt_inj] at h
    have hself : (x.srem y).toInt = y.toInt :=
      congrArg BitVec.toInt ((BitVec.add_right_inj (x.srem y)).1 h)
    have habs : (x.toInt.tmod y.toInt).natAbs < y.toInt.natAbs := by
      rw [Int.natAbs_tmod]
      exact Nat.mod_lt _ (by omega)
    rw [BitVec.toInt_srem] at hself
    omega
  · simp only [hdoubled, if_false, not_false_eq_true, iff_true]
    rw [BitVec.toInt_srem, toInt_srem_add hn hy hmsb]

theorem ofInt_eq_zero_iff {v : Int} (hv : v.natAbs < 2 ^ n) : BitVec.ofInt n v = 0 ↔ v = 0 := by
  constructor
  · intro h
    have hnat : (v % ((2 ^ n : Nat) : Int)).toNat = 0 := by
      rw [← BitVec.toNat_ofInt, h]
      rfl
    have hnonneg := Int.emod_nonneg v (b := ((2 ^ n : Nat) : Int)) (by positivity)
    have hzero : v % ((2 ^ n : Nat) : Int) = 0 := by
      rw [← Int.toNat_of_nonneg hnonneg, hnat]
      rfl
    refine Int.eq_zero_of_dvd_of_natAbs_lt_natAbs (Int.dvd_of_emod_eq_zero hzero) ?_
    rwa [Int.natAbs_natCast]
  · rintro rfl
    exact BitVec.ofInt_natCast n 0

/-- The quotient is its own product with the divisor only if it is zero or the divisor is one,
where the signs differ. -/
theorem sdiv_sub_mul_eq_zero_iff (hn : 0 < n) (hy : y ≠ 0) (h : ¬Overflows x y)
    (hmsb : x.msb ≠ y.msb) :
    x.sdiv y - y * x.sdiv y = 0 ↔ x.toInt.natAbs < y.toInt.natAbs ∨ y.toInt = 1 := by
  have hy0 : y.toInt ≠ 0 := fun h0 => hy (eq_zero_iff_toInt.2 h0)
  have hsign : ¬(x.toInt < 0 ↔ y.toInt < 0) := fun h => hmsb (msb_eq_iff.2 h)
  obtain ⟨hle, hlt⟩ := toInt_bounds hn x
  have htwo : 2 ^ n = 2 * 2 ^ (n - 1) := by
    rw [← Nat.pow_succ', Nat.succ_eq_add_one, Nat.sub_add_cancel (by omega)]
  have hpow : ((2 ^ (n - 1) : Nat) : Int) = 2 ^ (n - 1) := by push_cast; rfl
  rw [eq_ofInt (x.sdiv y), toInt_sdiv h]
  nth_rewrite 2 [eq_ofInt y]
  rw [← BitVec.ofInt_mul, ← ofInt_sub]
  have hmul : (x.toInt.tdiv y.toInt).natAbs * y.toInt.natAbs ≤ x.toInt.natAbs := by
    rw [Int.natAbs_tdiv]
    exact Nat.div_mul_le_self _ _
  have hquot : (x.toInt.tdiv y.toInt).natAbs = 0 ↔ x.toInt.natAbs < y.toInt.natAbs := by
    rw [Int.natAbs_tdiv]
    exact Nat.div_eq_zero_iff_lt (by omega)
  have hself : (x.toInt.tdiv y.toInt).natAbs ≤
      (x.toInt.tdiv y.toInt).natAbs * y.toInt.natAbs := Nat.le_mul_of_pos_right _ (by omega)
  have hneg : x.toInt.tdiv y.toInt ≤ 0 := by
    rcases Int.lt_or_le x.toInt 0 with hx | hx
    · have hquo := Int.tdiv_nonneg (show 0 ≤ -x.toInt by omega) (show 0 ≤ y.toInt by omega)
      rw [Int.neg_tdiv] at hquo
      omega
    · have hquo := Int.tdiv_nonneg hx (show 0 ≤ -y.toInt by omega)
      rw [Int.tdiv_neg] at hquo
      omega
  rw [← hquot]
  clear hquot
  generalize x.toInt.tdiv y.toInt = q at *
  obtain ⟨a, rfl⟩ : ∃ a : Nat, q = -a := ⟨q.natAbs, by omega⟩
  rw [Int.natAbs_neg, Int.natAbs_natCast] at *
  have hzero : -(a : Int) - y.toInt * -a = 0 ↔ a = 0 ∨ y.toInt = 1 := by
    rw [show -(a : Int) - y.toInt * -a = a * (y.toInt - 1) by ring, mul_eq_zero]
    omega
  rw [ofInt_eq_zero_iff, hzero]
  rcases Int.lt_or_le y.toInt 0 with hy | hy
  · obtain ⟨b, hb⟩ : ∃ b : Nat, y.toInt = -b := ⟨y.toInt.natAbs, by omega⟩
    have hv : -(a : Int) - y.toInt * -a = -((a + a * b : Nat) : Int) := by
      rw [hb]
      push_cast
      ring
    rw [hb, Int.natAbs_neg, Int.natAbs_natCast] at hmul hself
    rw [hv, Int.natAbs_neg, Int.natAbs_natCast]
    omega
  · obtain ⟨b, hb⟩ : ∃ b : Nat, y.toInt = b := ⟨y.toInt.natAbs, by omega⟩
    have hv : -(a : Int) - y.toInt * -a = ((a * b : Nat) : Int) - a := by
      rw [hb]
      push_cast
      ring
    rw [hb, Int.natAbs_natCast] at hmul hself
    rw [hv]
    omega

end Tendra.Word
