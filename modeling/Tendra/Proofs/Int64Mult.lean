import Mathlib.Tactic.Ring
import Tendra.Proofs.Int64Plus

/-!
# 64-bit multiplication: exact when unsigned, flags lost when signed

`TDFUmult` multiplies digit by digit on 16-bit digits. Each stage adds the
products of one weight, and each local test it makes is about one partial sum
leaving its word. The stage lemmas below say what a stage adds and when it
flags; put together they give the product modulo `2^64` and the flag set
exactly when the product does not fit, which is all `__TDFUu_mult` has to do.

`__TDFUs_mult` multiplies the absolute values and negates. Its trouble is not
arithmetic but the error variable: the negation goes through `__TDFUs_plus`,
which clears it. So for operands of opposite signs the flag the caller sees is
the one of the negation alone, set exactly when the product of the absolute
values is `2^63` modulo `2^64`; and one band of products is returned without
being negated at all.
-/

namespace Tendra.Ref

variable {b1 b0 a1 a0 : BitVec 32}

/-! ## Digits -/

theorem loU16_toNat (x : BitVec 32) : (loU16 x).toNat = x.toNat % 2 ^ 16 := by
  rw [loU16, BitVec.toNat_and]
  exact Nat.and_two_pow_sub_one_eq_mod x.toNat 16

theorem hiU16_toNat (x : BitVec 32) : (hiU16 x).toNat = x.toNat / 2 ^ 16 := by
  rw [hiU16, BitVec.toNat_ushiftRight, Nat.shiftRight_eq_div_pow]

/-- Two digits multiply without wrapping, and the product is what a digit
times a digit can be. -/
theorem digit_mul {x y : BitVec 32} (hx : x.toNat < 2 ^ 16) (hy : y.toNat < 2 ^ 16) :
    (x * y).toNat = x.toNat * y.toNat ∧ x.toNat * y.toNat ≤ 65535 * 65535 := by
  have hle : x.toNat * y.toNat ≤ 65535 * 65535 :=
    Nat.mul_le_mul (by omega) (by omega)
  refine ⟨?_, hle⟩
  rw [BitVec.toNat_mul]
  exact Nat.mod_eq_of_lt (by omega)

theorem shl16_toNat (x : BitVec 32) : (x <<< 16).toNat = x.toNat * 2 ^ 16 % 2 ^ 32 := by
  rw [BitVec.toNat_shiftLeft, Nat.shiftLeft_eq]

/-- A wrapped sum is below an operand exactly when it wrapped. -/
theorem add_lt_left_iff (x y : BitVec 32) : x + y < x ↔ 2 ^ 32 ≤ x.toNat + y.toNat := by
  have hy := y.isLt
  rw [BitVec.lt_def]
  rcases toNat_add_cases x y with ⟨h1, h2⟩ | ⟨h1, h2⟩ <;> omega

theorem add_lt_right_iff (x y : BitVec 32) : x + y < y ↔ 2 ^ 32 ≤ x.toNat + y.toNat := by
  rw [BitVec.add_comm, add_lt_left_iff, Nat.add_comm]

/-! ## The stages -/

/-- Stages 1 and 2 are exact: nothing they add can leave the two words. -/
theorem multStage2_value (ha0 : a0.toNat < 2 ^ 16) (ha1 : a1.toNat < 2 ^ 16)
    (hb0 : b0.toNat < 2 ^ 16) (hb1 : b1.toNat < 2 ^ 16) :
    (multStage2 a0 a1 b0 b1).2.toNat * 2 ^ 32 + (multStage2 a0 a1 b0 b1).1.toNat =
      a0.toNat * b0.toNat + (a1.toNat * b0.toNat + a0.toNat * b1.toNat) * 2 ^ 16 := by
  obtain ⟨h00, hb00⟩ := digit_mul ha0 hb0
  obtain ⟨h10, hb10⟩ := digit_mul ha1 hb0
  obtain ⟨h01, hb01⟩ := digit_mul ha0 hb1
  simp only [multStage2, gt_iff_lt, add_lt_left_iff, add_lt_right_iff]
  have hmid := toNat_add_cases (a1 * b0) (a0 * b1)
  rw [h10, h01] at hmid ⊢
  generalize a1 * b0 + a0 * b1 = w at hmid ⊢
  have hw := w.isLt
  have hsh : (loU16 w <<< 16).toNat = w.toNat % 2 ^ 16 * 2 ^ 16 := by
    rw [shl16_toNat, loU16_toNat]
    exact Nat.mod_eq_of_lt (by omega)
  have hlow := toNat_add_cases (a0 * b0) (loU16 w <<< 16)
  rw [hsh, h00] at hlow ⊢
  have hhi := hiU16_toNat w
  generalize a0 * b0 + loU16 w <<< 16 = lo at hlow ⊢
  generalize hiU16 w = wh at hhi ⊢
  split <;> split <;> simp only [BitVec.toNat_add, BitVec.toNat_ofNat] <;> omega

/-- Stage 3 adds its products modulo `2^32`, and flags exactly when the exact
sum leaves the word. -/
theorem multStage3_value (err : Int) (hi : BitVec 32) {a2 b2 : BitVec 32} (ha0 : a0.toNat < 2 ^ 16)
    (ha1 : a1.toNat < 2 ^ 16) (ha2 : a2.toNat < 2 ^ 16) (hb0 : b0.toNat < 2 ^ 16)
    (hb1 : b1.toNat < 2 ^ 16) (hb2 : b2.toNat < 2 ^ 16) :
    (multStage3 err hi a0 a1 a2 b0 b1 b2).1.toNat =
        (hi.toNat + (a2.toNat * b0.toNat + a1.toNat * b1.toNat + a0.toNat * b2.toNat)) % 2 ^ 32 ∧
      (multStage3 err hi a0 a1 a2 b0 b1 b2).2 =
        if 2 ^ 32 ≤ hi.toNat +
            (a2.toNat * b0.toNat + a1.toNat * b1.toNat + a0.toNat * b2.toNat)
        then overflowError else err := by
  obtain ⟨h20, hb20⟩ := digit_mul ha2 hb0
  obtain ⟨h11, hb11⟩ := digit_mul ha1 hb1
  obtain ⟨h02, hb02⟩ := digit_mul ha0 hb2
  simp only [multStage3, gt_iff_lt, add_lt_left_iff, add_lt_right_iff]
  have hfst := toNat_add_cases (a2 * b0) (a1 * b1)
  have hsnd := toNat_add_cases (a2 * b0 + a1 * b1) (a0 * b2)
  rw [h20, h11] at hfst ⊢
  rw [h02] at hsnd ⊢
  generalize a2 * b0 + a1 * b1 = w at hfst hsnd ⊢
  generalize w + a0 * b2 = v at hsnd ⊢
  have hhi := hi.isLt
  constructor
  · rw [BitVec.toNat_add]
    omega
  · split
    · rw [if_pos (by omega)]
    · split
      · rw [if_pos (by omega)]
      · split
        · rw [if_pos (by omega)]
        · rw [if_neg (by omega)]

theorem mul_ne_zero_iff {x y : BitVec 32} (hx : x.toNat < 2 ^ 16) (hy : y.toNat < 2 ^ 16) :
    x * y ≠ 0#32 ↔ x.toNat * y.toNat ≠ 0 := by
  rw [← (digit_mul hx hy).1, ne_eq, ne_eq, ← BitVec.toNat_inj]
  rfl

/-- Stage 4 adds its products at weight `2^16` of the high word, and flags
exactly when the exact sum leaves the word or a heavier product is not zero. -/
theorem multStage4_value (err : Int) (hi : BitVec 32) {a2 a3 b2 b3 : BitVec 32}
    (ha0 : a0.toNat < 2 ^ 16) (ha1 : a1.toNat < 2 ^ 16) (ha2 : a2.toNat < 2 ^ 16)
    (ha3 : a3.toNat < 2 ^ 16) (hb0 : b0.toNat < 2 ^ 16) (hb1 : b1.toNat < 2 ^ 16)
    (hb2 : b2.toNat < 2 ^ 16) (hb3 : b3.toNat < 2 ^ 16) :
    (multStage4 err hi a0 a1 a2 a3 b0 b1 b2 b3).1.toNat =
        (hi.toNat + (a3.toNat * b0.toNat + a2.toNat * b1.toNat + a1.toNat * b2.toNat +
          a0.toNat * b3.toNat) * 2 ^ 16) % 2 ^ 32 ∧
      (multStage4 err hi a0 a1 a2 a3 b0 b1 b2 b3).2 =
        if 2 ^ 32 ≤ hi.toNat + (a3.toNat * b0.toNat + a2.toNat * b1.toNat +
              a1.toNat * b2.toNat + a0.toNat * b3.toNat) * 2 ^ 16 ∨
            a3.toNat * b1.toNat ≠ 0 ∨ a2.toNat * b2.toNat ≠ 0 ∨ a1.toNat * b3.toNat ≠ 0 ∨
            a3.toNat * b2.toNat ≠ 0 ∨ a2.toNat * b3.toNat ≠ 0 ∨ a3.toNat * b3.toNat ≠ 0
        then overflowError else err := by
  obtain ⟨h30, hb30⟩ := digit_mul ha3 hb0
  obtain ⟨h21, hb21⟩ := digit_mul ha2 hb1
  obtain ⟨h12, hb12⟩ := digit_mul ha1 hb2
  obtain ⟨h03, hb03⟩ := digit_mul ha0 hb3
  have hmask : (0xffff#32).toNat = 65535 := rfl
  simp only [multStage4, mul_ne_zero_iff ha3 hb1, mul_ne_zero_iff ha2 hb2,
    mul_ne_zero_iff ha1 hb3, mul_ne_zero_iff ha3 hb2, mul_ne_zero_iff ha2 hb3,
    mul_ne_zero_iff ha3 hb3, gt_iff_lt, add_lt_right_iff]
  simp only [BitVec.lt_def, h30, h21, h12, h03, hmask]
  -- the four products summed on 32 bits, and that sum shifted
  have hsum : (a3 * b0 + a2 * b1 + a1 * b2 + a0 * b3).toNat =
      (a3.toNat * b0.toNat + a2.toNat * b1.toNat + a1.toNat * b2.toNat +
        a0.toNat * b3.toNat) % 2 ^ 32 := by
    simp only [BitVec.toNat_add, h30, h21, h12, h03]
    omega
  generalize a3 * b0 + a2 * b1 + a1 * b2 + a0 * b3 = w at hsum ⊢
  have hw := w.isLt
  have hsh := shl16_toNat w
  have hhi := hi.isLt
  generalize w <<< 16 = v at hsh ⊢
  constructor
  · rw [BitVec.toNat_add]
    omega
  · generalize a3.toNat * b1.toNat = p31
    generalize a2.toNat * b2.toNat = p22
    generalize a1.toNat * b3.toNat = p13
    generalize a3.toNat * b2.toNat = p32
    generalize a2.toNat * b3.toNat = p23
    generalize a3.toNat * b3.toNat = p33
    split
    · rw [if_pos (by omega)]
    · split
      · rw [if_pos (by omega)]
      · split
        · rw [if_pos (by omega)]
        · split
          · rw [if_pos (by omega)]
          · rw [if_neg (by omega)]

/-! ## The product -/

theorem TdfInt64.toNat_digits (x : TdfInt64) :
    x.toNat = (loU16 x.lo32).toNat + (hiU16 x.lo32).toNat * 2 ^ 16 +
      (loU16 x.hi32).toNat * 2 ^ 32 + (hiU16 x.hi32).toNat * 2 ^ 48 := by
  simp only [TdfInt64.toNat, loU16_toNat, hiU16_toNat]
  omega

theorem loU16_lt (x : BitVec 32) : (loU16 x).toNat < 2 ^ 16 := by
  rw [loU16_toNat]
  omega

theorem hiU16_lt (x : BitVec 32) : (hiU16 x).toNat < 2 ^ 16 := by
  have hx := x.isLt
  rw [hiU16_toNat]
  omega

/-- The sixteen products of a long multiplication, by weight. -/
theorem digits_mul (a0 a1 a2 a3 b0 b1 b2 b3 : Nat) :
    (a0 + a1 * 2 ^ 16 + a2 * 2 ^ 32 + a3 * 2 ^ 48) *
        (b0 + b1 * 2 ^ 16 + b2 * 2 ^ 32 + b3 * 2 ^ 48) =
      a0 * b0 + (a1 * b0 + a0 * b1) * 2 ^ 16 + (a2 * b0 + a1 * b1 + a0 * b2) * 2 ^ 32 +
        (a3 * b0 + a2 * b1 + a1 * b2 + a0 * b3) * 2 ^ 48 +
        (a3 * b1 + a2 * b2 + a1 * b3) * 2 ^ 64 + (a3 * b2 + a2 * b3) * 2 ^ 80 +
        a3 * b3 * 2 ^ 96 := by
  ring

/-- What the stages leave in the two words is the product modulo `2^64`. -/
theorem stages_value {hi lo low p2 p3 q64 q80 q96 : Nat}
    (hlow : hi * 2 ^ 32 + lo = low) (hlo : lo < 2 ^ 32) :
    ((hi + p2) % 2 ^ 32 + p3 * 2 ^ 16) % 2 ^ 32 * 2 ^ 32 + lo =
      (low + p2 * 2 ^ 32 + p3 * 2 ^ 48 + q64 * 2 ^ 64 + q80 * 2 ^ 80 + q96 * 2 ^ 96) %
        2 ^ 64 := by
  have hrhs : low + p2 * 2 ^ 32 + p3 * 2 ^ 48 + q64 * 2 ^ 64 + q80 * 2 ^ 80 + q96 * 2 ^ 96 =
      lo + 2 ^ 32 * (hi + p2 + p3 * 2 ^ 16) + (q64 + q80 * 2 ^ 16 + q96 * 2 ^ 32) * 2 ^ 64 := by
    rw [← hlow]
    ring
  rw [hrhs, Nat.add_mul_mod_self_right, Nat.mod_add_mod]
  clear hrhs hlow
  generalize hi + p2 + p3 * 2 ^ 16 = x
  omega

/-- The two flags of stages 3 and 4 together see every way the product can
leave 64 bits: out of the middle, out of the top, or in a heavier product. -/
theorem stages_overflow_iff {hi lo low p2 p3 q31 q22 q13 q32 q23 q33 : Nat}
    (hlow : hi * 2 ^ 32 + lo = low) (hlo : lo < 2 ^ 32) :
    ((2 ^ 32 ≤ (hi + p2) % 2 ^ 32 + p3 * 2 ^ 16 ∨ q31 ≠ 0 ∨ q22 ≠ 0 ∨ q13 ≠ 0 ∨ q32 ≠ 0 ∨
        q23 ≠ 0 ∨ q33 ≠ 0) ∨ 2 ^ 32 ≤ hi + p2) ↔
      2 ^ 64 ≤ low + p2 * 2 ^ 32 + p3 * 2 ^ 48 + (q31 + q22 + q13) * 2 ^ 64 +
        (q32 + q23) * 2 ^ 80 + q33 * 2 ^ 96 := by
  constructor
  · rintro ((h | h | h | h | h | h | h) | h) <;> omega
  · intro h
    by_cases hmid : 2 ^ 32 ≤ hi + p2
    · exact Or.inr hmid
    · left
      rw [Nat.mod_eq_of_lt (by omega)]
      omega

/-- `TDFUmult` is exact: the product modulo `2^64`, the error variable set
when the product does not fit and left alone otherwise. -/
theorem tdfUmult_value (err : Int) (a b : TdfInt64) :
    (tdfUmult err a b).1.toNat = a.toNat * b.toNat % 2 ^ 64 ∧
      (tdfUmult err a b).2 =
        if 2 ^ 64 ≤ a.toNat * b.toNat then overflowError else err := by
  rw [a.toNat_digits, b.toNat_digits, digits_mul]
  simp only [tdfUmult]
  have ha0 := loU16_lt a.lo32
  have ha1 := hiU16_lt a.lo32
  have ha2 := loU16_lt a.hi32
  have ha3 := hiU16_lt a.hi32
  have hb0 := loU16_lt b.lo32
  have hb1 := hiU16_lt b.lo32
  have hb2 := loU16_lt b.hi32
  have hb3 := hiU16_lt b.hi32
  generalize loU16 a.lo32 = a0 at *
  generalize hiU16 a.lo32 = a1 at *
  generalize loU16 a.hi32 = a2 at *
  generalize hiU16 a.hi32 = a3 at *
  generalize loU16 b.lo32 = b0 at *
  generalize hiU16 b.lo32 = b1 at *
  generalize loU16 b.hi32 = b2 at *
  generalize hiU16 b.hi32 = b3 at *
  split
  · next hsmall =>
      obtain ⟨rfl, rfl, rfl, rfl, rfl, rfl⟩ := hsmall
      obtain ⟨h00, hb00⟩ := digit_mul ha0 hb0
      simp only [TdfInt64.toNat, BitVec.toNat_ofNat, h00]
      constructor
      · omega
      · rw [if_neg (by omega)]
  · have hs2 := multStage2_value ha0 ha1 hb0 hb1
    obtain ⟨hs3, he3⟩ := multStage3_value err (multStage2 a0 a1 b0 b1).2
      ha0 ha1 ha2 hb0 hb1 hb2
    obtain ⟨hs4, he4⟩ := multStage4_value
      (multStage3 err (multStage2 a0 a1 b0 b1).2 a0 a1 a2 b0 b1 b2).2
      (multStage3 err (multStage2 a0 a1 b0 b1).2 a0 a1 a2 b0 b1 b2).1
      ha0 ha1 ha2 ha3 hb0 hb1 hb2 hb3
    have hlo := (multStage2 a0 a1 b0 b1).1.isLt
    rw [hs3] at hs4 he4
    constructor
    · simp only [TdfInt64.toNat]
      rw [hs4, stages_value hs2 hlo]
    · dsimp only
      rw [he4, he3, ← ite_or, if_congr (stages_overflow_iff hs2 hlo) rfl rfl]

/-- `__TDFUu_mult` is exact, flag included, at every pair of operands. -/
theorem tdfUuMult_exact (a b : TdfInt64) :
    (tdfUuMult a b).1.toNat = a.toNat * b.toNat % 2 ^ 64 ∧
      (tdfUuMult a b).2 = if 2 ^ 64 ≤ a.toNat * b.toNat then -1 else 1 :=
  tdfUmult_value clearErrors a b

/-! ## Negation and absolute value -/

theorem xor_ones_toNat (x : BitVec 32) :
    (x ^^^ 0xffffffff#32).toNat = 2 ^ 32 - 1 - x.toNat := by
  have h : x ^^^ 0xffffffff#32 = ~~~x := by
    rw [show (0xffffffff#32) = BitVec.allOnes 32 from rfl, BitVec.xor_allOnes]
  rw [h, BitVec.toNat_not]

/-- Flipping every bit of a value is `-1` minus it. -/
theorem flip_toInt (a : TdfInt64) :
    TdfInt64.toInt ⟨a.lo32 ^^^ 0xffffffff#32, a.hi32 ^^^ 0xffffffff#32⟩ = -1 - a.toInt := by
  have hl := a.lo32.isLt
  have hh := a.hi32.isLt
  have hf := TdfInt64.toInt_cases ⟨a.lo32 ^^^ 0xffffffff#32, a.hi32 ^^^ 0xffffffff#32⟩
  have ha := a.toInt_cases
  simp only [TdfInt64.toNat, xor_ones_toNat] at hf ha
  omega

theorem tdfUneg_exact (a : TdfInt64) : SignedExact (tdfUneg a) (-a.toInt) := by
  have h := tdfUsPlus_exact ⟨a.lo32 ^^^ 0xffffffff#32, a.hi32 ^^^ 0xffffffff#32⟩ const1
  have hone : const1.toInt = 1 := by decide
  rwa [flip_toInt, hone, show (-1 - a.toInt + 1) = -a.toInt by omega] at h

/-- `__TDFUabs` read unsigned is the absolute value, `-2^63` included; only
there does it leave the flag set. -/
theorem tdfUabs_value (a : TdfInt64) :
    (tdfUabs a).1.toNat = a.toInt.natAbs ∧
      (tdfUabs a).2 = if a.toInt = -2 ^ 63 then overflowError else clearErrors := by
  have hr := a.toInt_range
  by_cases hneg : a.toInt < 0
  · rw [tdfUabs, if_pos (a.isNegative_iff.2 hneg)]
    obtain ⟨hval, herr⟩ := tdfUneg_exact a
    have hlt := (tdfUneg a).1.toNat_lt
    have hcases := (tdfUneg a).1.toInt_cases
    rw [bmod_of_range (by omega) (by omega)] at hval
    constructor
    · split at hval <;> (try split at hval) <;> omega
    · rw [herr]
      split <;> split <;> first | rfl | omega
  · rw [tdfUabs, if_neg (by rw [a.isNegative_iff]; exact hneg), if_neg (by omega)]
    have hcases := a.toInt_cases
    have hlt := a.toNat_lt
    exact ⟨by simp only; omega, rfl⟩

/-! ## The signed product -/

theorem TdfInt64.hi32_neg_iff (x : TdfInt64) : x.hi32.toInt < 0 ↔ 2 ^ 63 ≤ x.toNat := by
  have hl := x.lo32.isLt
  rw [BitVec.toInt_eq_toNat_cond]
  simp only [TdfInt64.toNat]
  split <;> omega

/-- The sign that `__TDFUs_mult` computes is that of operands of opposite
signs, zero counting as positive. -/
theorem sign_iff (a b : TdfInt64) :
    (a.hi32 ^^^ b.hi32).toInt < 0 ↔ ¬(0 ≤ a.toInt ↔ 0 ≤ b.toInt) := by
  have ha : a.hi32.msb = decide (a.toInt < 0) := by
    rw [BitVec.msb_eq_toInt]
    exact decide_eq_decide.2 (by rw [← a.isNegative_iff]; simp [TdfInt64.isNegative])
  have hb : b.hi32.msb = decide (b.toInt < 0) := by
    rw [BitVec.msb_eq_toInt]
    exact decide_eq_decide.2 (by rw [← b.isNegative_iff]; simp [TdfInt64.isNegative])
  have hx : (a.hi32 ^^^ b.hi32).toInt < 0 ↔ (a.hi32 ^^^ b.hi32).msb = true := by
    rw [BitVec.msb_eq_toInt, decide_eq_true_eq]
  rw [hx, BitVec.msb_xor, ha, hb]
  by_cases h1 : a.toInt < 0 <;> by_cases h2 : b.toInt < 0 <;> simp [h1, h2] <;> omega

/-- The band of products that comes back without its sign. -/
theorem band_iff (p : TdfInt64) :
    (p.hi32 = 0x80000000#32 ∧ p.lo32 ≠ 0x00000000#32) ↔
      2 ^ 63 < p.toNat ∧ p.toNat < 2 ^ 63 + 2 ^ 32 := by
  have hl := p.lo32.isLt
  rw [← BitVec.toNat_inj, ne_eq, ← BitVec.toNat_inj]
  simp only [TdfInt64.toNat, BitVec.toNat_ofNat]
  omega

/-- Operands of one sign: the product of the absolute values is the answer,
and the flag is exact. -/
theorem tdfUsMult_same {a b : TdfInt64} (hs : 0 ≤ a.toInt ↔ 0 ≤ b.toInt) :
    SignedExact (tdfUsMult a b) (a.toInt * b.toInt) := by
  have hsign : ¬ (a.hi32 ^^^ b.hi32).toInt < 0 := by rw [sign_iff]; exact not_not.2 hs
  obtain ⟨hpv, hpe⟩ := tdfUmult_value (tdfUabs b).2 (tdfUabs a).1 (tdfUabs b).1
  rw [(tdfUabs_value a).1, (tdfUabs_value b).1] at hpv hpe
  have hprod : a.toInt * b.toInt = ((a.toInt.natAbs * b.toInt.natAbs : Nat) : Int) := by
    rw [← Int.natAbs_mul]
    refine (Int.natAbs_of_nonneg ?_).symm
    by_cases h0 : 0 ≤ a.toInt
    · exact Int.mul_nonneg h0 (hs.1 h0)
    · exact Int.mul_nonneg_of_nonpos_of_nonpos (by omega) (by omega)
  -- when `abs(b)` overflows and the signs agree, so does the product
  have hmin : b.toInt = -2 ^ 63 → 2 ^ 63 ≤ a.toInt.natAbs * b.toInt.natAbs := by
    intro hb
    have ha : 1 ≤ a.toInt.natAbs := by omega
    calc 2 ^ 63 = 1 * b.toInt.natAbs := by omega
      _ ≤ a.toInt.natAbs * b.toInt.natAbs := Nat.mul_le_mul_right _ ha
  simp only [tdfUsMult, hsign, decide_false, true_or, and_true, if_true]
  rw [hprod]
  generalize (tdfUmult (tdfUabs b).2 (tdfUabs a).1 (tdfUabs b).1) = prod at *
  rw [(tdfUabs_value b).2] at hpe
  generalize a.toInt.natAbs * b.toInt.natAbs = n at *
  simp only [SignedExact, TdfInt64.hi32_neg_iff, hpe]
  constructor
  · exact TdfInt64.toInt_of_toNat hpv
  · by_cases hfit : n < 2 ^ 63
    · rw [if_neg (by omega), if_neg (by omega), if_neg (fun hb => absurd (hmin hb) (by omega)),
        if_pos (by omega)]
    · rw [if_neg (show ¬(-2 ^ 63 ≤ (n : Int) ∧ _) by omega)]
      by_cases hbig : 2 ^ 64 ≤ n
      · rw [if_pos hbig, ite_self]
      · rw [if_pos (by omega)]

/-- Operands of opposite signs: what comes back is the negation's own verdict,
or the bare product inside the band. -/
theorem tdfUsMult_opposite {a b : TdfInt64} (hs : ¬(0 ≤ a.toInt ↔ 0 ≤ b.toInt)) :
    SignedExact (tdfUsMult a b) (a.toInt * b.toInt) ↔
      (a.toInt.natAbs * b.toInt.natAbs < 2 ^ 63 ∨
        (2 ^ 63 < a.toInt.natAbs * b.toInt.natAbs ∧
          a.toInt.natAbs * b.toInt.natAbs % 2 ^ 64 = 2 ^ 63)) := by
  have hsign : (a.hi32 ^^^ b.hi32).toInt < 0 := (sign_iff a b).2 hs
  obtain ⟨hpv, -⟩ := tdfUmult_value (tdfUabs b).2 (tdfUabs a).1 (tdfUabs b).1
  rw [(tdfUabs_value a).1, (tdfUabs_value b).1] at hpv
  have hprod : a.toInt * b.toInt = -((a.toInt.natAbs * b.toInt.natAbs : Nat) : Int) := by
    rw [← Int.natAbs_mul]
    have hle : a.toInt * b.toInt ≤ 0 := by
      by_cases h0 : 0 ≤ a.toInt
      · exact Int.mul_nonpos_of_nonneg_of_nonpos h0 (by omega)
      · exact Int.mul_nonpos_of_nonpos_of_nonneg (by omega) (by omega)
    omega
  simp only [tdfUsMult, hsign, decide_true, Bool.true_eq_false, false_or, band_iff]
  rw [hprod]
  generalize (tdfUmult (tdfUabs b).2 (tdfUabs a).1 (tdfUabs b).1) = prod at *
  generalize a.toInt.natAbs * b.toInt.natAbs = n at *
  have hmod : (-(n : Int)).bmod (2 ^ 64) = (-(prod.1.toInt)).bmod (2 ^ 64) := by
    rw [TdfInt64.toInt_of_toNat hpv, Int.bmod_neg_bmod]
  have hpt := prod.1.toInt_cases
  have hpr := prod.1.toInt_range
  split
  · next hband =>
      -- inside the band the sign is wrong
      refine iff_of_false (fun hex => ?_) (by omega)
      have hval := hex.1
      simp only at hval
      rw [hmod, bmod_of_range (by omega) (by omega)] at hval
      split at hval <;> (try split at hval) <;> omega
  · next hband =>
      obtain ⟨hnv, hne⟩ := tdfUneg_exact prod.1
      rw [SignedExact, hnv, hne, hmod]
      simp only [true_and]
      split <;> split <;>
        simp only [clearErrors_ne_overflowError, clearErrors_ne_overflowError.symm, false_iff,
          true_iff] <;>
        omega

/-- `__TDFUs_mult` is exact at `(a, b)`, value and flag, precisely when the
signs agree, or the product is above `-2^63`, or the absolute product passes
`2^63` and happens to be `2^63` modulo `2^64`. -/
theorem tdfUsMult_exact_iff (a b : TdfInt64) :
    SignedExact (tdfUsMult a b) (a.toInt * b.toInt) ↔
      ((0 ≤ a.toInt ↔ 0 ≤ b.toInt) ∨ a.toInt.natAbs * b.toInt.natAbs < 2 ^ 63 ∨
        (2 ^ 63 < a.toInt.natAbs * b.toInt.natAbs ∧
          a.toInt.natAbs * b.toInt.natAbs % 2 ^ 64 = 2 ^ 63)) := by
  by_cases hs : 0 ≤ a.toInt ↔ 0 ≤ b.toInt
  · exact iff_of_true (tdfUsMult_same hs) (Or.inl hs)
  · rw [tdfUsMult_opposite hs, or_iff_right hs]

/-- `2^62 * (-4) = -2^64`: out of range by far, and reported as fine. -/
theorem usMult_loses_overflow :
    tdfUsMult ⟨0#32, 0x40000000#32⟩ ⟨0xfffffffc#32, 0xffffffff#32⟩ =
        (⟨0#32, 0#32⟩, clearErrors) ∧
      ¬ SignedExact (tdfUsMult ⟨0#32, 0x40000000#32⟩ ⟨0xfffffffc#32, 0xffffffff#32⟩)
        (TdfInt64.toInt ⟨0#32, 0x40000000#32⟩ *
          TdfInt64.toInt ⟨0xfffffffc#32, 0xffffffff#32⟩) := by
  decide

end Tendra.Ref
