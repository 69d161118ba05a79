import Mathlib.Algebra.Order.Field.Power
import Mathlib.Data.Nat.Size
import Tendra.Lib.Ieee
import Tendra.Proofs.FltExact
import Tendra.Ref.Ieee

/-!
# Conversion to IEEE words

The four words `sig1` to `sig4` are one number of 128 bits. Shifting a digit in
multiplies it and adds the digit, as long as nothing leaves the top, so that in
the end it is the mantissa without its last bits; shifting down for a subnormal
number divides it. The two divisions together are the truncation to the grid of
the format.

The exponent is computed in an `int`. The exponent of a `flt` may be so large
that sixteen times it leaves the `int`, and then a number far above the range is
taken for one inside it.
-/

namespace Tendra.Ref

open Tendra.Digits Tendra.Ieee

variable {f : Flt} {p : Nat} {E : BitVec 32}

/-! ## The bits of the first digit -/

/-- The mask after `k` turns meets the digit in its bits from `k` on. -/
theorem mask_and {c : Nat} (hc : c < 2 ^ 16) (k : Nat) :
    (2 ^ 16 - 1) * 2 ^ k &&& c = c / 2 ^ k * 2 ^ k := by
  apply Nat.eq_of_testBit_eq
  intro i
  rw [Nat.testBit_and, Nat.testBit_mul_two_pow, Nat.testBit_mul_two_pow,
    Nat.testBit_two_pow_sub_one, Nat.testBit_div_two_pow]
  by_cases hki : k ≤ i
  · rw [show i - k + k = i by omega]
    by_cases hi : i < 16
    · simp [hki, show i - k < 16 by omega]
    · have hbit : c.testBit i = false :=
        Nat.testBit_lt_two_pow (lt_of_lt_of_le hc (Nat.pow_le_pow_right (by decide) (by omega)))
      simp [hbit]
  · simp [hki]

theorem ndig_eq_size {c : Nat} (hc : c < 2 ^ 16) (fuel : Nat) :
    ∀ k, k ≤ 16 → 17 ≤ fuel + k → ndig fuel ((2 ^ 16 - 1) * 2 ^ k) c = c.size - k := by
  induction fuel with
  | zero =>
      intro k h1 h2
      omega
  | succ fuel ih =>
      intro k hk hfuel
      rw [ndig, mask_and hc]
      by_cases hlt : c < 2 ^ k
      · have hsize : c.size ≤ k := Nat.size_le.2 hlt
        rw [Nat.div_eq_of_lt hlt, Nat.zero_mul, if_neg (not_not.2 rfl)]
        omega
      · have hsize : k < c.size := Nat.lt_size.2 (by omega)
        have hk16 : k < 16 := by
          by_contra h
          have : 2 ^ 16 ≤ 2 ^ k := Nat.pow_le_pow_right (by decide) (by omega)
          omega
        have hne : c / 2 ^ k * 2 ^ k ≠ 0 := by
          have h1 : 0 < c / 2 ^ k := Nat.div_pos (by omega) (Nat.two_pow_pos k)
          exact Nat.mul_ne_zero (by omega) (Nat.two_pow_pos k).ne'
        have hnext : (2 ^ 16 - 1) * 2 ^ k * 2 % 2 ^ 32 = (2 ^ 16 - 1) * 2 ^ (k + 1) := by
          rw [Nat.mul_assoc, ← pow_succ]
          refine Nat.mod_eq_of_lt ?_
          have : 2 ^ (k + 1) ≤ 2 ^ 16 := Nat.pow_le_pow_right (by decide) (by omega)
          omega
        rw [if_pos hne, hnext, ih (k + 1) (by omega) (by omega)]
        omega

theorem ndig0_eq_size {c : Nat} (hc : c < 65536) : ndig0 c = c.size := by
  have h := ndig_eq_size hc 32 0 (by decide) (by decide)
  rwa [pow_zero, Nat.mul_one, Nat.sub_zero] at h

/-! ## The four words -/

/-- The four words as one number. -/
def Sig.val (s : Sig) : Nat :=
  s.s1.toNat + s.s2.toNat * 2 ^ 32 + s.s3.toNat * 2 ^ 64 + s.s4.toNat * 2 ^ 96

/-- A word shifted up, with what comes in from the one below. -/
theorem word_shl {i c : Nat} (hi : i ≤ 32) (x : BitVec 32) {y : BitVec 32} (hc : y.toNat = c)
    (hlow : c < 2 ^ i) :
    (x <<< i + y).toNat + x.toNat / 2 ^ (32 - i) * 2 ^ 32 = x.toNat * 2 ^ i + c := by
  have hpow : 2 ^ 32 = 2 ^ (32 - i) * 2 ^ i := by
    rw [← pow_add, Nat.sub_add_cancel hi]
  have hrest : x.toNat * 2 ^ i % 2 ^ 32 = x.toNat % 2 ^ (32 - i) * 2 ^ i := by
    rw [hpow, Nat.mul_mod_mul_right]
  have hmod := Nat.div_add_mod x.toNat (2 ^ (32 - i))
  have hr : x.toNat % 2 ^ (32 - i) + 1 ≤ 2 ^ (32 - i) := Nat.mod_lt _ (Nat.two_pow_pos _)
  have hfit : x.toNat % 2 ^ (32 - i) * 2 ^ i + c < 2 ^ 32 := by
    calc x.toNat % 2 ^ (32 - i) * 2 ^ i + c < x.toNat % 2 ^ (32 - i) * 2 ^ i + 2 ^ i := by omega
      _ = (x.toNat % 2 ^ (32 - i) + 1) * 2 ^ i := by ring
      _ ≤ 2 ^ (32 - i) * 2 ^ i := Nat.mul_le_mul_right _ hr
      _ = 2 ^ 32 := hpow.symm
  rw [BitVec.toNat_add, BitVec.toNat_shiftLeft, Nat.shiftLeft_eq, hc, hrest,
    Nat.mod_eq_of_lt hfit]
  have hx : x.toNat * 2 ^ i =
      (2 ^ (32 - i) * (x.toNat / 2 ^ (32 - i)) + x.toNat % 2 ^ (32 - i)) * 2 ^ i := by rw [hmod]
  rw [hx, hpow]
  ring

theorem word_carry {i : Nat} (hi : i ≤ 32) (x : BitVec 32) : x.toNat / 2 ^ (32 - i) < 2 ^ i := by
  refine Nat.div_lt_of_lt_mul ?_
  rw [← pow_add, Nat.sub_add_cancel hi]
  exact x.isLt

/-- Shifting up, when nothing leaves the top. -/
theorem Sig.val_shl {s : Sig} {i : Nat} {low : BitVec 32} (hi : i ≤ 32) (hlow : low.toNat < 2 ^ i)
    (hfit : s.val * 2 ^ i < 2 ^ 128) : (s.shl i low).val = s.val * 2 ^ i + low.toNat := by
  have hsh : ∀ x : BitVec 32, (x >>> (32 - i)).toNat = x.toNat / 2 ^ (32 - i) := by
    intro x
    rw [BitVec.toNat_ushiftRight, Nat.shiftRight_eq_div_pow]
  have h1 := word_shl hi s.s1 rfl hlow
  have h2 := word_shl hi s.s2 (hsh s.s1) (word_carry hi s.s1)
  have h3 := word_shl hi s.s3 (hsh s.s2) (word_carry hi s.s2)
  have h4 := word_shl hi s.s4 (hsh s.s3) (word_carry hi s.s3)
  have htop := word_shl (c := 0) (y := 0#32) hi s.s4 rfl (Nat.two_pow_pos i)
  simp only [Sig.val, Sig.shl, Nat.add_mul] at hfit ⊢
  generalize s.s1.toNat / 2 ^ (32 - i) = c1 at h1 h2 ⊢
  generalize s.s2.toNat / 2 ^ (32 - i) = c2 at h2 h3 ⊢
  generalize s.s3.toNat / 2 ^ (32 - i) = c3 at h3 h4 ⊢
  generalize s.s4.toNat / 2 ^ (32 - i) = c4 at h4 htop ⊢
  rw [Nat.mul_right_comm s.s2.toNat, Nat.mul_right_comm s.s3.toNat,
    Nat.mul_right_comm s.s4.toNat] at hfit ⊢
  generalize s.s1.toNat * 2 ^ i = p1 at *
  generalize s.s2.toNat * 2 ^ i = p2 at *
  generalize s.s3.toNat * 2 ^ i = p3 at *
  generalize s.s4.toNat * 2 ^ i = p4 at *
  omega

/-- A word shifted down, with the bits of the one above. -/
theorem word_shr (hp : p ≤ 32) (x y : BitVec 32) :
    (x >>> p + y <<< (32 - p)).toNat * 2 ^ p + x.toNat % 2 ^ p =
      x.toNat + y.toNat % 2 ^ p * 2 ^ 32 := by
  have hpow : 2 ^ 32 = 2 ^ p * 2 ^ (32 - p) := by
    rw [← pow_add, Nat.add_sub_cancel' hp]
  have hrest : y.toNat * 2 ^ (32 - p) % 2 ^ 32 = y.toNat % 2 ^ p * 2 ^ (32 - p) := by
    rw [hpow, Nat.mul_mod_mul_right]
  have hx : x.toNat / 2 ^ p < 2 ^ (32 - p) := by
    refine Nat.div_lt_of_lt_mul ?_
    rw [← hpow]
    exact x.isLt
  have hy : y.toNat % 2 ^ p + 1 ≤ 2 ^ p := Nat.mod_lt _ (Nat.two_pow_pos _)
  have hfit : x.toNat / 2 ^ p + y.toNat % 2 ^ p * 2 ^ (32 - p) < 2 ^ 32 := by
    calc x.toNat / 2 ^ p + y.toNat % 2 ^ p * 2 ^ (32 - p)
        < 2 ^ (32 - p) + y.toNat % 2 ^ p * 2 ^ (32 - p) := by omega
      _ = (y.toNat % 2 ^ p + 1) * 2 ^ (32 - p) := by ring
      _ ≤ 2 ^ p * 2 ^ (32 - p) := Nat.mul_le_mul_right _ hy
      _ = 2 ^ 32 := hpow.symm
  have hdm := Nat.div_add_mod x.toNat (2 ^ p)
  rw [BitVec.toNat_add, BitVec.toNat_shiftLeft, BitVec.toNat_ushiftRight, Nat.shiftLeft_eq,
    Nat.shiftRight_eq_div_pow, hrest, Nat.mod_eq_of_lt hfit]
  have hsplit : x.toNat + y.toNat % 2 ^ p * 2 ^ 32 =
      2 ^ p * (x.toNat / 2 ^ p) + x.toNat % 2 ^ p + y.toNat % 2 ^ p * 2 ^ 32 := by rw [hdm]
  rw [hsplit, hpow]
  ring

theorem Sig.val_shr {s : Sig} (hp : p ≤ 32) : (s.shr p).val = s.val / 2 ^ p := by
  have h1 := word_shr hp s.s1 s.s2
  have h2 := word_shr hp s.s2 s.s3
  have h3 := word_shr hp s.s3 s.s4
  have h4 := Nat.div_add_mod s.s4.toNat (2 ^ p)
  have hlt : s.s1.toNat % 2 ^ p < 2 ^ p := Nat.mod_lt _ (Nat.two_pow_pos p)
  have key : (s.shr p).val * 2 ^ p + s.s1.toNat % 2 ^ p = s.val := by
    simp only [Sig.val, Sig.shr, Nat.add_mul, BitVec.toNat_ushiftRight, Nat.shiftRight_eq_div_pow]
    rw [Nat.mul_right_comm _ (2 ^ 32), Nat.mul_right_comm _ (2 ^ 64), Nat.mul_right_comm _ (2 ^ 96),
      Nat.mul_comm (s.s4.toNat / 2 ^ p)]
    generalize (s.s1 >>> p + s.s2 <<< (32 - p)).toNat * 2 ^ p = q1 at *
    generalize (s.s2 >>> p + s.s3 <<< (32 - p)).toNat * 2 ^ p = q2 at *
    generalize (s.s3 >>> p + s.s4 <<< (32 - p)).toNat * 2 ^ p = q3 at *
    generalize 2 ^ p * (s.s4.toNat / 2 ^ p) = q4 at *
    omega
  rw [← key, Nat.mul_comm, Nat.mul_add_div (Nat.two_pow_pos p), Nat.div_eq_of_lt hlt, Nat.add_zero]

theorem Sig.val_dropWords (n : Nat) : ∀ s : Sig, (s.dropWords n).val = s.val / 2 ^ (32 * n) := by
  induction n with
  | zero =>
      intro s
      rw [Nat.mul_zero, pow_zero, Nat.div_one]
      rfl
  | succ n ih =>
      intro s
      have h1 := s.s1.isLt
      have hstep : (Sig.mk s.s2 s.s3 s.s4 0).val = s.val / 2 ^ 32 := by
        simp only [Sig.val, show (0 : BitVec 32).toNat = 0 from rfl]
        omega
      rw [Sig.dropWords, ih, hstep, Nat.div_div_eq_div_mul, ← pow_add,
        show 32 + 32 * n = 32 * (n + 1) by ring]

theorem Sig.val_denormalise (s : Sig) (places : Nat) :
    (s.denormalise places).val = s.val / 2 ^ places := by
  have hdm : 32 * (places / 32) + places % 32 = places := Nat.div_add_mod places 32
  have hlt : places % 32 < 32 := Nat.mod_lt _ (by decide)
  unfold Sig.denormalise
  dsimp only
  split
  · rw [Sig.val_shr (by omega), Sig.val_dropWords, Nat.div_div_eq_div_mul, ← pow_add, hdm]
  · next h =>
      rw [Sig.val_dropWords]
      congr 2
      omega

/-! ## The mantissa -/

/-- A `flt` as the functions of the emulator leave it: the mantissa is normalised,
unless the number is zero, and the exponent is in the range of the header and of
the `int` that holds it. -/
structure Flt.Legal (f : Flt) : Prop where
  len : f.mant.length = 10
  bounded : Bounded fbase f.mant
  sign : f.sign = -1 ∨ f.sign = 0 ∨ f.sign = 1
  normal : f.sign ≠ 0 → f.mant.headD 0 ≠ 0
  range : eMin ≤ f.exp ∧ f.exp ≤ eMax ∧ f.exp < 2 ^ 31

/-- The value of a `flt`: the point is behind the first digit. -/
def Flt.value (f : Flt) : ℚ := f.sign * (val fbase f.digits * 2 ^ (16 * f.exp - 112))

theorem fbase_eq : fbase = 2 ^ 16 := rfl

theorem packDigits_val {mant : List Nat} (hb : Bounded fbase mant) (turns : Nat) :
    ∀ (s : Sig) (k : Nat), k + turns ≤ mant.length → k + turns ≤ 8 →
      s.val = val fbase (mant.take k) →
      ∃ s', packDigits mant turns s k = .ok (s', k + turns) ∧
        s'.val = val fbase (mant.take (k + turns)) := by
  induction turns with
  | zero =>
      intro s k _ _ hs
      exact ⟨s, rfl, hs⟩
  | succ turns ih =>
      intro s k hlen h8 hs
      have hk : k < mant.length := by omega
      have hd : mant.getD k 0 < 2 ^ 16 := hb.getD fbase_pos k
      have hget : mant[k]? = some (mant.getD k 0) := by
        rw [List.getElem?_eq_getElem hk, List.getD_eq_getElem _ _ hk]
      have hlow : (BitVec.ofNat 32 (mant.getD k 0)).toNat = mant.getD k 0 := by
        rw [BitVec.toNat_ofNat]
        exact Nat.mod_eq_of_lt (by omega)
      have hfit : s.val * 2 ^ 16 < 2 ^ 128 := by
        have h1 := val_lt (hb.take k)
        have h2 : (mant.take k).length = k := by
          rw [List.length_take]
          omega
        rw [h2, ← hs] at h1
        calc s.val * 2 ^ 16 < fbase ^ k * 2 ^ 16 := Nat.mul_lt_mul_of_pos_right h1 (by decide)
          _ = 2 ^ (16 * k + 16) := by rw [fbase_eq, ← pow_mul, ← pow_add]
          _ ≤ 2 ^ 128 := Nat.pow_le_pow_right (by decide) (by omega)
      have hval : (s.shl 16 (BitVec.ofNat 32 (mant.getD k 0))).val =
          val fbase (mant.take (k + 1)) := by
        rw [Sig.val_shl (by decide) (by rw [hlow]; exact hd) hfit, hlow, val_take_succ hk, hs,
          fbase_eq]
      obtain ⟨s', hrun, hres⟩ := ih _ (k + 1) (by omega) (by omega) hval
      refine ⟨s', ?_, by rw [hres, Nat.add_right_comm, Nat.add_assoc]⟩
      rw [packDigits, hget]
      dsimp only
      rw [hrun, Nat.add_right_comm, Nat.add_assoc]

/-- The first digits of a mantissa. -/
theorem val_take_digits (h : f.Legal) {k : Nat} (hk : k ≤ 8) :
    val fbase (f.mant.take k) = val fbase f.digits / 2 ^ (16 * (8 - k)) := by
  have hlen : f.digits.length = 8 := by
    rw [Flt.digits, List.length_take, h.len]
    rfl
  have hb : Bounded fbase f.digits := h.bounded.take _
  have htake : f.mant.take k = f.digits.take k := by
    rw [Flt.digits, List.take_take, Nat.min_eq_left hk]
  have hpow : fbase ^ (8 - k) = 2 ^ (16 * (8 - k)) := by rw [fbase_eq, ← pow_mul]
  rw [htake, val_take hb (by omega), hlen, hpow]

/-- The words are the mantissa without its last bits. -/
theorem packMant_val (h : f.Legal) {n : Nat} (hn : 1 ≤ n) (hnp : n ≤ p) (hp : p ≤ 53) :
    ∃ s, packMant f.mant p n = .ok s ∧
      s.val = val fbase f.digits / 2 ^ (112 + n - p) := by
  have hlen := h.len
  have hstart : (Sig.mk (BitVec.ofNat 32 (f.mant.headD 0)) 0 0 0).val =
      val fbase (f.mant.take 1) := by
    have hlt : f.mant.headD 0 < 65536 := headD_lt fbase_pos h.bounded
    have hone : f.mant.take 1 = [f.mant.headD 0] := by
      match hm : f.mant with
      | [] => rw [hm] at hlen; exact absurd hlen (by decide)
      | d :: ds => rfl
    rw [hone, val_one, Sig.val, BitVec.toNat_ofNat, Nat.mod_eq_of_lt (by omega)]
    simp
  have hdm : 16 * ((p - n) / 16) + (p - n) % 16 = p - n := Nat.div_add_mod (p - n) 16
  have hi16 : (p - n) % 16 < 16 := Nat.mod_lt _ (by decide)
  unfold packMant
  generalize (p - n) / 16 = t at hdm ⊢
  generalize (p - n) % 16 = i at hdm hi16 ⊢
  obtain ⟨s, hrun, hs⟩ := packDigits_val h.bounded t _ 1 (by omega) (by omega) hstart
  rw [hrun]
  dsimp only [bind, Except.bind, pure, Except.pure]
  by_cases hi : i = 0
  · refine ⟨s, by rw [if_neg (not_not.2 hi)], ?_⟩
    rw [hs, val_take_digits h (by omega), show 112 + n - p = 16 * (8 - (1 + t)) by omega]
  · have hk : 1 + t < f.mant.length := by omega
    have hd : f.mant.getD (1 + t) 0 < 2 ^ 16 := h.bounded.getD fbase_pos (1 + t)
    have hget : f.mant[1 + t]? = some (f.mant.getD (1 + t) 0) := by
      rw [List.getElem?_eq_getElem hk, List.getD_eq_getElem _ _ hk]
    have hnext := val_take_digits h (show 1 + t + 1 ≤ 8 by omega)
    rw [val_take_succ hk, ← hs] at hnext
    generalize f.mant.getD (1 + t) 0 = d at hd hget hnext
    have hlow : (BitVec.ofNat 32 d >>> (16 - i)).toNat = d / 2 ^ (16 - i) := by
      rw [BitVec.toNat_ushiftRight, BitVec.toNat_ofNat, Nat.shiftRight_eq_div_pow,
        Nat.mod_eq_of_lt (by omega)]
    have hpow : 2 ^ 16 = 2 ^ (16 - i) * 2 ^ i := by
      rw [← pow_add, Nat.sub_add_cancel (by omega)]
    have hlowlt : d / 2 ^ (16 - i) < 2 ^ i := Nat.div_lt_of_lt_mul (by rw [← hpow]; exact hd)
    have hfit : s.val * 2 ^ i < 2 ^ 128 := by
      have h1 := val_lt (h.bounded.take (1 + t))
      rw [← hs, List.length_take, Nat.min_eq_left (by omega)] at h1
      calc s.val * 2 ^ i < fbase ^ (1 + t) * 2 ^ i :=
            Nat.mul_lt_mul_of_pos_right h1 (Nat.two_pow_pos i)
        _ = 2 ^ (16 * (1 + t) + i) := by rw [fbase_eq, ← pow_mul, ← pow_add]
        _ ≤ 2 ^ 128 := Nat.pow_le_pow_right (by decide) (by omega)
    refine ⟨s.shl i (BitVec.ofNat 32 d >>> (16 - i)), by rw [if_pos hi, hget], ?_⟩
    rw [Sig.val_shl (by omega) (by rw [hlow]; exact hlowlt) hfit, hlow]
    have hshift : 112 + n - p = 16 * (8 - (1 + t + 1)) + (16 - i) := by omega
    rw [hshift, pow_add, ← Nat.div_div_eq_div_mul, ← hnext, fbase_eq, hpow,
      Nat.mul_left_comm, Nat.mul_add_div (Nat.two_pow_pos _)]

/-- The mantissa lies between the powers of two that the bits of its first digit
give. -/
theorem mant_bounds (h : f.Legal) (hs : f.sign ≠ 0) :
    1 ≤ ndig0 (f.mant.headD 0) ∧ ndig0 (f.mant.headD 0) ≤ 16 ∧
      2 ^ (ndig0 (f.mant.headD 0) + 111) ≤ val fbase f.digits ∧
      val fbase f.digits < 2 ^ (ndig0 (f.mant.headD 0) + 112) := by
  have hlt : f.mant.headD 0 < 65536 := headD_lt fbase_pos h.bounded
  have hne := h.normal hs
  have hhead : f.mant.headD 0 = val fbase f.digits / 2 ^ 112 := by
    have hlen := h.len
    have hone : f.mant.take 1 = [f.mant.headD 0] := by
      match hm : f.mant with
      | [] => rw [hm] at hlen; exact absurd hlen (by decide)
      | d :: ds => rfl
    rw [← val_one (B := fbase) (f.mant.headD 0), ← hone, val_take_digits h (by decide)]
  rw [ndig0_eq_size hlt]
  generalize f.mant.headD 0 = d at hlt hne hhead ⊢
  have hsize : 1 ≤ d.size := Nat.size_pos.2 (by omega)
  have hle : d.size ≤ 16 := Nat.size_le.2 hlt
  have hlow : 2 ^ (d.size - 1) ≤ d := Nat.lt_size.1 (by omega)
  have hhigh : d < 2 ^ d.size := Nat.lt_size_self d
  refine ⟨hsize, hle, ?_, ?_⟩
  · calc 2 ^ (d.size + 111) = 2 ^ (d.size - 1) * 2 ^ 112 := by
          rw [← pow_add]
          congr 1
          omega
      _ ≤ d * 2 ^ 112 := Nat.mul_le_mul_right _ hlow
      _ ≤ val fbase f.digits := by
          rw [hhead]
          exact Nat.div_mul_le_self ..
  · rw [pow_add]
    exact (Nat.div_lt_iff_lt_mul (Nat.two_pow_pos 112)).1 (by rw [← hhead]; exact hhigh)

/-! ## The words -/

/-- The two values of `sw` that have the same format on every target. -/
def swOf (wide : Bool) : FloatSw := if wide then .double else .single

/-- Their format. -/
def formatOf (wide : Bool) : Format := if wide then Ieee.double else Ieee.single

/-- The word that `real2longs_IEEE` has made. -/
def R2l.word (r : R2l) (wide : Bool) : Nat :=
  if wide then r.i2.toNat * 2 ^ 32 + r.i1.toNat else r.i1.toNat

theorem ieeeFmt_swOf (ldoubleBits : Nat) (wide : Bool) :
    ieeeFmt ldoubleBits (swOf wide) =
      ⟨(formatOf wide).bias, (formatOf wide).ebits, (formatOf wide).precision⟩ := by
  cases wide <;> rfl

theorem tooBig_word (ld : Ldouble) (neg wide : Bool) :
    (tooBig ld neg (swOf wide)).word wide =
      pack (formatOf wide) neg (2 ^ (formatOf wide).ebits - 1) 0 := by
  cases ld <;> cases wide <;> cases neg <;> decide

theorem zero_word (wide : Bool) : (R2l.mk 0 0 0 0).word wide = pack (formatOf wide) false 0 0 := by
  cases wide <;> decide

theorem signBit_toNat (neg : Bool) :
    (if neg then 0x80000000#32 else 0#32).toNat = (if neg then 1 else 0) * 2 ^ 31 := by
  cases neg <;> rfl

theorem assemble_single (ld : Ldouble) (neg : Bool) (s : Sig) (hE : E.toNat < 2 ^ 8) :
    (assemble ld neg E s .single).i1.toNat = pack Ieee.single neg E.toNat (s.val % 2 ^ 23) := by
  have hfrac : (s.s1 &&& 0x007fffff).toNat = s.val % 2 ^ 23 := by
    rw [BitVec.toNat_and, show (0x007fffff : BitVec 32).toNat = 2 ^ 23 - 1 from rfl,
      Nat.and_two_pow_sub_one_eq_mod, Sig.val]
    omega
  have hexp : (E <<< 23).toNat = E.toNat * 2 ^ 23 := by
    rw [BitVec.toNat_shiftLeft, Nat.shiftLeft_eq]
    exact Nat.mod_eq_of_lt (by omega)
  have hlt : s.val % 2 ^ 23 < 2 ^ 23 := Nat.mod_lt _ (by decide)
  simp only [assemble, pack, Ieee.single, BitVec.toNat_add, signBit_toNat, hexp, hfrac]
  generalize s.val % 2 ^ 23 = m at hlt ⊢
  cases neg <;> simp only [Bool.false_eq_true, if_true, if_false] <;> omega

theorem assemble_double (ld : Ldouble) (neg : Bool) (s : Sig) (hE : E.toNat < 2 ^ 11) :
    (assemble ld neg E s .double).i2.toNat * 2 ^ 32 + (assemble ld neg E s .double).i1.toNat =
      pack Ieee.double neg E.toNat (s.val % 2 ^ 52) := by
  have hfrac : (s.s2 &&& 0xfffff).toNat = s.s2.toNat % 2 ^ 20 := by
    rw [BitVec.toNat_and, show (0xfffff : BitVec 32).toNat = 2 ^ 20 - 1 from rfl,
      Nat.and_two_pow_sub_one_eq_mod]
  have hexp : (E <<< 20).toNat = E.toNat * 2 ^ 20 := by
    rw [BitVec.toNat_shiftLeft, Nat.shiftLeft_eq]
    exact Nat.mod_eq_of_lt (by omega)
  have hval : s.val % 2 ^ 52 = s.s2.toNat % 2 ^ 20 * 2 ^ 32 + s.s1.toNat := by
    have h1 := s.s1.isLt
    rw [Sig.val]
    omega
  have hlt : s.s2.toNat % 2 ^ 20 < 2 ^ 20 := Nat.mod_lt _ (by decide)
  simp only [assemble, pack, Ieee.double, BitVec.toNat_add, signBit_toNat, hexp, hfrac, hval]
  generalize s.s2.toNat % 2 ^ 20 = m at hlt ⊢
  cases neg <;> simp only [Bool.false_eq_true, if_true, if_false] <;> omega

/-- The assembled word has the fields it was given. -/
theorem assemble_word (ld : Ldouble) (neg wide : Bool) (s : Sig)
    (hE : E.toNat < 2 ^ (formatOf wide).ebits) :
    (assemble ld neg E s (swOf wide)).word wide =
      pack (formatOf wide) neg E.toNat (s.val % 2 ^ (formatOf wide).fbits) := by
  cases wide with
  | false => exact assemble_single ld neg s hE
  | true => exact assemble_double ld neg s hE

/-! ## What the words stand for -/

/-- The exponent that `real2longs_IEEE` computes. -/
def exptOf (f : Flt) : Int := cint (16 * f.exp + ndig0 (f.mant.headD 0) - 1)

theorem exptOf_eq (f : Flt) :
    cint (cint (ndig0 (f.mant.headD 0) + cint (f.exp * 16)) - 1) = exptOf f := by
  have h : ((2 : Int) ^ 32) = ((2 ^ 32 : Nat) : Int) := rfl
  simp only [exptOf, cint]
  rw [Int.add_bmod_bmod, Int.sub_bmod, Int.bmod_bmod, ← Int.sub_bmod]
  congr 1
  ring

/-- What the function makes of the mantissa `V`, with `n` bits in its first digit,
and the exponent `x`. -/
def encoding (F : Format) (neg : Bool) (V n : Nat) (x : Int) : Datum :=
  let S := V / 2 ^ (112 + n - F.precision)
  if x < 1 - F.bias - F.precision then .finite 0
  else if F.bias < x then .inf neg
  else if x < 1 - F.bias then
    .finite (signed neg ((S / 2 ^ (1 - F.bias - x).toNat : Nat) * F.grid))
  else .finite (signed neg (S * 2 ^ (x - F.fbits)))

/-- The first `p` bits of the mantissa, the first of them set. -/
theorem sig_bounds {V n : Nat} (hlo : 2 ^ (n + 111) ≤ V) (hhi : V < 2 ^ (n + 112)) (hp : 1 ≤ p)
    (hpn : p ≤ 112 + n) : 2 ^ (p - 1) ≤ V / 2 ^ (112 + n - p) ∧ V / 2 ^ (112 + n - p) < 2 ^ p := by
  constructor
  · refine (Nat.le_div_iff_mul_le (Nat.two_pow_pos _)).2 ?_
    rw [← pow_add, show p - 1 + (112 + n - p) = n + 111 by omega]
    exact hlo
  · refine (Nat.div_lt_iff_lt_mul (Nat.two_pow_pos _)).2 ?_
    rw [← pow_add, show p + (112 + n - p) = n + 112 by omega]
    exact hhi

/-- The facts about the two formats that the proofs use. -/
theorem formatOf_facts (wide : Bool) :
    1 ≤ (formatOf wide).ebits ∧ (formatOf wide).precision = (formatOf wide).fbits + 1 ∧
      17 ≤ (formatOf wide).precision ∧ (formatOf wide).precision ≤ 53 ∧
      2 ^ (formatOf wide).ebits = 2 * (formatOf wide).bias + 2 ∧ (formatOf wide).bias ≤ 1023 ∧
      2 ^ ((formatOf wide).ebits + 1) = 4 * (formatOf wide).bias + 4 := by
  cases wide <;> decide

theorem real2longs_datum (ld : Ldouble) (ldoubleBits : Nat) (h : f.Legal) (hs : f.sign ≠ 0)
    (wide : Bool) :
    ∃ r, real2longsIEEE false ld ldoubleBits f (swOf wide) = .ok r ∧
      decode (formatOf wide) (r.word wide) =
        encoding (formatOf wide) (f.sign = -1) (val fbase f.digits) (ndig0 (f.mant.headD 0))
          (exptOf f) := by
  obtain ⟨hn1, hn16, hlo, hhi⟩ := mant_bounds h hs
  obtain ⟨heb, hprec, hp17, hp53, hbias, hb1023, hmask⟩ := formatOf_facts wide
  obtain ⟨s, hpack, hsval⟩ := packMant_val h hn1 (show _ ≤ (formatOf wide).precision by omega) hp53
  obtain ⟨hS1, hS2⟩ := sig_bounds hlo hhi (show 1 ≤ (formatOf wide).precision by omega) (by omega)
  rw [← hsval] at hS1 hS2
  unfold real2longsIEEE encoding
  rw [ieeeFmt_swOf]
  dsimp only [bind, Except.bind, pure, Except.pure]
  rw [if_neg hs, exptOf_eq, hpack, ← hsval]
  dsimp only
  generalize exptOf f = x
  by_cases hlow : x < 1 - (formatOf wide).bias - (formatOf wide).precision
  · refine ⟨⟨0, 0, 0, 0⟩, by rw [if_pos hlow], ?_⟩
    rw [if_pos hlow, zero_word, decode_pack_subnormal heb (Nat.two_pow_pos _)]
    simp [signed]
  rw [if_neg hlow, if_neg hlow]
  by_cases hbig : (formatOf wide).bias < x
  · refine ⟨tooBig ld (f.sign = -1) (swOf wide), by rw [if_pos hbig]; rfl, ?_⟩
    rw [if_pos hbig, tooBig_word, decode_pack_inf]
  rw [if_neg hbig, if_neg hbig]
  by_cases hsub : x < 1 - (formatOf wide).bias
  · refine ⟨_, by rw [if_pos (show x + _ < 1 by omega)], ?_⟩
    rw [if_pos hsub, assemble_word ld _ wide _ (by simp), Sig.val_denormalise,
      show (1 - (x + (formatOf wide).bias)).toNat = (1 - (formatOf wide).bias - x).toNat by omega]
    have hplaces : 1 ≤ (1 - ((formatOf wide).bias : Int) - x).toNat := by omega
    generalize (1 - ((formatOf wide).bias : Int) - x).toNat = places at hplaces ⊢
    have hfit : s.val / 2 ^ places < 2 ^ (formatOf wide).fbits := by
      refine (Nat.div_lt_iff_lt_mul (Nat.two_pow_pos _)).2 (lt_of_lt_of_le hS2 ?_)
      rw [← pow_add]
      exact Nat.pow_le_pow_right (by decide) (by omega)
    rw [Nat.mod_eq_of_lt hfit, show (0 : BitVec 32).toNat = 0 from rfl,
      decode_pack_subnormal heb hfit]
  · refine ⟨_, by rw [if_neg (show ¬ x + _ < 1 by omega)], ?_⟩
    have hE : (BitVec.ofInt 32 (x + (formatOf wide).bias) &&&
        BitVec.ofNat 32 (2 ^ ((formatOf wide).ebits + 1) - 1)).toNat =
          (x + (formatOf wide).bias).toNat := by
      obtain ⟨k, hk⟩ : ∃ k : Nat, x + (formatOf wide).bias = k :=
        ⟨_, (Int.toNat_of_nonneg (by omega)).symm⟩
      rw [hk, BitVec.ofInt_natCast, BitVec.toNat_and, BitVec.toNat_ofNat, BitVec.toNat_ofNat,
        Nat.mod_eq_of_lt (show k < 2 ^ 32 by omega),
        Nat.mod_eq_of_lt (show 2 ^ ((formatOf wide).ebits + 1) - 1 < 2 ^ 32 by omega),
        Nat.and_two_pow_sub_one_eq_mod, Nat.mod_eq_of_lt (by omega)]
      rfl
    rw [if_neg hsub, assemble_word ld _ wide _ (by rw [hE]; omega), hE,
      decode_pack_normal (by omega) (by omega) (Nat.mod_lt _ (Nat.two_pow_pos _))]
    -- the hidden bit is the first one of the significand
    have hhidden : 2 ^ (formatOf wide).fbits + s.val % 2 ^ (formatOf wide).fbits = s.val := by
      rw [hprec, Nat.add_sub_cancel] at hS1
      rw [hprec, pow_succ] at hS2
      have hdiv : s.val / 2 ^ (formatOf wide).fbits = 1 :=
        Nat.div_eq_of_lt_le (by omega) (by omega)
      have := Nat.div_add_mod s.val (2 ^ (formatOf wide).fbits)
      rw [hdiv] at this
      omega
    have hcast : ((2 : ℚ) ^ (formatOf wide).fbits + (s.val % 2 ^ (formatOf wide).fbits : Nat)) =
        s.val := by exact_mod_cast congrArg (Nat.cast (R := ℚ)) hhidden
    rw [hcast, show ((x + (formatOf wide).bias).toNat : Int) - (formatOf wide).bias -
      (formatOf wide).fbits = x - (formatOf wide).fbits by omega]

/-! ## Exactness -/

/-- What an encoding `d` of `f` owes. A number in the normal range that has no
more bits than the format is encoded exactly; one in the subnormal range is
truncated to the grid; one above the range becomes an infinity. -/
def Encodes (F : Format) (f : Flt) (d : Datum) : Prop :=
  (f.sign = 0 → d = .finite 0) ∧
    ∀ e : Int, 2 ^ e ≤ |f.value| → |f.value| < 2 ^ (e + 1) →
      (1 - F.bias ≤ e → e ≤ F.bias → (∃ m : Int, f.value = m * 2 ^ (e - F.fbits)) →
        d = .finite f.value) ∧
      (e < 1 - F.bias → d = .finite (truncTo F.grid f.value)) ∧
      (F.bias < e → d = .inf (f.sign = -1))

section Value

variable (h : f.Legal) (hs : f.sign ≠ 0)
include h hs

theorem value_eq :
    f.value = signed (f.sign = -1) (val fbase f.digits * 2 ^ (16 * f.exp - 112)) := by
  rcases h.sign with h1 | h1 | h1
  · simp [Flt.value, signed, h1]
  · exact absurd h1 hs
  · simp [Flt.value, signed, h1]

theorem abs_value : |f.value| = val fbase f.digits * 2 ^ (16 * f.exp - 112) := by
  have hpos : (0 : ℚ) ≤ val fbase f.digits * 2 ^ (16 * f.exp - 112) := by positivity
  rw [value_eq h hs, signed]
  split
  · rw [abs_neg, abs_of_nonneg hpos]
  · rw [abs_of_nonneg hpos]

/-- The binary exponent of `f`. -/
theorem value_bounds :
    (2 : ℚ) ^ (16 * f.exp + ndig0 (f.mant.headD 0) - 1) ≤ |f.value| ∧
      |f.value| < 2 ^ (16 * f.exp + ndig0 (f.mant.headD 0)) := by
  obtain ⟨-, -, hlo, hhi⟩ := mant_bounds h hs
  have hlo' : (2 : ℚ) ^ (ndig0 (f.mant.headD 0) + 111) ≤ val fbase f.digits := by
    exact_mod_cast hlo
  have hhi' : (val fbase f.digits : ℚ) < 2 ^ (ndig0 (f.mant.headD 0) + 112) := by
    exact_mod_cast hhi
  have hpos : (0 : ℚ) < 2 ^ (16 * f.exp - 112) := by positivity
  rw [abs_value h hs]
  constructor
  · calc (2 : ℚ) ^ (16 * f.exp + ndig0 (f.mant.headD 0) - 1)
        = 2 ^ (ndig0 (f.mant.headD 0) + 111) * 2 ^ (16 * f.exp - 112) := by
          rw [← zpow_natCast, ← zpow_add₀ two_ne_zero]
          congr 1
          push_cast
          ring
      _ ≤ val fbase f.digits * 2 ^ (16 * f.exp - 112) := by gcongr
  · calc (val fbase f.digits : ℚ) * 2 ^ (16 * f.exp - 112)
        < 2 ^ (ndig0 (f.mant.headD 0) + 112) * 2 ^ (16 * f.exp - 112) := by gcongr
      _ = 2 ^ (16 * f.exp + ndig0 (f.mant.headD 0)) := by
          rw [← zpow_natCast, ← zpow_add₀ two_ne_zero]
          congr 1
          push_cast
          ring

theorem expt_unique {e : Int} (h1 : (2 : ℚ) ^ e ≤ |f.value|) (h2 : |f.value| < 2 ^ (e + 1)) :
    e = 16 * f.exp + ndig0 (f.mant.headD 0) - 1 := by
  obtain ⟨h3, h4⟩ := value_bounds h hs
  have hup := (zpow_lt_zpow_iff_right₀ (one_lt_two (α := ℚ))).1 (lt_of_le_of_lt h1 h4)
  have hdown := (zpow_lt_zpow_iff_right₀ (one_lt_two (α := ℚ))).1 (lt_of_le_of_lt h3 h2)
  omega

/-- A number of at most `p` bits is its first `p` bits. -/
theorem sig_exact (hp : p ≤ 112 + ndig0 (f.mant.headD 0))
    (hm : ∃ m : Int, f.value = m * 2 ^ (16 * f.exp + ndig0 (f.mant.headD 0) - p)) :
    ((val fbase f.digits / 2 ^ (112 + ndig0 (f.mant.headD 0) - p) : Nat) : ℚ) *
      2 ^ (16 * f.exp + ndig0 (f.mant.headD 0) - p) = |f.value| := by
  obtain ⟨m, hm⟩ := hm
  have habs := abs_value h hs
  generalize ndig0 (f.mant.headD 0) = n at *
  generalize val fbase f.digits = V at *
  have hscale : (2 : ℚ) ^ (16 * f.exp + n - p) =
      2 ^ (112 + n - p) * 2 ^ (16 * f.exp - 112) := by
    rw [← zpow_natCast, ← zpow_add₀ two_ne_zero]
    congr 1
    omega
  have hpos : (0 : ℚ) < 2 ^ (16 * f.exp - 112) := by positivity
  have hV : V = m.natAbs * 2 ^ (112 + n - p) := by
    have hm' : |f.value| = (m.natAbs : ℚ) * 2 ^ (16 * f.exp + n - p) := by
      have h2 : (0 : ℚ) < 2 ^ (16 * f.exp + n - p) := by positivity
      rw [hm, abs_mul, abs_of_pos h2, Nat.cast_natAbs, Int.cast_abs]
    rw [habs, hscale, ← mul_assoc] at hm'
    have := mul_right_cancel₀ hpos.ne' hm'
    exact_mod_cast this
  rw [habs, hscale, hV, Nat.mul_div_cancel _ (Nat.two_pow_pos _), ← mul_assoc]
  push_cast
  rfl

/-- Division by a power of two is truncation to the grid. -/
theorem trunc_eq {T : Nat} {u : ℚ}
    (hT : (2 : ℚ) ^ (16 * f.exp - 112) * 2 ^ T = u) :
    truncTo u f.value = signed (f.sign = -1) ((val fbase f.digits / 2 ^ T : Nat) * u) := by
  have hpos : (0 : ℚ) < 2 ^ (16 * f.exp - 112) := by positivity
  have hV : 0 < val fbase f.digits := by
    obtain ⟨-, -, hlo, -⟩ := mant_bounds h hs
    exact lt_of_lt_of_le (Nat.two_pow_pos _) hlo
  have hvpos : (0 : ℚ) < val fbase f.digits * 2 ^ (16 * f.exp - 112) := by positivity
  have hfloor : ⌊(val fbase f.digits : ℚ) * 2 ^ (16 * f.exp - 112) / u⌋ =
      ((val fbase f.digits / 2 ^ T : Nat) : Int) := by
    have hquot : (val fbase f.digits : ℚ) * 2 ^ (16 * f.exp - 112) / u =
        ((val fbase f.digits : Nat) : ℚ) / ((2 ^ T : Nat) : ℚ) := by
      rw [← hT]
      push_cast
      field_simp
    rw [hquot, Rat.floor_natCast_div_natCast]
    rfl
  rw [value_eq h hs, truncTo, signed, signed]
  split
  · rw [if_pos (by linarith), neg_neg, hfloor]
    push_cast
    rfl
  · rw [if_neg (by linarith), hfloor]
    push_cast
    rfl

/-- An encoding made with the true exponent. -/
theorem encodes_of_expt (wide : Bool) (hx : exptOf f = 16 * f.exp + ndig0 (f.mant.headD 0) - 1) :
    Encodes (formatOf wide) f (encoding (formatOf wide) (f.sign = -1) (val fbase f.digits)
      (ndig0 (f.mant.headD 0)) (exptOf f)) := by
  obtain ⟨hn1, hn16, hlo, hhi⟩ := mant_bounds h hs
  obtain ⟨-, hprec, hp17, hp53, -, -, -⟩ := formatOf_facts wide
  refine ⟨fun h0 => absurd h0 hs, ?_⟩
  intro e h1 h2
  have he := expt_unique h hs h1 h2
  rw [hx, ← he]
  unfold encoding
  dsimp only
  refine ⟨fun hlow hhigh hm => ?_, fun hsub => ?_, fun hbig => ?_⟩
  · have hexp : e - (formatOf wide).fbits =
        16 * f.exp + ndig0 (f.mant.headD 0) - (formatOf wide).precision := by
      rw [hprec, he]
      push_cast
      ring
    rw [hexp] at hm
    rw [if_neg (by omega), if_neg (by omega), if_neg (by omega), hexp,
      sig_exact h hs (by omega) hm, abs_value h hs, ← value_eq h hs]
  · have hgrid : ∀ T : Nat, (T : Int) = 114 - (formatOf wide).precision - 16 * f.exp -
        (formatOf wide).bias →
        (2 : ℚ) ^ (16 * f.exp - 112) * 2 ^ T = (formatOf wide).grid := by
      intro T hT
      rw [Format.grid, ← zpow_natCast, ← zpow_add₀ two_ne_zero, hT, hprec]
      congr 1
      push_cast
      ring
    obtain ⟨T, hT⟩ : ∃ T : Nat, (T : Int) = 114 - (formatOf wide).precision - 16 * f.exp -
        (formatOf wide).bias := ⟨_, Int.toNat_of_nonneg (by omega)⟩
    rw [trunc_eq h hs (hgrid T hT)]
    by_cases hlow : e < 1 - (formatOf wide).bias - (formatOf wide).precision
    · have hzero : val fbase f.digits / 2 ^ T = 0 :=
        Nat.div_eq_of_lt (lt_of_lt_of_le hhi (Nat.pow_le_pow_right (by decide) (by omega)))
      rw [if_pos hlow, hzero]
      simp [signed]
    · rw [if_neg hlow, if_neg (by omega), if_pos hsub, Nat.div_div_eq_div_mul, ← pow_add,
        show 112 + ndig0 (f.mant.headD 0) - (formatOf wide).precision +
          (1 - ((formatOf wide).bias : Int) - e).toNat = T by omega]
  · rw [if_neg (by omega), if_pos hbig]

end Value

/-- An exponent whose sixteenfold fits an `int` is computed as it is. -/
theorem exptOf_small (h : f.Legal) (hs : f.sign ≠ 0) (hexp : f.exp < 2 ^ 27) :
    exptOf f = 16 * f.exp + ndig0 (f.mant.headD 0) - 1 := by
  obtain ⟨hn1, hn16, -, -⟩ := mant_bounds h hs
  have hmin := h.range.1
  rw [eMin] at hmin
  rw [exptOf, cint]
  generalize ndig0 (f.mant.headD 0) = n at *
  refine Int.bmod_eq_of_le ?_ ?_ <;> omega

/-- Far above the range only an infinity will do. -/
theorem encodes_far_iff (h : f.Legal) (hs : f.sign ≠ 0) (hexp : 2 ^ 27 ≤ f.exp) (wide : Bool)
    (d : Datum) : Encodes (formatOf wide) f d ↔ d = .inf (f.sign = -1) := by
  obtain ⟨hn1, -, -, -⟩ := mant_bounds h hs
  obtain ⟨-, -, -, -, -, hb, -⟩ := formatOf_facts wide
  obtain ⟨h1, h2⟩ := value_bounds h hs
  constructor
  · intro henc
    refine ((henc.2 (16 * f.exp + ndig0 (f.mant.headD 0) - 1) h1 ?_).2.2) (by omega)
    rwa [Int.sub_add_cancel]
  · intro hd
    refine ⟨fun h0 => absurd h0 hs, fun e h3 h4 => ?_⟩
    have he := expt_unique h hs h3 h4
    exact ⟨fun _ hle => absurd hle (by omega), fun hlt => absurd hlt (by omega), fun _ => hd⟩

/-- An encoding is an infinity only above the range. -/
theorem encoding_inf_iff (F : Format) (neg : Bool) (V n : Nat) (x : Int) :
    encoding F neg V n x = .inf neg ↔
      ¬ x < 1 - F.bias - F.precision ∧ F.bias < x := by
  unfold encoding
  dsimp only
  split
  · next h => simp [h]
  · split
    · next h1 h2 => simp [h1, h2]
    · split
      · next h2 _ => simp [h2]
      · next h2 _ => simp [h2]

/-- The encoding of a number other than zero. -/
theorem encodes_iff (h : f.Legal) (hs : f.sign ≠ 0) (wide : Bool) :
    Encodes (formatOf wide) f (encoding (formatOf wide) (f.sign = -1) (val fbase f.digits)
        (ndig0 (f.mant.headD 0)) (exptOf f)) ↔
      f.exp < 2 ^ 27 ∨ (formatOf wide).bias < exptOf f := by
  by_cases hexp : f.exp < 2 ^ 27
  · exact iff_of_true (encodes_of_expt h hs wide (exptOf_small h hs hexp)) (Or.inl hexp)
  · rw [encodes_far_iff h hs (by omega), encoding_inf_iff, or_iff_right hexp]
    constructor
    · exact And.right
    · intro hbig
      exact ⟨by omega, hbig⟩

theorem exptOf_eq_size (h : f.Legal) :
    exptOf f = (16 * f.exp + (f.mant.headD 0).size - 1).bmod (2 ^ 32) := by
  have hlt : f.mant.headD 0 < 65536 := headD_lt fbase_pos h.bounded
  rw [exptOf, cint, ndig0_eq_size hlt]

/-- `real2longs_IEEE` encodes `f` exactly, in either format, precisely when `f` is
zero, or sixteen times its exponent fits an `int`, or the exponent that is left
after wrapping is still above the range. -/
theorem real2longsIEEE_exact_iff (ld : Ldouble) (ldoubleBits : Nat) (f : Flt) (h : f.Legal)
    (wide : Bool) :
    (∃ r, real2longsIEEE false ld ldoubleBits f (swOf wide) = .ok r ∧
        Encodes (formatOf wide) f (decode (formatOf wide) (r.word wide))) ↔
      f.sign = 0 ∨ f.exp < 2 ^ 27 ∨
        (formatOf wide).bias < (16 * f.exp + (f.mant.headD 0).size - 1).bmod (2 ^ 32) := by
  by_cases hs : f.sign = 0
  · refine iff_of_true ⟨⟨0, 0, 0, 0⟩, ?_, ?_⟩ (Or.inl hs)
    · unfold real2longsIEEE
      dsimp only [bind, Except.bind, pure, Except.pure]
      rw [if_pos hs]
    · obtain ⟨heb, -⟩ := formatOf_facts wide
      have hval : f.value = 0 := by rw [Flt.value, hs, Int.cast_zero, zero_mul]
      refine ⟨fun _ => ?_, fun e h1 _ => ?_⟩
      · rw [zero_word, decode_pack_subnormal heb (Nat.two_pow_pos _)]
        simp [signed]
      · rw [hval, abs_zero] at h1
        exact absurd h1 (not_le.2 (by positivity))
  · obtain ⟨r, hrun, hr⟩ := real2longs_datum ld ldoubleBits h hs wide
    rw [or_iff_right hs, ← exptOf_eq_size h, ← encodes_iff h hs wide, ← hr, hrun]
    constructor
    · rintro ⟨r', hr', henc⟩
      rwa [← Except.ok.inj hr'] at henc
    · intro henc
      exact ⟨r, rfl, henc⟩

/-- The number `65536 ^ e`. -/
def fbasePower (e : Int) : Flt := ⟨1 :: List.replicate 9 0, 1, e⟩

theorem fbasePower_legal {e : Int} (h0 : 0 ≤ e) (h : e < 2 ^ 31) : (fbasePower e).Legal where
  len := rfl
  bounded := bounded_cons.2 ⟨by decide, bounded_replicate_zero fbase_pos 9⟩
  sign := Or.inr (Or.inr rfl)
  normal := fun _ => one_ne_zero
  range := by
    simp only [fbasePower, eMin, eMax]
    omega

/-- The number one, as a double. -/
theorem real2longsIEEE_exact_one :
    (fbasePower 0).Legal ∧
      ∃ r, real2longsIEEE false .x86 64 (fbasePower 0) (swOf true) = .ok r ∧
        Encodes (formatOf true) (fbasePower 0) (decode (formatOf true) (r.word true)) :=
  have h : (fbasePower 0).Legal := fbasePower_legal (by decide) (by decide)
  ⟨h, (real2longsIEEE_exact_iff .x86 64 (fbasePower 0) h true).2 (Or.inr (Or.inl (by decide)))⟩

/-- `65536 ^ (2 ^ 28)`: sixteen times the exponent is zero in an `int`, and the
number is encoded as one. -/
theorem real2longsIEEE_wraps :
    (fbasePower (2 ^ 28)).Legal ∧
      real2longsIEEE false .x86 64 (fbasePower (2 ^ 28)) (swOf false) =
        .ok ⟨0x3f800000, 0, 0, 0⟩ ∧
      ¬ ∃ r, real2longsIEEE false .x86 64 (fbasePower (2 ^ 28)) (swOf false) = .ok r ∧
        Encodes (formatOf false) (fbasePower (2 ^ 28))
        (decode (formatOf false) (r.word false)) := by
  have h : (fbasePower (2 ^ 28)).Legal := fbasePower_legal (by decide) (by decide)
  have hs : (fbasePower (2 ^ 28)).sign ≠ 0 := by decide
  have hrun : real2longsIEEE false .x86 64 (fbasePower (2 ^ 28)) (swOf false) =
      .ok ⟨0x3f800000, 0, 0, 0⟩ := by decide
  refine ⟨h, hrun, ?_⟩
  rintro ⟨r, hr, henc⟩
  obtain ⟨r', hr', hdatum⟩ := real2longs_datum .x86 64 h hs false
  rw [hr] at hr'
  rw [Except.ok.inj hr', hdatum, encodes_iff h hs] at henc
  exact absurd henc (by decide)

end Tendra.Ref
