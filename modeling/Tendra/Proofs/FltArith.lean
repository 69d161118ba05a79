import Mathlib.Tactic.LinearCombination
import Mathlib.Tactic.NormNum
import Tendra.Lib.Rounding
import Tendra.Proofs.Ieee

/-!
# Products and sums are rounded to the nearest number

A product fills the double mantissa exactly, and so does a sum whose operands
overlap. What is dropped of a smaller operand does not reach the digit that
decides the rounding, except where a difference loses its first digit.
-/

namespace Tendra.Ref

open Tendra.Digits Tendra.Rounding

variable {f : Flt} {mant : List Nat}

theorem fbase_cast_pos : (0 : ℚ) < (fbase : ℚ) := by exact_mod_cast fbase_pos

theorem fbase_ne_zero : (fbase : ℚ) ≠ 0 := fbase_cast_pos.ne'

/-- Sixteen binary places are one digit. -/
theorem two_zpow_eq (e : Int) : (2 : ℚ) ^ (16 * e - 112) = (fbase : ℚ) ^ (e - 7) := by
  rw [show (fbase : ℚ) = 2 ^ (16 : Int) by norm_num, ← zpow_mul]
  congr 1
  ring

theorem value_fbase (f : Flt) :
    f.value = f.sign * (val fbase f.digits * (fbase : ℚ) ^ (f.exp - 7)) := by
  rw [Flt.value, two_zpow_eq]

theorem Flt.Legal.digits_length (h : f.Legal) : f.digits.length = mantSize := by
  rw [Flt.digits, List.length_take, h.len]
  decide

theorem Flt.Legal.digits_bounded (h : f.Legal) : Bounded fbase f.digits :=
  h.bounded.take _

/-- The mantissa of a number other than zero takes all its places. -/
theorem Flt.Legal.digits_range (h : f.Legal) (hs : f.sign ≠ 0) :
    fbase ^ 7 ≤ val fbase f.digits ∧ val fbase f.digits < fbase ^ 8 := by
  have hlt := val_lt h.digits_bounded
  have hne : f.digits ≠ [] := by
    intro h0
    have := h.digits_length
    rw [h0] at this
    exact absurd this (by decide)
  have hhead : f.digits.headD 0 ≠ 0 := by
    have := h.normal hs
    rwa [Flt.digits, List.headD_eq_head?_getD, List.head?_take, if_neg (by decide),
      ← List.headD_eq_head?_getD]
  have hge := (headD_ne_zero_iff h.digits_bounded hne).1 hhead
  rw [h.digits_length] at hlt hge
  exact ⟨hge, hlt⟩

theorem Flt.Legal.sign_cases (h : f.Legal) (hs : f.sign ≠ 0) : f.sign = -1 ∨ f.sign = 1 := by
  rcases h.sign with h | h | h
  · exact .inl h
  · exact absurd h hs
  · exact .inr h

/-- What the loop that shifts zeros out has done when it ends. -/
theorem normalise_some {room : Nat} {m : List Nat} {e e' : Int} (hb : Bounded fbase mant)
    (hne : mant ≠ []) (h : normalise room mant e = some (m, e')) :
    ∃ k : Nat, e' = e - k ∧ m.length = mant.length ∧ Bounded fbase m ∧
      val fbase m = val fbase mant * fbase ^ k ∧ m.headD 0 ≠ 0 := by
  induction room generalizing mant e with
  | zero =>
      rw [normalise] at h
      split at h
      · next hhead =>
          obtain ⟨rfl, rfl⟩ := Prod.mk.inj (Option.some.inj h)
          exact ⟨0, by simp, rfl, hb, by simp, hhead⟩
      · exact absurd h (by simp)
  | succ room ih =>
      rw [normalise] at h
      split at h
      · next hhead =>
          obtain ⟨rfl, rfl⟩ := Prod.mk.inj (Option.some.inj h)
          exact ⟨0, by simp, rfl, hb, by simp, hhead⟩
      · next hhead =>
          have hlen : (mant.drop 1 ++ [0]).length = mant.length := by
            have : 0 < mant.length := List.length_pos_iff.2 hne
            simp
            omega
          have hb' : Bounded fbase (mant.drop 1 ++ [0]) :=
            bounded_append.2 ⟨hb.drop 1, bounded_cons.2 ⟨fbase_pos, bounded_nil⟩⟩
          obtain ⟨k, he, hml, hmb, hmv, hmn⟩ := ih hb' (by simp) h
          refine ⟨k + 1, by rw [he]; push_cast; ring, hml.trans hlen, hmb, ?_, hmn⟩
          rw [hmv, val_rotate_zero (not_not.1 hhead)]
          ring

/-! ## Cutting a double mantissa down -/

theorem two_mul_half : 2 * (fbase ^ 8 / 2) = fbase ^ 8 := by norm_num

/-- A carry out of the mantissa leaves the power of the base it has become. -/
theorem fltIntRound_value (hlen : f.digits.length = mantSize) (hb : Bounded fbase f.digits)
    (ic : Nat) :
    (fltIntRound f ic).value = f.sign * (((val fbase f.digits +
      if fbase / 2 ≤ ic then 1 else 0 : Nat) : ℚ) * (fbase : ℚ) ^ (f.exp - 7)) := by
  simp only [fltIntRound, roundType, decide_eq_true_eq]
  by_cases hup : fbase / 2 ≤ ic
  · rw [if_pos hup, if_pos hup]
    have hval := val_addCarry (B := fbase) 1 f.digits
    have hrlen := length_addCarry (B := fbase) 1 f.digits
    rw [hlen] at hval hrlen
    generalize addCarry fbase 1 f.digits = r at hval hrlen ⊢
    split
    · next h0 =>
        rw [h0, Nat.zero_mul, Nat.add_zero] at hval
        rw [value_fbase, Flt.digits_store f hrlen, hval]
        rfl
    · next h0 =>
        have hlt := val_lt hb
        rw [hlen] at hlt
        have hge : 1 * fbase ^ mantSize ≤ r.2 * fbase ^ mantSize :=
          Nat.mul_le_mul_right _ (Nat.pos_of_ne_zero h0)
        have hfull : val fbase f.digits + 1 = fbase ^ mantSize := by omega
        have hone : (1 :: List.replicate (mantSize - 1) 0).length = mantSize := by
          simp [mantSize]
        have hd : Flt.digits { f.store (1 :: List.replicate (mantSize - 1) 0) with
            exp := f.exp + 1 } = 1 :: List.replicate (mantSize - 1) 0 := Flt.digits_store f hone
        rw [value_fbase, hd, hfull, val_cons, val_replicate_zero, List.length_replicate,
          Nat.add_zero, Nat.one_mul]
        dsimp only [Flt.store]
        rw [show f.exp + 1 - 7 = f.exp - 7 + 1 by ring, zpow_add_one₀ fbase_ne_zero]
        push_cast
        ring
  · rw [if_neg hup, if_neg hup, value_fbase, Nat.add_zero]

/-- The digits beyond the mantissa are rounded off by the first of them. -/
theorem dbl2float_value (hlen : mant.length = 2 * mantSize) (hb : Bounded fbase mant) (s e : Int)
    (res : Flt) :
    (dbl2float ⟨mant, s, e⟩ res).value = s * (((val fbase mant + fbase ^ 8 / 2) /
      (2 * (fbase ^ 8 / 2)) : Nat) * (fbase : ℚ) ^ (e - 7)) := by
  have htl : (mant.take mantSize).length = mantSize := by
    rw [List.length_take, hlen]
    decide
  have hd : Flt.digits { res.store (mant.take mantSize) with sign := s, exp := e } =
      mant.take mantSize := Flt.digits_store res htl
  rw [dbl2float, fltIntRound_value (by rw [hd, htl]) (by rw [hd]; exact hb.take _), hd]
  have hsplit : val fbase mant =
      val fbase (mant.take mantSize) * fbase ^ 8 + val fbase (mant.drop mantSize) := by
    conv_lhs => rw [← List.take_append_drop mantSize mant]
    rw [val_append, List.length_drop, hlen]
    rfl
  have hdl : (mant.drop mantSize).length = 8 := by
    rw [List.length_drop, hlen]
    decide
  have hlow : mant.getD mantSize 0 = val fbase (mant.drop mantSize) / fbase ^ 7 := by
    have hne : mant.drop mantSize ≠ [] := by
      intro h
      rw [h] at hdl
      exact absurd hdl (by decide)
    have := headD_eq (hb.drop mantSize) hne
    rw [hdl] at this
    rw [← this, List.headD_eq_head?_getD, List.head?_drop, List.getD_eq_getElem?_getD]
  have hlt := val_lt (hb.drop mantSize)
  rw [hdl] at hlt
  rw [hlow, hsplit]
  have hup : (if fbase / 2 ≤ val fbase (mant.drop mantSize) / fbase ^ 7 then 1 else 0) =
      (val fbase (mant.drop mantSize) + fbase ^ 8 / 2) / (2 * (fbase ^ 8 / 2)) := by
    generalize val fbase (mant.drop mantSize) = lo at hlt ⊢
    norm_num at hlt ⊢
    split <;> omega
  have hsum : (val fbase (mant.take mantSize) * fbase ^ 8 + val fbase (mant.drop mantSize) +
      fbase ^ 8 / 2) / (2 * (fbase ^ 8 / 2)) = val fbase (mant.take mantSize) +
        (val fbase (mant.drop mantSize) + fbase ^ 8 / 2) / (2 * (fbase ^ 8 / 2)) := by
    rw [two_mul_half, Nat.add_assoc, Nat.add_comm, Nat.add_mul_div_right _ _ (fbase_pow_pos 8),
      Nat.add_comm]
  rw [hup, hsum]

/-- A double mantissa that holds the integer part of `y` is cut down to `y`, rounded
to the nearest number. -/
theorem dbl2float_rounds {y : ℚ} {s : Int} (hlen : mant.length = 2 * mantSize)
    (hb : Bounded fbase mant) (hhead : mant.headD 0 ≠ 0) (h1 : (val fbase mant : ℚ) ≤ y)
    (h2 : y < val fbase mant + 1) (hs : s = -1 ∨ s = 1) (e : Int) (res : Flt) :
    (dbl2float ⟨mant, s, e⟩ res).value =
      roundTo halfAway fbase mantSize (s * (y * (fbase : ℚ) ^ (e - 15))) := by
  have hne : mant ≠ [] := by
    rintro rfl
    exact absurd hlen (by decide)
  have hlow := (headD_ne_zero_iff hb hne).1 hhead
  have hhigh := val_lt hb
  rw [hlen] at hlow hhigh
  have hlow' : (fbase : ℚ) ^ 15 ≤ y := le_trans (by exact_mod_cast hlow) h1
  have hhigh' : y < (fbase : ℚ) ^ 16 := lt_of_lt_of_le h2 (by exact_mod_cast hhigh)
  have hround : halfAway (y / (fbase ^ 8 : Nat)) =
      ((val fbase mant + fbase ^ 8 / 2) / fbase ^ 8 : Nat) := by
    have := halfAway_div (c := fbase ^ 8 / 2) (by norm_num) h1 h2
    rwa [two_mul_half] at this
  rw [dbl2float_value hlen hb, two_mul_half, roundTo_sign halfAway_neg hs,
    roundTo_scaled (e - 15) (by decide) (d := 8) _ hhigh', hround, Int.cast_natCast,
    show e - 15 + ((8 : Nat) : Int) = e - 7 by ring]
  calc (fbase : ℚ) ^ (mantSize + 8) = fbase ^ 15 * fbase := pow_succ ..
    _ ≤ y * fbase := mul_le_mul_of_nonneg_right hlow' fbase_cast_pos.le

/-! ## Products -/

theorem value_of_sign_zero (h : f.sign = 0) : f.value = 0 := by
  rw [Flt.value, h, Int.cast_zero, zero_mul]

theorem roundTo_zero (round : ℚ → Int) (B p : Nat) (h : round 0 = 0) :
    roundTo round B p 0 = 0 := by
  rw [roundTo, zero_div, h, Int.cast_zero, zero_mul]

theorem fltMul_value {f1 f2 : Flt} (h1 : f1.Legal) (h2 : f2.Legal) (hs1 : f1.sign ≠ 0)
    (hs2 : f2.sign ≠ 0) {s : Int} (hs : s = f1.sign * f2.sign) (res : Flt) :
    ∃ acc, mulRows f2.digits f1.digits 2 (List.replicate (2 * mantSize) 0) = .ok acc ∧
      ∀ room m e, normalise room acc (f1.exp + f2.exp + 1) = some (m, e) →
        (dbl2float ⟨m, s, e⟩ res).value =
          roundTo halfAway fbase mantSize (f1.value * f2.value) := by
  obtain ⟨acc, hacc, hlen, hb, hval⟩ := mulRows_product h1.digits_length h2.digits_length
    h1.digits_bounded h2.digits_bounded
  refine ⟨acc, hacc, fun room m e hm => ?_⟩
  have hne : acc ≠ [] := by
    rintro rfl
    exact absurd hlen (by decide)
  obtain ⟨k, he, hml, hmb, hmv, hhead⟩ := normalise_some hb hne hm
  have hsign : s = -1 ∨ s = 1 := by
    rcases h1.sign_cases hs1 with h | h <;> rcases h2.sign_cases hs2 with h' | h' <;>
      simp [hs, h, h']
  -- one step of the exponent for each digit that the loop shifts in
  have hexact : f1.value * f2.value = s * ((val fbase m : ℚ) * (fbase : ℚ) ^ (e - 15)) := by
    have hexp : e - 15 = f1.exp - 7 + (f2.exp - 7) + -(k : Int) := by rw [he]; ring
    have hk : (fbase : ℚ) ^ k * (fbase : ℚ) ^ (-(k : Int)) = 1 := by
      rw [← zpow_natCast, ← zpow_add₀ fbase_ne_zero, add_neg_cancel, zpow_zero]
    rw [value_fbase, value_fbase, hmv, hval, hs, hexp, zpow_add₀ fbase_ne_zero,
      zpow_add₀ fbase_ne_zero]
    push_cast at hk ⊢
    linear_combination (-(f1.sign : ℚ) * f2.sign * val fbase f1.digits * val fbase f2.digits *
      (65536 : ℚ) ^ (f1.exp - 7) * (65536 : ℚ) ^ (f2.exp - 7)) * hk
  rw [hexact]
  exact dbl2float_rounds (hml.trans hlen) hmb hhead le_rfl (lt_add_one _) hsign e res

/-- The largest mantissa. -/
def allOnes : Flt := ⟨List.replicate 10 65535, 1, 0⟩

theorem allOnes_legal : allOnes.Legal where
  len := rfl
  bounded := by unfold Bounded; decide
  sign := .inr (.inr rfl)
  normal := fun _ => by decide
  range := by decide

end Tendra.Ref
