import Tendra.Proofs.FltBits
import Tendra.Proofs.FltRound

/-!
# Rounding to an integer

The digit to be rounded is the one behind the point, and its place is found by
counting up from the exponent. From the exponent 9 on it lies behind the end of
the mantissa; at the exponent 8 a carry through all ten digits leads there. Up to
the exponent 3 the digits before the point are the rounded integer.
-/

namespace Tendra.Ref

open Tendra.Digits Tendra.Rounding

/-! ## Inside the mantissa -/

/-- The carry with which `flpt_round` adds one at a bit. -/
def roundCarry (D b : Nat) (mant : List Nat) : Nat :=
  (addCarry fbase (bitround b)
    ((mant.set D (mant.getD D 0 &&& bitmask b)).take (D + 1))).2

/-- Adding one at a bit stays inside the mantissa unless the carry leads out of it. -/
theorem roundUp_inside {f : Flt} (hlen : f.mant.length = 10) {D : Nat} (hD : D < 10) (b : Nat) :
    (D + roundCarry D b f.mant < 10 → ∃ g, roundUp D b f = .ok g ∧ g.mant.length = 10 ∧
        (g.exp = f.exp ∨ g.exp = f.exp + 1)) ∧
      (¬ D + roundCarry D b f.mant < 10 → roundUp D b f = .error .outside) := by
  have hr := length_addCarry (B := fbase) (bitround b)
    ((f.mant.set D (f.mant.getD D 0 &&& bitmask b)).take (D + 1))
  have hset : (f.mant.set D (f.mant.getD D 0 &&& bitmask b)).length = 10 := by
    rw [List.length_set, hlen]
  rw [List.length_take, hset, Nat.min_eq_left (by omega)] at hr
  have hdrop : ((f.mant.set D (f.mant.getD D 0 &&& bitmask b)).drop (D + 1)).length = 9 - D := by
    rw [List.length_drop, hset]
    omega
  unfold roundCarry roundUp
  dsimp only
  generalize addCarry fbase (bitround b)
    ((f.mant.set D (f.mant.getD D 0 &&& bitmask b)).take (D + 1)) = r at hr ⊢
  generalize (f.mant.set D (f.mant.getD D 0 &&& bitmask b)).drop (D + 1) = z at hdrop ⊢
  have hm : (r.1 ++ z).length = 10 := by
    rw [List.length_append, hr, hdrop]
    omega
  by_cases hc : r.2 = 0
  · simp only [hc, ne_eq, not_true_eq_false, if_false, Nat.add_zero, hm]
    refine ⟨fun hlt => ?_, fun hge => absurd hD hge⟩
    rw [if_pos hlt]
    exact ⟨_, rfl, by rw [List.length_set, hm], .inl rfl⟩
  · obtain ⟨i, hi7, hie⟩ : ∃ i, i ≤ 7 ∧ (if f.exp + 1 ≥ (mantSize : Int) then mantSize - 1
        else (f.exp + 1).toNat) = i := ⟨_, by rw [mantSize]; split <;> omega, rfl⟩
    have hm' : (r.2 :: (r.1 ++ z).take i ++ (r.1 ++ z).drop (i + 1)).length = 10 := by
      rw [List.length_append, List.length_cons, List.length_take, List.length_drop, hm]
      omega
    simp only [ne_eq, hc, not_false_eq_true, if_true, hie, hm']
    refine ⟨fun hlt => ?_, fun hge => if_neg hge⟩
    rw [if_pos hlt]
    exact ⟨_, rfl, by rw [List.length_set, hm'], .inr rfl⟩

/-- A carry of one at most: only ten digits can carry it out of a mantissa. -/
theorem roundCarry_le {mant : List Nat} (hb : Bounded fbase mant) (hlen : mant.length = 10)
    {D b : Nat} (hD : D < 10) (hb15 : b ≤ 15) : roundCarry D b mant ≤ 1 := by
  have hd := hb.getD fbase_pos D
  have hlow : mant.getD D 0 / 2 ^ b * 2 ^ b < fbase := lt_of_le_of_lt (Nat.div_mul_le_self ..) hd
  rw [roundCarry, and_bitmask hd (by omega)]
  have hbs : Bounded fbase ((mant.set D (mant.getD D 0 / 2 ^ b * 2 ^ b)).take (D + 1)) :=
    (hb.set D hlow).take _
  have hlt := val_lt hbs
  have hval := val_addCarry (B := fbase) (bitround b)
    ((mant.set D (mant.getD D 0 / 2 ^ b * 2 ^ b)).take (D + 1))
  have hl : ((mant.set D (mant.getD D 0 / 2 ^ b * 2 ^ b)).take (D + 1)).length = D + 1 := by
    rw [List.length_take, List.length_set, hlen]
    omega
  rw [hl] at hlt hval
  have hround : bitround b ≤ fbase ^ (D + 1) := by
    calc bitround b ≤ 2 ^ 16 := Nat.pow_le_pow_right (by decide) (by omega)
      _ = fbase ^ 1 := (pow_one fbase).symm
      _ ≤ fbase ^ (D + 1) := Nat.pow_le_pow_right fbase_pos (by omega)
  generalize addCarry fbase (bitround b)
    ((mant.set D (mant.getD D 0 / 2 ^ b * 2 ^ b)).take (D + 1)) = r at hval
  by_contra h
  have : 2 * fbase ^ (D + 1) ≤ r.2 * fbase ^ (D + 1) := Nat.mul_le_mul_right _ (by omega)
  omega

/-- A carry out of the last digit goes through digits that are all full. -/
theorem roundCarry_last {mant : List Nat} (hb : Bounded fbase mant) (hlen : mant.length = 10) :
    roundCarry 9 15 mant =
      if 32768 ≤ mant.getD 9 0 ∧ mant.take 9 = List.replicate 9 65535 then 1 else 0 := by
  have hd := hb.getD fbase_pos 9
  have htake : (mant.set 9 (mant.getD 9 0 / 2 ^ 15 * 2 ^ 15)).take (9 + 1) =
      mant.take 9 ++ [mant.getD 9 0 / 2 ^ 15 * 2 ^ 15] := by
    rw [List.take_add_one, List.take_set_of_le (le_refl 9), List.getElem?_set_self (by omega)]
    rfl
  have hl9 : (mant.take 9).length = 9 := by
    rw [List.length_take, hlen]
    rfl
  have hfull : mant.take 9 = List.replicate 9 65535 ↔ val fbase (mant.take 9) + 1 = fbase ^ 9 := by
    constructor
    · intro h
      rw [h]
      decide
    · intro h
      refine val_inj (hb.take 9) ?_ (by rw [hl9]; rfl) ?_
      · intro x hx
        rw [List.eq_of_mem_replicate hx]
        decide
      · exact Nat.succ_injective (h.trans (by decide))
  rw [roundCarry, and_bitmask hd (by decide), htake, addCarry_append]
  have hcarry : (addCarry fbase (bitround 15) [mant.getD 9 0 / 2 ^ 15 * 2 ^ 15]).2 =
      if 32768 ≤ mant.getD 9 0 then 1 else 0 := by
    have hd' : mant.getD 9 0 < 65536 := hd
    simp only [addCarry, bitround, fbase]
    split <;> omega
  have hval := val_addCarry (B := fbase)
    (addCarry fbase (bitround 15) [mant.getD 9 0 / 2 ^ 15 * 2 ^ 15]).2 (mant.take 9)
  have hlt := val_lt (hb.take 9)
  have hrl := length_addCarry (B := fbase)
    (addCarry fbase (bitround 15) [mant.getD 9 0 / 2 ^ 15 * 2 ^ 15]).2 (mant.take 9)
  have hrlt := val_lt (bounded_addCarry fbase_pos
    (addCarry fbase (bitround 15) [mant.getD 9 0 / 2 ^ 15 * 2 ^ 15]).2 (mant.take 9))
  rw [hrl] at hrlt
  rw [hl9] at hval hlt hrlt
  dsimp only
  generalize addCarry fbase (addCarry fbase (bitround 15)
    [mant.getD 9 0 / 2 ^ 15 * 2 ^ 15]).2 (mant.take 9) = r at hval hrlt ⊢
  rw [hcarry] at hval
  by_cases hc : 32768 ≤ mant.getD 9 0 ∧ mant.take 9 = List.replicate 9 65535
  · rw [if_pos hc]
    rw [if_pos hc.1, hfull.1 hc.2] at hval
    have h2 : r.2 * fbase ^ 9 ≤ 1 * fbase ^ 9 := by omega
    have h3 := Nat.le_of_mul_le_mul_right h2 (fbase_pow_pos 9)
    have h4 : r.2 ≠ 0 := by
      intro h0
      rw [h0] at hval
      omega
    omega
  · rw [if_neg hc]
    have hsum : val fbase (mant.take 9) + (if 32768 ≤ mant.getD 9 0 then 1 else 0) < fbase ^ 9 := by
      split
      · next h1 =>
          have := mt hfull.2 (fun h2 => hc ⟨h1, h2⟩)
          omega
      · omega
    by_contra h0
    have : 1 * fbase ^ 9 ≤ r.2 * fbase ^ 9 := Nat.mul_le_mul_right _ (Nat.pos_of_ne_zero h0)
    omega

/-- At the exponent 8 the rounding carries through all ten digits. -/
def Spills (mode : RoundMode) (f : Flt) : Prop :=
  (f.mant.take 9 = List.replicate 9 65535) ∧
    match mode with
    | .r2zero => False
    | .r2pinf => f.sign = 1 ∧ f.mant.getD 9 0 ≠ 0
    | .r2ninf => f.sign = -1 ∧ f.mant.getD 9 0 ≠ 0
    | .r2near => 32768 ≤ f.mant.getD 9 0

section Inside

variable {f : Flt} (h : f.Legal) (hs : f.sign ≠ 0) {n : Nat} (hexp : f.exp = n)

include hexp in
/-- `flpt_round` as it is called with the bits before the point. -/
theorem roundPos_integer :
    roundPos (1 - ((ndig0 (f.mant.headD 0) : Int) - (ndig0 (f.mant.headD 0) + f.exp * 16))).toNat
      (ndig0 (f.mant.headD 0) - (ndig0 (f.mant.headD 0) + f.exp * 16)) 0 = (16, n + 1) := by
  obtain ⟨D, hpos, hlo, hhi⟩ := roundPos_bits
    (1 - ((ndig0 (f.mant.headD 0) : Int) - (ndig0 (f.mant.headD 0) + f.exp * 16))).toNat
    (ndig0 (f.mant.headD 0) - (ndig0 (f.mant.headD 0) + f.exp * 16)) 0 (by omega) (by omega)
  rw [hpos]
  congr 1 <;> omega

include h hs hexp in
/-- The digit to be rounded lies behind the mantissa. -/
theorem flptRound_far (hn : 9 ≤ n) (mode : RoundMode) :
    flptRound mode (ndig0 (f.mant.headD 0) + f.exp * 16) f = .error .outside := by
  have hout : f.mant.length ≤ n + 1 := by
    rw [h.len]
    omega
  simp only [flptRound, if_neg hs, roundPos_integer hexp, if_pos hout]

include h in
/-- The mantissa that `flpt_round` goes on with. -/
theorem stored_length (D : Nat) : (f.store (f.digits.take (D + 1) ++
    (f.digits.drop (D + 1)).map fun _ => 0)).mant.length = 10 := by
  have hl : (f.digits.take (D + 1) ++ (f.digits.drop (D + 1)).map fun _ => 0).length = 8 := by
    rw [List.length_append, List.length_map, ← List.length_append, List.take_append_drop,
      h.digits_length]
  rw [Flt.store]
  dsimp only
  rw [List.length_append, hl, List.length_drop, h.len]

include h in
theorem stored_bounded (D : Nat) : Bounded fbase (f.store (f.digits.take (D + 1) ++
    (f.digits.drop (D + 1)).map fun _ => 0)).mant := by
  refine bounded_append.2 ⟨bounded_append.2 ⟨h.digits_bounded.take _, fun x hx => ?_⟩,
    h.bounded.drop _⟩
  obtain ⟨-, -, rfl⟩ := List.mem_map.1 hx
  exact fbase_pos

include h hs hexp in
/-- With room behind the digit nothing can leave the mantissa. -/
theorem flptRound_near (hn : n ≤ 7) (mode : RoundMode) :
    ∃ g, flptRound mode (ndig0 (f.mant.headD 0) + f.exp * 16) f = .ok g ∧ g.mant.length = 10 ∧
      (g.exp = f.exp ∨ g.exp = f.exp + 1) := by
  have hout : ¬ f.mant.length ≤ n + 1 := by
    rw [h.len]
    omega
  have hl := stored_length h (n + 1)
  have hb := stored_bounded h (n + 1)
  have hup : ∀ k : Flt, k.mant.length = 10 → Bounded fbase k.mant → k.exp = f.exp →
      ∃ g, roundUp (n + 1) 15 k = .ok g ∧ g.mant.length = 10 ∧
        (g.exp = f.exp ∨ g.exp = f.exp + 1) := by
    intro k hkl hkb hke
    have hc := roundCarry_le hkb hkl (show n + 1 < 10 by omega) (show 15 ≤ 15 by decide)
    rw [← hke]
    exact (roundUp_inside hkl (by omega) 15).1 (by omega)
  have hdig : (f.store (f.digits.take (n + 1 + 1) ++
      (f.digits.drop (n + 1 + 1)).map fun _ => 0)).mant.getD (n + 1) 0 < fbase :=
    hb.getD fbase_pos _
  have hhalf := hup { f.store (f.digits.take (n + 1 + 1) ++
      (f.digits.drop (n + 1 + 1)).map fun _ => 0) with
    mant := (f.store (f.digits.take (n + 1 + 1) ++
      (f.digits.drop (n + 1 + 1)).map fun _ => 0)).mant.set (n + 1) _ }
    (by rw [List.length_set, hl]) (hb.set _ (or_bitround_lt hdig (le_refl 15))) rfl
  have hself := hup _ hl hb rfl
  simp only [flptRound, if_neg hs, roundPos_integer hexp, if_neg hout]
  cases mode with
  | r2zero => exact ⟨_, rfl, by rw [List.length_set, hl], .inl rfl⟩
  | r2pinf =>
      dsimp only
      split
      · exact ⟨_, rfl, by rw [List.length_set, hl], .inl rfl⟩
      · exact hhalf
  | r2ninf =>
      dsimp only
      split
      · exact ⟨_, rfl, by rw [List.length_set, hl], .inl rfl⟩
      · exact hhalf
  | r2near => exact hself

include h hs in
/-- The last digit is rounded, and what it carries runs through the others. -/
theorem flptRound_eight (hexp : f.exp = 8) (mode : RoundMode) :
    (Spills mode f → flptRound mode (ndig0 (f.mant.headD 0) + f.exp * 16) f = .error .outside) ∧
      (¬ Spills mode f →
        ∃ g, flptRound mode (ndig0 (f.mant.headD 0) + f.exp * 16) f = .ok g ∧
          g.mant.length = 10 ∧ (g.exp = f.exp ∨ g.exp = f.exp + 1)) := by
  have hout : ¬ f.mant.length ≤ 8 + 1 := by
    rw [h.len]
    omega
  have hd9 : f.mant.getD 9 0 < fbase := h.bounded.getD fbase_pos 9
  have hst : f.store (f.digits.take (8 + 1 + 1) ++ (f.digits.drop (8 + 1 + 1)).map fun _ => 0) =
      f := by
    rw [List.take_of_length_le (by rw [h.digits_length]; decide),
      List.drop_of_length_le (by rw [h.digits_length]; decide), List.map_nil, List.append_nil,
      Flt.store, h.digits_length, Flt.digits, List.take_append_drop]
  have hany : (f.digits.drop (8 + 1 + 1)).any (· ≠ 0) = false := by
    rw [List.drop_of_length_le (by rw [h.digits_length]; decide)]
    rfl
  have hm16 : bitmask (15 + 1) = 0 := rfl
  have hcut : ∀ v, (f.mant.set 9 v).length = 10 := fun v => by rw [List.length_set, h.len]
  have hup : ∀ k : Flt, k.mant.length = 10 → Bounded fbase k.mant → k.exp = f.exp →
      ((32768 ≤ k.mant.getD 9 0 ∧ k.mant.take 9 = List.replicate 9 65535) →
        roundUp 9 15 k = .error .outside) ∧
      (¬ (32768 ≤ k.mant.getD 9 0 ∧ k.mant.take 9 = List.replicate 9 65535) →
        ∃ g, roundUp 9 15 k = .ok g ∧ g.mant.length = 10 ∧
          (g.exp = f.exp ∨ g.exp = f.exp + 1)) := by
    intro k hkl hkb hke
    obtain ⟨hok, herr⟩ := roundUp_inside hkl (show 9 < 10 by decide) 15
    rw [roundCarry_last hkb hkl] at hok herr
    refine ⟨fun hc => herr (by rw [if_pos hc]; decide), fun hc => ?_⟩
    rw [if_neg hc] at hok
    rw [← hke]
    exact hok (by decide)
  have hhalf := hup { f with mant := f.mant.set 9 (f.mant.getD 9 0 ||| bitround 15) } (hcut _)
    (h.bounded.set 9 (or_bitround_lt hd9 (le_refl 15))) rfl
  have hself := hup f h.len h.bounded rfl
  have hget : (f.mant.set 9 (f.mant.getD 9 0 ||| bitround 15)).getD 9 0 =
      f.mant.getD 9 0 ||| bitround 15 := by
    rw [List.getD_eq_getElem?_getD, List.getElem?_set_self (by rw [h.len]; decide)]
    rfl
  have hge : 32768 ≤ f.mant.getD 9 0 ||| bitround 15 := Nat.right_le_or
  simp only [hget, hge, true_and, List.take_set_of_le (le_refl 9)] at hhalf
  have hb15 : ((16 : Int) - 1).toNat = 15 := rfl
  simp only [flptRound, if_neg hs, roundPos_integer (n := 8) hexp, if_neg hout, hst, hany, hb15,
    hm16, Nat.and_zero, Bool.not_false, Bool.true_and, decide_eq_true_eq]
  unfold Spills
  cases mode with
  | r2zero => exact ⟨fun hc => absurd hc.2 id, fun _ => ⟨_, rfl, hcut _, .inl rfl⟩⟩
  | r2pinf =>
      dsimp only
      by_cases hc : f.sign ≠ 1 ∨ 0 = f.mant.getD 9 0
      · rw [if_pos hc]
        refine ⟨fun hsp => ?_, fun _ => ⟨_, rfl, hcut _, .inl rfl⟩⟩
        exact (hc.elim (fun h1 => h1 hsp.2.1) (fun h0 => hsp.2.2 h0.symm)).elim
      · rw [if_neg hc]
        obtain ⟨h1, h0⟩ := not_or.1 hc
        exact ⟨fun hsp => hhalf.1 hsp.1,
          fun hsp => hhalf.2 (fun hfull => hsp ⟨hfull, not_not.1 h1, Ne.symm h0⟩)⟩
  | r2ninf =>
      dsimp only
      by_cases hc : f.sign = 1 ∨ 0 = f.mant.getD 9 0
      · rw [if_pos hc]
        refine ⟨fun hsp => ?_, fun _ => ⟨_, rfl, hcut _, .inl rfl⟩⟩
        exact (hc.elim (fun h1 => by have := hsp.2.1; omega) (fun h0 => hsp.2.2 h0.symm)).elim
      · rw [if_neg hc]
        obtain ⟨h1, h0⟩ := not_or.1 hc
        exact ⟨fun hsp => hhalf.1 hsp.1,
          fun hsp => hhalf.2 (fun hfull =>
            hsp ⟨hfull, (h.sign_cases hs).resolve_right h1, Ne.symm h0⟩)⟩
  | r2near =>
      exact ⟨fun hc => hself.1 ⟨hc.2, hc.1⟩, fun hc => hself.2 (fun hc' => hc ⟨hc'.2, hc'.1⟩)⟩

end Inside

/-! ## The integer -/

section Value

variable {f : Flt} (h : f.Legal) (hs : f.sign ≠ 0)
include h hs

/-- The bits before the point are rounded, and `flt_to_f64` takes them. -/
theorem roundInteger_value (hlo : -1 ≤ f.exp) (hhi : f.exp ≤ 3)
    (hpos : 0 ≤ (ndig0 (f.mant.headD 0) : Int) + f.exp * 16) (mode : RoundMode) (sg : Bool) :
    ∃ g x ov, flptRound mode (ndig0 (f.mant.headD 0) + f.exp * 16) f = .ok g ∧
      fltToF64 g sg = .ok (x, ov) ∧ x.bits = BitVec.ofInt 64 (roundInt mode f.value) := by
  obtain ⟨hL1, hL16, -, -⟩ := mant_bounds h hs
  obtain ⟨D, hD⟩ : ∃ D : Nat, f.exp = (D : Int) - 1 := ⟨(f.exp + 1).toNat, by omega⟩
  have hD4 : D ≤ 4 := by omega
  obtain ⟨g, hg, hr⟩ := flptRound_spec h hs mode hpos (by omega)
  have hT : ((ndig0 (f.mant.headD 0) : Int) + 112 -
      (ndig0 (f.mant.headD 0) + f.exp * 16)).toNat = 16 * (8 - D) := by omega
  rw [hT] at hr
  have hpow : 2 ^ (16 * (8 - D)) = fbase ^ (8 - D) := by
    rw [pow_mul]
    rfl
  have hvalue : f.value = f.sign * ((val fbase f.digits : ℚ) / (2 ^ (16 * (8 - D)) : Nat)) := by
    rw [Flt.value, show 16 * f.exp - 112 = -((16 * (8 - D) : Nat) : Int) by omega, zpow_neg,
      zpow_natCast, div_eq_mul_inv]
    push_cast
    rfl
  have hround := roundInt_sign mode (h.sign_cases hs) (val fbase f.digits)
    (show 1 ≤ 16 * (8 - D) by omega)
  rw [← hvalue] at hround
  have hgl : g.digits.length = mantSize := by
    rw [Flt.digits, List.length_take, hr.len]
    rfl
  have hgb : Bounded fbase g.digits := hr.bounded.take _
  have hint : g.intPart = roundedMant mode f.sign (val fbase f.digits) (16 * (8 - D)) := by
    have hlt := val_lt hgb
    rw [hgl] at hlt
    rcases hr.val with ⟨he, hv⟩ | ⟨he, hv, hM⟩
    · rw [intPart_take (D := D) (he.trans hD), val_take hgb (by rw [hgl, mantSize]; omega), hgl, hv,
        hpow]
      exact Nat.mul_div_cancel _ (fbase_pow_pos _)
    · rw [intPart_take (D := D + 1) (by rw [he, hD]; push_cast; ring),
        val_take hgb (by rw [hgl, mantSize]; omega), hgl, hv]
      refine Nat.eq_of_mul_eq_mul_right (fbase_pow_pos (8 - D)) ?_
      rw [← hpow, hM, hpow, show mantSize - (D + 1) = 7 - D by rw [mantSize]; omega,
        Nat.pow_div (by omega) fbase_pos, ← pow_add]
      congr 1
      omega
  obtain ⟨x, ov, hx, hbits, -⟩ := fltToF64_intPart hgl hgb
    (by rcases hr.val with ⟨he, -⟩ | ⟨he, -⟩ <;> omega)
    (by rw [hr.sign]; have := h.sign_cases hs; omega) sg
  refine ⟨g, x, ov, hg, hx, ?_⟩
  rw [hbits, hint, hr.sign, hround]

/-- A number below one half. -/
theorem abs_value_lt_half (hneg : (ndig0 (f.mant.headD 0) : Int) + f.exp * 16 < 0) :
    0 < |f.value| ∧ |f.value| < 1 / 2 := by
  obtain ⟨hb1, hb2⟩ := value_bounds h hs
  refine ⟨lt_of_lt_of_le (by positivity) hb1, lt_of_lt_of_le hb2 ?_⟩
  calc (2 : ℚ) ^ (16 * f.exp + ndig0 (f.mant.headD 0)) ≤ 2 ^ (-1 : Int) :=
        zpow_le_zpow_right₀ one_le_two (by omega)
    _ = 1 / 2 := by norm_num

end Value

/-- Rounding a small number by its sign. -/
theorem roundInt_small {v : ℚ} (hv : 0 < |v|) (hlt : |v| < 1 / 2) :
    roundInt .r2zero v = 0 ∧ roundInt .r2near v = 0 ∧
      roundInt .r2pinf v = (if 0 < v then 1 else 0) ∧
      roundInt .r2ninf v = (if v < 0 then -1 else 0) := by
  have hne : v ≠ 0 := abs_pos.1 hv
  obtain ⟨h1, h2⟩ := abs_lt.1 hlt
  simp only [roundInt, towardZero, halfAway]
  rcases lt_or_gt_of_ne hne with hneg | hpos
  · rw [if_neg (by linarith), if_neg (by linarith), if_neg (by linarith), if_pos hneg, neg_eq_zero,
      neg_eq_zero, Int.floor_eq_zero_iff, Int.floor_eq_zero_iff, Int.ceil_eq_zero_iff,
      Int.floor_eq_iff]
    push_cast
    exact ⟨⟨by linarith, by linarith⟩, ⟨by linarith, by linarith⟩, ⟨by linarith, by linarith⟩,
      by linarith, by linarith⟩
  · rw [if_pos hpos.le, if_pos hpos.le, if_pos hpos, if_neg (by linarith), Int.floor_eq_zero_iff,
      Int.floor_eq_zero_iff, Int.ceil_eq_iff]
    push_cast
    exact ⟨⟨by linarith, by linarith⟩, ⟨by linarith, by linarith⟩, ⟨by linarith, by linarith⟩,
      by linarith, by linarith⟩

theorem fltToF64_inside {g : Flt} (hlen : g.mant.length = 10) (hexp : g.exp ≤ 9) (sg : Bool) :
    ∃ x ov, fltToF64 g sg = .ok (x, ov) := by
  unfold fltToF64
  split
  · exact ⟨_, _, rfl⟩
  · rw [if_neg (by rw [hlen]; omega)]
    exact ⟨_, _, rfl⟩

/-- What the folding of a `round` owes: every access to the mantissa of `f` is to
one of its ten digits, and a number below `2 ^ 63` gives the word of the rounded
integer. `one` is the number at `fone_no`. -/
def RoundsSafely (mode : RoundMode) (one f : Flt) (sg : Bool) : Prop :=
  ∃ g x ov, flptRoundToInteger mode one f = .ok g ∧ fltToF64 g sg = .ok (x, ov) ∧
    (|f.value| < 2 ^ 63 → x.bits = BitVec.ofInt 64 (roundInt mode f.value))

/-- Below one half the mantissa is left alone or replaced. -/
theorem roundsSafely_small {f one : Flt} (h : f.Legal) (hs : f.sign ≠ 0) (hone : one.Is 1)
    (hneg : (ndig0 (f.mant.headD 0) : Int) + f.exp * 16 < 0) (mode : RoundMode) (sg : Bool) :
    RoundsSafely mode one f sg := by
  obtain ⟨hpos, hlt⟩ := abs_value_lt_half h hs hneg
  obtain ⟨hzero, hnear, hpinf, hninf⟩ := roundInt_small hpos hlt
  have hsg := h.sign_cases hs
  have hexp : f.exp < 0 := by omega
  have hmag : (0 : ℚ) < val fbase f.digits * 2 ^ (16 * f.exp - 112) := by
    rw [← abs_value h hs]
    exact hpos
  -- an untouched number counts as zero, for its exponent is negative
  have hkeep : ∃ x ov, fltToF64 f sg = .ok (x, ov) ∧ x.bits = BitVec.ofInt 64 0 := by
    obtain ⟨x, ov, hx, hbits, -⟩ := fltToF64_intPart h.digits_length h.digits_bounded (by omega)
      (by omega) sg
    refine ⟨x, ov, hx, ?_⟩
    rw [hbits, Flt.intPart, if_pos hexp, Nat.cast_zero, mul_zero]
  have hbits : ∀ {g : Flt} {v : Int}, g.Is v → ∃ x ov, fltToF64 g sg = .ok (x, ov) ∧
      x.bits = BitVec.ofInt 64 v := by
    intro g v hg
    obtain ⟨x, ov, hx, hb, -⟩ := fltToF64_is hg sg
    exact ⟨x, ov, hx, hb⟩
  have hcopy := fltCopy_is hone f
  have hminus : Flt.Is { fltCopy one f with sign := -1 } (-1) := by
    have := hcopy.neg
    rwa [hcopy.sign] at this
  have hzero' := hbits (fltZero_is f)
  have hfinish : ∀ (g : Flt) (v : Int), flptRoundToInteger mode one f = .ok g →
      (∃ x ov, fltToF64 g sg = .ok (x, ov) ∧ x.bits = BitVec.ofInt 64 v) →
      roundInt mode f.value = v → RoundsSafely mode one f sg := by
    rintro g v hg ⟨x, ov, hx, hb⟩ hv
    exact ⟨g, x, ov, hg, hx, fun _ => by rw [hb, hv]⟩
  simp only [flptRoundToInteger, if_neg hs, ge_iff_le, if_neg (not_le.2 hneg)] at hfinish
  rcases hsg with h1 | h1
  · have hv : f.value < 0 := by
      rw [Flt.value, h1]
      push_cast
      linarith
    rw [if_neg (by linarith)] at hpinf
    rw [if_pos hv] at hninf
    simp only [h1, show ¬ (-1 : Int) = 1 by decide, if_false, if_true] at hfinish
    cases mode with
    | r2zero => exact hfinish f 0 rfl hkeep hzero
    | r2pinf => exact hfinish _ 0 rfl hzero' hpinf
    | r2ninf => exact hfinish _ (-1) rfl (hbits hminus) hninf
    | r2near => exact hfinish f 0 rfl hkeep hnear
  · have hv : 0 < f.value := by
      rw [Flt.value, h1]
      push_cast
      linarith
    rw [if_pos hv] at hpinf
    rw [if_neg (by linarith)] at hninf
    simp only [h1, show ¬ (1 : Int) = -1 by decide, if_false, if_true] at hfinish
    cases mode with
    | r2zero => exact hfinish f 0 rfl hkeep hzero
    | r2pinf => exact hfinish _ 1 rfl (hbits hcopy) hpinf
    | r2ninf => exact hfinish _ 0 rfl hzero' hninf
    | r2near => exact hfinish f 0 rfl hkeep hnear

theorem fbasePower_zero_is : (fbasePower 0).Is 1 where
  len := rfl
  bounded := (fbasePower_legal (by decide) (by decide)).digits_bounded
  sign := rfl
  val := fun _ => ⟨0, by decide, rfl, by decide, by decide⟩

end Tendra.Ref
