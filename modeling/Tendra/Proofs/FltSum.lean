import Mathlib.Data.Nat.Cast.Field
import Mathlib.Data.Nat.Cast.Order.Field
import Tendra.Proofs.FltArith

/-!
# Sums and differences

The operand of the smaller exponent is shifted to the right and loses the digits
beyond the sixteenth place. The double mantissas hold the integer parts of the
two numbers, in units of that place. A sum of integer parts is rounded like the
sum. A difference is too, unless it starts with a zero: then the digit shifted in
at the end takes the place of one that was dropped.
-/

namespace Tendra.Ref

open Tendra.Digits Tendra.Rounding

variable {f g res : Flt} {d1 d2 : Dbl} {M1 M2 n : Nat} {s s1 s2 e : Int}

/-- What a double mantissa holds. -/
structure Dbl.Has (d : Dbl) (s e : Int) (M : Nat) : Prop where
  len : d.mant.length = 2 * mantSize
  bounded : Bounded fbase d.mant
  sign : d.sign = s
  exp : d.exp = e
  val : val fbase d.mant = M

/-- A mantissa of `MANT_SIZE` digits. -/
structure Flt.Sized (f : Flt) : Prop where
  len : f.digits.length = mantSize
  bounded : Bounded fbase f.digits

theorem Flt.Legal.sized (h : f.Legal) : f.Sized := ⟨h.digits_length, h.digits_bounded⟩

/-- An operand shifted to the exponent of the other. -/
theorem aligned_has (h : f.Sized) {c : Prop} [Decidable c] (hc : ¬ c → n = 0) :
    Dbl.Has (if c then shiftRight (flt2double f) n else flt2double f) f.sign (f.exp + n)
      (val fbase f.digits * fbase ^ 8 / fbase ^ n) := by
  have hlen : (flt2double f).mant.length = 2 * mantSize := by
    simp only [flt2double, List.length_append, h.len, List.length_replicate, mantSize]
  have hb : Bounded fbase (flt2double f).mant :=
    bounded_append.2 ⟨h.bounded, bounded_replicate_zero fbase_pos _⟩
  have hval : val fbase (flt2double f).mant = val fbase f.digits * fbase ^ 8 := by
    rw [flt2double, val_append_zeros]
  split
  · have hb' : Bounded fbase (List.replicate n 0 ++ (flt2double f).mant) :=
      bounded_append.2 ⟨bounded_replicate_zero fbase_pos _, hb⟩
    have hlen' : (List.replicate n 0 ++ (flt2double f).mant).length = n + 2 * mantSize := by
      rw [List.length_append, List.length_replicate, hlen]
    refine ⟨?_, hb'.take _, rfl, rfl, ?_⟩
    · rw [shiftRight, List.length_take, hlen']
      omega
    · rw [shiftRight, val_take hb' (by omega), hlen', val_append, val_replicate_zero, Nat.zero_mul,
        Nat.zero_add, hval, Nat.add_sub_cancel]
  · next hn =>
      rw [hc hn, pow_zero, Nat.div_one]
      exact ⟨hlen, hb, rfl, by simp [flt2double], hval⟩

/-! ## Operands of one sign -/

/-- A carry moves the digits one place to the right. -/
theorem addMantissas_same (h1 : d1.Has s e M1) (h2 : d2.Has s e M2) (hs : s = -1 ∨ s = 1) {y : ℚ}
    (hlow : fbase ^ 15 ≤ M1 + M2) (hy1 : ((M1 + M2 : Nat) : ℚ) ≤ y)
    (hy2 : y < ((M1 + M2 : Nat) : ℚ) + 1) (hres : res.exp = e)
    (hrun : addMantissas d1 d2 res = (.okay, g)) :
    g.value = roundTo halfAway fbase mantSize (s * (y * (fbase : ℚ) ^ (e - 15))) := by
  have hlen : d1.mant.length = d2.mant.length := by rw [h1.len, h2.len]
  have hval := val_add (B := fbase) d1.mant d2.mant hlen
  have hrlen := length_add (B := fbase) d1.mant d2.mant hlen
  have hrb := bounded_add fbase_pos d1.mant d2.mant
  have hM1 := val_lt h1.bounded
  have hM2 := val_lt h2.bounded
  rw [h1.val, h2.val, h1.len] at hval
  rw [h1.len] at hrlen
  rw [h1.val, h1.len] at hM1
  rw [h2.val, h2.len] at hM2
  simp only [addMantissas, h1.sign, h2.sign, if_true, hres] at hrun
  generalize add fbase d1.mant d2.mant = r at hval hrlen hrb hrun
  have hrne : r.1 ≠ [] := by
    intro h0
    rw [h0] at hrlen
    exact absurd hrlen (by decide)
  split at hrun
  · next hc =>
      split at hrun
      · exact absurd (congrArg Prod.fst hrun) (by simp)
      · obtain rfl := congrArg Prod.snd hrun
        have htl : (r.1.take (2 * mantSize - 1)).length = 2 * mantSize - 1 := by
          rw [List.length_take, hrlen]
          decide
        have hcarry : r.2 < fbase := by
          have h2' : r.2 * fbase ^ (2 * mantSize) < 2 * fbase ^ (2 * mantSize) := by omega
          exact (Nat.lt_of_mul_lt_mul_right h2').trans (by decide)
        have hmant : val fbase (r.2 :: r.1.take (2 * mantSize - 1)) = (M1 + M2) / fbase := by
          rw [val_cons, htl, val_take hrb (by rw [hrlen]; decide), hrlen, ← hval,
            show 2 * mantSize - (2 * mantSize - 1) = 1 by decide, pow_one,
            show fbase ^ (2 * mantSize) = fbase ^ (2 * mantSize - 1) * fbase from pow_succ _ 15,
            ← Nat.mul_assoc, Nat.add_mul_div_right _ _ fbase_pos, Nat.add_comm]
        have hdiv := Nat.div_add_mod (M1 + M2) fbase
        have hmod := Nat.mod_lt (M1 + M2) fbase_pos
        rw [← hmant] at hdiv
        have hdivq : (fbase : ℚ) * val fbase (r.2 :: r.1.take (2 * mantSize - 1)) +
            ((M1 + M2) % fbase : Nat) = ((M1 + M2 : Nat) : ℚ) := by exact_mod_cast hdiv
        have hmodq : (((M1 + M2) % fbase : Nat) : ℚ) + 1 ≤ (fbase : ℚ) := by exact_mod_cast hmod
        have hmod0 : (0 : ℚ) ≤ ((M1 + M2) % fbase : Nat) := Nat.cast_nonneg _
        have hscale : y * (fbase : ℚ) ^ (e - 15) = y / fbase * (fbase : ℚ) ^ (e + 1 - 15) := by
          rw [show e + 1 - 15 = e - 15 + 1 by ring, zpow_add_one₀ fbase_ne_zero]
          field_simp
        rw [hscale]
        refine dbl2float_rounds (by rw [List.length_cons, htl]; decide)
          (bounded_cons.2 ⟨hcarry, hrb.take _⟩) hc ?_ ?_ hs _ _
        · rw [le_div_iff₀ fbase_cast_pos]
          linarith
        · rw [div_lt_iff₀ fbase_cast_pos]
          linarith
  · next hc =>
      obtain rfl := congrArg Prod.snd hrun
      rw [not_not.1 hc, Nat.zero_mul, Nat.add_zero] at hval
      have hhead : r.1.headD 0 ≠ 0 := by
        rw [headD_ne_zero_iff hrb hrne, hrlen, hval]
        exact hlow
      rw [← hval] at hy1 hy2
      exact dbl2float_rounds hrlen hrb hhead hy1 hy2 hs _ _

/-! ## Operands of opposite signs -/

theorem dblMagCmp_has (h1 : d1.Has s1 e M1) (h2 : d2.Has s2 e M2) (hs1 : s1 ≠ 0) (hs2 : s2 ≠ 0) :
    dblMagCmp d1 d2 = Digits.cmp d1.mant d2.mant := by
  rw [dblMagCmp, magnitudeCmp, h1.sign, h2.sign, h1.exp, h2.exp, if_neg hs1, if_neg hs2,
    if_neg (by simp)]

theorem subMantissas_equal {M : Nat} (h1 : d1.Has s1 e M) (h2 : d2.Has s2 e M) (hs1 : s1 ≠ 0)
    (hs2 : s2 ≠ 0) (res : Flt) : subMantissas d1 d2 res = (.okay, fltZero res) := by
  have hlen : d1.mant.length = d2.mant.length := by rw [h1.len, h2.len]
  have heq : d1.mant = d2.mant :=
    val_inj h1.bounded h2.bounded hlen (by rw [h1.val, h2.val])
  have hcmp := (cmp_eq_iff hlen).2 heq
  rw [subMantissas, dblMagCmp_has h1 h2 hs1 hs2, hcmp]
  rfl

/-- The smaller mantissa is taken from the larger one. -/
theorem sub_has (h1 : d1.Has s1 e M1) (h2 : d2.Has s2 e M2) (hle : M2 ≤ M1) :
    (sub fbase d1.mant d2.mant).1.length = 2 * mantSize ∧
      Bounded fbase (sub fbase d1.mant d2.mant).1 ∧
      val fbase (sub fbase d1.mant d2.mant).1 = M1 - M2 := by
  have hlen : d1.mant.length = d2.mant.length := by rw [h1.len, h2.len]
  have hborrow : (sub fbase d1.mant d2.mant).2 = 0 := by
    have h01 := sub_borrow_le (B := fbase) d1.mant d2.mant
    have hiff := sub_borrow_iff hlen h1.bounded h2.bounded
    rw [h1.val, h2.val] at hiff
    omega
  have hval := val_sub hlen h2.bounded
  rw [hborrow, Nat.zero_mul, Nat.add_zero, h1.val, h2.val] at hval
  exact ⟨by rw [length_sub _ _ hlen, h1.len], bounded_sub h1.bounded h2.bounded, by omega⟩

theorem subMantissas_spec (h1 : d1.Has s1 e M1) (h2 : d2.Has s2 e M2) (hs1 : s1 ≠ 0) (hs2 : s2 ≠ 0)
    (hne : M1 ≠ M2) (hres : res.exp = e) :
    ∃ c : List Nat, c.length = 2 * mantSize ∧ Bounded fbase c ∧
      val fbase c = (if M1 < M2 then M2 - M1 else M1 - M2) ∧
      (normalise (e - eMin).toNat c e = none → subMantissas d1 d2 res = (.exp2big, res)) ∧
      ∀ m e', normalise (e - eMin).toNat c e = some (m, e') →
        subMantissas d1 d2 res =
          (.okay, dbl2float ⟨m, if M1 < M2 then s2 else s1, e'⟩ res) := by
  have hlen : d1.mant.length = d2.mant.length := by rw [h1.len, h2.len]
  have hcmpeq : Digits.cmp d1.mant d2.mant ≠ .eq := by
    intro h
    exact hne (by rw [← h1.val, ← h2.val, (cmp_eq_iff hlen).1 h])
  have hcmplt := cmp_lt_iff hlen h1.bounded h2.bounded
  rw [h1.val, h2.val] at hcmplt
  by_cases hlt : M1 < M2
  · obtain ⟨hl, hb, hv⟩ := sub_has h2 h1 hlt.le
    simp only [subMantissas, dblMagCmp_has h1 h2 hs1 hs2, hcmplt.2 hlt, if_true, hres, if_pos hlt,
      h2.sign]
    exact ⟨_, hl, hb, hv, fun h => by rw [h]; rfl, fun m e' h => by rw [h]; rfl⟩
  · obtain ⟨hl, hb, hv⟩ := sub_has h1 h2 (by omega)
    simp only [subMantissas, dblMagCmp_has h1 h2 hs1 hs2, if_neg hcmpeq, if_neg (mt hcmplt.1 hlt),
      hres, if_neg hlt, h1.sign]
    exact ⟨_, hl, hb, hv, fun h => by rw [h], fun m e' h => by rw [h]⟩

/-- A difference that is not small has room for its exponent. -/
theorem subMantissas_okay (h1 : d1.Has s1 e M1) (h2 : d2.Has s2 e M2) (hs1 : s1 ≠ 0) (hs2 : s2 ≠ 0)
    (he : eMin < e) (hbig : M1 + fbase ^ 14 ≤ M2 ∨ M2 + fbase ^ 14 ≤ M1) (hres : res.exp = e) :
    ∃ g, subMantissas d1 d2 res = (.okay, g) := by
  have hpos := fbase_pow_pos 14
  obtain ⟨c, hl, hb, hv, -, hsome⟩ := subMantissas_spec h1 h2 hs1 hs2 (by omega) hres
  have hne : c ≠ [] := by
    rintro rfl
    exact absurd hl (by decide)
  have hge : fbase ^ 14 ≤ val fbase c := by
    rw [hv]
    split <;> omega
  have hroom : fbase ^ (c.length - 1) ≤ val fbase c * fbase ^ (e - eMin).toNat := by
    rw [hl]
    calc fbase ^ 15 = fbase ^ 14 * fbase ^ 1 := pow_add fbase 14 1
      _ ≤ val fbase c * fbase ^ (e - eMin).toNat :=
          Nat.mul_le_mul hge (Nat.pow_le_pow_right fbase_pos (by omega))
  obtain ⟨k, m, hm, -⟩ := normalise_spec hb hne hroom
  exact ⟨_, hsome m _ hm⟩

/-- The difference of what the mantissas hold is rounded. -/
theorem subMantissas_value (h1 : d1.Has s e M1) (h2 : d2.Has (-s) e M2) (hs : s = -1 ∨ s = 1)
    (hres : res.exp = e) (hrun : subMantissas d1 d2 res = (.okay, g)) :
    g.value = roundTo halfAway fbase mantSize
      (s * (((M1 : ℚ) - M2) * (fbase : ℚ) ^ (e - 15))) := by
  have hs0 : s ≠ 0 := by omega
  by_cases heq : M1 = M2
  · subst heq
    rw [subMantissas_equal h1 h2 hs0 (by omega)] at hrun
    obtain rfl := congrArg Prod.snd hrun
    rw [sub_self, zero_mul, mul_zero, roundTo_zero _ _ _ (by norm_num [halfAway])]
    exact value_of_sign_zero rfl
  · obtain ⟨c, hl, hb, hv, hnone, hsome⟩ := subMantissas_spec h1 h2 hs0 (by omega) heq hres
    cases hm : normalise (e - eMin).toNat c e with
    | none =>
        rw [hnone hm] at hrun
        exact absurd (congrArg Prod.fst hrun) (by simp)
    | some me =>
        obtain ⟨m, e'⟩ := me
        rw [hsome m e' hm] at hrun
        obtain rfl := congrArg Prod.snd hrun
        have hne : c ≠ [] := by
          rintro rfl
          exact absurd hl (by decide)
        obtain ⟨k, he, hml, hmb, hmv, hhead⟩ := normalise_some hb hne hm
        have hk : (fbase : ℚ) ^ (e - 15) = (fbase : ℚ) ^ k * (fbase : ℚ) ^ (e' - 15) := by
          rw [← zpow_natCast, ← zpow_add₀ fbase_ne_zero, he]
          congr 1
          ring
        rw [dbl2float_rounds (hml.trans hl) hmb hhead le_rfl (lt_add_one _)
          (by split <;> omega) e' res, hmv, hv, hk]
        congr 1
        by_cases hlt : M1 < M2
        · rw [if_pos hlt, if_pos hlt]
          push_cast [hlt.le]
          ring
        · rw [if_neg hlt, if_neg hlt]
          push_cast [not_lt.1 hlt]
          ring

/-! ## What the dropped digits decide -/

/-- A number close below a mantissa with eight zeros is rounded to it, if it has as
many digits. -/
theorem round_below {V : Nat} {t : ℚ} (hV : V < fbase ^ 8) (h0 : 0 ≤ t) (ht : t ≤ fbase ^ 7)
    (hlow : (fbase : ℚ) ^ 15 ≤ V * (fbase : ℚ) ^ 8 - t) (e : Int) :
    roundTo halfAway fbase mantSize ((V * (fbase : ℚ) ^ 8 - t) * (fbase : ℚ) ^ (e - 15)) =
      V * (fbase : ℚ) ^ (e - 7) := by
  have hVq : (V : ℚ) + 1 ≤ (fbase : ℚ) ^ 8 := by exact_mod_cast hV
  have hround : halfAway ((V * (fbase : ℚ) ^ 8 - t) / (fbase ^ 8 : Nat)) = V := by
    have hsplit : (V * (fbase : ℚ) ^ 8 - t) / (fbase ^ 8 : Nat) = V - t / (fbase : ℚ) ^ 8 := by
      push_cast
      field_simp
    have hsmall : t / (fbase : ℚ) ^ 8 ≤ 1 / 2 := by
      rw [div_le_iff₀ (pow_pos fbase_cast_pos 8)]
      refine ht.trans ?_
      norm_num
    have hpos : 0 ≤ t / (fbase : ℚ) ^ 8 := div_nonneg h0 (pow_pos fbase_cast_pos 8).le
    rw [hsplit]
    refine halfAway_eq ?_ (by linarith) (by linarith)
    rw [← hsplit]
    exact div_nonneg (le_trans (pow_pos fbase_cast_pos 15).le hlow) (Nat.cast_nonneg _)
  rw [roundTo_scaled (d := 8) (e - 15) (by decide), hround,
    show e - 15 + ((8 : Nat) : Int) = e - 7 by ring]
  · push_cast
    rfl
  · calc (fbase : ℚ) ^ (mantSize + 8) = fbase ^ 15 * fbase := pow_succ ..
      _ ≤ _ := mul_le_mul_of_nonneg_right hlow fbase_cast_pos.le
  · calc V * (fbase : ℚ) ^ 8 - t ≤ V * (fbase : ℚ) ^ 8 := by linarith
      _ < (fbase : ℚ) ^ 8 * (fbase : ℚ) ^ 8 := by
          refine mul_lt_mul_of_pos_right (by linarith) (pow_pos fbase_cast_pos 8)
      _ = (fbase : ℚ) ^ (mantSize + 8) := (pow_add ..).symm

/-- Below a power of the base there is one more digit before the rounding. -/
theorem round_below_power {t : ℚ} (h0 : 0 ≤ t) (ht : t < fbase ^ 7) (e : Int) :
    roundTo halfAway fbase mantSize
        (((fbase ^ 7 : Nat) * (fbase : ℚ) ^ 8 - t) * (fbase : ℚ) ^ (e - 15)) =
      (if t * fbase ≤ (fbase : ℚ) ^ 8 / 2 then (fbase : ℚ) ^ 8 else (fbase : ℚ) ^ 8 - 1) *
        (fbase : ℚ) ^ (e - 8) := by
  have hpow : (fbase : ℚ) ^ (e - 7) = (fbase : ℚ) ^ (e - 8) * fbase := by
    rw [← zpow_add_one₀ fbase_ne_zero]
    congr 1
    ring
  rcases h0.eq_or_lt with rfl | hpos
  · rw [round_below (by norm_num) le_rfl (by positivity) (by push_cast; norm_num), zero_mul,
      if_pos (by positivity), hpow]
    push_cast
    ring
  · have hscale : ((fbase ^ 7 : Nat) * (fbase : ℚ) ^ 8 - t) * (fbase : ℚ) ^ (e - 15) =
        ((fbase : ℚ) ^ 16 - t * fbase) * (fbase : ℚ) ^ (e - 16) := by
      rw [show e - 15 = e - 16 + 1 by ring, zpow_add_one₀ fbase_ne_zero]
      push_cast
      ring
    have hround : halfAway (((fbase : ℚ) ^ 16 - t * fbase) / (fbase ^ 8 : Nat)) =
        (if t * fbase ≤ (fbase : ℚ) ^ 8 / 2 then fbase ^ 8 else fbase ^ 8 - 1 : Nat) := by
      have hsplit : ((fbase : ℚ) ^ 16 - t * fbase) / (fbase ^ 8 : Nat) =
          (fbase : ℚ) ^ 8 - t * fbase / (fbase : ℚ) ^ 8 := by
        push_cast
        field_simp
      have hlt : t * fbase / (fbase : ℚ) ^ 8 < 1 := by
        rw [div_lt_one (pow_pos fbase_cast_pos 8)]
        calc t * fbase < (fbase : ℚ) ^ 7 * fbase := mul_lt_mul_of_pos_right ht fbase_cast_pos
          _ = (fbase : ℚ) ^ 8 := (pow_succ ..).symm
      have hge : 0 ≤ t * fbase / (fbase : ℚ) ^ 8 := by positivity
      have h1 : (1 : ℚ) ≤ (fbase : ℚ) ^ 8 := by norm_num
      rw [hsplit]
      split
      · next hle =>
          have hhalf : t * fbase / (fbase : ℚ) ^ 8 ≤ 1 / 2 := by
            rw [div_le_iff₀ (pow_pos fbase_cast_pos 8)]
            linarith
          refine halfAway_eq (by linarith) ?_ ?_
          · push_cast
            linarith
          · push_cast
            linarith
      · next hgt =>
          have hhalf : 1 / 2 < t * fbase / (fbase : ℚ) ^ 8 := by
            rw [lt_div_iff₀ (pow_pos fbase_cast_pos 8)]
            linarith
          refine halfAway_eq (by linarith) ?_ ?_
          · rw [Nat.cast_sub (Nat.one_le_pow _ _ fbase_pos)]
            push_cast
            linarith
          · rw [Nat.cast_sub (Nat.one_le_pow _ _ fbase_pos)]
            push_cast
            linarith
    rw [hscale, roundTo_scaled (d := 8) (e - 16) (by decide), hround,
      show e - 16 + ((8 : Nat) : Int) = e - 8 by ring]
    · congr 1
      split
      · push_cast
        rfl
      · rw [Int.cast_natCast, Nat.cast_sub (Nat.one_le_pow _ _ fbase_pos)]
        push_cast
        rfl
    · have : t * fbase ≤ (fbase : ℚ) ^ 8 := by
        calc t * fbase ≤ (fbase : ℚ) ^ 7 * fbase :=
          mul_le_mul_of_nonneg_right ht.le fbase_cast_pos.le
          _ = (fbase : ℚ) ^ 8 := (pow_succ ..).symm
      have hnum : (fbase : ℚ) ^ (mantSize + 8) ≤ ((fbase : ℚ) ^ 16 - (fbase : ℚ) ^ 8) * fbase := by
        norm_num
      refine hnum.trans (mul_le_mul_of_nonneg_right (by linarith) fbase_cast_pos.le)
    · have : 0 < t * fbase := mul_pos hpos fbase_cast_pos
      change (fbase : ℚ) ^ 16 - t * fbase < (fbase : ℚ) ^ 16
      linarith

/-- The last digit of the smaller operand, the only one that is dropped, decides the
rounding: the larger operand is a power of the base, nine places above, so that the
difference starts with a zero, and what is kept of the smaller one is half a unit. -/
def Drops (big small : Flt) : Prop :=
  big.exp = small.exp + 9 ∧ val fbase big.digits = fbase ^ 7 ∧
    fbase ^ 8 / 2 < val fbase small.digits ∧ val fbase small.digits < fbase ^ 8 / 2 + fbase

theorem digit_dropped {v h : Nat} :
    v / 65536 * 65536 ≤ 65536 * h ∧ ¬ v ≤ 65536 * h ↔
      65536 * h < v ∧ v < 65536 * h + 65536 := by
  omega

/-- The integer part of the smaller operand does for the rounding, but for one case. -/
theorem round_dropped_iff {V1 V2 : Nat} (hV1 : fbase ^ 7 ≤ V1) (hV1' : V1 < fbase ^ 8)
    (hV2' : V2 < fbase ^ 8) (hn : 9 ≤ n) (e : Int) :
    roundTo halfAway fbase mantSize
        ((V1 * (fbase : ℚ) ^ 8 - (V2 * fbase ^ 8 / fbase ^ n : Nat)) * (fbase : ℚ) ^ (e - 15)) =
      roundTo halfAway fbase mantSize
        ((V1 * (fbase : ℚ) ^ 8 - V2 * (fbase : ℚ) ^ 8 / (fbase : ℚ) ^ n) *
          (fbase : ℚ) ^ (e - 15)) ↔
      ¬ (V1 = fbase ^ 7 ∧ n = 9 ∧ fbase ^ 8 / 2 < V2 ∧ V2 < fbase ^ 8 / 2 + fbase) := by
  have hBpos := fbase_cast_pos
  have hV2q : (V2 : ℚ) < (fbase : ℚ) ^ 8 := by exact_mod_cast hV2'
  obtain ⟨k, rfl⟩ : ∃ k, n = 9 + k := ⟨n - 9, by omega⟩
  -- both numbers are below one seventh-place unit
  have hpow : (fbase : ℚ) ^ (9 + k) = (fbase : ℚ) ^ 9 * (fbase : ℚ) ^ k := pow_add ..
  have hk1 : (1 : ℚ) ≤ (fbase : ℚ) ^ k := one_le_pow₀ (by norm_num)
  have hexact : V2 * (fbase : ℚ) ^ 8 / (fbase : ℚ) ^ (9 + k) < (fbase : ℚ) ^ 7 := by
    rw [div_lt_iff₀ (pow_pos hBpos _), hpow]
    calc V2 * (fbase : ℚ) ^ 8 < (fbase : ℚ) ^ 8 * (fbase : ℚ) ^ 8 :=
          mul_lt_mul_of_pos_right hV2q (pow_pos hBpos 8)
      _ = (fbase : ℚ) ^ 7 * ((fbase : ℚ) ^ 9 * 1) := by ring
      _ ≤ (fbase : ℚ) ^ 7 * ((fbase : ℚ) ^ 9 * (fbase : ℚ) ^ k) := by gcongr
  have hfloor : ((V2 * fbase ^ 8 / fbase ^ (9 + k) : Nat) : ℚ) ≤
      V2 * (fbase : ℚ) ^ 8 / (fbase : ℚ) ^ (9 + k) := by
    have := Nat.cast_div_le (α := ℚ) (m := V2 * fbase ^ 8) (n := fbase ^ (9 + k))
    push_cast at this ⊢
    exact this
  have h0 : (0 : ℚ) ≤ ((V2 * fbase ^ 8 / fbase ^ (9 + k) : Nat) : ℚ) := Nat.cast_nonneg _
  have h0' := h0.trans hfloor
  by_cases hone : V1 = fbase ^ 7
  · subst hone
    rw [round_below_power h0 (lt_of_le_of_lt hfloor hexact), round_below_power h0' hexact]
    have hw : (0 : ℚ) < (fbase : ℚ) ^ (e - 8) := zpow_pos hBpos _
    rw [mul_left_inj' hw.ne']
    have hiff : (((V2 * fbase ^ 8 / fbase ^ (9 + k) : Nat) : ℚ) * fbase ≤ (fbase : ℚ) ^ 8 / 2 ∧
        ¬ V2 * (fbase : ℚ) ^ 8 / (fbase : ℚ) ^ (9 + k) * fbase ≤ (fbase : ℚ) ^ 8 / 2) ↔
        (9 + k = 9 ∧ fbase ^ 8 / 2 < V2 ∧ V2 < fbase ^ 8 / 2 + fbase) := by
      have hH : ((fbase ^ 8 / 2 : Nat) : ℚ) = (fbase : ℚ) ^ 8 / 2 := by norm_num
      cases k with
      | zero =>
          have hnat : V2 * fbase ^ 8 / fbase ^ (9 + 0) = V2 / fbase :=
            Nat.mul_div_mul_right V2 fbase (fbase_pow_pos 8)
          have hrat : V2 * (fbase : ℚ) ^ 8 / (fbase : ℚ) ^ (9 + 0) * fbase = V2 := by
            field_simp
          rw [hnat, hrat, ← hH]
          norm_cast
          rw [and_iff_right rfl, show fbase ^ 8 / 2 = 65536 * (fbase ^ 7 / 2) by norm_num]
          exact digit_dropped
      | succ k =>
          refine iff_of_false (fun h => h.2 ?_) (fun h => by omega)
          have hk : (1 : ℚ) ≤ (fbase : ℚ) ^ k := one_le_pow₀ (by norm_num)
          calc V2 * (fbase : ℚ) ^ 8 / (fbase : ℚ) ^ (9 + (k + 1)) * fbase
              = V2 / ((fbase : ℚ) ^ k * fbase) := by
                field_simp
                ring
            _ ≤ (fbase : ℚ) ^ 8 / (1 * fbase) := by gcongr
            _ ≤ (fbase : ℚ) ^ 8 / 2 := by norm_num
    have hmono : V2 * (fbase : ℚ) ^ 8 / (fbase : ℚ) ^ (9 + k) * fbase ≤ (fbase : ℚ) ^ 8 / 2 →
        ((V2 * fbase ^ 8 / fbase ^ (9 + k) : Nat) : ℚ) * fbase ≤ (fbase : ℚ) ^ 8 / 2 :=
      (mul_le_mul_of_nonneg_right hfloor hBpos.le).trans
    have hdiff : (fbase : ℚ) ^ 8 ≠ (fbase : ℚ) ^ 8 - 1 := by norm_num
    rw [and_iff_right rfl, ← hiff]
    by_cases hq : V2 * (fbase : ℚ) ^ 8 / (fbase : ℚ) ^ (9 + k) * fbase ≤ (fbase : ℚ) ^ 8 / 2
    · rw [if_pos hq, if_pos (hmono hq)]
      exact iff_of_true rfl (fun h => h.2 hq)
    · rw [if_neg hq]
      split
      · next hp => exact iff_of_false hdiff (fun h => h ⟨hp, hq⟩)
      · next hp => exact iff_of_true rfl (fun h => hp h.1)
  · have hbig : (fbase : ℚ) ^ 7 + 1 ≤ V1 := by exact_mod_cast (by omega : fbase ^ 7 + 1 ≤ V1)
    have hlow : ∀ t : ℚ, t ≤ (fbase : ℚ) ^ 7 → (fbase : ℚ) ^ 15 ≤ V1 * (fbase : ℚ) ^ 8 - t := by
      intro t ht
      have := mul_le_mul_of_nonneg_right hbig (pow_pos hBpos 8).le
      have hnum : (fbase : ℚ) ^ 15 + (fbase : ℚ) ^ 7 ≤ ((fbase : ℚ) ^ 7 + 1) * (fbase : ℚ) ^ 8 := by
        norm_num
      linarith
    rw [round_below hV1' h0 (hfloor.trans hexact.le) (hlow _ (hfloor.trans hexact.le)),
      round_below hV1' h0' hexact.le (hlow _ hexact.le)]
    exact iff_of_true rfl (fun h => hone h.1)

theorem sign_cancel (hs : s = -1 ∨ s = 1) {x y : ℚ} : (s : ℚ) * x = s * y ↔ x = y := by
  refine mul_right_inj' ?_
  rcases hs with rfl | rfl <;> norm_num

theorem signed_dropped_iff (hs : s = -1 ∨ s = 1) {V1 V2 : Nat} (hV1 : fbase ^ 7 ≤ V1)
    (hV1' : V1 < fbase ^ 8) (hV2' : V2 < fbase ^ 8) (hn : 9 ≤ n) (e : Int) :
    roundTo halfAway fbase mantSize
        (s * ((V1 * (fbase : ℚ) ^ 8 - (V2 * fbase ^ 8 / fbase ^ n : Nat)) *
          (fbase : ℚ) ^ (e - 15))) =
      roundTo halfAway fbase mantSize
        (s * ((V1 * (fbase : ℚ) ^ 8 - V2 * (fbase : ℚ) ^ 8 / (fbase : ℚ) ^ n) *
          (fbase : ℚ) ^ (e - 15))) ↔
      ¬ (V1 = fbase ^ 7 ∧ n = 9 ∧ fbase ^ 8 / 2 < V2 ∧ V2 < fbase ^ 8 / 2 + fbase) := by
  rw [roundTo_sign halfAway_neg hs, roundTo_sign halfAway_neg hs, sign_cancel hs,
    round_dropped_iff hV1 hV1' hV2' hn]

/-! ## `flt_add` and `flt_sub` -/

/-- A number in units of the sixteenth place at the exponent `e`. -/
theorem value_units (he : f.exp + n = e) :
    f.value = f.sign * (val fbase f.digits * (fbase : ℚ) ^ 8 / (fbase : ℚ) ^ n *
      (fbase : ℚ) ^ (e - 15)) := by
  have hpow : (fbase : ℚ) ^ (e - 15) * (fbase : ℚ) ^ 8 =
      (fbase : ℚ) ^ (f.exp - 7) * (fbase : ℚ) ^ n := by
    rw [← zpow_natCast, ← zpow_natCast, ← zpow_add₀ fbase_ne_zero, ← zpow_add₀ fbase_ne_zero, ← he]
    congr 1
    push_cast
    ring
  have hn : (fbase : ℚ) ^ n ≠ 0 := pow_ne_zero n fbase_ne_zero
  rw [value_fbase, div_mul_eq_mul_div, mul_assoc _ ((fbase : ℚ) ^ 8), mul_comm ((fbase : ℚ) ^ 8),
    hpow, mul_div_assoc, mul_div_assoc, div_self hn, mul_one]

theorem floor_units (V n : Nat) :
    ((V * fbase ^ 8 / fbase ^ n : Nat) : ℚ) ≤ V * (fbase : ℚ) ^ 8 / (fbase : ℚ) ^ n ∧
      V * (fbase : ℚ) ^ 8 / (fbase : ℚ) ^ n < ((V * fbase ^ 8 / fbase ^ n : Nat) : ℚ) + 1 := by
  constructor
  · have := Nat.cast_div_le (α := ℚ) (m := V * fbase ^ 8) (n := fbase ^ n)
    push_cast at this ⊢
    exact this
  · rw [div_lt_iff₀ (pow_pos fbase_cast_pos n), mul_comm _ ((fbase : ℚ) ^ n)]
    exact_mod_cast Nat.lt_mul_div_succ (V * fbase ^ 8) (fbase_pow_pos n)

/-- Both operands at the larger of the two exponents. -/
theorem fltAdd_aligned {f1 f2 : Flt} (h1 : f1.Sized) (h2 : f2.Sized) (hs1 : f1.sign ≠ 0)
    (hs2 : f2.sign ≠ 0) (res : Flt) :
    ∃ (d1 d2 : Dbl) (n1 n2 : Nat), (n1 = 0 ∨ n2 = 0) ∧ f1.exp + n1 = f2.exp + n2 ∧
      d1.Has f1.sign (f1.exp + n1) (val fbase f1.digits * fbase ^ 8 / fbase ^ n1) ∧
      d2.Has f2.sign (f1.exp + n1) (val fbase f2.digits * fbase ^ 8 / fbase ^ n2) ∧
      fltAdd f1 f2 res = addMantissas d1 d2 { res with exp := f1.exp + n1 } := by
  have hx1 : (flt2double f1).exp = f1.exp := rfl
  have hx2 : (flt2double f2).exp = f2.exp := rfl
  have ha1 := aligned_has h1 (n := (f2.exp - f1.exp).toNat) (c := f1.exp < f2.exp) (by omega)
  have ha2 := aligned_has h2 (n := (f1.exp - f2.exp).toNat) (c := f1.exp > f2.exp) (by omega)
  have hexp : f2.exp + (f1.exp - f2.exp).toNat = f1.exp + (f2.exp - f1.exp).toNat := by omega
  rw [hexp] at ha2
  refine ⟨_, _, _, _, by omega, hexp.symm, ha1, ha2, ?_⟩
  rw [fltAdd, if_neg hs1, if_neg hs2]
  dsimp only
  rw [hx1, hx2, ha1.exp]

section Sum

variable {f1 f2 : Flt} (h1 : f1.Legal) (h2 : f2.Legal) (hs1 : f1.sign ≠ 0) (hs2 : f2.sign ≠ 0)
include h1 h2 hs1 hs2

/-- Operands of one sign are added and rounded. -/
theorem fltAdd_same (hsame : f1.sign = f2.sign) {res g : Flt}
    (hrun : fltAdd f1 f2 res = (.okay, g)) :
    g.value = roundTo halfAway fbase mantSize (f1.value + f2.value) := by
  obtain ⟨d1, d2, n1, n2, hn, hexp, ha1, ha2, hadd⟩ := fltAdd_aligned h1.sized h2.sized hs1 hs2 res
  rw [hadd] at hrun
  rw [← hsame] at ha2
  have hV1 : fbase ^ 15 ≤ val fbase f1.digits * fbase ^ 8 :=
    (pow_add fbase 7 8).le.trans (Nat.mul_le_mul_right _ (h1.digits_range hs1).1)
  have hV2 : fbase ^ 15 ≤ val fbase f2.digits * fbase ^ 8 :=
    (pow_add fbase 7 8).le.trans (Nat.mul_le_mul_right _ (h2.digits_range hs2).1)
  obtain ⟨hle1, hlt1⟩ := floor_units (val fbase f1.digits) n1
  obtain ⟨hle2, hlt2⟩ := floor_units (val fbase f2.digits) n2
  rw [value_units (f := f1) (n := n1) rfl, value_units (f := f2) hexp.symm, ← hsame, ← mul_add,
    ← add_mul]
  refine addMantissas_same ha1 ha2 (h1.sign_cases hs1) ?_ ?_ ?_ rfl hrun
  · rcases hn with rfl | rfl
    · rw [pow_zero, Nat.div_one]
      exact Nat.le_add_right_of_le hV1
    · rw [pow_zero (M := Nat), Nat.div_one]
      exact Nat.le_add_left_of_le hV2
  · rw [Nat.cast_add]
    exact add_le_add hle1 hle2
  · rw [Nat.cast_add]
    rcases hn with rfl | rfl
    · simp only [pow_zero, Nat.div_one, div_one, Nat.cast_mul, Nat.cast_pow] at hlt2 ⊢
      linarith
    · simp only [pow_zero, Nat.div_one, div_one, Nat.cast_mul, Nat.cast_pow] at hlt1 ⊢
      linarith

/-- Operands of opposite signs: the result is the difference of what is kept. -/
theorem fltAdd_opposite (hopp : f2.sign = -f1.sign) {res g : Flt}
    (hrun : fltAdd f1 f2 res = (.okay, g)) :
    g.value = roundTo halfAway fbase mantSize (f1.value + f2.value) ↔
      ¬ (Drops f1 f2 ∨ Drops f2 f1) := by
  obtain ⟨d1, d2, n1, n2, hn, hexp, ha1, ha2, hadd⟩ := fltAdd_aligned h1.sized h2.sized hs1 hs2 res
  have hsg := h1.sign_cases hs1
  rw [hadd, addMantissas, if_neg (by rw [ha1.sign, ha2.sign]; omega)] at hrun
  rw [hopp] at ha2
  obtain ⟨hV1, hV1'⟩ := h1.digits_range hs1
  obtain ⟨hV2, hV2'⟩ := h2.digits_range hs2
  rw [subMantissas_value ha1 ha2 hsg rfl hrun, value_units (f := f1) (n := n1) rfl,
    value_units (f := f2) hexp.symm, hopp]
  by_cases hfar2 : 9 ≤ n2
  · obtain rfl : n1 = 0 := by omega
    have hdrop : (Drops f1 f2 ∨ Drops f2 f1) ↔ (val fbase f1.digits = fbase ^ 7 ∧ n2 = 9 ∧
        fbase ^ 8 / 2 < val fbase f2.digits ∧ val fbase f2.digits < fbase ^ 8 / 2 + fbase) := by
      constructor
      · rintro (⟨h, hrest⟩ | ⟨h, -⟩)
        · exact ⟨hrest.1, by omega, hrest.2⟩
        · omega
      · rintro ⟨h, rfl, hrest⟩
        exact .inl ⟨by omega, h, hrest⟩
    rw [hdrop, ← signed_dropped_iff hsg hV1 hV1' hV2' hfar2 (f1.exp + (0 : Nat))]
    simp only [pow_zero, Nat.div_one, div_one, Nat.cast_mul, Nat.cast_pow, Int.cast_neg, neg_mul,
      ← sub_eq_add_neg, ← mul_sub, ← sub_mul]
  · by_cases hfar1 : 9 ≤ n1
    · obtain rfl : n2 = 0 := by omega
      have hdrop : (Drops f1 f2 ∨ Drops f2 f1) ↔ (val fbase f2.digits = fbase ^ 7 ∧ n1 = 9 ∧
          fbase ^ 8 / 2 < val fbase f1.digits ∧ val fbase f1.digits < fbase ^ 8 / 2 + fbase) := by
        constructor
        · rintro (⟨h, -⟩ | ⟨h, hrest⟩)
          · omega
          · exact ⟨hrest.1, by omega, hrest.2⟩
        · rintro ⟨h, rfl, hrest⟩
          exact .inr ⟨by omega, h, hrest⟩
      have hneg : -f1.sign = -1 ∨ -f1.sign = 1 := by omega
      have hswap : ∀ a b w : ℚ, (f1.sign : ℚ) * ((a - b) * w) =
          ((-f1.sign : Int) : ℚ) * ((b - a) * w) := by
        intro a b w
        push_cast
        ring
      rw [hdrop, ← signed_dropped_iff hneg hV2 hV2' hV1' hfar1 (f1.exp + n1), hswap]
      simp only [pow_zero, Nat.div_one, div_one, Nat.cast_mul, Nat.cast_pow]
      rw [← hswap, ← hswap, Int.cast_neg, neg_mul, ← sub_eq_add_neg, ← mul_sub, ← sub_mul]
    · have hexact : ∀ V n : Nat, n ≤ 8 → ((V * fbase ^ 8 / fbase ^ n : Nat) : ℚ) =
          V * (fbase : ℚ) ^ 8 / (fbase : ℚ) ^ n := by
        intro V n hn8
        have hdvd : fbase ^ n ∣ V * fbase ^ 8 := Dvd.dvd.mul_left (pow_dvd_pow _ hn8) V
        rw [Nat.cast_div hdvd (by exact_mod_cast (fbase_pow_pos n).ne')]
        push_cast
        rfl
      rw [hexact _ _ (by omega), hexact _ _ (by omega)]
      refine iff_of_true ?_ ?_
      · congr 1
        push_cast
        ring
      · rintro (⟨h, -⟩ | ⟨h, -⟩) <;> omega

/-- The sum of two numbers other than zero. -/
theorem fltAdd_value_iff {res g : Flt} (hrun : fltAdd f1 f2 res = (.okay, g)) :
    g.value = roundTo halfAway fbase mantSize (f1.value + f2.value) ↔
      ¬ (f2.sign = -f1.sign ∧ (Drops f1 f2 ∨ Drops f2 f1)) := by
  by_cases hopp : f2.sign = -f1.sign
  · rw [fltAdd_opposite h1 h2 hs1 hs2 hopp hrun, and_iff_right hopp]
  · have hsame : f1.sign = f2.sign := by
      have := h1.sign_cases hs1
      have := h2.sign_cases hs2
      omega
    exact iff_of_true (fltAdd_same h1 h2 hs1 hs2 hsame hrun) (fun h => hopp h.1)

/-- Where a dropped digit decides, the call does return `OKAY`. -/
theorem fltAdd_okay (hopp : f2.sign = -f1.sign) (hdrop : Drops f1 f2 ∨ Drops f2 f1) (res : Flt) :
    ∃ g, fltAdd f1 f2 res = (.okay, g) := by
  obtain ⟨d1, d2, n1, n2, hn, hexp, ha1, ha2, hadd⟩ := fltAdd_aligned h1.sized h2.sized hs1 hs2 res
  have hsg := h1.sign_cases hs1
  rw [hadd, addMantissas, if_neg (by rw [ha1.sign, ha2.sign]; omega)]
  have hmin1 := h1.range.1
  have hmin2 := h2.range.1
  have hnum : ∀ {V W : Nat}, V = fbase ^ 7 → W < fbase ^ 8 →
      W * fbase ^ 8 / fbase ^ 9 + fbase ^ 14 ≤ V * fbase ^ 8 / fbase ^ 0 := by
    intro V W hV hW
    rw [hV, pow_zero, Nat.div_one, show W * fbase ^ 8 / fbase ^ 9 = W / fbase from
      Nat.mul_div_mul_right W fbase (fbase_pow_pos 8)]
    have : W / fbase < fbase ^ 7 := Nat.div_lt_of_lt_mul hW
    exact le_trans (Nat.add_le_add_right this.le _) (by norm_num)
  rcases hdrop with ⟨he, hV, -⟩ | ⟨he, hV, -⟩
  · obtain ⟨rfl, rfl⟩ : n1 = 0 ∧ n2 = 9 := by omega
    exact subMantissas_okay ha1 ha2 hs1 hs2 (by omega)
      (.inr (hnum hV (h2.digits_range hs2).2)) rfl
  · obtain ⟨rfl, rfl⟩ : n1 = 9 ∧ n2 = 0 := by omega
    exact subMantissas_okay ha1 ha2 hs1 hs2 (by omega)
      (.inl (hnum hV (h1.digits_range hs1).2)) rfl

end Sum

/-- A number has its own digits. -/
theorem round_value {f : Flt} (h : f.Legal) :
    roundTo halfAway fbase mantSize f.value = f.value := by
  by_cases hs : f.sign = 0
  · rw [value_of_sign_zero hs, roundTo_zero _ _ _ (by norm_num [halfAway])]
  · obtain ⟨hV, hV'⟩ := h.digits_range hs
    have hVq : (fbase : ℚ) ^ 7 ≤ val fbase f.digits := by exact_mod_cast hV
    have hV'q : (val fbase f.digits : ℚ) < (fbase : ℚ) ^ 8 := by exact_mod_cast hV'
    have hround : halfAway (val fbase f.digits / (fbase ^ 0 : Nat)) = val fbase f.digits := by
      rw [pow_zero, Nat.cast_one, div_one]
      exact halfAway_eq (Nat.cast_nonneg _) (by linarith) (by linarith)
    rw [value_fbase, roundTo_sign halfAway_neg (h.sign_cases hs),
      roundTo_scaled (d := 0) (f.exp - 7) (by decide) _ hV'q, hround, Nat.cast_zero, add_zero,
      Int.cast_natCast]
    calc (fbase : ℚ) ^ (mantSize + 0) = fbase ^ 7 * fbase := pow_succ ..
      _ ≤ val fbase f.digits * fbase := mul_le_mul_of_nonneg_right hVq fbase_cast_pos.le

theorem fltCopy_value {f : Flt} (h : f.Legal) (res : Flt) : (fltCopy f res).value = f.value := by
  have hd : (fltCopy f res).digits = f.digits := Flt.digits_store res h.digits_length
  rw [value_fbase, value_fbase, hd]
  rfl

/-- `flt_add` rounds the sum of `f1` and `f2`. -/
def AddRounded (f1 f2 : Flt) : Prop :=
  ∀ res g, fltAdd f1 f2 res = (.okay, g) →
    g.value = roundTo halfAway fbase mantSize (f1.value + f2.value)

/-- `flt_sub` rounds the difference of `f1` and `f2`. -/
def SubRounded (f1 f2 : Flt) : Prop :=
  ∀ res g, fltSub f1 f2 res = (.okay, g) →
    g.value = roundTo halfAway fbase mantSize (f1.value - f2.value)

theorem addRounded_iff {f1 f2 : Flt} (h1 : f1.Legal) (h2 : f2.Legal) :
    AddRounded f1 f2 ↔ ¬ (f1.sign * f2.sign = -1 ∧ (Drops f1 f2 ∨ Drops f2 f1)) := by
  by_cases hs1 : f1.sign = 0
  · refine iff_of_true (fun res g hrun => ?_) (fun h => by rw [hs1, zero_mul] at h; omega)
    rw [fltAdd, if_pos hs1] at hrun
    obtain ⟨-, rfl⟩ := Prod.mk.inj hrun
    rw [fltCopy_value h2, value_of_sign_zero hs1, zero_add,
      round_value h2]
  by_cases hs2 : f2.sign = 0
  · refine iff_of_true (fun res g hrun => ?_) (fun h => by rw [hs2, mul_zero] at h; omega)
    rw [fltAdd, if_neg hs1, if_pos hs2] at hrun
    obtain ⟨-, rfl⟩ := Prod.mk.inj hrun
    rw [fltCopy_value h1, value_of_sign_zero hs2, add_zero,
      round_value h1]
  have hopp : f1.sign * f2.sign = -1 ↔ f2.sign = -f1.sign := by
    rcases h1.sign_cases hs1 with h | h <;> rw [h] <;> omega
  rw [hopp]
  constructor
  · intro h hbad
    obtain ⟨g, hg⟩ := fltAdd_okay h1 h2 hs1 hs2 hbad.1 hbad.2 f1
    exact (fltAdd_value_iff h1 h2 hs1 hs2 hg).1 (h f1 g hg) hbad
  · intro h res g hrun
    exact (fltAdd_value_iff h1 h2 hs1 hs2 hrun).2 h

theorem Flt.Legal.neg {f : Flt} (h : f.Legal) : Flt.Legal { f with sign := -f.sign } where
  len := h.len
  bounded := h.bounded
  sign := by have := h.sign; dsimp only; omega
  normal := fun hs => h.normal (by dsimp only at hs; omega)
  range := h.range

/-- Half the base and a unit in the last place, negative. -/
def minusHalfAndUnit : Flt := ⟨[32768, 0, 0, 0, 0, 0, 0, 1, 0, 0], -1, 0⟩

theorem minusHalfAndUnit_legal : minusHalfAndUnit.Legal where
  len := rfl
  bounded := by unfold Bounded; decide
  sign := .inl rfl
  normal := fun _ => by decide
  range := by decide

end Tendra.Ref
