import Tendra.Lib.Rounding
import Tendra.Proofs.Tdfc.Constant
import Tendra.Proofs.Tdfc.StringLit
import Tendra.Ref.Tdfc.FloatLit

/-!
# When a literal is rounded right

A literal is known by its digits from the first one that is not zero, and by how many of them
stand before the point. `round_float_lit` computes this number in a word, refuses the literals
where it is more than six in either direction, and otherwise cuts the digits off behind the
point. So the result is the literal rounded down, in every mode.
-/

namespace Tendra.Ref.Tdfc

open Tendra NatConst

variable {s : List UInt8}

/-! ## `eval_digits` -/

section

variable {w : Word} {b d : Nat}

theorem wrap_digit (w : Word) {val carry : Nat} (hb : b ≤ 16) (hval : val < 65536)
    (hcarry : carry < 16) : w.wrap (val * b + carry) = val * b + carry ∧
      val * b + carry < 2 ^ 20 := by
  have hmul : val * b ≤ 65535 * 16 := Nat.mul_le_mul (by omega) hb
  exact ⟨Word.wrap_of_lt (Nat.lt_of_lt_of_le (by omega) w.half_le), by omega⟩

theorem literalDigits_spec (hb : b ≤ 16) (p : List Nat) : ∀ carry < 16, AllDigits p →
    AllDigits (literalDigits w b carry p) ∧
      number (literalDigits w b carry p) = b * number p + carry := by
  induction p with
  | nil =>
      intro carry hcarry _
      rw [literalDigits]
      split
      · refine ⟨allDigits_cons.2 ⟨by omega, allDigits_nil⟩, ?_⟩
        rw [number_singleton, show number [] = 0 from rfl, Nat.mul_zero, Nat.zero_add]
      · rename_i h
        rw [Decidable.not_not.1 h]
        exact ⟨allDigits_nil, rfl⟩
  | cons val v ih =>
      intro carry hcarry hp
      obtain ⟨hval, hv⟩ := allDigits_cons.1 hp
      obtain ⟨hwrap, hlt⟩ := wrap_digit w hb hval hcarry
      have hhi : hiHalf (val * b + carry) = (val * b + carry) / 65536 := hiHalf_of_lt (by omega)
      obtain ⟨ih1, ih2⟩ := ih (hiHalf (val * b + carry)) (by omega) hv
      rw [literalDigits, hwrap]
      refine ⟨allDigits_cons.2 ⟨?_, ih1⟩, ?_⟩
      · rw [loHalf_eq]
        exact Nat.mod_lt _ (by decide)
      · rw [number_cons, ih2, number_cons, loHalf_eq, hhi]
        have hmod := Nat.mod_add_div (val * b + carry) 65536
        generalize (val * b + carry) / 65536 = q at hmod
        generalize (val * b + carry) % 65536 = r at hmod
        have hmul : 65536 * (b * number v) = b * (65536 * number v) := Nat.mul_left_comm ..
        rw [Nat.mul_add, Nat.mul_add, hmul, Nat.mul_comm b val]
        omega

/-- There are as many digits as before, or one more, and the last one is not zero. -/
theorem literalDigits_last (hb : b ≤ 16) (hb1 : 1 ≤ b) (p : List Nat) : ∀ carry < 16,
    AllDigits p → p ≠ [] → p.getLastD 0 ≠ 0 →
    p.length ≤ (literalDigits w b carry p).length ∧
      (literalDigits w b carry p).getLastD 0 ≠ 0 := by
  induction p with
  | nil => exact fun _ _ _ h => absurd rfl h
  | cons val v ih =>
      intro carry hcarry hp _ hlast
      obtain ⟨hval, hv⟩ := allDigits_cons.1 hp
      obtain ⟨hwrap, hlt⟩ := wrap_digit w hb hval hcarry
      have hhi : hiHalf (val * b + carry) = (val * b + carry) / 65536 := hiHalf_of_lt (by omega)
      rw [literalDigits, hwrap]
      cases v with
      | nil =>
          have hne : val ≠ 0 := hlast
          have hpos : 1 ≤ val * b := Nat.mul_pos (Nat.pos_of_ne_zero hne) hb1
          rw [literalDigits]
          split
          · rename_i h
            exact ⟨by simp, by simpa using h⟩
          · rename_i h
            rw [hhi, Decidable.not_not] at h
            refine ⟨by simp, ?_⟩
            rw [List.getLastD_cons, List.getLastD_nil, loHalf_eq]
            omega
      | cons v1 v2 =>
          obtain ⟨hlen, hne⟩ := ih (hiHalf (val * b + carry)) (by omega) hv (by simp)
            (by simpa using hlast)
          refine ⟨by simpa using hlen, ?_⟩
          rw [literalDigits] at hne ⊢
          simpa using hne

theorem makeNatLiteral_spec (hb : b ≤ 16) (hd : d < b) {n : NatConst} {v : Nat}
    (h : n.Denotes v) : (makeNatLiteral w b d n).Denotes (b * v + d) := by
  obtain ⟨hmag, rfl⟩ := h
  cases n with
  | small val =>
      obtain ⟨hwrap, hlt⟩ := wrap_digit w hb hmag (Nat.lt_of_lt_of_le hd hb)
      have hspec := makeNatValue_spec (v := val * b + d) (by omega)
      rw [NatConst.abs, Nat.mul_comm b val]
      have heq : makeNatLiteral w b d (.small val) = makeNatValue (val * b + d) := by
        rw [makeNatLiteral, makeNatValue, hwrap]
        split
        · rename_i h
          rw [if_neg (not_not.2 h)]
        · rfl
      rw [heq]
      exact hspec
  | large p =>
      obtain ⟨hlen, hdig, hlast⟩ := hmag
      have hp : p ≠ [] := fun hnil => by simp [hnil] at hlen
      obtain ⟨h1, h2⟩ := literalDigits_spec (w := w) hb p d (Nat.lt_of_lt_of_le hd hb) hdig
      obtain ⟨h3, h4⟩ := literalDigits_last (w := w) hb (by omega) p d
        (Nat.lt_of_lt_of_le hd hb) hdig hp hlast
      exact ⟨⟨Nat.le_trans hlen h3, h1, h4⟩, h2⟩
  | neg n => exact hmag.elim

/-- The digits are those of a number in the base. -/
def DigitsOf (b : Nat) (s : List UInt8) : Prop := ∀ c ∈ s, digitValues c < b

theorem digitsOf_cons {c : UInt8} :
    DigitsOf b (c :: s) ↔ digitValues c < b ∧ DigitsOf b s := List.forall_mem_cons

theorem digitsOf_append {t : List UInt8} :
    DigitsOf b (s ++ t) ↔ DigitsOf b s ∧ DigitsOf b t := List.forall_mem_append

theorem DigitsOf.bounded (h : DigitsOf b s) : Digits.Bounded b (s.map digitValues) := by
  intro d hd
  obtain ⟨c, hc, rfl⟩ := List.mem_map.1 hd
  exact h c hc

theorem DigitsOf.denoted_lt (h : DigitsOf b s) : denoted b s < b ^ s.length := by
  simpa [denoted] using Digits.val_lt h.bounded

theorem evalFirst_spec (hb : b ≤ 16) (m : Nat) : ∀ (pre r : List UInt8), pre.length + m ≤ 8 →
    DigitsOf b (pre ++ r) →
    evalFirst w b m (denoted b pre) r = (denoted b (pre ++ r.take m), r.drop m) := by
  induction m with
  | zero => intro pre r _ _; simp [evalFirst]
  | succ m ih =>
      intro pre r hlen hr
      cases r with
      | nil => simp [evalFirst]
      | cons c r =>
          have hpre : DigitsOf b (pre ++ [c]) := by
            rw [digitsOf_append, digitsOf_cons] at hr
            exact digitsOf_append.2 ⟨hr.1, digitsOf_cons.2 ⟨hr.2.1, fun _ h => by cases h⟩⟩
          have hlt : denoted b (pre ++ [c]) < 2 ^ w.bits := by
            refine Nat.lt_of_lt_of_le hpre.denoted_lt (Nat.le_trans ?_ w.half_le)
            calc b ^ (pre ++ [c]).length ≤ 16 ^ (pre ++ [c]).length := Nat.pow_le_pow_left hb _
              _ ≤ 16 ^ 8 := Nat.pow_le_pow_right (by decide) (by simp; omega)
              _ = 2 ^ 32 := by decide
          rw [evalFirst, ← denoted_snoc, Word.wrap_of_lt hlt,
            ih (pre ++ [c]) r (by simp; omega) (by simpa using hr)]
          simp

theorem foldl_makeNatLiteral (hb : b ≤ 16) (r : List UInt8) : ∀ (pre : List UInt8) (n : NatConst),
    DigitsOf b r → n.Denotes (denoted b pre) →
    (r.foldl (fun n c => makeNatLiteral w b (digitValues c) n) n).Denotes
      (denoted b (pre ++ r)) := by
  induction r with
  | nil => intro pre n _ h; simpa using h
  | cons c r ih =>
      intro pre n hr h
      obtain ⟨hc, hr⟩ := digitsOf_cons.1 hr
      have hstep := makeNatLiteral_spec (w := w) hb hc h
      rw [← denoted_snoc] at hstep
      simpa using ih (pre ++ [c]) _ hr hstep

/-- Digits in any number are evaluated exactly. -/
theorem evalDigits_spec (w : Word) (hb : b ≤ 16) (h : DigitsOf b s) :
    (evalDigits w b s).Denotes (denoted b s) := by
  have hfirst := evalFirst_spec (w := w) hb 8 [] s (by simp) h
  rw [denoted_nil, List.nil_append] at hfirst
  have htake : DigitsOf b (s.take 8) := fun c hc => h c (List.mem_of_mem_take hc)
  have hlt : denoted b (s.take 8) < 2 ^ 32 := by
    refine Nat.lt_of_lt_of_le htake.denoted_lt ?_
    calc b ^ (s.take 8).length ≤ 16 ^ (s.take 8).length := Nat.pow_le_pow_left hb _
      _ ≤ 16 ^ 8 := Nat.pow_le_pow_right (by decide) (by simp)
      _ = 2 ^ 32 := by decide
  rw [evalDigits, hfirst]
  have hrest := foldl_makeNatLiteral (w := w) hb (s.drop 8) (s.take 8) _
    (fun c hc => h c (List.mem_of_mem_drop hc)) (makeNatValue_spec hlt)
  simpa using hrest

end


/-! ## Values of literals -/

theorem digitValues_eq_zero {c : UInt8} (h : digitValues c = 0) : c = charZero := by
  rw [digitValues] at h
  have hnone : noneChar.toNat = 255 := rfl
  have hc : c.toNat = charZero.toNat := by
    rw [show charZero.toNat = 48 from rfl]
    split_ifs at h <;> omega
  exact UInt8.toNat_inj.1 hc

/-- Zeros at the start do not count. -/
theorem denoted_dropWhile (b : Nat) (s : List UInt8) :
    denoted b (s.dropWhile (· = charZero)) = denoted b s := by
  induction s with
  | nil => rfl
  | cons c s ih =>
      by_cases hc : c = charZero
      · rw [List.dropWhile_cons_of_pos (by simpa using hc), ih, hc]
        simp [denoted, show digitValues charZero = 0 from rfl]
      · rw [List.dropWhile_cons_of_neg (by simpa using hc)]

namespace FloatLit

/-- The number that a literal denotes. -/
def value (f : FloatLit) : ℚ :=
  denoted 10 (f.intPart ++ f.fracPart) * 10 ^ (f.exponent.toInt - f.fracPart.length)

/-- The digits from the first one that is not zero. -/
def digits (f : FloatLit) : List UInt8 := (f.intPart ++ f.fracPart).dropWhile (· = charZero)

/-- How many of these digits stand before the point. -/
def point (f : FloatLit) : Int := f.digits.length - f.fracPart.length + f.exponent.toInt

/-- The parts are digits, and the exponent is a constant. -/
structure Simple (f : FloatLit) : Prop where
  intPart : DigitsOf 10 f.intPart
  fracPart : DigitsOf 10 f.fracPart
  exponent : f.exponent.Canonical

variable {f : FloatLit}

theorem value_eq (f : FloatLit) :
    f.value = denoted 10 f.digits * 10 ^ (f.point - f.digits.length) := by
  rw [value, digits, denoted_dropWhile, point, digits]
  congr 2
  omega

theorem Simple.digits (h : f.Simple) : DigitsOf 10 f.digits := fun c hc =>
  digitsOf_append.2 ⟨h.intPart, h.fracPart⟩ c ((List.dropWhile_sublist _).subset hc)

theorem value_of_digits_nil (h : f.digits = []) : f.value = 0 := by
  rw [value_eq, h, denoted_nil, Nat.cast_zero, zero_mul]

/-- The first digit is not zero, so the number of digits bounds the value on both sides. -/
theorem Simple.denoted_ge (hf : f.Simple) (h : f.digits ≠ []) :
    10 ^ (f.digits.length - 1) ≤ denoted 10 f.digits := by
  have hhead : (f.digits.map digitValues).headD 0 ≠ 0 := by
    have hdrop := List.head?_dropWhile_not (fun c => decide (c = charZero))
      (f.intPart ++ f.fracPart)
    rw [← FloatLit.digits] at hdrop
    cases hd : f.digits with
    | nil => exact absurd hd h
    | cons c s =>
        have hc : c ≠ charZero := by simpa [hd] using hdrop
        exact fun h0 => hc (digitValues_eq_zero h0)
  have hle := (Digits.headD_ne_zero_iff hf.digits.bounded (by simpa using h)).1 hhead
  simpa [denoted] using hle

theorem Simple.value_bounds (hf : f.Simple) (h : f.digits ≠ []) :
    (10 : ℚ) ^ (f.point - 1) ≤ f.value ∧ f.value < (10 : ℚ) ^ f.point := by
  have hlen : 1 ≤ f.digits.length := List.length_pos_iff.2 h
  have hge : (10 : ℚ) ^ (f.digits.length - 1) ≤ denoted 10 f.digits := by
    exact_mod_cast hf.denoted_ge h
  have hlt : (denoted 10 f.digits : ℚ) < 10 ^ f.digits.length := by
    exact_mod_cast hf.digits.denoted_lt
  have hpos : (0 : ℚ) < 10 ^ (f.point - f.digits.length) := by positivity
  rw [value_eq]
  constructor
  · calc (10 : ℚ) ^ (f.point - 1)
        = 10 ^ (f.digits.length - 1) * 10 ^ (f.point - f.digits.length) := by
          rw [← zpow_natCast, ← zpow_add₀ (by norm_num), Nat.cast_sub hlen]
          congr 1
          push_cast
          ring
      _ ≤ _ := mul_le_mul_of_nonneg_right hge hpos.le
  · calc _ < (10 : ℚ) ^ f.digits.length * 10 ^ (f.point - f.digits.length) :=
          mul_lt_mul_of_pos_right hlt hpos
      _ = 10 ^ f.point := by
          rw [← zpow_natCast, ← zpow_add₀ (by norm_num)]
          congr 1
          ring

theorem Simple.value_eq_zero (hf : f.Simple) : f.value = 0 ↔ f.digits = [] := by
  refine ⟨fun h => ?_, value_of_digits_nil⟩
  by_contra hne
  have hpos : (0 : ℚ) < 10 ^ (f.point - 1) := by positivity
  exact absurd (hf.value_bounds hne).1 (by rw [h]; exact not_le.2 hpos)

theorem Simple.point_eq (hf : f.Simple) (h : f.digits ≠ []) :
    f.point = Int.log 10 f.value + 1 := by
  obtain ⟨h1, h2⟩ := hf.value_bounds h
  have hpos : 0 < f.value := lt_of_lt_of_le (by positivity) h1
  have hle := (Int.zpow_le_iff_le_log (b := 10) (by norm_num) hpos).1 (by exact_mod_cast h1)
  have hlt := (Int.lt_zpow_iff_log_lt (b := 10) (by norm_num) hpos).1 (by exact_mod_cast h2)
  omega

end FloatLit


/-! ## The lengths -/

/-- A constant as far as `get_nat_value` knows it. -/
theorem exponentLengths_spec (w : Word) (intLen : Nat) {e : NatConst} (he : e.Canonical) :
    (exponentLengths w intLen e).2.2 = min e.toInt.natAbs (2 ^ 32 - 1) ∧
    (e.toInt.natAbs < 2 ^ 32 - 1 →
      (exponentLengths w intLen e).1 = w.wrap (intLen + e.toInt).toNat ∧
      (exponentLengths w intLen e).2.1 = w.wrap (-(intLen + e.toInt)).toNat) := by
  have hzero : w.wrap 0 = 0 := Nat.zero_mod _
  cases e with
  | neg n =>
      have hval := getNatValue_spec he.1
      have habs : (NatConst.toInt (.neg n)).natAbs = n.abs := by
        rw [NatConst.toInt, Int.natAbs_neg, Int.natAbs_natCast]
      rw [exponentLengths, habs, show NatConst.toInt (.neg n) = -n.abs from rfl, hval]
      split
      · refine ⟨rfl, fun h => ?_⟩
        rw [show (↑intLen + -(n.abs : Int)).toNat = 0 by omega, hzero,
          show (-(↑intLen + -(n.abs : Int))).toNat = min n.abs (2 ^ 32 - 1) - intLen by omega]
        exact ⟨rfl, rfl⟩
      · refine ⟨rfl, fun h => ?_⟩
        rw [show (-(↑intLen + -(n.abs : Int))).toNat = 0 by omega, hzero,
          show (↑intLen + -(n.abs : Int)).toNat = intLen - min n.abs (2 ^ 32 - 1) by omega]
        exact ⟨rfl, rfl⟩
  | small v =>
      have hval := getNatValue_spec (n := .small v) he
      rw [exponentLengths, hval, Magnitude.toInt_eq (n := .small v) he, Int.natAbs_natCast]
      · refine ⟨rfl, fun h => ?_⟩
        rw [show (-(↑intLen + ((NatConst.small v).abs : Int))).toNat = 0 by omega, hzero,
          show (↑intLen + ((NatConst.small v).abs : Int)).toNat =
            intLen + min (NatConst.small v).abs (2 ^ 32 - 1) by omega]
        exact ⟨rfl, rfl⟩
      · exact fun n h => by cases h
  | large p =>
      have hval := getNatValue_spec (n := .large p) he
      rw [exponentLengths, hval, Magnitude.toInt_eq (n := .large p) he, Int.natAbs_natCast]
      · refine ⟨rfl, fun h => ?_⟩
        rw [show (-(↑intLen + ((NatConst.large p).abs : Int))).toNat = 0 by omega, hzero,
          show (↑intLen + ((NatConst.large p).abs : Int)).toNat =
            intLen + min (NatConst.large p).abs (2 ^ 32 - 1) by omega]
        exact ⟨rfl, rfl⟩
      · exact fun n h => by cases h

theorem skipZeros_fst (w : Word) (frac : List UInt8) : ∀ resLen preLen : Nat,
    (skipZeros w frac resLen preLen).1 = frac.dropWhile (· = charZero) := by
  induction frac with
  | nil => intro _ _; rfl
  | cons c frac ih =>
      intro resLen preLen
      rw [skipZeros]
      split
      · rename_i hc
        rw [List.dropWhile_cons_of_pos (by simpa using hc)]
        split
        · exact ih _ _
        · exact ih _ _
      · rename_i hc
        rw [List.dropWhile_cons_of_neg (by simpa using hc)]

/-- Each zero moves the first digit one place to the right. -/
theorem skipZeros_spec (w : Word) (frac : List UInt8) : ∀ q : Int,
    (skipZeros w frac q.toNat (w.wrap (-q).toNat)).2 =
      ((q - frac.length + (frac.dropWhile (· = charZero)).length).toNat,
        w.wrap (-(q - frac.length + (frac.dropWhile (· = charZero)).length)).toNat) := by
  induction frac with
  | nil => simp [skipZeros]
  | cons c frac ih =>
      intro q
      rw [skipZeros]
      split
      · rename_i hc
        have hlen : (q - ((c :: frac).length : Nat) : Int) = (q - 1) - (frac.length : Nat) := by
          simp
          omega
        rw [List.dropWhile_cons_of_pos (by simpa using hc), hlen, ← ih (q - 1)]
        split
        · rename_i hq
          have hpre : w.wrap (w.wrap (-q).toNat + 1) = w.wrap (-(q - 1)).toNat := by
            rw [show (-(q - 1)).toNat = 1 * (-q).toNat + 1 by omega, ← Word.wrap_mul_add,
              Nat.one_mul]
          rw [hpre, show q.toNat = (q - 1).toNat by omega]
        · rename_i hq
          rw [show q.toNat - 1 = (q - 1).toNat by omega,
            show (-q).toNat = (-(q - 1)).toNat by omega]
      · rename_i hc
        rw [List.dropWhile_cons_of_neg (by simpa using hc)]
        simp

/-- What is left of the digits behind the point, and the two lengths. -/
def roundLengths (w : Word) (f : FloatLit) : List UInt8 × Nat × Nat :=
  let int := f.intPart.dropWhile (· = charZero)
  let lengths := exponentLengths w int.length f.exponent
  if int = [] then skipZeros w f.fracPart lengths.1 lengths.2.1
  else (f.fracPart, lengths.1, lengths.2.1)

theorem digits_eq (w : Word) (f : FloatLit) :
    f.digits = f.intPart.dropWhile (· = charZero) ++ (roundLengths w f).1 := by
  rw [roundLengths, FloatLit.digits, List.dropWhile_append]
  split
  · rename_i hnil
    rw [List.isEmpty_iff] at hnil
    rw [if_pos hnil, hnil, List.nil_append, skipZeros_fst]
  · rename_i hne
    rw [if_neg (by simpa using hne)]

theorem roundLengths_spec (w : Word) {f : FloatLit} (hf : f.Simple)
    (hexp : f.exponent.toInt.natAbs < 2 ^ 32 - 1) :
    (roundLengths w f).2 = (w.wrap f.point.toNat, w.wrap (-f.point).toNat) := by
  have hdigits := digits_eq w f
  obtain ⟨hres, hpre⟩ := (exponentLengths_spec w (f.intPart.dropWhile (· = charZero)).length
    hf.exponent).2 hexp
  rw [roundLengths] at hdigits ⊢
  split at hdigits
  · rename_i hnil
    rw [hnil, List.nil_append, skipZeros_fst] at hdigits
    rw [hnil, List.length_nil, Nat.cast_zero, Int.zero_add] at hres hpre
    have hle := w.half_le
    have hsub := (List.dropWhile_sublist (fun c => decide (c = charZero))
      (l := f.fracPart)).length_le
    have hpoint : f.exponent.toInt - f.fracPart.length +
        (f.fracPart.dropWhile (· = charZero)).length = f.point := by
      rw [FloatLit.point, hdigits]
      omega
    have hlt : f.point.toNat < 2 ^ w.bits := by omega
    rw [if_pos hnil, hnil, List.length_nil, hres, hpre, Word.wrap_of_lt (n := _) (by omega),
      skipZeros_spec, hpoint, Word.wrap_of_lt hlt]
  · rename_i hne
    have hpoint : (f.intPart.dropWhile (· = charZero)).length + f.exponent.toInt = f.point := by
      rw [FloatLit.point, hdigits, List.length_append]
      push_cast
      omega
    rw [if_neg hne, hres, hpre, hpoint]

/-! ## The digits of the result -/

theorem putDigits_spec {n : Nat} (hn : n ≤ 100) (src : List UInt8) : ∀ result : List UInt8,
    result.length ≤ n →
    putDigits n src result = some (result ++ src.take (n - result.length)) := by
  induction src with
  | nil => intro result _; simp [putDigits]
  | cons c src ih =>
      intro result hlen
      rw [putDigits]
      split
      · rename_i hlt
        rw [if_pos (by omega), ih _ (by simp; omega),
          show n - result.length = n - (result ++ [c]).length + 1 by simp; omega]
        simp
      · rename_i hge
        rw [ih result hlen, show n - result.length = 0 by omega]
        simp

theorem padDigits_spec (k : Nat) : ∀ result : List UInt8, result.length + k ≤ 100 →
    padDigits k result = some (result ++ List.replicate k charZero) := by
  induction k with
  | zero => intro result _; simp [padDigits]
  | succ k ih =>
      intro result hlen
      rw [padDigits, if_pos (by omega), ih _ (by simp; omega), List.replicate_succ]
      simp

/-- The first `n` digits, of which there may be fewer. -/
def firstDigits (n : Nat) (s : List UInt8) : List UInt8 := (s ++ List.replicate n charZero).take n

theorem firstDigits_eq (n : Nat) (s : List UInt8) :
    firstDigits n s = s.take n ++ List.replicate (n - (s.take n).length) charZero := by
  rw [firstDigits, List.take_append, List.take_replicate, List.length_take]
  congr 2
  omega

theorem length_firstDigits (n : Nat) (s : List UInt8) : (firstDigits n s).length = n := by
  simp [firstDigits]

theorem integerString_spec {n pre : Nat} (hn : n ≤ 100) (hpre : pre = 0 ∨ n = 0)
    (int frac : List UInt8) :
    integerString n pre int frac = some (firstDigits n (int ++ frac)) := by
  have hzeros : (List.replicate pre charZero).take n = [] := by
    cases hpre with
    | inl h => rw [h, List.replicate_zero, List.take_nil]
    | inr h => rw [h, List.take_zero]
  have h1 := putDigits_spec hn (List.replicate pre charZero) [] (Nat.zero_le n)
  rw [List.nil_append, List.length_nil, Nat.sub_zero, hzeros] at h1
  have h2 := putDigits_spec hn int [] (Nat.zero_le n)
  rw [List.nil_append, List.length_nil, Nat.sub_zero] at h2
  have h3 := putDigits_spec hn frac (int.take n) (by simp)
  rw [List.length_take, show n - min n int.length = n - int.length by omega,
    ← List.take_append] at h3
  have h4 := padDigits_spec (n - ((int ++ frac).take n).length) ((int ++ frac).take n)
    (by simp; omega)
  simp only [integerString, h1, h2, h3, h4, firstDigits_eq, Option.bind_eq_bind, Option.bind_some]

theorem DigitsOf.firstDigits (h : DigitsOf 10 s) (n : Nat) : DigitsOf 10 (firstDigits n s) := by
  intro c hc
  have hmem := List.mem_of_mem_take hc
  rw [List.mem_append, List.mem_replicate] at hmem
  cases hmem with
  | inl hmem => exact h c hmem
  | inr hmem => rw [hmem.2]; decide

/-- The first digits are the digits of the number without its fraction. -/
theorem denoted_firstDigits (h : DigitsOf 10 s) (n : Nat) :
    (denoted 10 (firstDigits n s) : Int) = ⌊(denoted 10 s * 10 ^ ((n : Int) - s.length) : ℚ)⌋ := by
  have hzeros : (s ++ List.replicate n charZero).map digitValues =
      s.map digitValues ++ List.replicate n 0 := by simp [show digitValues charZero = 0 from rfl]
  have hbounded : Digits.Bounded 10 ((s ++ List.replicate n charZero).map digitValues) := by
    rw [hzeros]
    exact Digits.bounded_append.2 ⟨h.bounded, Digits.bounded_replicate_zero (by decide) n⟩
  have hval : denoted 10 (firstDigits n s) = denoted 10 s * 10 ^ n / 10 ^ s.length := by
    rw [denoted, firstDigits, List.map_take, Digits.val_take hbounded (by simp), hzeros,
      Digits.val_append_zeros]
    simp [denoted]
  have hq : (denoted 10 s * 10 ^ ((n : Int) - s.length) : ℚ) =
      ((denoted 10 s * 10 ^ n : Nat) : ℚ) / ((10 ^ s.length : Nat) : ℚ) := by
    rw [zpow_sub₀ (by norm_num), zpow_natCast, zpow_natCast]
    push_cast
    ring
  rw [hval, hq, Rat.floor_natCast_div_natCast, Int.natCast_ediv]

/-! ## The result -/

theorem roundFloatLit_eq (w : Word) (f : FloatLit) (mode : RMode) : roundFloatLit w f mode =
    let int := f.intPart.dropWhile (· = charZero)
    let r := roundLengths w f
    if int = [] ∧ r.1 = [] then some (some (.small 0))
    else if r.2.2 > 6 then some none
    else if r.2.1 > 6 then some none
    else if (exponentLengths w int.length f.exponent).2.2 = extendedMax then some none
    else (integerString r.2.1 r.2.2 int r.1).bind fun result =>
      if r.2.1 < 100 then some (some (evalDigits w 10 (result.take r.2.1))) else none := rfl


section

variable {w : Word} {f : FloatLit} {mode : RMode}

theorem digits_nil_iff (w : Word) (f : FloatLit) :
    f.intPart.dropWhile (· = charZero) = [] ∧ (roundLengths w f).1 = [] ↔ f.digits = [] := by
  rw [digits_eq w, List.append_eq_nil_iff]

theorem roundFloatLit_zero (h : f.digits = []) :
    roundFloatLit w f mode = some (some (.small 0)) := by
  rw [roundFloatLit_eq]
  exact if_pos ((digits_nil_iff w f).2 h)

/-- The exponent is too large to be known. -/
theorem roundFloatLit_large (hf : f.Simple) (h : f.digits ≠ [])
    (hexp : 2 ^ 32 - 1 ≤ f.exponent.toInt.natAbs) : roundFloatLit w f mode = some none := by
  have hmax : (exponentLengths w (f.intPart.dropWhile (· = charZero)).length f.exponent).2.2 =
      extendedMax := by
    rw [(exponentLengths_spec w _ hf.exponent).1, show extendedMax = 2 ^ 32 - 1 by decide]
    omega
  rw [roundFloatLit_eq]
  dsimp only
  rw [if_neg (fun hnil => h ((digits_nil_iff w f).1 hnil)), if_pos hmax]
  split
  · rfl
  · split
    · rfl
    · rfl

theorem wrap_point (w : Word) (p : Int) :
    (w.wrap p.toNat = w.wrap p.natAbs ∧ w.wrap (-p).toNat = 0) ∨
      (w.wrap p.toNat = 0 ∧ w.wrap (-p).toNat = w.wrap p.natAbs) := by
  have hzero : w.wrap 0 = 0 := Nat.zero_mod _
  rcases Int.le_total 0 p with h | h
  · rw [show p.toNat = p.natAbs by omega, show (-p).toNat = 0 by omega, hzero]
    exact .inl ⟨rfl, rfl⟩
  · rw [show p.toNat = 0 by omega, show (-p).toNat = p.natAbs by omega, hzero]
    exact .inr ⟨rfl, rfl⟩

/-- The point is more than six places away from the first digit. -/
theorem roundFloatLit_far (hf : f.Simple) (h : f.digits ≠ [])
    (hexp : f.exponent.toInt.natAbs < 2 ^ 32 - 1) (hfar : 6 < w.wrap f.point.natAbs) :
    roundFloatLit w f mode = some none := by
  rw [roundFloatLit_eq]
  dsimp only
  rw [if_neg (fun hnil => h ((digits_nil_iff w f).1 hnil)), roundLengths_spec w hf hexp]
  cases wrap_point w f.point with
  | inl hpos => rw [if_neg (by omega), if_pos (by omega)]
  | inr hneg => rw [if_pos (by omega)]

theorem roundFloatLit_near (hf : f.Simple) (h : f.digits ≠ [])
    (hexp : f.exponent.toInt.natAbs < 2 ^ 32 - 1) (hnear : w.wrap f.point.natAbs ≤ 6) :
    ∃ n, roundFloatLit w f mode = some (some n) ∧
      n.Denotes (denoted 10 (firstDigits (w.wrap f.point.toNat) f.digits)) := by
  have hcases := wrap_point w f.point
  have hpre : w.wrap (-f.point).toNat = 0 ∨ w.wrap f.point.toNat = 0 := by omega
  have hexp' : ¬(exponentLengths w (f.intPart.dropWhile (· = charZero)).length f.exponent).2.2 =
      extendedMax := by
    rw [(exponentLengths_spec w _ hf.exponent).1, show extendedMax = 2 ^ 32 - 1 by decide]
    omega
  rw [roundFloatLit_eq]
  dsimp only
  rw [if_neg (fun hnil => h ((digits_nil_iff w f).1 hnil)), if_neg hexp',
    roundLengths_spec w hf hexp, if_neg (by omega), if_neg (by omega),
    integerString_spec (by omega) hpre, Option.bind_some, if_pos (by omega), ← digits_eq,
    List.take_of_length_le (Nat.le_of_eq (length_firstDigits _ _))]
  exact ⟨_, rfl, evalDigits_spec w (by decide) (hf.digits.firstDigits _)⟩

end


/-! ## Rounding -/

namespace RMode

/-- The integer is the number, rounded. Halves may go either way, and a mode that is not known
here may be any of the others. -/
def Rounds (mode : RMode) (x : ℚ) (n : Int) : Prop :=
  match mode with
  | .toNearest => |x - n| ≤ 1 / 2
  | .toLarger => n = ⌈x⌉
  | .toSmaller => n = ⌊x⌋
  | .toZero => n = Rounding.towardZero x
  | .asState => |x - n| ≤ 1 / 2 ∧ n = ⌈x⌉ ∧ n = ⌊x⌋ ∧ n = Rounding.towardZero x

/-- What the fraction has to be for the number to be rounded down. -/
def RoundsDown (mode : RMode) (x : ℚ) : Prop :=
  match mode with
  | .toNearest => Int.fract x ≤ 1 / 2
  | .toLarger | .asState => Int.fract x = 0
  | .toSmaller | .toZero => True

variable {mode : RMode} {x : ℚ} {n : Int}

theorem towardZero_eq (hx : 0 ≤ x) : Rounding.towardZero x = ⌊x⌋ := if_pos hx

theorem floor_eq_ceil : ⌊x⌋ = ⌈x⌉ ↔ Int.fract x = 0 := by
  constructor
  · intro h
    have h1 := Int.floor_le x
    have h2 := Int.le_ceil x
    rw [← h] at h2
    rw [Int.fract]
    linarith
  · intro h
    rw [Int.fract_eq_iff] at h
    obtain ⟨-, -, z, hz⟩ := h
    rw [sub_zero] at hz
    rw [hz, Int.floor_intCast, Int.ceil_intCast]

theorem rounds_floor (hx : 0 ≤ x) : mode.Rounds x ⌊x⌋ ↔ mode.RoundsDown x := by
  have habs : |x - ⌊x⌋| = Int.fract x := abs_of_nonneg (Int.fract_nonneg x)
  cases mode with
  | toNearest => rw [Rounds, RoundsDown, habs]
  | toLarger => exact floor_eq_ceil
  | toSmaller => exact iff_of_true rfl trivial
  | toZero => exact iff_of_true (towardZero_eq hx).symm trivial
  | asState =>
      rw [Rounds, RoundsDown, habs, floor_eq_ceil, towardZero_eq hx]
      refine ⟨fun h => h.2.1, fun h => ⟨?_, h, rfl, rfl⟩⟩
      rw [h]
      norm_num

theorem Rounds.lt (hx : 0 ≤ x) (h : mode.Rounds x n) : x < n + 1 := by
  cases mode with
  | toNearest =>
      have := (abs_le.1 h).2
      linarith
  | toLarger =>
      obtain rfl : n = ⌈x⌉ := h
      have := Int.le_ceil x
      linarith
  | toSmaller =>
      obtain rfl : n = ⌊x⌋ := h
      exact Int.lt_floor_add_one x
  | toZero =>
      obtain rfl : n = ⌊x⌋ := h.trans (towardZero_eq hx)
      exact Int.lt_floor_add_one x
  | asState =>
      obtain rfl : n = ⌊x⌋ := h.2.2.1
      exact Int.lt_floor_add_one x

end RMode

/-- The constant is the literal, rounded, if there is one; `result` is never indexed with 100 or
more. -/
def RoundedRight (w : Word) (mode : RMode) (f : FloatLit) : Prop :=
  ∃ r, roundFloatLit w f mode = some r ∧
    ∀ n, r = some n → ∃ z, n.Means z ∧ mode.Rounds f.value z

/-- The literal is zero, or its point is too far away from its first digit, as far as a word can
tell, or rounding down is right. -/
def RoundedWhen (w : Word) (mode : RMode) (f : FloatLit) : Prop :=
  let point := Int.log 10 f.value + 1
  f.value = 0 ∨ 2 ^ 32 - 1 ≤ f.exponent.toInt.natAbs ∨ 6 < w.wrap point.natAbs ∨
    point < 2 ^ w.bits ∧ mode.RoundsDown f.value

section

variable {w : Word} {f : FloatLit} {mode : RMode}

theorem roundedRight_null (h : roundFloatLit w f mode = some none) : RoundedRight w mode f :=
  ⟨none, h, fun _ hn => by cases hn⟩

theorem roundedRight_denotes {n : NatConst} {k : Nat} (h : roundFloatLit w f mode = some (some n))
    (hn : n.Denotes k) : RoundedRight w mode f ↔ mode.Rounds f.value k := by
  constructor
  · intro hright
    obtain ⟨r, hr, hall⟩ := hright
    rw [h, Option.some.injEq] at hr
    obtain ⟨z, hz, hrounds⟩ := hall n hr.symm
    have heq : z = k := hz.2.symm.trans hn.means.2
    rwa [← heq]
  · intro hrounds
    refine ⟨_, h, fun m hm => ⟨k, ?_, hrounds⟩⟩
    obtain rfl := Option.some.inj hm
    exact hn.means

/-- Without overflow the result is the literal without its fraction. -/
theorem denoted_floor (hf : f.Simple) (h : f.digits ≠ []) (hlt : f.point < 2 ^ w.bits) :
    (denoted 10 (firstDigits (w.wrap f.point.toNat) f.digits) : Int) = ⌊f.value⌋ := by
  have hnat : f.point.toNat < 2 ^ w.bits := by
    have hpos := w.pow_bits_pos
    have hcast : ((2 ^ w.bits : Nat) : Int) = 2 ^ w.bits := Nat.cast_pow 2 w.bits
    omega
  rw [Word.wrap_of_lt hnat]
  rcases Int.le_total 0 f.point with hpos | hneg
  · rw [denoted_firstDigits hf.digits, Int.toNat_of_nonneg hpos, ← FloatLit.value_eq]
  · obtain ⟨hlow, hhigh⟩ := hf.value_bounds h
    have hone : (10 : ℚ) ^ f.point ≤ 1 := zpow_le_one_of_nonpos₀ (by norm_num) hneg
    have hnonneg : 0 ≤ f.value := le_trans (by positivity) hlow
    rw [show f.point.toNat = 0 by omega, eq_comm, Int.floor_eq_iff]
    simp only [firstDigits, List.take_zero, denoted_nil, Nat.cast_zero, Int.cast_zero, zero_add]
    exact ⟨hnonneg, lt_of_lt_of_le hhigh hone⟩

/-- If the length is too large for a word, the result is too small. -/
theorem not_rounds_overflow (hf : f.Simple) (h : f.digits ≠ []) (hge : 2 ^ w.bits ≤ f.point)
    (hnear : w.wrap f.point.natAbs ≤ 6) :
    ¬mode.Rounds f.value (denoted 10 (firstDigits (w.wrap f.point.toNat) f.digits)) := by
  intro hrounds
  obtain ⟨hlow, -⟩ := hf.value_bounds h
  have hlt := hrounds.lt (le_trans (by positivity) hlow)
  have hpoint : 7 ≤ f.point := by
    have hhalf := w.half_le
    have hcast : ((2 ^ w.bits : Nat) : Int) = 2 ^ w.bits := Nat.cast_pow 2 w.bits
    omega
  have hlarge : (10 : ℚ) ^ (6 : Int) ≤ 10 ^ (f.point - 1) :=
    zpow_le_zpow_right₀ (by norm_num) (by omega)
  have hden := (hf.digits.firstDigits (w.wrap f.point.toNat)).denoted_lt
  rw [length_firstDigits] at hden
  have hpow : 10 ^ w.wrap f.point.toNat ≤ 10 ^ 6 :=
    Nat.pow_le_pow_right (by decide) (by rwa [show f.point.toNat = f.point.natAbs by omega])
  have hsmall : (denoted 10 (firstDigits (w.wrap f.point.toNat) f.digits) : ℚ) + 1 ≤ 10 ^ 6 := by
    exact_mod_cast Nat.le_trans hden hpow
  rw [Int.cast_natCast] at hlt
  have hsix : (10 : ℚ) ^ (6 : Int) = 10 ^ 6 := rfl
  linarith

/-- A literal is rounded right exactly in these cases. -/
theorem roundFloatLit_right_iff (w : Word) (mode : RMode) {f : FloatLit} (hf : f.Simple) :
    RoundedRight w mode f ↔ RoundedWhen w mode f := by
  rw [RoundedWhen]
  by_cases h : f.digits = []
  · have hval := FloatLit.value_of_digits_nil h
    refine iff_of_true ?_ (.inl hval)
    rw [roundedRight_denotes (roundFloatLit_zero h) (denotes_small (by decide)), hval]
    cases mode with
    | toNearest => norm_num [RMode.Rounds]
    | toLarger => norm_num [RMode.Rounds]
    | toSmaller => norm_num [RMode.Rounds]
    | toZero => norm_num [RMode.Rounds, Rounding.towardZero]
    | asState => norm_num [RMode.Rounds, Rounding.towardZero]
  rw [← hf.point_eq h]
  by_cases hexp : 2 ^ 32 - 1 ≤ f.exponent.toInt.natAbs
  · exact iff_of_true (roundedRight_null (roundFloatLit_large hf h hexp)) (.inr (.inl hexp))
  by_cases hfar : 6 < w.wrap f.point.natAbs
  · exact iff_of_true (roundedRight_null (roundFloatLit_far hf h (by omega) hfar))
      (.inr (.inr (.inl hfar)))
  have hnear : ∃ n, roundFloatLit w f mode = some (some n) ∧
      n.Denotes (denoted 10 (firstDigits (w.wrap f.point.toNat) f.digits)) :=
    roundFloatLit_near hf h (by omega) (by omega)
  obtain ⟨n, hn, hden⟩ := hnear
  rw [roundedRight_denotes hn hden]
  simp only [hf.value_eq_zero, h, hexp, hfar, false_or]
  by_cases hlt : f.point < 2 ^ w.bits
  · have hnonneg : 0 ≤ f.value := le_trans (by positivity) (hf.value_bounds h).1
    rw [denoted_floor hf h hlt, RMode.rounds_floor hnonneg, and_iff_right hlt]
  · refine iff_of_false ?_ (fun hc => hlt hc.1)
    exact not_rounds_overflow hf h (by omega) (by omega)

end

/-- The literal 1.5. -/
def oneAndHalf : FloatLit := ⟨[49], [53], .small 0⟩

theorem oneAndHalf_simple : oneAndHalf.Simple where
  intPart := by simp [oneAndHalf, DigitsOf, digitValues]
  fracPart := by simp [oneAndHalf, DigitsOf, digitValues]
  exponent := by decide

theorem roundFloatLit_right_iff_half : oneAndHalf.Simple ∧
    (RoundedRight .bits64 .toLarger oneAndHalf ↔ RoundedWhen .bits64 .toLarger oneAndHalf) :=
  ⟨oneAndHalf_simple, roundFloatLit_right_iff .bits64 .toLarger oneAndHalf_simple⟩

/-- 1.5 is rounded to 1 in every mode, and so also where a larger integer is asked for. -/
theorem not_roundFloatLit_right : ¬∀ (w : Word) (mode : RMode) (f : FloatLit), f.Simple →
    RoundedRight w mode f := by
  intro h
  have hone : roundFloatLit .bits64 oneAndHalf .toLarger = some (some (.small 1)) := by decide
  have hrounds := (roundedRight_denotes hone (denotes_small (by decide))).1
    (h .bits64 .toLarger oneAndHalf oneAndHalf_simple)
  have hval : oneAndHalf.value = 3 / 2 := by
    have hdigits : denoted 10 (oneAndHalf.intPart ++ oneAndHalf.fracPart) = 15 := by decide
    have hexp : oneAndHalf.exponent.toInt - (oneAndHalf.fracPart.length : Int) = -1 := rfl
    rw [FloatLit.value, hdigits, hexp]
    norm_num
  rw [hval, RMode.Rounds] at hrounds
  norm_num at hrounds

end Tendra.Ref.Tdfc
