import Tendra.Proofs.FltArith

/-!
# Rounding to a number of bits

`flpt_round` finds the digit of the last bit that is kept and the bit below it.
The digits behind are cleared, and one is added at that bit, which carries into
the bits that are kept exactly if the bit is set: a directed mode sets it first.
A carry out of the mantissa leaves a power of the base.
-/

namespace Tendra.Ref

open Tendra.Digits Tendra.Rounding

variable {rest hi : List Nat} {w : Nat}

/-! ## Masks -/

/-- A mask of the table clears the bits below it. -/
theorem and_bitmask {x n : Nat} (hx : x < fbase) (hn : n ≤ 16) :
    x &&& bitmask n = x / 2 ^ n * 2 ^ n := by
  have hmask : bitmask n = (2 ^ (16 - n) - 1) * 2 ^ n := by
    rw [bitmask, Nat.sub_mul, ← pow_add, Nat.sub_add_cancel hn, Nat.one_mul]
    rfl
  have hx16 : x < 2 ^ 16 := hx
  apply Nat.eq_of_testBit_eq
  intro i
  rw [hmask, Nat.testBit_and, Nat.testBit_mul_two_pow, Nat.testBit_mul_two_pow,
    Nat.testBit_two_pow_sub_one, Nat.testBit_div_two_pow]
  by_cases hni : n ≤ i
  · rw [show i - n + n = i by omega]
    by_cases hi : i < 16
    · simp [hni, show i - n < 16 - n by omega]
    · have hbit : x.testBit i = false :=
        Nat.testBit_lt_two_pow
          (lt_of_lt_of_le hx16 (Nat.pow_le_pow_right (show 0 < 2 by decide) (by omega)))
      simp [hbit]
  · simp [hni]

/-- Once the bit is set, adding one at it carries. -/
theorem or_bitround_carry (x b : Nat) :
    ((x ||| bitround b) / 2 ^ b + 1) / 2 = x / 2 ^ (b + 1) + 1 := by
  have hor : (x ||| bitround b) / 2 ^ b = x / 2 ^ b ||| 1 := by
    rw [bitround, ← Nat.shiftRight_eq_div_pow, Nat.shiftRight_or_distrib,
      Nat.shiftRight_eq_div_pow, Nat.shiftRight_eq_div_pow, Nat.div_self (Nat.two_pow_pos b)]
  have hbit : x / 2 ^ b ||| 1 = x / 2 ^ b / 2 * 2 + 1 := by
    have hdiv : (x / 2 ^ b ||| 1) / 2 = x / 2 ^ b / 2 := by rw [Nat.or_div_two]; simp
    have hmod : (x / 2 ^ b ||| 1) % 2 = 1 := by simp
    omega
  rw [hor, hbit, pow_succ, ← Nat.div_div_eq_div_mul]
  omega

theorem or_bitround_lt {x b : Nat} (hx : x < fbase) (hb : b ≤ 15) : x ||| bitround b < fbase :=
  Nat.or_lt_two_pow (n := 16) hx (Nat.pow_lt_pow_right (show 1 < 2 by decide) (by omega))

/-! ## The position -/

/-- The digit of the bit, and the bit in it. -/
theorem roundPos_bits (fuel : Nat) : ∀ (start : Int) (d : Nat), 1 - start ≤ fuel → start ≤ 16 →
    ∃ D : Nat, roundPos fuel start d = (start + 16 * D, d + D) ∧ 1 ≤ start + 16 * D ∧
      start + 16 * D ≤ 16 := by
  induction fuel with
  | zero =>
      intro start d hfuel hstart
      exact ⟨0, by simp [roundPos], by omega, by omega⟩
  | succ fuel ih =>
      intro start d hfuel hstart
      rw [roundPos]
      split
      · obtain ⟨D, hD, h1, h2⟩ := ih (start + 16) (d + 1) (by omega) (by omega)
        refine ⟨D + 1, ?_, by push_cast; omega, by push_cast; omega⟩
        rw [hD]
        congr 1
        · push_cast
          ring
        · omega
      · exact ⟨0, by simp, by omega, by omega⟩

/-! ## Adding one at a bit -/

/-- A multiple of the base leaves the bits below a bit of a digit alone. -/
theorem clear_low {h b : Nat} (hb : b ≤ 16) :
    h * fbase + w / 2 ^ b * 2 ^ b = (h * fbase + w) / 2 ^ b * 2 ^ b := by
  have hsplit : h * fbase = h * 2 ^ (16 - b) * 2 ^ b := by
    rw [Nat.mul_assoc, ← pow_add, Nat.sub_add_cancel hb]
    rfl
  rw [hsplit, Nat.add_comm (h * 2 ^ (16 - b) * 2 ^ b) w,
    Nat.add_mul_div_right _ _ (Nat.two_pow_pos b)]
  ring

theorem or_round_carry {h b : Nat} (hb : b ≤ 15) :
    ((h * fbase + (w ||| bitround b)) / 2 ^ b + 1) / 2 = (h * fbase + w) / 2 ^ (b + 1) + 1 := by
  have hbase : fbase = 2 * 2 ^ (15 - b) * 2 ^ b := by
    rw [← pow_succ', ← pow_add, show 15 - b + 1 + b = 16 by omega]
    rfl
  have h1 : (h * fbase + (w ||| bitround b)) / 2 ^ b =
      (w ||| bitround b) / 2 ^ b + 2 * (h * 2 ^ (15 - b)) := by
    rw [hbase, Nat.add_comm, show h * (2 * 2 ^ (15 - b) * 2 ^ b) =
      2 * (h * 2 ^ (15 - b)) * 2 ^ b by ring, Nat.add_mul_div_right _ _ (Nat.two_pow_pos b)]
  have h2 : (h * fbase + w) / 2 ^ (b + 1) = w / 2 ^ (b + 1) + h * 2 ^ (15 - b) := by
    rw [hbase, Nat.add_comm, show h * (2 * 2 ^ (15 - b) * 2 ^ b) =
      h * 2 ^ (15 - b) * 2 ^ (b + 1) by ring,
      Nat.add_mul_div_right _ _ (Nat.two_pow_pos (b + 1))]
  have h3 := or_bitround_carry w b
  rw [h1, h2]
  omega

/-- A mantissa that has been cleared behind the digit `D`. -/
structure Cleared (mant : List Nat) (D : Nat) (hi : List Nat) (w : Nat) (rest : List Nat) :
    Prop where
  eq : mant = hi ++ w :: (List.replicate (7 - D) 0 ++ rest)
  place : D ≤ 7
  len : hi.length = D
  restLen : rest.length = 2
  bounded : Bounded fbase hi
  digit : w < fbase
  restBounded : Bounded fbase rest

/-- A cleared mantissa, and its number. -/
theorem Cleared.facts {f : Flt} {D : Nat} (h : Cleared f.mant D hi w rest) :
    f.mant.length = 10 ∧ Bounded fbase f.mant ∧
      val fbase f.digits = (val fbase hi * fbase + w) * fbase ^ (7 - D) := by
  have hplace := h.place
  have hlen := h.len
  have hdig : f.digits = (hi ++ [w]) ++ List.replicate (7 - D) 0 := by
    rw [Flt.digits, h.eq, show hi ++ w :: (List.replicate (7 - D) 0 ++ rest) =
      (hi ++ [w] ++ List.replicate (7 - D) 0) ++ rest by simp]
    refine List.take_left' ?_
    simp only [List.length_append, List.length_replicate, List.length_singleton, hlen, mantSize]
    omega
  refine ⟨?_, ?_, ?_⟩
  · rw [h.eq]
    simp only [List.length_append, List.length_cons, List.length_replicate, hlen, h.restLen]
    omega
  · rw [h.eq]
    exact bounded_append.2 ⟨h.bounded, bounded_cons.2 ⟨h.digit,
      bounded_append.2 ⟨bounded_replicate_zero fbase_pos _, h.restBounded⟩⟩⟩
  · rw [hdig, val_append_zeros, val_append]
    simp

theorem Cleared.set {mant : List Nat} {D : Nat} (h : Cleared mant D hi w rest) {v : Nat}
    (hv : v < fbase) : Cleared (mant.set D v) D hi v rest := by
  refine ⟨?_, h.place, h.len, h.restLen, h.bounded, hv, h.restBounded⟩
  rw [h.eq, ← h.len, List.set_append_right _ _ (le_refl _), Nat.sub_self, List.set_cons_zero]

theorem Cleared.getD {mant : List Nat} {D : Nat} (h : Cleared mant D hi w rest) :
    mant.getD D 0 = w := by
  rw [h.eq, ← h.len, List.getD_append_right _ _ _ _ (le_refl _), Nat.sub_self]
  rfl

/-- One is added at a bit and the bits up to it are cleared: the rest is rounded up
if the bit was set. -/
theorem roundUp_spec {f : Flt} {D b : Nat} (h : Cleared f.mant D hi w rest) (hb : b ≤ 15) :
    ∃ g, roundUp D b f = .ok g ∧ g.sign = f.sign ∧ g.mant.length = 10 ∧ Bounded fbase g.mant ∧
      ((g.exp = f.exp ∧ val fbase g.digits =
          ((val fbase hi * fbase + w) / 2 ^ b + 1) / 2 * 2 ^ (b + 1) * fbase ^ (7 - D)) ∨
        (g.exp = f.exp + 1 ∧ val fbase g.digits = fbase ^ 7 ∧
          ((val fbase hi * fbase + w) / 2 ^ b + 1) / 2 * 2 ^ (b + 1) * fbase ^ (7 - D) =
            fbase ^ 8)) := by
  have hD := h.place
  have hlow : w / 2 ^ b * 2 ^ b < fbase :=
    lt_of_le_of_lt (Nat.div_mul_le_self ..) h.digit
  have hset := h.set hlow
  obtain ⟨hlen, hbnd, -⟩ := hset.facts (f := { f with mant := f.mant.set D (w / 2 ^ b * 2 ^ b) })
  have htake : (f.mant.set D (w / 2 ^ b * 2 ^ b)).take (D + 1) = hi ++ [w / 2 ^ b * 2 ^ b] := by
    rw [hset.eq, ← List.singleton_append (l := List.replicate (7 - D) 0 ++ rest),
      ← List.append_assoc]
    exact List.take_left' (by simp [h.len])
  have hdrop : (f.mant.set D (w / 2 ^ b * 2 ^ b)).drop (D + 1) =
      List.replicate (7 - D) 0 ++ rest := by
    rw [hset.eq, ← List.singleton_append (l := List.replicate (7 - D) 0 ++ rest),
      ← List.append_assoc]
    exact List.drop_left' (by simp [h.len])
  have hval := val_addCarry (B := fbase) (bitround b) (hi ++ [w / 2 ^ b * 2 ^ b])
  have hrlen := length_addCarry (B := fbase) (bitround b) (hi ++ [w / 2 ^ b * 2 ^ b])
  have hrb := bounded_addCarry fbase_pos (bitround b) (hi ++ [w / 2 ^ b * 2 ^ b])
  have hlen1 : (hi ++ [w / 2 ^ b * 2 ^ b]).length = D + 1 := by simp [h.len]
  have hP : val fbase (hi ++ [w / 2 ^ b * 2 ^ b]) =
      (val fbase hi * fbase + w) / 2 ^ b * 2 ^ b := by
    rw [val_append, val_one, List.length_singleton, pow_one, clear_low (by omega)]
  have hQ : (val fbase hi * fbase + w) / 2 ^ b * 2 ^ b + bitround b =
      ((val fbase hi * fbase + w) / 2 ^ b + 1) * 2 ^ b := by
    rw [bitround]
    ring
  rw [hP, hQ, hlen1] at hval
  rw [hlen1] at hrlen
  rw [roundUp, h.getD, and_bitmask h.digit (by omega), htake, hdrop]
  generalize addCarry fbase (bitround b) (hi ++ [w / 2 ^ b * 2 ^ b]) = r at hval hrlen hrb ⊢
  by_cases hcarry : r.2 = 0
  · obtain ⟨hi', x, hr⟩ : ∃ hi' x, r.1 = hi' ++ [x] :=
      ⟨_, _, (List.dropLast_append_getLast (by intro h0; rw [h0] at hrlen; simp at hrlen)).symm⟩
    rw [hr] at hrlen hrb
    obtain ⟨hb1, hb2⟩ := bounded_append.1 hrb
    have hx : x < fbase := (bounded_cons.1 hb2).1
    have hm : Cleared (r.1 ++ (List.replicate (7 - D) 0 ++ rest)) D hi' x rest :=
      ⟨by rw [hr]; simp, hD, by simpa using hrlen, h.restLen, hb1, hx, h.restBounded⟩
    have hxlow : x / 2 ^ (b + 1) * 2 ^ (b + 1) < fbase := lt_of_le_of_lt (Nat.div_mul_le_self ..) hx
    have hmlen : D < (r.1 ++ (List.replicate (7 - D) 0 ++ rest)).length := by
      rw [hm.eq, List.length_append, hm.len, List.length_cons]
      omega
    simp only [hcarry, ne_eq, not_true_eq_false, if_false, Nat.add_zero, if_pos hmlen, hm.getD,
      and_bitmask hx (show b + 1 ≤ 16 by omega)]
    refine ⟨_, rfl, rfl, ?_⟩
    obtain ⟨h1, h2, h3⟩ := (hm.set hxlow).facts (f := { f with
      mant := (r.1 ++ (List.replicate (7 - D) 0 ++ rest)).set D (x / 2 ^ (b + 1) * 2 ^ (b + 1)) })
    refine ⟨h1, h2, .inl ⟨rfl, ?_⟩⟩
    have hrval : val fbase r.1 = val fbase hi' * fbase + x := by
      rw [hr, val_append, val_one, List.length_singleton, pow_one]
    rw [hcarry, Nat.zero_mul, Nat.add_zero, hrval] at hval
    rw [h3, clear_low (by omega), hval, pow_succ, Nat.mul_comm (2 ^ b) 2,
      Nat.mul_div_mul_right _ _ (Nat.two_pow_pos b)]
  · have hfull : ((val fbase hi * fbase + w) / 2 ^ b + 1) * 2 ^ b = fbase ^ (D + 1) ∧
        r.2 = 1 ∧ val fbase r.1 = 0 := by
      have hPlt : val fbase hi * fbase + w < fbase ^ (D + 1) := by
        have hhi := val_lt (h.bounded)
        have hw := h.digit
        rw [h.len] at hhi
        calc val fbase hi * fbase + w < val fbase hi * fbase + fbase := by omega
          _ = (val fbase hi + 1) * fbase := by ring
          _ ≤ fbase ^ D * fbase := Nat.mul_le_mul_right _ hhi
          _ = fbase ^ (D + 1) := (pow_succ ..).symm
      have hpow : fbase ^ (D + 1) = 2 ^ (16 * (D + 1) - b) * 2 ^ b := by
        rw [← pow_add, Nat.sub_add_cancel (by omega), pow_mul]
        rfl
      have hle : ((val fbase hi * fbase + w) / 2 ^ b + 1) * 2 ^ b ≤ fbase ^ (D + 1) := by
        rw [hpow]
        refine Nat.mul_le_mul_right _ (Nat.div_lt_of_lt_mul ?_)
        rw [Nat.mul_comm (2 ^ b), ← hpow]
        exact hPlt
      have hone : 1 * fbase ^ (D + 1) ≤ r.2 * fbase ^ (D + 1) :=
        Nat.mul_le_mul_right _ (Nat.pos_of_ne_zero hcarry)
      have hpos := fbase_pow_pos (D + 1)
      have hr2 : r.2 = 1 := by
        have : r.2 * fbase ^ (D + 1) ≤ 1 * fbase ^ (D + 1) := by omega
        have := Nat.le_of_mul_le_mul_right this hpos
        omega
      rw [hr2] at hval
      omega
    obtain ⟨hQB, hr2, hr1⟩ := hfull
    have hzeros : r.1 = List.replicate (D + 1) 0 := by
      rw [← hrlen]
      exact List.eq_replicate_of_mem (eq_zero_of_val_eq_zero fbase_pos hr1)
    have hm : r.1 ++ (List.replicate (7 - D) 0 ++ rest) = List.replicate 8 0 ++ rest := by
      rw [hzeros, ← List.append_assoc, List.replicate_append_replicate,
        show D + 1 + (7 - D) = 8 by omega]
    obtain ⟨i, hi7, hie⟩ : ∃ i, i ≤ 7 ∧ (if f.exp + 1 ≥ (mantSize : Int) then mantSize - 1
        else (f.exp + 1).toNat) = i := ⟨_, by rw [mantSize]; split <;> omega, rfl⟩
    have hshift : (List.replicate 8 0 ++ rest).take i ++ (List.replicate 8 0 ++ rest).drop (i + 1) =
        List.replicate 7 0 ++ rest := by
      rw [List.take_append_of_le_length (by simp; omega), List.take_replicate,
        List.drop_append_of_le_length (by simp; omega), List.drop_replicate, ← List.append_assoc,
        List.replicate_append_replicate, show min i 8 + (8 - (i + 1)) = 7 by omega]
    rw [hm]
    simp only [hr2, ne_eq, Nat.one_ne_zero, not_false_eq_true, if_true, hie, List.cons_append,
      hshift]
    have hmlen : D + 1 < (1 :: (List.replicate 7 0 ++ rest)).length := by
      simp [h.restLen]
      omega
    have hb10 : Bounded fbase (1 :: (List.replicate 7 0 ++ rest)) :=
      bounded_cons.2 ⟨by decide,
        bounded_append.2 ⟨bounded_replicate_zero fbase_pos 7, h.restBounded⟩⟩
    have hdigit := hb10.getD fbase_pos (D + 1)
    rw [if_pos hmlen, and_bitmask hdigit (by omega)]
    refine ⟨_, rfl, rfl, ?_, ?_, .inr ⟨rfl, ?_, ?_⟩⟩
    · simp [h.restLen]
    · exact hb10.set _ (lt_of_le_of_lt (Nat.div_mul_le_self ..) hdigit)
    · -- behind the one everything is zero, whether or not the mask meets the rest
      have hdig : Flt.digits { f with
          mant := (1 :: (List.replicate 7 0 ++ rest)).set (D + 1)
            ((1 :: (List.replicate 7 0 ++ rest)).getD (D + 1) 0 / 2 ^ (b + 1) * 2 ^ (b + 1)),
          exp := f.exp + 1 } = 1 :: List.replicate 7 0 := by
        rw [Flt.digits]
        dsimp only [mantSize]
        have htake8 : (1 :: (List.replicate 7 0 ++ rest)).take 8 = 1 :: List.replicate 7 0 := rfl
        by_cases hD7 : D = 7
        · rw [List.take_set_of_le (by omega), htake8]
        · have hzero : (1 :: (List.replicate 7 0 ++ rest)).getD (D + 1) 0 = 0 := by
            rw [List.getD_cons_succ, List.getD_append _ _ _ _ (by simp; omega)]
            exact getD_eq_zero_of_val_eq_zero fbase_pos (val_replicate_zero 7) D
          rw [hzero, Nat.zero_div, Nat.zero_mul, List.take_set, htake8, List.set_cons_succ,
            List.set_replicate_self]
      rw [hdig, val_cons, val_replicate_zero, List.length_replicate, Nat.one_mul, Nat.add_zero]
    · have hpow8 : fbase ^ (D + 1) * fbase ^ (7 - D) = fbase ^ 8 := by
        rw [← pow_add, show D + 1 + (7 - D) = 8 by omega]
      have heven : ((val fbase hi * fbase + w) / 2 ^ b + 1) = 2 * 2 ^ (16 * (D + 1) - b - 1) := by
        refine Nat.eq_of_mul_eq_mul_right (Nat.two_pow_pos b) ?_
        rw [hQB, ← pow_succ', ← pow_add, show 16 * (D + 1) - b - 1 + 1 + b = 16 * (D + 1) by omega,
          pow_mul]
        rfl
      rw [← hpow8, ← hQB, heven, Nat.mul_div_cancel_left _ (by decide), pow_succ]
      ring

/-! ## `flpt_round` -/

theorem any_ne_zero_iff (ds : List Nat) : ds.any (· ≠ 0) = false ↔ val fbase ds = 0 := by
  rw [List.any_eq_false]
  constructor
  · intro hz
    have hall : ds = List.replicate ds.length 0 :=
      List.eq_replicate_of_mem fun x hx => by simpa using hz x hx
    rw [hall, val_replicate_zero]
  · intro hz x hx
    simpa using eq_zero_of_val_eq_zero fbase_pos hz x hx

/-- The mantissa `N` without its last `T` bits, rounded in a mode. -/
def roundedMant (mode : RoundMode) (s : Int) (N T : Nat) : Nat :=
  match mode with
  | .r2zero => N / 2 ^ T
  | .r2pinf => if s ≠ 1 ∨ N % 2 ^ T = 0 then N / 2 ^ T else N / 2 ^ T + 1
  | .r2ninf => if s = 1 ∨ N % 2 ^ T = 0 then N / 2 ^ T else N / 2 ^ T + 1
  | .r2near => (N / 2 ^ (T - 1) + 1) / 2

/-- The bits that are dropped: those of the digits behind, and `b + 1` more. -/
theorem two_pow_place (n b : Nat) : 2 ^ (16 * n + b) = fbase ^ n * 2 ^ b := by
  rw [pow_add, pow_mul]
  rfl

/-- What the rounded number looks like: a carry out of the mantissa has raised its
exponent. -/
structure RoundedBits (f g : Flt) (M : Nat) : Prop where
  sign : g.sign = f.sign
  len : g.mant.length = 10
  bounded : Bounded fbase g.mant
  val : (g.exp = f.exp ∧ val fbase g.digits = M) ∨
    (g.exp = f.exp + 1 ∧ val fbase g.digits = fbase ^ 7 ∧ M = fbase ^ 8)

section Round

variable {f : Flt} (h : f.Legal) {D b : Nat} (hD : D ≤ 7) (hb : b ≤ 15)
include h hD

/-- The mantissa when the digits behind the digit `D` have been cleared. -/
theorem cleared_store : Cleared (f.store (f.digits.take (D + 1) ++
      (f.digits.drop (D + 1)).map fun _ => 0)).mant D (f.digits.take D) (f.digits.getD D 0)
    (f.mant.drop mantSize) := by
  have hlen := h.digits_length
  have hDl : D < f.digits.length := by
    rw [hlen, mantSize]
    omega
  refine ⟨?_, hD, ?_, ?_, h.digits_bounded.take D, h.digits_bounded.getD fbase_pos D,
    h.bounded.drop _⟩
  · have hsplit : f.digits.take (D + 1) = f.digits.take D ++ [f.digits.getD D 0] := by
      rw [List.take_add_one, List.getElem?_eq_getElem hDl, List.getD_eq_getElem _ _ hDl]
      rfl
    have hmap : (f.digits.drop (D + 1)).map (fun _ => 0) = List.replicate (7 - D) 0 := by
      rw [List.map_const', List.length_drop, hlen]
      congr 1
      rw [mantSize]
      omega
    have hl : (f.digits.take D ++ [f.digits.getD D 0] ++ List.replicate (7 - D) 0).length =
        mantSize := by
      simp only [List.length_append, List.length_take, hlen, List.length_replicate, mantSize,
        List.length_singleton]
      omega
    rw [hsplit, hmap, Flt.store, hl]
    simp
  · rw [List.length_take, hlen, mantSize]
    omega
  · rw [List.length_drop, h.len]
    rfl

/-- The digits up to the digit `D`. -/
theorem val_kept : val fbase (f.digits.take D) * fbase + f.digits.getD D 0 =
    val fbase f.digits / fbase ^ (7 - D) := by
  have hlen := h.digits_length
  have hDl : D < f.digits.length := by
    rw [hlen, mantSize]
    omega
  rw [← val_take_succ hDl, val_take h.digits_bounded (by omega), hlen]
  congr 2
  rw [mantSize]
  omega

include hb in
/-- Nothing is discarded. -/
theorem exact_iff_dvd :
    ((!((f.digits.drop (D + 1)).any (· ≠ 0)) &&
        decide (f.digits.getD D 0 &&& bitmask (b + 1) = f.digits.getD D 0)) = true) ↔
      val fbase f.digits % 2 ^ (16 * (7 - D) + (b + 1)) = 0 := by
  have hw : f.digits.getD D 0 < fbase := h.digits_bounded.getD fbase_pos D
  have hdrop := val_drop h.digits_bounded (D + 1)
  rw [h.digits_length, show mantSize - (D + 1) = 7 - D by rw [mantSize]; omega] at hdrop
  have hbase : fbase = 2 ^ (15 - b) * 2 ^ (b + 1) := by
    rw [← pow_add, show 15 - b + (b + 1) = 16 by omega]
    rfl
  have hlow : (val fbase f.digits / fbase ^ (7 - D)) % 2 ^ (b + 1) =
      f.digits.getD D 0 % 2 ^ (b + 1) := by
    rw [← val_kept h hD, hbase, ← Nat.mul_assoc, Nat.add_comm, Nat.add_mul_mod_self_right]
  have hmask : f.digits.getD D 0 / 2 ^ (b + 1) * 2 ^ (b + 1) = f.digits.getD D 0 ↔
      f.digits.getD D 0 % 2 ^ (b + 1) = 0 := by
    have := Nat.div_add_mod (f.digits.getD D 0) (2 ^ (b + 1))
    rw [Nat.mul_comm] at this
    omega
  rw [Bool.and_eq_true, Bool.not_eq_true', any_ne_zero_iff, decide_eq_true_iff,
    and_bitmask hw (by omega), hmask, hdrop, two_pow_place, ← hlow, Nat.mod_mul,
    Nat.add_eq_zero_iff, Nat.mul_eq_zero]
  have hpos := fbase_pow_pos (7 - D)
  constructor
  · rintro ⟨h1, h2⟩
    exact ⟨h1, .inr h2⟩
  · rintro ⟨h1, h2 | h2⟩
    · omega
    · exact ⟨h1, h2⟩

include hb in
/-- The digits from the bit on, and zeros. -/
theorem cut_rounded : RoundedBits f
    { f.store (f.digits.take (D + 1) ++ (f.digits.drop (D + 1)).map fun _ => 0) with
      mant := (f.store (f.digits.take (D + 1) ++
        (f.digits.drop (D + 1)).map fun _ => 0)).mant.set D
          (f.digits.getD D 0 &&& bitmask (b + 1)) }
    (val fbase f.digits / 2 ^ (16 * (7 - D) + (b + 1)) * 2 ^ (16 * (7 - D) + (b + 1))) := by
  have hw : f.digits.getD D 0 < fbase := h.digits_bounded.getD fbase_pos D
  rw [and_bitmask hw (by omega)]
  have hset := (cleared_store h hD).set (lt_of_le_of_lt (Nat.div_mul_le_self _ (2 ^ (b + 1))) hw)
  obtain ⟨h1, h2, h3⟩ := hset.facts (f := { f.store _ with mant := _ })
  refine ⟨rfl, h1, h2, .inl ⟨rfl, ?_⟩⟩
  rw [h3, clear_low (by omega), val_kept h hD, two_pow_place, Nat.div_div_eq_div_mul]
  ring

include hb in
/-- One is added at the bit `b`, which `w` may have set before. -/
theorem roundUp_rounded (hw : w < fbase) {R : Nat}
    (hR : ((val fbase (f.digits.take D) * fbase + w) / 2 ^ b + 1) / 2 = R) {k : Flt}
    (hk : k = { f.store (f.digits.take (D + 1) ++ (f.digits.drop (D + 1)).map fun _ => 0) with
      mant := (f.store (f.digits.take (D + 1) ++
        (f.digits.drop (D + 1)).map fun _ => 0)).mant.set D w }) :
    ∃ g, roundUp D b k = .ok g ∧ RoundedBits f g (R * 2 ^ (16 * (7 - D) + (b + 1))) := by
  subst hk
  have hset := (cleared_store h hD).set hw
  obtain ⟨g, hg, hsg, hlen, hbnd, hval⟩ := roundUp_spec (f := { f.store _ with mant := _ }) hset hb
  refine ⟨g, hg, hsg, hlen, hbnd, ?_⟩
  rw [hR] at hval
  rw [two_pow_place, show R * (fbase ^ (7 - D) * 2 ^ (b + 1)) =
    R * 2 ^ (b + 1) * fbase ^ (7 - D) by ring]
  exact hval

end Round

/-- `flpt_round` rounds the mantissa to `posn` bits. -/
theorem flptRound_spec {f : Flt} (h : f.Legal) (hs : f.sign ≠ 0) (mode : RoundMode) {posn : Int}
    (h0 : 0 ≤ posn) (h1 : posn ≤ 112) :
    ∃ g, flptRound mode posn f = .ok g ∧
      RoundedBits f g
        (roundedMant mode f.sign (val fbase f.digits)
            (ndig0 (f.mant.headD 0) + 112 - posn).toNat *
          2 ^ (ndig0 (f.mant.headD 0) + 112 - posn).toNat) := by
  obtain ⟨hL1, hL16, -, -⟩ := mant_bounds h hs
  obtain ⟨D, hpos, hlo, hhi⟩ := roundPos_bits (1 - ((ndig0 (f.mant.headD 0) : Int) - posn)).toNat
    (ndig0 (f.mant.headD 0) - posn) 0 (by omega) (by omega)
  have hD : D ≤ 7 := by omega
  obtain ⟨b, hb⟩ : ∃ b : Nat, (ndig0 (f.mant.headD 0) : Int) - posn + 16 * D - 1 = b :=
    ⟨_, (Int.toNat_of_nonneg (by omega)).symm⟩
  have hb15 : b ≤ 15 := by omega
  have hT : (ndig0 (f.mant.headD 0) + 112 - posn).toNat = 16 * (7 - D) + (b + 1) := by omega
  have hw : f.digits.getD D 0 < fbase := h.digits_bounded.getD fbase_pos D
  have hclear := cleared_store h hD
  have hexact := exact_iff_dvd h hD hb15
  have hcut := cut_rounded h hD hb15
  have hkept := val_kept h hD
  have hnout : ¬ f.mant.length ≤ D := by
    rw [h.len]
    omega
  have hsg : (f.store (f.digits.take (D + 1) ++
    (f.digits.drop (D + 1)).map fun _ => 0)).sign = f.sign := rfl
  have hdiv : ∀ n, (val fbase (f.digits.take D) * fbase + f.digits.getD D 0) / 2 ^ n =
      val fbase f.digits / 2 ^ (16 * (7 - D) + n) := by
    intro n
    rw [hkept, two_pow_place, Nat.div_div_eq_div_mul]
  -- the directed modes set the bit first, the other takes it as it is
  have hup := roundUp_rounded h hD hb15 (or_bitround_lt hw hb15)
    ((or_round_carry hb15).trans (by rw [hdiv])) rfl
  have hnear := roundUp_rounded h hD hb15 hw (by rw [hdiv]) (k := f.store (f.digits.take (D + 1) ++
    (f.digits.drop (D + 1)).map fun _ => 0)) (by rw [(hclear.set hw).eq, ← hclear.eq])
  rw [hT]
  simp only [flptRound, if_neg hs, hpos, hb, Int.toNat_natCast, Nat.zero_add, if_neg hnout,
    hclear.getD, hsg]
  cases mode with
  | r2zero => exact ⟨_, rfl, hcut⟩
  | r2pinf =>
      dsimp only
      split
      · next hc =>
          refine ⟨_, rfl, ?_⟩
          rw [roundedMant, if_pos (hc.imp_right hexact.1)]
          exact hcut
      · next hc =>
          rw [roundedMant, if_neg (mt (Or.imp_right hexact.2) hc)]
          exact hup
  | r2ninf =>
      dsimp only
      split
      · next hc =>
          refine ⟨_, rfl, ?_⟩
          rw [roundedMant, if_pos (hc.imp_right hexact.1)]
          exact hcut
      · next hc =>
          rw [roundedMant, if_neg (mt (Or.imp_right hexact.2) hc)]
          exact hup
  | r2near => exact hnear

/-- What a mode does to a number between two integers. -/
def roundInt : RoundMode → ℚ → Int
  | .r2zero => towardZero
  | .r2pinf => Int.ceil
  | .r2ninf => Int.floor
  | .r2near => halfAway

theorem roundInt_sign (mode : RoundMode) {s : Int} (hs : s = -1 ∨ s = 1) (N : Nat) {T : Nat}
    (hT : 1 ≤ T) :
    roundInt mode (s * ((N : ℚ) / (2 ^ T : Nat))) = s * roundedMant mode s N T := by
  have hpow := Nat.two_pow_pos T
  have hfloor : ⌊(N : ℚ) / (2 ^ T : Nat)⌋ = (N / 2 ^ T : Nat) :=
    floor_div hpow le_rfl (lt_add_one _)
  have htrunc : towardZero ((N : ℚ) / (2 ^ T : Nat)) = (N / 2 ^ T : Nat) :=
    towardZero_div hpow le_rfl (lt_add_one _)
  have hceil := ceil_div N hpow
  have hnear : halfAway ((N : ℚ) / (2 ^ T : Nat)) = ((N / 2 ^ (T - 1) + 1) / 2 : Nat) := by
    have hsplit : 2 ^ T = 2 * 2 ^ (T - 1) := by rw [← pow_succ', Nat.sub_add_cancel hT]
    rw [hsplit, halfAway_div (Nat.two_pow_pos _) le_rfl (lt_add_one _), Nat.mul_comm 2,
      ← Nat.div_div_eq_div_mul, Nat.add_div_right _ (Nat.two_pow_pos _)]
  rcases hs with rfl | rfl
  · rw [Int.cast_neg, Int.cast_one, neg_one_mul, neg_one_mul]
    cases mode with
    | r2zero => rw [roundInt, towardZero_neg, htrunc, roundedMant]
    | r2pinf => rw [roundInt, Int.ceil_neg, hfloor, roundedMant, if_pos (.inl (by decide))]
    | r2ninf =>
        rw [roundInt, Int.floor_neg, hceil, roundedMant]
        simp only [show ¬ (-1 : Int) = 1 by decide, false_or]
    | r2near => rw [roundInt, halfAway_neg, hnear, roundedMant]
  · rw [Int.cast_one, one_mul, one_mul]
    cases mode with
    | r2zero => rw [roundInt, htrunc, roundedMant]
    | r2pinf =>
        rw [roundInt, hceil, roundedMant]
        simp only [ne_eq, not_true_eq_false, false_or]
    | r2ninf => rw [roundInt, hfloor, roundedMant, if_pos (.inl rfl)]
    | r2near => rw [roundInt, hnear, roundedMant]

theorem roundedMant_ge (mode : RoundMode) (s : Int) (N : Nat) {T : Nat} (hT : 1 ≤ T) :
    N / 2 ^ T ≤ roundedMant mode s N T := by
  cases mode with
  | r2zero => exact le_rfl
  | r2pinf =>
      rw [roundedMant]
      split <;> omega
  | r2ninf =>
      rw [roundedMant]
      split <;> omega
  | r2near =>
      rw [roundedMant]
      rw [← Nat.sub_add_cancel hT, pow_succ, ← Nat.div_div_eq_div_mul, Nat.add_sub_cancel]
      omega

theorem RoundedBits.value {f g : Flt} {M : Nat} (h : RoundedBits f g M) :
    g.value = f.sign * (M * 2 ^ (16 * f.exp - 112)) := by
  rw [Flt.value, h.sign]
  rcases h.val with ⟨he, hv⟩ | ⟨he, hv, hM⟩
  · rw [he, hv]
  · rw [he, hv, hM, show 16 * (f.exp + 1) - 112 = 16 * f.exp - 112 + 16 by ring,
      zpow_add₀ two_ne_zero]
    push_cast
    ring

end Tendra.Ref
