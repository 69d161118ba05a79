import Mathlib.Tactic.IntervalCases
import Tendra.Lib.Word
import Tendra.Proofs.FltExact
import Tendra.Ref.F64

/-!
# Between a 64-bit integer and its number

A `flt64` is a pattern of 64 bits. `f64_to_flt` makes the number of the integer
that the pattern stands for, `flt_to_f64` makes the pattern of a number's
integer part, and the two are inverse on the integers that 64 bits can hold.
-/

namespace Tendra.Ref

open Tendra.Digits Tendra.Word

/-- The pattern of both words. -/
def F64.bits (x : F64) : BitVec 64 := x.big ++ x.small

theorem F64.toNat_bits (x : F64) : x.bits.toNat = x.big.toNat * 2 ^ 32 + x.small.toNat := by
  rw [F64.bits, BitVec.toNat_append, Nat.shiftLeft_eq, Nat.mul_comm,
    Nat.two_pow_add_eq_or_of_lt x.small.isLt]

theorem F64.neg_bits (x : F64) : x.neg.bits = -x.bits := by
  apply BitVec.eq_of_toNat_eq
  rw [BitVec.toNat_neg, F64.toNat_bits, F64.toNat_bits]
  have hs := x.small.isLt
  have hb := x.big.isLt
  have h1 : (1 : BitVec 32).toNat = 1 := rfl
  simp only [F64.neg]
  by_cases h0 : x.small = 0
  · have hs0 : x.small.toNat = 0 := by rw [h0]; rfl
    rw [if_pos (by rw [h0]; rfl), BitVec.toNat_add, BitVec.toNat_add, BitVec.toNat_not,
      BitVec.toNat_not, hs0, h1]
    omega
  · have hs0 : x.small.toNat ≠ 0 := fun h => h0 (BitVec.eq_of_toNat_eq h)
    have hne : ~~~x.small ≠ 0xffffffff := by
      intro h
      have := congrArg BitVec.toNat h
      rw [BitVec.toNat_not, show (0xffffffff : BitVec 32).toNat = 2 ^ 32 - 1 from rfl] at this
      omega
    rw [if_neg hne, BitVec.toNat_add, BitVec.toNat_not, BitVec.toNat_not, h1]
    omega

/-! ## From a number to a pattern -/

/-- The integer part of the magnitude of a number. -/
def Flt.intPart (f : Flt) : Nat :=
  if f.exp < 0 then 0 else val fbase (f.digits.take (f.exp.toNat + 1))

theorem digitPair_toNat {a b : Nat} (ha : a < 65536) (hb : b < 65536) :
    (BitVec.ofNat 32 a + BitVec.ofNat 32 b <<< 16).toNat = b * 65536 + a := by
  rw [BitVec.toNat_add, BitVec.toNat_shiftLeft, Nat.shiftLeft_eq, BitVec.toNat_ofNat,
    BitVec.toNat_ofNat]
  omega

theorem digit_toNat {a : Nat} (ha : a < 65536) : (BitVec.ofNat 32 a).toNat = a := by
  rw [BitVec.toNat_ofNat]
  omega

/-- The four digits that `flt_to_f64` looks at are the number modulo `2 ^ 64`. -/
theorem mantToF64_bits {mant : List Nat} {i : Nat} (hb : Bounded fbase mant)
    (hi : i < mant.length) :
    (mantToF64 mant i).bits = BitVec.ofNat 64 (val fbase (mant.take (i + 1))) := by
  have hd : ∀ k, mant.getD k 0 < 65536 := hb.getD fbase_pos
  have h0 : (0 : BitVec 32).toNat = 0 := rfl
  apply BitVec.eq_of_toNat_eq
  rw [F64.toNat_bits, BitVec.toNat_ofNat]
  rcases i with _ | _ | _ | i
  · have hv := val_take_succ (B := fbase) (show 0 < mant.length by omega)
    have e : mantToF64 mant 0 = ⟨0, BitVec.ofNat 32 (mant.getD 0 0)⟩ := rfl
    rw [e, hv, digit_toNat (hd 0)]
    have := hd 0
    simp only [List.take_zero, val_nil, h0]
    omega
  · have hv := val_take_succ (B := fbase) (show 0 < mant.length by omega)
    have hv1 := val_take_succ (B := fbase) (show 1 < mant.length by omega)
    have e : mantToF64 mant 1 =
        ⟨0, BitVec.ofNat 32 (mant.getD 1 0) + BitVec.ofNat 32 (mant.getD 0 0) <<< 16⟩ := rfl
    rw [e, hv1, hv, digitPair_toNat (hd 1) (hd 0)]
    have := hd 0
    have := hd 1
    simp only [List.take_zero, val_nil, h0, fbase]
    omega
  · have hv := val_take_succ (B := fbase) (show 0 < mant.length by omega)
    have hv1 := val_take_succ (B := fbase) (show 1 < mant.length by omega)
    have hv2 := val_take_succ (B := fbase) (show 2 < mant.length by omega)
    have e : mantToF64 mant 2 =
        ⟨BitVec.ofNat 32 (mant.getD 0 0),
          BitVec.ofNat 32 (mant.getD 2 0) + BitVec.ofNat 32 (mant.getD 1 0) <<< 16⟩ := rfl
    rw [e, hv2, hv1, hv, digitPair_toNat (hd 2) (hd 1), digit_toNat (hd 0)]
    have := hd 0
    have := hd 1
    have := hd 2
    simp only [List.take_zero, val_nil, fbase]
    omega
  · have hv := val_take_succ (B := fbase) (show i < mant.length by omega)
    have hv1 := val_take_succ (B := fbase) (show i + 1 < mant.length by omega)
    have hv2 := val_take_succ (B := fbase) (show i + 2 < mant.length by omega)
    have hv3 := val_take_succ (B := fbase) (show i + 3 < mant.length by omega)
    have e : mantToF64 mant (i + 3) =
        ⟨BitVec.ofNat 32 (mant.getD (i + 1) 0) + BitVec.ofNat 32 (mant.getD i 0) <<< 16,
          BitVec.ofNat 32 (mant.getD (i + 3) 0) +
            BitVec.ofNat 32 (mant.getD (i + 2) 0) <<< 16⟩ := by
      simp [mantToF64]
    rw [e, hv3, hv2, hv1, hv, digitPair_toNat (hd _) (hd _), digitPair_toNat (hd _) (hd _)]
    have := hd i
    have := hd (i + 1)
    have := hd (i + 2)
    have := hd (i + 3)
    simp only [fbase]
    omega

/-- `flt_to_f64` delivers the integer part with its sign, reduced to 64 bits. -/
theorem fltToF64_intPart {f : Flt} (hlen : f.digits.length = mantSize)
    (hb : Bounded fbase f.digits) (hexp : f.exp ≤ 7)
    (hsign : f.sign = 0 ∨ f.sign = 1 ∨ f.sign = -1) (sg : Bool) :
    ∃ x ov, fltToF64 f sg = .ok (x, ov) ∧
      x.bits = BitVec.ofInt 64 (f.sign * f.intPart) ∧
      (ov = true ↔ f.sign ≠ 0 ∧ (3 < f.exp ∨ (sg = true ∧ 2 ^ 63 ≤ f.intPart % 2 ^ 64))) := by
  have hneg0 : (F64.neg ⟨0, 0⟩).bits = 0 := by decide
  have h00 : (F64.mk 0 0).bits = 0 := by decide
  by_cases hz : f.sign = 0 ∨ f.exp < 0
  · refine ⟨_, _, by rw [fltToF64, if_pos hz], ?_, ?_⟩
    · have hprod : f.sign * f.intPart = 0 := by
        rcases hz with h | h
        · rw [h, Int.zero_mul]
        · rw [Flt.intPart, if_pos h]; simp
      rw [hprod]
      split
      · exact hneg0
      · exact h00
    · have : f.intPart = 0 ∨ f.sign = 0 := by
        rcases hz with h | h
        · exact .inr h
        · left; rw [Flt.intPart, if_pos h]
      constructor
      · simp
      · rintro ⟨hne, h | ⟨-, h⟩⟩
        · rcases hz with h' | h'
          · exact absurd h' hne
          · omega
        · rcases this with h' | h'
          · rw [h'] at h; omega
          · exact absurd h' hne
  · obtain ⟨n, hn⟩ : ∃ n : Nat, f.exp = n := ⟨f.exp.toNat, by omega⟩
    have hn7 : n ≤ 7 := by omega
    have hml : mantSize ≤ f.mant.length := by
      rw [← hlen, Flt.digits, List.length_take]
      omega
    have hpart : f.intPart = val fbase (f.digits.take (n + 1)) := by
      rw [Flt.intPart, if_neg (by omega), hn]; rfl
    have hmant : mantToF64 f.mant n = mantToF64 f.digits n := by
      have hg : ∀ k ≤ n, f.mant.getD k 0 = f.digits.getD k 0 := by
        intro k hk
        rw [Flt.digits, List.getD_eq_getElem?_getD, List.getD_eq_getElem?_getD,
          List.getElem?_take_of_lt (by rw [mantSize_eq]; omega)]
      simp only [mantToF64, hg n (le_refl n), hg (n - 1) (by omega), hg (n - 2) (by omega),
        hg (n - 3) (by omega)]
    have hbits : (mantToF64 f.mant n).bits = BitVec.ofNat 64 f.intPart := by
      rw [hmant, mantToF64_bits hb (by rw [hlen, mantSize_eq]; omega), hpart]
    refine ⟨_, _, by
      rw [fltToF64, if_neg hz]
      simp only [hn, Int.toNat_natCast]
      rw [if_neg (by rw [mantSize_eq] at hml; omega)], ?_, ?_⟩
    · have hs : f.sign = 1 ∨ f.sign = -1 := by tauto
      rcases hs with h | h
      · rw [h, if_neg (by decide), hbits, Int.one_mul, BitVec.ofInt_natCast]
      · rw [h, if_pos rfl, F64.neg_bits, hbits, Int.neg_one_mul, BitVec.ofInt_neg,
          BitVec.ofInt_natCast]
    · have hmsb : (mantToF64 f.mant n).big.msb = true ↔ 2 ^ 63 ≤ f.intPart % 2 ^ 64 := by
        have hnat := F64.toNat_bits (mantToF64 f.mant n)
        rw [hbits, BitVec.toNat_ofNat] at hnat
        have hs := (mantToF64 f.mant n).small.isLt
        rw [BitVec.msb_eq_decide, decide_eq_true_iff, hnat]
        omega
      simp only [Bool.or_eq_true, decide_eq_true_eq, Bool.and_eq_true, hmsb]
      have hne : f.sign ≠ 0 := fun h => hz (.inl h)
      rw [hn]
      constructor
      · rintro (h | h)
        · exact ⟨hne, .inl (by omega)⟩
        · exact ⟨hne, .inr h⟩
      · rintro ⟨-, h | h⟩
        · exact .inl (by omega)
        · exact .inr h

theorem Flt.Is.sign_cases {f : Flt} {v : Int} (h : f.Is v) :
    f.sign = 0 ∨ f.sign = 1 ∨ f.sign = -1 := by
  rw [h.sign]
  rcases lt_trichotomy v 0 with hv | hv | hv
  · exact .inr (.inr (Int.sign_eq_neg_one_of_neg hv))
  · exact .inl (by rw [hv]; rfl)
  · exact .inr (.inl (Int.sign_eq_one_of_pos hv))

theorem Flt.Is.intPart_eq {f : Flt} {v : Int} (h : f.Is v) (hv : v ≠ 0) :
    f.intPart = v.natAbs := by
  obtain ⟨n, hn, he, hval, -⟩ := h.val hv
  rw [Flt.intPart, if_neg (by omega), he, Int.toNat_natCast,
    val_take h.bounded (by rw [h.len, mantSize_eq]; omega), hval, h.len,
    show mantSize - (n + 1) = 7 - n by rw [mantSize_eq]; omega,
    Nat.mul_div_cancel _ (fbase_pow_pos _)]

/-- The pattern of an integer's number, and when `ov` is set. -/
theorem fltToF64_is {f : Flt} {v : Int} (h : f.Is v) (sg : Bool) :
    ∃ x ov, fltToF64 f sg = .ok (x, ov) ∧ x.bits = BitVec.ofInt 64 v ∧
      (ov = true ↔ if sg then 2 ^ 63 ≤ v.natAbs else 2 ^ 64 ≤ v.natAbs) := by
  by_cases hv : v = 0
  · subst hv
    have hs : f.sign = 0 := h.sign
    refine ⟨⟨0, 0⟩, false, ?_, by decide, by cases sg <;> simp⟩
    rw [fltToF64, if_pos (.inl hs), hs]
    rfl
  · obtain ⟨n, hn, he, hval, hnorm⟩ := h.val hv
    obtain ⟨x, ov, hx, hbits, hov⟩ :=
      fltToF64_intPart h.len h.bounded (by rw [he]; omega) h.sign_cases sg
    rw [h.intPart_eq hv] at hbits hov
    refine ⟨x, ov, hx, ?_, ?_⟩
    · rw [hbits, h.sign, Int.sign_mul_natAbs]
    · have hbig : 3 < f.exp ↔ 2 ^ 64 ≤ v.natAbs := by
        have hlt := val_lt h.bounded
        rw [hval, h.len, show fbase ^ mantSize = fbase ^ (n + 1) * fbase ^ (7 - n) by
          rw [← pow_add, show n + 1 + (7 - n) = mantSize by rw [mantSize_eq]; omega]] at hlt
        have hlt' := Nat.lt_of_mul_lt_mul_right hlt
        rw [he]
        constructor
        · intro h3
          have := Nat.pow_le_pow_right fbase_pos (show 4 ≤ n by omega)
          exact le_trans (by decide : 2 ^ 64 ≤ fbase ^ 4) (this.trans hnorm)
        · intro h64
          by_contra h3
          have := Nat.pow_le_pow_right fbase_pos (show n + 1 ≤ 4 by omega)
          exact absurd (hlt'.trans_le this) (Nat.not_lt.2 (le_trans (by decide) h64))
      have hne : f.sign ≠ 0 := mt h.sign_eq_zero.1 hv
      rw [hov, hbig]
      cases sg
      · simp [hne]
      · simp only [hne, ne_eq, not_false_eq_true, true_and, if_true]
        omega

/-! ## From a pattern to a number -/

theorem fltZero_store_digits (res : Flt) {ds : List Nat} (h : ds.length ≤ mantSize) :
    ((fltZero res).store ds).digits = ds ++ List.replicate (mantSize - ds.length) 0 := by
  simp only [Flt.digits, Flt.store, fltZero]
  rw [List.drop_append_of_le_length (by rw [List.length_replicate]; exact h),
    List.drop_replicate, List.take_append, List.take_of_length_le h]
  congr 1
  rw [List.take_append_of_le_length (by rw [List.length_replicate])]
  exact List.take_of_length_le (by rw [List.length_replicate])

/-- A number of few digits, stored over zeros. -/
theorem Flt.is_store_zero (res : Flt) {ds : List Nat} {v s : Int} {n : Nat}
    (hlen : ds.length = n + 1) (hn : n ≤ 7) (hb : Bounded fbase ds) (hs : s = v.sign)
    (hval : Digits.val fbase ds = v.natAbs) (hnorm : fbase ^ n ≤ v.natAbs) :
    Flt.Is { (fltZero res).store ds with sign := s, exp := n } v := by
  have hle : ds.length ≤ mantSize := by rw [hlen, mantSize_eq]; omega
  have hd : Flt.digits { (fltZero res).store ds with sign := s, exp := n } =
      ds ++ List.replicate (mantSize - ds.length) 0 :=
    (Flt.digits_with _ s n).trans (fltZero_store_digits res hle)
  refine ⟨?_, ?_, hs, fun _ => ⟨n, hn, rfl, ?_, hnorm⟩⟩
  · rw [hd, List.length_append, List.length_replicate]
    omega
  · rw [hd]
    exact bounded_append.2 ⟨hb, bounded_replicate_zero fbase_pos _⟩
  · rw [hd, val_append_zeros, hval, hlen, show mantSize - (n + 1) = 7 - n by
      rw [mantSize_eq]; omega]

theorem shiftRight16_toNat (x : BitVec 32) : (x >>> 16).toNat = x.toNat / 65536 := by
  rw [BitVec.toNat_ushiftRight, Nat.shiftRight_eq_div_pow]

theorem and_ffff_toNat (x : BitVec 32) : (x &&& 0xffff).toNat = x.toNat % 65536 := by
  rw [BitVec.toNat_and, show (0xffff : BitVec 32).toNat = 2 ^ 16 - 1 from rfl,
    Nat.and_two_pow_sub_one_eq_mod]

theorem and_ffff0000_eq_zero (x : BitVec 32) : x &&& 0xffff0000 = 0 ↔ x.toNat < 65536 := by
  have hhigh : x &&& (0xffff0000 : BitVec 32) = (x >>> 16) <<< 16 := by
    ext i hi
    simp only [BitVec.getElem_and, BitVec.getElem_shiftLeft, BitVec.getElem_ushiftRight]
    interval_cases i <;> simp
  rw [hhigh]
  have hx := x.isLt
  constructor
  · intro h
    have := congrArg BitVec.toNat h
    rw [BitVec.toNat_shiftLeft, Nat.shiftLeft_eq, shiftRight16_toNat] at this
    have h0 : (0 : BitVec 32).toNat = 0 := rfl
    rw [h0] at this
    omega
  · intro h
    apply BitVec.eq_of_toNat_eq
    rw [BitVec.toNat_shiftLeft, Nat.shiftLeft_eq, shiftRight16_toNat,
      show (0 : BitVec 32).toNat = 0 from rfl]
    omega

theorem halves_eq (x : Nat) : x / 65536 * fbase + x % 65536 = x := Nat.div_add_mod' ..

theorem words_eq (b s : Nat) : (b * fbase + s / 65536) * fbase + s % 65536 = b * 2 ^ 32 + s := by
  calc (b * fbase + s / 65536) * fbase + s % 65536
      = b * (fbase * fbase) + (s / 65536 * fbase + s % 65536) := by ring
    _ = b * 2 ^ 32 + s := by rw [halves_eq, show fbase * fbase = 2 ^ 32 from rfl]

/-- The number that `f64_to_flt` makes is the integer of the pattern. -/
theorem f64Flt_is (a : F64) (sg : Bool) (res : Flt) : (f64Flt a sg res).Is (decode sg a.bits) := by
  have hnat := a.toNat_bits
  have hbb := a.big.isLt
  have hsb := a.small.isLt
  by_cases hz : a.big = 0 ∧ a.small = 0
  · have hbits : a.bits = 0 := by
      apply BitVec.eq_of_toNat_eq
      rw [hnat, hz.1, hz.2]
      rfl
    rw [f64Flt, if_pos hz, hbits]
    cases sg <;> exact fltZero_is res
  · -- the magnitude, in two words, and the sign
    obtain ⟨m, hm, hsign, habs⟩ : ∃ m : F64,
        (if (sg && a.big.msb) = true then a.neg else a) = m ∧
        (if (sg && a.big.msb) = true then (-1 : Int) else 1) = (decode sg a.bits).sign ∧
        m.bits.toNat = (decode sg a.bits).natAbs := by
      have hmsb : a.big.msb = true ↔ 2 ^ 63 ≤ a.bits.toNat := by
        rw [BitVec.msb_eq_decide, decide_eq_true_iff, hnat]
        omega
      have hpos : 0 < a.bits.toNat := by
        rw [hnat]
        rcases Nat.eq_zero_or_pos a.big.toNat with h | h
        · rcases Nat.eq_zero_or_pos a.small.toNat with h' | h'
          · exact absurd ⟨BitVec.eq_of_toNat_eq h, BitVec.eq_of_toNat_eq h'⟩ hz
          · omega
        · omega
      have hlt := a.bits.isLt
      refine ⟨_, rfl, ?_⟩
      by_cases hneg : (sg && a.big.msb) = true
      · rw [if_pos hneg, if_pos hneg, F64.neg_bits, BitVec.toNat_neg]
        rw [Bool.and_eq_true, hmsb] at hneg
        rw [hneg.1, decode_true, BitVec.toInt_eq_toNat_cond, if_neg (by omega)]
        refine ⟨(Int.sign_eq_neg_one_of_neg (by omega)).symm, ?_⟩
        omega
      · rw [if_neg hneg, if_neg hneg]
        have hdec : decode sg a.bits = a.bits.toNat := by
          cases sg
          · rfl
          · rw [Bool.true_and, hmsb] at hneg
            rw [decode_true, BitVec.toInt_eq_toNat_cond, if_pos (by omega)]
        rw [hdec]
        exact ⟨(Int.sign_eq_one_of_pos (by omega)).symm, by omega⟩
    rw [f64Flt, if_neg hz]
    simp only [hm, hsign, shiftRight16_toNat, and_ffff_toNat, and_ffff0000_eq_zero]
    rw [m.toNat_bits] at habs
    have hmb := m.big.isLt
    have hms := m.small.isLt
    have hvpos : 0 < (decode sg a.bits).natAbs := by
      rw [Int.natAbs_pos]
      intro h0
      rw [h0] at hsign
      split at hsign <;> exact absurd hsign (by decide)
    generalize decode sg a.bits = v at *
    have hmod : ∀ k, k % 65536 < fbase := fun k => Nat.mod_lt _ (by decide)
    have hdiv : ∀ x : BitVec 32, x.toNat / 65536 < fbase := fun x => by
      have := x.isLt
      exact Nat.div_lt_of_lt_mul this
    by_cases hb0 : m.big = 0
    · rw [if_pos hb0]
      rw [hb0, show (0 : BitVec 32).toNat = 0 from rfl] at habs
      split
      · next hlow =>
          refine Flt.is_store_zero _ (n := 0) rfl (by omega) (by simp [hmod]) rfl ?_ ?_
          · rw [val_one]
            omega
          · rw [pow_zero]
            omega
      · next hlow =>
          refine Flt.is_store_zero _ (n := 1) rfl (by omega) (by simp [hmod, hdiv]) rfl ?_ ?_
          · rw [val_two, halves_eq]
            omega
          · rw [show fbase ^ 1 = 65536 from rfl]
            omega
    · have hbpos : m.big.toNat ≠ 0 := fun h => hb0 (BitVec.eq_of_toNat_eq h)
      rw [if_neg hb0]
      split
      · next hlow =>
          refine Flt.is_store_zero _ (n := 2) rfl (by omega) (by simp [hmod, hdiv]) rfl ?_ ?_
          · rw [val_three, Nat.mod_eq_of_lt hlow, words_eq]
            exact habs
          · rw [show fbase ^ 2 = 2 ^ 32 from rfl]
            omega
      · next hlow =>
          refine Flt.is_store_zero _ (n := 3) rfl (by omega) (by simp [hmod, hdiv]) rfl ?_ ?_
          · rw [val_four, halves_eq, words_eq]
            exact habs
          · rw [show fbase ^ 3 = 2 ^ 48 from rfl]
            omega

end Tendra.Ref
