import Tendra.Ref.Flpt

/-!
# Sums and products of integers are exact

An integer below `FBASE ^ MANT_SIZE` has a normalised `flt`. On such numbers
the emulator works with twice as many digits as it keeps: aligning the smaller
operand, adding and multiplying lose nothing, and if the result is again such
an integer, the digits that `dbl2float` cuts off are zero, so the rounding rule
has no say.
-/

namespace Tendra.Ref

open Tendra.Digits

variable {n : Nat} {v v1 v2 : Int} {mant acc : List Nat}

/-- The number `f` is the integer `v`, normalised. -/
structure Flt.Is (f : Flt) (v : Int) : Prop where
  len : f.digits.length = mantSize
  bounded : Bounded fbase f.digits
  sign : f.sign = v.sign
  val : v ≠ 0 → ∃ n : Nat, n ≤ 7 ∧ f.exp = n ∧
    val fbase f.digits = v.natAbs * fbase ^ (7 - n) ∧ fbase ^ n ≤ v.natAbs

theorem fbase_pos : 0 < fbase := by decide

theorem mantSize_eq : mantSize = 8 := rfl

theorem fbase_pow_pos (n : Nat) : 0 < fbase ^ n := Nat.pow_pos fbase_pos

@[simp] theorem Flt.digits_store (res : Flt) {ds : List Nat} (h : ds.length = mantSize) :
    (res.store ds).digits = ds := by
  simp only [Flt.digits, Flt.store]
  rw [← h, List.take_left]

theorem Flt.digits_with (f : Flt) (s e : Int) :
    Flt.digits { f with sign := s, exp := e } = f.digits := rfl

/-- A number is built from its digits, its sign and its exponent, whatever was
stored before. -/
theorem Flt.is_store (res : Flt) {ds : List Nat} {s e : Int} (hlen : ds.length = mantSize)
    (hb : Bounded fbase ds) (hs : s = v.sign) (hn : n ≤ 7) (he : e = n)
    (hval : Digits.val fbase ds = v.natAbs * fbase ^ (7 - n)) (hnorm : fbase ^ n ≤ v.natAbs) :
    Flt.Is { res.store ds with sign := s, exp := e } v := by
  have hd : Flt.digits { res.store ds with sign := s, exp := e } = ds :=
    (Flt.digits_with _ s e).trans (Flt.digits_store res hlen)
  exact ⟨by rw [hd, hlen], by rw [hd]; exact hb, hs,
    fun _ => ⟨n, hn, he, by rw [hd]; exact hval, hnorm⟩⟩

theorem fltZero_is (res : Flt) : (fltZero res).Is 0 := by
  have hd : (fltZero res).digits = List.replicate mantSize 0 :=
    Flt.digits_store res (List.length_replicate ..)
  refine ⟨?_, ?_, rfl, fun h => absurd rfl h⟩
  · rw [hd, List.length_replicate]
  · rw [hd]
    exact bounded_replicate_zero fbase_pos _

theorem fltCopy_is {f : Flt} (h : f.Is v) (res : Flt) : (fltCopy f res).Is v := by
  have hd : (fltCopy f res).digits = f.digits := Flt.digits_store res h.len
  exact ⟨by rw [hd, h.len], by rw [hd]; exact h.bounded, h.sign, fun hv => by
    rw [hd]; exact h.val hv⟩

/-- A sign is that of the integer, so it is zero only for zero. -/
theorem Flt.Is.sign_eq_zero {f : Flt} (h : f.Is v) : f.sign = 0 ↔ v = 0 := by
  rw [h.sign, Int.sign_eq_zero_iff_zero]

/-! ## Twice as many digits -/

/-- The digits of `d` are `N` at exponent `n`. -/
structure Dbl.Holds (mant : List Nat) (N n : Nat) : Prop where
  len : mant.length = 2 * mantSize
  bounded : Bounded fbase mant
  val : val fbase mant = N * fbase ^ (15 - n)

theorem flt2double_holds {f : Flt} {N : Nat} (hlen : f.digits.length = mantSize)
    (hb : Bounded fbase f.digits) (hn : n ≤ 7) (hval : val fbase f.digits = N * fbase ^ (7 - n)) :
    Dbl.Holds (flt2double f).mant N n where
  len := by simp only [flt2double, List.length_append, hlen, List.length_replicate, mantSize_eq]
  bounded := bounded_append.2 ⟨hb, bounded_replicate_zero fbase_pos _⟩
  val := by
    rw [flt2double, val_append_zeros, hval, Nat.mul_assoc, ← pow_add,
      show 7 - n + mantSize = 15 - n by rw [mantSize_eq]; omega]

theorem shiftRight_holds {d : Dbl} {N : Nat} (dist : Nat) (h : Dbl.Holds d.mant N n)
    (hn : n + dist ≤ 15) : Dbl.Holds (shiftRight d dist).mant N (n + dist) where
  len := by simp [shiftRight, h.len]
  bounded := (bounded_append.2 ⟨bounded_replicate_zero fbase_pos _, h.bounded⟩).take _
  val := by
    have hb : Bounded fbase (List.replicate dist 0 ++ d.mant) :=
      bounded_append.2 ⟨bounded_replicate_zero fbase_pos _, h.bounded⟩
    have hlen : (List.replicate dist 0 ++ d.mant).length = dist + 2 * mantSize := by
      rw [List.length_append, List.length_replicate, h.len]
    rw [shiftRight, val_take hb (by omega), hlen, val_append, val_replicate_zero, h.val,
      Nat.zero_mul, Nat.zero_add, show dist + 2 * mantSize - 2 * mantSize = dist by omega,
      show 15 - n = 15 - (n + dist) + dist by omega, pow_add, ← Nat.mul_assoc,
      Nat.mul_div_cancel _ (fbase_pow_pos dist)]

/-- Cutting a double mantissa down when the integer it holds is small enough. -/
theorem dbl2float_is {s e : Int} (h : Dbl.Holds mant v.natAbs n) (hs : s = v.sign) (he : e = n)
    (hn : n ≤ 7) (hnorm : fbase ^ n ≤ v.natAbs) (res : Flt) :
    (dbl2float ⟨mant, s, e⟩ res).Is v := by
  have hsplit : fbase ^ (15 - n) = fbase ^ (7 - n) * fbase ^ mantSize := by
    rw [← pow_add, show 7 - n + mantSize = 15 - n by rw [mantSize_eq]; omega]
  have hlen : mant.length - mantSize = mantSize := by rw [h.len]; decide
  have hlow : val fbase (mant.drop mantSize) = 0 := by
    rw [val_drop h.bounded, h.val, hlen, hsplit, ← Nat.mul_assoc, Nat.mul_mod_left]
  have hdigit : mant.getD mantSize 0 = 0 := by
    have := getD_eq_zero_of_val_eq_zero fbase_pos hlow 0
    rwa [List.getD_eq_getElem?_getD, List.getElem?_drop, Nat.add_zero,
      ← List.getD_eq_getElem?_getD] at this
  have hround : dbl2float ⟨mant, s, e⟩ res =
      { res.store (mant.take mantSize) with sign := s, exp := e } := by
    simp only [dbl2float, hdigit, fltIntRound, roundType]
    rfl
  rw [hround]
  refine Flt.is_store res ?_ (h.bounded.take _) hs hn he ?_ hnorm
  · rw [List.length_take, h.len]; rfl
  · rw [val_take h.bounded (by rw [h.len]; decide), h.val, hlen, hsplit, ← Nat.mul_assoc,
      Nat.mul_div_cancel _ (fbase_pow_pos _)]

/-! ## Normalisation -/

/-- The loop stops with a first digit that is not zero, having multiplied the
mantissa by the base once for each step of the exponent. -/
theorem normalise_spec {room : Nat} {e : Int} (hb : Bounded fbase mant) (hne : mant ≠ [])
    (hroom : fbase ^ (mant.length - 1) ≤ val fbase mant * fbase ^ room) :
    ∃ (k : Nat) (m : List Nat), normalise room mant e = some (m, e - k) ∧
      m.length = mant.length ∧ Bounded fbase m ∧
      val fbase m = val fbase mant * fbase ^ k ∧ fbase ^ (mant.length - 1) ≤ val fbase m := by
  induction room generalizing mant e with
  | zero =>
      have hle : fbase ^ (mant.length - 1) ≤ val fbase mant := by simpa using hroom
      refine ⟨0, mant, ?_, rfl, hb, by simp, hle⟩
      rw [normalise, if_pos ((headD_ne_zero_iff hb hne).2 hle)]
      simp
  | succ room ih =>
      by_cases hhead : mant.headD 0 = 0
      · have hlen : (mant.drop 1 ++ [0]).length = mant.length := by
          have : 0 < mant.length := List.length_pos_iff.2 hne
          simp
          omega
        have hb' : Bounded fbase (mant.drop 1 ++ [0]) :=
          bounded_append.2 ⟨hb.drop 1, bounded_cons.2 ⟨fbase_pos, bounded_nil⟩⟩
        have hroom' : fbase ^ ((mant.drop 1 ++ [0]).length - 1) ≤
            val fbase (mant.drop 1 ++ [0]) * fbase ^ room := by
          rw [hlen, val_rotate_zero hhead]
          calc fbase ^ (mant.length - 1) ≤ val fbase mant * fbase ^ (room + 1) := hroom
            _ = val fbase mant * fbase * fbase ^ room := by ring
        obtain ⟨k, m, hm, hml, hmb, hmv, hmn⟩ := ih (e := e - 1) hb' (by simp) hroom'
        refine ⟨k + 1, m, ?_, hml.trans hlen, hmb, ?_, hlen ▸ hmn⟩
        · rw [normalise, if_neg (by simpa using hhead)]
          simp only [hm]
          congr 2
          omega
        · rw [hmv, val_rotate_zero hhead]
          ring
      · refine ⟨0, mant, ?_, rfl, hb, by simp, (headD_ne_zero_iff hb hne).1 hhead⟩
        rw [normalise, if_pos hhead]
        simp

/-- An exponent that is not negative is far from the end of its range. -/
theorem room_of_nat (n : Nat) :
    15 ≤ ((n : Int) - eMin).toNat ∧ 15 ≤ ((n : Int) - eMin - 1).toNat := by
  rw [eMin]
  omega

/-- Normalising a double mantissa that holds a small integer, and cutting it
down. -/
theorem normalise_dbl2float {room : Nat} {s : Int} (h : Dbl.Holds mant v.natAbs n) (hs : s = v.sign)
    (hv : v ≠ 0) (hlt : v.natAbs < fbase ^ mantSize) (hn : n ≤ 15) (hroom : 15 ≤ room) (res : Flt) :
    ∃ (m : List Nat) (e : Int), normalise room mant n = some (m, e) ∧
      (dbl2float ⟨m, s, e⟩ res).Is v := by
  have hpos : 0 < v.natAbs := Int.natAbs_pos.2 hv
  have hne : mant ≠ [] := by
    rintro rfl
    exact absurd h.len (by decide)
  have hlen1 : mant.length - 1 = 15 := by rw [h.len, mantSize_eq]
  have hroom' : fbase ^ (mant.length - 1) ≤ val fbase mant * fbase ^ room := by
    rw [hlen1, h.val, Nat.mul_assoc, ← pow_add]
    calc fbase ^ 15 ≤ fbase ^ (15 - n + room) := Nat.pow_le_pow_right fbase_pos (by omega)
      _ ≤ v.natAbs * fbase ^ (15 - n + room) := Nat.le_mul_of_pos_left _ hpos
  obtain ⟨k, m, hm, hml, hmb, hmv, hmn⟩ := normalise_spec (e := n) h.bounded hne hroom'
  rw [hlen1] at hmn
  -- the mantissa is below `FBASE ^ 16`, so the exponent does not go below zero
  have hkn : k ≤ n := by
    by_contra hk
    have hbig : fbase ^ 16 ≤ val fbase m := by
      rw [hmv, h.val, Nat.mul_assoc, ← pow_add]
      calc fbase ^ 16 ≤ fbase ^ (15 - n + k) := Nat.pow_le_pow_right fbase_pos (by omega)
        _ ≤ v.natAbs * fbase ^ (15 - n + k) := Nat.le_mul_of_pos_left _ hpos
    have := val_lt hmb
    rw [hml, h.len] at this
    exact absurd hbig (Nat.not_le.2 this)
  have hval : val fbase m = v.natAbs * fbase ^ (15 - (n - k)) := by
    rw [hmv, h.val, Nat.mul_assoc, ← pow_add]
    congr 2
    omega
  have hnorm : fbase ^ (n - k) ≤ v.natAbs := by
    refine Nat.le_of_mul_le_mul_right ?_ (fbase_pow_pos (15 - (n - k)))
    rw [← hval, ← pow_add, show n - k + (15 - (n - k)) = 15 by omega]
    exact hmn
  have hexp : n - k ≤ 7 := by
    by_contra hgt
    have := Nat.pow_le_pow_right fbase_pos (show mantSize ≤ n - k by rw [mantSize_eq]; omega)
    exact absurd hlt (by omega)
  refine ⟨m, n - k, hm, ?_⟩
  exact dbl2float_is ⟨by rw [hml, h.len], hmb, hval⟩ hs (by omega) hexp hnorm res

/-! ## Addition -/

/-- The sum of two numbers of opposite signs, the first of which is larger. -/
theorem add_opposite {a b : Int} (hsign : a.sign ≠ b.sign) (ha : a ≠ 0) (hb : b ≠ 0)
    (hlt : b.natAbs < a.natAbs) :
    (a + b).natAbs = a.natAbs - b.natAbs ∧ (a + b).sign = a.sign ∧ a + b ≠ 0 := by
  rcases Int.lt_or_gt_of_ne ha with h | h <;> rcases Int.lt_or_gt_of_ne hb with h' | h'
  · exact absurd (by rw [Int.sign_eq_neg_one_of_neg h, Int.sign_eq_neg_one_of_neg h']) hsign
  · rw [Int.sign_eq_neg_one_of_neg h, Int.sign_eq_neg_one_of_neg (by omega)]
    omega
  · rw [Int.sign_eq_one_of_pos h, Int.sign_eq_one_of_pos (by omega)]
    omega
  · exact absurd (by rw [Int.sign_eq_one_of_pos h, Int.sign_eq_one_of_pos h']) hsign

theorem subMantissas_is {d1 d2 : Dbl} {res : Flt} (h1 : Dbl.Holds d1.mant v1.natAbs n)
    (h2 : Dbl.Holds d2.mant v2.natAbs n) (hs1 : d1.sign = v1.sign) (hs2 : d2.sign = v2.sign)
    (he : d1.exp = d2.exp) (hres : res.exp = n) (hn : n ≤ 7) (hv1 : v1 ≠ 0) (hv2 : v2 ≠ 0)
    (hdiff : v1.sign ≠ v2.sign) (hlt : (v1 + v2).natAbs < fbase ^ mantSize) :
    ∃ f, subMantissas d1 d2 res = (.okay, f) ∧ f.Is (v1 + v2) := by
  have hlen : d1.mant.length = d2.mant.length := by rw [h1.len, h2.len]
  have hcmp : dblMagCmp d1 d2 = Digits.cmp d1.mant d2.mant := by
    simp only [dblMagCmp, magnitudeCmp, hs1, hs2, he]
    rw [if_neg (by rwa [Int.sign_eq_zero_iff_zero]), if_neg (by rwa [Int.sign_eq_zero_iff_zero]),
      if_neg (by simp)]
  have hpow := fbase_pow_pos (15 - n)
  have hroom : 15 ≤ (res.exp - eMin).toNat := by
    rw [hres]
    exact (room_of_nat n).1
  -- the difference of two mantissas, the larger first
  have key : ∀ {da db : Dbl} {va vb : Int}, Dbl.Holds da.mant va.natAbs n →
      Dbl.Holds db.mant vb.natAbs n → va + vb = v1 + v2 → va.sign ≠ vb.sign → va ≠ 0 → vb ≠ 0 →
      vb.natAbs < va.natAbs → da.sign = va.sign →
      ∃ m e, normalise (res.exp - eMin).toNat (sub fbase da.mant db.mant).1 res.exp = some (m, e) ∧
        (dbl2float ⟨m, da.sign, e⟩ res).Is (v1 + v2) := by
    intro da db va vb ha hb hsum hsg hva hvb hgt hda
    have hlenab : da.mant.length = db.mant.length := by rw [ha.len, hb.len]
    obtain ⟨hnat, hsign, hne⟩ := add_opposite hsg hva hvb hgt
    rw [hsum] at hnat hsign hne
    have hborrow : (sub fbase da.mant db.mant).2 = 0 := by
      have hle := sub_borrow_le (B := fbase) da.mant db.mant
      have hiff := sub_borrow_iff hlenab ha.bounded hb.bounded
      have hnlt : ¬ val fbase da.mant < val fbase db.mant := by
        rw [ha.val, hb.val]
        exact Nat.not_lt.2 (Nat.mul_le_mul_right _ hgt.le)
      by_contra h0
      exact hnlt (hiff.1 (by omega))
    have hval := val_sub hlenab hb.bounded
    rw [hborrow, Nat.zero_mul, Nat.add_zero, ha.val, hb.val] at hval
    have hholds : Dbl.Holds (sub fbase da.mant db.mant).1 (v1 + v2).natAbs n := by
      refine ⟨by rw [length_sub _ _ hlenab, ha.len], bounded_sub ha.bounded hb.bounded, ?_⟩
      rw [hnat, Nat.sub_mul]
      omega
    obtain ⟨m, e, hm, his⟩ := normalise_dbl2float hholds (hda.trans hsign.symm) hne hlt
      (by omega) hroom res
    rw [hres] at hm ⊢
    exact ⟨m, e, hm, his⟩
  simp only [subMantissas, hcmp]
  split
  · next heq =>
      have hval : val fbase d1.mant = val fbase d2.mant := by rw [(cmp_eq_iff hlen).1 heq]
      rw [h1.val, h2.val] at hval
      have habs : v1.natAbs = v2.natAbs := Nat.eq_of_mul_eq_mul_right hpow hval
      have hzero : v1 + v2 = 0 := by
        rcases Int.natAbs_eq_natAbs_iff.1 habs with h | h
        · exact absurd (by rw [h]) hdiff
        · omega
      rw [hzero]
      exact ⟨_, rfl, fltZero_is res⟩
  · next hne =>
      by_cases hcl : Digits.cmp d1.mant d2.mant = .lt
      · have hval := (cmp_lt_iff hlen h1.bounded h2.bounded).1 hcl
        rw [h1.val, h2.val] at hval
        simp only [hcl, if_true]
        obtain ⟨m, e, hm, his⟩ :=
          key h2 h1 (by omega) hdiff.symm hv2 hv1 (Nat.lt_of_mul_lt_mul_right hval) hs2
        rw [hm]
        exact ⟨_, rfl, his⟩
      · have hval : v2.natAbs ≤ v1.natAbs := by
          by_contra hgt
          refine hcl ((cmp_lt_iff hlen h1.bounded h2.bounded).2 ?_)
          rw [h1.val, h2.val]
          exact Nat.mul_lt_mul_of_pos_right (by omega) hpow
        have hne' : v2.natAbs ≠ v1.natAbs := by
          intro heq
          refine hne ((cmp_eq_iff hlen).2 (val_inj h1.bounded h2.bounded hlen ?_))
          rw [h1.val, h2.val, heq]
        simp only [if_neg hcl]
        obtain ⟨m, e, hm, his⟩ := key h1 h2 rfl hdiff hv1 hv2 (by omega) hs1
        rw [hm]
        exact ⟨_, rfl, his⟩

theorem addMantissas_is {d1 d2 : Dbl} {res : Flt} (h1 : Dbl.Holds d1.mant v1.natAbs n)
    (h2 : Dbl.Holds d2.mant v2.natAbs n) (hs1 : d1.sign = v1.sign) (hs2 : d2.sign = v2.sign)
    (he : d1.exp = d2.exp) (hres : res.exp = n) (hn : n ≤ 7) (hv1 : v1 ≠ 0) (hv2 : v2 ≠ 0)
    (hnorm : fbase ^ n ≤ v1.natAbs ∨ fbase ^ n ≤ v2.natAbs)
    (hlt : (v1 + v2).natAbs < fbase ^ mantSize) :
    ∃ f, addMantissas d1 d2 res = (.okay, f) ∧ f.Is (v1 + v2) := by
  by_cases hsg : v1.sign = v2.sign
  · have hsum : (v1 + v2).natAbs = v1.natAbs + v2.natAbs ∧ (v1 + v2).sign = v1.sign := by
      rcases Int.lt_or_gt_of_ne hv1 with h | h <;> rcases Int.lt_or_gt_of_ne hv2 with h' | h'
      · rw [Int.sign_eq_neg_one_of_neg h, Int.sign_eq_neg_one_of_neg (by omega)]
        omega
      · rw [Int.sign_eq_neg_one_of_neg h, Int.sign_eq_one_of_pos h'] at hsg
        exact absurd hsg (by decide)
      · rw [Int.sign_eq_one_of_pos h, Int.sign_eq_neg_one_of_neg h'] at hsg
        exact absurd hsg (by decide)
      · rw [Int.sign_eq_one_of_pos h, Int.sign_eq_one_of_pos (by omega)]
        omega
    obtain ⟨hnat, hsign⟩ := hsum
    have hlen : d1.mant.length = d2.mant.length := by rw [h1.len, h2.len]
    have hval := val_add (B := fbase) d1.mant d2.mant hlen
    have hrlen : (add fbase d1.mant d2.mant).1.length = 2 * mantSize := by
      rw [length_add _ _ hlen, h1.len]
    have hrb := bounded_add fbase_pos d1.mant d2.mant
    have hle : fbase ^ n ≤ (v1 + v2).natAbs := by omega
    rw [h1.val, h2.val, ← Nat.add_mul, ← hnat, h1.len] at hval
    have hcarry : (add fbase d1.mant d2.mant).2 < fbase := by
      have hl1 := val_lt h1.bounded
      have hl2 := val_lt h2.bounded
      rw [h1.len, h1.val] at hl1
      rw [h2.len, h2.val] at hl2
      have : (add fbase d1.mant d2.mant).2 * fbase ^ (2 * mantSize) <
          2 * fbase ^ (2 * mantSize) := by
        rw [hnat, Nat.add_mul] at hval
        omega
      have := Nat.lt_of_mul_lt_mul_right this
      exact this.trans (by decide)
    simp only [addMantissas, hs1, hs2, hsg, if_true]
    rw [← hsg, ← hsign]
    generalize add fbase d1.mant d2.mant = r at *
    by_cases hc : r.2 = 0
    · rw [if_neg (by simpa using hc)]
      rw [hc, Nat.zero_mul, Nat.add_zero] at hval
      exact ⟨_, rfl, dbl2float_is ⟨hrlen, hrb, hval⟩ rfl hres hn hle res⟩
    · -- a carry makes room for itself, and the sum needs one more place
      have hbig : fbase ^ (n + 1) ≤ (v1 + v2).natAbs := by
        refine Nat.le_of_mul_le_mul_right ?_ (fbase_pow_pos (15 - n))
        rw [← hval, ← pow_add, show n + 1 + (15 - n) = 2 * mantSize by rw [mantSize_eq]; omega]
        have : 1 * fbase ^ (2 * mantSize) ≤ r.2 * fbase ^ (2 * mantSize) :=
          Nat.mul_le_mul_right _ (by omega)
        omega
      have hn1 : n + 1 ≤ 7 := by
        by_contra hgt
        have := Nat.pow_le_pow_right fbase_pos (show mantSize ≤ n + 1 by rw [mantSize_eq]; omega)
        exact absurd hlt (by omega)
      have hholds : Dbl.Holds (r.2 :: r.1.take (2 * mantSize - 1)) (v1 + v2).natAbs (n + 1) := by
        have htl : (r.1.take (2 * mantSize - 1)).length = 2 * mantSize - 1 := by
          rw [List.length_take, hrlen]; rfl
        refine ⟨?_, bounded_cons.2 ⟨hcarry, hrb.take _⟩, ?_⟩
        · rw [List.length_cons, htl, mantSize_eq]
        · have htake := val_take hrb (n := 2 * mantSize - 1) (by rw [hrlen]; decide)
          rw [hrlen, show 2 * mantSize - (2 * mantSize - 1) = 1 by decide, pow_one] at htake
          rw [val_cons, htl, htake]
          refine Nat.eq_of_mul_eq_mul_right fbase_pos ?_
          have hdvd : fbase ∣ val fbase r.1 := by
            have : fbase ∣ val fbase r.1 + r.2 * fbase ^ (2 * mantSize) := by
              rw [hval, show 15 - n = 14 - n + 1 by omega, pow_succ, ← Nat.mul_assoc]
              exact Nat.dvd_mul_left ..
            exact (Nat.dvd_add_left (Dvd.dvd.mul_left (dvd_pow_self _ (by decide)) _)).1 this
          rw [Nat.add_mul, Nat.div_mul_cancel hdvd, Nat.mul_assoc, Nat.mul_assoc, ← pow_succ,
            ← pow_succ, show 15 - (n + 1) + 1 = 15 - n by omega, ← hval]
          exact Nat.add_comm ..
      rw [if_pos hc, if_neg]
      · exact ⟨_, rfl, dbl2float_is hholds rfl (by rw [hres]; rfl) hn1 hbig res⟩
      · rw [hres, eMax, eMin]
        omega
  · simp only [addMantissas, hs1, hs2, if_neg hsg]
    exact subMantissas_is h1 h2 hs1 hs2 he hres hn hv1 hv2 hsg hlt

/-- The sum of two integers, when it has a number. -/
theorem fltAdd_is {f1 f2 : Flt} (h1 : f1.Is v1) (h2 : f2.Is v2)
    (hlt : (v1 + v2).natAbs < fbase ^ mantSize) (res : Flt) :
    ∃ f, fltAdd f1 f2 res = (.okay, f) ∧ f.Is (v1 + v2) := by
  by_cases hv1 : v1 = 0
  · rw [fltAdd, if_pos (h1.sign_eq_zero.2 hv1), hv1, Int.zero_add]
    exact ⟨_, rfl, fltCopy_is h2 res⟩
  by_cases hv2 : v2 = 0
  · rw [fltAdd, if_neg (mt h1.sign_eq_zero.1 hv1), if_pos (h2.sign_eq_zero.2 hv2), hv2,
      Int.add_zero]
    exact ⟨_, rfl, fltCopy_is h1 res⟩
  obtain ⟨n1, hn1, he1, hval1, hnorm1⟩ := h1.val hv1
  obtain ⟨n2, hn2, he2, hval2, hnorm2⟩ := h2.val hv2
  have hd1 := flt2double_holds h1.len h1.bounded hn1 hval1
  have hd2 := flt2double_holds h2.len h2.bounded hn2 hval2
  have hx1 : (flt2double f1).exp = n1 := he1
  have hx2 : (flt2double f2).exp = n2 := he2
  rw [fltAdd, if_neg (mt h1.sign_eq_zero.1 hv1), if_neg (mt h2.sign_eq_zero.1 hv2)]
  dsimp only
  rw [hx1, hx2]
  rcases Nat.lt_trichotomy n1 n2 with hlt12 | heq | hgt
  · have hsh := shiftRight_holds (n2 - n1) hd1 (by omega)
    rw [show n1 + (n2 - n1) = n2 by omega] at hsh
    rw [if_pos (by omega), if_neg (by omega), show ((n2 : Int) - n1).toNat = n2 - n1 by omega]
    refine addMantissas_is hsh hd2 h1.sign h2.sign ?_ ?_ hn2 hv1 hv2 (.inr hnorm2) hlt
    · simp only [shiftRight, hx1, hx2]; omega
    · simp only [shiftRight, hx1]; omega
  · subst heq
    rw [if_neg (by omega), if_neg (by omega)]
    exact addMantissas_is hd1 hd2 h1.sign h2.sign (hx1.trans hx2.symm) hx1 hn1 hv1 hv2
      (.inl hnorm1) hlt
  · have hsh := shiftRight_holds (n1 - n2) hd2 (by omega)
    rw [show n2 + (n1 - n2) = n1 by omega] at hsh
    rw [if_neg (by omega), if_pos (by omega), show ((n1 : Int) - n2).toNat = n1 - n2 by omega]
    refine addMantissas_is hd1 hsh h1.sign h2.sign ?_ hx1 hn1 hv1 hv2 (.inl hnorm1) hlt
    simp only [shiftRight, hx1, hx2]; omega

theorem Flt.Is.neg {f : Flt} (h : f.Is v) : Flt.Is { f with sign := -f.sign } (-v) := by
  refine ⟨h.len, h.bounded, ?_, fun hv => ?_⟩
  · simp [h.sign, Int.sign_neg]
  · rw [Int.natAbs_neg]
    exact h.val (by omega)

theorem fltSub_is {f1 f2 : Flt} (h1 : f1.Is v1) (h2 : f2.Is v2)
    (hlt : (v1 - v2).natAbs < fbase ^ mantSize) (res : Flt) :
    ∃ f, fltSub f1 f2 res = (.okay, f) ∧ f.Is (v1 - v2) := by
  rw [Int.sub_eq_add_neg] at hlt ⊢
  exact fltAdd_is h1 h2.neg hlt res

/-! ## Multiplication -/

/-- The carry loop adds `temp` at its place, as long as the sum fits the
accumulator: then the carry is used up before the front. -/
theorem accumulate_spec (k temp : Nat) (hb : Bounded fbase acc) (hk : k ≤ acc.length)
    (hfit : val fbase acc + temp * fbase ^ (acc.length - k) < fbase ^ acc.length) :
    ∃ acc', accumulate acc k temp = .ok acc' ∧ acc'.length = acc.length ∧ Bounded fbase acc' ∧
      val fbase acc' = val fbase acc + temp * fbase ^ (acc.length - k) := by
  induction k generalizing acc temp with
  | zero =>
      by_cases h0 : temp = 0
      · subst h0
        exact ⟨acc, by rw [accumulate, if_pos rfl], rfl, hb, by simp⟩
      · have : 1 * fbase ^ (acc.length - 0) ≤ temp * fbase ^ (acc.length - 0) :=
          Nat.mul_le_mul_right _ (by omega)
        rw [Nat.sub_zero] at this hfit
        omega
  | succ k ih =>
      by_cases h0 : temp = 0
      · subst h0
        exact ⟨acc, by rw [accumulate, if_pos rfl], rfl, hb, by simp⟩
      · rw [accumulate, if_neg h0]
        dsimp only
        have hset := val_set (B := fbase) (show k < acc.length by omega)
          ((acc.getD k 0 + temp % fbase) % fbase)
        have hw : fbase ^ (acc.length - k) = fbase * fbase ^ (acc.length - 1 - k) := by
          rw [← pow_succ', show acc.length - 1 - k + 1 = acc.length - k by omega]
        have hw1 : acc.length - (k + 1) = acc.length - 1 - k := by omega
        have hdm := Nat.mod_add_div (acc.getD k 0 + temp % fbase) fbase
        have hdm' := Nat.mod_add_div temp fbase
        have hb' : Bounded fbase (acc.set k ((acc.getD k 0 + temp % fbase) % fbase)) :=
          hb.set k (Nat.mod_lt _ fbase_pos)
        -- the digit keeps the low half of the sum, the rest moves one place up
        have hsum : val fbase (acc.set k ((acc.getD k 0 + temp % fbase) % fbase)) +
            ((acc.getD k 0 + temp % fbase) / fbase + temp / fbase) * fbase ^ (acc.length - k) =
            val fbase acc + temp * fbase ^ (acc.length - (k + 1)) := by
          rw [hw, hw1]
          generalize fbase ^ (acc.length - 1 - k) = w at *
          generalize hq : (acc.getD k 0 + temp % fbase) / fbase = q at *
          generalize hr : (acc.getD k 0 + temp % fbase) % fbase = r at *
          have e1 : (r + fbase * q) * w + fbase * (temp / fbase) * w =
              acc.getD k 0 * w + (temp % fbase + fbase * (temp / fbase)) * w := by
            rw [hdm]; ring
          rw [hdm'] at e1
          have e2 : (q + temp / fbase) * (fbase * w) + r * w =
              (r + fbase * q) * w + fbase * (temp / fbase) * w := by ring
          omega
        have hlen : (acc.set k ((acc.getD k 0 + temp % fbase) % fbase)).length = acc.length :=
          List.length_set ..
        obtain ⟨acc', h1, h2, h3, h4⟩ := ih _ hb' (by rw [hlen]; omega) (by
          rw [hlen, hsum]; exact hfit)
        exact ⟨acc', h1, h2.trans hlen, h3, by rw [h4, hlen, hsum]⟩

theorem mulRow_spec (x : Nat) (ys : List Nat) {k : Nat} (hb : Bounded fbase acc)
    (hk : k + ys.length ≤ acc.length + 1)
    (hfit : val fbase acc + x * val fbase ys * fbase ^ (acc.length + 1 - k - ys.length) <
      fbase ^ acc.length) :
    ∃ acc', mulRow x ys k acc = .ok acc' ∧ acc'.length = acc.length ∧ Bounded fbase acc' ∧
      val fbase acc' =
        val fbase acc + x * val fbase ys * fbase ^ (acc.length + 1 - k - ys.length) := by
  induction ys generalizing k with
  | nil => exact ⟨acc, rfl, rfl, hb, by simp⟩
  | cons y ys ih =>
      have hsplit : x * val fbase (y :: ys) * fbase ^ (acc.length + 1 - k - (y :: ys).length) =
          x * val fbase ys * fbase ^ (acc.length + 1 - (k + 1) - ys.length) +
            x * y * fbase ^ (acc.length - k) := by
        have hexp : acc.length - k = ys.length + (acc.length + 1 - (k + 1) - ys.length) := by
          rw [List.length_cons] at hk
          omega
        rw [val_cons, List.length_cons, hexp, pow_add,
          show acc.length + 1 - k - (ys.length + 1) = acc.length + 1 - (k + 1) - ys.length by omega]
        ring
      rw [hsplit] at hfit ⊢
      have hk' : k + 1 + ys.length ≤ acc.length + 1 := by
        rw [List.length_cons] at hk
        omega
      obtain ⟨a1, ha1, hl1, hb1, hv1⟩ := ih hk' (by omega)
      obtain ⟨a2, ha2, hl2, hb2, hv2⟩ := accumulate_spec k (x * y) hb1
        (by rw [hl1]; omega) (by rw [hl1, hv1]; omega)
      refine ⟨a2, ?_, hl2.trans hl1, hb2, by rw [hv2, hv1, hl1]; omega⟩
      rw [mulRow, ha1]
      exact ha2

theorem mulRows_spec (ys xs : List Nat) {k : Nat} (hb : Bounded fbase acc)
    (hk : k + xs.length + ys.length ≤ acc.length + 2) (hfit : val fbase acc +
      val fbase xs * val fbase ys * fbase ^ (acc.length + 2 - k - xs.length - ys.length) <
      fbase ^ acc.length) :
    ∃ acc', mulRows ys xs k acc = .ok acc' ∧ acc'.length = acc.length ∧ Bounded fbase acc' ∧
      val fbase acc' = val fbase acc +
        val fbase xs * val fbase ys * fbase ^ (acc.length + 2 - k - xs.length - ys.length) := by
  induction xs generalizing k with
  | nil => exact ⟨acc, rfl, rfl, hb, by simp⟩
  | cons x xs ih =>
      have hsplit : val fbase (x :: xs) * val fbase ys *
            fbase ^ (acc.length + 2 - k - (x :: xs).length - ys.length) =
          val fbase xs * val fbase ys *
              fbase ^ (acc.length + 2 - (k + 1) - xs.length - ys.length) +
            x * val fbase ys * fbase ^ (acc.length + 1 - k - ys.length) := by
        have hexp : acc.length + 1 - k - ys.length =
            xs.length + (acc.length + 2 - (k + 1) - xs.length - ys.length) := by
          rw [List.length_cons] at hk
          omega
        rw [val_cons, List.length_cons, hexp, pow_add,
          show acc.length + 2 - k - (xs.length + 1) - ys.length =
            acc.length + 2 - (k + 1) - xs.length - ys.length by omega]
        ring
      rw [hsplit] at hfit ⊢
      rw [List.length_cons] at hk
      obtain ⟨a1, ha1, hl1, hb1, hv1⟩ := ih (k := k + 1) (by omega) (by omega)
      obtain ⟨a2, ha2, hl2, hb2, hv2⟩ := mulRow_spec x ys (k := k) hb1
        (by rw [hl1]; omega) (by rw [hl1, hv1]; omega)
      refine ⟨a2, ?_, hl2.trans hl1, hb2, by rw [hv2, hv1, hl1]; omega⟩
      rw [mulRows, ha1]
      exact ha2

/-- The accumulator ends with the product of the two mantissas. -/
theorem mulRows_product {xs ys : List Nat} (hx : xs.length = mantSize) (hy : ys.length = mantSize)
    (hbx : Bounded fbase xs) (hby : Bounded fbase ys) :
    ∃ acc, mulRows ys xs 2 (List.replicate (2 * mantSize) 0) = .ok acc ∧
      acc.length = 2 * mantSize ∧ Bounded fbase acc ∧
      val fbase acc = val fbase xs * val fbase ys := by
  have hlx := val_lt hbx
  have hly := val_lt hby
  rw [hx] at hlx
  rw [hy] at hly
  have hlt : val fbase xs * val fbase ys < fbase ^ (2 * mantSize) := by
    rw [Nat.two_mul, pow_add]
    exact Nat.mul_lt_mul'' hlx hly
  have h := mulRows_spec ys xs (k := 2)
    (bounded_replicate_zero fbase_pos (2 * mantSize)) (by
      rw [List.length_replicate, hx, hy]; decide)
  simp only [List.length_replicate, val_replicate_zero, Nat.zero_add, hx, hy,
    show 2 * mantSize + 2 - 2 - mantSize - mantSize = 0 by decide, pow_zero, Nat.mul_one] at h
  exact h hlt

/-- The product of two integers, when it has a number. -/
theorem fltMul_is {f1 f2 : Flt} (h1 : f1.Is v1) (h2 : f2.Is v2)
    (hlt : (v1 * v2).natAbs < fbase ^ mantSize) (res : Flt) :
    ∃ f, fltMul f1 f2 res = .ok (.okay, f) ∧ f.Is (v1 * v2) := by
  by_cases hz : f1.sign = 0 ∨ f2.sign = 0
  · have : v1 * v2 = 0 := by
      rcases hz with h | h
      · rw [h1.sign_eq_zero.1 h, Int.zero_mul]
      · rw [h2.sign_eq_zero.1 h, Int.mul_zero]
    rw [fltMul, if_pos hz, this]
    exact ⟨_, rfl, fltZero_is res⟩
  · have hv1 : v1 ≠ 0 := fun h => hz (.inl (h1.sign_eq_zero.2 h))
    have hv2 : v2 ≠ 0 := fun h => hz (.inr (h2.sign_eq_zero.2 h))
    obtain ⟨n1, hn1, he1, hval1, -⟩ := h1.val hv1
    obtain ⟨n2, hn2, he2, hval2, -⟩ := h2.val hv2
    obtain ⟨acc, hacc, hlen, hb, hval⟩ := mulRows_product h1.len h2.len h1.bounded h2.bounded
    have hholds : Dbl.Holds acc (v1 * v2).natAbs (n1 + n2 + 1) := by
      refine ⟨hlen, hb, ?_⟩
      rw [hval, hval1, hval2, Int.natAbs_mul,
        show 15 - (n1 + n2 + 1) = 7 - n1 + (7 - n2) by omega, pow_add]
      ring
    have hsign : (if f1.sign = f2.sign then 1 else -1) = (v1 * v2).sign := by
      rw [h1.sign, h2.sign, Int.sign_mul]
      rcases Int.lt_or_gt_of_ne hv1 with h | h <;> rcases Int.lt_or_gt_of_ne hv2 with h' | h'
      · rw [Int.sign_eq_neg_one_of_neg h, Int.sign_eq_neg_one_of_neg h']; rfl
      · rw [Int.sign_eq_neg_one_of_neg h, Int.sign_eq_one_of_pos h']; rfl
      · rw [Int.sign_eq_one_of_pos h, Int.sign_eq_neg_one_of_neg h']; rfl
      · rw [Int.sign_eq_one_of_pos h, Int.sign_eq_one_of_pos h']; rfl
    have hexp : f1.exp + f2.exp + 1 = ((n1 + n2 + 1 : Nat) : Int) := by
      rw [he1, he2]; push_cast; ring
    obtain ⟨m, e, hm, his⟩ := normalise_dbl2float hholds hsign (Int.mul_ne_zero hv1 hv2) hlt
      (by omega) (room_of_nat (n1 + n2 + 1)).2 res
    refine ⟨_, ?_, his⟩
    have hrange : ¬ (((n1 + n2 + 1 : Nat) : Int) ≥ eMax ∨ ((n1 + n2 + 1 : Nat) : Int) ≤ eMin) := by
      rw [eMax, eMin]
      omega
    simp only [fltMul, if_neg hz, hexp, if_neg hrange, hacc, bind, Except.bind, hm, pure,
      Except.pure]

end Tendra.Ref
