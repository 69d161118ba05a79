import Tendra.Proofs.Int64Mult

/-!
# 64-bit division: exact

`TDFUdiv_rem` divides by shifting and subtracting, one bit of the dividend at a
time. After some turns of its loop the quotient and the remainder are those of
the bits already shifted in, and as these are at most 63 before the last turn,
neither shift can push a bit out of its word, however large the divisor is. The
two shortcuts for a dividend of 32 bits give the same pair.

The signed entry points divide absolute values, read unsigned, so that `-2^63`
has one. Each clears `__TDFerror` after the division and only then decides on an
error of its own. The signs and the rounding are put right afterwards.
-/

namespace Tendra.Ref

variable {a b : TdfInt64}

/-! ## The operations of the loop -/

theorem tdfUshl_one (x : TdfInt64) : (tdfUshl x 1).toNat = 2 * x.toNat % 2 ^ 64 := by
  have hlo := x.lo32.isLt
  have hhi := x.hi32.isLt
  have hdisj : (x.lo32 >>> 31).toNat ||| (x.hi32 <<< 1).toNat =
      (x.lo32 >>> 31).toNat + (x.hi32 <<< 1).toNat := by
    rw [Nat.or_comm, Nat.add_comm]
    rw [BitVec.toNat_shiftLeft, BitVec.toNat_ushiftRight, Nat.shiftLeft_eq,
      Nat.shiftRight_eq_div_pow]
    have hsmall : x.lo32.toNat / 2 ^ 31 < 2 ^ 1 := by omega
    have heven : x.hi32.toNat * 2 ^ 1 % 2 ^ 32 = 2 ^ 1 * (x.hi32.toNat % 2 ^ 31) := by omega
    rw [heven, Nat.two_pow_add_eq_or_of_lt hsmall]
  have hif : ¬ (1 > 32) := by decide
  rw [tdfUshl, if_neg hif]
  simp only [TdfInt64.toNat, BitVec.toNat_or, Nat.reduceSub, hdisj]
  simp only [BitVec.toNat_shiftLeft, BitVec.toNat_ushiftRight, Nat.shiftLeft_eq,
    Nat.shiftRight_eq_div_pow]
  omega

/-- Setting the last bit of an even number. -/
theorem setLow_toNat {x : TdfInt64} (h : x.toNat % 2 = 0) :
    (TdfInt64.mk (x.lo32 ||| 1#32) x.hi32).toNat = x.toNat + 1 := by
  have hor : x.lo32.toNat ||| 1 = x.lo32.toNat + 1 := by
    have heven : x.lo32.toNat = 2 ^ 1 * (x.lo32.toNat / 2) := by
      simp only [TdfInt64.toNat] at h
      omega
    rw [heven, Nat.two_pow_add_eq_or_of_lt (by decide)]
  simp only [TdfInt64.toNat, BitVec.toNat_or, BitVec.toNat_ofNat]
  rw [show 1 % 2 ^ 32 = 1 from rfl, hor]
  omega

/-- `__TDFUu_test` is the order on the unsigned values. -/
theorem tdfUuTest_value (a b : TdfInt64) :
    (0 ≤ (tdfUuTest a b).1 ↔ b.toNat ≤ a.toNat) ∧ (tdfUuTest a b).2 = clearErrors := by
  have hal := a.lo32.isLt
  have hbl := b.lo32.isLt
  unfold tdfUuTest
  simp only [gt_iff_lt, BitVec.lt_def, TdfInt64.toNat]
  split
  · exact ⟨by simp only; omega, rfl⟩
  · split
    · exact ⟨by simp only; omega, rfl⟩
    · split
      · exact ⟨by simp only; omega, rfl⟩
      · split
        · exact ⟨by simp only; omega, rfl⟩
        · exact ⟨by simp only; omega, rfl⟩

/-- A difference that is not negative is exact and flags nothing. -/
theorem tdfUuMinus_of_le (h : b.toNat ≤ a.toNat) :
    (tdfUuMinus a b).1.toNat = a.toNat - b.toNat ∧ (tdfUuMinus a b).2 = clearErrors := by
  obtain ⟨hval, herr⟩ := (tdfUuMinus_exact_iff a b).2 (Or.inl h)
  have hlt := a.toNat_lt
  constructor
  · omega
  · rw [herr, if_pos (by omega)]

/-! ## The loop -/

/-- Long division by one more bit. -/
theorem div_mod_step {b : Nat} (hb : 0 < b) (P d : Nat) (hd : d < 2) :
    (2 * P + d) / b = 2 * (P / b) + (if b ≤ 2 * (P % b) + d then 1 else 0) ∧
      (2 * P + d) % b = 2 * (P % b) + d - (if b ≤ 2 * (P % b) + d then b else 0) := by
  have hP := Nat.div_add_mod P b
  have hr := Nat.mod_lt P hb
  generalize P / b = q at hP ⊢
  generalize P % b = r at hP hr ⊢
  subst hP
  split
  · next hle =>
      have hsum : 2 * (b * q + r) + d = b * (2 * q + 1) + (2 * r + d - b) := by
        rw [Nat.mul_add b, ← Nat.mul_assoc b 2 q, Nat.mul_comm b 2, Nat.mul_assoc 2 b q]
        omega
      rw [hsum, Nat.mul_add_div hb, Nat.mul_add_mod, Nat.div_eq_of_lt (by omega),
        Nat.mod_eq_of_lt (by omega)]
      exact ⟨rfl, rfl⟩
  · next hle =>
      have hsum : 2 * (b * q + r) + d = b * (2 * q) + (2 * r + d) := by
        rw [← Nat.mul_assoc b 2 q, Nat.mul_comm b 2, Nat.mul_assoc 2 b q]
        omega
      rw [hsum, Nat.mul_add_div hb, Nat.mul_add_mod, Nat.div_eq_of_lt (by omega),
        Nat.mod_eq_of_lt (by omega)]
      exact ⟨rfl, rfl⟩

/-- The bit that leaves the dividend. -/
theorem carry_iff {carry : Bool} (hc : decide (a.hi32 >>> 31 ≠ 0#32) = carry) :
    carry = true ↔ a.toNat / 2 ^ 63 = 1 := by
  have hlo := a.lo32.isLt
  have hhi := a.hi32.isLt
  rw [← hc, decide_eq_true_eq, ne_eq, ← BitVec.toNat_inj, BitVec.toNat_ushiftRight,
    Nat.shiftRight_eq_div_pow]
  simp only [TdfInt64.toNat, BitVec.toNat_ofNat]
  omega

theorem maskTop_toNat (x : BitVec 32) : (x &&& 0x7fffffff#32).toNat = x.toNat % 2 ^ 31 := by
  rw [BitVec.toNat_and, show (0x7fffffff#32).toNat = 2 ^ 31 - 1 from rfl,
    Nat.and_two_pow_sub_one_eq_mod]

/-- Masking the top bit out makes no difference to the shifted dividend. -/
theorem shl_masked (a : TdfInt64) (carry : Bool) :
    (tdfUshl (if carry then ⟨a.lo32, a.hi32 &&& 0x7fffffff#32⟩ else a) 1).toNat =
      2 * a.toNat % 2 ^ 64 := by
  rw [tdfUshl_one]
  split
  · simp only [TdfInt64.toNat, maskTop_toNat]
    omega
  · rfl

/-- The remainder with the next bit of the dividend in it. -/
theorem shl_carry {up : TdfInt64} {carry : Bool} (hc : decide (a.hi32 >>> 31 ≠ 0#32) = carry)
    (h : up.toNat < 2 ^ 63) :
    (if carry then TdfInt64.mk ((tdfUshl up 1).lo32 ||| 1#32) (tdfUshl up 1).hi32
      else tdfUshl up 1).toNat = 2 * up.toNat + a.toNat / 2 ^ 63 := by
  have hup : (tdfUshl up 1).toNat = 2 * up.toNat := by
    rw [tdfUshl_one]
    omega
  split
  · next hset => rw [setLow_toNat (by omega), hup, (carry_iff hc).1 hset]
  · next hset =>
      have ha := a.toNat_lt
      have := mt (carry_iff hc).2 hset
      omega

/-- What one turn does to the numbers, as long as there is room for the shifts. -/
theorem divRemStep_value (b : TdfInt64) {s : DivRemSt} (hq : s.newInt.toNat < 2 ^ 63)
    (hr : s.aUpper.toNat < 2 ^ 63) :
    (divRemStep b s).newInt.toNat = 2 * s.newInt.toNat +
        (if b.toNat ≤ 2 * s.aUpper.toNat + s.a.toNat / 2 ^ 63 then 1 else 0) ∧
      (divRemStep b s).aUpper.toNat = 2 * s.aUpper.toNat + s.a.toNat / 2 ^ 63 -
        (if b.toNat ≤ 2 * s.aUpper.toNat + s.a.toNat / 2 ^ 63 then b.toNat else 0) ∧
      (divRemStep b s).a.toNat = 2 * s.a.toNat % 2 ^ 64 ∧
      (divRemStep b s).err = clearErrors := by
  have hq2 : (tdfUshl s.newInt 1).toNat = 2 * s.newInt.toNat := by
    rw [tdfUshl_one]
    omega
  unfold divRemStep
  dsimp only
  generalize hc : decide (s.a.hi32 >>> 31 ≠ 0#32) = carry
  have hup := shl_carry hc hr
  have hmask := shl_masked s.a carry
  generalize (if carry then
        TdfInt64.mk ((tdfUshl s.aUpper 1).lo32 ||| 1#32) (tdfUshl s.aUpper 1).hi32
      else tdfUshl s.aUpper 1) = up at hup ⊢
  generalize s.a.toNat / 2 ^ 63 = d at hup ⊢
  obtain ⟨horder, herr⟩ := tdfUuTest_value up b
  rw [hup] at horder
  by_cases hle : b.toNat ≤ 2 * s.aUpper.toNat + d
  · obtain ⟨hdiff, hderr⟩ := tdfUuMinus_of_le (a := up) (b := b) (by rw [hup]; exact hle)
    rw [if_pos (horder.2 hle), if_pos hle, if_pos hle]
    refine ⟨?_, ?_, hmask, hderr⟩
    · rw [setLow_toNat (by rw [hq2]; exact Nat.mul_mod_right 2 _), hq2]
    · rw [hdiff, hup]
  · rw [if_neg (mt horder.1 hle), if_neg hle, if_neg hle, Nat.add_zero, Nat.sub_zero]
    exact ⟨hq2, hup, hmask, herr⟩

/-- With `i` turns to go, the bits of `a` above the last `i` have been divided. -/
theorem divRemLoop_value (hb : 0 < b.toNat) (i : Nat) :
    ∀ s : DivRemSt, i ≤ 64 → s.newInt.toNat = a.toNat / 2 ^ i / b.toNat →
      s.aUpper.toNat = a.toNat / 2 ^ i % b.toNat → s.a.toNat = a.toNat * 2 ^ (64 - i) % 2 ^ 64 →
      (divRemLoop b i s).newInt.toNat = a.toNat / b.toNat ∧
        (divRemLoop b i s).aUpper.toNat = a.toNat % b.toNat ∧
        (divRemLoop b i s).err = if i = 0 then s.err else clearErrors := by
  induction i with
  | zero =>
      intro s _ hq hr _
      rw [pow_zero, Nat.div_one] at hq hr
      exact ⟨hq, hr, rfl⟩
  | succ i ih =>
      intro s hi hq hr ha
      have hA := a.toNat_lt
      have hbit : s.a.toNat / 2 ^ 63 = a.toNat / 2 ^ i % 2 := by
        have hpow : 2 ^ 63 = 2 ^ i * 2 ^ (64 - (i + 1)) := by
          rw [← pow_add]
          congr 1
          omega
        rw [ha, show 2 ^ 64 = 2 ^ 63 * 2 from rfl, Nat.mod_mul_right_div_self, hpow,
          Nat.mul_div_mul_right _ _ (Nat.two_pow_pos _)]
      have hsplit : a.toNat / 2 ^ i = 2 * (a.toNat / 2 ^ (i + 1)) + s.a.toNat / 2 ^ 63 := by
        rw [hbit, pow_succ, ← Nat.div_div_eq_div_mul]
        omega
      -- at most 63 bits have been shifted in
      have hP : a.toNat / 2 ^ (i + 1) < 2 ^ 63 := by
        refine Nat.div_lt_of_lt_mul ?_
        calc a.toNat < 2 * 2 ^ 63 := by omega
          _ ≤ 2 ^ (i + 1) * 2 ^ 63 :=
            Nat.mul_le_mul_right _ (by rw [pow_succ]; have := Nat.two_pow_pos i; omega)
      have hq63 : s.newInt.toNat < 2 ^ 63 := by
        rw [hq]
        exact Nat.lt_of_le_of_lt (Nat.div_le_self ..) hP
      have hr63 : s.aUpper.toNat < 2 ^ 63 := by
        rw [hr]
        exact Nat.lt_of_le_of_lt (Nat.mod_le ..) hP
      obtain ⟨h1, h2, h3, h4⟩ := divRemStep_value b hq63 hr63
      obtain ⟨hdiv, hmod⟩ := div_mod_step hb (a.toNat / 2 ^ (i + 1)) (s.a.toNat / 2 ^ 63)
        (by rw [hbit]; exact Nat.mod_lt _ (by decide))
      rw [← hsplit, ← hq, ← hr] at hdiv
      rw [← hsplit, ← hr] at hmod
      have hshift : 2 * s.a.toNat % 2 ^ 64 = a.toNat * 2 ^ (64 - i) % 2 ^ 64 := by
        rw [ha, Nat.mul_mod_mod, show 64 - i = 64 - (i + 1) + 1 by omega, pow_succ]
        congr 1
        ring
      rw [divRemLoop, if_neg (Nat.succ_ne_zero i)]
      obtain ⟨g1, g2, g3⟩ := ih (divRemStep b s) (by omega) (by rw [h1, hdiv]) (by rw [h2, hmod])
        (by rw [h3, hshift])
      refine ⟨g1, g2, ?_⟩
      rw [g3, h4, ite_self]

/-- All 64 turns. -/
theorem divRemLoop_all (a : TdfInt64) (hb : 0 < b.toNat) (err : Int) :
    (divRemLoop b 64 ⟨constU0, constU0, a, err⟩).newInt.toNat = a.toNat / b.toNat ∧
      (divRemLoop b 64 ⟨constU0, constU0, a, err⟩).aUpper.toNat = a.toNat % b.toNat ∧
      (divRemLoop b 64 ⟨constU0, constU0, a, err⟩).err = clearErrors := by
  have hlt := a.toNat_lt
  have hzero : constU0.toNat = 0 := by decide
  have hnone : a.toNat / 2 ^ 64 = 0 := Nat.div_eq_of_lt hlt
  refine divRemLoop_value hb 64 _ (Nat.le_refl 64) ?_ ?_ ?_
  · rw [hnone, Nat.zero_div]
    exact hzero
  · rw [hnone, Nat.zero_mod]
    exact hzero
  · rw [Nat.sub_self, pow_zero, Nat.mul_one, Nat.mod_eq_of_lt hlt]

theorem divRemFast_value (ha : a.hi32 = 0#32) (b : TdfInt64) :
    (divRemFast a b).1.toNat = a.toNat / b.toNat ∧
      (divRemFast a b).2.toNat = a.toNat % b.toNat := by
  have hal := a.lo32.isLt
  have hA : a.toNat = a.lo32.toNat := by simp [TdfInt64.toNat, ha]
  unfold divRemFast
  split
  · next h =>
      have hB : b.toNat = b.lo32.toNat := by simp [TdfInt64.toNat, h]
      rw [hA, hB]
      simp [TdfInt64.toNat, BitVec.toNat_udiv, BitVec.toNat_umod]
  · next h =>
      have hlt : a.toNat < b.toNat := by
        have hpos : b.hi32.toNat ≠ 0 := fun h0 => h (BitVec.eq_of_toNat_eq h0)
        rw [hA]
        simp only [TdfInt64.toNat]
        omega
      have hzero : (TdfInt64.mk 0#32 0#32).toNat = 0 := by decide
      rw [Nat.div_eq_of_lt hlt, Nat.mod_eq_of_lt hlt]
      exact ⟨hzero, rfl⟩

theorem TdfInt64.eq_of_toNat {x y : TdfInt64} (h : x.toNat = y.toNat) : x = y := by
  have hx := x.lo32.isLt
  have hy := y.lo32.isLt
  obtain ⟨xl, xh⟩ := x
  obtain ⟨yl, yh⟩ := y
  simp only [TdfInt64.toNat] at h hx hy
  have hlo : xl = yl := BitVec.eq_of_toNat_eq (by omega)
  have hhi : xh = yh := BitVec.eq_of_toNat_eq (by omega)
  rw [hlo, hhi]

/-! ## `TDFUdiv_rem` -/

theorem TdfInt64.isNonzero_iff (x : TdfInt64) : x.isNonzero = true ↔ x.toNat ≠ 0 := by
  simp only [TdfInt64.isNonzero, TdfInt64.toNat, decide_eq_true_eq, ne_eq, ← BitVec.toNat_inj,
    BitVec.toNat_ofNat]
  omega

theorem TdfInt64.isZero_iff (x : TdfInt64) : x.isZero = true ↔ x.toNat = 0 := by
  simp only [TdfInt64.isZero, TdfInt64.toNat, decide_eq_true_eq, ← BitVec.toNat_inj,
    BitVec.toNat_ofNat]
  omega

/-- Whichever way is taken, the pair is that of the division; the loop clears
`__TDFerror` and the shortcuts leave it alone. -/
theorem divRem_pair (err : Int) (a : TdfInt64) (hb : 0 < b.toNat) {s : DivRemSt}
    (hs : s = if a.hi32 = 0#32 then ⟨(divRemFast a b).1, (divRemFast a b).2, a, err⟩
      else divRemLoop b 64 ⟨constU0, constU0, a, err⟩) :
    s.newInt.toNat = a.toNat / b.toNat ∧ s.aUpper.toNat = a.toNat % b.toNat ∧
      (s.err = err ∨ s.err = clearErrors) := by
  split at hs
  · next ha =>
      obtain ⟨hq, hr⟩ := divRemFast_value ha b
      rw [hs]
      exact ⟨hq, hr, Or.inl rfl⟩
  · obtain ⟨hq, hr, he⟩ := divRemLoop_all a hb err
    rw [hs]
    exact ⟨hq, hr, Or.inr he⟩

theorem tdfUdivRem_quot (err : Int) (a : TdfInt64) (hb : 0 < b.toNat) {flags : DivFlag}
    (hdiv : flags.isDiv = true) (hplain : flags ≠ .sDiv1_0_1) :
    (tdfUdivRem err a b flags).1.toNat = a.toNat / b.toNat ∧
      ((tdfUdivRem err a b flags).2 = err ∨ (tdfUdivRem err a b flags).2 = clearErrors) := by
  obtain ⟨hq, -, he⟩ := divRem_pair err a hb rfl
  unfold tdfUdivRem
  dsimp only
  rw [if_pos hdiv, if_neg (fun h => hplain h.1)]
  exact ⟨hq, he⟩

theorem tdfUdivRem_rem (err : Int) (a : TdfInt64) (hb : 0 < b.toNat) {flags : DivFlag}
    (hrem : flags.isDiv = false) :
    (tdfUdivRem err a b flags).1.toNat = a.toNat % b.toNat ∧
      ((tdfUdivRem err a b flags).2 = err ∨ (tdfUdivRem err a b flags).2 = clearErrors) := by
  obtain ⟨-, hr, he⟩ := divRem_pair err a hb rfl
  unfold tdfUdivRem
  dsimp only
  rw [if_neg (by rw [hrem]; exact Bool.false_ne_true)]
  exact ⟨hr, he⟩

/-- The quotient that `__TDFUs_div1` is going to negate, rounded up. -/
theorem tdfUdivRem_up (err : Int) (a : TdfInt64) (hb : 0 < b.toNat) :
    (tdfUdivRem err a b .sDiv1_0_1).1.toNat =
      (a.toNat / b.toNat + if a.toNat % b.toNat = 0 then 0 else 1) % 2 ^ 64 := by
  obtain ⟨hq, hr, -⟩ := divRem_pair err a hb rfl
  have hlt := a.toNat_lt
  have hle : a.toNat / b.toNat ≤ a.toNat := Nat.div_le_self ..
  have hone : const1.toNat = 1 := by decide
  unfold tdfUdivRem
  dsimp only
  rw [if_pos (by decide)]
  generalize (if a.hi32 = 0#32 then _ else _) = s at hq hr ⊢
  by_cases hz : a.toNat % b.toNat = 0
  · rw [if_neg (fun h => s.aUpper.isNonzero_iff.1 h.2 (hr.trans hz)), if_pos hz, Nat.add_zero,
      Nat.mod_eq_of_lt (by omega)]
    exact hq
  · rw [if_pos ⟨rfl, s.aUpper.isNonzero_iff.2 (by rw [hr]; exact hz)⟩, if_neg hz]
    simp only [tdfUsPlus]
    rw [tdfUplus_toNat, hq, hone]

/-! ## Signs and rounding -/

theorem negateQuot_toInt {q : TdfInt64} {n : Nat} (h : q.toNat = n % 2 ^ 64) :
    (negateQuot q).toInt = (-(n : Int)).bmod (2 ^ 64) := by
  have hone : const1.toInt = 1 := by decide
  rw [negateQuot, tdfUplus_toInt, flip_toInt, hone, show -1 - q.toInt + 1 = -q.toInt by omega,
    TdfInt64.toInt_of_toNat h, Int.bmod_neg_bmod]

/-- The table in the comment on the division functions, for operands of one
sign. -/
theorem div_same {A B : Int} (hB : B ≠ 0) (hs : 0 ≤ A ↔ 0 ≤ B) :
    A.fdiv B = (A.natAbs / B.natAbs : Nat) ∧ A.tdiv B = (A.natAbs / B.natAbs : Nat) ∧
      A.fmod B = (if 0 ≤ A then 1 else -1) * (A.natAbs % B.natAbs : Nat) := by
  have hpos : 0 < B.natAbs := Int.natAbs_pos.2 hB
  have hdm := Nat.div_add_mod A.natAbs B.natAbs
  have hlt := Nat.mod_lt A.natAbs hpos
  generalize A.natAbs / B.natAbs = n at hdm ⊢
  generalize A.natAbs % B.natAbs = m at hdm hlt ⊢
  have hdm' : (B.natAbs : Int) * n + m = A.natAbs := by exact_mod_cast hdm
  by_cases hA : 0 ≤ A
  · have hb : (B.natAbs : Int) = B := by have := hs.1 hA; omega
    have ha : (A.natAbs : Int) = A := by omega
    rw [hb, ha] at hdm'
    obtain ⟨h1, h2⟩ := (Int.fdiv_fmod_unique (a := A) (q := n) (r := m)
      (show 0 < B by have := hs.1 hA; omega)).2 ⟨by omega, by omega, by omega⟩
    have h3 := ((Int.tdiv_tmod_unique (q := n) (r := m) hA hB).2 ⟨by omega, by omega, by omega⟩).1
    rw [if_pos hA, Int.one_mul]
    exact ⟨h1, h3, h2⟩
  · have hb : (B.natAbs : Int) = -B := by have := mt hs.2 hA; omega
    have ha : (A.natAbs : Int) = -A := by omega
    rw [hb, ha, Int.neg_mul] at hdm'
    obtain ⟨h1, h2⟩ := (Int.fdiv_fmod_unique' (a := A) (q := n) (r := -m)
      (show B < 0 by have := mt hs.2 hA; omega)).2 ⟨by omega, by omega, by omega⟩
    have h3 := ((Int.tdiv_tmod_unique' (a := A) (q := n) (r := -m) (by omega) hB).2
      ⟨by omega, by omega, by omega⟩).1
    rw [if_neg hA, Int.neg_mul, Int.one_mul]
    exact ⟨h1, h3, h2⟩

/-- The table for operands of opposite signs. -/
theorem div_opposite {A B : Int} (hB : B ≠ 0) (hs : ¬(0 ≤ A ↔ 0 ≤ B)) :
    A.fdiv B = -((A.natAbs / B.natAbs + if A.natAbs % B.natAbs = 0 then 0 else 1 : Nat) : Int) ∧
      A.tdiv B = -((A.natAbs / B.natAbs : Nat) : Int) ∧
      A.fmod B = if A.natAbs % B.natAbs = 0 then 0
        else if 0 ≤ A then B + (A.natAbs % B.natAbs : Nat)
        else B - (A.natAbs % B.natAbs : Nat) := by
  have hpos : 0 < B.natAbs := Int.natAbs_pos.2 hB
  have hdm := Nat.div_add_mod A.natAbs B.natAbs
  have hlt := Nat.mod_lt A.natAbs hpos
  generalize A.natAbs / B.natAbs = n at hdm ⊢
  generalize A.natAbs % B.natAbs = m at hdm hlt ⊢
  have hdm' : (B.natAbs : Int) * n + m = A.natAbs := by exact_mod_cast hdm
  by_cases hA : 0 ≤ A
  · have hb : (B.natAbs : Int) = -B := by by_contra h; exact hs (by omega)
    have ha : (A.natAbs : Int) = A := by omega
    rw [hb, ha, Int.neg_mul] at hdm'
    have h3 := ((Int.tdiv_tmod_unique (q := -(n : Int)) (r := m) hA hB).2
      ⟨by rw [Int.mul_neg]; omega, by omega, by omega⟩).1
    by_cases hm : m = 0
    · obtain ⟨h1, h2⟩ := (Int.fdiv_fmod_unique' (a := A) (q := -(n : Int)) (r := 0)
        (show B < 0 by omega)).2 ⟨by rw [Int.mul_neg]; omega, by omega, by omega⟩
      rw [if_pos hm, if_pos hm, Nat.add_zero]
      exact ⟨h1, h3, h2⟩
    · obtain ⟨h1, h2⟩ := (Int.fdiv_fmod_unique' (a := A) (q := -((n : Int) + 1)) (r := B + m)
        (show B < 0 by omega)).2
        ⟨by rw [Int.mul_neg, Int.mul_add, Int.mul_one]; omega, by omega, by omega⟩
      rw [if_neg hm, if_neg hm, if_pos hA]
      exact ⟨h1, h3, h2⟩
  · have hb : (B.natAbs : Int) = B := by by_contra h; exact hs (by omega)
    have ha : (A.natAbs : Int) = -A := by omega
    rw [hb, ha] at hdm'
    have h3 := ((Int.tdiv_tmod_unique' (a := A) (q := -(n : Int)) (r := -m) (by omega) hB).2
      ⟨by rw [Int.mul_neg]; omega, by omega, by omega⟩).1
    by_cases hm : m = 0
    · obtain ⟨h1, h2⟩ := (Int.fdiv_fmod_unique (a := A) (q := -(n : Int)) (r := 0)
        (show 0 < B by omega)).2 ⟨by rw [Int.mul_neg]; omega, by omega, by omega⟩
      rw [if_pos hm, if_pos hm, Nat.add_zero]
      exact ⟨h1, h3, h2⟩
    · obtain ⟨h1, h2⟩ := (Int.fdiv_fmod_unique (a := A) (q := -((n : Int) + 1)) (r := B - m)
        (show 0 < B by omega)).2
        ⟨by rw [Int.mul_neg, Int.mul_add, Int.mul_one]; omega, by omega, by omega⟩
      rw [if_neg hm, if_neg hm, if_neg hA]
      exact ⟨h1, h3, h2⟩

/-! ## The entry points -/

/-- What a signed quotient owes: the exact one modulo `2^64`, and an error for
`-2^63` by `-1` alone. -/
def QuotExact (res : TdfInt64 × Int) (a b : TdfInt64) (q : Int) : Prop :=
  res.1.toInt = q.bmod (2 ^ 64) ∧
    res.2 = if a.toInt = -2 ^ 63 ∧ b.toInt = -1 then overflowError else clearErrors

/-- What a signed remainder owes: the exact one modulo `2^64`, and no error. -/
def RemExact (res : TdfInt64 × Int) (r : Int) : Prop :=
  res.1.toInt = r.bmod (2 ^ 64) ∧ res.2 = clearErrors

/-- The absolute value of a divisor, and what it is divided into. -/
theorem absB_pos (hb : b.toNat ≠ 0) : b.toInt ≠ 0 ∧ 0 < (tdfUabs b).1.toNat := by
  have hne : b.toInt ≠ 0 := by
    have := b.toInt_cases
    have := b.toNat_lt
    omega
  rw [(tdfUabs_value b).1]
  exact ⟨hne, Int.natAbs_pos.2 hne⟩

/-- A quotient of absolute values reaches `2^63` only as `2^63` by one. -/
theorem quot_big_iff (hB : b.toInt ≠ 0) (hs : 0 ≤ a.toInt ↔ 0 ≤ b.toInt) :
    2 ^ 63 ≤ a.toInt.natAbs / b.toInt.natAbs ↔ a.toInt = -2 ^ 63 ∧ b.toInt = -1 := by
  have ha := a.toInt_range
  have hpos : 0 < b.toInt.natAbs := Int.natAbs_pos.2 hB
  constructor
  · intro h
    have hmul := (Nat.le_div_iff_mul_le hpos).1 h
    have hone : b.toInt.natAbs = 1 := by
      by_contra hne
      have := Nat.mul_le_mul_left (2 ^ 63) (show 2 ≤ b.toInt.natAbs by omega)
      omega
    omega
  · rintro ⟨h1, h2⟩
    rw [h1, h2]
    decide

/-- A quotient of operands of one sign, as both signed divisions return it. -/
theorem quot_same {q : TdfInt64} (hb : b.toNat ≠ 0) (hs : 0 ≤ a.toInt ↔ 0 ≤ b.toInt)
    (hq : q.toNat = (tdfUabs a).1.toNat / (tdfUabs b).1.toNat) :
    QuotExact (q, if q.isNegative then overflowError else clearErrors) a b
      (a.toInt.natAbs / b.toInt.natAbs : Nat) := by
  rw [(tdfUabs_value a).1, (tdfUabs_value b).1] at hq
  have hlt := q.toNat_lt
  have hneg : q.isNegative = true ↔ a.toInt = -2 ^ 63 ∧ b.toInt = -1 := by
    rw [← quot_big_iff (absB_pos hb).1 hs, q.isNegative_iff, ← hq]
    have := q.toInt_cases
    omega
  constructor
  · rw [← hq]
    exact q.toInt_eq_bmod
  · by_cases h : a.toInt = -2 ^ 63 ∧ b.toInt = -1
    · rw [if_pos h, if_pos (hneg.2 h)]
    · rw [if_neg h, if_neg (mt hneg.1 h)]

/-- A negated quotient of operands of opposite signs. -/
theorem quot_opposite {q : TdfInt64} {n : Nat} (hs : ¬(0 ≤ a.toInt ↔ 0 ≤ b.toInt))
    (hq : q.toNat = n % 2 ^ 64) : QuotExact (negateQuot q, clearErrors) a b (-(n : Int)) := by
  refine ⟨negateQuot_toInt hq, ?_⟩
  rw [if_neg]
  rintro ⟨h1, h2⟩
  exact hs (by omega)

theorem tdfUsDiv1_exact (a : TdfInt64) (hb : b.toNat ≠ 0) :
    QuotExact (tdfUsDiv1 a b) a b (a.toInt.fdiv b.toInt) := by
  obtain ⟨hB, hpos⟩ := absB_pos hb
  unfold tdfUsDiv1
  rw [if_neg (mt b.isZero_iff.1 hb)]
  dsimp only
  by_cases hs : 0 ≤ a.toInt ↔ 0 ≤ b.toInt
  · rw [if_neg (by rw [decide_eq_true_eq, sign_iff]; exact not_not.2 hs), (div_same hB hs).1]
    exact quot_same hb hs (tdfUdivRem_quot _ _ hpos (by decide) (by decide)).1
  · rw [if_pos (by rw [decide_eq_true_eq, sign_iff]; exact hs), (div_opposite hB hs).1]
    refine quot_opposite hs ?_
    rw [tdfUdivRem_up _ _ hpos, (tdfUabs_value a).1, (tdfUabs_value b).1]

theorem tdfUsDiv2_exact (a : TdfInt64) (hb : b.toNat ≠ 0) :
    QuotExact (tdfUsDiv2 a b) a b (a.toInt.tdiv b.toInt) := by
  obtain ⟨hB, hpos⟩ := absB_pos hb
  have hq := (tdfUdivRem_quot (tdfUabs b).2 (tdfUabs a).1 hpos
    (show DivFlag.isDiv .sDiv2 = true by decide) (by decide)).1
  unfold tdfUsDiv2
  rw [if_neg (mt b.isZero_iff.1 hb)]
  dsimp only
  by_cases hs : 0 ≤ a.toInt ↔ 0 ≤ b.toInt
  · rw [if_neg (by rw [decide_eq_true_eq, sign_iff]; exact not_not.2 hs), (div_same hB hs).2.1]
    exact quot_same hb hs hq
  · rw [if_pos (by rw [decide_eq_true_eq, sign_iff]; exact hs), (div_opposite hB hs).2.1]
    refine quot_opposite hs ?_
    rw [Nat.mod_eq_of_lt, hq, (tdfUabs_value a).1, (tdfUabs_value b).1]
    have ha := a.toInt_range
    have := Nat.div_le_self a.toInt.natAbs b.toInt.natAbs
    omega

/-- The remainder of the absolute values, as a signed number. -/
theorem rem_toInt {r : TdfInt64} (hb : b.toNat ≠ 0)
    (hr : r.toNat = (tdfUabs a).1.toNat % (tdfUabs b).1.toNat) :
    r.toInt = (a.toInt.natAbs % b.toInt.natAbs : Nat) ∧
      a.toInt.natAbs % b.toInt.natAbs < b.toInt.natAbs ∧ b.toInt.natAbs ≤ 2 ^ 63 := by
  rw [(tdfUabs_value a).1, (tdfUabs_value b).1] at hr
  have hlt := Nat.mod_lt a.toInt.natAbs (Int.natAbs_pos.2 (absB_pos hb).1)
  have hB := b.toInt_range
  have := r.toInt_cases
  omega

/-- A signed operation whose exact result is in the range. -/
theorem SignedExact.remExact {res : TdfInt64 × Int} {r : Int} (h : SignedExact res r)
    (hlo : -2 ^ 63 ≤ r) (hhi : r < 2 ^ 63) : RemExact res r :=
  ⟨h.1, by rw [h.2, if_pos ⟨hlo, hhi⟩]⟩

theorem remExact_self (r : TdfInt64) : RemExact (r, clearErrors) r.toInt :=
  ⟨by rw [r.toInt_eq_bmod, Int.bmod_bmod], rfl⟩

theorem tdfUsRem1_exact (a : TdfInt64) (hb : b.toNat ≠ 0) :
    RemExact (tdfUsRem1 a b) (a.toInt.fmod b.toInt) := by
  obtain ⟨hB, hpos⟩ := absB_pos hb
  have hr := (tdfUdivRem_rem (tdfUabs b).2 (tdfUabs a).1 hpos
    (show DivFlag.isDiv .sRem1 = false by decide)).1
  have hbr := b.toInt_range
  unfold tdfUsRem1
  rw [if_neg (mt b.isZero_iff.1 hb)]
  dsimp only
  generalize (tdfUdivRem (tdfUabs b).2 (tdfUabs a).1 (tdfUabs b).1 .sRem1).1 = r at hr ⊢
  obtain ⟨hrv, hlt, hle⟩ := rem_toInt hb hr
  have hnz : r.isNonzero = true ↔ a.toInt.natAbs % b.toInt.natAbs ≠ 0 := by
    rw [r.isNonzero_iff]
    have := r.toInt_cases
    have := r.toNat_lt
    omega
  simp only [TdfInt64.isPositive_iff, TdfInt64.isNegative_iff, hnz]
  by_cases hs : 0 ≤ a.toInt ↔ 0 ≤ b.toInt
  · rw [if_neg (by omega), if_neg (by omega), (div_same hB hs).2.2]
    by_cases hA : 0 ≤ a.toInt
    · rw [if_neg (by omega), if_pos hA, Int.one_mul, ← hrv]
      exact remExact_self r
    · rw [if_pos (by omega), if_neg hA, Int.neg_mul, Int.one_mul, ← hrv]
      exact (tdfUneg_exact r).remExact (by omega) (by omega)
  · rw [(div_opposite hB hs).2.2]
    by_cases hm : a.toInt.natAbs % b.toInt.natAbs = 0
    · have hzero : r.toInt = 0 := by rw [hrv, hm]; rfl
      rw [if_neg (fun h => h.2.2 hm), if_neg (fun h => h.2.2 hm), if_pos hm]
      split
      · have h := tdfUneg_exact r
        rw [hzero] at h
        exact h.remExact (by omega) (by omega)
      · have h := remExact_self r
        rwa [hzero] at h
    · rw [if_neg hm]
      by_cases hA : 0 ≤ a.toInt
      · rw [if_pos ⟨hA, by omega, hm⟩, if_pos hA, ← hrv]
        exact (tdfUsPlus_exact b r).remExact (by omega) (by omega)
      · rw [if_neg (fun h => hA h.1), if_pos ⟨by omega, by omega, hm⟩, if_neg hA, ← hrv]
        exact (tdfUsMinus_exact b r).remExact (by omega) (by omega)

theorem tdfUsRem2_exact (a : TdfInt64) (hb : b.toNat ≠ 0) :
    RemExact (tdfUsRem2 a b) (a.toInt.tmod b.toInt) := by
  obtain ⟨hB, hpos⟩ := absB_pos hb
  have hr := (tdfUdivRem_rem (tdfUabs b).2 (tdfUabs a).1 hpos
    (show DivFlag.isDiv .sRem2 = false by decide)).1
  unfold tdfUsRem2
  rw [if_neg (mt b.isZero_iff.1 hb)]
  dsimp only
  generalize (tdfUdivRem (tdfUabs b).2 (tdfUabs a).1 (tdfUabs b).1 .sRem2).1 = r at hr ⊢
  obtain ⟨hrv, hlt, hle⟩ := rem_toInt hb hr
  simp only [TdfInt64.isNegative_iff]
  -- the remainder of truncation has the size of `r` and the sign of `a`
  have habs := Int.natAbs_tmod a.toInt b.toInt
  split
  · next hneg =>
      have hsign : 0 ≤ (-a.toInt).tmod b.toInt := Int.tmod_nonneg b.toInt (by omega)
      rw [Int.neg_tmod] at hsign
      rw [show a.toInt.tmod b.toInt = -r.toInt by omega]
      exact (tdfUneg_exact r).remExact (by omega) (by omega)
  · next hneg =>
      have hsign : 0 ≤ a.toInt.tmod b.toInt := Int.tmod_nonneg b.toInt (by omega)
      rw [show a.toInt.tmod b.toInt = r.toInt by omega]
      exact remExact_self r

theorem tdfUuDiv2_exact (a : TdfInt64) (hb : b.toNat ≠ 0) :
    (tdfUuDiv2 a b).1.toNat = a.toNat / b.toNat ∧ (tdfUuDiv2 a b).2 = clearErrors := by
  obtain ⟨hq, he⟩ := tdfUdivRem_quot clearErrors a (show 0 < b.toNat by omega)
    (show DivFlag.isDiv .uDiv2 = true by decide) (by decide)
  unfold tdfUuDiv2
  rw [if_neg (mt b.isZero_iff.1 hb)]
  exact ⟨hq, he.elim id id⟩

theorem tdfUuRem2_exact (a : TdfInt64) (hb : b.toNat ≠ 0) :
    (tdfUuRem2 a b).1.toNat = a.toNat % b.toNat ∧ (tdfUuRem2 a b).2 = clearErrors := by
  obtain ⟨hr, he⟩ := tdfUdivRem_rem clearErrors a (show 0 < b.toNat by omega)
    (show DivFlag.isDiv .uRem2 = false by decide)
  unfold tdfUuRem2
  rw [if_neg (mt b.isZero_iff.1 hb)]
  exact ⟨hr, he.elim id id⟩

/-- The shortcuts and the loop give the same quotient and remainder. -/
theorem divRemFast_eq_loop (hb : b.toNat ≠ 0) (ha : a.hi32 = 0#32) (err : Int) :
    ((divRemLoop b 64 ⟨constU0, constU0, a, err⟩).newInt,
      (divRemLoop b 64 ⟨constU0, constU0, a, err⟩).aUpper) = divRemFast a b := by
  obtain ⟨hq, hr, -⟩ := divRemLoop_all a (Nat.pos_of_ne_zero hb) err
  obtain ⟨hq', hr'⟩ := divRemFast_value ha b
  rw [TdfInt64.eq_of_toNat (hq.trans hq'.symm), TdfInt64.eq_of_toNat (hr.trans hr'.symm)]

/-- The division family is exact for every divisor but zero. -/
theorem div_rem_exact (a b : TdfInt64) (hb : b.toNat ≠ 0) :
    ((tdfUuDiv2 a b).1.toNat = a.toNat / b.toNat ∧ (tdfUuDiv2 a b).2 = clearErrors) ∧
    ((tdfUuRem2 a b).1.toNat = a.toNat % b.toNat ∧ (tdfUuRem2 a b).2 = clearErrors) ∧
    QuotExact (tdfUsDiv1 a b) a b (a.toInt.fdiv b.toInt) ∧
    RemExact (tdfUsRem1 a b) (a.toInt - b.toInt * a.toInt.fdiv b.toInt) ∧
    QuotExact (tdfUsDiv2 a b) a b (a.toInt.tdiv b.toInt) ∧
    RemExact (tdfUsRem2 a b) (a.toInt - b.toInt * a.toInt.tdiv b.toInt) ∧
    (a.hi32 = 0#32 → ∀ err, ((divRemLoop b 64 ⟨constU0, constU0, a, err⟩).newInt,
      (divRemLoop b 64 ⟨constU0, constU0, a, err⟩).aUpper) = divRemFast a b) := by
  rw [← Int.fmod_def, ← Int.tmod_def]
  exact ⟨tdfUuDiv2_exact a hb, tdfUuRem2_exact a hb, tdfUsDiv1_exact a hb, tdfUsRem1_exact a hb,
    tdfUsDiv2_exact a hb, tdfUsRem2_exact a hb, fun ha err => divRemFast_eq_loop hb ha err⟩

/-- `-2^63` by `-1`, where the quotients do not fit. -/
theorem div_rem_exact_min :
    QuotExact (tdfUsDiv1 ⟨0#32, 0x80000000#32⟩ ⟨0xffffffff#32, 0xffffffff#32⟩)
        ⟨0#32, 0x80000000#32⟩ ⟨0xffffffff#32, 0xffffffff#32⟩
        ((TdfInt64.toInt ⟨0#32, 0x80000000#32⟩).fdiv
          (TdfInt64.toInt ⟨0xffffffff#32, 0xffffffff#32⟩)) ∧
      (TdfInt64.mk 0xffffffff#32 0xffffffff#32).toNat ≠ 0 :=
  ⟨(div_rem_exact ⟨0#32, 0x80000000#32⟩ ⟨0xffffffff#32, 0xffffffff#32⟩ (by decide)).2.2.1,
    by decide⟩

end Tendra.Ref
