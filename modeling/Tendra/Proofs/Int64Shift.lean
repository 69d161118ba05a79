import Tendra.Proofs.Int64Plus

/-!
# 64-bit shifts: undefined at 32 to the left

`TDFUshr` takes the case of a whole word together with the longer shifts, `_TDFUshl` with
the shorter ones, where the high word is then shifted left by its width. For every other
count both shifts are defined and exact.
-/

namespace Tendra.Ref

variable {n : BitVec 32}

/-- What `__TDFUu_shl` owes. -/
def ShlExact (res : Option (TdfInt64 × Int)) (a n : Nat) : Prop :=
  ∃ r, res = some r ∧ r.1.toNat = a * 2 ^ n % 2 ^ 64 ∧
    (r.2 = overflowError ↔ 63 < n ∨ 2 ^ 64 ≤ a * 2 ^ n)

/-- What `__TDFUu_shr` owes. -/
def ShrExact (res : Option (TdfInt64 × Int)) (a n : Nat) : Prop :=
  ∃ r, res = some r ∧ r.1.toNat = a / 2 ^ n

/-- A word shifted left over the bits that another one has lost. -/
theorem or_shl (hi : Nat) {x n : Nat} (hx : x < 2 ^ n) (hn : n ≤ 32) :
    x ||| hi * 2 ^ n % 2 ^ 32 = x + hi * 2 ^ n % 2 ^ 32 ∧ x + hi * 2 ^ n % 2 ^ 32 < 2 ^ 32 := by
  have hpow : 2 ^ 32 = 2 ^ n * 2 ^ (32 - n) := by rw [← Nat.pow_add, Nat.add_sub_cancel' hn]
  have hmod : hi * 2 ^ n % 2 ^ 32 = 2 ^ n * (hi % 2 ^ (32 - n)) := by
    rw [hpow, Nat.mul_comm, Nat.mul_mod_mul_left]
  have hlt : hi % 2 ^ (32 - n) < 2 ^ (32 - n) := Nat.mod_lt _ (Nat.two_pow_pos _)
  rw [hmod]
  constructor
  · rw [Nat.or_comm, ← Nat.two_pow_add_eq_or_of_lt hx, Nat.add_comm]
  · calc x + 2 ^ n * (hi % 2 ^ (32 - n))
        < 2 ^ n + 2 ^ n * (hi % 2 ^ (32 - n)) := Nat.add_lt_add_right hx _
      _ = 2 ^ n * (hi % 2 ^ (32 - n) + 1) := by rw [Nat.mul_add, Nat.mul_one, Nat.add_comm]
      _ ≤ 2 ^ n * 2 ^ (32 - n) := Nat.mul_le_mul_left _ hlt
      _ = 2 ^ 32 := hpow.symm

/-- What leaves a word, and what stays. -/
theorem shl_split {n : Nat} (lo : Nat) (hn : n ≤ 32) :
    lo * 2 ^ n = lo / 2 ^ (32 - n) * 2 ^ 32 + lo * 2 ^ n % 2 ^ 32 := by
  have hpow : 2 ^ 32 = 2 ^ (32 - n) * 2 ^ n := by rw [← Nat.pow_add, Nat.sub_add_cancel hn]
  have hdiv : lo * 2 ^ n / 2 ^ 32 = lo / 2 ^ (32 - n) := by
    rw [hpow, Nat.mul_div_mul_right _ _ (Nat.two_pow_pos n)]
  rw [← hdiv, Nat.div_add_mod']

/-- Two words shifted left by less than a word. -/
theorem shl_words {lo hi n : Nat} (hlo : lo < 2 ^ 32) (hn : n ≤ 32) :
    (lo / 2 ^ (32 - n) ||| hi * 2 ^ n % 2 ^ 32) * 2 ^ 32 + lo * 2 ^ n % 2 ^ 32 =
      (hi * 2 ^ 32 + lo) * 2 ^ n % 2 ^ 64 := by
  have hx : lo / 2 ^ (32 - n) < 2 ^ n := by
    rw [Nat.div_lt_iff_lt_mul (Nat.two_pow_pos _), ← Nat.pow_add, Nat.add_sub_cancel' hn]
    exact hlo
  obtain ⟨hor, hlt⟩ := or_shl hi hx hn
  have hsplit := shl_split lo hn
  have hprod : (hi * 2 ^ 32 + lo) * 2 ^ n = hi * 2 ^ n * 2 ^ 32 + lo * 2 ^ n := by
    rw [Nat.add_mul, Nat.mul_right_comm]
  rw [hor, hprod]
  omega

/-- Two words shifted left by more than a word. -/
theorem shl_words_far (lo hi : Nat) {n : Nat} (hn : 32 ≤ n) :
    lo * 2 ^ (n - 32) % 2 ^ 32 * 2 ^ 32 = (hi * 2 ^ 32 + lo) * 2 ^ n % 2 ^ 64 := by
  have hpow : 2 ^ n = 2 ^ (n - 32) * 2 ^ 32 := by rw [← Nat.pow_add, Nat.sub_add_cancel hn]
  have hprod : (hi * 2 ^ 32 + lo) * 2 ^ n =
      hi * 2 ^ (n - 32) * 2 ^ 64 + lo * 2 ^ (n - 32) * 2 ^ 32 := by
    rw [hpow, Nat.add_mul, ← Nat.mul_assoc lo, Nat.mul_assoc hi, ← Nat.mul_assoc (2 ^ 32),
      Nat.mul_comm (2 ^ 32), Nat.mul_assoc (2 ^ (n - 32)), ← Nat.pow_add, ← Nat.mul_assoc hi]
  rw [hprod]
  omega

/-- Two words shifted right by less than a word. -/
theorem shr_words {lo hi n : Nat} (hlo : lo < 2 ^ 32) (hn' : n < 32) :
    (lo / 2 ^ n ||| hi * 2 ^ (32 - n) % 2 ^ 32) + hi / 2 ^ n * 2 ^ 32 =
      (hi * 2 ^ 32 + lo) / 2 ^ n := by
  have hpow : 2 ^ 32 = 2 ^ (32 - n) * 2 ^ n := by
    rw [← Nat.pow_add, Nat.sub_add_cancel (Nat.le_of_lt hn')]
  have hx : lo / 2 ^ n < 2 ^ (32 - n) := by
    rw [Nat.div_lt_iff_lt_mul (Nat.two_pow_pos _), ← hpow]
    exact hlo
  obtain ⟨hor, -⟩ := or_shl hi hx (Nat.sub_le ..)
  have hsplit := shl_split hi (Nat.sub_le 32 n)
  rw [Nat.sub_sub_self (Nat.le_of_lt hn')] at hsplit
  have hdiv : (hi * 2 ^ 32 + lo) / 2 ^ n = hi * 2 ^ (32 - n) + lo / 2 ^ n := by
    rw [hpow, ← Nat.mul_assoc, Nat.add_comm, Nat.add_mul_div_right _ _ (Nat.two_pow_pos n),
      Nat.add_comm]
  rw [hor, hdiv]
  omega

/-! ## The shifts that are defined -/

theorem shl32_of_lt (x : BitVec 32) (h : n.toNat < 32) :
    shl32 x n = some (x <<< n.toNat) := if_pos h

theorem shr32_of_lt (x : BitVec 32) (h : n.toNat < 32) :
    shr32 x n = some (x >>> n.toNat) := if_pos h

theorem toNat_shl (x : BitVec 32) (n : Nat) : (x <<< n).toNat = x.toNat * 2 ^ n % 2 ^ 32 := by
  rw [BitVec.toNat_shiftLeft, Nat.shiftLeft_eq]

theorem toNat_shr (x : BitVec 32) (n : Nat) : (x >>> n).toNat = x.toNat / 2 ^ n := by
  rw [BitVec.toNat_ushiftRight, Nat.shiftRight_eq_div_pow]

/-- The rest of a count. -/
theorem toNat_rest {w : BitVec 32} (h : n.toNat ≤ w.toNat) :
    (w - n).toNat = w.toNat - n.toNat := BitVec.toNat_sub_of_le h

/-- The check sees exactly the bits that are lost. -/
theorem shlOverflows_eq (a : TdfInt64) (h0 : 0 < n.toNat) (h64 : n.toNat < 64) :
    shlOverflows a n = some (decide (2 ^ 64 ≤ a.toNat * 2 ^ n.toNat)) := by
  have hlo := a.lo32.isLt
  have hle : 2 ^ 64 ≤ a.toNat * 2 ^ n.toNat ↔ 2 ^ (64 - n.toNat) ≤ a.toNat := by
    have hpow : 2 ^ 64 = 2 ^ (64 - n.toNat) * 2 ^ n.toNat := by
      rw [← Nat.pow_add, Nat.sub_add_cancel (Nat.le_of_lt h64)]
    rw [hpow, Nat.mul_le_mul_right_iff (Nat.two_pow_pos _)]
  have hlost : ∀ (x : BitVec 32) (k : Nat), x >>> k ≠ 0#32 ↔ 2 ^ k ≤ x.toNat := fun x k => by
    rw [ne_eq, ← BitVec.toNat_inj, toNat_shr, BitVec.toNat_ofNat, Nat.zero_mod,
      Nat.div_eq_zero_iff, not_or, Nat.not_lt]
    exact and_iff_right (Nat.two_pow_pos k).ne'
  have hhi : a.hi32 ≠ 0#32 ↔ 0 < a.hi32.toNat := by
    rw [ne_eq, ← BitVec.toNat_inj, BitVec.toNat_ofNat]
    omega
  rw [shlOverflows]
  by_cases hn : n > 32#32
  · have hn' : 32 < n.toNat := hn
    have hrest : (64#32 - n).toNat = 64 - n.toNat := toNat_rest (Nat.le_of_lt h64)
    have hk : 2 ^ (64 - n.toNat) ≤ 2 ^ 31 := Nat.pow_le_pow_right (by decide) (by omega)
    rw [if_pos hn, shr32_of_lt _ (by omega)]
    have hiff : 2 ^ (64 - n.toNat) ≤ a.lo32.toNat ∨ 0 < a.hi32.toNat ↔
        2 ^ 64 ≤ a.toNat * 2 ^ n.toNat := by
      rw [hle, TdfInt64.toNat]
      omega
    simp only [Option.bind_eq_bind, Option.bind_some, hrest, hlost, hhi]
    exact congrArg some (decide_eq_decide.2 hiff)
  · have hn' : ¬32 < n.toNat := hn
    have hrest : (32#32 - n).toNat = 32 - n.toNat := toNat_rest (Nat.not_lt.1 hn')
    have hk : 2 ^ (64 - n.toNat) = 2 ^ (32 - n.toNat) * 2 ^ 32 := by
      rw [← Nat.pow_add]
      congr 1
      omega
    rw [if_neg hn, shr32_of_lt _ (by omega)]
    have hiff : 2 ^ (32 - n.toNat) ≤ a.hi32.toNat ↔ 2 ^ 64 ≤ a.toNat * 2 ^ n.toNat := by
      rw [hle, hk, TdfInt64.toNat]
      omega
    simp only [Option.bind_eq_bind, Option.bind_some, hrest, hlost]
    exact congrArg some (decide_eq_decide.2 hiff)

theorem tdfUshlWords_width (a : TdfInt64) : tdfUshlWords a 32#32 = none := rfl

theorem tdfUshlWords_eq (a : TdfInt64) (h0 : 0 < n.toNat) (h64 : n.toNat < 64) (hn : n.toNat ≠ 32) :
    ∃ r, tdfUshlWords a n = some r ∧ r.toNat = a.toNat * 2 ^ n.toNat % 2 ^ 64 := by
  rw [tdfUshlWords]
  by_cases hgt : n > 32#32
  · have hgt' : 32 < n.toNat := hgt
    have hrest : (n - 32#32).toNat = n.toNat - 32 := toNat_rest (Nat.le_of_lt hgt')
    rw [if_pos hgt, shl32_of_lt _ (by omega)]
    refine ⟨_, rfl, ?_⟩
    rw [TdfInt64.toNat, TdfInt64.toNat, toNat_shl, hrest, ← shl_words_far _ _ (by omega)]
    exact Nat.add_zero _
  · have hgt' : ¬32 < n.toNat := hgt
    have hrest : (32#32 - n).toNat = 32 - n.toNat := toNat_rest (Nat.not_lt.1 hgt')
    rw [if_neg hgt, shr32_of_lt _ (by omega), shl32_of_lt _ (by omega), shl32_of_lt _ (by omega)]
    refine ⟨_, rfl, ?_⟩
    rw [TdfInt64.toNat, TdfInt64.toNat, BitVec.toNat_or, toNat_shr, toNat_shl, toNat_shl, hrest]
    exact shl_words a.lo32.isLt (Nat.not_lt.1 hgt')

theorem tdfUshr_eq (a : TdfInt64) (h0 : 0 < n.toNat) (h64 : n.toNat < 64) :
    ∃ r, tdfUshr a n = some r ∧ r.1.toNat = a.toNat / 2 ^ n.toNat := by
  have hlo := a.lo32.isLt
  rw [tdfUshr]
  by_cases hge : n ≥ 32#32
  · have hge' : 32 ≤ n.toNat := hge
    have hrest : (n - 32#32).toNat = n.toNat - 32 := toNat_rest hge'
    rw [if_pos hge, shr32_of_lt _ (by omega)]
    refine ⟨_, rfl, ?_⟩
    have hpow : 2 ^ n.toNat = 2 ^ 32 * 2 ^ (n.toNat - 32) := by
      rw [← Nat.pow_add, Nat.add_sub_cancel' hge']
    rw [TdfInt64.toNat, TdfInt64.toNat, toNat_shr, hrest, hpow, ← Nat.div_div_eq_div_mul]
    have hzero : (0#32).toNat * 2 ^ 32 = 0 := by rw [BitVec.toNat_ofNat, Nat.zero_mod, Nat.zero_mul]
    have hword : (a.hi32.toNat * 2 ^ 32 + a.lo32.toNat) / 2 ^ 32 = a.hi32.toNat := by omega
    rw [hzero, Nat.zero_add, hword]
  · have hge' : ¬32 ≤ n.toNat := hge
    have hrest : (32#32 - n).toNat = 32 - n.toNat := toNat_rest (Nat.le_of_not_le hge')
    rw [if_neg hge, shl32_of_lt _ (by omega), shr32_of_lt _ (by omega), shr32_of_lt _ (by omega)]
    refine ⟨_, rfl, ?_⟩
    rw [TdfInt64.toNat, TdfInt64.toNat, BitVec.toNat_or, toNat_shr, toNat_shl, toNat_shr, hrest,
      Nat.or_comm, Nat.add_comm]
    exact shr_words hlo (Nat.not_le.1 hge')

/-! ## The two entry points -/

theorem tdfUuShl_exact (a : TdfInt64) (hn : n.toNat ≠ 32) :
    ShlExact (tdfUuShl a n) a.toNat n.toNat := by
  have hlt := a.toNat_lt
  rw [tdfUuShl]
  by_cases hbig : n > 63#32
  · have hbig' : 63 < n.toNat := hbig
    rw [if_pos hbig]
    refine ⟨_, rfl, ?_, fun _ => .inl hbig', fun _ => rfl⟩
    obtain ⟨k, hk⟩ : ∃ k, n.toNat = 64 + k := ⟨n.toNat - 64, by omega⟩
    rw [hk, Nat.pow_add, ← Nat.mul_assoc, Nat.mul_right_comm, Nat.mul_mod_left]
    rfl
  · have hbig' : ¬63 < n.toNat := hbig
    rw [if_neg hbig]
    by_cases h0 : n = 0#32
    · subst h0
      refine ⟨_, rfl, ?_, ?_⟩
      · rw [BitVec.toNat_ofNat, Nat.zero_mod, Nat.pow_zero, Nat.mul_one, Nat.mod_eq_of_lt hlt]
      · rw [BitVec.toNat_ofNat, Nat.zero_mod, Nat.pow_zero, Nat.mul_one]
        exact ⟨fun h => absurd h clearErrors_ne_overflowError, fun h => by omega⟩
    · have hpos : 0 < n.toNat := Nat.pos_of_ne_zero fun h => h0 (BitVec.eq_of_toNat_eq h)
      obtain ⟨r, hr, hval⟩ := tdfUshlWords_eq a hpos (by omega) hn
      rw [if_neg h0, shlOverflows_eq a hpos (by omega)]
      simp only [Option.bind_eq_bind, Option.bind_some, hr]
      refine ⟨_, rfl, hval, ?_⟩
      by_cases hover : 2 ^ 64 ≤ a.toNat * 2 ^ n.toNat
      · simp only [hover, decide_true, if_true, or_true]
      · simp only [hover, decide_false, Bool.false_eq_true, if_false, or_false, hbig', iff_false]
        exact clearErrors_ne_overflowError

theorem tdfUuShr_exact (a : TdfInt64) (n : BitVec 32) :
    ShrExact (tdfUuShr a n) a.toNat n.toNat := by
  have hlt := a.toNat_lt
  rw [tdfUuShr]
  by_cases hbig : n > 63#32
  · have hbig' : 63 < n.toNat := hbig
    rw [if_pos hbig]
    refine ⟨_, rfl, ?_⟩
    have hpow : 2 ^ 64 ≤ 2 ^ n.toNat := Nat.pow_le_pow_right (by decide) hbig'
    rw [Nat.div_eq_of_lt (Nat.lt_of_lt_of_le hlt hpow)]
    rfl
  · have hbig' : ¬63 < n.toNat := hbig
    rw [if_neg hbig]
    by_cases h0 : n = 0#32
    · subst h0
      refine ⟨_, rfl, ?_⟩
      rw [BitVec.toNat_ofNat, Nat.zero_mod, Nat.pow_zero, Nat.div_one]
    · have hpos : 0 < n.toNat := Nat.pos_of_ne_zero fun h => h0 (BitVec.eq_of_toNat_eq h)
      rw [if_neg h0]
      exact tdfUshr_eq a hpos (by omega)

/-- The shift left by a word is not defined, and all others are exact. -/
theorem shifts_exact_iff (a : TdfInt64) (n : BitVec 32) :
    ShlExact (tdfUuShl a n) a.toNat n.toNat ∧ ShrExact (tdfUuShr a n) a.toNat n.toNat ↔
      n.toNat ≠ 32 := by
  constructor
  · rintro ⟨⟨r, hr, -⟩, -⟩ h32
    have hn : n = 32#32 := BitVec.eq_of_toNat_eq h32
    have hnone : tdfUuShl a n = none := by
      rw [hn, tdfUuShl, if_neg (by decide), if_neg (by decide), tdfUshlWords_width]
      cases shlOverflows a 32#32 <;> rfl
    rw [hnone] at hr
    cases hr
  · intro hn
    exact ⟨tdfUuShl_exact a hn, tdfUuShr_exact a n⟩

theorem not_shifts_exact :
    ¬(ShlExact (tdfUuShl ⟨1, 0⟩ 32) 1 32 ∧ ShrExact (tdfUuShr ⟨1, 0⟩ 32) 1 32) := by
  rintro ⟨⟨r, hr, -⟩, -⟩
  have hnone : tdfUuShl ⟨1, 0⟩ 32 = none := rfl
  rw [hnone] at hr
  cases hr

end Tendra.Ref
