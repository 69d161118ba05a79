import Tendra.Proofs.Trans.Multiply

/-!
# Multiplication by constants that are nearly a power of two

They are two to some power, one or two more, or one less. The operand is shifted, and
what is missing is added or subtracted.
-/

namespace Tendra.Ref.Trans

open Machine Word

section

variable {w : Nat} {constval : BitVec w}

/-- A number that is nearly a power of two. -/
def NearPow2 (n : Nat) : Prop := ∃ k, n = 2 ^ k ∨ n = 2 ^ k + 1 ∨ n = 2 ^ k + 2 ∨ n + 1 = 2 ^ k

theorem ofInt_zero : BitVec.ofInt w 0 = 0#w := BitVec.ofInt_natCast w 0

theorem offsetLoop_eq (constval : BitVec w) : offsetLoop constval 3 0 =
    if isPow2 (constval - .ofInt w 0) then 0
    else if isPow2 (constval - .ofInt w 1) then 1
    else if isPow2 (constval - .ofInt w (-1)) then -1
    else if isPow2 (constval - .ofInt w 2) then 2
    else notMulConstSimple := by
  have hone : BitVec.ofInt w 1 = 1#w := BitVec.ofInt_natCast w 1
  have htwo : BitVec.ofInt w 2 = 2#w := BitVec.ofInt_natCast w 2
  have hneg : constval - .ofInt w (-1) = constval + 1 := by
    rw [BitVec.ofInt_neg, BitVec.sub_neg, hone]
    rfl
  rw [ofInt_zero, hone, htwo, hneg, BitVec.sub_zero]
  simp [offsetLoop]

theorem pow32_le (hw : 32 ≤ w) : 2 ^ 32 ≤ 2 ^ w := Nat.pow_le_pow_right (by decide) hw

theorem toNat_sub_ofInt (constval : BitVec w) (hw : 32 ≤ w) {v : Int} (hle : v ≤ constval.toNat)
    (hlt : constval.toNat - v < 2 ^ 32) :
    ((constval - .ofInt w v).toNat : Int) = constval.toNat - v := by
  have hpow := pow32_le hw
  have hsub : constval - .ofInt w v = .ofInt w (constval.toNat - v) := by
    rw [ofInt_sub, BitVec.ofInt_natCast, BitVec.ofNat_toNat, BitVec.setWidth_eq]
  rw [hsub, BitVec.toNat_ofInt, Int.toNat_of_nonneg (Int.emod_nonneg _ (by omega)),
    Int.emod_eq_of_lt (by omega) (by omega)]

/-- A power of two near the constant. -/
theorem pow2_near (hw : 32 ≤ w) (h3 : 3 ≤ constval.toNat) (hle : constval.toNat ≤ 2 ^ 31) {v : Int}
    (hv : -1 ≤ v ∧ v ≤ 2) (h : isPow2 (constval - .ofInt w v) = true) :
    ∃ k, k ≤ 31 ∧ constval - .ofInt w v = BitVec.twoPow w k ∧
      (constval.toNat : Int) = 2 ^ k + v := by
  have hnat := toNat_sub_ofInt constval hw (v := v) (by omega) (by omega)
  have hne : constval - .ofInt w v ≠ 0 := by
    intro h0
    rw [h0, show (0 : BitVec w).toNat = 0 from BitVec.toNat_zero] at hnat
    omega
  obtain ⟨k, hk, heq⟩ := eq_twoPow hne h
  rw [heq, BitVec.toNat_twoPow_of_lt hk] at hnat
  have hk32 : k < 32 := by
    refine (Nat.pow_lt_pow_iff_right (show 1 < 2 by decide)).1 ?_
    omega
  have hcast : ((2 ^ k : Nat) : Int) = 2 ^ k := by push_cast; rfl
  exact ⟨k, by omega, heq, by omega⟩

/-- What the offset that is found says. -/
theorem offsetLoop_spec (hw : 32 ≤ w) (h3 : 3 ≤ constval.toNat) (hle : constval.toNat ≤ 2 ^ 31)
    {v : Int} (hloop : offsetLoop constval 3 0 = v) (hsimple : v ≠ notMulConstSimple) :
    ∃ k, 1 ≤ k ∧ k ≤ 31 ∧ constval - .ofInt w v = BitVec.twoPow w k ∧
      (constval.toNat : Int) = 2 ^ k + v ∧ (v = 0 ∨ v = 1 ∨ v = 2 ∨ v = -1) := by
  rw [offsetLoop_eq] at hloop
  have hnear : ∀ v : Int, -1 ≤ v ∧ v ≤ 2 → isPow2 (constval - .ofInt w v) = true →
      (v = 2 → constval.toNat ≠ 3) → ∃ k, 1 ≤ k ∧ k ≤ 31 ∧
      constval - .ofInt w v = BitVec.twoPow w k ∧ (constval.toNat : Int) = 2 ^ k + v := by
    intro v hv h hthree
    obtain ⟨k, hk, heq, hnat⟩ := pow2_near hw h3 hle hv h
    refine ⟨k, ?_, hk, heq, hnat⟩
    rcases Nat.eq_zero_or_pos k with rfl | hk
    · rw [pow_zero] at hnat
      exact absurd (show constval.toNat = 3 by omega) (hthree (by omega))
    · exact hk
  split at hloop
  · subst hloop
    rename_i h
    obtain ⟨k, h1, h31, heq, hnat⟩ := hnear 0 (by decide) h (fun h => absurd h (by decide))
    exact ⟨k, h1, h31, heq, hnat, .inl rfl⟩
  split at hloop
  · subst hloop
    rename_i h
    obtain ⟨k, h1, h31, heq, hnat⟩ := hnear 1 (by decide) h (fun h => absurd h (by decide))
    exact ⟨k, h1, h31, heq, hnat, .inr (.inl rfl)⟩
  rename_i hone
  split at hloop
  · subst hloop
    rename_i h
    obtain ⟨k, h1, h31, heq, hnat⟩ := hnear (-1) (by decide) h (fun h => absurd h (by decide))
    exact ⟨k, h1, h31, heq, hnat, .inr (.inr (.inr rfl))⟩
  split at hloop
  · subst hloop
    rename_i h
    -- three is found as two and one
    have hthree : constval.toNat ≠ 3 := by
      intro h3
      have hnat := toNat_sub_ofInt constval hw (v := 1) (by omega) (by omega)
      have htwo : constval - .ofInt w 1 = BitVec.twoPow w 1 := by
        apply BitVec.eq_of_toNat_eq
        rw [BitVec.toNat_twoPow_of_lt (by omega)]
        omega
      exact hone (htwo ▸ isPow2_twoPow (by omega))
    obtain ⟨k, h1, h31, heq, hnat⟩ := hnear 2 (by decide) h (fun _ => hthree)
    exact ⟨k, h1, h31, heq, hnat, .inr (.inr (.inl rfl))⟩
  · exact absurd hloop.symm hsimple

/-- A power of two near the constant is not missed. -/
theorem offsetLoop_ne (hw : 32 ≤ w) (h1 : 1 ≤ constval.toNat) (hle : constval.toNat ≤ 2 ^ 31)
    {k : Nat} {v : Int} (hv : v = 0 ∨ v = 1 ∨ v = 2 ∨ v = -1)
    (hnat : (constval.toNat : Int) = 2 ^ k + v) : offsetLoop constval 3 0 ≠ notMulConstSimple := by
  have hcast : ((2 ^ k : Nat) : Int) = 2 ^ k := by push_cast; rfl
  have hk : k < 32 := by
    refine (Nat.pow_lt_pow_iff_right (show 1 < 2 by decide)).1 ?_
    omega
  have hpos := Nat.two_pow_pos k
  have heq : constval - .ofInt w v = BitVec.twoPow w k := by
    have hsub := toNat_sub_ofInt constval hw (v := v) (by omega) (by omega)
    apply BitVec.eq_of_toNat_eq
    rw [BitVec.toNat_twoPow_of_lt (by omega)]
    omega
  have hpow : isPow2 (constval - .ofInt w v) = true := heq ▸ isPow2_twoPow (by omega)
  rw [offsetLoop_eq]
  rcases hv with rfl | rfl | rfl | rfl
  · rw [if_pos hpow]
    decide
  · rw [if_pos hpow]
    split_ifs <;> decide
  · rw [if_pos hpow]
    split_ifs <;> decide
  · rw [if_pos hpow]
    split_ifs <;> decide

/-- The loop finds the constants that are nearly a power of two. -/
theorem offsetLoop_near (constval : BitVec w) (hw : 32 ≤ w) (h1 : 1 ≤ constval.toNat)
    (hle : constval.toNat ≤ 2 ^ 31) :
    offsetLoop constval 3 0 ≠ notMulConstSimple ↔ NearPow2 constval.toNat := by
  have hcast : ∀ k, ((2 ^ k : Nat) : Int) = 2 ^ k := fun k => by push_cast; rfl
  constructor
  · intro h
    by_cases h3 : 3 ≤ constval.toNat
    · obtain ⟨k, -, -, -, hnat, hv⟩ := offsetLoop_spec hw h3 hle rfl h
      have := hcast k
      exact ⟨k, by omega⟩
    · rcases (show constval.toNat = 2 ^ 0 ∨ constval.toNat = 2 ^ 1 by omega) with h | h
      · exact ⟨0, .inl h⟩
      · exact ⟨1, .inl h⟩
  · rintro ⟨k, hk⟩
    have := hcast k
    rcases hk with hk | hk | hk | hk
    · exact offsetLoop_ne hw h1 hle (k := k) (v := 0) (.inl rfl) (by omega)
    · exact offsetLoop_ne hw h1 hle (k := k) (v := 1) (.inr (.inl rfl)) (by omega)
    · exact offsetLoop_ne hw h1 hle (k := k) (v := 2) (.inr (.inr (.inl rfl))) (by omega)
    · exact offsetLoop_ne hw h1 hle (k := k) (v := -1) (.inr (.inr (.inr rfl))) (by omega)

/-- The constant is put together again without overflow of `int`. -/
theorem shift_add_eq (hw : 32 ≤ w) (htop : w = 32 ∨ constval.toNat < 2 ^ 31) {k : Nat} {v : Int}
    (hnat : (constval.toNat : Int) = 2 ^ k + v) :
    BitVec.twoPow 32 k + .ofInt 32 v = .ofNat 32 constval.toNat ∧
    constval = (BitVec.twoPow 32 k + .ofInt 32 v).signExtend w := by
  have hsum : BitVec.twoPow 32 k + .ofInt 32 v = .ofNat 32 constval.toNat := by
    have hpow : BitVec.twoPow 32 k = .ofInt 32 (2 ^ k) := by
      rw [show (2 : Int) ^ k = ((2 ^ k : Nat) : Int) by push_cast; rfl, BitVec.ofInt_natCast]
      exact BitVec.eq_of_toNat_eq (by rw [BitVec.toNat_twoPow, BitVec.toNat_ofNat])
    rw [hpow, ← BitVec.ofInt_add, ← hnat, BitVec.ofInt_natCast]
  refine ⟨hsum, ?_⟩
  rw [hsum]
  rcases htop with rfl | hlt
  · rw [BitVec.signExtend_eq, BitVec.ofNat_toNat, BitVec.setWidth_eq]
  · have hpow := pow32_le hw
    apply BitVec.eq_of_toInt_eq
    rw [BitVec.toInt_signExtend_of_le hw, BitVec.toInt_eq_toNat_of_lt (by omega),
      BitVec.toInt_eq_toNat_of_lt (by rw [BitVec.toNat_ofNat]; omega), BitVec.toNat_ofNat,
      Nat.mod_eq_of_lt (by omega)]

theorem ofNat_toNat_small (hw : 32 ≤ w) {a : Nat} (ha : a < 2 ^ 32) :
    (BitVec.ofNat w a).toNat = a := by
  rw [BitVec.toNat_ofNat, Nat.mod_eq_of_lt (ha.trans_le (pow32_le hw))]

variable {I : Type} {st : Steps I} {m : Machine I Regs Nat} {src dest : Reg} {sgned : Bool}

/-- A constant that is nearly a power of two. -/
theorem does_mulPositive (src : Reg) (hst : st.Sound m) (hw : 32 ≤ w) (h1 : 1 ≤ constval.toNat)
    (hle : constval.toNat ≤ 2 ^ 31) (htop : w = 32 ∨ constval.toNat < 2 ^ 31)
    (hoffset : offsetMulConstSimple constval sgned = offsetLoop constval 3 0)
    (hsimple : offsetLoop constval 3 0 ≠ notMulConstSimple) (hdest : dest ≠ 0 ∧ dest ≠ st.tmp) :
    ∃ code, mulPositive st src constval dest sgned = some code ∧ ∀ s,
      Sets m code s dest (s.get src * .ofNat 32 constval.toNat) st.tmp := by
  have hexact : ∀ {code s v u}, Sets m code s dest v dest → v = u →
      Sets m code s dest u st.tmp := by
    rintro code s v u ⟨t, hdoes, hget, hrest⟩ rfl
    exact ⟨t, hdoes, hget, fun q hq _ => hrest q hq hq⟩
  rw [mulPositive]
  by_cases hone : constval = 1
  · have hnat : BitVec.ofNat 32 constval.toNat = 1 := by
      rw [hone, show (1 : BitVec w) = 1#w from rfl, ofNat_toNat_small hw (by decide)]
      rfl
    rw [if_pos hone, hnat]
    by_cases hsd : src = dest
    · subst hsd
      refine ⟨[], congrArg some (if_neg fun h => h rfl), fun s =>
        ⟨s, Does.nil s, ?_, fun _ _ _ => rfl⟩⟩
      exact (BitVec.mul_one _).symm
    · exact ⟨_, congrArg some (if_pos hsd), fun s =>
        hexact (hst.copy s src dest hdest.1) (BitVec.mul_one _).symm⟩
  rw [if_neg hone]
  by_cases htwo : constval = 2
  · have hnat : BitVec.ofNat 32 constval.toNat = 2 := by
      rw [htwo, show (2 : BitVec w) = 2#w from rfl, ofNat_toNat_small hw (by decide)]
      rfl
    rw [if_pos htwo, hnat]
    exact ⟨_, rfl, fun s => hexact (hst.add s src src dest hdest.1) BitVec.mul_two.symm⟩
  rw [if_neg htwo]
  dsimp only
  have h3 : 3 ≤ constval.toNat := by
    refine Nat.lt_of_le_of_ne (Nat.lt_of_le_of_ne h1 fun h => hone ?_) fun h => htwo ?_
    · exact BitVec.eq_of_toNat_eq (h.symm.trans (ofNat_toNat_small hw (by decide)).symm)
    · exact BitVec.eq_of_toNat_eq (h.symm.trans (ofNat_toNat_small hw (by decide)).symm)
  obtain ⟨k, hk, hk31, hc, hnat, hv⟩ := offsetLoop_spec hw h3 hle rfl hsimple
  rw [hoffset]
  generalize offsetLoop constval 3 0 = v at hc hnat hv
  obtain ⟨hsum, hassert⟩ := shift_add_eq hw htop hnat
  rw [hc, bitNo_twoPow (by omega), if_pos hassert, ← hsum]
  by_cases h0 : v = 0
  · rw [if_pos h0]
    refine ⟨_, rfl, fun s => hexact (hst.shift s src k dest hdest.1 hk hk31) ?_⟩
    rw [h0, ofInt_zero, BitVec.add_zero, BitVec.shiftLeft_eq_mul_twoPow]
  rw [if_neg h0]
  have hinter : src ≠ (if src = dest then st.tmp else dest) := by
    split
    · rename_i hsd
      exact hsd ▸ hdest.2
    · assumption
  have hinter0 : (if src = dest then st.tmp else dest) ≠ 0 := by
    split
    · exact hst.tmp_ne
    · exact hdest.1
  have hother : ∀ q, q ≠ dest → q ≠ st.tmp → q ≠ (if src = dest then st.tmp else dest) := by
    intro q hq hq'
    split
    · exact hq'
    · exact hq
  generalize (if src = dest then st.tmp else dest) = interReg at hinter hinter0 hother
  rw [if_neg hinter]
  have hshift := fun s => hst.shift s src k interReg hinter0 hk hk31
  by_cases hpos : v > 0
  · rw [if_pos hpos]
    refine ⟨_, rfl, fun s => ?_⟩
    obtain ⟨t, hdoes, hget, hrest⟩ := hshift s
    obtain ⟨t', hdoes', hget', hrest'⟩ := hst.addTimes t src interReg v.toNat hinter0 hinter
      (by omega)
    obtain ⟨t'', hdoes'', hget'', hrest''⟩ := hst.add t' interReg src dest hdest.1
    refine ⟨t'', (hdoes.append hdoes').append hdoes'', ?_, fun q hq hq' => ?_⟩
    · rw [hget'', hget', hget, hrest' src hinter hinter, hrest src hinter hinter,
        BitVec.shiftLeft_eq_mul_twoPow, BitVec.add_assoc, ← BitVec.mul_succ, ← BitVec.mul_add]
      have hn : v = 1 ∨ v = 2 := by omega
      congr 2
      rcases hn with rfl | rfl <;> decide
    · rw [hrest'' q hq hq, hrest' q (hother q hq hq') (hother q hq hq'),
        hrest q (hother q hq hq') (hother q hq hq')]
  · rw [if_neg hpos]
    have hminus : v = -1 := by omega
    refine ⟨_, rfl, fun s => ?_⟩
    obtain ⟨t, hdoes, hget, hrest⟩ := hshift s
    obtain ⟨t', hdoes', hget', hrest'⟩ := hst.sub t interReg src dest hdest.1
    refine ⟨t', ?_, ?_, fun q hq hq' => ?_⟩
    · rw [hminus]
      exact (hdoes.append (Does.nil t)).append hdoes'
    · rw [hget', hget, hrest src hinter hinter, BitVec.shiftLeft_eq_mul_twoPow, BitVec.mul_add,
        hminus, BitVec.ofInt_neg, BitVec.mul_neg, ← BitVec.sub_eq_add_neg]
      congr 1
      exact (BitVec.mul_one _).symm
    · rw [hrest' q hq hq, hrest q (hother q hq hq') (hother q hq hq')]

end

end Tendra.Ref.Trans
