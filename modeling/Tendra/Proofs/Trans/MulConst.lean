import Tendra.Proofs.Trans.Constant

/-!
# Multiplication by every constant

The constant is an `int` that is passed as a `long`. Its strings of ones make it up if
`long` has 32 bits or the constant is not negative. The string at the top of a negative
`long` of 64 bits is not seen to its end.
-/

namespace Tendra.Ref.Trans

open Machine Word

section

variable {w : Nat} {c : BitVec 32}

/-! ## The constant as a `long` -/

theorem toNat_of_nonneg (h : 0 ≤ c.toInt) : c.toNat < 2 ^ 31 ∧ c.toInt = c.toNat := by
  have hlt := c.isLt
  rw [BitVec.toInt_eq_toNat_cond] at h ⊢
  split at h <;> split <;> omega

theorem toNat_of_neg (h : c.toInt < 0) : 2 ^ 31 ≤ c.toNat ∧ c.toInt = c.toNat - 2 ^ 32 := by
  have hlt := c.isLt
  rw [BitVec.toInt_eq_toNat_cond] at h ⊢
  split at h <;> split <;> omega

theorem toInt_long (hw : 32 ≤ w) (c : BitVec 32) : (c.signExtend w).toInt = c.toInt :=
  BitVec.toInt_signExtend_of_le hw

theorem toNat_long (hw : 32 ≤ w) (h : 0 ≤ c.toInt) : (c.signExtend w).toNat = c.toNat := by
  have hpow := pow32_le hw
  have hnat := toNat_of_nonneg h
  rw [show c.signExtend w = BitVec.ofInt w c.toInt from rfl, hnat.2, BitVec.ofInt_natCast,
    BitVec.toNat_ofNat, Nat.mod_eq_of_lt (by omega)]

theorem toNat_neg_long (hw : 32 ≤ w) (h : c.toInt < 0) :
    (-(c.signExtend w)).toNat = c.toInt.natAbs ∧ c.toInt.natAbs ≤ 2 ^ 31 := by
  have hpow := pow32_le hw
  have hnat := toNat_of_neg h
  refine ⟨?_, by omega⟩
  rw [show c.signExtend w = BitVec.ofInt w c.toInt from rfl, ← BitVec.ofInt_neg,
    show -c.toInt = (c.toInt.natAbs : Int) by omega, BitVec.ofInt_natCast, BitVec.toNat_ofNat,
    Nat.mod_eq_of_lt (by omega)]

theorem long_eq_iff (hw : 32 ≤ w) (d : BitVec 32) : c.signExtend w = d.signExtend w ↔ c = d := by
  refine ⟨fun h => BitVec.eq_of_toInt_eq ?_, fun h => h ▸ rfl⟩
  rw [← toInt_long hw c, h, toInt_long hw]

theorem neg_one_long (w : Nat) : (-1 : BitVec 32).signExtend w = -1 := by
  rw [show (-1 : BitVec 32).signExtend w = BitVec.ofInt w (-1) from rfl, BitVec.ofInt_neg]
  exact congrArg _ (BitVec.ofInt_natCast w 1)

/-- The low word of what multiplies is the constant. -/
theorem ofNat_natAbs (h : c.toInt < 0) : BitVec.ofNat 32 c.toInt.natAbs = -c := by
  rw [← BitVec.ofInt_natCast, show (c.toInt.natAbs : Int) = -c.toInt by omega, BitVec.ofInt_neg,
    BitVec.ofInt_toInt]

/-! ## Which strings of ones the table holds -/

variable {constval : BitVec w}

theorem value_le_total {tab : List Run} {r : Run} (h : r ∈ tab) : r.value ≤ total tab :=
  total_erase h ▸ Nat.le_add_right _ _

theorem maxBsl_le_31 (h : total (bsTab constval) < 2 ^ 32 - 1) : maxBsl (bsTab constval) ≤ 31 := by
  refine maxBsl_le fun r hr => ?_
  by_contra hlong
  have hvalue : 2 ^ 32 - 1 ≤ r.value :=
    calc 2 ^ 32 - 1 ≤ 2 ^ r.bsl - 1 :=
          Nat.sub_le_sub_right (Nat.pow_le_pow_right (by decide) (by omega)) 1
      _ ≤ r.value := Nat.le_mul_of_pos_right _ (Nat.two_pow_pos _)
  have := value_le_total hr
  omega

/-- The entry that initialises the accumulator is the only one for powers of two alone. -/
theorem leftSteps_ne_nil (h0 : total (bsTab constval) ≠ 0)
    (hpow : ∀ k, total (bsTab constval) ≠ 2 ^ k) : leftSteps (bsTab constval) ≠ [] := by
  intro hnil
  have htotal := total_leftSteps constval
  rw [hnil] at htotal
  cases hfirst : firstRun (bsTab constval) with
  | none =>
      rw [hfirst] at htotal
      exact h0 htotal.symm
  | some r =>
      rw [hfirst] at htotal
      exact hpow r.shift (htotal.symm.trans (value_one (firstRun_spec hfirst).2.1))

/-- The strings of a number of 31 bits, or of a `long` of 32. -/
theorem total_bsTab (h : constval.toNat < 2 ^ 32) : total (bsTab constval) = constval.toNat := by
  rw [bsTab, total_scan 32 constval 0 0 (Nat.le_refl 0) h]
  simp

/-- The string at the top of a negative number of 64 bits is left out. -/
theorem total_bsTab_lt {c : BitVec 32} (h : c.toInt < 0) :
    total (bsTab (c.signExtend 64)) < 2 ^ 31 := by
  have hmsb : c.msb = true := by rw [BitVec.msb_eq_toInt, decide_eq_true h]
  have hle := total_scan_le 2 31 (c.signExtend 64) 0 0 (Nat.le_refl 0) fun i hi hlt => by
    rw [BitVec.getLsbD_signExtend, decide_eq_true (by omega), Bool.true_and]
    split
    · rw [show i = 31 by omega, ← hmsb, BitVec.msb_eq_getLsbD_last]
    · exact hmsb
  rw [bsTab]
  have hmod := Nat.mod_lt (c.signExtend 64).toNat (show 0 < 2 ^ 31 by decide)
  simp only [Nat.sub_self, pow_zero, Nat.mul_one, Nat.zero_add, Nat.reduceAdd] at hle
  omega

/-! ## When the product is left -/

variable {I : Type}

/-- The assertions hold, and what is written leaves the product, and the operand where it was. -/
def Multiplies (st : Steps I) (m : Machine I Regs Nat) (w : Nat) (c : BitVec 32) (sgned : Bool)
    (src dest freeReg : Reg) : Prop :=
  ∃ code, mulConst st src (c.signExtend w) dest freeReg sgned = some code ∧ ∀ s, ∃ t,
    m.Does code s t ∧ t.get dest = s.get src * c ∧ (src ≠ dest → t.get src = s.get src)

/-- The constants for which the code does. -/
def Handles (w : Nat) (c : BitVec 32) (sgned : Bool) : Prop :=
  if w = 32 then sgned = true ∨ c ≠ BitVec.intMin 32
  else 0 ≤ c.toInt ∨ c = -1 ∨
    sgned = true ∧ c ≠ BitVec.intMin 32 ∧ NearPow2 c.toInt.natAbs

variable {st : Steps I} {m : Machine I Regs Nat} {src dest freeReg : Reg} {sgned : Bool}

/-- One list does it for all registers. -/
theorem exists_code {o : Option (List I)} {P : List I → Regs → Prop}
    (h : ∀ s, ∃ code, o = some code ∧ P code s) : ∃ code, o = some code ∧ ∀ s, P code s := by
  obtain ⟨code, hcode, -⟩ := h ⟨fun _ => 0⟩
  refine ⟨code, hcode, fun s => ?_⟩
  obtain ⟨code', hcode', hP⟩ := h s
  rw [hcode] at hcode'
  injection hcode' with heq
  exact heq ▸ hP

/-- A shift and additions leave the product. -/
theorem multiplies_simple (code : List I)
    (hcode : mulConst st src (c.signExtend w) dest freeReg sgned = some code)
    (hsrc : src ≠ st.tmp) (h : ∀ s, Sets m code s dest (s.get src * c) st.tmp) :
    Multiplies st m w c sgned src dest freeReg := by
  refine ⟨code, hcode, fun s => ?_⟩
  obtain ⟨t, hdoes, hget, hrest⟩ := h s
  exact ⟨t, hdoes, hget, fun hsd => hrest src hsd hsrc⟩

theorem multiplies_zero (hst : st.Sound m) (hsrc : src ≠ st.tmp) (hdest : dest ≠ 0) :
    Multiplies st m w 0 sgned src dest freeReg := by
  have hlong : (0 : BitVec 32).signExtend w = 0 := BitVec.ofInt_natCast w 0
  refine multiplies_simple (st.zero dest) (by rw [mulConst, if_pos hlong]) hsrc fun s => ?_
  obtain ⟨t, hdoes, hget, hrest⟩ := hst.zero s dest hdest
  exact ⟨t, hdoes, hget.trans BitVec.mul_zero.symm, fun q hq _ => hrest q hq hq⟩

theorem offset_neg (hw : 32 ≤ w) (h : c.toInt < 0) (sgned : Bool) :
    offsetMulConstSimple (c.signExtend w) sgned =
      if sgned then offsetLoop (-(c.signExtend w)) 3 0 else notMulConstSimple := by
  rw [offsetMulConstSimple, toInt_long hw, if_pos h]

theorem offset_nonneg (hw : 32 ≤ w) (h : 0 ≤ c.toInt) (sgned : Bool) :
    offsetMulConstSimple (c.signExtend w) sgned = offsetLoop (c.signExtend w) 3 0 := by
  rw [offsetMulConstSimple, toInt_long hw, if_neg (by omega)]

theorem long_ne_zero (hw : 32 ≤ w) (h : c ≠ 0) : c.signExtend w ≠ 0 := by
  intro heq
  refine h (BitVec.eq_of_toInt_eq ?_)
  rw [← toInt_long hw, heq]
  exact BitVec.toInt_zero

theorem long_ne_neg_one (hw : 32 ≤ w) (h : c ≠ -1) : c.signExtend w ≠ -1 := by
  rw [← neg_one_long]
  exact fun heq => h ((long_eq_iff hw _).1 heq)

theorem multiplies_neg_one (hst : st.Sound m) (hw : 32 ≤ w) (hsrc : src ≠ st.tmp)
    (hdest : dest ≠ 0) : Multiplies st m w (-1) sgned src dest freeReg := by
  have hneg : (-1 : BitVec 32).toInt < 0 := by decide
  have hlong : (-1 : BitVec 32).signExtend w = -1 := neg_one_long w
  have hint := toInt_long hw (-1)
  refine multiplies_simple (st.neg src dest) ?_ hsrc fun s => ?_
  · rw [mulConst, if_neg (long_ne_zero hw (by decide)), offset_neg hw hneg]
    cases sgned with
    | false => rw [if_neg Bool.false_ne_true, if_pos rfl, mulConstComplex, if_pos hlong]
    | true =>
        have hnat := toNat_neg_long hw hneg
        have hsimple := (offsetLoop_near _ hw (by rw [hnat.1]; decide) (by rw [hnat.1]; decide)).2
          ⟨0, .inl hnat.1⟩
        rw [if_pos rfl, if_neg hsimple, mulConstSimple, hint, if_pos ⟨rfl, hneg⟩, if_pos hlong]
  · obtain ⟨t, hdoes, hget, hrest⟩ := hst.neg s src dest hdest
    refine ⟨t, hdoes, hget.trans ?_, fun q hq _ => hrest q hq hq⟩
    rw [BitVec.mul_neg]
    exact congrArg _ (BitVec.mul_one _).symm

theorem multiplies_complex (hst : st.Sound m) (hw : 32 ≤ w) (hc : c ≠ 0 ∧ c ≠ -1)
    (hoffset : offsetMulConstSimple (c.signExtend w) sgned = notMulConstSimple)
    (htotal : total (bsTab (c.signExtend w)) = c.toNat) (hpow : ∀ k, c.toNat ≠ 2 ^ k)
    (hsrc : src ≠ st.tmp) (hdest : dest ≠ 0 ∧ dest ≠ st.tmp)
    (hfree : freeReg ≠ 0 ∧ freeReg ≠ st.tmp ∧ freeReg ≠ src) :
    Multiplies st m w c sgned src dest freeReg := by
  have h0 : c.toNat ≠ 0 := fun h => hc.1 (BitVec.eq_of_toNat_eq h)
  have h1 : c.toNat ≠ 2 ^ 32 - 1 := fun h => hc.2 (BitVec.eq_of_toNat_eq h)
  have hlt := c.isLt
  have hassert : maxBsl (bsTab (c.signExtend w)) ≤ 31 ∧ leftSteps (bsTab (c.signExtend w)) ≠ [] :=
    ⟨maxBsl_le_31 (by omega), leftSteps_ne_nil (htotal ▸ h0) (htotal ▸ hpow)⟩
  rw [Multiplies, mulConst, if_neg (long_ne_zero hw hc.1), if_pos hoffset]
  refine exists_code fun s => ?_
  have hdoes := does_mulConstComplex hst (long_ne_neg_one hw hc.2) hsrc hdest hfree s
  rw [if_pos hassert, htotal, BitVec.ofNat_toNat, BitVec.setWidth_eq] at hdoes
  exact hdoes

theorem multiplies_nonneg (hst : st.Sound m) (hw : 32 ≤ w) (h : 0 ≤ c.toInt)
    (hsrc : src ≠ st.tmp) (hdest : dest ≠ 0 ∧ dest ≠ st.tmp)
    (hfree : freeReg ≠ 0 ∧ freeReg ≠ st.tmp ∧ freeReg ≠ src) :
    Multiplies st m w c sgned src dest freeReg := by
  by_cases h0 : c = 0
  · exact h0 ▸ multiplies_zero hst hsrc hdest.1
  have hnat := toNat_of_nonneg h
  have hlong := toNat_long hw h
  have h1 : c.toNat ≠ 0 := fun h => h0 (BitVec.eq_of_toNat_eq h)
  have hoffset := offset_nonneg hw h sgned
  have hnear := offsetLoop_near (c.signExtend w) hw (by omega) (by omega)
  by_cases hsimple : offsetLoop (c.signExtend w) 3 0 = notMulConstSimple
  · refine multiplies_complex hst hw ⟨h0, fun h => ?_⟩ (hoffset.trans hsimple) ?_ ?_ hsrc hdest
      hfree
    · subst h
      exact absurd h (by decide)
    · rw [total_bsTab (by omega), hlong]
    · exact fun k hk => hnear.2 ⟨k, .inl (hlong.trans hk)⟩ hsimple
  · obtain ⟨code, hcode, hdoes⟩ := does_mulPositive src hst hw (by omega) (by omega)
      (.inr (by omega)) hoffset hsimple hdest
    rw [hlong, BitVec.ofNat_toNat, BitVec.setWidth_eq] at hdoes
    refine multiplies_simple code ?_ hsrc hdoes
    rw [mulConst, if_neg (long_ne_zero hw h0), if_neg (hoffset ▸ hsimple), mulConstSimple,
      toInt_long hw, if_neg (fun hneg => absurd hneg.2 (by omega)), hcode]

theorem offset_complex (hw : 32 ≤ w) (h : c.toInt < 0)
    (hcomplex : ¬(sgned = true ∧ NearPow2 c.toInt.natAbs)) :
    offsetMulConstSimple (c.signExtend w) sgned = notMulConstSimple := by
  have hnat := toNat_neg_long hw h
  rw [offset_neg hw h]
  cases sgned with
  | false => rfl
  | true =>
      by_contra hsimple
      refine hcomplex ⟨rfl, ?_⟩
      rw [← hnat.1]
      exact (offsetLoop_near _ hw (by omega) (by omega)).1 hsimple

/-- A negative constant that is nearly a power of two: the operand is negated first. -/
theorem mulConst_near (hw : 32 ≤ w) (h : c.toInt < 0) (hne : c ≠ -1)
    (hnear : NearPow2 c.toInt.natAbs) :
    mulConst st src (c.signExtend w) dest freeReg true =
      (mulPositive st st.tmp (-(c.signExtend w)) dest true).map (st.neg src st.tmp ++ ·) := by
  have hnat := toNat_neg_long hw h
  have hsimple := (offsetLoop_near (-(c.signExtend w)) hw (by omega) (by omega)).2
    (by rwa [hnat.1])
  have hc0 : c ≠ 0 := by
    rintro rfl
    exact absurd h (by decide)
  rw [mulConst, if_neg (long_ne_zero hw hc0), offset_neg hw h, if_pos rfl, if_neg hsimple,
    mulConstSimple, toInt_long hw, if_pos ⟨rfl, h⟩, if_neg (long_ne_neg_one hw hne)]

theorem multiplies_near (hst : st.Sound m) (hw : 32 ≤ w) (h : c.toInt < 0) (hne : c ≠ -1)
    (htop : w = 32 ∨ c ≠ BitVec.intMin 32) (hnear : NearPow2 c.toInt.natAbs)
    (hsrc : src ≠ st.tmp) (hdest : dest ≠ 0 ∧ dest ≠ st.tmp) :
    Multiplies st m w c true src dest freeReg := by
  have hnat := toNat_neg_long hw h
  have hsimple := (offsetLoop_near (-(c.signExtend w)) hw (by omega) (by omega)).2
    (by rwa [hnat.1])
  have hmin : c ≠ BitVec.intMin 32 → c.toInt.natAbs < 2 ^ 31 := by
    intro hc
    refine Nat.lt_of_le_of_ne hnat.2 fun heq => hc (BitVec.eq_of_toInt_eq ?_)
    rw [show (BitVec.intMin 32).toInt = -2 ^ 31 by decide]
    omega
  have hoffset : offsetMulConstSimple (-(c.signExtend w)) true =
      offsetLoop (-(c.signExtend w)) 3 0 := by
    by_cases hc : c = BitVec.intMin 32
    · -- the negation of the least number is itself
      obtain rfl := htop.resolve_right (fun h => h hc)
      subst hc
      decide
    · have hlt := hmin hc
      have hpow := pow32_le hw
      rw [offsetMulConstSimple, BitVec.toInt_eq_toNat_of_lt (by omega), if_neg (by omega)]
  obtain ⟨code, hcode, hdoes⟩ := does_mulPositive st.tmp hst hw (by omega) (by omega)
    (htop.imp id fun hc => by have := hmin hc; omega) hoffset hsimple hdest
  refine multiplies_simple (st.neg src st.tmp ++ code) ?_ hsrc fun s => ?_
  · rw [mulConst_near hw h hne hnear, hcode]
    rfl
  · obtain ⟨t, hdoes', hget', hrest'⟩ := hst.neg s src st.tmp hst.tmp_ne
    obtain ⟨t', hdoes'', hget'', hrest''⟩ := hdoes t
    refine ⟨t', hdoes'.append hdoes'', ?_, fun q hq hq' => ?_⟩
    · rw [hget'', hget', hnat.1, ofNat_natAbs h, BitVec.neg_mul_neg]
    · rw [hrest'' q hq hq', hrest' q hq' hq']

/-- The other negative constants, where `long` has 32 bits. -/
theorem multiplies_neg (hst : st.Sound m) (h : c.toInt < 0) (hne : c ≠ -1)
    (hmin : c ≠ BitVec.intMin 32)
    (hcomplex : ¬(sgned = true ∧ NearPow2 c.toInt.natAbs)) (hsrc : src ≠ st.tmp)
    (hdest : dest ≠ 0 ∧ dest ≠ st.tmp) (hfree : freeReg ≠ 0 ∧ freeReg ≠ st.tmp ∧ freeReg ≠ src) :
    Multiplies st m 32 c sgned src dest freeReg := by
  have hnat := toNat_of_neg h
  refine multiplies_complex hst (Nat.le_refl 32) ⟨?_, hne⟩ (offset_complex (Nat.le_refl 32) h
    hcomplex) ?_ (fun k hk => hmin ?_) hsrc hdest hfree
  · rintro rfl
    exact absurd h (by decide)
  · rw [BitVec.signExtend_eq, total_bsTab c.isLt]
  · have hlt := c.isLt
    have hk32 : k < 32 := (Nat.pow_lt_pow_iff_right (show 1 < 2 by decide)).1 (hk ▸ hlt)
    have hk31 : 31 ≤ k := (Nat.pow_le_pow_iff_right (show 1 < 2 by decide)).1 (hk ▸ hnat.1)
    obtain rfl : k = 31 := by omega
    exact BitVec.eq_of_toNat_eq hk

/-- Where `long` is longer, no other negative constant is right. -/
theorem not_multiplies_neg (hst : st.Sound m) (h : c.toInt < 0) (hne : c ≠ -1)
    (hcomplex : ¬(sgned = true ∧ NearPow2 c.toInt.natAbs)) (hsrc : src ≠ st.tmp) (hsrc0 : src ≠ 0)
    (hdest : dest ≠ 0 ∧ dest ≠ st.tmp) (hfree : freeReg ≠ 0 ∧ freeReg ≠ st.tmp ∧ freeReg ≠ src) :
    ¬Multiplies st m 64 c sgned src dest freeReg := by
  have hw : 32 ≤ 64 := by decide
  have hc0 : c ≠ 0 := by
    rintro rfl
    exact absurd h (by decide)
  rintro ⟨code, hcode, hdoes⟩
  rw [mulConst, if_neg (long_ne_zero hw hc0), if_pos (offset_complex hw h hcomplex)] at hcode
  -- the operand is one
  obtain ⟨t, hdoes, hget, -⟩ := hdoes (Regs.set ⟨fun _ => 0⟩ src 1)
  have hcomplex := does_mulConstComplex hst (long_ne_neg_one hw hne) hsrc hdest hfree
    (Regs.set ⟨fun _ => 0⟩ src 1)
  split at hcomplex
  · obtain ⟨code', hcode', t', hdoes', hget', -⟩ := hcomplex
    rw [hcode] at hcode'
    injection hcode' with heq
    subst heq
    rw [hdoes'.unique hdoes, hget, Regs.get_set_self hsrc0] at hget'
    have heq := congrArg BitVec.toNat ((BitVec.one_mul c).symm.trans
      (hget'.trans (BitVec.one_mul _)))
    have hlt := total_bsTab_lt h
    rw [BitVec.toNat_ofNat, Nat.mod_eq_of_lt (by omega)] at heq
    have hnat := toNat_of_neg h
    omega
  · rw [hcode] at hcomplex
    cases hcomplex

/-- The least number, not signed: no step is left once the accumulator is set. -/
theorem mulConst_min (hst : st.Sound m) (hsrc : src ≠ st.tmp) (hdest : dest ≠ 0 ∧ dest ≠ st.tmp)
    (hfree : freeReg ≠ 0 ∧ freeReg ≠ st.tmp ∧ freeReg ≠ src) :
    mulConst st src ((BitVec.intMin 32).signExtend 32) dest freeReg false = none := by
  rw [BitVec.signExtend_eq, mulConst, if_neg (by decide), if_pos (by decide)]
  have hnil : leftSteps (bsTab (BitVec.intMin 32)) = [] := by decide
  have hcomplex := does_mulConstComplex hst (show BitVec.intMin 32 ≠ -1 by decide) hsrc hdest
    hfree ⟨fun _ => 0⟩
  rwa [if_neg (fun h => h.2 hnil)] at hcomplex

/-- Its negation as a `long` of 64 bits is no `int`. -/
theorem mulConst_min_long :
    mulConst st src ((BitVec.intMin 32).signExtend 64) dest freeReg true = none := by
  rw [mulConst_near (by decide) (by decide) (by decide) ⟨31, .inl (by decide)⟩, mulPositive,
    if_neg (by decide), if_neg (by decide)]
  dsimp only
  rw [if_neg (by decide)]
  rfl

/-- The code is right for the constants that it handles, and for no others. -/
theorem multiplies_of_handles (hst : st.Sound m) (hw : w = 32 ∨ w = 64) (hsrc : src ≠ st.tmp)
    (hdest : dest ≠ 0 ∧ dest ≠ st.tmp) (hfree : freeReg ≠ 0 ∧ freeReg ≠ st.tmp ∧ freeReg ≠ src)
    (h : Handles w c sgned) : Multiplies st m w c sgned src dest freeReg := by
  have hw32 : 32 ≤ w := by omega
  by_cases hneg : c.toInt < 0
  · by_cases hone : c = -1
    · exact hone ▸ multiplies_neg_one hst hw32 hsrc hdest.1
    rw [Handles] at h
    by_cases hnear : sgned = true ∧ NearPow2 c.toInt.natAbs
    · obtain ⟨rfl, hnear⟩ := hnear
      refine multiplies_near hst hw32 hneg hone ?_ hnear hsrc hdest
      split at h
      · exact .inl ‹_›
      · exact .inr ((h.resolve_left (by omega)).resolve_left hone).2.1
    · split at h
      · rename_i hw
        subst hw
        refine multiplies_neg hst hneg hone ?_ hnear hsrc hdest hfree
        rcases h with rfl | h
        · rintro rfl
          exact hnear ⟨rfl, 31, .inl (by decide)⟩
        · exact h
      · have h := (h.resolve_left (by omega)).resolve_left hone
        exact absurd ⟨h.1, h.2.2⟩ hnear
  · exact multiplies_nonneg hst hw32 (by omega) hsrc hdest hfree

theorem handles_of_multiplies (hst : st.Sound m) (hw : w = 32 ∨ w = 64) (hsrc : src ≠ st.tmp)
    (hsrc0 : src ≠ 0) (hdest : dest ≠ 0 ∧ dest ≠ st.tmp)
    (hfree : freeReg ≠ 0 ∧ freeReg ≠ st.tmp ∧ freeReg ≠ src)
    (h : Multiplies st m w c sgned src dest freeReg) : Handles w c sgned := by
  by_contra hnot
  rw [Handles] at hnot
  rcases hw with rfl | rfl
  · rw [if_pos rfl, not_or, not_not] at hnot
    obtain ⟨hsgned, rfl⟩ := hnot
    obtain rfl := Bool.eq_false_of_not_eq_true hsgned
    obtain ⟨code, hcode, -⟩ := h
    rw [mulConst_min hst hsrc hdest hfree] at hcode
    cases hcode
  · rw [if_neg (by decide), not_or, not_or] at hnot
    obtain ⟨hneg, hone, hnot⟩ := hnot
    by_cases hmin : sgned = true ∧ c = BitVec.intMin 32
    · obtain ⟨rfl, rfl⟩ := hmin
      obtain ⟨code, hcode, -⟩ := h
      rw [mulConst_min_long] at hcode
      cases hcode
    · exact not_multiplies_neg hst (by omega) hone
        (fun hnear => hnot ⟨hnear.1, fun h => hmin ⟨hnear.1, h⟩, hnear.2⟩) hsrc hsrc0 hdest hfree h

end

end Tendra.Ref.Trans
