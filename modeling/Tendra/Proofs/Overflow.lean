import Tendra.Proofs.FoldExact
import Tendra.Ref.Refactor

/-!
# When constant folding notes an overflow

`plus_fn`, `minus_fn` and `mult_fn` set `constovf` from two tests: the flag that `flt_to_f64`
gives back, which looks at the magnitude of the result, and `check_size`, which looks at its
pattern but not in shapes of more than 32 bits. In the other shapes the two together are
exact. In 64 bits only the first counts: it takes the least signed value for an overflow, and no
negative result of an unsigned shape.
-/

namespace Tendra.Ref

open Tendra.Word Tendra.Digits

variable {v : Int} {x : F64} {sh : Shape}

/-- What the two tests make of the exact result `v`. -/
def Noted (sh : Shape) (v : Int) : Prop :=
  if sh.size = 64 then
    if sh.isSigned then 2 ^ 63 ≤ v.natAbs else 2 ^ 64 ≤ v.natAbs
  else ¬sh.Has v

/-- The function ends, with `constovf` set on the result where the exact result is not a value
of the shape, and only there. -/
def Detects (sh : Shape) (v : Int) (r : Run (FoldSt × Node)) : Prop :=
  ∃ st' a', r = .ok (st', a') ∧ (constovf a' = true ↔ ¬sh.Has v)

theorem toNat_sshiftRight_eq_zero {x : BitVec 32} {n : Nat} (hn : n < 32) :
    x.sshiftRight n = 0 ↔ x.toNat < 2 ^ n := by
  have hpow : (2 : Int) ^ n ≤ 2 ^ 31 := pow_le_pow_right₀ (by omega) (by omega)
  have hpos : (0 : Int) < 2 ^ n := by positivity
  rw [← BitVec.toInt_inj, BitVec.toInt_sshiftRight, Int.shiftRight_eq_div_pow]
  have hnat : ((2 ^ n : Nat) : Int) = 2 ^ n := by push_cast; rfl
  have hx : x.toNat < 2 ^ n ↔ (x.toNat : Int) < 2 ^ n := by rw [← hnat]; omega
  rw [hx, hnat, show (0 : BitVec 32).toInt = 0 from rfl, BitVec.toInt_eq_toNat_cond]
  have hlt := x.isLt
  split
  next h =>
    constructor
    · intro hdiv
      have := Int.lt_mul_ediv_self_add (x := (x.toNat : Int)) hpos
      rw [hdiv] at this
      omega
    · exact fun hlt => Int.ediv_eq_zero_of_lt (by omega) hlt
  next h =>
    have hneg : ((x.toNat : Int) - (2 ^ 32 : Nat)) / 2 ^ n < 0 := Int.ediv_neg_of_neg_of_pos
      (by omega) hpos
    constructor
    · intro hdiv
      omega
    · intro hlt
      omega

/-- The halves of a pattern that stands for a small value. -/
theorem small_toInt (h : x.bits = BitVec.ofInt 64 v) (hv : -2 ^ 31 ≤ v) (hv' : v < 2 ^ 31) :
    x.small.toInt = v := by
  have hsmall : x.small = BitVec.ofInt 32 v := by
    rw [← setWidth_ofInt (show 32 ≤ 64 by decide), ← h, F64.bits, BitVec.setWidth_append_eq_right]
  rw [hsmall]
  exact BitVec.toInt_ofInt_eq_self (by decide) hv hv'

theorem sshiftRight_eq_sign {x : BitVec 32} {n : Nat} (hn : 0 < n) (hn' : n ≤ 32) :
    x.sshiftRight (n - 1) = x.sshiftRight 31 ↔ InRange true n x.toInt := by
  have hlt := BitVec.toInt_lt (x := x)
  have hle := BitVec.le_toInt x
  have hpow : (2 : Int) ^ (n - 1) ≤ 2 ^ 31 := pow_le_pow_right₀ (by omega) (by omega)
  have hpos : (0 : Int) < 2 ^ (n - 1) := by positivity
  have hnat : ((2 ^ (n - 1) : Nat) : Int) = 2 ^ (n - 1) := by push_cast; rfl
  rw [← BitVec.toInt_inj, BitVec.toInt_sshiftRight, BitVec.toInt_sshiftRight,
    Int.shiftRight_eq_div_pow, Int.shiftRight_eq_div_pow, hnat]
  simp only [InRange, if_true]
  have hdiv := Int.mul_ediv_add_emod x.toInt (2 ^ (n - 1))
  have hmod := Int.emod_nonneg x.toInt hpos.ne'
  have hmod' := Int.emod_lt_of_pos x.toInt hpos
  constructor
  · intro heq
    rw [heq] at hdiv
    rcases lt_or_ge x.toInt 0 with hneg | hnonneg
    · rw [show x.toInt / ((2 ^ 31 : Nat) : Int) = -1 by omega] at hdiv
      omega
    · rw [show x.toInt / ((2 ^ 31 : Nat) : Int) = 0 by omega] at hdiv
      omega
  · rintro ⟨hlow, hhigh⟩
    rcases lt_or_ge x.toInt 0 with hneg | hnonneg
    · rw [show x.toInt / ((2 ^ 31 : Nat) : Int) = -1 by omega]
      exact Int.ediv_eq_neg_one_of_neg_of_le hneg (by omega)
    · rw [show x.toInt / ((2 ^ 31 : Nat) : Int) = 0 by omega]
      exact Int.ediv_eq_zero_of_lt hnonneg hhigh

/-- `check_size` is exact in the shapes that it looks at. -/
theorem checkSize_iff {sg : Bool} {n : Nat} (hn : 0 < n) (hn' : n ≤ 32)
    (h : x.bits = BitVec.ofInt 64 v)
    (hv : if sg then v.natAbs < 2 ^ 63 else -2 ^ 32 ≤ v ∧ v < 2 ^ 64) :
    checkSize x sg n = true ↔ ¬InRange sg n v := by
  rw [checkSize]
  simp only [gt_iff_lt, Nat.not_lt.2 hn', if_false]
  cases sg with
  | true =>
      simp only [if_true] at hv
      have hr : InRange true 64 v := by
        simp only [InRange, if_true]
        omega
      have hsign := small_sign_eq_big_iff hr h
      simp only [true_and, not_true_eq_false, false_and, if_false]
      by_cases hbig : x.small.sshiftRight 31 = x.big
      · obtain ⟨hlow, hhigh⟩ := hsign.1 hbig
        have hin := sshiftRight_eq_sign (x := x.small) hn hn'
        rw [small_toInt h hlow hhigh] at hin
        rw [← hin, ← hbig]
        by_cases h32 : n = 32
        · subst h32
          simp
        · simp [h32]
      · have hout : ¬InRange true n v := by
          intro hin
          have h32 := inRange_mono hn hn' hin
          simp only [InRange, if_true] at h32
          exact hbig (hsign.2 (by omega))
        simp [hbig, hout]
  | false =>
      simp only [Bool.false_eq_true, if_false] at hv
      have hnat := x.toNat_bits
      have hsm := x.small.isLt
      have hbg := x.big.isLt
      rw [h, BitVec.toNat_ofInt] at hnat
      have hbig : x.big = 0 ↔ x.big.toNat = 0 :=
        ⟨fun h => by rw [h]; rfl, fun h => BitVec.eq_of_toNat_eq h⟩
      have hpow : (2 : Int) ^ n ≤ 2 ^ 32 := pow_le_pow_right₀ (by omega) hn'
      have hcast : ((2 ^ n : Nat) : Int) = 2 ^ n := by push_cast; rfl
      simp only [Bool.false_eq_true, false_and, if_false, not_false_eq_true, true_and, InRange,
        hbig]
      by_cases h0 : x.big.toNat = 0
      · have hval : (x.small.toNat : Int) = v := by omega
        by_cases h32 : n = 32
        · subst h32
          simp only [h0, true_or, and_self, if_true, Bool.false_eq_true, false_iff, not_not]
          omega
        · have hshift := toNat_sshiftRight_eq_zero (x := x.small) (show n < 32 by omega)
          simp only [h0, h32, false_or, true_and, hshift]
          by_cases hlt : x.small.toNat < 2 ^ n
          · simp only [hlt, if_true, Bool.false_eq_true, false_iff, not_not]
            omega
          · simp only [hlt, if_false, true_iff]
            omega
      · simp only [h0, false_and, if_false, true_iff]
        omega

theorem constovf_pset (n : Node) : constovf { n with props := pset n.props 0x02 } = true := by
  rw [constovf, ptst, decide_eq_true_iff]
  intro h
  have hbit := congrArg (Nat.testBit · 1) h
  simp only [pset, Nat.testBit_and, Nat.testBit_or, Nat.zero_testBit] at hbit
  rw [show Nat.testBit 2 1 = true from rfl, Bool.or_true, Bool.and_true] at hbit
  exact Bool.noConfusion hbit

theorem and_two_pset_one (props : Nat) : pset props 0x01 &&& 0x02 = props &&& 0x02 := by
  rw [pset, Nat.and_or_distrib_right, show 0x01 &&& 0x02 = 0 from rfl, Nat.or_zero]

theorem and_two_clearbigval (props : Nat) : clearbigval props &&& 0x02 = props &&& 0x02 := by
  apply Nat.eq_of_testBit_eq
  intro i
  rw [clearbigval, Nat.testBit_and, Nat.testBit_and]
  rcases i with _ | _ | i
  · simp
  · simp [Nat.testBit_succ]
  · simp [Nat.testBit_succ]

/-- `bigres` leaves the flag as it is. -/
theorem constovf_bigres (p : Pool) (a : Node) (x : F64) :
    constovf (bigres p a x).2 = constovf a := by
  simp only [constovf, ptst, bigres]
  split
  · rw [and_two_pset_one]
  · rw [and_two_clearbigval]

theorem constovf_noteOverflow {ap b : Node} {et : Nat} (x : F64) (ov : Bool) (het : et ≠ wrapErr)
    (ha : constovf ap = false) (hb : constovf b = false) :
    constovf (noteOverflow ap b et x ov) = (ov || checkSize x ap.sh.isSigned ap.sh.size) := by
  rw [noteOverflow]
  by_cases h : (ov || constovf b || checkSize x ap.sh.isSigned ap.sh.size) = true
  · rw [if_pos ⟨het, h⟩, constovf_pset]
    rw [hb, Bool.or_false] at h
    exact h.symm
  · rw [if_neg fun h' => h h'.2, ha]
    rw [hb, Bool.or_false] at h
    exact (Bool.eq_false_iff.2 h).symm

/-- The two tests on an exact pattern. -/
theorem tests_iff (hs : sh.IsInt) {ov : Bool} (hbits : x.bits = BitVec.ofInt 64 v)
    (hov : ov = true ↔ if sh.isSigned then 2 ^ 63 ≤ v.natAbs else 2 ^ 64 ≤ v.natAbs)
    (hv : sh.size ≤ 32 → if sh.isSigned then v.natAbs < 2 ^ 63 else -2 ^ 32 ≤ v ∧ v < 2 ^ 64) :
    (ov || checkSize x sh.isSigned sh.size) = true ↔ Noted sh v := by
  rw [Noted]
  by_cases h64 : sh.size = 64
  · rw [if_pos h64, h64, checkSize, if_pos (by decide), Bool.or_false]
    exact hov
  · have hle : sh.size ≤ 32 := by
      have := hs.size
      omega
    have hsmall := hv hle
    have hnot : ov = false := by
      rw [Bool.eq_false_iff, ne_eq, hov]
      cases hsg : sh.isSigned with
      | true =>
          simp only [hsg, if_true] at hsmall ⊢
          omega
      | false =>
          simp only [hsg, Bool.false_eq_true, if_false] at hsmall ⊢
          omega
    rw [if_neg h64, hnot, Bool.false_or]
    exact checkSize_iff hs.pos hle hbits hsmall

/-- The tests are exact, but for two kinds of results in 64 bits. -/
theorem noted_iff (hv : sh.isSigned = false → -2 ^ 64 < v) :
    (Noted sh v ↔ ¬sh.Has v) ↔
      ¬(sh.size = 64 ∧ if sh.isSigned then v = -2 ^ 63 else v < 0) := by
  rw [Noted]
  by_cases h64 : sh.size = 64
  · simp only [h64, if_true, true_and, Shape.Has, InRange]
    cases hsg : sh.isSigned with
    | true =>
        simp only [if_true]
        omega
    | false =>
        have := hv hsg
        simp only [Bool.false_eq_true, if_false]
        omega
  · simp [h64]

/-- The function ends, and notes an overflow where the two tests do. -/
def Notes (sh : Shape) (v : Int) (r : Run (FoldSt × Node)) : Prop :=
  ∃ st' a', r = .ok (st', a') ∧ (constovf a' = true ↔ Noted sh v)

theorem Notes.detects_iff {r : Run (FoldSt × Node)} (h : Notes sh v r)
    (hv : sh.isSigned = false → -2 ^ 64 < v) :
    Detects sh v r ↔ ¬(sh.size = 64 ∧ if sh.isSigned then v = -2 ^ 63 else v < 0) := by
  rw [← noted_iff hv]
  obtain ⟨st', a', hr, hnoted⟩ := h
  constructor
  · rintro ⟨st'', a'', hr', hdetects⟩
    obtain ⟨-, rfl⟩ := Prod.mk.inj (Except.ok.inj (hr.symm.trans hr'))
    exact hnoted.symm.trans hdetects
  · exact fun hiff => ⟨st', a', hr, hnoted.trans hiff⟩

section Operands

variable {st : FoldSt} {ap b : Node} {va vb : Int}
variable (hok : st.pool.Ok) (hs : ap.sh.IsInt) (hbs : b.sh = ap.sh)
variable (ha : Canon st.pool ap va) (hb : Canon st.pool b vb)
variable (hca : constovf ap = false) (hcb : constovf b = false) {et : Nat} (het : et ≠ wrapErr)

include hs hca hcb het in
/-- What the flag says at the end of the course that the functions share. -/
theorem release_noted {p : Pool} {fa fb : Nat} {ov : Bool} {r : Run (FoldSt × Node)}
    (hr : r = .ok (release st p fa fb (noteOverflow ap b et x ov) x))
    (htested : Tested ap.sh v x ov) (hv : ap.sh.size ≤ 32 →
      if ap.sh.isSigned then v.natAbs < 2 ^ 63 else -2 ^ 32 ≤ v ∧ v < 2 ^ 64) :
    Notes ap.sh v r := by
  refine ⟨_, _, hr, ?_⟩
  rw [constovf_bigres, constovf_noteOverflow x ov het hca hcb]
  exact tests_iff hs htested.1 htested.2 hv

include hs hbs ha hb in
/-- Operands of at most 32 bits have values of 32 bits. -/
theorem operands_range (hsize : ap.sh.size ≤ 32) :
    InRange ap.sh.isSigned 32 va ∧ InRange ap.sh.isSigned 32 vb := by
  have hrb := inRange_mono (hbs ▸ hs).pos (hbs ▸ hsize) hb.range
  exact ⟨inRange_mono hs.pos hsize ha.range, hbs ▸ hrb⟩

include hs hbs ha hb hca hcb het

/-- A sum or a difference. -/
theorem sum_noted {fn : Run (FoldSt × Node)} {fa fb : Nat} {p' : Pool} {ov : Bool}
    (hv : v = va + vb ∨ v = va - vb)
    (hr : fn = .ok (release st p' fa fb (noteOverflow ap b et x ov) x))
    (htested : Tested ap.sh v x ov) : Notes ap.sh v fn := by
  refine release_noted hs hca hcb het hr htested fun hsize => ?_
  obtain ⟨hra, hrb⟩ := operands_range hs hbs ha hb hsize
  cases hsg : ap.sh.isSigned with
  | true =>
      simp only [hsg, InRange, if_true] at hra hrb ⊢
      omega
  | false =>
      simp only [hsg, InRange, Bool.false_eq_true, if_false] at hra hrb ⊢
      omega

include hok

theorem plusFn_noted : Notes ap.sh (va + vb) (plusFn st ap b et) := by
  obtain ⟨fa, fb, p', x, ov, hvia, htested, -⟩ :=
    viaFlt_sum hok hs hbs ha hb (Int.natAbs_add_le va vb) fltAdd_is
  have hr : plusFn st ap b et = .ok (release st p' fa fb (noteOverflow ap b et x ov) x) := by
    simp only [plusFn, hvia, bind, Except.bind]
    rfl
  exact sum_noted hs hbs ha hb hca hcb het (.inl rfl) hr htested

theorem minusFn_noted : Notes ap.sh (va - vb) (minusFn st ap b et) := by
  obtain ⟨fa, fb, p', x, ov, hvia, htested, -⟩ :=
    viaFlt_sum hok hs hbs ha hb (Int.natAbs_sub_le va vb) fltSub_is
  have hr : minusFn st ap b et = .ok (release st p' fa fb (noteOverflow ap b et x ov) x) := by
    simp only [minusFn, hvia, bind, Except.bind]
    rfl
  exact sum_noted hs hbs ha hb hca hcb het (.inr rfl) hr htested

/-- `mult_fn` stops where `CHECK_EXTRA` makes it stop. -/
theorem multFn_noted :
    if st.checkExtra = true ∧ MultOut ap.sh (va * vb) then multFn st ap b et = .error .exits
    else Notes ap.sh (va * vb) (multFn st ap b et) := by
  have hla := ha.natAbs_lt hs
  have hlb := hb.natAbs_lt (hbs ▸ hs)
  have hlt : (va * vb).natAbs < fbase ^ mantSize := by
    rw [Int.natAbs_mul]
    exact lt_of_lt_of_le (Nat.mul_lt_mul'' hla hlb) (by decide)
  obtain ⟨fa, fb, p', x, ov, hvia, htested, -⟩ :=
    viaFlt_spec hok hs hbs ha hb (fun _ f g => (fltMul f g st.junk).map Prod.snd)
      (P := Tested ap.sh (va * vb)) fun q f g _ hf hg => by
        obtain ⟨r, hr, his⟩ := fltMul_is hf hg hlt st.junk
        obtain ⟨x, ov, hx, htested⟩ := fltToF64_is his ap.sh.isSigned
        exact ⟨r, x, ov, by rw [hr]; rfl, hx, htested⟩
  have hout := multOut_iff htested.1 htested.2
  have hnoted : Notes ap.sh (va * vb)
      (.ok (release st p' fa fb (noteOverflow ap b et x ov) x)) := by
    refine release_noted hs hca hcb het rfl htested fun hsize => ?_
    obtain ⟨hra, hrb⟩ := operands_range hs hbs ha hb hsize
    cases hsg : ap.sh.isSigned with
    | true =>
        simp only [hsg, InRange, if_true] at hra hrb ⊢
        have hmul := Nat.mul_le_mul (show va.natAbs ≤ 2 ^ 31 by omega)
          (show vb.natAbs ≤ 2 ^ 31 by omega)
        rw [Int.natAbs_mul]
        omega
    | false =>
        simp only [hsg, InRange, Bool.false_eq_true, if_false] at hra hrb ⊢
        have hnonneg := Int.mul_nonneg hra.1 hrb.1
        have hmul := Int.mul_le_mul (show va ≤ 2 ^ 32 - 1 by omega) (show vb ≤ 2 ^ 32 - 1 by omega)
          hrb.1 (by decide)
        omega
  simp only [multFn, hvia, bind, Except.bind]
  split
  next h =>
    rw [if_pos h.1, if_pos (hout.2 h.2)]
    rfl
  next h =>
    by_cases hc : st.checkExtra = true
    · rw [if_pos hc, if_neg fun h' => h ⟨hc, hout.1 h'⟩]
      exact hnoted
    · rw [if_neg hc]
      exact hnoted

/-- Overflow detection is exact up to 32 bits. In 64 bits it is wrong for the least signed value
and for the negative results of an unsigned shape, and for no other. -/
theorem overflow_detects :
    (Detects ap.sh (va + vb) (plusFn st ap b et) ↔
      ¬(ap.sh.size = 64 ∧ ap.sh.isSigned = true ∧ va + vb = -2 ^ 63)) ∧
    (Detects ap.sh (va - vb) (minusFn st ap b et) ↔
      ¬(ap.sh.size = 64 ∧ if ap.sh.isSigned then va - vb = -2 ^ 63 else va < vb)) ∧
    if st.checkExtra = true ∧ MultOut ap.sh (va * vb) then multFn st ap b et = .error .exits
    else Detects ap.sh (va * vb) (multFn st ap b et) ↔
      ¬(ap.sh.size = 64 ∧ ap.sh.isSigned = true ∧ va * vb = -2 ^ 63) := by
  have hra := ha.range64 hs
  have hrb := hb.range64 (hbs ▸ hs)
  rw [hbs] at hrb
  have hplus := plusFn_noted hok hs hbs ha hb hca hcb het
  have hminus := minusFn_noted hok hs hbs ha hb hca hcb het
  have hmult := multFn_noted hok hs hbs ha hb hca hcb het
  cases hsg : ap.sh.isSigned with
  | true =>
      have hsigned : ap.sh.isSigned = false → ∀ v : Int, -2 ^ 64 < v :=
        fun h => absurd (hsg.symm.trans h) (by decide)
      refine ⟨?_, ?_, ?_⟩
      · rw [hplus.detects_iff fun h => hsigned h _, hsg]
        simp
      · rw [hminus.detects_iff fun h => hsigned h _, hsg, if_pos rfl, if_pos rfl]
      · split
        next h => rwa [if_pos h] at hmult
        next h =>
          rw [if_neg h] at hmult
          rw [hmult.detects_iff fun h => hsigned h _, hsg]
          simp
  | false =>
      simp only [hsg, InRange, Bool.false_eq_true, if_false] at hra hrb
      have hnonneg := Int.mul_nonneg hra.1 hrb.1
      refine ⟨?_, ?_, ?_⟩
      · rw [hplus.detects_iff fun _ => by omega, hsg]
        simp only [Bool.false_eq_true, if_false, false_and, and_false, not_false_eq_true, iff_true]
        omega
      · rw [hminus.detects_iff fun _ => by omega, hsg]
        simp only [Bool.false_eq_true, if_false]
        omega
      · split
        next h => rwa [if_pos h] at hmult
        next h =>
          rw [if_neg h] at hmult
          rw [hmult.detects_iff fun _ => by omega, hsg]
          simp only [Bool.false_eq_true, if_false, false_and, and_false, not_false_eq_true,
            iff_true]
          omega

end Operands

/-- The theorem at 20 and 3. -/
theorem overflow_detects_small :
    Detects (intShape 32 true) (20 + 3)
      (plusFn (startSt false) (intConst (intShape 32 true) 20) (intConst (intShape 32 true) 3)
      2) := by
  have h := @overflow_detects (startSt false) (intConst (intShape 32 true) 20)
    (intConst (intShape 32 true) 3) 20 3 (Pool.init_ok _) (intShape32_isInt true) rfl
    (intConst_canon (by decide)) (intConst_canon (by decide)) rfl rfl 2 (by decide)
  exact h.1.2 (by decide)

theorem canon_u64 {p : Pool} (h : 0 ≤ v) (h' : v < 2 ^ 31) :
    Canon p (intConst (intShape 64 false) v) v := by
  have hplain : PlainInt (intShape 64 false) v := .inl h'
  have hrange : InRange false 64 v := by
    simp only [InRange, Bool.false_eq_true, if_false]
    omega
  refine ⟨hrange, fun _ => ⟨by rw [isbigval_eq]; rfl, ?_⟩, fun hn => absurd hplain hn⟩
  have hlow : -2 ^ 31 ≤ v := le_trans (by decide) h
  exact (BitVec.toInt_ofInt_eq_self (by decide) hlow h').symm

/-- Unsigned 0 minus 1 in 64 bits is not noted. -/
theorem not_overflow_detects :
    ¬∀ (st : FoldSt) (ap b : Node) (va vb : Int) (et : Nat), st.pool.Ok → ap.sh.IsInt →
      b.sh = ap.sh → Canon st.pool ap va → Canon st.pool b vb → constovf ap = false →
      constovf b = false → et ≠ wrapErr → Detects ap.sh (va - vb) (minusFn st ap b et) := by
  intro h
  have hs : (intShape 64 false).IsInt := ⟨.inr (.inr (.inr rfl)), by decide⟩
  have h0 : Canon (startSt false).pool (intConst (intShape 64 false) 0) 0 :=
    canon_u64 (by decide) (by decide)
  have h1 : Canon (startSt false).pool (intConst (intShape 64 false) 1) 1 :=
    canon_u64 (by decide) (by decide)
  have hdetects := h (startSt false) (intConst (intShape 64 false) 0)
    (intConst (intShape 64 false) 1) 0 1 2 (Pool.init_ok _) hs rfl h0 h1 rfl rfl (by decide)
  have hnotes := @minusFn_noted (startSt false) (intConst (intShape 64 false) 0)
    (intConst (intShape 64 false) 1) 0 1 (Pool.init_ok _) hs rfl h0 h1 rfl rfl 2 (by decide)
  rw [hnotes.detects_iff (by decide)] at hdetects
  exact hdetects (by decide)

end Tendra.Ref
