import Tendra.Proofs.FoldExact
import Tendra.Ref.Refactor

/-!
# Folding of shifts

The words that `doshl` makes are those of the shifted pattern, and `bigres` writes the value of
its low bits. What goes wrong goes wrong at the ends of the range of counts: by no places one of the
words is shifted by 32, a count that is negative as an `int` is not recognised as a great one,
and a right shift by all the places forgets the sign.
-/

namespace Tendra.Ref

open Tendra.Word

variable {n : Nat}

variable {wide : BitVec 32 → Int → BitVec 32}

theorem cShl_of_lt {x : BitVec 32} (h : n < 32) : cShl wide x n = x <<< n := by
  rw [cShl, if_pos (by omega), Int.toNat_natCast]

theorem cShr_of_lt {sg : Bool} {x : BitVec 32} (h : n < 32) : cShr wide sg x n = shr sg x n := by
  rw [cShr, if_pos (by omega), Int.toNat_natCast, shr]

theorem shlWords_bits {x : F64} (hn : 0 < n) (hn' : n < 64) :
    (shlWords wide x n).1.bits = x.bits <<< n := by
  rw [shlWords]
  split
  next h =>
    rw [show (n : Int) - 32 = ((n - 32 : Nat) : Int) by omega, cShl_of_lt (by omega)]
    apply BitVec.eq_of_getLsbD_eq
    intro i hi
    simp only [F64.bits, BitVec.getLsbD_append, BitVec.getLsbD_shiftLeft]
    grind
  next h =>
    rw [show (32 : Int) - n = ((32 - n : Nat) : Int) by omega, cShl_of_lt (by omega),
      cShl_of_lt (by omega), cShr_of_lt (by omega)]
    apply BitVec.eq_of_getLsbD_eq
    intro i hi
    simp only [F64.bits, BitVec.getLsbD_append, BitVec.getLsbD_shiftLeft, BitVec.getLsbD_or, shr]
    grind

theorem sbit_bits (sg : Bool) (x : F64) (j : Nat) :
    sbit sg x.bits j = if j < 32 then x.small.getLsbD j else sbit sg x.big (j - 32) := by
  rw [F64.bits]
  rcases lt_or_ge j 64 with h | h
  · rw [sbit_of_lt h, BitVec.getLsbD_append]
    split
    next => rfl
    next => rw [sbit_of_lt (by omega)]
  · rw [sbit_of_le h, if_neg (by omega), sbit_of_le (by omega), BitVec.getLsbD_append,
      if_neg (by omega)]

theorem shrWords_bits {sg : Bool} {x : F64} (hn : 0 < n) (hn' : n < 64) :
    (shrWords wide sg x n).1.bits = shr sg x.bits n := by
  apply BitVec.eq_of_getLsbD_eq
  intro i hi
  rw [getLsbD_shr _ _ hi, sbit_bits, shrWords]
  split
  next h =>
    have hcast : (n : Int) - 32 = ((n - 32 : Nat) : Int) := by omega
    have h31 : (31 : Int) = ((31 : Nat) : Int) := rfl
    have hhigh : ¬i + n < 32 := by omega
    rw [if_neg hhigh]
    cases sg with
    | true =>
        rw [if_pos rfl, hcast, h31, cShr_of_lt (by omega), cShr_of_lt (by omega), F64.bits,
          BitVec.getLsbD_append]
        split
        next hlow => rw [getLsbD_shr _ _ hlow, show i + (n - 32) = i + n - 32 by omega]
        next hlow =>
          rw [getLsbD_shr _ _ (by omega), sbit_of_le (show 32 ≤ i + n - 32 by omega)]
          rcases Nat.eq_or_lt_of_not_lt hlow with heq | hlt
          · rw [show i - 32 + 31 = 31 by omega, sbit_of_lt (by decide)]
            rfl
          · rw [sbit_of_le (by omega)]
    | false =>
        rw [if_neg Bool.false_ne_true, hcast, cShr_of_lt (by omega), F64.bits,
          BitVec.getLsbD_append]
        split
        next hlow => rw [getLsbD_shr _ _ hlow, show i + (n - 32) = i + n - 32 by omega]
        next hlow =>
          rw [sbit_of_le (show 32 ≤ i + n - 32 by omega)]
          simp
  next h =>
    rw [show (32 : Int) - n = ((32 - n : Nat) : Int) by omega, cShr_of_lt (by omega),
      cShr_of_lt (by omega), cShl_of_lt (by omega), F64.bits, BitVec.getLsbD_append]
    split
    next hlow =>
      rw [BitVec.getLsbD_or, getLsbD_shr _ _ hlow, getLsbD_shl _ _ hlow]
      by_cases hin : i + n < 32
      · rw [if_pos hin, sbit_of_lt hin, decide_eq_false (show ¬32 - n ≤ i by omega), Bool.false_and,
          Bool.or_false]
      · rw [if_neg hin, sbit_of_le (by omega), sbit_of_lt (by omega),
          decide_eq_true (show 32 - n ≤ i by omega), show i - (32 - n) = i + n - 32 by omega]
        simp
    next hlow =>
      rw [if_neg (by omega), getLsbD_shr _ _ (by omega), show i - 32 + n = i + n - 32 by omega]

/-- `doshl` ends, leaves the canonical representation of `v` in its first operand, and shifts no
word by 32 places or more. -/
def Shifted (st : FoldSt) (a : Node) (v : Int) (r : Run (FoldSt × Node × List Int)) : Prop :=
  ∃ p' a' counts, r = .ok ({ st with pool := p' }, a', counts) ∧ Wrote st.pool a v p' a' ∧
    ∀ c ∈ counts, c < 32

/-- The exact value of a shift. -/
def shiftVal (e : Node) (v : Int) (n : Nat) : Int :=
  if e.tag = .shlTag then e.sh.wrap (v * 2 ^ n) else v / 2 ^ n

/-- The counts and operands on which `doshl` is right: places are shifted, the count is not
negative as an `int`, and where a signed operand is shifted right by all its places the sign is
that which `doshl` looks at, of entry 0 of the pool or of nothing. -/
def ShiftFits (p : Pool) (e arg1 arg2 : Node) (v : Int) (n : Nat) : Prop :=
  n ≠ 0 ∧ (isbigval arg2 = true ∨ n < 2 ^ 31) ∧
    (e.tag ≠ .shlTag → e.sh.isSigned = true → e.sh.size ≤ n →
      (v < 0 ↔ isbigval arg1 = true ∧ (p.nos 0).sign = -1))

theorem shlWords_counts {x : F64} {n : Int} (hn : 0 < n) (hn' : n < 64) :
    ∀ c ∈ (shlWords wide x n).2, c < 32 := by
  rw [shlWords]
  split
  next => simp; omega
  next => simp; omega

theorem shrWords_counts {sg : Bool} {x : F64} {n : Int} (hn : 0 < n) (hn' : n < 64) :
    ∀ c ∈ (shrWords wide sg x n).2, c < 32 := by
  rw [shrWords]
  split
  next =>
    cases sg with
    | true => simp; omega
    | false => simp; omega
  next => simp; omega

/-- Where no place is shifted, or fewer than none, a count is too great. -/
theorem words_counts_of_le {isShl sg : Bool} {x : F64} {n : Int} (hn : n ≤ 0) :
    ∃ c ∈ (if isShl then shlWords wide x n else shrWords wide sg x n).2, 32 ≤ c := by
  refine ⟨32 - n, ?_, by omega⟩
  cases isShl with
  | true => simp [shlWords, show ¬n ≥ 32 by omega]
  | false => simp [shrWords, show ¬n ≥ 32 by omega]

/-- A right shift of a value of the shape is one of the shape. -/
theorem inRange_ediv {sg : Bool} {m : Nat} {v : Int} (h : InRange sg m v) (n : Nat) :
    InRange sg m (v / 2 ^ n) := by
  have hpos : (0 : Int) < 2 ^ n := by positivity
  have hle : (1 : Int) ≤ 2 ^ n := by omega
  cases sg with
  | true =>
      simp only [InRange, if_true] at h ⊢
      constructor
      · rw [Int.le_ediv_iff_mul_le hpos, Int.neg_mul]
        have hmul := Int.mul_le_mul_of_nonneg_left hle (show (0 : Int) ≤ 2 ^ (m - 1) by positivity)
        omega
      · rw [Int.ediv_lt_iff_lt_mul hpos]
        have hmul := Int.mul_le_mul_of_nonneg_left hle (show (0 : Int) ≤ 2 ^ (m - 1) by positivity)
        omega
  | false =>
      simp only [InRange, Bool.false_eq_true, if_false] at h ⊢
      exact ⟨Int.ediv_nonneg h.1 hpos.le, lt_of_le_of_lt (Int.ediv_le_self _ h.1) h.2⟩

/-- By all the places or more. -/
theorem ediv_of_size_le {sg : Bool} {m : Nat} {v : Int} (h : InRange sg m v) (hn : m ≤ n) :
    v / 2 ^ n = if v < 0 then -1 else 0 := by
  have hpow : (2 : Int) ^ m ≤ 2 ^ n := pow_le_pow_right₀ (by omega) hn
  have hhalf : (2 : Int) ^ (m - 1) ≤ 2 ^ m := pow_le_pow_right₀ (by omega) (by omega)
  split
  next hneg =>
    cases sg with
    | true =>
        simp only [InRange, if_true] at h
        exact Int.ediv_eq_neg_one_of_neg_of_le hneg (by omega)
    | false =>
        simp only [InRange, Bool.false_eq_true, if_false] at h
        omega
  next hnonneg =>
    cases sg with
    | true =>
        simp only [InRange, if_true] at h
        exact Int.ediv_eq_zero_of_lt (by omega) (by omega)
    | false =>
        simp only [InRange, Bool.false_eq_true, if_false] at h
        exact Int.ediv_eq_zero_of_lt (by omega) (by omega)

theorem wrap_of_size_le (sh : Shape) (v : Int) (hn : sh.size ≤ n) : sh.wrap (v * 2 ^ n) = 0 := by
  have hzero : BitVec.ofInt sh.size (v * 2 ^ n) = 0 := by
    rw [ofInt_mul_two_pow, BitVec.shiftLeft_eq_zero hn]
    rfl
  rw [Shape.wrap, wrap, hzero]
  cases sh.isSigned <;> simp

section

variable {st : FoldSt} {e arg1 arg2 : Node} {va : Int} {n : Nat}
variable (hok : st.pool.Ok) (hs : e.sh.IsInt) (hsh : arg1.sh = e.sh)
variable (ha : Canon st.pool arg1 va) (hb : Canon st.pool arg2 n)

include hb in
/-- The count as `doshl` reads it: too great for an `int`, negative, or as it is. -/
theorem count_cases : isbigval arg2 = true ∧ 2 ^ 31 ≤ n ∨
    isbigval arg2 = false ∧ ((BitVec.ofInt 32 arg2.no).toInt = n ∧ n < 2 ^ 31 ∨
      (BitVec.ofInt 32 arg2.no).toInt < 0 ∧ 2 ^ 31 ≤ n) := by
  by_cases hp : PlainInt arg2.sh n
  · obtain ⟨hbig, hno⟩ := hb.plain hp
    refine .inr ⟨hbig, ?_⟩
    rw [hno, BitVec.ofInt_toInt]
    by_cases hlt : n < 2 ^ 31
    · exact .inl ⟨BitVec.toInt_ofInt_eq_self (by decide) (by omega) (by omega), hlt⟩
    · refine .inr ⟨?_, by omega⟩
      have hr := hb.range
      have h32 : n < 2 ^ 32 := by
        simp only [PlainInt] at hp
        simp only [InRange] at hr
        cases hsg : arg2.sh.isSigned with
        | true =>
            simp only [hsg, if_true] at hp
            omega
        | false =>
            simp only [hsg, Bool.false_eq_true, if_false] at hp hr
            have hpow : (2 : Int) ^ arg2.sh.size ≤ 2 ^ 32 :=
              pow_le_pow_right₀ (by omega) (by omega)
            omega
      rw [BitVec.toInt_ofInt, Int.bmod_def]
      omega
  · obtain ⟨hbig, -⟩ := hb.big hp
    refine .inl ⟨hbig, ?_⟩
    simp only [PlainInt] at hp
    cases hsg : arg2.sh.isSigned with
    | true =>
        simp only [hsg, if_true] at hp
        omega
    | false =>
        simp only [hsg, Bool.false_eq_true, if_false] at hp
        omega

/-- A number that is written without the pool. -/
theorem wrote_plain_iff {p : Pool} {a : Node} {v w : Int} (hok : p.Ok)
    (hr : InRange a.sh.isSigned a.sh.size v) (hv : v = 0 ∨ v = -1) :
    Wrote p a v p { a with no := w, props := clearbigval a.props } ↔ v = w := by
  have hback : (BitVec.ofInt 32 v).toInt = v := by
    obtain rfl | rfl := hv
    · rfl
    · rfl
  have hclear : isbigval { a with no := w, props := clearbigval a.props } = false :=
    isbigval_clear rfl
  constructor
  · intro h
    by_cases hp : PlainInt a.sh v
    · exact hback.symm.trans (h.canon.plain hp).2.symm
    · obtain ⟨hbig, -⟩ := h.canon.big hp
      exact absurd (hclear.symm.trans hbig) Bool.false_ne_true
  · rintro rfl
    refine ⟨hok, Pool.Keeps.refl p, rfl, rfl, hr, fun _ => ⟨hclear, hback.symm⟩, fun hp => ?_⟩
    refine absurd ?_ hp
    simp only [PlainInt]
    split
    next => omega
    next => omega

theorem shiftVal_inRange (hs : e.sh.IsInt) (hr : InRange e.sh.isSigned e.sh.size va) :
    InRange e.sh.isSigned e.sh.size (shiftVal e va n) := by
  rw [shiftVal]
  split
  next => exact decode_inRange hs.pos _
  next => exact inRange_ediv hr n

include hok hs hsh ha in
/-- Where all the places are shifted out. -/
theorem shiftedOut_iff (hn : e.sh.size ≤ n) :
    Wrote st.pool arg1 (shiftVal e va n) st.pool
      (shiftedOut st.pool e.tag e.sh.isSigned arg1) ↔
      (e.tag ≠ .shlTag → e.sh.isSigned = true →
        (va < 0 ↔ isbigval arg1 = true ∧ (st.pool.nos 0).sign = -1)) := by
  have hr : InRange e.sh.isSigned e.sh.size va := hsh ▸ ha.range
  have hval : shiftVal e va n = if e.tag ≠ .shlTag ∧ va < 0 then -1 else 0 := by
    rw [shiftVal]
    by_cases htag : e.tag = .shlTag
    · rw [if_pos htag, wrap_of_size_le _ _ hn, if_neg fun h => h.1 htag]
    · rw [if_neg htag, ediv_of_size_le hr hn]
      simp only [ne_eq, htag, not_false_eq_true, true_and]
  have hout : shiftedOut st.pool e.tag e.sh.isSigned arg1 = { arg1 with
      no := if e.tag ≠ .shlTag ∧ e.sh.isSigned = true ∧ isbigval arg1 = true ∧
        (st.pool.nos 0).sign = -1 then -1 else 0
      props := clearbigval arg1.props } := by
    have hsame : isbigval { arg1 with no := 0 } = isbigval arg1 := rfl
    rw [shiftedOut]
    simp only [hsame, Int.toNat_zero, Int.lt_irrefl]
    cases isbigval arg1 with
    | true => by_cases h : e.tag ≠ .shlTag ∧ e.sh.isSigned = true ∧ (st.pool.nos 0).sign = -1 <;>
        simp [h]
    | false => simp
  have hunsigned : e.sh.isSigned = false → ¬va < 0 := by
    intro hsg
    simp only [hsg, InRange, Bool.false_eq_true, if_false] at hr
    omega
  have hv : shiftVal e va n = 0 ∨ shiftVal e va n = -1 := by
    rw [hval]
    split
    next => exact .inr rfl
    next => exact .inl rfl
  have hr' := shiftVal_inRange hs hr (n := n)
  rw [← hsh] at hr'
  rw [hout, wrote_plain_iff hok hr' hv, hval]
  by_cases htag : e.tag = .shlTag
  · simp [htag]
  · cases hsg : e.sh.isSigned with
    | true =>
        simp only [ne_eq, htag, not_false_eq_true, true_and, forall_const]
        by_cases hneg : va < 0 <;>
          by_cases hbig : isbigval arg1 = true ∧ (st.pool.nos 0).sign = -1 <;> simp [hneg, hbig]
    | false =>
        have hneg := hunsigned hsg
        simp [hneg]

include hok hs hsh ha in
/-- Where places are shifted, and some are left. -/
theorem shiftedIn (hn : 0 < n) (hn' : n < e.sh.size) {x : F64}
    (hbits : x.bits = BitVec.ofInt 64 va) :
    Wrote st.pool arg1 (shiftVal e va n)
      (bigres st.pool arg1 (if e.tag = .shlTag then shlWords wide x n
        else shrWords wide e.sh.isSigned x n).1).1
      (bigres st.pool arg1 (if e.tag = .shlTag then shlWords wide x n
        else shrWords wide e.sh.isSigned x n).1).2 := by
  have hlt : n < 64 := lt_of_lt_of_le hn' hs.le
  have hr : InRange e.sh.isSigned e.sh.size va := hsh ▸ ha.range
  have hw := bigres_wrote hok (a := arg1) (hsh ▸ hs) (if e.tag = .shlTag then shlWords wide x n
    else shrWords wide e.sh.isSigned x n).1
  have hval : decode arg1.sh.isSigned ((if e.tag = .shlTag then shlWords wide x n
      else shrWords wide e.sh.isSigned x n).1.bits.setWidth arg1.sh.size) = shiftVal e va n := by
    rw [hsh, shiftVal]
    split
    next =>
      rw [shlWords_bits hn hlt, hbits, ← ofInt_mul_two_pow, setWidth_ofInt hs.le]
      rfl
    next =>
      have hdec : decode e.sh.isSigned (shr e.sh.isSigned x.bits n) = va / 2 ^ n := by
        rw [decode_shr, hbits, decode_ofInt (by decide) (inRange_mono hs.pos hs.le hr)]
      rw [shrWords_bits hn hlt, ← @ofInt_decode _ e.sh.isSigned (shr e.sh.isSigned x.bits n),
        hdec, setWidth_ofInt hs.le, decode_ofInt hs.pos (inRange_ediv hr n)]
  rwa [hval] at hw

/-- A result of `doshl` that has been found. -/
theorem shifted_ok_iff {v : Int} {p : Pool} {a : Node} {counts : List Int} :
    Shifted st arg1 v (.ok ({ st with pool := p }, a, counts)) ↔
      Wrote st.pool arg1 v p a ∧ ∀ c ∈ counts, c < 32 := by
  constructor
  · rintro ⟨p', a', counts', hr, hw, hcounts⟩
    obtain ⟨hst, heq⟩ := Prod.mk.inj (Except.ok.inj hr)
    obtain ⟨rfl, rfl⟩ := Prod.mk.inj heq
    obtain rfl : p = p' := congrArg FoldSt.pool hst
    exact ⟨hw, hcounts⟩
  · exact fun h => ⟨p, a, counts, rfl, h⟩

include hok hs hsh ha hb in
/-- Folding of a shift is exact, and shifts no word by 32 places or more, but where the count is
0, where it is negative as an `int`, and where a signed operand is shifted right by all its places
and the sign that `doshl` looks at is another than that of the operand. -/
theorem doshl_exact_iff : Shifted st arg1 (shiftVal e va n) (doshl wide st e arg1 arg2) ↔
    ShiftFits st.pool e arg1 arg2 va n := by
  obtain ⟨x, hx, hbits⟩ := expToF64_canon ha (hsh ▸ hs)
  have harg : { arg1 with sh := e.sh } = arg1 := by rw [← hsh]
  have hsize := hs.pos
  have hsize' := hs.le
  simp only [doshl, harg, hx, bind, Except.bind, pure, Except.pure]
  have hout : e.sh.size ≤ n → n ≠ 0 → (isbigval arg2 = true ∨ n < 2 ^ 31) →
      (Shifted st arg1 (shiftVal e va n)
          (.ok (st, shiftedOut st.pool e.tag e.sh.isSigned arg1, [])) ↔
        ShiftFits st.pool e arg1 arg2 va n) := by
    intro hn hne hcount
    refine Iff.trans (shifted_ok_iff (p := st.pool)) ?_
    rw [shiftedOut_iff hok hs hsh ha hn, ShiftFits]
    constructor
    · exact fun h => ⟨hne, hcount, fun htag hsg _ => h.1 htag hsg⟩
    · exact fun h => ⟨fun htag hsg => h.2.2 htag hsg hn, fun _ h => absurd h List.not_mem_nil⟩
  obtain ⟨hbig, hn⟩ | ⟨hbig, ⟨hpl, hn⟩ | ⟨hpl, hn⟩⟩ := count_cases hb
  · rw [if_pos (.inl hbig)]
    exact hout (by omega) (by omega) (.inl hbig)
  · rw [hpl]
    by_cases hge : e.sh.size ≤ n
    · rw [if_pos (.inr (by omega))]
      exact hout hge (by omega) (.inr hn)
    · have hnot : ¬(isbigval arg2 = true ∨ (n : Int) ≥ e.sh.size) := by
        rw [hbig, not_or]
        exact ⟨Bool.false_ne_true, by omega⟩
      rw [if_neg hnot, shifted_ok_iff, ShiftFits]
      by_cases h0 : n = 0
      · obtain ⟨c, hc, hle⟩ := @words_counts_of_le wide (e.tag = .shlTag)
          e.sh.isSigned x n (by omega)
        simp only [decide_eq_true_eq] at hc
        exact ⟨fun h => absurd (h.2 c hc) (by omega), fun h => absurd h0 h.1⟩
      · have hw := @shiftedIn wide st e arg1 va n hok hs hsh ha (by omega) (by omega) x hbits
        refine ⟨fun _ => ⟨h0, .inr hn, fun _ _ h => absurd h hge⟩, fun _ => ⟨hw, ?_⟩⟩
        split
        next => exact shlWords_counts (by omega) (by omega)
        next => exact shrWords_counts (by omega) (by omega)
  · have hnot : ¬(isbigval arg2 = true ∨ (BitVec.ofInt 32 arg2.no).toInt ≥ e.sh.size) := by
      rw [hbig, not_or]
      exact ⟨Bool.false_ne_true, by omega⟩
    rw [if_neg hnot, shifted_ok_iff, ShiftFits]
    obtain ⟨c, hc, hle⟩ := @words_counts_of_le wide (e.tag = .shlTag)
      e.sh.isSigned x _ (le_of_lt hpl)
    simp only [decide_eq_true_eq] at hc
    refine ⟨fun h => absurd (h.2 c hc) (by omega), fun h => ?_⟩
    obtain hbig' | hlt := h.2.1
    · exact absurd (hbig.symm.trans hbig') Bool.false_ne_true
    · exact absurd hlt (by omega)

end

/-- The theorem for the shift of 20 to the left by 3. -/
theorem doshl_exact_small :
    Shifted (startSt false) (intConst (intShape 32 true) 20) 160
      (doshl (fun x _ => x) (startSt false) ⟨.shlTag, intShape 32 true, 0, 0, none, 0⟩
        (intConst (intShape 32 true) 20) (intConst (intShape 32 true) 3)) := by
  have h := @doshl_exact_iff (fun x _ => x) (startSt false)
    ⟨.shlTag, intShape 32 true, 0, 0, none, 0⟩ (intConst (intShape 32 true) 20)
    (intConst (intShape 32 true) 3) 20 3 (Pool.init_ok _) (intShape32_isInt true) rfl
    (intConst_canon (by decide)) (intConst_canon (by decide))
  exact h.2 ⟨by decide, .inr (by decide), fun htag => absurd rfl htag⟩

/-- The shift of -1 to the right by 32 places gives 0. -/
theorem not_doshl_exact :
    ¬∀ (wide : BitVec 32 → Int → BitVec 32) (st : FoldSt) (e arg1 arg2 : Node) (va : Int) (n : Nat),
      st.pool.Ok → e.sh.IsInt → arg1.sh = e.sh → Canon st.pool arg1 va → Canon st.pool arg2 n →
      Shifted st arg1 (shiftVal e va n) (doshl wide st e arg1 arg2) := by
  intro h
  have hs := intShape32_isInt true
  have ha : Canon (startSt false).pool (intConst (intShape 32 true) (-1)) (-1) :=
    intConst_canon (by decide)
  have hb : Canon (startSt false).pool (intConst (intShape 32 true) 32) (32 : Nat) :=
    intConst_canon (by decide)
  obtain ⟨p', a', counts, hr, hw, -⟩ := h (fun x _ => x) (startSt false)
    ⟨.shrTag, intShape 32 true, 0, 0, none, 0⟩ (intConst (intShape 32 true) (-1))
    (intConst (intShape 32 true) 32) (-1) 32 (Pool.init_ok _) hs rfl ha hb
  have hplain := (hw.canon.plain (by rw [hw.sh]; decide)).2
  have hrun : (doshl (fun x _ => x) (startSt false) ⟨.shrTag, intShape 32 true, 0, 0, none, 0⟩
      (intConst (intShape 32 true) (-1)) (intConst (intShape 32 true) 32)).map
        (fun r => r.2.1.no) = .ok 0 := by rfl
  rw [hr] at hrun
  have hno : a'.no = 0 := Except.ok.inj hrun
  rw [hno] at hplain
  exact absurd hplain (by decide)

end Tendra.Ref
