import Tendra.Ref.Int64a

/-!
# 64-bit addition and subtraction: the words are right, one flag is not

`TDFUplus` and `TDFUminus` propagate the carry and the borrow correctly, so
all four entry points hand back the exact result modulo `2^64`. The signed
entry points also flag overflow exactly: two operands of one sign (of opposite
signs, for the difference) whose result has the other.

The unsigned ones mean to test `sum < a` and `diff > a`, but compare the two
halves separately and ask for both comparisons. That is not the order on
pairs of words: when the high half already decides, the low half may well go
the other way, and the overflow is then missed. It is never invented, so the
exact condition for the flag to be right is that either nothing overflows or
the low words carry (borrow) too.
-/

namespace Tendra.Ref

/-- What a signed entry point owes for the exact result `r`: the value modulo
`2^64`, and the flag set exactly when `r` is out of range. -/
def SignedExact (res : TdfInt64 × Int) (r : Int) : Prop :=
  res.1.toInt = r.bmod (2 ^ 64) ∧
    res.2 = if -2 ^ 63 ≤ r ∧ r < 2 ^ 63 then clearErrors else overflowError

/-- What an unsigned entry point owes for the exact result `r`. -/
def UnsignedExact (res : TdfInt64 × Int) (r : Int) : Prop :=
  (res.1.toNat : Int) = r % 2 ^ 64 ∧
    res.2 = if 0 ≤ r ∧ r < 2 ^ 64 then clearErrors else overflowError

instance (res : TdfInt64 × Int) (r : Int) : Decidable (SignedExact res r) :=
  inferInstanceAs (Decidable (_ ∧ _))

instance (res : TdfInt64 × Int) (r : Int) : Decidable (UnsignedExact res r) :=
  inferInstanceAs (Decidable (_ ∧ _))

theorem clearErrors_ne_overflowError : clearErrors ≠ overflowError := by decide

/-! ## The two views of a value -/

theorem TdfInt64.toNat_lt (x : TdfInt64) : x.toNat < 2 ^ 64 := by
  have hh := x.hi32.isLt
  have hl := x.lo32.isLt
  unfold TdfInt64.toNat
  omega

/-- The signed view is the unsigned one, less `2^64` when the top bit is set. -/
theorem TdfInt64.toInt_eq (x : TdfInt64) :
    x.toInt = if x.toNat < 2 ^ 63 then (x.toNat : Int) else (x.toNat : Int) - 2 ^ 64 := by
  have hh := x.hi32.isLt
  have hl := x.lo32.isLt
  unfold TdfInt64.toInt TdfInt64.toNat
  rw [BitVec.toInt_eq_toNat_cond]
  split <;> split <;> omega

theorem TdfInt64.toInt_cases (x : TdfInt64) :
    (x.toNat < 2 ^ 63 ∧ x.toInt = x.toNat) ∨
      (2 ^ 63 ≤ x.toNat ∧ x.toInt = (x.toNat : Int) - 2 ^ 64) := by
  rw [x.toInt_eq]
  split <;> omega

theorem TdfInt64.toInt_eq_bmod (x : TdfInt64) : x.toInt = (x.toNat : Int).bmod (2 ^ 64) := by
  have hlt := x.toNat_lt
  rw [x.toInt_eq, Int.bmod_def]
  split <;> split <;> omega

/-- A value known modulo `2^64` is known signed. -/
theorem TdfInt64.toInt_of_toNat {x : TdfInt64} {n : Nat} (h : x.toNat = n % 2 ^ 64) :
    x.toInt = (n : Int).bmod (2 ^ 64) := by
  rw [x.toInt_eq_bmod, h, Int.natCast_emod, Int.emod_bmod]

theorem TdfInt64.toInt_range (x : TdfInt64) : -2 ^ 63 ≤ x.toInt ∧ x.toInt < 2 ^ 63 := by
  have hlt := x.toNat_lt
  rw [x.toInt_eq]
  split <;> omega

theorem TdfInt64.isNegative_iff (x : TdfInt64) : x.isNegative = true ↔ x.toInt < 0 := by
  have hl := x.lo32.isLt
  simp only [TdfInt64.isNegative, TdfInt64.toInt, decide_eq_true_eq]
  omega

theorem TdfInt64.isPositive_iff (x : TdfInt64) : x.isPositive = true ↔ 0 ≤ x.toInt := by
  have hl := x.lo32.isLt
  simp only [TdfInt64.isPositive, TdfInt64.toInt, decide_eq_true_eq]
  omega

/-! ## The words -/

theorem toNat_add_cases (x y : BitVec 32) :
    (x.toNat + y.toNat < 2 ^ 32 ∧ (x + y).toNat = x.toNat + y.toNat) ∨
      (2 ^ 32 ≤ x.toNat + y.toNat ∧ (x + y).toNat + 2 ^ 32 = x.toNat + y.toNat) := by
  have hx := x.isLt
  have hy := y.isLt
  rw [BitVec.toNat_add]
  omega

theorem toNat_sub_cases (x y : BitVec 32) :
    (y.toNat ≤ x.toNat ∧ (x - y).toNat + y.toNat = x.toNat) ∨
      (x.toNat < y.toNat ∧ (x - y).toNat + y.toNat = x.toNat + 2 ^ 32) := by
  have hx := x.isLt
  have hy := y.isLt
  rw [BitVec.toNat_sub]
  omega

theorem tdfUplus_toNat (a b : TdfInt64) :
    (tdfUplus a b).toNat = (a.toNat + b.toNat) % 2 ^ 64 := by
  have ha := a.lo32.isLt
  have hb := b.lo32.isLt
  simp only [tdfUplus]
  split <;> rename_i hlt <;>
    simp only [BitVec.lt_def, BitVec.toNat_add, TdfInt64.toNat, BitVec.toNat_ofNat] at hlt ⊢ <;>
    omega

/-- The low words of a difference borrow exactly when the result exceeds the
first of them. -/
theorem tdfUminus_toNat (a b : TdfInt64) :
    ((tdfUminus a b).toNat : Int) = ((a.toNat : Int) - b.toNat) % 2 ^ 64 := by
  have hlt := (tdfUminus a b).toNat_lt
  have key : ∃ k : Int, ((tdfUminus a b).toNat : Int) = a.toNat - b.toNat + k * 2 ^ 64 := by
    simp only [tdfUminus, gt_iff_lt, BitVec.lt_def]
    have hone : (1#32).toNat = 1 := rfl
    have hbl := b.lo32.isLt
    rcases toNat_sub_cases a.lo32 b.lo32 with ⟨h1, h2⟩ | ⟨h1, h2⟩
    · rw [if_neg (by omega)]
      rcases toNat_sub_cases a.hi32 b.hi32 with ⟨h3, h4⟩ | ⟨h3, h4⟩
      · exact ⟨0, by simp only [TdfInt64.toNat]; omega⟩
      · exact ⟨1, by simp only [TdfInt64.toNat]; omega⟩
    · rw [if_pos (by omega)]
      rcases toNat_sub_cases a.hi32 b.hi32 with ⟨h3, h4⟩ | ⟨h3, h4⟩ <;>
        rcases toNat_sub_cases (a.hi32 - b.hi32) 1#32 with ⟨h5, h6⟩ | ⟨h5, h6⟩
      · exact ⟨0, by simp only [TdfInt64.toNat]; omega⟩
      · exact ⟨1, by simp only [TdfInt64.toNat]; omega⟩
      · exact ⟨1, by simp only [TdfInt64.toNat]; omega⟩
      · exact ⟨2, by simp only [TdfInt64.toNat]; omega⟩
  obtain ⟨k, hk⟩ := key
  omega

/-- The signed sum is the exact one reduced into the range. -/
theorem tdfUplus_toInt (a b : TdfInt64) :
    (tdfUplus a b).toInt = (a.toInt + b.toInt).bmod (2 ^ 64) := by
  have h : ((tdfUplus a b).toNat : Int) = ((a.toNat : Int) + b.toNat) % (2 ^ 64 : Nat) := by
    rw [tdfUplus_toNat]
    push_cast
    rfl
  rw [TdfInt64.toInt_eq_bmod, h, a.toInt_eq_bmod, b.toInt_eq_bmod, Int.emod_bmod,
    Int.bmod_add_bmod, Int.add_bmod_bmod]

theorem tdfUminus_toInt (a b : TdfInt64) :
    (tdfUminus a b).toInt = (a.toInt - b.toInt).bmod (2 ^ 64) := by
  have h : ((tdfUminus a b).toNat : Int) = ((a.toNat : Int) - b.toNat) % (2 ^ 64 : Nat) := by
    rw [tdfUminus_toNat]
    rfl
  rw [TdfInt64.toInt_eq_bmod, h, a.toInt_eq_bmod, b.toInt_eq_bmod, Int.emod_bmod,
    Int.bmod_sub_bmod, Int.sub_bmod_bmod]

/-! ## The signed flags -/

/-- A sum of two numbers of the range that leaves it comes back with the
other sign. -/
theorem bmod_of_range {r : Int} (hlo : -2 ^ 64 ≤ r) (hhi : r < 2 ^ 64) :
    r.bmod (2 ^ 64) =
      if r < -2 ^ 63 then r + 2 ^ 64 else if r < 2 ^ 63 then r else r - 2 ^ 64 := by
  rw [Int.bmod_def]
  split <;> split <;> (try split) <;> omega

theorem tdfUsPlus_exact (a b : TdfInt64) :
    SignedExact (tdfUsPlus a b) (a.toInt + b.toInt) := by
  have ha := a.toInt_range
  have hb := b.toInt_range
  refine ⟨tdfUplus_toInt a b, ?_⟩
  simp only [tdfUsPlus, TdfInt64.isNegative_iff, TdfInt64.isPositive_iff, tdfUplus_toInt]
  rw [bmod_of_range (by omega) (by omega)]
  by_cases h1 : a.toInt + b.toInt < -2 ^ 63
  · rw [if_pos h1, if_neg (show ¬(-2 ^ 63 ≤ a.toInt + b.toInt ∧ _) by omega)]
    rw [if_pos (show a.toInt < 0 ∧ b.toInt < 0 ∧ _ by omega)]
  · rw [if_neg h1]
    by_cases h2 : a.toInt + b.toInt < 2 ^ 63
    · rw [if_pos h2, if_pos (show -2 ^ 63 ≤ a.toInt + b.toInt ∧ _ by omega)]
      rw [if_neg (by omega), if_neg (by omega)]
    · rw [if_neg h2, if_neg (show ¬(-2 ^ 63 ≤ a.toInt + b.toInt ∧ _) by omega)]
      rw [if_neg (by omega), if_pos (show 0 ≤ a.toInt ∧ 0 ≤ b.toInt ∧ _ by omega)]

theorem tdfUsMinus_exact (a b : TdfInt64) :
    SignedExact (tdfUsMinus a b) (a.toInt - b.toInt) := by
  have ha := a.toInt_range
  have hb := b.toInt_range
  refine ⟨tdfUminus_toInt a b, ?_⟩
  simp only [tdfUsMinus, TdfInt64.isNegative_iff, TdfInt64.isPositive_iff, tdfUminus_toInt]
  rw [bmod_of_range (by omega) (by omega)]
  by_cases h1 : a.toInt - b.toInt < -2 ^ 63
  · rw [if_pos h1, if_neg (show ¬(-2 ^ 63 ≤ a.toInt - b.toInt ∧ _) by omega)]
    rw [if_pos (show a.toInt < 0 ∧ 0 ≤ b.toInt ∧ _ by omega)]
  · rw [if_neg h1]
    by_cases h2 : a.toInt - b.toInt < 2 ^ 63
    · rw [if_pos h2, if_pos (show -2 ^ 63 ≤ a.toInt - b.toInt ∧ _ by omega)]
      rw [if_neg (by omega), if_neg (by omega)]
    · rw [if_neg h2, if_neg (show ¬(-2 ^ 63 ≤ a.toInt - b.toInt ∧ _) by omega)]
      rw [if_neg (by omega), if_pos (show 0 ≤ a.toInt ∧ b.toInt < 0 ∧ _ by omega)]

/-! ## The unsigned flags

Both flags come down to one comparison of the halves; the other comparison is
then settled by whether the low words carried (borrowed). -/

/-- The pairwise test of `__TDFUu_plus` fires exactly when the sum overflows
and the low words carry. -/
theorem uuPlus_test_iff (a b : TdfInt64) :
    ((tdfUplus a b).hi32 ≤ a.hi32 ∧ (tdfUplus a b).lo32 < a.lo32) ↔
      2 ^ 64 ≤ a.toNat + b.toNat ∧ 2 ^ 32 ≤ a.lo32.toNat + b.lo32.toNat := by
  have hsum := tdfUplus_toNat a b
  have hal := a.lo32.isLt
  have hbl := b.lo32.isLt
  have hah := a.hi32.isLt
  have hbh := b.hi32.isLt
  have hsl := (tdfUplus a b).lo32.isLt
  have hlo : (tdfUplus a b).lo32 = a.lo32 + b.lo32 := by
    simp only [tdfUplus]
    split <;> rfl
  rw [BitVec.le_def, BitVec.lt_def]
  simp only [TdfInt64.toNat] at hsum ⊢
  rw [hlo] at hsum hsl ⊢
  rcases toNat_add_cases a.lo32 b.lo32 with ⟨h1, h2⟩ | ⟨h1, h2⟩
  · omega
  · omega

/-- The pairwise test of `__TDFUu_minus` fires exactly when the difference is
negative and the low words borrow. -/
theorem uuMinus_test_iff (a b : TdfInt64) :
    ((tdfUminus a b).hi32 ≥ a.hi32 ∧ (tdfUminus a b).lo32 > a.lo32) ↔
      a.toNat < b.toNat ∧ a.lo32.toNat < b.lo32.toNat := by
  have hdiff := tdfUminus_toNat a b
  have hal := a.lo32.isLt
  have hbl := b.lo32.isLt
  have hah := a.hi32.isLt
  have hbh := b.hi32.isLt
  have hsh := (tdfUminus a b).hi32.isLt
  have hlo : (tdfUminus a b).lo32 = a.lo32 - b.lo32 := by
    simp only [tdfUminus]
    split <;> rfl
  simp only [ge_iff_le, gt_iff_lt, BitVec.le_def, BitVec.lt_def]
  simp only [TdfInt64.toNat] at hdiff ⊢
  rw [hlo] at hdiff ⊢
  rcases toNat_sub_cases a.lo32 b.lo32 with ⟨h1, h2⟩ | ⟨h1, h2⟩
  · omega
  · omega

theorem tdfUuPlus_exact_iff (a b : TdfInt64) :
    UnsignedExact (tdfUuPlus a b) (a.toNat + b.toNat) ↔
      (a.toNat + b.toNat < 2 ^ 64 ∨ 2 ^ 32 ≤ a.lo32.toNat + b.lo32.toNat) := by
  have hval : ((tdfUplus a b).toNat : Int) = ((a.toNat : Int) + b.toNat) % 2 ^ 64 := by
    rw [tdfUplus_toNat]
    push_cast
    rfl
  simp only [UnsignedExact, tdfUuPlus, uuPlus_test_iff, hval, true_and]
  split <;> split <;>
    simp only [clearErrors_ne_overflowError, clearErrors_ne_overflowError.symm, false_iff,
      true_iff] <;>
    omega

theorem tdfUuMinus_exact_iff (a b : TdfInt64) :
    UnsignedExact (tdfUuMinus a b) (a.toNat - b.toNat) ↔
      (b.toNat ≤ a.toNat ∨ a.lo32.toNat < b.lo32.toNat) := by
  have ha := a.toNat_lt
  have hval := tdfUminus_toNat a b
  simp only [UnsignedExact, tdfUuMinus, uuMinus_test_iff, hval, true_and]
  split <;> split <;>
    simp only [clearErrors_ne_overflowError, clearErrors_ne_overflowError.symm, false_iff,
      true_iff] <;>
    omega

/-- All four entry points are exact at `(a, b)` precisely when neither
unsigned operation overflows on its high words alone. -/
theorem plus_minus_exact_iff (a b : TdfInt64) :
    (SignedExact (tdfUsPlus a b) (a.toInt + b.toInt) ∧
      SignedExact (tdfUsMinus a b) (a.toInt - b.toInt) ∧
      UnsignedExact (tdfUuPlus a b) (a.toNat + b.toNat) ∧
      UnsignedExact (tdfUuMinus a b) (a.toNat - b.toNat)) ↔
    ((a.toNat + b.toNat < 2 ^ 64 ∨ 2 ^ 32 ≤ a.lo32.toNat + b.lo32.toNat) ∧
      (b.toNat ≤ a.toNat ∨ a.lo32.toNat < b.lo32.toNat)) := by
  rw [tdfUuPlus_exact_iff, tdfUuMinus_exact_iff]
  exact ⟨fun h => h.2.2, fun h => ⟨tdfUsPlus_exact a b, tdfUsMinus_exact a b, h⟩⟩

/-- `2^63 + 2^63`: the sum is zero and the flag says that nothing happened. -/
theorem uuPlus_misses_overflow :
    (tdfUuPlus ⟨0#32, 0x80000000#32⟩ ⟨0#32, 0x80000000#32⟩) = (⟨0#32, 0#32⟩, clearErrors) ∧
      ¬ UnsignedExact (tdfUuPlus ⟨0#32, 0x80000000#32⟩ ⟨0#32, 0x80000000#32⟩)
        ((TdfInt64.toNat ⟨0#32, 0x80000000#32⟩ : Int) +
          TdfInt64.toNat ⟨0#32, 0x80000000#32⟩) := by
  decide

end Tendra.Ref
