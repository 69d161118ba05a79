import Mathlib.Data.BitVec
import Mathlib.Tactic.Positivity
import Mathlib.Tactic.Zify

/-!
# Integers of a fixed width

A pattern of `n` bits read as a signed or as an unsigned integer, the integers
that a width and a signedness can hold, and reduction of an integer into them.
-/

namespace Tendra.Word

/-- The integer that a pattern of bits stands for. -/
def decode (sg : Bool) {n : Nat} (x : BitVec n) : Int := if sg then x.toInt else x.toNat

/-- The integers of a width and signedness. -/
def InRange (sg : Bool) (n : Nat) (v : Int) : Prop :=
  if sg then -2 ^ (n - 1) ≤ v ∧ v < 2 ^ (n - 1) else 0 ≤ v ∧ v < 2 ^ n

/-- Reduction modulo `2 ^ n` into the integers of the width. -/
def wrap (sg : Bool) (n : Nat) (v : Int) : Int := decode sg (BitVec.ofInt n v)

instance (sg : Bool) (n : Nat) (v : Int) : Decidable (InRange sg n v) := by
  unfold InRange
  infer_instance

variable {n m : Nat} {sg : Bool}

@[simp] theorem decode_true (x : BitVec n) : decode true x = x.toInt := rfl

@[simp] theorem decode_false (x : BitVec n) : decode false x = x.toNat := rfl

@[simp] theorem ofInt_decode (x : BitVec n) : BitVec.ofInt n (decode sg x) = x := by
  cases sg
  · rw [decode_false, BitVec.ofInt_natCast, BitVec.ofNat_toNat, BitVec.setWidth_eq]
  · rw [decode_true, BitVec.ofInt_toInt]

theorem decode_inRange (hn : 0 < n) (x : BitVec n) : InRange sg n (decode sg x) := by
  cases sg
  · have := x.isLt
    simp only [InRange, decode_false, Bool.false_eq_true, if_false]
    exact ⟨Int.natCast_nonneg _, by exact_mod_cast this⟩
  · obtain ⟨k, rfl⟩ : ∃ k, n = k + 1 := ⟨n - 1, by omega⟩
    simp only [InRange, decode_true, if_true]
    exact ⟨BitVec.le_toInt x, BitVec.toInt_lt⟩

/-- An integer of the width comes back from its pattern. -/
theorem decode_ofInt (hn : 0 < n) {v : Int} (h : InRange sg n v) :
    decode sg (BitVec.ofInt n v) = v := by
  cases sg
  · simp only [InRange, Bool.false_eq_true, if_false] at h
    rw [decode_false, BitVec.toNat_ofInt]
    have : v % ((2 ^ n : Nat) : Int) = v := Int.emod_eq_of_lt h.1 (by exact_mod_cast h.2)
    rw [this, Int.toNat_of_nonneg h.1]
  · simp only [InRange, if_true] at h
    exact BitVec.toInt_ofInt_eq_self hn h.1 h.2

theorem inRange_mono (hm : 0 < m) (h : m ≤ n) {v : Int} (hv : InRange sg m v) :
    InRange sg n v := by
  cases sg
  · simp only [InRange, Bool.false_eq_true, if_false] at hv ⊢
    have : (2 : Int) ^ m ≤ 2 ^ n := pow_le_pow_right₀ (by omega) h
    omega
  · simp only [InRange, if_true] at hv ⊢
    have : (2 : Int) ^ (m - 1) ≤ 2 ^ (n - 1) := pow_le_pow_right₀ (by omega) (by omega)
    omega

/-- Widening keeps the integer. -/
theorem decode_ofInt_decode (hm : 0 < m) (h : m ≤ n) (x : BitVec m) :
    decode sg (BitVec.ofInt n (decode sg x)) = decode sg x :=
  decode_ofInt (by omega) (inRange_mono hm h (decode_inRange hm x))

/-- Narrowing a pattern reduces the integer. -/
theorem setWidth_ofInt (h : m ≤ n) (v : Int) :
    (BitVec.ofInt n v).setWidth m = BitVec.ofInt m v := by
  apply BitVec.eq_of_toNat_eq
  rw [BitVec.toNat_setWidth, BitVec.toNat_ofInt, BitVec.toNat_ofInt]
  have hdvd : ((2 ^ m : Nat) : Int) ∣ ((2 ^ n : Nat) : Int) := by
    exact_mod_cast Nat.pow_dvd_pow 2 h
  have hn : 0 ≤ v % ((2 ^ n : Nat) : Int) := Int.emod_nonneg _ (by positivity)
  have hm : 0 ≤ v % ((2 ^ m : Nat) : Int) := Int.emod_nonneg _ (by positivity)
  push_cast at hdvd hn hm
  zify
  rw [Int.toNat_of_nonneg hn, Int.toNat_of_nonneg hm]
  exact Int.emod_emod_of_dvd v hdvd

/-!
## Shifts of patterns of bits

A right shift that brings in the sign or zeros, and the extension of a pattern
to a greater width, both described by their bits and by the integers that the
patterns stand for.
-/

/-- Right shift: arithmetic on signed patterns, logical on unsigned ones. -/
def shr (sg : Bool) (x : BitVec n) (k : Nat) : BitVec n := if sg then x.sshiftRight k else x >>> k

/-- The bit of a pattern continued to the left by its sign or by zeros. -/
def sbit (sg : Bool) (x : BitVec n) (j : Nat) : Bool :=
  if j < n then x.getLsbD j else sg && x.getLsbD (n - 1)

theorem sbit_of_lt {x : BitVec n} {j : Nat} (h : j < n) : sbit sg x j = x.getLsbD j := if_pos h

theorem sbit_of_le {x : BitVec n} {j : Nat} (h : n ≤ j) :
    sbit sg x j = (sg && x.getLsbD (n - 1)) := if_neg (by omega)

theorem getLsbD_shr (x : BitVec n) (k : Nat) {i : Nat} (hi : i < n) :
    (shr sg x k).getLsbD i = sbit sg x (i + k) := by
  cases sg
  · rw [shr, if_neg (by decide), BitVec.getLsbD_ushiftRight, Nat.add_comm k i, sbit]
    split
    · rfl
    · next h =>
        rw [BitVec.getLsbD_of_ge _ _ (by omega)]
        rfl
  · rw [shr, if_pos rfl, BitVec.getLsbD_sshiftRight, BitVec.msb_eq_getLsbD_last, sbit,
      decide_eq_false (by omega), Bool.not_false, Bool.true_and, Nat.add_comm k i, Bool.true_and]

theorem getLsbD_shl (x : BitVec n) (k : Nat) {i : Nat} (hi : i < n) :
    (x <<< k).getLsbD i = (decide (k ≤ i) && x.getLsbD (i - k)) := by
  rw [BitVec.getLsbD_shiftLeft, decide_eq_true hi, Bool.true_and, ← decide_not]
  simp only [Nat.not_lt]

/-- A right shift is a division that rounds down. -/
theorem decode_shr (x : BitVec n) (k : Nat) : decode sg (shr sg x k) = decode sg x / 2 ^ k := by
  cases sg
  · rw [shr, if_neg (by decide), decode_false, decode_false, BitVec.toNat_ushiftRight,
      Nat.shiftRight_eq_div_pow]
    push_cast
    rfl
  · rw [shr, if_pos rfl, decode_true, decode_true, BitVec.toInt_sshiftRight,
      Int.shiftRight_eq_div_pow]
    push_cast
    rfl

/-- A left shift is a multiplication, reduced to the width. -/
theorem ofInt_mul_two_pow (a : Int) (k : Nat) :
    BitVec.ofInt n (a * 2 ^ k) = BitVec.ofInt n a <<< k := by
  rw [BitVec.ofInt_mul, BitVec.shiftLeft_eq_mul_twoPow]
  congr 1
  apply BitVec.eq_of_toNat_eq
  rw [BitVec.toNat_ofInt, BitVec.toNat_twoPow]
  have : (0 : Int) ≤ 2 ^ k % 2 ^ n := Int.emod_nonneg _ (by positivity)
  zify
  exact Int.toNat_of_nonneg this

/-- The bits of an integer of `m` bits in a pattern of `n` bits. -/
theorem getLsbD_ofInt_decode (x : BitVec m) {i : Nat} (hi : i < n) :
    (BitVec.ofInt n (decode sg x)).getLsbD i = sbit sg x i := by
  cases sg
  · rw [decode_false, BitVec.ofInt_natCast, BitVec.getLsbD_ofNat, decide_eq_true hi, Bool.true_and,
      sbit, ← BitVec.getLsbD]
    split
    · rfl
    · next h =>
        rw [BitVec.getLsbD_of_ge _ _ (by omega)]
        rfl
  · have hext : BitVec.ofInt n (decode true x) = x.signExtend n := rfl
    rw [hext, BitVec.getLsbD_signExtend, decide_eq_true hi, Bool.true_and,
      BitVec.msb_eq_getLsbD_last, sbit, Bool.true_and]

theorem decode_inj {x y : BitVec n} : decode sg x = decode sg y ↔ x = y := by
  refine ⟨fun h => ?_, fun h => by rw [h]⟩
  have hback := congrArg (BitVec.ofInt n) h
  rwa [ofInt_decode, ofInt_decode] at hback

theorem sbit_and (x y : BitVec n) (j : Nat) : sbit sg (x &&& y) j =
    (sbit sg x j && sbit sg y j) := by
  unfold sbit
  split
  · rw [BitVec.getLsbD_and]
  · rw [BitVec.getLsbD_and]
    cases sg <;> rfl

/-- Extension goes through a bitwise conjunction. -/
theorem ofInt_decode_and (x y : BitVec m) :
    BitVec.ofInt n (decode sg (x &&& y)) =
      BitVec.ofInt n (decode sg x) &&& BitVec.ofInt n (decode sg y) := by
  apply BitVec.eq_of_getLsbD_eq
  intro i hi
  rw [BitVec.getLsbD_and, getLsbD_ofInt_decode _ hi, getLsbD_ofInt_decode _ hi,
    getLsbD_ofInt_decode _ hi, sbit_and]

/-! ## Shifts across shifts and masks -/

/-- Two shifts to and fro before a third one. -/
theorem shr_shl_shr {p q r : Nat} (hpq : p ≤ q) (hqr : q ≤ r) (hr : r < n) (x : BitVec n) :
    shr sg (shr sg x p <<< q) r = shr sg (x <<< (q - p)) r := by
  apply BitVec.eq_of_getLsbD_eq
  intro i hi
  have hbit : ∀ j, q ≤ j → j < n →
      (shr sg x p <<< q).getLsbD j = (x <<< (q - p)).getLsbD j := by
    intro j hqj hj
    rw [getLsbD_shl _ _ hj, getLsbD_shl _ _ hj, decide_eq_true hqj,
      decide_eq_true (show q - p ≤ j by omega), getLsbD_shr _ _ (by omega),
      sbit_of_lt (by omega), show j - q + p = j - (q - p) by omega]
  rw [getLsbD_shr _ _ hi, getLsbD_shr _ _ hi, sbit, sbit]
  split
  · next h => exact hbit _ (by omega) h
  · rw [hbit (n - 1) (by omega) (by omega)]

/-- Shifting up and down by the same count keeps the low bits and their sign. -/
theorem shr_shl_eq_extend {w : Nat} (hw : 0 < w) (hwn : w ≤ n) (x : BitVec n) :
    shr true (x <<< (n - w)) (n - w) = BitVec.ofInt n (decode true (x.setWidth w)) := by
  apply BitVec.eq_of_getLsbD_eq
  intro i hi
  rw [getLsbD_shr _ _ hi, getLsbD_ofInt_decode _ hi]
  by_cases h : i < w
  · rw [sbit_of_lt (by omega), sbit_of_lt h, getLsbD_shl _ _ (by omega),
      decide_eq_true (by omega), Bool.true_and, BitVec.getLsbD_setWidth, decide_eq_true h,
      Bool.true_and, show i + (n - w) - (n - w) = i by omega]
  · rw [sbit_of_le (by omega), sbit_of_le (by omega), getLsbD_shl _ _ (by omega),
      decide_eq_true (by omega), Bool.true_and, BitVec.getLsbD_setWidth,
      decide_eq_true (by omega), Bool.true_and, Bool.true_and, Bool.true_and,
      show n - 1 - (n - w) = w - 1 by omega]

/-- A mask of the bits that stay makes the first shift superfluous. -/
theorem shr_shl_and {l r : Nat} (hlr : l ≤ r) (hr : r < n) {mask : BitVec n}
    (hmask : ∀ i, n - r ≤ i → mask.getLsbD i = false) (x : BitVec n) :
    shr sg (x <<< l) r &&& mask = shr sg x (r - l) &&& mask := by
  apply BitVec.eq_of_getLsbD_eq
  intro i hi
  rw [BitVec.getLsbD_and, BitVec.getLsbD_and]
  by_cases h : n - r ≤ i
  · rw [hmask i h, Bool.and_false, Bool.and_false]
  · rw [getLsbD_shr _ _ hi, getLsbD_shr _ _ hi, sbit_of_lt (by omega), sbit_of_lt (by omega),
      getLsbD_shl _ _ (by omega), decide_eq_true (show l ≤ i + r by omega), Bool.true_and,
      show i + r - l = i + (r - l) by omega]

/-- The mask `mask` is moved across a right shift by `r`, in a result that is
shifted left by `l`, when the bits of the moved mask `moved` are those of the
mask wherever they are seen. -/
theorem shl_and_shr_iff (sg : Bool) {l r : Nat} (hr : r < n) (mask : BitVec n) {moved : BitVec n}
    (hlow : ∀ j, j < r → moved.getLsbD j = false) :
    (∀ x : BitVec n, (shr sg x r &&& mask) <<< l =
      if r ≤ l then (x &&& moved) <<< (l - r) else shr sg (x &&& moved) (r - l)) ↔
    ∀ k, k + l < n → (k + r < n ∨ sg = true) →
      mask.getLsbD k = moved.getLsbD (min (k + r) (n - 1)) := by
  -- both sides, bit by bit
  have hold : ∀ (x : BitVec n) i, i < n → ((shr sg x r &&& mask) <<< l).getLsbD i =
      (decide (l ≤ i) && (sbit sg x (i - l + r) && mask.getLsbD (i - l))) := by
    intro x i hi
    rw [getLsbD_shl _ _ hi, BitVec.getLsbD_and, getLsbD_shr _ _ (by omega)]
  have hnew : ∀ (x : BitVec n) i, i < n →
      (if r ≤ l then (x &&& moved) <<< (l - r) else shr sg (x &&& moved) (r - l)).getLsbD i =
      (decide (l ≤ i) && sbit sg (x &&& moved) (i - l + r)) := by
    intro x i hi
    split
    · next hrl =>
        rw [getLsbD_shl _ _ hi]
        by_cases hli : l ≤ i
        · rw [decide_eq_true hli, decide_eq_true (show l - r ≤ i by omega),
            sbit_of_lt (by omega), show i - (l - r) = i - l + r by omega]
        · rw [decide_eq_false hli, Bool.false_and]
          by_cases hri : l - r ≤ i
          · rw [decide_eq_true hri, BitVec.getLsbD_and, hlow _ (by omega), Bool.and_false]
            rfl
          · rw [decide_eq_false hri, Bool.false_and]
    · next hrl =>
        rw [getLsbD_shr _ _ hi]
        by_cases hli : l ≤ i
        · rw [decide_eq_true hli, Bool.true_and, show i + (r - l) = i - l + r by omega]
        · rw [decide_eq_false hli, Bool.false_and, sbit_of_lt (by omega), BitVec.getLsbD_and,
            hlow _ (by omega), Bool.and_false]
  constructor
  · -- the pattern of ones shows every bit of both masks
    intro h k hk hsee
    have hones := congrArg (fun y => y.getLsbD (k + l)) (h (BitVec.allOnes n))
    rw [hold _ _ hk, hnew _ _ hk, decide_eq_true (show l ≤ k + l by omega), Bool.true_and,
      Bool.true_and, Nat.add_sub_cancel] at hones
    by_cases hlt : k + r < n
    · rw [sbit_of_lt hlt, sbit_of_lt hlt, BitVec.getLsbD_and, BitVec.getLsbD_allOnes,
        decide_eq_true hlt, Bool.true_and, Bool.true_and] at hones
      rw [hones, Nat.min_eq_left (by omega)]
    · have hsg := hsee.resolve_left hlt
      rw [sbit_of_le (by omega), sbit_of_le (by omega), BitVec.getLsbD_and,
        BitVec.getLsbD_allOnes, hsg, decide_eq_true (show n - 1 < n by omega), Bool.true_and,
        Bool.true_and, Bool.true_and] at hones
      rw [hones, Nat.min_eq_right (by omega), Bool.true_and]
  · intro h x
    apply BitVec.eq_of_getLsbD_eq
    intro i hi
    rw [hold _ _ hi, hnew _ _ hi]
    by_cases hli : l ≤ i
    · rw [decide_eq_true hli, Bool.true_and, Bool.true_and]
      by_cases hlt : i - l + r < n
      · rw [sbit_of_lt hlt, sbit_of_lt hlt, BitVec.getLsbD_and, h (i - l) (by omega) (.inl hlt),
          Nat.min_eq_left (by omega)]
      · rw [sbit_of_le (by omega), sbit_of_le (by omega), BitVec.getLsbD_and]
        cases hsg : sg
        · rfl
        · rw [h (i - l) (by omega) (.inr hsg), Nat.min_eq_right (by omega), Bool.true_and,
            Bool.true_and]
    · rw [decide_eq_false hli, Bool.false_and, Bool.false_and]

end Tendra.Word
