import Mathlib.Data.Nat.Bitwise
import Mathlib.Data.Nat.Size
import Mathlib.Tactic.Ring

/-!
# Numbers as bit sequences

The low bits of a number, most significant first, and how they are cut and
joined.
-/

namespace Tendra.Bits

/-- The `n` low bits of `v`, most significant first. -/
@[grind =] def lowBits : Nat → Nat → List Bool
  | 0, _ => []
  | n + 1, v => v.testBit n :: lowBits n v

/-- The bits of a sequence of bytes. -/
def ofBytes (bs : List (BitVec 8)) : List Bool := bs.flatMap fun b => lowBits 8 b.toNat

@[simp] theorem lowBits_zero (v : Nat) : lowBits 0 v = [] := rfl

@[simp] theorem length_lowBits (n v : Nat) : (lowBits n v).length = n := by
  induction n with
  | zero => rfl
  | succ n ih => rw [lowBits, List.length_cons, ih]

/-- Only the low bits count. -/
theorem lowBits_congr {n v w : Nat} (h : ∀ i < n, v.testBit i = w.testBit i) :
    lowBits n v = lowBits n w := by
  induction n with
  | zero => rfl
  | succ n ih =>
      rw [lowBits, lowBits, h n (by omega), ih fun i hi => h i (by omega)]

theorem lowBits_mod (n v : Nat) : lowBits n (v % 2 ^ n) = lowBits n v := by
  refine lowBits_congr fun i hi => ?_
  rw [Nat.testBit_mod_two_pow]
  simp [hi]

/-- A sequence cut in two. -/
theorem lowBits_add (m n v : Nat) :
    lowBits (m + n) v = lowBits m (v / 2 ^ n) ++ lowBits n v := by
  induction m with
  | zero => rw [Nat.zero_add, lowBits_zero, List.nil_append]
  | succ m ih =>
      rw [Nat.add_right_comm, lowBits, lowBits, ih, Nat.testBit_div_two_pow, List.cons_append]

/-- Two sequences joined in one number. -/
theorem lowBits_append (m n : Nat) {c d : Nat} (hd : d < 2 ^ n) :
    lowBits m c ++ lowBits n d = lowBits (m + n) (c * 2 ^ n + d) := by
  rw [lowBits_add, Nat.mul_comm, Nat.mul_add_div (Nat.two_pow_pos n), Nat.div_eq_of_lt hd,
    Nat.add_zero]
  congr 1
  refine lowBits_congr fun i hi => ?_
  rw [Nat.testBit_two_pow_mul_add _ hd, if_pos hi]

/-- Zeros at the end are cut off again. -/
theorem lowBits_mul_two_pow (m n v : Nat) :
    lowBits (m + n) (v * 2 ^ n) = lowBits m v ++ lowBits n 0 := by
  have h := lowBits_append m n (c := v) (Nat.two_pow_pos n)
  rw [Nat.add_zero] at h
  exact h.symm

/-- Counted from the end, the bits are those of the number. -/
theorem getElem?_reverse_lowBits {n i : Nat} (v : Nat) (hi : i < n) :
    (lowBits n v).reverse[i]? = some (v.testBit i) := by
  induction n with
  | zero => omega
  | succ n ih =>
      rw [lowBits, List.reverse_cons]
      rcases Nat.lt_or_eq_of_le (Nat.le_of_lt_succ hi) with hlt | rfl
      · rw [List.getElem?_append_left (by simpa using hlt), ih hlt]
      · rw [List.getElem?_append_right (by simp)]
        simp

/-- Sequences that are equal agree on the bits of the numbers they end in. -/
theorem testBit_eq_of_append_eq {xs ys : List Bool} {m n v w : Nat}
    (h : xs ++ lowBits m v = ys ++ lowBits n w) {i : Nat} (hm : i < m) (hn : i < n) :
    v.testBit i = w.testBit i := by
  have hrev := congrArg (fun zs => zs.reverse[i]?) h
  simp only [List.reverse_append] at hrev
  rw [List.getElem?_append_left (by simpa using hm),
    List.getElem?_append_left (by simpa using hn), getElem?_reverse_lowBits v hm,
    getElem?_reverse_lowBits w hn] at hrev
  exact Option.some.inj hrev

theorem lowBits_inj {n v w : Nat} (hv : v < 2 ^ n) (hw : w < 2 ^ n)
    (h : lowBits n v = lowBits n w) : v = w := by
  refine Nat.eq_of_testBit_eq fun i => ?_
  by_cases hi : i < n
  · exact @testBit_eq_of_append_eq [] [] n n v w h i hi hi
  · rw [Nat.testBit_lt_two_pow (lt_of_lt_of_le hv (Nat.pow_le_pow_right (by decide) (by omega))),
      Nat.testBit_lt_two_pow (lt_of_lt_of_le hw (Nat.pow_le_pow_right (by decide) (by omega)))]

@[simp] theorem ofBytes_nil : ofBytes [] = [] := rfl

@[simp] theorem ofBytes_append (xs ys : List (BitVec 8)) :
    ofBytes (xs ++ ys) = ofBytes xs ++ ofBytes ys := List.flatMap_append

@[simp] theorem ofBytes_singleton (b : BitVec 8) : ofBytes [b] = lowBits 8 b.toNat := by
  rw [ofBytes, List.flatMap_cons, List.flatMap_nil, List.append_nil]

theorem ofBytes_cons (b : BitVec 8) (bs : List (BitVec 8)) :
    ofBytes (b :: bs) = lowBits 8 b.toNat ++ ofBytes bs := rfl

@[simp] theorem length_ofBytes (bs : List (BitVec 8)) : (ofBytes bs).length = 8 * bs.length := by
  induction bs with
  | nil => rfl
  | cons b bs ih =>
      rw [ofBytes_cons, List.length_append, length_lowBits, ih, List.length_cons]
      ring

theorem ofBytes_inj {xs ys : List (BitVec 8)} (h : ofBytes xs = ofBytes ys) : xs = ys := by
  have hlen := congrArg List.length h
  rw [length_ofBytes, length_ofBytes] at hlen
  induction xs generalizing ys with
  | nil => exact (List.length_eq_zero_iff.1 (by simpa using hlen.symm)).symm
  | cons x xs ih =>
      cases ys with
      | nil => simp at hlen
      | cons y ys =>
          obtain ⟨hbyte, hrest⟩ := List.append_inj h (by simp)
          rw [BitVec.eq_of_toNat_eq (lowBits_inj x.isLt y.isLt hbyte),
            ih hrest (by simpa using hlen)]

theorem getElem?_lowBits {n i : Nat} (v : Nat) (hi : i < n) :
    (lowBits n v)[i]? = some (v.testBit (n - 1 - i)) := by
  have h := getElem?_reverse_lowBits v (show n - 1 - i < n by omega)
  rw [List.getElem?_reverse (by simp; omega), length_lowBits] at h
  rw [← h, show n - 1 - (n - 1 - i) = i by omega]

/-- A bit of a byte in a sequence. -/
theorem getElem?_ofBytes (bs : List (BitVec 8)) (i : Nat) {r : Nat} (hr : r < 8) :
    (ofBytes bs)[8 * i + r]? = bs[i]?.map fun b => b.toNat.testBit (7 - r) := by
  induction bs generalizing i with
  | nil => simp
  | cons b bs ih =>
      rw [ofBytes_cons]
      cases i with
      | zero =>
          rw [Nat.mul_zero, Nat.zero_add, List.getElem?_append_left (by simpa using hr),
            getElem?_lowBits _ hr, List.getElem?_cons_zero, Option.map_some]
      | succ i =>
          rw [List.getElem?_append_right (by simp; omega), length_lowBits, List.getElem?_cons_succ,
            ← ih, show 8 * (i + 1) + r - 8 = 8 * i + r by omega]

end Tendra.Bits

/-!
## Sizes in bits

The size of a number that is cut in two, and what masks and powers of two say of it.
-/

namespace Tendra.Size

theorem size_add {d k : Nat} (hd : d < 2 ^ k) {n : Nat} (hn : n ≠ 0) :
    Nat.size (d + 2 ^ k * n) = k + Nat.size n := by
  have hlt := Nat.lt_size_self n
  have hpos : 0 < Nat.size n := Nat.size_pos.2 (Nat.pos_of_ne_zero hn)
  apply Nat.le_antisymm
  · rw [Nat.size_le, Nat.pow_add]
    calc d + 2 ^ k * n < 2 ^ k + 2 ^ k * n := by omega
      _ = 2 ^ k * (n + 1) := by ring
      _ ≤ 2 ^ k * 2 ^ n.size := Nat.mul_le_mul_left _ hlt
  · obtain ⟨s, hs⟩ : ∃ s, n.size = s + 1 := ⟨n.size - 1, by omega⟩
    have hle : 2 ^ s ≤ n := Nat.lt_size.1 (by omega)
    rw [hs, ← Nat.add_assoc, Nat.add_one_le_iff, Nat.lt_size, Nat.pow_add]
    exact Nat.le_add_left_of_le (Nat.mul_le_mul_left _ hle)

theorem size_shiftRight {n k : Nat} (h : n >>> k ≠ 0) : Nat.size n = Nat.size (n >>> k) + k := by
  rw [Nat.shiftRight_eq_div_pow] at h ⊢
  have hsize := size_add (Nat.mod_lt n (Nat.two_pow_pos k)) h
  rw [Nat.mod_add_div] at hsize
  omega

/-- A mask of `a` ones above `b` zeros. -/
theorem and_mask_eq_zero (n a b : Nat) :
    n &&& (2 ^ a - 1) <<< b = 0 ↔ (n >>> b) % 2 ^ a = 0 := by
  have hand : n &&& (2 ^ a - 1) <<< b = ((n >>> b) &&& (2 ^ a - 1)) <<< b := by
    refine Nat.eq_of_testBit_eq fun i => ?_
    rw [Nat.testBit_and, Nat.testBit_shiftLeft, Nat.testBit_shiftLeft, Nat.testBit_and,
      Nat.testBit_shiftRight]
    rcases Nat.lt_or_ge i b with h | h
    · simp [Nat.not_le.2 h]
    · simp [h, Nat.add_sub_cancel' h]
  rw [hand, Nat.and_two_pow_sub_one_eq_mod, Nat.shiftLeft_eq, Nat.mul_eq_zero]
  simp

/-- A power of two has nothing below its top part. -/
theorem isPowerOfTwo_top {d k n : Nat} (hd : d < 2 ^ k) (hn : n ≠ 0) :
    (d + 2 ^ k * n).isPowerOfTwo ↔ d = 0 ∧ n.isPowerOfTwo := by
  constructor
  · rintro ⟨j, hj⟩
    have hkj : k ≤ j := by
      by_contra hlt
      have hle : 2 ^ j ≤ 2 ^ k := Nat.pow_le_pow_right (by decide) (by omega)
      have hmul : 2 ^ k ≤ 2 ^ k * n := Nat.le_mul_of_pos_right _ (Nat.pos_of_ne_zero hn)
      have heq : 2 ^ j = 2 ^ k := by omega
      exact hlt (Nat.le_of_eq (Nat.pow_right_injective (Nat.le_refl 2) heq).symm)
    obtain ⟨i, rfl⟩ := Nat.exists_eq_add_of_le hkj
    rw [Nat.pow_add] at hj
    have hmod : d = 0 := by
      have := congrArg (· % 2 ^ k) hj
      simpa [Nat.mod_eq_of_lt hd] using this
    subst hmod
    exact ⟨rfl, i, Nat.eq_of_mul_eq_mul_left (Nat.two_pow_pos k) (by omega)⟩
  · rintro ⟨rfl, i, rfl⟩
    exact ⟨k + i, by rw [Nat.zero_add, Nat.pow_add]⟩

theorem size_lt_iff {k : Nat} (hk : 1 ≤ k) (n : Nat) : Nat.size n < k ↔ n < 2 ^ (k - 1) := by
  rw [← Nat.size_le]
  omega

/-- A value of `k` bits that is a power of two is 2^(k-1). -/
theorem size_eq_and_isPowerOfTwo {k : Nat} (hk : 1 ≤ k) (n : Nat) :
    Nat.size n = k ∧ n.isPowerOfTwo ↔ n = 2 ^ (k - 1) := by
  constructor
  · rintro ⟨hsize, i, rfl⟩
    rw [← hsize, Nat.size_pow, Nat.add_sub_cancel]
  · rintro rfl
    exact ⟨by rw [Nat.size_pow, Nat.sub_add_cancel hk], k - 1, rfl⟩

theorem size_le_iff {sz : Nat} {z : Int} (hz : 0 ≤ z) :
    Nat.size z.natAbs ≤ sz ↔ z < 2 ^ sz := by
  have hpow : ((2 ^ sz : Nat) : Int) = 2 ^ sz := by push_cast; rfl
  rw [Nat.size_le]
  omega

end Tendra.Size
