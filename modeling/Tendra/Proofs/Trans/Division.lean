import Tendra.Lib.WordDivision
import Tendra.Ref.Trans.Division

/-!
# What the division operations are to leave

The tags differ in how the quotient is rounded: down for `div1` and `mod`, towards zero
for the others. On unsigned words there is no difference.
-/

namespace Tendra.Ref.Trans

open Word

/-- The quotient or remainder of two integers. -/
def Tag.exact : Tag → Int → Int → Int
  | .div1, l, r => l.fdiv r
  | .div0, l, r | .div2, l, r => l.tdiv r
  | .mod, l, r => l.fmod r
  | .rem0, l, r | .rem2, l, r => l.tmod r

/-- The result is right for the tag, with the operands read as signed or unsigned. -/
def Right (tag : Tag) (sgned : Bool) (l r v : BitVec 32) : Prop :=
  decode sgned v = tag.exact (decode sgned l) (decode sgned r)

instance (tag : Tag) (sgned : Bool) (l r v : BitVec 32) : Decidable (Right tag sgned l r v) :=
  inferInstanceAs (Decidable (_ = _))

/-- The tag is that of a division. -/
def Tag.isDiv : Tag → Bool
  | .div0 | .div1 | .div2 => true
  | .mod | .rem0 | .rem2 => false

/-- The tag rounds down. -/
def Tag.floors (tag : Tag) : Bool := tag = .div1 ∨ tag = .mod

theorem right_unsigned (tag : Tag) (l r v : BitVec 32) :
    Right tag false l r v ↔ v = if tag.isDiv then l / r else l % r := by
  have hdiv : ((l / r).toNat : Int) = (l.toNat : Int).tdiv r.toNat := by
    rw [BitVec.toNat_udiv, Int.ofNat_tdiv]
  have hmod : ((l % r).toNat : Int) = (l.toNat : Int).tmod r.toNat := by
    rw [BitVec.toNat_umod, Int.ofNat_tmod]
  have hinj : ∀ {u : BitVec 32}, (v.toNat : Int) = u.toNat ↔ v = u := by
    intro u
    rw [Int.natCast_inj, BitVec.toNat_inj]
  have hfdiv := Int.fdiv_eq_tdiv_of_nonneg (Int.natCast_nonneg l.toNat) (Int.natCast_nonneg r.toNat)
  have hfmod := Int.fmod_eq_tmod_of_nonneg (Int.natCast_nonneg l.toNat) (Int.natCast_nonneg r.toNat)
  rw [Right, decode_false, decode_false, decode_false]
  cases tag <;> simp only [Tag.exact, Tag.isDiv, hfdiv, hfmod, if_true, if_false, ← hdiv, ← hmod,
    hinj, Bool.false_eq_true]

/-- A signed operation that does not round down is that of the words. -/
theorem right_trunc {tag : Tag} {l r : BitVec 32} (htag : tag.floors = false)
    (hover : ¬Overflows l r) (v : BitVec 32) :
    Right tag true l r v ↔ v = if tag.isDiv then l.sdiv r else l.srem r := by
  rw [Right, decode_true, decode_true, decode_true]
  cases tag with
  | div1 | mod => cases htag
  | div0 | div2 =>
      rw [Tag.exact, ← toInt_sdiv hover, BitVec.toInt_inj]
      rfl
  | rem0 | rem2 =>
      rw [Tag.exact, ← BitVec.toInt_srem, BitVec.toInt_inj]
      rfl

theorem right_signed (tag : Tag) (l r v : BitVec 32) :
    Right tag true l r v ↔ v.toInt = tag.exact l.toInt r.toInt := Iff.rfl

/-!
## Division by a power of two, as words

What shifts and masks are right for which tags. The back ends only have to be shown to
compute these words.
-/

section

variable {w n : Nat}

theorem twoPow_inj {i : Nat} (hi : i < w) (hn : n < w) :
    BitVec.twoPow w i = BitVec.twoPow w n ↔ i = n := by
  rw [← BitVec.toNat_inj, BitVec.toNat_twoPow_of_lt hi, BitVec.toNat_twoPow_of_lt hn]
  exact Nat.pow_right_inj (by decide)

theorem twoPow_sub_one (hn : n < w) : BitVec.twoPow w n - 1 = mask w n := by
  have hpos := Nat.two_pow_pos n
  have hlt : 2 ^ n < 2 ^ w := Nat.pow_lt_pow_right (by decide) hn
  have hone : (1 : BitVec w).toNat = 1 := by
    rw [show (1 : BitVec w) = 1#w from rfl, BitVec.toNat_ofNat, Nat.mod_eq_of_lt (by omega)]
  apply BitVec.eq_of_toNat_eq
  rw [BitVec.toNat_sub_of_le, BitVec.toNat_twoPow_of_lt hn, hone, mask, BitVec.toNat_ofNat,
    Nat.mod_eq_of_lt (by omega)]
  rw [BitVec.le_def, BitVec.toNat_twoPow_of_lt hn, hone]
  omega

theorem isPow2_twoPow (hn : n < w) : isPow2 (BitVec.twoPow w n) = true := by
  rw [isPow2, decide_eq_true_eq, twoPow_sub_one hn]
  apply BitVec.eq_of_getLsbD_eq
  intro i hi
  rw [BitVec.getLsbD_and, getLsbD_mask hi, BitVec.getLsbD_twoPow]
  by_cases h : i < n
  · rw [decide_eq_false (show ¬n = i by omega), Bool.and_false, Bool.false_and]
    exact BitVec.getLsbD_zero.symm
  · rw [decide_eq_false h, Bool.and_false]
    exact BitVec.getLsbD_zero.symm

/-- `isPow2` finds the words with one bit, besides zero. -/
theorem eq_twoPow {w : Nat} {n : BitVec w} (h0 : n ≠ 0) (hpow : isPow2 n = true) :
    ∃ j, j < w ∧ n = BitVec.twoPow w j := by
  have hnat : n.toNat ≠ 0 := fun h => h0 (BitVec.eq_of_toNat_eq h)
  have hw : 0 < w := by
    rcases Nat.eq_zero_or_pos w with rfl | hw
    · exact absurd (BitVec.eq_nil n) h0
    · exact hw
  have hone : (1 : BitVec w).toNat = 1 := by
    rw [show (1 : BitVec w) = 1#w from rfl, BitVec.toNat_ofNat,
      Nat.mod_eq_of_lt (Nat.one_lt_two_pow hw.ne')]
  have hand : n.toNat &&& (n.toNat - 1) = 0 := by
    rw [isPow2, decide_eq_true_eq] at hpow
    have hle : (1 : BitVec w) ≤ n := by
      rw [BitVec.le_def, hone]
      omega
    have htoNat := congrArg BitVec.toNat hpow
    rwa [BitVec.toNat_and, BitVec.toNat_sub_of_le hle, hone] at htoNat
  obtain ⟨j, hj⟩ := (Nat.and_sub_one_eq_zero_iff_isPowerOfTwo hnat).1 hand
  have hlt : j < w := (Nat.pow_lt_pow_iff_right (by decide)).1 (hj ▸ n.isLt)
  exact ⟨j, hlt, BitVec.eq_of_toNat_eq (hj.trans (BitVec.toNat_twoPow_of_lt hlt).symm)⟩

theorem twoPow_shl (w n : Nat) : BitVec.twoPow w n <<< 1 = BitVec.twoPow w (n + 1) := by
  rw [BitVec.twoPow_eq, BitVec.twoPow_eq, ← BitVec.shiftLeft_add]

/-- The loop goes on to the bit that is set. -/
theorem bitNoLoop_twoPow (hn : n < w) : ∀ (k i : Nat), i ≤ n → n ≤ i + k →
    bitNoLoop w (BitVec.twoPow w n) k (BitVec.twoPow w i) i = n := by
  intro k
  induction k with
  | zero =>
      intro i hi hk
      rw [bitNoLoop]
      omega
  | succ k ih =>
      intro i hi hk
      rw [bitNoLoop]
      by_cases heq : i = n
      · rw [heq, if_neg (fun h => h rfl)]
      · rw [if_pos (fun h => heq ((twoPow_inj (by omega) hn).1 h)), twoPow_shl]
        exact ih (i + 1) (by omega) (by omega)

theorem bitNo_twoPow (hn : n < w) : bitNo (BitVec.twoPow w n) = n := by
  rw [bitNo, show (1 : BitVec w) = 1#w from rfl, ← BitVec.twoPow_zero]
  exact bitNoLoop_twoPow hn w 0 (Nat.zero_le n) (by omega)

end

variable {n : Nat} {tag : Tag} {sgned : Bool}

theorem decode_twoPow (hn : n < 31) : decode sgned (BitVec.twoPow 32 n) = 2 ^ n := by
  have hnat : (BitVec.twoPow 32 n).toNat = 2 ^ n := BitVec.toNat_twoPow_of_lt (by omega)
  cases sgned with
  | false =>
      rw [decode_false, hnat]
      push_cast
      rfl
  | true =>
      have hlt : 2 ^ n < 2 ^ 31 := Nat.pow_lt_pow_right (by decide) hn
      rw [decode_true, BitVec.toInt_eq_toNat_of_lt (by rw [hnat]; omega), hnat]
      push_cast
      rfl

theorem twoPow_zero : BitVec.twoPow 32 0 = 1 := BitVec.twoPow_zero

theorem twoPow_ne_one (h0 : n ≠ 0) (hn : n < 32) : BitVec.twoPow 32 n ≠ 1 := fun h =>
  h0 ((twoPow_inj hn (show 0 < 32 by decide)).1 h)

theorem toInt_twoPow (hn : n < 31) : (BitVec.twoPow 32 n).toInt = 2 ^ n := by
  rw [← decode_true, decode_twoPow hn]

theorem toInt_twoPow_pos (hn : n < 31) : (BitVec.twoPow 32 n).toInt > 0 := by
  rw [toInt_twoPow hn]
  positivity

theorem right_div_one (htag : tag.isDiv = true) (l : BitVec 32) : Right tag sgned l 1 l := by
  have hone : decode sgned (1 : BitVec 32) = 1 := by cases sgned <;> decide
  rw [Right, hone]
  cases tag with
  | div1 => exact (Int.fdiv_one _).symm
  | div0 | div2 => exact (Int.tdiv_one _).symm
  | mod | rem0 | rem2 => cases htag

theorem right_rem_one (htag : tag.isDiv = false) (l : BitVec 32) : Right tag sgned l 1 0 := by
  have hone : decode sgned (1 : BitVec 32) = 1 := by cases sgned <;> decide
  have hzero : decode sgned (0 : BitVec 32) = 0 := by cases sgned <;> decide
  rw [Right, hone, hzero]
  cases tag with
  | mod => exact (Int.fmod_one _).symm
  | rem0 | rem2 => exact (Int.tmod_one _).symm
  | div0 | div1 | div2 => cases htag

/-- A shift is right where the quotient is rounded down. -/
theorem right_shr (hn : n < 31) (htag : tag.isDiv = true)
    (hfloors : sgned = true → tag.floors = true) (l : BitVec 32) :
    Right tag sgned l (BitVec.twoPow 32 n) (shr sgned l n) := by
  have hpos : (0 : Int) ≤ 2 ^ n := by positivity
  rw [Right, decode_shr, decode_twoPow hn]
  cases sgned with
  | true =>
      cases tag with
      | div1 => exact (Int.fdiv_eq_ediv_of_nonneg _ hpos).symm
      | div0 | div2 => exact absurd (hfloors rfl) (by decide)
      | mod | rem0 | rem2 => cases htag
  | false =>
      rw [decode_false]
      cases tag with
      | div1 => exact (Int.fdiv_eq_ediv_of_nonneg _ hpos).symm
      | div0 | div2 => exact (Int.tdiv_eq_ediv_of_nonneg (Int.natCast_nonneg _)).symm
      | mod | rem0 | rem2 => cases htag

/-- A mask is right where the remainder is that of a quotient rounded down. -/
theorem right_mask (hn : n < 31) (htag : tag.isDiv = false)
    (hfloors : sgned = true → tag.floors = true) (l : BitVec 32) :
    Right tag sgned l (BitVec.twoPow 32 n) (l &&& mask 32 n) := by
  have hpos : (0 : Int) ≤ 2 ^ n := by positivity
  rw [Right, decode_and_mask sgned (by omega), decode_twoPow hn]
  cases sgned with
  | true =>
      cases tag with
      | mod => exact (Int.fmod_eq_emod_of_nonneg _ hpos).symm
      | rem0 | rem2 => exact absurd (hfloors rfl) (by decide)
      | div0 | div1 | div2 => cases htag
  | false =>
      rw [decode_false]
      cases tag with
      | mod => exact (Int.fmod_eq_emod_of_nonneg _ hpos).symm
      | rem0 | rem2 => exact (Int.tmod_eq_emod_of_nonneg (Int.natCast_nonneg _)).symm
      | div0 | div1 | div2 => cases htag

/-- A shift of the corrected dividend is right where the quotient is truncated. -/
theorem right_shift_trunc (h0 : n ≠ 0) (hn : n < 31) (htag : tag.isDiv = true)
    (hfloors : tag.floors = false) (l : BitVec 32) :
    Right tag true l (BitVec.twoPow 32 n) ((l + bias l n).sshiftRight n) := by
  rw [Right, decode_true, toInt_shift_trunc (by omega) (by omega), decode_twoPow hn]
  cases tag with
  | div0 | div2 => rfl
  | div1 => cases hfloors
  | mod | rem0 | rem2 => cases htag

theorem right_sub_trunc (h0 : n ≠ 0) (hn : n < 31) (htag : tag.isDiv = false)
    (hfloors : tag.floors = false) (l : BitVec 32) :
    Right tag true l (BitVec.twoPow 32 n) (l - (l + bias l n).sshiftRight n <<< n) := by
  rw [Right, decode_true, toInt_sub_trunc (by omega) (by omega), decode_twoPow hn]
  cases tag with
  | rem0 | rem2 => rfl
  | mod => cases hfloors
  | div0 | div1 | div2 => cases htag

end Tendra.Ref.Trans
