import Mathlib.Algebra.BigOperators.Intervals
import Mathlib.Algebra.BigOperators.Ring.Finset
import Mathlib.Algebra.Order.BigOperators.Group.Finset
import Mathlib.Data.Nat.Find
import Mathlib.Data.Nat.Log
import Mathlib.Tactic.LinearCombination
import Tendra.Lib.NonRestoring

/-!
# The bits a non-restoring division loses

The halves of the divisor lose their last bits. Restoring division would take a half off
where it fits; where it does not fit, going below zero and back again costs the bit that
the half is about to lose. So what is left of the dividend after some steps is the
dividend without the halves that were taken and without the bits lost so far, and no bit
is set from then on if and only if that comes to nothing while there is still something
of the divisor left. The halves that are taken are determined by their sum: a half is
more than all later halves together. The quotient is off by what the halves were too
small by and by the bits lost.
-/

namespace Tendra.NonRestoring

/-- What is left of `a` before step `j`. -/
@[grind =] def rest (a d : Nat) : Nat → Int
  | 0 => a
  | j + 1 =>
      rest a d j -
        if (d / 2 ^ j : Nat) ≤ rest a d j then ((d / 2 ^ j : Nat) : Int) else (d / 2 ^ j % 2 : Nat)

/-- The dividend is made up of the bits that the divisor loses in `j` steps, and of halves
of the divisor that the first `n` steps take off. -/
def Ends (a d n : Nat) : Prop :=
  ∃ j, 2 ^ j ≤ d ∧ ∃ s ⊆ Finset.Icc 1 (min j n),
    a = ∑ i ∈ Finset.range j, d / 2 ^ i % 2 + 2 * ∑ i ∈ s, d / 2 ^ i

variable {a d : Nat}

theorem half_eq (d i : Nat) : d / 2 ^ i = 2 * (d / 2 ^ (i + 1)) + d / 2 ^ i % 2 := by
  rw [pow_succ, ← Nat.div_div_eq_div_mul]
  omega

/-- The remainders of the two divisions. -/
theorem rest_eq_rem (j : Nat) :
    rest a d j = rem a d j + if 0 ≤ rem a d j then 0 else 2 * ((d / 2 ^ j : Nat) : Int) := by
  induction j with
  | zero => simp [rest, rem]
  | succ j ih =>
      have hhalf := half_eq d j
      rw [rest, rem]
      generalize d / 2 ^ j = q at ih hhalf ⊢
      generalize d / 2 ^ (j + 1) = p at hhalf ⊢
      generalize rem a d j = r at ih ⊢
      generalize rest a d j = x at ih ⊢
      split at ih <;> split <;> split <;> omega

theorem rem_succ (j : Nat) : rem a d (j + 1) = rest a d j - (d / 2 ^ j : Nat) := by
  rw [rest_eq_rem, rem]
  split <;> omega

/-- All later halves together are less than a half twice. -/
theorem sum_halves_lt {j : Nat} (hj : 2 ^ j ≤ d) (m : Nat) :
    ∀ {i : Nat}, i + m = j → ∑ k ∈ Finset.Ico i j, d / 2 ^ k < 2 * (d / 2 ^ i) := by
  have hpos : 0 < d / 2 ^ j := Nat.div_pos hj (Nat.two_pow_pos j)
  induction m with
  | zero =>
      intro i hi
      obtain rfl : i = j := by omega
      rw [Finset.Ico_self, Finset.sum_empty]
      omega
  | succ m ih =>
      intro i hi
      have hrest := ih (i := i + 1) (by omega)
      have hhalf := half_eq d i
      rw [Finset.sum_eq_sum_Ico_succ_bot (by omega)]
      omega

/-! ## What is left, as a sum -/

/-- The halves that are taken off in the first `j` steps, counted from one. -/
def takenOff (a d j : Nat) : Finset Nat :=
  (Finset.Icc 1 j).filter fun i => (d / 2 ^ (i - 1) : Nat) ≤ rest a d (i - 1)

theorem takenOff_succ (j : Nat) :
    takenOff a d (j + 1) =
      if (d / 2 ^ j : Nat) ≤ rest a d j then insert (j + 1) (takenOff a d j)
      else takenOff a d j := by
  rw [takenOff, ← Finset.insert_Icc_right_eq_Icc_add_one (by omega), Finset.filter_insert]
  rfl

theorem rest_eq_sum (j : Nat) :
    rest a d j + (∑ i ∈ Finset.range j, d / 2 ^ i % 2 : Nat) +
      2 * (∑ i ∈ takenOff a d j, d / 2 ^ i : Nat) = a := by
  induction j with
  | zero => simp [rest, takenOff]
  | succ j ih =>
      have hnot : j + 1 ∉ takenOff a d j := by simp [takenOff]
      have hhalf := half_eq d j
      rw [takenOff_succ, rest, Finset.sum_range_succ]
      split
      · rw [Finset.sum_insert hnot]
        omega
      · omega

/-! ## The bits end -/

/-- A sum of halves and lost bits, in the order of the steps. -/
theorem sum_halves_eq {s : Finset Nat} {j : Nat} (hs : s ⊆ Finset.Icc 1 j) :
    ∑ i ∈ Finset.range j, d / 2 ^ i % 2 + 2 * ∑ i ∈ s, d / 2 ^ i =
      ∑ k ∈ Finset.Ico 0 j, if k + 1 ∈ s then d / 2 ^ k else d / 2 ^ k % 2 := by
  have hshift : ∑ i ∈ s, d / 2 ^ i =
      ∑ k ∈ Finset.Ico 0 j, if k + 1 ∈ s then d / 2 ^ (k + 1) else 0 := by
    rw [Finset.sum_Ico_add' (fun i => if i ∈ s then d / 2 ^ i else 0),
      Finset.Ico_add_one_right_eq_Icc, Finset.sum_ite_mem, Finset.inter_eq_right.2 hs]
  rw [hshift, Finset.range_eq_Ico, Finset.mul_sum, ← Finset.sum_add_distrib]
  refine Finset.sum_congr rfl fun k _ => ?_
  have hhalf := half_eq d k
  split <;> omega

theorem sum_later_lt {j : Nat} (hj : 2 ^ j ≤ d) (s : Finset Nat) {i : Nat} (hi : i < j) :
    ∑ k ∈ Finset.Ico (i + 1) j, (if k + 1 ∈ s then d / 2 ^ k else d / 2 ^ k % 2) <
      2 * (d / 2 ^ (i + 1)) := by
  refine lt_of_le_of_lt (Finset.sum_le_sum fun k _ => ?_)
    (sum_halves_lt hj (j - (i + 1)) (by omega))
  split
  · exact le_refl _
  · exact Nat.mod_le ..

section Sum

variable {s : Finset Nat} {j n : Nat} (hj : 2 ^ j ≤ d) (hs : s ⊆ Finset.Icc 1 (min j n))
  (ha : a = ∑ i ∈ Finset.range j, d / 2 ^ i % 2 + 2 * ∑ i ∈ s, d / 2 ^ i)

include hj hs ha

/-- The halves of such a sum are those that are taken off. -/
theorem rest_of_sum {i : Nat} (hi : i ≤ j) :
    rest a d i =
      (∑ k ∈ Finset.Ico i j, if k + 1 ∈ s then d / 2 ^ k else d / 2 ^ k % 2 : Nat) := by
  induction i with
  | zero =>
      rw [rest, ha, sum_halves_eq (hs.trans (Finset.Icc_subset_Icc_right (Nat.min_le_left ..)))]
  | succ i ih =>
      have hih := ih (by omega)
      have hhalf := half_eq d i
      have hlt := sum_later_lt hj s (i := i) (by omega)
      rw [Finset.sum_eq_sum_Ico_succ_bot (by omega)] at hih
      rw [rest]
      split at hih <;> split <;> omega

theorem taken_iff {i : Nat} (hi : i < j) : (d / 2 ^ i : Nat) ≤ rest a d i ↔ i + 1 ∈ s := by
  have hhalf := half_eq d i
  have hlt := sum_later_lt hj s hi
  rw [rest_of_sum hj hs ha hi.le, Finset.sum_eq_sum_Ico_succ_bot hi]
  split
  · next hmem => exact ⟨fun _ => hmem, fun _ => by omega⟩
  · next hmem => exact ⟨fun hge => by omega, fun h => absurd h hmem⟩

/-- Nothing is left after the sum, and less than nothing once the divisor is gone. -/
theorem rest_after (m : Nat) :
    rest a d (j + m) ≤ 0 ∧ (d / 2 ^ (j + m) = 0 → rest a d (j + m) < 0) := by
  induction m with
  | zero =>
      have hpos : 0 < d / 2 ^ j := Nat.div_pos hj (Nat.two_pow_pos j)
      rw [Nat.add_zero, rest_of_sum hj hs ha (le_refl j), Finset.Ico_self, Finset.sum_empty]
      exact ⟨le_refl _, fun h => by omega⟩
  | succ m ih =>
      have hhalf := half_eq d (j + m)
      rw [← Nat.add_assoc, rest]
      split <;> constructor <;> omega

end Sum

/-- No bit is set from step `n` on if and only if the dividend is such a sum. -/
theorem rem_neg_iff {n : Nat} (ha : 0 < a) (hn : 0 < n) (hd : 2 ^ (n - 1) ≤ d) :
    (∀ j, n ≤ j → rem a d (j + 1) < 0) ↔ Ends a d n := by
  constructor
  · intro h
    obtain ⟨l, hl, hone⟩ : ∃ l, n ≤ l + 1 ∧ d / 2 ^ l = 1 := by
      have hd0 : d ≠ 0 := by
        have := Nat.two_pow_pos (n - 1)
        omega
      refine ⟨Nat.log 2 d, ?_, ?_⟩
      · have := (Nat.le_log_iff_pow_le (by decide) hd0).2 hd
        omega
      · refine Nat.div_eq_of_lt_le ?_ ?_
        · rw [Nat.one_mul]
          exact Nat.pow_log_le_self 2 hd0
        · rw [Nat.mul_comm, ← pow_succ]
          exact Nat.lt_pow_succ_log_self (by decide) d
    -- when the divisor is one, nothing is left
    have hlast : rest a d l ≤ 0 := by
      rcases Nat.lt_or_ge l n with hln | hln
      · have hneg := h (l + 1) hl
        have hhalf := half_eq d l
        rw [rem_succ, rest] at hneg
        split at hneg <;> omega
      · have hneg := h l hln
        rw [rem_succ] at hneg
        omega
    obtain ⟨j, hj, hmin⟩ : ∃ j, rest a d j ≤ 0 ∧ ∀ i < j, 0 < rest a d i := by
      have hex : ∃ j, rest a d j ≤ 0 := ⟨l, hlast⟩
      exact ⟨Nat.find hex, Nat.find_spec hex, fun i hi => Int.not_le.1 (Nat.find_min hex hi)⟩
    have hjl : j ≤ l := by
      by_contra hlt
      have := hmin l (by omega)
      omega
    have hzero : rest a d j = 0 := by
      cases j with
      | zero =>
          rw [rest] at hj
          omega
      | succ k =>
          have hpos := hmin k (Nat.lt_succ_self k)
          rw [rest] at hj ⊢
          split at hj
          · omega
          · omega
    refine ⟨j, ?_, takenOff a d j, ?_, ?_⟩
    · refine (Nat.pow_le_pow_right (by decide) hjl).trans ?_
      exact (Nat.div_pos_iff.1 (by omega : 0 < d / 2 ^ l)).2
    · intro i hi
      rw [takenOff, Finset.mem_filter, Finset.mem_Icc] at hi
      rw [Finset.mem_Icc, Nat.le_min]
      refine ⟨hi.1.1, hi.1.2, ?_⟩
      by_contra hlt
      have hneg := h (i - 1) (by omega)
      rw [rem_succ] at hneg
      omega
    · have hsum := rest_eq_sum (a := a) (d := d) j
      omega
  · rintro ⟨j, hj, s, hs, hsum⟩ i hi
    rw [rem_succ]
    rcases Nat.lt_or_ge i j with hij | hij
    · have hnot : ¬ (d / 2 ^ i : Nat) ≤ rest a d i := by
        rw [taken_iff hj hs hsum hij]
        intro hmem
        have := Finset.mem_Icc.1 (hs hmem)
        omega
      omega
    · obtain ⟨m, rfl⟩ := Nat.exists_eq_add_of_le hij
      obtain ⟨hle, hlt⟩ := rest_after hj hs hsum m
      generalize d / 2 ^ (j + m) = q at hlt ⊢
      omega

/-! ## How far the quotient is off

The halves that are taken off are too small by the bits they have lost, and the bits that
are lost where nothing is taken off are missing from what is left. With `z` zeros at the end
of the divisor, neither happens in the first `z` steps. -/

/-- The bits lost so far. -/
theorem lost_le {z : Nat} (hz : 2 ^ z ∣ d) (j : Nat) :
    ∑ i ∈ Finset.range j, d / 2 ^ i % 2 ≤ j - z := by
  induction j with
  | zero => simp
  | succ j ih =>
      rw [Finset.sum_range_succ]
      by_cases hj : j < z
      · have hzero : d / 2 ^ j % 2 = 0 := by
          obtain ⟨c, rfl⟩ := (pow_dvd_pow 2 hj).trans hz
          rw [pow_succ, Nat.mul_assoc, Nat.mul_div_cancel_left _ (Nat.two_pow_pos j)]
          omega
        omega
      · have hbit : d / 2 ^ j % 2 < 2 := Nat.mod_lt _ (by decide)
        omega

theorem neg_lost_le_rest (j : Nat) :
    -(∑ i ∈ Finset.range j, d / 2 ^ i % 2 : Nat) ≤ rest a d j := by
  induction j with
  | zero => simp [rest]
  | succ j ih =>
      rw [rest, Finset.sum_range_succ]
      split <;> omega

theorem rest_lt (h : a < d) (j : Nat) :
    rest a d (j + 1) < 2 * (d / 2 ^ (j + 1) : Nat) +
      (∑ i ∈ Finset.range (j + 1), d / 2 ^ i % 2 : Nat) := by
  induction j with
  | zero =>
      have hhalf := half_eq d 0
      rw [pow_zero, Nat.div_one] at hhalf
      rw [rest, rest, pow_zero, Nat.div_one, if_neg (by omega), Finset.sum_range_one, pow_zero,
        Nat.div_one]
      omega
  | succ j ih =>
      have hhalf := half_eq d (j + 1)
      rw [rest, Finset.sum_range_succ]
      split <;> omega

/-- What the quotient leaves of the dividend, up to what the halves were too small by. -/
theorem exists_quot_error {z : Nat} (hz : 2 ^ z ∣ d) (j : Nat) :
    ∃ t, t ≤ (j - z) * 2 ^ j ∧ (a : Int) * 2 ^ j + 2 * t =
      (rest a d j + (∑ i ∈ Finset.range j, d / 2 ^ i % 2 : Nat)) * 2 ^ j +
        2 * (d * quot a d j : Nat) := by
  induction j with
  | zero => exact ⟨0, by simp, by simp [rest, quot]⟩
  | succ j ih =>
      obtain ⟨t, ht, hsum⟩ := ih
      have hhalf := half_eq d j
      have hbit : 0 ≤ rem a d (j + 1) ↔ (d / 2 ^ j : Nat) ≤ rest a d j := by
        rw [rem_succ]
        omega
      have hdouble : 2 * t ≤ (j - z) * 2 ^ (j + 1) := by
        rw [pow_succ, ← Nat.mul_assoc]
        omega
      rw [rest, quot, Finset.sum_range_succ]
      by_cases htake : (d / 2 ^ j : Nat) ≤ rest a d j
      · have hdm : 2 ^ (j + 1) * (d / 2 ^ (j + 1)) + d % 2 ^ (j + 1) = d := Nat.div_add_mod ..
        refine ⟨2 * t + d % 2 ^ (j + 1), ?_, ?_⟩
        · rcases Nat.lt_or_ge j z with hj | hj
          · rw [Nat.mod_eq_zero_of_dvd ((pow_dvd_pow 2 hj).trans hz)]
            exact hdouble.trans (Nat.mul_le_mul_right _ (by omega))
          · have hlt := Nat.mod_lt d (Nat.two_pow_pos (j + 1))
            rw [Nat.sub_add_comm hj, Nat.add_mul, Nat.one_mul]
            omega
        · rw [if_pos htake, if_pos (hbit.2 htake)]
          zify at hdm hhalf
          push_cast at hsum ⊢
          linear_combination 2 * hsum + 2 * hdm + 2 ^ (j + 1) * hhalf
      · refine ⟨2 * t, hdouble.trans (Nat.mul_le_mul_right _ (by omega)), ?_⟩
        rw [if_neg htake, if_neg (mt hbit.1 htake)]
        push_cast at hsum ⊢
        linear_combination 2 * hsum

/-- The error of the quotient of `j` bits. -/
theorem quot_error (h : a < d) {z : Nat} (hz : 2 ^ z ∣ d) (j : Nat) :
    2 * (d * quot a d (j + 1)) ≤ a * 2 ^ (j + 1) + 2 * ((j + 1 - z) * 2 ^ (j + 1)) ∧
      a * 2 ^ (j + 1) < 2 * (d * quot a d (j + 1)) + 2 * d +
        2 * ((j + 1 - z) * 2 ^ (j + 1)) := by
  obtain ⟨t, ht, hsum⟩ := exists_quot_error (a := a) hz (j + 1)
  have hlow := neg_lost_le_rest (a := a) (d := d) (j + 1)
  have hhigh := rest_lt h j
  have hlost := lost_le hz (j + 1)
  have hdm : d / 2 ^ (j + 1) * 2 ^ (j + 1) ≤ d := Nat.div_mul_le_self ..
  generalize ∑ i ∈ Finset.range (j + 1), d / 2 ^ i % 2 = l at hsum hlow hhigh hlost
  obtain ⟨x, hx⟩ : ∃ x : Nat, (x : Int) = rest a d (j + 1) + l :=
    ⟨(rest a d (j + 1) + l).toNat, Int.toNat_of_nonneg (by omega)⟩
  have hxlt : x < 2 * (d / 2 ^ (j + 1)) + 2 * l := by omega
  rw [← hx] at hsum
  have hsum' : a * 2 ^ (j + 1) + 2 * t = x * 2 ^ (j + 1) + 2 * (d * quot a d (j + 1)) := by
    exact_mod_cast hsum
  have hprod : (x + 1) * 2 ^ (j + 1) ≤
      2 * (d / 2 ^ (j + 1) * 2 ^ (j + 1)) + 2 * ((j + 1 - z) * 2 ^ (j + 1)) := by
    calc (x + 1) * 2 ^ (j + 1) ≤ (2 * (d / 2 ^ (j + 1)) + 2 * (j + 1 - z)) * 2 ^ (j + 1) :=
          Nat.mul_le_mul_right _ (by omega)
      _ = _ := by ring
  have hpow := Nat.two_pow_pos (j + 1)
  rw [Nat.add_mul, Nat.one_mul] at hprod
  omega

/-- A bit after an even division is zero. -/
theorem rem_neg_of_even (h : a < d) {k : Nat} (hz : 2 ^ k ∣ d) (hd : 2 ^ (k + 1) ≤ d)
    (hdvd : d ∣ a * 2 ^ k) : rem a d (k + 2) < 0 := by
  obtain ⟨-, hr⟩ := quot_rem_exact h hz (le_refl k)
  have hpow : (0 : Int) < 2 ^ k := by positivity
  have hhalf := half_eq d k
  have hpos : 0 < d / 2 ^ (k + 1) := Nat.div_pos hd (Nat.two_pow_pos _)
  have hdk : ((d / 2 ^ k : Nat) : Int) * 2 ^ k = d := by
    exact_mod_cast Nat.div_mul_cancel hz
  rw [Nat.mod_eq_zero_of_dvd hdvd] at hr
  rw [rem]
  split
  · next hnonneg =>
      rw [if_pos hnonneg, Nat.cast_zero, Int.sub_zero, Int.mul_eq_zero] at hr
      have := hr.resolve_right hpow.ne'
      omega
  · next hneg =>
      rw [if_neg hneg, Nat.cast_zero, Int.zero_sub, ← hdk, ← Int.neg_mul] at hr
      have := Int.eq_of_mul_eq_mul_right hpow.ne' hr
      omega

/-- The quotient rounded by one more bit is off by less than one, if the divisor loses no
bits up to there, or too few to matter. -/
theorem quot_rounded (h : a < d) {z k : Nat} (hz : 2 ^ z ∣ d) (hd : 2 ^ (k + 1) ≤ d)
    (hlost : k ≤ z ∨ (k + 2 - z) * 2 ^ (k + 2) < d) :
    d * (quot a d (k + 2) / 2 + quot a d (k + 2) % 2) < a * 2 ^ k + d ∧
      a * 2 ^ k < d * (quot a d (k + 2) / 2 + quot a d (k + 2) % 2) + d := by
  rcases hlost with hk | hlost
  · obtain ⟨hq, -⟩ := quot_rem_exact h hz hk
    have hdm := Nat.div_add_mod (a * 2 ^ k) d
    have hmod := Nat.mod_lt (a * 2 ^ k) (show 0 < d by omega)
    rw [quot, hq]
    split
    · next hbit =>
        have hne : a * 2 ^ k % d ≠ 0 := by
          intro h0
          exact absurd hbit (Int.not_le.2
            (rem_neg_of_even h ((pow_dvd_pow 2 hk).trans hz) hd (Nat.dvd_of_mod_eq_zero h0)))
        rw [show (2 * (a * 2 ^ k / d) + 1) / 2 + (2 * (a * 2 ^ k / d) + 1) % 2 =
          a * 2 ^ k / d + 1 by omega, Nat.mul_add]
        omega
    · rw [show (2 * (a * 2 ^ k / d) + 0) / 2 + (2 * (a * 2 ^ k / d) + 0) % 2 =
        a * 2 ^ k / d by omega]
      omega
  · obtain ⟨hlow, hhigh⟩ := quot_error h hz (k + 1)
    have hbit : quot a d (k + 2) % 2 < 2 := Nat.mod_lt _ (by decide)
    have hpow : a * 2 ^ (k + 2) = 4 * (a * 2 ^ k) := by rw [pow_add]; ring
    have hsplit : 2 * (d * (quot a d (k + 2) / 2 + quot a d (k + 2) % 2)) =
        d * quot a d (k + 2) + d * (quot a d (k + 2) % 2) := by
      rw [← Nat.mul_add, Nat.mul_left_comm]
      congr 1
      omega
    have hle : d * (quot a d (k + 2) % 2) ≤ d * 1 := Nat.mul_le_mul_left _ (by omega)
    rw [show k + 1 + 1 = k + 2 from rfl, hpow] at hlow hhigh
    generalize (k + 2 - z) * 2 ^ (k + 2) = e at hlost hlow hhigh
    omega

/-! ## A dividend just below half of the divisor -/

/-- All bits behind the first two are set exactly when the halves that can be taken off amount to no
more than the dividend. -/
theorem quot_ones_iff (h : 2 * a < d) (hd : 4 ∣ d) (n : Nat) :
    quot a d (n + 3) = 2 ^ (n + 1) - 1 ↔ ∑ t ∈ Finset.Icc 2 (n + 2), d / 2 ^ t ≤ a := by
  suffices hstep : (quot a d (n + 3) = 2 ^ (n + 1) - 1 ↔
      ∑ t ∈ Finset.Icc 2 (n + 2), d / 2 ^ t ≤ a) ∧
      (∑ t ∈ Finset.Icc 2 (n + 2), d / 2 ^ t ≤ a →
        rem a d (n + 3) = a - (∑ t ∈ Finset.Icc 2 (n + 2), d / 2 ^ t : Nat)) from hstep.1
  induction n with
  | zero =>
      obtain ⟨c, rfl⟩ := hd
      have h1 : rem a (4 * c) 1 = a - 4 * c := by simp [rem]
      have h2 : rem a (4 * c) 2 = a - 2 * c := by
        rw [rem, h1, if_neg (by omega), show 4 * c / 2 ^ 1 = 2 * c by omega]
        push_cast
        omega
      have h3 : rem a (4 * c) 3 = a - c := by
        rw [rem, h2, if_neg (by omega), show 4 * c / 2 ^ 2 = c by omega]
        omega
      have hsum : ∑ t ∈ Finset.Icc 2 (0 + 2), 4 * c / 2 ^ t = c := by
        simp
      have hq : quot a (4 * c) 3 = if 0 ≤ rem a (4 * c) 3 then 1 else 0 := by
        rw [quot, quot, quot, quot, h1, h2, if_neg (by omega), if_neg (by omega)]
        simp
      rw [hsum]
      refine ⟨?_, fun _ => h3⟩
      rw [show 0 + 3 = 3 from rfl, hq, h3]
      split <;> omega
  | succ n ih =>
      obtain ⟨hq, hr⟩ := ih
      have hsum : ∑ t ∈ Finset.Icc 2 (n + 1 + 2), d / 2 ^ t =
          ∑ t ∈ Finset.Icc 2 (n + 2), d / 2 ^ t + d / 2 ^ (n + 3) :=
        Finset.sum_Icc_succ_top (by omega) _
      have hpow : 2 ^ (n + 1 + 1) = 2 * 2 ^ (n + 1) := pow_succ' ..
      have hpos : 0 < 2 ^ (n + 1) := Nat.two_pow_pos _
      have hquot : quot a d (n + 1 + 3) =
          2 * quot a d (n + 3) + if 0 ≤ rem a d (n + 1 + 3) then 1 else 0 := rfl
      have hrec : rem a d (n + 1 + 3) = if 0 ≤ rem a d (n + 3) then
          rem a d (n + 3) - (d / 2 ^ (n + 3) : Nat)
          else rem a d (n + 3) + (d / 2 ^ (n + 3) : Nat) := rfl
      rw [hsum, hquot, hpow]
      generalize d / 2 ^ (n + 3) = q at hrec ⊢
      by_cases hle : ∑ t ∈ Finset.Icc 2 (n + 2), d / 2 ^ t ≤ a
      · have hrem : rem a d (n + 1 + 3) =
            a - (∑ t ∈ Finset.Icc 2 (n + 2), d / 2 ^ t + q : Nat) := by
          have hlast := hr hle
          rw [hrec, if_pos (by omega), hlast]
          omega
        have hones := hq.2 hle
        refine ⟨?_, fun _ => hrem⟩
        rw [hrem, hones]
        split <;> omega
      · have hne := mt hq.1 hle
        constructor
        · constructor
          · intro heq
            split at heq <;> omega
          · intro hsmall
            omega
        · intro hsmall
          omega

end Tendra.NonRestoring
