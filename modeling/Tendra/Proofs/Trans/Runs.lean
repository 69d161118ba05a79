import Mathlib.Tactic.Ring
import Tendra.Ref.Trans.Multiply

/-!
# The strings of ones of a constant

The table that `mul_const_complex` sets up has the strings from right to left, and as
long as the scan sees a zero after the last of them their values add up to the constant.
A string that is still open at the end of the scan is lost.
-/

namespace Tendra.Ref.Trans

variable {tab : List Run}

variable {w : Nat}

/-- The sum of the values. -/
def total (tab : List Run) : Nat := (tab.map Run.value).sum

theorem total_cons (r : Run) (tab : List Run) : total (r :: tab) = r.value + total tab := by
  rw [total, List.map_cons, List.sum_cons, total]

theorem toNat_split (c : BitVec w) :
    c.toNat = (if c.getLsbD 0 then 1 else 0) + 2 * (c >>> 1).toNat := by
  have hbit : c.getLsbD 0 = decide (c.toNat % 2 = 1) := by
    rw [BitVec.getLsbD, Nat.testBit_zero]
  rw [BitVec.toNat_ushiftRight, Nat.shiftRight_eq_div_pow, pow_one, hbit]
  by_cases h : c.toNat % 2 = 1
  · rw [if_pos (decide_eq_true h)]
    omega
  · rw [if_neg (by rwa [decide_eq_true_eq])]
    omega

/-- An open string takes in one more bit. -/
theorem value_succ {bsl sby : Nat} (h : bsl ≤ sby) :
    (2 ^ (bsl + 1) - 1) * 2 ^ (sby + 1 - (bsl + 1)) =
      (2 ^ bsl - 1) * 2 ^ (sby - bsl) + 2 ^ sby := by
  have hpos := Nat.two_pow_pos bsl
  have hsum : 2 ^ (bsl + 1) - 1 = (2 ^ bsl - 1) + 2 ^ bsl := by
    rw [Nat.pow_succ]
    omega
  rw [hsum, Nat.add_mul, ← Nat.pow_add, Nat.add_sub_add_right, Nat.add_sub_cancel' h]

/-- The strings add up to what is left of the constant and the string that is open. -/
theorem total_scan : ∀ (k : Nat) (c : BitVec w) (sby bsl : Nat), bsl ≤ sby → c.toNat < 2 ^ k →
    total (scan (k + 1) c sby bsl) =
      (2 ^ bsl - 1) * 2 ^ (sby - bsl) + c.toNat * 2 ^ sby := by
  intro k
  induction k with
  | zero =>
      intro c sby bsl hbsl hc
      have hzero : c.toNat = 0 := by simpa using hc
      have hsplit := toNat_split c
      have hbit : c.getLsbD 0 = false := by
        cases hb : c.getLsbD 0
        · rfl
        · rw [hb, if_pos rfl] at hsplit
          omega
      rw [scan, if_neg (by rw [hbit]; decide), hzero]
      by_cases h0 : bsl = 0
      · rw [if_neg (fun h => h h0), h0]
        simp [scan, total]
      · rw [if_pos h0]
        simp [scan, total, Run.value]
  | succ k ih =>
      intro c sby bsl hbsl hc
      have hsplit := toNat_split c
      have hpow : c.toNat * 2 ^ sby = (if c.getLsbD 0 then 1 else 0) * 2 ^ sby +
          (c >>> 1).toNat * 2 ^ (sby + 1) := by
        rw [hsplit]
        ring
      rw [hpow, scan]
      rw [Nat.pow_succ] at hc
      cases hb : c.getLsbD 0 with
      | true =>
          rw [hb, if_pos rfl] at hsplit
          rw [if_pos rfl, ih _ _ _ (by omega) (by omega), value_succ hbsl, if_pos rfl]
          ring
      | false =>
          rw [hb, if_neg (by decide)] at hsplit
          simp only [Bool.false_eq_true, if_false, Nat.zero_mul, Nat.zero_add]
          by_cases h0 : bsl = 0
          · rw [if_neg (fun h => h h0), ih _ _ _ (by omega) (by omega), h0]
            simp
          · rw [if_pos h0, total_cons, ih _ _ _ (by omega) (by omega)]
            simp [Run.value]

/-- The strings come in order and end before the scan does. -/
theorem scan_sorted : ∀ (k : Nat) (c : BitVec w) (sby bsl : Nat), bsl ≤ sby →
    (scan k c sby bsl).Pairwise (fun a b => a.shift < b.shift) ∧
    ∀ r ∈ scan k c sby bsl, 1 ≤ r.bsl ∧ sby - bsl ≤ r.shift ∧ r.shift + r.bsl < sby + k := by
  intro k
  induction k with
  | zero =>
      intro c sby bsl _
      exact ⟨List.Pairwise.nil, fun r hr => absurd hr List.not_mem_nil⟩
  | succ k ih =>
      intro c sby bsl hbsl
      rw [scan]
      split
      · obtain ⟨hsorted, hmem⟩ := ih (c >>> 1) (sby + 1) (bsl + 1) (by omega)
        refine ⟨hsorted, fun r hr => ?_⟩
        have := hmem r hr
        omega
      split
      · rename_i h0
        obtain ⟨hsorted, hmem⟩ := ih (c >>> 1) (sby + 1) 0 (by omega)
        refine ⟨List.pairwise_cons.2 ⟨fun r hr => ?_, hsorted⟩, fun r hr => ?_⟩
        · have := hmem r hr
          dsimp only
          omega
        · rcases List.mem_cons.1 hr with rfl | hr
          · dsimp only
            omega
          · have := hmem r hr
            omega
      · obtain ⟨hsorted, hmem⟩ := ih (c >>> 1) (sby + 1) 0 (by omega)
        refine ⟨hsorted, fun r hr => ?_⟩
        have := hmem r hr
        omega

/-- Every string takes a bit for its end, so the table is long enough. -/
theorem length_scan : ∀ (k : Nat) (c : BitVec w) (sby bsl : Nat),
    2 * (scan k c sby bsl).length ≤ k + if bsl = 0 then 0 else 1 := by
  intro k
  induction k with
  | zero => exact fun c sby bsl => Nat.zero_le _
  | succ k ih =>
      intro c sby bsl
      rw [scan]
      split
      · have := ih (c >>> 1) (sby + 1) (bsl + 1)
        rw [if_neg (Nat.succ_ne_zero bsl)] at this
        omega
      · have := ih (c >>> 1) (sby + 1) 0
        rw [if_pos rfl] at this
        split
        · rename_i h0
          rw [List.length_cons]
          omega
        · omega

/-- A string that has no end in the scan is lost. -/
theorem scan_ones : ∀ (k : Nat) (c : BitVec w) (sby bsl : Nat),
    (∀ i, i < k → c.getLsbD i = true) → scan k c sby bsl = [] := by
  intro k
  induction k with
  | zero => exact fun c sby bsl _ => rfl
  | succ k ih =>
      intro c sby bsl hones
      rw [scan, if_pos (hones 0 (by omega))]
      refine ih _ _ _ fun i hi => ?_
      rw [BitVec.getLsbD_ushiftRight]
      exact hones (1 + i) (by omega)

/-- Where the scan ends in ones from bit `p` on, the strings add up to less than `2 ^ p`. -/
theorem total_scan_le (k : Nat) : ∀ (p : Nat) (c : BitVec w) (sby bsl : Nat), bsl ≤ sby →
    (∀ i, p ≤ i → i < p + k → c.getLsbD i = true) →
    total (scan (p + k) c sby bsl) ≤
      (2 ^ bsl - 1) * 2 ^ (sby - bsl) + (c.toNat % 2 ^ p) * 2 ^ sby := by
  intro p
  induction p with
  | zero =>
      intro c sby bsl _ hones
      rw [Nat.zero_add, scan_ones k c sby bsl (fun i hi => hones i (by omega) (by omega))]
      exact Nat.zero_le _
  | succ p ih =>
      intro c sby bsl hbsl hones
      have hrest : ∀ i, p ≤ i → i < p + k → (c >>> 1).getLsbD i = true := by
        intro i hle hlt
        rw [BitVec.getLsbD_ushiftRight]
        exact hones (1 + i) (by omega) (by omega)
      have hsplit := toNat_split c
      have hmod : c.toNat % 2 ^ (p + 1) =
          (if c.getLsbD 0 then 1 else 0) + 2 * ((c >>> 1).toNat % 2 ^ p) := by
        have hdiv : c.toNat / 2 = (c >>> 1).toNat := by
          rw [hsplit]
          split <;> omega
        have hlow : c.toNat % 2 = if c.getLsbD 0 then 1 else 0 := by
          rw [hsplit]
          split <;> omega
        rw [Nat.pow_succ', Nat.mod_mul, hdiv, hlow]
      have hpow : (c.toNat % 2 ^ (p + 1)) * 2 ^ sby = (if c.getLsbD 0 then 1 else 0) * 2 ^ sby +
          ((c >>> 1).toNat % 2 ^ p) * 2 ^ (sby + 1) := by
        rw [hmod]
        ring
      rw [hpow, show p + 1 + k = p + k + 1 by omega, scan]
      cases hb : c.getLsbD 0 with
      | true =>
          rw [if_pos rfl, if_pos rfl]
          have := ih (c >>> 1) (sby + 1) (bsl + 1) (by omega) hrest
          rw [value_succ hbsl] at this
          omega
      | false =>
          simp only [Bool.false_eq_true, if_false, Nat.zero_mul, Nat.zero_add]
          have := ih (c >>> 1) (sby + 1) 0 (by omega) hrest
          rw [Nat.pow_zero, Nat.sub_self, Nat.zero_mul, Nat.zero_add] at this
          by_cases h0 : bsl = 0
          · rw [if_neg (fun h => h h0), h0]
            omega
          · rw [if_pos h0, total_cons]
            simp only [Run.value]
            omega

/-! ## The order of the steps -/

/-- One string comes before another in the order of the steps. -/
def Before (a b : Run) : Prop := b.bsl < a.bsl ∨ a.bsl = b.bsl ∧ a.shift < b.shift

theorem mem_order {r : Run} : ∀ {b : Nat},
    r ∈ order tab b ↔ r ∈ tab ∧ 1 ≤ r.bsl ∧ r.bsl ≤ b := by
  intro b
  induction b with
  | zero =>
      rw [order]
      refine iff_of_false List.not_mem_nil fun h => ?_
      omega
  | succ b ih =>
      rw [order, List.mem_append, List.mem_filter, ih, decide_eq_true_eq, ← and_or_left]
      refine and_congr_right fun _ => ?_
      omega

theorem order_sorted (h : tab.Pairwise (fun a b => a.shift < b.shift)) (b : Nat) :
    (order tab b).Pairwise Before := by
  induction b with
  | zero => exact List.Pairwise.nil
  | succ b ih =>
      rw [order, List.pairwise_append]
      refine ⟨?_, ih, fun a ha c hc => ?_⟩
      · refine (h.filter _).imp_of_mem fun {a c} ha hc hlt => .inr ⟨?_, hlt⟩
        rw [List.mem_filter, decide_eq_true_eq] at ha hc
        rw [ha.2, hc.2]
      · rw [List.mem_filter, decide_eq_true_eq] at ha
        have := (mem_order.1 hc).2.2
        exact .inl (by omega)

/-- Every string of the table has its step. -/
theorem total_order {b : Nat} (h : ∀ r ∈ tab, 1 ≤ r.bsl ∧ r.bsl ≤ b) :
    total (order tab b) = total tab := by
  have hfilter : ∀ b, total (order tab b) =
      total (tab.filter fun r => 1 ≤ r.bsl ∧ r.bsl ≤ b) := by
    intro b
    induction b with
    | zero =>
        rw [order, List.filter_eq_nil_iff.2]
        intro r _
        rw [decide_eq_true_eq]
        omega
    | succ b ih =>
        rw [order, total, List.map_append, List.sum_append, ← total, ← total, ih]
        clear ih h
        induction tab with
        | nil => rfl
        | cons r tab ih =>
            simp only [List.filter_cons, decide_eq_true_eq]
            by_cases hlast : r.bsl = b + 1
            · rw [if_pos hlast, if_neg (by omega), if_pos (by omega), total_cons, total_cons]
              omega
            · rw [if_neg hlast]
              by_cases hin : 1 ≤ r.bsl ∧ r.bsl ≤ b
              · rw [if_pos hin, if_pos (by omega), total_cons, total_cons]
                omega
              · rw [if_neg hin, if_neg (by omega)]
                exact ih
  rw [hfilter, List.filter_eq_self.2]
  exact fun r hr => decide_eq_true (h r hr)

theorem le_maxBsl {r : Run} (h : r ∈ tab) : r.bsl ≤ maxBsl tab := by
  induction tab with
  | nil => exact absurd h List.not_mem_nil
  | cons a tab ih =>
      rw [maxBsl, List.foldr_cons, ← maxBsl]
      rcases List.mem_cons.1 h with rfl | h
      · exact Nat.le_max_left _ _
      · exact (ih h).trans (Nat.le_max_right _ _)

theorem maxBsl_le {b : Nat} (h : ∀ r ∈ tab, r.bsl ≤ b) : maxBsl tab ≤ b := by
  induction tab with
  | nil => exact Nat.zero_le b
  | cons a tab ih =>
      rw [maxBsl, List.foldr_cons, ← maxBsl]
      exact Nat.max_le.2 ⟨h a List.mem_cons_self, ih fun r hr => h r (List.mem_cons_of_mem a hr)⟩

theorem total_erase {r : Run} (h : r ∈ tab) : total tab = r.value + total (tab.erase r) := by
  rw [total, ((List.perm_cons_erase h).map Run.value).sum_nat, List.map_cons, List.sum_cons, total]

theorem firstRun_spec {r : Run} (h : firstRun tab = some r) :
    r ∈ tab ∧ r.bsl = 1 ∧ r.shift ≠ 0 := by
  rw [firstRun, Option.filter_eq_some_iff, decide_eq_true_eq] at h
  have hfind := List.find?_some h.1
  rw [decide_eq_true_eq] at hfind
  exact ⟨List.mem_reverse.1 (List.mem_of_find?_eq_some h.1), hfind, h.2⟩

end Tendra.Ref.Trans
