import Mathlib.Algebra.Order.Ring.Nat
import Mathlib.Tactic.Linarith
import Mathlib.Tactic.Ring

/-!
# Non-restoring division with a truncated divisor

The quotient of `a` by `d`, for `a < d`, bit by bit: the divisor is halved after
each step and is subtracted from a remainder that is not negative and added to
one that is. The halves of the divisor lose their last bits, so the remainders
are those of true division only while the divisor has trailing zeros left; up
to there the bits are those of the quotient, and if the division comes out even
by then, every later bit is zero, whatever the divisor loses.
-/

namespace Tendra.NonRestoring

variable {z : Nat}

/-- The remainder before step `j`. -/
@[grind =] def rem (a d : Nat) : Nat → Int
  | 0 => a
  | j + 1 => if 0 ≤ rem a d j then rem a d j - (d / 2 ^ j : Nat) else rem a d j + (d / 2 ^ j : Nat)

/-- The bits of the first `j` steps, as a number. -/
@[grind =] def quot (a d : Nat) : Nat → Nat
  | 0 => 0
  | j + 1 => 2 * quot a d j + if 0 ≤ rem a d (j + 1) then 1 else 0

variable {a d : Nat}

/-- A remainder stays below the divisor in magnitude. -/
theorem rem_bounds (h : a < d) (j : Nat) : -(d : Int) ≤ rem a d j ∧ rem a d j < d := by
  induction j with
  | zero => simp only [rem]; omega
  | succ j ih =>
      have hle : d / 2 ^ j ≤ d := Nat.div_le_self ..
      simp only [rem]
      generalize d / 2 ^ j = q at hle ⊢
      split <;> omega

/-- The first bits of a longer quotient are those of a shorter one. -/
theorem quot_div (n m : Nat) : quot a d (n + m) / 2 ^ m = quot a d n := by
  induction m with
  | zero => simp
  | succ m ih =>
      rw [← ih, ← Nat.add_assoc, quot, pow_succ', ← Nat.div_div_eq_div_mul]
      congr 1
      split <;> omega

/-- One step of true division: the remainder is doubled and the divisor taken off
once, whatever the last bit was. -/
theorem rem_double {k : Nat} {r : Int} (hd : 2 ^ (k + 1) ∣ d)
    (hr : rem a d (k + 1) * 2 ^ k = r - if 0 ≤ rem a d (k + 1) then 0 else (d : Int)) :
    rem a d (k + 2) * 2 ^ (k + 1) = 2 * r - d := by
  have hdk : d / 2 ^ (k + 1) * 2 ^ (k + 1) = d := Nat.div_mul_cancel hd
  have hdk' : ((d / 2 ^ (k + 1) : Nat) : Int) * 2 ^ (k + 1) = d := by exact_mod_cast hdk
  rw [rem]
  split
  · next hpos =>
      rw [if_pos hpos, Int.sub_zero] at hr
      rw [Int.sub_mul, hdk', pow_succ, ← Int.mul_assoc, hr]
      ring
  · next hneg =>
      rw [if_neg hneg] at hr
      rw [Int.add_mul, hdk', pow_succ, ← Int.mul_assoc, hr]
      ring

/-- While the divisor has trailing zeros, the bits are those of the quotient, and
the remainder is that of the division, less the divisor after a zero bit. -/
theorem quot_rem_exact (h : a < d) {k : Nat} (hz : 2 ^ z ∣ d) (hk : k ≤ z) :
    quot a d (k + 1) = a * 2 ^ k / d ∧
      rem a d (k + 1) * 2 ^ k =
        (a * 2 ^ k % d : Nat) - if 0 ≤ rem a d (k + 1) then 0 else (d : Int) := by
  induction k with
  | zero =>
      have hneg : ¬ 0 ≤ rem a d 1 := by
        simp only [rem, Int.natCast_nonneg, if_true, pow_zero, Nat.div_one]
        omega
      constructor
      · rw [quot, quot, if_neg hneg, pow_zero, Nat.mul_one, Nat.div_eq_of_lt h]
      · rw [if_neg hneg]
        simp [rem, Nat.mod_eq_of_lt h]
  | succ k ih =>
      obtain ⟨hq, hr⟩ := ih (by omega)
      have hd0 : 0 < d := by omega
      have hpow : (0 : Int) < 2 ^ (k + 1) := by positivity
      have hstep := rem_double (dvd_trans (pow_dvd_pow 2 hk) hz) hr
      have hsign : 0 ≤ rem a d (k + 1 + 1) ↔ d ≤ 2 * (a * 2 ^ k % d) := by
        rw [← Int.mul_nonneg_iff_of_pos_right hpow, hstep]
        omega
      have hmod := Nat.mod_lt (a * 2 ^ k) hd0
      have hdm := Nat.div_add_mod (a * 2 ^ k) d
      have hdouble : a * 2 ^ (k + 1) = d * (2 * (a * 2 ^ k / d)) + 2 * (a * 2 ^ k % d) := by
        rw [pow_succ]
        linarith
      by_cases hbit : d ≤ 2 * (a * 2 ^ k % d)
      · have hsplit : a * 2 ^ (k + 1) =
            2 * (a * 2 ^ k % d) - d + d * (2 * (a * 2 ^ k / d) + 1) := by
          rw [hdouble, Nat.mul_add]
          omega
        have hdiv : a * 2 ^ (k + 1) / d = 2 * (a * 2 ^ k / d) + 1 := by
          rw [hsplit, Nat.add_mul_div_left _ _ hd0, Nat.div_eq_of_lt (by omega), Nat.zero_add]
        have hmod' : a * 2 ^ (k + 1) % d = 2 * (a * 2 ^ k % d) - d := by
          rw [hsplit, Nat.add_mul_mod_self_left, Nat.mod_eq_of_lt (by omega)]
        rw [quot, if_pos (hsign.2 hbit), hq, hdiv, if_pos (hsign.2 hbit), hstep, hmod']
        refine ⟨rfl, ?_⟩
        push_cast [hbit]
        omega
      · have hdiv : a * 2 ^ (k + 1) / d = 2 * (a * 2 ^ k / d) := by
          rw [hdouble, Nat.add_comm, Nat.add_mul_div_left _ _ hd0,
            Nat.div_eq_of_lt (by omega), Nat.zero_add]
        have hmod' : a * 2 ^ (k + 1) % d = 2 * (a * 2 ^ k % d) := by
          rw [hdouble, Nat.add_comm, Nat.add_mul_mod_self_left, Nat.mod_eq_of_lt (by omega)]
        rw [quot, if_neg (mt hsign.1 hbit), hq, hdiv, if_neg (mt hsign.1 hbit), hstep, hmod']
        refine ⟨by omega, by push_cast; ring⟩

/-- Once the division has come out even, all bits are zero. -/
theorem rem_neg_of_dvd (h : a < d) {e : Nat} (hz : 2 ^ z ∣ d) (he : e < z) (hdvd : d ∣ a * 2 ^ e)
    (m : Nat) : rem a d (e + 2 + m) * 2 ^ (e + 1 + m) ≤ -(d : Int) := by
  have hd0 : 0 < d := by omega
  induction m with
  | zero =>
      obtain ⟨-, hr⟩ := quot_rem_exact h hz (k := e) (by omega)
      rw [Nat.mod_eq_zero_of_dvd hdvd] at hr
      have hstep := rem_double (dvd_trans (pow_dvd_pow 2 he) hz) hr
      simp only [Nat.add_zero]
      rw [hstep]
      simp
  | succ m ih =>
      have hpow : (0 : Int) < 2 ^ (e + 1 + m) := by positivity
      have hneg : ¬ 0 ≤ rem a d (e + 2 + m) := by
        rw [← Int.mul_nonneg_iff_of_pos_right hpow]
        omega
      have hle : d / 2 ^ (e + 2 + m) * 2 ^ (e + 2 + m) ≤ d := Nat.div_mul_le_self ..
      have hle' : ((d / 2 ^ (e + 2 + m) : Nat) : Int) * 2 ^ (e + 2 + m) ≤ d := by exact_mod_cast hle
      rw [show e + 2 + (m + 1) = e + 2 + m + 1 by omega, rem, if_neg hneg,
        show e + 1 + (m + 1) = e + 2 + m by omega, Int.add_mul,
        show rem a d (e + 2 + m) * 2 ^ (e + 2 + m) =
          2 * (rem a d (e + 2 + m) * 2 ^ (e + 1 + m)) by
            rw [show e + 2 + m = e + 1 + m + 1 by omega, pow_succ]; ring]
      omega

theorem rem_neg_of_dvd' (h : a < d) {e : Nat} (hz : 2 ^ z ∣ d) (he : e < z) (hdvd : d ∣ a * 2 ^ e)
    {j : Nat} (hj : e + 2 ≤ j) : rem a d j < 0 := by
  obtain ⟨m, rfl⟩ := Nat.exists_eq_add_of_le hj
  have hle := rem_neg_of_dvd h hz he hdvd m
  have hpow : (0 : Int) < 2 ^ (e + 1 + m) := by positivity
  by_contra hneg
  have := Int.mul_nonneg (Int.not_lt.1 hneg) hpow.le
  omega

/-- An even division: the quotient and then zeros. -/
theorem quot_of_dvd (h : a < d) {e : Nat} (hz : 2 ^ z ∣ d) (he : e < z) (hdvd : d ∣ a * 2 ^ e)
    (m : Nat) : quot a d (e + 1 + m) = a * 2 ^ e / d * 2 ^ m := by
  induction m with
  | zero => rw [Nat.add_zero, (quot_rem_exact h hz (k := e) (by omega)).1, pow_zero, Nat.mul_one]
  | succ m ih =>
      have hneg := rem_neg_of_dvd' h hz he hdvd (j := e + 1 + m + 1) (by omega)
      rw [← Nat.add_assoc, quot, if_neg (by omega), ih, pow_succ]
      ring

/-- The quotient is below one. -/
theorem quot_lt (h : a < d) (n : Nat) : quot a d (n + 1) < 2 ^ n := by
  have h1 := quot_div (a := a) (d := d) 1 n
  have h0 : quot a d 1 = 0 := by
    have := (quot_rem_exact h (z := 0) (k := 0) (by simp) (le_refl 0)).1
    rw [this, pow_zero, Nat.mul_one, Nat.div_eq_of_lt h]
  rw [h0, Nat.add_comm 1 n] at h1
  by_contra hle
  have := Nat.div_pos (Nat.not_lt.1 hle) (Nat.two_pow_pos n)
  omega

/-! ## The integer part of a quotient of integers

Let `a` and `b` be integers, scaled to `a * 2 ^ y` and `b * 2 ^ z` for the
division. If there are 64 places behind the point and `b` has at most 64 bits,
the bits there are neither all zeros nor all ones unless the division is even;
so neither the bits that are wrong nor a rounding reach the integer part. -/

/-- The fraction of a quotient that is not even, in `g` places. -/
theorem frac_bounds {a b g : Nat} (hb : 0 < b) (hg : b < 2 ^ g) (hndvd : ¬ b ∣ a) :
    a / b * 2 ^ g + 1 ≤ a * 2 ^ g / b ∧ a * 2 ^ g / b + 2 ≤ (a / b + 1) * 2 ^ g := by
  have hr : 0 < a % b := Nat.pos_of_ne_zero fun h => hndvd (Nat.dvd_of_mod_eq_zero h)
  have hlt := Nat.mod_lt a hb
  have hdm := Nat.div_add_mod a b
  have hsplit : a * 2 ^ g / b = a / b * 2 ^ g + a % b * 2 ^ g / b := by
    conv_lhs => rw [← hdm]
    rw [Nat.add_mul, Nat.mul_assoc, Nat.add_comm, Nat.add_mul_div_left _ _ hb, Nat.add_comm]
  have hlow : 1 ≤ a % b * 2 ^ g / b := by
    rw [Nat.le_div_iff_mul_le hb]
    have : 1 * 2 ^ g ≤ a % b * 2 ^ g := Nat.mul_le_mul_right _ hr
    omega
  have hhigh : a % b * 2 ^ g / b < 2 ^ g - 1 := by
    rw [Nat.div_lt_iff_lt_mul hb]
    have h1 : (a % b + 1) * 2 ^ g ≤ b * 2 ^ g := Nat.mul_le_mul_right _ hlt
    rw [Nat.add_mul, Nat.one_mul] at h1
    rw [Nat.sub_mul, Nat.one_mul, Nat.mul_comm (2 ^ g) b]
    omega
  rw [hsplit, Nat.add_mul, Nat.one_mul]
  omega

/-- Scaling an even division: the dividend gets even after `z - y` steps. -/
theorem even_scaled {a b y : Nat} (ha : 0 < a) (hb : 0 < b) (hlt : a * 2 ^ y < b * 2 ^ z)
    (hdvd : b ∣ a) : y < z ∧ a * 2 ^ y * 2 ^ (z - y) = b * 2 ^ z * (a / b) := by
  obtain ⟨n, rfl⟩ := hdvd
  have hn : 0 < n := Nat.pos_of_mul_pos_left ha
  have hyz : y < z := by
    by_contra hle
    have h1 : 2 ^ z ≤ 2 ^ y := Nat.pow_le_pow_right (by decide) (by omega)
    have h2 : b * 1 * 2 ^ z ≤ b * n * 2 ^ y := Nat.mul_le_mul (Nat.mul_le_mul_left _ hn) h1
    rw [Nat.mul_one] at h2
    omega
  refine ⟨hyz, ?_⟩
  rw [Nat.mul_div_cancel_left _ hb, Nat.mul_assoc, ← pow_add, show y + (z - y) = z by omega]
  ring

/-- The bits of an even division. -/
theorem quot_even {a b y : Nat} (ha : 0 < a) (hb : 0 < b) (hy : 0 < y) (hz : z ≤ 128)
    (hlt : a * 2 ^ y < b * 2 ^ z) (hdvd : b ∣ a) :
    quot (a * 2 ^ y) (b * 2 ^ z) 129 = a / b * 2 ^ (128 - (z - y)) ∧
      ∀ j, 129 ≤ j → rem (a * 2 ^ y) (b * 2 ^ z) (j + 1) < 0 := by
  obtain ⟨hyz, hnum⟩ := even_scaled ha hb hlt hdvd
  have hpz : 2 ^ z ∣ b * 2 ^ z := Nat.dvd_mul_left ..
  have hdv : b * 2 ^ z ∣ a * 2 ^ y * 2 ^ (z - y) := hnum ▸ Nat.dvd_mul_right ..
  refine ⟨?_, fun j hj => rem_neg_of_dvd' hlt hpz (show z - y < z by omega) hdv (by omega)⟩
  have hq := quot_of_dvd hlt hpz (show z - y < z by omega) hdv (128 - (z - y))
  rwa [show z - y + 1 + (128 - (z - y)) = 129 by omega, hnum,
    Nat.mul_div_cancel_left _ (Nat.mul_pos hb (Nat.two_pow_pos z))] at hq

theorem quot_integer_part {a b y P G c : Nat} (ha : 0 < a) (hb : 0 < b) (hb64 : b < 2 ^ 64)
    (hy : 64 ≤ y) (hG : 64 ≤ G) (hz : z ≤ 128) (hP : P ≤ 128) (hPG : P + y = G + z)
    (hlt : a * 2 ^ y < b * 2 ^ z) (hc : c ≤ 1) (hc0 : b ∣ a → c = 0) :
    (quot (a * 2 ^ y) (b * 2 ^ z) 129 / 2 ^ (128 - P) + c) / 2 ^ G = a / b ∧
      ((quot (a * 2 ^ y) (b * 2 ^ z) 129 / 2 ^ (128 - P) + c) % 2 ^ G = 0 ↔ b ∣ a) := by
  have hpz : 2 ^ z ∣ b * 2 ^ z := Nat.dvd_mul_left ..
  by_cases hdvd : b ∣ a
  · obtain ⟨hyz, -⟩ := even_scaled ha hb hlt hdvd
    obtain ⟨hq, -⟩ := quot_even ha hb (by omega) hz hlt hdvd
    rw [hq, show 128 - (z - y) = G + (128 - P) by omega, pow_add, ← Nat.mul_assoc,
      Nat.mul_div_cancel _ (Nat.two_pow_pos _), hc0 hdvd, Nat.add_zero,
      Nat.mul_div_cancel _ (Nat.two_pow_pos _)]
    exact ⟨rfl, by simp [hdvd]⟩
  · -- `w` bits are exact, `g` of them behind the point
    obtain ⟨w, g, hwz, hwP, hg, hwg⟩ : ∃ w g, w ≤ z ∧ w ≤ P ∧ 64 ≤ g ∧ w + y = g + z := by
      rcases Nat.le_total z P with h | h
      · exact ⟨z, y, le_refl z, h, hy, Nat.add_comm ..⟩
      · exact ⟨P, G, h, le_refl P, hG, hPG⟩
    have hbg : b < 2 ^ g := lt_of_lt_of_le hb64 (Nat.pow_le_pow_right (by decide) hg)
    obtain ⟨hlow, hhigh⟩ := frac_bounds hb hbg hdvd
    have hexact := (quot_rem_exact hlt hpz hwz).1
    rw [Nat.mul_assoc, ← pow_add, Nat.add_comm y w, hwg, pow_add, ← Nat.mul_assoc,
      Nat.mul_div_mul_right _ _ (Nat.two_pow_pos z)] at hexact
    have hstart := quot_div (a := a * 2 ^ y) (d := b * 2 ^ z) (w + 1) (128 - w)
    rw [show w + 1 + (128 - w) = 129 by omega, hexact] at hstart
    generalize hM0 : quot (a * 2 ^ y) (b * 2 ^ z) 129 / 2 ^ (128 - P) = m
    have hm : m / 2 ^ (P - w) = a * 2 ^ g / b := by
      rw [← hM0, Nat.div_div_eq_div_mul, ← pow_add,
        show 128 - P + (P - w) = 128 - w by omega, hstart]
    have hGg : 2 ^ G = 2 ^ g * 2 ^ (P - w) := by rw [← pow_add]; congr 1; omega
    have hk : 0 < 2 ^ (P - w) := Nat.two_pow_pos _
    generalize 2 ^ (P - w) = k at *
    generalize 2 ^ g = s at *
    have hmlow : a * s / b * k ≤ m := by rw [← hm]; exact Nat.div_mul_le_self m k
    have hmhigh : m < (a * s / b + 1) * k := by
      rw [← hm]
      exact Nat.lt_mul_of_div_lt (Nat.lt_succ_self _) hk
    have h1 : (a / b * s + 1) * k ≤ a * s / b * k := Nat.mul_le_mul_right _ hlow
    have h2 : (a * s / b + 2) * k ≤ (a / b + 1) * s * k := Nat.mul_le_mul_right _ hhigh
    have hlo : a / b * 2 ^ G < m + c := by
      rw [hGg, ← Nat.mul_assoc]
      rw [Nat.add_mul, Nat.one_mul] at h1
      omega
    have hhi : m + c < (a / b + 1) * 2 ^ G := by
      rw [hGg, ← Nat.mul_assoc]
      rw [Nat.add_mul] at h2 hmhigh
      omega
    have hdiv : (m + c) / 2 ^ G = a / b := by
      rw [Nat.div_eq_iff (Nat.two_pow_pos G)]
      rw [Nat.add_mul, Nat.one_mul] at hhi
      omega
    refine ⟨hdiv, fun h0 => ?_, fun h0 => absurd h0 hdvd⟩
    have := Nat.div_add_mod (m + c) (2 ^ G)
    rw [hdiv, h0, Nat.mul_comm] at this
    omega

end Tendra.NonRestoring
