import Tendra.Proofs.FltArith
import Tendra.Proofs.Tdfint

/-!
# Literals whose base is a power of two

The digits before the scaling make an integer, with the point behind its last digit. A
shift by less than a digit is a product with a power of two: if the last digit of the
mantissa is free, what comes out at the front pushes nothing out at the end. The rest of
the scaling only moves the exponent, so the number is off exactly when the arithmetic on
the exponent has wrapped around.
-/

namespace Tendra.Ref

open Tendra.Digits

variable {f : Flt} {base : Nat}

/-! ## A product with a small number -/

theorem Flt.Point.value {v n : Nat} (h : f.Point v n) : f.value = f.sign * v := by
  have hle := h.le
  rw [value_fbase, h.val, h.exp, Nat.cast_mul, Nat.cast_pow, mul_assoc, ← zpow_natCast,
    ← zpow_add₀ fbase_ne_zero, Nat.cast_sub hle,
    show ((7 : Nat) : Int) - n + (n - 7) = 0 by push_cast; ring, zpow_zero, mul_one]

/-- A carry into a mantissa whose last digits are zeros. The point may be behind them. -/
theorem carryOut_digits {n c : Nat} (hlen : f.digits.length = mantSize) (hn : n ≤ 6)
    (hb : Bounded fbase f.digits) (hzero : ∀ k, n < k → val fbase (f.digits.drop k) = 0)
    (hexp : (n : Int) ≤ f.exp) (hc : c ≠ 0) (hlt : c < fbase) :
    (carryOut c f).exp = f.exp + 1 ∧ Bounded fbase (carryOut c f).digits ∧
      val fbase (carryOut c f).digits * fbase = val fbase f.digits + c * fbase ^ 8 := by
  obtain ⟨i, hi⟩ : ∃ i, i = if f.exp + 1 ≥ mantSize then mantSize - 1 else (f.exp + 1).toNat :=
    ⟨_, rfl⟩
  rw [mantSize_eq] at hi hlen
  have hni : n < i ∧ i ≤ 7 := by
    rw [hi]
    split <;> omega
  have hdigits : (carryOut c f).digits = c :: f.digits.take i ++ f.digits.drop (i + 1) := by
    simp only [carryOut, if_neg hc, mantSize_eq]
    rw [← hi, Nat.mod_eq_of_lt hlt, Flt.digits, Flt.digits, mantSize_eq, List.take_take,
      Nat.min_eq_left (by omega), List.cons_append, List.cons_append, List.take_succ_cons,
      List.take_append, List.take_take, Nat.min_eq_right (by omega), List.drop_take,
      List.length_take, Nat.min_eq_left]
    · congr 3
      omega
    · rw [Flt.digits, mantSize_eq, List.length_take] at hlen
      omega
  have hsplit : val fbase f.digits = val fbase (f.digits.take i) * fbase ^ (8 - i) := by
    conv_lhs => rw [← List.take_append_drop i f.digits]
    rw [val_append, hzero i hni.1, List.length_drop, hlen, Nat.add_zero]
  refine ⟨by rw [carryOut, if_neg hc], ?_, ?_⟩
  · rw [hdigits]
    exact bounded_append.2 ⟨bounded_cons.2 ⟨hlt, hb.take _⟩, hb.drop _⟩
  · obtain ⟨j, hj⟩ : ∃ j, 8 = i + j + 1 := ⟨7 - i, by omega⟩
    rw [hdigits, val_append, val_cons, hzero (i + 1) (by omega), List.length_take,
      List.length_drop, hlen, Nat.min_eq_left (by omega), hsplit, hj,
      show i + j + 1 - (i + 1) = j by omega, show i + j + 1 - i = j + 1 by omega]
    ring

theorem addCarry_zero {B : Nat} {xs : List Nat} (h : Bounded B xs) : addCarry B 0 xs = (xs, 0) := by
  induction xs with
  | nil => rfl
  | cons x xs ih =>
      obtain ⟨hx, hxs⟩ := bounded_cons.1 h
      simp only [addCarry, ih hxs, Nat.add_zero, Nat.mod_eq_of_lt hx, Nat.div_eq_of_lt hx]

theorem carryOut_zero (f : Flt) : carryOut 0 f = f := rfl

/-- The first loop of `flpt_newdig` does all the work when there is no digit to add. -/
theorem flptNewdig_zero (hb : Bounded fbase (carryOut (timesBase base f.digits).2
      (f.store (timesBase base f.digits).1)).digits) :
    flptNewdig 0 f base =
      carryOut (timesBase base f.digits).2 (f.store (timesBase base f.digits).1) := by
  simp only [flptNewdig, ne_eq, not_true_eq_false, if_false]
  generalize carryOut (timesBase base f.digits).2 (f.store (timesBase base f.digits).1) = g at hb ⊢
  split
  · rfl
  · next hexp =>
      have htake : g.mant.take (g.exp + 1).toNat = g.digits.take (g.exp + 1).toNat := by
        rw [mantSize_eq] at hexp
        rw [Flt.digits, List.take_take, Nat.min_eq_left (by rw [mantSize_eq]; omega)]
      rw [addCarry_zero (by rw [htake]; exact hb.take _), carryOut_zero, List.take_append_drop]

/-- A product with a small number, wherever the point is behind the digits. -/
theorem flptNewdig_product {g : Flt} {v n : Nat} (h : f.Point v n) (hn : n ≤ 6)
    (hbase : base ≤ fbase) (hg : g.digits = f.digits) (hexp : (n : Int) ≤ g.exp) :
    (flptNewdig 0 g base).value = g.value * base ∧
      g.exp ≤ (flptNewdig 0 g base).exp ∧ (flptNewdig 0 g base).exp ≤ g.exp + 1 := by
  obtain ⟨hc, u, hu, -⟩ := timesBase_point h hbase
  have hval := val_timesBase base f.digits
  have hlen : (timesBase base f.digits).1.length = mantSize := (length_timesBase ..).trans h.len
  have hb := bounded_timesBase base f.digits
  have hstore : (g.store (timesBase base f.digits).1).digits = (timesBase base f.digits).1 :=
    Flt.digits_store g hlen
  have hzero : ∀ k, n < k →
      val fbase ((g.store (timesBase base f.digits).1).digits.drop k) = 0 := by
    intro k hk
    rw [hstore, ← Flt.digits_store f hlen]
    exact hu.val_drop hk
  have hsign := flptNewdig_sign 0 g base
  rw [if_neg (by decide)] at hsign
  rw [h.len, mantSize_eq] at hval
  by_cases hcarry : (timesBase base f.digits).2 = 0
  · have hout : flptNewdig 0 g base = g.store (timesBase base f.digits).1 := by
      rw [flptNewdig_zero, hg, hcarry, carryOut_zero]
      rw [hg, hcarry, carryOut_zero, hstore]
      exact hb
    rw [hcarry, Nat.zero_mul, Nat.add_zero] at hval
    rw [value_fbase g, hg, value_fbase, hsign, hout, hstore, hval]
    refine ⟨?_, le_refl _, by show g.exp ≤ g.exp + 1; omega⟩
    show _ * (_ * (fbase : ℚ) ^ (g.exp - 7)) = _
    rw [Nat.cast_mul]
    ring
  · obtain ⟨hexp', hb', hval'⟩ := carryOut_digits (by rw [hstore]; exact hlen) hn
      (by rw [hstore]; exact hb) hzero
      (show (n : Int) ≤ (g.store (timesBase base f.digits).1).exp from hexp) hcarry hc
    have hout : flptNewdig 0 g base =
        carryOut (timesBase base f.digits).2 (g.store (timesBase base f.digits).1) := by
      rw [flptNewdig_zero, hg]
      rw [hg]
      exact hb'
    rw [hstore, hval, ← hout] at hval'
    rw [← hout] at hexp'
    have hexp1 : (flptNewdig 0 g base).exp = g.exp + 1 := hexp'
    have hcast : (val fbase (flptNewdig 0 g base).digits : ℚ) * fbase =
        val fbase f.digits * base := by
      exact_mod_cast hval'
    refine ⟨?_, by omega, by omega⟩
    rw [value_fbase g, hg, value_fbase, hsign, hexp1,
      show g.exp + 1 - 7 = g.exp - 7 + 1 by ring, zpow_add_one₀ fbase_ne_zero]
    linear_combination (g.sign : ℚ) * (fbase : ℚ) ^ (g.exp - 7) * hcast

/-! ## Scaling -/

theorem cint_eq {x : Int} (h : -2 ^ 31 ≤ x ∧ x < 2 ^ 31) : cint x = x := by
  rw [cint, Int.bmod_eq_of_le] <;> omega

theorem cint_range (x : Int) : -2 ^ 31 ≤ cint x ∧ cint x < 2 ^ 31 := by
  have hle := Int.le_bmod (x := x) (m := 2 ^ 32) (by decide)
  have hlt := Int.bmod_lt (x := x) (m := 2 ^ 32) (by decide)
  rw [cint]
  omega

/-- The places by which `flpt_scale` moves the point, where `w` are wanted: the `int` is
off by a multiple of `2 ^ 32`, and the least one counts as its negative. -/
def scaledBy (w : Int) : Int := if cint w = -2 ^ 31 then 2 ^ 31 else cint w

theorem scaledBy_eq_iff {w : Int} : scaledBy w = w ↔ -2 ^ 31 < w ∧ w ≤ 2 ^ 31 := by
  have hrange := cint_range w
  unfold scaledBy
  constructor
  · intro h
    split at h <;> omega
  · rintro ⟨hlo, hhi⟩
    by_cases htop : w = 2 ^ 31
    · rw [htop]
      rfl
    · rw [cint_eq ⟨by omega, by omega⟩, if_neg (by omega)]

theorem scaledBy_mul_cint (k y : Int) : scaledBy (k * cint y) = scaledBy (k * y) := by
  have hmod : cint (k * cint y) = cint (k * y) := Int.mul_bmod_bmod
  rw [scaledBy, hmod, scaledBy]

theorem scaledBy_range (w : Int) : -2 ^ 31 < scaledBy w ∧ scaledBy w ≤ 2 ^ 31 := by
  have hrange := cint_range w
  unfold scaledBy
  split <;> omega

theorem value_exp_add (f : Flt) (t : Int) :
    Flt.value { f with exp := f.exp + t } = f.value * 2 ^ (16 * t) := by
  show _ * (val fbase f.digits * (2 : ℚ) ^ (16 * (f.exp + t) - 112)) = _
  rw [Flt.value, show 16 * (f.exp + t) - 112 = 16 * f.exp - 112 + 16 * t by ring,
    zpow_add₀ (by norm_num)]
  ring

theorem value_exp_sub (f : Flt) (t : Int) :
    Flt.value { f with exp := f.exp - t } = f.value * 2 ^ (16 * -t) := by
  rw [sub_eq_add_neg, value_exp_add]

/-- What the base does to the exponent. -/
theorem expt_eq {k : Nat} (hk : 1 ≤ k ∧ k ≤ 4) {x : Int} (hx : cint x = x) :
    (if 2 ^ k = 16 then
      cint ((if 2 ^ k = 8 then cint ((if 2 ^ k = 4 then cint (x + x) else x) * 3)
        else if 2 ^ k = 4 then cint (x + x) else x) * 4)
    else if 2 ^ k = 8 then cint ((if 2 ^ k = 4 then cint (x + x) else x) * 3)
    else if 2 ^ k = 4 then cint (x + x) else x) = cint (k * x) := by
  obtain rfl | rfl | rfl | rfl : k = 1 ∨ k = 2 ∨ k = 3 ∨ k = 4 := by omega
  · simp [hx]
  · rw [if_neg (by decide), if_neg (by decide), if_pos (by decide)]
    congr 1
    push_cast
    ring
  · rw [if_neg (by decide), if_pos (by decide), if_neg (by decide)]
    congr 1
    push_cast
    ring
  · rw [if_pos (by decide), if_neg (by decide), if_neg (by decide)]
    congr 1
    push_cast
    ring

theorem flptScale_value (stray : Stray) (ft : Flt) {v n : Nat} (h : f.Point v n) (hn : n ≤ 6)
    {k : Nat} (hk : 1 ≤ k ∧ k ≤ 4) {x : Int} (hx : cint x = x) :
    ∃ g, flptScale stray ft x f (2 ^ k) = .ok g ∧ g.value = f.value * 2 ^ scaledBy (k * x) := by
  have hten : 2 ^ k ≠ 10 := by
    obtain rfl | rfl | rfl | rfl : k = 1 ∨ k = 2 ∨ k = 3 ∨ k = 4 := by omega
    all_goals decide
  have hexp := h.exp
  have hsmall : ∀ {r : Nat}, r ≤ 16 → twoPowers r ≤ fbase := fun hr =>
    Nat.pow_le_pow_right (by decide) hr
  have hrange := cint_range (k * x)
  simp only [flptScale, if_neg hten, expt_eq hk hx, scaledBy]
  generalize cint (k * x) = w at hrange ⊢
  rcases lt_trichotomy w 0 with hw | rfl | hw
  · rw [if_neg (by omega), if_pos hw]
    by_cases hmin : w = -2 ^ 31
    · -- the negative of the least `int` is the least `int`
      subst hmin
      have hneg : cint (-(-2 ^ 31)) = -2 ^ 31 := by decide
      have hquot : (-2 ^ 31 : Int).tdiv 16 = -2 ^ 27 := by decide
      rw [hneg, hquot, if_pos (by decide), if_pos rfl]
      refine ⟨_, rfl, ?_⟩
      rw [cint_eq (by rw [hexp]; constructor <;> omega), value_exp_sub]
      congr 2
    · have hneg : cint (-w) = -w := cint_eq ⟨by omega, by omega⟩
      obtain ⟨q, r, hqr, hq, hr⟩ : ∃ q r : Int, -w = 16 * q + r ∧ (-w).tdiv 16 = q ∧
          (-w).tmod 16 = r := ⟨_, _, (Int.mul_tdiv_add_tmod ..).symm, rfl, rfl⟩
      have hr16 : 0 ≤ r ∧ r < 16 := by
        rw [← hr, Int.tmod_eq_emod_of_nonneg (by omega)]
        omega
      rw [hneg, hq, hr, if_neg hmin]
      split
      · next hr0 =>
          refine ⟨_, rfl, ?_⟩
          rw [cint_eq (by rw [hexp]; constructor <;> omega), value_exp_sub]
          congr 2
          omega
      · obtain ⟨hval, hlo, hhi⟩ := flptNewdig_product (g := f) h hn
          (hsmall (r := (16 - r).toNat) (by omega)) rfl hexp.ge
        refine ⟨_, rfl, ?_⟩
        rw [cint_eq (by constructor <;> omega), value_exp_sub, hval, twoPowers, mul_assoc,
          Nat.cast_pow, Nat.cast_ofNat, ← zpow_natCast, ← zpow_add₀ (by norm_num)]
        congr 2
        omega
  · refine ⟨f, by simp, ?_⟩
    rw [if_neg (by decide), zpow_zero, mul_one]
  · have hdm : 16 * (w / 16) + w % 16 = w := Int.mul_ediv_add_emod w 16
    have hmod : 0 ≤ w % 16 ∧ w % 16 < 16 := by omega
    rw [if_pos hw, if_neg (show ¬w = -2 ^ 31 by omega)]
    generalize w / 16 = q at hdm ⊢
    generalize w % 16 = r at hdm hmod ⊢
    rw [cint_eq (show -2 ^ 31 ≤ f.exp + q ∧ f.exp + q < 2 ^ 31 by constructor <;> omega)]
    split
    · obtain ⟨hval, -, -⟩ := flptNewdig_product (g := { f with exp := f.exp + q }) h hn
          (hsmall (r := r.toNat) (by omega)) rfl
          (show (n : Int) ≤ f.exp + q by omega)
      refine ⟨_, rfl, ?_⟩
      rw [hval, value_exp_add, twoPowers, mul_assoc, Nat.cast_pow, Nat.cast_ofNat,
        ← zpow_natCast, ← zpow_add₀ (by norm_num)]
      congr 2
      omega
    · refine ⟨_, rfl, ?_⟩
      rw [value_exp_add]
      congr 2
      omega

/-! ## The digits -/

/-- The character of a digit. -/
def digitChar (d : Nat) : BitVec 8 := BitVec.ofNat 8 (48 + d)

/-- A string of digits with at most one point: those before it, and those behind it. -/
def mantissaString (whole : List Nat) (frac : Option (List Nat)) : List (BitVec 8) :=
  whole.map digitChar ++ (frac.map fun ds => 46#8 :: ds.map digitChar).getD []

theorem digitChar_facts : ∀ d < 16, digitChar d ≠ 46#8 ∧ (digitChar d = 48#8 ↔ d = 0) ∧
    (digitChar d - 48#8 != 0#8) = decide (d ≠ 0) ∧
    ((digitChar d - 48#8).signExtend 32).toNat = d := by decide

/-- What the loop has read: digits that make `N`, of which `p` are behind the point, where
`E` is the exponent of the literal. -/
structure Literal.Read (v : Literal) (E : Int) (p N : Nat) : Prop where
  exponent : v.exponent = cint (E - p)
  sig : v.hasSigDigs = true ↔ N ≠ 0
  fr : ∃ n, v.fr.Point N n ∧ (n = 0 ∨ fbase ^ n ≤ N)
  ignored : v.ignoreZero = true → N = 0 ∧ v.point = false

namespace Literal.Read

variable {v : Literal} {E : Int} {p N : Nat}

theorem start (fr : Flt) {exponent : Int} (h : exponent = cint E) :
    Literal.Read ⟨true, false, false, exponent, fltZero fr⟩ E 0 0 where
  exponent := by
    rw [h, Nat.cast_zero, sub_zero]
  sig := by simp
  fr := by
    have hd : (fltZero fr).digits = List.replicate mantSize 0 :=
      Flt.digits_store fr (List.length_replicate ..)
    refine ⟨0, ⟨?_, ?_, rfl, by decide, ?_⟩, .inl rfl⟩
    · rw [hd, List.length_replicate]
    · rw [hd]
      exact bounded_replicate_zero fbase_pos _
    · rw [hd, val_replicate_zero, Nat.zero_mul]
  ignored _ := ⟨rfl, rfl⟩

/-- A turn of the loop, for a digit. -/
theorem digit {d : Nat} (h : v.Read E p N) (hbase : 0 < base ∧ base ≤ 16) (hd : d < base)
    (hfit : N * base + d < fbase ^ 8) :
    (v.char base (digitChar d)).Read E (p + v.point.toNat) (N * base + d) ∧
      (v.char base (digitChar d)).point = v.point := by
  obtain ⟨hdot, hzero, hne, hval⟩ := digitChar_facts d (by omega)
  have hsmall : 16 < fbase := by decide
  by_cases hskip : digitChar d ≠ 48#8 ∨ v.ignoreZero = false
  · have hchar : v.char base (digitChar d) = { v with
        ignoreZero := false
        hasSigDigs := v.hasSigDigs || decide (d ≠ 0)
        exponent := cint (v.exponent - v.point.toNat)
        fr := flptNewdig d v.fr base } := by
      rw [Literal.char, if_pos hskip, if_neg hdot]
      simp only [hne, hval]
    rw [hchar]
    refine ⟨⟨?_, ?_, ?_, fun hignore => absurd hignore (by simp)⟩, rfl⟩
    · show cint (v.exponent - v.point.toNat) = _
      rw [h.exponent, cint, cint, Int.bmod_sub_bmod, cint, Nat.cast_add, sub_sub]
    · have hsum : N * base + d ≠ 0 ↔ N ≠ 0 ∨ d ≠ 0 := by
        rw [ne_eq, Nat.add_eq_zero_iff, Nat.mul_eq_zero]
        omega
      simp only [Bool.or_eq_true, decide_eq_true_eq, h.sig, hsum]
    · obtain ⟨n, hn, hnorm⟩ := h.fr
      obtain ⟨m, hm, hmnorm⟩ := flptNewdig_point hn ⟨hbase.1, by omega⟩ (by omega) hfit
      exact ⟨m, hm, hmnorm hnorm⟩
  · -- a zero before the first digit that is not ignored
    rw [not_or, not_not, hzero, Bool.not_eq_false] at hskip
    obtain ⟨rfl, hpoint⟩ := h.ignored hskip.2
    have hchar : v.char base (digitChar d) = v := by
      rw [Literal.char, if_neg]
      rw [not_or, not_not, hzero, Bool.not_eq_false]
      exact hskip
    rw [hchar, hpoint, hskip.1, Nat.zero_mul]
    exact ⟨h, rfl⟩

/-- The loop, over digits. -/
theorem digits (hbase : 0 < base ∧ base ≤ 16) {ds : List Nat} (hds : Bounded base ds) :
    ∀ {v : Literal} {p N : Nat}, v.Read E p N →
      N * base ^ ds.length + val base ds < fbase ^ 8 →
      ((ds.map digitChar).foldl (Literal.char base) v).Read E
          (p + v.point.toNat * ds.length) (N * base ^ ds.length + val base ds) ∧
        ((ds.map digitChar).foldl (Literal.char base) v).point = v.point := by
  induction ds with
  | nil =>
      intro v p N h _
      simpa using h
  | cons d ds ih =>
      intro v p N h hfit
      obtain ⟨hd, hrest⟩ := bounded_cons.1 hds
      have hsum : N * base ^ (d :: ds).length + val base (d :: ds) =
          (N * base + d) * base ^ ds.length + val base ds := by
        rw [val_cons, List.length_cons, pow_succ]
        ring
      rw [hsum] at hfit ⊢
      have hone : N * base + d ≤ (N * base + d) * base ^ ds.length :=
        Nat.le_mul_of_pos_right _ (Nat.pow_pos hbase.1)
      obtain ⟨hstep, hpoint⟩ := h.digit hbase hd (by omega)
      obtain ⟨hread, hend⟩ := ih hrest hstep hfit
      rw [hpoint] at hread hend
      rw [List.map_cons, List.foldl_cons, List.length_cons, Nat.mul_succ,
        Nat.add_comm (v.point.toNat * ds.length), ← Nat.add_assoc]
      exact ⟨hread, hend⟩

/-- A turn of the loop, for the point. -/
theorem dot (base : Nat) (h : v.Read E p N) :
    (v.char base 46#8).Read E p N ∧ (v.char base 46#8).point = true :=
  ⟨⟨h.exponent, h.sig, h.fr, fun hignore => absurd hignore (by simp [Literal.char])⟩, rfl⟩

end Literal.Read

theorem read_mantissa (hbase : 0 < base ∧ base ≤ 16) {whole : List Nat}
    (hwhole : Bounded base whole) {frac : Option (List Nat)} (hfrac : ∀ ds ∈ frac, Bounded base ds)
    (hfit : val base (whole ++ frac.getD []) < fbase ^ 8) {v : Literal} {E : Int} (h : v.Read E 0 0)
    (hpoint : v.point = false) :
    ((mantissaString whole frac).foldl (Literal.char base) v).Read E (frac.getD []).length
      (val base (whole ++ frac.getD [])) := by
  rw [val_append] at hfit ⊢
  have hone : val base whole ≤ val base whole * base ^ (frac.getD []).length :=
    Nat.le_mul_of_pos_right _ (Nat.pow_pos hbase.1)
  obtain ⟨hw, hwpoint⟩ := h.digits hbase hwhole (by omega)
  rw [hpoint] at hw hwpoint
  simp only [Bool.toNat_false, Nat.zero_mul, Nat.zero_add, Nat.add_zero] at hw
  rw [mantissaString, List.foldl_append]
  cases frac with
  | none => simpa using hw
  | some ds =>
      obtain ⟨hd, hdpoint⟩ := hw.dot base
      obtain ⟨hf, -⟩ := hd.digits hbase (hfrac ds rfl) hfit
      rw [hdpoint] at hf
      simpa using hf

/-! ## The literal -/

/-- What the reader of TDF integers makes of an exponent: one that takes more than 32 bits
is the number of an entry of the pool. -/
def SignedNat.Denotes (p : Pool) (x : SignedNat) (E : Int) : Prop :=
  (x.negative = true → E ≤ 0) ∧ (x.negative = false → 0 ≤ E) ∧
    match x.val with
    | .natint n => E.natAbs < 2 ^ 32 ∧ n = cint E.natAbs
    | .natbig f => 2 ^ 32 ≤ E.natAbs ∧ f < 2 ^ 31 ∧ (p.nos f).Is E.natAbs

/-- The `int` that is read for an exponent, and how far it is off. -/
theorem SignedNat.Denotes.exponent {p : Pool} {x : SignedNat} {E : Int} (h : x.Denotes p E) :
    ∃ E' : Int, (if x.negative then cint (-x.snatint) else x.snatint) = cint E' ∧
      (E' = E ∨ 2 ^ 32 ≤ E.natAbs ∧ -2 ^ 31 < E' ∧ E' < 2 ^ 31) := by
  obtain ⟨hneg, hpos, hval⟩ := h
  unfold SignedNat.snatint
  cases hx : x.val with
  | natint n =>
      rw [hx] at hval
      refine ⟨E, ?_, .inl rfl⟩
      dsimp only
      rw [hval.2]
      cases hs : x.negative
      · rw [if_neg (by decide), Int.natAbs_of_nonneg (hpos hs)]
      · rw [if_pos rfl, cint, cint, Int.bmod_neg_bmod, Int.ofNat_natAbs_of_nonpos (hneg hs),
          neg_neg]
        rfl
  | natbig f =>
      rw [hx] at hval
      refine ⟨if x.negative then -f else f, ?_, .inr ⟨hval.1, ?_⟩⟩
      · dsimp only
        split
        · rfl
        · rw [cint_eq ⟨by omega, by omega⟩]
      · have hf := hval.2.1
        split <;> constructor <;> omega

end Tendra.Ref
