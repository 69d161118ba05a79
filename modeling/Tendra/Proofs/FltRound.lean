import Tendra.Proofs.F64Exact
import Tendra.Proofs.FltDiv

/-!
# Rounding a quotient to an integer

`flpt_round_to_integer` asks `flpt_round` to keep as many bits as there are
before the point, so the digit that is rounded is the one behind the point, at
its first bit. Towards zero the digits behind the point are dropped; towards
minus infinity a negative number with a fraction gets one more, and the carry
may need a new digit.
-/

namespace Tendra.Ref

open Tendra.Digits

/-- The digits before the point. -/
theorem intPart_take {f : Flt} {D : Nat} (h : f.exp = (D : Int) - 1) :
    f.intPart = val fbase (f.digits.take D) := by
  rw [Flt.intPart]
  split
  · rw [show D = 0 by omega, List.take_zero, val_nil]
  · rw [show f.exp.toNat + 1 = D by omega]

/-- The digit to be rounded is the one behind the point, at its first bit. -/
theorem roundPos_spec {D fuel d : Nat} (h : D ≤ fuel) :
    roundPos fuel (16 - 16 * (D : Int)) d = (16, d + D) := by
  induction D generalizing fuel d with
  | zero =>
      cases fuel with
      | zero => rfl
      | succ fuel => rfl
  | succ D ih =>
      cases fuel with
      | zero => omega
      | succ fuel =>
          rw [roundPos, if_pos (by push_cast; omega),
            show (16 : Int) - 16 * ((D + 1 : Nat) : Int) + 16 = 16 - 16 * (D : Int) by
              push_cast; ring, ih (by omega)]
          congr 1
          omega

theorem ndig_le (fuel : Nat) {mask c : Nat} (k : Nat) (hk : k ≤ fuel)
    (hzero : mask * 2 ^ k % 2 ^ 32 &&& c = 0) (hmask : mask < 2 ^ 32) : ndig fuel mask c ≤ k := by
  induction fuel generalizing mask k with
  | zero => exact Nat.zero_le k
  | succ fuel ih =>
      rw [ndig]
      split
      · next hne =>
          cases k with
          | zero =>
              rw [pow_zero, Nat.mul_one, Nat.mod_eq_of_lt hmask] at hzero
              exact absurd hzero hne
          | succ k =>
              have hnext : ndig fuel (mask * 2 % 2 ^ 32) c ≤ k := ih k (by omega) (by
                rw [Nat.mod_mul_mod, Nat.mul_assoc, ← pow_succ']
                exact hzero) (Nat.mod_lt _ (by decide))
              omega
      · exact Nat.zero_le k

/-- A digit has at most 16 bits. -/
theorem ndig0_le {c : Nat} (h : c < 65536) : ndig0 c ≤ 16 := by
  refine ndig_le 32 16 (by decide) ?_ (by decide)
  have hm : (fbase - 1) * 2 ^ 16 % 2 ^ 32 = 0xffff * 2 ^ 16 := by decide
  rw [hm]
  apply Nat.eq_of_testBit_eq
  intro i
  rw [Nat.testBit_and, Nat.testBit_mul_two_pow, Nat.zero_testBit]
  by_cases hi : 16 ≤ i
  · have : c.testBit i = false :=
      Nat.testBit_lt_two_pow (lt_of_lt_of_le h (Nat.pow_le_pow_right (show 0 < 2 by decide) hi))
    rw [this, Bool.and_false]
  · simp [hi]

/-- A number that `flt_to_f64` turns into the integer `v`. -/
structure Flt.IntegerIs (f : Flt) (v : Int) : Prop where
  len : f.digits.length = mantSize
  bounded : Bounded fbase f.digits
  exp : f.exp ≤ 7
  sign : f.sign = 0 ∨ f.sign = 1 ∨ f.sign = -1
  val : f.sign * f.intPart = v

theorem integerIs_of_digits {g : Flt} {X : List Nat} {D N : Nat} (hd : g.digits = X)
    (hX : X.length = mantSize) (hb : Bounded fbase X) (he : g.exp = (D : Int) - 1) (hD : D ≤ 8)
    (hs : g.sign = 1 ∨ g.sign = -1) (hv : Digits.val fbase (X.take D) = N) :
    g.IntegerIs (g.sign * N) := by
  refine ⟨by rw [hd, hX], by rw [hd]; exact hb, by omega, .inr hs, ?_⟩
  rw [intPart_take he, hd, hv]

/-- The digits up to the one behind the point, and zeros. -/
def keptDigits (f : Flt) (D : Nat) : List Nat :=
  f.digits.take (D + 1) ++ List.replicate (mantSize - (D + 1)) 0

section Rounding

variable {f : Flt} {D : Nat}
variable (hlen : f.digits.length = mantSize) (hb : Bounded fbase f.digits)
variable (hexp : f.exp = (D : Int) - 1) (hD : D ≤ 4) (hsign : f.sign = 1 ∨ f.sign = -1)

include hlen hD in
theorem keptDigits_length : (keptDigits f D).length = mantSize := by
  simp only [keptDigits, List.length_append, List.length_take, hlen, List.length_replicate,
    mantSize_eq]
  omega

include hb in
theorem keptDigits_bounded : Bounded fbase (keptDigits f D) :=
  bounded_append.2 ⟨hb.take _, bounded_replicate_zero fbase_pos _⟩

include hlen hD in
theorem keptDigits_take : (keptDigits f D).take D = f.digits.take D := by
  rw [keptDigits, List.take_append_of_le_length (by
    rw [List.length_take, hlen, mantSize_eq]; omega), List.take_take]
  congr 1
  omega

include hlen hD in
theorem keptDigits_getD : (keptDigits f D).getD D 0 = f.digits.getD D 0 := by
  have hl : D < (f.digits.take (D + 1)).length := by
    rw [List.length_take, hlen, mantSize_eq]
    omega
  rw [keptDigits, List.getD_append _ _ _ _ hl, List.getD_eq_getElem?_getD,
    List.getElem?_take_of_lt (Nat.lt_succ_self D), ← List.getD_eq_getElem?_getD]

include hlen hexp hD hsign in
/-- `flpt_round` as `flpt_round_to_integer` calls it. -/
theorem flptRound_at (mode : RoundMode) :
    flptRound mode ((ndig0 (f.mant.headD 0) : Int) + f.exp * 16) f =
      (let g := f.store (keptDigits f D)
      let dig := f.digits.getD D 0
      let cut := { g with mant := g.mant.set D 0 }
      let exact := !((f.digits.drop (D + 1)).any (· ≠ 0)) && (0 : Nat) = dig
      let half := { g with mant := g.mant.set D (dig ||| 2 ^ 15) }
      match mode with
      | .r2zero => .ok cut
      | .r2pinf => if f.sign ≠ 1 ∨ exact then .ok cut else roundUp D 15 half
      | .r2ninf => if f.sign = 1 ∨ exact then .ok cut else roundUp D 15 half
      | .r2near => roundUp D 15 g) := by
  have hs0 : f.sign ≠ 0 := by rcases hsign with h | h <;> rw [h] <;> decide
  have hml : mantSize ≤ f.mant.length := by
    rw [← hlen, Flt.digits, List.length_take]
    omega
  have hstart : (ndig0 (f.mant.headD 0) : Int) - ((ndig0 (f.mant.headD 0) : Int) + f.exp * 16) =
      16 - 16 * (D : Int) := by
    rw [hexp]
    ring
  have hpos : roundPos (1 - (16 - 16 * (D : Int))).toNat (16 - 16 * (D : Int)) 0 = (16, D) := by
    rw [roundPos_spec (by omega), Nat.zero_add]
  have hkept : f.digits.take (D + 1) ++ (f.digits.drop (D + 1)).map (fun _ => 0) =
      keptDigits f D := by
    rw [keptDigits, List.map_const', List.length_drop, hlen]
  have hdig : (f.store (keptDigits f D)).mant.getD D 0 = f.digits.getD D 0 := by
    rw [Flt.store, List.getD_append _ _ _ _ (by
      rw [keptDigits_length hlen hD, mantSize_eq]; omega), keptDigits_getD hlen hD]
  have hnout : ¬ f.mant.length ≤ D := by
    rw [mantSize_eq] at hml
    omega
  have hb15 : (16 - 1 : Int).toNat = 15 := rfl
  have hm16 : bitmask (15 + 1) = 0 := rfl
  have hr15 : bitround 15 = 2 ^ 15 := rfl
  have hsg : (f.store (keptDigits f D)).sign = f.sign := rfl
  cases mode <;> simp only [flptRound, if_neg hs0, hstart, hpos, if_neg hnout, hkept, hdig, hb15,
    hm16, hr15, Nat.and_zero, hsg]

include hlen hb in
/-- The digits before the point, as a number. -/
theorem val_take_point (hD' : D ≤ 8) :
    val fbase (f.digits.take D) = val fbase f.digits / fbase ^ (8 - D) := by
  rw [val_take hb (by rw [hlen, mantSize_eq]; exact hD'), hlen, mantSize_eq]

theorem store_set {X : List Nat} (hX : X.length = mantSize) (hD' : D < 8) (v : Nat) :
    (f.store X).mant.set D v = X.set D v ++ f.mant.drop mantSize := by
  rw [Flt.store, hX, List.set_append_left _ _ (by rw [hX, mantSize_eq]; exact hD')]

include hlen hb hexp hD hsign in
/-- Dropping the digits behind the point. -/
theorem cut_integerIs :
    Flt.IntegerIs { f.store (keptDigits f D) with
      mant := (f.store (keptDigits f D)).mant.set D 0 }
      (f.sign * (val fbase f.digits / fbase ^ (8 - D) : Nat)) := by
  have hkl := keptDigits_length hlen hD
  have hd : Flt.digits { f.store (keptDigits f D) with
      mant := (f.store (keptDigits f D)).mant.set D 0 } = (keptDigits f D).set D 0 := by
    rw [Flt.digits]
    dsimp only
    rw [store_set hkl (by omega), List.take_append_of_le_length (by
      rw [List.length_set, hkl]), List.take_of_length_le (by rw [List.length_set, hkl])]
  refine integerIs_of_digits (D := D) hd (by rw [List.length_set, hkl])
    ((keptDigits_bounded hb).set D fbase_pos) hexp (by omega) hsign ?_
  rw [List.take_set_of_le (le_refl D), keptDigits_take hlen hD, val_take_point hlen hb (by omega)]

include hlen hb hexp hD hsign in
/-- One more before the point. -/
theorem roundUp_integerIs {w : Nat} (hw : w &&& 2 ^ 15 = 2 ^ 15) :
    ∃ g, roundUp D 15 { f.store (keptDigits f D) with
        mant := (f.store (keptDigits f D)).mant.set D w } = .ok g ∧
      g.IntegerIs (f.sign * (val fbase f.digits / fbase ^ (8 - D) + 1 : Nat)) := by
  have hkl := keptDigits_length hlen hD
  have hP : (f.digits.take D).length = D := by rw [List.length_take, hlen, mantSize_eq]; omega
  -- the mantissa: the digits before the point, the rounded digit, zeros, and the rest
  obtain ⟨Z, hZ⟩ : ∃ Z, Z = List.replicate (mantSize - (D + 1)) 0 ++ f.mant.drop mantSize :=
    ⟨_, rfl⟩
  have hset : ∀ v, (keptDigits f D).set D v ++ f.mant.drop mantSize =
      f.digits.take D ++ v :: Z := by
    intro v
    have hk : keptDigits f D = f.digits.take D ++
        (f.digits.getD D 0 :: List.replicate (mantSize - (D + 1)) 0) := by
      have hDl : D < f.digits.length := by rw [hlen, mantSize_eq]; omega
      rw [keptDigits, List.take_add_one, List.getElem?_eq_getElem hDl,
        List.getD_eq_getElem _ _ hDl, Option.toList_some, List.append_assoc]
      rfl
    rw [hk, List.set_append_right _ _ (by rw [hP]), hP, Nat.sub_self, List.set_cons_zero, hZ]
    simp
  have hm : ((f.store (keptDigits f D)).mant.set D w).set D
      (((f.store (keptDigits f D)).mant.set D w).getD D 0 &&& bitmask 15) =
      f.digits.take D ++ 32768 :: Z := by
    rw [store_set hkl (by omega), hset]
    have hget : (f.digits.take D ++ w :: Z).getD D 0 = w := by
      rw [List.getD_append_right _ _ _ _ (by rw [hP]), hP, Nat.sub_self]
      rfl
    rw [hget, show bitmask 15 = 2 ^ 15 from rfl, hw, List.set_append_right _ _ (by rw [hP]), hP,
      Nat.sub_self, List.set_cons_zero]
    rfl
  have htake : (f.digits.take D ++ 32768 :: Z).take (D + 1) = f.digits.take D ++ [32768] := by
    rw [List.take_append, hP, List.take_of_length_le (by rw [hP]; omega),
      show D + 1 - D = 1 by omega]
    rfl
  have hdrop : (f.digits.take D ++ 32768 :: Z).drop (D + 1) = Z := by
    rw [List.drop_append, hP, List.drop_of_length_le (by rw [hP]; omega),
      show D + 1 - D = 1 by omega]
    rfl
  have hcarry : addCarry fbase (bitround 15) (f.digits.take D ++ [32768]) =
      ((addCarry fbase 1 (f.digits.take D)).1 ++ [0], (addCarry fbase 1 (f.digits.take D)).2) := by
    rw [addCarry_append]
    rfl
  have hval := val_addCarry (B := fbase) 1 (f.digits.take D)
  have hlen' := length_addCarry (B := fbase) 1 (f.digits.take D)
  have hb' := bounded_addCarry fbase_pos 1 (f.digits.take D)
  have hlt := val_lt (hb.take D)
  rw [hP] at hval hlen' hlt
  rw [val_take_point hlen hb (by omega)] at hval hlt
  rw [roundUp]
  dsimp only
  rw [hm, htake, hdrop, hcarry]
  dsimp only
  generalize addCarry fbase 1 (f.digits.take D) = r at hval hlen' hb' ⊢
  have hzl : 3 ≤ Z.length := by
    rw [hZ, List.length_append, List.length_replicate, mantSize_eq]
    omega
  have hzero : (f.store (keptDigits f D)).exp = f.exp := rfl
  have hbm : bitmask (15 + 1) = 0 := rfl
  rw [hbm]
  simp only [Nat.and_zero, hzero]
  have hZtake : Z.take (mantSize - (D + 1)) = List.replicate (mantSize - (D + 1)) 0 := by
    rw [hZ, List.take_append_of_le_length (by rw [List.length_replicate]),
      List.take_of_length_le (by rw [List.length_replicate])]
  by_cases hk : r.2 = 0
  · rw [hk] at hval ⊢
    simp only [ne_eq, not_true_eq_false, if_false, Nat.add_zero]
    rw [if_pos (by simp; omega)]
    refine ⟨_, rfl, ?_⟩
    have hd : Flt.digits { f.store (keptDigits f D) with
        mant := (r.1 ++ [0] ++ Z).set D 0, exp := f.exp } =
        (r.1 ++ [0] ++ List.replicate (mantSize - (D + 1)) 0).set D 0 := by
      rw [Flt.digits, ← hZtake]
      dsimp only
      rw [List.take_set]
      congr 1
      rw [List.take_append, List.take_of_length_le (by simp [hlen', mantSize_eq]; omega)]
      simp [hlen']
    rw [Nat.zero_mul, Nat.add_zero] at hval
    refine integerIs_of_digits (D := D) hd ?_ ?_ hexp (by omega) hsign ?_
    · simp [hlen', mantSize_eq]
      omega
    · refine Bounded.set (bounded_append.2 ⟨bounded_append.2 ⟨hb', ?_⟩,
        bounded_replicate_zero fbase_pos _⟩) D fbase_pos
      exact bounded_cons.2 ⟨fbase_pos, bounded_nil⟩
    · rw [List.take_set_of_le (le_refl D), List.append_assoc,
        List.take_append_of_le_length (by rw [hlen']), List.take_of_length_le (by rw [hlen']), hval]
  · -- the integer part was all nines: it becomes a one and zeros
    have hr1 : r.2 = 1 ∧ val fbase r.1 = 0 := by
      have h1 : 1 * fbase ^ D ≤ r.2 * fbase ^ D := Nat.mul_le_mul_right _ (by omega)
      have h2 : r.2 < 2 := by
        by_contra hge
        have : 2 * fbase ^ D ≤ r.2 * fbase ^ D := Nat.mul_le_mul_right _ (by omega)
        have := fbase_pow_pos D
        omega
      have h3 : r.2 = 1 := by omega
      rw [h3] at hval
      exact ⟨h3, by omega⟩
    rw [hr1.1, hr1.2] at hval
    rw [hr1.1]
    have hi : (if f.exp + 1 ≥ ((mantSize : Nat) : Int) then mantSize - 1
        else (f.exp + 1).toNat) = D := by
      rw [if_neg (by rw [mantSize_eq]; omega)]
      omega
    have htk : (r.1 ++ [0] ++ Z).take D = r.1 := by
      rw [List.append_assoc, List.take_append_of_le_length (by rw [hlen']),
        List.take_of_length_le (by rw [hlen'])]
    have hdr : (r.1 ++ [0] ++ Z).drop (D + 1) = Z := by
      rw [List.drop_append, List.drop_of_length_le (by simp [hlen'])]
      simp [hlen']
    simp only [ne_eq, Nat.one_ne_zero, not_false_eq_true, if_true, hi, htk, hdr]
    rw [if_pos (by simp [hlen']; omega)]
    refine ⟨_, rfl, ?_⟩
    have hd : Flt.digits { f.store (keptDigits f D) with
        mant := (1 :: r.1 ++ Z).set (D + 1) 0, exp := f.exp + 1 } =
        (1 :: r.1 ++ List.replicate (mantSize - (D + 1)) 0).set (D + 1) 0 := by
      rw [Flt.digits, ← hZtake]
      dsimp only
      rw [List.take_set]
      congr 1
      rw [List.take_append, List.take_of_length_le (by simp [hlen', mantSize_eq]; omega)]
      simp [hlen']
    rw [Nat.zero_add, Nat.one_mul] at hval
    refine integerIs_of_digits (D := D + 1) hd ?_ ?_ ?_ (by omega) hsign ?_
    · simp [hlen', mantSize_eq]
      omega
    · exact Bounded.set (bounded_append.2 ⟨bounded_cons.2 ⟨by decide, hb'⟩,
        bounded_replicate_zero fbase_pos _⟩) (D + 1) fbase_pos
    · dsimp only
      rw [hexp]
      push_cast
      ring
    · rw [List.take_set_of_le (le_refl _), List.take_append_of_le_length (by simp [hlen']),
        List.take_of_length_le (by simp [hlen']), val_cons, hlen', hr1.2, Nat.one_mul, Nat.add_zero,
        hval]

end Rounding

/-- No digit behind the point is set. -/
theorem exact_iff {f : Flt} {D : Nat} (hlen : f.digits.length = mantSize)
    (hb : Bounded fbase f.digits) (hD : D ≤ 4) :
    ((!((f.digits.drop (D + 1)).any (· ≠ 0)) && decide ((0 : Nat) = f.digits.getD D 0)) = true) ↔
      val fbase f.digits % fbase ^ (8 - D) = 0 := by
  have hDl : D < f.digits.length := by rw [hlen, mantSize_eq]; omega
  have hsplit : f.digits.drop D = f.digits.getD D 0 :: f.digits.drop (D + 1) := by
    rw [List.getD_eq_getElem _ _ hDl, List.drop_eq_getElem_cons hDl]
  have hdrop := val_drop hb D
  rw [hlen, mantSize_eq] at hdrop
  rw [← hdrop, Bool.and_eq_true, Bool.not_eq_true', List.any_eq_false, decide_eq_true_iff]
  constructor
  · rintro ⟨hz, hd⟩
    have hall : f.digits.drop D = List.replicate (f.digits.drop D).length 0 := by
      refine List.eq_replicate_of_mem fun x hx => ?_
      rw [hsplit] at hx
      rcases List.mem_cons.1 hx with rfl | hx
      · exact hd.symm
      · simpa using hz x hx
    rw [hall, val_replicate_zero]
  · intro hz
    have hall := eq_zero_of_val_eq_zero fbase_pos hz
    rw [hsplit] at hall
    exact ⟨fun x hx => by simpa using hall x (List.mem_cons_of_mem _ hx),
      (hall _ (List.mem_cons_self ..)).symm⟩

section ToInteger

variable {f one : Flt} {G : Nat}
variable (hlen : f.digits.length = mantSize) (hb : Bounded fbase f.digits)
variable (hexp : f.exp = 7 - (G : Int)) (hG : 4 ≤ G) (hsign : f.sign = 1 ∨ f.sign = -1)

include hlen hb hexp hG in
/-- Either the digit behind the point exists, or the number is below one. -/
theorem toInteger_cases :
    (0 ≤ (ndig0 (f.mant.headD 0) : Int) + f.exp * 16 ∧
      ∃ D : Nat, D ≤ 4 ∧ f.exp = (D : Int) - 1 ∧ 8 - D = G) ∨
    (¬ 0 ≤ (ndig0 (f.mant.headD 0) : Int) + f.exp * 16 ∧ 8 ≤ G ∧
      val fbase f.digits / fbase ^ G = 0 ∧
      val fbase f.digits % fbase ^ G = val fbase f.digits) := by
  have hhead : f.mant.headD 0 < 65536 := by
    have hd : f.digits.headD 0 = f.mant.headD 0 := by
      rw [Flt.digits]
      cases f.mant <;> rfl
    rw [← hd]
    exact headD_lt fbase_pos hb
  have hnd := ndig0_le hhead
  by_cases h : 0 ≤ (ndig0 (f.mant.headD 0) : Int) + f.exp * 16
  · left
    exact ⟨h, 8 - G, by omega, by omega, by omega⟩
  · right
    have hG8 : 8 ≤ G := by omega
    have hlt : val fbase f.digits < fbase ^ G := by
      have h1 := val_lt hb
      rw [hlen] at h1
      exact lt_of_lt_of_le h1 (Nat.pow_le_pow_right fbase_pos (by rw [mantSize_eq]; exact hG8))
    exact ⟨h, hG8, Nat.div_eq_of_lt hlt, Nat.mod_eq_of_lt hlt⟩

theorem sign_ne_zero {s : Int} (h : s = 1 ∨ s = -1) : s ≠ 0 := by
  rcases h with h | h <;> rw [h] <;> decide

include hlen hb hexp hG hsign in
/-- Towards zero. -/
theorem toInteger_zero :
    ∃ g, flptRoundToInteger .r2zero one f = .ok g ∧
      g.IntegerIs (f.sign * (val fbase f.digits / fbase ^ G : Nat)) := by
  rw [flptRoundToInteger, if_neg (sign_ne_zero hsign)]
  rcases toInteger_cases hlen hb hexp hG with ⟨h, D, hD, he, hDG⟩ | ⟨h, hG8, hdiv, -⟩
  · dsimp only
    rw [if_pos h, flptRound_at hlen he hD hsign, ← hDG]
    exact ⟨_, rfl, cut_integerIs hlen hb he hD hsign⟩
  · dsimp only
    rw [if_neg h]
    refine ⟨f, rfl, hlen, hb, by omega, .inr hsign, ?_⟩
    rw [Flt.intPart, if_pos (by omega), hdiv]

include hlen hb hexp hG hsign in
/-- Towards minus infinity: a negative number with a fraction goes down. -/
theorem toInteger_ninf (hone : one.Is 1) (hnz : 8 ≤ G → val fbase f.digits ≠ 0) :
    ∃ g, flptRoundToInteger .r2ninf one f = .ok g ∧
      g.IntegerIs (f.sign * (val fbase f.digits / fbase ^ G +
        (if f.sign = -1 ∧ val fbase f.digits % fbase ^ G ≠ 0 then 1 else 0) : Nat)) := by
  rw [flptRoundToInteger, if_neg (sign_ne_zero hsign)]
  rcases toInteger_cases hlen hb hexp hG with ⟨h, D, hD, he, hDG⟩ | ⟨h, hG8, hdiv, hmod⟩
  · dsimp only
    rw [if_pos h, flptRound_at hlen he hD hsign, ← hDG]
    have hex := exact_iff hlen hb hD
    dsimp only
    split
    · next hcut =>
        have hz : ¬ (f.sign = -1 ∧ val fbase f.digits % fbase ^ (8 - D) ≠ 0) := by
          rintro ⟨hs, hne⟩
          rcases hcut with h1 | h1
          · rw [h1] at hs
            exact absurd hs (by decide)
          · exact hne (hex.1 h1)
        rw [if_neg hz, Nat.add_zero]
        exact ⟨_, rfl, cut_integerIs hlen hb he hD hsign⟩
    · next hup =>
        have hz : f.sign = -1 ∧ val fbase f.digits % fbase ^ (8 - D) ≠ 0 :=
          ⟨hsign.resolve_left fun h1 => hup (.inl h1), fun h0 => hup (.inr (hex.2 h0))⟩
        rw [if_pos hz]
        refine roundUp_integerIs hlen hb he hD hsign ?_
        apply Nat.eq_of_testBit_eq
        intro i
        rw [Nat.testBit_and, Nat.testBit_or]
        cases (2 ^ 15).testBit i
        · exact Bool.and_false _
        · rw [Bool.or_true, Bool.and_true]
  · dsimp only
    rw [if_neg h, hdiv, hmod]
    rcases hsign with hs | hs
    · rw [hs, if_neg (by decide), if_neg (fun h1 => absurd h1.1 (by decide))]
      have hz := fltZero_is f
      refine ⟨_, rfl, hz.len, hz.bounded, ?_, .inl rfl, ?_⟩
      · rw [show (fltZero f).exp = 0 from rfl]
        decide
      · rw [show (fltZero f).sign = 0 from rfl, Int.zero_mul]
        rfl
    · rw [hs, if_pos rfl, if_pos ⟨rfl, hnz hG8⟩]
      have hc := fltCopy_is hone f
      obtain ⟨n, hn, hne, -, hnorm⟩ := hone.val (by decide)
      refine ⟨_, rfl, hc.len, hc.bounded, ?_, .inr (.inr rfl), ?_⟩
      · change one.exp ≤ 7
        omega
      · have : Flt.intPart { fltCopy one f with sign := -1 } = (fltCopy one f).intPart := rfl
        rw [this, hc.intPart_eq (by decide)]
        rfl

end ToInteger

end Tendra.Ref
