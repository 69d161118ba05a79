import Tendra.Proofs.Trans.M68k
import Tendra.Ref.Trans.M68kLong

/-!
# Multiplication by constants on m68k is exact

What the scan has read of the constant is the number that the first register has been
multiplied by, times a power of two for the zeros and ones still counted, and those ones.
The second register holds the operand all the time, as no shift of the scan uses a
register for its count.
-/

namespace Tendra.Ref.Trans.M68k.Long

open Machine

section

variable {s : State} {op : Shift} {r w : Where} {n : Nat}

@[simp] theorem val_set (s : State) (dest : Where) (v : BitVec 32) :
    (s.set dest v).val = Function.update s.val dest v := rfl

theorem apply_add (op : Shift) (x : BitVec 32) (m n : Nat) :
    op.apply (op.apply x m) n = op.apply x (m + n) := by
  cases op
  · exact (BitVec.shiftLeft_add x m n).symm
  · exact (BitVec.shiftRight_add x m n).symm

theorem apply_zero (op : Shift) (x : BitVec 32) : op.apply x 0 = x := by
  cases op
  · exact BitVec.shiftLeft_zero x
  · exact BitVec.ushiftRight_zero x

theorem shiftLoop_does (op : Shift) (w : Where) (n : Nat) (s : State) :
    ∃ t, machine.Does (shiftLoop op w n) s t ∧
      t.val = Function.update s.val w (op.apply (s.val w) n) := by
  induction n using Nat.strong_induction_on generalizing s with
  | _ n ih =>
      rw [shiftLoop]
      by_cases h : n = 0
      · rw [if_pos h, h, apply_zero, Function.update_eq_self]
        exact ⟨s, Does.nil s, rfl⟩
      · rw [if_neg h]
        have hm : 1 ≤ (if n > 8 then 7 else n) ∧ (if n > 8 then 7 else n) ≤ 8 ∧
            (if n > 8 then 7 else n) ≤ n := by
          split <;> omega
        generalize (if n > 8 then 7 else n) = m at hm ⊢
        obtain ⟨t, ht, hval⟩ := ih (n - m) (by omega) (s.set w (op.apply (s.val w) m))
        have hstep : machine.exec (.shift op m w) s =
            some (s.set w (op.apply (s.val w) m), .step) := if_pos ⟨hm.1, hm.2.1⟩
        refine ⟨t, (does_cons hstep).2 ht, ?_⟩
        rw [hval, val_set, Function.update_self, Function.update_idem, apply_add,
          show m + (n - m) = n from by omega]

/-- The register that holds the count of a shift of a data register. -/
def countReg (r : Where) : Where := if r = d0 then d1 else d0

/-- A shift in place. A count above eight may take a register of its own. -/
theorem shiftAux_does (op : Shift) (d1IsSpecial dontUseD1 : Bool) (hr : r.isDreg = true)
    (hn : n < 32) (s : State) : ∃ t,
    machine.Does (shiftAux op d1IsSpecial dontUseD1 n r r) s t ∧
    t.val = Function.update (if n ≤ 8 ∨ d1IsSpecial ∨ dontUseD1 then s.val
      else Function.update s.val (countReg r) (.ofNat 32 n)) r (op.apply (s.val r) n) := by
  have hne : countReg r ≠ r := by
    rw [countReg]
    split
    · next h => rw [h]; decide
    · next h => exact Ne.symm h
  rw [shiftAux]
  by_cases h0 : n = 0
  · rw [if_pos h0, if_pos (.inl (by omega)), h0, apply_zero]
    exact ⟨_, does_one rfl, rfl⟩
  rw [if_neg h0, Nat.mod_eq_of_lt (show n < 64 from by omega), if_pos hr, if_pos hr]
  by_cases hloop : n ≤ 8 ∨ d1IsSpecial ∨ dontUseD1
  · rw [if_pos hloop, if_pos hloop]
    obtain ⟨t, ht, hval⟩ := shiftLoop_does op r n (s.set r (s.val r))
    refine ⟨_, (does_cons rfl).2 (ht.append (does_one rfl)), ?_⟩
    rw [val_set, Function.update_eq_self, hval, val_set, Function.update_eq_self]
  · rw [if_neg hloop, if_neg hloop]
    have hcount : (BitVec.ofNat 32 n).toNat % 64 = n := by
      rw [BitVec.toNat_ofNat]
      omega
    refine ⟨_, (does_cons rfl).2 ((does_cons rfl).2 (does_one rfl)), ?_⟩
    rw [← countReg]
    simp only [val_set, Function.update_idem, Function.update_self, Function.update_of_ne hne,
      Function.update_of_ne hne.symm, hcount]

end

section

variable {s : State} {r1 r2 : Where} {p q : Nat}

theorem asl_apply (x : BitVec 32) (n : Nat) : Shift.asl.apply x n = x * 2 ^ n := by
  have hpow : (2 : BitVec 32) ^ n = .ofNat 32 (2 ^ n) := (Nat.cast_pow 2 n).symm
  apply BitVec.eq_of_toNat_eq
  rw [Shift.apply, BitVec.toNat_shiftLeft, Nat.shiftLeft_eq, hpow, BitVec.toNat_mul,
    BitVec.toNat_ofNat, Nat.mul_mod_mod]

/-- The list leaves a value in a register, and the other places as they are. -/
def Sets (c : List Ins) (r : Where) (s : State) (x : BitVec 32) : Prop :=
  ∃ t, machine.Does c s t ∧ t.val r = x ∧ ∀ w, w ≠ r → t.val w = s.val w

variable {c d : List Ins} {x y : BitVec 32}

theorem Sets.append (hc : Sets c r1 s x)
    (hd : ∀ t : State, t.val r1 = x → (∀ w, w ≠ r1 → t.val w = s.val w) → Sets d r1 t y) :
    Sets (c ++ d) r1 s y := by
  obtain ⟨t, ht, hx, hw⟩ := hc
  obtain ⟨u, hu, hy, hw'⟩ := hd t hx hw
  exact ⟨u, ht.append hu, hy, fun w hne => (hw' w hne).trans (hw w hne)⟩

theorem sets_nil (s : State) : Sets [] r1 s (s.val r1) := ⟨s, Does.nil s, rfl, fun _ _ => rfl⟩

theorem sets_addl (s : State) (w : Where) : Sets [.addl w r1] r1 s (s.val r1 + s.val w) :=
  ⟨_, does_one rfl, Function.update_self .., fun _ hw => Function.update_of_ne hw ..⟩

theorem sets_subl (s : State) (w : Where) : Sets [.subl w r1] r1 s (s.val r1 - s.val w) :=
  ⟨_, does_one rfl, Function.update_self .., fun _ hw => Function.update_of_ne hw ..⟩

/-- A multiplication by a power of two. A count register is used only with D1 free. -/
theorem multPower2_does (d1IsSpecial d1Used : Bool) (hr : r1.isDreg = true) (hp : p < 32)
    (s : State) : ∃ t, machine.Does (multPower2 d1IsSpecial p r1 d1Used) s t ∧
      t.val r1 = s.val r1 * 2 ^ p ∧ (d1Used = true → ∀ w, w ≠ r1 → t.val w = s.val w) := by
  match p with
  | 0 => exact ⟨s, Does.nil s, by simp, fun _ _ _ => rfl⟩
  | 1 =>
      refine ⟨_, does_one rfl, ?_, fun _ w hw => Function.update_of_ne hw _ _⟩
      rw [val_set, Function.update_self]
      ring
  | p + 2 =>
      obtain ⟨t, ht, hval⟩ := shiftAux_does .asl d1IsSpecial d1Used hr hp s
      refine ⟨t, ht, ?_, fun hd w hw => ?_⟩
      · rw [hval, Function.update_self, asl_apply]
      · rw [hval, Function.update_of_ne hw, if_pos (.inr (.inr hd))]

theorem sets_multPower2 (d1IsSpecial : Bool) (hr : r1.isDreg = true) (hp : p < 32) (s : State) :
    Sets (multPower2 d1IsSpecial p r1 true) r1 s (s.val r1 * 2 ^ p) := by
  obtain ⟨t, ht, hx, hw⟩ := multPower2_does d1IsSpecial true hr hp s
  exact ⟨t, ht, hx, hw rfl⟩

/-- The first batch multiplies by a number of consecutive ones. -/
theorem multUtility_first (d1IsSpecial : Bool) (hr : r1.isDreg = true) (hne : r2 ≠ r1)
    (h0 : p ≠ 0) (hp : p < 32) (q : Nat) (s : State) (heq : s.val r2 = s.val r1) :
    Sets (multUtility d1IsSpecial p q r1 r2 true true) r1 s (s.val r1 * (2 ^ p - 1)) := by
  match p with
  | 1 =>
      rw [show s.val r1 * (2 ^ 1 - 1) = s.val r1 from by ring]
      exact sets_nil s
  | 2 =>
      refine (sets_addl s r1).append (d := [_]) fun t hx hw => ?_
      rw [show s.val r1 * (2 ^ 2 - 1) = t.val r1 + t.val r2 from by rw [hx, hw r2 hne, heq]; ring]
      exact sets_addl t r2
  | p + 3 =>
      refine (sets_multPower2 d1IsSpecial hr hp s).append fun t hx hw => ?_
      rw [show s.val r1 * (2 ^ (p + 3) - 1) = t.val r1 - t.val r2 from by
        rw [hx, hw r2 hne, heq]; ring]
      exact sets_subl t r2

/-- A later batch. -/
theorem multUtility_next (d1IsSpecial : Bool) (hr : r1.isDreg = true) (hne : r2 ≠ r1)
    (hp : p + q < 32) (s : State) :
    Sets (multUtility d1IsSpecial p q r1 r2 true false) r1 s
      (s.val r1 * 2 ^ (q + p) + s.val r2 * (2 ^ p - 1)) := by
  match p with
  | 0 =>
      rw [show s.val r1 * 2 ^ (q + 0) + s.val r2 * (2 ^ 0 - 1) = s.val r1 * 2 ^ q from by ring]
      exact sets_multPower2 d1IsSpecial hr (by omega) s
  | 1 =>
      refine (sets_multPower2 d1IsSpecial hr (by omega) s).append fun t hx hw => ?_
      rw [show s.val r1 * 2 ^ (q + 1) + s.val r2 * (2 ^ 1 - 1) = t.val r1 + t.val r2 from by
        rw [hx, hw r2 hne]; ring]
      exact sets_addl t r2
  | 2 =>
      refine (sets_multPower2 d1IsSpecial hr (by omega) s).append fun t hx hw => ?_
      refine (sets_addl t r2).append (d := [_, _]) fun u hu hw' => ?_
      refine (sets_addl u r1).append (d := [_]) fun v hv hw'' => ?_
      rw [show s.val r1 * 2 ^ (q + 2) + s.val r2 * (2 ^ 2 - 1) = v.val r1 + v.val r2 from by
        rw [hv, hw'' r2 hne, hu, hw' r2 hne, hx, hw r2 hne]; ring]
      exact sets_addl v r2
  | p + 3 =>
      have hones : Sets (multPower2 d1IsSpecial q r1 true ++ [.addl r2 r1]) r1 s
          (s.val r1 * 2 ^ q + s.val r2) := by
        refine (sets_multPower2 d1IsSpecial hr (by omega) s).append fun t hx hw => ?_
        rw [← hx, ← hw r2 hne]
        exact sets_addl t r2
      have hshift : Sets (multPower2 d1IsSpecial q r1 true ++ [.addl r2 r1] ++
          multPower2 d1IsSpecial (p + 3) r1 true) r1 s
          ((s.val r1 * 2 ^ q + s.val r2) * 2 ^ (p + 3)) := by
        refine hones.append fun t hx _ => ?_
        rw [← hx]
        exact sets_multPower2 d1IsSpecial hr (by omega) t
      refine hshift.append fun v hv hw => ?_
      rw [show s.val r1 * 2 ^ (q + (p + 3)) + s.val r2 * (2 ^ (p + 3) - 1) =
        v.val r1 - v.val r2 from by rw [hv, hw r2 hne]; ring]
      exact sets_subl v r2

/-- What the scan has made of the highest bits of `n`, the number `m`, with `p` ones and `q` zeros
still counted. -/
def Scanned (x : BitVec 32) (m : Nat) (r1 r2 : Where) (p q : Nat) (s : State)
    (started firstTime : Bool) : Prop :=
  s.val r2 = x ∧
  if firstTime then q = 0 ∧ (started = true ↔ p ≠ 0) ∧ m + 1 = 2 ^ p ∧ s.val r1 = x
  else started = true ∧ x * m = s.val r1 * 2 ^ (q + p) + x * (2 ^ p - 1)

variable {m : Nat} {started firstTime : Bool}

/-- The ones and zeros that are counted go into the first register. -/
theorem Scanned.utility (h : Scanned x m r1 r2 p q s started firstTime) (d1IsSpecial : Bool)
    (hr : r1.isDreg = true) (hne : r2 ≠ r1) (hp : p + q < 32) (h0 : firstTime = true → p ≠ 0) :
    Sets (multUtility d1IsSpecial p q r1 r2 true firstTime) r1 s (x * m) := by
  obtain ⟨hx, h⟩ := h
  cases firstTime with
  | true =>
      obtain ⟨hq, _, hm, hval⟩ := h
      have hm' : ((m : BitVec 32) + 1) = 2 ^ p := by
        rw [← Nat.cast_one, ← Nat.cast_add, hm, Nat.cast_pow, Nat.cast_ofNat]
      rw [show x * (m : BitVec 32) = s.val r1 * (2 ^ p - 1) from by rw [← hm', hval]; ring]
      exact multUtility_first d1IsSpecial hr hne (h0 rfl) (by omega) q s (hx.trans hval.symm)
  | false =>
      rw [h.2, ← hx]
      exact multUtility_next d1IsSpecial hr hne hp s

theorem Scanned.set (h : Scanned x m r1 r2 p q s started firstTime) :
    Scanned x (2 * m + 1) r1 r2 (p + 1) q s true firstTime := by
  obtain ⟨hx, h⟩ := h
  refine ⟨hx, ?_⟩
  cases firstTime with
  | true =>
      obtain ⟨hq, _, hm, hval⟩ := h
      refine ⟨hq, by simp, ?_, hval⟩
      rw [Nat.pow_succ, ← hm]
      omega
  | false =>
      refine ⟨rfl, ?_⟩
      rw [Nat.cast_add, Nat.cast_mul, Nat.cast_ofNat, Nat.cast_one,
        show x * (2 * (m : BitVec 32) + 1) = 2 * (x * m) + x from by ring, h.2]
      ring

theorem Scanned.reset (h : Scanned x m r1 r2 0 q s started firstTime) :
    Scanned x (2 * m) r1 r2 0 (if started then q + 1 else q) s started firstTime := by
  obtain ⟨hx, h⟩ := h
  refine ⟨hx, ?_⟩
  cases firstTime with
  | true =>
      obtain ⟨hq, hs, hm, hval⟩ := h
      have hs : started = false := by simpa using hs
      rw [hs]
      exact ⟨hq, by simp, by omega, hval⟩
  | false =>
      refine ⟨h.1, ?_⟩
      rw [if_pos h.1, Nat.cast_mul, Nat.cast_ofNat,
        show x * (2 * (m : BitVec 32)) = 2 * (x * m) from by ring, h.2]
      ring

/-- A zero after ones, that have gone into the first register. -/
theorem Scanned.resetOnes (h : Scanned x m r1 r2 p q s started firstTime) (h0 : p ≠ 0)
    {t : State} (ht : t.val r1 = x * m) (h2 : t.val r2 = s.val r2) :
    Scanned x (2 * m) r1 r2 0 (if started then 1 else 0) t started false := by
  have hs : started = true := by
    cases firstTime with
    | true => exact h.2.2.1.2 h0
    | false => exact h.2.1
  refine ⟨h2.trans h.1, hs, ?_⟩
  rw [if_pos hs, ht, Nat.cast_mul, Nat.cast_ofNat]
  ring

theorem twoPow_and_ne_zero (n : BitVec 64) {k : Nat} (hk : k < 64) :
    BitVec.twoPow 64 k &&& n ≠ 0 ↔ n.toNat / 2 ^ k % 2 = 1 := by
  rw [BitVec.and_comm, BitVec.and_twoPow, ← BitVec.testBit_toNat, Nat.testBit_eq_decide_div_mod_eq]
  have hne : BitVec.twoPow 64 k ≠ 0 := fun h => by
    have hval := congrArg BitVec.toNat h
    rw [BitVec.toNat_twoPow_of_lt hk] at hval
    exact (Nat.two_pow_pos k).ne' hval
  by_cases h : n.toNat / 2 ^ k % 2 = 1
  · simpa [h] using hne
  · simp [h]

/-- The scan multiplies by the number whose highest bits it has read. -/
theorem scanLoop_sets (d1IsSpecial : Bool) (hr : r1.isDreg = true) (hne : r2 ≠ r1) {n : BitVec 64}
    (hn : n ≠ 0) : ∀ (k : Nat) (s : State) (started firstTime : Bool) (p q : Nat),
    p + q + k < 32 → Scanned x (n.toNat / 2 ^ k) r1 r2 p q s started firstTime →
    Sets (scanLoop d1IsSpecial n r1 r2 k started firstTime p q) r1 s (x * n.toNat)
  | 0, s, started, firstTime, p, q, hk, h => by
      rw [Nat.pow_zero, Nat.div_one] at h
      rw [scanLoop]
      by_cases hpq : p ≠ 0 ∨ q ≠ 0
      · rw [if_pos hpq]
        refine h.utility d1IsSpecial hr hne (by omega) fun hfirst => ?_
        obtain ⟨_, h⟩ := h
        rw [if_pos hfirst] at h
        exact hpq.resolve_right (not_not.2 h.1)
      · rw [if_neg hpq]
        obtain ⟨rfl, rfl⟩ : p = 0 ∧ q = 0 := by simpa using hpq
        obtain ⟨_, h⟩ := h
        cases firstTime with
        | true => exact absurd h.2.2.1 (by simpa [← BitVec.toNat_inj] using hn)
        | false =>
            rw [h.2, show s.val r1 * 2 ^ (0 + 0) + x * (2 ^ 0 - 1) = s.val r1 from by ring]
            exact sets_nil s
  | k + 1, s, started, firstTime, p, q, hk, h => by
      have hdiv : n.toNat / 2 ^ (k + 1) = n.toNat / 2 ^ k / 2 := by
        rw [Nat.pow_succ, Nat.div_div_eq_div_mul]
      rw [hdiv] at h
      rw [scanLoop]
      by_cases hbit : n.toNat / 2 ^ k % 2 = 1
      · rw [if_pos ((twoPow_and_ne_zero n (by omega)).2 hbit)]
        refine scanLoop_sets d1IsSpecial hr hne hn k s true firstTime (p + 1) q (by omega) ?_
        rw [show n.toNat / 2 ^ k = 2 * (n.toNat / 2 ^ k / 2) + 1 from by omega]
        exact h.set
      · have hdouble : n.toNat / 2 ^ k = 2 * (n.toNat / 2 ^ k / 2) := by omega
        rw [if_neg fun h => hbit ((twoPow_and_ne_zero n (by omega)).1 h)]
        by_cases h0 : p = 0
        · rw [if_neg (not_not.2 h0)]
          subst h0
          refine scanLoop_sets d1IsSpecial hr hne hn k s _ _ 0 _ (by split <;> omega) ?_
          rw [hdouble]
          exact h.reset
        · rw [if_pos h0]
          refine (h.utility d1IsSpecial hr hne (by omega) fun _ => h0).append fun t ht hw => ?_
          refine scanLoop_sets d1IsSpecial hr hne hn k t _ _ 0 _ (by split <;> omega) ?_
          rw [hdouble]
          exact h.resetOnes h0 ht (hw r2 hne)

end

section

variable {a1 dest : Where} {s : State}

/-- The sequence multiplies the operand by a number. -/
def Multiplies (c : List Ins) (a1 dest : Where) (x : BitVec 32) : Prop :=
  ∀ s, ∃ t, machine.Does c s t ∧ t.val dest = s.val a1 * x

theorem multClever_does (tmp : Nat) (a1 dest : Where) {sf : Nat} (hsf : sf ∈ [1, 2, 4, 8])
    (d : Bool) :
    Multiplies (multClever tmp a1 dest sf d) a1 dest ((1 + .ofNat 32 sf) * if d then 2 else 1) := by
  intro s
  rw [multClever]
  generalize cleverReg tmp dest = r
  have hlea : ∀ t : State, machine.exec (.lea r sf) t =
      some (t.set (.areg r) (t.val (.areg r) + .ofNat 32 sf * t.val (.areg r)), .step) := fun t =>
    if_pos hsf
  cases d with
  | false =>
      refine ⟨_, (does_cons (by rfl)).2 ((does_cons (hlea _)).2 (does_one (by rfl))), ?_⟩
      simp only [val_set, Function.update_self]
      rw [if_neg Bool.false_ne_true]
      ring
  | true =>
      refine ⟨_, (does_cons (by rfl)).2 ((does_cons (hlea _)).2 ((does_cons (by rfl)).2
        (does_one (by rfl)))), ?_⟩
      simp only [val_set, Function.update_self]
      rw [if_pos trivial]
      ring

theorem multReg1_isDreg (dest : Where) : (multReg1 dest).isDreg = true := by
  rw [multReg1, canHold]
  split
  · next h => exact (Bool.and_eq_true_iff.1 h).1
  · rfl

theorem multReg2_ne (a1 dest : Where) : multReg2 a1 dest ≠ multReg1 dest := by
  rw [multReg2]
  by_cases h : dontMove a1 dest
  · rw [if_pos h]
    rw [dontMove, Bool.and_eq_true_iff, decide_eq_true_eq] at h
    exact h.2
  · rw [if_neg h, multReg1]
    split
    · next hc =>
        rw [canHold, Bool.and_eq_true_iff, decide_eq_true_eq] at hc
        exact hc.2.symm
    · decide

theorem toNat_abs (x : BitVec 32) :
    (BitVec.ofInt 64 (if x.toInt < 0 then -x.toInt else x.toInt)).toNat = x.toInt.natAbs := by
  have hle := x.le_toInt
  have hlt := x.toInt_lt
  rw [BitVec.toNat_ofInt]
  split <;> omega

/-- The sign that the constant loses is given back at the end. -/
theorem mul_natAbs (x y : BitVec 32) :
    (if y.toInt < 0 then -(x * (y.toInt.natAbs : BitVec 32)) else x * y.toInt.natAbs) = x * y := by
  have hy : ((y.toInt : Int) : BitVec 32) = y := BitVec.ofInt_toInt
  split
  · next h =>
      rw [← Int.cast_natCast, Int.natCast_natAbs, abs_of_neg h, Int.cast_neg, hy]
      ring
  · next h =>
      rw [← Int.cast_natCast, Int.natCast_natAbs, abs_of_nonneg (not_lt.1 h), hy]

variable (dest) in
/-- The last instruction of the sequences, which gives the product its sign. -/
theorem result_does {reg : Where} {x y : BitVec 32} (h : s.val reg = x * y.toInt.natAbs) :
    ∃ t, machine.Does [if y.toInt < 0 then .negate reg dest else .move reg dest] s t ∧
      t.val dest = x * y := by
  rw [← mul_natAbs x y]
  split
  · next hneg =>
      refine ⟨_, does_one rfl, ?_⟩
      rw [val_set, Function.update_self, h]
  · next hneg =>
      refine ⟨_, does_one rfl, ?_⟩
      rw [val_set, Function.update_self, h]

/-- A product with a power of two. -/
theorem multPower2_multiplies (d1IsSpecial d1Used : Bool) {reg : Where} {p : Nat} {y : BitVec 32}
    (hr : reg.isDreg = true) (hp : y.toInt.natAbs = 2 ^ p) (dest : Where) (s : State) :
    ∃ t, machine.Does (multPower2 d1IsSpecial p reg d1Used ++
      [if y.toInt < 0 then .negate reg dest else .move reg dest]) s t ∧
      t.val dest = s.val reg * y := by
  have hp32 : p < 32 := by
    have hle := y.le_toInt
    have hlt := y.toInt_lt
    refine (Nat.pow_lt_pow_iff_right (show 1 < 2 from by omega)).1 ?_
    omega
  obtain ⟨t, ht, hval, _⟩ := multPower2_does d1IsSpecial d1Used hr hp32 s
  have hval : t.val reg = s.val reg * y.toInt.natAbs := by
    rw [hval, hp, Nat.cast_pow, Nat.cast_ofNat]
  obtain ⟨u, hu, hres⟩ := result_does dest hval
  exact ⟨u, ht.append hu, hres⟩

/-- Both registers hold the operand when the scan starts. -/
theorem moves_does (a1 dest : Where) (s : State) : ∃ t,
    machine.Does (.move a1 (multReg1 dest) ::
      (if dontMove a1 dest then [] else [.move (multReg1 dest) (multReg2 a1 dest)])) s t ∧
    t.val (multReg1 dest) = s.val a1 ∧ t.val (multReg2 a1 dest) = s.val a1 := by
  have hne := multReg2_ne a1 dest
  by_cases h : dontMove a1 dest
  · have hreg : multReg2 a1 dest = a1 := if_pos h
    rw [hreg] at hne ⊢
    rw [if_pos h]
    refine ⟨_, does_one rfl, ?_, ?_⟩
    · rw [val_set, Function.update_self]
    · rw [val_set, Function.update_of_ne hne]
  · rw [if_neg h]
    refine ⟨_, (does_cons rfl).2 (does_one rfl), ?_, ?_⟩
    · rw [val_set, Function.update_of_ne hne.symm, val_set, Function.update_self]
    · rw [val_set, Function.update_self, val_set, Function.update_self]

theorem multGeneral_does (d1IsSpecial lastUse : Bool) {y : BitVec 32} (hy : y.toInt ≠ 0)
    (a1 dest : Where) : ∃ c, multGeneral d1IsSpecial lastUse y.toInt a1 dest = some c ∧
      Multiplies c a1 dest y := by
  have habs := toNat_abs y
  rw [multGeneral]
  generalize BitVec.ofInt 64 (if y.toInt < 0 then -y.toInt else y.toInt) = n at habs ⊢
  have hn : n ≠ 0 := fun h => by
    rw [h] at habs
    exact hy (Int.natAbs_eq_zero.1 habs.symm)
  by_cases hpow : isPow2 n
  · rw [if_pos hpow]
    obtain ⟨p, hp, rfl⟩ := eq_twoPow hn hpow
    rw [M68k.bitOne_twoPow hp, Option.map_some]
    rw [BitVec.toNat_twoPow_of_lt hp] at habs
    refine ⟨_, rfl, fun s => ?_⟩
    split
    · next h => exact multPower2_multiplies d1IsSpecial false h.1 habs.symm dest s
    · obtain ⟨t, ht, hval⟩ := multPower2_multiplies d1IsSpecial
        (!dontMove a1 dest && !canHold dest) (multReg1_isDreg dest) habs.symm dest
        (s.set (multReg1 dest) (s.val a1))
      refine ⟨t, (does_cons rfl).2 ht, ?_⟩
      rw [hval, val_set, Function.update_self]
  · rw [if_neg hpow]
    refine ⟨_, rfl, fun s => ?_⟩
    obtain ⟨t, ht, h1, h2⟩ := moves_does a1 dest s
    -- the sign bit of the number is zero, as 2^31 is a power of two
    have hsmall : n.toNat / 2 ^ 31 = 0 := by
      have hle := y.le_toInt
      have hlt := y.toInt_lt
      have hne : n.toNat ≠ 2 ^ 31 := fun h => hpow <| by
        rw [show n = BitVec.twoPow 64 31 from BitVec.eq_of_toNat_eq h]
        exact isPow2_twoPow (by omega)
      omega
    have hscan : Scanned (s.val a1) (n.toNat / 2 ^ 31) (multReg1 dest) (multReg2 a1 dest) 0 0 t
        false true := by
      refine ⟨h2, rfl, by simp, ?_, h1⟩
      rw [hsmall]
      rfl
    obtain ⟨u, hu, hval, _⟩ := scanLoop_sets d1IsSpecial (multReg1_isDreg dest)
      (multReg2_ne a1 dest) hn 31 t false true 0 0 (by omega) hscan
    rw [habs] at hval
    obtain ⟨v, hv, hres⟩ := result_does dest hval
    exact ⟨v, (ht.append hu).append hv, hres⟩

end

/-- The product that `mult_const` leaves is right for all constants, operands and destinations. -/
theorem multConst_exact (d1IsSpecial lastUse : Bool) (tmp : Nat) (a1 : Where) (a2 : BitVec 32)
    (dest : Where) : ∃ c, multConst d1IsSpecial lastUse tmp a1 a2 dest = some c ∧
      ∀ s : State, ∃ t, machine.Does c s t ∧ t.val dest = s.val a1 * a2 := by
  have hy : ((a2.toInt : Int) : BitVec 32) = a2 := BitVec.ofInt_toInt
  rw [multConst]
  split
  · next h =>
      refine ⟨_, rfl, fun s => ⟨_, does_one rfl, ?_⟩⟩
      rw [val_set, Function.update_self, ← hy, h, Int.cast_zero, mul_zero]
  · next h =>
      refine ⟨_, rfl, fun s => ⟨_, does_one rfl, ?_⟩⟩
      rw [val_set, Function.update_self, ← hy, h, Int.cast_one, mul_one]
  · next h =>
      refine ⟨_, rfl, fun s => ⟨_, does_one rfl, ?_⟩⟩
      rw [val_set, Function.update_self, ← hy, h]
      ring
  · next h =>
      refine ⟨_, rfl, fun s => ⟨_, does_one rfl, ?_⟩⟩
      rw [val_set, Function.update_self, ← hy, h]
      ring
  · next h =>
      have hc := multClever_does tmp a1 dest (show 4 ∈ [1, 2, 4, 8] from by decide) false
      exact ⟨_, rfl, by rwa [← hy, h]⟩
  · next h =>
      have hc := multClever_does tmp a1 dest (show 8 ∈ [1, 2, 4, 8] from by decide) false
      exact ⟨_, rfl, by rwa [← hy, h]⟩
  · next h =>
      have hc := multClever_does tmp a1 dest (show 4 ∈ [1, 2, 4, 8] from by decide) true
      exact ⟨_, rfl, by rwa [← hy, h]⟩
  · next h =>
      have hc := multClever_does tmp a1 dest (show 8 ∈ [1, 2, 4, 8] from by decide) true
      exact ⟨_, rfl, by rwa [← hy, h]⟩
  · next h0 _ _ _ _ _ _ _ => exact multGeneral_does d1IsSpecial lastUse h0 a1 dest

end Tendra.Ref.Trans.M68k.Long
