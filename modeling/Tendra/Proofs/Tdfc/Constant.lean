import Mathlib.Tactic.Linarith
import Tendra.Proofs.Tdfc.Digits

/-!
# Integer constants compute exactly

A canonical constant stands for one integer, and every operation of `binary_nat_op`
gives the canonical constant of the exact result, or none. The one exception is a
shift to the right by 2^32 or more: `get_nat_value` stops at 2^32 - 1, which `<<`
refuses and `>>` takes as the count.
-/

namespace Tendra.Ref.Tdfc

namespace NatConst

/-- A constant without a sign. -/
def Magnitude : NatConst → Prop
  | .small v => v < 65536
  | .large p => 2 ≤ p.length ∧ AllDigits p ∧ p.getLastD 0 ≠ 0
  | .neg _ => False

/-- A simple constant in the form in which the front end keeps it. -/
def Canonical : NatConst → Prop
  | .neg n => n.Magnitude ∧ n ≠ .small 0
  | n => n.Magnitude

instance : DecidablePred Magnitude := fun n =>
  match n with
  | .small v => inferInstanceAs (Decidable (v < 65536))
  | .large p => inferInstanceAs (Decidable (2 ≤ p.length ∧ AllDigits p ∧ p.getLastD 0 ≠ 0))
  | .neg _ => inferInstanceAs (Decidable False)

instance : DecidablePred Canonical := fun n =>
  match n with
  | .neg n => inferInstanceAs (Decidable (n.Magnitude ∧ n ≠ .small 0))
  | .small v => inferInstanceAs (Decidable (Magnitude (.small v)))
  | .large p => inferInstanceAs (Decidable (Magnitude (.large p)))

/-- The number that a constant without a sign stands for. -/
@[grind =] def abs : NatConst → Nat
  | .small v => v
  | .large p => number p
  | .neg _ => 0

/-- The integer that a constant stands for. -/
def toInt : NatConst → Int
  | .neg n => -n.abs
  | n => n.abs

/-- The constant is the form of the natural number. -/
def Denotes (n : NatConst) (v : Nat) : Prop := n.Magnitude ∧ n.abs = v

/-- The constant is the form of the integer. -/
def Means (n : NatConst) (z : Int) : Prop := n.Canonical ∧ n.toInt = z

theorem Magnitude.canonical {n : NatConst} (h : n.Magnitude) : n.Canonical := by
  cases n with
  | small v => exact h
  | large p => exact h
  | neg n => exact h.elim

theorem Magnitude.toInt_eq {n : NatConst} (h : n.Magnitude) : n.toInt = n.abs := by
  cases n with
  | small v => rfl
  | large p => rfl
  | neg n => exact h.elim

theorem Denotes.means {n : NatConst} {v : Nat} (h : n.Denotes v) : n.Means v :=
  ⟨h.1.canonical, by rw [h.1.toInt_eq, h.2]⟩

theorem denotes_small {v : Nat} (h : v < 65536) : Denotes (.small v) v := ⟨h, rfl⟩

/-- A number with a leading digit is at least its power of the base. -/
theorem number_ge {p : List Nat} (hp : 1 ≤ p.length) (hlast : p.getLastD 0 ≠ 0) :
    65536 ^ (p.length - 1) ≤ number p := by
  obtain ⟨front, d, rfl⟩ : ∃ front d, p = front ++ [d] :=
    ⟨_, _, (List.dropLast_concat_getLast (List.length_pos_iff.1 hp)).symm⟩
  have hd : 1 ≤ d := by
    rw [List.getLastD_concat] at hlast
    omega
  rw [List.length_append, List.length_singleton, Nat.add_sub_cancel, number_append,
    number_singleton]
  exact Nat.le_add_left_of_le (Nat.le_mul_of_pos_right _ hd)

theorem large_ge {p : List Nat} (h : Magnitude (.large p)) : 65536 ≤ number p := by
  refine Nat.le_trans ?_ (number_ge (Nat.le_of_succ_le h.1) h.2.2)
  exact Nat.le_self_pow (Nat.sub_ne_zero_of_lt h.1) 65536

theorem Magnitude.abs_eq_zero {n : NatConst} (h : n.Magnitude) : n.abs = 0 ↔ n = .small 0 := by
  cases n with
  | small v => simp [abs]
  | large p =>
      have hge := large_ge h
      simp only [abs, reduceCtorEq, iff_false]
      omega
  | neg n => exact h.elim

end NatConst

variable {a b n res : NatConst} {o : Operand} {tag : NatOp} {p : List Nat} {v : Nat}

open NatConst

/-! ## Building constants -/

theorem makeSmallNat_spec (h : v < 65536) : (makeSmallNat v).Denotes v :=
  denotes_small h

theorem small_spec (h : v < 65536) :
    (if v < smallNatSize then makeSmallNat v else .small v).Denotes v := by
  split
  · exact makeSmallNat_spec h
  · exact denotes_small h

theorem makeNatValue_spec (h : v < 2 ^ 32) : (makeNatValue v).Denotes v := by
  have hlo : loHalf v < 65536 := by
    rw [loHalf_eq]
    exact Nat.mod_lt _ (by decide)
  have hhi : hiHalf v < 65536 := by
    rw [hiHalf_eq]
    exact Nat.mod_lt _ (by decide)
  have hv : loHalf v + 65536 * hiHalf v = v := by
    rw [loHalf_eq, hiHalf_of_lt h]
    omega
  rw [makeNatValue]
  split
  · rename_i hne
    refine ⟨⟨Nat.le_refl 2, allDigits_cons.2 ⟨hlo, allDigits_cons.2 ⟨hhi, allDigits_nil⟩⟩, hne⟩, ?_⟩
    simpa [NatConst.abs, number, Nat.ofDigits_cons] using hv
  · rename_i hz
    rw [Decidable.not_not.1 hz, Nat.mul_zero, Nat.add_zero] at hv
    rw [hv] at hlo ⊢
    exact small_spec hlo

/-- The scan finds the last digit that is not zero. -/
theorem lastNonzero_spec (p : List Nat) : ∀ q r : Nat,
    ((∀ d ∈ p, d = 0) ∧ lastNonzero q r p = r) ∨
      ∃ front d back, p = front ++ d :: back ∧ d ≠ 0 ∧ (∀ x ∈ back, x = 0) ∧
        lastNonzero q r p = q + front.length := by
  induction p with
  | nil => exact fun q r => .inl ⟨fun d hd => absurd hd List.not_mem_nil, rfl⟩
  | cons v p ih =>
      intro q r
      rw [lastNonzero]
      obtain ⟨hz, heq⟩ | ⟨front, d, back, rfl, hd, hback, heq⟩ :=
          ih (q + 1) (if v ≠ 0 then q else r)
      · by_cases hv : v = 0
        · refine .inl ⟨List.forall_mem_cons.2 ⟨hv, hz⟩, ?_⟩
          rw [heq, if_neg (not_not_intro hv)]
        · refine .inr ⟨[], v, p, rfl, hv, hz, ?_⟩
          rw [heq, if_pos hv]
          rfl
      · refine .inr ⟨v :: front, d, back, rfl, hd, hback, ?_⟩
        rw [heq, List.length_cons]
        omega

theorem number_zeros (h : ∀ d ∈ p, d = 0) : number p = 0 := by
  rw [List.eq_replicate_of_mem h]
  exact Nat.ofDigits_replicate_zero

/-- Leading zeros do not count. -/
theorem number_strip {back : List Nat} (front : List Nat) (h : ∀ d ∈ back, d = 0) :
    number (front ++ back) = number front := by
  rw [number_append, number_zeros h, Nat.mul_zero, Nat.add_zero]

theorem makeLargeNat_spec (h : AllDigits p) : (makeLargeNat p).Denotes (number p) := by
  rw [makeLargeNat]
  obtain ⟨hz, heq⟩ | ⟨front, d, back, rfl, hd, hback, heq⟩ := lastNonzero_spec p 0 0
  · have hhead : p.headD 0 = 0 := by
      cases p with
      | nil => rfl
      | cons v p => exact hz v List.mem_cons_self
    rw [heq, if_pos rfl, hhead, number_zeros hz]
    exact small_spec (by decide)
  · have hsplit : front ++ d :: back = (front ++ [d]) ++ back := by simp
    rw [heq, Nat.zero_add, hsplit, number_strip _ hback]
    cases front with
    | nil =>
        rw [List.length_nil, if_pos rfl]
        simpa [number_singleton] using small_spec (h d (by simp))
    | cons v front =>
        have hne : (v :: front).length ≠ 0 := Nat.succ_ne_zero _
        rw [if_neg hne]
        have htake : ((v :: front) ++ [d] ++ back).take ((v :: front).length + 1) =
            (v :: front) ++ [d] :=
          List.take_left' (by simp)
        rw [htake]
        refine ⟨⟨by simp, fun x hx => h x ?_, ?_⟩, rfl⟩
        · rw [hsplit]
          exact List.mem_append_left _ hx
        · rw [List.getLastD_concat]
          exact hd

/-- Values of three digits and more are cut off. -/
theorem getNatValue_spec (h : n.Magnitude) : getNatValue n = min n.abs (2 ^ 32 - 1) := by
  have hmax : extendedMax = 2 ^ 32 - 1 := by decide
  match n, h with
  | .small v, h =>
      have hv : v < 65536 := h
      rw [getNatValue, NatConst.abs]
      omega
  | .large [v1, v2], ⟨_, hdig, _⟩ =>
      have h1 := hdig v1 (by simp)
      have h2 := hdig v2 (by simp)
      rw [getNatValue, NatConst.abs, combineValues_eq, number_cons, number_cons]
      simp only [number, Nat.ofDigits_nil]
      omega
  | .large (v1 :: v2 :: v3 :: p), ⟨hlen, hdig, hlast⟩ =>
      have hge := number_ge (Nat.le_of_succ_le hlen) hlast
      have hpow : 65536 ^ 2 ≤ 65536 ^ ((v1 :: v2 :: v3 :: p).length - 1) :=
        Nat.pow_le_pow_right (by decide) (by simp)
      rw [show getNatValue (.large (v1 :: v2 :: v3 :: p)) = extendedMax from rfl, NatConst.abs,
        hmax]
      omega

/-! ## Signs -/

theorem negateNat_spec (h : n.Canonical) : (negateNat n).Means (-n.toInt) := by
  cases n with
  | small v =>
      rw [negateNat]
      split
      · cases v with
        | zero => exact (denotes_small (by decide)).means
        | succ v => exact ⟨⟨h, by simp⟩, rfl⟩
      · rename_i hv
        refine ⟨⟨h, ?_⟩, rfl⟩
        intro heq
        injection heq with heq
        rw [heq] at hv
        exact hv (by decide)
  | large p => exact ⟨⟨h, by simp⟩, rfl⟩
  | neg n => exact ⟨h.1.canonical, by rw [negateNat, h.1.toInt_eq, toInt, Int.neg_neg]⟩

theorem signed_spec {z : Int} (h : n.Means z) (s : Bool) :
    (signed s n).Means (if s then -z else z) := by
  rw [signed, ← h.2]
  split
  · exact negateNat_spec h.1
  · exact ⟨h.1, rfl⟩

/-! ## Comparison -/

theorem compareNat_abs {m : NatConst} (hn : n.Magnitude) (hm : m.Magnitude) :
    compareNat n m = Int.sign (n.abs - m.abs) := by
  cases n with
  | neg n => exact hn.elim
  | small v =>
      cases m with
      | neg m => exact hm.elim
      | small u =>
          rw [compareNat]
          simp only [NatConst.abs]
          split
          · rename_i heq
            rw [heq, Int.sub_self]
            rfl
          · split
            · rw [Int.sign_eq_one_of_pos (by omega)]
            · rw [Int.sign_eq_neg_one_of_neg (by omega)]
      | large p =>
          have hge := large_ge hm
          have hv : v < 65536 := hn
          rw [compareNat, Int.sign_eq_neg_one_of_neg]
          simp only [NatConst.abs]
          omega
  | large p =>
      have hgen := large_ge hn
      cases m with
      | neg m => exact hm.elim
      | small u =>
          have hu : u < 65536 := hm
          rw [compareNat, Int.sign_eq_one_of_pos]
          simp only [NatConst.abs]
          omega
      | large q =>
          rw [compareNat]
          simp only [NatConst.abs]
          have hlonger : ∀ {s t : List Nat}, Magnitude (.large s) → Magnitude (.large t) →
              s.length < t.length → number s < number t := by
            intro s t hs ht hlt
            calc number s < 65536 ^ s.length := number_lt hs.2.1
              _ ≤ 65536 ^ (t.length - 1) := Nat.pow_le_pow_right (by decide) (by omega)
              _ ≤ number t := number_ge (Nat.le_of_succ_le ht.1) ht.2.2
          split
          · rename_i hlen
            obtain ⟨hlt, heq, hgt⟩ := compareDigits_spec p q 0 hn.2.1 hm.2.1 hlen
            obtain h | h | h := Nat.lt_trichotomy (number p) (number q)
            · rw [hlt h, Int.sign_eq_neg_one_of_neg (by omega)]
            · rw [heq h, h, Int.sub_self]
              rfl
            · rw [hgt h, Int.sign_eq_one_of_pos (by omega)]
          · split
            · rename_i hlen
              have hlt := hlonger hm hn hlen
              rw [Int.sign_eq_one_of_pos (by omega)]
            · have hlt := hlonger hn hm (by omega)
              rw [Int.sign_eq_neg_one_of_neg (by omega)]

theorem compareNat_spec {m : NatConst} (hn : n.Canonical) (hm : m.Canonical) :
    compareNat n m = Int.sign (n.toInt - m.toInt) := by
  have hpos : ∀ {k : NatConst}, k.Magnitude ∧ k ≠ .small 0 → 0 < (k.abs : Int) := by
    intro k hk
    have hne := mt hk.1.abs_eq_zero.1 hk.2
    omega
  have hmag : ∀ {k : NatConst}, (∀ x, k ≠ .neg x) → k.Canonical → k.Magnitude := by
    intro k hk h
    cases k with
    | small v => exact h
    | large p => exact h
    | neg x => exact absurd rfl (hk x)
  by_cases hn' : ∃ x, n = .neg x
  · obtain ⟨x, rfl⟩ := hn'
    have hx := hpos hn
    by_cases hm' : ∃ y, m = .neg y
    · obtain ⟨y, rfl⟩ := hm'
      rw [compareNat, compareNat_abs hn.1 hm.1, ← Int.sign_neg]
      simp only [toInt]
      congr 1
      omega
    · have hmm := hmag (fun y hy => hm' ⟨y, hy⟩) hm
      rw [compareNat, hmm.toInt_eq, Int.sign_eq_neg_one_of_neg]
      · simp only [toInt]
        omega
      · exact fun y hy => hm' ⟨y, hy⟩
  · have hnm := hmag (fun x hx => hn' ⟨x, hx⟩) hn
    rw [hnm.toInt_eq]
    by_cases hm' : ∃ y, m = .neg y
    · obtain ⟨y, rfl⟩ := hm'
      have hy := hpos hm
      rw [compareNat, Int.sign_eq_one_of_pos]
      · simp only [toInt]
        omega
      · exact fun x hx => hn' ⟨x, hx⟩
    · have hmm := hmag (fun y hy => hm' ⟨y, hy⟩) hm
      rw [compareNat_abs hnm hmm, hmm.toInt_eq]

/-! ## Operands -/

namespace Operand

/-- An operand that comes from a constant. -/
structure Wf (o : Operand) : Prop where
  magnitude : o.nat.Magnitude
  digits : AllDigits o.digits
  number : number o.digits = o.nat.abs
  small : o.digits.length ≤ 1 → o.nat = .small o.val ∧ o.val < 65536
  nonempty : 1 ≤ o.digits.length
  last : 2 ≤ o.digits.length → o.digits.getLastD 0 ≠ 0

/-- The integer that an operand stands for. -/
def toInt (o : Operand) : Int := if o.sign then -o.nat.abs else o.nat.abs

theorem Wf.val_eq (h : o.Wf) (hlen : o.digits.length ≤ 1) : o.nat.abs = o.val ∧ o.val < 65536 := by
  obtain ⟨heq, hlt⟩ := h.small hlen
  exact ⟨by rw [heq, NatConst.abs], hlt⟩

theorem Wf.flip (h : o.Wf) : Wf { o with sign := !o.sign } :=
  ⟨h.magnitude, h.digits, h.number, h.small, h.nonempty, h.last⟩

theorem toInt_flip (o : Operand) : toInt { o with sign := !o.sign } = -o.toInt := by
  cases hs : o.sign <;> simp [toInt, hs]

theorem toInt_of_pos (h : o.sign = false) : o.toInt = o.nat.abs := by
  rw [toInt, h]
  rfl

/-- Two digits are enough for what fits in 32 bits. -/
theorem Wf.abs_lt (h : o.Wf) (hlen : o.digits.length ≤ 2) : o.nat.abs < 2 ^ 32 := by
  rw [← h.number]
  calc Tdfc.number o.digits < 65536 ^ o.digits.length := number_lt h.digits
    _ ≤ 65536 ^ 2 := Nat.pow_le_pow_right (by decide) hlen

theorem Wf.getNatValue_eq (h : o.Wf) (hlen : o.digits.length ≤ 2) :
    getNatValue o.nat = o.nat.abs := by
  have hlt := h.abs_lt hlen
  rw [getNatValue_spec h.magnitude]
  omega

/-- Of two operands, the one with more digits is greater. -/
theorem Wf.abs_lt_of_length {n m : Operand} (hn : n.Wf) (hm : m.Wf)
    (hlen : n.digits.length < m.digits.length) : n.nat.abs < m.nat.abs := by
  have hn1 := hn.nonempty
  rw [← hn.number, ← hm.number]
  calc Tdfc.number n.digits < 65536 ^ n.digits.length := number_lt hn.digits
    _ ≤ 65536 ^ (m.digits.length - 1) := Nat.pow_le_pow_right (by decide) (by omega)
    _ ≤ Tdfc.number m.digits := number_ge (by omega) (hm.last (by omega))

end Operand

open Operand

theorem wf_small (h : v < 65536) (s : Bool) : Wf ⟨.small v, s, v, [v]⟩ where
  magnitude := h
  digits := allDigits_cons.2 ⟨h, allDigits_nil⟩
  number := number_singleton v
  small := fun _ => ⟨rfl, h⟩
  nonempty := Nat.le_refl 1
  last := fun hlen => absurd hlen (by simp)

theorem wf_large (h : Magnitude (.large p)) (s : Bool) : Wf ⟨.large p, s, 0, p⟩ where
  magnitude := h
  digits := h.2.1
  number := rfl
  small := fun hlen => absurd h.1 (Nat.not_le.2 (Nat.lt_succ_of_le hlen))
  nonempty := Nat.le_of_succ_le h.1
  last := fun _ => h.2.2

theorem decompose_spec (h : a.Canonical) : (decompose a).Wf ∧ (decompose a).toInt = a.toInt := by
  match a, h with
  | .small v, h => exact ⟨wf_small h false, rfl⟩
  | .large p, h => exact ⟨wf_large h false, rfl⟩
  | .neg (.small v), h => exact ⟨wf_small h.1 true, rfl⟩
  | .neg (.large p), h => exact ⟨wf_large h.1 true, rfl⟩

/-! ## Sums and differences -/

section

variable {w : Nat} {n m : Operand}

theorem longer_spec (hn : n.Wf) (m : Operand) :
    1 ≤ longer n m ∧ n.digits.length ≤ longer n m ∧ m.digits.length ≤ longer n m := by
  have hn1 := hn.nonempty
  rw [longer]
  omega

theorem number_lt_longer {k : Nat} (h : o.Wf) (hlen : o.digits.length ≤ k) :
    o.nat.abs < 65536 ^ k := by
  rw [← h.number]
  exact Nat.lt_of_lt_of_le (number_lt h.digits) (Nat.pow_le_pow_right (by decide) hlen)

theorem addSame_spec (hw : 32 ≤ w) (hn : n.Wf) (hm : m.Wf) (hs : n.sign = m.sign) :
    (addSame w n m).Means (n.toInt + m.toInt) := by
  obtain ⟨_, hln, hlm⟩ := longer_spec hn m
  have hres : (if longer n m = 1 then makeNatValue ((n.val + m.val) % 2 ^ w)
      else makeLargeNat (addDigits w (longer n m + 1) 0 n.digits m.digits)).Denotes
        (n.nat.abs + m.nat.abs) := by
    split
    · rename_i hone
      obtain ⟨hvn, hn16⟩ := hn.val_eq (by omega)
      obtain ⟨hvm, hm16⟩ := hm.val_eq (by omega)
      have hpow : (2 : Nat) ^ 32 ≤ 2 ^ w := Nat.pow_le_pow_right (by decide) hw
      rw [hvn, hvm, Nat.mod_eq_of_lt (by omega)]
      exact makeNatValue_spec (by omega)
    · obtain ⟨hdig, _, hnum⟩ := addDigits_spec hw (longer n m + 1) 0 n.digits m.digits (by decide)
        hn.digits hm.digits
      have hnlt := number_lt_longer hn hln
      have hmlt := number_lt_longer hm hlm
      rw [hn.number, hm.number, Nat.add_zero (n.nat.abs + m.nat.abs),
        Nat.mod_eq_of_lt] at hnum
      · rw [← hnum]
        exact makeLargeNat_spec hdig
      · rw [Nat.pow_succ]
        generalize 65536 ^ longer n m = b at hnlt hmlt ⊢
        omega
  rw [addSame]
  have hsum : n.toInt + m.toInt =
      if n.sign then -((n.nat.abs + m.nat.abs : Nat) : Int) else (n.nat.abs + m.nat.abs : Nat) := by
    rw [Operand.toInt, Operand.toInt, ← hs]
    split <;> omega
  rw [hsum]
  exact signed_spec hres.means n.sign

/-- The greater operand minus the smaller one. -/
theorem subtract_spec (hw : 32 ≤ w) (hn : n.Wf) (hm : m.Wf) (hle : m.nat.abs ≤ n.nat.abs) {k : Nat}
    (hln : n.digits.length ≤ k) (hlm : m.digits.length ≤ k) :
    (if k = 1 then makeNatValue ((n.val + 2 ^ w - m.val) % 2 ^ w)
      else makeLargeNat (subDigits k false n.digits m.digits)).Denotes (n.nat.abs - m.nat.abs) := by
  split
  · rename_i hone
    obtain ⟨hvn, hn16⟩ := hn.val_eq (by omega)
    obtain ⟨hvm, hm16⟩ := hm.val_eq (by omega)
    have hpow : (2 : Nat) ^ 32 ≤ 2 ^ w := Nat.pow_le_pow_right (by decide) hw
    rw [hvn, hvm] at hle ⊢
    rw [show n.val + 2 ^ w - m.val = n.val - m.val + 2 ^ w by omega, Nat.add_mod_right,
      Nat.mod_eq_of_lt (by omega)]
    exact makeNatValue_spec (by omega)
  · obtain ⟨hdig, hlen, b, hnum⟩ := subDigits_spec k false n.digits m.digits hn.digits hm.digits
      hln hlm
    have hlt := number_lt hdig
    have hnlt := number_lt_longer hn hln
    rw [hlen] at hlt
    rw [hn.number, hm.number, Bool.toNat_false, Nat.add_zero] at hnum
    -- the difference is not negative, so nothing is borrowed in the end
    have hb : b = 0 := by
      refine Decidable.byContradiction fun hb => ?_
      have hmul : 65536 ^ k ≤ b * 65536 ^ k := Nat.le_mul_of_pos_left _ (Nat.pos_of_ne_zero hb)
      omega
    rw [hb, Nat.zero_mul, Nat.add_zero] at hnum
    rw [← hnum, Nat.add_sub_cancel]
    exact makeLargeNat_spec hdig

theorem subSame_spec (hw : 32 ≤ w) (hn : n.Wf) (hm : m.Wf) (hs : n.sign = m.sign) :
    (subSame w n m).Means (n.toInt - m.toInt) := by
  obtain ⟨_, hln, hlm⟩ := longer_spec hn m
  have hc : (if n.digits.length = m.digits.length then compareNat n.nat m.nat
      else if n.digits.length < m.digits.length then -1 else 1) =
        Int.sign (n.nat.abs - m.nat.abs) := by
    split
    · exact compareNat_abs hn.magnitude hm.magnitude
    · split
      · rename_i hlt
        have habs := hn.abs_lt_of_length hm hlt
        rw [Int.sign_eq_neg_one_of_neg (by omega)]
      · have habs := hm.abs_lt_of_length hn (by omega)
        rw [Int.sign_eq_one_of_pos (by omega)]
  rw [subSame]
  simp only [hc]
  obtain hlt | heq | hgt := Nat.lt_trichotomy n.nat.abs m.nat.abs
  · rw [Int.sign_eq_neg_one_of_neg (by omega)]
    simp only [Int.reduceNeg, Int.reduceEq, if_false, Int.reduceLT, if_true]
    have hdiff : n.toInt - m.toInt =
        if !n.sign then -((m.nat.abs - n.nat.abs : Nat) : Int)
        else (m.nat.abs - n.nat.abs : Nat) := by
      rw [Operand.toInt, Operand.toInt, ← hs]
      cases n.sign <;> simp <;> omega
    rw [hdiff]
    exact signed_spec (subtract_spec hw hm hn (Nat.le_of_lt hlt) hlm hln).means _
  · rw [heq, Int.sub_self, Int.sign_zero, if_pos rfl]
    have hdiff : n.toInt - m.toInt = 0 := by
      rw [Operand.toInt, Operand.toInt, ← hs, heq, Int.sub_self]
    rw [hdiff]
    exact (makeSmallNat_spec (by decide : 0 < 65536)).means
  · rw [Int.sign_eq_one_of_pos (by omega)]
    simp only [Int.reduceEq, if_false, Int.reduceLT]
    have hdiff : n.toInt - m.toInt =
        if n.sign then -((n.nat.abs - m.nat.abs : Nat) : Int)
        else (n.nat.abs - m.nat.abs : Nat) := by
      rw [Operand.toInt, Operand.toInt, ← hs]
      split <;> omega
    rw [hdiff]
    exact signed_spec (subtract_spec hw hn hm (Nat.le_of_lt hgt) hln hlm).means _

/-! ## Products and quotients -/

theorem toInt_mul (n m : Operand) : n.toInt * m.toInt =
    if n.sign != m.sign then -((n.nat.abs * m.nat.abs : Nat) : Int)
    else (n.nat.abs * m.nat.abs : Nat) := by
  rw [Operand.toInt, Operand.toInt]
  cases n.sign <;> cases m.sign <;> simp

theorem mult_unit (ho : o.Wf) (hb : b.Canonical) (h : o.digits.length = 1 ∧ o.val = 1) :
    (signed o.sign b).Means (o.toInt * b.toInt) := by
  have habs : o.nat.abs = 1 := (ho.val_eq (Nat.le_of_eq h.1)).1.trans h.2
  have hprod : o.toInt * b.toInt = if o.sign then -b.toInt else b.toInt := by
    rw [Operand.toInt, habs]
    split <;> simp
  rw [hprod]
  exact signed_spec ⟨hb, rfl⟩ o.sign

theorem multOp_spec (hw : 32 ≤ w) (ha : a.Canonical) (hb : b.Canonical) (hn : n.Wf) (hm : m.Wf)
    (han : n.toInt = a.toInt) (hbm : m.toInt = b.toInt) :
    (multOp w a b n m).Means (a.toInt * b.toInt) := by
  obtain ⟨_, hln, hlm⟩ := longer_spec hn m
  rw [multOp]
  split
  · rename_i hone
    rw [← han]
    exact mult_unit hn hb hone
  split
  · rename_i hone
    rw [← hbm, Int.mul_comm]
    exact mult_unit hm ha hone
  have hres : (if longer n m = 1 then makeNatValue (n.val * m.val % 2 ^ w)
      else makeLargeNat (mulDigits w m.digits n.digits
        (digitList (n.digits.length + m.digits.length)))).Denotes (n.nat.abs * m.nat.abs) := by
    split
    · obtain ⟨hvn, hn16⟩ := hn.val_eq (by omega)
      obtain ⟨hvm, hm16⟩ := hm.val_eq (by omega)
      have hlt := mul_digits_lt hn16 hm16
      have hpow : (2 : Nat) ^ 32 ≤ 2 ^ w := Nat.pow_le_pow_right (by decide) hw
      rw [hvn, hvm, Nat.mod_eq_of_lt (by omega)]
      exact makeNatValue_spec (by omega)
    · have hfit : number n.digits * number m.digits <
          65536 ^ (digitList (n.digits.length + m.digits.length)).length := by
        rw [digitList, List.length_replicate, Nat.pow_add]
        exact Nat.mul_lt_mul'' (number_lt hn.digits) (number_lt hm.digits)
      obtain ⟨hdig, hnum⟩ := mulDigits_spec hw hm.digits n.digits _ hn.digits
        (allDigits_digitList (n.digits.length + m.digits.length)) (by
          rw [number_digitList, Nat.zero_add]
          exact hfit)
      rw [number_digitList, Nat.zero_add, hn.number, hm.number] at hnum
      rw [← hnum]
      exact makeLargeNat_spec hdig
  rw [← han, ← hbm, toInt_mul]
  exact signed_spec hres.means _

theorem divOp_spec (hn : n.Wf) (hm : m.Wf) (h : divOp n m = some res) :
    res.Means (n.toInt.tdiv m.toInt) := by
  obtain ⟨_, hln, hlm⟩ := longer_spec hn m
  rw [divOp] at h
  split at h
  · rename_i hlen
    rw [hn.getNatValue_eq (by omega), hm.getNatValue_eq (by omega)] at h
    simp only at h
    split at h
    · nomatch h
    · injection h with h
      rw [← h]
      have hlt : n.nat.abs / m.nat.abs < 2 ^ 32 :=
        Nat.lt_of_le_of_lt (Nat.div_le_self _ _) (hn.abs_lt (by omega))
      have hquot : n.toInt.tdiv m.toInt =
          if n.sign != m.sign then -((n.nat.abs / m.nat.abs : Nat) : Int)
          else (n.nat.abs / m.nat.abs : Nat) := by
        rw [Operand.toInt, Operand.toInt]
        cases n.sign <;> cases m.sign <;> simp
      rw [hquot]
      exact signed_spec (makeNatValue_spec hlt).means _
  · nomatch h

theorem remOp_spec (hn : n.Wf) (hm : m.Wf) (h : remOp n m = some res) :
    res.Means (n.toInt.tmod m.toInt) := by
  obtain ⟨_, hln, hlm⟩ := longer_spec hn m
  rw [remOp] at h
  split at h
  · rename_i hlen
    rw [hn.getNatValue_eq (by omega), hm.getNatValue_eq (by omega)] at h
    simp only at h
    split at h
    · nomatch h
    · rename_i hsigns
      injection h with h
      rw [← h]
      have hlt : n.nat.abs % m.nat.abs < 2 ^ 32 :=
        Nat.lt_of_le_of_lt (Nat.mod_le _ _) (hn.abs_lt (by omega))
      have hrem : n.toInt.tmod m.toInt = (n.nat.abs % m.nat.abs : Nat) := by
        rw [Operand.toInt, Operand.toInt]
        cases hs : n.sign
        · cases m.sign <;> simp [← Int.ofNat_tmod]
        · -- what is left of a negative number is zero
          have hz : n.nat.abs % m.nat.abs = 0 := by
            refine Decidable.byContradiction fun hne => hsigns ⟨?_, hne⟩
            rw [hs]
            rfl
          cases m.sign <;> simp [← Int.ofNat_tmod, hz]
      rw [hrem]
      exact (makeNatValue_spec hlt).means
  · nomatch h

/-! ## Shifts and bits -/

theorem lshiftOp_spec (hw : 32 ≤ w) (hn : n.Wf) (hm : m.Wf) (h : lshiftOp w n m = some res) :
    res.Means (n.toInt * 2 ^ m.toInt.toNat) := by
  rw [lshiftOp] at h
  split at h
  · nomatch h
  rename_i hsigns
  simp only at h
  split at h
  · nomatch h
  rename_i hcount
  injection h with h
  have hs : n.sign = false ∧ m.sign = false := by simpa using hsigns
  have hval : getNatValue m.nat = m.nat.abs := by
    have hget := getNatValue_spec hm.magnitude
    omega
  rw [hval] at h
  obtain ⟨hdig, hnum⟩ := shiftLeftDigits_spec hw
    (Nat.mod_lt m.nat.abs (by decide : 0 < natDigits)) n.digits 0 (Nat.two_pow_pos _) hn.digits
  have hlist : number (digitList (m.nat.abs / natDigits) ++
      shiftLeftDigits w (m.nat.abs % natDigits) 0 n.digits) = n.nat.abs * 2 ^ m.nat.abs := by
    rw [number_append, number_digitList, hnum, hn.number, digitList, List.length_replicate,
      Nat.zero_add, Nat.add_zero, show (65536 : Nat) = 2 ^ natDigits from rfl, ← Nat.pow_mul,
      Nat.mul_left_comm,
      ← Nat.pow_add, Nat.div_add_mod]
  rw [toInt_of_pos hs.1, toInt_of_pos hs.2, Int.toNat_natCast, ← h]
  have hden := makeLargeNat_spec (p := digitList (m.nat.abs / natDigits) ++
    shiftLeftDigits w (m.nat.abs % natDigits) 0 n.digits)
    (fun d hd => (List.mem_append.1 hd).elim (allDigits_digitList _ d) (hdig d))
  rw [hlist] at hden
  simpa using hden.means

/-- The code shifts by as much as `get_nat_value` makes of the count. -/
theorem rshiftOp_spec (hn : n.Wf) (h : rshiftOp n m = some res) :
    n.sign = false ∧ m.sign = false ∧ res.Denotes (n.nat.abs / 2 ^ getNatValue m.nat) := by
  rw [rshiftOp] at h
  split at h
  · nomatch h
  rename_i hsigns
  have hs : n.sign = false ∧ m.sign = false := by simpa using hsigns
  refine ⟨hs.1, hs.2, ?_⟩
  obtain ⟨⟨front, hfront⟩, hlt, hval⟩ := dropDigits_spec n.digits (getNatValue m.nat)
  have hval := hval hn.digits
  have hdig : AllDigits (dropDigits (getNatValue m.nat) n.digits).2 := by
    intro d hd
    refine hn.digits d ?_
    rw [hfront]
    exact List.mem_append_right _ hd
  rw [hn.number] at hval
  rw [← hval]
  generalize dropDigits (getNatValue m.nat) n.digits = s at h hlt hdig
  obtain ⟨e, p⟩ := s
  match p with
  | [] =>
      injection h with h
      rw [← h]
      simpa [number] using makeSmallNat_spec (by decide : 0 < 65536)
  | [v] =>
      injection h with h
      rw [← h, Nat.shiftRight_eq_div_pow, number_singleton]
      have hv := hdig v List.mem_cons_self
      exact small_spec (Nat.lt_of_le_of_lt (Nat.div_le_self _ _) hv)
  | v :: u :: p =>
      have he : e < 16 := hlt (by simp)
      injection h with h
      rw [← h]
      split
      · have hrev : AllDigits (v :: u :: p).reverse := fun d hd => hdig d (List.mem_reverse.1 hd)
        obtain ⟨hall, _, hnum⟩ := shiftRightDigits_spec he (v :: u :: p).reverse 0
          (Nat.two_pow_pos _) hrev
        rw [Nat.zero_mul] at hall hnum
        rw [Nat.zero_mul, Nat.zero_add, List.reverse_reverse] at hnum
        rw [← hnum]
        exact makeLargeNat_spec fun d hd => hall d (List.mem_reverse.1 hd)
      · rename_i hz
        rw [Decidable.not_not.1 hz, Nat.pow_zero, Nat.div_one]
        exact makeLargeNat_spec hdig

theorem bitOp_spec {f : Nat → Nat → Nat} (hf : Bitwise f) (hn : n.Wf) (hm : m.Wf)
    (h : bitOp f n m = some res) :
    n.sign = false ∧ m.sign = false ∧ res.Denotes (f n.nat.abs m.nat.abs) := by
  obtain ⟨_, hln, hlm⟩ := longer_spec hn m
  rw [bitOp] at h
  split at h
  · nomatch h
  rename_i hsigns
  have hs : n.sign = false ∧ m.sign = false := by simpa using hsigns
  refine ⟨hs.1, hs.2, ?_⟩
  obtain ⟨hdig, hnum⟩ := bitDigits_spec hf (longer n m) n.digits m.digits hn.digits hm.digits
    hln hlm
  rw [hn.number, hm.number] at hnum
  simp only at h
  split at h
  · rename_i hlen
    injection h with h
    rw [← h, hn.getNatValue_eq (by omega), hm.getNatValue_eq (by omega)]
    refine makeNatValue_spec ?_
    rw [← hnum]
    calc number (bitDigits f (longer n m) n.digits m.digits)
        < 65536 ^ (bitDigits f (longer n m) n.digits m.digits).length := number_lt hdig
      _ ≤ 65536 ^ 2 := Nat.pow_le_pow_right (by decide) (by rw [length_bitDigits]; exact hlen)
  · injection h with h
    rw [← h, ← hnum]
    exact makeLargeNat_spec hdig

end

/-! ## Exactness -/

/-- The exact result of an operation. Division truncates; a shift to the right rounds down. -/
def NatOp.exact : NatOp → Int → Int → Int
  | .plus, x, y => x + y
  | .minus, x, y => x - y
  | .mult, x, y => x * y
  | .div, x, y => x.tdiv y
  | .rem, x, y => x.tmod y
  | .lshift, x, y => x * 2 ^ y.toNat
  | .rshift, x, y => x / 2 ^ y.toNat
  | .and, x, y => x.land y
  | .or, x, y => x.lor y
  | .xor, x, y => x.xor y

/-- The shift to the right by a count that `get_nat_value` cuts off to `UINT_MAX`, of a constant
that is not used up by a shift that far. -/
def NatOp.Overshift (tag : NatOp) (a b : NatConst) : Prop :=
  tag = .rshift ∧ 2 ^ 32 ≤ b.toInt ∧ 2 ^ extendedMax ≤ a.toInt

theorem canonical_zero (h : a.Canonical) (hz : (decompose a).nat = .small 0) : a = .small 0 := by
  match a, h with
  | .small v, _ => exact hz
  | .large p, _ => exact hz
  | .neg (.small v), h => exact absurd hz h.2
  | .neg (.large p), h => exact absurd hz h.2

theorem zero_ldiff (n : Nat) : Nat.ldiff 0 n = 0 :=
  Nat.eq_of_testBit_eq fun i => by simp [Nat.testBit_ldiff]

theorem ldiff_zero (n : Nat) : Nat.ldiff n 0 = n :=
  Nat.eq_of_testBit_eq fun i => by simp [Nat.testBit_ldiff]

theorem zeroOp_spec (hb : b.Canonical) (h : zeroOp tag (.small 0) b = some res) :
    res.Means (tag.exact 0 b.toInt) := by
  have hzero : Means (.small 0) 0 := (denotes_small (by decide)).means
  cases tag with
  | plus =>
      rw [← Option.some.inj h]
      exact ⟨hb, (Int.zero_add _).symm⟩
  | minus =>
      rw [← Option.some.inj h, NatOp.exact, Int.zero_sub]
      exact negateNat_spec hb
  | mult =>
      rw [← Option.some.inj h]
      simpa [NatOp.exact] using hzero
  | div => nomatch h
  | rem => nomatch h
  | lshift =>
      rw [← Option.some.inj h]
      simpa [NatOp.exact] using hzero
  | rshift =>
      rw [← Option.some.inj h]
      simpa [NatOp.exact] using hzero
  | and =>
      rw [← Option.some.inj h, NatOp.exact]
      cases b.toInt <;> simpa [Int.land, zero_ldiff] using hzero
  | or =>
      rw [← Option.some.inj h, NatOp.exact]
      refine ⟨hb, ?_⟩
      cases b.toInt <;> simp [Int.lor, ldiff_zero]
  | xor =>
      rw [← Option.some.inj h, NatOp.exact]
      refine ⟨hb, ?_⟩
      cases b.toInt <;> simp [Int.xor]

theorem opZero_spec (ha : a.Canonical) (h : opZero tag a (.small 0) = some res) :
    res.Means (tag.exact a.toInt 0) := by
  have hzero : Means (.small 0) 0 := (denotes_small (by decide)).means
  cases tag with
  | plus =>
      rw [← Option.some.inj h]
      exact ⟨ha, (Int.add_zero _).symm⟩
  | minus =>
      rw [← Option.some.inj h]
      exact ⟨ha, (Int.sub_zero _).symm⟩
  | mult =>
      rw [← Option.some.inj h]
      simpa [NatOp.exact] using hzero
  | div => nomatch h
  | rem => nomatch h
  | lshift =>
      rw [← Option.some.inj h]
      exact ⟨ha, by simp [NatOp.exact]⟩
  | rshift =>
      rw [← Option.some.inj h]
      exact ⟨ha, by simp [NatOp.exact]⟩
  | and =>
      rw [← Option.some.inj h, NatOp.exact]
      cases a.toInt <;> simpa [Int.land, zero_ldiff] using hzero
  | or =>
      rw [← Option.some.inj h, NatOp.exact]
      refine ⟨ha, ?_⟩
      cases a.toInt <;> simp [Int.lor, ldiff_zero]
  | xor =>
      rw [← Option.some.inj h, NatOp.exact]
      refine ⟨ha, ?_⟩
      cases a.toInt <;> simp [Int.xor]

section

variable {w : Nat} {n m : Operand}

/-- A count that is cut off makes no difference to a constant that is used up before. -/
theorem shift_cut {x y : Nat} (h : ¬(2 ^ 32 ≤ y ∧ 2 ^ extendedMax ≤ x)) :
    x / 2 ^ min y (2 ^ 32 - 1) = x / 2 ^ y := by
  by_cases hy : 2 ^ 32 ≤ y
  · have hx : x < 2 ^ extendedMax := Nat.not_le.1 fun hx => h ⟨hy, hx⟩
    have hmin : min y (2 ^ 32 - 1) = extendedMax := by
      rw [show extendedMax = 2 ^ 32 - 1 by decide]
      omega
    have hle : extendedMax ≤ y := by
      rw [show extendedMax = 2 ^ 32 - 1 by decide]
      omega
    rw [hmin, Nat.div_eq_of_lt hx, Nat.div_eq_of_lt]
    exact Nat.lt_of_lt_of_le hx (Nat.pow_le_pow_right (by decide) hle)
  · rw [Nat.min_eq_left (by omega)]

/-- A count that is cut off is too small. -/
theorem shift_cut_ne {x y : Nat} (hy : 2 ^ 32 ≤ y) (hx : 2 ^ extendedMax ≤ x) :
    x / 2 ^ y ≠ x / 2 ^ min y (2 ^ 32 - 1) := by
  have hmin : min y (2 ^ 32 - 1) = extendedMax := by
    rw [show extendedMax = 2 ^ 32 - 1 by decide]
    omega
  have hlt : extendedMax < y := by
    rw [show extendedMax = 2 ^ 32 - 1 by decide]
    omega
  obtain ⟨k, rfl⟩ := Nat.exists_eq_add_of_lt hlt
  rw [hmin]
  have hquot : 0 < x / 2 ^ extendedMax := Nat.div_pos hx (Nat.two_pow_pos _)
  rw [Nat.add_assoc, Nat.pow_add, ← Nat.div_div_eq_div_mul]
  exact Nat.ne_of_lt (Nat.div_lt_self hquot (Nat.one_lt_two_pow (Nat.succ_ne_zero k)))

/-- A shift of operands to the right is exact unless its count is cut off. -/
theorem rshiftOp_exact (hn : n.Wf) (hm : m.Wf) (h : rshiftOp n m = some res)
    (hcount : ¬(2 ^ 32 ≤ m.toInt ∧ 2 ^ extendedMax ≤ n.toInt)) :
    res.Means (n.toInt / 2 ^ m.toInt.toNat) := by
  obtain ⟨hns, hms, hres⟩ := rshiftOp_spec hn h
  rw [toInt_of_pos hns, toInt_of_pos hms] at hcount ⊢
  have hcut : ¬(2 ^ 32 ≤ m.nat.abs ∧ 2 ^ extendedMax ≤ n.nat.abs) := fun hc =>
    hcount ⟨by exact_mod_cast hc.1, by exact_mod_cast hc.2⟩
  rw [getNatValue_spec hm.magnitude, shift_cut hcut] at hres
  simpa using hres.means

theorem digitOp_spec (hw : 32 ≤ w) (ha : a.Canonical) (hb : b.Canonical) (hn : n.Wf) (hm : m.Wf)
    (han : n.toInt = a.toInt) (hbm : m.toInt = b.toInt) (h : digitOp w tag a b n m = some res)
    (hover : ¬tag.Overshift a b) : res.Means (tag.exact a.toInt b.toInt) := by
  have hbits : ∀ {f : Nat → Nat → Nat} (g : Int → Int → Int), Bitwise f →
      (∀ x y : Nat, g x y = f x y) → bitOp f n m = some res → res.Means (g a.toInt b.toInt) := by
    intro f g hf hg hop
    obtain ⟨hns, hms, hres⟩ := bitOp_spec hf hn hm hop
    rw [← han, ← hbm, toInt_of_pos hns, toInt_of_pos hms, hg]
    exact hres.means
  cases tag with
  | plus =>
      rw [← Option.some.inj h, NatOp.exact, ← han, ← hbm]
      split
      · rename_i hs
        exact addSame_spec hw hn hm hs
      · rename_i hs
        rw [← Int.neg_neg m.toInt, ← toInt_flip, ← Int.sub_eq_add_neg]
        exact subSame_spec hw hn hm.flip (by simpa [Bool.eq_not] using hs)
  | minus =>
      rw [← Option.some.inj h, NatOp.exact, ← han, ← hbm]
      split
      · rename_i hs
        exact subSame_spec hw hn hm hs
      · rename_i hs
        rw [Int.sub_eq_add_neg, ← toInt_flip]
        exact addSame_spec hw hn hm.flip (by simpa [Bool.eq_not] using hs)
  | mult =>
      rw [← Option.some.inj h]
      exact multOp_spec hw ha hb hn hm han hbm
  | div =>
      rw [NatOp.exact, ← han, ← hbm]
      exact divOp_spec hn hm h
  | rem =>
      rw [NatOp.exact, ← han, ← hbm]
      exact remOp_spec hn hm h
  | lshift =>
      rw [NatOp.exact, ← han, ← hbm]
      exact lshiftOp_spec hw hn hm h
  | rshift =>
      rw [NatOp.exact, ← han, ← hbm]
      refine rshiftOp_exact hn hm h fun hc => hover ⟨rfl, ?_⟩
      rw [← han, ← hbm]
      exact hc
  | and => exact hbits Int.land bitwise_and (fun _ _ => rfl) h
  | or => exact hbits Int.lor bitwise_or (fun _ _ => rfl) h
  | xor => exact hbits Int.xor bitwise_xor (fun _ _ => rfl) h

theorem binaryNatOp_spec (hw : 32 ≤ w) (ha : a.Canonical) (hb : b.Canonical)
    (h : binaryNatOp w tag a b = some res) (hover : ¬tag.Overshift a b) :
    res.Means (tag.exact a.toInt b.toInt) := by
  obtain ⟨hn, han⟩ := decompose_spec ha
  obtain ⟨hm, hbm⟩ := decompose_spec hb
  rw [binaryNatOp] at h
  simp only at h
  split at h
  · rename_i x r hzero
    rw [h] at hzero
    split at hzero
    · rename_i hz
      obtain rfl := canonical_zero ha hz
      exact zeroOp_spec hb hzero
    · nomatch hzero
  · split at h
    · rename_i hz
      obtain rfl := canonical_zero hb hz
      exact opZero_spec ha h
    · exact digitOp_spec hw ha hb hn hm han hbm h hover

/-- Sums, differences and products have a result. -/
theorem binaryNatOp_ne_none (htag : tag = .plus ∨ tag = .minus ∨ tag = .mult) (a b : NatConst) :
    binaryNatOp w tag a b ≠ none := by
  rw [binaryNatOp]
  simp only
  split
  · exact Option.some_ne_none _
  · split
    · obtain rfl | rfl | rfl := htag <;> exact Option.some_ne_none _
    · obtain rfl | rfl | rfl := htag <;> exact Option.some_ne_none _

/-- A shift whose count is cut off has a result, and a wrong one. -/
theorem binaryNatOp_overshift (ha : a.Canonical) (hb : b.Canonical)
    (hover : NatOp.rshift.Overshift a b) :
    ∃ res, binaryNatOp w .rshift a b = some res ∧
    res.toInt ≠ NatOp.rshift.exact a.toInt b.toInt := by
  obtain ⟨_, hy, hx⟩ := hover
  obtain ⟨hn, han⟩ := decompose_spec ha
  obtain ⟨hm, hbm⟩ := decompose_spec hb
  have hapos : 0 < a.toInt := Int.lt_of_lt_of_le (Int.pow_pos (by decide)) hx
  have hbpos : 0 < b.toInt := Int.lt_of_lt_of_le (by decide) hy
  have hsign : ∀ {o : Operand}, 0 < o.toInt → o.sign = false ∧ o.nat ≠ .small 0 := by
    intro o ho
    rw [Operand.toInt] at ho
    constructor
    · by_contra hs
      rw [if_pos (by simpa using hs)] at ho
      omega
    · intro hz
      rw [hz] at ho
      simp [NatConst.abs] at ho
  obtain ⟨hns, hn0⟩ := hsign (hapos.trans_eq han.symm)
  obtain ⟨hms, hm0⟩ := hsign (hbpos.trans_eq hbm.symm)
  have hcode : binaryNatOp w .rshift a b = rshiftOp (decompose a) (decompose b) := by
    rw [binaryNatOp]
    simp only [if_neg hn0, if_neg hm0]
    rfl
  have hsome : ∃ res, rshiftOp (decompose a) (decompose b) = some res := by
    rw [rshiftOp, if_neg (by simp [hns, hms])]
    simp only
    split <;> exact ⟨_, rfl⟩
  obtain ⟨res, hres⟩ := hsome
  refine ⟨res, hcode.trans hres, ?_⟩
  have hmeans := (rshiftOp_spec hn hres).2.2.means.2
  rw [getNatValue_spec hm.magnitude] at hmeans
  rw [hmeans, NatOp.exact, ← han, ← hbm, toInt_of_pos hns, toInt_of_pos hms, Int.toNat_natCast]
  rw [← hbm, toInt_of_pos hms] at hy
  rw [← han, toInt_of_pos hns] at hx
  have hne := shift_cut_ne (x := (decompose a).nat.abs) (y := (decompose b).nat.abs)
    (by exact_mod_cast hy) (by exact_mod_cast hx)
  exact fun heq => hne (by exact_mod_cast heq.symm)

end

/-- What is asked of the operations: a result is canonical and exact, sums, differences and
products have one, and comparison follows the order of the integers. -/
structure Exact (w : Nat) (tag : NatOp) (a b : NatConst) : Prop where
  result : ∀ res, binaryNatOp w tag a b = some res →
    res.Canonical ∧ res.toInt = tag.exact a.toInt b.toInt
  total : tag = .plus ∨ tag = .minus ∨ tag = .mult → binaryNatOp w tag a b ≠ none
  equal : compareNat a b = 0 ↔ a.toInt = b.toInt
  less : compareNat a b < 0 ↔ a.toInt < b.toInt
  greater : 0 < compareNat a b ↔ b.toInt < a.toInt

theorem binaryNatOp_exact_iff {w : Nat} (hw : 32 ≤ w) (tag : NatOp) {a b : NatConst}
    (ha : a.Canonical)
    (hb : b.Canonical) :
    Exact w tag a b ↔ ¬(tag = .rshift ∧ 2 ^ 32 ≤ b.toInt ∧ 2 ^ extendedMax ≤ a.toInt) := by
  constructor
  · rintro hexact ⟨rfl, hy, hx⟩
    obtain ⟨res, hres, hne⟩ := binaryNatOp_overshift ha hb ⟨rfl, hy, hx⟩
    exact hne (hexact.result res hres).2
  · intro hover
    have hcompare := compareNat_spec ha hb
    exact {
      result := fun res hres => binaryNatOp_spec hw ha hb hres hover
      total := fun htag => binaryNatOp_ne_none htag a b
      equal := by
        rw [hcompare, Int.sign_eq_zero_iff_zero]
        omega
      less := by
        rw [hcompare, Int.sign_neg_iff]
        omega
      greater := by
        rw [hcompare, Int.sign_pos_iff]
        omega }

theorem binaryNatOp_exact_small :
    (32 ≤ 64 ∧ Canonical (.large [1, 1]) ∧ Canonical (.neg (.small 3))) ∧
    (Exact 64 .minus (.large [1, 1]) (.neg (.small 3)) ↔
      ¬(NatOp.minus = .rshift ∧ 2 ^ 32 ≤ toInt (.neg (.small 3)) ∧
        2 ^ extendedMax ≤ toInt (.large [1, 1]))) := by
  have ha : Canonical (.large [1, 1]) := by decide
  have hb : Canonical (.neg (.small 3)) := by decide
  exact ⟨⟨by decide, ha, hb⟩, binaryNatOp_exact_iff (by decide) .minus ha hb⟩

/-- 2^(2^32), a digit more than 2^28 of them, shifted to the right by 2^32 bits. -/
theorem binaryNatOp_not_exact : ¬∀ (w : Nat) (tag : NatOp) (a b : NatConst), 32 ≤ w → a.Canonical →
    b.Canonical → Exact w tag a b := by
  intro h
  have hone : AllDigits [1] := allDigits_cons.2 ⟨by decide, allDigits_nil⟩
  have hpower : ∀ {k : Nat}, 0 < k → Canonical (.large (digitList k ++ [1])) ∧
      toInt (.large (digitList k ++ [1])) = 65536 ^ k := by
    intro k hk
    refine ⟨⟨?_, ?_, ?_⟩, ?_⟩
    · rw [List.length_append, digitList, List.length_replicate, List.length_singleton]
      omega
    · exact fun d hd => (List.mem_append.1 hd).elim (allDigits_digitList k d) (hone d)
    · rw [List.getLastD_concat]
      decide
    · rw [NatConst.toInt, NatConst.abs, number_append, number_digitList, number_singleton,
        digitList,
        List.length_replicate, Nat.zero_add, Nat.mul_one]
      · exact Int.natCast_pow 65536 k
      · exact fun _ heq => nomatch heq
  obtain ⟨ha, hx⟩ := hpower (k := 2 ^ 28) (by decide)
  obtain ⟨hb, hy⟩ := hpower (k := 2) (by decide)
  have hover : NatOp.rshift.Overshift (.large (digitList (2 ^ 28) ++ [1]))
      (.large (digitList 2 ++ [1])) := by
    refine ⟨rfl, ?_, ?_⟩
    · rw [hy]
      decide
    · rw [hx, show (65536 : Int) = 2 ^ 16 from rfl, ← Int.pow_mul]
      exact pow_le_pow_right₀ (by decide) (by decide)
  obtain ⟨res, hres, hne⟩ := binaryNatOp_overshift (w := 32) ha hb hover
  exact hne ((h 32 .rshift _ _ (by decide) ha hb).result res hres).2

end Tendra.Ref.Tdfc
