import Mathlib.Data.Nat.Digits.Defs
import Mathlib.Tactic.Ring
import Tendra.Ref.Tdfc.Constant

/-!
# The loops over digits

Each loop of `binary_nat_op` is described by what it does to the numbers that the
lists stand for. A list that has run out counts as zeros. No carry is lost: the sums
and products of digits fit in 32 bits, and the lists are long enough for the results.
-/

namespace Tendra.Ref.Tdfc

/-- The number of a list of digits, least significant first. -/
abbrev number (p : List Nat) : Nat := Nat.ofDigits 65536 p

/-- All of them are digits. -/
def AllDigits (p : List Nat) : Prop := ∀ d ∈ p, d < 65536

instance : DecidablePred AllDigits := fun p =>
  inferInstanceAs (Decidable (∀ d ∈ p, d < 65536))

theorem loHalf_eq (a : Nat) : loHalf a = a % 65536 := Nat.and_two_pow_sub_one_eq_mod a 16

theorem hiHalf_eq (a : Nat) : hiHalf a = a / 65536 % 65536 := by
  rw [hiHalf, loHalf_eq, Nat.shiftRight_eq_div_pow]
  rfl

theorem hiHalf_of_lt {a : Nat} (h : a < 2 ^ 32) : hiHalf a = a / 65536 := by
  rw [hiHalf_eq, Nat.mod_eq_of_lt]
  omega

theorem combineValues_eq (a b : Nat) : combineValues a b = a + b * 65536 := by
  rw [combineValues, Nat.shiftLeft_eq]
  rfl

/-! ## Numbers -/

theorem number_cons (d : Nat) (p : List Nat) : number (d :: p) = d + 65536 * number p :=
  Nat.ofDigits_cons

theorem number_singleton (d : Nat) : number [d] = d := Nat.ofDigits_singleton

theorem number_append (p q : List Nat) :
    number (p ++ q) = number p + 65536 ^ p.length * number q :=
  Nat.ofDigits_append

theorem number_reverse_cons (d : Nat) (p : List Nat) :
    number (d :: p).reverse = number p.reverse + 65536 ^ p.length * d :=
  Nat.ofDigits_reverse_cons p d

theorem number_lt {p : List Nat} (h : AllDigits p) : number p < 65536 ^ p.length :=
  Nat.ofDigits_lt_base_pow_length (by decide) h

theorem allDigits_nil : AllDigits [] := fun _ hd => absurd hd List.not_mem_nil

theorem allDigits_cons {d : Nat} {p : List Nat} :
    AllDigits (d :: p) ↔ d < 65536 ∧ AllDigits p := List.forall_mem_cons

theorem number_head_tail (p : List Nat) : number p = p.headD 0 + 65536 * number p.tail := by
  cases p with
  | nil => rfl
  | cons d p => exact number_cons d p

theorem AllDigits.headD {p : List Nat} (h : AllDigits p) : p.headD 0 < 65536 := by
  cases p with
  | nil => decide
  | cons d p => exact h d List.mem_cons_self

theorem AllDigits.tail {p : List Nat} (h : AllDigits p) : AllDigits p.tail :=
  fun d hd => h d (List.mem_of_mem_tail hd)

theorem allDigits_digitList (n : Nat) : AllDigits (digitList n) := by
  intro d hd
  rw [List.eq_of_mem_replicate hd]
  decide

theorem number_digitList (n : Nat) : number (digitList n) = 0 := Nat.ofDigits_replicate_zero

/-! ## Addition and subtraction -/

section

variable {w : Nat}

theorem addDigits_spec (hw : 32 ≤ w) (k : Nat) : ∀ (carry : Nat) (pn pm : List Nat), carry ≤ 1 →
    AllDigits pn → AllDigits pm →
    AllDigits (addDigits w k carry pn pm) ∧ (addDigits w k carry pn pm).length = k ∧
      number (addDigits w k carry pn pm) = (number pn + number pm + carry) % 65536 ^ k := by
  induction k with
  | zero =>
      intro carry pn pm _ _ _
      exact ⟨allDigits_nil, rfl, (Nat.mod_one _).symm⟩
  | succ k ih =>
      intro carry pn pm hc hpn hpm
      have hn := hpn.headD
      have hm := hpm.headD
      have hpow : (2 : Nat) ^ 32 ≤ 2 ^ w := Nat.pow_le_pow_right (by decide) hw
      rw [addDigits, Nat.mod_eq_of_lt (by omega : pn.headD 0 + pm.headD 0 + carry < 2 ^ w)]
      obtain ⟨hdigits, hlen, hval⟩ := ih ((pn.headD 0 + pm.headD 0 + carry) / 65536) pn.tail pm.tail
        (by omega) hpn.tail hpm.tail
      rw [hiHalf_of_lt (by omega), loHalf_eq]
      refine ⟨allDigits_cons.2 ⟨Nat.mod_lt _ (by decide), hdigits⟩, by rw [List.length_cons, hlen],
        ?_⟩
      rw [number_cons, hval, number_head_tail pn, number_head_tail pm, Nat.pow_succ', Nat.mod_mul]
      have hmod : (pn.headD 0 + 65536 * number pn.tail + (pm.headD 0 + 65536 * number pm.tail) +
          carry) % 65536 = (pn.headD 0 + pm.headD 0 + carry) % 65536 := by omega
      have hdiv : (pn.headD 0 + 65536 * number pn.tail + (pm.headD 0 + 65536 * number pm.tail) +
          carry) / 65536 = number pn.tail + number pm.tail +
            (pn.headD 0 + pm.headD 0 + carry) / 65536 := by omega
      rw [hmod, hdiv]

theorem subDigits_step (k : Nat) (carry : Bool) {pn pm : List Nat} (hn : pn.headD 0 < 65536)
    (hm : pm.headD 0 < 65536) : ∃ v c, v < 65536 ∧
      v + pm.headD 0 + carry.toNat = pn.headD 0 + 65536 * Bool.toNat c ∧
      subDigits (k + 1) carry pn pm = v :: subDigits k c pn.tail pm.tail := by
  have hdigit : ∀ x y : Nat, (x + 2 ^ 32 - y) % 2 ^ 32 &&& natMask =
      (x + 2 ^ 32 - y) % 2 ^ 32 % 65536 := fun _ _ => Nat.and_two_pow_sub_one_eq_mod _ 16
  rw [subDigits]
  generalize pn.headD 0 = vn at *
  generalize pm.headD 0 = vm at *
  refine ⟨_, _, ?_, ?_, rfl⟩
  · rw [hdigit]
    exact Nat.mod_lt _ (by decide)
  · rw [hdigit]
    cases carry with
    | false =>
        rw [if_neg Bool.false_ne_true, Bool.toNat_false]
        by_cases hlt : vn < vm
        · rw [if_pos hlt, Bool.toNat_true]
          omega
        · rw [if_neg hlt, Bool.toNat_false]
          omega
    | true =>
        rw [if_pos rfl, Bool.toNat_true]
        by_cases hz : vn = 0
        · rw [if_neg (not_not_intro hz)]
          simp only [natMask]
          rw [if_neg (by omega : ¬ 65535 < vm), Bool.toNat_true]
          omega
        · rw [if_pos hz]
          dsimp only
          by_cases hlt : vn - 1 < vm
          · rw [if_pos hlt, Bool.toNat_true]
            omega
          · rw [if_neg hlt, Bool.toNat_false]
            omega

/-- A borrow that is left over at the end counts as much as all digits. -/
theorem subDigits_spec (k : Nat) : ∀ (carry : Bool) (pn pm : List Nat), AllDigits pn →
    AllDigits pm → pn.length ≤ k → pm.length ≤ k →
    AllDigits (subDigits k carry pn pm) ∧ (subDigits k carry pn pm).length = k ∧
      ∃ b, number (subDigits k carry pn pm) + number pm + carry.toNat =
        number pn + b * 65536 ^ k := by
  induction k with
  | zero =>
      intro carry pn pm _ _ hn hm
      rw [List.length_eq_zero_iff.1 (Nat.le_zero.1 hn),
        List.length_eq_zero_iff.1 (Nat.le_zero.1 hm)]
      exact ⟨allDigits_nil, rfl, carry.toNat, by simp [subDigits]⟩
  | succ k ih =>
      intro carry pn pm hpn hpm hlenn hlenm
      have hn := hpn.headD
      have hm := hpm.headD
      -- the digit of the result and the next borrow
      obtain ⟨v, c, hv, hstep, heq⟩ := subDigits_step k carry hn hm
      obtain ⟨hdigits, hlen, b, hval⟩ := ih c pn.tail pm.tail hpn.tail hpm.tail
        (by rw [List.length_tail]; omega) (by rw [List.length_tail]; omega)
      rw [heq]
      refine ⟨allDigits_cons.2 ⟨hv, hdigits⟩, by rw [List.length_cons, hlen], b, ?_⟩
      rw [number_cons, number_head_tail pn, number_head_tail pm, Nat.pow_succ']
      calc v + 65536 * number (subDigits k c pn.tail pm.tail) +
            (pm.headD 0 + 65536 * number pm.tail) + carry.toNat
          = (v + pm.headD 0 + carry.toNat) +
              65536 * (number (subDigits k c pn.tail pm.tail) + number pm.tail) := by ring
        _ = pn.headD 0 + 65536 * (number (subDigits k c pn.tail pm.tail) + number pm.tail +
              c.toNat) := by rw [hstep]; ring
        _ = pn.headD 0 + 65536 * number pn.tail + b * (65536 * 65536 ^ k) := by rw [hval]; ring

/-! ## Multiplication -/

/-- A number that fits is added, and its carries stay in the list. -/
theorem addInto_spec (hw : 32 ≤ w) (ps : List Nat) : ∀ em : Nat, em + 65536 ≤ 2 ^ 32 →
    AllDigits ps → number ps + em < 65536 ^ ps.length →
    AllDigits (addInto w em ps) ∧ (addInto w em ps).length = ps.length ∧
      number (addInto w em ps) = number ps + em := by
  induction ps with
  | nil =>
      intro em _ _ hfit
      have hz : em = 0 := by simpa using hfit
      exact ⟨allDigits_nil, rfl, by rw [hz]; rfl⟩
  | cons vs ps ih =>
      intro em hem hps hfit
      rw [addInto]
      split
      · next hz =>
          rw [hz]
          exact ⟨hps, rfl, rfl⟩
      next hz =>
      obtain ⟨hvs, hps⟩ := allDigits_cons.1 hps
      have hpow : (2 : Nat) ^ 32 ≤ 2 ^ w := Nat.pow_le_pow_right (by decide) hw
      have hlt : vs + em < 2 ^ 32 := by omega
      rw [Nat.mod_eq_of_lt (Nat.lt_of_lt_of_le hlt hpow)]
      rw [number_cons, List.length_cons, Nat.pow_succ'] at hfit
      have hrest : number ps + (vs + em) / 65536 < 65536 ^ ps.length := by
        generalize 65536 ^ ps.length = b at hfit ⊢
        omega
      obtain ⟨hdigits, hlen, hval⟩ := ih ((vs + em) / 65536) (by omega) hps hrest
      dsimp only
      rw [hiHalf_of_lt hlt, loHalf_eq]
      refine ⟨allDigits_cons.2 ⟨Nat.mod_lt _ (by decide), hdigits⟩, ?_, ?_⟩
      · rw [List.length_cons, hlen, List.length_cons]
      · rw [number_cons, hval, number_cons]
        omega

/-- What fits in a list fits in its tail without the first digit. -/
theorem fits_tail {d x n : Nat} (h : d + 65536 * x < 65536 ^ (n + 1)) : x < 65536 ^ n := by
  rw [Nat.pow_succ'] at h
  generalize 65536 ^ n = b at h ⊢
  omega

theorem mul_digits_lt {x y : Nat} (hx : x < 65536) (hy : y < 65536) : x * y + 65536 ≤ 2 ^ 32 := by
  have h := Nat.mul_le_mul (Nat.le_sub_one_of_lt hx) (Nat.le_sub_one_of_lt hy)
  omega

theorem mulInto_spec (hw : 32 ≤ w) {en : Nat} (hen : en < 65536) (pt : List Nat) :
    ∀ pr : List Nat, AllDigits pt → AllDigits pr →
      number pr + en * number pt < 65536 ^ pr.length →
      AllDigits (mulInto w en pt pr) ∧ (mulInto w en pt pr).length = pr.length ∧
        number (mulInto w en pt pr) = number pr + en * number pt := by
  induction pt with
  | nil => exact fun pr _ hpr _ => ⟨hpr, rfl, rfl⟩
  | cons vm pt ih =>
      intro pr hpt hpr hfit
      obtain ⟨hvm, hpt⟩ := allDigits_cons.1 hpt
      have hprod := mul_digits_lt hen hvm
      have hpow : (2 : Nat) ^ 32 ≤ 2 ^ w := Nat.pow_le_pow_right (by decide) hw
      have hsplit : en * number (vm :: pt) = en * vm + 65536 * (en * number pt) := by
        rw [number_cons]
        ring
      rw [hsplit] at hfit ⊢
      obtain ⟨hdigits, hlen, hval⟩ := addInto_spec hw pr (en * vm) hprod hpr (by omega)
      rw [mulInto, Nat.mod_eq_of_lt (by omega : en * vm < 2 ^ w)]
      cases hadd : addInto w (en * vm) pr with
      | nil =>
          rw [hadd] at hlen hval
          rw [← hlen] at hfit
          have hz : number pr + (en * vm + 65536 * (en * number pt)) = 0 := by simpa using hfit
          exact ⟨allDigits_nil, hlen, hz.symm⟩
      | cons d pr' =>
          rw [hadd] at hdigits hlen hval
          obtain ⟨hd, hpr'⟩ := allDigits_cons.1 hdigits
          rw [number_cons] at hval
          rw [← hlen, List.length_cons] at hfit ⊢
          have hrest : number pr' + en * number pt < 65536 ^ pr'.length :=
            fits_tail (d := d) (by omega)
          obtain ⟨hdigits', hlen', hval'⟩ := ih pr' hpt hpr' hrest
          refine ⟨allDigits_cons.2 ⟨hd, hdigits'⟩, by rw [List.length_cons, hlen'], ?_⟩
          rw [number_cons, hval']
          omega

theorem mulDigits_spec (hw : 32 ≤ w) {pm : List Nat} (hpm : AllDigits pm) (pn : List Nat) :
    ∀ q : List Nat, AllDigits pn → AllDigits q →
      number q + number pn * number pm < 65536 ^ q.length →
      AllDigits (mulDigits w pm pn q) ∧
        number (mulDigits w pm pn q) = number q + number pn * number pm := by
  induction pn with
  | nil => exact fun q _ hq _ => ⟨hq, by rw [mulDigits]; simp [number]⟩
  | cons vn pn ih =>
      intro q hpn hq hfit
      obtain ⟨hvn, hpn⟩ := allDigits_cons.1 hpn
      have hsplit : number (vn :: pn) * number pm =
          vn * number pm + 65536 * (number pn * number pm) := by
        rw [number_cons]
        ring
      rw [hsplit] at hfit ⊢
      obtain ⟨hdigits, hlen, hval⟩ := mulInto_spec hw hvn pm q hpm hq (by omega)
      rw [mulDigits]
      cases hmul : mulInto w vn pm q with
      | nil =>
          rw [hmul] at hlen hval
          rw [← hlen] at hfit
          have hz : number q + (vn * number pm + 65536 * (number pn * number pm)) = 0 := by
            simpa using hfit
          exact ⟨allDigits_nil, hz.symm⟩
      | cons d q' =>
          rw [hmul] at hdigits hlen hval
          obtain ⟨hd, hq'⟩ := allDigits_cons.1 hdigits
          rw [number_cons] at hval
          rw [← hlen, List.length_cons] at hfit
          have hrest : number q' + number pn * number pm < 65536 ^ q'.length :=
            fits_tail (d := d) (by omega)
          obtain ⟨hdigits', hval'⟩ := ih q' hpn hq' hrest
          refine ⟨allDigits_cons.2 ⟨hd, hdigits'⟩, ?_⟩
          rw [number_cons, hval']
          omega

/-! ## Shifts -/

/-- Shifted digits: the bits that come in lie below those that are there. -/
theorem shiftLeftDigits_spec (hw : 32 ≤ w) {em : Nat} (hem : em < 16) (pn : List Nat) :
    ∀ carry : Nat, carry < 2 ^ em → AllDigits pn →
      AllDigits (shiftLeftDigits w em carry pn) ∧
        number (shiftLeftDigits w em carry pn) = number pn * 2 ^ em + carry := by
  induction pn with
  | nil =>
      intro carry hc _
      have hpow : (2 : Nat) ^ em ≤ 2 ^ 16 := Nat.pow_le_pow_right (by decide) (by omega)
      refine ⟨allDigits_cons.2 ⟨by omega, allDigits_nil⟩, ?_⟩
      simp [shiftLeftDigits, number]
  | cons vn pn ih =>
      intro carry hc hpn
      obtain ⟨hvn, hpn⟩ := allDigits_cons.1 hpn
      rw [shiftLeftDigits]
      split
      · have hpow : (2 : Nat) ^ 32 ≤ 2 ^ w := Nat.pow_le_pow_right (by decide) hw
        have hem2 : (65536 : Nat) = 2 ^ em * 2 ^ (16 - em) := by
          rw [← Nat.pow_add, show em + (16 - em) = 16 by omega]
        have hle : (2 : Nat) ^ em ≤ 2 ^ 15 := Nat.pow_le_pow_right (by decide) (by omega)
        have hmul : vn * 2 ^ em ≤ 65535 * 2 ^ 15 := Nat.mul_le_mul (by omega) hle
        have hlt : vn * 2 ^ em < 2 ^ 32 := by omega
        rw [Nat.shiftLeft_eq, Nat.mod_eq_of_lt (by omega : vn * 2 ^ em < 2 ^ w)]
        have hlo : loHalf (vn * 2 ^ em) = vn % 2 ^ (16 - em) * 2 ^ em := by
          rw [loHalf_eq, hem2, Nat.mul_comm vn, Nat.mul_mod_mul_left, Nat.mul_comm]
        have hhi : vn * 2 ^ em / 65536 < 2 ^ em := by
          rw [Nat.div_lt_iff_lt_mul (by decide), Nat.mul_comm]
          exact Nat.mul_lt_mul_of_pos_left hvn (Nat.two_pow_pos em)
        have hor : loHalf (vn * 2 ^ em) ||| carry = loHalf (vn * 2 ^ em) + carry := by
          rw [hlo, ← Nat.shiftLeft_eq, Nat.shiftLeft_add_eq_or_of_lt hc]
        obtain ⟨hdigits, hval⟩ := ih (vn * 2 ^ em / 65536) hhi hpn
        dsimp only
        rw [hor, hiHalf_of_lt hlt]
        refine ⟨allDigits_cons.2 ⟨?_, hdigits⟩, ?_⟩
        · rw [hlo]
          have hmod : vn % 2 ^ (16 - em) + 1 ≤ 2 ^ (16 - em) := Nat.mod_lt _ (Nat.two_pow_pos _)
          have hfit := Nat.mul_le_mul_right (2 ^ em) hmod
          rw [Nat.add_mul, Nat.one_mul, Nat.mul_comm (2 ^ (16 - em)), ← hem2] at hfit
          omega
        · rw [number_cons, hval, number_cons, loHalf_eq]
          have hdm := Nat.mod_add_div (vn * 2 ^ em) 65536
          calc vn * 2 ^ em % 65536 + carry + 65536 * (number pn * 2 ^ em + vn * 2 ^ em / 65536)
              = (vn * 2 ^ em % 65536 + 65536 * (vn * 2 ^ em / 65536)) + carry +
                  65536 * (number pn * 2 ^ em) := by ring
            _ = (vn + 65536 * number pn) * 2 ^ em + carry := by rw [hdm]; ring
      · next hz =>
          have hz' : em = 0 := Decidable.of_not_not hz
          subst hz'
          obtain ⟨hdigits, hval⟩ := ih carry hc hpn
          refine ⟨allDigits_cons.2 ⟨hvn, hdigits⟩, ?_⟩
          rw [number_cons, hval, number_cons]
          have hc0 : carry = 0 := by omega
          rw [hc0]
          omega

end

theorem dropDigits_spec (pn : List Nat) : ∀ em : Nat,
    (∃ front, pn = front ++ (dropDigits em pn).2) ∧
      ((dropDigits em pn).2 ≠ [] → (dropDigits em pn).1 < 16) ∧
      (AllDigits pn → number (dropDigits em pn).2 / 2 ^ (dropDigits em pn).1 =
        number pn / 2 ^ em) := by
  induction pn with
  | nil => exact fun em => ⟨⟨[], rfl⟩, fun h => absurd rfl h, fun _ => rfl⟩
  | cons d pn ih =>
      intro em
      rw [dropDigits]
      split
      · next hge =>
          obtain ⟨⟨front, hfront⟩, hlt, hval⟩ := ih (em - natDigits)
          refine ⟨⟨d :: front, ?_⟩, hlt, fun hdigits => ?_⟩
          · rw [List.cons_append, ← hfront]
          · obtain ⟨hd, hpn⟩ := allDigits_cons.1 hdigits
            rw [hval hpn, number_cons]
            have hsplit : (2 : Nat) ^ em = 65536 * 2 ^ (em - 16) := by
              rw [show (65536 : Nat) = 2 ^ 16 from rfl, ← Nat.pow_add,
                show 16 + (em - 16) = em from Nat.add_sub_cancel' hge]
            rw [hsplit, ← Nat.div_div_eq_div_mul]
            congr 1
            omega
      · next hlt =>
          exact ⟨⟨[], rfl⟩, fun _ => Nat.lt_of_not_le hlt, fun _ => rfl⟩

/-- Shifted digits, most significant first: what comes in is the remainder of the digit before. -/
theorem shiftRightDigits_spec {em : Nat} (hem : em < 16) (q : List Nat) :
    ∀ c : Nat, c < 2 ^ em → AllDigits q →
      AllDigits (shiftRightDigits em (c * 2 ^ (16 - em)) q) ∧
        (shiftRightDigits em (c * 2 ^ (16 - em)) q).length = q.length ∧
        number (shiftRightDigits em (c * 2 ^ (16 - em)) q).reverse =
          (c * 65536 ^ q.length + number q.reverse) / 2 ^ em := by
  have hem2 : (65536 : Nat) = 2 ^ (16 - em) * 2 ^ em := by
    rw [← Nat.pow_add, show 16 - em + em = 16 by omega]
  induction q with
  | nil =>
      intro c hc _
      refine ⟨allDigits_nil, rfl, ?_⟩
      simp [shiftRightDigits, number, Nat.div_eq_of_lt hc]
  | cons vn q ih =>
      intro c hc hq
      obtain ⟨hvn, hq⟩ := allDigits_cons.1 hq
      have hdiv : vn / 2 ^ em < 2 ^ (16 - em) := by
        rw [Nat.div_lt_iff_lt_mul (Nat.two_pow_pos em), ← hem2]
        exact hvn
      have hdm := Nat.div_add_mod vn (2 ^ em)
      have hen : combineValues 0 vn >>> em = vn * 2 ^ (16 - em) := by
        rw [combineValues_eq, Nat.zero_add, Nat.shiftRight_eq_div_pow]
        conv => lhs; rw [hem2, ← Nat.mul_assoc]
        exact Nat.mul_div_cancel _ (Nat.two_pow_pos em)
      have hhi : hiHalf (vn * 2 ^ (16 - em)) = vn / 2 ^ em := by
        rw [hiHalf_eq]
        conv => lhs; lhs; rw [hem2, Nat.mul_comm (2 ^ (16 - em)),
          Nat.mul_div_mul_right _ _ (Nat.two_pow_pos _)]
        exact Nat.mod_eq_of_lt (Nat.lt_of_le_of_lt (Nat.div_le_self _ _) hvn)
      have hlo : loHalf (vn * 2 ^ (16 - em)) = vn % 2 ^ em * 2 ^ (16 - em) := by
        rw [loHalf_eq]
        conv => lhs; rhs; rw [hem2, Nat.mul_comm (2 ^ (16 - em))]
        rw [Nat.mul_mod_mul_right]
      have hor : vn / 2 ^ em ||| c * 2 ^ (16 - em) = c * 2 ^ (16 - em) + vn / 2 ^ em := by
        rw [Nat.or_comm, ← Nat.shiftLeft_eq, Nat.shiftLeft_add_eq_or_of_lt hdiv]
      obtain ⟨hdigits, hlen, hval⟩ := ih (vn % 2 ^ em) (Nat.mod_lt _ (Nat.two_pow_pos em)) hq
      rw [shiftRightDigits]
      rw [hen, hhi, hlo, hor]
      refine ⟨allDigits_cons.2 ⟨?_, hdigits⟩, by rw [List.length_cons, hlen, List.length_cons], ?_⟩
      · have hmul := Nat.mul_le_mul_right (2 ^ (16 - em)) hc
        rw [Nat.succ_mul, Nat.mul_comm (2 ^ em), ← hem2] at hmul
        omega
      · rw [number_reverse_cons, number_reverse_cons, hlen, hval]
        have hcarry : c * 65536 ^ (q.length + 1) =
            65536 ^ q.length * (c * 2 ^ (16 - em)) * 2 ^ em := by
          calc c * 65536 ^ (q.length + 1) = 65536 ^ q.length * c * 65536 := by
                rw [Nat.pow_succ]; ring
            _ = 65536 ^ q.length * c * (2 ^ (16 - em) * 2 ^ em) := by rw [← hem2]
            _ = 65536 ^ q.length * (c * 2 ^ (16 - em)) * 2 ^ em := by ring
        have hexp : c * 65536 ^ (q.length + 1) + (number q.reverse + 65536 ^ q.length * vn) =
            vn % 2 ^ em * 65536 ^ q.length + number q.reverse +
              65536 ^ q.length * (c * 2 ^ (16 - em) + vn / 2 ^ em) * 2 ^ em := by
          conv => lhs; rw [hcarry, ← hdm]
          ring
        rw [List.length_cons, hexp, Nat.add_mul_div_right _ _ (Nat.two_pow_pos em)]

/-! ## Bitwise operations -/

/-- An operation that works on the bits one by one. -/
structure Bitwise (f : Nat → Nat → Nat) : Prop where
  zero : f 0 0 = 0
  digit : ∀ {x y}, x < 65536 → y < 65536 → f x y < 65536
  cons : ∀ {x y}, x < 65536 → y < 65536 → ∀ a b,
    f (x + 65536 * a) (y + 65536 * b) = f x y + 65536 * f a b

/-- It is enough to know the bits. -/
theorem Bitwise.of_testBit {f : Nat → Nat → Nat} {g : Bool → Bool → Bool}
    (hg : g false false = false)
    (h : ∀ x y i, (f x y).testBit i = g (x.testBit i) (y.testBit i)) : Bitwise f := by
  have hdigit : ∀ {x y}, x < 65536 → y < 65536 → f x y < 65536 := by
    intro x y hx hy
    refine Nat.lt_pow_two_of_testBit (n := 16) _ fun i hi => ?_
    have hpow : (2 : Nat) ^ 16 ≤ 2 ^ i := Nat.pow_le_pow_right (by decide) hi
    rw [h, Nat.testBit_lt_two_pow (Nat.lt_of_lt_of_le hx hpow),
      Nat.testBit_lt_two_pow (Nat.lt_of_lt_of_le hy hpow), hg]
  refine ⟨?_, hdigit, fun {x y} hx hy a b => ?_⟩
  · refine Nat.eq_of_testBit_eq fun i => ?_
    rw [h, Nat.zero_testBit, hg]
  · refine Nat.eq_of_testBit_eq fun i => ?_
    have hbit : ∀ {c d : Nat}, c < 65536 →
        (c + 65536 * d).testBit i = if i < 16 then c.testBit i else d.testBit (i - 16) := by
      intro c d hc
      rw [Nat.add_comm]
      exact Nat.testBit_two_pow_mul_add d (show c < 2 ^ 16 from hc) i
    rw [h, hbit hx, hbit hy, hbit (hdigit hx hy)]
    split
    · exact (h x y i).symm
    · exact (h a b (i - 16)).symm

theorem bitwise_and : Bitwise (· &&& ·) :=
  Bitwise.of_testBit (g := and) rfl fun x y i => Nat.testBit_and x y i

theorem bitwise_or : Bitwise (· ||| ·) :=
  Bitwise.of_testBit (g := or) rfl fun x y i => Nat.testBit_or x y i

theorem bitwise_xor : Bitwise (· ^^^ ·) :=
  Bitwise.of_testBit (g := Bool.xor) rfl fun x y i => Nat.testBit_xor x y i

theorem length_bitDigits (f : Nat → Nat → Nat) (k : Nat) : ∀ pn pm : List Nat,
    (bitDigits f k pn pm).length = k := by
  induction k with
  | zero => exact fun _ _ => rfl
  | succ k ih =>
      intro pn pm
      rw [bitDigits, List.length_cons, ih]

theorem bitDigits_spec {f : Nat → Nat → Nat} (hf : Bitwise f) (k : Nat) : ∀ pn pm : List Nat,
    AllDigits pn → AllDigits pm → pn.length ≤ k → pm.length ≤ k →
    AllDigits (bitDigits f k pn pm) ∧ number (bitDigits f k pn pm) = f (number pn) (number pm) := by
  induction k with
  | zero =>
      intro pn pm _ _ hn hm
      rw [List.length_eq_zero_iff.1 (Nat.le_zero.1 hn),
        List.length_eq_zero_iff.1 (Nat.le_zero.1 hm)]
      exact ⟨allDigits_nil, hf.zero.symm⟩
  | succ k ih =>
      intro pn pm hpn hpm hlenn hlenm
      obtain ⟨hdigits, hval⟩ := ih pn.tail pm.tail hpn.tail hpm.tail
        (by rw [List.length_tail]; omega) (by rw [List.length_tail]; omega)
      rw [bitDigits]
      refine ⟨allDigits_cons.2 ⟨hf.digit hpn.headD hpm.headD, hdigits⟩, ?_⟩
      rw [number_cons, hval, ← hf.cons hpn.headD hpm.headD, ← number_head_tail,
        ← number_head_tail]

/-! ## Comparison -/

/-- The difference that is found last counts. -/
theorem compareDigits_spec (ln : List Nat) : ∀ (lm : List Nat) (c : Int), AllDigits ln →
    AllDigits lm → ln.length = lm.length →
    (number ln < number lm → compareDigits c ln lm = -1) ∧
      (number ln = number lm → compareDigits c ln lm = c) ∧
      (number lm < number ln → compareDigits c ln lm = 1) := by
  induction ln with
  | nil =>
      intro lm c _ _ hlen
      obtain rfl := List.length_eq_zero_iff.1 hlen.symm
      exact ⟨fun h => absurd h (Nat.lt_irrefl _), fun _ => rfl, fun h => absurd h (Nat.lt_irrefl _)⟩
  | cons vn ln ih =>
      intro lm c hn hm hlen
      cases lm with
      | nil => cases hlen
      | cons vm lm =>
          obtain ⟨hvn, hn⟩ := allDigits_cons.1 hn
          obtain ⟨hvm, hm⟩ := allDigits_cons.1 hm
          obtain ⟨hlt, heq, hgt⟩ := ih lm (if vn ≠ vm then if vn > vm then 1 else -1 else c) hn hm
            (Nat.succ.inj hlen)
          rw [compareDigits, number_cons, number_cons]
          refine ⟨fun h => ?_, fun h => ?_, fun h => ?_⟩
          · rcases Nat.lt_trichotomy (number ln) (number lm) with hc | hc | hc
            · exact hlt hc
            · rw [heq hc, if_pos (by omega), if_neg (by omega)]
            · omega
          · rw [heq (by omega), if_neg (by omega)]
          · rcases Nat.lt_trichotomy (number ln) (number lm) with hc | hc | hc
            · omega
            · rw [heq hc, if_pos (by omega), if_pos (by omega)]
            · exact hgt hc

end Tendra.Ref.Tdfc
