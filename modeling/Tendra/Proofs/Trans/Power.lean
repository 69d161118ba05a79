import Tendra.Ref.Trans.Power
import Tendra.Proofs.Trans.Division

/-!
# Division on Power

The sequences of `do_div` and `do_rem` are executed on any state. Where the result has the
register of an operand, what is read of the operand later is the result, and the proofs
keep both values apart. The inline sequences for powers of two come last.
-/

namespace Tendra.Ref.Trans.Power

open Machine Word

variable {y x : BitVec 32}

variable {lhsReg rhsReg finalReg safeReg : Reg} {l r q : BitVec 32} {mq : Option (BitVec 32)}
  {divide : Op} {s u : State}

section

variable (mq : Option (BitVec 32)) (x y : BitVec 32)

@[simp] theorem apply_a : Op.a.apply mq x y = some (x + y, mq) := rfl

@[simp] theorem apply_s : Op.s.apply mq x y = some (x - y, mq) := rfl

@[simp] theorem apply_sf : Op.sf.apply mq x y = some (y - x, mq) := rfl

@[simp] theorem apply_xor : Op.xor.apply mq x y = some (x ^^^ y, mq) := rfl

@[simp] theorem apply_and : Op.and.apply mq x y = some (x &&& y, mq) := rfl

@[simp] theorem apply_muls : Op.muls.apply mq x y = some (x * y, none) := rfl

end

@[simp] theorem machine_exec : machine.exec = exec := rfl

@[simp] theorem machine_label : machine.label = labelOf := rfl

theorem exec_rrr {op : Op} {src1 src2 : Reg} {r : BitVec 32 × Option (BitVec 32)}
    (h : op.apply s.mq (s.regs src1) (s.regs src2) = some r) {dest : Reg} :
    machine.exec (.rrr op src1 src2 dest) s =
      some ({ s with regs := Function.update s.regs dest r.1, mq := r.2 }, .step) := by
  rw [machine_exec, exec, h, Option.map_some]

theorem nextCreg_ne (creg : Nat) : nextCreg creg ≠ creg := by
  rw [nextCreg]
  split_ifs <;> omega

/-- The mask of the sign tells whether two words have the same sign. -/
theorem sign_eq_iff (x y : BitVec 32) : (x ^^^ y) &&& 0x80000000 = 0 ↔ x.msb = y.msb := by
  have hbit : ∀ i, i < 32 → (0x80000000#32).getLsbD i = decide (i = 31) := by decide
  have hand : (x ^^^ y) &&& 0x80000000 = 0 ↔ (x ^^^ y).getLsbD 31 = false := by
    constructor
    · intro h
      have hb := congrArg (fun z => z.getLsbD 31) h
      simpa [hbit] using hb
    · intro h
      apply BitVec.eq_of_getLsbD_eq
      intro i hi
      rw [BitVec.getLsbD_and, show (2147483648 : BitVec 32) = 0x80000000#32 from rfl, hbit i hi]
      by_cases h31 : i = 31
      · rw [h31, h]
        rfl
      · rw [decide_eq_false h31, Bool.and_false]
        exact BitVec.getLsbD_zero.symm
  rw [hand, BitVec.getLsbD_xor, BitVec.msb_eq_getLsbD_last, BitVec.msb_eq_getLsbD_last]
  exact bne_eq_false_iff_eq

theorem compare_toInt_zero (x : BitVec 32) : compare x.toInt (0 : BitVec 32).toInt = .eq ↔
    x = 0 := by
  rw [compare_eq_iff_eq, BitVec.toInt_inj]

/-- The end of the sequence, where the signs differ: one is taken off if the quotient times the
divisor is not the dividend. -/
theorem run_fixQuotient (u : State) (hl : lhsReg ≠ rTmp0) (hf : finalReg ≠ rTmp0) (creg lab : Nat) :
    ∃ t, machine.run [.rrr .muls rhsReg finalReg rTmp0, .rrr .sf rTmp0 lhsReg rTmp0,
      .cmpRi rTmp0 0 creg, .bc .beq creg lab, .rir .a finalReg (-1) finalReg, .setLabel lab]
      .step u = some (t, .step) ∧
      t.regs finalReg =
        if u.regs lhsReg - u.regs rhsReg * u.regs finalReg = 0 then u.regs finalReg
        else u.regs finalReg + -1 := by
  simp only [run, machine_exec, exec, apply_muls, apply_sf, Option.map_some,
    Option.bind_some, Function.update_apply, hl, if_true, if_false, Cond.holds,
    decide_eq_true_eq, compare_toInt_zero]
  by_cases hzero : u.regs lhsReg - u.regs rhsReg * u.regs finalReg = 0
  · simp only [hzero, run, machine_label, labelOf, reduceCtorEq, if_true, if_false]
    exact ⟨_, rfl, by simp only [Function.update_apply, hf, if_false]⟩
  · simp only [hzero, run, apply_a, Option.map_some, exec, machine_exec, Option.bind_some, if_false]
    exact ⟨_, rfl, by simp only [Function.update_apply, hf, if_true, if_false]⟩

theorem run_div1Ins (hl : lhsReg ≠ rTmp0) (hr : rhsReg ≠ rTmp0) (hf : finalReg ≠ rTmp0)
    (hdivide : divide.apply s.mq (s.regs lhsReg) (s.regs rhsReg) = some (q, mq)) (creg lab : Nat) :
    ∃ t, machine.Does (div1Ins divide lhsReg rhsReg finalReg creg lab) s t ∧
      t.regs finalReg =
        if (s.regs lhsReg).msb = (s.regs rhsReg).msb then q
        else if Function.update s.regs finalReg q lhsReg -
            Function.update s.regs finalReg q rhsReg * q = 0 then q
        else q + -1 := by
  simp only [div1Ins, Does, run, machine_exec, exec, apply_xor, apply_and, Option.map_some,
    Option.bind_some, Function.update_apply, hl, hr, if_true, if_false, hdivide, Cond.holds,
    decide_eq_true_eq, compare_toInt_zero, sign_eq_iff]
  by_cases hsign : (s.regs lhsReg).msb = (s.regs rhsReg).msb
  · -- the branch goes past everything else
    simp only [hsign, if_true, run, machine_label, labelOf, reduceCtorEq, if_false]
    exact ⟨_, rfl, by simp only [Function.update_self]⟩
  · simp only [hsign, if_false]
    obtain ⟨t, ht, hfinal⟩ := run_fixQuotient _ hl hf (nextCreg (nextCreg creg)) lab
    refine ⟨t, ht, hfinal.trans ?_⟩
    simp only [Function.update_apply, hl, hr, if_true, if_false]

/-- The end of the other sequence: the divisor is added to a remainder that is not zero. -/
theorem run_fixRemainder (u : State) (creg lab : Nat) :
    ∃ t, machine.run [.cmpRi finalReg 0 creg, .bc .beq creg lab, .rrr .a finalReg rhsReg finalReg,
      .setLabel lab] .step u = some (t, .step) ∧
      t.regs finalReg =
        if u.regs finalReg = 0 then u.regs finalReg else u.regs finalReg + u.regs rhsReg := by
  simp only [run, machine_exec, exec, Option.bind_some, Function.update_apply, if_true, Cond.holds,
    decide_eq_true_eq, compare_toInt_zero]
  by_cases hzero : u.regs finalReg = 0
  · simp only [hzero, run, machine_label, labelOf, reduceCtorEq, if_true, if_false]
    exact ⟨_, rfl, hzero⟩
  · simp only [hzero, run, apply_a, Option.map_some, exec, machine_exec, Option.bind_some, if_false]
    exact ⟨_, rfl, by simp only [Function.update_apply, if_true]⟩

theorem run_modIns (hl : lhsReg ≠ rTmp0) (hr : rhsReg ≠ rTmp0) (hf : finalReg ≠ rTmp0)
    (hdivide : divide.apply s.mq (s.regs lhsReg) (s.regs rhsReg) = some (q, mq)) (creg lab : Nat) :
    ∃ t, machine.Does (modIns divide lhsReg rhsReg finalReg creg lab) s t ∧
      t.regs finalReg =
        let m := if lhsReg = finalReg then 0 else s.regs lhsReg - s.regs rhsReg * q
        if (s.regs lhsReg).msb = (s.regs rhsReg).msb then m
        else if m = 0 then m
        else m + if rhsReg = finalReg then m else s.regs rhsReg := by
  simp only [modIns, Does, run, machine_exec, exec, apply_xor, apply_and, apply_muls, apply_sf,
    Option.map_some, Option.bind_some, Function.update_apply, hl, hr, hf, if_true, if_false,
    hdivide, Cond.holds, decide_eq_true_eq, compare_toInt_zero, sign_eq_iff]
  by_cases hsign : (s.regs lhsReg).msb = (s.regs rhsReg).msb
  · simp only [hsign, if_true, run, machine_label, labelOf, reduceCtorEq, if_false]
    refine ⟨_, rfl, ?_⟩
    simp only [Function.update_apply, if_true]
    split <;> simp
  · simp only [hsign, if_false]
    obtain ⟨t, ht, hfinal⟩ := run_fixRemainder _ (nextCreg (nextCreg creg)) lab
    refine ⟨t, ht, hfinal.trans ?_⟩
    simp only [Function.update_apply, hr, if_true, if_false]
    by_cases h1 : lhsReg = finalReg
    · simp [h1]
    · by_cases h2 : rhsReg = finalReg <;> simp [h1, h2]

/-! ## The extended divide -/

/-- `div` with zero above the dividend is an unsigned division, if the quotient has 31 bits. -/
theorem apply_div (hr : r ≠ 0) (hmsb : r.msb = false) :
    Op.div.apply (some l) 0 r =
      if r = 1 ∧ 2 ^ 31 ≤ l.toNat then none else some (l / r, some (l % r)) := by
  have hdividend : ((0 : BitVec 32) ++ l).toInt = l.toNat := by
    have hnat : ((0 : BitVec 32) ++ l).toNat = l.toNat := by
      rw [BitVec.toNat_append]
      simp
    have hlt := l.isLt
    rw [BitVec.toInt_eq_toNat_of_lt (by rw [hnat]; omega), hnat]
  have hdivisor : r.toInt = r.toNat := BitVec.toInt_eq_toNat_of_msb hmsb
  have hone : r = 1 ↔ r.toNat = 1 := by rw [← BitVec.toNat_inj]; rfl
  have hzero : r.toNat ≠ 0 := fun h => hr (BitVec.eq_of_toNat_eq h)
  have hlarge : 2 ^ 31 ≤ l.toNat / r.toNat ↔ r = 1 ∧ 2 ^ 31 ≤ l.toNat := by
    have hlt := l.isLt
    rw [Nat.le_div_iff_mul_le (by omega), hone]
    constructor
    · intro h
      have hlt : r.toNat < 2 := by
        by_contra hge
        have hmul := Nat.mul_le_mul_left (2 ^ 31) (Nat.not_lt.1 hge)
        omega
      obtain hr1 : r.toNat = 1 := by omega
      rw [hr1] at h
      exact ⟨hr1, by omega⟩
    · rintro ⟨hr1, h⟩
      rw [hr1]
      omega
  have hquotient : BitVec.ofInt 32 ((l.toNat : Int).tdiv r.toNat) = l / r := by
    rw [← Int.ofNat_tdiv, BitVec.ofInt_natCast, ← BitVec.toNat_udiv, BitVec.ofNat_toNat,
      BitVec.setWidth_eq]
  have hremainder : BitVec.ofInt 32 ((l.toNat : Int).tmod r.toNat) = l % r := by
    rw [← Int.ofNat_tmod, BitVec.ofInt_natCast, ← BitVec.toNat_umod, BitVec.ofNat_toNat,
      BitVec.setWidth_eq]
  rw [Op.apply]
  rw [hdividend, hdivisor, hquotient, hremainder]
  have hcond : (r = 0 ∨ (l.toNat : Int).tdiv r.toNat < -2 ^ 31 ∨
      2 ^ 31 ≤ (l.toNat : Int).tdiv r.toNat) ↔ r = 1 ∧ 2 ^ 31 ≤ l.toNat := by
    rw [← hlarge, ← Int.ofNat_tdiv]
    constructor
    · rintro (h | h | h)
      · exact absurd h hr
      · have hnonneg := Int.natCast_nonneg (l.toNat / r.toNat)
        omega
      · exact_mod_cast h
    · exact fun h => .inr (.inr (by exact_mod_cast h))
  simp only [hcond]

/-- The unsigned quotient, by cases on the size of the divisor. -/
theorem udiv_eq_one (hle : r.toNat ≤ l.toNat) (hmsb : r.msb = true) : l / r = 1 := by
  have hlarge := BitVec.msb_eq_true_iff_two_mul_ge.1 hmsb
  have hlt := l.isLt
  apply BitVec.eq_of_toNat_eq
  rw [BitVec.toNat_udiv]
  have hone : (1 : BitVec 32).toNat = 1 := rfl
  rw [hone]
  exact Nat.div_eq_of_lt_le (by omega) (by omega)

theorem umod_eq_sub (hle : r.toNat ≤ l.toNat) (hmsb : r.msb = true) : l % r = l - r := by
  have hlarge := BitVec.msb_eq_true_iff_two_mul_ge.1 hmsb
  have hlt := l.isLt
  apply BitVec.eq_of_toNat_eq
  rw [BitVec.toNat_umod, BitVec.toNat_sub_of_le (by exact hle),
    Nat.mod_eq_sub_mod hle, Nat.mod_eq_of_lt (by omega)]

theorem run_divu (hl : u.regs lhsReg = l) (hr : u.regs rhsReg = r) (hs : u.regs safeReg = r)
    (hsafe : safeReg ≠ finalReg) (hs0 : safeReg ≠ rTmp0) (hr0 : r ≠ 0) {creg1 creg2 : Nat}
    (hcreg : creg2 ≠ creg1) (lab : Nat) :
    (∃ t, machine.run [.cmplRr rhsReg lhsReg creg1, .cmpRi rhsReg 0 creg2, .mtmq lhsReg,
      .ldConst 0 finalReg, .bc .bgt creg1 lab, .ldConst 1 finalReg, .bc .blt creg2 lab,
      .ldConst 0 rTmp0, .rrr .div rTmp0 safeReg finalReg, .setLabel lab] .step u =
        some (t, .step) ∧ t.regs finalReg = l / r) ↔ ¬(r = 1 ∧ 2 ^ 31 ≤ l.toNat) := by
  have hneg : compare r.toInt (0 : BitVec 32).toInt = .lt ↔ r.msb = true := by
    rw [compare_lt_iff_lt, BitVec.msb_eq_toInt, decide_eq_true_eq]
    rfl
  simp only [run, machine_exec, exec, Option.bind_some, hl, hr, Function.update_apply, hcreg.symm,
    if_false, if_true, Cond.holds, decide_eq_true_eq, Nat.compare_eq_gt]
  by_cases hgt : l.toNat < r.toNat
  · simp only [hgt, run, machine_label, labelOf, reduceCtorEq, if_true, if_false]
    refine iff_of_true ⟨_, rfl, ?_⟩ (fun h => ?_)
    · simp only [Function.update_self]
      exact (BitVec.udiv_eq_zero_iff_eq_zero_or_lt.2 (.inr hgt)).symm
    · rw [h.1] at hgt
      have hone : (1 : BitVec 32).toNat = 1 := rfl
      omega
  simp only [hgt, run, if_false, machine_exec, exec, Option.bind_some, if_true, Cond.holds,
    decide_eq_true_eq, Function.update_apply, hneg]
  by_cases hmsb : r.msb = true
  · simp only [hmsb, run, machine_label, labelOf, reduceCtorEq, if_true, if_false]
    refine iff_of_true ⟨_, rfl, ?_⟩ (fun h => ?_)
    · simp only [Function.update_self, udiv_eq_one (Nat.not_lt.1 hgt) hmsb]
    · rw [h.1] at hmsb
      cases hmsb
  rw [Bool.not_eq_true] at hmsb
  simp only [hmsb, Bool.false_eq_true, if_false, run, machine_exec, exec, Option.bind_some,
    Function.update_apply, hs0, hsafe, hs, if_true, apply_div hr0 hmsb]
  by_cases hover : r = 1 ∧ 2 ^ 31 ≤ l.toNat
  · simp only [hover, and_self, if_true, Option.map_none, Option.bind_none, not_true_eq_false,
      iff_false]
    rintro ⟨t, ht, -⟩
    cases ht
  · simp only [hover, if_false, Option.map_some, Option.bind_some, run, machine_exec, exec,
      not_false_eq_true, iff_true]
    exact ⟨_, rfl, by simp only [Function.update_self]⟩

/-- The end of the sequence for the remainder, once the dividend is back in its register. -/
theorem run_remTail {creg : Nat} (hl : u.regs lhsReg = l) (hs : u.regs safeReg = r)
    (hmq : u.mq = some l) (hcr : u.cr creg = .lt ↔ r.msb = true) (hle : r.toNat ≤ l.toNat)
    (hsafe : safeReg ≠ finalReg) (hs0 : safeReg ≠ rTmp0) (hr0 : r ≠ 0) (lab : Nat) :
    (∃ t, machine.run [.rrr .s lhsReg safeReg finalReg, .bc .blt creg lab, .ldConst 0 rTmp0,
      .rrr .div rTmp0 safeReg rTmp0, .mfmq finalReg, .setLabel lab] .step u = some (t, .step) ∧
        t.regs finalReg = l % r) ↔ ¬(r = 1 ∧ 2 ^ 31 ≤ l.toNat) := by
  simp only [run, machine_exec, exec, Option.bind_some, apply_s, Option.map_some, hl, hs,
    Cond.holds, decide_eq_true_eq, hcr]
  by_cases hmsb : r.msb = true
  · simp only [hmsb, run, machine_label, labelOf, reduceCtorEq, if_true, if_false]
    refine iff_of_true ⟨_, rfl, ?_⟩ (fun h => ?_)
    · simp only [Function.update_self, umod_eq_sub hle hmsb]
    · rw [h.1] at hmsb
      cases hmsb
  rw [Bool.not_eq_true] at hmsb
  simp only [hmsb, Bool.false_eq_true, if_false, run, machine_exec, exec, Option.bind_some,
    Function.update_apply, hs0, hsafe, hs, hmq, if_true, apply_div hr0 hmsb]
  by_cases hover : r = 1 ∧ 2 ^ 31 ≤ l.toNat
  · simp only [hover, and_self, if_true, Option.map_none, Option.bind_none, not_true_eq_false,
      iff_false]
    rintro ⟨t, ht, -⟩
    cases ht
  · simp only [hover, if_false, Option.map_some, Option.bind_some, run, machine_exec, exec,
      not_false_eq_true, iff_true]
    exact ⟨_, rfl, by simp only [Function.update_self]⟩

theorem run_remu (hl : u.regs lhsReg = l) (hr : u.regs rhsReg = r) (hs : u.regs safeReg = r)
    (hsafe : safeReg ≠ finalReg) (hs0 : safeReg ≠ rTmp0) (hr0 : r ≠ 0) {creg1 creg2 : Nat}
    (hcreg : creg2 ≠ creg1) (lab : Nat) :
    (∃ t, machine.run ([.cmplRr rhsReg lhsReg creg1, .cmpRi rhsReg 0 creg2, .mtmq lhsReg] ++
      movRrIns lhsReg finalReg ++ [.bc .bgt creg1 lab] ++
      (if lhsReg = finalReg then [.mfmq lhsReg] else []) ++
      [.rrr .s lhsReg safeReg finalReg, .bc .blt creg2 lab, .ldConst 0 rTmp0,
      .rrr .div rTmp0 safeReg rTmp0, .mfmq finalReg, .setLabel lab]) .step u = some (t, .step) ∧
        t.regs finalReg = l % r) ↔ ¬(r = 1 ∧ 2 ^ 31 ≤ l.toNat) := by
  have hneg : compare r.toInt (0 : BitVec 32).toInt = .lt ↔ r.msb = true := by
    rw [compare_lt_iff_lt, BitVec.msb_eq_toInt, decide_eq_true_eq]
    rfl
  -- if the divisor is larger, the dividend is in its place when control leaves
  have hlarge : l.toNat < r.toNat → l % r = l ∧ ¬(r = 1 ∧ 2 ^ 31 ≤ l.toNat) := by
    refine fun hgt => ⟨BitVec.umod_eq_of_lt hgt, fun h => ?_⟩
    have hone : (1 : BitVec 32).toNat = 1 := rfl
    rw [h.1] at hgt
    omega
  by_cases hsame : lhsReg = finalReg
  · subst hsame
    simp only [movRrIns, ne_eq, not_true_eq_false, if_false, if_true, List.cons_append,
      List.nil_append, run, machine_exec, exec, Option.bind_some, hl, hr,
      Function.update_apply, hcreg.symm, Cond.holds, decide_eq_true_eq, Nat.compare_eq_gt]
    by_cases hgt : l.toNat < r.toNat
    · simp only [hgt, run, machine_label, labelOf, reduceCtorEq, if_true, if_false]
      exact iff_of_true ⟨_, rfl, hl.trans (hlarge hgt).1.symm⟩ (hlarge hgt).2
    rw [if_neg hgt, run_cons rfl]
    refine run_remTail ?_ ?_ ?_ ?_ (Nat.not_lt.1 hgt) hsafe hs0 hr0 lab
    · simp only [Function.update_self]
    · simp only [Function.update_apply, hsafe, if_false, hs]
    · rfl
    · simp only [Function.update_self, hneg]
  · simp only [movRrIns, ne_eq, hsame, not_false_eq_true, if_false, if_true, List.cons_append,
      List.nil_append, run, machine_exec, exec, Option.bind_some, hl, hr,
      Function.update_apply, hcreg.symm, Cond.holds, decide_eq_true_eq, Nat.compare_eq_gt]
    by_cases hgt : l.toNat < r.toNat
    · simp only [hgt, run, machine_label, labelOf, reduceCtorEq, if_true, if_false]
      refine iff_of_true ⟨_, rfl, ?_⟩ (hlarge hgt).2
      simp only [Function.update_self, (hlarge hgt).1]
    rw [if_neg hgt]
    refine run_remTail ?_ ?_ ?_ ?_ (Nat.not_lt.1 hgt) hsafe hs0 hr0 lab
    · simp only [Function.update_apply, hsame, if_false, hl]
    · simp only [Function.update_apply, hsafe, if_false, hs]
    · rfl
    · simp only [Function.update_self, hneg]

/-! ## The sequences of `do_div` and `do_rem` -/

theorem apply_divs (h0 : y ≠ 0) (h : ¬Overflows x y) (mq : Option (BitVec 32)) :
    Op.divs.apply mq x y = some (x.sdiv y, some (x.srem y)) :=
  if_neg fun hor => hor.elim h0 h

theorem apply_divw (h0 : y ≠ 0) (h : ¬Overflows x y) (mq : Option (BitVec 32)) :
    Op.divw.apply mq x y = some (x.sdiv y, mq) :=
  if_neg fun hor => hor.elim h0 h

theorem apply_divwu (h0 : y ≠ 0) (mq : Option (BitVec 32)) :
    Op.divwu.apply mq x y = some (x / y, mq) :=
  if_neg h0

/-- What the general sequences need to leave the right result. A signed division that rounds down
reads its operands again after the register for the result is set, and the extended divide has no
result for a quotient of 32 bits. -/
def Kept (cpu : Cpu) (tag : Tag) (sgned : Bool) (lhsReg rhsReg finalReg : Reg)
    (l r : BitVec 32) : Prop :=
  if sgned then
    match tag with
    | .div1 => l.msb ≠ r.msb →
        (finalReg = lhsReg →
          (r.toInt ∣ l.toInt ↔ l.toInt.natAbs < r.toInt.natAbs ∨ r.toInt = 1)) ∧
        (finalReg = rhsReg → (r.toInt ∣ l.toInt ↔ l = l.sdiv r * l.sdiv r))
    | .mod =>
        (finalReg = lhsReg → r.toInt ∣ l.toInt) ∧
        (finalReg = rhsReg → l.msb ≠ r.msb → r.toInt ∣ l.toInt)
    | _ => True
  else cpu ≠ .powerpc → ¬(r = 1 ∧ 2 ^ 31 ≤ l.toNat)

section

variable {s : State} {lhsReg rhsReg finalReg : Reg}

theorem run_div1Ins_iff (hl : lhsReg ≠ rTmp0) (hr : rhsReg ≠ rTmp0) (hf : finalReg ≠ rTmp0)
    (h0 : s.regs rhsReg ≠ 0) (hover : ¬Overflows (s.regs lhsReg) (s.regs rhsReg))
    (hdivide : divide.apply s.mq (s.regs lhsReg) (s.regs rhsReg) =
      some ((s.regs lhsReg).sdiv (s.regs rhsReg), mq)) (cpu : Cpu) (creg lab : Nat) :
    (∃ t, machine.Does (div1Ins divide lhsReg rhsReg finalReg creg lab) s t ∧
      Right .div1 true (s.regs lhsReg) (s.regs rhsReg) (t.regs finalReg)) ↔
    Kept cpu .div1 true lhsReg rhsReg finalReg (s.regs lhsReg) (s.regs rhsReg) := by
  obtain ⟨t, hdoes, hfinal⟩ := run_div1Ins hl hr hf hdivide creg lab
  rw [hdoes.exists_iff, hfinal, right_signed]
  refine (toInt_fix_iff (by decide) h0 hover _).trans (forall_congr' fun hmsb => ?_)
  simp only [Function.update_apply]
  by_cases hsame : lhsReg = finalReg
  · have hne : rhsReg ≠ finalReg := fun h => hmsb (by rw [hsame, h])
    simp only [hsame, hne, hne.symm, if_true, if_false, true_imp_iff, false_imp_iff, and_true]
    rw [← hsame, sdiv_sub_mul_eq_zero_iff (by decide) h0 hover hmsb]
    exact Iff.comm
  · by_cases hother : rhsReg = finalReg
    · simp only [hsame, hother, Ne.symm hsame, if_true, if_false, true_imp_iff, false_imp_iff,
        true_and]
      rw [← hother, BitVec.sub_eq_iff_eq_add]
      exact (Iff.comm).trans (iff_congr Iff.rfl
        (by rw [show (0 : BitVec 32) = 0#32 from rfl, BitVec.zero_add]))
    · simp only [hsame, hother, Ne.symm hsame, Ne.symm hother, if_false, false_imp_iff, and_true,
        iff_true]
      rw [sub_mul_sdiv hover, srem_eq_zero_iff]

theorem run_modIns_iff (hl : lhsReg ≠ rTmp0) (hr : rhsReg ≠ rTmp0) (hf : finalReg ≠ rTmp0)
    (h0 : s.regs rhsReg ≠ 0) (hover : ¬Overflows (s.regs lhsReg) (s.regs rhsReg))
    (hdivide : divide.apply s.mq (s.regs lhsReg) (s.regs rhsReg) =
      some ((s.regs lhsReg).sdiv (s.regs rhsReg), mq)) (cpu : Cpu) (creg lab : Nat) :
    (∃ t, machine.Does (modIns divide lhsReg rhsReg finalReg creg lab) s t ∧
      Right .mod true (s.regs lhsReg) (s.regs rhsReg) (t.regs finalReg)) ↔
    Kept cpu .mod true lhsReg rhsReg finalReg (s.regs lhsReg) (s.regs rhsReg) := by
  obtain ⟨t, hdoes, hfinal⟩ := run_modIns hl hr hf hdivide creg lab
  rw [hdoes.exists_iff, hfinal, right_signed, sub_mul_sdiv hover]
  refine (toInt_fixRem_iff (by decide) h0 _ _).trans ?_
  rw [Kept, if_pos rfl, eq_comm (a := lhsReg), eq_comm (a := rhsReg)]
theorem run_safeCopy (s : State) (hsafe : safeReg ≠ rTmp0 ∧ safeReg ≠ lhsReg ∧
    safeReg ≠ finalReg) (hr : rhsReg ≠ rTmp0) :
    ∃ u, machine.Does (safeCopy rhsReg finalReg safeReg).2 s u ∧
      u.regs lhsReg = s.regs lhsReg ∧ u.regs rhsReg = s.regs rhsReg ∧
      u.regs (safeCopy rhsReg finalReg safeReg).1 = s.regs rhsReg ∧
      (safeCopy rhsReg finalReg safeReg).1 ≠ finalReg ∧
      (safeCopy rhsReg finalReg safeReg).1 ≠ rTmp0 := by
  obtain ⟨h0, hl, hf⟩ := hsafe
  by_cases hsame : finalReg = rhsReg
  · have hne : rhsReg ≠ safeReg := fun h => hf (h.symm.trans hsame.symm)
    simp only [safeCopy, hsame, ne_eq, not_true_eq_false, if_false, movRrIns, hne,
      not_false_eq_true, if_true]
    refine ⟨_, rfl, ?_, ?_, ?_, hne.symm, h0⟩
    · simp only [Function.update_apply, hl.symm, if_false]
    · simp only [Function.update_apply, hne, if_false]
    · simp only [Function.update_self]
  · simp only [safeCopy, hsame, ne_eq, not_false_eq_true, if_true]
    exact ⟨s, rfl, rfl, rfl, rfl, Ne.symm hsame, hr⟩

variable {safeReg : Reg} (cpu : Cpu) {tag : Tag} (sgned : Bool)

@[simp] theorem kept_of_not_floors (hfloors : tag.floors = false) (l r : BitVec 32) :
    Kept cpu tag true lhsReg rhsReg finalReg l r := by
  cases tag with
  | div1 | mod => cases hfloors
  | div0 | div2 | rem0 | rem2 => exact trivial

/-- The general sequences of `do_div` are right just where the operands are kept as long as
needed. -/
theorem does_divGeneral_iff (htag : tag.isDiv = true) (hl : lhsReg ≠ rTmp0) (hr : rhsReg ≠ rTmp0)
    (hf : finalReg ≠ rTmp0) (hsafe : safeReg ≠ rTmp0 ∧ safeReg ≠ lhsReg ∧ safeReg ≠ finalReg)
    (h0 : s.regs rhsReg ≠ 0)
    (hover : sgned = true → ¬Overflows (s.regs lhsReg) (s.regs rhsReg)) (creg lab : Nat) :
    (∃ t, machine.Does (divGeneral cpu tag sgned lhsReg rhsReg finalReg safeReg creg lab) s t ∧
      Right tag sgned (s.regs lhsReg) (s.regs rhsReg) (t.regs finalReg)) ↔
    Kept cpu tag sgned lhsReg rhsReg finalReg (s.regs lhsReg) (s.regs rhsReg) := by
  by_cases hcpu : cpu = .powerpc
  · cases sgned with
    | true =>
        by_cases hdiv1 : tag = .div1
        · subst hdiv1
          simp only [divGeneral, hcpu, if_true, ne_eq, not_true_eq_false, or_self, if_false]
          exact run_div1Ins_iff hl hr hf h0 (hover rfl) (apply_divw h0 (hover rfl) _) _ creg lab
        have hfloors : tag.floors = false := by cases tag <;> trivial
        refine iff_of_true ?_ (kept_of_not_floors cpu hfloors _ _)
        simp only [divGeneral, hcpu, hdiv1, if_true, ne_eq, not_false_eq_true, true_or,
          right_trunc hfloors (hover rfl), htag]
        exact ⟨_, does_one (exec_rrr (apply_divw h0 (hover rfl) _)), Function.update_self _ _ _⟩
    | false =>
        refine iff_of_true ?_ (fun h => absurd hcpu h)
        simp only [divGeneral, hcpu, if_true, Bool.false_eq_true, not_false_eq_true, or_true,
          if_false, right_unsigned, htag]
        exact ⟨_, does_one (exec_rrr (apply_divwu h0 _)), Function.update_self _ _ _⟩
  · cases sgned with
    | true =>
        by_cases hdiv1 : tag = .div1
        · subst hdiv1
          simp only [divGeneral, hcpu, if_true, if_false]
          exact run_div1Ins_iff hl hr hf h0 (hover rfl) (apply_divs h0 (hover rfl) _) _ creg lab
        have hfloors : tag.floors = false := by cases tag <;> trivial
        refine iff_of_true ?_ (kept_of_not_floors cpu hfloors _ _)
        simp only [divGeneral, hcpu, hdiv1, if_true, if_false, right_trunc hfloors (hover rfl),
          htag]
        exact ⟨_, does_one (exec_rrr (apply_divs h0 (hover rfl) _)), Function.update_self _ _ _⟩
    | false =>
        obtain ⟨u, hdoes, hlu, hru, hsu, hsafe, hs0⟩ :=
          run_safeCopy s hsafe hr
        have hkept : Kept cpu tag false lhsReg rhsReg finalReg (s.regs lhsReg) (s.regs rhsReg) ↔
            ¬(s.regs rhsReg = 1 ∧ 2 ^ 31 ≤ (s.regs lhsReg).toNat) :=
          ⟨fun h => h hcpu, fun h _ => h⟩
        rw [hkept, ← run_divu hlu hru hsu hsafe hs0 h0 (nextCreg_ne (nextCreg creg)) lab]
        simp only [divGeneral, hcpu, Bool.false_eq_true, if_false, right_unsigned, htag, if_true,
          Does, run_append, hdoes.run, Option.bind_some]

/-- The remainder that is computed with a product and a difference. -/
theorem run_remIns (hl : lhsReg ≠ rTmp0) (hr : rhsReg ≠ rTmp0)
    (hdivide : divide.apply s.mq (s.regs lhsReg) (s.regs rhsReg) = some (q, mq)) :
    ∃ t, machine.Does [.rrr divide lhsReg rhsReg rTmp0, .rrr .muls rTmp0 rhsReg rTmp0,
      .rrr .sf rTmp0 lhsReg finalReg] s t ∧
      t.regs finalReg = s.regs lhsReg - s.regs rhsReg * q := by
  simp only [Does, run, machine_exec, exec, apply_muls, apply_sf, hdivide, Option.map_some,
    Option.bind_some, Function.update_apply, hl, hr, if_true, if_false]
  refine ⟨_, rfl, ?_⟩
  simp only [Function.update_self, BitVec.mul_comm]

theorem does_remGeneral_iff (htag : tag.isDiv = false) (hl : lhsReg ≠ rTmp0) (hr : rhsReg ≠ rTmp0)
    (hf : finalReg ≠ rTmp0) (hsafe : safeReg ≠ rTmp0 ∧ safeReg ≠ lhsReg ∧ safeReg ≠ finalReg)
    (h0 : s.regs rhsReg ≠ 0)
    (hover : sgned = true → ¬Overflows (s.regs lhsReg) (s.regs rhsReg)) (creg lab : Nat) :
    (∃ t, machine.Does (remGeneral cpu tag sgned lhsReg rhsReg finalReg safeReg creg lab) s t ∧
      Right tag sgned (s.regs lhsReg) (s.regs rhsReg) (t.regs finalReg)) ↔
    Kept cpu tag sgned lhsReg rhsReg finalReg (s.regs lhsReg) (s.regs rhsReg) := by
  by_cases hcpu : cpu = .powerpc
  · cases sgned with
    | true =>
        by_cases hmod : tag = .mod
        · subst hmod
          simp only [remGeneral, hcpu, if_true, ne_eq, not_true_eq_false, or_self, if_false]
          exact run_modIns_iff hl hr hf h0 (hover rfl) (apply_divw h0 (hover rfl) _) _ creg lab
        have hfloors : tag.floors = false := by cases tag <;> trivial
        refine iff_of_true ?_ (kept_of_not_floors cpu hfloors _ _)
        simp only [remGeneral, hcpu, hmod, if_true, ne_eq, not_false_eq_true, or_true,
          right_trunc hfloors (hover rfl), htag, Bool.false_eq_true, if_false,
          ← sub_mul_sdiv (hover rfl)]
        exact run_remIns hl hr (apply_divw h0 (hover rfl) _)
    | false =>
        refine iff_of_true ?_ (fun h => absurd hcpu h)
        simp only [remGeneral, hcpu, if_true, Bool.false_eq_true, not_false_eq_true, true_or,
          if_false, right_unsigned, htag, ← sub_mul_udiv]
        exact run_remIns hl hr (apply_divwu h0 _)
  · cases sgned with
    | true =>
        by_cases hmod : tag = .mod
        · subst hmod
          simp only [remGeneral, hcpu, if_true, if_false]
          exact run_modIns_iff hl hr hf h0 (hover rfl) (apply_divs h0 (hover rfl) _) _ creg lab
        have hfloors : tag.floors = false := by cases tag <;> trivial
        refine iff_of_true ?_ (kept_of_not_floors cpu hfloors _ _)
        simp only [remGeneral, hcpu, hmod, if_true, if_false, right_trunc hfloors (hover rfl), htag,
          Bool.false_eq_true]
        -- the remainder is left in MQ
        refine ⟨_, (does_cons (exec_rrr (apply_divs h0 (hover rfl) _))).2 (does_one rfl), ?_⟩
        exact Function.update_self _ _ _
    | false =>
        obtain ⟨u, hdoes, hlu, hru, hsu, hsafe, hs0⟩ := run_safeCopy s hsafe hr
        have hkept : Kept cpu tag false lhsReg rhsReg finalReg (s.regs lhsReg) (s.regs rhsReg) ↔
            ¬(s.regs rhsReg = 1 ∧ 2 ^ 31 ≤ (s.regs lhsReg).toNat) :=
          ⟨fun h => h hcpu, fun h _ => h⟩
        rw [hkept, ← run_remu hlu hru hsu hsafe hs0 h0 (nextCreg_ne (nextCreg creg)) lab]
        simp only [remGeneral, hcpu, Bool.false_eq_true, if_false, right_unsigned, htag,
          Does]
        rw [run_append, hdoes.run, Option.bind_some]

/-- The sequences for a divisor that is not a power of two are right just where the operands are
kept as long as needed and the extended divide has a result. -/
theorem doOp_kept_iff {rhs : Option (BitVec 32)}
    (hrhs : ∀ c ∈ rhs, ¬(isPow2 c = true ∧ c.toInt > 0)) (hl : lhsReg ≠ rTmp0) (hr : rhsReg ≠ rTmp0)
    (hf : finalReg ≠ rTmp0) (hsafe : safeReg ≠ rTmp0 ∧ safeReg ≠ lhsReg ∧ safeReg ≠ finalReg)
    (h0 : s.regs rhsReg ≠ 0)
    (hover : sgned = true → ¬Overflows (s.regs lhsReg) (s.regs rhsReg)) (creg lab : Nat) :
    (∃ t, machine.Does (doOp cpu tag sgned rhs lhsReg rhsReg finalReg safeReg creg lab) s t ∧
      Right tag sgned (s.regs lhsReg) (s.regs rhsReg) (t.regs finalReg)) ↔
    Kept cpu tag sgned lhsReg rhsReg finalReg (s.regs lhsReg) (s.regs rhsReg) := by
  have hdiv : doDiv cpu tag sgned rhs lhsReg rhsReg finalReg safeReg creg lab =
      divGeneral cpu tag sgned lhsReg rhsReg finalReg safeReg creg lab := by
    cases rhs with
    | none => rfl
    | some c => exact if_neg (hrhs c rfl)
  have hrem : doRem cpu tag sgned rhs lhsReg rhsReg finalReg safeReg creg lab =
      remGeneral cpu tag sgned lhsReg rhsReg finalReg safeReg creg lab := by
    cases rhs with
    | none => rfl
    | some c => exact if_neg (hrhs c rfl)
  cases tag with
  | div0 | div1 | div2 =>
      rw [doOp, hdiv]
      exact does_divGeneral_iff cpu sgned rfl hl hr hf hsafe h0 hover creg lab
  | mod | rem0 | rem2 =>
      rw [doOp, hrem]
      exact does_remGeneral_iff cpu sgned rfl hl hr hf hsafe h0 hover creg lab

end

/-- The result goes to the register of the dividend, the quotient of 6 by -2. -/
theorem doOp_kept_iff_same :
    (∃ t, machine.Does (doOp .rs6000 .div1 true none 3 4 3 5 0 1)
      ⟨fun r => if r = 3 then 6 else -2, none, fun _ => .eq⟩ t ∧
      Right .div1 true 6 (-2) (t.regs 3)) ↔ Kept .rs6000 .div1 true 3 4 3 6 (-2) :=
  doOp_kept_iff (s := ⟨fun r => if r = 3 then 6 else -2, none, fun _ => .eq⟩) .rs6000 true
    (fun _ h => by cases h) (by decide) (by decide) (by decide) (by decide) (by decide)
    (fun _ h => absurd h.1 (by decide)) 0 1

/-- One is taken off a quotient that is exact. -/
theorem not_does_doOp_same :
    ¬∃ t, machine.Does (doOp .rs6000 .div1 true none 3 4 3 5 0 1)
      ⟨fun r => if r = 3 then 6 else -2, none, fun _ => .eq⟩ t ∧
      Right .div1 true 6 (-2) (t.regs 3) := by
  rintro ⟨t, hdoes, hright⟩
  have hrun : ∃ u, machine.Does (doOp .rs6000 .div1 true none 3 4 3 5 0 1)
      ⟨fun r => if r = 3 then 6 else -2, none, fun _ => .eq⟩ u ∧ u.regs 3 = -4 :=
    ⟨_, rfl, by decide⟩
  rw [hdoes.exists_iff] at hrun
  rw [hrun] at hright
  exact absurd hright (by decide)

/-! ## The inline sequences -/

section

variable {n : Nat}

theorem exec_rir {op : Op} {src : Reg} {imm : BitVec 32} {r : BitVec 32 × Option (BitVec 32)}
    (h : op.apply s.mq (s.regs src) imm = some r) {dest : Reg} :
    machine.exec (.rir op src imm dest) s =
      some ({ s with regs := Function.update s.regs dest r.1, mq := r.2 }, .step) := by
  rw [machine_exec, exec, h, Option.map_some]

section

variable (mq : Option (BitVec 32)) (x : BitVec 32) {k : Nat}

theorem apply_sl (hk : k < 32) : Op.sl.apply mq x (.ofNat 32 k) = some (x <<< k, mq) := by
  have hnat : (BitVec.ofNat 32 k).toNat = k := by rw [BitVec.toNat_ofNat]; omega
  rw [Op.apply, hnat, if_pos hk]

theorem apply_sra (hk : k < 32) :
    Op.sra.apply mq x (.ofNat 32 k) = some (x.sshiftRight k, mq) := by
  have hnat : (BitVec.ofNat 32 k).toNat = k := by rw [BitVec.toNat_ofNat]; omega
  rw [Op.apply, hnat, if_pos hk]

theorem apply_sr (h0 : k ≠ 0) (hk : k < 32) :
    Op.sr.apply mq x (.ofNat 32 k) = some (x >>> k, mq) := by
  have hnat : (BitVec.ofNat 32 k).toNat = k := by rw [BitVec.toNat_ofNat]; omega
  have hne : BitVec.ofNat 32 k ≠ 0 := fun h => h0 (hnat ▸ congrArg BitVec.toNat h)
  rw [Op.apply, hnat, if_pos ⟨hk, hne⟩]

end

/-- The dividend with its correction is left in the register for temporaries. -/
theorem run_adjust (hl : lhsReg ≠ rTmp0) (h0 : n ≠ 0) (hn : n < 32) :
    ∃ t, machine.Does (adjust lhsReg n) s t ∧
      t.regs rTmp0 = s.regs lhsReg + bias (s.regs lhsReg) n ∧ t.regs lhsReg = s.regs lhsReg := by
  by_cases h1 : n = 1
  · subst h1
    refine ⟨_, (does_cons (exec_rir (apply_sr _ _ (by decide) (by decide)))).2
      (does_one (exec_rrr (apply_a _ _ _))), ?_, ?_⟩
    · simp only [Function.update_apply, hl, if_true, if_false, bias_one]
    · simp only [Function.update_apply, hl, if_false]
  · rw [adjust, if_pos (by omega)]
    refine ⟨_, (does_cons (exec_rir (apply_sra _ _ (by omega)))).2
      ((does_cons (exec_rir (apply_sr _ _ (by omega) (by omega)))).2
      (does_one (exec_rrr (apply_a _ _ _)))), ?_, ?_⟩
    · simp only [Function.update_apply, hl, if_true, if_false, bias]
    · simp only [Function.update_apply, hl, if_false]

variable {tag : Tag} (sgned : Bool)

theorem run_movRrIns (s : State) (lhsReg finalReg : Reg) :
    ∃ t, machine.Does (movRrIns lhsReg finalReg) s t ∧
    t.regs finalReg = s.regs lhsReg := by
  rw [movRrIns]
  by_cases h : lhsReg = finalReg
  · rw [if_neg (fun hne => hne h), h]
    exact ⟨s, Does.nil s, rfl⟩
  · rw [if_pos h]
    exact ⟨_, does_one rfl, Function.update_self _ _ _⟩

theorem run_divPow2 (hl : lhsReg ≠ rTmp0) (hn : n < 31) (htag : tag.isDiv = true) :
    ∃ t, machine.Does (divPow2 tag sgned (BitVec.twoPow 32 n) lhsReg finalReg) s t ∧
      Right tag sgned (s.regs lhsReg) (BitVec.twoPow 32 n) (t.regs finalReg) := by
  by_cases h0 : n = 0
  · subst h0
    rw [divPow2, if_pos twoPow_zero, twoPow_zero]
    obtain ⟨t, hdoes, hfinal⟩ := run_movRrIns s lhsReg finalReg
    exact ⟨t, hdoes, hfinal ▸ right_div_one htag _⟩
  rw [divPow2, if_neg (twoPow_ne_one h0 (by omega)), bitNo_twoPow (by omega)]
  by_cases htrunc : sgned = true ∧ tag ≠ .div1
  · obtain ⟨hsgned, hdiv1⟩ := htrunc
    subst hsgned
    have hfloors : tag.floors = false := by cases tag <;> trivial
    rw [if_pos ⟨rfl, hdiv1⟩]
    obtain ⟨u, hadjust, htmp, -⟩ := run_adjust (s := s) hl h0 (show n < 32 by omega)
    refine ⟨_, hadjust.append (does_one (exec_rir (apply_sra _ _ (by omega)))), ?_⟩
    simp only [Function.update_self, htmp]
    exact right_shift_trunc h0 hn htag hfloors _
  rw [if_neg htrunc]
  cases sgned with
  | true =>
      rw [if_pos rfl]
      refine ⟨_, does_one (exec_rir (apply_sra _ _ (by omega))), ?_⟩
      simp only [Function.update_self]
      refine right_shr hn htag (fun _ => ?_) _
      cases tag <;> simp_all [Tag.floors]
  | false =>
      rw [if_neg (by decide)]
      refine ⟨_, does_one (exec_rir (apply_sr _ _ h0 (by omega))), ?_⟩
      simp only [Function.update_self]
      exact right_shr hn htag (fun h => absurd h (by decide)) _

theorem run_remPow2 (hl : lhsReg ≠ rTmp0) (hn : n < 31) (htag : tag.isDiv = false) :
    ∃ t, machine.Does (remPow2 tag sgned (BitVec.twoPow 32 n) lhsReg finalReg) s t ∧
      Right tag sgned (s.regs lhsReg) (BitVec.twoPow 32 n) (t.regs finalReg) := by
  by_cases h0 : n = 0
  · subst h0
    rw [remPow2, if_pos twoPow_zero, twoPow_zero]
    refine ⟨_, does_one rfl, ?_⟩
    simp only [Function.update_self]
    exact right_rem_one htag _
  rw [remPow2, if_neg (twoPow_ne_one h0 (by omega))]
  by_cases htrunc : sgned = true ∧ tag ≠ .mod
  · obtain ⟨hsgned, hmod⟩ := htrunc
    subst hsgned
    have hfloors : tag.floors = false := by cases tag <;> trivial
    rw [if_pos ⟨rfl, hmod⟩, bitNo_twoPow (by omega)]
    obtain ⟨u, hadjust, htmp, hlhs⟩ := run_adjust (s := s) hl h0 (show n < 32 by omega)
    refine ⟨_, hadjust.append ((does_cons (exec_rir (apply_sra _ _ (by omega)))).2
      ((does_cons (exec_rir (apply_sl _ _ (by omega)))).2
      (does_one (exec_rrr (apply_s _ _ _))))), ?_⟩
    simp only [Function.update_self, Function.update_apply, hl, if_false, htmp, hlhs]
    exact right_sub_trunc h0 hn htag hfloors _
  · rw [if_neg htrunc, twoPow_sub_one (by omega)]
    refine ⟨_, does_one (exec_rir (apply_and _ _ _)), ?_⟩
    simp only [Function.update_self]
    refine right_mask hn htag (fun h => ?_) _
    cases tag <;> simp_all [Tag.floors, Tag.isDiv]

variable (cpu : Cpu)

/-- For a power of two the inline sequence is written, and it is right. -/
theorem does_doOp_twoPow (hl : lhsReg ≠ rTmp0) (hn : n < 31) (creg lab : Nat) :
    ∃ t, machine.Does (doOp cpu tag sgned (some (BitVec.twoPow 32 n)) lhsReg rhsReg finalReg
      safeReg creg lab) s t ∧
      Right tag sgned (s.regs lhsReg) (BitVec.twoPow 32 n) (t.regs finalReg) := by
  have hinline := And.intro (isPow2_twoPow (show n < 32 by omega)) (toInt_twoPow_pos hn)
  cases tag with
  | div0 | div1 | div2 =>
      rw [doOp, doDiv]
      simp only [hinline, and_self, if_true]
      exact run_divPow2 sgned hl hn rfl
  | mod | rem0 | rem2 =>
      rw [doOp, doRem]
      simp only [hinline, and_self, if_true]
      exact run_remPow2 sgned hl hn rfl

end

end Tendra.Ref.Trans.Power
