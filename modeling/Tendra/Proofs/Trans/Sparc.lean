import Tendra.Ref.Trans.Sparc
import Tendra.Proofs.Trans.Division

/-!
# Division by powers of two on SPARC
-/

namespace Tendra.Ref.Trans.Sparc

open Machine Word

section

variable {s : Regs}

theorem exec_rrr {op : Op} {src1 src2 : Reg} {v : BitVec 32}
    (h : op.apply (s.get src1) (s.get src2) = some v) {dest : Reg} :
    machine.exec (.rrr op src1 src2 dest) s = some (s.set dest v, .step) := by
  rw [show machine.exec = exec from rfl, exec, h, Option.map_some]

theorem exec_rir {op : Op} {src : Reg} {imm v : BitVec 32} (himm : simm13Size imm = true)
    (h : op.apply (s.get src) imm = some v) {dest : Reg} :
    machine.exec (.rir op src imm dest) s = some (s.set dest v, .step) := by
  rw [show machine.exec = exec from rfl, exec, if_pos himm, h, Option.map_some]

end

section

variable {count : Nat} (hcount : count < 32)

include hcount

theorem toNat_count : (BitVec.ofNat 32 count).toNat = count := by
  rw [BitVec.toNat_ofNat]
  omega

theorem simm13Size_count : simm13Size (.ofNat 32 count) = true := by
  have hnat := toNat_count hcount
  rw [simm13Size, decide_eq_true_eq, BitVec.toInt_eq_toNat_of_lt (by rw [hnat]; omega), hnat]
  omega

theorem does_sll (s : Regs) (src dest : Reg) :
    machine.Does (shift .sll src count dest) s (s.set dest (s.get src <<< count)) := by
  refine does_one (exec_rir (simm13Size_count hcount) ?_)
  rw [Op.apply, toNat_count hcount, if_pos hcount]

theorem does_srl (s : Regs) (src dest : Reg) :
    machine.Does (shift .srl src count dest) s (s.set dest (s.get src >>> count)) := by
  refine does_one (exec_rir (simm13Size_count hcount) ?_)
  rw [Op.apply, toNat_count hcount, if_pos hcount]

theorem does_sra (s : Regs) (src dest : Reg) :
    machine.Does (shift .sra src count dest) s (s.set dest ((s.get src).sshiftRight count)) := by
  refine does_one (exec_rir (simm13Size_count hcount) ?_)
  rw [Op.apply, toNat_count hcount, if_pos hcount]

end

/-! ## Masks -/

/-- Two shifts to and fro clear the bits above the mask. -/
theorem shl_ushr (x : BitVec 32) {n : Nat} (hn : n ≤ 32) :
    x <<< (32 - n) >>> (32 - n) = x &&& mask 32 n := by
  apply BitVec.eq_of_getLsbD_eq
  intro i hi
  rw [BitVec.getLsbD_ushiftRight, BitVec.getLsbD_shiftLeft, BitVec.getLsbD_and, getLsbD_mask hi]
  by_cases h : i < n
  · rw [decide_eq_true h, decide_eq_true (by omega), decide_eq_false (by omega),
      show 32 - n + i - (32 - n) = i by omega, Bool.true_and, Bool.not_false, Bool.true_and,
      Bool.and_true]
  · rw [decide_eq_false h, decide_eq_false (by omega), Bool.false_and, Bool.false_and,
      Bool.and_false]

theorem size_mask {n : Nat} (hn : n < 32) : Nat.size (mask 32 n).toNat = n := by
  have hlt := Nat.pow_lt_pow_right (show 1 < 2 by decide) hn
  rw [mask, BitVec.toNat_ofNat, Nat.mod_eq_of_lt (by omega)]
  cases n with
  | zero => exact Nat.size_zero
  | succ n =>
      have hpos := Nat.two_pow_pos n
      apply Nat.le_antisymm
      · rw [Nat.size_le]
        omega
      · rw [Nat.add_one_le_iff, Nat.lt_size, Nat.pow_succ]
        omega

/-- Whatever form a mask takes, the bits above it are cleared. -/
theorem does_andIns {n : Nat} (hn : n < 31) {dest : Reg} (hdest : dest ≠ 0) (s : Regs) (src : Reg) :
    ∃ t, machine.Does (andIns src (mask 32 n) dest) s t ∧
      t.get dest = s.get src &&& mask 32 n := by
  rw [andIns]
  by_cases himm : simm13Size (mask 32 n) = true
  · rw [if_pos himm]
    exact ⟨_, does_one (exec_rir himm rfl), s.get_set_self hdest _⟩
  by_cases hnot : simm13Size (~~~mask 32 n) = true
  · rw [if_neg himm, if_pos hnot]
    refine ⟨_, does_one (exec_rir hnot rfl), ?_⟩
    rw [Regs.get_set_self hdest, BitVec.not_not]
  have hadd : mask 32 n + 1 = BitVec.twoPow 32 n := by
    rw [← twoPow_sub_one (by omega), BitVec.sub_add_cancel]
  rw [if_neg himm, if_neg hnot, hadd, if_pos (isPow2_twoPow (by omega)), size_mask (by omega)]
  have h0 : n ≠ 0 := by
    rintro rfl
    exact himm (by decide)
  refine ⟨_, (does_sll (by omega) s src dest).append (does_srl (by omega) _ dest dest), ?_⟩
  rw [Regs.get_set_self hdest, Regs.get_set_self hdest, shl_ushr _ (by omega)]

/-! ## The inline sequences -/

section

variable {s : Regs} {lhsReg finalReg : Reg} {n : Nat}

theorem does_adjust (hl : lhsReg ≠ rTmp) (h0 : n ≠ 0) (hn : n < 32) :
    ∃ t, machine.Does (adjust lhsReg n) s t ∧
      t.get rTmp = s.get lhsReg + bias (s.get lhsReg) n ∧ t.get lhsReg = s.get lhsReg := by
  have htmp : rTmp ≠ 0 := by decide
  by_cases h1 : n = 1
  · subst h1
    refine ⟨_, (does_srl (by decide) s lhsReg rTmp).append (does_one (exec_rrr rfl)), ?_, ?_⟩
    · rw [Regs.get_set_self htmp, Regs.get_set_self htmp, Regs.get_set_ne hl, bias_one]
    · rw [Regs.get_set_ne hl, Regs.get_set_ne hl]
  · rw [adjust, if_pos (by omega)]
    refine ⟨_, ((does_sra (by omega) s lhsReg rTmp).append
      (does_srl (by omega) _ rTmp rTmp)).append (does_one (exec_rrr rfl)), ?_, ?_⟩
    · rw [Regs.get_set_self htmp, Regs.get_set_self htmp, Regs.get_set_self htmp,
        Regs.get_set_ne hl, Regs.get_set_ne hl, bias]
    · rw [Regs.get_set_ne hl, Regs.get_set_ne hl, Regs.get_set_ne hl]

variable {tag : Tag} (sgned : Bool)

theorem does_doDiv (hl : lhsReg ≠ rTmp) (hf : finalReg ≠ 0) (hn : n < 31)
    (htag : tag = .div1 ∨ tag = .div2) :
    ∃ t, machine.Does (doDiv tag sgned (BitVec.twoPow 32 n) lhsReg finalReg) s t ∧
      Right tag sgned (s.get lhsReg) (BitVec.twoPow 32 n) (t.get finalReg) := by
  have hdiv : tag.isDiv = true := by rcases htag with rfl | rfl <;> rfl
  by_cases h0 : n = 0
  · subst h0
    rw [doDiv, if_pos twoPow_zero, twoPow_zero]
    refine ⟨_, does_one rfl, ?_⟩
    rw [Regs.get_set_self hf]
    exact right_div_one hdiv _
  rw [doDiv, if_neg (twoPow_ne_one h0 (by omega)), bitNo_twoPow (by omega)]
  cases sgned with
  | false =>
      rw [if_pos (by decide)]
      refine ⟨_, does_srl (by omega) s lhsReg finalReg, ?_⟩
      rw [Regs.get_set_self hf]
      exact right_shr hn hdiv (fun h => absurd h (by decide)) _
  | true =>
      rw [if_neg (by decide)]
      rcases htag with rfl | rfl
      · rw [if_neg (by decide)]
        refine ⟨_, does_sra (by omega) s lhsReg finalReg, ?_⟩
        rw [Regs.get_set_self hf]
        exact right_shr hn rfl (fun _ => rfl) _
      · rw [if_pos rfl]
        obtain ⟨u, hadjust, htmp, -⟩ := does_adjust (s := s) hl h0 (show n < 32 by omega)
        refine ⟨_, hadjust.append (does_sra (by omega) u rTmp finalReg), ?_⟩
        rw [Regs.get_set_self hf, htmp]
        exact right_shift_trunc h0 hn rfl rfl _

theorem does_doRem (hl : lhsReg ≠ rTmp) (hf : finalReg ≠ 0) (hn : n < 31)
    (htag : tag = .mod ∨ tag = .rem2) :
    ∃ t, machine.Does (doRem tag sgned (BitVec.twoPow 32 n) lhsReg finalReg) s t ∧
      Right tag sgned (s.get lhsReg) (BitVec.twoPow 32 n) (t.get finalReg) := by
  have htmp0 : rTmp ≠ 0 := by decide
  have hrem : tag.isDiv = false := by rcases htag with rfl | rfl <;> rfl
  by_cases h0 : n = 0
  · subst h0
    rw [doRem, if_pos twoPow_zero, twoPow_zero]
    refine ⟨_, does_one rfl, ?_⟩
    rw [Regs.get_set_self hf]
    exact right_rem_one hrem _
  rw [doRem, if_neg (twoPow_ne_one h0 (by omega)), twoPow_sub_one (by omega)]
  cases sgned with
  | false =>
      rw [if_pos (by decide)]
      obtain ⟨t, hdoes, hfinal⟩ := does_andIns hn hf s lhsReg
      exact ⟨t, hdoes, hfinal ▸ right_mask hn hrem (fun h => absurd h (by decide)) _⟩
  | true =>
      rw [if_neg (by decide)]
      rcases htag with rfl | rfl
      · rw [if_neg (by decide)]
        obtain ⟨t, hdoes, hfinal⟩ := does_andIns hn hf s lhsReg
        exact ⟨t, hdoes, hfinal ▸ right_mask hn rfl (fun _ => rfl) _⟩
      · rw [if_pos rfl, bitNo_twoPow (by omega)]
        obtain ⟨u, hadjust, htmp, hlhs⟩ := does_adjust (s := s) hl h0 (show n < 32 by omega)
        refine ⟨_, ((hadjust.append (does_sra (by omega) u rTmp rTmp)).append
          (does_sll (by omega) _ rTmp rTmp)).append (does_one (exec_rrr rfl)), ?_⟩
        rw [Regs.get_set_self hf, Regs.get_set_self htmp0, Regs.get_set_self htmp0,
          Regs.get_set_ne hl, Regs.get_set_ne hl, htmp, hlhs]
        exact right_sub_trunc h0 hn rfl rfl _

/-- Whatever sequence is written for a power of two, it is right. -/
theorem does_doOp (hl : lhsReg ≠ rTmp) (hf : finalReg ≠ 0) (hn : n < 31)
    (htag : tag ≠ .div0 ∧ tag ≠ .rem0) {errorTreatment : Bool} {code : List Ins}
    (hcode : doOp tag sgned errorTreatment (BitVec.twoPow 32 n) lhsReg finalReg = some code) :
    ∃ t, machine.Does code s t ∧
      Right tag sgned (s.get lhsReg) (BitVec.twoPow 32 n) (t.get finalReg) := by
  rw [doOp.eq_def, if_pos ⟨isPow2_twoPow (by omega), toInt_twoPow_pos hn⟩] at hcode
  cases tag with
  | div0 => exact absurd rfl htag.1
  | rem0 => exact absurd rfl htag.2
  | div1 =>
      cases errorTreatment with
      | true => cases hcode
      | false =>
          cases hcode
          exact does_doDiv sgned hl hf hn (.inl rfl)
  | div2 =>
      cases errorTreatment with
      | true => cases hcode
      | false =>
          cases hcode
          exact does_doDiv sgned hl hf hn (.inr rfl)
  | mod =>
      cases hcode
      exact does_doRem sgned hl hf hn (.inl rfl)
  | rem2 =>
      cases hcode
      exact does_doRem sgned hl hf hn (.inr rfl)

end

end Tendra.Ref.Trans.Sparc
