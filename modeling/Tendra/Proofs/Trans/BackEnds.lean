import Tendra.Proofs.Trans.MulConst
import Tendra.Proofs.Trans.Sparc
import Tendra.Proofs.Trans.Hppa
import Tendra.Proofs.Trans.Power
import Tendra.Proofs.Trans.M68k

/-!
# The sequences of the back ends

## Multiplication on SPARC and HPPA

The parts that the two back ends write do what they stand for, and so both are right for
the same constants.
-/

namespace Tendra.Ref.Trans

open Machine Word

section

variable {I : Type} {m : Machine I Regs Nat} {s : Regs} {tmp dest : Reg} {u v : BitVec 32}

theorem sets_one (hdest : dest ≠ 0) {i : I} (h : m.exec i s = some (s.set dest v, .step)) :
    Sets m [i] s dest v dest :=
  ⟨_, does_one h, Regs.get_set_self hdest s v, fun _ hr _ => Regs.get_set_ne hr s v⟩

theorem Sets.other {code : List I} (h : Sets m code s dest v dest) (tmp : Reg) :
    Sets m code s dest v tmp := by
  obtain ⟨t, hdoes, hget, hrest⟩ := h
  exact ⟨t, hdoes, hget, fun q hq _ => hrest q hq hq⟩

/-- A value that goes through the register for temporaries. -/
theorem Sets.append {c d : List I} (hc : Sets m c s tmp v tmp)
    (hd : ∀ t : Regs, t.get tmp = v → (∀ r, r ≠ tmp → t.get r = s.get r) →
      Sets m d t dest u dest) : Sets m (c ++ d) s dest u tmp := by
  obtain ⟨t, hdoes, hget, hrest⟩ := hc
  obtain ⟨t', hdoes', hget', hrest'⟩ := hd t hget fun r hr => hrest r hr hr
  exact ⟨t', hdoes.append hdoes', hget', fun q hq hq' => by
    rw [hrest' q hq hq, hrest q hq' hq']⟩

theorem mul_ones (x : BitVec 32) (b : Nat) : x * .ofNat 32 (2 ^ b - 1) = x <<< b - x := by
  have hpos := Nat.two_pow_pos b
  have hadd : x * .ofNat 32 (2 ^ b - 1) + x = x <<< b := by
    rw [shl_eq_mul, ← BitVec.mul_succ]
    congr 1
    rw [show 2 ^ b = 2 ^ b - 1 + 1 by omega, BitVec.ofNat_add, Nat.add_sub_cancel]
  rw [← hadd, BitVec.add_sub_cancel]

end

/-! ## SPARC -/

namespace Sparc

variable {s : Regs} {src dest : Reg}

theorem sets_shift {k : Nat} (hdest : dest ≠ 0) (hk : k < 32) :
    Sets machine (shift .sll src k dest) s dest (s.get src <<< k) dest :=
  ⟨_, does_sll hk s src dest, Regs.get_set_self hdest s _, fun _ hr _ => Regs.get_set_ne hr s _⟩

theorem sets_replicate {inter : Reg} (hinter : inter ≠ 0) (hne : src ≠ inter) :
    ∀ (k : Nat) (s : Regs), Sets machine (List.replicate k (.rrr .add inter src inter)) s inter
      (s.get inter + s.get src * .ofNat 32 k) inter := by
  intro k
  induction k with
  | zero =>
      refine fun s => ⟨s, Does.nil s, ?_, fun _ _ _ => rfl⟩
      exact ((congrArg _ BitVec.mul_zero).trans (BitVec.add_zero _)).symm
  | succ k ih =>
      intro s
      have hone : Sets machine [.rrr .add inter src inter] s inter
          (s.get inter + s.get src) inter := sets_one hinter (exec_rrr rfl)
      rw [List.replicate_succ, ← List.singleton_append]
      refine hone.append fun t hget hrest => ?_
      have hsets := ih t
      rw [hget, hrest src hne] at hsets
      rwa [BitVec.ofNat_add, BitVec.mul_succ, BitVec.add_comm (s.get src * _), ← BitVec.add_assoc]

theorem steps_sound : steps.Sound machine where
  tmp_ne := by decide
  neg s src dest hdest := sets_one hdest rfl
  zero s dest hdest := sets_one hdest rfl
  copy s src dest hdest := sets_one hdest rfl
  shift s src k dest hdest _ hk := sets_shift hdest (by omega)
  add s src1 src2 dest hdest := sets_one hdest (exec_rrr rfl)
  sub s src1 src2 dest hdest := sets_one hdest (exec_rrr rfl)
  timesOnes s src b hsrc _ hb :=
    (sets_shift (by decide) (by omega)).append fun t hget hrest => by
      have hsets : Sets machine [.rrr .sub rTmp src rTmp] t rTmp (t.get rTmp - t.get src) rTmp :=
        sets_one (by decide) (exec_rrr rfl)
      rwa [hget, hrest src hsrc, ← mul_ones] at hsets
  firstShifted s src k dest hdest _ _ hk :=
    (sets_shift (by decide) (by omega)).append fun t hget _ => hget ▸ sets_one hdest rfl
  addShifted s src k accum dest hdest _ haccum _ hk :=
    (sets_shift (by decide) (by omega)).append fun t hget hrest => by
      have hsets : Sets machine [.rrr .add accum rTmp dest] t dest
          (t.get accum + t.get rTmp) dest := sets_one hdest (exec_rrr rfl)
      rwa [hget, hrest accum haccum] at hsets
  addTimes s src inter n hinter hne _ := sets_replicate hinter hne (n - 1) s

end Sparc

/-! ## HPPA -/

namespace Hppa

variable {s : Regs} {src dest : Reg}

theorem sets_rrr (op : Op) (s : Regs) (src1 src2 : Reg) (hdest : dest ≠ 0) :
    Sets machine [.rrr op .c_ src1 src2 dest] s dest (op.apply (s.get src1) (s.get src2)) dest :=
  sets_one hdest rfl

theorem sets_shl {k : Nat} (hdest : dest ≠ 0) (h1 : 1 ≤ k) (hk : k ≤ 31) :
    Sets machine (shl src k dest) s dest (s.get src <<< k) dest := by
  refine sets_one hdest ?_
  rw [show machine.exec = exec from rfl, exec, if_pos (by omega), Regs.get_zero,
    shd_left _ (by omega) (by omega)]

/-- The loop adds the operand, eight times, four times, twice or once. -/
theorem sets_addLoop {inter : Reg} (hinter : inter ≠ 0) (hne : src ≠ inter) (n : Nat) :
    ∀ (k i : Nat) (s : Regs), i ≤ n → n ≤ i + k → Sets machine (addLoop src inter n k i) s inter
      (s.get inter + s.get src * .ofNat 32 (n - i)) inter := by
  intro k
  induction k with
  | zero =>
      intro i s hi hk
      refine ⟨s, Does.nil s, ?_, fun _ _ _ => rfl⟩
      rw [show n - i = 0 by omega]
      exact ((congrArg _ BitVec.mul_zero).trans (BitVec.add_zero _)).symm
  | succ k ih =>
      intro i s hi hk
      rw [addLoop]
      have hstep : ∀ (op : Op) (a : Nat), i + a ≤ n → 1 ≤ a →
          (∀ x y, op.apply x y = y + x * .ofNat 32 a) →
          Sets machine (.rrr op .c_ src inter inter :: addLoop src inter n k (i + a)) s inter
            (s.get inter + s.get src * .ofNat 32 (n - i)) inter := by
        intro op a ha h1 hop
        rw [← List.singleton_append]
        refine (sets_rrr op s src inter hinter).append fun t hget hrest => ?_
        have hsets := ih (i + a) t ha (by omega)
        rw [hget, hrest src hne, hop, BitVec.add_assoc, ← BitVec.mul_add,
          ← BitVec.ofNat_add] at hsets
        rwa [show n - i = a + (n - (i + a)) by omega]
      split_ifs
      · exact hstep .sh3add (2 ^ 3) (by omega) (by decide) fun x y => by
          rw [Op.apply, shl_eq_mul, BitVec.add_comm]
      · exact hstep .sh2add (2 ^ 2) (by omega) (by decide) fun x y => by
          rw [Op.apply, shl_eq_mul, BitVec.add_comm]
      · exact hstep .sh1add (2 ^ 1) (by omega) (by decide) fun x y => by
          rw [Op.apply, shl_eq_mul, BitVec.add_comm]
      · exact hstep .add 1 (by omega) (by decide) fun x y => by
          rw [Op.apply, BitVec.add_comm]
          exact congrArg _ (BitVec.mul_one x).symm
      · refine ⟨s, Does.nil s, ?_, fun _ _ _ => rfl⟩
        rw [show n - i = 0 by omega]
        exact ((congrArg _ BitVec.mul_zero).trans (BitVec.add_zero _)).symm

theorem steps_sound : steps.Sound machine where
  tmp_ne := by decide
  neg s src dest hdest := by
    have hsets := sets_rrr .sub s gr0 src hdest
    rwa [Op.apply, Regs.get_zero, show (0 : BitVec 32) - s.get src = -s.get src from
      BitVec.zero_sub _] at hsets
  zero s dest hdest := sets_one hdest rfl
  copy s src dest hdest := sets_one hdest rfl
  shift s src k dest hdest h1 hk := sets_shl hdest h1 hk
  add s src1 src2 dest hdest := sets_rrr .add s src1 src2 hdest
  sub s src1 src2 dest hdest := sets_rrr .sub s src1 src2 hdest
  timesOnes s src b hsrc hb hb' := by
    rw [steps]
    dsimp only
    split_ifs with h2
    · have hsets := sets_rrr .sh1add s src src (show gr1 ≠ 0 by decide)
      subst h2
      rwa [Op.apply, shl_eq_mul, ← BitVec.mul_succ] at hsets
    · refine (sets_shl (by decide) (by omega) hb').append fun t hget hrest => ?_
      have hsets := sets_rrr .sub t gr1 src (show gr1 ≠ 0 by decide)
      rwa [Op.apply, hget, hrest src hsrc, ← mul_ones] at hsets
  firstShifted s src k dest hdest _ h1 hk := (sets_shl hdest h1 hk).other gr1
  addShifted s src k accum dest hdest _ haccum h1 hk := by
    rw [steps]
    dsimp only
    split_ifs with h1 h2 h3
    · have hsets := sets_rrr .sh1add s src accum hdest
      rw [Op.apply, BitVec.add_comm] at hsets
      exact h1 ▸ hsets.other gr1
    · have hsets := sets_rrr .sh2add s src accum hdest
      rw [Op.apply, BitVec.add_comm] at hsets
      exact h2 ▸ hsets.other gr1
    · have hsets := sets_rrr .sh3add s src accum hdest
      rw [Op.apply, BitVec.add_comm] at hsets
      exact h3 ▸ hsets.other gr1
    · refine (sets_shl (by decide) (by omega) hk).append fun t hget hrest => ?_
      have hsets := sets_rrr .add t accum gr1 hdest
      rwa [Op.apply, hget, hrest accum haccum] at hsets
  addTimes s src inter n hinter hne h1 := sets_addLoop hinter hne n n 1 s h1 (by omega)

end Hppa

/-! ## Both back ends -/

variable {w : Nat} {src dest freeReg : Reg}

/-- Both back ends multiply by the constants that are handled, and by no others, unless the
operand is the register that reads as zero. -/
theorem mulConst_exact_iff (hw : w = 32 ∨ w = 64) (hdest : dest ≠ 0)
    (hfree : freeReg ≠ 0 ∧ freeReg ≠ src) (c : BitVec 32) (sgned : Bool) :
    (src ≠ Sparc.rTmp → dest ≠ Sparc.rTmp → freeReg ≠ Sparc.rTmp →
      (Handles w c sgned → Multiplies Sparc.steps Sparc.machine w c sgned src dest freeReg) ∧
      (src ≠ 0 → (Multiplies Sparc.steps Sparc.machine w c sgned src dest freeReg ↔
        Handles w c sgned))) ∧
    (src ≠ Hppa.gr1 → dest ≠ Hppa.gr1 → freeReg ≠ Hppa.gr1 →
      (Handles w c sgned → Multiplies Hppa.steps Hppa.machine w c sgned src dest freeReg) ∧
      (src ≠ 0 → (Multiplies Hppa.steps Hppa.machine w c sgned src dest freeReg ↔
        Handles w c sgned))) := by
  constructor
  · intro hsrc hdest' hfree'
    have hof : Handles w c sgned →
        Multiplies Sparc.steps Sparc.machine w c sgned src dest freeReg :=
      multiplies_of_handles Sparc.steps_sound hw hsrc ⟨hdest, hdest'⟩ ⟨hfree.1, hfree', hfree.2⟩
    exact ⟨hof, fun hsrc0 => ⟨handles_of_multiplies Sparc.steps_sound hw hsrc hsrc0
      ⟨hdest, hdest'⟩ ⟨hfree.1, hfree', hfree.2⟩, hof⟩⟩
  · intro hsrc hdest' hfree'
    have hof : Handles w c sgned →
        Multiplies Hppa.steps Hppa.machine w c sgned src dest freeReg :=
      multiplies_of_handles Hppa.steps_sound hw hsrc ⟨hdest, hdest'⟩ ⟨hfree.1, hfree', hfree.2⟩
    exact ⟨hof, fun hsrc0 => ⟨handles_of_multiplies Hppa.steps_sound hw hsrc hsrc0
      ⟨hdest, hdest'⟩ ⟨hfree.1, hfree', hfree.2⟩, hof⟩⟩

theorem mulConst_exact_iff_eleven :
    Multiplies Sparc.steps Sparc.machine 64 11 true 8 9 10 ∧
    Multiplies Hppa.steps Hppa.machine 64 11 true 8 9 10 :=
  have h := @mulConst_exact_iff 64 8 9 10 (.inr rfl) (by decide) (by decide) 11 true
  ⟨(h.1 (by decide) (by decide) (by decide)).1 (.inl (by decide)),
    (h.2 (by decide) (by decide) (by decide)).1 (.inl (by decide))⟩

theorem not_handles_neg : ¬Handles 64 (-11) true := by
  rw [Handles, if_neg (by decide)]
  rintro (h | h | ⟨-, -, h⟩)
  · exact absurd h (by decide)
  · exact absurd h (by decide)
  · exact (offsetLoop_near 11#64 (by decide) (by decide) (by decide)).2 h (by decide)

theorem not_handles_min : ¬Handles 32 (BitVec.intMin 32) false := by
  rw [Handles, if_pos rfl]
  decide

/-- Eleven with a minus sign, where `long` has 64 bits, and the least number that is not
signed, where it has 32. -/
theorem not_multiplies_eleven :
    (¬Multiplies Sparc.steps Sparc.machine 64 (-11) true 8 9 10 ∧
      ¬Multiplies Hppa.steps Hppa.machine 64 (-11) true 8 9 10) ∧
    ¬Multiplies Sparc.steps Sparc.machine 32 (BitVec.intMin 32) false 8 9 10 ∧
      ¬Multiplies Hppa.steps Hppa.machine 32 (BitVec.intMin 32) false 8 9 10 :=
  ⟨⟨fun h => not_handles_neg (handles_of_multiplies Sparc.steps_sound (.inr rfl) (by decide)
      (by decide) (by decide) (by decide) h),
    fun h => not_handles_neg (handles_of_multiplies Hppa.steps_sound (.inr rfl) (by decide)
      (by decide) (by decide) (by decide) h)⟩,
    fun h => not_handles_min (handles_of_multiplies Sparc.steps_sound (.inl rfl) (by decide)
      (by decide) (by decide) (by decide) h),
    fun h => not_handles_min (handles_of_multiplies Hppa.steps_sound (.inl rfl) (by decide)
      (by decide) (by decide) (by decide) h)⟩

/-!
## Division by powers of two in three back ends

An instruction that shifts by a count that it does not have has no next state, so a
sequence that leads somewhere has no such shift.
-/

/-- What SPARC, Power and m68k write for a positive power of two leaves the quotient or remainder
of the tag. -/
theorem shifts_right {n : Nat} (hn : n ≤ 30) {tag : Tag} (htag : tag ≠ .div0 ∧ tag ≠ .rem0)
    (sgned : Bool) :
    (∀ (s : Regs) (lhsReg finalReg : Reg), lhsReg ≠ Sparc.rTmp → finalReg ≠ 0 →
      ∀ (errorTreatment : Bool) (code : List Sparc.Ins),
      Sparc.doOp tag sgned errorTreatment (BitVec.twoPow 32 n) lhsReg finalReg = some code →
      ∃ t, Sparc.machine.Does code s t ∧
        Right tag sgned (s.get lhsReg) (BitVec.twoPow 32 n) (t.get finalReg)) ∧
    (∀ (cpu : Power.Cpu) (s : Power.State) (lhsReg rhsReg finalReg safeReg : Reg) (creg lab : Nat),
      lhsReg ≠ Power.rTmp0 →
      ∃ t, Power.machine.Does (Power.doOp cpu tag sgned (some (BitVec.twoPow 32 n)) lhsReg rhsReg
        finalReg safeReg creg lab) s t ∧
        Right tag sgned (s.regs lhsReg) (BitVec.twoPow 32 n) (t.regs finalReg)) ∧
    (∀ (s : M68k.State) (top dest : M68k.Where), M68k.Placed top dest →
      ∀ (d1IsSpecial lastUse : Bool) (lab end' : Nat), lab ≠ end' → ∀ code : List M68k.Ins,
      M68k.euclid tag sgned d1IsSpecial lastUse (BitVec.twoPow 32 n) top dest lab end' =
        some code →
      ∃ t, M68k.machine.Does code s t ∧
        Right tag sgned (s top) (BitVec.twoPow 32 n) (t dest)) := by
  refine ⟨?_, ?_, ?_⟩
  · intro s lhsReg finalReg hl hf errorTreatment code hcode
    exact Sparc.does_doOp sgned hl hf (by omega) htag hcode
  · intro cpu s lhsReg rhsReg finalReg safeReg creg lab hl
    exact Power.does_doOp_twoPow sgned cpu hl (by omega) creg lab
  · intro s top dest hplaced d1IsSpecial lastUse lab end' hlab code hcode
    exact M68k.does_euclid (by omega) hplaced hlab hcode s

/-- A signed remainder by 8 with each back end, of -13. -/
theorem shifts_right_eight :
    (∃ t, Sparc.machine.Does (Sparc.doRem .rem2 true (BitVec.twoPow 32 3) 8 9) ⟨fun _ => -13⟩ t ∧
      Right .rem2 true (-13) (BitVec.twoPow 32 3) (t.get 9)) ∧
    (∃ t, Power.machine.Does (Power.doOp .powerpc .rem2 true (some (BitVec.twoPow 32 3)) 3 4 5 6 0
    1)
      ⟨fun _ => -13, none, fun _ => .eq⟩ t ∧
      Right .rem2 true (-13) (BitVec.twoPow 32 3) (t.regs 5)) ∧
    ∃ t, M68k.machine.Does
      (M68k.remPower2 true false (BitVec.twoPow 32 3) (.mem 0) (.mem 1) 0 1) (fun _ => -13) t ∧
      Right .rem2 true (-13) (BitVec.twoPow 32 3) (t (.mem 1)) :=
  ⟨(shifts_right (n := 3) (by decide) (by decide) true).1 ⟨fun _ => -13⟩ 8 9 (by decide)
      (by decide) true _ rfl,
    (shifts_right (n := 3) (by decide) (by decide) true).2.1 .powerpc
      ⟨fun _ => -13, none, fun _ => .eq⟩ 3 4 5 6 0 1 (by decide),
    (shifts_right (n := 3) (by decide) (by decide) true).2.2 (fun _ => -13) (.mem 0) (.mem 1)
      ⟨some (.mem 0), by rintro w ⟨⟩; decide, rfl⟩ true false 0 1 (by decide) _ rfl⟩

end Tendra.Ref.Trans
