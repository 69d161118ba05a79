import Tendra.Ref.Trans.M68k
import Tendra.Proofs.Trans.Division

/-!
# Division by powers of two on m68k
-/

namespace Tendra.Ref.Trans.M68k

open Machine Word

@[simp] theorem machine_exec : machine.exec = exec := rfl

/-! ## The number of a bit -/

theorem bitOneLoop_twoPow {w : Nat} : ∀ (k j c : Nat), j < w → j < k →
    bitOneLoop k (BitVec.twoPow w j) c = some (c + j) := by
  intro k
  induction k with
  | zero => exact fun j c _ hj => absurd hj (Nat.not_lt_zero j)
  | succ k ih =>
      intro j c hw hj
      have hne : BitVec.twoPow w j ≠ 0 := by
        intro h
        have hnat := congrArg BitVec.toNat h
        rw [BitVec.toNat_twoPow_of_lt hw] at hnat
        exact absurd hnat (Nat.two_pow_pos j).ne'
      have hone : BitVec.twoPow w j &&& 1 = if j = 0 then 1 else 0 := by
        rw [show (1 : BitVec w) = 1#w from rfl, ← BitVec.twoPow_zero, BitVec.and_twoPow,
          BitVec.getLsbD_twoPow, decide_eq_true hw, Bool.true_and]
        by_cases h0 : j = 0
        · rw [if_pos (decide_eq_true h0), if_pos h0]
        · rw [if_neg (by rwa [decide_eq_true_eq]), if_neg h0]
          rfl
      rw [bitOneLoop, if_neg hne, hone]
      cases j with
      | zero =>
          have hw1 : (1 : BitVec w) ≠ 0 := by rwa [BitVec.twoPow_zero] at hne
          rw [if_pos rfl, if_pos hw1, Nat.add_zero]
      | succ j =>
          have hshift : BitVec.twoPow w (j + 1) >>> 1 = BitVec.twoPow w j := by
            apply BitVec.eq_of_toNat_eq
            rw [BitVec.toNat_ushiftRight, BitVec.toNat_twoPow_of_lt hw,
              BitVec.toNat_twoPow_of_lt (by omega), Nat.shiftRight_eq_div_pow, Nat.pow_succ]
            omega
          rw [if_neg (Nat.succ_ne_zero j), if_neg (fun h => h rfl), hshift,
            ih j (c + 1) (by omega) (by omega)]
          congr 1
          omega

theorem bitOne_twoPow {w n : Nat} (hn : n < w) : bitOne (BitVec.twoPow w n) = some n := by
  rw [bitOne, bitOneLoop_twoPow w n 0 hn hn, Nat.zero_add]

/-! ## Shifts -/

/-- The immediate shifts of the loop add up. -/
theorem does_shiftLoop (instr : Nat → Ins) (w : Where) (f : BitVec 32 → Nat → BitVec 32)
    (hinstr : ∀ m s, 1 ≤ m → m ≤ 8 →
      exec (instr m) s = some (Function.update s w (f (s w) m), .step))
    (hzero : ∀ x, f x 0 = x) (hadd : ∀ x a b, f x (a + b) = f (f x a) b) :
    ∀ (n : Nat) (s : State), machine.Does (shiftLoop instr n) s
    (Function.update s w (f (s w) n)) := by
  intro n
  induction n using Nat.strong_induction_on with
  | _ n ih =>
      intro s
      rw [shiftLoop]
      by_cases h0 : n = 0
      · rw [if_pos h0, h0, hzero, Function.update_eq_self]
        exact Does.nil s
      rw [if_neg h0]
      generalize hm : (if n > 8 then 7 else n) = m
      have hm1 : 1 ≤ m ∧ m ≤ 8 ∧ m ≤ n := by
        rw [← hm]
        split <;> omega
      refine (does_cons (hinstr m s hm1.1 hm1.2.1)).2 ?_
      have hrest := ih (n - m) (by omega) (Function.update s w (f (s w) m))
      rwa [Function.update_self, Function.update_idem, ← hadd, Nat.add_sub_cancel' hm1.2.2] at hrest

theorem does_asrLoop (w : Where) (n : Nat) (s : State) :
    machine.Does (shiftLoop (.asr · w) n) s (Function.update s w ((s w).sshiftRight n)) :=
  does_shiftLoop (.asr · w) w BitVec.sshiftRight (fun _ _ h1 h8 => if_pos ⟨h1, h8⟩)
    (fun _ => BitVec.sshiftRight_zero) (fun _ _ _ => BitVec.sshiftRight_add) n s

theorem does_lsrLoop (w : Where) (n : Nat) (s : State) :
    machine.Does (shiftLoop (.lsr · w) n) s (Function.update s w (s w >>> n)) :=
  does_shiftLoop (.lsr · w) w (fun x n => x >>> n) (fun _ _ h1 h8 => if_pos ⟨h1, h8⟩)
    BitVec.ushiftRight_zero BitVec.shiftRight_add n s

/-- Where the dividend may be: the registers in which the sequences work hold it only if `bop` has
put it there. -/
def Placed (top dest : Where) : Prop :=
  ∃ operand, (∀ w ∈ operand, w ≠ d0 ∧ w ≠ d1) ∧ top = bop operand dest

theorem does_shiftAux (d1IsSpecial : Bool) {n : Nat} (hn : n < 32) {top dest : Where}
    (hplaced : Placed top dest) (s : State) :
    ∃ t, machine.Does (shiftAux d1IsSpecial n top dest) s t ∧ t dest = s top >>> n := by
  rw [shiftAux]
  by_cases h0 : n = 0
  · rw [if_pos h0, h0]
    exact ⟨_, does_one rfl, (Function.update_self _ _ _).trans (BitVec.ushiftRight_zero _).symm⟩
  rw [if_neg h0, Nat.mod_eq_of_lt (show n < 64 by omega)]
  have hcount : (BitVec.ofNat 32 n).toNat % 64 = n := by
    rw [BitVec.toNat_ofNat]
    omega
  by_cases hloop : n ≤ 8 ∨ d1IsSpecial = true
  · rw [if_pos hloop]
    refine ⟨_, (does_cons rfl).2 ((does_lsrLoop _ n _).append (does_one rfl)), ?_⟩
    rw [Function.update_self, Function.update_self, Function.update_self]
  rw [if_neg hloop]
  obtain ⟨operand, hoperand, htop⟩ := hplaced
  by_cases hdreg : dest.isDreg = true
  · -- the count goes to a register that neither the dividend nor the result has
    have hw : (if dest = d0 then d1 else d0) ≠ dest ∧ top ≠ if dest = d0 then d1 else d0 := by
      have hd : d0 ≠ d1 := by decide
      cases operand with
      | some w =>
          obtain ⟨h0, h1⟩ := hoperand w rfl
          subst htop
          by_cases hdest : dest = d0
          · rw [if_pos hdest, hdest]
            exact ⟨hd.symm, h1⟩
          · rw [if_neg hdest]
            exact ⟨Ne.symm hdest, h0⟩
      | none =>
          rw [bop, if_pos hdreg] at htop
          subst htop
          by_cases hdest : top = d0
          · rw [if_pos hdest, hdest]
            exact ⟨hd.symm, hd⟩
          · rw [if_neg hdest]
            exact ⟨Ne.symm hdest, hdest⟩
    rw [if_pos hdreg]
    generalize (if dest = d0 then d1 else d0) = w at hw
    refine ⟨_, (does_cons rfl).2 ((does_cons rfl).2 (does_one rfl)), ?_⟩
    rw [Function.update_self, Function.update_self, Function.update_of_ne hw.1,
      Function.update_self, Function.update_of_ne hw.2, hcount]
  · have htop0 : top ≠ d0 := by
      cases operand with
      | some w => exact htop ▸ (hoperand w rfl).1
      | none =>
          rw [bop, if_neg hdreg] at htop
          exact htop ▸ by decide
    have hd : d0 ≠ d1 := by decide
    rw [if_neg hdreg]
    refine ⟨_, (does_cons rfl).2 ((does_cons rfl).2 ((does_cons rfl).2 (does_one rfl))), ?_⟩
    rw [Function.update_self, Function.update_self, Function.update_self,
      Function.update_of_ne htop0, Function.update_of_ne hd, Function.update_self, hcount]

/-! ## The sequences of `div_power2` and `rem_power2` -/

theorem exec_bge_of_nonneg {s : State} {w : Where} (h : 0 ≤ (s w).toInt) (lab : Nat) :
    machine.exec (.bge w lab) s = some (s, .jump lab) := by
  rw [machine_exec, exec, if_pos h]

theorem exec_bge_of_neg {s : State} {w : Where} (h : (s w).toInt < 0) (lab : Nat) :
    machine.exec (.bge w lab) s = some (s, .step) := by
  rw [machine_exec, exec, if_neg (Int.not_le.2 h)]

section

variable {n : Nat} {tag : Tag} {top dest : Where} (lastUse : Bool) (s : State)

/-- The correction is added to a negative dividend only. -/
theorem does_addBias (h0 : n ≠ 0) (hn : n < 32) (w : Where) (lab : Nat) :
    machine.Does [.move top w, .bge w lab, .addI (mask 32 n) w, .makeLabel lab] s
      (Function.update s w (s top + bias (s top) n)) := by
  rw [bias_eq (by omega) hn]
  refine (does_cons rfl).2 ?_
  rcases Int.lt_or_le (s top).toInt 0 with hneg | hnonneg
  · have hmsb : (s top).msb = true := by rwa [BitVec.msb_eq_toInt, decide_eq_true_eq]
    rw [if_pos hmsb]
    refine (does_cons (exec_bge_of_neg ?_ lab)).2 ((does_cons rfl).2 ?_)
    · rwa [Function.update_self]
    · rw [Function.update_self, Function.update_idem]
      exact does_one rfl
  · have hmsb : (s top).msb = false := by
      rw [BitVec.msb_eq_toInt, decide_eq_false_iff_not]
      omega
    rw [if_neg (by rw [hmsb]; decide)]
    refine (does_jump (exec_bge_of_nonneg ?_ lab) (d := [.addI (mask 32 n) w]) ?_ rfl).2 ?_
    · rwa [Function.update_self]
    · intro j hj
      rw [List.mem_singleton.1 hj]
      exact fun h => by cases h
    · rw [show s top + 0 = s top from BitVec.add_zero _]
      exact Does.nil _

theorem does_divPower2 (d1IsSpecial : Bool) (h0 : n ≠ 0) (hn : n < 31) (htag : tag.isDiv = true)
    (hfloors : tag.floors = false) (lab : Nat) {code : List Ins}
    (hcode : divPower2 true d1IsSpecial lastUse (BitVec.twoPow 32 n) top dest lab = some code) :
    ∃ t, machine.Does code s t ∧ Right tag true (s top) (BitVec.twoPow 32 n) (t dest) := by
  rw [divPower2, bitOne_twoPow (by omega), Option.map_some] at hcode
  injection hcode with hcode
  subst hcode
  rw [if_neg (by decide), twoPow_sub_one (by omega)]
  generalize workReg lastUse top dest = w
  refine ⟨_, ((does_addBias s h0 (by omega) w lab).append (does_asrLoop w n _)).append
    (does_one rfl), ?_⟩
  rw [Function.update_self, Function.update_self, Function.update_self]
  exact right_shift_trunc h0 hn htag hfloors _

theorem right_neg_mask (hn : n < 31) (htag : tag.isDiv = false) (hfloors : tag.floors = false)
    {l : BitVec 32} (hl : l.toInt < 0) :
    Right tag true l (BitVec.twoPow 32 n) (-(-l &&& mask 32 n)) := by
  rw [Right, decode_true, toInt_neg_and_mask (by omega) (by omega), decode_twoPow hn]
  cases tag with
  | rem0 | rem2 => rfl
  | mod => cases hfloors
  | div0 | div1 | div2 => cases htag

theorem right_mask_of_nonneg (hn : n < 31) (htag : tag.isDiv = false) {l : BitVec 32}
    (hl : 0 ≤ l.toInt) : Right tag true l (BitVec.twoPow 32 n) (l &&& mask 32 n) := by
  rw [Right, decode_and_mask true (by omega), decode_twoPow hn, decode_true]
  have hpos : (0 : Int) ≤ 2 ^ n := by positivity
  cases tag with
  | rem0 | rem2 => exact (Int.tmod_eq_emod_of_nonneg hl).symm
  | mod => exact (Int.fmod_eq_emod_of_nonneg _ hpos).symm
  | div0 | div1 | div2 => cases htag

theorem does_remPower2 (hn : n < 31) (htag : tag.isDiv = false) (hfloors : tag.floors = false)
    {lab end' : Nat} (hlab : lab ≠ end') :
    ∃ t, machine.Does (remPower2 true lastUse (BitVec.twoPow 32 n) top dest lab end') s t ∧
      Right tag true (s top) (BitVec.twoPow 32 n) (t dest) := by
  rw [remPower2, if_neg (by decide), twoPow_sub_one (by omega)]
  generalize workReg lastUse top dest = w
  rcases Int.lt_or_le (s top).toInt 0 with hneg | hnonneg
  · -- the sign is taken away and put back, and the other mask is passed over
    refine ⟨_, (does_cons rfl).2 ((does_cons (exec_bge_of_neg ?_ lab)).2 ((does_cons rfl).2
      ((does_cons rfl).2 ((does_cons rfl).2 ((does_jump rfl
      (d := [Ins.makeLabel lab, Ins.andI (mask 32 n) w w]) ?_ rfl).2 (does_one rfl)))))), ?_⟩
    · rwa [Function.update_self]
    · intro j hj
      rcases List.mem_cons.1 hj with rfl | hj
      · exact fun h => hlab (Option.some.inj h)
      · rw [List.mem_singleton.1 hj]
        exact fun h => by cases h
    · simp only [Function.update_self]
      exact right_neg_mask hn htag hfloors hneg
  · refine ⟨_, (does_cons rfl).2 ((does_jump (exec_bge_of_nonneg ?_ lab)
      (d := [.negate w, .andI (mask 32 n) w w, .negate w, .bra end']) ?_ rfl).2
      ((does_cons rfl).2 ((does_cons rfl).2 (does_one rfl)))), ?_⟩
    · rwa [Function.update_self]
    · intro j hj
      simp only [List.mem_cons, List.not_mem_nil, or_false] at hj
      rcases hj with rfl | rfl | rfl | rfl <;> exact fun h => by cases h
    · simp only [Function.update_self]
      exact right_mask_of_nonneg hn htag hnonneg

end

/-- Where `euclid` has a sequence for a power of two, it is right. -/
theorem does_euclid {n : Nat} {tag : Tag} {sgned d1IsSpecial lastUse : Bool} {top dest : Where}
    (hn : n < 31) (hplaced : Placed top dest) {lab end' : Nat} (hlab : lab ≠ end')
    {code : List Ins} (hcode : euclid tag sgned d1IsSpecial lastUse (BitVec.twoPow 32 n) top dest
      lab end' = some code) (s : State) :
    ∃ t, machine.Does code s t ∧ Right tag sgned (s top) (BitVec.twoPow 32 n) (t dest) := by
  have hzero : BitVec.twoPow 32 n ≠ 0 := fun h =>
    absurd (congrArg BitVec.toInt h) (toInt_twoPow_pos hn).ne'
  rw [euclid.eq_def, if_neg hzero] at hcode
  by_cases h0 : n = 0
  · subst h0
    rw [if_pos twoPow_zero] at hcode
    rw [twoPow_zero]
    cases tag with
    | div0 | div1 | div2 =>
        injection hcode with hcode
        subst hcode
        refine ⟨_, does_one rfl, ?_⟩
        rw [Function.update_self]
        exact right_div_one rfl _
    | mod | rem0 | rem2 =>
        injection hcode with hcode
        subst hcode
        refine ⟨_, does_one rfl, ?_⟩
        rw [Function.update_self]
        exact right_rem_one rfl _
  rw [if_neg (twoPow_ne_one h0 (by omega))] at hcode
  by_cases hform : form tag sgned ≠ 1 ∧ (¬sgned = true ∨ (BitVec.twoPow 32 n).toInt > 0) ∧
      isPow2 (BitVec.twoPow 32 n) = true
  · rw [if_pos hform] at hcode
    cases sgned with
    | false =>
        have hunsigned : false = true → tag.floors = true := fun h => absurd h (by decide)
        cases tag with
        | div0 | div1 | div2 =>
            dsimp only at hcode
            rw [divPower2, bitOne_twoPow (by omega), Option.map_some] at hcode
            injection hcode with hcode
            subst hcode
            obtain ⟨t, hdoes, hdest⟩ := does_shiftAux d1IsSpecial (show n < 32 by omega) hplaced s
            exact ⟨t, hdoes, hdest ▸ right_shr hn rfl hunsigned _⟩
        | mod | rem0 | rem2 =>
            injection hcode with hcode
            subst hcode
            rw [remPower2, if_pos (by decide), twoPow_sub_one (by omega)]
            refine ⟨_, does_one rfl, ?_⟩
            rw [Function.update_self]
            exact right_mask hn rfl hunsigned _
    | true =>
        cases tag with
        | div1 | mod => exact absurd rfl hform.1
        | div0 | div2 => exact does_divPower2 lastUse s d1IsSpecial h0 hn rfl rfl lab hcode
        | rem0 | rem2 =>
            injection hcode with hcode
            subst hcode
            exact does_remPower2 lastUse s hn rfl rfl hlab
  · rw [if_neg hform] at hcode
    cases hcode

end Tendra.Ref.Trans.M68k
