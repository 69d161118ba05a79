import Tendra.Ref.Trans.Hppa
import Tendra.Proofs.Trans.Division

/-!
# Division by powers of two on HPPA

What the instructions on fields of bits come to, and then the sequences. The sequence
for a signed division truncates whatever the tag is, and the one that masks takes any
divisor for its absolute value.
-/

namespace Tendra.Ref.Trans.Hppa

open Machine Word

variable {dest : Reg} {j : Nat}

/-! ## Fields of bits -/

theorem shd_left (x : BitVec 32) {k : Nat} (h0 : 0 < k) (hk : k < 32) :
    ((x ++ (0 : BitVec 32)) >>> (32 - k)).setWidth 32 = x <<< k := by
  apply BitVec.eq_of_getLsbD_eq
  intro i hi
  rw [BitVec.getLsbD_setWidth, BitVec.getLsbD_ushiftRight, BitVec.getLsbD_append,
    BitVec.getLsbD_shiftLeft, decide_eq_true hi, Bool.true_and, Bool.true_and]
  by_cases h : i < k
  · rw [if_pos (by omega), decide_eq_true h, Bool.not_true, Bool.false_and]
    exact BitVec.getLsbD_zero
  · rw [if_neg (by omega), decide_eq_false h, Bool.not_false, Bool.true_and]
    congr 1
    omega

theorem shd_right (x : BitVec 32) (k : Nat) :
    (((0 : BitVec 32) ++ x) >>> k).setWidth 32 = x >>> k := by
  apply BitVec.eq_of_getLsbD_eq
  intro i hi
  rw [BitVec.getLsbD_setWidth, BitVec.getLsbD_ushiftRight, BitVec.getLsbD_append,
    BitVec.getLsbD_ushiftRight, decide_eq_true hi, Bool.true_and]
  by_cases h : k + i < 32
  · rw [if_pos h]
  · rw [if_neg h, BitVec.getLsbD_of_ge x _ (by omega)]
    exact BitVec.getLsbD_zero

theorem extrs_eq (x : BitVec 32) {k : Nat} (hk : k < 32) :
    ((x >>> (31 - (31 - k))).setWidth (32 - k)).signExtend 32 = x.sshiftRight k := by
  rw [show 31 - (31 - k) = k by omega]
  apply BitVec.eq_of_getLsbD_eq
  intro i hi
  rw [BitVec.getLsbD_signExtend, BitVec.getLsbD_sshiftRight, decide_eq_true hi, Bool.true_and,
    decide_eq_false (by omega), Bool.not_false, Bool.true_and, BitVec.msb_eq_getLsbD_last,
    BitVec.getLsbD_setWidth, BitVec.getLsbD_setWidth, BitVec.getLsbD_ushiftRight,
    BitVec.getLsbD_ushiftRight, BitVec.msb_eq_getLsbD_last]
  by_cases h : i < 32 - k
  · rw [if_pos h, if_pos (by omega), decide_eq_true h, Bool.true_and]
  · rw [if_neg h, if_neg (by omega), decide_eq_true (by omega), Bool.true_and]
    congr 1
    omega

theorem dep_zero (x : BitVec 32) {p : Nat} (hp : p < 32) :
    (x &&& ~~~(mask 32 (32 - p) <<< (31 - (31 - p)))) |||
      ((0 : BitVec 32) <<< (31 - (31 - p)) &&& mask 32 (32 - p) <<< (31 - (31 - p))) =
      x &&& mask 32 p := by
  rw [show 31 - (31 - p) = p by omega]
  apply BitVec.eq_of_getLsbD_eq
  intro i hi
  rw [BitVec.getLsbD_or, BitVec.getLsbD_and, BitVec.getLsbD_and, BitVec.getLsbD_and,
    BitVec.getLsbD_not, BitVec.getLsbD_shiftLeft, BitVec.getLsbD_shiftLeft, getLsbD_mask hi,
    decide_eq_true hi, Bool.true_and, Bool.true_and,
    show ((0 : BitVec 32).getLsbD (i - p)) = false from BitVec.getLsbD_zero]
  by_cases h : i < p
  · rw [decide_eq_true h]
    simp
  · rw [decide_eq_false h, getLsbD_mask (by omega), decide_eq_true (by omega)]
    simp

/-! ## The constant -/

/-- The loop goes on to the bit that is set. -/
theorem bitLoop_twoPow (hj : j < 32) : ∀ (k p : Nat), p < j → j ≤ p + k →
    bitLoop (BitVec.twoPow 32 j) k p = j := by
  intro k
  induction k with
  | zero => exact fun p hp hk => by omega
  | succ k ih =>
      intro p hp hk
      have hand : (1 : BitVec 32) <<< (p + 1) &&& BitVec.twoPow 32 j = 0 ↔ p + 1 ≠ j := by
        rw [show (1 : BitVec 32) <<< (p + 1) = BitVec.twoPow 32 (p + 1) from
          (BitVec.twoPow_eq 32 (p + 1)).symm, BitVec.and_twoPow, BitVec.getLsbD_twoPow]
        by_cases heq : p + 1 = j
        · subst heq
          simp only [hj, decide_true, Bool.and_self, if_true, ne_eq, not_true_eq_false, iff_false]
          intro h
          have hnat := congrArg BitVec.toNat h
          rw [BitVec.toNat_twoPow_of_lt hj] at hnat
          exact absurd hnat (Nat.two_pow_pos _).ne'
        · simp [heq]
      rw [bitLoop]
      by_cases heq : p + 1 = j
      · rw [if_neg (fun h => hand.1 h heq), heq]
      · rw [if_pos (hand.2 heq)]
        exact ih (p + 1) (by omega) (by omega)

/-! ## What the sequences leave -/

section

variable {s : Regs} {lhsReg finalReg : Reg}

theorem exec_shd {src1 src2 : Reg} {count : Nat} (h : count < 32) :
    machine.exec (.shd src1 src2 count dest) s =
      some (s.set dest (((s.get src1 ++ s.get src2) >>> count).setWidth 32), .step) := if_pos h

theorem does_shd_right {count : Nat} (h : count < 32) (src dest : Reg) :
    machine.Does [.shd gr0 src count dest] s (s.set dest (s.get src >>> count)) := by
  refine does_one ((exec_shd h).trans ?_)
  rw [Regs.get_zero, shd_right]

theorem does_extrs {k : Nat} (hk : k < 32) (src dest : Reg) :
    machine.Does [.extrs src (31 - k) (32 - k) dest] s
      (s.set dest ((s.get src).sshiftRight k)) := by
  have hfield : field (31 - k) (32 - k) = true := by
    rw [field, decide_eq_true_eq]
    omega
  refine does_one ((if_pos hfield).trans ?_)
  rw [extrs_eq _ hk]

theorem exec_dep (s : Regs) {p : Nat} (hp : p < 32) (dest : Reg) :
    machine.exec (.dep gr0 (31 - p) (32 - p) dest) s =
      some (s.set dest (s.get dest &&& mask 32 p), .step) := by
  have hfield : field (31 - p) (32 - p) = true := by
    rw [field, decide_eq_true_eq]
    omega
  refine (if_pos hfield).trans ?_
  rw [Regs.get_zero, dep_zero _ hp]

theorem does_zdep {p : Nat} (h0 : p ≠ 0) (hp : p < 32) (src dest : Reg) :
    machine.Does [.zdep src 31 p dest] s (s.set dest (s.get src &&& mask 32 p)) := by
  have hfield : field 31 p = true := by
    rw [field, decide_eq_true_eq]
    omega
  refine does_one ((if_pos hfield).trans ?_)
  rw [Nat.sub_self, BitVec.shiftLeft_zero]

/-- The quotient is truncated for every tag. -/
theorem does_doDiv (sgned : Bool) (hl : lhsReg ≠ gr1) (hf : finalReg ≠ gr0) (hj : j < 31) :
    ∃ t, machine.Does (doDiv sgned (BitVec.twoPow 32 j) lhsReg finalReg) s t ∧
      Right .div2 sgned (s.get lhsReg) (BitVec.twoPow 32 j) (t.get finalReg) := by
  have h1 : gr1 ≠ 0 := by decide
  by_cases h0 : j = 0
  · subst h0
    rw [doDiv, if_pos twoPow_zero, twoPow_zero]
    refine ⟨_, does_one rfl, ?_⟩
    rw [Regs.get_set_self hf]
    exact right_div_one rfl _
  rw [doDiv, if_neg (twoPow_ne_one h0 (by omega)), bitNo_twoPow (by omega)]
  cases sgned with
  | false =>
      rw [if_neg (by decide)]
      refine ⟨_, does_shd_right (by omega) lhsReg finalReg, ?_⟩
      rw [Regs.get_set_self hf]
      exact right_shr hj rfl (fun h => absurd h (by decide)) _
  | true =>
      rw [if_pos rfl]
      -- the correction is left in GR1
      have hbias : ∃ u, machine.Does (if j - 1 ≠ 0 then [.extrs lhsReg (32 - j) (33 - j) gr1,
          .shd gr0 gr1 (32 - j) gr1] else [.shd gr0 lhsReg (32 - j) gr1]) s u ∧
          u.get gr1 = bias (s.get lhsReg) j ∧ u.get lhsReg = s.get lhsReg := by
        by_cases hone : j = 1
        · subst hone
          refine ⟨_, does_shd_right (by decide) lhsReg gr1, ?_, Regs.get_set_ne hl _ _⟩
          rw [Regs.get_set_self h1, bias_one]
        · rw [if_pos (by omega)]
          have hextrs := does_extrs (s := s) (show j - 1 < 32 by omega) lhsReg gr1
          rw [show 31 - (j - 1) = 32 - j by omega, show 32 - (j - 1) = 33 - j by omega] at hextrs
          refine ⟨_, hextrs.append (does_shd_right (by omega) gr1 gr1), ?_, ?_⟩
          · rw [Regs.get_set_self h1, Regs.get_set_self h1, bias]
          · rw [Regs.get_set_ne hl, Regs.get_set_ne hl]
      obtain ⟨u, hu, hgr1, hlhs⟩ := hbias
      refine ⟨_, hu.append ((does_cons rfl).2 (does_extrs (by omega) gr1 finalReg)), ?_⟩
      rw [Regs.get_set_self hf, Regs.get_set_self h1, hgr1, hlhs]
      exact right_shift_trunc h0 hj rfl rfl _

/-- The word that the sequences for remainders leave. -/
def remWord (tag : Tag) (sgned : Bool) (x : BitVec 32) (j : Nat) : BitVec 32 :=
  if sgned ∧ tag = .rem2 ∧ x.toInt ≤ 0 then -(-x &&& mask 32 j) else x &&& mask 32 j

/-- The copy after which the next instruction is nullified if it copies a positive word. -/
theorem exec_or {r : Reg} : machine.exec (.rrr .or .c_g gr0 r dest) s =
    some (s.set dest (s.get r), if 0 < (s.get r).toInt then .null else .step) := by
  have hor : Op.or.apply (s.get gr0) (s.get r) = s.get r := by
    rw [Regs.get_zero]
    exact BitVec.zero_or
  change some _ = _
  simp only [hor, Cond.holds, decide_eq_true_eq]

theorem exec_neg (s : Regs) (r dest : Reg) :
    machine.exec (.rrr .sub .c_ gr0 r dest) s = some (s.set dest (-s.get r), .step) := by
  have hsub : Op.sub.apply (s.get gr0) (s.get r) = -s.get r := by
    rw [Regs.get_zero]
    exact BitVec.zero_sub _
  change some _ = _
  simp only [hsub, Cond.holds, Bool.false_eq_true, if_false]

theorem exec_or_of_pos {r : Reg} (h : 0 < (s.get r).toInt) :
    machine.exec (.rrr .or .c_g gr0 r dest) s = some (s.set dest (s.get r), .null) := by
  rw [exec_or, if_pos h]

theorem exec_or_of_nonpos {r : Reg} (h : ¬0 < (s.get r).toInt) :
    machine.exec (.rrr .or .c_g gr0 r dest) s = some (s.set dest (s.get r), .step) := by
  rw [exec_or, if_neg h]

/-- The two negations, one before the mask and one after it, are made or nullified together. -/
theorem does_negMask {x : BitVec 32} (hx : s.get lhsReg = x) {saved first : Reg} (hd : dest ≠ 0)
    (hne : saved ≠ dest) (hsaved : (s.set first x).get saved = x)
    (hdest : (s.set first x).get dest = x) (hj : j < 32) :
    ∃ t, machine.Does [.rrr .or .c_g gr0 lhsReg first, .rrr .sub .c_ gr0 dest dest,
      .dep gr0 (31 - j) (32 - j) dest, .rrr .or .c_g gr0 saved gr0,
      .rrr .sub .c_ gr0 dest dest] s t ∧
      t.get dest = if 0 < x.toInt then x &&& mask 32 j else -(-x &&& mask 32 j) := by
  subst hx
  by_cases hpos : 0 < (s.get lhsReg).toInt
  · rw [if_pos hpos]
    generalize hu : (s.set first (s.get lhsReg)).set dest (s.get lhsReg &&& mask 32 j) = u
    have hdep := exec_dep (s.set first (s.get lhsReg)) hj dest
    rw [hdest, hu] at hdep
    have hsu : u.get saved = s.get lhsReg := by rw [← hu, Regs.get_set_ne hne, hsaved]
    refine ⟨_, (does_null (exec_or_of_pos hpos)).2 ((does_cons hdep).2
      ((does_null (exec_or_of_pos (hsu ▸ hpos))).2 (Does.nil _))), ?_⟩
    rw [Regs.get_set_ne hd, ← hu, Regs.get_set_self hd]
  · rw [if_neg hpos]
    generalize hu : ((s.set first (s.get lhsReg)).set dest (-s.get lhsReg)).set dest
      (-s.get lhsReg &&& mask 32 j) = u
    have hneg := exec_neg (s.set first (s.get lhsReg)) dest dest
    rw [hdest] at hneg
    have hdep := exec_dep ((s.set first (s.get lhsReg)).set dest (-s.get lhsReg)) hj dest
    rw [Regs.get_set_self hd, hu] at hdep
    have hsu : u.get saved = s.get lhsReg := by
      rw [← hu, Regs.get_set_ne hne, Regs.get_set_ne hne, hsaved]
    refine ⟨_, (does_cons (exec_or_of_nonpos hpos)).2 ((does_cons hneg).2 ((does_cons hdep).2
      ((does_cons (exec_or_of_nonpos (hsu ▸ hpos))).2 (does_one (exec_neg _ _ _))))), ?_⟩
    rw [Regs.get_set_self hd, Regs.get_set_ne hd, ← hu, Regs.get_set_self hd]

theorem remWord_zero (tag : Tag) (sgned : Bool) (x : BitVec 32) : remWord tag sgned x 0 = 0 := by
  have hmask : mask 32 0 = 0 := by decide
  rw [remWord, hmask]
  split
  · rw [show -x &&& 0 = 0 from BitVec.and_zero]
    rfl
  · exact BitVec.and_zero

theorem does_doRem (tag : Tag) (sgned : Bool) (hl : lhsReg ≠ gr1) (hf : finalReg ≠ gr0)
    (hj : j < 32) :
    ∃ t, machine.Does (doRem tag sgned (BitVec.twoPow 32 j) lhsReg finalReg) s t ∧
      t.get finalReg = remWord tag sgned (s.get lhsReg) j := by
  have h1 : gr1 ≠ 0 := by decide
  by_cases h0 : j = 0
  · subst h0
    rw [doRem, if_pos twoPow_zero]
    refine ⟨_, does_one rfl, ?_⟩
    rw [Regs.get_set_self hf, remWord_zero, Regs.get_zero]
  rw [doRem, if_neg (twoPow_ne_one h0 hj), bitLoop_twoPow hj 31 0 (by omega) (by omega)]
  by_cases hrem2 : sgned = true ∧ tag = .rem2
  · have hword : remWord tag sgned (s.get lhsReg) j = if 0 < (s.get lhsReg).toInt then
        s.get lhsReg &&& mask 32 j else -(-s.get lhsReg &&& mask 32 j) := by
      rw [remWord]
      by_cases hpos : 0 < (s.get lhsReg).toInt
      · rw [if_pos hpos, if_neg (fun h => absurd h.2.2 (by omega))]
      · rw [if_neg hpos, if_pos ⟨hrem2.1, hrem2.2, by omega⟩]
    rw [if_pos hrem2, hword]
    by_cases hsame : lhsReg = finalReg
    · subst hsame
      rw [if_pos rfl]
      exact does_negMask rfl hf (Ne.symm hl) (Regs.get_set_self h1 _ _) (Regs.get_set_ne hl _ _) hj
    · rw [if_neg hsame]
      exact does_negMask rfl hf hsame (Regs.get_set_ne hsame _ _) (Regs.get_set_self hf _ _) hj
  · have hword : remWord tag sgned (s.get lhsReg) j = s.get lhsReg &&& mask 32 j :=
      if_neg fun h => hrem2 ⟨h.1, h.2.1⟩
    rw [if_neg hrem2, hword]
    by_cases hsame : lhsReg = finalReg
    · rw [if_pos hsame, hsame]
      exact ⟨_, does_one (exec_dep s hj finalReg), Regs.get_set_self hf _ _⟩
    · rw [if_neg hsame]
      exact ⟨_, does_zdep h0 hj lhsReg finalReg, Regs.get_set_self hf _ _⟩

end

/-! ## Where that is right -/

/-- A truncated quotient is that of a division that rounds down if the dividend is not negative or
the division comes out even. -/
theorem right_div1_iff (hj : j < 31) {x v : BitVec 32}
    (hv : Right .div2 true x (BitVec.twoPow 32 j) v) :
    Right .div1 true x (BitVec.twoPow 32 j) v ↔
      (x.toInt < 0 → (BitVec.twoPow 32 j).toInt ∣ x.toInt) := by
  have hpos := toInt_twoPow_pos hj
  rw [right_signed] at hv ⊢
  rw [hv, Tag.exact, Tag.exact]
  generalize (BitVec.twoPow 32 j).toInt = n at *
  rw [Int.fdiv_eq_ediv_of_nonneg _ (Int.le_of_lt hpos), Int.tdiv_eq_ediv,
    Int.sign_eq_one_of_pos hpos]
  by_cases hd : n ∣ x.toInt
  · simp [hd]
  · by_cases hneg : 0 ≤ x.toInt
    · rw [if_pos (.inl hneg)]
      exact iff_of_true (Int.add_zero _) (fun h => absurd hneg (by omega))
    · rw [if_neg (fun h => h.elim hneg hd)]
      exact iff_of_false (by omega) (fun h => hd (h (by omega)))

theorem right_remWord_unsigned {tag : Tag} (htag : tag.isDiv = false) (hj : j < 32)
    (x : BitVec 32) :
    Right tag false x (BitVec.twoPow 32 j) (remWord tag false x j) := by
  rw [right_unsigned, htag, if_neg (by decide), remWord, if_neg (fun h => absurd h.1 (by decide))]
  apply BitVec.eq_of_toNat_eq
  rw [toNat_and_mask (by omega), BitVec.toNat_umod, BitVec.toNat_twoPow_of_lt hj]

/-- The smallest word, as a divisor. -/
theorem toInt_twoPow_last : (BitVec.twoPow 32 31).toInt = -2 ^ 31 := by decide

theorem right_remWord_rem2 (hj : j < 32) (x : BitVec 32) :
    Right .rem2 true x (BitVec.twoPow 32 j) (remWord .rem2 true x j) := by
  rw [right_signed, Tag.exact]
  have habs : x.toInt.tmod (BitVec.twoPow 32 j).toInt = x.toInt.tmod (2 ^ j) := by
    by_cases hlast : j = 31
    · rw [hlast, toInt_twoPow_last, Int.tmod_neg]
    · rw [toInt_twoPow (show j < 31 by omega)]
  rw [habs, remWord]
  by_cases hneg : x.toInt ≤ 0
  · rw [if_pos ⟨rfl, rfl, hneg⟩, toInt_neg_and_mask hj hneg]
  · rw [if_neg (fun h => hneg h.2.2), Int.tmod_eq_emod_of_nonneg (by omega), ← decode_true,
      decode_and_mask true hj, decode_true]

/-- A mask takes the smallest divisor for its absolute value. -/
theorem right_remWord_mod (hj : j < 32) (x : BitVec 32) :
    Right .mod true x (BitVec.twoPow 32 j) (remWord .mod true x j) ↔
      (j = 31 → x.toInt = 0 ∨ x.toInt = -2 ^ 31) := by
  have hword : remWord .mod true x j = x &&& mask 32 j :=
    if_neg fun h => absurd h.2.1 (by decide)
  rw [hword]
  by_cases hlast : j = 31
  · subst hlast
    obtain ⟨hle, hlt⟩ := toInt_bounds (show 0 < 32 by decide) x
    rw [right_signed, Tag.exact, toInt_twoPow_last, ← decode_true, decode_and_mask true hj,
      decode_true, Int.fmod_eq_emod, Int.emod_neg]
    have hdvd : (-2 ^ 31 : Int) ∣ x.toInt ↔ x.toInt = 0 ∨ x.toInt = -2 ^ 31 := by
      rw [Int.neg_dvd]
      omega
    simp only [hdvd, show ¬(0 : Int) ≤ -2 ^ 31 by decide, false_or, true_imp_iff]
    split <;> omega
  · exact iff_of_true (right_mask (by omega) rfl (fun _ => rfl) x) (fun h => absurd h hlast)

/-- What the divisions that are made inline need: a signed `div1` a dividend that is not negative or
a multiple of the divisor, and a signed `mod` by the smallest integer a dividend that is a multiple
of it. -/
def Rounded (tag : Tag) (sgned : Bool) (x n : BitVec 32) : Prop :=
  (sgned = true ∧ tag = .div1 → x.toInt < 0 → n.toInt ∣ x.toInt) ∧
  (sgned = true ∧ tag = .mod → n.toInt = -2 ^ 31 → x.toInt = 0 ∨ x.toInt = -2 ^ 31)

/-- Where a sequence is written for a constant, it is right just for these. -/
theorem doOp_rounded_iff {tag : Tag} (htag : tag ≠ .div0 ∧ tag ≠ .rem0) (sgned : Bool)
    {n : BitVec 32} {s : Regs} {lhsReg finalReg : Reg} (hl : lhsReg ≠ gr1) (hf : finalReg ≠ gr0)
    {code : List Ins} (hcode : doOp tag sgned n lhsReg finalReg = some code) :
    (∃ t, machine.Does code s t ∧ Right tag sgned (s.get lhsReg) n (t.get finalReg)) ↔
      Rounded tag sgned (s.get lhsReg) n := by
  have hunsigned : ∀ t' : Tag, Rounded t' false (s.get lhsReg) n := fun t' =>
    ⟨fun h => absurd h.1 (by decide), fun h => absurd h.1 (by decide)⟩
  -- the constant is a power of two, and for a division a positive one
  have hconst : n ≠ 0 ∧ isPow2 n = true ∧ (tag.isDiv = true → n.toInt > 0) ∧
      code = if tag.isDiv then doDiv sgned n lhsReg finalReg
        else doRem tag sgned n lhsReg finalReg := by
    cases tag with
    | div0 | div1 | div2 =>
        rw [doOp] at hcode
        split at hcode
        · rename_i h
          injection hcode with hcode
          refine ⟨fun h0 => ?_, h.2, fun _ => h.1, hcode.symm⟩
          rw [h0] at h
          exact absurd h.1 (by decide)
        · cases hcode
    | mod | rem0 | rem2 =>
        rw [doOp] at hcode
        split at hcode
        · rename_i h
          injection hcode with hcode
          exact ⟨h.1, h.2, fun h => absurd h (by decide), hcode.symm⟩
        · cases hcode
  obtain ⟨hn0, hpow, hpos, rfl⟩ := hconst
  obtain ⟨j, hj, rfl⟩ := eq_twoPow hn0 hpow
  cases hdiv : tag.isDiv with
  | true =>
      have hj31 : j < 31 := by
        by_contra hge
        obtain rfl : j = 31 := by omega
        exact absurd (hpos hdiv) (by decide)
      rw [if_pos rfl]
      obtain ⟨t, hdoes, hright⟩ := does_doDiv (s := s) sgned hl hf hj31
      rw [hdoes.exists_iff]
      cases sgned with
      | false =>
          rw [right_unsigned] at hright
          refine iff_of_true ?_ (hunsigned tag)
          rw [right_unsigned, hright, hdiv]
          rfl
      | true =>
          cases tag with
          | div1 =>
              rw [right_div1_iff hj31 hright]
              exact ⟨fun h => ⟨fun _ => h, fun h => absurd h.2 (by decide)⟩,
                fun h => h.1 ⟨rfl, rfl⟩⟩
          | div2 =>
              exact iff_of_true hright
                ⟨fun h => absurd h.2 (by decide), fun h => absurd h.2 (by decide)⟩
          | div0 => exact absurd rfl htag.1
          | mod | rem0 | rem2 => cases hdiv
  | false =>
      rw [if_neg (by decide)]
      obtain ⟨t, hdoes, hword⟩ := does_doRem (s := s) tag sgned hl hf hj
      rw [hdoes.exists_iff, hword]
      cases sgned with
      | false => exact iff_of_true (right_remWord_unsigned hdiv hj _) (hunsigned tag)
      | true =>
          cases tag with
          | mod =>
              have hlast : (BitVec.twoPow 32 j).toInt = -2 ^ 31 ↔ j = 31 := by
                constructor
                · intro h
                  by_contra hne
                  have hpos := toInt_twoPow_pos (show j < 31 by omega)
                  omega
                · rintro rfl
                  exact toInt_twoPow_last
              rw [right_remWord_mod hj, ← hlast]
              exact ⟨fun h => ⟨fun h => absurd h.2 (by decide), fun _ => h⟩,
                fun h => h.2 ⟨rfl, rfl⟩⟩
          | rem2 =>
              exact iff_of_true (right_remWord_rem2 hj _)
                ⟨fun h => absurd h.2 (by decide), fun h => absurd h.2 (by decide)⟩
          | rem0 => exact absurd rfl htag.2
          | div0 | div1 | div2 => cases hdiv

/-- The quotient of -7 by 4, in one register. -/
theorem doOp_rounded_iff_four :
    (∃ t, machine.Does (doDiv true 4 3 3) ⟨fun _ => -7⟩ t ∧ Right .div1 true (-7) 4 (t.get 3)) ↔
      Rounded .div1 true (-7) 4 :=
  have hcode : doOp .div1 true 4 3 3 = some (doDiv true 4 3 3) := rfl
  doOp_rounded_iff (by decide) true (s := ⟨fun _ => -7⟩) (by decide) (by decide) hcode

/-- It is truncated where it is to be rounded down. -/
theorem not_does_doDiv_four :
    ¬∃ t, machine.Does (doDiv true 4 3 3) ⟨fun _ => -7⟩ t ∧ Right .div1 true (-7) 4 (t.get 3) := by
  rintro ⟨t, hdoes, hright⟩
  have hrun : ∃ u, machine.Does (doDiv true 4 3 3) ⟨fun _ => -7⟩ u ∧ u.get 3 = -1 :=
    ⟨_, rfl, by decide⟩
  rw [hdoes.exists_iff] at hrun
  rw [hrun] at hright
  exact absurd hright (by decide)

end Tendra.Ref.Trans.Hppa
