import Tendra.Proofs.Trans.CaseChain

/-!
# The vector of a case

The counter of the loop that writes the vector runs through signed numbers and does not
wrap round in a loop that ends. So the entries are those of the numbers from the lowest
value on, as long as the ranges come in the order of signed numbers.
-/

namespace Tendra.Ref.Trans.Alpha

open Machine

theorem toInt_add_ofNat {n : BitVec 64} {j : Nat} (h : n.toInt + j < 2 ^ 63) :
    (n + BitVec.ofNat 64 j).toInt = n.toInt + j := by
  have := n.le_toInt
  rw [BitVec.toInt_add, BitVec.toInt_ofNat', Int.add_bmod_bmod, Int.bmod_def]
  omega

section

variable {test : BitVec 64 → Bool} {lab : Nat} {n : BitVec 64}

theorem emitWhile_eq (k : Nat) : ∀ {n : BitVec 64} {fuel}, k < fuel →
    (∀ j < k, test (n + BitVec.ofNat 64 j) = true) → test (n + BitVec.ofNat 64 k) = false →
    emitWhile test lab fuel n = some (List.replicate k lab, n + BitVec.ofNat 64 k) := by
  induction k with
  | zero =>
      intro n fuel hfuel _ hend
      obtain ⟨fuel, rfl⟩ := Nat.exists_eq_add_one_of_ne_zero (Nat.ne_of_gt hfuel)
      rw [BitVec.add_zero] at hend ⊢
      rw [emitWhile, if_neg (Bool.not_eq_true _ ▸ hend)]
      rfl
  | succ k ih =>
      intro n fuel hfuel hgo hend
      obtain ⟨fuel, rfl⟩ :=
        Nat.exists_eq_add_one_of_ne_zero (Nat.ne_of_gt (Nat.zero_lt_of_lt hfuel))
      have hstep : ∀ j, n + 1 + BitVec.ofNat 64 j = n + BitVec.ofNat 64 (j + 1) := by
        intro j
        rw [Nat.add_comm, BitVec.ofNat_add, ← BitVec.add_assoc]
        rfl
      have hfirst := hgo 0 (Nat.succ_pos k)
      rw [BitVec.add_zero] at hfirst
      have hrest := ih (n := n + 1) (Nat.lt_of_succ_lt_succ hfuel)
        (fun j hj => (congrArg test (hstep j)).trans (hgo (j + 1) (Nat.succ_lt_succ hj)))
        ((congrArg test (hstep k)).trans hend)
      rw [emitWhile, if_pos hfirst, hrest, hstep]
      rfl

/-- A test that never fails. -/
theorem emitWhile_none (h : ∀ n, test n = true) (fuel : Nat) :
    emitWhile test lab fuel n = none := by
  induction fuel generalizing n with
  | zero => rfl
  | succ fuel ih =>
      rw [emitWhile, if_pos (h n), ih]
      rfl

/-- The counter does not wrap round where the largest number fails the test. -/
theorem emitWhile_count (h : ∀ n, test n = true → n.toInt < 2 ^ 63 - 1) {fuel : Nat} :
    ∀ {n : BitVec 64} {r}, emitWhile test lab fuel n = some r →
    r.2.toInt = n.toInt + r.1.length := by
  induction fuel with
  | zero => exact fun h => absurd h (Option.some_ne_none _).symm
  | succ fuel ih =>
      intro n r hr
      rw [emitWhile] at hr
      split at hr
      · next htest =>
          obtain ⟨r', hr', rfl⟩ := Option.map_eq_some_iff.1 hr
          have hone : (n + 1).toInt = n.toInt + 1 :=
            toInt_add_ofNat (j := 1) (by have := h n htest; omega)
          rw [ih hr', hone, List.length_cons]
          omega
      · obtain rfl := Option.some.inj hr
        simp

end

section

variable {lab : Nat} {n u : BitVec 64}

theorem emitWhile_lt (h : n.toInt ≤ u.toInt) :
    emitWhile (fun n => n.toInt < u.toInt) lab loopFuel n =
      some (List.replicate (u.toInt - n.toInt).toNat lab, u) := by
  have hlo := n.le_toInt
  have hhi := u.toInt_lt
  have hend : n + BitVec.ofNat 64 (u.toInt - n.toInt).toNat = u := by
    rw [← BitVec.toInt_inj, toInt_add_ofNat (by omega)]
    omega
  have hfuel : (u.toInt - n.toInt).toNat < loopFuel := by
    have : loopFuel = 2 ^ 64 + 1 := rfl
    omega
  rw [emitWhile_eq _ hfuel (fun j hj => ?_) ?_, hend]
  · rw [hend, decide_eq_false_iff_not]
    exact Int.lt_irrefl _
  · rw [decide_eq_true_eq, toInt_add_ofNat (by omega)]
    omega

theorem emitWhile_le (h : n.toInt ≤ u.toInt) (hu : u.toInt < 2 ^ 63 - 1) :
    emitWhile (fun n => n.toInt ≤ u.toInt) lab loopFuel n =
      some (List.replicate (u.toInt - n.toInt + 1).toNat lab, u + 1) := by
  have hlo := n.le_toInt
  have hone : (u + 1).toInt = u.toInt + 1 := toInt_add_ofNat (j := 1) (by omega)
  have hend : n + BitVec.ofNat 64 (u.toInt - n.toInt + 1).toNat = u + 1 := by
    rw [← BitVec.toInt_inj, toInt_add_ofNat (by omega), hone]
    omega
  have hfuel : (u.toInt - n.toInt + 1).toNat < loopFuel := by
    have : loopFuel = 2 ^ 64 + 1 := rfl
    omega
  rw [emitWhile_eq _ hfuel (fun j hj => ?_) ?_, hend]
  · rw [hend, decide_eq_false_iff_not, hone]
    omega
  · rw [decide_eq_true_eq, toInt_add_ofNat (by omega)]
    omega

/-- The loop for a range that reaches the largest number does not end. -/
theorem emitWhile_largest (hu : u.toInt = 2 ^ 63 - 1) :
    emitWhile (fun n => n.toInt ≤ u.toInt) lab loopFuel n = none := by
  refine emitWhile_none (fun n => ?_) loopFuel
  have := n.toInt_lt
  rw [decide_eq_true_eq, hu]
  omega

end

section

variable {f : BitVec 64 → Int} {zs : List Range} {z : Range}

/-- The ranges are disjoint and come in the order of some numbers. -/
def Ascending (f : BitVec 64 → Int) (zs : List Range) : Prop :=
  (∀ z ∈ zs, f z.lower ≤ f z.upper) ∧ zs.Pairwise fun y z => f y.upper < f z.lower

theorem Ascending.tail (h : Ascending f (z :: zs)) : Ascending f zs :=
  ⟨fun y hy => h.1 y (List.mem_cons_of_mem z hy), (List.pairwise_cons.1 h.2).2⟩

theorem Ascending.lt_lower (h : Ascending f (z :: zs)) {y : Range} (hy : y ∈ zs) :
    f z.upper < f y.lower :=
  (List.pairwise_cons.1 h.2).1 y hy

theorem Ascending.head_le (h : Ascending f zs) (hne : zs ≠ []) (hz : z ∈ zs) :
    f (zs.head hne).lower ≤ f z.lower := by
  cases zs with
  | nil => exact absurd rfl hne
  | cons y zs =>
      obtain rfl | hz := List.mem_cons.1 hz
      · exact Int.le_refl _
      · exact Int.le_trans (h.1 y List.mem_cons_self) (Int.le_of_lt (h.lt_lower hz))

theorem Ascending.le_last (h : Ascending f zs) (hne : zs ≠ []) (hz : z ∈ zs) :
    f z.upper ≤ f (zs.getLast hne).upper := by
  have hlast := h.1 _ (List.getLast_mem hne)
  have hpair := h.2
  rw [← List.dropLast_append_getLast hne, List.pairwise_append] at hpair
  rw [← List.dropLast_append_getLast hne, List.mem_append] at hz
  obtain hz | hz := hz
  · have := hpair.2.2 z hz _ List.mem_cons_self
    omega
  · rw [List.mem_singleton.1 hz]

end

section

variable {lab : Range → Nat} {endlab : Nat} {zs : List Range}

/-- The entry for a number. -/
def Entry (lab : Range → Nat) (endlab : Nat) (zs : List Range) (x : Int) (l : Nat) : Prop :=
  (∀ z ∈ zs, z.lower.toInt ≤ x ∧ x ≤ z.upper.toInt → l = lab z) ∧
    ((∀ z ∈ zs, ¬ (z.lower.toInt ≤ x ∧ x ≤ z.upper.toInt)) → l = endlab)

/-- The entries for the numbers up to the end of the first range, and those after it. -/
theorem entry_cons {z : Range} (hasc : Ascending BitVec.toInt (z :: zs)) {n : Int}
    (hn : n ≤ z.lower.toInt) {rest : List Nat}
    (hrest : ∀ (i : Nat) l, rest[i]? = some l → Entry lab endlab zs (z.upper.toInt + 1 + i) l)
    (i : Nat) (l : Nat)
    (hl : (List.replicate (z.lower.toInt - n).toNat endlab ++
      List.replicate (z.upper.toInt - z.lower.toInt + 1).toNat (lab z) ++ rest)[i]? = some l) :
    Entry lab endlab (z :: zs) (n + i) l := by
  have hle := hasc.1 z List.mem_cons_self
  have hafter : ∀ y ∈ zs, z.upper.toInt < y.lower.toInt := fun y hy => hasc.lt_lower hy
  obtain hbefore | hge := Nat.lt_or_ge i (z.lower.toInt - n).toNat
  · rw [List.append_assoc, List.getElem?_append_left (by rwa [List.length_replicate]),
      List.getElem?_replicate, if_pos hbefore] at hl
    refine ⟨fun y hy hin => ?_, fun _ => (Option.some.inj hl).symm⟩
    obtain rfl | hy := List.mem_cons.1 hy
    · omega
    · have := hafter y hy
      omega
  · obtain hin | hge' := Nat.lt_or_ge (i - (z.lower.toInt - n).toNat)
      (z.upper.toInt - z.lower.toInt + 1).toNat
    · rw [List.append_assoc, List.getElem?_append_right (by rwa [List.length_replicate]),
        List.length_replicate, List.getElem?_append_left (by rwa [List.length_replicate]),
        List.getElem?_replicate, if_pos hin] at hl
      refine ⟨fun y hy hiny => ?_, fun hnone => absurd ⟨?_, ?_⟩ (hnone z List.mem_cons_self)⟩
      · obtain rfl | hy := List.mem_cons.1 hy
        · exact (Option.some.inj hl).symm
        · have := hafter y hy
          omega
      · omega
      · omega
    · rw [List.append_assoc, List.getElem?_append_right (by rwa [List.length_replicate]),
        List.length_replicate, List.getElem?_append_right (by rwa [List.length_replicate]),
        List.length_replicate] at hl
      have heq : z.upper.toInt + 1 + ((i - (z.lower.toInt - n).toNat -
          (z.upper.toInt - z.lower.toInt + 1).toNat : Nat) : Int) = n + i := by
        omega
      obtain ⟨hin, hout⟩ := heq ▸ hrest _ l hl
      refine ⟨fun y hy hiny => ?_, fun hnone =>
        hout fun y hy => hnone y (List.mem_cons_of_mem z hy)⟩
      obtain rfl | hy := List.mem_cons.1 hy
      · omega
      · exact hin y hy hiny

/-- The vector has an entry for each number up to the highest one. -/
theorem vectorLoop_spec (lab : Range → Nat) (endlab : Nat) : ∀ (zs : List Range) (hne : zs ≠ []),
    Ascending BitVec.toInt zs → (zs.getLast hne).upper.toInt < 2 ^ 63 - 1 → ∀ u n : BitVec 64,
    n.toInt ≤ (zs.head hne).lower.toInt → ∃ table n',
    vectorLoop lab endlab zs u n = some (table, (zs.getLast hne).upper, n') ∧
    (table.length : Int) = (zs.getLast hne).upper.toInt - n.toInt + 1 ∧
    ∀ (i : Nat) l, table[i]? = some l → Entry lab endlab zs (n.toInt + i) l
  | [], hne, _, _, _, _, _ => absurd rfl hne
  | [z], _, hasc, hlast, u, n, hn => by
      have hle := hasc.1 z List.mem_cons_self
      replace hn : n.toInt ≤ z.lower.toInt := hn
      replace hlast : z.upper.toInt < 2 ^ 63 - 1 := hlast
      rw [vectorLoop, emitWhile_lt hn, Option.bind_some]
      dsimp only
      rw [show z.child.getD z.lower = z.upper from rfl, emitWhile_le hle hlast]
      refine ⟨_, _, rfl, ?_, entry_cons hasc hn fun i l hl => ?_⟩
      · rw [List.length_append, List.length_append, List.length_replicate, List.length_replicate,
          List.getLast_singleton]
        simp
        omega
      · cases hl
  | z :: y :: zs, _, hasc, hlast, u, n, hn => by
      have hle := hasc.1 z List.mem_cons_self
      replace hn : n.toInt ≤ z.lower.toInt := hn
      have hy := hasc.lt_lower (List.mem_cons_self (a := y) (l := zs))
      have hsmall : z.upper.toInt < 2 ^ 63 - 1 := by
        have := y.lower.toInt_lt
        omega
      have hone : (z.upper + 1).toInt = z.upper.toInt + 1 := toInt_add_ofNat (j := 1) (by omega)
      obtain ⟨table, n', heq, hlength, hentries⟩ := vectorLoop_spec lab endlab (y :: zs)
        (List.cons_ne_nil y zs) hasc.tail hlast z.upper (z.upper + 1) (by rw [hone]; exact hy)
      rw [vectorLoop, emitWhile_lt hn, Option.bind_some]
      dsimp only
      rw [show z.child.getD z.lower = z.upper from rfl, emitWhile_le hle hsmall, Option.bind_some,
        heq]
      refine ⟨_, _, rfl, ?_, entry_cons hasc hn fun i l hl => ?_⟩
      · rw [List.length_append, List.length_append, List.length_replicate, List.length_replicate,
          List.getLast_cons (List.cons_ne_nil y zs)]
        dsimp only
        omega
      · rw [← hone]
        exact hentries i l hl

end

/-- What the linker and the loader make of the vector: it lies at a multiple of four, and each
entry leads to its label from where `GP` points to. -/
structure Linked (env : Env Nat) (s : State) (veclab : Nat) (table : List Nat) : Prop where
  aligned : (env.data veclab).toNat % 4 = 0
  entry : ∀ (i : Nat) l, table[i]? = some l → env.code
    ((long s.mem (env.data veclab + BitVec.ofNat 64 (4 * i))).signExtend 64 + s.get gpReg) = some l

section

variable {env : Env Nat} {regs : CaseRegs} {veclab endlab : Nat} {l u : BitVec 64} {s : State}

theorem after_vectorCode (k : Nat) :
    (machine env).after k (vectorCode regs veclab endlab l u) =
      if endlab = k then some [] else none := by
  rw [vectorCode]
  split <;> simp [after, label]

/-- A branch out of the case, and what follows it. -/
theorem guarded_reaches (test : Test) (reg src : Reg) {prog pre c : List (Ins Nat)} {t : State}
    {P : Prop} [Decidable P] (hend : (machine env).target prog endlab = .inside [])
    (hprog : prog = pre ++ .integerBranch test reg endlab ::
      .operateFmt .s4addq src atReg regs.rtmp :: c)
    (hpre : ∀ i ∈ pre, i.straight) (hdoes : (machine env).Does pre s t)
    (htest : test.holds (t.get reg) = !decide P) :
    (machine env).Reaches prog (.inside prog, s)
      (if P then (.inside c, t.set regs.rtmp (4 * t.get src + t.get atReg))
        else (.inside [], t)) := by
  have hreach : (machine env).Reaches prog (.inside (pre ++ .integerBranch test reg endlab ::
      .operateFmt .s4addq src atReg regs.rtmp :: c), s) (.inside (.integerBranch test reg endlab ::
      .operateFmt .s4addq src atReg regs.rtmp :: c), t) :=
    hdoes.reaches (plain_of_straight hpre)
  rw [← hprog] at hreach
  have hbranch := branch_reaches env prog test reg endlab
    (.operateFmt .s4addq src atReg regs.rtmp :: c) t
  rw [htest, hend] at hbranch
  refine hreach.trans ?_
  by_cases hP : P
  · rw [if_pos hP]
    rw [decide_eq_true hP, if_neg (by simp)] at hbranch
    exact hbranch.trans (reaches_step (m := machine env)
      (i := .operateFmt .s4addq src atReg regs.rtmp) rfl c)
  · rw [if_neg hP]
    rwa [decide_eq_false hP, if_pos (by simp)] at hbranch

/-- The value is compared with the highest one, relative to the lowest one where that is not
zero. A value that is higher or lower leaves the case. -/
theorem vectorCode_reaches (env : Env Nat) (regs : CaseRegs) (veclab endlab : Nat)
    (l u : BitVec 64) (s : State) :
    ∃ t, t.mem = s.mem ∧ t.get gpReg = s.get gpReg ∧
      (s.get regs.r - l < u - l + 1 →
        t.get regs.rtmp = 4 * (s.get regs.r - l) + env.data veclab) ∧
      (machine env).Reaches (vectorCode regs veclab endlab l u)
        (.inside (vectorCode regs veclab endlab l u), s)
        (if s.get regs.r - l < u - l + 1 then
          .inside [.loadStore .ldl regs.rtmp ⟨.reg regs.rtmp, 0⟩,
            .operateFmt .addq regs.rtmp gpReg regs.rtmp, .integerJump regs.rtmp,
            .setLabel endlab]
          else .inside [], t) := by
  have hapart : [regs.r, regs.rtmp, regs.rtmp2, atReg, gpReg, 31].Nodup ∧
      [31, gpReg, atReg, regs.rtmp2, regs.rtmp, regs.r].Nodup :=
    ⟨regs.distinct, List.nodup_reverse.2 regs.distinct⟩
  simp [List.nodup_cons] at hapart
  have hend : (machine env).target (vectorCode regs veclab endlab l u) endlab = .inside [] := by
    refine target_of_after ?_
    rw [after_vectorCode, if_pos rfl]
  by_cases hl : l ≠ 0
  · obtain ⟨t, hdoes, hmem, hgp, htmp, htmp2, hat⟩ : ∃ t, (machine env).Does
        [.loadStore .lda atReg ⟨.data veclab, 0⟩,
          .operateFmtImmediate .addq regs.r (0 - l) regs.rtmp,
          .operateFmtImmediate .cmpult regs.rtmp (u - l + 1) regs.rtmp2] s t ∧
        t.mem = s.mem ∧ t.get gpReg = s.get gpReg ∧
        t.get regs.rtmp = s.get regs.r - l ∧
        t.get regs.rtmp2 = ofBool (s.get regs.r - l < u - l + 1) ∧
        t.get atReg = env.data veclab := by
      refine ⟨_, (does_cons rfl).2 ((does_cons rfl).2 (does_one rfl)), ?_⟩
      simp [hapart, Op.apply, BaseOff.address, BitVec.sub_eq_add_neg]
    have hreach := guarded_reaches .beq regs.rtmp2 regs.rtmp
      (c := [.loadStore .ldl regs.rtmp ⟨.reg regs.rtmp, 0⟩,
        .operateFmt .addq regs.rtmp gpReg regs.rtmp, .integerJump regs.rtmp, .setLabel endlab])
      (P := s.get regs.r - l < u - l + 1) hend (by rw [vectorCode, if_pos hl]; rfl)
      (by simp [Ins.straight]) hdoes
      (by rw [htmp2, beq_ofBool])
    by_cases hin : s.get regs.r - l < u - l + 1
    · rw [if_pos hin] at hreach ⊢
      exact ⟨t.set regs.rtmp (4 * t.get regs.rtmp + t.get atReg), hmem, by simp [hapart, hgp],
        fun _ => by simp [hapart, htmp, hat], hreach⟩
    · rw [if_neg hin] at hreach ⊢
      exact ⟨t, hmem, hgp, fun h => absurd h hin, hreach⟩
  · replace hl : l = 0 := not_not.1 hl
    obtain ⟨t, hdoes, hmem, hgp, hr, htmp, hat⟩ : ∃ t, (machine env).Does
        [.loadStore .lda atReg ⟨.data veclab, 0⟩,
          .loadImmediate regs.rtmp2 (u + 1),
          .operateFmt .cmpule regs.rtmp2 regs.r regs.rtmp] s t ∧
        t.mem = s.mem ∧ t.get gpReg = s.get gpReg ∧ t.get regs.r = s.get regs.r ∧
        t.get regs.rtmp = ofBool (u + 1 ≤ s.get regs.r) ∧
        t.get atReg = env.data veclab := by
      refine ⟨_, (does_cons rfl).2 ((does_cons rfl).2 (does_one rfl)), ?_⟩
      simp [hapart, Op.apply, BaseOff.address]
    have hin : s.get regs.r - l < u - l + 1 ↔ s.get regs.r < u + 1 := by
      have hsub : ∀ x : BitVec 64, x - l = x := fun x => hl ▸ BitVec.sub_zero x
      rw [hsub, hsub]
    have hreach := guarded_reaches .bne regs.rtmp regs.r
      (c := [.loadStore .ldl regs.rtmp ⟨.reg regs.rtmp, 0⟩,
        .operateFmt .addq regs.rtmp gpReg regs.rtmp, .integerJump regs.rtmp, .setLabel endlab])
      (P := s.get regs.r - l < u - l + 1) hend (by rw [vectorCode, if_neg (not_not.2 hl)]; rfl)
      (by simp [Ins.straight]) hdoes (by
        rw [htmp, bne_ofBool, ← decide_not, decide_eq_decide, hin]
        exact BitVec.not_lt.symm)
    by_cases hlt : s.get regs.r - l < u - l + 1
    · rw [if_pos hlt] at hreach ⊢
      exact ⟨t.set regs.rtmp (4 * t.get regs.r + t.get atReg), hmem, by simp [hapart, hgp],
        fun _ => by simp [hapart, hr, hat, hl], hreach⟩
    · rw [if_neg hlt] at hreach ⊢
      exact ⟨t, hmem, hgp, fun h => absurd h hlt, hreach⟩

/-- The jump by an entry of the vector: where it leads, and where it does not lead anywhere. -/
theorem jump_reaches {prog : List (Ins Nat)} {t : State} {a : BitVec 64}
    (ha : t.get regs.rtmp = a) (halign : a.toNat % 4 = 0) (c : List (Ins Nat)) :
    (∀ k, env.code ((long t.mem a).signExtend 64 + t.get gpReg) = some k →
      ∃ t', (machine env).Reaches prog (.inside (.loadStore .ldl regs.rtmp ⟨.reg regs.rtmp, 0⟩ ::
        .operateFmt .addq regs.rtmp gpReg regs.rtmp :: .integerJump regs.rtmp :: c), t)
        ((machine env).target prog k, t')) ∧
    (env.code ((long t.mem a).signExtend 64 + t.get gpReg) = none →
      (machine env).Leads prog (.inside (.loadStore .ldl regs.rtmp ⟨.reg regs.rtmp, 0⟩ ::
        .operateFmt .addq regs.rtmp gpReg regs.rtmp :: .integerJump regs.rtmp :: c), t)
        ((machine env).Stuck prog)) := by
  have hapart : regs.rtmp ≠ gpReg ∧ regs.rtmp ≠ 31 := by
    have := regs.distinct
    simp [List.nodup_cons] at this
    simp [this]
  have hzero : t.get regs.rtmp + 0 = a := by rw [ha]; exact BitVec.add_zero a
  let u := t.set regs.rtmp ((long t.mem a).signExtend 64)
  let v := u.set regs.rtmp (u.get regs.rtmp + u.get gpReg)
  have hload : (machine env).exec (.loadStore .ldl regs.rtmp ⟨.reg regs.rtmp, 0⟩) t =
      some (u, .step) := by
    have hfits : Fits env (t.get regs.rtmp + 0) 4 := .inr (hzero.symm ▸ halign)
    rw [exec_machine, exec, address_reg, MemOp.access, if_pos hfits, hzero]
    rfl
  have hadd : (machine env).exec (.operateFmt .addq regs.rtmp gpReg regs.rtmp) u =
      some (v, .step) := rfl
  have hv : v.get regs.rtmp = (long t.mem a).signExtend 64 + t.get gpReg := by
    simp [v, u, hapart, Ne.symm hapart.1]
  have hreach : (machine env).Reaches prog (.inside (.loadStore .ldl regs.rtmp
      ⟨.reg regs.rtmp, 0⟩ :: .operateFmt .addq regs.rtmp gpReg regs.rtmp ::
      .integerJump regs.rtmp :: c), t) (.inside (.integerJump regs.rtmp :: c), v) :=
    (reaches_step hload _).trans (reaches_step hadd _)
  refine ⟨fun k hk => ⟨v, hreach.trans ?_⟩, fun hnone => hreach.leads (.refl ⟨?_, ?_⟩)⟩
  · have hjump : (machine env).exec (.integerJump regs.rtmp) v = some (v, .jump k) := by
      rw [exec_machine, exec, hv, hk]
      rfl
    exact reaches_step hjump c
  · rw [move, exec_machine, exec, hv, hnone]
    rfl
  · exact List.cons_ne_nil _ _

theorem toNat_sub_eq (x l : BitVec 64) :
    ((x - l).toNat : Int) = (x.toInt - l.toInt) % 2 ^ 64 := by
  rw [BitVec.toNat_sub, BitVec.toInt_eq_toNat_cond, BitVec.toInt_eq_toNat_cond]
  have := x.isLt
  have := l.isLt
  split <;> split <;> omega

/-- An unsigned comparison of differences decides between signed bounds. -/
theorem sub_lt_add_one_iff {x l u : BitVec 64} (hle : l.toInt ≤ u.toInt)
    (hu : u.toInt < 2 ^ 63 - 1) : x - l < u - l + 1 ↔ l.toInt ≤ x.toInt ∧ x.toInt ≤ u.toInt := by
  have hl := l.le_toInt
  have hx := x.le_toInt
  have hx' := x.toInt_lt
  have htop := toNat_sub_eq u l
  have hone : (u - l + 1).toNat = (u - l).toNat + 1 := by
    rw [BitVec.toNat_add, Nat.mod_eq_of_lt]
    · rfl
    · have : (1 : BitVec 64).toNat = 1 := rfl
      omega
  have hsub := toNat_sub_eq x l
  rw [BitVec.lt_def, hone]
  omega

theorem entry_address (x a : BitVec 64) : 4 * x + a = a + BitVec.ofNat 64 (4 * x.toNat) := by
  rw [BitVec.ofNat_mul, BitVec.ofNat_toNat, BitVec.setWidth_eq, BitVec.add_comm]
  rfl

theorem aligned_entry {a : BitVec 64} (ha : a.toNat % 4 = 0) (i : Nat) :
    (a + BitVec.ofNat 64 (4 * i)).toNat % 4 = 0 := by
  rw [BitVec.toNat_add, BitVec.toNat_ofNat]
  omega

variable {lab : Range → Nat} {zs : List Range}

/-- The code with the vector deals with every value. -/
theorem vector_dealt (hne : zs ≠ []) (hasc : Ascending BitVec.toInt zs)
    (hlast : (zs.getLast hne).upper.toInt < 2 ^ 63 - 1) (hfresh : ∀ z ∈ zs, lab z ≠ endlab)
    (regs : CaseRegs) (veclab : Nat) : ∃ table n',
    vectorLoop lab endlab zs (BitVec.intMin 64) (zs.head hne).lower =
      some (table, (zs.getLast hne).upper, n') ∧
    ∀ (env : Env Nat) (s : State), Linked env s veclab table →
      let prog := vectorCode regs veclab endlab (zs.head hne).lower (zs.getLast hne).upper
      (∀ z ∈ zs, z.Has (s.get regs.r) →
        ∃ t, (machine env).Reaches prog (.inside prog, s) (.outside (lab z), t)) ∧
      ((∀ z ∈ zs, ¬ z.Has (s.get regs.r)) →
        ∃ t, (machine env).Reaches prog (.inside prog, s) (.inside [], t)) := by
  obtain ⟨table, n', heq, hlength, hentries⟩ := vectorLoop_spec lab endlab zs hne hasc hlast
    (BitVec.intMin 64) (zs.head hne).lower (Int.le_refl _)
  refine ⟨table, n', heq, fun env s hlinked => ?_⟩
  have hle : (zs.head hne).lower.toInt ≤ (zs.getLast hne).upper.toInt :=
    Int.le_trans (hasc.1 _ (List.head_mem hne)) (hasc.le_last hne (List.head_mem hne))
  have hin := sub_lt_add_one_iff (x := s.get regs.r) hle hlast
  obtain ⟨t, hmem, hgp, htmp, hreach⟩ := vectorCode_reaches env regs veclab endlab
    (zs.head hne).lower (zs.getLast hne).upper s
  by_cases hlt : s.get regs.r - (zs.head hne).lower <
      (zs.getLast hne).upper - (zs.head hne).lower + 1
  · rw [if_pos hlt] at hreach
    have hbounds := hin.1 hlt
    have hsub := toNat_sub_eq (s.get regs.r) (zs.head hne).lower
    have hl := (zs.head hne).lower.le_toInt
    have hu := (s.get regs.r).toInt_lt
    have hi : (s.get regs.r - (zs.head hne).lower).toNat < table.length := by omega
    have hx : (zs.head hne).lower.toInt + ((s.get regs.r - (zs.head hne).lower).toNat : Int) =
        (s.get regs.r).toInt := by
      omega
    have hk := List.getElem?_eq_getElem hi
    have hentry := hentries _ _ hk
    rw [hx] at hentry
    have haddr := (htmp hlt).trans (entry_address _ _)
    have hcode := hlinked.entry _ _ hk
    rw [← hmem, ← hgp] at hcode
    obtain ⟨t', ht'⟩ := (jump_reaches haddr (aligned_entry hlinked.aligned _)
      [.setLabel endlab]).1 _ hcode
    refine ⟨fun z hz hhas => ⟨t', ?_⟩, fun hnone => ⟨t', ?_⟩⟩
    · have hout := hfresh z hz
      rw [hentry.1 z hz hhas, target_of_none ((after_vectorCode _).trans (if_neg hout.symm))] at ht'
      exact hreach.trans ht'
    · rw [hentry.2 hnone, target_of_after ((after_vectorCode _).trans (if_pos rfl))] at ht'
      exact hreach.trans ht'
  · rw [if_neg hlt] at hreach
    refine ⟨fun z hz hhas => absurd (hin.2 ⟨?_, ?_⟩) hlt, fun _ => ⟨t, hreach⟩⟩
    · exact Int.le_trans (hasc.head_le hne hz) hhas.1
    · exact Int.le_trans hhas.2 (hasc.le_last hne hz)

end

end Tendra.Ref.Trans.Alpha
