import Tendra.Proofs.Trans.Alpha
import Tendra.Ref.Trans.CaseTag

/-!
# The chain of tests of a case

The tests compare signed numbers. A test that leaves the chain is right where none of the
ranges after it contains the value either, and one that is left out is one that the
limits decide.
-/

namespace Tendra.Ref.Trans.Alpha

open Machine

variable {c : List (Ins Nat)} {u : BitVec 64}

/-- The range contains a number that is taken as signed. -/
def Range.Has (z : Range) (x : BitVec 64) : Prop :=
  z.lower.toInt ≤ x.toInt ∧ x.toInt ≤ z.upper.toInt

/-- A value of the first range, or below it where that has two bounds, is not in the second. -/
def Apart (x : BitVec 64) (y z : Range) : Prop :=
  (y.Has x → ¬ z.Has x) ∧ (y.child.isSome → x.toInt < y.lower.toInt → ¬ z.Has x)

section

variable {env : Env Nat} {regs : CaseRegs} {lab : Range → Nat} {newlab : Nat} {usw : Bool}

theorem branch_reaches (env : Env Nat) (prog : List (Ins Nat)) (test : Test) (reg : Reg) (l : Nat)
    (c : List (Ins Nat)) (s : State) : (machine env).Reaches prog
      (.inside (.integerBranch test reg l :: c), s)
      (if test.holds (s.get reg) then (machine env).target prog l else .inside c, s) := by
  have hgoes : (machine env).goes prog c (if test.holds (s.get reg) then .jump l else .step) =
      if test.holds (s.get reg) then (machine env).target prog l else .inside c := by
    split <;> rfl
  rw [← hgoes]
  exact reaches_step (m := machine env) (i := .integerBranch test reg l) rfl c

/-- A test of the value, and a branch on its result. -/
theorem test_reaches (env : Env Nat) (prog : List (Ins Nat)) (regs : CaseRegs) (op : Op)
    (test : Test) (imm : BitVec 64) (l : Nat) (c : List (Ins Nat)) (s : State) :
    ∃ t, t.get regs.r = s.get regs.r ∧ (machine env).Reaches prog
      (.inside (.operateFmtImmediate op regs.r imm regs.rtmp ::
        .integerBranch test regs.rtmp l :: c), s)
      (if test.holds (op.apply (s.get regs.r) imm) then (machine env).target prog l
        else .inside c, t) := by
  have hapart := regs.distinct
  simp [List.nodup_cons] at hapart
  let t := s.set regs.rtmp (op.apply (s.get regs.r) imm)
  have hop : exec env (.operateFmtImmediate op regs.r imm regs.rtmp) s = some (t, .step) := rfl
  have htmp : t.get regs.rtmp = op.apply (s.get regs.r) imm := by simp [t, hapart]
  have hbranch := branch_reaches env prog test regs.rtmp l c t
  rw [htmp] at hbranch
  refine ⟨t, by simp [t, hapart], .trans (reaches_step hop _) ?_⟩
  exact hbranch

theorem bne_cmpeq (x y : BitVec 64) : Test.bne.holds (Op.cmpeq.apply x y) = decide (x = y) :=
  bne_ofBool _

theorem bne_cmple (x y : BitVec 64) :
    Test.bne.holds (Op.cmple.apply x y) = decide (x.toInt ≤ y.toInt) :=
  bne_ofBool _

theorem beq_cmplt (x y : BitVec 64) :
    Test.beq.holds (Op.cmplt.apply x y) = decide (y.toInt ≤ x.toInt) := by
  rw [Op.apply, beq_ofBool, ← decide_not, decide_eq_decide]
  exact Int.not_lt

/-- What is written for one range sets no label. -/
theorem chain_cons (regs : CaseRegs) (lab : Range → Nat) (newlab : Nat) (usw : Bool) (z : Range)
    (zs : List Range) (maxi mini : BitVec 64) (taken : Bool) : ∃ c maxi' mini' taken',
    chain regs lab newlab usw (z :: zs) maxi mini taken =
      c ++ chain regs lab newlab usw zs maxi' mini' taken' ∧
    (∀ i ∈ c, label i = none) ∧ (taken = true → taken' = true) := by
  rw [chain]
  cases z.child with
  | none =>
      dsimp only
      split
      · exact ⟨[_, _], _, _, _, rfl, by simp [label], id⟩
      · split
        · exact ⟨[_, _], _, _, _, rfl, by simp [label], id⟩
        · exact ⟨[_, _], _, _, _, rfl, by simp [label], id⟩
  | some u =>
      dsimp only
      split
      · split
        · exact ⟨[_, _], _, _, _, rfl, by simp [label], id⟩
        · exact ⟨[_, _, _, _], _, _, _, rfl, by simp [label], fun _ => rfl⟩
      · split
        · exact ⟨[_, _], _, _, _, rfl, by simp [label], id⟩
        · exact ⟨[_], _, _, _, rfl, by simp [label], id⟩

theorem not_label {l : Nat} (hc : ∀ i ∈ c, label i = none) :
    ∀ i ∈ c, (machine env).label i ≠ some l := by
  intro i hi
  rw [label_machine, hc i hi]
  exact (Option.some_ne_none l).symm

theorem not_label_append {pre : List (Ins Nat)} {l : Nat}
    (hpre : ∀ i ∈ pre, (machine env).label i ≠ some l) (hc : ∀ i ∈ c, label i = none) :
    ∀ i ∈ pre ++ c, (machine env).label i ≠ some l := by
  intro i hi
  obtain hi | hi := List.mem_append.1 hi
  · exact hpre i hi
  · exact not_label hc i hi

/-- In an unsigned case both bounds are tested. -/
theorem chain_pair (regs : CaseRegs) (lab : Range → Nat) (newlab : Nat) {z : Range}
    (hu : z.child = some u) (zs : List Range) (maxi mini : BitVec 64) (taken : Bool) :
    chain regs lab newlab true (z :: zs) maxi mini taken =
      [.operateFmtImmediate .cmplt regs.r z.lower regs.rtmp,
        .integerBranch .bne regs.rtmp newlab,
        .operateFmtImmediate .cmple regs.r u regs.rtmp,
        .integerBranch .bne regs.rtmp (lab z)] ++
      chain regs lab newlab true zs maxi (u + 1) true := by
  rw [chain, hu]
  simp

/-- The label of the end is set where it has been taken. -/
theorem after_chain (zs : List Range) : ∀ maxi mini,
    (machine env).after newlab (chain regs lab newlab usw zs maxi mini true) = some [] := by
  induction zs with
  | nil =>
      intro _ _
      rw [chain, if_pos rfl, after]
      exact if_pos rfl
  | cons z zs ih =>
      intro maxi mini
      obtain ⟨c, maxi', mini', taken', heq, hc, hover⟩ :=
        chain_cons regs lab newlab usw z zs maxi mini true
      rw [heq, after_append (fun i hi => not_label hc i hi), hover rfl]
      exact ih maxi' mini'

/-- No other label is set. -/
theorem label_chain {l : Nat} (hl : l ≠ newlab) (zs : List Range) : ∀ maxi mini taken,
    ∀ i ∈ chain regs lab newlab usw zs maxi mini taken, (machine env).label i ≠ some l := by
  induction zs with
  | nil =>
      intro _ _ taken i hi
      rw [chain] at hi
      split at hi
      · obtain rfl := List.mem_singleton.1 hi
        exact fun h => hl (Option.some.inj h).symm
      · cases hi
  | cons z zs ih =>
      intro maxi mini taken i hi
      obtain ⟨c, maxi', mini', taken', heq, hc, -⟩ :=
        chain_cons regs lab newlab usw z zs maxi mini taken
      rw [heq, List.mem_append] at hi
      obtain hi | hi := hi
      · exact not_label hc i hi
      · exact ih maxi' mini' taken' i hi

/-- The value is dealt with from a place on: the label of its range is reached or, without one,
the end. -/
def Dealt (env : Env Nat) (prog : List (Ins Nat)) (regs : CaseRegs) (lab : Range → Nat)
    (zs : List Range) (x : BitVec 64) (p : Place (Ins Nat) Nat) : Prop :=
  ∀ s : State, s.get regs.r = x →
    (∀ z ∈ zs, z.Has x → ∃ t, (machine env).Reaches prog (p, s) (.outside (lab z), t)) ∧
    ((∀ z ∈ zs, ¬ z.Has x) → ∃ t, (machine env).Reaches prog (p, s) (.inside [], t))

variable {prog : List (Ins Nat)} {zs : List Range} {z : Range} {x : BitVec 64}

theorem Dealt.test {op : Op} {test : Test} {imm : BitVec 64} {l : Nat}
    (hyes : test.holds (op.apply x imm) = true →
      Dealt env prog regs lab zs x ((machine env).target prog l))
    (hno : test.holds (op.apply x imm) = false → Dealt env prog regs lab zs x (.inside c)) :
    Dealt env prog regs lab zs x (.inside (.operateFmtImmediate op regs.r imm regs.rtmp ::
      .integerBranch test regs.rtmp l :: c)) := by
  intro s hs
  obtain ⟨t, ht, hreach⟩ := test_reaches env prog regs op test imm l c s
  rw [hs] at ht hreach
  have hd : Dealt env prog regs lab zs x
      (if test.holds (op.apply x imm) then (machine env).target prog l else .inside c) := by
    cases h : test.holds (op.apply x imm) with
    | true => exact hyes h
    | false => exact hno h
  obtain ⟨hin, hout⟩ := hd t ht
  refine ⟨fun z hz hhas => ?_, fun hnone => ?_⟩
  · obtain ⟨u, hu⟩ := hin z hz hhas
    exact ⟨u, hreach.trans hu⟩
  · obtain ⟨u, hu⟩ := hout hnone
    exact ⟨u, hreach.trans hu⟩

/-- The first range contains the value, and none after it does. -/
theorem Dealt.hit (hz : z.Has x) (hrest : ∀ y ∈ zs, Apart x z y) :
    Dealt env prog regs lab (z :: zs) x (.outside (lab z)) := by
  intro s _
  refine ⟨fun y hy hhas => ?_, fun hnone => absurd hz (hnone z List.mem_cons_self)⟩
  obtain rfl | hy := List.mem_cons.1 hy
  · exact ⟨s, .refl _⟩
  · exact absurd hhas ((hrest y hy).1 hz)

/-- No range contains the value. -/
theorem Dealt.none (hnone : ∀ z ∈ zs, ¬ z.Has x) : Dealt env prog regs lab zs x (.inside []) :=
  fun s _ => ⟨fun z hz hhas => absurd hhas (hnone z hz), fun _ => ⟨s, .refl _⟩⟩

/-- The first range does not contain the value. -/
theorem Dealt.miss {p : Place (Ins Nat) Nat} (hz : ¬ z.Has x)
    (h : Dealt env prog regs lab zs x p) : Dealt env prog regs lab (z :: zs) x p := by
  intro s hs
  obtain ⟨hin, hout⟩ := h s hs
  refine ⟨fun y hy hhas => ?_, fun hnone => hout fun y hy => hnone y (List.mem_cons_of_mem z hy)⟩
  obtain rfl | hy := List.mem_cons.1 hy
  · exact absurd hhas hz
  · exact hin y hy hhas

theorem Range.has_of_child_none (hz : z.child = none) : z.Has x ↔ x = z.lower := by
  rw [Range.Has, Range.upper, hz, Option.getD_none, ← BitVec.toInt_inj]
  omega

theorem Range.has_of_child_some (hz : z.child = some u) :
    z.Has x ↔ z.lower.toInt ≤ x.toInt ∧ x.toInt ≤ u.toInt := by
  rw [Range.Has, Range.upper, hz, Option.getD_some]

theorem toInt_sub_one {x y : BitVec 64} (h : x.toInt < y.toInt) :
    x.toInt ≤ (y - 1).toInt := by
  have hone : (1 : BitVec 64).toInt = 1 := rfl
  have := x.le_toInt
  have := y.toInt_lt
  rw [BitVec.toInt_sub, hone, Int.bmod_def]
  omega

theorem toInt_add_one {x y : BitVec 64} (h : y.toInt < x.toInt) :
    (y + 1).toInt ≤ x.toInt := by
  have hone : (1 : BitVec 64).toInt = 1 := rfl
  have := x.toInt_lt
  have := y.le_toInt
  rw [BitVec.toInt_add, hone, Int.bmod_def]
  omega

/-- The chain deals with a value that lies between the limits, where these are looked at. -/
theorem chain_dealt (hsets : ∀ z ∈ zs, (machine env).target prog (lab z) = .outside (lab z))
    (hapart : zs.Pairwise (Apart x)) : ∀ pre maxi mini taken,
    prog = pre ++ chain regs lab newlab usw zs maxi mini taken →
    (∀ i ∈ pre, (machine env).label i ≠ some newlab) →
    (usw = false → mini.toInt ≤ x.toInt ∧ x.toInt ≤ maxi.toInt) →
    Dealt env prog regs lab zs x (.inside (chain regs lab newlab usw zs maxi mini taken)) := by
  induction zs with
  | nil =>
      intro pre maxi mini taken hprog hpre hlims s hs
      refine ⟨fun z hz => absurd hz List.not_mem_nil, fun _ => ?_⟩
      rw [chain]
      cases taken with
      | false => exact ⟨s, .refl _⟩
      | true => exact ⟨s, reaches_step (m := machine env) (i := .setLabel newlab) rfl []⟩
  | cons z zs ih =>
      intro pre maxi mini taken hprog hpre hlims
      obtain ⟨hz, hrest⟩ := List.pairwise_cons.1 hapart
      have hlab := hsets z List.mem_cons_self
      have hsets' := fun y hy => hsets y (List.mem_cons_of_mem z hy)
      have hnext : ∀ c maxi' mini' taken',
          prog = pre ++ (c ++ chain regs lab newlab usw zs maxi' mini' taken') →
          (∀ i ∈ c, label i = none) →
          (usw = false → mini'.toInt ≤ x.toInt ∧ x.toInt ≤ maxi'.toInt) →
          Dealt env prog regs lab zs x
            (.inside (chain regs lab newlab usw zs maxi' mini' taken')) := by
        intro c maxi' mini' taken' heq hc hlims'
        exact ih hsets' hrest (pre ++ c) _ _ _ (heq.trans (List.append_assoc _ _ _).symm)
          (not_label_append hpre hc) hlims'
      rw [chain] at hprog ⊢
      cases hchild : z.child with
      | none =>
          rw [hchild] at hprog
          dsimp only at hprog ⊢
          refine .test (fun h => ?_) fun h => ?_
          · rw [bne_cmpeq, decide_eq_true_eq] at h
            rw [hlab]
            exact .hit ((Range.has_of_child_none hchild).2 h) hz
          · rw [bne_cmpeq, decide_eq_false_iff_not] at h
            refine .miss (fun hhas => h ((Range.has_of_child_none hchild).1 hhas)) ?_
            have hne : x.toInt ≠ z.lower.toInt := fun heq => h (BitVec.toInt_inj.1 heq)
            by_cases hmaxi : z.lower = maxi
            · rw [if_pos hmaxi] at hprog ⊢
              refine hnext [_, _] _ _ _ hprog (by simp [label]) fun husw => ?_
              obtain ⟨hlo, hhi⟩ := hlims husw
              exact ⟨hlo, toInt_sub_one (by rw [← hmaxi] at hhi ⊢; omega)⟩
            · rw [if_neg hmaxi] at hprog ⊢
              by_cases hmini : z.lower = mini
              · rw [if_pos hmini] at hprog ⊢
                refine hnext [_, _] _ _ _ hprog (by simp [label]) fun husw => ?_
                obtain ⟨hlo, hhi⟩ := hlims husw
                exact ⟨toInt_add_one (by rw [← hmini] at hlo ⊢; omega), hhi⟩
              · rw [if_neg hmini] at hprog ⊢
                exact hnext [_, _] _ _ _ hprog (by simp [label]) hlims
      | some u =>
          rw [hchild] at hprog
          dsimp only at hprog ⊢
          have hhas := Range.has_of_child_some (x := x) hchild
          by_cases hmini : mini.toInt ≤ z.lower.toInt ∨ usw
          · rw [if_pos hmini] at hprog ⊢
            by_cases hmaxi : maxi.toInt ≤ u.toInt ∧ !usw
            · -- the upper bound needs no test
              rw [if_pos hmaxi] at hprog ⊢
              have husw : usw = false := by simpa using hmaxi.2
              obtain ⟨hlo, hhi⟩ := hlims husw
              refine .test (fun h => ?_) fun h => ?_
              · rw [beq_cmplt, decide_eq_true_eq] at h
                rw [hlab]
                exact .hit (hhas.2 ⟨h, by omega⟩) hz
              · rw [beq_cmplt, decide_eq_false_iff_not] at h
                refine .miss (fun hin => h (hhas.1 hin).1) ?_
                exact hnext [_, _] _ _ _ hprog (by simp [label]) fun _ =>
                  ⟨hlo, toInt_sub_one (Int.not_le.1 h)⟩
            · rw [if_neg hmaxi] at hprog ⊢
              have hover : (machine env).target prog newlab = .inside [] := by
                refine target_of_after ?_
                rw [hprog, after_append hpre]
                exact after_chain zs maxi (u + 1)
              refine .test (fun h => ?_) fun h => ?_
              · -- below this range there is no other left
                rw [cmplt_holds, decide_eq_true_eq] at h
                rw [hover]
                refine .none fun y hy => ?_
                obtain rfl | hy := List.mem_cons.1 hy
                · exact fun hin => Int.not_le.2 h (hhas.1 hin).1
                · exact (hz y hy).2 (hchild ▸ rfl) h
              · rw [cmplt_holds, decide_eq_false_iff_not, Int.not_lt] at h
                refine .test (fun h' => ?_) fun h' => ?_
                · rw [bne_cmple, decide_eq_true_eq] at h'
                  rw [hlab]
                  exact .hit (hhas.2 ⟨h, h'⟩) hz
                · rw [bne_cmple, decide_eq_false_iff_not] at h'
                  refine .miss (fun hin => h' (hhas.1 hin).2) ?_
                  exact hnext [_, _, _, _] _ _ _ hprog (by simp [label]) fun husw =>
                    ⟨toInt_add_one (Int.not_le.1 h'), (hlims husw).2⟩
          · -- the lower bound needs no test
            rw [if_neg hmini] at hprog ⊢
            have husw : usw = false := by
              cases usw with
              | false => rfl
              | true => exact absurd (.inr rfl) hmini
            obtain ⟨hlo, hhi⟩ := hlims husw
            have hlow : z.lower.toInt ≤ x.toInt := by
              have := fun h => hmini (.inl h)
              omega
            by_cases hmaxi : u.toInt < maxi.toInt
            · rw [if_pos hmaxi] at hprog ⊢
              refine .test (fun h => ?_) fun h => ?_
              · rw [bne_cmple, decide_eq_true_eq] at h
                rw [hlab]
                exact .hit (hhas.2 ⟨hlow, h⟩) hz
              · rw [bne_cmple, decide_eq_false_iff_not] at h
                refine .miss (fun hin => h (hhas.1 hin).2) ?_
                exact hnext [_, _] _ _ _ hprog (by simp [label]) fun _ =>
                  ⟨toInt_add_one (Int.not_le.1 h), hhi⟩
            · rw [if_neg hmaxi] at hprog ⊢
              intro s hs
              have hdealt : Dealt env prog regs lab (z :: zs) x (.outside (lab z)) :=
                .hit (hhas.2 ⟨hlow, by omega⟩) hz
              obtain ⟨hin, hout⟩ := hdealt s hs
              have hbr : (machine env).exec (.integerBranch .br 31 (lab z)) s =
                  some (s, .jump (lab z)) := rfl
              have hreach : (machine env).Reaches prog (.inside (.integerBranch .br 31 (lab z) ::
                  chain regs lab newlab usw zs maxi mini taken), s) (.outside (lab z), s) := by
                rw [← hlab]
                exact reaches_step hbr _
              refine ⟨fun y hy hy' => ?_, fun hnone => ?_⟩
              · obtain ⟨t, ht⟩ := hin y hy hy'
                exact ⟨t, hreach.trans ht⟩
              · obtain ⟨t, ht⟩ := hout hnone
                exact ⟨t, hreach.trans ht⟩

/-- Where a range with two bounds lies above the value, and none before it contains it, the chain
of an unsigned case is left. -/
theorem chain_leaves {rest : List Range} (hchild : z.child = some u)
    (hlow : x.toInt < z.lower.toInt) {bs : List Range} (hbs : ∀ y ∈ bs, ¬ y.Has x) :
    ∀ pre maxi mini taken,
      prog = pre ++ chain regs lab newlab true (bs ++ z :: rest) maxi mini taken →
      (∀ i ∈ pre, (machine env).label i ≠ some newlab) →
      Dealt env prog regs lab [] x
        (.inside (chain regs lab newlab true (bs ++ z :: rest) maxi mini taken)) := by
  have hpair : ∀ (y : Range) (v : BitVec 64), y.child = some v → ∀ zs pre maxi mini taken,
      prog = pre ++ chain regs lab newlab true (y :: zs) maxi mini taken →
      (∀ i ∈ pre, (machine env).label i ≠ some newlab) →
      (y.lower.toInt ≤ x.toInt → Dealt env prog regs lab [] x (.inside
        (.operateFmtImmediate .cmple regs.r v regs.rtmp ::
          .integerBranch .bne regs.rtmp (lab y) ::
          chain regs lab newlab true zs maxi (v + 1) true))) →
      Dealt env prog regs lab [] x
        (.inside (chain regs lab newlab true (y :: zs) maxi mini taken)) := by
    intro y v hv zs pre maxi mini taken hprog hpre hrest
    rw [chain_pair regs lab newlab hv] at hprog ⊢
    have hover : (machine env).target prog newlab = .inside [] := by
      refine target_of_after ?_
      rw [hprog, after_append hpre]
      exact after_chain zs maxi (v + 1)
    refine .test (fun _ => ?_) fun h => ?_
    · rw [hover]
      exact .none fun _ h => absurd h List.not_mem_nil
    · rw [cmplt_holds, decide_eq_false_iff_not, Int.not_lt] at h
      exact hrest h
  induction bs with
  | nil =>
      intro pre maxi mini taken hprog hpre
      exact hpair z u hchild rest pre maxi mini taken hprog hpre fun h =>
        absurd hlow (Int.not_lt.2 h)
  | cons y bs ih =>
      intro pre maxi mini taken hprog hpre
      have hy := hbs y List.mem_cons_self
      have ih := ih fun y' hy' => hbs y' (List.mem_cons_of_mem y hy')
      cases hv : y.child with
      | none =>
          rw [List.cons_append, chain, hv] at hprog ⊢
          dsimp only at hprog ⊢
          refine .test (fun h => ?_) fun h => ?_
          · rw [bne_cmpeq, decide_eq_true_eq] at h
            exact absurd ((Range.has_of_child_none hv).2 h) hy
          · split at hprog
            · next heq =>
                rw [if_pos heq]
                exact ih (pre ++ [_, _]) _ _ _ (hprog.trans (List.append_assoc pre [_, _] _).symm)
                  (not_label_append hpre (c := [_, _]) (by simp [label]))
            · next hne =>
                rw [if_neg hne]
                split at hprog
                · next heq =>
                    rw [if_pos heq]
                    exact ih (pre ++ [_, _]) _ _ _
                      (hprog.trans (List.append_assoc pre [_, _] _).symm)
                      (not_label_append hpre (c := [_, _]) (by simp [label]))
                · next hne' =>
                    rw [if_neg hne']
                    exact ih (pre ++ [_, _]) _ _ _
                      (hprog.trans (List.append_assoc pre [_, _] _).symm)
                      (not_label_append hpre (c := [_, _]) (by simp [label]))
      | some v =>
          refine hpair y v hv _ pre maxi mini taken hprog hpre fun hle => ?_
          refine .test (fun h => ?_) fun _ => ?_
          · rw [bne_cmple, decide_eq_true_eq] at h
            exact absurd ((Range.has_of_child_some hv).2 ⟨hle, h⟩) hy
          · rw [List.cons_append, chain_pair regs lab newlab hv, ← List.append_assoc] at hprog
            exact ih _ _ _ _ hprog (not_label_append hpre (by simp [label]))

end

end Tendra.Ref.Trans.Alpha
