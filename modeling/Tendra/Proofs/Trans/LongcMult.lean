import Tendra.Proofs.Trans.Division
import Tendra.Ref.Trans.LongcMult

/-!
# Multiplication by constants on x86 is exact

A constant of the table, or a power of two, takes a call or two, as 7 comes back with
its operand in a register, and then for 8. Any other constant takes one call for each of
its two factors, and these are of that kind. So the depth of calls is four at most.
-/

namespace Tendra.Ref.Trans.LongcMult

open Machine

variable {m : BitVec 32} {sc : Nat}

variable {scratch : State → BitVec 32} {a1 rmain rind dest : Where} {n : BitVec 32} {s : State}

theorem val_put (scratch : State → BitVec 32) (s : State) (dest : Where) (v : BitVec 32)
    (r : Where) : (s.put scratch dest v).val r =
      if r = dest then v else if dest.inmem ∧ r = reg0 then scratch s else s.val r := by
  unfold State.put
  dsimp only
  rw [Function.update_apply]
  split
  · rfl
  · by_cases h : dest.inmem
    · simp [h, Function.update_apply]
    · simp [h]

@[simp] theorem val_put_self (v : BitVec 32) : (s.put scratch dest v).val dest = v := by
  rw [val_put, if_pos rfl]

/-- A write of a register leaves the other places alone. -/
theorem val_put_of_reg (hdest : ¬dest.inmem) {r : Where} (h : r ≠ dest) (v : BitVec 32) :
    (s.put scratch dest v).val r = s.val r := by
  rw [val_put, if_neg h, if_neg (fun h => hdest h.1)]

theorem reg0_reg : ¬reg0.inmem := Bool.false_ne_true

theorem reg1_reg : ¬reg1.inmem := Bool.false_ne_true

variable (scratch)

theorem exec_leal (hmain : ¬rmain.inmem) (hind : ¬rind.inmem) (hdest : ¬dest.inmem)
    (hsc : sc ∈ [1, 2, 4, 8]) : (machine scratch).exec (.leal rmain rind sc dest) s =
      some (s.put scratch dest (s.val rmain + .ofNat 32 sc * s.val rind), .step) := by
  refine if_neg ?_
  simp only [not_or]
  exact ⟨hmain, hind, hdest, not_not.2 hsc⟩

/-- The index instruction adds a multiple. -/
theorem multOp_does (hsc : sc ∈ [1, 2, 4, 8]) (hmain : ¬rmain.inmem) (hind : ¬rind.inmem)
    (dest : Where) (s : State) :
    ∃ t, (machine scratch).Does (multOp rmain rind sc dest) s t ∧
      t.val dest = s.val rmain + .ofNat 32 sc * s.val rind ∧ t.stack = s.stack ∧
      (¬dest.inmem → ∀ r, r ≠ dest → t.val r = s.val r) := by
  rw [multOp]
  by_cases h : dest.inmem
  · have hleal := exec_leal scratch (s := s) hmain hind
      reg0_reg hsc
    rw [if_pos h]
    refine ⟨_, (does_cons hleal).2 (does_one rfl), ?_, rfl, fun hdest => absurd h hdest⟩
    rw [val_put_self, val_put_self]
  · rw [if_neg h]
    exact ⟨_, does_one (exec_leal scratch hmain hind h hsc), val_put_self _, rfl,
      fun _ r hr => val_put_of_reg h hr _⟩

theorem once_does (hsc : sc ∈ [1, 2, 4, 8]) (a1 dest : Where) (s : State) :
    ∃ t, (machine scratch).Does (once a1 sc dest) s t ∧
      t.val dest = s.val a1 + .ofNat 32 sc * s.val a1 := by
  rw [once]
  by_cases h : a1.inmem
  · obtain ⟨t, hdoes, hval, -⟩ := multOp_does scratch hsc reg0_reg reg0_reg dest
      (s.put scratch reg0 (s.val a1))
    rw [if_pos h]
    refine ⟨t, (does_cons rfl).2 hdoes, ?_⟩
    rw [hval, val_put_self]
  · obtain ⟨t, hdoes, hval, -⟩ := multOp_does scratch hsc h h dest s
    rw [if_neg h]
    exact ⟨t, hdoes, hval⟩

theorem twice_does (hsc : sc ∈ [1, 2, 4, 8]) (a1 dest : Where) (s : State) :
    ∃ t, (machine scratch).Does (twice a1 sc dest) s t ∧
      t.val dest = (s.val a1 + .ofNat 32 sc * s.val a1) * 5 := by
  obtain ⟨t, hdoes, hval⟩ := once_does scratch hsc a1 reg0 s
  obtain ⟨u, hdoes', hval', -⟩ := multOp_does scratch (show 4 ∈ [1, 2, 4, 8] by simp) reg0_reg
    reg0_reg dest t
  refine ⟨u, hdoes.append hdoes', ?_⟩
  rw [hval', hval, show BitVec.ofNat 32 4 = (4 : BitVec 32) from rfl]
  ring

theorem maskLoop_twoPow {j : Nat} (hj : j < 32) : ∀ (k i : Nat), i ≤ j → j < i + k →
    maskLoop (BitVec.twoPow 32 j) k (BitVec.twoPow 32 i) i = some j := by
  intro k
  induction k with
  | zero =>
      intro i hi hk
      omega
  | succ k ih =>
      intro i hi hk
      have hand : BitVec.twoPow 32 i &&& BitVec.twoPow 32 j = 0 ↔ i ≠ j := by
        rw [BitVec.twoPow_and, BitVec.getLsbD_twoPow]
        by_cases h : i = j
        · rw [if_pos (by simp [h, hj])]
          simp only [h, ne_eq, not_true_eq_false, iff_false]
          intro h0
          have := congrArg BitVec.toNat h0
          rw [BitVec.toNat_twoPow_of_lt hj] at this
          exact absurd this (Nat.two_pow_pos j).ne'
        · rw [if_neg (by simp [Ne.symm h])]
          exact ⟨fun _ => h, fun _ => rfl⟩
      rw [maskLoop]
      by_cases h : i = j
      · rw [if_neg (fun h0 => hand.1 h0 h), h]
      · have htwice : BitVec.twoPow 32 i + BitVec.twoPow 32 i = BitVec.twoPow 32 (i + 1) := by
          rw [← twoPow_shl, BitVec.shiftLeft_eq_mul_twoPow, BitVec.twoPow_eq 32 1]
          exact BitVec.mul_two.symm
        rw [if_pos (hand.2 h), htwice]
        exact ih (i + 1) (by omega) (by omega)

/-- The loop for a power of two finds its places, and a shift by them multiplies. -/
theorem shift_of_isPow2 (h0 : n ≠ 0) (hpow : isPow2 n = true) :
    ∃ c, maskLoop n 32 1 0 = some c ∧ ∀ x : BitVec 32, x <<< c = x * n := by
  obtain ⟨j, hj, rfl⟩ := eq_twoPow h0 hpow
  have := maskLoop_twoPow hj 32 0 (Nat.zero_le j) (by omega)
  refine ⟨j, this, fun x => ?_⟩
  rw [BitVec.shiftLeft_eq_mul_twoPow]

/-- The sequence is there, and multiplies. -/
def Multiplies (scratch : State → BitVec 32) (fuel : Nat) (a1 : Where) (n : BitVec 32)
    (dest : Where) : Prop :=
  ∃ code, longcMult fuel a1 n dest = some code ∧
    ∀ s, ∃ t, (machine scratch).Does code s t ∧ t.val dest = s.val a1 * n

/-- The numbers that have a case of their own. -/
def special : List Nat := [0, 1, 2, 3, 5, 7, 9, 15, 25]

theorem longcMult_default (hn : n.toNat ∉ special) (fuel : Nat) (a1 dest : Where) :
    longcMult (fuel + 1) a1 n dest =
      if isPow2 n then (maskLoop n 32 1 0).map fun c => [.shiftl c a1 dest]
      else if isPow2 (-n) then
        (maskLoop (-n) 32 1 0).map fun c => [.shiftl c a1 dest, .negate dest dest]
      else
        match factors n with
        | some (m, x) =>
            let w := if dest.inmem then reg0 else dest
            (longcMult fuel a1 m w).bind fun c1 => (longcMult fuel w x dest).map (c1 ++ ·)
        | none => some [.multiply a1 n dest] := by
  rw [longcMult]
  split
  all_goals first
    | next h => exact absurd (by rw [h]; decide) hn
    | rfl

theorem eq_ofNat {k : Nat} (h : n.toNat = k) : n = BitVec.ofNat 32 k := by
  rw [← h, BitVec.ofNat_toNat, BitVec.setWidth_eq]

theorem multiplies_two (fuel : Nat) (a1 dest : Where) :
    Multiplies scratch (fuel + 1) a1 2 dest := by
  have hcode : longcMult (fuel + 1) a1 2 dest =
      if a1.inmem then
        some [.move a1 (if dest.inmem then reg0 else dest),
          .add (if dest.inmem then reg0 else dest) (if dest.inmem then reg0 else dest) dest]
      else some [.add a1 a1 dest] := rfl
  by_cases h : a1.inmem
  · rw [if_pos h] at hcode
    refine ⟨_, hcode, fun s => ⟨_, (does_cons rfl).2 (does_one rfl), ?_⟩⟩
    rw [val_put_self, val_put_self]
    ring
  · rw [if_neg h] at hcode
    refine ⟨_, hcode, fun s => ⟨_, does_one rfl, ?_⟩⟩
    rw [val_put_self]
    ring

/-- The cases of one or two index instructions, and the smaller ones. -/
theorem multiplies_simple (hn : n.toNat ∈ [0, 1, 2, 3, 5, 9, 15, 25]) (fuel : Nat)
    (a1 dest : Where) : Multiplies scratch (fuel + 1) a1 n dest := by
  have honce : ∀ sc ∈ [1, 2, 4, 8], ∀ s, ∃ t, (machine scratch).Does (once a1 sc dest) s t ∧
      t.val dest = s.val a1 * (1 + .ofNat 32 sc) := by
    intro sc hsc s
    obtain ⟨t, ht, hval⟩ := once_does scratch hsc a1 dest s
    exact ⟨t, ht, hval.trans (by ring)⟩
  have htwice : ∀ sc ∈ [1, 2, 4, 8], ∀ s, ∃ t, (machine scratch).Does (twice a1 sc dest) s t ∧
      t.val dest = s.val a1 * ((1 + .ofNat 32 sc) * 5) := by
    intro sc hsc s
    obtain ⟨t, ht, hval⟩ := twice_does scratch hsc a1 dest s
    exact ⟨t, ht, hval.trans (by ring)⟩
  simp only [List.mem_cons, List.not_mem_nil, or_false] at hn
  obtain h | h | h | h | h | h | h | h := hn
  all_goals obtain rfl := eq_ofNat h
  · exact ⟨_, rfl, fun s => ⟨_, does_one rfl, (val_put_self _).trans (mul_zero _).symm⟩⟩
  · exact ⟨_, rfl, fun s => ⟨_, does_one rfl, (val_put_self _).trans (mul_one _).symm⟩⟩
  · exact multiplies_two scratch fuel a1 dest
  · exact ⟨_, rfl, honce 2 (by simp)⟩
  · exact ⟨_, rfl, honce 4 (by simp)⟩
  · exact ⟨_, rfl, honce 8 (by simp)⟩
  · exact ⟨_, rfl, htwice 2 (by simp)⟩
  · exact ⟨_, rfl, htwice 4 (by simp)⟩

theorem multiplies_pow2 (h0 : n ≠ 0) (hpow : isPow2 n = true) (fuel : Nat) (a1 dest : Where) :
    Multiplies scratch (fuel + 1) a1 n dest := by
  by_cases hn : n.toNat ∈ special
  · refine multiplies_simple scratch ?_ fuel a1 dest
    have h7 : n.toNat ≠ 7 := by
      intro h
      rw [BitVec.eq_of_toNat_eq (show n.toNat = (7 : BitVec 32).toNat from h)] at hpow
      cases hpow
    simp only [special, List.mem_cons, List.not_mem_nil, or_false] at hn ⊢
    tauto
  · have hcode := longcMult_default hn fuel a1 dest
    obtain ⟨c, hc, hshift⟩ := shift_of_isPow2 h0 hpow
    rw [if_pos hpow, hc] at hcode
    refine ⟨_, hcode, fun s => ⟨_, does_one rfl, ?_⟩⟩
    rw [val_put_self, hshift]

theorem toNat_mem_mtab (hm : m ∈ mtab) : m.toNat ∈ special := by
  simp only [mtab, List.mem_cons, List.not_mem_nil, or_false] at hm
  obtain rfl | rfl | rfl | rfl | rfl | rfl := hm <;> decide

theorem longcMult_seven (fuel : Nat) (a1 dest : Where) : longcMult (fuel + 1) a1 7 dest =
    if ¬a1.inmem ∧ ¬dest.inmem ∧ a1 ≠ dest then
      (longcMult fuel a1 8 dest).map (· ++ [.sub a1 dest dest])
    else if ¬a1.inmem ∧ ¬dest.inmem then
      if a1 ≠ reg0 then some (multOp a1 a1 2 reg0 ++ multOp reg0 a1 4 dest)
      else some (.pushedx :: multOp a1 a1 2 reg1 ++ multOp reg1 reg0 4 dest ++ [.popedx])
    else if a1.inmem ∧ ¬dest.inmem then
      (longcMult fuel reg0 7 dest).map (.move a1 reg0 :: ·)
    else some [.multiply a1 7 dest] := rfl

/-- Seven times a register, with a temporary that depends on where the operand and the result
are. -/
theorem multiplies_seven_reg (h1 : ¬a1.inmem) (hdest : ¬dest.inmem) (fuel : Nat) :
    Multiplies scratch (fuel + 2) a1 7 dest := by
  have hcode := longcMult_seven (fuel + 1) a1 dest
  by_cases hne : a1 ≠ dest
  · rw [if_pos ⟨h1, hdest, hne⟩,
      show longcMult (fuel + 1) a1 8 dest = some [.shiftl 3 a1 dest] from rfl] at hcode
    refine ⟨_, hcode, fun s => ⟨_, (does_cons rfl).2 (does_one rfl), ?_⟩⟩
    rw [val_put_self, val_put_self, val_put_of_reg hdest hne, BitVec.shiftLeft_eq_mul_twoPow,
      show BitVec.twoPow 32 3 = 8 from rfl]
    ring
  · obtain rfl := not_not.1 hne
    rw [if_neg (fun h => h.2.2 rfl), if_pos ⟨h1, h1⟩] at hcode
    by_cases h0 : a1 ≠ reg0
    · rw [if_pos h0] at hcode
      refine ⟨_, hcode, fun s => ?_⟩
      obtain ⟨t, ht, hval, -, hkeep⟩ := multOp_does scratch
        (show 2 ∈ [1, 2, 4, 8] by simp) h1 h1 reg0 s
      obtain ⟨u, hu, hval', -⟩ := multOp_does scratch (show 4 ∈ [1, 2, 4, 8] by simp)
        reg0_reg h1 a1 t
      refine ⟨u, ht.append hu, ?_⟩
      rw [hval', hval, hkeep reg0_reg a1 h0, show BitVec.ofNat 32 2 = (2 : BitVec 32) from rfl,
        show BitVec.ofNat 32 4 = (4 : BitVec 32) from rfl]
      ring
    · obtain rfl := not_not.1 h0
      rw [if_neg h0] at hcode
      refine ⟨_, hcode, fun s => ?_⟩
      obtain ⟨t, ht, hval, hstack, hkeep⟩ := multOp_does scratch
        (show 2 ∈ [1, 2, 4, 8] by simp) reg0_reg reg0_reg reg1
        { s with stack := s.val reg1 :: s.stack }
      obtain ⟨u, hu, hval', hstack', -⟩ := multOp_does scratch
        (show 4 ∈ [1, 2, 4, 8] by simp) reg1_reg reg0_reg reg0 t
      have hpop : (machine scratch).exec .popedx u =
          some (⟨Function.update u.val reg1 (s.val reg1), s.stack⟩, .step) := by
        have : u.stack = s.val reg1 :: s.stack := hstack'.trans hstack
        change exec scratch .popedx u = _
        rw [exec, this]
      refine ⟨_, (does_cons rfl).2 ((ht.append hu).append (does_one hpop)), ?_⟩
      change Function.update u.val reg1 (s.val reg1) reg0 = _
      rw [Function.update_of_ne (by decide), hval', hval, hkeep reg1_reg reg0 (by decide),
        show BitVec.ofNat 32 2 = (2 : BitVec 32) from rfl,
        show BitVec.ofNat 32 4 = (4 : BitVec 32) from rfl]
      ring

theorem multiplies_seven (fuel : Nat) (a1 dest : Where) :
    Multiplies scratch (fuel + 3) a1 7 dest := by
  have hcode := longcMult_seven (fuel + 2) a1 dest
  by_cases hdest : dest.inmem
  · rw [if_neg (fun h => h.2.1 hdest), if_neg (fun h => h.2 hdest),
      if_neg (fun h => h.2 hdest)] at hcode
    exact ⟨_, hcode, fun s => ⟨_, does_one rfl, val_put_self _⟩⟩
  · by_cases h1 : a1.inmem
    · obtain ⟨code, hreg, hdoes⟩ := multiplies_seven_reg scratch reg0_reg hdest fuel
      rw [if_neg (fun h => h.1 h1), if_neg (fun h => h.1 h1), if_pos ⟨h1, hdest⟩, hreg] at hcode
      refine ⟨_, hcode, fun s => ?_⟩
      obtain ⟨t, ht, hval⟩ := hdoes (s.put scratch reg0 (s.val a1))
      refine ⟨t, (does_cons rfl).2 ht, ?_⟩
      rw [hval, val_put_self]
    · exact multiplies_seven_reg scratch h1 hdest (fuel + 1)

/-- The numbers with a case of their own. -/
theorem multiplies_special (hn : n.toNat ∈ special) (fuel : Nat) (a1 dest : Where) :
    Multiplies scratch (fuel + 3) a1 n dest := by
  by_cases h7 : n.toNat = 7
  · obtain rfl : n = 7 := BitVec.eq_of_toNat_eq h7
    exact multiplies_seven scratch fuel a1 dest
  · refine multiplies_simple scratch ?_ (fuel + 2) a1 dest
    simp only [special, List.mem_cons, List.not_mem_nil, or_false] at hn ⊢
    tauto

theorem mtab_ne (hm : m ∈ mtab) : m ≠ -1 := by
  simp only [mtab, List.mem_cons, List.not_mem_nil, or_false] at hm
  obtain rfl | rfl | rfl | rfl | rfl | rfl := hm <;> decide

/-- A division without remainder. -/
theorem eq_mul_sdiv (hm : m ≠ -1) (h : n.srem m = 0) : n = m * n.sdiv m := by
  have hrem := congrArg BitVec.toInt h
  rw [BitVec.toInt_srem] at hrem
  have hdiv := BitVec.toInt_sdiv_of_ne_or_ne n m (.inr hm)
  have hmul : n.toInt = m.toInt * (n.sdiv m).toInt := by
    have := Int.tmod_add_mul_tdiv n.toInt m.toInt
    rw [hdiv]
    have hzero : (0 : BitVec 32).toInt = 0 := rfl
    omega
  calc n = BitVec.ofInt 32 n.toInt := Word.eq_ofInt n
    _ = BitVec.ofInt 32 m.toInt * BitVec.ofInt 32 (n.sdiv m).toInt := by
      rw [hmul, BitVec.ofInt_mul]
    _ = m * n.sdiv m := by rw [BitVec.ofInt_toInt, BitVec.ofInt_toInt]

/-- Two factors that are found make up the number. -/
theorem factors_spec {x : BitVec 32} (h : factors n = some (m, x)) :
    n = m * x ∧ m ∈ mtab ∧ (isPow2 x = true ∨ x ∈ mtab) := by
  rw [factors, List.findSome?_eq_some_iff] at h
  obtain ⟨l1, m', l2, hsplit, h, -⟩ := h
  have hm' : m' ∈ mtab := hsplit ▸ List.mem_append_right l1 List.mem_cons_self
  split at h
  · next hrem =>
      dsimp only at h
      split at h
      · next hx =>
          obtain ⟨rfl, rfl⟩ := Prod.mk.inj (Option.some.inj h)
          exact ⟨eq_mul_sdiv (mtab_ne hm') hrem, hm', hx⟩
      · cases h
  · cases h

theorem multiplies (n : BitVec 32) (fuel : Nat) (a1 dest : Where) :
    Multiplies scratch (fuel + 4) a1 n dest := by
  by_cases hn : n.toNat ∈ special
  · exact multiplies_special scratch hn (fuel + 1) a1 dest
  have h0 : n ≠ 0 := fun h => hn (by rw [h]; decide)
  have hcode := longcMult_default hn (fuel + 3) a1 dest
  by_cases hpow : isPow2 n = true
  · exact multiplies_pow2 scratch h0 hpow (fuel + 3) a1 dest
  rw [if_neg hpow] at hcode
  by_cases hneg : isPow2 (-n) = true
  · rw [if_pos hneg] at hcode
    obtain ⟨c, hc, hshift⟩ := shift_of_isPow2 (by simpa using h0) hneg
    rw [hc] at hcode
    refine ⟨_, hcode, fun s => ⟨_, (does_cons rfl).2 (does_one rfl), ?_⟩⟩
    rw [val_put_self, val_put_self, hshift]
    ring
  rw [if_neg hneg] at hcode
  cases hfactors : factors n with
  | none =>
      rw [hfactors] at hcode
      exact ⟨_, hcode, fun s => ⟨_, does_one rfl, val_put_self _⟩⟩
  | some r =>
      obtain ⟨m, x⟩ := r
      obtain ⟨hmul, hm, hx⟩ := factors_spec hfactors
      rw [hfactors] at hcode
      obtain ⟨c1, hc1, hdoes1⟩ := multiplies_special scratch (toNat_mem_mtab hm) fuel a1
        (if dest.inmem then reg0 else dest)
      obtain ⟨c2, hc2, hdoes2⟩ : Multiplies scratch (fuel + 3) (if dest.inmem then reg0 else dest)
          x dest := by
        obtain hx | hx := hx
        · exact multiplies_pow2 scratch (fun h => h0 (by rw [hmul, h, mul_zero])) hx _ _ _
        · exact multiplies_special scratch (toNat_mem_mtab hx) _ _ _
      dsimp only at hcode
      rw [hc1, Option.bind_some, hc2] at hcode
      refine ⟨_, hcode, fun s => ?_⟩
      obtain ⟨t, ht, hval⟩ := hdoes1 s
      obtain ⟨u, hu, hval'⟩ := hdoes2 t
      refine ⟨u, ht.append hu, ?_⟩
      rw [hval', hval, hmul, BitVec.mul_assoc]

/-- To a greater depth nothing changes. -/
theorem longcMult_mono {fuel : Nat} : ∀ {a1 : Where} {n : BitVec 32} {dest : Where} {code},
    longcMult fuel a1 n dest = some code → longcMult (fuel + 1) a1 n dest = some code := by
  induction fuel with
  | zero => exact fun h => absurd h (Option.some_ne_none _).symm
  | succ fuel ih =>
      intro a1 n dest code h
      by_cases h7 : n.toNat = 7
      · obtain rfl : n = 7 := BitVec.eq_of_toNat_eq h7
        rw [longcMult_seven] at h ⊢
        split at h
        · next hne =>
            obtain ⟨c, hc, rfl⟩ := Option.map_eq_some_iff.1 h
            rw [if_pos hne, ih hc]
            rfl
        · next hne =>
            rw [if_neg hne]
            split at h
            · next hregs => rwa [if_pos hregs]
            · next hregs =>
                rw [if_neg hregs]
                split at h
                · next hmem =>
                    obtain ⟨c, hc, rfl⟩ := Option.map_eq_some_iff.1 h
                    rw [if_pos hmem, ih hc]
                    rfl
                · next hmem => rwa [if_neg hmem]
      by_cases hn : n.toNat ∈ special
      · simp only [special, List.mem_cons, List.not_mem_nil, or_false] at hn
        obtain hk | hk | hk | hk | hk | hk | hk | hk | hk := hn
        all_goals first
          | exact absurd hk h7
          | obtain rfl := eq_ofNat hk
            exact h
      · rw [longcMult_default hn] at h ⊢
        split at h
        · next hpow => rwa [if_pos hpow]
        · next hpow =>
            rw [if_neg hpow]
            split at h
            · next hneg => rwa [if_pos hneg]
            · next hneg =>
                rw [if_neg hneg]
                cases hfactors : factors n with
                | none => rwa [hfactors] at h
                | some r =>
                    rw [hfactors] at h
                    obtain ⟨c1, hc1, h⟩ := Option.bind_eq_some_iff.1 h
                    obtain ⟨c2, hc2, rfl⟩ := Option.map_eq_some_iff.1 h
                    dsimp only
                    rw [ih hc1, Option.bind_some, ih hc2]
                    rfl

/-- The recursion ends, at a depth of four calls at most, and the sequence leaves the operand times
the constant. -/
theorem longcMult_exact (scratch : State → BitVec 32) (a1 : Where) (n : BitVec 32)
    (dest : Where) : ∃ code, (∀ depth ≥ 4, longcMult depth a1 n dest = some code) ∧
      ∀ s, ∃ t, (machine scratch).Does code s t ∧ t.val dest = s.val a1 * n := by
  obtain ⟨code, hcode, hdoes⟩ := multiplies scratch n 0 a1 dest
  refine ⟨code, fun depth hdepth => ?_, hdoes⟩
  induction depth, hdepth using Nat.le_induction with
  | base => exact hcode
  | succ depth _ ih => exact longcMult_mono ih

end Tendra.Ref.Trans.LongcMult
