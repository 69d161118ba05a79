import Tendra.Lib.CastOut
import Tendra.Proofs.Trans.M68kLong

/-!
# Remainders by casting out on m68k

A round of the loop adds the low digit to the others, unless the shift takes the register
of the low digit for its count, which is then added in place of it. Either way the number
goes down until it is one digit. What is wrong at the end is what was lost by that, and
the sign of an operand that the loop overwrote.
-/

namespace Tendra.Ref.Trans.M68k.Long

open Machine CastOut

variable {x : BitVec 32}

/-- The instruction goes on to the next one, and is no label. -/
def straight : Ins → Bool
  | .branch _ _ | .bra _ | .makeLabel _ => false
  | _ => true

theorem straight_step {i : Ins} (h : straight i = true) {s t : State} {n : Next Nat}
    (hexec : machine.exec i s = some (t, n)) : n = .step := by
  cases i with
  | branch | bra | makeLabel => cases h
  | lea r sf | shift op m w =>
      obtain ⟨_, heq⟩ := Option.ite_none_right_eq_some.1 hexec
      cases heq
      rfl
  | _ =>
      cases hexec
      rfl

theorem straight_label {i : Ins} (h : straight i = true) (l : Nat) : machine.label i ≠ some l := by
  cases i with
  | branch | bra | makeLabel => cases h
  | _ => exact fun h => by cases h

section

variable {c : List Ins}

theorem plain_of_straight (h : ∀ i ∈ c, straight i = true) : machine.Plain c :=
  fun i hi _ _ _ hexec => straight_step (h i hi) hexec

theorem after_straight (h : ∀ i ∈ c, straight i = true) (l : Nat) (d : List Ins) :
    machine.after l (c ++ d) = machine.after l d :=
  after_append (fun i hi => straight_label (h i hi) l) d

theorem straight_shiftLoop (op : Shift) (w : Where) (n : Nat) :
    ∀ i ∈ shiftLoop op w n, straight i = true := by
  induction n using Nat.strong_induction_on with
  | _ n ih =>
      rw [shiftLoop]
      split
      · exact fun _ hi => absurd hi List.not_mem_nil
      · intro i hi
        obtain rfl | hi := List.mem_cons.1 hi
        · rfl
        · exact ih _ (by split <;> omega) i hi

theorem straight_shiftAux (op : Shift) (d1IsSpecial dontUseD1 : Bool) (n : Nat) (src dest : Where) :
    ∀ i ∈ shiftAux op d1IsSpecial dontUseD1 n src dest, straight i = true := by
  simp only [shiftAux]
  split
  · simp [straight]
  · split
    · intro i hi
      simp only [List.cons_append, List.mem_cons, List.mem_append, List.not_mem_nil,
        or_false] at hi
      obtain rfl | hi | rfl := hi
      · rfl
      · exact straight_shiftLoop op _ _ i hi
      · rfl
    · split <;> simp [straight]

end

section

variable {s : State} {prog tail : List Ins} {r : Where} {k : Nat} {v : BitVec 32}
  {sgned d1IsSpecial : Bool} {loop end' : Nat}

theorem exec_branch {y : BitVec 32} (h : s.flags = some (x, y)) (test : Test) (lab : Nat) :
    machine.exec (.branch test lab) s =
      some (s, if test.holds x y then .jump lab else .step) := by
  change s.flags.map _ = _
  rw [h]
  rfl

/-- What the code adds in place of the low digit of `k` bits. -/
def lowDigit (d1IsSpecial : Bool) (k : Nat) : Nat → Nat :=
  if k ≤ 8 ∨ d1IsSpecial then (· % 2 ^ k) else fun _ => k

theorem lowDigit_lt (d1IsSpecial : Bool) (hk : 4 ≤ k) (y : Nat) (hy : 2 ^ k ≤ y) :
    y / 2 ^ k + lowDigit d1IsSpecial k y < y := by
  obtain ⟨j, rfl⟩ := Nat.exists_eq_add_of_le hk
  have hj : j < 2 ^ j := Nat.lt_two_pow_self
  have hpow : 2 ^ (4 + j) = 16 * 2 ^ j := Nat.pow_add 2 4 j
  rw [lowDigit]
  split
  · exact digit_lt (by omega) hy
  · exact (const_lt (by omega) hy : y / 2 ^ (4 + j) + (4 + j) < y)

/-- The part of a round after its test, and what follows the loop. -/
def fold (d1IsSpecial : Bool) (r : Where) (k loop end' : Nat) (tail : List Ins) : List Ins :=
  .and r (countReg r) (countReg r) ::
  (shiftAux .lsr d1IsSpecial false k r r ++
    .add (countReg r) r r :: .bra loop :: .makeLabel end' :: tail)

/-- A round of the loop, and what follows the loop. -/
def round (sgned d1IsSpecial : Bool) (r : Where) (k : Nat) (v : BitVec 32) (loop end' : Nat)
    (tail : List Ins) : List Ins :=
  .moveI v (countReg r) :: .cmp r (countReg r) :: .branch (.le sgned) end' ::
  fold d1IsSpecial r k loop end' tail

theorem countReg_ne (r : Where) : countReg r ≠ r := by
  rw [countReg]
  split
  · next h => rw [h]; decide
  · next h => exact Ne.symm h

theorem le_holds (hv : v.toNat < 2 ^ 31) (hx : sgned = true → x.toNat < 2 ^ 31) :
    (Test.le sgned).holds x v = true ↔ x.toNat ≤ v.toNat := by
  cases sgned with
  | true =>
      rw [Test.holds, decide_eq_true_eq, BitVec.toInt_eq_toNat_of_lt (by have := hx rfl; omega),
        BitVec.toInt_eq_toNat_of_lt (by omega), Int.ofNat_le]
  | false => rw [Test.holds, decide_eq_true_eq, BitVec.le_def]

/-- The comparison at the head of the loop. -/
theorem round_head (prog : List Ins) (r : Where) (v : BitVec 32) (s : State) (c : List Ins) :
    ∃ t, machine.Reaches prog (.inside (.moveI v (countReg r) :: .cmp r (countReg r) :: c), s)
      (.inside c, t) ∧
    t.val = Function.update s.val (countReg r) v ∧ t.flags = some (s.val r, v) := by
  have hdoes : machine.Does [.moveI v (countReg r), .cmp r (countReg r)] s _ :=
    (does_cons (by rfl)).2 (does_one (by rfl))
  refine ⟨_, hdoes.reaches (plain_of_straight (by simp [straight])), rfl, ?_⟩
  simp only [val_set, Function.update_self, Function.update_of_ne (countReg_ne r).symm]

variable (d1IsSpecial k loop) in
/-- A round that is the last. -/
theorem round_leaves (hend : machine.after end' prog = some tail)
    (hle : (Test.le sgned).holds (s.val r) v = true) :
    ∃ t, machine.Reaches prog (.inside (round sgned d1IsSpecial r k v loop end' tail), s)
      (.inside tail, t) ∧
    t.val = Function.update s.val (countReg r) v ∧ t.flags = some (s.val r, v) := by
  obtain ⟨t, ht, hval, hflags⟩ := round_head prog r v s
    (.branch (.le sgned) end' :: fold d1IsSpecial r k loop end' tail)
  have hbranch := exec_branch hflags (.le sgned) end'
  rw [if_pos hle] at hbranch
  exact ⟨t, ht.trans (reaches_jump hbranch hend _), hval, hflags⟩

/-- The round puts the low digit in the place of the last. -/
theorem round_toNat (x : BitVec 32) (hv : v.toNat = 2 ^ k - 1) (hk : 4 ≤ k) (hk32 : k < 32)
    (hx : 2 ^ k ≤ x.toNat) :
    ((if k ≤ 8 ∨ d1IsSpecial then x &&& v else .ofNat 32 k) + x >>> k).toNat =
      x.toNat / 2 ^ k + lowDigit d1IsSpecial k x.toNat := by
  have hlt := lowDigit_lt d1IsSpecial hk x.toNat hx
  rw [lowDigit] at hlt ⊢
  rw [BitVec.toNat_add, BitVec.toNat_ushiftRight, Nat.shiftRight_eq_div_pow]
  have hsize := x.isLt
  by_cases h : k ≤ 8 ∨ d1IsSpecial
  · rw [if_pos h] at hlt ⊢
    rw [if_pos h, BitVec.toNat_and, hv, Nat.and_two_pow_sub_one_eq_mod]
    generalize x.toNat / 2 ^ k = q, x.toNat % 2 ^ k = d at hlt ⊢
    omega
  · rw [if_neg h] at hlt ⊢
    rw [if_neg h, BitVec.toNat_ofNat]
    generalize x.toNat / 2 ^ k = q at hlt ⊢
    omega

/-- A round that goes on. -/
theorem round_reaches (hr : r.isDreg = true) (hv : v.toNat = 2 ^ k - 1) (hk : 4 ≤ k)
    (hk31 : k < 32) (hloop : machine.after loop prog =
      some (round sgned d1IsSpecial r k v loop end' tail))
    (hx : sgned = true → (s.val r).toNat < 2 ^ 31) (hlt : 2 ^ k ≤ (s.val r).toNat) :
    ∃ t, machine.Reaches prog
        (.inside (round sgned d1IsSpecial r k v loop end' tail), s)
        (.inside (round sgned d1IsSpecial r k v loop end' tail), t) ∧
      (t.val r).toNat =
        (s.val r).toNat / 2 ^ k + lowDigit d1IsSpecial k (s.val r).toNat ∧
      ∀ w, w ≠ r → w ≠ countReg r → t.val w = s.val w := by
  have hne := countReg_ne r
  obtain ⟨t, ht, hval, hflags⟩ := round_head prog r v s
    (.branch (.le sgned) end' :: fold d1IsSpecial r k loop end' tail)
  have hpow : 2 ^ k ≤ 2 ^ 31 := Nat.pow_le_pow_right (by omega) (by omega)
  have hle : (Test.le sgned).holds (s.val r) v ≠ true := fun h => by
    have hpos := Nat.two_pow_pos k
    have := (le_holds (by omega) hx).1 h
    omega
  have hbranch := exec_branch hflags (.le sgned) end'
  rw [if_neg hle] at hbranch
  obtain ⟨u, hu, huval⟩ := shiftAux_does .lsr d1IsSpecial false hr hk31
    (t.set (countReg r) (s.val r &&& v))
  have hand : machine.exec (.and r (countReg r) (countReg r)) t =
      some (t.set (countReg r) (s.val r &&& v), .step) := by
    change some (t.set _ (t.val r &&& t.val (countReg r)), _) = _
    rw [hval, Function.update_self, Function.update_of_ne hne.symm]
  have hdigit : u.val r = s.val r >>> k ∧ u.val (countReg r) =
      (if k ≤ 8 ∨ d1IsSpecial then s.val r &&& v else .ofNat 32 k) ∧
      ∀ w, w ≠ r → w ≠ countReg r → u.val w = s.val w := by
    have hr' : t.val r = s.val r := by rw [hval, Function.update_of_ne hne.symm]
    rw [huval, val_set, Function.update_self, Function.update_of_ne hne.symm, hr',
      Function.update_of_ne hne]
    refine ⟨rfl, ?_, fun w hw hw' => ?_⟩
    · by_cases h : k ≤ 8 ∨ d1IsSpecial = true
      · rw [if_pos h, if_pos (h.imp_right .inl), Function.update_self]
      · rw [if_neg h, if_neg (by simpa using h), Function.update_self]
    · rw [Function.update_of_ne hw]
      split
      · rw [Function.update_of_ne hw', hval, Function.update_of_ne hw']
      · rw [Function.update_of_ne hw', Function.update_of_ne hw', hval, Function.update_of_ne hw']
  have hsum : machine.exec (.add (countReg r) r r) u =
      some (u.set r (u.val (countReg r) + u.val r), .step) := rfl
  have hjump : machine.exec (.bra loop) (u.set r (u.val (countReg r) + u.val r)) =
      some (_, .jump loop) := rfl
  refine ⟨_, ht.trans <| (reaches_step hbranch _).trans <| (reaches_step hand _).trans <|
    (hu.reaches (plain_of_straight (straight_shiftAux _ _ _ _ _ _))).trans <|
    (reaches_step hsum _).trans (reaches_jump hjump hloop _), ?_, fun w hw hw' => ?_⟩
  · rw [val_set, Function.update_self, hdigit.1, hdigit.2.1]
    exact round_toNat (s.val r) hv hk hk31 hlt
  · rw [val_set, Function.update_of_ne hw]
    exact hdigit.2.2 w hw hw'

/-- The loop ends, with the digit that is left. -/
theorem loop_reaches (hr : r.isDreg = true) (hv : v.toNat = 2 ^ k - 1) (hk : 4 ≤ k)
    (hk31 : k < 32) (hloop : machine.after loop prog =
      some (round sgned d1IsSpecial r k v loop end' tail))
    (hend : machine.after end' prog = some tail)
    (hx : sgned = true → (s.val r).toNat < 2 ^ 31) :
    ∃ t, machine.Reaches prog (.inside (round sgned d1IsSpecial r k v loop end' tail), s)
        (.inside tail, t) ∧
      (t.val r).toNat = castOut (2 ^ k) (lowDigit d1IsSpecial k) (s.val r).toNat ∧
      t.flags = some (t.val r, v) ∧ ∀ w, w ≠ r → w ≠ countReg r → t.val w = s.val w := by
  have hpow : 2 ^ k ≤ 2 ^ 31 := Nat.pow_le_pow_right (by omega) (by omega)
  have hpos := Nat.two_pow_pos k
  induction hn : (s.val r).toNat using Nat.strong_induction_on generalizing s with
  | _ n ih =>
      by_cases hlt : n < 2 ^ k
      · have hle : (Test.le sgned).holds (s.val r) v = true :=
          (le_holds (by omega) hx).2 (by omega)
        obtain ⟨t, ht, hval, hflags⟩ := round_leaves k d1IsSpecial loop hend hle
        have hr' : t.val r = s.val r := by rw [hval, Function.update_of_ne (countReg_ne r).symm]
        refine ⟨t, ht, ?_, by rw [hr', hflags], fun w _ h => ?_⟩
        · rw [hr', hn, castOut_of_lt hlt]
        · rw [hval, Function.update_of_ne h]
      · obtain ⟨t, ht, hval, hw⟩ := round_reaches hr hv hk hk31 hloop hx (by omega)
        have hdown := lowDigit_lt d1IsSpecial hk n (not_lt.1 hlt)
        rw [hn] at hval
        obtain ⟨u, hu, hval', hflags, hw'⟩ := ih _ hdown (s := t)
          (fun hs => by have := hx hs; omega) hval
        refine ⟨u, ht.trans hu, ?_, hflags, fun w h h' => (hw' w h h').trans (hw w h h')⟩
        rw [hval', castOut_of_le (not_lt.1 hlt) hdown]

end

section

variable {s : State} {prog exit : List Ins} {r top dest : Where} {k : Nat} {v : BitVec 32}
  {sgned d1IsSpecial : Bool} {loop end' tst ntst : Nat}

/-- What follows the loop: its limit counts as zero. -/
def leave (r : Where) (tst : Nat) (exit : List Ins) : List Ins :=
  .branch .neq tst :: .moveI 0 r :: .makeLabel tst :: exit

/-- The sign is put back, and the remainder goes into the destination. -/
def signBack (sgned : Bool) (r top dest : Where) (ntst : Nat) : List Ins :=
  if sgned then
    [.cmpZero top, .branch .ge ntst, .negate r r, .makeLabel ntst, .move r dest]
  else [.move r dest]

/-- The sign is taken away before the loop. -/
def signAway (sgned : Bool) (r : Where) (loop : Nat) (rest : List Ins) : List Ins :=
  if sgned then .cmpZero r :: .branch .ge loop :: .negate r r :: .makeLabel loop :: rest
  else .makeLabel loop :: rest

/-- The register in which the remainder is formed. -/
def remReg (dest : Where) : Where := if dest.isDreg then dest else d1

theorem remReg_isDreg (dest : Where) : (remReg dest).isDreg = true := by
  rw [remReg]
  split
  · assumption
  · rfl

/-- The sequence. -/
def remCode (sgned d1IsSpecial : Bool) (k : Nat) (v : BitVec 32) (top dest : Where)
    (loop end' tst ntst : Nat) : List Ins :=
  let r := remReg dest
  .move top r :: signAway sgned r loop (round sgned d1IsSpecial r k v loop end'
    (leave r tst (signBack sgned r top dest ntst)))

theorem remPower2_1_eq_some (hk : bitOne (v.signExtend 64 + 1) = some k) {c : List Ins}
    (hc : remPower2_1 sgned d1IsSpecial v top dest loop end' tst ntst = some c) :
    (sgned = true → top ≠ d0 ∧ top ≠ d1) ∧
      c = remCode sgned d1IsSpecial k v top dest loop end' tst ntst := by
  rw [remPower2_1] at hc
  split at hc
  · cases hc
  · next h =>
      rw [hk, Option.map_some] at hc
      injection hc with hc
      refine ⟨fun hs => ⟨fun h0 => h ⟨hs, .inl h0⟩, fun h1 => h ⟨hs, .inr h1⟩⟩, ?_⟩
      have hreg : (if dest.isDreg then dest else d1) = remReg dest := rfl
      have hcount : (if remReg dest = d0 then d1 else d0) = countReg (remReg dest) := rfl
      rw [← hc, hreg, hcount]
      cases sgned <;> simp [remCode, signAway, signBack, round, fold, leave]

/-! ### Where the labels are -/

theorem after_round {l : Nat} (h : l ≠ end') (tail : List Ins) :
    machine.after l (round sgned d1IsSpecial r k v loop end' tail) = machine.after l tail := by
  have hlabel : machine.label (.makeLabel end') ≠ some l := fun heq => h (Option.some.inj heq).symm
  refine (after_straight (straight_shiftAux .lsr d1IsSpecial false k r r) l _).trans ?_
  exact if_neg hlabel

theorem after_round_end (tail : List Ins) :
    machine.after end' (round sgned d1IsSpecial r k v loop end' tail) = some tail := by
  refine (after_straight (straight_shiftAux .lsr d1IsSpecial false k r r) end' _).trans ?_
  exact if_pos rfl

theorem after_signAway_loop (rest : List Ins) :
    machine.after loop (signAway sgned r loop rest) = some rest := by
  rw [signAway]
  split
  · exact if_pos rfl
  · exact if_pos rfl

theorem after_signAway {l : Nat} (h : l ≠ loop) (rest : List Ins) :
    machine.after l (signAway sgned r loop rest) = machine.after l rest := by
  have hlabel : machine.label (.makeLabel loop) ≠ some l := fun heq => h (Option.some.inj heq).symm
  rw [signAway]
  split
  · exact if_neg hlabel
  · exact if_neg hlabel

theorem after_leave_tst : machine.after tst (leave r tst exit) = some exit := if_pos rfl

theorem after_leave {l : Nat} (h : l ≠ tst) :
    machine.after l (leave r tst exit) = machine.after l exit :=
  if_neg fun heq => h (Option.some.inj heq).symm

/-! ### Before and after the loop -/

theorem leave_reaches (htst : machine.after tst prog = some exit)
    (hflags : s.flags = some (s.val r, v)) :
    ∃ t, machine.Reaches prog (.inside (leave r tst exit), s) (.inside exit, t) ∧
      t.val = Function.update s.val r (if s.val r = v then 0 else s.val r) := by
  have hbranch := exec_branch hflags .neq tst
  by_cases h : s.val r = v
  · rw [if_neg (by simpa [Test.holds] using h)] at hbranch
    have hzero : machine.exec (.moveI 0 r) s = some (s.set r 0, .step) := rfl
    have hlabel : machine.exec (.makeLabel tst) (s.set r 0) = some (s.set r 0, .step) := rfl
    refine ⟨_, (reaches_step hbranch _).trans <| (reaches_step hzero _).trans
      (reaches_step hlabel exit), ?_⟩
    rw [if_pos h]
    rfl
  · rw [if_pos (by simpa [Test.holds] using h)] at hbranch
    refine ⟨_, reaches_jump hbranch htst _, ?_⟩
    rw [if_neg h, Function.update_eq_self]

theorem ge_holds : Test.ge.holds x 0 = true ↔ ¬ x.toInt < 0 := by
  rw [Test.holds, decide_eq_true_eq, not_lt]
  rfl

/-- The negative numbers among those of a place are negated. -/
theorem negate_reaches {lab : Nat} {rest : List Ins} (hlab : machine.after lab prog = some rest)
    (var r : Where) (s : State) :
    ∃ t, machine.Reaches prog
      (.inside (.cmpZero var :: .branch .ge lab :: .negate r r :: .makeLabel lab :: rest), s)
      (.inside rest, t) ∧
      t.val = Function.update s.val r (if (s.val var).toInt < 0 then -s.val r else s.val r) := by
  have hcmp : machine.exec (.cmpZero var) s = some (⟨s.val, some (s.val var, 0)⟩, .step) := rfl
  have hbranch : machine.exec (.branch .ge lab) ⟨s.val, some (s.val var, 0)⟩ = _ :=
    exec_branch rfl .ge lab
  by_cases h : (s.val var).toInt < 0
  · rw [if_neg fun hge => ge_holds.1 hge h] at hbranch
    have hnegate : machine.exec (.negate r r) ⟨s.val, some (s.val var, 0)⟩ =
        some (s.set r (-s.val r), .step) := rfl
    have hlabel : machine.exec (.makeLabel lab) (s.set r (-s.val r)) =
        some (s.set r (-s.val r), .step) := rfl
    refine ⟨_, (reaches_step hcmp _).trans <| (reaches_step hbranch _).trans <|
      (reaches_step hnegate _).trans (reaches_step hlabel rest), ?_⟩
    rw [if_pos h]
    rfl
  · rw [if_pos (ge_holds.2 h)] at hbranch
    refine ⟨_, (reaches_step hcmp _).trans (reaches_jump hbranch hlab _), ?_⟩
    rw [if_neg h, Function.update_eq_self]

variable (top) in
theorem signBack_reaches
    (hntst : sgned = true → machine.after ntst prog = some [.move r dest]) (s : State) :
    ∃ t, machine.Reaches prog (.inside (signBack sgned r top dest ntst), s) (.inside [], t) ∧
      t.val dest = if sgned = true ∧ (s.val top).toInt < 0 then -s.val r else s.val r := by
  have hmove : ∀ u : State, machine.exec (.move r dest) u = some (u.set dest (u.val r), .step) :=
    fun _ => rfl
  cases sgned with
  | true =>
      obtain ⟨t, ht, hval⟩ := negate_reaches (hntst rfl) top r s
      refine ⟨_, ht.trans (reaches_step (hmove t) []), ?_⟩
      rw [val_set, Function.update_self, hval, Function.update_self]
      simp only [true_and]
  | false =>
      refine ⟨_, reaches_step (hmove s) [], ?_⟩
      rw [val_set, Function.update_self]
      simp

variable (sgned) in
theorem signAway_reaches (hloop : machine.after loop prog = some exit) (r : Where) (s : State) :
    ∃ t, machine.Reaches prog (.inside (signAway sgned r loop exit), s) (.inside exit, t) ∧
      t.val = Function.update s.val r
        (if sgned = true ∧ (s.val r).toInt < 0 then -s.val r else s.val r) := by
  cases sgned with
  | true =>
      obtain ⟨t, ht, hval⟩ := negate_reaches hloop r r s
      refine ⟨t, ht, hval.trans ?_⟩
      simp only [true_and]
  | false =>
      have hlabel : machine.exec (.makeLabel loop) s = some (s, .step) := rfl
      refine ⟨s, reaches_step hlabel exit, ?_⟩
      simp

end

section

variable {s : State} {top dest : Where} {k : Nat} {v y : BitVec 32} {sgned d1IsSpecial : Bool}
  {loop end' tst ntst : Nat}

/-- What the loop starts from. -/
def magnitude (sgned : Bool) (x : BitVec 32) : BitVec 32 :=
  if sgned = true ∧ x.toInt < 0 then -x else x

/-- What is left of the digit `y`. -/
def limitZero (v y : BitVec 32) : BitVec 32 := if y = v then 0 else y

variable (sgned d1IsSpecial k v dest y) in
/-- The sequence ends if its loop does, with the digit that the loop leaves. The sign that is put
back is that of the operand, or of the digit where the operand was overwritten. -/
theorem remCode_ends (hlab : [loop, end', tst, ntst].Nodup)
    (htop : sgned = true → top ≠ d0 ∧ top ≠ d1)
    (hloop : ∀ t : State, t.val (remReg dest) = magnitude sgned (s.val top) →
      ∀ prog tail,
      machine.after loop prog =
        some (round sgned d1IsSpecial (remReg dest) k v loop end' tail) →
      machine.after end' prog = some tail →
      ∃ u, machine.Reaches prog
          (.inside (round sgned d1IsSpecial (remReg dest) k v loop end' tail), t)
          (.inside tail, u) ∧
        u.val (remReg dest) = y ∧ u.flags = some (u.val (remReg dest), v) ∧
        ∀ w, w ≠ remReg dest → w ≠ countReg (remReg dest) → u.val w = t.val w) :
    ∃ t, machine.Ends (remCode sgned d1IsSpecial k v top dest loop end' tst ntst) s
        (.inside []) t ∧
      t.val dest =
        if sgned = true ∧ (if top = remReg dest then limitZero v y else s.val top).toInt < 0 then
          -limitZero v y
        else limitZero v y := by
  obtain ⟨hloop', hend', htst', -⟩ : (loop ≠ end' ∧ loop ≠ tst ∧ loop ≠ ntst) ∧
      (end' ≠ tst ∧ end' ≠ ntst) ∧ tst ≠ ntst ∧ True := by simpa using hlab
  let prog := remCode sgned d1IsSpecial k v top dest loop end' tst ntst
  let exit := signBack sgned (remReg dest) top dest ntst
  have hl : machine.after loop prog = some (round sgned d1IsSpecial (remReg dest) k v loop end'
      (leave (remReg dest) tst exit)) := after_signAway_loop _
  have he : machine.after end' prog = some (leave (remReg dest) tst exit) :=
    (after_signAway hloop'.1.symm _).trans (after_round_end _)
  have ht : machine.after tst prog = some exit :=
    (after_signAway hloop'.2.1.symm _).trans <| (after_round hend'.1.symm _).trans after_leave_tst
  have hn : sgned = true → machine.after ntst prog = some [.move (remReg dest) dest] := fun hs =>
    (after_signAway hloop'.2.2.symm _).trans <| (after_round hend'.2.symm _).trans <|
      (after_leave htst'.symm).trans <| by rw [signBack, if_pos hs]; exact if_pos rfl
  have hmove : machine.exec (.move top (remReg dest)) s =
      some (s.set (remReg dest) (s.val top), .step) := rfl
  obtain ⟨t, htr, htval⟩ := signAway_reaches sgned hl (remReg dest)
    (s.set (remReg dest) (s.val top))
  have hmag : t.val (remReg dest) = magnitude sgned (s.val top) := by
    rw [htval, Function.update_self, val_set, Function.update_self, magnitude]
  obtain ⟨u, hu, huval, hflags, hframe⟩ := hloop t hmag prog _ hl he
  obtain ⟨w, hw, hwval⟩ := leave_reaches ht hflags
  obtain ⟨z, hz, hzval⟩ := signBack_reaches top hn w
  have hwr : w.val (remReg dest) = limitZero v y := by
    rw [hwval, Function.update_self, huval, limitZero]
  refine ⟨z, ⟨(reaches_step hmove _).trans <| htr.trans <| hu.trans <| hw.trans hz, rfl⟩, ?_⟩
  rw [hzval, hwr]
  have htopval : sgned = true →
      w.val top = if top = remReg dest then limitZero v y else s.val top := fun hs => by
    by_cases h : top = remReg dest
    · rw [if_pos h, h, hwr]
    · have hne : top ≠ countReg (remReg dest) := by
        rw [countReg]
        split
        · exact (htop hs).2
        · exact (htop hs).1
      rw [if_neg h, hwval, Function.update_of_ne h, hframe top h hne, htval,
        Function.update_of_ne h, val_set, Function.update_of_ne h]
  by_cases hs : sgned = true
  · rw [htopval hs]
  · rw [if_neg fun h => hs h.1, if_neg fun h => hs h.1]

theorem limitZero_toNat (h : y.toNat ≤ v.toNat) : (limitZero v y).toNat = y.toNat % v.toNat := by
  rw [limitZero]
  by_cases heq : y = v
  · rw [if_pos heq, heq, Nat.mod_self]
    rfl
  · have hne : y.toNat ≠ v.toNat := fun h => heq (BitVec.eq_of_toNat_eq h)
    rw [if_neg heq, Nat.mod_eq_of_lt (by omega)]

theorem magnitude_toNat (h : sgned = true → x ≠ BitVec.intMin 32) :
    (magnitude sgned x).toNat = (Word.decode sgned x).natAbs ∧
      (sgned = true → (magnitude sgned x).toNat < 2 ^ 31) := by
  cases sgned with
  | false =>
      rw [Word.decode_false, magnitude, if_neg fun hs => Bool.false_ne_true hs.1]
      exact ⟨(Int.natAbs_natCast _).symm, fun hs => absurd hs Bool.false_ne_true⟩
  | true =>
      have hmin : x.toNat ≠ 2 ^ 31 := fun heq => h rfl (BitVec.eq_of_toNat_eq heq)
      have hint := x.toInt_eq_toNat_cond
      have hlt := x.isLt
      rw [Word.decode_true, magnitude]
      by_cases hneg : x.toInt < 0
      · rw [if_pos ⟨rfl, hneg⟩, BitVec.toNat_neg]
        split at hint <;> omega
      · rw [if_neg fun hs => hneg hs.2]
        split at hint <;> omega

/-- The digit that the loop leaves is right where the low digits that are lost are a multiple. -/
theorem digit_iff (d1IsSpecial : Bool) (hv : v.toNat = 2 ^ k - 1) (hk : 4 ≤ k) (x : Nat) :
    castOut (2 ^ k) (lowDigit d1IsSpecial k) x % v.toNat = x % v.toNat ↔
      k ≤ 8 ∨ d1IsSpecial = true ∨ (v.toNat : Int) ∣ lost (2 ^ k) (fun _ => k) x := by
  have hpos := Nat.two_pow_pos k
  have hcast : (v.toNat : Int) = ((2 ^ k : Nat) : Int) - 1 := by omega
  have hiff := castOut_emod_iff (x := x) (lowDigit_lt d1IsSpecial hk)
  rw [← hcast, ← Int.natCast_emod, ← Int.natCast_emod, Int.natCast_inj] at hiff
  rw [hiff, lowDigit, ← or_assoc]
  by_cases h : k ≤ 8 ∨ d1IsSpecial = true
  · have hbase : 2 ≤ 2 ^ k := Nat.pow_le_pow_right (show 1 ≤ 2 from by omega) (show 1 ≤ k by omega)
    rw [if_pos h, lost_digit hbase]
    exact iff_of_true (dvd_zero _) (.inl h)
  · rw [if_neg h, or_iff_right h]

/-- The remainder of a number, with the sign put back or not, is right where the remainder of its
magnitude is, and the sign is not missing. -/
theorem signed_iff {x : Int} {n r : Nat} (missing : Prop) [Decidable missing] :
    (if x < 0 ∧ ¬missing then -(r : Int) else r) = x.tmod n ↔
      r = x.natAbs % n ∧ (missing → 0 ≤ x ∨ (n : Int) ∣ x) := by
  have htmod : x.tmod n =
      if x < 0 then -((x.natAbs % n : Nat) : Int) else (x.natAbs % n : Nat) := by
    rw [Int.ofNat_tmod]
    split
    · next h => rw [← Int.neg_tmod, ← Int.eq_neg_natAbs_of_nonpos h.le]
    · next h => rw [← Int.eq_natAbs_of_nonneg (not_lt.1 h)]
  have hdvd : (n : Int) ∣ x ↔ x.natAbs % n = 0 := by
    rw [Int.natCast_dvd, Nat.dvd_iff_mod_eq_zero]
  rw [htmod, hdvd]
  generalize x.natAbs % n = d
  by_cases hx : x < 0
  · by_cases hm : missing
    · simp only [hx, hm, if_true, not_true, and_false, if_false, forall_true_left]
      omega
    · simp only [hx, hm, if_true, not_false_eq_true, and_self]
      simp
  · simp only [hx, if_false, false_and]
    omega

/-- The sequence overwrites its operand. -/
theorem eq_remReg_iff (dest : Where) (htop : top ≠ d1) :
    top = remReg dest ↔ dest.isDreg = true ∧ top = dest := by
  rw [remReg]
  split
  · next h => rw [and_iff_right h]
  · next h => exact iff_of_false htop fun hd => h hd.1

variable (d1IsSpecial k dest) in
/-- The number that is its own negation is left as it is. -/
theorem remCode_intMin (hv : v.toNat < 2 ^ 31) (hlab : [loop, end', tst, ntst].Nodup)
    (htop : top ≠ d0 ∧ top ≠ d1) (hmin : s.val top = BitVec.intMin 32) :
    ∃ t, machine.Ends (remCode true d1IsSpecial k v top dest loop end' tst ntst) s (.inside []) t ∧
      t.val dest = BitVec.intMin 32 := by
  have hle : (Test.le true).holds (BitVec.intMin 32) v = true := by
    have hvint : v.toInt = v.toNat := BitVec.toInt_eq_toNat_of_lt (by omega)
    have hmin : (BitVec.intMin 32).toInt = -2147483648 := rfl
    rw [Test.holds, decide_eq_true_eq, hvint, hmin]
    omega
  obtain ⟨t, ht, hval⟩ := remCode_ends dest k v (BitVec.intMin 32) true d1IsSpecial hlab
    (fun _ => htop) fun t hval prog tail hl he => by
      have hval : t.val (remReg dest) = BitVec.intMin 32 := by
        rw [hval, hmin]
        rfl
      obtain ⟨u, hu, huval, hflags⟩ := round_leaves k d1IsSpecial loop he
        (show (Test.le true).holds (t.val (remReg dest)) v = true from by rwa [hval])
      have hkeep : u.val (remReg dest) = t.val (remReg dest) := by
        rw [huval, Function.update_of_ne (countReg_ne _).symm]
      exact ⟨u, hu, hkeep.trans hval, by rw [hflags, hkeep], fun w _ hw => by
        rw [huval, Function.update_of_ne hw]⟩
  refine ⟨t, ht, hval.trans ?_⟩
  have hzero : limitZero v (BitVec.intMin 32) = BitVec.intMin 32 := if_neg fun heq => by
    rw [← heq] at hv
    exact absurd hv (by decide)
  rw [hzero, hmin, ite_self]
  rfl

variable (d1IsSpecial dest) in
/-- What the sequence leaves is right unless a digit or a sign was lost. -/
theorem remCode_right (hv : v.toNat = 2 ^ k - 1) (hk : 4 ≤ k) (hk31 : k < 32)
    (hlab : [loop, end', tst, ntst].Nodup) (htop : sgned = true → top ≠ d0 ∧ top ≠ d1)
    (s : State) :
    ∃ t, machine.Ends (remCode sgned d1IsSpecial k v top dest loop end' tst ntst) s
        (.inside []) t ∧
      (Right .rem2 sgned (s.val top) v (t.val dest) ↔
        (k ≤ 8 ∨ d1IsSpecial = true ∨ (v.toNat : Int) ∣
          lost (2 ^ k) (fun _ => k) (Word.decode sgned (s.val top)).natAbs) ∧
        (sgned = true → s.val top ≠ BitVec.intMin 32) ∧
        (sgned = true → dest.isDreg = true ∧ top = dest →
          0 ≤ (s.val top).toInt ∨ v.toInt ∣ (s.val top).toInt)) := by
  have hpow : 2 ^ k ≤ 2 ^ 31 := Nat.pow_le_pow_right (by omega) (by omega)
  have hpow4 : 2 ^ 4 ≤ 2 ^ k := Nat.pow_le_pow_right (by omega) hk
  have hvint : v.toInt = v.toNat := BitVec.toInt_eq_toNat_of_lt (by omega)
  by_cases hmin : sgned = true ∧ s.val top = BitVec.intMin 32
  · obtain ⟨hs, hmin⟩ := hmin
    subst hs
    obtain ⟨t, ht, hval⟩ := remCode_intMin dest k d1IsSpecial
      (show v.toNat < 2 ^ 31 from by omega) hlab (htop rfl) hmin
    refine ⟨t, ht, iff_of_false (fun hright => ?_) fun h => h.2.1 rfl hmin⟩
    rw [right_signed, hval, hmin, Tag.exact, hvint] at hright
    have habs := congrArg Int.natAbs hright
    rw [Int.natAbs_tmod, Int.natAbs_natCast] at habs
    have hlt := Nat.mod_lt (BitVec.intMin 32).toInt.natAbs (show 0 < v.toNat from by omega)
    have hmin : (BitVec.intMin 32).toInt.natAbs = 2147483648 := rfl
    omega
  have hmin : sgned = true → s.val top ≠ BitVec.intMin 32 := fun hs heq => hmin ⟨hs, heq⟩
  obtain ⟨hmag, hmag31⟩ := magnitude_toNat hmin
  have hdown := lowDigit_lt d1IsSpecial hk
  obtain ⟨t, ht, hval⟩ := remCode_ends dest k v
    (.ofNat 32 (castOut (2 ^ k) (lowDigit d1IsSpecial k) (magnitude sgned (s.val top)).toNat))
    sgned d1IsSpecial hlab htop fun t hval prog tail hl he => by
      obtain ⟨u, hu, huval, hrest⟩ := loop_reaches (s := t) (remReg_isDreg dest) hv hk hk31 hl he
        (by rwa [hval])
      refine ⟨u, hu, ?_, hrest⟩
      rw [← hval, ← huval, BitVec.ofNat_toNat, BitVec.setWidth_eq]
  refine ⟨t, ht, ?_⟩
  rw [hmag] at hval
  -- the digit that is left, with the limit for zero
  let d := castOut (2 ^ k) (lowDigit d1IsSpecial k) (Word.decode sgned (s.val top)).natAbs
  have hd : d < 2 ^ k := castOut_lt hdown
  have hy : (BitVec.ofNat 32 d).toNat = d := by
    rw [BitVec.toNat_ofNat]
    omega
  have hr := limitZero_toNat (v := v) (y := .ofNat 32 d) (by omega)
  rw [hy] at hr
  have hiff := digit_iff d1IsSpecial hv hk (Word.decode sgned (s.val top)).natAbs
  have hrlt : d % v.toNat < v.toNat := Nat.mod_lt _ (by omega)
  change d % v.toNat = _ ↔ _ at hiff
  change _ = if sgned = true ∧ (if top = remReg dest then limitZero v (.ofNat 32 d)
    else s.val top).toInt < 0 then -limitZero v (.ofNat 32 d) else limitZero v (.ofNat 32 d) at hval
  generalize limitZero v (.ofNat 32 d) = r at hval hr
  rw [← hiff]
  have hrint : r.toInt = r.toNat := BitVec.toInt_eq_toNat_of_lt (by omega)
  cases sgned with
  | false =>
      rw [if_neg fun h => Bool.false_ne_true h.1] at hval
      have hmod : (Right .rem2 false (s.val top) v r) ↔ r.toNat = (s.val top).toNat % v.toNat := by
        rw [right_unsigned, ← BitVec.toNat_umod, BitVec.toNat_inj]
        rfl
      rw [hval, hmod, Word.decode_false, Int.natAbs_natCast, ← hr]
      exact ⟨fun h => ⟨h, fun hs => absurd hs Bool.false_ne_true,
        fun hs => absurd hs Bool.false_ne_true⟩, And.left⟩
  | true =>
      rw [Word.decode_true, right_signed, Tag.exact, hvint, ← hr]
      have hdest : (t.val dest).toInt =
          if (s.val top).toInt < 0 ∧ ¬(dest.isDreg = true ∧ top = dest) then -(r.toNat : Int)
          else r.toNat := by
        have hneg : (-r).toInt = -(r.toNat : Int) := by
          rw [BitVec.toInt_neg_of_ne_intMin, hrint]
          intro hrmin
          rw [hrmin] at hr
          have hval : (BitVec.intMin 32).toNat = 2147483648 := rfl
          omega
        have hsame := eq_remReg_iff dest (htop rfl).2
        rw [hval]
        by_cases h : top = remReg dest
        · rw [if_pos h, if_neg (by omega), if_neg fun hn => hn.2 (hsame.1 h), hrint]
        · rw [if_neg h]
          by_cases hx : (s.val top).toInt < 0
          · rw [if_pos ⟨rfl, hx⟩, if_pos ⟨hx, fun hd => h (hsame.2 hd)⟩, hneg]
          · rw [if_neg fun hn => hx hn.2, if_neg fun hn => hx hn.1, hrint]
      rw [hdest, signed_iff]
      exact and_congr_right fun _ => ⟨fun h => ⟨fun _ => hmin rfl, fun _ => h⟩, fun h => h.2 rfl⟩

/-- The constants that `euclid` passes on are 15, 31, and so on up to 2^31 - 1. -/
theorem castsOut_spec (hv : castsOut v = true) (hk : bitOne (v.signExtend 64 + 1) = some k) :
    v.toNat = 2 ^ k - 1 ∧ 4 ≤ k ∧ k < 32 := by
  rw [castsOut, decide_eq_true_eq] at hv
  obtain ⟨h7, hpow⟩ := hv
  have hlt := v.toInt_lt
  have hext : (v.signExtend 64 + 1).toNat = v.toNat + 1 ∧ v.toInt = v.toNat := by
    have hint := v.toInt_eq_toNat_cond
    have hint' := (v.signExtend 64).toInt_eq_toNat_cond
    rw [BitVec.toInt_signExtend_of_le (by omega)] at hint'
    have hone : (v.signExtend 64 + 1).toNat = ((v.signExtend 64).toNat + 1) % 2 ^ 64 :=
      BitVec.toNat_add _ _
    rw [hone]
    split at hint <;> split at hint' <;> omega
  have hne : v.signExtend 64 + 1 ≠ 0 := fun h => by
    rw [h] at hext
    exact absurd hext.1 (by simp)
  obtain ⟨j, hj, hpow⟩ := eq_twoPow hne hpow
  rw [hpow, bitOne_twoPow hj, Option.some_inj] at hk
  subst hk
  rw [hpow, BitVec.toNat_twoPow_of_lt hj] at hext
  refine ⟨by omega, ?_, ?_⟩
  · by_contra h
    have := Nat.pow_le_pow_right (show 1 ≤ 2 from by omega) (show j ≤ 3 from by omega)
    omega
  · by_contra h
    have := Nat.pow_le_pow_right (show 1 ≤ 2 from by omega) (show 32 ≤ j from by omega)
    omega

/-- The loop of `rem_power2_1` ends. It leaves the remainder if no low digit is lost to the count
of the shift, or what is lost is a multiple, unless the operand is the number that has no
magnitude, or is negative and overwritten where there is a remainder. -/
theorem remPower2_1_exact (hv : castsOut v = true) (hk : bitOne (v.signExtend 64 + 1) = some k)
    (hlab : [loop, end', tst, ntst].Nodup) {c : List Ins}
    (hc : remPower2_1 sgned d1IsSpecial v top dest loop end' tst ntst = some c) (s : State) :
    ∃ t, machine.Ends c s (.inside []) t ∧
      (Right .rem2 sgned (s.val top) v (t.val dest) ↔
        (k ≤ 8 ∨ d1IsSpecial = true ∨ (v.toNat : Int) ∣
          lost (2 ^ k) (fun _ => k) (Word.decode sgned (s.val top)).natAbs) ∧
        (sgned = true → s.val top ≠ BitVec.intMin 32) ∧
        (sgned = true → dest.isDreg = true ∧ top = dest →
          0 ≤ (s.val top).toInt ∨ v.toInt ∣ (s.val top).toInt)) := by
  obtain ⟨hval, hk4, hk31⟩ := castsOut_spec hv hk
  obtain ⟨htop, rfl⟩ := remPower2_1_eq_some hk hc
  exact remCode_right dest d1IsSpecial hval hk4 hk31 hlab htop s

end

theorem remPower2_1_exact_fifteen : ∃ c t,
    remPower2_1 true false 15 (.dreg 3) (.dreg 4) 0 1 2 3 = some c ∧
      machine.Ends c ⟨fun _ => -100, none⟩ (.inside []) t ∧
      Right .rem2 true (-100) 15 (t.val (.dreg 4)) := by
  obtain ⟨t, ht, hright⟩ := remPower2_1_exact (k := 4) (by decide) (by decide)
    (by decide) (show remPower2_1 true false 15 (.dreg 3) (.dreg 4) 0 1 2 3 = some _ from rfl)
    ⟨fun _ => -100, none⟩
  exact ⟨_, t, rfl, ht, hright.2 ⟨by decide, by decide, by decide⟩⟩

/-- Of 1000 by 511, the sequence leaves 10 and not 489: the shift by 9 takes the register of the
low digit for its count. -/
theorem not_remPower2_1_exact : castsOut 511 = true ∧ ∃ c t,
    remPower2_1 false false 511 (.dreg 3) (.dreg 4) 0 1 2 3 = some c ∧
      machine.Ends c ⟨fun _ => 1000, none⟩ (.inside []) t ∧
      ¬Right .rem2 false 1000 511 (t.val (.dreg 4)) := by
  obtain ⟨t, ht, hright⟩ := remCode_right (.dreg 4) false
    (show (511 : BitVec 32).toNat = 2 ^ 9 - 1 from by decide) (by decide) (by decide)
    (show [0, 1, 2, 3].Nodup from by decide)
    (show false = true → Where.dreg 3 ≠ d0 ∧ Where.dreg 3 ≠ d1 from by decide)
    ⟨fun _ => 1000, none⟩
  obtain ⟨_, heq⟩ := remPower2_1_eq_some (k := 9) (by decide) (show remPower2_1 false false 511
    (.dreg 3) (.dreg 4) 0 1 2 3 = some _ from rfl)
  refine ⟨by decide, _, t, rfl, heq ▸ ht, fun h => ?_⟩
  have hlost : lost (2 ^ 9) (fun _ => 9) 1000 = 479 := by
    rw [lost_of_le (by omega) (by omega), lost_of_lt (by omega)]
    rfl
  obtain h | h | h := (hright.1 h).1
  · exact absurd h (by decide)
  · exact Bool.false_ne_true h
  · change (511 : Int) ∣ lost (2 ^ 9) (fun _ => 9) 1000 at h
    rw [hlost] at h
    omega

end Tendra.Ref.Trans.M68k.Long
