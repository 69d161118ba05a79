import Tendra.Lib.Machine
import Tendra.Proofs.Trans.Runs
import Tendra.Proofs.Trans.Division

/-!
# What the sequences for a multiplication leave

The parts that a back end writes are taken to do what they stand for. The accumulator
then holds the operand times the strings that are done, and the last step leaves the
product in the destination.
-/

namespace Tendra.Ref.Trans

open Machine Word

variable {I : Type}

/-- A list sets a register and leaves the others but one as they were. -/
def Sets (m : Machine I Regs Nat) (code : List I) (s : Regs) (dest : Reg) (v : BitVec 32)
    (other : Reg) : Prop :=
  ∃ t, m.Does code s t ∧ t.get dest = v ∧ ∀ r, r ≠ dest → r ≠ other → t.get r = s.get r

/-- The parts do what they stand for. -/
structure Steps.Sound (st : Steps I) (m : Machine I Regs Nat) : Prop where
  tmp_ne : st.tmp ≠ 0
  neg : ∀ s src dest, dest ≠ 0 → Sets m (st.neg src dest) s dest (-s.get src) dest
  zero : ∀ s dest, dest ≠ 0 → Sets m (st.zero dest) s dest 0 dest
  copy : ∀ s src dest, dest ≠ 0 → Sets m (st.copy src dest) s dest (s.get src) dest
  shift : ∀ s src k dest, dest ≠ 0 → 1 ≤ k → k ≤ 31 →
    Sets m (st.shift src k dest) s dest (s.get src <<< k) dest
  add : ∀ s src1 src2 dest, dest ≠ 0 →
    Sets m (st.add src1 src2 dest) s dest (s.get src1 + s.get src2) dest
  sub : ∀ s src1 src2 dest, dest ≠ 0 →
    Sets m (st.sub src1 src2 dest) s dest (s.get src1 - s.get src2) dest
  timesOnes : ∀ s src b, src ≠ st.tmp → 2 ≤ b → b ≤ 31 →
    Sets m (st.timesOnes src b) s st.tmp (s.get src * .ofNat 32 (2 ^ b - 1)) st.tmp
  firstShifted : ∀ s src k dest, dest ≠ 0 → dest ≠ st.tmp → 1 ≤ k → k ≤ 31 →
    Sets m (st.firstShifted src k dest) s dest (s.get src <<< k) st.tmp
  addShifted : ∀ s src k accum dest, dest ≠ 0 → dest ≠ st.tmp → accum ≠ st.tmp → 1 ≤ k → k ≤ 31 →
    Sets m (st.addShifted src k accum dest) s dest (s.get accum + s.get src <<< k) st.tmp
  addTimes : ∀ s src inter n, inter ≠ 0 → src ≠ inter → 1 ≤ n →
    Sets m (st.addTimes src inter n) s inter
      (s.get inter + s.get src * .ofNat 32 (n - 1)) inter

theorem shl_eq_mul (x : BitVec 32) (k : Nat) : x <<< k = x * .ofNat 32 (2 ^ k) := by
  rw [BitVec.shiftLeft_eq_mul_twoPow]
  congr 1
  apply BitVec.eq_of_toNat_eq
  rw [BitVec.toNat_twoPow, BitVec.toNat_ofNat]

theorem mul_ofNat_shl (x : BitVec 32) (a k : Nat) :
    (x * .ofNat 32 a) <<< k = x * .ofNat 32 (a * 2 ^ k) := by
  rw [shl_eq_mul, BitVec.mul_assoc, BitVec.ofNat_mul]

/-- The register for temporaries holds a string that was taken up, if a later one needs it. -/
def Holds (st : Steps I) (s : Regs) (x : BitVec 32) (found : Option (Nat × Nat))
    (rest : List Run) : Prop :=
  ∀ f, found = some f → 2 ≤ f.1 ∧ ∀ r ∈ rest, r.bsl = f.1 →
    f.2 < r.shift ∧ s.get st.tmp = x * .ofNat 32 ((2 ^ f.1 - 1) * 2 ^ f.2)

/-- The registers are apart as far as the sequences need it. -/
structure Apart (st : Steps I) (src accum dest : Reg) : Prop where
  src_tmp : src ≠ st.tmp
  accum_tmp : accum ≠ st.tmp
  dest_tmp : dest ≠ st.tmp
  accum_src : accum ≠ src
  accum_zero : accum ≠ 0
  dest_zero : dest ≠ 0

section

variable {st : Steps I} {m : Machine I Regs Nat} {src accum dest : Reg} {x : BitVec 32}

theorem value_one {r : Run} (h : r.bsl = 1) : r.value = 2 ^ r.shift := by
  rw [Run.value, h]
  simp

/-- A shift of the register for temporaries, or none. -/
theorem does_extraShift (hst : st.Sound m) (s : Regs) {extra : Int} (h0 : 0 ≤ extra)
    (h31 : extra ≤ 31) :
    Sets m (if extra = 0 then [] else st.shift st.tmp extra.toNat st.tmp) s st.tmp
      (s.get st.tmp <<< extra.toNat) st.tmp := by
  by_cases h : extra = 0
  · rw [if_pos h, h]
    exact ⟨s, Does.nil s, (BitVec.shiftLeft_zero _).symm, fun _ _ _ => rfl⟩
  · rw [if_neg h]
    exact hst.shift s _ _ _ hst.tmp_ne (by omega) (by omega)

/-- What is to be added for a string of two bits or more comes to the register for temporaries. -/
theorem does_toTmp (hst : st.Sound m) {s : Regs} {r : Run} {rest : List Run}
    {found : Option (Nat × Nat)} (hsrc : s.get src = x) (hne : src ≠ st.tmp) (h2 : 2 ≤ r.bsl)
    (h31 : r.bsl ≤ 31) (hshift : r.shift ≤ 31) (hholds : Holds st s x found (r :: rest)) :
    let tmpShifted := found.bind fun f => if f.1 = r.bsl then some f.2 else none
    let extraShift : Int := r.shift - tmpShifted.getD 0
    (extraShift = 0 ∨ extraShift > 0 ∧ extraShift ≤ 31) ∧
    Sets m ((if tmpShifted = none then st.timesOnes src r.bsl else []) ++
      if extraShift = 0 then [] else st.shift st.tmp extraShift.toNat st.tmp) s st.tmp
      (x * .ofNat 32 r.value) st.tmp := by
  by_cases hfound : ∃ f, found = some f ∧ f.1 = r.bsl
  · obtain ⟨f, rfl, hf⟩ := hfound
    obtain ⟨hlt, htmp⟩ := (hholds f rfl).2 r List.mem_cons_self hf.symm
    have hextra : ((r.shift : Int) - f.2).toNat = r.shift - f.2 := by omega
    simp only [Option.bind_some, hf, if_true, Option.getD_some, reduceCtorEq, if_false,
      List.nil_append]
    refine ⟨.inr (by omega), ?_⟩
    obtain ⟨t, hdoes, hget, hrest⟩ := does_extraShift hst s
      (show 0 ≤ (r.shift : Int) - f.2 by omega) (by omega)
    refine ⟨t, hdoes, hget.trans ?_, hrest⟩
    rw [htmp, mul_ofNat_shl, hextra, hf, Nat.mul_assoc, ← Nat.pow_add,
      Nat.add_sub_cancel' (Nat.le_of_lt hlt), Run.value]
  · have hnone : (found.bind fun f => if f.1 = r.bsl then some f.2 else none) = none := by
      cases found with
      | none => rfl
      | some f => exact if_neg fun hf => hfound ⟨f, rfl, hf⟩
    simp only [hnone, if_true, Option.getD_none, Nat.cast_zero, Int.sub_zero]
    refine ⟨by omega, ?_⟩
    obtain ⟨u, hdoes, hget, hrest⟩ := hst.timesOnes s src r.bsl hne h2 h31
    obtain ⟨t, hdoes', hget', hrest'⟩ := does_extraShift hst u
      (show 0 ≤ (r.shift : Int) by omega) (by omega)
    refine ⟨t, hdoes.append hdoes', hget'.trans ?_, fun q hq hq' => ?_⟩
    · rw [hget, hsrc, mul_ofNat_shl, Int.toNat_natCast, Run.value]
    · rw [hrest' q hq hq', hrest q hq hq']

/-- One step brings its string to the accumulator, or to the destination if it is the last. -/
theorem accumulate_cons (hst : st.Sound m) (hapart : Apart st src accum dest) {s : Regs} {r : Run}
    {rest : List Run} {init : Bool} {found : Option (Nat × Nat)} {A : BitVec 32}
    (h1 : 1 ≤ r.bsl) (h31 : r.bsl ≤ 31) (hshift : r.shift ≤ 31)
    (hbefore : ∀ q ∈ rest, Before r q) (hholds : Holds st s x found (r :: rest))
    (hsrc : s.get src = x) (haccum : init = true → s.get accum = x * A)
    (hzero : init = false → A = 0) :
    ∃ c found', accumulate st src accum dest (r :: rest) init found =
        (accumulate st src accum dest rest true found').map (c ++ ·) ∧
      ∃ t, m.Does c s t ∧
        t.get (if rest = [] then dest else accum) = x * (A + .ofNat 32 r.value) ∧
        (∀ q, q ≠ dest → q ≠ accum → q ≠ st.tmp → t.get q = s.get q) ∧
        (rest ≠ [] → t.get src = x) ∧
        Holds st t x found' rest := by
  rw [accumulate]
  generalize hd : (if rest = [] then dest else accum) = d
  have hd0 : d ≠ 0 := by
    rw [← hd]
    split
    · exact hapart.dest_zero
    · exact hapart.accum_zero
  have hdtmp : d ≠ st.tmp := by
    rw [← hd]
    split
    · exact hapart.dest_tmp
    · exact hapart.accum_tmp
  have hcases : ∀ q, q ≠ dest → q ≠ accum → q ≠ d := by
    intro q hq hq'
    rw [← hd]
    split
    · exact hq
    · exact hq'
  have hsrcd : rest ≠ [] → src ≠ d := by
    intro hne
    rw [← hd, if_neg hne]
    exact hapart.accum_src.symm
  by_cases hone : r.bsl = 1
  · -- no later string is longer than this one
    have hlate : ∀ t, Holds st t x found rest := by
      intro t f hf
      refine ⟨(hholds f hf).1, fun q hq hqf => ?_⟩
      have := (hholds f hf).1
      rcases hbefore q hq with hlt | ⟨heq, -⟩ <;> omega
    have hstep : ∀ c, Sets m c s d (x * (A + .ofNat 32 r.value)) st.tmp →
        ∃ t, m.Does c s t ∧ t.get d = x * (A + .ofNat 32 r.value) ∧
          (∀ q, q ≠ dest → q ≠ accum → q ≠ st.tmp → t.get q = s.get q) ∧
          (rest ≠ [] → t.get src = x) ∧ Holds st t x found rest := by
      rintro c ⟨t, hdoes, hget, hrest⟩
      exact ⟨t, hdoes, hget, fun q hq hq' hq'' => hrest q (hcases q hq hq') hq'',
        fun hne => (hrest src (hsrcd hne) hapart.src_tmp).trans hsrc, hlate t⟩
    rw [if_pos hone]
    refine ⟨_, found, rfl, hstep _ ?_⟩
    have hexact : ∀ {c v}, Sets m c s d v d → v = x * (A + .ofNat 32 r.value) →
        Sets m c s d (x * (A + .ofNat 32 r.value)) st.tmp := by
      rintro c v ⟨t, hdoes, hget, hrest⟩ hv
      exact ⟨t, hdoes, hget.trans hv, fun q hq _ => hrest q hq hq⟩
    by_cases h0 : r.shift = 0
    · have hvalue : BitVec.ofNat 32 r.value = 1 := by rw [value_one hone, h0]; rfl
      rw [if_pos h0]
      cases init with
      | true =>
          rw [if_pos rfl]
          refine hexact (hst.add s accum src d hd0) ?_
          rw [haccum rfl, hsrc, hvalue, BitVec.mul_add]
          congr 1
          exact (BitVec.mul_one x).symm
      | false =>
          rw [if_neg (by decide)]
          refine hexact (hst.copy s src d hd0) ?_
          rw [hsrc, hzero rfl, hvalue]
          exact (BitVec.mul_one x).symm
    · rw [if_neg h0]
      cases init with
      | true =>
          rw [if_pos rfl]
          have hsets := hst.addShifted s src r.shift accum d hd0 hdtmp hapart.accum_tmp (by omega)
            hshift
          rwa [haccum rfl, hsrc, shl_eq_mul, ← BitVec.mul_add, ← value_one hone] at hsets
      | false =>
          rw [if_neg (by decide)]
          have hsets := hst.firstShifted s src r.shift d hd0 hdtmp (by omega) hshift
          rw [hsrc, shl_eq_mul, ← value_one hone] at hsets
          rwa [hzero rfl, show (0 : BitVec 32) + .ofNat 32 r.value = .ofNat 32 r.value from
            BitVec.zero_add _]
  · obtain ⟨hextra, hsets⟩ := does_toTmp hst hsrc hapart.src_tmp (by omega) h31 hshift hholds
    rw [if_neg hone]
    refine ⟨_, some (r.bsl, r.shift), if_pos hextra, ?_⟩
    obtain ⟨u, hdoes, htmp, hsame⟩ := hsets
    have haccumu : u.get accum = s.get accum := hsame _ hapart.accum_tmp hapart.accum_tmp
    have hstep : Sets m (if init then st.add accum st.tmp d else st.copy st.tmp d) u d
        (x * (A + .ofNat 32 r.value)) d := by
      cases init with
      | true =>
          have hsets := hst.add u accum st.tmp d hd0
          rwa [haccumu, haccum rfl, htmp, ← BitVec.mul_add] at hsets
      | false =>
          have hsets := hst.copy u st.tmp d hd0
          rw [htmp] at hsets
          rwa [hzero rfl, show (0 : BitVec 32) + .ofNat 32 r.value = .ofNat 32 r.value from
            BitVec.zero_add _]
    obtain ⟨t, hdoes', hget, hrest⟩ := hstep
    refine ⟨t, hdoes.append hdoes', hget, fun q hq hq' hq'' => ?_, fun hne => ?_, ?_⟩
    · rw [hrest q (hcases q hq hq') (hcases q hq hq'), hsame q hq'' hq'']
    · rw [hrest src (hsrcd hne) (hsrcd hne), hsame src hapart.src_tmp hapart.src_tmp, hsrc]
    · -- the string is still there for those of the same length
      rintro f hf
      injection hf with hf
      subst hf
      refine ⟨by dsimp only; omega, fun q hq hqr => ⟨?_, ?_⟩⟩
      · rcases hbefore q hq with hlt | ⟨-, hlt⟩
        · dsimp only at hqr
          omega
        · exact hlt
      · rw [hrest st.tmp (Ne.symm hdtmp) (Ne.symm hdtmp), htmp, Run.value]

/-- All the steps bring their strings to the accumulator, and the last one the product to the
destination. -/
theorem does_accumulate (hst : st.Sound m) (hapart : Apart st src accum dest) :
    ∀ (steps : List Run) (init : Bool) (found : Option (Nat × Nat)) (A : BitVec 32) (s : Regs),
    steps ≠ [] → (∀ r ∈ steps, 1 ≤ r.bsl ∧ r.bsl ≤ 31 ∧ r.shift ≤ 31) → steps.Pairwise Before →
    Holds st s x found steps → s.get src = x → (init = true → s.get accum = x * A) →
    (init = false → A = 0) →
    ∃ code, accumulate st src accum dest steps init found = some code ∧
      ∃ t, m.Does code s t ∧ t.get dest = x * (A + .ofNat 32 (total steps)) ∧
        ∀ q, q ≠ dest → q ≠ accum → q ≠ st.tmp → t.get q = s.get q := by
  intro steps
  induction steps with
  | nil => exact fun _ _ _ _ h => absurd rfl h
  | cons r rest ih =>
      intro init found A s _ hruns hsorted hholds hsrc haccum hzero
      obtain ⟨hbefore, hsorted⟩ := List.pairwise_cons.1 hsorted
      obtain ⟨h1, h31, hshift⟩ := hruns r List.mem_cons_self
      obtain ⟨c, found', hcode, t, hdoes, hget, hsame, hsrct, hholdst⟩ :=
        accumulate_cons hst hapart h1 h31 hshift hbefore hholds hsrc haccum hzero
      rw [hcode, total_cons]
      by_cases hlast : rest = []
      · subst hlast
        rw [if_pos rfl] at hget
        refine ⟨c ++ [], rfl, t, ?_, ?_, hsame⟩
        · rwa [List.append_nil]
        · rw [hget]
          rfl
      · rw [if_neg hlast] at hget
        obtain ⟨code, hcode', t', hdoes', hget', hsame'⟩ := ih true found'
          (A + .ofNat 32 r.value) t hlast (fun q hq => hruns q (List.mem_cons_of_mem r hq)) hsorted
          hholdst (hsrct hlast) (fun _ => hget) (fun h => by cases h)
        rw [hcode']
        refine ⟨_, rfl, t', hdoes.append hdoes', ?_, fun q hq hq' hq'' => ?_⟩
        · rw [hget', BitVec.ofNat_add, BitVec.add_assoc]
        · rw [hsame' q hq hq' hq'', hsame q hq hq' hq'']

end

/-! ## Constants that are no power of two, nearly -/

section

variable {w : Nat} {constval : BitVec w} {r : Run}

theorem mem_bsTab (h : r ∈ bsTab constval) : 1 ≤ r.bsl ∧ r.shift ≤ 31 := by
  have := (scan_sorted 33 constval 0 0 (Nat.le_refl 0)).2 r h
  omega

theorem length_bsTab (constval : BitVec w) : (bsTab constval).length ≤ 16 := by
  have := length_scan 33 constval 0 0
  rw [if_pos rfl] at this
  rw [bsTab]
  omega

theorem sublist_left (tab : List Run) :
    ((firstRun tab).elim tab tab.erase).Sublist tab := by
  cases firstRun tab with
  | none => exact List.Sublist.refl _
  | some r => exact List.erase_sublist

theorem mem_leftSteps (h : r ∈ leftSteps (bsTab constval)) : r ∈ bsTab constval :=
  (sublist_left _).subset (mem_order.1 h).1

/-- The first string and the steps make up the table. -/
theorem total_leftSteps (constval : BitVec w) :
    (firstRun (bsTab constval)).elim 0 Run.value + total (leftSteps (bsTab constval)) =
      total (bsTab constval) := by
  rw [leftSteps, total_order fun r hr => ⟨(mem_bsTab ((sublist_left _).subset hr)).1,
    le_maxBsl ((sublist_left _).subset hr)⟩]
  cases hfirst : firstRun (bsTab constval) with
  | none => exact Nat.zero_add _
  | some r => exact (total_erase (firstRun_spec hfirst).1).symm

variable {st : Steps I} {m : Machine I Regs Nat} {src dest freeReg : Reg}

/-- The operand is multiplied by the strings of the table, if the assertions hold. -/
theorem does_mulConstComplex (hst : st.Sound m) (hne : constval ≠ -1) (hsrc : src ≠ st.tmp)
    (hdest : dest ≠ 0 ∧ dest ≠ st.tmp) (hfree : freeReg ≠ 0 ∧ freeReg ≠ st.tmp ∧ freeReg ≠ src)
    (s : Regs) :
    if maxBsl (bsTab constval) ≤ 31 ∧ leftSteps (bsTab constval) ≠ [] then
      ∃ code, mulConstComplex st src constval dest freeReg = some code ∧
        ∃ t, m.Does code s t ∧ t.get dest = s.get src * .ofNat 32 (total (bsTab constval)) ∧
          (src ≠ dest → t.get src = s.get src)
    else mulConstComplex st src constval dest freeReg = none := by
  rw [mulConstComplex, if_neg hne]
  dsimp only
  generalize haccum : accumReg src dest freeReg = accum
  have hapart : Apart st src accum dest := by
    rw [accumReg] at haccum
    split at haccum
    · rename_i hsd
      subst haccum
      exact ⟨hsrc, hdest.2, hdest.2, Ne.symm hsd, hdest.1, hdest.1⟩
    · subst haccum
      exact ⟨hsrc, hfree.2.1, hdest.2, hfree.2.2, hfree.1, hdest.1⟩
  have hframe : src ≠ dest → src ≠ accum := fun _ => hapart.accum_src.symm
  by_cases hassert : maxBsl (bsTab constval) ≤ 31 ∧ leftSteps (bsTab constval) ≠ []
  · have hcond : (bsTab constval).length ≤ 16 ∧ bsTab constval ≠ [] ∧
        maxBsl (bsTab constval) ≤ 31 ∧ src ≠ st.tmp ∧ dest ≠ st.tmp ∧ src ≠ accum ∧
        leftSteps (bsTab constval) ≠ [] := by
      refine ⟨length_bsTab _, fun h => hassert.2 ?_, hassert.1, hsrc, hdest.2,
        hapart.accum_src.symm, hassert.2⟩
      rw [h]
      rfl
    rw [if_pos hassert, if_pos hcond]
    have hruns : ∀ r ∈ leftSteps (bsTab constval), 1 ≤ r.bsl ∧ r.bsl ≤ 31 ∧ r.shift ≤ 31 := by
      intro r hr
      have hmem := mem_leftSteps hr
      have hbits := mem_bsTab hmem
      exact ⟨hbits.1, (le_maxBsl hmem).trans hassert.1, hbits.2⟩
    have hsorted : (leftSteps (bsTab constval)).Pairwise Before :=
      order_sorted ((scan_sorted 33 constval 0 0 (Nat.le_refl 0)).1.sublist (sublist_left _)) _
    have hholds : ∀ s', Holds st s' (s.get src) none (leftSteps (bsTab constval)) :=
      fun _ _ hf => by cases hf
    have htotal := total_leftSteps constval
    cases hfirst : firstRun (bsTab constval) with
    | none =>
        rw [hfirst] at htotal
        obtain ⟨code, hcode, t, hdoes, hget, hsame⟩ := does_accumulate hst hapart _ false none 0 s
          hassert.2 hruns hsorted (hholds s) rfl (fun h => by cases h) (fun _ => rfl)
        refine ⟨[] ++ code, congrArg _ hcode, t, hdoes, ?_, fun hsd =>
          hsame src hsd (hframe hsd) hsrc⟩
        rw [hget, ← htotal]
        congr 1
        exact (BitVec.zero_add _).trans (congrArg _ (Nat.zero_add _).symm)
    | some r =>
        rw [hfirst] at htotal
        obtain ⟨hmem, hone, hshift⟩ := firstRun_spec hfirst
        obtain ⟨u, hdoesu, hgetu, hsameu⟩ := hst.shift s src r.shift accum hapart.accum_zero
          (by omega) (mem_bsTab hmem).2
        obtain ⟨code, hcode, t, hdoes, hget, hsame⟩ := does_accumulate hst hapart _ true none
          (.ofNat 32 r.value) u hassert.2 hruns hsorted (hholds u)
          (hsameu src hapart.accum_src.symm hapart.accum_src.symm)
          (fun _ => by rw [hgetu, shl_eq_mul, value_one hone]) (fun h => by cases h)
        refine ⟨_ ++ code, congrArg _ hcode, t, hdoesu.append hdoes, ?_, fun hsd => ?_⟩
        · rw [hget, ← htotal, ← BitVec.ofNat_add]
          rfl
        · rw [hsame src hsd (hframe hsd) hsrc, hsameu src (hframe hsd) (hframe hsd)]
  · rw [if_neg hassert, if_neg]
    exact fun h => hassert ⟨h.2.2.1, h.2.2.2.2.2.2⟩

end

end Tendra.Ref.Trans
