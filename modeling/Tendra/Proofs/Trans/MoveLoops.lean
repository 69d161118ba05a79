import Tendra.Proofs.Trans.Alpha

/-!
# The loops of a block move

Each loop is run by a rule: what holds at its head, and is kept each time round, holds
where control leaves it. A loop for words leaves the move where its two accesses do not
fit, goes to the end of the move with nothing left or to the loop after it with what does
not fill a word.
-/

namespace Tendra.Ref.Trans.Alpha

open Machine

/-- A move is to go on with so many bytes from one address to another. -/
structure At (r : MoveRegs) (s : State) (n : Nat) (dest src : BitVec 64) (m : Mem) : Prop where
  size : s.get r.sizereg = BitVec.ofNat 64 n
  dest : s.get r.dest = dest
  src : s.get r.src = src
  mem : s.mem = m

/-- An instruction loads so many bytes, at an address that it fits. -/
def Loads (env : Env MoveLabel) (load : MemOp) (bytes : Nat) (val : Mem → BitVec 64 → BitVec 64) :
    Prop :=
  ∀ reg a s, load.access env reg a s =
    if Fits env a bytes then some (s.set reg (val s.mem a)) else none

variable {env : Env MoveLabel} {r : MoveRegs} {s : State} {n bytes : Nat}
  {d a offset : BitVec 64} {m : Mem} {load : MemOp} {val : Mem → BitVec 64 → BitVec 64}
  {adjust : Op}

theorem loads_ldq : Loads env .ldq 8 quad := fun _ _ _ => rfl

theorem loads_ldl : Loads env .ldl 4 fun m a => (long m a).signExtend 64 := fun _ _ _ => rfl

/-- A register of a move is another one than those that follow it, or come before it. -/
theorem MoveRegs.apart (r : MoveRegs) :
    [r.dest, r.src, r.sizereg, r.movereg, r.rtest, r.rtmp, r.rtmp2, atReg, 31].Nodup ∧
      [31, atReg, r.rtmp2, r.rtmp, r.rtest, r.movereg, r.sizereg, r.src, r.dest].Nodup :=
  ⟨r.distinct, List.nodup_reverse.2 r.distinct⟩

theorem At.congr {t : State} (h : At r s n d a m) (hsize : t.get r.sizereg = s.get r.sizereg)
    (hdest : t.get r.dest = s.get r.dest) (hsrc : t.get r.src = s.get r.src) :
    At r t n d a t.mem :=
  ⟨hsize.trans h.size, hdest.trans h.dest, hsrc.trans h.src, rfl⟩

variable (env adjust) in
theorem adjust_does (h : At r s n d a m) (hn : bytes ≤ n) : ∃ t,
    (machine env).Does [.operateFmtImmediate adjust r.src (BitVec.ofNat 64 bytes) r.src,
      .operateFmtImmediate adjust r.dest (BitVec.ofNat 64 bytes) r.dest,
      .operateFmtImmediate .subq r.sizereg (BitVec.ofNat 64 bytes) r.sizereg] s t ∧
    At r t (n - bytes) (adjust.apply d (BitVec.ofNat 64 bytes))
      (adjust.apply a (BitVec.ofNat 64 bytes)) m := by
  have hapart := r.apart
  simp [List.nodup_cons] at hapart
  refine ⟨_, (does_cons rfl).2 ((does_cons rfl).2 (does_one rfl)), ?_, ?_, ?_, ?_⟩
  · simp only [State.get_set, hapart, not_false_eq_true, ne_eq, if_true, if_false, h.size, Op.apply]
    exact ofNat_sub_ofNat hn
  · simp [hapart, h.dest]
  · simp [hapart, h.src]
  · exact h.mem

theorem loadWord_exec (hload : Loads env load bytes val) (h : At r s n d a m)
    (ha : Fits env (a + offset) bytes) :
    exec env (.loadStore load r.movereg ⟨.reg r.src, offset⟩) s =
      some (s.set r.movereg (val m (a + offset)), .step) := by
  rw [exec, address_reg, hload, h.src, if_pos ha, h.mem]
  rfl

variable (adjust) in
theorem wordBody_does (hload : Loads env load bytes val) (h : At r s n d a m) (hn : bytes ≤ n)
    (ha : Fits env (a + offset) bytes) (hd : Fits env (d + offset) 8) :
    ∃ t, (machine env).Does (wordBody r load (BitVec.ofNat 64 bytes) offset adjust) s t ∧
      At r t (n - bytes) (adjust.apply d (BitVec.ofNat 64 bytes))
        (adjust.apply a (BitVec.ofNat 64 bytes)) (store m (d + offset) (val m (a + offset))) := by
  have hapart := r.apart
  simp [List.nodup_cons] at hapart
  have hstored : exec env (.loadStore .stq r.movereg ⟨.reg r.dest, offset⟩)
      (s.set r.movereg (val m (a + offset))) =
      some ({ s.set r.movereg (val m (a + offset)) with
        mem := store m (d + offset) (val m (a + offset)) }, .step) := by
    simp [exec, MemOp.access, hapart, h.dest, hd, h.mem]
  obtain ⟨t, ht, hat⟩ := adjust_does env adjust
    (h.congr (t := { s.set r.movereg (val m (a + offset)) with
      mem := store m (d + offset) (val m (a + offset)) })
      (by simp [hapart]) (by simp [hapart]) (by simp [hapart])) hn
  exact ⟨t, (does_cons (loadWord_exec hload h ha)).2 ((does_cons hstored).2 ht), hat⟩

variable (env offset adjust) in
theorem byteBody_does (h : At r s n d a m) (hn : 1 ≤ n) :
    ∃ t, (machine env).Does (byteBody r offset adjust) s t ∧
      At r t (n - 1) (adjust.apply d 1) (adjust.apply a 1)
        (Function.update m (d + offset) (m (a + offset))) := by
  have hapart := r.apart
  simp [List.nodup_cons] at hapart
  obtain ⟨u, hu, hat⟩ : ∃ u, (machine env).Does [.loadStore .ldqU r.movereg ⟨.reg r.src, offset⟩,
      .loadStore .lda atReg ⟨.reg r.src, offset⟩,
      .operateFmt .extbl r.movereg atReg r.movereg,
      .loadStore .lda atReg ⟨.reg r.dest, offset⟩,
      .loadStore .ldqU r.rtmp ⟨.reg r.dest, offset⟩,
      .operateFmt .insbl r.movereg atReg r.rtmp2,
      .operateFmt .mskbl r.rtmp atReg r.rtmp,
      .operateFmt .bis r.rtmp r.rtmp2 r.rtmp,
      .loadStore .stqU r.rtmp ⟨.reg r.dest, offset⟩] s u ∧
      At r u n d a (Function.update m (d + offset) (m (a + offset))) := by
    refine ⟨_, (does_cons rfl).2 ((does_cons rfl).2 ((does_cons rfl).2 ((does_cons rfl).2
      ((does_cons rfl).2 ((does_cons rfl).2 ((does_cons rfl).2 ((does_cons rfl).2
      (does_one rfl)))))))), ?_, ?_, ?_, ?_⟩
    · simp [hapart, h.size]
    · simp [hapart, h.dest]
    · simp [hapart, h.src]
    · simp [hapart, h.src, h.dest, h.mem, Op.apply, -BitVec.toNat_add, extract_byte,
        byte_setWidth, store_byte]
  obtain ⟨t, ht, hat'⟩ := adjust_does env adjust hat hn
  exact ⟨t, hu.append ht, hat'⟩


section

variable {prog rest cnext : List (Ins MoveLabel)} {lab next : MoveLabel}

variable (bytes) in
/-- The test of the loops for words, and the jump past them. -/
theorem wordLoop_head (hnext : (machine env).after next prog = some cnext)
    (h : At r s n d a m) (c : List (Ins MoveLabel)) :
    ∃ t, At r t n d a m ∧ (machine env).Reaches prog
      (.inside (.operateFmtImmediate .cmplt r.sizereg (BitVec.ofNat 64 bytes) r.rtest ::
        .integerBranch .bne r.rtest next :: c), s)
      (if (BitVec.ofNat 64 n).toInt < (BitVec.ofNat 64 bytes).toInt then .inside cnext
        else .inside c, t) := by
  have hapart := r.apart
  simp [List.nodup_cons] at hapart
  let t := s.set r.rtest (Op.cmplt.apply (s.get r.sizereg) (BitVec.ofNat 64 bytes))
  have hcmp : (machine env).exec
      (.operateFmtImmediate .cmplt r.sizereg (BitVec.ofNat 64 bytes) r.rtest) s =
      some (t, .step) := rfl
  have hbranch : (machine env).exec (.integerBranch .bne r.rtest next) t = some (t,
      if (BitVec.ofNat 64 n).toInt < (BitVec.ofNat 64 bytes).toInt then .jump next else .step) := by
    have hget : t.get r.rtest = Op.cmplt.apply (s.get r.sizereg) (BitVec.ofNat 64 bytes) := by
      simp [t, hapart]
    simp only [exec_machine, exec, hget, cmplt_holds, h.size, decide_eq_true_eq]
  have hgoes : (machine env).goes prog c (if (BitVec.ofNat 64 n).toInt <
      (BitVec.ofNat 64 bytes).toInt then .jump next else .step) =
      if (BitVec.ofNat 64 n).toInt < (BitVec.ofNat 64 bytes).toInt then .inside cnext
        else .inside c := by
    split
    · exact target_of_after hnext
    · rfl
  refine ⟨t, ⟨?_, ?_, ?_, h.mem⟩, ?_⟩
  · simp [t, hapart, h.size]
  · simp [t, hapart, h.dest]
  · simp [t, hapart, h.src]
  · rw [← hgoes]
    exact (reaches_step hcmp _).trans (reaches_step hbranch c)

/-- What a loop for words comes to: an access that has no result, the loop after it, or the end
of the move. -/
def WordExit (env : Env MoveLabel) (r : MoveRegs) (prog cnext cend : List (Ins MoveLabel))
    (bytes n : Nat) (offset : BitVec 64) (P : Nat → BitVec 64 → BitVec 64 → Mem → Prop)
    (b : Place (Ins MoveLabel) MoveLabel × State) : Prop :=
  ((machine env).Stuck prog b ∧ ∃ n d a m, bytes ≤ n ∧ P n d a m ∧
    ¬ (Fits env (a + offset) bytes ∧ Fits env (d + offset) 8)) ∨
  ∃ d a m t, At r t (n % bytes) d a m ∧ P (n % bytes) d a m ∧
    (b = (.inside cnext, t) ∨ n % bytes = 0 ∧ b = (.inside cend, t))

variable {cend : List (Ins MoveLabel)} {P : Nat → BitVec 64 → BitVec 64 → Mem → Prop}

theorem wordBody_stuck (hload : Loads env load bytes val) (h : At r s n d a m)
    (hfits : ¬ (Fits env (a + offset) bytes ∧ Fits env (d + offset) 8)) :
    (machine env).run (wordBody r load (BitVec.ofNat 64 bytes) offset adjust) .step s = none := by
  have hapart : r.dest ≠ r.movereg ∧ r.movereg ≠ 31 := by
    have := r.apart
    simp [List.nodup_cons] at this
    simp [this]
  by_cases ha : Fits env (a + offset) bytes
  · rw [wordBody, run_cons (loadWord_exec hload h ha), Machine.run, exec_machine, exec,
      address_reg, State.get_set hapart.2, if_neg hapart.1, h.dest, MemOp.access,
      if_neg fun hd => hfits ⟨ha, hd⟩]
    rfl
  · rw [wordBody, Machine.run, exec_machine, exec, address_reg, hload, h.src, if_neg ha]
    rfl

theorem wordBody_plain :
    (machine env).Plain (wordBody r load (BitVec.ofNat 64 bytes) offset adjust) :=
  plain_of_straight (by simp [wordBody, Ins.straight])

theorem byteBody_plain : (machine env).Plain (byteBody r offset adjust) :=
  plain_of_straight (by simp [byteBody, Ins.straight])

theorem wordLoop_leads (hload : Loads env load bytes val) (hbytes : 0 < bytes)
    (hlt : bytes < 2 ^ 63)
    (hlab : (machine env).after lab prog = some
      ((wordLoop r lab next load (BitVec.ofNat 64 bytes) offset adjust).tail ++ rest))
    (hnext : (machine env).after next prog = some cnext)
    (hend : (machine env).after .endlab prog = some cend)
    (hP : ∀ n d a m, bytes ≤ n → P n d a m → Fits env (a + offset) bytes →
      Fits env (d + offset) 8 → P (n - bytes) (adjust.apply d (BitVec.ofNat 64 bytes))
        (adjust.apply a (BitVec.ofNat 64 bytes)) (store m (d + offset) (val m (a + offset))))
    (h : At r s n d a m) (hn : n < 2 ^ 63) (hp : P n d a m) :
    (machine env).Leads prog (.inside
      ((wordLoop r lab next load (BitVec.ofNat 64 bytes) offset adjust).tail ++ rest), s)
      (WordExit env r prog cnext cend bytes n offset P) := by
  induction n using Nat.strongRecOn generalizing s d a m with
  | ind n ih =>
      obtain ⟨t, hat, hreach⟩ := wordLoop_head bytes hnext h
        ((wordBody r load (BitVec.ofNat 64 bytes) offset adjust ++
          [.integerBranch .beq r.sizereg .endlab, .integerBranch .br 31 lab]) ++ rest)
      refine hreach.leads ?_
      rw [if_congr (toInt_ofNat_lt hn hlt) rfl rfl]
      by_cases hlt' : n < bytes
      · rw [if_pos hlt']
        refine .refl (.inr ⟨d, a, m, t, ?_⟩)
        rw [Nat.mod_eq_of_lt hlt']
        exact ⟨hat, hp, .inl rfl⟩
      · have hle := Nat.le_of_not_lt hlt'
        rw [if_neg hlt', List.append_assoc]
        by_cases hfits : Fits env (a + offset) bytes ∧ Fits env (d + offset) 8
        · obtain ⟨u, hu, hat'⟩ := wordBody_does adjust hload hat hle hfits.1 hfits.2
          refine (hu.reaches wordBody_plain).leads ?_
          have hp' := hP n d a m hle hp hfits.1 hfits.2
          have hmod : n % bytes = (n - bytes) % bytes := Nat.mod_eq_sub_mod hle
          by_cases hzero : n - bytes = 0
          · have hbranch : exec env (.integerBranch .beq r.sizereg .endlab) u =
              some (u, .jump .endlab) := by
              rw [exec, hat'.size, hzero]
              rfl
            refine (reaches_step hbranch _).leads ?_
            have hrest : n % bytes = n - bytes := by rw [hmod, hzero, Nat.zero_mod]
            rw [← hrest] at hat' hp'
            refine .refl (.inr ⟨_, _, _, u, hat', hp', .inr ⟨hrest.trans hzero, ?_⟩⟩)
            rw [goes, target_of_after hend]
          · have hbranch : exec env (.integerBranch .beq r.sizereg .endlab) u =
                some (u, .step) := by
              have hne : BitVec.ofNat 64 (n - bytes) ≠ 0 := ofNat_ne_zero hzero (by omega)
              rw [exec, hat'.size, Test.holds, decide_eq_false hne]
              rfl
            refine (reaches_step hbranch _).leads ?_
            have hback : exec env (.integerBranch .br 31 lab) u = some (u, .jump lab) := rfl
            refine (reaches_step hback _).leads ?_
            rw [goes, target_of_after hlab]
            refine (ih (n - bytes) (by omega) hat' (by omega) hp').imp fun b hb => ?_
            rw [WordExit, hmod]
            exact hb
        · exact (stuck_of_run (wordBody_stuck hload hat hfits) wordBody_plain).imp
            fun b hb => .inl ⟨hb, n, d, a, m, hle, hp, hfits⟩

theorem byteLoop_leads
    (hlab : (machine env).after .byteLab prog = some
      ((byteLoop r offset adjust).tail ++ [.setLabel .endlab]))
    (hend : (machine env).after .endlab prog = some [])
    (hP : ∀ n d a m, 1 ≤ n → P n d a m → P (n - 1) (adjust.apply d 1) (adjust.apply a 1)
      (Function.update m (d + offset) (m (a + offset))))
    (h : At r s n d a m) (hn : n < 2 ^ 64) (hp : P n d a m) :
    (machine env).Leads prog
      (.inside ((byteLoop r offset adjust).tail ++ [.setLabel .endlab]), s)
      fun b => ∃ d a m t, At r t 0 d a m ∧ P 0 d a m ∧ b = (.inside [], t) := by
  induction n using Nat.strongRecOn generalizing s d a m with
  | ind n ih =>
      by_cases hzero : n = 0
      · subst hzero
        have hbranch : exec env (.integerBranch .beq r.sizereg .endlab) s =
            some (s, .jump .endlab) := by
          rw [exec, h.size]
          rfl
        refine (reaches_step hbranch _).leads (.refl ⟨d, a, m, s, h, hp, ?_⟩)
        rw [goes, target_of_after hend]
      · have hbranch : exec env (.integerBranch .beq r.sizereg .endlab) s =
            some (s, .step) := by
          rw [exec, h.size, Test.holds, decide_eq_false (ofNat_ne_zero hzero hn)]
          rfl
        have hle : 1 ≤ n := Nat.one_le_iff_ne_zero.2 hzero
        refine (reaches_step hbranch _).leads ?_
        rw [goes]
        rw [List.append_eq, List.append_assoc]
        obtain ⟨u, hu, hat⟩ := byteBody_does env offset adjust h hle
        refine (hu.reaches byteBody_plain).leads ?_
        have hp' := hP n d a m hle hp
        by_cases hone : n - 1 = 0
        · have hback : exec env (.integerBranch .bne r.sizereg .byteLab) u = some (u, .step) := by
            rw [exec, hat.size, hone]
            rfl
          have hset : exec env (.setLabel .endlab) u = some (u, .step) := rfl
          refine (reaches_step hback _).leads ((reaches_step hset _).leads ?_)
          rw [hone] at hat hp'
          exact .refl ⟨_, _, _, u, hat, hp', rfl⟩
        · have hback : exec env (.integerBranch .bne r.sizereg .byteLab) u =
              some (u, .jump .byteLab) := by
            rw [exec, hat.size, Test.holds, decide_eq_true (ofNat_ne_zero hone (by omega))]
            rfl
          refine (reaches_step hback _).leads ?_
          rw [goes, target_of_after hlab]
          exact ih (n - 1) (by omega) hat (by omega) hp'

end

end Tendra.Ref.Trans.Alpha
