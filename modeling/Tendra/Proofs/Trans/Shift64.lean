import Mathlib.Algebra.Group.Nat.Defs
import Tendra.Lib.Halves
import Tendra.Ref.Trans.X86

/-!
# Shifts and rotations of 64 bits on x86

## Words in memory and registers

A word that is written is what is read there, and no other word that does not overlap
with it changes.
-/

namespace Tendra.Ref.Trans.X86

variable {t : State} {shft : Nat}

section

variable {m : Mem} {a b v : BitVec 32}

theorem store_byte (m : Mem) (a v : BitVec 32) {i : Nat} (hi : i < 4) :
    store m a v (a + BitVec.ofNat 32 i) = v.extractLsb' (8 * i) 8 := by
  have hsub : (a + BitVec.ofNat 32 i - a).toNat = i := by
    rw [BitVec.add_comm, BitVec.add_sub_cancel, BitVec.toNat_ofNat]
    omega
  rw [store, hsub, if_pos hi]

/-- A word as its bytes. -/
theorem append_bytes (v : BitVec 32) :
    v.extractLsb' 24 8 ++ v.extractLsb' 16 8 ++ v.extractLsb' 8 8 ++ v.extractLsb' 0 8 = v := by
  have h16 : v.extractLsb' 24 8 ++ v.extractLsb' 16 8 = v.extractLsb' 16 16 :=
    BitVec.extractLsb'_append_extractLsb'_eq_extractLsb' rfl
  have h8 : v.extractLsb' 16 16 ++ v.extractLsb' 8 8 = v.extractLsb' 8 24 :=
    BitVec.extractLsb'_append_extractLsb'_eq_extractLsb' rfl
  have h0 : v.extractLsb' 8 24 ++ v.extractLsb' 0 8 = v.extractLsb' 0 32 :=
    BitVec.extractLsb'_append_extractLsb'_eq_extractLsb' rfl
  rw [h16, h8, h0, BitVec.extractLsb'_eq_self]

theorem load_store (m : Mem) (a v : BitVec 32) : load (store m a v) a = v := by
  have h0 := store_byte m a v (i := 0) (by omega)
  rw [BitVec.add_zero] at h0
  rw [load, h0]
  change store m a v (a + BitVec.ofNat 32 3) ++ store m a v (a + BitVec.ofNat 32 2) ++
    store m a v (a + BitVec.ofNat 32 1) ++ _ = v
  rw [store_byte m a v (by omega), store_byte m a v (by omega), store_byte m a v (by omega)]
  exact append_bytes v

/-- A word that does not overlap with the one written. -/
theorem load_store_ne (h : 4 ≤ (b - a).toNat) (h' : (b - a).toNat ≤ 2 ^ 32 - 4) :
    load (store m a v) b = load m b := by
  have hne : ∀ i < 4, store m a v (b + BitVec.ofNat 32 i) = m (b + BitVec.ofNat 32 i) := by
    intro i hi
    rw [store, if_neg]
    have hsub : b + BitVec.ofNat 32 i - a = (b - a) + BitVec.ofNat 32 i := by
      rw [BitVec.sub_eq_add_neg, BitVec.sub_eq_add_neg, BitVec.add_assoc, BitVec.add_assoc,
        BitVec.add_comm (BitVec.ofNat 32 i)]
    rw [hsub, BitVec.toNat_add, BitVec.toNat_ofNat]
    omega
  have h0 := hne 0 (by omega)
  rw [BitVec.add_zero] at h0
  rw [load, load, h0]
  exact congrArg (· ++ m b) (congrArg₂ (· ++ ·) (congrArg₂ (· ++ ·) (hne 3 (by omega))
    (hne 2 (by omega))) (hne 1 (by omega)))

end

section

variable (s : State) (r : Reg) (a v : BitVec 32) (f : Option (BitVec 32 × BitVec 32))

@[simp] theorem regs_set : (s.set r v).regs = Function.update s.regs r v := rfl

end

/-!
## When a shift or a rotation of 64 bits is exact

The shifts are. A rotation shifts each half into itself, as the double shifts take the
half that they shift for the source too, so that it is right only where the halves agree
in the bits that should cross over. With something more on the stack, where `ind_sp` does
not lead to the copies, it is one of the halves or none that is rotated.
-/

open Machine

/-- A word above an address. -/
def slot (q : BitVec 32) (i : Nat) : BitVec 32 := q + BitVec.ofNat 32 (4 * i)

theorem load_store_slot (m : Mem) (q v : BitVec 32) {i j : Nat} (hi : i < 2 ^ 29)
    (hj : j < 2 ^ 29) :
    load (store m (slot q i) v) (slot q j) = if j = i then v else load m (slot q j) := by
  split
  · next h => rw [h, load_store]
  · next h =>
      have hsub : slot q j - slot q i = BitVec.ofNat 32 (4 * j) - BitVec.ofNat 32 (4 * i) := by
        rw [slot, slot, BitVec.sub_eq_add_neg, BitVec.sub_eq_add_neg, BitVec.neg_add,
          BitVec.add_comm q, BitVec.add_assoc, BitVec.sub_eq_add_neg, ← BitVec.add_assoc q,
          BitVec.add_right_neg, BitVec.zero_add]
      refine load_store_ne ?_ ?_
      all_goals
        rw [hsub, BitVec.toNat_sub, BitVec.toNat_ofNat, BitVec.toNat_ofNat]
        omega

section

variable {s : State} {count : Operand} {n w : Nat}

theorem exec_ins3 (h : t.count count = some n) (i : Ins3) (r base : Reg) (disp : BitVec 32) :
    exec (.ins3 i count (.reg r) (.ind base disp)) t =
      some ((t.write (t.regs base + disp)
        (i.apply n (t.regs r) (load t.mem (t.regs base + disp)))).setFlags none, .step) := by
  rw [exec, Ins3.exec, h]
  rfl

/-- What the rotation of the halves does, with `w` words more on the stack. -/
theorem dshHalves_does (dsh : Ins3)
    (hcount : ∀ t : State, t.regs .ecx = s.regs .ecx → t.count count = some n)
    (hw : 32 * w + 64 < 2 ^ 31) : ∃ t, machine.Does (dshHalves dsh count (32 * w)) s t ∧
    t.regs reg0 = (if w = 0 then dsh.apply n (s.regs reg0) (s.regs reg0) else s.regs reg0) ∧
    t.regs reg1 = (if w = 0 then dsh.apply n (s.regs reg1) (s.regs reg1)
      else if w = 1 then dsh.apply n (s.regs reg0) (s.regs reg1) else s.regs reg1) ∧
    t.regs reg2 = s.regs reg2 := by
  have hone : indSp (32 * w + 64) (-32) = .ind .esp (BitVec.ofNat 32 (4 * (w + 1))) := by
    rw [indSp, show (-32 + ((32 * w + 64 : Nat) : Int)) / 8 = ((4 * (w + 1) : Nat) : Int) from by
      omega]
    rfl
  have hzero : indSp (32 * w + 64) (-64) = .ind .esp (BitVec.ofNat 32 (4 * w)) := by
    rw [indSp, show (-64 + ((32 * w + 64 : Nat) : Int)) / 8 = ((4 * w : Nat) : Int) from by
      omega]
    rfl
  generalize hq : s.regs .esp - 4 - 4 = q
  have hslot : s.regs .esp - 4 = slot q 1 := by
    rw [← hq]
    exact (BitVec.sub_add_cancel _ 4).symm
  have hslot0 : q = slot q 0 := (BitVec.add_zero q).symm
  let s1 := (s.set .esp (slot q 1)).write (slot q 1) (s.regs reg1)
  let s2 := (s1.set .esp q).write q (s.regs reg0)
  have h1 : exec (.ins1 .pushl (.reg reg1)) s = some (s1, .step) := by
    rw [exec, Ins1.exec, hslot]
    rfl
  have h2 : exec (.ins1 .pushl (.reg reg0)) s1 = some (s2, .step) := by
    have hesp : s1.regs .esp - 4 = q := (congrArg (· - 4) hslot.symm).trans hq
    rw [exec, Ins1.exec, hesp]
    rfl
  have hmem : ∀ j < 2 ^ 29, load s2.mem (slot q j) =
      if j = 0 then s.regs reg0 else if j = 1 then s.regs reg1 else load s.mem (slot q j) := by
    intro j hj
    have hlo := load_store_slot s1.mem q (s.regs reg0) (Nat.two_pow_pos 29) hj
    have hhi := load_store_slot s.mem q (s.regs reg1) (show 1 < 2 ^ 29 by omega) hj
    rw [← hslot0] at hlo
    rw [show s2.mem = store s1.mem q (s.regs reg0) from rfl, hlo,
      show s1.mem = store s.mem (slot q 1) (s.regs reg1) from rfl, hhi]
  have h3 := exec_ins3 (hcount s2 rfl) dsh reg1 .esp (BitVec.ofNat 32 (4 * (w + 1)))
  change exec _ s2 = some (State.setFlags (s2.write (slot q (w + 1)) (dsh.apply n (s.regs reg1)
    (load s2.mem (slot q (w + 1))))) none, .step) at h3
  generalize hs3 : State.setFlags (s2.write (slot q (w + 1)) (dsh.apply n (s.regs reg1)
    (load s2.mem (slot q (w + 1))))) none = s3 at h3
  have hregs3 : s3.regs = s2.regs := by rw [← hs3]; rfl
  have hmem3 : s3.mem = store s2.mem (slot q (w + 1)) (dsh.apply n (s.regs reg1)
    (load s2.mem (slot q (w + 1)))) := by rw [← hs3]; rfl
  have h4 := exec_ins3 (hcount s3 (by rw [hregs3]; rfl)) dsh reg0 .esp (BitVec.ofNat 32 (4 * w))
  rw [hregs3] at h4
  change exec _ s3 = some (State.setFlags (s3.write (slot q w) (dsh.apply n (s.regs reg0)
    (load s3.mem (slot q w)))) none, .step) at h4
  generalize hs4 : State.setFlags (s3.write (slot q w) (dsh.apply n (s.regs reg0)
    (load s3.mem (slot q w)))) none = s4 at h4
  have hregs4 : s4.regs = s2.regs := by rw [← hs4]; exact hregs3
  have hmem4 : s4.mem = store s3.mem (slot q w) (dsh.apply n (s.regs reg0)
    (load s3.mem (slot q w))) := by rw [← hs4]; rfl
  have hget3 : ∀ j < 2, load s3.mem (slot q j) = if j = w + 1 then
      dsh.apply n (s.regs reg1) (load s2.mem (slot q (w + 1))) else load s2.mem (slot q j) :=
    fun j hj => hmem3 ▸ load_store_slot _ _ _ (by omega) (by omega)
  have hget4 : ∀ j < 2, load s4.mem (slot q j) = if j = w then
      dsh.apply n (s.regs reg0) (load s3.mem (slot q w)) else load s3.mem (slot q j) :=
    fun j hj => hmem4 ▸ load_store_slot _ _ _ (by omega) (by omega)
  rw [dshHalves, hone, hzero]
  refine ⟨_, (does_cons h1).2 ((does_cons h2).2 ((does_cons h3).2 ((does_cons h4).2
    ((does_cons rfl).2 (does_one rfl))))), ?_, ?_, ?_⟩
  · change load s4.mem (s4.regs .esp) = _
    rw [hregs4, show s2.regs .esp = slot q 0 from hslot0, hget4 0 (by omega)]
    obtain rfl | hw0 := Nat.eq_zero_or_pos w
    · rw [if_pos rfl, if_pos rfl, hget3 0 (by omega), if_neg (by omega), hmem 0 (by omega),
        if_pos rfl]
    · rw [if_neg (by omega), if_neg (by omega), hget3 0 (by omega), if_neg (by omega),
        hmem 0 (by omega), if_pos rfl]
  · change load s4.mem (s4.regs .esp + 4) = _
    rw [hregs4, show s2.regs .esp + 4 = slot q 1 from rfl, hget4 1 (by omega)]
    have hhi : load s2.mem (slot q 1) = s.regs reg1 := hmem 1 (by omega)
    obtain rfl | rfl | hw1 : w = 0 ∨ w = 1 ∨ 2 ≤ w := by omega
    · rw [if_neg (by omega), if_pos rfl, hget3 1 (by omega), if_pos rfl, hhi]
    · rw [if_pos rfl, if_neg (by omega), if_pos rfl, hget3 1 (by omega), if_neg (by omega), hhi]
    · rw [if_neg (by omega), if_neg (by omega), if_neg (by omega), hget3 1 (by omega),
        if_neg (by omega), hhi]
  · change s4.regs .ecx = _
    rw [hregs4]
    rfl

theorem exec_shll (h : t.count count = some n) (r : Reg) :
    exec (.ins2 .shll count (.reg r)) t =
      some ((t.set r (t.regs r <<< n)).setFlags none, .step) := by
  rw [exec, Ins2.exec, h]
  rfl

/-- A right shift of a word, by the sign or not. -/
def shiftedRight (sig : Bool) {k : Nat} (x : BitVec k) (n : Nat) : BitVec k :=
  if sig then x.sshiftRight n else x >>> n

theorem exec_shiftRight (h : t.count count = some n) (sig : Bool) (r : Reg) :
    exec (.ins2 (if sig then .sarl else .shrl) count (.reg r)) t =
      some ((t.set r (shiftedRight sig (t.regs r) n)).setFlags none, .step) := by
  cases sig <;> simp [exec, Ins2.exec, h, shiftedRight]

theorem exec_dsh (h : t.count count = some n) (i : Ins3) (r r' : Reg) :
    exec (.ins3 i count (.reg r) (.reg r')) t =
      some ((t.set r' (i.apply n (t.regs r) (t.regs r'))).setFlags none, .step) := by
  rw [exec, Ins3.exec, h]
  rfl

theorem exec_fillHigh (sig : Bool) (t : State) : ∃ f, exec (fillHigh sig) t =
    some ((t.set reg1 (if sig then (t.regs reg1).sshiftRight 31 else 0)).setFlags f, .step) := by
  cases sig
  · exact ⟨t.flags, rfl⟩
  · exact ⟨none, rfl⟩

/-- What the operation is to make of a number. -/
def shifted (shft : Nat) (sig : Bool) (x : BitVec 64) (n : Nat) : BitVec 64 :=
  match shft with
  | 0 => x <<< n
  | 1 => if sig then x.sshiftRight n else x >>> n
  | 2 => x.rotateRight n
  | _ => x.rotateLeft n

/-- What the rotation of the halves makes of a number. -/
def rotatedHalves (dsh : Ins3) (n w : Nat) (hi lo : BitVec 32) : BitVec 64 :=
  (if w = 0 then dsh.apply n hi hi else if w = 1 then dsh.apply n lo hi else hi) ++
    (if w = 0 then dsh.apply n lo lo else lo)

/-- What the sequences make of a number. -/
def made (shft : Nat) (sig : Bool) (n w : Nat) (hi lo : BitVec 32) : BitVec 64 :=
  if shft < 2 then shifted shft sig (hi ++ lo) n
  else rotatedHalves (if shft = 2 then .shrdl else .shldl) n w hi lo

theorem fewPlaces_does (shft : Nat) (sig : Bool) (hn : n < 32)
    (hcount : ∀ t : State, t.regs .ecx = s.regs .ecx → t.count count = some n)
    (hw : 32 * w + 64 < 2 ^ 31) :
    ∃ t, machine.Does (fewPlaces shft sig count (32 * w)) s t ∧
    t.pair = made shft sig n w (s.regs reg1) (s.regs reg0) := by
  match shft with
  | 0 =>
      have hdsh := exec_dsh (hcount s rfl) .shldl reg0 reg1
      refine ⟨_, (does_cons hdsh).2 (does_one (exec_shll (hcount _ (by rfl)) _)), ?_⟩
      exact (append_shiftLeft (Nat.le_of_lt hn)).symm
  | 1 =>
      have hdsh := exec_dsh (hcount s rfl) .shrdl reg1 reg0
      refine ⟨_, (does_cons hdsh).2 (does_one (exec_shiftRight (hcount _ (by rfl)) sig _)), ?_⟩
      cases sig
      · exact (append_ushiftRight (Nat.le_of_lt hn)).symm
      · exact (append_sshiftRight (Nat.le_of_lt hn) (by omega)).symm
  | shft + 2 =>
      obtain ⟨t, hdoes, h0, h1, -⟩ := dshHalves_does (if shft + 2 = 2 then .shrdl else .shldl)
        hcount hw
      refine ⟨t, hdoes, ?_⟩
      rw [State.pair, h0, h1, made, if_neg (Nat.not_lt.2 (Nat.le_add_left 2 shft)), rotatedHalves]

/-- What the whole sequence makes of a number. -/
def result (shft : Nat) (sig : Bool) (n w : Nat) (hi lo : BitVec 32) : BitVec 64 :=
  if n < 32 then made shft sig n w hi lo
  else if shft < 2 then shifted shft sig (hi ++ lo) n
  else if n = 32 then lo ++ hi
  else made (5 - shft) sig (64 - n) w hi lo

theorem shifted_zero (shft : Nat) (sig : Bool) (x : BitVec 64) : shifted shft sig x 0 = x := by
  match shft with
  | 0 => exact BitVec.shiftLeft_zero x
  | 1 => cases sig <;> simp [shifted]
  | 2 => exact BitVec.eq_of_getLsbD_eq fun i hi => by simp [shifted, hi]
  | _ + 3 => exact BitVec.eq_of_getLsbD_eq fun i hi => by simp [shifted, hi]

theorem apply_zero (dsh : Ins3) (x y : BitVec 32) : dsh.apply 0 x y = y := by
  have hright : x >>> 32 = 0 := BitVec.ushiftRight_eq_zero (Nat.le_refl 32)
  have hleft : x <<< 32 = 0 := BitVec.shiftLeft_eq_zero (Nat.le_refl 32)
  cases dsh <;> simp [Ins3.apply, hright, hleft]

theorem made_zero (shft : Nat) (sig : Bool) (w : Nat) (hi lo : BitVec 32) :
    made shft sig 0 w hi lo = hi ++ lo := by
  rw [made]
  split
  · exact shifted_zero shft sig _
  · simp [rotatedHalves, apply_zero]

theorem count_imm {k : Nat} (hk : k < 32) (t : State) :
    t.count (.imm (.ofNat 32 k)) = some k := by
  refine congrArg some ?_
  rw [BitVec.toNat_ofNat]
  omega

theorem shiftedRight_pair (sig : Bool) {hi lo : BitVec 32} (hn : 32 ≤ n)
    (h : t.regs reg0 = shiftedRight sig hi (n - 32)) {f : Option (BitVec 32 × BitVec 32)} :
    ((t.set reg1 (if sig then hi.sshiftRight 31 else 0)).setFlags f).pair =
      shifted 1 sig (hi ++ lo) n := by
  refine (congrArg (_ ++ ·) h).trans ?_
  cases sig
  · exact (append_ushiftRight_of_ge hn).symm
  · exact (append_sshiftRight_of_ge hn (by omega)).symm

theorem result_of_lt (shft : Nat) (sig : Bool) (hn : n < 32) (hi lo : BitVec 32) :
    result shft sig n w hi lo = made shft sig n w hi lo :=
  if_pos hn

theorem result_shift (sig : Bool) (hshft : shft < 2) (hn : 32 ≤ n) (hi lo : BitVec 32) :
    result shft sig n w hi lo = shifted shft sig (hi ++ lo) n := by
  rw [result, if_neg (Nat.not_lt.2 hn), if_pos hshft]

theorem result_rotate (shft : Nat) (sig : Bool) (hn : 32 ≤ n) (hi lo : BitVec 32) :
    result (shft + 2) sig n w hi lo =
      if n = 32 then lo ++ hi else made (5 - (shft + 2)) sig (64 - n) w hi lo := by
  rw [result, if_neg (Nat.not_lt.2 hn), if_neg (by omega)]

theorem constantPlaces_left (sig : Bool) (hn : n < 64) (h32 : 32 ≤ n) (e : Nat) :
    ∃ t, machine.Does (constantPlaces 0 sig n e) s t ∧
    t.pair = shifted 0 sig (s.regs reg1 ++ s.regs reg0) n := by
  obtain ⟨t, hdoes, heq⟩ : ∃ t, machine.Does (if n - 32 ≠ 0 then
      [.ins2 .shll (.imm (.ofNat 32 (n - 32))) (.reg reg0)] else []) s t ∧
      t.regs reg0 = s.regs reg0 <<< (n - 32) := by
    split
    · exact ⟨_, does_one (exec_shll (count_imm (by omega) s) reg0), rfl⟩
    · next h => exact ⟨s, Does.nil s, by rw [not_not.1 h, BitVec.shiftLeft_zero]⟩
  rw [constantPlaces, if_pos h32]
  refine ⟨_, hdoes.append ((does_cons rfl).2 (does_one rfl)), ?_⟩
  exact (congrArg (· ++ 0#32) heq).trans (append_shiftLeft_of_ge h32).symm

theorem constantPlaces_right (sig : Bool) (hn : n < 64) (h32 : 32 ≤ n) (e : Nat) :
    ∃ t, machine.Does (constantPlaces 1 sig n e) s t ∧
    t.pair = shifted 1 sig (s.regs reg1 ++ s.regs reg0) n := by
  let t0 := s.set reg0 (s.regs reg1)
  obtain ⟨t, hdoes, heq, hhi⟩ : ∃ t, machine.Does (if n - 32 ≠ 0 then
      [.ins2 (if sig then .sarl else .shrl) (.imm (.ofNat 32 (n - 32))) (.reg reg0)]
      else []) t0 t ∧ t.regs reg0 = shiftedRight sig (s.regs reg1) (n - 32) ∧
      t.regs reg1 = s.regs reg1 := by
    split
    · exact ⟨_, does_one (exec_shiftRight (count_imm (by omega) t0) sig reg0), rfl, rfl⟩
    · next h =>
        refine ⟨t0, Does.nil t0, ?_, rfl⟩
        cases sig <;> simp [t0, not_not.1 h, shiftedRight]
  obtain ⟨f, hfill⟩ := exec_fillHigh sig t
  rw [constantPlaces, if_pos h32]
  refine ⟨_, (does_cons (s := s) (t := t0) rfl).2 (hdoes.append (does_one hfill)), ?_⟩
  rw [hhi]
  exact shiftedRight_pair sig h32 heq

theorem constantPlaces_does (shft : Nat) (sig : Bool) (hn : n < 64) (hw : 32 * w + 64 < 2 ^ 31) :
    ∃ t, machine.Does (constantPlaces shft sig n (32 * w)) s t ∧
    t.pair = result shft sig n w (s.regs reg1) (s.regs reg0) := by
  obtain hlt | hge := Nat.lt_or_ge n 32
  · rw [constantPlaces, if_neg (Nat.not_le.2 hlt), result_of_lt shft sig hlt]
    by_cases h0 : n = 0
    · rw [if_pos h0, h0, made_zero]
      exact ⟨s, Does.nil s, rfl⟩
    · rw [if_neg h0]
      exact fewPlaces_does shft sig hlt (fun t _ => count_imm hlt t) hw
  · match shft with
    | 0 =>
        rw [result_shift sig (by omega) hge]
        exact constantPlaces_left sig hn hge _
    | 1 =>
        rw [result_shift sig (by omega) hge]
        exact constantPlaces_right sig hn hge _
    | shft + 2 =>
        have hcode : constantPlaces (shft + 2) sig n (32 * w) =
            if n - 32 = 0 then [.ins2 .xchg (.reg reg0) (.reg reg1)]
            else fewPlaces (5 - (shft + 2)) sig (.imm (.ofNat 32 (32 - (n - 32)))) (32 * w) := by
          rw [constantPlaces, if_pos hge]
          rfl
        rw [hcode, result_rotate shft sig hge]
        by_cases h : n = 32
        · rw [if_pos (by omega), if_pos h]
          exact ⟨_, does_one rfl, rfl⟩
        · rw [if_neg (by omega), if_neg h, show 32 - (n - 32) = 64 - n from by omega]
          exact fewPlaces_does _ sig (by omega) (fun t _ => count_imm (by omega) t) hw

/-- `reg2` holds the number of places. -/
theorem count_reg2 {k : Nat} (hk : k < 32) (h : (t.regs reg2).toNat = k) :
    t.count (.reg reg2) = some k := by
  refine congrArg some ?_
  rw [h, Nat.mod_eq_of_lt hk]

theorem label_fewPlaces (shft : Nat) (sig : Bool) (count : Operand) (e : Nat) :
    ∀ i ∈ fewPlaces shft sig count e, labelOf i = none := by
  match shft with
  | 0 => simp [fewPlaces, labelOf]
  | 1 => simp [fewPlaces, labelOf]
  | _ + 2 => simp [fewPlaces, dshHalves, labelOf]

/-- The state after the comparison with 32. -/
def compared (s : State) : State := s.setFlags (some (s.regs reg2, 32))

theorem exec_cmpl (s : State) :
    machine.exec (.ins2 .cmpl (.imm 32) (.reg reg2)) s = some (compared s, .step) := rfl

theorem exec_jl (hreg2 : (s.regs reg2).toNat = n) (hn : n < 64) (lab : Nat) :
    machine.exec (.simpleBranch .jl lab) (compared s) =
      some (compared s, if n < 32 then .jump lab else .step) := by
  have hint : (s.regs reg2).toInt = n := by
    rw [BitVec.toInt_eq_toNat_cond, if_pos (by omega), hreg2]
  have hlt : Branch.jl.holds (s.regs reg2) 32 = decide (n < 32) := by
    rw [Branch.holds, hint, decide_eq_decide]
    exact Int.ofNat_lt
  refine congrArg (fun b : Bool => some (compared s, if b = true then Next.jump lab else .step))
    hlt |>.trans ?_
  simp only [decide_eq_true_eq]

theorem exec_je (hreg2 : (s.regs reg2).toNat = n) (lab : Nat) :
    machine.exec (.simpleBranch .je lab) (compared s) =
    some (compared s, if n = 32 then .jump lab else .step) := by
  have heq : Branch.je.holds (s.regs reg2) 32 = decide (n = 32) := by
    rw [Branch.holds, decide_eq_decide, ← BitVec.toNat_inj, hreg2]
    rfl
  refine congrArg (fun b : Bool => some (compared s, if b = true then Next.jump lab else .step))
    heq |>.trans ?_
  simp only [decide_eq_true_eq]

variable {mid few : List Ins} {lablow labend : Nat}

/-- The sequence for fewer than 32 places is jumped to. -/
theorem low_does (hreg2 : (s.regs reg2).toNat = n) (hn : n < 32)
    (hmid : ∀ i ∈ mid, labelOf i ≠ some lablow) (hfew : machine.Does few (compared s) t) :
    machine.Does ([.ins2 .cmpl (.imm 32) (.reg reg2), .simpleBranch .jl lablow] ++ mid ++
      [.simpleBranch .jmp labend, .simplestSetLab lablow] ++ few ++ [.simplestSetLab labend])
      s t := by
  have hjl := exec_jl hreg2 (by omega) lablow
  rw [if_pos hn] at hjl
  have hskip : ∀ i ∈ mid ++ [.simpleBranch .jmp labend], machine.label i ≠ some lablow := by
    intro i hi
    obtain hi | hi := List.mem_append.1 hi
    · exact hmid i hi
    · rw [List.mem_singleton.1 hi]
      exact Option.some_ne_none lablow |>.symm
  have := (does_cons (exec_cmpl s)).2 ((does_jump hjl hskip
    (show machine.label (.simplestSetLab lablow) = some lablow from rfl)).2
    (hfew.append (does_one (i := .simplestSetLab labend) rfl)))
  simpa using this

/-- The sequence for more places is run, and the other is passed over. -/
theorem high_does (hreg2 : (s.regs reg2).toNat = n) (hn : n < 64) (h32 : 32 ≤ n)
    (hmid : machine.Does mid (compared s) t) (hlab : lablow ≠ labend)
    (hfew : ∀ i ∈ few, labelOf i = none) :
    machine.Does ([.ins2 .cmpl (.imm 32) (.reg reg2), .simpleBranch .jl lablow] ++ mid ++
      [.simpleBranch .jmp labend, .simplestSetLab lablow] ++ few ++ [.simplestSetLab labend])
      s t := by
  have hjl := exec_jl hreg2 hn lablow
  rw [if_neg (Nat.not_lt.2 h32)] at hjl
  have hskip : ∀ i ∈ .simplestSetLab lablow :: few, machine.label i ≠ some labend := by
    intro i hi
    obtain rfl | hi := List.mem_cons.1 hi
    · exact fun h => hlab (Option.some.inj h)
    · exact fun h => Option.some_ne_none labend ((hfew i hi).symm.trans h).symm
  have := (does_cons (exec_cmpl s)).2 ((does_cons hjl).2 (hmid.append
    ((does_jump (i := .simpleBranch .jmp labend) rfl hskip
      (show machine.label (.simplestSetLab labend) = some labend from rfl)).2 (Does.nil t))))
  simpa using this

section

variable (hreg2 : (s.regs reg2).toNat = n) (hn : n < 64) (h32 : 32 ≤ n)
include hreg2 hn h32

theorem toNat_sub_32 : (s.regs reg2 - 32).toNat = n - 32 := by
  have : (32 : BitVec 32).toNat = 32 := rfl
  rw [BitVec.toNat_sub]
  omega

theorem variablePlaces_left (lab : Nat) (sig : Bool) (e : Nat) :
    ∃ t, machine.Does (variablePlaces 0 sig e lab (lab + 1) (lab + 2)) s t ∧
    t.pair = shifted 0 sig (s.regs reg1 ++ s.regs reg0) n := by
  let s' := ((compared s).set reg2 (s.regs reg2 - 32)).setFlags none
  have hsub := toNat_sub_32 hreg2 hn h32
  have hshll := exec_shll (count_reg2 (t := s') (by omega) hsub) reg0
  refine ⟨_, high_does hreg2 hn h32 ((does_cons (t := s') rfl).2 ((does_cons hshll).2
    ((does_cons rfl).2 (does_one rfl)))) (Nat.ne_of_lt (Nat.lt_succ_self lab))
    (label_fewPlaces 0 sig _ e), ?_⟩
  exact (append_shiftLeft_of_ge h32).symm

theorem variablePlaces_right (lab : Nat) (sig : Bool) (e : Nat) :
    ∃ t, machine.Does (variablePlaces 1 sig e lab (lab + 1) (lab + 2)) s t ∧
    t.pair = shifted 1 sig (s.regs reg1 ++ s.regs reg0) n := by
  let s' := (((compared s).set reg2 (s.regs reg2 - 32)).setFlags none).set reg0 (s.regs reg1)
  have hsub := toNat_sub_32 hreg2 hn h32
  have hshift := exec_shiftRight (count_reg2 (t := s') (by omega) hsub) sig reg0
  obtain ⟨f, hfill⟩ := exec_fillHigh sig
    ((s'.set reg0 (shiftedRight sig (s.regs reg1) (n - 32))).setFlags none)
  refine ⟨_, high_does hreg2 hn h32 ((does_cons rfl).2 ((does_cons (t := s') rfl).2
    ((does_cons hshift).2 (does_one hfill)))) (Nat.ne_of_lt (Nat.lt_succ_self lab))
    (label_fewPlaces 1 sig _ e), ?_⟩
  exact shiftedRight_pair sig h32 rfl

theorem variablePlaces_rotate (shft lab : Nat) (sig : Bool) (hshft : shft < 2)
    (hw : 32 * w + 64 < 2 ^ 31) :
    ∃ t, machine.Does (variablePlaces (shft + 2) sig (32 * w) lab (lab + 1) (lab + 2)) s t ∧
    t.pair = if n = 32 then s.regs reg0 ++ s.regs reg1
      else made (5 - (shft + 2)) sig (64 - n) w (s.regs reg1) (s.regs reg0) := by
  have hje := exec_je hreg2 (lab + 2)
  have hfew := label_fewPlaces (shft + 2) sig (.reg reg2) (32 * w)
  have hcode : variablePlaces (shft + 2) sig (32 * w) lab (lab + 1) (lab + 2) =
      [.ins2 .cmpl (.imm 32) (.reg reg2), .simpleBranch .jl lab] ++
      ([.simpleBranch .je (lab + 2), .ins2 .subl (.imm 64) (.reg reg2), .ins1 .negl (.reg reg2)] ++
        dshHalves (if shft + 2 = 2 then .shldl else .shrdl) (.reg reg2) (32 * w) ++
        [.simpleBranch .jmp (lab + 1), .simplestSetLab (lab + 2),
          .ins2 .xchg (.reg reg0) (.reg reg1)]) ++
      [.simpleBranch .jmp (lab + 1), .simplestSetLab lab] ++
      fewPlaces (shft + 2) sig (.reg reg2) (32 * w) ++ [.simplestSetLab (lab + 1)] := rfl
  rw [hcode]
  by_cases h : n = 32
  · rw [if_pos h] at hje ⊢
    have hskip : ∀ i ∈ [.ins2 .subl (.imm 64) (.reg reg2), .ins1 .negl (.reg reg2)] ++
        dshHalves (if shft + 2 = 2 then .shldl else .shrdl) (.reg reg2) (32 * w) ++
        [.simpleBranch .jmp (lab + 1)], machine.label i ≠ some (lab + 2) := by
      simp [dshHalves, machine, labelOf]
    have hxchg := (does_jump hje hskip
      (show machine.label (.simplestSetLab (lab + 2)) = some (lab + 2) from rfl)).2
      (does_one (i := .ins2 .xchg (.reg reg0) (.reg reg1)) rfl)
    exact ⟨_, high_does hreg2 hn h32 hxchg (Nat.ne_of_lt (Nat.lt_succ_self lab)) hfew, rfl⟩
  · rw [if_neg h] at hje ⊢
    have hjl := exec_jl hreg2 hn lab
    rw [if_neg (Nat.not_lt.2 h32)] at hjl
    let s' := (((compared s).set reg2 (s.regs reg2 - 64)).setFlags none)
    let s'' := (s'.set reg2 (-(s.regs reg2 - 64))).setFlags none
    have hcount : (s''.regs reg2).toNat = 64 - n := by
      change (-(s.regs reg2 - 64)).toNat = _
      have : (64 : BitVec 32).toNat = 64 := rfl
      rw [BitVec.toNat_neg, BitVec.toNat_sub]
      omega
    obtain ⟨t, hdoes, h0, h1, -⟩ := dshHalves_does (s := s'')
      (if shft + 2 = 2 then .shldl else .shrdl)
      (fun t ht => count_reg2 (by omega) ((congrArg _ ht).trans hcount)) hw
    have hlabels : ∀ i ∈ [.simplestSetLab (lab + 2), .ins2 .xchg (.reg reg0) (.reg reg1),
        .simpleBranch .jmp (lab + 1), .simplestSetLab lab],
        machine.label i ≠ some (lab + 1) := by
      simp [machine, labelOf]
    have hskip : ∀ i ∈ [.simplestSetLab (lab + 2), .ins2 .xchg (.reg reg0) (.reg reg1),
        .simpleBranch .jmp (lab + 1), .simplestSetLab lab] ++
        fewPlaces (shft + 2) sig (.reg reg2) (32 * w), machine.label i ≠ some (lab + 1) := by
      intro i hi
      obtain hi | hi := List.mem_append.1 hi
      · exact hlabels i hi
      · exact fun h => Option.some_ne_none (lab + 1) ((hfew i hi).symm.trans h).symm
    have hsubl : machine.exec (.ins2 .subl (.imm 64) (.reg reg2)) (compared s) =
        some (s', .step) := rfl
    have hnegl : machine.exec (.ins1 .negl (.reg reg2)) s' = some (s'', .step) := rfl
    have hall := (does_cons (exec_cmpl s)).2 ((does_cons hjl).2 ((does_cons hje).2
      ((does_cons hsubl).2 ((does_cons hnegl).2 (hdoes.append
        ((does_jump (i := .simpleBranch .jmp (lab + 1)) rfl hskip
          (show machine.label (.simplestSetLab (lab + 1)) = some (lab + 1) from rfl)).2
        (Does.nil t)))))))
    refine ⟨t, by simpa using hall, ?_⟩
    rw [State.pair, h0, h1, made, rotatedHalves]
    obtain rfl | rfl : shft = 0 ∨ shft = 1 := by omega
    · rfl
    · rfl

end

theorem variablePlaces_does (shft : Nat) (sig : Bool) (lab : Nat) (hshft : shft < 4) (hn : n < 64)
    (hreg2 : (s.regs reg2).toNat = n) (hw : 32 * w + 64 < 2 ^ 31) :
    ∃ t, machine.Does (variablePlaces shft sig (32 * w) lab (lab + 1) (lab + 2)) s t ∧
    t.pair = result shft sig n w (s.regs reg1) (s.regs reg0) := by
  obtain hlt | hge := Nat.lt_or_ge n 32
  · obtain ⟨t, hdoes, hpair⟩ := fewPlaces_does (s := compared s) shft sig hlt
      (fun t ht => count_reg2 hlt ((congrArg _ ht).trans hreg2)) hw
    refine ⟨t, low_does hreg2 hlt ?_ hdoes, ?_⟩
    · match shft with
      | 0 => simp [labelOf]
      | 1 => cases sig <;> simp [labelOf, fillHigh]
      | _ + 2 => simp [labelOf, dshHalves]
    · rw [hpair, result_of_lt shft sig hlt]
      rfl
  · match shft with
    | 0 =>
        rw [result_shift sig (by omega) hge]
        exact variablePlaces_left hreg2 hn hge lab sig _
    | 1 =>
        rw [result_shift sig (by omega) hge]
        exact variablePlaces_right hreg2 hn hge lab sig _
    | shft + 2 =>
        rw [result_rotate shft sig hge]
        exact variablePlaces_rotate hreg2 hn hge shft lab sig (by omega) hw

end

/-- The rotation that a double shift is for: it shifts right or left. -/
def rotation (dsh : Ins3) (x : BitVec 64) (n : Nat) : BitVec 64 :=
  match dsh with
  | .shldl => x.rotateLeft n
  | .shrdl => x.rotateRight n

/-- The rotation carries a bit of a half over to the other one. -/
def Crosses (dsh : Ins3) (n i : Nat) : Prop :=
  match dsh with
  | .shldl => 32 ≤ n + i
  | .shrdl => i < n

/-- To rotate the halves is as good as to rotate the number. -/
def HalvesDo (dsh : Ins3) (n w : Nat) (hi lo : BitVec 32) : Prop :=
  if w = 0 then ∀ i < 32, Crosses dsh n i → lo.getLsbD i = hi.getLsbD i
  else if w = 1 then (rotation dsh (hi ++ lo) n).setWidth 32 = lo
  else rotation dsh (hi ++ lo) n = hi ++ lo

/-- The double shift that rotates by more than 31 places the other way, and the places. -/
def rotateBy (shft n : Nat) : Ins3 × Nat :=
  if n < 32 then (if shft = 2 then .shrdl else .shldl, n)
  else (if shft = 2 then .shldl else .shrdl, 64 - n)

section

variable {n w : Nat} {hi lo : BitVec 32}

theorem rotation_append (dsh : Ins3) (hn : n < 32) :
    rotation dsh (hi ++ lo) n = dsh.apply n lo hi ++ dsh.apply n hi lo := by
  cases dsh
  · exact append_rotateLeft hn
  · exact append_rotateRight hn

theorem apply_eq_iff (dsh : Ins3) (hn : n < 32) (x : BitVec 32) :
    dsh.apply n hi x = dsh.apply n lo x ↔
      ∀ i < 32, Crosses dsh n i → lo.getLsbD i = hi.getLsbD i := by
  cases dsh
  · refine (fillRight_eq_iff (Nat.le_of_lt hn)).trans ⟨fun h i hi' hc => ?_, fun h i hc hi' => ?_⟩
    · have hcross : 32 ≤ n + i := hc
      exact (h i (by omega) hi').symm
    · exact (h i hi' (show 32 ≤ n + i from by omega)).symm
  · refine (fillLeft_eq_iff (Nat.le_of_lt hn)).trans ⟨fun h i _ hc => ?_, fun h i hc => ?_⟩
    · exact (h i hc).symm
    · exact (h i (Nat.lt_trans hc hn) hc).symm

theorem rotatedHalves_eq_iff (dsh : Ins3) (hn : n < 32) :
    rotatedHalves dsh n w hi lo = rotation dsh (hi ++ lo) n ↔ HalvesDo dsh n w hi lo := by
  have happ : rotation dsh (hi ++ lo) n = _ := rotation_append dsh hn
  rw [HalvesDo]
  obtain rfl | rfl | hw : w = 0 ∨ w = 1 ∨ 2 ≤ w := by omega
  · rw [happ, if_pos rfl, rotatedHalves, append_inj]
    refine ⟨fun h => (apply_eq_iff dsh hn hi).1 h.1, fun h => ⟨?_, ?_⟩⟩
    · exact (apply_eq_iff dsh hn hi).2 h
    · exact ((apply_eq_iff dsh hn lo).2 h).symm
  · rw [if_neg Nat.one_ne_zero, if_pos rfl, happ, BitVec.setWidth_append_eq_right, rotatedHalves,
      append_inj]
    exact ⟨fun h => h.2.symm, fun h => ⟨rfl, h.symm⟩⟩
  · rw [if_neg (by omega), if_neg (by omega), rotatedHalves, if_neg (by omega),
      if_neg (by omega), if_neg (by omega)]
    exact eq_comm

theorem shifted_eq_rotation (sig : Bool) (hshft : shft < 4) (hrotate : 2 ≤ shft) (hn : n < 64)
    (x : BitVec 64) :
    shifted shft sig x n = rotation (rotateBy shft n).1 x (rotateBy shft n).2 := by
  rw [rotateBy]
  by_cases hlt : n < 32
  · rw [if_pos hlt]
    obtain rfl | rfl : shft = 2 ∨ shft = 3 := by omega
    · rfl
    · rfl
  · rw [if_neg hlt]
    obtain rfl | rfl : shft = 2 ∨ shft = 3 := by omega
    · exact rotateRight_eq_rotateLeft (by omega) hn
    · have := rotateRight_eq_rotateLeft (x := x) (n := 64 - n) (by omega) (by omega)
      rw [show 64 - (64 - n) = n from by omega] at this
      exact this.symm

/-- When the sequence makes of a number what it is to make. -/
theorem result_eq_iff (sig : Bool) (hshft : shft < 4) (hn : n < 64) :
    result shft sig n w hi lo = shifted shft sig (hi ++ lo) n ↔
      shft < 2 ∨ n = 32 ∨ HalvesDo (rotateBy shft n).1 (rotateBy shft n).2 w hi lo := by
  by_cases hs : shft < 2
  · have : result shft sig n w hi lo = shifted shft sig (hi ++ lo) n := by
      rw [result, made, if_pos hs, if_pos hs]
      exact ite_self _
    exact ⟨fun _ => .inl hs, fun _ => this⟩
  · by_cases h : n = 32
    · have : result shft sig n w hi lo = shifted shft sig (hi ++ lo) n := by
        subst h
        obtain rfl | rfl : shft = 2 ∨ shft = 3 := by omega
        · exact (append_rotateRight_half (by omega) hi lo).symm
        · refine (append_rotateRight_half (by omega) hi lo).symm.trans ?_
          exact rotateRight_eq_rotateLeft (by omega) (by omega)
      exact ⟨fun _ => .inr (.inl h), fun _ => this⟩
    · have hmade : result shft sig n w hi lo =
          rotatedHalves (rotateBy shft n).1 (rotateBy shft n).2 w hi lo := by
        rw [result, rotateBy]
        by_cases hlt : n < 32
        · rw [if_pos hlt, if_pos hlt, made, if_neg hs]
        · rw [if_neg hlt, if_neg hlt, if_neg hs, if_neg h]
          obtain rfl | rfl : shft = 2 ∨ shft = 3 := by omega
          · rfl
          · rfl
      have hlt : (rotateBy shft n).2 < 32 := by
        rw [rotateBy]
        split
        · assumption
        · dsimp only
          omega
      rw [hmade, shifted_eq_rotation sig hshft (by omega) hn, rotatedHalves_eq_iff _ hlt]
      simp [hs, h]

end

/-- The number of places, which is given or in `reg2`. -/
def places (wshift : Option Nat) (s : State) : Nat := wshift.getD (s.regs reg2).toNat

theorem rotshift64_does (shft : Nat) (sig : Bool) (wshift : Option Nat) (w lab : Nat) (s : State)
    (hshft : shft < 4) (hn : places wshift s < 64) (hw : 32 * w + 64 < 2 ^ 31) :
    ∃ t, machine.Does (rotshift64 shft sig wshift (32 * w) lab) s t ∧
      t.pair = result shft sig (places wshift s) w (s.regs reg1) (s.regs reg0) := by
  cases wshift with
  | some n => exact constantPlaces_does shft sig hn hw
  | none => exact variablePlaces_does shft sig lab hshft hn rfl hw

/-- The sequence is exact for shifts and for rotations by 32 places, and for other rotations where
to rotate the halves is as good as to rotate the number. -/
theorem rotshift64_exact_iff (shft : Nat) (sig : Bool) (wshift : Option Nat) (w lab : Nat)
    (s : State) (hshft : shft < 4) (hn : places wshift s < 64) (hw : 32 * w + 64 < 2 ^ 31) :
    (∃ t, machine.Does (rotshift64 shft sig wshift (32 * w) lab) s t ∧
        t.pair = shifted shft sig s.pair (places wshift s)) ↔
      shft < 2 ∨ places wshift s = 32 ∨
        HalvesDo (rotateBy shft (places wshift s)).1 (rotateBy shft (places wshift s)).2 w
          (s.regs reg1) (s.regs reg0) := by
  obtain ⟨t, hdoes, hpair⟩ := rotshift64_does shft sig wshift w lab s hshft hn hw
  rw [hdoes.exists_iff (P := fun t => t.pair = shifted shft sig s.pair (places wshift s)), hpair]
  exact result_eq_iff sig hshft hn

/-- A one, and a number of places in `reg2`. -/
def oneState (count : BitVec 32) : State :=
  ⟨fun r => if r = reg0 then 1 else if r = reg2 then count else 0, fun _ => 0, none⟩

theorem rotshift64_exact_iff_one : ∃ t, machine.Does (rotshift64 2 false none 0 1) (oneState 32) t ∧
    t.pair = (oneState 32).pair.rotateRight 32 :=
  (rotshift64_exact_iff 2 false none 0 1 (oneState 32) (by decide) (by decide) (by decide)).2
    (.inr (.inl rfl))

/-- A one is not rotated by one place. -/
theorem not_rotshift64_exact : ¬ ∃ t,
    machine.Does (rotshift64 2 false (some 1) 0 1) (oneState 0) t ∧
    t.pair = (oneState 0).pair.rotateRight 1 := by
  obtain ⟨t, hdoes, hpair⟩ := rotshift64_does 2 false (some 1) 0 1 (oneState 0) (by decide)
    (by decide) (by decide)
  rw [hdoes.exists_iff (P := fun t => t.pair = (oneState 0).pair.rotateRight 1), hpair]
  intro h
  obtain h | h | h := (result_eq_iff false (by decide) (by decide)).1 h
  · exact absurd h (by decide)
  · exact absurd h (by decide)
  · exact absurd (h 0 (by decide) Nat.one_pos) (by decide)

end Tendra.Ref.Trans.X86
