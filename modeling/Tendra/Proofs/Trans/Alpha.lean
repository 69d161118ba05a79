import Mathlib.Data.BitVec
import Mathlib.Tactic.Ring
import Tendra.Ref.Trans.Alpha

/-!
# Bytes, words and registers on Alpha

A byte of what is loaded is the byte of the memory, and the four instructions that put a
byte in its place in a quadword change that byte only.
-/

namespace Tendra.Ref.Trans.Alpha

variable {i k : Nat} {y : BitVec 64}

theorem byte_append_zero {w : Nat} (x : BitVec w) (y : BitVec 8) :
    (x ++ y).extractLsb' 0 8 = y := by
  rw [BitVec.extractLsb'_append_eq_of_add_le (Nat.le_refl 8), BitVec.extractLsb'_eq_self]

theorem byte_append_succ {w : Nat} (x : BitVec w) (y : BitVec 8) (i : Nat) :
    (x ++ y).extractLsb' (8 * (i + 1)) 8 = x.extractLsb' (8 * i) 8 := by
  rw [BitVec.extractLsb'_append_eq_of_le (by omega)]
  rfl

theorem byte_quad (m : Mem) (a : BitVec 64) (hi : i < 8) :
    byte (quad m a) i = m (a + BitVec.ofNat 64 i) := by
  rw [byte, quad]
  match i, hi with
  | 0, _ => rw [Nat.mul_zero, byte_append_zero]; simp
  | 1, _ => simp only [byte_append_succ]; rw [Nat.mul_zero, byte_append_zero]; rfl
  | 2, _ => simp only [byte_append_succ]; rw [Nat.mul_zero, byte_append_zero]; rfl
  | 3, _ => simp only [byte_append_succ]; rw [Nat.mul_zero, byte_append_zero]; rfl
  | 4, _ => simp only [byte_append_succ]; rw [Nat.mul_zero, byte_append_zero]; rfl
  | 5, _ => simp only [byte_append_succ]; rw [Nat.mul_zero, byte_append_zero]; rfl
  | 6, _ => simp only [byte_append_succ]; rw [Nat.mul_zero, byte_append_zero]; rfl
  | 7, _ => simp only [byte_append_succ]; rw [Nat.mul_zero, BitVec.extractLsb'_eq_self]; rfl

theorem byte_or (x y : BitVec 64) (i : Nat) : byte (x ||| y) i = byte x i ||| byte y i := by
  simp [byte, BitVec.extractLsb'_or]

theorem byte_setWidth (x : BitVec 8) : byte (x.setWidth 64) 0 = x := by
  rw [byte, Nat.mul_zero, ← BitVec.setWidth_eq_extractLsb' (by omega),
    BitVec.setWidth_setWidth_of_le x (by omega), BitVec.setWidth_eq]

theorem byte_not (x : BitVec 64) (hi : i < 8) : byte (~~~x) i = ~~~byte x i := by
  refine BitVec.eq_of_getLsbD_eq fun j hj => ?_
  have hlt : 8 * i + j < 64 := by omega
  simp [byte, hj, hlt]

theorem byte_insert (x : BitVec 8) (hi : i < 8) :
    byte (x.setWidth 64 <<< (8 * k)) i = if i = k then x else 0 := by
  refine BitVec.eq_of_getLsbD_eq fun j hj => ?_
  have hlt : 8 * i + j < 64 := by omega
  simp only [byte, BitVec.getLsbD_extractLsb', BitVec.getLsbD_shiftLeft, BitVec.getLsbD_setWidth,
    hj, hlt, decide_true, Bool.true_and]
  split
  · next h =>
      have hsub : 8 * i + j - 8 * k = j := by omega
      have hle : ¬ 8 * i + j < 8 * k := by omega
      simp [hsub, hle, show j < 64 from by omega]
  · next h =>
      obtain hlt | hge : 8 * i + j < 8 * k ∨ 8 ≤ 8 * i + j - 8 * k := by omega
      · simp [hlt]
      · simp [BitVec.getLsbD_of_ge x _ hge]

theorem byte_mask (x : BitVec 64) (hi : i < 8) :
    byte (x &&& ~~~(255#64 <<< (8 * k))) i = if i = k then 0 else byte x i := by
  have h : byte (255#64 <<< (8 * k)) i = if i = k then 255#8 else 0 := byte_insert 255#8 hi
  have hand : byte (x &&& ~~~(255#64 <<< (8 * k))) i =
      byte x i &&& byte (~~~(255#64 <<< (8 * k))) i := BitVec.extractLsb'_and
  rw [hand, byte_not _ hi, h]
  split
  · simp
  · exact BitVec.and_allOnes

theorem toNat_around (a : BitVec 64) : (around a).toNat = a.toNat - a.toNat % 8 := by
  simp only [around, BitVec.toNat_shiftLeft, BitVec.toNat_ushiftRight, Nat.shiftLeft_eq,
    Nat.shiftRight_eq_div_pow]
  have := a.isLt
  omega

/-- What the instructions of the loop for bytes put in place of a quadword. -/
theorem store_byte (m : Mem) (a : BitVec 64) (x : BitVec 8) :
    store m (around a) (quad m (around a) &&& ~~~(255#64 <<< (8 * (a.toNat % 8))) |||
      x.setWidth 64 <<< (8 * (a.toNat % 8))) = Function.update m a x := by
  funext y
  have hk : a.toNat % 8 < 8 := Nat.mod_lt _ (by omega)
  have hsub : (y - around a).toNat = (y.toNat + 2 ^ 64 - (around a).toNat) % 2 ^ 64 := by
    rw [BitVec.toNat_sub]
    have := (around a).isLt
    congr 1
    omega
  have heq : y = a ↔ (y - around a).toNat = a.toNat % 8 := by
    rw [← BitVec.toNat_inj, hsub, toNat_around]
    have := a.isLt
    have := y.isLt
    omega
  rw [store, Function.update_apply]
  by_cases hlt : (y - around a).toNat < 8
  · rw [if_pos hlt, byte_or, byte_mask _ hlt, byte_insert _ hlt, byte_quad m _ hlt,
      BitVec.ofNat_toNat, BitVec.setWidth_eq, BitVec.add_comm, BitVec.sub_add_cancel]
    by_cases hy : y = a
    · rw [if_pos hy, if_pos (heq.1 hy), if_pos (heq.1 hy)]
      exact BitVec.zero_or
    · rw [if_neg hy, if_neg (fun h => hy (heq.2 h)), if_neg (fun h => hy (heq.2 h))]
      exact BitVec.or_zero
  · rw [if_neg hlt, if_neg (fun h => hlt ((heq.1 h).symm ▸ hk))]

theorem extract_byte (m : Mem) (a : BitVec 64) :
    byte (quad m (around a)) (a.toNat % 8) = m a := by
  rw [byte_quad m _ (Nat.mod_lt _ (by omega))]
  congr 1
  rw [← BitVec.toNat_inj, BitVec.toNat_add, toNat_around, BitVec.toNat_ofNat]
  have := a.isLt
  omega

theorem byte_setWidth_long (v : BitVec 32) (hi : i < 8) :
    byte (v.setWidth 64) i = if i < 4 then v.extractLsb' (8 * i) 8 else 0 := by
  refine BitVec.eq_of_getLsbD_eq fun j hj => ?_
  have hlt : 8 * i + j < 64 := by omega
  split
  · simp [byte, hj, hlt]
  · next h => simp [byte, BitVec.getLsbD_of_ge v (8 * i + j) (by omega)]

theorem byte_long {m : Mem} {a : BitVec 64} (hm : (m (a + 3)).msb = false) (hi : i < 8) :
    byte ((long m a).signExtend 64) i = if i < 4 then m (a + BitVec.ofNat 64 i) else 0 := by
  have hmsb : (long m a).msb = false := by
    rw [long, BitVec.msb_append, BitVec.msb_append, BitVec.msb_append]
    simpa using hm
  rw [BitVec.signExtend_eq_setWidth_of_msb_false hmsb, byte_setWidth_long _ hi, long]
  match i, hi with
  | 0, _ => simp only [Nat.mul_zero, byte_append_zero]; simp
  | 1, _ => simp only [byte_append_succ, Nat.mul_zero, byte_append_zero]; rfl
  | 2, _ => simp only [byte_append_succ, Nat.mul_zero, byte_append_zero]; rfl
  | 3, _ => simp only [byte_append_succ, Nat.mul_zero, BitVec.extractLsb'_eq_self]; rfl
  | i + 4, _ => rw [if_neg (by omega), if_neg (by omega)]
/-- So many bytes from one address on are copied to another. -/
def Copied (k : Nat) (m : Mem) (a d : BitVec 64) (m' : Mem) : Prop :=
  ∀ x, m' x = if (x - d).toNat < k then m (a + (x - d)) else m x

theorem copied_quad (m : Mem) (a d : BitVec 64) : Copied 8 m a d (store m d (quad m a)) := by
  intro x
  rw [store]
  split
  · next h => rw [byte_quad m a h, BitVec.ofNat_toNat, BitVec.setWidth_eq]
  · rfl

theorem copied_byte (m : Mem) (a d : BitVec 64) :
    Copied 1 m a d (Function.update m d (m a)) := by
  intro x
  have h : (x - d).toNat < 1 ↔ x = d := by bv_omega
  rw [Function.update_apply, if_congr h rfl rfl]
  split
  · next h => rw [h, BitVec.sub_self, BitVec.add_zero]
  · rfl

theorem sub_lt_iff (h : i + k ≤ 2 ^ 64) :
    (y - BitVec.ofNat 64 i).toNat < k ↔ i ≤ y.toNat ∧ y.toNat < i + k := by
  obtain rfl | hk := Nat.eq_zero_or_pos k
  · omega
  · rw [BitVec.toNat_sub, BitVec.toNat_ofNat, Nat.mod_eq_of_lt (show i < 2 ^ 64 from by omega)]
    have := y.isLt
    omega

theorem sub_add_offset (x dest i : BitVec 64) : x - (dest + i) = x - dest - i := by
  ring

theorem add_offset (src x dest i : BitVec 64) : src + i + (x - dest - i) = src + (x - dest) := by
  ring

/-- The source of a byte lies no lower in its region than the byte does in the region below. -/
theorem le_source {dest src : BitVec 64} {size : Nat} (hle : dest ≤ src)
    (hs : src.toNat + size ≤ 2 ^ 64) (hy : y.toNat < size) (hi : i ≤ y.toNat) :
    ¬ (src + y - dest).toNat < i := by
  rw [BitVec.le_def] at hle
  rw [BitVec.toNat_sub, BitVec.toNat_add, Nat.mod_eq_of_lt (show src.toNat + y.toNat < 2 ^ 64 from
    by omega)]
  have := dest.isLt
  omega

/-- The source of a byte lies no higher than the byte does in the region above, or outside of
that. -/
theorem source_lt {dest src : BitVec 64} {size n : Nat} (hle : src ≤ dest)
    (hd : dest.toNat + size ≤ 2 ^ 64) (hy : y.toNat < n) (hn : n ≤ size) :
    ¬ (n ≤ (src + y - dest).toNat ∧ (src + y - dest).toNat < size) := by
  rw [BitVec.le_def] at hle
  rw [BitVec.toNat_sub, BitVec.toNat_add, Nat.mod_eq_of_lt (show src.toNat + y.toNat < 2 ^ 64 from
    by omega)]
  have := src.isLt
  omega

section

variable {s : State} {r d : Reg} {v : BitVec 64}

@[simp] theorem State.get_set (hd : d ≠ 31) :
    (s.set d v).get r = if r = d then v else s.get r := by
  simp only [State.get, State.set, Function.update_apply]
  by_cases h : r = 31
  · rw [if_pos h, if_neg (fun heq => hd (heq.symm.trans h)), if_pos h]
  · rw [if_neg h, if_neg h]

@[simp] theorem State.get_zero : s.get 31 = 0 := rfl

@[simp] theorem State.mem_set : (s.set d v).mem = s.mem := rfl

@[simp] theorem State.get_mem (m : Mem) : State.get { s with mem := m } r = s.get r := rfl

end

section

variable {L : Type} {env : Env L}

/-- An instruction that neither branches nor jumps. -/
def Ins.straight : Ins L → Bool
  | .integerBranch _ _ _ => false
  | .integerJump _ => false
  | _ => true

@[simp] theorem exec_machine (i : Ins L) (s : State) : (machine env).exec i s = exec env i s := rfl

@[simp] theorem label_machine (i : Ins L) : (machine env).label i = label i := rfl

@[simp] theorem address_reg (s : State) (r : Reg) (offset : BitVec 64) :
    BaseOff.address env s ⟨.reg r, offset⟩ = s.get r + offset := rfl

theorem exec_straight {i : Ins L} (hi : i.straight) {s t : State} {n : Next L}
    (h : exec env i s = some (t, n)) : n = .step := by
  cases i with
  | operateFmt op src1 src2 dest => exact (Prod.mk.inj (Option.some.inj h)).2.symm
  | operateFmtImmediate op src1 src2 dest => exact (Prod.mk.inj (Option.some.inj h)).2.symm
  | integerBranch test reg lab => exact absurd hi Bool.false_ne_true
  | integerJump reg => exact absurd hi Bool.false_ne_true
  | loadStore op reg a =>
      obtain ⟨u, -, hu⟩ := Option.map_eq_some_iff.1 h
      exact (Prod.mk.inj hu).2.symm
  | loadImmediate reg val => exact (Prod.mk.inj (Option.some.inj h)).2.symm
  | setLabel lab => exact (Prod.mk.inj (Option.some.inj h)).2.symm

theorem plain_of_straight [DecidableEq L] {c : List (Ins L)} (hc : ∀ i ∈ c, i.straight) :
    (machine env).Plain c :=
  fun i hi _ _ _ h => exec_straight (hc i hi) h

end

theorem ofNat_sub_ofNat {w n : Nat} (h : k ≤ n) :
    BitVec.ofNat w n - BitVec.ofNat w k = BitVec.ofNat w (n - k) := by
  obtain ⟨c, rfl⟩ := Nat.exists_eq_add_of_le h
  rw [BitVec.ofNat_add, Nat.add_sub_cancel_left, BitVec.add_comm, BitVec.add_sub_cancel]

theorem ofNat_ne_zero {n : Nat} (hn : n ≠ 0) (hlt : n < 2 ^ 64) : BitVec.ofNat 64 n ≠ 0 := by
  intro h
  have := congrArg BitVec.toNat h
  rw [BitVec.toNat_ofNat, Nat.mod_eq_of_lt hlt] at this
  exact hn this

/-- A signed comparison of small numbers. -/
theorem toInt_ofNat_lt {n : Nat} (hn : n < 2 ^ 63) (hk : k < 2 ^ 63) :
    (BitVec.ofNat 64 n).toInt < (BitVec.ofNat 64 k).toInt ↔ n < k := by
  rw [BitVec.toInt_ofNat', BitVec.toInt_ofNat']
  simp only [Int.bmod_def]
  omega

theorem bne_ofBool (p : Prop) [Decidable p] : Test.bne.holds (ofBool p) = decide p := by
  by_cases h : p <;> simp [Test.holds, ofBool, h]

theorem beq_ofBool (p : Prop) [Decidable p] : Test.beq.holds (ofBool p) = !decide p := by
  by_cases h : p <;> simp [Test.holds, ofBool, h]

theorem cmplt_holds (x y : BitVec 64) :
    Test.bne.holds (Op.cmplt.apply x y) = decide (x.toInt < y.toInt) :=
  bne_ofBool _

end Tendra.Ref.Trans.Alpha
