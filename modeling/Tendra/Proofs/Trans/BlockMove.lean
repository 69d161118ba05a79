import Tendra.Proofs.Trans.MoveLoops

/-!
# What a block move moves

The loops for quadwords and bytes keep it that the bytes behind them are those of the
source, as it was at first, and that no others have changed. The loop for longwords
stores eight bytes where it has loaded four, so that it leaves a zero behind where no
byte is to be zero.
-/

namespace Tendra.Ref.Trans.Alpha

open Machine

/-- Bytes of a region have been copied to one at or below it, those from its start on, and `n`
are left. -/
structure Forward (dest src : BitVec 64) (size : Nat) (m₀ : Mem) (n : Nat) (d a : BitVec 64)
    (m : Mem) : Prop where
  le : n ≤ size
  dest_eq : d = dest + BitVec.ofNat 64 (size - n)
  src_eq : a = src + BitVec.ofNat 64 (size - n)
  mem : Copied (size - n) m₀ src dest m

/-- The same for a region at or above it, and those down from its end. -/
structure Backward (dest src : BitVec 64) (size : Nat) (m₀ : Mem) (n : Nat) (d a : BitVec 64)
    (m : Mem) : Prop where
  le : n ≤ size
  dest_eq : d = dest + BitVec.ofNat 64 n
  src_eq : a = src + BitVec.ofNat 64 n
  mem : ∀ x, m x = if n ≤ (x - dest).toNat ∧ (x - dest).toNat < size then m₀ (src + (x - dest))
    else m₀ x

section

variable {dest src d a : BitVec 64} {size n k : Nat} {m₀ m m' : Mem}

theorem Forward.step (h : Forward dest src size m₀ n d a m) (hle : dest ≤ src)
    (hs : src.toNat + size ≤ 2 ^ 64) (hk : k ≤ n) (hm : Copied k m a d m') :
    Forward dest src size m₀ (n - k) (d + BitVec.ofNat 64 k) (a + BitVec.ofNat 64 k) m' := by
  have hsize := h.le
  have hsub : size - (n - k) = size - n + k := by omega
  refine ⟨Nat.le_trans (Nat.sub_le n k) hsize, ?_, ?_, fun x => ?_⟩
  · rw [h.dest_eq, hsub, BitVec.add_assoc, BitVec.ofNat_add]
  · rw [h.src_eq, hsub, BitVec.add_assoc, BitVec.ofNat_add]
  · have hin := sub_lt_iff (y := x - dest) (show size - n + k ≤ 2 ^ 64 from by omega)
    rw [hm x, h.dest_eq, h.src_eq, hsub, sub_add_offset, add_offset]
    by_cases hx : (x - dest - BitVec.ofNat 64 (size - n)).toNat < k
    · obtain ⟨hlo, hhi⟩ := hin.1 hx
      rw [if_pos hx, if_pos hhi, h.mem, if_neg (le_source hle hs (by omega) hlo)]
    · rw [if_neg hx, h.mem]
      refine if_congr ?_ rfl rfl
      rw [hin] at hx
      omega

theorem Backward.step (h : Backward dest src size m₀ n d a m) (hle : src ≤ dest)
    (hd : dest.toNat + size ≤ 2 ^ 64) (hk : k ≤ n)
    (hm : Copied k m (a - BitVec.ofNat 64 k) (d - BitVec.ofNat 64 k) m') :
    Backward dest src size m₀ (n - k) (d - BitVec.ofNat 64 k) (a - BitVec.ofNat 64 k) m' := by
  obtain ⟨c, rfl⟩ := Nat.exists_eq_add_of_le' hk
  have hdest : d - BitVec.ofNat 64 k = dest + BitVec.ofNat 64 c := by
    rw [h.dest_eq, BitVec.ofNat_add, ← BitVec.add_assoc, BitVec.add_sub_cancel]
  have hsrc : a - BitVec.ofNat 64 k = src + BitVec.ofNat 64 c := by
    rw [h.src_eq, BitVec.ofNat_add, ← BitVec.add_assoc, BitVec.add_sub_cancel]
  rw [hdest, hsrc] at hm
  rw [hdest, hsrc, Nat.add_sub_cancel]
  have hsize := h.le
  refine ⟨by omega, rfl, rfl, fun x => ?_⟩
  have hin := sub_lt_iff (y := x - dest) (show c + k ≤ 2 ^ 64 from by omega)
  rw [hm x, sub_add_offset, add_offset]
  by_cases hx : (x - dest - BitVec.ofNat 64 c).toNat < k
  · obtain ⟨hlo, hhi⟩ := hin.1 hx
    rw [if_pos hx, if_pos ⟨hlo, by omega⟩, h.mem, if_neg (source_lt hle hd hhi hsize)]
  · rw [if_neg hx, h.mem]
    refine if_congr ?_ rfl rfl
    rw [hin] at hx
    omega

theorem Forward.start (dest src : BitVec 64) (size : Nat) (m : Mem) :
    Forward dest src size m size dest src m := by
  refine ⟨Nat.le_refl size, ?_, ?_, fun x => ?_⟩
  · rw [Nat.sub_self, BitVec.add_zero]
  · rw [Nat.sub_self, BitVec.add_zero]
  · rw [Nat.sub_self, if_neg (Nat.not_lt_zero _)]

theorem Backward.start (dest src : BitVec 64) (size : Nat) (m : Mem) :
    Backward dest src size m size (dest + BitVec.ofNat 64 size) (src + BitVec.ofNat 64 size) m :=
  ⟨Nat.le_refl size, rfl, rfl, fun _ => by rw [if_neg (by omega)]⟩

theorem Forward.finish (h : Forward dest src size m₀ 0 d a m) : Copied size m₀ src dest m := h.mem

theorem Backward.finish (h : Backward dest src size m₀ 0 d a m) : Copied size m₀ src dest m := by
  intro x
  rw [h.mem]
  exact if_congr (by omega) rfl rfl

end

section

variable (r : MoveRegs) (adjust : Op) (off : Nat → BitVec 64)

/-- The loops of a move, for both directions. -/
def qwords : List (Ins MoveLabel) :=
  wordLoop r .qwordLab .lwordLab .ldq (BitVec.ofNat 64 8) (off 8) adjust

def lwords : List (Ins MoveLabel) :=
  wordLoop r .lwordLab .byteLab .ldl (BitVec.ofNat 64 4) (off 4) adjust

def bytes : List (Ins MoveLabel) := byteLoop r (off 1) adjust

end

/-- The loops for bytes and longwords stand at the end of a program. -/
structure Tail (env : Env MoveLabel) (r : MoveRegs) (adjust : Op) (off : Nat → BitVec 64)
    (prog : List (Ins MoveLabel)) : Prop where
  byteLab : (machine env).after .byteLab prog =
    some ((bytes r adjust off).tail ++ [.setLabel .endlab])
  endlab : (machine env).after .endlab prog = some []

variable {env : Env MoveLabel} {r : MoveRegs} {adjust : Op} {off : Nat → BitVec 64}
  {prog : List (Ins MoveLabel)} {s : State} {n : Nat} {d a : BitVec 64} {m : Mem}

theorem le_toInt_iff {n : Nat} (hn : n < 2 ^ 64) :
    4 ≤ (BitVec.ofNat 64 n).toInt ↔ 4 ≤ n ∧ n < 2 ^ 63 := by
  rw [BitVec.toInt_ofNat']
  simp only [Int.bmod_def]
  omega

section

variable {Inv : Nat → BitVec 64 → BitVec 64 → Mem → Prop}

/-- What is kept by the copying of words of any length. -/
def Kept (adjust : Op) (off : Nat → BitVec 64) (Inv : Nat → BitVec 64 → BitVec 64 → Mem → Prop) :
    Prop :=
  ∀ k n d a m m', k ≤ n → Inv n d a m → Copied k m (a + off k) (d + off k) m' →
    Inv (n - k) (adjust.apply d (BitVec.ofNat 64 k)) (adjust.apply a (BitVec.ofNat 64 k)) m'

/-- The move is at its end, with nothing left. -/
def Done (Inv : Nat → BitVec 64 → BitVec 64 → Mem → Prop)
    (b : Place (Ins MoveLabel) MoveLabel × State) : Prop :=
  ∃ d a t, Inv 0 d a t.mem ∧ b = (.inside [], t)

theorem bytes_copy (htail : Tail env r adjust off prog) (hkept : Kept adjust off Inv)
    (h : At r s n d a m) (hn : n < 2 ^ 64) (hinv : Inv n d a m) :
    (machine env).Leads prog (.inside ((bytes r adjust off).tail ++ [.setLabel .endlab]), s)
      (Done Inv) := by
  refine (byteLoop_leads (P := Inv) htail.byteLab htail.endlab (fun n d a m hle hinv => ?_)
    h hn hinv).imp fun b hb => ?_
  · exact hkept 1 n d a m _ hle hinv (copied_byte m (a + off 1) (d + off 1))
  · obtain ⟨d, a, m, t, hat, hdone, rfl⟩ := hb
    exact ⟨d, a, t, hat.mem ▸ hdone, rfl⟩

/-- Where there is no longword left, the loop for them does nothing. -/
theorem lwords_copy (htail : Tail env r adjust off prog) (hkept : Kept adjust off Inv)
    (h : At r s n d a m) (hn : n < 2 ^ 64) (hinv : Inv n d a m)
    (hfew : (BitVec.ofNat 64 n).toInt < 4) :
    (machine env).Leads prog
      (.inside ((lwords r adjust off).tail ++ (bytes r adjust off ++ [.setLabel .endlab])), s)
      (Done Inv) := by
  obtain ⟨t, hat, hreach⟩ := wordLoop_head 4 htail.byteLab h _
  rw [if_pos (show (BitVec.ofNat 64 n).toInt < (BitVec.ofNat 64 4).toInt from hfew)] at hreach
  exact hreach.leads (bytes_copy htail hkept hat hn hinv)

theorem qwords_copy (htail : Tail env r adjust off prog)
    (hqword : (machine env).after .qwordLab prog = some ((qwords r adjust off).tail ++
      (lwords r adjust off ++ (bytes r adjust off ++ [.setLabel .endlab]))))
    (hlword : (machine env).after .lwordLab prog = some ((lwords r adjust off).tail ++
      (bytes r adjust off ++ [.setLabel .endlab])))
    (hkept : Kept adjust off Inv) (h : At r s n d a m) (hn : n < 2 ^ 64) (hinv : Inv n d a m)
    (hfew : (BitVec.ofNat 64 n).toInt < 4 ∨ n % 8 < 4 ∧ ∀ n' d a m, 8 ≤ n' → n' % 8 = n % 8 →
      Inv n' d a m → Fits env (a + off 8) 8 ∧ Fits env (d + off 8) 8) :
    (machine env).Leads prog (.inside ((qwords r adjust off).tail ++
      (lwords r adjust off ++ (bytes r adjust off ++ [.setLabel .endlab]))), s) (Done Inv) := by
  by_cases hlt : (BitVec.ofNat 64 n).toInt < 4
  · obtain ⟨t, hat, hreach⟩ := wordLoop_head 8 hlword h _
    rw [if_pos (show (BitVec.ofNat 64 n).toInt < (BitVec.ofNat 64 8).toInt from
      Int.lt_trans hlt (by decide))] at hreach
    exact hreach.leads (lwords_copy htail hkept hat hn hinv hlt)
  · obtain ⟨hmod, hfits⟩ := hfew.resolve_left hlt
    have hn63 := (le_toInt_iff hn).1 (Int.not_lt.1 hlt)
    refine (wordLoop_leads (P := fun n' d a m => Inv n' d a m ∧ n' % 8 = n % 8) loads_ldq
      (by decide) (by decide) hqword hlword htail.endlab ?_ h hn63.2 ⟨hinv, rfl⟩).bind
      fun b hb => ?_
    · intro n' d a m hle hp _ _
      refine ⟨hkept 8 n' d a m _ hle hp.1 (copied_quad m (a + off 8) (d + off 8)), ?_⟩
      rw [← Nat.mod_eq_sub_mod hle]
      exact hp.2
    · obtain ⟨-, n', d, a, m, hle, hp, hnot⟩ | ⟨d, a, m, t, hat, hp, rfl | ⟨hzero, rfl⟩⟩ := hb
      · exact absurd (hfits n' d a m hle hp.2 hp.1) hnot
      · refine lwords_copy htail hkept hat (by omega) hp.1 ?_
        exact (toInt_ofNat_lt (by omega) (by decide)).2 hmod
      · refine .refl ⟨d, a, t, ?_, rfl⟩
        rw [hat.mem, ← hzero]
        exact hp.1

end

/-- No byte has its top bit set. -/
def Small (m : Mem) : Prop := ∀ x, (m x).msb = false

theorem Small.store {v : BitVec 64} (hm : Small m) (hv : ∀ i < 8, (byte v i).msb = false)
    (a : BitVec 64) : Small (store m a v) := by
  intro x
  rw [Alpha.store]
  split
  · next h => exact hv _ h
  · exact hm x

theorem Small.long (hm : Small m) (a d : BitVec 64) :
    Small (Alpha.store m d ((Alpha.long m a).signExtend 64)) := by
  refine hm.store (fun i hi => ?_) d
  rw [byte_long (hm (a + 3)) hi]
  split
  · exact hm _
  · rfl

theorem Small.quad (hm : Small m) (a d : BitVec 64) :
    Small (Alpha.store m d (Alpha.quad m a)) := by
  refine hm.store (fun i hi => ?_) d
  rw [byte_quad m a hi]
  exact hm _

/-- The upper half of what is stored for a longword. -/
theorem store_long_zero (hm : Small m) (a d : BitVec 64) {j : Nat} (hlo : 4 ≤ j) (hhi : j < 8) :
    Alpha.store m d ((Alpha.long m a).signExtend 64) (d + BitVec.ofNat 64 j) = 0 := by
  have hsub : (d + BitVec.ofNat 64 j - d).toNat = j := by
    rw [BitVec.add_comm, BitVec.add_sub_cancel, BitVec.toNat_ofNat]
    omega
  rw [Alpha.store, hsub, if_pos hhi, byte_long (hm (a + 3)) hhi, if_neg (Nat.not_lt.2 hlo)]

section

variable {Spoilt : Nat → BitVec 64 → Mem → Prop}

/-- What a longword does to the bytes above it is seen at the end of the move. -/
structure Spoils (adjust : Op) (off : Nat → BitVec 64) (size : Nat)
    (Spoilt : Nat → BitVec 64 → Mem → Prop) : Prop where
  lword : ∀ n d m, 4 ≤ n → n ≤ size →
    (∀ j, 4 ≤ j → j < 8 → m (d + off 4 + BitVec.ofNat 64 j) = 0) →
    Spoilt (n - 4) (adjust.apply d (BitVec.ofNat 64 4)) m
  byte : ∀ n d m v, 1 ≤ n → n < 4 → Spoilt n d m →
    Spoilt (n - 1) (adjust.apply d (BitVec.ofNat 64 1)) (Function.update m (d + off 1) v)
  zero : ∀ d m, Spoilt 0 d m → ∃ x, m x = 0

/-- The move has failed, or is at its end with a zero in the memory. -/
def Bad (env : Env MoveLabel) (prog : List (Ins MoveLabel))
    (b : Place (Ins MoveLabel) MoveLabel × State) : Prop :=
  (machine env).Stuck prog b ∨ ∃ t x, b = (.inside [], t) ∧ t.mem x = 0

theorem bytes_spoilt {size : Nat} (htail : Tail env r adjust off prog)
    (hspoils : Spoils adjust off size Spoilt) (h : At r s n d a m) (hn : n < 4)
    (hspoilt : Spoilt n d m) :
    (machine env).Leads prog (.inside ((bytes r adjust off).tail ++ [.setLabel .endlab]), s)
      (Bad env prog) := by
  refine (byteLoop_leads (P := fun n d _ m => n < 4 ∧ Spoilt n d m) htail.byteLab htail.endlab
    (fun n d a m hle hp => ?_) h (by omega) ⟨hn, hspoilt⟩).imp fun b hb => ?_
  · exact ⟨by omega, hspoils.byte n d m _ hle hp.1 hp.2⟩
  · obtain ⟨d, a, m, t, hat, hp, rfl⟩ := hb
    obtain ⟨x, hx⟩ := hspoils.zero d m hp.2
    exact .inr ⟨t, x, rfl, hat.mem ▸ hx⟩

theorem lwords_spoil {size : Nat} (htail : Tail env r adjust off prog)
    (hlword : (machine env).after .lwordLab prog = some ((lwords r adjust off).tail ++
      (bytes r adjust off ++ [.setLabel .endlab])))
    (hspoils : Spoils adjust off size Spoilt) (h : At r s n d a m) (hn : n < 2 ^ 63)
    (hsize : n ≤ size) (hle : 4 ≤ n) (hm : Small m) :
    (machine env).Leads prog
      (.inside ((lwords r adjust off).tail ++ (bytes r adjust off ++ [.setLabel .endlab])), s)
      (Bad env prog) := by
  refine (wordLoop_leads (P := fun n' d _ m => Small m ∧ n' ≤ n ∧ (n' = n ∨ Spoilt n' d m))
    loads_ldl (by decide) (by decide) hlword htail.byteLab htail.endlab ?_ h hn
    ⟨hm, Nat.le_refl n, .inl rfl⟩).bind fun b hb => ?_
  · intro n' d a m hle hp _ _
    refine ⟨hp.1.long _ _, by omega, .inr (hspoils.lword n' d _ hle (by omega) fun j hlo hhi => ?_)⟩
    exact store_long_zero hp.1 _ _ hlo hhi
  · obtain ⟨hstuck, -⟩ | ⟨d, a, m, t, hat, hp, rfl | ⟨hzero, rfl⟩⟩ := hb
    · exact .refl (.inl hstuck)
    · exact bytes_spoilt htail hspoils hat (Nat.mod_lt n (by decide))
        (hp.2.2.resolve_left (by omega))
    · obtain ⟨x, hx⟩ := hspoils.zero d m (hzero ▸ hp.2.2.resolve_left (by omega))
      exact .refl (.inr ⟨t, x, rfl, hat.mem ▸ hx⟩)

theorem qwords_spoil {size : Nat} (htail : Tail env r adjust off prog)
    (hqword : (machine env).after .qwordLab prog = some ((qwords r adjust off).tail ++
      (lwords r adjust off ++ (bytes r adjust off ++ [.setLabel .endlab]))))
    (hlword : (machine env).after .lwordLab prog = some ((lwords r adjust off).tail ++
      (bytes r adjust off ++ [.setLabel .endlab])))
    (hspoils : Spoils adjust off size Spoilt) (h : At r s n d a m) (hn : n < 2 ^ 63)
    (hsize : n ≤ size) (hle : 4 ≤ n % 8) (hm : Small m) :
    (machine env).Leads prog (.inside ((qwords r adjust off).tail ++
      (lwords r adjust off ++ (bytes r adjust off ++ [.setLabel .endlab]))), s)
      (Bad env prog) := by
  refine (wordLoop_leads (P := fun _ _ _ m => Small m) loads_ldq (by decide) (by decide) hqword
    hlword htail.endlab (fun _ _ _ _ _ hp _ _ => hp.quad _ _) h hn hm).bind fun b hb => ?_
  obtain ⟨hstuck, -⟩ | ⟨d, a, m, t, hat, hp, rfl | ⟨hzero, rfl⟩⟩ := hb
  · exact .refl (.inl hstuck)
  · exact lwords_spoil htail hlword hspoils hat (by omega) (by omega) hle hp
  · omega

end

end Tendra.Ref.Trans.Alpha
