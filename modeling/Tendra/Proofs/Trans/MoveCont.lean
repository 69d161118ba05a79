import Tendra.Proofs.Trans.BlockMove

/-!
# When a block move is right

Both moves are right for bytes, and where the loop for longwords has nothing to do. The
one that goes down starts at the ends of the regions, which are not those of quadwords
where the size does not fill them; then its accesses fault, and it is the system that has
to complete them.
-/

namespace Tendra.Ref.Trans.Alpha

open Machine

variable {bytemove : Nat}

/-- The program ends, with the bytes of the source at the destination and no others
changed. -/
def Copies (env : Env MoveLabel) (r : MoveRegs) (prog : List (Ins MoveLabel))
    (dest src size : BitVec 64) : Prop :=
  ∀ s : State, s.get r.dest = dest → s.get r.src = src → s.get r.sizereg = size →
    ∃ t, (machine env).Ends prog s (.inside []) t ∧ Copied size.toNat s.mem src dest t.mem

/-- The loop for longwords has nothing to do. -/
def NoLongword (bytemove : Nat) (size : BitVec 64) : Prop :=
  bytemove = 1 ∨ size.toInt < 4 ∨ bytemove = 8 ∧ size.toNat % 8 < 4

/-- The ends of the regions are those of quadwords, where it matters. -/
def EndsFit (env : Env MoveLabel) (bytemove : Nat) (size : BitVec 64) : Prop :=
  bytemove = 8 → 8 ≤ size.toInt → env.fixup = true ∨ size.toNat % 8 = 0

/-- The offsets of the accesses, for a move up and for one down. -/
def upward (_ : Nat) : BitVec 64 := 0

def downward (bytes : Nat) : BitVec 64 := -BitVec.ofNat 64 bytes

theorem add_upward (d : BitVec 64) (k : Nat) : d + upward k = d := BitVec.add_zero d

section

variable {env : Env MoveLabel} {r : MoveRegs} {prog : List (Ins MoveLabel)}
  {dest src size : BitVec 64} {s : State} {n : Nat} {d a : BitVec 64} {m : Mem}

theorem ofNat_toNat (x : BitVec 64) : BitVec.ofNat 64 x.toNat = x := by
  rw [BitVec.ofNat_toNat, BitVec.setWidth_eq]

theorem copies_of_done (Inv : Mem → Nat → BitVec 64 → BitVec 64 → Mem → Prop)
    (hdone : ∀ s, At r s size.toNat dest src s.mem →
      (machine env).Leads prog (.inside prog, s) (Done (Inv s.mem)))
    (hinv : ∀ m₀ d a m, Inv m₀ 0 d a m → Copied size.toNat m₀ src dest m) :
    Copies env r prog dest src size := by
  intro s hdest hsrc hsize
  have hat : At r s size.toNat dest src s.mem := by
    refine ⟨?_, hdest, hsrc, rfl⟩
    rw [hsize, ofNat_toNat]
  obtain ⟨b, hreach, d, a, t, hend, rfl⟩ := hdone s hat
  exact ⟨t, ⟨hreach, rfl⟩, hinv s.mem d a t.mem hend⟩

/-- A move that can leave a zero behind, where there was none, is wrong. -/
theorem not_copies_of_bad (hbad : ∀ s, At r s size.toNat dest src (fun _ => 1) →
      (machine env).Leads prog (.inside prog, s) (Bad env prog)) :
    ¬ Copies env r prog dest src size := by
  intro hcopies
  have hapart := r.apart
  simp [List.nodup_cons] at hapart
  let s : State :=
    ⟨fun x => if x = r.dest then dest else if x = r.src then src else size, fun _ => 1⟩
  have hdest : s.get r.dest = dest := by simp [s, State.get, hapart]
  have hsrc : s.get r.src = src := by simp [s, State.get, hapart]
  have hsize : s.get r.sizereg = size := by simp [s, State.get, hapart]
  have hat : At r s size.toNat dest src (fun _ => 1) := by
    refine ⟨?_, hdest, hsrc, rfl⟩
    rw [hsize, ofNat_toNat]
  obtain ⟨t, hends, hcopied⟩ := hcopies s hdest hsrc hsize
  obtain ⟨b, hreach, hstuck | ⟨u, x, rfl, hx⟩⟩ := hbad s hat
  · exact hends.not_stuck hreach hstuck
  · obtain ⟨-, rfl⟩ := hends.unique ⟨hreach, rfl⟩
    have hone : t.mem x = 1 := by
      rw [hcopied x]
      split <;> rfl
    rw [hone] at hx
    exact absurd hx (by decide)

theorem reaches_label (l : MoveLabel) (c : List (Ins MoveLabel)) (s : State) :
    (machine env).Reaches prog (.inside (.setLabel l :: c), s) (.inside c, s) :=
  reaches_step (m := machine env) (i := .setLabel l) rfl c

variable (env prog) in
/-- The move down starts at the ends of the regions. -/
theorem reaches_ends (h : At r s n d a m) (l : MoveLabel) (c : List (Ins MoveLabel)) :
    ∃ t, At r t n (d + BitVec.ofNat 64 n) (a + BitVec.ofNat 64 n) m ∧
      (machine env).Reaches prog (.inside (.operateFmt .addq r.dest r.sizereg r.dest ::
        .operateFmt .addq r.src r.sizereg r.src :: .setLabel l :: c), s) (.inside c, t) := by
  have hapart := r.apart
  simp [List.nodup_cons] at hapart
  let t := s.set r.dest (s.get r.dest + s.get r.sizereg)
  let u := t.set r.src (t.get r.src + t.get r.sizereg)
  have hdest : exec env (.operateFmt .addq r.dest r.sizereg r.dest) s = some (t, .step) := rfl
  have hsrc : exec env (.operateFmt .addq r.src r.sizereg r.src) t = some (u, .step) := rfl
  refine ⟨u, ⟨?_, ?_, ?_, h.mem⟩, (reaches_step hdest _).trans ((reaches_step hsrc _).trans
    (reaches_label l c u))⟩
  · simp [u, t, hapart, h.size]
  · simp [u, t, hapart, h.size, h.dest]
  · simp [u, t, hapart, h.size, h.src]

end

section

variable {dest src : BitVec 64} {size : Nat}

theorem Forward.kept (m₀ : Mem) (hle : dest ≤ src) (hs : src.toNat + size ≤ 2 ^ 64) :
    Kept .addq upward (Forward dest src size m₀) := by
  intro k n d a m m' hk hinv hm
  simp only [add_upward] at hm
  exact hinv.step hle hs hk hm

theorem Backward.kept (m₀ : Mem) (hle : src ≤ dest) (hd : dest.toNat + size ≤ 2 ^ 64) :
    Kept .subq downward (Backward dest src size m₀) := by
  intro k n d a m m' hk hinv hm
  simp only [downward, ← BitVec.sub_eq_add_neg] at hm
  exact hinv.step hle hd hk hm

theorem fits_of_mod {env : Env MoveLabel} {a : BitVec 64} {i : Nat} (ha : a.toNat % 8 = 0)
    (hi : i % 8 = 0) : Fits env (a + BitVec.ofNat 64 i) 8 := by
  refine .inr ?_
  rw [BitVec.toNat_add, BitVec.toNat_ofNat]
  omega

/-- A zero that bytes still to be moved up do not reach. -/
def SpoiltUp (n : Nat) (d : BitVec 64) (m : Mem) : Prop :=
  ∃ c, c ≤ 3 ∧ (n ≤ c ∨ c = 3) ∧ m (d + BitVec.ofNat 64 c) = 0

/-- A zero above those still to be moved down. -/
def SpoiltDown (size n : Nat) (d : BitVec 64) (m : Mem) : Prop :=
  ∃ c, c + n ≤ size ∧ m (d + BitVec.ofNat 64 c) = 0

theorem ne_add_ofNat {d : BitVec 64} {c : Nat} (hc : 0 < c) (hlt : c < 2 ^ 64) :
    d + BitVec.ofNat 64 c ≠ d := by
  intro h
  refine ofNat_ne_zero (Nat.ne_of_gt hc) hlt ?_
  have := congrArg (· - d) h
  simpa [BitVec.add_comm d, BitVec.add_sub_cancel] using this

theorem spoils_up : Spoils .addq upward size SpoiltUp where
  lword n d m _ _ hzero := by
    refine ⟨3, by omega, .inr rfl, ?_⟩
    have := hzero 7 (by omega) (by omega)
    rwa [add_upward, BitVec.ofNat_add 4 3, ← BitVec.add_assoc] at this
  byte n d m v hpos hlt hspoilt := by
    obtain ⟨c, hc, hle, hm⟩ := hspoilt
    obtain ⟨c, rfl⟩ : ∃ c', c = c' + 1 := ⟨c - 1, by omega⟩
    refine ⟨c, by omega, .inl (by omega), ?_⟩
    have heq : Op.addq.apply d (BitVec.ofNat 64 1) + BitVec.ofNat 64 c =
        d + BitVec.ofNat 64 (c + 1) := by
      rw [Nat.add_comm, BitVec.ofNat_add, ← BitVec.add_assoc]
      rfl
    rw [heq, add_upward, Function.update_of_ne (ne_add_ofNat (by omega) (by omega))]
    exact hm
  zero d m hspoilt := by
    obtain ⟨c, -, -, hm⟩ := hspoilt
    exact ⟨_, hm⟩

theorem spoils_down (hsize : size < 2 ^ 63) : Spoils .subq downward size (SpoiltDown size) where
  lword n d m hle hn hzero := by
    refine ⟨4, by omega, ?_⟩
    have := hzero 4 (by omega) (by omega)
    rwa [downward, ← BitVec.sub_eq_add_neg] at this
  byte n d m v hpos hlt hspoilt := by
    obtain ⟨c, hc, hm⟩ := hspoilt
    refine ⟨c + 1, by omega, ?_⟩
    have heq : Op.subq.apply d (BitVec.ofNat 64 1) + BitVec.ofNat 64 (c + 1) =
        d + BitVec.ofNat 64 c := by
      rw [Nat.add_comm, BitVec.ofNat_add, ← BitVec.add_assoc]
      exact congrArg (· + _) (BitVec.sub_add_cancel d _)
    have hne : d + BitVec.ofNat 64 c ≠ d + downward 1 := by
      rw [← heq, downward, ← BitVec.sub_eq_add_neg]
      exact ne_add_ofNat (by omega) (by omega)
    rw [heq, Function.update_of_ne hne]
    exact hm
  zero d m hspoilt := by
    obtain ⟨c, -, hm⟩ := hspoilt
    exact ⟨_, hm⟩

end

section

variable {env : Env MoveLabel} {r : MoveRegs} {dest src size : BitVec 64} {s : State} {n : Nat}
  {d a : BitVec 64} {m : Mem}

theorem tail_dlts (bytemove : Nat) (hb : bytemove = 8 ∨ bytemove = 4 ∨ bytemove = 1) :
    Tail env r .addq upward (moveDlts r bytemove) := by
  obtain rfl | rfl | rfl := hb
  · exact ⟨rfl, rfl⟩
  · exact ⟨rfl, rfl⟩
  · exact ⟨rfl, rfl⟩

theorem tail_dgts (bytemove : Nat) (hb : bytemove = 8 ∨ bytemove = 4 ∨ bytemove = 1) :
    Tail env r .subq downward (moveDgts r bytemove) := by
  obtain rfl | rfl | rfl := hb
  · exact ⟨rfl, rfl⟩
  · exact ⟨rfl, rfl⟩
  · exact ⟨rfl, rfl⟩

/-- `move_dlts` is right where there is no longword to move. -/
theorem moveDlts_copies (hb : bytemove = 8 ∨ bytemove = 4 ∨ bytemove = 1)
    (hs : src.toNat + size.toNat ≤ 2 ^ 64) (had : dest.toNat % bytemove = 0)
    (has : src.toNat % bytemove = 0) (hle : dest ≤ src) (hno : NoLongword bytemove size) :
    Copies env r (moveDlts r bytemove) dest src size := by
  have hsize := ofNat_toNat size
  refine copies_of_done (Forward dest src size.toNat) (fun s hat => ?_)
    fun m₀ d a m h => h.finish
  have hstart := Forward.start dest src size.toNat s.mem
  have hkept := Forward.kept s.mem hle hs
  have htail : Tail env r .addq upward (moveDlts r bytemove) := tail_dlts bytemove hb
  obtain rfl | rfl | rfl := hb
  · refine (reaches_label _ _ s).leads (qwords_copy htail rfl rfl hkept hat size.isLt hstart ?_)
    rw [hsize]
    refine (hno.resolve_left (by decide)).imp_right fun hmod => ⟨hmod.2, ?_⟩
    intro n d a m hn hmod hinv
    have := hinv.le
    rw [add_upward, add_upward, hinv.dest_eq, hinv.src_eq]
    exact ⟨fits_of_mod has (by omega), fits_of_mod had (by omega)⟩
  · have hfew : size.toInt < 4 := by
      obtain h | h | h := hno
      · cases h
      · exact h
      · cases h.1
    exact (reaches_label _ _ s).leads
      (lwords_copy htail hkept hat size.isLt hstart (hsize.symm ▸ hfew))
  · exact (reaches_label _ _ s).leads (bytes_copy htail hkept hat size.isLt hstart)

theorem small_one : Small fun _ => 1 := fun _ => show (1 : BitVec 8).msb = false by decide

/-- Where there is one, it is not. -/
theorem moveDlts_spoils (hb : bytemove = 8 ∨ bytemove = 4 ∨ bytemove = 1)
    (hno : ¬ NoLongword bytemove size) : ¬ Copies env r (moveDlts r bytemove) dest src size := by
  have hsize := ofNat_toNat size
  have hfew : ¬ size.toInt < 4 := fun h => hno (.inr (.inl h))
  rw [← hsize, Int.not_lt, le_toInt_iff size.isLt] at hfew
  refine not_copies_of_bad fun s hat => ?_
  have htail : Tail env r .addq upward (moveDlts r bytemove) := tail_dlts bytemove hb
  obtain rfl | rfl | rfl := hb
  · refine (reaches_label _ _ s).leads (qwords_spoil htail rfl rfl spoils_up hat hfew.2
      (Nat.le_refl _) ?_ small_one)
    exact Nat.le_of_not_lt fun h => hno (.inr (.inr ⟨rfl, h⟩))
  · exact (reaches_label _ _ s).leads (lwords_spoil htail rfl spoils_up hat hfew.2
      (Nat.le_refl _) hfew.1 small_one)
  · exact absurd (.inl rfl) hno

theorem fits_below {env : Env MoveLabel} {n : Nat} (hd : d.toNat % 8 = 0) :
    Fits env (d + BitVec.ofNat 64 n + downward 8) 8 ↔ env.fixup = true ∨ n % 8 = 0 := by
  rw [Fits, downward, ← BitVec.sub_eq_add_neg, BitVec.toNat_sub, BitVec.toNat_add,
    BitVec.toNat_ofNat, BitVec.toNat_ofNat]
  refine or_congr_right ?_
  omega

/-- `move_dgts` is right where moreover the ends of the regions fit. -/
theorem moveDgts_copies (hb : bytemove = 8 ∨ bytemove = 4 ∨ bytemove = 1)
    (hd : dest.toNat + size.toNat ≤ 2 ^ 64) (had : dest.toNat % bytemove = 0)
    (has : src.toNat % bytemove = 0) (hle : src ≤ dest) (hno : NoLongword bytemove size)
    (hends : EndsFit env bytemove size) : Copies env r (moveDgts r bytemove) dest src size := by
  have hsize := ofNat_toNat size
  refine copies_of_done (Backward dest src size.toNat) (fun s hat => ?_)
    fun m₀ d a m h => h.finish
  have hstart := Backward.start dest src size.toNat s.mem
  have hkept := Backward.kept s.mem hle hd
  have htail : Tail env r .subq downward (moveDgts r bytemove) := tail_dgts bytemove hb
  obtain rfl | rfl | rfl := hb
  · obtain ⟨t, hat', hreach⟩ := reaches_ends env (moveDgts r 8) hat .qwordLab _
    refine hreach.leads (qwords_copy htail rfl rfl hkept hat' size.isLt hstart ?_)
    by_cases hlt : size.toInt < 4
    · exact .inl (hsize.symm ▸ hlt)
    · have hmod := ((hno.resolve_left (by decide)).resolve_left hlt).2
      refine .inr ⟨hmod, fun n d a m hn heq hinv => ?_⟩
      have hbig : 8 ≤ size.toInt := by
        rw [← hsize, Int.not_lt, le_toInt_iff size.isLt] at hlt
        have := hinv.le
        have := (toInt_ofNat_lt hlt.2 (show 8 < 2 ^ 63 from by decide)).not.2 (by omega)
        rw [hsize] at this
        exact Int.not_lt.1 this
      rw [hinv.dest_eq, hinv.src_eq, fits_below has, fits_below had, heq]
      exact ⟨hends rfl hbig, hends rfl hbig⟩
  · have hfew : size.toInt < 4 := by
      obtain h | h | h := hno
      · cases h
      · exact h
      · cases h.1
    obtain ⟨t, hat', hreach⟩ := reaches_ends env (moveDgts r 4) hat .lwordLab _
    exact hreach.leads (lwords_copy htail hkept hat' size.isLt hstart (hsize.symm ▸ hfew))
  · obtain ⟨t, hat', hreach⟩ := reaches_ends env (moveDgts r 1) hat .byteLab _
    exact hreach.leads (bytes_copy htail hkept hat' size.isLt hstart)

theorem moveDgts_spoils (hb : bytemove = 8 ∨ bytemove = 4 ∨ bytemove = 1)
    (hno : ¬ NoLongword bytemove size) : ¬ Copies env r (moveDgts r bytemove) dest src size := by
  have hsize := ofNat_toNat size
  have hfew : ¬ size.toInt < 4 := fun h => hno (.inr (.inl h))
  rw [← hsize, Int.not_lt, le_toInt_iff size.isLt] at hfew
  refine not_copies_of_bad fun s hat => ?_
  have htail : Tail env r .subq downward (moveDgts r bytemove) := tail_dgts bytemove hb
  obtain rfl | rfl | rfl := hb
  · obtain ⟨t, hat', hreach⟩ := reaches_ends env (moveDgts r 8) hat .qwordLab _
    refine hreach.leads (qwords_spoil htail rfl rfl (spoils_down hfew.2) hat' hfew.2
      (Nat.le_refl _) ?_ small_one)
    exact Nat.le_of_not_lt fun h => hno (.inr (.inr ⟨rfl, h⟩))
  · obtain ⟨t, hat', hreach⟩ := reaches_ends env (moveDgts r 4) hat .lwordLab _
    exact hreach.leads (lwords_spoil htail rfl (spoils_down hfew.2) hat' hfew.2
      (Nat.le_refl _) hfew.1 small_one)
  · exact absurd (.inl rfl) hno

/-- Where the ends do not fit, the first quadword faults. -/
theorem moveDgts_faults (had : dest.toNat % 8 = 0) (hends : ¬ EndsFit env 8 size) :
    ¬ Copies env r (moveDgts r 8) dest src size := by
  have hsize := ofNat_toNat size
  obtain ⟨hbig, hnot⟩ : 8 ≤ size.toInt ∧ ¬ (env.fixup = true ∨ size.toNat % 8 = 0) := by
    simpa [EndsFit] using hends
  have hbig' : 8 ≤ size.toNat ∧ size.toNat < 2 ^ 63 := by
    have h63 := (le_toInt_iff size.isLt).1 (hsize.symm ▸ Int.le_trans (by decide) hbig)
    refine ⟨Nat.le_of_not_lt fun h => ?_, h63.2⟩
    have := (toInt_ofNat_lt h63.2 (show 8 < 2 ^ 63 from by decide)).2 h
    rw [hsize] at this
    exact Int.not_lt.2 hbig this
  refine not_copies_of_bad fun s hat => ?_
  obtain ⟨t, hat', hreach⟩ := reaches_ends env (moveDgts r 8) hat .qwordLab _
  refine hreach.leads ((wordLoop_leads (P := fun n d _ _ => n = size.toNat ∧
    d = dest + BitVec.ofNat 64 n) loads_ldq (by decide) (by decide) rfl rfl rfl ?_ hat' hbig'.2
    ⟨rfl, rfl⟩).imp fun b hb => ?_)
  · intro n d a m hn hp _ hfits
    rw [hp.2, hp.1] at hfits
    exact absurd ((fits_below had).1 hfits) hnot
  · obtain ⟨hstuck, -⟩ | ⟨d, a, m, t, hat, hp, -⟩ := hb
    · exact .inl hstuck
    · omega

/-- The block moves copy the bytes of the source, and change no others, exactly where there is no
longword to move and, going down, the ends of the regions fit. -/
theorem blockMove_exact_iff (env : Env MoveLabel) (r : MoveRegs) {bytemove : Nat}
    {dest src size : BitVec 64} (hb : bytemove = 8 ∨ bytemove = 4 ∨ bytemove = 1)
    (hd : dest.toNat + size.toNat ≤ 2 ^ 64) (hs : src.toNat + size.toNat ≤ 2 ^ 64)
    (had : dest.toNat % bytemove = 0) (has : src.toNat % bytemove = 0) :
    (dest ≤ src →
      (Copies env r (moveDlts r bytemove) dest src size ↔ NoLongword bytemove size)) ∧
    (src ≤ dest → (Copies env r (moveDgts r bytemove) dest src size ↔
      NoLongword bytemove size ∧ EndsFit env bytemove size)) := by
  refine ⟨fun hle => ⟨fun h => ?_, moveDlts_copies hb hs had has hle⟩, fun hle => ⟨fun h => ?_,
    fun hno => moveDgts_copies hb hd had has hle hno.1 hno.2⟩⟩
  · by_contra hno
    exact moveDlts_spoils hb hno h
  · refine ⟨?_, ?_⟩
    · by_contra hno
      exact moveDgts_spoils hb hno h
    · by_contra hends
      have h8 : bytemove = 8 := by
        by_contra hne
        exact hends fun h => absurd h hne
      subst h8
      exact moveDgts_faults had hends h

/-- Registers as they are taken when all are free. -/
def firstRegs : MoveRegs where
  src := 1
  dest := 2
  sizereg := 3
  movereg := 4
  rtest := 5
  rtmp := 6
  rtmp2 := 7
  distinct := by decide

/-- A system that completes all accesses. -/
def fixingEnv : Env MoveLabel := ⟨true, fun _ => none, fun _ => 0⟩

/-- 24 bytes are moved down as three quadwords, and up likewise. -/
theorem blockMove_exact_iff_24 :
    Copies fixingEnv firstRegs (moveDlts firstRegs 8) 0x1000 0x1008 24 ∧
      Copies fixingEnv firstRegs (moveDgts firstRegs 8) 0x1008 0x1000 24 := by
  refine ⟨((blockMove_exact_iff fixingEnv firstRegs (.inl rfl) (by decide) (by decide) (by decide)
    (by decide)).1 (by decide)).2 (.inr (.inr ⟨rfl, by decide⟩)),
    ((blockMove_exact_iff fixingEnv firstRegs (.inl rfl) (by decide) (by decide) (by decide)
    (by decide)).2 (by decide)).2 ⟨.inr (.inr ⟨rfl, by decide⟩), fun _ _ => .inl rfl⟩⟩

/-- The last four of twelve bytes take those after them with them. -/
theorem not_copies_twelve :
    ¬ Copies fixingEnv firstRegs (moveDlts firstRegs 8) 0x1000 0x2000 12 ∧
      ¬ Copies fixingEnv firstRegs (moveDgts firstRegs 8) 0x2000 0x1000 12 := by
  have hno : ¬ NoLongword 8 12 := by
    simp [NoLongword]
  exact ⟨moveDlts_spoils (.inl rfl) hno, moveDgts_spoils (.inl rfl) hno⟩

end

end Tendra.Ref.Trans.Alpha
