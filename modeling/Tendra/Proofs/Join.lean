import Tendra.Proofs.Bitstream

/-!
# Joining streams

Whole chunks of the second stream are dumped to the file of the first, or copied
byte by byte, or the chain is hung behind the first one. In each case the bits of
the second stream follow those of the first.

`length_bitstream` counts in an `unsigned`. It is therefore the number of bits of
the stream modulo 2^32, and `enc_bitstream` announces that number: a stream of
2^29 bytes is announced as an empty one.

The streams that can occur are those that the functions of the library build from
new ones.
-/

namespace Tendra.Ref

open Tendra.Bits

variable {bs fs : Bitstream}

/-! ## Single chunks -/

theorem Chunk.length_seq {c : Chunk} (h : c.Ok) : c.seq.length = 8 * c.bytes + c.bits := by
  have hle : c.bytes ≤ c.text.toList.length := by
    rw [Vector.length_toList]
    exact h.bytes_le
  rw [Chunk.seq, List.length_append, length_ofBytes, length_lowBits, List.length_take,
    Nat.min_eq_left hle]

theorem Chunk.odd_lt_two_pow {c : Chunk} (h : c.Ok) : c.odd < 2 ^ c.bits := by
  have hbits := h.bits_lt
  rw [Chunk.odd, Nat.shiftRight_eq_div_pow, Nat.div_lt_iff_lt_mul (Nat.two_pow_pos _),
    ← Nat.pow_add, show c.bits + (byteSize - c.bits) = 8 from Nat.add_sub_cancel' hbits.le]
  exact (c.text[c.bytes]?.getD 0).isLt

/-- A dumped chunk keeps its odd bits. -/
theorem Chunk.dump_spec {c : Chunk} (h : c.Ok) :
    ∃ c' out, Bitstream.dumpChunk c = some (c', out) ∧ c'.Ok ∧ c'.bytes = 0 ∧
      c'.bits = c.bits ∧ c.seq = ofBytes out ++ c'.seq := by
  unfold Bitstream.dumpChunk
  split
  · next hz => exact ⟨c, [], rfl, h, hz, rfl, rfl⟩
  · dsimp only
    split
    · next hlt =>
        refine ⟨_, _, rfl, ⟨h.bits_lt, Nat.zero_le 64, fun _ => Nat.succ_pos 63⟩, rfl, rfl, ?_⟩
        have hlast : (c.text.setIfInBounds 0 (c.text[c.bytes]?.getD 0))[0]?.getD 0 =
            c.text[c.bytes]?.getD 0 := by
          rw [Vector.getElem?_setIfInBounds_self_of_lt (by decide), Option.getD_some]
        simp only [Chunk.seq, Chunk.odd, Chunk.last, List.take_zero, ofBytes_nil, List.nil_append]
        rw [hlast]
    · next hfull =>
        have h64 : c.bytes = 64 := Nat.le_antisymm h.bytes_le (Nat.not_lt.1 hfull)
        have hz : c.bits = 0 := by
          by_contra hne
          exact absurd (h.odd_lt hne) (by omega)
        rw [if_pos ⟨h64, hz⟩]
        refine ⟨_, _, rfl, ⟨h.bits_lt, Nat.zero_le 64, fun _ => Nat.succ_pos 63⟩, rfl, rfl, ?_⟩
        simp [Chunk.seq, hz]

namespace Bitstream

/-! ## Dumping -/

theorem dump_ok (h : bs.Ok) :
    ∃ bs', bs.dump = some bs' ∧ bs'.Ok ∧ bs'.cur.bytes = 0 ∧ bs'.cur.bits = bs.cur.bits ∧
      (bs.file.isSome → bs'.file.isSome ∧ bs'.seq = bs.seq) := by
  obtain ⟨c', out, hdump, hok, hbytes, hbits, hseq⟩ := Chunk.dump_spec h.cur
  refine ⟨{ bs with cur := c', file := bs.file.map (· ++ out) }, ?_,
    ⟨⟨h.prev, fun hf => h.file (by simpa using hf)⟩, hok⟩, hbytes, hbits, ?_⟩
  · rw [dump, hdump]
    rfl
  · intro hf
    obtain ⟨f, hf'⟩ := Option.isSome_iff_exists.1 hf
    have hprev : bs.prev = [] := h.file hf
    simp [seq, older, hf', hprev, hseq]

section

variable (w : Nat) (junk : Nat → Text)

/-! ## Copying -/

theorem copy_appends (hw : 32 ≤ w) (hfs : fs.Ok) {c : Chunk} (hc : c.Ok) :
    Appends (copy w junk fs c) fs c.seq := by
  have hbytes : Appends (copyBytes w junk fs c) fs (ofBytes (c.text.toList.take c.bytes)) := by
    unfold copyBytes
    split
    · exact encBytes_appends w junk hw hfs _
    · next hz =>
        rw [not_not.1 hz, List.take_zero, ofBytes_nil]
        exact Appends.refl hfs
  refine hbytes.bind fun fs1 hok _ _ => ?_
  have hlt := hc.bits_lt
  unfold copyBits
  split
  · exact encBits_appends w junk hw hok (by omega) (Chunk.odd_lt_two_pow hc)
  · next hz =>
      rw [not_not.1 hz, lowBits_zero]
      exact Appends.refl hok

/-- The bytes of an aligned stream go to its file, and nothing stays behind. -/
theorem flush_spec (hfs : fs.Ok) (hfile : fs.file.isSome) (haligned : fs.cur.bits = 0) :
    ∃ fs' f, fs.flush = some fs' ∧ fs'.Ok ∧ fs'.file = some f ∧ fs'.cur.seq = [] ∧
      fs.seq = ofBytes f := by
  have hseq : ∀ c : Chunk, c.bytes = 0 → c.bits = 0 → c.seq = [] := by
    intro c hbytes hbits
    rw [Chunk.seq, hbytes, hbits, List.take_zero, lowBits_zero, ofBytes_nil, List.nil_append]
  have hbody : ∀ {gs : Bitstream} {f : List (BitVec 8)}, gs.Ok → gs.file = some f →
      gs.cur.seq = [] → gs.seq = ofBytes f := by
    intro gs f hok hf hempty
    have hprev : gs.prev = [] := hok.file (by rw [hf]; rfl)
    simp [seq, older, hf, hprev, hempty]
  unfold flush
  split
  · obtain ⟨fs1, hrun, hok, hbytes, hbits, hkeep⟩ := dump_ok hfs
    obtain ⟨hfile1, hsame⟩ := hkeep hfile
    obtain ⟨f, hf⟩ := Option.isSome_iff_exists.1 hfile1
    have hempty := hseq fs1.cur hbytes (hbits.trans haligned)
    exact ⟨fs1, f, hrun, hok, hf, hempty, hsame ▸ hbody hok hf hempty⟩
  · next hz =>
      obtain ⟨f, hf⟩ := Option.isSome_iff_exists.1 hfile
      have hempty := hseq fs.cur (not_not.1 hz) haligned
      exact ⟨fs, f, rfl, hfs, hf, hempty, hbody hfs hf hempty⟩

/-- A chunk goes to a stream with a file. -/
theorem joinChunk_appends (hw : 32 ≤ w) (hfs : fs.Ok) (hfile : fs.file.isSome) {c : Chunk}
    (hc : c.Ok) : Appends (joinChunk w junk fs c) fs c.seq := by
  unfold joinChunk
  split
  · next haligned =>
      obtain ⟨fs1, f, hflush, hok, hf, hempty, hbits⟩ := flush_spec hfs hfile haligned.1
      obtain ⟨c', out, hdump, hok', -, -, hseq⟩ := Chunk.dump_spec hc
      have hprev : fs1.prev = [] := hok.file (by rw [hf]; rfl)
      have hfs2 : Ok { fs1 with file := fs1.file.map (· ++ out) } :=
        ⟨⟨hok.prev, fun _ => hprev⟩, hok.cur⟩
      obtain ⟨fs', hcopy, hok2, hfile2, hseq2⟩ := copy_appends w junk hw hfs2 hok'
      refine ⟨fs', ?_, hok2, ?_, ?_⟩
      · rw [hflush, Option.bind_eq_bind, Option.bind_some, hdump]
        exact hcopy
      · rw [hfile2, hfile, hf]
        rfl
      · rw [hseq2, hseq, hbits]
        simp [seq, older, hf, hprev, hempty]
  · exact copy_appends w junk hw hfs hc

/-! ## Joining -/

theorem takeLink_ok (h : fs.Ok) (c : Chunk) : (fs.takeLink c).Ok :=
  ⟨⟨h.prev, h.file⟩, ⟨h.cur.bits_lt, h.cur.bytes_le, h.cur.odd_lt⟩⟩

/-- A chain goes to a stream with a file, the oldest chunk first. -/
theorem joinFile_appends (hw : 32 ≤ w) (prev : List Chunk) : ∀ {fs : Bitstream} {c : Chunk},
    fs.Ok → fs.file.isSome → c.Ok → (∀ p ∈ prev, p.Ok) →
    Appends (joinFile w junk fs c prev) fs (prev.reverse.flatMap Chunk.seq ++ c.seq) := by
  induction prev with
  | nil =>
      intro fs c hfs hfile hc _
      exact joinChunk_appends w junk hw (takeLink_ok hfs c) hfile hc
  | cons p prev ih =>
      intro fs c hfs hfile hc hprev
      obtain ⟨hp, hprev'⟩ := List.forall_mem_cons.1 hprev
      rw [List.reverse_cons, List.flatMap_append, List.flatMap_singleton]
      have hrun : Appends (joinFile w junk (fs.takeLink c) p prev) fs
          (prev.reverse.flatMap Chunk.seq ++ p.seq) :=
        ih (takeLink_ok hfs c) hfile hp hprev'
      exact hrun.bind fun fs1 hok hfile1 _ =>
        joinChunk_appends w junk hw hok (hfile1.trans hfile) hc

/-- A chain that is hung behind a stream. -/
theorem link_appends (hfs : fs.Ok) (hbs : bs.Ok) (hfile : fs.file = none) (hnone : bs.file = none) :
    Appends (some { bs with prev := bs.prev ++ fs.cur :: fs.prev }) fs bs.seq := by
  refine ⟨_, rfl, ⟨⟨?_, ?_⟩, hbs.cur⟩, by rw [hfile, hnone], ?_⟩
  · intro c hc
    rcases List.mem_append.1 hc with hc | hc
    · exact hbs.prev c hc
    · rcases List.mem_cons.1 hc with rfl | hc
      · exact hfs.cur
      · exact hfs.prev c hc
  · intro hsome
    rw [hnone] at hsome
    cases hsome
  · simp [seq, older, hfile, hnone]

/-- `join_bitstreams` concatenates. -/
theorem join_appends (hw : 32 ≤ w) (hfs : fs.Ok) (hbs : bs.Ok) (hnone : bs.file = none) :
    Appends (join w junk fs bs) fs bs.seq := by
  unfold join
  split
  · next hfile =>
      have hseq : bs.seq = bs.prev.reverse.flatMap Chunk.seq ++ bs.cur.seq := by
        simp [seq, older, hnone]
      rw [hseq]
      exact joinFile_appends w junk hw bs.prev hfs hfile hbs.cur hbs.prev
  · next hfile =>
      have hfile' : fs.file = none := by simpa using hfile
      dsimp only
      split
      · next hsmall =>
          have hseq : bs.seq = bs.cur.seq := by simp [seq, older, hnone, hsmall.1]
          rw [hseq]
          exact copy_appends w junk hw (takeLink_ok hfs bs.cur) hbs.cur
      · exact link_appends (takeLink_ok hfs bs.cur) hbs hfile' hnone

end

/-! ## Lengths -/

/-- The count of `length_bitstream` wraps. -/
theorem foldl_length (cs : List Chunk) (h : ∀ c ∈ cs, c.Ok) (n : Nat) :
    cs.foldl (fun n c => (n + (byteSize * c.bytes + c.bits)) % 2 ^ 32) (n % 2 ^ 32) =
      (n + (cs.flatMap Chunk.seq).length) % 2 ^ 32 := by
  induction cs generalizing n with
  | nil => rfl
  | cons c cs ih =>
      obtain ⟨hc, hcs⟩ := List.forall_mem_cons.1 h
      rw [List.foldl_cons, Nat.mod_add_mod, ih hcs, List.flatMap_cons, List.length_append,
        Chunk.length_seq hc, Nat.add_assoc]

theorem length_eq (h : bs.Ok) (hnone : bs.file = none) : bs.length = bs.seq.length % 2 ^ 32 := by
  have hall : ∀ c ∈ bs.cur :: bs.prev, c.Ok := List.forall_mem_cons.2 ⟨h.cur, h.prev⟩
  have hlen : bs.seq.length = 0 + ((bs.cur :: bs.prev).flatMap Chunk.seq).length := by
    simp only [seq, older, hnone, Option.getD_none, ofBytes_nil, List.nil_append,
      List.length_append, List.length_flatMap, List.map_cons, List.sum_cons, List.map_reverse,
      List.sum_reverse, Nat.zero_add]
    exact Nat.add_comm _ _
  rw [hlen, length, ← foldl_length _ hall 0, Nat.zero_mod]

/-! ## The streams that can occur -/

section

variable {w : Nat}

/-- The streams that the functions of the library build, with arguments in range and
whatever text the allocator returns. -/
inductive Reachable (w : Nat) : Bitstream → Prop
  | start (text : Text) (f : Option (List (BitVec 8))) (lnk : Option Nat) :
      Reachable w (start text f lnk)
  | encBits {bs bs' : Bitstream} {junk : Nat → Text} {n d : Nat} : Reachable w bs → n ≤ 16 →
      d < 2 ^ n → bs.encBits w junk n d = some bs' → Reachable w bs'
  | encLongBits {bs bs' : Bitstream} {junk : Nat → Text} {n d : Nat} : Reachable w bs → n ≤ 32 →
      d < 2 ^ n → bs.encLongBits w junk n d = some bs' → Reachable w bs'
  | encBytes {bs bs' : Bitstream} {junk : Nat → Text} {s : List (BitVec 8)} : Reachable w bs →
      bs.encBytes w junk s = some bs' → Reachable w bs'
  | encInt {bs bs' : Bitstream} {junk : Nat → Text} {n : Nat} : Reachable w bs → n < 2 ^ w →
      bs.encInt w junk n = some bs' → Reachable w bs'
  | encBoundary {bs bs' : Bitstream} {junk : Nat → Text} : Reachable w bs →
      bs.encBoundary w junk = some bs' → Reachable w bs'
  | dump {bs bs' : Bitstream} : Reachable w bs → bs.dump = some bs' → Reachable w bs'
  | join {fs bs fs' : Bitstream} {junk : Nat → Text} : Reachable w fs → Reachable w bs →
      bs.file = none → join w junk fs bs = some fs' → Reachable w fs'
  | encBitstream {fs bs fs' : Bitstream} {junk : Nat → Text} : Reachable w fs → Reachable w bs →
      bs.file = none → encBitstream w junk fs bs = some fs' → Reachable w fs'

theorem Appends.ok {r : Option Bitstream} {bs' : Bitstream} {xs : List Bool} (h : Appends r bs xs)
    (hr : r = some bs') : bs'.Ok := by
  obtain ⟨bs1, hr1, hok, -, -⟩ := h
  rw [hr, Option.some.injEq] at hr1
  exact hr1 ▸ hok

theorem encBoundary_appends (junk : Nat → Text) (hw : 32 ≤ w) (h : bs.Ok) :
    ∃ n, Appends (bs.encBoundary w junk) bs (lowBits n 0) := by
  unfold encBoundary
  dsimp only
  split
  · exact ⟨_, encBits_appends w junk hw h (Nat.le_trans (Nat.sub_le _ _) (by decide))
      (Nat.two_pow_pos _)⟩
  · exact ⟨0, Appends.refl h⟩

/-- `enc_bitstream` announces the length modulo 2^32. -/
theorem encBitstream_appends (junk : Nat → Text) (hw : 32 ≤ w) (hfs : fs.Ok) (hbs : bs.Ok)
    (hnone : bs.file = none) :
    Appends (encBitstream w junk fs bs) fs (tdfInt (bs.seq.length % 2 ^ 32) ++ bs.seq) := by
  rw [encBitstream, length_eq hbs hnone]
  exact (encInt_appends w junk hw hfs _).bind fun fs1 hok _ _ =>
    join_appends w junk hw hok hbs hnone

theorem Reachable.ok (hw : 32 ≤ w) (h : Reachable w bs) : bs.Ok := by
  induction h with
  | start text f lnk => exact start_ok text f lnk
  | encBits _ hn hd hrun ih => exact (encBits_appends w _ hw ih hn hd).ok hrun
  | encLongBits _ hn hd hrun ih => exact (encLongBits_appends w _ hw ih hn hd).ok hrun
  | encBytes _ hrun ih => exact (encBytes_appends w _ hw ih _).ok hrun
  | encInt _ _ hrun ih => exact (encInt_appends w _ hw ih _).ok hrun
  | encBoundary _ hrun ih =>
      obtain ⟨n, hspec⟩ := encBoundary_appends _ hw ih
      exact hspec.ok hrun
  | dump _ hrun ih =>
      obtain ⟨bs1, hrun1, hok, -⟩ := dump_ok ih
      rw [hrun, Option.some.injEq] at hrun1
      exact hrun1 ▸ hok
  | join _ _ hnone hrun ihf ihb => exact (join_appends w _ hw ihf ihb hnone).ok hrun
  | encBitstream _ _ hnone hrun ihf ihb =>
      exact (encBitstream_appends _ hw ihf ihb hnone).ok hrun

/-- The writer is faithful. -/
theorem writer_appends (hw : 32 ≤ w) {bs : Bitstream} (h : Reachable w bs) (junk : Nat → Text) :
    (∀ n d, n ≤ 16 → d < 2 ^ n → Appends (bs.encBits w junk n d) bs (lowBits n d)) ∧
      (∀ n d, n ≤ 32 → d < 2 ^ n → Appends (bs.encLongBits w junk n d) bs (lowBits n d)) ∧
      (∀ s, Appends (bs.encBytes w junk s) bs (ofBytes s)) ∧
      ∀ n, n < 2 ^ w → Appends (bs.encInt w junk n) bs (tdfInt n) := by
  have hok := h.ok hw
  refine ⟨?_, ?_, ?_, ?_⟩
  · intro n d hn hd
    exact encBits_appends w junk hw hok hn hd
  · intro n d hn hd
    exact encLongBits_appends w junk hw hok hn hd
  · intro s
    exact encBytes_appends w junk hw hok s
  · intro n _
    exact encInt_appends w junk hw hok n

/-- A text of zeros. -/
def blank : Text := Vector.replicate chunkSize 0

theorem writer_appends_start :
    Reachable 64 (start blank (some []) none) ∧
      Appends ((start blank (some []) none).encLongBits 64 (fun _ => blank) 21 5)
        (start blank (some []) none) (lowBits 21 5) := by
  have hreach : Reachable 64 (start blank (some []) none) := Reachable.start _ _ _
  refine ⟨hreach, ?_⟩
  exact (writer_appends (by decide) hreach fun _ => blank).2.1 21 5 (by decide) (by decide)

end

/-! ## The announced length -/

theorem length_flatMap_group (ds : List Nat) : (ds.flatMap (lowBits 4)).length = 4 * ds.length := by
  induction ds with
  | nil => rfl
  | cons d ds ih =>
      rw [List.flatMap_cons, List.length_append, length_lowBits, ih, List.length_cons]
      ring

theorem octal_ne_nil (n : Nat) : octal n ≠ [] := by
  rcases Nat.lt_or_ge n 8 with h | h
  · rw [octal_small h]
    exact List.cons_ne_nil n []
  · rw [octal_large h]
    exact List.append_ne_nil_of_right_ne_nil _ (List.cons_ne_nil _ [])

/-- The digits in front of the last one, as groups. -/
def upper (n : Nat) : List Bool := if n < 8 then [] else (octal (n / 8)).flatMap (lowBits 4)

theorem flatMap_octal (n : Nat) :
    (octal n).flatMap (lowBits 4) = upper n ++ lowBits 4 (n % 8) := by
  unfold upper
  split
  · next h => rw [octal_small h, List.flatMap_singleton, List.nil_append, Nat.mod_eq_of_lt h]
  · next h => rw [octal_large (Nat.not_lt.1 h), List.flatMap_append, List.flatMap_singleton]

theorem tdfInt_eq (n : Nat) : tdfInt n = upper n ++ lowBits 4 (8 + n % 8) := by
  unfold upper
  split
  · next h => rw [tdfInt_small h, List.nil_append, Nat.mod_eq_of_lt h]
  · next h => rw [tdfInt_large (Nat.not_lt.1 h)]

/-- The groups determine the number. -/
theorem upper_inj {m n : Nat} (hmod : m % 8 = n % 8) (h : upper m = upper n) : m = n := by
  induction m using Nat.strong_induction_on generalizing n with
  | _ m ih =>
      have hne : ∀ k, (octal k).flatMap (lowBits 4) ≠ [] := by
        intro k hk
        have hlen := congrArg List.length hk
        rw [length_flatMap_group, List.length_nil] at hlen
        exact octal_ne_nil k (List.length_eq_zero_iff.1 (by omega))
      by_cases hm : m < 8 <;> by_cases hn : n < 8
      · omega
      · rw [upper, upper, if_pos hm, if_neg hn] at h
        exact absurd h.symm (hne _)
      · rw [upper, upper, if_neg hm, if_pos hn] at h
        exact absurd h (hne _)
      · rw [upper, upper, if_neg hm, if_neg hn, flatMap_octal, flatMap_octal] at h
        obtain ⟨hup, hlow⟩ := List.append_inj' h (by simp)
        have hdigit := lowBits_inj (by omega) (by omega) hlow
        have := ih (m / 8) (by omega) hdigit hup
        omega

theorem tdfInt_inj {m n : Nat} (h : tdfInt m = tdfInt n) : m = n := by
  rw [tdfInt_eq, tdfInt_eq] at h
  obtain ⟨hup, hlow⟩ := List.append_inj' h (by simp)
  have hdigit := lowBits_inj (by omega) (by omega) hlow
  exact upper_inj (by omega) hup

theorem Appends.unique {r : Option Bitstream} {xs ys : List Bool} (hx : Appends r bs xs)
    (hy : Appends r bs ys) : xs = ys := by
  obtain ⟨bs1, hr1, -, -, hseq1⟩ := hx
  obtain ⟨bs2, hr2, -, -, hseq2⟩ := hy
  rw [hr1, Option.some.injEq] at hr2
  rw [hr2, hseq2] at hseq1
  exact (List.append_cancel_left hseq1).symm

section

variable {w : Nat}

/-- The length is announced as it is exactly if it fits in an `unsigned`. -/
theorem encBitstream_appends_iff (junk : Nat → Text) (hw : 32 ≤ w) (hfs : fs.Ok) (hbs : bs.Ok)
    (hnone : bs.file = none) :
    Appends (encBitstream w junk fs bs) fs (tdfInt bs.seq.length ++ bs.seq) ↔
      bs.seq.length < 2 ^ 32 := by
  have hspec := encBitstream_appends junk hw hfs hbs hnone
  constructor
  · intro h
    have heq := tdfInt_inj (List.append_cancel_right (hspec.unique h))
    rw [← heq]
    exact Nat.mod_lt _ (Nat.two_pow_pos 32)
  · intro hlt
    rw [Nat.mod_eq_of_lt hlt] at hspec
    exact hspec

/-- Lengths add up as an `unsigned`. -/
theorem length_join (junk : Nat → Text) (hw : 32 ≤ w) {r : Bitstream} (hfs : fs.Ok) (hbs : bs.Ok)
    (hfile : fs.file = none) (hnone : bs.file = none) (hrun : join w junk fs bs = some r) :
    r.length = (fs.length + bs.length) % 2 ^ 32 := by
  obtain ⟨r', hrun', hok, hkeep, hseq⟩ := join_appends w junk hw hfs hbs hnone
  rw [hrun, Option.some.injEq] at hrun'
  subst hrun'
  have hr : r.file = none := by simpa [hfile] using hkeep
  rw [length_eq hok hr, length_eq hfs hfile, length_eq hbs hnone, hseq, List.length_append,
    ← Nat.add_mod]

end

end Bitstream

end Tendra.Ref
