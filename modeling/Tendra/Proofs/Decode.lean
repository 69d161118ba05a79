import Mathlib.Data.Nat.Digits.Lemmas
import Tendra.Proofs.Join
import Tendra.Ref.Decode

/-!
# Reading back what has been written

The reader stands for the bits that it has not read yet: those of its buffer from its
position on, and those of the file behind it. A turn of `de_bits` takes a byte off
them, whether or not the buffer has to be filled first, as long as it is filled when
it is used up and not before. This is decided by a comparison with the local variable
`sz`, which has no value before the first refill of the call; the comparison is right
in a call exactly if `sz` happens to lie on the same side as `size` of every position
that the call comes to in the buffer.
-/

namespace Tendra.Ref

open Tendra.Bits

variable {s : Locals}

namespace Decoder

/-- The bits from a byte of the buffer on. -/
def bitsFrom (bs : Decoder) (bytes : Nat) : List Bool :=
  ofBytes ((bs.text.toList.take bs.size).drop bytes ++ bs.file)

/-- The bits that have not been read. -/
def rest (bs : Decoder) : List Bool := (bs.bitsFrom bs.bytes).drop bs.bits

/-- The state in which every function leaves a reader. -/
structure Ok (bs : Decoder) : Prop where
  bits_lt : bs.bits < 8
  bytes_le : bs.bytes ≤ bs.size
  size_le : bs.size ≤ 64
  odd_lt : bs.bits ≠ 0 → bs.bytes < bs.size

/-- The tests of a call come out as they would with `size` in the place of `sz`. -/
def Locals.Exact (w : Nat) : Nat → Locals → Prop
  | 0, _ => True
  | k + 1, s => s.m ≠ 0 → (s.bytes ≥ s.sz ↔ s.bytes ≥ s.bs.size) ∧ Exact w k (s.refill.next w)

/-- In a call, the buffer is filled exactly when the position has reached the number of bytes
that were read last. -/
def Refills (w : Nat) (junk : Nat → Nat) (bs : Decoder) (n : Nat) : Prop :=
  (bs.locals junk n).Exact w (n + bs.bits)

/-- The value that `sz` happens to have at the start of a call tells the positions of the buffer
that the call comes to apart as `size` does. -/
def SizeLike (junk : Nat → Nat) (bs : Decoder) (n : Nat) : Prop :=
  ∀ b, bs.bytes ≤ b → b ≤ bs.size → 8 * (b - bs.bytes) < n + bs.bits →
    (b ≥ junk bs.calls ↔ b ≥ bs.size)

/-! ## Refills -/

theorem start_ok (text : Text) (f : List (BitVec 8)) : (start text f).Ok :=
  ⟨Nat.zero_lt_succ 7, Nat.le_refl _, Nat.zero_le _, fun h => absurd rfl h⟩

theorem start_rest (text : Text) (f : List (BitVec 8)) : (start text f).rest = ofBytes f := by
  simp [start, rest, bitsFrom]

theorem fill_size (bs : Decoder) : 0 < bs.fill.size ∧ bs.fill.size ≤ 64 := by
  unfold fill
  dsimp only
  split
  · exact ⟨Nat.zero_lt_succ 63, Nat.le_refl _⟩
  · next h =>
      refine ⟨Nat.pos_of_ne_zero h, ?_⟩
      rw [List.length_take]
      exact Nat.min_le_left _ _

/-- A buffer that has been filled from the file. -/
theorem fill_bitsFrom {bs : Decoder} (h : bs.file ≠ []) :
    bs.fill.bitsFrom 0 = ofBytes bs.file := by
  have hpos := List.length_pos_iff.2 h
  have hlen : (bs.file.take chunkSize).length ≠ 0 := by
    rw [List.length_take]
    show min 64 bs.file.length ≠ 0
    omega
  have htext : ∀ i < (bs.file.take chunkSize).length, i < 64 := by
    intro i hi
    rw [List.length_take] at hi
    exact Nat.lt_of_lt_of_le hi (Nat.min_le_left _ _)
  rw [fill, if_neg hlen, bitsFrom, List.drop_zero]
  congr 1
  conv => rhs; rw [← List.take_append_drop chunkSize bs.file]
  congr 1
  refine List.ext_getElem ?_ fun i hi hi' => ?_
  · simp
  · have hi64 := htext i hi'
    simp only [List.getElem_take, Vector.getElem_toList, Vector.getElem_ofFn]
    rw [List.getElem?_eq_getElem hi', Option.getD_some, List.getElem_take]

/-- A byte of the buffer comes off the front. -/
theorem bitsFrom_byte {bs : Decoder} (hle : bs.size ≤ 64) {bytes : Nat} (hlt : bytes < bs.size) :
    bs.bitsFrom bytes =
      lowBits 8 (bs.text[bytes]?.getD 0).toNat ++ bs.bitsFrom (bytes + 1) := by
  have h64 : bytes < 64 := Nat.lt_of_lt_of_le hlt hle
  have hlen : bytes < (bs.text.toList.take bs.size).length := by
    rw [List.length_take, Vector.length_toList]
    exact Nat.lt_min.2 ⟨hlt, h64⟩
  rw [bitsFrom, List.drop_eq_getElem_cons hlen, List.cons_append, ofBytes_cons, bitsFrom]
  congr 2
  rw [List.getElem_take, Vector.getElem_toList, Vector.getElem?_eq_getElem h64, Option.getD_some]

theorem bitsFrom_size {bs : Decoder} {bytes : Nat} (h : bs.size ≤ bytes) :
    bs.bitsFrom bytes = ofBytes bs.file := by
  rw [bitsFrom, List.drop_eq_nil_of_le, List.nil_append]
  rw [List.length_take]
  exact Nat.le_trans (Nat.min_le_left _ _) h

/-! ## The loop of `de_bits` -/

/-- What holds of the local variables at the start of a turn. -/
structure Locals.Ok (s : Locals) : Prop where
  bits_eq : s.bits = 0
  bytes_le : s.bytes ≤ s.bs.size
  size_le : s.bs.size ≤ 64

/-- A refill at the right time, as long as there is something left. -/
theorem Locals.refill_spec (h : s.Ok) (hexact : s.bytes ≥ s.sz ↔ s.bytes ≥ s.bs.size)
    (hne : s.bs.bitsFrom s.bytes ≠ []) :
    s.refill.Ok ∧ s.refill.bytes < s.refill.bs.size ∧ s.refill.m = s.m ∧ s.refill.d = s.d ∧
      s.refill.bs.bitsFrom s.refill.bytes = s.bs.bitsFrom s.bytes := by
  unfold refill
  split
  · next hend =>
      have hsize := hexact.1 hend
      rw [bitsFrom_size hsize] at hne ⊢
      have hfile : s.bs.file ≠ [] := by
        intro hnil
        rw [hnil] at hne
        exact hne rfl
      obtain ⟨hpos, hle⟩ := fill_size s.bs
      exact ⟨⟨rfl, Nat.zero_le _, hle⟩, hpos, rfl, rfl, fill_bitsFrom hfile⟩
  · next hin =>
      exact ⟨h, Nat.lt_of_not_le fun hle => hin (hexact.2 hle), rfl, rfl, rfl⟩

/-- The word after one more byte. -/
theorem lowBits_shift {w j d : Nat} (c : BitVec 8) (hw : j + 8 ≤ w) :
    lowBits (j + 8) (d <<< 8 % 2 ^ w ||| c.toNat) = lowBits j d ++ lowBits 8 c.toNat := by
  rw [lowBits_append j 8 c.isLt]
  refine lowBits_congr fun i hi => ?_
  rw [Nat.testBit_or, Nat.testBit_mod_two_pow, Nat.testBit_shiftLeft,
    Nat.mul_comm, Nat.testBit_two_pow_mul_add _ c.isLt]
  have hiw : i < w := by omega
  by_cases h8 : i < 8
  · have hge : ¬ 8 ≤ i := by omega
    simp [h8, hge]
  · have hge : 8 ≤ i := by omega
    have hc : c.toNat.testBit i = false :=
      Nat.testBit_lt_two_pow (lt_of_lt_of_le c.isLt (Nat.pow_le_pow_right (by decide) hge))
    simp [h8, hge, hiw, hc]

/-- The last byte of a call, of which only `m` bits are taken. -/
theorem Locals.Ok.next_last (w : Nat) (h : s.Ok) (hm : s.m < 8) :
    s.next w = { s with
      d := (s.d <<< byteSize % 2 ^ w ||| (s.bs.text[s.bytes]?.getD 0).toNat) >>> (8 - s.m)
      bits := s.m
      m := 0 } := by
  have hne : s.m ≠ byteSize := Nat.ne_of_lt hm
  simp only [next, h.bits_eq, Nat.sub_zero, Nat.zero_add]
  rw [if_pos (show s.m < byteSize from hm), if_neg hne]

/-- A whole byte. -/
theorem Locals.Ok.next_whole (w : Nat) (h : s.Ok) (hm : 8 ≤ s.m) :
    s.next w = { s with
      d := s.d <<< byteSize % 2 ^ w ||| (s.bs.text[s.bytes]?.getD 0).toNat
      bytes := s.bytes + 1
      m := s.m - 8 } := by
  simp only [next, h.bits_eq, Nat.sub_zero, Nat.zero_add]
  rw [if_neg (show ¬ s.m < byteSize from Nat.not_lt.2 hm), if_pos rfl]

theorem Locals.loop_of_m_eq_zero (w k : Nat) (hm : s.m = 0) : s.loop w k = s := by
  cases k with
  | zero => rfl
  | succ k => rw [loop, if_pos hm]

/-- The decoder that a call leaves. -/
def Locals.store (s : Locals) (calls : Nat) : Decoder :=
  { s.bs with bytes := s.bytes, bits := s.bits, calls }

theorem Locals.Ok.store (h : s.Ok) (calls : Nat) :
    (s.store calls).Ok ∧ (s.store calls).rest = s.bs.bitsFrom s.bytes := by
  refine ⟨⟨?_, h.bytes_le, h.size_le, fun hne => absurd h.bits_eq hne⟩, ?_⟩
  · rw [Locals.store, h.bits_eq]
    exact Nat.zero_lt_succ 7
  · rw [rest, Locals.store, h.bits_eq, List.drop_zero]
    rfl

/-- The loop takes `m` bits off the front. -/
theorem Locals.loop_spec {w : Nat} (hw : 32 ≤ w) (calls k : Nat) :
    ∀ s : Locals, s.m ≤ k → s.Ok → s.Exact w k → ∀ (j : Nat) (xs ys : List Bool), j + s.m ≤ 24 →
      xs.length = s.m → s.bs.bitsFrom s.bytes = xs ++ ys →
      ((s.loop w k).store calls).Ok ∧ ((s.loop w k).store calls).rest = ys ∧
        (s.loop w k).bits = s.m % 8 ∧
        lowBits (j + s.m) (s.loop w k).d = lowBits j s.d ++ xs := by
  induction k with
  | zero =>
      intro s hk h _ j xs ys _ hlen hfrom
      have hm : s.m = 0 := Nat.le_zero.1 hk
      rw [hm] at hlen
      obtain rfl := List.length_eq_zero_iff.1 hlen
      obtain ⟨hok, hrest⟩ := h.store calls
      rw [loop, hm, List.append_nil]
      exact ⟨hok, hrest.trans hfrom, h.bits_eq, rfl⟩
  | succ k ih =>
      intro s hk h hexact j xs ys hj hlen hfrom
      rw [loop]
      split
      · next hm =>
          rw [hm] at hlen
          obtain rfl := List.length_eq_zero_iff.1 hlen
          obtain ⟨hok, hrest⟩ := h.store calls
          rw [hm, List.append_nil]
          exact ⟨hok, hrest.trans hfrom, h.bits_eq, rfl⟩
      next hm =>
      obtain ⟨htest, hexact⟩ := hexact hm
      have hne : s.bs.bitsFrom s.bytes ≠ [] := by
        intro hnil
        rw [hnil] at hfrom
        rw [(List.append_eq_nil_iff.1 hfrom.symm).1] at hlen
        exact hm hlen.symm
      obtain ⟨hok, hlt, hm', hd', hfrom'⟩ := s.refill_spec h htest hne
      generalize s.refill = s1 at hexact hok hlt hm' hd' hfrom' ⊢
      have hbyte := bitsFrom_byte hok.size_le hlt
      rw [hfrom', hfrom] at hbyte
      rw [← hm'] at hk hj hlen hm ⊢
      rw [← hd']
      generalize hc : s1.bs.text[s1.bytes]?.getD 0 = c at hbyte
      have hword := @lowBits_shift w j s1.d c (by omega)
      by_cases h8 : s1.m < 8
      · -- the byte is used in part
        have hxs : xs = (lowBits 8 c.toNat).take s1.m := by
          have htake := congrArg (List.take s1.m) hbyte
          rw [← hlen, List.take_left, List.take_append_of_le_length (by
            rw [length_lowBits, hlen]
            omega)] at htake
          rw [← hlen]
          exact htake
        rw [hok.next_last w h8, loop_of_m_eq_zero w k rfl]
        refine ⟨⟨h8, Nat.le_of_lt hlt, hok.size_le, fun _ => hlt⟩, ?_, (Nat.mod_eq_of_lt h8).symm,
          ?_⟩
        · change (s1.bs.bitsFrom s1.bytes).drop s1.m = ys
          rw [hfrom', hfrom, ← hlen, List.drop_left]
        · have hcut := lowBits_add (j + s1.m) (8 - s1.m) (s1.d <<< 8 % 2 ^ w ||| c.toNat)
          rw [show j + s1.m + (8 - s1.m) = j + 8 by omega, hword] at hcut
          have htake := congrArg (List.take (j + s1.m)) hcut
          rw [List.take_left' (length_lowBits (j + s1.m) _), List.take_append, length_lowBits,
            List.take_of_length_le (by simp), Nat.add_sub_cancel_left] at htake
          rw [hxs, htake, hc, Nat.shiftRight_eq_div_pow]
      · have h8' : 8 ≤ s1.m := Nat.not_lt.1 h8
        obtain ⟨xs', rfl⟩ : ∃ xs', xs = lowBits 8 c.toNat ++ xs' := by
          have htake := congrArg (List.take 8) hbyte
          rw [List.take_left' (length_lowBits 8 _),
            List.take_append_of_le_length (by omega)] at htake
          exact ⟨xs.drop 8, by rw [← htake, List.take_append_drop]⟩
        rw [List.append_assoc] at hbyte
        rw [List.length_append, length_lowBits] at hlen
        rw [hok.next_whole w h8'] at hexact ⊢
        rw [hc] at hexact ⊢
        have hturn := fun h1 h2 h3 h4 h5 => ih _ h1 h2 hexact (j + 8) xs' ys h3 h4 h5
        dsimp only at hturn
        obtain ⟨hok', hrest, hbits, hbitsd⟩ := hturn (by omega) ⟨hok.bits_eq, hlt, hok.size_le⟩
          (by omega) (by omega) (List.append_cancel_left hbyte).symm
        refine ⟨hok', hrest, hbits.trans ?_, ?_⟩
        · exact (Nat.mod_eq_sub_mod h8').symm
        · rw [hword, show j + 8 + (s1.m - 8) = j + s1.m by omega, List.append_assoc] at hbitsd
          exact hbitsd

theorem length_bitsFrom (bs : Decoder) (bytes : Nat) :
    (bs.bitsFrom bytes).length = 8 * (min bs.size 64 - bytes + bs.file.length) := by
  rw [bitsFrom, length_ofBytes, List.length_append, List.length_drop, List.length_take,
    Vector.length_toList]

/-- `de_bits`, if it refills its buffer at the right time. -/
theorem deBits_spec {w : Nat} {junk : Nat → Nat} (hw : 32 ≤ w) {bs : Decoder} (h : bs.Ok)
    {n d : Nat} (hn : n ≤ 16) (hd : d < 2 ^ n) (hrefills : bs.Refills w junk n) {ys : List Bool}
    (hrest : bs.rest = lowBits n d ++ ys) :
    ∃ bs', bs.deBits w junk n = (bs', d) ∧ bs'.Ok ∧ bs'.rest = ys ∧
      bs'.bits = (n + bs.bits) % 8 := by
  have hbits := h.bits_lt
  have hodd : bs.bits ≤ (bs.bitsFrom bs.bytes).length := by
    rw [length_bitsFrom]
    by_cases hz : bs.bits = 0
    · omega
    · have := h.odd_lt hz
      have := h.size_le
      omega
  have hfrom : bs.bitsFrom bs.bytes =
      ((bs.bitsFrom bs.bytes).take bs.bits ++ lowBits n d) ++ ys := by
    conv => lhs; rw [← List.take_append_drop bs.bits (bs.bitsFrom bs.bytes)]
    rw [List.append_assoc, ← hrest, rest]
  have hlen : ((bs.bitsFrom bs.bytes).take bs.bits ++ lowBits n d).length = n + bs.bits := by
    rw [List.length_append, List.length_take, length_lowBits, Nat.min_eq_left hodd, Nat.add_comm]
  have hloop := Locals.loop_spec hw (bs.calls + 1) (n + bs.bits) (bs.locals junk n) (Nat.le_refl _)
    ⟨rfl, h.bytes_le, h.size_le⟩ hrefills 0 _ ys (show 0 + (n + bs.bits) ≤ 24 by omega) hlen hfrom
  obtain ⟨hok, hrest', hbits', hword⟩ := hloop
  refine ⟨_, Prod.ext rfl ?_, hok, hrest', hbits'⟩
  change _ &&& 2 ^ n - 1 = d
  rw [Nat.and_two_pow_sub_one_eq_mod]
  generalize ((bs.locals junk n).loop w (n + bs.bits)).d = v at hword
  refine lowBits_inj (Nat.mod_lt _ (Nat.two_pow_pos n)) hd ?_
  rw [lowBits_mod]
  change lowBits (0 + (n + bs.bits)) v = [] ++ _ at hword
  rw [Nat.zero_add, List.nil_append, Nat.add_comm, lowBits_add] at hword
  exact (List.append_inj' hword (by simp)).2

/-! ## When the tests come out right -/

theorem Locals.exact_of_m_eq_zero (w k : Nat) (hm : s.m = 0) : s.Exact w k := by
  cases k with
  | zero => exact True.intro
  | succ k => exact fun hne => absurd hm hne

theorem Locals.next_frame (w : Nat) (s : Locals) :
    (s.next w).bs = s.bs ∧ (s.next w).sz = s.sz := by
  unfold next
  dsimp only
  split <;> split <;> exact ⟨rfl, rfl⟩

/-- After the first refill of a call the tests are right. -/
theorem Locals.exact_of_sz (w k : Nat) : ∀ s : Locals, s.sz = s.bs.size → s.Exact w k := by
  induction k with
  | zero => exact fun _ _ => True.intro
  | succ k ih =>
      intro s h _
      refine ⟨by rw [h], ih _ ?_⟩
      obtain ⟨hbs, hsz⟩ := s.refill.next_frame w
      rw [hbs, hsz]
      unfold refill
      split
      · rfl
      · exact h

theorem Locals.exact_iff (w k : Nat) :
    ∀ s : Locals, s.m ≤ k → s.Ok → (s.Exact w k ↔ ∀ b, s.bytes ≤ b → b ≤ s.bs.size →
      8 * (b - s.bytes) < s.m → (b ≥ s.sz ↔ b ≥ s.bs.size)) := by
  induction k with
  | zero =>
      intro s hk _
      exact iff_of_true True.intro fun b _ _ hlt => absurd hlt (by omega)
  | succ k ih =>
      intro s hk h
      by_cases hm : s.m = 0
      · exact iff_of_true (s.exact_of_m_eq_zero w _ hm) fun b _ _ hlt => absurd hlt (by omega)
      have hle := h.bytes_le
      -- the test of this turn, and those of the turns after it
      have hturn : (s.bytes ≥ s.sz ↔ s.bytes ≥ s.bs.size) →
          ((s.refill.next w).Exact w k ↔ ∀ b, s.bytes + 1 ≤ b → b ≤ s.bs.size →
            8 * (b - s.bytes) < s.m → (b ≥ s.sz ↔ b ≥ s.bs.size)) := by
        intro htest
        by_cases hend : s.bytes ≥ s.sz
        · have hsize := htest.1 hend
          refine iff_of_true (exact_of_sz w k _ ?_) fun b _ _ _ => absurd hsize (by omega)
          obtain ⟨hbs, hsz⟩ := s.refill.next_frame w
          rw [hbs, hsz, refill, if_pos hend]
        · have hlt : s.bytes < s.bs.size := Nat.lt_of_not_le fun hge => hend (htest.2 hge)
          rw [refill, if_neg hend]
          by_cases h8 : s.m < 8
          · rw [h.next_last w h8]
            exact iff_of_true (exact_of_m_eq_zero w k rfl) fun b _ _ _ => absurd h8 (by omega)
          · rw [h.next_whole w (Nat.not_lt.1 h8)]
            refine (ih _ ?_ ?_).trans ?_
            · exact Nat.sub_le_iff_le_add.2 (by omega)
            · exact ⟨h.bits_eq, hlt, h.size_le⟩
            · refine forall_congr' fun b => forall_congr' fun hb => forall_congr' fun _ => ?_
              dsimp only at hb ⊢
              rw [show 8 * (b - (s.bytes + 1)) < s.m - 8 ↔ 8 * (b - s.bytes) < s.m by omega]
      rw [Exact, imp_iff_right hm]
      constructor
      · rintro ⟨htest, hrest⟩ b hb hbs hlt
        rcases Nat.eq_or_lt_of_le hb with rfl | hb
        · exact htest
        · exact (hturn htest).1 hrest b hb hbs hlt
      · intro hall
        have htest := hall s.bytes (Nat.le_refl _) hle (by omega)
        exact ⟨htest, (hturn htest).2 fun b hb => hall b (Nat.le_of_succ_le hb)⟩

/-- The refills of a call are right exactly if `sz` is. -/
theorem refills_iff (w : Nat) (junk : Nat → Nat) {bs : Decoder} (h : bs.Ok) (n : Nat) :
    bs.Refills w junk n ↔ bs.SizeLike junk n :=
  Locals.exact_iff w _ _ (Nat.le_refl _) ⟨rfl, h.bytes_le, h.size_le⟩

end Decoder

/-! ## What the writer leaves in the file -/

/-- A value that the writer takes: it has the announced number of bits. -/
def Field.Ok (w : Nat) : Field → Prop
  | .bits n d => n ≤ 16 ∧ d < 2 ^ n
  | .int n => n < 2 ^ w
  | .boundary => True

/-- What the reader should give back. -/
def Field.value : Field → Option Nat
  | .bits _ d => some d
  | .int n => some n
  | .boundary => none

/-- The bits of a value that is written at a place of the file. -/
@[grind =] def Field.seq (pos : Nat) : Field → List Bool
  | .bits n d => lowBits n d
  | .int n => Bitstream.tdfInt n
  | .boundary => lowBits ((8 - pos % 8) % 8) 0

def seqAll : Nat → List Field → List Bool
  | _, [] => []
  | pos, f :: fs => f.seq pos ++ seqAll (pos + (f.seq pos).length) fs

section

open Bitstream

variable {w : Nat} {junk : Nat → Text}

theorem length_mod_eight {bs : Bitstream} (h : bs.Ok) (hfile : bs.file.isSome) :
    bs.length % 8 = bs.cur.bits ∧ bs.seq.length % 8 = bs.cur.bits := by
  have hprev := h.file hfile
  have hbits := h.cur.bits_lt
  constructor
  · rw [Bitstream.length, hprev, List.foldl_cons, List.foldl_nil, Nat.zero_add]
    rw [Nat.mod_mod_of_dvd _ (by decide : 8 ∣ 2 ^ 32), Nat.mul_add_mod, Nat.mod_eq_of_lt hbits]
  · rw [Bitstream.seq, older, hprev, List.reverse_nil, List.flatMap_nil, List.append_nil,
      List.length_append, length_ofBytes, Chunk.length_seq h.cur]
    omega

theorem encBoundary_file (hw : 32 ≤ w) {bs : Bitstream} (h : bs.Ok) (hfile : bs.file.isSome) :
    Appends (bs.encBoundary w junk) bs (lowBits ((8 - bs.seq.length % 8) % 8) 0) := by
  obtain ⟨hlen, hseq⟩ := length_mod_eight h hfile
  have hbits := h.cur.bits_lt
  rw [encBoundary, hlen, hseq]
  split
  · next hne =>
      rw [Nat.mod_eq_of_lt (by omega : 8 - bs.cur.bits < 8)]
      exact encBits_appends w junk hw h (show 8 - bs.cur.bits ≤ 16 by omega) (Nat.two_pow_pos _)
  · next hz =>
      rw [Decidable.of_not_not hz]
      exact Appends.refl h

theorem Field.encode_appends (hw : 32 ≤ w) {f : Field} (hf : f.Ok w) {bs : Bitstream}
    (h : bs.Ok) (hfile : bs.file.isSome) :
    Appends (f.encode w junk bs) bs (f.seq bs.seq.length) := by
  cases f with
  | bits n d => exact encBits_appends w junk hw h hf.1 hf.2
  | int n => exact encInt_appends w junk hw h n
  | boundary => exact encBoundary_file hw h hfile

theorem encodeAll_appends (hw : 32 ≤ w) (fs : List Field) : ∀ {bs : Bitstream}, bs.Ok →
    bs.file.isSome → (∀ f ∈ fs, f.Ok w) →
    Appends (encodeAll w junk fs bs) bs (seqAll bs.seq.length fs) := by
  induction fs with
  | nil => exact fun h _ _ => Appends.refl h
  | cons f fs ih =>
      intro bs h hfile hfs
      obtain ⟨hf, hfs⟩ := List.forall_mem_cons.1 hfs
      refine (f.encode_appends hw hf h hfile).bind fun bs1 hok hfile1 hseq => ?_
      have hrest := ih hok (hfile1.trans hfile) hfs
      rw [hseq, List.length_append] at hrest
      exact hrest

/-- The file that is left has the bits of the stream, and zeros up to a whole byte. -/
theorem close_spec (hw : 32 ≤ w) {bs : Bitstream} (h : bs.Ok) (hfile : bs.file.isSome) :
    ∃ out, bs.close w junk = some out ∧
      ofBytes out = bs.seq ++ lowBits ((8 - bs.seq.length % 8) % 8) 0 := by
  obtain ⟨bs1, hrun1, hok1, hfile1, hseq1⟩ := @encBoundary_file w junk hw bs h hfile
  obtain ⟨bs2, hrun2, hok2, hbytes2, hbits2, hkeep2⟩ := dump_ok hok1
  obtain ⟨hfile2, hseq2⟩ := hkeep2 (hfile1.trans hfile)
  obtain ⟨out, hout⟩ := Option.isSome_iff_exists.1 hfile2
  have hbits : bs2.cur.bits = 0 := by
    rw [hbits2, ← (length_mod_eight hok1 (hfile1.trans hfile)).2, hseq1, List.length_append,
      length_lowBits]
    omega
  refine ⟨out, ?_, ?_⟩
  · rw [close, hrun1]
    change bs1.dump.bind Bitstream.file = some out
    rw [hrun2]
    exact hout
  · have hall : bs2.seq = ofBytes out := by
      rw [Bitstream.seq, older, hout, hok2.file hfile2]
      simp [Chunk.seq, hbytes2, hbits]
    rw [← hall, hseq2, hseq1]

/-- The file has the bits of the values, and zeros up to a whole byte. -/
theorem encodeFile_spec (hw : 32 ≤ w) {text : Text} {fs : List Field} (hfs : ∀ f ∈ fs, f.Ok w) :
    ∃ out pad, encodeFile w junk text fs = some out ∧ ofBytes out = seqAll 0 fs ++ pad := by
  have hstart := start_ok text (some []) none
  obtain ⟨bs, hrun, hok, hfile, hseq⟩ := @encodeAll_appends w junk hw fs _ hstart rfl hfs
  rw [start_seq] at hseq
  obtain ⟨out, hout, hbits⟩ := @close_spec w junk hw bs hok hfile
  refine ⟨out, _, ?_, hbits.trans (by rw [hseq]; rfl)⟩
  rw [encodeFile, hrun]
  exact hout

end

/-! ## Reading it back -/

section

variable (w : Nat) (junk : Nat → Nat) (p : Decoder → Nat → Prop)

/-- Each call of `de_bits` that reads an octal digit has the property. -/
def Decoder.EveryDigit : Nat → Decoder → Prop
  | 0, _ => True
  | fuel + 1, bs => p bs 4 ∧ ((bs.deBits w junk 4).2 &&& 0x8 = 0 →
      EveryDigit fuel (bs.deBits w junk 4).1)

/-- Each call of `de_bits` that a value takes has the property. -/
def Field.Every (fuel : Nat) (bs : Decoder) : Field → Prop
  | .bits n _ => p bs n
  | .int _ => bs.EveryDigit w junk p fuel
  | .boundary => bs.bits ≠ 0 → p bs (byteSize - bs.bits)

/-- Each call of `de_bits` in the reading of a file has the property. -/
def EveryCall (fuel : Nat) : List Field → Decoder → Prop
  | [], _ => True
  | f :: fs, bs => f.Every w junk p fuel bs ∧
      ∀ res, f.decode w junk fuel bs = some res → EveryCall fuel fs res.1

end

namespace Decoder

variable {w : Nat} {junk : Nat → Nat}

/-- The value of octal digits, as `de_int` computes it. -/
def digitsValue (w : Nat) (n : Nat) (ds : List Nat) : Nat :=
  ds.foldl (fun n d => n <<< 3 % 2 ^ w ||| d) n

theorem digitsValue_octal {n : Nat} (hn : n < 2 ^ w) :
    digitsValue w 0 (Bitstream.octal n) = n := by
  induction n using Nat.strong_induction_on with
  | _ n ih =>
    rcases Nat.lt_or_ge n 8 with h8 | h8
    · rw [Bitstream.octal_small h8, digitsValue, List.foldl_cons, List.foldl_nil]
      simp
    · have hlt : n / 8 * 8 < 2 ^ w := Nat.lt_of_le_of_lt (Nat.div_mul_le_self n 8) hn
      have hdiv := ih (n / 8) (by omega) (Nat.lt_of_le_of_lt (Nat.div_le_self n 8) hn)
      rw [digitsValue] at hdiv
      rw [Bitstream.octal_large h8, digitsValue, List.foldl_append, hdiv, List.foldl_cons,
        List.foldl_nil, Nat.shiftLeft_eq, Nat.mod_eq_of_lt hlt, Nat.mul_comm]
      rw [← Nat.two_pow_add_eq_or_of_lt (Nat.mod_lt n (by decide : 0 < 2 ^ 3))]
      exact Nat.div_add_mod n 8

theorem digit_marks : ∀ l < 8, (8 + l) &&& 0x8 ≠ 0 ∧ (8 + l) &&& 0x7 = l ∧ l &&& 0x8 = 0 := by
  decide

/-- The loop of `de_int` over the digits that are left. -/
theorem deDigits_spec (hw : 32 ≤ w) {l : Nat} (hl : l < 8) {ys : List Bool} (ds : List Nat) :
    ∀ (fuel n : Nat) (bs : Decoder), ds.length < fuel → bs.Ok → (∀ d ∈ ds, d < 8) →
      bs.rest = ds.flatMap (lowBits 4) ++ (lowBits 4 (8 + l) ++ ys) →
      (bs.EveryDigit w junk (Refills w junk) fuel ↔ bs.EveryDigit w junk (SizeLike junk) fuel) ∧
        (bs.EveryDigit w junk (Refills w junk) fuel →
          ∃ bs', bs.deDigits w junk fuel n = some (bs', digitsValue w n (ds ++ [l])) ∧ bs'.Ok ∧
            bs'.rest = ys ∧ bs'.bits = (4 * (ds.length + 1) + bs.bits) % 8) := by
  induction ds with
  | nil =>
      intro fuel n bs hfuel h _ hrest
      obtain ⟨fuel, rfl⟩ := Nat.exists_eq_succ_of_ne_zero (Nat.ne_of_gt hfuel)
      rw [List.flatMap_nil, List.nil_append] at hrest
      obtain ⟨hmark, hdigit, -⟩ := digit_marks l hl
      have hcall := fun hrefills : bs.Refills w junk 4 =>
        deBits_spec hw h (by decide) (show 8 + l < 2 ^ 4 by omega) hrefills hrest
      rw [EveryDigit, EveryDigit, ← refills_iff w junk h 4]
      constructor
      · refine and_congr_right fun hrefills => ?_
        obtain ⟨bs', hbits, -⟩ := hcall hrefills
        rw [hbits]
        exact iff_of_true (fun hz => absurd hz hmark) fun hz => absurd hz hmark
      · rintro ⟨hrefills, -⟩
        obtain ⟨bs', hbits, hok, hrest', hpos⟩ := hcall hrefills
        refine ⟨bs', ?_, hok, hrest', hpos⟩
        rw [deDigits, hbits]
        dsimp only
        rw [if_pos hmark, hdigit]
        rfl
  | cons d ds ih =>
      intro fuel n bs hfuel h hds hrest
      obtain ⟨fuel, rfl⟩ := Nat.exists_eq_succ_of_ne_zero (Nat.ne_of_gt (Nat.zero_lt_of_lt hfuel))
      obtain ⟨hd, hds⟩ := List.forall_mem_cons.1 hds
      obtain ⟨-, -, hmark⟩ := digit_marks d hd
      rw [List.flatMap_cons, List.append_assoc] at hrest
      have hcall := fun hrefills : bs.Refills w junk 4 =>
        deBits_spec hw h (by decide) (show d < 2 ^ 4 by omega) hrefills hrest
      have hnext := fun (bs' : Decoder) (hok : bs'.Ok) hrest' =>
        ih fuel (n <<< 3 % 2 ^ w ||| d) bs' (Nat.lt_of_succ_lt_succ hfuel) hok hds hrest'
      rw [EveryDigit, EveryDigit, ← refills_iff w junk h 4]
      constructor
      · refine and_congr_right fun hrefills => ?_
        obtain ⟨bs', hbits, hok, hrest', -⟩ := hcall hrefills
        rw [hbits]
        exact imp_congr_right fun _ => (hnext bs' hok hrest').1
      · rintro ⟨hrefills, hevery⟩
        obtain ⟨bs1, hbits, hok1, hrest1, hpos1⟩ := hcall hrefills
        rw [hbits] at hevery
        obtain ⟨bs', hrun, hok, hrest', hpos⟩ := (hnext bs1 hok1 hrest1).2 (hevery hmark)
        refine ⟨bs', ?_, hok, hrest', ?_⟩
        · rw [deDigits, hbits]
          dsimp only
          rw [if_neg (not_not_intro hmark)]
          exact hrun
        · rw [hpos, hpos1, List.length_cons]
          omega

theorem octal_lt (n : Nat) : ∀ d ∈ Bitstream.octal n, d < 8 := by
  unfold Bitstream.octal
  split
  · intro d hd
    rw [List.mem_singleton.1 hd]
    decide
  · intro d hd
    exact Nat.digits_lt_base (by decide) (List.mem_reverse.1 hd)

theorem length_octal_le (hw : 32 ≤ w) {n : Nat} (hn : n < 2 ^ w) :
    (Bitstream.octal n).length ≤ w := by
  unfold Bitstream.octal
  split
  · rw [List.length_singleton]
    omega
  · rw [List.length_reverse, Nat.digits_length_le_iff (by decide)]
    exact Nat.lt_of_lt_of_le hn (Nat.pow_le_pow_left (by decide) w)

/-- `de_int` on what `enc_int` has written. -/
theorem deInt_spec (hw : 32 ≤ w) {n fuel : Nat} (hn : n < 2 ^ w) (hfuel : w ≤ fuel) {bs : Decoder}
    (h : bs.Ok) {ys : List Bool} (hrest : bs.rest = Bitstream.tdfInt n ++ ys) :
    (bs.EveryDigit w junk (Refills w junk) fuel ↔ bs.EveryDigit w junk (SizeLike junk) fuel) ∧
      (bs.EveryDigit w junk (Refills w junk) fuel →
        ∃ bs', bs.deInt w junk fuel = some (bs', n) ∧ bs'.Ok ∧ bs'.rest = ys ∧
          bs'.bits = ((Bitstream.tdfInt n).length + bs.bits) % 8) := by
  have hvalue := digitsValue_octal hn
  have hlen := length_octal_le hw hn
  have hlt := octal_lt n
  obtain ⟨ds, l, hds⟩ := (List.eq_nil_or_concat' (Bitstream.octal n)).resolve_left
    (Bitstream.octal_ne_nil n)
  rw [hds] at hvalue hlen hlt
  rw [List.length_append, List.length_singleton] at hlen
  rw [Bitstream.tdfInt, hds, List.dropLast_concat, List.getLastD_concat] at hrest ⊢
  rw [List.append_assoc] at hrest
  have hl := hlt l (List.mem_append_right _ (List.mem_singleton_self l))
  have hspec := @deDigits_spec w junk hw l hl ys ds fuel 0 bs (by omega) h
    (fun d hd => hlt d (List.mem_append_left _ hd)) hrest
  rw [hvalue] at hspec
  rw [List.length_append, Bitstream.length_flatMap_group, length_lowBits]
  exact hspec

end Decoder

section

open Decoder

variable {w : Nat} {junk : Nat → Nat}

/-- One value. The bits of the reader are those that the position in the file says. -/
theorem Field.decode_spec (hw : 32 ≤ w) {fuel : Nat} (hfuel : w ≤ fuel) {f : Field} (hf : f.Ok w)
    {bs : Decoder} (h : bs.Ok) {pos : Nat} (hpos : bs.bits = pos % 8) {ys : List Bool}
    (hrest : bs.rest = f.seq pos ++ ys) :
    (f.Every w junk (Refills w junk) fuel bs ↔ f.Every w junk (SizeLike junk) fuel bs) ∧
      (f.Every w junk (Refills w junk) fuel bs →
        ∃ bs', f.decode w junk fuel bs = some (bs', f.value) ∧ bs'.Ok ∧ bs'.rest = ys ∧
          bs'.bits = (pos + (f.seq pos).length) % 8) := by
  cases f with
  | bits n d =>
      refine ⟨refills_iff w junk h n, fun hrefills => ?_⟩
      obtain ⟨bs', hrun, hok, hrest', hbits⟩ := deBits_spec hw h hf.1 hf.2 hrefills hrest
      refine ⟨bs', ?_, hok, hrest', ?_⟩
      · rw [decode, hrun]
        rfl
      · rw [hbits, hpos, seq, length_lowBits]
        omega
  | int n =>
      obtain ⟨hiff, hread⟩ := deInt_spec hw hf hfuel h hrest
      refine ⟨hiff, fun hevery => ?_⟩
      obtain ⟨bs', hrun, hok, hrest', hbits⟩ := hread hevery
      refine ⟨bs', ?_, hok, hrest', ?_⟩
      · rw [decode, hrun]
        rfl
      · rw [hbits, hpos, seq]
        omega
  | boundary =>
      refine ⟨imp_congr_right fun _ => refills_iff w junk h _, fun hevery => ?_⟩
      have hlt := h.bits_lt
      rw [seq, ← hpos] at hrest ⊢
      by_cases hz : bs.bits = 0
      · rw [hz] at hrest
        refine ⟨bs, ?_, h, hrest, ?_⟩
        · rw [decode, deBoundary, if_neg (not_not_intro hz)]
          rfl
        · rw [length_lowBits, hz]
          omega
      · rw [Nat.mod_eq_of_lt (by omega : 8 - bs.bits < 8)] at hrest ⊢
        obtain ⟨bs', hrun, hok, hrest', hbits⟩ := deBits_spec hw h
          (show 8 - bs.bits ≤ 16 by omega) (Nat.two_pow_pos _) (hevery hz) hrest
        refine ⟨bs', ?_, hok, hrest', ?_⟩
        · rw [decode, deBoundary, if_pos hz]
          rw [show byteSize - bs.bits = 8 - bs.bits from rfl, hrun]
          rfl
        · rw [hbits, length_lowBits, hpos]
          omega

/-- All values, one after another. -/
theorem decodeAll_spec (hw : 32 ≤ w) {fuel : Nat} (hfuel : w ≤ fuel) {pad : List Bool}
    (fs : List Field) : ∀ (bs : Decoder) (pos : Nat), (∀ f ∈ fs, f.Ok w) → bs.Ok →
      bs.bits = pos % 8 → bs.rest = seqAll pos fs ++ pad →
      (EveryCall w junk (Refills w junk) fuel fs bs ↔ EveryCall w junk (SizeLike junk) fuel fs bs) ∧
        (EveryCall w junk (Refills w junk) fuel fs bs →
          decodeAll w junk fuel fs bs = some (fs.map Field.value)) := by
  induction fs with
  | nil => exact fun _ _ _ _ _ _ => ⟨Iff.rfl, fun _ => rfl⟩
  | cons f fs ih =>
      intro bs pos hfs h hpos hrest
      obtain ⟨hf, hfs⟩ := List.forall_mem_cons.1 hfs
      rw [seqAll, List.append_assoc] at hrest
      obtain ⟨hiff, hread⟩ := @Field.decode_spec w junk hw fuel hfuel f hf bs h pos hpos _ hrest
      rw [EveryCall, EveryCall, ← hiff]
      constructor
      · refine and_congr_right fun hevery => ?_
        obtain ⟨bs', hrun, hok, hrest', hbits⟩ := hread hevery
        rw [hrun]
        refine forall_congr' fun res => imp_congr_right fun hres => ?_
        cases hres
        exact (ih bs' _ hfs hok hbits hrest').1
      · rintro ⟨hevery, hall⟩
        obtain ⟨bs', hrun, hok, hrest', hbits⟩ := hread hevery
        have hvals := (ih bs' _ hfs hok hbits hrest').2 (hall _ hrun)
        rw [decodeAll, hrun]
        change (decodeAll w junk fuel fs bs').bind _ = _
        rw [hvals]
        rfl

/-- A file is read back as it was written, with each refill at the right time, exactly if in
every call of `de_bits` the variable `sz` happens to be as good as `size`. -/
theorem decode_encode_exact_iff (hw : 32 ≤ w) (old : Nat → Text) (text text' : Text)
    (junk : Nat → Nat) {fuel : Nat} (hfuel : w ≤ fuel) {fs : List Field} (hfs : ∀ f ∈ fs, f.Ok w) :
    ∃ out, encodeFile w old text fs = some out ∧
      (decodeAll w junk fuel fs (start text' out) = some (fs.map Field.value) ∧
          EveryCall w junk (Refills w junk) fuel fs (start text' out) ↔
        EveryCall w junk (SizeLike junk) fuel fs (start text' out)) := by
  obtain ⟨out, pad, hout, hseq⟩ := @encodeFile_spec w old hw text fs hfs
  obtain ⟨hiff, hread⟩ := @decodeAll_spec w junk hw fuel hfuel pad fs (start text' out) 0 hfs
    (start_ok text' out) rfl ((start_rest text' out).trans hseq)
  refine ⟨out, hout, ?_, fun hall => ?_⟩
  · exact fun hall => hiff.1 hall.2
  · exact ⟨hread (hiff.2 hall), hiff.2 hall⟩

/-- In the first call nothing has been read, and zero is as good as that. -/
theorem decode_encode_exact_byte :
    ∃ out, encodeFile 64 (fun _ => Bitstream.blank) Bitstream.blank [.bits 8 5] = some out ∧
      decodeAll 64 (fun _ => 0) 64 [.bits 8 5] (start Bitstream.blank out) = some [some 5] := by
  have hfs : ∀ f ∈ [Field.bits 8 5], f.Ok 64 := by
    intro f hf
    rw [List.mem_singleton.1 hf]
    exact ⟨by decide, by decide⟩
  obtain ⟨out, hout, hiff⟩ := decode_encode_exact_iff (by decide) (fun _ => Bitstream.blank)
    Bitstream.blank Bitstream.blank (fun _ => 0) (Nat.le_refl 64) hfs
  refine ⟨out, hout, (hiff.2 ⟨?_, fun _ _ => True.intro⟩).1⟩
  intro b _ hb _
  rw [Nat.le_zero.1 hb]
  exact Iff.rfl

/-- With another value in `sz` the text of the buffer is read as it was left by the allocator. -/
theorem decode_encode_unset :
    ∃ out, encodeFile 64 (fun _ => Bitstream.blank) Bitstream.blank [.bits 8 5] = some out ∧
      decodeAll 64 (fun _ => 1) 64 [.bits 8 5] (start Bitstream.blank out) ≠ some [some 5] := by
  refine ⟨[5], rfl, ?_⟩
  decide

end

end Tendra.Ref
