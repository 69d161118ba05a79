import Mathlib.Data.Nat.Digits.Defs
import Tendra.Ref.Bitstream

/-!
# The writer appends what it is given

A bitstream stands for a sequence of bits: what is in its file, then its chunks
from the oldest to the newest, each with its whole bytes and its odd bits. The
inner loops work on a stream whose newest chunk ends at a byte they keep in a
local variable. That byte sequence is the body of the stream, and one turn of a
loop adds one byte to it, whether or not a new chunk had to be started.

`enc_bits` takes the pending odd bits out of the last byte and puts them in
front of the new ones. `enc_long_bits` leaves its upper half in the word that it
passes on for the lower one; the bits that are then merged a second time are the
ones that have just been written, so it makes no difference.
-/

namespace Tendra.Ref

open Tendra.Bits

variable {n : Nat}

variable {bs : Bitstream}

/-! ## The sequence of a stream -/

/-- The byte that holds the odd bits. -/
def Chunk.last (c : Chunk) : Nat := (c.text[c.bytes]?.getD 0).toNat

/-- The odd bits as a number. -/
def Chunk.odd (c : Chunk) : Nat := c.last >>> (byteSize - c.bits)

/-- The bits of a chunk. -/
def Chunk.seq (c : Chunk) : List Bool :=
  ofBytes (c.text.toList.take c.bytes) ++ lowBits c.bits c.odd

/-- The state in which every function leaves a chunk. -/
structure Chunk.Ok (c : Chunk) : Prop where
  bits_lt : c.bits < 8
  bytes_le : c.bytes ≤ 64
  odd_lt : c.bits ≠ 0 → c.bytes < 64

namespace Bitstream

/-- The bits in front of the newest chunk. -/
def older (bs : Bitstream) : List Bool :=
  ofBytes (bs.file.getD []) ++ bs.prev.reverse.flatMap Chunk.seq

/-- The bits of a stream. -/
def seq (bs : Bitstream) : List Bool := bs.older ++ bs.cur.seq

/-- The bits of a stream whose newest chunk ends behind `bytes` bytes. -/
def body (bs : Bitstream) (bytes : Nat) : List Bool :=
  bs.older ++ ofBytes (bs.cur.text.toList.take bytes)

/-- What holds of a stream apart from its newest chunk. -/
structure Framed (bs : Bitstream) : Prop where
  prev : ∀ c ∈ bs.prev, c.Ok
  file : bs.file.isSome → bs.prev = []

/-- The state in which every function leaves a stream. -/
structure Ok (bs : Bitstream) : Prop extends Framed bs where
  cur : bs.cur.Ok

theorem seq_eq_body (bs : Bitstream) :
    bs.seq = bs.body bs.cur.bytes ++ lowBits bs.cur.bits bs.cur.odd := by
  rw [seq, Chunk.seq, body, List.append_assoc]

theorem start_ok (text : Text) (f : Option (List (BitVec 8))) (lnk : Option Nat) :
    (start text f lnk).Ok where
  prev := by
    intro c hc
    cases hc
  file := fun _ => rfl
  cur := ⟨by simp [start], by simp [start], fun h => absurd rfl h⟩

theorem start_seq (text : Text) (f : Option (List (BitVec 8))) (lnk : Option Nat) :
    (start text f lnk).seq = ofBytes (f.getD []) := by
  simp [seq, older, start, Chunk.seq]

/-! ## Bytes -/

section

variable (w : Nat) (junk : Nat → Text)

/-- Storing a byte at the end of the body. -/
theorem body_poke {i : Nat} (b : BitVec 8) (hi : i < 64) :
    (bs.poke i b).body (i + 1) = bs.body i ++ lowBits 8 b.toNat := by
  have hlen : i < bs.cur.text.toList.length := by rw [Vector.length_toList]; exact hi
  have htake : (bs.cur.text.setIfInBounds i b).toList.take (i + 1) =
      bs.cur.text.toList.take i ++ [b] := by
    rw [Vector.toList_setIfInBounds, List.take_add_one, List.take_set_of_le (Nat.le_refl i),
      List.getElem?_set_self hlen, Option.toList_some]
  rw [body, body]
  simp only [poke, older, htake, ofBytes_append, ofBytes_singleton, List.append_assoc]

theorem poke_framed (h : bs.Framed) (i : Nat) (b : BitVec 8) :
    (bs.poke i b).Framed := ⟨h.prev, h.file⟩

/-- Starting a new chunk leaves the body as it is. -/
theorem extend_spec (h : bs.Framed) :
    ∃ bs', bs.extend junk = some bs' ∧ bs'.Framed ∧ bs'.file.isSome = bs.file.isSome ∧
      bs'.cur.bits = 0 ∧ bs'.body 0 = bs.body 64 := by
  obtain ⟨cur, prev, file⟩ := bs
  cases file with
  | none =>
      refine ⟨⟨⟨junk (prev.length + 1), 0, 0, cur.link⟩,
        { cur with bytes := 64, bits := 0 } :: prev, none⟩, rfl, ⟨?_, fun hf => nomatch hf⟩, rfl,
        rfl, ?_⟩
      · intro c hc
        rcases List.mem_cons.1 hc with rfl | hc
        · exact ⟨show 0 < 8 by decide, Nat.le_refl 64, fun h => absurd rfl h⟩
        · exact h.prev c hc
      · simp [body, older, Chunk.seq]
  | some f =>
      have hprev : prev = [] := h.file rfl
      subst hprev
      refine ⟨⟨{ cur with bytes := 0, bits := 0 }, [], some (f ++ cur.text.toList.take 64)⟩, ?_,
        ⟨fun c hc => (by cases hc), fun _ => rfl⟩, rfl, rfl, ?_⟩
      · simp [extend, dump, dumpChunk]
      · simp [body, older]

theorem room_spec (h : bs.Framed) {bytes : Nat} (hb : bytes ≤ 64) :
    ∃ bs' bytes', bs.room junk bytes = some (bs', bytes') ∧ bs'.Framed ∧
      bs'.file.isSome = bs.file.isSome ∧ bytes' < 64 ∧
      (bs.cur.bits = 0 → bs'.cur.bits = 0) ∧ bs'.body bytes' = bs.body bytes := by
  unfold room
  split
  · next hfull =>
      obtain ⟨bs', hext, hfr, hfile, hbits, hbody⟩ := extend_spec junk h
      have h64 : bytes = 64 := Nat.le_antisymm hb hfull
      refine ⟨bs', 0, ?_, hfr, hfile, by decide, fun _ => hbits, by rw [hbody, h64]⟩
      rw [hext]
      rfl
  · next hroom => exact ⟨bs, bytes, rfl, h, rfl, by simpa using hroom, id, rfl⟩

/-- The loop of `enc_bits` adds its bytes. -/
theorem putBytes_spec (b k : Nat) : ∀ {bs : Bitstream}, bs.Framed → ∀ {bytes : Nat}, bytes ≤ 64 →
    ∃ bs' bytes', putBytes junk b k bs bytes = some (bs', bytes') ∧ bs'.Framed ∧
      bs'.file.isSome = bs.file.isSome ∧ bytes' ≤ 64 ∧ (0 < bytes ∨ 0 < k → 0 < bytes') ∧
      bs'.body bytes' = bs.body bytes ++ lowBits (8 * k) b := by
  induction k with
  | zero =>
      intro bs h bytes hb
      exact ⟨bs, bytes, rfl, h, rfl, hb, fun h => h.resolve_right (by decide), by simp⟩
  | succ k ih =>
      intro bs h bytes hb
      obtain ⟨bs1, bytes1, hroom, hfr, hfile, hlt, -, hbody⟩ := room_spec junk h hb
      obtain ⟨bs', bytes', hrun, hfr', hfile', hle, hpos, hbody'⟩ :=
        ih (poke_framed hfr bytes1 (BitVec.ofNat 8 (b >>> (8 * k))))
          (show bytes1 + 1 ≤ 64 by omega)
      refine ⟨bs', bytes', ?_, hfr', hfile'.trans hfile, hle,
        fun _ => hpos (Or.inl (Nat.succ_pos _)), ?_⟩
      · rw [putBytes, hroom]
        exact hrun
      · rw [hbody', body_poke _ hlt, hbody, List.append_assoc, BitVec.toNat_ofNat, lowBits_mod,
          Nat.shiftRight_eq_div_pow, ← lowBits_add, show 8 + 8 * k = 8 * (k + 1) by ring]

/-- The loop of `enc_bytes` on an aligned stream adds its bytes. -/
theorem storeEach_spec (s : List (BitVec 8)) : ∀ {bs : Bitstream}, bs.Framed →
    bs.cur.bits = 0 → ∀ {bytes : Nat}, bytes ≤ 64 →
    ∃ bs' bytes', storeEach junk s bs bytes = some (bs', bytes') ∧ bs'.Framed ∧
      bs'.file.isSome = bs.file.isSome ∧ bytes' ≤ 64 ∧ bs'.cur.bits = 0 ∧
      bs'.body bytes' = bs.body bytes ++ ofBytes s := by
  induction s with
  | nil =>
      intro bs h hz bytes hb
      exact ⟨bs, bytes, rfl, h, rfl, hb, hz, by simp⟩
  | cons c s ih =>
      intro bs h hz bytes hb
      obtain ⟨bs1, bytes1, hroom, hfr, hfile, hlt, hz1, hbody⟩ := room_spec junk h hb
      obtain ⟨bs', bytes', hrun, hfr', hfile', hle, hz', hbody'⟩ :=
        ih (poke_framed hfr bytes1 c) (hz1 hz) (show bytes1 + 1 ≤ 64 by omega)
      refine ⟨bs', bytes', ?_, hfr', hfile'.trans hfile, hle, hz', ?_⟩
      · rw [storeEach, hroom]
        exact hrun
      · rw [hbody', body_poke _ hlt, hbody, List.append_assoc, ofBytes_cons]

/-! ## Runs of the writer -/

/-- A call that succeeds and appends the bits `xs` to the stream `bs`. -/
def Appends (r : Option Bitstream) (bs : Bitstream) (xs : List Bool) : Prop :=
  ∃ bs', r = some bs' ∧ bs'.Ok ∧ bs'.file.isSome = bs.file.isSome ∧ bs'.seq = bs.seq ++ xs

theorem Appends.refl (h : bs.Ok) : Appends (some bs) bs [] :=
  ⟨bs, rfl, h, rfl, (List.append_nil _).symm⟩

/-- One call after another. -/
theorem Appends.bind {r : Option Bitstream} {xs ys : List Bool} {f : Bitstream → Option Bitstream}
    (h : Appends r bs xs)
    (hf : ∀ bs', bs'.Ok → bs'.file.isSome = bs.file.isSome → bs'.seq = bs.seq ++ xs →
      Appends (f bs') bs' ys) : Appends (r >>= f) bs (xs ++ ys) := by
  obtain ⟨bs1, hr, hok, hfile, hseq⟩ := h
  obtain ⟨bs2, hf, hok', hfile', hseq'⟩ := hf bs1 hok hfile hseq
  refine ⟨bs2, ?_, hok', hfile'.trans hfile, ?_⟩
  · rw [hr]
    exact hf
  · rw [hseq', hseq, List.append_assoc]

/-! ## `enc_bits` -/

/-- The word that `enc_bits` writes: the odd bits and the new ones. -/
def merged (bs : Bitstream) (n d : Nat) : Nat :=
  if bs.cur.bits ≠ 0 then d % 2 ^ 32 ||| bs.cur.odd <<< n else d % 2 ^ 32

/-- A stream ends in the middle of a byte: the last bits of its body are padding. -/
theorem body_last {bytes : Nat} (hpos : 0 < bytes) (hle : bytes ≤ 64) {k : Nat} (hk : k ≤ 8)
    (c : Chunk) (hc : c = { bs.cur with bytes := bytes - 1, bits := k }) :
    bs.body bytes = bs.older ++ c.seq ++ lowBits (8 - k) c.last := by
  subst hc
  have hlt : bytes - 1 < bs.cur.text.toList.length := by
    rw [Vector.length_toList]
    show bytes - 1 < 64
    omega
  have htake : bs.cur.text.toList.take bytes =
      bs.cur.text.toList.take (bytes - 1) ++ [(bs.cur.text[bytes - 1]?).getD 0] := by
    rw [← Vector.getElem?_toList]
    conv_lhs => rw [← Nat.sub_add_cancel hpos]
    rw [List.take_add_one, List.getElem?_eq_getElem hlt]
    rfl
  rw [body, htake, ofBytes_append, ofBytes_singleton, Chunk.seq, Chunk.odd, Chunk.last]
  simp only [List.append_assoc]
  congr 2
  rw [Nat.shiftRight_eq_div_pow, ← lowBits_add, Nat.add_sub_cancel' hk]

/-- What `enc_bits` does with any word, in range or not. -/
theorem encBits_raw (hw : 24 ≤ w) (h : bs.Ok) (hn : n ≠ 0) (hn16 : n ≤ 16) (d : Nat) :
    ∃ bs', bs.encBits w junk n d = some bs' ∧ bs'.Ok ∧ bs'.file.isSome = bs.file.isSome ∧
      bs'.seq = bs.body bs.cur.bytes ++ lowBits (bs.cur.bits + n) (bs.merged n d) := by
  have hbits := h.cur.bits_lt
  have hN : (if bs.cur.bits ≠ 0 then n + bs.cur.bits else n) = bs.cur.bits + n := by
    split <;> omega
  have hB : (if bs.cur.bits ≠ 0 then d % 2 ^ 32 |||
      (bs.cur.text[bs.cur.bytes]?.getD 0).toNat >>> (8 - bs.cur.bits) <<< n else d % 2 ^ 32) =
      bs.merged n d := rfl
  have hassert : ¬ (bs.cur.bits ≠ 0 ∧ bs.cur.bytes ≥ chunkSize) := by
    intro hodd
    exact absurd (h.cur.odd_lt hodd.1) (Nat.not_lt.2 hodd.2)
  unfold encBits
  rw [if_neg (by omega), if_neg hn, if_neg hassert]
  dsimp only
  rw [hB, hN]
  have hN0 : 0 < bs.cur.bits + n := by omega
  have hN24 : bs.cur.bits + n ≤ 23 := by omega
  generalize bs.merged n d = b
  generalize bs.cur.bits + n = N at hN0 hN24
  by_cases hk : N % 8 = 0
  · obtain ⟨bs', bytes', hrun, hfr, hfile, hle, -, hbody⟩ :=
      putBytes_spec junk b (N / 8) h.toFramed h.cur.bytes_le
    refine ⟨{ bs' with cur := { bs'.cur with bytes := bytes', bits := 0 } }, ?_,
      ⟨⟨hfr.prev, hfr.file⟩, ⟨show 0 < 8 by decide, hle, fun h => absurd rfl h⟩⟩, hfile, ?_⟩
    · simp only [hk, ne_eq, not_true_eq_false, if_false]
      rw [hrun]
      rfl
    · rw [show 8 * (N / 8) = N by omega] at hbody
      rw [← hbody]
      simp [seq, Chunk.seq, body, older]
  · obtain ⟨bs', bytes', hrun, hfr, hfile, hle, hpos, hbody⟩ :=
      putBytes_spec junk (b <<< (8 - N % 8) % 2 ^ w) ((N + (8 - N % 8)) / 8) h.toFramed
        h.cur.bytes_le
    have hpos' : 0 < bytes' := hpos (Or.inr (by omega))
    refine ⟨{ bs' with cur := { bs'.cur with bytes := bytes' - 1, bits := N % 8 } }, ?_,
      ⟨⟨hfr.prev, hfr.file⟩, ⟨Nat.mod_lt _ (by decide), by simp only; omega, fun _ => by
        simp only; omega⟩⟩, hfile, ?_⟩
    · simp only [hk, ne_eq, not_false_eq_true, if_true]
      rw [hrun]
      rfl
    · -- the padding is the same on both sides
      have hpad : lowBits (N + (8 - N % 8)) (b <<< (8 - N % 8) % 2 ^ w) =
          lowBits N b ++ lowBits (8 - N % 8) 0 := by
        rw [← lowBits_mul_two_pow, ← Nat.shiftLeft_eq]
        refine lowBits_congr fun i hi => ?_
        rw [Nat.testBit_mod_two_pow]
        simp [show i < w by omega]
      rw [show 8 * ((N + (8 - N % 8)) / 8) = N + (8 - N % 8) by omega, hpad,
        body_last hpos' hle (show N % 8 ≤ 8 by omega) _ rfl, ← List.append_assoc] at hbody
      exact (List.append_inj' hbody (by simp)).1

/-- The merged word ends in the new bits, and its front has the odd ones if nothing
in the new word sticks out over them. -/
theorem lowBits_merged {d : Nat} (hd : d < 2 ^ 32)
    (hover : ∀ i < bs.cur.bits, d.testBit (i + n) = true → bs.cur.odd.testBit i = true) :
    lowBits (bs.cur.bits + n) (bs.merged n d) = lowBits bs.cur.bits bs.cur.odd ++ lowBits n d := by
  rw [lowBits_add, merged, Nat.mod_eq_of_lt hd]
  by_cases hz : bs.cur.bits = 0
  · rw [if_neg (not_not.2 hz), hz, lowBits_zero, lowBits_zero]
  · rw [if_pos hz]
    congr 1
    · refine lowBits_congr fun i hi => ?_
      rw [Nat.testBit_div_two_pow, Nat.testBit_or, Nat.testBit_shiftLeft, Nat.add_sub_cancel]
      have := hover i hi
      cases hbit : d.testBit (i + n) with
      | false => simp
      | true => simp [this hbit]
    · refine lowBits_congr fun i hi => ?_
      rw [Nat.testBit_or, Nat.testBit_shiftLeft]
      simp [hi]

/-- `enc_bits` with a word in range. -/
theorem encBits_appends (hw : 32 ≤ w) (h : bs.Ok) {d : Nat} (hn : n ≤ 16) (hd : d < 2 ^ n) :
    Appends (bs.encBits w junk n d) bs (lowBits n d) := by
  by_cases hz : n = 0
  · subst hz
    rw [encBits, if_neg (by decide), if_pos rfl, lowBits_zero]
    exact Appends.refl h
  obtain ⟨bs', hrun, hok, hfile, hseq⟩ := encBits_raw w junk (by omega) h hz hn d
  refine ⟨bs', hrun, hok, hfile, ?_⟩
  have h32 : d < 2 ^ 32 := lt_of_lt_of_le hd (Nat.pow_le_pow_right (by decide) (by omega))
  rw [hseq, lowBits_merged h32, ← List.append_assoc, seq_eq_body]
  intro i _ hbit
  rw [Nat.testBit_lt_two_pow (lt_of_lt_of_le hd (Nat.pow_le_pow_right (by decide) (by omega)))]
    at hbit
  cases hbit

/-- `enc_long_bits` with a word in range. The bits of the upper half that are merged
again are the odd bits themselves. -/
theorem encLongBits_appends (hw : 32 ≤ w) (h : bs.Ok) {d : Nat} (hn : n ≤ 32) (hd : d < 2 ^ n) :
    Appends (bs.encLongBits w junk n d) bs (lowBits n d) := by
  unfold encLongBits
  split
  · next hlong =>
      have h32 : d < 2 ^ 32 := lt_of_lt_of_le hd (Nat.pow_le_pow_right (by decide) hn)
      have hhigh : d >>> 16 < 2 ^ (n - 16) := by
        rw [Nat.shiftRight_eq_div_pow, Nat.div_lt_iff_lt_mul (by decide), ← Nat.pow_add,
          Nat.sub_add_cancel (by omega)]
        exact hd
      have hcut : lowBits n d = lowBits (n - 16) (d >>> 16) ++ lowBits 16 d := by
        rw [Nat.shiftRight_eq_div_pow, ← lowBits_add, Nat.sub_add_cancel (by omega)]
      rw [hcut]
      refine (encBits_appends w junk hw h (by omega) hhigh).bind fun bs1 hok hfile hseq => ?_
      obtain ⟨bs', hrun, hok', hfile', hseq'⟩ :=
        encBits_raw w junk (by omega) hok (show 16 ≠ 0 by decide) (Nat.le_refl 16) d
      refine ⟨bs', hrun, hok', hfile', ?_⟩
      rw [hseq', lowBits_merged h32, ← List.append_assoc, seq_eq_body]
      intro i hi hbit
      have hbit' : (d >>> 16).testBit i = true := by
        rw [Nat.testBit_shiftRight, Nat.add_comm]
        exact hbit
      have hin : i < n - 16 := by
        by_contra hout
        rw [Nat.testBit_lt_two_pow (lt_of_lt_of_le hhigh
          (Nat.pow_le_pow_right (by decide) (by omega)))] at hbit'
        cases hbit'
      rw [seq_eq_body] at hseq
      rw [testBit_eq_of_append_eq hseq hi hin]
      exact hbit'
  · next hshort => exact encBits_appends w junk hw h (by omega) hd

/-! ## `enc_bytes` -/

theorem encEach_appends (hw : 32 ≤ w) (s : List (BitVec 8)) : ∀ {bs : Bitstream}, bs.Ok →
    Appends (encEach w junk s bs) bs (ofBytes s) := by
  induction s with
  | nil =>
      intro bs h
      exact Appends.refl h
  | cons c s ih =>
      intro bs h
      rw [ofBytes_cons]
      exact (encBits_appends w junk hw h (show 8 ≤ 16 by decide) c.isLt).bind
        fun bs1 hok _ _ => ih hok

/-- `enc_bytes`, aligned or not. -/
theorem encBytes_appends (hw : 32 ≤ w) (h : bs.Ok) (s : List (BitVec 8)) :
    Appends (bs.encBytes w junk s) bs (ofBytes s) := by
  unfold encBytes
  split
  · exact encEach_appends w junk hw s h
  · next haligned =>
      have hz : bs.cur.bits = 0 := not_not.1 haligned
      obtain ⟨bs', bytes', hrun, hfr, hfile, hle, hz', hbody⟩ :=
        storeEach_spec junk s h.toFramed hz h.cur.bytes_le
      refine ⟨{ bs' with cur := { bs'.cur with bytes := bytes' } }, ?_,
        ⟨⟨hfr.prev, hfr.file⟩, ⟨hz' ▸ (by decide), hle, fun hne => absurd hz' hne⟩⟩, hfile, ?_⟩
      · rw [hrun]
        rfl
      · have hseq : bs.seq = bs.body bs.cur.bytes := by
          rw [seq_eq_body, hz, lowBits_zero, List.append_nil]
        rw [hseq, ← hbody]
        simp [seq, Chunk.seq, body, older, hz']

/-! ## `enc_int` -/

/-- The octal digits of a number, most significant first; zero has one digit. -/
def octal (n : Nat) : List Nat := if n = 0 then [0] else (Nat.digits 8 n).reverse

/-- A TDF integer: groups of four bits, of which the last has its top bit set. -/
def tdfInt (n : Nat) : List Bool :=
  (octal n).dropLast.flatMap (lowBits 4) ++ lowBits 4 (8 + (octal n).getLastD 0)

theorem octal_small (h : n < 8) : octal n = [n] := by
  unfold octal
  split
  · next hz => rw [hz]
  · next hz => rw [Nat.digits_of_lt 8 n hz h, List.reverse_singleton]

theorem octal_large (h : 8 ≤ n) : octal n = octal (n / 8) ++ [n % 8] := by
  have hdiv : n / 8 ≠ 0 := by omega
  rw [octal, octal, if_neg (by omega), if_neg hdiv,
    Nat.digits_def' (by decide : 1 < 8) (by omega : 0 < n), List.reverse_cons]

/-- The digits without the mark. -/
theorem encIntAux_appends (hw : 32 ≤ w) (n : Nat) : ∀ {bs : Bitstream}, bs.Ok →
    Appends (encIntAux w junk bs n) bs ((octal n).flatMap (lowBits 4)) := by
  induction n using Nat.strong_induction_on with
  | _ n ih =>
      intro bs h
      have hmask : n &&& 0x7 = n % 8 := Nat.and_two_pow_sub_one_eq_mod n 3
      rw [encIntAux]
      split
      · next hlarge =>
          rw [octal_large hlarge, List.flatMap_append, List.flatMap_singleton]
          have hdiv : n >>> 3 = n / 8 := Nat.shiftRight_eq_div_pow n 3
          rw [hdiv]
          refine (ih (n / 8) (by omega) h).bind fun bs1 hok _ _ => ?_
          rw [hmask]
          exact encBits_appends w junk hw hok (by decide) (by omega)
      · next hsmall =>
          rw [octal_small (by omega), List.flatMap_singleton, hmask,
            Nat.mod_eq_of_lt (by omega : n < 8)]
          exact encBits_appends w junk hw h (by decide) (by omega)

theorem tdfInt_small (h : n < 8) : tdfInt n = lowBits 4 (8 + n) := by
  rw [tdfInt, octal_small h]
  rfl

theorem tdfInt_large (h : 8 ≤ n) :
    tdfInt n = (octal (n / 8)).flatMap (lowBits 4) ++ lowBits 4 (8 + n % 8) := by
  rw [tdfInt, octal_large h, List.dropLast_concat, List.getLastD_concat]

/-- `enc_int`. -/
theorem encInt_appends (hw : 32 ≤ w) (h : bs.Ok) (n : Nat) :
    Appends (bs.encInt w junk n) bs (tdfInt n) := by
  have hmark : n &&& 0x7 ||| 0x8 = 8 + n % 8 := by
    rw [show n &&& 0x7 = n % 8 from Nat.and_two_pow_sub_one_eq_mod n 3, Nat.or_comm]
    exact (Nat.two_pow_add_eq_or_of_lt (Nat.mod_lt n (by decide : 0 < 2 ^ 3)) 1).symm
  rw [encInt, hmark]
  split
  · next hlarge =>
      rw [tdfInt_large hlarge, show n >>> 3 = n / 8 from Nat.shiftRight_eq_div_pow n 3]
      exact (encIntAux_appends w junk hw (n / 8) h).bind fun bs1 hok _ _ =>
        encBits_appends w junk hw hok (by decide) (by omega)
  · next hsmall =>
      rw [tdfInt_small (by omega), Nat.mod_eq_of_lt (by omega : n < 8)]
      exact encBits_appends w junk hw h (by decide) (by omega)

end

end Bitstream

end Tendra.Ref
