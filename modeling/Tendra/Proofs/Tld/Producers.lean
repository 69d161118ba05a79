import Tendra.Proofs.Decode
import Tendra.Proofs.Tld.TdfStream
import Tendra.Ref.Tdfc.Capsule

/-!
# The linker reads what the producers write

The stream of a producer and a writer of the linker that have been given the same bits agree. The
calls of the producer and those of the linker keep this, from the nibbles on; so both make the same
file, and the linker reads back what it would have written itself.
-/

namespace Tendra.Ref.Tld

open Bits TDFWriter TDFReader Tdfc

/-! ### The bits of a writer -/

/-- The bits that have been written. -/
def TDFWriter.seq (w : TDFWriter) : List Bool :=
  ofBytes w.output ++ if w.newByte then [] else lowBits 4 (w.byte.toNat / 16)

/-- The second half of the byte is free. -/
def TDFWriter.Free (w : TDFWriter) : Prop := w.newByte = false → w.byte.toNat % 16 = 0

/-- A stream and a writer that have been given the same bits. -/
structure Agree (bs : Bitstream) (w : TDFWriter) : Prop where
  ok : bs.Ok
  file : bs.file.isSome
  free : w.Free
  seq : bs.seq = w.seq

theorem free_of_new {w : TDFWriter} (h : w.newByte = true) : w.Free :=
  fun hnew => nomatch h.symm.trans hnew

theorem writeNibble_seq {w : TDFWriter} (hw : w.Free) (n : BitVec 32) :
    (w.writeNibble n).Free ∧ (w.writeNibble n).seq = w.seq ++ lowBits 4 n.toNat := by
  cases hnew : w.newByte with
  | true =>
      rw [writeNibble_new hnew]
      refine ⟨fun _ => (congrArg (· % 16) (toNat_high n)).trans (Nat.mul_mod_left ..), ?_⟩
      rw [TDFWriter.seq, TDFWriter.seq, toNat_high, hnew, Nat.mul_div_cancel _ (by decide),
        show 16 = 2 ^ 4 from rfl, lowBits_mod]
      simp
  | false =>
      rw [writeNibble_old (by simp [hnew])]
      refine ⟨free_of_new rfl, ?_⟩
      simp only [TDFWriter.seq, hnew, ofBytes_append, ofBytes_singleton, toNat_or_low (hw hnew)]
      rw [← lowBits_mod 4 n.toNat]
      have hlt : n.toNat % 2 ^ 4 < 2 ^ 4 := Nat.mod_lt _ (by decide)
      simp only [Bool.false_eq_true, ↓reduceIte, List.append_nil, List.append_assoc,
        lowBits_append 4 4 hlt]
      have := hw hnew
      congr 2
      omega

theorem length_seq (w : TDFWriter) :
    w.seq.length = 8 * w.output.length + if w.newByte then 0 else 4 := by
  rw [TDFWriter.seq, List.length_append, length_ofBytes]
  split <;> simp

theorem writeAlign_seq {w : TDFWriter} (hw : w.Free) :
    w.writeAlign.seq = w.seq ++ lowBits ((8 - w.seq.length % 8) % 8) 0 := by
  have hlen := length_seq w
  cases hnew : w.newByte with
  | true =>
      rw [hnew, if_pos rfl] at hlen
      rw [writeAlign, if_pos hnew, show (8 - w.seq.length % 8) % 8 = 0 by omega]
      simp
  | false =>
      rw [hnew, if_neg (by simp)] at hlen
      rw [show (8 - w.seq.length % 8) % 8 = 4 by omega, writeAlign, if_neg (by simp [hnew])]
      have hbyte : w.byte.toNat = w.byte.toNat / 16 * 2 ^ 4 := by
        have := hw hnew
        omega
      have hhalf := lowBits_mul_two_pow 4 4 (w.byte.toNat / 16)
      rw [← hbyte] at hhalf
      simp [TDFWriter.seq, hnew, hhalf]

/-! ### Calls that write the same -/

section

variable {w : Nat} {junk : Nat → Text}

/-- A call of the producer and one of the linker that write the same. -/
def Same (f : Bitstream → Option Bitstream) (g : TDFWriter → TDFWriter) : Prop :=
  ∀ bs w, Agree bs w → ∃ bs', f bs = some bs' ∧ Agree bs' (g w)

theorem Same.bind {f f' : Bitstream → Option Bitstream} {g g' : TDFWriter → TDFWriter}
    (h : Same f g) (h' : Same f' g') : Same (fun bs => f bs >>= f') (fun w => g' (g w)) := by
  intro bs w hw
  obtain ⟨bs1, hf, hw1⟩ := h bs w hw
  obtain ⟨bs2, hf', hw2⟩ := h' bs1 _ hw1
  exact ⟨bs2, (congrArg (· >>= f') hf).trans hf', hw2⟩

theorem Agree.next {bs : Bitstream} {v v' : TDFWriter} (h : Agree bs v) {r : Option Bitstream}
    {xs : List Bool} (hr : Bitstream.Appends r bs xs) (hfree : v'.Free)
    (hseq : v'.seq = v.seq ++ xs) : ∃ bs', r = some bs' ∧ Agree bs' v' := by
  obtain ⟨bs', hbs', hok, hfile, hs⟩ := hr
  exact ⟨bs', hbs', hok, hfile.trans h.file, hfree, by rw [hs, h.seq, hseq]⟩

theorem same_nibble (hw : 32 ≤ w) {d : Nat} (hd : d < 2 ^ 4) {n : BitVec 32} (hn : n.toNat = d) :
    Same (fun bs => bs.encBits w junk 4 d) (writeNibble n) := by
  intro bs v h
  obtain ⟨hfree, hseq⟩ := writeNibble_seq h.free n
  exact h.next (Bitstream.encBits_appends w junk hw h.ok (by decide) hd) hfree (hn ▸ hseq)

theorem same_boundary (hw : 32 ≤ w) : Same (fun bs => bs.encBoundary w junk) writeAlign := by
  intro bs v h
  exact h.next (encBoundary_file hw h.ok h.file) (free_of_new (writeAlign_newByte v))
    (h.seq ▸ writeAlign_seq h.free)

theorem same_bytes (hw : 32 ≤ w) (s : NString) :
    Same (fun bs => bs.encBoundary w junk >>= fun bs => bs.encBytes w junk s) (writeBytes s) := by
  intro bs v h
  obtain ⟨bs', hbs', h'⟩ := @same_boundary _ junk hw bs v h
  have hnew := writeAlign_newByte v
  obtain ⟨bs2, hbs2, h2⟩ := @Agree.next _ _ (v.writeAlign.writeChars s) h' _ _
    (Bitstream.encBytes_appends w junk hw h'.ok s) (free_of_new hnew)
    (by simp [TDFWriter.seq, writeChars, hnew])
  exact ⟨bs2, (congrArg (· >>= _) hbs').trans hbs2, h2⟩

/-- Two bits for the type, or four. -/
theorem same_external (hw : 32 ≤ w) {t : Nat} (ht : t < 4) :
    Same (encExternal w junk t) fun v => (v.writeNibble (BitVec.ofNat 32 t <<< 2)).writeAlign := by
  intro bs v h
  have htype : ∀ t < 4, (BitVec.ofNat 32 t <<< 2).toNat = t * 2 ^ 2 := by decide
  obtain ⟨hfree, hseq⟩ := writeNibble_seq h.free (BitVec.ofNat 32 t <<< 2)
  obtain ⟨bs1, h1, hok1, hfile1, hs1⟩ :=
    Bitstream.encBits_appends w junk hw h.ok (show 2 ≤ 16 by decide) ht
  obtain ⟨bs2, h2, hok2, hfile2, hs2⟩ := encBoundary_file hw hok1 (hfile1.trans h.file)
  refine ⟨bs2, (congrArg (· >>= _) h1).trans h2, hok2, hfile2.trans (hfile1.trans h.file),
    free_of_new (writeAlign_newByte _), ?_⟩
  have hlen := length_seq v
  rw [hs2, hs1, h.seq, writeAlign_seq hfree, hseq, htype t ht, List.append_assoc,
    List.append_assoc, List.length_append, List.length_append, length_lowBits, length_lowBits]
  rw [show lowBits 4 (t * 2 ^ 2) = lowBits 2 t ++ lowBits 2 0 from lowBits_mul_two_pow 2 2 t,
    List.append_assoc, List.append_cancel_left_eq, List.append_cancel_left_eq]
  cases hnew : v.newByte with
  | true =>
      rw [hnew, if_pos rfl] at hlen
      rw [show (8 - (v.seq.length + 2) % 8) % 8 = 6 by omega,
        show (8 - (v.seq.length + 4) % 8) % 8 = 4 by omega]
      rfl
  | false =>
      rw [hnew, if_neg (by simp)] at hlen
      rw [show (8 - (v.seq.length + 2) % 8) % 8 = 2 by omega,
        show (8 - (v.seq.length + 4) % 8) % 8 = 0 by omega]
      rfl

theorem high_ne_zero_iff (value : BitVec 32) : value &&& ~~~0x07 ≠ 0 ↔ 8 ≤ value.toNat := by
  refine ⟨fun h => ?_, fun h hz => ?_⟩
  · by_contra hlt
    have hsmall : ∀ k < 8, BitVec.ofNat 32 k &&& ~~~0x07 = 0 := by decide
    have hz := hsmall value.toNat (Nat.lt_of_not_le hlt)
    rw [BitVec.ofNat_toNat, BitVec.setWidth_eq] at hz
    exact h hz
  · have hlt := lt_pow_shiftOf value
    rw [shiftOf, dif_neg (not_not.2 hz)] at hlt
    exact Nat.not_le_of_lt hlt h

/-- The last of the digits, from the number without its last digit. -/
theorem writeDigits_succ (value : BitVec 32) (shift : Nat) (v : TDFWriter) :
    writeDigits value (shift + 1) v =
      (writeDigits (value >>> 3) shift v).writeNibble ((value >>> 3) &&& 0x07) := by
  induction shift generalizing v with
  | zero => rfl
  | succ shift ih =>
      rw [writeDigits, ih, writeDigits, ← BitVec.shiftRight_add,
        show 3 + 3 * (shift + 1) = 3 * (shift + 1 + 1) by ring]

/-- The last digit, with a mark or without one. -/
theorem same_digits (hw : 32 ≤ w) {n d : Nat} (hd : d < 2 ^ 4) {value last : BitVec 32}
    (hn : value.toNat = n) (hlast : last.toNat = d)
    (haux : n ≥ 8 → Same (fun bs => bs.encIntAux w junk (n >>> 3)) fun v =>
      (writeDigits (value >>> 3) (shiftOf (value >>> 3)) v).writeNibble ((value >>> 3) &&& 0x07)) :
    Same (fun bs => if n ≥ 8 then bs.encIntAux w junk (n >>> 3) >>= (·.encBits w junk 4 d)
        else bs.encBits w junk 4 d)
      fun v => (writeDigits value (shiftOf value) v).writeNibble last := by
  by_cases hlarge : n ≥ 8
  · have h := (haux hlarge).bind (@same_nibble _ junk hw _ hd _ hlast)
    simp only [← writeDigits_succ] at h
    rw [shiftOf, dif_pos ((high_ne_zero_iff value).2 (hn ▸ hlarge))]
    simpa only [if_pos hlarge] using h
  · rw [shiftOf, dif_neg (mt (high_ne_zero_iff value).1 (hn ▸ hlarge))]
    simp only [if_neg hlarge]
    exact same_nibble hw hd hlast

theorem same_intAux (hw : 32 ≤ w) (n : Nat) {value : BitVec 32} (hn : value.toNat = n) :
    Same (fun bs => bs.encIntAux w junk n)
      (fun v => (writeDigits value (shiftOf value) v).writeNibble (value &&& 0x07)) := by
  induction n using Nat.strong_induction_on generalizing value with
  | _ n ih =>
      have hdigit : (value &&& 0x07).toNat = n &&& 0x7 := by rw [BitVec.toNat_and, hn]; rfl
      rw [funext fun bs => Bitstream.encIntAux.eq_def w junk bs n]
      refine same_digits hw (Nat.lt_of_le_of_lt Nat.and_le_right (by decide)) hn hdigit
        fun hlarge => ih (n >>> 3) ?_ ?_
      · rw [Nat.shiftRight_eq_div_pow]
        omega
      · rw [BitVec.toNat_ushiftRight, hn]

theorem same_int (hw : 32 ≤ w) {n : Nat} (hn : n < 2 ^ 32) :
    Same (fun bs => bs.encInt w junk n) (writeInt (BitVec.ofNat 32 n)) := by
  have hn : (BitVec.ofNat 32 n).toNat = n := Nat.mod_eq_of_lt hn
  have hlast : ((BitVec.ofNat 32 n &&& 0x07) ||| 0x08).toNat = n &&& 0x7 ||| 0x8 := by
    rw [BitVec.toNat_or, BitVec.toNat_and, hn]
    rfl
  refine same_digits hw (Nat.or_lt_two_pow ?_ (by decide)) hn hlast fun _ =>
    same_intAux hw (n >>> 3) ?_
  · exact Nat.lt_of_le_of_lt Nat.and_le_right (by decide)
  · rw [BitVec.toNat_ushiftRight, hn]

theorem same_ident (hw : 32 ≤ w) {s : NString} (hs : s.length < 2 ^ 32) :
    Same (encIdent w junk s) (writeString s) :=
  (same_int hw (by decide)).bind ((same_int hw hs).bind (same_bytes hw s))

theorem same_idents (hw : 32 ≤ w) {ss : List NString} (hss : ∀ s ∈ ss, s.length < 2 ^ 32) :
    Same (encIdents w junk ss) (fun v => ss.foldl (fun v s => v.writeString s) v) := by
  induction ss with
  | nil => exact fun bs v h => ⟨bs, rfl, h⟩
  | cons s ss ih =>
      obtain ⟨hs, hss⟩ := List.forall_mem_cons.1 hss
      exact (same_ident hw hs).bind (ih hss)

/-! ### Files -/

variable {mangleLength : Nat}

/-- The key that `enc_name` writes. -/
def nameKey (mangleLength : Nat) (s : NString) (tag : Bool) : NameKey :=
  if (s.splitOn 0x20).length = 1 then .string (s.take (identLength mangleLength s tag))
  else .unique (s.splitOn 0x20)

/-- The call of the linker for what a producer writes. -/
def item (mangleLength : Nat) : Output → Item
  | .int n => .int (BitVec.ofNat 32 n)
  | .ident s => .string s
  | .name s tag => .name (nameKey mangleLength s tag)

/-- Integers and lengths are those of an `unsigned` of 32 bits. -/
def OutputFits (mangleLength : Nat) : Output → Prop
  | .int n => n < 2 ^ 32
  | .ident s => s.length < 2 ^ 32
  | .name s tag => (nameKey mangleLength s tag).Fits

theorem same_name (hw : 32 ≤ w) {s : NString} {tag : Bool}
    (h : (nameKey mangleLength s tag).Fits) :
    Same (encName w junk mangleLength s tag) (writeName (nameKey mangleLength s tag)) := by
  by_cases hone : (s.splitOn 0x20).length = 1
  · rw [nameKey, if_pos hone] at h ⊢
    unfold encName
    simp only [hone]
    exact (same_external hw (by decide)).bind (same_ident hw h)
  · rw [nameKey, if_neg hone] at h ⊢
    have hnum := Nat.mod_eq_of_lt h.1
    unfold encName writeName
    simp only [hnum, if_neg hone, BitVec.toNat_ofNat, List.take_length]
    exact (same_external hw (by decide)).bind ((same_int hw h.1).bind (same_idents hw h.2))

theorem same_output (hw : 32 ≤ w) {o : Output} (h : OutputFits mangleLength o) :
    Same (fun bs => o.encode w junk mangleLength bs) (item mangleLength o).write := by
  cases o with
  | int n => exact same_int hw h
  | ident s => exact same_ident hw h
  | name s tag => exact same_name hw h

theorem same_outputs (hw : 32 ≤ w) {os : List Output} (h : ∀ o ∈ os, OutputFits mangleLength o) :
    Same (encodeOutputs w junk mangleLength os)
      fun v => (os.map (item mangleLength)).foldl (fun v i => i.write v) v := by
  induction os with
  | nil => exact fun bs v h => ⟨bs, rfl, h⟩
  | cons o os ih =>
      obtain ⟨ho, hos⟩ := List.forall_mem_cons.1 h
      exact (same_output hw ho).bind (ih hos)

theorem Agree.close (hw : 32 ≤ w) {bs : Bitstream} {v : TDFWriter} (h : Agree bs v) :
    bs.close w junk = some v.writerClose := by
  obtain ⟨out, hout, hbits⟩ := @close_spec _ junk hw _ h.ok h.file
  rw [h.seq, ← writeAlign_seq h.free, TDFWriter.seq, writeAlign_newByte, if_pos rfl,
    List.append_nil] at hbits
  rw [hout, ofBytes_inj hbits]
  rfl

/-- A producer and the linker make the same file of the same integers, identifiers and names, and
the linker reads them back to the end. -/
theorem outputFile_roundTrips (hw : 32 ≤ w) (text : Text) {os : List Output}
    (h : ∀ o ∈ os, OutputFits mangleLength o) :
    ∃ out, outputFile w junk mangleLength text os = some out ∧ ∀ garbage,
      written (os.map (item mangleLength)) garbage = out ∧
        RoundTrips (os.map (item mangleLength)) (readerOpen out garbage) := by
  have hfits : ∀ i ∈ os.map (item mangleLength), i.Fits :=
    List.forall_mem_map.2 fun o ho => match o, h o ho with
      | .int _, _ => trivial
      | .ident _, hs => hs
      | .name _ _, hk => hk
  have hagree : ∀ garbage, outputFile w junk mangleLength text os =
      some (written (os.map (item mangleLength)) garbage) := by
    intro garbage
    have hstart : Agree (Bitstream.start text (some []) none) (writerOpen garbage) :=
      ⟨Bitstream.start_ok .., rfl, free_of_new rfl, Bitstream.start_seq ..⟩
    obtain ⟨bs, hbs, hend⟩ := same_outputs hw h _ _ hstart
    rw [outputFile, hbs]
    exact hend.close hw
  refine ⟨_, hagree 0, fun garbage => ?_⟩
  have hsame := Option.some.inj ((hagree garbage).symm.trans (hagree 0))
  exact ⟨hsame, (roundTrips_iff _ garbage (r := readerOpen _ garbage) rfl hsame.symm).2 hfits⟩

/-- A number, and a name with two components. -/
theorem outputFile_roundTrips_unique :
    ∃ out, outputFile 64 (fun _ => Bitstream.blank) 24 Bitstream.blank
        [.int 9, .name [97, 32, 98] false] = some out ∧
      RoundTrips [.int 9, .name (.unique [[97], [98]])] (readerOpen out 0) := by
  have hfits : ∀ o ∈ [.int 9, .name [97, 32, 98] false], OutputFits 24 o :=
    List.forall_mem_cons.2 ⟨show 9 < 2 ^ 32 by decide, List.forall_mem_singleton.2
      (show 2 < 2 ^ 32 ∧ ∀ s ∈ [[97#8], [98#8]], s.length < 2 ^ 32 by decide)⟩
  obtain ⟨out, hout, h⟩ := outputFile_roundTrips (w := 64) (by decide) Bitstream.blank hfits
  exact ⟨out, hout, (h 0).2⟩

end

end Tendra.Ref.Tld
