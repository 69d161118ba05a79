import Mathlib.Logic.Basic
import Mathlib.Algebra.Group.Nat.Defs
import Tendra.Ref.Tld.TdfStream

/-!
# What is written is read back

A reader follows a writer when both are at the same place of the file that comes out in the end:
at the same byte, and in the same half of it. A call of the writer and one of the reader belong
together when the reader still follows after them, and has read the value that was written. That
goes from the nibbles over the integers and the strings to the names.
-/

namespace Tendra.Ref.Tld

open TDFWriter TDFReader

variable {α : Type} {m : ReadM α}

variable {w : TDFWriter} {r : TDFReader} {out : NString} {s : Source}

/-! ### Halves of bytes -/

theorem toNat_and_low (n : BitVec 32) (k : Nat) (hk : k < 32) :
    (n &&& BitVec.ofNat 32 (2 ^ k - 1)).toNat = n.toNat % 2 ^ k := by
  have hlt : 2 ^ k < 2 ^ 32 := Nat.pow_lt_pow_right (by decide) hk
  rw [BitVec.toNat_and, BitVec.toNat_ofNat, Nat.mod_eq_of_lt (by omega),
    Nat.and_two_pow_sub_one_eq_mod]

theorem toNat_nibble (n : BitVec 32) : (n &&& 0x0f).toNat = n.toNat % 16 :=
  toNat_and_low n 4 (by decide)

theorem toNat_digit (n : BitVec 32) : (n &&& 0x07).toNat = n.toNat % 8 :=
  toNat_and_low n 3 (by decide)

theorem toNat_high (n : BitVec 32) :
    (((n &&& 0x0f) <<< 4).setWidth 8).toNat = n.toNat % 16 * 16 := by
  rw [BitVec.toNat_setWidth, BitVec.toNat_shiftLeft, toNat_nibble, Nat.shiftLeft_eq]
  omega

theorem toNat_or_low {b : BitVec 8} (hb : b.toNat % 16 = 0) (n : BitVec 32) :
    (b ||| (n &&& 0x0f).setWidth 8).toNat = b.toNat + n.toNat % 16 := by
  have hlow : ((n &&& 0x0f).setWidth 8).toNat = n.toNat % 16 := by
    rw [BitVec.toNat_setWidth, toNat_nibble]
    omega
  have hb' : b.toNat = 2 ^ 4 * (b.toNat / 16) := by omega
  rw [BitVec.toNat_or, hlow, hb', ← Nat.two_pow_add_eq_or_of_lt (by omega)]

theorem toNat_or_div (b : BitVec 8) (n : BitVec 32) :
    (b ||| (n &&& 0x0f).setWidth 8).toNat / 16 = b.toNat / 16 := by
  have hlow : ((n &&& 0x0f).setWidth 8).toNat = n.toNat % 16 := by
    rw [BitVec.toNat_setWidth, toNat_nibble]
    omega
  have hdiv : n.toNat % 2 ^ 4 / 2 ^ 4 = 0 := by omega
  rw [BitVec.toNat_or, hlow, show 16 = 2 ^ 4 from rfl, ← Nat.shiftRight_eq_div_pow,
    Nat.shiftRight_or_distrib, Nat.shiftRight_eq_div_pow, Nat.shiftRight_eq_div_pow, hdiv,
    Nat.or_zero]

theorem toNat_read_high (b : BitVec 8) :
    ((b.setWidth 32 >>> 4) &&& 0x0f).toNat = b.toNat / 16 := by
  rw [toNat_nibble, BitVec.toNat_ushiftRight, BitVec.toNat_setWidth, Nat.shiftRight_eq_div_pow]
  omega

theorem toNat_read_low (b : BitVec 8) : (b.setWidth 32 &&& 0x0f).toNat = b.toNat % 16 := by
  rw [toNat_nibble, BitVec.toNat_setWidth]
  omega

/-! ### A reader that follows a writer -/

/-- What comes out in the end begins with what was written up to now. -/
def Begins (out : NString) (w : TDFWriter) : Prop :=
  if w.newByte then ∃ rest, out = w.output ++ rest
  else ∃ b rest, out = w.output ++ b :: rest ∧ b.toNat / 16 = w.byte.toNat / 16

/-- The reader of what comes out is where the writer is now. -/
def Meets (out : NString) (w : TDFWriter) (r : TDFReader) : Prop :=
  r.newByte = w.newByte ∧
    if w.newByte then out = w.output ++ r.source.rest
    else out = w.output ++ r.byte :: r.source.rest ∧ r.byte.toNat / 16 = w.byte.toNat / 16 ∧
      w.byte.toNat % 16 = 0

/-- A call of the writer, and one of the reader that reads back a value. -/
structure ReadsBack {α : Type} (f : TDFWriter → TDFWriter) (m : ReadM α) (a : α) : Prop where
  begins : ∀ {out w}, Begins out (f w) → Begins out w
  meets : ∀ {out w r}, Begins out (f w) → Meets out w r →
    ∃ t, m r = .ok (a, t) ∧ Meets out (f w) t

theorem readsBack_pure (a : α) : ReadsBack id (pure a) a :=
  ⟨fun h => h, fun {_ _ r} _ hr => ⟨r, rfl, hr⟩⟩

theorem ReadsBack.bind {β : Type} {f g : TDFWriter → TDFWriter} {a : α} {k : α → ReadM β} {b : β}
    (hf : ReadsBack f m a) (hg : ReadsBack g (k a) b) :
    ReadsBack (fun w => g (f w)) (m >>= k) b := by
  refine ⟨fun h => hf.begins (hg.begins h), fun {out w r} h hr => ?_⟩
  obtain ⟨t, ht, hmeets⟩ := hf.meets (hg.begins h) hr
  obtain ⟨u, hu, hmeets⟩ := hg.meets h hmeets
  refine ⟨u, ?_, hmeets⟩
  change (m r).bind (fun res => k res.1 res.2) = _
  rw [ht]
  exact hu

theorem writeNibble_new (h : w.newByte = true) (n : BitVec 32) :
    w.writeNibble n = ⟨w.output, ((n &&& 0x0f) <<< 4).setWidth 8, false⟩ := if_pos h

theorem writeNibble_old (h : ¬ w.newByte = true) (n : BitVec 32) :
    w.writeNibble n =
      ⟨w.output ++ [w.byte ||| (n &&& 0x0f).setWidth 8], w.byte ||| (n &&& 0x0f).setWidth 8,
        true⟩ := if_neg h

/-- A source that has a byte left. -/
theorem Source.readByte_of_rest {b : BitVec 8} {rest : NString} (h : s.rest = b :: rest) :
    ∃ t, s.readByte = some (b, t) ∧ t.rest = rest := by
  cases hs : s.readByte with
  | none => rw [readByte_eq_none hs] at h; cases h
  | some res =>
      obtain ⟨c, t⟩ := res
      have heq := (readByte_eq_some hs).symm.trans h
      exact ⟨t, by rw [(List.cons.inj heq).1], (List.cons.inj heq).2⟩

theorem readsBack_nibble (n : BitVec 32) :
    ReadsBack (writeNibble n) readNibble (n &&& 0x0f) := by
  refine ⟨fun {out w} h => ?_, fun {out w r} h hr => ?_⟩
  · by_cases hnew : w.newByte = true
    · rw [writeNibble_new hnew] at h
      obtain ⟨b, rest, hout, _⟩ := h
      rw [Begins, if_pos hnew]
      exact ⟨b :: rest, hout⟩
    · rw [writeNibble_old hnew] at h
      obtain ⟨rest, hout⟩ := h
      rw [Begins, if_neg hnew]
      exact ⟨_, rest, by rw [hout, List.append_assoc, List.singleton_append], toNat_or_div _ n⟩
  · by_cases hnew : w.newByte = true
    · rw [writeNibble_new hnew] at h ⊢
      obtain ⟨b, rest, hout, hb⟩ := h
      obtain ⟨hrnew, hr⟩ := hr
      rw [if_pos hnew] at hr
      have hrest : r.source.rest = b :: rest := List.append_cancel_left (hr.symm.trans hout)
      obtain ⟨t, ht, rfl⟩ := Source.readByte_of_rest hrest
      rw [toNat_high] at hb
      refine ⟨⟨t, b, false⟩, ?_, rfl, hout, ?_, ?_⟩
      · rw [readNibble, if_pos (hrnew.trans hnew), ht]
        refine congrArg Except.ok (Prod.ext (BitVec.eq_of_toNat_eq ?_) rfl)
        rw [toNat_read_high, toNat_nibble]
        omega
      · rw [toNat_high]
        exact hb
      · rw [toNat_high]
        omega
    · rw [writeNibble_old hnew] at h ⊢
      obtain ⟨rest, hout⟩ := h
      obtain ⟨hrnew, hr⟩ := hr
      rw [if_neg hnew] at hr
      obtain ⟨hr, _, hlow⟩ := hr
      rw [List.append_assoc, List.singleton_append] at hout
      obtain ⟨hbyte, hrest⟩ := List.cons.inj (List.append_cancel_left (hr.symm.trans hout))
      refine ⟨{ r with newByte := true }, ?_, rfl, ?_⟩
      · rw [readNibble, if_neg (by rw [hrnew]; exact hnew)]
        refine congrArg Except.ok (Prod.ext (BitVec.eq_of_toNat_eq ?_) rfl)
        rw [toNat_read_low, hbyte, toNat_or_low hlow, toNat_nibble]
        omega
      · rw [if_pos rfl, List.append_assoc, List.singleton_append, hout, hrest]

/-- Both are at a new byte. -/
theorem writeAlign_newByte (w : TDFWriter) : w.writeAlign.newByte = true := by
  rw [writeAlign]
  split
  · next h => exact h
  · rfl

theorem begins_writeAlign (h : Begins out w.writeAlign) : Begins out w := by
  rw [writeAlign] at h
  split at h
  · exact h
  · next hnew =>
      obtain ⟨rest, hout⟩ := h
      rw [Begins, if_neg hnew]
      exact ⟨w.byte, rest, by rw [hout, List.append_assoc, List.singleton_append], rfl⟩

theorem meets_writeAlign (h : Begins out w.writeAlign) (hr : Meets out w r) :
    Meets out w.writeAlign { r with newByte := true } := by
  refine ⟨(writeAlign_newByte w).symm, ?_⟩
  rw [if_pos (writeAlign_newByte w)]
  rw [writeAlign] at h ⊢
  obtain ⟨_, hr⟩ := hr
  split at h
  · next hnew =>
      rw [if_pos hnew] at hr ⊢
      exact hr
  · next hnew =>
      rw [if_neg hnew] at hr ⊢
      obtain ⟨rest, hout⟩ := h
      rw [List.append_assoc, List.singleton_append] at hout
      have hrest := (List.cons.inj (List.append_cancel_left (hr.1.symm.trans hout))).2
      rw [List.append_assoc, List.singleton_append, hout, hrest]

theorem readsBack_align : ReadsBack writeAlign readAlign () :=
  ⟨begins_writeAlign, fun {_ _ r} h hr => ⟨{ r with newByte := true }, rfl, meets_writeAlign h hr⟩⟩

/-- A source that begins with some bytes. -/
theorem Source.readBytes_of_rest {chars rest : NString} (h : s.rest = chars ++ rest) :
    ∃ t, s.readBytes chars.length = .ok (chars, t) ∧ t.rest = rest := by
  cases s with
  | stream file bytes =>
      obtain rfl : file = chars ++ rest := h
      rw [readBytes, List.take_left, if_neg (fun hne => hne rfl), List.drop_left]
      exact ⟨_, rfl, rfl⟩
  | string contents current limit byte le =>
      rw [Source.rest] at h
      have hlen : limit - current = chars.length + rest.length := by
        rw [← List.length_append, ← h, List.length_map, List.length_range']
      rw [hlen, ← List.range'_append_1, List.map_append] at h
      obtain ⟨hchars, hrest⟩ := List.append_inj h (by rw [List.length_map, List.length_range'])
      rw [readBytes, dif_neg (by omega), hchars]
      refine ⟨_, rfl, ?_⟩
      rw [Source.rest, show limit - (current + chars.length) = rest.length from by omega, hrest]

theorem begins_writeChars (hnew : w.newByte = true) (s : NString)
    (h : Begins out (w.writeChars s)) :
    Begins out w := by
  rw [Begins, writeChars, if_pos hnew] at h
  obtain ⟨rest, hout⟩ := h
  rw [Begins, if_pos hnew]
  exact ⟨s ++ rest, by rw [hout, List.append_assoc]⟩

theorem readsBack_bytes (s : NString) : ReadsBack (writeBytes s) (readBytes s.length) s := by
  refine ⟨fun {_ w} h => begins_writeAlign (begins_writeChars (writeAlign_newByte w) s h),
    fun {out w r} h hr => ?_⟩
  have halign := begins_writeChars (writeAlign_newByte w) s h
  obtain ⟨_, hr⟩ := meets_writeAlign halign hr
  rw [if_pos (writeAlign_newByte w)] at hr
  rw [Begins, writeBytes, writeChars, if_pos (writeAlign_newByte w)] at h
  obtain ⟨rest, hout⟩ := h
  have hrest := List.append_cancel_left ((hr.symm.trans hout).trans (List.append_assoc _ _ _))
  obtain ⟨t, ht, htrest⟩ := Source.readBytes_of_rest hrest
  refine ⟨⟨t, r.byte, true⟩, ?_, (writeAlign_newByte w).symm, ?_⟩
  · rw [readBytes, ht]
    rfl
  · rw [writeBytes, writeChars, if_pos (writeAlign_newByte w), htrest]
    exact hout

/-! ### Integers -/

theorem readIntLoop_eq (value : BitVec 32) :
    readIntLoop value = (do
      let nibble ← readNibble
      if 0xffffffff#32 >>> 3 < value then fail .tooLarge
      else if nibble &&& 0x8 ≠ 0 then pure ((value <<< 3) ||| (nibble &&& 0x7))
      else readIntLoop ((value <<< 3) ||| (nibble &&& 0x7)) : ReadM (BitVec 32)) := by
  funext r
  rw [readIntLoop]
  change _ = r.readNibble.bind fun res => (if 0xffffffff#32 >>> 3 < value then fail .tooLarge
    else if res.1 &&& 0x8 ≠ 0 then pure ((value <<< 3) ||| (res.1 &&& 0x7))
    else readIntLoop ((value <<< 3) ||| (res.1 &&& 0x7)) : ReadM (BitVec 32)) res.2
  split
  · next heq => rw [heq]; rfl
  · next nibble t heq =>
      rw [heq]
      simp only [Except.bind]
      split
      · rfl
      · split <;> rfl

/-- The value after a digit, where it fits. -/
theorem toNat_next {value : BitVec 32} (h : value.toNat < 2 ^ 29) (n : BitVec 32) :
    ((value <<< 3) ||| (n &&& 0x07)).toNat = value.toNat * 8 + n.toNat % 8 := by
  rw [BitVec.toNat_or, BitVec.toNat_shiftLeft, toNat_digit, Nat.shiftLeft_eq,
    Nat.mod_eq_of_lt (by omega), Nat.mul_comm, Nat.two_pow_add_eq_or_of_lt (by omega)]

theorem limit_lt_iff (value : BitVec 32) :
    0xffffffff#32 >>> 3 < value ↔ 2 ^ 29 ≤ value.toNat := by
  rw [BitVec.lt_def]
  exact Iff.rfl

/-- The flag of a nibble. -/
theorem flag_iff (n : BitVec 32) : n &&& 0x8 ≠ 0 ↔ n.toNat / 8 % 2 = 1 := by
  have hand : n &&& 0x8 = if n.getLsbD 3 then BitVec.twoPow 32 3 else 0 := by
    rw [show (0x8 : BitVec 32) = BitVec.twoPow 32 3 from rfl, BitVec.and_twoPow]
    rfl
  have hbit : n.getLsbD 3 = decide (n.toNat / 8 % 2 = 1) := Nat.testBit_eq_decide_div_mod_eq
  rw [hand, hbit]
  by_cases h : n.toNat / 8 % 2 = 1
  · rw [decide_eq_true h, if_pos rfl]
    exact ⟨fun _ => h, fun _ => by decide⟩
  · rw [decide_eq_false h, if_neg Bool.false_ne_true]
    exact ⟨fun hne => absurd rfl hne, fun heq => absurd heq h⟩

/-- A digit without the flag, and the last one with it, as they are read. -/
theorem toNat_read_digit (n : BitVec 32) : ((n &&& 0x07) &&& 0x0f).toNat = n.toNat % 8 := by
  rw [toNat_nibble, toNat_digit]
  omega

theorem toNat_read_last (n : BitVec 32) :
    (((n &&& 0x07) ||| 0x08) &&& 0x0f).toNat = n.toNat % 8 + 8 := by
  rw [toNat_nibble, BitVec.toNat_or, toNat_digit, Nat.or_comm, show (0x08 : BitVec 32).toNat =
    2 ^ 3 * 1 from rfl, ← Nat.two_pow_add_eq_or_of_lt (Nat.mod_lt _ (by decide))]
  omega

theorem lt_of_eq_div {value high : BitVec 32} {shift : Nat}
    (h : high.toNat = value.toNat / 8 ^ (shift + 1)) : high.toNat < 2 ^ 29 := by
  have hle : high.toNat ≤ value.toNat / 8 ^ 1 :=
    h ▸ Nat.div_le_div_left (Nat.pow_le_pow_right (by decide) (Nat.le_add_left 1 shift))
      (by decide)
  have := value.isLt
  omega

/-- The digits that are still to be written are read behind those that the value has. -/
theorem readsBack_digits (value : BitVec 32) (shift : Nat) (high : BitVec 32)
    (h : high.toNat = value.toNat / 8 ^ (shift + 1)) :
    ReadsBack (fun w => (writeDigits value shift w).writeNibble ((value &&& 0x07) ||| 0x08))
      (readIntLoop high) value := by
  have hfits := lt_of_eq_div h
  have hlimit : ¬ 0xffffffff#32 >>> 3 < high := by
    rw [limit_lt_iff]
    omega
  induction shift generalizing high with
  | zero =>
      rw [readIntLoop_eq]
      refine (readsBack_nibble _).bind (g := id) ?_
      have hvalue : (high <<< 3) ||| (((value &&& 0x07 ||| 0x08) &&& 0x0f) &&& 0x7) = value := by
        refine BitVec.eq_of_toNat_eq ?_
        rw [toNat_next hfits, toNat_read_last]
        omega
      rw [if_neg hlimit, if_pos ((flag_iff _).2 (by rw [toNat_read_last]; omega)), hvalue]
      exact readsBack_pure value
  | succ shift ih =>
      rw [readIntLoop_eq]
      refine (readsBack_nibble ((value >>> (3 * (shift + 1))) &&& 0x07)).bind
        (g := fun w => (writeDigits value shift w).writeNibble ((value &&& 0x07) ||| 0x08)) ?_
      rw [if_neg hlimit, if_neg (mt (flag_iff _).1 (by rw [toNat_read_digit]; omega))]
      have hhigh : ((high <<< 3) ||| ((((value >>> (3 * (shift + 1))) &&& 0x07) &&& 0x0f) &&&
          0x7)).toNat = value.toNat / 8 ^ (shift + 1) := by
        rw [toNat_next hfits, toNat_read_digit, h, BitVec.toNat_ushiftRight,
          Nat.shiftRight_eq_div_pow, Nat.pow_mul, Nat.pow_succ 8 (shift + 1),
          ← Nat.div_div_eq_div_mul, show 2 ^ 3 = 8 from rfl]
        omega
      have hfits' := lt_of_eq_div hhigh
      exact ih _ hhigh hfits' (by rw [limit_lt_iff]; omega)

/-- The digits that are counted are all but those of zero. -/
theorem lt_pow_shiftOf (value : BitVec 32) : value.toNat < 8 ^ (shiftOf value + 1) := by
  fun_induction shiftOf value with
  | case1 tmp h ih =>
      rw [BitVec.toNat_ushiftRight, Nat.shiftRight_eq_div_pow] at ih
      rw [Nat.pow_succ]
      omega
  | case2 tmp h =>
      have hlow : tmp = tmp &&& 0x07 := by
        refine BitVec.eq_of_getLsbD_eq fun i hi => ?_
        have hbit := congrArg (fun v => v.getLsbD i) (not_not.1 h)
        simp only [BitVec.getLsbD_and, BitVec.getLsbD_not, hi, decide_true, Bool.true_and] at hbit
        rw [BitVec.getLsbD_and]
        cases htmp : tmp.getLsbD i with
        | false => rfl
        | true => rw [htmp] at hbit; simpa using hbit
      rw [hlow, toNat_digit]
      exact Nat.mod_lt _ (by decide)

theorem readsBack_int (value : BitVec 32) : ReadsBack (writeInt value) TDFReader.readInt value :=
  readsBack_digits value (shiftOf value) 0 (Nat.div_eq_of_lt (lt_pow_shiftOf value)).symm

theorem readsBack_string {s : NString} (h : s.length < 2 ^ 32) :
    ReadsBack (writeString s) readString s := by
  refine (readsBack_int 8).bind
    (g := fun w => (w.writeInt (BitVec.ofNat 32 s.length)).writeBytes s) ?_
  rw [if_neg (fun hne => hne rfl)]
  refine (readsBack_int (BitVec.ofNat 32 s.length)).bind (g := writeBytes s) ?_
  rw [BitVec.toNat_ofNat, Nat.mod_eq_of_lt h]
  exact readsBack_bytes s

theorem readsBack_strings {ss : List NString} (h : ∀ s ∈ ss, s.length < 2 ^ 32) :
    ReadsBack (fun w => ss.foldl (fun w s => w.writeString s) w) (repeatM readString ss.length)
      ss := by
  induction ss with
  | nil => exact readsBack_pure []
  | cons s ss ih =>
      rw [List.forall_mem_cons] at h
      refine (readsBack_string h.1).bind
        (g := fun w => ss.foldl (fun w s => w.writeString s) w) ?_
      exact (ih h.2).bind (g := id) (readsBack_pure (s :: ss))

/-- A name whose strings, and whose number of components, are counted right. -/
def NameKey.Fits : NameKey → Prop
  | .string s => s.length < 2 ^ 32
  | .unique ss => ss.length < 2 ^ 32 ∧ ∀ s ∈ ss, s.length < 2 ^ 32

theorem readsBack_name {k : NameKey} (h : k.Fits) : ReadsBack (writeName k) readName k := by
  cases k with
  | string s =>
      refine (readsBack_nibble (1 <<< 2)).bind (g := fun w => w.writeAlign.writeString s) ?_
      refine readsBack_align.bind (g := writeString s) ?_
      rw [if_pos (by decide)]
      exact (readsBack_string h).bind (g := id) (readsBack_pure _)
  | unique ss =>
      refine (readsBack_nibble (2 <<< 2)).bind (g := fun w =>
        (ss.take (BitVec.ofNat 32 ss.length).toNat).foldl (fun w s => w.writeString s)
          (w.writeAlign.writeInt (BitVec.ofNat 32 ss.length))) ?_
      refine readsBack_align.bind (g := fun w =>
        (ss.take (BitVec.ofNat 32 ss.length).toNat).foldl (fun w s => w.writeString s)
          (w.writeInt (BitVec.ofNat 32 ss.length))) ?_
      rw [if_neg (by decide), if_pos (by decide), BitVec.toNat_ofNat, Nat.mod_eq_of_lt h.1,
        List.take_length]
      refine (readsBack_int (BitVec.ofNat 32 ss.length)).bind
        (g := fun w => ss.foldl (fun w s => w.writeString s) w) ?_
      rw [BitVec.toNat_ofNat, Nat.mod_eq_of_lt h.1]
      exact (readsBack_strings h.2).bind (g := id) (readsBack_pure _)

/-! ### What can be read -/

/-- What a call of the reader may give. -/
def Gives {α : Type} (m : ReadM α) (P : α → Prop) : Prop := ∀ r a t, m r = .ok (a, t) → P a

theorem gives_any (m : ReadM α) : Gives m fun _ => True := fun _ _ _ _ => trivial

theorem Gives.bind {β : Type} {k : α → ReadM β} {P : α → Prop} {Q : β → Prop} (hm : Gives m P)
    (h : ∀ a, P a → Gives (k a) Q) : Gives (m >>= k) Q := by
  intro r b t heq
  change (m r).bind (fun res => k res.1 res.2) = _ at heq
  cases hr : m r with
  | error e => rw [hr] at heq; cases heq
  | ok res =>
      rw [hr] at heq
      exact h res.1 (hm r res.1 res.2 hr) res.2 b t heq

theorem gives_pure {P : α → Prop} {a : α} (h : P a) : Gives (pure a) P := by
  intro r b t heq
  cases heq
  exact h

theorem gives_fail {P : α → Prop} (fault : TdfFault) : Gives (fail fault : ReadM α) P := by
  intro r a t heq
  cases heq

theorem gives_readBytes (length : Nat) : Gives (readBytes length) fun s => s.length = length := by
  intro r s t heq
  rw [readBytes] at heq
  cases hs : r.source.readBytes length with
  | error e => rw [hs] at heq; cases heq
  | ok res =>
      rw [hs] at heq
      cases heq
      cases hr : r.source with
      | stream file bytes =>
          rw [hr, Source.readBytes] at hs
          split at hs
          · cases hs
          · next hlen => cases hs; exact not_not.1 hlen
      | string contents current limit byte le =>
          rw [hr, Source.readBytes] at hs
          split at hs
          · cases hs
          · cases hs
            rw [List.length_map, List.length_range']

theorem gives_readString : Gives readString fun s => s.length < 2 ^ 32 := by
  refine (gives_any TDFReader.readInt).bind fun size _ => ?_
  split
  · exact gives_fail _
  · refine (gives_any TDFReader.readInt).bind fun length _ => ?_
    exact fun r s t heq => gives_readBytes _ r s t heq ▸ length.isLt

theorem gives_repeatM {P : α → Prop} (h : Gives m P) (n : Nat) :
    Gives (repeatM m n) fun as => as.length = n ∧ ∀ a ∈ as, P a := by
  induction n with
  | zero => exact gives_pure ⟨rfl, fun _ h => nomatch h⟩
  | succ n ih =>
      refine h.bind fun a ha => ih.bind fun as has => gives_pure ⟨?_, ?_⟩
      · rw [List.length_cons, has.1]
      · exact List.forall_mem_cons.2 ⟨ha, has.2⟩

theorem gives_readName : Gives readName NameKey.Fits := by
  refine (gives_any readNibble).bind fun nibble _ => ?_
  refine (gives_any readAlign).bind fun _ _ => ?_
  split
  · exact gives_readString.bind fun s hs => gives_pure hs
  split
  · refine (gives_any TDFReader.readInt).bind fun components _ => ?_
    refine (gives_repeatM gives_readString _).bind fun ss hss => gives_pure ⟨?_, hss.2⟩
    exact hss.1 ▸ components.isLt
  · exact gives_fail _

/-! ### Whole files -/

/-- A call of the writer. -/
inductive Item
  | int (value : BitVec 32)
  | align
  | bytes (s : NString)
  | string (s : NString)
  | name (k : NameKey)
deriving DecidableEq

/-- A call of the reader; the length of bytes is given. -/
inductive Request
  | int
  | align
  | bytes (length : Nat)
  | string
  | name

/-- The call that is to read what a call has written. -/
def Item.request : Item → Request
  | .int _ => .int
  | .align => .align
  | .bytes s => .bytes s.length
  | .string _ => .string
  | .name _ => .name

def Item.write : Item → TDFWriter → TDFWriter
  | .int value => writeInt value
  | .align => writeAlign
  | .bytes s => writeBytes s
  | .string s => writeString s
  | .name k => writeName k

def Request.read : Request → ReadM Item
  | .int => do
      let value ← TDFReader.readInt
      pure (.int value)
  | .align => do
      readAlign
      pure .align
  | .bytes length => do
      let s ← readBytes length
      pure (.bytes s)
  | .string => do
      let s ← readString
      pure (.string s)
  | .name => do
      let k ← readName
      pure (.name k)

/-- All lengths are counted right. -/
def Item.Fits : Item → Prop
  | .string s => s.length < 2 ^ 32
  | .name k => k.Fits
  | _ => True

/-- The file that calls write. -/
def written (items : List Item) (garbage : BitVec 8) : NString :=
  (items.foldl (fun w item => item.write w) (writerOpen garbage)).writerClose

/-- What calls read, one after the other. -/
def readAll : List Request → ReadM (List Item)
  | [] => pure []
  | request :: requests => do
      let item ← request.read
      let items ← readAll requests
      pure (item :: items)

theorem readsBack_item {item : Item} (h : item.Fits) :
    ReadsBack item.write item.request.read item := by
  cases item with
  | int value => exact (readsBack_int value).bind (g := id) (readsBack_pure _)
  | align => exact readsBack_align.bind (g := id) (readsBack_pure _)
  | bytes s => exact (readsBack_bytes s).bind (g := id) (readsBack_pure _)
  | string s => exact (readsBack_string h).bind (g := id) (readsBack_pure _)
  | name k => exact (readsBack_name h).bind (g := id) (readsBack_pure _)

theorem readsBack_items {items : List Item} (h : ∀ item ∈ items, item.Fits) :
    ReadsBack (fun w => items.foldl (fun w item => item.write w) w)
      (readAll (items.map Item.request)) items := by
  induction items with
  | nil => exact readsBack_pure []
  | cons item items ih =>
      rw [List.forall_mem_cons] at h
      refine (readsBack_item h.1).bind
        (g := fun w => items.foldl (fun w item => item.write w) w) ?_
      exact (ih h.2).bind (g := id) (readsBack_pure (item :: items))

theorem gives_read (request : Request) : Gives request.read Item.Fits := by
  cases request with
  | int => exact (gives_any _).bind fun _ _ => gives_pure trivial
  | align => exact (gives_any _).bind fun _ _ => gives_pure trivial
  | bytes length => exact (gives_any _).bind fun _ _ => gives_pure trivial
  | string => exact gives_readString.bind fun _ hs => gives_pure hs
  | name => exact gives_readName.bind fun _ hk => gives_pure hk

theorem gives_readAll (requests : List Request) :
    Gives (readAll requests) fun items => ∀ item ∈ items, item.Fits := by
  induction requests with
  | nil => exact gives_pure fun _ h => nomatch h
  | cons request requests ih =>
      exact (gives_read request).bind fun item hitem => ih.bind fun items hitems =>
        gives_pure (List.forall_mem_cons.2 ⟨hitem, hitems⟩)

/-- A source that has nothing left. -/
theorem Source.readByte_of_nil (h : s.rest = []) : s.readByte = none := by
  cases hs : s.readByte with
  | none => rfl
  | some res => rw [readByte_eq_some (t := res.2) (b := res.1) hs] at h; cases h

theorem readEof_of_nil (h : r.source.rest = []) : r.readEof = .ok () := by
  have hnone := Source.readByte_of_nil h
  rw [readEof]
  cases hs : r.source with
  | stream file bytes =>
      rw [hs] at hnone
      simp only [hnone]
  | string contents current limit byte le =>
      rw [hs, Source.readByte] at hnone
      split at hnone
      · cases hnone
      · next hlt => exact if_neg hlt

/-- The calls read back what was written, and come to the end of the file. -/
def RoundTrips (items : List Item) (r : TDFReader) : Prop :=
  ∃ t, readAll (items.map Item.request) r = .ok (items, t) ∧ t.readEof = .ok ()

/-- A reader of a whole file reads back all calls whose lengths are counted right. -/
theorem roundTrips_iff (items : List Item) (garbage : BitVec 8) (hnew : r.newByte = true)
    (hrest : r.source.rest = written items garbage) :
    RoundTrips items r ↔ ∀ item ∈ items, item.Fits := by
  refine ⟨fun ⟨t, ht, _⟩ => gives_readAll _ r items t ht, fun h => ?_⟩
  have hitems := readsBack_items h
  have hclose : Begins (written items garbage)
      (items.foldl (fun w item => item.write w) (writerOpen garbage)).writeAlign := by
    rw [Begins, if_pos (writeAlign_newByte _)]
    exact ⟨[], (List.append_nil _).symm⟩
  have hbegins := begins_writeAlign hclose
  obtain ⟨t, ht, hmeets⟩ := hitems.meets hbegins
    (show Meets (written items garbage) (writerOpen garbage) r from ⟨hnew, hrest.symm⟩)
  refine ⟨t, ht, readEof_of_nil ?_⟩
  obtain ⟨_, hend⟩ := meets_writeAlign hclose hmeets
  rw [if_pos (writeAlign_newByte _)] at hend
  exact List.append_cancel_left (hend.symm.trans (List.append_nil _).symm)

theorem rest_readerOpenString (bytes : NString) (garbage : BitVec 8) :
    (readerOpenString bytes garbage).source.rest = bytes := by
  refine List.ext_getElem ?_ fun i hi hi' => ?_
  · rw [readerOpenString, Source.rest, List.length_map, List.length_range', Nat.sub_zero]
  · simp [readerOpenString, Source.rest, Source.char, hi']

/-! ### Integers that are too large -/

/-- The nibbles that a reader has left. -/
def TDFReader.nibbles (r : TDFReader) : List Nat :=
  (if r.newByte then [] else [r.byte.toNat % 16]) ++ nibblesOf r.source.rest

/-- The nibbles of an integer: those without the flag, and the first one that has it. -/
def intDigits : List Nat → List Nat
  | [] => []
  | nibble :: nibbles =>
      if nibble / 8 % 2 = 1 then [nibble] else nibble :: intDigits nibbles

/-- The number that digits denote, behind those of a value. -/
def number (value : Nat) (digits : List Nat) : Nat :=
  digits.foldl (fun value digit => value * 8 + digit % 8) value

theorem le_number (value : Nat) (digits : List Nat) : value ≤ number value digits := by
  induction digits generalizing value with
  | nil => exact Nat.le_refl value
  | cons digit digits ih =>
      have hle := ih (value * 8 + digit % 8)
      exact Nat.le_trans (by omega) hle

theorem number_intDigits_cons (value nibble : Nat) (nibbles : List Nat) :
    number value (intDigits (nibble :: nibbles)) =
      if nibble / 8 % 2 = 1 then value * 8 + nibble % 8
      else number (value * 8 + nibble % 8) (intDigits nibbles) := by
  rw [intDigits]
  split <;> rfl

theorem readNibble_ok {t : TDFReader} {nibble : BitVec 32} (h : r.readNibble = .ok (nibble, t)) :
    r.nibbles = nibble.toNat :: t.nibbles := by
  rw [readNibble] at h
  split at h
  · next hnew =>
      split at h
      · cases h
      · next byte source hbyte =>
          cases h
          rw [nibbles, nibbles, if_pos hnew, if_neg Bool.false_ne_true,
            Source.readByte_eq_some hbyte, toNat_read_high]
          rfl
  · next hnew =>
      cases h
      rw [nibbles, nibbles, if_neg hnew, if_pos rfl, toNat_read_low]
      rfl

theorem readNibble_error {e : TdfError} (h : r.readNibble = .error e) :
    e.fault = .unexpectedEof ∧ r.nibbles = [] := by
  rw [readNibble] at h
  split at h
  · next hnew =>
      split at h
      · next hbyte =>
          cases h
          rw [nibbles, if_pos hnew, Source.readByte_eq_none hbyte]
          exact ⟨rfl, rfl⟩
      · cases h
  · cases h

/-- The error is raised behind a value if and only if that and the digits come to too much. -/
theorem readIntLoop_tooLarge_iff (value : BitVec 32) (r : TDFReader) :
    (∃ byte, readIntLoop value r = .error ⟨byte, .tooLarge⟩) ↔
      2 ^ 32 ≤ number value.toNat (intDigits r.nibbles) := by
  have hvalue := value.isLt
  fun_induction readIntLoop value r with
  | case1 value r e h =>
      obtain ⟨hfault, hnil⟩ := readNibble_error h
      rw [hnil]
      refine ⟨fun ⟨_, heq⟩ => ?_, fun hle => absurd hle (Nat.not_le_of_lt hvalue)⟩
      cases heq
      cases hfault
  | case2 value r nibble t h hlimit =>
      rw [limit_lt_iff] at hlimit
      rw [readNibble_ok h, number_intDigits_cons]
      refine ⟨fun _ => ?_, fun _ => ⟨_, rfl⟩⟩
      split
      · omega
      · exact Nat.le_trans (by omega) (le_number _ _)
  | case3 value r nibble t h hlimit value' hflag =>
      rw [limit_lt_iff, Nat.not_le] at hlimit
      rw [readNibble_ok h, number_intDigits_cons, if_pos ((flag_iff nibble).1 hflag)]
      exact ⟨fun ⟨_, heq⟩ => (nomatch heq), fun hle => absurd hle (by omega)⟩
  | case4 value r nibble t h hlimit value' hflag ih =>
      rw [limit_lt_iff, Nat.not_le] at hlimit
      rw [readNibble_ok h, number_intDigits_cons, if_neg (mt (flag_iff nibble).2 hflag),
        ← toNat_next hlimit]
      exact ih value'.isLt

/-- What is written is read back to the end, from a file and from a string, if and only if all
lengths are counted right; and an integer is too large just when its digits denote more than an
`unsigned` has. -/
theorem roundTrips_exact (items : List Item) (garbage garbage' : BitVec 8) :
    (RoundTrips items (readerOpen (written items garbage) garbage') ↔
      ∀ item ∈ items, item.Fits) ∧
    (RoundTrips items (readerOpenString (written items garbage) garbage') ↔
      ∀ item ∈ items, item.Fits) ∧
    ∀ r : TDFReader, (∃ byte, TDFReader.readInt r = .error ⟨byte, .tooLarge⟩) ↔
      2 ^ 32 ≤ number 0 (intDigits r.nibbles) :=
  ⟨roundTrips_iff items garbage rfl rfl, roundTrips_iff items garbage rfl
    (rest_readerOpenString _ garbage'), readIntLoop_tooLarge_iff 0⟩

/-- The length of a string of so many characters is written as 0. -/
theorem not_roundTrips_exact :
    ¬ RoundTrips [.string (List.replicate (2 ^ 32) 0)]
      (readerOpen (written [.string (List.replicate (2 ^ 32) 0)] 0) 0) := by
  rintro ⟨t, ht, _⟩
  have hlt := gives_readAll _ _ _ t ht _ (List.mem_singleton_self _)
  rw [Item.Fits, List.length_replicate] at hlt
  exact Nat.lt_irrefl _ hlt

end Tendra.Ref.Tld
