import Tendra.Lib.Leb128
import Tendra.Ref.Trans.Dwarf

/-!
# The numbers of `dw2_basic.c` are LEB128

A round of each loop takes one group of seven bits off the number. Without sign that is what
the shift does; with sign it is so where the sign, copied by hand, gets to its place.
-/

namespace Tendra.Ref.Trans.Dwarf

open Tendra.Leb128

variable {l : Long}
variable {value : BitVec l.bits}

/-! ## One group -/

theorem seven_lt_bits (l : Long) : 7 < l.bits := by
  cases l <;> decide

theorem toNat_byt (value : BitVec l.bits) : (value &&& 127).toNat = value.toNat % 128 := by
  have hmask : (127 : BitVec l.bits).toNat = 2 ^ 7 - 1 := by cases l <;> rfl
  rw [BitVec.toNat_and, hmask, Nat.and_two_pow_sub_one_eq_mod]

/-- The byte of a group that has another after it. -/
theorem or_more {byt : Nat} (h : byt < 128) : byt ||| 128 = byt + 128 := by
  rw [Nat.or_comm, Nat.add_comm]
  exact (Nat.two_pow_add_eq_or_of_lt (i := 7) h 1).symm

theorem signBit {byt : Nat} (h : byt < 128) : byt &&& 0x40 ≠ 0 ↔ 64 ≤ byt := by
  have hall : ∀ b : Fin 128, b.val &&& 0x40 ≠ 0 ↔ 64 ≤ b.val := by decide
  exact hall ⟨byt, h⟩

theorem ushr_seven (value : BitVec l.bits) :
    ∃ value', ushr value 7 = .ok value' ∧ value'.toNat = value.toNat / 128 :=
  ⟨value >>> 7, if_pos (seven_lt_bits l), by
    rw [BitVec.toNat_ushiftRight, Nat.shiftRight_eq_div_pow]⟩

/-! ## Without sign -/

theorem eq_zero_iff (value : BitVec l.bits) : value = 0 ↔ value.toNat = 0 := by
  rw [BitVec.toNat_eq]
  cases l <;> rfl

/-- A round of the loops without sign. -/
theorem uleb128_step (n : Nat) (value : BitVec l.bits) :
    ∃ value' : BitVec l.bits, value'.toNat = value.toNat / 128 ∧
      uleb128 (n + 1) value =
        (if value.toNat < 128 then .ok [value.toNat]
          else (uleb128 n value').map ((value.toNat % 128 + 128) :: ·)) ∧
      ∀ op, uleb128LengthLoop (n + 1) op value =
        if value.toNat < 128 then .ok op else uleb128LengthLoop n (op + 1) value' := by
  obtain ⟨value', hshift, hvalue'⟩ := ushr_seven value
  refine ⟨value', hvalue', ?_, fun op => ?_⟩
  · simp only [uleb128, hshift, toNat_byt, eq_zero_iff, hvalue', bind, Except.bind, pure,
      Except.pure]
    by_cases hlast : value.toNat < 128
    · rw [if_pos (by omega), if_pos hlast, Nat.mod_eq_of_lt hlast]
    · rw [if_neg (by omega), if_neg hlast, or_more (Nat.mod_lt _ (by decide))]
      cases uleb128 n value' <;> rfl
  · simp only [uleb128LengthLoop, hshift, eq_zero_iff, hvalue', bind, Except.bind, pure,
      Except.pure]
    by_cases hlast : value.toNat < 128
    · rw [if_pos (by omega), if_pos hlast]
    · rw [if_neg (by omega), if_neg hlast]

/-- Both loops take a round for a byte. -/
theorem uleb128_eq {n : Nat} (h : (encodeU value.toNat).length ≤ n) :
    uleb128 n value = .ok (encodeU value.toNat) ∧
      ∀ op, uleb128LengthLoop n op value = .ok (op + (encodeU value.toNat).length - 1) := by
  induction n generalizing value with
  | zero => exact absurd h (Nat.not_le_of_lt (encodeU_pos _))
  | succ n ih =>
    obtain ⟨value', hvalue', hbytes, hlength⟩ := uleb128_step n value
    rw [hbytes]
    simp only [hlength]
    rw [encodeU] at h ⊢
    split
    case isTrue hlast => simp
    case isFalse hlast =>
      rw [if_neg hlast, List.length_cons] at h
      obtain ⟨hbytes', hlength'⟩ := @ih value' (by rw [hvalue']; omega)
      rw [hbytes', hvalue'] 
      refine ⟨rfl, fun op => ?_⟩
      rw [hlength', hvalue', List.length_cons]
      congr 1
      omega

/-! ## With sign -/

theorem toInt_mod (value : BitVec l.bits) : ((value &&& 127).toNat : Int) = value.toInt % 128 := by
  rw [toNat_byt, BitVec.toInt_eq_toNat_cond]
  split
  · omega
  · cases l <;> simp only [Long.bits] <;> omega

theorem toInt_sshiftRight_seven {w : Nat} (value : BitVec w) :
    (value.sshiftRight 7).toInt = value.toInt / 128 := by
  rw [BitVec.toInt_sshiftRight, Int.shiftRight_eq_div_pow]
  rfl

/-- A number that is not negative is shifted in one way. -/
theorem ushiftRight_eq_sshiftRight {w n : Nat} {value : BitVec w} (h : 0 ≤ value.toInt) :
    value >>> n = value.sshiftRight n := by
  have hmsb : value.msb = false := by
    by_contra hmsb
    exact absurd h (by simpa using BitVec.toInt_neg_of_msb_true (by simpa using hmsb))
  rw [BitVec.sshiftRight_eq_of_msb_false hmsb]

/-- The seven bits that are set by hand are the sign. -/
theorem or_signs {value : BitVec 32} (h : value.toInt < 0) (c : Bool) :
    (if c then value.sshiftRight 7 else value >>> 7) ||| 0xFE000000 = value.sshiftRight 7 := by
  have hmsb : value.msb = true := BitVec.msb_eq_toInt.trans (decide_eq_true h)
  have hmask : (0xFE000000 : BitVec 32) = BitVec.allOnes 32 <<< 25 := by decide
  refine BitVec.eq_of_getLsbD_eq fun i hi => ?_
  have hsigns : (0xFE000000 : BitVec 32).getLsbD i = decide (25 ≤ i) := by
    rw [hmask, BitVec.getLsbD_shiftLeft, BitVec.getLsbD_allOnes]
    by_cases h25 : 25 ≤ i
    · simp [hi, h25]
      omega
    · simp [hi, h25]
  have harith : (value.sshiftRight 7).getLsbD i = (decide (25 ≤ i) || value.getLsbD (7 + i)) := by
    rw [BitVec.getLsbD_sshiftRight, hmsb]
    by_cases h25 : 25 ≤ i
    · simp [h25, show ¬ 32 ≤ i by omega, show ¬ 7 + i < 32 by omega]
    · simp [h25, show ¬ 32 ≤ i by omega, show 7 + i < 32 by omega]
  rw [BitVec.getLsbD_or, hsigns, harith]
  cases c with
  | true => rw [if_pos rfl, harith, Bool.or_right_comm, Bool.or_self]
  | false => simp [BitVec.getLsbD_ushiftRight, Bool.or_comm]

theorem sleb128Shift_spec (c : Bool) (h : l = .long32 ∨ 0 ≤ value.toInt) :
    ∃ value', sleb128Shift c (value.toInt < 0) value = .ok value' ∧
      value'.toInt = value.toInt / 128 := by
  refine ⟨value.sshiftRight 7, ?_, toInt_sshiftRight_seven value⟩
  simp only [sleb128Shift, sshr, seven_lt_bits, if_true, bind, Except.bind, pure, Except.pure]
  by_cases hneg : value.toInt < 0
  · obtain rfl : l = .long32 := h.resolve_right (Int.not_le.2 hneg)
    rw [if_pos (decide_eq_true hneg)]
    exact congrArg Except.ok (or_signs hneg c)
  · rw [if_neg (by simpa using hneg), ushiftRight_eq_sshiftRight (Int.not_lt.1 hneg), ite_self]

theorem sleb128Stops_iff {value' : BitVec l.bits} (hvalue' : value'.toInt = value.toInt / 128) :
    sleb128Stops (value &&& 127).toNat value' = true ↔ Short value.toInt := by
  have hbyt := toInt_mod value
  have hlt : (value &&& 127).toNat < 128 := by
    rw [toNat_byt]
    exact Nat.mod_lt _ (by decide)
  rw [sleb128Stops, decide_eq_true_eq]
  by_cases hsign : 64 ≤ (value &&& 127).toNat
  · have hminus : (-1 : BitVec l.bits).toInt = -1 := by cases l <;> rfl
    rw [if_pos ((signBit hlt).2 hsign), ← BitVec.toInt_inj, hminus, hvalue', Short]
    omega
  · have hzero : (0 : BitVec l.bits).toInt = 0 := by cases l <;> rfl
    rw [if_neg (fun h => hsign ((signBit hlt).1 h)), ← BitVec.toInt_inj, hzero, hvalue', Short]
    omega

/-- A round of the loops with sign. -/
theorem sleb128_step (c : Bool) (n : Nat) (h : l = .long32 ∨ 0 ≤ value.toInt) :
    ∃ value' : BitVec l.bits, value'.toInt = value.toInt / 128 ∧
      sleb128Loop c (value.toInt < 0) (n + 1) value =
        (if Short value.toInt then .ok [(value.toInt % 128).toNat]
          else (sleb128Loop c (value'.toInt < 0) n value').map
            (((value.toInt % 128).toNat + 128) :: ·)) ∧
      ∀ op, sleb128LengthLoop c (value.toInt < 0) (n + 1) op value =
        if Short value.toInt then .ok op
        else sleb128LengthLoop c (value'.toInt < 0) n (op + 1) value' := by
  obtain ⟨value', hshift, hvalue'⟩ := sleb128Shift_spec c h
  have hbyt : (value.toInt % 128).toNat = (value &&& 127).toNat := by
    rw [← toInt_mod, Int.toNat_natCast]
  have hneg : decide (value'.toInt < 0) = decide (value.toInt < 0) :=
    decide_eq_decide.2 (by omega)
  refine ⟨value', hvalue', ?_, fun op => ?_⟩
  · simp only [sleb128Loop, hshift, bind, Except.bind, pure, Except.pure,
      sleb128Stops_iff hvalue', hbyt, hneg]
    split
    · rfl
    · rw [or_more (by rw [toNat_byt]; exact Nat.mod_lt _ (by decide))]
      cases sleb128Loop c (value.toInt < 0) n value' <;> rfl
  · simp only [sleb128LengthLoop, hshift, bind, Except.bind, pure, Except.pure,
      sleb128Stops_iff hvalue', hneg]

theorem sleb128_eq (c : Bool) {n : Nat} (h : l = .long32 ∨ 0 ≤ value.toInt)
    (hn : (encodeS value.toInt).length ≤ n) :
    sleb128Loop c (value.toInt < 0) n value = .ok (encodeS value.toInt) ∧
      ∀ op, sleb128LengthLoop c (value.toInt < 0) n op value =
        .ok (op + (encodeS value.toInt).length - 1) := by
  induction n generalizing value with
  | zero => exact absurd hn (Nat.not_le_of_lt (encodeS_pos _))
  | succ n ih =>
    obtain ⟨value', hvalue', hbytes, hlength⟩ := sleb128_step c n h
    rw [hbytes]
    simp only [hlength]
    rw [encodeS] at hn ⊢
    split
    case isTrue hshort => simp
    case isFalse hshort =>
      rw [if_neg hshort, List.length_cons] at hn
      obtain ⟨hbytes', hlength'⟩ := @ih value'
        (h.imp_right fun h => by omega) (by rw [hvalue']; omega)
      rw [hbytes', ← hvalue']
      refine ⟨rfl, fun op => ?_⟩
      rw [hlength', List.length_cons]
      congr 1
      omega

/-! ## All of it -/

/-- With so many rounds or more the loop ends with this. -/
def Gives {α : Type} (loop : Nat → Except Stop α) (a : α) : Prop :=
  ∃ rounds, ∀ n, rounds ≤ n → loop n = .ok a

/-- The bytes that are printed are bytes of the number, and so many. -/
def UlebRight (value : BitVec l.bits) : Prop :=
  ∃ bytes, Gives (uleb128 · value) bytes ∧ (∀ b ∈ bytes, b < 256) ∧
    decodeU bytes = some (value.toNat, []) ∧ Gives (uleb128Length · value) bytes.length

/-- The same of a number with sign. -/
def SlebRight (copiesSign : Bool) (value : BitVec l.bits) : Prop :=
  ∃ bytes, Gives (sleb128 copiesSign · value) bytes ∧ (∀ b ∈ bytes, b < 256) ∧
    decodeS bytes = some (value.toInt, []) ∧
    Gives (sleb128Length copiesSign · value) bytes.length

theorem ulebRight (value : BitVec l.bits) : UlebRight value := by
  have hpos := encodeU_pos value.toNat
  refine ⟨encodeU value.toNat, ⟨_, fun _ hn => (uleb128_eq hn).1⟩, fun _ => encodeU_byte, ?_,
    (encodeU value.toNat).length, fun n hn => ?_⟩
  · simpa using decodeU_encodeU value.toNat []
  · show uleb128LengthLoop n 1 value = _
    rw [(uleb128_eq hn).2]
    congr 1
    omega

theorem slebRight (c : Bool) (h : l = .long32 ∨ 0 ≤ value.toInt) : SlebRight c value := by
  have hpos := encodeS_pos value.toInt
  refine ⟨encodeS value.toInt, ⟨_, fun _ hn => (sleb128_eq c h hn).1⟩, fun _ => encodeS_byte, ?_,
    (encodeS value.toInt).length, fun n hn => ?_⟩
  · simpa using decodeS_encodeS value.toInt []
  · show sleb128LengthLoop c (value.toInt < 0) n 1 value = _
    rw [(sleb128_eq c h hn).2]
    congr 1
    omega

/-- With a `long` of 64 bits the `int` is shifted too far in the first round. -/
theorem sleb128_badShift (c : Bool) (n : Nat) {value : BitVec Long.long64.bits}
    (h : value.toInt < 0) : sleb128 c (n + 1) value = .error .badShift := by
  simp only [sleb128, sleb128Loop, sleb128Shift, sshr, seven_lt_bits, h, decide_true, if_true]
  rfl

/-- The numbers are printed as they should be where a `long` has 32 bits or the number with
sign is not negative, and there alone. -/
theorem leb128_right_iff (c : Bool) (u value : BitVec l.bits) :
    UlebRight u ∧ SlebRight c value ↔ l = .long32 ∨ 0 ≤ value.toInt := by
  refine ⟨fun h => ?_, fun h => ⟨ulebRight u, slebRight c h⟩⟩
  by_contra hbad
  rw [not_or, Int.not_le] at hbad
  obtain ⟨hl, hneg⟩ := hbad
  obtain rfl : l = .long64 := by cases l <;> trivial
  obtain ⟨bytes, ⟨rounds, hbytes⟩, -⟩ := h.2
  have hok := hbytes (rounds + 1) (Nat.le_succ rounds)
  simp only [sleb128_badShift c rounds hneg] at hok
  cases hok

theorem not_leb128_right : ¬ ∀ (l : Long) (c : Bool) (u value : BitVec l.bits),
    UlebRight u ∧ SlebRight c value := by
  intro h
  obtain ⟨bytes, ⟨rounds, hbytes⟩, -⟩ := (h .long64 true 0 (-1)).2
  have hok := hbytes (rounds + 1) (Nat.le_succ rounds)
  simp only [sleb128_badShift true rounds (show (-1 : BitVec Long.long64.bits).toInt < 0 by decide)]
    at hok
  cases hok

/-! ## Relative locations -/

/-- No error is reported. -/
def Refloc.Accepted (id : Nat) : Refloc l → Prop
  | name e _ => e = id
  | cont e => e.Accepted id
  | reff no e => 0 ≤ no.toInt ∧ e.Accepted id
  | other => False

def Located.Accepted : Located l → Prop
  | ident e loc => loc.Accepted e
  | other => False

/-- The expression is the name alone. -/
def Refloc.bare : Refloc l → Bool
  | name _ _ => true
  | _ => false

/-- The offset of the name. -/
def Refloc.nameOffset : Refloc l → BitVec l.bits
  | name _ no => no
  | cont e => e.nameOffset
  | reff _ e => e.nameOffset
  | other => 0

/-- The name stands alone or its offset is not zero. -/
def Located.Counted : Located l → Prop
  | ident _ loc => loc.bare = true ∨ loc.nameOffset ≠ 0
  | other => True

/-- Ten rounds are enough for any number. -/
theorem encodeU_le_ten (value : BitVec l.bits) : (encodeU value.toNat).length ≤ 10 := by
  refine encodeU_length (k := 9) (Nat.lt_of_lt_of_le value.isLt ?_)
  cases l <;> decide

theorem uleb128_ten {n : Nat} (hn : 10 ≤ n) (value : BitVec l.bits) :
    uleb128 n value = .ok (encodeU value.toNat) ∧
      uleb128Length n value = .ok (encodeU value.toNat).length := by
  have hlen := Nat.le_trans (encodeU_le_ten value) hn
  refine ⟨(uleb128_eq hlen).1, ?_⟩
  have hpos := encodeU_pos value.toNat
  rw [uleb128Length, (uleb128_eq hlen).2]
  congr 1
  omega

/-- The length leaves out the offset of the name where it is zero. -/
theorem refloc_lengths {id : Nat} {loc : Refloc l} (h : loc.Accepted id) :
    ∃ length bytes,
      (∀ n, 10 ≤ n → reflocLength n id loc = .ok length ∧ outRefloc n id loc = .ok bytes) ∧
      bytes.length = length + (if loc.nameOffset = 0 then 2 else 0) ∧
      (length = 0 ↔ loc.bare = true ∧ loc.nameOffset = 0) := by
  induction loc with
  | name e no =>
    obtain rfl : e = id := h
    by_cases hno : no = 0
    · subst hno
      have hzero : encodeU (byteOffset (0 : BitVec l.bits)).toNat = [0] := by
        cases l <;> (rw [encodeU]; rfl)
      refine ⟨0, [dwOpPlusUconst, 0], fun n hn => ⟨by simp [reflocLength], ?_⟩,
        by simp [Refloc.nameOffset], by simp [Refloc.bare, Refloc.nameOffset]⟩
      simp only [outRefloc, uleb128_ten hn, hzero, bind, Except.bind, pure, Except.pure, ne_eq,
        not_true_eq_false, if_false]
    · refine ⟨1 + (encodeU (byteOffset no).toNat).length,
        dwOpPlusUconst :: encodeU (byteOffset no).toNat, fun n hn => ⟨?_, ?_⟩, ?_,
        fun h => by omega, fun h => absurd h.2 hno⟩
      · simp only [reflocLength, uleb128_ten hn, hno, bind, Except.bind, pure, Except.pure, ne_eq,
          not_true_eq_false, if_false]
      · simp only [outRefloc, uleb128_ten hn, bind, Except.bind, pure, Except.pure, ne_eq,
          not_true_eq_false, if_false]
      · rw [Refloc.nameOffset, if_neg hno, List.length_cons]
        omega
  | cont e ih =>
    obtain ⟨length, bytes, hprints, heq, -⟩ := ih h
    refine ⟨length + 1, bytes ++ [dwOpDeref], fun n hn => ⟨?_, ?_⟩, ?_,
      by simp [Refloc.bare]⟩
    · simp only [reflocLength, (hprints n hn).1, bind, Except.bind, pure, Except.pure]
    · simp only [outRefloc, (hprints n hn).2, bind, Except.bind, pure, Except.pure]
    · rw [Refloc.nameOffset, List.length_append, heq, List.length_singleton]
      omega
  | reff no e ih =>
    obtain ⟨length, bytes, hprints, heq, -⟩ := ih h.2
    have hneg : ¬ no.toInt < 0 := Int.not_lt.2 h.1
    refine ⟨length + 1 + (encodeU (byteOffset no).toNat).length,
      bytes ++ dwOpPlusUconst :: encodeU (byteOffset no).toNat, fun n hn => ⟨?_, ?_⟩, ?_,
      by simp [Refloc.bare]⟩
    · simp only [reflocLength, hneg, (hprints n hn).1, uleb128_ten hn, bind, Except.bind, pure,
        Except.pure, if_false]
    · simp only [outRefloc, hneg, (hprints n hn).2, uleb128_ten hn, bind, Except.bind, pure,
        Except.pure, if_false]
    · rw [Refloc.nameOffset, List.length_append, heq, List.length_cons]
      omega
  | other => cases h

end Tendra.Ref.Trans.Dwarf
