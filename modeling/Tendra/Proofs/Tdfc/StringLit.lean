import Mathlib.Data.List.Induction
import Mathlib.Data.List.TakeWhile
import Tendra.Lib.Digits
import Tendra.Ref.Tdfc.Literal

/-!
# Characters in literals

## Large characters are reported

The overflow of `eval_char_digits` is found where the running value gets smaller. In a word of
64 bits that is enough, together with the test of `add_multi_char`: if the last value has 32
bits and no value was smaller than the one before it, no value had more than 32 bits, and no
product had more than 64. In a word of 32 bits a product can pass the end of the word and come
out larger than before.
-/

namespace Tendra.Ref.Tdfc

open Tendra

variable {sz : Nat}

variable {cs : List (Nat × CharKind)}

/-! ## Words -/

theorem Word.pow_bits_pos (w : Word) : 0 < 2 ^ w.bits := Nat.pow_pos (by decide)

theorem Word.wrap_lt (w : Word) (n : Nat) : w.wrap n < 2 ^ w.bits :=
  Nat.mod_lt _ w.pow_bits_pos

theorem Word.wrap_of_lt {w : Word} {n : Nat} (h : n < 2 ^ w.bits) : w.wrap n = n :=
  Nat.mod_eq_of_lt h

/-- A product is the same in the word when the factor is put into it first. -/
theorem Word.wrap_mul_add (w : Word) (b n d : Nat) :
    w.wrap (b * w.wrap n + d) = w.wrap (b * n + d) := by
  unfold Word.wrap
  rw [Nat.add_mod, Nat.mul_mod_mod, ← Nat.add_mod]

theorem Word.half_le (w : Word) : 2 ^ 32 ≤ 2 ^ w.bits := by
  cases w <;> decide

/-! ## The number of some digits -/

/-- The number that the digits denote. -/
def denoted (base : Nat) (s : List UInt8) : Nat := Digits.val base (s.map digitValues)

theorem denoted_nil (base : Nat) : denoted base [] = 0 := rfl

theorem denoted_snoc (base : Nat) (s : List UInt8) (c : UInt8) :
    denoted base (s ++ [c]) = base * denoted base s + digitValues c := by
  simp [denoted, Digits.val_append, Nat.mul_comm]

/-- In the word the number gets smaller at some digit. -/
def Drops (w : Word) (base : Nat) (s : List UInt8) : Prop :=
  ∃ s₁ c s₂, s = s₁ ++ c :: s₂ ∧ w.wrap (denoted base (s₁ ++ [c])) < w.wrap (denoted base s₁)

theorem not_drops_nil (w : Word) (base : Nat) : ¬ Drops w base [] := by
  intro h
  obtain ⟨s₁, c, s₂, h, -⟩ := h
  exact List.cons_ne_nil _ _ (List.append_eq_nil_iff.1 h.symm).2

theorem drops_snoc (w : Word) (base : Nat) (s : List UInt8) (c : UInt8) :
    Drops w base (s ++ [c]) ↔
      Drops w base s ∨ w.wrap (denoted base (s ++ [c])) < w.wrap (denoted base s) := by
  refine ⟨fun h => ?_, fun h => ?_⟩
  · obtain ⟨s₁, c', s₂, heq, hlt⟩ := h
    cases hs₂ : s₂.reverse with
    | nil =>
        obtain rfl : s₂ = [] := List.reverse_eq_nil_iff.1 hs₂
        obtain ⟨rfl, hc⟩ := List.append_inj' heq rfl
        cases hc
        exact .inr hlt
    | cons d t =>
        obtain rfl : s₂ = t.reverse ++ [d] := by
          rw [← List.reverse_reverse s₂, hs₂, List.reverse_cons]
        rw [← List.cons_append, ← List.append_assoc] at heq
        exact .inl ⟨s₁, c', t.reverse, (List.append_inj' heq rfl).1, hlt⟩
  · cases h with
    | inl h =>
        obtain ⟨s₁, c', s₂, rfl, hlt⟩ := h
        exact ⟨s₁, c', s₂ ++ [c], by simp, hlt⟩
    | inr hlt => exact ⟨s, c, [], rfl, hlt⟩

/-! ## `eval_char_digits` -/

theorem evalCharLoop_append (w : Word) (base : Nat) (r s : List UInt8) (n : Nat) (o : Bool) :
    evalCharLoop w base (r ++ s) n o =
      evalCharLoop w base s (evalCharLoop w base r n o).1 (evalCharLoop w base r n o).2 := by
  induction r generalizing n o with
  | nil => rfl
  | cons c r ih => exact ih _ _

theorem evalCharDigits_snoc (w : Word) (base : Nat) (s : List UInt8) (c : UInt8) :
    evalCharDigits w base (s ++ [c]) =
      (w.wrap (base * (evalCharDigits w base s).1 + digitValues c),
        (evalCharDigits w base s).2 ||
          w.wrap (base * (evalCharDigits w base s).1 + digitValues c) <
            (evalCharDigits w base s).1) := by
  rw [evalCharDigits, evalCharLoop_append]
  rfl

/-- The value is the number in the word, and a drop is reported. -/
theorem evalCharDigits_spec (w : Word) (base : Nat) (s : List UInt8) :
    (evalCharDigits w base s).1 = w.wrap (denoted base s) ∧
      ((evalCharDigits w base s).2 = true ↔ Drops w base s) := by
  induction s using List.reverseRecOn with
  | nil =>
    refine ⟨(Nat.zero_mod _).symm, fun h => ?_, fun h => absurd h (not_drops_nil w base)⟩
    cases h
  | append_singleton s c ih =>
    have hvalue : w.wrap (base * (evalCharDigits w base s).1 + digitValues c) =
        w.wrap (denoted base (s ++ [c])) := by
      rw [ih.1, Word.wrap_mul_add, denoted_snoc]
    rw [evalCharDigits_snoc]
    refine ⟨hvalue, ?_⟩
    rw [drops_snoc, Bool.or_eq_true, ih.2, hvalue, decide_eq_true_eq, ih.1]

/-- If a number is small in a word of 64 bits and never got smaller, it is small. -/
theorem denoted_small {base : Nat} (hbase : base ≤ 16) {s : List UInt8}
    (hs : ∀ c ∈ s, digitValues c < base) (hlast : Word.bits64.wrap (denoted base s) < 2 ^ 32)
    (hdrops : ¬ Drops .bits64 base s) : denoted base s < 2 ^ 32 := by
  induction s using List.reverseRecOn with
  | nil => exact Nat.pow_pos (by decide)
  | append_singleton s c ih =>
    rw [drops_snoc, not_or, Nat.not_lt] at hdrops
    have hc : digitValues c < base := hs c (by simp)
    have hbefore : denoted base s < 2 ^ 32 :=
      ih (fun c hc => hs c (List.mem_append_left _ hc)) (Nat.lt_of_le_of_lt hdrops.2 hlast)
        hdrops.1
    have hproduct : base * denoted base s ≤ 16 * denoted base s := Nat.mul_le_mul_right _ hbase
    rw [Word.wrap_of_lt] at hlast
    · exact hlast
    · rw [denoted_snoc, Word.bits]
      omega

/-! ## `add_multi_char` -/

theorem multiBytes_eq (w : Word) {i : Nat} (hi : i ≤ 4) (n : Nat) :
    multiValue w (multiBytes i n).1 = n % 256 ^ i ∧ (multiBytes i n).2 = n / 256 ^ i ∧
      (multiBytes i n).1.length = i := by
  induction i generalizing n with
  | zero => simp [multiBytes, multiValue, Nat.mod_one]
  | succ i ih =>
    obtain ⟨hvalue, hrest, hlength⟩ := ih (Nat.le_of_succ_le hi) (n >>> 8)
    have hbyte : n >>> 8 = n / 256 := Nat.shiftRight_eq_div_pow n 8
    rw [hbyte] at hvalue hrest hlength
    have hlow : n &&& 0xff = n % 256 := Nat.and_two_pow_sub_one_eq_mod n 8
    have hsplit : n / 256 % 256 ^ i * 256 + n % 256 = n % 256 ^ (i + 1) := by
      rw [Nat.pow_succ, Nat.mul_comm (256 ^ i), Nat.mod_mul, Nat.mul_comm, Nat.add_comm]
    have hfits : n % 256 ^ (i + 1) < 2 ^ w.bits := by
      have hpow : (256 : Nat) ^ (i + 1) ≤ 256 ^ 4 := Nat.pow_le_pow_right (by decide) hi
      have hlt := Nat.mod_lt n (Nat.pow_pos (n := i + 1) (show 0 < 256 by decide))
      have hhalf := w.half_le
      omega
    refine ⟨?_, ?_, ?_⟩
    · have hshift : (n / 256 % 256 ^ i) <<< 8 = n / 256 % 256 ^ i * 256 := Nat.shiftLeft_eq _ 8
      simp only [multiBytes, multiValue, hbyte, hvalue, hlow, hshift]
      rw [← hsplit] at hfits ⊢
      rw [Word.wrap_of_lt (Nat.lt_of_le_of_lt (Nat.le_add_right _ _) hfits),
        Word.wrap_of_lt hfits]
    · simp only [multiBytes, hbyte, hrest]
      rw [Nat.div_div_eq_div_mul, Nat.pow_succ, Nat.mul_comm]
    · simp only [multiBytes, hbyte, List.length_cons, hlength]

theorem addMultiChar_length (n : Nat) (ch : CharKind) :
    (addMultiChar n ch).1.length = multiWidth := by
  simp [addMultiChar, (multiBytes_eq .bits32 (i := 4) (Nat.le_refl 4) n).2.2]

/-- A character is read back as what it has in 32 bits, and more is reported. -/
theorem getMultiChar_addMultiChar (w : Word) (n : Nat) (ch : CharKind) :
    getMultiChar w (addMultiChar n ch).1 = (n % 2 ^ 32, ch.code) ∧
      ((addMultiChar n ch).2 = true ↔ 2 ^ 32 ≤ n) := by
  obtain ⟨hvalue, hrest, hlength⟩ := multiBytes_eq w (i := 4) (Nat.le_refl 4) n
  refine ⟨?_, ?_⟩
  · simp [getMultiChar, addMultiChar, List.take_of_length_le (Nat.le_of_eq hlength), hvalue]
  · simp only [addMultiChar, decide_eq_true_eq, multiWidth, hrest]
    omega

/-! ## Both -/

/-- The character that is stored is the number of the digits, or it is reported. -/
def StoredRight (w : Word) (base : Nat) (ch : CharKind) (s : List UInt8) : Prop :=
  let n := evalCharDigits w base s
  let stored := addMultiChar n.1 ch
  (getMultiChar w stored.1).1 = denoted base s ∨ n.2 = true ∨ stored.2 = true

theorem storedRight_iff_wrap (w : Word) (base : Nat) (ch : CharKind) (s : List UInt8) :
    StoredRight w base ch s ↔
      w.wrap (denoted base s) % 2 ^ 32 = denoted base s ∨ Drops w base s ∨
        2 ^ 32 ≤ w.wrap (denoted base s) := by
  obtain ⟨hvalue, hdrops⟩ := evalCharDigits_spec w base s
  obtain ⟨hget, hreport⟩ := getMultiChar_addMultiChar w (evalCharDigits w base s).1 ch
  rw [StoredRight, hget, hdrops, hreport, hvalue]

/-- No large character goes without a report in a word of 64 bits; in one of 32 the character is
right or reported where the number has 32 bits or gets smaller at some digit, and there alone. -/
theorem storedRight_iff (w : Word) {base : Nat} (hbase : base = 8 ∨ base = 16) (ch : CharKind)
    {s : List UInt8} (hs : ∀ c ∈ s, digitValues c < base) :
    StoredRight w base ch s ↔ w = .bits64 ∨ denoted base s < 2 ^ 32 ∨ Drops w base s := by
  rw [storedRight_iff_wrap]
  by_cases hsmall : denoted base s < 2 ^ 32
  · have hwrap := Word.wrap_of_lt (Nat.lt_of_lt_of_le hsmall w.half_le)
    exact ⟨fun _ => .inr (.inl hsmall), fun _ => .inl (by rw [hwrap, Nat.mod_eq_of_lt hsmall])⟩
  by_cases hdrops : Drops w base s
  · simp [hdrops]
  have hne : w.wrap (denoted base s) % 2 ^ 32 ≠ denoted base s := by omega
  cases w with
  | bits32 =>
    have hlt := Word.bits32.wrap_lt (denoted base s)
    rw [Word.bits] at hlt
    simp only [hne, hdrops, hsmall, Nat.not_le_of_lt hlt, or_self, reduceCtorEq]
  | bits64 =>
    have hlarge : 2 ^ 32 ≤ Word.bits64.wrap (denoted base s) := by
      by_contra hlarge
      exact hsmall (denoted_small (by omega) hs (Nat.lt_of_not_le hlarge) hdrops)
    exact ⟨fun _ => .inl rfl, fun _ => .inr (.inr hlarge)⟩

theorem storedRight_ff : StoredRight .bits32 16 .hex [102, 102] ↔
    Word.bits32 = .bits64 ∨ denoted 16 [102, 102] < 2 ^ 32 ∨ Drops .bits32 16 [102, 102] :=
  storedRight_iff .bits32 (.inr rfl) .hex (by simp [digitValues])

/-- `\x118000000` becomes 0x18000000. -/
theorem not_storedRight : ¬ ∀ (w : Word) (base : Nat), base = 8 ∨ base = 16 →
    ∀ (ch : CharKind) (s : List UInt8), (∀ c ∈ s, digitValues c < base) →
      StoredRight w base ch s := by
  intro h
  have hdigits := h .bits32 16 (.inr rfl) .hex [49, 49, 56, 48, 48, 48, 48, 48, 48]
    (by simp [digitValues])
  revert hdigits
  unfold StoredRight
  decide

/-!
## What `new_string_lit` writes

The loop first writes one byte for a character. At the first escape sequence that is not simple
what has been written is put into a larger array, five bytes for a character, and the rest is
written in this format. In both parts the array holds what has been written and then nothing,
and what is written next goes to the end of it; so the only question is whether there is room,
and whether the mapping has the character.

The larger array is as long as the text asks for, unless its size is too large for a word.
-/

/-! ## Results under a condition -/

/-- There is a result if `c` holds, and `P` holds of it; there is none if not. -/
def Yields {ε α : Type} (x : Except ε α) (c : Prop) (P : α → Prop) : Prop :=
  (c → ∃ a, x = .ok a ∧ P a) ∧ ∀ a, x = .ok a → c

section

variable {ε α β : Type} {x : Except ε α} {c d : Prop} {P Q : α → Prop}

theorem Yields.of_ok {a : α} (hc : c) (h : P a) : Yields (.ok a : Except ε α) c P :=
  ⟨fun _ => ⟨a, rfl, h⟩, fun _ _ => hc⟩

theorem Yields.of_error {e : ε} (hc : ¬ c) : Yields (.error e : Except ε α) c P :=
  ⟨fun h => absurd h hc, fun _ h => by cases h⟩

theorem Yields.eq_error (h : Yields x c P) (hc : ¬ c) : ∃ e, x = .error e := by
  cases hx : x with
  | error e => exact ⟨e, rfl⟩
  | ok a => exact absurd (h.2 a hx) hc

theorem Yields.weaken (h : Yields x c P) (hcd : c ↔ d) (hPQ : c → ∀ a, P a → Q a) :
    Yields x d Q := by
  refine ⟨fun hd => ?_, fun a hx => hcd.1 (h.2 a hx)⟩
  obtain ⟨a, hx, ha⟩ := h.1 (hcd.2 hd)
  exact ⟨a, hx, hPQ (hcd.2 hd) a ha⟩

theorem Yields.bind {f : α → Except ε β} {R : β → Prop} (h : Yields x c P)
    (hf : c → ∀ a, P a → Yields (f a) d R) : Yields (x >>= f) (c ∧ d) R := by
  refine ⟨fun hcd => ?_, fun b hb => ?_⟩
  · obtain ⟨a, hx, ha⟩ := h.1 hcd.1
    obtain ⟨b, hb, hR⟩ := (hf hcd.1 a ha).1 hcd.2
    exact ⟨b, by rw [hx]; exact hb, hR⟩
  · cases hx : x with
    | error e =>
        rw [hx] at hb
        cases hb
    | ok a =>
        have hc := h.2 a hx
        obtain ⟨a', hx', ha'⟩ := h.1 hc
        obtain rfl : a = a' := Except.ok.inj (hx.symm.trans hx')
        rw [hx] at hb
        exact ⟨hc, (hf hc a ha').2 b hb⟩

end

/-! ## Arrays written from the start -/

/-- An array of length `sz` with these bytes at its start. -/
def filled (sz : Nat) (bytes : List Nat) : List (Option Nat) :=
  bytes.map some ++ List.replicate (sz - bytes.length) none

theorem filled_nil (sz : Nat) : filled sz [] = xmalloc sz := rfl

theorem length_filled {bytes : List Nat} (h : bytes.length ≤ sz) :
    (filled sz bytes).length = sz := by
  simp [filled]
  omega

theorem filled_set {bytes : List Nat} (h : bytes.length < sz) (b : Nat) :
    (filled sz bytes).set bytes.length (some b) = filled sz (bytes ++ [b]) := by
  obtain ⟨k, hk⟩ := Nat.exists_eq_add_of_lt h
  have hroom : sz - bytes.length = k + 1 := by omega
  have hnext : sz - (bytes.length + 1) = k := by omega
  simp [filled, List.set_append_right, hroom, hnext, List.replicate_succ]

/-- What is written goes to the end, if there is room. -/
theorem write_filled {bytes : List Nat} (h : bytes.length ≤ sz) (bs : List Nat) :
    Yields (write (filled sz bytes) bytes.length bs) (bytes.length + bs.length ≤ sz)
      (· = filled sz (bytes ++ bs)) := by
  induction bs generalizing bytes with
  | nil =>
    refine Yields.of_ok (by simpa using h) ?_
    rw [List.append_nil]
  | cons b bs ih =>
    rw [write, length_filled h]
    split
    case isTrue hlt =>
      rw [filled_set hlt]
      have hnext := @ih (bytes ++ [b]) (by simpa [Nat.succ_le_iff] using hlt)
      rw [List.length_append, List.length_singleton, List.append_assoc] at hnext
      refine hnext.weaken ?_ (fun _ a ha => ha)
      rw [List.length_cons]
      omega
    case isFalse hge =>
      refine Yields.of_error ?_
      rw [List.length_cons]
      omega

/-- The bytes of a string whose characters are converted. -/
def widened (bytes : List Nat) : List Nat :=
  bytes.flatMap fun b => (addMultiChar b .simple).1

theorem length_widened (bytes : List Nat) : (widened bytes).length = multiWidth * bytes.length := by
  simp [widened, List.length_flatMap, addMultiChar_length, List.map_const', Nat.mul_comm]

theorem makeMultiLoop_filled {sz' : Nat} {bytes : List Nat} {n i : Nat} (hi : i + n = bytes.length)
    (hroom : multiWidth * i ≤ sz') :
    Yields (makeMultiLoop (filled sz bytes) n i (filled sz' (widened (bytes.take i))))
      (multiWidth * bytes.length ≤ sz') (· = filled sz' (widened bytes)) := by
  induction n generalizing i with
  | zero =>
    obtain rfl : i = bytes.length := by omega
    refine Yields.of_ok hroom ?_
    rw [List.take_length]
  | succ n ih =>
    have hlt : i < bytes.length := by omega
    have hget : (filled sz bytes).getD i none = some bytes[i] := by
      rw [List.getD_eq_getElem?_getD, filled, List.getElem?_append_left (by simpa using hlt)]
      simp [hlt]
    have hlength : (widened (bytes.take i)).length = multiWidth * i := by
      rw [length_widened, List.length_take, Nat.min_eq_left (Nat.le_of_lt hlt)]
    have hnext : widened (bytes.take i) ++ (addMultiChar bytes[i] .simple).1 =
        widened (bytes.take (i + 1)) := by
      rw [← List.take_append_getElem hlt, widened, widened, List.flatMap_append,
        List.flatMap_singleton]
    have hwrite := @write_filled sz' (widened (bytes.take i)) (by omega)
      (addMultiChar bytes[i] .simple).1
    rw [hlength, addMultiChar_length, hnext] at hwrite
    rw [makeMultiLoop, hget]
    by_cases hfits : multiWidth * i + multiWidth ≤ sz'
    · refine (hwrite.bind (d := multiWidth * bytes.length ≤ sz') fun _ a ha => ?_).weaken
        (and_iff_right hfits) fun _ a ha => ha
      rw [ha]
      exact ih (by omega) hfits
    · obtain ⟨e, he⟩ := hwrite.eq_error hfits
      simp only [he]
      refine Yields.of_error fun hall => hfits ?_
      exact Nat.le_trans (Nat.mul_le_mul_left _ hlt) hall

/-! ## One character -/

/-- The character can be stored in one byte. -/
def CharRead.narrow (r : CharRead) : Bool := r.ch = .simple ∧ r.c < 256

/-- The mapping has the character. -/
def LitOptions.Maps (o : LitOptions) (r : CharRead) : Prop := o.map 0 = 0 → r.c < 256

/-- The character in the execution character set. -/
def LitOptions.mapped (w : Word) (o : LitOptions) (c : Nat) : Nat :=
  if o.map 0 = 0 then (o.map c % 2 ^ w.bits).toNat else c

theorem mapChar_yields (w : Word) (o : LitOptions) (r : CharRead) :
    Yields (o.mapChar w r.c) (o.Maps r) (· = o.mapped w r.c) := by
  rw [LitOptions.mapChar, LitOptions.mapped, LitOptions.Maps]
  split
  case isTrue hmap =>
    split
    case isTrue hc => exact Yields.of_ok (fun _ => hc) rfl
    case isFalse hc => exact Yields.of_error fun h => hc (h hmap)
  case isFalse hmap => exact Yields.of_ok (fun h => absurd h hmap) rfl

/-- The variables while characters have one byte. -/
structure Narrow (sz kind : Nat) (bytes : List Nat) (p : Scan) : Prop where
  str : p.str = filled sz bytes
  len : p.len = bytes.length
  room : bytes.length ≤ sz
  kind : p.kind = kind
  multi : p.multi = false
  overflow : p.overflow = false

/-- The variables while characters have five bytes. -/
structure Wide (sz : Nat) (bytes : List Nat) (p : Scan) : Prop where
  str : p.str = filled sz bytes
  len : p.len = bytes.length
  room : bytes.length ≤ sz
  kind : p.kind &&& stringMulti ≠ 0
  multi : p.multi = true
  overflow : p.overflow = false

section

variable {w : Word} {o : LitOptions} {kind : Nat} {bytes : List Nat} {p : Scan} {r : CharRead}

theorem Narrow.reported (hp : Narrow sz kind bytes p) (large : Bool) :
    Narrow sz kind bytes { p with large := large } := { hp with }

theorem Wide.reported (hp : Wide sz bytes p) (large : Bool) :
    Wide sz bytes { p with large := large } := { hp with }

theorem multi_set (kind : Nat) : (kind ||| stringMulti) &&& stringMulti ≠ 0 := by
  rw [Nat.and_or_distrib_right]
  simp

/-- A length that has room is not changed by the word. -/
theorem wrap_length (hsz : sz < 2 ^ w.bits) {n : Nat} (h : n ≤ sz) : w.wrap n = n :=
  Word.wrap_of_lt (Nat.lt_of_le_of_lt h hsz)

theorem put_narrow (hsz : sz < 2 ^ w.bits) (hp : Narrow sz kind bytes p) (hr : r.narrow = true) :
    Yields (p.put w o r) (bytes.length + 1 ≤ sz)
      (Narrow sz kind (bytes ++ [o.mapped w r.c % 256])) := by
  have hmaps : o.Maps r := fun _ => (of_decide_eq_true hr).2
  refine ((mapChar_yields w o r).bind (d := bytes.length + 1 ≤ sz) fun _ c hc => ?_).weaken
    (and_iff_right hmaps) fun _ a ha => ha
  rw [hc, hp.multi, hp.str, hp.len]
  refine ((write_filled hp.room [o.mapped w r.c % 256]).bind (d := True)
    fun hroom str hstr => Yields.of_ok trivial ?_).weaken (and_iff_left trivial) fun _ a ha => ha
  have hlen : w.wrap (bytes.length + 1) = bytes.length + 1 := wrap_length hsz hroom
  exact {
    str := hstr
    len := by simp [hlen]
    room := by simpa using hroom
    kind := hp.kind
    multi := rfl
    overflow := by simp [hlen, hp.overflow] }

theorem put_wide (hsz : sz < 2 ^ w.bits) (hp : Wide sz bytes p) :
    Yields (p.put w o r) (o.Maps r ∧ bytes.length + multiWidth ≤ sz)
      (Wide sz (bytes ++ (addMultiChar (o.mapped w r.c) r.ch).1)) := by
  refine (mapChar_yields w o r).bind fun _ c hc => ?_
  rw [hc, hp.multi, hp.str, hp.len]
  have hwrite := write_filled hp.room (addMultiChar (o.mapped w r.c) r.ch).1
  rw [addMultiChar_length] at hwrite
  refine (hwrite.bind (d := True) fun hroom str hstr => Yields.of_ok trivial ?_).weaken
    (and_iff_left trivial) fun _ a ha => ha
  have hlen : w.wrap (bytes.length + multiWidth) = bytes.length + multiWidth :=
    wrap_length hsz hroom
  exact {
    str := hstr
    len := by simp [hlen, addMultiChar_length]
    room := by simpa [addMultiChar_length] using hroom
    kind := hp.kind
    multi := rfl
    overflow := by simp [hlen, hp.overflow] }

/-- The length of the larger array. -/
def wideSize (w : Word) (sz : Nat) : Nat := w.wrap (sz * multiWidth)

theorem toMulti_yields (hp : Narrow sz kind bytes p) :
    Yields (p.toMulti w r) (multiWidth * bytes.length ≤ wideSize w sz)
      (Wide (wideSize w sz) (widened bytes)) := by
  have hloop := @makeMultiLoop_filled sz (wideSize w sz) bytes bytes.length 0 (Nat.zero_add _)
    (Nat.zero_le _)
  rw [Scan.toMulti, hp.str, hp.len, length_filled hp.room]
  refine (hloop.bind (d := True) fun hroom a ha => Yields.of_ok trivial ?_).weaken
    (and_iff_left trivial) fun _ a ha => ha
  have hlen : w.wrap (bytes.length * multiWidth) = multiWidth * bytes.length := by
    rw [Nat.mul_comm]
    exact Word.wrap_of_lt (Nat.lt_of_le_of_lt hroom (w.wrap_lt _))
  exact {
    str := ha
    len := by rw [length_widened, hlen]
    room := by rw [length_widened]; exact hroom
    kind := multi_set _
    multi := rfl
    overflow := by
      simp [hlen, hp.overflow] }

theorem store_narrow (hsz : sz < 2 ^ w.bits) (hp : Narrow sz kind bytes p)
    (hr : r.narrow = true) :
    Yields (p.store w o r) (bytes.length + 1 ≤ sz)
      (Narrow sz kind (bytes ++ [o.mapped w r.c % 256])) := by
  have hsimple : r.ch = .simple ∧ r.c < 256 := of_decide_eq_true hr
  have hstays : ¬ ((r.ch ≠ .simple ∨ r.c ≥ 256) ∧ p.multi = false) := by
    simp [hsimple.1, hsimple.2]
  rw [Scan.store, if_neg hstays]
  exact put_narrow hsz (hp.reported _) hr

theorem store_convert (hp : Narrow sz kind bytes p) (hr : r.narrow = false) :
    Yields (p.store w o r)
      (o.Maps r ∧ multiWidth * bytes.length + multiWidth ≤ wideSize w sz)
      (Wide (wideSize w sz) (widened bytes ++ (addMultiChar (o.mapped w r.c) r.ch).1)) := by
  have hconverts : (r.ch ≠ .simple ∨ r.c ≥ 256) ∧ p.multi = false := by
    refine ⟨?_, hp.multi⟩
    by_contra hboth
    rw [not_or, not_not, Nat.not_le] at hboth
    rw [CharRead.narrow, decide_eq_true hboth] at hr
    cases hr
  rw [Scan.store, if_pos hconverts]
  refine ((toMulti_yields (hp.reported _)).bind fun _ p' hp' => put_wide (w.wrap_lt _) hp').weaken
    ?_ fun _ a ha => ha
  rw [length_widened]
  constructor
  · exact fun h => h.2
  · exact fun h => ⟨by omega, h⟩

theorem store_wide (hsz : sz < 2 ^ w.bits) (hp : Wide sz bytes p) :
    Yields (p.store w o r) (o.Maps r ∧ bytes.length + multiWidth ≤ sz)
      (Wide sz (bytes ++ (addMultiChar (o.mapped w r.c) r.ch).1)) := by
  have hstays : ¬ ((r.ch ≠ .simple ∨ r.c ≥ 256) ∧ p.multi = false) := by
    simp [hp.multi]
  rw [Scan.store, if_neg hstays]
  exact put_wide hsz (hp.reported _)

end

/-! ## Reading the characters -/

/-- The bytes of characters, five for each. -/
def multiString (cs : List (Nat × CharKind)) : List Nat :=
  cs.flatMap fun c => (addMultiChar c.1 c.2).1

theorem length_multiString (cs : List (Nat × CharKind)) :
    (multiString cs).length = multiWidth * cs.length := by
  simp [multiString, List.length_flatMap, addMultiChar_length, List.map_const', Nat.mul_comm]

/-- A character is found at five times its place. -/
theorem take_multiString {i : Nat} (h : i < cs.length) (rest : List (Option Nat)) :
    ((((multiString cs).map some ++ rest).drop (multiWidth * i)).take multiWidth) =
      (addMultiChar cs[i].1 cs[i].2).1.map some := by
  have hsplit : multiString cs = multiString (cs.take i) ++
      ((addMultiChar cs[i].1 cs[i].2).1 ++ multiString (cs.drop (i + 1))) := by
    have hcs : cs.take i ++ cs[i] :: cs.drop (i + 1) = cs := by
      rw [← List.drop_eq_getElem_cons h, List.take_append_drop]
    rw [← congrArg multiString hcs, multiString, List.flatMap_append, List.flatMap_cons]
    rfl
  have hbefore : (multiString (cs.take i)).length = multiWidth * i := by
    rw [length_multiString, List.length_take, Nat.min_eq_left (Nat.le_of_lt h)]
  rw [hsplit, List.map_append, List.append_assoc, List.drop_left' (by simpa using hbefore),
    List.map_append, List.append_assoc, List.take_left' (by simp [addMultiChar_length])]

theorem mapM_some (bytes : List Nat) : (bytes.map some).mapM id = some bytes := by
  induction bytes with
  | nil => rfl
  | cons b bytes ih => simp [List.mapM_cons, ih]

/-! ## The loop -/

/-- The characters of a text, each read where the one before it ends. -/
def elements (w : Word) (o : LitOptions) : List UInt8 → List CharRead
  | [] => []
  | x :: s => readChar w o x s :: elements w o (readChar w o x s).rest
termination_by s => s.length
decreasing_by
  have := readChar_length w o x s
  simp only [List.length_cons]
  omega

theorem scanString_eq (w : Word) (o : LitOptions) (s : List UInt8) (p : Scan) :
    scanString w o s p = (elements w o s).foldlM (Scan.store w o) p := by
  induction h : s.length using Nat.strongRecOn generalizing s p with
  | ind n ih =>
    subst h
    cases s with
    | nil => rw [scanString, elements]; rfl
    | cons x s =>
        have hlength := readChar_length w o x s
        rw [scanString, elements, List.foldlM_cons]
        cases hp : p.store w o (readChar w o x s) with
        | error e => rfl
        | ok p' =>
            exact ih _ (by rw [List.length_cons]; omega) _ p' rfl

section

variable {w : Word} {o : LitOptions} {kind : Nat} {bytes : List Nat} {p : Scan} {rs : List CharRead}

theorem scan_narrow (hsz : sz < 2 ^ w.bits) (hp : Narrow sz kind bytes p)
    (hrs : ∀ r ∈ rs, r.narrow = true) :
    Yields (rs.foldlM (Scan.store w o) p) (bytes.length + rs.length ≤ sz)
      (Narrow sz kind (bytes ++ rs.map fun r => o.mapped w r.c % 256)) := by
  induction rs generalizing bytes p with
  | nil => exact Yields.of_ok hp.room (by simpa using hp)
  | cons r rs ih =>
    rw [List.foldlM_cons]
    refine ((store_narrow hsz hp (hrs r List.mem_cons_self)).bind fun _ p' hp' =>
      ih hp' fun r hr => hrs r (List.mem_cons_of_mem _ hr)).weaken ?_ fun _ a ha => ?_
    · simp only [List.length_append, List.length_cons, List.length_nil]
      omega
    · simpa using ha

/-- The bytes of characters in the larger array. -/
def wideBytes (w : Word) (o : LitOptions) (rs : List CharRead) : List Nat :=
  rs.flatMap fun r => (addMultiChar (o.mapped w r.c) r.ch).1

theorem scan_wide (hsz : sz < 2 ^ w.bits) (hp : Wide sz bytes p) :
    Yields (rs.foldlM (Scan.store w o) p)
      ((∀ r ∈ rs, o.Maps r) ∧ bytes.length + multiWidth * rs.length ≤ sz)
      (Wide sz (bytes ++ wideBytes w o rs)) := by
  induction rs generalizing bytes p with
  | nil => exact Yields.of_ok ⟨by simp, hp.room⟩ (by simpa [wideBytes] using hp)
  | cons r rs ih =>
    rw [List.foldlM_cons]
    refine ((store_wide hsz hp).bind fun _ p' hp' => ih hp').weaken ?_ fun _ a ha => ?_
    · simp only [List.length_append, addMultiChar_length, List.length_cons, List.forall_mem_cons,
        Nat.mul_succ]
      constructor
      · exact fun h => ⟨⟨h.1.1, h.2.1⟩, by omega⟩
      · exact fun h => ⟨⟨h.1.1, by omega⟩, h.1.2, by omega⟩
    · simpa [wideBytes] using ha

end

/-! ## The literal -/

/-- What a text makes: up to the first escape sequence that is not simple the low bytes of the
characters, and then the characters with their kinds. -/
def literalChars (w : Word) (o : LitOptions) (rs : List CharRead) : List (Nat × CharKind) :=
  (rs.takeWhile CharRead.narrow).map (fun r => (o.mapped w r.c % 256, .simple)) ++
    (rs.dropWhile CharRead.narrow).map fun r => (o.mapped w r.c, r.ch)

theorem length_literalChars (w : Word) (o : LitOptions) (rs : List CharRead) :
    (literalChars w o rs).length = rs.length := by
  rw [literalChars, List.length_append, List.length_map, List.length_map, ← List.length_append,
    List.takeWhile_append_dropWhile]

/-- The mapping has every character, and the larger array, if there is one, has room for the
characters and one more. -/
def LiteralSafe (w : Word) (o : LitOptions) (s : List UInt8) : Prop :=
  (∀ r ∈ elements w o s, o.Maps r) ∧
    ((∀ r ∈ elements w o s, r.narrow = true) ∨
      multiWidth * ((elements w o s).length + 1) ≤ wideSize w (s.length + 1))

/-- The literal has these characters. -/
def StringLit.Has (w : Word) (r : StringLit) (cs : List (Nat × CharKind)) : Prop :=
  r.len = cs.length ∧
    ∀ i, r.getStringChar w i = cs[i]?.map fun c => (c.1 % 2 ^ 32, c.2.code)

theorem elements_length (w : Word) (o : LitOptions) (s : List UInt8) :
    (elements w o s).length ≤ s.length := by
  induction h : s.length using Nat.strongRecOn generalizing s with
  | ind n ih =>
    subst h
    cases s with
    | nil => rw [elements]; exact Nat.le_refl 0
    | cons x s =>
        have hlength := readChar_length w o x s
        have hrest := ih _ (by rw [List.length_cons]; omega) (readChar w o x s).rest rfl
        rw [elements, List.length_cons, List.length_cons]
        omega

section

variable {w : Word} {o : LitOptions} {s : List UInt8} {lex : LitToken} {p : Scan}
  {bytes : List Nat}

/-- What `new_string_lit` does after its loop. -/
def finish (w : Word) (o : LitOptions) (p : Scan) : Except LitFault StringLit := do
  let str ← write p.str p.len (if p.multi then (addMultiChar 0 .octal).1 else [0])
  let len := if p.multi then p.len / multiWidth else p.len
  let len := if p.overflow then 2 ^ w.bits - 1 else len
  if len ≤ o.stringLength then
    return ⟨len, str, p.kind, p.large⟩
  else
    let len := o.stringLength
    let str ←
      if p.multi then write str (w.wrap (multiWidth * len)) (addMultiChar 0 .octal).1
      else write str len [0]
    return ⟨len, str, p.kind, p.large⟩

theorem newStringLit_eq (w : Word) (o : LitOptions) (s : List UInt8) (lex : LitToken) :
    newStringLit w o s lex =
      (elements w o s).foldlM (Scan.store w o)
        ⟨xmalloc (w.wrap (s.length + 1)), 0, lex.kind, false, false, false⟩ >>= finish w o := by
  rw [← scanString_eq]
  rfl

theorem finish_narrow (hlimit : cs.length ≤ o.stringLength)
    (hcs : ∀ c ∈ cs, c.1 < 2 ^ 32 ∧ c.2 = .simple) (hp : Narrow sz lex.kind (cs.map Prod.fst) p) :
    Yields (finish w o p) (cs.length + 1 ≤ sz) (StringLit.Has w · cs) := by
  have hwrite := write_filled hp.room [0]
  rw [List.length_map] at hwrite
  simp only [finish, hp.multi, hp.overflow, hp.str, hp.len, List.length_map, hlimit, if_true,
    Bool.false_eq_true, if_false]
  refine (hwrite.bind (d := True) fun hroom str hstr =>
    Yields.of_ok trivial ⟨rfl, fun i => ?_⟩).weaken (and_iff_left trivial) fun _ a ha => ha
  have hkind : p.kind &&& stringMulti = 0 := by
    rw [hp.kind]
    cases lex <;> rfl
  simp only [StringLit.getStringChar, hkind]
  by_cases hi : i < cs.length
  · obtain ⟨hsmall, hsimple⟩ := hcs cs[i] (List.getElem_mem hi)
    simp [hi, hstr, filled, List.getElem?_append, hsimple]
    exact (Nat.mod_eq_of_lt hsmall).symm
  · simp [hi]

theorem finish_wide (hsz : sz < 2 ^ w.bits) (hlimit : cs.length ≤ o.stringLength)
    (hp : Wide sz (multiString cs) p) :
    Yields (finish w o p) (multiWidth * (cs.length + 1) ≤ sz) (StringLit.Has w · cs) := by
  have hwrite := write_filled hp.room (addMultiChar 0 .octal).1
  have hlen : multiWidth * cs.length / multiWidth = cs.length :=
    Nat.mul_div_cancel_left _ (by decide)
  rw [addMultiChar_length, length_multiString, ← Nat.mul_succ] at hwrite
  simp only [finish, hp.multi, hp.overflow, hp.str, hp.len, length_multiString, hlen, hlimit,
    if_true, Bool.false_eq_true, if_false]
  refine (hwrite.bind (d := True) fun hroom str hstr =>
    Yields.of_ok trivial ⟨rfl, fun i => ?_⟩).weaken (and_iff_left trivial) fun _ a ha => ha
  simp only [StringLit.getStringChar, hp.kind, ne_eq, not_false_eq_true, if_true]
  by_cases hi : i < cs.length
  · have hplace : w.wrap (multiWidth * i) = multiWidth * i := by
      refine Word.wrap_of_lt (Nat.lt_of_le_of_lt ?_ hsz)
      exact Nat.le_trans (Nat.mul_le_mul_left _ (Nat.le_succ_of_le (Nat.le_of_lt hi))) hroom
    have hget := (getMultiChar_addMultiChar w cs[i].1 cs[i].2).1
    rw [hstr, hplace, filled, List.map_append, List.append_assoc, take_multiString hi, mapM_some,
      Option.map_some, hget]
    simp [hi]
  · simp [hi]

/-- Characters that have one byte are written as they are. -/
theorem literalChars_narrow {rs : List CharRead} (hrs : ∀ r ∈ rs, r.narrow = true) :
    literalChars w o rs = rs.map fun r => (o.mapped w r.c % 256, .simple) := by
  rw [literalChars, List.takeWhile_eq_self_iff.2 hrs, List.dropWhile_eq_nil_iff.2 hrs]
  simp

theorem maps_of_narrow {r : CharRead} (h : r.narrow = true) : o.Maps r :=
  fun _ => (of_decide_eq_true h).2

theorem widened_append_wideBytes (rs ts : List CharRead) :
    widened (rs.map fun r => o.mapped w r.c % 256) ++ wideBytes w o ts =
      multiString (rs.map (fun r => (o.mapped w r.c % 256, .simple)) ++
        ts.map fun r => (o.mapped w r.c, r.ch)) := by
  simp [widened, wideBytes, multiString, List.flatMap_map]

theorem newStringLit_yields (hsize : s.length + 1 < 2 ^ w.bits)
    (hlimit : (elements w o s).length ≤ o.stringLength) :
    Yields (newStringLit w o s lex) (LiteralSafe w o s)
      (StringLit.Has w · (literalChars w o (elements w o s))) := by
  have hlength := elements_length w o s
  have hstart : Narrow (s.length + 1) lex.kind []
      ⟨xmalloc (w.wrap (s.length + 1)), 0, lex.kind, false, false, false⟩ := by
    rw [Word.wrap_of_lt hsize]
    exact ⟨(filled_nil _).symm, rfl, Nat.zero_le _, rfl, rfl, rfl⟩
  rw [newStringLit_eq, LiteralSafe]
  generalize hes : elements w o s = es at hlength hlimit ⊢
  cases hwide : es.dropWhile CharRead.narrow with
  | nil =>
    have hall : ∀ r ∈ es, r.narrow = true := List.dropWhile_eq_nil_iff.1 hwide
    have hchars := literalChars_narrow (w := w) (o := o) hall
    have hbytes : (literalChars w o es).map Prod.fst = es.map fun r => o.mapped w r.c % 256 := by
      rw [hchars, List.map_map]
      rfl
    have hsimple : ∀ c ∈ literalChars w o es, c.1 < 2 ^ 32 ∧ c.2 = .simple := by
      rw [hchars]
      intro c hc
      obtain ⟨r, -, rfl⟩ := List.mem_map.1 hc
      exact ⟨Nat.lt_trans (Nat.mod_lt _ (by decide)) (by decide), rfl⟩
    have hends := fun p (hp : Narrow (s.length + 1) lex.kind _ p) =>
      finish_narrow (w := w) (o := o) (by rwa [length_literalChars]) hsimple hp
    rw [hbytes, length_literalChars] at hends
    refine ((scan_narrow hsize hstart hall).bind fun _ p hp => hends p hp).weaken ?_
      fun _ a ha => ha
    rw [List.length_nil, Nat.zero_add]
    exact ⟨fun _ => ⟨fun r hr => maps_of_narrow (hall r hr), .inl hall⟩,
      fun _ => ⟨by omega, by omega⟩⟩
  | cons r ts =>
    have hsplit : es = es.takeWhile CharRead.narrow ++ r :: ts := by
      rw [← hwide, List.takeWhile_append_dropWhile]
    have hnarrow : ∀ r ∈ es.takeWhile CharRead.narrow, r.narrow = true :=
      fun r hr => List.mem_takeWhile_imp hr
    have hr : r.narrow = false := by
      simpa [hwide] using List.head_dropWhile_not CharRead.narrow (l := es) (by simp [hwide])
    have hchars : literalChars w o es =
        (es.takeWhile CharRead.narrow).map (fun r => (o.mapped w r.c % 256, .simple)) ++
          (r :: ts).map fun r => (o.mapped w r.c, r.ch) := by
      rw [literalChars, hwide]
    generalize es.takeWhile CharRead.narrow = rs at hsplit hnarrow hchars
    rw [hchars]
    subst hsplit
    simp only [List.foldlM_append, List.foldlM_cons, bind_assoc]
    generalize hcs : rs.map (fun r => (o.mapped w r.c % 256, CharKind.simple)) ++
      (r :: ts).map (fun r => (o.mapped w r.c, r.ch)) = cs
    have hwidened : widened (rs.map fun r => o.mapped w r.c % 256) ++
        (addMultiChar (o.mapped w r.c) r.ch).1 ++ wideBytes w o ts = multiString cs := by
      rw [← hcs, ← widened_append_wideBytes, List.append_assoc]
      rfl
    have hcount : cs.length = rs.length + (ts.length + 1) := by simp [← hcs]
    have hends : ∀ p, Wide (wideSize w (s.length + 1)) (multiString cs) p →
        Yields (finish w o p) (multiWidth * (cs.length + 1) ≤ wideSize w (s.length + 1))
          (StringLit.Has w · cs) :=
      fun p hp => finish_wide (w.wrap_lt _) (by simpa [hcount] using hlimit) hp
    refine ((scan_narrow hsize hstart hnarrow).bind fun _ p hp =>
      ((store_convert hp hr).bind fun _ p hp =>
        (scan_wide (w.wrap_lt _) hp).bind fun _ p hp => hends p (hwidened ▸ hp))).weaken ?_
          fun _ a ha => ha
    rw [hcount]
    have hmaps : (∀ r' ∈ rs ++ r :: ts, o.Maps r') ↔ o.Maps r ∧ ∀ r' ∈ ts, o.Maps r' := by
      rw [List.forall_mem_append, List.forall_mem_cons]
      exact and_iff_right fun r' hr' => maps_of_narrow (hnarrow r' hr')
    have hnot : ¬ ∀ r' ∈ rs ++ r :: ts, r'.narrow = true := by
      intro hall
      rw [hall r (by simp)] at hr
      cases hr
    change _ ∧ (_ ∧ _) ∧ (_ ∧ _ ≤ wideSize w (s.length + 1)) ∧ _ ↔ _
    rw [hmaps, or_iff_right hnot]
    generalize wideSize w (s.length + 1) = size
    simp only [List.nil_append, List.length_append, List.length_map, List.length_cons,
      List.length_nil, length_widened, addMultiChar_length, multiWidth] at hlength ⊢
    constructor
    · exact fun h => ⟨⟨h.2.1.1, h.2.2.1.1⟩, h.2.2.2⟩
    · exact fun h => ⟨by omega, ⟨h.1.1, by omega⟩, ⟨h.1.2, by omega⟩, h.2⟩

end

/-- A mapping is loaded that changes nothing. -/
def sameMap : LitOptions := ⟨true, escapeSequences, fun c => c, 100⟩

theorem elements_xfff : elements .bits64 sameMap [92, 120, 102, 102, 102] =
    [⟨4095, .hex, [], false⟩] := by
  have hread : readChar .bits64 sameMap 92 [120, 102, 102, 102] = ⟨4095, .hex, [], false⟩ := by
    decide
  rw [elements, hread, elements]

end Tendra.Ref.Tdfc
