import Tendra.Proofs.Tdfc.FloatLit
import Tendra.Ref.Tdfc.LiteralExp

/-!
# Floating literals in their text

`make_literal_exp` finds the point, the exponent and the suffix of a literal, and writes
terminators to the text: over the point, over the trailing zeros and over the letter of the
exponent. The strings that are left are the two parts. Their zeros at the other end are skipped,
and a part that has no digits is a zero of its own. Then all characters are put back.
-/

namespace Tendra.Ref.Tdfc.Literal

open Tendra NatConst

variable {c : UInt8} {s b : List UInt8} {e : ExpText}

/-! ## Places in a text -/

section

variable {a d : List UInt8} {e : UInt8}

theorem charAt_append (a : List UInt8) (c : UInt8) (b : List UInt8) :
    charAt (a ++ c :: b) a.length = c := by
  simp [charAt]

theorem charAt_next (a : List UInt8) (c e : UInt8) (b : List UInt8) :
    charAt (a ++ c :: e :: b) (a.length + 1) = e := by
  simp [charAt]

theorem set_append (a : List UInt8) (c e : UInt8) (b : List UInt8) :
    (a ++ c :: b).set a.length e = a ++ e :: b := by
  simp

theorem drop_append (a b : List UInt8) : (a ++ b).drop a.length = b := List.drop_left

/-- The digits of the base stop here. -/
def Stops (base : Nat) (b : List UInt8) : Prop := ∀ c ∈ b.head?, c = 0 ∨ base ≤ digitValues c

theorem checkDigits_append {base : Nat} (hd : DigitsOf base d) (h0 : 0 ∉ d) (hb : Stops base b) :
    checkDigits base (d ++ b) = b := by
  induction d with
  | nil =>
      cases b with
      | nil => rfl
      | cons c b =>
          rw [List.nil_append, checkDigits, if_neg]
          intro h
          exact (hb c rfl).elim h.1 (Nat.not_le.2 h.2)
  | cons c d ih =>
      obtain ⟨hc, hd⟩ := digitsOf_cons.1 hd
      rw [List.mem_cons, not_or] at h0
      rw [List.cons_append, checkDigits, if_pos ⟨Ne.symm h0.1, hc⟩]
      exact ih hd h0.2

theorem digitsEnd_append {base : Nat} (a : List UInt8) (hd : DigitsOf base d) (h0 : 0 ∉ d)
    (hb : Stops base b) : digitsEnd (a ++ (d ++ b)) base a.length = (a ++ d).length := by
  rw [digitsEnd, drop_append, checkDigits_append hd h0 hb]
  simp
  omega

end

/-- A digit is not the null character. -/
theorem zero_not_mem (h : DigitsOf 10 s) : 0 ∉ s := fun h0 =>
  absurd (h 0 h0) (by decide)

/-! ## Trailing zeros -/

theorem stripZeros_stop {mem : List UInt8} {i : Nat} (h : charAt mem i ≠ charZero) (n : Nat) :
    stripZeros i mem n = (mem, i, n) := by
  cases i with
  | zero => rfl
  | succ i => rw [stripZeros, if_neg h]

theorem replicate_split (g : List UInt8) (c x : UInt8) (k : Nat) (b : List UInt8) :
    g ++ c :: (List.replicate (k + 1) x ++ b) = (g ++ c :: List.replicate k x) ++ x :: b := by
  simp [List.replicate_succ']

/-- Zeros behind something else are replaced by terminators. -/
theorem stripZeros_spec (g : List UInt8) (hc : c ≠ charZero) (k : Nat) :
    ∀ (b : List UInt8) (n : Nat),
    stripZeros (g.length + k) (g ++ c :: (List.replicate k charZero ++ b)) n =
      (g ++ c :: (List.replicate k 0 ++ b), g.length, n + k) := by
  induction k with
  | zero =>
      intro b n
      exact stripZeros_stop (by rwa [Nat.add_zero, charAt_append]) n
  | succ k ih =>
      intro b n
      have hlen : g.length + k + 1 = (g ++ c :: List.replicate k charZero).length := by
        simp
        omega
      rw [← Nat.add_assoc, replicate_split, stripZeros, hlen, charAt_append, if_pos rfl, set_append,
        List.append_assoc, List.cons_append, ih, replicate_split]
      simp
      omega

/-- And the zeros are put back. -/
theorem restoreZeros_spec (g : List UInt8) (c : UInt8) (k : Nat) : ∀ b : List UInt8,
    restoreZeros k (g.length + k) (g ++ c :: (List.replicate k 0 ++ b)) =
      g ++ c :: (List.replicate k charZero ++ b) := by
  induction k with
  | zero => intro b; rfl
  | succ k ih =>
      intro b
      have hlen : g.length + (k + 1) = (g ++ c :: List.replicate k 0).length := by
        simp
      rw [restoreZeros, replicate_split, hlen, set_append, ← hlen, List.append_assoc,
        List.cons_append, Nat.add_succ_sub_one, ih, replicate_split]
      simp

theorem restoreZeros_all {l : List UInt8} (hl : l ≠ []) (k : Nat) (b : List UInt8) :
    restoreZeros k (l.length + k - 1) (l ++ (List.replicate k 0 ++ b)) =
      l ++ (List.replicate k charZero ++ b) := by
  cases List.eq_nil_or_concat l with
  | inl h => exact absurd h hl
  | inr h =>
      obtain ⟨g, c, rfl⟩ := h
      have hlen : (g.concat c).length + k - 1 = g.length + k := by
        rw [List.length_concat]
        omega
      rw [hlen, List.concat_eq_append, List.append_assoc, List.singleton_append, List.append_assoc,
        List.singleton_append, restoreZeros_spec]

/-! ## The parts -/

/-- The number behind the point. -/
def fraction (s : List UInt8) : ℚ := denoted 10 s * 10 ^ (-(s.length : Int))

theorem value_eq_parts (f : FloatLit) :
    f.value = (denoted 10 f.intPart + fraction f.fracPart) * 10 ^ f.exponent.toInt := by
  have happ : denoted 10 (f.intPart ++ f.fracPart) =
      denoted 10 f.intPart * 10 ^ f.fracPart.length + denoted 10 f.fracPart := by
    simp [denoted, Digits.val_append]
  rw [FloatLit.value, happ, fraction, zpow_sub₀ (by norm_num), zpow_neg, zpow_natCast]
  push_cast
  field_simp

theorem fraction_zeros (g : List UInt8) (k : Nat) :
    fraction (g ++ List.replicate k charZero) = fraction g := by
  have hval : denoted 10 (g ++ List.replicate k charZero) = denoted 10 g * 10 ^ k := by
    rw [denoted, List.map_append, List.map_replicate, show digitValues charZero = 0 from rfl,
      Digits.val_append_zeros, denoted]
  rw [fraction, hval, fraction, List.length_append, List.length_replicate]
  push_cast
  rw [neg_add, zpow_add₀ (by norm_num), zpow_neg _ (k : Int), zpow_natCast]
  field_simp

theorem fraction_nil : fraction [] = 0 := by simp [fraction, denoted]

theorem fraction_zero : fraction (smallNumber 0) = 0 := by
  have h := fraction_zeros [] 1
  rw [fraction_nil] at h
  exact h

/-- Digits without the zeros at their end. -/
theorem exists_zeros (f : List UInt8) : ∃ g k, f = g ++ List.replicate k charZero ∧
    g.getLast? ≠ some charZero := by
  induction f using List.reverseRecOn with
  | nil => exact ⟨[], 0, rfl, by simp⟩
  | append_singleton f c ih =>
      by_cases hc : c = charZero
      · obtain ⟨g, k, rfl, hg⟩ := ih
        refine ⟨g, k + 1, ?_, hg⟩
        rw [hc, List.replicate_succ', List.append_assoc]
      · exact ⟨f ++ [c], 0, by simp, by simpa using hc⟩

/-- The literals that are shared are as they would be made. -/
theorem shared_eq (int frac : List UInt8) (expon : NatConst) :
    (if (decide (expon = .small 0)) ∧ frac = smallNumber 0 then
      ((List.range 2).find? fun i => int = smallNumber i).bind getFloat
    else none).getD ⟨int, frac, expon⟩ = ⟨int, frac, expon⟩ := by
  split
  · rename_i h
    obtain ⟨hexp, rfl⟩ := h
    rw [decide_eq_true_eq] at hexp
    subst hexp
    rw [show List.range 2 = [0, 1] from rfl, List.find?_cons]
    split
    · rename_i h0
      rw [decide_eq_true_eq] at h0
      rw [h0]
      rfl
    · rw [List.find?_cons]
      split
      · rename_i h1
        rw [decide_eq_true_eq] at h1
        rw [h1]
        rfl
      · rfl
  · rfl

/-- A part as it is kept: without the zeros, and 0 if nothing is left. -/
def kept (s : List UInt8) : List UInt8 := if s = [] then smallNumber 0 else s

theorem takeWhile_terminated (h : 0 ∉ s) (b : List UInt8) :
    (s ++ 0 :: b).takeWhile (· ≠ 0) = s := by
  rw [List.takeWhile_append_of_pos (fun c hc => by simpa using ne_of_mem_of_not_mem hc h)]
  simp

theorem zerosEnd_spec (a s : List UInt8) (hb : ∀ c ∈ b.head?, c ≠ charZero) :
    zerosEnd (a ++ (s ++ b)) a.length = (a ++ s.takeWhile (· = charZero)).length := by
  have hdrop : (s ++ b).dropWhile (· = charZero) = s.dropWhile (· = charZero) ++ b := by
    have hstop : b.dropWhile (· = charZero) = b := by
      cases b with
      | nil => rfl
      | cons c b => rw [List.dropWhile_cons_of_neg (by simpa using hb c rfl)]
    rw [List.dropWhile_append]
    split
    · rename_i h
      rw [List.isEmpty_iff.1 h, List.nil_append, hstop]
    · rfl
  have hlen := congrArg List.length (List.takeWhile_append_dropWhile
    (p := fun c => decide (c = charZero)) (l := s))
  rw [List.length_append] at hlen
  rw [zerosEnd, drop_append, hdrop]
  simp only [List.length_append]
  omega

/-- The part before the point, from its first digit that is not zero. -/
theorem intPart_string {a : List UInt8} (hs : DigitsOf 10 s) (hb : ∀ c ∈ b.head?, c ≠ charZero)
    (rest : List UInt8) :
    (if zerosEnd (a ++ (s ++ b)) a.length = (a ++ s).length then Part.small 0
      else .text (zerosEnd (a ++ (s ++ b)) a.length)).string (a ++ (s ++ 0 :: rest)) =
      kept (s.dropWhile (· = charZero)) := by
  have happ := List.takeWhile_append_dropWhile (p := fun c => decide (c = charZero)) (l := s)
  have hlen := congrArg List.length happ
  rw [List.length_append] at hlen
  have h0 : 0 ∉ s.dropWhile (· = charZero) := fun h =>
    zero_not_mem hs ((List.dropWhile_sublist _).subset h)
  rw [zerosEnd_spec a s hb]
  simp only [List.length_append]
  split
  · rename_i h
    rw [kept, if_pos (List.eq_nil_of_length_eq_zero (by omega))]
    rfl
  · rename_i h
    rw [kept, if_neg (fun hnil => h (by rw [hnil] at hlen; simp at hlen; omega))]
    have hmem : a ++ (s ++ 0 :: rest) =
        (a ++ s.takeWhile (· = charZero)) ++ (s.dropWhile (· = charZero) ++ 0 :: rest) := by
      rw [List.append_assoc, ← List.append_assoc (s.takeWhile _), happ]
    rw [Part.string, hmem, ← List.length_append, drop_append, takeWhile_terminated h0]

theorem exists_last {l : List UInt8} (hl : l ≠ []) (hlast : l.getLast? ≠ some charZero) :
    ∃ g c, l = g ++ [c] ∧ c ≠ charZero := by
  cases List.eq_nil_or_concat l with
  | inl h => exact absurd h hl
  | inr h =>
      obtain ⟨g, c, rfl⟩ := h
      rw [List.concat_eq_append] at hlast ⊢
      exact ⟨g, c, rfl, by simpa using hlast⟩

theorem kept_digits (h : DigitsOf 10 s) : DigitsOf 10 (kept s) := by
  rw [kept]
  split
  · simp [smallNumber, DigitsOf, digitValues]
  · exact h

theorem fraction_kept (s : List UInt8) : fraction (kept s) = fraction s := by
  rw [kept]
  split
  · rename_i h
    rw [h, fraction_nil, fraction_zero]
  · rfl

theorem denoted_kept (s : List UInt8) : denoted 10 (kept s) = denoted 10 s := by
  rw [kept]
  split
  · rename_i h
    rw [h]
    rfl
  · rfl

/-! ## Cutting and restoring -/

section

variable {w : Word} {a f t : List UInt8} {ep : UInt8} {expon : NatConst} {suff : Nat}

theorem floatParts_dot (a s f t : List UInt8) (ep : UInt8) :
    ∃ g k, f = g ++ List.replicate k charZero ∧
    floatParts (a ++ (s ++ charDot :: (f ++ ep :: t))) a.length (some (a ++ s).length)
      ((a ++ s).length + 1 + f.length) =
      (a ++ (s ++ 0 :: (g ++ (List.replicate k 0 ++ ep :: t))),
        (if zerosEnd (a ++ (s ++ charDot :: (f ++ ep :: t))) a.length = (a ++ s).length then
          Part.small 0
        else .text (zerosEnd (a ++ (s ++ charDot :: (f ++ ep :: t))) a.length)),
        (if g = [] then .small 0 else .text ((a ++ s).length + 1)), k) := by
  obtain ⟨g, k, rfl, hlast⟩ := exists_zeros f
  refine ⟨g, k, rfl, ?_⟩
  have hset : (a ++ (s ++ charDot :: (g ++ List.replicate k charZero ++ ep :: t))).set
      (a ++ s).length 0 = a ++ s ++ 0 :: g ++ (List.replicate k charZero ++ ep :: t) := by
    rw [← List.append_assoc, set_append]
    simp
  have hend : (a ++ s ++ 0 :: g).getLast? ≠ some charZero := by
    rw [List.getLast?_append]
    cases g with
    | nil => simpa using (by decide : (0 : UInt8) ≠ charZero)
    | cons c g =>
        rw [List.getLast?_cons_cons]
        cases hg : (c :: g).getLast? with
        | none => simp at hg
        | some x => rw [hg] at hlast; exact hlast
  obtain ⟨g', c, hg', hc⟩ := exists_last (by simp) hend
  have hback (x : List UInt8) : g' ++ c :: x = a ++ (s ++ 0 :: (g ++ x)) := by
    rw [← List.singleton_append, ← List.append_assoc, ← hg']
    simp
  have hlen := congrArg List.length hg'
  simp only [List.length_append, List.length_cons, List.length_nil] at hlen
  rw [floatParts]
  dsimp only
  rw [hset, hg', List.append_assoc, List.singleton_append]
  split
  · rename_i h
    simp only [List.length_append, List.length_replicate] at h
    obtain rfl : g = [] := List.eq_nil_of_length_eq_zero (by omega)
    obtain rfl : k = 0 := by omega
    rw [if_pos rfl, hback]
    rfl
  · rename_i h
    have hplace : (a ++ s).length + 1 + (g ++ List.replicate k charZero).length - 1 =
        g'.length + k := by
      simp only [List.length_append, List.length_replicate]
      omega
    rw [hplace, stripZeros_spec g' hc, hback, Nat.zero_add]
    have hdot : g'.length = (a ++ s).length ↔ g = [] := by
      rw [← List.length_eq_zero_iff, List.length_append]
      omega
    simp only [hdot]

theorem fracPart_string {a g : List UInt8} (hg : 0 ∉ g) (k : Nat) (t : List UInt8) :
    (if g = [] then Part.small 0 else .text ((a ++ s).length + 1)).string
      (a ++ (s ++ 0 :: (g ++ (List.replicate k 0 ++ 0 :: t)))) = kept g := by
  have hrep : List.replicate k (0 : UInt8) ++ 0 :: t = 0 :: (List.replicate k 0 ++ t) := by
    rw [← List.singleton_append, ← List.append_assoc, ← List.replicate_succ', List.replicate_succ,
      List.cons_append]
  have hmem : a ++ (s ++ 0 :: (g ++ (List.replicate k 0 ++ 0 :: t))) =
      (a ++ s ++ [0]) ++ (g ++ 0 :: (List.replicate k 0 ++ t)) := by
    rw [hrep]
    simp
  have hlen : (a ++ s).length + 1 = (a ++ s ++ [0]).length := by simp [Nat.add_assoc]
  rw [kept]
  split
  · rfl
  · rw [Part.string, hmem, hlen, drop_append, takeWhile_terminated hg]

/-- A literal with a point: what is kept of it denotes what it did, and the text is restored. -/
theorem makeFloatLit_dot (hs : DigitsOf 10 s) (hf : DigitsOf 10 f)
    (hexp : ∀ p : List UInt8, p.length = (a ++ s).length + 1 + f.length →
      floatExponent w (p ++ 0 :: t) p.length suff ep = (expon, decide (expon = .small 0))) :
    ∃ g, DigitsOf 10 g ∧ fraction g = fraction f ∧
      makeFloatLit w (a ++ (s ++ charDot :: (f ++ ep :: t))) a.length (some (a ++ s).length)
        ((a ++ s).length + 1 + f.length) suff =
        (⟨kept (s.dropWhile (· = charZero)), g, expon⟩, a ++ (s ++ charDot :: (f ++ ep :: t))) := by
  obtain ⟨g, k, rfl, hparts⟩ := floatParts_dot a s f t ep
  have hg : DigitsOf 10 g := fun c hc => hf c (List.mem_append_left _ hc)
  refine ⟨kept g, kept_digits hg, by rw [fraction_kept, fraction_zeros], ?_⟩
  have hplace : (a ++ s).length + 1 + (g ++ List.replicate k charZero).length =
      (a ++ (s ++ 0 :: (g ++ List.replicate k 0))).length := by
    simp
    omega
  have hcut (c : UInt8) : a ++ (s ++ 0 :: (g ++ (List.replicate k 0 ++ c :: t))) =
      (a ++ (s ++ 0 :: (g ++ List.replicate k 0))) ++ c :: t := by simp
  rw [hplace] at hexp hparts ⊢
  rw [makeFloatLit, hparts]
  dsimp only
  rw [hcut, charAt_append, set_append, hexp _ rfl, ← hcut]
  have hint := intPart_string (a := a) hs
    (b := charDot :: (g ++ List.replicate k charZero ++ ep :: t))
    (by simpa using (by decide : charDot ≠ charZero)) (g ++ (List.replicate k 0 ++ 0 :: t))
  have hzeros : restoreZeros k ((a ++ (s ++ 0 :: (g ++ List.replicate k 0))).length - 1)
      (a ++ (s ++ 0 :: (g ++ (List.replicate k 0 ++ 0 :: t)))) =
      (a ++ s) ++ 0 :: (g ++ (List.replicate k charZero ++ 0 :: t)) := by
    have h := restoreZeros_all (l := a ++ (s ++ 0 :: g)) (by simp) k (0 :: t)
    have hlen : (a ++ (s ++ 0 :: g)).length + k - 1 =
        (a ++ (s ++ 0 :: (g ++ List.replicate k 0))).length - 1 := by
      simp
      omega
    rw [← hlen]
    simpa using h
  have hrestored : (a ++ s) ++ charDot :: (g ++ (List.replicate k charZero ++ 0 :: t)) =
      (a ++ s ++ charDot :: (g ++ List.replicate k charZero)) ++ 0 :: t := by simp
  have hlast : (a ++ (s ++ 0 :: (g ++ List.replicate k 0))).length =
      (a ++ s ++ charDot :: (g ++ List.replicate k charZero)).length := by simp
  rw [hint, fracPart_string (zero_not_mem hg), shared_eq, hzeros, set_append, hrestored, hlast,
    set_append]
  simp

/-- A literal without a point. -/
theorem makeFloatLit_exp (hs : DigitsOf 10 s) (hep : ep ≠ charZero)
    (hexp : ∀ p : List UInt8, p.length = (a ++ s).length →
      floatExponent w (p ++ 0 :: t) p.length suff ep = (expon, decide (expon = .small 0))) :
    makeFloatLit w (a ++ (s ++ ep :: t)) a.length none (a ++ s).length suff =
      (⟨kept (s.dropWhile (· = charZero)), smallNumber 0, expon⟩, a ++ (s ++ ep :: t)) := by
  have hint := intPart_string (a := a) hs (b := ep :: t) (by simpa using hep) t
  have hcut (c : UInt8) : a ++ (s ++ c :: t) = (a ++ s) ++ c :: t := (List.append_assoc ..).symm
  rw [makeFloatLit, floatParts]
  dsimp only
  rw [hcut ep, charAt_append, set_append, hexp _ rfl, ← hcut, ← hcut, hint, Part.string, shared_eq,
    restoreZeros, hcut, set_append, ← hcut]

/-! ## Exponents -/

/-- The exponent in the text: the letter, the sign and the digits. -/
structure ExpText where
  letter : UInt8
  sign : Option UInt8
  digits : List UInt8

namespace ExpText

def text (e : ExpText) : List UInt8 := e.letter :: (e.sign.toList ++ e.digits)

structure WellFormed (e : ExpText) : Prop where
  letter : isExp e.letter
  sign : ∀ c ∈ e.sign, isSign c
  digits : DigitsOf 10 e.digits
  ne_nil : e.digits ≠ []

/-- The number that the exponent denotes. -/
def value (e : ExpText) : Int :=
  if e.sign = some charMinus then -(denoted 10 e.digits : Int) else denoted 10 e.digits

end ExpText

theorem digit_iff : digitValues c < 10 ↔ 48 ≤ c.toNat ∧ c.toNat ≤ 57 := by
  have hnone : noneChar.toNat = 255 := rfl
  rw [digitValues]
  split_ifs <;> omega

/-- A digit is not a sign. -/
theorem isSign_digit (h : digitValues c < 10) : isSign c = false := by
  rw [digit_iff] at h
  rw [isSign, Bool.or_eq_false_iff, decide_eq_false_iff_not, decide_eq_false_iff_not]
  refine ⟨fun hc => ?_, fun hc => ?_⟩
  · rw [hc, show charPlus.toNat = 43 from rfl] at h
    omega
  · rw [hc, show charMinus.toNat = 45 from rfl] at h
    omega

theorem slice (p : List UInt8) (d b : List UInt8) :
    ((p ++ (d ++ b)).drop p.length).take d.length = d := by
  rw [drop_append, List.take_left]

/-- The constant that is made of the exponent. -/
def ExpText.constant (w : Word) (e : ExpText) : NatConst :=
  if e.sign = some charMinus then negateNat (evalDigits w 10 e.digits)
  else evalDigits w 10 e.digits

theorem constant_means (he : e.WellFormed) (w : Word) : (e.constant w).Means e.value := by
  have heval := evalDigits_spec w (b := 10) (by decide) he.digits
  rw [ExpText.constant, ExpText.value]
  split
  · have h := negateNat_spec heval.means.1
    rwa [heval.means.2] at h
  · exact heval.means

theorem floatExponent_spec (he : e.WellFormed) (w : Word) (p b : List UInt8) (c : UInt8) :
    floatExponent w (p ++ c :: (e.sign.toList ++ e.digits ++ b)) p.length
      (p.length + e.text.length) e.letter =
      (e.constant w, decide (e.constant w = .small 0)) := by
  have hsize (x : List UInt8) : (p ++ x).length = p.length + x.length := List.length_append
  obtain ⟨d, ds, hd⟩ := List.exists_cons_of_ne_nil he.ne_nil
  have hdigit : digitValues d < 10 := he.digits d (by rw [hd]; exact List.mem_cons_self)
  cases hs : e.sign with
  | none =>
      have hchar : charAt (p ++ c :: (e.digits ++ b)) (p.length + 1) = d := by
        rw [hd]
        exact charAt_next p c d (ds ++ b)
      have hslice : ((p ++ c :: (e.digits ++ b)).drop (p.length + 1)).take e.digits.length =
          e.digits := by
        have h := slice (p ++ [c]) e.digits b
        rw [List.append_assoc, List.singleton_append, hsize] at h
        exact h
      have hlen : p.length + e.text.length - (p.length + 1) = e.digits.length := by
        simp [ExpText.text, hs]
        omega
      have hminus : d ≠ charMinus := fun h => by
        have hsign := isSign_digit hdigit
        rw [h] at hsign
        cases hsign
      rw [floatExponent, if_pos he.letter, Option.toList_none, List.nil_append]
      dsimp only
      rw [hchar, isSign_digit hdigit, if_neg hminus, if_neg Bool.false_ne_true, hlen, hslice,
        ExpText.constant, hs, if_neg (fun h => by cases h)]
  | some s =>
      have hsign := he.sign s (by rw [hs]; rfl)
      have hchar : charAt (p ++ c :: (s :: e.digits ++ b)) (p.length + 1) = s :=
        charAt_next p c s (e.digits ++ b)
      have hslice : ((p ++ c :: s :: (e.digits ++ b)).drop (p.length + 1 + 1)).take
          e.digits.length = e.digits := by
        have h := slice (p ++ [c, s]) e.digits b
        rw [List.append_assoc, List.cons_append, List.singleton_append, hsize] at h
        exact h
      have hlen : p.length + e.text.length - (p.length + 1 + 1) = e.digits.length := by
        simp [ExpText.text, hs]
        omega
      rw [floatExponent, if_pos he.letter, Option.toList_some, List.singleton_append]
      dsimp only
      rw [hchar, if_pos hsign, hlen, List.cons_append, hslice, ExpText.constant, hs]
      simp only [Option.some.injEq]

end

/-! ## Floating literals in a text -/

/-- A floating literal: the digits, a point and digits, an exponent and a suffix. -/
structure FloatText where
  int : List UInt8
  frac : Option (List UInt8)
  exp : Option ExpText
  suffix : Option UInt8

namespace FloatText

/-- The point and the digits behind it. -/
def pointText (x : FloatText) : List UInt8 := x.frac.elim [] (charDot :: ·)

def expText (x : FloatText) : List UInt8 := x.exp.elim [] ExpText.text

def text (x : FloatText) : List UInt8 :=
  x.int ++ (x.pointText ++ (x.expText ++ x.suffix.toList))

/-- There are digits, and without a point there is an exponent. -/
structure WellFormed (x : FloatText) : Prop where
  int : DigitsOf 10 x.int
  frac : ∀ f ∈ x.frac, DigitsOf 10 f ∧ (x.int ≠ [] ∨ f ≠ [])
  exp : ∀ e ∈ x.exp, e.WellFormed
  suffix : ∀ c ∈ x.suffix, isF c ∨ isL c
  noPoint : x.frac = none → x.int ≠ [] ∧ x.exp ≠ none

/-- The number that the text denotes. -/
def value (x : FloatText) : ℚ :=
  denoted 10 (x.int ++ x.frac.getD []) *
    10 ^ ((x.exp.elim 0 ExpText.value) - ((x.frac.getD []).length : Int))

/-- The type that the suffix asks for. -/
def type (x : FloatText) : FloatType :=
  match x.suffix with
  | none => .double
  | some c => if isF c then .float else .ldouble

/-- What stands behind the digits. -/
def rest (x : FloatText) (post : List UInt8) : List UInt8 :=
  x.expText ++ (x.suffix.toList ++ 0 :: post)

theorem text_append (x : FloatText) (post : List UInt8) :
    x.text ++ 0 :: post = x.int ++ (x.pointText ++ x.rest post) := by
  simp [text, rest]

/-- The character behind the digits. -/
structure Ends (x : FloatText) (c : UInt8) : Prop where
  stops : c = 0 ∨ 10 ≤ digitValues c
  not_dot : c ≠ charDot
  not_zero : c ≠ charZero
  not_x : isX c = false
  isExp : isExp c = x.exp.isSome
  ne_zero : x.exp.isSome → c ≠ 0

variable {x : FloatText}

theorem ends_exp (hexp : x.exp.isSome = true) (hc : isExp c) : x.Ends c := by
  rw [Literal.isExp, Bool.or_eq_true, decide_eq_true_eq, decide_eq_true_eq] at hc
  cases hc with
  | inl hc =>
      exact hc ▸ ⟨.inr (by decide), by decide, by decide, rfl, hexp.symm, fun _ => by decide⟩
  | inr hc =>
      exact hc ▸ ⟨.inr (by decide), by decide, by decide, rfl, hexp.symm, fun _ => by decide⟩

/-- What a floating suffix is not. -/
theorem suffix_letter (hc : isF c ∨ isL c) :
    10 ≤ digitValues c ∧ c ≠ charDot ∧ c ≠ charZero ∧ isX c = false ∧
      Literal.isExp c = false := by
  rw [isF, isL, Bool.or_eq_true, Bool.or_eq_true, decide_eq_true_eq, decide_eq_true_eq,
    decide_eq_true_eq, decide_eq_true_eq] at hc
  rcases hc with (rfl | rfl) | (rfl | rfl)
  · decide
  · decide
  · decide
  · decide

theorem ends_suffix (hexp : x.exp.isSome = false) (hc : isF c ∨ isL c) : x.Ends c := by
  have hnone : x.exp.isSome → c ≠ 0 := fun h => by rw [hexp] at h; cases h
  obtain ⟨hstops, hdot, hzero, hX, hE⟩ := suffix_letter hc
  exact ⟨.inr hstops, hdot, hzero, hX, hE.trans hexp.symm, hnone⟩

theorem WellFormed.rest (hx : x.WellFormed) (post : List UInt8) :
    ∃ c t, x.rest post = c :: t ∧ x.Ends c := by
  cases hexp : x.exp with
  | some e =>
      refine ⟨e.letter, _, by simp [FloatText.rest, expText, hexp, ExpText.text]; rfl, ?_⟩
      exact ends_exp (by rw [hexp]; rfl) (hx.exp e hexp).letter
  | none =>
      have hnone : x.exp.isSome = false := by rw [hexp]; rfl
      cases hsuffix : x.suffix with
      | none =>
          refine ⟨0, post, by simp [FloatText.rest, expText, hexp, hsuffix], ?_⟩
          exact ⟨.inl rfl, by decide, by decide, rfl, hnone.symm,
            fun h => by rw [hnone] at h; cases h⟩
      | some c =>
          refine ⟨c, 0 :: post, by simp [FloatText.rest, expText, hexp, hsuffix], ?_⟩
          exact ends_suffix hnone (hx.suffix c hsuffix)

end FloatText

/-! ## The scan -/

section

variable {x : FloatText} {t : List UInt8}

theorem isSign_of_digit_or_dot (h : digitValues c < 10 ∨ c = charDot) : isSign c = false := by
  cases h with
  | inl h => exact isSign_digit h
  | inr h => rw [h]; rfl

theorem digit_ne_dot (h : digitValues c < 10) : c ≠ charDot := fun hc => by
  rw [hc] at h
  exact absurd h (by decide)

theorem stops_cons (h : c = 0 ∨ 10 ≤ digitValues c) : Stops 10 (c :: t) := fun d hd => by
  obtain rfl : c = d := by simpa using hd
  exact h

theorem stops_dot (t : List UInt8) : Stops 10 (charDot :: t) := stops_cons (.inr (by decide))

theorem scanDigitsDot_spec (hx : x.WellFormed) (pre post : List UInt8) :
    scanDigitsDot (pre ++ (x.int ++ (x.pointText ++ x.rest post))) pre.length =
      (x.frac.map fun _ => (pre ++ x.int).length, (pre ++ x.int).length + x.pointText.length,
        false, x.frac.isSome) := by
  obtain ⟨c, t, hrest, hc⟩ := hx.rest post
  rw [hrest]
  cases hfrac : x.frac with
  | none =>
      obtain ⟨hne, -⟩ := hx.noPoint hfrac
      have hpoint : x.pointText = [] := by rw [FloatText.pointText, hfrac]; rfl
      have hend := digitsEnd_append pre hx.int (zero_not_mem hx.int) (stops_cons (t := t) hc.stops)
      obtain ⟨d, ds, hd⟩ := List.exists_cons_of_ne_nil hne
      have hdigit : digitValues d < 10 := hx.int d (by rw [hd]; exact List.mem_cons_self)
      have hchar : charAt (pre ++ (x.int ++ c :: t)) pre.length = d := by
        rw [hd]
        exact charAt_append pre d _
      have hchar2 : charAt (pre ++ (x.int ++ c :: t)) (pre ++ x.int).length = c := by
        rw [← List.append_assoc, charAt_append]
      rw [hpoint, List.nil_append, scanDigitsDot]
      dsimp only
      rw [hend, hchar, hchar2, if_neg (digit_ne_dot hdigit), if_neg hc.not_dot]
      simp [hne]
  | some f =>
      obtain ⟨hf, hne⟩ := hx.frac f hfrac
      have hpoint : x.pointText = charDot :: f := by rw [FloatText.pointText, hfrac]; rfl
      have hfend (p : List UInt8) : digitsEnd (p ++ charDot :: (f ++ c :: t)) 10 (p.length + 1) =
          p.length + 1 + f.length := by
        have h := digitsEnd_append (p ++ [charDot]) hf (zero_not_mem hf)
          (stops_cons (t := t) hc.stops)
        rw [List.append_assoc, List.singleton_append, List.length_append, List.length_append] at h
        simpa using h
      have hlen : (charDot :: f).length = 1 + f.length := by simp [Nat.add_comm]
      rw [hpoint, List.cons_append, scanDigitsDot, hlen]
      dsimp only
      cases hint : x.int with
      | nil =>
          have hfne : f ≠ [] := hne.resolve_left (fun h => h hint)
          rw [List.nil_append, charAt_append, if_pos rfl, hfend]
          simp [hfne, Nat.add_assoc]
      | cons d ds =>
          have hds := hint ▸ hx.int
          have hdigit : digitValues d < 10 := (digitsOf_cons.1 hds).1
          have hchar : charAt (pre ++ (d :: ds ++ charDot :: (f ++ c :: t))) pre.length = d :=
            charAt_append pre d _
          have hend := digitsEnd_append pre hds (zero_not_mem hds) (stops_dot (f ++ c :: t))
          rw [hchar, if_neg (digit_ne_dot hdigit), hend, ← List.append_assoc, charAt_append,
            if_pos rfl, hfend]
          simp
          omega

/-- The end of digits behind so many characters. -/
theorem digitsEnd_spec {p q d : List UInt8} (hd : DigitsOf 10 d) (hb : Stops 10 b) :
    digitsEnd (p ++ (q ++ (d ++ b))) 10 (p.length + q.length) = p.length + (q ++ d).length := by
  have h := digitsEnd_append (p ++ q) hd (zero_not_mem hd) hb
  rw [List.append_assoc, List.length_append] at h
  rw [h]
  simp

theorem scanExponent_spec (he : e.WellFormed) (p : List UInt8) (hb : Stops 10 b) :
    scanExponent (p ++ (e.text ++ b)) p.length = (p.length + e.text.length, false) := by
  obtain ⟨d, ds, hd⟩ := List.exists_cons_of_ne_nil he.ne_nil
  have hdigit : digitValues d < 10 := he.digits d (by rw [hd]; exact List.mem_cons_self)
  have hpos := List.length_pos_iff.2 he.ne_nil
  cases hs : e.sign with
  | none =>
      have htext : e.text = [e.letter] ++ e.digits := by simp [ExpText.text, hs]
      have hchar : charAt (p ++ ([e.letter] ++ (e.digits ++ b))) (p.length + 1) = d := by
        rw [hd]
        exact charAt_next p _ d _
      have hend := digitsEnd_spec (p := p) (q := [e.letter]) he.digits hb
      rw [List.length_singleton] at hend
      rw [htext, List.append_assoc, scanExponent, hchar, isSign_digit hdigit,
        if_neg Bool.false_ne_true, hend]
      simp [he.ne_nil]
  | some s =>
      have hsign := he.sign s (by rw [hs]; rfl)
      have htext : e.text = [e.letter, s] ++ e.digits := by simp [ExpText.text, hs]
      have hchar : charAt (p ++ ([e.letter, s] ++ (e.digits ++ b))) (p.length + 1) = s :=
        charAt_next p _ s _
      have hend := digitsEnd_spec (p := p) (q := [e.letter, s]) he.digits hb
      rw [htext, List.append_assoc, scanExponent, hchar, if_pos hsign,
        show p.length + 1 + 1 = p.length + [e.letter, s].length from rfl, hend]
      simp [he.ne_nil]

theorem isX_digit (h : digitValues c < 10) : isX c = false := by
  rw [digit_iff] at h
  rw [isX, Bool.or_eq_false_iff, decide_eq_false_iff_not, decide_eq_false_iff_not]
  refine ⟨fun hc => ?_, fun hc => ?_⟩
  · rw [hc, show (120 : UInt8).toNat = 120 from rfl] at h
    omega
  · rw [hc, show (88 : UInt8).toNat = 88 from rfl] at h
    omega

theorem digit_ne_zero (h : digitValues c < 10) : c ≠ 0 := fun hc => by
  rw [hc] at h
  exact absurd h (by decide)

/-- How a literal begins: with a point, or with a digit and a character that neither ends the
text nor makes it a hexadecimal one. -/
theorem text_starts (hx : x.WellFormed) (post : List UInt8) :
    ∃ c t, x.int ++ (x.pointText ++ x.rest post) = c :: t ∧
      (c = charDot ∨ digitValues c < 10 ∧ ∃ d ds, t = d :: ds ∧ d ≠ 0 ∧ isX d = false) := by
  obtain ⟨c, t, hrest, hc⟩ := hx.rest post
  cases hfrac : x.frac with
  | none =>
      obtain ⟨hne, hexp⟩ := hx.noPoint hfrac
      have hpoint : x.pointText = [] := by rw [FloatText.pointText, hfrac]; rfl
      rw [hpoint, List.nil_append, hrest]
      cases hint : x.int with
      | nil => exact absurd hint hne
      | cons d ds =>
          obtain ⟨hd, hds⟩ := digitsOf_cons.1 (hint ▸ hx.int)
          refine ⟨d, _, rfl, .inr ⟨hd, ?_⟩⟩
          cases ds with
          | nil => exact ⟨c, t, rfl, hc.ne_zero (Option.isSome_iff_ne_none.2 hexp), hc.not_x⟩
          | cons d' ds =>
              have hd' := (digitsOf_cons.1 hds).1
              exact ⟨d', _, rfl, digit_ne_zero hd', isX_digit hd'⟩
  | some f =>
      have hpoint : x.pointText = charDot :: f := by rw [FloatText.pointText, hfrac]; rfl
      rw [hpoint]
      cases hint : x.int with
      | nil => exact ⟨charDot, _, rfl, .inl rfl⟩
      | cons d ds =>
          obtain ⟨hd, hds⟩ := digitsOf_cons.1 (hint ▸ hx.int)
          refine ⟨d, _, rfl, .inr ⟨hd, ?_⟩⟩
          cases ds with
          | nil => exact ⟨charDot, _, rfl, by decide, rfl⟩
          | cons d' ds =>
              have hd' := (digitsOf_cons.1 hds).1
              exact ⟨d', _, rfl, digit_ne_zero hd', isX_digit hd'⟩

theorem stops_suffix (hx : x.WellFormed) (post : List UInt8) :
    Stops 10 (x.suffix.toList ++ 0 :: post) := by
  cases hs : x.suffix with
  | none => exact stops_cons (.inl rfl)
  | some c => exact stops_cons (.inr (FloatText.suffix_letter (hx.suffix c hs)).1)

theorem scanLiteral_spec (hx : x.WellFormed) (pre post : List UInt8) :
    scanLiteral (pre ++ (x.int ++ (x.pointText ++ x.rest post))) pre.length =
      ⟨.decimal, 10, true, false, x.frac.map fun _ => (pre ++ x.int).length,
        (pre ++ x.int).length + x.pointText.length,
        (pre ++ x.int).length + x.pointText.length + x.expText.length, false⟩ := by
  have hdots := scanDigitsDot_spec hx pre post
  obtain ⟨c, t, hrest, hc⟩ := hx.rest post
  obtain ⟨c1, t1, htext, hstart⟩ := text_starts hx post
  have hhex : ¬(charAt (pre ++ c1 :: t1) pre.length = charZero ∧
      isX (charAt (pre ++ c1 :: t1) (pre.length + 1)) = true) := by
    rw [charAt_append]
    rintro ⟨hz, hX⟩
    cases hstart with
    | inl h => rw [hz] at h; exact absurd h (by decide)
    | inr h =>
        obtain ⟨-, d, ds, rfl, -, hd⟩ := h
        rw [charAt_next, hd] at hX
        cases hX
  have hlen : (pre ++ x.int).length + x.pointText.length = (pre ++ x.int ++ x.pointText).length :=
    List.length_append.symm
  have hmem : pre ++ (x.int ++ (x.pointText ++ x.rest post)) =
      (pre ++ x.int ++ x.pointText) ++ x.rest post := by simp
  have hchar : charAt (pre ++ (x.int ++ (x.pointText ++ x.rest post)))
      ((pre ++ x.int).length + x.pointText.length) = c := by
    rw [hlen, hmem, hrest, charAt_append]
  rw [← htext] at hhex
  rw [scanLiteral, if_neg hhex, hdots]
  dsimp only
  rw [hchar, hc.isExp]
  cases hexp : x.exp with
  | some e =>
      have hexpText : x.expText = e.text := by rw [FloatText.expText, hexp]; rfl
      have hscan := scanExponent_spec (hx.exp e hexp) (pre ++ x.int ++ x.pointText)
        (stops_suffix hx post)
      rw [← hlen, ← hexpText, ← FloatText.rest, ← hmem] at hscan
      rw [hscan]
      simp
  | none =>
      have hexpText : x.expText = [] := by rw [FloatText.expText, hexp]; rfl
      have hsome : x.frac.isSome = true := by
        cases hfrac : x.frac with
        | none => exact absurd hexp (hx.noPoint hfrac).2
        | some f => rfl
      rw [hexpText, hsome]
      simp

/-- The exponent is evaluated exactly, where the character before it has been replaced. -/
theorem exponent_spec (hx : x.WellFormed) (w : Word) {post : List UInt8}
    (hrest : x.rest post = c :: t) (hc : x.Ends c) :
    ∃ expon : NatConst, expon.Means (x.exp.elim 0 ExpText.value) ∧
      ∀ p : List UInt8, floatExponent w (p ++ 0 :: t) p.length (p.length + x.expText.length) c =
        (expon, decide (expon = .small 0)) := by
  have hisExp := hc.isExp
  cases hexp : x.exp with
  | some e =>
      have he := hx.exp e hexp
      have hexpText : x.expText = e.text := by rw [FloatText.expText, hexp]; rfl
      rw [FloatText.rest, hexpText, ExpText.text, List.cons_append, List.cons.injEq] at hrest
      obtain ⟨rfl, rfl⟩ := hrest
      rw [hexpText]
      exact ⟨e.constant w, constant_means he w, fun p => floatExponent_spec he w p _ 0⟩
  | none =>
      rw [hexp] at hisExp
      refine ⟨.small 0, ⟨by decide, rfl⟩, fun p => ?_⟩
      rw [floatExponent, hisExp]
      rfl

theorem value_parts (x : FloatText) :
    x.value = (denoted 10 x.int + fraction (x.frac.getD [])) * 10 ^ x.exp.elim 0 ExpText.value := by
  have happ : denoted 10 (x.int ++ x.frac.getD []) =
      denoted 10 x.int * 10 ^ (x.frac.getD []).length + denoted 10 (x.frac.getD []) := by
    simp [denoted, Digits.val_append]
  rw [FloatText.value, happ, fraction, zpow_sub₀ (by norm_num), zpow_neg, zpow_natCast]
  push_cast
  field_simp

theorem makeFloatLit_spec (hx : x.WellFormed) (w : Word) (pre post : List UInt8) :
    ∃ lit : FloatLit, lit.Simple ∧ lit.value = x.value ∧
      makeFloatLit w (pre ++ (x.int ++ (x.pointText ++ x.rest post))) pre.length
        (x.frac.map fun _ => (pre ++ x.int).length) ((pre ++ x.int).length + x.pointText.length)
        ((pre ++ x.int).length + x.pointText.length + x.expText.length) =
        (lit, pre ++ (x.int ++ (x.pointText ++ x.rest post))) := by
  obtain ⟨c, t, hrest, hc⟩ := hx.rest post
  obtain ⟨expon, hmeans, hexp⟩ := exponent_spec hx w hrest hc
  have hkept : DigitsOf 10 (kept (x.int.dropWhile (· = charZero))) :=
    kept_digits fun d hd => hx.int d ((List.dropWhile_sublist _).subset hd)
  have hlit (g : List UInt8) (hg : DigitsOf 10 g) (hfrac : fraction g = fraction (x.frac.getD [])) :
      FloatLit.Simple ⟨kept (x.int.dropWhile (· = charZero)), g, expon⟩ ∧
      FloatLit.value ⟨kept (x.int.dropWhile (· = charZero)), g, expon⟩ = x.value := by
    refine ⟨⟨hkept, hg, hmeans.1⟩, ?_⟩
    rw [value_eq_parts, value_parts, denoted_kept, denoted_dropWhile, hfrac, hmeans.2]
  rw [hrest]
  cases hfrac : x.frac with
  | none =>
      have hpoint : x.pointText = [] := by rw [FloatText.pointText, hfrac]; rfl
      obtain ⟨h1, h2⟩ := hlit (smallNumber 0) (by simp [smallNumber, DigitsOf, digitValues])
        (by rw [hfrac, fraction_zero]; exact fraction_nil.symm)
      refine ⟨_, h1, h2, ?_⟩
      rw [hpoint, List.nil_append, List.length_nil, Nat.add_zero]
      exact makeFloatLit_exp hx.int hc.not_zero fun p hp => hp ▸ hexp p
  | some f =>
      obtain ⟨hf, -⟩ := hx.frac f hfrac
      have hpoint : x.pointText = charDot :: f := by rw [FloatText.pointText, hfrac]; rfl
      have hlen : (pre ++ x.int).length + (charDot :: f).length =
          (pre ++ x.int).length + 1 + f.length := by
        simp
        omega
      have hexp' (p : List UInt8) (hp : p.length = (pre ++ x.int).length + 1 + f.length) :
          floatExponent w (p ++ 0 :: t) p.length
            ((pre ++ x.int).length + 1 + f.length + x.expText.length) c =
            (expon, decide (expon = .small 0)) := by
        rw [← hp]
        exact hexp p
      obtain ⟨g, hg, hgf, hmake⟩ := makeFloatLit_dot hx.int hf hexp'
      obtain ⟨h1, h2⟩ := hlit g hg (by rw [hfrac]; exact hgf)
      refine ⟨_, h1, h2, ?_⟩
      rw [hpoint, List.cons_append, hlen]
      exact hmake

/-! ## The literal -/

variable {T I : Type}

theorem makeFloating_spec (hx : x.WellFormed) (w : Word) (pre post : List UInt8) :
    ∃ lit : FloatLit, lit.Simple ∧ lit.value = x.value ∧
      makeFloating (T := T) (I := I) w (pre ++ (x.int ++ (x.pointText ++ x.rest post))) pre.length
        (scanLiteral (pre ++ (x.int ++ (x.pointText ++ x.rest post))) pre.length) =
        ⟨.float x.type lit, .floating, pre ++ (x.int ++ (x.pointText ++ x.rest post)), []⟩ := by
  obtain ⟨lit, hsimple, hvalue, hmake⟩ := makeFloatLit_spec hx w pre post
  refine ⟨lit, hsimple, hvalue, ?_⟩
  rw [scanLiteral_spec hx, makeFloating]
  dsimp only
  rw [hmake]
  have hmem : pre ++ (x.int ++ (x.pointText ++ x.rest post)) =
      (pre ++ x.int ++ x.pointText ++ x.expText) ++ (x.suffix.toList ++ 0 :: post) := by
    simp [FloatText.rest]
  have hlen : (pre ++ x.int).length + x.pointText.length + x.expText.length =
      (pre ++ x.int ++ x.pointText ++ x.expText).length := by simp [Nat.add_assoc]
  rw [hlen, hmem]
  cases hs : x.suffix with
  | none =>
      rw [Option.toList_none, List.nil_append, charAt_append,
        if_neg (by decide : ¬isF 0 = true), if_neg (by decide : ¬isL 0 = true)]
      dsimp only
      rw [charAt_append]
      simp [FloatText.type, hs]
  | some c =>
      have hc := hx.suffix c hs
      rw [Option.toList_some, List.singleton_append, charAt_append]
      by_cases hF : isF c = true
      · rw [if_pos hF]
        dsimp only
        rw [charAt_next]
        simp [FloatText.type, hs, hF]
      · rw [if_neg hF, if_pos (hc.resolve_left hF)]
        dsimp only
        rw [charAt_next]
        simp [FloatText.type, hs, hF]

/-- A floating literal is recorded exactly, and its text is left as it was. -/
theorem makeLiteralExp_float [DecidableEq T] (w : Word) (ty : Tables T I) (mode : Mode T I)
    {x : FloatText} (hx : x.WellFormed) (pre post : List UInt8) :
    ∃ lit : FloatLit, lit.Simple ∧ lit.value = x.value ∧
      makeLiteralExp w ty mode (pre ++ (x.text ++ 0 :: post)) (x.text ++ 0 :: post) pre.length =
        ⟨.float x.type lit, .floating, pre ++ (x.text ++ 0 :: post), []⟩ := by
  obtain ⟨lit, hsimple, hvalue, hmake⟩ := makeFloating_spec (T := T) (I := I) hx w pre post
  obtain ⟨c, t, htext, hstart⟩ := text_starts hx post
  have hflt : (scanLiteral (pre ++ (x.int ++ (x.pointText ++ x.rest post))) pre.length).flt =
      true := by
    rw [scanLiteral_spec hx]
  have hsign : isSign c = false := isSign_of_digit_or_dot (hstart.symm.imp_left And.left)
  have hlong : ¬((if c ≠ 0 then charAt (pre ++ c :: t) (pre.length + 1) else 0) = 0 ∧
      48 ≤ c ∧ c ≤ 57) := by
    rintro ⟨hnext, hc⟩
    cases hstart with
    | inl hdot => rw [hdot] at hc; exact absurd hc (by decide)
    | inr h =>
        obtain ⟨hdigit, d, ds, rfl, hd, -⟩ := h
        rw [if_pos (digit_ne_zero hdigit), charAt_next] at hnext
        exact hd hnext
  refine ⟨lit, hsimple, hvalue, ?_⟩
  rw [FloatText.text_append]
  rw [htext] at hflt hmake ⊢
  rw [makeLiteralExp, hsign, if_neg Bool.false_ne_true, makeUnsigned]
  dsimp only
  rw [charAt_append, if_neg hlong, if_pos hflt]
  exact hmake

end

/-- The text `00.0100e-2f`. -/
def zeros : FloatText := ⟨[48, 48], some [48, 49, 48, 48], some ⟨101, some 45, [50]⟩, some 102⟩

theorem zeros_wellFormed : zeros.WellFormed where
  int := by simp [zeros, DigitsOf, digitValues]
  frac := by simp [zeros, DigitsOf, digitValues]
  exp := by
    intro e he
    obtain rfl := Option.some.inj he
    exact ⟨rfl, by simp [isSign], by simp [DigitsOf, digitValues], by simp⟩
  suffix := by simp [zeros, isF]
  noPoint := by simp [zeros]

theorem makeLiteralExp_float_zeros :
    zeros.value = 1 / 10000 ∧
      ∃ lit : FloatLit, lit.Simple ∧ lit.value = zeros.value ∧
        makeLiteralExp .bits64 basicTables ⟨false, false, false, fun _ _ => []⟩
          [48, 48, 46, 48, 49, 48, 48, 101, 45, 50, 102, 0]
          [48, 48, 46, 48, 49, 48, 48, 101, 45, 50, 102, 0] 0 =
          ⟨.float .float lit, .floating,
            [48, 48, 46, 48, 49, 48, 48, 101, 45, 50, 102, 0], []⟩ := by
  have hvalue : zeros.value = 1 / 10000 := by
    simp [zeros, FloatText.value, ExpText.value, denoted, Digits.val, digitValues]
    norm_num
  exact ⟨hvalue, makeLiteralExp_float .bits64 basicTables _ zeros_wellFormed [] []⟩

end Tendra.Ref.Tdfc.Literal
