import Mathlib.Data.Nat.Bitwise
import Mathlib.Data.Nat.Size
import Tendra.Lib.NonRestoring
import Tendra.Proofs.FltExact

/-!
# The quotient loop of `flt_div`

The loop works on 144-bit numbers held as nine digits. Its state after `j` turns
is that of non-restoring division after `j` steps: the remainder modulo
`2 ^ 144` with its sign in `sg`, the divisor without its last `j` bits, and the
bits of the quotient so far, from bit 128 of `r` downwards. There is room for
129 of them; a bit that is set after that is stored outside the array.
-/

namespace Tendra.Ref

open Tendra.Digits Tendra.NonRestoring

variable {n j t : Nat} {ds : List Nat} {s : DivSt} {f1 f2 : Flt}

/-! ## Shifts -/

theorem shiftDown_length (n c : Nat) (ds : List Nat) : (shiftDown n c ds).length = ds.length := by
  induction ds generalizing c with
  | nil => rfl
  | cons d ds ih => simp [shiftDown, ih]

theorem shiftDown_bounded (n c : Nat) (ds : List Nat) : Bounded fbase (shiftDown n c ds) := by
  induction ds generalizing c with
  | nil => exact bounded_nil
  | cons d ds ih => exact bounded_cons.2 ⟨Nat.mod_lt _ (by decide), ih _⟩

theorem word_bits {w : Nat} (h : w % 2 ^ (n + 16) = t) :
    w / 2 ^ n % 65536 = t / 2 ^ n ∧ w % 2 ^ (n + 1) % 2 ^ n = t % 2 ^ n := by
  constructor
  · rw [← h, pow_add, Nat.mod_mul_right_div_self, show (65536 : Nat) = 2 ^ 16 from rfl]
  · rw [Nat.mod_mod_of_dvd _ (pow_dvd_pow 2 (by omega)), ← h,
      Nat.mod_mod_of_dvd _ (pow_dvd_pow 2 (by omega))]

/-- The word that holds a digit behind the carry, cut to the bits that matter. -/
theorem carry_word {c d : Nat} (hn : n ≤ 16) (hd : d < 65536) :
    (d + c * 65536) % 2 ^ 32 / 2 ^ n % 65536 = (d + c % 2 ^ n * 65536) / 2 ^ n ∧
      (d + c * 65536) % 2 ^ 32 % 2 ^ (n + 1) % 2 ^ n = (d + c % 2 ^ n * 65536) % 2 ^ n := by
  have hpos : 0 < 2 ^ n := Nat.two_pow_pos n
  have hlow : (d + c * 65536) % 2 ^ 32 % 2 ^ (n + 16) = d + c % 2 ^ n * 65536 := by
    rw [Nat.mod_mod_of_dvd _ (pow_dvd_pow 2 (by omega))]
    have hsplit : d + c * 65536 = d + c % 2 ^ n * 65536 + 2 ^ (n + 16) * (c / 2 ^ n) := by
      have := Nat.mod_add_div c (2 ^ n)
      rw [pow_add]
      nlinarith
    have hlt : d + c % 2 ^ n * 65536 < 2 ^ (n + 16) := by
      have := Nat.mod_lt c hpos
      rw [pow_add]
      omega
    rw [hsplit, Nat.add_mul_mod_self_left, Nat.mod_eq_of_lt hlt]
  exact word_bits hlow

/-- Shifting right divides; the bits of `c` come in at the front. -/
theorem val_shiftDown (hn : n ≤ 16) (h : Bounded fbase ds) (c : Nat) :
    val fbase (shiftDown n c ds) = (c % 2 ^ n * fbase ^ ds.length + val fbase ds) / 2 ^ n := by
  induction ds generalizing c with
  | nil =>
      simp only [shiftDown, val_nil, List.length_nil, pow_zero, Nat.mul_one, Nat.add_zero]
      rw [Nat.div_eq_of_lt (Nat.mod_lt _ (Nat.two_pow_pos n))]
  | cons d ds ih =>
      obtain ⟨hd, hds⟩ := bounded_cons.1 h
      obtain ⟨hq, hr⟩ := carry_word (c := c) hn hd
      simp only [shiftDown, val_cons, shiftDown_length, List.length_cons]
      rw [ih hds, hq, hr]
      generalize hw : d + c % 2 ^ n * 65536 = w
      have hdm := Nat.div_add_mod w (2 ^ n)
      have hsum : c % 2 ^ n * fbase ^ (ds.length + 1) + (d * fbase ^ ds.length + val fbase ds) =
          w % 2 ^ n * fbase ^ ds.length + val fbase ds +
            2 ^ n * (w / 2 ^ n * fbase ^ ds.length) := by
        calc c % 2 ^ n * fbase ^ (ds.length + 1) + (d * fbase ^ ds.length + val fbase ds)
            = (d + c % 2 ^ n * fbase) * fbase ^ ds.length + val fbase ds := by rw [pow_succ]; ring
          _ = (2 ^ n * (w / 2 ^ n) + w % 2 ^ n) * fbase ^ ds.length + val fbase ds := by
              rw [hdm, ← hw]
          _ = _ := by ring
      rw [hsum, Nat.add_mul_div_left _ _ (Nat.two_pow_pos n), Nat.add_comm]

theorem halve_length (c : Nat) (ds : List Nat) : (halve c ds).1.length = ds.length := by
  induction ds generalizing c with
  | nil => rfl
  | cons d ds ih => simp [halve, ih]

theorem halve_bounded {c : Nat} (hc : c < 2) (h : Bounded fbase ds) :
    Bounded fbase (halve c ds).1 := by
  induction ds generalizing c with
  | nil => exact bounded_nil
  | cons d ds ih =>
      obtain ⟨hd, hds⟩ := bounded_cons.1 h
      refine bounded_cons.2 ⟨?_, ih (Nat.mod_lt _ (by decide)) hds⟩
      have : d < 65536 := hd
      exact Nat.div_lt_of_lt_mul (by change d + c * 65536 < 2 * 65536; omega)

theorem val_halve (c : Nat) (ds : List Nat) :
    val fbase (halve c ds).1 + (if ds = [] then c / 2 else 0) =
      (c * fbase ^ ds.length + val fbase ds) / 2 := by
  induction ds generalizing c with
  | nil => simp [halve]
  | cons d ds ih =>
      have htail := ih ((d + c * 65536) % 2)
      have hz : (if ds = [] then (d + c * 65536) % 2 / 2 else 0) = 0 := by
        split
        · omega
        · rfl
      rw [hz, Nat.add_zero] at htail
      have hstep : (halve c (d :: ds)).1 =
          (d + c * 65536) / 2 :: (halve ((d + c * 65536) % 2) ds).1 := rfl
      rw [hstep, if_neg (List.cons_ne_nil _ _), Nat.add_zero, val_cons, val_cons, halve_length,
        htail, List.length_cons]
      generalize hw : d + c * 65536 = w
      have hdm := Nat.div_add_mod w 2
      have hsum : c * fbase ^ (ds.length + 1) + (d * fbase ^ ds.length + val fbase ds) =
          w % 2 * fbase ^ ds.length + val fbase ds + 2 * (w / 2 * fbase ^ ds.length) := by
        calc c * fbase ^ (ds.length + 1) + (d * fbase ^ ds.length + val fbase ds)
            = (d + c * fbase) * fbase ^ ds.length + val fbase ds := by rw [pow_succ]; ring
          _ = (2 * (w / 2) + w % 2) * fbase ^ ds.length + val fbase ds := by rw [hdm, ← hw]
          _ = _ := by ring
      rw [hsum, Nat.add_mul_div_left _ _ (by decide), Nat.add_comm]

/-- `keep_on` says whether the divisor was zero. -/
theorem halve_keep (c : Nat) (ds : List Nat) :
    (halve c ds).2 = true ↔ (ds ≠ [] ∧ c ≠ 0) ∨ val fbase ds ≠ 0 := by
  induction ds generalizing c with
  | nil => simp [halve]
  | cons d ds ih =>
      have hpow := fbase_pow_pos ds.length
      simp only [halve, Bool.or_eq_true, decide_eq_true_eq, ih, val_cons]
      have hd : d * fbase ^ ds.length + val fbase ds ≠ 0 ↔ d ≠ 0 ∨ val fbase ds ≠ 0 := by
        rw [ne_eq, Nat.add_eq_zero_iff, Nat.mul_eq_zero, or_iff_left hpow.ne']
        tauto
      rw [hd]
      have hw : d + c * 65536 ≠ 0 ↔ c ≠ 0 ∨ d ≠ 0 := by omega
      have hodd : (d + c * 65536) % 2 ≠ 0 → d + c * 65536 ≠ 0 := by omega
      constructor
      · rintro (h | ⟨-, h⟩ | h)
        · rcases hw.1 h with h | h
          · exact .inl ⟨by simp, h⟩
          · exact .inr (.inl h)
        · rcases hw.1 (hodd h) with h | h
          · exact .inl ⟨by simp, h⟩
          · exact .inr (.inl h)
        · exact .inr (.inr h)
      · rintro (⟨-, h⟩ | h | h)
        · exact .inl (hw.2 (.inl h))
        · exact .inl (hw.2 (.inr h))
        · exact .inr (.inr h)

/-! ## The loop -/

theorem fbase_eq_two_pow : fbase = 2 ^ 16 := rfl

theorem fbase_pow (n : Nat) : fbase ^ n = 2 ^ (16 * n) := by
  rw [show fbase = 2 ^ 16 from rfl, ← pow_mul]

/-- Setting a bit below all that are set adds its weight. -/
theorem setBit_spec (stray : Stray) {r : List Nat} (bitpos bit : Nat) (hb : Bounded fbase r)
    (hpos : bitpos < r.length) (hbit : bit < 16)
    (hdvd : 2 ^ (16 * (r.length - 1 - bitpos) + bit + 1) ∣ val fbase r) :
    ∃ r', setBit stray r bitpos bit = .ok r' ∧ r'.length = r.length ∧ Bounded fbase r' ∧
      val fbase r' = val fbase r + 2 ^ (16 * (r.length - 1 - bitpos) + bit) := by
  -- the digit is a multiple of twice the bit
  have hdig : 2 ^ (bit + 1) ∣ r.getD bitpos 0 := by
    obtain ⟨m, hm⟩ := hdvd
    have htake := val_take hb (show bitpos + 1 ≤ r.length by omega)
    rw [hm, show r.length - (bitpos + 1) = r.length - 1 - bitpos by omega, fbase_pow,
      Nat.add_assoc, pow_add, Nat.mul_assoc, Nat.mul_div_cancel_left _ (Nat.two_pow_pos _),
      val_take_succ hpos] at htake
    have h1 : 2 ^ (bit + 1) ∣ val fbase (r.take bitpos) * fbase + r.getD bitpos 0 :=
      htake ▸ Nat.dvd_mul_right ..
    have h2 : 2 ^ (bit + 1) ∣ val fbase (r.take bitpos) * fbase := by
      refine Dvd.dvd.mul_left ?_ _
      rw [show fbase = 2 ^ 16 from rfl]
      exact pow_dvd_pow 2 (by omega)
    exact (Nat.dvd_add_right h2).1 h1
  obtain ⟨q, hq⟩ := hdig
  have hlt : r.getD bitpos 0 < fbase := hb.getD fbase_pos bitpos
  have hor : r.getD bitpos 0 ||| 1 <<< bit = r.getD bitpos 0 + 2 ^ bit := by
    rw [hq, Nat.one_shiftLeft, Nat.two_pow_add_eq_or_of_lt (Nat.pow_lt_pow_right (by decide)
      (Nat.lt_succ_self bit))]
  have hnew : r.getD bitpos 0 + 2 ^ bit < fbase := by
    -- the next multiple of `2 ^ (bit + 1)` is at most the base
    have hle : 2 ^ (bit + 1) * (q + 1) ≤ fbase := by
      have hf : fbase = 2 ^ (bit + 1) * 2 ^ (15 - bit) := by
        rw [← pow_add, show bit + 1 + (15 - bit) = 16 by omega]
        rfl
      rw [hf] at hlt ⊢
      rw [hq] at hlt
      exact Nat.mul_le_mul_left _ (Nat.lt_of_mul_lt_mul_left hlt)
    have hp : 2 ^ (bit + 1) = 2 * 2 ^ bit := by rw [pow_succ]; ring
    have hpos : 0 < 2 ^ bit := Nat.two_pow_pos bit
    rw [Nat.mul_add, Nat.mul_one, ← hq, hp] at hle
    omega
  refine ⟨r.set bitpos (r.getD bitpos 0 + 2 ^ bit), ?_, List.length_set .., hb.set _ hnew, ?_⟩
  · rw [setBit, if_pos hpos, hor]
  · have hset := val_set (B := fbase) hpos (r.getD bitpos 0 + 2 ^ bit)
    rw [Nat.add_mul, fbase_pow, ← pow_add,
      show bit + 16 * (r.length - 1 - bitpos) = 16 * (r.length - 1 - bitpos) + bit by omega]
      at hset
    omega

/-- The state of the quotient loop after `j` turns. -/
structure DivInv (a d j : Nat) (s : DivSt) : Prop where
  len1 : s.a1.length = 9
  len2 : s.a2.length = 9
  lenr : s.r.length = 9
  bounded1 : Bounded fbase s.a1
  bounded2 : Bounded fbase s.a2
  boundedr : Bounded fbase s.r
  val1 : (val fbase s.a1 : Int) = if 0 ≤ rem a d j then rem a d j else rem a d j + (fbase ^ 9 : Nat)
  val2 : val fbase s.a2 = d / 2 ^ j
  sg : s.sg = decide (0 ≤ rem a d j)
  bit : s.bit < 16
  pos : 16 * s.bitpos = j + s.bit
  valr : val fbase s.r = if j ≤ 129 then quot a d j * 2 ^ (129 - j) else quot a d 129

/-- The bits that `r` has no room for are zero. -/
def Inside (a d : Nat) : Prop := ∀ j, 129 ≤ j → rem a d (j + 1) < 0

section Loop

variable {a d : Nat} (had : a < d) (hd : d < fbase ^ 9)

include had hd

/-- The subtraction or addition of a turn. -/
theorem divStep_remainder (h : DivInv a d j s) {t : List Nat × Nat}
    (ht : t = if s.sg then sub fbase s.a1 s.a2 else add fbase s.a1 s.a2) :
    t.1.length = 9 ∧ Bounded fbase t.1 ∧
      ((val fbase t.1 : Nat) : Int) = (if 0 ≤ rem a d (j + 1) then rem a d (j + 1)
        else rem a d (j + 1) + (fbase ^ 9 : Nat)) ∧
      ((if s.sg then decide (t.2 = 0) else decide (t.2 ≠ 0)) =
        decide (0 ≤ rem a d (j + 1))) := by
  have hlen : s.a1.length = s.a2.length := by rw [h.len1, h.len2]
  have hrb := rem_bounds had j
  have hle : d / 2 ^ j ≤ d := Nat.div_le_self ..
  have hv1 := h.val1
  have hv2 := h.val2
  by_cases hpos : 0 ≤ rem a d j
  · have hsg : s.sg = true := by rw [h.sg, decide_eq_true hpos]
    rw [hsg, if_pos rfl] at ht
    rw [if_pos hpos] at hv1
    have hb := sub_borrow_le (B := fbase) s.a1 s.a2
    have hbi := sub_borrow_iff hlen h.bounded1 h.bounded2
    have hval := val_sub hlen h.bounded2
    rw [h.len1] at hval
    rw [← ht] at hb hbi hval
    have hrem : rem a d (j + 1) = rem a d j - (d / 2 ^ j : Nat) := by rw [rem, if_pos hpos]
    rw [hv2] at hval hbi
    refine ⟨by rw [ht, length_sub _ _ hlen, h.len1],
      by rw [ht]; exact bounded_sub h.bounded1 h.bounded2, ?_, ?_⟩
    · rw [hrem]
      generalize d / 2 ^ j = q at *
      split
      · next h0 =>
          have : t.2 = 0 := by
            by_contra hne
            have := hbi.1 (by omega)
            omega
          rw [this] at hval
          omega
      · next h0 =>
          have : t.2 = 1 := hbi.2 (by omega)
          rw [this] at hval
          omega
    · rw [hsg, hrem]
      generalize d / 2 ^ j = q at *
      simp only [if_true, decide_eq_decide]
      constructor
      · intro h0
        by_contra hlt
        have := hbi.2 (by omega)
        omega
      · intro h0
        by_contra hne
        have := hbi.1 (by omega)
        omega
  · have hsg : s.sg = false := by rw [h.sg, decide_eq_false hpos]
    rw [hsg, if_neg (by decide)] at ht
    rw [if_neg hpos] at hv1
    have hval := val_add (B := fbase) s.a1 s.a2 hlen
    have hbt := bounded_add fbase_pos s.a1 s.a2
    have hltt := val_lt hbt
    rw [length_add _ _ hlen, h.len1] at hltt
    rw [h.len1, hv2] at hval
    rw [← ht] at hval hbt hltt
    have hrem : rem a d (j + 1) = rem a d j + (d / 2 ^ j : Nat) := by rw [rem, if_neg hpos]
    refine ⟨by rw [ht, length_add _ _ hlen, h.len1], hbt, ?_, ?_⟩
    · rw [hrem]
      generalize d / 2 ^ j = q at *
      generalize fbase ^ 9 = w at *
      split
      · next h0 =>
          have : t.2 = 1 := by
            rcases Nat.lt_trichotomy t.2 1 with h1 | h1 | h1
            · rw [show t.2 = 0 by omega] at hval
              omega
            · exact h1
            · have : 2 * w ≤ t.2 * w := Nat.mul_le_mul_right _ h1
              omega
          rw [this] at hval
          omega
      · next h0 =>
          have : t.2 = 0 := by
            by_contra hne
            have : 1 * w ≤ t.2 * w := Nat.mul_le_mul_right _ (by omega)
            omega
          rw [this] at hval
          omega
    · rw [hsg, hrem]
      generalize d / 2 ^ j = q at *
      generalize fbase ^ 9 = w at *
      simp only [Bool.false_eq_true, if_false, decide_eq_decide]
      constructor
      · intro hne
        have : 1 * w ≤ t.2 * w := Nat.mul_le_mul_right _ (by omega)
        omega
      · intro h0 h1
        rw [h1] at hval
        omega

/-- One turn keeps the invariant, unless it stops outside `r`. -/
theorem divStep_inv (stray : Stray) (h : DivInv a d j s)
    (hin : stray = .lost ∨ (129 ≤ j → rem a d (j + 1) < 0)) :
    ∃ s', divStep stray s = .ok (s', decide (d / 2 ^ j ≠ 0)) ∧ DivInv a d (j + 1) s' := by
  obtain ⟨hlent, hbt, hvt, hsgt⟩ := divStep_remainder had hd h rfl
  have hkeep : (halve 0 s.a2).2 = decide (d / 2 ^ j ≠ 0) := by
    rw [Bool.eq_iff_iff, halve_keep, decide_eq_true_iff, h.val2]
    simp
  have hhv : val fbase (halve 0 s.a2).1 = d / 2 ^ (j + 1) := by
    have := val_halve 0 s.a2
    rw [Nat.zero_div, ite_self, Nat.add_zero, Nat.zero_mul, Nat.zero_add, h.val2] at this
    rw [this, pow_succ, Nat.div_div_eq_div_mul]
  have hhb : Bounded fbase (halve 0 s.a2).1 := halve_bounded (by decide) h.bounded2
  have hhl : (halve 0 s.a2).1.length = 9 := by rw [halve_length, h.len2]
  have hbit := h.bit
  have hpos := h.pos
  -- the quotient bit of this turn
  obtain ⟨r', hr', hlr, hbr, hvr⟩ : ∃ r',
      (if decide (0 ≤ rem a d (j + 1)) = true then setBit stray s.r s.bitpos s.bit else .ok s.r) =
        .ok r' ∧ r'.length = 9 ∧ Bounded fbase r' ∧
      val fbase r' =
        if j + 1 ≤ 129 then quot a d (j + 1) * 2 ^ (129 - (j + 1)) else quot a d 129 := by
    have hvr := h.valr
    by_cases hq : 0 ≤ rem a d (j + 1)
    · rw [decide_eq_true hq, if_pos rfl]
      by_cases hj : j < 129
      · rw [if_pos (by omega)] at hvr
        have hweight : 16 * (s.r.length - 1 - s.bitpos) + s.bit = 128 - j := by
          rw [h.lenr]
          omega
        obtain ⟨r', h1, h2, h3, h4⟩ := setBit_spec stray s.bitpos s.bit
          h.boundedr (by rw [h.lenr]; omega) hbit (by
            rw [hweight, hvr, show 128 - j + 1 = 129 - j by omega]
            exact Nat.dvd_mul_left ..)
        refine ⟨r', h1, by rw [h2, h.lenr], h3, ?_⟩
        rw [if_pos (by omega), h4, hweight, hvr, quot, if_pos hq,
          show 129 - (j + 1) = 128 - j by omega, show 129 - j = 128 - j + 1 by omega, pow_succ]
        ring
      · -- the store is past the end of `r`
        have hlost : stray = .lost := hin.resolve_right fun hn => by
          have := hn (by omega)
          omega
        refine ⟨s.r, ?_, h.lenr, h.boundedr, ?_⟩
        · rw [setBit, if_neg (by rw [h.lenr]; omega), if_pos hlost]
        · rw [if_neg (by omega), hvr]
          split
          · rw [show j = 129 by omega, Nat.sub_self, pow_zero, Nat.mul_one]
          · rfl
    · refine ⟨s.r, by rw [decide_eq_false hq, if_neg (by decide)], h.lenr, h.boundedr, ?_⟩
      rw [hvr]
      by_cases hj : j + 1 ≤ 129
      · rw [if_pos (by omega), if_pos hj, quot, if_neg hq,
          show 129 - j = 129 - (j + 1) + 1 by omega,
          pow_succ]
        ring
      · rw [if_neg hj]
        split
        · rw [show j = 129 by omega]
          simp
        · rfl
  refine ⟨⟨_, (halve 0 s.a2).1, r', if s.bit = 0 then 15 else s.bit - 1,
    if s.bit = 0 then s.bitpos + 1 else s.bitpos, decide (0 ≤ rem a d (j + 1))⟩, ?_,
    hlent, hhl, hlr, hbt, hhb, hbr, hvt, hhv, rfl, ?_, ?_, hvr⟩
  · simp only [divStep, hsgt, hkeep, bind, Except.bind, pure, Except.pure]
    split
    · next hq =>
        rw [if_pos hq] at hr'
        rw [hr']
    · next hq =>
        rw [if_neg hq] at hr'
        cases hr'
        rfl
  · dsimp only
    split <;> omega
  · dsimp only
    split <;> omega

/-- A bit that is set after 129 of them is stored outside `r`. -/
theorem divStep_outside (h : DivInv a d j s) (hj : 129 ≤ j) (hrem : 0 ≤ rem a d (j + 1)) :
    divStep .stops s = .error .outside := by
  obtain ⟨-, -, -, hsgt⟩ := divStep_remainder had hd h rfl
  have hpos := h.pos
  have hbit := h.bit
  have hset : setBit .stops s.r s.bitpos s.bit = .error .outside := by
    rw [setBit, if_neg (by rw [h.lenr]; omega), if_neg (by decide)]
  simp only [divStep, hsgt, decide_eq_true hrem, if_true, hset, bind, Except.bind]

/-- The result of the loop, from one turn of it and the rest. -/
theorem divLoop_turn (hd1 : 2 ^ 128 ≤ d) {stray : Stray} (h : DivInv a d j s)
    (hrest : d / 2 ^ j ≠ 0 → ∀ s', DivInv a d (j + 1) s' →
      (divLoop stray n s' = .error .outside ∧ stray = .stops ∧ ¬ Inside a d) ∨
      ∃ s'', divLoop stray n s' = .ok s'' ∧ s''.r.length = 9 ∧ Bounded fbase s''.r ∧
        val fbase s''.r = quot a d 129) :
    (divLoop stray (n + 1) s = .error .outside ∧ stray = .stops ∧ ¬ Inside a d) ∨
    ∃ s', divLoop stray (n + 1) s = .ok s' ∧ s'.r.length = 9 ∧ Bounded fbase s'.r ∧
      val fbase s'.r = quot a d 129 := by
  by_cases hout : stray = .stops ∧ 129 ≤ j ∧ 0 ≤ rem a d (j + 1)
  · left
    refine ⟨?_, hout.1, fun hin => absurd (hin j hout.2.1) (by omega)⟩
    rw [hout.1, divLoop, divStep_outside had hd h hout.2.1 hout.2.2]
    rfl
  · obtain ⟨s', hstep, hinv⟩ := divStep_inv had hd stray h (by
      cases stray with
      | lost => exact .inl rfl
      | stops =>
          refine .inr fun hj => ?_
          by_contra hneg
          exact hout ⟨rfl, hj, by omega⟩)
    by_cases hz : d / 2 ^ j = 0
    · right
      -- the divisor vanishes only after all of `r` has been filled
      have hj : 129 ≤ j := by
        by_contra hlt
        have hle := Nat.pow_le_pow_right (show 0 < 2 by decide) (show j ≤ 128 by omega)
        have := Nat.div_pos (hle.trans hd1) (Nat.two_pow_pos j)
        omega
      have hvr := hinv.valr
      rw [if_neg (by omega)] at hvr
      refine ⟨s', ?_, hinv.lenr, hinv.boundedr, hvr⟩
      rw [divLoop]
      simp only [hstep, hz, bind, Except.bind, pure, Except.pure]
      rfl
    · have hloop : divLoop stray (n + 1) s = divLoop stray n s' := by
        rw [divLoop]
        simp only [hstep, bind, Except.bind, decide_eq_true hz, if_true]
      rw [hloop]
      exact hrest hz s' hinv

/-- The loop ends: outside `r`, or with the first 129 bits of the quotient in it. -/
theorem divLoop_spec (hd1 : 2 ^ 128 ≤ d) (stray : Stray) (h : DivInv a d j s)
    (hn : d < 2 ^ (j + n)) :
    (divLoop stray (n + 1) s = .error .outside ∧ stray = .stops ∧ ¬ Inside a d) ∨
    ∃ s', divLoop stray (n + 1) s = .ok s' ∧ s'.r.length = 9 ∧ Bounded fbase s'.r ∧
      val fbase s'.r = quot a d 129 := by
  induction n generalizing j s with
  | zero =>
      have hz : d / 2 ^ j = 0 := Nat.div_eq_of_lt (by simpa using hn)
      exact divLoop_turn had hd hd1 h fun hnz => absurd hz hnz
  | succ n ih =>
      refine divLoop_turn had hd hd1 h fun _ s' hinv => ih hinv ?_
      rw [show j + 1 + n = j + (n + 1) by omega]
      exact hn

/-- A loop that does not stop outside `r` has set no bit there. -/
theorem divLoop_inside (hd1 : 2 ^ 128 ≤ d) {s' : DivSt} (h : DivInv a d j s)
    (hrun : divLoop .stops n s = .ok s') {i : Nat} (hi : 129 ≤ i) (hij : j ≤ i) :
    rem a d (i + 1) < 0 := by
  induction n generalizing j s with
  | zero => exact absurd hrun (by simp [divLoop])
  | succ n ih =>
      have hneg : 129 ≤ j → rem a d (j + 1) < 0 := by
        intro hj
        by_contra hpos
        rw [divLoop, divStep_outside had hd h hj (Int.not_lt.1 hpos)] at hrun
        exact absurd hrun (by simp [bind, Except.bind])
      obtain ⟨s1, hstep, hinv⟩ := divStep_inv had hd .stops h (.inr hneg)
      rw [divLoop] at hrun
      simp only [hstep, bind, Except.bind] at hrun
      by_cases hz : d / 2 ^ j = 0
      · -- the divisor has vanished, and the remainder stays
        have hj : 129 ≤ j := by
          by_contra hlt
          have hle := Nat.pow_le_pow_right (show 0 < 2 by decide) (show j ≤ 128 by omega)
          have := Nat.div_pos (hle.trans hd1) (Nat.two_pow_pos j)
          omega
        have hstay : ∀ m, rem a d (j + m + 1) < 0 := by
          intro m
          induction m with
          | zero => exact hneg hj
          | succ m ihm =>
              have hle : d / 2 ^ (j + m + 1) ≤ d / 2 ^ j :=
                Nat.div_le_div_left (Nat.pow_le_pow_right (by decide) (by omega))
                  (Nat.two_pow_pos j)
              rw [hz, Nat.le_zero] at hle
              rw [← Nat.add_assoc, rem, if_neg (by omega), hle]
              simpa using ihm
        obtain ⟨m, rfl⟩ := Nat.exists_eq_add_of_le hij
        exact hstay m
      · rw [decide_eq_true hz, if_pos rfl] at hrun
        rcases Nat.eq_or_lt_of_le hij with rfl | hlt
        · exact hneg hi
        · exact ih hinv hrun hlt

end Loop

/-! ## Before and after the loop -/

theorem size_half (h : 0 < n) : Nat.size n = Nat.size (n / 2) + 1 := by
  refine le_antisymm ?_ ?_
  · have := Nat.lt_size_self (n / 2)
    rw [Nat.size_le, pow_succ]
    omega
  · rw [Nat.succ_le_iff, Nat.lt_size]
    rcases hk : Nat.size (n / 2) with _ | k
    · exact h
    · have := Nat.lt_size.1 (show k < Nat.size (n / 2) by omega)
      rw [pow_succ]
      omega

/-- The counting loop counts the bits of a quotient. -/
theorem halvings_lt {s : Nat} (hs : 0 < s) (fuel : Nat) (h : t / s < 2 ^ fuel) :
    halvings (· < s) fuel t = .ok (Nat.size (t / s)) := by
  induction fuel generalizing t with
  | zero =>
      have h0 : t / s = 0 := by simpa using h
      rw [halvings, if_pos (by simpa using (Nat.div_eq_zero_iff_lt hs).1 h0), h0, Nat.size_zero]
  | succ fuel ih =>
      rw [halvings]
      by_cases hlt : t < s
      · rw [if_pos (by simpa using hlt), Nat.div_eq_of_lt hlt, Nat.size_zero]
      · have hswap : t / 2 / s = t / s / 2 := by
          rw [Nat.div_div_eq_div_mul, Nat.div_div_eq_div_mul, Nat.mul_comm]
        rw [if_neg (by simpa using hlt), ih (by rw [hswap]; rw [pow_succ] at h; omega), hswap,
          size_half (Nat.div_pos (Nat.not_lt.1 hlt) hs)]
        rfl

/-- The places by which the dividend is shifted, less those by which the divisor is: one of
the two is zero. -/
theorem bitDiff_eq {s : Nat} (hs : 0 < s) (ht' : t < 65536) (hs' : s < 65536) :
    bitDiff t s = .ok ((Nat.size (t / s) : Int) - (Nat.size (s / (t + 1)) - 1 : Nat)) := by
  by_cases hge : t ≥ s
  · rw [bitDiff, if_pos hge, halvings_lt hs 16 ((Nat.div_le_self ..).trans_lt ht'),
      Nat.div_eq_of_lt (show s < t + 1 by omega), Nat.size_zero]
    simp [Except.map]
  · have hfun : (fun x => decide (x ≤ t)) = fun x => decide (x < t + 1) := by
      funext x
      simp [Nat.lt_succ_iff]
    have hpos : 0 < Nat.size (s / (t + 1)) := Nat.size_pos.2 (Nat.div_pos (by omega) (by omega))
    rw [bitDiff, if_neg hge, hfun,
      halvings_lt (Nat.succ_pos t) 16 ((Nat.div_le_self ..).trans_lt hs'),
      Nat.div_eq_of_lt (Nat.not_le.1 hge), Nat.size_zero]
    refine congrArg Except.ok (?_ : 1 - (Nat.size (s / (t + 1)) : Int) = _)
    omega

/-- After the shifts the dividend is smaller, in its first digit already. -/
theorem shifts_spec {s : Nat} (hs : 0 < s) (ht' : t < 65536) (hs' : s < 65536) :
    Nat.size (t / s) ≤ 16 ∧ Nat.size (s / (t + 1)) - 1 ≤ 15 ∧
      (Nat.size (t / s) = 0 ∨ Nat.size (s / (t + 1)) - 1 = 0) ∧
      t / 2 ^ Nat.size (t / s) < s / 2 ^ (Nat.size (s / (t + 1)) - 1) := by
  have hn : Nat.size (t / s) ≤ 16 := Nat.size_le.2 ((Nat.div_le_self ..).trans_lt ht')
  have hm : Nat.size (s / (t + 1)) ≤ 16 := Nat.size_le.2 ((Nat.div_le_self ..).trans_lt hs')
  refine ⟨hn, by omega, ?_, ?_⟩
  · rcases Nat.lt_or_ge t s with hlt | hge
    · exact .inl (by rw [Nat.div_eq_of_lt hlt, Nat.size_zero])
    · exact .inr (by rw [Nat.div_eq_of_lt (show s < t + 1 by omega), Nat.size_zero])
  · rcases Nat.lt_or_ge t s with hlt | hge
    · have hpos : 0 < Nat.size (s / (t + 1)) := Nat.size_pos.2 (Nat.div_pos (by omega) (by omega))
      have hle := Nat.lt_size.1 (show Nat.size (s / (t + 1)) - 1 < Nat.size (s / (t + 1)) by omega)
      rw [Nat.div_eq_of_lt hlt, Nat.size_zero, pow_zero, Nat.div_one, ← Nat.succ_le_iff,
        Nat.le_div_iff_mul_le (Nat.two_pow_pos _), Nat.mul_comm]
      exact (Nat.le_div_iff_mul_le (Nat.succ_pos t)).1 hle
    · rw [Nat.div_eq_of_lt (show s < t + 1 by omega), Nat.size_zero, pow_zero, Nat.div_one,
        Nat.div_lt_iff_lt_mul (Nat.two_pow_pos _), Nat.mul_comm, ← Nat.div_lt_iff_lt_mul hs]
      exact Nat.lt_size_self _

theorem shiftUp_length (n k : Nat) (ds : List Nat) : (shiftUp n k ds).1.length = ds.length := by
  induction ds with
  | nil => rfl
  | cons d ds ih => simp [shiftUp, ih]

theorem shiftUp_bounded (n k : Nat) (ds : List Nat) : Bounded fbase (shiftUp n k ds).1 := by
  induction ds with
  | nil => exact bounded_nil
  | cons d ds ih => exact bounded_cons.2 ⟨Nat.mod_lt _ (by decide), ih⟩

theorem val_shiftUp (n k : Nat) (ds : List Nat) :
    val fbase (shiftUp n k ds).1 + (shiftUp n k ds).2 * fbase ^ ds.length =
      val fbase ds * 2 ^ n + k := by
  induction ds with
  | nil => simp [shiftUp]
  | cons d ds ih =>
      simp only [shiftUp, val_cons, shiftUp_length, List.length_cons]
      generalize hw : d * 2 ^ n + (shiftUp n k ds).2 = w
      have hdm : w % 65536 + fbase * (w / 65536) = w := Nat.mod_add_div w 65536
      calc w % 65536 * fbase ^ ds.length + val fbase (shiftUp n k ds).1 +
            w / 65536 * fbase ^ (ds.length + 1)
          = (w % 65536 + fbase * (w / 65536)) * fbase ^ ds.length +
              val fbase (shiftUp n k ds).1 := by rw [pow_succ]; ring
        _ = d * 2 ^ n * fbase ^ ds.length +
              (val fbase (shiftUp n k ds).1 + (shiftUp n k ds).2 * fbase ^ ds.length) := by
            rw [hdm, ← hw]; ring
        _ = (d * fbase ^ ds.length + val fbase ds) * 2 ^ n + k := by rw [ih]; ring

theorem val_shiftUp_of_lt {k : Nat} (ds : List Nat)
    (h : val fbase ds * 2 ^ n + k < fbase ^ ds.length) :
    val fbase (shiftUp n k ds).1 = val fbase ds * 2 ^ n + k := by
  have hup := val_shiftUp n k ds
  rcases Nat.eq_zero_or_pos (shiftUp n k ds).2 with h0 | h0
  · rw [h0] at hup
    omega
  · have : 1 * fbase ^ ds.length ≤ (shiftUp n k ds).2 * fbase ^ ds.length :=
      Nat.mul_le_mul_right _ h0
    omega

/-- The bit that rounds the lined-up quotient. -/
def roundBit (last n : Nat) : Nat := (last <<< n &&& 0x8000) >>> 15

theorem roundBit_le (last n : Nat) : roundBit last n ≤ 1 := by
  have : last <<< n &&& 0x8000 ≤ 0x8000 := Nat.and_le_right
  rw [roundBit, Nat.shiftRight_eq_div_pow]
  omega

theorem roundBit_zero (n : Nat) : roundBit 0 n = 0 := by simp [roundBit]

/-- It is a bit of the last digit. -/
theorem roundBit_testBit (last n : Nat) :
    roundBit last n = (decide (n ≤ 15) && last.testBit (15 - n)).toNat := by
  rw [roundBit, show (0x8000 : Nat) = 2 ^ 15 from rfl, Nat.and_comm, Nat.two_pow_and,
    Nat.testBit_shiftLeft, Nat.shiftRight_eq_div_pow,
    Nat.mul_div_cancel_left _ (Nat.two_pow_pos 15)]

theorem roundBit_sixteen (last : Nat) : roundBit last 16 = 0 := by
  rw [roundBit_testBit]
  rfl

/-- The quotient lined up: shifted, rounded by one bit, and moved by a digit if
its first digit is zero. -/
theorem lineUp_spec (fe : Int) {bd : Int} {r : List Nat} {fs : Nat} (hlen : r.length = 9)
    (hb : Bounded fbase r) (hlt : val fbase r < 2 ^ 128) (hbd : -15 ≤ bd) (hbd' : bd ≤ 16)
    (hfs : fs = if bd > 0 then bd.toNat else (16 + bd).toNat) :
    ∃ s : Nat, (lineUp bd fe r).2 = (if bd > 0 then fe else fe - 1) - s ∧
      (lineUp bd fe r).1.length = 8 ∧ Bounded fbase (lineUp bd fe r).1 ∧
      val fbase (lineUp bd fe r).1 =
        (val fbase r / 2 ^ (16 - fs) + roundBit (val fbase r % 65536) fs) * fbase ^ s ∧
      s = if fbase ^ 7 ≤ val fbase r / 2 ^ (16 - fs) + roundBit (val fbase r % 65536) fs then 0
        else 1 := by
  have hfs16 : fs ≤ 16 := by rw [hfs]; split <;> omega
  have hfs' : (if bd > 0 then bd.toNat else if bd > -16 then (16 + bd).toNat else 0) = fs := by
    rw [hfs]
    split
    · rfl
    · rw [if_pos (by omega)]
  have htl : (r.take mantSize).length = 8 := by rw [List.length_take, hlen]; rfl
  have htake : val fbase (r.take mantSize) = val fbase r / 65536 := by
    rw [val_take hb (by rw [hlen]; decide), hlen]
    rfl
  have hlast : r.getD mantSize 0 = val fbase r % 65536 := by
    have h1 := val_take_succ (B := fbase) (show 8 < r.length by omega)
    rw [List.take_of_length_le (by omega), show r.take 8 = r.take mantSize from rfl, htake] at h1
    have h2 : val fbase r / 65536 * fbase + val fbase r % 65536 = val fbase r :=
      Nat.div_add_mod' ..
    have h3 : r.getD 8 0 = r.getD mantSize 0 := rfl
    omega
  -- the shifted digits are the shifted number
  have hshift : val fbase r / 65536 * 2 ^ fs + val fbase r % 65536 / 2 ^ (16 - fs) =
      val fbase r / 2 ^ (16 - fs) := by
    have h2 : val fbase r =
        val fbase r % 65536 + 2 ^ (16 - fs) * (val fbase r / 65536 * 2 ^ fs) := by
      have h3 : val fbase r / 65536 * 65536 + val fbase r % 65536 = val fbase r :=
        Nat.div_add_mod' ..
      have h4 : 2 ^ (16 - fs) * (val fbase r / 65536 * 2 ^ fs) = val fbase r / 65536 * 65536 := by
        rw [Nat.mul_left_comm, ← pow_add, show 16 - fs + fs = 16 by omega,
          show (65536 : Nat) = 2 ^ 16 from rfl]
      omega
    conv_rhs => rw [h2]
    rw [Nat.add_mul_div_left _ _ (Nat.two_pow_pos _), Nat.add_comm]
  -- there is no carry out of the first digit
  have hsmall : val fbase r / 2 ^ (16 - fs) + roundBit (val fbase r % 65536) fs < fbase ^ 8 := by
    rw [show fbase ^ 8 = 2 ^ 128 from rfl]
    rcases Nat.lt_or_ge fs 16 with h | h
    · have h1 : val fbase r / 2 ^ (16 - fs) ≤ val fbase r / 2 ^ 1 :=
        Nat.div_le_div_left (Nat.pow_le_pow_right (by decide) (by omega)) (by decide)
      have := roundBit_le (val fbase r % 65536) fs
      omega
    · rw [show fs = 16 by omega, roundBit_sixteen]
      simpa using hlt
  obtain ⟨k, hk⟩ : ∃ k, k = roundBit (val fbase r % 65536) fs +
      (val fbase r % 65536) >>> (16 - fs) := ⟨_, rfl⟩
  have hM : val fbase (r.take mantSize) * 2 ^ fs + k =
      val fbase r / 2 ^ (16 - fs) + roundBit (val fbase r % 65536) fs := by
    rw [htake, hk, Nat.shiftRight_eq_div_pow]
    omega
  have hup := val_shiftUp_of_lt (n := fs) (k := k) (r.take mantSize) (by
    rw [htl, hM]
    exact hsmall)
  rw [hM] at hup
  have hml := shiftUp_length fs k (r.take mantSize)
  have hmb := shiftUp_bounded fs k (r.take mantSize)
  rw [htl] at hml
  have hres : lineUp bd fe r = (let mant := (shiftUp fs k (r.take mantSize)).1
      if mant.headD 0 = 0 then (mant.drop 1 ++ [0], (if bd > 0 then fe else fe - 1) - 1)
      else (mant, if bd > 0 then fe else fe - 1)) := by
    simp only [lineUp, hfs', hlast, hk, roundBit]
  rw [hres]
  dsimp only
  split
  · next hhead =>
      have hne : (shiftUp fs k (r.take mantSize)).1 ≠ [] := by
        intro h0
        rw [h0] at hml
        exact absurd hml (by decide)
      refine ⟨1, rfl, ?_, ?_, ?_, (if_neg fun hge => absurd hhead ?_).symm⟩
      · simp [hml]
      · exact bounded_append.2 ⟨hmb.drop 1, bounded_cons.2 ⟨fbase_pos, bounded_nil⟩⟩
      · rw [val_rotate_zero hhead, hup, pow_one]
      · rw [← ne_eq, headD_ne_zero_iff hmb hne, hml, hup]
        exact hge
  · next hhead =>
      refine ⟨0, by simp, hml, hmb, by rw [hup, pow_zero, Nat.mul_one], (if_pos ?_).symm⟩
      have hne : (shiftUp fs k (r.take mantSize)).1 ≠ [] := by
        intro h0
        rw [h0] at hml
        exact absurd hml (by decide)
      have hge := (headD_ne_zero_iff hmb hne).1 hhead
      rwa [hml, hup] at hge

/-! ## The quotient -/

/-- A number whose first digit is not zero. -/
structure Flt.Normal (f : Flt) : Prop where
  len : f.digits.length = mantSize
  bounded : Bounded fbase f.digits
  head : fbase ^ 7 ≤ val fbase f.digits

/-- The mantissa of a number with a zero digit behind it. -/
theorem Flt.Normal.mantissa {f : Flt} (h : f.Normal) :
    (f.digits ++ [0]).length = 9 ∧ Bounded fbase (f.digits ++ [0]) ∧
      val fbase (f.digits ++ [0]) = val fbase f.digits * 2 ^ 16 ∧
      (f.digits ++ [0]).headD 0 = f.mant.headD 0 ∧ 0 < f.mant.headD 0 ∧ f.mant.headD 0 < 65536 ∧
      f.mant.headD 0 = val fbase (f.digits ++ [0]) / 2 ^ 128 := by
  have hb : Bounded fbase (f.digits ++ [0]) :=
    bounded_append.2 ⟨h.bounded, bounded_cons.2 ⟨fbase_pos, bounded_nil⟩⟩
  have hlen : (f.digits ++ [0]).length = 9 := by simp [h.len, mantSize_eq]
  have hval : val fbase (f.digits ++ [0]) = val fbase f.digits * 2 ^ 16 := by
    rw [val_append, List.length_singleton, pow_one, val_one, Nat.add_zero, fbase_eq_two_pow]
  have hne : f.digits ++ [0] ≠ [] := by simp
  have hhead : (f.digits ++ [0]).headD 0 = f.mant.headD 0 := by
    have hlen8 := h.len
    unfold Flt.digits at hlen8 ⊢
    cases hm : f.mant with
    | nil => rw [hm] at hlen8; exact absurd hlen8 (by decide)
    | cons d ds => rfl
  have hlt := headD_lt fbase_pos hb
  have heq := headD_eq hb hne
  have hpos : (f.digits ++ [0]).headD 0 ≠ 0 := by
    rw [headD_ne_zero_iff hb hne, hlen, hval]
    exact Nat.mul_le_mul_right (2 ^ 16) h.head
  rw [hhead] at hlt heq hpos
  rw [hlen] at heq
  exact ⟨hlen, hb, hval, hhead, Nat.pos_of_ne_zero hpos, hlt, heq⟩

/-- One of the two mantissas is shifted. -/
theorem shiftDown_if (hn : n ≤ 16) {c : Prop} [Decidable c] (hc : ¬ c → n = 0)
    (h : Bounded fbase ds) :
    (if c then shiftDown n 0 ds else ds).length = ds.length ∧
      Bounded fbase (if c then shiftDown n 0 ds else ds) ∧
      val fbase (if c then shiftDown n 0 ds else ds) = val fbase ds / 2 ^ n := by
  split
  · refine ⟨shiftDown_length n 0 ds, shiftDown_bounded n 0 ds, ?_⟩
    rw [val_shiftDown hn h, Nat.zero_mod, Nat.zero_mul, Nat.zero_add]
  · next hnc => exact ⟨rfl, h, by rw [hc hnc, pow_zero, Nat.div_one]⟩

theorem Flt.Is.normal {f : Flt} {v : Int} (h : f.Is v) (hv : v ≠ 0) : f.Normal := by
  obtain ⟨n, hn, -, hval, hnorm⟩ := h.val hv
  refine ⟨h.len, h.bounded, ?_⟩
  rw [hval]
  calc fbase ^ 7 = fbase ^ n * fbase ^ (7 - n) := by rw [← pow_add]; congr 1; omega
    _ ≤ v.natAbs * fbase ^ (7 - n) := Nat.mul_le_mul_right _ hnorm

theorem le_three_of_lt {v : Nat} (h : fbase ^ n ≤ v) (hv : v < 2 ^ 64) : n ≤ 3 := by
  by_contra hgt
  have := Nat.pow_le_pow_right fbase_pos (show 4 ≤ n by omega)
  rw [show fbase ^ 4 = 2 ^ 64 from rfl] at this
  omega

/-- What the quotient loop divides: the mantissa of `f1`, shifted until its first digit is
below that of the divisor. -/
def dividend (f1 f2 : Flt) : Nat :=
  val fbase f1.digits * 2 ^ 16 / 2 ^ Nat.size (f1.mant.headD 0 / f2.mant.headD 0)

theorem dividend_pos (h1 : f1.Normal) : 0 < dividend f1 f2 := by
  obtain ⟨-, -, -, -, -, ht1, -⟩ := h1.mantissa
  have hn : Nat.size (f1.mant.headD 0 / f2.mant.headD 0) ≤ 16 :=
    Nat.size_le.2 ((Nat.div_le_self ..).trans_lt ht1)
  refine Nat.div_pos ((Nat.pow_le_pow_right (by decide) hn).trans ?_) (Nat.two_pow_pos _)
  exact Nat.le_mul_of_pos_left _ ((fbase_pow_pos 7).trans_le h1.head)

/-- What the quotient loop divides by: the mantissa of `f2`, shifted as long as its first
digit stays above that of the dividend. -/
def divisor (f1 f2 : Flt) : Nat :=
  val fbase f2.digits * 2 ^ 16 / 2 ^ (Nat.size (f2.mant.headD 0 / (f1.mant.headD 0 + 1)) - 1)

/-- The `bit_diff` of two numbers. -/
def bitDiffOf (f1 f2 : Flt) : Int :=
  (Nat.size (f1.mant.headD 0 / f2.mant.headD 0) : Int) -
    (Nat.size (f2.mant.headD 0 / (f1.mant.headD 0 + 1)) - 1 : Nat)

/-- `flt_div` up to the quotient loop, and what it does behind it. -/
theorem fltDiv_start (h1 : f1.Normal) (h2 : f2.Normal) :
    dividend f1 f2 < divisor f1 f2 ∧ divisor f1 f2 < fbase ^ 9 ∧ 2 ^ 128 ≤ divisor f1 f2 ∧
      -15 ≤ bitDiffOf f1 f2 ∧ bitDiffOf f1 f2 ≤ 16 ∧
      ∃ start, DivInv (dividend f1 f2) (divisor f1 f2) 0 start ∧
        ∀ (stray : Stray) (res : Flt), f1.sign ≠ 0 → f2.sign ≠ 0 →
          fltDiv stray f1 f2 res = (divLoop stray 145 start).bind fun s => .ok (.okay,
            { res.store (lineUp (bitDiffOf f1 f2) (f1.exp - f2.exp) s.r).1 with
              sign := if f1.sign = f2.sign then 1 else -1
              exp := (lineUp (bitDiffOf f1 f2) (f1.exp - f2.exp) s.r).2 }) := by
  obtain ⟨hl1, hb1, hv1, hm1, -, ht1, hh1⟩ := h1.mantissa
  obtain ⟨hl2, hb2, hv2, hm2, hp2, ht2, hh2⟩ := h2.mantissa
  obtain ⟨hn, hm, hzero, hltd⟩ := shifts_spec hp2 ht1 ht2
  have hbd := bitDiff_eq hp2 ht1 ht2
  simp only [dividend, divisor, bitDiffOf]
  generalize Nat.size (f1.mant.headD 0 / f2.mant.headD 0) = n at hn hzero hltd hbd ⊢
  generalize Nat.size (f2.mant.headD 0 / (f1.mant.headD 0 + 1)) - 1 = m at hm hzero hltd hbd ⊢
  have hton : ((n : Int) - (m : Nat)).toNat = n := by omega
  have htom : (-((n : Int) - (m : Nat))).toNat = m := by omega
  obtain ⟨hl1', hb1', hv1'⟩ := shiftDown_if (n := n) (c := (n : Int) - (m : Nat) > 0) hn
    (fun h => by omega) hb1
  obtain ⟨hl2', hb2', hv2'⟩ := shiftDown_if (n := m) (c := (n : Int) - (m : Nat) < 0) (by omega)
    (fun h => by omega) hb2
  generalize hA1 : (if (n : Int) - (m : Nat) > 0 then shiftDown n 0 (f1.digits ++ [0])
    else f1.digits ++ [0]) = A1 at hl1' hb1' hv1'
  generalize hA2 : (if (n : Int) - (m : Nat) < 0 then shiftDown m 0 (f2.digits ++ [0])
    else f2.digits ++ [0]) = A2 at hl2' hb2' hv2'
  have hdivlt : val fbase (f1.digits ++ [0]) / 2 ^ n / 2 ^ 128 <
      val fbase (f2.digits ++ [0]) / 2 ^ m / 2 ^ 128 := by
    rw [Nat.div_div_eq_div_mul, Nat.div_div_eq_div_mul, Nat.mul_comm (2 ^ n),
      Nat.mul_comm (2 ^ m), ← Nat.div_div_eq_div_mul, ← Nat.div_div_eq_div_mul, ← hh1, ← hh2]
    exact hltd
  have hlt := val_lt hb2'
  rw [hv2', hl2', hl2] at hlt
  rw [hv1] at hdivlt hv1'
  rw [hv2] at hdivlt hlt hv2'
  refine ⟨?_, hlt, ?_, by omega, by omega, ⟨A1, A2, List.replicate (mantSize + 1) 0, 0, 0, true⟩,
    ⟨hl1'.trans hl1, hl2'.trans hl2, List.length_replicate .., hb1', hb2',
      bounded_replicate_zero fbase_pos _, ?_, ?_, ?_, Nat.zero_lt_succ 15, rfl, ?_⟩, ?_⟩
  · by_contra hle
    have := Nat.div_le_div_right (c := 2 ^ 128) (Nat.not_lt.1 hle)
    omega
  · by_contra hlt'
    rw [Nat.div_eq_of_lt (Nat.not_le.1 hlt')] at hdivlt
    omega
  · rw [hv1', rem, if_pos (Int.natCast_nonneg _)]
  · rw [hv2', pow_zero, Nat.div_one]
  · exact (decide_eq_true (Int.natCast_nonneg _)).symm
  · rw [val_replicate_zero]
    simp [quot]
  · intro stray res hs1 hs2
    rw [fltDiv, if_neg hs2, if_neg hs1]
    simp only [hm1, hm2, hbd, bind, Except.bind, pure, Except.pure, hton, htom, hA1, hA2]

theorem bitDiffOf_toNat (h : Nat.size (f1.mant.headD 0 / f2.mant.headD 0) = 0 ∨
      Nat.size (f2.mant.headD 0 / (f1.mant.headD 0 + 1)) - 1 = 0) :
    (bitDiffOf f1 f2).toNat = Nat.size (f1.mant.headD 0 / f2.mant.headD 0) ∧
      (-bitDiffOf f1 f2).toNat = Nat.size (f2.mant.headD 0 / (f1.mant.headD 0 + 1)) - 1 := by
  rw [bitDiffOf]
  omega

/-- The digits of an integer, shifted right. -/
theorem shifted_digits (m : Nat) (hn : n ≤ 3) (ht : t ≤ 16) :
    m * fbase ^ (7 - n) * 2 ^ 16 / 2 ^ t = m * 2 ^ (16 * (8 - n) - t) := by
  rw [fbase_pow, Nat.mul_assoc, ← pow_add, Nat.mul_div_assoc _ (pow_dvd_pow 2 (by omega)),
    Nat.pow_div (by omega) (by decide)]
  congr 2
  omega

theorem shifts_room {n1 : Nat} {bd : Int} (hn1 : n1 ≤ 3) (n2 : Nat) (hhi : bd ≤ 16) :
    64 ≤ 16 * (8 - n1) - bd.toNat ∧ 16 * (8 - n2) - (-bd).toNat ≤ 128 := by
  omega

/-- Where the quotient of two integers of `n1` and `n2` digits stands behind the last shift: `g`
digits behind the point. -/
theorem quotient_place {n1 n2 : Nat} {bd : Int} (hn1 : n1 ≤ 3) (hn2 : n2 ≤ 3) (hlo : -15 ≤ bd)
    (hhi : bd ≤ 16) {fs : Nat} (hfs : fs = if bd > 0 then bd.toNat else (16 + bd).toNat) :
    fs ≤ 16 ∧ ∃ g : Nat, (g : Int) = 7 - (if bd > 0 then (n1 : Int) - n2 else n1 - n2 - 1) ∧ 4 ≤ g ∧
      112 + fs + (16 * (8 - n1) - bd.toNat) = 16 * g + (16 * (8 - n2) - (-bd).toNat) := by
  split at hfs
  next h =>
    rw [if_pos h, hfs]
    exact ⟨by omega, 7 - n1 + n2, by omega, by omega, by omega⟩
  next h =>
    rw [if_neg h, hfs]
    exact ⟨by omega, 8 - n1 + n2, by omega, by omega, by omega⟩

/-- The division of the emulator applied to two integers: it stops outside `r`,
or it delivers a number whose digits up to the one of weight one are the
integer part of the quotient, and whose other digits are zero exactly when the
division is even. -/
theorem fltDiv_spec (stray : Stray) {a b : Int} (h1 : f1.Is a) (h2 : f2.Is b) (ha : a ≠ 0)
    (hb : b ≠ 0) (ha64 : a.natAbs < 2 ^ 64) (hb64 : b.natAbs < 2 ^ 64) (res : Flt) :
    (fltDiv stray f1 f2 res = .error .outside ∧ stray = .stops ∧ ¬ b ∣ a) ∨
    ∃ (f : Flt) (G : Nat), fltDiv stray f1 f2 res = .ok (.okay, f) ∧
      f.digits.length = mantSize ∧ Bounded fbase f.digits ∧
      f.sign = (if a.sign = b.sign then 1 else -1) ∧ f.exp = 7 - (G : Int) ∧ 4 ≤ G ∧
      val fbase f.digits / fbase ^ G = a.natAbs / b.natAbs ∧
      (val fbase f.digits % fbase ^ G = 0 ↔ b ∣ a) := by
  obtain ⟨n1, hn1, he1, hval1, hnorm1⟩ := h1.val ha
  obtain ⟨n2, hn2, he2, hval2, hnorm2⟩ := h2.val hb
  have hn13 : n1 ≤ 3 := le_three_of_lt hnorm1 ha64
  have hn23 : n2 ≤ 3 := le_three_of_lt hnorm2 hb64
  have hnormal1 := h1.normal ha
  have hnormal2 := h2.normal hb
  obtain ⟨-, -, -, -, -, ht1, -⟩ := hnormal1.mantissa
  obtain ⟨-, -, -, -, hp2, ht2, -⟩ := hnormal2.mantissa
  obtain ⟨hn, hm, hzero, -⟩ := shifts_spec hp2 ht1 ht2
  obtain ⟨hlt, hA2lt, hA2ge, hlo, hhi, start, hinv, hred⟩ := fltDiv_start hnormal1 hnormal2
  have hs1 : f1.sign ≠ 0 := mt h1.sign_eq_zero.1 ha
  have hs2 : f2.sign ≠ 0 := mt h2.sign_eq_zero.1 hb
  have hbd := bitDiffOf_toNat hzero
  -- the operands of the loop are the two integers, shifted left
  have hA1v : dividend f1 f2 = a.natAbs * 2 ^ (16 * (8 - n1) - (bitDiffOf f1 f2).toNat) := by
    rw [dividend, hval1, shifted_digits _ hn13 hn, hbd.1]
  have hA2v : divisor f1 f2 = b.natAbs * 2 ^ (16 * (8 - n2) - (-bitDiffOf f1 f2).toNat) := by
    rw [divisor, hval2, shifted_digits _ hn23 (Nat.le_succ_of_le hm), hbd.2]
  generalize dividend f1 f2 = A1 at hlt hinv hA1v
  generalize divisor f1 f2 = A2 at hlt hA2lt hA2ge hinv hA2v
  generalize bitDiffOf f1 f2 = bd at hlo hhi hred hA1v hA2v
  obtain ⟨hy, hz⟩ := shifts_room hn13 n2 hhi
  have hfuel : A2 < 2 ^ (0 + 144) := hA2lt
  have hap : 0 < a.natAbs := Int.natAbs_pos.2 ha
  have hbp : 0 < b.natAbs := Int.natAbs_pos.2 hb
  rcases divLoop_spec hlt hA2lt hA2ge stray hinv hfuel with
    ⟨hloop, hst, hnin⟩ | ⟨s, hloop, hrl, hrb, hrv⟩
  · left
    refine ⟨by rw [hred stray res hs1 hs2, hloop]; rfl, hst, fun hdvd => hnin ?_⟩
    rw [hA1v, hA2v] at hlt ⊢
    exact (quot_even hap hbp (by omega) hz hlt (Int.natAbs_dvd_natAbs.2 hdvd)).2
  · right
    have hQlt : val fbase s.r < 2 ^ 128 := by
      rw [hrv]
      exact quot_lt hlt 128
    obtain ⟨fs, hfs⟩ : ∃ fs : Nat, fs = if bd > 0 then bd.toNat else (16 + bd).toNat := ⟨_, rfl⟩
    obtain ⟨sh, hexp, hql, hqb, hqv, -⟩ :=
      lineUp_spec (f1.exp - f2.exp) hrl hrb hQlt hlo hhi hfs
    obtain ⟨hfs16, g, hg, hg4, hPG⟩ := quotient_place hn13 hn23 hlo hhi hfs
    rw [← he1, ← he2] at hg
    rw [hA1v, hA2v] at hlt
    have hround : b.natAbs ∣ a.natAbs → roundBit (val fbase s.r % 65536) fs = 0 := by
      intro hdvd
      have hq := (quot_even hap hbp (by omega) hz hlt hdvd).1
      have hz : val fbase s.r % 65536 = 0 := by
        rw [hrv, hA1v, hA2v, hq]
        refine Nat.mod_eq_zero_of_dvd (Dvd.dvd.mul_left ?_ _)
        rw [show (65536 : Nat) = 2 ^ 16 from rfl]
        exact pow_dvd_pow 2 (by omega)
      rw [hz, roundBit_zero]
    have hpart := quot_integer_part (P := 112 + fs) (G := 16 * g) hap hbp hb64 hy (by omega) hz
      (by omega) hPG hlt (roundBit_le (val fbase s.r % 65536) fs) hround
    rw [← hA1v, ← hA2v, ← hrv, show 128 - (112 + fs) = 16 - fs by omega, ← fbase_pow,
      Int.natAbs_dvd_natAbs] at hpart
    have hd : Flt.digits { res.store (lineUp bd (f1.exp - f2.exp) s.r).1 with
        sign := if f1.sign = f2.sign then 1 else -1
        exp := (lineUp bd (f1.exp - f2.exp) s.r).2 } = (lineUp bd (f1.exp - f2.exp) s.r).1 :=
      (Flt.digits_with _ _ _).trans (Flt.digits_store res hql)
    refine ⟨_, g + sh, by rw [hred stray res hs1 hs2, hloop]; rfl, by rw [hd]; exact hql,
      by rw [hd]; exact hqb, ?_, ?_, by omega,
      ?_, ?_⟩
    · rw [h1.sign, h2.sign]
    · rw [hexp]
      push_cast
      omega
    · rw [hd, hqv, pow_add, Nat.mul_div_mul_right _ _ (fbase_pow_pos sh)]
      exact hpart.1
    · rw [hd, hqv, pow_add, Nat.mul_mod_mul_right, Nat.mul_eq_zero,
        or_iff_left (fbase_pow_pos sh).ne']
      exact hpart.2

end Tendra.Ref
