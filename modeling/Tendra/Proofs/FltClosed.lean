import Tendra.Proofs.FltQuotient
import Tendra.Proofs.FltSum

/-!
# The legal form of results

A number is legal if its first digit is not zero and its exponent is in the range of the header, or
if it is zero in every field. Sums are normalised digit by digit and the exponent is looked at with
each shift, but not after the rounding, which can carry once more; products are looked at before and
while they are normalised; and quotients are not looked at at all.
-/

namespace Tendra.Ref

open Tendra.Digits Tendra.NonRestoring

/-- The array of a `flt` holds ten digits. -/
structure Flt.Stored (f : Flt) : Prop where
  len : f.mant.length = 10
  bounded : Bounded fbase f.mant

/-- The legal form of `flpt.h`. -/
structure Flt.LegalForm (f : Flt) : Prop extends f.Stored where
  sign : f.sign = -1 ∨ f.sign = 0 ∨ f.sign = 1
  zero : f.sign = 0 ↔ (∀ d ∈ f.digits, d = 0) ∧ f.exp = 0
  normal : f.sign ≠ 0 → f.mant.headD 0 ≠ 0
  range : f.sign ≠ 0 → eMin ≤ f.exp ∧ f.exp ≤ eMax

/-! ## Numbers other than zero -/

/-- A number other than zero, but for the exponent. -/
structure Flt.Leading (f : Flt) : Prop extends f.Stored where
  sign : f.sign = -1 ∨ f.sign = 1
  head : f.mant.headD 0 ≠ 0

section

variable {f f1 f2 res : Flt}

theorem Flt.Stored.sized (h : f.Stored) : f.Sized :=
  ⟨by rw [Flt.digits, List.length_take, h.len]; rfl, h.bounded.take _⟩

theorem Flt.Stored.store (h : res.Stored) {ds : List Nat} (hlen : ds.length = mantSize)
    (hb : Bounded fbase ds) (s e : Int) : Flt.Stored { res.store ds with sign := s, exp := e } where
  len := by simp [Flt.store, hlen, h.len, mantSize]
  bounded := bounded_append.2 ⟨hb, h.bounded.drop _⟩

theorem headD_take {ds : List Nat} {n : Nat} (hn : 0 < n) : (ds.take n).headD 0 = ds.headD 0 := by
  cases ds with
  | nil => simp
  | cons d ds => rw [List.take_cons hn]; rfl

theorem headD_append {xs ys : List Nat} (h : xs ≠ []) : (xs ++ ys).headD 0 = xs.headD 0 := by
  obtain ⟨x, xs, rfl⟩ := List.exists_cons_of_ne_nil h
  rfl

theorem Flt.LegalForm.leading (h : f.LegalForm) (hs : f.sign ≠ 0) : f.Leading :=
  ⟨h.toStored, by have := h.sign; omega, h.normal hs⟩

/-- A number other than zero is legal by its exponent. -/
theorem Flt.Leading.legalForm_iff (h : f.Leading) :
    f.LegalForm ↔ eMin ≤ f.exp ∧ f.exp ≤ eMax := by
  have hs : f.sign ≠ 0 := by have := h.sign; omega
  refine ⟨fun hl => hl.range hs, fun hr => ⟨h.toStored, ?_, ?_, fun _ => h.head, fun _ => hr⟩⟩
  · have := h.sign
    omega
  · refine iff_of_false hs fun hz => h.head ?_
    have hhead : (f.mant.take mantSize).headD 0 = f.mant.headD 0 := headD_take (by decide)
    rw [← hhead]
    have hne : f.mant.take mantSize ≠ [] := by
      intro h0
      have hlen := h.sized.len
      rw [Flt.digits, h0] at hlen
      exact absurd hlen (by decide)
    obtain ⟨d, ds, hds⟩ := List.exists_cons_of_ne_nil hne
    rw [hds]
    exact hz.1 d (by rw [Flt.digits, hds]; exact List.mem_cons_self ..)

theorem fltZero_legalForm (h : res.Stored) : (fltZero res).LegalForm := by
  have hzeros : (List.replicate mantSize 0).length = mantSize := List.length_replicate ..
  have hst := h.store hzeros (bounded_replicate_zero fbase_pos _) 0 0
  refine ⟨hst, .inr (.inl rfl), iff_of_true rfl ⟨?_, rfl⟩, fun hs => absurd rfl hs,
    fun hs => absurd rfl hs⟩
  have hd : (fltZero res).digits = List.replicate mantSize 0 :=
    Flt.digits_store res (List.length_replicate ..)
  rw [hd]
  exact fun d hd => (List.mem_replicate.1 hd).2

theorem fltCopy_legalForm (h : f.LegalForm) (hres : res.Stored) : (fltCopy f res).LegalForm := by
  have hd : (fltCopy f res).digits = f.digits := Flt.digits_store res h.sized.len
  have hne : f.digits ≠ [] := by
    intro h0
    have hlen := h.sized.len
    rw [h0] at hlen
    exact absurd hlen (by decide)
  refine ⟨hres.store h.sized.len h.sized.bounded _ _, h.sign, ?_, fun hs => ?_, h.range⟩
  · rw [hd]
    exact h.zero
  · have hhead : (fltCopy f res).mant.headD 0 = f.digits.headD 0 := headD_append hne
    rw [hhead, Flt.digits, headD_take (by decide)]
    exact h.normal hs

/-- Rounding keeps a number in form, and a carry out of the mantissa is seen in the exponent. -/
theorem fltIntRound_leading (h : f.Leading) (ic : Nat) : (fltIntRound f ic).Leading ∧
    (fltIntRound f ic).exp =
      f.exp + if fbase / 2 ≤ ic ∧ val fbase f.digits + 1 = fbase ^ 8 then 1 else 0 := by
  simp only [fltIntRound, roundType, decide_eq_true_eq]
  by_cases hup : fbase / 2 ≤ ic
  · rw [if_pos hup]
    have hval := val_addCarry (B := fbase) 1 f.digits
    have hrlen := length_addCarry (B := fbase) 1 f.digits
    have hrb := bounded_addCarry (B := fbase) fbase_pos 1 f.digits
    have hlt := val_lt h.sized.bounded
    rw [h.sized.len] at hval hrlen hlt
    generalize addCarry fbase 1 f.digits = r at hval hrlen hrb ⊢
    have hlt' := val_lt hrb
    rw [hrlen] at hlt'
    split
    · next h0 =>
        rw [h0, Nat.zero_mul, Nat.add_zero] at hval
        have hne : r.1 ≠ [] := by
          intro hnil
          rw [hnil] at hrlen
          exact absurd hrlen (by decide)
        have hhead : r.1.headD 0 ≠ 0 := by
          have hf := h.head
          have hfne : f.digits ≠ [] := by
            intro hnil
            have hlen := h.sized.len
            rw [hnil] at hlen
            exact absurd hlen (by decide)
          rw [← headD_take (show 0 < mantSize by decide), ← Flt.digits,
            headD_ne_zero_iff h.sized.bounded hfne, h.sized.len] at hf
          rw [headD_ne_zero_iff hrb hne, hrlen, hval]
          exact Nat.le_succ_of_le hf
        refine ⟨⟨h.toStored.store hrlen hrb _ _, h.sign, ?_⟩, ?_⟩
        · rw [Flt.store, headD_append hne]
          exact hhead
        · rw [if_neg (by rw [hval] at hlt'; exact fun hc => absurd hc.2 hlt'.ne)]
          simp [Flt.store]
    · next h0 =>
        have hfull : val fbase f.digits + 1 = fbase ^ 8 := by
          have hge : 1 * fbase ^ mantSize ≤ r.2 * fbase ^ mantSize :=
            Nat.mul_le_mul_right _ (Nat.pos_of_ne_zero h0)
          rw [show fbase ^ 8 = fbase ^ mantSize from rfl]
          omega
        rw [if_pos ⟨hup, hfull⟩]
        have hone : (1 :: List.replicate (mantSize - 1) 0).length = mantSize := by simp [mantSize]
        refine ⟨⟨h.toStored.store hone ?_ _ _, h.sign, ?_⟩, rfl⟩
        · exact bounded_cons.2 ⟨by decide, bounded_replicate_zero fbase_pos _⟩
        · exact one_ne_zero
  · rw [if_neg hup, if_neg fun hc => hup hc.1, Int.add_zero]
    exact ⟨h, rfl⟩

/-- A double mantissa with a first digit, cut down. -/
theorem dbl2float_leading {mant : List Nat} (hlen : mant.length = 2 * mantSize)
    (hb : Bounded fbase mant) (hhead : mant.headD 0 ≠ 0) {s : Int} (hs : s = -1 ∨ s = 1) (e : Int)
    (hres : res.Stored) : (dbl2float ⟨mant, s, e⟩ res).Leading ∧
      ((dbl2float ⟨mant, s, e⟩ res).exp = e ∧ val fbase mant + fbase ^ 8 / 2 < fbase ^ 16 ∨
        (dbl2float ⟨mant, s, e⟩ res).exp = e + 1 ∧
          fbase ^ 16 ≤ val fbase mant + fbase ^ 8 / 2) := by
  have htl : (mant.take mantSize).length = mantSize := by
    rw [List.length_take, hlen]
    decide
  have htne : mant.take mantSize ≠ [] := by
    intro h0
    rw [h0] at htl
    exact absurd htl (by decide)
  have hlead : Flt.Leading { res.store (mant.take mantSize) with sign := s, exp := e } := by
    refine ⟨hres.store htl (hb.take _) s e, hs, ?_⟩
    rw [Flt.store, headD_append htne, headD_take (by decide)]
    exact hhead
  have hd : Flt.digits { res.store (mant.take mantSize) with sign := s, exp := e } =
      mant.take mantSize := Flt.digits_store res htl
  obtain ⟨hform, hexp⟩ := fltIntRound_leading hlead (mant.getD mantSize 0)
  refine ⟨hform, ?_⟩
  rw [hd] at hexp
  rw [dbl2float, hexp]
  have hdl : (mant.drop mantSize).length = 8 := by
    rw [List.length_drop, hlen]
    decide
  have hdne : mant.drop mantSize ≠ [] := by
    intro h0
    rw [h0] at hdl
    exact absurd hdl (by decide)
  have hsplit : val fbase mant =
      val fbase (mant.take mantSize) * fbase ^ 8 + val fbase (mant.drop mantSize) := by
    conv_lhs => rw [← List.take_append_drop mantSize mant]
    rw [val_append, hdl]
  have hlow : mant.getD mantSize 0 = val fbase (mant.drop mantSize) / fbase ^ 7 := by
    have hheadd := headD_eq (hb.drop mantSize) hdne
    rw [hdl] at hheadd
    rw [← hheadd, List.headD_eq_head?_getD, List.head?_drop, List.getD_eq_getElem?_getD]
  have hlt := val_lt (hb.drop mantSize)
  have hlt' := val_lt (hb.take mantSize)
  rw [hdl] at hlt
  rw [htl] at hlt'
  rw [hlow, hsplit]
  generalize val fbase (mant.drop mantSize) = lo at hlt ⊢
  generalize val fbase (mant.take mantSize) = hi at hlt' ⊢
  have hcarry : (fbase / 2 ≤ lo / fbase ^ 7 ∧ hi + 1 = fbase ^ 8) ↔
      fbase ^ 16 ≤ hi * fbase ^ 8 + lo + fbase ^ 8 / 2 := by
    rw [show mantSize = 8 from rfl] at hlt'
    norm_num at hlt hlt' ⊢
    omega
  rw [if_congr hcarry rfl rfl]
  split
  · next h => exact .inr ⟨rfl, h⟩
  · next h => exact .inl ⟨by simp, Nat.not_le.1 h⟩

theorem normalise_room {room : Nat} {mant m : List Nat} {e e' : Int}
    (h : normalise room mant e = some (m, e')) : e - room ≤ e' := by
  induction room generalizing mant e with
  | zero =>
      rw [normalise] at h
      split at h
      · obtain ⟨-, rfl⟩ := Prod.mk.inj (Option.some.inj h)
        omega
      · cases h
  | succ room ih =>
      rw [normalise] at h
      split at h
      · obtain ⟨-, rfl⟩ := Prod.mk.inj (Option.some.inj h)
        omega
      · have hrest := ih h
        omega

/-! ## Products -/

/-- A product is legal whenever there is one. -/
theorem fltMul_closed (h1 : f1.LegalForm) (h2 : f2.LegalForm) (hres : res.Stored) {g : Flt}
    (hrun : fltMul f1 f2 res = .ok (.okay, g)) : g.LegalForm := by
  rw [fltMul] at hrun
  split at hrun
  · obtain rfl := congrArg Prod.snd (Except.ok.inj hrun)
    exact fltZero_legalForm hres
  · obtain ⟨acc, hacc, hlen, hb, -⟩ := mulRows_product h1.sized.len h2.sized.len h1.sized.bounded
      h2.sized.bounded
    have hne : acc ≠ [] := by
      rintro rfl
      exact absurd hlen (by decide)
    simp only [hacc, bind, Except.bind, pure, Except.pure] at hrun
    split at hrun
    · exact absurd (congrArg Prod.fst (Except.ok.inj hrun)) (by simp)
    · next hrange =>
        split at hrun
        · exact absurd (congrArg Prod.fst (Except.ok.inj hrun)) (by simp)
        · next m e hm =>
            obtain rfl := congrArg Prod.snd (Except.ok.inj hrun)
            obtain ⟨k, he, hml, hmb, -, hhead⟩ := normalise_some hb hne hm
            have hroom := normalise_room hm
            have hsign : (if f1.sign = f2.sign then (1 : Int) else -1) = -1 ∨
                (if f1.sign = f2.sign then (1 : Int) else -1) = 1 := by
              split <;> simp
            obtain ⟨hlead, hexp⟩ := dbl2float_leading (hml.trans hlen) hmb hhead hsign e hres
            have hexp' := hexp.imp And.left And.left
            rw [hlead.legalForm_iff]
            clear hexp
            omega

/-! ## Sums and differences -/

/-- The sum of two mantissas at the larger exponent, in units of the sixteenth place. -/
def alignedSum (f1 f2 : Flt) : Nat :=
  val fbase f1.digits * fbase ^ 8 / fbase ^ (f2.exp - f1.exp).toNat +
    val fbase f2.digits * fbase ^ 8 / fbase ^ (f1.exp - f2.exp).toNat

/-- Two numbers of one sign at the largest exponent whose sum has no carry before it is rounded,
and has one then. -/
def RoundsOver (f1 f2 : Flt) : Prop :=
  f1.sign ≠ 0 ∧ f1.sign = f2.sign ∧ max f1.exp f2.exp = eMax ∧ alignedSum f1 f2 < fbase ^ 16 ∧
    fbase ^ 16 ≤ alignedSum f1 f2 + fbase ^ 8 / 2

theorem addMantissas_closed_iff {d1 d2 : Dbl} {s e : Int} {M1 M2 : Nat} (h1 : d1.Has s e M1)
    (h2 : d2.Has s e M2) (hs : s = -1 ∨ s = 1) (hlow : fbase ^ 15 ≤ M1 + M2) (hlo : eMin ≤ e)
    (hhi : e ≤ eMax) (hres : res.Stored) (hexp : res.exp = e) :
    (∀ g, addMantissas d1 d2 res = (.okay, g) → g.LegalForm) ↔
      ¬(e = eMax ∧ M1 + M2 < fbase ^ 16 ∧ fbase ^ 16 ≤ M1 + M2 + fbase ^ 8 / 2) := by
  have hlen : d1.mant.length = d2.mant.length := by rw [h1.len, h2.len]
  have hval := val_add (B := fbase) d1.mant d2.mant hlen
  have hrlen := length_add (B := fbase) d1.mant d2.mant hlen
  have hrb := bounded_add fbase_pos d1.mant d2.mant
  have hM1 := val_lt h1.bounded
  have hM2 := val_lt h2.bounded
  rw [h1.val, h2.val, h1.len] at hval
  rw [h1.len] at hrlen
  rw [h1.val, h1.len] at hM1
  rw [h2.val, h2.len] at hM2
  simp only [addMantissas, h1.sign, h2.sign, if_true, hexp]
  generalize add fbase d1.mant d2.mant = r at hval hrlen hrb ⊢
  have hrne : r.1 ≠ [] := by
    intro h0
    rw [h0] at hrlen
    exact absurd hrlen (by decide)
  have h16 : fbase ^ (2 * mantSize) = fbase ^ 16 := rfl
  split
  · next hc =>
      have hover : fbase ^ 16 ≤ M1 + M2 := by
        have hge : 1 * fbase ^ (2 * mantSize) ≤ r.2 * fbase ^ (2 * mantSize) :=
          Nat.mul_le_mul_right _ (Nat.pos_of_ne_zero hc)
        omega
      refine iff_of_true (fun g hrun => ?_) fun h => absurd h.2.1 (Nat.not_lt.2 hover)
      split at hrun
      · exact absurd (congrArg Prod.fst hrun) (by simp)
      · next hrange =>
          obtain rfl := congrArg Prod.snd hrun
          have htl : (r.1.take (2 * mantSize - 1)).length = 2 * mantSize - 1 := by
            rw [List.length_take, hrlen]
            decide
          have hcarry : r.2 < fbase := by
            have hlt : r.2 * fbase ^ (2 * mantSize) < 2 * fbase ^ (2 * mantSize) := by omega
            exact (Nat.lt_of_mul_lt_mul_right hlt).trans (by decide)
          obtain ⟨hlead, hexp'⟩ := dbl2float_leading
            (show (r.2 :: r.1.take (2 * mantSize - 1)).length = 2 * mantSize by
              rw [List.length_cons, htl]; rfl)
            (bounded_cons.2 ⟨hcarry, hrb.take _⟩) hc hs (e + 1) hres
          have hexp'' := hexp'.imp And.left And.left
          rw [hlead.legalForm_iff]
          clear hexp' hover hval hM1 hM2
          omega
  · next hc =>
      rw [not_not.1 hc, Nat.zero_mul, Nat.add_zero] at hval
      have hhead : r.1.headD 0 ≠ 0 := by
        rw [headD_ne_zero_iff hrb hrne, hrlen, hval]
        exact hlow
      have hlt := val_lt hrb
      rw [hrlen, hval] at hlt
      obtain ⟨hlead, hexp'⟩ := dbl2float_leading hrlen hrb hhead hs e hres
      have hlegal := hlead.legalForm_iff
      rw [hval] at hexp'
      have hform : (∀ g, ((Status.okay, dbl2float ⟨r.1, s, e⟩ res) : Status × Flt) = (.okay, g) →
          g.LegalForm) ↔ (dbl2float ⟨r.1, s, e⟩ res).LegalForm :=
        ⟨fun h => h _ rfl, fun h g hg => by
          obtain rfl := (Prod.mk.inj hg).2
          exact h⟩
      rw [hform, hlegal, show fbase ^ (2 * mantSize) = fbase ^ 16 from rfl] at *
      clear hM1 hM2 hval hlow
      generalize fbase ^ 16 = top at *
      generalize fbase ^ 8 / 2 = half at *
      omega

/-- A difference that has a carry when it is rounded has been shifted before. -/
theorem subMantissas_closed {d1 d2 : Dbl} {s1 s2 e : Int} {M1 M2 : Nat} (h1 : d1.Has s1 e M1)
    (h2 : d2.Has s2 e M2) (hs1 : s1 = -1 ∨ s1 = 1) (hs2 : s2 = -1 ∨ s2 = 1)
    (hM1 : M1 ≤ (fbase ^ 8 - 1) * fbase ^ 8) (hM2 : M2 ≤ (fbase ^ 8 - 1) * fbase ^ 8)
    (hlo : eMin ≤ e) (hhi : e ≤ eMax) (hres : res.Stored) (hexp : res.exp = e) {g : Flt}
    (hrun : subMantissas d1 d2 res = (.okay, g)) : g.LegalForm := by
  by_cases heq : M1 = M2
  · subst heq
    rw [subMantissas_equal h1 h2 (by omega) (by omega)] at hrun
    obtain rfl := congrArg Prod.snd hrun
    exact fltZero_legalForm hres
  · obtain ⟨c, hl, hb, hv, hnone, hsome⟩ := subMantissas_spec h1 h2 (by omega) (by omega) heq hexp
    have hne : c ≠ [] := by
      rintro rfl
      exact absurd hl (by decide)
    cases hm : normalise (e - eMin).toNat c e with
    | none =>
        rw [hnone hm] at hrun
        exact absurd (congrArg Prod.fst hrun) (by simp)
    | some me =>
        obtain ⟨m, e'⟩ := me
        rw [hsome m e' hm] at hrun
        obtain rfl := congrArg Prod.snd hrun
        obtain ⟨k, he, hml, hmb, hmv, hhead⟩ := normalise_some hb hne hm
        have hroom := normalise_room hm
        obtain ⟨hlead, hexp'⟩ := dbl2float_leading (hml.trans hl) hmb hhead
          (s := if M1 < M2 then s2 else s1) (by split <;> assumption) e' hres
        have hk : fbase ^ 16 ≤ val fbase m + fbase ^ 8 / 2 → k ≠ 0 := by
          rintro hover rfl
          have hle : val fbase m ≤ (fbase ^ 8 - 1) * fbase ^ 8 := by
            rw [hmv, pow_zero, Nat.mul_one, hv]
            split
            · exact (Nat.sub_le ..).trans hM2
            · exact (Nat.sub_le ..).trans hM1
          exact absurd (hover.trans (Nat.add_le_add_right hle _)) (by decide)
        rw [hlead.legalForm_iff]
        clear hM1 hM2 hmv hv
        rcases hexp' with ⟨h, -⟩ | ⟨h, hover⟩
        · omega
        · have hk0 := hk hover
          clear hk hover
          omega

/-- A mantissa at a larger exponent. -/
theorem aligned_le (h : f.Sized) (n : Nat) :
    val fbase f.digits * fbase ^ 8 / fbase ^ n ≤ (fbase ^ 8 - 1) * fbase ^ 8 := by
  have hlt := val_lt h.bounded
  rw [h.len] at hlt
  exact (Nat.div_le_self ..).trans (Nat.mul_le_mul_right _ (by
    rw [show fbase ^ 8 = fbase ^ mantSize from rfl]
    omega))

theorem Flt.Leading.normal (h : f.Leading) : fbase ^ 7 ≤ val fbase f.digits := by
  have hne : f.digits ≠ [] := by
    intro h0
    have hlen := h.sized.len
    rw [h0] at hlen
    exact absurd hlen (by decide)
  have hhead := h.head
  rw [← headD_take (show 0 < mantSize by decide), ← Flt.digits,
    headD_ne_zero_iff h.sized.bounded hne, h.sized.len] at hhead
  exact hhead

/-- Sums are legal unless they round over. -/
theorem fltAdd_closed_iff (h1 : f1.LegalForm) (h2 : f2.LegalForm) (hres : res.Stored) :
    (∀ g, fltAdd f1 f2 res = (.okay, g) → g.LegalForm) ↔ ¬RoundsOver f1 f2 := by
  by_cases hs1 : f1.sign = 0
  · refine iff_of_true (fun g hrun => ?_) fun h => h.1 hs1
    rw [fltAdd, if_pos hs1] at hrun
    obtain rfl := congrArg Prod.snd hrun
    exact fltCopy_legalForm h2 hres
  by_cases hs2 : f2.sign = 0
  · refine iff_of_true (fun g hrun => ?_) fun h => h.1 (h.2.1.trans hs2)
    rw [fltAdd, if_neg hs1, if_pos hs2] at hrun
    obtain rfl := congrArg Prod.snd hrun
    exact fltCopy_legalForm h1 hres
  have hl1 := h1.leading hs1
  have hl2 := h2.leading hs2
  obtain ⟨d1, d2, n1, n2, hn, hexp, ha1, ha2, hadd⟩ :=
    fltAdd_aligned h1.sized h2.sized hs1 hs2 res
  have hr1 := h1.range hs1
  have hr2 := h2.range hs2
  have hn1 : n1 = (f2.exp - f1.exp).toNat := by omega
  have hn2 : n2 = (f1.exp - f2.exp).toNat := by omega
  have hmax : f1.exp + n1 = max f1.exp f2.exp := by omega
  have hres' : Flt.Stored { res with exp := f1.exp + n1 } := ⟨hres.len, hres.bounded⟩
  rw [hadd]
  by_cases hsame : f1.sign = f2.sign
  · rw [← hsame] at ha2
    have hlow : fbase ^ 15 ≤ val fbase f1.digits * fbase ^ 8 / fbase ^ n1 +
        val fbase f2.digits * fbase ^ 8 / fbase ^ n2 := by
      have hV1 : fbase ^ 15 ≤ val fbase f1.digits * fbase ^ 8 :=
        (pow_add fbase 7 8).le.trans (Nat.mul_le_mul_right _ hl1.normal)
      have hV2 : fbase ^ 15 ≤ val fbase f2.digits * fbase ^ 8 :=
        (pow_add fbase 7 8).le.trans (Nat.mul_le_mul_right _ hl2.normal)
      rcases hn with h | h
      · rw [h, pow_zero, Nat.div_one]
        exact Nat.le_add_right_of_le hV1
      · rw [h, pow_zero, Nat.div_one]
        exact Nat.le_add_left_of_le hV2
    rw [addMantissas_closed_iff ha1 ha2 hl1.sign hlow (by omega) (by omega) hres' rfl, RoundsOver,
      alignedSum, ← hn1, ← hn2, hmax]
    exact not_congr ⟨fun h => ⟨hs1, hsame, h⟩, fun h => h.2.2⟩
  · refine iff_of_true (fun g hrun => ?_) fun h => hsame h.2.1
    rw [addMantissas, if_neg (by rw [ha1.sign, ha2.sign]; exact hsame)] at hrun
    exact subMantissas_closed ha1 ha2 hl1.sign hl2.sign (aligned_le h1.sized n1)
      (aligned_le h2.sized n2) (by omega) (by omega) hres' rfl hrun

/-- The operand that is subtracted is negated. -/
theorem Flt.LegalForm.neg (h : f.LegalForm) : Flt.LegalForm { f with sign := -f.sign } where
  toStored := ⟨h.len, h.bounded⟩
  sign := by
    have := h.sign
    dsimp only
    omega
  zero := by
    have hz := h.zero
    rw [← Int.neg_eq_zero] at hz
    exact hz
  normal hs := h.normal (by simpa using hs)
  range hs := h.range (by simpa using hs)

/-! ## Quotients -/

/-- The mantissa of `f1` is less than that of `f2`, and not so close to it that the quotient is
rounded to one: the halves that can be taken off are more than it. -/
def Below (f1 f2 : Flt) : Prop :=
  f1.mant.headD 0 < f2.mant.headD 0 ∨ f1.mant.headD 0 = f2.mant.headD 0 ∧
    val fbase f1.digits < val fbase f2.digits ∧
      val fbase f1.digits * 2 ^ 15 < ∑ t ∈ Finset.Icc 2 114, val fbase f2.digits * 2 ^ 16 / 2 ^ t

instance (f1 f2 : Flt) : Decidable (Below f1 f2) := by
  unfold Below
  infer_instance

/-- The exponent of a quotient. -/
def quotientExp (f1 f2 : Flt) : Int := f1.exp - f2.exp - if Below f1 f2 then 1 else 0

theorem Flt.Leading.isNormal (h : f.Leading) : f.Normal :=
  ⟨h.sized.len, h.sized.bounded, h.normal⟩

/-- The shift is to the right for the operand whose first digit is not less. -/
theorem bitDiffOf_pos_iff (h2 : f2.Normal) :
    bitDiffOf f1 f2 > 0 ↔ f2.mant.headD 0 ≤ f1.mant.headD 0 := by
  obtain ⟨-, -, -, -, hp2, -, -⟩ := h2.mantissa
  rw [bitDiffOf]
  generalize f1.mant.headD 0 = t
  generalize f2.mant.headD 0 = u at hp2
  constructor
  · intro hpos
    by_contra hlt
    rw [Nat.div_eq_of_lt (by omega), Nat.size_zero] at hpos
    omega
  · intro hle
    have hsize : 0 < Nat.size (t / u) := Nat.size_pos.2 (Nat.div_pos hle hp2)
    rw [Nat.div_eq_of_lt (show u < t + 1 by omega), Nat.size_zero]
    omega

/-- The first bits of the quotient are exact. -/
theorem le_quot_of_le {a d fs : Nat} (h : a < d) (hfs : fs ≤ 16) (hd : 2 ^ fs ∣ d) {k : Nat}
    (hk : k ≤ fs) (hle : d ≤ a * 2 ^ k) : 2 ^ (112 + fs - k) ≤ quot a d 129 / 2 ^ (16 - fs) := by
  have hexact := (quot_rem_exact h hd hk).1
  have hone : 1 ≤ quot a d (k + 1) := by
    rw [hexact]
    exact Nat.div_pos hle (by omega)
  have hcut : quot a d 129 / 2 ^ (16 - fs) / 2 ^ (112 + fs - k) = quot a d (k + 1) := by
    rw [Nat.div_div_eq_div_mul, ← pow_add, ← quot_div (k + 1) (16 - fs + (112 + fs - k))]
    congr 2
    omega
  rw [← hcut, Nat.le_div_iff_mul_le (Nat.two_pow_pos _), Nat.one_mul] at hone
  exact hone

/-- The quotient before it is moved up by a digit. -/
def linedUp (f1 f2 : Flt) (q : Nat) : Nat :=
  q / 2 ^ (16 - (quotPlaces f1 f2 - 112)) + roundBit (q % 65536) (quotPlaces f1 f2 - 112)

theorem linedUp_first (h1 : f1.Normal) (h2 : f2.Normal)
    (h : f1.mant.headD 0 = f2.mant.headD 0 → val fbase f2.digits ≤ val fbase f1.digits)
    {q : Nat} (hq : q = quot (dividend f1 f2) (divisor f1 f2) 129) :
    fbase ^ 7 ≤ linedUp f1 f2 q := by
  obtain ⟨hlt, -, -, -, -, -⟩ := fltDiv_start h1 h2
  have hplace := first_place h1 h2 h
  obtain ⟨n, m, hbd, hn, hm, hzero, -, -, hdis⟩ := exists_shifts h1 h2
  have hdivisor : divisor f1 f2 = val fbase f2.digits * 2 ^ (16 - m) := by
    refine Nat.eq_of_mul_eq_mul_right (Nat.two_pow_pos m) ?_
    rw [hdis, Nat.mul_assoc, ← pow_add, show 16 - m + m = 16 by omega]
  obtain ⟨fs, hfs⟩ : ∃ fs, quotPlaces f1 f2 = 112 + fs := ⟨_, rfl⟩
  have hfs16 : fs ≤ 16 - m ∧ fs ≤ 16 := by
    rw [quotPlaces, hbd] at hfs
    split at hfs <;> omega
  rw [hfs, pow_add, ← Nat.mul_assoc, Nat.mul_right_comm,
    show fbase ^ 7 = 2 ^ 112 by decide] at hplace
  have hle := Nat.le_of_mul_le_mul_right hplace (Nat.two_pow_pos 112)
  have hdvd : 2 ^ fs ∣ divisor f1 f2 := by
    rw [hdivisor]
    exact Dvd.dvd.mul_left (pow_dvd_pow 2 hfs16.1) _
  have hquot := le_quot_of_le hlt hfs16.2 hdvd le_rfl hle
  rw [linedUp, hfs, Nat.add_sub_cancel_left, hq]
  rw [Nat.add_sub_cancel] at hquot
  exact Nat.le_add_right_of_le hquot

/-- Mantissas that differ behind their first digits only. -/
theorem linedUp_close (h1 : f1.Normal) (h2 : f2.Normal)
    (hhead : f1.mant.headD 0 = f2.mant.headD 0)
    (hlt : val fbase f1.digits < val fbase f2.digits) {q : Nat}
    (hq : q = quot (dividend f1 f2) (divisor f1 f2) 129) :
    fbase ^ 6 ≤ linedUp f1 f2 q ∧ (fbase ^ 7 ≤ linedUp f1 f2 q ↔
      ∑ t ∈ Finset.Icc 2 114, val fbase f2.digits * 2 ^ 16 / 2 ^ t ≤
        val fbase f1.digits * 2 ^ 15) := by
  obtain ⟨-, -, hv1, -, -, -, hh1⟩ := h1.mantissa
  obtain ⟨-, -, hv2, -, hp2, -, hh2⟩ := h2.mantissa
  have hn : Nat.size (f1.mant.headD 0 / f2.mant.headD 0) = 1 := by
    rw [hhead, Nat.div_self hp2]
    rfl
  have hm : Nat.size (f2.mant.headD 0 / (f1.mant.headD 0 + 1)) = 0 := by
    rw [hhead, Nat.div_eq_of_lt (Nat.lt_succ_self _), Nat.size_zero]
  have ha : dividend f1 f2 = val fbase f1.digits * 2 ^ 15 := by
    rw [dividend, hn]
    omega
  have hd : divisor f1 f2 = val fbase f2.digits * 2 ^ 16 := by
    rw [divisor, hm]
    simp
  have hplaces : quotPlaces f1 f2 = 113 := by
    rw [quotPlaces, bitDiffOf, hn, hm]
    rfl
  have hnear : val fbase f2.digits < 2 * val fbase f1.digits := by
    rw [hv1] at hh1
    rw [hv2] at hh2
    omega
  rw [linedUp, hplaces, hq, ha, hd]
  generalize val fbase f1.digits = V1 at hlt hnear ⊢
  generalize val fbase f2.digits = V2 at hlt hnear ⊢
  have hsmall : V1 * 2 ^ 15 < V2 * 2 ^ 16 := by omega
  constructor
  · have hquot := le_quot_of_le hsmall (by decide : 2 ≤ 16) (Dvd.dvd.mul_left (by decide) _) le_rfl
      (by omega)
    have hhalf : quot (V1 * 2 ^ 15) (V2 * 2 ^ 16) 129 / 2 ^ (16 - 2) / 2 =
        quot (V1 * 2 ^ 15) (V2 * 2 ^ 16) 129 / 2 ^ (16 - (113 - 112)) :=
      (Nat.div_div_eq_div_mul ..).trans (congrArg _ (by decide))
    have h6 : fbase ^ 6 ≤ 2 ^ (112 + 2 - 2) / 2 := by decide
    rw [← hhalf]
    exact Nat.le_add_right_of_le (h6.trans (Nat.div_le_div_right hquot))
  · rw [lined_up rfl (by decide : 113 - 112 ≤ 15), show 112 + (113 - 112) + 2 = 112 + 3 by rfl,
      ← quot_ones_iff (by omega) (Dvd.dvd.mul_left (by decide) _) 112]
    have hzero : quot (V1 * 2 ^ 15) (V2 * 2 ^ 16) (112 + 3) < 2 ^ 113 := by
      have hcut := quot_div (a := V1 * 2 ^ 15) (d := V2 * 2 ^ 16) 2 113
      have hfirst := (quot_rem_exact hsmall (z := 16) (Nat.dvd_mul_left ..) (k := 1) (by decide)).1
      rw [Nat.div_eq_of_lt (a := V1 * 2 ^ 15 * 2 ^ 1) (by omega)] at hfirst
      exact (Nat.div_eq_zero_iff_lt (Nat.two_pow_pos _)).1 (hcut.trans hfirst)
    rw [show fbase ^ 7 = 2 ^ 112 by decide]
    generalize quot (V1 * 2 ^ 15) (V2 * 2 ^ 16) (112 + 3) = x at hzero ⊢
    norm_num at hzero ⊢
    omega

/-- A quotient has a first digit, and its exponent is the difference of the exponents or one
less. -/
theorem fltDiv_leading (h1 : f1.Leading) (h2 : f2.Leading) (hres : res.Stored) (stray : Stray) :
    ∃ g : Flt, g.Leading ∧ g.exp = quotientExp f1 f2 ∧
      (fltDiv stray f1 f2 res = .ok (.okay, g) ∨
        stray = .stops ∧ fltDiv stray f1 f2 res = .error .outside) := by
  have hn1 := h1.isNormal
  have hn2 := h2.isNormal
  obtain ⟨hlt, hd, hge, hlo, hhi, start, hinv, hrun⟩ := fltDiv_start hn1 hn2
  have hs1 : f1.sign ≠ 0 := by have := h1.sign; omega
  have hs2 : f2.sign ≠ 0 := by have := h2.sign; omega
  obtain ⟨s, -, hrl, hrb, hrv⟩ :=
    (divLoop_spec hlt hd hge .lost hinv (n := 144) hd).resolve_left
      fun h => absurd h.2.1 (by decide)
  have hQlt : val fbase s.r < 2 ^ 128 := by
    rw [hrv]
    exact quot_lt hlt 128
  obtain ⟨sh, hexp, hql, hqb, hqv, hsh⟩ :=
    lineUp_spec (f1.exp - f2.exp) hrl hrb hQlt hlo hhi rfl
  have hM : val fbase s.r / 2 ^ (16 - (if bitDiffOf f1 f2 > 0 then (bitDiffOf f1 f2).toNat
      else (16 + bitDiffOf f1 f2).toNat)) + roundBit (val fbase s.r % 65536)
        (if bitDiffOf f1 f2 > 0 then (bitDiffOf f1 f2).toNat
          else (16 + bitDiffOf f1 f2).toNat) = linedUp f1 f2 (val fbase s.r) := by
    rw [linedUp, quotPlaces, Nat.add_sub_cancel_left]
  rw [hM] at hqv hsh
  have hne : (lineUp (bitDiffOf f1 f2) (f1.exp - f2.exp) s.r).1 ≠ [] := by
    intro h0
    rw [h0] at hql
    exact absurd hql (by decide)
  have hpos : bitDiffOf f1 f2 > 0 ↔ _ := bitDiffOf_pos_iff hn2
  -- the digits are moved up only if the quotient is below one, and then they have a first one
  have hform : fbase ^ 7 ≤ linedUp f1 f2 (val fbase s.r) * fbase ^ sh ∧
      (lineUp (bitDiffOf f1 f2) (f1.exp - f2.exp) s.r).2 = quotientExp f1 f2 := by
    rw [hexp, hsh, quotientExp]
    by_cases hclose : f1.mant.headD 0 = f2.mant.headD 0 ∧
        val fbase f1.digits < val fbase f2.digits
    · obtain ⟨hsix, hseven⟩ := linedUp_close hn1 hn2 hclose.1 hclose.2 hrv
      have hbelow : Below f1 f2 ↔ ¬fbase ^ 7 ≤ linedUp f1 f2 (val fbase s.r) := by
        rw [hseven, Below, Nat.not_le]
        exact ⟨fun h => (h.resolve_left (by omega)).2.2, fun h => .inr ⟨hclose.1, hclose.2, h⟩⟩
      rw [if_pos (hpos.2 hclose.1.ge)]
      by_cases hM7 : fbase ^ 7 ≤ linedUp f1 f2 (val fbase s.r)
      · rw [if_pos hM7, if_neg fun h => hbelow.1 h hM7]
        exact ⟨by simpa using hM7, rfl⟩
      · rw [if_neg hM7, if_pos (hbelow.2 hM7)]
        refine ⟨?_, rfl⟩
        calc fbase ^ 7 = fbase ^ 6 * fbase ^ 1 := pow_add fbase 6 1
          _ ≤ linedUp f1 f2 (val fbase s.r) * fbase ^ 1 := Nat.mul_le_mul_right _ hsix
    · have hM7 := linedUp_first hn1 hn2 (fun h => Nat.not_lt.1 fun hlt' => hclose ⟨h, hlt'⟩) hrv
      rw [if_pos hM7]
      refine ⟨by simpa using hM7, ?_⟩
      have hbelow : Below f1 f2 ↔ ¬bitDiffOf f1 f2 > 0 := by
        rw [hpos, Below, Nat.not_le]
        exact ⟨fun h => h.resolve_right fun h' => hclose ⟨h'.1, h'.2.1⟩, .inl⟩
      by_cases hb : bitDiffOf f1 f2 > 0
      · rw [if_pos hb, if_neg fun h => hbelow.1 h hb]
        simp
      · rw [if_neg hb, if_pos (hbelow.2 hb)]
        simp
  have hsign : (if f1.sign = f2.sign then (1 : Int) else -1) = -1 ∨
      (if f1.sign = f2.sign then (1 : Int) else -1) = 1 := by
    split <;> simp
  refine ⟨{ res.store (lineUp (bitDiffOf f1 f2) (f1.exp - f2.exp) s.r).1 with
    sign := if f1.sign = f2.sign then 1 else -1
    exp := (lineUp (bitDiffOf f1 f2) (f1.exp - f2.exp) s.r).2 },
    ⟨hres.store hql hqb _ _, hsign, ?_⟩, hform.2, ?_⟩
  · rw [Flt.store, headD_append hne, headD_ne_zero_iff hqb hne, hql, hqv]
    exact hform.1
  · rw [hrun stray res hs1 hs2]
    rcases divLoop_spec hlt hd hge stray hinv (n := 144) hd with
      ⟨hloop, hst, -⟩ | ⟨s', hloop, hrl', hrb', hrv'⟩
    · rw [hloop]
      exact .inr ⟨hst, rfl⟩
    · have hsame : s'.r = s.r :=
        val_inj hrb' hrb (hrl'.trans hrl.symm) (hrv'.trans hrv.symm)
      rw [hloop]
      exact .inl (by rw [← hsame]; rfl)

/-- A quotient has to have an exponent in the range. -/
def QuotientFits (f1 f2 : Flt) : Prop :=
  f1.sign ≠ 0 → f2.sign ≠ 0 → eMin ≤ quotientExp f1 f2 ∧ quotientExp f1 f2 ≤ eMax

theorem fltDiv_closed_iff (h1 : f1.LegalForm) (h2 : f2.LegalForm) (hres : res.Stored) :
    (∀ stray g, fltDiv stray f1 f2 res = .ok (.okay, g) → g.LegalForm) ↔ QuotientFits f1 f2 := by
  by_cases hs2 : f2.sign = 0
  · refine iff_of_true (fun stray g hrun => ?_) fun _ h => absurd hs2 h
    rw [fltDiv, if_pos hs2] at hrun
    exact absurd (congrArg Prod.fst (Except.ok.inj hrun)) (by simp)
  by_cases hs1 : f1.sign = 0
  · refine iff_of_true (fun stray g hrun => ?_) fun h => absurd hs1 h
    rw [fltDiv, if_neg hs2, if_pos hs1] at hrun
    obtain rfl := congrArg Prod.snd (Except.ok.inj hrun)
    exact fltZero_legalForm hres
  constructor
  · intro hall _ _
    obtain ⟨g, hlead, hexp, hrun⟩ :=
      fltDiv_leading (h1.leading hs1) (h2.leading hs2) hres .lost
    have hok := hrun.resolve_right fun h => absurd h.1 (by decide)
    rw [← hexp]
    exact hlead.legalForm_iff.1 (hall _ _ hok)
  · intro hfits stray g hrun
    obtain ⟨g', hlead, hexp, hcase⟩ :=
      fltDiv_leading (h1.leading hs1) (h2.leading hs2) hres stray
    rw [hrun] at hcase
    have heq := hcase.resolve_right fun h => absurd h.2 (by simp)
    obtain rfl := congrArg Prod.snd (Except.ok.inj heq)
    rw [hlead.legalForm_iff, hexp]
    exact hfits hs1 hs2

end

/-- A number of one digit at an exponent. -/
def digitAt (d : Nat) (e : Int) : Flt := ⟨d :: List.replicate 9 0, 1, e⟩

theorem digitAt_legalForm {d : Nat} (hd : 0 < d) (hlt : d < fbase) {e : Int} (hlo : eMin ≤ e)
    (hhi : e ≤ eMax) : (digitAt d e).LegalForm := by
  have hlead : (digitAt d e).Leading :=
    ⟨⟨rfl, bounded_cons.2 ⟨hlt, bounded_replicate_zero fbase_pos 9⟩⟩, .inr rfl, hd.ne'⟩
  exact hlead.legalForm_iff.2 ⟨hlo, hhi⟩

end Tendra.Ref
