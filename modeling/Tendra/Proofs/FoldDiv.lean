import Tendra.Proofs.FltRound
import Tendra.Proofs.FoldExact

/-!
# Folding of division and remainder

The quotient that `flt_div` delivers is not exact, but its digits before the
point are, and so is whether anything follows them: rounding it to an integer
gives the floor or the truncated quotient. The remainders are computed from
there by `mult_fn`, `neg_fn` and `plus_fn`, and inherit the stop of `mult_fn`
under `CHECK_EXTRA`.

The quotient loop of `flt_div` stores past the end of its array for some
operands. The results are about the operands for which it does not, and about
all operands where such a store falls on memory that nothing reads.
-/

namespace Tendra.Ref

open Tendra.Word Tendra.Digits

/-- `flt_div` stays inside its arrays on these two integers. -/
def DivFits (a b : Int) : Prop :=
  ∀ f1 f2 res : Flt, f1.Is a → f2.Is b → fltDiv .stops f1 f2 res ≠ .error .outside

/-- The pool holds the number one where `init_flpt` put it. -/
def Pool.HasOne (p : Pool) : Prop := p.Live p.foneNo ∧ (p.nos p.foneNo).Is 1

theorem Pool.HasOne.keeps {p q : Pool} (h : p.HasOne) (hk : p.Keeps q) : q.HasOne := by
  refine ⟨by rw [hk.one]; exact hk.live _ h.1, ?_⟩
  rw [hk.one, hk.nos _ h.1]
  exact h.2

/-- The pool that `init_flpt` builds has the number one. -/
theorem Pool.init_hasOne (mem : Nat → Flt) : (Pool.init mem).HasOne := by
  obtain ⟨p, f, g, hok, hz, ho, heq⟩ := Pool.init_spec mem
  have hone : (Pool.init mem).foneNo = p.foneNo := by rw [heq]; rfl
  have hlive := (Pool.set_live f hz.2).2 ho
  refine ⟨?_, ?_⟩
  · rw [hone, heq]
    exact (Pool.set_live _ hlive.2).2 hlive
  · rw [hone, heq, Pool.set_nos_self]
    exact @Flt.is_store_zero g [1] 1 1 0 rfl (by decide)
      (bounded_cons.2 ⟨by decide, bounded_nil⟩) rfl rfl (by decide)

/-- An even division stays inside. -/
theorem divFits_of_dvd {a b : Int} (hb : b ≠ 0) (ha64 : a.natAbs < 2 ^ 64)
    (hb64 : b.natAbs < 2 ^ 64) (hdvd : b ∣ a) : DivFits a b := by
  intro f1 f2 res h1 h2 herr
  by_cases ha : a = 0
  · rw [fltDiv, if_neg (mt h2.sign_eq_zero.1 hb), if_pos (h1.sign_eq_zero.2 ha)] at herr
    exact absurd herr (by simp)
  · rcases fltDiv_spec .stops h1 h2 ha hb ha64 hb64 res with ⟨-, -, hn⟩ | ⟨f, G, hok, -⟩
    · exact hn hdvd
    · rw [hok] at herr
      exact absurd herr (by simp)

/-! ## Integer division by magnitudes -/

theorem tdiv_eq_natAbs {a b : Int} (ha : a ≠ 0) (hb : b ≠ 0) :
    a.tdiv b = (if a.sign = b.sign then 1 else -1) * ((a.natAbs / b.natAbs : Nat) : Int) := by
  rcases Int.lt_or_gt_of_ne ha with h | h <;> rcases Int.lt_or_gt_of_ne hb with h' | h'
  · obtain ⟨n, rfl⟩ : ∃ n : Nat, a = -(n : Int) := ⟨a.natAbs, by omega⟩
    obtain ⟨m, rfl⟩ : ∃ m : Nat, b = -(m : Int) := ⟨b.natAbs, by omega⟩
    rw [Int.sign_eq_neg_one_of_neg h, Int.sign_eq_neg_one_of_neg h', if_pos rfl]
    simp [Int.neg_tdiv, Int.tdiv_neg]
  · obtain ⟨n, rfl⟩ : ∃ n : Nat, a = -(n : Int) := ⟨a.natAbs, by omega⟩
    obtain ⟨m, rfl⟩ : ∃ m : Nat, b = (m : Int) := ⟨b.natAbs, by omega⟩
    rw [Int.sign_eq_neg_one_of_neg h, Int.sign_eq_one_of_pos h', if_neg (by decide)]
    simp [Int.neg_tdiv]
  · obtain ⟨n, rfl⟩ : ∃ n : Nat, a = (n : Int) := ⟨a.natAbs, by omega⟩
    obtain ⟨m, rfl⟩ : ∃ m : Nat, b = -(m : Int) := ⟨b.natAbs, by omega⟩
    rw [Int.sign_eq_one_of_pos h, Int.sign_eq_neg_one_of_neg h', if_neg (by decide)]
    simp [Int.tdiv_neg]
  · obtain ⟨n, rfl⟩ : ∃ n : Nat, a = (n : Int) := ⟨a.natAbs, by omega⟩
    obtain ⟨m, rfl⟩ : ∃ m : Nat, b = (m : Int) := ⟨b.natAbs, by omega⟩
    rw [Int.sign_eq_one_of_pos h, Int.sign_eq_one_of_pos h', if_pos rfl]
    simp

/-- The floor is the truncated quotient, less one where the signs differ and the
division is not even. -/
theorem fdiv_eq_natAbs {a b : Int} (ha : a ≠ 0) (hb : b ≠ 0) :
    a.fdiv b = (if a.sign = b.sign then 1 else -1) *
      ((a.natAbs / b.natAbs + if a.sign ≠ b.sign ∧ ¬ b ∣ a then 1 else 0 : Nat) : Int) := by
  have ht := tdiv_eq_natAbs ha hb
  have hf : a.fdiv b = a.tdiv b - if a.sign ≠ b.sign ∧ ¬ b ∣ a then 1 else 0 := by
    rw [Int.fdiv_eq_tdiv]
    congr 1
    by_cases hd : b ∣ a
    · rw [if_pos hd, if_neg fun h => h.2 hd]
    · rw [if_neg hd]
      rcases Int.lt_or_gt_of_ne ha with h | h <;> rcases Int.lt_or_gt_of_ne hb with h' | h'
      · rw [if_neg (by omega), if_neg (by omega), Int.sign_eq_neg_one_of_neg h,
          Int.sign_eq_neg_one_of_neg h', if_neg fun h => h.1 rfl]
        rfl
      · rw [if_neg (by omega), if_pos (by omega), Int.sign_eq_neg_one_of_neg h,
          Int.sign_eq_one_of_pos h', if_pos ⟨by decide, hd⟩]
      · rw [if_pos (by omega), if_neg (by omega), Int.sign_eq_one_of_pos h,
          Int.sign_eq_neg_one_of_neg h', if_pos ⟨by decide, hd⟩]
      · rw [if_pos (by omega), if_pos (by omega), Int.sign_eq_one_of_pos h,
          Int.sign_eq_one_of_pos h', if_neg fun h => h.1 rfl]
  rw [hf, ht]
  by_cases hs : a.sign = b.sign
  · simp [hs]
  · simp only [hs, if_false, ne_eq, not_false_eq_true, true_and]
    split <;> push_cast <;> ring

/-! ## The quotient -/

/-- The integer quotient that a rounding mode asks for. -/
def roundQuot (floor : Bool) (a b : Int) : Int := if floor then a.fdiv b else a.tdiv b

theorem Flt.IntegerIs.toF64 {f : Flt} {v : Int} (h : f.IntegerIs v) (sg : Bool) :
    ∃ x ov, fltToF64 f sg = .ok (x, ov) ∧ x.bits = BitVec.ofInt 64 v := by
  obtain ⟨x, ov, hx, hbits, -⟩ := fltToF64_intPart h.len h.bounded h.exp h.sign sg
  exact ⟨x, ov, hx, by rw [hbits, h.val]⟩

/-- Dividing and rounding two integers, in the emulator. -/
theorem quotient_integerIs {f g one : Flt} {a b : Int} {stray : Stray} (hf : f.Is a) (hg : g.Is b)
    (hone : one.Is 1) (hb : b ≠ 0) (ha64 : a.natAbs < 2 ^ 64) (hb64 : b.natAbs < 2 ^ 64)
    (hin : stray = .lost ∨ DivFits a b) (floor : Bool) (junk : Flt) :
    ∃ r, (do
        let (_, q) ← fltDiv stray f g junk
        flptRoundToInteger (if floor then .r2ninf else .r2zero) one q) = .ok r ∧
      r.IntegerIs (roundQuot floor a b) := by
  by_cases ha : a = 0
  · have hz : fltDiv stray f g junk = .ok (.okay, fltZero junk) := by
      rw [fltDiv, if_neg (mt hg.sign_eq_zero.1 hb), if_pos (hf.sign_eq_zero.2 ha)]
    have h0 := fltZero_is junk
    refine ⟨fltZero junk, ?_, h0.len, h0.bounded,
      by rw [show (fltZero junk).exp = 0 from rfl]; decide,
      .inl rfl, ?_⟩
    · simp only [hz, bind, Except.bind, flptRoundToInteger]
      rw [if_pos (show (fltZero junk).sign = 0 from rfl)]
    · rw [show (fltZero junk).sign = 0 from rfl, ha, roundQuot]
      simp
  · rcases fltDiv_spec stray hf hg ha hb ha64 hb64 junk with
      ⟨herr, hst, -⟩ | ⟨q, G, hok, hlen, hbd, hsign, hexp, hG, hdiv, hmod⟩
    · rcases hin with h | h
      · rw [h] at hst
        exact absurd hst (by decide)
      · rw [hst] at herr
        exact absurd herr (h f g junk hf hg)
    · have hs : q.sign = 1 ∨ q.sign = -1 := by
        rw [hsign]
        split
        · exact .inl rfl
        · exact .inr rfl
      simp only [hok, bind, Except.bind]
      cases floor
      · obtain ⟨r, hr, his⟩ := @toInteger_zero q one G hlen hbd hexp hG hs
        refine ⟨r, hr, ?_⟩
        rw [hsign, hdiv, ← tdiv_eq_natAbs ha hb] at his
        exact his
      · have hnz : 8 ≤ G → val fbase q.digits ≠ 0 := by
          -- a zero quotient would make the division even
          intro _ hz
          rw [hz] at hdiv hmod
          have hdvd := Int.natAbs_dvd_natAbs.2 (hmod.1 (Nat.zero_mod _))
          have hle := Nat.le_of_dvd (by omega) hdvd
          have := Nat.div_pos hle (by omega)
          rw [Nat.zero_div] at hdiv
          omega
        obtain ⟨r, hr, his⟩ := toInteger_ninf hlen hbd hexp hG hs hone hnz
        refine ⟨r, hr, ?_⟩
        have hneg : (q.sign = -1 ∧ val fbase q.digits % fbase ^ G ≠ 0) ↔
            (a.sign ≠ b.sign ∧ ¬ b ∣ a) := by
          rw [hsign, ne_eq, hmod]
          refine and_congr_left fun _ => ?_
          split
          · next h => simp [h]
          · next h => simp [h]
        simp only [hneg] at his
        rw [hsign, hdiv, ← fdiv_eq_natAbs ha hb] at his
        exact his

/-! ## The folding functions -/

/-- A copy of a constant is one with the same value. -/
theorem copyConst_wrote {p : Pool} {e : Node} {v : Int} (hok : p.Ok) (h : Canon p e v) :
    Wrote p e v (copyConst p e).1 (copyConst p e).2 := by
  by_cases hp : PlainInt e.sh v
  · have hres : copyConst p e = (p, e) := by
      rw [copyConst, (h.plain hp).1]
      rfl
    rw [hres]
    exact ⟨hok, Pool.Keeps.refl p, rfl, rfl, h⟩
  · obtain ⟨hbig, i, hi, hlive, his⟩ := h.big hp
    have hres : copyConst p e =
        (p.new.2.set p.new.1 (fltCopy (p.new.2.nos i) (p.new.2.nos p.new.1)),
          { e with no := p.new.1 }) := by
      rw [copyConst, hbig, hi]
      rfl
    have htook := (Pool.new_took hok).set (fltCopy (p.new.2.nos i) (p.new.2.nos p.new.1))
    rw [hres]
    refine ⟨htook.ok, htook.keeps, rfl, rfl, h.range, fun hn => absurd hn hp, fun _ =>
      ⟨?_, p.new.1, rfl, htook.live, ?_⟩⟩
    · rw [isbigval_eq] at hbig ⊢
      exact hbig
    · rw [Pool.set_nos_self]
      refine fltCopy_is ?_ _
      rw [(Pool.new_took hok).keeps.nos i hlive]
      exact his

/-- What `domod` and `dorem2` put together: the wrapped parts give the wrapped
whole. -/
theorem wrap_rem (sg : Bool) (n : Nat) (a b q : Int) :
    wrap sg n (a + wrap sg n (-wrap sg n (b * wrap sg n q))) = wrap sg n (a - b * q) := by
  simp only [wrap]
  rw [BitVec.ofInt_add, ofInt_decode, BitVec.ofInt_neg, ofInt_decode, BitVec.ofInt_mul,
    ofInt_decode, ← BitVec.ofInt_mul, ← BitVec.ofInt_neg, ← BitVec.ofInt_add, Int.sub_eq_add_neg]

section Operands

variable {st : FoldSt} {ap b : Node} {va vb : Int}
variable (hok : st.pool.Ok) (hone : st.pool.HasOne) (hs : ap.sh.IsInt) (hbs : b.sh = ap.sh)
variable (ha : Canon st.pool ap va) (hb : Canon st.pool b vb) (hnz : vb ≠ 0)
variable (hin : st.stray = .lost ∨ DivFits va vb)

include hok hone hs hbs ha hb hnz hin

/-- `dodiv1` and `dodiv2`. -/
theorem divFn_folded (floor : Bool) :
    Folded st ap (wrap ap.sh.isSigned ap.sh.size (roundQuot floor va vb))
      (divFn (if floor then .r2ninf else .r2zero) st ap b) := by
  have hla := ha.natAbs_lt hs
  have hlb := hb.natAbs_lt (hbs ▸ hs)
  obtain ⟨fa, fb, p', x, ov, hvia, hbits, hok', hk⟩ :=
    viaFlt_spec hok hs hbs ha hb
      (fun p f g => do
        let (_, q) ← fltDiv st.stray f g st.junk
        flptRoundToInteger (if floor then .r2ninf else .r2zero) (p.nos p.foneNo) q)
      (P := fun x _ => x.bits = BitVec.ofInt 64 (roundQuot floor va vb)) fun q f g hkeep hf hg => by
        obtain ⟨r, hr, his⟩ := quotient_integerIs hf hg (hone.keeps hkeep).2 hnz hla hlb hin floor
          st.junk
        obtain ⟨x, ov, hx, hbits⟩ := his.toF64 ap.sh.isSigned
        exact ⟨r, x, ov, hr, hx, hbits⟩
  rw [← wrap_of_bits hs hbits]
  rw [divFn, hvia]
  exact release_folded hs rfl rfl hok' hk

/-- `domod` and `dorem2`: exact, or stopped by `mult_fn`. -/
theorem remFn_folded (floor : Bool) :
    let q := wrap ap.sh.isSigned ap.sh.size (roundQuot floor va vb)
    let r := remFn (divFn (if floor then .r2ninf else .r2zero)) st ap b
    if st.checkExtra = true ∧ MultOut ap.sh (vb * q) then r = .error .exits
    else Folded st ap (wrap ap.sh.isSigned ap.sh.size (va - vb * roundQuot floor va vb))
      (r.map fun r => (r.1, r.2.1)) := by
  intro q r
  -- the quotient goes to a copy of the dividend
  have w1 := copyConst_wrote hok ha
  generalize hc : copyConst st.pool ap = c at w1
  obtain ⟨p1, top⟩ := c
  dsimp only at w1
  have hs1 : top.sh.IsInt := w1.sh ▸ hs
  obtain ⟨p2, top', hdiv, w2, -⟩ := @divFn_folded { st with pool := p1 } _ _ _ _ w1.ok
    (hone.keeps w1.keeps) hs1 (hbs.trans w1.sh.symm) w1.canon (hb.keeps w1.keeps) hnz hin floor
  dsimp only at hdiv w2
  rw [w1.sh] at w2
  have hk2 := w1.keeps.trans w2.keeps
  have hmult := @multFn_folded { st with pool := p2 } b _ _ _ w2.ok (hbs ▸ hs)
    ((w2.sh.trans w1.sh).trans hbs.symm) (hb.keeps hk2) w2.canon wrapErr
  rw [hbs] at hmult
  have hrun : r = (multFn { st with pool := p2 } b top' wrapErr).bind fun s =>
      (negFn s.1 s.2).bind fun s' => (plusFn s'.1 ap s'.2 wrapErr).bind fun s'' =>
        .ok (s''.1, s''.2, s'.2) := by
    simp only [r, remFn, hc, hdiv, bind, Except.bind, pure, Except.pure]
  dsimp only at hmult
  split at hmult
  · next h => rw [if_pos h, hrun, hmult]; rfl
  · next h =>
      rw [if_neg h]
      obtain ⟨p3, b3, hm, w3, -⟩ := hmult
      dsimp only at hm w3
      obtain ⟨p4, b4, hn, w4, -⟩ := @negFn_folded { st with pool := p3 } _ _ w3.ok
        (w3.sh ▸ hbs ▸ hs) w3.canon
      dsimp only at hn w4
      have hk4 := (hk2.trans w3.keeps).trans w4.keeps
      have hsh4 := (w4.sh.trans w3.sh).trans hbs
      have hplus := @plusFn_folded { st with pool := p4 } _ _ _ _ w4.ok hs hsh4 (ha.keeps hk4)
        w4.canon wrapErr
      rw [w3.sh, hbs, wrap_rem] at hplus
      obtain ⟨p5, a5, hp, w5, hx⟩ := hplus
      dsimp only at hp w5
      refine ⟨p5, a5, ?_, ⟨w5.ok, hk4.trans w5.keeps, w5.sh, w5.tag, w5.canon⟩, hx⟩
      rw [hrun, hm]
      simp only [Except.bind, hn, hp]
      rfl

/-- Folding of division and remainder is exact: the quotients are the floor and
the truncated quotient, and the remainders belong to them, each reduced to the
shape. Under `CHECK_EXTRA` a remainder is not folded when the signed product
on the way is out of bounds. -/
theorem div_exact :
    Folded st ap (wrap ap.sh.isSigned ap.sh.size (va.fdiv vb)) (dodiv1 st ap b) ∧
    Folded st ap (wrap ap.sh.isSigned ap.sh.size (va.tdiv vb)) (dodiv2 st ap b) ∧
    (if st.checkExtra = true ∧
        MultOut ap.sh (vb * wrap ap.sh.isSigned ap.sh.size (va.fdiv vb))
      then domod st ap b = .error .exits
      else Folded st ap (wrap ap.sh.isSigned ap.sh.size (va - vb * va.fdiv vb))
        ((domod st ap b).map fun r => (r.1, r.2.1))) ∧
    (if st.checkExtra = true ∧
        MultOut ap.sh (vb * wrap ap.sh.isSigned ap.sh.size (va.tdiv vb))
      then dorem2 st ap b = .error .exits
      else Folded st ap (wrap ap.sh.isSigned ap.sh.size (va - vb * va.tdiv vb))
        ((dorem2 st ap b).map fun r => (r.1, r.2.1))) :=
  ⟨divFn_folded hok hone hs hbs ha hb hnz hin true,
    divFn_folded hok hone hs hbs ha hb hnz hin false,
    remFn_folded hok hone hs hbs ha hb hnz hin true,
    remFn_folded hok hone hs hbs ha hb hnz hin false⟩

end Operands

/-- The theorem at 20 and 5, where no store leaves `r`, and at -20 and 3, with
stores past its end that are lost. -/
theorem div_exact_at :
    Folded (startSt true) (intConst (intShape 32 true) 20) 4
      (dodiv1 (startSt true) (intConst (intShape 32 true) 20) (intConst (intShape 32 true) 5)) ∧
    Folded { startSt true with stray := .lost } (intConst (intShape 32 true) (-20)) 1
      ((domod { startSt true with stray := .lost } (intConst (intShape 32 true) (-20))
        (intConst (intShape 32 true) 3)).map fun r => (r.1, r.2.1)) := by
  refine ⟨?_, ?_⟩
  · exact (@div_exact (startSt true) (intConst (intShape 32 true) 20)
      (intConst (intShape 32 true) 5) 20 5 (Pool.init_ok _)
      (Pool.init_hasOne _) (intShape32_isInt true) rfl (intConst_canon (by decide))
      (intConst_canon (by decide)) (by decide)
      (.inr (divFits_of_dvd (by decide) (by decide) (by decide) (by decide)))).1
  · have h := (@div_exact { startSt true with stray := .lost } (intConst (intShape 32 true) (-20))
      (intConst (intShape 32 true) 3) (-20) 3 (Pool.init_ok _) (Pool.init_hasOne _)
      (intShape32_isInt true) rfl
      (intConst_canon (by decide)) (intConst_canon (by decide)) (by decide) (.inl rfl)).2.2.1
    rw [if_neg (by decide)] at h
    exact h

/-- With `CHECK_EXTRA` set, `domod` does not fold the least `int` modulo -1. -/
theorem domod_exits :
    Canon (startSt true).pool (intConst (intShape 32 true) (-2 ^ 31)) (-2 ^ 31) ∧
    Canon (startSt true).pool (intConst (intShape 32 true) (-1)) (-1) ∧
    ¬ Folded (startSt true) (intConst (intShape 32 true) (-2 ^ 31))
      (wrap true 32 (-2 ^ 31 - -1 * (-2 ^ 31 : Int).fdiv (-1)))
      ((domod (startSt true) (intConst (intShape 32 true) (-2 ^ 31))
        (intConst (intShape 32 true) (-1))).map fun r => (r.1, r.2.1)) := by
  have ha : Canon (startSt true).pool (intConst (intShape 32 true) (-2 ^ 31)) (-2 ^ 31) :=
    intConst_canon (by decide)
  have hb : Canon (startSt true).pool (intConst (intShape 32 true) (-1)) (-1) :=
    intConst_canon (by decide)
  have h := @remFn_folded (startSt true) (intConst (intShape 32 true) (-2 ^ 31))
    (intConst (intShape 32 true) (-1)) (-2 ^ 31) (-1) (Pool.init_ok _)
    (Pool.init_hasOne _) (intShape32_isInt true) rfl ha hb (by decide)
    (.inr (divFits_of_dvd (by decide) (by decide) (by decide) (by decide))) true
  dsimp only at h
  rw [if_pos ⟨rfl, by decide⟩] at h
  refine ⟨ha, hb, ?_⟩
  rintro ⟨p', a', hr, -⟩
  have hstop : domod (startSt true) (intConst (intShape 32 true) (-2 ^ 31))
      (intConst (intShape 32 true) (-1)) = .error .exits := h
  rw [hstop] at hr
  exact absurd hr (by simp [Except.map])

end Tendra.Ref
