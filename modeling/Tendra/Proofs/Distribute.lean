import Tendra.Proofs.FoldDiv
import Tendra.Proofs.IntExp

/-!
# Multiplication of a sum with a constant

`refactor` multiplies the numbers of the two constants as ints, whatever they are the numbers of,
and stores the product as it is. That is right for every 32-bit product; in the other shapes the
exact product has to be a value that is held as an `int`, and indices into the pool multiply to
the number of the product by chance only.
-/

namespace Tendra.Ref

open Tendra.Word

/-- Reduction of the parts of a product or a sum makes no difference. -/
theorem wrap_distrib (sg : Bool) (n : Nat) (a b c : Int) :
    wrap sg n (wrap sg n (a + b) * c) = wrap sg n (wrap sg n (a * c) + wrap sg n (b * c)) := by
  simp only [wrap]
  rw [BitVec.ofInt_mul, ofInt_decode, BitVec.ofInt_add, BitVec.ofInt_add, ofInt_decode,
    ofInt_decode, BitVec.ofInt_mul, BitVec.ofInt_mul, BitVec.add_mul]

theorem ofInt_eq_iff {n : Nat} {a b : Int} :
    BitVec.ofInt n a = BitVec.ofInt n b ↔ ((2 ^ n : Nat) : Int) ∣ a - b := by
  have hpos : (0 : Int) < ((2 ^ n : Nat) : Int) := by positivity
  rw [← BitVec.toNat_inj, BitVec.toNat_ofInt, BitVec.toNat_ofInt, Int.dvd_iff_emod_eq_zero,
    ← Int.emod_eq_emod_iff_emod_sub_eq_zero]
  have ha := Int.emod_nonneg a hpos.ne'
  have hb := Int.emod_nonneg b hpos.ne'
  omega

/-- The numbers that multiply to the number of the product: 32-bit values, exact products that are
held as an `int`, and indices that happen to be congruent. -/
def MultFits (sh : Shape) (c1 c2 : Node) (v1 v2 : Int) : Prop :=
  if isbigval c1 = false ∧ isbigval c2 = false then
    sh.size = 32 ∨ sh.Has (v1 * v2) ∧ PlainInt sh (v1 * v2)
  else PlainInt sh (sh.wrap (v1 * v2)) ∧ (2 ^ 32 : Int) ∣ c2.no * c1.no - sh.wrap (v1 * v2)

/-- `refactor` replaces the product, the constant that it makes is the canonical representation of
`w`, and the new expression has the value of the old one whatever `a` has. -/
def Distributed (p : Pool) (n n1 c1 c2 : Node) (a : Exp) (w : Int) : Prop :=
  ∃ p' n' m c2' k,
    refactorMult p (.mk n [.mk n1 [a, .mk c1 []], .mk c2 []]) =
      some (p', .mk n' [.mk m [a, .mk c2' []], .mk k []]) ∧
    Canon p' k w ∧ ∀ va,
      intPrim p' n' [intPrim p' m [va, constVal p' c2'], constVal p' k] =
        intPrim p n [intPrim p n1 [va, constVal p c1], constVal p c2]

theorem Canon.ofInt_no {p : Pool} {c : Node} {v : Int} (h : Canon p c v)
    (hbig : isbigval c = false) : BitVec.ofInt 32 c.no = BitVec.ofInt 32 v := by
  by_cases hp : PlainInt c.sh v
  · rw [(h.plain hp).2, BitVec.ofInt_toInt]
  · exact absurd (hbig.symm.trans (h.big hp).1) Bool.false_ne_true

/-- A constant with a plain number is canonical where its value is held so and is that number. -/
theorem canon_plain_iff {p : Pool} {c : Node} {w : Int} (hbig : isbigval c = false)
    (hr : InRange c.sh.isSigned c.sh.size w) {i : BitVec 32} (hno : c.no = i.toInt) :
    Canon p c w ↔ PlainInt c.sh w ∧ i = BitVec.ofInt 32 w := by
  constructor
  · intro h
    by_cases hp : PlainInt c.sh w
    · exact ⟨hp, BitVec.eq_of_toInt_eq (hno.symm.trans (h.plain hp).2)⟩
    · exact absurd (hbig.symm.trans (h.big hp).1) Bool.false_ne_true
  · rintro ⟨hp, rfl⟩
    exact ⟨hr, fun _ => ⟨hbig, hno⟩, fun hn => absurd hp hn⟩

/-- The product of two plain numbers. -/
theorem product_iff {sh : Shape} (hs : sh.IsInt) {v1 v2 : Int} (h1 : sh.Has v1) (h2 : sh.Has v2)
    (hp1 : PlainInt sh v1) (hp2 : PlainInt sh v2) :
    PlainInt sh (sh.wrap (v1 * v2)) ∧
    BitVec.ofInt 32 (v1 * v2) = BitVec.ofInt 32 (sh.wrap (v1 * v2)) ↔
      sh.size = 32 ∨ sh.Has (v1 * v2) ∧ PlainInt sh (v1 * v2) := by
  have hw : InRange sh.isSigned sh.size (sh.wrap (v1 * v2)) := decode_inRange hs.pos _
  have hcong : ((2 ^ sh.size : Nat) : Int) ∣ v1 * v2 - sh.wrap (v1 * v2) := by
    rw [← ofInt_eq_iff, Shape.wrap, wrap, ofInt_decode]
  rw [ofInt_eq_iff]
  generalize sh.wrap (v1 * v2) = w at *
  simp only [Shape.Has, InRange, PlainInt] at *
  cases hsg : sh.isSigned with
  | true =>
      simp only [hsg, if_true] at *
      have hmul : ∀ k : Nat, v1.natAbs ≤ k → v2.natAbs ≤ k → (v1 * v2).natAbs ≤ k * k :=
        fun k hk1 hk2 => by
          rw [Int.natAbs_mul]
          exact Nat.mul_le_mul hk1 hk2
      generalize v1 * v2 = P at *
      rcases hs.size with h | h | h | h
      · have := hmul (2 ^ 7) (by rw [h] at h1; omega) (by rw [h] at h2; omega)
        rw [h] at hw hcong ⊢
        omega
      · have := hmul (2 ^ 15) (by rw [h] at h1; omega) (by rw [h] at h2; omega)
        rw [h] at hw hcong ⊢
        omega
      · rw [h] at hw hcong ⊢
        omega
      · have := hmul (2 ^ 31) (by omega) (by omega)
        rw [h] at hw hcong ⊢
        omega
  | false =>
      simp only [hsg, Bool.false_eq_true, if_false] at *
      have hnonneg := Int.mul_nonneg h1.1 h2.1
      have hmul : ∀ k : Int, v1 ≤ k → v2 ≤ k → v1 * v2 ≤ k * k := fun k hk1 hk2 =>
        Int.mul_le_mul hk1 hk2 h2.1 (le_trans h1.1 hk1)
      generalize v1 * v2 = P at *
      rcases hs.size with h | h | h | h
      · have := hmul (2 ^ 8 - 1) (by rw [h] at h1; omega) (by rw [h] at h2; omega)
        rw [h] at hw hcong ⊢
        omega
      · have := hmul (2 ^ 16 - 1) (by rw [h] at h1; omega) (by rw [h] at h2; omega)
        rw [h] at hw hcong ⊢
        omega
      · rw [h] at hw hcong ⊢
        omega
      · have := hmul (2 ^ 31 - 1) (by omega) (by omega)
        rw [h] at hw hcong ⊢
        omega

section

variable {p : Pool} {n n1 c1 c2 : Node} {a : Exp} {v1 v2 : Int}
variable (hok : p.Ok) (hs : n.sh.IsInt) (hopt : optop n = true)
variable (htag : n.tag = .multTag) (htag1 : n1.tag = .plusTag) (hc1 : c1.tag = .valTag)
variable (hc2 : c2.tag = .valTag) (hn1 : n1.sh = n.sh) (h1 : c1.sh = n.sh) (h2 : c2.sh = n.sh)
variable (hv1 : Canon p c1 v1) (hv2 : Canon p c2 v2)

/-- The constant that is made. -/
def madeConst (sh : Shape) (c1 c2 : Node) : Node :=
  ⟨.valTag, sh, (BitVec.ofInt 32 (c2.no * c1.no)).toInt, 0, none, 0⟩

include h1 h2 hs hv1 hv2 in
/-- When the constant is the canonical product. -/
theorem madeConst_canon_iff {p' : Pool} :
    Canon p' (madeConst n.sh c1 c2) (n.sh.wrap (v1 * v2)) ↔ MultFits n.sh c1 c2 v1 v2 := by
  have hr : InRange n.sh.isSigned n.sh.size (n.sh.wrap (v1 * v2)) := decode_inRange hs.pos _
  have hplain : isbigval (madeConst n.sh c1 c2) = false := by
    rw [isbigval_eq]
    rfl
  rw [canon_plain_iff (c := madeConst n.sh c1 c2) hplain hr rfl, MultFits]
  split
  next hplain =>
    have hp1 : PlainInt c1.sh v1 := by
      by_contra hn
      exact absurd (hplain.1.symm.trans (hv1.big hn).1) Bool.false_ne_true
    have hp2 : PlainInt c2.sh v2 := by
      by_contra hn
      exact absurd (hplain.2.symm.trans (hv2.big hn).1) Bool.false_ne_true
    have hno : BitVec.ofInt 32 (c2.no * c1.no) = BitVec.ofInt 32 (v1 * v2) := by
      rw [BitVec.ofInt_mul, hv1.ofInt_no hplain.1, hv2.ofInt_no hplain.2, ← BitVec.ofInt_mul,
        Int.mul_comm]
    have hr1 := hv1.range
    have hr2 := hv2.range
    rw [h1] at hp1 hr1
    rw [h2] at hp2 hr2
    rw [hno]
    exact product_iff hs hr1 hr2 hp1 hp2
  next => rw [ofInt_eq_iff, show ((2 ^ 32 : Nat) : Int) = 2 ^ 32 from rfl]; exact Iff.rfl

include hopt htag htag1 hc1 hc2 in
theorem refactorMult_eq : refactorMult p (.mk n [.mk n1 [a, .mk c1 []], .mk c2 []]) =
    some ((copyConst p c2).1, .mk ⟨.plusTag, n.sh, 0, 0, none, 0⟩
      [.mk ⟨.multTag, n.sh, 0, 0, none, 0⟩ [a, .mk (copyConst p c2).2 []],
        .mk (madeConst n.sh c1 c2) []]) := by
  rw [refactorMult, if_pos ⟨hopt, htag, hc2, htag1, hc1⟩]
  rfl

include hopt htag htag1 hc1 hc2 in
theorem Distributed.canon {w : Int} (h : Distributed p n n1 c1 c2 a w) :
    Canon (copyConst p c2).1 (madeConst n.sh c1 c2) w := by
  obtain ⟨p', n', m, c2', k, hrun, hk, -⟩ := h
  rw [refactorMult_eq hopt htag htag1 hc1 hc2] at hrun
  obtain ⟨rfl, he⟩ := Prod.mk.inj (Option.some.inj hrun)
  have hargs := (Exp.mk.inj he).2
  have hconst := (List.cons.inj (List.cons.inj hargs).2).1
  rwa [(Exp.mk.inj hconst).1]

include hok hs hopt htag htag1 hc1 hc2 hn1 h1 h2 hv1 hv2 in
/-- Distribution over a sum makes the canonical product, and keeps the value, where the numbers of
the constants multiply to it, and nowhere else. -/
theorem refactorMult_exact_iff :
    Distributed p n n1 c1 c2 a (n.sh.wrap (v1 * v2)) ↔ MultFits n.sh c1 c2 v1 v2 := by
  rw [← @madeConst_canon_iff p n c1 c2 v1 v2 hs h1 h2 hv1 hv2 (copyConst p c2).1]
  constructor
  · exact fun h => h.canon hopt htag htag1 hc1 hc2
  · intro hk
    refine ⟨_, _, _, _, _, refactorMult_eq hopt htag htag1 hc1 hc2, hk, fun va => ?_⟩
    have hcopy := copyConst_wrote hok hv2
    have hval : constVal (copyConst p c2).1 (copyConst p c2).2 = v2 :=
      hcopy.canon.constVal_eq (by rw [hcopy.sh, h2]; exact hs)
    have hval1 : constVal p c1 = v1 := hv1.constVal_eq (h1 ▸ hs)
    have hval2 : constVal p c2 = v2 := hv2.constVal_eq (h2 ▸ hs)
    have hvalk : constVal (copyConst p c2).1 (madeConst n.sh c1 c2) = n.sh.wrap (v1 * v2) :=
      hk.constVal_eq hs
    simp only [intPrim, htag, htag1, hval, hval1, hval2, hvalk, hn1, Shape.wrap]
    exact (wrap_distrib ..).symm

end

/-- A product in 32 bits. -/
theorem refactorMult_exact_small :
    Distributed (startSt false).pool ⟨.multTag, intShape 32 true, 0, 0, none, 0⟩
      ⟨.plusTag, intShape 32 true, 0, 0, none, 0⟩ (intConst (intShape 32 true) 20)
      (intConst (intShape 32 true) 3) (.mk ⟨.contTag, intShape 32 true, 0, 0, none, 0⟩ []) 60 := by
  have h := @refactorMult_exact_iff (startSt false).pool
    ⟨.multTag, intShape 32 true, 0, 0, none, 0⟩ ⟨.plusTag, intShape 32 true, 0, 0, none, 0⟩
    (intConst (intShape 32 true) 20) (intConst (intShape 32 true) 3)
    (.mk ⟨.contTag, intShape 32 true, 0, 0, none, 0⟩ []) 20 3 (Pool.init_ok _)
    (intShape32_isInt true) (by decide) rfl rfl rfl rfl rfl rfl rfl (intConst_canon (by decide))
    (intConst_canon (by decide))
  rw [MultFits, if_pos ⟨rfl, rfl⟩] at h
  exact h.2 (.inl rfl)

/-- In 64 bits the product of 2 ^ 20 with itself is made 0. -/
theorem not_refactorMult_exact :
    ¬∀ (p : Pool) (n n1 c1 c2 : Node) (a : Exp) (v1 v2 : Int), p.Ok → n.sh.IsInt →
      optop n = true → n.tag = .multTag → n1.tag = .plusTag → c1.tag = .valTag →
      c2.tag = .valTag → n1.sh = n.sh → c1.sh = n.sh → c2.sh = n.sh → Canon p c1 v1 →
      Canon p c2 v2 → Distributed p n n1 c1 c2 a (n.sh.wrap (v1 * v2)) := by
  intro h
  have hs : (intShape 64 true).IsInt := ⟨.inr (.inr (.inr rfl)), by decide⟩
  have hplain : PlainInt (intShape 64 true) (2 ^ 20) := by decide
  have hc : Canon (startSt false).pool (intConst (intShape 64 true) (2 ^ 20)) (2 ^ 20) :=
    ⟨by decide, fun _ => ⟨by rw [isbigval_eq]; rfl, by decide⟩, fun hn => absurd hplain hn⟩
  have hdist := h (startSt false).pool ⟨.multTag, intShape 64 true, 0, 0, none, 0⟩
    ⟨.plusTag, intShape 64 true, 0, 0, none, 0⟩ (intConst (intShape 64 true) (2 ^ 20))
    (intConst (intShape 64 true) (2 ^ 20)) (.mk ⟨.contTag, intShape 64 true, 0, 0, none, 0⟩ [])
    (2 ^ 20) (2 ^ 20) (Pool.init_ok _) hs (by decide) rfl rfl rfl rfl rfl rfl rfl hc hc
  have hcanon := hdist.canon (by decide) rfl rfl rfl rfl
  have hbig := (hcanon.big (by decide)).1
  exact absurd hbig (by decide)

end Tendra.Ref
