import Tendra.Proofs.FoldExact
import Tendra.Proofs.IntExp

/-!
# Rewriting of shifts and masks

Over an operand whose value is given, the expressions that are rewritten are
patterns of bits shifted and masked. Four of the five rewritings keep the
pattern. The one that moves a mask across a right shift,
`((x >> r) & m) << l`, builds the new mask in an `int` from the number of the
constant, and lets the sign of the masked operand be brought in: it keeps the
value exactly when the new mask, read so, has the bits of the old one wherever
the left shift leaves them to be seen.
-/

namespace Tendra.Ref

open Tendra.Word

variable {p : Pool} {sh : Shape} {far : Nat → BitVec 32} {x e e' c cr cm : Exp} {n n1 n11 : Node}
  {v m : Int}

/-- A constant count within the size of a shape. -/
structure IsCount (p : Pool) (sh : Shape) (c : Exp) (k : Nat) : Prop where
  const : ∃ n, c = .mk n [] ∧ n.tag = .valTag ∧ n.sh.IsInt ∧ Canon p n k
  lt : k < sh.size

/-- A constant mask of a shape. -/
structure IsMask (p : Pool) (sh : Shape) (c : Exp) (m : Int) : Prop where
  const : ∃ n, c = .mk n [] ∧ n.tag = .valTag ∧ n.sh = sh ∧ Canon p n m

/-- An expression made from `x` by constant shifts and masks, all of one shape. -/
inductive Masked (p : Pool) (sh : Shape) (x : Exp) : Exp → Prop
  | here : Masked p sh x x
  | shift {n : Node} {e c : Exp} {k : Nat} (ht : n.tag = .shlTag ∨ n.tag = .shrTag)
      (hs : n.sh = sh) (he : Masked p sh x e) (hc : IsCount p sh c k) : Masked p sh x (.mk n [e, c])
  | mask {n : Node} {e c : Exp} {m : Int} (ht : n.tag = .andTag) (hs : n.sh = sh)
      (he : Masked p sh x e) (hc : IsMask p sh c m) : Masked p sh x (.mk n [e, c])

/-- The first argument. -/
def firstArg : Exp → Exp
  | .mk n [] => .mk n []
  | .mk _ (e :: _) => e

/-- The operand that a rewriting takes over as it is. -/
def kept (e : Exp) : Exp :=
  let e1 := firstArg e
  if e.tag = .andTag ∧ e1.tag = .andTag then firstArg e1
  else if e.tag = .shrTag ∧ (firstArg e1).tag ≠ .shrTag then firstArg e1
  else firstArg (firstArg e1)

/-- Bit `j` of the mask that is built in an `int` from the number `m` and read in
a shape. -/
def movedBit (sg : Bool) (m : BitVec 32) (r j : Nat) : Bool :=
  if j < 32 then decide (r ≤ j) && m.getLsbD (j - r)
  else sg && decide (r ≤ 31) && m.getLsbD (31 - r)

/-- Each bit of the mask of `((x >> r) & m) << l` that the left shift leaves to be
seen is the bit that the moved mask has for it: the one `r` places further,
and on a signed shape the last one where that is beyond it. -/
def MaskKept (p : Pool) : Exp → Prop
  | .mk n [.mk _ [.mk _ [_, cr], cm], cl] =>
      n.tag = .shlTag → ∀ k, k + cl.no.toNat < n.sh.size →
        (k + cr.no.toNat < n.sh.size ∨ n.sh.isSigned = true) →
        (BitVec.ofInt n.sh.size (constVal p cm.node)).getLsbD k =
          movedBit n.sh.isSigned (BitVec.ofInt 32 cm.no) cr.no.toNat
            (min (k + cr.no.toNat) (n.sh.size - 1))
  | _ => True

/-! ## Constants -/

/-- A count is held as it is. -/
theorem IsCount.no_eq (hs : sh.IsInt) {k : Nat} (h : IsCount p sh c k) : c.no = k := by
  obtain ⟨n, rfl, -, -, hc⟩ := h.const
  have hk : k < 64 := lt_of_lt_of_le h.lt hs.le
  have hplain : PlainInt n.sh (k : Int) := by
    unfold PlainInt
    split <;> omega
  have hr : InRange true 32 (k : Int) := by
    simp only [InRange, if_true]
    omega
  rw [show (Exp.mk n []).no = n.no from rfl, (hc.plain hplain).2]
  have hback : (BitVec.ofInt 32 (k : Int)).toInt = k := decode_ofInt (by decide) hr
  exact hback

theorem IsCount.val_eq {k : Nat} (h : IsCount p sh c k) (hx : x.tag ≠ .valTag) :
    intVal p (atValue x v) c = k := by
  obtain ⟨n, rfl, ht, hi, hc⟩ := h.const
  exact intVal_const hx ht hi hc

/-- A count that a rewriting makes. -/
theorem intVal_count (hs : sh.IsInt) (hx : x.tag ≠ .valTag) {k : Nat} (hk : k < sh.size) :
    intVal p (atValue x v) (meShint sh (BitVec.ofInt 32 k)) = k := by
  have h64 : k < 64 := lt_of_lt_of_le hk hs.le
  have hr32 : InRange sh.isSigned 32 (k : Int) := by
    unfold InRange
    split <;> omega
  have hr : sh.Has (k : Int) := by
    unfold Shape.Has InRange
    rcases hs.size with h | h | h | h <;> rw [h] at hk ⊢ <;> split <;> omega
  rw [intVal_meShint hx, decode_ofInt (by decide) hr32, hr.wrap_eq hs]

/-- A mask that is held as an `int`, as a pattern of the shape. -/
theorem IsMask.plain (hc : IsMask p sh c m) (hs : sh.IsInt) (hb : isbigval c.node = false) :
    BitVec.ofInt sh.size m =
      BitVec.ofInt sh.size (decode sh.isSigned (BitVec.ofInt 32 c.no)) := by
  obtain ⟨k, rfl, -, rfl, hcan⟩ := hc.const
  have hval := hcan.constVal_eq hs
  rw [constVal_plain (show isbigval k = false from hb)] at hval
  rw [← hval, Shape.wrap, Word.wrap, ofInt_decode]
  rfl

theorem IsMask.val_eq (hc : IsMask p sh c m) (hs : sh.IsInt) (hx : x.tag ≠ .valTag) :
    intVal p (atValue x v) c = m := by
  obtain ⟨k, rfl, ht, hk, hcan⟩ := hc.const
  exact intVal_const hx ht (hk ▸ hs) hcan

/-! ## Values as patterns -/

section Patterns

variable {A : BitVec sh.size} {k : Nat}
variable (hne : .mk n [e, c] ≠ x) (hs : n.sh = sh)
variable (he : intVal p (atValue x v) e = decode sh.isSigned A)

include hne he

include hs in
theorem intVal_shl (ht : n.tag = .shlTag) (hc : intVal p (atValue x v) c = k) :
    intVal p (atValue x v) (.mk n [e, c]) = decode sh.isSigned (A <<< k) := by
  subst hs
  rw [intVal_op hne, intVals_cons, intVals_cons, intVals_nil, he, hc]
  simp only [intPrim, ht, Shape.wrap, Word.wrap, Int.toNat_natCast]
  rw [ofInt_mul_two_pow, ofInt_decode]

theorem intVal_shr (ht : n.tag = .shrTag) (hc : intVal p (atValue x v) c = k) :
    intVal p (atValue x v) (.mk n [e, c]) = decode sh.isSigned (shr sh.isSigned A k) := by
  rw [intVal_op hne, intVals_cons, intVals_cons, intVals_nil, he, hc, decode_shr]
  simp only [intPrim, ht, Int.toNat_natCast]

include hs in
theorem intVal_and (ht : n.tag = .andTag) (hc : intVal p (atValue x v) c = m) :
    intVal p (atValue x v) (.mk n [e, c]) = decode sh.isSigned (A &&& BitVec.ofInt sh.size m) := by
  subst hs
  rw [intVal_op hne, intVals_cons, intVals_cons, intVals_nil, he, hc]
  simp only [intPrim, ht]
  rw [ofInt_decode]

end Patterns

theorem intVal_chvar {w : Int} (hsize : sizeOf x ≤ sizeOf e) (he : intVal p (atValue x v) e = w) :
    intVal p (atValue x v) (meU3 sh e .chvarTag) = sh.wrap w := by
  have hne : meU3 sh e .chvarTag ≠ x := by
    rintro rfl
    rw [meU3, Exp.mk.sizeOf_spec, List.cons.sizeOf_spec] at hsize
    omega
  rw [meU3] at hne ⊢
  rw [intVal_op hne, intVals_cons, intVals_nil, he]
  rfl

/-! ## What a rewriting finds -/

theorem Masked.shift_inv (h : Masked p sh x (.mk n [e, c])) (hne : .mk n [e, c] ≠ x)
    (ht : n.tag = .shlTag ∨ n.tag = .shrTag) :
    n.sh = sh ∧ Masked p sh x e ∧ ∃ k, IsCount p sh c k := by
  cases h with
  | here => exact absurd rfl hne
  | shift _ hs he hc => exact ⟨hs, he, _, hc⟩
  | mask ht' => rcases ht with h | h <;> rw [h] at ht' <;> exact absurd ht' (by decide)

theorem Masked.mask_inv (h : Masked p sh x (.mk n [e, c])) (hne : .mk n [e, c] ≠ x)
    (ht : n.tag = .andTag) : n.sh = sh ∧ Masked p sh x e ∧ ∃ m, IsMask p sh c m := by
  cases h with
  | here => exact absurd rfl hne
  | shift ht' => rcases ht' with h | h <;> rw [h] at ht <;> exact absurd ht (by decide)
  | mask _ hs he hc => exact ⟨hs, he, _, hc⟩

/-- The value of a masked expression is a pattern. -/
theorem Masked.pattern (h : Masked p sh x e) (hs : sh.IsInt) (hx : x.tag ≠ .valTag)
    (hv : sh.Has v) :
    ∃ A : BitVec sh.size, intVal p (atValue x v) e = decode sh.isSigned A := by
  induction h with
  | here => exact ⟨BitVec.ofInt sh.size v, by rw [intVal_part]; exact (decode_ofInt hs.pos hv).symm⟩
  | @shift n e c k ht hn he hc ih =>
      by_cases hne : .mk n [e, c] = x
      · exact ⟨BitVec.ofInt sh.size v, by
          rw [hne, intVal_part]
          exact (decode_ofInt hs.pos hv).symm⟩
      · obtain ⟨A, hA⟩ := ih
        rcases ht with ht | ht
        · exact ⟨_, intVal_shl hne hn hA ht (hc.val_eq hx)⟩
        · exact ⟨_, intVal_shr hne hA ht (hc.val_eq hx)⟩
  | @mask n e c m ht hn he hc ih =>
      by_cases hne : .mk n [e, c] = x
      · exact ⟨BitVec.ofInt sh.size v, by
          rw [hne, intVal_part]
          exact (decode_ofInt hs.pos hv).symm⟩
      · obtain ⟨A, hA⟩ := ih
        obtain ⟨nc, rfl, htc, hsc, hcc⟩ := hc.const
        exact ⟨_, intVal_and hne hn hA ht (intVal_const hx htc (hsc ▸ hs) hcc)⟩

theorem firstArg_size (e : Exp) : sizeOf (firstArg e) ≤ sizeOf e := by
  obtain ⟨n, args⟩ := e
  cases args with
  | nil => exact le_refl _
  | cons e es =>
      have := List.sizeOf_lt_of_mem (List.mem_cons_self (a := e) (l := es))
      rw [firstArg, Exp.mk.sizeOf_spec]
      omega

theorem kept_size (e : Exp) : sizeOf (kept e) ≤ sizeOf (firstArg (firstArg e)) := by
  unfold kept
  dsimp only
  split
  · exact le_refl _
  · split
    · exact le_refl _
    · exact firstArg_size _

theorem Exp.ne_of_size (h : sizeOf x ≤ sizeOf e) : .mk n [e, c] ≠ x := by
  rintro rfl
  rw [Exp.mk.sizeOf_spec, List.cons.sizeOf_spec] at h
  omega

theorem Exp.size_le_of_size (h : sizeOf x ≤ sizeOf e) : sizeOf x ≤ sizeOf (Exp.mk n [e, c]) := by
  rw [Exp.mk.sizeOf_spec, List.cons.sizeOf_spec]
  omega

/-- The bound on the mask that is tested: no bit at the places where the shift has
brought something in. However the machine shifts by too many places, the
mask is an `int`. -/
theorem mask_bit_false {sg : Bool} {m : BitVec 32} {d i : Nat} (hpos : (0 : BitVec 32).slt m = true)
    (hle : m.sle (oneShl far d - 1) = true) (hi : d ≤ i) : sbit sg m i = false := by
  have hm : m.msb = false ∧ m.toNat < 2 ^ 31 := by
    have hp : 0 < m.toInt := by simpa [BitVec.slt] using hpos
    have hmsb : m.msb = false := by
      by_contra h
      have := BitVec.toInt_neg_of_msb_true (Bool.eq_true_of_not_eq_false h)
      omega
    exact ⟨hmsb, by
      have := BitVec.msb_eq_false_iff_two_mul_lt.1 hmsb
      omega⟩
  rw [BitVec.msb_eq_getLsbD_last] at hm
  by_cases h32 : 32 ≤ i
  · rw [sbit_of_le h32, hm.1, Bool.and_false]
  · rw [sbit_of_lt (by omega)]
    by_cases hd : d < 31
    · have hlt : m.toNat < 2 ^ d := by
        have h1 : (oneShl far d - 1).toNat = 2 ^ d - 1 := by
          rw [oneShl, if_pos (by omega)]
          interval_cases d <;> rfl
        have hd31 : 2 ^ d < 2 ^ 31 := Nat.pow_lt_pow_right (by decide) hd
        have h2 := BitVec.toInt_eq_toNat_of_lt (x := oneShl far d - 1) (by omega)
        have h3 := BitVec.toInt_eq_toNat_of_lt (x := m) (by omega)
        have h4 : m.toInt ≤ (oneShl far d - 1).toInt := by simpa [BitVec.sle] using hle
        have := Nat.two_pow_pos d
        omega
      exact Nat.testBit_lt_two_pow (lt_of_lt_of_le hlt (Nat.pow_le_pow_right (by decide) hi))
    · rw [show i = 31 by omega]
      exact hm.1

section Rewritings

variable (hs : sh.IsInt) (hx : x.tag ≠ .valTag)
variable (hv : sh.Has v)

include hs hx hv

/-- `(e << q) >> q` as a change of variety. -/
theorem narrow_keeps {cq : Exp} (hsize : sizeOf x ≤ sizeOf e)
    (hm : Masked p sh x (.mk n [.mk n1 [e, cq], cr])) (ht : n.tag = .shrTag)
    (ht1 : n1.tag = .shlTag) (hr : refactorShr.narrow n n1 e cq cr = some e') :
    intVal p (atValue x v) e' = intVal p (atValue x v) (.mk n [.mk n1 [e, cq], cr]) := by
  have hne1 : .mk n1 [e, cq] ≠ x := Exp.ne_of_size hsize
  have hne : .mk n [.mk n1 [e, cq], cr] ≠ x := Exp.ne_of_size (Exp.size_le_of_size hsize)
  obtain ⟨hns, hm1, r, hcr⟩ := hm.shift_inv hne (.inr ht)
  obtain ⟨hn1s, hme, q, hcq⟩ := hm1.shift_inv hne1 (.inl ht1)
  obtain ⟨A, hA⟩ := hme.pattern hs hx hv
  have hold := intVal_shr (c := cr) hne (intVal_shl hne1 hn1s hA ht1 (hcq.val_eq hx)) ht
    (hcr.val_eq hx)
  rw [refactorShr.narrow] at hr
  split at hr
  · next hc =>
      obtain ⟨-, hqr, hq, hsg⟩ := hc
      rw [hcq.no_eq hs, hcr.no_eq hs, Nat.cast_inj] at hqr
      rw [hcq.no_eq hs, hns] at hq
      rw [hn1s] at hsg
      subst hqr
      -- the width that is left
      obtain ⟨w, hw0, hwn, hqw, hsc⟩ : ∃ w, 0 < w ∧ w ≤ sh.size ∧ q = sh.size - w ∧
          (if cq.no = (n.sh.size : Int) - 16 then intShape 16 true else intShape 8 true) =
            intShape w true := by
        rw [hcq.no_eq hs, hns]
        by_cases h16 : (q : Int) = (sh.size : Int) - 16
        · exact ⟨16, by decide, by omega, by omega, if_pos h16⟩
        · exact ⟨8, by decide, by omega, by omega, if_neg h16⟩
      cases hr
      rw [hsc, hold, hns, intVal_chvar (le_trans hsize (by
        rw [meU3, Exp.mk.sizeOf_spec, List.cons.sizeOf_spec]
        omega)) (intVal_chvar hsize hA), hqw, Shape.wrap, Word.wrap, hsg, shr_shl_eq_extend hw0 hwn,
        Shape.wrap, Word.wrap]
      change decode true (BitVec.ofInt sh.size (decode true (BitVec.ofInt w (decode true A)))) = _
      rw [← setWidth_ofInt hwn, ofInt_decode]
  · exact absurd hr (by simp)

/-- `((y >> p) << q) >> r`, where `y` is an operand that is kept. -/
theorem shrShlShr_keeps {y cp cq : Exp} (hsize : sizeOf x ≤ sizeOf y)
    (hm : Masked p sh x (.mk n [.mk n1 [.mk n11 [y, cp], cq], cr]))
    (ht : n.tag = .shrTag) (ht1 : n1.tag = .shlTag) (ht11 : n11.tag = .shrTag)
    (hrq : cr.no ≥ cq.no) (hqp : cq.no ≥ cp.no) :
    intVal p (atValue x v)
      (.mk n [meB3 n1.sh y (meShint n1.sh (BitVec.ofInt 32 (cq.no - cp.no))) .shlTag, cr]) =
    intVal p (atValue x v) (.mk n [.mk n1 [.mk n11 [y, cp], cq], cr]) := by
  have hsize1 := Exp.size_le_of_size (n := n11) (c := cp) hsize
  have hsize2 := Exp.size_le_of_size (n := n1) (c := cq) hsize1
  obtain ⟨hns, hm1, r, hcr⟩ := hm.shift_inv (Exp.ne_of_size hsize2) (.inr ht)
  obtain ⟨hn1s, hm11, q, hcq⟩ := hm1.shift_inv (Exp.ne_of_size hsize1) (.inl ht1)
  obtain ⟨hn11s, hmy, k, hcp⟩ := hm11.shift_inv (Exp.ne_of_size hsize) (.inr ht11)
  obtain ⟨A, hA⟩ := hmy.pattern hs hx hv
  rw [hcr.no_eq hs, hcq.no_eq hs] at hrq
  rw [hcq.no_eq hs, hcp.no_eq hs] at hqp
  have hold := intVal_shr (c := cr) (n := n) (Exp.ne_of_size hsize2)
    (intVal_shl (c := cq) (Exp.ne_of_size hsize1) hn1s
      (intVal_shr (c := cp) (Exp.ne_of_size hsize) hA ht11 (hcp.val_eq hx)) ht1 (hcq.val_eq hx)) ht
    (hcr.val_eq hx)
  have hcount : (cq.no - cp.no : Int) = ((q - k : Nat) : Int) := by
    rw [hcq.no_eq hs, hcp.no_eq hs]
    omega
  have hlt := hcq.lt
  have hnew := intVal_shr (c := cr) (n := n) (Exp.ne_of_size (Exp.size_le_of_size hsize))
    (intVal_shl (n := ⟨.shlTag, sh, 0, 0, none, 0⟩) (Exp.ne_of_size hsize) rfl hA rfl
      (intVal_count (k := q - k) hs hx (by omega))) ht (hcr.val_eq hx)
  rw [hcount, hn1s, hold, meB3, hnew, shr_shl_shr (by omega) (by omega) hcr.lt]

theorem refactorShr_keeps {e1 : Exp} (hsize : sizeOf x ≤ sizeOf (firstArg e1))
    (hsize' : (firstArg e1).tag = .shrTag → sizeOf x ≤ sizeOf (firstArg (firstArg e1)))
    (hm : Masked p sh x (.mk n [e1, c])) (ht : n.tag = .shrTag)
    (hr : refactorShr n e1 c = some e') :
    intVal p (atValue x v) e' = intVal p (atValue x v) (.mk n [e1, c]) := by
  unfold refactorShr at hr
  split at hr
  · next n1 e11 cq =>
      split at hr
      · next hc =>
          split at hr
          · next n11 y cp =>
              split at hr
              · next hc11 =>
                  split at hr
                  · next hrq =>
                      cases hr
                      exact shrShlShr_keeps hs hx hv (hsize' hc11.1) hm ht hc.1 hc11.1 hrq.1 hrq.2.2
                  · exact absurd hr (by simp)
              · exact narrow_keeps hs hx hv hsize hm ht hc.1 hr
          · exact narrow_keeps hs hx hv hsize hm ht hc.1 hr
      · exact absurd hr (by simp)
  · exact absurd hr (by simp)

/-- `(y & m1) & m2`. -/
theorem andAnd_keeps {y c1 : Exp} (hsize : sizeOf x ≤ sizeOf y)
    (hm : Masked p sh x (.mk n [.mk n1 [y, c1], cm])) (ht : n.tag = .andTag)
    (ht1 : n1.tag = .andTag) (hbm : isbigval cm.node = false) (hb1 : isbigval c1.node = false) :
    intVal p (atValue x v)
      (meB3 n.sh y (meShint n.sh (BitVec.ofInt 32 cm.no &&& BitVec.ofInt 32 c1.no)) .andTag) =
    intVal p (atValue x v) (.mk n [.mk n1 [y, c1], cm]) := by
  have hsize1 := Exp.size_le_of_size (n := n1) (c := c1) hsize
  obtain ⟨hns, hm1, m2, hcm⟩ := hm.mask_inv (Exp.ne_of_size hsize1) ht
  obtain ⟨hn1s, hmy, m1, hc1⟩ := hm1.mask_inv (Exp.ne_of_size hsize) ht1
  obtain ⟨A, hA⟩ := hmy.pattern hs hx hv
  have hold := intVal_and (c := cm) (n := n) (Exp.ne_of_size hsize1) hns
    (intVal_and (c := c1) (Exp.ne_of_size hsize) hn1s hA ht1 (hc1.val_eq hs hx)) ht
    (hcm.val_eq hs hx)
  have hnew := intVal_and (p := p) (v := v) (n := ⟨.andTag, sh, 0, 0, none, 0⟩)
    (c := meShint sh (BitVec.ofInt 32 cm.no &&& BitVec.ofInt 32 c1.no)) (Exp.ne_of_size hsize) rfl
    hA
    rfl (intVal_meShint hx ..)
  rw [hold, hns, meB3, hnew, hc1.plain hs hb1, hcm.plain hs hbm, Shape.wrap, Word.wrap,
    ofInt_decode, ofInt_decode_and, BitVec.and_assoc]
  congr 2
  exact BitVec.and_comm ..

/-- `((y << l) >> r) & m`. -/
theorem andShrShl_keeps {y cl c1 : Exp} (hsize : sizeOf x ≤ sizeOf y)
    (hm : Masked p sh x (.mk n [.mk n1 [.mk n11 [y, cl], c1], cm])) (ht : n.tag = .andTag)
    (ht1 : n1.tag = .shrTag) (ht11 : n11.tag = .shlTag) (hb : isbigval cm.node = false)
    (hpos : (0 : BitVec 32).slt (BitVec.ofInt 32 cm.no) = true) (hle : (BitVec.ofInt 32 cm.no).sle
      (oneShl far ((n1.sh.size : Int) - c1.no).toNat - 1) = true) (hlr : cl.no ≤ c1.no) :
    intVal p (atValue x v)
      (.mk n [meB3 n1.sh y (meShint n1.sh (BitVec.ofInt 32 (c1.no - cl.no))) .shrTag, cm]) =
    intVal p (atValue x v) (.mk n [.mk n1 [.mk n11 [y, cl], c1], cm]) := by
  have hsize1 := Exp.size_le_of_size (n := n11) (c := cl) hsize
  have hsize2 := Exp.size_le_of_size (n := n1) (c := c1) hsize1
  obtain ⟨hns, hm1, m, hcm⟩ := hm.mask_inv (Exp.ne_of_size hsize2) ht
  obtain ⟨hn1s, hm11, r, hc1⟩ := hm1.shift_inv (Exp.ne_of_size hsize1) (.inr ht1)
  obtain ⟨hn11s, hmy, l, hcl⟩ := hm11.shift_inv (Exp.ne_of_size hsize) (.inl ht11)
  obtain ⟨A, hA⟩ := hmy.pattern hs hx hv
  have hr := hc1.lt
  rw [hc1.no_eq hs, hcl.no_eq hs] at hlr
  rw [hn1s, hc1.no_eq hs, show ((sh.size : Int) - (r : Int)).toNat = sh.size - r by omega] at hle
  have hold := intVal_and (c := cm) (n := n) (Exp.ne_of_size hsize2) hns
    (intVal_shr (c := c1) (Exp.ne_of_size hsize1)
      (intVal_shl (c := cl) (Exp.ne_of_size hsize) hn11s hA ht11 (hcl.val_eq hx)) ht1
      (hc1.val_eq hx)) ht (hcm.val_eq hs hx)
  have hcount : (c1.no - cl.no : Int) = ((r - l : Nat) : Int) := by
    rw [hc1.no_eq hs, hcl.no_eq hs]
    omega
  have hnew := intVal_and (c := cm) (n := n) (Exp.ne_of_size (Exp.size_le_of_size hsize)) hns
    (intVal_shr (n := ⟨.shrTag, sh, 0, 0, none, 0⟩) (Exp.ne_of_size hsize) hA rfl
      (intVal_count (k := r - l) hs hx (by omega))) ht (hcm.val_eq hs hx)
  rw [hcount, hn1s, hold, meB3, hnew]
  congr 1
  refine (shr_shl_and (by omega) hr (fun i hi => ?_) A).symm
  rw [hcm.plain hs hb]
  by_cases hin : i < sh.size
  · rw [getLsbD_ofInt_decode _ hin]
    exact mask_bit_false hpos hle hi
  · exact BitVec.getLsbD_of_ge _ _ (by omega)

theorem refactorAnd_keeps {e1 : Exp} (hsize : e1.tag = .andTag → sizeOf x ≤ sizeOf (firstArg e1))
    (hsize' : e1.tag ≠ .andTag → sizeOf x ≤ sizeOf (firstArg (firstArg e1)))
    (hm : Masked p sh x (.mk n [e1, c])) (ht : n.tag = .andTag)
    (hr : refactorAnd far n e1 c = some e') :
    intVal p (atValue x v) e' = intVal p (atValue x v) (.mk n [e1, c]) := by
  unfold refactorAnd at hr
  split at hr
  · next n1 e11 c1 =>
      split at hr
      · next hc =>
          obtain ⟨ht1, -, -, hbm, hb1⟩ := hc
          cases hr
          exact andAnd_keeps hs hx hv (hsize ht1) hm ht ht1 (Bool.eq_false_of_not_eq_true hbm)
            (Bool.eq_false_of_not_eq_true hb1)
      · split at hr
        · next hc =>
            obtain ⟨ht1, -, hbm, hpos, -, -, hle⟩ := hc
            have hne : (Exp.mk n1 [e11, c1]).tag ≠ .andTag := by
              rw [show (Exp.mk n1 [e11, c1]).tag = n1.tag from rfl, ht1]
              decide
            split at hr
            · next n11 y cl =>
                split at hr
                · next hc11 =>
                    cases hr
                    exact andShrShl_keeps hs hx hv (hsize' hne) hm ht ht1 hc11.1
                      (Bool.eq_false_of_not_eq_true hbm) hpos hle hc11.2.2.2
                · exact absurd hr (by simp)
            · exact absurd hr (by simp)
        · exact absurd hr (by simp)
  · exact absurd hr (by simp)

end Rewritings

/-- The bits of the moved mask. -/
theorem movedBit_eq (sg : Bool) (m : BitVec 32) (r j : Nat) :
    sbit sg (m <<< r) j = movedBit sg m r j := by
  unfold movedBit
  split
  · next h => rw [sbit_of_lt h, getLsbD_shl _ _ h]
  · next h =>
      rw [sbit_of_le (by omega), getLsbD_shl _ _ (by decide), Bool.and_assoc]

/-- `((x >> r) & m) << l`. -/
theorem refactorShl_iff (hs : sh.IsInt) (hx : x.tag ≠ .valTag) {cl : Exp}
    (hm : Masked p sh x (.mk n [.mk n1 [.mk n11 [x, cr], cm], cl])) (ht : n.tag = .shlTag)
    (hr : refactorShl n (.mk n1 [.mk n11 [x, cr], cm]) cl = some e') :
    (∀ v, sh.Has v → intVal p (atValue x v) e' =
      intVal p (atValue x v) (.mk n [.mk n1 [.mk n11 [x, cr], cm], cl])) ↔
    MaskKept p (.mk n [.mk n1 [.mk n11 [x, cr], cm], cl]) := by
  have hsize : sizeOf x ≤ sizeOf x := le_refl _
  have hsize1 := Exp.size_le_of_size (n := n11) (c := cr) hsize
  have hsize2 := Exp.size_le_of_size (n := n1) (c := cm) hsize1
  rw [refactorShl] at hr
  split at hr
  · next hc =>
      obtain ⟨ht1, -, -, ht11, -⟩ := hc
      obtain ⟨hns, hm1, l, hcl⟩ := hm.shift_inv (Exp.ne_of_size hsize2) (.inl ht)
      obtain ⟨hn1s, hm11, m, hcm⟩ := hm1.mask_inv (Exp.ne_of_size hsize1) ht1
      obtain ⟨-, -, r, hcr⟩ := hm11.shift_inv (Exp.ne_of_size hsize) (.inr ht11)
      -- the new mask, as a pattern of the shape
      obtain ⟨moved, hmoved⟩ : ∃ moved : BitVec sh.size, moved =
          BitVec.ofInt sh.size (decode sh.isSigned (BitVec.ofInt 32 cm.no <<< r)) := ⟨_, rfl⟩
      have hbit : ∀ j, j < sh.size →
          moved.getLsbD j = movedBit sh.isSigned (BitVec.ofInt 32 cm.no) r j := by
        intro j hj
        rw [hmoved, getLsbD_ofInt_decode _ hj, movedBit_eq]
      have hlow : ∀ j, j < r → moved.getLsbD j = false := by
        intro j hj
        have hlt := hcr.lt
        rw [hbit j (by omega), movedBit]
        split
        · rw [decide_eq_false (by omega), Bool.false_and]
        · rw [decide_eq_false (by omega), Bool.and_false, Bool.false_and]
      -- both expressions at a pattern
      have hold : ∀ A : BitVec sh.size, intVal p (atValue x (decode sh.isSigned A))
          (.mk n [.mk n1 [.mk n11 [x, cr], cm], cl]) =
          decode sh.isSigned ((shr sh.isSigned A r &&& BitVec.ofInt sh.size m) <<< l) := fun A =>
        intVal_shl (Exp.ne_of_size hsize2) hns
          (intVal_and (Exp.ne_of_size hsize1) hn1s
            (intVal_shr (Exp.ne_of_size hsize) (intVal_part ..) ht11 (hcr.val_eq hx)) ht1
            (hcm.val_eq hs hx)) ht (hcl.val_eq hx)
      have hnew : ∀ A : BitVec sh.size, intVal p (atValue x (decode sh.isSigned A)) e' =
          decode sh.isSigned (if r ≤ l then (A &&& moved) <<< (l - r)
            else shr sh.isSigned (A &&& moved) (r - l)) := by
        intro A
        have hand : intVal p (atValue x (decode sh.isSigned A))
            (meB3 sh x (meShint sh (BitVec.ofInt 32 cm.no <<< r)) .andTag) =
            decode sh.isSigned (A &&& moved) := by
          have h := intVal_and (p := p) (A := A) (n := ⟨.andTag, sh, 0, 0, none, 0⟩)
            (c := meShint sh (BitVec.ofInt 32 cm.no <<< r)) (Exp.ne_of_size hsize) rfl
            (intVal_part ..) rfl (intVal_meShint hx ..)
          rw [Shape.wrap, Word.wrap, ofInt_decode, ← hmoved] at h
          exact h
        have hlt := hcl.lt
        have hlt' := hcr.lt
        rw [hns, hcr.no_eq hs, hcl.no_eq hs, Int.toNat_natCast, Int.shiftLeft_eq,
          ofInt_mul_two_pow] at hr
        split at hr
        · next hge =>
            rw [show ((l : Int) - (r : Int)) = ((l - r : Nat) : Int) by omega] at hr
            cases hr
            rw [if_pos (by omega)]
            exact intVal_shl (n := ⟨.shlTag, sh, 0, 0, none, 0⟩)
              (Exp.ne_of_size (Exp.size_le_of_size hsize)) rfl hand rfl
              (intVal_count hs hx (by omega))
        · next hge =>
            rw [show ((r : Int) - (l : Int)) = ((r - l : Nat) : Int) by omega] at hr
            cases hr
            rw [if_neg (by omega)]
            exact intVal_shr (n := ⟨.shrTag, sh, 0, 0, none, 0⟩)
              (Exp.ne_of_size (Exp.size_le_of_size hsize)) hand rfl
              (intVal_count hs hx (by omega))
      have hiff := shl_and_shr_iff sh.isSigned (l := l) hcr.lt (BitVec.ofInt sh.size m) hlow
      have hconst : constVal p cm.node = m := by
        obtain ⟨k, rfl, -, hk, hcan⟩ := hcm.const
        exact hcan.constVal_eq (hk ▸ hs)
      have hkept : MaskKept p (.mk n [.mk n1 [.mk n11 [x, cr], cm], cl]) ↔
          ∀ k, k + l < sh.size → (k + r < sh.size ∨ sh.isSigned = true) →
            (BitVec.ofInt sh.size m).getLsbD k = moved.getLsbD (min (k + r) (sh.size - 1)) := by
        have hlt := hcr.lt
        simp only [MaskKept, ht, hns, hconst, hcr.no_eq hs, hcl.no_eq hs, Int.toNat_natCast,
          forall_true_left]
        refine forall_congr' fun k => forall_congr' fun hk => forall_congr' fun _ => ?_
        rw [hbit _ (by omega), hns]
      rw [hkept, ← hiff]
      constructor
      · intro h A
        have hA := h (decode sh.isSigned A) (decode_inRange hs.pos A)
        rw [hold, hnew, decode_inj] at hA
        exact hA.symm
      · intro h v hv
        have hvA := decode_ofInt hs.pos hv
        rw [← hvA, hold, hnew, h]
  · exact absurd hr (by simp)

theorem maskKept_of_ne {args : List Exp} (h : n.tag ≠ .shlTag) : MaskKept p (.mk n args) := by
  unfold MaskKept
  split
  · next heq =>
      cases heq
      exact fun hshl => absurd hshl h
  · trivial

/-- What the rewriting was made for: a mask in an `int`, on a shape of at most 32
bits that is unsigned, or with a left shift by no fewer places. -/
theorem maskKept_of_int {cl : Exp} {l r : Nat} (hs : sh.IsInt) (hns : n.sh = sh)
    (h32 : sh.size ≤ 32) (hcm : IsMask p sh cm m) (hb : isbigval cm.node = false)
    (hcr : IsCount p sh cr r) (hcl : IsCount p sh cl l) (h : r ≤ l ∨ sh.isSigned = false) :
    MaskKept p (.mk n [.mk n1 [.mk n11 [x, cr], cm], cl]) := by
  subst hns
  intro _ k hk hsee
  rw [hcl.no_eq hs, Int.toNat_natCast] at hk
  rw [hcr.no_eq hs, Int.toNat_natCast] at hsee ⊢
  have hlt : k + r < n.sh.size := by
    rcases hsee with hlt | hsg
    · exact hlt
    · rcases h with h | h
      · omega
      · rw [h] at hsg
        exact absurd hsg (by decide)
  have hconst : constVal p cm.node = m := by
    obtain ⟨j, rfl, -, hj, hcan⟩ := hcm.const
    exact hcan.constVal_eq (hj ▸ hs)
  rw [Nat.min_eq_left (by omega), movedBit, if_pos (by omega), hconst, hcm.plain hs hb,
    getLsbD_ofInt_decode _ (by omega), sbit_of_lt (by omega), decide_eq_true (by omega),
    Bool.true_and, Nat.add_sub_cancel]

/-- The rewritings of shifts and masks keep the value of the expression for every
value of the operand, but for `((x >> r) & m) << l` with a mask that is not
kept. -/
theorem refactorShifts_exact_iff {far : Nat → BitVec 32} {p : Pool} {sh : Shape} {e e' : Exp}
    (hs : sh.IsInt) (hm : Masked p sh (kept e) e) (hx : (kept e).tag ≠ .valTag)
    (hr : refactorShifts far e = some e') :
    (∀ v, sh.Has v →
      intVal p (atValue (kept e) v) e' = intVal p (atValue (kept e) v) e) ↔ MaskKept p e := by
  have hk := kept_size e
  unfold refactorShifts at hr
  split at hr
  · next n e1 c =>
      have htag : (Exp.mk n [e1, c]).tag = n.tag := rfl
      have hfirst : firstArg (Exp.mk n [e1, c]) = e1 := rfl
      split at hr
      · next ht =>
          refine ⟨fun _ => maskKept_of_ne (by rw [ht]; decide), fun _ v hv =>
            refactorShr_keeps hs hx hv hk (fun h => ?_) hm ht hr⟩
          unfold kept
          dsimp only
          rw [hfirst, htag, ht, if_neg (fun h' => absurd h'.1 (by decide)),
            if_neg (fun h' => h'.2 h)]
      · next ht =>
          -- the rewriting looks three operations deep
          obtain ⟨n1, n11, y, cr, cm, rfl⟩ : ∃ n1 n11 y cr cm,
              e1 = .mk n1 [.mk n11 [y, cr], cm] := by
            unfold refactorShl at hr
            split at hr
            · next n1 n11 y cr cm => exact ⟨n1, n11, y, cr, cm, rfl⟩
            · exact absurd hr (by simp)
          have hkept : kept (.mk n [.mk n1 [.mk n11 [y, cr], cm], c]) = y := by
            unfold kept
            dsimp only
            rw [htag, ht, if_neg (fun h' => absurd h'.1 (by decide)),
              if_neg (fun h' => absurd h'.1 (by decide))]
            rfl
          rw [hkept] at hm hx ⊢
          exact refactorShl_iff hs hx hm ht hr
      · next ht =>
          refine ⟨fun _ => maskKept_of_ne (by rw [ht]; decide), fun _ v hv =>
            refactorAnd_keeps hs hx hv (fun _ => hk) (fun h => ?_) hm ht hr⟩
          unfold kept
          dsimp only
          rw [hfirst, htag, ht, if_neg (fun h' => h h'.2),
            if_neg (fun h' => absurd h'.1 (by decide))]
      · exact absurd hr (by simp)
  · exact absurd hr (by simp)

/-- `((x >> r) & m) << l` on the signed shape of 32 bits, over the contents of an
address. -/
def maskedField (r m l : Int) : Exp :=
  let sh := intShape 32 true
  let c v := Exp.mk (intConst sh v) []
  meB3 sh (meB3 sh (meB3 sh (loaded sh) (c r) .shrTag) (c m) .andTag) (c l) .shlTag

theorem maskedField_masked {r l : Nat} (hr : r < 32) (hl : l < 32) (hm : InRange true 32 m) :
    Masked p (intShape 32 true) (loaded (intShape 32 true)) (maskedField r m l) := by
  have hcount : ∀ k : Nat, k < 32 →
      IsCount p (intShape 32 true) (.mk (intConst (intShape 32 true) k) []) k := by
    intro k hk
    refine ⟨⟨_, rfl, rfl, intShape32_isInt true, intConst_canon ?_⟩, hk⟩
    simp only [InRange, if_true]
    omega
  exact .shift (.inl rfl) rfl (.mask rfl rfl (.shift (.inr rfl) rfl .here (hcount r hr))
    ⟨_, rfl, rfl, rfl, intConst_canon hm⟩) (hcount l hl)

/-- `((x >> 4) & 15) << 8` becomes `(x & 240) << 4`, with the same value at -1. -/
theorem refactorShifts_exact_at :
    intVal (startSt false).pool (atValue (loaded (intShape 32 true)) (-1))
      (meB3 (intShape 32 true) (meB3 (intShape 32 true) (loaded (intShape 32 true))
        (meShint (intShape 32 true) 240) .andTag) (meShint (intShape 32 true) 4) .shlTag) =
    intVal (startSt false).pool (atValue (loaded (intShape 32 true)) (-1))
    (maskedField 4 15 8) := by
  have hm := maskedField_masked (p := (startSt false).pool) (r := 4) (l := 8) (m := 15) (by decide)
    (by decide) (by decide)
  refine (@refactorShifts_exact_iff (fun _ => 0) _ _ (maskedField 4 15 8) _
    (intShape32_isInt true) hm (by decide) (by decide)).2 ?_ (-1) (by decide)
  refine maskKept_of_int (r := 4) (l := 8) (m := 15) (intShape32_isInt true) rfl (by decide)
    ⟨_, rfl, rfl, rfl, intConst_canon (by decide)⟩ (by decide)
    ⟨⟨_, rfl, rfl, intShape32_isInt true, intConst_canon (by decide)⟩, by decide⟩
    ⟨⟨_, rfl, rfl, intShape32_isInt true, intConst_canon (by decide)⟩, by decide⟩ (.inl (by decide))

/-- `((x >> 24) & 255) << 8` is rewritten to an expression with another value at
-1: the sign of `x & 0xff000000` is shifted in. -/
theorem refactorShifts_brings_sign :
    ∃ e', refactorShifts (fun _ => 0) (maskedField 24 255 8) = some e' ∧
      Masked (startSt false).pool (intShape 32 true) (kept (maskedField 24 255 8))
        (maskedField 24 255 8) ∧
      (intShape 32 true).Has (-1) ∧
      intVal (startSt false).pool (atValue (kept (maskedField 24 255 8)) (-1)) e' ≠
        intVal (startSt false).pool (atValue (kept (maskedField 24 255 8)) (-1))
          (maskedField 24 255 8) := by
  refine ⟨_, rfl, ?_, by decide, by decide⟩
  exact maskedField_masked (r := 24) (l := 8) (by decide) (by decide) (by decide)

end Tendra.Ref
