import Tendra.Proofs.Distribute
import Tendra.Proofs.PoolRuns

/-!
# Operands that are dropped

Three cases of `refactor` drop part of an expression after a test of sizes or of the numbers of
constants. Two changes of variety become one: that is right when the shape in the middle is as wide
as the outer one, which one of the five rules does not ask. A mask goes out of an or when the
numbers of the mask and of the constant make up 32 ones: that says something about the values when
the mask is a constant held as an `int`. And a shift, a division or a remainder by a constant is
decided on the number of the constant, which is an index where the value is not held as an `int`.
-/

namespace Tendra.Ref

open Tendra.Word

/-! ## Changes of variety -/

/-- A reduction to more bits before another one makes no difference. -/
theorem wrap_wrap_of_le {sg sg' : Bool} {m n : Nat} (h : m ≤ n) (v : Int) :
    wrap sg m (wrap sg' n v) = wrap sg m v := by
  have hofInt : BitVec.ofInt m (decode sg' (BitVec.ofInt n v)) = BitVec.ofInt m v := by
    rw [← setWidth_ofInt h, ofInt_decode, setWidth_ofInt h]
  rw [wrap, wrap, hofInt, wrap]

/-- A power of two, or its negation, that a shape of more bits has. -/
theorem exists_has_dvd {sh : Shape} {k : Nat} (h : k < sh.size) :
    ∃ v : Int, sh.Has v ∧ v.natAbs = 2 ^ k := by
  have hle : 2 ^ k ≤ 2 ^ (sh.size - 1) := Nat.pow_le_pow_right (by decide) (by omega)
  have hlt : 2 ^ k < 2 ^ sh.size := Nat.pow_lt_pow_right (by decide) h
  have hpos : 0 < 2 ^ k := Nat.two_pow_pos k
  cases hsg : sh.isSigned with
  | true =>
      refine ⟨-((2 ^ k : Nat) : Int), ?_, by simp⟩
      simp only [Shape.Has, InRange, hsg, if_true]
      have hle' : ((2 ^ k : Nat) : Int) ≤ ((2 ^ (sh.size - 1) : Nat) : Int) := by exact_mod_cast hle
      push_cast at hle' ⊢
      have hpos' : (0 : Int) < 2 ^ k := by positivity
      exact ⟨by omega, by omega⟩
  | false =>
      refine ⟨((2 ^ k : Nat) : Int), ?_, by simp⟩
      simp only [Shape.Has, InRange, hsg, Bool.false_eq_true, if_false]
      exact ⟨Int.natCast_nonneg _, by exact_mod_cast hlt⟩

/-- A reduction to fewer bits is seen. -/
theorem wrap_wrap_ne {sg sg' : Bool} {m n : Nat} (h : n < m) {v : Int} (hv : v.natAbs = 2 ^ n) :
    wrap sg m (wrap sg' n v) ≠ wrap sg m v := by
  have hzero : BitVec.ofInt n v = BitVec.ofInt n 0 := by
    rw [ofInt_eq_iff, Int.sub_zero, Int.natCast_dvd, hv]
  have hinner : wrap sg' n v = 0 := by
    rw [wrap, hzero]
    cases sg' <;> simp
  intro heq
  rw [hinner, wrap, wrap, decode_inj, ofInt_eq_iff, Int.zero_sub, Int.dvd_neg, Int.natCast_dvd,
    hv] at heq
  exact absurd (Nat.le_of_dvd (Nat.two_pow_pos n) heq)
    (Nat.not_le.2 (Nat.pow_lt_pow_right (by decide) h))

section Chvar

variable {p : Pool} {byteRegs : Bool} {n n1 : Node} {x e' : Exp} {v : Int}

theorem intVal_chvarTag (h : n.tag = .chvarTag) (hne : .mk n [e'] ≠ x) :
    intVal p (atValue x v) (.mk n [e']) = n.sh.wrap (intVal p (atValue x v) e') := by
  rw [intVal_op hne, intVals_cons, intVals_nil, intPrim, h]

theorem eqShape_wrap {a b : Shape} (h : eqShape a b = true) :
    a.size = b.size ∧ a.wrap v = b.wrap v := by
  have hsame : a.size = b.size ∧ a.isSigned = b.isSigned := by
    unfold eqShape at h
    grind
  exact ⟨hsame.1, by rw [Shape.wrap, Shape.wrap, hsame.1, hsame.2]⟩

/-- One change of variety is left, to the outer shape; the rules compare that with the shape in the
middle or with the one of the operand. -/
theorem refactorChvar_cases (htag1 : n1.tag = .chvarTag)
    (h : refactorChvar byteRegs (.mk n [.mk n1 [x]]) = some e') :
    intVal p (atValue x v) e' = n.sh.wrap v ∧
      (n.sh.size ≤ n1.sh.size ∨ n.sh.size = x.sh.size) := by
  have hx (k : Node) : .mk k [x] ≠ x := Exp.ne_of_mem (List.mem_singleton.2 rfl)
  have hone : intVal p (atValue x v) (meU3 n.sh x .chvarTag) = n.sh.wrap v := by
    rw [meU3, intVal_chvarTag rfl (hx _), intVal_part]
  rw [refactorChvar] at h
  split at h
  · next heq =>
      obtain rfl := Option.some.inj h
      have hsame := eqShape_wrap (v := v) heq
      rw [intVal_chvarTag htag1 (hx _), intVal_part]
      exact ⟨hsame.2.symm, .inl hsame.1.le⟩
  · split at h
    · next hbit =>
        obtain rfl := Option.some.inj h
        exact ⟨hone, .inr hbit.1⟩
    · split at h
      · next hequal =>
          obtain rfl := Option.some.inj h
          exact ⟨hone, .inl hequal.2.le⟩
      · split at h
        · next hless =>
            obtain rfl := Option.some.inj h
            exact ⟨hone, .inr hless.2.2⟩
        · split at h
          · next hregs =>
              obtain rfl := Option.some.inj h
              refine ⟨?_, .inl hregs.2⟩
              rw [intVal_chvarTag (n := { n1 with sh := n.sh }) htag1 (hx _), intVal_part]
          · cases h

/-- Two changes of variety that become one keep every value of the operand exactly when the shape in
the middle is as wide as the outer one. -/
theorem refactorChvar_keeps_iff (htag : n.tag = .chvarTag) (htag1 : n1.tag = .chvarTag)
    (h : refactorChvar byteRegs (.mk n [.mk n1 [x]]) = some e') :
    (∀ v, x.sh.Has v → intVal p (atValue x v) e' =
        intVal p (atValue x v) (.mk n [.mk n1 [x]])) ↔ n.sh.size ≤ n1.sh.size := by
  have hx : .mk n1 [x] ≠ x := Exp.ne_of_mem (List.mem_singleton.2 rfl)
  have hold (v : Int) (hne : .mk n [.mk n1 [x]] ≠ x) :
      intVal p (atValue x v) (.mk n [.mk n1 [x]]) = n.sh.wrap (n1.sh.wrap v) := by
    rw [intVal_chvarTag htag hne, intVal_chvarTag htag1 hx, intVal_part]
  have hne : .mk n [.mk n1 [x]] ≠ x := by
    intro heq
    have hsize := congrArg sizeOf heq
    simp only [Exp.mk.sizeOf_spec, List.cons.sizeOf_spec, List.nil.sizeOf_spec] at hsize
    omega
  constructor
  · intro hall
    by_contra hlt
    have hcases := refactorChvar_cases (p := p) (v := 0) htag1 h
    have hsize := hcases.2.resolve_left hlt
    obtain ⟨v, hv, habs⟩ := exists_has_dvd (show n1.sh.size < x.sh.size by omega)
    have heq := hall v hv
    rw [(refactorChvar_cases htag1 h).1, hold v hne] at heq
    exact wrap_wrap_ne (by omega) habs heq.symm
  · intro hle v _
    rw [(refactorChvar_cases htag1 h).1, hold v hne]
    exact (wrap_wrap_of_le hle v).symm

end Chvar

/-- The type of an integer or of a bitfield. -/
def Shape.IsVariety (sh : Shape) : Prop := sh.IsInt ∨ sh.hd = .bitfhd ∧ 0 < sh.size ∧ sh.size ≤ 64

/-- A change of variety between parts. -/
def chvarNode (sh : Shape) : Node := ⟨.chvarTag, sh, 0, 0, none, 0⟩

/-- The type of a bitfield. -/
def bitfShape (size : Nat) (sg : Bool) : Shape := ⟨.bitfhd, size, sg, 1, 1, 1⟩

/-- The value -1 goes to `unsigned` by way of `int`. -/
theorem refactorChvar_keeps_unsigned :
    intVal (startSt false).pool (atValue (loaded (intShape 8 true)) (-1))
        (meU3 (intShape 32 false) (loaded (intShape 8 true)) .chvarTag) =
      intVal (startSt false).pool (atValue (loaded (intShape 8 true)) (-1))
        (.mk (chvarNode (intShape 32 false))
          [.mk (chvarNode (intShape 32 true)) [loaded (intShape 8 true)]]) :=
  (@refactorChvar_keeps_iff (startSt false).pool false (chvarNode (intShape 32 false))
    (chvarNode (intShape 32 true)) (loaded (intShape 8 true)) _ rfl rfl (by decide)).2 (by decide)
    (-1) (by decide)

/-- By way of a bitfield of 8 bits 256 becomes 0. -/
theorem not_refactorChvar_keeps :
    ¬∀ (p : Pool) (byteRegs : Bool) (n n1 : Node) (x e' : Exp) (v : Int), n.sh.IsVariety →
      n1.sh.IsVariety → x.sh.IsVariety → n.tag = .chvarTag → n1.tag = .chvarTag →
      refactorChvar byteRegs (.mk n [.mk n1 [x]]) = some e' → x.sh.Has v →
      intVal p (atValue x v) e' = intVal p (atValue x v) (.mk n [.mk n1 [x]]) := by
  intro h
  have hint : (intShape 32 true).IsVariety := .inl (intShape32_isInt true)
  have hbit : (bitfShape 8 false).IsVariety := .inr ⟨rfl, by decide, by decide⟩
  have heq := h (startSt false).pool false (chvarNode (intShape 32 true))
    (chvarNode (bitfShape 8 false)) (loaded (intShape 32 true))
    (meU3 (intShape 32 true) (loaded (intShape 32 true)) .chvarTag) 256 hint hbit hint rfl rfl
    (by decide) (by decide)
  exact absurd heq (by decide)

/-! ## A mask in an or -/

/-- A valuation of the parts that are no operations on patterns and no constants. -/
def OfParts (part : Exp → Option Int) : Prop :=
  ∀ e : Exp, e.tag = .valTag ∨ e.tag = .andTag ∨ e.tag = .orTag → part e = none

/-- Absorption of a mask, bit by bit. -/
theorem and_or_eq_or_iff {n : Nat} {x m d : BitVec n} : x ||| d = x &&& m ||| d ↔
    ∀ i < n, x.getLsbD i = true → m.getLsbD i = true ∨ d.getLsbD i = true := by
  constructor
  · intro heq i hi hx
    have hbit := congrArg (·.getLsbD i) heq
    simp only [BitVec.getLsbD_or, BitVec.getLsbD_and, hx, Bool.true_or, Bool.true_and] at hbit
    simpa using hbit.symm
  · intro h
    apply BitVec.eq_of_getLsbD_eq
    intro i hi
    have hi' := h i hi
    rw [BitVec.getLsbD_or, BitVec.getLsbD_or, BitVec.getLsbD_and]
    cases hx : x.getLsbD i
    · rfl
    · have hor : m.getLsbD i || d.getLsbD i := by simpa using hi' hx
      rw [Bool.true_and, hor]
      rfl

section Or

variable {p : Pool} {part : Exp → Option Int} {n n1 : Node} {x m e' : Exp} {c : Node} {d : Int}

/-- A constant that is held as an `int`, bit by bit. -/
theorem Canon.bit_plain (hs : c.sh.IsInt) (hd : Canon p c d) (hplain : isbigval c = false) {i : Nat}
    (hi : i < c.sh.size) :
    (BitVec.ofInt c.sh.size d).getLsbD i = sbit c.sh.isSigned (BitVec.ofInt 32 c.no) i := by
  have hval := hd.constVal_eq hs
  rw [constVal_plain hplain] at hval
  rw [← hval, Shape.wrap, wrap, ofInt_decode, getLsbD_ofInt_decode _ hi]

/-- A constant that is held as an `int` and has its last bit set has the bits beyond it set. -/
theorem Canon.last_bit (hd : Canon p c d) (hplain : isbigval c = false)
    (hlast : (BitVec.ofInt 32 c.no).getLsbD 31 = true) :
    c.sh.isSigned = true ∨ c.sh.size ≤ 32 := by
  cases hsg : c.sh.isSigned with
  | true => exact .inl rfl
  | false =>
      refine .inr ?_
      have hp : PlainInt c.sh d := by
        by_contra hn
        exact absurd (hplain.symm.trans (hd.big hn).1) Bool.false_ne_true
      have hr := hd.range
      rw [PlainInt, hsg, if_neg (by decide)] at hp
      rw [InRange, hsg, if_neg (by decide)] at hr
      rw [hd.ofInt_no hplain] at hlast
      refine hp.resolve_left fun hlt => ?_
      have hnat : (BitVec.ofInt 32 d).toNat < 2 ^ 31 := by
        rw [BitVec.toNat_ofInt]
        omega
      rw [BitVec.getLsbD, Nat.testBit_lt_two_pow hnat] at hlast
      cases hlast

/-- Two constants held as an `int` whose numbers make up 32 ones have a one in each place. -/
theorem Canon.covers {c' : Node} {k : Int} (hs : c.sh.IsInt) (hsh : c'.sh = c.sh)
    (hd : Canon p c d) (hk : Canon p c' k) (hplain : isbigval c = false)
    (hplain' : isbigval c' = false)
    (hones : BitVec.ofInt 32 c.no ||| BitVec.ofInt 32 c'.no = 0xffffffff) {i : Nat}
    (hi : i < c.sh.size) :
    (BitVec.ofInt c.sh.size k).getLsbD i = true ∨ (BitVec.ofInt c.sh.size d).getLsbD i = true := by
  have hbit (j : Nat) (hj : j < 32) : (BitVec.ofInt 32 c'.no).getLsbD j = true ∨
      (BitVec.ofInt 32 c.no).getLsbD j = true := by
    have h := congrArg (·.getLsbD j) hones
    have hall : (0xffffffff : BitVec 32) = BitVec.allOnes 32 := by decide
    simp only [BitVec.getLsbD_or, hall, BitVec.getLsbD_allOnes, hj, decide_true,
      Bool.or_eq_true] at h
    exact h.symm
  have hk' := hk.bit_plain (hsh ▸ hs) hplain' (i := i) (hsh ▸ hi)
  rw [hsh] at hk'
  rw [hk', hd.bit_plain hs hplain hi]
  by_cases hi32 : i < 32
  · rw [sbit_of_lt hi32, sbit_of_lt hi32]
    exact hbit i hi32
  · have hsg : c.sh.isSigned = true := by
      rcases hbit 31 (by decide) with hlast | hlast
      · have h := hk.last_bit hplain' hlast
        rw [hsh] at h
        exact h.resolve_right (by omega)
      · exact (hd.last_bit hplain hlast).resolve_right (by omega)
    rw [sbit_of_le (by omega), sbit_of_le (by omega), hsg, Bool.true_and, Bool.true_and]
    exact hbit 31 (by decide)

/-- The value of an operation on patterns. -/
theorem intVal_ofParts (hp : OfParts part) {args : List Exp}
    (ht : n.tag = .valTag ∨ n.tag = .andTag ∨ n.tag = .orTag) :
    intVal p part (.mk n args) = intPrim p n (intVals p part args) := by
  rw [intVal, hp (.mk n args) ht]

variable (hs : n.sh.IsInt) (htag : n.tag = .orTag) (hn1 : n1.sh = n.sh) (hm : m.sh = n.sh)
variable (hc : c.sh = n.sh) (hd : Canon p c d)
variable (hconst : m.tag = .valTag → m.args = [] ∧ ∃ k, Canon p m.node k) (hpart : OfParts part)
include hs htag hn1 hm hc hd hconst hpart

/-- The or without the mask has the value of the or with it exactly when the mask is a constant held
as an `int`, or when every bit that the mask would clear is in the constant. -/
theorem refactorOr_keeps_iff
    (h : refactorOr (.mk n [.mk n1 [x, m], .mk c []]) = some e') :
    intVal p part e' = intVal p part (.mk n [.mk n1 [x, m], .mk c []]) ↔
      (m.tag = .valTag ∧ isbigval m.node = false) ∨
      ∀ i < n.sh.size, (BitVec.ofInt n.sh.size (intVal p part x)).getLsbD i = true →
        (BitVec.ofInt n.sh.size (intVal p part m)).getLsbD i = true ∨
          (BitVec.ofInt n.sh.size d).getLsbD i = true := by
  rw [refactorOr] at h
  split at h
  · next hrule =>
      obtain ⟨htag1, hctag, hbig, -, hones⟩ := hrule
      obtain rfl := Option.some.inj h
      rw [Bool.not_eq_true] at hbig
      have hcval : intVal p part (.mk c []) = d := by
        rw [intVal_ofParts hpart (.inl hctag), intVals_nil, intPrim, if_pos hctag,
          hd.constVal_eq (hc ▸ hs)]
      have hmask : intVal p part (.mk n1 [x, m]) = decode n.sh.isSigned
          (BitVec.ofInt n.sh.size (intVal p part x) &&&
            BitVec.ofInt n.sh.size (intVal p part m)) := by
        rw [intVal_ofParts hpart (.inr (.inl htag1)), intVals_cons, intVals_cons, intVals_nil]
        simp only [intPrim, htag1]
        rw [hn1]
      have hor (k : Node) (a : Exp) (hk : k.tag = .orTag) (hksh : k.sh = n.sh) :
          intVal p part (.mk k [a, .mk c []]) = decode n.sh.isSigned
            (BitVec.ofInt n.sh.size (intVal p part a) ||| BitVec.ofInt n.sh.size d) := by
        rw [intVal_ofParts hpart (.inr (.inr hk)), intVals_cons, intVals_cons, intVals_nil, hcval]
        simp only [intPrim, hk]
        rw [hksh]
      rw [meB3, hor ⟨.orTag, n.sh, 0, 0, none, 0⟩ x rfl rfl, hor n _ htag rfl, hmask, ofInt_decode,
        decode_inj, and_or_eq_or_iff]
      refine ⟨.inr, fun hcase => ?_⟩
      cases hcase with
      | inl hplain =>
          intro i hi _
          obtain ⟨mn, margs⟩ := m
          obtain ⟨rfl, k, hk⟩ := hconst hplain.1
          have hmtag : mn.tag = .valTag := hplain.1
          have hmsh : mn.sh = n.sh := hm
          have hmk : Canon p mn k := hk
          have hmval : intVal p part (.mk mn []) = k := by
            rw [intVal_ofParts hpart (.inl hmtag), intVals_nil, intPrim, if_pos hmtag,
              hmk.constVal_eq (hmsh ▸ hs)]
          rw [hmval]
          have hcover := hd.covers (hc ▸ hs) (hmsh.trans hc.symm) hmk hbig hplain.2 hones (i := i)
            (hc ▸ hi)
          rwa [hc] at hcover
      | inr hbits => exact hbits
  · cases h

end Or

theorem ofParts_atValue {x : Exp} {v : Int}
    (hx : ¬(x.tag = .valTag ∨ x.tag = .andTag ∨ x.tag = .orTag)) : OfParts (atValue x v) := by
  intro e he
  rw [atValue, if_neg]
  rintro rfl
  exact hx he

/-- The constants -16 and 15, and the value 37. -/
theorem refactorOr_keeps_small :
    intVal (startSt false).pool (atValue (loaded (intShape 32 true)) 37)
        (meB3 (intShape 32 true) (loaded (intShape 32 true))
          (.mk (intConst (intShape 32 true) 15) []) .orTag) =
      intVal (startSt false).pool (atValue (loaded (intShape 32 true)) 37)
        (meB3 (intShape 32 true) (meB3 (intShape 32 true) (loaded (intShape 32 true))
          (.mk (intConst (intShape 32 true) (-16)) []) .andTag)
          (.mk (intConst (intShape 32 true) 15) []) .orTag) := by
  have hcanon (k : Int) (hk : InRange true 32 k) :
      Canon (startSt false).pool (intConst (intShape 32 true) k) k := intConst_canon hk
  exact (@refactorOr_keeps_iff (startSt false).pool (atValue (loaded (intShape 32 true)) 37)
    ⟨.orTag, intShape 32 true, 0, 0, none, 0⟩ ⟨.andTag, intShape 32 true, 0, 0, none, 0⟩
    (loaded (intShape 32 true)) (.mk (intConst (intShape 32 true) (-16)) []) _
    (intConst (intShape 32 true) 15) 15 (intShape32_isInt true) rfl rfl rfl rfl
    (hcanon 15 (by decide)) (fun _ => ⟨rfl, -16, hcanon (-16) (by decide)⟩)
    (ofParts_atValue (by decide)) (by decide)).2 (.inl ⟨rfl, by decide⟩)

/-- A mask that is a variable 32 bits into the one it belongs to, and the constant -33. -/
theorem not_refactorOr_keeps :
    ¬∀ (p : Pool) (part : Exp → Option Int) (n n1 : Node) (x m e' : Exp) (c : Node) (d : Int),
      n.sh.IsInt → n.tag = .orTag → n1.sh = n.sh → x.sh = n.sh → m.sh = n.sh → c.sh = n.sh →
      Canon p c d → (m.tag = .valTag → m.args = [] ∧ ∃ k, Canon p m.node k) → OfParts part →
      (∀ e v, part e = some v → e.sh.Has v) →
      refactorOr (.mk n [.mk n1 [x, m], .mk c []]) = some e' →
      intVal p part e' = intVal p part (.mk n [.mk n1 [x, m], .mk c []]) := by
  intro h
  let x := loaded (intShape 32 true)
  let m : Exp := .mk ⟨.nameTag, intShape 32 true, 32, 0, none, 0⟩ []
  let part : Exp → Option Int := fun e => if e = x then some 32 else if e = m then some 0 else none
  have hparts : OfParts part := by
    intro e he
    have hx : e ≠ x := by rintro rfl; exact absurd he (by decide)
    have hm : e ≠ m := by rintro rfl; exact absurd he (by decide)
    simp [part, hx, hm]
  have hrange (e : Exp) (v : Int) (hv : part e = some v) : e.sh.Has v := by
    by_cases hx : e = x
    · simp only [part, if_pos hx, Option.some.injEq] at hv
      subst hx hv
      decide
    · by_cases hm : e = m
      · simp only [part, if_neg hx, if_pos hm, Option.some.injEq] at hv
        subst hm hv
        decide
      · simp [part, hx, hm] at hv
  have heq := h (startSt false).pool part ⟨.orTag, intShape 32 true, 0, 0, none, 0⟩
    ⟨.andTag, intShape 32 true, 0, 0, none, 0⟩ x m
    (meB3 (intShape 32 true) x (.mk (intConst (intShape 32 true) (-33)) []) .orTag)
    (intConst (intShape 32 true) (-33)) (-33) (intShape32_isInt true) rfl rfl rfl rfl rfl
    (intConst_canon (by decide)) (fun hval => absurd hval (by decide)) hparts hrange (by decide)
  exact absurd heq (by decide)

/-! ## Shifts, divisions and remainders by a constant -/

def isShift (t : Tag) : Bool := t = .shlTag ∨ t = .shrTag

def isRemainder (t : Tag) : Bool := t = .modTag ∨ t = .rem0Tag ∨ t = .rem2Tag

def isDivision (t : Tag) : Bool := t = .div0Tag ∨ t = .div1Tag ∨ t = .div2Tag

/-- What is done on account of the constant `b` is right for its value `d`. -/
structure StepByValue (n : Node) (a b : Exp) (d : Int) : Prop where
  shift : isShift n.tag → constStep n a b = some .operand → d = 0
  division : isDivision n.tag → constStep n a b = some .operand → d = 1
  remainder : constStep n a b = some .zero → d = -1
  folded : isDivision n.tag ∨ isRemainder n.tag → optop n → a.tag = .valTag →
    ((constStep n a b).isSome ↔ d ≠ 0)

/-- A constant that is held in the pool is not taken for 0 or 1. -/
def IndexApart (n : Node) (a : Exp) (c : Node) : Prop :=
  isbigval c → (isShift n.tag → c.no ≠ 0) ∧ (isDivision n.tag → c.no ≠ 1) ∧
    (isDivision n.tag ∨ isRemainder n.tag → optop n → a.tag = .valTag → c.no ≠ 0)

section Const

variable {p : Pool} {n c : Node} {a : Exp} {d : Int}

/-- The values that the tests look for. -/
def UnitValue (sh : Shape) (k : Int) : Prop := k = 0 ∨ k = 1 ∨ sh.isSigned = true ∧ k = -1

/-- The number of a constant that is held as an `int`, against the values that are looked for. -/
theorem Canon.no_iff (hd : Canon p c d) (hs : c.sh.IsInt) (hplain : isbigval c = false) {k : Int}
    (hk : UnitValue c.sh k) : c.no = k ↔ d = k := by
  have hp : PlainInt c.sh d := by
    by_contra hn
    exact absurd (hplain.symm.trans (hd.big hn).1) Bool.false_ne_true
  have hr := hd.range
  have hlow : c.sh.isSigned = false ∧ 0 ≤ d ∧ d < 2 ^ 32 ∨ -2 ^ 31 ≤ d ∧ d < 2 ^ 31 := by
    unfold PlainInt at hp
    unfold InRange at hr
    cases hsg : c.sh.isSigned with
    | true =>
        rw [hsg, if_pos rfl] at hp
        exact .inr hp
    | false =>
        rw [hsg, if_neg (by decide)] at hp hr
        refine .inl ⟨rfl, ?_⟩
        rcases hs.size with h | h | h | h <;> rw [h] at hr hp <;> omega
  have hbmod : d.bmod (2 ^ 32) = if d % 4294967296 < 2147483648 then d % 4294967296
      else d % 4294967296 - 4294967296 := Int.bmod_def d (2 ^ 32)
  rw [(hd.plain hp).2, BitVec.toInt_ofInt, hbmod]
  rcases hk with rfl | rfl | ⟨hsg, rfl⟩
  · split <;> omega
  · split <;> omega
  · have hint := hlow.resolve_left fun h => absurd (h.1.symm.trans hsg) Bool.false_ne_true
    split <;> omega

/-- The value of a constant that is held in the pool is none of them. -/
theorem Canon.ne_of_big (hd : Canon p c d) (hbig : isbigval c = true) {k : Int}
    (hk : UnitValue c.sh k) : d ≠ k := by
  rintro rfl
  have hplain : PlainInt c.sh d := by
    unfold PlainInt
    unfold UnitValue at hk
    split
    · omega
    · next hsg => grind
  exact absurd ((hd.plain hplain).1.symm.trans hbig) Bool.false_ne_true

theorem constStep_shift (h : isShift n.tag) {b : Exp} : constStep n a b = shiftStep a b := by
  simp only [isShift, decide_eq_true_eq] at h
  cases h with
  | inl h => rw [constStep, h]
  | inr h => rw [constStep, h]

theorem constStep_division (h : isDivision n.tag) {b : Exp} :
    constStep n a b = divisionStep n a b := by
  simp only [isDivision, decide_eq_true_eq] at h
  rcases h with h | h | h <;> rw [constStep, h]

theorem constStep_remainder (h : isRemainder n.tag) {b : Exp} :
    constStep n a b = remStep n a b := by
  simp only [isRemainder, decide_eq_true_eq] at h
  rcases h with h | h | h <;> rw [constStep, h]

variable (hc : c.tag = .valTag)
include hc

theorem shiftStep_operand_iff : shiftStep a (.mk c []) = some .operand ↔ c.no = 0 := by
  have htag : (Exp.mk c []).tag = .valTag := hc
  simp only [shiftStep, htag, true_and, and_true]
  have hno : (Exp.mk c []).no = c.no := rfl
  rw [hno]
  split
  · next h => simp [h]
  · next h => split <;> simp [h]

theorem divisionStep_iff : (divisionStep n a (.mk c []) = some .operand ↔ c.no = 1) ∧
    divisionStep n a (.mk c []) ≠ some .zero ∧
    (optop n → a.tag = .valTag → ((divisionStep n a (.mk c [])).isSome ↔ c.no ≠ 0)) := by
  have htag : (Exp.mk c []).tag = .valTag := hc
  have hno : (Exp.mk c []).no = c.no := rfl
  simp only [divisionStep, htag, true_and, hno]
  split
  · next h => simp [h]
  · next h => split <;> simp_all

theorem remStep_iff : remStep n a (.mk c []) ≠ some .operand ∧
    (remStep n a (.mk c []) = some .zero ↔
      a.tag = .valTag ∧ n.sh.isSigned = true ∧ c.no = -1) ∧
    (a.tag = .valTag → ((remStep n a (.mk c [])).isSome ↔ c.no ≠ 0)) := by
  have htag : (Exp.mk c []).tag = .valTag := hc
  have hno : (Exp.mk c []).no = c.no := rfl
  simp only [remStep, htag, and_true, hno]
  split
  · next h =>
      split
      · next hm => simp [h, hm]
      · next hm => split <;> simp_all
  · next h => simp [h]

/-- Only a remainder becomes 0. -/
theorem constStep_zero (hkind : isShift n.tag ∨ isDivision n.tag ∨ isRemainder n.tag)
    (h : constStep n a (.mk c []) = some .zero) :
    isRemainder n.tag ∧ n.sh.isSigned = true ∧ c.no = -1 := by
  rcases hkind with hk | hk | hk
  · rw [constStep_shift hk, shiftStep] at h
    grind
  · rw [constStep_division hk] at h
    exact absurd h (divisionStep_iff hc).2.1
  · rw [constStep_remainder hk, (remStep_iff hc).2.1] at h
    exact ⟨hk, h.2⟩

/-- Two constants are put together when the number of the second is not 0. -/
theorem constStep_isSome_iff (hk : isDivision n.tag ∨ isRemainder n.tag) (hopt : optop n)
    (ha : a.tag = .valTag) : (constStep n a (.mk c [])).isSome ↔ c.no ≠ 0 := by
  cases hk with
  | inl hk => rw [constStep_division hk, (divisionStep_iff hc).2.2 hopt ha]
  | inr hk => rw [constStep_remainder hk, (remStep_iff hc).2.2 ha]

variable (hs : c.sh.IsInt) (hd : Canon p c d)
include hs hd

/-- Shifts, divisions and remainders are simplified by the value of their constant exactly when that
is not held in the pool at an index that is read as 0 or 1. -/
theorem constStep_value_iff (hkind : isShift n.tag ∨ isDivision n.tag ∨ isRemainder n.tag)
    (hsh : isRemainder n.tag → c.sh = n.sh) :
    StepByValue n a (.mk c []) d ↔ IndexApart n a c := by
  have h0 : UnitValue c.sh 0 := .inl rfl
  have h1 : UnitValue c.sh 1 := .inr (.inl rfl)
  have hoperand (hk : isShift n.tag) : constStep n a (.mk c []) = some .operand ↔ c.no = 0 := by
    rw [constStep_shift hk, shiftStep_operand_iff hc]
  have hunit (hk : isDivision n.tag) : constStep n a (.mk c []) = some .operand ↔ c.no = 1 := by
    rw [constStep_division hk, (divisionStep_iff hc).1]
  cases hbig : isbigval c with
  | false =>
      have hno0 := hd.no_iff hs hbig h0
      refine ⟨fun _ h => absurd (hbig.symm.trans h) Bool.false_ne_true, fun _ => ?_⟩
      constructor
      · exact fun hk hstep => hno0.1 ((hoperand hk).1 hstep)
      · exact fun hk hstep => (hd.no_iff hs hbig h1).1 ((hunit hk).1 hstep)
      · intro hstep
        obtain ⟨hk, hsg, hno⟩ := constStep_zero hc hkind hstep
        exact (hd.no_iff hs hbig (.inr (.inr ⟨by rw [hsh hk]; exact hsg, rfl⟩))).1 hno
      · intro hk hopt ha
        rw [ne_eq, ← hno0]
        exact constStep_isSome_iff hc hk hopt ha
  | true =>
      have hd0 := hd.ne_of_big hbig h0
      have hd1 := hd.ne_of_big hbig h1
      constructor
      · intro hstep _
        refine ⟨fun hk hno => ?_, fun hk hno => ?_, fun hk hopt ha => ?_⟩
        · exact hd0 (hstep.shift hk ((hoperand hk).2 hno))
        · exact hd1 (hstep.division hk ((hunit hk).2 hno))
        · exact (constStep_isSome_iff hc hk hopt ha).1 ((hstep.folded hk hopt ha).2 hd0)
      · intro hidx
        obtain ⟨hshift, hdiv, hfold⟩ := hidx hbig
        constructor
        · exact fun hk hstep => absurd ((hoperand hk).1 hstep) (hshift hk)
        · exact fun hk hstep => absurd ((hunit hk).1 hstep) (hdiv hk)
        · -- an index is not negative
          intro hstep
          obtain ⟨-, -, hno⟩ := constStep_zero hc hkind hstep
          have hnp : ¬PlainInt c.sh d := fun hp =>
            absurd ((hd.plain hp).1.symm.trans hbig) Bool.false_ne_true
          obtain ⟨-, i, hi, -⟩ := hd.big hnp
          omega
        · intro hk hopt ha
          exact iff_of_true ((constStep_isSome_iff hc hk hopt ha).2 (hfold hk hopt ha)) hd0

end Const

/-- The division of a constant by 1. -/
theorem constStep_value_unit : StepByValue ⟨.div2Tag, intShape 32 true, 0, 0, none, 0⟩
    (.mk (intConst (intShape 32 true) 20) []) (.mk (intConst (intShape 32 true) 1) []) 1 :=
  (constStep_value_iff (p := (startSt false).pool) rfl (intShape32_isInt true)
    (intConst_canon (by decide)) (.inr (.inl rfl)) (fun h => absurd h (by decide))).2
    (fun h => absurd h (by decide))

/-- 2 ^ 40. -/
def pow40 : Flt := ⟨[256, 0, 0, 0, 0, 0, 0, 0, 0, 0], 1, 2⟩

theorem pow40_is : pow40.Is (2 ^ 40) where
  len := rfl
  bounded := by
    unfold Digits.Bounded
    decide
  sign := by decide
  val _ := ⟨2, by decide, rfl, by decide, by decide⟩

/-- The constants of more than 32 bits of a program, 47 of them, and the last one is 2 ^ 40. -/
def manyConstants : List Pool.Call := List.replicate 47 .new ++ [.store 1 pow40]

set_option maxRecDepth 4000 in
theorem runs_manyConstants :
    ((Pool.runs manyConstants (.start fun _ => ⟨[], 0, 0⟩)).map fun s =>
      (s.live.contains 1, s.pool.nos 1)) = some (true, pow40) := by
  rfl

/-- The division by that constant is removed. -/
theorem not_constStep_value :
    ¬∀ (mem : Nat → Flt) (calls : List Pool.Call) (s : Pool.Ledger) (n c : Node) (a : Exp)
      (d : Int), Pool.runs calls (.start mem) = some s → c.tag = .valTag → c.sh.IsInt →
      Canon s.pool c d → (isShift n.tag ∨ isDivision n.tag ∨ isRemainder n.tag) → c.sh = n.sh →
      StepByValue n a (.mk c []) d := by
  intro h
  obtain ⟨s, hs, hmap⟩ := Option.map_eq_some_iff.1 runs_manyConstants
  obtain ⟨hlive, hnos⟩ := Prod.mk.inj hmap
  have hsound := Pool.ok_runs (Pool.ok_start _) hs
  have hint : (intShape 64 true).IsInt := ⟨.inr (.inr (.inr rfl)), by decide⟩
  have hnot : ¬PlainInt (intShape 64 true) (2 ^ 40) := by decide
  have hcanon : Canon s.pool ⟨.valTag, intShape 64 true, 1, 1, none, 0⟩ (2 ^ 40) := by
    refine ⟨by decide, fun hp => absurd hp hnot, fun _ => ⟨by decide, 1, rfl, ?_, ?_⟩⟩
    · rw [hsound.live]
      simpa using hlive
    · rw [hnos]
      exact pow40_is
  have hstep := h _ _ s ⟨.div2Tag, intShape 64 true, 0, 0, none, 0⟩
    ⟨.valTag, intShape 64 true, 1, 1, none, 0⟩ (loaded (intShape 64 true)) (2 ^ 40) hs rfl hint
    hcanon (.inr (.inl rfl)) rfl
  exact absurd (hstep.division rfl (by decide)) (by decide)

/-! ## The constant that is left -/

section Folds

variable {st : FoldSt} {n a b : Node} {va vb : Int} (wide : BitVec 32 → Int → BitVec 32)

/-- Whether the quotient of an operation is the floor. -/
def isFloor (t : Tag) : Bool := t = .div1Tag ∨ t = .modTag

theorem foldFn_eq (hk : isDivision n.tag ∨ isRemainder n.tag) :
    foldFn wide st n a b =
      let div := divFn (if isFloor n.tag then .r2ninf else .r2zero)
      if isDivision n.tag then div st a b else (remFn div st a b).map fun r => (r.1, r.2.1) := by
  simp only [isDivision, isRemainder, decide_eq_true_eq] at hk
  rcases hk with (h | h | h) | h | h | h <;> simp only [foldFn, h] <;> rfl

/-- A division or a remainder of two constants becomes the constant of its value. A remainder
by -1 is 0 without the product that `CHECK_EXTRA` looks at. -/
theorem refactorConst_folds (hok : st.pool.Ok) (hone : st.pool.HasOne) (hs : a.sh.IsInt)
    (hn : n.sh = a.sh) (hbs : b.sh = a.sh) (hat : a.tag = .valTag) (hbt : b.tag = .valTag)
    (ha : Canon st.pool a va) (hb : Canon st.pool b vb) (hnz : vb ≠ 0)
    (hin : st.stray = .lost ∨ DivFits va vb) (hk : isDivision n.tag ∨ isRemainder n.tag)
    (hopt : optop n) (hidx : IndexApart n (.mk a []) b) :
    let q := roundQuot (isFloor n.tag) va vb
    let r := refactorConst wide st (.mk n [.mk a [], .mk b []])
    if isRemainder n.tag ∧ ¬(a.sh.isSigned ∧ vb = -1) ∧ st.checkExtra ∧
        MultOut a.sh (vb * wrap a.sh.isSigned a.sh.size q) then r = .error .exits
    else ∃ p e, r = .ok ({ st with pool := p }, some (.mk e [])) ∧ Wrote st.pool a
      (wrap a.sh.isSigned a.sh.size (if isDivision n.tag then q else va - vb * q)) p e := by
  intro q r
  have hstep := (constStep_value_iff (n := n) (a := .mk a []) hbt (hbs ▸ hs) hb (.inr hk)
    fun _ => hbs.trans hn.symm).2 hidx
  have hexact (h : vb ∣ va) : vb * q = va := by
    unfold q roundQuot
    split
    · exact Int.mul_fdiv_cancel' h
    · exact Int.mul_tdiv_cancel' h
  have hapart (hd : isDivision n.tag) : ¬isRemainder n.tag := by grind [isDivision, isRemainder]
  have hr : r = refactorConst wide st (.mk n [.mk a [], .mk b []]) := rfl
  rw [refactorConst, hn] at hr
  cases hc : constStep n (.mk a []) (.mk b []) with
  | none =>
      have hsome := (hstep.folded hk hopt hat).2 hnz
      rw [hc] at hsome
      cases hsome
  | some step =>
      rw [hc] at hr
      cases step with
      | operand =>
          have hd : isDivision n.tag := hk.resolve_right fun hm => by
            rw [constStep_remainder hm] at hc
            exact (remStep_iff hbt).1 hc
          obtain rfl := hstep.division hd hc
          have hq : q = va := by rw [← hexact (Int.one_dvd va), Int.one_mul]
          rw [if_neg fun h => hapart hd h.1, if_pos hd, hq, wrap, decode_ofInt hs.pos ha.range]
          exact ⟨st.pool, a, hr, hok, Pool.Keeps.refl _, rfl, rfl, ha⟩
      | zero =>
          obtain ⟨hm, hsg, -⟩ := constStep_zero hbt (.inr hk) hc
          obtain rfl := hstep.remainder hc
          rw [hn] at hsg
          have hp : PlainInt a.sh 0 := by simp [PlainInt]
          have hz : InRange a.sh.isSigned a.sh.size 0 := by simp [InRange, hsg]
          rw [if_neg fun h => h.2.1 ⟨hsg, rfl⟩, if_neg fun hd => hapart hd hm,
            hexact ⟨-va, by omega⟩, Int.sub_self, wrap, decode_ofInt hs.pos hz]
          exact ⟨st.pool, _, hr, hok, Pool.Keeps.refl _, rfl, hat.symm, hz,
            fun _ => ⟨by rw [isbigval_eq]; rfl, rfl⟩, fun h => absurd hp h⟩
      | fold =>
          have hfold : foldFn wide st n a (Exp.mk b []).node = _ := foldFn_eq wide hk
          dsimp only [Exp.node] at hfold hr
          rw [hfold] at hr
          cases hk with
          | inl hd =>
              obtain ⟨p, e, hrun, hw, -⟩ :=
                divFn_folded hok hone hs hbs ha hb hnz hin (isFloor n.tag)
              rw [if_pos hd, hrun] at hr
              rw [if_neg fun h => hapart hd h.1, if_pos hd]
              exact ⟨p, e, hr.trans (by rw [← hw.sh]; rfl), hw⟩
          | inr hm =>
              have hex := remFn_folded hok hone hs hbs ha hb hnz hin (isFloor n.tag)
              have hne : ¬(a.sh.isSigned ∧ vb = -1) := by
                rintro ⟨hsg, rfl⟩
                have hno := (hb.plain (by rw [PlainInt, hbs, if_pos hsg]; decide)).2
                rw [constStep_remainder hm,
                  (remStep_iff (a := .mk a []) hbt).2.1.2 ⟨hat, hn ▸ hsg, hno⟩] at hc
                cases hc
              rw [if_neg fun hd => hapart hd hm] at hr ⊢
              dsimp only at hex
              split at hex
              · next h =>
                  rw [if_pos ⟨hm, hne, h⟩, hr, hex]
                  rfl
              · next h =>
                  rw [if_neg fun h' => h h'.2.2]
                  obtain ⟨p, e, hrun, hw, -⟩ := hex
                  rw [hrun] at hr
                  exact ⟨p, e, hr.trans (by rw [← hw.sh]; rfl), hw⟩

end Folds

/-- The least `int` modulo -1, which `domod` does not fold. -/
theorem refactorConst_folds_least :
    let s := intShape 32 true
    ∃ p e, refactorConst (fun x _ => x) (startSt true) (.mk { intConst s 0 with tag := .modTag }
      [.mk (intConst s (-2 ^ 31)) [], .mk (intConst s (-1)) []]) =
        .ok ({ startSt true with pool := p }, some (.mk e [])) ∧ Canon p e 0 := by
  intro s
  obtain ⟨p, e, hr, hw⟩ := @refactorConst_folds (startSt true) { intConst s 0 with tag := .modTag }
    (intConst s (-2 ^ 31)) (intConst s (-1)) (-2 ^ 31) (-1) (fun x _ => x) (Pool.init_ok _)
    (Pool.init_hasOne _) (intShape32_isInt true) rfl rfl rfl rfl (intConst_canon (by decide))
    (intConst_canon (by decide)) (by decide)
    (.inr (divFits_of_dvd (by decide) (by decide) (by decide) (by decide))) (.inr rfl) (by decide)
    fun hbig => absurd hbig (by decide)
  exact ⟨p, e, hr, hw.canon⟩

end Tendra.Ref
