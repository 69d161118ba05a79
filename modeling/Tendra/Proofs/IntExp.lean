import Tendra.Proofs.Canon
import Tendra.Ref.Refactor

/-!
# Values over one part

What `intVal` gives for the expressions that the rewritings build around a part
`x` that has a value of its own.
-/

namespace Tendra.Ref

open Tendra.Word

variable {p : Pool} {n : Node} {v : Int}

theorem Exp.ne_of_mem {args : List Exp} {x : Exp} (h : x ∈ args) : .mk n args ≠ x := by
  intro heq
  have := List.sizeOf_lt_of_mem h
  rw [← heq, Exp.mk.sizeOf_spec] at this
  omega

@[simp] theorem intVal_part (p : Pool) (x : Exp) (v : Int) : intVal p (atValue x v) x = v := by
  obtain ⟨n, args⟩ := x
  rw [intVal, atValue, if_pos rfl]

/-- An operation on other parts than `x`. -/
theorem intVal_op {x : Exp} {args : List Exp} (h : .mk n args ≠ x) :
    intVal p (atValue x v) (.mk n args) = intPrim p n (intVals p (atValue x v) args) := by
  rw [intVal, atValue, if_neg h]

@[simp] theorem intVals_nil (p : Pool) (part : Exp → Option Int) : intVals p part [] = [] := rfl

@[simp] theorem intVals_cons (p : Pool) (part : Exp → Option Int) (e : Exp) (es : List Exp) :
    intVals p part (e :: es) = intVal p part e :: intVals p part es := rfl

theorem Shape.Has.wrap_eq {sh : Shape} (hs : sh.IsInt) (h : sh.Has v) :
    sh.wrap v = v := decode_ofInt hs.pos h

/-- The value of a constant that is held as an `int`. -/
theorem constVal_plain (h : isbigval n = false) :
    constVal p n = n.sh.wrap (decode n.sh.isSigned (BitVec.ofInt 32 n.no)) := by
  have hx : expToF64 p n = .ok (intToF64 (BitVec.ofInt 32 n.no) n.sh.isSigned) := by
    rw [expToF64, h]
    rfl
  have hb : (intToF64 (BitVec.ofInt 32 n.no) n.sh.isSigned).big ++
      (intToF64 (BitVec.ofInt 32 n.no) n.sh.isSigned).small =
      (intToF64 (BitVec.ofInt 32 n.no) n.sh.isSigned).bits := rfl
  rw [constVal, hx]
  dsimp only
  rw [hb, intToF64_bits, decode_ofInt_decode (by decide) (by decide)]

/-- A canonical constant has the value it represents. -/
theorem Canon.constVal_eq (h : Canon p n v) (hs : n.sh.IsInt) : constVal p n = v := by
  obtain ⟨x, hx, hbits⟩ := expToF64_canon h hs
  have hb : x.big ++ x.small = BitVec.ofInt 64 v := hbits
  rw [constVal, hx]
  dsimp only
  rw [hb, decode_ofInt (by decide) (h.range64 hs)]
  exact Shape.Has.wrap_eq hs h.range

/-- A constant that a rewriting makes. -/
theorem intVal_meShint {x : Exp} (hx : x.tag ≠ .valTag) (sh : Shape) (i : BitVec 32) :
    intVal p (atValue x v) (meShint sh i) = sh.wrap (decode sh.isSigned i) := by
  rw [meShint, intVal_op (by rintro rfl; exact hx rfl), intVals_nil, intPrim, if_pos rfl,
    constVal_plain (by rw [isbigval_eq]; rfl)]
  dsimp only
  rw [BitVec.ofInt_toInt]

/-- A constant of the source. -/
theorem intVal_const {x : Exp} {w : Int} (hx : x.tag ≠ .valTag) (htag : n.tag = .valTag)
    (hs : n.sh.IsInt) (h : Canon p n w) : intVal p (atValue x v) (.mk n []) = w := by
  rw [intVal_op (by rintro rfl; exact hx htag), intVals_nil, intPrim, if_pos htag,
    h.constVal_eq hs]

/-- The contents of an address that is not simply a name. -/
def loaded (sh : Shape) : Exp :=
  .mk ⟨.contTag, sh, 0, 0, none, 0⟩ [.mk ⟨.topTag, topShape, 0, 0, none, 0⟩ []]

end Tendra.Ref
