import Tendra.Lib.Forest
import Tendra.Proofs.FoldExact
import Tendra.Ref.CommAss

/-!
# `comm_ass` keeps the value and the parts

The arguments of `e` are a forest: an argument that is an operation of the same kind is
a node, any other one a leaf. The walk comes to the leaves in order. At any time the
items so far hang on `q`, the constants so far are accumulated in `cst`, and all cells
except these and the items before the last one are as they were; so the way on, through
`next` of the last item and of the nested operations, is still there.

The value of an expression of an integer shape is its pattern of bits, and the parts
that `comm_ass` does not look into have any values.
-/

namespace Tendra.Ref

open Tendra.Word

variable {h' : Heap} {xs : List Nat} {n f : Nat} {o : AssOp} {F : Forest Nat} {dive : Bool}
  {p : Pool}

/-! ## Values -/

namespace Heap

@[simp] theorem set_cell_self (h : Heap) (x : Nat) (c : Cell) : (h.set x c).cell x = c := if_pos rfl

theorem set_cell_ne (h : Heap) {x y : Nat} (c : Cell) (hne : y ≠ x) :
    (h.set x c).cell y = h.cell y := if_neg hne

end Heap

namespace AssOp

/-- The operation on patterns of bits. -/
def bits (o : AssOp) {n : Nat} (x y : BitVec n) : BitVec n :=
  match o with
  | plus => x + y
  | mult => x * y
  | and => x &&& y
  | or => x ||| y
  | xor => x ^^^ y

/-- The unit of the operation. -/
def unit (o : AssOp) (n : Nat) : BitVec n :=
  match o with
  | mult => 1
  | and => BitVec.allOnes n
  | _ => 0

instance (o : AssOp) {n : Nat} : Std.Associative (o.bits (n := n)) where
  assoc x y z := by
    cases o
    · exact BitVec.add_assoc x y z
    · exact BitVec.mul_assoc x y z
    · exact BitVec.and_assoc x y z
    · exact BitVec.or_assoc x y z
    · exact BitVec.xor_assoc x y z

instance (o : AssOp) {n : Nat} : Std.Commutative (o.bits (n := n)) where
  comm x y := by
    cases o
    · exact BitVec.add_comm x y
    · exact BitVec.mul_comm x y
    · exact BitVec.and_comm x y
    · exact BitVec.or_comm x y
    · exact BitVec.xor_comm x y

theorem unit_bits (o : AssOp) (x : BitVec n) : o.bits (o.unit n) x = x := by
  cases o
  · exact BitVec.zero_add x
  · exact BitVec.one_mul x
  · exact BitVec.allOnes_and
  · exact BitVec.zero_or
  · exact BitVec.zero_xor

theorem bits_unit (o : AssOp) (x : BitVec n) : o.bits x (o.unit n) = x := by
  rw [@Std.Commutative.comm _ o.bits _, unit_bits]

end AssOp

/-- The pattern of a constant, as `exp_to_f64` decodes it. -/
def constBits (n : Nat) (p : Pool) (e : Node) : BitVec n :=
  match expToF64 p e with
  | .ok x => x.bits.setWidth n
  | .error _ => 0

/-- The arguments from `t` on: each links to the next one, the last one to its father. -/
def Strung (h : Heap) (father : Nat) : Nat → List Nat → Prop
  | _, [] => False
  | t, [x] => t = x ∧ (h.cell x).last = true ∧ (h.cell x).next = father
  | t, x :: y :: xs => t = x ∧ (h.cell x).last = false ∧ Strung h father (h.cell x).next (y :: xs)

/-- The arguments of an expression. -/
def Args (h : Heap) (x : Nat) (xs : List Nat) : Prop := Strung h x (h.cell x).child xs

mutual

/-- The value of an expression over given values of some of its parts: an operation applied to
its arguments, a constant, or the result of a sequence, which follows the holder of its
statements. -/
inductive Evals {n : Nat} (o : AssOp) (p : Pool) (h : Heap) (part : Nat → Option (BitVec n)) :
    Nat → BitVec n → Prop
  | part {x v} : part x = some v → Evals o p h part x v
  | const {x} : part x = none → (h.cell x).tag = .valTag →
      Evals o p h part x (constBits n p (h.cell x).node)
  | op {x xs vs} : part x = none → (h.cell x).tag = o.tag → Args h x xs →
      EvalsAll o p h part xs vs → Evals o p h part x (vs.foldr o.bits (o.unit n))
  | seq {x v} : part x = none → (h.cell x).tag = .seqTag →
      (h.cell (h.cell x).child).tag = .holderTag → (h.cell (h.cell x).child).last = false →
      Evals o p h part (h.cell (h.cell x).child).next v → Evals o p h part x v

inductive EvalsAll {n : Nat} (o : AssOp) (p : Pool) (h : Heap) (part : Nat → Option (BitVec n)) :
    List Nat → List (BitVec n) → Prop
  | nil : EvalsAll o p h part [] []
  | cons {x xs v vs} : Evals o p h part x v → EvalsAll o p h part xs vs →
      EvalsAll o p h part (x :: xs) (v :: vs)

end

section

variable {n : Nat} {o : AssOp} {p : Pool} {h : Heap} {part : Nat → Option (BitVec n)}

theorem Strung.unique : ∀ {t : Nat} {ys : List Nat}, Strung h f t xs →
    Strung h f t ys → xs = ys := by
  induction xs with
  | nil => exact fun hx _ => hx.elim
  | cons x xs ih =>
      intro t ys hx hy
      match xs, ys, hx, hy with
      | _, [], _, hy => exact hy.elim
      | [], [y], hx, hy => rw [← hx.1, hy.1]
      | [], y :: z :: ys, hx, hy =>
          have hlast := hx.2.1
          rw [← hx.1, hy.1, hy.2.1] at hlast
          exact absurd hlast (by decide)
      | z :: xs, [y], hx, hy =>
          have hlast := hy.2.1
          rw [← hy.1, hx.1, hx.2.1] at hlast
          exact absurd hlast (by decide)
      | z :: xs, y :: w :: ys, hx, hy =>
          have hxy : x = y := hx.1.symm.trans hy.1
          subst hxy
          rw [ih hx.2.2 hy.2.2]

/-- An expression has one value. -/
theorem Evals.unique {x : Nat} {v w : BitVec n} (hv : Evals o p h part x v)
    (hw : Evals o p h part x w) : v = w := by
  have htag : o.tag ≠ .seqTag ∧ o.tag ≠ .valTag := by cases o <;> decide
  refine @Evals.rec n o p h part (fun x v _ => ∀ w, Evals o p h part x w → v = w)
    (fun xs vs _ => ∀ ws, EvalsAll o p h part xs ws → vs = ws) ?_ ?_ ?_ ?_ ?_ ?_ x v hv w hw
  · intro x v h1 w hw
    cases hw with
    | part h2 => exact Option.some.inj (h1.symm.trans h2)
    | const h2 => rw [h1] at h2; cases h2
    | op h2 => rw [h1] at h2; cases h2
    | seq h2 => rw [h1] at h2; cases h2
  · intro x h1 ht1 w hw
    cases hw with
    | part h2 => rw [h1] at h2; cases h2
    | const => rfl
    | op _ ht2 => exact absurd (ht2.symm.trans ht1) htag.2
    | seq _ ht2 => rw [ht1] at ht2; cases ht2
  · intro x xs vs h1 ht1 ha1 _ ih w hw
    cases hw with
    | part h2 => rw [h1] at h2; cases h2
    | const _ ht2 => exact absurd (ht1.symm.trans ht2) htag.2
    | op _ _ ha2 hall2 =>
        rw [← Strung.unique ha1 ha2] at hall2
        rw [ih _ hall2]
    | seq _ ht2 => exact absurd (ht1.symm.trans ht2) htag.1
  · intro x v h1 ht1 _ _ _ ih w hw
    cases hw with
    | part h2 => rw [h1] at h2; cases h2
    | const _ ht2 => rw [ht1] at ht2; cases ht2
    | op _ ht2 => exact absurd (ht2.symm.trans ht1) htag.1
    | seq _ _ _ _ he2 => exact ih _ he2
  · intro ws hws
    cases hws
    rfl
  · intro x xs v vs _ _ ih1 ih2 ws hws
    cases hws with
    | cons h2 hall2 => rw [ih1 _ h2, ih2 _ hall2]

end

/-! ## The arguments as a forest -/

/-- An argument that the walk looks into. -/
def inside (o : AssOp) (dive : Bool) (c : Cell) : Bool := sameOp o c ∧ dive

/-- The cells of a forest link to each other as arguments of `father`. -/
def Linked (o : AssOp) (dive : Bool) (h : Heap) : Nat → Forest Nat → Prop
  | _, .nil => True
  | f, .leaf a rest =>
      inside o dive (h.cell a) = false ∧ (h.cell a).last = rest.heads.isEmpty ∧
        (h.cell a).next = rest.first f ∧ Linked o dive h f rest
  | f, .node a inner rest =>
      inside o dive (h.cell a) = true ∧ inner.heads ≠ [] ∧ (h.cell a).child = inner.first a ∧
        Linked o dive h a inner ∧ (h.cell a).last = rest.heads.isEmpty ∧
        (h.cell a).next = rest.first f ∧ Linked o dive h f rest

/-- The expression `e` is an integer operation with the arguments `F`; a constant among them is in
canonical form, and all have the shape of `e`. -/
structure Tree (o : AssOp) (dive : Bool) (p : Pool) (h : Heap) (e : Nat) (F : Forest Nat) :
    Prop where
  tag : (h.cell e).tag = o.tag
  isInt : (h.cell e).sh.IsInt
  nonempty : F.heads ≠ []
  child : (h.cell e).child = F.first e
  linked : Linked o dive h e F
  nodup : (e :: F.labels).Nodup
  old : ∀ x ∈ e :: F.labels, x < h.brk
  shape : ∀ x ∈ F.labels, (h.cell x).sh = (h.cell e).sh
  const : ∀ x ∈ F.leaves, isConst (h.cell x) = true →
    (h.cell x).tag = .valTag ∧ ∃ v, Canon p (h.cell x).node v

section

variable {h h' : Heap} {p : Pool} {o : AssOp} {sh : Shape} {xs L : List Nat} {f x : Nat} {a : Node}

theorem strung_cons {a : Nat} {rest : Forest Nat} (hlast : (h.cell a).last = rest.heads.isEmpty)
    (hnext : (h.cell a).next = rest.first f)
    (hrest : rest.heads ≠ [] → Strung h f (rest.first f) rest.heads) :
    Strung h f a (a :: rest.heads) := by
  cases hheads : rest.heads with
  | nil =>
      rw [hheads] at hlast
      have hfirst : rest.first f = f := by
        cases rest with
        | nil => rfl
        | leaf b rest => cases hheads
        | node b inner rest => cases hheads
      exact ⟨rfl, hlast, hnext.trans hfirst⟩
  | cons x xs =>
      rw [hheads] at hlast hrest
      exact ⟨rfl, hlast, hnext ▸ hrest (List.cons_ne_nil x xs)⟩

theorem Linked.strung (hF : Linked o dive h f F) (hne : F.heads ≠ []) :
    Strung h f (F.first f) F.heads := by
  induction F generalizing f with
  | nil => exact absurd rfl hne
  | leaf a rest ih =>
      obtain ⟨_, hlast, hnext, hrest⟩ := hF
      exact strung_cons hlast hnext (ih hrest)
  | node a inner rest _ ih =>
      obtain ⟨_, _, _, _, hlast, hnext, hrest⟩ := hF
      exact strung_cons hlast hnext (ih hrest)

/-! ## The accumulated constant -/

/-- The constant `a` has the pattern `x`, and the tests of `comm_ass` may look at its number. -/
structure CstIs (o : AssOp) (sh : Shape) (p : Pool) (a : Node) (x : BitVec sh.size) : Prop where
  tag : a.tag = .valTag
  shape : a.sh = sh
  bits : ∃ y, expToF64 p a = .ok y ∧ y.bits.setWidth sh.size = x
  index : isbigval a = true → 0 ≤ a.no
  plain : isbigval a = false → sh.size = 64 → sh.isSigned = false → 0 ≤ a.no
  canon : o ≠ .and → Canon p a (decode sh.isSigned x)

theorem CstIs.constBits_eq {x : BitVec sh.size} (h : CstIs o sh p a x) :
    constBits sh.size p a = x := by
  obtain ⟨y, hy, hx⟩ := h.bits
  rw [constBits, hy]
  exact hx

/-- The other fields of a constant do not matter. -/
theorem Canon.congr {e e' : Node} {v : Int} (h : Canon p e v) (hsh : e'.sh = e.sh)
    (hno : e'.no = e.no) (hprops : e'.props = e.props) : Canon p e' v := by
  have hbig : isbigval e' = isbigval e := by rw [isbigval, isbigval, hprops]
  refine ⟨by rw [hsh]; exact h.range, fun hp => ?_, fun hp => ?_⟩
  · rw [hbig, hno]
    rw [hsh] at hp
    exact h.plain hp
  · rw [hbig, hno]
    rw [hsh] at hp
    exact h.big hp

theorem Canon.constBits_eq {v : Int} (h : Canon p a v) (hs : a.sh.IsInt) :
    constBits a.sh.size p a = BitVec.ofInt a.sh.size v := by
  obtain ⟨y, hy, hbits⟩ := expToF64_canon h hs
  rw [constBits, hy]
  show y.bits.setWidth _ = _
  rw [hbits, setWidth_ofInt hs.le]

theorem Canon.cstIs (o : AssOp) {x : BitVec sh.size} (htag : a.tag = .valTag) (hsh : a.sh = sh)
    (hs : sh.IsInt) (h : Canon p a (decode sh.isSigned x)) : CstIs o sh p a x := by
  subst hsh
  obtain ⟨y, hy, hbits⟩ := expToF64_canon h hs
  refine ⟨htag, rfl, ⟨y, hy, ?_⟩, fun hbig => ?_, fun hplain h64 hsg => ?_, fun _ => h⟩
  · rw [hbits, setWidth_ofInt hs.le, ofInt_decode]
  · by_cases hp : PlainInt a.sh (decode a.sh.isSigned x)
    · rw [(h.plain hp).1] at hbig
      cases hbig
    · obtain ⟨_, i, hi, _⟩ := h.big hp
      omega
  · by_cases hp : PlainInt a.sh (decode a.sh.isSigned x)
    · rw [(h.plain hp).2]
      rw [PlainInt, hsg] at hp
      simp only [Bool.false_eq_true, if_false] at hp
      have hle : decode a.sh.isSigned x < 2 ^ 31 := by
        rw [hsg]
        omega
      have hr := h.range
      rw [hsg, InRange] at hr
      simp only [Bool.false_eq_true, if_false] at hr
      rw [hsg] at hle ⊢
      have hin : InRange true 32 (decode false x) := by
        rw [InRange, if_pos rfl]
        omega
      have hback : (BitVec.ofInt 32 (decode false x)).toInt = decode false x :=
        decode_ofInt (by decide) hin
      rw [hback]
      exact hr.1
    · rw [(h.big hp).1] at hplain
      cases hplain

/-- What `fn` does with the accumulated constant and another one. -/
theorem AssOp.fn_spec (o : AssOp) {st : FoldSt} {ap b : Node} {x : BitVec sh.size} {v : Int}
    (hok : st.pool.Ok) (hs : sh.IsInt) (hap : CstIs o sh st.pool ap x) (hsh : b.sh = sh)
    (hb : Canon st.pool b v) (et : Nat) :
    (o = .mult ∧ st.checkExtra = true ∧ o.fn st ap b et = .error .exits) ∨
    ∃ p' a', o.fn st ap b et = .ok ({ st with pool := p' }, a') ∧
      Wrote st.pool ap (decode sh.isSigned (o.bits x (BitVec.ofInt sh.size v))) p' a' := by
  have hapsh := hap.shape
  subst hapsh
  have hwords : ∀ (op : ∀ {n : Nat}, BitVec n → BitVec n → BitVec n),
      (∀ (a c : BitVec 32) (b d : BitVec 32), op (a ++ b) (c ++ d) = op a c ++ op b d) →
      (∀ (m : Nat) (x y : BitVec 64),
        m ≤ 64 → (op x y).setWidth m = op (x.setWidth m) (y.setWidth m)) →
      ∃ p' a', wordsFn op st ap b = .ok ({ st with pool := p' }, a') ∧
        Wrote st.pool ap (decode ap.sh.isSigned (op x (BitVec.ofInt ap.sh.size v))) p' a' := by
    intro op happ hset
    obtain ⟨xa, hxa, hbitsa⟩ := hap.bits
    obtain ⟨xb, hxb, hbitsb⟩ := expToF64_canon hb (hsh ▸ hs)
    have hbits : (F64.bits ⟨op xa.big xb.big, op xa.small xb.small⟩).setWidth ap.sh.size =
        op x (BitVec.ofInt ap.sh.size v) := by
      have hjoin : F64.bits ⟨op xa.big xb.big, op xa.small xb.small⟩ = op xa.bits xb.bits := by
        rw [F64.bits, F64.bits, F64.bits, happ]
      rw [hjoin, hset _ _ _ hs.le, hbitsa, hbitsb, setWidth_ofInt hs.le]
    refine ⟨_, _, ?_, hbits ▸ bigres_wrote hok hs _⟩
    simp only [wordsFn, hxa, hxb, bind, Except.bind, pure, Except.pure]
  cases o with
  | plus =>
      obtain ⟨p', a', hr, hw, _⟩ :=
        plusFn_folded hok hs hsh (hap.canon (by decide)) hb et
      refine .inr ⟨p', a', hr, ?_⟩
      have hval : wrap ap.sh.isSigned ap.sh.size (decode ap.sh.isSigned x + v) =
          decode ap.sh.isSigned (AssOp.bits .plus x (BitVec.ofInt ap.sh.size v)) := by
        rw [wrap, BitVec.ofInt_add, ofInt_decode]
        rfl
      exact hval ▸ hw
  | mult =>
      have hfold := multFn_folded hok hs hsh (hap.canon (by decide)) hb et
      split at hfold
      · rename_i hout
        exact .inl ⟨rfl, hout.1, hfold⟩
      · obtain ⟨p', a', hr, hw, _⟩ := hfold
        refine .inr ⟨p', a', hr, ?_⟩
        have hval : wrap ap.sh.isSigned ap.sh.size (decode ap.sh.isSigned x * v) =
            decode ap.sh.isSigned (AssOp.bits .mult x (BitVec.ofInt ap.sh.size v)) := by
          rw [wrap, BitVec.ofInt_mul, ofInt_decode]
          rfl
        exact hval ▸ hw
  | and =>
      exact .inr (hwords (fun x y => x &&& y) (fun _ _ _ _ => BitVec.and_append)
        fun _ _ _ _ => BitVec.setWidth_and)
  | or =>
      exact .inr (hwords (fun x y => x ||| y) (fun _ _ _ _ => BitVec.or_append)
        fun _ _ _ _ => BitVec.setWidth_or)
  | xor =>
      exact .inr (hwords (fun x y => x ^^^ y) (fun _ _ _ _ => BitVec.xor_append)
        fun _ _ _ _ => BitVec.setWidth_xor)

/-! ## The constant at the start -/

theorem expToF64_plain (p : Pool) (h : isbigval a = false) :
    ∃ y, expToF64 p a = .ok y ∧
      y.bits = BitVec.ofInt 64 (decode a.sh.isSigned (BitVec.ofInt 32 a.no)) := by
  refine ⟨_, by rw [expToF64, h]; rfl, ?_⟩
  rw [intToF64_bits]

/-- All ones as an `int`, where a shape has them. -/
theorem allOnes_bits (hs : sh.IsInt) (h : sh.size ≠ 64 ∨ sh.isSigned = true) :
    (BitVec.ofInt 64 (decode sh.isSigned (BitVec.ofInt 32 (AssOp.allOnes sh)))).setWidth sh.size =
      BitVec.allOnes sh.size := by
  unfold AssOp.allOnes
  rcases hs.size with hsize | hsize | hsize | hsize
  · rw [hsize]
    cases sh.isSigned <;> decide
  · rw [hsize]
    cases sh.isSigned <;> decide
  · rw [hsize]
    cases sh.isSigned <;> decide
  · rw [hsize, h.resolve_left (fun hne => hne hsize)]
    decide

theorem zero_bits (sh : Shape) :
    (BitVec.ofInt 64 (decode sh.isSigned (BitVec.ofInt 32 0))).setWidth sh.size = 0 := by
  have hzero : BitVec.ofInt 64 (decode sh.isSigned (BitVec.ofInt 32 0)) = 0 := by
    cases sh.isSigned <;> decide
  rw [hzero]
  exact BitVec.setWidth_zero ..

theorem one_bits (sh : Shape) :
    (BitVec.ofInt 64 (decode sh.isSigned (BitVec.ofInt 32 1))).setWidth sh.size = 1 := by
  have hone : BitVec.ofInt 64 (decode sh.isSigned (BitVec.ofInt 32 1)) = 1 := by
    cases sh.isSigned <;> decide
  rw [hone]
  apply BitVec.eq_of_toNat_eq
  rw [BitVec.toNat_setWidth]
  rfl

/-- The pattern of the unit that is held as an `int`. -/
theorem one_unit_bits (o : AssOp) (hs : sh.IsInt)
    (h : o = .and → sh.size ≠ 64 ∨ sh.isSigned = true) :
    (BitVec.ofInt 64 (decode sh.isSigned (BitVec.ofInt 32 (o.one sh)))).setWidth sh.size =
      o.unit sh.size := by
  cases o with
  | plus => exact zero_bits sh
  | mult => exact one_bits sh
  | and => exact allOnes_bits hs (h rfl)
  | or => exact zero_bits sh
  | xor => exact zero_bits sh

theorem onesFlt_words (f : Flt) (sg : Bool) :
    ∃ ov, fltToF64 (onesFlt f) sg = .ok (⟨-1, -1⟩, ov) := by
  have hmant : (onesFlt f).mant = [65535, 65535, 65535, 65535] ++ f.mant.drop 4 := rfl
  have hsign : (onesFlt f).sign = 1 := rfl
  have hexp : (onesFlt f).exp = 3 := rfl
  have hdig : ∀ k < 4, ([65535, 65535, 65535, 65535] ++ f.mant.drop 4).getD k 0 = 65535 := by
    intro k hk
    match k, hk with
    | 0, _ => rfl
    | 1, _ => rfl
    | 2, _ => rfl
    | 3, _ => rfl
  have hwords : mantToF64 ([65535, 65535, 65535, 65535] ++ f.mant.drop 4) 3 = ⟨-1, -1⟩ := by
    simp only [mantToF64, Nat.reduceGT, if_true, Nat.reduceSub,
      hdig 0 (by decide), hdig 1 (by decide), hdig 2 (by decide), hdig 3 (by decide)]
    decide
  refine ⟨sg, ?_⟩
  rw [fltToF64, hsign, hexp, if_neg (by decide), hmant]
  have hlen : ¬([65535, 65535, 65535, 65535] ++ f.mant.drop 4).length ≤ 3 := by
    rw [List.length_append]
    exact Nat.not_le.2 (Nat.lt_add_right _ (by decide))
  have hthree : Int.toNat 3 = 3 := rfl
  simp only
  rw [hthree, hwords, if_neg hlen, if_neg (by decide)]
  cases sg <;> rfl

theorem bit_canon {v : Int} (hs : a.sh.IsInt) (hv : v = 0 ∨ v = 1) (hbig : isbigval a = false)
    (hno : a.no = v) : Canon p a v := by
  have hplain : PlainInt a.sh v := by
    unfold PlainInt
    split <;> omega
  refine ⟨?_, fun _ => ⟨hbig, ?_⟩, fun h => absurd hplain h⟩
  · rcases hs.size with h | h | h | h <;> rw [h] <;> cases a.sh.isSigned <;>
      rcases hv with rfl | rfl <;> decide
  · rw [hno]
    rcases hv with rfl | rfl <;> rfl

/-- The unit that is held as an `int`. -/
theorem cstIs_one (o : AssOp) (hs : sh.IsInt) (p : Pool) (h : ¬(o.one sh = -1 ∧ sh.size = 64)) :
    CstIs o sh p ⟨.valTag, sh, o.one sh, 0, none, 0⟩ (o.unit sh.size) := by
  have hbig : isbigval (⟨.valTag, sh, o.one sh, 0, none, 0⟩ : Node) = false := by
    rw [isbigval_eq]
    rfl
  have hand : o = .and → sh.size ≠ 64 := by
    rintro rfl hsize
    refine h ⟨?_, hsize⟩
    rw [AssOp.one, AssOp.allOnes, hsize]
    rfl
  obtain ⟨y, hy, hbits⟩ := expToF64_plain p hbig
  have hbit : o ≠ .and → o.one sh = 0 ∨ o.one sh = 1 := by
    intro hne
    cases o with
    | and => exact absurd rfl hne
    | mult => exact .inr rfl
    | _ => exact .inl rfl
  refine ⟨rfl, rfl, ⟨y, hy, ?_⟩, fun hno => ?_, fun _ hsize _ => ?_, fun hne => ?_⟩
  · rw [hbits]
    exact one_unit_bits o hs fun ho => .inl (hand ho)
  · rw [hbig] at hno
    cases hno
  · have hno := hbit fun ho => hand ho hsize
    show 0 ≤ o.one sh
    omega
  · have hcanon := @bit_canon p _ (o.one sh) hs (hbit hne) hbig rfl
    have hunit : BitVec.ofInt sh.size (o.one sh) = o.unit sh.size := by
      cases o with
      | and => exact absurd rfl hne
      | _ => rfl
    rw [← hunit, decode_ofInt hs.pos hcanon.range]
    exact hcanon

/-- The unit of 64 bits for `and_tag`, in the pool. -/
theorem cstIs_ones (hsize : sh.size = 64) {i : Nat} {f : Flt} (h : p.nos i = onesFlt f) :
    CstIs .and sh p ⟨.valTag, sh, i, pset 0 0x01, none, 0⟩ (AssOp.unit .and sh.size) := by
  have hbig : isbigval (⟨.valTag, sh, i, pset 0 0x01, none, 0⟩ : Node) = true := isbigval_pset rfl
  obtain ⟨ov, hwords⟩ := onesFlt_words f sh.isSigned
  refine ⟨rfl, rfl, ⟨⟨-1, -1⟩, ?_, ?_⟩, fun _ => Int.natCast_nonneg i, fun hno => ?_,
    fun hne => absurd rfl hne⟩
  · rw [expToF64, hbig, Int.toNat_natCast, h, hwords]
    rfl
  · rw [hsize]
    decide
  · rw [hbig] at hno
    cases hno

/-- The constant starts as the unit. -/
theorem startCst_spec (o : AssOp) {st : FoldSt} (h : Heap) (hok : st.pool.Ok) (hs : sh.IsInt) :
    ∃ p h', startCst st h sh (o.one sh) = ({ st with pool := p }, h', h.brk) ∧
      p.Ok ∧ st.pool.Keeps p ∧ h'.brk = h.brk + 1 ∧ (∀ x < h.brk, h'.cell x = h.cell x) ∧
      CstIs o sh p (h'.cell h.brk).node (o.unit sh.size) := by
  have hcell : (h.meShint sh (o.one sh)).2.cell h.brk =
      ⟨.valTag, sh, o.one sh, 0, null, null, false⟩ := Heap.set_cell_self ..
  have hold : ∀ x < h.brk, (h.meShint sh (o.one sh)).2.cell x = h.cell x := fun x hx =>
    if_neg (Nat.ne_of_lt hx)
  by_cases h64 : o.one sh = -1 ∧ sh.size = 64
  · have ho : o = .and := by
      have hone := h64.1
      cases o with
      | and => rfl
      | _ => exact absurd hone (by show ¬(_ : Int) = -1; simp [AssOp.one])
    subst ho
    have htook := (Pool.new_took hok).set (onesFlt (st.pool.new.2.nos st.pool.new.1))
    refine ⟨_, _, by rw [startCst]; simp only; rw [if_pos h64]; rfl, htook.ok, htook.keeps, rfl,
      fun x hx => ?_, ?_⟩
    · exact (if_neg (Nat.ne_of_lt hx)).trans (hold x hx)
    · have hones := cstIs_ones h64.2 (Pool.set_nos_self st.pool.new.2 st.pool.new.1
        (onesFlt (st.pool.new.2.nos st.pool.new.1)))
      have hnode : (Heap.cell ((h.meShint sh (AssOp.one .and sh)).2.set h.brk
          { (h.meShint sh (AssOp.one .and sh)).2.cell h.brk with
            no := st.pool.new.1
            props := pset ((h.meShint sh (AssOp.one .and sh)).2.cell h.brk).props 0x01 })
          h.brk).node = ⟨.valTag, sh, st.pool.new.1, pset 0 0x01, none, 0⟩ := by
        rw [Heap.set_cell_self, hcell]
        rfl
      rw [← hnode] at hones
      exact hones
  · refine ⟨st.pool, _, by rw [startCst]; simp only; rw [if_neg h64]; rfl, hok,
      Pool.Keeps.refl _, rfl, hold, ?_⟩
    rw [hcell]
    exact cstIs_one o hs st.pool h64

/-! ## The walk -/

/-- The leaves that stay. -/
def items (h : Heap) (L : List Nat) : List Nat := L.filter fun x => !isConst (h.cell x)

/-- The leaves that are constants. -/
def consts (h : Heap) (L : List Nat) : List Nat := L.filter fun x => isConst (h.cell x)

/-- The cells from `q` on link to each other, up to the last one. -/
def Hung (h : Heap) : Nat → List Nat → Prop
  | _, [] => True
  | q, x :: xs => (h.cell q).next = x ∧ (h.cell q).last = false ∧ Hung h x xs

theorem items_concat (hx : isConst (h.cell x) = false) :
    items h (L ++ [x]) = items h L ++ [x] ∧ consts h (L ++ [x]) = consts h L := by
  simp [items, consts, List.filter_append, hx]

theorem consts_concat (hx : isConst (h.cell x) = true) :
    items h (L ++ [x]) = items h L ∧ consts h (L ++ [x]) = consts h L ++ [x] := by
  simp [items, consts, List.filter_append, hx]

theorem mem_of_mem_items (hx : x ∈ items h L) : x ∈ L :=
  (List.mem_filter.1 hx).1

theorem link_cell_ne (h : Heap) {y z : Nat} (l : Bool) (hne : z ≠ x) :
    (h.link x y l).cell z = h.cell z := Heap.set_cell_ne h _ hne

theorem Hung.congr : ∀ {q : Nat}, Hung h q xs →
    (∀ x ∈ (q :: xs).dropLast, h'.cell x = h.cell x) → Hung h' q xs := by
  induction xs with
  | nil => exact fun _ _ => trivial
  | cons x xs ih =>
      intro q hq hcell
      obtain ⟨hnext, hlast, hrest⟩ := hq
      have hsame := hcell q (List.mem_cons_self ..)
      refine ⟨by rw [hsame, hnext], by rw [hsame, hlast], ih hrest fun y hy => hcell y ?_⟩
      exact List.mem_cons_of_mem _ hy

/-- Another cell at the end. -/
theorem Hung.concat (x : Nat) : ∀ {q : Nat}, Hung h q xs →
    (q :: xs).Nodup → Hung (h.link (xs.getLastD q) x false) q (xs ++ [x]) := by
  induction xs with
  | nil =>
      intro q _ _
      refine ⟨?_, ?_, trivial⟩
      · exact congrArg Cell.next (Heap.set_cell_self ..)
      · exact congrArg Cell.last (Heap.set_cell_self ..)
  | cons y ys ih =>
      intro q hq hnodup
      obtain ⟨hnext, hlast, hrest⟩ := hq
      obtain ⟨hnot, hnodup⟩ := List.nodup_cons.1 hnodup
      have hne : q ≠ (y :: ys).getLastD q := by
        intro heq
        refine hnot ?_
        rw [List.getLastD_cons] at heq
        rw [heq]
        exact List.getLastD_mem_cons ..
      have hsame := link_cell_ne h (y := x) false hne
      rw [List.getLastD_cons] at hsame ⊢
      exact ⟨by rw [hsame, hnext], by rw [hsame, hlast], ih hrest hnodup⟩

/-- The state of the walk after the leaves `L`. -/
structure Walked (o : AssOp) (st0 : FoldSt) (h0 : Heap) (q cst : Nat) (sh : Shape)
    (v : Nat → BitVec sh.size) (L : List Nat) (s : Walk) : Prop where
  hung : Hung s.heap q (items h0 L)
  p_eq : s.p = (items h0 L).getLastD q
  frame : ∀ x, x ≠ q → x ≠ cst → x ∉ (items h0 L).dropLast → s.heap.cell x = h0.cell x
  record : ∀ x, x ≠ cst → ∃ y l, s.heap.cell x = { h0.cell x with next := y, last := l }
  brk : s.heap.brk = h0.brk
  ok : s.st.pool.Ok
  keeps : st0.pool.Keeps s.st.pool
  st_eq : s.st = { st0 with pool := s.st.pool }
  cst_is : CstIs o sh s.st.pool (s.heap.cell cst).node
    (((consts h0 L).map v).foldr o.bits (o.unit sh.size))

/-- What is promised of a leaf. -/
structure LeafOk (p : Pool) (h0 : Heap) (q cst : Nat) (sh : Shape) (v : Nat → BitVec sh.size)
    (x : Nat) : Prop where
  ne_q : x ≠ q
  ne_cst : x ≠ cst
  shape : (h0.cell x).sh = sh
  const : isConst (h0.cell x) = true →
    ∃ w, Canon p (h0.cell x).node w ∧ v x = BitVec.ofInt sh.size w

end

section

variable {o : AssOp} {dive : Bool} {st0 : FoldSt} {h0 : Heap} {e q cst : Nat} {sh : Shape}
  {v : Nat → BitVec sh.size} {et : Nat}

/-- A walk that ends as `mult_fn` makes it end, or comes to a state. -/
def Goes (o : AssOp) (st0 : FoldSt) (r : Run Walk) (P : Walk → Prop) : Prop :=
  (o = .mult ∧ st0.checkExtra = true ∧ r = .error .exits) ∨ ∃ s, r = .ok s ∧ P s

theorem Walked.cell_eq {L : List Nat} {s : Walk} (h : Walked o st0 h0 q cst sh v L s) {x : Nat}
    (hx : LeafOk st0.pool h0 q cst sh v x ∨ (x ≠ q ∧ x ≠ cst)) (hL : x ∉ L) :
    s.heap.cell x = h0.cell x := by
  refine h.frame x ?_ ?_ fun hmem => hL (mem_of_mem_items (List.mem_of_mem_dropLast hmem))
  · exact hx.elim (fun hx => hx.ne_q) fun hx => hx.1
  · exact hx.elim (fun hx => hx.ne_cst) fun hx => hx.2

theorem Walked.at_cell {L : List Nat} {s : Walk} (h : Walked o st0 h0 q cst sh v L s) (t : Nat) :
    Walked o st0 h0 q cst sh v L { s with t := t } :=
  ⟨h.hung, h.p_eq, h.frame, h.record, h.brk, h.ok, h.keeps, h.st_eq, h.cst_is⟩

/-- A leaf is done. -/
theorem item_walked (hs : sh.IsInt) {L : List Nat} {s : Walk}
    (hw : Walked o st0 h0 q cst sh v L s) (hnodup : (q :: L).Nodup) (hcst : cst ∉ L)
    (hqc : q ≠ cst) (hx : LeafOk st0.pool h0 q cst sh v s.t) (hL : s.t ∉ L) :
    Goes o st0 (s.item o cst et) fun s' => s'.t = s.t ∧
      Walked o st0 h0 q cst sh v (L ++ [s.t]) s' ∧ s'.heap.cell s.t = h0.cell s.t := by
  have hcell := hw.cell_eq (.inl hx) hL
  rw [Walk.item, hcell]
  by_cases hc : isConst (h0.cell s.t) = true
  · obtain ⟨hitems, hconsts⟩ := @consts_concat h0 L s.t hc
    obtain ⟨w, hcanon, hval⟩ := hx.const hc
    rw [if_pos hc]
    rcases o.fn_spec hw.ok hs hw.cst_is hx.shape (hcanon.keeps hw.keeps) et with
      ⟨ho, hextra, hfn⟩ | ⟨p', a', hfn, hwrote⟩
    · refine .inl ⟨ho, ?_, ?_⟩
      · rw [hw.st_eq] at hextra
        exact hextra
      · rw [hfn]
        rfl
    · refine .inr ⟨⟨{ s.st with pool := p' }, s.heap.set cst
        { s.heap.cell cst with no := a'.no, props := a'.props }, s.t, s.p⟩, ?_, rfl, ?_, ?_⟩
      · rw [hfn]
        rfl
      · have hother : ∀ x ≠ cst, (s.heap.set cst { s.heap.cell cst with
            no := a'.no, props := a'.props }).cell x = s.heap.cell x := fun x hne =>
          Heap.set_cell_ne _ _ hne
        refine ⟨?_, by rw [hitems]; exact hw.p_eq, ?_, ?_, hw.brk, hwrote.ok,
          hw.keeps.trans hwrote.keeps, by rw [hw.st_eq], ?_⟩
        · rw [hitems]
          refine hw.hung.congr fun x hmem => hother x ?_
          rintro rfl
          rcases List.mem_cons.1 (List.mem_of_mem_dropLast hmem) with heq | hmem
          · exact hqc heq.symm
          · exact hcst (mem_of_mem_items hmem)
        · intro x hxq hxc hxl
          rw [hitems] at hxl
          rw [hother x hxc, hw.frame x hxq hxc hxl]
        · intro x hxc
          rw [hother x hxc]
          exact hw.record x hxc
        · have hnew : Canon p' (Cell.node { s.heap.cell cst with no := a'.no, props := a'.props })
              _ := hwrote.canon.congr hwrote.sh.symm rfl rfl
          have hcst' : CstIs o sh p' (Cell.node { s.heap.cell cst with
              no := a'.no, props := a'.props }) _ :=
            hnew.cstIs o hw.cst_is.tag hw.cst_is.shape hs
          rw [hconsts, List.map_append, Forest.foldr_append_eq o.unit_bits, List.map_singleton,
            List.foldr_cons, List.foldr_nil, o.bits_unit, hval]
          dsimp only
          rw [Heap.set_cell_self]
          exact hcst'
      · exact (Heap.set_cell_ne _ _ hx.ne_cst).trans hcell
  · rw [if_neg hc]
    have hc' : isConst (h0.cell s.t) = false := Bool.eq_false_iff.2 hc
    obtain ⟨hitems, hconsts⟩ := @items_concat h0 L s.t hc'
    have hp : s.p ∈ q :: items h0 L := by
      rw [hw.p_eq]
      exact List.getLastD_mem_cons ..
    have hpc : cst ≠ s.p := by
      rintro rfl
      rcases List.mem_cons.1 hp with hp | hp
      · exact hqc hp.symm
      · exact hcst (mem_of_mem_items hp)
    have hpt : s.t ≠ s.p := by
      intro heq
      rw [← heq] at hp
      rcases List.mem_cons.1 hp with hp | hp
      · exact hx.ne_q hp
      · exact hL (mem_of_mem_items hp)
    refine .inr ⟨⟨s.st, s.heap.link s.p s.t false, s.t, s.t⟩, rfl, rfl, ?_, ?_⟩
    · refine ⟨?_, ?_, ?_, ?_, hw.brk, hw.ok, hw.keeps, hw.st_eq, ?_⟩
      · rw [hitems, hw.p_eq]
        exact hw.hung.concat s.t (hnodup.sublist (List.filter_sublist.cons_cons q))
      · rw [hitems, List.getLastD_concat]
      · intro x hxq hxc hxl
        rw [hitems, List.dropLast_concat] at hxl
        have hxp : x ≠ s.p := by
          rintro rfl
          rcases List.mem_cons.1 hp with hp | hp
          · exact hxq hp
          · exact hxl hp
        rw [link_cell_ne _ _ hxp]
        exact hw.frame x hxq hxc fun hmem => hxl (List.mem_of_mem_dropLast hmem)
      · intro x hxc
        by_cases hxp : x = s.p
        · obtain ⟨y, l, hrec⟩ := hw.record x hxc
          refine ⟨s.t, false, ?_⟩
          rw [hxp]
          refine (Heap.set_cell_self ..).trans ?_
          rw [← hxp, hrec]
        · rw [link_cell_ne _ _ hxp]
          exact hw.record x hxc
      · rw [hconsts, link_cell_ne _ _ hpc]
        exact hw.cst_is
    · exact (link_cell_ne _ _ hpt).trans hcell

/-- A walk that starts with `r` goes on from the last argument of `f`, with the leaves `L` done. -/
def Reaches (o : AssOp) (dive : Bool) (st0 : FoldSt) (h0 : Heap) (e q cst : Nat) (sh : Shape)
    (v : Nat → BitVec sh.size) (et fuel : Nat) (f : Nat) (L : List Nat) (r : Run Walk) : Prop :=
  (o = .mult ∧ st0.checkExtra = true ∧ r = .error .exits) ∨
  ∃ s, r = walk o dive e cst et (fuel + 1) true s ∧ Walked o st0 h0 q cst sh v L s ∧
    s.heap.cell s.t = h0.cell s.t ∧ (h0.cell s.t).last = true ∧ (h0.cell s.t).next = f

/-- From an argument that is done to those after it. -/
theorem reaches_rest {rest : Forest Nat} {a : Nat} {L : List Nat} {s : Walk} {fuel : Nat}
    (hlast : (h0.cell a).last = rest.heads.isEmpty) (hnext : (h0.cell a).next = rest.first f)
    (hw : Walked o st0 h0 q cst sh v L s) (ht : s.t = a) (hcell : s.heap.cell a = h0.cell a)
    (ih : rest.heads ≠ [] → Reaches o dive st0 h0 e q cst sh v et fuel f (L ++ rest.leaves)
      (walk o dive e cst et (fuel + 2 * rest.labels.length) false { s with t := rest.first f })) :
    Reaches o dive st0 h0 e q cst sh v et fuel f (L ++ rest.leaves)
      (walk o dive e cst et (fuel + 2 * rest.labels.length + 1) true s) := by
  cases hheads : rest.heads with
  | nil =>
      have hnil : rest = .nil := by
        cases rest with
        | nil => rfl
        | leaf b rest => cases hheads
        | node b inner rest => cases hheads
      subst hnil
      have hdone : (h0.cell a).last = true := hlast
      refine .inr ⟨s, rfl, ?_, ?_⟩
      · rw [Forest.leaves, List.append_nil]
        exact hw
      · rw [ht]
        exact ⟨hcell, hdone, hnext⟩
  | cons b bs =>
      have hmore : (h0.cell a).last = false := by
        rw [hlast, hheads]
        rfl
      rw [walk]
      simp only [ht, hcell, hmore, hnext, if_true, Bool.false_eq_true, false_and, if_false]
      exact ih (by rw [hheads]; exact List.cons_ne_nil b bs)

/-- The walk through a list of arguments, which ends at the last of them. -/
theorem walk_forest (hs : sh.IsInt) (hqc : q ≠ cst) (F : Forest Nat) : ∀ {f : Nat} {L : List Nat}
    {s : Walk} (fuel : Nat), Linked o dive h0 f F → F.heads ≠ [] →
    (q :: (L ++ F.labels)).Nodup → cst ∉ L ++ F.labels → e ∉ F.labels →
    (∀ x ∈ F.leaves, LeafOk st0.pool h0 q cst sh v x) →
    Walked o st0 h0 q cst sh v L s → s.t = F.first f →
    Reaches o dive st0 h0 e q cst sh v et fuel f (L ++ F.leaves)
      (walk o dive e cst et (fuel + 2 * F.labels.length) false s) := by
  induction F with
  | nil => exact fun _ _ hne => absurd rfl hne
  | leaf a rest ih =>
      intro f L s fuel hF _ hnodup hcst he hleaf hw ht
      obtain ⟨hin, hlast, hnext, hrest⟩ := hF
      have hta : s.t = a := ht
      have hok := hleaf a (List.mem_cons_self ..)
      rw [Forest.labels, List.append_cons] at hnodup hcst
      have hL : (q :: (L ++ [a])).Nodup :=
        hnodup.sublist ((List.sublist_append_left ..).cons_cons q)
      have haL : a ∉ L := fun hmem =>
        (List.nodup_append.1 (List.nodup_cons.1 hL).2).2.2 a hmem a (List.mem_singleton_self a) rfl
      have hcL : cst ∉ L := fun hmem =>
        hcst (List.mem_append_left _ (List.mem_append_left _ hmem))
      have hitem := @item_walked _ _ _ _ _ _ _ et hs L s hw
        (hL.sublist ((List.sublist_append_left ..).cons_cons q)) hcL hqc (hta ▸ hok) (hta ▸ haL)
      rw [Forest.labels, List.length_cons, Nat.mul_succ, ← Nat.add_assoc, walk]
      simp only [hta, hw.cell_eq (.inl hok) haL, Bool.false_eq_true, if_false]
      rw [if_neg (by rw [inside] at hin; simpa using hin)]
      rcases hitem with ⟨ho, hextra, hrun⟩ | ⟨s1, hrun, ht1, hw1, hcell1⟩
      · refine .inl ⟨ho, hextra, ?_⟩
        rw [hrun]
        rfl
      · rw [hta] at ht1 hw1 hcell1
        have hgo : Reaches o dive st0 h0 e q cst sh v et fuel f (L ++ [a] ++ rest.leaves) _ :=
          reaches_rest hlast hnext hw1 ht1 hcell1 fun hne =>
            ih fuel hrest hne hnodup hcst (fun hmem => he (List.mem_cons_of_mem _ hmem))
              (fun x hx => hleaf x (List.mem_cons_of_mem _ hx)) (hw1.at_cell (rest.first f)) rfl
        rw [hrun, Forest.leaves, List.append_cons]
        exact hgo
  | node a inner rest ih1 ih2 =>
      intro f L s fuel hF _ hnodup hcst he hleaf hw ht
      obtain ⟨hin, hinner, hchild, hlinked, hlast, hnext, hrest⟩ := hF
      have hta : s.t = a := ht
      rw [Forest.labels] at hnodup hcst he
      have haq : a ≠ q := by
        rintro rfl
        exact (List.nodup_cons.1 hnodup).1 (List.mem_append_right _ (List.mem_cons_self ..))
      have hac : a ≠ cst := by
        rintro rfl
        exact hcst (List.mem_append_right _ (List.mem_cons_self ..))
      have hae : a ≠ e := by
        rintro rfl
        exact he (List.mem_cons_self ..)
      have hdown : (L ++ inner.labels).Sublist (L ++ a :: (inner.labels ++ rest.labels)) :=
        (List.Sublist.refl L).append ((List.sublist_append_left ..).cons a)
      have hafter : (L ++ inner.leaves ++ rest.labels).Sublist
          (L ++ a :: (inner.labels ++ rest.labels)) := by
        rw [List.append_assoc]
        exact (List.Sublist.refl L).append ((inner.leaves_sublist.append (.refl _)).cons a)
      have haL : a ∉ L ++ inner.leaves := by
        have hmid := (List.nodup_cons.1 (List.nodup_middle.1 (List.nodup_cons.1 hnodup).2)).1
        intro hmem
        refine hmid (List.mem_append.2 ?_)
        rcases List.mem_append.1 hmem with hmem | hmem
        · exact .inl hmem
        · exact .inr (List.mem_append_left _ (inner.leaves_sublist.subset hmem))
      have hcell : s.heap.cell a = h0.cell a :=
        hw.cell_eq (.inr ⟨haq, hac⟩) fun hmem => haL (List.mem_append_left _ hmem)
      have hwalk := ih1 (fuel + 1 + 2 * rest.labels.length) (L := L) hlinked hinner
        (hnodup.sublist (hdown.cons_cons q)) (fun hmem => hcst (hdown.subset hmem))
        (fun hmem => he (List.mem_cons_of_mem _ (List.mem_append_left _ hmem)))
        (fun x hx => hleaf x (List.mem_append_left _ hx)) (hw.at_cell (inner.first a)) rfl
      rw [Forest.labels, List.length_cons, List.length_append,
        show fuel + 2 * (inner.labels.length + rest.labels.length + 1) =
          fuel + 1 + 2 * rest.labels.length + 2 * inner.labels.length + 1 by omega, walk]
      simp only [hta, hcell, Bool.false_eq_true, if_false]
      rw [if_pos (by rw [inside] at hin; simpa using hin), hchild]
      rcases hwalk with hexit | ⟨s1, hrun, hw1, hcell1, hlast1, hnext1⟩
      · exact .inl hexit
      · have hgo : Reaches o dive st0 h0 e q cst sh v et fuel f (L ++ inner.leaves ++ rest.leaves)
          _ :=
          reaches_rest hlast hnext (hw1.at_cell a) rfl (hw1.cell_eq (.inr ⟨haq, hac⟩) haL)
          fun hne =>
            ih2 fuel hrest hne (hnodup.sublist (hafter.cons_cons q))
              (fun hmem => hcst (hafter.subset hmem))
              (fun hmem => he (List.mem_cons_of_mem _ (List.mem_append_right _ hmem)))
              (fun x hx => hleaf x (List.mem_append_right _ hx)) (hw1.at_cell (rest.first f)) rfl
        rw [hrun, walk]
        simp only [hcell1, hlast1, hnext1, if_true, true_and]
        rw [if_pos hae, show fuel + 1 + 2 * rest.labels.length =
          fuel + 2 * rest.labels.length + 1 by omega,
          Forest.leaves, ← List.append_assoc]
        exact hgo

end

/-! ## The value before -/

/-- The value of a leaf. -/
def leafBits (n : Nat) (p : Pool) (h : Heap) (part : Nat → Option (BitVec n)) (x : Nat) :
    BitVec n :=
  if isConst (h.cell x) then constBits n p (h.cell x).node else (part x).getD 0

theorem evals_forest {h : Heap} {part : Nat → Option (BitVec n)} :
    ∀ {f : Nat}, Linked o dive h f F → (∀ x ∈ F.nodes, part x = none) →
    (∀ x ∈ F.leaves, if isConst (h.cell x) then part x = none ∧ (h.cell x).tag = .valTag
      else (part x).isSome = true) →
    ∃ vs, EvalsAll o p h part F.heads vs ∧
      vs.foldr o.bits (o.unit n) = F.fold o.bits (o.unit n) (leafBits n p h part) := by
  induction F with
  | nil => exact fun _ _ _ => ⟨[], .nil, rfl⟩
  | leaf a rest ih =>
      intro f hF hnodes hleaves
      obtain ⟨_, _, _, hrest⟩ := hF
      obtain ⟨vs, hvs, hfold⟩ := ih hrest hnodes fun x hx => hleaves x (List.mem_cons_of_mem _ hx)
      refine ⟨leafBits n p h part a :: vs, .cons ?_ hvs, by rw [List.foldr_cons, hfold]; rfl⟩
      have ha := hleaves a (List.mem_cons_self ..)
      by_cases hc : isConst (h.cell a) = true
      · rw [if_pos hc] at ha
        rw [leafBits, if_pos hc]
        exact .const ha.1 ha.2
      · rw [if_neg hc] at ha
        obtain ⟨w, hw⟩ := Option.isSome_iff_exists.1 ha
        rw [leafBits, if_neg hc, hw]
        exact .part hw
  | node a inner rest ih1 ih2 =>
      intro f hF hnodes hleaves
      obtain ⟨hin, hinner, hchild, hlinked, _, _, hrest⟩ := hF
      obtain ⟨vs, hvs, hfold⟩ := ih1 hlinked
        (fun x hx => hnodes x (List.mem_cons_of_mem _ (List.mem_append_left _ hx)))
        fun x hx => hleaves x (List.mem_append_left _ hx)
      obtain ⟨ws, hws, hfold'⟩ := ih2 hrest
        (fun x hx => hnodes x (List.mem_cons_of_mem _ (List.mem_append_right _ hx)))
        fun x hx => hleaves x (List.mem_append_right _ hx)
      refine ⟨vs.foldr o.bits (o.unit n) :: ws, .cons (.op (hnodes a (List.mem_cons_self ..)) ?_ ?_
        hvs) hws, by rw [List.foldr_cons, hfold, hfold']; rfl⟩
      · simp only [inside, sameOp, decide_eq_true_eq] at hin
        exact hin.1.1
      · rw [Args, hchild]
        exact hlinked.strung hinner

/-! ## The form of the result -/

/-- The forms of what replaces an expression whose parts other than constants are `xs`. -/
inductive Form (o : AssOp) (h : Heap) (xs : List Nat) : Nat → Prop
  | constant {r} : xs = [] → (h.cell r).tag = .valTag → Form o h xs r
  | single {r} : xs = [r] → Form o h xs r
  | plain {r} : (h.cell r).tag = o.tag → Args h r xs → Form o h xs r
  | withConst {r c} : (h.cell r).tag = o.tag → (h.cell c).tag = .valTag → Args h r (xs ++ [c]) →
      Form o h xs r
  | zero {r c} : (h.cell r).tag = .seqTag → (h.cell (h.cell r).child).tag = .holderTag →
      Args h (h.cell r).child xs → (h.cell (h.cell r).child).last = false →
      (h.cell (h.cell r).child).next = c → (h.cell c).tag = .valTag → (h.cell c).last = true →
      (h.cell c).next = r → Form o h xs r

theorem Hung.strung {h : Heap} : ∀ {q : Nat}, Hung h q xs →
    xs ≠ [] → (∀ x ∈ xs.dropLast, (h'.cell x).next = (h.cell x).next ∧
      (h'.cell x).last = (h.cell x).last) →
    (h'.cell (xs.getLastD q)).last = true ∧ (h'.cell (xs.getLastD q)).next = f →
    Strung h' f (h.cell q).next xs := by
  induction xs with
  | nil => exact fun _ hne => absurd rfl hne
  | cons x xs ih =>
      intro q hq _ hsame hend
      obtain ⟨hnext, _, hrest⟩ := hq
      cases xs with
      | nil => exact ⟨hnext, hend.1, hend.2⟩
      | cons y ys =>
          obtain ⟨hn, hl⟩ := hsame x (List.mem_cons_self ..)
          refine ⟨hnext, hl.trans hrest.2.1, ?_⟩
          rw [hn]
          refine ih hrest (List.cons_ne_nil y ys) (fun z hz => hsame z ?_) ?_
          · exact List.mem_cons_of_mem _ hz
          · rw [List.getLastD_cons] at hend ⊢
            rw [List.getLastD_cons] at hend
            exact hend

section

variable {o : AssOp} {st0 : FoldSt} {h0 : Heap} {e q cst cstU : Nat} {sh : Shape}
  {part : Nat → Option (BitVec sh.size)} {v : Nat → BitVec sh.size} {L : List Nat} {s : Walk}

/-- What `comm_ass` has made: the form, the value, and the cells that were there before, which keep
everything but their links. -/
structure Made (o : AssOp) (p : Pool) (h0 : Heap) {n : Nat} (part : Nat → Option (BitVec n))
    (brk : Nat) (xs : List Nat) (x : BitVec n) (h : Heap) (r : Nat) : Prop where
  form : Form o h xs r
  value : Evals o p h part r x
  frame : ∀ y < brk, y ∉ xs → h.cell y = h0.cell y
  record : ∀ y < brk, ∃ z l, h.cell y = { h0.cell y with next := z, last := l }

theorem evalsAll_parts {h : Heap} {part : Nat → Option (BitVec n)} {v : Nat → BitVec n}
    (hxs : ∀ x ∈ xs, part x = some (v x)) : EvalsAll o p h part xs (xs.map v) := by
  induction xs with
  | nil => exact .nil
  | cons x xs ih =>
      exact .cons (.part (hxs x (List.mem_cons_self ..)))
        (ih fun y hy => hxs y (List.mem_cons_of_mem _ hy))

theorem EvalsAll.concat {h : Heap} {part : Nat → Option (BitVec n)} {vs : List (BitVec n)} {x : Nat}
    {w : BitVec n} (hx : Evals o p h part x w) (hxs : EvalsAll o p h part xs vs) :
    EvalsAll o p h part (xs ++ [x]) (vs ++ [w]) := by
  induction xs generalizing vs with
  | nil =>
      cases hxs
      exact .cons hx .nil
  | cons y ys ih =>
      cases hxs with
      | cons hy hys => exact .cons hy (ih hys)

/-- What the end of `comm_ass` relies on. -/
structure AtEnd (o : AssOp) (st0 : FoldSt) (h0 : Heap) (e q cst : Nat) (sh : Shape)
    (part : Nat → Option (BitVec sh.size)) (v : Nat → BitVec sh.size) (brk : Nat) (L : List Nat)
    (s : Walk) : Prop where
  isInt : sh.IsInt
  walked : Walked o st0 h0 q cst sh v L s
  nodup : (items h0 L).Nodup
  old : ∀ x ∈ items h0 L, x < brk
  cst_eq : cst = brk
  q_eq : q = brk + 1
  brk_eq : h0.brk = brk + 2
  shape : ∀ x ∈ items h0 L, (h0.cell x).sh = sh
  e_old : e < brk
  e_item : e ∉ items h0 L
  e_sh : (h0.cell e).sh = sh
  q_tag : (h0.cell q).tag = o.tag
  parts : ∀ x ∈ items h0 L, part x = some (v x)
  none_new : ∀ x, brk ≤ x → part x = none

namespace AtEnd

variable {brk : Nat} (h : AtEnd o st0 h0 e q cst sh part v brk L s)
include h

theorem ne_new {x : Nat} (hx : x < brk) : x ≠ q ∧ x ≠ cst := by
  have hq := h.q_eq
  have hc := h.cst_eq
  omega

theorem e_cell : (s.heap.cell e).sh = sh := by
  obtain ⟨hq, hc⟩ := h.ne_new h.e_old
  rw [h.walked.frame e hq hc fun hmem => h.e_item (List.mem_of_mem_dropLast hmem)]
  exact h.e_sh

/-- The last item, or the cell that they hang on. -/
theorem p_cases : (items h0 L = [] ∧ s.p = q) ∨ (items h0 L ≠ [] ∧ s.p ∈ items h0 L) := by
  rw [h.walked.p_eq]
  cases items h0 L with
  | nil => exact .inl ⟨rfl, rfl⟩
  | cons x xs =>
      rw [List.getLastD_cons]
      exact .inr ⟨List.cons_ne_nil x xs, List.getLastD_mem_cons ..⟩

theorem of_item (hp : s.p ≠ q) : items h0 L ≠ [] ∧ s.p ∈ items h0 L ∧ s.p < brk :=
  h.p_cases.elim (fun hq => absurd hq.2 hp) fun hi => ⟨hi.1, hi.2, h.old _ hi.2⟩

theorem cst_value (hnode : (h'.cell cst).node = (s.heap.cell cst).node) :
    (h'.cell cst).tag = .valTag ∧
      Evals o s.st.pool h' part cst (((consts h0 L).map v).foldr o.bits (o.unit sh.size)) := by
  have htag : (h'.cell cst).tag = .valTag := (congrArg Node.tag hnode).trans h.walked.cst_is.tag
  refine ⟨htag, ?_⟩
  rw [← h.walked.cst_is.constBits_eq, ← hnode]
  exact .const (h.none_new cst (le_of_eq h.cst_eq.symm)) htag

theorem items_value :
    EvalsAll o s.st.pool h' part (items h0 L) ((items h0 L).map v) := evalsAll_parts h.parts

/-- The result in a heap in which only new cells and the last item have changed. -/
theorem made_of {r : Nat} {x : BitVec sh.size} (hform : Form o h' (items h0 L) r)
    (hval : Evals o s.st.pool h' part r x) (hsame : ∀ y < brk, y ≠ s.p → h'.cell y = s.heap.cell y)
    (hp : s.p < brk → ∃ z l, h'.cell s.p = { s.heap.cell s.p with next := z, last := l }) :
    Made o s.st.pool h0 part brk (items h0 L) x h' r := by
  refine ⟨hform, hval, fun y hy hmem => ?_, fun y hy => ?_⟩
  · obtain ⟨hq, hc⟩ := h.ne_new hy
    have hne : y ≠ s.p := by
      rintro rfl
      exact hmem (h.of_item hq).2.1
    rw [hsame y hy hne]
    exact h.walked.frame y hq hc fun hdrop => hmem (List.mem_of_mem_dropLast hdrop)
  · obtain ⟨z, l, hrec⟩ := h.walked.record y (h.ne_new hy).2
    by_cases hne : y = s.p
    · subst hne
      obtain ⟨z', l', hlink⟩ := hp hy
      exact ⟨z', l', by rw [hlink, hrec]⟩
    · exact ⟨z, l, by rw [hsame y hy hne, hrec]⟩

/-- Nothing but the constant. -/
theorem made_constant (hp : s.p = q) :
    Made o s.st.pool h0 part brk (items h0 L)
      (((consts h0 L).map v).foldr o.bits (o.unit sh.size))
      (s.heap.set q { s.heap.cell q with child := (s.heap.cell q).next }) cst := by
  have hq := h.q_eq
  have hnil : items h0 L = [] := h.p_cases.elim And.left fun hi => by
    have := h.old _ hi.2
    omega
  have hcell : ∀ y ≠ q, (s.heap.set q { s.heap.cell q with
      child := (s.heap.cell q).next }).cell y = s.heap.cell y := fun y hy => Heap.set_cell_ne _ _ hy
  have hc := h.cst_eq
  obtain ⟨htag, hval⟩ := h.cst_value (congrArg Cell.node (hcell cst (by omega)))
  refine h.made_of (.constant hnil htag) hval (fun y hy _ => hcell y (h.ne_new hy).1) fun hlt => ?_
  omega

/-- The items as arguments of `f`, once the last one is closed. -/
theorem items_args (hp : s.p ≠ q)
    (hlast : h'.cell s.p = { s.heap.cell s.p with next := f, last := true })
    (hsame : ∀ y < brk, y ≠ s.p → h'.cell y = s.heap.cell y)
    (hchild : (h'.cell f).child = (s.heap.cell q).next) : Args h' f (items h0 L) := by
  have hend : s.p = (items h0 L).getLastD q := h.walked.p_eq
  rw [Args, hchild]
  refine h.walked.hung.strung (h.of_item hp).1 (fun x hx => ?_) ?_
  · have hmem := List.mem_of_mem_dropLast hx
    have hne : x ≠ s.p := by
      rintro rfl
      rw [hend, List.getLastD_eq_getLast?, List.getLast?_eq_some_getLast (h.of_item hp).1,
        Option.getD_some] at hx
      have hnodup := h.nodup
      rw [← List.dropLast_append_getLast (h.of_item hp).1] at hnodup
      exact (List.nodup_append.1 hnodup).2.2 _ hx _ (List.mem_singleton_self _) rfl
    rw [hsame x (h.old x hmem) hne]
    exact ⟨rfl, rfl⟩
  · rw [← hend, hlast]
    exact ⟨rfl, rfl⟩

/-- A sequence that ends in the zero. -/
theorem made_zero {r : Nat} (hp : s.p ≠ q) (hr : (h'.cell r).tag = .seqTag)
    (hrc : (h'.cell r).child = q) (hq : (h'.cell q).tag = .holderTag ∧ (h'.cell q).last = false ∧
      (h'.cell q).next = cst ∧ (h'.cell q).child = (s.heap.cell q).next)
    (hlast : h'.cell s.p = { s.heap.cell s.p with next := q, last := true })
    (hcst : h'.cell cst = { s.heap.cell cst with next := r, last := true })
    (hsame : ∀ y < brk, y ≠ s.p → h'.cell y = s.heap.cell y) (hnew : brk ≤ r) :
    Made o s.st.pool h0 part brk (items h0 L)
      (((consts h0 L).map v).foldr o.bits (o.unit sh.size)) h' r := by
  have hnode : (h'.cell cst).node = (s.heap.cell cst).node := by
    rw [hcst]
    rfl
  obtain ⟨htag, hval⟩ := h.cst_value hnode
  refine h.made_of (.zero hr ?_ ?_ ?_ ?_ htag ?_ ?_) (.seq (h.none_new r hnew) hr ?_ ?_ ?_) hsame
    fun _ => ⟨q, true, hlast⟩
  · rw [hrc, hq.1]
  · rw [hrc]
    exact h.items_args hp hlast hsame hq.2.2.2
  · rw [hrc, hq.2.1]
  · rw [hrc, hq.2.2.1]
  · rw [hcst]
  · rw [hcst]
  · rw [hrc, hq.1]
  · rw [hrc, hq.2.1]
  · rw [hrc, hq.2.2.1]
    exact hval

/-- An operation with the constant as the last argument. -/
theorem made_withConst (hp : s.p ≠ q) (hq : (h'.cell q).tag = o.tag)
    (hqc : (h'.cell q).child = (s.heap.cell q).next)
    (hlast : h'.cell s.p = { s.heap.cell s.p with next := cst, last := false })
    (hcst : h'.cell cst = { s.heap.cell cst with next := q, last := true })
    (hsame : ∀ y < brk, y ≠ s.p → h'.cell y = s.heap.cell y) :
    Made o s.st.pool h0 part brk (items h0 L)
      (o.bits (((items h0 L).map v).foldr o.bits (o.unit sh.size))
        (((consts h0 L).map v).foldr o.bits (o.unit sh.size))) h' q := by
  have hnode : (h'.cell cst).node = (s.heap.cell cst).node := by
    rw [hcst]
    rfl
  obtain ⟨htag, hval⟩ := h.cst_value hnode
  have hqe := h.q_eq
  have hce := h.cst_eq
  have hnodup : (q :: items h0 L).Nodup := List.nodup_cons.2
    ⟨fun hmem => by have := h.old q hmem; omega, h.nodup⟩
  have hargs : Args h' q (items h0 L ++ [cst]) := by
    have hhung := h.walked.hung.concat cst hnodup
    rw [← h.walked.p_eq] at hhung
    have hnext : ((s.heap.link s.p cst false).cell q).next = (h'.cell q).child := by
      rw [link_cell_ne _ _ (Ne.symm hp), hqc]
    rw [Args, ← hnext]
    refine hhung.strung (List.append_ne_nil_of_right_ne_nil _ (List.cons_ne_nil cst []))
      (fun x hx => ?_) ?_
    · rw [List.dropLast_concat] at hx
      by_cases hxp : x = s.p
      · rw [hxp, hlast, Heap.link, Heap.set_cell_self]
        exact ⟨rfl, rfl⟩
      · rw [hsame x (h.old x hx) hxp, link_cell_ne _ _ hxp]
        exact ⟨rfl, rfl⟩
    · rw [List.getLastD_concat, hcst]
      exact ⟨rfl, rfl⟩
  refine h.made_of (.withConst hq htag hargs) ?_ hsame fun _ => ⟨cst, false, hlast⟩
  have hfold : o.bits (((items h0 L).map v).foldr o.bits (o.unit sh.size))
      (((consts h0 L).map v).foldr o.bits (o.unit sh.size)) =
      ((items h0 L).map v ++ [((consts h0 L).map v).foldr o.bits (o.unit sh.size)]).foldr o.bits
        (o.unit sh.size) := by
    rw [Forest.foldr_append_eq o.unit_bits, List.foldr_cons, List.foldr_nil, o.bits_unit]
  rw [hfold]
  exact .op (h.none_new q (by omega)) hq hargs (EvalsAll.concat hval h.items_value)

/-- An operation without a constant. -/
theorem made_plain (hp : s.p ≠ q) (hq : (h'.cell q).tag = o.tag)
    (hqc : (h'.cell q).child = (s.heap.cell q).next)
    (hlast : h'.cell s.p = { s.heap.cell s.p with next := q, last := true })
    (hsame : ∀ y < brk, y ≠ s.p → h'.cell y = s.heap.cell y) :
    Made o s.st.pool h0 part brk (items h0 L)
      (((items h0 L).map v).foldr o.bits (o.unit sh.size)) h' q := by
  have hqe := h.q_eq
  have hargs := h.items_args hp hlast hsame hqc
  exact h.made_of (.plain hq hargs) (.op (h.none_new q (by omega)) hq hargs h.items_value) hsame
    fun _ => ⟨q, true, hlast⟩

/-- A single item. -/
theorem made_single (hp : s.p ≠ q) (hone : (s.heap.cell q).next = s.p)
    (hcell : h'.cell s.p = s.heap.cell s.p)
    (hsame : ∀ y < brk, y ≠ s.p → h'.cell y = s.heap.cell y) :
    Made o s.st.pool h0 part brk (items h0 L)
      (((items h0 L).map v).foldr o.bits (o.unit sh.size)) h' s.p := by
  have hxs : items h0 L = [s.p] := by
    have hhung := h.walked.hung
    have hend := h.walked.p_eq
    have hnodup := h.nodup
    have hne := (h.of_item hp).1
    cases hitems : items h0 L with
    | nil => exact absurd hitems hne
    | cons x xs =>
        rw [hitems] at hhung hend hnodup
        have hx : x = s.p := hhung.1.symm.trans hone
        cases xs with
        | nil => rw [hx]
        | cons y ys =>
            rw [List.getLastD_cons, List.getLastD_cons] at hend
            refine absurd ?_ (List.nodup_cons.1 hnodup).1
            rw [hx, hend]
            exact List.getLastD_mem_cons ..
  have hval : ((items h0 L).map v).foldr o.bits (o.unit sh.size) = v s.p := by
    rw [hxs, List.map_singleton, List.foldr_cons, List.foldr_nil, o.bits_unit]
  rw [hval]
  exact h.made_of (.single hxs) (.part (h.parts _ (h.of_item hp).2.1)) hsame
    fun _ => ⟨_, _, hcell⟩

/-- Where the test for the zero succeeds, the constant is one. -/
theorem zero_of {I : BitVec sh.size} (hzero : o.hasZero sh = true)
    (hno : (s.heap.cell cst).no = o.zero sh) (hbig : isbigval (s.heap.cell cst).node = false) :
    o.bits I (((consts h0 L).map v).foldr o.bits (o.unit sh.size)) =
      ((consts h0 L).map v).foldr o.bits (o.unit sh.size) := by
  obtain ⟨y, hy, hbits⟩ := h.walked.cst_is.bits
  obtain ⟨y', hy', hbits'⟩ := expToF64_plain s.st.pool hbig
  have hsame : y = y' := Except.ok.inj (hy.symm.trans hy')
  rw [← hbits, hsame, hbits', h.walked.cst_is.shape]
  rw [show (s.heap.cell cst).node.no = o.zero sh from hno]
  cases o with
  | plus => cases hzero
  | xor => cases hzero
  | mult =>
      rw [show AssOp.zero .mult sh = 0 from rfl, zero_bits]
      exact BitVec.mul_zero
  | and =>
      rw [show AssOp.zero .and sh = 0 from rfl, zero_bits]
      exact BitVec.and_zero
  | or =>
      have hle : sh.size ≤ 32 := of_decide_eq_true hzero
      rw [show AssOp.zero .or sh = AssOp.allOnes sh from rfl,
        allOnes_bits h.isInt (.inl (by omega))]
      exact BitVec.or_allOnes

/-- Where the test for a constant other than the unit fails, the constant is the unit. -/
theorem unit_of (hno : (s.heap.cell cst).no = o.one sh)
    (hbig : isbigval (s.heap.cell cst).node = true → o.one sh = -1) :
    ((consts h0 L).map v).foldr o.bits (o.unit sh.size) = o.unit sh.size := by
  have hcst := h.walked.cst_is
  have hplain : isbigval (s.heap.cell cst).node = false := by
    cases hb : isbigval (s.heap.cell cst).node with
    | false => rfl
    | true =>
        have hindex : 0 ≤ (s.heap.cell cst).no := hcst.index hb
        rw [hno, hbig hb] at hindex
        omega
  obtain ⟨y, hy, hbits⟩ := hcst.bits
  obtain ⟨y', hy', hbits'⟩ := expToF64_plain s.st.pool hplain
  have hsame : y = y' := Except.ok.inj (hy.symm.trans hy')
  rw [← hbits, hsame, hbits', hcst.shape, show (s.heap.cell cst).node.no = o.one sh from hno]
  refine one_unit_bits o h.isInt ?_
  rintro rfl
  by_cases hsg : sh.isSigned = true
  · exact .inr hsg
  · refine .inl fun hsize => ?_
    have hnonneg : 0 ≤ (s.heap.cell cst).no :=
      hcst.plain hplain hsize (Bool.eq_false_iff.2 hsg)
    rw [hno, AssOp.one, AssOp.allOnes, hsize] at hnonneg
    exact absurd hnonneg (by decide)

/-- The end of `comm_ass`. -/
theorem finish_made {cstU : Nat} (hU : cst = cstU → o.one sh = -1) :
    Made o s.st.pool h0 part brk (items h0 L)
      (o.bits (((items h0 L).map v).foldr o.bits (o.unit sh.size))
        (((consts h0 L).map v).foldr o.bits (o.unit sh.size)))
      (finish ⟨o.one sh, o.hasZero sh, o.zero sh⟩ e q cst cstU s).1
      (finish ⟨o.one sh, o.hasZero sh, o.zero sh⟩ e q cst cstU s).2.exp := by
  have hq := h.q_eq
  have hc := h.cst_eq
  have hqc : q ≠ cst := by omega
  have hsb : s.heap.brk = brk + 2 := h.walked.brk.trans h.brk_eq
  have hcell : (s.heap.set q { s.heap.cell q with child := (s.heap.cell q).next }).cell cst =
      s.heap.cell cst := Heap.set_cell_ne _ _ hqc.symm
  have hqtag : (s.heap.cell q).tag = o.tag := by
    obtain ⟨_, _, hrec⟩ := h.walked.record q hqc
    rw [hrec]
    exact h.q_tag
  by_cases hp : s.p = q
  · have hnil : items h0 L = [] := h.p_cases.elim And.left fun hi => by
      have := h.old _ (hp ▸ hi.2)
      omega
    have hmade := h.made_constant hp
    rw [hnil, List.map_nil, List.foldr_nil, o.unit_bits]
    rw [hnil] at hmade
    simp only [finish, if_pos hp]
    exact hmade
  have hpb := (h.of_item hp).2.2
  have hpc : s.p ≠ cst := by omega
  have hold : ∀ y < brk, y ≠ q ∧ y ≠ cst ∧ y ≠ brk + 2 := fun y hy => by omega
  by_cases hzero : o.hasZero sh = true ∧ (s.heap.cell cst).no = o.zero sh ∧
      (!isbigval (s.heap.cell cst).node) = true
  · simp only [finish, hcell, if_neg hp, if_pos hzero]
    rw [h.zero_of hzero.1 hzero.2.1 (by simpa using hzero.2.2)]
    have hpr : s.p ≠ brk + 2 := by omega
    have hqr : q ≠ brk + 2 := by omega
    have hcr : cst ≠ brk + 2 := by omega
    refine h.made_zero hp ?_ ?_ ?_ ?_ ?_ (fun y hy hyp => ?_) ?_
    · simp [Heap.link, Heap.set, Heap.getexp, hsb, hcr.symm]
    · simp [Heap.link, Heap.set, Heap.getexp, hsb, hcr.symm]
    · simp [Heap.link, Heap.set, Heap.getexp, hsb, hqr, hqc, Ne.symm hp]
    · simp [Heap.link, Heap.set, Heap.getexp, hsb, hpr, hpc, hp]
    · simp [Heap.link, Heap.set, Heap.getexp, hsb, hcr, hqc.symm, hpc.symm]
    · obtain ⟨hyq, hyc, hyr⟩ := hold y hy
      simp [Heap.link, Heap.set, Heap.getexp, hsb, hyq, hyc, hyr, hyp]
    · show brk ≤ s.heap.brk
      omega
  by_cases hconst : (s.heap.cell cst).no ≠ o.one sh ∨
      (isbigval (s.heap.cell cst).node = true ∧ cst ≠ cstU)
  · simp only [finish, hcell, if_neg hp, if_neg hzero, if_pos hconst]
    refine h.made_withConst hp ?_ ?_ ?_ ?_ fun y hy hyp => ?_
    · simp [Heap.link, Heap.set, hqc, Ne.symm hp, hqtag]
    · simp [Heap.link, Heap.set, hqc, Ne.symm hp]
    · simp [Heap.link, Heap.set, hpc, hp]
    · simp [Heap.link, Heap.set, hqc.symm, hpc.symm]
    · obtain ⟨hyq, hyc, _⟩ := hold y hy
      simp [Heap.link, Heap.set, hyq, hyc, hyp]
  rw [not_or, not_and_or, not_not, not_not] at hconst
  have hunit := h.unit_of hconst.1 fun hb => hU (hconst.2.resolve_left fun hn => hn hb)
  have hpsh : (s.heap.cell s.p).sh = sh := by
    obtain ⟨_, _, hrec⟩ := h.walked.record s.p hpc
    rw [hrec]
    exact h.shape _ (h.of_item hp).2.1
  have heq := (h.ne_new h.e_old).1
  rw [hunit, o.bits_unit]
  have hnot : ¬((s.heap.cell cst).no ≠ o.one sh ∨
      (isbigval (s.heap.cell cst).node = true ∧ cst ≠ cstU)) := fun hor =>
    hor.elim (fun hne => hne hconst.1) fun hb => hconst.2.elim (fun hn => hn hb.1) hb.2
  simp only [finish, hcell, if_neg hp, if_neg hzero, if_neg hnot, Heap.set_cell_self]
  by_cases hone : (s.heap.cell q).next = s.p
  · simp only [if_pos hone]
    refine h.made_single hp hone ?_ fun y hy hyp => ?_
    · rw [Heap.set_cell_self, Heap.set_cell_ne _ _ hp, Heap.set_cell_ne _ _ heq, h.e_cell, ← hpsh]
    · rw [Heap.set_cell_ne _ _ hyp, Heap.set_cell_ne _ _ (hold y hy).1]
  · simp only [if_neg hone]
    refine h.made_plain hp ?_ ?_ ?_ fun y hy hyp => ?_
    · simp [Heap.link, Heap.set, Ne.symm hp, hqtag]
    · simp [Heap.link, Heap.set, Ne.symm hp]
    · simp [Heap.link, Heap.set, hp]
    · simp [Heap.link, Heap.set, (hold y hy).1, hyp]

end AtEnd

end

/-! ## The theorem -/

theorem toChange_ok (o : AssOp) {h : Heap} : ∀ {t : Nat} (fuel : Nat)
    (changed : Bool), Strung h f t xs → xs.length ≤ fuel →
    ∃ b, toChange o h fuel changed t = .ok b := by
  induction xs with
  | nil => exact fun _ _ h => h.elim
  | cons x xs ih =>
      intro t fuel changed hxs hfuel
      obtain ⟨fuel, rfl⟩ : ∃ k, fuel = k + 1 :=
          ⟨fuel - 1, by simp only [List.length_cons] at hfuel; omega⟩
      cases xs with
      | nil =>
          obtain ⟨rfl, hlast, _⟩ := hxs
          rw [toChange]
          simp only [hlast, if_true]
          exact ⟨_, rfl⟩
      | cons y ys =>
          obtain ⟨rfl, hlast, hrest⟩ := hxs
          rw [toChange]
          simp only [hlast, Bool.false_eq_true, if_false]
          exact ih fuel _ hrest (by simp only [List.length_cons] at hfuel ⊢; omega)

theorem Linked.congr {h : Heap} : ∀ {f : Nat},
    Linked o dive h f F → (∀ x ∈ F.labels, h'.cell x = h.cell x) → Linked o dive h' f F := by
  induction F with
  | nil => exact fun _ _ => trivial
  | leaf a rest ih =>
      intro f hF hsame
      obtain ⟨hin, hlast, hnext, hrest⟩ := hF
      rw [← hsame a (List.mem_cons_self ..)] at hin hlast hnext
      exact ⟨hin, hlast, hnext, ih hrest fun x hx => hsame x (List.mem_cons_of_mem _ hx)⟩
  | node a inner rest ih1 ih2 =>
      intro f hF hsame
      obtain ⟨hin, hinner, hchild, hlinked, hlast, hnext, hrest⟩ := hF
      rw [← hsame a (List.mem_cons_self ..)] at hin hchild hlast hnext
      exact ⟨hin, hinner, hchild,
        ih1 hlinked fun x hx => hsame x (List.mem_cons_of_mem _ (List.mem_append_left _ hx)),
        hlast, hnext,
        ih2 hrest fun x hx => hsame x (List.mem_cons_of_mem _ (List.mem_append_right _ hx))⟩

theorem items_congr {h : Heap} {L : List Nat} (hsame : ∀ x ∈ L, h'.cell x = h.cell x) :
    items h' L = items h L :=
  List.filter_congr fun x hx => by rw [hsame x hx]

theorem consts_congr {h : Heap} {L : List Nat} (hsame : ∀ x ∈ L, h'.cell x = h.cell x) :
    consts h' L = consts h L :=
  List.filter_congr fun x hx => by rw [hsame x hx]

theorem Made.congr {h0 h0' : Heap} {part : Nat → Option (BitVec n)} {brk : Nat} {x : BitVec n}
    {h : Heap} {r : Nat} (hm : Made o p h0 part brk xs x h r)
    (hsame : ∀ y < brk, h0.cell y = h0'.cell y) : Made o p h0' part brk xs x h r :=
  ⟨hm.form, hm.value, fun y hy hmem => (hm.frame y hy hmem).trans (hsame y hy),
    fun y hy => hsame y hy ▸ hm.record y hy⟩

section

variable {o : AssOp} {dive : Bool} {st : FoldSt} {h : Heap} {e : Nat} {F : Forest Nat}
  {part : Nat → Option (BitVec (h.cell e).sh.size)}
variable (htree : Tree o dive st.pool h e F)
variable (hpart : ∀ x, (part x).isSome = true ↔ x ∈ F.leaves ∧ isConst (h.cell x) = false)

theorem part_eq_none {part : Nat → Option (BitVec n)}
    (hpart : ∀ x, (part x).isSome = true ↔ x ∈ F.leaves ∧ isConst (h.cell x) = false) {x : Nat}
    (hx : ¬(x ∈ F.leaves ∧ isConst (h.cell x) = false)) : part x = none := by
  cases hval : part x with
  | none => rfl
  | some v => exact absurd ((hpart x).1 (by rw [hval]; rfl)) hx

include htree hpart

/-- The value of `e`: the leaves that stay, and the constants. -/
theorem evals_before : Evals o st.pool h part e
    (o.bits (((items h F.leaves).map (leafBits _ st.pool h part)).foldr o.bits (o.unit _))
      (((consts h F.leaves).map (leafBits _ st.pool h part)).foldr o.bits (o.unit _))) := by
  obtain ⟨he, hnodup⟩ := List.nodup_cons.1 htree.nodup
  obtain ⟨vs, hvs, hfold⟩ := evals_forest htree.linked
    (fun x hx => part_eq_none hpart fun hmem => Forest.not_mem_leaves hnodup hx hmem.1)
    fun x hx => by
      split
      · rename_i hc
        refine ⟨part_eq_none hpart fun hmem => ?_, (htree.const x hx hc).1⟩
        rw [hc] at hmem
        exact Bool.noConfusion hmem.2
      · rename_i hc
        exact (hpart x).2 ⟨hx, Bool.eq_false_iff.2 hc⟩
  have hvalue : vs.foldr o.bits (o.unit _) = _ := (hfold.trans
    (Forest.fold_eq_leaves o.unit_bits _ F)).trans
    (Forest.foldr_partition o.unit_bits _ (fun x => isConst (h.cell x)) F.leaves)
  rw [items, consts, ← hvalue]
  refine .op (part_eq_none hpart fun hmem => he (F.leaves_sublist.subset hmem.1)) htree.tag ?_ hvs
  rw [Args, htree.child]
  exact htree.linked.strung htree.nonempty

/-- The second loop, from the constant and the new cell to its end. -/
theorem walk_atEnd {p1 : Pool} {h1 : Heap} (hp1 : p1.Ok) (hk1 : st.pool.Keeps p1)
    (hbrk1 : h1.brk = h.brk + 1) (hsame1 : ∀ x < h.brk, h1.cell x = h.cell x)
    (hcst : CstIs o (h.cell e).sh p1 (h1.cell h.brk).node (o.unit _)) {qc : Cell}
    (hq : qc.tag = o.tag) {fuel : Nat} (hfuel : 2 * F.labels.length ≤ fuel) (et : Nat) :
    Goes o st (walk o dive e h.brk et fuel false
      ⟨{ st with pool := p1 }, (h1.getexp qc).2, (h.cell e).child, h.brk + 1⟩) fun s =>
      AtEnd o { st with pool := p1 } (h1.getexp qc).2 e (h.brk + 1) h.brk (h.cell e).sh part
        (leafBits _ st.pool h part) h.brk F.leaves s ∧ st.pool.Keeps s.st.pool := by
  obtain ⟨he, hnodup⟩ := List.nodup_cons.1 htree.nodup
  have hold : ∀ x ∈ F.labels, x < h.brk := fun x hx => htree.old x (List.mem_cons_of_mem _ hx)
  have helt : e < h.brk := htree.old e (List.mem_cons_self ..)
  have hqcell : (h1.getexp qc).2.cell (h.brk + 1) = qc := by
    rw [← hbrk1]
    exact Heap.set_cell_self ..
  have hother : ∀ x ≠ h.brk + 1, (h1.getexp qc).2.cell x = h1.cell x := fun x hx =>
    Heap.set_cell_ne h1 qc (by rw [hbrk1]; exact hx)
  have hsame : ∀ x < h.brk, (h1.getexp qc).2.cell x = h.cell x := fun x hx =>
    (hother x (by omega)).trans (hsame1 x hx)
  have hleaf : ∀ x ∈ F.leaves, x < h.brk := fun x hx => hold x (F.leaves_sublist.subset hx)
  have hitem : ∀ x ∈ items (h1.getexp qc).2 F.leaves, x ∈ F.leaves ∧
      isConst (h.cell x) = false := by
    intro x hx
    obtain ⟨hmem, hc⟩ := List.mem_filter.1 hx
    rw [hsame x (hleaf x hmem)] at hc
    exact ⟨hmem, by simpa using hc⟩
  have hgo : Reaches o dive { st with pool := p1 } (h1.getexp qc).2 e (h.brk + 1) h.brk
      (h.cell e).sh (leafBits _ st.pool h part) et (fuel - 2 * F.labels.length) e
      ([] ++ F.leaves) _ :=
    walk_forest htree.isInt (Nat.succ_ne_self _) F _
      (htree.linked.congr fun x hx => hsame x (hold x hx)) htree.nonempty
      (List.nodup_cons.2 ⟨fun hmem => by have := hold _ hmem; omega, hnodup⟩)
      (fun hmem => Nat.lt_irrefl _ (hold _ hmem)) he (fun x hx => ?_)
      (s := ⟨{ st with pool := p1 }, (h1.getexp qc).2, (h.cell e).child, h.brk + 1⟩) ?_ htree.child
  · rw [Nat.sub_add_cancel hfuel] at hgo
    rcases hgo with ⟨ho, hextra, hrun⟩ | ⟨s, hrun, hw, hcell, hlast, hnext⟩
    · exact .inl ⟨ho, hextra, hrun⟩
    · rw [List.nil_append] at hw
      refine .inr ⟨s, ?_, ⟨htree.isInt, hw, hnodup.sublist
        (List.filter_sublist.trans F.leaves_sublist), fun x hx => hleaf x (hitem x hx).1, rfl, rfl,
        ?_, fun x hx => ?_, helt, fun hmem => he (F.leaves_sublist.subset (hitem e hmem).1), ?_,
        ?_, fun x hx => ?_, fun x hx => ?_⟩, hk1.trans hw.keeps⟩
      · rw [hrun, walk]
        simp only [hcell, hlast, hnext, if_true, ne_eq, not_true, and_false, if_false]
      · show h1.brk + 1 = h.brk + 2
        omega
      · have hmem := (hitem x hx).1
        rw [hsame x (hleaf x hmem)]
        exact htree.shape x (F.leaves_sublist.subset hmem)
      · rw [hsame e helt]
      · rw [hqcell, hq]
      · obtain ⟨v, hv⟩ := Option.isSome_iff_exists.1 ((hpart x).2 (hitem x hx))
        rw [leafBits, if_neg (by rw [(hitem x hx).2]; exact Bool.false_ne_true), hv]
        rfl
      · refine part_eq_none hpart fun hmem => ?_
        have := hleaf x hmem.1
        omega
  · have hx' := hleaf x hx
    refine ⟨by omega, by omega, ?_, fun hc => ?_⟩
    · rw [hsame x hx']
      exact htree.shape x (F.leaves_sublist.subset hx)
    · rw [hsame x hx'] at hc ⊢
      obtain ⟨_, w, hw⟩ := htree.const x hx hc
      have hsh : (h.cell x).node.sh = (h.cell e).sh :=
        htree.shape x (F.leaves_sublist.subset hx)
      refine ⟨w, hw.keeps hk1, ?_⟩
      rw [leafBits, if_pos hc, ← hsh]
      exact hw.constBits_eq (hsh ▸ htree.isInt)
  · refine ⟨trivial, rfl, fun _ _ _ _ => rfl, fun _ _ => ⟨_, _, rfl⟩, rfl, hp1, .refl _, rfl, ?_⟩
    rw [hother h.brk (by omega)]
    exact hcst

end

/-- `x + 5 + (y + 6)`, in the cell 1, with `x` in 2 and `y` in 5. -/
def sumHeap : Heap where
  cell x :=
    match x with
    | 1 => ⟨.plusTag, intShape 32 true, 0, 1, 2, 0, true⟩
    | 2 => ⟨.contTag, intShape 32 true, 0, 0, 0, 3, false⟩
    | 3 => ⟨.valTag, intShape 32 true, 5, 0, 0, 4, false⟩
    | 4 => ⟨.plusTag, intShape 32 true, 0, 1, 5, 1, true⟩
    | 5 => ⟨.contTag, intShape 32 true, 0, 0, 0, 6, false⟩
    | 6 => ⟨.valTag, intShape 32 true, 6, 0, 0, 4, true⟩
    | _ => ⟨.topTag, intShape 32 true, 0, 0, 0, 0, false⟩
  brk := 7

/-- 7 for `x` and 9 for `y`. -/
def sumPart (x : Nat) : Option (BitVec 32) :=
  match x with
  | 2 => some 7
  | 5 => some 9
  | _ => none

def sumArgs : Forest Nat := .leaf 2 (.leaf 3 (.node 4 (.leaf 5 (.leaf 6 .nil)) .nil))

theorem sumArgs_leaves : sumArgs.leaves = [2, 3, 5, 6] := rfl

theorem sumHeap_tree : Tree .plus true (startSt true).pool sumHeap 1 sumArgs where
  tag := rfl
  isInt := intShape32_isInt true
  nonempty := by decide
  child := rfl
  linked := by simp only [sumArgs, Linked, Forest.heads, Forest.first]; decide
  nodup := by decide
  old := by decide
  shape := by decide
  const x hx hc := by
    rw [sumArgs_leaves] at hx
    simp only [List.mem_cons, List.not_mem_nil, or_false] at hx
    rcases hx with rfl | rfl | rfl | rfl
    · cases hc
    · exact ⟨rfl, 5, intConst_canon (by decide)⟩
    · cases hc
    · exact ⟨rfl, 6, intConst_canon (by decide)⟩

theorem sumPart_isSome (x : Nat) :
    (sumPart x).isSome = true ↔ x ∈ sumArgs.leaves ∧ isConst (sumHeap.cell x) = false := by
  constructor
  · intro hx
    unfold sumPart at hx
    split at hx
    · decide
    · decide
    · cases hx
  · rintro ⟨hx, hc⟩
    rw [sumArgs_leaves] at hx
    simp only [List.mem_cons, List.not_mem_nil, or_false] at hx
    rcases hx with rfl | rfl | rfl | rfl
    · rfl
    · cases hc
    · rfl
    · cases hc

theorem sumHeap_evals : Evals .plus (startSt true).pool sumHeap sumPart 1 27 := by
  have hconst : ∀ x v, sumPart x = none → (sumHeap.cell x).node = intConst (intShape 32 true) v →
      InRange true 32 v → Evals .plus (startSt true).pool sumHeap sumPart x
      (BitVec.ofInt 32 v) := by
    intro x v hpart hnode hv
    have hbits : constBits 32 (startSt true).pool (sumHeap.cell x).node = BitVec.ofInt 32 v := by
      rw [hnode]
      exact (intConst_canon hv).constBits_eq (intShape32_isInt true)
    rw [← hbits]
    exact .const hpart (congrArg Node.tag hnode)
  have hinner : Evals .plus (startSt true).pool sumHeap sumPart 4 15 :=
    @Evals.op _ _ _ _ _ 4 [5, 6] [9, 6] rfl rfl ⟨rfl, rfl, rfl, rfl, rfl⟩
      (.cons (.part rfl) (.cons (hconst 6 6 rfl rfl (by decide)) .nil))
  exact @Evals.op _ _ _ _ _ 1 [2, 3, 4] [7, 5, 15] rfl rfl ⟨rfl, rfl, rfl, rfl, rfl, rfl, rfl⟩
    (.cons (.part rfl) (.cons (hconst 3 5 rfl rfl (by decide)) (.cons hinner .nil)))

end Tendra.Ref
