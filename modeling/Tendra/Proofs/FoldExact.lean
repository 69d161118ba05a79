import Tendra.Proofs.Canon

/-!
# Integer constant folding is exact

Each folding function decodes two canonical constants to patterns of 64 bits,
computes (through the pool and the floating point emulator, or word by word),
and leaves the low bits of the result in the first operand. The patterns are
exact modulo `2 ^ 64`, and a shape has at most 64 bits.

The one exception is a deliberate one: with `CHECK_EXTRA` set, `mult_fn` stops
the installer when a signed product leaves the range of 32 bits (or of the
64-bit arithmetic itself).
-/

namespace Tendra.Ref

open Tendra.Word Tendra.Digits

variable {st : FoldSt} {ap : Node} {v : Int}

/-- The result of a folding function: it ends, and leaves in the constant `a` the
canonical representation of `v`, which `exp_to_f64` decodes to `v`. -/
def Folded (st : FoldSt) (a : Node) (v : Int) (r : Run (FoldSt × Node)) : Prop :=
  ∃ p' a', r = .ok ({ st with pool := p' }, a') ∧ Wrote st.pool a v p' a' ∧
    ∃ x, expToF64 p' a' = .ok x ∧ decode a.sh.isSigned x.bits = v

/-- When `mult_fn` stops under `CHECK_EXTRA`. -/
def MultOut (sh : Shape) (v : Int) : Prop :=
  sh.isSigned = true ∧ (2 ^ 63 ≤ v.natAbs ∨ (sh.size ≤ 32 ∧ ¬ InRange true 32 v))

instance (sh : Shape) (v : Int) : Decidable (MultOut sh v) := by
  unfold MultOut
  infer_instance

theorem Wrote.folded {a a' : Node} {p' : Pool} {r : Run (FoldSt × Node)} (hs : a.sh.IsInt)
    (hr : r = .ok ({ st with pool := p' }, a')) (h : Wrote st.pool a v p' a') :
    Folded st a v r := by
  refine ⟨p', a', hr, h, ?_⟩
  obtain ⟨x, hx, hbits⟩ := expToF64_canon h.canon (h.sh ▸ hs)
  refine ⟨x, hx, ?_⟩
  have hrange := h.canon.range64 (h.sh ▸ hs)
  rw [h.sh] at hrange
  rw [hbits, decode_ofInt (by decide) hrange]

theorem natAbs_lt_of_inRange {sg : Bool} (h : InRange sg 64 v) : v.natAbs < 2 ^ 64 := by
  cases sg
  · simp only [InRange, Bool.false_eq_true, if_false] at h
    omega
  · simp only [InRange, if_true] at h
    omega

/-- The end of a folding function that went through the pool. -/
theorem release_folded {a : Node} {p : Pool} {fa fb : Nat} {x : F64} (hs : ap.sh.IsInt)
    (hsh : a.sh = ap.sh) (htag : a.tag = ap.tag) (hok' : ((p.ret fa).ret fb).Ok)
    (hk : st.pool.Keeps ((p.ret fa).ret fb)) :
    Folded st ap (decode ap.sh.isSigned (x.bits.setWidth ap.sh.size))
      (.ok (release st p fa fb a x)) := by
  have hw := bigres_wrote hok' (hsh ▸ hs) x
  refine Wrote.folded hs rfl ⟨hw.ok, hk.trans hw.keeps, hw.sh.trans hsh, hw.tag.trans htag, ?_⟩
  rw [← hsh]
  exact hw.canon

theorem noteOverflow_sh (ap b : Node) (et : Nat) (x : F64) (ov : Bool) :
    (noteOverflow ap b et x ov).sh = ap.sh := by
  unfold noteOverflow
  split <;> rfl

theorem noteOverflow_tag (ap b : Node) (et : Nat) (x : F64) (ov : Bool) :
    (noteOverflow ap b et x ov).tag = ap.tag := by
  unfold noteOverflow
  split <;> rfl

/-- What remains of an exact pattern in a shape. -/
theorem wrap_of_bits {sh : Shape} (hs : sh.IsInt) {x : F64} {w : Int}
    (h : x.bits = BitVec.ofInt 64 w) :
    decode sh.isSigned (x.bits.setWidth sh.size) = wrap sh.isSigned sh.size w := by
  rw [h, setWidth_ofInt hs.le, wrap]

theorem Canon.natAbs_lt {p : Pool} {e : Node} (h : Canon p e v) (hs : e.sh.IsInt) :
    v.natAbs < 2 ^ 64 := natAbs_lt_of_inRange (h.range64 hs)

/-- The test of `mult_fn`, in terms of the exact product. -/
theorem multOut_iff {x : F64} {ov : Bool} (hbits : x.bits = BitVec.ofInt 64 v)
    (hov : ov = true ↔ if ap.sh.isSigned then 2 ^ 63 ≤ v.natAbs else 2 ^ 64 ≤ v.natAbs) :
    (ap.sh.isSigned = true ∧ (ov = true ∨
      (ap.sh.size ≤ 32 ∧ checkSize x ap.sh.isSigned 32 = true))) ↔ MultOut ap.sh v := by
  unfold MultOut
  refine and_congr_right fun hsg => ?_
  rw [hov, hsg, if_pos rfl]
  by_cases hbig : 2 ^ 63 ≤ v.natAbs
  · exact ⟨fun _ => .inl hbig, fun _ => .inl hbig⟩
  · have hr : InRange true 64 v := by
      simp only [InRange, if_true]
      omega
    have hcheck : checkSize x true 32 = true ↔ ¬ InRange true 32 v := by
      have hiff := small_sign_eq_big_iff hr hbits
      simp only [checkSize, InRange, if_true]
      by_cases h : x.small.sshiftRight 31 = x.big
      · have hin := hiff.1 h
        simp only [h, Nat.lt_irrefl, if_false, true_or, and_true, if_true, Bool.false_eq_true,
          false_iff, not_not]
        exact hin
      · have hn := mt hiff.2 h
        simp only [h, hn]
        simp
    simp only [hbig, false_or, hcheck]

/-- A folding function of one constant that works on the pattern. -/
theorem bits_folded (hok : st.pool.Ok) (hs : ap.sh.IsInt) {x : F64} {y : BitVec ap.sh.size}
    (h : x.bits.setWidth ap.sh.size = y) {r : Run (FoldSt × Node)}
    (hr : r = .ok ({ st with pool := (bigres st.pool ap x).1 }, (bigres st.pool ap x).2)) :
    Folded st ap (decode ap.sh.isSigned y) r := by
  subst h
  exact Wrote.folded hs hr (bigres_wrote hok hs x)

theorem negFn_folded {va : Int} (hok : st.pool.Ok) (hs : ap.sh.IsInt) (ha : Canon st.pool ap va) :
    Folded st ap (wrap ap.sh.isSigned ap.sh.size (-va)) (negFn st ap) := by
  obtain ⟨x, hx, hbits⟩ := expToF64_canon ha hs
  refine bits_folded hok hs ?_ (x := x.neg) ?_
  · rw [F64.neg_bits, hbits, ← BitVec.ofInt_neg, setWidth_ofInt hs.le]
  · simp only [negFn, hx, bind, Except.bind, pure, Except.pure]

theorem notFn_folded {va : Int} (hok : st.pool.Ok) (hs : ap.sh.IsInt) (ha : Canon st.pool ap va) :
    Folded st ap (decode ap.sh.isSigned (~~~BitVec.ofInt ap.sh.size va)) (notFn st ap) := by
  obtain ⟨x, hx, hbits⟩ := expToF64_canon ha hs
  refine bits_folded hok hs ?_ (x := ⟨~~~x.big, ~~~x.small⟩) ?_
  · have hnot : F64.bits ⟨~~~x.big, ~~~x.small⟩ = ~~~x.bits := by
      rw [F64.bits, F64.bits, BitVec.not_append]
    rw [hnot, hbits, BitVec.setWidth_not hs.le, setWidth_ofInt hs.le]
  · simp only [notFn, hx, bind, Except.bind, pure, Except.pure]

/-- What `flt_to_f64` gives for the number of an integer. -/
def Tested (sh : Shape) (v : Int) (x : F64) (ov : Bool) : Prop :=
  x.bits = BitVec.ofInt 64 v ∧
    (ov = true ↔ if sh.isSigned then 2 ^ 63 ≤ v.natAbs else 2 ^ 64 ≤ v.natAbs)

section Operands

variable {b : Node} {va vb : Int}
variable (hok : st.pool.Ok) (hs : ap.sh.IsInt) (hbs : b.sh = ap.sh)
variable (ha : Canon st.pool ap va) (hb : Canon st.pool b vb)

include hok hs hbs ha hb

/-- Two constants taken through the pool. The entries that were used on the way
can be given back, and nothing that was in use has changed. -/
theorem viaFlt_spec (op : Pool → Flt → Flt → Run Flt) {P : F64 → Bool → Prop}
    (hop : ∀ q f g, st.pool.Keeps q → f.Is va → g.Is vb →
      ∃ r x ov, op q f g = .ok r ∧ fltToF64 r ap.sh.isSigned = .ok (x, ov) ∧ P x ov) :
    ∃ fa fb p' x ov, viaFlt st.pool op ap b = .ok (fa, fb, p', x, ov) ∧ P x ov ∧
      ((p'.ret fa).ret fb).Ok ∧ st.pool.Keeps ((p'.ret fa).ret fb) := by
  obtain ⟨xa, hxa, hbitsa⟩ := expToF64_canon ha hs
  have t1 := f64ToFlt_took hok xa ap.sh.isSigned
  have his1 := f64ToFlt_is st.pool xa ap.sh.isSigned
  generalize hp1 : f64ToFlt st.pool xa ap.sh.isSigned = r1 at *
  obtain ⟨xb, hxb, hbitsb⟩ := expToF64_canon (hb.keeps t1.keeps) (hbs ▸ hs)
  have t2 := f64ToFlt_took t1.ok xb ap.sh.isSigned
  have his2 := f64ToFlt_is r1.2 xb ap.sh.isSigned
  generalize hp2 : f64ToFlt r1.2 xb ap.sh.isSigned = r2 at *
  have hra := ha.range64 hs
  have hrb := hb.range64 (hbs ▸ hs)
  rw [hbs] at hrb
  rw [hbitsa, decode_ofInt (by decide) hra, ← t2.keeps.nos _ t1.live] at his1
  rw [hbitsb, decode_ofInt (by decide) hrb] at his2
  obtain ⟨r, x, ov, hr, hx, hP⟩ := hop r2.2 _ _ (t1.keeps.trans t2.keeps) his1 his2
  have tr : st.pool.Took r2.2 r1.1 :=
    ⟨t2.ok, t1.keeps.trans t2.keeps, t1.fresh, t2.keeps.live _ t1.live⟩
  have t3 := tr.set r
  have hne : r2.1 ≠ r1.1 := by
    intro h
    exact t2.fresh (h ▸ t1.live)
  have hlive : (r2.2.set r1.1 r).Live r2.1 := (Pool.set_live r tr.live.2).2 t2.live
  have hlive' := (Pool.ret_live t3.ok t3.live).2 ⟨hlive, hne⟩
  have hfresh : ¬ st.pool.Live r2.1 := fun h => t2.fresh (t1.keeps.live _ h)
  have hok' := Pool.ret_ok t3.ok t3.live
  refine ⟨r1.1, r2.1, r2.2.set r1.1 r, x, ov, ?_, hP, Pool.ret_ok hok' hlive',
    (t3.keeps.ret t3.ok t3.live t3.fresh).ret hok' hlive' hfresh⟩
  simp only [viaFlt, hxa, bind, Except.bind, hp1, hxb, hp2, hr, Pool.set_nos_self, hx, pure,
    Except.pure]

/-- A sum or a difference by way of `flt`. -/
theorem viaFlt_sum {add : Flt → Flt → Flt → Status × Flt} (hv : v.natAbs ≤ va.natAbs + vb.natAbs)
    (hadd : ∀ {f g}, f.Is va → g.Is vb → v.natAbs < fbase ^ mantSize → ∀ res,
      ∃ r, add f g res = (.okay, r) ∧ r.Is v) :
    ∃ fa fb p' x ov, viaFlt st.pool (fun _ f g => .ok (add f g st.junk).2) ap b =
        .ok (fa, fb, p', x, ov) ∧ Tested ap.sh v x ov ∧
      ∀ et, Folded st ap (wrap ap.sh.isSigned ap.sh.size v)
        (.ok (release st p' fa fb (noteOverflow ap b et x ov) x)) := by
  have hlt : v.natAbs < fbase ^ mantSize :=
    lt_of_le_of_lt hv (lt_trans (Nat.add_lt_add (ha.natAbs_lt hs) (hb.natAbs_lt (hbs ▸ hs)))
      (by decide))
  obtain ⟨fa, fb, p', x, ov, hvia, htested, hok', hk⟩ :=
    viaFlt_spec hok hs hbs ha hb (fun _ f g => .ok (add f g st.junk).2)
      (P := Tested ap.sh v) fun q f g _ hf hg => by
        obtain ⟨r, hr, his⟩ := hadd hf hg hlt st.junk
        obtain ⟨x, ov, hx, htested⟩ := fltToF64_is his ap.sh.isSigned
        exact ⟨r, x, ov, by rw [hr], hx, htested⟩
  refine ⟨fa, fb, p', x, ov, hvia, htested, fun et => ?_⟩
  rw [← wrap_of_bits hs htested.1]
  exact release_folded hs (noteOverflow_sh ..) (noteOverflow_tag ..) hok' hk

theorem plusFn_folded (et : Nat) :
    Folded st ap (wrap ap.sh.isSigned ap.sh.size (va + vb)) (plusFn st ap b et) := by
  obtain ⟨fa, fb, p', x, ov, hvia, -, h⟩ :=
    viaFlt_sum hok hs hbs ha hb (Int.natAbs_add_le va vb) fltAdd_is
  simp only [plusFn, hvia, bind, Except.bind]
  exact h et

theorem minusFn_folded (et : Nat) :
    Folded st ap (wrap ap.sh.isSigned ap.sh.size (va - vb)) (minusFn st ap b et) := by
  obtain ⟨fa, fb, p', x, ov, hvia, -, h⟩ :=
    viaFlt_sum hok hs hbs ha hb (Int.natAbs_sub_le va vb) fltSub_is
  simp only [minusFn, hvia, bind, Except.bind]
  exact h et

/-- `mult_fn` is exact, or stops where `CHECK_EXTRA` makes it stop. -/
theorem multFn_folded (et : Nat) :
    if st.checkExtra = true ∧ MultOut ap.sh (va * vb) then multFn st ap b et = .error .exits
    else Folded st ap (wrap ap.sh.isSigned ap.sh.size (va * vb)) (multFn st ap b et) := by
  have hla := ha.natAbs_lt hs
  have hlb := hb.natAbs_lt (hbs ▸ hs)
  have hlt : (va * vb).natAbs < fbase ^ mantSize := by
    rw [Int.natAbs_mul]
    exact lt_of_lt_of_le (Nat.mul_lt_mul'' hla hlb) (by decide)
  obtain ⟨fa, fb, p', x, ov, hvia, ⟨hbits, hov⟩, hok', hk⟩ :=
    viaFlt_spec hok hs hbs ha hb (fun _ f g => (fltMul f g st.junk).map Prod.snd)
      (P := fun x ov => x.bits = BitVec.ofInt 64 (va * vb) ∧
        (ov = true ↔ if ap.sh.isSigned then 2 ^ 63 ≤ (va * vb).natAbs
          else 2 ^ 64 ≤ (va * vb).natAbs)) fun q f g _ hf hg => by
        obtain ⟨r, hr, his⟩ := fltMul_is hf hg hlt st.junk
        obtain ⟨x, ov, hx, hbits⟩ := fltToF64_is his ap.sh.isSigned
        exact ⟨r, x, ov, by rw [hr]; rfl, hx, hbits⟩
  have hout := multOut_iff hbits hov
  have hrel : Folded st ap (wrap ap.sh.isSigned ap.sh.size (va * vb))
      (.ok (release st p' fa fb (noteOverflow ap b et x ov) x)) := by
    rw [← wrap_of_bits hs hbits]
    exact release_folded hs (noteOverflow_sh ..) (noteOverflow_tag ..) hok' hk
  simp only [multFn, hvia, bind, Except.bind]
  split
  · next h =>
      rw [if_pos h.1, if_pos (hout.2 h.2)]
      rfl
  · next h =>
      by_cases hc : st.checkExtra = true
      · rw [if_pos hc, if_neg fun h' => h ⟨hc, hout.1 h'⟩]
        exact hrel
      · rw [if_neg hc]
        exact hrel

/-- `and_fn`, `or_fn` and `xor_fn`: an operation that works bit by bit. -/
theorem wordsFn_folded (op : ∀ {n : Nat}, BitVec n → BitVec n → BitVec n)
    (happ : ∀ (a c : BitVec 32) (b d : BitVec 32), op (a ++ b) (c ++ d) = op a c ++ op b d)
    (hset : ∀ (m : Nat) (x y : BitVec 64),
      m ≤ 64 → (op x y).setWidth m = op (x.setWidth m) (y.setWidth m)) :
    Folded st ap
      (decode ap.sh.isSigned (op (BitVec.ofInt ap.sh.size va) (BitVec.ofInt ap.sh.size vb)))
      (wordsFn op st ap b) := by
  obtain ⟨xa, hxa, hbitsa⟩ := expToF64_canon ha hs
  obtain ⟨xb, hxb, hbitsb⟩ := expToF64_canon hb (hbs ▸ hs)
  refine bits_folded hok hs ?_ (x := ⟨op xa.big xb.big, op xa.small xb.small⟩) ?_
  · have hbits : F64.bits ⟨op xa.big xb.big, op xa.small xb.small⟩ =
        op (BitVec.ofInt 64 va) (BitVec.ofInt 64 vb) := by
      rw [← hbitsa, ← hbitsb, F64.bits, F64.bits, F64.bits, happ]
    rw [hbits, hset _ _ _ hs.le, setWidth_ofInt hs.le, setWidth_ofInt hs.le]
  · simp only [wordsFn, hxa, hxb, bind, Except.bind, pure, Except.pure]

/-- Constant folding is exact: each function leaves the canonical representation
of the exact result, reduced to the shape. Only `mult_fn` may stop the
installer instead, under `CHECK_EXTRA` and on a signed product out of bounds. -/
theorem fold_exact (et : Nat) :
    Folded st ap (wrap ap.sh.isSigned ap.sh.size (va + vb)) (plusFn st ap b et) ∧
    Folded st ap (wrap ap.sh.isSigned ap.sh.size (va - vb)) (minusFn st ap b et) ∧
    (if st.checkExtra = true ∧ MultOut ap.sh (va * vb) then multFn st ap b et = .error .exits
      else Folded st ap (wrap ap.sh.isSigned ap.sh.size (va * vb)) (multFn st ap b et)) ∧
    Folded st ap
      (decode ap.sh.isSigned (BitVec.ofInt ap.sh.size va &&& BitVec.ofInt ap.sh.size vb))
      (andFn st ap b) ∧
    Folded st ap
      (decode ap.sh.isSigned (BitVec.ofInt ap.sh.size va ||| BitVec.ofInt ap.sh.size vb))
      (orFn st ap b) ∧
    Folded st ap
      (decode ap.sh.isSigned (BitVec.ofInt ap.sh.size va ^^^ BitVec.ofInt ap.sh.size vb))
      (xorFn st ap b) ∧
    Folded st ap (wrap ap.sh.isSigned ap.sh.size (-va)) (negFn st ap) ∧
    Folded st ap (decode ap.sh.isSigned (~~~BitVec.ofInt ap.sh.size va)) (notFn st ap) := by
  refine ⟨plusFn_folded hok hs hbs ha hb et, minusFn_folded hok hs hbs ha hb et,
    multFn_folded hok hs hbs ha hb et, ?_, ?_, ?_, negFn_folded hok hs ha,
    notFn_folded hok hs ha⟩
  · exact wordsFn_folded hok hs hbs ha hb (fun x y => x &&& y)
      (fun _ _ _ _ => BitVec.and_append) fun _ _ _ _ => BitVec.setWidth_and
  · exact wordsFn_folded hok hs hbs ha hb (fun x y => x ||| y)
      (fun _ _ _ _ => BitVec.or_append) fun _ _ _ _ => BitVec.setWidth_or
  · exact wordsFn_folded hok hs hbs ha hb (fun x y => x ^^^ y)
      (fun _ _ _ _ => BitVec.xor_append) fun _ _ _ _ => BitVec.setWidth_xor

end Operands

/-- A constant that holds its value as an `int`. -/
def intConst (sh : Shape) (v : Int) : Node := ⟨.valTag, sh, v, 0, none, 0⟩

/-- The installer as it starts, with or without `CHECK_EXTRA`. -/
def startSt (checkExtra : Bool) : FoldSt :=
  ⟨Pool.init fun _ => ⟨[], 0, 0⟩, checkExtra, ⟨[], 0, 0⟩, .stops⟩

theorem intShape32_isInt (sg : Bool) : (intShape 32 sg).IsInt :=
  ⟨.inr (.inr (.inl rfl)), by cases sg <;> decide⟩

theorem intConst_canon {p : Pool} (h : InRange true 32 v) :
    Canon p (intConst (intShape 32 true) v) v := by
  have hplain : PlainInt (intShape 32 true) v := by
    simpa [InRange, PlainInt, intShape] using h
  refine ⟨h, fun _ => ⟨by rw [isbigval_eq]; rfl, ?_⟩, fun hn => absurd hplain hn⟩
  have hback : (BitVec.ofInt 32 v).toInt = v := decode_ofInt (by decide) h
  exact hback.symm

/-- The theorem at 20 and 3, without `CHECK_EXTRA`. -/
theorem fold_exact_at :
    Folded (startSt false) (intConst (intShape 32 true) 20) 23
      (plusFn (startSt false) (intConst (intShape 32 true) 20) (intConst (intShape 32 true) 3)
        wrapErr) := by
  obtain ⟨hplus, -⟩ := @fold_exact (startSt false) (intConst (intShape 32 true) 20)
    (intConst (intShape 32 true) 3) 20 3 (Pool.init_ok _) (intShape32_isInt true) rfl
    (intConst_canon (by decide)) (intConst_canon (by decide)) wrapErr
  exact hplus

/-- With `CHECK_EXTRA` set, `mult_fn` does not fold 65536 times 65536. -/
theorem multFn_exits :
    Canon (startSt true).pool (intConst (intShape 32 true) 65536) 65536 ∧
    ¬ Folded (startSt true) (intConst (intShape 32 true) 65536) (wrap true 32 (65536 * 65536))
      (multFn (startSt true) (intConst (intShape 32 true) 65536)
        (intConst (intShape 32 true) 65536) wrapErr) := by
  have hc : Canon (startSt true).pool (intConst (intShape 32 true) 65536) 65536 :=
    intConst_canon (by decide)
  have h := @multFn_folded (startSt true) _ _ _ _ (Pool.init_ok _) (intShape32_isInt true) rfl hc
    hc wrapErr
  rw [if_pos ⟨rfl, by decide⟩] at h
  refine ⟨hc, ?_⟩
  rintro ⟨p', a', hr, -⟩
  rw [h] at hr
  exact absurd hr (by simp)

end Tendra.Ref
