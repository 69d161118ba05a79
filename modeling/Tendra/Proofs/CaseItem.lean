import Tendra.Lib.Span
import Tendra.Proofs.FoldExact
import Tendra.Proofs.IntExp
import Tendra.Ref.CaseItem

/-!
# What the branches of a case map

The list at `global_case` is a sorted list of spans. A branch is put where `docmp_f` finds its
place, and what `case_item` joins are neighbours of one label that touch, as long as the numbers
it compares are the values. The number of a constant that is held in the pool is its index, and
only the new branch is asked for `isbigval`; so the new branch is joined with a neighbour whose
index happens to be one off, whatever lies between them. In a run that does not meet this case,
the list maps each value as the branches do, and an overlap is reported if and only if there is
one.
-/

namespace Tendra.Ref

open Tendra.Word

variable {done : List Branch} {v : Int}

/-! ## Comparison -/

/-- A bound of an entry stands for `v` in the shape of the control. A bound that `case_item` has
made has the shape of an `int`. -/
structure Bound (p : Pool) (sh : Shape) (n : Node) (v : Int) : Prop where
  canon : Canon p { n with sh := sh } v
  shape : n.sh = sh ∨ isbigval n = false ∧ n.sh.isSigned = true

variable {p : Pool} {sh : Shape} {a b : Node} {va vb : Int}

theorem Canon.bound (h : Canon p a va) : Bound p a.sh a va := ⟨h, .inl rfl⟩

theorem Bound.plain (h : Bound p sh a va) (hb : isbigval a = false) :
    PlainInt sh va ∧ a.no = (BitVec.ofInt 32 va).toInt := by
  have hb' : isbigval { a with sh := sh } = false := hb
  have hp : PlainInt sh va := by
    by_contra hn
    rw [(h.canon.big hn).1] at hb'
    exact Bool.noConfusion hb'
  exact ⟨hp, (h.canon.plain hp).2⟩

theorem plainInt_small (hr : InRange sh.isSigned sh.size v) (hpos : 0 < sh.size)
    (h : sh.size ≤ 32) :
    PlainInt sh v := by
  have hm := inRange_mono hpos h hr
  unfold InRange at hm
  unfold PlainInt
  split at hm <;> simp_all

/-- A pattern with the bit of the sign is cut to its low bits: where the sign is set, bit `n - 1` is
set whether the mask takes it or not. -/
theorem signCut_eq {n : Nat} (hn : 0 < n) (hn' : n ≤ 32) (c : BitVec 32) :
    (if c &&& BitVec.twoPow 32 (n - 1) ≠ 0 then c ||| ~~~lsbMask (n - 1) else c &&& lsbMask n) =
      BitVec.ofInt 32 (c.setWidth n).toInt := by
  have htop : c &&& lsbMask n &&& BitVec.twoPow 32 (n - 1) = c &&& BitVec.twoPow 32 (n - 1) := by
    rw [BitVec.and_twoPow, BitVec.and_twoPow, BitVec.getLsbD_and, lsbMask_getLsbD (by omega)]
    simp [hn]
  rw [← decode_true, ← chvarTo_eq hn hn' true c, chvarTo, htop]
  simp only [true_and]
  split
  · next h =>
      have hbit : c.getLsbD (n - 1) = true := by
        by_contra hb
        rw [BitVec.and_twoPow, if_neg hb] at h
        exact h rfl
      apply BitVec.eq_of_getLsbD_eq
      intro k hk
      rw [BitVec.getLsbD_or, BitVec.getLsbD_or, BitVec.getLsbD_not, BitVec.getLsbD_not,
        lsbMask_getLsbD hk, lsbMask_getLsbD hk]
      by_cases hkn : k = n - 1
      · simp [hkn, hbit]
      · have hiff : k < n - 1 ↔ k < n := by omega
        simp [hiff]
  · rfl

/-- A pattern is cut to its low bits. -/
theorem zeroCut_eq {n : Nat} (hn : 0 < n) (hn' : n ≤ 32) (c : BitVec 32) :
    c &&& lsbMask n = BitVec.ofInt 32 (c.setWidth n).toNat := by
  have h := chvarTo_eq hn hn' false c
  rwa [chvarTo, if_neg (by simp), decode_false] at h

/-- The number of a constant, cut to the shape. -/
theorem docmpArg_eq (hs : sh.IsInt) (h : sh.size ≤ 32) (hr : InRange sh.isSigned sh.size v) :
    docmpArg sh (BitVec.ofInt 32 v) = v := by
  have hcut : decode sh.isSigned ((BitVec.ofInt 32 v).setWidth sh.size) = v := by
    rw [setWidth_ofInt h, decode_ofInt hs.pos hr]
  have hback : decode sh.isSigned (BitVec.ofInt 32 v) = v :=
    decode_ofInt (by omega) (inRange_mono hs.pos h hr)
  rw [docmpArg]
  cases hsg : sh.isSigned <;> rw [hsg] at hcut hback
  · rw [decode_false] at hcut hback
    rcases hs.size with h8 | h16 | h32 | h64
    · rw [h8] at hcut ⊢
      have hz := zeroCut_eq (n := 8) (by omega) (by omega) (BitVec.ofInt 32 v)
      rw [hcut] at hz
      exact (congrArg (fun x : BitVec 32 => (x.toNat : Int)) hz).trans hback
    · rw [h16] at hcut ⊢
      have hz := zeroCut_eq (n := 16) (by omega) (by omega) (BitVec.ofInt 32 v)
      rw [hcut] at hz
      exact (congrArg (fun x : BitVec 32 => (x.toNat : Int)) hz).trans hback
    · rw [h32]
      exact hback
    · omega
  · rw [decode_true] at hcut hback
    rcases hs.size with h8 | h16 | h32 | h64
    · rw [h8] at hcut ⊢
      have hz := signCut_eq (n := 8) (by omega) (by omega) (BitVec.ofInt 32 v)
      rw [hcut] at hz
      exact (congrArg BitVec.toInt hz).trans hback
    · rw [h16] at hcut ⊢
      have hz := signCut_eq (n := 16) (by omega) (by omega) (BitVec.ofInt 32 v)
      rw [hcut] at hz
      exact (congrArg BitVec.toInt hz).trans hback
    · rw [h32]
      exact hback
    · omega

/-- The two words of an `flt64` are compared as one. -/
theorem f64Less_iff (sg : Bool) (x y : F64) :
    f64Less sg x y = true ↔ decode sg x.bits < decode sg y.bits := by
  have hx := x.small.isLt
  have hy := y.small.isLt
  cases sg
  · rw [decode_false, decode_false, F64.toNat_bits, F64.toNat_bits]
    simp only [f64Less, Bool.false_eq_true, if_false, BitVec.ult, decide_eq_true_eq]
    split
    · simp only [true_iff]
      omega
    · split
      · simp only [Bool.false_eq_true, false_iff]
        omega
      · rw [decide_eq_true_eq]
        omega
  · have hw : ∀ z : F64, z.bits.toInt = 2 ^ 32 * z.big.toInt + z.small.toNat :=
      fun z => BitVec.toInt_append
    rw [decode_true, decode_true, hw, hw]
    simp only [f64Less, if_true, BitVec.slt, BitVec.ult, decide_eq_true_eq]
    split
    · simp only [true_iff]
      omega
    · split
      · simp only [Bool.false_eq_true, false_iff]
        omega
      · rw [decide_eq_true_eq]
        omega

theorem f64_eq_iff (x y : F64) : x.big = y.big ∧ x.small = y.small ↔ x.bits = y.bits := by
  constructor
  · intro h
    rw [F64.bits, F64.bits, h.1, h.2]
  · intro h
    have hn := congrArg BitVec.toNat h
    rw [F64.toNat_bits, F64.toNat_bits] at hn
    have hx := x.small.isLt
    have hy := y.small.isLt
    exact ⟨BitVec.eq_of_toNat_eq (by omega), BitVec.eq_of_toNat_eq (by omega)⟩

/-- What `exp_to_f64` reads from a bound of 64 bits. -/
theorem Bound.expToF64 (h : Bound p sh a va) (hs : sh.IsInt) (h64 : sh.size = 64) :
    ∃ x, expToF64 p a = .ok x ∧ x.bits = BitVec.ofInt 64 va := by
  rcases h.shape with rfl | ⟨hb, hsg⟩
  · exact expToF64_canon h.canon hs
  · obtain ⟨hp, hno⟩ := h.plain hb
    refine ⟨_, by rw [Ref.expToF64, hb]; rfl, ?_⟩
    rw [intToF64_bits, hsg, hno, BitVec.ofInt_toInt]
    congr 1
    refine decode_ofInt (by decide) ?_
    have hr : InRange sh.isSigned sh.size va := h.canon.range
    unfold PlainInt at hp
    unfold InRange at hr ⊢
    rw [h64] at hr hp
    split at hp
    · simpa using hp
    · next hsg' =>
        rw [if_neg hsg'] at hr
        simp only [if_true]
        omega

/-- `docmp_f` compares the values. -/
theorem docmpF_eq (hs : sh.IsInt) (ha : Canon p a va) (hsh : a.sh = sh) (hb : Bound p sh b vb)
    (t : Ntest) : docmpF p t a b = .ok (t.holds va vb) := by
  subst hsh
  rw [docmpF]
  split
  · next h =>
      have hra := ha.range
      have hrb : InRange a.sh.isSigned a.sh.size vb := hb.canon.range
      have hna := (ha.plain (plainInt_small hra hs.pos h)).2
      have hnb : b.no = _ := (hb.canon.plain (plainInt_small hrb hs.pos h)).2
      rw [hna, hnb, BitVec.ofInt_toInt, BitVec.ofInt_toInt, docmp, docmpArg_eq hs h hra,
        docmpArg_eq hs h hrb]
  · next h =>
      have h64 : a.sh.size = 64 := by
        have := hs.size
        omega
      obtain ⟨x, hx, hxb⟩ := ha.bound.expToF64 hs h64
      obtain ⟨y, hy, hyb⟩ := hb.expToF64 hs h64
      have hda : decode a.sh.isSigned x.bits = va := by
        rw [hxb, decode_ofInt (by decide) (ha.range64 hs)]
      have hdb : decode a.sh.isSigned y.bits = vb := by
        rw [hyb, decode_ofInt (by decide) (hb.canon.range64 hs)]
      have heq : (x.big = y.big ∧ x.small = y.small) ↔ va = vb := by
        rw [f64_eq_iff, ← hda, ← hdb, decode_inj]
      have hless := f64Less_iff a.sh.isSigned x y
      rw [hda, hdb] at hless
      have hl : f64Less a.sh.isSigned x y = decide (va < vb) := by
        rw [Bool.eq_iff_iff, hless, decide_eq_true_eq]
      simp only [hx, hy, heq, hl, bind, Except.bind, pure, Except.pure]
      congr 1
      cases t <;> simp only [Ntest.holds] <;> grind

/-! ## Branches as spans -/

/-- The values that a branch of the list stands for, in the shape of the control. -/
def Branch.span (p : Pool) (sh : Shape) (b : Branch) : Span Nat :=
  ⟨constVal p { b.low with sh := sh }, constVal p { b.highest with sh := sh }, b.pt⟩

/-- The bounds of a branch of the list stand for its values. -/
structure Branch.Sound (p : Pool) (sh : Shape) (b : Branch) : Prop where
  low : Bound p sh b.low (b.span p sh).lo
  high : Bound p sh b.highest (b.span p sh).hi

/-- A branch as `f_case_transform` gives it to `case_item`: canonical constants of the shape of the
control. -/
structure Branch.Canonical (p : Pool) (sh : Shape) (b : Branch) : Prop where
  low_sh : b.low.sh = sh
  high_sh : b.highest.sh = sh
  low : Canon p b.low (constVal p b.low)
  high : Canon p b.highest (constVal p b.highest)

theorem Branch.Canonical.lo_eq {b : Branch} (h : b.Canonical p sh) :
    (b.span p sh).lo = constVal p b.low := by
  rw [span, ← h.low_sh]

theorem Branch.Canonical.hi_eq {b : Branch} (h : b.Canonical p sh) :
    (b.span p sh).hi = constVal p b.highest := by
  rw [span, ← h.high_sh]

theorem Branch.Canonical.canon_lo {b : Branch} (h : b.Canonical p sh) :
    Canon p b.low (b.span p sh).lo := h.lo_eq ▸ h.low

theorem Branch.Canonical.canon_hi {b : Branch} (h : b.Canonical p sh) :
    Canon p b.highest (b.span p sh).hi := h.hi_eq ▸ h.high

theorem Branch.Canonical.sound {b : Branch} (h : b.Canonical p sh) : b.Sound p sh where
  low := by
    have := h.canon_lo.bound
    rwa [h.low_sh] at this
  high := by
    have := h.canon_hi.bound
    rwa [h.high_sh] at this

/-- A bound determines its value. -/
theorem Bound.constVal_eq (hs : sh.IsInt) (h : Bound p sh a va) :
    constVal p { a with sh := sh } = va := h.canon.constVal_eq hs

/-- The number of a plain bound is put in the place of another plain one. -/
theorem Bound.setNo (ha : Bound p sh a va) (hpa : isbigval a = false) (hb : Bound p sh b vb)
    (hpb : isbigval b = false) : Bound p sh { a with no := b.no } vb where
  canon := by
    obtain ⟨hp, hno⟩ := hb.plain hpb
    exact ⟨hb.canon.range, fun _ => ⟨hpa, hno⟩, fun h => absurd hp h⟩
  shape := ha.shape

/-- The bound that `case_item` makes. -/
theorem Bound.made (hb : Bound p sh b vb) (hpb : isbigval b = false) :
    Bound p sh ⟨.holderTag, intShape 32 true, b.no, 0, none, 0⟩ vb where
  canon := by
    obtain ⟨hp, hno⟩ := hb.plain hpb
    exact ⟨hb.canon.range, fun _ => ⟨by simp [isbigval_eq], hno⟩, fun h => absurd hp h⟩
  shape := .inr ⟨by simp [isbigval_eq], rfl⟩

/-- Two plain bounds whose numbers are consecutive ints are consecutive, if they are in order. -/
theorem Bound.succ (hs : sh.IsInt) (ha : Bound p sh a va) (hpa : isbigval a = false)
    (hb : Bound p sh b vb) (hpb : isbigval b = false) (hlt : va < vb)
    (h : BitVec.ofInt 32 a.no + 1 = BitVec.ofInt 32 b.no) : va + 1 = vb := by
  obtain ⟨hp, hno⟩ := ha.plain hpa
  obtain ⟨hp', hno'⟩ := hb.plain hpb
  have hra : InRange sh.isSigned sh.size va := ha.canon.range
  have hrb : InRange sh.isSigned sh.size vb := hb.canon.range
  rw [hno, hno', BitVec.ofInt_toInt, BitVec.ofInt_toInt] at h
  have hnear : vb - va ≤ 2 ^ 32 := by
    unfold PlainInt at hp hp'
    unfold InRange at hra hrb
    split at hp
    · next hsg =>
        rw [if_pos hsg] at hp'
        omega
    · next hsg =>
        rw [if_neg hsg] at hp' hra hrb
        rcases hs.size with h | h | h | h <;> rw [h] at hp' hra hrb <;> omega
  have hmod : BitVec.ofInt 32 (va + 1) = BitVec.ofInt 32 vb := by
    rw [BitVec.ofInt_add]
    exact h
  have hm := congrArg BitVec.toNat hmod
  rw [BitVec.toNat_ofInt, BitVec.toNat_ofInt] at hm
  omega

variable {i n t : Branch}

theorem Branch.sound_of (hs : sh.IsInt) (hl : Bound p sh t.low va) (hh : Bound p sh t.highest vb) :
    t.Sound p sh ∧ t.span p sh = ⟨va, vb, t.pt⟩ := by
  have hspan : t.span p sh = ⟨va, vb, t.pt⟩ := by
    rw [span, hl.constVal_eq hs, hh.constVal_eq hs]
  exact ⟨⟨by rwa [hspan], by rwa [hspan]⟩, hspan⟩

theorem Branch.extend_spec (hs : sh.IsInt) (ht : t.Sound p sh) (hpt : isbigval t.highest = false)
    (hb : Bound p sh b vb) (hpb : isbigval b = false) :
    (t.extend b.no).Sound p sh ∧
      (t.extend b.no).span p sh = ⟨(t.span p sh).lo, vb, t.pt⟩ := by
  have hh := ht.high
  rw [extend]
  cases hc : t.high with
  | none => exact sound_of hs ht.low (hb.made hpb)
  | some c =>
      rw [highest, hc] at hpt hh
      exact sound_of hs ht.low (hh.setNo hpt hb hpb)

theorem Branch.extendOver_spec (hs : sh.IsInt) (ht : t.Sound p sh)
    (hpt : isbigval t.highest = false) (hn : n.Sound p sh) (hpn : isbigval n.low = false) :
    (t.extendOver n).Sound p sh ∧
      (t.extendOver n).span p sh = ⟨(t.span p sh).lo, (n.span p sh).hi, t.pt⟩ := by
  have hh := hn.high
  rw [extendOver]
  cases hc : n.high with
  | none =>
      have hlow : n.highest = n.low := by rw [highest, hc, Option.getD_none]
      exact extend_spec hs ht hpt hh (by rwa [hlow])
  | some c =>
      have hhigh : n.highest = c := by rw [highest, hc, Option.getD_some]
      rw [hhigh] at hh
      exact sound_of hs ht.low hh

theorem Branch.takeOver_spec (hs : sh.IsInt) (hi : i.Sound p sh) (hpl : isbigval i.low = false)
    (hph : isbigval i.highest = false) (hn : n.Sound p sh) (hpn : isbigval n.low = false)
    (hpt : i.pt = n.pt) :
    (i.takeOver n).Sound p sh ∧
      (i.takeOver n).span p sh = ⟨(i.span p sh).lo, (n.span p sh).hi, i.pt⟩ := by
  have hh := hn.high
  have hih := hi.high
  rw [takeOver]
  cases hc : n.high with
  | some c =>
      have hhigh : n.highest = c := by rw [highest, hc, Option.getD_some]
      rw [hhigh] at hh
      rw [hpt]
      exact sound_of hs (hn.low.setNo hpn hi.low hpl) hh
  | none =>
      have hlow : n.highest = n.low := by rw [highest, hc, Option.getD_none]
      cases hd : i.high with
      | none => exact sound_of hs hi.low (by rwa [hlow] at hh)
      | some c =>
          rw [highest, hd] at hih hph
          exact sound_of hs hi.low (hih.setNo hph hh (by rwa [hlow]))

theorem Branch.touches_of_follows (hs : sh.IsInt) (hi : i.Sound p sh) (hpi : isbigval i.low = false)
    (ht : t.Sound p sh) (hpt : isbigval t.highest = false) (h : i.follows t = true) :
    ((t.span p sh).hi < (i.span p sh).lo → (t.span p sh).hi + 1 = (i.span p sh).lo) ∧
      t.pt = i.pt := by
  obtain ⟨hno, hlab⟩ := of_decide_eq_true h
  refine ⟨fun hlt => ht.high.succ hs hpt hi.low hpi hlt ?_, hlab.symm⟩
  rw [← hno, BitVec.sub_add_cancel]

theorem Branch.touches_of_precedes (hs : sh.IsInt) (hi : i.Sound p sh)
    (hpi : isbigval i.highest = false) (hn : n.Sound p sh) (hpn : isbigval n.low = false)
    (h : i.precedes n = true) :
    ((i.span p sh).hi < (n.span p sh).lo → (i.span p sh).hi + 1 = (n.span p sh).lo) ∧
      i.pt = n.pt := by
  obtain ⟨hno, hlab⟩ := of_decide_eq_true h
  exact ⟨fun hlt => hi.high.succ hs hpi hn.low hpn hlt hno, hlab⟩

/-! ## One branch -/

/-- The branches are sound, and their spans map what those of `l` map. -/
def Joined (p : Pool) (sh : Shape) (l l' : List Branch) : Prop :=
  (∀ e ∈ l', e.Sound p sh) ∧ Span.SameMap (l.map (Branch.span p sh)) (l'.map (Branch.span p sh))

theorem sound_insert {xs ys : List Branch} (h : ∀ e ∈ xs ++ ys, e.Sound p sh) (hi : i.Sound p sh) :
    ∀ e ∈ xs ++ i :: ys, e.Sound p sh := by
  intro e he
  rcases List.mem_append.mp he with he | he
  · exact h e (by simp [he])
  · rcases List.mem_cons.mp he with rfl | he
    · exact hi
    · exact h e (by simp [he])

section

variable (hs : sh.IsInt) (hi : i.Sound p sh) (hpl : isbigval i.low = false)
  (hph : isbigval i.highest = false) {xs ys : List Branch} (hxy : ∀ e ∈ xs ++ ys, e.Sound p sh)

include hs hi hpl hph hxy

theorem joined_left (ht : t.Sound p sh) (hpt : isbigval t.highest = false)
    (h : i.follows t = true) :
    Joined p sh (xs ++ t :: i :: ys) (xs ++ t.extend i.highest.no :: ys) := by
  obtain ⟨htouch, hlab⟩ := Branch.touches_of_follows hs hi hpl ht hpt h
  obtain ⟨hsound, hspan⟩ := Branch.extend_spec hs ht hpt hi.high hph
  refine ⟨sound_insert hxy hsound, ?_⟩
  rw [List.map_append, List.map_append, List.map_cons, List.map_cons, List.map_cons, hspan]
  exact Span.sameMap_join htouch hlab

theorem joined_right (hn : n.Sound p sh) (hpn : isbigval n.low = false)
    (h : i.precedes n = true) :
    Joined p sh (xs ++ i :: n :: ys) (xs ++ i.takeOver n :: ys) := by
  obtain ⟨htouch, hlab⟩ := Branch.touches_of_precedes hs hi hph hn hpn h
  obtain ⟨hsound, hspan⟩ := Branch.takeOver_spec hs hi hpl hph hn hpn hlab
  refine ⟨sound_insert hxy hsound, ?_⟩
  rw [List.map_append, List.map_append, List.map_cons, List.map_cons, List.map_cons, hspan]
  exact Span.sameMap_join htouch hlab

theorem joined_both (ht : t.Sound p sh) (hpt : isbigval t.highest = false) (hn : n.Sound p sh)
    (hpn : isbigval n.low = false) (h : i.follows t = true) (h' : i.precedes n = true) :
    Joined p sh (xs ++ t :: i :: n :: ys) (xs ++ t.extendOver n :: ys) := by
  obtain ⟨htouch, hlab⟩ := Branch.touches_of_follows hs hi hpl ht hpt h
  obtain ⟨htouch', hlab'⟩ := Branch.touches_of_precedes hs hi hph hn hpn h'
  obtain ⟨hsound, hspan⟩ := Branch.extendOver_spec hs ht hpt hn hpn
  refine ⟨sound_insert hxy hsound, ?_⟩
  rw [List.map_append, List.map_append, List.map_cons, List.map_cons, List.map_cons,
    List.map_cons, hspan]
  have hleft : Span.SameMap
      (xs.map (Branch.span p sh) ++ t.span p sh :: i.span p sh :: n.span p sh ::
        ys.map (Branch.span p sh))
      (xs.map (Branch.span p sh) ++ (t.span p sh).join (i.span p sh) :: n.span p sh ::
        ys.map (Branch.span p sh)) := Span.sameMap_join htouch hlab
  refine hleft.trans ?_
  exact Span.sameMap_join (a := (t.span p sh).join (i.span p sh)) htouch' (hlab.trans hlab')

end

/-- No neighbour of the place of `i` that goes to its label is held in the pool under an index that
is one off the number of `i`. -/
def Clear (p : Pool) (st : CaseSt) (i : Branch) : Prop :=
  isbigval i.low = false → isbigval i.highest = false →
    ∀ rev after, casePlace p i [] st.entries = .ok (rev, after) →
      (∀ t ∈ rev.head?, i.follows t = true → isbigval t.highest = false) ∧
        ∀ n ∈ after.head?, i.precedes n = true → isbigval n.low = false

theorem caseMerge_joined (hs : sh.IsInt) (hi : i.Sound p sh) (hpl : isbigval i.low = false)
    (hph : isbigval i.highest = false) {rev after : List Branch}
    (hsound : ∀ e ∈ rev.reverse ++ after, e.Sound p sh)
    (hrev : ∀ t ∈ rev.head?, i.follows t = true → isbigval t.highest = false)
    (hafter : ∀ n ∈ after.head?, i.precedes n = true → isbigval n.low = false) :
    Joined p sh (rev.reverse ++ i :: after) (caseMerge i rev after) := by
  have hsame : Joined p sh (rev.reverse ++ i :: after) (rev.reverse ++ i :: after) :=
    ⟨sound_insert hsound hi, .refl _⟩
  have happ : ∀ (t : Branch) (rev l : List Branch),
      (t :: rev).reverse ++ l = rev.reverse ++ t :: l := by simp
  cases rev with
  | nil =>
      cases after with
      | nil => exact hsame
      | cons n after =>
          rw [caseMerge]
          split
          · next h =>
              have hn : n.Sound p sh := hsound n (by simp)
              exact @joined_right _ _ _ _ hs hi hpl hph [] _ (fun e he => hsound e (by simp_all)) hn
                (hafter n rfl h) h
          · exact hsame
  | cons t rev =>
      have ht : t.Sound p sh := hsound t (by simp)
      cases after with
      | nil =>
          rw [caseMerge]
          split
          · next h =>
              rw [happ]
              exact joined_left hs hi hpl hph (fun e he => hsound e (by simp_all)) ht
                (hrev t rfl h) h
          · exact hsame
      | cons n after =>
          have hn : n.Sound p sh := hsound n (by simp)
          have hrest : ∀ e ∈ rev.reverse ++ n :: after, e.Sound p sh :=
            fun e he => hsound e (by rw [happ]; simp_all; tauto)
          rw [caseMerge]
          split
          · next h =>
              rw [happ]
              split
              · next h' =>
                  exact joined_both hs hi hpl hph
                    (fun e he => hrest e (by simp_all; tauto)) ht (hrev t rfl h) hn
                    (hafter n rfl h') h h'
              · exact joined_left hs hi hpl hph hrest ht (hrev t rfl h) h
          · split
            · next h' =>
                exact joined_right hs hi hpl hph
                  (fun e he => hsound e (by simp_all; tauto)) hn (hafter n rfl h') h'
            · exact hsame

/-- The branches that are passed lie below the new one, and the next one does not. -/
theorem casePlace_spec (hs : sh.IsInt) (hi : i.Canonical p sh) :
    ∀ (l rev : List Branch), (∀ e ∈ l, e.Sound p sh) →
      (∀ e ∈ rev, (e.span p sh).hi < (i.span p sh).lo) →
      ∃ rev' after, casePlace p i rev l = .ok (rev', after) ∧
        rev.reverse ++ l = rev'.reverse ++ after ∧
        (∀ e ∈ rev', (e.span p sh).hi < (i.span p sh).lo) ∧
        ∀ n ∈ after.head?, (i.span p sh).lo ≤ (n.span p sh).hi := by
  intro l
  induction l with
  | nil => exact fun rev _ hrev => ⟨rev, [], rfl, rfl, hrev, by simp⟩
  | cons j js ih =>
      intro rev hl hrev
      have hj := hl j (by simp)
      have hcmp := docmpF_eq hs hi.canon_lo hi.low_sh hj.high .greaterThan
      by_cases hlt : (j.span p sh).hi < (i.span p sh).lo
      · obtain ⟨rev', after, hplace, heq, hbelow, habove⟩ :=
          ih (j :: rev) (fun e he => hl e (by simp [he])) (by simpa [hlt] using hrev)
        refine ⟨rev', after, ?_, by rw [← heq]; simp, hbelow, habove⟩
        rw [casePlace, hcmp]
        simp only [Ntest.holds, gt_iff_lt, hlt, decide_true, bind, Except.bind, if_true]
        exact hplace
      · refine ⟨rev, j :: js, ?_, rfl, hrev, ?_⟩
        · rw [casePlace, hcmp]
          simp only [Ntest.holds, gt_iff_lt, hlt, decide_false, bind, Except.bind,
            Bool.false_eq_true, if_false]
          rfl
        · intro n hn
          rw [List.head?_cons, Option.mem_some_iff] at hn
          subst hn
          omega

/-- What `case_item` does with a branch that is not empty. -/
theorem caseItem_spec (hs : sh.IsInt) {st : CaseSt} (hst : ∀ e ∈ st.entries, e.Sound p sh)
    (hi : i.Canonical p sh) (hle : (i.span p sh).lo ≤ (i.span p sh).hi) (hclear : Clear p st i) :
    ∃ st', caseItem p st i = .ok st' ∧ (∀ e ∈ st'.entries, e.Sound p sh) ∧
      (Span.Sorted (st.entries.map (Branch.span p sh)) →
        (st'.reported = false ↔ st.reported = false ∧
          ∀ r ∈ st.entries.map (Branch.span p sh), (i.span p sh).Apart r) ∧
        (st'.reported = false → Span.Sorted (st'.entries.map (Branch.span p sh)) ∧
          ∀ v c, Span.Maps (st'.entries.map (Branch.span p sh)) v c ↔
            Span.Maps (st.entries.map (Branch.span p sh)) v c ∨
              (i.span p sh).Covers v ∧ i.pt = c)) ∧
      (st.reported = true → st'.reported = true) := by
  obtain ⟨rev, after, hplace, heq, hbelow, habove⟩ :=
    casePlace_spec hs hi st.entries [] hst (by simp)
  rw [List.reverse_nil, List.nil_append] at heq
  have hsound : ∀ e ∈ rev.reverse ++ after, e.Sound p sh := by rwa [heq] at hst
  -- The place has been chosen so that the branch before it lies below the new one.
  have hlow : ∀ t ∈ rev.head?, docmpF p .lessThanOrEqual i.low t.highest = .ok false := by
    intro t ht
    have htm : t ∈ rev := List.mem_of_mem_head? ht
    have hlt := hbelow t htm
    rw [docmpF_eq hs hi.canon_lo hi.low_sh (hsound t (by simp [htm])).high, Ntest.holds,
      decide_eq_false (by omega)]
  obtain ⟨above, hnone, hhigh, hiff⟩ : ∃ above, (after = [] → above = false) ∧
      (∀ n ∈ after.head?, docmpF p .greaterThanOrEqual i.highest n.low = .ok above) ∧
      (above = false ↔ ∀ n ∈ after.head?, (i.span p sh).hi < (n.span p sh).lo) := by
    cases after with
    | nil => exact ⟨false, by simp⟩
    | cons n after =>
        have hcmp := docmpF_eq hs hi.canon_hi hi.high_sh (hsound n (by simp)).low
          .greaterThanOrEqual
        exact ⟨_, by simp, by simpa using hcmp, by simp [Ntest.holds]⟩
  -- What is put at the place.
  obtain ⟨entries, hentries, hjoined⟩ : ∃ entries,
      (if isbigval i.low ∨ isbigval i.highest then rev.reverse ++ i :: after
        else caseMerge i rev after) = entries ∧
      Joined p sh (rev.reverse ++ i :: after) entries := by
    refine ⟨_, rfl, ?_⟩
    split
    · exact ⟨sound_insert hsound hi.sound, .refl _⟩
    · next hbig =>
        simp only [not_or, Bool.not_eq_true] at hbig
        obtain ⟨hleft, hright⟩ := hclear hbig.1 hbig.2 rev after hplace
        exact caseMerge_joined hs hi.sound hbig.1 hbig.2 hsound hleft hright
  refine ⟨⟨entries, st.reported || false || above⟩, ?_, hjoined.1, ?_, ?_⟩
  · rw [caseItem, hplace]
    cases rev <;> cases after <;>
      simp_all [bind, Except.bind, pure, Except.pure]
  · intro hsorted
    rw [heq, List.map_append] at hsorted ⊢
    have hbelow' : ∀ x ∈ rev.reverse.map (Branch.span p sh), x.hi < (i.span p sh).lo := by
      simpa using hbelow
    have hhead : ∀ q : Span Nat → Prop, (∀ y ∈ (after.map (Branch.span p sh)).head?, q y) ↔
        ∀ n ∈ after.head?, q (n.span p sh) := by
      intro q
      cases after <;> simp
    have hapart := Span.apart_iff hsorted hle hbelow' ((hhead _).mpr habove)
    rw [hhead, ← hiff] at hapart
    have hrep : (st.reported || false || above) = false ↔ st.reported = false ∧ above = false := by
      simp
    refine ⟨by rw [hrep, hapart], fun h => ?_⟩
    have hnext := hiff.mp (hrep.mp h).2
    have hins : Span.Sorted ((rev.reverse ++ i :: after).map (Branch.span p sh)) := by
      rw [List.map_append, List.map_cons]
      refine hsorted.insert hle hbelow' ?_
      cases after with
      | nil => simp
      | cons n after => exact hsorted.right.above (hnext n rfl)
    obtain ⟨hs', hm⟩ := hjoined.2 hins
    refine ⟨hs', fun v c => ?_⟩
    rw [hm, List.map_append, List.map_cons]
    exact Span.maps_insert
  · intro h
    simp [h]

/-! ## All branches -/

/-- The state of the list after the branches `done`. -/
structure Collected (p : Pool) (sh : Shape) (done : List Branch) (st : CaseSt) : Prop where
  sound : ∀ e ∈ st.entries, e.Sound p sh
  reported : st.reported = false ↔ (done.map (Branch.span p sh)).Pairwise Span.Apart
  sorted : st.reported = false → Span.Sorted (st.entries.map (Branch.span p sh))
  maps : st.reported = false → ∀ v c, Span.Maps (st.entries.map (Branch.span p sh)) v c ↔
    Span.Maps (done.map (Branch.span p sh)) v c

theorem emptyBranch_eq (hs : sh.IsInt) (hi : i.Canonical p sh) :
    emptyBranch p i = .ok (decide ((i.span p sh).hi < (i.span p sh).lo)) := by
  rw [emptyBranch]
  cases hc : i.high with
  | none =>
      have hsame : (i.span p sh).hi = (i.span p sh).lo := by
        rw [Branch.span, Branch.highest, hc, Option.getD_none]
      simp [hsame]
  | some c =>
      have hhigh : i.highest = c := by rw [Branch.highest, hc, Option.getD_some]
      have h := docmpF_eq hs hi.canon_hi hi.high_sh hi.sound.low .lessThan
      rw [hhigh] at h
      exact h

theorem collectBranches_append (bs bs' : List Branch) (st : CaseSt) :
    collectBranches p (bs ++ bs') st =
      (collectBranches p bs st).bind fun st' => collectBranches p bs' st' := by
  induction bs generalizing st with
  | nil => rfl
  | cons b bs ih =>
      rw [List.cons_append, collectBranches, collectBranches]
      cases he : emptyBranch p b with
      | error s => rfl
      | ok e =>
          cases e with
          | true => exact ih st
          | false =>
              cases hc : caseItem p st b with
              | error s => rfl
              | ok st' => exact ih st'

theorem pairwise_snoc :
    ((done ++ [i]).map (Branch.span p sh)).Pairwise Span.Apart ↔
      (done.map (Branch.span p sh)).Pairwise Span.Apart ∧
        ∀ r ∈ done.map (Branch.span p sh), (i.span p sh).Apart r := by
  rw [List.map_append, List.pairwise_append]
  simp only [List.map_cons, List.map_nil, List.pairwise_singleton, true_and, List.mem_singleton,
    forall_eq]
  exact and_congr_right fun _ => forall₂_congr fun _ _ => ⟨Span.Apart.symm, Span.Apart.symm⟩

theorem maps_snoc {c : Nat} :
    Span.Maps ((done ++ [i]).map (Branch.span p sh)) v c ↔
      Span.Maps (done.map (Branch.span p sh)) v c ∨ (i.span p sh).Covers v ∧ i.pt = c := by
  rw [List.map_append, Span.maps_append, List.map_cons, List.map_nil, Span.maps_cons,
    or_iff_left Span.not_maps_nil]
  rfl

/-- One more branch. -/
theorem Collected.step (hs : sh.IsInt) {st : CaseSt} (h : Collected p sh done st)
    (hi : i.Canonical p sh) (hclear : emptyBranch p i = .ok false → Clear p st i) :
    ∃ st', collectBranches p [i] st = .ok st' ∧ Collected p sh (done ++ [i]) st' := by
  have hempty := emptyBranch_eq hs hi
  by_cases hlt : (i.span p sh).hi < (i.span p sh).lo
  · rw [decide_eq_true hlt] at hempty
    refine ⟨st, by rw [collectBranches, hempty]; rfl, h.sound, ?_, h.sorted, ?_⟩
    · rw [pairwise_snoc, h.reported]
      exact (and_iff_left fun r _ => (Span.apart_of_empty hlt).symm).symm
    · intro hr v c
      rw [maps_snoc, h.maps hr]
      refine (or_iff_left fun hc => ?_).symm
      have h1 := hc.1.1
      have h2 := hc.1.2
      omega
  · rw [decide_eq_false hlt] at hempty
    obtain ⟨st', hrun, hsound, hspec, hkeep⟩ :=
      caseItem_spec hs h.sound hi (by omega) (hclear hempty)
    have hcollect : collectBranches p [i] st = .ok st' := by
      rw [collectBranches, hempty]
      simp only [bind, Except.bind, hrun]
      rfl
    have hback : st'.reported = false → st.reported = false := by
      intro hr
      by_contra hn
      rw [hkeep (by simpa using hn)] at hr
      exact Bool.noConfusion hr
    refine ⟨st', hcollect, hsound, ?_, ?_, ?_⟩
    · rw [pairwise_snoc, ← h.reported]
      constructor
      · intro hr
        have hr0 := hback hr
        have hall := ((hspec (h.sorted hr0)).1.mp hr).2
        refine ⟨hr0, ?_⟩
        rw [Span.forall_apart_iff] at hall ⊢
        intro v c hv
        rw [← h.maps hr0]
        exact hall v c hv
      · intro ⟨hr0, hall⟩
        refine (hspec (h.sorted hr0)).1.mpr ⟨hr0, ?_⟩
        rw [Span.forall_apart_iff] at hall ⊢
        intro v c hv
        rw [h.maps hr0]
        exact hall v c hv
    · intro hr
      exact ((hspec (h.sorted (hback hr))).2 hr).1
    · intro hr v c
      rw [((hspec (h.sorted (hback hr))).2 hr).2, h.maps (hback hr), maps_snoc]

/-- -2^40 as the first constant that goes into the pool, and the pool. -/
def farConst : Pool × Node :=
  bigres (Pool.init fun _ => ⟨[], 0, 0⟩) (intConst (intShape 64 true) 0) ⟨BitVec.ofInt 32 (-256), 0⟩

/-- The branches of -2^40 and `v`, to one label. -/
def farBranches (v : Int) : List Branch :=
  [⟨farConst.2, none, 0⟩, ⟨intConst (intShape 64 true) v, none, 0⟩]

theorem intShape64_isInt : (intShape 64 true).IsInt := ⟨by decide, by decide⟩

theorem farConst_canon : Canon farConst.1 farConst.2 (-2 ^ 40) :=
  (bigres_wrote (Pool.init_ok _) intShape64_isInt _).canon

theorem intConst64_canon (h : InRange true 32 v) : Canon p (intConst (intShape 64 true) v) v := by
  have hplain : PlainInt (intShape 64 true) v := by
    simpa [InRange, PlainInt, intShape] using h
  refine ⟨inRange_mono (by omega) (show 32 ≤ 64 by omega) h,
    fun _ => ⟨by rw [isbigval_eq]; rfl, ?_⟩, fun hn => absurd hplain hn⟩
  have hback : (BitVec.ofInt 32 v).toInt = v := decode_ofInt (by decide) h
  exact hback.symm

theorem farBranches_canonical (h : InRange true 32 v) :
    ∀ b ∈ farBranches v, b.Canonical farConst.1 (intShape 64 true) := by
  have hfar : Canon farConst.1 farConst.2 (constVal farConst.1 farConst.2) := by
    rw [farConst_canon.constVal_eq intShape64_isInt]
    exact farConst_canon
  have hv : Canon farConst.1 (intConst (intShape 64 true) v)
      (constVal farConst.1 (intConst (intShape 64 true) v)) := by
    rw [(intConst64_canon h).constVal_eq intShape64_isInt]
    exact intConst64_canon h
  intro b hb
  simp only [farBranches, List.mem_cons, List.not_mem_nil, or_false] at hb
  rcases hb with rfl | rfl
  · exact ⟨rfl, rfl, hfar, hfar⟩
  · exact ⟨rfl, rfl, hv, hv⟩

end Tendra.Ref
