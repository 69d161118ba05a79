import Tendra.Proofs.F64Exact
import Tendra.Proofs.Pool
import Tendra.Ref.Fold

/-!
# Constants and the integers they stand for

A constant of an integer shape holds its value as an `int` where it fits and as
an index into the pool where it does not. `bigres` is the only way a folding
function writes a constant, and it writes the value of the low bits of what it
is given; so a folding function is correct when the pattern it hands to
`bigres` has the right low bits.
-/

namespace Tendra.Ref

open Tendra.Word

variable {p : Pool} {v : Int} {sh : Shape}

/-- The integer shapes. -/
structure Shape.IsInt (sh : Shape) : Prop where
  size : sh.size = 8 ∨ sh.size = 16 ∨ sh.size = 32 ∨ sh.size = 64
  hd : sh.hd ≠ .bitfhd

/-- The values that are held as a plain `int`: those an `int` can hold, and for
an unsigned shape of at most 32 bits all of them. -/
def PlainInt (sh : Shape) (v : Int) : Prop :=
  if sh.isSigned then -2 ^ 31 ≤ v ∧ v < 2 ^ 31 else v < 2 ^ 31 ∨ sh.size ≤ 32

instance (sh : Shape) (v : Int) : Decidable (PlainInt sh v) := by
  unfold PlainInt
  infer_instance

/-- The constant `e` is the canonical representation of `v`. -/
structure Canon (p : Pool) (e : Node) (v : Int) : Prop where
  range : InRange e.sh.isSigned e.sh.size v
  plain : PlainInt e.sh v → isbigval e = false ∧ e.no = (BitVec.ofInt 32 v).toInt
  big : ¬ PlainInt e.sh v →
    isbigval e = true ∧ ∃ i : Nat, e.no = i ∧ p.Live i ∧ (p.nos i).Is v

/-- A canonical constant stays one while its entry in the pool is kept. -/
theorem Canon.keeps {p' : Pool} {e : Node} (h : Canon p e v) (hk : p.Keeps p') : Canon p' e v := by
  refine ⟨h.range, h.plain, fun hv => ?_⟩
  obtain ⟨hb, i, hi, hlive, his⟩ := h.big hv
  exact ⟨hb, i, hi, hk.live i hlive, by rw [hk.nos i hlive]; exact his⟩

theorem Shape.IsInt.pos (h : sh.IsInt) : 0 < sh.size := by
  have := h.size
  omega

theorem Shape.IsInt.le (h : sh.IsInt) : sh.size ≤ 64 := by
  have := h.size
  omega

theorem Canon.range64 {e : Node} (h : Canon p e v) (hs : e.sh.IsInt) :
    InRange e.sh.isSigned 64 v := inRange_mono hs.pos hs.le h.range

theorem intToF64_bits (i : BitVec 32) (sg : Bool) :
    (intToF64 i sg).bits = BitVec.ofInt 64 (decode sg i) := by
  apply BitVec.eq_of_toNat_eq
  have hi := i.isLt
  rw [F64.toNat_bits, BitVec.toNat_ofInt]
  cases sg
  · rw [decode_false]
    simp only [intToF64, Bool.false_and, Bool.false_eq_true, if_false]
    rw [show (0 : BitVec 32).toNat = 0 from rfl]
    omega
  · rw [decode_true, BitVec.toInt_eq_msb_cond]
    simp only [intToF64, Bool.true_and]
    split
    · rw [show (-1 : BitVec 32).toNat = 2 ^ 32 - 1 from rfl]
      omega
    · rw [show (0 : BitVec 32).toNat = 0 from rfl]
      omega

/-- What `exp_to_f64` reads from a canonical constant. -/
theorem expToF64_canon {e : Node} (h : Canon p e v) (hs : e.sh.IsInt) :
    ∃ x, expToF64 p e = .ok x ∧ x.bits = BitVec.ofInt 64 v := by
  by_cases hp : PlainInt e.sh v
  · obtain ⟨hb, hno⟩ := h.plain hp
    refine ⟨_, by rw [expToF64, hb]; rfl, ?_⟩
    rw [intToF64_bits, hno, BitVec.ofInt_toInt]
    congr 1
    refine decode_ofInt (by decide) ?_
    have hr := h.range
    have hs' := hs.size
    unfold PlainInt at hp
    unfold InRange at hr ⊢
    cases hsg : e.sh.isSigned
    · rw [hsg] at hp hr
      simp only [Bool.false_eq_true, if_false] at hp hr ⊢
      refine ⟨hr.1, ?_⟩
      rcases hs' with h | h | h | h <;> rw [h] at hr hp <;> omega
    · rw [hsg] at hp
      simpa using hp
  · obtain ⟨hb, i, hno, -, his⟩ := h.big hp
    obtain ⟨x, ov, hx, hbits, -⟩ := fltToF64_is his e.sh.isSigned
    refine ⟨x, ?_, hbits⟩
    rw [expToF64, hb, hno, Int.toNat_natCast, hx]
    rfl

/-! ## Changing the variety -/

theorem lsbMask_getLsbD {n i : Nat} (hi : i < 32) : (lsbMask n).getLsbD i = decide (i < n) := by
  rw [lsbMask, BitVec.getLsbD_ofNat, Nat.testBit_two_pow_sub_one]
  simp [hi]

/-- The cases of `dochvar`: the low `n` bits, with or without sign. -/
theorem chvarTo_eq {n : Nat} (hn : 0 < n) (hn' : n ≤ 32) (sg : Bool) (i : BitVec 32) :
    chvarTo (lsbMask n) (BitVec.twoPow 32 (n - 1)) sg i =
      BitVec.ofInt 32 (decode sg (i.setWidth n)) := by
  have htop : (i &&& lsbMask n &&& BitVec.twoPow 32 (n - 1) ≠ 0) ↔ i.getLsbD (n - 1) = true := by
    rw [BitVec.and_twoPow, BitVec.getLsbD_and, lsbMask_getLsbD (by omega)]
    have hlt : n - 1 < n := by omega
    simp only [hlt, decide_true, Bool.and_true]
    split
    · next h =>
        simp only [h, iff_true]
        intro h0
        have := congrArg BitVec.toNat h0
        rw [BitVec.toNat_twoPow_of_lt (by omega)] at this
        exact absurd this (Nat.two_pow_pos _).ne'
    · next h => simp [h]
  have hmsb : (i.setWidth n).msb = i.getLsbD (n - 1) := by
    rw [BitVec.msb_eq_getLsbD_last, BitVec.getLsbD_setWidth]
    simp [hn]
  have hzero : BitVec.ofNat 32 (i.setWidth n).toNat = i &&& lsbMask n := by
    apply BitVec.eq_of_getLsbD_eq
    intro k hk
    rw [BitVec.ofNat_toNat, BitVec.getLsbD_setWidth, BitVec.getLsbD_setWidth,
      BitVec.getLsbD_and, lsbMask_getLsbD hk, Bool.and_comm (i.getLsbD k)]
    simp [hk]
  cases sg
  · simp only [chvarTo, Bool.false_eq_true, false_and, if_false, decode_false,
      BitVec.ofInt_natCast]
    exact hzero.symm
  · simp only [chvarTo, true_and, decode_true, htop]
    apply BitVec.eq_of_getLsbD_eq
    intro k hk
    have hsx : BitVec.ofInt 32 (i.setWidth n).toInt = (i.setWidth n).signExtend 32 := rfl
    rw [hsx, BitVec.getLsbD_signExtend, BitVec.getLsbD_setWidth, hmsb]
    by_cases hneg : i.getLsbD (n - 1) = true
    · rw [if_pos hneg, BitVec.getLsbD_or, BitVec.getLsbD_not, lsbMask_getLsbD hk]
      by_cases hkn : k < n <;> simp [hk, hkn, hneg]
    · rw [if_neg hneg, BitVec.getLsbD_and, lsbMask_getLsbD hk]
      by_cases hkn : k < n <;> simp [hk, hkn, hneg]

theorem dochvar_eq {t : Shape} (h : t.IsInt) (h64 : t.size ≠ 64) (i : BitVec 32) :
    dochvar i t = BitVec.ofInt 32 (decode t.isSigned (i.setWidth t.size)) := by
  rw [dochvar, if_neg h.hd]
  rcases h.size with h | h | h | h
  · rw [h]
    exact chvarTo_eq (n := 8) (by decide) (by decide) _ _
  · rw [h]
    exact chvarTo_eq (n := 16) (by decide) (by decide) _ _
  · rw [h]
    exact chvarTo_eq (n := 32) (by decide) (by decide) _ _
  · exact absurd h h64

/-- `dochvar_f` delivers the value of the low bits. -/
theorem dochvarF_bits {t : Shape} (h : t.IsInt) (x : F64) :
    (dochvarF x t).bits = BitVec.ofInt 64 (decode t.isSigned (x.bits.setWidth t.size)) := by
  rw [dochvarF]
  split
  · next h64 => rw [h64, BitVec.setWidth_eq, ofInt_decode]
  · next h64 =>
      have hs : t.size ≤ 32 := by
        have := h.size
        omega
      have hlow : x.bits.setWidth t.size = x.small.setWidth t.size := by
        apply BitVec.eq_of_toNat_eq
        rw [BitVec.toNat_setWidth, BitVec.toNat_setWidth, F64.toNat_bits]
        obtain ⟨c, hc⟩ : 2 ^ t.size ∣ x.big.toNat * 2 ^ 32 :=
          Dvd.dvd.mul_left (Nat.pow_dvd_pow 2 hs) _
        rw [hc, Nat.add_comm, Nat.add_mul_mod_self_left]
      rw [intToF64_bits, dochvar_eq h h64, decode_ofInt_decode h.pos hs, hlow]

/-! ## Writing a constant -/

theorem sshiftRight_31 (x : BitVec 32) : x.sshiftRight 31 = if x.msb then -1 else 0 := by
  apply BitVec.eq_of_toInt_eq
  have hlt := BitVec.toInt_lt (x := x)
  have hle := BitVec.le_toInt x
  rw [BitVec.toInt_sshiftRight, Int.shiftRight_eq_div_pow, BitVec.msb_eq_toInt]
  split
  · next h =>
      rw [decide_eq_true_iff] at h
      rw [show (-1 : BitVec 32).toInt = -1 from rfl]
      omega
  · next h =>
      rw [decide_eq_true_iff] at h
      rw [show (0 : BitVec 32).toInt = 0 from rfl]
      omega

theorem and_80000000_eq_zero (x : BitVec 32) : x &&& 0x80000000 = 0 ↔ x.toNat < 2 ^ 31 := by
  have h : x &&& 0x80000000 = x &&& BitVec.twoPow 32 31 := rfl
  have hmsb : x.getLsbD 31 = x.msb := (BitVec.msb_eq_getLsbD_last x).symm
  rw [h, BitVec.and_twoPow, hmsb, BitVec.msb_eq_decide]
  have hne : BitVec.twoPow 32 31 ≠ 0 := by decide
  by_cases hx : 2 ^ 31 ≤ x.toNat
  · simp only [Nat.reduceSub, hx, decide_true, if_true, hne, false_iff]
    omega
  · simp only [Nat.reduceSub, hx, decide_false, Bool.false_eq_true, if_false]
    exact ⟨fun _ => by omega, fun _ => rfl⟩

/-- The comparison of the two words that `f64_to_flpt` and `check_size` make for
a signed shape. -/
theorem small_sign_eq_big_iff {a : F64} (hr : InRange true 64 v) (ha : a.bits = BitVec.ofInt 64 v) :
    a.small.sshiftRight 31 = a.big ↔ -2 ^ 31 ≤ v ∧ v < 2 ^ 31 := by
  have hnat := a.toNat_bits
  have hb := a.big.isLt
  have hsm := a.small.isLt
  rw [ha, BitVec.toNat_ofInt] at hnat
  simp only [InRange, if_true] at hr
  rw [sshiftRight_31, BitVec.msb_eq_decide]
  have hbig : ∀ c : BitVec 32, c = a.big ↔ a.big.toNat = c.toNat :=
    fun c => ⟨fun h => by rw [h], fun h => BitVec.eq_of_toNat_eq h.symm⟩
  rw [hbig]
  by_cases hx : 2 ^ (32 - 1) ≤ a.small.toNat
  · simp only [hx, decide_true, if_true]
    rw [show (-1 : BitVec 32).toNat = 2 ^ 32 - 1 from rfl]
    omega
  · simp only [hx, decide_false, Bool.false_eq_true, if_false]
    rw [show (0 : BitVec 32).toNat = 0 from rfl]
    omega

/-- `f64_to_flpt` keeps a value as an `int` where the canonical form says so. -/
theorem fitsInt_iff (hs : sh.IsInt) {a : F64} (hr : InRange sh.isSigned sh.size v)
    (ha : a.bits = BitVec.ofInt 64 v) : fitsInt a sh.isSigned sh.size = true ↔ PlainInt sh v := by
  have hr64 := inRange_mono hs.pos hs.le hr
  simp only [fitsInt, PlainInt]
  cases hsg : sh.isSigned
  · have hnat := a.toNat_bits
    have hb := a.big.isLt
    have hsm := a.small.isLt
    rw [ha, BitVec.toNat_ofInt] at hnat
    rw [hsg] at hr64 hr
    simp only [InRange, Bool.false_eq_true, if_false] at hr64 hr ⊢
    simp only [Bool.and_eq_true, Bool.or_eq_true, decide_eq_true_eq, and_80000000_eq_zero]
    have hbig : a.big = 0 ↔ a.big.toNat = 0 :=
      ⟨fun h => by rw [h]; rfl, fun h => BitVec.eq_of_toNat_eq h⟩
    rw [hbig]
    rcases hs.size with h | h | h | h <;> rw [h] at hr ⊢ <;> omega
  · rw [hsg] at hr64
    simp only [if_true, decide_eq_true_eq]
    exact small_sign_eq_big_iff hr64 ha

theorem isbigval_eq (n : Node) : isbigval n = decide (n.props % 2 = 1) := by
  unfold isbigval ptst
  rw [decide_eq_decide, Nat.and_one_is_mod]
  omega

theorem isbigval_pset {n : Node} {props : Nat} (h : n.props = pset props 0x01) :
    isbigval n = true := by
  rw [isbigval_eq, h]
  exact decide_eq_true (Nat.or_mod_two_eq_one.2 (.inr rfl))

theorem isbigval_clear {n : Node} {props : Nat} (h : n.props = clearbigval props) :
    isbigval n = false := by
  rw [isbigval_eq, h]
  exact decide_eq_false (by simp only [clearbigval]; omega)

theorem f64ToFlt_took (h : p.Ok) (a : F64) (sg : Bool) :
    p.Took (f64ToFlt p a sg).2 (f64ToFlt p a sg).1 := (Pool.new_took h).set _

theorem f64ToFlt_is (p : Pool) (a : F64) (sg : Bool) :
    ((f64ToFlt p a sg).2.nos (f64ToFlt p a sg).1).Is (decode sg a.bits) := by
  rw [show (f64ToFlt p a sg).2.nos (f64ToFlt p a sg).1 = f64Flt a sg (p.new.2.nos p.new.1) from
    Pool.set_nos_self ..]
  exact f64Flt_is a sg _

/-- The pool after a folding function, and the constant it wrote. -/
structure Wrote (p : Pool) (a : Node) (v : Int) (p' : Pool) (a' : Node) : Prop where
  ok : p'.Ok
  keeps : p.Keeps p'
  sh : a'.sh = a.sh
  tag : a'.tag = a.tag
  canon : Canon p' a' v

/-- `bigres` writes the value of the low bits. -/
theorem bigres_wrote (hok : p.Ok) {a : Node} (hs : a.sh.IsInt) (x : F64) :
    Wrote p a (decode a.sh.isSigned (x.bits.setWidth a.sh.size)) (bigres p a x).1
      (bigres p a x).2 := by
  generalize hv : decode a.sh.isSigned (x.bits.setWidth a.sh.size) = v
  have hbits : (dochvarF x a.sh).bits = BitVec.ofInt 64 v := by rw [dochvarF_bits hs, hv]
  have hr : InRange a.sh.isSigned a.sh.size v := hv ▸ decode_inRange hs.pos _
  have hfit := fitsInt_iff hs hr hbits
  have hdec : decode a.sh.isSigned (dochvarF x a.sh).bits = v := by
    rw [hbits]
    exact decode_ofInt (by decide) (inRange_mono hs.pos hs.le hr)
  by_cases hp : PlainInt a.sh v
  · have hres : bigres p a x = (p, { a with
        no := (dochvarF x a.sh).small.toInt, props := clearbigval a.props }) := by
      simp only [bigres, f64ToFlpt, hfit.2 hp, if_true]
      rfl
    rw [hres]
    refine ⟨hok, Pool.Keeps.refl p, rfl, rfl, hr, fun _ => ⟨isbigval_clear rfl, ?_⟩, fun h =>
      absurd hp h⟩
    have hsmall : (dochvarF x a.sh).small = BitVec.ofInt 32 v := by
      rw [← setWidth_ofInt (show 32 ≤ 64 by decide), ← hbits, F64.bits,
        BitVec.setWidth_append_eq_right]
    rw [← hsmall]
  · have hres : bigres p a x =
        ((f64ToFlt p (dochvarF x a.sh) a.sh.isSigned).2, { a with
          no := (f64ToFlt p (dochvarF x a.sh) a.sh.isSigned).1, props := pset a.props 0x01 }) := by
      simp only [bigres, f64ToFlpt, Bool.eq_false_iff.2 (mt hfit.1 hp)]
      rfl
    have htook := f64ToFlt_took hok (dochvarF x a.sh) a.sh.isSigned
    rw [hres]
    refine ⟨htook.ok, htook.keeps, rfl, rfl, hr, fun h => absurd h hp, fun _ =>
      ⟨isbigval_pset rfl, _, rfl, htook.live, ?_⟩⟩
    have := f64ToFlt_is p (dochvarF x a.sh) a.sh.isSigned
    rwa [hdec] at this

end Tendra.Ref
