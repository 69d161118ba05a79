import Tendra.Proofs.FoldExact
import Tendra.Proofs.IntExp

/-!
# Two tests as one

`tests_to_bounds` closes both bounds by moving the constants by one, and tests
the distance from the lower bound without a sign. The moves are guarded by the
tables `maxes` and `mins`. The entry of `mins` for the signed shape of 32 bits
is -1 where the least `int` was meant, so that a test `x < -2^31`, which never
holds, is closed to `x <= 2^31 - 1`. That is the only test it gets wrong.
-/

namespace Tendra.Ref

open Tendra.Word

variable {v : Int} {t : Ntest}

/-- The shapes that `tests_to_bounds` is applied to. -/
def Shape.Small (sh : Shape) : Prop :=
  ∃ s sg, (s = 8 ∨ s = 16 ∨ s = 32) ∧ sh = intShape s sg

/-- The greatest value of a shape. -/
def Shape.hi (sh : Shape) : Int := if sh.isSigned then 2 ^ (sh.size - 1) - 1 else 2 ^ sh.size - 1

/-- The least value of a shape. -/
def Shape.lo (sh : Shape) : Int := if sh.isSigned then -2 ^ (sh.size - 1) else 0

/-- The test that the entry of `mins` misses. -/
def MissedMin (sh : Shape) (t : Ntest) (v : Int) : Prop :=
  sh = intShape 32 true ∧ t = .lessThan ∧ v = -2 ^ 31

theorem Shape.has_iff {sh : Shape} : sh.Has v ↔ sh.lo ≤ v ∧ v ≤ sh.hi := by
  simp only [Shape.Has, InRange, Shape.lo, Shape.hi]
  split <;> omega

namespace Shape.Small

variable {sh : Shape} (h : sh.Small)

include h

theorem isInt : sh.IsInt := by
  obtain ⟨s, sg, hs | hs | hs, rfl⟩ := h <;> subst hs <;> cases sg <;> exact ⟨by decide, by decide⟩

theorem size_le : sh.size ≤ 32 := by
  obtain ⟨s, sg, hs | hs | hs, rfl⟩ := h <;> subst hs <;> cases sg <;> decide

theorem maxes_eq : maxes sh.hd = BitVec.ofInt 32 sh.hi := by
  obtain ⟨s, sg, hs | hs | hs, rfl⟩ := h <;> subst hs <;> cases sg <;> rfl

theorem mins_eq :
    mins sh.hd = BitVec.ofInt 32 (if sh = intShape 32 true then -1 else sh.lo) := by
  obtain ⟨s, sg, hs | hs | hs, rfl⟩ := h <;> subst hs <;> cases sg <;> rfl

theorem hi_sub_lo : sh.hi - sh.lo = 2 ^ sh.size - 1 := by
  obtain ⟨s, sg, hs | hs | hs, rfl⟩ := h <;> subst hs <;> cases sg <;> decide

theorem usShape_size : (usShape sh).size = sh.size := by
  obtain ⟨s, sg, hs | hs | hs, rfl⟩ := h <;> subst hs <;> cases sg <;> rfl

theorem usShape_isSigned : (usShape sh).isSigned = false := by
  obtain ⟨s, sg, hs | hs | hs, rfl⟩ := h <;> subst hs <;> cases sg <;> rfl

/-- The value that an `int` holds for the shape. -/
theorem decode_int (hv : sh.Has v) : decode sh.isSigned (BitVec.ofInt 32 v) = v :=
  decode_ofInt (by decide) (inRange_mono h.isInt.pos h.size_le hv)

theorem ofInt_inj {w : Int} (hv : sh.Has v) (hw : sh.Has w) :
    BitVec.ofInt 32 v = BitVec.ofInt 32 w ↔ v = w := by
  refine ⟨fun heq => ?_, fun heq => by rw [heq]⟩
  rw [← h.decode_int hv, heq, h.decode_int hw]

theorem hi_has : sh.Has sh.hi := by
  have := h.hi_sub_lo
  have : (0 : Int) < 2 ^ sh.size := by positivity
  exact Shape.has_iff.2 ⟨by omega, le_refl _⟩

/-- Moving a lower bound keeps its meaning. -/
theorem closeBelow_spec {t' : Ntest} {n : BitVec 32} (hv : sh.Has v)
    (hc : closeBelow sh.hd t (BitVec.ofInt 32 v) = some (t', n)) :
    ∃ v', sh.Has v' ∧ n = BitVec.ofInt 32 v' ∧ t' ≠ .greaterThan ∧
      (∀ x, t.holds x v = t'.holds x v') ∧ (t' = .lessThan ↔ t = .lessThan) ∧
      (t = .lessThan → v' = v) := by
  unfold closeBelow at hc
  split at hc
  · next ht =>
      subst ht
      split at hc
      · exact absurd hc (by simp)
      · next hmax =>
          rw [h.maxes_eq, h.ofInt_inj hv h.hi_has] at hmax
          cases hc
          have hr := Shape.has_iff.1 hv
          refine ⟨v + 1, Shape.has_iff.2 ⟨by omega, by omega⟩, ?_, by decide, fun x => ?_, by simp,
            by simp⟩
          · rw [BitVec.ofInt_add]
            rfl
          · simp only [Ntest.holds, decide_eq_decide]
            omega
  · next ht =>
      cases hc
      exact ⟨v, hv, rfl, ht, fun _ => rfl, Iff.rfl, fun _ => rfl⟩

/-- Moving an upper bound keeps its meaning, but for the least `int`. -/
theorem closeAbove_spec {n : BitVec 32} (hv : sh.Has v)
    (hc : closeAbove sh.hd t (BitVec.ofInt 32 v) = some n) :
    ∃ v', sh.Has v' ∧ n = BitVec.ofInt 32 v' ∧
      (¬ MissedMin sh t v → ∀ x, t.holds x v = decide (x ≤ v')) ∧
      (MissedMin sh t v → ∀ x, sh.Has x → t.holds x v = false) := by
  unfold closeAbove at hc
  split at hc
  · next ht =>
      subst ht
      split at hc
      · exact absurd hc (by simp)
      · next hmin =>
          rw [h.mins_eq] at hmin
          cases hc
          have hr := Shape.has_iff.1 hv
          by_cases hm : MissedMin sh .lessThan v
          · obtain ⟨hsh, -, rfl⟩ := hm
            refine ⟨2 ^ 31 - 1, by subst hsh; decide, by decide,
              fun hn => absurd ⟨hsh, rfl, rfl⟩ hn,
              fun _ x hx => ?_⟩
            have hlo := (Shape.has_iff.1 hx).1
            subst hsh
            have hl : (intShape 32 true).lo = -2 ^ 31 := by decide
            simp only [Ntest.holds, decide_eq_false_iff_not]
            omega
          · have hne : v ≠ sh.lo := by
              rintro rfl
              by_cases hsh : sh = intShape 32 true
              · refine hm ⟨hsh, rfl, ?_⟩
                subst hsh
                decide
              · rw [if_neg hsh] at hmin
                exact hmin rfl
            refine ⟨v - 1, Shape.has_iff.2 ⟨by omega, by omega⟩, ?_, fun _ x => ?_,
              fun h' => absurd h' hm⟩
            · rw [Int.sub_eq_add_neg, BitVec.ofInt_add, BitVec.sub_eq_add_neg]
              rfl
            · simp only [Ntest.holds, decide_eq_decide]
              omega
  · next ht =>
      split at hc
      · next ht' =>
          cases hc
          subst ht'
          exact ⟨v, hv, rfl, fun _ _ => rfl, fun hm => absurd hm.2.1 (by decide)⟩
      · exact absurd hc (by simp)

/-- The last part of `tests_to_bounds`, on a lower and an upper bound. -/
theorem closed_spec {va vb : Int} {na nb : BitVec 32} (hva : sh.Has va) (hvb : sh.Has vb) (hc : (do
      let nb ← closeAbove sh.hd t (BitVec.ofInt 32 vb)
      if sh.isSigned then
        if nb.slt (BitVec.ofInt 32 va) then none else some (BitVec.ofInt 32 va, nb)
      else
        if nb.ult (BitVec.ofInt 32 va) then none else some (BitVec.ofInt 32 va, nb)) =
      some (na, nb)) :
    ∃ b, sh.Has b ∧ va ≤ b ∧ na = BitVec.ofInt 32 va ∧ nb = BitVec.ofInt 32 b ∧
      (¬ MissedMin sh t vb → ∀ x, t.holds x vb = decide (x ≤ b)) ∧
      (MissedMin sh t vb → ∀ x, sh.Has x → t.holds x vb = false) := by
  obtain ⟨n, hn, hrest⟩ := Option.bind_eq_some_iff.1 hc
  obtain ⟨b, hb, rfl, hgood, hbad⟩ := h.closeAbove_spec hvb hn
  have hda := h.decode_int hva
  have hdb := h.decode_int hb
  refine ⟨b, hb, ?_, ?_, ?_, hgood, hbad⟩
  · cases hsg : sh.isSigned
    · rw [hsg, if_neg (by decide)] at hrest
      rw [hsg, decode_false] at hda hdb
      split at hrest
      · exact absurd hrest (by simp)
      · next hlt =>
          simp only [BitVec.ult, decide_eq_true_eq] at hlt
          omega
    · rw [hsg, if_pos rfl] at hrest
      rw [hsg, decode_true] at hda hdb
      split at hrest
      · exact absurd hrest (by simp)
      · next hlt =>
          simp only [BitVec.slt, decide_eq_true_eq] at hlt
          omega
  · repeat' split at hrest
    all_goals first
      | exact (Prod.mk.inj (Option.some.inj hrest)).1.symm
      | exact absurd hrest (by simp)
  · repeat' split at hrest
    all_goals first
      | exact (Prod.mk.inj (Option.some.inj hrest)).2.symm
      | exact absurd hrest (by simp)

/-- The bounds that are found say what the two tests say, but for the least
`int`. -/
theorem bounds_spec {nta ntb : Ntest} {va vb : Int} {na nb : BitVec 32} (hva : sh.Has va)
    (hvb : sh.Has vb)
    (hc : bounds sh nta (BitVec.ofInt 32 va) ntb (BitVec.ofInt 32 vb) = some (na, nb)) :
    ∃ a b, sh.Has a ∧ sh.Has b ∧ a ≤ b ∧ na = BitVec.ofInt 32 a ∧ nb = BitVec.ofInt 32 b ∧
      (¬ (MissedMin sh nta va ∨ MissedMin sh ntb vb) → ∀ x, sh.Has x →
        (nta.holds x va && ntb.holds x vb) = decide (a ≤ x ∧ x ≤ b)) ∧
      (MissedMin sh nta va ∨ MissedMin sh ntb vb → ∀ x, sh.Has x →
        (nta.holds x va && ntb.holds x vb) = false) := by
  obtain ⟨⟨t1, n1⟩, h1, hc⟩ := Option.bind_eq_some_iff.1 hc
  obtain ⟨⟨t2, n2⟩, h2, hc⟩ := Option.bind_eq_some_iff.1 hc
  obtain ⟨v1, hv1, rfl, -, hholds1, hlt1, hsame1⟩ := h.closeBelow_spec hva h1
  obtain ⟨v2, hv2, rfl, -, hholds2, hlt2, hsame2⟩ := h.closeBelow_spec hvb h2
  -- a bound that was moved from below is not a `less_than`
  have hmiss1 : MissedMin sh t1 v1 ↔ MissedMin sh nta va := by
    unfold MissedMin
    rw [hlt1]
    exact and_congr_right fun _ => and_congr_right fun ht => by rw [hsame1 ht]
  have hmiss2 : MissedMin sh t2 v2 ↔ MissedMin sh ntb vb := by
    unfold MissedMin
    rw [hlt2]
    exact and_congr_right fun _ => and_congr_right fun ht => by rw [hsame2 ht]
  have hge : ∀ v, ¬ MissedMin sh .greaterThanOrEqual v := fun v hm => absurd hm.2.1 (by decide)
  dsimp only at hc
  by_cases hswap : t2 = .greaterThanOrEqual
  · subst hswap
    rw [if_pos rfl] at hc
    dsimp only at hc
    rw [if_neg (by decide)] at hc
    obtain ⟨b, hb, hle, hna, hnb, hgood, hbad⟩ := h.closed_spec hv2 hv1 hc
    refine ⟨v2, b, hv2, hb, hle, hna, hnb, fun hn x hx => ?_, fun hm x hx => ?_⟩
    · rw [hholds1, hholds2, hgood (fun hm => hn (.inl (hmiss1.1 hm)))]
      simp only [Ntest.holds]
      rw [Bool.and_comm, ← Bool.decide_and]
    · rw [hholds1, hbad (hmiss1.2 (hm.resolve_right fun h' => hge _ (hmiss2.2 h'))) x hx]
      rfl
  · rw [if_neg hswap] at hc
    dsimp only at hc
    split at hc
    · exact absurd hc (by simp)
    · next ht1 =>
        have ht1 : t1 = .greaterThanOrEqual := not_not.1 ht1
        subst ht1
        obtain ⟨b, hb, hle, hna, hnb, hgood, hbad⟩ := h.closed_spec hv1 hv2 hc
        refine ⟨v1, b, hv1, hb, hle, hna, hnb, fun hn x hx => ?_, fun hm x hx => ?_⟩
        · rw [hholds1, hholds2, hgood (fun hm => hn (.inr (hmiss2.1 hm)))]
          simp only [Ntest.holds]
          rw [← Bool.decide_and]
        · rw [hholds2, hbad (hmiss2.2 (hm.resolve_left fun h' => hge _ (hmiss1.2 h'))) x hx]
          exact Bool.and_false _

/-- One unsigned comparison of the distance from the lower bound. -/
theorem distance_le_iff {a b : Int} (ha : sh.Has a) (hb : sh.Has b) (hv : sh.Has v) (hab : a ≤ b) :
    (usShape sh).wrap (v - a) ≤ (usShape sh).wrap (b - a) ↔ a ≤ v ∧ v ≤ b := by
  have hsize := h.hi_sub_lo
  rw [Shape.has_iff] at ha hb hv
  have hw : ∀ w, (usShape sh).wrap w = w % 2 ^ sh.size := by
    intro w
    rw [Shape.wrap, Word.wrap, h.usShape_isSigned, h.usShape_size, decode_false,
      BitVec.toNat_ofInt, Int.toNat_of_nonneg (Int.emod_nonneg _ (by positivity))]
    push_cast
    rfl
  rw [hw, hw]
  generalize hP : (2 : Int) ^ sh.size = P at *
  rw [Int.emod_eq_of_lt (a := b - a) (by omega) (by omega)]
  by_cases hva : a ≤ v
  · rw [Int.emod_eq_of_lt (a := v - a) (by omega) (by omega)]
    omega
  · rw [← Int.add_emod_right, Int.emod_eq_of_lt (a := v - a + P) (by omega) (by omega)]
    omega

end Shape.Small

/-- A test of `x` with a constant of the value `v`, of the shape of `x`. -/
structure IntTest (p : Pool) (e x : Exp) (t : Ntest) (v : Int) : Prop where
  test : Ntest.ofCode (testNumber e.node) = some t
  args : ∃ n, e.args = [x, .mk n []] ∧ n.tag = .valTag ∧ n.sh = x.sh ∧ Canon p n v

theorem IntTest.holds_eq {p : Pool} {e x : Exp} {w : Int} (h : IntTest p e x t w) (hsh : x.sh.Small)
    (hx : x.tag ≠ .valTag) : testHolds p (atValue x v) e = t.holds v w := by
  obtain ⟨n, hargs, htag, hn, hc⟩ := h.args
  simp only [testHolds, h.test, hargs]
  rw [intVal_part, intVal_const hx htag (hn ▸ hsh.isInt) hc]

/-- The `int` in a constant of at most 32 bits. -/
theorem Canon.small_no {p : Pool} {n : Node} (h : Canon p n v) (hs : n.sh.Small) :
    n.sh.Has v ∧ BitVec.ofInt 32 n.no = BitVec.ofInt 32 v := by
  have hplain : PlainInt n.sh v := by
    have hr := inRange_mono hs.isInt.pos hs.size_le h.range
    unfold PlainInt
    split
    · next hsg =>
        rw [hsg] at hr
        simpa [InRange] using hr
    · exact .inr hs.size_le
  exact ⟨h.range, by rw [(h.plain hplain).2, BitVec.ofInt_toInt]⟩

theorem testHolds_makeTest (p : Pool) (part : Exp → Option Int) (nt : Ntest) (lab : Option Nat)
    (e1 e2 : Exp) (nm : Tag) :
    testHolds p part (makeTest nt lab e1 e2 nm) =
      nt.holds (intVal p part e1) (intVal p part e2) := by
  have hcode : Ntest.ofCode (nt.code &&& 0x1f) = some nt := by cases nt <;> decide
  rw [testHolds, show testNumber (makeTest nt lab e1 e2 nm).node = nt.code &&& 0x1f from rfl, hcode]
  rfl

section Replacement

variable {p : Pool} {x : Exp} {a b : Int} (hsh : x.sh.Small) (hx : x.tag ≠ .valTag)
variable (ha : x.sh.Has a) (hb : x.sh.Has b) (hv : x.sh.Has v)

include hsh hx ha

theorem equal_holds (lab : Option Nat) :
    testHolds p (atValue x v)
      (makeTest .equal lab x (meShint x.sh (BitVec.ofInt 32 a)) .testTag) = decide (v = a) := by
  rw [testHolds_makeTest, intVal_part, intVal_meShint hx, hsh.decode_int ha, ha.wrap_eq hsh.isInt]
  rfl

include hb hv in
theorem within_holds (hab : a ≤ b) (lab : Option Nat) :
    testHolds p (atValue x v)
      (makeTest .lessThanOrEqual lab
        (meB3 (usShape x.sh) x (meShint x.sh (BitVec.ofInt 32 a)) .minusTag)
        (meShint (usShape x.sh) (BitVec.ofInt 32 b - BitVec.ofInt 32 a)) .testTag) =
      decide (a ≤ v ∧ v ≤ b) := by
  have hdist : intVal p (atValue x v)
      (meB3 (usShape x.sh) x (meShint x.sh (BitVec.ofInt 32 a)) .minusTag) =
      (usShape x.sh).wrap (v - a) := by
    rw [meB3, intVal_op (Exp.ne_of_mem (List.mem_cons_self ..)), intVals_cons, intVals_cons,
      intVals_nil, intVal_part, intVal_meShint hx, hsh.decode_int ha, ha.wrap_eq hsh.isInt]
    rfl
  have hlen : intVal p (atValue x v)
      (meShint (usShape x.sh) (BitVec.ofInt 32 b - BitVec.ofInt 32 a)) =
      (usShape x.sh).wrap (b - a) := by
    have hle : (usShape x.sh).size ≤ 32 := by rw [hsh.usShape_size]; exact hsh.size_le
    rw [intVal_meShint hx, Shape.wrap, Shape.wrap, Word.wrap, Word.wrap, ← setWidth_ofInt hle,
      ofInt_decode, Int.sub_eq_add_neg, ← setWidth_ofInt hle, BitVec.ofInt_add, BitVec.ofInt_neg,
      BitVec.sub_eq_add_neg]
  rw [testHolds_makeTest, hdist, hlen]
  simp only [Ntest.holds, hsh.distance_le_iff ha hb hv hab]

end Replacement

/-- A test of `x` with a constant that is held as an `int`. -/
def constTest (t : Ntest) (x : Exp) (v : Int) : Exp :=
  makeTest t (some 1) x (.mk (intConst x.sh v) []) .testTag

/-- No declarations. -/
def noDecs (_ : Nat) : Dec := ⟨false, false, false⟩

theorem constTest_intTest {p : Pool} {x : Exp} (hsh : x.sh = intShape 32 true)
    (hv : InRange true 32 v) : IntTest p (constTest t x v) x t v := by
  refine ⟨?_, _, rfl, rfl, rfl, ?_⟩
  · change Ntest.ofCode (t.code &&& 0x1f) = some t
    cases t <;> decide
  · rw [hsh]
    exact intConst_canon hv

end Tendra.Ref
