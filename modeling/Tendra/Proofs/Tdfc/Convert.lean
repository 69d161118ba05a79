import Tendra.Proofs.Tdfc.Range

/-!
# Conversion of constants to unsigned types

A constant that does not fit in an unsigned type of known size is reduced by masks. A
negative multiple of 2^sz comes out as 2^sz, which the second check does not let through;
the literal is then left to be calculated, or there is none.
-/

namespace Tendra.Ref.Tdfc

open NatConst Tendra.Size

section

variable {T : Type} {w maxBits : Nat} {findTypeSize : T → TypeSize} {t : T} {n : NatConst}

theorem NatConst.Means.denotes {z : Int} (h : n.Means z) (hz : 0 ≤ z) : n.Denotes z.toNat := by
  obtain ⟨hn, rfl⟩ := h
  cases n with
  | small v => exact ⟨hn, rfl⟩
  | large p => exact ⟨hn, rfl⟩
  | neg n =>
      have hne : n.abs ≠ 0 := fun h0 => hn.2 (hn.1.abs_eq_zero.1 h0)
      rw [NatConst.toInt] at hz
      omega

/-- What the masks and the difference come to. -/
def reduced (sz : Nat) (z : Int) : Int := if 0 ≤ z then z % 2 ^ sz else 2 ^ sz - -z % 2 ^ sz

theorem and_max (hw : 32 ≤ w) {sz : Nat} {hi : NatConst} (hhi : hi.Means (2 ^ sz - 1))
    (hn : n.Magnitude) :
    ∃ res, binaryNatOp w .and hi n = some res ∧ res.Means (n.toInt % 2 ^ sz) := by
  have hpos : (0 : Int) < 2 ^ sz := by positivity
  obtain ⟨hmag, habs⟩ := hhi.denotes (by omega)
  obtain ⟨res, hres, hmeans⟩ := and_magnitude hw hmag hn
  have hmax : (2 ^ sz - 1 : Int).toNat = 2 ^ sz - 1 := by
    rw [← Nat.cast_ofNat, ← Nat.cast_pow]
    omega
  rw [habs, hmax, Nat.and_comm, Nat.and_two_pow_sub_one_eq_mod] at hmeans
  refine ⟨res, hres, ?_⟩
  rw [hn.toInt_eq]
  exact_mod_cast hmeans

theorem reduceNat_spec (hw : 32 ≤ w) {sz : Nat} {hi : NatConst} (hhi : hi.Means (2 ^ sz - 1))
    (hn : n.Canonical) :
    ∃ res, reduceNat w (some hi) n = some res ∧ res.Means (reduced sz n.toInt) := by
  have hplain : ∀ {m : NatConst}, m.Magnitude → 0 ≤ m.toInt := fun h => by
    rw [h.toInt_eq]
    omega
  cases n with
  | small v =>
      rw [reduced, if_pos (hplain (m := .small v) hn)]
      exact and_max hw hhi hn
  | large p =>
      rw [reduced, if_pos (hplain (m := .large p) hn)]
      exact and_max hw hhi hn
  | neg a =>
      have hne : a.abs ≠ 0 := fun h0 => hn.2 (hn.1.abs_eq_zero.1 h0)
      have hz : NatConst.toInt (.neg a) = -a.abs := rfl
      obtain ⟨r, hr, hrmeans⟩ := and_max hw hhi hn.1
      obtain ⟨m, hm⟩ := Option.ne_none_iff_exists'.1
        (binaryNatOp_ne_none (w := w) (.inl rfl : NatOp.plus = .plus ∨ _) hi (.small 1))
      have hmmeans := binaryNatOp_spec hw hhi.1 (by decide) hm (fun h => by cases h.1)
      obtain ⟨res, hres⟩ := Option.ne_none_iff_exists'.1
        (binaryNatOp_ne_none (w := w) (.inr (.inl rfl) : NatOp.minus = .plus ∨ _) m r)
      have hmeans := binaryNatOp_spec hw hmmeans.1 hrmeans.1 hres (fun h => by cases h.1)
      rw [NatOp.exact, hmmeans.2, hrmeans.2, NatOp.exact, hhi.2, hn.1.toInt_eq] at hmeans
      refine ⟨res, ?_, ?_⟩
      · rw [reduceNat, negateNat, hr, show makeSmallNat 1 = .small 1 from rfl, hm]
        exact hres
      · rw [reduced, if_neg (by omega), hz, Int.neg_neg]
        have hone : NatConst.toInt (.small 1) = 1 := rfl
        rw [hone, Int.sub_add_cancel] at hmeans
        exact hmeans

/-- A multiple of 2^sz that is negative becomes 2^sz instead of zero. -/
theorem reduced_eq (sz : Nat) (z : Int) :
    reduced sz z = if z < 0 ∧ (2 ^ sz : Int) ∣ z then 2 ^ sz else z % 2 ^ sz := by
  have hpos : (0 : Int) < 2 ^ sz := by positivity
  rw [reduced]
  split
  · rw [if_neg (by omega)]
  · rename_i hneg
    split
    · rename_i h
      rw [Int.emod_eq_zero_of_dvd ((Int.dvd_neg).2 h.2), Int.sub_zero]
    · rename_i h
      have hdvd : ¬(2 ^ sz : Int) ∣ z := fun hd => h ⟨by omega, hd⟩
      rw [Int.neg_emod, if_neg hdvd, Int.natAbs_of_nonneg (by omega), Int.sub_sub_self]

/-- The values that are converted to an unsigned type of known size: those in its range if they
exceed no type, and the others if the greatest value is known, the result exceeds no type and
the value is no negative multiple of 2^sz, nor let through because its bits are counted with
a wrap. -/
def ReducesExactly (maxBits : Nat) (size : TypeSize) (z : Int) : Prop :=
  if 0 ≤ z ∧ z < 2 ^ size.sz then Nat.size z.natAbs ≤ maxBits
  else size.sz ≤ 4096 ∧ ¬(z < 0 ∧ (2 ^ size.sz : Int) ∣ z) ∧
    Nat.size (z % 2 ^ size.sz).natAbs ≤ maxBits ∧
    ¬(0 ≤ z ∧ 2 ^ 32 ≤ Nat.size z.natAbs ∧ countBits z ≤ maxBits ∧ countBits z ≤ size.sz)

variable (maxBits) in
/-- The second check passes unless the result is 2^sz. -/
theorem fit_reduced (hs : (findTypeSize t).sign = btypeUnsigned)
    (hknown : (findTypeSize t).sz ≤ 4096) {z : Int}
    (hn : n.Means (reduced (findTypeSize t).sz z)) :
    checkSimpleRange maxBits findTypeSize t n = 0 ↔
      ¬(z < 0 ∧ (2 ^ (findTypeSize t).sz : Int) ∣ z) ∧
      Nat.size (z % 2 ^ (findTypeSize t).sz).natAbs ≤ maxBits := by
  have hclass : (findTypeSize t).sign = SignClass.unsigned.sign := hs
  have hpos : (0 : Int) < 2 ^ (findTypeSize t).sz := by positivity
  rw [(checkSimpleRange_spec maxBits hclass hn.1).1, SignClass.Takes, hn.2, reduced_eq]
  split
  · rename_i h
    have hsize : Nat.size ((2 : Int) ^ (findTypeSize t).sz).natAbs = (findTypeSize t).sz + 1 := by
      rw [Int.natAbs_pow]
      exact Nat.size_pow
    refine iff_of_false (fun hle => ?_) (fun hnot => hnot.1 h)
    have hcount := hle.2.2
    rw [countBits_eq (by omega), hsize] at hcount
    omega
  · rename_i h
    have hnonneg := Int.emod_nonneg z hpos.ne'
    have hsize := (size_le_iff hnonneg).2 (Int.emod_lt_of_pos z hpos)
    rw [countBits_eq (by omega)]
    constructor
    · exact fun hle => ⟨h, hle.1⟩
    · exact fun hle => ⟨hle.2, hnonneg, hsize⟩

/-- The constant that is found has the value modulo 2^sz exactly for these values. -/
theorem fitNat_iff (hw : 32 ≤ w) (hs : (findTypeSize t).sign = btypeUnsigned)
    (hsz : 1 ≤ (findTypeSize t).sz) (hmsz : (findTypeSize t).sz = (findTypeSize t).msz)
    (hn : n.Canonical) :
    (∃ v, fitNat w maxBits findTypeSize t n = some (some v) ∧
      v.toInt = n.toInt % 2 ^ (findTypeSize t).sz) ↔
    ReducesExactly maxBits (findTypeSize t) n.toInt := by
  have hlt := (findTypeSize t).sz_lt
  have hclass : (findTypeSize t).sign = SignClass.unsigned.sign := hs
  obtain ⟨hzero, hthree, hfive⟩ := checkSimpleRange_spec maxBits hclass hn
  have hlimit := maxTypeValue_spec maxBits hw hclass hsz
  rw [show SignClass.unsigned.width (findTypeSize t).sz = (findTypeSize t).sz from rfl] at hlimit
  rw [SignClass.Takes] at hzero hthree
  rw [SignClass.Refuses] at hthree
  have hpos : (0 : Int) < 2 ^ (findTypeSize t).sz := by positivity
  rw [fitNat, ReducesExactly]
  dsimp only
  split
  · rename_i hch
    obtain ⟨hmax, hnonneg, hle⟩ := hzero.1 hch
    split
    · rename_i hin
      have hsize := (size_le_iff hnonneg).2 hin.2
      rw [countBits_eq (by omega)] at hmax
      exact iff_of_true ⟨n, rfl, (Int.emod_eq_of_lt hnonneg hin.2).symm⟩ hmax
    · rename_i hout
      refine iff_of_false ?_ ?_
      · rintro ⟨v, heq, hv⟩
        rw [← Option.some.inj (Option.some.inj heq)] at hv
        exact hout ⟨hnonneg, by rw [hv]; exact Int.emod_lt_of_pos _ hpos⟩
      · rintro ⟨_, _, _, hwrap⟩
        refine hwrap ⟨hnonneg, ?_, hmax, hle⟩
        by_contra hsmall
        rw [countBits_eq (by omega)] at hle
        exact hout ⟨hnonneg, (size_le_iff hnonneg).1 hle⟩
  · rename_i hch
    rw [if_neg (by omega), if_neg (by rw [hs]; exact not_or.2 ⟨by decide, by simpa using hmsz⟩)]
    have hbig : 0 ≤ n.toInt ∧ n.toInt < 2 ^ (findTypeSize t).sz →
        ¬Nat.size n.toInt.natAbs ≤ maxBits := by
      rintro ⟨hnonneg, hin⟩ hmax
      have hsize := (size_le_iff hnonneg).2 hin
      refine hch (hzero.2 ?_)
      rw [countBits_eq (by omega)]
      exact ⟨hmax, hnonneg, hsize⟩
    split at hlimit
    · rename_i hknown
      obtain ⟨_, hi, hhi, himeans⟩ := hlimit
      obtain ⟨v, hv, hvmeans⟩ := reduceNat_spec hw himeans hn
      rw [hhi, hv]
      dsimp only
      have hfits := fit_reduced maxBits hs hknown hvmeans
      have hbits : ¬(0 ≤ n.toInt ∧ 2 ^ 32 ≤ Nat.size n.toInt.natAbs ∧
          countBits n.toInt ≤ maxBits ∧ countBits n.toInt ≤ (findTypeSize t).sz) :=
        fun h => hch (hzero.2 ⟨h.2.2.1, h.1, h.2.2.2⟩)
      have hcode : (∃ u, (if checkSimpleRange maxBits findTypeSize t v ≠ 0 then some none
          else some (some v)) = some (some u) ∧ u.toInt = n.toInt % 2 ^ (findTypeSize t).sz) ↔
          checkSimpleRange maxBits findTypeSize t v = 0 := by
        by_cases hcheck : checkSimpleRange maxBits findTypeSize t v = 0
        · rw [if_neg (not_not.2 hcheck)]
          refine iff_of_true ⟨v, rfl, ?_⟩ hcheck
          rw [hvmeans.2, reduced_eq, if_neg (hfits.1 hcheck).1]
        · rw [if_pos hcheck]
          refine iff_of_false ?_ hcheck
          rintro ⟨u, heq, _⟩
          cases Option.some.inj heq
      rw [hcode, hfits]
      split
      · rename_i hin
        refine iff_of_false (fun h => ?_) (hbig hin)
        rw [Int.emod_eq_of_lt hin.1 hin.2] at h
        exact hbig hin h.2
      · exact ⟨fun h => ⟨hknown, h.1, h.2, hbits⟩, fun h => ⟨h.2.1, h.2.2.1⟩⟩
    · rename_i hunknown
      rw [hlimit, show reduceNat w none n = none by cases n <;> rfl]
      refine iff_of_false ?_ ?_
      · rintro ⟨_, heq, _⟩
        cases heq
      · split
        · rename_i hin
          exact hbig hin
        · exact fun h => hunknown h.1

/-- What is asked of the conversions of a constant: literals with its value modulo 2^sz. -/
structure Converts (w maxBits : Nat) (findTypeSize : T → TypeSize) (t : T) (n : NatConst) :
    Prop where
  cast : ∀ (s : T) (atag cast : Nat), ∃ v etag,
    makeCastNat w maxBits findTypeSize t s (.simple n) atag cast =
      some (.intLit t (.simple v) etag) ∧ v.toInt = n.toInt % 2 ^ (findTypeSize t).sz
  literal : ∀ tag : Nat, ∃ v,
    makeIntExp w maxBits findTypeSize t tag n = some (some (.intLit t (.simple v) tag)) ∧
      v.toInt = n.toInt % 2 ^ (findTypeSize t).sz

/-- The conversions are right exactly for these values. -/
theorem converts_iff (hw : 32 ≤ w) (hs : (findTypeSize t).sign = btypeUnsigned)
    (hsz : 1 ≤ (findTypeSize t).sz) (hmsz : (findTypeSize t).sz = (findTypeSize t).msz)
    (hn : n.Canonical) :
    Converts w maxBits findTypeSize t n ↔ ReducesExactly maxBits (findTypeSize t) n.toInt := by
  rw [← fitNat_iff hw hs hsz hmsz hn]
  constructor
  · rintro ⟨_, hliteral⟩
    obtain ⟨v, hv, hvalue⟩ := hliteral 0
    refine ⟨v, ?_, hvalue⟩
    rw [makeIntExp, Option.map_eq_some_iff] at hv
    obtain ⟨r, hr, hlit⟩ := hv
    obtain ⟨u, hu, heq⟩ := Option.map_eq_some_iff.1 hlit
    injection heq with _ heq
    injection heq with heq
    rw [hr, hu, heq]
  · rintro ⟨v, hv, hvalue⟩
    refine ⟨fun s atag cast =>
      ⟨v, if cast = castImplicit then atag else expCastTag, ?_, hvalue⟩, fun tag => ⟨v, ?_, hvalue⟩⟩
    · rw [makeCastNat, hv]
      rfl
    · rw [makeIntExp, hv]
      rfl

end

/-- `unsigned char` with exactly eight bits. -/
def exactByte : TypeSize := ⟨8, 8, btypeUnsigned, by decide, by decide⟩

theorem converts_iff_byte :
    (32 ≤ 64 ∧ exactByte.sign = btypeUnsigned ∧ 1 ≤ exactByte.sz ∧
      exactByte.sz = exactByte.msz ∧ Canonical (.neg (.small 255))) ∧
    (Converts 64 32 (fun _ : Unit => exactByte) () (.neg (.small 255)) ↔
      ReducesExactly 32 exactByte (toInt (.neg (.small 255)))) :=
  have hn : Canonical (.neg (.small 255)) := by decide
  ⟨⟨by decide, rfl, by decide, rfl, hn⟩, converts_iff (by decide) rfl (by decide) rfl hn⟩

/-- -256 is not reduced to zero for this type. -/
theorem not_converts : ¬∀ (w maxBits : Nat) (T : Type) (findTypeSize : T → TypeSize) (t : T)
    (n : NatConst), 32 ≤ w → (findTypeSize t).sign = btypeUnsigned → 1 ≤ (findTypeSize t).sz →
    (findTypeSize t).sz = (findTypeSize t).msz → n.Canonical →
    Converts w maxBits findTypeSize t n := by
  intro h
  have hn : Canonical (.neg (.small 256)) := by decide
  have hconv := h 64 32 Unit (fun _ => exactByte) () (.neg (.small 256)) (by decide) rfl
    (by decide) rfl hn
  obtain ⟨v, hv, _⟩ := hconv.literal 0
  have hnull : makeIntExp 64 32 (fun _ : Unit => exactByte) () 0 (.neg (.small 256)) =
      some none := rfl
  rw [hnull] at hv
  cases Option.some.inj hv

end Tendra.Ref.Tdfc
