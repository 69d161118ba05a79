import Tendra.Lib.Bits
import Tendra.Proofs.Tdfc.Constant
import Tendra.Ref.Tdfc.Range

/-!
# Which constants fit in a type

`check_nat_range` decides by the number of bits and by whether the value is a power of
two; `max_type_value` gives the limits as constants. The two agree but for counts that
wrap and limits that cannot be made, and a refusal means that no size between the least
and the greatest would do, but for one value: the least one at the greatest size of a type
whose ranges are full.
-/

namespace Tendra.Ref.Tdfc

open NatConst Tendra.Size

variable {n : NatConst}

/-! ## The number of bits -/

theorem smallBits_eq : ∀ m < 16, smallBits.getD m 0 = Nat.size m := by decide

theorem noBits_eq {n : Nat} (h : n < 65536) : noBits n = Nat.size n := by
  have hmask : ∀ {m a : Nat}, m < 2 ^ (a + 4) →
      (m &&& (2 ^ a - 1) <<< 4 ≠ 0 ↔ m >>> 4 ≠ 0) := by
    intro m a hm
    rw [Ne, and_mask_eq_zero, Nat.mod_eq_of_lt]
    rw [Nat.shiftRight_eq_div_pow]
    exact Nat.div_lt_of_lt_mul (by rwa [← Nat.pow_add, Nat.add_comm])
  have h4 : n >>> 4 < 4096 := by rw [Nat.shiftRight_eq_div_pow]; omega
  have h8 : n >>> 4 >>> 4 < 256 := by rw [Nat.shiftRight_eq_div_pow]; omega
  have h12 : n >>> 4 >>> 4 >>> 4 < 16 := by rw [Nat.shiftRight_eq_div_pow]; omega
  have m1 := hmask (m := n) (a := 12) h
  have m2 := hmask (m := n >>> 4) (a := 8) h4
  have m3 := hmask (m := n >>> 4 >>> 4) (a := 4) h8
  have hsmall : ∀ {m : Nat}, m < 4096 → ¬m >>> 4 ≠ 0 → smallBits.getD m 0 = Nat.size m := by
    intro m hm hz
    refine smallBits_eq m ?_
    rw [Nat.shiftRight_eq_div_pow] at hz
    omega
  rw [noBits]
  dsimp only
  split
  · rename_i hn1
    rw [size_shiftRight (m1.1 hn1)]
    split
    · rename_i hn2
      rw [size_shiftRight (m2.1 hn2)]
      split
      · rename_i hn3
        rw [size_shiftRight (m3.1 hn3), smallBits_eq _ h12]
        omega
      · rename_i hn3
        rw [hsmall (by omega) (fun hc => hn3 (m3.2 hc))]
        omega
    · rename_i hn2
      rw [hsmall (by omega) (fun hc => hn2 (m2.2 hc))]
      omega
  · rename_i hn1
    have hlt : n < 16 := by
      have hz : ¬n >>> 4 ≠ 0 := fun hc => hn1 (m1.2 hc)
      rw [Nat.shiftRight_eq_div_pow] at hz
      omega
    rw [smallBits_eq n hlt, Nat.zero_add]

/-- The digits that are left count with the bits before them. -/
theorem scanDigits_spec : ∀ (p : List Nat) (bits : Nat) (eq : Bool), AllDigits p →
    p.getLastD 0 ≠ 0 →
    (scanDigits bits eq p).1 = p.getLastD 0 ∧
    ((scanDigits bits eq p).2.1 + Nat.size (p.getLastD 0)) % 2 ^ 32 =
      (bits + Nat.size (number p)) % 2 ^ 32 ∧
    ((scanDigits bits eq p).2.2 = true ∧ (p.getLastD 0).isPowerOfTwo ↔
      eq = true ∧ (number p).isPowerOfTwo)
  | [], _, _, _, h => absurd rfl h
  | [val], bits, eq, _, _ => by
      rw [scanDigits, number_singleton]
      exact ⟨rfl, rfl, Iff.rfl⟩
  | val :: next :: vals, bits, eq, hp, h => by
      obtain ⟨hval, hrest⟩ := allDigits_cons.1 hp
      have hlast : (val :: next :: vals).getLastD 0 = (next :: vals).getLastD 0 := by simp
      rw [hlast] at h ⊢
      have hne : number (next :: vals) ≠ 0 := by
        intro hz
        have hge := number_ge (p := next :: vals) (by simp) h
        have := Nat.pow_pos (n := (next :: vals).length - 1) (by decide : 0 < 65536)
        omega
      obtain ⟨h1, h2, h3⟩ := scanDigits_spec (next :: vals) ((bits + natDigits) % 2 ^ 32)
        (if val ≠ 0 then false else eq) hrest h
      rw [scanDigits, number_cons]
      refine ⟨h1, ?_, ?_⟩
      · have hsize := size_add (k := 16) hval hne
        rw [show 2 ^ 16 = 65536 from rfl] at hsize
        rw [h2, hsize, show natDigits = 16 from rfl]
        omega
      · have hpow := isPowerOfTwo_top (k := 16) hval hne
        rw [show 2 ^ 16 = 65536 from rfl] at hpow
        rw [h3, hpow]
        by_cases hz : val = 0
        · simp [hz]
        · simp [hz]

theorem getNatBits_spec (h : n.Magnitude) :
    (getNatBits n).1 = Nat.size n.abs % 2 ^ 32 ∧
    (n.abs ≠ 0 → ((getNatBits n).2 = true ↔ n.abs.isPowerOfTwo)) := by
  have hflag : ∀ {v : Nat} {eq : Bool}, v ≠ 0 →
      ((if v &&& (v - 1) ≠ 0 then false else eq) = true ↔ eq = true ∧ v.isPowerOfTwo) := by
    intro v eq hv
    rw [← Nat.and_sub_one_eq_zero_iff_isPowerOfTwo hv]
    by_cases hz : v &&& (v - 1) = 0 <;> simp [hz]
  cases n with
  | neg n => exact h.elim
  | small v =>
      rw [getNatBits]
      dsimp only
      split
      · rename_i hv
        rw [noBits_eq h, Nat.zero_add, hflag hv]
        exact ⟨rfl, fun _ => by simp [NatConst.abs]⟩
      · rename_i hv
        obtain rfl : v = 0 := by omega
        exact ⟨rfl, fun hz => absurd rfl hz⟩
  | large p =>
      obtain ⟨hlen, hdig, hlast⟩ := h
      obtain ⟨h1, h2, h3⟩ := scanDigits_spec p 0 true hdig hlast
      have hp : p ≠ [] := fun hnil => hlast (by rw [hnil]; rfl)
      have hmem : p.getLastD 0 ∈ p := by
        rw [List.getLastD_eq_getLast?, List.getLast?_eq_some_getLast hp]
        exact List.getLast_mem hp
      rw [getNatBits]
      rw [h1, if_pos hlast, noBits_eq (hdig _ hmem), h2, Nat.zero_add]
      refine ⟨rfl, fun _ => ?_⟩
      rw [hflag hlast, h3]
      simp [NatConst.abs]

/-! ## Sign classes -/

/-- The sign classes of integral types. -/
inductive SignClass
  | unsigned
  | symmetric
  | asymmetric
deriving DecidableEq, Repr

namespace SignClass

/-- The sign that `find_type_size` gives for the class. -/
def sign : SignClass → Nat
  | unsigned => btypeUnsigned
  | symmetric => btypeSigned
  | asymmetric => btypeSigned ||| btypeLong

/-- The number of bits that are left for the value in `k` bits. -/
def width : SignClass → Nat → Nat
  | unsigned, k => k
  | _, k => k - 1

/-- The least value in `k` bits. -/
def least : SignClass → Nat → Int
  | unsigned, _ => 0
  | symmetric, k => -(2 ^ (k - 1) - 1)
  | asymmetric, k => -2 ^ (k - 1)

/-- The value lies in the range of the class at `k` bits. -/
def Fits (s : SignClass) (k : Nat) (z : Int) : Prop := s.least k ≤ z ∧ z ≤ 2 ^ s.width k - 1

/-- A value of `bits` bits is let through as one that fits in `k` bits. -/
def Takes : SignClass → Nat → Nat → Int → Prop
  | unsigned, k, bits, z => 0 ≤ z ∧ bits ≤ k
  | symmetric, k, bits, _ => bits < k
  | asymmetric, k, bits, z => bits < k ∨ bits = k ∧ z < 0 ∧ z.natAbs.isPowerOfTwo

theorem least_iff {k : Nat} (hk : 1 ≤ k) (z : Int) :
    z = -2 ^ (k - 1) ↔ Nat.size z.natAbs = k ∧ z < 0 ∧ z.natAbs.isPowerOfTwo := by
  have hpow : ((2 ^ (k - 1) : Nat) : Int) = 2 ^ (k - 1) := by push_cast; rfl
  have hpos : 0 < 2 ^ (k - 1) := Nat.two_pow_pos _
  rw [and_left_comm, size_eq_and_isPowerOfTwo hk]
  omega

theorem Takes.le {s : SignClass} {k bits : Nat} {z : Int} (h : s.Takes k bits z) : bits ≤ k := by
  cases s with
  | unsigned => exact h.2
  | symmetric => exact Nat.le_of_lt h
  | asymmetric => exact h.elim Nat.le_of_lt fun h => Nat.le_of_eq h.1

theorem fits_iff (s : SignClass) {k : Nat} (hk : 1 ≤ k) (z : Int) :
    s.Fits k z ↔ s.Takes k (Nat.size z.natAbs) z := by
  have hpow : ((2 ^ (k - 1) : Nat) : Int) = 2 ^ (k - 1) := by push_cast; rfl
  cases s with
  | unsigned =>
      have hpow : ((2 ^ k : Nat) : Int) = 2 ^ k := by push_cast; rfl
      rw [Takes, Nat.size_le, Fits, least, width]
      omega
  | symmetric =>
      rw [Takes, size_lt_iff hk, Fits, least, width]
      · omega
      · exact fun h => by cases h
  | asymmetric =>
      have hpos : 0 < 2 ^ (k - 1) := Nat.two_pow_pos _
      rw [Takes, size_lt_iff hk, ← least_iff hk, Fits, least, width]
      · omega
      · exact fun h => by cases h

/-- A value of `bits` bits that is not let through is refused: it is taken for one that does
not fit in `k` bits. -/
def Refuses : SignClass → Nat → Nat → Int → Prop
  | unsigned, k, bits, z => z < 0 ∨ k < bits
  | _, k, bits, _ => k ≤ bits

end SignClass

/-! ## The verdict -/

/-- The number of bits as `get_nat_bits` counts them. -/
def countBits (z : Int) : Nat := Nat.size z.natAbs % 2 ^ 32

theorem getNatBits_toInt (h : n.Canonical) :
    ∃ m neg, stripNeg n = (m, neg) ∧
    (getNatBits m).1 = countBits n.toInt ∧ (neg = true ↔ n.toInt < 0) ∧
    (neg = true → ((getNatBits m).2 = true ↔ n.toInt.natAbs.isPowerOfTwo)) := by
  cases n with
  | neg n =>
      obtain ⟨hm, h0⟩ := h
      have hne : n.abs ≠ 0 := fun hz => h0 (hm.abs_eq_zero.1 hz)
      obtain ⟨hbits, hflag⟩ := getNatBits_spec hm
      refine ⟨n, true, rfl, ?_, ?_, fun _ => ?_⟩
      · rw [hbits, countBits, NatConst.toInt, Int.natAbs_neg, Int.natAbs_natCast]
      · rw [NatConst.toInt, eq_self, true_iff]
        omega
      · rw [hflag hne, NatConst.toInt, Int.natAbs_neg, Int.natAbs_natCast]
  | small v =>
      refine ⟨.small v, false, rfl, ?_, ?_, fun hf => by cases hf⟩
      · exact (getNatBits_spec (n := .small v) h).1
      · rw [Magnitude.toInt_eq (n := .small v) h]
        simp
  | large p =>
      refine ⟨.large p, false, rfl, ?_, ?_, fun hf => by cases hf⟩
      · exact (getNatBits_spec (n := .large p) h).1
      · rw [Magnitude.toInt_eq (n := .large p) h]
        simp

section

variable {T : Type} {w maxBits : Nat} {findTypeSize : T → TypeSize} {t : T} {s : SignClass}
  {n : NatConst}

variable (maxBits) in
/-- The three groups of verdicts: the value fits, it does not fit, or it does not fit in any
type. -/
theorem checkSimpleRange_spec (hs : (findTypeSize t).sign = s.sign) (hn : n.Canonical) :
    (checkSimpleRange maxBits findTypeSize t n = 0 ↔
      countBits n.toInt ≤ maxBits ∧ s.Takes (findTypeSize t).sz (countBits n.toInt) n.toInt) ∧
    (checkSimpleRange maxBits findTypeSize t n = 3 ∨ checkSimpleRange maxBits findTypeSize t n = 4 ↔
      countBits n.toInt ≤ maxBits ∧ ¬s.Takes (findTypeSize t).sz (countBits n.toInt) n.toInt ∧
      s.Refuses (findTypeSize t).msz (countBits n.toInt) n.toInt) ∧
    (5 ≤ checkSimpleRange maxBits findTypeSize t n ↔ maxBits < countBits n.toInt) := by
  obtain ⟨m, neg, hm, hbits, hneg, hflag⟩ := getNatBits_toInt hn
  rw [checkSimpleRange]
  rw [hm]
  dsimp only
  rw [hbits, hs]
  generalize (getNatBits m).2 = eq at hflag
  generalize n.toInt = z at hneg hflag ⊢
  generalize countBits z = bits
  rcases Nat.lt_or_ge maxBits bits with hmax | hmax
  · rw [if_pos hmax]
    omega
  rw [if_neg (Nat.not_lt.2 hmax)]
  cases s with
  | unsigned =>
      simp only [show SignClass.unsigned.sign = btypeUnsigned from rfl, if_true, SignClass.Takes,
        SignClass.Refuses, hneg]
      split_ifs <;> grind
  | symmetric =>
      simp only [show SignClass.symmetric.sign = btypeSigned from rfl,
        show btypeSigned ≠ btypeUnsigned by decide, if_false, if_true, SignClass.Takes,
        SignClass.Refuses]
      split_ifs <;> grind
  | asymmetric =>
      have hpow : bits = (findTypeSize t).sz ∧ neg = true ∧ eq = true ↔
          bits = (findTypeSize t).sz ∧ z < 0 ∧ z.natAbs.isPowerOfTwo := by
        rw [← hneg]
        exact and_congr_right fun _ => and_congr_right fun h => hflag h
      simp only [show SignClass.asymmetric.sign = btypeSigned ||| btypeLong from rfl,
        show btypeSigned ||| btypeLong ≠ btypeUnsigned by decide,
        show btypeSigned ||| btypeLong ≠ btypeSigned by decide, if_false, if_true,
        SignClass.Takes, SignClass.Refuses, hpow]
      by_cases hp : z < 0 ∧ z.natAbs.isPowerOfTwo
      · simp only [hp, and_true]
        split_ifs <;> grind
      · simp only [hp, and_false, or_false, if_false]
        split_ifs <;> grind

/-! ## The limits -/

theorem decompose_magnitude {a : NatConst} (h : a.Magnitude) :
    (decompose a).sign = false ∧ (decompose a).nat = a := by
  cases a with
  | small v => exact ⟨rfl, rfl⟩
  | large p => exact ⟨rfl, rfl⟩
  | neg n => exact h.elim

theorem and_magnitude (hw : 32 ≤ w) {a b : NatConst} (ha : a.Magnitude) (hb : b.Magnitude) :
    ∃ res, binaryNatOp w .and a b = some res ∧ res.Means ((a.abs &&& b.abs : Nat) : Int) := by
  have hsome : ∃ res, binaryNatOp w .and a b = some res := by
    rw [binaryNatOp]
    dsimp only
    split
    · exact ⟨_, rfl⟩
    · split
      · exact ⟨_, rfl⟩
      · rw [digitOp, bitOp, (decompose_magnitude ha).1, (decompose_magnitude hb).1,
          if_neg (by decide)]
        dsimp only
        split <;> exact ⟨_, rfl⟩
  obtain ⟨res, hres⟩ := hsome
  have hmeans := binaryNatOp_spec hw ha.canonical hb.canonical hres (fun h => by cases h.1)
  rw [ha.toInt_eq, hb.toInt_eq] at hmeans
  exact ⟨res, hres, hmeans⟩

/-- Shifts by more than 4096 bits are refused. -/
theorem shift_one (hw : 32 ≤ w) {k : Nat} (hk : k < 2 ^ 32) :
    if k ≤ 4096 then ∃ res, binaryNatOp w .lshift (.small 1) (makeNatValue k) = some res ∧
      res.Means (2 ^ k)
    else binaryNatOp w .lshift (.small 1) (makeNatValue k) = none := by
  obtain ⟨hmag, habs⟩ := makeNatValue_spec hk
  have hone : Magnitude (.small 1) := by decide
  have hcode : binaryNatOp w .lshift (.small 1) (makeNatValue k) =
      if makeNatValue k = .small 0 then some (.small 1)
      else lshiftOp w (decompose (.small 1)) (decompose (makeNatValue k)) := by
    rw [binaryNatOp, if_neg (by decide)]
    dsimp only
    rw [(decompose_magnitude hmag).2]
    rfl
  have hval : getNatValue (decompose (makeNatValue k)).nat = k := by
    rw [(decompose_magnitude hmag).2, getNatValue_spec hmag, habs]
    omega
  split
  · rename_i hle
    have hsome : ∃ res, binaryNatOp w .lshift (.small 1) (makeNatValue k) = some res := by
      rw [hcode]
      split
      · exact ⟨_, rfl⟩
      · rw [lshiftOp, (decompose_magnitude hmag).1, if_neg (by decide)]
        dsimp only
        rw [hval, if_neg (by omega)]
        exact ⟨_, rfl⟩
    obtain ⟨res, hres⟩ := hsome
    have hmeans := binaryNatOp_spec hw hone.canonical hmag.canonical hres (fun h => by cases h.1)
    rw [hmag.toInt_eq, habs] at hmeans
    refine ⟨res, hres, ?_⟩
    simpa [NatOp.exact, NatConst.toInt, NatConst.abs] using hmeans
  · rename_i hgt
    rw [hcode, if_neg, lshiftOp, (decompose_magnitude hmag).1, if_neg (by decide)]
    · dsimp only
      rw [hval, if_pos (by omega)]
    · intro hz
      rw [hz] at habs
      exact hgt (by rw [← habs]; decide)

theorem minus_one (hw : 32 ≤ w) {z : Int} (hn : n.Means z) :
    ∃ res, binaryNatOp w .minus n (.small 1) = some res ∧ res.Means (z - 1) := by
  obtain ⟨res, hres⟩ := Option.ne_none_iff_exists'.1
    (binaryNatOp_ne_none (w := w) (.inr (.inl rfl) : NatOp.minus = .plus ∨ _) n (.small 1))
  have hmeans := binaryNatOp_spec hw hn.1 (by decide) hres (fun h => by cases h.1)
  rw [hn.2] at hmeans
  exact ⟨res, hres, hmeans⟩

variable (maxBits) in
/-- The limits of a type are those of its class, as long as the shift is made. -/
theorem maxTypeValue_spec (hw : 32 ≤ w) (hs : (findTypeSize t).sign = s.sign)
    (hsz : 1 ≤ (findTypeSize t).sz) :
    if s.width (findTypeSize t).sz ≤ 4096 then
      (∃ lo, maxTypeValue w maxBits findTypeSize (some t) true = some lo ∧
        lo.Means (s.least (findTypeSize t).sz)) ∧
      ∃ hi, maxTypeValue w maxBits findTypeSize (some t) false = some hi ∧
        hi.Means (2 ^ s.width (findTypeSize t).sz - 1)
    else maxTypeValue w maxBits findTypeSize (some t) false = none := by
  have hlt := (findTypeSize t).sz_lt
  have hdown : ((findTypeSize t).sz + (2 ^ 32 - 1)) % 2 ^ 32 = (findTypeSize t).sz - 1 := by omega
  have hwidth : s.width (findTypeSize t).sz < 2 ^ 32 := by
    cases s <;> rw [SignClass.width] <;> first | omega | exact fun h => by cases h
  have hshift := shift_one hw hwidth
  have hneg : ∀ {n : NatConst} {z : Int}, n.Means z → (negateNat n).Means (-z) := by
    rintro n z ⟨hn, rfl⟩
    exact negateNat_spec hn
  have hcode : ∀ neg, maxTypeValue w maxBits findTypeSize (some t) neg =
      if s = .unsigned ∧ neg then some (.small 0)
      else (binaryNatOp w .lshift (.small 1)
        (makeNatValue (s.width (findTypeSize t).sz))).bind fun n =>
          let n := if ¬neg ∨ s ≠ .asymmetric then binaryNatOp w .minus n (.small 1) else some n
          if neg then n.map negateNat else n := by
    intro neg
    rw [maxTypeValue]
    simp only [hs]
    cases s with
    | unsigned =>
        simp only [show SignClass.unsigned.sign = btypeUnsigned from rfl,
          show btypeUnsigned &&& btypeSigned = 0 by decide,
          show btypeUnsigned &&& btypeUnsigned ≠ 0 by decide,
          show btypeUnsigned &&& btypeLong = 0 by decide, if_true, if_false, SignClass.width]
        cases neg <;> cases binaryNatOp w .lshift (.small 1) (makeNatValue (findTypeSize t).sz) <;>
          simp
    | symmetric =>
        simp only [show SignClass.symmetric.sign = btypeSigned from rfl,
          show btypeSigned &&& btypeSigned ≠ 0 by decide,
          show btypeSigned &&& btypeUnsigned = 0 by decide,
          show btypeSigned &&& btypeLong = 0 by decide, if_true, if_false,
          show (findTypeSize t).sz ≠ 0 by omega, hdown, SignClass.width]
        cases neg <;>
          cases binaryNatOp w .lshift (.small 1) (makeNatValue ((findTypeSize t).sz - 1)) <;> simp
    | asymmetric =>
        simp only [show SignClass.asymmetric.sign = btypeSigned ||| btypeLong from rfl,
          show (btypeSigned ||| btypeLong) &&& btypeSigned ≠ 0 by decide,
          show (btypeSigned ||| btypeLong) &&& btypeUnsigned = 0 by decide,
          show (btypeSigned ||| btypeLong) &&& btypeLong ≠ 0 by decide, if_true, if_false,
          show (findTypeSize t).sz ≠ 0 by omega, hdown, SignClass.width]
        cases neg <;>
          cases binaryNatOp w .lshift (.small 1) (makeNatValue ((findTypeSize t).sz - 1)) <;> simp
  rw [hcode, hcode]
  split
  · rename_i hle
    rw [if_pos hle] at hshift
    obtain ⟨n, hn, hmeans⟩ := hshift
    obtain ⟨hi, hhi, himeans⟩ := minus_one hw hmeans
    rw [hn]
    refine ⟨?_, hi, ?_, himeans⟩
    · cases s with
      | unsigned => exact ⟨_, rfl, (denotes_small (by decide)).means⟩
      | symmetric =>
          refine ⟨negateNat hi, ?_, hneg himeans⟩
          simp [hhi]
      | asymmetric =>
          refine ⟨negateNat n, ?_, hneg hmeans⟩
          simp
    · simp [hhi]
  · rename_i hgt
    rw [if_neg hgt] at hshift
    rw [hshift]
    simp

/-! ## The verdict is sound -/

/-- What is asked of the verdict on a constant: zero says that it lies within the limits, and
a refusal that it lies in the range of the type at no size. -/
structure RangeVerdict (w maxBits : Nat) (findTypeSize : T → TypeSize) (t : T) (s : SignClass)
    (n : NatConst) : Prop where
  fits : checkNatRange maxBits findTypeSize t (.simple n) = 0 ↔
    ∃ lo hi, maxTypeValue w maxBits findTypeSize (some t) true = some lo ∧
      maxTypeValue w maxBits findTypeSize (some t) false = some hi ∧
      lo.toInt ≤ n.toInt ∧ n.toInt ≤ hi.toInt
  refused : checkNatRange maxBits findTypeSize t (.simple n) = 3 ∨
      checkNatRange maxBits findTypeSize t (.simple n) = 4 →
    ∀ k, (findTypeSize t).sz ≤ k → k ≤ (findTypeSize t).msz → ¬s.Fits k n.toInt

/-- The values that the verdict is right about: one in the range at the least size, if the
limits are known exactly when no type is exceeded; one out of it, if the bits are counted
without a wrap or the count is not let through; and not the least value at the greatest size
of an asymmetric type whose sizes differ. -/
structure RangeDecided (maxBits : Nat) (size : TypeSize) (s : SignClass) (z : Int) : Prop where
  known : s.Fits size.sz z → (s.width size.sz ≤ 4096 ↔ Nat.size z.natAbs ≤ maxBits)
  counted : ¬s.Fits size.sz z → 2 ^ 32 ≤ Nat.size z.natAbs → countBits z ≤ maxBits →
    ¬s.Takes size.sz (countBits z) z
  least : ¬(s = .asymmetric ∧ size.sz < size.msz ∧ size.msz ≤ maxBits ∧ z = -2 ^ (size.msz - 1))

variable (maxBits) in
theorem within_limits (hw : 32 ≤ w) (hs : (findTypeSize t).sign = s.sign)
    (hsz : 1 ≤ (findTypeSize t).sz) (z : Int) :
    (∃ lo hi, maxTypeValue w maxBits findTypeSize (some t) true = some lo ∧
      maxTypeValue w maxBits findTypeSize (some t) false = some hi ∧
      lo.toInt ≤ z ∧ z ≤ hi.toInt) ↔
    s.width (findTypeSize t).sz ≤ 4096 ∧ s.Fits (findTypeSize t).sz z := by
  have hspec := maxTypeValue_spec maxBits hw hs hsz
  split at hspec
  · rename_i hle
    obtain ⟨⟨lo, hlo, hlomeans⟩, hi, hhi, himeans⟩ := hspec
    rw [hlo, hhi, SignClass.Fits, ← hlomeans.2, ← himeans.2]
    constructor
    · rintro ⟨_, _, heq1, heq2, h⟩
      rw [← Option.some.inj heq1, ← Option.some.inj heq2] at h
      exact ⟨hle, h⟩
    · exact fun h => ⟨lo, hi, rfl, rfl, h.2⟩
  · rename_i hgt
    rw [hspec]
    constructor
    · rintro ⟨_, _, _, heq, _⟩
      cases heq
    · exact fun h => absurd h.1 hgt

theorem countBits_eq {z : Int} (h : Nat.size z.natAbs < 2 ^ 32) :
    countBits z = Nat.size z.natAbs := Nat.mod_eq_of_lt h

variable (maxBits) in
theorem refused_iff (hs : (findTypeSize t).sign = s.sign) (hsz : 1 ≤ (findTypeSize t).sz)
    (hmsz : (findTypeSize t).sz ≤ (findTypeSize t).msz) (hn : n.Canonical) :
    (checkSimpleRange maxBits findTypeSize t n = 3 ∨ checkSimpleRange maxBits findTypeSize t n = 4 →
      ∀ k, (findTypeSize t).sz ≤ k → k ≤ (findTypeSize t).msz → ¬s.Fits k n.toInt) ↔
    ¬(s = .asymmetric ∧ (findTypeSize t).sz < (findTypeSize t).msz ∧
      (findTypeSize t).msz ≤ maxBits ∧ n.toInt = -2 ^ ((findTypeSize t).msz - 1)) := by
  have hlt := (findTypeSize t).msz_lt
  rw [(checkSimpleRange_spec maxBits hs hn).2.1]
  generalize n.toInt = z
  constructor
  · rintro h ⟨rfl, hless, hmax, hz⟩
    obtain ⟨hsize, hneg⟩ := (SignClass.least_iff (by omega) z).1 hz
    have hcount : countBits z = (findTypeSize t).msz := by rw [countBits_eq (by omega), hsize]
    rw [hcount] at h
    refine h ⟨hmax, fun htakes => ?_, Nat.le_refl _⟩ _ hmsz (Nat.le_refl _) ?_
    · exact absurd htakes.le (by omega)
    · exact (SignClass.fits_iff _ (by omega) z).2 (.inr ⟨hsize, hneg⟩)
  · rintro h ⟨hmax, htakes, hrefuses⟩ k hk hkm hfits
    have hfit := (SignClass.fits_iff s (by omega) z).1 hfits
    have hle := hfit.le
    rw [countBits_eq (by omega)] at hmax htakes hrefuses
    cases s with
    | unsigned =>
        have hbits : 0 ≤ z ∧ Nat.size z.natAbs ≤ k := hfit
        have hout : z < 0 ∨ (findTypeSize t).msz < Nat.size z.natAbs := hrefuses
        omega
    | symmetric =>
        have hbits : Nat.size z.natAbs < k := hfit
        have hout : (findTypeSize t).msz ≤ Nat.size z.natAbs := hrefuses
        omega
    | asymmetric =>
        have hout : (findTypeSize t).msz ≤ Nat.size z.natAbs := hrefuses
        rcases hfit with hbits | ⟨hbits, hmin⟩
        · omega
        have hsize : Nat.size z.natAbs = (findTypeSize t).msz := by omega
        refine h ⟨rfl, ?_, by omega, (SignClass.least_iff (by omega) z).2 ⟨hsize, hmin⟩⟩
        refine Nat.lt_of_le_of_ne hmsz fun heq => htakes (.inr ⟨?_, hmin⟩)
        rw [heq, hsize]

theorem fits_decided (s : SignClass) {size : TypeSize} (hsz : 1 ≤ size.sz) (maxBits : Nat)
    (z : Int) :
    (countBits z ≤ maxBits ∧ s.Takes size.sz (countBits z) z ↔
      s.width size.sz ≤ 4096 ∧ s.Fits size.sz z) ↔
    (s.Fits size.sz z → (s.width size.sz ≤ 4096 ↔ Nat.size z.natAbs ≤ maxBits)) ∧
    (¬s.Fits size.sz z → 2 ^ 32 ≤ Nat.size z.natAbs → countBits z ≤ maxBits →
      ¬s.Takes size.sz (countBits z) z) := by
  have hlt := size.sz_lt
  have hiff := SignClass.fits_iff s hsz z
  by_cases hfits : s.Fits size.sz z
  · have hle := (hiff.1 hfits).le
    rw [countBits_eq (by omega)]
    simp only [hfits, ← hiff, and_true, not_true_eq_false, false_imp_iff, true_imp_iff, iff_comm]
  · rcases Nat.lt_or_ge (Nat.size z.natAbs) (2 ^ 32) with hsmall | hlarge
    · rw [countBits_eq hsmall]
      simp only [hfits, ← hiff, and_false, false_imp_iff, true_and, not_false_eq_true, implies_true]
    · simp only [hfits, and_false, iff_false, not_and, false_imp_iff, true_and, not_false_eq_true,
        true_imp_iff, hlarge]

/-- The verdict is right exactly on these values. -/
theorem checkNatRange_iff (hw : 32 ≤ w) (hs : (findTypeSize t).sign = s.sign)
    (hsz : 1 ≤ (findTypeSize t).sz) (hmsz : (findTypeSize t).sz ≤ (findTypeSize t).msz)
    (hn : n.Canonical) :
    RangeVerdict w maxBits findTypeSize t s n ↔
      RangeDecided maxBits (findTypeSize t) s n.toInt := by
  have hfits := within_limits maxBits hw hs hsz n.toInt
  have hzero := (checkSimpleRange_spec maxBits hs hn).1
  have hrefused := refused_iff maxBits hs hsz hmsz hn
  have hdecided := fits_decided s hsz maxBits n.toInt
  constructor
  · rintro ⟨h1, h2⟩
    have h := hdecided.1 ((hzero.symm.trans h1).trans hfits)
    exact ⟨h.1, h.2, hrefused.1 h2⟩
  · rintro ⟨h1, h2, h3⟩
    exact ⟨hzero.trans ((hdecided.2 ⟨h1, h2⟩).trans hfits.symm), hrefused.2 h3⟩

end

/-- A signed type of 16 to 32 bits whose ranges are full. -/
def fullShort : TypeSize := ⟨16, 32, btypeSigned ||| btypeLong, by decide, by decide⟩

theorem checkNatRange_iff_short :
    (32 ≤ 64 ∧ fullShort.sign = SignClass.asymmetric.sign ∧ 1 ≤ fullShort.sz ∧
      fullShort.sz ≤ fullShort.msz ∧ Canonical (.neg (.large [0, 0x8000]))) ∧
    (RangeVerdict 64 32 (fun _ : Unit => fullShort) () .asymmetric (.neg (.large [0, 0x8000])) ↔
      RangeDecided 32 fullShort .asymmetric (toInt (.neg (.large [0, 0x8000])))) :=
  have hn : Canonical (.neg (.large [0, 0x8000])) := by decide
  ⟨⟨by decide, rfl, by decide, by decide, hn⟩,
    checkNatRange_iff (by decide) rfl (by decide) (by decide) hn⟩

/-- -2^31 is refused for this type, which holds it if it has 32 bits. -/
theorem checkNatRange_unsound : ¬∀ (w maxBits : Nat) (T : Type) (findTypeSize : T → TypeSize)
    (t : T) (s : SignClass) (n : NatConst), 32 ≤ w → (findTypeSize t).sign = s.sign →
    1 ≤ (findTypeSize t).sz → (findTypeSize t).sz ≤ (findTypeSize t).msz → n.Canonical →
    RangeVerdict w maxBits findTypeSize t s n := by
  intro h
  have hverdict := h 64 32 Unit (fun _ => fullShort) () .asymmetric (.neg (.large [0, 0x8000]))
    (by decide) rfl (by decide) (by decide) (by decide)
  refine hverdict.refused (.inl (by decide)) 32 (by decide) (by decide) ?_
  exact ⟨by decide, by decide⟩

end Tendra.Ref.Tdfc
