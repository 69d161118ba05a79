import Tendra.Proofs.Basicread
import Tendra.Proofs.Bitstream
import Tendra.Proofs.F64Exact
import Tendra.Proofs.Pool
import Tendra.Ref.FltLiteral

/-!
# The installer decodes what the producers encode

The reader sees the bits of the file; the writer appends bits to its stream. Where the
file goes on with what the writer appended, a call of `getcode` for each packet gives
the packets back. A TDF integer is its octal digits, so the digits read up to any point
are the number divided by a power of eight. The digit that would take the number past
32 bits is the first one that finds `total` above `0x1fffffff`, and from there on the
number is in the pool.
-/

namespace Tendra.Ref

open Tendra.Digits

variable {t : Spot} {s : Reader} {p : Pool} {base : Nat}

variable {n v : Nat} {f : Flt}

/-! ## Another digit -/

theorem length_timesBase (base : Nat) (xs : List Nat) :
    (timesBase base xs).1.length = xs.length := by
  induction xs with
  | nil => rfl
  | cons x xs ih => rw [timesBase, List.length_cons, ih, List.length_cons]

theorem bounded_timesBase (base : Nat) (xs : List Nat) : Bounded fbase (timesBase base xs).1 := by
  induction xs with
  | nil => exact bounded_nil
  | cons x xs ih => exact bounded_cons.2 ⟨Nat.mod_lt _ fbase_pos, ih⟩

theorem val_timesBase (base : Nat) (xs : List Nat) :
    val fbase (timesBase base xs).1 + (timesBase base xs).2 * fbase ^ xs.length =
      val fbase xs * base := by
  induction xs with
  | nil => simp [timesBase]
  | cons x xs ih =>
      have hdm := Nat.mod_add_div (x * base + (timesBase base xs).2) fbase
      simp only [timesBase, val_cons, List.length_cons, length_timesBase, pow_succ]
      calc (x * base + (timesBase base xs).2) % fbase * fbase ^ xs.length +
            val fbase (timesBase base xs).1 +
            (x * base + (timesBase base xs).2) / fbase * (fbase ^ xs.length * fbase)
          = ((x * base + (timesBase base xs).2) % fbase +
              fbase * ((x * base + (timesBase base xs).2) / fbase)) * fbase ^ xs.length +
              val fbase (timesBase base xs).1 := by ring
        _ = x * base * fbase ^ xs.length + (val fbase (timesBase base xs).1 +
              (timesBase base xs).2 * fbase ^ xs.length) := by rw [hdm]; ring
        _ = (x * fbase ^ xs.length + val fbase xs) * base := by rw [ih]; ring

/-- The number `f` is the integer `v`, up to its sign, with the point behind the digit `n`. -/
structure Flt.Point (f : Flt) (v n : Nat) : Prop where
  len : f.digits.length = mantSize
  bounded : Bounded fbase f.digits
  exp : f.exp = n
  le : n ≤ 7
  val : val fbase f.digits = v * fbase ^ (7 - n)

theorem fbase_pow_split (hn : n ≤ 7) : fbase ^ 8 = fbase ^ (n + 1) * fbase ^ (7 - n) := by
  rw [← pow_add]
  congr 1
  omega

/-- A carry out of the mantissa, on the scale of the integer. -/
theorem exists_point_val {x c : Nat} (hn : n ≤ 7) (h : x + c * fbase ^ 8 = v * fbase ^ (7 - n)) :
    ∃ u, x = u * fbase ^ (7 - n) ∧ u + c * fbase ^ (n + 1) = v := by
  rw [fbase_pow_split hn, ← Nat.mul_assoc] at h
  have hle : c * fbase ^ (n + 1) ≤ v :=
    Nat.le_of_mul_le_mul_right (by omega) (fbase_pow_pos (7 - n))
  refine ⟨v - c * fbase ^ (n + 1), ?_, Nat.sub_add_cancel hle⟩
  rw [Nat.sub_mul]
  omega

namespace Flt.Point

theorem val_take (h : f.Point v n) : Digits.val fbase (f.digits.take (n + 1)) = v := by
  have hle := h.le
  rw [Digits.val_take h.bounded (by rw [h.len, mantSize_eq]; omega), h.val, h.len,
    show mantSize - (n + 1) = 7 - n by rw [mantSize_eq]; omega]
  exact Nat.mul_div_cancel _ (fbase_pow_pos _)

/-- The digits behind the point are zeros. -/
theorem val_drop {k : Nat} (h : f.Point v n) (hk : n < k) :
    Digits.val fbase (f.digits.drop k) = 0 := by
  have hle := h.le
  rw [Digits.val_drop h.bounded, h.val, h.len, mantSize_eq]
  refine Nat.mod_eq_zero_of_dvd (Nat.dvd_trans (Nat.pow_dvd_pow _ ?_) (Nat.dvd_mul_left ..))
  omega

end Flt.Point

theorem carryOut_sign (c : Nat) (f : Flt) : (carryOut c f).sign = f.sign := by
  unfold carryOut
  split <;> rfl

/-- A carry becomes the first digit, and the point moves. -/
theorem carryOut_point {c : Nat} (h : f.Point v n) (hc : c < fbase)
    (hfit : v + c * fbase ^ (n + 1) < fbase ^ 8) :
    ∃ m, (carryOut c f).Point (v + c * fbase ^ (n + 1)) m ∧
      (n = 0 ∨ fbase ^ n ≤ v + c * fbase ^ (n + 1) →
        m = 0 ∨ fbase ^ m ≤ v + c * fbase ^ (n + 1)) := by
  have hle := h.le
  by_cases hzero : c = 0
  · refine ⟨n, ?_, id⟩
    rw [carryOut, if_pos hzero, hzero, Nat.zero_mul, Nat.add_zero]
    exact h
  · have hone : fbase ^ (n + 1) ≤ c * fbase ^ (n + 1) := Nat.le_mul_of_pos_left _ (by omega)
    have hn : n < 7 := by
      by_contra hge
      obtain rfl : n = 7 := by omega
      have hpow : fbase ^ (7 + 1) = fbase ^ 8 := rfl
      omega
    have hlen := h.len
    rw [mantSize_eq] at hlen
    have hdigits : (carryOut c f).digits =
        c :: f.digits.take (n + 1) ++ f.digits.drop (n + 2) := by
      have hi : (if f.exp + 1 ≥ mantSize then mantSize - 1 else (f.exp + 1).toNat) = n + 1 := by
        rw [h.exp, if_neg (by rw [mantSize_eq]; omega)]
        omega
      simp only [carryOut, if_neg hzero]
      rw [hi, Nat.mod_eq_of_lt hc, Flt.digits, Flt.digits, mantSize_eq, List.take_take,
        Nat.min_eq_left (by omega), List.cons_append, List.cons_append, List.take_succ_cons,
        List.take_append, List.take_take, Nat.min_eq_right (by omega), List.drop_take,
        List.length_take, Nat.min_eq_left]
      · congr 3
        omega
      · rw [Flt.digits, mantSize_eq, List.length_take] at hlen
        omega
    refine ⟨n + 1, ⟨?_, ?_, ?_, by omega, ?_⟩, fun _ => .inr (by omega)⟩
    · rw [hdigits, List.length_append, List.length_cons, List.length_take, List.length_drop, hlen,
        mantSize_eq]
      omega
    · rw [hdigits]
      exact bounded_append.2 ⟨bounded_cons.2 ⟨hc, h.bounded.take _⟩, h.bounded.drop _⟩
    · rw [carryOut, if_neg hzero, h.exp]
      rfl
    · rw [hdigits, val_append, val_cons, h.val_take, h.val_drop (by omega), List.length_take,
        List.length_drop, hlen, Nat.min_eq_left (by omega), show 8 - (n + 2) = 7 - (n + 1) by omega]
      ring

/-- The first loop of `flpt_newdig`, with its carry. -/
theorem timesBase_point (h : f.Point v n) (hbase : base ≤ fbase) :
    (timesBase base f.digits).2 < fbase ∧
      ∃ u, (f.store (timesBase base f.digits).1).Point u n ∧
        u + (timesBase base f.digits).2 * fbase ^ (n + 1) = v * base := by
  have hval := val_timesBase base f.digits
  have hlt := val_lt h.bounded
  rw [h.len, mantSize_eq] at hlt hval
  have hlen : (timesBase base f.digits).1.length = mantSize :=
    (length_timesBase ..).trans h.len
  constructor
  · refine Nat.lt_of_mul_lt_mul_right (a := fbase ^ 8) ?_
    calc (timesBase base f.digits).2 * fbase ^ 8 ≤ val fbase f.digits * base := by omega
      _ ≤ val fbase f.digits * fbase := Nat.mul_le_mul_left _ hbase
      _ < fbase ^ 8 * fbase := Nat.mul_lt_mul_of_pos_right hlt fbase_pos
      _ = fbase * fbase ^ 8 := Nat.mul_comm ..
  · have hscale : val fbase f.digits * base = v * base * fbase ^ (7 - n) := by
      rw [h.val, Nat.mul_right_comm]
    obtain ⟨u, hu, hsum⟩ := exists_point_val h.le (hval.trans hscale)
    refine ⟨u, ⟨?_, ?_, h.exp, h.le, ?_⟩, hsum⟩
    · rw [Flt.digits_store _ hlen, hlen]
    · rw [Flt.digits_store _ hlen]
      exact bounded_timesBase base f.digits
    · rw [Flt.digits_store _ hlen, hu]

/-- The second loop of `flpt_newdig`, with its carry. -/
theorem addCarry_point {dig : Nat} (h : f.Point v n) (hdig : dig < fbase) :
    (addCarry fbase dig (f.mant.take (n + 1))).2 < fbase ∧
      ∃ u, Flt.Point { f with
        mant := (addCarry fbase dig (f.mant.take (n + 1))).1 ++ f.mant.drop (n + 1) } u n ∧
        u + (addCarry fbase dig (f.mant.take (n + 1))).2 * fbase ^ (n + 1) = v + dig := by
  have hle := h.le
  have hlen := h.len
  have htake : f.mant.take (n + 1) = f.digits.take (n + 1) := by
    rw [Flt.digits, List.take_take, Nat.min_eq_left (by rw [mantSize_eq]; omega)]
  have hval := val_addCarry (B := fbase) dig (f.mant.take (n + 1))
  rw [htake] at hval ⊢
  have hshort : (f.digits.take (n + 1)).length = n + 1 := by
    rw [List.length_take, hlen, mantSize_eq]
    omega
  have hlt := val_lt (h.bounded.take (n + 1))
  rw [hshort, h.val_take] at hlt hval
  have hr := length_addCarry (B := fbase) dig (f.digits.take (n + 1))
  rw [hshort] at hr
  constructor
  · have hpow : fbase ≤ fbase ^ (n + 1) := Nat.le_self_pow (by omega) _
    by_contra hge
    have hmul : fbase * fbase ^ (n + 1) ≤
        (addCarry fbase dig (f.digits.take (n + 1))).2 * fbase ^ (n + 1) :=
      Nat.mul_le_mul_right _ (by omega)
    have htwo : 2 * fbase ^ (n + 1) ≤ fbase * fbase ^ (n + 1) :=
      Nat.mul_le_mul_right _ (by decide)
    omega
  · refine ⟨_, ?_, hval⟩
    have hdigits : Flt.digits { f with
        mant := (addCarry fbase dig (f.digits.take (n + 1))).1 ++ f.mant.drop (n + 1) } =
        (addCarry fbase dig (f.digits.take (n + 1))).1 ++ f.digits.drop (n + 1) := by
      show List.take mantSize (_ ++ _) = _ ++ List.drop (n + 1) (List.take mantSize f.mant)
      rw [List.take_append, hr, List.take_of_length_le (by rw [hr, mantSize_eq]; omega),
        List.drop_take]
    refine ⟨?_, ?_, h.exp, h.le, ?_⟩
    · rw [hdigits, List.length_append, hr, List.length_drop, hlen, mantSize_eq]
      omega
    · rw [hdigits]
      exact bounded_append.2 ⟨bounded_addCarry fbase_pos dig _, h.bounded.drop _⟩
    · rw [hdigits, val_append, h.val_drop (by omega), List.length_drop, hlen, mantSize_eq,
        show 8 - (n + 1) = 7 - n by omega, Nat.add_zero]

theorem flptNewdig_sign (dig : Nat) (f : Flt) (base : Nat) :
    (flptNewdig dig f base).sign = if dig ≠ 0 then 1 else f.sign := by
  have hs : (if dig ≠ 0 then { f with sign := 1 } else f).sign =
      if dig ≠ 0 then 1 else f.sign := by
    split <;> rfl
  unfold flptNewdig
  dsimp only
  rw [← hs]
  generalize (if dig ≠ 0 then { f with sign := 1 } else f) = g
  split
  · exact carryOut_sign ..
  · exact (carryOut_sign ..).trans (carryOut_sign ..)

/-- Another digit, whatever the sign says. -/
theorem flptNewdig_point {dig : Nat} (h : f.Point v n) (hbase : 0 < base ∧ base ≤ fbase)
    (hdig : dig < fbase) (hfit : v * base + dig < fbase ^ 8) :
    ∃ m, (flptNewdig dig f base).Point (v * base + dig) m ∧
      (n = 0 ∨ fbase ^ n ≤ v → m = 0 ∨ fbase ^ m ≤ v * base + dig) := by
  obtain ⟨s, hs⟩ : ∃ s, s = if dig ≠ 0 then { f with sign := 1 } else f := ⟨_, rfl⟩
  have hpoint : s.Point v n := by
    rw [hs]
    split
    · exact ⟨h.len, h.bounded, h.exp, h.le, h.val⟩
    · exact h
  obtain ⟨hc, u, hu, hsum⟩ := timesBase_point hpoint hbase.2
  have hbig : v ≤ v * base := Nat.le_mul_of_pos_right _ hbase.1
  obtain ⟨m, hm, hmnorm⟩ := carryOut_point hu hc (by rw [hsum]; omega)
  rw [hsum] at hm hmnorm
  obtain ⟨hc', u', hu', hsum'⟩ := addCarry_point hm hdig
  obtain ⟨m', hm', hmnorm'⟩ := carryOut_point hu' hc' (by rw [hsum']; exact hfit)
  rw [hsum'] at hm' hmnorm'
  have hend : flptNewdig dig f base = carryOut
      (addCarry fbase dig ((carryOut (timesBase base s.digits).2
        (s.store (timesBase base s.digits).1)).mant.take (m + 1))).2
      { carryOut (timesBase base s.digits).2 (s.store (timesBase base s.digits).1) with
        mant := (addCarry fbase dig ((carryOut (timesBase base s.digits).2
          (s.store (timesBase base s.digits).1)).mant.take (m + 1))).1 ++
            (carryOut (timesBase base s.digits).2
              (s.store (timesBase base s.digits).1)).mant.drop (m + 1) } := by
    have hle := hm.le
    rw [flptNewdig, ← hs]
    dsimp only
    rw [if_neg (by rw [hm.exp, mantSize_eq]; omega), hm.exp]
    rfl
  rw [hend]
  refine ⟨m', hm', fun hn => hmnorm' ?_⟩
  rcases hmnorm (hn.imp_right fun hn => by omega) with hm0 | hm0
  · exact .inl hm0
  · exact .inr (by omega)

/-- Another digit, for a number that has some. -/
theorem flptNewdig_is {dig : Nat} (h : f.Is v) (hv : 0 < v) (hbase : 0 < base ∧ base ≤ fbase)
    (hdig : dig < fbase) (hfit : v * base + dig < fbase ^ 8) :
    (flptNewdig dig f base).Is (v * base + dig : Nat) := by
  obtain ⟨n, hn, hexp, hval, hnorm⟩ := h.val (by omega)
  rw [Int.natAbs_natCast] at hval hnorm
  have hpos : 0 < v * base + dig := Nat.add_pos_left (Nat.mul_pos hv hbase.1) dig
  have hsign : f.sign = 1 := by
    rw [h.sign]
    exact Int.sign_eq_one_of_pos (by omega)
  obtain ⟨m, hm, hmnorm⟩ := flptNewdig_point ⟨h.len, h.bounded, hexp, hn, hval⟩ hbase hdig hfit
  refine ⟨hm.len, hm.bounded, ?_, fun _ => ⟨m, hm.le, hm.exp, ?_, ?_⟩⟩
  · rw [flptNewdig_sign, hsign, ite_self]
    exact (Int.sign_eq_one_of_pos (by omega)).symm
  · rw [Int.natAbs_natCast]
    exact hm.val
  · rw [Int.natAbs_natCast]
    rcases hmnorm (.inr hnorm) with rfl | hle
    · rw [pow_zero]
      exact hpos
    · exact hle

/-! ## A small number as a number of the pool -/

theorem floatrepFlt_is (n : BitVec 32) (hn : n ≠ 0) (fr : Flt) :
    (Pool.floatrepFlt n 1 fr).Is n.toNat := by
  have hlt := n.isLt
  have hpos : n.toNat ≠ 0 := fun h => hn (BitVec.eq_of_toNat_eq h)
  have hhigh : (n >>> (1 * 16) &&& 0xffff).toNat = n.toNat / 65536 := by
    rw [and_ffff_toNat, Nat.one_mul, shiftRight16_toNat]
    exact Nat.mod_eq_of_lt (by omega)
  have hlow : (n >>> (0 * 16) &&& 0xffff).toNat = n.toNat % 65536 := by
    rw [and_ffff_toNat, Nat.zero_mul, BitVec.ushiftRight_zero]
  have hsign : (1 : Int) = (n.toNat : Int).sign := (Int.sign_eq_one_of_pos (by omega)).symm
  have hmod := Nat.mod_lt n.toNat fbase_pos
  have hbase : fbase = 65536 := rfl
  unfold Pool.floatrepFlt
  simp only
  rw [if_neg hn, hhigh, hlow]
  split
  · refine Flt.is_store_zero fr (n := 1) rfl (by decide) ?_ hsign ?_ ?_
    · exact bounded_cons.2 ⟨by omega, bounded_cons.2 ⟨hmod, bounded_nil⟩⟩
    · rw [val_two, Int.natAbs_natCast]
      exact Nat.div_add_mod' ..
    · rw [Int.natAbs_natCast, pow_one]
      omega
  · refine Flt.is_store_zero fr (n := 0) rfl (by decide) ?_ hsign ?_ ?_
    · exact bounded_cons.2 ⟨hmod, bounded_nil⟩
    · rw [val_one, Int.natAbs_natCast]
      omega
    · rw [Int.natAbs_natCast, pow_zero]
      omega

/-! ## Packets -/

namespace Basicread

open Tendra.Bits Reader

open Bitstream (octal tdfInt)

variable {little : Bool} {w : Nat} {wide : Nat → Nat → Nat} {file : List (BitVec 8)}

/-- The reader has the bits `xs` behind it. -/
def Past (file : List (BitVec 8)) (s : Reader) (t : Spot) (xs : List Bool) : Prop :=
  ∃ k, At file k s { t with pos := t.pos + xs.length }

theorem Spot.rest_append {xs ys : List Bool} (h : xs ++ ys <+: t.rest file) :
    ys <+: ({ t with pos := t.pos + xs.length } : Spot).rest file := by
  obtain ⟨zs, hzs⟩ := h
  refine ⟨zs, ?_⟩
  have hdrop := congrArg (List.drop xs.length) hzs
  rw [List.append_assoc, List.drop_left, Spot.rest, List.drop_drop] at hdrop
  exact hdrop

theorem Past.append {xs ys : List Bool} (h : Past file s { t with pos := t.pos + xs.length } ys) :
    Past file s t (xs ++ ys) := by
  obtain ⟨k, hk⟩ := h
  refine ⟨k, ?_⟩
  rw [List.length_append, ← Nat.add_assoc]
  exact hk

/-- A call of `getcode` gives a packet back. -/
theorem getcode_packet (hw : 32 ≤ w) {k : Nat} (h : At file k s t) {n v : Nat} (hn : 1 ≤ n ∧ n ≤ 16)
    (hv : v < 2 ^ n) (hbits : lowBits n v <+: t.rest file) :
    ∃ code, getcode little w wide n s = some code ∧ code.value = v ∧
      Past file code.next t (lowBits n v) := by
  have hlen := hbits.length_le
  have hle := h.ok.pos_le
  have hlimit := h.ok.limit_le
  rw [length_lowBits, Spot.rest, List.length_drop, List.length_take, length_ofBytes] at hlen
  obtain ⟨code, hcode, hlt, hlow, _, hat⟩ :=
    getcode_spec little hw wide h (n := n) (by omega) (by omega) (by omega)
  refine ⟨code, hcode, lowBits_inj hlt hv (hlow.trans ?_), ⟨_, by rw [length_lowBits]; exact hat⟩⟩
  have htake := List.prefix_iff_eq_take.1 hbits
  rw [length_lowBits, Spot.rest, List.drop_take, List.take_take,
    Nat.min_eq_left (by omega)] at htake
  exact htake.symm

/-! ## `enc_extn` and `get_big_code` -/

/-- The packets of `enc_extn`: one of zeros for each multiple of the greatest packet. -/
def extnBits (n d : Nat) : List Bool :=
  if 1 ≤ n ∧ 2 ^ n - 1 < d then lowBits n 0 ++ extnBits n (d - (2 ^ n - 1))
  else lowBits n d
termination_by d
decreasing_by
  rename_i hmore
  have hpow : 2 ^ 1 ≤ 2 ^ n := Nat.pow_le_pow_right (by decide) hmore.1
  omega

theorem encExtn_appends (hw : 32 ≤ w) (junk : Nat → Text) {n : Nat} (hn : 1 ≤ n ∧ n ≤ 16)
    (d : Nat) : ∀ {bs : Bitstream}, bs.Ok →
    Bitstream.Appends (bs.encExtn w junk n d) bs (extnBits n d) := by
  have hpow : 2 ^ 1 ≤ 2 ^ n := Nat.pow_le_pow_right (by decide) hn.1
  induction d using Nat.strong_induction_on with
  | _ d ih =>
      intro bs h
      rw [Bitstream.encExtn, extnBits, Nat.one_shiftLeft]
      by_cases hmore : 2 ^ n - 1 < d
      · rw [dif_pos hmore, dif_neg (by omega), if_pos ⟨hn.1, hmore⟩]
        exact (Bitstream.encBits_appends w junk hw h hn.2 (by omega)).bind fun bs1 hok _ _ =>
          ih _ (by omega) hok
      · rw [dif_neg hmore, if_neg (by omega)]
        exact Bitstream.encBits_appends w junk hw h hn.2 (by omega)

theorem bigCodes_spec (hw : 32 ≤ w) {n : Nat} (hn : 1 ≤ n ∧ n ≤ 16) (d : Nat) :
    ∀ (fuel : Nat) (res : Int) {k : Nat} {s : Reader} {t : Spot}, 1 ≤ d → At file k s t →
      extnBits n d <+: t.rest file → (extnBits n d).length ≤ fuel →
      ∃ s', bigCodes little w wide n fuel res s = some (int (res + d), s') ∧
        Past file s' t (extnBits n d) := by
  have hpow : 2 ^ 1 ≤ 2 ^ n := Nat.pow_le_pow_right (by decide) hn.1
  induction d using Nat.strong_induction_on with
  | _ d ih =>
      intro fuel res k s t hd hs hbits hfuel
      rw [extnBits] at hbits hfuel ⊢
      by_cases hmore : 2 ^ n - 1 < d
      · rw [if_pos ⟨hn.1, hmore⟩] at hbits hfuel ⊢
        rw [List.length_append, length_lowBits] at hfuel
        obtain ⟨fuel, rfl⟩ : ∃ m, fuel = m + 1 := ⟨fuel - 1, by omega⟩
        obtain ⟨code, hcode, hval, k', hat⟩ := getcode_packet hw hs hn (by omega)
          ((List.prefix_append ..).trans hbits)
        obtain ⟨s', hrun, hpast⟩ := ih (d - (2 ^ n - 1)) (by omega) fuel
          (int (res + lsbMask n)) (by omega) hat (Spot.rest_append hbits) (by omega)
        refine ⟨s', ?_, hpast.append⟩
        rw [bigCodes, hcode]
        simp only [Option.bind_eq_bind, Option.bind_some]
        rw [if_pos hval, hrun, int_int_add, lsbMask]
        congr 3
        omega
      · rw [if_neg (by omega)] at hbits hfuel ⊢
        rw [length_lowBits] at hfuel
        obtain ⟨fuel, rfl⟩ : ∃ m, fuel = m + 1 := ⟨fuel - 1, by omega⟩
        obtain ⟨code, hcode, hval, hpast⟩ := getcode_packet hw hs hn (by omega) hbits
        refine ⟨code.next, ?_, hpast⟩
        rw [bigCodes, hcode]
        simp only [Option.bind_eq_bind, Option.bind_some]
        rw [if_neg (by omega), hval]

/-! ## `enc_int` and `d_tdfint` -/

/-- The number of the digits read so far; once it is in the pool, in an entry of its own. -/
def DigitState.Holds (p : Pool) (v : DigitState) (n : Nat) : Prop :=
  match v.f with
  | none => v.total = n ∧ n < 2 ^ 32 ∧ v.pool = p
  | some f => 2 ^ 32 ≤ n ∧ p.Took v.pool f ∧ (v.pool.nos f).Is n

theorem DigitState.add_holds (hp : p.Ok) (fr : Flt) {v : DigitState} {n digit : Nat}
    (h : v.Holds p n) (hdigit : digit < 8) (hfit : n * 8 + digit < 2 ^ 64) :
    (v.add fr digit).Holds p (n * 8 + digit) := by
  have hnew : ∀ {q : Flt}, q.Is n → 0 < n → (flptNewdig digit q 8).Is (n * 8 + digit : Nat) := by
    intro q hq hn
    have hsmall : 2 ^ 64 ≤ fbase ^ 8 := by decide
    exact flptNewdig_is hq hn (by decide) (hdigit.trans (by decide)) (by omega)
  obtain ⟨total, f, pool⟩ := v
  cases f with
  | none =>
      obtain ⟨htotal, hlt, hpool⟩ := h
      simp only at htotal hpool
      simp only [DigitState.add]
      split
      · rename_i hbig
        have hnat : (BitVec.ofNat 32 total).toNat = n := by
          rw [BitVec.toNat_ofNat, htotal]
          exact Nat.mod_eq_of_lt hlt
        have hne : BitVec.ofNat 32 total ≠ 0 := by
          intro hzero
          rw [hzero] at hnat
          exact absurd hnat (by simp; omega)
        have hflt := floatrepFlt_is _ hne fr
        rw [hnat] at hflt
        have htook := ((Pool.new_took hp).set
          (Pool.floatrepFlt (BitVec.ofNat 32 total) 1 fr)).set
          (flptNewdig digit (Pool.floatrepFlt (BitVec.ofNat 32 total) 1 fr) 8)
        refine ⟨by omega, ?_, ?_⟩
        · simp only [Pool.floatrepUnsigned, Pool.floatrepAux, Pool.set_nos_self, hpool]
          exact htook
        · simp only [Pool.floatrepUnsigned, Pool.floatrepAux, Pool.set_nos_self]
          exact hnew hflt (by omega)
      · rename_i hsmall
        refine ⟨?_, by omega, hpool⟩
        show (total <<< 3 + digit) % 2 ^ 32 = _
        rw [Nat.shiftLeft_eq, htotal]
        exact Nat.mod_eq_of_lt (by omega)
  | some f =>
      obtain ⟨hbig, htook, hflt⟩ := h
      refine ⟨by omega, htook.set _, ?_⟩
      show ((Pool.set pool f _).nos f).Is _
      rw [Pool.set_nos_self]
      exact hnew hflt (by omega)

/-- One turn of the loop of `d_tdfint`. -/
theorem tdfDigits_succ (hw : 32 ≤ w) (fr : Flt) (fuel : Nat) {x k : Nat} (v : DigitState)
    (hs : At file k s t) (hx : x < 2 ^ 4) (hbits : lowBits 4 x <+: t.rest file) :
    ∃ s', tdfDigits little w wide fr (fuel + 1) v s =
        (if x ≥ 8 then some (v.add fr (x - 8), s')
          else tdfDigits little w wide fr fuel (v.add fr x) s') ∧
      Past file s' t (lowBits 4 x) := by
  obtain ⟨code, hcode, hval, hpast⟩ := getcode_packet hw hs (by decide) hx hbits
  refine ⟨code.next, ?_, hpast⟩
  rw [tdfDigits, hcode]
  simp only [Option.bind_eq_bind, Option.bind_some]
  rw [hval]

theorem DigitState.holds_zero (p : Pool) : (⟨0, none, p⟩ : DigitState).Holds p 0 :=
  ⟨rfl, by decide, rfl⟩

/-- The digits before the last one, from the first on. -/
theorem tdfDigits_octal (hw : 32 ≤ w) (hp : p.Ok) (fr : Flt) (n : Nat) :
    ∀ (fuel : Nat) {k : Nat} {s : Reader} {t : Spot}, n < 2 ^ 64 → At file k s t →
      (octal n).flatMap (lowBits 4) <+: t.rest file →
      ∃ v s', tdfDigits little w wide fr (fuel + (octal n).length) ⟨0, none, p⟩ s =
          tdfDigits little w wide fr fuel v s' ∧
        v.Holds p n ∧ Past file s' t ((octal n).flatMap (lowBits 4)) := by
  induction n using Nat.strong_induction_on with
  | _ n ih =>
      intro fuel k s t hn hs hbits
      by_cases hlarge : 8 ≤ n
      · rw [Bitstream.octal_large hlarge, List.flatMap_append, List.flatMap_singleton] at hbits ⊢
        rw [List.length_append, List.length_singleton, ← Nat.add_assoc, Nat.add_right_comm]
        obtain ⟨v, s1, hrun, hv, k1, hs1⟩ := ih (n / 8) (by omega) (fuel + 1) (by omega) hs
          ((List.prefix_append ..).trans hbits)
        obtain ⟨s2, hrun', hs2⟩ := tdfDigits_succ hw fr fuel v hs1 (by omega)
          (Spot.rest_append hbits)
        rw [if_neg (by omega)] at hrun'
        have hv' := DigitState.add_holds hp fr hv (Nat.mod_lt n (by decide)) (by omega)
        rw [Nat.div_add_mod'] at hv'
        exact ⟨_, s2, hrun.trans hrun', hv', hs2.append⟩
      · rw [Bitstream.octal_small (by omega), List.flatMap_singleton] at hbits ⊢
        obtain ⟨s', hrun, hs'⟩ := tdfDigits_succ hw fr fuel ⟨0, none, p⟩ hs (by omega) hbits
        rw [if_neg (by omega)] at hrun
        have hv := DigitState.add_holds hp fr (DigitState.holds_zero p) (by omega : n < 8)
          (by omega)
        rw [Nat.zero_mul, Nat.zero_add] at hv
        exact ⟨_, s', hrun, hv, hs'⟩

theorem length_flatMap_lowBits (n : Nat) (xs : List Nat) :
    (xs.flatMap (lowBits n)).length = n * xs.length := by
  induction xs with
  | nil => rfl
  | cons x xs ih =>
      rw [List.flatMap_cons, List.length_append, length_lowBits, ih, List.length_cons]
      ring

/-- What `d_tdfint` returns for a number, with the pool as it was and as it is left. -/
def TdfNat.Is (p p' : Pool) (n : TdfNat) (v : Nat) : Prop :=
  match n with
  | .natint i => v < 2 ^ 32 ∧ (BitVec.ofInt 32 i).toNat = v
  | .natbig f => 2 ^ 32 ≤ v ∧ p.Took p' f ∧ (p'.nos f).Is v

theorem DigitState.Holds.nat_is {v : DigitState} {n : Nat} (h : v.Holds p n) :
    v.nat.Is p v.pool n := by
  obtain ⟨total, f, pool⟩ := v
  cases f with
  | none =>
      obtain ⟨htotal, hlt, _⟩ := h
      simp only at htotal
      refine ⟨hlt, ?_⟩
      show (BitVec.ofInt 32 (int total)).toNat = n
      rw [htotal, BitVec.toNat_ofInt, int, Int.bmod_emod]
      omega
  | some f => exact h

/-- `d_tdfint` on the bits of a number. -/
theorem dTdfint_spec (hw : 32 ≤ w) (hp : p.Ok) (fr : Flt) {n fuel k : Nat} (hn : n < 2 ^ 64)
    (hs : At file k s t) (hbits : tdfInt n <+: t.rest file) (hfuel : (tdfInt n).length ≤ fuel) :
    ∃ v p' s', dTdfint little w wide fr fuel p s = some (v, p', s') ∧ v.Is p p' n ∧
      Past file s' t (tdfInt n) := by
  by_cases hlarge : 8 ≤ n
  · rw [Bitstream.tdfInt_large hlarge] at hbits hfuel ⊢
    rw [List.length_append, length_lowBits, length_flatMap_lowBits] at hfuel
    obtain ⟨m, rfl⟩ : ∃ m, fuel = m + 1 + (octal (n / 8)).length :=
      ⟨fuel - 1 - (octal (n / 8)).length, by omega⟩
    obtain ⟨v, s1, hrun, hv, k1, hs1⟩ := tdfDigits_octal hw hp fr (n / 8) (m + 1) (by omega) hs
      ((List.prefix_append ..).trans hbits)
    obtain ⟨s2, hrun', hs2⟩ := tdfDigits_succ hw fr m v hs1 (by omega) (Spot.rest_append hbits)
    rw [if_pos (by omega), Nat.add_sub_cancel_left] at hrun'
    have hv' := DigitState.add_holds hp fr hv (Nat.mod_lt n (by decide)) (by omega)
    rw [Nat.div_add_mod'] at hv'
    refine ⟨_, _, s2, ?_, hv'.nat_is, hs2.append⟩
    rw [dTdfint, hrun, hrun']
    rfl
  · rw [Bitstream.tdfInt_small (by omega)] at hbits hfuel ⊢
    rw [length_lowBits] at hfuel
    obtain ⟨m, rfl⟩ : ∃ m, fuel = m + 1 := ⟨fuel - 1, by omega⟩
    obtain ⟨s', hrun, hs'⟩ := tdfDigits_succ hw fr m ⟨0, none, p⟩ hs (by omega) hbits
    rw [if_pos (by omega), Nat.add_sub_cancel_left] at hrun
    have hv := DigitState.add_holds hp fr (DigitState.holds_zero p) (by omega : n < 8) (by omega)
    rw [Nat.zero_mul, Nat.zero_add] at hv
    refine ⟨_, _, s', ?_, hv.nat_is, hs'⟩
    rw [dTdfint, hrun]
    rfl

/-- What one call appends, another run of it appends too. -/
theorem appends_unique {r : Option Bitstream} {bs : Bitstream} {xs ys : List Bool}
    (h1 : Bitstream.Appends r bs xs) (h2 : Bitstream.Appends r bs ys) : xs = ys := by
  obtain ⟨bs1, hrun1, _, _, hseq1⟩ := h1
  obtain ⟨bs2, hrun2, _, _, hseq2⟩ := h2
  obtain rfl := Option.some.inj (hrun1.symm.trans hrun2)
  exact List.append_cancel_left (hseq1.symm.trans hseq2)

/-- An `int` with the bits of an `unsigned`. -/
theorem int_of_unsigned {d : Nat} (hd : d < 2 ^ 32) :
    int d = if d < 2 ^ 31 then (d : Int) else d - 2 ^ 32 := by
  by_cases hsmall : d < 2 ^ 31
  · rw [if_pos hsmall, int_eq (by omega) (by omega)]
  · rw [if_neg hsmall, int, Int.bmod_def, if_neg (by omega),
      Int.emod_eq_of_lt (by omega) (by omega)]
    rfl

/-- Where the file goes on with the packets of `enc_extn` or the digits of `enc_int`, the installer
reads the number and is behind them. `get_big_code` returns an `int`. -/
theorem reads_written (hw : 32 ≤ w) (junk : Nat → Text) {bs : Bitstream} (hbs : bs.Ok) {k : Nat}
    {s : Reader} {t : Spot} (hs : At file k s t) :
    (∀ n d : Nat, 1 ≤ n ∧ n ≤ 16 → 1 ≤ d ∧ d < 2 ^ 32 →
      ∃ xs, Bitstream.Appends (bs.encExtn w junk n d) bs xs ∧
        (xs <+: t.rest file → ∀ fuel ≥ xs.length,
          ∃ s', getBigCode little w wide fuel n s =
              some (if d < 2 ^ 31 then (d : Int) else d - 2 ^ 32, s') ∧
            Past file s' t xs)) ∧
    ∀ n : Nat, n < 2 ^ 64 →
      ∃ xs, Bitstream.Appends (bs.encInt w junk n) bs xs ∧
        (xs <+: t.rest file → ∀ (p : Pool) (fr : Flt), p.Ok → ∀ fuel ≥ xs.length,
          ∃ v p' s', dTdfint little w wide fr fuel p s = some (v, p', s') ∧ v.Is p p' n ∧
            Past file s' t xs) := by
  constructor
  · intro n d hn hd
    refine ⟨extnBits n d, encExtn_appends hw junk hn d hbs, fun hbits fuel hfuel => ?_⟩
    obtain ⟨s', hrun, hs'⟩ := bigCodes_spec hw hn d fuel 0 hd.1 hs hbits hfuel
    refine ⟨s', ?_, hs'⟩
    rw [getBigCode, hrun, Int.zero_add, int_of_unsigned hd.2]
  · intro n hn
    exact ⟨tdfInt n, Bitstream.encInt_appends w junk hw hbs n, fun hbits p fr hp fuel hfuel =>
      dTdfint_spec hw hp fr hn hs hbits hfuel⟩

theorem reads_written_byte : ∃ r, initreader [0x99] = some r ∧
    (∃ s', getBigCode true 32 (fun _ _ => 0) 1 1 r = some (1, s')) ∧
    ∃ v p' s', dTdfint true 32 (fun _ _ => 0) ⟨[], 0, 0⟩ 4 (Pool.init fun _ => ⟨[], 0, 0⟩) r =
      some (v, p', s') ∧ v.Is (Pool.init fun _ => ⟨[], 0, 0⟩) p' 1 := by
  obtain ⟨r, hr⟩ : ∃ r, initreader [0x99] = some r := ⟨_, rfl⟩
  have hok : (Bitstream.start (Vector.replicate 64 0) none none).Ok := Bitstream.start_ok ..
  obtain ⟨hextn, hint⟩ := @reads_written true 32 (fun _ _ => 0) _ (by decide)
    (fun _ => Vector.replicate 64 0) _ hok _ _ _ (start_spec hr)
  obtain ⟨xs, happ, hread⟩ := hextn 1 1 (by decide) (by decide)
  obtain ⟨ys, happ', hread'⟩ := hint 1 (by decide)
  obtain rfl := appends_unique happ
    (encExtn_appends (by decide) (fun _ => Vector.replicate 64 0) (by decide) 1 hok)
  obtain rfl := appends_unique happ'
    (Bitstream.encInt_appends 32 (fun _ => Vector.replicate 64 0) (by decide) hok 1)
  have hbits1 : extnBits 1 1 = [true] := by
    rw [extnBits, if_neg (by decide)]
    rfl
  have hbits2 : tdfInt 1 = [true, false, false, true] := by
    rw [Bitstream.tdfInt_small (by decide)]
    rfl
  obtain ⟨s1, hrun1, _⟩ := hread (by rw [hbits1]; decide) 1 (by rw [hbits1]; decide)
  obtain ⟨v, p', s2, hrun2, hv, _⟩ := hread' (by rw [hbits2]; decide) _ ⟨[], 0, 0⟩
    (Pool.init_ok _) 4 (by rw [hbits2]; decide)
  exact ⟨r, hr, ⟨s1, hrun1⟩, v, p', s2, hrun2, hv⟩

/-- A number of many packets of 16 bits. -/
theorem extnBits_many (c : Nat) {r : Nat} (hr : 1 ≤ r ∧ r ≤ 65535) :
    extnBits 16 (65535 * c + r) = ofBytes (List.replicate (2 * c) 0) ++ lowBits 16 r := by
  induction c with
  | zero => rw [extnBits, if_neg (by omega), Nat.mul_zero, Nat.zero_add]; rfl
  | succ c ih =>
      have hzero : lowBits 16 0 = ofBytes [0, 0] := by decide
      rw [extnBits, if_pos (by omega), show 65535 * (c + 1) + r - (2 ^ 16 - 1) = 65535 * c + r by
        omega, ih, hzero, ← List.append_assoc, ← ofBytes_append, Nat.mul_succ, Nat.add_comm,
        List.replicate_add]
      rfl

/-- The `int` that `get_big_code` returns for a number of 32 bits is negative. -/
theorem not_reads_written : ¬∀ (w : Nat) (junk : Nat → Text) (bs : Bitstream) (little : Bool)
    (wide : Nat → Nat → Nat) (file : List (BitVec 8)) (k : Nat) (s : Reader) (t : Spot)
    (n d : Nat), 32 ≤ w → bs.Ok → At file k s t → 1 ≤ n ∧ n ≤ 16 → 1 ≤ d ∧ d < 2 ^ 32 →
    ∃ xs, Bitstream.Appends (bs.encExtn w junk n d) bs xs ∧
      (xs <+: t.rest file → ∀ fuel ≥ xs.length,
        ∃ s', getBigCode little w wide fuel n s = some ((d : Int), s') ∧ Past file s' t xs) := by
  intro h
  have hok : (Bitstream.start (Vector.replicate 64 0) none none).Ok := Bitstream.start_ok ..
  -- the file is kept abstract: it has 65538 bytes
  obtain ⟨file, hext, hlen⟩ : ∃ file : List (BitVec 8), extnBits 16 (2 ^ 31) = ofBytes file ∧
      (file.take cppkt).length ≠ 0 := by
    refine ⟨List.replicate (2 * 32768) 0 ++ [0x80, 0], ?_, ?_⟩
    · have hbytes : lowBits 16 32768 = ofBytes [0x80, 0] := by decide
      rw [show 2 ^ 31 = 65535 * 32768 + 32768 by decide, extnBits_many _ (by decide),
        ofBytes_append, hbytes]
    · rw [List.length_take, List.length_append, List.length_replicate]
      decide
  obtain ⟨r, hr⟩ : ∃ r, initreader file = some r := by
    rw [initreader, readLine, if_neg fun h => hlen h.1]
    exact ⟨_, rfl⟩
  have hat := start_spec hr
  obtain ⟨xs, happ, hread⟩ := h 32 (fun _ => Vector.replicate 64 0) _ true (fun _ _ => 0) _ 0 r _ 16
    (2 ^ 31) (by decide) hok hat (by decide) (by decide)
  obtain rfl := appends_unique happ
    (encExtn_appends (by decide) (fun _ => Vector.replicate 64 0) (by decide) (2 ^ 31) hok)
  have hbits : extnBits 16 (2 ^ 31) <+: Spot.rest file ⟨none, 0, 8 * file.length⟩ := by
    rw [hext, Spot.rest, List.drop_zero, List.take_of_length_le (by rw [length_ofBytes])]
  obtain ⟨s1, hres1, _⟩ := hread hbits _ le_rfl
  obtain ⟨s2, hres2, _⟩ := @bigCodes_spec true 32 (fun _ _ => 0) _ (by decide) 16 (by decide)
    (2 ^ 31) _ 0 _ _ _ (by decide) hat hbits le_rfl
  have hval := (Prod.mk.inj (Option.some.inj (hres1.symm.trans hres2))).1
  exact absurd hval (by decide)

end Basicread

end Tendra.Ref
