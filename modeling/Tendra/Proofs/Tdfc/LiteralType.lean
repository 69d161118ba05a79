import Tendra.Proofs.Tdfc.Range
import Tendra.Ref.Tdfc.LiteralExp

/-!
# The type of an integer literal on every target

A target gives each type a size between its least and its greatest size. `check_nat_range` tells
for a type whether a value fits on all targets, on some of them or on none, and the loop over a
list of types keeps those where it may fit, until it fits for certain. So the first type in which
the value fits is kept, whatever the target.

The flag `fit` is not as good: where the list does not end with a type, the value is checked
against `unsigned long` last, which need not be a type of the list.
-/

namespace Tendra.Ref.Tdfc.Literal

open Tendra NatConst

section

variable {T I : Type} {w : Word} {ty : Tables T I} {cls : T → SignClass} {lit : NatConst}
variable {t : T} {ts : List T} {size : T → Nat} {st : Search T}
  {base : Base} {suff : Suffix} {opt : Opt} {fin : Option T}

/-! ## Types and targets -/

/-- All types are basic ones, of a known sign class. -/
structure Basic (ty : Tables T I) (cls : T → SignClass) : Prop where
  sign : ∀ t, (ty.size t).sign = (cls t).sign
  one_le : ∀ t, 1 ≤ (ty.size t).sz
  le : ∀ t, (ty.size t).sz ≤ (ty.size t).msz
  le_max : ∀ t, (ty.size t).msz ≤ ty.maxBits
  cases : ∀ t, ty.cases t = [t]
  isInteger : ∀ t, ty.isInteger t = true
  isArgPromote : ∀ t, ty.isArgPromote t = true

/-- A target gives each type a size between its least and its greatest size. -/
def IsTarget (ty : Tables T I) (size : T → Nat) : Prop :=
  ∀ t, (ty.size t).sz ≤ size t ∧ size t ≤ (ty.size t).msz

/-- The value fits in the type on the target. -/
def FitsOn (cls : T → SignClass) (size : T → Nat) (lit : NatConst) (t : T) : Prop :=
  (cls t).Fits (size t) lit.toInt

/-- The first type of the list in which the value fits on the target. -/
def FirstFit (cls : T → SignClass) (size : T → Nat) (lit : NatConst) (l : List T) (t : T) : Prop :=
  ∃ a b, l = a ++ t :: b ∧ FitsOn cls size lit t ∧ ∀ s ∈ a, ¬FitsOn cls size lit s

/-- The value fits in the type on every target. -/
def Certain (ty : Tables T I) (cls : T → SignClass) (lit : NatConst) (t : T) : Prop :=
  FitsOn cls (fun t => (ty.size t).sz) lit t

/-- The value fits in the type on some target. -/
def Possible (ty : Tables T I) (cls : T → SignClass) (lit : NatConst) (t : T) : Prop :=
  FitsOn cls (fun t => (ty.size t).msz) lit t

theorem isTarget_least (hb : Basic ty cls) : IsTarget ty fun t => (ty.size t).sz :=
  fun t => ⟨Nat.le_refl _, hb.le t⟩

theorem takes_mono {s : SignClass} {k k' bits : Nat} {z : Int} (hz : 0 ≤ z) (hk : k ≤ k')
    (h : s.Takes k bits z) : s.Takes k' bits z := by
  cases s with
  | unsigned => exact ⟨hz, Nat.le_trans h.2 hk⟩
  | symmetric => exact Nat.lt_of_lt_of_le h hk
  | asymmetric =>
      cases h with
      | inl h => exact .inl (Nat.lt_of_lt_of_le h hk)
      | inr h => exact absurd h.2.1 (Int.not_lt.2 hz)

theorem fitsOn_iff (hb : Basic ty cls) (hsize : IsTarget ty size) (t : T) :
    FitsOn cls size lit t ↔ (cls t).Takes (size t) (Nat.size lit.toInt.natAbs) lit.toInt :=
  SignClass.fits_iff _ (Nat.le_trans (hb.one_le t) (hsize t).1) _

theorem isTarget_greatest (hb : Basic ty cls) : IsTarget ty fun t => (ty.size t).msz :=
  fun t => ⟨hb.le t, Nat.le_refl _⟩

theorem toInt_nonneg (hn : lit.Magnitude) : 0 ≤ lit.toInt := by
  rw [hn.toInt_eq]
  exact Int.natCast_nonneg _

theorem Certain.fitsOn (hb : Basic ty cls) (hn : lit.Magnitude) (h : Certain ty cls lit t)
    (hsize : IsTarget ty size) : FitsOn cls size lit t := by
  rw [Certain, fitsOn_iff hb (isTarget_least hb)] at h
  rw [fitsOn_iff hb hsize]
  exact takes_mono (toInt_nonneg hn) (hsize t).1 h

theorem possible_of_fitsOn (hb : Basic ty cls) (hn : lit.Magnitude) (hsize : IsTarget ty size)
    (h : FitsOn cls size lit t) : Possible ty cls lit t := by
  rw [fitsOn_iff hb hsize] at h
  rw [Possible, fitsOn_iff hb (isTarget_greatest hb)]
  exact takes_mono (toInt_nonneg hn) (hsize t).2 h

theorem Possible.le (hb : Basic ty cls) (h : Possible ty cls lit t) :
    Nat.size lit.toInt.natAbs ≤ (ty.size t).msz := by
  rw [Possible, fitsOn_iff hb (isTarget_greatest hb)] at h
  exact h.le

/-! ## Verdicts -/

/-- The verdict on the value. -/
abbrev verdict (ty : Tables T I) (lit : NatConst) (t : T) : Nat :=
  checkSimpleRange ty.maxBits ty.size t lit

theorem verdict_zero (hb : Basic ty cls) (hn : lit.Magnitude) (t : T) :
    verdict ty lit t = 0 ↔
      (cls t).Takes (ty.size t).sz (countBits lit.toInt) lit.toInt := by
  rw [(checkSimpleRange_spec ty.maxBits (hb.sign t) hn.canonical).1]
  refine and_iff_right_of_imp fun h => ?_
  exact Nat.le_trans h.le (Nat.le_trans (hb.le t) (hb.le_max t))

theorem verdict_large (hb : Basic ty cls) (hn : lit.Magnitude) (t : T) :
    5 ≤ verdict ty lit t ↔ ty.maxBits < countBits lit.toInt :=
  (checkSimpleRange_spec ty.maxBits (hb.sign t) hn.canonical).2.2

/-- The number of bits is not too large to be counted. -/
def Counted (lit : NatConst) : Prop := Nat.size lit.toInt.natAbs < 2 ^ 32

theorem verdict_certain (hb : Basic ty cls) (hn : lit.Magnitude) (hsmall : Counted lit) (t : T) :
    verdict ty lit t = 0 ↔ Certain ty cls lit t := by
  rw [verdict_zero hb hn, countBits_eq hsmall, Certain, fitsOn_iff hb (isTarget_least hb)]

theorem verdict_possible (hb : Basic ty cls) (hn : lit.Magnitude) (hsmall : Counted lit) (t : T) :
    verdict ty lit t ≤ 2 ↔ Possible ty cls lit t := by
  obtain ⟨h0, h34, h5⟩ := checkSimpleRange_spec ty.maxBits (hb.sign t) hn.canonical
  have hz := toInt_nonneg hn
  rw [countBits_eq hsmall] at h0 h34 h5
  change checkSimpleRange ty.maxBits ty.size t lit ≤ 2 ↔ _
  rw [Possible, fitsOn_iff hb (isTarget_greatest hb)]
  have hmax := hb.le_max t
  have hle := hb.le t
  have hrefuses : (cls t).Refuses (ty.size t).msz (Nat.size lit.toInt.natAbs) lit.toInt ↔
      ¬(cls t).Takes (ty.size t).msz (Nat.size lit.toInt.natAbs) lit.toInt := by
    cases cls t with
    | unsigned => simp only [SignClass.Refuses, SignClass.Takes]; omega
    | symmetric => simp only [SignClass.Refuses, SignClass.Takes]; omega
    | asymmetric => simp only [SignClass.Refuses, SignClass.Takes]; omega
  constructor
  · intro h
    by_contra hnot
    have hnot5 : ¬ty.maxBits < Nat.size lit.toInt.natAbs := fun hl => by
      have := h5.2 hl
      omega
    have := h34.2 ⟨Nat.not_lt.1 hnot5, fun ht => hnot (takes_mono hz hle ht), hrefuses.2 hnot⟩
    omega
  · intro htakes
    have h5' : ¬ty.maxBits < Nat.size lit.toInt.natAbs :=
      Nat.not_lt.2 (Nat.le_trans htakes.le hmax)
    have h34' := mt h34.1 fun h => hrefuses.1 h.2.2 htakes
    rw [← h5] at h5'
    omega

/-! ## The types that are kept -/

/-- The types that the loop keeps. -/
def keptTypes (ty : Tables T I) (lit : NatConst) : List T → Option T → List T
  | [], fin => fin.toList
  | t :: ts, fin =>
      if verdict ty lit t = 0 then [t]
      else if verdict ty lit t ≤ 2 then t :: keptTypes ty lit ts fin
      else keptTypes ty lit ts fin

theorem mem_kept : ∀ {a b : List T},
    ts ++ fin.toList = a ++ t :: b → (∀ s ∈ a, verdict ty lit s ≠ 0) → verdict ty lit t ≤ 2 →
    t ∈ keptTypes ty lit ts fin := by
  induction ts with
  | nil =>
      intro a b hl _ _
      rw [List.nil_append] at hl
      rw [keptTypes, hl]
      simp
  | cons s ts ih =>
      intro a b hl ha ht
      cases a with
      | nil =>
          obtain rfl : s = t := (List.cons.inj hl).1
          rw [keptTypes]
          split
          · exact List.mem_singleton.2 rfl
          · exact List.mem_cons_self
      | cons s' a =>
          obtain ⟨rfl, htail⟩ := List.cons.inj hl
          obtain ⟨hs, ha⟩ := List.forall_mem_cons.1 ha
          have hmem := ih htail ha ht
          rw [keptTypes, if_neg hs]
          split
          · exact List.mem_cons_of_mem _ hmem
          · exact hmem

theorem exists_kept (h : ∃ t ∈ ts ++ fin.toList, verdict ty lit t = 0) :
    ∃ t ∈ keptTypes ty lit ts fin, verdict ty lit t = 0 := by
  induction ts with
  | nil => exact h
  | cons s ts ih =>
      rw [keptTypes]
      by_cases hs : verdict ty lit s = 0
      · rw [if_pos hs]
        exact ⟨s, List.mem_singleton.2 rfl, hs⟩
      · obtain ⟨t, ht, hzero⟩ := h
        have hmem := (List.mem_cons.1 ht).resolve_left fun hts => hs (hts ▸ hzero)
        obtain ⟨t', hkept, hzero'⟩ := ih ⟨t, hmem, hzero⟩
        rw [if_neg hs]
        split
        · exact ⟨t', List.mem_cons_of_mem _ hkept, hzero'⟩
        · exact ⟨t', hkept, hzero'⟩

theorem kept_subset (h : t ∈ keptTypes ty lit ts none) : t ∈ ts := by
  induction ts with
  | nil => exact h
  | cons s ts ih =>
      rw [keptTypes] at h
      split at h
      · exact List.mem_cons.2 (.inl (List.mem_singleton.1 h))
      · split at h
        · exact List.mem_cons.2 ((List.mem_cons.1 h).imp_right ih)
        · exact List.mem_cons_of_mem _ (ih h)

theorem kept_eq_nil : keptTypes ty lit ts none = [] ↔ ∀ t ∈ ts, 2 < verdict ty lit t := by
  induction ts with
  | nil => simp [keptTypes]
  | cons s ts ih =>
      rw [keptTypes, List.forall_mem_cons, ← ih]
      by_cases hs : verdict ty lit s ≤ 2
      · have hnot : ¬2 < verdict ty lit s := Nat.not_lt.2 hs
        by_cases hzero : verdict ty lit s = 0
        · simp [hzero]
        · simp [hzero, hs, hnot]
      · have hzero : verdict ty lit s ≠ 0 := fun h => hs (h ▸ Nat.zero_le 2)
        rw [if_neg hzero, if_neg hs, and_iff_right (Nat.not_le.1 hs)]

/-- The type that the last item is checked against. -/
def lastType (ty : Tables T I) (fin : Option T) : T := fin.getD (ty.builtin .ulong)

/-- Whether one of the checks says that the value fits. -/
def FitFound (ty : Tables T I) (lit : NatConst) (ts : List T) (fin : Option T) : Prop :=
  (∃ t ∈ ts, verdict ty lit t = 0) ∨ verdict ty lit (lastType ty fin) = 0

/-! ## When the type is right -/

/-- On every target the first type of the list in which the value fits is among the possible
types, and where `fit` is set the value fits in one of them. -/
def RightType (ty : Tables T I) (cls : T → SignClass) (lit : NatConst) (l : List T)
    (r : LitType T I × Bool × List (Report T)) : Prop :=
  ∀ size, IsTarget ty size →
    (∀ t, FirstFit cls size lit l t → t ∈ r.1.cases) ∧
      (r.2.1 = true → ∃ t ∈ r.1.cases, FitsOn cls size lit t)

/-- Where the bits of the value can be counted, the list ends with a type, or the value is not
certain to fit in `unsigned long`, or it is certain to fit in a type of the list, or in no type
of the list but in one of the default types. Where the count of the bits is reduced, the value is
not taken to fit in a type that is tried. -/
def RightWhen (ty : Tables T I) (cls : T → SignClass) (lit : NatConst) (base : Base)
    (suff : Suffix) (ts : List T) (fin : Option T) : Prop :=
  (Counted lit ∧
    (fin ≠ none ∨ ¬Certain ty cls lit (ty.builtin .ulong) ∨ (∃ t ∈ ts, Certain ty cls lit t) ∨
      (∀ t ∈ ts, ¬Possible ty cls lit t) ∧ ∃ t ∈ listedTypes ty base suff, Certain ty cls lit t)) ∨
  (¬Counted lit ∧ ∀ t ∈ ts ++ [lastType ty fin],
    ¬(cls t).Takes (ty.size t).sz (countBits lit.toInt) lit.toInt)

theorem rightType_of_not_possible (hb : Basic ty cls) (hn : lit.Magnitude)
    (h : ∀ t, ¬Possible ty cls lit t) {l : List T} {r : LitType T I × Bool × List (Report T)} :
    RightType ty cls lit l r ↔ r.2.1 ≠ true := by
  constructor
  · intro hright hfit
    obtain ⟨t, -, ht⟩ := (hright _ (isTarget_least hb)).2 hfit
    exact h t (possible_of_fitsOn hb hn (isTarget_least hb) ht)
  · intro hfit size hsize
    refine ⟨fun t ht => ?_, fun hf => absurd hf hfit⟩
    obtain ⟨a, b, -, ht, -⟩ := ht
    exact absurd (possible_of_fitsOn hb hn hsize ht) (h t)

theorem firstFit_kept (hb : Basic ty cls) (hn : lit.Magnitude) (hsmall : Counted lit)
    (hsize : IsTarget ty size) (h : FirstFit cls size lit (ts ++ fin.toList) t) :
    t ∈ keptTypes ty lit ts fin := by
  obtain ⟨a, b, hl, ht, ha⟩ := h
  refine mem_kept hl (fun s hs hzero => ?_) ?_
  · exact ha s hs (((verdict_certain hb hn hsmall s).1 hzero).fitsOn hb hn hsize)
  · exact (verdict_possible hb hn hsmall t).2 (possible_of_fitsOn hb hn hsize ht)

/-- The possible types of the result. -/
def possibleTypes (ty : Tables T I) (lit : NatConst) (base : Base) (suff : Suffix) (ts : List T)
    (fin : Option T) : List T :=
  if keptTypes ty lit ts fin = [] then listedTypes ty base suff else keptTypes ty lit ts fin

theorem rightType_counted (hb : Basic ty cls) (hn : lit.Magnitude) (hsmall : Counted lit)
    {r : LitType T I × Bool × List (Report T)}
    (hcases : ∀ t, t ∈ r.1.cases ↔ t ∈ possibleTypes ty lit base suff ts fin)
    (hfit : r.2.1 = true ↔ FitFound ty lit ts fin) :
    RightType ty cls lit (ts ++ fin.toList) r ↔
      (FitFound ty lit ts fin →
        ∃ t ∈ possibleTypes ty lit base suff ts fin, Certain ty cls lit t) := by
  constructor
  · intro hright hfound
    obtain ⟨t, ht, hcertain⟩ := (hright _ (isTarget_least hb)).2 (hfit.2 hfound)
    exact ⟨t, (hcases t).1 ht, hcertain⟩
  · intro h size hsize
    constructor
    · intro t ht
      have hkept := firstFit_kept hb hn hsmall hsize ht
      rw [hcases, possibleTypes, if_neg (List.ne_nil_of_mem hkept)]
      exact hkept
    · intro hf
      obtain ⟨t, ht, hcertain⟩ := h (hfit.1 hf)
      exact ⟨t, (hcases t).2 ht, hcertain.fitsOn hb hn hsize⟩

theorem fitFound_right_iff (hb : Basic ty cls) (hn : lit.Magnitude) (hsmall : Counted lit)
    (ts : List T) :
    (FitFound ty lit ts fin →
        ∃ t ∈ possibleTypes ty lit base suff ts fin, Certain ty cls lit t) ↔
      (fin ≠ none ∨ ¬Certain ty cls lit (ty.builtin .ulong) ∨
        (∃ t ∈ ts, Certain ty cls lit t) ∨
        (∀ t ∈ ts, ¬Possible ty cls lit t) ∧
          ∃ t ∈ listedTypes ty base suff, Certain ty cls lit t) := by
  have hcertain := verdict_certain hb hn hsmall
  have hnone : keptTypes ty lit ts none = [] ↔ ∀ t ∈ ts, ¬Possible ty cls lit t := by
    rw [kept_eq_nil]
    exact forall₂_congr fun t _ => by rw [← verdict_possible hb hn hsmall, Nat.not_le]
  constructor
  · intro h
    rw [or_iff_not_imp_left, or_iff_not_imp_left, not_not, not_not]
    rintro rfl hulong
    obtain ⟨t, ht, hfits⟩ := h (.inr ((hcertain _).2 hulong))
    rw [possibleTypes] at ht
    split at ht
    · next hkept => exact .inr ⟨hnone.1 hkept, t, ht, hfits⟩
    · exact .inl ⟨t, kept_subset ht, hfits⟩
  · intro h hfound
    by_cases hlist : ∃ t ∈ ts ++ fin.toList, verdict ty lit t = 0
    · obtain ⟨t, ht, hzero⟩ := exists_kept hlist
      rw [possibleTypes, if_neg (List.ne_nil_of_mem ht)]
      exact ⟨t, ht, (hcertain t).1 hzero⟩
    · have hts : ¬∃ t ∈ ts, verdict ty lit t = 0 := fun ⟨t, ht, hzero⟩ =>
        hlist ⟨t, List.mem_append_left _ ht, hzero⟩
      have hlast := hfound.resolve_left hts
      cases fin with
      | some t => exact absurd ⟨t, by simp, hlast⟩ hlist
      | none =>
          obtain h | h | h | h := h
          · exact absurd rfl h
          · exact absurd ((hcertain _).1 hlast) h
          · obtain ⟨t, ht, hfits⟩ := h
            exact absurd ⟨t, ht, (hcertain t).2 hfits⟩ hts
          · rw [possibleTypes, if_pos (hnone.2 h.1)]
            exact h.2

/-! ## Specifications -/

/-- The item for a type whose bound is the range of the type. -/
def item (w : Word) (ty : Tables T I) (t : T) : Info T I :=
  ⟨1, some t, maxValue w ty (some t), none, -1, .none⟩

/-- The last item, for all values: a type, or none. -/
def lastItem (w : Word) (ty : Tables T I) (opt : Opt) : Option T → Info T I
  | some t => ⟨0, some t, maxValue w ty (some t), none, -1, .none⟩
  | none => ⟨0, none, some (.small 0), none, -1, opt⟩

/-- The specification of a list of types, `? : t` for each of them, and then `* : t` for the last
one, or no type. -/
def listSpec (w : Word) (ty : Tables T I) (opt : Opt) (ts : List T) : Option T → Spec T I
  | some t => addTypeLiteral w ty t (addRangeLiteral none 0
      (ts.foldl (fun spec t => addTypeLiteral w ty t (addRangeLiteral none 1 spec)) beginLiteral))
  | none => initSpec w ty opt ts

theorem addType_range (hb : Basic ty cls) (t : T) (n : Nat) (hn : n ≠ 2) (spec : Spec T I) :
    addTypeLiteral w ty t (addRangeLiteral none n spec) =
      (spec.1 ++ [⟨n, some t, maxValue w ty (some t), none, -1, .none⟩], spec.2) := by
  simp [addTypeLiteral, addRangeLiteral, Spec.change, hb.isInteger t, hb.isArgPromote t, hn]

theorem listSpec_eq (hb : Basic ty cls) (opt : Opt) (ts : List T) (fin : Option T) :
    listSpec w ty opt ts fin = (ts.map (item w ty) ++ [lastItem w ty opt fin], []) := by
  have hfold (spec : Spec T I) :
      ts.foldl (fun spec t => addTypeLiteral w ty t (addRangeLiteral none 1 spec)) spec =
        (spec.1 ++ ts.map (item w ty), spec.2) := by
    induction ts generalizing spec with
    | nil => simp
    | cons t ts ih =>
        rw [List.foldl_cons, ih, addType_range hb t 1 (by decide)]
        simp [item]
  cases fin with
  | some t =>
      rw [listSpec, hfold, addType_range hb t 0 (by decide)]
      simp [beginLiteral, lastItem]
  | none =>
      rw [listSpec, initSpec, hfold]
      simp [addTokenLiteral, addRangeLiteral, Spec.change, beginLiteral, lastItem]

/-! ## The loop -/

theorem checkInfo_item (t : T) (st : Search T) :
    checkInfo w ty lit (item w ty t) st =
      (verdict ty lit t,
        { st with n := maxValue w ty (some t), fit := st.fit || verdict ty lit t = 0 }) := rfl

/-- How the loop ends: with the only type that is kept, or with the types that are kept. -/
def EndsWith (res : (T × Bool) ⊕ (Search T × Option (Info T I))) (st : Search T) (l : List T)
    (found : Prop) : Prop :=
  match res with
  | .inl (t, fit) => st.types = [] ∧ l = [t] ∧ (fit = true ↔ st.fit = true ∨ found)
  | .inr (st', _) => (∀ t, t ∈ st'.types ↔ t ∈ st.types ∨ t ∈ l) ∧ st'.haveTok ≠ 2 ∧
      (st'.fit = true ↔ st.fit = true ∨ found)

theorem EndsWith.change {res : (T × Bool) ⊕ (Search T × Option (Info T I))} {st' : Search T}
    {l l' : List T} {found found' : Prop} (h : EndsWith res st l found)
    (hnil : st.types = [] → st'.types = [] ∧ l = l')
    (hmem : ∀ t, t ∈ st.types ∨ t ∈ l ↔ t ∈ st'.types ∨ t ∈ l')
    (hfit : st.fit = true ∨ found ↔ st'.fit = true ∨ found') : EndsWith res st' l' found' := by
  cases res with
  | inl r =>
      obtain ⟨htypes, hl, hr⟩ := h
      exact ⟨(hnil htypes).1, (hnil htypes).2 ▸ hl, hr.trans hfit⟩
  | inr r =>
      obtain ⟨htypes, htok, hr⟩ := h
      exact ⟨fun t => (htypes t).trans (hmem t), htok, hr.trans hfit⟩

theorem checkInfo_last (hbig : st.big = 0) (hle : verdict ty lit (lastType ty fin) ≤ 4) :
    checkInfo w ty lit (lastItem w ty opt fin) st =
      (0, { st with fit := st.fit || verdict ty lit (lastType ty fin) = 0 }) := by
  have hlarge : ¬verdict ty lit (lastType ty fin) > 4 := Nat.not_lt.2 hle
  obtain ⟨big, haveTok, n, types, fit⟩ := st
  obtain rfl : big = 0 := hbig
  cases fin with
  | none =>
      change ¬checkSimpleRange ty.maxBits ty.size (ty.builtin .ulong) lit > 4 at hlarge
      simp [checkInfo, lastItem, lastType, hlarge]
      rfl
  | some t =>
      change ¬checkSimpleRange ty.maxBits ty.size t lit > 4 at hlarge
      simp [checkInfo, lastItem, lastType, hlarge]
      rfl

theorem checkInfo_large (hlarge : 5 ≤ verdict ty lit (lastType ty fin)) :
    checkInfo w ty lit (lastItem w ty opt fin) st =
      (verdict ty lit (lastType ty fin),
        { st with
          big := verdict ty lit (lastType ty fin)
          n := maxValue w ty none }) := by
  have hbig : verdict ty lit (lastType ty fin) > 4 := hlarge
  have hzero : verdict ty lit (lastType ty fin) ≠ 0 := fun h => by omega
  cases fin with
  | none =>
      change checkSimpleRange ty.maxBits ty.size (ty.builtin .ulong) lit > 4 at hbig
      change checkSimpleRange ty.maxBits ty.size (ty.builtin .ulong) lit ≠ 0 at hzero
      simp [checkInfo, lastItem, lastType, hbig, hzero]
  | some t =>
      change checkSimpleRange ty.maxBits ty.size t lit > 4 at hbig
      change checkSimpleRange ty.maxBits ty.size t lit ≠ 0 at hzero
      simp [checkInfo, lastItem, lastType, hbig, hzero]

variable [DecidableEq T]

theorem mem_unionTypeSet {p : List T} {s : T} : s ∈ unionTypeSet p [t] ↔ s ∈ p ∨ s = t := by
  rw [unionTypeSet, List.foldl_cons, List.foldl_nil]
  split
  · next h => exact (or_iff_left_of_imp fun hs => hs ▸ h).symm
  · rw [List.mem_cons, or_comm]

theorem unionTypeSet_ne_nil (p : List T) (t : T) : unionTypeSet p [t] ≠ [] :=
  List.ne_nil_of_mem (mem_unionTypeSet.2 (.inr rfl))

theorem findLoop_item (t : T) (st : Search T) (rest : List (Info T I)) :
    findLoop w ty base suff lit (item w ty t :: rest) st =
      if verdict ty lit t = 0 ∧ st.types = [] then
        .inl (t, st.fit || verdict ty lit t = 0)
      else
        findLoop w ty base suff lit rest
          { big := if verdict ty lit t > 4 then verdict ty lit t else st.big
            haveTok := if verdict ty lit t ≤ 2 ∧ st.haveTok = 0 then
              if verdict ty lit t = 0 then 1 else 0 else st.haveTok
            n := maxValue w ty (some t)
            types := if verdict ty lit t ≤ 2 ∧ st.haveTok = 0 then
              unionTypeSet st.types (ty.cases t) else st.types
            fit := st.fit || verdict ty lit t = 0 } := by
  rw [findLoop]
  dsimp only
  rw [checkInfo_item]
  dsimp only [item]
  by_cases h : verdict ty lit t ≤ 2 ∧ st.haveTok = 0
  · simp only [if_pos h]
  · simp only [if_neg h]

/-- Once a type is found in which the value fits, nothing is added. -/
theorem findLoop_decided (hts : ∀ t ∈ ts, verdict ty lit t ≤ 4)
    (hlast : verdict ty lit (lastType ty fin) ≤ 4) : ∀ st : Search T, st.haveTok = 1 →
      st.types ≠ [] → st.big = 0 →
      EndsWith (findLoop w ty base suff lit (ts.map (item w ty) ++ [lastItem w ty opt fin]) st) st
        [] (FitFound ty lit ts fin) := by
  induction ts with
  | nil =>
      intro st htok hne hbig
      rw [List.map_nil, List.nil_append, findLoop]
      dsimp only
      rw [checkInfo_last hbig hlast]
      cases fin with
      | none => simp [lastItem, EndsWith, FitFound, htok]
      | some t => simp [lastItem, EndsWith, FitFound, htok, hne, findLoop]
  | cons t ts ih =>
      intro st htok hne hbig
      obtain ⟨ht, hts⟩ := List.forall_mem_cons.1 hts
      rw [List.map_cons, List.cons_append, findLoop_item, if_neg (fun h => hne h.2)]
      simp only [if_neg (Nat.not_lt.2 ht), htok, Nat.one_ne_zero, and_false, if_false]
      refine EndsWith.change (ih hts _ rfl hne hbig) (fun h => absurd h hne) (fun _ => Iff.rfl) ?_
      simp [FitFound, or_assoc]

theorem findLoop_spec (hb : Basic ty cls) (hts : ∀ t ∈ ts, verdict ty lit t ≤ 4)
    (hlast : verdict ty lit (lastType ty fin) ≤ 4) : ∀ st : Search T, st.haveTok = 0 →
      st.big = 0 →
      EndsWith (findLoop w ty base suff lit (ts.map (item w ty) ++ [lastItem w ty opt fin]) st) st
        (keptTypes ty lit ts fin) (FitFound ty lit ts fin) := by
  induction ts with
  | nil =>
      intro st htok hbig
      rw [List.map_nil, List.nil_append, findLoop]
      dsimp only
      rw [checkInfo_last hbig hlast]
      cases fin with
      | none => simp [lastItem, EndsWith, keptTypes, FitFound, htok]
      | some t =>
          by_cases hnil : st.types = []
          · simp [lastItem, EndsWith, keptTypes, FitFound, hnil]
          · simp [lastItem, EndsWith, keptTypes, FitFound, hnil, htok, findLoop, hb.cases t,
              mem_unionTypeSet]
  | cons t ts ih =>
      intro st htok hbig
      obtain ⟨ht, hts⟩ := List.forall_mem_cons.1 hts
      rw [List.map_cons, List.cons_append, findLoop_item]
      simp only [if_neg (Nat.not_lt.2 ht), htok, hb.cases t, and_true]
      by_cases hzero : verdict ty lit t = 0
      · have hkept : keptTypes ty lit (t :: ts) fin = [t] := by rw [keptTypes, if_pos hzero]
        rw [hkept]
        by_cases hnil : st.types = []
        · rw [if_pos ⟨hzero, hnil⟩]
          simp [EndsWith, hnil, hzero, FitFound]
        · rw [if_neg (fun h => hnil h.2)]
          simp only [hzero, Nat.zero_le, if_true]
          refine EndsWith.change (findLoop_decided hts hlast _ rfl (unionTypeSet_ne_nil _ t) hbig)
            (fun h => absurd h (unionTypeSet_ne_nil _ t)) (fun s => ?_) ?_
          · simp [mem_unionTypeSet]
          · simp [FitFound, hzero]
      · rw [if_neg (fun h => hzero h.1)]
        by_cases hmay : verdict ty lit t ≤ 2
        · have hkept : keptTypes ty lit (t :: ts) fin = t :: keptTypes ty lit ts fin := by
            rw [keptTypes, if_neg hzero, if_pos hmay]
          rw [hkept]
          simp only [if_pos hmay, if_neg hzero]
          refine EndsWith.change (ih hts _ rfl hbig) (fun h => absurd h (unionTypeSet_ne_nil _ t))
            (fun s => ?_) ?_
          · simp [mem_unionTypeSet, or_assoc]
          · simp [FitFound, hzero]
        · have hkept : keptTypes ty lit (t :: ts) fin = keptTypes ty lit ts fin := by
            rw [keptTypes, if_neg hzero, if_neg hmay]
          rw [hkept]
          simp only [if_neg hmay]
          refine EndsWith.change (ih hts _ rfl hbig) (fun h => ⟨h, rfl⟩) (fun _ => Iff.rfl) ?_
          simp [FitFound, hzero]

/-! ## The type -/

variable (w base suff opt) in
/-- What `find_literal_type` gives where the value is not too large for all types. -/
theorem findSimpleType_small (hb : Basic ty cls) (hts : ∀ t ∈ ts, verdict ty lit t ≤ 4)
    (hlast : verdict ty lit (lastType ty fin) ≤ 4) :
    (∀ t, t ∈ (findSimpleType w ty (listSpec w ty opt ts fin).1 base suff lit).1.cases ↔
        t ∈ possibleTypes ty lit base suff ts fin) ∧
      ((findSimpleType w ty (listSpec w ty opt ts fin).1 base suff lit).2.1 = true ↔
        FitFound ty lit ts fin) := by
  have hends : EndsWith (findLoop w ty base suff lit
      (ts.map (item w ty) ++ [lastItem w ty opt fin]) ⟨0, 0, some (.small 0), [], false⟩) _
      (keptTypes ty lit ts fin) (FitFound ty lit ts fin) :=
    findLoop_spec hb hts hlast _ rfl rfl
  rw [listSpec_eq hb, findSimpleType]
  dsimp only
  cases hres : findLoop w ty base suff lit (ts.map (item w ty) ++ [lastItem w ty opt fin])
      ⟨0, 0, some (.small 0), [], false⟩ with
  | inl r =>
      rw [hres] at hends
      obtain ⟨-, hkept, hfit⟩ := hends
      rw [possibleTypes, hkept]
      simpa [LitType.cases] using hfit
  | inr r =>
      rw [hres] at hends
      obtain ⟨htypes, htok, hfit⟩ := hends
      have hnil : r.1.types = [] ↔ keptTypes ty lit ts fin = [] := by
        simp [List.eq_nil_iff_forall_not_mem, htypes]
      have hmem : ∀ t, t ∈ (if r.1.haveTok = 2 then r.1.types
          else if r.1.types = [] then listedTypes ty base suff else r.1.types.reverse) ↔
          t ∈ possibleTypes ty lit base suff ts fin := by
        intro t
        rw [if_neg htok, possibleTypes]
        by_cases h : r.1.types = []
        · rw [if_pos h, if_pos (hnil.1 h)]
        · rw [if_neg h, if_neg (mt hnil.2 h), List.mem_reverse, htypes]
          simp
      refine ⟨fun t => Iff.trans ?_ (hmem t), by simpa using hfit⟩
      dsimp only
      generalize (if r.1.haveTok = 2 then r.1.types
          else if r.1.types = [] then listedTypes ty base suff else r.1.types.reverse) = qt
      cases qt with
      | nil => rfl
      | cons s qt =>
          cases qt with
          | nil => rfl
          | cons _ _ => rfl

theorem findLoop_large (hts : ∀ t ∈ ts, 5 ≤ verdict ty lit t)
    (hlast : 5 ≤ verdict ty lit (lastType ty fin)) : ∀ st : Search T,
      ∃ st', findLoop w ty base suff lit (ts.map (item w ty) ++ [lastItem w ty opt fin]) st =
        .inr (st', none) ∧ st'.fit = st.fit := by
  induction ts with
  | nil =>
      intro st
      rw [List.map_nil, List.nil_append, findLoop]
      dsimp only
      rw [checkInfo_large hlast]
      have hzero : verdict ty lit (lastType ty fin) ≠ 0 := fun h => by omega
      have hmay : ¬verdict ty lit (lastType ty fin) ≤ 2 := fun h => by omega
      refine ⟨{ st with big := verdict ty lit (lastType ty fin), n := maxValue w ty none }, ?_, rfl⟩
      cases fin with
      | none => simp [lastItem, hmay, findLoop]
      | some t => simp [lastItem, hmay, hzero, findLoop]
  | cons t ts ih =>
      intro st
      obtain ⟨ht, hts⟩ := List.forall_mem_cons.1 hts
      have hzero : verdict ty lit t ≠ 0 := fun h => by omega
      rw [List.map_cons, List.cons_append, findLoop_item, if_neg (fun h => hzero h.1)]
      obtain ⟨st', hloop, hfit⟩ := ih hts _
      exact ⟨st', hloop, hfit.trans (by simp [hzero])⟩

theorem findSimpleType_large (hb : Basic ty cls) (hts : ∀ t ∈ ts, 5 ≤ verdict ty lit t)
    (hlast : 5 ≤ verdict ty lit (lastType ty fin)) :
    (findSimpleType w ty (listSpec w ty opt ts fin).1 base suff lit).2.1 = false := by
  have hloop : ∃ st, findLoop w ty base suff lit
      (ts.map (item w ty) ++ [lastItem w ty opt fin]) ⟨0, 0, some (.small 0), [], false⟩ =
        .inr (st, none) ∧ st.fit = false := findLoop_large hts hlast _
  obtain ⟨st, hloop, hfit⟩ := hloop
  rw [listSpec_eq hb, findSimpleType]
  dsimp only
  rw [hloop]
  exact hfit

end

/-! ## The built-in types -/

/-- The sign classes in the table `basetype_info`. -/
def basicClass : Builtin → SignClass
  | .sint | .slong | .sllong => .symmetric
  | .uint | .ulong | .ullong => .unsigned

theorem basicTables_basic : Basic basicTables basicClass where
  sign t := by cases t <;> rfl
  one_le t := by cases t <;> decide
  le t := by cases t <;> decide
  le_max t := by cases t <;> decide
  cases _ := rfl
  isInteger _ := rfl
  isArgPromote _ := rfl

end Tendra.Ref.Tdfc.Literal
