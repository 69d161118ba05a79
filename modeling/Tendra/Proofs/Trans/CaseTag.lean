import Tendra.Proofs.Trans.CaseVector

/-!
# When a case selects the right label

The tests and the vector go by the order of signed numbers. That is the order of an
unsigned shape only as long as all values lie in one half of it; single values may lie
in both where the tests look for nothing else in the lower half. The vector moreover
cannot reach the largest number of 64 bits, at which the loop that writes it does not
end.
-/

namespace Tendra.Ref.Trans.Alpha

open Machine

section

variable {lab : Range → Nat} {endlab : Nat} {zs : List Range} {u n : BitVec 64}

theorem emitWhile_bound {test : BitVec 64 → Bool} {l : Nat} {B : Int} (hB : B < 2 ^ 63)
    (h : ∀ n, test n = true → n.toInt < B) {fuel : Nat} :
    ∀ {n : BitVec 64} {r}, emitWhile test l fuel n = some r → n.toInt ≤ B →
    r.2.toInt ≤ B := by
  induction fuel with
  | zero => exact fun h => absurd h (Option.some_ne_none _).symm
  | succ fuel ih =>
      intro n r hr hn
      rw [emitWhile] at hr
      split at hr
      · next htest =>
          obtain ⟨r', hr', rfl⟩ := Option.map_eq_some_iff.1 hr
          have hlt := h n htest
          have hone : (n + 1).toInt = n.toInt + 1 := toInt_add_ofNat (j := 1) (by omega)
          have hle := ih hr' (show (n + 1).toInt ≤ B from by omega)
          exact hle
      · obtain rfl := Option.some.inj hr
        exact hn

theorem emitWhile_entries {test : BitVec 64 → Bool} {l : Nat} {fuel : Nat} :
    ∀ {n : BitVec 64} {r}, emitWhile test l fuel n = some r → ∀ k ∈ r.1, k = l := by
  induction fuel with
  | zero => exact fun h => absurd h (Option.some_ne_none _).symm
  | succ fuel ih =>
      intro n r hr k hk
      rw [emitWhile] at hr
      split at hr
      · obtain ⟨r', hr', rfl⟩ := Option.map_eq_some_iff.1 hr
        obtain rfl | hk := List.mem_cons.1 hk
        · rfl
        · exact ih hr' k hk
      · obtain rfl := Option.some.inj hr
        cases hk

/-- What a vector that is written has come to: as many entries as the counter has been counted
up, each of them a label of the case. -/
theorem vectorLoop_count : ∀ {zs : List Range} {u n : BitVec 64} {r},
    vectorLoop lab endlab zs u n = some r →
    r.2.2.toInt = n.toInt + r.1.length ∧ ∀ k ∈ r.1, k = endlab ∨ ∃ z ∈ zs, k = lab z := by
  intro zs
  induction zs with
  | nil =>
      intro u n r hr
      obtain rfl := Option.some.inj hr
      simp
  | cons z zs ih =>
      intro u n r hr
      rw [vectorLoop] at hr
      obtain ⟨fill, hfill, hr⟩ := Option.bind_eq_some_iff.1 hr
      obtain ⟨entries, hentries, hr⟩ := Option.bind_eq_some_iff.1 hr
      obtain ⟨r', hr', rfl⟩ := Option.map_eq_some_iff.1 hr
      have hcount := emitWhile_count (fun n h => by
        have := z.lower.toInt_lt
        have := of_decide_eq_true h
        omega) hfill
      have hcount' : entries.2.toInt = fill.2.toInt + entries.1.length := by
        by_cases hu : (z.child.getD fill.2).toInt = 2 ^ 63 - 1
        · rw [emitWhile_largest hu] at hentries
          cases hentries
        · refine emitWhile_count (fun n h => ?_) hentries
          have := (z.child.getD fill.2).toInt_lt
          have := of_decide_eq_true h
          omega
      obtain ⟨hlength, hlabels⟩ := ih hr'
      refine ⟨?_, fun k hk => ?_⟩
      · rw [hlength, hcount', hcount, List.length_append, List.length_append]
        omega
      · rw [List.mem_append, List.mem_append] at hk
        obtain (hk | hk) | hk := hk
        · exact .inl (emitWhile_entries hfill k hk)
        · exact .inr ⟨z, List.mem_cons_self, emitWhile_entries hentries k hk⟩
        · obtain hend | ⟨y, hy, hlab⟩ := hlabels k hk
          · exact .inl hend
          · exact .inr ⟨y, List.mem_cons_of_mem z hy, hlab⟩

/-- The counter passes the bounds by no more than the number of the ranges. -/
theorem vectorLoop_bound {B : Int} : ∀ {zs : List Range} {u n : BitVec 64} {r},
    vectorLoop lab endlab zs u n = some r → ∀ {C : Int}, B ≤ C →
    (∀ z ∈ zs, z.lower.toInt < B ∧ z.upper.toInt < B) → n.toInt ≤ C → C + zs.length < 2 ^ 63 →
    r.2.2.toInt ≤ C + zs.length := by
  intro zs
  induction zs with
  | nil =>
      intro u n r hr C _ _ hn _
      obtain rfl := Option.some.inj hr
      simpa using hn
  | cons z zs ih =>
      intro u n r hr C hBC hbounds hn hC
      rw [vectorLoop] at hr
      obtain ⟨fill, hfill, hr⟩ := Option.bind_eq_some_iff.1 hr
      obtain ⟨entries, hentries, hr⟩ := Option.bind_eq_some_iff.1 hr
      obtain ⟨r', hr', rfl⟩ := Option.map_eq_some_iff.1 hr
      obtain ⟨hlower, hupper⟩ := hbounds z List.mem_cons_self
      rw [List.length_cons] at hC ⊢
      have hfill' : fill.2.toInt ≤ C := by
        refine emitWhile_bound (by omega) (fun n h => ?_) hfill hn
        have := of_decide_eq_true h
        omega
      have hentries' : entries.2.toInt ≤ C + 1 := by
        refine emitWhile_bound (by omega) (fun n h => ?_) hentries (by omega)
        have hle := of_decide_eq_true h
        cases hchild : z.child with
        | none =>
            rw [hchild, Option.getD_none] at hle
            omega
        | some v =>
            rw [Range.upper, hchild, Option.getD_some] at hupper
            rw [hchild, Option.getD_some] at hle
            omega
      have hle := ih hr' (C := C + 1) (by omega)
        (fun y hy => hbounds y (List.mem_cons_of_mem z hy)) hentries' (by omega)
      dsimp only
      omega

/-- A vector that is to reach the largest number is not written. -/
theorem vectorLoop_none : ∀ (zs : List Range) (hne : zs ≠ []), Ascending BitVec.toInt zs →
    (zs.getLast hne).upper.toInt = 2 ^ 63 - 1 → ∀ u n : BitVec 64,
    n.toInt ≤ (zs.head hne).lower.toInt → vectorLoop lab endlab zs u n = none
  | [], hne, _, _, _, _, _ => absurd rfl hne
  | [z], _, _, hlast, u, n, hn => by
      replace hn : n.toInt ≤ z.lower.toInt := hn
      replace hlast : z.upper.toInt = 2 ^ 63 - 1 := hlast
      rw [vectorLoop, emitWhile_lt hn, Option.bind_some]
      dsimp only
      rw [show z.child.getD z.lower = z.upper from rfl, emitWhile_largest hlast]
      rfl
  | z :: y :: zs, _, hasc, hlast, u, n, hn => by
      have hle := hasc.1 z List.mem_cons_self
      replace hn : n.toInt ≤ z.lower.toInt := hn
      have hy := hasc.lt_lower (List.mem_cons_self (a := y) (l := zs))
      have hsmall : z.upper.toInt < 2 ^ 63 - 1 := by
        have := y.lower.toInt_lt
        omega
      have hone : (z.upper + 1).toInt = z.upper.toInt + 1 := toInt_add_ofNat (j := 1) (by omega)
      have hnone := vectorLoop_none (y :: zs) (List.cons_ne_nil y zs) hasc.tail hlast z.upper
        (z.upper + 1) (by rw [hone]; exact hy)
      rw [vectorLoop, emitWhile_lt hn, Option.bind_some]
      dsimp only
      rw [show z.child.getD z.lower = z.upper from rfl, emitWhile_le hle hsmall, Option.bind_some,
        hnone]
      rfl

end

section

variable {sh : IntShape} {x : BitVec 64} {z : Range}

/-- The last value of a case. -/
def Case.high (c : Case) : BitVec 64 := (c.ranges.getLast c.ne_nil).upper

/-- All values of the ranges lie in the same half of the unsigned numbers. -/
def Case.OneHalf (c : Case) : Prop :=
  (∀ z ∈ c.ranges, z.upper.msb = false) ∨ ∀ z ∈ c.ranges, z.lower.msb = true

/-- The code for a case selects the label of the range that contains the value, and leaves the
case without one. -/
def Selects (c : Case) : Prop :=
  ∀ (regs : CaseRegs) (lab : Range → Nat) (veclab newlab : Nat),
    (∀ z ∈ c.ranges, lab z ≠ newlab) → ∃ prog table,
    caseTag c regs lab veclab newlab = some (prog, table) ∧
    ∀ (env : Env Nat) (s : State), Linked env s veclab table → c.shape.Holds (s.get regs.r) →
      (∀ z ∈ c.ranges, z.Contains c.shape (s.get regs.r) →
        ∃ t, (machine env).Ends prog s (.outside (lab z)) t) ∧
      ((∀ z ∈ c.ranges, ¬ z.Contains c.shape (s.get regs.r)) →
        ∃ t, (machine env).Ends prog s (.inside []) t)

/-- When it does. -/
def Case.Right (c : Case) : Prop :=
  if c.useVector then (c.shape.sgned = true ∨ c.OneHalf) ∧ c.high ≠ BitVec.intMax 64
  else c.shape.sgned = true ∨ c.OneHalf ∨ ∀ z ∈ c.ranges, z.child.isSome → z.lower.msb = true

theorem number_sgned (h : sh.sgned = true) (x : BitVec 64) : sh.number x = x.toInt := by
  rw [IntShape.number, if_pos h]

theorem number_unsigned (h : sh.sgned = false) (x : BitVec 64) : sh.number x = x.toNat := by
  rw [IntShape.number, h]
  rfl

/-- A number with its top bit clear and one with its top bit set. -/
theorem toInt_of_msb (x : BitVec 64) :
    x.msb = false ∧ x.toInt = x.toNat ∧ x.toNat < 2 ^ 63 ∨
      x.msb = true ∧ x.toInt = x.toNat - 2 ^ 64 ∧ 2 ^ 63 ≤ x.toNat := by
  rw [BitVec.toInt_eq_toNat_cond, BitVec.msb_eq_decide]
  have := x.isLt
  by_cases h : x.toNat < 2 ^ 63
  · refine .inl ⟨by simpa using h, if_pos (by omega), h⟩
  · refine .inr ⟨by simpa using h, ?_, by omega⟩
    rw [if_neg (by omega)]
    rfl

/-- Within a half, and for single values, it does not matter how the numbers are taken. -/
theorem contains_iff_has (h : sh.sgned = true ∨ z.child = none ∨ z.lower.msb = z.upper.msb) :
    z.Contains sh x ↔ z.Has x := by
  cases hsgned : sh.sgned with
  | true =>
      rw [Range.Contains, number_sgned hsgned, number_sgned hsgned, number_sgned hsgned]
      rfl
  | false =>
      rw [Range.Contains, number_unsigned hsgned, number_unsigned hsgned, number_unsigned hsgned,
        Range.Has]
      obtain hl | hl := toInt_of_msb z.lower <;> obtain hu | hu := toInt_of_msb z.upper <;>
        obtain hx | hx := toInt_of_msb x
      all_goals
        obtain h | h | h := h
        · rw [hsgned] at h
          cases h
        · rw [Range.upper, h, Option.getD_none] at hu ⊢
          omega
        · rw [hl.1, hu.1] at h
          first
            | exact absurd h (by decide)
            | omega

variable {c : Case}

theorem Case.ascending (c : Case) : Ascending c.shape.number c.ranges := ⟨c.le, c.increasing⟩

/-- The halves of an unsigned case. -/
theorem Case.OneHalf.half (h : c.OneHalf) (hsgned : c.shape.sgned = false) :
    (∀ z ∈ c.ranges, z.lower.msb = false ∧ z.upper.msb = false) ∨
      ∀ z ∈ c.ranges, z.lower.msb = true ∧ z.upper.msb = true := by
  have hle : ∀ z ∈ c.ranges, z.lower.toNat ≤ z.upper.toNat := by
    intro z hz
    have := c.le z hz
    rw [number_unsigned hsgned, number_unsigned hsgned] at this
    exact Int.ofNat_le.1 this
  refine h.imp (fun hlow z hz => ⟨?_, hlow z hz⟩) fun hhigh z hz => ⟨hhigh z hz, ?_⟩
  · have := hlow z hz
    have := hle z hz
    obtain hl | hl := toInt_of_msb z.lower <;> obtain hu | hu := toInt_of_msb z.upper
    all_goals grind
  · have := hhigh z hz
    have := hle z hz
    obtain hl | hl := toInt_of_msb z.lower <;> obtain hu | hu := toInt_of_msb z.upper
    all_goals grind

/-- The order of signed numbers is that of the case. -/
theorem Case.ascending_toInt (h : c.shape.sgned = true ∨ c.OneHalf) :
    Ascending BitVec.toInt c.ranges ∧
      ∀ z ∈ c.ranges, ∀ x, z.Contains c.shape x ↔ z.Has x := by
  cases hsgned : c.shape.sgned with
  | true =>
      refine ⟨?_, fun z _ x => contains_iff_has (.inl hsgned)⟩
      have := c.ascending
      rwa [show c.shape.number = BitVec.toInt from funext (number_sgned hsgned)] at this
  | false =>
      have hhalf := (h.resolve_left (by rw [hsgned]; exact Bool.false_ne_true)).half hsgned
      have hsame : ∀ z ∈ c.ranges, z.lower.msb = z.upper.msb := by
        intro z hz
        obtain hhalf | hhalf := hhalf
        · rw [(hhalf z hz).1, (hhalf z hz).2]
        · rw [(hhalf z hz).1, (hhalf z hz).2]
      have hlt : ∀ x y : BitVec 64, x.msb = y.msb →
          (c.shape.number x < c.shape.number y → x.toInt < y.toInt) ∧
          (c.shape.number x ≤ c.shape.number y → x.toInt ≤ y.toInt) := by
        intro x y hxy
        rw [number_unsigned hsgned, number_unsigned hsgned]
        obtain hx | hx := toInt_of_msb x <;> obtain hy | hy := toInt_of_msb y
        all_goals
          rw [hx.1, hy.1] at hxy
          first
            | exact absurd hxy (by decide)
            | omega
      refine ⟨⟨fun z hz => (hlt _ _ (hsame z hz)).2 (c.le z hz), ?_⟩,
        fun z hz x => contains_iff_has (.inr (.inr (hsame z hz)))⟩
      refine c.increasing.imp_of_mem fun hy hz hyz => (hlt _ _ ?_).1 hyz
      obtain hhalf | hhalf := hhalf
      · rw [(hhalf _ hy).2, (hhalf _ hz).1]
      · rw [(hhalf _ hy).2, (hhalf _ hz).1]

/-- The limits of a shape are those of its values. -/
theorem IntShape.maxmin_spec (hsgned : sh.sgned = true) (hx : sh.Holds x) :
    sh.maxmin.2.toInt ≤ x.toInt ∧ x.toInt ≤ sh.maxmin.1.toInt := by
  cases his64 : sh.is64 with
  | true =>
      rw [maxmin, hsgned, his64]
      have hmin : (0x8000000000000000 : BitVec 64).toInt = -2 ^ 63 := by decide
      have hmax : (0x7fffffffffffffff : BitVec 64).toInt = 2 ^ 63 - 1 := by decide
      have := x.le_toInt
      have := x.toInt_lt
      dsimp only
      omega
  | false =>
      rw [maxmin, hsgned, his64]
      have hmin : (0xffffffff80000000 : BitVec 64).toInt = -2 ^ 31 := by decide
      have hmax : (0x7fffffff : BitVec 64).toInt = 2 ^ 31 - 1 := by decide
      have hext := congrArg BitVec.toInt (hx his64)
      rw [BitVec.toInt_signExtend_of_le (by decide)] at hext
      have := (x.setWidth 32).le_toInt
      have := (x.setWidth 32).toInt_lt
      dsimp only
      omega

/-- In an unsigned case whose ranges with two bounds lie in the upper half, what is below one of
them as a signed number is in none after it. -/
theorem Case.apart_of_high (hsgned : c.shape.sgned = false)
    (hhigh : ∀ z ∈ c.ranges, z.child.isSome → z.lower.msb = true) :
    (∀ z ∈ c.ranges, ∀ x, z.Contains c.shape x ↔ z.Has x) ∧
      ∀ x, c.ranges.Pairwise (Apart x) := by
  have hnum := number_unsigned hsgned
  have hsame : ∀ z ∈ c.ranges, z.child.isSome → z.upper.msb = true := by
    intro z hz hchild
    have hle := c.le z hz
    have hlow := hhigh z hz hchild
    rw [hnum, hnum] at hle
    obtain hl | hl := toInt_of_msb z.lower <;> obtain hu | hu := toInt_of_msb z.upper
    all_goals grind
  have hhas : ∀ z ∈ c.ranges, ∀ x, z.Contains c.shape x ↔ z.Has x := by
    intro z hz x
    cases hchild : z.child with
    | none => exact contains_iff_has (.inr (.inl hchild))
    | some u =>
        refine contains_iff_has (.inr (.inr ?_))
        rw [hhigh z hz (hchild ▸ rfl), hsame z hz (hchild ▸ rfl)]
  refine ⟨hhas, fun x => c.increasing.imp_of_mem fun {y z} hy hz hyz => ⟨fun hxy hxz => ?_,
    fun hchild hlt hxz => ?_⟩⟩
  · obtain ⟨-, hxy⟩ := (hhas y hy x).2 hxy
    obtain ⟨hxz, -⟩ := (hhas z hz x).2 hxz
    omega
  · -- `z` lies in the upper half with `y`, so that it is above it also as a signed number
    have hy' := c.le y hy
    rw [hnum, hnum] at hyz hy'
    obtain ⟨hl, -⟩ := hxz
    obtain h | h := toInt_of_msb y.lower
    · rw [hhigh y hy hchild] at h
      cases h.1
    · obtain hz' | hz' := toInt_of_msb z.lower
      · omega
      · omega

theorem Case.apart_of_ascending (hasc : Ascending BitVec.toInt c.ranges) (x : BitVec 64) :
    c.ranges.Pairwise (Apart x) := by
  refine hasc.2.imp_of_mem fun {y z} hy _ hyz => ⟨fun hxy hxz => ?_, fun _ hlt hxz => ?_⟩
  · have := hxy.2
    have := hxz.1
    omega
  · have := hasc.1 y hy
    have := hxz.1
    omega

theorem selects_of_chain (hvector : c.useVector = false)
    (hhas : ∀ z ∈ c.ranges, ∀ x, z.Contains c.shape x ↔ z.Has x)
    (hapart : ∀ x, c.ranges.Pairwise (Apart x)) : Selects c := by
  intro regs lab veclab newlab hfresh
  rw [caseTag, hvector, if_neg Bool.false_ne_true]
  refine ⟨_, _, rfl, fun env s _ hx => ?_⟩
  generalize hprog : chain regs lab newlab (!c.shape.sgned) c.ranges c.shape.maxmin.1
    c.shape.maxmin.2 false = prog
  have hsets : ∀ z ∈ c.ranges, (machine env).target prog (lab z) = .outside (lab z) := by
    intro z hz
    refine target_of_none (after_none ?_)
    rw [← hprog]
    exact label_chain (hfresh z hz) _ _ _ _
  have hdealt := chain_dealt hsets (hapart (s.get regs.r)) [] _ _ _ hprog.symm
    (fun _ h => absurd h List.not_mem_nil)
    (fun husw => IntShape.maxmin_spec (by simpa using husw) hx)
  rw [hprog] at hdealt
  obtain ⟨hin, hout⟩ := hdealt s rfl
  refine ⟨fun z hz hcontains => ?_, fun hnone => ?_⟩
  · obtain ⟨t, ht⟩ := hin z hz ((hhas z hz _).1 hcontains)
    exact ⟨t, ht, trivial⟩
  · obtain ⟨t, ht⟩ := hout fun z hz hhas' => hnone z hz ((hhas z hz _).2 hhas')
    exact ⟨t, ht, rfl⟩

theorem selects_of_vector (hvector : c.useVector = true)
    (h : c.shape.sgned = true ∨ c.OneHalf) (hhigh : c.high ≠ BitVec.intMax 64) : Selects c := by
  obtain ⟨hasc, hhas⟩ := c.ascending_toInt h
  intro regs lab veclab newlab hfresh
  have hlast : (c.ranges.getLast c.ne_nil).upper.toInt < 2 ^ 63 - 1 := by
    have hlt := c.high.toInt_lt
    have hne : c.high.toInt ≠ (BitVec.intMax 64).toInt := fun h => hhigh (BitVec.toInt_inj.1 h)
    have hmax : (BitVec.intMax 64).toInt = 2 ^ 63 - 1 := by decide
    rw [Case.high] at hlt hne
    omega
  obtain ⟨table, n', heq, hdealt⟩ := vector_dealt c.ne_nil hasc hlast hfresh regs veclab
  rw [caseTag, hvector, if_pos rfl, Case.low, heq]
  refine ⟨_, _, rfl, fun env s hlinked hx => ?_⟩
  obtain ⟨hin, hout⟩ := hdealt env s hlinked
  refine ⟨fun z hz hcontains => ?_, fun hnone => ?_⟩
  · obtain ⟨t, ht⟩ := hin z hz ((hhas z hz _).1 hcontains)
    exact ⟨t, ht, trivial⟩
  · obtain ⟨t, ht⟩ := hout fun z hz hhas' => hnone z hz ((hhas z hz _).2 hhas')
    exact ⟨t, ht, rfl⟩

theorem Case.Right.selects (h : c.Right) : Selects c := by
  rw [Case.Right] at h
  cases hvector : c.useVector with
  | true =>
      rw [hvector, if_pos rfl] at h
      exact selects_of_vector hvector h.1 h.2
  | false =>
      rw [hvector, if_neg Bool.false_ne_true, ← or_assoc] at h
      obtain h | hhigh := h
      · obtain ⟨hasc, hhas⟩ := c.ascending_toInt h
        exact selects_of_chain hvector hhas (Case.apart_of_ascending hasc)
      · cases hsgned : c.shape.sgned with
        | true =>
            obtain ⟨hasc, hhas⟩ := c.ascending_toInt (.inl hsgned)
            exact selects_of_chain hvector hhas (Case.apart_of_ascending hasc)
        | false =>
            obtain ⟨hhas, hapart⟩ := Case.apart_of_high hsgned hhigh
            exact selects_of_chain hvector hhas hapart

/-- The registers of the examples that fail. -/
def someRegs : CaseRegs := ⟨1, 2, 3, by decide⟩

/-- The last value of an unsigned case that has values in both halves. -/
theorem Case.high_msb (hsgned : c.shape.sgned = false) (h : ¬ c.OneHalf) : c.high.msb = true := by
  have hnum := number_unsigned hsgned
  obtain ⟨z, hz, hmsb⟩ : ∃ z ∈ c.ranges, z.upper.msb = true := by
    by_contra hno
    exact h (.inl fun z hz => by simpa using fun hmsb => hno ⟨z, hz, hmsb⟩)
  have hle := c.ascending.le_last c.ne_nil hz
  rw [hnum, hnum] at hle
  rw [Case.high]
  obtain hu | hu := toInt_of_msb z.upper <;>
    obtain hl | hl := toInt_of_msb (c.ranges.getLast c.ne_nil).upper
  all_goals grind

theorem Case.contains_high (c : Case) :
    (c.ranges.getLast c.ne_nil).Contains c.shape c.high :=
  ⟨c.le _ (List.getLast_mem c.ne_nil), Int.le_refl _⟩

/-- A range with two bounds in the lower half hides those in the upper one. -/
theorem Selects.chain_high (h : Selects c) (hvector : c.useVector = false)
    (hsgned : c.shape.sgned = false) (hhalf : ¬ c.OneHalf) :
    ∀ z ∈ c.ranges, z.child.isSome → z.lower.msb = true := by
  intro z hz hchild
  by_contra hlow
  have hnum := number_unsigned hsgned
  obtain ⟨u, hu⟩ := Option.isSome_iff_exists.1 hchild
  obtain ⟨bs, rest, hsplit⟩ := List.append_of_mem hz
  obtain ⟨prog, table, heq, hrun⟩ := h someRegs (fun _ => 1) 0 0 fun _ _ => Nat.one_ne_zero
  rw [caseTag, hvector, if_neg Bool.false_ne_true] at heq
  obtain ⟨rfl, rfl⟩ := Prod.mk.inj (Option.some.inj heq)
  let env : Env Nat := ⟨true, fun _ => none, fun _ => 0⟩
  let s : State := ⟨fun _ => c.high, fun _ => 0⟩
  have hs : s.get someRegs.r = c.high := rfl
  have hhigh := Case.high_msb hsgned hhalf
  have hx := toInt_of_msb c.high
  have hl := toInt_of_msb z.lower
  have hlt : c.high.toInt < z.lower.toInt := by
    have := c.high.isLt
    grind
  have hbefore : ∀ y ∈ bs, ¬ y.Has c.high := by
    intro y hy hhas
    have hinc := c.increasing
    rw [hsplit, List.pairwise_append] at hinc
    have hyz := hinc.2.2 y hy z List.mem_cons_self
    have hyle := c.le y (hsplit ▸ List.mem_append_left _ hy)
    rw [hnum, hnum] at hyz hyle
    have hlow := hhas.1
    have := toInt_of_msb y.lower
    have := c.high.isLt
    grind
  rw [hsplit, hsgned] at hrun
  let prog := chain someRegs (fun _ => 1) 0 true (bs ++ z :: rest) c.shape.maxmin.1
    c.shape.maxmin.2 false
  have hleaves : Dealt env prog someRegs (fun _ => 1) [] c.high (.inside prog) :=
    chain_leaves hu hlt hbefore [] _ _ _ rfl fun _ h => absurd h List.not_mem_nil
  obtain ⟨-, hout⟩ := hleaves s rfl
  obtain ⟨t, ht⟩ := hout fun _ h => absurd h List.not_mem_nil
  have hlinked : Linked env s 0 [] := ⟨rfl, fun i l hl => by cases hl⟩
  have hlast : c.ranges.getLast c.ne_nil ∈ bs ++ z :: rest := by
    rw [← hsplit]
    exact List.getLast_mem c.ne_nil
  obtain ⟨t', ht'⟩ := (hrun env s hlinked
    (c.holds _ (List.getLast_mem c.ne_nil)).2).1 _ hlast c.contains_high
  obtain ⟨heq, -⟩ := ht'.unique ⟨ht, rfl⟩
  cases heq

/-- The vector is not written where it is to reach the largest number. -/
theorem Selects.high_ne (h : Selects c) (hvector : c.useVector = true)
    (hhalf : c.shape.sgned = true ∨ c.OneHalf) : c.high ≠ BitVec.intMax 64 := by
  intro hhigh
  obtain ⟨hasc, -⟩ := c.ascending_toInt hhalf
  obtain ⟨prog, table, heq, -⟩ := h someRegs (fun _ => 1) 0 0 fun _ _ => Nat.one_ne_zero
  have hmax : (c.ranges.getLast c.ne_nil).upper.toInt = 2 ^ 63 - 1 :=
    (congrArg BitVec.toInt hhigh).trans (by decide)
  rw [caseTag, hvector, if_pos rfl, Case.low, vectorLoop_none c.ranges c.ne_nil hasc hmax _ _
    (Int.le_refl _)] at heq
  cases heq

/-- The counting loop gives the highest value, and a count that grows by two at most for each
range. -/
theorem countLoop_spec : ∀ (zs : List Range) (hne : zs ≠ []) (u n : BitVec 64),
    n.toNat + 2 * zs.length < 2 ^ 64 →
    (countLoop zs u n).1 = (zs.getLast hne).upper ∧
      (countLoop zs u n).2.toNat ≤ n.toNat + 2 * zs.length
  | [], hne, _, _, _ => absurd rfl hne
  | [z], _, u, n, hn => by
      have hone : (1 : BitVec 64).toNat = 1 := rfl
      have hlast : countLoop [z] u n =
          (z.upper, if u + 1 ≠ z.lower ∧ z.child.isSome then n + 1 else n) := rfl
      rw [hlast]
      rw [List.length_singleton] at hn ⊢
      refine ⟨rfl, ?_⟩
      dsimp only
      split
      · rw [BitVec.toNat_add]
        omega
      · omega
  | z :: y :: zs, _, u, n, hn => by
      have hone : (1 : BitVec 64).toNat = 1 := rfl
      rw [List.length_cons] at hn
      rw [countLoop, List.length_cons]
      obtain ⟨n', hn', heq⟩ : ∃ n' : BitVec 64, n'.toNat ≤ n.toNat + 1 ∧
          n' = if u + 1 ≠ z.lower ∧ z.child.isSome then n + 1 else n := by
        refine ⟨_, ?_, rfl⟩
        split
        · rw [BitVec.toNat_add]
          omega
        · omega
      have hn1 : (n' + 1).toNat = n'.toNat + 1 := by
        rw [BitVec.toNat_add]
        omega
      rw [← heq]
      have hrest := fun u => countLoop_spec (y :: zs) (List.cons_ne_nil y zs) u (n' + 1)
        (by rw [hn1]; omega)
      exact ⟨(hrest _).1, Nat.le_trans (hrest _).2 (by rw [hn1]; omega)⟩

/-- Where a vector is used, the values lie close together. -/
theorem Case.close_of_useVector (hvector : c.useVector = true) (hsgned : c.shape.sgned = false)
    (hlength : c.ranges.length < 2 ^ 30) :
    (c.shape.unsignedRep c.high).toNat - (c.shape.unsignedRep c.low).toNat < 2 ^ 62 := by
  obtain ⟨hlast, hcount⟩ := countLoop_spec c.ranges c.ne_nil (BitVec.intMin 64) 1 (by
    have : (1 : BitVec 64).toNat = 1 := rfl
    omega)
  rw [Case.useVector, Alpha.useVector, hsgned] at hvector
  generalize hres : countLoop c.ranges (BitVec.intMin 64) 1 = res at *
  obtain ⟨u, n⟩ := res
  replace hlast : u = c.high := hlast
  replace hcount : n.toNat ≤ 1 + 2 * c.ranges.length := hcount
  replace hvector : (c.shape.unsignedRep u >>> 1 - c.shape.unsignedRep c.low >>> 1).toInt ≤
      ((n * n).sdiv 4 - 3).toInt := of_decide_eq_true hvector
  rw [hlast] at hvector
  have hbound : n.toNat * n.toNat < 2 ^ 62 :=
    Nat.mul_lt_mul'' (c := 2 ^ 31) (d := 2 ^ 31) (by omega) (by omega)
  have hsq : (n * n).toNat = n.toNat * n.toNat := by
    rw [BitVec.toNat_mul, Nat.mod_eq_of_lt (by omega)]
  have hdiv : ((n * n).sdiv 4).toNat = n.toNat * n.toNat / 4 := by
    rw [BitVec.sdiv_eq, BitVec.msb_eq_false_iff_two_mul_lt.2 (by rw [hsq]; omega)]
    simp only [show (4 : BitVec 64).msb = false from rfl]
    rw [BitVec.udiv_eq, BitVec.toNat_udiv, hsq]
    rfl
  have hyt : ((n * n).sdiv 4 - 3).toInt = n.toNat * n.toNat / 4 - 3 := by
    have hthree : (3 : BitVec 64).toInt = 3 := by decide
    have := toInt_of_msb ((n * n).sdiv 4)
    rw [BitVec.toInt_sub, Int.bmod_def]
    omega
  have hhalf : ∀ x : BitVec 64, (x >>> 1).toInt = x.toNat / 2 := by
    intro x
    have hx : (x >>> 1).toNat = x.toNat / 2 := by
      rw [BitVec.toNat_ushiftRight, Nat.shiftRight_eq_div_pow, Nat.pow_one]
    have := x.isLt
    have := toInt_of_msb (x >>> 1)
    omega
  rw [hyt, BitVec.toInt_sub, hhalf, hhalf, Int.bmod_def] at hvector
  have := (c.shape.unsignedRep c.high).isLt
  have := (c.shape.unsignedRep c.low).isLt
  omega

/-- Memory that holds a vector at zero. -/
def memOf (table : List Nat) : Mem := fun a =>
  if a.toNat % 4 = 0 then
    match table[a.toNat / 4]? with
    | some l => BitVec.ofNat 8 (l + 1)
    | none => 0
  else 0

theorem long_memOf {table : List Nat} (htable : ∀ l ∈ table, l < 2) {i : Nat}
    (hi : i < 2 ^ 62) :
    (long (memOf table) (BitVec.ofNat 64 (4 * i))).toNat =
      match table[i]? with
      | some l => l + 1
      | none => 0 := by
  have hnat : (BitVec.ofNat 64 (4 * i)).toNat = 4 * i := by
    rw [BitVec.toNat_ofNat]
    omega
  have hzero : ∀ k ∈ [1, 2, 3], memOf table (BitVec.ofNat 64 (4 * i) + BitVec.ofNat 64 k) = 0 := by
    intro k hk
    rw [memOf, if_neg]
    rw [BitVec.toNat_add, hnat, BitVec.toNat_ofNat]
    simp only [List.mem_cons, List.not_mem_nil, or_false] at hk
    omega
  have hfirst : (memOf table (BitVec.ofNat 64 (4 * i))).toNat =
      match table[i]? with
      | some l => l + 1
      | none => 0 := by
    rw [memOf, hnat, if_pos (by omega), Nat.mul_div_cancel_left i (by omega)]
    cases hl : table[i]? with
    | none => rfl
    | some l =>
        have := htable l (List.mem_of_getElem? hl)
        exact (BitVec.toNat_ofNat (l + 1) 8).trans (Nat.mod_eq_of_lt (by omega))
  have h3 := hzero 3 (by simp)
  have h2 := hzero 2 (by simp)
  have h1 := hzero 1 (by simp)
  generalize BitVec.ofNat 64 (4 * i) = a at hfirst h1 h2 h3 ⊢
  have hlong : long (memOf table) a = (0 : BitVec 8) ++ (0 : BitVec 8) ++ (0 : BitVec 8) ++
      memOf table a :=
    congrArg (· ++ memOf table a) (congrArg₂ (· ++ ·) (congrArg₂ (· ++ ·) h3 h2) h1)
  rw [← hfirst, hlong, BitVec.toNat_append]
  simp

/-- The code address in an entry of such a vector. -/
theorem toNat_entry {table : List Nat} (htable : ∀ l ∈ table, l < 2) {i : Nat} (hi : i < 2 ^ 62) :
    ((long (memOf table) (BitVec.ofNat 64 (4 * i))).signExtend 64 + 0).toNat =
      match table[i]? with
      | some l => l + 1
      | none => 0 := by
  have hlong := long_memOf htable hi
  have hsmall : (long (memOf table) (BitVec.ofNat 64 (4 * i))).toNat < 3 := by
    rw [hlong]
    cases hl : table[i]? with
    | none => exact Nat.zero_lt_succ 2
    | some l => exact Nat.succ_lt_succ (htable l (List.mem_of_getElem? hl))
  rw [← hlong, show ∀ x : BitVec 64, x + 0 = x from fun x => BitVec.add_zero x,
    BitVec.signExtend_eq_setWidth_of_msb_false
      (BitVec.msb_eq_false_iff_two_mul_lt.2 (by omega)), BitVec.toNat_setWidth]
  omega

/-- The values of an unsigned case on both sides of the middle, and what a vector has for them. -/
theorem Case.index_ge (hvector : c.useVector = true) (hsgned : c.shape.sgned = false)
    (hlength : c.ranges.length < 2 ^ 30) (hhalf : ¬ c.OneHalf) {r}
    (hloop : vectorLoop lab endlab c.ranges (BitVec.intMin 64) c.low = some r) :
    r.1.length ≤ (c.high - c.low).toNat % 2 ^ 62 := by
  have hnum := number_unsigned hsgned
  have hhigh := Case.high_msb hsgned hhalf
  have hlow : c.low.msb = false := by
    obtain ⟨z, hz, hmsb⟩ : ∃ z ∈ c.ranges, z.lower.msb = false := by
      by_contra hno
      exact hhalf (.inr fun z hz => by simpa using fun hmsb => hno ⟨z, hz, hmsb⟩)
    have hle := c.ascending.head_le c.ne_nil hz
    rw [hnum, hnum] at hle
    replace hle : (c.low.toNat : Int) ≤ z.lower.toNat := hle
    have := toInt_of_msb c.low
    have := toInt_of_msb z.lower
    grind
  have hx := toInt_of_msb c.high
  rw [hhigh] at hx
  have hl := toInt_of_msb c.low
  rw [hlow] at hl
  simp only [Bool.true_eq_false, Bool.false_eq_true, false_and, true_and, false_or, or_false]
    at hx hl
  obtain ⟨hcount, -⟩ := vectorLoop_count hloop
  have hsub : (c.high - c.low).toNat = c.high.toNat - c.low.toNat := by
    rw [BitVec.toNat_sub]
    have := c.high.isLt
    omega
  rw [hsub]
  cases his64 : c.shape.is64 with
  | true =>
      have hclose := Case.close_of_useVector hvector hsgned hlength
      rw [IntShape.unsignedRep, IntShape.unsignedRep, if_pos his64, if_pos his64] at hclose
      have := r.2.2.toInt_lt
      omega
  | false =>
      have hbounds : ∀ x : BitVec 64, c.shape.Holds x → -2 ^ 31 ≤ x.toInt ∧ x.toInt < 2 ^ 31 := by
        intro x hholds
        have hext := congrArg BitVec.toInt (hholds his64)
        rw [BitVec.toInt_signExtend_of_le (by decide)] at hext
        have := (x.setWidth 32).le_toInt
        have := (x.setWidth 32).toInt_lt
        omega
      have hxb := hbounds c.high (c.holds _ (List.getLast_mem c.ne_nil)).2
      have hlb := hbounds c.low (c.holds _ (List.head_mem c.ne_nil)).1
      have hn := vectorLoop_bound (B := 2 ^ 31) hloop (C := 2 ^ 31) (Int.le_refl _)
        (fun z hz => ⟨(hbounds _ (c.holds z hz).1).2, (hbounds _ (c.holds z hz).2).2⟩)
        (by omega) (by omega)
      have := c.high.isLt
      omega

/-- A vector does not serve values in both halves. -/
theorem Selects.oneHalf (h : Selects c) (hvector : c.useVector = true)
    (hsgned : c.shape.sgned = false) (hlength : c.ranges.length < 2 ^ 30) : c.OneHalf := by
  by_contra hhalf
  obtain ⟨prog, table, heq, hrun⟩ := h someRegs (fun _ => 1) 0 0 fun _ _ => Nat.one_ne_zero
  rw [caseTag, hvector, if_pos rfl] at heq
  obtain ⟨⟨table', u', n'⟩, hloop, heq⟩ := Option.map_eq_some_iff.1 heq
  obtain ⟨rfl, rfl⟩ := Prod.mk.inj heq
  have hlabels : ∀ l ∈ table', l < 2 := by
    intro l hl
    obtain rfl | ⟨-, -, rfl⟩ := (vectorLoop_count hloop).2 l hl
    · exact Nat.zero_lt_two
    · exact Nat.one_lt_two
  have hindex := Case.index_ge hvector hsgned hlength hhalf hloop
  replace hindex : table'.length ≤ (c.high - c.low).toNat % 2 ^ 62 := hindex
  let env : Env Nat := ⟨true, fun v => if v = 0 then none else some (v.toNat - 1), fun _ => 0⟩
  let s : State := ⟨fun r => if r = gpReg then 0 else c.high, memOf table'⟩
  have hs : s.get someRegs.r = c.high := rfl
  have hgp : s.get gpReg = 0 := rfl
  have hcode : ∀ i < 2 ^ 62, ∀ a, a = BitVec.ofNat 64 (4 * i) →
      env.code ((long (memOf table') a).signExtend 64 + 0) = table'[i]? := by
    intro i hi a ha
    have hentry := toNat_entry hlabels hi
    rw [← ha] at hentry
    generalize (long (memOf table') a).signExtend 64 + 0 = v at hentry ⊢
    change (if v = 0 then none else some (v.toNat - 1)) = _
    cases hl : table'[i]? with
    | none =>
        rw [hl] at hentry
        exact if_pos (BitVec.eq_of_toNat_eq hentry)
    | some l =>
        rw [hl] at hentry
        dsimp only at hentry
        rw [if_neg (fun hv => by rw [hv] at hentry; cases hentry), hentry, Nat.add_sub_cancel]
  have hlinked : Linked env s 0 table' := by
    refine ⟨rfl, fun i l hl => ?_⟩
    have hi := (List.getElem?_eq_some_iff.1 hl).1
    rw [hgp, ← hl]
    exact hcode i (by omega) _ (BitVec.zero_add _)
  obtain ⟨t, ht⟩ := (hrun env s hlinked (c.holds _ (List.getLast_mem c.ne_nil)).2).1 _
    (List.getLast_mem c.ne_nil) c.contains_high
  obtain ⟨t', hmem, hgp', htmp, hreach⟩ := vectorCode_reaches env someRegs 0 0 c.low u' s
  by_cases hlt : s.get someRegs.r - c.low < u' - c.low + 1
  · rw [if_pos hlt] at hreach
    have haddr : 4 * (c.high - c.low) + 0 =
        BitVec.ofNat 64 (4 * ((c.high - c.low).toNat % 2 ^ 62)) := by
      rw [entry_address]
      refine BitVec.eq_of_toNat_eq ?_
      rw [BitVec.toNat_add, BitVec.toNat_ofNat, BitVec.toNat_ofNat]
      have : (0 : BitVec 64).toNat = 0 := rfl
      omega
    have halign : (4 * (c.high - c.low) + 0).toNat % 4 = 0 := by
      rw [haddr, BitVec.toNat_ofNat]
      omega
    have hnone := hcode _ (Nat.mod_lt _ (by omega)) _ haddr
    rw [List.getElem?_eq_none hindex] at hnone
    obtain ⟨b, hb, hstuck⟩ := (jump_reaches (htmp hlt) halign [.setLabel 0]).2
      (by rw [hmem, hgp', hgp]; exact hnone)
    exact ht.not_stuck (hreach.trans hb) hstuck
  · rw [if_neg hlt] at hreach
    cases (ht.unique ⟨hreach, rfl⟩).1

/-- The code for a case selects the right label where the condition holds; for a case with fewer
than `2 ^ 30` ranges, only there. -/
theorem caseTag_exact (c : Case) :
    (c.Right → Selects c) ∧ (c.ranges.length < 2 ^ 30 → Selects c → c.Right) := by
  refine ⟨Case.Right.selects, fun hlength h => ?_⟩
  rw [Case.Right]
  cases hvector : c.useVector with
  | true =>
      have hhalf : c.shape.sgned = true ∨ c.OneHalf := by
        cases hsgned : c.shape.sgned with
        | true => exact .inl rfl
        | false => exact .inr (h.oneHalf hvector hsgned hlength)
      rw [if_pos rfl]
      exact ⟨hhalf, h.high_ne hvector hhalf⟩
  | false =>
      rw [if_neg Bool.false_ne_true]
      cases hsgned : c.shape.sgned with
      | true => exact .inl rfl
      | false =>
          by_cases hhalf : c.OneHalf
          · exact .inr (.inl hhalf)
          · exact .inr (.inr (h.chain_high hvector hsgned hhalf))

/-- A case on a signed number of 32 bits. -/
def signedCase : Case where
  shape := ⟨true, false⟩
  ranges := [⟨-7, some (-2)⟩, ⟨0, none⟩, ⟨5, some 0x7fffffff⟩]
  ne_nil := List.cons_ne_nil _ _
  holds := by decide
  le := by decide
  increasing := by decide

theorem caseTag_exact_signed : Selects signedCase ∧ signedCase.Right := by
  have hright : signedCase.Right := by
    rw [Case.Right, if_neg (by decide)]
    exact .inl rfl
  exact ⟨(caseTag_exact signedCase).1 hright,
    (caseTag_exact signedCase).2 (by decide) ((caseTag_exact signedCase).1 hright)⟩

/-- A case on an unsigned number of 32 bits: from 1 to 5, and `0x80000000`. -/
def unsignedCase : Case where
  shape := ⟨false, false⟩
  ranges := [⟨1, some 5⟩, ⟨0xffffffff80000000, none⟩]
  ne_nil := List.cons_ne_nil _ _
  holds := by decide
  le := by decide
  increasing := by decide

/-- A case on a signed number of 64 bits: the four largest ones. -/
def largestCase : Case where
  shape := ⟨true, true⟩
  ranges := [⟨0x7ffffffffffffffc, none⟩, ⟨0x7ffffffffffffffd, none⟩, ⟨0x7ffffffffffffffe, none⟩,
    ⟨0x7fffffffffffffff, none⟩]
  ne_nil := List.cons_ne_nil _ _
  holds := by decide
  le := by decide
  increasing := by decide

theorem not_selects : ¬ Selects unsignedCase ∧ ¬ Selects largestCase := by
  refine ⟨fun h => ?_, fun h => ?_⟩
  · have hhalf : ¬ unsignedCase.OneHalf := by
      intro hhalf
      obtain hlow | hhigh := hhalf
      · exact absurd (hlow ⟨0xffffffff80000000, none⟩ (by decide)) (by decide)
      · exact absurd (hhigh ⟨1, some 5⟩ (by decide)) (by decide)
    have hhigh := h.chain_high (by decide) rfl hhalf ⟨1, some 5⟩ (by decide) rfl
    exact absurd hhigh (by decide)
  · exact h.high_ne (by decide) (.inl rfl) rfl

end

end Tendra.Ref.Trans.Alpha
