import Tendra.Proofs.Unroll.Code

/-!
# When the unrolled code does what the loop does

The loop is left at the first value after the initial one for which the test holds. Where
the initial value is below the limit, that is one value for both tests, and how far it is
from the initial value is what `id` is computed from. Beyond the limit the loop still does
one round, while the unrolled code does as many as `id` says, or four where it is zero.
-/

namespace Tendra.Ref.Unroll

/-! ## The values of the control variable -/

section

variable {nt : Nat} {limit v x : BitVec 32}

theorem stops_iff (hnt : nt = Ntest.greaterThan.code ∨ nt = Ntest.greaterThanOrEqual.code) :
    stops nt limit x = true ↔ nt = 1 ∧ limit.toInt < x.toInt ∨ nt = 2 ∧ limit.toInt ≤ x.toInt := by
  obtain rfl | rfl := hnt
  · simp [stops, Ntest.ofCode, Ntest.code, Ntest.holds]
  · simp [stops, Ntest.ofCode, Ntest.code, Ntest.holds]

theorem toInt_bounds (x : BitVec 32) : -2147483648 ≤ x.toInt ∧ x.toInt ≤ 2147483647 := by
  have := BitVec.le_toInt x
  have := BitVec.toInt_lt (x := x)
  omega

theorem toInt_add_one (x : BitVec 32) : (x + 1).toInt =
    if x.toInt = 2147483647 then -2147483648 else x.toInt + 1 := by
  have := toInt_bounds x
  rw [BitVec.toInt_add, show (1 : BitVec 32).toInt = 1 from rfl, Int.bmod_def]
  split <;> split <;> omega

theorem toInt_lastValue (nt : Nat) (limit : BitVec 32) : (lastValue nt limit).toInt =
    if nt = 1 then (limit + 1).toInt else limit.toInt := by
  exact apply_ite BitVec.toInt (nt = 1) (limit + 1) limit

/-- The loop is left where the control variable comes to its last value. -/
theorem eq_lastValue (hnt : nt = Ntest.greaterThan.code ∨ nt = Ntest.greaterThanOrEqual.code)
    (hx : ¬ stops nt limit x = true) (hx' : stops nt limit (x + 1) = true) :
    x + 1 = lastValue nt limit := by
  have hb := toInt_bounds x
  have hb' := toInt_bounds limit
  have hcode : nt = 1 ∨ nt = 2 := hnt
  rw [stops_iff hnt] at hx hx'
  refine BitVec.eq_of_toInt_eq ?_
  rw [toInt_lastValue, toInt_add_one]
  rw [toInt_add_one] at hx' ⊢
  split at hx' <;> split <;> split <;> omega

/-- Beginning with `v`, the body is executed for the values up to the limit, also round over the
greatest integer; or `id` is 1 where one value is left. -/
def Counts (nt : Nat) (limit v : BitVec 32) : Prop :=
  v.slt limit = true ∨ v = BitVec.intMax 32 ∨ (lastValue nt limit - v) &&& 3 = 1

/-- Elsewhere the loop does one round, and `id` is not 1. -/
theorem stops_of_not_counts
    (hnt : nt = Ntest.greaterThan.code ∨ nt = Ntest.greaterThanOrEqual.code)
    (h : ¬ Counts nt limit v) :
    stops nt limit (v + 1) = true ∧ (lastValue nt limit - v) &&& 3 ≠ 1 := by
  refine ⟨?_, fun h1 => h (.inr (.inr h1))⟩
  have hlt : ¬ v.toInt < limit.toInt := fun hlt => h (.inl (BitVec.slt_iff_toInt_lt.2 hlt))
  have hmax : v.toInt ≠ 2147483647 := by
    intro hv
    exact h (.inr (.inl (BitVec.eq_of_toInt_eq (hv.trans (by decide)))))
  have hcode : nt = 1 ∨ nt = 2 := hnt
  rw [stops_iff hnt, toInt_add_one, if_neg hmax]
  omega

theorem rem_one_of_counts
    (hnt : nt = Ntest.greaterThan.code ∨ nt = Ntest.greaterThanOrEqual.code)
    (h : Counts nt limit v) (hstop : stops nt limit (v + 1) = true) :
    (lastValue nt limit - v) &&& 3 = 1 := by
  have hlast : v.toInt < limit.toInt ∨ v.toInt = 2147483647 → v + 1 = lastValue nt limit := by
    intro hv
    have hb' := toInt_bounds limit
    have hcode : nt = 1 ∨ nt = 2 := hnt
    rw [stops_iff hnt] at hstop
    refine BitVec.eq_of_toInt_eq ?_
    rw [toInt_lastValue, toInt_add_one]
    rw [toInt_add_one] at hstop ⊢
    split at hstop <;> split <;> split <;> omega
  obtain hlt | rfl | hone := h
  · rw [← hlast (.inl (BitVec.slt_iff_toInt_lt.1 hlt)), BitVec.add_comm, BitVec.add_sub_cancel]
    rfl
  · rw [← hlast (.inr rfl), BitVec.add_comm, BitVec.add_sub_cancel]
    rfl
  · exact hone

theorem ofNat_and_three (n : Nat) : BitVec.ofNat 32 n &&& 3 = BitVec.ofNat 32 (n % 4) := by
  refine BitVec.eq_of_toNat_eq ?_
  rw [BitVec.toNat_and, BitVec.toNat_ofNat, BitVec.toNat_ofNat,
    show (3 : BitVec 32).toNat = 2 ^ 2 - 1 from rfl, Nat.and_two_pow_sub_one_eq_mod]
  omega

/-- Where the loop is left, `id` says how many of the bodies were preliminaries. -/
theorem mod_four_of_stops
    (hnt : nt = Ntest.greaterThan.code ∨ nt = Ntest.greaterThanOrEqual.code)
    (h : Counts nt limit v) {n : Nat} (hn : 0 < n)
    (hbefore : ∀ j, 0 < j → j < n → ¬ stops nt limit (v + BitVec.ofNat 32 j) = true)
    (hstop : stops nt limit (v + BitVec.ofNat 32 n) = true) :
    (lastValue nt limit - v) &&& 3 = BitVec.ofNat 32 (n % 4) := by
  obtain ⟨n, rfl⟩ := Nat.exists_eq_succ_of_ne_zero hn.ne'
  obtain rfl | hpos := Nat.eq_zero_or_pos n
  · exact rem_one_of_counts hnt h hstop
  · rw [Nat.succ_eq_add_one, ← add_ofNat_succ] at hstop
    rw [← eq_lastValue hnt (hbefore n hpos (Nat.lt_succ_self n)) hstop, add_ofNat_succ,
      BitVec.add_comm, BitVec.add_sub_cancel]
    exact ofNat_and_three (n + 1)

theorem first_pos (r : Nat) : 0 < first r := by
  rw [first]
  split <;> omega

theorem exists_eq_first {n r : Nat} (hn : 0 < n) (hr : n % 4 = r) : ∃ q, n = first r + 4 * q := by
  rw [first]
  split
  · exact ⟨n / 4 - 1, by omega⟩
  · exact ⟨n / 4, by omega⟩

/-- The loop is left where the unrolled code looks. -/
theorem exists_first_of_stops
    (hnt : nt = Ntest.greaterThan.code ∨ nt = Ntest.greaterThanOrEqual.code)
    (h : Counts nt limit v) {r : Nat} (hr : r < 4)
    (hrem : (lastValue nt limit - v) &&& 3 = BitVec.ofNat 32 r) {n : Nat} (hn : 0 < n)
    (hbefore : ∀ j, 0 < j → j < n → ¬ stops nt limit (v + BitVec.ofNat 32 j) = true)
    (hstop : stops nt limit (v + BitVec.ofNat 32 n) = true) : ∃ q, n = first r + 4 * q := by
  have hmod := mod_four_of_stops hnt h hn hbefore hstop
  have heq := congrArg BitVec.toNat (hrem.symm.trans hmod)
  rw [BitVec.toNat_ofNat, BitVec.toNat_ofNat] at heq
  exact exists_eq_first hn (by omega)

/-- The loop is not left between two places where the unrolled code looks. -/
theorem not_stops_of_counts
    (hnt : nt = Ntest.greaterThan.code ∨ nt = Ntest.greaterThanOrEqual.code)
    (h : Counts nt limit v) {r : Nat} (hr : r < 4)
    (hrem : (lastValue nt limit - v) &&& 3 = BitVec.ofNat 32 r) {q : Nat}
    (hq : ∀ j < q, ¬ stops nt limit (v + BitVec.ofNat 32 (first r + 4 * j)) = true) (j : Nat) :
    0 < j → j < first r + 4 * q → ¬ stops nt limit (v + BitVec.ofNat 32 j) = true := by
  induction j using Nat.strong_induction_on with
  | _ j ih =>
      intro hj hlt hstop
      obtain ⟨i, rfl⟩ := exists_first_of_stops hnt h hr hrem hj
        (fun i hi hij => ih i hij hi (Nat.lt_trans hij hlt)) hstop
      exact hq i (by omega) hstop

end

/-! ## Rounds -/

section

variable {V : Type} (M : Meaning V)

/-- The two programs are seen to do the same, and end with the same value of the control variable
or not at all. -/
structure SameRuns (L : Loop) (code : List Instr) (s : World V) : Prop where
  yields : ∀ l x,
    (machine M L.control).Yields World.seen (fun s => s.vars L.control) L.program s l x ↔
      (machine M L.control).Yields World.seen (fun s => s.vars L.control) code s l x
  emits : ∀ l, (machine M L.control).Emits World.seen L.program s l ↔
    (machine M L.control).Emits World.seen code s l

variable {M} {L : Loop} {v : BitVec 32}

theorem Loop.rounds_eq_bodies (hothers : L.others = []) (hafter : L.after = []) (n : Nat) :
    L.rounds M v n = L.bodies M v n := by
  induction n with
  | zero => rfl
  | succ n ih =>
      rw [L.rounds_succ, L.bodies_succ, ih, Loop.round, hothers, hafter]
      rfl

theorem Loop.bodies_prefix {m n : Nat} (h : m ≤ n) : L.bodies M v m <+: L.bodies M v n := by
  induction h with
  | refl => exact List.prefix_rfl
  | step _ ih =>
      rw [L.bodies_succ]
      exact ih.trans (List.prefix_append ..)

/-- The values for which the body is executed follow each other. -/
theorem Loop.fst_of_prefix {l : List (BitVec 32 × V)} {n : Nat} (h : l <+: L.bodies M v n) {i : Nat}
    {x : BitVec 32 × V} (hi : l[i]? = some x) : x.1 = v + BitVec.ofNat 32 i := by
  obtain ⟨t, ht⟩ := h
  have hget : (L.bodies M v n)[i]? = some x := by
    rw [← ht, List.getElem?_append_left (List.getElem?_eq_some_iff.1 hi).1, hi]
  rw [Loop.bodies, List.getElem?_map, Option.map_eq_some_iff] at hget
  obtain ⟨j, hj, rfl⟩ := hget
  obtain ⟨hlt, rfl⟩ := List.getElem?_eq_some_iff.1 hj
  rw [List.getElem_range]

theorem add_ofNat_inj {i j : Nat} (hi : i < 2 ^ 32) (hj : j < 2 ^ 32)
    (h : v + BitVec.ofNat 32 i = v + BitVec.ofNat 32 j) : i = j := by
  have := congrArg BitVec.toNat ((BitVec.add_right_inj v).1 h)
  rwa [BitVec.toNat_ofNat, BitVec.toNat_ofNat, Nat.mod_eq_of_lt hi, Nat.mod_eq_of_lt hj] at this

variable {decs : Nat → Dec} {k : Nat} {vars : Nat → BitVec 32} {id : BitVec 32}
  (A : Accepted decs L k) (hbin : L.val.args.length = 2)
  (hlimit : isContOf L.control L.limit = false) (hform : formed L.control L.body = true)

include A hbin hlimit hform

/-- The unrolled code executes the first statement only, and nothing after the increment. -/
theorem Accepted.whole_of_sameRuns
    (h : SameRuns M L (L.unrollTrans k unrollBy) (.now L vars v id [])) :
    L.others = [] ∧ L.after = [] := by
  obtain ⟨r, hr, hrem⟩ := and_three (lastValue L.nt (word vars L.limit) - v)
  have R := A.program_rounds vars M hbin hlimit v id
  have U := A.unrollTrans_rounds M vars v id hbin hlimit hform hr hrem
  have hadds := machine_adds M L.control
  -- a list that the loop is seen to do, and an item with the wrong value in it
  have hwrong : ∀ {l : List (BitVec 32 × V)} {i : Nat} {x : BitVec 32 × V},
      (machine M L.control).Emits World.seen L.program (.now L vars v id []) l →
      l[i]? = some x → x.1 = v + BitVec.ofNat 32 i := by
    intro l i x hl hx
    obtain ⟨n, -, hpre⟩ := U.exists_of_emits hadds ((h.emits l).1 hl)
    exact Loop.fst_of_prefix hpre hx
  have hone : (machine M L.control).Emits World.seen L.program (.now L vars v id [])
      (L.round M v) := by
    refine R.emits_of hadds rfl (n := 0) (fun j hj => absurd hj (Nat.not_lt_zero j)) ?_
    rw [L.rounds_succ, BitVec.add_zero]
    exact List.prefix_rfl
  have hothers : L.others = [] := by
    cases ho : L.others with
    | nil => rfl
    | cons o os =>
        have hx : (L.round M v)[1]? = some (v, M.eval L.control v o) := by
          rw [Loop.round, ho]
          rfl
        have heq : v + BitVec.ofNat 32 0 = v + BitVec.ofNat 32 1 := by
          rw [BitVec.add_zero]
          exact hwrong hone hx
        exact absurd (add_ofNat_inj (by decide) (by decide) heq) Nat.zero_ne_one
  refine ⟨hothers, ?_⟩
  cases ha : L.after with
  | nil => rfl
  | cons a as =>
      -- the third item belongs to the value after the first one, and so does the second
      have hthird : ∀ {l : List (BitVec 32 × V)} {y : V},
          (machine M L.control).Emits World.seen L.program (.now L vars v id []) l →
          l[2]? ≠ some (v + 1, y) := by
        intro l y hl hy
        have heq : v + BitVec.ofNat 32 1 = v + BitVec.ofNat 32 2 := hwrong hl hy
        exact absurd (add_ofNat_inj (by decide) (by decide) heq) (by decide)
      have hround : L.round M v = (v, M.eval L.control v L.body) ::
          (v + 1, M.eval L.control (v + 1) a) ::
            as.map fun e => (v + 1, M.eval L.control (v + 1) e) := by
        rw [Loop.round, hothers, ha]
        rfl
      cases as with
      | cons b bs =>
          refine absurd ?_ (hthird hone (y := M.eval L.control (v + 1) b))
          rw [hround]
          rfl
      | nil =>
          by_cases hstop : stops L.nt (word vars L.limit) (v + 1) = true
          · have hy := R.yields_of (n := 0) (fun j hj => absurd hj (Nat.not_lt_zero j)) hstop
            obtain ⟨n, -, -, hl, hx⟩ := (U.yields_iff hadds).1 ((h.yields _ _).1 hy)
            have hlen := congrArg List.length hl
            rw [L.length_bodies, L.rounds_succ, BitVec.add_zero, hround] at hlen
            rw [← hlen] at hx
            have heq := add_ofNat_inj (i := 1) (j := 2) (by decide) (by decide) hx
            exact absurd heq (by decide)
          · have htwo : (machine M L.control).Emits World.seen L.program (.now L vars v id [])
                (L.round M v ++ L.round M (v + 1)) := by
              refine R.emits_of hadds rfl (n := 1) (fun j hj => ?_) ?_
              · rw [Nat.lt_one_iff.1 hj]
                exact hstop
              · rw [L.rounds_succ, L.rounds_succ, BitVec.add_zero]
                exact List.prefix_rfl
            refine absurd ?_ (hthird htwo (y := M.eval L.control (v + 1) L.body))
            rw [hround]
            rfl

/-- Where the first statement is all there is, the remainder is right in so many runs. -/
theorem Accepted.sameRuns_iff_counts (hothers : L.others = []) (hafter : L.after = []) :
    SameRuns M L (L.unrollTrans k unrollBy) (.now L vars v id []) ↔
      Counts L.nt (word vars L.limit) v := by
  obtain ⟨r, hr, hrem⟩ := and_three (lastValue L.nt (word vars L.limit) - v)
  have R := A.program_rounds vars M hbin hlimit v id
  have U := A.unrollTrans_rounds M vars v id hbin hlimit hform hr hrem
  have hadds := machine_adds M L.control
  simp only [Loop.rounds_eq_bodies hothers hafter] at R
  refine ⟨fun h => ?_, fun hc => ?_⟩
  · by_contra hc
    obtain ⟨hstop, hne⟩ := stops_of_not_counts A.nt hc
    have hy := R.yields_of (n := 0) (fun j hj => absurd hj (Nat.not_lt_zero j)) hstop
    obtain ⟨n, -, -, hl, -⟩ := (U.yields_iff hadds).1 ((h.yields _ _).1 hy)
    have hlen := congrArg List.length hl
    rw [L.length_bodies, L.length_bodies, first] at hlen
    obtain rfl : r = 1 := by
      split at hlen <;> omega
    exact hne hrem
  · have hpos := first_pos r
    have hbefore : ∀ n, (∀ j < n, ¬ stops L.nt (word vars L.limit)
        (v + BitVec.ofNat 32 (j + 1)) = true) → ∀ j, 0 < j → j < n + 1 →
          ¬ stops L.nt (word vars L.limit) (v + BitVec.ofNat 32 j) = true := by
      intro n hn j hj hlt
      obtain ⟨i, rfl⟩ := Nat.exists_eq_succ_of_ne_zero hj.ne'
      exact hn i (Nat.lt_of_succ_lt_succ hlt)
    refine ⟨fun l x => ?_, fun l => ?_⟩
    · rw [R.yields_iff hadds, U.yields_iff hadds]
      refine ⟨fun hyields => ?_, fun hyields => ?_⟩
      · obtain ⟨n, hn, hstop, hl, hx⟩ := hyields
        obtain ⟨q, heq⟩ := exists_first_of_stops A.nt hc hr hrem (Nat.succ_pos n)
          (hbefore n hn) hstop
        rw [Nat.succ_eq_add_one] at heq
        rw [heq] at hstop hl hx
        exact ⟨q, fun j hj => hbefore n hn _ (by omega) (by omega), hstop, hl, hx⟩
      · obtain ⟨q, hq, hstop, hl, hx⟩ := hyields
        obtain ⟨n, heq⟩ := Nat.exists_eq_add_of_lt (show 0 < first r + 4 * q by omega)
        rw [Nat.zero_add] at heq
        rw [heq] at hstop hl hx
        exact ⟨n, fun j hj => not_stops_of_counts A.nt hc hr hrem hq _ (Nat.succ_pos j)
          (by omega), hstop, hl, hx⟩
    · rw [R.emits_iff hadds rfl, U.emits_iff hadds rfl]
      refine ⟨fun hemits => ?_, fun hemits => ?_⟩
      · obtain ⟨n, hn, hl⟩ := hemits
        refine ⟨(n + 4 - first r) / 4, fun j hj => hbefore n hn _ (by omega) (by omega), ?_⟩
        have hr4 : first r ≤ 4 := by
          rw [first]
          split <;> omega
        exact hl.trans (Loop.bodies_prefix (by omega))
      · obtain ⟨q, hq, hl⟩ := hemits
        refine ⟨first r + 4 * q - 1, fun j hj => ?_, ?_⟩
        · exact not_stops_of_counts A.nt hc hr hrem hq _ (Nat.succ_pos j) (by omega)
        · rwa [Nat.sub_add_cancel (by omega)]

end

/-- What the language says of a loop that `unroller` takes: the increment is a sum of two, the
limit is not the control variable, and the body is formed as its constructs ask for. -/
structure Loop.Formed (L : Loop) : Prop where
  val : L.val.args.length = 2
  limit : isContOf L.control L.limit = false
  body : formed L.control L.body = true

theorem Accepted.sameRuns_of_formed {V : Type} {decs : Nat → Dec} {L : Loop} {k : Nat}
    (A : Accepted decs L k) (hL : L.Formed) (M : Meaning V) (vars : Nat → BitVec 32)
    (id : BitVec 32) :
    SameRuns M L (L.unrollTrans k unrollBy) ⟨vars, id, []⟩ ↔
      L.others = [] ∧ L.after = [] ∧ Counts L.nt (word vars L.limit) (vars L.control) := by
  have hnow : (⟨vars, id, []⟩ : World V) = .now L vars (vars L.control) id [] := by
    rw [World.now, withControl_eq]
  rw [hnow]
  refine ⟨fun hsame => ?_, fun hwhole => ?_⟩
  · obtain ⟨hothers, hafter⟩ := A.whole_of_sameRuns hL.val hL.limit hL.body hsame
    exact ⟨hothers, hafter,
      (A.sameRuns_iff_counts hL.val hL.limit hL.body hothers hafter).1 hsame⟩
  · obtain ⟨hothers, hafter, hcounts⟩ := hwhole
    exact (A.sameRuns_iff_counts hL.val hL.limit hL.body hothers hafter).2 hcounts

/-- The unrolled code does what the loop does if and only if nothing is executed in a round but one
statement and the increment, and the control variable counts from its initial value to the limit,
or `id` is 1. -/
theorem sameRuns_iff {V : Type} {alpha : Bool} {decs : Nat → Dec} {e : Exp} {L : Loop}
    {code : List Instr} (h : unroller alpha decs e = some (L, code)) (hL : L.Formed)
    (M : Meaning V) (vars : Nat → BitVec 32) (id : BitVec 32) :
    SameRuns M L code ⟨vars, id, []⟩ ↔
      L.others = [] ∧ L.after = [] ∧ Counts L.nt (word vars L.limit) (vars L.control) := by
  obtain ⟨k, A, rfl⟩ := accepted_of_unroller h
  exact A.sameRuns_of_formed hL M vars id

/-- `do p[i] = 0; while (++i <= limit)`: the variable `i` is 1, `limit` is 2, and `p` is 3. -/
def clearLoop : Exp :=
  let int := intShape 32 true
  let var (d : Nat) : Exp := .mk ⟨.nameTag, int, 0, 0, none, d⟩ []
  let val (n : Int) : Exp := .mk ⟨.valTag, int, n, 0, none, 0⟩ []
  let cont (d : Nat) : Exp := meU3 int (var d) .contTag
  let holder (e : Exp) : Exp := .mk ⟨.holderTag, topShape, 1, 0, none, 0⟩ [e]
  let place := meB3 int (var 3) (meB3 int (cont 1) (val 4) .offsetMultTag) .addptrTag
  let ass := meB3 topShape (var 1) (meB3 int (cont 1) (val 1) .plusTag) .assTag
  let te := makeTest .greaterThan (some 9) (cont 1) (cont 2) .testTag
  let body := meB3 topShape (holder (meB3 topShape place (val 0) .assTag))
    (meB3 topShape (holder ass) te .seqTag) .seqTag
  meB3 topShape (.mk ⟨.topTag, topShape, 0, 0, none, 0⟩ [])
    (.mk ⟨.labstTag, topShape, 0, 0, none, 9⟩
      [.mk ⟨.clearTag, topShape, 1, 0, none, 0⟩ [], body]) .repTag

/-- What `unroller` makes of it, where `p` is no variable. -/
def clearUnrolled : Loop × List Instr :=
  (unroller false (fun d => ⟨d ≠ 3, false, true⟩) clearLoop).getD
    (⟨0, clearLoop, [], clearLoop, [], clearLoop⟩, [])

theorem unroller_clearLoop :
    unroller false (fun d => ⟨d ≠ 3, false, true⟩) clearLoop = some clearUnrolled := rfl

/-- Nothing but the number of executions is told of a statement. -/
def Meaning.silent : Meaning Unit := ⟨fun _ _ => (), fun _ => (), fun _ _ => rfl, fun _ _ _ => rfl⟩

/-- From 0 up to 10. -/
theorem sameRuns_iff_clear : SameRuns .silent clearUnrolled.1 clearUnrolled.2
    ⟨fun d => if d = 2 then 10 else 0, 0, []⟩ :=
  (sameRuns_iff unroller_clearLoop ⟨by decide, by decide, by decide⟩ .silent _ 0).2
    ⟨rfl, rfl, .inl (by decide)⟩

/-- Beginning with 5 beyond a limit of 0 the unrolled code executes the body four times. -/
theorem not_sameRuns : ¬ SameRuns .silent clearUnrolled.1 clearUnrolled.2
    ⟨fun d => if d = 1 then 5 else 0, 0, []⟩ := by
  obtain ⟨k, A, hcode⟩ : ∃ k, Accepted (fun d => ⟨d ≠ 3, false, true⟩) clearUnrolled.1 k ∧
      clearUnrolled.2 = clearUnrolled.1.unrollTrans k unrollBy :=
    accepted_of_unroller unroller_clearLoop
  rw [hcode, A.sameRuns_of_formed ⟨by decide, by decide, by decide⟩]
  unfold Counts
  decide

end Tendra.Ref.Unroll
