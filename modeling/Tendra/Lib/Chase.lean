import Mathlib.Data.Finset.Card
import Mathlib.Data.Fintype.Card
import Mathlib.Data.Fintype.EquivFin
import Mathlib.Logic.Relation
import Mathlib.Logic.Function.Basic

/-!
# Following a partial function to its end

The elements that are passed on the way are marked, so that a cycle is noticed, and each of them
is given the end when it is known. An element whose end is known is not passed again, so every
cycle is noticed once.
-/

namespace Tendra.Chase

open Relation

/-- What is known of an element. -/
inductive Status (P : Type)
  | fresh
  | cycling
  | done (r : Option P)

def Status.isFresh {P : Type} : Status P → Bool
  | .fresh => true
  | _ => false

section

variable {P : Type} (nx : P → Option P)

/-- One element leads to another. -/
def Step (p q : P) : Prop := nx p = some q

/-- The end that an element leads to. -/
def Ends (p z : P) : Prop := ReflTransGen (Step nx) p z ∧ nx z = none

/-- An element that leads to itself. -/
def OnCycle (p : P) : Prop := TransGen (Step nx) p p

/-- The result for an element, if there is an end, and that there is none otherwise. -/
def Right (p : P) (r : Option P) : Prop := ∀ z, r = some z ↔ Ends nx p z

variable [DecidableEq P]

/-- The end of an element, the elements at which a cycle is noticed, and what is known then. -/
def chase : Nat → P → (P → Status P) → Option (Option P × List P × (P → Status P))
  | 0, _, _ => none
  | fuel + 1, p, σ =>
      match nx p with
      | none => some (some p, [], σ)
      | some q =>
          match σ p with
          | .done r => some (r, [], σ)
          | .cycling => some (none, [p], σ)
          | .fresh =>
              (chase fuel q (Function.update σ p .cycling)).map fun res =>
                (res.1, res.2.1, Function.update res.2.2 p (.done res.1))

/-- One element after the other. -/
def chaseAll (fuel : Nat) : List P → (P → Status P) → Option (List P × (P → Status P))
  | [], σ => some ([], σ)
  | p :: ps, σ =>
      (chase nx fuel p σ).bind fun res =>
        (chaseAll fuel ps res.2.2).map fun res' => (res.2.1 ++ res'.1, res'.2)

end

/-! ## Ends and cycles -/

section

variable {P : Type} {nx : P → Option P} {p q z : P}

theorem Step.unique {a b c : P} (h : Step nx a b) (h' : Step nx a c) : b = c :=
  Option.some.inj (h.symm.trans h')

theorem ends_self (h : nx p = none) : Ends nx p p := ⟨.refl, h⟩

theorem ends_iff_of_step (h : nx p = some q) : Ends nx p z ↔ Ends nx q z := by
  constructor
  · rintro ⟨hreach, hz⟩
    rcases hreach.cases_head with rfl | ⟨r, hr, hreach⟩
    · rw [h] at hz
      cases hz
    · exact ⟨Step.unique hr h ▸ hreach, hz⟩
  · rintro ⟨hreach, hz⟩
    exact ⟨.head h hreach, hz⟩

theorem ends_unique {z' : P} (h : Ends nx p z) (h' : Ends nx p z') : z = z' := by
  obtain ⟨h, hz⟩ := h
  induction h using ReflTransGen.head_induction_on with
  | refl =>
      rcases h'.1.cases_head with rfl | ⟨r, hr, -⟩
      · rfl
      · rw [show Step nx z r = (nx z = some r) from rfl, hz] at hr
        cases hr
  | head hstep _ ih => exact ih ((ends_iff_of_step hstep).1 h')

theorem OnCycle.next (h : OnCycle nx p) : ∃ q, nx p = some q ∧ OnCycle nx q ∧
    ReflTransGen (Step nx) q p := by
  obtain ⟨q, hq, hreach⟩ := TransGen.head'_iff.1 h
  exact ⟨q, hq, TransGen.tail' hreach hq, hreach⟩

theorem OnCycle.reach (h : OnCycle nx p) (hq : ReflTransGen (Step nx) p q) :
    OnCycle nx q ∧ ReflTransGen (Step nx) q p := by
  induction hq with
  | refl => exact ⟨h, .refl⟩
  | tail _ hstep ih =>
      obtain ⟨r, hr, hcycle, hback⟩ := ih.1.next
      obtain rfl := Step.unique hr hstep
      exact ⟨hcycle, hback.trans ih.2⟩

theorem OnCycle.not_ends (h : OnCycle nx p) : ¬Ends nx p z := by
  rintro ⟨hreach, hz⟩
  obtain ⟨q, hq, -⟩ := (h.reach hreach).1.next
  rw [hz] at hq
  cases hq

/-- Where there is no cycle, everything leads to an end. -/
theorem exists_ends {S : Finset P} (hS : ∀ p ∈ S, ∀ q, nx p = some q → q ∈ S)
    (hno : ∀ p ∈ S, ¬OnCycle nx p) (hp : p ∈ S) : ∃ z, Ends nx p z := by
  have hwf : WellFounded fun a b : S => TransGen (Step nx) b.1 a.1 := by
    have : IsTrans S fun a b => TransGen (Step nx) b.1 a.1 := ⟨fun _ _ _ h h' => h'.trans h⟩
    have : Std.Irrefl fun a b : S => TransGen (Step nx) b.1 a.1 := ⟨fun a h => hno a.1 a.2 h⟩
    exact Finite.wellFounded_of_trans_of_irrefl _
  suffices h : ∀ a : S, ∃ z, Ends nx a.1 z from h ⟨p, hp⟩
  intro a
  induction a using hwf.induction with
  | _ a ih =>
      cases hnx : nx a.1 with
      | none => exact ⟨a.1, ends_self hnx⟩
      | some q =>
          obtain ⟨z, hz⟩ := ih ⟨q, hS a.1 a.2 q hnx⟩ (.single hnx)
          exact ⟨z, (ends_iff_of_step hnx).2 hz⟩

theorem Right.step {r : Option P} (h : nx p = some q) (hr : Right nx q r) : Right nx p r :=
  fun z => (hr z).trans (ends_iff_of_step h).symm

theorem Right.self (h : nx p = none) : Right nx p (some p) := by
  intro z
  constructor
  · intro heq
    exact Option.some.inj heq ▸ ends_self h
  · intro hz
    rw [ends_unique (ends_self h) hz]

theorem Right.cycle (h : OnCycle nx p) : Right nx p none := fun z =>
  ⟨fun heq => absurd heq (Option.some_ne_none z).symm, fun hz => absurd hz h.not_ends⟩

end

/-! ## One element -/

section

variable {P : Type} {nx : P → Option P} {σ : P → Status P} {p : P}

/-- What is known is right, and what it rests on is known. -/
structure Known (nx : P → Option P) (σ : P → Status P) : Prop where
  right : ∀ x r, σ x = .done r → Right nx x r
  closed : ∀ x r y, σ x = .done r → nx x = some y → nx y = none ∨ ∃ r, σ y = .done r

/-- What has become known on the way from an element. -/
structure Chased (nx : P → Option P) (σ : P → Status P) (p : P) (r : Option P) (reports : List P)
    (σ' : P → Status P) : Prop where
  right : Right nx p r
  kept : ∀ x, σ' x = σ x ∨ σ x = .fresh ∧ ∃ r y, σ' x = .done r ∧ Right nx x r ∧
    nx x = some y ∧ (nx y = none ∨ σ' y ≠ .fresh)
  passed : nx p = none ∨ σ' p ≠ .fresh
  reports_eq : reports = [] ∨
    ∃ c, reports = [c] ∧ OnCycle nx c ∧ σ' c ≠ .fresh ∧ ∀ r, σ c ≠ .done r
  back : σ p = .cycling → reports = [p]
  noticed : ∀ x, σ x = .fresh → σ' x ≠ .fresh → OnCycle nx x →
    ∃ c, reports = [c] ∧ ReflTransGen (Step nx) x c

/-- What a cycle goes through is known as soon as one element of it is. -/
theorem Known.reach (h : Known nx σ) {a b : P} {r : Option P} (ha : σ a = .done r)
    (hcycle : OnCycle nx a) (hreach : ReflTransGen (Step nx) a b) : ∃ r, σ b = .done r := by
  induction hreach with
  | refl => exact ⟨r, ha⟩
  | tail hab hstep ih =>
      obtain ⟨r', hr'⟩ := ih
      refine (h.closed _ r' _ hr' hstep).resolve_left fun hnone => ?_
      obtain ⟨y, hy, -⟩ := (hcycle.reach (hab.tail hstep)).1.next
      rw [hnone] at hy
      cases hy

variable [DecidableEq P]

theorem card_cycling {S : Finset P} (hp : p ∈ S) (hσ : σ p = .fresh) :
    (S.filter fun x => (Function.update σ p .cycling x).isFresh).card <
      (S.filter fun x => (σ x).isFresh).card := by
  refine Finset.card_lt_card (Finset.ssubset_iff_of_subset ?_ |>.2 ⟨p, ?_, ?_⟩)
  · intro x hx
    rw [Finset.mem_filter] at hx ⊢
    refine ⟨hx.1, ?_⟩
    by_cases hxp : x = p
    · rw [hxp, hσ]
      rfl
    · rw [← hx.2, Function.update_of_ne hxp]
  · rw [Finset.mem_filter, hσ]
    exact ⟨hp, rfl⟩
  · rw [Finset.mem_filter, Function.update_self]
    exact fun h => absurd h.2 Bool.false_ne_true

/-- An element is passed on the way. -/
theorem Known.pass (h : Known nx σ) (hσ : σ p = .fresh) :
    Known nx (Function.update σ p .cycling) := by
  have hne : ∀ x r, Function.update σ p .cycling x = .done r → σ x = .done r := by
    intro x r hx
    by_cases hxp : x = p
    · rw [hxp, Function.update_self] at hx
      cases hx
    · rwa [Function.update_of_ne hxp] at hx
  refine ⟨fun x r hx => h.right x r (hne x r hx), fun x r y hx hy => ?_⟩
  refine (h.closed x r y (hne x r hx) hy).imp id ?_
  rintro ⟨r', hr'⟩
  refine ⟨r', ?_⟩
  rwa [Function.update_of_ne]
  rintro rfl
  rw [hσ] at hr'
  cases hr'

/-- The element is passed, and the rest of the way is known. -/
theorem Chased.pass {q : P} {r : Option P} {reports : List P} {σ' : P → Status P}
    (hknown : Known nx σ) (hσ : σ p = .fresh) (hnx : nx p = some q)
    (h : Chased nx (Function.update σ p .cycling) q r reports σ') :
    Chased nx σ p r reports (Function.update σ' p (.done r)) := by
  have hfresh : ∀ y, σ' y ≠ .fresh → Function.update σ' p (.done r) y ≠ .fresh := by
    intro y hy
    by_cases hyp : y = p
    · rw [hyp, Function.update_self]
      exact fun h => by cases h
    · rwa [Function.update_of_ne hyp]
  have hother : ∀ x, x ≠ p → Function.update σ p .cycling x = σ x :=
    fun x hx => Function.update_of_ne hx _ _
  refine ⟨h.right.step hnx, fun x => ?_, .inr ?_, h.reports_eq.imp id ?_, fun hc => ?_,
    fun x hx hx' hcycle => ?_⟩
  · by_cases hxp : x = p
    · subst hxp
      exact .inr ⟨hσ, r, q, Function.update_self _ _ _, h.right.step hnx, hnx,
        h.passed.imp id (hfresh q)⟩
    · rw [Function.update_of_ne hxp]
      rcases h.kept x with heq | ⟨hx, r', y, hdone, hright, hy, hyn⟩
      · exact .inl (heq.trans (hother x hxp))
      · exact .inr ⟨hother x hxp ▸ hx, r', y, hdone, hright, hy, hyn.imp id (hfresh y)⟩
  · rw [Function.update_self]
    exact fun h => by cases h
  · rintro ⟨c, hc, hcycle, hc', hdone⟩
    refine ⟨c, hc, hcycle, hfresh c hc', fun r' hr' => ?_⟩
    by_cases hcp : c = p
    · rw [hcp, hσ] at hr'
      cases hr'
    · exact hdone r' ((hother c hcp).trans hr')
  · rw [hσ] at hc
    cases hc
  · by_cases hxp : x = p
    · subst hxp
      obtain ⟨q', hq', hqcycle, hback⟩ := hcycle.next
      obtain rfl : q = q' := Option.some.inj (hnx.symm.trans hq')
      have hpath : ReflTransGen (Step nx) x q := .single hnx
      cases hq : Function.update σ x .cycling q with
      | cycling => exact ⟨q, h.back hq, hpath⟩
      | fresh =>
          have hpassed : σ' q ≠ .fresh := by
            refine h.passed.resolve_left fun hnone => ?_
            obtain ⟨y, hy, -⟩ := hqcycle.next
            rw [hnone] at hy
            cases hy
          obtain ⟨c, hc, hreach⟩ := h.noticed q hq hpassed hqcycle
          exact ⟨c, hc, hpath.trans hreach⟩
      | done r' =>
          -- then the element itself was known
          have hqx : q ≠ x := by
            rintro rfl
            rw [Function.update_self] at hq
            cases hq
          obtain ⟨r'', hr''⟩ := hknown.reach ((hother q hqx).symm.trans hq) hqcycle hback
          rw [hσ] at hr''
          cases hr''
    · rw [Function.update_of_ne hxp] at hx'
      exact h.noticed x ((hother x hxp).trans hx) hx' hcycle

theorem chase_spec {S : Finset P} (hS : ∀ p ∈ S, ∀ q, nx p = some q → q ∈ S) :
    ∀ (fuel : Nat) (p : P) (σ : P → Status P), p ∈ S →
    (S.filter fun x => (σ x).isFresh).card < fuel →
    (∀ c, σ c = .cycling → TransGen (Step nx) c p) → Known nx σ →
    ∃ r reports σ', chase nx fuel p σ = some (r, reports, σ') ∧
      Chased nx σ p r reports σ' := by
  intro fuel
  induction fuel with
  | zero => exact fun p σ _ h => absurd h (Nat.not_lt_zero _)
  | succ fuel ih =>
      intro p σ hp hfuel hcycling hknown
      rw [chase]
      cases hnx : nx p with
      | none =>
          refine ⟨_, _, _, rfl, Right.self hnx, fun x => .inl rfl, .inl hnx, .inl rfl,
            fun hσ => ?_, fun x hx hx' => absurd hx hx'⟩
          obtain ⟨y, hy, -⟩ := OnCycle.next (hcycling p hσ)
          rw [hnx] at hy
          cases hy
      | some q =>
          dsimp only
          cases hσ : σ p with
          | done r =>
              refine ⟨_, _, _, rfl, hknown.right p r hσ, fun x => .inl rfl, .inr ?_, .inl rfl,
                fun h => ?_, fun x hx hx' => absurd hx hx'⟩
              · rw [hσ]
                exact fun h => by cases h
              · rw [hσ] at h
                cases h
          | cycling =>
              have hcycle : OnCycle nx p := hcycling p hσ
              refine ⟨_, _, _, rfl, Right.cycle hcycle, fun x => .inl rfl, .inr ?_,
                .inr ⟨p, rfl, hcycle, ?_, fun r h => ?_⟩, fun _ => rfl,
                fun x hx hx' => absurd hx hx'⟩
              · rw [hσ]
                exact fun h => by cases h
              · rw [hσ]
                exact fun h => by cases h
              · rw [hσ] at h
                cases h
          | fresh =>
              have hcycling' : ∀ c, Function.update σ p .cycling c = .cycling →
                  TransGen (Step nx) c q := by
                intro c hc
                by_cases hcp : c = p
                · rw [hcp]
                  exact .single hnx
                · rw [Function.update_of_ne hcp] at hc
                  exact (hcycling c hc).tail hnx
              obtain ⟨r, reports, σ', hchase, h⟩ := ih q (Function.update σ p .cycling)
                (hS p hp q hnx) ((card_cycling hp hσ).trans_le (Nat.le_of_lt_succ hfuel))
                hcycling' (hknown.pass hσ)
              exact ⟨r, reports, _, by rw [hchase, Option.map_some], h.pass hknown hσ hnx⟩

end

/-! ## One element after the other -/

section

variable {P : Type} {nx : P → Option P} {σ : P → Status P} {p : P} {reports : List P}

/-- What is known between two elements, and what was noticed: of every cycle that was passed,
one element. -/
structure Noticed (nx : P → Option P) (σ : P → Status P) (reports : List P) : Prop where
  known : Known nx σ
  still : ∀ x, σ x ≠ .cycling
  cycle : ∀ c ∈ reports, OnCycle nx c ∧ ∃ r, σ c = .done r
  every : ∀ x, OnCycle nx x → σ x ≠ .fresh → ∃ c ∈ reports, ReflTransGen (Step nx) x c
  once : reports.Pairwise fun c d => ¬ReflTransGen (Step nx) c d

theorem Noticed.init : Noticed nx (fun _ => .fresh) [] where
  known := ⟨fun _ _ h => (by cases h), fun _ _ _ h => (by cases h)⟩
  still _ h := by cases h
  cycle _ h := absurd h List.not_mem_nil
  every _ _ h := absurd rfl h
  once := .nil

theorem Noticed.done_or_fresh (h : Noticed nx σ reports) (x : P) :
    σ x = .fresh ∨ ∃ r, σ x = .done r := by
  cases hx : σ x with
  | fresh => exact .inl rfl
  | cycling => exact absurd hx (h.still x)
  | done r => exact .inr ⟨r, rfl⟩

theorem Noticed.chased (h : Noticed nx σ reports) {r : Option P} {new : List P}
    {σ' : P → Status P} (hchased : Chased nx σ p r new σ') : Noticed nx σ' (reports ++ new) := by
  have hdone : ∀ x r, σ x = .done r → σ' x = .done r := by
    intro x r hx
    rcases hchased.kept x with heq | ⟨hfresh, -⟩
    · rw [heq, hx]
    · rw [hx] at hfresh
      cases hfresh
  have hstill : ∀ x, σ' x ≠ .cycling := by
    intro x hx
    rcases hchased.kept x with heq | ⟨-, r', y, hx', -⟩
    · exact h.still x (heq ▸ hx)
    · rw [hx] at hx'
      cases hx'
  have hknown' : ∀ y, σ' y ≠ .fresh → ∃ r, σ' y = .done r := by
    intro y hy
    cases hy' : σ' y with
    | fresh => exact absurd hy' hy
    | cycling => exact absurd hy' (hstill y)
    | done r => exact ⟨r, rfl⟩
  refine ⟨⟨fun x r' hx => ?_, fun x r' y hx hy => ?_⟩, hstill, fun c hc => ?_,
    fun x hcycle hx => ?_, ?_⟩
  · rcases hchased.kept x with heq | ⟨-, r'', y, hx', hright, -⟩
    · exact h.known.right x r' (heq ▸ hx)
    · rw [hx] at hx'
      injection hx' with hr
      exact hr ▸ hright
  · rcases hchased.kept x with heq | ⟨-, r'', y', -, -, hy', hnext⟩
    · refine (h.known.closed x r' y (heq ▸ hx) hy).imp id ?_
      rintro ⟨r'', hr''⟩
      exact ⟨r'', hdone y r'' hr''⟩
    · obtain rfl := Step.unique hy hy'
      exact hnext.imp id (hknown' y)
  · rcases List.mem_append.1 hc with hc | hc
    · obtain ⟨hcycle, r', hr'⟩ := h.cycle c hc
      exact ⟨hcycle, r', hdone c r' hr'⟩
    · rcases hchased.reports_eq with rfl | ⟨d, rfl, hcycle, hfresh, -⟩
      · exact absurd hc List.not_mem_nil
      · obtain rfl := List.mem_singleton.1 hc
        exact ⟨hcycle, hknown' c hfresh⟩
  · rcases h.done_or_fresh x with hfresh | ⟨r', hr'⟩
    · obtain ⟨c, rfl, hreach⟩ := hchased.noticed x hfresh hx hcycle
      exact ⟨c, List.mem_append_right _ (List.mem_singleton_self c), hreach⟩
    · obtain ⟨c, hc, hreach⟩ := h.every x hcycle (by rw [hr']; exact fun h => by cases h)
      exact ⟨c, List.mem_append_left _ hc, hreach⟩
  · rcases hchased.reports_eq with rfl | ⟨d, rfl, hcycle, -, hnot⟩
    · rw [List.append_nil]
      exact h.once
    · refine List.pairwise_append.2 ⟨h.once, List.pairwise_singleton _ _, fun c hc d' hd' => ?_⟩
      obtain rfl := List.mem_singleton.1 hd'
      intro hreach
      obtain ⟨hccycle, r', hr'⟩ := h.cycle c hc
      obtain ⟨r'', hr''⟩ := h.known.reach hr' hccycle hreach
      exact hnot r'' hr''

variable [DecidableEq P]

theorem chaseAll_spec {S : Finset P} (hS : ∀ p ∈ S, ∀ q, nx p = some q → q ∈ S) {fuel : Nat}
    (hfuel : S.card < fuel) : ∀ (ps : List P) (σ : P → Status P) (reports : List P),
    (∀ p ∈ ps, p ∈ S) → Noticed nx σ reports →
    ∃ new σ', chaseAll nx fuel ps σ = some (new, σ') ∧ Noticed nx σ' (reports ++ new) ∧
      (∀ x r, σ x = .done r → σ' x = .done r) ∧
      ∀ p ∈ ps, nx p = none ∨ ∃ r, σ' p = .done r := by
  intro ps
  induction ps with
  | nil =>
      intro σ reports _ h
      exact ⟨[], σ, rfl, (List.append_nil reports).symm ▸ h, fun _ _ h => h,
        fun p hp => absurd hp List.not_mem_nil⟩
  | cons p ps ih =>
      intro σ reports hps h
      obtain ⟨r, new, σ₁, hchase, hchased⟩ := chase_spec hS fuel p σ (hps p List.mem_cons_self)
        ((Finset.card_filter_le _ _).trans_lt hfuel) (fun c hc => absurd hc (h.still c)) h.known
      have h₁ := h.chased hchased
      obtain ⟨new', σ', hall, h', hkept, hdone⟩ := ih σ₁ (reports ++ new)
        (fun q hq => hps q (List.mem_cons_of_mem p hq)) h₁
      refine ⟨new ++ new', σ', ?_, ?_, fun x r' hx => hkept x r' ?_, fun q hq => ?_⟩
      · rw [chaseAll, hchase, Option.bind_some, hall, Option.map_some]
      · rwa [← List.append_assoc]
      · rcases hchased.kept x with heq | ⟨hfresh, -⟩
        · rw [heq, hx]
        · rw [hx] at hfresh
          cases hfresh
      · rcases List.mem_cons.1 hq with rfl | hq
        · refine hchased.passed.imp id fun hne => ?_
          obtain ⟨r', hr'⟩ := (h₁.done_or_fresh q).resolve_left hne
          exact ⟨r', hkept q r' hr'⟩
        · exact hdone q hq

end

end Tendra.Chase
