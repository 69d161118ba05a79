import Mathlib.Data.Finset.Card
import Mathlib.Data.Finset.Lattice.Fold
import Tendra.Ref.Sid.Check

/-!
# First sets are exact

The first set of a rule is put together from those of the rules that its
alternatives start with. Each of these has been computed when it is read, or else it
is still being computed, which is the error that is reported. Without an error every
rule is therefore solved in terms of rules that were solved before it, and the sets
are exact by induction on this order. No iteration is needed.

"Exact" means that the terminal can come first in a derived form. A rule that
derives no string of terminals at all has a first set all the same.
-/

namespace Tendra.Ref.Sid

open Tendra.Cfg

variable {T : Nat} {g : Grammar T}
variable {m r v : Nat} {t : Fin T} {item : Item T} {alt next : Alt T} {st st1 : Firsts T}
  {first : Nat → First T} {f : First T → First T} {res : AltFirst T}

/-- The tokens of a string of terminals. -/
def isBasic : Entry T → Bool
  | .basic _ => true
  | _ => false

/-- No alternative has a predicate. -/
def PredicateFree (g : Grammar T) : Prop :=
  ∀ r, ∀ alt ∈ (g.rule r).alts, ∀ item ∈ alt, ∀ a, item.entry ≠ .predicate a

/-- The terminal `t` starts a form that is derived from `xs`. -/
def Leads (g : Grammar T) (xs : List (Sym Nat (Entry T))) (t : Fin T) : Prop :=
  Starts (g.prods isBasic) xs (.basic t)

/-- The form derives the empty string. -/
def Nullable (g : Grammar T) (xs : List (Sym Nat (Entry T))) : Prop :=
  Gen (g.prods isBasic) xs []

/-- What the first set of a rule should be. -/
structure ExactFirst (g : Grammar T) (r : Nat) (f : First T) : Prop where
  first : ∀ t, t ∈ f.firstSet ↔ Leads g [.nt r] t
  seeThrough : f.seeThrough = true ↔ Nullable g [.nt r]
  predicates : f.predicateFirst = []

/-- The rules that an alternative can start with. -/
@[grind =] def leftRules (first : Nat → First T) : Alt T → List Nat
  | [] => []
  | item :: next =>
      match item.entry with
      | .predicate _ => []
      | .action _ => leftRules first next
      | .rename _ => leftRules first next
      | .basic _ => []
      | .rule m => if (first m).seeThrough then m :: leftRules first next else [m]

/-- The sets of the rule `v` are put together from those of the rules that its alternatives
start with, which have been computed. -/
structure Solved (g : Grammar T) (first : Nat → First T) (v : Nat) : Prop where
  firstSet : ∀ t, t ∈ (first v).firstSet ↔ ∃ alt ∈ (g.rule v).alts, t ∈ (altFirsts first alt).1
  seeThrough : (first v).seeThrough = true ↔ (g.rule v).hasEmptyAlt = true ∨
    ∃ alt ∈ (g.rule v).alts, (altFirsts first alt).2 = true
  left : ∀ alt ∈ (g.rule v).alts, ∀ m ∈ leftRules first alt, (first m).computed = true
  predicates : (∀ alt ∈ (g.rule v).alts, ∀ item ∈ alt, ∀ a, item.entry ≠ .predicate a) →
    (∀ alt ∈ (g.rule v).alts, ∀ m ∈ leftRules first alt, (first m).predicateFirst = []) →
    (first v).predicateFirst = []

/-- Rules that have been computed are solved, in the order of some rank, and nothing is known
about the others. -/
structure FirstsInv (g : Grammar T) (st : Firsts T) : Prop where
  blank : ∀ v, (st.first v).computing = false → st.first v = First.blank
  solved : ∀ v, (st.first v).computed = true → Solved g st.first v
  ranked : ∃ rank : Nat → Nat, ∀ v, (st.first v).computed = true → ∀ alt ∈ (g.rule v).alts,
    ∀ m ∈ leftRules st.first alt, rank m < rank v

/-! ## Forms -/

section

variable {vis : Entry T → Bool}

theorem form_cons_basic (item : Item T) (h : item.entry = .basic t) (next : Alt T) :
    Alt.form isBasic (item :: next) = .tok (.basic t) :: Alt.form isBasic next := by
  refine List.filterMap_cons_some ?_
  rw [Item.sym, h]
  rfl

/-- Items that are neither terminals nor rules leave no trace. -/
theorem form_cons_silent (item : Item T) (hrule : ∀ m, item.entry ≠ .rule m)
    (hbasic : ∀ t, item.entry ≠ .basic t) (next : Alt T) :
    Alt.form isBasic (item :: next) = Alt.form isBasic next := by
  refine List.filterMap_cons_none ?_
  unfold Item.sym
  split
  · next r hr => exact absurd hr (hrule r)
  · have hvis : isBasic item.entry = false := by
      cases hentry : item.entry with
      | basic t => exact absurd hentry (hbasic t)
      | _ => rfl
    rw [hvis]
    rfl

end

theorem leads_rule_iff :
    Leads g [.nt r] t ↔ ∃ alt ∈ (g.rule r).alts, Leads g (Alt.form isBasic alt) t := by
  rw [Leads, starts_single]
  constructor
  · rintro ⟨body, ⟨-, rfl⟩ | ⟨alt, halt, rfl⟩, h⟩
    · exact absurd h starts_nil
    · exact ⟨alt, halt, h⟩
  · rintro ⟨alt, halt, h⟩
    exact ⟨_, Or.inr ⟨alt, halt, rfl⟩, h⟩

theorem nullable_rule_iff :
    Nullable g [.nt r] ↔ (g.rule r).hasEmptyAlt = true ∨
      ∃ alt ∈ (g.rule r).alts, Nullable g (Alt.form isBasic alt) := by
  rw [Nullable, gen_single]
  constructor
  · rintro ⟨body, ⟨hempty, rfl⟩ | ⟨alt, halt, rfl⟩, h⟩
    · exact Or.inl hempty
    · exact Or.inr ⟨alt, halt, h⟩
  · rintro (hempty | ⟨alt, halt, h⟩)
    · exact ⟨[], Or.inl ⟨hempty, rfl⟩, Gen.nil⟩
    · exact ⟨_, Or.inr ⟨alt, halt, rfl⟩, h⟩

theorem leads_nt (xs : List (Sym Nat (Entry T))) :
    Leads g (.nt m :: xs) t ↔ Leads g [.nt m] t ∨ Nullable g [.nt m] ∧ Leads g xs t := starts_nt

theorem nullable_nt (xs : List (Sym Nat (Entry T))) :
    Nullable g (.nt m :: xs) ↔ Nullable g [.nt m] ∧ Nullable g xs := gen_nt_nil

theorem not_leads_nil : ¬ Leads g [] t := starts_nil

theorem not_nullable_tok {e : Entry T} {xs : List (Sym Nat (Entry T))} :
    ¬ Nullable g (.tok e :: xs) := by
  intro h
  obtain ⟨v, hv, -⟩ := gen_tok.1 h
  cases hv

theorem leads_basic {t' : Fin T} {xs : List (Sym Nat (Entry T))} :
    Leads g (.tok (.basic t) :: xs) t' ↔ t' = t := by
  rw [Leads, starts_tok, Entry.basic.injEq, eq_comm]

/-! ## Alternatives -/

/-- The rules that an alternative can start with are rules of its items. -/
theorem mem_leftRules (h : m ∈ leftRules first alt) : ∃ item ∈ alt, item.entry = .rule m := by
  induction alt with
  | nil => exact absurd h List.not_mem_nil
  | cons item next ih =>
      have hnext : m ∈ leftRules first next → ∃ item' ∈ item :: next, item'.entry = .rule m := by
        intro hm
        obtain ⟨i, hi, hentry⟩ := ih hm
        exact ⟨i, List.mem_cons_of_mem _ hi, hentry⟩
      rw [leftRules] at h
      cases hentry : item.entry with
      | predicate a => rw [hentry] at h; exact absurd h List.not_mem_nil
      | basic t => rw [hentry] at h; exact absurd h List.not_mem_nil
      | action a => rw [hentry] at h; exact hnext h
      | rename e => rw [hentry] at h; exact hnext h
      | rule v =>
          rw [hentry] at h
          dsimp only at h
          split at h
          · rcases List.mem_cons.1 h with rfl | h
            · exact ⟨item, List.mem_cons_self, hentry⟩
            · exact hnext h
          · cases List.mem_singleton.1 h
            exact ⟨item, List.mem_cons_self, hentry⟩

/-- An alternative is read off from the rules that it can start with. -/
theorem altFirsts_congr {first' : Nat → First T} (alt : Alt T)
    (h : ∀ m ∈ leftRules first alt, first' m = first m) :
    altFirsts first' alt = altFirsts first alt ∧ leftRules first' alt = leftRules first alt := by
  induction alt with
  | nil => exact ⟨rfl, rfl⟩
  | cons item next ih =>
      rw [leftRules] at h
      simp only [altFirsts, leftRules]
      cases hentry : item.entry with
      | predicate a => exact ⟨rfl, rfl⟩
      | basic t => exact ⟨rfl, rfl⟩
      | action a =>
          rw [hentry] at h
          exact ih h
      | rename e =>
          rw [hentry] at h
          exact ih h
      | rule m =>
          rw [hentry] at h
          dsimp only at h ⊢
          cases hsee : (first m).seeThrough with
          | true =>
              rw [hsee] at h
              obtain ⟨h1, h2⟩ := ih fun v hv => h v (List.mem_cons_of_mem _ hv)
              rw [h m List.mem_cons_self, hsee, h1, h2]
              exact ⟨rfl, rfl⟩
          | false =>
              rw [hsee] at h
              rw [h m List.mem_cons_self, hsee]
              exact ⟨rfl, rfl⟩

/-- The first set of an alternative is exact if those of the rules are that it can start
with. -/
theorem altFirsts_exact (alt : Alt T) (hexact : ∀ m ∈ leftRules first alt, ExactFirst g m (first m))
    (hpred : ∀ item ∈ alt, ∀ a, item.entry ≠ .predicate a) :
    (∀ t, t ∈ (altFirsts first alt).1 ↔ Leads g (Alt.form isBasic alt) t) ∧
      ((altFirsts first alt).2 = true ↔ Nullable g (Alt.form isBasic alt)) := by
  induction alt with
  | nil =>
      refine ⟨fun t => ?_, iff_of_true rfl Gen.nil⟩
      exact iff_of_false (Finset.notMem_empty t) not_leads_nil
  | cons item next ih =>
      have hnext : ∀ i ∈ next, ∀ a, i.entry ≠ .predicate a :=
        fun i hi => hpred i (List.mem_cons_of_mem _ hi)
      rw [leftRules] at hexact
      rw [altFirsts]
      cases hentry : item.entry with
      | predicate a => exact absurd hentry (hpred item List.mem_cons_self a)
      | action a =>
          rw [hentry] at hexact
          rw [form_cons_silent item (by rw [hentry]; simp) (by rw [hentry]; simp)]
          exact ih hexact hnext
      | rename e =>
          rw [hentry] at hexact
          rw [form_cons_silent item (by rw [hentry]; simp) (by rw [hentry]; simp)]
          exact ih hexact hnext
      | basic t =>
          rw [form_cons_basic item hentry]
          refine ⟨fun t' => ?_, iff_of_false Bool.false_ne_true not_nullable_tok⟩
          rw [Finset.mem_singleton, leads_basic]
      | rule m =>
          rw [hentry] at hexact
          rw [form_cons_rule hentry]
          dsimp only at hexact ⊢
          split
          · next hsee =>
              rw [if_pos hsee] at hexact
              have hm := hexact m List.mem_cons_self
              obtain ⟨ihfirst, ihnull⟩ :=
                ih (fun v hv => hexact v (List.mem_cons_of_mem _ hv)) hnext
              have hnull := hm.seeThrough.1 hsee
              refine ⟨fun t => ?_, ?_⟩
              · rw [Finset.mem_union, hm.first, ihfirst, leads_nt (Alt.form isBasic next),
                  and_iff_right hnull]
              · rw [ihnull, nullable_nt, and_iff_right hnull]
          · next hsee =>
              rw [if_neg hsee] at hexact
              have hm := hexact m List.mem_cons_self
              have hnull : ¬ Nullable g [.nt m] := fun h => hsee (hm.seeThrough.2 h)
              refine ⟨fun t => ?_, ?_⟩
              · rw [hm.first, leads_nt (Alt.form isBasic next)]
                refine (or_iff_left ?_).symm
                intro h
                exact hnull h.1
              · refine iff_of_false Bool.false_ne_true ?_
                intro h
                exact hnull ((nullable_nt _).1 h).1

/-- The sets of a rule and of those that it starts with have not changed. -/
theorem Solved.congr {first' : Nat → First T} (h : Solved g first v) (hv : first' v = first v)
    (hleft : ∀ m, (first m).computed = true → first' m = first m) : Solved g first' v := by
  have halt : ∀ alt ∈ (g.rule v).alts, altFirsts first' alt = altFirsts first alt ∧
      leftRules first' alt = leftRules first alt :=
    fun alt halt => altFirsts_congr alt fun m hm => hleft m (h.left alt halt m hm)
  have hleft' : ∀ alt ∈ (g.rule v).alts, ∀ m ∈ leftRules first' alt, m ∈ leftRules first alt ∧
      first' m = first m := by
    intro alt hmem m hm
    rw [(halt alt hmem).2] at hm
    exact ⟨hm, hleft m (h.left alt hmem m hm)⟩
  refine ⟨?_, ?_, ?_, ?_⟩
  · intro t
    rw [hv, h.firstSet]
    exact exists_congr fun alt => and_congr_right fun hmem => by rw [(halt alt hmem).1]
  · rw [hv, h.seeThrough]
    exact or_congr_right (exists_congr fun alt => and_congr_right fun hmem => by
      rw [(halt alt hmem).1])
  · intro alt hmem m hm
    obtain ⟨hm', heq⟩ := hleft' alt hmem m hm
    rw [heq]
    exact h.left alt hmem m hm'
  · intro hpred hnil
    rw [hv]
    refine h.predicates hpred fun alt hmem m hm => ?_
    rw [← hleft m (h.left alt hmem m hm)]
    exact hnil alt hmem m (by rw [(halt alt hmem).2]; exact hm)

/-! ## Calls -/

/-- The rules whose computation has not begun. -/
def waiting (roots : List Nat) (st : Firsts T) : Finset Nat :=
  roots.toFinset.filter fun v => (st.first v).computing = false

theorem mem_waiting {roots : List Nat} :
    v ∈ waiting roots st ↔ v ∈ roots ∧ (st.first v).computing = false := by
  simp [waiting]

theorem waiting_mono {roots : List Nat} {st' : Firsts T}
    (h : ∀ v, (st.first v).computing = true → (st'.first v).computing = true) :
    (waiting roots st').card ≤ (waiting roots st).card := by
  refine Finset.card_le_card fun v hv => ?_
  rw [mem_waiting] at hv ⊢
  refine ⟨hv.1, ?_⟩
  by_contra hne
  rw [h v (by simpa using hne)] at hv
  cases hv.2

theorem waiting_card_le (roots : List Nat) (st : Firsts T) :
    (waiting roots st).card ≤ roots.length :=
  (Finset.card_filter_le _ _).trans roots.toFinset_card_le

/-- What a call on the rule `r` does: rules that are being computed are left alone, and
the outcome is exact unless an error has been reported. -/
structure CallOk (g : Grammar T) (r : Nat) (st st' : Firsts T) : Prop where
  frame : ∀ v, (st.first v).computing = true → st'.first v = st.first v
  errors : st'.errors = [] → st.errors = []
  exact : FirstsInv g st → st'.errors = [] → FirstsInv g st' ∧ (st'.first r).computed = true

/-- A computation does not run out of calls, and what it returns satisfies `Q`. -/
def Returns {α : Type} (res : Except FirstError α) (Q : α → Prop) : Prop :=
  res ≠ .error .outOfCalls ∧ ∀ a, res = .ok a → Q a

theorem returns_ok {α : Type} {a : α} {Q : α → Prop} (h : Q a) : Returns (.ok a) Q := by
  refine ⟨fun heq => (by cases heq), ?_⟩
  rintro b heq
  cases heq
  exact h

theorem returns_error {α : Type} {e : FirstError} (he : e ≠ .outOfCalls) {Q : α → Prop} :
    Returns (.error e) Q := by
  refine ⟨fun heq => ?_, fun a heq => (by cases heq)⟩
  cases heq
  exact he rfl

theorem Returns.bind {α β : Type} {res : Except FirstError α} {f : α → Except FirstError β}
    {Q : α → Prop} {R : β → Prop} (h : Returns res Q) (hf : ∀ a, Q a → Returns (f a) R) :
    Returns (res >>= f) R := by
  cases res with
  | error e => exact returns_error fun he => h.1 (by rw [he])
  | ok a => exact hf a (h.2 a rfl)

/-! ## One rule -/

/-- The rule is being computed. -/
structure InHand (r : Nat) (st : Firsts T) : Prop where
  computing : (st.first r).computing = true
  computed : (st.first r).computed = false

theorem InHand.modify (h : InHand r st)
    (hf : ∀ x, (f x).computing = x.computing ∧ (f x).computed = x.computed) :
    InHand r (st.modify r f) := by
  refine ⟨?_, ?_⟩
  · rw [Firsts.modify_first_self, (hf _).1, h.computing]
  · rw [Firsts.modify_first_self, (hf _).2, h.computed]

theorem FirstsInv.computing (h : FirstsInv g st) (hv : (st.first v).computed = true) :
    (st.first v).computing = true := by
  by_contra hne
  rw [h.blank v (by simpa using hne)] at hv
  cases hv

/-- Nothing is known about a rule while it is being computed. -/
theorem FirstsInv.modify (h : FirstsInv g st) (hst : (st.first r).computed = false)
    (hr : InHand r (st.modify r f)) : FirstsInv g (st.modify r f) := by
  have hne : ∀ {v}, (st.first v).computed = true → v ≠ r := by
    rintro v hv rfl
    rw [hst] at hv
    cases hv
  have hkeep : ∀ v, (st.first v).computed = true → (st.modify r f).first v = st.first v :=
    fun v hv => Firsts.modify_first_of_ne st (hne hv) f
  have hold : ∀ v, ((st.modify r f).first v).computed = true → (st.first v).computed = true := by
    intro v hv
    by_cases hvr : v = r
    · rw [hvr, hr.computed] at hv
      cases hv
    · rwa [Firsts.modify_first_of_ne st hvr] at hv
  refine ⟨?_, ?_, ?_⟩
  · intro v hv
    by_cases hvr : v = r
    · rw [hvr, hr.computing] at hv
      cases hv
    · rw [Firsts.modify_first_of_ne st hvr] at hv ⊢
      exact h.blank v hv
  · intro v hv
    have hv' := hold v hv
    exact (h.solved v hv').congr (hkeep v hv') hkeep
  · obtain ⟨rank, hrank⟩ := h.ranked
    refine ⟨rank, fun v hv alt halt m hm => hrank v (hold v hv) alt halt m ?_⟩
    have hsol := h.solved v (hold v hv)
    rwa [(altFirsts_congr alt fun m hm => hkeep m (hsol.left alt halt m hm)).2] at hm

/-- What the loop over the items of an alternative of `r` does to the sets of `r`. -/
structure ItemsSound (r : Nat) (alt : Alt T) (st : Firsts T) (res : AltFirst T) : Prop where
  flag : (res.st.first r).seeThrough = (st.first r).seeThrough
  firstSet : ∀ t, t ∈ (res.st.first r).firstSet ↔
    t ∈ (st.first r).firstSet ∨ t ∈ (altFirsts res.st.first alt).1
  seeThrough : res.seeThrough = (altFirsts res.st.first alt).2
  left : ∀ m ∈ leftRules res.st.first alt, (res.st.first m).computed = true
  predicates : (∀ item ∈ alt, ∀ a, item.entry ≠ .predicate a) →
    (∀ m ∈ leftRules res.st.first alt, (res.st.first m).predicateFirst = []) →
    (st.first r).predicateFirst = [] → (res.st.first r).predicateFirst = []

/-- What the loop over the items of an alternative of `r` does. -/
structure ItemsOk (g : Grammar T) (r : Nat) (alt : Alt T) (st : Firsts T) (res : AltFirst T) :
    Prop where
  inHand : InHand r res.st
  frame : ∀ v, v ≠ r → (st.first v).computing = true → res.st.first v = st.first v
  errors : res.st.errors = [] → st.errors = []
  sound : FirstsInv g st → res.st.errors = [] → FirstsInv g res.st ∧ ItemsSound r alt st res

section

variable {roots : List Nat} {k : Nat} {rec : Nat → Firsts T → Except FirstError (Firsts T)}

/-- The call on an item that is a rule leaves `r` as it is. -/
theorem CallOk.inHand (hcall : CallOk g m st st1) (hr : InHand r st) : InHand r st1 := by
  have hsame := hcall.frame r hr.computing
  exact ⟨hsame ▸ hr.computing, hsame ▸ hr.computed⟩

/-- The first item is a rule, and the loop goes on. -/
theorem ItemsSound.cons (hentry : item.entry = .rule m) (hsame : st1.first r = st.first r)
    (hm : (st1.first m).computed = true) (hsee : (st1.first m).seeThrough = true)
    (hkeep : res.st.first m = st1.first m)
    (h : ItemsSound r next (st1.modify r fun f => f.merge (st1.first m)) res) :
    ItemsSound r (item :: next) st res := by
  have hsee' : (res.st.first m).seeThrough = true := hkeep ▸ hsee
  have hfirsts : altFirsts res.st.first (item :: next) =
      ((res.st.first m).firstSet ∪ (altFirsts res.st.first next).1,
        (altFirsts res.st.first next).2) := by
    rw [altFirsts, hentry]
    dsimp only
    rw [if_pos hsee']
  have hleft : leftRules res.st.first (item :: next) = m :: leftRules res.st.first next := by
    rw [leftRules, hentry]
    dsimp only
    rw [if_pos hsee']
  refine ⟨?_, ?_, ?_, ?_, ?_⟩
  · rw [h.flag, Firsts.modify_first_self, hsame]
    rfl
  · intro t
    rw [h.firstSet, Firsts.modify_first_self, hsame, First.merge, hfirsts, hkeep]
    simp only [Finset.mem_union, or_assoc]
  · rw [h.seeThrough, hfirsts]
  · intro v hv
    rw [hleft] at hv
    rcases List.mem_cons.1 hv with rfl | hv
    · rw [hkeep]
      exact hm
    · exact h.left v hv
  · intro hpred hnil hst
    rw [hleft] at hnil
    refine h.predicates (fun i hi => hpred i (List.mem_cons_of_mem _ hi))
      (fun v hv => hnil v (List.mem_cons_of_mem _ hv)) ?_
    have hmnil := hnil m List.mem_cons_self
    rw [hkeep] at hmnil
    rw [Firsts.modify_first_self, hsame, First.merge, hmnil, hst]
    rfl

/-- The first item is a rule that cannot be seen through. -/
theorem ItemsSound.stop (hentry : item.entry = .rule m) (hsame : st1.first r = st.first r)
    (hmr : m ≠ r) (hm : (st1.first m).computed = true) (hsee : (st1.first m).seeThrough = false)
    (priority : Nat) :
    ItemsSound r (item :: next) st
      ⟨st1.modify r fun f => f.merge (st1.first m), false, priority⟩ := by
  have hkeep := Firsts.modify_first_of_ne st1 hmr fun f => f.merge (st1.first m)
  have hfirsts : altFirsts (st1.modify r fun f => f.merge (st1.first m)).first (item :: next) =
      ((st1.first m).firstSet, false) := by
    rw [altFirsts, hentry]
    dsimp only
    rw [hkeep, if_neg (by rw [hsee]; exact Bool.false_ne_true)]
  have hleft : leftRules (st1.modify r fun f => f.merge (st1.first m)).first (item :: next) =
      [m] := by
    rw [leftRules, hentry]
    dsimp only
    rw [hkeep, if_neg (by rw [hsee]; exact Bool.false_ne_true)]
  refine ⟨?_, ?_, ?_, ?_, ?_⟩
  · dsimp only
    rw [Firsts.modify_first_self, hsame]
    rfl
  · intro t
    dsimp only
    rw [Firsts.modify_first_self, hsame, hfirsts, First.merge, Finset.mem_union]
  · rw [hfirsts]
  · intro v hv
    rw [hleft, List.mem_singleton] at hv
    dsimp only
    rw [hv, hkeep]
    exact hm
  · intro _ hnil hst
    dsimp only at hnil ⊢
    have hmnil := hnil m (by rw [hleft]; exact List.mem_singleton_self m)
    rw [hkeep] at hmnil
    rw [Firsts.modify_first_self, hsame, First.merge, hmnil, hst]
    rfl

/-- An item that adds nothing but to the sets of `r` ends the alternative. -/
theorem ItemsOk.final (hr : InHand r st)
    (hf : ∀ x, (f x).computing = x.computing ∧ (f x).computed = x.computed) {seeThrough : Bool}
    {priority : Nat} (h : ItemsSound r alt st ⟨st.modify r f, seeThrough, priority⟩) :
    ItemsOk g r alt st ⟨st.modify r f, seeThrough, priority⟩ := by
  have hr' : InHand r (st.modify r f) := hr.modify hf
  refine ⟨hr', ?_, id, fun hinv _ => ⟨hinv.modify hr.computed hr', h⟩⟩
  intro v hv _
  exact Firsts.modify_first_of_ne st hv f

/-- An item that is passed over. -/
theorem ItemsOk.silent (hentry : (∃ a, item.entry = .action a) ∨ ∃ e, item.entry = .rename e)
    (h : ItemsOk g r next st res) : ItemsOk g r (item :: next) st res := by
  have hfirsts : altFirsts res.st.first (item :: next) = altFirsts res.st.first next := by
    rw [altFirsts]
    rcases hentry with ⟨a, ha⟩ | ⟨e, he⟩
    · rw [ha]
    · rw [he]
  have hleft : leftRules res.st.first (item :: next) = leftRules res.st.first next := by
    rw [leftRules]
    rcases hentry with ⟨a, ha⟩ | ⟨e, he⟩
    · rw [ha]
    · rw [he]
  refine ⟨h.inHand, h.frame, h.errors, fun hinv herr => ?_⟩
  obtain ⟨hinv', hsound⟩ := h.sound hinv herr
  refine ⟨hinv', hsound.flag, ?_, ?_, ?_, ?_⟩
  · rw [hfirsts]
    exact hsound.firstSet
  · rw [hfirsts]
    exact hsound.seeThrough
  · rw [hleft]
    exact hsound.left
  · rw [hleft]
    exact fun hpred => hsound.predicates fun i hi => hpred i (List.mem_cons_of_mem _ hi)

/-- The loop over the items of an alternative. -/
theorem firstItems_ok (hrec : ∀ m ∈ roots, ∀ st, (waiting roots st).card < k →
      Returns (rec m st) (CallOk g m st))
    (alt : Alt T) (hroots : ∀ item ∈ alt, ∀ m, item.entry = .rule m → m ∈ roots) :
    ∀ (initial noAction : Bool) (priority : Nat) (st : Firsts T), InHand r st →
      (waiting roots st).card < k →
      Returns (firstItems rec r initial noAction priority alt st) (ItemsOk g r alt st) := by
  induction alt with
  | nil =>
      intro initial noAction priority st hr _
      rw [firstItems]
      refine returns_ok ⟨hr, fun _ _ _ => rfl, id, fun hinv _ => ⟨hinv, rfl, ?_, rfl, ?_, ?_⟩⟩
      · intro t
        exact (or_iff_left (Finset.notMem_empty t)).symm
      · exact fun m hm => absurd hm List.not_mem_nil
      · exact fun _ _ hst => hst
  | cons item next ih =>
      intro initial noAction priority st hr hlt
      have ih' := ih fun item' h => hroots item' (List.mem_cons_of_mem _ h)
      rw [firstItems]
      cases hentry : item.entry with
      | predicate a =>
          dsimp only
          split
          · refine returns_ok (ItemsOk.final hr ?_ ⟨?_, ?_, ?_, ?_, ?_⟩)
            · exact fun _ => ⟨rfl, rfl⟩
            · dsimp only
              rw [Firsts.modify_first_self]
            · intro t
              dsimp only
              rw [Firsts.modify_first_self, altFirsts, hentry]
              exact (or_iff_left (Finset.notMem_empty t)).symm
            · rw [altFirsts, hentry]
            · rw [leftRules, hentry]
              exact fun m hm => absurd hm List.not_mem_nil
            · exact fun hpred => absurd hentry (hpred item List.mem_cons_self a)
          · exact returns_error (by simp)
      | rename e =>
          obtain ⟨hfuel, hok⟩ := ih' false false priority st hr hlt
          exact ⟨hfuel, fun res hres => (hok res hres).silent (Or.inr ⟨e, hentry⟩)⟩
      | action a =>
          obtain ⟨hfuel, hok⟩ := ih' false false priority st hr hlt
          exact ⟨hfuel, fun res hres => (hok res hres).silent (Or.inl ⟨a, hentry⟩)⟩
      | basic t =>
          refine returns_ok (ItemsOk.final hr ?_ ⟨?_, ?_, ?_, ?_, ?_⟩)
          · exact fun _ => ⟨rfl, rfl⟩
          · dsimp only
            rw [Firsts.modify_first_self]
          · intro t'
            dsimp only
            rw [Firsts.modify_first_self, altFirsts, hentry, Finset.mem_insert,
              Finset.mem_singleton, or_comm]
          · rw [altFirsts, hentry]
          · rw [leftRules, hentry]
            exact fun m hm => absurd hm List.not_mem_nil
          · dsimp only
            rw [Firsts.modify_first_self]
            exact fun _ _ hst => hst
      | rule m =>
          dsimp only
          refine (hrec m (hroots item List.mem_cons_self m hentry) st hlt).bind fun st1 hcall => ?_
          split
          · exact returns_error (by simp)
          have hr1 := hcall.inHand hr
          have hr2 : InHand r (st1.modify r fun f => f.merge (st1.first m)) :=
            hr1.modify fun _ => ⟨rfl, rfl⟩
          have hframe2 : ∀ v, v ≠ r → (st.first v).computing = true →
              (st1.modify r fun f => f.merge (st1.first m)).first v = st.first v := by
            intro v hv hcomp
            rw [Firsts.modify_first_of_ne st1 hv, hcall.frame v hcomp]
          have hsame := hcall.frame r hr.computing
          have hne : (st1.first m).computed = true → m ≠ r := by
            rintro hm rfl
            rw [hr1.computed] at hm
            cases hm
          split
          · next hsee =>
              have hlt2 : (waiting roots (st1.modify r fun f => f.merge (st1.first m))).card <
                  k := by
                refine Nat.lt_of_le_of_lt (waiting_mono fun v hv => ?_) hlt
                by_cases hvr : v = r
                · rw [hvr]
                  exact hr2.computing
                · rw [hframe2 v hvr hv]
                  exact hv
              obtain ⟨hfuel, hok⟩ := ih' false noAction _ _ hr2 hlt2
              refine ⟨hfuel, fun res hres => ?_⟩
              have hres' := hok res hres
              refine ⟨hres'.inHand, ?_, fun herr => hcall.errors (hres'.errors herr), ?_⟩
              · intro v hv hcomp
                have heq := hframe2 v hv hcomp
                rw [hres'.frame v hv (by rw [heq]; exact hcomp), heq]
              · intro hinv herr
                obtain ⟨hinv1, hm⟩ := hcall.exact hinv (hres'.errors herr)
                obtain ⟨hinv', hsound⟩ := hres'.sound (hinv1.modify hr1.computed hr2) herr
                have hkeep := Firsts.modify_first_of_ne st1 (hne hm) fun f => f.merge (st1.first m)
                rw [hkeep] at hsee
                refine ⟨hinv', ItemsSound.cons hentry hsame hm hsee ?_ hsound⟩
                rw [hres'.frame m (hne hm) (by rw [hkeep]; exact hinv1.computing hm), hkeep]
          · next hsee =>
              refine returns_ok ⟨hr2, hframe2, hcall.errors, ?_⟩
              intro hinv herr
              obtain ⟨hinv1, hm⟩ := hcall.exact hinv herr
              have hkeep := Firsts.modify_first_of_ne st1 (hne hm) fun f => f.merge (st1.first m)
              rw [hkeep, Bool.not_eq_true] at hsee
              exact ⟨hinv1.modify hr1.computed hr2, ItemsSound.stop hentry hsame (hne hm) hm hsee _⟩

/-- What the loop over some alternatives of `r` does to the sets of `r`. -/
structure AltsSound (r : Nat) (alts : List (Alt T)) (st st' : Firsts T) : Prop where
  firstSet : ∀ t, t ∈ (st'.first r).firstSet ↔
    t ∈ (st.first r).firstSet ∨ ∃ alt ∈ alts, t ∈ (altFirsts st'.first alt).1
  seeThrough : (st'.first r).seeThrough = true ↔ (st.first r).seeThrough = true ∨
    ∃ alt ∈ alts, (altFirsts st'.first alt).2 = true
  left : ∀ alt ∈ alts, ∀ m ∈ leftRules st'.first alt, (st'.first m).computed = true
  predicates : (∀ alt ∈ alts, ∀ item ∈ alt, ∀ a, item.entry ≠ .predicate a) →
    (∀ alt ∈ alts, ∀ m ∈ leftRules st'.first alt, (st'.first m).predicateFirst = []) →
    (st.first r).predicateFirst = [] → (st'.first r).predicateFirst = []

/-- What the loop over some alternatives of `r` does. -/
structure AltsOk (g : Grammar T) (r : Nat) (alts : List (Alt T)) (st st' : Firsts T) : Prop where
  inHand : InHand r st'
  frame : ∀ v, v ≠ r → (st.first v).computing = true → st'.first v = st.first v
  errors : st'.errors = [] → st.errors = []
  sound : FirstsInv g st → st'.errors = [] → FirstsInv g st' ∧ AltsSound r alts st st'

/-- The sets of `r` do not count for what an alternative of `r` starts with. -/
theorem altFirsts_modify (hr : InHand r st)
    (hleft : ∀ m ∈ leftRules st.first alt, (st.first m).computed = true) (f : First T → First T) :
    altFirsts (st.modify r f).first alt = altFirsts st.first alt ∧
      leftRules (st.modify r f).first alt = leftRules st.first alt := by
  refine altFirsts_congr alt fun m hm => Firsts.modify_first_of_ne st ?_ f
  rintro rfl
  have hcomp := hleft m hm
  rw [hr.computed] at hcomp
  cases hcomp

/-- An alternative that can be seen through sets the flag of the rule. -/
theorem AltsOk.single (h : ItemsOk g r alt st res) :
    AltsOk g r [alt] st
      (if res.seeThrough then res.st.modify r fun f => { f with seeThrough := true }
        else res.st) := by
  split
  · next hsee =>
      have hr : InHand r (res.st.modify r fun f => { f with seeThrough := true }) :=
        h.inHand.modify fun _ => ⟨rfl, rfl⟩
      refine ⟨hr, ?_, h.errors, ?_⟩
      · intro v hv hcomp
        rw [Firsts.modify_first_of_ne _ hv, h.frame v hv hcomp]
      · intro hinv herr
        obtain ⟨hinv', hs⟩ := h.sound hinv herr
        obtain ⟨hfirsts, hleft⟩ := altFirsts_modify h.inHand hs.left
          fun f => { f with seeThrough := true }
        refine ⟨hinv'.modify h.inHand.computed hr, ?_⟩
        have hkeep : ∀ m ∈ leftRules res.st.first alt,
            (res.st.modify r fun f => { f with seeThrough := true }).first m = res.st.first m := by
          intro m hm
          refine Firsts.modify_first_of_ne _ ?_ _
          rintro rfl
          have hcomp := hs.left m hm
          rw [h.inHand.computed] at hcomp
          cases hcomp
        refine ⟨?_, ?_, ?_, ?_⟩
        · intro t
          simp only [List.mem_singleton, exists_eq_left, Firsts.modify_first_self, hfirsts]
          exact hs.firstSet t
        · simp only [List.mem_singleton, exists_eq_left, Firsts.modify_first_self, hfirsts]
          exact iff_of_true trivial (Or.inr (hs.seeThrough ▸ hsee))
        · simp only [List.forall_mem_singleton, hleft]
          intro m hm
          rw [hkeep m hm]
          exact hs.left m hm
        · simp only [List.forall_mem_singleton, Firsts.modify_first_self, hleft]
          intro hpred hnil
          refine hs.predicates hpred fun m hm => ?_
          rw [← hkeep m hm]
          exact hnil m hm
  · next hsee =>
      refine ⟨h.inHand, h.frame, h.errors, ?_⟩
      intro hinv herr
      obtain ⟨hinv', hs⟩ := h.sound hinv herr
      refine ⟨hinv', ?_, ?_, ?_, ?_⟩
      · simpa only [List.mem_singleton, exists_eq_left] using hs.firstSet
      · simp only [List.mem_singleton, exists_eq_left]
        rw [hs.flag, ← hs.seeThrough, or_iff_left hsee]
      · simpa only [List.forall_mem_singleton] using hs.left
      · simpa only [List.forall_mem_singleton] using hs.predicates

theorem AltsOk.trans {alts : List (Alt T)} {st2 : Firsts T} (h1 : AltsOk g r [alt] st st1)
    (h2 : AltsOk g r alts st1 st2) : AltsOk g r (alt :: alts) st st2 := by
  refine ⟨h2.inHand, ?_, fun herr => h1.errors (h2.errors herr), ?_⟩
  · intro v hv hcomp
    have heq := h1.frame v hv hcomp
    rw [h2.frame v hv (by rw [heq]; exact hcomp), heq]
  · intro hinv herr
    obtain ⟨hinv1, hs1⟩ := h1.sound hinv (h2.errors herr)
    obtain ⟨hinv2, hs2⟩ := h2.sound hinv1 herr
    refine ⟨hinv2, ?_⟩
    have hleft1 := hs1.left alt (List.mem_singleton_self alt)
    -- what `alt` starts with has been computed, and stays
    have hkeep : ∀ m ∈ leftRules st1.first alt, st2.first m = st1.first m := by
      intro m hm
      refine h2.frame m ?_ (hinv1.computing (hleft1 m hm))
      rintro rfl
      have hcomp := hleft1 m hm
      rw [h1.inHand.computed] at hcomp
      cases hcomp
    obtain ⟨hfirsts, hleft⟩ := altFirsts_congr alt hkeep
    refine ⟨?_, ?_, ?_, ?_⟩
    · intro t
      rw [hs2.firstSet, hs1.firstSet]
      simp only [List.mem_cons, List.not_mem_nil, false_and, exists_false, false_or,
        exists_eq_or_imp, hfirsts, or_assoc]
    · rw [hs2.seeThrough, hs1.seeThrough]
      simp only [List.mem_cons, List.not_mem_nil, false_and, exists_false, false_or,
        exists_eq_or_imp, hfirsts, or_assoc]
    · intro a ha
      rcases List.mem_cons.1 ha with rfl | ha
      · rw [hleft]
        intro m hm
        rw [hkeep m hm]
        exact hleft1 m hm
      · exact hs2.left a ha
    · intro hpred hnil hst
      refine hs2.predicates (fun a ha => hpred a (List.mem_cons_of_mem _ ha))
        (fun a ha => hnil a (List.mem_cons_of_mem _ ha)) (hs1.predicates ?_ ?_ hst)
      · exact fun a ha => hpred a (List.mem_singleton.1 ha ▸ List.mem_cons_self)
      · intro a ha m hm
        cases List.mem_singleton.1 ha
        rw [← hkeep m hm]
        exact hnil alt List.mem_cons_self m (by rw [hleft]; exact hm)

/-- The loop over the alternatives. -/
theorem firstAlts_ok (hrec : ∀ m ∈ roots, ∀ st, (waiting roots st).card < k →
      Returns (rec m st) (CallOk g m st))
    (alts : List (Alt T))
    (hroots : ∀ alt ∈ alts, ∀ item ∈ alt, ∀ m, item.entry = .rule m → m ∈ roots) :
    ∀ (priority : Nat) (st : Firsts T), InHand r st → (waiting roots st).card < k →
      Returns (firstAlts rec r priority alts st) fun res => AltsOk g r alts st res.1 := by
  induction alts with
  | nil =>
      intro priority st hr _
      rw [firstAlts]
      refine returns_ok ⟨hr, fun _ _ _ => rfl, id, fun hinv _ => ⟨hinv, ?_, ?_, ?_, ?_⟩⟩
      · simp
      · simp
      · simp
      · exact fun _ _ hst => hst
  | cons alt alts ih =>
      intro priority st hr hlt
      rw [firstAlts]
      refine (firstItems_ok hrec alt (hroots alt List.mem_cons_self) true true priority st hr
        hlt).bind fun res hres => ?_
      dsimp only
      have h1 := AltsOk.single hres
      generalize (if res.seeThrough then res.st.modify r fun f => { f with seeThrough := true }
        else res.st) = st1 at h1 ⊢
      have hlt1 : (waiting roots st1).card < k := by
        refine Nat.lt_of_le_of_lt (waiting_mono fun v hv => ?_) hlt
        by_cases hvr : v = r
        · rw [hvr]
          exact h1.inHand.computing
        · rw [h1.frame v hvr hv]
          exact hv
      obtain ⟨hfuel, hok⟩ := ih (fun alt' h => hroots alt' (List.mem_cons_of_mem _ h))
        res.priority st1 h1.inHand hlt1
      exact ⟨hfuel, fun res' hres' => h1.trans (hok res' hres')⟩

end

/-! ## The whole recursion -/

/-- The end of the computation for a rule: its flags and its second mark. -/
def First.finish (empty : Bool) (p : Nat) (f : First T) : First T :=
  { f with seeThrough := empty || f.seeThrough, priority := p, computed := true }

theorem Firsts.modify_modify (st : Firsts T) (r : Nat) (f f' : First T → First T) :
    (st.modify r f).modify r f' = st.modify r fun x => f' (f x) := by
  simp only [Firsts.modify, Function.update_idem, Function.update_self]

/-- The end of the computation, step by step. -/
theorem finish_eq (st : Firsts T) (r p : Nat) (empty : Bool) :
    (((if empty then st.modify r fun f => { f with seeThrough := true } else st).modify r
      fun f => { f with priority := p }).modify r fun f => { f with computed := true }) =
      st.modify r (First.finish empty p) := by
  unfold First.finish
  cases empty with
  | true =>
      rw [if_pos rfl, Firsts.modify_modify, Firsts.modify_modify]
      rfl
  | false =>
      rw [if_neg Bool.false_ne_true, Firsts.modify_modify]
      rfl

/-- The rule is solved when it gets its second mark. Its rank is above those of the rules it
starts with; no rule that has been computed starts with it. -/
theorem AltsSound.finish {p : Nat} (hstart : st.first r = First.blank) (hr : InHand r st1)
    (hinv : FirstsInv g st1)
    (h : AltsSound r (g.rule r).alts (st.modify r fun f => { f with computing := true }) st1) :
    FirstsInv g (st1.modify r (First.finish (g.rule r).hasEmptyAlt p)) := by
  have hne : ∀ {v}, (st1.first v).computed = true → v ≠ r := by
    rintro v hv rfl
    rw [hr.computed] at hv
    cases hv
  have hother : ∀ v, v ≠ r →
      (st1.modify r (First.finish (g.rule r).hasEmptyAlt p)).first v = st1.first v :=
    fun v hv => Firsts.modify_first_of_ne st1 hv _
  have hself := Firsts.modify_first_self st1 r (First.finish (g.rule r).hasEmptyAlt p)
  generalize st1.modify r (First.finish (g.rule r).hasEmptyAlt p) = st2 at hother hself ⊢
  have hkeep : ∀ v, (st1.first v).computed = true → st2.first v = st1.first v :=
    fun v hv => hother v (hne hv)
  have halt : ∀ alt ∈ (g.rule r).alts, altFirsts st2.first alt = altFirsts st1.first alt ∧
      leftRules st2.first alt = leftRules st1.first alt :=
    fun alt hmem => altFirsts_congr alt fun m hm => hkeep m (h.left alt hmem m hm)
  have hsolved : Solved g st2.first r := by
    refine ⟨?_, ?_, ?_, ?_⟩
    · intro t
      have hfirst := h.firstSet t
      rw [Firsts.modify_first_self, hstart] at hfirst
      rw [hself]
      refine hfirst.trans ((or_iff_right (Finset.notMem_empty t)).trans ?_)
      exact exists_congr fun alt => and_congr_right fun hmem => by rw [(halt alt hmem).1]
    · have hsee := h.seeThrough
      rw [Firsts.modify_first_self, hstart] at hsee
      have hflag : (st2.first r).seeThrough = true ↔
          (g.rule r).hasEmptyAlt = true ∨ (st1.first r).seeThrough = true := by
        rw [hself, First.finish, Bool.or_eq_true]
      rw [hflag]
      refine or_congr_right (hsee.trans ((or_iff_right Bool.false_ne_true).trans ?_))
      exact exists_congr fun alt => and_congr_right fun hmem => by rw [(halt alt hmem).1]
    · intro alt hmem m hm
      rw [(halt alt hmem).2] at hm
      have hcomp := h.left alt hmem m hm
      rw [hkeep m hcomp]
      exact hcomp
    · intro hpred hnil
      rw [hself]
      refine h.predicates hpred (fun alt hmem m hm => ?_) ?_
      · rw [← hkeep m (h.left alt hmem m hm)]
        exact hnil alt hmem m (by rw [(halt alt hmem).2]; exact hm)
      · rw [Firsts.modify_first_self, hstart]
        rfl
  refine ⟨?_, ?_, ?_⟩
  · intro v hv
    by_cases hvr : v = r
    · rw [hvr, hself, First.finish, hr.computing] at hv
      cases hv
    · rw [hother v hvr] at hv ⊢
      exact hinv.blank v hv
  · intro v hv
    by_cases hvr : v = r
    · rw [hvr]
      exact hsolved
    · rw [hother v hvr] at hv
      exact (hinv.solved v hv).congr (hkeep v hv) hkeep
  · obtain ⟨rank, hrank⟩ := hinv.ranked
    -- the greatest rank of a rule that `r` starts with
    obtain ⟨top, htop⟩ : ∃ top, ∀ alt ∈ (g.rule r).alts, ∀ m ∈ leftRules st2.first alt,
        rank m ≤ top := by
      refine ⟨((g.rule r).alts.flatMap (leftRules st2.first)).toFinset.sup rank, ?_⟩
      intro alt hmem m hm
      exact Finset.le_sup (List.mem_toFinset.2 (List.mem_flatMap.2 ⟨alt, hmem, hm⟩))
    refine ⟨Function.update rank r (top + 1), ?_⟩
    intro v hv alt hmem m hm
    by_cases hvr : v = r
    · subst hvr
      have hm' := hm
      rw [(halt alt hmem).2] at hm'
      rw [Function.update_self, Function.update_of_ne (hne (h.left alt hmem m hm'))]
      exact Nat.lt_succ_of_le (htop alt hmem m hm)
    · rw [hother v hvr] at hv
      have hsol := hinv.solved v hv
      have hleft : leftRules st2.first alt = leftRules st1.first alt :=
        (altFirsts_congr alt fun m hm => hkeep m (hsol.left alt hmem m hm)).2
      rw [hleft] at hm
      rw [Function.update_of_ne hvr, Function.update_of_ne (hne (hsol.left alt hmem m hm))]
      exact hrank v hv alt hmem m hm

/-- One call. Every call on a rule that has no mark yet gives it one, so there are
enough calls as long as there are more of them than rules without a mark. -/
theorem computeFirstSet_ok {roots : List Nat}
    (hroots : ∀ r ∈ roots, ∀ alt ∈ (g.rule r).alts, ∀ item ∈ alt, ∀ m,
      item.entry = .rule m → m ∈ roots) (fuel : Nat) :
    ∀ r ∈ roots, ∀ st : Firsts T, (waiting roots st).card < fuel →
      Returns (computeFirstSet g fuel r st) (CallOk g r st) := by
  induction fuel with
  | zero =>
      intro r _ st hlt
      exact absurd hlt (Nat.not_lt_zero _)
  | succ fuel ih =>
      intro r hr st hlt
      rw [computeFirstSet]
      split
      · next hcomputed => exact returns_ok ⟨fun _ _ => rfl, id, fun hinv _ => ⟨hinv, hcomputed⟩⟩
      next hcomputed =>
      split
      · refine returns_ok ⟨fun _ _ => rfl, fun herr => ?_, fun _ herr => ?_⟩
        · exact absurd herr (List.cons_ne_nil _ _)
        · exact absurd herr (List.cons_ne_nil _ _)
      next hcomputing =>
      have hstart : (st.first r).computing = false := by simpa using hcomputing
      have hmark : InHand r (st.modify r fun f => { f with computing := true }) := by
        refine ⟨?_, ?_⟩
        · rw [Firsts.modify_first_self]
        · rw [Firsts.modify_first_self]
          simpa using hcomputed
      have hlt1 : (waiting roots (st.modify r fun f => { f with computing := true })).card <
          fuel := by
        refine Nat.lt_of_lt_of_le (Finset.card_lt_card ?_) (Nat.lt_succ_iff.1 hlt)
        refine (Finset.ssubset_iff_of_subset ?_).2 ⟨r, mem_waiting.2 ⟨hr, hstart⟩, ?_⟩
        · intro v hv
          obtain ⟨hmem, hv⟩ := mem_waiting.1 hv
          have hvr : v ≠ r := by
            rintro rfl
            rw [hmark.computing] at hv
            cases hv
          rw [Firsts.modify_first_of_ne st hvr] at hv
          exact mem_waiting.2 ⟨hmem, hv⟩
        · intro hmem
          have hfalse := (mem_waiting.1 hmem).2
          rw [hmark.computing] at hfalse
          cases hfalse
      refine (firstAlts_ok ih (g.rule r).alts (hroots r hr) 0 _ hmark hlt1).bind
        fun res hres => ?_
      dsimp only
      have hend := finish_eq res.1 r (res.2 + 1) (g.rule r).hasEmptyAlt
      generalize (if (g.rule r).hasEmptyAlt then
        res.1.modify r fun f => { f with seeThrough := true } else res.1) = st2 at hend ⊢
      split
      · exact returns_error (by simp)
      rw [hend]
      refine returns_ok ⟨?_, hres.errors, fun hinv herr => ?_⟩
      · intro v hv
        have hvr : v ≠ r := by
          rintro rfl
          rw [hstart] at hv
          cases hv
        have hsame := Firsts.modify_first_of_ne st hvr fun f => { f with computing := true }
        rw [Firsts.modify_first_of_ne _ hvr, hres.frame v hvr (by rw [hsame]; exact hv), hsame]
      · have hblank := hinv.blank r hstart
        have hinv0 : FirstsInv g (st.modify r fun f => { f with computing := true }) :=
          hinv.modify (by simpa using hcomputed) hmark
        obtain ⟨hinv1, hs⟩ := hres.sound hinv0 herr
        refine ⟨hs.finish hblank hres.inHand hinv1, ?_⟩
        rw [Firsts.modify_first_self]
        rfl

theorem firstsInv_start : FirstsInv g (Firsts.start : Firsts T) := by
  refine ⟨fun _ _ => rfl, fun v hv => ?_, fun _ => 0, fun v hv => ?_⟩
  · cases hv
  · cases hv

/-- The rules of the table one after another. What one of them is given stays. -/
theorem computeFirstSets_fold {roots : List Nat}
    (hroots : ∀ r ∈ roots, ∀ alt ∈ (g.rule r).alts, ∀ item ∈ alt, ∀ m,
      item.entry = .rule m → m ∈ roots) (rs : List Nat) (hrs : ∀ r ∈ rs, r ∈ roots) :
    ∀ st : Firsts T,
      Returns (rs.foldlM (fun st r => computeFirstSet g (roots.length + 1) r st) st) fun st' =>
        (st'.errors = [] → st.errors = []) ∧ (FirstsInv g st → st'.errors = [] →
          FirstsInv g st' ∧ (∀ v, (st.first v).computed = true → (st'.first v).computed = true) ∧
          ∀ r ∈ rs, (st'.first r).computed = true) := by
  induction rs with
  | nil =>
      intro st
      exact returns_ok ⟨id, fun hinv _ =>
        ⟨hinv, fun _ => id, fun r hr => absurd hr List.not_mem_nil⟩⟩
  | cons r rs ih =>
      intro st
      rw [List.foldlM_cons]
      refine (computeFirstSet_ok hroots _ r (hrs r List.mem_cons_self) st
        (Nat.lt_succ_of_le (waiting_card_le roots st))).bind fun st1 hcall => ?_
      obtain ⟨hfuel, hok⟩ := ih (fun r' hr' => hrs r' (List.mem_cons_of_mem _ hr')) st1
      refine ⟨hfuel, fun st' hst' => ?_⟩
      obtain ⟨herrors, hexact⟩ := hok st' hst'
      refine ⟨fun herr => hcall.errors (herrors herr), fun hinv herr => ?_⟩
      obtain ⟨hinv1, hr⟩ := hcall.exact hinv (herrors herr)
      obtain ⟨hinv', hkeep, hall⟩ := hexact hinv1 herr
      refine ⟨hinv', fun v hv => hkeep v ?_, ?_⟩
      · rw [hcall.frame v (hinv.computing hv)]
        exact hv
      · intro v hv
        rcases List.mem_cons.1 hv with rfl | hv
        · exact hkeep v hr
        · exact hall v hv

/-- The rules of a table are closed under the items of their alternatives. -/
theorem Grammar.Wf.roots (hg : g.Wf) {roots : List Nat} (hperm : roots.Perm (List.range g.size)) :
    ∀ r ∈ roots, ∀ alt ∈ (g.rule r).alts, ∀ item ∈ alt, ∀ m,
      item.entry = .rule m → m ∈ roots := by
  intro r hr alt halt item hitem m hm
  rw [hperm.mem_iff, List.mem_range] at hr ⊢
  exact hg.closed r hr alt halt item hitem m hm

/-- Every rule of the table has been computed when there is no error. -/
theorem computeFirstSets_solved (hg : g.Wf) {roots : List Nat}
    (hperm : roots.Perm (List.range g.size)) :
    Returns (computeFirstSets g roots Firsts.start) fun st => st.errors = [] →
      FirstsInv g st ∧ ∀ r < g.size, (st.first r).computed = true := by
  obtain ⟨hfuel, hok⟩ := computeFirstSets_fold (hg.roots hperm) roots (fun _ h => h)
    (Firsts.start : Firsts T)
  refine ⟨hfuel, fun st hst herr => ?_⟩
  obtain ⟨hinv, -, hall⟩ := (hok st hst).2 firstsInv_start herr
  exact ⟨hinv, fun r hr => hall r (hperm.mem_iff.2 (List.mem_range.2 hr))⟩

/-- A rule that has been computed is exact, by induction on its rank. -/
theorem FirstsInv.exact (hpred : PredicateFree g) (h : FirstsInv g st)
    (hv : (st.first v).computed = true) : ExactFirst g v (st.first v) := by
  obtain ⟨rank, hrank⟩ := h.ranked
  induction hn : rank v using Nat.strong_induction_on generalizing v with
  | _ n ih =>
    have hsol := h.solved v hv
    have hleft : ∀ alt ∈ (g.rule v).alts, ∀ m ∈ leftRules st.first alt,
        ExactFirst g m (st.first m) := by
      intro alt hmem m hm
      exact ih (rank m) (hn ▸ hrank v hv alt hmem m hm) (hsol.left alt hmem m hm) rfl
    have halt := fun {alt} hmem => altFirsts_exact alt (hleft alt hmem) (hpred v alt hmem)
    refine ⟨?_, ?_, ?_⟩
    · intro t
      rw [hsol.firstSet, leads_rule_iff]
      exact exists_congr fun alt => and_congr_right fun hmem => (halt hmem).1 t
    · rw [hsol.seeThrough, nullable_rule_iff]
      exact or_congr_right (exists_congr fun alt => and_congr_right fun hmem => (halt hmem).2)
    · exact hsol.predicates (hpred v) fun alt hmem m hm => (hleft alt hmem m hm).predicates

/-- The first sets that are computed without an error are exact. -/
theorem computeFirstSets_ok (hg : g.Wf) (hpred : PredicateFree g) {roots : List Nat}
    (hperm : roots.Perm (List.range g.size)) :
    Returns (computeFirstSets g roots Firsts.start) fun st => st.errors = [] →
      ∀ r < g.size, ExactFirst g r (st.first r) := by
  obtain ⟨hfuel, hok⟩ := computeFirstSets_solved hg hperm
  refine ⟨hfuel, fun st hst herr r hr => ?_⟩
  obtain ⟨hinv, hall⟩ := hok st hst herr
  exact hinv.exact hpred (hall r hr)

/-- The computation always comes to an end. The first sets are those of the derived forms,
and where every rule derives some string, those of the derived strings. -/
theorem firstSets_exact (hg : g.Wf) (hpred : PredicateFree g) {roots : List Nat}
    (hperm : roots.Perm (List.range g.size)) :
    computeFirstSets g roots Firsts.start ≠ .error .outOfCalls ∧
      ∀ st, computeFirstSets g roots Firsts.start = .ok st → st.errors = [] →
        ∀ r < g.size,
          (∀ t, t ∈ (st.first r).firstSet ↔
            ∃ ys, Yields (g.prods isBasic) [.nt r] (.tok (.basic t) :: ys)) ∧
          ((∀ m < g.size, ∃ w, Gen (g.prods isBasic) [.nt m] w) →
            ∀ t, t ∈ (st.first r).firstSet ↔ ∃ w, Gen (g.prods isBasic) [.nt r] (.basic t :: w)) ∧
          ((st.first r).seeThrough = true ↔ Gen (g.prods isBasic) [.nt r] []) := by
  obtain ⟨hfuel, hok⟩ := computeFirstSets_ok hg hpred hperm
  refine ⟨hfuel, fun st hst herr r hr => ?_⟩
  have hexact := hok st hst herr r hr
  refine ⟨?_, ?_, hexact.seeThrough⟩
  · intro t
    rw [hexact.first, Leads, starts_iff_yields]
  · intro hprod t
    rw [hexact.first, Leads]
    constructor
    · intro h
      refine Starts.gen (S := { m | m < g.size }) ?_ hprod ?_ h
      · exact fun n hn body hbody m hm => hg.prods_lt hn hbody hm
      · intro m hm
        cases List.mem_singleton.1 hm
        exact hr
    · rintro ⟨w, hw⟩
      exact hw.starts

/-- The item is a predicate. -/
def Entry.isPredicate : Entry T → Bool
  | .predicate _ => true
  | _ => false

theorem all_predicateFree {alts : List (Alt T)}
    (h : (alts.all fun alt => alt.all fun item => !item.entry.isPredicate) = true) :
    ∀ alt ∈ alts, ∀ item ∈ alt, ∀ a, item.entry ≠ .predicate a := by
  intro alt halt item hitem a ha
  have hitem' := List.all_eq_true.1 (List.all_eq_true.1 h alt halt) item hitem
  rw [ha] at hitem'
  cases hitem'

theorem tableOf_predicateFree {rules : List (Rule T)}
    (h : (rules.all fun rule => rule.alts.all fun alt => alt.all fun item =>
      !item.entry.isPredicate) = true) : PredicateFree (tableOf rules) :=
  tableOf_rule (fun rule hrule => all_predicateFree (List.all_eq_true.1 h rule hrule))
    fun _ halt => absurd halt List.not_mem_nil

/-- A list of items that are optional, up to a last one. -/
def optionalList : Grammar 3 :=
  tableOf [⟨false, [[itemCreate (.rule 1), itemCreate (.basic 1)]], none, 0⟩,
    ⟨true, [[itemCreate (.basic 0), itemCreate (.rule 1)]], none, 0⟩]

theorem firstSets_exact_optional :
    ∃ st : Firsts 3, computeFirstSets optionalList [1, 0] Firsts.start = .ok st ∧ st.errors = [] ∧
      (∃ ys, Yields (optionalList.prods isBasic) [.nt 0] (.tok (.basic 1) :: ys)) ∧
      Gen (optionalList.prods isBasic) [.nt 1] [] := by
  obtain ⟨-, hok⟩ := firstSets_exact (g := optionalList) (tableOf_wf rfl)
    (tableOf_predicateFree rfl) (List.Perm.swap 0 1 [])
  refine ⟨_, rfl, rfl, ?_, ?_⟩
  · exact ((hok _ rfl rfl 0 (by decide)).1 1).1 (by decide)
  · exact (hok _ rfl rfl 1 (by decide)).2.2.1 (by decide)

/-- A rule that derives no string. -/
def endless : Grammar 3 :=
  tableOf [⟨false, [[itemCreate (.basic 0), itemCreate (.rule 0)]], none, 0⟩]

/-- The terminal is in the first set, but there is no string for it to start. -/
theorem firstSet_endless :
    endless.Wf ∧ PredicateFree endless ∧
      ∃ st : Firsts 3, computeFirstSets endless [0] Firsts.start = .ok st ∧ st.errors = [] ∧
        0 ∈ (st.first 0).firstSet ∧ ¬ ∃ w, Gen (endless.prods isBasic) [.nt 0] (.basic 0 :: w) := by
  refine ⟨tableOf_wf rfl, tableOf_predicateFree rfl, _, rfl, rfl, by decide, ?_⟩
  rintro ⟨w, hw⟩
  refine sem_single.1 (Gen.sem (S := fun _ _ => False) ?_ hw)
  intro n body hbody w hw
  match n with
  | 0 =>
      rcases hbody with ⟨hempty, -⟩ | ⟨alt, halt, rfl⟩
      · cases hempty
      · cases List.mem_singleton.1 halt
        obtain ⟨v, -, u, v', -, hu, -⟩ := hw
        exact hu
  | n + 1 =>
      rcases hbody with ⟨hempty, -⟩ | ⟨alt, halt, rfl⟩
      · cases hempty
      · exact absurd halt List.not_mem_nil

end Tendra.Ref.Sid
