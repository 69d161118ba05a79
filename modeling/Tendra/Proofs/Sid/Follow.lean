import Mathlib.Algebra.Order.BigOperators.Group.Finset
import Tendra.Lib.Follow
import Tendra.Proofs.Sid.Firsts

/-!
# Follow sets are exact

The follow set of a rule is handed down to the rules in its alternatives, and again
whenever it has grown. While a rule is being gone through its set can grow once more,
by a call from further down; that call then goes through all its alternatives. So at
every moment a rule is settled, in the sense that the sets below it take account of
its own, unless its set is the same as it was. This is what each call keeps, and at
the end nothing is left that is not settled.

A handler is followed by what follows its rule, but no rule derives its handler.
-/

namespace Tendra.Ref.Sid

open Tendra.Cfg

variable {T : Nat} {g : Grammar T}
variable {m r : Nat} {t : Fin T} {c : Finset (Fin T)} {item : Item T} {alt pre next : Alt T}
  {xs : List (Sym Nat (Entry T))} {st st' : Checks T} {f : Follow T}

/-- Neither the alternatives nor the handlers have predicates. -/
def NoPredicates (g : Grammar T) : Prop :=
  ∀ r, ∀ alt ∈ (g.rule r).bodies, ∀ item ∈ alt, ∀ a, item.entry ≠ .predicate a

theorem NoPredicates.predicateFree (h : NoPredicates g) : PredicateFree g :=
  fun r alt halt => h r alt (List.mem_append_right _ halt)

/-- The alternatives of the rules as forms, with the handlers. -/
def Grammar.withHandlers (g : Grammar T) (r : Nat) : Set (List (Sym Nat (Entry T))) :=
  { body | body ∈ g.prods isBasic r ∨
    ∃ alt, (g.rule r).handler = some alt ∧ body = Alt.form isBasic alt }

/-- The terminal `t` can follow the rule `r`. -/
def CanFollow (g : Grammar T) (t : Fin T) (r : Nat) : Prop :=
  Follows (g.prods isBasic) g.withHandlers (.basic t) r

/-- What can come first in the form `xs` when it is followed by `c`. -/
def Before (g : Grammar T) (c : Finset (Fin T)) (xs : List (Sym Nat (Entry T))) (t : Fin T) :
    Prop :=
  Leads g xs t ∨ Nullable g xs ∧ t ∈ c

/-! ## Forms -/

theorem mem_bodies {rule : Rule T} :
    alt ∈ rule.bodies ↔ rule.handler = some alt ∨ alt ∈ rule.alts := by
  simp [Rule.bodies]

theorem form_mem_withHandlers (h : alt ∈ (g.rule r).bodies) :
    Alt.form isBasic alt ∈ g.withHandlers r := by
  rcases mem_bodies.1 h with hhandler | halt
  · exact Or.inr ⟨alt, hhandler, rfl⟩
  · exact Or.inl (Or.inr ⟨alt, halt, rfl⟩)

/-- A rule in a form is the rule of an item. -/
theorem form_split {ys : List (Sym Nat (Entry T))} (h : Alt.form isBasic alt = xs ++ .nt m :: ys) :
    ∃ pre item next, alt = pre ++ item :: next ∧ item.entry = .rule m ∧
      Alt.form isBasic next = ys := by
  obtain ⟨pre, rest, rfl, -, hrest⟩ := List.filterMap_eq_append_iff.1 h
  obtain ⟨silent, item, next, rfl, -, hitem, hnext⟩ := List.filterMap_eq_cons_iff.1 hrest
  refine ⟨pre ++ silent, item, next, (List.append_assoc _ _ _).symm, ?_, hnext⟩
  unfold Item.sym at hitem
  split at hitem
  · next r hr =>
      cases hitem
      exact hr
  · split at hitem
    · cases hitem
    · cases hitem

theorem withHandlers_split {ys : List (Sym Nat (Entry T))}
    (h : xs ++ .nt m :: ys ∈ g.withHandlers r) :
    ∃ pre item next, pre ++ item :: next ∈ (g.rule r).bodies ∧ item.entry = .rule m ∧
      Alt.form isBasic next = ys := by
  have hbody : ∃ alt ∈ (g.rule r).bodies, Alt.form isBasic alt = xs ++ .nt m :: ys := by
    rcases h with (⟨-, hnil⟩ | ⟨alt, halt, heq⟩) | ⟨alt, hhandler, heq⟩
    · exact absurd hnil (List.append_ne_nil_of_right_ne_nil xs (List.cons_ne_nil _ _))
    · exact ⟨alt, mem_bodies.2 (Or.inr halt), heq.symm⟩
    · exact ⟨alt, mem_bodies.2 (Or.inl hhandler), heq.symm⟩
  obtain ⟨alt, halt, heq⟩ := hbody
  obtain ⟨pre, item, next, rfl, hitem, hnext⟩ := form_split heq
  exact ⟨pre, item, next, halt, hitem, hnext⟩

/-- What comes after a rule in an alternative can follow it. -/
theorem canFollow_of_before (halt : pre ++ item :: next ∈ (g.rule r).bodies)
    (hitem : item.entry = .rule m) (hc : ∀ t ∈ c, CanFollow g t r)
    (h : Before g c (Alt.form isBasic next) t) : CanFollow g t m := by
  have hmem := form_mem_withHandlers halt
  rw [form_append, form_cons_rule hitem] at hmem
  rcases h with hleads | ⟨hnull, ht⟩
  · exact Follows.next hmem hleads
  · exact Follows.last hmem hnull (hc t ht)

theorem before_nil : Before g c [] t ↔ t ∈ c := by
  rw [Before, or_iff_right not_leads_nil, and_iff_right (show Nullable g [] from Gen.nil)]

theorem before_basic {t' : Fin T} : Before g c (.tok (.basic t) :: xs) t' ↔ t' = t := by
  rw [Before, leads_basic, or_iff_left fun h => not_nullable_tok h.1]

theorem before_nt :
    Before g c (.nt m :: xs) t ↔ Leads g [.nt m] t ∨ Nullable g [.nt m] ∧ Before g c xs t := by
  simp only [Before, leads_nt xs, nullable_nt xs]
  tauto

/-! ## Settled rules -/

/-- The follow sets take account of the alternative, when it is followed by `c`. -/
def Covered (g : Grammar T) (st : Checks T) (c : Finset (Fin T)) : Alt T → Prop
  | [] => True
  | item :: next =>
      (∀ m, item.entry = .rule m → (st.follow m).started = true ∧
        ∀ t, Before g c (Alt.form isBasic next) t → t ∈ (st.follow m).followSet) ∧
      Covered g st c next

/-- The follow sets take account of that of `r`. -/
def Settled (g : Grammar T) (st : Checks T) (r : Nat) : Prop :=
  ∀ alt ∈ (g.rule r).bodies, Covered g st (st.follow r).followSet alt

/-- A follow set only grows. -/
structure Grows (f f' : Follow T) : Prop where
  started : f.started = true → f'.started = true
  set : f.followSet ⊆ f'.followSet

theorem Grows.trans {f' f'' : Follow T} (h : Grows f f') (h' : Grows f' f'') : Grows f f'' :=
  ⟨fun hs => h'.started (h.started hs), h.set.trans h'.set⟩

theorem Covered.mono (hgrows : ∀ v, Grows (st.follow v) (st'.follow v)) (h : Covered g st c alt) :
    Covered g st' c alt := by
  induction alt with
  | nil => trivial
  | cons item next ih =>
      refine ⟨?_, ih h.2⟩
      intro m hm
      obtain ⟨hstarted, hset⟩ := h.1 m hm
      exact ⟨(hgrows m).started hstarted, fun t ht => (hgrows m).set (hset t ht)⟩

theorem Covered.split (h : Covered g st c (pre ++ item :: next)) :
    Covered g st c (item :: next) := by
  induction pre with
  | nil => exact h
  | cons _ pre ih => exact ih h.2

theorem Settled.mono (hgrows : ∀ v, Grows (st.follow v) (st'.follow v))
    (hsame : st'.follow r = st.follow r) (h : Settled g st r) : Settled g st' r := by
  intro alt halt
  rw [hsame]
  exact (h alt halt).mono hgrows

/-! ## States -/

/-- There are no predicates. -/
structure Plain (g : Grammar T) (st : Checks T) : Prop where
  first : ∀ v < g.size, (st.first v).predicateFirst = []
  follow : ∀ v, (st.follow v).predicateFollow = []

/-- The follow sets hold nothing but what can follow, and what is in the way of a rule
that can be seen through has been reported. -/
structure FollowInv (g : Grammar T) (st : Checks T) : Prop where
  exact : ∀ v < g.size, ExactFirst g v (st.first v)
  blank : ∀ v, (st.follow v).started = false → (st.follow v).followSet = ∅
  sound : ∀ v, ∀ t ∈ (st.follow v).followSet, CanFollow g t v
  clear : ∀ v, (st.first v).seeThrough = true →
    (st.follow v).followSet ∩ (st.first v).firstSet = ∅

/-- How far the follow set of a rule is from being full. -/
def Follow.room (f : Follow T) : Nat := if f.started then T - f.followSet.card else T + 1

/-- How often the follow sets can still grow. -/
def room (n : Nat) (st : Checks T) : Nat := ∑ v ∈ Finset.range n, (st.follow v).room

/-- What holds between two states in any case. -/
structure Bounded (g : Grammar T) (st st' : Checks T) : Prop where
  plain : Plain g st'
  room : room g.size st' ≤ room g.size st
  errors : st'.errors = [] → st.errors = []

theorem Bounded.trans {st1 st2 : Checks T} (h : Bounded g st st1) (h' : Bounded g st1 st2) :
    Bounded g st st2 :=
  ⟨h'.plain, h'.room.trans h.room, fun herr => h.errors (h'.errors herr)⟩

/-- What holds between two states if there is no error: whatever has changed is settled. -/
structure Progress (g : Grammar T) (st st' : Checks T) : Prop where
  inv : FollowInv g st'
  first : st'.first = st.first
  grows : ∀ v, Grows (st.follow v) (st'.follow v)
  settled : ∀ v, st'.follow v = st.follow v ∨ Settled g st' v

theorem Progress.refl (h : FollowInv g st) : Progress g st st :=
  ⟨h, rfl, fun _ => ⟨id, Finset.Subset.refl _⟩, fun _ => Or.inl rfl⟩

theorem Progress.trans {st1 st2 : Checks T} (h : Progress g st st1) (h' : Progress g st1 st2) :
    Progress g st st2 := by
  refine ⟨h'.inv, h'.first.trans h.first, fun v => (h.grows v).trans (h'.grows v), ?_⟩
  intro v
  rcases h'.settled v with hsame | hset
  · rcases h.settled v with hsame1 | hset1
    · exact Or.inl (hsame.trans hsame1)
    · exact Or.inr (hset1.mono h'.grows hsame)
  · exact Or.inr hset

/-- What a call on the rule `m` does. -/
structure FollowOk (g : Grammar T) (m : Nat) (c : Finset (Fin T)) (st st' : Checks T) : Prop where
  bounded : Bounded g st st'
  ok : FollowInv g st → (∀ t ∈ c, CanFollow g t m) → st'.errors = [] →
    Progress g st st' ∧ (st'.follow m).started = true ∧ c ⊆ (st'.follow m).followSet

/-- What the loop over the last items `alt` of an alternative of `r` does. -/
structure ItemsFollow (g : Grammar T) (r : Nat) (alt : Alt T) (c : Finset (Fin T))
    (st : Checks T) (res : Context T × Checks T) : Prop where
  bounded : Bounded g st res.2
  predicates : res.1.predicates = []
  ok : FollowInv g st → (∀ t ∈ c, CanFollow g t r) → res.2.errors = [] →
    Progress g st res.2 ∧ Covered g res.2 c alt ∧
      ∀ t, t ∈ res.1.set ↔ Before g c (Alt.form isBasic alt) t

section

variable {k : Nat} {rec : Nat → Context T → Checks T → Option (Checks T)}

/-- An item that is a rule. -/
theorem ItemsFollow.rule (hm : m < g.size) (halt : pre ++ item :: next ∈ (g.rule r).bodies)
    (hentry : item.entry = .rule m) {res : Context T × Checks T}
    (hnext : ItemsFollow g r next c st res) (hcall : FollowOk g m res.1.set res.2 st') :
    ItemsFollow g r (item :: next) c st
      (if (st'.first m).seeThrough then
        (⟨res.1.set ∪ (st'.first m).firstSet,
          appendEntries res.1.predicates (st'.first m).predicateFirst⟩, st')
      else (⟨(st'.first m).firstSet, appendEntries [] (st'.first m).predicateFirst⟩, st')) := by
  have hstate : ∀ a b : Context T, (if (st'.first m).seeThrough then (a, st') else (b, st')).2 =
      st' := by
    intro a b
    split <;> rfl
  have hpred : (st'.first m).predicateFirst = [] := hcall.bounded.plain.first m hm
  refine ⟨?_, ?_, ?_⟩
  · rw [hstate]
    exact hnext.bounded.trans hcall.bounded
  · rw [hpred, hnext.predicates]
    split <;> rfl
  · rw [hstate]
    intro hinv hc herr
    obtain ⟨hprog1, hcov1, hset1⟩ := hnext.ok hinv hc (hcall.bounded.errors herr)
    obtain ⟨hprog2, hstarted, hsub⟩ := hcall.ok hprog1.inv
      (fun t ht => canFollow_of_before halt hentry hc ((hset1 t).1 ht)) herr
    have hexact := hprog2.inv.exact m hm
    refine ⟨hprog1.trans hprog2, ⟨?_, hcov1.mono hprog2.grows⟩, ?_⟩
    · intro m' hm'
      rw [hentry] at hm'
      cases hm'
      exact ⟨hstarted, fun t ht => hsub ((hset1 t).2 ht)⟩
    · intro t
      rw [form_cons_rule hentry, before_nt, ← hset1, ← hexact.first, ← hexact.seeThrough]
      split
      · next hsee =>
          rw [Finset.mem_union, and_iff_right hsee, or_comm]
      · next hsee => rw [or_iff_left fun h => hsee h.1]

/-- The loop over the items, from the last to the first. -/
theorem followItems_ok
    (hrec : ∀ m < g.size, ∀ ctx st, ctx.predicates = [] → Plain g st → room g.size st < k →
      ∃ st', rec m ctx st = some st' ∧ FollowOk g m ctx.set st st') (alt : Alt T)
    (hroots : ∀ item ∈ alt, ∀ m, item.entry = .rule m → m < g.size)
    (hpred : ∀ item ∈ alt, ∀ a, item.entry ≠ .predicate a) (ctx : Context T)
    (hctx : ctx.predicates = []) (hplain : Plain g st) (hlt : room g.size st < k) :
    ∀ pre, pre ++ alt ∈ (g.rule r).bodies →
      ∃ res, followItems rec alt ctx st = some res ∧ ItemsFollow g r alt ctx.set st res := by
  induction alt with
  | nil =>
      intro pre _
      refine ⟨(ctx, st), rfl, ⟨hplain, le_rfl, id⟩, hctx, ?_⟩
      intro hinv _ _
      exact ⟨Progress.refl hinv, trivial, fun t => before_nil.symm⟩
  | cons item next ih =>
      intro pre halt
      have halt' : (pre ++ [item]) ++ next ∈ (g.rule r).bodies := by
        rw [List.append_assoc]
        exact halt
      obtain ⟨res, hres, hok⟩ := ih (fun i hi => hroots i (List.mem_cons_of_mem _ hi))
        (fun i hi => hpred i (List.mem_cons_of_mem _ hi)) (pre ++ [item]) halt'
      have hsilent : (∀ m, item.entry ≠ .rule m) → (∀ t, item.entry ≠ .basic t) →
          ItemsFollow g r (item :: next) ctx.set st res := by
        intro hrule hbasic
        refine ⟨hok.bounded, hok.predicates, ?_⟩
        intro hinv hc herr
        obtain ⟨hprog, hcov, hset⟩ := hok.ok hinv hc herr
        rw [form_cons_silent item hrule hbasic]
        exact ⟨hprog, ⟨fun m hm => absurd hm (hrule m), hcov⟩, hset⟩
      rw [followItems, hres]
      cases hentry : item.entry with
      | predicate a => exact absurd hentry (hpred item List.mem_cons_self a)
      | action a => exact ⟨res, rfl, hsilent (by rw [hentry]; simp) (by rw [hentry]; simp)⟩
      | rename e => exact ⟨res, rfl, hsilent (by rw [hentry]; simp) (by rw [hentry]; simp)⟩
      | basic t =>
          refine ⟨_, rfl, hok.bounded, hok.predicates, ?_⟩
          intro hinv hc herr
          obtain ⟨hprog, hcov, -⟩ := hok.ok hinv hc herr
          refine ⟨hprog, ⟨fun m hm => ?_, hcov⟩, ?_⟩
          · rw [hentry] at hm
            cases hm
          · intro t'
            rw [form_cons_basic item hentry, before_basic, Finset.mem_singleton]
      | rule m =>
          have hm := hroots item List.mem_cons_self m hentry
          obtain ⟨st', hst', hcall⟩ := hrec m hm res.1 res.2 hok.predicates hok.bounded.plain
            (Nat.lt_of_le_of_lt hok.bounded.room hlt)
          refine ⟨_, ?_, ItemsFollow.rule hm halt hentry hok hcall⟩
          simp only [Option.bind_eq_bind, Option.bind_some, hst']
          split <;> rfl

/-- The loop over some alternatives. If the follow set of the rule grows on the way, a
call from further down has settled the rule. -/
theorem followAlts_ok
    (hrec : ∀ m < g.size, ∀ ctx st, ctx.predicates = [] → Plain g st → room g.size st < k →
      ∃ st', rec m ctx st = some st' ∧ FollowOk g m ctx.set st st')
    (alts : List (Alt T)) (hbodies : ∀ alt ∈ alts, alt ∈ (g.rule r).bodies)
    (hroots : ∀ alt ∈ alts, ∀ item ∈ alt, ∀ m, item.entry = .rule m → m < g.size)
    (hpred : ∀ alt ∈ alts, ∀ item ∈ alt, ∀ a, item.entry ≠ .predicate a) :
    ∀ st : Checks T, Plain g st → room g.size st < k →
      ∃ st', followAlts rec r alts st = some st' ∧ Bounded g st st' ∧
        (FollowInv g st → st'.errors = [] → Progress g st st' ∧ (Settled g st' r ∨
          st'.follow r = st.follow r ∧
            ∀ alt ∈ alts, Covered g st' (st.follow r).followSet alt)) := by
  induction alts with
  | nil =>
      intro st hplain _
      refine ⟨st, rfl, ⟨hplain, le_rfl, id⟩, ?_⟩
      intro hinv _
      exact ⟨Progress.refl hinv, Or.inr ⟨rfl, fun alt halt => absurd halt List.not_mem_nil⟩⟩
  | cons alt alts ih =>
      intro st hplain hlt
      obtain ⟨res, hres, hok⟩ := followItems_ok (r := r) hrec alt (hroots alt List.mem_cons_self)
        (hpred alt List.mem_cons_self) ⟨(st.follow r).followSet,
          (st.follow r).predicateFollow⟩ (hplain.follow r) hplain hlt []
        (hbodies alt List.mem_cons_self)
      obtain ⟨st', hst', hbound, hprog⟩ := ih (fun a ha => hbodies a (List.mem_cons_of_mem _ ha))
        (fun a ha => hroots a (List.mem_cons_of_mem _ ha))
        (fun a ha => hpred a (List.mem_cons_of_mem _ ha)) res.2 hok.bounded.plain
        (Nat.lt_of_le_of_lt hok.bounded.room hlt)
      refine ⟨st', ?_, hok.bounded.trans hbound, ?_⟩
      · rw [followAlts]
        simp only [hres, Option.bind_eq_bind, Option.bind_some, hst']
      intro hinv herr
      obtain ⟨hprog1, hcov1, -⟩ := hok.ok hinv (hinv.sound r) (hbound.errors herr)
      obtain ⟨hprog2, hrest⟩ := hprog hprog1.inv herr
      refine ⟨hprog1.trans hprog2, ?_⟩
      rcases hrest with hset | ⟨hsame2, hcov2⟩
      · exact Or.inl hset
      rcases hprog1.settled r with hsame1 | hset1
      · refine Or.inr ⟨hsame2.trans hsame1, ?_⟩
        intro a ha
        rcases List.mem_cons.1 ha with rfl | ha
        · exact hcov1.mono hprog2.grows
        · rw [← hsame1]
          exact hcov2 a ha
      · exact Or.inl (hset1.mono hprog2.grows hsame2)

end

/-! ## Clashes -/

theorem intersectEntries_nil (l : List Nat) : intersectEntries [] l = [] := rfl

theorem followClash_follow (r : Nat) (st : Checks T) : (followClash r st).follow = st.follow := by
  unfold followClash
  dsimp only
  split
  · split
    · split <;> rfl
    · split <;> rfl
  · rfl

/-- Without predicates a clash is about terminals. -/
theorem followClash_cases (hplain : Plain g st) (r : Nat) :
    followClash r st = st ∧ ((st.first r).seeThrough = true →
        (st.follow r).followSet ∩ (st.first r).firstSet = ∅) ∨
      ∃ ts, followClash r st =
        { st with
          first := Function.update st.first r
            { st.first r with firstSet := (st.first r).firstSet \ ts }
          errors := .followTerminals ts r :: st.errors } := by
  unfold followClash
  dsimp only
  split
  · next hsee =>
      split
      · next hts =>
          refine Or.inr ⟨(st.follow r).followSet ∩ (st.first r).firstSet, ?_⟩
          rw [hplain.follow r, intersectEntries_nil, if_neg (not_not.2 rfl)]
      · next hts =>
          rw [hplain.follow r, intersectEntries_nil, if_neg (not_not.2 rfl)]
          exact Or.inl ⟨rfl, fun _ => not_not.1 hts⟩
  · next hsee => exact Or.inl ⟨rfl, fun h => absurd h hsee⟩

theorem followClash_plain (hplain : Plain g st) (r : Nat) : Plain g (followClash r st) := by
  refine ⟨?_, fun v => by rw [followClash_follow]; exact hplain.follow v⟩
  rcases followClash_cases hplain r with ⟨heq, -⟩ | ⟨ts, heq⟩
  · rw [heq]
    exact hplain.first
  · rw [heq]
    intro v hlt
    by_cases hv : v = r
    · subst hv
      simp only [Function.update_self]
      exact hplain.first v hlt
    · simp only [Function.update_of_ne hv]
      exact hplain.first v hlt

theorem followClash_errors (hplain : Plain g st) (herr : (followClash r st).errors = []) :
    followClash r st = st ∧ ((st.first r).seeThrough = true →
      (st.follow r).followSet ∩ (st.first r).firstSet = ∅) := by
  rcases followClash_cases hplain r with h | ⟨ts, heq⟩
  · exact h
  · rw [heq] at herr
    exact absurd herr (List.cons_ne_nil _ _)

/-! ## The whole recursion -/

/-- A set that gets something new has less room. -/
theorem Follow.room_grow {ctx : Context T}
    (h : ¬ (f.started = true ∧ f.followSet = f.followSet ∪ ctx.set)) :
    (f.grow ctx).room < f.room := by
  unfold Follow.room Follow.grow
  cases hstarted : f.started with
  | false =>
      simp only [if_true, Bool.false_eq_true, if_false]
      omega
  | true =>
      simp only [if_true]
      have hne : f.followSet ≠ f.followSet ∪ ctx.set := fun heq => h ⟨hstarted, heq⟩
      have hlt : f.followSet.card < (f.followSet ∪ ctx.set).card :=
        Finset.card_lt_card (Finset.subset_union_left.ssubset_of_ne hne)
      have hle : (f.followSet ∪ ctx.set).card ≤ T := by
        simpa using Finset.card_le_univ (f.followSet ∪ ctx.set)
      omega

theorem room_update (hr : r < g.size) (h : f.room < (st.follow r).room) :
    room g.size (st.setFollow r f) < room g.size st := by
  refine Finset.sum_lt_sum (fun v _ => ?_) ⟨r, Finset.mem_range.2 hr, ?_⟩
  · by_cases hv : v = r
    · rw [hv, Checks.setFollow_self]
      exact h.le
    · rw [Checks.setFollow_of_ne st hv]
  · rw [Checks.setFollow_self]
    exact h

/-- The follow set of a rule gets a context. -/
theorem FollowInv.grow (hinv : FollowInv g st) {ctx : Context T}
    (hctx : ∀ t ∈ ctx.set, CanFollow g t r) (hclear : (st.first r).seeThrough = true →
      ((st.follow r).grow ctx).followSet ∩ (st.first r).firstSet = ∅) :
    FollowInv g (st.setFollow r ((st.follow r).grow ctx)) ∧
      Grows (st.follow r) ((st.follow r).grow ctx) ∧
      ctx.set ⊆ ((st.follow r).grow ctx).followSet := by
  have hset : ((st.follow r).grow ctx).followSet = (st.follow r).followSet ∪ ctx.set := by
    cases hstarted : (st.follow r).started with
    | false => simp [Follow.grow, hstarted, hinv.blank r hstarted]
    | true => simp [Follow.grow, hstarted]
  refine ⟨⟨hinv.exact, ?_, ?_, ?_⟩, ⟨fun _ => rfl, ?_⟩, ?_⟩
  · intro v hv
    by_cases hvr : v = r
    · subst hvr
      rw [Checks.setFollow_self] at hv
      cases hv
    · rw [Checks.setFollow_of_ne st hvr] at hv ⊢
      exact hinv.blank v hv
  · intro v t ht
    by_cases hvr : v = r
    · subst hvr
      rw [Checks.setFollow_self, hset] at ht
      rcases Finset.mem_union.1 ht with ht | ht
      · exact hinv.sound v t ht
      · exact hctx t ht
    · rw [Checks.setFollow_of_ne st hvr] at ht
      exact hinv.sound v t ht
  · intro v hv
    by_cases hvr : v = r
    · subst hvr
      rw [Checks.setFollow_self]
      exact hclear hv
    · rw [Checks.setFollow_of_ne st hvr]
      exact hinv.clear v hv
  · rw [hset]
    exact Finset.subset_union_left
  · rw [hset]
    exact Finset.subset_union_right

/-- The items of the alternatives and handlers refer to rules of the table. -/
theorem Grammar.Wf.bodies_lt (hg : g.Wf) (hr : r < g.size) :
    ∀ alt ∈ (g.rule r).bodies, ∀ item ∈ alt, ∀ m, item.entry = .rule m → m < g.size := by
  intro alt halt
  rcases mem_bodies.1 halt with hhandler | halt
  · exact hg.handler r hr alt hhandler
  · exact hg.closed r hr alt halt

/-- One call. Each call that does not return at once makes a set grow, so there are
enough calls as long as there are more of them than room. -/
theorem computeFollowSet_ok (hg : g.Wf) (hpred : NoPredicates g) (fuel : Nat) :
    ∀ r < g.size, ∀ (ctx : Context T) (st : Checks T), ctx.predicates = [] → Plain g st →
      room g.size st < fuel →
      ∃ st', computeFollowSet g fuel r ctx st = some st' ∧ FollowOk g r ctx.set st st' := by
  induction fuel with
  | zero =>
      intro r _ ctx st _ _ hlt
      exact absurd hlt (Nat.not_lt_zero _)
  | succ fuel ih =>
      intro r hr ctx st hctx hplain hlt
      rw [computeFollowSet]
      split
      · next hexit =>
          refine ⟨st, rfl, ⟨hplain, le_rfl, id⟩, ?_⟩
          intro hinv _ _
          refine ⟨Progress.refl hinv, hexit.1, ?_⟩
          rw [hexit.2.1]
          exact Finset.subset_union_right
      next hexit =>
      have hmore : ¬ ((st.follow r).started = true ∧
          (st.follow r).followSet = (st.follow r).followSet ∪ ctx.set) := by
        rintro ⟨hstarted, heq⟩
        refine hexit ⟨hstarted, heq, ?_⟩
        rw [hctx]
        exact fun a ha => absurd ha List.not_mem_nil
      dsimp only
      have hroom : room g.size (st.setFollow r ((st.follow r).grow ctx)) < room g.size st :=
        room_update hr (Follow.room_grow hmore)
      have hplain1 : Plain g (st.setFollow r ((st.follow r).grow ctx)) := by
        refine ⟨hplain.first, ?_⟩
        intro v
        by_cases hv : v = r
        · rw [hv, Checks.setFollow_self, Follow.grow, hctx, hplain.follow r]
          rfl
        · rw [Checks.setFollow_of_ne st hv]
          exact hplain.follow v
      generalize hst1 : st.setFollow r ((st.follow r).grow ctx) = st1 at *
      have hroom2 : room g.size (followClash r st1) = room g.size st1 := by
        unfold room
        rw [followClash_follow]
      obtain ⟨st', hst', hbound, hok⟩ := followAlts_ok ih (g.rule r).bodies (fun _ h => h)
        (hg.bodies_lt hr) (hpred r) (followClash r st1) (followClash_plain hplain1 r)
        (by omega)
      have herrors : (followClash r st1).errors = [] → st.errors = [] := by
        intro herr
        rw [(followClash_errors hplain1 herr).1, ← hst1] at herr
        exact herr
      refine ⟨st', hst', ⟨hbound.plain, by have := hbound.room; omega,
        fun herr => herrors (hbound.errors herr)⟩, ?_⟩
      intro hinv hsound herr
      obtain ⟨heq, hclear⟩ := followClash_errors hplain1 (hbound.errors herr)
      rw [heq] at hok
      have hfollow1 : st1.follow r = (st.follow r).grow ctx := by
        rw [← hst1, Checks.setFollow_self]
      have hother : ∀ v, v ≠ r → st1.follow v = st.follow v := by
        intro v hv
        rw [← hst1, Checks.setFollow_of_ne st hv]
      have hfirst1 : st1.first = st.first := by rw [← hst1, Checks.setFollow_first]
      rw [hfollow1, hfirst1] at hclear
      obtain ⟨hinv1, hgrow, hsub⟩ := hinv.grow hsound hclear
      rw [hst1] at hinv1
      obtain ⟨hprog, hrest⟩ := hok hinv1 herr
      have hset : Settled g st' r := by
        rcases hrest with hset | ⟨hsame, hcov⟩
        · exact hset
        · intro alt halt
          rw [hsame]
          exact hcov alt halt
      refine ⟨⟨hprog.inv, hprog.first.trans hfirst1, ?_, ?_⟩, ?_, ?_⟩
      · intro v
        by_cases hv : v = r
        · subst hv
          exact hgrow.trans (hfollow1 ▸ hprog.grows v)
        · rw [← hother v hv]
          exact hprog.grows v
      · intro v
        by_cases hv : v = r
        · rw [hv]
          exact Or.inr hset
        · rw [← hother v hv]
          exact hprog.settled v
      · refine (hprog.grows r).started ?_
        rw [hfollow1]
        rfl
      · refine hsub.trans ?_
        rw [← hfollow1]
        exact (hprog.grows r).set

/-- The rules of the table one after another. -/
theorem computeFollowSets_fold (hg : g.Wf) (hpred : NoPredicates g) (fuel : Nat)
    (rs : List Nat) (hrs : ∀ r ∈ rs, r < g.size) :
    ∀ st : Checks T, Plain g st → room g.size st < fuel →
      ∃ st', computeFollowSets g fuel rs st = some st' ∧ Bounded g st st' ∧
        (FollowInv g st → st'.errors = [] →
          Progress g st st' ∧ ∀ r ∈ rs, (st'.follow r).started = true) := by
  induction rs with
  | nil =>
      intro st hplain _
      refine ⟨st, rfl, ⟨hplain, le_rfl, id⟩, ?_⟩
      intro hinv _
      exact ⟨Progress.refl hinv, fun r hr => absurd hr List.not_mem_nil⟩
  | cons r rs ih =>
      intro st hplain hlt
      obtain ⟨st1, hst1, hcall⟩ := computeFollowSet_ok hg hpred fuel r (hrs r List.mem_cons_self)
        ⟨∅, []⟩ st rfl hplain hlt
      obtain ⟨st', hst', hbound, hok⟩ := ih (fun v hv => hrs v (List.mem_cons_of_mem _ hv)) st1
        hcall.bounded.plain (Nat.lt_of_le_of_lt hcall.bounded.room hlt)
      refine ⟨st', ?_, hcall.bounded.trans hbound, ?_⟩
      · rw [computeFollowSets, List.foldlM_cons, hst1]
        exact hst'
      · intro hinv herr
        obtain ⟨hprog1, hstarted, -⟩ := hcall.ok hinv
          (fun t ht => absurd ht (Finset.notMem_empty t)) (hbound.errors herr)
        obtain ⟨hprog2, hall⟩ := hok hprog1.inv herr
        refine ⟨hprog1.trans hprog2, ?_⟩
        intro v hv
        rcases List.mem_cons.1 hv with rfl | hv
        · exact (hprog2.grows v).started hstarted
        · exact hall v hv

/-- Where every rule is settled, whatever can follow a rule is in its set. -/
theorem followSet_of_canFollow (hg : g.Wf) (hset : ∀ v < g.size, Settled g st v)
    (h : CanFollow g t r) : t ∈ (st.follow r).followSet := by
  have hlt : ∀ {m : Nat} {alt : Alt T}, alt ∈ (g.rule m).bodies → m < g.size := by
    intro m alt halt
    by_contra hm
    rw [hg.blank m (Nat.not_lt.1 hm)] at halt
    exact absurd halt List.not_mem_nil
  induction h with
  | next hbody hstarts =>
      obtain ⟨pre, item, next, halt, hitem, rfl⟩ := withHandlers_split hbody
      have hcov := (hset _ (hlt halt) _ halt).split
      exact (hcov.1 _ hitem).2 t (Or.inl hstarts)
  | last hbody hgen _ ih =>
      obtain ⟨pre, item, next, halt, hitem, rfl⟩ := withHandlers_split hbody
      have hcov := (hset _ (hlt halt) _ halt).split
      exact (hcov.1 _ hitem).2 t (Or.inr ⟨hgen, ih⟩)

theorem room_le (n : Nat) (st : Checks T) : room n st ≤ n * (T + 1) := by
  have hle : ∀ v ∈ Finset.range n, (st.follow v).room ≤ T + 1 := by
    intro v _
    unfold Follow.room
    split
    · omega
    · exact le_rfl
  have hsum := Finset.sum_le_card_nsmul _ _ _ hle
  rw [Finset.card_range, Nat.nsmul_eq_mul] at hsum
  exact hsum

/-- The follow sets that are computed without a clash are exact. -/
theorem computeFollowSets_ok (hg : g.Wf) (hpred : NoPredicates g) {roots : List Nat}
    (hperm : roots.Perm (List.range g.size)) {fuel : Nat} (hfuel : g.size * (T + 1) < fuel)
    (st : Checks T) (hplain : ∀ v < g.size, (st.first v).predicateFirst = [])
    (hstart : ∀ v, st.follow v = Follow.blank) :
    ∃ st', computeFollowSets g fuel roots st = some st' ∧ (st'.errors = [] → st.errors = []) ∧
      ((∀ v < g.size, ExactFirst g v (st.first v)) → st'.errors = [] →
        FollowInv g st' ∧ st'.first = st.first ∧
          ∀ r t, t ∈ (st'.follow r).followSet ↔ CanFollow g t r) := by
  have hplain' : Plain g st := ⟨hplain, fun v => by rw [hstart v]; rfl⟩
  obtain ⟨st', hst', hbound, hok⟩ := computeFollowSets_fold hg hpred fuel roots
    (fun r hr => List.mem_range.1 (hperm.mem_iff.1 hr)) st hplain'
    (Nat.lt_of_le_of_lt (room_le _ st) hfuel)
  refine ⟨st', hst', hbound.errors, ?_⟩
  intro hexact herr
  have hinv : FollowInv g st := by
    refine ⟨hexact, ?_, ?_, ?_⟩
    · intro v _
      rw [hstart v]
      rfl
    · intro v t ht
      rw [hstart v] at ht
      exact absurd ht (Finset.notMem_empty t)
    · intro v _
      rw [hstart v]
      exact Finset.empty_inter _
  obtain ⟨hprog, hstarted⟩ := hok hinv herr
  refine ⟨hprog.inv, hprog.first, ?_⟩
  have hset : ∀ v < g.size, Settled g st' v := by
    intro v hv
    refine (hprog.settled v).resolve_left ?_
    intro hsame
    have hfalse := hstarted v (hperm.mem_iff.2 (List.mem_range.2 hv))
    rw [hsame, hstart v] at hfalse
    cases hfalse
  intro r t
  exact ⟨hprog.inv.sound r t, followSet_of_canFollow hg hset⟩

theorem canFollow_iff :
    CanFollow g t r ↔ ∃ m, ∃ alt ∈ (g.rule m).bodies, ∃ us vs,
      Around (g.prods isBasic) g.withHandlers (Alt.form isBasic alt) us r
        (.tok (.basic t) :: vs) := by
  rw [CanFollow, follows_iff]
  constructor
  · rintro ⟨m, body, (⟨-, rfl⟩ | ⟨alt, halt, rfl⟩) | ⟨alt, hhandler, rfl⟩, us, vs, h⟩
    · exact absurd h.ne_nil (not_not.2 rfl)
    · exact ⟨m, alt, mem_bodies.2 (Or.inr halt), us, vs, h⟩
    · exact ⟨m, alt, mem_bodies.2 (Or.inl hhandler), us, vs, h⟩
  · rintro ⟨m, alt, halt, us, vs, h⟩
    exact ⟨m, _, form_mem_withHandlers halt, us, vs, h⟩

/-- Without handlers the rules around a rule are expanded like all others. -/
theorem canFollow_iff_yields (hhandler : ∀ m, (g.rule m).handler = none) :
    CanFollow g t r ↔ ∃ m, ∃ alt ∈ (g.rule m).alts, ∃ us vs,
      Yields (g.prods isBasic) (Alt.form isBasic alt) (us ++ .nt r :: .tok (.basic t) :: vs) := by
  have hsame : g.withHandlers = g.prods isBasic := by
    funext m
    ext body
    simp [Grammar.withHandlers, hhandler m]
  have hbodies : ∀ m, (g.rule m).bodies = (g.rule m).alts := by
    intro m
    rw [Rule.bodies, hhandler m]
    rfl
  rw [canFollow_iff, hsame]
  simp only [hbodies, around_iff_yields]

/-- The computation comes to an end, in spite of all recursion between the rules. Where no
clash is reported, the follow set of a rule has the terminals that come after it in a form
derived from some alternative or handler; the rules around it may have been replaced by
their handlers. Without handlers this is derivation. -/
theorem followSets_exact (hg : g.Wf) (hpred : NoPredicates g) {roots : List Nat}
    (hperm : roots.Perm (List.range g.size)) {firsts : Firsts T}
    (hfirsts : computeFirstSets g roots Firsts.start = .ok firsts) (herr : firsts.errors = [])
    {fuel : Nat} (hfuel : g.size * (T + 1) < fuel) :
    ∃ st, computeFollowSets g fuel roots (Checks.start firsts.first) = some st ∧
      (st.errors = [] → ∀ r < g.size, ∀ t,
        (t ∈ (st.follow r).followSet ↔ ∃ m, ∃ alt ∈ (g.rule m).bodies, ∃ us vs,
          Around (g.prods isBasic) g.withHandlers (Alt.form isBasic alt) us r
            (.tok (.basic t) :: vs)) ∧
        ((∀ m, (g.rule m).handler = none) →
          (t ∈ (st.follow r).followSet ↔ ∃ m, ∃ alt ∈ (g.rule m).alts, ∃ us vs,
            Yields (g.prods isBasic) (Alt.form isBasic alt)
              (us ++ .nt r :: .tok (.basic t) :: vs)))) := by
  have hexact := (computeFirstSets_ok hg hpred.predicateFree hperm).2 firsts hfirsts herr
  obtain ⟨st, hst, -, hok⟩ := computeFollowSets_ok hg hpred hperm hfuel
    (Checks.start firsts.first) (fun v hv => (hexact v hv).predicates) fun _ => rfl
  refine ⟨st, hst, ?_⟩
  intro herrors r _ t
  obtain ⟨-, -, hiff⟩ := hok hexact herrors
  refine ⟨(hiff r t).trans canFollow_iff, ?_⟩
  intro hhandler
  exact (hiff r t).trans (canFollow_iff_yields hhandler)

theorem tableOf_noPredicates {rules : List (Rule T)}
    (h : (rules.all fun rule => rule.bodies.all fun alt => alt.all fun item =>
      !item.entry.isPredicate) = true) : NoPredicates (tableOf rules) :=
  tableOf_rule (fun rule hrule => all_predicateFree (List.all_eq_true.1 h rule hrule))
    fun _ halt => absurd halt List.not_mem_nil

/-- Two rules that call each other, and a bracket after one of them. -/
def brackets : Grammar 5 :=
  tableOf [⟨false, [[itemCreate (.basic 0), itemCreate (.rule 1), itemCreate (.basic 1)]], none, 0⟩,
    ⟨true, [[itemCreate (.basic 2), itemCreate (.rule 0)]], none, 0⟩]

theorem followSets_exact_brackets :
    ∃ firsts : Firsts 5, computeFirstSets brackets [0, 1] Firsts.start = .ok firsts ∧
      ∃ st, computeFollowSets brackets 13 [0, 1] (Checks.start firsts.first) = some st ∧
        st.errors = [] ∧ 1 ∈ (st.follow 0).followSet ∧
        ∃ m, ∃ alt ∈ (brackets.rule m).bodies, ∃ us vs,
          Around (brackets.prods isBasic) brackets.withHandlers (Alt.form isBasic alt) us 0
            (.tok (.basic 1) :: vs) := by
  refine ⟨_, rfl, _, rfl, rfl, by decide, ?_⟩
  obtain ⟨st, hst, hok⟩ := followSets_exact (g := brackets) (tableOf_wf rfl)
    (tableOf_noPredicates rfl) (List.Perm.refl [0, 1]) rfl rfl (show 2 * (5 + 1) < 13 by decide)
  cases Option.some.inj (hst.symm.trans rfl)
  exact ((hok rfl 0 (by decide) 1).1).1 (by decide)

/-- A rule with a handler, and a terminal after the rule. -/
def handled : Grammar 5 :=
  tableOf [⟨false, [[itemCreate (.rule 1), itemCreate (.basic 2)]], none, 0⟩,
    ⟨false, [[itemCreate (.basic 0)]], some [itemCreate (.rule 2)], 0⟩,
    ⟨false, [[itemCreate (.basic 1)]], none, 0⟩]

theorem handled_prods {body : List (Sym Nat (Entry 5))} (h : body ∈ handled.prods isBasic m) :
    body = [.nt 1, .tok (.basic 2)] ∨ body = [.tok (.basic 0)] ∨ body = [.tok (.basic 1)] := by
  match m with
  | 0 | 1 | 2 =>
      rcases h with ⟨hempty, -⟩ | ⟨alt, halt, rfl⟩
      · cases hempty
      · cases List.mem_singleton.1 halt
        decide
  | m + 3 =>
      rcases h with ⟨hempty, -⟩ | ⟨alt, halt, rfl⟩
      · cases hempty
      · exact absurd halt List.not_mem_nil

/-- The terminal is in the follow set of the rule in the handler, but this rule is in no
form that an alternative derives. -/
theorem followSet_handled :
    handled.Wf ∧ NoPredicates handled ∧
      ∃ firsts : Firsts 5, computeFirstSets handled [0, 1, 2] Firsts.start = .ok firsts ∧
        firsts.errors = [] ∧
        ∃ st, computeFollowSets handled 19 [0, 1, 2] (Checks.start firsts.first) = some st ∧
          st.errors = [] ∧ 2 ∈ (st.follow 2).followSet ∧
          ¬ ∃ m, ∃ alt ∈ (handled.rule m).bodies, ∃ us vs,
            Yields (handled.prods isBasic) (Alt.form isBasic alt)
              (us ++ .nt 2 :: .tok (.basic 2) :: vs) := by
  refine ⟨tableOf_wf rfl, tableOf_noPredicates rfl, _, rfl, rfl, _, rfl, rfl, by decide, ?_⟩
  rintro ⟨m, alt, halt, us, vs, h⟩
  have hnone : ∀ m, ∀ body ∈ handled.prods isBasic m, Sym.nt 2 ∉ body := by
    intro m body hbody
    rcases handled_prods hbody with rfl | rfl | rfl
    all_goals decide
  have hmem : Sym.nt 2 ∈ us ++ .nt 2 :: .tok (.basic 2) :: vs :=
    List.mem_append_right us List.mem_cons_self
  have halone : ∀ m, ∀ alt ∈ (handled.rule m).bodies, ∀ item ∈ alt, item.entry = .rule 2 →
      alt = [itemCreate (.rule 2)] := by
    intro m
    match m with
    | 0 | 1 | 2 => decide
    | m + 3 => exact fun alt halt => absurd halt List.not_mem_nil
  have halt' : alt = [itemCreate (.rule 2)] := by
    obtain ⟨item, hitem, hentry⟩ := nt_mem_form (h.nt_mem hnone hmem)
    exact halone m alt halt item hitem hentry
  rw [halt', form_itemCreate_rule] at h
  generalize hzs : us ++ .nt 2 :: .tok (.basic 2) :: vs = zs at h hmem
  cases h with
  | keep _ hnil =>
      cases hnil
      have hlen := congrArg List.length hzs
      simp only [List.length_append, List.length_cons, List.length_nil] at hlen
      omega
  | expand hbody hys hnil =>
      cases hnil
      rw [List.append_nil] at hmem
      exact hnone _ _ hbody (hys.nt_mem hnone hmem)

end Tendra.Ref.Sid
