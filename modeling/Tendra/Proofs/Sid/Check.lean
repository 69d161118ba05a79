import Tendra.Proofs.Sid.Follow

/-!
# Prediction is deterministic and complete

The first pass keeps one set for all the alternatives of a rule, so it also compares
the items of one alternative with each other. What it lets through has alternatives
with disjoint first sets, and at most one that can be seen through. Only this one gets
the follow set as well, and the second pass has compared that with the first set of
the whole rule.
-/

namespace Tendra.Ref.Sid

open Tendra.Cfg

variable {T : Nat} {g : Grammar T} {first : Nat → First T}

/-! ## Alternatives -/

theorem seesThrough_eq (alt : Alt T) : seesThrough first alt = (altFirsts first alt).2 := by
  induction alt with
  | nil => rfl
  | cons item next ih =>
      rw [seesThrough, List.all_cons, ← seesThrough, ih, altFirsts]
      cases item.entry with
      | predicate a => rfl
      | action a => rfl
      | rename e => rfl
      | basic t => rfl
      | rule m =>
          dsimp only
          split
          · next hsee => rw [hsee, Bool.true_and]
          · next hsee => rw [Bool.not_eq_true] at hsee; rw [hsee, Bool.false_and]

/-! ## The first pass -/

/-- What an alternative without an error leaves: its terminals are new. -/
structure Fresh (s s' : Test T) (ts : Finset (Fin T)) : Prop where
  errors : s.errors = []
  test : s'.test = s.test ∪ ts
  disjoint : Disjoint s.test ts

theorem Test.basic_fresh {r : Nat} {s : Test T} {t : Fin T} (h : (s.basic r t).errors = []) :
    Fresh s (s.basic r t) {t} := by
  unfold Test.basic at h ⊢
  split at h
  · exact absurd h (List.cons_ne_nil _ _)
  · next ht =>
      rw [if_neg ht]
      refine ⟨h, ?_, Finset.disjoint_singleton_right.2 ht⟩
      rw [Finset.union_comm, ← Finset.insert_eq]

theorem Test.rule_fresh {r : Nat} {s : Test T} {f : First T} (h : (s.rule r f).errors = []) :
    Fresh s (s.rule r f) f.firstSet := by
  unfold Test.rule at h ⊢
  dsimp only at h ⊢
  split at h
  · next hdisj =>
      rw [if_pos hdisj]
      refine ⟨?_, rfl, Finset.disjoint_iff_inter_eq_empty.2 hdisj⟩
      dsimp only at h
      split at h
      · exact absurd h (List.cons_ne_nil _ _)
      · exact h
  · exact absurd h (List.cons_ne_nil _ _)

theorem checkItems_ok (first : Nat → First T) (r : Nat) (alt : Alt T) :
    ∀ s : Test T, (checkItems first r alt s).1.errors = [] →
      Fresh s (checkItems first r alt s).1 (altFirsts first alt).1 ∧
        (checkItems first r alt s).2 = (altFirsts first alt).2 := by
  induction alt with
  | nil =>
      intro s h
      exact ⟨⟨h, (Finset.union_empty _).symm, Finset.disjoint_empty_right _⟩, rfl⟩
  | cons item next ih =>
      intro s
      rw [checkItems, altFirsts]
      cases item.entry with
      | predicate a =>
          intro h
          dsimp only at h ⊢
          unfold Test.predicate at h ⊢
          split at h
          · exact absurd h (List.cons_ne_nil _ _)
          · next ha =>
              rw [if_neg ha]
              exact ⟨⟨h, (Finset.union_empty _).symm, Finset.disjoint_empty_right _⟩, rfl⟩
      | action a => exact ih s
      | rename e => exact ih s
      | basic t =>
          intro h
          exact ⟨Test.basic_fresh h, rfl⟩
      | rule m =>
          dsimp only
          split
          · intro h
            obtain ⟨hnext, hsee⟩ := ih _ h
            have hrule := Test.rule_fresh hnext.errors
            refine ⟨⟨hrule.errors, ?_, ?_⟩, hsee⟩
            · rw [hnext.test, hrule.test, Finset.union_assoc]
            · have hdisj := hnext.disjoint
              rw [hrule.test, Finset.disjoint_union_left] at hdisj
              exact Finset.disjoint_union_right.2 ⟨hrule.disjoint, hdisj.1⟩
          · intro h
            exact ⟨Test.rule_fresh h, rfl⟩

/-- Two alternatives that the check tells apart. -/
structure Apart (first : Nat → First T) (a b : Alt T) : Prop where
  disjoint : Disjoint (altFirsts first a).1 (altFirsts first b).1
  seeThrough : (altFirsts first a).2 = true → (altFirsts first b).2 = false

/-- The alternatives after `alt` have been told apart, and so is `alt` from them. -/
theorem Fresh.cons {s s' : Test T} {alt : Alt T} {alts : List (Alt T)}
    (h : Fresh s s' (altFirsts first alt).1)
    (hrest : ∀ b ∈ alts, Disjoint s'.test (altFirsts first b).1)
    (hsee : (altFirsts first alt).2 = true → ∀ b ∈ alts, (altFirsts first b).2 = false)
    (hpair : alts.Pairwise (Apart first)) :
    (∀ b ∈ alt :: alts, Disjoint s.test (altFirsts first b).1) ∧
      (alt :: alts).Pairwise (Apart first) := by
  rw [h.test] at hrest
  refine ⟨?_, List.Pairwise.cons (fun b hb => ⟨?_, fun htrue => hsee htrue b hb⟩) hpair⟩
  · intro b hb
    rcases List.mem_cons.1 hb with rfl | hb
    · exact h.disjoint
    · exact (Finset.disjoint_union_left.1 (hrest b hb)).1
  · exact (Finset.disjoint_union_left.1 (hrest b hb)).2

/-- The message about alternatives that can be seen through is given once, so after it there
is an error. -/
theorem checkAlts_ok (r : Nat) (alts : List (Alt T)) :
    ∀ (isEmpty shown : Bool) (s : Test T), (shown = true → s.errors ≠ []) →
      (checkAlts first r isEmpty shown alts s).errors = [] →
      s.errors = [] ∧ (∀ alt ∈ alts, Disjoint s.test (altFirsts first alt).1) ∧
        (isEmpty = true → ∀ alt ∈ alts, (altFirsts first alt).2 = false) ∧
        alts.Pairwise (Apart first) := by
  induction alts with
  | nil =>
      intro isEmpty shown s _ h
      exact ⟨h, fun alt halt => absurd halt List.not_mem_nil,
        fun _ alt halt => absurd halt List.not_mem_nil, List.Pairwise.nil⟩
  | cons alt alts ih =>
      intro isEmpty shown s hshown h
      have hitems := checkItems_ok first r alt s
      have hshown1 : shown = true → (checkItems first r alt s).1.errors ≠ [] :=
        fun hs hnil => hshown hs (hitems hnil).1.errors
      rw [checkAlts] at h
      generalize hres : checkItems first r alt s = res at h hitems hshown1
      dsimp only at h
      split at h
      · next hthrough =>
          obtain ⟨herr, hrest, hempty, hpair⟩ := ih _ _ _ hshown1 h
          obtain ⟨hfresh, hsee⟩ := hitems herr
          have hfalse : (altFirsts first alt).2 = false := hsee ▸ hthrough
          obtain ⟨hdisj, hpair'⟩ := hfresh.cons hrest
            (fun htrue => absurd htrue (by rw [hfalse]; exact Bool.false_ne_true)) hpair
          refine ⟨hfresh.errors, hdisj, ?_, hpair'⟩
          intro hemp b hb
          rcases List.mem_cons.1 hb with rfl | hb
          · exact hfalse
          · exact hempty hemp b hb
      split at h
      · next hemp =>
          obtain ⟨herr, hrest, hempty, hpair⟩ := ih _ _ _ hshown1 h
          obtain ⟨hfresh, -⟩ := hitems herr
          obtain ⟨hdisj, hpair'⟩ := hfresh.cons hrest (fun _ => hempty rfl) hpair
          refine ⟨hfresh.errors, hdisj, ?_, hpair'⟩
          rw [hemp]
          exact fun hfalse => absurd hfalse Bool.false_ne_true
      split at h
      · next hs =>
          obtain ⟨herr, -⟩ := ih _ _ _ (fun _ => hshown1 hs) h
          exact absurd herr (hshown1 hs)
      · obtain ⟨herr, -⟩ := ih _ _ _ (fun _ => List.cons_ne_nil _ _) h
        exact absurd herr (List.cons_ne_nil _ _)

/-- A rule that passes the check. -/
structure Passed (g : Grammar T) (first : Nat → First T) (r : Nat) : Prop where
  empty : (g.rule r).hasEmptyAlt = true →
    ∀ alt ∈ (g.rule r).alts, (altFirsts first alt).2 = false
  apart : (g.rule r).alts.Pairwise (Apart first)

theorem checkFirstSet_ok {st : Checks T} {r : Nat} (h : (checkFirstSet g st r).errors = []) :
    st.errors = [] ∧ Passed g st.first r := by
  obtain ⟨herr, -, hempty, hpair⟩ := checkAlts_ok r (g.rule r).alts (g.rule r).hasEmptyAlt false
    ⟨∅, [], st.errors⟩ (fun hfalse => absurd hfalse Bool.false_ne_true) h
  exact ⟨herr, hempty, hpair⟩

/-- The first pass changes nothing but the errors. -/
theorem checkFirstSets_ok (rs : List Nat) :
    ∀ st : Checks T, (rs.foldl (checkFirstSet g) st).first = st.first ∧
      (rs.foldl (checkFirstSet g) st).follow = st.follow ∧
      ((rs.foldl (checkFirstSet g) st).errors = [] →
        st.errors = [] ∧ ∀ r ∈ rs, Passed g st.first r) := by
  induction rs with
  | nil =>
      intro st
      exact ⟨rfl, rfl, fun herr => ⟨herr, fun r hr => absurd hr List.not_mem_nil⟩⟩
  | cons r rs ih =>
      intro st
      obtain ⟨hfirst, hfollow, hok⟩ := ih (checkFirstSet g st r)
      refine ⟨hfirst, hfollow, ?_⟩
      intro herr
      obtain ⟨herr1, hall⟩ := hok herr
      obtain ⟨herr0, hpass⟩ := checkFirstSet_ok herr1
      refine ⟨herr0, ?_⟩
      intro v hv
      rcases List.mem_cons.1 hv with rfl | hv
      · exact hpass
      · exact hall v hv

/-! ## The whole check -/

/-- The sets of a rule in a state without errors. -/
structure Checked (g : Grammar T) (st : Checks T) (r : Nat) : Prop where
  inv : FollowInv g st
  follow : ∀ t, t ∈ (st.follow r).followSet ↔ CanFollow g t r
  passed : Passed g st.first r

section

variable {st : Checks T} {r : Nat}

theorem Checked.altFirsts_iff (h : Checked g st r) (hg : g.Wf) (hpred : NoPredicates g)
    (hr : r < g.size) {alt : Alt T} (halt : alt ∈ (g.rule r).alts) :
    (∀ t, t ∈ (altFirsts st.first alt).1 ↔ Leads g (Alt.form isBasic alt) t) ∧
      ((altFirsts st.first alt).2 = true ↔ Nullable g (Alt.form isBasic alt)) :=
  altFirsts_exact alt (fun m hm => by
      obtain ⟨item, hitem, hentry⟩ := mem_leftRules hm
      exact h.inv.exact m (hg.closed r hr alt halt item hitem m hentry))
    (hpred.predicateFree r alt halt)

/-- If one alternative can be seen through, none starts with what follows the rule. -/
theorem Checked.follow_disjoint (h : Checked g st r) (hg : g.Wf) (hpred : NoPredicates g)
    (hr : r < g.size) {a b : Alt T} (ha : a ∈ (g.rule r).alts) (hb : b ∈ (g.rule r).alts)
    (hsee : (altFirsts st.first a).2 = true) :
    Disjoint (st.follow r).followSet (altFirsts st.first b).1 := by
  have hexact := h.inv.exact r hr
  have hnull := ((h.altFirsts_iff hg hpred hr ha).2).1 hsee
  have hrule := hexact.seeThrough.2 (nullable_rule_iff.2 (Or.inr ⟨a, ha, hnull⟩))
  have hsub : (altFirsts st.first b).1 ⊆ (st.first r).firstSet := by
    intro t ht
    have hleads := ((h.altFirsts_iff hg hpred hr hb).1 t).1 ht
    exact (hexact.first t).2 (leads_rule_iff.2 ⟨b, hb, hleads⟩)
  exact (Finset.disjoint_iff_inter_eq_empty.2 (h.inv.clear r hrule)).mono_right hsub

/-- The sets of two alternatives have nothing in common. -/
theorem Checked.disjoint (h : Checked g st r) (hg : g.Wf) (hpred : NoPredicates g)
    (hr : r < g.size) : (computeAltFirstSets g st r).Pairwise Disjoint := by
  refine List.pairwise_map.2 (h.passed.apart.imp_of_mem fun {a b} ha hb hab => ?_)
  unfold altFirstSet
  dsimp only
  split
  · next hsee =>
      rw [if_neg (by rw [hab.seeThrough hsee]; exact Bool.false_ne_true)]
      exact Finset.disjoint_union_left.2 ⟨hab.disjoint, h.follow_disjoint hg hpred hr ha hb hsee⟩
  · split
    · next hsee =>
        exact Finset.disjoint_union_right.2
          ⟨hab.disjoint, (h.follow_disjoint hg hpred hr hb ha hsee).symm⟩
    · exact hab.disjoint

/-- A terminal that comes next when an alternative has been taken is in the set of the
alternative. -/
theorem Checked.mem_altFirstSet (h : Checked g st r) (hg : g.Wf) (hpred : NoPredicates g)
    (hr : r < g.size) {alt : Alt T} (halt : alt ∈ (g.rule r).alts)
    {rest : List (Sym Nat (Entry T))} {t : Fin T} {w : List (Entry T)}
    (hrest : Leads g rest t → CanFollow g t r)
    (hgen : Gen (g.prods isBasic) (Alt.form isBasic alt ++ rest) (.basic t :: w)) :
    t ∈ altFirstSet st r alt := by
  obtain ⟨hleads, hnull⟩ := h.altFirsts_iff hg hpred hr halt
  unfold altFirstSet
  dsimp only
  obtain ⟨u, v, huv, hu, hv⟩ := gen_append.1 hgen
  rcases List.append_eq_cons_iff.1 huv.symm with ⟨rfl, rfl⟩ | ⟨u', rfl, -⟩
  · rw [if_pos (hnull.2 hu)]
    exact Finset.mem_union_right _ ((h.follow t).2 (hrest hv.starts))
  · have ht := (hleads t).2 hu.starts
    split
    · exact Finset.mem_union_left _ ht
    · exact ht

/-- The alternative that can be seen through is found. -/
theorem Checked.seeThroughAlt_iff (h : Checked g st r) (hg : g.Wf) (hpred : NoPredicates g)
    (hr : r < g.size) (i : Nat) :
    computeSeeThroughAlt g st r = some i ↔
      ∃ alt, (g.rule r).alts[i]? = some alt ∧ Nullable g (Alt.form isBasic alt) := by
  have hiff : ∀ {alt}, alt ∈ (g.rule r).alts →
      (seesThrough st.first alt = true ↔ Nullable g (Alt.form isBasic alt)) := by
    intro alt halt
    rw [seesThrough_eq]
    exact (h.altFirsts_iff hg hpred hr halt).2
  unfold computeSeeThroughAlt
  split
  · next hempty =>
      refine iff_of_false (by simp) ?_
      rintro ⟨alt, hi, hnull⟩
      have halt := List.mem_of_getElem? hi
      have hfalse := h.passed.empty hempty alt halt
      rw [← seesThrough_eq, (hiff halt).2 hnull] at hfalse
      cases hfalse
  · rw [List.findIdx?_eq_some_iff_getElem]
    constructor
    · rintro ⟨hi, hsee, -⟩
      exact ⟨_, List.getElem?_eq_getElem hi, (hiff (List.getElem_mem hi)).1 hsee⟩
    · rintro ⟨alt, hget, hnull⟩
      obtain ⟨hi, rfl⟩ := List.getElem?_eq_some_iff.1 hget
      refine ⟨hi, (hiff (List.getElem_mem hi)).2 hnull, ?_⟩
      intro j hji hsee
      have hapart := List.pairwise_iff_getElem.1 h.passed.apart j i (by omega) hi hji
      rw [seesThrough_eq] at hsee
      have hfalse := hapart.seeThrough hsee
      rw [← seesThrough_eq, (hiff (List.getElem_mem hi)).2 hnull] at hfalse
      cases hfalse

end

/-- All four passes together. They come to an end, and if they report nothing, then in every
rule the alternatives have disjoint sets, at most one of them or else the empty alternative
can be seen through, and the set of an alternative has whatever terminal comes next where the
alternative is taken. Here `us` and `rest` are what stands around the rule in a form that is
derived from some rule `m`. -/
theorem checkCollisions_predicts (hg : g.Wf) (hpred : NoPredicates g) {roots : List Nat}
    (hperm : roots.Perm (List.range g.size)) {first : Nat → First T}
    (hfirst : ∀ r < g.size, ExactFirst g r (first r)) {fuel : Nat}
    (hfuel : g.size * (T + 1) < fuel) :
    ∃ res, checkCollisions g fuel roots first = some res ∧ (res.checks.errors = [] →
      ∀ r < g.size,
        (res.altFirst r).Pairwise Disjoint ∧
        (g.rule r).alts.Pairwise (fun a b => Nullable g (Alt.form isBasic a) →
          ¬ Nullable g (Alt.form isBasic b)) ∧
        ((g.rule r).hasEmptyAlt = true →
          ∀ alt ∈ (g.rule r).alts, ¬ Nullable g (Alt.form isBasic alt)) ∧
        (∀ i, res.seeThroughAlt r = some i ↔
          ∃ alt, (g.rule r).alts[i]? = some alt ∧ Nullable g (Alt.form isBasic alt)) ∧
        ∀ m us rest, Around (g.prods isBasic) g.withHandlers [.nt m] us r rest → ∀ t w,
          (∀ (i : Nat) alt, (g.rule r).alts[i]? = some alt →
            Gen (g.prods isBasic) (Alt.form isBasic alt ++ rest) (.basic t :: w) →
            ∃ ts : Finset (Fin T), (res.altFirst r)[i]? = some ts ∧ t ∈ ts) ∧
          ((g.rule r).hasEmptyAlt = true → Gen (g.prods isBasic) rest (.basic t :: w) →
            t ∈ (res.checks.follow r).followSet)) := by
  obtain ⟨hsame, hblank, hpass⟩ := checkFirstSets_ok (g := g) roots (Checks.start first)
  obtain ⟨st, hst, herrors, hok⟩ := computeFollowSets_ok hg hpred hperm hfuel
    (roots.foldl (checkFirstSet g) (Checks.start first))
    (fun v hv => by rw [hsame]; exact (hfirst v hv).predicates) (fun v => by rw [hblank]; rfl)
  refine ⟨⟨st, computeSeeThroughAlt g st, computeAltFirstSets g st⟩, ?_, ?_⟩
  · simp only [checkCollisions, hst, Option.bind_eq_bind, Option.bind_some]
  intro herr r hr
  obtain ⟨hinv, hfirst', hfollow⟩ := hok (fun v hv => by rw [hsame]; exact hfirst v hv) herr
  have hpassed := (hpass (herrors herr)).2 r (hperm.mem_iff.2 (List.mem_range.2 hr))
  have hchecked : Checked g st r := by
    refine ⟨hinv, hfollow r, ?_⟩
    rw [hfirst', hsame]
    exact hpassed
  have hnull := fun {alt} (halt : alt ∈ (g.rule r).alts) =>
    (hchecked.altFirsts_iff hg hpred hr halt).2
  refine ⟨hchecked.disjoint hg hpred hr, ?_, ?_, hchecked.seeThroughAlt_iff hg hpred hr, ?_⟩
  · refine hchecked.passed.apart.imp_of_mem fun {a b} ha hb hab hna hnb => ?_
    have hfalse := hab.seeThrough ((hnull ha).2 hna)
    rw [(hnull hb).2 hnb] at hfalse
    cases hfalse
  · intro hempty alt halt hn
    have hfalse := hchecked.passed.empty hempty alt halt
    rw [(hnull halt).2 hn] at hfalse
    cases hfalse
  · intro m us rest haround t w
    refine ⟨?_, ?_⟩
    · intro i alt hi hgen
      refine ⟨altFirstSet st r alt, ?_, ?_⟩
      · show ((g.rule r).alts.map (altFirstSet st r))[i]? = _
        rw [List.getElem?_map, hi]
        rfl
      · exact hchecked.mem_altFirstSet hg hpred hr (List.mem_of_getElem? hi)
          (fun hleads => haround.follows_single hleads) hgen
    · intro _ hgen
      exact (hfollow r t).2 (haround.follows_single hgen.starts)

theorem checkCollisions_brackets :
    ∃ firsts : Firsts 5, computeFirstSets brackets [0, 1] Firsts.start = .ok firsts ∧
      firsts.errors = [] ∧
      ∃ res, checkCollisions brackets 13 [0, 1] firsts.first = some res ∧ res.checks.errors = [] :=
  ⟨_, rfl, rfl, _, rfl, rfl⟩

theorem checkCollisions_predicts_brackets :
    ∃ firsts : Firsts 5, computeFirstSets brackets [0, 1] Firsts.start = .ok firsts ∧
      ∃ res, checkCollisions brackets 13 [0, 1] firsts.first = some res ∧ res.checks.errors = [] ∧
        (res.altFirst 1).Pairwise Disjoint ∧ 1 ∈ (res.checks.follow 1).followSet := by
  obtain ⟨firsts, hfirsts, herr, res, hres, hnone⟩ := checkCollisions_brackets
  have hexact := (computeFirstSets_ok (g := brackets) (tableOf_wf rfl)
    (tableOf_predicateFree rfl) (List.Perm.refl [0, 1])).2 firsts hfirsts herr
  obtain ⟨res', hres', hok⟩ := checkCollisions_predicts (g := brackets) (tableOf_wf rfl)
    (tableOf_noPredicates rfl) (List.Perm.refl [0, 1]) hexact (show 2 * (5 + 1) < 13 by decide)
  cases Option.some.inj (hres'.symm.trans hres)
  obtain ⟨hdisj, -, -, -, hnext⟩ := hok hnone 1 (by decide)
  refine ⟨firsts, hfirsts, res, hres, hnone, hdisj, ?_⟩
  -- the rule is expanded by its empty alternative between the brackets
  have hbody : [.tok (.basic 0), .nt 1, .tok (.basic 1)] ∈ brackets.withHandlers 0 :=
    Or.inl (Or.inr ⟨_, List.mem_singleton.2 rfl, rfl⟩)
  have haround : Around (brackets.prods isBasic) brackets.withHandlers [.nt 0] [.tok (.basic 0)] 1
      [.tok (.basic 1)] :=
    Around.single hbody
      (@Around.here _ _ _ _ [Sym.tok (Entry.basic 0)] _ _ _ 1 (Yields.refl _) (Yields.refl _))
  exact (hnext 0 _ _ haround 1 []).2 rfl (Gen.tok Gen.nil)

end Tendra.Ref.Sid
