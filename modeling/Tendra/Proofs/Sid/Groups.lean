import Tendra.Proofs.Sid.Firsts
import Tendra.Ref.Sid.Factor

/-!
# The steps of the factorisation

What grouping, expanding and taking out common items do to a list of alternatives, and
what the first set of a new rule is made of. All items count here, so that a form has
one symbol for each item.
-/

namespace Tendra.Ref.Sid

open Tendra.Cfg

variable {r : Nat}

variable {T : Nat} {first : Nat → First T}
variable {alts : List (Alt T)}

/-- Every item counts. -/
def allItems : Entry T → Bool := fun _ => true

/-- The symbol of an item. -/
def Entry.sym : Entry T → Sym Nat (Entry T)
  | .rule r => .nt r
  | e => .tok e

/-! ## What an alternative starts with -/

theorem altFirsts_append (a b : Alt T) :
    (altFirsts first (a ++ b)).2 = ((altFirsts first a).2 && (altFirsts first b).2) ∧
      leftRules first (a ++ b) =
        leftRules first a ++ if (altFirsts first a).2 then leftRules first b else [] := by
  induction a with
  | nil => exact ⟨(Bool.true_and _).symm, rfl⟩
  | cons item a ih =>
      obtain ⟨entry, inlinable, tailCall⟩ := item
      cases entry with
      | predicate _ => exact ⟨rfl, rfl⟩
      | basic _ => exact ⟨rfl, rfl⟩
      | action _ => exact ih
      | rename _ => exact ih
      | rule m =>
          simp only [List.cons_append, altFirsts, leftRules]
          split
          · exact ⟨ih.1, by rw [ih.2, List.cons_append]⟩
          · exact ⟨rfl, rfl⟩

/-- Only the entries of the items count. -/
theorem altFirsts_entries {a b : Alt T} (h : a.map Item.entry = b.map Item.entry) :
    (altFirsts first a).2 = (altFirsts first b).2 ∧ leftRules first a = leftRules first b := by
  induction a generalizing b with
  | nil =>
      obtain rfl := List.map_eq_nil_iff.1 h.symm
      exact ⟨rfl, rfl⟩
  | cons item a ih =>
      obtain ⟨item', b, rfl, hentry, hmap⟩ := List.map_eq_cons_iff.1 h.symm
      obtain ⟨ih1, ih2⟩ := ih hmap.symm
      simp only [altFirsts, leftRules, hentry]
      cases item.entry with
      | predicate _ => exact ⟨rfl, rfl⟩
      | basic _ => exact ⟨rfl, rfl⟩
      | action _ => exact ⟨ih1, ih2⟩
      | rename _ => exact ⟨ih1, ih2⟩
      | rule m =>
          dsimp only
          split
          · exact ⟨ih1, by rw [ih2]⟩
          · exact ⟨rfl, rfl⟩

theorem leftRules_rule {item : Item T} {m : Nat} (h : item.entry = .rule m) (next : Alt T) :
    m ∈ leftRules first (item :: next) := by
  rw [leftRules, h]
  dsimp only
  split
  · exact List.mem_cons_self
  · exact List.mem_singleton_self m

/-- A rule at the start of an alternative that can be seen through. -/
theorem altFirsts_rule {item : Item T} {m : Nat} (h : item.entry = .rule m)
    (hsee : (first m).seeThrough = true) (next : Alt T) :
    (altFirsts first (item :: next)).2 = (altFirsts first next).2 ∧
      leftRules first (item :: next) = m :: leftRules first next := by
  simp only [altFirsts, leftRules, h]
  rw [if_pos hsee, if_pos hsee]
  exact ⟨rfl, rfl⟩

/-! ## Groups -/

/-- The alternatives of a group start with the same item, and those of different groups do
not. -/
structure Grouped (groups : List (AltGroup T)) : Prop where
  nonempty : ∀ group ∈ groups, group.alts ≠ []
  initial : ∀ group ∈ groups, ∀ alt ∈ group.alts, alt ≠ [] ∧ initial alt = group.initial
  apart : groups.Pairwise fun a b => a.initial ≠ b.initial

theorem mem_groupAlts {groups : List (AltGroup T)} {alt : Alt T} :
    alt ∈ groupAlts groups ↔ ∃ group ∈ groups, alt ∈ group.alts := List.mem_flatMap

theorem grouped_nil : Grouped ([] : List (AltGroup T)) :=
  ⟨fun _ h => absurd h List.not_mem_nil, fun _ h => absurd h List.not_mem_nil, List.Pairwise.nil⟩

theorem Grouped.tail {group : AltGroup T} {groups : List (AltGroup T)}
    (h : Grouped (group :: groups)) : Grouped groups :=
  ⟨fun a ha => h.nonempty a (List.mem_cons_of_mem _ ha),
    fun a ha => h.initial a (List.mem_cons_of_mem _ ha), (List.pairwise_cons.1 h.apart).2⟩

theorem Grouped.sublist {groups groups' : List (AltGroup T)} (h : Grouped groups)
    (hsub : groups'.Sublist groups) : Grouped groups' :=
  ⟨fun a ha => h.nonempty a (hsub.subset ha), fun a ha => h.initial a (hsub.subset ha),
    h.apart.sublist hsub⟩

theorem AltGroup.add_initial (group : AltGroup T) (alt : Alt T) :
    (group.add first alt).initial = Sid.initial alt := rfl

/-- An alternative gets into the group with its initial item. -/
theorem groupAlt_ok {alt : Alt T} (hne : alt ≠ []) {groups : List (AltGroup T)}
    (h : Grouped groups) :
    Grouped (groupAlt first alt groups) ∧
      (∀ a, a ∈ groupAlts (groupAlt first alt groups) ↔ a ∈ groupAlts groups ∨ a = alt) ∧
      ∀ group ∈ groupAlt first alt groups,
        group.initial = initial alt ∨ ∃ old ∈ groups, group.initial = old.initial := by
  induction groups with
  | nil =>
      refine ⟨⟨?_, ?_, List.pairwise_singleton _ _⟩, ?_, ?_⟩
      · intro group hgroup
        rw [List.mem_singleton.1 hgroup]
        exact List.cons_ne_nil _ _
      · intro group hgroup a ha
        rw [List.mem_singleton.1 hgroup] at ha ⊢
        rw [List.mem_singleton.1 ha]
        exact ⟨hne, rfl⟩
      · intro a
        simp [groupAlt, groupAlts, groupCreate]
      · intro group hgroup
        rw [List.mem_singleton.1 hgroup]
        exact Or.inl rfl
  | cons group groups ih =>
      obtain ⟨hgr, hmem, hinit⟩ := ih h.tail
      obtain ⟨hapart, hpair⟩ := List.pairwise_cons.1 h.apart
      rw [groupAlt]
      split
      · next heq =>
          refine ⟨⟨?_, ?_, List.pairwise_cons.2 ⟨?_, hpair⟩⟩, ?_, ?_⟩
          · intro b hb
            rcases List.mem_cons.1 hb with rfl | hb
            · exact List.cons_ne_nil _ _
            · exact h.nonempty b (List.mem_cons_of_mem _ hb)
          · intro b hb a ha
            rcases List.mem_cons.1 hb with rfl | hb
            · rw [AltGroup.add_initial]
              rcases List.mem_cons.1 ha with rfl | ha
              · exact ⟨hne, rfl⟩
              · rw [← heq]
                exact h.initial group List.mem_cons_self a ha
            · exact h.initial b (List.mem_cons_of_mem _ hb) a ha
          · intro b hb
            rw [AltGroup.add_initial, ← heq]
            exact hapart b hb
          · intro a
            simp only [groupAlts, List.flatMap_cons, List.mem_append, AltGroup.add, List.mem_cons]
            tauto
          · intro b hb
            rcases List.mem_cons.1 hb with rfl | hb
            · exact Or.inl rfl
            · exact Or.inr ⟨b, List.mem_cons_of_mem _ hb, rfl⟩
      · next hneq =>
          refine ⟨⟨?_, ?_, List.pairwise_cons.2 ⟨?_, hgr.apart⟩⟩, ?_, ?_⟩
          · intro b hb
            rcases List.mem_cons.1 hb with rfl | hb
            · exact h.nonempty b List.mem_cons_self
            · exact hgr.nonempty b hb
          · intro b hb
            rcases List.mem_cons.1 hb with rfl | hb
            · exact h.initial b List.mem_cons_self
            · exact hgr.initial b hb
          · intro b hb
            rcases hinit b hb with heq | ⟨old, hold, heq⟩
            · rw [heq]
              exact hneq
            · rw [heq]
              exact hapart old hold
          · intro a
            have ha := hmem a
            simp only [groupAlts, List.flatMap_cons, List.mem_append] at ha ⊢
            tauto
          · intro b hb
            rcases List.mem_cons.1 hb with rfl | hb
            · exact Or.inr ⟨b, List.mem_cons_self, rfl⟩
            · rcases hinit b hb with heq | ⟨old, hold, heq⟩
              · exact Or.inl heq
              · exact Or.inr ⟨old, List.mem_cons_of_mem _ hold, heq⟩

theorem groupByInitialItem_ok (alts : List (Alt T)) :
    ∀ groups groups' : List (AltGroup T), Grouped groups →
      groupByInitialItem first r groups alts = .ok groups' →
      Grouped groups' ∧ ∀ a, a ∈ groupAlts groups' ↔ a ∈ groupAlts groups ∨ a ∈ alts := by
  induction alts with
  | nil =>
      intro groups groups' h hok
      cases hok
      exact ⟨h, fun a => (or_iff_left List.not_mem_nil).symm⟩
  | cons alt alts ih =>
      intro groups groups' h hok
      rw [groupByInitialItem] at hok
      split at hok
      · cases hok
      · next hne =>
          obtain ⟨hgr, hmem, -⟩ := @groupAlt_ok T first alt hne groups h
          obtain ⟨hgr', hmem'⟩ := ih _ _ hgr hok
          refine ⟨hgr', fun a => ?_⟩
          rw [hmem', hmem, List.mem_cons, or_assoc]

/-! ## Common items -/

/-- The alternatives begin with the same entries, and the rest of each is left. -/
theorem stripCommon_ok (old : Alt T) :
    ∀ alts : List (Alt T),
      (stripCommon old alts).1 ++ (stripCommon old alts).2.1 = old ∧
      (stripCommon old alts).2.2 = alts.map (List.drop (stripCommon old alts).1.length) ∧
      ∀ alt ∈ alts, (alt.take (stripCommon old alts).1.length).map Item.entry =
        (stripCommon old alts).1.map Item.entry := by
  induction old with
  | nil =>
      intro alts
      refine ⟨rfl, ?_, fun _ _ => rfl⟩
      exact (List.map_id'' (fun _ => rfl) alts).symm
  | cons item old ih =>
      intro alts
      rw [stripCommon]
      split
      · next hall =>
          obtain ⟨hold, hrests, htake⟩ := ih (alts.map List.tail)
          refine ⟨?_, ?_, ?_⟩
          · exact congrArg (item :: ·) hold
          · dsimp only
            rw [hrests, List.map_map]
            refine List.map_congr_left fun alt _ => ?_
            rw [Function.comp, List.length_cons, List.drop_tail]
          · intro alt halt
            have hinit := of_decide_eq_true (List.all_eq_true.1 hall alt halt)
            cases alt with
            | nil => cases hinit
            | cons first next =>
                have hentry : first.entry = item.entry := Option.some.inj hinit
                have hnext := htake next (List.mem_map.2 ⟨_, halt, rfl⟩)
                dsimp only
                rw [List.length_cons, List.take_succ_cons, List.map_cons, List.map_cons, hentry,
                  hnext]
      · refine ⟨rfl, ?_, fun _ _ => rfl⟩
        exact (List.map_id'' (fun _ => rfl) alts).symm

/-- Alternatives with the same initial item have something in common. -/
theorem stripCommon_initial {old : Alt T} (hold : old ≠ [])
    (h : ∀ alt ∈ alts, initial alt = initial old) :
    (stripCommon old alts).1 ≠ [] ∧ initial (stripCommon old alts).1 = initial old := by
  cases old with
  | nil => exact absurd rfl hold
  | cons item old =>
      have hall : (alts.all fun alt => decide (initial alt = some item.entry)) = true :=
        List.all_eq_true.2 fun alt halt => decide_eq_true (h alt halt)
      rw [stripCommon, if_pos hall]
      exact ⟨List.cons_ne_nil _ _, rfl⟩

/-! ## New rules -/

theorem ok_of_bind {ε α β : Type} {x : Except ε α} {f : α → Except ε β} {b : β}
    (h : x >>= f = .ok b) : ∃ a, x = .ok a ∧ f a = .ok b := by
  cases x with
  | error e => cases h
  | ok a => exact ⟨a, rfl, h⟩

/-- An update of `r` does not count for an alternative without it. -/
theorem altFirsts_modify_of_ne (st : Firsts T) (f : First T → First T) {alt : Alt T}
    (h : ∀ item ∈ alt, item.entry ≠ .rule r) :
    altFirsts (st.modify r f).first alt = altFirsts st.first alt := by
  refine (altFirsts_congr alt fun m hm => Firsts.modify_first_of_ne st ?_ f).1
  rintro rfl
  obtain ⟨item, hitem, hentry⟩ := mem_leftRules hm
  exact h item hitem hentry

/-- The computation of a first set only changes the rule, where all others have been
computed. -/
theorem firstItems_frozen {rec : Nat → Firsts T → Except FirstError (Firsts T)}
    (hrec : ∀ m st, (st.first m).computed = true → rec m st = .ok st) (alt : Alt T) :
    ∀ (initial noAction : Bool) (priority : Nat) (st : Firsts T) (res : AltFirst T),
      (∀ item ∈ alt, ∀ m, item.entry = .rule m → m ≠ r ∧ (st.first m).computed = true) →
      firstItems rec r initial noAction priority alt st = .ok res →
      (∃ f, res.st = st.modify r f ∧ ∀ x, (f x).seeThrough = x.seeThrough) ∧
        res.seeThrough = (altFirsts st.first alt).2 := by
  induction alt with
  | nil =>
      intro initial noAction priority st res _ hok
      cases hok
      refine ⟨⟨id, ?_, fun _ => rfl⟩, rfl⟩
      rw [Firsts.modify, id, Function.update_eq_self]
  | cons item next ih =>
      intro initial noAction priority st res hcomp hok
      have hnext : ∀ i ∈ next, ∀ m, i.entry = .rule m → m ≠ r ∧ (st.first m).computed = true :=
        fun i hi => hcomp i (List.mem_cons_of_mem _ hi)
      rw [firstItems] at hok
      rw [altFirsts]
      cases hentry : item.entry with
      | predicate a =>
          rw [hentry] at hok
          dsimp only at hok
          split at hok
          · cases hok
            exact ⟨⟨fun f => { f with predicateFirst := addIfMissing f.predicateFirst a }, rfl,
              fun _ => rfl⟩, rfl⟩
          · cases hok
      | basic t =>
          rw [hentry] at hok
          cases hok
          exact ⟨⟨fun f => { f with firstSet := insert t f.firstSet }, rfl, fun _ => rfl⟩, rfl⟩
      | action a =>
          rw [hentry] at hok
          exact ih _ _ _ st res hnext hok
      | rename e =>
          rw [hentry] at hok
          exact ih _ _ _ st res hnext hok
      | rule m =>
          obtain ⟨hmr, hm⟩ := hcomp item List.mem_cons_self m hentry
          have hkeep := Firsts.modify_first_of_ne st hmr fun f => f.merge (st.first m)
          rw [hentry] at hok
          obtain ⟨st1, hst1, hok⟩ := ok_of_bind hok
          rw [hrec m st hm] at hst1
          cases hst1
          dsimp only at hok ⊢
          split at hok
          · cases hok
          rw [hkeep] at hok
          split at hok
          · next hsee =>
              rw [if_pos hsee]
              obtain ⟨⟨f, hf, hflag⟩, hthrough⟩ := ih _ _ _ _ res (fun i hi v hv => by
                obtain ⟨hvr, hv'⟩ := hnext i hi v hv
                rw [Firsts.modify_first_of_ne st hvr]
                exact ⟨hvr, hv'⟩) hok
              refine ⟨⟨fun x => f (x.merge (st.first m)), ?_, ?_⟩, ?_⟩
              · rw [hf, Firsts.modify_modify]
              · intro x
                rw [hflag]
                rfl
              · rw [hthrough, altFirsts_modify_of_ne]
                intro i hi heq
                exact (hnext i hi r heq).1 rfl
          · next hsee =>
              rw [if_neg hsee]
              cases hok
              exact ⟨⟨fun f => f.merge (st.first m), rfl, fun _ => rfl⟩, rfl⟩

theorem firstAlts_frozen {rec : Nat → Firsts T → Except FirstError (Firsts T)}
    (hrec : ∀ m st, (st.first m).computed = true → rec m st = .ok st) (alts : List (Alt T)) :
    ∀ (priority : Nat) (st : Firsts T) (res : Firsts T × Nat),
      (∀ alt ∈ alts, ∀ item ∈ alt, ∀ m, item.entry = .rule m →
        m ≠ r ∧ (st.first m).computed = true) →
      firstAlts rec r priority alts st = .ok res →
      ∃ f, res.1 = st.modify r f ∧ ((f (st.first r)).seeThrough = true ↔
        (st.first r).seeThrough = true ∨ ∃ alt ∈ alts, (altFirsts st.first alt).2 = true) := by
  induction alts with
  | nil =>
      intro priority st res _ hok
      cases hok
      refine ⟨id, ?_, by simp⟩
      rw [Firsts.modify, id, Function.update_eq_self]
  | cons alt alts ih =>
      intro priority st res hcomp hok
      obtain ⟨res1, hres1, hok⟩ := ok_of_bind hok
      obtain ⟨⟨f, hf, hflag⟩, hthrough⟩ := firstItems_frozen hrec alt true true priority st res1
        (hcomp alt List.mem_cons_self) hres1
      have hstep : ∃ f, (if res1.seeThrough then
          res1.st.modify r fun x => { x with seeThrough := true } else res1.st) = st.modify r f ∧
          ((f (st.first r)).seeThrough = true ↔
            (st.first r).seeThrough = true ∨ (altFirsts st.first alt).2 = true) := by
        split
        · next hsee =>
            refine ⟨fun x => { f x with seeThrough := true }, ?_, ?_⟩
            · rw [hf, Firsts.modify_modify]
            · exact iff_of_true rfl (Or.inr (hthrough ▸ hsee))
        · next hsee =>
            refine ⟨f, hf, ?_⟩
            rw [hflag, ← hthrough, or_iff_left hsee]
      obtain ⟨f1, hf1, hiff1⟩ := hstep
      dsimp only at hok
      rw [hf1] at hok
      obtain ⟨f2, hf2, hiff2⟩ := ih _ _ res (fun a ha i hi v hv => by
        obtain ⟨hvr, hv'⟩ := hcomp a (List.mem_cons_of_mem _ ha) i hi v hv
        rw [Firsts.modify_first_of_ne st hvr]
        exact ⟨hvr, hv'⟩) hok
      refine ⟨fun x => f2 (f1 x), ?_, ?_⟩
      · rw [hf2, Firsts.modify_modify]
      · rw [Firsts.modify_first_self, hiff1] at hiff2
        rw [hiff2, List.exists_mem_cons_iff, or_assoc]
        refine or_congr_right (or_congr_right ?_)
        refine exists_congr fun a => and_congr_right fun ha => ?_
        rw [altFirsts_modify_of_ne]
        intro i hi heq
        exact (hcomp a (List.mem_cons_of_mem _ ha) i hi r heq).1 rfl

/-- The first set of a new rule. -/
theorem computeFirstSet_frozen {g : Grammar T} {fuel : Nat} {st st' : Firsts T}
    (hblank : st.first r = First.blank)
    (hcomp : ∀ alt ∈ (g.rule r).alts, ∀ item ∈ alt, ∀ m, item.entry = .rule m →
      m ≠ r ∧ (st.first m).computed = true) (hok : computeFirstSet g (fuel + 2) r st = .ok st') :
    (∀ v, v ≠ r → st'.first v = st.first v) ∧ (st'.first r).computed = true ∧
      ((st'.first r).seeThrough = true ↔ (g.rule r).hasEmptyAlt = true ∨
        ∃ alt ∈ (g.rule r).alts, (altFirsts st.first alt).2 = true) := by
  have hrec : ∀ m (st : Firsts T), (st.first m).computed = true →
      computeFirstSet g (fuel + 1) m st = .ok st := by
    intro m st hm
    rw [computeFirstSet, if_pos hm]
  have hcomputed : ¬ (st.first r).computed = true := by
    rw [hblank]
    exact Bool.false_ne_true
  have hcomputing : ¬ (st.first r).computing = true := by
    rw [hblank]
    exact Bool.false_ne_true
  rw [computeFirstSet, if_neg hcomputed, if_neg hcomputing] at hok
  obtain ⟨res, hres, hok⟩ := ok_of_bind hok
  obtain ⟨f, hf, hiff⟩ := firstAlts_frozen hrec (g.rule r).alts 0 _ res (fun a ha i hi v hv => by
    obtain ⟨hvr, hv'⟩ := hcomp a ha i hi v hv
    rw [Firsts.modify_first_of_ne st hvr]
    exact ⟨hvr, hv'⟩) hres
  have hfirsts : ∀ alt ∈ (g.rule r).alts,
      altFirsts (st.modify r fun f => { f with computing := true }).first alt =
        altFirsts st.first alt := by
    intro alt halt
    refine altFirsts_modify_of_ne st _ fun item hitem heq => ?_
    exact (hcomp alt halt item hitem r heq).1 rfl
  rw [Firsts.modify_first_self, hblank] at hiff
  have hflag : (f { First.blank with computing := true }).seeThrough = true ↔
      ∃ alt ∈ (g.rule r).alts, (altFirsts st.first alt).2 = true := by
    refine hiff.trans ((or_iff_right Bool.false_ne_true).trans ?_)
    exact exists_congr fun alt => and_congr_right fun halt => by rw [hfirsts alt halt]
  have hend := finish_eq res.1 r (res.2 + 1) (g.rule r).hasEmptyAlt
  dsimp only at hok
  generalize (if (g.rule r).hasEmptyAlt then
    res.1.modify r fun f => { f with seeThrough := true } else res.1) = st2 at hend hok
  split at hok
  · cases hok
  rw [hend, hf, Firsts.modify_modify, Firsts.modify_modify] at hok
  cases hok
  refine ⟨fun v hv => Firsts.modify_first_of_ne st hv _, ?_, ?_⟩
  · rw [Firsts.modify_first_self]
    rfl
  · rw [Firsts.modify_first_self, hblank, First.finish, Bool.or_eq_true, hflag]

/-- One alternative of the new rule. -/
theorem newRule_step (n : Nat) (g : Grammar T) (alt : Alt T) {g' : Grammar T}
    (hg' : g' = if alt = [] then g.addEmptyAlt n else g.addAlt n alt) :
    g'.size = g.size ∧ (∀ v, v ≠ n → g'.rule v = g.rule v) ∧
      ((g'.rule n).hasEmptyAlt = true ↔ (g.rule n).hasEmptyAlt = true ∨ alt = []) ∧
      ∀ a, a ∈ (g'.rule n).alts ↔ a ∈ (g.rule n).alts ∨ a = alt ∧ a ≠ [] := by
  split at hg'
  · next hnil =>
      subst hg' hnil
      refine ⟨rfl, fun v hv => Function.update_of_ne hv _ _, ?_, ?_⟩
      · simp [Grammar.addEmptyAlt, Grammar.setRule]
      · intro a
        simp [Grammar.addEmptyAlt, Grammar.setRule]
  · next hne =>
      subst hg'
      refine ⟨rfl, fun v hv => Function.update_of_ne hv _ _, ?_, ?_⟩
      · simp [Grammar.addAlt, Grammar.setRule, hne]
      · intro a
        simp only [Grammar.addAlt, Grammar.setRule, Function.update_self, List.mem_append,
          List.mem_singleton]
        refine or_congr_right (iff_self_and.2 ?_)
        rintro rfl
        exact hne

/-- The alternatives of the new rule. -/
theorem newRule_ok (n : Nat) (alts : List (Alt T)) :
    ∀ g g' : Grammar T,
      g' = alts.foldl (fun g alt => if alt = [] then g.addEmptyAlt n else g.addAlt n alt) g →
      g'.size = g.size ∧ (∀ v, v ≠ n → g'.rule v = g.rule v) ∧
        ((g'.rule n).hasEmptyAlt = true ↔ (g.rule n).hasEmptyAlt = true ∨ [] ∈ alts) ∧
        ∀ a, a ∈ (g'.rule n).alts ↔ a ∈ (g.rule n).alts ∨ a ∈ alts ∧ a ≠ [] := by
  induction alts with
  | nil =>
      rintro g _ rfl
      simp
  | cons alt alts ih =>
      intro g g' hg'
      obtain ⟨hsize, hother, hempty, halts⟩ := newRule_step n g alt rfl
      obtain ⟨hsize', hother', hempty', halts'⟩ := ih _ g' hg'
      refine ⟨hsize'.trans hsize, fun v hv => (hother' v hv).trans (hother v hv), ?_, ?_⟩
      · rw [hempty']
        refine (or_congr_left hempty).trans ?_
        rw [or_assoc, List.mem_cons, eq_comm (a := alt)]
      · intro a
        rw [halts']
        refine (or_congr_left (halts a)).trans ?_
        rw [or_assoc, List.mem_cons, ← or_and_right]

/-- What the creation of a rule from the alternatives `rests` leaves. -/
structure Created (rests : List (Alt T)) (st st' : Factoring T) : Prop where
  size : st'.g.size = st.g.size + 1
  other : ∀ v, v ≠ st.g.size → st'.g.rule v = st.g.rule v
  empty : (st'.g.rule st.g.size).hasEmptyAlt = true ↔ [] ∈ rests
  alts : ∀ a, a ∈ (st'.g.rule st.g.size).alts ↔ a ∈ rests ∧ a ≠ []
  firsts : ∀ v, v ≠ st.g.size → st'.firsts.first v = st.firsts.first v
  computed : (st'.firsts.first st.g.size).computed = true
  seeThrough : (st'.firsts.first st.g.size).seeThrough = true ↔
    ∃ alt ∈ rests, (altFirsts st.firsts.first alt).2 = true
  factored : st'.factored = Function.update st.factored st.g.size false

theorem createFactored_ok {limit : Nat} {st : Factoring T} {res : Item T × Factoring T}
    (hok : createFactored limit alts st = .ok res)
    (hcomp : ∀ alt ∈ alts, ∀ item ∈ alt, ∀ m, item.entry = .rule m →
      m < st.g.size ∧ (st.firsts.first m).computed = true) :
    res.1 = itemCreate (.rule st.g.size) ∧ Created alts st res.2 := by
  unfold createFactored at hok
  split at hok
  · cases hok
  dsimp only at hok
  obtain ⟨hsize, hother, hempty, halts⟩ := newRule_ok st.g.size alts st.g.addGeneratedRule _ rfl
  generalize alts.foldl
    (fun g alt => if alt = [] then g.addEmptyAlt st.g.size else g.addAlt st.g.size alt)
    st.g.addGeneratedRule = g' at hok hsize hother hempty halts
  have hfresh : (st.g.addGeneratedRule.rule st.g.size) = ruleCreate := Function.update_self _ _ _
  rw [hfresh] at hempty halts
  split at hok
  · cases hok
  next firsts hfirsts =>
  cases hok
  have hne : ∀ {alt}, alt ∈ alts → ∀ item ∈ alt, item.entry ≠ .rule st.g.size := by
    intro alt halt item hitem heq
    exact absurd (hcomp alt halt item hitem _ heq).1 (Nat.lt_irrefl _)
  have hmem : ∀ a, a ∈ (g'.rule st.g.size).alts ↔ a ∈ alts ∧ a ≠ [] := by
    intro a
    rw [halts]
    exact or_iff_right List.not_mem_nil
  rw [hsize] at hfirsts
  obtain ⟨hkeep, hcomputed, hflag⟩ := computeFirstSet_frozen
    (by rw [Firsts.modify_first_self]) (fun alt halt item hitem m hm => by
      obtain ⟨hlt, hc⟩ := hcomp alt ((hmem alt).1 halt).1 item hitem m hm
      rw [Firsts.modify_first_of_ne _ (Nat.ne_of_lt hlt)]
      exact ⟨Nat.ne_of_lt hlt, hc⟩) hfirsts
  refine ⟨rfl, hsize, ?_, ?_, hmem, ?_, hcomputed, ?_, rfl⟩
  · intro v hv
    rw [hother v hv]
    exact Function.update_of_ne hv _ _
  · rw [hempty]
    exact or_iff_right Bool.false_ne_true
  · intro v hv
    rw [hkeep v hv, Firsts.modify_first_of_ne _ hv]
  · rw [hflag, hempty]
    constructor
    · rintro (h | ⟨alt, halt, hsee⟩)
      · exact ⟨[], h.resolve_left Bool.false_ne_true, rfl⟩
      · have halt' := ((hmem alt).1 halt).1
        rw [altFirsts_modify_of_ne _ _ (hne halt')] at hsee
        exact ⟨alt, halt', hsee⟩
    · rintro ⟨alt, halt, hsee⟩
      by_cases hnil : alt = []
      · exact Or.inl (Or.inr (hnil ▸ halt))
      · refine Or.inr ⟨alt, (hmem alt).2 ⟨halt, hnil⟩, ?_⟩
        rw [altFirsts_modify_of_ne _ _ (hne halt)]
        exact hsee

/-- A group becomes one alternative: its alternatives were equal, or a rule has been created
from what they do not have in common. -/
theorem factorGroup_ok {limit : Nat} (hne : alts ≠ []) {e : Option (Entry T)}
    (halts : ∀ alt ∈ alts, alt ≠ [] ∧ initial alt = e) {st : Factoring T}
    {res : Alt T × Factoring T} (hok : factorGroup limit alts st = .ok res) :
    (res.2 = st ∧ res.1 ≠ [] ∧ initial res.1 = e ∧
        ∀ alt ∈ alts, alt.map Item.entry = res.1.map Item.entry) ∨
      ∃ pre, pre ≠ [] ∧ initial pre = e ∧
        (∀ alt ∈ alts, (alt.take pre.length).map Item.entry = pre.map Item.entry) ∧
        ∃ created, createFactored limit (alts.map (List.drop pre.length)) st = .ok created ∧
          res = (pre ++ [created.1], created.2) := by
  match alts, hne, halts, hok with
  | [alt], _, halts, hok =>
      cases hok
      obtain ⟨halt, hinit⟩ := halts alt (List.mem_singleton_self alt)
      refine Or.inl ⟨rfl, halt, hinit, fun a ha => ?_⟩
      rw [List.mem_singleton.1 ha]
  | old :: other :: others, _, halts, hok =>
      obtain ⟨hold, hinit⟩ := halts old List.mem_cons_self
      obtain ⟨hsplit, hrests, htake⟩ := stripCommon_ok old (other :: others)
      obtain ⟨hpre, hpreinit⟩ := stripCommon_initial hold fun alt halt =>
        (halts alt (List.mem_cons_of_mem _ halt)).2.trans hinit.symm
      unfold factorGroup at hok
      dsimp only at hok
      generalize stripCommon old (other :: others) = common at hok hsplit hrests htake hpre hpreinit
      have hall : ∀ alt ∈ old :: other :: others,
          (alt.take common.1.length).map Item.entry = common.1.map Item.entry := by
        intro alt halt
        rcases List.mem_cons.1 halt with rfl | halt
        · rw [← hsplit, List.take_left]
        · exact htake alt halt
      have hleft : common.2.1 :: common.2.2 =
          (old :: other :: others).map (List.drop common.1.length) := by
        rw [List.map_cons, hrests, ← hsplit, List.drop_left]
      split at hok
      · next hempty =>
          cases hok
          refine Or.inl ⟨rfl, hpre, hpreinit.trans hinit, fun alt halt => ?_⟩
          rw [hleft] at hempty
          have hdrop := List.all_eq_true.1 hempty _ (List.mem_map_of_mem halt)
          rw [List.isEmpty_iff] at hdrop
          rw [← hall alt halt]
          conv => lhs; rw [← List.take_append_drop common.1.length alt, hdrop, List.append_nil]
      · rw [hleft] at hok
        obtain ⟨created, hcreated, hok⟩ := ok_of_bind hok
        cases hok
        exact Or.inr ⟨common.1, hpre, hpreinit.trans hinit, hall, created, hcreated, rfl⟩

end Tendra.Ref.Sid
